import Mkros.Kernel.VmSpec
/-!
# `mappages` installs the translation it is asked for

`walk(pagetable, va, 0)` reads one entry a level and ends at an entry of a
table at level 0; `lookup` is that reading, `leafFrom` the valid leaf it finds
and `translation` that leaf from the root. `Reads` lists the entries the
reading looks at.

A well-formed table is a tree: `Shape` gives each of its pages a level, the
root the top one, and asks that a valid entry of a table at level `l + 1`
point to a table at level `l`, no two of them to the same one. Two readings
that meet at an entry have come down the same way (`reads_unique`,
`lookup_unique`), so an entry belongs to one page of addresses.

`walk` with `alloc` follows the valid entries and, at the first invalid one,
links in pages from `alloc_pages`; with pages that are not the table's it keeps
the shape and changes no other address's translation (`walkLoop_alloc_spec`).
`mappages` then writes each leaf where the address had none
(`mapOne_spec`, `mapLoop_spec`), and the leaf reads back as the page asked for
where `perm` stays in the ten flag bits and the page number in the PTE's
(`mappages_installs_translation`).
-/

namespace Mkros

namespace Vm

open Riscv

/-! ## What `walk` reads -/

/-- The entry `walk(t, va, 0)` ends at, from the table `t` at `level`: `none`
where a table on the way is missing. -/
def lookup (mem : Mem) (va : Nat) : Nat → Nat → Option Nat
  | 0, t => some (t + 8 * PX 0 va)
  | level + 1, t =>
    if mem (t + 8 * PX (level + 1) va) &&& PTE_V ≠ 0 then
      lookup mem va level (PTE2PA (mem (t + 8 * PX (level + 1) va)))
    else none

/-- The valid leaf entry that maps `va` from the table `t` at `level`. -/
def leafFrom (mem : Mem) (va level t : Nat) : Option UInt64 :=
  match lookup mem va level t with
  | none => none
  | some e => if mem e &&& PTE_V ≠ 0 then some (mem e) else none

/-- **The translation of `va`** in the table at `root`: the valid leaf entry
`walk(root, va, 0)` finds. -/
def translation (mem : Mem) (root va : Nat) : Option UInt64 := leafFrom mem va WALK_LEVEL root

/-- The entries the reading of `va` from `t` at `level` looks at. -/
def Reads (mem : Mem) (va : Nat) : Nat → Nat → Nat → Prop
  | 0, t, a => a = t + 8 * PX 0 va
  | level + 1, t, a => a = t + 8 * PX (level + 1) va ∨
      (mem (t + 8 * PX (level + 1) va) &&& PTE_V ≠ 0 ∧
        Reads mem va level (PTE2PA (mem (t + 8 * PX (level + 1) va))) a)

/-- The tables `walk` with `alloc` has to make for `va` from the table `t` at
`level`: those below the first invalid entry of the reading, none where the
reading reaches level `0`. -/
def missing (mem : Mem) (va : Nat) : Nat → Nat → Nat
  | 0, _ => 0
  | level + 1, t =>
    if mem (t + 8 * PX (level + 1) va) &&& PTE_V ≠ 0 then
      missing mem va level (PTE2PA (mem (t + 8 * PX (level + 1) va)))
    else level + 1

/-- **A well-formed page table**, with a level for each of its pages: each is
a page, a valid entry of a table at level `l + 1` points to a table at level
`l`, and no two valid entries point to the same table. -/
structure Shape (mem : Mem) (lvl : Nat → Option Nat) : Prop where
  page : ∀ t l, lvl t = some l → t % PGSIZE = 0 ∧ t ≠ 0
  child : ∀ t l, lvl t = some (l + 1) → ∀ i < 512, mem (t + 8 * i) &&& PTE_V ≠ 0 →
    lvl (PTE2PA (mem (t + 8 * i))) = some l
  inj : ∀ t t' l l' i i', lvl t = some (l + 1) → lvl t' = some (l' + 1) → i < 512 → i' < 512 →
    mem (t + 8 * i) &&& PTE_V ≠ 0 → mem (t' + 8 * i') &&& PTE_V ≠ 0 →
    PTE2PA (mem (t + 8 * i)) = PTE2PA (mem (t' + 8 * i')) → t = t' ∧ i = i'

/-! ## Entries and pages -/

theorem PX_lt (level va : Nat) : PX level va < 512 :=
  Nat.lt_of_le_of_lt (Nat.and_le_right) (by decide)

/-- An entry's address gives back its table and its index. -/
theorem entry_inj {t t' i i' : Nat} (ht : t % PGSIZE = 0) (ht' : t' % PGSIZE = 0) (hi : i < 512) (hi' : i' < 512)
    (h : t + 8 * i = t' + 8 * i') : t = t' ∧ i = i' := by
  unfold PGSIZE at ht ht'
  omega

/-- Two addresses whose indices agree at every level below `MAX_VA` lie in one
page. -/
theorem pgrounddown_eq_of_PX {va va' : Nat} (hva : va < MAX_VA) (hva' : va' < MAX_VA)
    (h : ∀ k ≤ WALK_LEVEL, PX k va = PX k va') : PGROUNDDOWN va = PGROUNDDOWN va' := by
  -- the four nine-bit fields above the page offset
  have h0 : va / 4096 % 512 = va' / 4096 % 512 := by simpa [PX_eq_vpn, RiscvPaging.vpn] using h 0 (by decide)
  have h1 : va / 2097152 % 512 = va' / 2097152 % 512 := by simpa [PX_eq_vpn, RiscvPaging.vpn] using h 1 (by decide)
  have h2 : va / 1073741824 % 512 = va' / 1073741824 % 512 := by
    simpa [PX_eq_vpn, RiscvPaging.vpn] using h 2 (by decide)
  have h3 : va / 549755813888 % 512 = va' / 549755813888 % 512 := by
    simpa [PX_eq_vpn, RiscvPaging.vpn] using h 3 (by decide)
  have hmax : MAX_VA = 140737488355328 := rfl
  simp only [PGROUNDDOWN, PGSIZE]
  omega

/-! ## The entries `mappages` writes -/

theorem PA2PTE_toNat {x : Nat} (hx : x < 2 ^ 56) : (PA2PTE x).toNat = x / 4096 * 1024 := by
  have h64 : x % 2 ^ 64 = x := Nat.mod_eq_of_lt (by omega)
  simp only [PA2PTE, UInt64.toNat_shiftLeft, UInt64.toNat_shiftRight, Nat.toUInt64, UInt64.toNat_ofNat', h64,
    Nat.shiftLeft_eq, Nat.shiftRight_eq_div_pow, show (12 : UInt64).toNat % 64 = 12 from rfl,
    show (10 : UInt64).toNat % 64 = 10 from rfl]
  omega

theorem flags_toNat_lt {perm : UInt64} (hperm : perm.toNat < 1024) : (perm ||| PTE_V).toNat < 1024 := by
  rw [UInt64.toNat_or]
  exact Nat.or_lt_two_pow (n := 10) hperm (by decide)

/-- The leaf `mappages` writes, as a number: the page number above the ten
flag bits, where `perm` fits them and the page the PTE's 44 bits. -/
theorem leaf_toNat {x : Nat} {perm : UInt64} (hx : x < 2 ^ 56) (hperm : perm.toNat < 1024) :
    (PA2PTE x ||| perm ||| PTE_V).toNat = x / 4096 * 1024 + (perm ||| PTE_V).toNat := by
  rw [UInt64.or_assoc, UInt64.toNat_or, PA2PTE_toNat hx, show x / 4096 * 1024 = (x / 4096) <<< 10 by
    rw [Nat.shiftLeft_eq], ← Nat.shiftLeft_add_eq_or_of_lt (flags_toNat_lt hperm)]

theorem PTE2PA_leaf {x : Nat} {perm : UInt64} (hx : x < 2 ^ 56) (hperm : perm.toNat < 1024) :
    PTE2PA (PA2PTE x ||| perm ||| PTE_V) = PGROUNDDOWN x := by
  have hf := flags_toNat_lt hperm
  simp only [PTE2PA, UInt64.toNat_shiftLeft, UInt64.toNat_shiftRight, leaf_toNat hx hperm,
    Nat.shiftLeft_eq, Nat.shiftRight_eq_div_pow, show (12 : UInt64).toNat % 64 = 12 from rfl,
    show (10 : UInt64).toNat % 64 = 10 from rfl, PGROUNDDOWN, PGSIZE]
  omega

theorem PTE_FLAGS_leaf {x : Nat} {perm : UInt64} (hx : x < 2 ^ 56) (hperm : perm.toNat < 1024) :
    PTE_FLAGS (PA2PTE x ||| perm ||| PTE_V) = perm ||| PTE_V := by
  have hf := flags_toNat_lt hperm
  apply UInt64.toNat_inj.mp
  rw [PTE_FLAGS, UInt64.toNat_and, leaf_toNat hx hperm, show (0x3FF : UInt64).toNat = 2 ^ 10 - 1 from rfl,
    Nat.and_two_pow_sub_one_eq_mod]
  omega

/-- An entry with `PTE_V` or-ed in is valid. -/
theorem valid_or_V (v : UInt64) : (v ||| PTE_V) &&& PTE_V ≠ 0 := by
  rw [show (v ||| PTE_V) &&& PTE_V = 1 by
    apply UInt64.toNat_inj.mp
    simp [PTE_V, UInt64.toNat_and, UInt64.toNat_or]]
  decide

/-- The entry `walk` links a new table with points to it. -/
theorem PTE2PA_pointer {p : Nat} (hp : p % PGSIZE = 0) (hlt : p < 2 ^ 56) : PTE2PA (PA2PTE p ||| PTE_V) = p := by
  have h : PTE2PA (PA2PTE p ||| 0 ||| PTE_V) = PGROUNDDOWN p := PTE2PA_leaf hlt (by decide)
  rw [UInt64.or_zero] at h
  rw [h]
  unfold PGROUNDDOWN
  unfold PGSIZE at hp ⊢
  omega

/-! ## Reading the table -/

section Read

variable {mem mem' : Mem} {va : Nat}

theorem lookup_succ_of_valid {l t : Nat} (h : mem (t + 8 * PX (l + 1) va) &&& PTE_V ≠ 0) :
    lookup mem va (l + 1) t = lookup mem va l (PTE2PA (mem (t + 8 * PX (l + 1) va))) := by
  rw [lookup, if_pos h]

theorem lookup_succ_of_invalid {l t : Nat} (h : ¬mem (t + 8 * PX (l + 1) va) &&& PTE_V ≠ 0) :
    lookup mem va (l + 1) t = none := by
  rw [lookup, if_neg h]

theorem leafFrom_succ_of_valid {l t : Nat} (h : mem (t + 8 * PX (l + 1) va) &&& PTE_V ≠ 0) :
    leafFrom mem va (l + 1) t = leafFrom mem va l (PTE2PA (mem (t + 8 * PX (l + 1) va))) := by
  unfold leafFrom
  rw [lookup_succ_of_valid h]

theorem leafFrom_succ_of_invalid {l t : Nat} (h : ¬mem (t + 8 * PX (l + 1) va) &&& PTE_V ≠ 0) :
    leafFrom mem va (l + 1) t = none := by
  unfold leafFrom
  rw [lookup_succ_of_invalid h]

/-- A leaf read at its entry. -/
theorem leafFrom_of_lookup {l t e : Nat} (h : lookup mem va l t = some e) :
    leafFrom mem va l t = if mem e &&& PTE_V ≠ 0 then some (mem e) else none := by
  unfold leafFrom
  rw [h]

/-- **`walk` without `alloc` is `lookup`**: it changes nothing, and returns
the entry, or `0` where a table is missing. -/
theorem walkLoop_false (st : Machine) (t va l : Nat) :
    walkLoop st t va false l = (st, (lookup st.mem va l t).getD 0) := by
  induction l generalizing t with
  | zero => rfl
  | succ l ih =>
    by_cases h : st.mem (t + 8 * PX (l + 1) va) &&& PTE_V ≠ 0
    · rw [walkLoop_succ_of_valid h, lookup_succ_of_valid h, ih]
    · rw [walkLoop, if_neg h, lookup_succ_of_invalid h]
      rfl

theorem reads_of_lookup : ∀ {l t e : Nat}, lookup mem va l t = some e → Reads mem va l t e
  | 0, _, _, h => (Option.some.inj h).symm
  | l + 1, t, e, h => by
    by_cases hv : mem (t + 8 * PX (l + 1) va) &&& PTE_V ≠ 0
    · rw [lookup_succ_of_valid hv] at h
      exact Or.inr ⟨hv, reads_of_lookup h⟩
    · rw [lookup_succ_of_invalid hv] at h
      cases h

/-- **Two memories that agree on what the reading looks at read alike.** -/
theorem lookup_congr : ∀ {l t : Nat}, (∀ a, Reads mem va l t a → mem' a = mem a) →
    lookup mem' va l t = lookup mem va l t
  | 0, _, _ => rfl
  | l + 1, t, h => by
    have ha := h _ (Or.inl rfl)
    by_cases hv : mem (t + 8 * PX (l + 1) va) &&& PTE_V ≠ 0
    · rw [lookup_succ_of_valid hv, lookup_succ_of_valid (by rw [ha]; exact hv), ha]
      exact lookup_congr fun a hr => h a (Or.inr ⟨hv, hr⟩)
    · rw [lookup_succ_of_invalid hv, lookup_succ_of_invalid (by rw [ha]; exact hv)]

theorem leafFrom_congr {l t : Nat} (h : ∀ a, Reads mem va l t a → mem' a = mem a) :
    leafFrom mem' va l t = leafFrom mem va l t := by
  cases hl : lookup mem va l t with
  | none =>
    unfold leafFrom
    rw [lookup_congr h, hl]
  | some e =>
    rw [leafFrom_of_lookup hl, leafFrom_of_lookup (by rw [lookup_congr h]; exact hl), h e (reads_of_lookup hl)]

/-- Nothing is mapped through a table of zeroes. -/
theorem leafFrom_of_zero {p : Nat} (hz : ∀ i < 512, mem (p + 8 * i) = 0) : ∀ l, leafFrom mem va l p = none
  | 0 => by
    rw [leafFrom_of_lookup rfl, hz _ (PX_lt _ _)]
    rfl
  | _ + 1 => leafFrom_succ_of_invalid (by rw [hz _ (PX_lt _ _)]; decide)

/-- The reading stops at the first entry of a table of zeroes. -/
theorem reads_of_zero {p : Nat} (hz : ∀ i < 512, mem (p + 8 * i) = 0) :
    ∀ {l a}, Reads mem va l p a → a = p + 8 * PX l va
  | 0, _, h => h
  | _ + 1, _, h => by
    rcases h with h | ⟨hv, _⟩
    · exact h
    · rw [hz _ (PX_lt _ _)] at hv
      exact absurd rfl hv

theorem missing_succ_of_valid {l t : Nat} (h : mem (t + 8 * PX (l + 1) va) &&& PTE_V ≠ 0) :
    missing mem va (l + 1) t = missing mem va l (PTE2PA (mem (t + 8 * PX (l + 1) va))) := by
  rw [missing, if_pos h]

theorem missing_succ_of_invalid {l t : Nat} (h : ¬mem (t + 8 * PX (l + 1) va) &&& PTE_V ≠ 0) :
    missing mem va (l + 1) t = l + 1 := by
  rw [missing, if_neg h]

theorem missing_le : ∀ (l t : Nat), missing mem va l t ≤ l
  | 0, _ => Nat.le_refl 0
  | l + 1, t => by
    by_cases h : mem (t + 8 * PX (l + 1) va) &&& PTE_V ≠ 0
    · rw [missing_succ_of_valid h]
      exact Nat.le_succ_of_le (missing_le l _)
    · rw [missing_succ_of_invalid h]

/-- **Where the reading of `v` reaches level `0`, an address that agrees with
`v` above level `j` misses at most `j` tables**: down to there it reads the
same valid entries. -/
theorem missing_le_of_agree {v v' e j : Nat} : ∀ {l t : Nat}, lookup mem v l t = some e →
    (∀ k, j < k → k ≤ l → PX k v' = PX k v) → missing mem v' l t ≤ j
  | 0, _, _, _ => Nat.zero_le j
  | l + 1, t, hl, hagree => by
    by_cases hj : l + 1 ≤ j
    · exact Nat.le_trans (missing_le _ _) hj
    -- above `j` both readings take the same entry of `t`, a valid one
    have hpx : PX (l + 1) v' = PX (l + 1) v := hagree (l + 1) (by omega) (Nat.le_refl _)
    have hv : mem (t + 8 * PX (l + 1) v) &&& PTE_V ≠ 0 := fun hinv => by
      rw [lookup_succ_of_invalid (not_not_intro hinv)] at hl
      cases hl
    rw [lookup_succ_of_valid hv] at hl
    rw [missing_succ_of_valid (show mem (t + 8 * PX (l + 1) v') &&& PTE_V ≠ 0 by rw [hpx]; exact hv), hpx]
    exact missing_le_of_agree hl fun k hk hkl => hagree k hk (by omega)

theorem lookup_of_leafFrom {l t : Nat} {x : UInt64} (h : leafFrom mem va l t = some x) :
    ∃ e, lookup mem va l t = some e := by
  unfold leafFrom at h
  split at h
  · cases h
  · exact ⟨_, ‹_›⟩

end Read

/-! ## The shape of the table -/

section Shape

variable {mem mem' : Mem} {lvl : Nat → Option Nat}

/-- An entry of the table has one table, one index, and so one level. -/
theorem Shape.entry_eq (hs : Shape mem lvl) {u u' k k' i i' : Nat} (hu : lvl u = some k) (hu' : lvl u' = some k')
    (hi : i < 512) (hi' : i' < 512) (h : u + 8 * i = u' + 8 * i') : u = u' ∧ k = k' ∧ i = i' := by
  obtain ⟨rfl, rfl⟩ := entry_inj (hs.page u k hu).1 (hs.page u' k' hu').1 hi hi' h
  exact ⟨rfl, Option.some.inj (hu.symm.trans hu'), rfl⟩

/-- What a reading from a table at `level` looks at lies in a table at a
level no higher. -/
theorem Shape.reads_mem (hs : Shape mem lvl) {va : Nat} : ∀ {l t a : Nat}, lvl t = some l → Reads mem va l t a →
    ∃ u k i, lvl u = some k ∧ k ≤ l ∧ i < 512 ∧ a = u + 8 * i
  | 0, t, _, ht, h => ⟨t, 0, PX 0 va, ht, Nat.le_refl 0, PX_lt _ _, h⟩
  | l + 1, t, _, ht, h => by
    rcases h with h | ⟨hv, h⟩
    · exact ⟨t, l + 1, _, ht, Nat.le_refl _, PX_lt _ _, h⟩
    · obtain ⟨u, k, i, hu, hk, hi, rfl⟩ := hs.reads_mem (hs.child t l ht _ (PX_lt _ _) hv) h
      exact ⟨u, k, i, hu, Nat.le_succ_of_le hk, hi, rfl⟩

/-- **Readings meet in one table only.** Two readings from tables at one
level that look at one entry started from the same table: each table has one
entry pointing to it. -/
theorem Shape.reads_unique (hs : Shape mem lvl) {va va' : Nat} : ∀ {l c c' a : Nat}, lvl c = some l → lvl c' = some l →
    Reads mem va l c a → Reads mem va' l c' a → c = c'
  | 0, _, _, _, hc, hc', h, h' => (hs.entry_eq hc hc' (PX_lt _ _) (PX_lt _ _) (h.symm.trans h')).1
  | l + 1, c, c', _, hc, hc', h, h' => by
    rcases h with h | ⟨hv, h⟩ <;> rcases h' with h' | ⟨hv', h'⟩
    · exact (hs.entry_eq hc hc' (PX_lt _ _) (PX_lt _ _) (h.symm.trans h')).1
    · -- the entry is in `c`, at level `l + 1`, and deeper than `c'`
      obtain ⟨u, k, i, hu, hk, hi, rfl⟩ := hs.reads_mem (hs.child c' l hc' _ (PX_lt _ _) hv') h'
      have := (hs.entry_eq hc hu (PX_lt _ _) hi h.symm).2.1
      omega
    · obtain ⟨u, k, i, hu, hk, hi, rfl⟩ := hs.reads_mem (hs.child c l hc _ (PX_lt _ _) hv) h
      have := (hs.entry_eq hc' hu (PX_lt _ _) hi h'.symm).2.1
      omega
    · have hd := hs.reads_unique (hs.child c l hc _ (PX_lt _ _) hv) (hs.child c' l hc' _ (PX_lt _ _) hv') h h'
      exact (hs.inj c c' l l _ _ hc hc' (PX_lt _ _) (PX_lt _ _) hv hv' hd).1

/-- **Readings that end at one entry came down the same way**: the indices
agree at every level. -/
theorem Shape.lookup_unique (hs : Shape mem lvl) {va va' : Nat} : ∀ {l t t' e : Nat}, lvl t = some l → lvl t' = some l →
    lookup mem va l t = some e → lookup mem va' l t' = some e → t = t' ∧ ∀ k ≤ l, PX k va = PX k va'
  | 0, _, _, _, ht, ht', h, h' => by
    obtain ⟨htt, -, hpx⟩ := hs.entry_eq ht ht' (PX_lt _ _) (PX_lt _ _) ((Option.some.inj h).trans (Option.some.inj h').symm)
    refine ⟨htt, fun k hk => ?_⟩
    rw [Nat.le_zero.mp hk]
    exact hpx
  | l + 1, t, t', _, ht, ht', h, h' => by
    by_cases hv : mem (t + 8 * PX (l + 1) va) &&& PTE_V ≠ 0
    · by_cases hv' : mem (t' + 8 * PX (l + 1) va') &&& PTE_V ≠ 0
      · rw [lookup_succ_of_valid hv] at h
        rw [lookup_succ_of_valid hv'] at h'
        obtain ⟨hc, hpx⟩ := hs.lookup_unique (hs.child t l ht _ (PX_lt _ _) hv) (hs.child t' l ht' _ (PX_lt _ _) hv') h h'
        obtain ⟨htt, hi⟩ := hs.inj t t' l l _ _ ht ht' (PX_lt _ _) (PX_lt _ _) hv hv' hc
        refine ⟨htt, fun k hk => ?_⟩
        rcases Nat.lt_or_ge k (l + 1) with hlt | hge
        · exact hpx k (by omega)
        · rw [show k = l + 1 by omega]
          exact hi
      · rw [lookup_succ_of_invalid hv'] at h'
        cases h'
    · rw [lookup_succ_of_invalid hv] at h
      cases h

/-- The reading ends at an entry of a table at level 0. -/
theorem Shape.lookup_lands (hs : Shape mem lvl) {va : Nat} : ∀ {l t e : Nat}, lvl t = some l →
    lookup mem va l t = some e → ∃ u, lvl u = some 0 ∧ e = u + 8 * PX 0 va
  | 0, t, _, ht, h => ⟨t, ht, (Option.some.inj h).symm⟩
  | l + 1, t, _, ht, h => by
    by_cases hv : mem (t + 8 * PX (l + 1) va) &&& PTE_V ≠ 0
    · rw [lookup_succ_of_valid hv] at h
      exact hs.lookup_lands (hs.child t l ht _ (PX_lt _ _) hv) h
    · rw [lookup_succ_of_invalid hv] at h
      cases h

/-- What the reading looks at in a table at level 0 is where it ends. -/
theorem Shape.lookup_of_reads (hs : Shape mem lvl) {va u i : Nat} (hu : lvl u = some 0) (hi : i < 512) :
    ∀ {l t : Nat}, lvl t = some l → Reads mem va l t (u + 8 * i) → lookup mem va l t = some (u + 8 * i)
  | 0, _, _, h => by rw [h]; rfl
  | l + 1, t, ht, h => by
    rcases h with h | ⟨hv, h⟩
    · have := (hs.entry_eq ht hu (PX_lt _ _) hi h.symm).2.1
      omega
    · rw [lookup_succ_of_valid hv]
      exact hs.lookup_of_reads hu hi (hs.child t l ht _ (PX_lt _ _) hv) h

/-- **The shape rests on the pointer tables alone**: a memory that keeps
their entries keeps it. -/
theorem Shape.congr (hs : Shape mem lvl)
    (h : ∀ t l, lvl t = some (l + 1) → ∀ i < 512, mem' (t + 8 * i) = mem (t + 8 * i)) : Shape mem' lvl where
  page := hs.page
  child t l ht i hi hv := by
    rw [h t l ht i hi] at hv ⊢
    exact hs.child t l ht i hi hv
  inj t t' l l' i i' ht ht' hi hi' hv hv' heq := by
    rw [h t l ht i hi] at hv heq
    rw [h t' l' ht' i' hi'] at hv' heq
    exact hs.inj t t' l l' i i' ht ht' hi hi' hv hv' heq

/-- **A leaf read through a kept entry is kept**: where the entry of `t` for
`va` is as it was, and so is every entry the reading looks at in the tables
below it, the leaf is as it was. -/
theorem Shape.leafFrom_of_keeps (hs : Shape mem lvl) {l t va : Nat} (ht : lvl t = some (l + 1))
    (ha : mem' (t + 8 * PX (l + 1) va) = mem (t + 8 * PX (l + 1) va))
    (hkeep : mem (t + 8 * PX (l + 1) va) &&& PTE_V ≠ 0 → ∀ u k i, lvl u = some k → k ≤ l → i < 512 →
      Reads mem va l (PTE2PA (mem (t + 8 * PX (l + 1) va))) (u + 8 * i) → mem' (u + 8 * i) = mem (u + 8 * i)) :
    leafFrom mem' va (l + 1) t = leafFrom mem va (l + 1) t := by
  by_cases hv : mem (t + 8 * PX (l + 1) va) &&& PTE_V ≠ 0
  · rw [leafFrom_succ_of_valid (by rw [ha]; exact hv), leafFrom_succ_of_valid hv, ha]
    apply leafFrom_congr
    intro b hb
    obtain ⟨u, k, i, hu, hk, hi, rfl⟩ := hs.reads_mem (hs.child t l ht _ (PX_lt _ _) hv) hb
    exact hkeep hv u k i hu hk hi hb
  · rw [leafFrom_succ_of_invalid (by rw [ha]; exact hv), leafFrom_succ_of_invalid hv]

end Shape

/-! ## Linking a new table -/

/-- A page-aligned address `u`, other than `q`, holds no entry in the page at `q`. -/
theorem not_mem_page {u q i : Nat} (hu : u % PGSIZE = 0) (hq : q % PGSIZE = 0) (hne : u ≠ q) (hi : i < 512) :
    ¬(q ≤ u + 8 * i ∧ u + 8 * i < q + PGSIZE) := by
  unfold PGSIZE at *
  omega

theorem memsetPage_of_ne {mem : Mem} {p u j : Nat} (c : UInt8) (hp : p % PGSIZE = 0) (hu : u % PGSIZE = 0)
    (hne : u ≠ p) (hj : j < 512) : memsetPage mem p c (u + 8 * j) = mem (u + 8 * j) := by
  unfold memsetPage
  rw [if_neg (not_mem_page hu hp hne hj)]

theorem memsetPage_zero_self {mem : Mem} {p j : Nat} (hj : j < 512) : memsetPage mem p 0 (p + 8 * j) = 0 := by
  unfold memsetPage
  rw [if_pos (by unfold PGSIZE; omega)]
  rfl

section Link

variable {mem : Mem} {lvl : Nat → Option Nat} {t l i p : Nat}

/-- The entry linked points to the new table. -/
theorem link_self : Function.update (memsetPage mem p 0) (t + 8 * i) (PA2PTE p ||| PTE_V) (t + 8 * i) =
    PA2PTE p ||| PTE_V :=
  Function.update_self _ _ _

/-- The new table is zeroes. -/
theorem link_new (hs : Shape mem lvl) (ht : lvl t = some (l + 1)) (hi : i < 512) (hp : lvl p = none)
    (hpa : p % PGSIZE = 0) {j : Nat} (hj : j < 512) :
    Function.update (memsetPage mem p 0) (t + 8 * i) (PA2PTE p ||| PTE_V) (p + 8 * j) = 0 := by
  have hpt : p + 8 * j ≠ t + 8 * i := fun h => by
    rw [(entry_inj (hs.page t _ ht).1 hpa hi hj h.symm).1, hp] at ht
    cases ht
  rw [Function.update_of_ne hpt, memsetPage_zero_self hj]

/-- The other entries of the table are as they were. -/
theorem link_old (hs : Shape mem lvl) (hp : lvl p = none) (hpa : p % PGSIZE = 0) {u k j : Nat} (hu : lvl u = some k)
    (hj : j < 512) (he : u + 8 * j ≠ t + 8 * i) :
    Function.update (memsetPage mem p 0) (t + 8 * i) (PA2PTE p ||| PTE_V) (u + 8 * j) = mem (u + 8 * j) := by
  have hup : u ≠ p := fun h => by
    rw [h, hp] at hu
    cases hu
  rw [Function.update_of_ne he, memsetPage_of_ne 0 hpa (hs.page u k hu).1 hup hj]

/-- **Linking a new table keeps the shape.** A zeroed page outside the table
becomes the table at level `l` that an entry of a table at `l + 1` now points
to. -/
theorem Shape.link (hs : Shape mem lvl) (ht : lvl t = some (l + 1)) (hi : i < 512) (hp : lvl p = none) (hp0 : p ≠ 0)
    (hpa : p % PGSIZE = 0) (hlt : p < 2 ^ 56) :
    Shape (Function.update (memsetPage mem p 0) (t + 8 * i) (PA2PTE p ||| PTE_V)) (Function.update lvl p (some l)) := by
  have hne : ∀ u k, lvl u = some k → u ≠ p := fun u k hu h => by
    rw [h, hp] at hu
    cases hu
  have hlvl : ∀ u, u ≠ p → Function.update lvl p (some l) u = lvl u := fun u h => Function.update_of_ne h _ _
  -- an old entry is the linked one or as it was
  have hold : ∀ u k, lvl u = some k → ∀ j < 512,
      Function.update (memsetPage mem p 0) (t + 8 * i) (PA2PTE p ||| PTE_V) (u + 8 * j) =
        if u + 8 * j = t + 8 * i then PA2PTE p ||| PTE_V else mem (u + 8 * j) := by
    intro u k hu j hj
    by_cases he : u + 8 * j = t + 8 * i
    · rw [if_pos he, he, link_self]
    · rw [if_neg he, link_old hs hp hpa hu hj he]
  -- an entry of the new table is never valid
  have hinv0 : ∀ j < 512, ¬Function.update (memsetPage mem p 0) (t + 8 * i) (PA2PTE p ||| PTE_V) (p + 8 * j) &&&
      PTE_V ≠ 0 := by
    intro j hj
    rw [link_new hs ht hi hp hpa hj]
    exact fun h => h UInt64.zero_and
  have hvalid : ∀ u j, j < 512 →
      Function.update (memsetPage mem p 0) (t + 8 * i) (PA2PTE p ||| PTE_V) (u + 8 * j) &&& PTE_V ≠ 0 → u ≠ p := by
    intro u j hj hv h
    rw [h] at hv
    exact hinv0 j hj hv
  refine ⟨fun u k hu => ?_, fun u k hu j hj hv => ?_, fun u u' k k' j j' hu hu' hj hj' hv hv' heq => ?_⟩
  · by_cases h : u = p
    · rw [h]
      exact ⟨hpa, hp0⟩
    · rw [hlvl u h] at hu
      exact hs.page u k hu
  · rw [hlvl u (hvalid u j hj hv)] at hu
    rw [hold u _ hu j hj] at hv ⊢
    by_cases he : u + 8 * j = t + 8 * i
    · -- the linked entry points to the new table, one level down
      rw [if_pos he, PTE2PA_pointer hpa hlt, Function.update_self]
      have hk := (hs.entry_eq hu ht hj hi he).2.1
      rw [show k = l by omega]
    · rw [if_neg he] at hv ⊢
      have hc := hs.child u k hu j hj hv
      rw [hlvl _ (hne _ _ hc)]
      exact hc
  · rw [hlvl u (hvalid u j hj hv)] at hu
    rw [hlvl u' (hvalid u' j' hj' hv')] at hu'
    rw [hold u _ hu j hj] at hv heq
    rw [hold u' _ hu' j' hj'] at hv' heq
    by_cases he : u + 8 * j = t + 8 * i <;> by_cases he' : u' + 8 * j' = t + 8 * i
    · obtain ⟨h₁, -, h₂⟩ := hs.entry_eq hu hu' hj hj' (he.trans he'.symm)
      exact ⟨h₁, h₂⟩
    · -- one points to the new table, the other to a table of the old
      rw [if_pos he, if_neg he', PTE2PA_pointer hpa hlt] at heq
      rw [if_neg he'] at hv'
      have hc := hs.child u' k' hu' j' hj' hv'
      rw [← heq, hp] at hc
      cases hc
    · rw [if_neg he, if_pos he', PTE2PA_pointer hpa hlt] at heq
      rw [if_neg he] at hv
      have hc := hs.child u k hu j hj hv
      rw [heq, hp] at hc
      cases hc
    · rw [if_neg he, if_neg he'] at heq
      rw [if_neg he] at hv
      rw [if_neg he'] at hv'
      exact hs.inj u u' k k' j j' hu hu' hj hj' hv hv' heq

end Link

/-! ## The tables a range of pages spans -/

/-- The tables below the root that the pages from `cur` to `last` reach: one
at level `0` for each 2 MiB block they meet, one at level `1` for each GiB,
one at level `2` for each 512 GiB. `walk` makes no others for them. -/
def tablesSpanned (cur last : Nat) : Nat :=
  (last / 2 ^ 21 - cur / 2 ^ 21 + 1) + (last / 2 ^ 30 - cur / 2 ^ 30 + 1) + (last / 2 ^ 39 - cur / 2 ^ 39 + 1)

/-- The blocks a step of one page from `v` enters: of 2 MiB, of a GiB, of
512 GiB. -/
def crossed (v : Nat) : Nat :=
  ((v + PGSIZE) / 2 ^ 21 - v / 2 ^ 21) + ((v + PGSIZE) / 2 ^ 30 - v / 2 ^ 30) +
    ((v + PGSIZE) / 2 ^ 39 - v / 2 ^ 39)

/-- **The next page agrees with `v` above the blocks it enters**: a step that
enters a larger block enters every smaller one too, so it changes no index
above `crossed v`. -/
theorem PX_next_of_crossed {v k : Nat} (hk : crossed v < k) (hkl : k ≤ WALK_LEVEL) :
    PX k (v + PGSIZE) = PX k v := by
  rw [PX_eq_vpn, PX_eq_vpn]
  unfold crossed PGSIZE at hk
  unfold WALK_LEVEL at hkl
  unfold RiscvPaging.vpn PGSIZE
  -- each block is 512 of the next smaller ones
  have h30 : ∀ x, x / 1073741824 = x / 2097152 / 512 := fun x => by
    rw [Nat.div_div_eq_div_mul]
  have h39 : ∀ x, x / 549755813888 = x / 1073741824 / 512 := fun x => by
    rw [Nat.div_div_eq_div_mul]
  norm_num at hk ⊢
  have := h30 v
  have := h30 (v + 4096)
  have := h39 v
  have := h39 (v + 4096)
  rcases (show k = 1 ∨ k = 2 ∨ k = 3 by omega) with rfl | rfl | rfl
  · norm_num
    omega
  · norm_num
    omega
  · -- a step into another 512 GiB block would enter all three kinds
    have hg : (v + 4096) / 549755813888 = v / 549755813888 := by
      by_contra hne
      have hf : (v + 4096) / 1073741824 ≠ v / 1073741824 := fun h => hne (by rw [h39, h39 v, h])
      have he : (v + 4096) / 2097152 ≠ v / 2097152 := fun h => hf (by rw [h30, h30 v, h])
      omega
    norm_num
    rw [hg]

theorem tablesSpanned_step {cur last : Nat} (h : cur + PGSIZE ≤ last) :
    tablesSpanned cur last = crossed cur + tablesSpanned (cur + PGSIZE) last := by
  unfold tablesSpanned crossed
  unfold PGSIZE at h ⊢
  omega

theorem le_tablesSpanned (cur last : Nat) : WALK_LEVEL ≤ tablesSpanned cur last := by
  unfold tablesSpanned WALK_LEVEL
  omega

/-! ## The pages `alloc_pages` hands out -/

/-- The pages `n` calls of `alloc_pages(1)` hand out in turn from `node`. -/
def allocSeq : Nat → Bootmem.BootmemNode → List Nat
  | 0, _ => []
  | n + 1, node => (Bootmem.bootmemAlloc node 1).2 :: allocSeq n (Bootmem.bootmemAlloc node 1).1

/-- The node after `n` calls. -/
def nodeAfter : Nat → Bootmem.BootmemNode → Bootmem.BootmemNode
  | 0, node => node
  | n + 1, node => nodeAfter n (Bootmem.bootmemAlloc node 1).1

theorem allocSeq_add : ∀ (m n : Nat) (node : Bootmem.BootmemNode),
    allocSeq (m + n) node = allocSeq m node ++ allocSeq n (nodeAfter m node)
  | 0, _, _ => by simp [allocSeq, nodeAfter]
  | m + 1, n, node => by
    rw [Nat.add_right_comm, allocSeq, allocSeq_add m n, allocSeq, nodeAfter, List.cons_append]

theorem mem_allocSeq_of_le {k n : Nat} {node : Bootmem.BootmemNode} {q : Nat} (hk : k ≤ n)
    (hq : q ∈ allocSeq k node) : q ∈ allocSeq n node := by
  rw [show n = k + (n - k) by omega, allocSeq_add]
  exact List.mem_append_left _ hq

/-- **Pages fit for tables**: distinct, and each nonzero, page-aligned, within
the PTE's 44-bit page numbers and not a page of the table. -/
structure Fresh (lvl : Nat → Option Nat) (ps : List Nat) : Prop where
  nodup : ps.Nodup
  page : ∀ p ∈ ps, p ≠ 0 ∧ p % PGSIZE = 0 ∧ p < 2 ^ 56 ∧ lvl p = none

/-- `lvl'` keeps the pages of `lvl` and adds pages of `ps` only. -/
structure Extends (lvl lvl' : Nat → Option Nat) (ps : List Nat) : Prop where
  keep : ∀ q l, lvl q = some l → lvl' q = some l
  new : ∀ q, lvl' q ≠ none → lvl q = none → q ∈ ps

/-- **What `walk` with `alloc` did** from the table `t` at `level` for `va`,
taking the pages `ps`: the table keeps its shape with pages of `ps` added,
the reading of `va` ends at the entry `e` returned, where the leaf is the one
it had; no other address's leaf changed, and no word changed but those of the
pages taken and the invalid entry the reading stopped at. -/
structure Walked (mem : Mem) (lvl : Nat → Option Nat) (va level t : Nat) (ps : List Nat) (mem' : Mem)
    (lvl' : Nat → Option Nat) (e : Nat) : Prop where
  shape : Shape mem' lvl'
  grows : Extends lvl lvl' ps
  ends : lookup mem' va level t = some e
  leaf : leafFrom mem' va level t = leafFrom mem va level t
  frame : ∀ va', (∃ k ≤ level, PX k va' ≠ PX k va) → leafFrom mem' va' level t = leafFrom mem va' level t
  changed : ∀ a, mem' a ≠ mem a →
    (∃ q ∈ ps, q ≤ a ∧ a < q + PGSIZE) ∨ (Reads mem va level t a ∧ ¬mem a &&& PTE_V ≠ 0)

/-- An entry of the table that is not where the reading stopped keeps its
word through a walk that took pages outside the table. -/
theorem Walked.keeps {mem mem' : Mem} {lvl lvl' : Nat → Option Nat} {va level t : Nat} {ps : List Nat} {e : Nat}
    (hw : Walked mem lvl va level t ps mem' lvl' e) (hs : Shape mem lvl)
    (hps : ∀ q ∈ ps, q % PGSIZE = 0 ∧ lvl q = none) {u k j : Nat} (hu : lvl u = some k) (hj : j < 512)
    (hr : ¬(Reads mem va level t (u + 8 * j) ∧ ¬mem (u + 8 * j) &&& PTE_V ≠ 0)) :
    mem' (u + 8 * j) = mem (u + 8 * j) := by
  by_contra h
  rcases hw.changed _ h with ⟨q, hq, hin⟩ | hr'
  · have huq : u ≠ q := fun he => by
      rw [he, (hps q hq).2] at hu
      cases hu
    exact not_mem_page (hs.page u k hu).1 (hps q hq).1 huq hj hin
  · exact hr hr'

section WalkStep

variable {mem mem' : Mem} {lvl lvl' : Nat → Option Nat} {va l t : Nat} {ps : List Nat} {e : Nat}

/-- **A walk down a valid entry** is the walk from the table it points to:
the entries of `t` stay, and an address that leaves by another entry reads
a table the walk below did not touch. -/
theorem Walked.down (hs : Shape mem lvl) (ht : lvl t = some (l + 1)) (hv : mem (t + 8 * PX (l + 1) va) &&& PTE_V ≠ 0)
    (hps : ∀ q ∈ ps, q % PGSIZE = 0 ∧ lvl q = none)
    (hw : Walked mem lvl va l (PTE2PA (mem (t + 8 * PX (l + 1) va))) ps mem' lvl' e) :
    Walked mem lvl va (l + 1) t ps mem' lvl' e := by
  have hc := hs.child t l ht _ (PX_lt _ _) hv
  -- the reading below lies in tables lower than `t`
  have hkeep : ∀ j < 512, mem' (t + 8 * j) = mem (t + 8 * j) := fun j hj =>
    hw.keeps hs hps ht hj fun ⟨hr, _⟩ => by
      obtain ⟨u, k, i, hu, hk, hi, he⟩ := hs.reads_mem hc hr
      have := (hs.entry_eq ht hu hj hi he).2.1
      omega
  have ha := hkeep _ (PX_lt (l + 1) va)
  have hva : mem' (t + 8 * PX (l + 1) va) &&& PTE_V ≠ 0 := by
    rw [ha]
    exact hv
  refine ⟨hw.shape, hw.grows, ?_, ?_, fun va' hk => ?_, fun a h => ?_⟩
  · rw [lookup_succ_of_valid hva, ha]
    exact hw.ends
  · rw [leafFrom_succ_of_valid hva, leafFrom_succ_of_valid hv, ha]
    exact hw.leaf
  · by_cases hpx : PX (l + 1) va' = PX (l + 1) va
    · -- down the same entry
      rw [leafFrom_succ_of_valid (by rw [hpx]; exact hva), leafFrom_succ_of_valid (by rw [hpx]; exact hv), hpx, ha]
      obtain ⟨k, hk, hne⟩ := hk
      have hkl : k ≠ l + 1 := fun h => hne (h ▸ hpx)
      exact hw.frame va' ⟨k, by omega, hne⟩
    · -- down another entry of `t`, to a table whose readings the walk below never meets
      refine hs.leafFrom_of_keeps ht (hkeep _ (PX_lt (l + 1) va')) fun hv' u k i hu _ hi hb => ?_
      refine hw.keeps hs hps hu hi fun ⟨hr, _⟩ => hpx ?_
      have hcc := hs.reads_unique hc (hs.child t l ht _ (PX_lt _ _) hv') hr hb
      exact (hs.inj t t l l _ _ ht ht (PX_lt _ _) (PX_lt _ _) hv' hv hcc.symm).2
  · rcases hw.changed a h with hq | ⟨hr, hinv⟩
    · exact Or.inl hq
    · exact Or.inr ⟨Or.inr ⟨hv, hr⟩, hinv⟩

/-- **A walk past an invalid entry** links in the page `p` and walks on from
it: the new table is zeroes, so what it maps from it is nothing but the
reading of `va`. -/
theorem Walked.link {p : Nat} (hs : Shape mem lvl) (ht : lvl t = some (l + 1))
    (hv : ¬mem (t + 8 * PX (l + 1) va) &&& PTE_V ≠ 0) (hp : lvl p = none) (hp0 : p ≠ 0) (hpa : p % PGSIZE = 0)
    (hlt : p < 2 ^ 56) (hps : ∀ q ∈ ps, q % PGSIZE = 0 ∧ Function.update lvl p (some l) q = none)
    (hw : Walked (Function.update (memsetPage mem p 0) (t + 8 * PX (l + 1) va) (PA2PTE p ||| PTE_V))
      (Function.update lvl p (some l)) va l p ps mem' lvl' e) :
    Walked mem lvl va (l + 1) t (p :: ps) mem' lvl' e := by
  have hs₁ := hs.link ht (PX_lt (l + 1) va) hp hp0 hpa hlt
  have hz₁ : ∀ j < 512,
      Function.update (memsetPage mem p 0) (t + 8 * PX (l + 1) va) (PA2PTE p ||| PTE_V) (p + 8 * j) = 0 :=
    fun j hj => link_new hs ht (PX_lt _ _) hp hpa hj
  have hne : ∀ u k, lvl u = some k → u ≠ p := fun u k hu h => by
    rw [h, hp] at hu
    cases hu
  -- the walk below reads only the new table among the old ones' entries
  have hkeep : ∀ u k j, lvl u = some k → j < 512 → mem' (u + 8 * j) =
      Function.update (memsetPage mem p 0) (t + 8 * PX (l + 1) va) (PA2PTE p ||| PTE_V) (u + 8 * j) :=
    fun u k j hu hj => hw.keeps hs₁ hps (by rw [Function.update_of_ne (hne u k hu)]; exact hu) hj fun ⟨hr, _⟩ =>
      hne u k hu (entry_inj (hs.page u k hu).1 hpa hj (PX_lt _ _) (reads_of_zero hz₁ hr)).1
  have ha : mem' (t + 8 * PX (l + 1) va) = PA2PTE p ||| PTE_V := by
    rw [hkeep t _ _ ht (PX_lt _ _), link_self]
  have hva : mem' (t + 8 * PX (l + 1) va) &&& PTE_V ≠ 0 := by
    rw [ha]
    exact valid_or_V _
  have hpp : PTE2PA (mem' (t + 8 * PX (l + 1) va)) = p := by
    rw [ha]
    exact PTE2PA_pointer hpa hlt
  refine ⟨hw.shape, ⟨fun q k hq => hw.grows.keep q k (by rw [Function.update_of_ne (hne q k hq)]; exact hq),
    fun q h₁ h₂ => ?_⟩, ?_, ?_, fun va' hk => ?_, fun b hb => ?_⟩
  · by_cases hqp : q = p
    · rw [hqp]
      exact List.mem_cons_self
    · exact List.mem_cons_of_mem _ (hw.grows.new q h₁ (by rw [Function.update_of_ne hqp]; exact h₂))
  · rw [lookup_succ_of_valid hva, hpp]
    exact hw.ends
  · rw [leafFrom_succ_of_valid hva, leafFrom_succ_of_invalid hv, hpp, hw.leaf]
    exact leafFrom_of_zero hz₁ l
  · by_cases hpx : PX (l + 1) va' = PX (l + 1) va
    · -- through the new table, which maps nothing else
      rw [leafFrom_succ_of_valid (by rw [hpx]; exact hva), leafFrom_succ_of_invalid (by rw [hpx]; exact hv), hpx, hpp]
      obtain ⟨k, hk, hne'⟩ := hk
      have hkl : k ≠ l + 1 := fun h => hne' (h ▸ hpx)
      rw [hw.frame va' ⟨k, by omega, hne'⟩]
      exact leafFrom_of_zero hz₁ l
    · -- through another entry of `t`, to a table of the old
      have hta : t + 8 * PX (l + 1) va' ≠ t + 8 * PX (l + 1) va := fun h => hpx (by omega)
      refine hs.leafFrom_of_keeps ht ?_ fun _ u k i hu hk hi _ => ?_
      · rw [hkeep t _ _ ht (PX_lt _ _), link_old hs hp hpa ht (PX_lt _ _) hta]
      · -- an entry of a lower table is not the one linked
        have hua : u + 8 * i ≠ t + 8 * PX (l + 1) va := fun h => by
          have := (hs.entry_eq hu ht hi (PX_lt _ _) h).2.1
          omega
        rw [hkeep u k i hu hi, link_old hs hp hpa hu hi hua]
  · by_cases h₁ : mem' b = Function.update (memsetPage mem p 0) (t + 8 * PX (l + 1) va) (PA2PTE p ||| PTE_V) b
    · -- changed by the link: the entry itself, or the zeroed page
      rw [h₁] at hb
      by_cases hba : b = t + 8 * PX (l + 1) va
      · rw [hba]
        exact Or.inr ⟨Or.inl rfl, hv⟩
      · rw [Function.update_of_ne hba] at hb
        unfold memsetPage at hb
        by_cases hin : p ≤ b ∧ b < p + PGSIZE
        · exact Or.inl ⟨p, List.mem_cons_self, hin⟩
        · rw [if_neg hin] at hb
          exact absurd rfl hb
    · -- changed below: in a page taken, or the new table's first entry read
      rcases hw.changed b h₁ with ⟨q, hq, hin⟩ | ⟨hr, _⟩
      · exact Or.inl ⟨q, List.mem_cons_of_mem _ hq, hin⟩
      · have hbp := reads_of_zero hz₁ hr
        have := PX_lt l va
        refine Or.inl ⟨p, List.mem_cons_self, ?_⟩
        rw [hbp]
        unfold PGSIZE
        omega

end WalkStep

/-! ## `walk` with `alloc` -/

theorem allocPage_snd (st : Machine) : (allocPage st).2 = (Bootmem.bootmemAlloc st.node 1).2 := rfl

/-- A step of `walk` with `alloc` past an invalid entry, where `alloc_pages`
gives a page. -/
theorem walkLoop_succ_of_alloc {st : Machine} {t va l : Nat} (hv : ¬st.mem (t + 8 * PX (l + 1) va) &&& PTE_V ≠ 0)
    (hp : (allocPage st).2 ≠ 0) :
    walkLoop st t va true (l + 1) = walkLoop ((zeroPage (allocPage st).1 (allocPage st).2).write
      (t + 8 * PX (l + 1) va) (PA2PTE (allocPage st).2 ||| PTE_V)) (allocPage st).2 va true l := by
  rw [walkLoop, if_neg hv]
  rcases hap : allocPage st with ⟨st₁, p⟩
  rw [hap] at hp
  simp only [Bool.not_true, Bool.false_eq_true, if_false, if_neg hp]

/-- **`walk` with `alloc`** from a table at `level`, with pages fit for tables
to take: it takes one for each table it has to make, in `alloc_pages`'s
order. -/
theorem walkLoop_alloc_spec (va : Nat) : ∀ (l : Nat) {st : Machine} {t : Nat} {lvl : Nat → Option Nat} {n : Nat},
    Shape st.mem lvl → lvl t = some l → missing st.mem va l t ≤ n → Fresh lvl (allocSeq n st.node) →
    ∃ k lvl', k ≤ missing st.mem va l t ∧ (walkLoop st t va true l).1.node = nodeAfter k st.node ∧
      Walked st.mem lvl va l t (allocSeq k st.node) (walkLoop st t va true l).1.mem lvl' (walkLoop st t va true l).2
  | 0, _, _, lvl, _, hs, _, _, _ =>
    ⟨0, lvl, Nat.zero_le _, rfl, ⟨hs, ⟨fun _ _ h => h, fun _ h h' => absurd h' h⟩, rfl, rfl, fun _ _ => rfl,
      fun _ h => absurd rfl h⟩⟩
  | l + 1, st, t, lvl, n, hs, ht, hn, hfresh => by
    have hps : ∀ m ≤ n, ∀ q ∈ allocSeq m st.node, q % PGSIZE = 0 ∧ lvl q = none := fun m hm q hq =>
      ⟨(hfresh.page q (mem_allocSeq_of_le hm hq)).2.1, (hfresh.page q (mem_allocSeq_of_le hm hq)).2.2.2⟩
    by_cases hv : st.mem (t + 8 * PX (l + 1) va) &&& PTE_V ≠ 0
    · -- a valid entry: the tables to make are those below it
      have hmiss := missing_succ_of_valid hv
      rw [hmiss] at hn ⊢
      obtain ⟨k, lvl', hk, hnode, hw⟩ :=
        walkLoop_alloc_spec va l hs (hs.child t l ht _ (PX_lt _ _) hv) hn hfresh
      rw [walkLoop_succ_of_valid hv]
      exact ⟨k, lvl', hk, hnode, hw.down hs ht hv (hps k (Nat.le_trans hk hn))⟩
    · have hmiss := missing_succ_of_invalid hv
      rw [hmiss] at hn ⊢
      obtain ⟨n', rfl⟩ : ∃ n', n = n' + 1 := ⟨n - 1, by omega⟩
      -- the first page `alloc_pages` hands out becomes the table below
      have hp := hfresh.page _ List.mem_cons_self
      have hnd := List.nodup_cons.mp hfresh.nodup
      rw [walkLoop_succ_of_alloc hv (by rw [allocPage_snd]; exact hp.1)]
      -- the machine once the page is zeroed and linked
      have hs₁ : Shape ((zeroPage (allocPage st).1 (allocPage st).2).write (t + 8 * PX (l + 1) va)
          (PA2PTE (allocPage st).2 ||| PTE_V)).mem (Function.update lvl (Bootmem.bootmemAlloc st.node 1).2 (some l)) :=
        hs.link ht (PX_lt _ _) hp.2.2.2 hp.1 hp.2.1 hp.2.2.1
      have hfresh₁ : Fresh (Function.update lvl (Bootmem.bootmemAlloc st.node 1).2 (some l))
          (allocSeq n' ((zeroPage (allocPage st).1 (allocPage st).2).write (t + 8 * PX (l + 1) va)
            (PA2PTE (allocPage st).2 ||| PTE_V)).node) := by
        refine ⟨hnd.2, fun q hq => ?_⟩
        have hqp : q ≠ (Bootmem.bootmemAlloc st.node 1).2 := fun h => hnd.1 (h ▸ hq)
        rw [Function.update_of_ne hqp]
        exact hfresh.page q (List.mem_cons_of_mem _ hq)
      obtain ⟨k, lvl', hk, hnode, hw⟩ := walkLoop_alloc_spec va l hs₁ (Function.update_self _ _ _)
        (Nat.le_trans (missing_le _ _) (by omega)) hfresh₁
      have hkl := Nat.le_trans hk (missing_le _ _)
      refine ⟨k + 1, lvl', by omega, hnode, hw.link hs ht hv hp.2.2.2 hp.1 hp.2.1 hp.2.2.1 fun q hq => ?_⟩
      have hq' := hfresh₁.page q (mem_allocSeq_of_le (show k ≤ n' by omega) hq)
      exact ⟨hq'.2.1, hq'.2.2.2⟩

/-! ## One page of `mappages` -/

section MapOne

variable {mem : Mem} {lvl : Nat → Option Nat}

/-- Writing a leaf changes no reading: the tables it reads are above level 0. -/
theorem lookup_write_leaf (hs : Shape mem lvl) {u i : Nat} (hu : lvl u = some 0) (hi : i < 512) (v : UInt64) {va : Nat} :
    ∀ {l t : Nat}, lvl t = some l → lookup (Function.update mem (u + 8 * i) v) va l t = lookup mem va l t
  | 0, _, _ => rfl
  | l + 1, t, ht => by
    have hne : t + 8 * PX (l + 1) va ≠ u + 8 * i := fun h => by
      have := (hs.entry_eq ht hu (PX_lt _ _) hi h).2.1
      omega
    by_cases hv : mem (t + 8 * PX (l + 1) va) &&& PTE_V ≠ 0
    · rw [lookup_succ_of_valid hv, lookup_succ_of_valid (by rw [Function.update_of_ne hne]; exact hv),
        Function.update_of_ne hne]
      exact lookup_write_leaf hs hu hi v (hs.child t l ht _ (PX_lt _ _) hv)
    · rw [lookup_succ_of_invalid hv, lookup_succ_of_invalid (by rw [Function.update_of_ne hne]; exact hv)]

/-- Writing a leaf keeps the shape. -/
theorem Shape.write_leaf (hs : Shape mem lvl) {u i : Nat} (hu : lvl u = some 0) (hi : i < 512) (v : UInt64) :
    Shape (Function.update mem (u + 8 * i) v) lvl :=
  hs.congr fun t l ht j hj => Function.update_of_ne (fun h => by
    have := (hs.entry_eq ht hu hj hi h).2.1
    omega) _ _

/-- **One round of `mappages`**, at a page that has no leaf, with pages fit
for tables for `walk` to take: it returns, writes the leaf, keeps the shape,
and changes no other page's translation. -/
theorem mapOne_spec {st : Machine} {root cur n : Nat} (pa : Nat) (perm : UInt64) (hs : Shape st.mem lvl)
    (hroot : lvl root = some WALK_LEVEL) (hcur : cur < MAX_VA) (hfree : translation st.mem root cur = none)
    (hn : missing st.mem cur WALK_LEVEL root ≤ n) (hfresh : Fresh lvl (allocSeq n st.node)) :
    ∃ st' k lvl', k ≤ missing st.mem cur WALK_LEVEL root ∧ mapOne st root cur pa perm = .ok (st', true) ∧
      st'.node = nodeAfter k st.node ∧
      Shape st'.mem lvl' ∧ Extends lvl lvl' (allocSeq k st.node) ∧
      translation st'.mem root cur = some (PA2PTE pa ||| perm ||| PTE_V) ∧
      ∀ va', va' < MAX_VA → PGROUNDDOWN va' ≠ PGROUNDDOWN cur → translation st'.mem root va' = translation st.mem root va' := by
  obtain ⟨k, lvl', hk, hnode, hw⟩ := walkLoop_alloc_spec cur WALK_LEVEL hs hroot hn hfresh
  have hroot' := hw.grows.keep _ _ hroot
  -- the entry `walk` returns, in a table at level 0
  obtain ⟨u, hu, he⟩ := hw.shape.lookup_lands hroot' hw.ends
  have he0 : (walkLoop st root cur true WALK_LEVEL).2 ≠ 0 := by
    rw [he]
    have := (hw.shape.page u 0 hu).2
    omega
  -- it holds no leaf: the address had none
  have hinv : ¬(walkLoop st root cur true WALK_LEVEL).1.mem (walkLoop st root cur true WALK_LEVEL).2 &&& PTE_V ≠ 0 := by
    intro hv
    have hleaf := hw.leaf
    rw [leafFrom_of_lookup hw.ends, if_pos hv] at hleaf
    exact absurd (hleaf.trans hfree) (Option.some_ne_none _)
  refine ⟨(walkLoop st root cur true WALK_LEVEL).1.write (walkLoop st root cur true WALK_LEVEL).2
    (PA2PTE pa ||| perm ||| PTE_V), k, lvl', hk, ?_, hnode, ?_, hw.grows, ?_, fun va' hva' hpage => ?_⟩
  · simp only [mapOne, walk, if_neg (Nat.not_le.mpr hcur), if_neg he0, if_neg hinv]
  · rw [he]
    exact hw.shape.write_leaf hu (PX_lt _ _) _
  · show leafFrom (Function.update _ _ _) cur WALK_LEVEL root = _
    have hl : lookup (Function.update (walkLoop st root cur true WALK_LEVEL).1.mem
        (walkLoop st root cur true WALK_LEVEL).2 (PA2PTE pa ||| perm ||| PTE_V)) cur WALK_LEVEL root =
          some (walkLoop st root cur true WALK_LEVEL).2 := by
      rw [← hw.ends, he, lookup_write_leaf hw.shape hu (PX_lt _ _) _ hroot']
    rw [leafFrom_of_lookup hl, Function.update_self, if_pos (valid_or_V _)]
  · -- another page: its indices differ from `cur`'s at some level
    have hdiff : ∃ k ≤ WALK_LEVEL, PX k va' ≠ PX k cur := by
      by_contra h
      exact hpage (pgrounddown_eq_of_PX hva' hcur fun k hk => not_not.mp fun hne => h ⟨k, hk, hne⟩)
    show leafFrom (Function.update _ _ _) va' WALK_LEVEL root = leafFrom st.mem va' WALK_LEVEL root
    rw [← hw.frame va' hdiff]
    apply leafFrom_congr
    -- the leaf written is where `cur`'s reading ends, and no other page's
    intro b hb
    apply Function.update_of_ne
    intro hbe
    rw [hbe, he] at hb
    have hl := hw.shape.lookup_of_reads hu (PX_lt _ _) hroot' hb
    rw [← he] at hl
    obtain ⟨-, hpx⟩ := hw.shape.lookup_unique hroot' hroot' hl hw.ends
    exact hpage (pgrounddown_eq_of_PX hva' hcur hpx)

end MapOne

/-! ## The loop of `mappages` -/

/-- The pages left for tables after `k` were taken are still fit for them. -/
theorem Fresh.rest {lvl lvl' : Nat → Option Nat} {node : Bootmem.BootmemNode} {m k m' : Nat}
    (hf : Fresh lvl (allocSeq m node)) (he : Extends lvl lvl' (allocSeq k node)) (hle : k + m' ≤ m) :
    Fresh lvl' (allocSeq m' (nodeAfter k node)) := by
  have hsplit : allocSeq m node = allocSeq k node ++
      (allocSeq m' (nodeAfter k node) ++ allocSeq (m - k - m') (nodeAfter m' (nodeAfter k node))) := by
    rw [← allocSeq_add, ← allocSeq_add, show k + (m' + (m - k - m')) = m by omega]
  obtain ⟨hnd, hpage⟩ := hf
  rw [hsplit, List.nodup_append] at hnd
  rw [hsplit] at hpage
  refine ⟨(List.nodup_append.mp hnd.2.1).1, fun q hq => ?_⟩
  have hq' := hpage q (List.mem_append_right _ (List.mem_append_left _ hq))
  refine ⟨hq'.1, hq'.2.1, hq'.2.2.1, ?_⟩
  -- a page `lvl'` adds was taken before, and the pages are distinct
  by_contra h
  exact hnd.2.2 q (he.new q h hq'.2.2.2) q (List.mem_append_left _ hq) rfl

/-- Fewer pages of the same run are fit too. -/
theorem Fresh.of_le {lvl : Nat → Option Nat} {node : Bootmem.BootmemNode} {m m' : Nat}
    (hf : Fresh lvl (allocSeq m node)) (hle : m' ≤ m) : Fresh lvl (allocSeq m' node) :=
  hf.rest (k := 0) ⟨fun _ _ h => h, fun _ h h' => absurd h' h⟩ (by omega)

theorem pgrounddown_of_aligned {a : Nat} (h : a % PGSIZE = 0) : PGROUNDDOWN a = a := by
  unfold PGROUNDDOWN
  unfold PGSIZE at *
  omega

theorem aligned_add_page {a : Nat} (h : a % PGSIZE = 0) (i : Nat) : (a + PGSIZE + i * PGSIZE) % PGSIZE = 0 := by
  unfold PGSIZE at *
  omega

section MapLoop

variable {root : Nat} (perm : UInt64)

/-- **The loop of `mappages`** over `n + 1` pages from `cur`, none with a
leaf, with pages fit for the tables `cur` misses and for those of the blocks
the pages after it enter: it returns `0`, keeps the shape, maps page `i` to
`pa + i * PGSIZE`, and no other page changes. -/
theorem mapLoop_spec : ∀ (n : Nat) {st : Machine} {lvl : Nat → Option Nat} {cur pa : Nat}, Shape st.mem lvl →
    lvl root = some WALK_LEVEL → cur % PGSIZE = 0 → cur + n * PGSIZE < MAX_VA →
    (∀ i ≤ n, translation st.mem root (cur + i * PGSIZE) = none) →
    Fresh lvl (allocSeq (missing st.mem cur WALK_LEVEL root + tablesSpanned cur (cur + n * PGSIZE) - WALK_LEVEL)
      st.node) →
    ∃ st' lvl', mapLoop st root cur pa perm n = .ok (st', 0) ∧ Shape st'.mem lvl' ∧ lvl' root = some WALK_LEVEL ∧
      (∀ i ≤ n, translation st'.mem root (cur + i * PGSIZE) = some (PA2PTE (pa + i * PGSIZE) ||| perm ||| PTE_V)) ∧
      ∀ va', va' < MAX_VA → (PGROUNDDOWN va' < cur ∨ cur + n * PGSIZE < PGROUNDDOWN va') →
        translation st'.mem root va' = translation st.mem root va'
  | n, st, lvl, cur, pa, hs, hroot, hcur, hmax, hfree, hfresh => by
    have hcur' : PGROUNDDOWN cur = cur := pgrounddown_of_aligned hcur
    have hcurlt : cur < MAX_VA := Nat.lt_of_le_of_lt (Nat.le_add_right _ _) hmax
    have hpos : 0 < PGSIZE := by decide
    have h0 : translation st.mem root cur = none := by simpa using hfree 0 (Nat.zero_le n)
    obtain ⟨st₁, k, lvl₁, hk, hone, hnode, hs₁, hext, hleaf, hframe⟩ := mapOne_spec pa perm hs hroot hcurlt h0
      (by have := le_tablesSpanned cur (cur + n * PGSIZE); omega) hfresh
    -- a page before or after `cur` is another page
    have hother : ∀ va', PGROUNDDOWN va' < cur ∨ cur < PGROUNDDOWN va' → PGROUNDDOWN va' ≠ PGROUNDDOWN cur := by
      intro va' h
      rw [hcur']
      omega
    cases n with
    | zero =>
      refine ⟨st₁, lvl₁, ?_, hs₁, hext.keep _ _ hroot, fun i hi => ?_, fun va' hva' hout => ?_⟩
      · simp only [mapLoop, hone, bind, Except.bind, if_true]
        rfl
      · rw [Nat.le_zero.mp hi]
        simpa using hleaf
      · exact hframe va' hva' (hother va' (by simpa using hout))
    | succ n =>
      have hstep : (n + 1) * PGSIZE = n * PGSIZE + PGSIZE := Nat.succ_mul n PGSIZE
      -- `cur` is mapped, so the next page misses only the tables of the blocks it enters
      have hmiss : missing st₁.mem (cur + PGSIZE) WALK_LEVEL root ≤ crossed cur := by
        obtain ⟨e, he⟩ := lookup_of_leafFrom hleaf
        exact missing_le_of_agree he fun k hk hkl => PX_next_of_crossed hk hkl
      have hspan := tablesSpanned_step (show cur + PGSIZE ≤ cur + (n + 1) * PGSIZE by omega)
      have hrest : Fresh lvl₁ (allocSeq (missing st₁.mem (cur + PGSIZE) WALK_LEVEL root +
          tablesSpanned (cur + PGSIZE) (cur + PGSIZE + n * PGSIZE) - WALK_LEVEL) st₁.node) := by
        rw [hnode, show cur + PGSIZE + n * PGSIZE = cur + (n + 1) * PGSIZE by omega]
        have := le_tablesSpanned (cur + PGSIZE) (cur + (n + 1) * PGSIZE)
        exact hfresh.rest hext (by omega)
      -- the pages after `cur` still have no leaf
      have hfree₁ : ∀ i ≤ n, translation st₁.mem root (cur + PGSIZE + i * PGSIZE) = none := by
        intro i hi
        have hle := Nat.mul_le_mul_right PGSIZE hi
        have hpg := pgrounddown_of_aligned (aligned_add_page hcur i)
        rw [hframe _ (by omega) (hother _ (by rw [hpg]; omega))]
        have := hfree (i + 1) (by omega)
        rwa [Nat.succ_mul, show cur + (i * PGSIZE + PGSIZE) = cur + PGSIZE + i * PGSIZE by omega] at this
      obtain ⟨st', lvl', hloop, hs', hroot', hmapped, hframe'⟩ := mapLoop_spec n hs₁ (hext.keep _ _ hroot)
        (by rw [Nat.add_mod_right]; exact hcur) (by omega) hfree₁ hrest
      refine ⟨st', lvl', ?_, hs', hroot', fun i hi => ?_, fun va' hva' hout => ?_⟩
      · simp only [mapLoop, hone, bind, Except.bind, if_true]
        exact hloop
      · cases i with
        | zero =>
          -- `cur` itself, mapped before the rest
          simp only [Nat.zero_mul, Nat.add_zero]
          rw [hframe' cur hcurlt (Or.inl (by rw [hcur']; omega))]
          exact hleaf
        | succ i =>
          have := hmapped i (by omega)
          rwa [show cur + PGSIZE + i * PGSIZE = cur + (i + 1) * PGSIZE by rw [Nat.succ_mul]; omega,
            show pa + PGSIZE + i * PGSIZE = pa + (i + 1) * PGSIZE by rw [Nat.succ_mul]; omega] at this
      · rw [hframe' va' hva' (by omega)]
        exact hframe va' hva' (hother va' (by omega))

end MapLoop

/-! ## `mappages` -/

/-- An aligned `v` from an aligned `cur` is page `(v - cur) / PGSIZE` after it. -/
theorem page_index {cur v : Nat} (hcur : cur % PGSIZE = 0) (hv : v % PGSIZE = 0) (h : cur ≤ v) :
    cur + (v - cur) / PGSIZE * PGSIZE = v := by
  unfold PGSIZE at hcur hv ⊢
  omega

theorem page_index_offset (pa : Nat) {cur v : Nat} (hcur : cur % PGSIZE = 0) (hv : v % PGSIZE = 0) (h : cur ≤ v) :
    pa + (v - cur) / PGSIZE * PGSIZE = pa + (v - cur) := by
  unfold PGSIZE at hcur hv ⊢
  omega

theorem pgrounddown_add_aligned (pa : Nat) {d : Nat} (hd : d % PGSIZE = 0) : PGROUNDDOWN (pa + d) = PGROUNDDOWN pa + d := by
  unfold PGROUNDDOWN
  unfold PGSIZE at hd ⊢
  omega

/-- A translation is what `walk(root, v, 0)` finds: a valid entry. -/
theorem walk_of_translation {st : Machine} {lvl : Nat → Option Nat} {root v : Nat} {x : UInt64}
    (hs : Shape st.mem lvl) (hroot : lvl root = some WALK_LEVEL) (hv : v < MAX_VA)
    (h : translation st.mem root v = some x) :
    ∃ pte, walk st root v false = .ok (st, pte) ∧ pte ≠ 0 ∧ st.mem pte = x ∧ st.mem pte &&& PTE_V ≠ 0 := by
  cases hl : lookup st.mem v WALK_LEVEL root with
  | none =>
    unfold translation leafFrom at h
    rw [hl] at h
    cases h
  | some e =>
    rw [translation, leafFrom_of_lookup hl] at h
    by_cases hval : st.mem e &&& PTE_V ≠ 0
    · rw [if_pos hval] at h
      obtain ⟨u, hu, he⟩ := hs.lookup_lands hroot hl
      refine ⟨e, ?_, ?_, Option.some.inj h, hval⟩
      · rw [walk, if_neg (Nat.not_le.mpr hv), walkLoop_false, hl]
        rfl
      · rw [he]
        have := (hs.page u 0 hu).2
        omega
    · rw [if_neg hval] at h
      cases h

/-- **`mappages` installs the translation it is asked for.** On a well-formed
table, for `0 < size` and `va + size ≤ MAX_VA`, with no page of
`[PGROUNDDOWN va, PGROUNDDOWN (va + size - 1)]` mapped, with `perm` within the
ten flag bits and the last physical page within the PTE's 44-bit page
numbers, and with pages fit for tables for each table below the root that
the range spans, the most the walks take from `alloc_pages`: `mappages`
returns `0`; `walk(root, v, 0)` of each page `v` of the
range is a valid entry of `PGROUNDDOWN pa + (v - PGROUNDDOWN va)` with flags
`perm | PTE_V`; the translation of every address outside the range is as it
was; the table stays well-formed; and `walk` without `alloc` changes
nothing. -/
theorem mappages_installs_translation {st : Machine} {lvl : Nat → Option Nat} {root va size pa : Nat}
    {perm : UInt64} (hs : Shape st.mem lvl) (hroot : lvl root = some WALK_LEVEL) (hsize : 0 < size)
    (hva : va + size ≤ MAX_VA) (hperm : perm.toNat < 1024)
    (hpa : pa + (PGROUNDDOWN (va + size - 1) - PGROUNDDOWN va) < 2 ^ 56)
    (hfree : ∀ v, PGROUNDDOWN va ≤ v → v ≤ PGROUNDDOWN (va + size - 1) → translation st.mem root v = none)
    (hfresh : Fresh lvl (allocSeq (tablesSpanned (PGROUNDDOWN va) (PGROUNDDOWN (va + size - 1))) st.node)) :
    ∃ st', mappages st root va size pa perm = .ok (st', 0) ∧
      (∀ v, PGROUNDDOWN va ≤ v → v ≤ PGROUNDDOWN (va + size - 1) → v % PGSIZE = 0 →
        ∃ pte, walk st' root v false = .ok (st', pte) ∧ pte ≠ 0 ∧ st'.mem pte &&& PTE_V ≠ 0 ∧
          PTE2PA (st'.mem pte) = PGROUNDDOWN pa + (v - PGROUNDDOWN va) ∧ PTE_FLAGS (st'.mem pte) = perm ||| PTE_V) ∧
      (∀ va', va' < MAX_VA → (PGROUNDDOWN va' < PGROUNDDOWN va ∨ PGROUNDDOWN (va + size - 1) < PGROUNDDOWN va') →
        translation st'.mem root va' = translation st.mem root va') ∧
      (∃ lvl', Shape st'.mem lvl' ∧ lvl' root = some WALK_LEVEL) ∧
      ∀ va', (walkLoop st' root va' false WALK_LEVEL).1 = st' := by
  -- the range is `cur` and the `n` pages after it, `last` the final one
  have hcur : PGROUNDDOWN va % PGSIZE = 0 := by
    unfold PGROUNDDOWN PGSIZE
    omega
  have hmax : MAX_VA = 140737488355328 := rfl
  have hlast : PGROUNDDOWN va + (PGROUNDDOWN (va + size - 1) - PGROUNDDOWN va) / PGSIZE * PGSIZE =
      PGROUNDDOWN (va + size - 1) := by
    unfold PGROUNDDOWN PGSIZE
    omega
  have hlastlt : PGROUNDDOWN (va + size - 1) < MAX_VA := by
    unfold PGROUNDDOWN PGSIZE
    omega
  obtain ⟨st', lvl', hloop, hs', hroot', hmapped, hframe⟩ :=
    mapLoop_spec perm ((PGROUNDDOWN (va + size - 1) - PGROUNDDOWN va) / PGSIZE) hs hroot hcur
      (by rw [hlast]; exact hlastlt)
      (fun i hi => hfree _ (Nat.le_add_right _ _) (by have := Nat.mul_le_mul_right PGSIZE hi; omega))
      (hfresh.of_le (by rw [hlast]; have := @missing_le st.mem (PGROUNDDOWN va) WALK_LEVEL root; omega))
  refine ⟨st', ?_, fun v hv₁ hv₂ hal => ?_, fun va' hva' hout => hframe va' hva' (by rw [hlast]; exact hout),
    ⟨lvl', hs', hroot'⟩, fun va' => walkLoop_noalloc_fst root WALK_LEVEL⟩
  · rw [mappages, if_neg (Nat.pos_iff_ne_zero.mp hsize)]
    exact hloop
  · -- page `v` is page `(v - cur) / PGSIZE` of the loop
    have hi : (v - PGROUNDDOWN va) / PGSIZE ≤ (PGROUNDDOWN (va + size - 1) - PGROUNDDOWN va) / PGSIZE :=
      Nat.div_le_div_right (by omega)
    have ht := hmapped _ hi
    rw [page_index hcur hal hv₁, page_index_offset pa hcur hal hv₁] at ht
    obtain ⟨pte, hwalk, hpte0, hpte, hval⟩ := walk_of_translation hs' hroot' (by omega) ht
    refine ⟨pte, hwalk, hpte0, hval, ?_, ?_⟩
    · rw [hpte, PTE2PA_leaf (by omega) hperm, pgrounddown_add_aligned pa (Nat.sub_mod_eq_zero_of_mod_eq (hal.trans hcur.symm))]
    · rw [hpte, PTE_FLAGS_leaf (by omega) hperm]

/-- A table with only its root, a page of zeroes. -/
theorem shape_root {mem : Mem} {root : Nat} (hz : ∀ i < 512, mem (root + 8 * i) = 0) (hpa : root % PGSIZE = 0)
    (h0 : root ≠ 0) : Shape mem (fun t => if t = root then some WALK_LEVEL else none) := by
  have hroot : ∀ t l, (if t = root then some WALK_LEVEL else none) = some l → t = root := fun t l h => by
    by_cases ht : t = root
    · exact ht
    · rw [if_neg ht] at h
      cases h
  -- the root's entries are zeroes, none valid
  have hinv : ∀ t l i, (if t = root then some WALK_LEVEL else none) = some l → i < 512 → ¬mem (t + 8 * i) &&& PTE_V ≠ 0 :=
    fun t l i ht hi hv => by
      rw [hroot t l ht, hz i hi] at hv
      exact hv UInt64.zero_and
  refine ⟨fun t l ht => ?_, fun t l ht i hi hv => absurd hv (hinv t _ i ht hi),
    fun t _ l _ i _ ht _ hi _ hv => absurd hv (hinv t _ i ht hi)⟩
  rw [hroot t l ht]
  exact ⟨hpa, h0⟩

/-- A bootmem node over sixteen free pages at `0x80400000`. -/
def tableNode : Bootmem.BootmemNode := ⟨0x80400, 16, 0, fun _ => 0⟩

theorem mappages_installs_translation_one_page :
    ∃ st', mappages (allocPage ⟨fun _ => 0, tableNode, ⟨0, 0, 0, 0⟩, []⟩).1 0x80400000 0 PGSIZE 0x80000000
        (PTE_R ||| PTE_W) = .ok (st', 0) ∧
      ∃ pte, walk st' 0x80400000 0 false = .ok (st', pte) ∧ PTE2PA (st'.mem pte) = 0x80000000 ∧
        PTE_FLAGS (st'.mem pte) = PTE_R ||| PTE_W ||| PTE_V := by
  have hs : Shape (allocPage ⟨fun _ => 0, tableNode, ⟨0, 0, 0, 0⟩, []⟩).1.mem
      (fun t => if t = 0x80400000 then some WALK_LEVEL else none) :=
    shape_root (fun _ _ => rfl) (by decide) (by decide)
  -- the three pages the walk may take: the next ones of the node
  have hseq : allocSeq 3 (allocPage ⟨fun _ => 0, tableNode, ⟨0, 0, 0, 0⟩, []⟩).1.node =
      [0x80401000, 0x80402000, 0x80403000] := by
    decide +kernel
  have hfresh : Fresh (fun t => if t = 0x80400000 then some WALK_LEVEL else none)
      (allocSeq (tablesSpanned (PGROUNDDOWN 0) (PGROUNDDOWN (0 + PGSIZE - 1)))
        (allocPage ⟨fun _ => 0, tableNode, ⟨0, 0, 0, 0⟩, []⟩).1.node) := by
    rw [show tablesSpanned (PGROUNDDOWN 0) (PGROUNDDOWN (0 + PGSIZE - 1)) = 3 by decide, hseq]
    exact ⟨by decide, by decide⟩
  obtain ⟨st', hmap, hpages, -⟩ := mappages_installs_translation hs (if_pos rfl) (by decide) (by decide)
    (show (PTE_R ||| PTE_W).toNat < 1024 by decide)
    (show 0x80000000 + (PGROUNDDOWN (0 + PGSIZE - 1) - PGROUNDDOWN 0) < 2 ^ 56 by decide)
    (fun v _ _ => leafFrom_of_zero (fun _ _ => rfl) _) hfresh
  obtain ⟨pte, hwalk, -, -, hpa, hflags⟩ := hpages 0 (Nat.le_refl _) (Nat.zero_le _) rfl
  exact ⟨st', hmap, pte, hwalk, hpa, hflags⟩

/-- **A `perm` past the ten flag bits reaches the page number.** `mappages`
of page `0` to `0x80400000` with `perm = PTE_R | 0x400`, on an empty root and
with `alloc_pages` giving every table, returns `0`, but the entry `walk`
finds maps `0x80401000`: bit 10 of `perm` is bit 0 of the PPN. -/
theorem mappages_perm_reaches_ppn :
    (do
      let (st, root) := allocPage ⟨fun _ => 0, tableNode, ⟨0, 0, 0, 0⟩, []⟩
      let (st, r) ← mappages st root 0 PGSIZE 0x80400000 (PTE_R ||| 0x400)
      pure (r, PTE2PA (st.mem (walkLoop st root 0 false WALK_LEVEL).2))).toOption = some (0, 0x80401000) := by
  decide +kernel

end Vm

end Mkros
