import Mkros.Fs.Sysfile
import Mathlib
/-!
# Link counts

Two parts of what a consistent image keeps between its inodes and its
directories: every in-use entry of a directory names an allocated inode
(`EntriesAllocated`), and every allocated inode's `nlink` is the number of
entries naming it, other than `.`, in directories that have links themselves
(`LinkCountsOk`).

`create` takes the parent `nameiparent` gives and links the new inode into
it without asking whether the parent still has links. A process whose `cwd`
has been unlinked still holds it, and a name relative to it reaches it: the
file it creates there has one link, from an entry no linked directory holds
(`sysOpen_create_in_unlinked_cwd`). When the process exits, the directory is
freed with its slots, and the file stays allocated with one link and no
entry, which no path reaches and no `iput` frees.
-/

namespace Mkros

namespace Fs

/-- The entries of `dp` that count towards `inum`'s links: those naming it,
other than `.`, where `dp` is a directory with links of its own. -/
def linksFrom (dp : Inode) (inum : Nat) : Nat :=
  if dp.type = T_DIR ∧ 0 < dp.nlink then
    (dp.dirents.filter fun de => de.inum.toNat = inum ∧ de.name ≠ ".").length
  else 0

/-- The entries of the whole image that count towards `inum`'s links. -/
def linkCount (s : State) (inum : Nat) : Nat :=
  ((List.range s.ninodes).map fun d => linksFrom (s.inode d) inum).sum

/-- Every in-use entry of a directory names an allocated inode. -/
def EntriesAllocated (s : State) : Prop :=
  ∀ d < s.ninodes, (s.inode d).type = T_DIR →
    ∀ de ∈ (s.inode d).dirents, de.inum ≠ 0 → (s.inode de.inum.toNat).type ≠ 0

/-- Every allocated inode's `nlink` is its count of entries. -/
def LinkCountsOk (s : State) : Prop :=
  ∀ inum < s.ninodes, 0 < inum → (s.inode inum).type ≠ 0 →
    (s.inode inum).nlink = linkCount s inum

instance (s : State) : Decidable (EntriesAllocated s) :=
  inferInstanceAs (Decidable (∀ d < s.ninodes, _))

instance (s : State) : Decidable (LinkCountsOk s) :=
  inferInstanceAs (Decidable (∀ inum < s.ninodes, _))

/-- An image holding only the root directory, whose `.` and `..` both name
it; the calling process's `cwd` holds its one reference. -/
def rootOnly (ninodes : Nat) : State where
  ninodes := ninodes
  inode := Function.update (fun _ => .free) ROOTINO ⟨T_DIR, 0, 1, [⟨1, "."⟩, ⟨1, ".."⟩]⟩
  ref := Function.update (fun _ => 0) ROOTINO 1
  cwd := ROOTINO
  ofile := fun _ => none

/-! ## Counting entries -/

section Count

variable {dp : Inode} {inum : Nat}

theorem linksFrom_of_not_dir (h : dp.type ≠ T_DIR) : linksFrom dp inum = 0 := by
  simp only [linksFrom, h, false_and, if_false]

theorem linksFrom_of_unlinked (h : dp.nlink = 0) : linksFrom dp inum = 0 := by
  simp only [linksFrom, h, Nat.lt_irrefl, and_false, if_false]

theorem linksFrom_of_unnamed (h : ∀ de ∈ dp.dirents, de.inum.toNat ≠ inum) : linksFrom dp inum = 0 := by
  unfold linksFrom
  split
  · rw [List.length_eq_zero_iff, List.filter_eq_nil_iff]
    intro de hde
    simp only [h de hde, false_and, decide_false, Bool.false_eq_true, not_false_eq_true]
  · rfl

/-- Nothing counts towards a free inode's links, where every entry names an
allocated inode. -/
theorem linksFrom_of_free {s : State} (hb : EntriesAllocated s) {d : Nat} (hd : d < s.ninodes)
    (hpos : 0 < inum) (hfree : (s.inode inum).type = 0) : linksFrom (s.inode d) inum = 0 := by
  by_cases hdir : (s.inode d).type = T_DIR
  · refine linksFrom_of_unnamed fun de hde heq => ?_
    -- the entry names `inum`, which is not `0`, so it is in use
    have hused : de.inum ≠ 0 := fun h0 => by
      rw [h0] at heq
      simp at heq
      omega
    have halloc := hb d hd hdir de hde hused
    rw [heq] at halloc
    exact halloc hfree
  · exact linksFrom_of_not_dir hdir

theorem linkCount_eq_zero {s : State} (h : ∀ d < s.ninodes, linksFrom (s.inode d) inum = 0) :
    linkCount s inum = 0 := by
  refine List.sum_eq_zero fun x hx => ?_
  obtain ⟨d, hd, rfl⟩ := List.mem_map.mp hx
  exact h d (List.mem_range.mp hd)

end Count

/-! ## A file created in an unlinked directory -/

/-- **Creating in an unlinked `cwd` breaks the link counts.** From any image
whose entries name allocated inodes, `open` with `O_CREATE` of a name
relative to a `cwd` that has no links, and lacks the name, makes a file
whose one link nothing counts. -/
theorem sysOpen_create_in_unlinked_cwd {s : State} {path name : String}
    (hb : EntriesAllocated s) (hdir : (s.inode s.cwd).type = T_DIR)
    (hunlinked : (s.inode s.cwd).nlink = 0) (hrel : path.toList.head? ≠ some '/')
    (helems : elems path = [name]) (habsent : findEntry name (s.inode s.cwd).dirents = none)
    (hfree : ∃ inum, 0 < inum ∧ inum < s.ninodes ∧ (s.inode inum).type = 0) :
    ¬ LinkCountsOk (sysOpen s path O_CREATE).1 := by
  obtain ⟨inum, hpos, hlt, hfree⟩ := hfree
  have hparent := nameiparent_of_single hrel helems hdir
  obtain ⟨s₂, ip, halloc⟩ := @ialloc_of_free (iget s s.cwd) T_FILE inum hpos hlt hfree
  obtain ⟨hippos, hiplt, hipfree, -⟩ := ialloc_some halloc
  obtain ⟨s', hcreate, hn, hip, hcwd, hother⟩ :=
    create_of_absent 0 hparent hdir habsent halloc (by decide)
  obtain ⟨hinode, hninodes⟩ := sysOpen_of_create hcreate (by rw [hip]) (by rw [hip]; decide)
  -- the file's one link is a slot of `cwd`, which is not counted
  have hzero : linkCount (sysOpen s path O_CREATE).1 ip = 0 := by
    refine linkCount_eq_zero fun d hd => ?_
    rw [hninodes, hn, iget_ninodes] at hd
    rw [hinode]
    by_cases hdip : d = ip
    · rw [hdip, hip]
      exact linksFrom_of_not_dir (by decide)
    by_cases hdcwd : d = s.cwd
    · rw [hdcwd]
      rcases hcwd with h | h
      · exact h ▸ linksFrom_of_unlinked hunlinked
      · exact h ▸ linksFrom_of_not_dir (by decide)
    · rw [hother d hdip hdcwd]
      exact linksFrom_of_free hb hd hippos hipfree
  intro hok
  have hcount := hok ip (by rwa [hninodes, hn]) hippos (by rw [hinode, hip]; decide)
  rw [hzero, hinode, hip] at hcount
  exact absurd hcount (by decide)

/-- The image after `mkdir("/d")`, `chdir("/d")` and `unlink("/d")` from the
root alone: the process's `cwd` is the directory just unlinked. -/
def unlinkedCwd : State :=
  match run (rootOnly 8) [.mkdir "/d", .chdir "/d", .unlink "/d"] with
  | .ok s => s
  | .error _ => rootOnly 8

/-- From a consistent image, `mkdir("/d")`, `chdir("/d")`, `unlink("/d")`
complete, and `open("f", O_CREATE)` then breaks the link counts. -/
theorem sysOpen_create_in_unlinked_cwd_after_unlink :
    LinkCountsOk (rootOnly 8) ∧ EntriesAllocated (rootOnly 8) ∧
      run (rootOnly 8) [.mkdir "/d", .chdir "/d", .unlink "/d"] = .ok unlinkedCwd ∧
      ¬ LinkCountsOk (sysOpen unlinkedCwd "f" O_CREATE).1 :=
  ⟨by decide +kernel, by decide +kernel, rfl,
    @sysOpen_create_in_unlinked_cwd unlinkedCwd "f" "f" (by decide +kernel) (by decide +kernel)
      (by decide +kernel) (by decide +kernel) (by decide +kernel) (by decide +kernel)
      ⟨3, by decide, by decide +kernel, by decide +kernel⟩⟩

/-- When the process then exits, the directory goes with its slots, and the
file, inode 3, stays allocated with one link that no entry accounts for. -/
example :
    (run (rootOnly 8) [.mkdir "/d", .chdir "/d", .unlink "/d", .open "f" O_CREATE, .exit]).toOption.map
        (fun s => ((s.inode 2).type, (s.inode 3).type, (s.inode 3).nlink, linkCount s 3)) =
      some (0, T_FILE, 1, 0) := by
  decide +kernel

end Fs

end Mkros
