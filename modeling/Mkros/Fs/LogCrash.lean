import Mkros.Fs.Log
/-!
# The file system log — crashes during commit and recovery

A group is committed over a disk whose header records `n = 0`. A crash can
come after any `bwrite` of `commit`, and after any `bwrite` of each
`recover_from_log` that follows, until one recovery runs to its end. The
states a crash can leave are `Recoverable`: clean, with the home blocks as
before the commit or as after it, or `Committed` — the header records the
group, the log blocks hold its copies, and outside the log only the group's
home blocks may have moved. Commit's prefixes are recoverable
(`commit_take_recoverable`), recovery keeps them so (`recover_take_recoverable`)
and a complete recovery leaves a clean disk (`recover_clean`): the redo is
idempotent because recovery writes only home blocks before its last write.

What recovery does not restore is the log region: `write_log`'s copies stay
in the log blocks. So the disk after recovery agrees with one of the two
outcomes outside the log, not on the whole disk.
-/

namespace Mkros

namespace Fs

open Writes

/-- A disk whose header records an empty group and which agrees with `X`
outside the log. -/
structure Clean (log : Log) (X D : Disk) : Prop where
  head_n : (readHead (D log.start)).n = 0
  agree : ∀ b, OutsideLog log b → D b = X b

/-- A disk on which the group is committed and not yet fully installed: the
header records it, the log blocks hold its copies, and outside the log only
the group's home blocks differ from `D0`. -/
structure Committed (log : Log) (D0 C D : Disk) : Prop where
  head_n : (readHead (D log.start)).n = log.lh.n
  head_block : ∀ i < log.lh.n, (readHead (D log.start)).block i = log.lh.block i
  copies : ∀ i < log.lh.n, D (log.start + i + 1) = C (log.lh.block i)
  home : ∀ b, OutsideLog log b → ¬Logged log.lh b → D b = D0 b

/-- **The crash invariant**: every state a crash can leave, for the group of
`log` over `D0` with cached contents `C`. -/
def Recoverable (log : Log) (D0 C D : Disk) : Prop :=
  Clean log D0 D ∨ Clean log (withGroup D0 log.lh C) D ∨ Committed log D0 C D

/-! ## The header block -/

@[simp] theorem readHead_headerBlock_n (old : Blk) (lh : LogHeader) :
    (readHead (headerBlock old lh)).n = lh.n := by
  simp [readHead, headerBlock]

theorem readHead_headerBlock_block (old : Blk) (lh : LogHeader) {i : Nat} (hi : i < lh.n) :
    (readHead (headerBlock old lh)).block i = lh.block i := by
  have hle : i + 1 ≤ lh.n := hi
  simp only [readHead, headerBlock, Nat.add_one_ne_zero, if_false, if_pos hle,
    Nat.add_sub_cancel, Int.toNat_natCast]

/-! ## Where the writes land -/

section Layout

variable {log : Log}

theorem start_inside (hroom : log.lh.n + 1 ≤ log.size) : ¬OutsideLog log log.start := by
  unfold OutsideLog
  omega

theorem copy_inside (hroom : log.lh.n + 1 ≤ log.size) {i : Nat} (hi : i < log.lh.n) :
    ¬OutsideLog log (log.start + i + 1) := by
  unfold OutsideLog
  omega

theorem ne_start_of_outside (hsize : 1 ≤ log.size) {b : Nat} (hb : OutsideLog log b) :
    b ≠ log.start := by
  unfold OutsideLog at hb
  omega

theorem outside_of_logged (hout : ∀ i < log.lh.n, OutsideLog log (log.lh.block i)) {b : Nat}
    (hb : Logged log.lh b) : OutsideLog log b := by
  obtain ⟨i, hi, rfl⟩ := hb
  exact hout i hi

/-- `write_log` reads home blocks and writes log blocks, so it issues what it
computes from the view it starts from. -/
theorem issue_writeLog (hroom : log.lh.n + 1 ≤ log.size)
    (hout : ∀ i < log.lh.n, OutsideLog log (log.lh.block i)) (V : Disk) :
    issue V (writeLog log) =
      (List.range log.lh.n).map fun i => (log.start + i + 1, V (log.lh.block i)) := by
  rw [issue_eq_map (R := OutsideLog log), writeLog, List.map_map]
  · rfl
  · intro f hf d d' hdd'
    obtain ⟨i, hi, rfl⟩ := List.mem_map.mp hf
    simp only [Prod.mk.injEq, true_and]
    exact hdd' _ (hout i (List.mem_range.mp hi))
  · intro f hf d
    obtain ⟨i, hi, rfl⟩ := List.mem_map.mp hf
    exact copy_inside hroom (List.mem_range.mp hi)

/-- `install_trans` reads log blocks and writes home blocks. -/
theorem issue_installTrans (hroom : log.lh.n + 1 ≤ log.size)
    (hout : ∀ i < log.lh.n, OutsideLog log (log.lh.block i)) (V : Disk) :
    issue V (installTrans log) =
      (List.range log.lh.n).map fun i => (log.lh.block i, V (log.start + i + 1)) := by
  rw [issue_eq_map (R := fun b => ¬OutsideLog log b), installTrans, List.map_map]
  · rfl
  · intro f hf d d' hdd'
    obtain ⟨i, hi, rfl⟩ := List.mem_map.mp hf
    simp only [Prod.mk.injEq, true_and]
    exact hdd' _ (copy_inside hroom (List.mem_range.mp hi))
  · intro f hf d
    obtain ⟨i, hi, rfl⟩ := List.mem_map.mp hf
    exact not_not_intro (hout i (List.mem_range.mp hi))

/-- After `write_log`, log block `i + 1` holds the view's copy of the
group's `i`-th block. -/
theorem applyAll_writeLog_copy {V D : Disk} {i : Nat} (hi : i < log.lh.n) :
    applyAll D ((List.range log.lh.n).map fun j => (log.start + j + 1, V (log.lh.block j)))
      (log.start + i + 1) = V (log.lh.block i) := by
  refine applyAll_of_forall_eq ⟨_, List.mem_map.mpr ⟨i, List.mem_range.mpr hi, rfl⟩, rfl⟩ ?_
  intro w hw hwi
  obtain ⟨j, -, rfl⟩ := List.mem_map.mp hw
  have : j = i := by simp only at hwi; omega
  rw [this]

/-- **The `bwrite`s of a commit**: the copies into the log, the header that
commits, the copies home, and the empty header. -/
theorem commitWrites_eq (hroom : log.lh.n + 1 ≤ log.size)
    (hout : ∀ i < log.lh.n, OutsideLog log (log.lh.block i)) (hn : 0 < log.lh.n) (V : Disk) :
    commitWrites log V =
      (List.range log.lh.n).map (fun i => (log.start + i + 1, V (log.lh.block i))) ++
      [(log.start, headerBlock (V log.start) log.lh)] ++
      (List.range log.lh.n).map (fun i => (log.lh.block i, V (log.lh.block i))) ++
      [(log.start, headerBlock (headerBlock (V log.start) log.lh) (cleared log).lh)] := by
  have hstart : applyAll V ((List.range log.lh.n).map fun i => (log.start + i + 1, V (log.lh.block i)))
      log.start = V log.start := by
    refine applyAll_of_forall_ne fun w hw => ?_
    obtain ⟨j, -, rfl⟩ := List.mem_map.mp hw
    show log.start + j + 1 ≠ log.start
    omega
  rw [commitWrites, commit, if_pos hn, issue_append, issue_append, issue_append,
    issue_writeLog hroom hout]
  simp only [writeHead, issue_cons, issue_nil, applyAll_append, applyAll_cons, applyAll_nil, hstart]
  -- the view `install_trans` starts from: the copies in the log, the header written
  generalize hV₂ : write (applyAll V ((List.range log.lh.n).map fun i =>
    (log.start + i + 1, V (log.lh.block i)))) log.start (headerBlock (V log.start) log.lh) = V₂
  have hcopy : ∀ i < log.lh.n, V₂ (log.start + i + 1) = V (log.lh.block i) := by
    intro i hi
    rw [← hV₂, write_of_ne _ (by omega), applyAll_writeLog_copy hi]
  have hhead : V₂ log.start = headerBlock (V log.start) log.lh := by
    rw [← hV₂, write_self]
  have hW₂ : issue V₂ (installTrans log) =
      (List.range log.lh.n).map fun i => (log.lh.block i, V (log.lh.block i)) := by
    rw [issue_installTrans hroom hout]
    exact List.map_congr_left fun i hi => by rw [hcopy i (List.mem_range.mp hi)]
  have hfinal : applyAll V₂ ((List.range log.lh.n).map fun i => (log.lh.block i, V (log.lh.block i)))
      log.start = headerBlock (V log.start) log.lh := by
    rw [applyAll_of_forall_ne, hhead]
    intro w hw
    obtain ⟨j, hj, rfl⟩ := List.mem_map.mp hw
    exact fun h => start_inside hroom (h ▸ hout j (List.mem_range.mp hj))
  rw [hW₂, show (cleared log).start = log.start from rfl, hfinal]

/-- **The `bwrite`s of a recovery**: the copies home that the header on
disk names, then the empty header. -/
theorem recoverWrites_eq {D : Disk} (hroom : (readHead (D log.start)).n + 1 ≤ log.size)
    (hout : ∀ i < (readHead (D log.start)).n,
      OutsideLog log ((readHead (D log.start)).block i)) :
    recoverWrites log D =
      (List.range (readHead (D log.start)).n).map
        (fun i => ((readHead (D log.start)).block i, D (log.start + i + 1))) ++
      [(log.start, headerBlock (D log.start) ⟨0, (readHead (D log.start)).block⟩)] := by
  have hstart : applyAll D ((List.range (readHead (D log.start)).n).map
      fun i => ((readHead (D log.start)).block i, D (log.start + i + 1))) log.start =
      D log.start := by
    refine applyAll_of_forall_ne fun w hw => ?_
    obtain ⟨j, hj, rfl⟩ := List.mem_map.mp hw
    exact ne_start_of_outside (by omega) (hout j (List.mem_range.mp hj))
  rw [recoverWrites, recoverFromLog, issue_append,
    @issue_installTrans { log with lh := readHead (D log.start) } hroom hout D]
  simp only [writeHead, cleared, issue_cons, issue_nil, hstart]

end Layout

/-! ## The crash invariant -/

section Group

variable {log : Log} {D0 C D : Disk}

theorem withGroup_of_logged {b : Nat} (hb : Logged log.lh b) : withGroup D0 log.lh C b = C b := by
  simp [withGroup, hb]

theorem withGroup_of_not_logged {b : Nat} (hb : ¬Logged log.lh b) :
    withGroup D0 log.lh C b = D0 b := by
  simp [withGroup, hb]

theorem logged_block {i : Nat} (hi : i < log.lh.n) : Logged log.lh (log.lh.block i) := ⟨i, hi, rfl⟩

/-- A clean disk stays clean through a write of an empty header. -/
theorem Clean.write_head {X : Disk} (h : Clean log X D) (hroom : 1 ≤ log.size) (lh : LogHeader)
    (hn : lh.n = 0) : Clean log X (write D log.start (headerBlock (D log.start) lh)) := by
  refine ⟨by rw [write_self, readHead_headerBlock_n, hn], fun b hb => ?_⟩
  rw [write_of_ne _ (fun h => by unfold OutsideLog at hb; omega), h.agree b hb]

/-- **Every crash during commit leaves a recoverable disk.** Before the
header is written only log blocks have changed; from the header to the last
copy home the group is committed; after the empty header it is installed. -/
theorem commit_take_recoverable (hroom : log.lh.n + 1 ≤ log.size)
    (hout : ∀ i < log.lh.n, OutsideLog log (log.lh.block i))
    (hhead : (readHead (D0 log.start)).n = 0) (k : Nat) :
    Recoverable log D0 C (applyAll D0 ((commitWrites log (withGroup D0 log.lh C)).take k)) := by
  rcases Nat.eq_zero_or_pos log.lh.n with hn | hn
  · -- an empty group commits nothing
    left
    rw [commitWrites, commit, if_neg (by omega), issue_nil, List.take_nil, applyAll_nil]
    exact ⟨hhead, fun _ _ => rfl⟩
  have hVblock : ∀ i < log.lh.n, withGroup D0 log.lh C (log.lh.block i) = C (log.lh.block i) :=
    fun i hi => withGroup_of_logged (logged_block hi)
  have hVstart : withGroup D0 log.lh C log.start = D0 log.start :=
    withGroup_of_not_logged fun h => start_inside hroom (outside_of_logged hout h)
  rw [commitWrites_eq hroom hout hn, hVstart]
  set W₁ := (List.range log.lh.n).map fun i =>
    (log.start + i + 1, withGroup D0 log.lh C (log.lh.block i))
  set W₂ := (List.range log.lh.n).map fun i =>
    (log.lh.block i, withGroup D0 log.lh C (log.lh.block i))
  have hW₁ : ∀ w ∈ W₁, ¬OutsideLog log w.1 := by
    intro w hw
    obtain ⟨j, hj, rfl⟩ := List.mem_map.mp hw
    exact copy_inside hroom (List.mem_range.mp hj)
  have hW₂ : ∀ w ∈ W₂, OutsideLog log w.1 ∧ Logged log.lh w.1 := by
    intro w hw
    obtain ⟨j, hj, rfl⟩ := List.mem_map.mp hw
    exact ⟨hout j (List.mem_range.mp hj), logged_block (List.mem_range.mp hj)⟩
  have hlen₁ : W₁.length = log.lh.n := by simp [W₁]
  have hlen₂ : W₂.length = log.lh.n := by simp [W₂]
  have hW₁start : ∀ w ∈ W₁, w.1 ≠ log.start := by
    intro w hw
    obtain ⟨j, -, rfl⟩ := List.mem_map.mp hw
    show log.start + j + 1 ≠ log.start
    omega
  have hsize : 1 ≤ log.size := by omega
  rw [List.append_assoc, List.append_assoc, List.singleton_append]
  rcases Nat.lt_or_ge log.lh.n k with hk | hk
  swap
  · -- a crash inside `write_log`: the header still records an empty group
    left
    rw [List.take_append_of_le_length (by omega)]
    refine ⟨by rw [applyAll_of_forall_ne fun w hw => hW₁start w (List.mem_of_mem_take hw), hhead],
      fun b hb => applyAll_of_forall_ne fun w hw h => hW₁ w (List.mem_of_mem_take hw) (h ▸ hb)⟩
  obtain ⟨m, rfl⟩ : ∃ m, k = log.lh.n + 1 + m := ⟨k - log.lh.n - 1, by omega⟩
  rw [List.take_append, List.take_of_length_le (by omega), hlen₁,
    show log.lh.n + 1 + m - log.lh.n = m + 1 by omega, List.take_succ_cons, applyAll_append,
    applyAll_cons]
  -- the state the commit point leaves
  have hD₁start : write (applyAll D0 W₁) log.start (headerBlock (D0 log.start) log.lh) log.start =
      headerBlock (D0 log.start) log.lh := write_self _ _ _
  have hD₁copy : ∀ i < log.lh.n, write (applyAll D0 W₁) log.start
      (headerBlock (D0 log.start) log.lh) (log.start + i + 1) = C (log.lh.block i) := by
    intro i hi
    rw [write_of_ne _ (show log.start + i + 1 ≠ log.start by omega), applyAll_writeLog_copy hi,
      hVblock i hi]
  have hD₁home : ∀ b, OutsideLog log b →
      write (applyAll D0 W₁) log.start (headerBlock (D0 log.start) log.lh) b = D0 b := by
    intro b hb
    rw [write_of_ne _ (ne_start_of_outside hsize hb)]
    exact applyAll_of_forall_ne fun w hw h => hW₁ w hw (h ▸ hb)
  generalize write (applyAll D0 W₁) log.start (headerBlock (D0 log.start) log.lh) = D₁
    at hD₁start hD₁copy hD₁home ⊢
  -- the copies home write only the group's blocks, outside the log
  have hframe₂ : ∀ j b, (¬OutsideLog log b ∨ ¬Logged log.lh b) →
      applyAll D₁ (W₂.take j) b = D₁ b := by
    intro j b hb
    refine applyAll_of_forall_ne fun w hw h => ?_
    obtain ⟨hwo, hwl⟩ := hW₂ w (List.mem_of_mem_take hw)
    rcases hb with hb | hb
    · exact hb (h ▸ hwo)
    · exact hb (h ▸ hwl)
  rcases Nat.lt_or_ge log.lh.n m with hm | hm
  · -- the empty header is written: the group is installed
    right
    left
    rw [List.take_of_length_le (by simp; omega), applyAll_append, applyAll_cons, applyAll_nil]
    refine ⟨by rw [write_self, readHead_headerBlock_n]; rfl, fun b hb => ?_⟩
    rw [write_of_ne _ (ne_start_of_outside hsize hb)]
    by_cases hl : Logged log.lh b
    · rw [withGroup_of_logged hl]
      obtain ⟨i, hi, rfl⟩ := hl
      refine applyAll_of_forall_eq ⟨_, List.mem_map.mpr ⟨i, List.mem_range.mpr hi, rfl⟩, rfl⟩ ?_
      intro w hw hwb
      obtain ⟨j, hj, rfl⟩ := List.mem_map.mp hw
      simp only at hwb ⊢
      rw [hVblock j (List.mem_range.mp hj), hwb]
    · rw [withGroup_of_not_logged hl, ← hD₁home b hb]
      simpa using hframe₂ W₂.length b (Or.inr hl)
  · -- between the commit point and the empty header: committed
    right
    right
    rw [List.take_append_of_le_length (by omega)]
    refine ⟨?_, ?_, ?_, ?_⟩
    · rw [hframe₂ m _ (Or.inl (start_inside hroom)), hD₁start, readHead_headerBlock_n]
    · intro i hi
      rw [hframe₂ m _ (Or.inl (start_inside hroom)), hD₁start, readHead_headerBlock_block _ _ hi]
    · intro i hi
      rw [hframe₂ m _ (Or.inl (copy_inside hroom hi)), hD₁copy i hi]
    · intro b hb hl
      rw [hframe₂ m b (Or.inr hl), hD₁home b hb]

/-- From a clean disk recovery finds an empty group: all it writes is an
empty header, so every crash in it leaves the disk clean. -/
theorem Clean.recover_take {X : Disk} (h : Clean log X D) (hsize : 1 ≤ log.size) (k : Nat) :
    Clean log X (applyAll D ((recoverWrites log D).take k)) := by
  rw [recoverWrites_eq (by rw [h.head_n]; exact hsize) (by rw [h.head_n]; omega), h.head_n]
  rcases k with _ | k
  · exact h
  · simpa using h.write_head hsize _ rfl

/-- From a committed disk recovery reads back the group and copies its
cached contents home. -/
theorem Committed.recoverWrites_eq (h : Committed log D0 C D)
    (hroom : log.lh.n + 1 ≤ log.size) (hout : ∀ i < log.lh.n, OutsideLog log (log.lh.block i)) :
    recoverWrites log D =
      (List.range log.lh.n).map (fun i => (log.lh.block i, C (log.lh.block i))) ++
      [(log.start, headerBlock (D log.start) ⟨0, (readHead (D log.start)).block⟩)] := by
  rw [Fs.recoverWrites_eq (by rw [h.head_n]; exact hroom)
    (fun i hi => by rw [h.head_block i (h.head_n ▸ hi)]; exact hout i (h.head_n ▸ hi)), h.head_n]
  congr 1
  refine List.map_congr_left fun i hi => ?_
  rw [h.head_block i (List.mem_range.mp hi), h.copies i (List.mem_range.mp hi)]

/-- The copies home touch only logged blocks outside the log. -/
theorem applyAll_installs_take_of_not (hout : ∀ i < log.lh.n, OutsideLog log (log.lh.block i))
    (j : Nat) {b : Nat} (hb : ¬OutsideLog log b ∨ ¬Logged log.lh b) :
    applyAll D (((List.range log.lh.n).map fun i => (log.lh.block i, C (log.lh.block i))).take j) b =
      D b := by
  refine applyAll_of_forall_ne fun w hw hwb => ?_
  obtain ⟨i, hi, rfl⟩ := List.mem_map.mp (List.mem_of_mem_take hw)
  rcases hb with hb | hb
  · exact hb (hwb ▸ hout i (List.mem_range.mp hi))
  · exact hb (hwb ▸ logged_block (List.mem_range.mp hi))

/-- A crash among the copies home leaves the group committed: the header and
the log copies recovery reads are untouched. -/
theorem Committed.recover_take (h : Committed log D0 C D) (hroom : log.lh.n + 1 ≤ log.size)
    (hout : ∀ i < log.lh.n, OutsideLog log (log.lh.block i)) {k : Nat} (hk : k ≤ log.lh.n) :
    Committed log D0 C (applyAll D ((recoverWrites log D).take k)) := by
  rw [h.recoverWrites_eq hroom hout, List.take_append_of_le_length (by simpa using hk)]
  refine ⟨?_, ?_, ?_, ?_⟩
  · rw [applyAll_installs_take_of_not hout k (Or.inl (start_inside hroom)), h.head_n]
  · intro i hi
    rw [applyAll_installs_take_of_not hout k (Or.inl (start_inside hroom)), h.head_block i hi]
  · intro i hi
    rw [applyAll_installs_take_of_not hout k (Or.inl (copy_inside hroom hi)), h.copies i hi]
  · intro b hb hl
    rw [applyAll_installs_take_of_not hout k (Or.inr hl), h.home b hb hl]

/-- Once recovery writes the empty header every copy home is done: the disk
holds the group outside the log. -/
theorem Committed.recover_take_installed (h : Committed log D0 C D)
    (hroom : log.lh.n + 1 ≤ log.size) (hout : ∀ i < log.lh.n, OutsideLog log (log.lh.block i))
    {k : Nat} (hk : log.lh.n < k) :
    Clean log (withGroup D0 log.lh C) (applyAll D ((recoverWrites log D).take k)) := by
  have hsize : 1 ≤ log.size := by omega
  rw [h.recoverWrites_eq hroom hout, List.take_of_length_le (by simp; omega), applyAll_append,
    applyAll_cons, applyAll_nil]
  refine ⟨by rw [write_self, readHead_headerBlock_n], fun b hb => ?_⟩
  rw [write_of_ne _ (ne_start_of_outside hsize hb)]
  by_cases hl : Logged log.lh b
  · -- a logged block holds its copy: every write naming it writes `C b`
    rw [withGroup_of_logged hl]
    obtain ⟨i, hi, rfl⟩ := hl
    refine applyAll_of_forall_eq ⟨_, List.mem_map.mpr ⟨i, List.mem_range.mpr hi, rfl⟩, rfl⟩ ?_
    intro w hw hwb
    obtain ⟨j, -, rfl⟩ := List.mem_map.mp hw
    simp only at hwb ⊢
    rw [hwb]
  · have hhome := applyAll_installs_take_of_not (C := C) (D := D) hout log.lh.n (Or.inr hl)
    rw [List.take_of_length_le (by simp)] at hhome
    rw [withGroup_of_not_logged hl, ← h.home b hb hl, hhome]

/-- **Recovery keeps the crash invariant**: a crash after any of its writes
leaves a recoverable disk. -/
theorem recover_take_recoverable (hroom : log.lh.n + 1 ≤ log.size)
    (hout : ∀ i < log.lh.n, OutsideLog log (log.lh.block i)) (hR : Recoverable log D0 C D)
    (k : Nat) : Recoverable log D0 C (applyAll D ((recoverWrites log D).take k)) := by
  have hsize : 1 ≤ log.size := by omega
  rcases hR with h | h | h
  · exact Or.inl (h.recover_take hsize k)
  · exact Or.inr (Or.inl (h.recover_take hsize k))
  · rcases Nat.lt_or_ge log.lh.n k with hk | hk
    · exact Or.inr (Or.inl (h.recover_take_installed hroom hout hk))
    · exact Or.inr (Or.inr (h.recover_take hroom hout hk))

/-- **A recovery run to its end leaves a clean disk**: either outcome of the
group, never a mix. -/
theorem recover_clean (hroom : log.lh.n + 1 ≤ log.size)
    (hout : ∀ i < log.lh.n, OutsideLog log (log.lh.block i)) (hR : Recoverable log D0 C D) :
    Clean log D0 (applyAll D (recoverWrites log D)) ∨
      Clean log (withGroup D0 log.lh C) (applyAll D (recoverWrites log D)) := by
  have hsize : 1 ≤ log.size := by omega
  rw [← List.take_length (l := recoverWrites log D)]
  rcases hR with h | h | h
  · exact Or.inl (h.recover_take hsize _)
  · exact Or.inr (h.recover_take hsize _)
  · -- recovery issues one copy per logged block and then the header
    have hlen : log.lh.n < (recoverWrites log D).length := by
      rw [h.recoverWrites_eq hroom hout]
      simp
    exact Or.inr (h.recover_take_installed hroom hout hlen)

/-- **Any number of crashed recoveries, then one complete**, from a
recoverable disk: the disk ends clean. -/
theorem recoverAfterCrashes_clean (hroom : log.lh.n + 1 ≤ log.size)
    (hout : ∀ i < log.lh.n, OutsideLog log (log.lh.block i)) (hR : Recoverable log D0 C D)
    (ks : List Nat) :
    Clean log D0 (recoverAfterCrashes log ks D) ∨
      Clean log (withGroup D0 log.lh C) (recoverAfterCrashes log ks D) := by
  induction ks generalizing D with
  | nil => exact recover_clean hroom hout hR
  | cons k ks ih => exact ih (recover_take_recoverable hroom hout hR k)

end Group

/-! ## Crash atomicity -/

/-- **Crash atomicity of a commit.** Commit a group whose home blocks lie
outside the log over a disk with an empty header, crash after any `k` of its
`bwrite`s, crash again during recovery after `ks`, and let the last recovery
finish: outside the log the disk holds either what it held before the commit
or that with the group's blocks replaced by their cached contents, and the
header is empty again. -/
theorem commit_crash_atomic (log : Log) (D0 C : Disk) (hroom : log.lh.n + 1 ≤ log.size)
    (hout : ∀ i < log.lh.n, OutsideLog log (log.lh.block i))
    (hhead : (readHead (D0 log.start)).n = 0) (k : Nat) (ks : List Nat) :
    Clean log D0
        (recoverAfterCrashes log ks (applyAll D0 ((commitWrites log (withGroup D0 log.lh C)).take k))) ∨
      Clean log (withGroup D0 log.lh C)
        (recoverAfterCrashes log ks (applyAll D0 ((commitWrites log (withGroup D0 log.lh C)).take k))) :=
  recoverAfterCrashes_clean hroom hout (commit_take_recoverable hroom hout hhead k) ks

/-- A one-block group at block 10 with the log at blocks 2 to 5, crashed after
its third write and once more during recovery. -/
theorem commit_crash_atomic_one_block :
    Clean ⟨2, 4, 0, false, ⟨1, fun _ => 10⟩⟩ (fun _ _ => 0)
        (recoverAfterCrashes ⟨2, 4, 0, false, ⟨1, fun _ => 10⟩⟩ [1]
          (applyAll (fun _ _ => 0) ((commitWrites ⟨2, 4, 0, false, ⟨1, fun _ => 10⟩⟩
            (withGroup (fun _ _ => 0) ⟨1, fun _ => 10⟩ (fun _ _ => 7))).take 3))) ∨
      Clean ⟨2, 4, 0, false, ⟨1, fun _ => 10⟩⟩ (withGroup (fun _ _ => 0) ⟨1, fun _ => 10⟩ (fun _ _ => 7))
        (recoverAfterCrashes ⟨2, 4, 0, false, ⟨1, fun _ => 10⟩⟩ [1]
          (applyAll (fun _ _ => 0) ((commitWrites ⟨2, 4, 0, false, ⟨1, fun _ => 10⟩⟩
            (withGroup (fun _ _ => 0) ⟨1, fun _ => 10⟩ (fun _ _ => 7))).take 3))) :=
  commit_crash_atomic ⟨2, 4, 0, false, ⟨1, fun _ => 10⟩⟩ (fun _ _ => 0) (fun _ _ => 7)
    (by decide) (fun _ _ => Or.inr (show 2 + 4 ≤ 10 by decide)) rfl 3 [1]

/-- The whole disk is not restored: a crash right after the commit point and
a complete recovery leave the group's copy in log block 3, where neither
outcome has it. -/
theorem commit_recover_leaves_log_copy :
    let log : Log := ⟨2, 4, 0, false, ⟨1, fun _ => 10⟩⟩
    let D0 : Disk := fun _ _ => 0
    let C : Disk := fun _ _ => 7
    let D := recoverAfterCrashes log [] (applyAll D0 ((commitWrites log (withGroup D0 log.lh C)).take 2))
    D ≠ D0 ∧ D ≠ withGroup D0 log.lh C := by
  intro log D0 C D
  have hD : D 3 0 = 7 := by decide
  have hV : withGroup D0 log.lh C 3 0 = 0 := by decide
  exact ⟨fun h => absurd (congrFun (congrFun h 3) 0) (by rw [hD]; decide),
    fun h => absurd (congrFun (congrFun h 3) 0) (by rw [hD, hV]; decide)⟩

end Fs

end Mkros
