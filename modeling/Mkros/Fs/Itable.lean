import Mathlib
/-!
# The inode table under interleaving

`itable` caches inodes in `NINODE` entries. `iget` hands out the entry that
holds an inode, with one more reference, or recycles the first entry no one
references, clearing `valid` so that `ilock` reloads it from disk; `idup`
takes another reference and `iput` drops one. The last `iput` of a valid
inode with no links frees it, in a window: it takes `ip->lock`, lets go of
`itable.lock`, truncates, writes the free inode back and clears `valid`, and
only then takes `itable.lock` again to drop its reference. Until then
`ref` stays `1`, which keeps the entry out of the reach of `iget`'s
recycling.

The model runs threads of any type, interleaved at the critical sections of
the source: each call under `itable.lock` is one step, `ilock` is one once it
holds the sleep-lock, and each step of `iput`'s window is one. The pointers
threads hold into the table, as open files, `cwd`s and lookups in progress
hold them, are kept beside it (`ptrs`). Over every interleaving from boot
(`itable_invariant`): at most one entry in use holds an inode; each entry's
`ref` counts the pointers to it; `iget` hands out the entry in use for the
inode, or a free one it marks for reloading; and an entry in use whose
`valid` is set holds its own inode's fields from disk, except while the
`iput` that frees it writes them.
-/

namespace Mkros

namespace Fs

namespace Itable

/-- `NINODE`: the entries of `itable`. -/
def NINODE : Nat := 50

/-- The fields of a `struct dinode` the model follows: `type` (`0` for a
free inode) and `nlink`. -/
structure Dinode where
  type : Nat
  nlink : Nat
  deriving DecidableEq

/-- An entry of `itable`: the inode it holds (`dev`, `inum`), `ref`,
`valid`, the fields `ilock` reads from disk, and the thread holding
`ip->lock`. -/
structure Entry (τ : Type) where
  dev : Nat
  inum : Nat
  ref : Nat
  valid : Bool
  din : Dinode
  lock : Option τ

variable {τ : Type}

/-- The inode an entry holds. -/
def Entry.key (e : Entry τ) : Nat × Nat := (e.dev, e.inum)

/-! ## `iget` -/

/-- `iget`'s loop over the entries from `ip` on, with the first empty entry
it has passed: the table and the entry it returns, or `none` for
`panic("iget: no inodes")`. -/
def igetLoop (inode : Fin NINODE → Entry τ) (dev inum : Nat) :
    List (Fin NINODE) → Option (Fin NINODE) → Option ((Fin NINODE → Entry τ) × Fin NINODE)
  | [], none => none
  -- recycle an inode entry
  | [], some i => some (Function.update inode i { inode i with dev, inum, ref := 1, valid := false }, i)
  | i :: rest, empty =>
    if 0 < (inode i).ref ∧ (inode i).dev = dev ∧ (inode i).inum = inum then
      some (Function.update inode i { inode i with ref := (inode i).ref + 1 }, i)
    else igetLoop inode dev inum rest (if empty = none ∧ (inode i).ref = 0 then some i else empty)

/-- `iget(dev, inum)`. -/
def iget (inode : Fin NINODE → Entry τ) (dev inum : Nat) : Option ((Fin NINODE → Entry τ) × Fin NINODE) :=
  igetLoop inode dev inum (List.finRange NINODE) none

/-- What `iget`'s loop returns: an entry in use that holds the inode, with
one more reference, or, where no entry it scans holds the inode in use, the
empty entry it remembered, recycled. -/
theorem igetLoop_some {inode : Fin NINODE → Entry τ} {dev inum : Nat} :
    ∀ (l : List (Fin NINODE)) (empty : Option (Fin NINODE)) {inode' : Fin NINODE → Entry τ} {i : Fin NINODE},
      (∀ j, empty = some j → (inode j).ref = 0) → igetLoop inode dev inum l empty = some (inode', i) →
      (0 < (inode i).ref ∧ (inode i).dev = dev ∧ (inode i).inum = inum ∧
          inode' = Function.update inode i { inode i with ref := (inode i).ref + 1 }) ∨
        ((∀ j ∈ l, ¬(0 < (inode j).ref ∧ (inode j).dev = dev ∧ (inode j).inum = inum)) ∧ (inode i).ref = 0 ∧
          inode' = Function.update inode i { inode i with dev, inum, ref := 1, valid := false })
  | [], none, _, _, _, h => nomatch h
  | [], some j, _, _, hempty, h => by
    simp only [igetLoop, Option.some.injEq, Prod.mk.injEq] at h
    obtain ⟨rfl, rfl⟩ := h
    exact .inr ⟨fun _ hj => absurd hj List.not_mem_nil, hempty _ rfl, rfl⟩
  | j :: rest, empty, _, _, hempty, h => by
    rw [igetLoop] at h
    by_cases hhit : 0 < (inode j).ref ∧ (inode j).dev = dev ∧ (inode j).inum = inum
    · rw [if_pos hhit, Option.some.injEq, Prod.mk.injEq] at h
      obtain ⟨rfl, rfl⟩ := h
      exact .inl ⟨hhit.1, hhit.2.1, hhit.2.2, rfl⟩
    · rw [if_neg hhit] at h
      -- the empty entry passed on is free
      have hempty' : ∀ k, (if empty = none ∧ (inode j).ref = 0 then some j else empty) = some k →
          (inode k).ref = 0 := by
        intro k hk
        split_ifs at hk with he
        · cases hk
          exact he.2
        · exact hempty k hk
      rcases igetLoop_some rest _ hempty' h with hit | ⟨hmiss, hfree, heq⟩
      · exact .inl hit
      · refine .inr ⟨fun k hk => ?_, hfree, heq⟩
        rcases List.mem_cons.mp hk with rfl | hk
        · exact hhit
        · exact hmiss k hk

/-- **What `iget` hands out**: the entry in use that holds the inode, or,
where no entry in use holds it, a free entry recycled for it with `valid`
clear. -/
theorem iget_some {inode inode' : Fin NINODE → Entry τ} {dev inum : Nat} {i : Fin NINODE}
    (h : iget inode dev inum = some (inode', i)) :
    (0 < (inode i).ref ∧ (inode i).key = (dev, inum) ∧
        inode' = Function.update inode i { inode i with ref := (inode i).ref + 1 }) ∨
      ((∀ j, 0 < (inode j).ref → (inode j).key ≠ (dev, inum)) ∧ (inode i).ref = 0 ∧
        inode' = Function.update inode i { inode i with dev, inum, ref := 1, valid := false }) := by
  rcases igetLoop_some _ none (fun _ h => nomatch h) h with ⟨hpos, hdev, hinum, heq⟩ | ⟨hmiss, hfree, heq⟩
  · exact .inl ⟨hpos, by rw [Entry.key, hdev, hinum], heq⟩
  · refine .inr ⟨fun j hj hkey => hmiss j (List.mem_finRange j) ⟨hj, ?_⟩, hfree, heq⟩
    exact Prod.mk.inj hkey

/-! ## Threads -/

/-- The step the `iput` that frees an entry takes next. -/
inductive Freeing
  /-- `itrunc(ip); ip->type = 0;` -/
  | trunc
  /-- `iupdate(ip);` -/
  | update
  /-- `ip->valid = 0;` -/
  | invalidate
  /-- `release_sleep(&ip->lock);` -/
  | release
  /-- `acquire(&itable.lock); ip->ref--;` -/
  | drop
  deriving DecidableEq

/-- A thread: between calls, or inside the `iput` that frees entry `i`. -/
inductive Pc
  | idle
  | iput (i : Fin NINODE) (f : Freeing)
  deriving DecidableEq

/-- The table, the inodes on disk by `(dev, inum)`, the pointers threads
hold into the table (a pair for each), and where each thread is. -/
structure Sys (τ : Type) where
  inode : Fin NINODE → Entry τ
  disk : Nat × Nat → Dinode
  ptrs : List (τ × Fin NINODE)
  pc : τ → Pc

/-- A call one thread makes, or the next step of the `iput` it is in. -/
inductive Call (τ : Type)
  /-- `ialloc`'s scan takes inode `inum`, free on disk. -/
  | ialloc (t : τ) (dev inum type : Nat)
  | iget (t : τ) (dev inum : Nat)
  | idup (t : τ) (i : Fin NINODE)
  | ilock (t : τ) (i : Fin NINODE)
  | iunlock (t : τ) (i : Fin NINODE)
  | iput (t : τ) (i : Fin NINODE)
  | resume (t : τ)

/-- The pointers to entry `i`. -/
def Sys.refs (s : Sys τ) (i : Fin NINODE) : Nat := (s.ptrs.map Prod.snd).count i

/-- Entry `i` with new fields. -/
def Sys.setEntry (s : Sys τ) (i : Fin NINODE) (e : Entry τ) : Sys τ :=
  { s with inode := Function.update s.inode i e }

section Run

variable [DecidableEq τ]

/-- Thread `t` moves to `p`. -/
def Sys.setPc (s : Sys τ) (t : τ) (p : Pc) : Sys τ := { s with pc := Function.update s.pc t p }

/-- `ip->ref++` for a new pointer of thread `t`. -/
def Sys.take (s : Sys τ) (t : τ) (i : Fin NINODE) : Sys τ :=
  { s.setEntry i { s.inode i with ref := (s.inode i).ref + 1 } with ptrs := (t, i) :: s.ptrs }

/-- `ip->ref--` for a pointer thread `t` gives up. -/
def Sys.put (s : Sys τ) (t : τ) (i : Fin NINODE) : Sys τ :=
  { s.setEntry i { s.inode i with ref := (s.inode i).ref - 1 } with ptrs := s.ptrs.erase (t, i) }

/-- The next step of the `iput` of thread `t` that frees entry `i`. -/
def freeStep (s : Sys τ) (t : τ) (i : Fin NINODE) : Freeing → Sys τ
  | .trunc => (s.setEntry i { s.inode i with din := { (s.inode i).din with type := 0 } }).setPc t (.iput i .update)
  | .update =>
    ({ s with disk := Function.update s.disk (s.inode i).key (s.inode i).din } : Sys τ).setPc t (.iput i .invalidate)
  | .invalidate => (s.setEntry i { s.inode i with valid := false }).setPc t (.iput i .release)
  | .release => (s.setEntry i { s.inode i with lock := none }).setPc t (.iput i .drop)
  | .drop => (s.setPc t .idle).put t i

/-- One call: `none` where the thread sleeps, or is inside an `iput` and
does not make it; an `error` for a panic. -/
def step (s : Sys τ) : Call τ → Except String (Option (Sys τ))
  | .ialloc t dev inum type =>
    -- `memset(dip, 0, sizeof(*dip)); dip->type = type;`
    if s.pc t = .idle ∧ (s.disk (dev, inum)).type = 0 then
      .ok (some { s with disk := Function.update s.disk (dev, inum) ⟨type, 0⟩ })
    else .ok none
  | .iget t dev inum =>
    if s.pc t ≠ .idle then .ok none
    else match iget s.inode dev inum with
      | none => .error "iget: no inodes"
      | some (inode, i) => .ok (some { s with inode, ptrs := (t, i) :: s.ptrs })
  | .idup t i => if s.pc t ≠ .idle then .ok none else .ok (some (s.take t i))
  | .ilock t i =>
    if s.pc t ≠ .idle then .ok none
    else if (s.inode i).ref < 1 then .error "ilock"
    -- `acquire_sleep` sleeps while the lock is held
    else if (s.inode i).lock.isSome then .ok none
    else if (s.inode i).valid then .ok (some (s.setEntry i { s.inode i with lock := some t }))
    else if (s.disk (s.inode i).key).type = 0 then .error "ilock: no type"
    else .ok (some (s.setEntry i { s.inode i with lock := some t, din := s.disk (s.inode i).key, valid := true }))
  | .iunlock t i =>
    if s.pc t ≠ .idle then .ok none
    else if (s.inode i).lock ≠ some t ∨ (s.inode i).ref < 1 then .error "iunlock"
    else .ok (some (s.setEntry i { s.inode i with lock := none }))
  | .iput t i =>
    if s.pc t ≠ .idle then .ok none
    else if (s.inode i).ref = 1 ∧ (s.inode i).valid ∧ (s.inode i).din.nlink = 0 then
      -- no links and no other references: truncate and free
      if (s.inode i).lock.isSome then .ok none
      else .ok (some ((s.setEntry i { s.inode i with lock := some t }).setPc t (.iput i .trunc)))
    else .ok (some (s.put t i))
  | .resume t =>
    match s.pc t with
    | .idle => .ok none
    | .iput i f => .ok (some (freeStep s t i f))

/-- A thread passes only pointers it holds, and `iput`s only an entry it
does not hold locked, as `iunlockput` unlocks first. -/
def Call.Fits (s : Sys τ) : Call τ → Prop
  | .idup t i => (t, i) ∈ s.ptrs
  | .ilock t i => (t, i) ∈ s.ptrs
  | .iunlock t i => (t, i) ∈ s.ptrs
  | .iput t i => (t, i) ∈ s.ptrs ∧ (s.inode i).lock ≠ some t
  | _ => True

instance (s : Sys τ) (c : Call τ) : Decidable (c.Fits s) := by
  cases c <;> unfold Call.Fits <;> infer_instance

/-- The states a run of fitting calls reaches from `s₀`, in any
interleaving of the threads. -/
inductive Reach (s₀ : Sys τ) : Sys τ → Prop
  | init : Reach s₀ s₀
  | step {s s' : Sys τ} (c : Call τ) : Reach s₀ s → c.Fits s → step s c = .ok (some s') → Reach s₀ s'

/-- Boot: every entry free and unlocked, no pointers, every thread between
calls, and any inodes on disk. -/
def boot (disk : Nat × Nat → Dinode) : Sys τ :=
  ⟨fun _ => ⟨0, 0, 0, false, ⟨0, 0⟩, none⟩, disk, [], fun _ => .idle⟩

end Run

/-! ## Pointers -/

section Pointers

variable {ι : Type} [DecidableEq ι] {l : List (τ × ι)}

theorem count_snd_cons (p : τ × ι) (l : List (τ × ι)) (j : ι) :
    ((p :: l).map Prod.snd).count j = (l.map Prod.snd).count j + if p.2 = j then 1 else 0 := by
  simp only [List.map_cons, List.count_cons, beq_iff_eq]

theorem count_snd_pos {p : τ × ι} (h : p ∈ l) : 0 < (l.map Prod.snd).count p.2 :=
  List.count_pos_iff.mpr (List.mem_map_of_mem h)

variable [DecidableEq τ]

/-- Giving up a pointer takes one off the count of its entry. -/
theorem count_snd_erase {p : τ × ι} (h : p ∈ l) (j : ι) :
    ((l.erase p).map Prod.snd).count j + (if p.2 = j then 1 else 0) = (l.map Prod.snd).count j := by
  rw [((List.perm_cons_erase h).map Prod.snd).count_eq j, count_snd_cons]

/-- Pointers of two threads to one entry count twice. -/
theorem two_le_count_snd {t u : τ} {i : ι} (ht : (t, i) ∈ l) (hu : (u, i) ∈ l) (hne : u ≠ t) :
    2 ≤ (l.map Prod.snd).count i := by
  have hu' : (u, i) ∈ l.erase (t, i) := (List.mem_erase_of_ne fun h => hne (Prod.mk.inj h).1).mpr hu
  have hsplit := count_snd_erase ht i
  have hpos : 0 < ((l.erase (t, i)).map Prod.snd).count i := count_snd_pos hu'
  rw [if_pos rfl] at hsplit
  omega

end Pointers

/-! ## The invariant -/

/-- **At most one entry in use holds an inode.** -/
def Distinct (inode : Fin NINODE → Entry τ) : Prop :=
  ∀ j k, 0 < (inode j).ref → 0 < (inode k).ref → (inode j).key = (inode k).key → j = k

/-- The `iput` at `p` is writing the freed fields of entry `j` back:
`ip->type` is cleared, and `valid` is not yet. -/
def Pc.Writes (p : Pc) (j : Fin NINODE) : Prop := p = .iput j .update ∨ p = .iput j .invalidate

/-- Some thread's `iput` is writing the freed fields of entry `j` back. -/
def Sys.Writing (s : Sys τ) (j : Fin NINODE) : Prop := ∃ u, (s.pc u).Writes j

/-- **The invariant of the table.** -/
structure Inv (s : Sys τ) : Prop where
  /-- At most one entry in use holds an inode. -/
  unique : Distinct s.inode
  /-- Each entry's `ref` counts the pointers to it. -/
  ref_eq : ∀ j, (s.inode j).ref = s.refs j
  /-- `ip->lock` is held through a pointer. -/
  lock_held : ∀ j u, (s.inode j).lock = some u → (u, j) ∈ s.ptrs
  /-- The `iput` that frees an entry holds a pointer to it, and its lock up
  to `release_sleep`, by when `valid` is clear. -/
  freeing : ∀ u j f, s.pc u = .iput j f →
    (u, j) ∈ s.ptrs ∧ ((s.inode j).lock = some u ↔ f ≠ .drop) ∧ (f = .release → (s.inode j).valid = false)
  /-- An entry in use with `valid` set holds its own inode's fields from
  disk, of an inode in use, except while the `iput` that frees it writes
  them. -/
  cached : ∀ j, 0 < (s.inode j).ref → (s.inode j).valid = true → ¬s.Writing j →
    (s.inode j).din = s.disk (s.inode j).key ∧ (s.inode j).din.type ≠ 0

section Frame

variable {s : Sys τ} {i j : Fin NINODE} {e : Entry τ}

@[simp] theorem setEntry_inode_self (s : Sys τ) (i : Fin NINODE) (e : Entry τ) : (s.setEntry i e).inode i = e :=
  Function.update_self ..

@[simp] theorem setEntry_inode_of_ne (e : Entry τ) (h : j ≠ i) : (s.setEntry i e).inode j = s.inode j :=
  Function.update_of_ne h ..

@[simp] theorem setEntry_ptrs (s : Sys τ) (i : Fin NINODE) (e : Entry τ) : (s.setEntry i e).ptrs = s.ptrs := rfl

@[simp] theorem setEntry_pc (s : Sys τ) (i : Fin NINODE) (e : Entry τ) : (s.setEntry i e).pc = s.pc := rfl

@[simp] theorem setEntry_disk (s : Sys τ) (i : Fin NINODE) (e : Entry τ) : (s.setEntry i e).disk = s.disk := rfl

/-- Changing an entry but not the inode it holds keeps the entries in use
distinct, where no free entry comes into use. -/
theorem Distinct.setEntry (h : Distinct s.inode) (hkey : e.key = (s.inode i).key)
    (hpos : 0 < e.ref → 0 < (s.inode i).ref) : Distinct (s.setEntry i e).inode := by
  have hm : ∀ m, (0 < ((s.setEntry i e).inode m).ref → 0 < (s.inode m).ref) ∧
      ((s.setEntry i e).inode m).key = (s.inode m).key := by
    intro m
    by_cases hmi : m = i
    · rw [hmi, setEntry_inode_self]
      exact ⟨hpos, hkey⟩
    · rw [setEntry_inode_of_ne e hmi]
      exact ⟨id, rfl⟩
  intro j k hj hk hjk
  exact h j k ((hm j).1 hj) ((hm k).1 hk) (by rw [← (hm j).2, ← (hm k).2]; exact hjk)

/-- Changing an entry but not its `ref` keeps the counts. -/
theorem refEq_setEntry (h : ∀ j, (s.inode j).ref = s.refs j) (href : e.ref = (s.inode i).ref) :
    ∀ j, ((s.setEntry i e).inode j).ref = (s.setEntry i e).refs j := by
  intro j
  by_cases hji : j = i
  · rw [hji, setEntry_inode_self, href]
    exact h i
  · rw [setEntry_inode_of_ne e hji]
    exact h j

/-- Changing an entry's lock alone keeps what `cached` says of every
entry. -/
theorem cached_setEntry
    (h : ∀ j, 0 < (s.inode j).ref → (s.inode j).valid = true → ¬s.Writing j →
      (s.inode j).din = s.disk (s.inode j).key ∧ (s.inode j).din.type ≠ 0) {l : Option τ} :
    ∀ j, 0 < ((s.setEntry i { s.inode i with lock := l }).inode j).ref →
      ((s.setEntry i { s.inode i with lock := l }).inode j).valid = true → ¬s.Writing j →
      ((s.setEntry i { s.inode i with lock := l }).inode j).din =
          s.disk ((s.setEntry i { s.inode i with lock := l }).inode j).key ∧
        ((s.setEntry i { s.inode i with lock := l }).inode j).din.type ≠ 0 := by
  intro j hj hv hw
  by_cases hji : j = i
  · subst hji
    rw [setEntry_inode_self] at hj hv ⊢
    exact h j hj hv hw
  · rw [setEntry_inode_of_ne _ hji] at hj hv ⊢
    exact h j hj hv hw

/-- A thread between calls is not one inside an `iput`. -/
theorem ne_of_idle {t u : τ} {j : Fin NINODE} {f : Freeing} (hidle : s.pc t = .idle) (hpc : s.pc u = .iput j f) :
    u ≠ t := fun hut => by
  rw [hut, hidle] at hpc
  cases hpc

/-- Changing an entry but not its lock keeps every lock held through a
pointer. -/
theorem lockHeld_setEntry (h : ∀ j u, (s.inode j).lock = some u → (u, j) ∈ s.ptrs)
    (hlock : e.lock = (s.inode i).lock) : ∀ j u, ((s.setEntry i e).inode j).lock = some u → (u, j) ∈ (s.setEntry i e).ptrs := by
  intro j u hl
  by_cases hji : j = i
  · rw [hji, setEntry_inode_self, hlock] at hl
    rw [hji]
    exact h i u hl
  · rw [setEntry_inode_of_ne e hji] at hl
    exact h j u hl

theorem Pc.not_writes_idle (j : Fin NINODE) : ¬Pc.idle.Writes j := by
  rintro (h | h) <;> cases h

theorem Pc.writes_iput {i j : Fin NINODE} {f : Freeing} (h : (Pc.iput i f).Writes j) :
    i = j ∧ (f = .update ∨ f = .invalidate) := by
  rcases h with h | h <;> cases h <;> simp

/-- A thread inside the `iput` freeing entry `i` writes back no other
entry. -/
theorem not_writes_of_pc {t : τ} {f : Freeing} (hat : s.pc t = .iput i f) (hji : j ≠ i) : ¬(s.pc t).Writes j := by
  rw [hat]
  exact fun hw => hji (Pc.writes_iput hw).1.symm

variable [DecidableEq τ] {t u : τ} {p : Pc}

@[simp] theorem setPc_pc_self (s : Sys τ) (t : τ) (p : Pc) : (s.setPc t p).pc t = p := Function.update_self ..

@[simp] theorem setPc_pc_of_ne (p : Pc) (h : u ≠ t) : (s.setPc t p).pc u = s.pc u := Function.update_of_ne h ..

@[simp] theorem setPc_inode (s : Sys τ) (t : τ) (p : Pc) : (s.setPc t p).inode = s.inode := rfl

@[simp] theorem setPc_ptrs (s : Sys τ) (t : τ) (p : Pc) : (s.setPc t p).ptrs = s.ptrs := rfl

@[simp] theorem setPc_disk (s : Sys τ) (t : τ) (p : Pc) : (s.setPc t p).disk = s.disk := rfl

/-- Where thread `t` was writing nothing back, no entry is written back
that was not before it moved. -/
theorem not_writing_of_setPc (hw : ¬(s.setPc t p).Writing j) (ht : ¬(s.pc t).Writes j) : ¬s.Writing j := by
  rintro ⟨u, hu⟩
  by_cases hut : u = t
  · exact ht (hut ▸ hu)
  · exact hw ⟨u, by rwa [setPc_pc_of_ne p hut]⟩

end Frame

/-! ## One step -/

section Steps

variable {s : Sys τ} {t : τ} {i : Fin NINODE}

theorem Inv.ref_pos (h : Inv s) {u : τ} {j : Fin NINODE} (hp : (u, j) ∈ s.ptrs) : 0 < (s.inode j).ref := by
  rw [h.ref_eq, Sys.refs]
  exact count_snd_pos hp

/-- A free entry's lock is not held: no one holds a pointer to it. -/
theorem Inv.lock_of_free (h : Inv s) (hfree : (s.inode i).ref = 0) : (s.inode i).lock = none := by
  cases hl : (s.inode i).lock with
  | none => rfl
  | some u =>
    have hpos := h.ref_pos (h.lock_held i u hl)
    omega

/-- `ialloc` takes an inode free on disk, which no entry in use holds
valid. -/
theorem Inv.ialloc (h : Inv s) {k : Nat × Nat} (hk : (s.disk k).type = 0) (d : Dinode) :
    Inv { s with disk := Function.update s.disk k d } where
  unique := h.unique
  ref_eq := h.ref_eq
  lock_held := h.lock_held
  freeing := h.freeing
  cached j hj hv hw := by
    obtain ⟨hdin, htype⟩ := h.cached j hj hv hw
    have hne : (s.inode j).key ≠ k := fun he => htype (by rw [hdin, he, hk])
    refine ⟨?_, htype⟩
    change (s.inode j).din = Function.update s.disk k d (s.inode j).key
    rw [Function.update_of_ne hne]
    exact hdin

/-- `ip->ref++` with a new pointer: `idup`, and `iget` of an entry in use. -/
theorem Inv.take (h : Inv s) (hpos : 0 < (s.inode i).ref) (t : τ) : Inv (s.take t i) where
  unique := h.unique.setEntry rfl fun _ => hpos
  ref_eq j := by
    change ((s.setEntry i _).inode j).ref = (((t, i) :: s.ptrs).map Prod.snd).count j
    rw [count_snd_cons, ← Sys.refs, ← h.ref_eq j]
    by_cases hji : j = i
    · rw [hji, setEntry_inode_self, if_pos rfl]
    · rw [setEntry_inode_of_ne _ hji, if_neg (Ne.symm hji), Nat.add_zero]
  lock_held j u hl := by
    refine List.mem_cons_of_mem _ (h.lock_held j u ?_)
    by_cases hji : j = i
    · subst hji
      rwa [Sys.take, setEntry_inode_self] at hl
    · rwa [Sys.take, setEntry_inode_of_ne _ hji] at hl
  freeing u j f hpc := by
    obtain ⟨hp, hlock, hvalid⟩ := h.freeing u j f hpc
    refine ⟨List.mem_cons_of_mem _ hp, ?_⟩
    by_cases hji : j = i
    · subst hji
      rw [Sys.take, setEntry_inode_self]
      exact ⟨hlock, hvalid⟩
    · rw [Sys.take, setEntry_inode_of_ne _ hji]
      exact ⟨hlock, hvalid⟩
  cached j hj hv hw := by
    by_cases hji : j = i
    · subst hji
      rw [Sys.take, setEntry_inode_self] at hv ⊢
      exact h.cached j hpos hv hw
    · rw [Sys.take, setEntry_inode_of_ne _ hji] at hj hv ⊢
      exact h.cached j hj hv hw

/-- `iget` recycling a free entry for an inode that no entry in use holds:
the entry comes into use for it, with `valid` clear. -/
theorem Inv.recycle (h : Inv s) (hfree : (s.inode i).ref = 0) {dev inum : Nat}
    (hnone : ∀ j, 0 < (s.inode j).ref → (s.inode j).key ≠ (dev, inum)) (t : τ) :
    Inv { s.setEntry i { s.inode i with dev, inum, ref := 1, valid := false } with ptrs := (t, i) :: s.ptrs } where
  unique j k hj hk hjk := by
    -- the recycled entry is the only one in use for its inode
    by_cases hji : j = i <;> by_cases hki : k = i
    · rw [hji, hki]
    · subst hji
      rw [setEntry_inode_self, setEntry_inode_of_ne _ hki] at hjk
      rw [setEntry_inode_of_ne _ hki] at hk
      exact absurd hjk.symm (hnone k hk)
    · subst hki
      rw [setEntry_inode_self, setEntry_inode_of_ne _ hji] at hjk
      rw [setEntry_inode_of_ne _ hji] at hj
      exact absurd hjk (hnone j hj)
    · rw [setEntry_inode_of_ne _ hji, setEntry_inode_of_ne _ hki] at hjk
      rw [setEntry_inode_of_ne _ hji] at hj
      rw [setEntry_inode_of_ne _ hki] at hk
      exact h.unique j k hj hk hjk
  ref_eq j := by
    change ((s.setEntry i _).inode j).ref = (((t, i) :: s.ptrs).map Prod.snd).count j
    rw [count_snd_cons, ← Sys.refs, ← h.ref_eq j]
    by_cases hji : j = i
    · subst hji
      rw [setEntry_inode_self, if_pos rfl, hfree]
    · rw [setEntry_inode_of_ne _ hji, if_neg (Ne.symm hji), Nat.add_zero]
  lock_held j u hl := by
    by_cases hji : j = i
    · subst hji
      have hnone := h.lock_of_free hfree
      rw [setEntry_inode_self] at hl
      exact absurd (hnone.symm.trans hl) (by simp)
    · rw [setEntry_inode_of_ne _ hji] at hl
      exact List.mem_cons_of_mem _ (h.lock_held j u hl)
  freeing u j f hpc := by
    obtain ⟨hp, hlock, hvalid⟩ := h.freeing u j f hpc
    -- no one holds a pointer to a free entry
    have hji : j ≠ i := fun hji => by
      have hpos := h.ref_pos hp
      rw [hji] at hpos
      omega
    rw [setEntry_inode_of_ne _ hji]
    exact ⟨List.mem_cons_of_mem _ hp, hlock, hvalid⟩
  cached j hj hv hw := by
    by_cases hji : j = i
    · subst hji
      rw [setEntry_inode_self] at hv
      exact absurd hv Bool.false_ne_true
    · rw [setEntry_inode_of_ne _ hji] at hj hv ⊢
      exact h.cached j hj hv hw

/-- `ilock`: a thread between calls, holding a pointer, takes the free lock,
and an invalid entry is loaded from disk; `d` and `v` are what `din` and
`valid` then are. -/
theorem Inv.lock (h : Inv s) (hp : (t, i) ∈ s.ptrs) (hidle : s.pc t = .idle) (hl : (s.inode i).lock = none)
    {d : Dinode} {v : Bool} (hd : v = true → ¬s.Writing i → d = s.disk (s.inode i).key ∧ d.type ≠ 0) :
    Inv (s.setEntry i { s.inode i with lock := some t, din := d, valid := v }) where
  unique := h.unique.setEntry rfl id
  ref_eq := refEq_setEntry h.ref_eq rfl
  lock_held j u hl' := by
    by_cases hji : j = i
    · subst hji
      rw [setEntry_inode_self] at hl'
      rw [← Option.some.inj hl']
      exact hp
    · rw [setEntry_inode_of_ne _ hji] at hl'
      exact h.lock_held j u hl'
  freeing u j f hpc := by
    obtain ⟨hp', hlock, hvalid⟩ := h.freeing u j f hpc
    by_cases hji : j = i
    · subst hji
      -- the lock was free: the `iput` freeing the entry is past `release_sleep`
      have hf : f = .drop := by
        by_contra hf
        exact absurd (hl.symm.trans (hlock.mpr hf)) (by simp)
      have hut : u ≠ t := ne_of_idle hidle hpc
      rw [setEntry_inode_self]
      exact ⟨hp', ⟨fun htu => absurd (Option.some.inj htu).symm hut, fun hf' => absurd hf hf'⟩,
        fun hr => absurd (hf.symm.trans hr) (by decide)⟩
    · rw [setEntry_inode_of_ne _ hji]
      exact ⟨hp', hlock, hvalid⟩
  cached j hj hv hw := by
    by_cases hji : j = i
    · subst hji
      rw [setEntry_inode_self] at hv ⊢
      exact hd hv hw
    · rw [setEntry_inode_of_ne _ hji] at hj hv ⊢
      exact h.cached j hj hv hw

/-- `iunlock` by the thread holding the lock. -/
theorem Inv.unlock (h : Inv s) (hidle : s.pc t = .idle) (hl : (s.inode i).lock = some t) :
    Inv (s.setEntry i { s.inode i with lock := none }) where
  unique := h.unique.setEntry rfl id
  ref_eq := refEq_setEntry h.ref_eq rfl
  lock_held j u hl' := by
    by_cases hji : j = i
    · subst hji
      rw [setEntry_inode_self] at hl'
      exact absurd hl' (by simp)
    · rw [setEntry_inode_of_ne _ hji] at hl'
      exact h.lock_held j u hl'
  freeing u j f hpc := by
    obtain ⟨hp', hlock, hvalid⟩ := h.freeing u j f hpc
    by_cases hji : j = i
    · subst hji
      -- the lock was `t`'s, between calls: the `iput` freeing the entry is past `release_sleep`
      have hut : u ≠ t := ne_of_idle hidle hpc
      have hf : f = .drop := by
        by_contra hf
        exact hut (Option.some.inj (hl.symm.trans (hlock.mpr hf))).symm
      rw [setEntry_inode_self]
      exact ⟨hp', ⟨fun hn => absurd hn (by simp), fun hf' => absurd hf hf'⟩,
        fun hr => absurd (hf.symm.trans hr) (by decide)⟩
    · rw [setEntry_inode_of_ne _ hji]
      exact ⟨hp', hlock, hvalid⟩
  cached := cached_setEntry h.cached

variable [DecidableEq τ]

/-- **`iput`'s `acquire_sleep` does not block.** With `ref == 1` the
caller's pointer is the only one, so no other thread holds `ip->lock`. -/
theorem Inv.lock_of_last (h : Inv s) (hp : (t, i) ∈ s.ptrs) (hone : (s.inode i).ref = 1)
    (hl : (s.inode i).lock ≠ some t) : (s.inode i).lock = none := by
  cases hlk : (s.inode i).lock with
  | none => rfl
  | some u =>
    have hne : u ≠ t := fun hu => hl (hu ▸ hlk)
    have h2 := two_le_count_snd hp (h.lock_held i u hlk) hne
    have href := h.ref_eq i
    rw [Sys.refs] at href
    omega

/-- `ip->ref--` for a pointer of a thread between calls that does not hold
the entry locked: an `iput` that does not free, and the end of one that
does. -/
theorem Inv.put (h : Inv s) (hp : (t, i) ∈ s.ptrs) (hidle : s.pc t = .idle) (hl : (s.inode i).lock ≠ some t) :
    Inv (s.put t i) where
  unique := h.unique.setEntry rfl fun hpos => Nat.lt_of_lt_of_le hpos (Nat.sub_le _ _)
  ref_eq j := by
    have hsplit := count_snd_erase hp j
    have hold := h.ref_eq j
    rw [Sys.refs] at hold
    change ((s.setEntry i _).inode j).ref = ((s.ptrs.erase (t, i)).map Prod.snd).count j
    by_cases hji : j = i
    · subst hji
      rw [if_pos rfl] at hsplit
      rw [setEntry_inode_self]
      change (s.inode j).ref - 1 = _
      omega
    · rw [if_neg (Ne.symm hji)] at hsplit
      rw [setEntry_inode_of_ne _ hji]
      omega
  lock_held j u hl' := by
    have hlock : (s.inode j).lock = some u := by
      by_cases hji : j = i
      · subst hji
        rwa [Sys.put, setEntry_inode_self] at hl'
      · rwa [Sys.put, setEntry_inode_of_ne _ hji] at hl'
    -- the pointer given up is not the lock holder's
    refine (List.mem_erase_of_ne fun heq => ?_).mpr (h.lock_held j u hlock)
    obtain ⟨rfl, rfl⟩ := Prod.mk.inj heq
    exact hl hlock
  freeing u j f hpc := by
    obtain ⟨hp', hlock, hvalid⟩ := h.freeing u j f hpc
    have hut : u ≠ t := ne_of_idle hidle hpc
    refine ⟨(List.mem_erase_of_ne fun heq => hut (Prod.mk.inj heq).1).mpr hp', ?_⟩
    by_cases hji : j = i
    · subst hji
      rw [Sys.put, setEntry_inode_self]
      exact ⟨hlock, hvalid⟩
    · rw [Sys.put, setEntry_inode_of_ne _ hji]
      exact ⟨hlock, hvalid⟩
  cached j hj hv hw := by
    by_cases hji : j = i
    · subst hji
      rw [Sys.put, setEntry_inode_self] at hj hv ⊢
      exact h.cached j (Nat.lt_of_lt_of_le hj (Nat.sub_le _ _)) hv hw
    · rw [Sys.put, setEntry_inode_of_ne _ hji] at hj hv ⊢
      exact h.cached j hj hv hw

/-- `iput` of the last pointer to a valid entry with no links takes the
lock, free by `Inv.lock_of_last`, and starts freeing. -/
theorem Inv.iputFree (h : Inv s) (hp : (t, i) ∈ s.ptrs) (hidle : s.pc t = .idle) (hl : (s.inode i).lock = none) :
    Inv ((s.setEntry i { s.inode i with lock := some t }).setPc t (.iput i .trunc)) where
  unique := h.unique.setEntry rfl id
  ref_eq := refEq_setEntry h.ref_eq rfl
  lock_held j u hl' := by
    by_cases hji : j = i
    · subst hji
      rw [setPc_inode, setEntry_inode_self] at hl'
      rw [← Option.some.inj hl']
      exact hp
    · rw [setPc_inode, setEntry_inode_of_ne _ hji] at hl'
      exact h.lock_held j u hl'
  freeing u j f hpc := by
    by_cases hut : u = t
    · subst hut
      rw [setPc_pc_self] at hpc
      cases hpc
      rw [setPc_inode, setEntry_inode_self]
      exact ⟨hp, ⟨fun _ => by decide, fun _ => rfl⟩, fun hr => absurd hr (by decide)⟩
    · rw [setPc_pc_of_ne _ hut] at hpc
      obtain ⟨hp', hlock, hvalid⟩ := h.freeing u j f hpc
      rw [setPc_inode]
      by_cases hji : j = i
      · subst hji
        -- the lock was free: another `iput` freeing the entry is past `release_sleep`
        have hf : f = .drop := by
          by_contra hf
          exact absurd (hl.symm.trans (hlock.mpr hf)) (by simp)
        rw [setEntry_inode_self]
        exact ⟨hp', ⟨fun htu => absurd (Option.some.inj htu) (Ne.symm hut), fun hf' => absurd hf hf'⟩,
          fun hr => absurd (hf.symm.trans hr) (by decide)⟩
      · rw [setEntry_inode_of_ne _ hji]
        exact ⟨hp', hlock, hvalid⟩
  cached j hj hv hw :=
    cached_setEntry h.cached j hj hv (not_writing_of_setPc hw (by rw [hidle]; exact Pc.not_writes_idle j))

/-- `itrunc(ip); ip->type = 0;` by the `iput` freeing entry `i`. -/
theorem Inv.trunc (h : Inv s) (hat : s.pc t = .iput i .trunc) :
    Inv ((s.setEntry i { s.inode i with din := { (s.inode i).din with type := 0 } }).setPc t (.iput i .update)) where
  unique := h.unique.setEntry rfl id
  ref_eq := refEq_setEntry h.ref_eq rfl
  lock_held := lockHeld_setEntry h.lock_held rfl
  freeing u j f hpc := by
    by_cases hut : u = t
    · subst hut
      rw [setPc_pc_self] at hpc
      cases hpc
      obtain ⟨hp, hlock, -⟩ := h.freeing _ _ _ hat
      rw [setPc_inode, setEntry_inode_self]
      exact ⟨hp, ⟨fun _ => by decide, fun _ => hlock.mpr (by decide)⟩, fun hr => absurd hr (by decide)⟩
    · rw [setPc_pc_of_ne _ hut] at hpc
      obtain ⟨hp', hlock, hvalid⟩ := h.freeing u j f hpc
      rw [setPc_inode]
      by_cases hji : j = i
      · subst hji
        rw [setEntry_inode_self]
        exact ⟨hp', hlock, hvalid⟩
      · rw [setEntry_inode_of_ne _ hji]
        exact ⟨hp', hlock, hvalid⟩
  cached j hj hv hw := by
    by_cases hji : j = i
    · -- the entry is being written back now
      subst hji
      exact absurd ⟨t, .inl (setPc_pc_self _ _ _)⟩ hw
    · rw [setPc_inode, setEntry_inode_of_ne _ hji] at hj hv ⊢
      exact h.cached j hj hv (not_writing_of_setPc hw (not_writes_of_pc hat hji))

/-- `iupdate(ip)` by the `iput` freeing entry `i`: the free inode is
written back. -/
theorem Inv.update (h : Inv s) (hat : s.pc t = .iput i .update) :
    Inv (({ s with disk := Function.update s.disk (s.inode i).key (s.inode i).din } : Sys τ).setPc t
      (.iput i .invalidate)) where
  unique := h.unique
  ref_eq := h.ref_eq
  lock_held := h.lock_held
  freeing u j f hpc := by
    by_cases hut : u = t
    · subst hut
      rw [setPc_pc_self] at hpc
      cases hpc
      obtain ⟨hp, hlock, -⟩ := h.freeing _ _ _ hat
      exact ⟨hp, ⟨fun _ => by decide, fun _ => hlock.mpr (by decide)⟩, fun hr => absurd hr (by decide)⟩
    · rw [setPc_pc_of_ne _ hut] at hpc
      exact h.freeing u j f hpc
  cached j hj hv hw := by
    by_cases hji : j = i
    · subst hji
      exact absurd ⟨t, .inr (setPc_pc_self _ _ _)⟩ hw
    · -- no other entry in use holds the inode written back
      have hpos := h.ref_pos (h.freeing _ _ _ hat).1
      have hkey : (s.inode j).key ≠ (s.inode i).key := fun hk => hji (h.unique j i hj hpos hk)
      obtain ⟨hdin, htype⟩ := h.cached j hj hv (not_writing_of_setPc hw (not_writes_of_pc hat hji))
      refine ⟨?_, htype⟩
      change (s.inode j).din = Function.update s.disk (s.inode i).key (s.inode i).din (s.inode j).key
      rw [Function.update_of_ne hkey]
      exact hdin

/-- `ip->valid = 0` by the `iput` freeing entry `i`. -/
theorem Inv.invalidate (h : Inv s) (hat : s.pc t = .iput i .invalidate) :
    Inv ((s.setEntry i { s.inode i with valid := false }).setPc t (.iput i .release)) where
  unique := h.unique.setEntry rfl id
  ref_eq := refEq_setEntry h.ref_eq rfl
  lock_held := lockHeld_setEntry h.lock_held rfl
  freeing u j f hpc := by
    by_cases hut : u = t
    · subst hut
      rw [setPc_pc_self] at hpc
      cases hpc
      obtain ⟨hp, hlock, -⟩ := h.freeing _ _ _ hat
      rw [setPc_inode, setEntry_inode_self]
      exact ⟨hp, ⟨fun _ => by decide, fun _ => hlock.mpr (by decide)⟩, fun _ => rfl⟩
    · rw [setPc_pc_of_ne _ hut] at hpc
      obtain ⟨hp', hlock, hvalid⟩ := h.freeing u j f hpc
      rw [setPc_inode]
      by_cases hji : j = i
      · subst hji
        rw [setEntry_inode_self]
        exact ⟨hp', hlock, fun _ => rfl⟩
      · rw [setEntry_inode_of_ne _ hji]
        exact ⟨hp', hlock, hvalid⟩
  cached j hj hv hw := by
    by_cases hji : j = i
    · subst hji
      rw [setPc_inode, setEntry_inode_self] at hv
      exact absurd hv Bool.false_ne_true
    · rw [setPc_inode, setEntry_inode_of_ne _ hji] at hj hv ⊢
      exact h.cached j hj hv (not_writing_of_setPc hw (not_writes_of_pc hat hji))

/-- `release_sleep(&ip->lock)` by the `iput` freeing entry `i`. -/
theorem Inv.release (h : Inv s) (hat : s.pc t = .iput i .release) :
    Inv ((s.setEntry i { s.inode i with lock := none }).setPc t (.iput i .drop)) where
  unique := h.unique.setEntry rfl id
  ref_eq := refEq_setEntry h.ref_eq rfl
  lock_held j u hl := by
    by_cases hji : j = i
    · subst hji
      rw [setPc_inode, setEntry_inode_self] at hl
      exact absurd hl (by simp)
    · rw [setPc_inode, setEntry_inode_of_ne _ hji] at hl
      exact h.lock_held j u hl
  freeing u j f hpc := by
    obtain ⟨hp, hlock, -⟩ := h.freeing _ _ _ hat
    have hlt : (s.inode i).lock = some t := hlock.mpr (by decide)
    by_cases hut : u = t
    · subst hut
      rw [setPc_pc_self] at hpc
      cases hpc
      rw [setPc_inode, setEntry_inode_self]
      exact ⟨hp, ⟨fun hn => absurd hn (by simp), fun hf => absurd rfl hf⟩, fun hr => absurd hr (by decide)⟩
    · rw [setPc_pc_of_ne _ hut] at hpc
      obtain ⟨hp', hlock', hvalid'⟩ := h.freeing u j f hpc
      rw [setPc_inode]
      by_cases hji : j = i
      · subst hji
        -- the lock was `t`'s: another `iput` freeing the entry is past `release_sleep`
        have hf : f = .drop := by
          by_contra hf
          exact hut (Option.some.inj (hlt.symm.trans (hlock'.mpr hf))).symm
        rw [setEntry_inode_self]
        exact ⟨hp', ⟨fun hn => absurd hn (by simp), fun hf' => absurd hf hf'⟩,
          fun hr => absurd (hf.symm.trans hr) (by decide)⟩
      · rw [setEntry_inode_of_ne _ hji]
        exact ⟨hp', hlock', hvalid'⟩
  cached j hj hv hw := by
    by_cases hji : j = i
    · subst hji
      have hfalse : (s.inode j).valid = false := (h.freeing _ _ _ hat).2.2 rfl
      rw [setPc_inode, setEntry_inode_self] at hv
      exact absurd (hfalse.symm.trans hv) Bool.false_ne_true
    · rw [setPc_inode, setEntry_inode_of_ne _ hji] at hj hv ⊢
      exact h.cached j hj hv (not_writing_of_setPc hw (not_writes_of_pc hat hji))

/-- The `iput` at `acquire(&itable.lock); ip->ref--;` leaves the window. -/
theorem Inv.leave (h : Inv s) (hat : s.pc t = .iput i .drop) : Inv (s.setPc t .idle) where
  unique := h.unique
  ref_eq := h.ref_eq
  lock_held := h.lock_held
  freeing u j f hpc := by
    by_cases hut : u = t
    · subst hut
      rw [setPc_pc_self] at hpc
      cases hpc
    · rw [setPc_pc_of_ne _ hut] at hpc
      exact h.freeing u j f hpc
  cached j hj hv hw := h.cached j hj hv (not_writing_of_setPc hw (by rw [hat]; rintro (hw | hw) <;> cases hw))

/-- **The step lemma.** A fitting call from a state that keeps the
invariant leads to a state that keeps it. -/
theorem Inv.step (h : Inv s) {c : Call τ} (hc : c.Fits s) {s' : Sys τ} (hs : step s c = .ok (some s')) :
    Inv s' := by
  cases c with
  | ialloc t dev inum type =>
    simp only [Itable.step] at hs
    split_ifs at hs with hfree <;> cases hs
    exact h.ialloc hfree.2 _
  | iget t dev inum =>
    simp only [Itable.step] at hs
    split_ifs at hs
    · cases hs
    split at hs
    · cases hs
    · rename_i inode' i hget
      cases hs
      -- the entry in use for the inode, or a free one recycled
      rcases iget_some hget with ⟨hpos, -, rfl⟩ | ⟨hnone, hfree, rfl⟩
      · exact h.take hpos t
      · exact h.recycle hfree hnone t
  | idup t i =>
    simp only [Itable.step] at hs
    split_ifs at hs <;> cases hs
    exact h.take (h.ref_pos hc) t
  | ilock t i =>
    simp only [Itable.step] at hs
    split_ifs at hs with hidle hpos hlock hvalid htype <;> cases hs
    · exact h.lock hc (not_not.mp hidle) (Option.not_isSome_iff_eq_none.mp hlock)
        fun hv hw => h.cached i (h.ref_pos hc) hv hw
    · exact h.lock hc (not_not.mp hidle) (Option.not_isSome_iff_eq_none.mp hlock) fun _ _ => ⟨rfl, htype⟩
  | iunlock t i =>
    simp only [Itable.step] at hs
    split_ifs at hs with hidle hbad <;> cases hs
    exact h.unlock (not_not.mp hidle) (not_not.mp (not_or.mp hbad).1)
  | iput t i =>
    obtain ⟨hp, hl⟩ := hc
    simp only [Itable.step] at hs
    split_ifs at hs with hidle hfree hlock <;> cases hs
    · exact h.iputFree hp (not_not.mp hidle) (Option.not_isSome_iff_eq_none.mp hlock)
    · exact h.put hp (not_not.mp hidle) hl
  | resume t =>
    simp only [Itable.step] at hs
    split at hs
    · cases hs
    · rename_i i f hat
      cases hs
      cases f with
      | trunc => exact h.trunc hat
      | update => exact h.update hat
      | invalidate => exact h.invalidate hat
      | release => exact h.release hat
      | drop =>
        obtain ⟨hp, hlock, -⟩ := h.freeing _ _ _ hat
        exact (h.leave hat).put hp (setPc_pc_self _ _ _) fun hl => hlock.mp hl rfl

/-- **`iput` never sleeps on the lock.** A fitting `iput` by a thread
between calls goes through: where it frees, `acquire_sleep` finds the lock
free, as the source's comment says. -/
theorem Inv.iput_ok (h : Inv s) (hidle : s.pc t = .idle) (hc : (Call.iput t i).Fits s) :
    ∃ s', Itable.step s (.iput t i) = .ok (some s') := by
  obtain ⟨hp, hl⟩ := hc
  have hnot : ¬s.pc t ≠ .idle := not_not.mpr hidle
  by_cases hfree : (s.inode i).ref = 1 ∧ (s.inode i).valid = true ∧ (s.inode i).din.nlink = 0
  · -- the last pointer: the lock is free
    have hnone := h.lock_of_last hp hfree.1 hl
    have hfree' : ¬(s.inode i).lock.isSome = true := by
      rw [hnone, Option.isSome_none]
      exact Bool.false_ne_true
    exact ⟨_, by rw [Itable.step, if_neg hnot, if_pos hfree, if_neg hfree']⟩
  · exact ⟨_, by rw [Itable.step, if_neg hnot, if_neg hfree]⟩

end Steps

/-! ## Every interleaving -/

section Reach

/-- Boot keeps the invariant. -/
theorem inv_boot (disk : Nat × Nat → Dinode) : Inv (boot disk : Sys τ) where
  unique _ _ hj := absurd hj (Nat.lt_irrefl 0)
  ref_eq _ := rfl
  lock_held _ _ hl := nomatch hl
  freeing _ _ _ hpc := nomatch hpc
  cached _ hj := absurd hj (Nat.lt_irrefl 0)

variable [DecidableEq τ]

/-- **The run lemma.** Every state a run from boot reaches keeps the
invariant. -/
theorem Reach.inv {disk : Nat × Nat → Dinode} {s : Sys τ} (hs : Reach (boot disk) s) : Inv s := by
  induction hs with
  | init => exact inv_boot disk
  | step c _ hfits hstep ih => exact ih.step hfits hstep

/-- A run of one call: from boot, thread `0`'s `iget` of inode `(1, 1)`
recycles the first entry the scan passes. -/
theorem reach_iget_boot : ∃ j : Fin NINODE, Reach (boot fun _ => ⟨0, 0⟩)
    { (boot fun _ => ⟨0, 0⟩ : Sys (Fin 2)).setEntry j ⟨1, 1, 1, false, ⟨0, 0⟩, none⟩ with ptrs := [(0, j)] } := by
  -- every entry is free: the loop recycles the empty entry it remembered
  have hloop : ∀ (k : Fin NINODE) (l : List (Fin NINODE)),
      igetLoop (boot fun _ => ⟨0, 0⟩ : Sys (Fin 2)).inode 1 1 l (some k) =
        some (Function.update (boot fun _ => ⟨0, 0⟩ : Sys (Fin 2)).inode k ⟨1, 1, 1, false, ⟨0, 0⟩, none⟩, k) := by
    intro k l
    induction l with
    | nil => rfl
    | cons j rest ih =>
      rw [igetLoop, if_neg fun hj => absurd hj.1 (Nat.lt_irrefl 0), if_neg fun he => nomatch he.1]
      exact ih
  obtain ⟨j, rest, hrange⟩ : ∃ j rest, List.finRange NINODE = j :: rest :=
    List.exists_cons_of_ne_nil (List.ne_nil_of_length_pos (by rw [List.length_finRange]; decide))
  have hfirst : iget (boot fun _ => ⟨0, 0⟩ : Sys (Fin 2)).inode 1 1 =
      some (Function.update (boot fun _ => ⟨0, 0⟩ : Sys (Fin 2)).inode j ⟨1, 1, 1, false, ⟨0, 0⟩, none⟩, j) := by
    rw [iget, hrange, igetLoop, if_neg fun hj => absurd hj.1 (Nat.lt_irrefl 0), if_pos ⟨rfl, rfl⟩]
    exact hloop j rest
  refine ⟨j, Reach.step (.iget 0 1 1) .init trivial ?_⟩
  rw [step, hfirst]
  rfl

/-- **The inode table's invariant.** Over every interleaving from boot of
`iget` (as `ialloc`, `dirlookup` and `namex` call it), `idup`, `iput` with
its freeing window, `ilock` and `iunlock`, by threads of any type: at most
one entry in use holds an inode; each entry's `ref` is the number of
pointers to it the threads hold; `iget` hands out an entry in use only for
its own inode, and then the one entry in use for it, and otherwise a free
entry it recycles for the inode with `valid` clear, so that `ilock` reloads
it from disk; and an entry in use with `valid` set holds its own inode's
fields from disk, except while the `iput` that frees it writes them back. -/
theorem itable_invariant {disk : Nat × Nat → Dinode} {s : Sys τ} (hs : Reach (boot disk) s) :
    Distinct s.inode ∧ (∀ i, (s.inode i).ref = s.refs i) ∧
      (∀ dev inum inode' i, iget s.inode dev inum = some (inode', i) →
        (0 < (s.inode i).ref → (s.inode i).key = (dev, inum)) ∧
        (∀ j, 0 < (s.inode j).ref → (s.inode j).key = (dev, inum) → j = i) ∧
        (inode' i).key = (dev, inum) ∧ ((s.inode i).ref = 0 → (inode' i).valid = false)) ∧
      ∀ i, 0 < (s.inode i).ref → (s.inode i).valid = true → ¬s.Writing i →
        (s.inode i).din = s.disk (s.inode i).key ∧ (s.inode i).din.type ≠ 0 := by
  have h := hs.inv
  refine ⟨h.unique, h.ref_eq, fun dev inum inode' i hget => ?_, h.cached⟩
  rcases iget_some hget with ⟨hpos, hkey, rfl⟩ | ⟨hnone, hfree, rfl⟩
  · -- the entry in use for the inode, the only one
    refine ⟨fun _ => hkey, fun j hj hjkey => h.unique j i hj hpos (hjkey.trans hkey.symm), ?_,
      fun h0 => absurd h0 (Nat.pos_iff_ne_zero.mp hpos)⟩
    rw [Function.update_self]
    exact hkey
  · -- a free entry, where no entry in use holds the inode
    refine ⟨fun hpos => absurd hfree (Nat.pos_iff_ne_zero.mp hpos), fun j hj hjkey => absurd hjkey (hnone j hj),
      ?_, fun _ => ?_⟩
    · rw [Function.update_self]
      rfl
    · rw [Function.update_self]

/-- Thread `0` holds the one entry in use, whose `ref` counts its pointer. -/
theorem itable_invariant_after_iget :
    ∃ s : Sys (Fin 2), Reach (boot fun _ => ⟨0, 0⟩) s ∧ Distinct s.inode ∧ ∀ i, (s.inode i).ref = s.refs i := by
  obtain ⟨_, hreach⟩ := reach_iget_boot
  exact ⟨_, hreach, (itable_invariant hreach).1, (itable_invariant hreach).2.1⟩

/-- **`iput` never sleeps under `itable.lock`.** In every state a run from
boot reaches, an `iput` by a thread between calls, of a pointer it holds to
an entry it does not hold locked, goes through: where it frees the inode,
the `acquire_sleep` it makes while holding `itable.lock` finds `ip->lock`
free. -/
theorem iput_never_sleeps {disk : Nat × Nat → Dinode} {s : Sys τ} (hs : Reach (boot disk) s) {t : τ}
    {i : Fin NINODE} (hidle : s.pc t = .idle) (hc : (Call.iput t i).Fits s) :
    ∃ s', step s (.iput t i) = .ok (some s') :=
  hs.inv.iput_ok hidle hc

/-- After thread `0` gets inode `(1, 1)` from boot, its `iput` of the
entry goes through. -/
theorem iput_never_sleeps_after_iget :
    ∃ (s : Sys (Fin 2)) (i : Fin NINODE), Reach (boot fun _ => ⟨0, 0⟩) s ∧
      ∃ s', step s (.iput 0 i) = .ok (some s') := by
  obtain ⟨j, hreach⟩ := reach_iget_boot
  refine ⟨_, j, hreach, iput_never_sleeps hreach rfl ⟨List.mem_singleton_self _, ?_⟩⟩
  rw [setEntry_inode_self]
  decide

end Reach

end Itable

end Fs

end Mkros
