import Mathlib.Logic.Function.Basic
/-!
# Sleeping locks `sleeplock.c`

A sleeplock is `locked` and `pid`, guarded by the spinlock `lk->lk`.
`acquire_sleep` takes `lk->lk`, sleeps on `lk` while it is `locked`, then
sets `locked` and `pid` and lets `lk->lk` go; `release_sleep` takes
`lk->lk`, clears both, wakes every sleeper on `lk` and lets `lk->lk` go;
`holding_sleep` reads both under `lk->lk`. Each statement of the first two is
one step here, so that threads interleave between any two of them, and only
the spinlock keeps them apart. `sleep(lk, &lk->lk)` lets `lk->lk` go and is
`SLEEPING` on `lk` in one step, as `sleep` and `wakeup` make it through the
process lock (`Sched.no_lost_wakeup`); a sleeper made runnable takes `lk->lk`
again in `sleep` and tests `locked` anew. The callers release a sleeplock
they hold, as `brelse` and `iunlock` check with `holding_sleep`.

The invariant is stated over the thread `o` that has the sleeplock, one
thread at a time (`ThreadOk`), so that a step of the holder of `lk->lk`
(`Inv.set`) and a call by another thread (`Inv.call`) are each checked
against the others once. Over every interleaving
(`sleeplock_mutual_exclusion`) at most one thread has the sleeplock, from
its `lk->locked = 1` to the `lk->locked = 0` of its release; `locked` says
whether one has it and `pid` is its pid once set; a thread asleep on `lk`
while `lk->lk` is free finds the sleeplock taken, so that the release to
come wakes it; `holding_sleep` says whether its caller has the sleeplock
where pids are distinct; and the holder of `lk->lk` always runs on.
-/

namespace Mkros

namespace Sleeplock

/-- Where a thread is in the sleeplock's calls. -/
inductive Pc
  | idle
  /-- At `acquire(&lk->lk)` in `acquire_sleep`. -/
  | acq
  /-- At `while (lk->locked)`, with `lk->lk`. -/
  | test
  /-- `SLEEPING` on `lk`, having let `lk->lk` go. -/
  | asleep
  /-- Runnable after `wakeup(lk)`, to take `lk->lk` again in `sleep`. -/
  | woken
  /-- At `lk->locked = 1`. -/
  | setLocked
  /-- At `lk->pid = this_proc()->pid`. -/
  | setPid
  /-- At `release(&lk->lk)` in `acquire_sleep`. -/
  | acqRelease
  /-- `acquire_sleep` has returned. -/
  | holding
  /-- At `acquire(&lk->lk)` in `release_sleep`. -/
  | rel
  /-- At `lk->locked = 0`. -/
  | clearLocked
  /-- At `lk->pid = 0`. -/
  | clearPid
  /-- At `wakeup(lk)`. -/
  | wake
  /-- At `release(&lk->lk)` in `release_sleep`. -/
  | relRelease
  deriving DecidableEq, Repr

/-- The thread has the sleeplock: its `lk->locked = 1` is done and its
`lk->locked = 0` is not. -/
def Pc.taken : Pc → Bool
  | .setPid | .acqRelease | .holding | .rel | .clearLocked => true
  | _ => false

/-- The sleeplock, the holder of `lk->lk`, and where each thread is. -/
structure Sys (τ : Type) where
  spin : Option τ
  locked : Bool
  pid : Nat
  procs : τ → Pc

variable {τ : Type}

section Steps

variable [DecidableEq τ]

/-- Thread `p` moves to `x`. -/
def Sys.set (s : Sys τ) (p : τ) (x : Pc) : Sys τ := { s with procs := Function.update s.procs p x }

/-- `wakeup(lk)`: every thread asleep on `lk` is runnable. -/
def wakeAll (procs : τ → Pc) : τ → Pc := fun q => if procs q = .asleep then .woken else procs q

/-- One statement of thread `p`, whose pid is `pid p`; `none` where it
waits: for `lk->lk`, or asleep, or outside the calls. -/
def Sys.run (s : Sys τ) (pid : τ → Nat) (p : τ) : Option (Sys τ) :=
  match s.procs p with
  | .idle | .holding | .asleep => none
  -- `acquire(&lk->lk)`, in `acquire_sleep` or back in `sleep`
  | .acq | .woken => if s.spin = none then some { s.set p .test with spin := some p } else none
  -- `while (lk->locked) sleep(lk, &lk->lk);`
  | .test => if s.locked then some { s.set p .asleep with spin := none } else some (s.set p .setLocked)
  | .setLocked => some { s.set p .setPid with locked := true }
  | .setPid => some { s.set p .acqRelease with pid := pid p }
  | .acqRelease => some { s.set p .holding with spin := none }
  | .rel => if s.spin = none then some { s.set p .clearLocked with spin := some p } else none
  | .clearLocked => some { s.set p .clearPid with locked := false }
  | .clearPid => some { s.set p .wake with pid := 0 }
  | .wake => some ({ s with procs := wakeAll s.procs }.set p .relRelease)
  | .relRelease => some { s.set p .idle with spin := none }

/-- What runs next: a call begins, or a thread runs a statement. -/
inductive Call (τ : Type)
  | acquire (p : τ)
  | release (p : τ)
  | run (p : τ)

/-- One step; `none` where it cannot be taken. -/
def step (pid : τ → Nat) (s : Sys τ) : Call τ → Option (Sys τ)
  | .acquire p => if s.procs p = .idle then some (s.set p .acq) else none
  | .release p => if s.procs p = .holding then some (s.set p .rel) else none
  | .run p => s.run pid p

/-- `holding_sleep(lk)` by `p`: `none` while another thread holds `lk->lk`,
where it spins. -/
def holdingSleep (pid : τ → Nat) (s : Sys τ) (p : τ) : Option Bool :=
  if s.spin = none then some (s.locked && s.pid == pid p) else none

/-- `init_sleeplock`: free, `pid` `0`, and no thread in a call. -/
def Sys.init : Sys τ := ⟨none, false, 0, fun _ => .idle⟩

/-- The states the steps reach from `init_sleeplock`. -/
inductive Reach (pid : τ → Nat) : Sys τ → Prop
  | init : Reach pid .init
  | step {s s' : Sys τ} (c : Call τ) : Reach pid s → step pid s c = some s' → Reach pid s'

@[simp] theorem set_procs (s : Sys τ) (p : τ) (x : Pc) : (s.set p x).procs = Function.update s.procs p x := rfl

@[simp] theorem set_spin (s : Sys τ) (p : τ) (x : Pc) : (s.set p x).spin = s.spin := rfl

@[simp] theorem set_locked (s : Sys τ) (p : τ) (x : Pc) : (s.set p x).locked = s.locked := rfl

@[simp] theorem set_pid (s : Sys τ) (p : τ) (x : Pc) : (s.set p x).pid = s.pid := rfl

end Steps

/-! ## The invariant -/

/-- The holder of `lk->lk` has cleared `lk->locked` and not yet called `wakeup(lk)`. -/
def Releasing (s : Sys τ) : Prop := ∃ r, s.spin = some r ∧ (s.procs r = .clearPid ∨ s.procs r = .wake)

/-- What thread `q` at `c` needs of the state, where `o` has the sleeplock:
whether it holds `lk->lk`, whether it is `o`, that the sleeplock is free
where it has just tested `locked` clear or cleared it, that `pid` is its pid
once it has set it, and that a sleeper finds `locked` or a release on its way
to `wakeup(lk)`. -/
def ThreadOk (pid : τ → Nat) (s : Sys τ) (o : Option τ) (q : τ) : Pc → Prop
  | .idle | .acq | .woken => s.spin ≠ some q ∧ o ≠ some q
  | .asleep => s.spin ≠ some q ∧ o ≠ some q ∧ (s.locked = true ∨ Releasing s)
  | .test => s.spin = some q ∧ o ≠ some q
  | .setLocked | .clearPid | .wake | .relRelease => s.spin = some q ∧ o = none
  | .setPid => s.spin = some q ∧ o = some q
  | .acqRelease | .clearLocked => s.spin = some q ∧ o = some q ∧ s.pid = pid q
  | .holding | .rel => s.spin ≠ some q ∧ o = some q ∧ s.pid = pid q

/-- **The invariant**: `locked` says whether `o` is some thread, and every
thread fits the state. -/
structure Inv (pid : τ → Nat) (s : Sys τ) (o : Option τ) : Prop where
  locked_eq : s.locked = o.isSome
  thread : ∀ q, ThreadOk pid s o q (s.procs q)

section Inv

variable {pid : τ → Nat} {s : Sys τ} {o : Option τ}

theorem ThreadOk.owner_iff {q : τ} {c : Pc} (h : ThreadOk pid s o q c) : o = some q ↔ c.taken = true := by
  cases c <;> simp_all [ThreadOk, Pc.taken]

/-- A thread that does not hold `lk->lk` is outside it, asleep, or has the sleeplock. -/
theorem ThreadOk.quiet {q : τ} {c : Pc} (h : ThreadOk pid s o q c) (hq : s.spin ≠ some q) :
    c = .idle ∨ c = .acq ∨ c = .woken ∨ c = .asleep ∨ c = .holding ∨ c = .rel := by
  cases c <;> simp_all [ThreadOk]

theorem not_releasing_of_none {s : Sys τ} (hs : s.spin = none) : ¬ Releasing s := by
  rintro ⟨r, hr, -⟩
  rw [hs] at hr
  cases hr

/-- The holder of `lk->lk` is on its way to `wakeup(lk)` only at `lk->pid = 0` and `wakeup(lk)`. -/
theorem not_releasing {s : Sys τ} {p : τ} (hs : s.spin = some p)
    (hp : s.procs p ≠ .clearPid ∧ s.procs p ≠ .wake) : ¬ Releasing s := by
  rintro ⟨r, hr, hc⟩
  rw [hs] at hr
  cases Option.some.inj hr
  exact hc.elim hp.1 hp.2

/-- `ThreadOk` reads the state only through `spin`, `locked`, `pid`, and
`Releasing` for a sleeper. -/
theorem ThreadOk.congr {t : Sys τ} (hspin : t.spin = s.spin) (hlocked : t.locked = s.locked)
    (hpid : t.pid = s.pid) (q : τ) (c : Pc) (hrel : c = .asleep → (Releasing t ↔ Releasing s)) :
    ThreadOk pid t o q c ↔ ThreadOk pid s o q c := by
  cases c
  case asleep => simp [ThreadOk, hspin, hlocked, hrel rfl]
  all_goals simp [ThreadOk, hspin, hpid]

/-! ## What the invariant gives -/

theorem Inv.taken_unique (hI : Inv pid s o) {p q : τ} (hp : (s.procs p).taken = true)
    (hq : (s.procs q).taken = true) : p = q := by
  have h₁ := (hI.thread p).owner_iff.mpr hp
  have h₂ := (hI.thread q).owner_iff.mpr hq
  exact Option.some.inj (h₁.symm.trans h₂)

theorem Inv.locked_iff (hI : Inv pid s o) : s.locked = true ↔ ∃ q, (s.procs q).taken = true := by
  rw [hI.locked_eq]
  constructor
  · intro h
    obtain ⟨q, hq⟩ := Option.isSome_iff_exists.mp h
    exact ⟨q, (hI.thread q).owner_iff.mp hq⟩
  · rintro ⟨q, hq⟩
    rw [(hI.thread q).owner_iff.mpr hq]
    rfl

theorem Inv.pid_eq (hI : Inv pid s o) {q : τ} (hq : (s.procs q).taken = true) (hne : s.procs q ≠ .setPid) :
    s.pid = pid q := by
  have h := hI.thread q
  cases hc : s.procs q <;> rw [hc] at h hq hne <;> simp only [ThreadOk, Pc.taken, Bool.false_eq_true] at h hq
  case setPid => exact absurd rfl hne
  all_goals exact h.2.2

/-- While `lk->lk` is free no thread is at `lk->pid = this_proc()->pid`. -/
theorem Inv.ne_setPid (hI : Inv pid s o) (hs : s.spin = none) (q : τ) : s.procs q ≠ .setPid := by
  intro hc
  have h := hI.thread q
  rw [hc] at h
  simp [ThreadOk, hs] at h

theorem Inv.asleep_locked (hI : Inv pid s o) (hs : s.spin = none) {q : τ} (hq : s.procs q = .asleep) :
    s.locked = true := by
  have h := hI.thread q
  rw [hq] at h
  exact h.2.2.resolve_right (not_releasing_of_none hs)

/-- `holding_sleep` answers whether its caller has the sleeplock, where pids are distinct. -/
theorem Inv.holdingSleep_eq (hI : Inv pid s o) (hinj : Function.Injective pid) (hs : s.spin = none) (p : τ) :
    holdingSleep pid s p = some (s.procs p).taken := by
  rw [holdingSleep, if_pos hs, Option.some.injEq]
  cases ht : (s.procs p).taken
  · cases hl : s.locked
    · rfl
    -- another thread has it, whose pid is not `p`'s
    obtain ⟨q, hq⟩ := hI.locked_iff.mp hl
    have hqp : q ≠ p := by
      rintro rfl
      rw [hq] at ht
      cases ht
    simp [hI.pid_eq hq (hI.ne_setPid hs q), hinj.ne hqp]
  · simp [hI.locked_iff.mpr ⟨p, ht⟩, hI.pid_eq ht (hI.ne_setPid hs p)]

theorem inv_init : Inv pid (Sys.init : Sys τ) none :=
  ⟨rfl, fun q => by simp [ThreadOk, Sys.init]⟩

/-! ## The steps keep it -/

variable [DecidableEq τ]

/-- A step of the holder of `lk->lk`, or of the thread that takes it, from
`s` to `t`: if `p` fits `t`, `o'` differs from `o` only at `p`, `pid` stays
for another thread with the sleeplock, and a sleeper's reason to sleep
survives, then every other thread, none of which spins, fits `t`. -/
theorem Inv.set (hI : Inv pid s o) {p : τ} {x : Pc} {t : Sys τ} {o' : Option τ}
    (hprocs : t.procs = Function.update s.procs p x) (hlocked : t.locked = o'.isSome)
    (hp : ThreadOk pid t o' p x) (hold : s.spin = none ∨ s.spin = some p)
    (hnew : t.spin = none ∨ t.spin = some p) (hown : ∀ q, q ≠ p → (o' = some q ↔ o = some q))
    (hpid : ∀ q, q ≠ p → o = some q → t.pid = s.pid)
    (hasleep : s.locked = true ∨ Releasing s → t.locked = true ∨ Releasing t) : Inv pid t o' := by
  refine ⟨hlocked, fun q => ?_⟩
  by_cases hq : q = p
  · subst hq
    simpa [hprocs] using hp
  rw [hprocs, Function.update_of_ne hq]
  have h := hI.thread q
  have htq : t.spin ≠ some q := by
    rcases hnew with h | h <;> simp [h, Ne.symm hq]
  have ho := hown q hq
  have hsq : s.spin ≠ some q := by
    rcases hold with h | h <;> simp [h, Ne.symm hq]
  -- no other thread holds `lk->lk`
  rcases h.quiet hsq with hc | hc | hc | hc | hc | hc <;> rw [hc] at h ⊢ <;> simp only [ThreadOk] at h ⊢
  · exact ⟨htq, mt ho.mp h.2⟩
  · exact ⟨htq, mt ho.mp h.2⟩
  · exact ⟨htq, mt ho.mp h.2⟩
  · exact ⟨htq, mt ho.mp h.2.1, hasleep h.2.2⟩
  · exact ⟨htq, ho.mpr h.2.1, (hpid q hq h.2.1).trans h.2.2⟩
  · exact ⟨htq, ho.mpr h.2.1, (hpid q hq h.2.1).trans h.2.2⟩

/-- A call by a thread outside `lk->lk`, which changes nothing but where it is. -/
theorem Inv.call (hI : Inv pid s o) {p : τ} {x : Pc} (hx : ThreadOk pid s o p x) (hspin : s.spin ≠ some p) :
    Inv pid (s.set p x) o := by
  have hrel : Releasing (s.set p x) ↔ Releasing s := by
    refine exists_congr fun r => and_congr_right fun hr => ?_
    have hrp : r ≠ p := by rintro rfl; exact hspin hr
    simp [Function.update_of_ne hrp]
  refine ⟨hI.locked_eq, fun q => (ThreadOk.congr (s := s) (t := s.set p x) rfl rfl rfl q _ fun _ => hrel).mpr ?_⟩
  by_cases hq : q = p
  · subst hq
    simpa using hx
  · simpa [Function.update_of_ne hq] using hI.thread q

/-- `acquire(&lk->lk)`, where it is free. -/
theorem Inv.takeSpin (hI : Inv pid s o) {p : τ} {x : Pc} (hs : s.spin = none)
    (hx : ThreadOk pid { s.set p x with spin := some p } o p x) :
    Inv pid { s.set p x with spin := some p } o := by
  refine hI.set rfl hI.locked_eq hx (.inl hs) (.inr rfl) (fun _ _ => Iff.rfl) (fun _ _ _ => rfl) ?_
  rintro (h | h)
  · exact .inl h
  · exact absurd h (not_releasing_of_none hs)

/-- `release(&lk->lk)`; a sleeper's reason to sleep is `locked` again. -/
theorem Inv.dropSpin (hI : Inv pid s o) {p : τ} {x : Pc} (hs : s.spin = some p)
    (hx : ThreadOk pid { s.set p x with spin := none } o p x) (hasleep : Releasing s → s.locked = true) :
    Inv pid { s.set p x with spin := none } o := by
  refine hI.set rfl hI.locked_eq hx (.inr hs) (.inl rfl) (fun _ _ => Iff.rfl) (fun _ _ _ => rfl) ?_
  rintro (h | h)
  · exact .inl h
  · exact .inl (hasleep h)

/-- `wakeup(lk)`: every sleeper is runnable, and no thread is asleep on `lk`. -/
theorem Inv.wake (hI : Inv pid s o) {p : τ} (hp : s.procs p = .wake) :
    Inv pid ({ s with procs := wakeAll s.procs }.set p .relRelease) o := by
  have h := hI.thread p
  rw [hp] at h
  refine ⟨hI.locked_eq, fun q => ?_⟩
  by_cases hq : q = p
  · subst hq
    simpa [ThreadOk] using h
  have hq' := hI.thread q
  simp only [set_procs, Function.update_of_ne hq, wakeAll]
  by_cases hc : s.procs q = .asleep
  · rw [if_pos hc]
    rw [hc] at hq'
    simp only [ThreadOk] at hq' ⊢
    exact ⟨hq'.1, hq'.2.1⟩
  · rw [if_neg hc]
    exact (ThreadOk.congr (s := s) (t := { s with procs := wakeAll s.procs }.set p .relRelease) rfl rfl rfl q _
      fun h' => absurd h' hc).mpr hq'

/-- One statement of any thread keeps the invariant, for the sleeplock's new
holder. -/
theorem Inv.run (hI : Inv pid s o) {p : τ} {t : Sys τ} (h : s.run pid p = some t) : ∃ o', Inv pid t o' := by
  have hp := hI.thread p
  -- `idle`, `holding` and `asleep` do not run
  cases hc : s.procs p <;> simp only [Sys.run, hc, reduceCtorEq] at h <;> rw [hc] at hp <;>
    simp only [ThreadOk] at hp
  case acq | woken | rel =>
    -- `acquire(&lk->lk)`
    split at h
    · cases h
      exact ⟨o, hI.takeSpin (by assumption) (by simp [ThreadOk, hp])⟩
    · cases h
  case test =>
    split at h <;> cases h
    · -- `sleep(lk, &lk->lk)`
      rename_i hl
      exact ⟨o, hI.dropSpin hp.1 (by simp [ThreadOk, hp.2, hl]) fun _ => hl⟩
    · rename_i hl
      have ho : o = none := by simpa [hI.locked_eq] using hl
      refine ⟨o, hI.set rfl hI.locked_eq (by simp [ThreadOk, hp.1, ho]) (.inr hp.1) (.inr hp.1)
        (fun _ _ => Iff.rfl) (fun _ _ _ => rfl) ?_⟩
      rintro (h | h)
      · exact .inl h
      · exact absurd h (not_releasing hp.1 (by simp [hc]))
  case setLocked =>
    cases h
    refine ⟨some p, hI.set rfl rfl (by simp [ThreadOk, hp.1]) (.inr hp.1) (.inr hp.1) ?_ ?_ fun _ => .inl rfl⟩
    · intro q hq
      simp [hp.2, Ne.symm hq]
    · intro q _ hq
      simp [hp.2] at hq
  case setPid =>
    cases h
    refine ⟨o, hI.set rfl hI.locked_eq (by simp [ThreadOk, hp.1, hp.2]) (.inr hp.1) (.inr hp.1)
      (fun _ _ => Iff.rfl) ?_ ?_⟩
    · intro q hq hoq
      exact absurd (Option.some.inj (hp.2.symm.trans hoq)) (Ne.symm hq)
    · rintro (h | h)
      · exact .inl h
      · exact absurd h (not_releasing hp.1 (by simp [hc]))
  case acqRelease =>
    cases h
    refine ⟨o, hI.dropSpin hp.1 (by simp [ThreadOk, hp.2.1, hp.2.2]) fun _ => ?_⟩
    simp [hI.locked_eq, hp.2.1]
  case clearLocked =>
    cases h
    refine ⟨none, hI.set rfl rfl (by simp [ThreadOk, hp.1]) (.inr hp.1) (.inr hp.1) ?_ ?_
      fun _ => .inr ⟨p, hp.1, .inl (by simp)⟩⟩
    · intro q hq
      simp [hp.2.1, Ne.symm hq]
    · intro q hq hoq
      exact absurd (Option.some.inj (hp.2.1.symm.trans hoq)) (Ne.symm hq)
  case clearPid =>
    cases h
    refine ⟨o, hI.set rfl hI.locked_eq (by simp [ThreadOk, hp.1, hp.2]) (.inr hp.1) (.inr hp.1)
      (fun _ _ => Iff.rfl) ?_ fun _ => .inr ⟨p, hp.1, .inr (by simp)⟩⟩
    intro q _ hoq
    simp [hp.2] at hoq
  case wake =>
    cases h
    exact ⟨o, hI.wake hc⟩
  case relRelease =>
    cases h
    refine ⟨o, hI.dropSpin hp.1 (by simp [ThreadOk, hp.2]) fun h => ?_⟩
    exact absurd h (not_releasing hp.1 (by simp [hc]))

theorem Inv.step (hI : Inv pid s o) {c : Call τ} {t : Sys τ} (h : Sleeplock.step pid s c = some t) :
    ∃ o', Inv pid t o' := by
  cases c with
  | acquire p =>
    have hp := hI.thread p
    by_cases hc : s.procs p = .idle
    · rw [Sleeplock.step, if_pos hc] at h
      cases h
      rw [hc] at hp
      exact ⟨o, hI.call hp hp.1⟩
    · rw [Sleeplock.step, if_neg hc] at h
      cases h
  | release p =>
    have hp := hI.thread p
    by_cases hc : s.procs p = .holding
    · rw [Sleeplock.step, if_pos hc] at h
      cases h
      rw [hc] at hp
      exact ⟨o, hI.call hp hp.1⟩
    · rw [Sleeplock.step, if_neg hc] at h
      cases h
  | run p => exact hI.run h

theorem Reach.inv (hs : Reach pid s) : ∃ o, Inv pid s o := by
  induction hs with
  | init => exact ⟨none, inv_init⟩
  | step c _ h ih =>
    obtain ⟨o, hI⟩ := ih
    exact hI.step h

/-- The holder of `lk->lk` is never blocked. -/
theorem Inv.run_isSome (hI : Inv pid s o) {r : τ} (hr : s.spin = some r) : (s.run pid r).isSome := by
  have h := hI.thread r
  -- a thread away from `lk->lk` contradicts `hr`
  cases hc : s.procs r <;> rw [hc] at h <;> simp [ThreadOk, hr] at h
  case test => by_cases hl : s.locked = true <;> simp [Sys.run, hc, hl]
  all_goals simp [Sys.run, hc]

end Inv

variable [DecidableEq τ]

/-- **The sleeplock over every interleaving**: at most one thread has it;
`locked` says whether one has, and `pid` is its pid once set; a thread asleep
on it while `lk->lk` is free finds it taken, so that its release wakes the
thread; where pids are distinct, `holding_sleep` answers whether its caller
has it; and the holder of `lk->lk` always runs its next statement. -/
theorem sleeplock_mutual_exclusion {pid : τ → Nat} {s : Sys τ} (hs : Reach pid s) :
    (∀ p q, (s.procs p).taken = true → (s.procs q).taken = true → p = q) ∧
    (s.locked = true ↔ ∃ q, (s.procs q).taken = true) ∧
    (∀ q, (s.procs q).taken = true → s.procs q ≠ .setPid → s.pid = pid q) ∧
    (s.spin = none → ∀ q, s.procs q = .asleep → s.locked = true) ∧
    (Function.Injective pid → s.spin = none → ∀ p, holdingSleep pid s p = some (s.procs p).taken) ∧
    (∀ r, s.spin = some r → (step pid s (.run r)).isSome) := by
  obtain ⟨o, hI⟩ := hs.inv
  exact ⟨fun _ _ => hI.taken_unique, hI.locked_iff, fun _ => hI.pid_eq, fun hn _ => hI.asleep_locked hn,
    fun hinj hn => hI.holdingSleep_eq hinj hn, fun _ => hI.run_isSome⟩

theorem sleeplock_mutual_exclusion_after_acquire :
    ∃ s : Sys (Fin 2), step (fun i => i.val + 1) .init (.acquire 0) = some s ∧
      (∀ p q, (s.procs p).taken = true → (s.procs q).taken = true → p = q) ∧
      (s.locked = true ↔ ∃ q, (s.procs q).taken = true) ∧
      (∀ q, (s.procs q).taken = true → s.procs q ≠ .setPid → s.pid = q.val + 1) ∧
      (s.spin = none → ∀ q, s.procs q = .asleep → s.locked = true) ∧
      (Function.Injective (fun i : Fin 2 => i.val + 1) → s.spin = none →
        ∀ p, holdingSleep (fun i => i.val + 1) s p = some (s.procs p).taken) ∧
      (∀ r, s.spin = some r → (step (fun i => i.val + 1) s (.run r)).isSome) :=
  ⟨_, rfl, sleeplock_mutual_exclusion (.step (.acquire 0) .init rfl)⟩

end Sleeplock

end Mkros
