import Mkros.Kernel.Sched
/-!
# No lost wakeups

A process that calls `sleep(chan, lk)` holding `lk` lets `lk` go only after
taking its own `p->lock`, and holds that until the scheduler it switches to
lets it go, by which time it is `SLEEPING` on `chan`. `wakeup` takes each
process's `p->lock` in turn. So a `wakeup(chan)` made by a process that took
`lk` after the sleeper let it go finds the sleeper either not yet past
`sched` (and waits for its lock), or `SLEEPING` (and wakes it), or already
woken: when the loop is over, no process is still asleep in such a call
(`no_lost_wakeup`).

The invariant `Inv` says where each spinlock is: a `p->lock` is held by the
CPU whose place says so (`Holds`), the other locks by one process each. The
wakeups are tracked by `Inv.woken`: a `wakeup(chan)` holding `lk` has left
none of the slots it passed `Pending` in `sleep(chan, lk)`. A move of the
running process that rewrites only its own record keeps the invariant by one
lemma, `Inv.own`, from facts about the record alone; `sched`, the wake of
another process, and the scheduler's moves have one lemma each.
-/

namespace Mkros

namespace Sched

open ProcTable

variable {κ : Type}

/-! ## Where the locks are -/

/-- The points of `sleep` that hold `p->lock`: from its `acquire` to
`sched()`, and from the return of `sched` to its `release`. -/
def SleepPc.owns : SleepPc → Bool
  | .acquire | .relock => false
  | _ => true

/-- The points that hold the process's own `p->lock`. -/
def Pc.owns : Pc κ → Bool
  | .sleep _ _ n => n.owns
  | .forkret => true
  | _ => false

/-- The other process whose `p->lock` a pass of `wakeup` holds. -/
def Pc.other : Pc κ → Option (Fin NPROC)
  | .wakeup _ i .test | .wakeup _ i .release => if h : i < NPROC then some ⟨i, h⟩ else none
  | _ => none

/-- The points of `yield` that hold `p->lock`. -/
def YieldPc.owns : YieldPc → Bool
  | .acquire => false
  | _ => true

/-- The process holds its own `p->lock` where it is. -/
def Proc.owns (x : Proc κ) : Bool := x.pc.owns || x.yielding.any YieldPc.owns

/-- CPU `c` holds `proc[q].lock`, by where it is. -/
def Holds (s : Sys κ) (c : Fin NCPU) (q : Fin NPROC) : Prop :=
  match s.cpus c with
  | .scan _ => False
  | .check p | .back p => p = q
  | .run p => (p = q ∧ (s.procs p).owns = true) ∨ (s.procs p).pc.other = some q

/-- The slots a call of `wakeup(chan)` has passed. -/
def Pc.passed : Pc κ → Option (Chan × Nat)
  | .wakeup chan i .release => some (chan, i + 1)
  | .wakeup chan i _ => some (chan, i)
  | _ => none

/-- In `sleep(chan, lk)` past `release(lk)` and not woken: `p->chan` or
`p->state` not yet set, not yet switched away, or `SLEEPING`. -/
def Pending (chan : Chan) (lk : κ) (x : Proc κ) : Prop :=
  x.pc = .sleep chan lk .chan ∨ x.pc = .sleep chan lk .state ∨ x.pc = .sleep chan lk .sched ∨
    (x.pc = .sleep chan lk .tidy ∧ x.state = .sleeping)

/-- The states of a process a CPU runs: `RUNNING`, or `SLEEPING` at
`sleep`'s `sched()`. -/
def Proc.OnCpu (x : Proc κ) : Prop :=
  x.state = .running ∨ (x.state = .sleeping ∧ ∃ chan lk, x.pc = .sleep chan lk .sched)

/-- Where a process no CPU runs is: where `swtch` returns to it, back from
`sched` in `sleep` or `yield`, or at `forkret`. -/
def Proc.Parked (x : Proc κ) : Prop :=
  (x.yielding = some .release ∧ x.pc.owns = false ∧ x.pc.other = none) ∨
    (x.yielding = none ∧ ((∃ chan lk, x.pc = .sleep chan lk .tidy) ∨ x.pc = .forkret))

/-- A `SLEEPING` process is in `sleep`, at `sched()` or back from it. -/
def Proc.Asleep (x : Proc κ) : Prop :=
  x.state = .sleeping → ∃ chan lk, x.pc = .sleep chan lk .sched ∨ x.pc = .sleep chan lk .tidy

/-- In `yield`, from a point holding no `p->lock`. -/
def Proc.YieldOk (x : Proc κ) : Prop := x.yielding ≠ none → x.pc.owns = false ∧ x.pc.other = none

/-- From `p->chan = chan` until woken, `p->chan` is `chan`. -/
def Proc.ChanSet (x : Proc κ) : Prop :=
  ∀ chan lk, (x.pc = .sleep chan lk .state ∨ x.pc = .sleep chan lk .sched ∨
    (x.pc = .sleep chan lk .tidy ∧ x.state = .sleeping)) → x.chan = some chan

/-- **The invariant** of the machine. -/
structure Inv (s : Sys κ) : Prop where
  /-- A `p->lock` is held by the CPU whose place says it holds it. -/
  plock : ∀ q c, s.plock q = some c ↔ Holds s c q
  /-- A process runs on one CPU. -/
  run_unique : ∀ c c' p, s.cpus c = .run p → s.cpus c' = .run p → c = c'
  on_cpu : ∀ c p, s.cpus c = .run p → (s.procs p).OnCpu
  parked : ∀ p, (∀ c, s.cpus c ≠ .run p) → (s.procs p).Parked
  asleep : ∀ p, (s.procs p).Asleep
  yielding : ∀ p, (s.procs p).YieldOk
  chan : ∀ p, (s.procs p).ChanSet
  /-- A spinlock other than a `p->lock` is held by one process. -/
  held : ∀ lk p q, lk ∈ (s.procs p).held → lk ∈ (s.procs q).held → p = q
  /-- A `wakeup(chan)` holding `lk` has left none of the slots it passed
  pending in `sleep(chan, lk)`. -/
  woken : ∀ B chan n lk, (s.procs B).pc.passed = some (chan, n) → lk ∈ (s.procs B).held →
    ∀ A : Fin NPROC, A.val < n → ¬Pending chan lk (s.procs A)

/-! ## Facts about one record -/

theorem Proc.Parked.owns {x : Proc κ} (h : x.Parked) : x.owns = true ∧ x.pc.other = none := by
  rcases h with ⟨hy, -, ho⟩ | ⟨hy, ⟨chan, lk, hpc⟩ | hpc⟩
  · simp [Proc.owns, hy, YieldPc.owns, ho]
  · simp [Proc.owns, hpc, Pc.owns, SleepPc.owns, Pc.other]
  · simp [Proc.owns, hpc, Pc.owns, Pc.other]

theorem Proc.Parked.not_pending {x : Proc κ} (h : x.Parked) (chan : Chan) (lk : κ) :
    x.pc ≠ .sleep chan lk .chan ∧ x.pc ≠ .sleep chan lk .state ∧ x.pc ≠ .sleep chan lk .sched := by
  rcases h with ⟨-, hown, -⟩ | ⟨-, ⟨chan', lk', hpc⟩ | hpc⟩ <;>
    refine ⟨?_, ?_, ?_⟩ <;> intro heq <;> simp_all [Pc.owns, SleepPc.owns]

theorem not_pending_of_passed {x : Proc κ} {chan chan' : Chan} {n : Nat} {lk : κ}
    (h : x.pc.passed = some (chan, n)) : ¬Pending chan' lk x := by
  rintro (hpc | hpc | hpc | ⟨hpc, -⟩) <;> simp [hpc, Pc.passed] at h

/-- A record on a CPU with its state kept, not at `sleep`'s `sched()`, stays
one. -/
theorem Proc.OnCpu.of_state {x x' : Proc κ} (h : x.OnCpu) (hpc : ∀ chan lk, x.pc ≠ .sleep chan lk .sched)
    (hst : x'.state = x.state) : x'.OnCpu := by
  rcases h with hrun | ⟨-, chan, lk, hsched⟩
  · exact .inl (hst.trans hrun)
  · exact absurd hsched (hpc chan lk)

theorem Proc.OnCpu.asleep {x : Proc κ} (h : x.OnCpu) : x.Asleep := by
  intro hsl
  rcases h with hrun | ⟨-, chan, lk, hsched⟩
  · rw [hrun] at hsl
    cases hsl
  · exact ⟨chan, lk, .inl hsched⟩

/-- A record not `SLEEPING`, with `pc` and `chan` kept, keeps `ChanSet`. -/
theorem Proc.ChanSet.of_awake {x x' : Proc κ} (h : x.ChanSet) (hpc : x'.pc = x.pc) (hchan : x'.chan = x.chan)
    (hst : x'.state ≠ .sleeping) : x'.ChanSet := by
  intro chan lk hx
  rw [hchan]
  rw [hpc] at hx
  rcases hx with hx | hx | ⟨-, hsl⟩
  · exact h chan lk (.inl hx)
  · exact h chan lk (.inr (.inl hx))
  · exact absurd hsl hst

/-- A record at a point that is not `sleep`'s from `p->state = SLEEPING` on
has nothing of `ChanSet` to keep. -/
theorem chanSet_of_pc {x : Proc κ} (h : ∀ chan lk, x.pc ≠ .sleep chan lk .state ∧ x.pc ≠ .sleep chan lk .sched ∧
    x.pc ≠ .sleep chan lk .tidy) : x.ChanSet := by
  intro chan lk hx
  rcases hx with hx | hx | ⟨hx, -⟩
  · exact absurd hx (h chan lk).1
  · exact absurd hx (h chan lk).2.1
  · exact absurd hx (h chan lk).2.2

theorem not_pending_of_pc {x : Proc κ} {chan : Chan} {lk : κ}
    (h : ∀ n, x.pc = .sleep chan lk n → n = .acquire ∨ n = .release ∨ n = .unlock ∨ n = .relock) :
    ¬Pending chan lk x := by
  rintro (hx | hx | hx | ⟨hx, -⟩) <;> simpa using h _ hx

/-! ## `Holds` under the updates -/

theorem holds_run {s : Sys κ} {c : Fin NCPU} {p q : Fin NPROC} (h : s.cpus c = .run p) :
    Holds s c q ↔ (p = q ∧ (s.procs p).owns = true) ∨ (s.procs p).pc.other = some q := by
  unfold Holds
  rw [h]

theorem holds_check {s : Sys κ} {c : Fin NCPU} {p q : Fin NPROC} (h : s.cpus c = .check p) :
    Holds s c q ↔ p = q := by
  unfold Holds
  rw [h]

theorem holds_back {s : Sys κ} {c : Fin NCPU} {p q : Fin NPROC} (h : s.cpus c = .back p) :
    Holds s c q ↔ p = q := by
  unfold Holds
  rw [h]

theorem not_holds_scan {s : Sys κ} {c : Fin NCPU} {i : Nat} {q : Fin NPROC} (h : s.cpus c = .scan i) :
    ¬Holds s c q := by
  unfold Holds
  rw [h]
  exact id

/-- What a CPU holds depends on its place and on where the process it runs
holds locks only. -/
theorem holds_congr {s s' : Sys κ} {c : Fin NCPU} (hc : s'.cpus c = s.cpus c)
    (hp : ∀ p, s.cpus c = .run p →
      (s'.procs p).owns = (s.procs p).owns ∧ (s'.procs p).pc.other = (s.procs p).pc.other)
    (q : Fin NPROC) : Holds s' c q ↔ Holds s c q := by
  unfold Holds
  rw [hc]
  cases hcp : s.cpus c with
  | run p =>
    dsimp only
    rw [(hp p hcp).1, (hp p hcp).2]
  | _ => exact Iff.rfl

/-! ## The running process's own moves -/

section Own

variable {s s' : Sys κ} {c : Fin NCPU} {p : Fin NPROC} {x' : Proc κ}

/-- **A move of the running process** that rewrites its own record to `x'`
and may take or let go of `p->lock`s on its CPU keeps the invariant, given
what the new record is: where it holds locks (`hpl`), that it is still a
record on a CPU, in `yield` rightly, with `p->chan` set where it should be,
that a spinlock it now holds was its own or free, that it is pending in a
sleep only where it was, or holding the lock, and, where it is in `wakeup`,
that no slot it has now passed is pending. -/
theorem Inv.own (hi : Inv s) (hc : s.cpus c = .run p) (hprocs : s'.procs = Function.update s.procs p x')
    (hcpus : s'.cpus = s.cpus)
    (hpl : ∀ q, s'.plock q = some c ↔ (p = q ∧ x'.owns = true) ∨ x'.pc.other = some q)
    (hpl' : ∀ q c', c' ≠ c → (s'.plock q = some c' ↔ s.plock q = some c'))
    (hon : x'.OnCpu) (hyield : x'.YieldOk) (hchan : x'.ChanSet)
    (hheld : ∀ lk ∈ x'.held, lk ∈ (s.procs p).held ∨ s.free lk)
    (hpend : ∀ chan lk, Pending chan lk x' → Pending chan lk (s.procs p) ∨ lk ∈ (s.procs p).held)
    (hwoken : ∀ chan n lk, x'.pc.passed = some (chan, n) → lk ∈ x'.held →
      ∀ A, A ≠ p → A.val < n → ¬Pending chan lk (s.procs A)) :
    Inv s' := by
  have hother : ∀ q, q ≠ p → s'.procs q = s.procs q := fun q hq => by
    rw [hprocs, Function.update_of_ne hq]
  have hself : s'.procs p = x' := by rw [hprocs, Function.update_self]
  refine ⟨fun q c' => ?_, ?_, fun c' p' h => ?_, fun p' h => ?_, fun p' => ?_, fun p' => ?_, fun p' => ?_,
    fun lk p1 p2 h1 h2 => ?_, fun B chan n lk hB hlk A hA => ?_⟩
  · by_cases hcc : c' = c
    · subst hcc
      rw [hpl q, holds_run (hcpus ▸ hc), hself]
    · -- another CPU runs another process, whose record is kept
      have hh : Holds s' c' q ↔ Holds s c' q := by
        refine holds_congr (by rw [hcpus]) (fun p' hp' => ?_) q
        have hne : p' ≠ p := by
          rintro rfl
          exact hcc (hi.run_unique c' c p' hp' hc)
        rw [hother p' hne]
        exact ⟨rfl, rfl⟩
      rw [hpl' q c' hcc, hi.plock q c', hh]
  · rw [hcpus]
    exact hi.run_unique
  · rw [hcpus] at h
    by_cases hp : p' = p
    · subst hp
      rw [hself]
      exact hon
    · rw [hother p' hp]
      exact hi.on_cpu c' p' h
  · rw [hcpus] at h
    have hp : p' ≠ p := by
      rintro rfl
      exact h c hc
    rw [hother p' hp]
    exact hi.parked p' h
  · by_cases hp : p' = p
    · subst hp
      rw [hself]
      exact hon.asleep
    · rw [hother p' hp]
      exact hi.asleep p'
  · by_cases hp : p' = p
    · subst hp
      rw [hself]
      exact hyield
    · rw [hother p' hp]
      exact hi.yielding p'
  · by_cases hp : p' = p
    · subst hp
      rw [hself]
      exact hchan
    · rw [hother p' hp]
      exact hi.chan p'
  · -- a lock the process now holds was its own or free
    have key : ∀ q, q ≠ p → lk ∈ x'.held → lk ∈ (s.procs q).held → False := by
      intro q hq hx hq'
      rcases hheld lk hx with hown | hfree
      · exact hq (hi.held lk q p hq' hown)
      · exact hfree q hq'
    by_cases hp1 : p1 = p <;> by_cases hp2 : p2 = p
    · exact hp1.trans hp2.symm
    · subst hp1
      rw [hself] at h1
      rw [hother p2 hp2] at h2
      exact (key p2 hp2 h1 h2).elim
    · subst hp2
      rw [hself] at h2
      rw [hother p1 hp1] at h1
      exact (key p1 hp1 h2 h1).elim
    · rw [hother p1 hp1] at h1
      rw [hother p2 hp2] at h2
      exact hi.held lk p1 p2 h1 h2
  · by_cases hB' : B = p
    · subst hB'
      rw [hself] at hB hlk
      by_cases hA' : A = B
      · subst hA'
        rw [hself]
        exact not_pending_of_passed hB
      · rw [hother A hA']
        exact hwoken chan n lk hB hlk A hA' hA
    · rw [hother B hB'] at hB hlk
      by_cases hA' : A = p
      · -- the mover became pending only by letting `lk` go, which `B` holds
        subst hA'
        rw [hself]
        intro hpx
        rcases hpend chan lk hpx with hold | hown
        · exact hi.woken B chan n lk hB hlk A hA hold
        · exact hB' (hi.held lk B A hlk hown)
      · rw [hother A hA']
        exact hi.woken B chan n lk hB hlk A hA

theorem Inv.plock_run (hi : Inv s) (hc : s.cpus c = .run p) (q : Fin NPROC) :
    s.plock q = some c ↔ (p = q ∧ (s.procs p).owns = true) ∨ (s.procs p).pc.other = some q :=
  (hi.plock q c).trans (holds_run hc)

/-- A move that takes or lets go of no lock, nor changes where the process
holds one. -/
theorem Inv.own_keep (hi : Inv s) (hc : s.cpus c = .run p)
    (howns : x'.owns = (s.procs p).owns) (hoth : x'.pc.other = (s.procs p).pc.other)
    (hon : x'.OnCpu) (hyield : x'.YieldOk) (hchan : x'.ChanSet)
    (hheld : ∀ lk ∈ x'.held, lk ∈ (s.procs p).held ∨ s.free lk)
    (hpend : ∀ chan lk, Pending chan lk x' → Pending chan lk (s.procs p) ∨ lk ∈ (s.procs p).held)
    (hwoken : ∀ chan n lk, x'.pc.passed = some (chan, n) → lk ∈ x'.held →
      ∀ A, A ≠ p → A.val < n → ¬Pending chan lk (s.procs A)) :
    Inv (s.setProc p x') :=
  hi.own hc rfl rfl (fun q => by rw [Sys.setProc_plock, hi.plock_run hc q, howns, hoth])
    (fun _ _ _ => Iff.rfl) hon hyield hchan hheld hpend hwoken

/-- A move that sets the one `p->lock` `q` to `v`: `v` is what the new place
says of `q`, and neither `v` nor the old value is another CPU. -/
theorem Inv.own_lock (hi : Inv s) (hc : s.cpus c = .run p) {q : Fin NPROC} {v : Option (Fin NCPU)}
    (hprocs : s'.procs = Function.update s.procs p x') (hcpus : s'.cpus = s.cpus)
    (hplock : s'.plock = Function.update s.plock q v)
    (hv : v = some c ↔ (p = q ∧ x'.owns = true) ∨ x'.pc.other = some q)
    (hvc : ∀ c', c' ≠ c → v ≠ some c') (hold : ∀ c', c' ≠ c → s.plock q ≠ some c')
    (hrest : ∀ q', q' ≠ q → ((p = q' ∧ x'.owns = true) ∨ x'.pc.other = some q' ↔
      (p = q' ∧ (s.procs p).owns = true) ∨ (s.procs p).pc.other = some q'))
    (hon : x'.OnCpu) (hyield : x'.YieldOk) (hchan : x'.ChanSet)
    (hheld : ∀ lk ∈ x'.held, lk ∈ (s.procs p).held ∨ s.free lk)
    (hpend : ∀ chan lk, Pending chan lk x' → Pending chan lk (s.procs p) ∨ lk ∈ (s.procs p).held)
    (hwoken : ∀ chan n lk, x'.pc.passed = some (chan, n) → lk ∈ x'.held →
      ∀ A, A ≠ p → A.val < n → ¬Pending chan lk (s.procs A)) :
    Inv s' := by
  refine hi.own hc hprocs hcpus (fun q' => ?_) (fun q' c' hc' => ?_) hon hyield hchan hheld hpend hwoken
  · rw [hplock]
    by_cases hq : q' = q
    · subst hq
      rw [Function.update_self]
      exact hv
    · rw [Function.update_of_ne hq, hi.plock_run hc q', hrest q' hq]
  · rw [hplock]
    by_cases hq : q' = q
    · subst hq
      rw [Function.update_self]
      exact ⟨fun h => absurd h (hvc c' hc'), fun h => absurd h (hold c' hc')⟩
    · rw [Function.update_of_ne hq]

end Own

/-! ## The moves of `sleep`, `wakeup`, `forkret` and `yield` -/

section Moves

variable {s : Sys κ} {c : Fin NCPU} {p : Fin NPROC}

theorem Inv.userAcquire (hi : Inv s) (hc : s.cpus c = .run p) (hpc : (s.procs p).pc = .user)
    (hy : (s.procs p).yielding = none) {lk : κ} (hfree : s.free lk) :
    Inv (s.setProc p { s.procs p with held := lk :: (s.procs p).held }) := by
  refine hi.own_keep hc rfl rfl ((hi.on_cpu c p hc).of_state (by simp [hpc]) rfl) (fun h => absurd hy h)
    (chanSet_of_pc (by simp [hpc])) (fun l hl => ?_) (fun chan lk => .inl) (by simp [hpc, Pc.passed])
  rcases List.mem_cons.1 hl with rfl | hl
  · exact .inr hfree
  · exact .inl hl

theorem Inv.userRelease [DecidableEq κ] (hi : Inv s) (hc : s.cpus c = .run p) (hpc : (s.procs p).pc = .user)
    (hy : (s.procs p).yielding = none) (lk : κ) :
    Inv (s.setProc p { s.procs p with held := (s.procs p).held.erase lk }) :=
  hi.own_keep hc rfl rfl ((hi.on_cpu c p hc).of_state (by simp [hpc]) rfl) (fun h => absurd hy h)
    (chanSet_of_pc (by simp [hpc])) (fun _ hl => .inl (List.mem_of_mem_erase hl)) (fun chan lk => .inl)
    (by simp [hpc, Pc.passed])

theorem Inv.userSleep (hi : Inv s) (hc : s.cpus c = .run p) (hpc : (s.procs p).pc = .user)
    (hy : (s.procs p).yielding = none) (chan : Chan) (lk : κ) :
    Inv (s.setProc p { s.procs p with pc := .sleep chan lk .acquire }) :=
  hi.own_keep hc (by simp [Proc.owns, hpc, hy, Pc.owns, SleepPc.owns]) (by simp [hpc, Pc.other])
    ((hi.on_cpu c p hc).of_state (by simp [hpc]) rfl) (fun h => absurd hy h) (chanSet_of_pc (by simp))
    (fun _ hl => .inl hl) (fun _ _ h => absurd h (not_pending_of_pc (by simp))) (by simp [Pc.passed])

theorem Inv.userWakeup (hi : Inv s) (hc : s.cpus c = .run p) (hpc : (s.procs p).pc = .user)
    (hy : (s.procs p).yielding = none) (chan : Chan) :
    Inv (s.setProc p { s.procs p with pc := .wakeup chan 0 .acquire }) :=
  hi.own_keep hc (by simp [Proc.owns, hpc, hy, Pc.owns]) (by simp [hpc, Pc.other])
    ((hi.on_cpu c p hc).of_state (by simp [hpc]) rfl) (fun h => absurd hy h) (chanSet_of_pc (by simp))
    (fun _ hl => .inl hl) (fun _ _ h => absurd h (not_pending_of_pc (by simp)))
    (fun _ n _ h _ _ _ hA => by simp only [Pc.passed, Option.some.injEq, Prod.mk.injEq] at h; omega)

theorem Inv.sleepAcquire (hi : Inv s) (hc : s.cpus c = .run p) {chan : Chan} {lk : κ}
    (hpc : (s.procs p).pc = .sleep chan lk .acquire) (hy : (s.procs p).yielding = none)
    (hfree : s.plock p = none) :
    Inv ((s.setPlock p (some c)).setProc p { s.procs p with pc := .sleep chan lk .release }) :=
  hi.own_lock hc rfl rfl rfl (by simp [Proc.owns, hy, Pc.owns, SleepPc.owns])
    (fun _ h e => h (Option.some.inj e).symm) (fun _ _ e => by rw [hfree] at e; cases e)
    (fun q hq => by simp [Ne.symm hq, hpc, Pc.other]) ((hi.on_cpu c p hc).of_state (by simp [hpc]) rfl)
    (fun h => absurd hy h) (chanSet_of_pc (by simp)) (fun _ hl => .inl hl)
    (fun _ _ h => absurd h (not_pending_of_pc (by simp))) (by simp [Pc.passed])

theorem Inv.sleepRelease [DecidableEq κ] (hi : Inv s) (hc : s.cpus c = .run p) {chan : Chan} {lk : κ}
    (hpc : (s.procs p).pc = .sleep chan lk .release) (hy : (s.procs p).yielding = none)
    (hlk : lk ∈ (s.procs p).held) :
    Inv (s.setProc p { s.procs p with held := (s.procs p).held.erase lk, pc := .sleep chan lk .chan }) := by
  refine hi.own_keep hc (by simp [Proc.owns, hpc, hy, Pc.owns, SleepPc.owns]) (by simp [hpc, Pc.other])
    ((hi.on_cpu c p hc).of_state (by simp [hpc]) rfl) (fun h => absurd hy h) (chanSet_of_pc (by simp))
    (fun _ hl => .inl (List.mem_of_mem_erase hl)) (fun chan' lk' h => ?_) (by simp [Pc.passed])
  -- pending from here on, having let `lk` go
  rcases h with h | h | h | ⟨h, -⟩ <;> simp at h
  obtain ⟨-, rfl⟩ := h
  exact .inr hlk

theorem Inv.sleepChan (hi : Inv s) (hc : s.cpus c = .run p) {chan : Chan} {lk : κ}
    (hpc : (s.procs p).pc = .sleep chan lk .chan) (hy : (s.procs p).yielding = none) :
    Inv (s.setProc p { s.procs p with chan := some chan, pc := .sleep chan lk .state }) := by
  refine hi.own_keep hc (by simp [Proc.owns, hpc, hy, Pc.owns, SleepPc.owns]) (by simp [hpc, Pc.other])
    ((hi.on_cpu c p hc).of_state (by simp [hpc]) rfl) (fun h => absurd hy h) (fun chan' lk' h => ?_)
    (fun _ hl => .inl hl) (fun chan' lk' h => .inl ?_) (by simp [Pc.passed])
  · rcases h with h | h | ⟨h, -⟩ <;> simp at h
    obtain ⟨rfl, -⟩ := h
    rfl
  · rcases h with h | h | h | ⟨h, -⟩ <;> simp at h
    obtain ⟨rfl, rfl⟩ := h
    exact .inl hpc

theorem Inv.sleepState (hi : Inv s) (hc : s.cpus c = .run p) {chan : Chan} {lk : κ}
    (hpc : (s.procs p).pc = .sleep chan lk .state) (hy : (s.procs p).yielding = none) :
    Inv (s.setProc p { s.procs p with state := .sleeping, pc := .sleep chan lk .sched }) := by
  refine hi.own_keep hc (by simp [Proc.owns, hpc, hy, Pc.owns, SleepPc.owns]) (by simp [hpc, Pc.other])
    (.inr ⟨rfl, chan, lk, rfl⟩) (fun h => absurd hy h) (fun chan' lk' h => ?_)
    (fun _ hl => .inl hl) (fun chan' lk' h => .inl ?_) (by simp [Pc.passed])
  · rcases h with h | h | ⟨h, -⟩ <;> simp at h
    obtain ⟨rfl, rfl⟩ := h
    exact hi.chan p chan lk (.inl hpc)
  · rcases h with h | h | h | ⟨h, -⟩ <;> simp at h
    obtain ⟨rfl, rfl⟩ := h
    exact .inr (.inl hpc)

theorem Inv.sleepTidy (hi : Inv s) (hc : s.cpus c = .run p) {chan : Chan} {lk : κ}
    (hpc : (s.procs p).pc = .sleep chan lk .tidy) (hy : (s.procs p).yielding = none) :
    Inv (s.setProc p { s.procs p with chan := none, pc := .sleep chan lk .unlock }) :=
  hi.own_keep hc (by simp [Proc.owns, hpc, hy, Pc.owns, SleepPc.owns]) (by simp [hpc, Pc.other])
    ((hi.on_cpu c p hc).of_state (by simp [hpc]) rfl) (fun h => absurd hy h) (chanSet_of_pc (by simp))
    (fun _ hl => .inl hl) (fun _ _ h => absurd h (not_pending_of_pc (by simp))) (by simp [Pc.passed])

theorem Inv.sleepUnlock (hi : Inv s) (hc : s.cpus c = .run p) {chan : Chan} {lk : κ}
    (hpc : (s.procs p).pc = .sleep chan lk .unlock) (hy : (s.procs p).yielding = none)
    (hlock : s.plock p = some c) :
    Inv ((s.setPlock p none).setProc p { s.procs p with pc := .sleep chan lk .relock }) :=
  hi.own_lock hc rfl rfl rfl (by simp [Proc.owns, hy, Pc.owns, SleepPc.owns, Pc.other])
    (fun _ _ e => by cases e) (fun _ h e => h (Option.some.inj (e.symm.trans hlock)))
    (fun q hq => by simp [Ne.symm hq, hpc, Pc.other]) ((hi.on_cpu c p hc).of_state (by simp [hpc]) rfl)
    (fun h => absurd hy h) (chanSet_of_pc (by simp)) (fun _ hl => .inl hl)
    (fun _ _ h => absurd h (not_pending_of_pc (by simp))) (by simp [Pc.passed])

theorem Inv.sleepRelock (hi : Inv s) (hc : s.cpus c = .run p) {chan : Chan} {lk : κ}
    (hpc : (s.procs p).pc = .sleep chan lk .relock) (hy : (s.procs p).yielding = none) (hfree : s.free lk) :
    Inv (s.setProc p { s.procs p with held := lk :: (s.procs p).held, pc := .user }) := by
  refine hi.own_keep hc (by simp [Proc.owns, hpc, hy, Pc.owns, SleepPc.owns]) (by simp [hpc, Pc.other])
    ((hi.on_cpu c p hc).of_state (by simp [hpc]) rfl) (fun h => absurd hy h) (chanSet_of_pc (by simp))
    (fun l hl => ?_) (fun _ _ h => absurd h (not_pending_of_pc (by simp))) (by simp [Pc.passed])
  rcases List.mem_cons.1 hl with rfl | hl
  · exact .inr hfree
  · exact .inl hl

theorem Inv.forkret (hi : Inv s) (hc : s.cpus c = .run p) (hpc : (s.procs p).pc = .forkret)
    (hy : (s.procs p).yielding = none) (hlock : s.plock p = some c) :
    Inv ((s.setPlock p none).setProc p { s.procs p with pc := .user }) :=
  hi.own_lock hc rfl rfl rfl (by simp [Proc.owns, hy, Pc.owns, Pc.other])
    (fun _ _ e => by cases e) (fun _ h e => h (Option.some.inj (e.symm.trans hlock)))
    (fun q hq => by simp [Ne.symm hq, hpc, Pc.other]) ((hi.on_cpu c p hc).of_state (by simp [hpc]) rfl)
    (fun h => absurd hy h) (chanSet_of_pc (by simp)) (fun _ hl => .inl hl)
    (fun _ _ h => absurd h (not_pending_of_pc (by simp))) (by simp [Pc.passed])

/-- `wakeup` passing its own slot. -/
theorem Inv.wakeupSkip (hi : Inv s) (hc : s.cpus c = .run p) {chan : Chan} {i : Nat}
    (hpc : (s.procs p).pc = .wakeup chan i .acquire) (hy : (s.procs p).yielding = none)
    (h : i < NPROC) (hself : (⟨i, h⟩ : Fin NPROC) = p) :
    Inv (s.setProc p { s.procs p with pc := .wakeup chan (i + 1) .acquire }) := by
  refine hi.own_keep hc (by simp [Proc.owns, hpc, hy, Pc.owns]) (by simp [hpc, Pc.other])
    ((hi.on_cpu c p hc).of_state (by simp [hpc]) rfl) (fun h => absurd hy h) (chanSet_of_pc (by simp))
    (fun _ hl => .inl hl) (fun _ _ h => absurd h (not_pending_of_pc (by simp)))
    (fun chan' n lk hB hlk A hA hn => ?_)
  simp only [Pc.passed, Option.some.injEq, Prod.mk.injEq] at hB
  obtain ⟨rfl, rfl⟩ := hB
  -- the slot passed is the caller's own
  have hAi : A.val < i := by
    have : A.val ≠ i := fun e => hA (by rw [← hself]; exact Fin.ext e)
    omega
  exact hi.woken p _ i lk (by simp [hpc, Pc.passed]) hlk A hAi

/-- `wakeup` taking another process's `p->lock`. -/
theorem Inv.wakeupTake (hi : Inv s) (hc : s.cpus c = .run p) {chan : Chan} {i : Nat}
    (hpc : (s.procs p).pc = .wakeup chan i .acquire) (hy : (s.procs p).yielding = none)
    (h : i < NPROC) (hfree : s.plock ⟨i, h⟩ = none) :
    Inv ((s.setPlock ⟨i, h⟩ (some c)).setProc p { s.procs p with pc := .wakeup chan i .test }) :=
  hi.own_lock hc rfl rfl rfl (by simp [Pc.other, h]) (fun _ h e => h (Option.some.inj e).symm)
    (fun _ _ e => by rw [hfree] at e; cases e)
    (fun q hq => by simp [Proc.owns, hpc, hy, Pc.owns, Pc.other, h, Ne.symm hq])
    ((hi.on_cpu c p hc).of_state (by simp [hpc]) rfl) (fun h => absurd hy h) (chanSet_of_pc (by simp))
    (fun _ hl => .inl hl) (fun _ _ h => absurd h (not_pending_of_pc (by simp)))
    (fun chan' n lk hB hlk A _ hA => hi.woken p chan' n lk (by simpa [hpc, Pc.passed] using hB) hlk A hA)

/-- `wakeup`'s loop over, returning. -/
theorem Inv.wakeupReturn (hi : Inv s) (hc : s.cpus c = .run p) {chan : Chan} {i : Nat}
    (hpc : (s.procs p).pc = .wakeup chan i .acquire) (hy : (s.procs p).yielding = none) :
    Inv (s.setProc p { s.procs p with pc := .user }) :=
  hi.own_keep hc (by simp [Proc.owns, hpc, hy, Pc.owns]) (by simp [hpc, Pc.other])
    ((hi.on_cpu c p hc).of_state (by simp [hpc]) rfl) (fun h => absurd hy h) (chanSet_of_pc (by simp))
    (fun _ hl => .inl hl) (fun _ _ h => absurd h (not_pending_of_pc (by simp))) (by simp [Pc.passed])

/-- `wakeup` letting another process's `p->lock` go. -/
theorem Inv.wakeupRelease (hi : Inv s) (hc : s.cpus c = .run p) {chan : Chan} {i : Nat}
    (hpc : (s.procs p).pc = .wakeup chan i .release) (hy : (s.procs p).yielding = none)
    (h : i < NPROC) (hlock : s.plock ⟨i, h⟩ = some c) :
    Inv ((s.setPlock ⟨i, h⟩ none).setProc p { s.procs p with pc := .wakeup chan (i + 1) .acquire }) :=
  hi.own_lock hc rfl rfl rfl (by simp [Proc.owns, hy, Pc.owns, Pc.other])
    (fun _ _ e => by cases e) (fun _ h e => h (Option.some.inj (e.symm.trans hlock)))
    (fun q hq => by simp [Proc.owns, hpc, hy, Pc.owns, Pc.other, h, Ne.symm hq])
    ((hi.on_cpu c p hc).of_state (by simp [hpc]) rfl) (fun h => absurd hy h) (chanSet_of_pc (by simp))
    (fun _ hl => .inl hl) (fun _ _ h => absurd h (not_pending_of_pc (by simp)))
    (fun chan' n lk hB hlk A _ hA => hi.woken p chan' n lk (by simpa [hpc, Pc.passed] using hB) hlk A hA)

/-- A timer interrupt sending the process into `yield`. -/
theorem Inv.yieldStart (hi : Inv s) (hc : s.cpus c = .run p) (hy : (s.procs p).yielding = none)
    (hrun : (s.procs p).state = .running) (hfree : ∀ q, s.plock q ≠ some c) :
    Inv (s.setProc p { s.procs p with yielding := some .acquire }) := by
  -- the CPU holds no `p->lock`, so the point it is at holds none
  have hown : (s.procs p).owns = false := by
    have := mt (hi.plock_run hc p).2 (hfree p)
    simp only [true_and, Bool.not_eq_true, not_or] at this
    exact this.1
  have hoth : (s.procs p).pc.other = none := by
    cases ho : (s.procs p).pc.other with
    | none => rfl
    | some q => exact absurd ((hi.plock_run hc q).2 (.inr ho)) (hfree q)
  refine hi.own_keep hc (by simp [Proc.owns, hy, YieldPc.owns]) rfl (.inl hrun)
    (fun _ => ⟨by simpa [Proc.owns, hy] using hown, hoth⟩) (hi.chan p) (fun _ hl => .inl hl)
    (fun _ _ h => .inl h) (fun chan n lk hB hlk A _ hA => hi.woken p chan n lk hB hlk A hA)

theorem Inv.yieldAcquire (hi : Inv s) (hc : s.cpus c = .run p) (hy : (s.procs p).yielding = some .acquire)
    (hfree : s.plock p = none) :
    Inv ((s.setPlock p (some c)).setProc p { s.procs p with yielding := some .sched }) :=
  hi.own_lock hc rfl rfl rfl (by simp [Proc.owns, YieldPc.owns])
    (fun _ h e => h (Option.some.inj e).symm) (fun _ _ e => by rw [hfree] at e; cases e)
    (fun q hq => by simp [Ne.symm hq]) (hi.on_cpu c p hc) (fun _ => hi.yielding p (by simp [hy]))
    (hi.chan p) (fun _ hl => .inl hl) (fun _ _ h => .inl h)
    (fun chan n lk hB hlk A _ hA => hi.woken p chan n lk hB hlk A hA)

theorem Inv.yieldRelease (hi : Inv s) (hc : s.cpus c = .run p) (hy : (s.procs p).yielding = some .release)
    (hlock : s.plock p = some c) :
    Inv ((s.setPlock p none).setProc p { s.procs p with yielding := none }) := by
  have hyo := hi.yielding p (by simp [hy])
  exact hi.own_lock hc rfl rfl rfl (by simp [Proc.owns, hyo.1, hyo.2])
    (fun _ _ e => by cases e) (fun _ h e => h (Option.some.inj (e.symm.trans hlock)))
    (fun q hq => by simp [Ne.symm hq]) (hi.on_cpu c p hc) (fun h => absurd rfl h)
    (hi.chan p) (fun _ hl => .inl hl) (fun _ _ h => .inl h)
    (fun chan n lk hB hlk A _ hA => hi.woken p chan n lk hB hlk A hA)

/-- **`sched()`**: the running process, holding its `p->lock` and no other
lock, switches to its CPU's scheduler, which is then at `release(&p->lock)`. -/
theorem Inv.switch (hi : Inv s) (hc : s.cpus c = .run p) {x' : Proc κ}
    (howns : (s.procs p).owns = true) (hoth : (s.procs p).pc.other = none)
    (hpark : x'.Parked) (hasleep : x'.Asleep) (hyield : x'.YieldOk) (hchan : x'.ChanSet) (hheld : x'.held = [])
    (hpend : ∀ chan lk, Pending chan lk x' → Pending chan lk (s.procs p)) :
    Inv ((s.setProc p x').setCpu c (.back p)) := by
  have hother : ∀ q, q ≠ p → ((s.setProc p x').setCpu c (.back p)).procs q = s.procs q := fun q hq => by
    simp [Function.update_of_ne hq]
  have hself : ((s.setProc p x').setCpu c (.back p)).procs p = x' := by simp
  -- every other CPU runs another process
  have hcpu : ∀ c' p', s.cpus c' = .run p' → c' ≠ c → p' ≠ p := fun c' p' h hne e =>
    hne (hi.run_unique c' c p' h (e ▸ hc))
  refine ⟨fun q c' => ?_, fun c1 c2 p' h1 h2 => ?_, fun c' p' h => ?_, fun p' h => ?_, fun p' => ?_,
    fun p' => ?_, fun p' => ?_, fun lk p1 p2 h1 h2 => ?_, fun B chan n lk hB hlk A hA => ?_⟩
  · by_cases hcc : c' = c
    · subst hcc
      have hb : ((s.setProc p x').setCpu c' (.back p)).cpus c' = .back p := by simp
      rw [holds_back hb, Sys.setCpu_plock, Sys.setProc_plock, hi.plock_run hc q, howns, hoth]
      simp
    · have hh : Holds ((s.setProc p x').setCpu c (.back p)) c' q ↔ Holds s c' q := by
        refine holds_congr (by simp [hcc]) (fun p' hp' => ?_) q
        rw [hother p' (hcpu c' p' hp' hcc)]
        exact ⟨rfl, rfl⟩
      rw [hh, ← hi.plock q c']
      rfl
  · have hc1 : c1 ≠ c := by rintro rfl; simp at h1
    have hc2 : c2 ≠ c := by rintro rfl; simp at h2
    simp only [Sys.setCpu_cpus, Function.update_of_ne hc1, Function.update_of_ne hc2] at h1 h2
    exact hi.run_unique c1 c2 p' h1 h2
  · have hcc : c' ≠ c := by rintro rfl; simp at h
    simp only [Sys.setCpu_cpus, Function.update_of_ne hcc] at h
    rw [hother p' (hcpu c' p' h hcc)]
    exact hi.on_cpu c' p' h
  · by_cases hp : p' = p
    · subst hp
      rw [hself]
      exact hpark
    · rw [hother p' hp]
      refine hi.parked p' fun c' hc' => ?_
      by_cases hcc : c' = c
      · subst hcc
        rw [hc] at hc'
        exact hp (Cpu.run.inj hc').symm
      · exact h c' (by simp [Function.update_of_ne hcc, hc'])
  · by_cases hp : p' = p
    · subst hp
      rw [hself]
      exact hasleep
    · rw [hother p' hp]
      exact hi.asleep p'
  · by_cases hp : p' = p
    · subst hp
      rw [hself]
      exact hyield
    · rw [hother p' hp]
      exact hi.yielding p'
  · by_cases hp : p' = p
    · subst hp
      rw [hself]
      exact hchan
    · rw [hother p' hp]
      exact hi.chan p'
  · -- the process that switched holds no lock
    have hp1 : p1 ≠ p := by rintro rfl; rw [hself, hheld] at h1; cases h1
    have hp2 : p2 ≠ p := by rintro rfl; rw [hself, hheld] at h2; cases h2
    rw [hother p1 hp1] at h1
    rw [hother p2 hp2] at h2
    exact hi.held lk p1 p2 h1 h2
  · have hB' : B ≠ p := by rintro rfl; rw [hself, hheld] at hlk; cases hlk
    rw [hother B hB'] at hB hlk
    by_cases hA' : A = p
    · subst hA'
      rw [hself]
      exact fun h => hi.woken B chan n lk hB hlk A hA (hpend chan lk h)
    · rw [hother A hA']
      exact hi.woken B chan n lk hB hlk A hA

theorem Inv.sleepSched (hi : Inv s) (hc : s.cpus c = .run p) {chan : Chan} {lk : κ}
    (hpc : (s.procs p).pc = .sleep chan lk .sched) (hy : (s.procs p).yielding = none)
    (hheld : (s.procs p).held = []) :
    Inv ((s.setProc p { s.procs p with pc := .sleep chan lk .tidy }).setCpu c (.back p)) := by
  refine hi.switch hc (by simp [Proc.owns, hpc, Pc.owns, SleepPc.owns]) (by simp [hpc, Pc.other])
    (.inr ⟨hy, .inl ⟨chan, lk, rfl⟩⟩) (fun _ => ⟨chan, lk, .inr rfl⟩) (fun h => absurd hy h) (fun chan' lk' h => ?_) hheld
    (fun chan' lk' h => ?_)
  · rcases h with h | h | ⟨h, hs⟩ <;> simp at h
    obtain ⟨rfl, rfl⟩ := h
    exact hi.chan p chan lk (.inr (.inl hpc))
  · rcases h with h | h | h | ⟨h, -⟩ <;> simp at h
    obtain ⟨rfl, rfl⟩ := h
    exact .inr (.inr (.inl hpc))

theorem Inv.yieldSched (hi : Inv s) (hc : s.cpus c = .run p) (hy : (s.procs p).yielding = some .sched)
    (hheld : (s.procs p).held = []) :
    Inv ((s.setProc p { s.procs p with state := .runnable, yielding := some .release }).setCpu c (.back p)) := by
  have hyo := hi.yielding p (by simp [hy])
  exact hi.switch hc (by simp [Proc.owns, hy, YieldPc.owns]) hyo.2 (.inl ⟨rfl, hyo⟩) (fun h => by cases h)
    (fun _ => hyo)
    ((hi.chan p).of_awake rfl rfl (by simp)) hheld
    (fun chan lk h => by rcases h with h | h | h | ⟨-, hs⟩ <;> simp_all [Pending])

/-! ## `wakeup` waking another process -/

@[simp] theorem wake_pc (chan : Chan) (y : Proc κ) : (wake chan y).pc = y.pc := by
  unfold wake; split <;> rfl

@[simp] theorem wake_chan (chan : Chan) (y : Proc κ) : (wake chan y).chan = y.chan := by
  unfold wake; split <;> rfl

@[simp] theorem wake_yielding (chan : Chan) (y : Proc κ) : (wake chan y).yielding = y.yielding := by
  unfold wake; split <;> rfl

@[simp] theorem wake_held (chan : Chan) (y : Proc κ) : (wake chan y).held = y.held := by
  unfold wake; split <;> rfl

@[simp] theorem wake_owns (chan : Chan) (y : Proc κ) : (wake chan y).owns = y.owns := by
  simp [Proc.owns]

theorem wake_of_awake {chan : Chan} {y : Proc κ} (h : y.state ≠ .sleeping) : wake chan y = y := by
  unfold wake
  rw [if_neg (fun h' => h h'.1)]

/-- `wake` only ends a sleep. -/
theorem pending_of_wake {chan chan' : Chan} {lk : κ} {y : Proc κ} (h : Pending chan' lk (wake chan y)) :
    Pending chan' lk y := by
  unfold wake at h
  split at h
  · rcases h with h | h | h | ⟨-, hs⟩
    · exact .inl h
    · exact .inr (.inl h)
    · exact .inr (.inr (.inl h))
    · cases hs
  · exact h

/-- A process whose `p->lock` the CPU running another holds, at a point
that holds its own lock, runs on no CPU: that CPU would hold the lock. -/
theorem Inv.off_cpu (hi : Inv s) (hc : s.cpus c = .run p) {q : Fin NPROC} (hqp : q ≠ p)
    (hq : s.plock q = some c) (hown : (s.procs q).owns = true) (c' : Fin NCPU) : s.cpus c' ≠ .run q := by
  intro hc'
  have hq' : s.plock q = some c' := (hi.plock_run hc' q).2 (.inl ⟨rfl, hown⟩)
  have hcc : c' = c := Option.some.inj (hq'.symm.trans hq)
  subst hcc
  rw [hc] at hc'
  exact hqp (Cpu.run.inj hc').symm

/-- **The wake of a process whose `p->lock` the waker holds** keeps the
invariant: it is `SLEEPING` only off every CPU, where making it `RUNNABLE`
breaks nothing. -/
theorem Inv.wakeLocked (hi : Inv s) (hc : s.cpus c = .run p) {q : Fin NPROC} (hqp : q ≠ p)
    (hq : s.plock q = some c) (chan : Chan) : Inv (s.setProc q (wake chan (s.procs q))) := by
  have hsame : ∀ r, r ≠ q → (s.setProc q (wake chan (s.procs q))).procs r = s.procs r := fun r hr => by
    simp [Function.update_of_ne hr]
  have hself : (s.setProc q (wake chan (s.procs q))).procs q = wake chan (s.procs q) := by simp
  have hlocks : ∀ r, ((s.setProc q (wake chan (s.procs q))).procs r).owns = (s.procs r).owns ∧
      ((s.setProc q (wake chan (s.procs q))).procs r).pc.other = (s.procs r).pc.other := fun r => by
    by_cases hr : r = q
    · subst hr
      simp
    · rw [hsame r hr]
      exact ⟨rfl, rfl⟩
  refine ⟨fun q' c' => ?_, hi.run_unique, fun c' p' h => ?_, fun p' h => ?_, fun p' => ?_, fun p' => ?_,
    fun p' => ?_, fun lk p1 p2 h1 h2 => ?_, fun B chan' n lk hB hlk A hA => ?_⟩
  · have hh : Holds (s.setProc q (wake chan (s.procs q))) c' q' ↔ Holds s c' q' :=
      holds_congr (by simp) (fun r _ => hlocks r) q'
    rw [Sys.setProc_plock, hi.plock q' c', hh]
  · by_cases hp : p' = q
    · subst hp
      rw [hself]
      rcases hi.on_cpu c' p' h with hrun | ⟨-, chan', lk', hsched⟩
      · rw [wake_of_awake (by rw [hrun]; simp)]
        exact .inl hrun
      · -- `SLEEPING` on a CPU is at `sched()`, holding the lock the waker holds
        exact absurd h (hi.off_cpu hc hqp hq (by simp [Proc.owns, hsched, Pc.owns, SleepPc.owns]) c')
    · rw [hsame p' hp]
      exact hi.on_cpu c' p' h
  · by_cases hp : p' = q
    · subst hp
      have := hi.parked p' h
      unfold Proc.Parked at this ⊢
      rwa [hself, wake_yielding, wake_pc]
    · rw [hsame p' hp]
      exact hi.parked p' h
  · by_cases hp : p' = q
    · subst hp
      rw [hself]
      intro hsl
      rw [wake_pc]
      -- still `SLEEPING` after the test, so it was before
      unfold wake at hsl
      split at hsl
      · cases hsl
      · exact hi.asleep p' hsl
    · rw [hsame p' hp]
      exact hi.asleep p'
  · by_cases hp : p' = q
    · subst hp
      have := hi.yielding p'
      unfold Proc.YieldOk at this ⊢
      rwa [hself, wake_yielding, wake_pc]
    · rw [hsame p' hp]
      exact hi.yielding p'
  · by_cases hp : p' = q
    · subst hp
      rw [hself]
      unfold wake
      split
      · exact (hi.chan p').of_awake rfl rfl (by simp)
      · exact hi.chan p'
    · rw [hsame p' hp]
      exact hi.chan p'
  · have hh : ∀ r, ((s.setProc q (wake chan (s.procs q))).procs r).held = (s.procs r).held := fun r => by
      by_cases hr : r = q
      · subst hr
        simp
      · rw [hsame r hr]
    rw [hh] at h1 h2
    exact hi.held lk p1 p2 h1 h2
  · have hpass : ∀ r, ((s.setProc q (wake chan (s.procs q))).procs r).pc = (s.procs r).pc ∧
        ((s.setProc q (wake chan (s.procs q))).procs r).held = (s.procs r).held := fun r => by
      by_cases hr : r = q
      · subst hr
        simp
      · rw [hsame r hr]
        exact ⟨rfl, rfl⟩
    rw [(hpass B).1] at hB
    rw [(hpass B).2] at hlk
    intro hpend
    by_cases hAq : A = q
    · subst hAq
      rw [hself] at hpend
      exact hi.woken B chan' n lk hB hlk A hA (pending_of_wake hpend)
    · rw [hsame A hAq] at hpend
      exact hi.woken B chan' n lk hB hlk A hA hpend

/-- **The process `wakeup(chan)` tests is not left pending** on `chan`: it
is not between letting `lk` go and `sched()`, since it would hold the lock
the waker holds, and if `SLEEPING` there its `p->chan` is `chan`. -/
theorem Inv.not_pending_wake (hi : Inv s) (hc : s.cpus c = .run p) {q : Fin NPROC} (hqp : q ≠ p)
    (hq : s.plock q = some c) (chan : Chan) (lk : κ) : ¬Pending chan lk (wake chan (s.procs q)) := by
  -- at a point that holds its own lock, it would be parked, and parked is not such a point
  have hnot : ∀ n, (s.procs q).pc = .sleep chan lk n → (n = .chan ∨ n = .state ∨ n = .sched) → False := by
    intro n hpc hn
    have hown : (s.procs q).owns = true := by
      rcases hn with rfl | rfl | rfl <;> simp [Proc.owns, hpc, Pc.owns, SleepPc.owns]
    have hpark := (hi.parked q (hi.off_cpu hc hqp hq hown)).not_pending chan lk
    rcases hn with rfl | rfl | rfl
    · exact hpark.1 hpc
    · exact hpark.2.1 hpc
    · exact hpark.2.2 hpc
  rintro (h | h | h | ⟨h, hs⟩)
  · exact hnot .chan (by simpa using h) (.inl rfl)
  · exact hnot .state (by simpa using h) (.inr (.inl rfl))
  · exact hnot .sched (by simpa using h) (.inr (.inr rfl))
  · rw [wake_pc] at h
    by_cases hsl : (s.procs q).state = .sleeping
    · have hch := hi.chan q chan lk (.inr (.inr ⟨h, hsl⟩))
      unfold wake at hs
      rw [if_pos ⟨hsl, hch⟩] at hs
      cases hs
    · rw [wake_of_awake hsl] at hs
      exact hsl hs

theorem Inv.wakeupTest (hi : Inv s) (hc : s.cpus c = .run p) {chan : Chan} {i : Nat}
    (hpc : (s.procs p).pc = .wakeup chan i .test) (hy : (s.procs p).yielding = none) (h : i < NPROC) :
    Inv ((s.setProc ⟨i, h⟩ (wake chan (s.procs ⟨i, h⟩))).setProc p
      { s.procs p with pc := .wakeup chan i .release }) := by
  by_cases hqp : (⟨i, h⟩ : Fin NPROC) = p
  · -- its own slot is skipped on the way in, so this does not arise; the write to `p` wins
    have hs : (s.setProc ⟨i, h⟩ (wake chan (s.procs ⟨i, h⟩))).setProc p
        { s.procs p with pc := .wakeup chan i .release } =
        s.setProc p { s.procs p with pc := .wakeup chan i .release } := by
      subst hqp
      simp [Sys.setProc]
    rw [hs]
    refine hi.own_keep hc (by simp [Proc.owns, hpc, hy, Pc.owns]) (by simp [hpc, Pc.other])
      ((hi.on_cpu c p hc).of_state (by simp [hpc]) rfl) (fun h => absurd hy h) (chanSet_of_pc (by simp))
      (fun _ hl => .inl hl) (fun _ _ h => absurd h (not_pending_of_pc (by simp)))
      (fun chan' n lk hB hlk A hA hn => ?_)
    simp only [Pc.passed, Option.some.injEq, Prod.mk.injEq] at hB
    obtain ⟨rfl, rfl⟩ := hB
    have hAi : A.val < i := by
      have : A.val ≠ i := fun e => hA (by rw [← hqp]; exact Fin.ext e)
      omega
    exact hi.woken p _ i lk (by simp [hpc, Pc.passed]) hlk A hAi
  · have hq : s.plock ⟨i, h⟩ = some c := (hi.plock_run hc _).2 (.inr (by simp [hpc, Pc.other, h]))
    have hi1 := hi.wakeLocked hc hqp hq chan
    have hx : (s.setProc ⟨i, h⟩ (wake chan (s.procs ⟨i, h⟩))).procs p = s.procs p := by
      simp [Function.update_of_ne (Ne.symm hqp)]
    rw [← hx]
    refine hi1.own_keep hc (by simp [hx, Proc.owns, hpc, hy, Pc.owns]) (by simp [hx, hpc, Pc.other])
      ((hi1.on_cpu c p hc).of_state (by simp [hx, hpc]) rfl) (fun h' => absurd (hx ▸ hy) h')
      (chanSet_of_pc (by simp)) (fun _ hl => .inl hl) (fun _ _ h' => absurd h' (not_pending_of_pc (by simp)))
      (fun chan' n lk hB hlk A hA hn => ?_)
    simp only [Pc.passed, Option.some.injEq, Prod.mk.injEq] at hB
    obtain ⟨rfl, rfl⟩ := hB
    by_cases hAi : A.val = i
    · -- the slot just tested
      have hA' : A = ⟨i, h⟩ := Fin.ext hAi
      subst hA'
      simp only [Sys.setProc_procs, Function.update_self]
      exact hi.not_pending_wake hc hqp hq _ lk
    · exact hi1.woken p _ i lk (by simp [hx, hpc, Pc.passed]) hlk A (by omega)

end Moves

/-! ## The scheduler's moves -/

section Scheduler

variable {s s' : Sys κ} {c : Fin NCPU}

/-- A move of a scheduler thread that does not switch to a process: only its
place and the `p->lock`s change, and the locks as the new place says. -/
theorem Inv.scheduler_keep (hi : Inv s) {v : Cpu} (hcs : ∀ p, s.cpus c ≠ .run p) (hv : ∀ p, v ≠ .run p)
    (hprocs : s'.procs = s.procs) (hcpus : s'.cpus = Function.update s.cpus c v)
    (hpl : ∀ q, s'.plock q = some c ↔ Holds s' c q)
    (hpl' : ∀ q c', c' ≠ c → (s'.plock q = some c' ↔ s.plock q = some c')) : Inv s' := by
  have hrun : ∀ c' p, s'.cpus c' = .run p → s.cpus c' = .run p := fun c' p h => by
    by_cases hcc : c' = c
    · subst hcc
      rw [hcpus, Function.update_self] at h
      exact absurd h (hv p)
    · rwa [hcpus, Function.update_of_ne hcc] at h
  refine ⟨fun q c' => ?_, fun c1 c2 p h1 h2 => hi.run_unique c1 c2 p (hrun c1 p h1) (hrun c2 p h2),
    fun c' p h => hprocs ▸ hi.on_cpu c' p (hrun c' p h), fun p h => ?_, fun p => hprocs ▸ hi.asleep p,
    fun p => hprocs ▸ hi.yielding p, fun p => hprocs ▸ hi.chan p, fun lk p1 p2 => hprocs ▸ hi.held lk p1 p2,
    fun B chan n lk => hprocs ▸ hi.woken B chan n lk⟩
  · by_cases hcc : c' = c
    · subst hcc
      exact hpl q
    · have hh : Holds s' c' q ↔ Holds s c' q :=
        holds_congr (by rw [hcpus, Function.update_of_ne hcc]) (fun r _ => by rw [hprocs]; exact ⟨rfl, rfl⟩) q
      rw [hpl' q c' hcc, hi.plock q c', hh]
  · rw [hprocs]
    refine hi.parked p fun c' hc' => ?_
    by_cases hcc : c' = c
    · subst hcc
      exact hcs p hc'
    · exact h c' (by rw [hcpus, Function.update_of_ne hcc]; exact hc')

/-- `acquire(&p->lock)` in the scheduler's loop. -/
theorem Inv.schedAcquire (hi : Inv s) {i : Nat} (hcs : s.cpus c = .scan i) (h : i < NPROC)
    (hfree : s.plock ⟨i, h⟩ = none) : Inv ((s.setPlock ⟨i, h⟩ (some c)).setCpu c (.check ⟨i, h⟩)) := by
  refine hi.scheduler_keep (fun p e => by rw [hcs] at e; cases e) (fun p e => by cases e) rfl rfl
    (fun q => ?_) (fun q c' hcc => ?_)
  · have hcs' : ((s.setPlock ⟨i, h⟩ (some c)).setCpu c (.check ⟨i, h⟩)).cpus c = .check ⟨i, h⟩ := by simp
    rw [holds_check hcs']
    by_cases hq : q = ⟨i, h⟩
    · subst hq
      simp
    · simp only [Sys.setCpu_plock, Sys.setPlock_plock, Function.update_of_ne hq, hi.plock q c]
      exact ⟨fun hh => absurd hh (not_holds_scan hcs), fun e => absurd e.symm hq⟩
  · by_cases hq : q = ⟨i, h⟩
    · subst hq
      simp only [Sys.setCpu_plock, Sys.setPlock_plock, Function.update_self, hfree]
      exact ⟨fun e => absurd (Option.some.inj e).symm hcc, fun e => by cases e⟩
    · simp only [Sys.setCpu_plock, Sys.setPlock_plock, Function.update_of_ne hq]

/-- The `for (;;)` starting the loop again. -/
theorem Inv.schedWrap (hi : Inv s) {i : Nat} (hcs : s.cpus c = .scan i) : Inv (s.setCpu c (.scan 0)) :=
  hi.scheduler_keep (fun p e => by rw [hcs] at e; cases e) (fun p e => by cases e) rfl rfl
    (fun q => by
      have hcs' : (s.setCpu c (.scan 0)).cpus c = .scan 0 := by simp
      rw [Sys.setCpu_plock, hi.plock q c]
      exact ⟨fun hh => absurd hh (not_holds_scan hcs), fun hh => absurd hh (not_holds_scan hcs')⟩)
    (fun _ _ _ => Iff.rfl)

/-- A process not `RUNNABLE` passed over. -/
theorem Inv.schedSkip (hi : Inv s) {p : Fin NPROC} (hcs : s.cpus c = .check p) : Inv (s.setCpu c (.back p)) :=
  hi.scheduler_keep (fun p e => by rw [hcs] at e; cases e) (fun p e => by cases e) rfl rfl
    (fun q => by
      have hcs' : (s.setCpu c (.back p)).cpus c = .back p := by simp
      rw [Sys.setCpu_plock, hi.plock q c, holds_check hcs, holds_back hcs'])
    (fun _ _ _ => Iff.rfl)

/-- `release(&p->lock)` in the scheduler's loop. -/
theorem Inv.schedRelease (hi : Inv s) {p : Fin NPROC} (hcs : s.cpus c = .back p) (hlock : s.plock p = some c) :
    Inv ((s.setPlock p none).setCpu c (.scan (p.val + 1))) := by
  refine hi.scheduler_keep (fun p e => by rw [hcs] at e; cases e) (fun p e => by cases e) rfl rfl
    (fun q => ?_) (fun q c' hcc => ?_)
  · have hcs' : ((s.setPlock p none).setCpu c (.scan (p.val + 1))).cpus c = .scan (p.val + 1) := by simp
    have hno := not_holds_scan (q := q) hcs'
    by_cases hq : q = p
    · subst hq
      rw [Sys.setCpu_plock, Sys.setPlock_plock, Function.update_self]
      exact ⟨fun e => (nomatch e), fun hh => absurd hh hno⟩
    · simp only [Sys.setCpu_plock, Sys.setPlock_plock, Function.update_of_ne hq, hi.plock q c, holds_back hcs]
      exact ⟨fun e => absurd e.symm hq, fun hh => absurd hh hno⟩
  · by_cases hq : q = p
    · subst hq
      rw [Sys.setCpu_plock, Sys.setPlock_plock, Function.update_self, hlock]
      exact ⟨fun e => (nomatch e), fun e => absurd (Option.some.inj e) (Ne.symm hcc)⟩
    · simp only [Sys.setCpu_plock, Sys.setPlock_plock, Function.update_of_ne hq]

/-- **Switching to a `RUNNABLE` process**: it was parked, holding its
`p->lock` where it resumes, so the lock the scheduler held passes to it. -/
theorem Inv.schedRun (hi : Inv s) {p : Fin NPROC} (hcs : s.cpus c = .check p)
    (hr : (s.procs p).state = .runnable) :
    Inv ((s.setProc p { s.procs p with state := .running }).setCpu c (.run p)) := by
  -- a `RUNNABLE` process runs on no CPU
  have hoff : ∀ c', s.cpus c' ≠ .run p := fun c' hc' => by
    rcases hi.on_cpu c' p hc' with h | ⟨h, -⟩ <;> rw [hr] at h <;> cases h
  have hpark := (hi.parked p hoff).owns
  have hother : ∀ q, q ≠ p →
      ((s.setProc p { s.procs p with state := .running }).setCpu c (.run p)).procs q = s.procs q :=
    fun q hq => by simp [Function.update_of_ne hq]
  have hself : ((s.setProc p { s.procs p with state := .running }).setCpu c (.run p)).procs p =
      { s.procs p with state := .running } := by simp
  have hrun : ∀ c' q, c' ≠ c →
      ((s.setProc p { s.procs p with state := .running }).setCpu c (.run p)).cpus c' = .run q →
      s.cpus c' = .run q ∧ q ≠ p := fun c' q hcc h => by
    simp only [Sys.setCpu_cpus, Function.update_of_ne hcc, Sys.setProc_cpus] at h
    exact ⟨h, fun e => hoff c' (e ▸ h)⟩
  refine ⟨fun q c' => ?_, fun c1 c2 q h1 h2 => ?_, fun c' q h => ?_, fun q h => ?_, fun q => ?_, fun q => ?_,
    fun q => ?_, fun lk p1 p2 h1 h2 => ?_, fun B chan n lk hB hlk A hA => ?_⟩
  · by_cases hcc : c' = c
    · subst hcc
      have hcs' : ((s.setProc p { s.procs p with state := .running }).setCpu c' (.run p)).cpus c' = .run p := by
        simp
      rw [holds_run hcs', hself, Sys.setCpu_plock, Sys.setProc_plock, hi.plock q c', holds_check hcs]
      have ho : ({ s.procs p with state := .running } : Proc κ).owns = true := hpark.1
      have ht : ({ s.procs p with state := .running } : Proc κ).pc.other = none := hpark.2
      rw [ho, ht]
      simp
    · have hh : Holds ((s.setProc p { s.procs p with state := .running }).setCpu c (.run p)) c' q ↔
          Holds s c' q := by
        refine holds_congr (by simp [hcc]) (fun r hr' => ?_) q
        rw [hother r (fun e => hoff c' (e ▸ hr'))]
        exact ⟨rfl, rfl⟩
      rw [hh, ← hi.plock q c']
      rfl
  · by_cases hc1 : c1 = c <;> by_cases hc2 : c2 = c
    · exact hc1.trans hc2.symm
    · subst hc1
      simp at h1
      exact absurd (h1 ▸ (hrun c2 q hc2 h2).1) (hoff c2)
    · subst hc2
      simp at h2
      exact absurd (h2 ▸ (hrun c1 q hc1 h1).1) (hoff c1)
    · exact hi.run_unique c1 c2 q (hrun c1 q hc1 h1).1 (hrun c2 q hc2 h2).1
  · by_cases hcc : c' = c
    · subst hcc
      simp only [Sys.setCpu_cpus, Function.update_self, Cpu.run.injEq] at h
      subst h
      rw [hself]
      exact .inl rfl
    · obtain ⟨h', hq⟩ := hrun c' q hcc h
      rw [hother q hq]
      exact hi.on_cpu c' q h'
  · have hq : q ≠ p := by
      rintro rfl
      exact h c (by simp)
    rw [hother q hq]
    refine hi.parked q fun c' hc' => ?_
    by_cases hcc : c' = c
    · subst hcc
      rw [hcs] at hc'
      cases hc'
    · exact h c' (by simp [hcc, hc'])
  · by_cases hq : q = p
    · subst hq
      rw [hself]
      intro hsl
      cases hsl
    · rw [hother q hq]
      exact hi.asleep q
  · by_cases hq : q = p
    · subst hq
      rw [hself]
      exact hi.yielding q
    · rw [hother q hq]
      exact hi.yielding q
  · by_cases hq : q = p
    · subst hq
      rw [hself]
      exact (hi.chan q).of_awake rfl rfl (by simp)
    · rw [hother q hq]
      exact hi.chan q
  · have hheld : ∀ r, (((s.setProc p { s.procs p with state := .running }).setCpu c (.run p)).procs r).held =
        (s.procs r).held := fun r => by
      by_cases hr' : r = p
      · subst hr'
        rw [hself]
      · rw [hother r hr']
    rw [hheld] at h1 h2
    exact hi.held lk p1 p2 h1 h2
  · have hsame : ∀ r, (((s.setProc p { s.procs p with state := .running }).setCpu c (.run p)).procs r).pc =
        (s.procs r).pc ∧ (((s.setProc p { s.procs p with state := .running }).setCpu c (.run p)).procs r).held =
        (s.procs r).held := fun r => by
      by_cases hr' : r = p
      · subst hr'
        rw [hself]
        exact ⟨rfl, rfl⟩
      · rw [hother r hr']
        exact ⟨rfl, rfl⟩
    rw [(hsame B).1] at hB
    rw [(hsame B).2] at hlk
    by_cases hA' : A = p
    · subst hA'
      rw [hself]
      rintro (h | h | h | ⟨-, hs⟩)
      · exact hi.woken B chan n lk hB hlk A hA (.inl h)
      · exact hi.woken B chan n lk hB hlk A hA (.inr (.inl h))
      · exact hi.woken B chan n lk hB hlk A hA (.inr (.inr (.inl h)))
      · cases hs
    · rw [hother A hA']
      exact hi.woken B chan n lk hB hlk A hA

theorem Inv.schedulerStep (hi : Inv s) (h : schedulerStep s c = some s') : Inv s' := by
  unfold Sched.schedulerStep at h
  split at h
  · rename_i i hcs
    split at h
    · rename_i hlt
      split at h
      · cases h
        exact hi.schedAcquire hcs hlt ‹_›
      · cases h
    · cases h
      exact hi.schedWrap hcs
  · rename_i p hcs
    split at h
    · cases h
      exact hi.schedRun hcs ‹_›
    · cases h
      exact hi.schedSkip hcs
  · rename_i p hcs
    split at h
    · cases h
      exact hi.schedRelease hcs ‹_›
    · cases h
  · cases h

end Scheduler

/-! ## Every reachable state -/

section Reach

variable [DecidableEq κ] {s s' : Sys κ} {c : Fin NCPU} {p : Fin NPROC}

theorem Inv.callStep (hi : Inv s) (hc : s.cpus c = .run p) (hy : (s.procs p).yielding = none) {a : Act κ}
    (h : callStep s c p (s.procs p) (s.procs p).pc a = some s') : Inv s' := by
  cases hpc : (s.procs p).pc with
  | user =>
    rw [hpc] at h
    cases a with
    | acquire lk =>
      simp only [Sched.callStep] at h
      split at h
      · cases h
        exact hi.userAcquire hc hpc hy ‹_›
      · cases h
    | release lk =>
      simp only [Sched.callStep] at h
      split at h
      · cases h
        exact hi.userRelease hc hpc hy lk
      · cases h
    | sleep chan lk =>
      simp only [Sched.callStep, Option.some.injEq] at h
      subst h
      exact hi.userSleep hc hpc hy chan lk
    | wakeup chan =>
      simp only [Sched.callStep, Option.some.injEq] at h
      subst h
      exact hi.userWakeup hc hpc hy chan
    | next | yield => simp [Sched.callStep] at h
  | sleep chan lk n =>
    rw [hpc] at h
    cases a with
    | next =>
      cases n <;> simp only [Sched.callStep] at h
      case acquire =>
        split at h
        · cases h
          exact hi.sleepAcquire hc hpc hy ‹_›
        · cases h
      case release =>
        split at h
        · cases h
          exact hi.sleepRelease hc hpc hy ‹_›
        · cases h
      case chan =>
        cases h
        exact hi.sleepChan hc hpc hy
      case state =>
        cases h
        exact hi.sleepState hc hpc hy
      case sched =>
        unfold Sched.sched at h
        split at h
        · rename_i hg
          cases h
          exact hi.sleepSched hc hpc hy hg.2.1
        · cases h
      case tidy =>
        cases h
        exact hi.sleepTidy hc hpc hy
      case unlock =>
        split at h
        · cases h
          exact hi.sleepUnlock hc hpc hy ‹_›
        · cases h
      case relock =>
        split at h
        · cases h
          exact hi.sleepRelock hc hpc hy ‹_›
        · cases h
    | _ => cases n <;> simp [Sched.callStep] at h
  | wakeup chan i n =>
    rw [hpc] at h
    cases a with
    | next =>
      cases n <;> simp only [Sched.callStep] at h
      case acquire =>
        split at h
        · rename_i hlt
          split at h
          · cases h
            exact hi.wakeupSkip hc hpc hy hlt ‹_›
          · split at h
            · cases h
              exact hi.wakeupTake hc hpc hy hlt ‹_›
            · cases h
        · cases h
          exact hi.wakeupReturn hc hpc hy
      case test =>
        split at h
        · cases h
          exact hi.wakeupTest hc hpc hy ‹_›
        · cases h
      case release =>
        split at h
        · split at h
          · cases h
            exact hi.wakeupRelease hc hpc hy ‹_› ‹_›
          · cases h
        · cases h
    | _ => cases n <;> simp [Sched.callStep] at h
  | forkret =>
    rw [hpc] at h
    cases a with
    | next =>
      simp only [Sched.callStep] at h
      split at h
      · cases h
        exact hi.forkret hc hpc hy ‹_›
      · cases h
    | _ => simp [Sched.callStep] at h

theorem Inv.procStep (hi : Inv s) (hc : s.cpus c = .run p) {a : Act κ} (h : procStep s c p a = some s') :
    Inv s' := by
  cases hy : (s.procs p).yielding with
  | none =>
    cases a with
    | yield =>
      simp only [Sched.procStep, hy] at h
      split at h
      · rename_i hg
        cases h
        exact hi.yieldStart hc hy hg.1 hg.2.2
      · cases h
    | _ =>
      simp only [Sched.procStep, hy] at h
      exact hi.callStep hc hy h
  | some y =>
    cases y <;> cases a <;> simp only [Sched.procStep, hy, reduceCtorEq] at h
    case acquire.next =>
      split at h
      · cases h
        exact hi.yieldAcquire hc hy ‹_›
      · cases h
    case sched.next =>
      unfold Sched.sched at h
      split at h
      · rename_i hg
        cases h
        exact hi.yieldSched hc hy hg.2.1
      · cases h
    case release.next =>
      split at h
      · cases h
        exact hi.yieldRelease hc hy ‹_›
      · cases h

/-- **The step lemma**: every move keeps the invariant. -/
theorem Inv.step (hi : Inv s) {m : Move κ} (h : step s m = some s') : Inv s' := by
  cases m with
  | sched c => exact hi.schedulerStep h
  | proc c a =>
    simp only [Sched.step] at h
    split at h
    · exact hi.procStep ‹_› h
    · cases h

omit [DecidableEq κ] in
theorem inv_init (used : Fin NPROC → Bool) : Inv (Sys.init used : Sys κ) := by
  have hscan : ∀ c, (Sys.init used : Sys κ).cpus c = .scan 0 := fun _ => rfl
  refine ⟨fun q c => ?_, fun c _ _ h => ?_, fun c _ h => ?_, fun p _ => .inr ⟨rfl, .inr rfl⟩,
    fun p hsl => ?_, fun p h => absurd rfl h, fun p => chanSet_of_pc (by simp [Sys.init]),
    fun lk p _ h => ?_, fun B _ _ _ hB => ?_⟩
  · exact ⟨fun e => (nomatch e), fun hh => absurd hh (not_holds_scan (hscan c))⟩
  · cases h
  · cases h
  · simp only [Sys.init] at hsl
    split at hsl <;> cases hsl
  · cases h
  · simp [Sys.init, Pc.passed] at hB

/-- **The invariant holds in every reachable state.** -/
theorem reach_inv {used : Fin NPROC → Bool} (h : Reach used s) : Inv s := by
  induction h with
  | init => exact inv_init used
  | step m _ hs ih => exact ih.step hs

/-- **No lost wakeups.** In every state a run reaches, once a call of
`wakeup(chan)` made by a process holding `lk` has passed every slot (its
next step returns), no process in a call of `sleep(chan, lk)` is `SLEEPING`
on `chan`, nor between letting `lk` go and switching away. The caller has
held `lk` since before the call, as nothing in `wakeup` takes or lets go of
it, so every such sleeper let `lk` go before the caller took it. -/
theorem no_lost_wakeup {used : Fin NPROC → Bool} (h : Reach used s) {B : Fin NPROC} {chan : Chan} {lk : κ}
    (hB : (s.procs B).pc = .wakeup chan NPROC .acquire) (hlk : lk ∈ (s.procs B).held) :
    ∀ A n, (s.procs A).pc = .sleep chan lk n →
      ¬((s.procs A).state = .sleeping ∧ (s.procs A).chan = some chan) ∧
        n ≠ .chan ∧ n ≠ .state ∧ n ≠ .sched := by
  intro A n hA
  have hi := reach_inv h
  have hnp : ¬Pending chan lk (s.procs A) :=
    hi.woken B chan NPROC lk (by simp [hB, Pc.passed]) hlk A A.isLt
  refine ⟨fun hs => ?_, fun e => hnp (.inl (e ▸ hA)), fun e => hnp (.inr (.inl (e ▸ hA))),
    fun e => hnp (.inr (.inr (.inl (e ▸ hA))))⟩
  -- `SLEEPING` in `sleep` is at `sched()` or back from it, both pending
  have hsl := hs.1
  obtain ⟨chan', lk', hpc⟩ := hi.asleep A hsl
  rw [hA] at hpc
  rcases hpc with hpc | hpc <;> simp only [Pc.sleep.injEq] at hpc
  · obtain ⟨-, -, rfl⟩ := hpc
    exact hnp (.inr (.inr (.inl hA)))
  · obtain ⟨-, -, rfl⟩ := hpc
    exact hnp (.inr (.inr (.inr ⟨hA, hsl⟩)))

end Reach

/-! ## A run -/

section Run

variable [DecidableEq κ] {used : Fin NPROC → Bool} {s : Sys κ} {c : Fin NCPU} {B : Fin NPROC} {chan : Chan}

attribute [ext] Sys

omit [DecidableEq κ] in
@[simp] theorem Sys.setProc_setProc (s : Sys κ) (p : Fin NPROC) (x y : Proc κ) :
    (s.setProc p x).setProc p y = s.setProc p y := by
  simp [Sys.setProc]

omit [DecidableEq κ] in
@[simp] theorem Sys.setPlock_setProc (s : Sys κ) (p q : Fin NPROC) (x : Proc κ) (v : Option (Fin NCPU)) :
    (s.setProc p x).setPlock q v = (s.setPlock q v).setProc p x := rfl

/-- One slot of a pass of `wakeup(chan)` over a table with no `p->lock`
held and no process to wake but the caller: one step at the caller's own
slot, three (take, test, let go) at another's. -/
theorem Reach.wakeup_slot {i : Nat} (hs : Reach used (s.setProc B { s.procs B with pc := .wakeup chan i .acquire }))
    (hc : s.cpus c = .run B) (hy : (s.procs B).yielding = none) (hfree : ∀ q, s.plock q = none)
    (hawake : ∀ q, q ≠ B → wake chan (s.procs q) = s.procs q) (hi : i < NPROC) :
    Reach used (s.setProc B { s.procs B with pc := .wakeup chan (i + 1) .acquire }) := by
  by_cases hq : (⟨i, hi⟩ : Fin NPROC) = B
  · refine .step (.proc c .next) hs ?_
    simp [Sched.step, hc, Sched.procStep, hy, Sched.callStep, hi, hq]
  · have h1 : Reach used ((s.setPlock ⟨i, hi⟩ (some c)).setProc B { s.procs B with pc := .wakeup chan i .test }) :=
      .step (.proc c .next) hs (by simp [Sched.step, hc, Sched.procStep, hy, Sched.callStep, hi, hq, hfree])
    have h2 : Reach used
        ((s.setPlock ⟨i, hi⟩ (some c)).setProc B { s.procs B with pc := .wakeup chan i .release }) := by
      refine .step (.proc c .next) h1 ?_
      simp [Sched.step, hc, Sched.procStep, hy, Sched.callStep, hi]
      -- the test wakes nobody
      rw [Function.update_of_ne hq, hawake _ hq]
      ext r
      · by_cases hr : r = ⟨i, hi⟩
        · subst hr
          simp [hq]
        · simp only [Sys.setProc_procs, Sys.setPlock_procs, Function.update_apply, hr, if_false]
          split_ifs <;> rfl
      · rfl
      · rfl
    refine .step (.proc c .next) h2 ?_
    simp [Sched.step, hc, Sched.procStep, hy, Sched.callStep, hi]
    ext q
    · rfl
    · rfl
    · by_cases hq' : q = ⟨i, hi⟩
      · subst hq'
        simp [hfree]
      · simp [hq']

/-- **A pass of `wakeup(chan)` runs to its end** over such a table, by
induction on the slots left. -/
theorem Reach.wakeup_pass (hc : s.cpus c = .run B) (hy : (s.procs B).yielding = none)
    (hfree : ∀ q, s.plock q = none) (hawake : ∀ q, q ≠ B → wake chan (s.procs q) = s.procs q) :
    ∀ k i, i + k = NPROC → Reach used (s.setProc B { s.procs B with pc := .wakeup chan i .acquire }) →
      Reach used (s.setProc B { s.procs B with pc := .wakeup chan NPROC .acquire }) := by
  intro k
  induction k with
  | zero =>
    intro i hi hs
    rw [Nat.add_zero] at hi
    rwa [← hi]
  | succ k ih =>
    intro i hi hs
    exact ih (i + 1) (by omega) (hs.wakeup_slot hc hy hfree hawake (by omega))

end Run

/-- Slot `0`. -/
def p0 : Fin NPROC := ⟨0, Nat.zero_lt_succ _⟩

/-- Slot `1`. -/
def p1 : Fin NPROC := ⟨1, Nat.succ_lt_succ (Nat.zero_lt_succ _)⟩

/-- CPU `0`. -/
def c0 : Fin NCPU := ⟨0, Nat.zero_lt_succ _⟩

/-- On CPU `0`: process `0` takes `lk` and sleeps on `chan`; process `1`
takes `lk` and calls `wakeup(chan)`, which wakes process `0` at slot `0`,
and is at slot `i` of its pass. -/
def wakeRun (i : Nat) : Sys Unit where
  procs p :=
    if p = p0 then
      { state := .runnable, chan := some (.obj 0), pc := .sleep (.obj 0) () .tidy, yielding := none, held := [] }
    else if p = p1 then
      { state := .running, chan := none, pc := .wakeup (.obj 0) i .acquire, yielding := none, held := [()] }
    else { state := .runnable, chan := none, pc := .forkret, yielding := none, held := [] }
  cpus c := if c = c0 then .run p1 else .scan 0
  plock _ := none

set_option maxRecDepth 4000 in
theorem reach_wakeRun : Reach (fun _ => true) (wakeRun NPROC) := by
  have r0 : Reach (fun _ => true) (Sys.init (fun _ => true) : Sys Unit) := Reach.init
  -- the scheduler switches to process `0`, which takes `lk` and sleeps
  have r1 := Reach.step (.sched c0) r0 rfl
  have r2 := Reach.step (.sched c0) r1 rfl
  have r3 := Reach.step (.proc c0 .next) r2 rfl
  have r4 := Reach.step (.proc c0 (.acquire ())) r3 rfl
  have r5 := Reach.step (.proc c0 (.sleep (.obj 0) ())) r4 rfl
  have r6 := Reach.step (.proc c0 .next) r5 rfl
  have r7 := Reach.step (.proc c0 .next) r6 rfl
  have r8 := Reach.step (.proc c0 .next) r7 rfl
  have r9 := Reach.step (.proc c0 .next) r8 rfl
  have r10 := Reach.step (.proc c0 .next) r9 rfl
  -- then to process `1`, which takes `lk` and wakes process `0`
  have r11 := Reach.step (.sched c0) r10 rfl
  have r12 := Reach.step (.sched c0) r11 rfl
  have r13 := Reach.step (.sched c0) r12 rfl
  have r14 := Reach.step (.proc c0 .next) r13 rfl
  have r15 := Reach.step (.proc c0 (.acquire ())) r14 rfl
  have r16 := Reach.step (.proc c0 (.wakeup (.obj 0))) r15 rfl
  have r17 := Reach.step (.proc c0 .next) r16 rfl
  have r18 := Reach.step (.proc c0 .next) r17 rfl
  have r19 := Reach.step (.proc c0 .next) r18 rfl
  have hr : Reach (fun _ => true) (wakeRun 1) := by
    convert r19 using 1
    refine Sys.ext ?_ ?_ ?_ <;> funext x <;> revert x <;> decide
  -- and passes the other slots
  have hset : ∀ i, (wakeRun 1).setProc p1 { (wakeRun 1).procs p1 with pc := .wakeup (.obj 0) i .acquire } =
      wakeRun i := fun i => by
    refine Sys.ext ?_ rfl rfl
    funext x
    by_cases hx : x = p1 <;> simp [wakeRun, Sys.setProc, hx, show p1 ≠ p0 by decide]
  have hawake : ∀ q, q ≠ p1 → wake (.obj 0) ((wakeRun 1).procs q) = (wakeRun 1).procs q := by decide
  have hpass := Reach.wakeup_pass (s := wakeRun 1) (c := c0) (B := p1) rfl rfl (fun _ => rfl) hawake
    (NPROC - 1) 1 (by decide) (by rw [hset]; exact hr)
  rwa [hset] at hpass

theorem no_lost_wakeup_run :
    ¬((wakeRun NPROC |>.procs p0).state = .sleeping ∧ (wakeRun NPROC |>.procs p0).chan = some (.obj 0)) :=
  (no_lost_wakeup reach_wakeRun (B := p1) rfl (by decide) p0 .tidy rfl).1

end Sched

end Mkros
