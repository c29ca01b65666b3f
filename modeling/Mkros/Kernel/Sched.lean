import Mkros.Kernel.Proc
/-!
# `sleep`, `wakeup` and the scheduler `proc.c`, one lock operation at a time

`sleep`, `wakeup`, `sched`, `yield`, `forkret` and `scheduler`, stepped
statement by statement, each `acquire` and `release` of a spinlock
(`spinlock.c`) one atomic step. `acquire` of a lock held elsewhere spins and
of one the CPU holds panics, `release` of one it does not hold panics: either
way the step is not taken. A process's kernel thread runs on the CPU whose
`c->proc` it is (`Cpu.run`); `swtch` hands the CPU between it and the CPU's
scheduler thread, which is at one of the points of its loop.

`p->lock` is held by a CPU, as `lk->cpu` records: `sleep` and `yield` take
it on one CPU and that CPU's scheduler lets it go, and a scheduler takes it
and the process it switches to lets it go. The other spinlocks (`sleep`'s
`lk`, of any type `κ`) are held by processes: a process holding one never
gives up its CPU, since `sched` panics unless `p->lock` is the only lock its
CPU holds (`noff == 1`). So `held` is what the CPU's `noff` counts beyond
`p->lock`, and a lock is free when no process holds it.

A timer interrupt sends the running process into `yield` (`kerneltrap` and
`usertrap`, in a `RUNNING` process), only while its CPU holds no spinlock,
since `acquire` turns interrupts off until the matching `release`. The rest
of the kernel is left out: the table's slots are set up at the start, each
used one `RUNNABLE` at `forkret`, and what a process does between calls is
to take and let go of spinlocks and to call `sleep` and `wakeup`.
-/

namespace Mkros

namespace Sched

open ProcTable

/-- Where `sleep(chan, lk)` is: before the statement named. -/
inductive SleepPc
  /-- `acquire(&p->lock)`. -/
  | acquire
  /-- `release(lk)`. -/
  | release
  /-- `p->chan = chan`. -/
  | chan
  /-- `p->state = SLEEPING`. -/
  | state
  /-- `sched()`. -/
  | sched
  /-- `p->chan = 0`, back from `sched`. -/
  | tidy
  /-- `release(&p->lock)`. -/
  | unlock
  /-- `acquire(lk)`. -/
  | relock
  deriving DecidableEq, Repr

/-- Where the pass of `wakeup`'s loop over `proc[i]` is. -/
inductive WakeupPc
  /-- `if (p != this_proc()) acquire(&p->lock)`. -/
  | acquire
  /-- `if (p->state == SLEEPING && p->chan == chan) p->state = RUNNABLE`. -/
  | test
  /-- `release(&p->lock)`. -/
  | release
  deriving DecidableEq, Repr

/-- Where a process's kernel thread is. -/
inductive Pc (κ : Type)
  /-- Between calls. -/
  | user
  /-- In `sleep(chan, lk)`. -/
  | sleep (chan : Chan) (lk : κ) (next : SleepPc)
  /-- In `wakeup(chan)`, at the pass over `proc[i]`; at `i = NPROC` the
  loop is over and the call returns. -/
  | wakeup (chan : Chan) (i : Nat) (next : WakeupPc)
  /-- At `forkret`, where a new process first runs. -/
  | forkret
  deriving DecidableEq, Repr

/-- Where `yield` is, in a process a timer interrupt sent into it. -/
inductive YieldPc
  /-- `acquire(&p->lock)`. -/
  | acquire
  /-- `p->state = RUNNABLE; sched()`. -/
  | sched
  /-- `release(&p->lock)`, back from `sched`. -/
  | release
  deriving DecidableEq, Repr

/-- `struct proc`, as far as these functions read it. -/
structure Proc (κ : Type) where
  state : Procstate
  chan : Option Chan
  pc : Pc κ
  /-- In `yield`, on top of `pc`. -/
  yielding : Option YieldPc
  /-- The spinlocks other than `p->lock` it holds. -/
  held : List κ
  deriving DecidableEq, Repr

/-- A CPU: its scheduler thread's place in `scheduler`'s loop, or the
process it runs. -/
inductive Cpu
  /-- At `acquire(&proc[i].lock)`; at `i = NPROC` the `for (;;)` starts the
  loop again. -/
  | scan (i : Nat)
  /-- Holding `p->lock`, at `if (p->state == RUNNABLE)`. -/
  | check (p : Fin NPROC)
  /-- `c->proc = p`, switched to `p`. -/
  | run (p : Fin NPROC)
  /-- Back from `p` (`c->proc = 0`), or `p` not `RUNNABLE`: at
  `release(&p->lock)`. -/
  | back (p : Fin NPROC)
  deriving DecidableEq, Repr

/-- The process table, the CPUs, and the CPU holding each `p->lock`. -/
structure Sys (κ : Type) where
  procs : Fin NPROC → Proc κ
  cpus : Fin NCPU → Cpu
  plock : Fin NPROC → Option (Fin NCPU)

/-- A call a process between calls makes, or its next statement. -/
inductive Act (κ : Type)
  /-- The next statement of the call it is in. -/
  | next
  | acquire (lk : κ)
  | release (lk : κ)
  | sleep (chan : Chan) (lk : κ)
  | wakeup (chan : Chan)
  /-- A timer interrupt. -/
  | yield

/-- Who moves: CPU `c`'s scheduler thread, or the process it runs. -/
inductive Move (κ : Type)
  | sched (c : Fin NCPU)
  | proc (c : Fin NCPU) (a : Act κ)

variable {κ : Type}

/-- One slot of the table rewritten. -/
def Sys.setProc (s : Sys κ) (p : Fin NPROC) (x : Proc κ) : Sys κ :=
  { s with procs := Function.update s.procs p x }

/-- One CPU moved. -/
def Sys.setCpu (s : Sys κ) (c : Fin NCPU) (v : Cpu) : Sys κ :=
  { s with cpus := Function.update s.cpus c v }

/-- One `p->lock` taken or let go. -/
def Sys.setPlock (s : Sys κ) (q : Fin NPROC) (v : Option (Fin NCPU)) : Sys κ :=
  { s with plock := Function.update s.plock q v }

@[simp] theorem Sys.setProc_procs (s : Sys κ) (p : Fin NPROC) (x : Proc κ) :
    (s.setProc p x).procs = Function.update s.procs p x := rfl

@[simp] theorem Sys.setProc_cpus (s : Sys κ) (p : Fin NPROC) (x : Proc κ) :
    (s.setProc p x).cpus = s.cpus := rfl

@[simp] theorem Sys.setProc_plock (s : Sys κ) (p : Fin NPROC) (x : Proc κ) :
    (s.setProc p x).plock = s.plock := rfl

@[simp] theorem Sys.setCpu_procs (s : Sys κ) (c : Fin NCPU) (v : Cpu) : (s.setCpu c v).procs = s.procs := rfl

@[simp] theorem Sys.setCpu_cpus (s : Sys κ) (c : Fin NCPU) (v : Cpu) :
    (s.setCpu c v).cpus = Function.update s.cpus c v := rfl

@[simp] theorem Sys.setCpu_plock (s : Sys κ) (c : Fin NCPU) (v : Cpu) : (s.setCpu c v).plock = s.plock := rfl

@[simp] theorem Sys.setPlock_procs (s : Sys κ) (q : Fin NPROC) (v : Option (Fin NCPU)) :
    (s.setPlock q v).procs = s.procs := rfl

@[simp] theorem Sys.setPlock_cpus (s : Sys κ) (q : Fin NPROC) (v : Option (Fin NCPU)) :
    (s.setPlock q v).cpus = s.cpus := rfl

@[simp] theorem Sys.setPlock_plock (s : Sys κ) (q : Fin NPROC) (v : Option (Fin NCPU)) :
    (s.setPlock q v).plock = Function.update s.plock q v := rfl

variable [DecidableEq κ]

/-- `lk` is free: no process holds it. -/
def Sys.free (s : Sys κ) (lk : κ) : Prop := ∀ q, lk ∉ (s.procs q).held

instance (s : Sys κ) (lk : κ) : Decidable (s.free lk) :=
  inferInstanceAs (Decidable (∀ q, lk ∉ (s.procs q).held))

/-- One step of `scheduler()` on CPU `c`. -/
def schedulerStep (s : Sys κ) (c : Fin NCPU) : Option (Sys κ) :=
  match s.cpus c with
  | .scan i =>
    if h : i < NPROC then
      if s.plock ⟨i, h⟩ = none then some ((s.setPlock ⟨i, h⟩ (some c)).setCpu c (.check ⟨i, h⟩))
      else none
    else some (s.setCpu c (.scan 0))
  | .check p =>
    -- `p->state = RUNNING; c->proc = p; swtch(&c->context, &p->context)`
    if (s.procs p).state = .runnable then
      some ((s.setProc p { s.procs p with state := .running }).setCpu c (.run p))
    else some (s.setCpu c (.back p))
  | .back p =>
    if s.plock p = some c then some ((s.setPlock p none).setCpu c (.scan (p.val + 1))) else none
  | .run _ => none

/-- `sched()` from process `p` on CPU `c`, its record now `x`: the checks
(`p->lock` held, no other lock, not `RUNNING`), then `swtch` to the
scheduler, which is at `release(&p->lock)` when it runs again. -/
def sched (s : Sys κ) (c : Fin NCPU) (p : Fin NPROC) (x : Proc κ) : Option (Sys κ) :=
  if s.plock p = some c ∧ x.held = [] ∧ x.state ≠ .running then some ((s.setProc p x).setCpu c (.back p))
  else none

/-- `if (p->state == SLEEPING && p->chan == chan) p->state = RUNNABLE`. -/
def wake (chan : Chan) (y : Proc κ) : Proc κ :=
  if y.state = .sleeping ∧ y.chan = some chan then { y with state := .runnable } else y

/-- Process `p`, with record `x` and running on CPU `c`, at `pc`: the next
statement of the call it is in, or the call `a` it makes. -/
def callStep (s : Sys κ) (c : Fin NCPU) (p : Fin NPROC) (x : Proc κ) : Pc κ → Act κ → Option (Sys κ)
  | .user, .acquire lk => if s.free lk then some (s.setProc p { x with held := lk :: x.held }) else none
  | .user, .release lk => if lk ∈ x.held then some (s.setProc p { x with held := x.held.erase lk }) else none
  | .user, .sleep chan lk => some (s.setProc p { x with pc := .sleep chan lk .acquire })
  | .user, .wakeup chan => some (s.setProc p { x with pc := .wakeup chan 0 .acquire })
  | .sleep chan lk .acquire, .next =>
    if s.plock p = none then some ((s.setPlock p (some c)).setProc p { x with pc := .sleep chan lk .release })
    else none
  | .sleep chan lk .release, .next =>
    if lk ∈ x.held then some (s.setProc p { x with held := x.held.erase lk, pc := .sleep chan lk .chan })
    else none
  | .sleep chan lk .chan, .next => some (s.setProc p { x with chan := some chan, pc := .sleep chan lk .state })
  | .sleep chan lk .state, .next => some (s.setProc p { x with state := .sleeping, pc := .sleep chan lk .sched })
  | .sleep chan lk .sched, .next => sched s c p { x with pc := .sleep chan lk .tidy }
  | .sleep chan lk .tidy, .next => some (s.setProc p { x with chan := none, pc := .sleep chan lk .unlock })
  | .sleep chan lk .unlock, .next =>
    if s.plock p = some c then some ((s.setPlock p none).setProc p { x with pc := .sleep chan lk .relock })
    else none
  | .sleep _ lk .relock, .next =>
    if s.free lk then some (s.setProc p { x with held := lk :: x.held, pc := .user }) else none
  | .wakeup chan i .acquire, .next =>
    if h : i < NPROC then
      if (⟨i, h⟩ : Fin NPROC) = p then some (s.setProc p { x with pc := .wakeup chan (i + 1) .acquire })
      else if s.plock ⟨i, h⟩ = none then
        some ((s.setPlock ⟨i, h⟩ (some c)).setProc p { x with pc := .wakeup chan i .test })
      else none
    else some (s.setProc p { x with pc := .user })
  | .wakeup chan i .test, .next =>
    if h : i < NPROC then
      some ((s.setProc ⟨i, h⟩ (wake chan (s.procs ⟨i, h⟩))).setProc p { x with pc := .wakeup chan i .release })
    else none
  | .wakeup chan i .release, .next =>
    if h : i < NPROC then
      if s.plock ⟨i, h⟩ = some c then
        some ((s.setPlock ⟨i, h⟩ none).setProc p { x with pc := .wakeup chan (i + 1) .acquire })
      else none
    else none
  -- `release(&p->lock)`, then `usertrapret()`
  | .forkret, .next =>
    if s.plock p = some c then some ((s.setPlock p none).setProc p { x with pc := .user }) else none
  | _, _ => none

/-- What process `p`, running on CPU `c`, does: the next statement of
`yield` if it is in it, else of its call. -/
def procStep (s : Sys κ) (c : Fin NCPU) (p : Fin NPROC) (a : Act κ) : Option (Sys κ) :=
  let x := s.procs p
  match x.yielding, a with
  | some .acquire, .next =>
    if s.plock p = none then some ((s.setPlock p (some c)).setProc p { x with yielding := some .sched })
    else none
  | some .sched, .next => sched s c p { x with state := .runnable, yielding := some .release }
  | some .release, .next =>
    if s.plock p = some c then some ((s.setPlock p none).setProc p { x with yielding := none }) else none
  | none, .yield =>
    if x.state = .running ∧ x.held = [] ∧ ∀ q, s.plock q ≠ some c then
      some (s.setProc p { x with yielding := some .acquire })
    else none
  | none, a => callStep s c p x x.pc a
  | some _, _ => none

/-- One step of the machine. -/
def step (s : Sys κ) : Move κ → Option (Sys κ)
  | .sched c => schedulerStep s c
  | .proc c a =>
    match s.cpus c with
    | .run p => procStep s c p a
    | _ => none

/-- The machine after boot: the `used` slots `RUNNABLE` at `forkret`, every
CPU at the top of its scheduler loop, no lock held. -/
def Sys.init (used : Fin NPROC → Bool) : Sys κ where
  procs p := { state := if used p then .runnable else .unused, chan := none, pc := .forkret,
               yielding := none, held := [] }
  cpus _ := .scan 0
  plock _ := none

/-- The states a run from boot reaches. -/
inductive Reach (used : Fin NPROC → Bool) : Sys κ → Prop
  | init : Reach used (Sys.init used)
  | step {s s' : Sys κ} (m : Move κ) : Reach used s → step s m = some s' → Reach used s'

end Sched

end Mkros
