import Mathlib
/-!
# The process table `proc.c` — the model

`proc[NPROC]` and the CPUs' `c->proc`, stepped one lock-held section at a
time. A section is what runs between taking a lock and letting the last one
go: `fork` is three (up to `release(&np->lock)`, the write of `np->parent`
under `wait_lock`, the write of `np->state`), `exit` one (from
`acquire(&wait_lock)` on, through `sched()` into the scheduler, which lets
`p->lock` go), a pass of `wait`'s loop one, and `sleep`, `yield`, and the
scheduler switching a process in (with what the process does before it lets
`p->lock` go) one each. `wakeup` and `kill` are loops whose every pass takes
one process's lock; a pass is a section of its own. What else a process does
(`exec`, file descriptors, the page tables) is left out, with the data
only it reads; so is the name.

`pc` is where a process's kernel thread is between its sections, which its
saved `context` records in C: making calls, in `fork` with a child half set
up, or in `sleep`. `allocated` is a ghost: how many pids `allocpid` has
handed out.

`nextpid` is an `int`. `nextpid + 1` past `INT_MAX` is undefined in C; the
RV64 compiler emits `addw`, which wraps to 32 bits, and the model does that.
-/

namespace Mkros

namespace ProcTable

/-- `NPROC`. -/
def NPROC : Nat := 64

/-- `MAX_CPU`, the length of `cpus`. -/
def NCPU : Nat := 32

/-- `enum procstate`. -/
inductive Procstate
  | unused
  | used
  | sleeping
  | runnable
  | running
  | zombie
  deriving DecidableEq, Repr

/-- A non-zero `chan`: the address of a `struct proc`, on which `wait`
sleeps and `exit` wakes, or of another kernel object (`&log`, `&ticks`, a
`buf`, a pipe's counters, …). -/
inductive Chan
  | proc (p : Fin NPROC)
  | obj (a : Nat)
  deriving DecidableEq, Repr

/-- Where a process's kernel thread is between its sections. -/
inductive Pc
  /-- Running its own code, or able to make a call. -/
  | user
  /-- In `fork`, with `np` allocated and released, its parent not yet set. -/
  | forked (np : Fin NPROC)
  /-- In `fork`, with `np->parent` set, `np` not yet `RUNNABLE`. -/
  | parented (np : Fin NPROC)
  /-- In `sleep`, which clears `p->chan` when the process runs again. -/
  | slept
  deriving DecidableEq, Repr

/-- `struct proc`, less its lock and what only the left-out code reads. -/
structure Proc where
  state : Procstate
  chan : Option Chan
  killed : Bool
  xstate : Int
  pid : Int
  parent : Option (Fin NPROC)
  pc : Pc
  deriving DecidableEq, Repr

/-- The process table, each CPU's `c->proc`, `initproc` and `nextpid`. -/
structure Sys where
  proc : Fin NPROC → Proc
  cpus : Fin NCPU → Option (Fin NPROC)
  initproc : Option (Fin NPROC)
  nextpid : Int
  allocated : Nat

/-- One slot of the table rewritten. -/
def Sys.set (s : Sys) (p : Fin NPROC) (x : Proc) : Sys := { s with proc := Function.update s.proc p x }

/-- `c->proc = 0`: CPU `c` back in its scheduler. -/
def Sys.release (s : Sys) (c : Fin NCPU) : Sys := { s with cpus := Function.update s.cpus c none }

@[simp] theorem Sys.set_proc (s : Sys) (p : Fin NPROC) (x : Proc) :
    (s.set p x).proc = Function.update s.proc p x := rfl

@[simp] theorem Sys.set_cpus (s : Sys) (p : Fin NPROC) (x : Proc) : (s.set p x).cpus = s.cpus := rfl

@[simp] theorem Sys.set_initproc (s : Sys) (p : Fin NPROC) (x : Proc) :
    (s.set p x).initproc = s.initproc := rfl

@[simp] theorem Sys.set_nextpid (s : Sys) (p : Fin NPROC) (x : Proc) : (s.set p x).nextpid = s.nextpid := rfl

@[simp] theorem Sys.set_allocated (s : Sys) (p : Fin NPROC) (x : Proc) :
    (s.set p x).allocated = s.allocated := rfl

@[simp] theorem Sys.release_proc (s : Sys) (c : Fin NCPU) : (s.release c).proc = s.proc := rfl

@[simp] theorem Sys.release_cpus (s : Sys) (c : Fin NCPU) :
    (s.release c).cpus = Function.update s.cpus c none := rfl

@[simp] theorem Sys.release_initproc (s : Sys) (c : Fin NCPU) : (s.release c).initproc = s.initproc := rfl

@[simp] theorem Sys.release_nextpid (s : Sys) (c : Fin NCPU) : (s.release c).nextpid = s.nextpid := rfl

@[simp] theorem Sys.release_allocated (s : Sys) (c : Fin NCPU) : (s.release c).allocated = s.allocated := rfl

/-! ## Allocation and freeing -/

/-- `nextpid + 1` on an `int`, as `addw` computes it. -/
def intSucc (x : Int) : Int := (x + 1).bmod (2 ^ 32)

/-- `allocpid`: the pid, and `nextpid` one on. -/
def allocpid (s : Sys) : Int × Sys :=
  (s.nextpid, { s with nextpid := intSucc s.nextpid, allocated := s.allocated + 1 })

/-- `freeproc`: the fields it clears, and the slot `UNUSED`. -/
def freeproc (x : Proc) : Proc :=
  { x with pid := 0, parent := none, chan := none, killed := false, xstate := 0, state := .unused }

/-- The slot `allocproc`'s loop stops at: the first `UNUSED` one. -/
def firstUnused (s : Sys) : Option (Fin NPROC) :=
  (List.finRange NPROC).find? fun p => (s.proc p).state = .unused

/-- `allocproc` at `found:`: slot `p` with a fresh pid, `USED`, its context
set to start at `forkret`. -/
def allocFound (s : Sys) (p : Fin NPROC) : Sys :=
  let (pid, s) := allocpid s
  s.set p { s.proc p with pid := pid, state := .used, pc := .user }

/-- `allocproc`: the first `UNUSED` slot, set up. `ok` is whether `kalloc`
of the trapframe and `proc_pagetable` succeed; where they do not, the slot
is freed again and the pid is spent. -/
def allocproc (s : Sys) (ok : Bool) : Sys × Option (Fin NPROC) :=
  match firstUnused s with
  | none => (s, none)
  | some p =>
    let s := allocFound s p
    if ok then (s, some p) else (s.set p (freeproc (s.proc p)), none)

/-! ## The sections -/

/-- One pass of `wakeup`'s loop, at `q`, called from `self`. -/
def wakeOne (self : Option (Fin NPROC)) (chan : Option Chan) (q : Fin NPROC) (x : Proc) : Proc :=
  if some q ≠ self ∧ x.state = .sleeping ∧ x.chan = chan then { x with state := .runnable } else x

/-- `wakeup(chan)` called from `self`: every other process asleep on `chan`
becomes `RUNNABLE`. -/
def wakeup (s : Sys) (self : Option (Fin NPROC)) (chan : Option Chan) : Sys :=
  { s with proc := fun q => wakeOne self chan q (s.proc q) }

/-- The scheduler on CPU `c` switches to `p`, which it found `RUNNABLE`; `p`
goes on where it stopped, and back from `sleep` it clears `p->chan` first. -/
def scheduler (s : Sys) (c : Fin NCPU) (p : Fin NPROC) : Sys :=
  let x := { s.proc p with state := .running }
  let x := if x.pc = .slept then { x with chan := none, pc := .user } else x
  { s.set p x with cpus := Function.update s.cpus c (some p) }

/-- `yield` of `p` on CPU `c`. -/
def yield (s : Sys) (c : Fin NCPU) (p : Fin NPROC) : Sys :=
  (s.set p { s.proc p with state := .runnable }).release c

/-- `sleep(chan, lk)` of `p` on CPU `c`, up to the switch to the scheduler. -/
def sleep (s : Sys) (c : Fin NCPU) (p : Fin NPROC) (chan : Chan) : Sys :=
  (s.set p { s.proc p with chan := some chan, state := .sleeping, pc := .slept }).release c

/-- `fork` by `p` up to `release(&np->lock)`: `allocproc`, then `uvmcopy`,
which succeeds if `copyOk`; where either fails, `fork` returns `-1`. -/
def forkAlloc (s : Sys) (p : Fin NPROC) (allocOk copyOk : Bool) : Sys :=
  match allocproc s allocOk with
  | (s, none) => s
  | (s, some np) =>
    if copyOk then s.set p { s.proc p with pc := .forked np } else s.set np (freeproc (s.proc np))

/-- `np->parent = p`, under `wait_lock`. -/
def forkParent (s : Sys) (p np : Fin NPROC) : Sys :=
  let s := s.set np { s.proc np with parent := some p }
  s.set p { s.proc p with pc := .parented np }

/-- `np->state = RUNNABLE`, under `np->lock`; `fork` returns. -/
def forkRunnable (s : Sys) (p np : Fin NPROC) : Sys :=
  let s := s.set np { s.proc np with state := .runnable }
  s.set p { s.proc p with pc := .user }

/-- Whether `p` has a child. -/
def hasChild (s : Sys) (p : Fin NPROC) : Bool := (List.finRange NPROC).any fun q => (s.proc q).parent = some p

/-- `pp->parent = initproc` for every child `pp` of `p`. -/
def handOver (s : Sys) (p : Fin NPROC) : Sys :=
  { s with proc := fun q =>
      if (s.proc q).parent = some p then { s.proc q with parent := s.initproc } else s.proc q }

/-- `reparent(p)`: `p`'s children to `initproc`, with `wakeup(initproc)`
after each. The wakeups find the same processes asleep, so one after the
loop does what they do. -/
def reparent (s : Sys) (p : Fin NPROC) : Sys :=
  if hasChild s p then wakeup (handOver s p) (some p) (s.initproc.map .proc) else handOver s p

/-- `exit(status)` of `p` on CPU `c`, from `acquire(&wait_lock)` on: the
children to `initproc`, `wakeup(p->parent)`, `ZOMBIE`, and the switch to the
scheduler. `none` is `panic("init exiting")`. -/
def exit (s : Sys) (c : Fin NCPU) (p : Fin NPROC) (status : Int) : Option Sys :=
  if s.initproc = some p then none
  else
    let s := reparent s p
    let s := wakeup s (some p) ((s.proc p).parent.map .proc)
    some ((s.set p { s.proc p with xstate := status, state := .zombie }).release c)

/-- The child `wait`'s scan stops at: the first `ZOMBIE` one. -/
def zombieChild (s : Sys) (p : Fin NPROC) : Option (Fin NPROC) :=
  (List.finRange NPROC).find? fun q => (s.proc q).parent = some p ∧ (s.proc q).state = .zombie

/-- One pass of `wait`'s loop by `p` on CPU `c`, holding `wait_lock`: free
the first `ZOMBIE` child, unless `copyout` of its status fails (`copyOk`);
with no child, or killed, return `-1`; else sleep on `p`. -/
def wait (s : Sys) (c : Fin NCPU) (p : Fin NPROC) (copyOk : Bool) : Sys :=
  match zombieChild s p with
  | some q => if copyOk then s.set q (freeproc (s.proc q)) else s
  | none => if !hasChild s p || (s.proc p).killed then s else sleep s c p (.proc p)

/-- One pass of `kill(pid)`'s loop, at `q`. -/
def kill (s : Sys) (q : Fin NPROC) (pid : Int) : Sys :=
  if (s.proc q).pid = pid then
    s.set q { s.proc q with
      killed := true
      -- Wake process from sleep().
      state := if (s.proc q).state = .sleeping then .runnable else (s.proc q).state }
  else s

/-- `kill(pid)`'s loop over the slots `qs`: the first slot whose pid is
`pid` is killed and `kill` returns `0`; past the last slot, `-1`. -/
def killLoop (pid : Int) : List (Fin NPROC) → Sys → Sys × Int
  | [], s => (s, -1)
  | q :: qs, s => if (s.proc q).pid = pid then (kill s q pid, 0) else killLoop pid qs s

/-- `sys_kill`: the whole of `kill(pid)`, as one call. -/
def sysKill (s : Sys) (pid : Int) : Sys × Int := killLoop pid (List.finRange NPROC) s

/-! ## Runs -/

/-- `procinit` over the zeroed table. -/
def procinit : Sys :=
  ⟨fun _ => ⟨.unused, none, false, 0, 0, none, .user⟩, fun _ => none, none, 1, 0⟩

/-- `userinit`: the first process, `RUNNABLE`, is `initproc`. -/
def userinit (s : Sys) : Sys :=
  match allocproc s true with
  | (s, some p) => { s.set p { s.proc p with state := .runnable } with initproc := some p }
  | (s, none) => s

/-- The process on CPU `c` where it can make a call. -/
def Sys.caller (s : Sys) (c : Fin NCPU) : Option (Fin NPROC) :=
  (s.cpus c).filter fun p => (s.proc p).pc = .user

/-- What runs next, on a CPU or from anywhere. -/
inductive Call
  /-- The scheduler on `c` switches to `p`. -/
  | scheduler (c : Fin NCPU) (p : Fin NPROC)
  /-- The process on `c` calls `fork`. -/
  | fork (c : Fin NCPU) (allocOk copyOk : Bool)
  /-- The process on `c`, in `fork`, sets the child's parent. -/
  | forkParent (c : Fin NCPU)
  /-- The process on `c`, in `fork`, makes the child `RUNNABLE`. -/
  | forkRunnable (c : Fin NCPU)
  /-- The process on `c` calls `exit`. -/
  | exit (c : Fin NCPU) (status : Int)
  /-- The process on `c` makes a pass of `wait`'s loop. -/
  | wait (c : Fin NCPU) (copyOk : Bool)
  /-- The process on `c` sleeps on another kernel object. -/
  | sleep (c : Fin NCPU) (a : Nat)
  /-- The process on `c` yields, also in the kernel, on a timer interrupt. -/
  | yield (c : Fin NCPU)
  /-- A pass of `kill(pid)`'s loop, at `q`. -/
  | kill (q : Fin NPROC) (pid : Int)
  /-- A pass of `wakeup(chan)`'s loop, at `q`, from CPU `c`. -/
  | wakeup (c : Fin NCPU) (chan : Option Chan) (q : Fin NPROC)

/-- One section; `none` where it cannot run. -/
def step (s : Sys) : Call → Option Sys
  | .scheduler c p =>
    if s.cpus c = none ∧ (s.proc p).state = .runnable then some (scheduler s c p) else none
  | .fork c allocOk copyOk => (s.caller c).map fun p => forkAlloc s p allocOk copyOk
  | .forkParent c =>
    (s.cpus c).bind fun p =>
      match (s.proc p).pc with
      | .forked np => some (forkParent s p np)
      | _ => none
  | .forkRunnable c =>
    (s.cpus c).bind fun p =>
      match (s.proc p).pc with
      | .parented np => some (forkRunnable s p np)
      | _ => none
  | .exit c status => (s.caller c).bind fun p => exit s c p status
  | .wait c copyOk => (s.caller c).map fun p => wait s c p copyOk
  | .sleep c a => (s.caller c).map fun p => sleep s c p (.obj a)
  | .yield c => (s.cpus c).map fun p => yield s c p
  | .kill q pid => some (kill s q pid)
  | .wakeup c chan q => some (s.set q (wakeOne (s.cpus c) chan q (s.proc q)))

/-- The table after `procinit` and `userinit`, no CPU running a process. -/
def Sys.init : Sys := userinit procinit

/-- The states any interleaving of sections reaches. -/
inductive Reach : Sys → Prop
  | init : Reach .init
  | step {s s' : Sys} (c : Call) : Reach s → step s c = some s' → Reach s'

end ProcTable

end Mkros
