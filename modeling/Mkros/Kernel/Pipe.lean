import Mkros.Lib.CircBuf
/-!
# Pipes `pipe.c` — the model

A pipe is `PIPESIZE` bytes of `data` and two `uint` counters that only go
up: `pipewrite` stores at `nwrite % PIPESIZE` and `piperead` takes from
`nread % PIPESIZE`. Both work under `pi->lock`, which `sleep` gives up: a
writer sleeps while the pipe is full and a reader while it is empty with the
write end open. So each call is a run of lock-held stretches, each ending in
a return or a sleep; `pipewrite` and `piperead` are those stretches, and a
sleeping process takes up its stretch again where it left off.

`copyin` and `copyout` may fail on the caller's address: `src i` is the byte
`copyin` reads at `addr + i` (`none` where it fails) and `dst i` whether
`copyout` to `addr + i` succeeds. `killed i` is what `killed(pr)` reads at
byte `i`. The model makes no promise about when a sleeper runs again: any
sleeper may take up its stretch at any time, as after any `wakeup`, and the
loops test their conditions afresh.

The system (`Sys`) is one pipe and any number of processes, with what the
pipe has stored and handed out so far; the callers reach the pipe through
its two files, so a call is made on an end only while that end is open, and
an end is closed only when no call on it is under way (`Call.Allowed`).
-/

namespace Mkros

namespace Pipes

open CircBuf

/-- `PIPESIZE`. -/
def PIPESIZE : Nat := 512

/-- `struct pipe`, less its lock. -/
structure Pipe where
  data : Nat → UInt8
  nread : UInt32
  nwrite : UInt32
  readopen : Bool
  writeopen : Bool

/-- `pi->data[pi->nwrite++ % PIPESIZE] = ch`. -/
def Pipe.store (pi : Pipe) (ch : UInt8) : Pipe :=
  { pi with
    data := Function.update pi.data (pi.nwrite % PIPESIZE.toUInt32).toNat ch
    nwrite := pi.nwrite + 1 }

/-- `ch = pi->data[pi->nread++ % PIPESIZE]`. -/
def Pipe.take (pi : Pipe) : UInt8 × Pipe :=
  (pi.data (pi.nread % PIPESIZE.toUInt32).toNat, { pi with nread := pi.nread + 1 })

/-- `pipealloc`, on the page `kalloc` gave: both ends open, nothing written. -/
def pipealloc (page : Nat → UInt8) : Pipe := ⟨page, 0, 0, true, true⟩

/-- `pipeclose`: the pipe with one end closed, and whether its page is
freed, which it is once both ends are closed. -/
def pipeclose (pi : Pipe) (writable : Bool) : Pipe × Bool :=
  let pi := if writable then { pi with writeopen := false } else { pi with readopen := false }
  (pi, pi.readopen = false ∧ pi.writeopen = false)

/-- How one lock-held stretch of a call ends: the call returns `r`, or the
process sleeps, to go on from byte `i` when it runs again. -/
inductive Ends
  | ret (r : Int)
  | sleep (i : Nat)
  deriving DecidableEq, Repr

/-- The loop of `pipewrite` from byte `i`, for at most `fuel` rounds of the
lock-held stretch; also the bytes it stored, in order. -/
def writeLoop (src : Nat → Option UInt8) (n : Int) (killed : Nat → Bool) :
    Nat → Pipe → Nat → Pipe × List UInt8 × Ends
  | 0, pi, i => (pi, [], .ret i)
  | fuel + 1, pi, i =>
    if (i : Int) < n then
      if !pi.readopen || killed i then (pi, [], .ret (-1))
      -- DOC: pipewrite-full: `wakeup(&pi->nread)`, then sleep
      else if pi.nwrite = pi.nread + PIPESIZE.toUInt32 then (pi, [], .sleep i)
      else match src i with
        | none => (pi, [], .ret i)
        | some ch =>
          let (pi, stored, e) := writeLoop src n killed fuel (pi.store ch) (i + 1)
          (pi, ch :: stored, e)
    else (pi, [], .ret i)

/-- A stretch of `pipewrite` from byte `i`: a round stores a byte or ends
the stretch, so `n + 1` rounds are enough. -/
def pipewrite (pi : Pipe) (src : Nat → Option UInt8) (n : Int) (killed : Nat → Bool) (i : Nat) :
    Pipe × List UInt8 × Ends :=
  writeLoop src n killed (n.toNat + 1) pi i

/-- The copy loop of `piperead` from byte `i`, for at most `fuel` rounds;
also the bytes it took, in order. A byte whose `copyout` fails has been
taken: it is the last one, and `i` does not count it. -/
def readCopy (dst : Nat → Bool) (n : Int) : Nat → Pipe → Nat → Pipe × List UInt8 × Nat
  | 0, pi, i => (pi, [], i)
  | fuel + 1, pi, i =>
    if (i : Int) < n then
      if pi.nread = pi.nwrite then (pi, [], i)
      else
        let (ch, pi) := pi.take
        if dst i then
          let (pi, took, r) := readCopy dst n fuel pi (i + 1)
          (pi, ch :: took, r)
        else (pi, [ch], i)
    else (pi, [], i)

/-- A lock-held stretch of `piperead`: it sleeps while the pipe is empty and
the write end open, else copies up to `n` bytes. -/
def piperead (pi : Pipe) (dst : Nat → Bool) (n : Int) (killed : Bool) : Pipe × List UInt8 × Ends :=
  -- DOC: pipe-empty
  if pi.nread = pi.nwrite ∧ pi.writeopen = true then
    if killed then (pi, [], .ret (-1)) else (pi, [], .sleep 0)
  else
    let (pi, took, i) := readCopy dst n (n.toNat + 1) pi 0
    (pi, took, .ret i)

/-! ## Processes on one pipe -/

/-- Where a process is: outside the pipe's calls, or asleep in one. -/
inductive Proc
  | idle
  | writing (src : Nat → Option UInt8) (n : Int) (i : Nat)
  | reading (dst : Nat → Bool) (n : Int)

/-- Asleep in `pipewrite`. -/
def Proc.isWriting : Proc → Bool
  | .writing .. => true
  | _ => false

/-- Asleep in `piperead`. -/
def Proc.isReading : Proc → Bool
  | .reading .. => true
  | _ => false

/-- One pipe and its processes, with every byte `pipewrite` stored, every
byte `piperead` took, those it copied out and those a failed `copyout`
lost, in order, and how often the pipe's page was freed. -/
structure Sys (τ : Type) where
  pipe : Pipe
  procs : τ → Proc
  stored : List UInt8
  took : List UInt8
  delivered : List UInt8
  lost : List UInt8
  frees : Nat

/-- What a process does next. -/
inductive Call (τ : Type)
  /-- Enter `pipewrite`. -/
  | write (p : τ) (src : Nat → Option UInt8) (n : Int) (killed : Nat → Bool)
  /-- Enter `piperead`. -/
  | read (p : τ) (dst : Nat → Bool) (n : Int) (killed : Bool)
  /-- Run again after `sleep`. -/
  | wake (p : τ) (killed : Nat → Bool)
  /-- `fileclose` of the last reference to one end. -/
  | close (writable : Bool)

variable {τ : Type}

/-- A call is made on an end only while it is open, and the last reference
to an end goes only when no call on it is under way. -/
def Call.Allowed (s : Sys τ) : Call τ → Prop
  | .write .. => s.pipe.writeopen = true
  | .read .. => s.pipe.readopen = true
  | .wake _ _ => True
  | .close true => s.pipe.writeopen = true ∧ ∀ p, (s.procs p).isWriting = false
  | .close false => s.pipe.readopen = true ∧ ∀ p, (s.procs p).isReading = false

section Step

variable [DecidableEq τ]

/-- Process `p` runs a stretch of `pipewrite` from byte `i`. -/
def Sys.runWrite (s : Sys τ) (p : τ) (src : Nat → Option UInt8) (n : Int) (killed : Nat → Bool)
    (i : Nat) : Sys τ :=
  let (pi, stored, e) := pipewrite s.pipe src n killed i
  { s with
    pipe := pi
    stored := s.stored ++ stored
    procs := Function.update s.procs p (match e with | .ret _ => .idle | .sleep i => .writing src n i) }

/-- Process `p` runs a stretch of `piperead`: what it returns counts the
bytes copied out, the first ones it took. -/
def Sys.runRead (s : Sys τ) (p : τ) (dst : Nat → Bool) (n : Int) (killed : Bool) : Sys τ :=
  let (pi, took, e) := piperead s.pipe dst n killed
  let copied := match e with | .ret r => r.toNat | .sleep _ => 0
  { s with
    pipe := pi
    took := s.took ++ took
    delivered := s.delivered ++ took.take copied
    lost := s.lost ++ took.drop copied
    procs := Function.update s.procs p (match e with | .ret _ => .idle | .sleep _ => .reading dst n) }

/-- `pipeclose` of one end, and `kfree` of the page when it says so. -/
def Sys.close (s : Sys τ) (writable : Bool) : Sys τ :=
  let (pi, free) := pipeclose s.pipe writable
  { s with pipe := pi, frees := if free then s.frees + 1 else s.frees }

/-- One call; `none` where the process is not where the call starts. -/
def step (s : Sys τ) : Call τ → Option (Sys τ)
  | .write p src n killed =>
    match s.procs p with
    | .idle => some (s.runWrite p src n killed 0)
    | _ => none
  | .read p dst n killed =>
    match s.procs p with
    | .idle => some (s.runRead p dst n killed)
    | _ => none
  | .wake p killed =>
    match s.procs p with
    | .writing src n i => some (s.runWrite p src n killed i)
    | .reading dst n => some (s.runRead p dst n (killed 0))
    | .idle => none
  | .close writable => some (s.close writable)

/-- A fresh pipe on the page `kalloc` gave, with no process in a call. -/
def Sys.init (page : Nat → UInt8) : Sys τ := ⟨pipealloc page, fun _ => .idle, [], [], [], [], 0⟩

/-- The states any interleaving of allowed calls reaches from a fresh pipe. -/
inductive Reach (page : Nat → UInt8) : Sys τ → Prop
  | init : Reach page (.init page)
  | step {s s' : Sys τ} (c : Call τ) : Reach page s → c.Allowed s → step s c = some s' →
      Reach page s'

end Step

end Pipes

end Mkros
