import Mkros.Lib.CircBuf
/-!
# The console's input `console.c` — the model

Input arrives a byte at a time in `console_intr`, under `cons.lock`, into
the `INPUT_BUF_SIZE` bytes of `cons.buf`, through three `uint` counters that
only go up, and wrap: `cons.r` is the next byte `console_read` takes,
`cons.w` the end of the input committed to readers, `cons.e` the end of the
line being edited. The erase keys move `e` back; a newline, `^D` or a full
buffer commits the line, `w = e`.

`console_read` runs under the same lock, which `sleep` gives up while no
committed byte is there, so a call is a run of lock-held stretches, each
ending in a return or a sleep; `consoleRead` is one stretch, and a sleeping
process takes up its stretch again where it left off. As for pipes,
`dst i` is whether `either_copyout` of byte `i` succeeds and `killed` what
`killed()` reads; any sleeper may run again at any time, as after any
`wakeup`.

What `console_putchar` sends the uart is kept, `BACKSPACE` for an erase.
`procdump` for `^P` prints the process table, and is not modelled.
-/

namespace Mkros

namespace Console

open CircBuf

/-- `INPUT_BUF_SIZE`. -/
def INPUT_BUF_SIZE : Nat := 128

/-- `BACKSPACE`, which `console_putchar` sends as `\b \b`. -/
def BACKSPACE : Nat := 0x100

/-- A character as the byte a `char` holds. -/
def byte (c : Char) : UInt8 := c.toNat.toUInt8

/-- `C(x)`: control-`x`. -/
def C (x : Char) : UInt8 := byte x - byte '@'

/-- `cons`, less its lock. -/
structure Cons where
  buf : Nat → UInt8
  r : UInt32
  w : UInt32
  e : UInt32

/-- The cell of `buf` a counter names. -/
def slot (x : UInt32) : Nat := (x % INPUT_BUF_SIZE.toUInt32).toNat

/-! ## `console_intr` -/

/-- The `^U` loop, `while (cons.e != cons.w && cons.buf[(cons.e - 1) % INPUT_BUF_SIZE] != '\n')`,
for at most `fuel` passes; also what it echoes. Each pass moves `e` one
closer to `w`, so `e - w` passes suffice. -/
def killLine : Nat → Cons → Cons × List Nat
  | 0, cons => (cons, [])
  | fuel + 1, cons =>
    if cons.e ≠ cons.w ∧ cons.buf (slot (cons.e - 1)) ≠ byte '\n' then
      let (cons, echo) := killLine fuel { cons with e := cons.e - 1 }
      (cons, BACKSPACE :: echo)
    else (cons, [])

/-- `console_intr(c)`: `cons` after it, and what it echoes. -/
def consoleIntr (cons : Cons) (c : UInt8) : Cons × List Nat :=
  -- `procdump()`
  if c = C 'P' then (cons, [])
  else if c = C 'U' then killLine (cons.e - cons.w).toNat cons
  else if c = C 'H' ∨ c = 0x7f then
    if cons.e ≠ cons.w then ({ cons with e := cons.e - 1 }, [BACKSPACE]) else (cons, [])
  else if c ≠ 0 ∧ (cons.e - cons.r).toNat < INPUT_BUF_SIZE then
    let c := if c = byte '\r' then byte '\n' else c
    -- `cons.buf[cons.e++ % INPUT_BUF_SIZE] = c`
    let cons := { cons with buf := Function.update cons.buf (slot cons.e) c, e := cons.e + 1 }
    -- a whole line, end of file or a full buffer: commit it, and `wakeup(&cons.r)`
    let cons :=
      if c = byte '\n' ∨ c = C 'D' ∨ (cons.e - cons.r).toNat = INPUT_BUF_SIZE then { cons with w := cons.e }
      else cons
    (cons, [c.toNat])
  else (cons, [])

/-! ## `console_read` -/

/-- How one lock-held stretch of `console_read` ends: the call returns `r`,
or the process sleeps with `n` bytes still wanted. -/
inductive Ends
  | ret (r : Int)
  | sleep (n : Int)
  deriving DecidableEq, Repr

/-- The loop of `console_read` with `n` of the `target` bytes asked for still
wanted, for at most `fuel` passes: `cons` after it, the bytes it took from
`cons.buf` and those it copied out, in order, and how it ends. `target` is
the `uint` copy of the `n` the call was given; it is compared with `n` only
where `n > 0`. -/
def readLoop (dst : Nat → Bool) (killed : Bool) (target : Int) :
    Nat → Cons → Int → Cons × List UInt8 × List UInt8 × Ends
  | 0, cons, n => (cons, [], [], .ret (target - n))
  | fuel + 1, cons, n =>
    if n > 0 then
      if cons.r = cons.w then
        if killed then (cons, [], [], .ret (-1)) else (cons, [], [], .sleep n)
      else
        let c := cons.buf (slot cons.r)
        let cons := { cons with r := cons.r + 1 }
        if c = C 'D' then
          -- save `^D` for next time, unless nothing was copied yet
          if n < target then ({ cons with r := cons.r - 1 }, [], [], .ret (target - n))
          else (cons, [c], [], .ret (target - n))
        else if dst (target - n).toNat then
          if c = byte '\n' then (cons, [c], [c], .ret (target - (n - 1)))
          else
            let (cons, took, copied, e) := readLoop dst killed target fuel cons (n - 1)
            (cons, c :: took, c :: copied, e)
        -- `either_copyout` failed: the byte is taken, and not copied
        else (cons, [c], [], .ret (target - n))
    else (cons, [], [], .ret (target - n))

/-- A lock-held stretch of `console_read` with `n` of `target` bytes still
wanted: a pass takes a byte or ends the stretch, so `n + 1` passes suffice. -/
def consoleRead (cons : Cons) (dst : Nat → Bool) (killed : Bool) (target n : Int) :
    Cons × List UInt8 × List UInt8 × Ends :=
  readLoop dst killed target (n.toNat + 1) cons n

/-! ## The console and its readers -/

/-- Where a process is: outside `console_read`, or asleep in it with `n` of
`target` bytes still wanted. -/
inductive Proc
  | idle
  | reading (dst : Nat → Bool) (target n : Int)

/-- The console and its processes, with every byte committed to readers,
every byte `console_read` took, every byte it copied out and every byte it
took and lost to a failed `either_copyout`, in order, and what went to the
uart. -/
structure Sys (τ : Type) where
  cons : Cons
  procs : τ → Proc
  committed : List UInt8
  took : List UInt8
  delivered : List UInt8
  lost : List UInt8
  uart : List Nat

/-- What happens next. -/
inductive Call (τ : Type)
  /-- `uartintr` hands `console_intr` a byte. -/
  | intr (c : UInt8)
  /-- Enter `console_read`. -/
  | read (p : τ) (dst : Nat → Bool) (n : Int) (killed : Bool)
  /-- Run again after `sleep`. -/
  | wake (p : τ) (killed : Bool)

variable {τ : Type}

section Step

variable [DecidableEq τ]

/-- `console_intr(c)`: the bytes from the old `w` to the new one are
committed. -/
def Sys.runIntr (s : Sys τ) (c : UInt8) : Sys τ :=
  let (cons, echo) := consoleIntr s.cons c
  { s with
    cons
    committed := s.committed ++ window cons.buf INPUT_BUF_SIZE s.cons.w.toNat (cons.w - s.cons.w).toNat
    uart := s.uart ++ echo }

/-- Process `p` runs a stretch of `console_read`. What it took, less a `^D`,
and not copied out is lost. -/
def Sys.runRead (s : Sys τ) (p : τ) (dst : Nat → Bool) (killed : Bool) (target n : Int) : Sys τ :=
  let (cons, took, copied, e) := consoleRead s.cons dst killed target n
  { s with
    cons
    took := s.took ++ took
    delivered := s.delivered ++ copied
    lost := s.lost ++ (took.filter (· ≠ C 'D')).drop copied.length
    procs := Function.update s.procs p (match e with | .ret _ => .idle | .sleep n => .reading dst target n) }

/-- One step; `none` where the process is not where the call starts. -/
def step (s : Sys τ) : Call τ → Option (Sys τ)
  | .intr c => some (s.runIntr c)
  | .read p dst n killed =>
    match s.procs p with
    | .idle => some (s.runRead p dst killed n n)
    | _ => none
  | .wake p killed =>
    match s.procs p with
    | .reading dst target n => some (s.runRead p dst killed target n)
    | .idle => none

/-- `cons` as the kernel starts: zero, with no process in `console_read`. -/
def Sys.init : Sys τ := ⟨⟨fun _ => 0, 0, 0, 0⟩, fun _ => .idle, [], [], [], [], []⟩

/-- The states any interleaving of input and reads reaches. -/
inductive Reach : Sys τ → Prop
  | init : Reach Sys.init
  | step {s s' : Sys τ} (c : Call τ) : Reach s → step s c = some s' → Reach s'

end Step

end Console

end Mkros
