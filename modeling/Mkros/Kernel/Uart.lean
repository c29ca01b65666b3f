import Mkros.Lib.CircBuf
/-!
# The UART's transmit buffer `uart.c`

`uartputc` stores a byte at `uart_tx_buf[uart_tx_w % UART_TX_BUF_SIZE]`
and moves `uart_tx_w` on; `uartstart` hands bytes from
`uart_tx_r % UART_TX_BUF_SIZE` to the UART's `THR` while there are any and
`LSR` says the UART can take one, moving `uart_tx_r` on and calling
`wakeup(&uart_tx_r)` for each. A writer that finds the buffer full sleeps on
`&uart_tx_r`, giving up `uart_tx_lock`, and tests again when it runs. Every
other stretch runs under `uart_tx_lock`, and each is one step here: a
writer's call up to its sleep or its return, a woken writer's stretch, and
the send half of `uartintr`. `lsr i` is what the `i`-th read of `LSR` in one
`uartstart` finds, so the UART's timing is any at all. After `panic` a
writer spins in `uartputc` with the lock held, and nothing else that needs
the lock runs again.

The counters are `uint64_t`s, unbounded here: they would wrap after
`2 ^ 64` bytes. The reader is never ahead of the writer nor a whole buffer
behind it (`Tx`), so a store never overwrites a byte not yet sent.

Over every interleaving (`uart_tx_fifo`), what `uartstart` has written to
`THR` followed by what the buffer holds is every byte `uartputc` stored, in
order; a writer asleep in `uartputc` finds the buffer full; and so an
interrupt that finds the UART idle sends a byte and leaves no writer asleep.
-/

namespace Mkros

namespace Uart

open CircBuf

/-- `UART_TX_BUF_SIZE`. -/
def UART_TX_BUF_SIZE : Nat := 32

/-- `uart_tx_buf`, `uart_tx_w` and `uart_tx_r`, and the bytes written to
`THR`, in order. -/
structure Tx where
  buf : Nat → UInt8
  w : Nat
  r : Nat
  thr : List UInt8
  hle : r ≤ w
  hroom : w ≤ r + UART_TX_BUF_SIZE

/-- The bytes the buffer holds, oldest first. -/
def Tx.pending (tx : Tx) : List UInt8 := window tx.buf UART_TX_BUF_SIZE tx.r (tx.w - tx.r)

/-- `uartstart()`: while the buffer holds a byte and the `i`-th read of
`LSR` finds `LSR_TX_IDLE`, the oldest byte goes to `THR`. -/
def uartstart (lsr : Nat → Bool) (i : Nat) (tx : Tx) : Tx :=
  if h : tx.w = tx.r then tx
  else if lsr i = false then tx
  else
    have hle := tx.hle
    have hroom := tx.hroom
    let c := tx.buf (tx.r % UART_TX_BUF_SIZE)
    -- `uart_tx_r += 1; wakeup(&uart_tx_r); WriteReg(THR, c);`
    uartstart lsr (i + 1) { tx with r := tx.r + 1, thr := tx.thr ++ [c], hle := by omega, hroom := by omega }
termination_by tx.w - tx.r
decreasing_by
  have := tx.hle
  omega

/-- The store of `uartputc` once the buffer has room:
`uart_tx_buf[uart_tx_w % UART_TX_BUF_SIZE] = c; uart_tx_w += 1;`. -/
def Tx.store (tx : Tx) (c : UInt8) (h : tx.w ≠ tx.r + UART_TX_BUF_SIZE) : Tx :=
  { tx with
    buf := Function.update tx.buf (tx.w % UART_TX_BUF_SIZE) c
    w := tx.w + 1
    hle := by have := tx.hle; omega
    hroom := by have := tx.hroom; omega }

/-- Where a thread is in `uartputc`. -/
inductive Proc
  | idle
  /-- Asleep on `&uart_tx_r` in the loop, to store `c`. -/
  | asleep (c : UInt8)
  /-- Made runnable by `wakeup(&uart_tx_r)`, to test the loop again. -/
  | woken (c : UInt8)
  /-- Spinning in `for (;;)` after `panicked`, with `uart_tx_lock` held. -/
  | hung
  deriving DecidableEq, Repr

/-- The transmit side, the threads, `panicked`, whether a hung thread holds
`uart_tx_lock` for good, and every byte `uartputc` stored, in order. -/
structure Sys (τ : Type) where
  tx : Tx
  procs : τ → Proc
  panicked : Bool
  held : Bool
  put : List UInt8

/-- What runs next. -/
inductive Call (τ : Type)
  /-- `uartputc(c)` by an idle thread. -/
  | putc (p : τ) (c : UInt8) (lsr : Nat → Bool)
  /-- A woken thread runs again. -/
  | wake (p : τ) (lsr : Nat → Bool)
  /-- The send half of `uartintr`: `acquire; uartstart(); release`. -/
  | intr (lsr : Nat → Bool)
  /-- `panicked = 1` in `panic`. -/
  | panic

variable {τ : Type}

/-- `wakeup(&uart_tx_r)`: every thread asleep on it is runnable. -/
def wakeAll (procs : τ → Proc) : τ → Proc := fun p =>
  match procs p with
  | .asleep c => .woken c
  | x => x

/-- `uartstart()`, and the `wakeup` of the sleepers where it sent a byte. -/
def Sys.start (s : Sys τ) (lsr : Nat → Bool) : Sys τ :=
  let tx := uartstart lsr 0 s.tx
  { s with tx := tx, procs := if tx.r = s.tx.r then s.procs else wakeAll s.procs }

section Step

variable [DecidableEq τ]

/-- The loop of `uartputc` and what follows it: asleep while the buffer is
full, else the byte stored and `uartstart()`. -/
def Sys.putLoop (s : Sys τ) (p : τ) (c : UInt8) (lsr : Nat → Bool) : Sys τ :=
  if h : s.tx.w = s.tx.r + UART_TX_BUF_SIZE then { s with procs := Function.update s.procs p (.asleep c) }
  else ({ s with tx := s.tx.store c h, put := s.put ++ [c], procs := Function.update s.procs p .idle }).start lsr

/-- One step; `none` where the thread is not where the step starts, or it
needs `uart_tx_lock` and a hung thread holds it. -/
def step (s : Sys τ) : Call τ → Option (Sys τ)
  | .putc p c lsr =>
    if s.held then none
    else match s.procs p with
      | .idle =>
        if s.panicked then some { s with procs := Function.update s.procs p .hung, held := true }
        else some (s.putLoop p c lsr)
      | _ => none
  | .wake p lsr =>
    if s.held then none
    else match s.procs p with
      | .woken c => some (s.putLoop p c lsr)
      | _ => none
  | .intr lsr => if s.held then none else some (s.start lsr)
  | .panic => some { s with panicked := true }

/-- Boot: `uart_tx_buf` zeroed, both counters `0`, every thread idle. -/
def Sys.init : Sys τ where
  tx := ⟨fun _ => 0, 0, 0, [], Nat.le_refl 0, Nat.zero_le _⟩
  procs _ := .idle
  panicked := false
  held := false
  put := []

/-- The states the steps reach from boot. -/
inductive Reach : Sys τ → Prop
  | init : Reach .init
  | step {s s' : Sys τ} (c : Call τ) : Reach s → step s c = some s' → Reach s'

end Step

/-! ## The buffer -/

section Buffer

variable {lsr : Nat → Bool}

theorem uartstart_w (i : Nat) (tx : Tx) : (uartstart lsr i tx).w = tx.w := by
  fun_induction uartstart lsr i tx <;> simp_all

/-- **`uartstart` moves bytes from the buffer to `THR`, oldest first**:
what was sent followed by what is held stays the same. -/
theorem uartstart_sent (i : Nat) (tx : Tx) :
    (uartstart lsr i tx).thr ++ (uartstart lsr i tx).pending = tx.thr ++ tx.pending := by
  fun_induction uartstart lsr i tx with
  | case1 i tx hw => rfl
  | case2 i tx hw hlsr => rfl
  | case3 i tx hw hlsr hle hroom c ih =>
    rw [ih]
    -- the byte sent is the first the buffer held
    have hc : tx.w - tx.r = (tx.w - (tx.r + 1)) + 1 := by omega
    simp only [Tx.pending]
    rw [hc, window_succ_left, List.append_assoc, List.singleton_append]

theorem le_uartstart_r (i : Nat) (tx : Tx) : tx.r ≤ (uartstart lsr i tx).r := by
  fun_induction uartstart lsr i tx with
  | case1 i tx hw => exact Nat.le_refl _
  | case2 i tx hw hlsr => exact Nat.le_refl _
  | case3 i tx hw hlsr hle hroom c ih => exact Nat.le_of_succ_le ih

/-- With a byte held and the UART idle, `uartstart` sends one. -/
theorem uartstart_r_ne {i : Nat} {tx : Tx} (hw : tx.w ≠ tx.r) (hlsr : lsr i = true) :
    (uartstart lsr i tx).r ≠ tx.r := by
  rw [uartstart, dif_neg hw, if_neg (by simp [hlsr])]
  dsimp only
  have hle := tx.hle
  have hroom := tx.hroom
  have hmono := @le_uartstart_r lsr (i + 1)
    { tx with r := tx.r + 1, thr := tx.thr ++ [tx.buf (tx.r % UART_TX_BUF_SIZE)], hle := by omega, hroom := by omega }
  dsimp only at hmono
  omega

/-- **A store adds its byte at the end of what the buffer holds.** -/
theorem store_pending (tx : Tx) (c : UInt8) (h : tx.w ≠ tx.r + UART_TX_BUF_SIZE) :
    (tx.store c h).pending = tx.pending ++ [c] := by
  have hle := tx.hle
  have hroom := tx.hroom
  have hw : (tx.r + (tx.w - tx.r)) % UART_TX_BUF_SIZE = tx.w % UART_TX_BUF_SIZE := by
    rw [Nat.add_sub_cancel' hle]
  simp only [Tx.pending, Tx.store]
  rw [show tx.w + 1 - tx.r = tx.w - tx.r + 1 by omega, ← hw]
  exact window_push (by omega) c

theorem wakeAll_ne_asleep (procs : τ → Proc) (p : τ) (c : UInt8) : wakeAll procs p ≠ .asleep c := by
  unfold wakeAll
  split <;> simp_all

end Buffer

/-! ## Over every interleaving -/

section Inv

variable {s : Sys τ}

/-- **The invariant**: `THR` then the buffer is what was stored, and a
sleeper finds the buffer full. -/
structure Inv (s : Sys τ) : Prop where
  fifo : s.tx.thr ++ s.tx.pending = s.put
  asleep_full : ∀ p c, s.procs p = .asleep c → s.tx.w = s.tx.r + UART_TX_BUF_SIZE

/-- **`uartstart` and its `wakeup`** keep the invariant: where it sends a
byte no thread stays asleep, and where it sends none the buffer is as it
was. -/
theorem Inv.start (hI : Inv s) (lsr : Nat → Bool) : Inv (s.start lsr) := by
  refine ⟨?_, fun p c hp => ?_⟩
  · simp only [Sys.start]
    rw [uartstart_sent]
    exact hI.fifo
  · simp only [Sys.start] at hp ⊢
    split at hp
    · rename_i hr
      rw [uartstart_w, hr]
      exact hI.asleep_full p c hp
    · exact absurd hp (wakeAll_ne_asleep _ p c)

theorem inv_init : Inv (Sys.init : Sys τ) where
  fifo := rfl
  asleep_full _ _ h := by cases h

variable [DecidableEq τ]

theorem Inv.putLoop (hI : Inv s) (p : τ) (c : UInt8) (lsr : Nat → Bool) : Inv (s.putLoop p c lsr) := by
  unfold Sys.putLoop
  split
  · -- full: the thread sleeps, and finds the buffer full
    rename_i hfull
    refine ⟨hI.fifo, fun q d hq => ?_⟩
    dsimp only at hq ⊢
    by_cases hqp : q = p
    · exact hfull
    · rw [Function.update_of_ne hqp] at hq
      exact hI.asleep_full q d hq
  · -- room: the byte is stored, then `uartstart`
    rename_i hroom
    apply Inv.start
    have hthr : (s.tx.store c hroom).thr = s.tx.thr := rfl
    refine ⟨by dsimp only; rw [store_pending, hthr, ← List.append_assoc, hI.fifo], fun q d hq => ?_⟩
    dsimp only at hq
    by_cases hqp : q = p
    · subst hqp
      simp at hq
    · rw [Function.update_of_ne hqp] at hq
      exact absurd (hI.asleep_full q d hq) hroom

theorem Inv.step (hI : Inv s) {c : Call τ} {s' : Sys τ} (h : Uart.step s c = some s') : Inv s' := by
  cases c with
  | putc p c lsr =>
    simp only [Uart.step] at h
    split at h
    · cases h
    split at h
    · split at h
      · cases h
        refine ⟨hI.fifo, fun q d hq => ?_⟩
        dsimp only at hq ⊢
        by_cases hqp : q = p
        · subst hqp
          simp at hq
        · rw [Function.update_of_ne hqp] at hq
          exact hI.asleep_full q d hq
      · cases h
        exact hI.putLoop p c lsr
    · cases h
  | wake p lsr =>
    simp only [Uart.step] at h
    split at h
    · cases h
    split at h
    · cases h
      exact hI.putLoop p _ lsr
    · cases h
  | intr lsr =>
    simp only [Uart.step] at h
    split at h
    · cases h
    · cases h
      exact hI.start lsr
  | panic =>
    simp only [Uart.step, Option.some.injEq] at h
    subst h
    exact ⟨hI.fifo, hI.asleep_full⟩

theorem Reach.inv {s : Sys τ} (h : Reach s) : Inv s := by
  induction h with
  | init => exact inv_init
  | step _ _ hs ih => exact ih.step hs

/-- **The transmit buffer over every interleaving** of `uartputc` by any
threads, the send half of `uartintr` with any answers from `LSR`, and
`panic`: the bytes written to `THR`, then those the buffer holds, are every
byte `uartputc` stored, in order, none lost, doubled or reordered; a thread
asleep in `uartputc` finds the buffer full; and so, unless a thread hung
after `panic` holds the lock, an interrupt that finds the UART idle leaves no
thread asleep. -/
theorem uart_tx_fifo {s : Sys τ} (hs : Reach s) :
    s.tx.thr ++ s.tx.pending = s.put ∧
    (∀ p c, s.procs p = .asleep c → s.tx.w = s.tx.r + UART_TX_BUF_SIZE) ∧
    (s.held = false → ∀ lsr : Nat → Bool, lsr 0 = true →
      ∃ s', step s (.intr lsr) = some s' ∧ ∀ p c, s'.procs p ≠ .asleep c) := by
  have hI := hs.inv
  refine ⟨hI.fifo, hI.asleep_full, fun hheld lsr hlsr => ⟨s.start lsr, by simp [step, hheld], fun p c => ?_⟩⟩
  simp only [Sys.start]
  split
  · -- nothing sent: the buffer was empty, so no thread was asleep
    rename_i hr
    intro hp
    have hfull := hI.asleep_full p c hp
    by_cases hw : s.tx.w = s.tx.r
    · unfold UART_TX_BUF_SIZE at hfull
      omega
    · exact uartstart_r_ne hw hlsr hr
  · exact wakeAll_ne_asleep _ p c

theorem uart_tx_fifo_after_putc :
    ∃ s : Sys (Fin 2), step .init (.putc 0 65 fun _ => false) = some s ∧
      s.tx.thr ++ s.tx.pending = s.put ∧
      (∀ p c, s.procs p = .asleep c → s.tx.w = s.tx.r + UART_TX_BUF_SIZE) ∧
      (s.held = false → ∀ lsr : Nat → Bool, lsr 0 = true →
        ∃ s', step s (.intr lsr) = some s' ∧ ∀ p c, s'.procs p ≠ .asleep c) :=
  ⟨_, rfl, uart_tx_fifo (.step (.putc 0 65 fun _ => false) .init rfl)⟩

end Inv

end Uart

end Mkros
