import Mkros.Kernel.Pipe
/-!
# Pipes — a bounded FIFO over every interleaving

The pipe holds the `count = nwrite - nread` bytes from `nread` on
(`contents`); the counters are `uint`s, and `PIPESIZE` divides `2 ^ 32`, so
their wrap-around moves no byte. `Pipe.store` adds a byte at the end while
the pipe is not full and `Pipe.take` takes the first (`store_contents`,
`take_contents`); the loops of `pipewrite` and `piperead` are runs of these
(`writeLoop_spec`, `readCopy_spec`).

Over any interleaving of the processes' stretches (`Inv`, `pipe_fifo`): the
pipe never holds more than `PIPESIZE` bytes; what `piperead`s took, followed
by what the pipe holds, is what `pipewrite`s stored; what they returned is
what they took but for the bytes a failed `copyout` lost; and the page is
freed once, when both ends are closed. A stretch of `piperead` that is asked
for bytes and can copy the first returns `0` only on an empty pipe whose
write end is closed (`piperead_ret_zero`).

That is less than a lossless FIFO, and the difference is the code's: a byte
whose `copyout` fails has already left the pipe, so the bytes returned skip
it, and a read of `0` bytes returns `0` from a pipe that is not empty
(`piperead_loses_byte`).
-/

namespace Mkros

namespace Pipes

open CircBuf

/-- How many bytes the pipe holds: `nwrite - nread`, as `uint`s. -/
def count (pi : Pipe) : Nat := (pi.nwrite - pi.nread).toNat

/-- The bytes the pipe holds, oldest first. -/
def contents (pi : Pipe) : List UInt8 := window pi.data PIPESIZE pi.nread.toNat (count pi)

theorem PIPESIZE_dvd : PIPESIZE ∣ 2 ^ 32 := ⟨2 ^ 23, by decide⟩

theorem toNat_mod_PIPESIZE (x : UInt32) : (x % PIPESIZE.toUInt32).toNat = x.toNat % PIPESIZE := by
  rw [UInt32.toNat_mod]
  rfl

/-- `pi->nwrite == pi->nread + PIPESIZE` tests for a full pipe. -/
theorem full_iff (pi : Pipe) : pi.nwrite = pi.nread + PIPESIZE.toUInt32 ↔ count pi = PIPESIZE :=
  eq_add_iff_sub_toNat (by decide)

/-- `pi->nread == pi->nwrite` tests for an empty pipe. -/
theorem empty_iff (pi : Pipe) : pi.nread = pi.nwrite ↔ count pi = 0 := eq_iff_sub_toNat_eq_zero

section Store

variable {pi : Pipe}

/-- **A store adds the byte at the end**, while the pipe is not full. -/
theorem store_contents (hc : count pi < PIPESIZE) (ch : UInt8) :
    contents (pi.store ch) = contents pi ++ [ch] ∧ count (pi.store ch) = count pi + 1 := by
  have hcount : count (pi.store ch) = count pi + 1 := by
    have hlt : count pi + 1 < 2 ^ 32 := Nat.lt_trans (Nat.succ_lt_succ hc) (by decide)
    exact sub_toNat_add_one hlt
  refine ⟨?_, hcount⟩
  -- the byte goes in at the cell just past the ones the pipe holds
  have hcell : (pi.nwrite % PIPESIZE.toUInt32).toNat = (pi.nread.toNat + count pi) % PIPESIZE := by
    rw [toNat_mod_PIPESIZE, toNat_mod_eq_add_sub PIPESIZE_dvd pi.nwrite pi.nread]
    rfl
  rw [contents, hcount]
  show window (Function.update pi.data (pi.nwrite % PIPESIZE.toUInt32).toNat ch) PIPESIZE
    pi.nread.toNat (count pi + 1) = _
  rw [hcell]
  exact window_push hc ch

/-- **A take removes the first byte**, from a pipe that is not empty. -/
theorem take_contents (hc : 0 < count pi) :
    contents pi = pi.take.1 :: contents pi.take.2 ∧ count pi.take.2 = count pi - 1 := by
  have hcount : count pi.take.2 = count pi - 1 := sub_toNat_sub_one hc
  refine ⟨?_, hcount⟩
  obtain ⟨c, hc'⟩ := Nat.exists_eq_add_of_lt hc
  rw [Nat.zero_add] at hc'
  have hnread : (pi.nread + 1).toNat = (pi.nread.toNat + 1) % 2 ^ 32 := by
    rw [UInt32.toNat_add, UInt32.toNat_one]
  rw [contents, contents, hcount, hc', Nat.add_sub_cancel]
  show _ = pi.data (pi.nread % PIPESIZE.toUInt32).toNat ::
    window pi.data PIPESIZE (pi.nread + 1).toNat c
  rw [toNat_mod_PIPESIZE, hnread, window_mod PIPESIZE_dvd]
  exact window_succ_left

end Store

/-! ## The loops -/

section Loops

variable {src : Nat → Option UInt8} {dst : Nat → Bool} {n : Int} {killed : Nat → Bool}

/-- **The write loop appends what it stores**, keeping the pipe within
`PIPESIZE`, and closes no end. -/
theorem writeLoop_spec (fuel : Nat) {pi : Pipe} (i : Nat) (hc : count pi ≤ PIPESIZE) :
    contents (writeLoop src n killed fuel pi i).1 = contents pi ++ (writeLoop src n killed fuel pi i).2.1 ∧
      count (writeLoop src n killed fuel pi i).1 ≤ PIPESIZE ∧
      (writeLoop src n killed fuel pi i).1.readopen = pi.readopen ∧
      (writeLoop src n killed fuel pi i).1.writeopen = pi.writeopen := by
  induction fuel generalizing pi i with
  | zero => simp [writeLoop, hc]
  | succ fuel ih =>
    simp only [writeLoop]
    split
    · split
      · simp [hc]
      · split
        · simp [hc]
        · rename_i hfull
          split
          · simp [hc]
          · rename_i ch _
            -- the pipe is not full, so the byte goes in
            have hlt : count pi < PIPESIZE := Nat.lt_of_le_of_ne hc (mt (full_iff pi).mpr hfull)
            obtain ⟨hstore, hcount⟩ := store_contents hlt ch
            obtain ⟨ih₁, ih₂, ih₃, ih₄⟩ := @ih (pi.store ch) (i + 1) (by omega)
            refine ⟨?_, ih₂, ih₃, ih₄⟩
            rw [ih₁, hstore, List.append_assoc, List.singleton_append]
    · simp [hc]

/-- **The copy loop takes from the front**: what it took, followed by what
is left, is what the pipe held. -/
theorem readCopy_spec (fuel : Nat) {pi : Pipe} (i : Nat) (hc : count pi ≤ PIPESIZE) :
    (readCopy dst n fuel pi i).2.1 ++ contents (readCopy dst n fuel pi i).1 = contents pi ∧
      count (readCopy dst n fuel pi i).1 ≤ PIPESIZE ∧
      (readCopy dst n fuel pi i).1.readopen = pi.readopen ∧
      (readCopy dst n fuel pi i).1.writeopen = pi.writeopen := by
  induction fuel generalizing pi i with
  | zero => simp [readCopy, hc]
  | succ fuel ih =>
    simp only [readCopy]
    split
    · split
      · simp [hc]
      · rename_i hempty
        -- the pipe is not empty, so there is a first byte to take
        have hpos : 0 < count pi := Nat.pos_of_ne_zero (mt (empty_iff pi).mpr hempty)
        obtain ⟨htake, hcount⟩ := take_contents hpos
        split
        · obtain ⟨ih₁, ih₂, ih₃, ih₄⟩ := @ih pi.take.2 (i + 1) (by omega)
          refine ⟨?_, ih₂, ih₃, ih₄⟩
          rw [List.cons_append, ih₁, htake]
        · refine ⟨?_, ?_, rfl, rfl⟩
          · exact htake.symm
          · show count pi.take.2 ≤ PIPESIZE
            omega
    · simp [hc]

/-- The copy loop's count only goes up. -/
theorem le_readCopy (fuel : Nat) (pi : Pipe) (i : Nat) : i ≤ (readCopy dst n fuel pi i).2.2 := by
  induction fuel generalizing pi i with
  | zero => exact Nat.le_refl i
  | succ fuel ih =>
    simp only [readCopy]
    split
    · split
      · exact Nat.le_refl i
      · split
        · exact Nat.le_trans (Nat.le_succ i) (ih _ (i + 1))
        · exact Nat.le_refl i
    · exact Nat.le_refl i

/-- **`piperead` returns `0` only on an empty pipe with its write end
closed**, when it is asked for bytes and the first `copyout` succeeds. -/
theorem piperead_ret_zero {pi : Pipe} {killed : Bool} (hn : 0 < n) (hdst : dst 0 = true)
    (h : (piperead pi dst n killed).2.2 = .ret 0) : pi.nread = pi.nwrite ∧ pi.writeopen = false := by
  unfold piperead at h
  split at h
  · split at h <;> simp at h
  · rename_i hwait
    simp only [readCopy] at h
    split at h
    · split at h
      · rename_i hempty
        exact ⟨hempty, by simpa [hempty] using hwait⟩
      · -- the first byte is copied, so the count is at least one
        simp only [Ends.ret.injEq] at h
        have hpos : 0 + 1 ≤ (readCopy dst n n.toNat pi.take.2 (0 + 1)).2.2 :=
          le_readCopy n.toNat pi.take.2 (0 + 1)
        generalize (readCopy dst n n.toNat pi.take.2 (0 + 1)).2.2 = r at h hpos
        exact absurd h (by omega)
    · rename_i hlt
      exact absurd (by exact_mod_cast hn) hlt

end Loops

/-! ## Every interleaving -/

variable {τ : Type} [DecidableEq τ]

/-- **The pipe's invariant.** -/
structure Inv (s : Sys τ) : Prop where
  /-- `0 ≤ nwrite - nread ≤ PIPESIZE`. -/
  count_le : count s.pipe ≤ PIPESIZE
  /-- What was taken, then what is held, is what was stored. -/
  fifo : s.took ++ contents s.pipe = s.stored
  /-- What was returned is what was taken, but for what was lost. -/
  delivered : s.delivered.Sublist s.took
  lost : s.took.length = s.delivered.length + s.lost.length
  /-- A process asleep in a call holds that end open. -/
  writers : ∀ p, (s.procs p).isWriting = true → s.pipe.writeopen = true
  readers : ∀ p, (s.procs p).isReading = true → s.pipe.readopen = true
  /-- The page is freed once, when both ends are closed. -/
  frees : s.frees = if s.pipe.readopen || s.pipe.writeopen then 0 else 1

section Inv

variable {s : Sys τ}

theorem Inv.runWrite (h : Inv s) {p : τ} {src : Nat → Option UInt8} {n : Int} {killed : Nat → Bool}
    {i : Nat} (hopen : s.pipe.writeopen = true) : Inv (s.runWrite p src n killed i) := by
  obtain ⟨hcontents, hcount, hread, hwrite⟩ :=
    @writeLoop_spec src n killed (n.toNat + 1) s.pipe i h.count_le
  generalize hw : writeLoop src n killed (n.toNat + 1) s.pipe i = w at hcontents hcount hread hwrite
  obtain ⟨pi, stored, e⟩ := w
  simp only [Sys.runWrite, pipewrite, hw]
  -- `p` ends outside the call or asleep in `pipewrite`, not in `piperead`
  have hreaders : ∀ v : Proc, v.isReading = false → ∀ q, (Function.update s.procs p v q).isReading = true →
      pi.readopen = true := by
    intro v hv q hq
    by_cases hqp : q = p
    · subst hqp
      rw [Function.update_self, hv] at hq
      cases hq
    · rw [Function.update_of_ne hqp] at hq
      exact hread ▸ h.readers q hq
  refine ⟨hcount, ?_, h.delivered, h.lost, fun _ _ => hwrite ▸ hopen, hreaders _ (by cases e <;> rfl), ?_⟩
  · rw [hcontents, ← List.append_assoc, h.fifo]
  · rw [hread, hwrite]
    exact h.frees

/-- What a stretch of `piperead` does to the pipe: it takes from the front
and closes no end. -/
theorem piperead_spec {pi : Pipe} (dst : Nat → Bool) (n : Int) (killed : Bool)
    (hc : count pi ≤ PIPESIZE) :
    (piperead pi dst n killed).2.1 ++ contents (piperead pi dst n killed).1 = contents pi ∧
      count (piperead pi dst n killed).1 ≤ PIPESIZE ∧
      (piperead pi dst n killed).1.readopen = pi.readopen ∧
      (piperead pi dst n killed).1.writeopen = pi.writeopen := by
  unfold piperead
  split
  · split <;> exact ⟨rfl, hc, rfl, rfl⟩
  · exact readCopy_spec _ 0 hc

theorem Inv.runRead (h : Inv s) {p : τ} {dst : Nat → Bool} {n : Int} {killed : Bool}
    (hopen : s.pipe.readopen = true) : Inv (s.runRead p dst n killed) := by
  obtain ⟨hcontents, hcount, hread, hwrite⟩ := piperead_spec dst n killed h.count_le
  generalize hr : piperead s.pipe dst n killed = r at hcontents hcount hread hwrite
  obtain ⟨pi, took, e⟩ := r
  simp only [Sys.runRead, hr]
  -- `p` ends outside the call or asleep in `piperead`, not in `pipewrite`
  have hwriters : ∀ v : Proc, v.isWriting = false → ∀ q, (Function.update s.procs p v q).isWriting = true →
      pi.writeopen = true := by
    intro v hv q hq
    by_cases hqp : q = p
    · subst hqp
      rw [Function.update_self, hv] at hq
      cases hq
    · rw [Function.update_of_ne hqp] at hq
      exact hwrite ▸ h.writers q hq
  refine ⟨hcount, ?_, h.delivered.append (List.take_sublist _ _), ?_, hwriters _ (by cases e <;> rfl),
    fun _ _ => hread ▸ hopen, ?_⟩
  · rw [List.append_assoc, hcontents, h.fifo]
  · -- the bytes taken split into those copied out and those lost
    simp only [List.length_append, List.length_take, List.length_drop]
    rw [h.lost]
    omega
  · rw [hread, hwrite]
    exact h.frees

omit [DecidableEq τ] in
theorem Inv.close (h : Inv s) {writable : Bool} (hc : (Call.close writable : Call τ).Allowed s) :
    Inv (s.close writable) := by
  cases writable with
  | true =>
    obtain ⟨hopen, hidle⟩ := hc
    refine ⟨h.count_le, h.fifo, h.delivered, h.lost, fun q hq => ?_, h.readers, ?_⟩
    · change (s.procs q).isWriting = true at hq
      rw [hidle q] at hq
      cases hq
    · have hfrees := h.frees
      cases hr : s.pipe.readopen <;> simp_all [Sys.close, pipeclose]
  | false =>
    obtain ⟨hopen, hidle⟩ := hc
    refine ⟨h.count_le, h.fifo, h.delivered, h.lost, h.writers, fun q hq => ?_, ?_⟩
    · change (s.procs q).isReading = true at hq
      rw [hidle q] at hq
      cases hq
    · have hfrees := h.frees
      cases hw : s.pipe.writeopen <;> simp_all [Sys.close, pipeclose]

/-- **One allowed call keeps the invariant.** -/
theorem Inv.step (h : Inv s) {c : Call τ} (hc : c.Allowed s) {s' : Sys τ}
    (hstep : Pipes.step s c = some s') : Inv s' := by
  cases c with
  | write p src n killed =>
    simp only [Pipes.step] at hstep
    split at hstep
    · cases hstep
      exact h.runWrite hc
    · cases hstep
  | read p dst n killed =>
    simp only [Pipes.step] at hstep
    split at hstep
    · cases hstep
      exact h.runRead hc
    · cases hstep
  | wake p killed =>
    simp only [Pipes.step] at hstep
    split at hstep
    · rename_i src n i hp
      cases hstep
      exact h.runWrite (h.writers p (by rw [hp]; rfl))
    · rename_i dst n hp
      cases hstep
      exact h.runRead (h.readers p (by rw [hp]; rfl))
    · cases hstep
  | close writable =>
    cases hstep
    exact h.close hc

end Inv

omit [DecidableEq τ] in
theorem inv_init (page : Nat → UInt8) : Inv (Sys.init page : Sys τ) where
  count_le := by simp [Sys.init, count, pipealloc, PIPESIZE]
  fifo := by simp [Sys.init, contents, count, pipealloc]
  delivered := List.Sublist.slnil
  lost := rfl
  writers _ h := by cases h
  readers _ h := by cases h
  frees := rfl

theorem reach_inv {page : Nat → UInt8} {s : Sys τ} (h : Reach page s) : Inv s := by
  induction h with
  | init => exact inv_init page
  | step c _ hc hstep ih => exact ih.step hc hstep

/-- **A pipe is a bounded FIFO over every interleaving**, up to the bytes a
failed `copyout` loses. In every state any interleaving of `pipewrite`,
`piperead` and `pipeclose` stretches reaches from `pipealloc`: the pipe
holds at most `PIPESIZE` bytes, as the `uint` difference `nwrite - nread`;
the bytes `piperead`s took, then the bytes the pipe holds, are the bytes
`pipewrite`s stored, in order, so none is taken twice; the bytes returned
are those taken but for those lost, so where no `copyout` failed they are a
prefix of the bytes stored; the page has been freed once if both ends are
closed and never otherwise; and a stretch of `piperead` asked for bytes,
whose first `copyout` succeeds, returns `0` only from an empty pipe whose
write end is closed. -/
theorem pipe_fifo {page : Nat → UInt8} {s : Sys τ} (h : Reach page s) :
    (s.pipe.nwrite - s.pipe.nread).toNat ≤ PIPESIZE ∧ s.took ++ contents s.pipe = s.stored ∧
      s.delivered.Sublist s.took ∧ s.took.length = s.delivered.length + s.lost.length ∧
      (s.lost = [] → s.delivered <+: s.stored) ∧
      s.frees = (if s.pipe.readopen || s.pipe.writeopen then 0 else 1) ∧
      ∀ dst n killed, 0 < n → dst 0 = true → (piperead s.pipe dst n killed).2.2 = .ret 0 →
        s.pipe.nread = s.pipe.nwrite ∧ s.pipe.writeopen = false := by
  have hinv := reach_inv h
  refine ⟨hinv.count_le, hinv.fifo, hinv.delivered, hinv.lost, fun hlost => ?_, hinv.frees,
    fun dst n killed hn hdst hret => piperead_ret_zero hn hdst hret⟩
  -- with nothing lost, what was returned is all that was taken
  have hall : s.delivered = s.took :=
    hinv.delivered.eq_of_length (by rw [hinv.lost, hlost, List.length_nil, Nat.add_zero])
  rw [hall, ← hinv.fifo]
  exact List.prefix_append _ _

/-- The bytes `a` and `b` at the caller's address. -/
def bytesAB : Nat → Option UInt8 := fun i => [97, 98][i]?

/-- A fresh pipe after `pipewrite` of `a b`. -/
def wroteAB : Sys Unit := (Sys.init fun _ => 5).runWrite () bytesAB 2 (fun _ => false) 0

/-- Then `piperead` of one byte into an address `copyout` refuses. -/
def readRefused : Sys Unit := wroteAB.runRead () (fun _ => false) 1 false

/-- Then `piperead` of one byte that `copyout` takes. -/
def readB : Sys Unit := readRefused.runRead () (fun _ => true) 1 false

/-- After `pipewrite` of `a b` and a `piperead` of one byte, the pipe holds
`b`, taken after `a`. -/
theorem pipe_fifo_after_read :
    Reach (fun _ => 5) (wroteAB.runRead () (fun _ => true) 1 false) ∧
      (wroteAB.runRead () (fun _ => true) 1 false).took ++
          contents (wroteAB.runRead () (fun _ => true) 1 false).pipe = [97, 98] := by
  have h₁ : Reach (fun _ => 5) wroteAB := Reach.step (.write () bytesAB 2 fun _ => false) Reach.init rfl rfl
  have h₂ : Reach (fun _ => 5) (wroteAB.runRead () (fun _ => true) 1 false) :=
    Reach.step (.read () (fun _ => true) 1 false) h₁
      (show wroteAB.pipe.readopen = true by decide +kernel) rfl
  exact ⟨h₂, (pipe_fifo h₂).2.1.trans (by decide +kernel)⟩

/-- **A failed `copyout` loses a byte, and a read of nothing returns `0`.**
After `pipewrite` of `a b`, the pipe holds both bytes with its write end
open, yet `piperead` returns `0` when asked for no byte, or when `copyout`
refuses the first; the latter takes `a` out of the pipe, and the next
`piperead` returns `b`, which is not a prefix of `a b`. -/
theorem piperead_loses_byte :
    Reach (fun _ => 5) readB ∧ count wroteAB.pipe = 2 ∧ wroteAB.pipe.writeopen = true ∧
      (piperead wroteAB.pipe (fun _ => true) 0 false).2.2 = .ret 0 ∧
      (piperead wroteAB.pipe (fun _ => false) 1 false).2.2 = .ret 0 ∧
      readB.stored = [97, 98] ∧ readB.delivered = [98] ∧ ¬readB.delivered <+: readB.stored := by
  have h₁ : Reach (fun _ => 5) wroteAB := Reach.step (.write () bytesAB 2 fun _ => false) Reach.init rfl rfl
  have h₂ : Reach (fun _ => 5) readRefused :=
    Reach.step (.read () (fun _ => false) 1 false) h₁
      (show wroteAB.pipe.readopen = true by decide +kernel) rfl
  have h₃ : Reach (fun _ => 5) readB := Reach.step (.read () (fun _ => true) 1 false) h₂
    (show readRefused.pipe.readopen = true by decide +kernel) rfl
  exact ⟨h₃, by decide +kernel, by decide +kernel, by decide +kernel, by decide +kernel, by decide +kernel,
    by decide +kernel, by decide +kernel⟩

end Pipes

end Mkros
