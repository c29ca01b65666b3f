import Mathlib.Data.List.Basic
import Mathlib.Tactic.Ring
/-!
# printk — the ring buffer

`printk` formats into a `ring_buf_t` on its stack and hands the bytes to
`console_putchar` through `out_func`. The buffer holds up to
`MAX_RING_BUF_SIZE` bytes between `head` and `tail`, both kept modulo the
capacity; `full` separates the full buffer from the empty one, where the two
indices meet. `ring_buf_put` makes room in a full buffer by flushing a
quarter of it, and `ring_buf_flush` flushes `ring_buf_size` bytes.

The bytes passed to `out_func` are the observable output, so the model keeps
them in `out`, in call order, in place of the function pointer. `window`
reads the bytes a buffer holds, oldest first; `count` is how many there are.
-/

namespace Mkros

namespace RingBuffer

/-- `MAX_RING_BUF_SIZE`. -/
def MAX_RING_BUF_SIZE : Nat := 64

/-- `ring_buf_t`. `out` lists the arguments of every `out_func` call so far. -/
structure RingBuf where
  buffer : Nat → UInt8
  head : Nat
  tail : Nat
  full : Bool
  out : List UInt8

/-- `ring_buf_capacity`. -/
def ringBufCapacity (_ : RingBuf) : Nat := MAX_RING_BUF_SIZE

/-- `ring_buf_empty`. -/
def ringBufEmpty (r : RingBuf) : Bool := r.head == r.tail && !r.full

/-- `ring_buf_full`. -/
def ringBufFull (r : RingBuf) : Bool := r.head == r.tail && r.full

/-- `ring_buf_size`: the distance from `head` to `tail`, which does not look
at `full`. -/
def ringBufSize (r : RingBuf) : Nat :=
  if r.tail < r.head then r.tail + ringBufCapacity r - r.head else r.tail - r.head

/-- `ring_buf_reset`. -/
def ringBufReset (r : RingBuf) : RingBuf := { r with head := 0, tail := 0, full := false }

/-- `ring_buf_init`, on whatever the buffer's memory held: `out_func` has not
been called yet. -/
def ringBufInit (r : RingBuf) : RingBuf := { ringBufReset r with out := [] }

/-- The `while (!ring_buf_empty(rbuf) && len--)` loop of `ring_buf_flush_part`. -/
def flushLoop (r : RingBuf) : Nat → RingBuf
  | 0 => r
  | len + 1 =>
    if ringBufEmpty r then r
    else flushLoop { r with head := (r.head + 1) % ringBufCapacity r,
                            out := r.out ++ [r.buffer r.head] } len

/-- `ring_buf_flush_part`: `full` is cleared after the loop, whatever it did. -/
def ringBufFlushPart (r : RingBuf) (len : Nat) : RingBuf :=
  { flushLoop r len with full := false }

/-- The store half of `ring_buf_put`: the byte goes in at `tail`, and the
buffer is full when `tail` comes round to `head`. -/
def storeByte (r : RingBuf) (data : UInt8) : RingBuf :=
  let r := { r with buffer := fun i => if i = r.tail then data else r.buffer i,
                    tail := (r.tail + 1) % ringBufCapacity r }
  if r.tail = r.head then { r with full := true } else r

/-- `ring_buf_put`: a full buffer is first flushed by a quarter. -/
def ringBufPut (r : RingBuf) (data : UInt8) : RingBuf :=
  storeByte (if ringBufFull r then ringBufFlushPart r (ringBufCapacity r / 4) else r) data

/-- `ring_buf_flush`. -/
def ringBufFlush (r : RingBuf) : RingBuf := ringBufFlushPart r (ringBufSize r)

/-- A run of `ring_buf_put` calls, one per byte, in order. -/
def putAll (r : RingBuf) (bs : List UInt8) : RingBuf := bs.foldl ringBufPut r

/-! ## The abstraction -/

/-- The `c` bytes a buffer holds from index `h` on, wrapping at the capacity. -/
def window (buffer : Nat → UInt8) (h c : Nat) : List UInt8 :=
  (List.range c).map fun i => buffer ((h + i) % MAX_RING_BUF_SIZE)

/-- How many bytes the buffer holds: all of them when `full`, else the
distance from `head` to `tail`. -/
def count (r : RingBuf) : Nat :=
  if r.full then MAX_RING_BUF_SIZE else (r.tail + MAX_RING_BUF_SIZE - r.head) % MAX_RING_BUF_SIZE

/-- The bytes put and not yet passed to `out_func`, oldest first. -/
def contents (r : RingBuf) : List UInt8 := window r.buffer r.head (count r)

/-- **The representation invariant**: both indices inside the buffer, and
`full` only where they meet. -/
structure Inv (r : RingBuf) : Prop where
  head_lt : r.head < MAX_RING_BUF_SIZE
  tail_lt : r.tail < MAX_RING_BUF_SIZE
  full_eq : r.full = true → r.head = r.tail

@[simp] theorem ringBufCapacity_eq (r : RingBuf) : ringBufCapacity r = MAX_RING_BUF_SIZE := rfl

@[simp] theorem length_window (buffer : Nat → UInt8) (h c : Nat) :
    (window buffer h c).length = c := by
  simp [window]

@[simp] theorem window_zero (buffer : Nat → UInt8) (h : Nat) : window buffer h 0 = [] := rfl

theorem window_succ (buffer : Nat → UInt8) (h c : Nat) :
    window buffer h (c + 1) = window buffer h c ++ [buffer ((h + c) % MAX_RING_BUF_SIZE)] := by
  simp [window, List.range_succ]

theorem window_succ_left (buffer : Nat → UInt8) (h c : Nat) :
    window buffer h (c + 1) =
      buffer (h % MAX_RING_BUF_SIZE) :: window buffer ((h + 1) % MAX_RING_BUF_SIZE) c := by
  simp only [window, List.range_succ_eq_map, List.map_cons, List.map_map, Nat.add_zero]
  congr 1
  refine List.map_congr_left fun i _ => ?_
  simp only [Function.comp_apply, MAX_RING_BUF_SIZE]
  congr 1
  omega

/-- Only the buffer's cells inside the window are read. -/
theorem window_congr {b b' : Nat → UInt8} {h c : Nat}
    (hb : ∀ i < c, b ((h + i) % MAX_RING_BUF_SIZE) = b' ((h + i) % MAX_RING_BUF_SIZE)) :
    window b h c = window b' h c := by
  simp only [window]
  exact List.map_congr_left fun i hi => hb i (List.mem_range.mp hi)

theorem window_take (buffer : Nat → UInt8) (h c k : Nat) (hk : k ≤ c) :
    (window buffer h c).take k = window buffer h k := by
  simp only [window, ← List.map_take, List.take_range, Nat.min_eq_left hk]

theorem window_drop (buffer : Nat → UInt8) (h c k : Nat) :
    (window buffer h c).drop k = window buffer ((h + k) % MAX_RING_BUF_SIZE) (c - k) := by
  apply List.ext_getElem (by simp)
  intro i h₁ h₂
  simp only [window, List.getElem_drop, List.getElem_map, List.getElem_range, MAX_RING_BUF_SIZE]
  congr 1
  omega

/-- The capacity the model reads everywhere. -/
theorem capacity_pos : 0 < MAX_RING_BUF_SIZE := by decide

theorem count_of_full {r : RingBuf} (h : r.full = true) : count r = MAX_RING_BUF_SIZE := by
  simp [count, h]

theorem count_of_not_full {r : RingBuf} (h : r.full = false) :
    count r = (r.tail + MAX_RING_BUF_SIZE - r.head) % MAX_RING_BUF_SIZE := by
  simp [count, h]

theorem count_le (r : RingBuf) : count r ≤ MAX_RING_BUF_SIZE := by
  unfold count
  split
  · exact le_rfl
  · exact (Nat.mod_lt _ capacity_pos).le

/-- `full` is exactly the buffer holding `MAX_RING_BUF_SIZE` bytes. -/
theorem full_iff (r : RingBuf) : r.full = true ↔ count r = MAX_RING_BUF_SIZE := by
  unfold count
  cases r.full
  · simp only [Bool.false_eq_true, if_false, false_iff]
    exact (Nat.mod_lt _ capacity_pos).ne
  · simp

/-- Where `tail` stands: `count` bytes past `head`. -/
theorem Inv.tail_eq {r : RingBuf} (h : Inv r) :
    r.tail = (r.head + count r) % MAX_RING_BUF_SIZE := by
  have := h.head_lt
  have := h.tail_lt
  unfold count
  cases hf : r.full
  · simp only [Bool.false_eq_true, if_false, MAX_RING_BUF_SIZE] at *
    omega
  · have := h.full_eq hf
    simp only [if_true, MAX_RING_BUF_SIZE] at *
    omega

/-! ## One call at a time -/

section Steps

variable {r : RingBuf}

/-- **The flush loop hands out the oldest `k` bytes**, as long as the buffer
does not look empty at any of the heads it passes. A set `full` keeps it
from ever looking empty: the loop clears `full` only after it ends. -/
theorem flushLoop_eq {k : Nat} (hh : r.head < MAX_RING_BUF_SIZE)
    (hne : ∀ j < k, (r.head + j) % MAX_RING_BUF_SIZE ≠ r.tail ∨ r.full = true) :
    flushLoop r k = { r with head := (r.head + k) % MAX_RING_BUF_SIZE,
                             out := r.out ++ window r.buffer r.head k } := by
  induction k generalizing r with
  | zero => simp [flushLoop, Nat.mod_eq_of_lt hh]
  | succ k ih =>
    have hnot : ringBufEmpty r = false := by
      have h0 := hne 0 (Nat.succ_pos k)
      rw [Nat.add_zero, Nat.mod_eq_of_lt hh] at h0
      simp only [ringBufEmpty, Bool.and_eq_false_iff, beq_eq_false_iff_ne, ne_eq,
        Bool.not_eq_eq_eq_not, Bool.not_false]
      exact h0
    rw [flushLoop, if_neg (by simp [hnot]), ih (Nat.mod_lt _ capacity_pos)]
    · simp only [ringBufCapacity_eq, window_succ_left, Nat.mod_eq_of_lt hh, List.append_assoc,
        List.singleton_append, RingBuf.mk.injEq, and_true, true_and]
      simp only [MAX_RING_BUF_SIZE]
      omega
    · intro j hj
      have := hne (j + 1) (by omega)
      simp only [ringBufCapacity_eq, MAX_RING_BUF_SIZE] at this ⊢
      rwa [Nat.mod_add_mod, Nat.add_right_comm, Nat.add_assoc]

/-- The fields a flush of `k` bytes leaves, under `flushLoop_eq`'s condition. -/
theorem flushPart_fields {k : Nat} (hh : r.head < MAX_RING_BUF_SIZE)
    (hne : ∀ j < k, (r.head + j) % MAX_RING_BUF_SIZE ≠ r.tail ∨ r.full = true) :
    (ringBufFlushPart r k).head = (r.head + k) % MAX_RING_BUF_SIZE ∧
      (ringBufFlushPart r k).tail = r.tail ∧ (ringBufFlushPart r k).full = false ∧
      (ringBufFlushPart r k).buffer = r.buffer ∧
      (ringBufFlushPart r k).out = r.out ++ window r.buffer r.head k := by
  simp [ringBufFlushPart, flushLoop_eq hh hne]

/-- **A quarter flush of a full buffer**: the oldest sixteen bytes go to
`out_func` and forty-eight stay, so nothing is lost or repeated. -/
theorem flushPart_quarter (h : Inv r) (hf : r.full = true) :
    Inv (ringBufFlushPart r (ringBufCapacity r / 4)) ∧
      (ringBufFlushPart r (ringBufCapacity r / 4)).full = false ∧
      count (ringBufFlushPart r (ringBufCapacity r / 4)) = 48 ∧
      (ringBufFlushPart r (ringBufCapacity r / 4)).out ++
          contents (ringBufFlushPart r (ringBufCapacity r / 4)) =
        r.out ++ contents r := by
  have hh := h.head_lt
  have ht : r.head = r.tail := h.full_eq hf
  obtain ⟨hhead, htail, hfull, hbuf, hout⟩ :=
    flushPart_fields (r := r) (k := ringBufCapacity r / 4) hh fun _ _ => Or.inr hf
  have hk : ringBufCapacity r / 4 = 16 := by simp [MAX_RING_BUF_SIZE]
  rw [hk] at hhead htail hfull hbuf hout ⊢
  generalize ringBufFlushPart r 16 = r' at *
  have hcount : count r' = 48 := by
    simp only [count, hfull, Bool.false_eq_true, if_false, hhead, htail, ← ht, MAX_RING_BUF_SIZE]
    omega
  refine ⟨⟨by rw [hhead]; exact Nat.mod_lt _ capacity_pos, by rw [htail]; exact h.tail_lt,
    by simp [hfull]⟩, hfull, hcount, ?_⟩
  rw [contents, hcount, hhead, hbuf, hout, contents, count, if_pos hf, List.append_assoc,
    ← window_take r.buffer r.head MAX_RING_BUF_SIZE 16 (by decide),
    show 48 = MAX_RING_BUF_SIZE - 16 from rfl, ← window_drop, List.take_append_drop]

/-- **Storing into a buffer with room**: the byte joins the back of the
contents, and the buffer is full exactly when it is the capacity-th. -/
theorem storeByte_spec {b : UInt8} (h : Inv r) (hf : r.full = false) :
    Inv (storeByte r b) ∧ count (storeByte r b) = count r + 1 ∧
      (storeByte r b).out ++ contents (storeByte r b) = r.out ++ contents r ++ [b] := by
  have hh := h.head_lt
  have htl := h.tail_lt
  have htail := h.tail_eq
  have hlt : count r < MAX_RING_BUF_SIZE := by
    have := count_le r
    have := (full_iff r).not.mp (by simp [hf])
    omega
  -- the new byte lands just past the old contents, which it does not overwrite
  have hwin : window (fun i => if i = r.tail then b else r.buffer i) r.head (count r + 1) =
      contents r ++ [b] := by
    rw [window_succ, ← htail, if_pos rfl, contents]
    congr 1
    refine window_congr fun i hi => ?_
    rw [if_neg]
    rw [htail]
    simp only [MAX_RING_BUF_SIZE] at hlt ⊢
    omega
  unfold storeByte
  by_cases hfull : (r.tail + 1) % MAX_RING_BUF_SIZE = r.head
  · -- the byte fills the buffer: `tail` has come round to `head`
    simp only [ringBufCapacity_eq, hfull, ↓reduceIte]
    have hc : count r + 1 = MAX_RING_BUF_SIZE := by
      rw [htail] at hfull
      simp only [MAX_RING_BUF_SIZE] at hfull hlt ⊢
      omega
    refine ⟨⟨hh, hh, fun _ => rfl⟩, by rw [count_of_full rfl, hc], ?_⟩
    rw [contents, count_of_full rfl, ← hc, hwin, List.append_assoc]
  · simp only [ringBufCapacity_eq, hfull, ↓reduceIte]
    set r' : RingBuf :=
      { r with buffer := fun i => if i = r.tail then b else r.buffer i,
               tail := (r.tail + 1) % MAX_RING_BUF_SIZE }
    have hc : count r' = count r + 1 := by
      rw [count_of_not_full hf, count_of_not_full (r := r') hf] at *
      simp only [r', MAX_RING_BUF_SIZE] at hfull hlt htl hh ⊢
      omega
    refine ⟨⟨hh, Nat.mod_lt _ capacity_pos, by simp [r', hf]⟩, hc, ?_⟩
    rw [contents, hc, hwin, List.append_assoc]

/-- **`ring_buf_put` is a FIFO push**: the bytes handed out followed by the
bytes held grow by exactly the new byte, at the back. A full buffer drops to
48 bytes before the store, so it holds 49 after it. -/
theorem put_spec {b : UInt8} (h : Inv r) :
    Inv (ringBufPut r b) ∧
      count (ringBufPut r b) = (if r.full then 49 else count r + 1) ∧
      (ringBufPut r b).out ++ contents (ringBufPut r b) = r.out ++ contents r ++ [b] := by
  unfold ringBufPut
  cases hf : r.full
  · have hnf : ringBufFull r = false := by simp [ringBufFull, hf]
    rw [hnf, if_neg Bool.false_ne_true, if_neg Bool.false_ne_true]
    exact storeByte_spec h hf
  · have hfl : ringBufFull r = true := by simp [ringBufFull, hf, h.full_eq hf]
    rw [hfl, if_pos rfl, if_pos rfl]
    obtain ⟨hi, hf', hc, ho⟩ := flushPart_quarter h hf
    obtain ⟨hi₂, hc₂, ho₂⟩ := storeByte_spec (b := b) hi hf'
    exact ⟨hi₂, by rw [hc₂, hc], by rw [ho₂, ho]⟩

/-- **`ring_buf_flush` hands out everything held — unless the buffer is
full**: `ring_buf_size` reads the distance from `head` to `tail`, which is
0 there, so the flush outputs nothing and then clears `full`. -/
theorem flush_out (h : Inv r) :
    (ringBufFlush r).out = if r.full then r.out else r.out ++ contents r := by
  have hh := h.head_lt
  have htl := h.tail_lt
  cases hf : r.full
  · have hsize : ringBufSize r = count r := by
      rw [count_of_not_full hf, ringBufSize, ringBufCapacity_eq]
      simp only [MAX_RING_BUF_SIZE] at hh htl ⊢
      split <;> omega
    have hlt : count r < MAX_RING_BUF_SIZE := by
      have := count_le r
      have := (full_iff r).not.mp (by simp [hf])
      omega
    have hne : ∀ j < count r, (r.head + j) % MAX_RING_BUF_SIZE ≠ r.tail ∨ r.full = true := by
      intro j hj
      left
      rw [h.tail_eq]
      simp only [MAX_RING_BUF_SIZE] at hh hlt ⊢
      omega
    simp [ringBufFlush, ringBufFlushPart, hsize, flushLoop_eq hh hne, contents]
  · have hsize : ringBufSize r = 0 := by
      simp [ringBufSize, h.full_eq hf]
    simp [ringBufFlush, ringBufFlushPart, hsize, flushLoop]

end Steps

/-! ## Whole runs -/

/-- How `count` moves with one put: a full buffer is flushed down to 48
before the store. -/
def nextCount (c : Nat) : Nat := if c = MAX_RING_BUF_SIZE then 49 else c + 1

/-- **One put on a run**: what `put_spec` says, with the count as `nextCount`. -/
theorem put_count {r : RingBuf} {b : UInt8} (h : Inv r) :
    count (ringBufPut r b) = nextCount (count r) := by
  rw [(put_spec h).2.1, nextCount]
  cases hf : r.full
  · rw [if_neg ((full_iff r).not.mp (by simp [hf]))]
    rfl
  · rw [if_pos ((full_iff r).mp hf)]
    rfl

/-- **A run of puts is a FIFO**: by induction on the bytes, each put
preserving the invariant and appending one byte at the back. -/
theorem putAll_spec {r : RingBuf} (h : Inv r) (bs : List UInt8) :
    Inv (putAll r bs) ∧ count (putAll r bs) = nextCount^[bs.length] (count r) ∧
      (putAll r bs).out ++ contents (putAll r bs) = r.out ++ contents r ++ bs := by
  induction bs generalizing r with
  | nil => exact ⟨h, rfl, by simp [putAll]⟩
  | cons b bs ih =>
    obtain ⟨hi, -, ho⟩ := put_spec (b := b) h
    obtain ⟨hi', hc', ho'⟩ := ih hi
    refine ⟨hi', ?_, ?_⟩
    · rw [putAll, List.foldl_cons, ← putAll, hc', List.length_cons,
        Function.iterate_succ_apply, put_count h]
    · rw [putAll, List.foldl_cons, ← putAll, ho', ho]
      simp

/-- From an empty buffer the count climbs to the capacity, then cycles
through 49 … 64, reaching 64 again every sixteen puts. -/
theorem nextCount_iterate_zero (n : Nat) :
    nextCount^[n] 0 = if n ≤ 64 then n else 49 + (n - 65) % 16 := by
  induction n with
  | zero => rfl
  | succ n ih =>
    rw [Function.iterate_succ_apply', ih]
    unfold nextCount MAX_RING_BUF_SIZE
    by_cases h₁ : n ≤ 64
    · rw [if_pos h₁]
      by_cases h₂ : n = 64
      · subst h₂
        rfl
      · rw [if_neg h₂, if_pos (show n + 1 ≤ 64 by omega)]
    · rw [if_neg h₁, if_neg (show ¬n + 1 ≤ 64 by omega)]
      -- past the capacity the count is 64 exactly when 16 divides the puts
      by_cases h₃ : 49 + (n - 65) % 16 = 64
      · rw [if_pos h₃]
        omega
      · rw [if_neg h₃]
        omega

/-- The count is the capacity after `n` puts exactly when `n` is 64, 80, 96, …. -/
theorem nextCount_iterate_zero_eq_cap (n : Nat) :
    nextCount^[n] 0 = MAX_RING_BUF_SIZE ↔ 64 ≤ n ∧ n % 16 = 0 := by
  rw [nextCount_iterate_zero, MAX_RING_BUF_SIZE]
  by_cases h : n ≤ 64
  · rw [if_pos h]
    omega
  · rw [if_neg h]
    omega

theorem inv_init (r₀ : RingBuf) : Inv (ringBufInit r₀) :=
  ⟨by simp [ringBufInit, ringBufReset, MAX_RING_BUF_SIZE],
    by simp [ringBufInit, ringBufReset, MAX_RING_BUF_SIZE],
    fun h => by simp [ringBufInit, ringBufReset] at h⟩

theorem contents_init (r₀ : RingBuf) : contents (ringBufInit r₀) = [] := by
  simp [contents, count, ringBufInit, ringBufReset]

/-- **What printk's buffer hands to `out_func`.** After `ring_buf_init`, any
bytes put and a final `ring_buf_flush`, the output is every byte in order —
unless the bytes leave the buffer exactly full (64, 80, 96, … of them), when
the final flush outputs nothing and the last 64 bytes are lost. -/
theorem flush_putAll_out (r₀ : RingBuf) (bs : List UInt8) :
    (ringBufFlush (putAll (ringBufInit r₀) bs)).out =
      if 64 ≤ bs.length ∧ bs.length % 16 = 0 then bs.take (bs.length - 64) else bs := by
  obtain ⟨hi, hc, ho⟩ := putAll_spec (inv_init r₀) bs
  rw [show count (ringBufInit r₀) = 0 by simp [count, ringBufInit, ringBufReset]] at hc
  rw [contents_init, show (ringBufInit r₀).out = [] from rfl] at ho
  simp only [List.nil_append] at ho
  rw [flush_out hi]
  generalize putAll (ringBufInit r₀) bs = r at *
  cases hf : r.full
  · -- not full: the final flush outputs the rest
    have hnot : ¬(64 ≤ bs.length ∧ bs.length % 16 = 0) := by
      rw [← nextCount_iterate_zero_eq_cap, ← hc, ← full_iff, hf]
      exact Bool.false_ne_true
    rw [if_neg Bool.false_ne_true, if_neg hnot, ho]
  · -- full: 64 bytes are held, and the final flush drops them
    have hfull : 64 ≤ bs.length ∧ bs.length % 16 = 0 := by
      rw [← nextCount_iterate_zero_eq_cap, ← hc, ← full_iff, hf]
    have hlen : (contents r).length = 64 := by
      rw [contents, length_window, (full_iff r).mp hf]
      rfl
    rw [if_pos rfl, if_pos hfull, ← ho, List.length_append, hlen, Nat.add_sub_cancel,
      List.take_left]

/-- **The bytes of a message that leaves the buffer exactly full are lost**:
the final flush reads a size of 0, so only what the quarter flushes already
passed on reaches `out_func`. -/
theorem flush_drops_full_buffer (r₀ : RingBuf) (bs : List UInt8) (hlen : 64 ≤ bs.length)
    (hmod : bs.length % 16 = 0) :
    (ringBufFlush (putAll (ringBufInit r₀) bs)).out = bs.take (bs.length - 64) := by
  rw [flush_putAll_out, if_pos ⟨hlen, hmod⟩]

/-- Sixty-four bytes from a fresh buffer: nothing reaches the console. -/
theorem flush_drops_full_buffer_64 :
    (64 ≤ (List.replicate 64 (65 : UInt8)).length ∧
        (List.replicate 64 (65 : UInt8)).length % 16 = 0) ∧
      (ringBufFlush (putAll (ringBufInit ⟨fun _ => 0, 0, 0, false, []⟩)
        (List.replicate 64 65))).out = [] :=
  ⟨⟨by decide, by decide⟩, by
    rw [flush_drops_full_buffer _ _ (by decide) (by decide)]
    rfl⟩

/-- **Every other message goes out whole and in order.** -/
theorem flush_putAll_of_not_full (r₀ : RingBuf) (bs : List UInt8)
    (h : ¬(64 ≤ bs.length ∧ bs.length % 16 = 0)) :
    (ringBufFlush (putAll (ringBufInit r₀) bs)).out = bs := by
  rw [flush_putAll_out, if_neg h]

theorem flush_putAll_of_not_full_hello :
    ¬(64 ≤ [104, 101, 108, 108, 111].length ∧ [104, 101, 108, 108, 111].length % 16 = 0) ∧
      (ringBufFlush (putAll (ringBufInit ⟨fun _ => 0, 0, 0, false, []⟩)
        [104, 101, 108, 108, 111])).out = [104, 101, 108, 108, 111] :=
  ⟨by decide, flush_putAll_of_not_full _ _ (by decide)⟩

/-! ## Every state a run reaches

`printk` and its callers only put, flush and reset; `Reach` is what a run of
those calls makes of a buffer fresh from `ring_buf_init`. Each call keeps
`Inv`, and under `Inv` the observers read the count: `ring_buf_full` and
`ring_buf_empty` exactly, `ring_buf_size` except on a full buffer. -/

/-- A call on the buffer. -/
inductive Op
  | put (b : UInt8)
  | flush
  | reset

/-- One call. -/
def Op.run (r : RingBuf) : Op → RingBuf
  | .put b => ringBufPut r b
  | .flush => ringBufFlush r
  | .reset => ringBufReset r

/-- The buffers a run of calls reaches from `ring_buf_init`. -/
inductive Reach (r₀ : RingBuf) : RingBuf → Prop
  | init : Reach r₀ (ringBufInit r₀)
  | step {r : RingBuf} (op : Op) : Reach r₀ r → Reach r₀ (op.run r)

section Run

variable {r : RingBuf}

/-- The flush loop keeps `head` inside the buffer and leaves `tail`. -/
theorem flushLoop_indices (hh : r.head < MAX_RING_BUF_SIZE) :
    ∀ k, (flushLoop r k).head < MAX_RING_BUF_SIZE ∧ (flushLoop r k).tail = r.tail := by
  intro k
  induction k generalizing r with
  | zero => exact ⟨hh, rfl⟩
  | succ k ih =>
    unfold flushLoop
    split
    · exact ⟨hh, rfl⟩
    · exact ih (Nat.mod_lt _ capacity_pos)

/-- **A flush of any length keeps the invariant**: it clears `full`. -/
theorem Inv.flushPart (h : Inv r) (k : Nat) : Inv (ringBufFlushPart r k) := by
  obtain ⟨hh, ht⟩ := flushLoop_indices h.head_lt k
  refine ⟨hh, ?_, fun hf => absurd hf Bool.false_ne_true⟩
  rw [show (ringBufFlushPart r k).tail = r.tail from ht]
  exact h.tail_lt

theorem inv_reset (r : RingBuf) : Inv (ringBufReset r) :=
  ⟨capacity_pos, capacity_pos, fun hf => absurd hf Bool.false_ne_true⟩

/-- Every call keeps the invariant. -/
theorem Inv.run (h : Inv r) : ∀ op : Op, Inv (op.run r)
  | .put _ => (put_spec h).1
  | .flush => h.flushPart (ringBufSize r)
  | .reset => inv_reset r

theorem Reach.inv {r₀ : RingBuf} (h : Reach r₀ r) : Inv r := by
  induction h with
  | init => exact inv_init r₀
  | step op _ ih => exact ih.run op

theorem Reach.putAll {r₀ : RingBuf} : ∀ {r : RingBuf}, Reach r₀ r → ∀ bs, Reach r₀ (putAll r bs)
  | _, h, [] => h
  | _, h, b :: bs => Reach.putAll (h.step (.put b)) bs

/-- Under the invariant `ring_buf_full` is the `full` mark. -/
theorem Inv.ringBufFull_eq (h : Inv r) : ringBufFull r = r.full := by
  cases hf : r.full
  · simp [ringBufFull, hf]
  · simp [ringBufFull, hf, h.full_eq hf]

/-- **`ring_buf_empty` is a count of `0`.** -/
theorem Inv.ringBufEmpty_iff (h : Inv r) : ringBufEmpty r = true ↔ count r = 0 := by
  have hh := h.head_lt
  have htl := h.tail_lt
  cases hf : r.full
  · rw [count_of_not_full hf]
    simp only [ringBufEmpty, hf, Bool.not_false, Bool.and_true, beq_iff_eq]
    simp only [MAX_RING_BUF_SIZE] at hh htl ⊢
    omega
  · simp [ringBufEmpty, hf, count_of_full hf, MAX_RING_BUF_SIZE]

/-- **`ring_buf_size` is the count, but `0` on a full buffer**, where `head`
and `tail` meet and it does not look at `full`. -/
theorem Inv.ringBufSize_eq (h : Inv r) :
    ringBufSize r = if count r = MAX_RING_BUF_SIZE then 0 else count r := by
  have hh := h.head_lt
  have htl := h.tail_lt
  cases hf : r.full
  · have hlt : count r ≠ MAX_RING_BUF_SIZE := (full_iff r).not.mp (by simp [hf])
    rw [if_neg hlt, count_of_not_full hf, ringBufSize, ringBufCapacity_eq]
    simp only [MAX_RING_BUF_SIZE] at hh htl ⊢
    split <;> omega
  · rw [if_pos (count_of_full hf), ringBufSize, h.full_eq hf]
    simp

end Run

/-- A buffer fresh from `ring_buf_init`, after `hello`. -/
def helloBuf : RingBuf := putAll (ringBufInit ⟨fun _ => 0, 0, 0, false, []⟩) [104, 101, 108, 108, 111]

/-- A buffer fresh from `ring_buf_init`, after sixty-four puts of `A`. -/
def fullBuf : RingBuf := putAll (ringBufInit ⟨fun _ => 0, 0, 0, false, []⟩) (List.replicate 64 65)

/-- Sixty-four bytes put, none passed to `out_func` and all held, and
`ring_buf_size` reads `0`. -/
theorem ring_buf_size_zero_when_full :
    Reach ⟨fun _ => 0, 0, 0, false, []⟩ fullBuf ∧ fullBuf.out = [] ∧ (contents fullBuf).length = 64 ∧
      ringBufSize fullBuf = 0 := by
  have hreach : Reach ⟨fun _ => 0, 0, 0, false, []⟩ fullBuf := Reach.init.putAll _
  obtain ⟨-, hc, ho⟩ := putAll_spec (inv_init ⟨fun _ => 0, 0, 0, false, []⟩) (List.replicate 64 65)
  change count fullBuf = _ at hc
  change fullBuf.out ++ contents fullBuf = _ at ho
  -- the count climbs to the capacity on the sixty-fourth put
  have hcount : count fullBuf = MAX_RING_BUF_SIZE := by
    rw [hc, List.length_replicate, show count (ringBufInit ⟨fun _ => 0, 0, 0, false, []⟩) = 0 by
      simp [count, ringBufInit, ringBufReset]]
    exact (nextCount_iterate_zero_eq_cap 64).mpr ⟨Nat.le_refl 64, by decide⟩
  have hlen : (contents fullBuf).length = 64 := by
    rw [contents, length_window, hcount]
    rfl
  have hout : fullBuf.out = [] := by
    rw [contents_init, show (ringBufInit ⟨fun _ => 0, 0, 0, false, []⟩).out = [] from rfl, List.append_nil,
      List.nil_append] at ho
    have hsum := congrArg List.length ho
    rw [List.length_append, List.length_replicate, hlen] at hsum
    exact List.length_eq_zero_iff.mp (by omega)
  refine ⟨hreach, hout, hlen, ?_⟩
  rw [hreach.inv.ringBufSize_eq, if_pos hcount]

end RingBuffer

end Mkros
