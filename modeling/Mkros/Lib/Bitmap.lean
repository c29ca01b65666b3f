import Mathlib.Logic.Function.Basic
/-!
# Bitmaps of 64-bit words, first item in the most significant bit

A bitmap over items `0, 1, 2, …` kept in an array of `UInt64` words: item `p`
is word `p / 64`, and within the word the columns run from the most
significant bit, so item `p` is bit `63 - p % 64`. The array is a function from
word index to word; `orWord` and `andWord` are the read-modify-write updates
`bm[w] |= m` and `bm[w] &= m`.

The lemmas say what the one-bit updates do to every item (`get_orWord_colBit`,
`get_andWord_not_colBit`) and how the test `bm[w] & mask` reads an item
(`and_colBit_ne_zero`).
-/

namespace Mkros

namespace Bitmap

/-- Bit `i` of a word, counted from the least significant. -/
def bit (w : UInt64) (i : Nat) : Bool := w.toBitVec.getLsbD i

/-- The one-bit mask of column `col`, columns counted from the most
significant bit. -/
def colBit (col : Nat) : UInt64 := 1 <<< (63 - col).toUInt64

/-- Item `p` of the bitmap. -/
def get (bm : Nat → UInt64) (p : Nat) : Bool := bit (bm (p / 64)) (63 - p % 64)

/-- `bm[w] |= m`. -/
def orWord (bm : Nat → UInt64) (w : Nat) (m : UInt64) : Nat → UInt64 :=
  Function.update bm w (bm w ||| m)

/-- `bm[w] &= m`. -/
def andWord (bm : Nat → UInt64) (w : Nat) (m : UInt64) : Nat → UInt64 :=
  Function.update bm w (bm w &&& m)

/-! ## Bits of a word -/

@[simp] theorem bit_or (a b : UInt64) (i : Nat) : bit (a ||| b) i = (bit a i || bit b i) := by
  simp [bit]

@[simp] theorem bit_and (a b : UInt64) (i : Nat) : bit (a &&& b) i = (bit a i && bit b i) := by
  simp [bit]

theorem bit_not (a : UInt64) {i : Nat} (hi : i < 64) : bit (~~~a) i = !bit a i := by
  simp [bit, hi]

theorem bit_colBit {col i : Nat} (hcol : col < 64) :
    bit (colBit col) i = decide (i = 63 - col) := by
  have hmod : (63 - col) % 64 = 63 - col := Nat.mod_eq_of_lt (by omega)
  simp only [bit, colBit, UInt64.toBitVec_shiftLeft]
  simp [hmod]
  by_cases hi : i = 63 - col
  · subst hi
    simp only [decide_true, Nat.lt_irrefl, decide_false, Bool.not_false, Nat.sub_self]
    simp
    omega
  · simp only [hi, decide_false]
    by_cases hlt : i < 63 - col
    · simp [hlt]
    · simp [hlt]
      omega

/-- A word is zero iff none of its 64 bits is set. -/
theorem eq_zero_iff_bit (a : UInt64) : a = 0 ↔ ∀ i < 64, bit a i = false := by
  constructor
  · rintro rfl i _
    simp [bit]
  · intro h
    apply UInt64.eq_of_toBitVec_eq
    apply BitVec.eq_of_getLsbD_eq
    intro i hi
    simpa [bit] using h i hi

/-- **The test reads one item**: masking a word with a column's bit is
nonzero iff the word holds that column. -/
theorem and_colBit_ne_zero (w : UInt64) {col : Nat} (hcol : col < 64) :
    w &&& colBit col ≠ 0 ↔ bit w (63 - col) = true := by
  rw [Ne, eq_zero_iff_bit]
  constructor
  · intro h
    by_contra hw
    refine h fun i _ => ?_
    rw [bit_and, bit_colBit hcol]
    by_cases hi : i = 63 - col
    · subst hi
      simpa using hw
    · simp [hi]
  · intro hw h
    have := h (63 - col) (by omega)
    rw [bit_and, bit_colBit hcol, hw] at this
    simp at this

/-! ## Items of a bitmap -/

theorem get_orWord (bm : Nat → UInt64) (w : Nat) (m : UInt64) (q : Nat) :
    get (orWord bm w m) q = if q / 64 = w then get bm q || bit m (63 - q % 64) else get bm q := by
  by_cases hq : q / 64 = w
  · subst hq
    simp [get, orWord]
  · simp [get, orWord, hq]

theorem get_andWord (bm : Nat → UInt64) (w : Nat) (m : UInt64) (q : Nat) :
    get (andWord bm w m) q = if q / 64 = w then get bm q && bit m (63 - q % 64) else get bm q := by
  by_cases hq : q / 64 = w
  · subst hq
    simp [get, andWord]
  · simp [get, andWord, hq]

/-- Two items in the same word and column are the same item. -/
theorem eq_of_word_col {p q : Nat} (hw : q / 64 = p / 64) (hc : 63 - q % 64 = 63 - p % 64) :
    q = p := by
  omega

/-- **Setting an item's bit sets that item and no other.** -/
theorem get_orWord_colBit (bm : Nat → UInt64) (p q : Nat) :
    get (orWord bm (p / 64) (colBit (p % 64))) q = (get bm q || decide (q = p)) := by
  rw [get_orWord, bit_colBit (Nat.mod_lt _ (by decide))]
  by_cases hq : q = p
  · subst hq
    simp
  · by_cases hw : q / 64 = p / 64
    · have hc : 63 - q % 64 ≠ 63 - p % 64 := fun hc => hq (eq_of_word_col hw hc)
      simp [hw, hq, hc]
    · simp [hw, hq]

/-- **Clearing an item's bit clears that item and no other.** -/
theorem get_andWord_not_colBit (bm : Nat → UInt64) (p q : Nat) :
    get (andWord bm (p / 64) (~~~colBit (p % 64))) q = (get bm q && !decide (q = p)) := by
  rw [get_andWord, bit_not _ (by omega), bit_colBit (Nat.mod_lt _ (by decide))]
  by_cases hq : q = p
  · subst hq
    simp
  · by_cases hw : q / 64 = p / 64
    · have hc : 63 - q % 64 ≠ 63 - p % 64 := fun hc => hq (eq_of_word_col hw hc)
      simp [hw, hq, hc]
    · simp [hw, hq]

/-- The test `bm[p / 64] & colBit (p % 64)` reads item `p`. -/
theorem get_iff_and_ne_zero (bm : Nat → UInt64) (p : Nat) :
    get bm p = true ↔ bm (p / 64) &&& colBit (p % 64) ≠ 0 := by
  rw [and_colBit_ne_zero _ (Nat.mod_lt _ (by decide))]
  rfl

/-! ## Bits of a byte

A byte bitmap, as a file system keeps one, holds item `k` of a byte in bit
`k`, counted from the least significant, and tests it with the mask
`1 << k`. -/

/-- Bit `i` of a byte, counted from the least significant. -/
def byteBit (x : UInt8) (i : Nat) : Bool := x.toBitVec.getLsbD i

@[simp] theorem byteBit_or (a b : UInt8) (i : Nat) : byteBit (a ||| b) i = (byteBit a i || byteBit b i) := by
  simp [byteBit]

@[simp] theorem byteBit_and (a b : UInt8) (i : Nat) : byteBit (a &&& b) i = (byteBit a i && byteBit b i) := by
  simp [byteBit]

theorem byteBit_not (a : UInt8) {i : Nat} (hi : i < 8) : byteBit (~~~a) i = !byteBit a i := by
  simp [byteBit, hi]

theorem byteBit_one_shiftLeft {k i : Nat} (hk : k < 8) : byteBit (1 <<< k.toUInt8) i = decide (i = k) := by
  have hmod : k % 256 % 8 = k := by omega
  simp only [byteBit, UInt8.toBitVec_shiftLeft]
  simp [hmod]
  by_cases hi : i = k
  · subst hi
    simp
    omega
  · simp only [hi, decide_false]
    by_cases hlt : i < k
    · simp [hlt]
    · simp [hlt]
      omega

/-- Two bytes with the same eight bits are the same byte. -/
theorem byte_ext {a b : UInt8} (h : ∀ i < 8, byteBit a i = byteBit b i) : a = b := by
  apply UInt8.eq_of_toBitVec_eq
  apply BitVec.eq_of_getLsbD_eq
  intro i hi
  exact h i hi

/-- **The test reads one bit**: a byte masked with `1 << k` is zero iff bit
`k` is clear. -/
theorem and_one_shiftLeft_eq_zero (w : UInt8) {k : Nat} (hk : k < 8) :
    w &&& (1 <<< k.toUInt8) = 0 ↔ byteBit w k = false := by
  constructor
  · intro h
    have hbit := congrArg (byteBit · k) h
    simp only [byteBit_and, byteBit_one_shiftLeft hk, decide_true, Bool.and_true] at hbit
    rw [hbit]
    simp [byteBit]
  · intro hw
    refine byte_ext fun i _ => ?_
    rw [byteBit_and, byteBit_one_shiftLeft hk]
    by_cases hi : i = k
    · subst hi
      rw [hw, Bool.false_and]
      simp [byteBit]
    · simp [hi, byteBit]

/-- Setting a clear bit and clearing it again gives the byte back. -/
theorem or_and_not_one_shiftLeft (w : UInt8) {k : Nat} (hk : k < 8) (hw : byteBit w k = false) :
    (w ||| 1 <<< k.toUInt8) &&& ~~~(1 <<< k.toUInt8) = w := by
  refine byte_ext fun i hi => ?_
  rw [byteBit_and, byteBit_or, byteBit_not _ hi, byteBit_one_shiftLeft hk]
  by_cases hik : i = k
  · subst hik
    simp [hw]
  · simp [hik]

end Bitmap

end Mkros
