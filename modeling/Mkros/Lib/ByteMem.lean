import Mathlib.Logic.Function.Basic
/-!
# Bytes of a memory of 64-bit words

A memory of `UInt64` words, one at each multiple of 8, read and written a
byte at a time, little-endian: byte `a` is lane `a % 8` of the word at
`a / 8 * 8`. `getByte` and `setByte` are the lanes of one word, `load` and
`store` the byte accesses of the memory.

A store writes the byte it is given and no other (`load_store`), and of the
words it changes only the one its byte lies in (`store_of_ne`); the lemmas
the users take are these two.
-/

namespace Mkros

namespace ByteMem

/-- Lane `k` of a word: bits `8k` to `8k + 7`. -/
def getByte (w : UInt64) (k : Nat) : UInt8 := (w >>> (8 * k).toUInt64).toUInt8

/-- The word with lane `k` replaced by `c`. -/
def setByte (w : UInt64) (k : Nat) (c : UInt8) : UInt64 :=
  (w &&& ~~~((0xFF : UInt64) <<< (8 * k).toUInt64)) ||| (c.toUInt64 <<< (8 * k).toUInt64)

/-- The byte at `a`. -/
def load (mem : Nat → UInt64) (a : Nat) : UInt8 := getByte (mem (a / 8 * 8)) (a % 8)

/-- `*(char *)a = c`. -/
def store (mem : Nat → UInt64) (a : Nat) (c : UInt8) : Nat → UInt64 :=
  Function.update mem (a / 8 * 8) (setByte (mem (a / 8 * 8)) (a % 8) c)

/-! ## Lanes of a word -/

theorem getLsbD_255 (m : Nat) : (255#64).getLsbD m = decide (m < 8) := by
  rw [BitVec.getLsbD_ofNat, show (255 : Nat) = 2 ^ 8 - 1 from rfl, Nat.testBit_two_pow_sub_one]
  by_cases hm : m < 8
  · simp only [hm, decide_true, Bool.and_true]
    exact decide_eq_true (by omega)
  · simp [hm]

theorem getElem_255 {m : Nat} (h : m < 64) : (255#64)[m] = decide (m < 8) := by
  rw [← BitVec.getLsbD_eq_getElem]
  exact getLsbD_255 m

/-- The lane written reads back. -/
theorem getByte_setByte_self (w : UInt64) {k : Nat} (hk : k < 8) (c : UInt8) :
    getByte (setByte w k c) k = c := by
  apply UInt8.toBitVec_inj.mp
  apply BitVec.eq_of_getLsbD_eq
  intro i hi
  have h8 : (8 * k) % 18446744073709551616 % 64 = 8 * k := by omega
  have hlt : 8 * k + i < 64 := by omega
  have hb : ¬8 * k + i < 8 * k := by omega
  have hm : (255#64)[i] = true := by
    rw [getElem_255 (by omega)]
    exact decide_eq_true hi
  simp [getByte, setByte, h8, hi, hlt, hb, hm]

/-- The other lanes keep their bytes: below the lane written its mask is
clear, above it the byte written has no bits. -/
theorem getByte_setByte_of_ne (w : UInt64) {k j : Nat} (hk : k < 8) (hj : j < 8) (hne : j ≠ k) (c : UInt8) :
    getByte (setByte w k c) j = getByte w j := by
  apply UInt8.toBitVec_inj.mp
  apply BitVec.eq_of_getLsbD_eq
  intro i hi
  have h8 : (8 * k) % 18446744073709551616 % 64 = 8 * k := by omega
  have h8' : (8 * j) % 18446744073709551616 % 64 = 8 * j := by omega
  have hlt : 8 * j + i < 64 := by omega
  rcases Nat.lt_or_gt_of_ne hne with hjk | hjk
  · have hb : 8 * j + i < 8 * k := by omega
    simp [getByte, setByte, h8, h8', hi, hlt, hb]
  · have hb : ¬8 * j + i < 8 * k := by omega
    have hc : c.toBitVec.getLsbD (8 * j + i - 8 * k) = false := BitVec.getLsbD_of_ge _ _ (by omega)
    have hm : (255#64)[8 * j + i - 8 * k] = false := by
      rw [getElem_255 (by omega)]
      exact decide_eq_false (by omega)
    simp [getByte, setByte, h8, h8', hi, hlt, hb, hc, hm]

/-! ## Bytes of the memory -/

section Memory

variable {mem : Nat → UInt64}

/-- **A store writes its byte and no other.** -/
@[simp] theorem load_store (a : Nat) (c : UInt8) (b : Nat) :
    load (store mem a c) b = if b = a then c else load mem b := by
  by_cases hb : b = a
  · subst hb
    simp [load, store, getByte_setByte_self _ (Nat.mod_lt b (by decide))]
  · rw [if_neg hb]
    by_cases hw : b / 8 * 8 = a / 8 * 8
    · -- the same word, another lane
      have hlane : b % 8 ≠ a % 8 := by omega
      simp only [load, store, hw, Function.update_self]
      exact getByte_setByte_of_ne _ (Nat.mod_lt a (by decide)) (Nat.mod_lt b (by decide)) hlane c
    · simp only [load, store, Function.update_of_ne hw]

/-- A store changes the word its byte lies in and no other. -/
theorem store_of_ne {a w : Nat} (c : UInt8) (hw : w ≠ a / 8 * 8) : store mem a c w = mem w :=
  Function.update_of_ne hw _ _

end Memory

end ByteMem

end Mkros
