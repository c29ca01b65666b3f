import Mathlib.Tactic.NormNum
/-!
# C's `int` and `unsigned int` as integers

A 32-bit `int` holds an integer of `[-2^31, 2^31)` (`IsInt`), an
`unsigned int` a natural below `2^32`. Storing an integer into an `int`
keeps its residue modulo `2^32` in that range, as two's complement
arithmetic wraps and as GCC converts a wider value (`sint`, the balanced
residue); converting to `unsigned int` keeps the residue in `[0, 2^32)`
(`uint`). Both read only the residue, so they compose (`uint_sint`,
`sint_add_sint`), and a value already in range is kept (`sint_of_isInt`,
`uint_of_lt`). Where a sum leaves the range by less than a turn, `sint`
takes one turn off (`sint_of_wrap`).
-/

namespace Mkros

namespace CInt

/-- An integer stored into a 32-bit `int`. -/
def sint (x : Int) : Int := x.bmod (2 ^ 32)

/-- An integer converted to a 32-bit `unsigned int`. -/
def uint (x : Int) : Nat := (x % 2 ^ 32).toNat

/-- The values of a 32-bit `int`. -/
def IsInt (x : Int) : Prop := -2 ^ 31 ≤ x ∧ x < 2 ^ 31

instance (x : Int) : Decidable (IsInt x) := inferInstanceAs (Decidable (_ ∧ _))

variable {x y : Int}

/-- `sint` as arithmetic: the residue, less a turn in the upper half. -/
theorem sint_eq (x : Int) : sint x = x % 2 ^ 32 - if 2 ^ 31 ≤ x % 2 ^ 32 then 2 ^ 32 else 0 := by
  unfold sint
  rw [Int.bmod_eq_emod]
  push_cast
  split_ifs <;> omega

theorem isInt_sint (x : Int) : IsInt (sint x) := by
  rw [IsInt, sint_eq]
  split <;> omega

theorem sint_of_isInt (h : IsInt x) : sint x = x := by
  obtain ⟨h₁, h₂⟩ := h
  rw [sint_eq]
  split <;> omega

/-- A value a turn above the range is stored a turn lower. -/
theorem sint_of_wrap (h₁ : 2 ^ 31 ≤ x) (h₂ : x < 2 ^ 32 + 2 ^ 31) : sint x = x - 2 ^ 32 := by
  rw [sint_eq]
  split <;> omega

theorem uint_lt (x : Int) : uint x < 2 ^ 32 := by
  unfold uint
  omega

theorem uint_of_lt (h₀ : 0 ≤ x) (h : x < 2 ^ 32) : (uint x : Int) = x := by
  unfold uint
  omega

@[simp] theorem uint_sint (x : Int) : uint (sint x) = uint x := by
  unfold uint
  rw [sint_eq]
  split <;> omega

theorem sint_add_sint (x y : Int) : sint (sint x + y) = sint (x + y) := Int.bmod_add_bmod

@[simp] theorem uint_sint_add (x y : Int) : uint (sint x + y) = uint (x + y) := by
  unfold uint
  rw [sint_eq]
  split <;> omega

@[simp] theorem uint_sint_sub (x y : Int) : uint (sint x - y) = uint (x - y) := by
  unfold uint
  rw [sint_eq]
  split <;> omega

/-- An `int` `o` that lies `uint (o - s)` past `s`, without leaving the
range: the wrapped difference is the difference. -/
theorem eq_add_uint_sub (ho : IsInt x) (hy : 0 ≤ y) (h : y + uint (x - y) < 2 ^ 31) : x = y + uint (x - y) := by
  obtain ⟨h₁, h₂⟩ := ho
  unfold uint at *
  omega

theorem sint_emod_four (x : Int) : sint x % 4 = x % 4 := by
  rw [sint_eq]
  split <;> omega

end CInt

end Mkros
