import Mathlib.Data.List.Range
/-!
# Reading a C string from a source that may fail

A loop that copies a NUL-terminated string takes its bytes in turn from a
source that may fail at any byte (an unmapped page, the end of a buffer), and
stops at the NUL, at the first byte it cannot read, or once it has taken
`max` bytes. `scan` is that reader one byte at a time: the bytes it takes,
the NUL included, and whether it met the NUL. A loop that works in chunks is
shown equal to it chunk by chunk; what it returns is then read off with
`scan_of_terminated` and `terminated_of_scan`, and `scan_length_le` bounds
what it writes.
-/

namespace Mkros

namespace CString

/-- The bytes read from `v` on, at most `max` of them, and whether the last
is the NUL. `get` is the source: `none` where a byte cannot be read. -/
def scan (get : Nat → Option UInt8) : Nat → Nat → List UInt8 × Bool
  | 0, _ => ([], false)
  | max + 1, v =>
    match get v with
    | none => ([], false)
    | some c => if c = 0 then ([0], true) else (c :: (scan get max (v + 1)).1, (scan get max (v + 1)).2)

/-- **A string of `k` bytes at `v`**, within `max`: the bytes from `v` up to
the `k`-th are readable, the `k`-th is the NUL and none before it is. -/
def Terminated (get : Nat → Option UInt8) (v max k : Nat) : Prop :=
  k < max ∧ get (v + k) = some 0 ∧ ∀ j < k, ∃ c, get (v + j) = some c ∧ c ≠ 0

variable {get : Nat → Option UInt8}

@[simp] theorem scan_zero (v : Nat) : scan get 0 v = ([], false) := rfl

/-- A step of the reader past a byte that is not the NUL. -/
theorem scan_succ_of_ne {max v : Nat} {c : UInt8} (hv : get v = some c) (hc : c ≠ 0) :
    scan get (max + 1) v = (c :: (scan get max (v + 1)).1, (scan get max (v + 1)).2) := by
  simp only [scan, hv, if_neg hc]

/-- **The reader takes `max` bytes at most.** -/
theorem scan_length_le : ∀ (max v : Nat), (scan get max v).1.length ≤ max
  | 0, _ => Nat.le_refl 0
  | max + 1, v => by
    unfold scan
    split
    · exact Nat.zero_le _
    · split
      · exact Nat.le_add_left 1 max
      · exact Nat.succ_le_succ (scan_length_le max (v + 1))

/-- A string one byte on is a string one byte shorter. -/
theorem Terminated.tail {v max k : Nat} (h : Terminated get v (max + 1) (k + 1)) :
    Terminated get (v + 1) max k := by
  obtain ⟨hk, hnul, hbefore⟩ := h
  refine ⟨by omega, by rw [Nat.add_right_comm, Nat.add_assoc]; exact hnul, fun j hj => ?_⟩
  rw [Nat.add_assoc, Nat.add_comm 1 j]
  exact hbefore (j + 1) (by omega)

/-- **On a string, the reader takes its bytes up to the NUL** and reports
the NUL. -/
theorem scan_of_terminated : ∀ {v max k : Nat}, Terminated get v max k →
    scan get max v = ((List.range (k + 1)).map fun j => (get (v + j)).getD 0, true)
  | _, 0, _, h => absurd h.1 (Nat.not_lt_zero _)
  | v, max + 1, 0, h => by
    have hnul : get v = some 0 := h.2.1
    simp [scan, hnul]
  | v, max + 1, k + 1, h => by
    obtain ⟨c, hc, hc0⟩ := h.2.2 0 (Nat.succ_pos k)
    rw [Nat.add_zero] at hc
    rw [scan_succ_of_ne hc hc0, scan_of_terminated h.tail, List.range_succ_eq_map (n := k + 1), List.map_cons,
      List.map_map]
    -- byte `j + 1` from `v` is byte `j` from `v + 1`
    have hshift : ((fun j => (get (v + j)).getD 0) ∘ Nat.succ) = fun j => (get (v + 1 + j)).getD 0 := by
      funext j
      simp only [Function.comp_apply, Nat.succ_eq_add_one, Nat.add_assoc, Nat.add_comm 1 j]
    rw [hshift]
    simp only [Nat.add_zero, hc, Option.getD_some]

/-- **A reader that met the NUL read a string.** -/
theorem terminated_of_scan : ∀ {max v : Nat}, (scan get max v).2 = true → ∃ k, Terminated get v max k
  | 0, _, h => absurd h Bool.false_ne_true
  | max + 1, v, h => by
    cases hv : get v with
    | none => simp [scan, hv] at h
    | some c =>
      by_cases hc : c = 0
      · subst hc
        exact ⟨0, Nat.succ_pos max, hv, fun j hj => absurd hj (Nat.not_lt_zero j)⟩
      · rw [scan_succ_of_ne hv hc] at h
        obtain ⟨k, hk, hnul, hbefore⟩ := terminated_of_scan h
        -- the string from `v + 1` is one byte shorter than the one from `v`
        have hshift : ∀ j, v + (j + 1) = v + 1 + j := fun j => by omega
        refine ⟨k + 1, by omega, by rw [hshift]; exact hnul, fun j hj => ?_⟩
        cases j with
        | zero => exact ⟨c, hv, hc⟩
        | succ j =>
          rw [hshift]
          exact hbefore j (by omega)

end CString

end Mkros
