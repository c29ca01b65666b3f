import Mathlib.Logic.Function.Basic
import Mathlib.Data.Nat.ModEq
import Mathlib.Data.List.Range
/-!
# Circular buffers read through free-running counters

A buffer of `N` cells, written at `w % N` and read at `r % N` by two
counters that only ever go up: the buffer holds the `c = w - r` cells from
`r % N` on (`window`), oldest first. A write at the first cell past the
window, while it holds fewer than `N`, adds one cell at the end
(`window_push`); a read of the first cell takes it off the front
(`window_succ_left`).

The counters are unsigned machine words (`UInt32`), so they wrap. Where `N`
divides the word's range the wrap moves no cell: the cell a counter names
is the cell `r + c` names, for `c` the counters' difference
(`toNat_mod_eq_add_sub`), and that difference moves by one at each step
(`sub_toNat_add_one`, `sub_toNat_sub_one`).
-/

namespace Mkros

namespace CircBuf

variable {β : Type}

/-- The `c` cells of an `N`-cell buffer from counter `r` on. -/
def window (buf : Nat → β) (N r c : Nat) : List β :=
  (List.range c).map fun i => buf ((r + i) % N)

section Window

variable {buf : Nat → β} {N r c : Nat}

@[simp] theorem length_window : (window buf N r c).length = c := by
  simp [window]

@[simp] theorem window_zero : window buf N r 0 = [] := rfl

theorem window_succ : window buf N r (c + 1) = window buf N r c ++ [buf ((r + c) % N)] := by
  simp [window, List.range_succ]

/-- Reading the first cell leaves the window one further on. -/
theorem window_succ_left : window buf N r (c + 1) = buf (r % N) :: window buf N (r + 1) c := by
  simp only [window, List.range_succ_eq_map, List.map_cons, List.map_map, Nat.add_zero]
  congr 1
  refine List.map_congr_left fun i _ => ?_
  simp only [Function.comp_apply, Nat.add_assoc, Nat.add_comm 1 i]

/-- A window is the window of its first `a` cells, then the next `b`. -/
theorem window_append {a b : Nat} : window buf N r (a + b) = window buf N r a ++ window buf N (r + a) b := by
  simp only [window, List.range_add, List.map_append, List.map_map]
  congr 1
  refine List.map_congr_left fun i _ => ?_
  simp only [Function.comp_apply, Nat.add_assoc]

/-- Two counters naming the same cell start the same window. -/
theorem window_start {r' : Nat} (h : r % N = r' % N) : window buf N r c = window buf N r' c := by
  simp only [window]
  refine List.map_congr_left fun i _ => ?_
  rw [Nat.add_mod, h, ← Nat.add_mod]

/-- A counter read modulo a multiple of `N` names the same cells. -/
theorem window_mod {M : Nat} (hN : N ∣ M) : window buf N (r % M) c = window buf N r c := by
  simp only [window]
  refine List.map_congr_left fun i _ => ?_
  rw [Nat.add_mod, Nat.mod_mod_of_dvd _ hN, ← Nat.add_mod]

/-- Two cells of a window are apart in the buffer. -/
theorem mod_ne_of_lt {i j : Nat} (hij : i < j) (hj : j < N) : (r + i) % N ≠ (r + j) % N := by
  intro h
  have hmod : i % N = j % N := Nat.ModEq.add_left_cancel' r h
  rw [Nat.mod_eq_of_lt (Nat.lt_trans hij hj), Nat.mod_eq_of_lt hj] at hmod
  exact Nat.ne_of_lt hij hmod

/-- Only the cells inside the window are read. -/
theorem window_congr {buf' : Nat → β} (h : ∀ i < c, buf ((r + i) % N) = buf' ((r + i) % N)) :
    window buf N r c = window buf' N r c := by
  simp only [window]
  exact List.map_congr_left fun i hi => h i (List.mem_range.mp hi)

/-- **A write past the window** adds the cell at its end, while the window
is short of the whole buffer. -/
theorem window_push (hc : c < N) (x : β) :
    window (Function.update buf ((r + c) % N) x) N r (c + 1) = window buf N r c ++ [x] := by
  rw [window_succ, Function.update_self]
  congr 1
  exact window_congr fun i hi => Function.update_of_ne (mod_ne_of_lt hi hc) ..

end Window

/-! ## Free-running counters -/

section Counter

variable {N : Nat}

/-- The cell counter `w` names is the one `r + (w - r)` names. -/
theorem toNat_mod_eq_add_sub (hN : N ∣ 2 ^ 32) (w r : UInt32) :
    w.toNat % N = (r.toNat + (w - r).toNat) % N := by
  rw [UInt32.toNat_sub, Nat.add_mod, Nat.mod_mod_of_dvd _ hN, ← Nat.add_mod]
  have hr := UInt32.toNat_lt r
  have hsum : r.toNat + (2 ^ 32 - r.toNat + w.toNat) = w.toNat + 2 ^ 32 := by omega
  rw [hsum, Nat.add_mod, Nat.mod_eq_zero_of_dvd hN, Nat.add_zero, Nat.mod_mod]

/-- A step of the front counter grows the difference by one. -/
theorem sub_toNat_add_one {w r : UInt32} (h : (w - r).toNat + 1 < 2 ^ 32) :
    (w + 1 - r).toNat = (w - r).toNat + 1 := by
  have hw := UInt32.toNat_lt w
  have hr := UInt32.toNat_lt r
  simp only [UInt32.toNat_sub, UInt32.toNat_add, UInt32.toNat_one] at h ⊢
  omega

/-- A step of the back counter shrinks the difference by one. -/
theorem sub_toNat_sub_one {w r : UInt32} (h : 0 < (w - r).toNat) :
    (w - (r + 1)).toNat = (w - r).toNat - 1 := by
  have hw := UInt32.toNat_lt w
  have hr := UInt32.toNat_lt r
  simp only [UInt32.toNat_sub, UInt32.toNat_add, UInt32.toNat_one] at h ⊢
  omega

/-- A step back of the front counter shrinks the difference by one. -/
theorem sub_one_sub_toNat {w r : UInt32} (h : 0 < (w - r).toNat) :
    (w - 1 - r).toNat = (w - r).toNat - 1 := by
  have hw := UInt32.toNat_lt w
  have hr := UInt32.toNat_lt r
  simp only [UInt32.toNat_sub, UInt32.toNat_one] at h ⊢
  omega

/-- Where `w'` is as far past `r` as `w` is or further, it is that much past
`w`. -/
theorem sub_toNat_of_le {w' w r : UInt32} (h : (w - r).toNat ≤ (w' - r).toNat) :
    (w' - w).toNat = (w' - r).toNat - (w - r).toNat := by
  have hw' := UInt32.toNat_lt w'
  have hw := UInt32.toNat_lt w
  have hr := UInt32.toNat_lt r
  simp only [UInt32.toNat_sub] at h ⊢
  omega

/-- Differences along three counters add up, short of the word's range. -/
theorem sub_toNat_add_sub_toNat {e w r : UInt32} (h : (e - w).toNat + (w - r).toNat < 2 ^ 32) :
    (e - r).toNat = (e - w).toNat + (w - r).toNat := by
  have he := UInt32.toNat_lt e
  have hw := UInt32.toNat_lt w
  have hr := UInt32.toNat_lt r
  simp only [UInt32.toNat_sub] at h ⊢
  omega

/-- The counters meet exactly when their difference is zero. -/
theorem eq_iff_sub_toNat_eq_zero {w r : UInt32} : r = w ↔ (w - r).toNat = 0 := by
  have hw := UInt32.toNat_lt w
  have hr := UInt32.toNat_lt r
  rw [UInt32.toNat_sub, UInt32.ext_iff]
  omega

/-- `w == r + k` exactly when the difference is `k`. -/
theorem eq_add_iff_sub_toNat {w r : UInt32} {k : Nat} (hk : k < 2 ^ 32) :
    w = r + k.toUInt32 ↔ (w - r).toNat = k := by
  have hw := UInt32.toNat_lt w
  have hr := UInt32.toNat_lt r
  rw [UInt32.toNat_sub, UInt32.ext_iff, UInt32.toNat_add, Nat.toUInt32, UInt32.toNat_ofNat']
  omega

end Counter

end CircBuf

end Mkros
