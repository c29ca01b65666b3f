import Mathlib.Logic.Function.Basic
import Mathlib.Data.List.Basic
/-!
# Pools: resources each free or held by one holder

A pool marks each of its resources free or busy, and each holder holds a
list of them. `Owns` is the invariant that makes the marks an ownership:
a held resource is busy, no two holders hold one resource, and a busy one
is held. Then every resource is free or held by exactly one holder
(`Owns.free_or_unique`). Marking free resources busy for a holder that held
none, and a holder giving back all it holds, keep it (`Owns.acquire`,
`Owns.release`).
-/

namespace Mkros

namespace Pool

variable {ι τ : Type} {valid : ι → Prop} {free : ι → Bool} {held : τ → List ι}

/-- **The ownership invariant** of a pool whose resources are those `valid`. -/
structure Owns (valid : ι → Prop) (free : ι → Bool) (held : τ → List ι) : Prop where
  /-- A held resource is busy. -/
  busy : ∀ p i, i ∈ held p → free i = false
  /-- No two holders hold one resource. -/
  unique : ∀ p q i, i ∈ held p → i ∈ held q → p = q
  /-- A busy resource is held. -/
  held_of_busy : ∀ i, valid i → free i = false → ∃ p, i ∈ held p

/-- **Every resource is free, or held by exactly one holder.** -/
theorem Owns.free_or_unique (h : Owns valid free held) {i : ι} (hi : valid i) :
    free i = true ∨ ∃! p, i ∈ held p := by
  cases hfree : free i with
  | true => exact .inl rfl
  | false =>
    obtain ⟨p, hp⟩ := h.held_of_busy i hi hfree
    exact .inr ⟨p, hp, fun q hq => h.unique q p i hq hp⟩

/-- Where the marks and the holdings are the same, so is the invariant. -/
theorem Owns.congr {free' : ι → Bool} {held' : τ → List ι} (h : Owns valid free held)
    (hfree : ∀ i, free' i = free i) (hheld : ∀ p, held' p = held p) : Owns valid free' held' :=
  ⟨fun p i hi => hfree i ▸ h.busy p i (hheld p ▸ hi),
    fun p q i hp hq => h.unique p q i (hheld p ▸ hp) (hheld q ▸ hq),
    fun i hi hb => (h.held_of_busy i hi (hfree i ▸ hb)).imp fun p hp => hheld p ▸ hp⟩

variable [DecidableEq ι]

/-- `l` marked busy. -/
def take (free : ι → Bool) (l : List ι) : ι → Bool := fun i => if i ∈ l then false else free i

/-- `l` marked free. -/
def give (free : ι → Bool) (l : List ι) : ι → Bool := fun i => if i ∈ l then true else free i

@[simp] theorem take_of_mem {free : ι → Bool} {l : List ι} {i : ι} (h : i ∈ l) : take free l i = false :=
  if_pos h

@[simp] theorem take_of_not_mem {free : ι → Bool} {l : List ι} {i : ι} (h : i ∉ l) : take free l i = free i :=
  if_neg h

@[simp] theorem give_of_mem {free : ι → Bool} {l : List ι} {i : ι} (h : i ∈ l) : give free l i = true :=
  if_pos h

@[simp] theorem give_of_not_mem {free : ι → Bool} {l : List ι} {i : ι} (h : i ∉ l) : give free l i = free i :=
  if_neg h

variable [DecidableEq τ]

/-- **Taking free resources** for a holder that held none keeps the
invariant. -/
theorem Owns.acquire (h : Owns valid free held) {p : τ} (hp : held p = []) {l : List ι}
    (hl : ∀ i ∈ l, free i = true) : Owns valid (take free l) (Function.update held p l) := by
  refine ⟨fun q i hi => ?_, fun q r i hq hr => ?_, fun i hi hb => ?_⟩
  · by_cases hqp : q = p
    · subst hqp
      rw [Function.update_self] at hi
      exact take_of_mem hi
    · rw [Function.update_of_ne hqp] at hi
      -- another holder's resource was busy, so not among the free ones taken
      have hbusy := h.busy q i hi
      have hnot : i ∉ l := fun hil => by rw [hl i hil] at hbusy; cases hbusy
      rw [take_of_not_mem hnot, hbusy]
  · -- a resource of `l` was free, so no other holder held it
    have hother : ∀ q, q ≠ p → i ∈ Function.update held p l q → i ∉ l := by
      intro q hqp hi hil
      rw [Function.update_of_ne hqp] at hi
      have := h.busy q i hi
      rw [hl i hil] at this
      cases this
    by_cases hqp : q = p <;> by_cases hrp : r = p
    · exact hqp.trans hrp.symm
    · subst hqp
      rw [Function.update_self] at hq
      exact absurd hq (hother r hrp hr)
    · subst hrp
      rw [Function.update_self] at hr
      exact absurd hr (hother q hqp hq)
    · rw [Function.update_of_ne hqp] at hq
      rw [Function.update_of_ne hrp] at hr
      exact h.unique q r i hq hr
  · by_cases hil : i ∈ l
    · exact ⟨p, by rw [Function.update_self]; exact hil⟩
    · rw [take_of_not_mem hil] at hb
      obtain ⟨q, hq⟩ := h.held_of_busy i hi hb
      -- `p` held nothing, so the holder is another
      have hqp : q ≠ p := fun hqp => by rw [hqp, hp] at hq; cases hq
      exact ⟨q, by rw [Function.update_of_ne hqp]; exact hq⟩

/-- **Giving back** all a holder holds keeps the invariant. -/
theorem Owns.release (h : Owns valid free held) (p : τ) :
    Owns valid (give free (held p)) (Function.update held p []) := by
  refine ⟨fun q i hi => ?_, fun q r i hq hr => ?_, fun i hi hb => ?_⟩
  · by_cases hqp : q = p
    · subst hqp
      rw [Function.update_self] at hi
      cases hi
    · rw [Function.update_of_ne hqp] at hi
      -- what another holder holds, `p` did not
      have hnot : i ∉ held p := fun hip => hqp (h.unique q p i hi hip)
      rw [give_of_not_mem hnot]
      exact h.busy q i hi
  · have hne : ∀ q, i ∈ Function.update held p [] q → q ≠ p := by
      intro q hi hqp
      rw [hqp, Function.update_self] at hi
      cases hi
    rw [Function.update_of_ne (hne q hq)] at hq
    rw [Function.update_of_ne (hne r hr)] at hr
    exact h.unique q r i hq hr
  · have hnot : i ∉ held p := fun hip => by rw [give_of_mem hip] at hb; cases hb
    rw [give_of_not_mem hnot] at hb
    obtain ⟨q, hq⟩ := h.held_of_busy i hi hb
    have hqp : q ≠ p := fun hqp => hnot (hqp ▸ hq)
    exact ⟨q, by rw [Function.update_of_ne hqp]; exact hq⟩

end Pool

end Mkros
