import Mathlib.Algebra.BigOperators.Group.Finset.Basic
/-!
# Folds that spend a budget, and budgets shared out

A loop over a list whose body can fail, and does not while the state keeps an
invariant and has room for what the element takes. Each element `a` takes
`use a` of a budget in an additive monoid; a body that, with room for
`use a + rest`, succeeds and leaves room for `rest`, makes the whole fold
succeed when there is room for the sum; more generally, a body that keeps
an invariant of the state and the rest of the list makes it succeed
(`foldlM_ok_of_rest`), and a fold commutes with a map of states that each
pass commutes with (`foldlM_hom`).

A budget can also be held in shares by finitely many parties, each share a
function of the party's state: when one party's state changes, the total
changes by the difference of that party's share alone (`sum_update_add`).
-/

namespace Mkros

namespace Budget

variable {ε σ α U : Type} [AddMonoid U]

/-- A step that succeeded passes its value on. -/
@[simp] theorem ok_bind {β : Type} (a : α) (f : α → Except ε β) : (Except.ok a >>= f) = f a := rfl

@[simp] theorem map_ok {β : Type} (f : α → β) (a : α) : (f <$> (Except.ok a : Except ε α)) = .ok (f a) :=
  rfl

/-- **The run lemma.** The fold succeeds, keeps the invariant `I`, and leaves
room `R` for `rest`. -/
theorem foldlM_ok {f : σ → α → Except ε σ} {I : σ → Prop} {R : σ → U → Prop} {u : α → U}
    {P : α → Prop}
    (step : ∀ s a rest, I s → P a → R s (u a + rest) → ∃ s', f s a = .ok s' ∧ I s' ∧ R s' rest) :
    ∀ (as : List α) (s : σ) (rest : U), I s → (∀ a ∈ as, P a) →
      R s ((as.map u).sum + rest) → ∃ s', as.foldlM f s = .ok s' ∧ I s' ∧ R s' rest
  | [], s, rest, hI, _, hroom => ⟨s, rfl, hI, by simpa using hroom⟩
  | a :: as, s, rest, hI, hP, hroom => by
    rw [List.map_cons, List.sum_cons, add_assoc] at hroom
    obtain ⟨s₁, hs₁, hI₁, hroom₁⟩ := step s a _ hI (hP a List.mem_cons_self) hroom
    obtain ⟨s₂, hs₂, hI₂, hroom₂⟩ :=
      foldlM_ok step as s₁ rest hI₁ (fun b hb => hP b (List.mem_cons_of_mem a hb)) hroom₁
    refine ⟨s₂, ?_, hI₂, hroom₂⟩
    rw [List.foldlM_cons, hs₁]
    exact hs₂

/-- **The run lemma, with the rest of the list in the invariant.** A body
that, from a state with the invariant for `a :: rest`, succeeds into one
with the invariant for `rest` makes the whole fold succeed. -/
theorem foldlM_ok_of_rest {f : σ → α → Except ε σ} {P : σ → List α → Prop}
    (step : ∀ s a rest, P s (a :: rest) → ∃ s', f s a = .ok s' ∧ P s' rest) :
    ∀ (as : List α) (s : σ), P s as → ∃ s', as.foldlM f s = .ok s' ∧ P s' []
  | [], s, h => ⟨s, rfl, h⟩
  | a :: as, s, h => by
    obtain ⟨s₁, h₁, hP₁⟩ := step s a as h
    obtain ⟨s₂, h₂, hP₂⟩ := foldlM_ok_of_rest step as s₁ hP₁
    refine ⟨s₂, ?_, hP₂⟩
    rw [List.foldlM_cons, h₁]
    exact h₂

/-- **A fold carried along a map of states.** Where each pass from `g s` is
the pass from `s` followed by `g`, so is the whole fold. -/
theorem foldlM_hom {τ : Type} (g : σ → τ) {f : σ → α → Except ε σ} {f' : τ → α → Except ε τ}
    (H : ∀ s a, f' (g s) a = g <$> f s a) :
    ∀ (as : List α) (s : σ), as.foldlM f' (g s) = g <$> as.foldlM f s
  | [], _ => rfl
  | a :: as, s => by
    rw [List.foldlM_cons, List.foldlM_cons, H]
    cases f s a with
    | error e => rfl
    | ok s₁ => exact foldlM_hom g H as s₁

/-! ## Shares -/

section Shares

variable {τ : Type} [Fintype τ] [DecidableEq τ] {V : Type} [AddCommMonoid V]

/-- **One party's new state.** The total of the shares after party `i`
moves to `x`, with `i`'s old share, is the old total with its new one. -/
theorem sum_update_add (f : σ → V) (g : τ → σ) (i : τ) (x : σ) :
    ∑ t, f (Function.update g i x t) + f (g i) = ∑ t, f (g t) + f x := by
  rw [← Finset.add_sum_erase _ _ (Finset.mem_univ i),
    ← Finset.add_sum_erase _ (fun t => f (g t)) (Finset.mem_univ i), Function.update_self]
  -- the other parties' shares do not move
  have hrest : ∑ t ∈ Finset.univ.erase i, f (Function.update g i x t) =
      ∑ t ∈ Finset.univ.erase i, f (g t) :=
    Finset.sum_congr rfl fun t ht => by rw [Function.update_of_ne (Finset.ne_of_mem_erase ht)]
  rw [hrest, add_comm (f x), add_comm (f (g i)), add_right_comm]

end Shares

end Budget

end Mkros
