import Mathlib.Data.List.Basic
/-!
# Atomic writes, and what a crash leaves

A store written one location at a time, each write atomic: a procedure is the
list of writes it issues, and a crash in its middle leaves some prefix of that
list applied. `applyAll` runs a list of writes; `issue` turns a procedure whose
writes are computed from the current contents — a later write may read what
an earlier one wrote — into the list it issues.

The rules here are the ones crash proofs need: a location no write names keeps
its contents (`applyAll_of_forall_ne`), and the last write to a location wins
whatever the location held (`applyAll_congr`).
-/

namespace Mkros

namespace Writes

variable {α β : Type*} [DecidableEq α]

/-- One atomic write: `a` now holds `v`. -/
def write (d : α → β) (a : α) (v : β) : α → β := fun x => if x = a then v else d x

/-- A list of writes, applied in order. -/
def applyAll (d : α → β) : List (α × β) → α → β
  | [] => d
  | w :: ws => applyAll (write d w.1 w.2) ws

/-- The writes a procedure issues when each is computed from the contents the
earlier ones left. -/
def issue (d : α → β) : List ((α → β) → α × β) → List (α × β)
  | [] => []
  | f :: fs => f d :: issue (write d (f d).1 (f d).2) fs

@[simp] theorem write_self (d : α → β) (a : α) (v : β) : write d a v a = v := by
  simp [write]

theorem write_of_ne {d : α → β} {a x : α} (v : β) (h : x ≠ a) : write d a v x = d x := by
  simp [write, h]

@[simp] theorem applyAll_nil (d : α → β) : applyAll d [] = d := rfl

@[simp] theorem applyAll_cons (d : α → β) (w : α × β) (ws : List (α × β)) :
    applyAll d (w :: ws) = applyAll (write d w.1 w.2) ws := rfl

theorem applyAll_append (d : α → β) (ws vs : List (α × β)) :
    applyAll d (ws ++ vs) = applyAll (applyAll d ws) vs := by
  induction ws generalizing d with
  | nil => rfl
  | cons w ws ih => exact ih _

/-- **The frame rule**: a location no write names keeps its contents. -/
theorem applyAll_of_forall_ne {d : α → β} {ws : List (α × β)} {x : α}
    (h : ∀ w ∈ ws, w.1 ≠ x) : applyAll d ws x = d x := by
  induction ws generalizing d with
  | nil => rfl
  | cons w ws ih =>
    rw [applyAll_cons, ih fun w' hw' => h w' (List.mem_cons_of_mem _ hw')]
    exact write_of_ne _ (h w List.mem_cons_self).symm

/-- **The last write wins**: where the writes name a location, what it held
before does not matter. -/
theorem applyAll_congr {d d' : α → β} {ws : List (α × β)} {x : α}
    (h : (∃ w ∈ ws, w.1 = x) ∨ d x = d' x) : applyAll d ws x = applyAll d' ws x := by
  induction ws generalizing d d' with
  | nil =>
    rcases h with ⟨w, hw, -⟩ | h
    · exact absurd hw List.not_mem_nil
    · exact h
  | cons w ws ih =>
    refine ih ?_
    by_cases hx : x = w.1
    · right
      subst hx
      simp
    · rcases h with ⟨w', hw', hw'x⟩ | h
      · rcases List.mem_cons.mp hw' with rfl | hw'
        · exact absurd hw'x.symm hx
        · exact Or.inl ⟨w', hw', hw'x⟩
      · right
        rw [write_of_ne _ hx, write_of_ne _ hx, h]

/-- Where every write naming `x` writes `v`, and one does, `x` ends up
holding `v`. -/
theorem applyAll_of_forall_eq {d : α → β} {ws : List (α × β)} {x : α} {v : β}
    (hx : ∃ w ∈ ws, w.1 = x) (hv : ∀ w ∈ ws, w.1 = x → w.2 = v) : applyAll d ws x = v := by
  induction ws generalizing d with
  | nil =>
    obtain ⟨w, hw, -⟩ := hx
    exact absurd hw List.not_mem_nil
  | cons w ws ih =>
    rw [applyAll_cons]
    by_cases hlater : ∃ w' ∈ ws, w'.1 = x
    · exact ih hlater fun w' hw' => hv w' (List.mem_cons_of_mem _ hw')
    · -- the head is the only write naming `x`
      simp only [not_exists, not_and] at hlater
      obtain ⟨w', hw', hw'x⟩ := hx
      have hwx : w.1 = x := by
        rcases List.mem_cons.mp hw' with rfl | hw'
        · exact hw'x
        · exact absurd hw'x (hlater w' hw')
      rw [applyAll_of_forall_ne hlater, ← hwx, write_self]
      exact hv w List.mem_cons_self hwx

@[simp] theorem issue_nil (d : α → β) : issue d [] = [] := rfl

theorem issue_cons (d : α → β) (f : (α → β) → α × β) (fs : List ((α → β) → α × β)) :
    issue d (f :: fs) = f d :: issue (write d (f d).1 (f d).2) fs := rfl

/-- A procedure of two parts issues the first part's writes, then the
second's, computed from what the first left. -/
theorem issue_append (d : α → β) (fs gs : List ((α → β) → α × β)) :
    issue d (fs ++ gs) = issue d fs ++ issue (applyAll d (issue d fs)) gs := by
  induction fs generalizing d with
  | nil => rfl
  | cons f fs ih => simp only [List.cons_append, issue_cons, ih, applyAll_cons]

/-- **Writes that do not disturb each other's reads** are issued as computed
from the starting contents: where every step reads only locations in `R` and
writes outside `R`, no write changes what a later one computes. -/
theorem issue_eq_map {R : α → Prop} {d : α → β} {fs : List ((α → β) → α × β)}
    (hread : ∀ f ∈ fs, ∀ d d' : α → β, (∀ x, R x → d x = d' x) → f d = f d')
    (hwrite : ∀ f ∈ fs, ∀ d : α → β, ¬R (f d).1) :
    issue d fs = fs.map fun f => f d := by
  induction fs generalizing d with
  | nil => rfl
  | cons f fs ih =>
    rw [issue_cons, List.map_cons, ih (fun g hg => hread g (List.mem_cons_of_mem _ hg))
      (fun g hg => hwrite g (List.mem_cons_of_mem _ hg))]
    congr 1
    refine List.map_congr_left fun g hg => hread g (List.mem_cons_of_mem _ hg) _ _ fun x hx => ?_
    exact write_of_ne _ fun h => hwrite f List.mem_cons_self d (h ▸ hx)

end Writes

end Mkros
