import Mathlib.Data.List.Nodup
/-!
# Singly linked lists through a `next` field

A list threaded through its own nodes, as an intrusive free list is: each
node's `next` names the one after it, and `null` ends the list.
`Linked next null h l` says that following `next` from the head `h` visits the
nodes `l`, none of them `null`, and then reaches `null`.

A list reads only the `next` of its own nodes (`linked_congr`), so a write
elsewhere leaves it alone; pushing a node in front takes one write of its
`next` (`Linked.push`), and popping reads it (`linked_cons`). Since `next`
is a function, the list from a head is unique (`Linked.unique`), and so it
repeats no node (`Linked.nodup`): a node met twice would send the walk round
forever.
-/

namespace Mkros

namespace SList

variable {α : Type}

/-- From `h`, `next` visits the nodes `l`, none of them `null`, then `null`. -/
def Linked (next : α → α) (null : α) : α → List α → Prop
  | h, [] => h = null
  | h, x :: l => h = x ∧ x ≠ null ∧ Linked next null (next x) l

variable {next next' : α → α} {null : α}

@[simp] theorem linked_nil {h : α} : Linked next null h [] ↔ h = null := Iff.rfl

@[simp] theorem linked_cons {h x : α} {l : List α} :
    Linked next null h (x :: l) ↔ h = x ∧ x ≠ null ∧ Linked next null (next x) l := Iff.rfl

/-- **A list reads only the `next` of its own nodes.** -/
theorem linked_congr {h : α} {l : List α} (hnext : ∀ x ∈ l, next' x = next x) :
    Linked next' null h l ↔ Linked next null h l := by
  induction l generalizing h with
  | nil => rfl
  | cons x l ih =>
    rw [linked_cons, linked_cons, hnext x List.mem_cons_self,
      ih fun y hy => hnext y (List.mem_cons_of_mem _ hy)]

/-- **Pushing**: a node off the list whose `next` is the head heads the list,
where `next` is as before on the list's nodes. -/
theorem Linked.push {h : α} {l : List α} (hl : Linked next null h l) {x : α} (hxn : x ≠ null)
    (hx : next' x = h) (hframe : ∀ y ∈ l, next' y = next y) : Linked next' null x (x :: l) :=
  ⟨rfl, hxn, hx ▸ (linked_congr hframe).mpr hl⟩

/-- **The list from a head is unique.** -/
theorem Linked.unique {h : α} {l l' : List α} (hl : Linked next null h l) (hl' : Linked next null h l') :
    l = l' := by
  induction l generalizing h l' with
  | nil =>
    cases l' with
    | nil => rfl
    | cons x l' => exact absurd (hl'.1.symm.trans hl) hl'.2.1
  | cons x l ih =>
    cases l' with
    | nil => exact absurd (hl.1.symm.trans hl') hl.2.1
    | cons y l' =>
      have hxy : x = y := hl.1.symm.trans hl'.1
      subst hxy
      rw [ih hl.2.2 hl'.2.2]

/-- Walking past the nodes `l₁` leaves the list's rest. -/
theorem Linked.of_append {h x : α} {l₁ l₂ : List α} (hl : Linked next null h (l₁ ++ x :: l₂)) :
    Linked next null x (x :: l₂) := by
  induction l₁ generalizing h with
  | nil =>
    obtain ⟨rfl, hl⟩ := hl
    exact ⟨rfl, hl⟩
  | cons y l₁ ih => exact ih hl.2.2

/-- **A list repeats no node.** -/
theorem Linked.nodup {h : α} {l : List α} (hl : Linked next null h l) : l.Nodup := by
  induction l generalizing h with
  | nil => exact List.nodup_nil
  | cons x l ih =>
    refine List.nodup_cons.mpr ⟨fun hx => ?_, ih hl.2.2⟩
    -- met again further on, `x` would head a shorter list than its own
    obtain ⟨l₁, l₂, rfl⟩ := List.append_of_mem hx
    have hagain := hl.2.2.of_append
    have hsame := Linked.unique (linked_cons.mpr ⟨rfl, hl.2.1, hl.2.2⟩) hagain
    have hlen := congrArg List.length hsame
    simp only [List.length_cons, List.length_append] at hlen
    omega

end SList

end Mkros
