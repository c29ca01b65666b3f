import Mathlib.Logic.Function.Basic
import Mathlib.Data.List.Nodup
import Mathlib.Data.List.Perm.Basic
/-!
# Circular doubly linked lists through `next` and `prev` fields

A list threaded through its nodes, as C writes one: every node has a `next`
and a `prev` field, and a sentinel node closes the circle. `Chain L x l y`
says that the links of `L` run from `x` through the nodes `l` to `y`, forward
by `next` and back by `prev`; `Cycle L h l` is such a chain from the sentinel
`h` round to itself, every node once. What the list holds is `l`.

The operations are the pointer writes C makes, in its order: `pushFront`
links a node in just after the sentinel, `unlink` takes one out, and `scan`
follows one direction from the sentinel until a node passes a test or the
walk is back at the sentinel. The lemmas say what each does to the list a
cycle holds (`Cycle.pushFront`, `Cycle.unlink`, `Cycle.moveFront`,
`Cycle.scan_next`, `Cycle.scan_prev`); the proofs rest on the frame lemma
`chain_congr` (a chain reads the links of its own nodes only) and the split
`chain_append`.
-/

namespace Mkros

/-- The two link fields of every node. -/
structure DLinks (α : Type) where
  next : α → α
  prev : α → α

namespace DLinks

variable {α : Type}

/-- The links read the other way round. -/
def swap (L : DLinks α) : DLinks α := ⟨L.prev, L.next⟩

/-- The links run from `x` through the nodes `l` to `y`: each node's `next`
is the one after it, and that one's `prev` is back. -/
def Chain (L : DLinks α) : α → List α → α → Prop
  | x, [], y => L.next x = y ∧ L.prev y = x
  | x, z :: l, y => L.next x = z ∧ L.prev z = x ∧ L.Chain z l y

/-- The loop `for (b = step(h); b != h; b = step(b)) if (p(b)) return b;`,
run for at most `fuel` rounds from `b`. -/
def scan [DecidableEq α] (step : α → α) (h : α) (p : α → Bool) : Nat → α → Option α
  | 0, _ => none
  | fuel + 1, b => if b = h then none else if p b then some b else scan step h p fuel (step b)

/-- A circle from the sentinel `h` through the nodes `l` and back, every node
once. -/
structure Cycle (L : DLinks α) (h : α) (l : List α) : Prop where
  nodup : (h :: l).Nodup
  chain : L.Chain h l h

/-! ## Chains -/

section Chain

variable {L L' : DLinks α}

@[simp] theorem chain_nil {x y : α} : L.Chain x [] y ↔ L.next x = y ∧ L.prev y = x := Iff.rfl

@[simp] theorem chain_cons {x y z : α} {l : List α} :
    L.Chain x (z :: l) y ↔ L.next x = z ∧ L.prev z = x ∧ L.Chain z l y := Iff.rfl

/-- **A chain reads only its own links**: `next` of its nodes but the last,
`prev` of its nodes but the first. -/
theorem chain_congr {x y : α} {l : List α} (hnext : ∀ u ∈ x :: l, L'.next u = L.next u)
    (hprev : ∀ v ∈ l ++ [y], L'.prev v = L.prev v) : L'.Chain x l y ↔ L.Chain x l y := by
  induction l generalizing x with
  | nil =>
    rw [chain_nil, chain_nil, hnext x List.mem_cons_self, hprev y (by simp)]
  | cons z l ih =>
    rw [chain_cons, chain_cons, hnext x List.mem_cons_self, hprev z (by simp),
      ih (fun u hu => hnext u (List.mem_cons_of_mem _ hu)) (fun v hv => hprev v (by simp [hv]))]

/-- A chain splits at any of its nodes. -/
theorem chain_append {x y m : α} {l₁ l₂ : List α} :
    L.Chain x (l₁ ++ m :: l₂) y ↔ L.Chain x l₁ m ∧ L.Chain m l₂ y := by
  induction l₁ generalizing x with
  | nil => simp only [List.nil_append, chain_cons, chain_nil, and_assoc]
  | cons w l₁ ih => simp only [List.cons_append, chain_cons, ih, and_assoc]

/-- Read backwards, a chain is the reversed chain of the swapped links. -/
theorem chain_swap {x y : α} {l : List α} : L.swap.Chain y l.reverse x ↔ L.Chain x l y := by
  induction l generalizing x with
  | nil => simp only [List.reverse_nil, chain_nil, swap, and_comm]
  | cons z l ih =>
    rw [List.reverse_cons, chain_append, ih, chain_nil, chain_cons]
    simp only [swap]
    constructor
    · rintro ⟨hc, hp, hn⟩
      exact ⟨hn, hp, hc⟩
    · rintro ⟨hn, hp, hc⟩
      exact ⟨hc, hp, hn⟩

/-- The node a chain starts from points on into the chain. -/
theorem Chain.next_mem {x y : α} {l : List α} (h : L.Chain x l y) : L.next x ∈ l ++ [y] := by
  cases l with
  | nil => simp [h.1]
  | cons z l => simp [h.1]

/-- The node a chain ends at points back into the chain. -/
theorem Chain.prev_mem {x y : α} {l : List α} (h : L.Chain x l y) : L.prev y ∈ x :: l := by
  induction l generalizing x with
  | nil => simp [h.2]
  | cons z l ih => exact List.mem_cons_of_mem _ (ih h.2.2)

/-- Along a chain, `next` then `prev` comes back. -/
theorem Chain.prev_next {x y : α} {l : List α} (h : L.Chain x l y) :
    ∀ u ∈ x :: l, L.prev (L.next u) = u := by
  induction l generalizing x with
  | nil =>
    intro u hu
    rw [List.mem_singleton.mp hu, h.1, h.2]
  | cons z l ih =>
    intro u hu
    rcases List.mem_cons.mp hu with rfl | hu
    · rw [h.1, h.2.1]
    · exact ih h.2.2 u hu

/-- Along a chain, `prev` then `next` comes back. -/
theorem Chain.next_prev {x y : α} {l : List α} (h : L.Chain x l y) :
    ∀ v ∈ l ++ [y], L.next (L.prev v) = v := by
  have hs := (chain_swap (L := L)).mpr h
  intro v hv
  have hv' : v ∈ y :: l.reverse := by simpa [or_comm] using hv
  exact hs.prev_next v hv'

/-- **The scan of a chain is `find?`.** Walking `next` from the chain's first
node finds the first node of `l` that passes, and stops at `y` when none
does. -/
theorem Chain.scan_next [DecidableEq α] {x y : α} {l : List α} (h : L.Chain x l y) (hy : y ∉ l) (p : α → Bool)
    {fuel : Nat} (hfuel : l.length < fuel) : scan L.next y p fuel (L.next x) = l.find? p := by
  induction l generalizing x fuel with
  | nil =>
    obtain ⟨fuel, rfl⟩ := Nat.exists_eq_add_of_lt hfuel
    simp [scan, h.1]
  | cons z l ih =>
    obtain ⟨fuel, rfl⟩ := Nat.exists_eq_add_of_lt hfuel
    have hzy : z ≠ y := fun hzy => hy (hzy ▸ List.mem_cons_self)
    rw [scan, h.1, if_neg hzy, List.find?_cons]
    cases p z with
    | true => rfl
    | false =>
      exact ih h.2.2 (fun hl => hy (List.mem_cons_of_mem _ hl)) (by rw [List.length_cons]; omega)

end Chain

/-! ## Cycles -/

namespace Cycle

variable {L : DLinks α} {h : α} {l : List α}

/-- The empty list: the sentinel's links point at itself. -/
theorem empty (hn : L.next h = h) (hp : L.prev h = h) : L.Cycle h [] :=
  ⟨List.nodup_singleton h, hn, hp⟩

theorem not_mem_head (hc : L.Cycle h l) : h ∉ l := (List.nodup_cons.mp hc.nodup).1

/-- **`b->next->prev = b` and `b->prev->next = b`** for the sentinel and every
node of the list. -/
theorem prev_next (hc : L.Cycle h l) : ∀ b ∈ h :: l, L.prev (L.next b) = b :=
  hc.chain.prev_next

theorem next_prev (hc : L.Cycle h l) : ∀ b ∈ h :: l, L.next (L.prev b) = b := by
  intro b hb
  exact hc.chain.next_prev b (by simpa [or_comm] using hb)

/-- Read by `prev`, the cycle holds the reversed list. -/
theorem swap (hc : L.Cycle h l) : L.swap.Cycle h l.reverse where
  nodup := by
    rw [List.nodup_cons, List.mem_reverse, List.nodup_reverse]
    exact List.nodup_cons.mp hc.nodup
  chain := chain_swap.mpr hc.chain

end Cycle

variable [DecidableEq α]

/-! ## The operations -/

/-- `b->next = h->next; b->prev = h; h->next->prev = b; h->next = b`. -/
def pushFront (L : DLinks α) (h b : α) : DLinks α :=
  let L := { L with next := Function.update L.next b (L.next h) }
  let L := { L with prev := Function.update L.prev b h }
  let L := { L with prev := Function.update L.prev (L.next h) b }
  { L with next := Function.update L.next h b }

/-- `b->next->prev = b->prev; b->prev->next = b->next`. -/
def unlink (L : DLinks α) (b : α) : DLinks α :=
  let L := { L with prev := Function.update L.prev (L.next b) (L.prev b) }
  { L with next := Function.update L.next (L.prev b) (L.next b) }

namespace Cycle

variable {L : DLinks α} {h : α} {l : List α}

/-- **The forward scan** from the sentinel finds the first node of the list
that passes. -/
theorem scan_next (hc : L.Cycle h l) (p : α → Bool) {fuel : Nat} (hfuel : l.length < fuel) :
    scan L.next h p fuel (L.next h) = l.find? p :=
  hc.chain.scan_next hc.not_mem_head p hfuel

/-- **The backward scan** from the sentinel finds the last node of the list
that passes. -/
theorem scan_prev (hc : L.Cycle h l) (p : α → Bool) {fuel : Nat} (hfuel : l.length < fuel) :
    scan L.prev h p fuel (L.prev h) = l.reverse.find? p := by
  have := hc.swap.scan_next p (by rwa [List.length_reverse])
  exact this

/-- The `next` fields after `pushFront`. -/
theorem pushFront_next (b : α) :
    (L.pushFront h b).next = Function.update (Function.update L.next b (L.next h)) h b := by
  simp only [pushFront]

/-- The `prev` fields after `pushFront` of a node other than the sentinel. -/
theorem pushFront_prev {b : α} (hb : b ≠ h) :
    (L.pushFront h b).prev = Function.update (Function.update L.prev b h) (L.next h) b := by
  simp only [pushFront, Function.update_of_ne hb.symm]

/-- **`pushFront` puts the node first.** -/
theorem pushFront (hc : L.Cycle h l) {b : α} (hb : b ∉ h :: l) : (L.pushFront h b).Cycle h (b :: l) := by
  have hbh : b ≠ h := fun e => hb (e ▸ List.mem_cons_self)
  have hbl : b ∉ l := fun e => hb (List.mem_cons_of_mem _ e)
  have hnd : (h :: b :: l).Nodup := by
    rw [List.nodup_cons, List.mem_cons, not_or]
    exact ⟨⟨hbh.symm, hc.not_mem_head⟩, List.nodup_cons.mpr ⟨hbl, (List.nodup_cons.mp hc.nodup).2⟩⟩
  refine ⟨hnd, ?_⟩
  rw [chain_cons, pushFront_next b, pushFront_prev hbh]
  refine ⟨Function.update_self .., ?_, ?_⟩
  · -- the node after the sentinel is in the circle, so it is not `b`
    have hfb : L.next h ≠ b := by
      intro e
      have hmem := hc.chain.next_mem
      rw [e, List.mem_append, List.mem_singleton] at hmem
      exact hmem.elim hbl hbh
    rw [Function.update_of_ne hfb.symm, Function.update_self]
  cases l with
  | nil =>
    obtain ⟨hn, -⟩ := hc.chain
    rw [chain_nil, pushFront_next b, pushFront_prev hbh, hn]
    exact ⟨by rw [Function.update_of_ne hbh, Function.update_self], Function.update_self ..⟩
  | cons z l =>
    obtain ⟨hn, -, hrest⟩ := hc.chain
    rw [chain_cons, pushFront_next b, pushFront_prev hbh, hn]
    refine ⟨by rw [Function.update_of_ne hbh, Function.update_self], Function.update_self .., ?_⟩
    -- the rest of the circle keeps its links
    have hzl : z ∉ l := (List.nodup_cons.mp (List.nodup_cons.mp hc.nodup).2).1
    refine (chain_congr (fun u hu => ?_) (fun v hv => ?_)).mpr hrest
    · have huh : u ≠ h := by rintro rfl; exact hc.not_mem_head hu
      have hub : u ≠ b := by rintro rfl; exact hbl hu
      rw [pushFront_next b, hn, Function.update_of_ne huh, Function.update_of_ne hub]
    · have hvz : v ≠ z := by
        rintro rfl
        rcases List.mem_append.mp hv with hv | hv
        · exact hzl hv
        · exact hc.not_mem_head (List.mem_singleton.mp hv ▸ List.mem_cons_self)
      have hvb : v ≠ b := by
        rintro rfl
        rcases List.mem_append.mp hv with hv | hv
        · exact hbl (List.mem_cons_of_mem _ hv)
        · exact hbh (List.mem_singleton.mp hv)
      rw [pushFront_prev hbh, hn, Function.update_of_ne hvz, Function.update_of_ne hvb]

/-- **Pushing nodes in turn** puts them in front, the last pushed first. -/
theorem pushFront_foldl (hc : L.Cycle h l) {bs : List α} (hnd : bs.Nodup)
    (hbs : ∀ b ∈ bs, b ∉ h :: l) :
    (bs.foldl (fun L b => L.pushFront h b) L).Cycle h (bs.reverse ++ l) := by
  induction bs generalizing L l with
  | nil => simpa using hc
  | cons b bs ih =>
    rw [List.foldl_cons, List.reverse_cons, List.append_assoc, List.singleton_append]
    refine ih (hc.pushFront (hbs b List.mem_cons_self)) (List.nodup_cons.mp hnd).2 (fun c hcs => ?_)
    have hc' := hbs c (List.mem_cons_of_mem _ hcs)
    simp only [List.mem_cons, not_or] at hc' ⊢
    exact ⟨hc'.1, fun e => (List.nodup_cons.mp hnd).1 (e ▸ hcs), hc'.2⟩

/-- The `next` fields after `unlink` of a node that does not point at
itself. -/
theorem unlink_next {b : α} (hb : L.next b ≠ b) :
    (L.unlink b).next = Function.update L.next (L.prev b) (L.next b) := by
  simp only [unlink, Function.update_of_ne hb.symm]

/-- The `prev` fields after `unlink`. -/
theorem unlink_prev (b : α) :
    (L.unlink b).prev = Function.update L.prev (L.next b) (L.prev b) := by
  simp only [unlink]

end Cycle

/-- **`unlink` bypasses the node**: the chain through `b` becomes the chain
without it. Induction on the part before `b`; the links past `b` are kept by
`chain_congr`. -/
theorem chain_unlink {L : DLinks α} {x y b : α} {l₁ l₂ : List α} (h₁ : L.Chain x l₁ b)
    (h₂ : L.Chain b l₂ y) (hnd : (x :: (l₁ ++ b :: l₂)).Nodup) (hy : y ∉ l₁ ++ b :: l₂) :
    (L.unlink b).Chain x (l₁ ++ l₂) y := by
  -- `b`'s successor is further on, so `b` does not point at itself
  have hbn : L.next b ≠ b := by
    intro e
    have hmem := h₂.next_mem
    rw [e, List.mem_append, List.mem_singleton] at hmem
    have hbl₂ : b ∉ l₂ := (List.nodup_cons.mp (List.nodup_append.mp (List.nodup_cons.mp hnd).2).2.1).1
    exact hmem.elim hbl₂ (fun hby => hy (by simp [hby]))
  induction l₁ generalizing x with
  | nil =>
    obtain ⟨hxb, hbx⟩ := h₁
    rw [List.nil_append]
    cases l₂ with
    | nil =>
      obtain ⟨hby, hyb⟩ := h₂
      rw [chain_nil, Cycle.unlink_next hbn, Cycle.unlink_prev, hbx, hby]
      exact ⟨Function.update_self .., Function.update_self ..⟩
    | cons z l₂ =>
      obtain ⟨hbz, hzb, hrest⟩ := h₂
      rw [chain_cons, Cycle.unlink_next hbn, Cycle.unlink_prev, hbx, hbz]
      refine ⟨Function.update_self .., Function.update_self .., ?_⟩
      -- past `b` the links are as they were
      simp only [List.nil_append, List.nodup_cons, List.mem_cons, not_or] at hnd hy
      refine (chain_congr (fun u hu => ?_) (fun v hv => ?_)).mpr hrest
      · have hux : u ≠ x := by
          rintro rfl
          rcases List.mem_cons.mp hu with rfl | hu
          · exact hnd.1.2.1 rfl
          · exact hnd.1.2.2 hu
        rw [Cycle.unlink_next hbn, hbx, Function.update_of_ne hux]
      · have hvz : v ≠ z := by
          rintro rfl
          rcases List.mem_append.mp hv with hv | hv
          · exact hnd.2.2.1 hv
          · exact hy.2.1 (List.mem_singleton.mp hv).symm
        rw [Cycle.unlink_prev, hbz, Function.update_of_ne hvz]
  | cons w l₁ ih =>
    obtain ⟨hxw, hwx, hrest⟩ := h₁
    have hnd' := List.nodup_cons.mp hnd
    rw [List.cons_append, chain_cons, Cycle.unlink_next hbn, Cycle.unlink_prev]
    refine ⟨?_, ?_, ih hrest hnd'.2 (fun e => hy (List.mem_cons_of_mem _ e))⟩
    · -- `b`'s predecessor is on the chain after `x`
      have hxa : x ≠ L.prev b := by
        intro e
        exact hnd'.1 (by rw [e]; exact List.mem_append_left _ hrest.prev_mem)
      rw [Function.update_of_ne hxa, hxw]
    · -- `b`'s successor is on the chain after `b`, which `w` precedes
      have hwc : w ≠ L.next b := by
        intro e
        have hmem := h₂.next_mem
        rw [← e, List.mem_append, List.mem_singleton] at hmem
        rcases hmem with hw | rfl
        · have hnd₂ := (List.nodup_cons.mp hnd'.2).1
          exact hnd₂ (List.mem_append_right _ (List.mem_cons_of_mem _ hw))
        · exact hy List.mem_cons_self
      rw [Function.update_of_ne hwc, hwx]

namespace Cycle

variable {L : DLinks α} {h : α} {l : List α}

/-- **`unlink` takes the node out of the list.** -/
theorem unlink {b : α} {l₁ l₂ : List α} (hc : L.Cycle h (l₁ ++ b :: l₂)) :
    (L.unlink b).Cycle h (l₁ ++ l₂) where
  nodup := hc.nodup.sublist (((List.sublist_cons_self b l₂).append_left l₁).cons_cons h)
  chain :=
    have hsplit := chain_append.mp hc.chain
    chain_unlink hsplit.1 hsplit.2 hc.nodup hc.not_mem_head

/-- **Unlinking a node and pushing it back moves it to the front.** -/
theorem moveFront (hc : L.Cycle h l) {b : α} (hb : b ∈ l) :
    ((L.unlink b).pushFront h b).Cycle h (b :: l.erase b) := by
  obtain ⟨l₁, l₂, rfl⟩ := List.append_of_mem hb
  have hnd := hc.nodup
  simp only [List.nodup_cons, List.nodup_append, List.mem_append, List.mem_cons, not_or] at hnd
  have hbl₁ : b ∉ l₁ := fun e => hnd.2.2.2 b e b (Or.inl rfl) rfl
  rw [List.erase_append_right _ hbl₁, List.erase_cons_head]
  refine hc.unlink.pushFront ?_
  simp only [List.mem_cons, List.mem_append, not_or]
  exact ⟨fun e => hnd.1.2.1 e.symm, hbl₁, hnd.2.2.1.1⟩

end Cycle

end DLinks

end Mkros
