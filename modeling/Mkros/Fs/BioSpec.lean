import Mkros.Fs.Bio
/-!
# The buffer cache — its invariant over every interleaving

What every reachable cache keeps (`Inv`): the links form one circle through
the head and each of the `NBUF` buffers once; every reference is a holder's
or a pin; and a buffer that holds data or is referenced is the first on the
list with its block. The last is what makes the blocks of such buffers
distinct: `bget` hands out the first buffer with the block, so a later copy
of the block would be a buffer nothing reads. It is also why recycling keeps
it: the buffer recycled has no reference, so a pinned buffer keeps its block
until `bunpin`.

One lemma per call keeps the invariant (`Inv.bread`, `Inv.brelse`,
`Inv.bpin`, `Inv.bunpin`); the scans are `find?` on the list the circle
holds (`Inv.scan_next`, `Inv.scan_prev`), and `bcache_invariant` collects what
every interleaving keeps.
-/

namespace Mkros

namespace Bio

open Fs DLinks

/-! ## `find?` under a change of test -/

section Find

variable {α : Type} {l : List α} {p q : α → Bool} {c : α}

/-- Where the old test found `c`, a test that passes `c` and passes only
what the old one did finds it too. -/
theorem find?_of_imp (h : l.find? p = some c) (hc : q c = true)
    (hqp : ∀ y ∈ l, q y = true → p y = true) : l.find? q = some c := by
  induction l with
  | nil => cases h
  | cons y l ih =>
    by_cases hpy : p y = true
    · rw [List.find?_cons_of_pos hpy, Option.some.injEq] at h
      subst h
      exact List.find?_cons_of_pos hc
    · rw [List.find?_cons_of_neg hpy] at h
      have hqy : ¬q y = true := fun hq => hpy (hqp y List.mem_cons_self hq)
      rw [List.find?_cons_of_neg hqy]
      exact ih h fun z hz => hqp z (List.mem_cons_of_mem _ hz)

/-- The one element that passes is the one found. -/
theorem find?_of_unique (hc : c ∈ l) (hpc : p c = true) (huniq : ∀ y ∈ l, p y = true → y = c) :
    l.find? p = some c := by
  induction l with
  | nil => cases hc
  | cons y l ih =>
    by_cases hpy : p y = true
    · rw [List.find?_cons_of_pos hpy, huniq y List.mem_cons_self hpy]
    · rw [List.find?_cons_of_neg hpy]
      have hcl : c ∈ l := by
        rcases List.mem_cons.mp hc with rfl | hc
        · exact absurd hpc hpy
        · exact hc
      exact ih hcl fun z hz => huniq z (List.mem_cons_of_mem _ hz)

/-- Erasing an element the test fails does not change what it finds. -/
theorem find?_erase [DecidableEq α] {b : α} (hb : ¬p b = true) : (l.erase b).find? p = l.find? p := by
  induction l with
  | nil => rfl
  | cons y l ih =>
    by_cases hyb : y = b
    · subst hyb
      rw [List.erase_cons_head, List.find?_cons_of_neg hb]
    · rw [List.erase_cons_tail (by simpa using hyb), List.find?_cons, List.find?_cons, ih]

end Find

/-! ## The invariant -/

/-- A buffer that holds a block's data or is referenced. -/
def Live (bc : Bcache) (b : Nat) : Prop := bc.valid b = true ∨ 0 < bc.refcnt b

/-- Every live buffer of `order` is the first there with its block. -/
def First (bc : Bcache) (order : List Nat) : Prop :=
  ∀ b ∈ order, Live bc b → order.find? (bc.isBlock (bc.dev b) (bc.blockno b)) = some b

/-- **The cache's invariant**, with `order` the buffers in list order. -/
structure Inv (s : Sys) (order : List Nat) : Prop where
  /-- The links form a circle through the head and the buffers of `order`. -/
  cycle : s.bc.links.Cycle HEAD order
  /-- Every buffer is on the list. -/
  mem : ∀ b, b ∈ order ↔ b < NBUF
  /-- Every reference is a holder's or a pin. -/
  refcnt : ∀ b, s.bc.refcnt b = s.holds b + s.pins b
  /-- Only buffers are held or pinned. -/
  held : ∀ b, 0 < s.holds b ∨ 0 < s.pins b → b < NBUF
  /-- A live buffer is the first with its block. -/
  first : First s.bc order

theorem isBlock_self (bc : Bcache) (b : Nat) : bc.isBlock (bc.dev b) (bc.blockno b) b = true := by
  simp [Bcache.isBlock]

theorem isBlock_iff {bc : Bcache} {dev blockno b : Nat} :
    bc.isBlock dev blockno b = true ↔ bc.dev b = dev ∧ bc.blockno b = blockno := by
  simp [Bcache.isBlock]

section Inv

variable {s : Sys} {order : List Nat}

theorem Inv.length (h : Inv s order) : order.length = NBUF := by
  have hnd := (List.nodup_cons.mp h.cycle.nodup).2
  have hperm : order.Perm (List.range NBUF) :=
    (List.perm_ext_iff_of_nodup hnd List.nodup_range).mpr fun b => by
      rw [h.mem, List.mem_range]
  rw [hperm.length_eq, List.length_range]

/-- The forward scan of `bget` is `find?` on the list. -/
theorem Inv.scan_next (h : Inv s order) (p : Nat → Bool) :
    scan s.bc.links.next HEAD p (NBUF + 1) (s.bc.links.next HEAD) = order.find? p :=
  h.cycle.scan_next p (by rw [h.length]; omega)

/-- The backward scan of `bget` is `find?` on the reversed list. -/
theorem Inv.scan_prev (h : Inv s order) (p : Nat → Bool) :
    scan s.bc.links.prev HEAD p (NBUF + 1) (s.bc.links.prev HEAD) = order.reverse.find? p :=
  h.cycle.scan_prev p (by rw [h.length]; omega)

/-- **Live buffers cache distinct blocks.** -/
theorem Inv.distinct (h : Inv s order) {b c : Nat} (hb : b < NBUF) (hc : c < NBUF) (hbc : b ≠ c)
    (hlb : Live s.bc b) (hlc : Live s.bc c) :
    ¬(s.bc.dev b = s.bc.dev c ∧ s.bc.blockno b = s.bc.blockno c) := by
  rintro ⟨hdev, hblk⟩
  have hfb := h.first b ((h.mem b).mpr hb) hlb
  have hfc := h.first c ((h.mem c).mpr hc) hlc
  rw [hdev, hblk, hfc, Option.some.injEq] at hfb
  exact hbc hfb.symm

end Inv

/-! ## What keeps the first buffers first -/

section First

variable {bc : Bcache} {order : List Nat}

/-- A change of counts that makes no buffer newly referenced. -/
theorem First.refcnt (h : First bc order) {r : Nat → Nat} (hr : ∀ c, 0 < r c → 0 < bc.refcnt c) :
    First { bc with refcnt := r } order := by
  intro c hc hlive
  refine h c hc ?_
  rcases hlive with hv | hr'
  · exact .inl hv
  · exact .inr (hr c hr')

/-- The hit of `bget`: the buffer found is the first with its block. -/
theorem First.hit (h : First bc order) {dev blockno b : Nat}
    (hfind : order.find? (bc.isBlock dev blockno) = some b) :
    First { bc with refcnt := Function.update bc.refcnt b (bc.refcnt b + 1) } order := by
  intro c hc hlive
  by_cases hcb : c = b
  · subst hcb
    obtain ⟨hdev, hblk⟩ := isBlock_iff.mp (List.find?_some hfind)
    simp only [hdev, hblk]
    exact hfind
  · refine h c hc ?_
    rcases hlive with hv | hr
    · exact .inl hv
    · exact .inr (by simpa [Function.update_of_ne hcb] using hr)

/-- The recycle of `bget`, with the read `bread` makes: the buffer given to a
block no buffer caches is the only one with it, and the others keep theirs. -/
theorem First.recycle (h : First bc order) {dev blockno r : Nat}
    (hnone : order.find? (bc.isBlock dev blockno) = none) (hr : r ∈ order) :
    First { bc with
      dev := Function.update bc.dev r dev
      blockno := Function.update bc.blockno r blockno
      valid := Function.update bc.valid r true
      refcnt := Function.update bc.refcnt r 1 } order := by
  have habsent := List.find?_eq_none.mp hnone
  intro c hc hlive
  by_cases hcr : c = r
  · -- the recycled buffer is the only one with its new block
    subst hcr
    refine find?_of_unique hc (by simp [Bcache.isBlock]) fun y hy hpy => ?_
    by_contra hyc
    simp only [Bcache.isBlock, Function.update_self, Function.update_of_ne hyc,
      decide_eq_true_eq] at hpy
    exact habsent y hy (isBlock_iff.mpr hpy)
  · -- another live buffer was live before, and no buffer before it has its block now
    have hlive' : Live bc c := by
      simpa only [Live, Function.update_of_ne hcr] using hlive
    have hold := h c hc hlive'
    simp only [Function.update_of_ne hcr]
    refine find?_of_imp hold (by simp [Bcache.isBlock, Function.update_of_ne hcr]) fun y hy hq => ?_
    by_cases hyr : y = r
    · subst hyr
      simp only [Bcache.isBlock, Function.update_self, decide_eq_true_eq] at hq
      exact absurd (isBlock_iff.mpr ⟨hq.1.symm, hq.2.symm⟩) (habsent c hc)
    · simpa [Bcache.isBlock, Function.update_of_ne hyr] using hq

/-- The last release moves the buffer to the front, where it is first with
its block; the others keep their place among the buffers of their block. -/
theorem First.moveFront (h : First bc order) {b : Nat} {r : Nat → Nat} (hb : 0 < bc.refcnt b)
    (hr : ∀ c, 0 < r c → 0 < bc.refcnt c) (hbo : b ∈ order) :
    First { bc with refcnt := r } (b :: order.erase b) := by
  have hfb := h b hbo (.inr hb)
  intro c hc hlive
  by_cases hcb : c = b
  · subst hcb
    exact List.find?_cons_of_pos (isBlock_self bc c)
  · have hc' : c ∈ order := (List.mem_cons.mp hc).resolve_left hcb |> List.mem_of_mem_erase
    have hfc := h c hc' (by
      rcases hlive with hv | hr'
      · exact .inl hv
      · exact .inr (hr c hr'))
    -- `b` is first with its own block, so it does not have `c`'s
    have hnb : ¬bc.isBlock (bc.dev c) (bc.blockno c) b = true := by
      intro hbc
      obtain ⟨hdev, hblk⟩ := isBlock_iff.mp hbc
      rw [← hdev, ← hblk, hfb, Option.some.injEq] at hfc
      exact hcb hfc.symm
    show (b :: order.erase b).find? (bc.isBlock (bc.dev c) (bc.blockno c)) = some c
    rw [List.find?_cons_of_neg hnb, find?_erase hnb, hfc]

end First

/-! ## One call -/

section Calls

variable {s s' : Sys} {order : List Nat}

/-- **What `bget` does**: the first buffer with the block, with one more
reference; or, where none has it, the last buffer on the list with no
reference, given to the block. -/
theorem Inv.bget (h : Inv s order) {dev blockno : Nat} {bc : Bcache} {b : Nat}
    (hget : bget s.bc dev blockno = .ok (bc, b)) :
    (order.find? (s.bc.isBlock dev blockno) = some b ∧
      bc = { s.bc with refcnt := Function.update s.bc.refcnt b (s.bc.refcnt b + 1) }) ∨
    (order.find? (s.bc.isBlock dev blockno) = none ∧
      order.reverse.find? (fun b => s.bc.refcnt b = 0) = some b ∧
      bc = { s.bc with
        dev := Function.update s.bc.dev b dev
        blockno := Function.update s.bc.blockno b blockno
        valid := Function.update s.bc.valid b false
        refcnt := Function.update s.bc.refcnt b 1 }) := by
  unfold Bio.bget at hget
  rw [h.scan_next] at hget
  split at hget
  · rename_i b' hfind
    cases hget
    exact .inl ⟨hfind, rfl⟩
  · rename_i hnone
    rw [h.scan_prev] at hget
    split at hget
    · rename_i b' hlru
      cases hget
      exact .inr ⟨hnone, hlru, rfl⟩
    · cases hget

theorem bread_of_bget {bc₀ bc : Bcache} {dev blockno b : Nat} (h : bget bc₀ dev blockno = .ok (bc, b)) :
    Bio.bread bc₀ dev blockno =
      .ok (if bc.valid b then bc else { bc with valid := Function.update bc.valid b true }, b) := by
  cases hv : bc.valid b <;> simp [Bio.bread, h, hv, pure, Except.pure, bind, Except.bind]

/-- Reading a block into a referenced buffer makes no buffer newly live. -/
theorem First.setValid {bc : Bcache} (h : First bc order) {b : Nat} (hb : 0 < bc.refcnt b) :
    First { bc with valid := Function.update bc.valid b true } order := by
  intro c hc hlive
  refine h c hc ?_
  by_cases hcb : c = b
  · subst hcb
    exact .inr hb
  · simpa only [Live, Function.update_of_ne hcb] using hlive

theorem Inv.bread (h : Inv s order) {dev blockno : Nat} (hstep : Bio.step s (.bread dev blockno) = .ok s') :
    Inv s' order := by
  cases hget : Bio.bget s.bc dev blockno with
  | error e =>
    simp only [Bio.step, Bio.bread, hget] at hstep
    cases hstep
  | ok r =>
    obtain ⟨bc, b⟩ := r
    simp only [Bio.step, bread_of_bget hget, Except.map, Except.ok.injEq] at hstep
    subst hstep
    rcases h.bget hget with ⟨hfind, rfl⟩ | ⟨hnone, hlru, rfl⟩
    · -- a hit: the first buffer with the block gains a reference
      have hbo : b ∈ order := List.mem_of_find?_eq_some hfind
      have hfirst := h.first.hit hfind
      refine ⟨?_, h.mem, fun c => ?_, fun c hc => ?_, ?_⟩
      · split <;> exact h.cycle
      · by_cases hcb : c = b
        · subst hcb
          split <;> simp [h.refcnt c] <;> omega
        · split <;> simp [Function.update_of_ne hcb, h.refcnt c]
      · by_cases hcb : c = b
        · exact (h.mem c).mp (hcb ▸ hbo)
        · exact h.held c (by simpa [Function.update_of_ne hcb] using hc)
      · split
        · exact hfirst
        · exact hfirst.setValid (by simp)
    · -- a recycle: the last idle buffer is given the block and read
      have hbo : b ∈ order := List.mem_reverse.mp (List.mem_of_find?_eq_some hlru)
      have hidle : s.bc.refcnt b = 0 := by simpa using List.find?_some hlru
      rw [h.refcnt b] at hidle
      simp only [Function.update_self, Bool.false_eq_true, if_false, Function.update_idem]
      refine ⟨h.cycle, h.mem, fun c => ?_, fun c hc => ?_, h.first.recycle hnone hbo⟩
      · by_cases hcb : c = b
        · subst hcb
          simp only [Function.update_self]
          omega
        · simp [Function.update_of_ne hcb, h.refcnt c]
      · by_cases hcb : c = b
        · exact (h.mem c).mp (hcb ▸ hbo)
        · exact h.held c (by simpa [Function.update_of_ne hcb] using hc)

/-- A count that drops by one at `b`, where it was positive, and nowhere else. -/
theorem pos_of_pred {r : Nat → Nat} {b c : Nat} (h : 0 < Function.update r b (r b - 1) c) : 0 < r c := by
  by_cases hcb : c = b
  · subst hcb
    simp only [Function.update_self] at h
    omega
  · simpa [Function.update_of_ne hcb] using h

/-- `brelse` of the last reference moves the buffer to the front. -/
theorem brelse_of_last {bc : Bcache} {b : Nat} (hz : bc.refcnt b - 1 = 0) :
    Bio.brelse bc b = { bc with
      links := (bc.links.unlink b).pushFront HEAD b
      refcnt := Function.update bc.refcnt b (bc.refcnt b - 1) } := by
  simp only [Bio.brelse, Function.update_self, hz, if_true]

/-- Any other `brelse` only drops the count. -/
theorem brelse_of_not_last {bc : Bcache} {b : Nat} (hz : ¬bc.refcnt b - 1 = 0) :
    Bio.brelse bc b = { bc with refcnt := Function.update bc.refcnt b (bc.refcnt b - 1) } := by
  simp only [Bio.brelse, Function.update_self, hz, if_false]

theorem Inv.brelse (h : Inv s order) {b : Nat} (hb : 0 < s.holds b) :
    ∃ order', Inv ⟨Bio.brelse s.bc b, Function.update s.holds b (s.holds b - 1), s.pins⟩ order' := by
  have hbo : b ∈ order := (h.mem b).mpr (h.held b (.inl hb))
  have hpos : 0 < s.bc.refcnt b := by rw [h.refcnt b]; omega
  -- the counts after the release
  have hrefcnt : ∀ c, Function.update s.bc.refcnt b (s.bc.refcnt b - 1) c =
      Function.update s.holds b (s.holds b - 1) c + s.pins c := by
    intro c
    by_cases hcb : c = b
    · subst hcb
      simp only [Function.update_self, h.refcnt c]
      omega
    · simp [Function.update_of_ne hcb, h.refcnt c]
  have hheld : ∀ c, 0 < Function.update s.holds b (s.holds b - 1) c ∨ 0 < s.pins c → c < NBUF :=
    fun c hc => h.held c (hc.imp_left pos_of_pred)
  by_cases hz : s.bc.refcnt b - 1 = 0
  · -- the last reference: the buffer moves to the front
    rw [brelse_of_last hz]
    refine ⟨b :: order.erase b, h.cycle.moveFront hbo, fun c => ?_, hrefcnt, hheld,
      h.first.moveFront hpos (fun c => pos_of_pred) hbo⟩
    rw [← (List.perm_cons_erase hbo).mem_iff]
    exact h.mem c
  · rw [brelse_of_not_last hz]
    exact ⟨order, h.cycle, h.mem, hrefcnt, hheld, h.first.refcnt fun c => pos_of_pred⟩

theorem Inv.bpin (h : Inv s order) {b : Nat} (hb : 0 < s.holds b) :
    Inv ⟨Bio.bpin s.bc b, s.holds, Function.update s.pins b (s.pins b + 1)⟩ order := by
  have hpos : 0 < s.bc.refcnt b := by rw [h.refcnt b]; omega
  refine ⟨h.cycle, h.mem, fun c => ?_, fun c hc => ?_, h.first.refcnt fun c hc => ?_⟩
  · by_cases hcb : c = b
    · subst hcb
      simp only [Bio.bpin, Function.update_self, h.refcnt c]
      omega
    · simp [Bio.bpin, Function.update_of_ne hcb, h.refcnt c]
  · by_cases hcb : c = b
    · exact hcb ▸ h.held b (.inl hb)
    · exact h.held c (by simpa [Function.update_of_ne hcb] using hc)
  · by_cases hcb : c = b
    · exact hcb ▸ hpos
    · simpa [Function.update_of_ne hcb] using hc

theorem Inv.bunpin (h : Inv s order) {b : Nat} (hb : 0 < s.pins b) :
    Inv ⟨Bio.bunpin s.bc b, s.holds, Function.update s.pins b (s.pins b - 1)⟩ order := by
  refine ⟨h.cycle, h.mem, fun c => ?_, fun c hc => ?_, h.first.refcnt fun c => pos_of_pred⟩
  · by_cases hcb : c = b
    · subst hcb
      simp only [Bio.bunpin, Function.update_self, h.refcnt c]
      omega
    · simp [Bio.bunpin, Function.update_of_ne hcb, h.refcnt c]
  · exact h.held c (hc.imp_right pos_of_pred)

/-- **`bget` of a live buffer's block returns that buffer**: so the `bread`
in `install_trans` of a logged block gets the buffer `log_write` pinned, and
its `bunpin` undoes that pin. -/
theorem Inv.bget_of_live (h : Inv s order) {b : Nat} (hb : b < NBUF) (hlive : Live s.bc b) :
    ∃ bc, Bio.bget s.bc (s.bc.dev b) (s.bc.blockno b) = .ok (bc, b) := by
  have hfind := h.first b ((h.mem b).mpr hb) hlive
  unfold Bio.bget
  rw [h.scan_next, hfind]
  exact ⟨_, rfl⟩

/-- **One allowed call keeps the invariant**, over the new order of the list. -/
theorem Inv.step (h : Inv s order) {c : Call} (hc : c.Allowed s) (hstep : Bio.step s c = .ok s') :
    ∃ order', Inv s' order' := by
  cases c with
  | bread dev blockno => exact ⟨order, h.bread hstep⟩
  | brelse b =>
    cases hstep
    exact h.brelse hc
  | bpin b =>
    cases hstep
    exact ⟨order, h.bpin hc⟩
  | bunpin b =>
    cases hstep
    exact ⟨order, h.bunpin hc⟩

/-- **A pinned buffer keeps its block**: no allowed call recycles it. -/
theorem Inv.step_pinned (h : Inv s order) {c : Call} (hstep : Bio.step s c = .ok s') {b : Nat}
    (hb : 0 < s.pins b) : s'.bc.dev b = s.bc.dev b ∧ s'.bc.blockno b = s.bc.blockno b := by
  cases c with
  | bread dev blockno =>
    cases hget : Bio.bget s.bc dev blockno with
    | error e =>
      simp only [Bio.step, Bio.bread, hget] at hstep
      cases hstep
    | ok r =>
      obtain ⟨bc, r⟩ := r
      simp only [Bio.step, bread_of_bget hget, Except.map, Except.ok.injEq] at hstep
      subst hstep
      rcases h.bget hget with ⟨-, rfl⟩ | ⟨-, hlru, rfl⟩
      · split <;> exact ⟨rfl, rfl⟩
      · -- the buffer recycled had no reference, so it is not `b`
        have hidle : s.bc.refcnt r = 0 := by simpa using List.find?_some hlru
        have hrb : b ≠ r := by
          rintro rfl
          rw [h.refcnt b] at hidle
          omega
        split <;> simp [Function.update_of_ne hrb]
  | brelse b' =>
    cases hstep
    by_cases hz : s.bc.refcnt b' - 1 = 0
    · rw [brelse_of_last hz]
      exact ⟨rfl, rfl⟩
    · rw [brelse_of_not_last hz]
      exact ⟨rfl, rfl⟩
  | bpin b' =>
    cases hstep
    exact ⟨rfl, rfl⟩
  | bunpin b' =>
    cases hstep
    exact ⟨rfl, rfl⟩

end Calls

/-! ## Every interleaving -/

/-- `binit` links every buffer in, the last one first. -/
theorem binit_cycle (bc : Bcache) : (binit bc).links.Cycle HEAD (List.range NBUF).reverse := by
  have hempty : DLinks.Cycle
      ⟨Function.update bc.links.next HEAD HEAD, Function.update bc.links.prev HEAD HEAD⟩ HEAD [] :=
    Cycle.empty (Function.update_self HEAD HEAD bc.links.next) (Function.update_self HEAD HEAD bc.links.prev)
  have hall := hempty.pushFront_foldl List.nodup_range fun b hb => by
    rw [List.mem_range] at hb
    rw [List.mem_singleton]
    exact Nat.ne_of_lt hb
  rw [List.append_nil] at hall
  exact hall

theorem inv_init : Inv Sys.init (List.range NBUF).reverse where
  cycle := binit_cycle _
  mem b := by rw [List.mem_reverse, List.mem_range]
  refcnt _ := rfl
  held _ hb := by simp [Sys.init] at hb
  first _ _ hlive := by simp [Live, Sys.init, binit, Bcache.zero] at hlive

theorem reach_inv {s : Sys} (h : Reach s) : ∃ order, Inv s order := by
  induction h with
  | init => exact ⟨_, inv_init⟩
  | step c _ hc hstep ih =>
    obtain ⟨order, hinv⟩ := ih
    exact hinv.step hc hstep

/-- **The buffer cache's invariant.** In every state that any interleaving of
`bread`, `brelse`, `bpin` and `bunpin` reaches from `binit`: the links form
one circle from the head through each of the `NBUF` buffers once, with
`b->next->prev = b` and `b->prev->next = b`; no two buffers that hold data or
are referenced cache the same block; every `refcnt` is the callers' `bread`s
not yet released plus the pins not yet undone, so a release or an unpin never
finds it at zero; and a pinned buffer keeps its block through every call,
and a `bread` of that block returns it. -/
theorem bcache_invariant {s : Sys} (h : Reach s) :
    ∃ order : List Nat, s.bc.links.Cycle HEAD order ∧ (∀ b, b ∈ order ↔ b < NBUF) ∧
      (∀ b ∈ HEAD :: order,
        s.bc.links.prev (s.bc.links.next b) = b ∧ s.bc.links.next (s.bc.links.prev b) = b) ∧
      (∀ b < NBUF, ∀ c < NBUF, b ≠ c → Live s.bc b → Live s.bc c →
        ¬(s.bc.dev b = s.bc.dev c ∧ s.bc.blockno b = s.bc.blockno c)) ∧
      (∀ b, s.bc.refcnt b = s.holds b + s.pins b) ∧
      ∀ b, 0 < s.pins b →
        (∀ (c : Call) (s' : Sys), step s c = .ok s' →
          s'.bc.dev b = s.bc.dev b ∧ s'.bc.blockno b = s.bc.blockno b) ∧
        ∃ bc, bget s.bc (s.bc.dev b) (s.bc.blockno b) = .ok (bc, b) := by
  obtain ⟨order, hinv⟩ := reach_inv h
  refine ⟨order, hinv.cycle, hinv.mem, fun b hb => ⟨hinv.cycle.prev_next b hb, hinv.cycle.next_prev b hb⟩,
    fun b hb c hc hbc hlb hlc => hinv.distinct hb hc hbc hlb hlc, hinv.refcnt, fun b hpin => ?_⟩
  -- a pinned buffer is referenced, so it is live
  have hlive : Live s.bc b := .inr (by rw [hinv.refcnt b]; omega)
  exact ⟨fun c s' hstep => hinv.step_pinned hstep hpin,
    hinv.bget_of_live (hinv.held b (.inr hpin)) hlive⟩

/-- The cache after `bread(1, 5)` from `binit`. -/
def afterBread : Sys :=
  match step .init (.bread 1 5) with
  | .ok s => s
  | .error _ => .init

/-- After `bread(1, 5)` the least recently used buffer, buffer 0, caches the
block with one reference, and the circle still holds every buffer. -/
theorem bcache_invariant_after_bread :
    (∃ order : List Nat, afterBread.bc.links.Cycle HEAD order ∧ ∀ b, b ∈ order ↔ b < NBUF) ∧
      afterBread.bc.blockno 0 = 5 ∧ afterBread.bc.refcnt 0 = 1 := by
  have hreach : Reach afterBread := by
    unfold afterBread
    cases hs : step .init (.bread 1 5) with
    | ok s => exact Reach.step (.bread 1 5) Reach.init trivial hs
    | error e => exact Reach.init
  obtain ⟨order, hcycle, hmem, -⟩ := bcache_invariant hreach
  exact ⟨⟨order, hcycle, hmem⟩, by decide +kernel, by decide +kernel⟩

end Bio

end Mkros
