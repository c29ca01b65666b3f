import Mkros.Kernel.Kalloc
import Mkros.Kernel.DeviceTree
import Mkros.Lib.SList
/-!
# The page allocator — the free list over every run

`kalloc`'s free list is an `SList.Linked` list through the first word of
each free page (`FreeList`): `kfree` pushes a page and `kalloc` pops one.
`memset` of a page, and a caller's store into a page it holds, write no free
page's first word, since pages are `PGSIZE`-aligned and distinct
(`memsetPage_of_ne`). So after `kinit`, over any run of allowed calls, the
free list holds distinct aligned pages at or above `kernel_end` and below
`ram_start() + ram_size()`, `kmem.npage` is its length, and `kalloc` never
hands out a page a caller holds (`Inv`, `kalloc_invariant`).

What the list holds is what `freerange` gave it: every page from
`PGROUNDUP(kernel_end)` up to `ram_start() + ram_size()` (`kinit_spec`).
That is the RAM only when the regions are contiguous and listed lowest
first; across a gap between regions, `kalloc` hands out a page of no region
(`kinit_frees_pages_outside_ram`).
-/

namespace Mkros

namespace Kalloc

open Riscv SList

/-- A page `kfree` accepts and keeps: aligned, at or above `kernel_end`, and
below `ram_stop`. -/
def Page (kmem : Kmem) (p : Nat) : Prop :=
  p % PGSIZE = 0 ∧ kmem.kernelEnd ≤ p ∧ p + PGSIZE ≤ kmem.ramStop

/-- The free list from `head`: the first word of each free page names the
next, `0` ending it. -/
def FreeList (mem : Mem) (head : Nat) (l : List Nat) : Prop := Linked (fun p => (mem p).toNat) 0 head l

variable {mem mem' : Mem} {kmem : Kmem} {head : Nat} {l : List Nat}

/-- `memset` of a page writes no other page's first word. -/
theorem memsetPage_of_ne {p q : Nat} (hp : p % PGSIZE = 0) (hq : q % PGSIZE = 0) (hne : q ≠ p)
    (mem : Mem) (c : UInt8) : memsetPage mem p c q = mem q := by
  unfold memsetPage
  rw [if_neg]
  unfold PGSIZE at *
  omega

/-- A free list reads only the first words of its pages. -/
theorem FreeList.congr (hl : FreeList mem head l) (hmem : ∀ q ∈ l, mem' q = mem q) : FreeList mem' head l :=
  (linked_congr fun q hq => by rw [hmem q hq]).mpr hl

/-- The head is `0` or a page of the list, so below any bound the pages are. -/
theorem FreeList.head_lt (hl : FreeList mem head l) {B : Nat} (hB : 0 < B) (hlt : ∀ q ∈ l, q < B) :
    head < B := by
  cases l with
  | nil =>
    rw [show head = 0 from hl]
    exact hB
  | cons x l =>
    rw [hl.1]
    exact hlt x List.mem_cons_self

/-! ## The calls on the list -/

/-- `kfree` of a page it accepts. -/
theorem kfree_ok {pa : Nat} (hpa : Page kmem pa) :
    kfree mem kmem pa = .ok (Function.update (memsetPage mem pa 1) pa kmem.freelist.toUInt64,
      { kmem with freelist := pa, npage := kmem.npage + 1 }) := by
  unfold kfree
  rw [if_neg]
  unfold Page at hpa
  unfold PGSIZE at *
  omega

/-- **`kfree` pushes the page** onto a free list of other aligned pages. -/
theorem FreeList.kfree (hl : FreeList mem kmem.freelist l) {pa : Nat} (hpa : Page kmem pa) (hpos : 0 < pa)
    (hother : ∀ q ∈ l, q % PGSIZE = 0 ∧ q ≠ pa) (hhead : kmem.freelist < 2 ^ 64) :
    FreeList (Function.update (memsetPage mem pa 1) pa kmem.freelist.toUInt64) pa (pa :: l) := by
  refine Linked.push hl (Nat.pos_iff_ne_zero.mp hpos) ?_ fun q hq => ?_
  · simp only [Function.update_self]
    exact UInt64.toNat_ofNat_of_lt' hhead
  · rw [Function.update_of_ne (hother q hq).2, memsetPage_of_ne hpa.1 (hother q hq).1 (hother q hq).2]

/-- `kalloc` on an empty list returns `0` and changes nothing. -/
theorem kalloc_nil (hl : FreeList mem kmem.freelist []) : kalloc mem kmem = (mem, kmem, 0) := by
  unfold kalloc
  rw [if_neg (by rw [show kmem.freelist = 0 from hl]; simp)]

/-- **`kalloc` pops the head** of a list of aligned pages, and fills it. -/
theorem kalloc_cons {r : Nat} (hl : FreeList mem kmem.freelist (r :: l)) (hr : r % PGSIZE = 0)
    (hother : ∀ q ∈ l, q % PGSIZE = 0 ∧ q ≠ r) :
    kalloc mem kmem = (memsetPage mem r 5, { kmem with freelist := (mem r).toNat, npage := kmem.npage - 1 }, r) ∧
      FreeList (memsetPage mem r 5) (mem r).toNat l := by
  obtain ⟨hhead, hr0, hrest⟩ := hl
  refine ⟨?_, FreeList.congr hrest fun q hq => memsetPage_of_ne hr (hother q hq).1 (hother q hq).2 mem 5⟩
  unfold kalloc
  rw [if_pos (by rw [hhead]; exact hr0), hhead]

/-! ## `kinit` -/

/-- **`freerange`'s loop pushes its pages in order** onto a list of aligned
pages below them. -/
theorem freerangeLoop_spec (n : Nat) {mem : Mem} (kmem : Kmem) (p : Nat) {l : List Nat}
    (hl : FreeList mem kmem.freelist l) (hp : p % PGSIZE = 0) (hlow : kmem.kernelEnd ≤ p) (hpos : 0 < p)
    (hstop : p + n * PGSIZE ≤ kmem.ramStop ∨ n = 0) (hram : kmem.ramStop ≤ 2 ^ 64)
    (hbelow : ∀ q ∈ l, q % PGSIZE = 0 ∧ q < p) :
    ∃ mem' kmem', freerangeLoop mem kmem p n = .ok (mem', kmem') ∧
      FreeList mem' kmem'.freelist ((List.range' p n PGSIZE).reverse ++ l) ∧
      kmem'.npage = kmem.npage + n ∧ kmem'.kernelEnd = kmem.kernelEnd ∧ kmem'.ramStop = kmem.ramStop := by
  induction n generalizing mem kmem p l with
  | zero => exact ⟨mem, kmem, rfl, hl, rfl, rfl, rfl⟩
  | succ n ih =>
    have hstop' : p + PGSIZE + n * PGSIZE ≤ kmem.ramStop := by
      have := hstop.resolve_right (Nat.succ_ne_zero n)
      rw [Nat.add_mul, Nat.one_mul] at this
      omega
    have hpage : Page kmem p := ⟨hp, hlow, by omega⟩
    -- `kfree(p)`, onto pages below `p`
    have hhead : kmem.freelist < 2 ^ 64 :=
      hl.head_lt (by omega) fun q hq => by have := (hbelow q hq).2; unfold Page at hpage; omega
    have hl₁ := hl.kfree hpage hpos (fun q hq => ⟨(hbelow q hq).1, Nat.ne_of_lt (hbelow q hq).2⟩) hhead
    obtain ⟨mem', kmem', hrun, hl', hnpage, hend, hstop''⟩ :=
      ih { kmem with freelist := p, npage := kmem.npage + 1 } (p + PGSIZE) hl₁ (by unfold PGSIZE at *; omega)
        (by simp only; unfold PGSIZE; omega) (by unfold PGSIZE; omega)
        (.inl hstop') hram
        (fun q hq => by
          rcases List.mem_cons.mp hq with rfl | hq
          · exact ⟨hp, by unfold PGSIZE; omega⟩
          · have := (hbelow q hq).2
            exact ⟨(hbelow q hq).1, by omega⟩)
    refine ⟨mem', kmem', ?_, ?_, by simp only [hnpage]; omega, hend, hstop''⟩
    · rw [freerangeLoop, kfree_ok hpage]
      exact hrun
    · rwa [List.range'_succ, List.reverse_cons, List.append_assoc, List.singleton_append]

/-- **`kinit` frees every page from `PGROUNDUP(kernel_end)` up to
`ram_start + ram_size`**, the last one on top, when `kernel_end` is not `0`
and `ram_stop` fits in a `uint64_t`. -/
theorem kinit_spec (mem : Mem) {kernelEnd ramStart ramSize : Nat} (hpos : 0 < kernelEnd)
    (hram : ramStart + ramSize ≤ 2 ^ 64) :
    ∃ mem' kmem, kinit mem kernelEnd ramStart ramSize = .ok (mem', kmem) ∧
      FreeList mem' kmem.freelist (List.range' (PGROUNDUP kernelEnd)
        ((ramStart + ramSize - PGROUNDUP kernelEnd) / PGSIZE) PGSIZE).reverse ∧
      kmem.npage = (ramStart + ramSize - PGROUNDUP kernelEnd) / PGSIZE ∧ kmem.kernelEnd = kernelEnd ∧
      kmem.ramStop = ramStart + ramSize := by
  have hup : kernelEnd ≤ PGROUNDUP kernelEnd := by unfold PGROUNDUP PGSIZE; omega
  have haligned : PGROUNDUP kernelEnd % PGSIZE = 0 := Nat.mul_mod_left _ _
  -- the loop's pages run up to `ram_stop`, or there are none
  have hstop : PGROUNDUP kernelEnd + (ramStart + ramSize - PGROUNDUP kernelEnd) / PGSIZE * PGSIZE ≤
      ramStart + ramSize ∨ (ramStart + ramSize - PGROUNDUP kernelEnd) / PGSIZE = 0 := by
    unfold PGSIZE
    omega
  obtain ⟨mem', kmem', hrun, hl, hnpage, hend, hstop'⟩ :=
    freerangeLoop_spec (l := []) _ ⟨0, 0, kernelEnd, ramStart + ramSize⟩ _ rfl haligned hup
      (by omega) hstop hram (fun q hq => by cases hq)
  exact ⟨mem', kmem', hrun, by rwa [List.append_nil] at hl, hnpage.trans (Nat.zero_add _), hend, hstop'⟩

/-! ## Every run -/

/-- The allocator's invariant, `l` being the free list. -/
structure Inv (s : Sys) (l : List Nat) : Prop where
  list : FreeList s.mem s.kmem.freelist l
  page : ∀ p ∈ l, Page s.kmem p
  npage : s.kmem.npage = l.length
  held : ∀ p ∈ s.held, Page s.kmem p ∧ p ∉ l
  held_nodup : s.held.Nodup
  pos : 0 < s.kmem.kernelEnd
  ram : s.kmem.ramStop ≤ 2 ^ 64

variable {s s' : Sys}

/-- **`kalloc` keeps the invariant**, handing out the list's head, which no
caller holds. -/
theorem Inv.kalloc (h : Inv s l) {s' : Sys} (hs : step s .kalloc = .ok s') : ∃ l', Inv s' l' := by
  cases l with
  | nil =>
    have hk := kalloc_nil h.list
    simp only [step, hk] at hs
    cases hs
    exact ⟨[], h⟩
  | cons r l =>
    have hnodup := Linked.nodup h.list
    have hr := h.page r List.mem_cons_self
    obtain ⟨hk, hl'⟩ := kalloc_cons h.list hr.1 fun q hq =>
      ⟨(h.page q (List.mem_cons_of_mem _ hq)).1, fun hqr => (List.nodup_cons.mp hnodup).1 (hqr ▸ hq)⟩
    have hr0 : r ≠ 0 := h.list.2.1
    simp only [step, hk, ne_eq, hr0, not_false_eq_true, if_true] at hs
    cases hs
    refine ⟨l, ⟨hl', fun p hp => h.page p (List.mem_cons_of_mem _ hp), ?_, fun p hp => ?_, ?_, h.pos, h.ram⟩⟩
    · simp only [h.npage, List.length_cons, Nat.add_sub_cancel]
    · rcases List.mem_cons.mp hp with rfl | hp
      · exact ⟨hr, (List.nodup_cons.mp hnodup).1⟩
      · exact ⟨(h.held p hp).1, fun hpl => (h.held p hp).2 (List.mem_cons_of_mem _ hpl)⟩
    · exact List.nodup_cons.mpr ⟨fun hrh => (h.held r hrh).2 List.mem_cons_self, h.held_nodup⟩

/-- **`kfree` of a held page keeps the invariant**, pushing the page. -/
theorem Inv.kfree (h : Inv s l) {pa : Nat} (hpa : pa ∈ s.held) (hs : step s (.kfree pa) = .ok s') :
    Inv s' (pa :: l) := by
  obtain ⟨hpage, hnot⟩ := h.held pa hpa
  simp only [step, kfree_ok hpage, Except.map] at hs
  cases hs
  have hhead : s.kmem.freelist < 2 ^ 64 :=
    h.list.head_lt (by omega) fun q hq => by
      obtain ⟨-, -, hq'⟩ := h.page q hq
      have := h.ram
      unfold PGSIZE at hq'
      omega
  have hpos : 0 < pa := Nat.lt_of_lt_of_le h.pos hpage.2.1
  refine ⟨h.list.kfree hpage hpos (fun q hq => ⟨(h.page q hq).1, fun hqp => hnot (hqp ▸ hq)⟩) hhead,
    fun p hp => ?_, by simp only [h.npage, List.length_cons], fun p hp => ?_, h.held_nodup.erase pa,
    h.pos, h.ram⟩
  · rcases List.mem_cons.mp hp with rfl | hp
    · exact hpage
    · exact h.page p hp
  · -- the held pages but `pa`
    obtain ⟨hne, hp'⟩ := (h.held_nodup.mem_erase_iff).mp hp
    refine ⟨(h.held p hp').1, fun hpl => ?_⟩
    rcases List.mem_cons.mp hpl with rfl | hpl
    · exact hne rfl
    · exact (h.held p hp').2 hpl

/-- **A caller's store keeps the invariant**: it writes no free page. -/
theorem Inv.write (h : Inv s l) {a : Nat} {w : UInt64} (ha : (Call.write a w).Allowed s)
    (hs : step s (.write a w) = .ok s') : Inv s' l := by
  cases hs
  -- the word written is in a held page or below `kernel_end`, so not a free page's first
  have hne : ∀ q ∈ l, q ≠ a := by
    intro q hq hqa
    subst hqa
    have hq' := h.page q hq
    rcases ha with ⟨p, hp, hpq, hqp⟩ | hlow
    · have hp' := (h.held p hp).1
      have hpq' : q ≠ p := fun hqp' => (h.held p hp).2 (hqp' ▸ hq)
      unfold Page at hq' hp'
      unfold PGSIZE at *
      omega
    · unfold Page at hq'
      omega
  exact ⟨h.list.congr fun q hq => Function.update_of_ne (hne q hq) _ _, h.page, h.npage, h.held,
    h.held_nodup, h.pos, h.ram⟩

/-- **One allowed call keeps the invariant.** -/
theorem Inv.step (h : Inv s l) {c : Call} (hc : c.Allowed s) (hs : Kalloc.step s c = .ok s') :
    ∃ l', Inv s' l' := by
  cases c with
  | kalloc => exact h.kalloc hs
  | kfree pa => exact ⟨_, h.kfree hc hs⟩
  | write a w => exact ⟨l, h.write hc hs⟩

/-- The step keeps `kernel_end` and `ram_stop`. -/
theorem step_kmem {c : Call} (hs : Kalloc.step s c = .ok s') :
    s'.kmem.kernelEnd = s.kmem.kernelEnd ∧ s'.kmem.ramStop = s.kmem.ramStop := by
  cases c with
  | kalloc =>
    simp only [Kalloc.step, Kalloc.kalloc] at hs
    split at hs <;> cases hs <;> exact ⟨rfl, rfl⟩
  | kfree pa =>
    simp only [Kalloc.step, Kalloc.kfree] at hs
    split at hs
    · cases hs
    · cases hs
      exact ⟨rfl, rfl⟩
  | write a w =>
    cases hs
    exact ⟨rfl, rfl⟩

theorem reach_inv {mem : Mem} {kernelEnd ramStart ramSize : Nat} (hpos : 0 < kernelEnd)
    (hram : ramStart + ramSize ≤ 2 ^ 64) (h : Reach mem kernelEnd ramStart ramSize s) :
    (∃ l, Inv s l) ∧ s.kmem.kernelEnd = kernelEnd ∧ s.kmem.ramStop = ramStart + ramSize := by
  induction h with
  | init hinit =>
    obtain ⟨mem', kmem, hrun, hl, hnpage, hend, hstop⟩ := kinit_spec mem hpos hram
    rw [hinit] at hrun
    cases hrun
    refine ⟨⟨_, ⟨hl, fun p hp => ?_, by rw [hnpage, List.length_reverse, List.length_range'],
      fun p hp => absurd hp List.not_mem_nil, List.nodup_nil, hend ▸ hpos, hstop ▸ hram⟩⟩, hend, hstop⟩
    -- a page `freerange` freed
    obtain ⟨i, hi, rfl⟩ := List.mem_range'.mp (List.mem_reverse.mp hp)
    simp only [Page, hend, hstop]
    have hup : kernelEnd ≤ PGROUNDUP kernelEnd := by unfold PGROUNDUP PGSIZE; omega
    have haligned : PGROUNDUP kernelEnd % PGSIZE = 0 := Nat.mul_mod_left _ _
    unfold PGSIZE at *
    refine ⟨by omega, by omega, ?_⟩
    have := Nat.div_mul_le_self (ramStart + ramSize - PGROUNDUP kernelEnd) 4096
    have : i * 4096 + 4096 ≤ (ramStart + ramSize - PGROUNDUP kernelEnd) / 4096 * 4096 := by
      rw [← Nat.succ_mul]; exact Nat.mul_le_mul_right _ hi
    omega
  | step c _ hc hs ih =>
    obtain ⟨⟨l, hinv⟩, hend, hstop⟩ := ih
    obtain ⟨hend', hstop'⟩ := step_kmem hs
    exact ⟨hinv.step hc hs, hend'.trans hend, hstop'.trans hstop⟩

/-- **The free list over every run.** After `kinit` and any run of allowed
calls, with `kernel_end` not `0` and `ram_stop` a `uint64_t`: the free list
holds distinct aligned pages at or above `kernel_end` and below
`ram_start + ram_size`, `kmem.npage` is its length, so `freemem_amount` is
exact, and `kalloc` returns no page a caller holds. -/
theorem kalloc_invariant {mem : Mem} {kernelEnd ramStart ramSize : Nat} (hpos : 0 < kernelEnd)
    (hram : ramStart + ramSize ≤ 2 ^ 64) (h : Reach mem kernelEnd ramStart ramSize s) :
    ∃ l, FreeList s.mem s.kmem.freelist l ∧ l.Nodup ∧
      (∀ p ∈ l, p % PGSIZE = 0 ∧ kernelEnd ≤ p ∧ p + PGSIZE ≤ ramStart + ramSize) ∧
      s.kmem.npage = l.length ∧ freememAmount s.kmem = l.length * PGSIZE ∧
      (kalloc s.mem s.kmem).2.2 ∉ s.held := by
  obtain ⟨⟨l, hinv⟩, hend, hstop⟩ := reach_inv hpos hram h
  refine ⟨l, hinv.list, Linked.nodup hinv.list, fun p hp => ?_, hinv.npage, ?_, ?_⟩
  · have := hinv.page p hp
    unfold Page at this
    rw [hend, hstop] at this
    exact this
  · rw [freememAmount, Nat.shiftLeft_eq, hinv.npage]
    rfl
  · -- the head of the list, or `0`: neither is held
    cases l with
    | nil =>
      rw [kalloc_nil hinv.list]
      intro h0
      have := (hinv.held 0 h0).1.2.1
      have := hinv.pos
      omega
    | cons r l =>
      have hnodup := Linked.nodup hinv.list
      rw [(kalloc_cons hinv.list (hinv.page r List.mem_cons_self).1 fun q hq =>
        ⟨(hinv.page q (List.mem_cons_of_mem _ hq)).1,
          fun hqr => (List.nodup_cons.mp hnodup).1 (hqr ▸ hq)⟩).1]
      exact fun hr => (hinv.held r hr).2 List.mem_cons_self

/-- Right after `kinit`, with one region of 128 MiB at `0x80000000` and the
kernel ending at `0x80400000`. -/
theorem kalloc_invariant_after_kinit :
    ∃ s, Reach (fun _ => 0) 0x80400000 0x80000000 0x8000000 s ∧ 0 < 0x80400000 ∧ 0x80000000 + 0x8000000 ≤ 2 ^ 64 ∧
      ∃ l, FreeList s.mem s.kmem.freelist l ∧ l.Nodup ∧
        (∀ p ∈ l, p % PGSIZE = 0 ∧ 0x80400000 ≤ p ∧ p + PGSIZE ≤ 0x80000000 + 0x8000000) ∧
        s.kmem.npage = l.length ∧ freememAmount s.kmem = l.length * PGSIZE ∧ (kalloc s.mem s.kmem).2.2 ∉ s.held := by
  have hpos : 0 < 0x80400000 := by decide
  have hram : 0x80000000 + 0x8000000 ≤ 2 ^ 64 := by decide
  obtain ⟨mem', kmem, hrun, -⟩ := kinit_spec (fun _ => 0) hpos hram
  exact ⟨_, Reach.init hrun, hpos, hram, kalloc_invariant hpos hram (Reach.init hrun)⟩

/-! ## Regions with a gap -/

/-- Two regions of 128 MiB, at `0x80000000` and at `0x100000000`. -/
def twoRegions : DeviceTree :=
  { DeviceTree.zero with
    memNum := 2
    memory := fun i =>
      if i = 0 then ⟨0, 0x80000000, 0x8000000⟩ else if i = 1 then ⟨1, 0x100000000, 0x8000000⟩ else ⟨0, 0, 0⟩ }

/-- `kalloc` returns the head of a list that has one. -/
theorem kalloc_head {r : Nat} (hl : FreeList mem kmem.freelist (r :: l)) : (kalloc mem kmem).2.2 = r := by
  obtain ⟨hhead, hr0, -⟩ := hl
  unfold kalloc
  rw [if_pos (by rw [hhead]; exact hr0), hhead]

/-- **The first `kalloc` after `kinit` returns the highest page `freerange`
freed**, when it freed one. -/
theorem kinit_kalloc (mem : Mem) {kernelEnd ramStart ramSize : Nat} (hpos : 0 < kernelEnd)
    (hram : ramStart + ramSize ≤ 2 ^ 64) (hn : 0 < (ramStart + ramSize - PGROUNDUP kernelEnd) / PGSIZE) :
    ∃ mem' kmem, kinit mem kernelEnd ramStart ramSize = .ok (mem', kmem) ∧
      (kalloc mem' kmem).2.2 = PGROUNDUP kernelEnd + PGSIZE * ((ramStart + ramSize - PGROUNDUP kernelEnd) / PGSIZE - 1) := by
  obtain ⟨mem', kmem, hrun, hl, -⟩ := kinit_spec mem hpos hram
  obtain ⟨m, hm⟩ : ∃ m, (ramStart + ramSize - PGROUNDUP kernelEnd) / PGSIZE = m + 1 := ⟨_, (Nat.succ_pred_eq_of_pos hn).symm⟩
  rw [hm, List.range'_concat, List.reverse_append, List.reverse_singleton, List.singleton_append] at hl
  exact ⟨mem', kmem, hrun, by rw [kalloc_head hl, hm, Nat.add_sub_cancel]⟩

/-- **`kinit` hands pages of no RAM region to `kalloc`.** With two regions
of 128 MiB, at `0x80000000` and `0x100000000`, and the kernel ending at
`0x80400000`, `ram_start() + ram_size()` is `0x90000000`: `freerange` frees
the 128 MiB past the first region, and the first `kalloc` after `kinit`,
whatever memory held before, returns `0x8FFFF000`, in neither region. -/
theorem kinit_frees_pages_outside_ram (mem : Mem) :
    ∃ s, Reach mem 0x80400000 (ramStart twoRegions) (ramSize twoRegions) s ∧
      (kalloc s.mem s.kmem).2.2 = 0x8FFFF000 ∧
      ∀ i < twoRegions.memNum, ¬((twoRegions.memory i).baseAddress ≤ 0x8FFFF000 ∧
        0x8FFFF000 + PGSIZE ≤ (twoRegions.memory i).baseAddress + (twoRegions.memory i).ramSize) := by
  obtain ⟨mem', kmem, hrun, hk⟩ := kinit_kalloc mem (show 0 < 0x80400000 by decide)
    (show ramStart twoRegions + ramSize twoRegions ≤ 2 ^ 64 by decide) (by decide)
  exact ⟨⟨mem', kmem, []⟩, Reach.init hrun, hk.trans (by decide), by decide⟩

end Kalloc

end Mkros
