import Mkros.Mm.Bootmem
/-!
# The boot memory allocator — what the calls do

One lemma per loop of `bootmem.c`: the scan finds the first page its test
finds allocated (`firstUsed_eq_none_iff`), the `repeat:` loop ends within its
fuel (`scanFrom_fuel`, `scanFrom_enough`) on a range that passed the test (`scanFrom_found`), the
marking loop sets exactly the range (`get_markPages`). From them, what one
`bootmem_alloc` does (`bootmemAlloc_spec`).

Then the masks. The `uint64_t` test mask reads the page's own bit only from
column 33 on; at columns 1 to 31 it reads the bit of the page 32 further on,
and at columns 0 and 32 the bits of columns 0 to 32 (`testMask_eq`). With the
masks the bitmap's layout calls for, the allocator never hands out a page that
is held (`intended_alloc_disjoint`); with the source's, it does
(`bootmem_alloc_reallocates_held_page`). The clear is the test mask's
complement, so `bootmem_free` leaves the pages of columns 1 to 31 marked and
clears the pages 32 further on (`bootmem_free_leaves_pages_marked`).
-/

namespace Mkros

namespace Bootmem

open Bitmap DeviceTree Riscv

section Loops

variable {mask : Nat → UInt64} {bitmap : Nat → UInt64}

/-! ## The scan -/

theorem firstUsed_succ (start len : Nat) :
    firstUsed mask bitmap start (len + 1) =
      if bitmap (start / 64) &&& mask (start % 64) ≠ 0 then some start
      else firstUsed mask bitmap (start + 1) len := rfl

/-- The scan finds a page of its range. -/
theorem firstUsed_mem {start len s : Nat} (h : firstUsed mask bitmap start len = some s) :
    start ≤ s ∧ s < start + len := by
  induction len generalizing start with
  | zero => cases h
  | succ len ih =>
    rw [firstUsed_succ] at h
    by_cases hused : bitmap (start / 64) &&& mask (start % 64) ≠ 0
    · rw [if_pos hused, Option.some.injEq] at h
      omega
    · rw [if_neg hused] at h
      have := ih h
      omega

/-- **The scan finds nothing** iff every page of its range passes the test. -/
theorem firstUsed_eq_none_iff {start len : Nat} :
    firstUsed mask bitmap start len = none ↔
      ∀ p, start ≤ p → p < start + len → bitmap (p / 64) &&& mask (p % 64) = 0 := by
  induction len generalizing start with
  | zero =>
    constructor
    · intro _ p h1 h2
      omega
    · intro _
      rfl
  | succ len ih =>
    rw [firstUsed_succ]
    by_cases hused : bitmap (start / 64) &&& mask (start % 64) ≠ 0
    · rw [if_pos hused]
      refine ⟨fun h => (by cases h), fun h => absurd (h start (Nat.le_refl _) (by omega)) hused⟩
    · rw [if_neg hused, ih]
      constructor
      · intro h p h1 h2
        rcases Nat.eq_or_lt_of_le h1 with rfl | h1
        · exact not_not.mp hused
        · exact h p h1 (by omega)
      · intro h p h1 h2
        exact h p (by omega) (by omega)

/-! ## The `repeat:` loop -/

theorem scanFrom_succ (total npages fuel next : Nat) :
    scanFrom mask bitmap total npages (fuel + 1) next =
      if next + npages < total then
        match firstUsed mask bitmap next npages with
        | some start => scanFrom mask bitmap total npages fuel (start + 1)
        | none => .found next
      else .exhausted next := rfl

/-- **The loop has ended within its fuel**: where the fuel and `next` add up
past `total`, one more round changes nothing, since every restart moves
`next` up. -/
theorem scanFrom_fuel {total npages : Nat} (fuel next : Nat) (h : total + 1 ≤ fuel + next) :
    scanFrom mask bitmap total npages (fuel + 1) next =
      scanFrom mask bitmap total npages fuel next := by
  induction fuel generalizing next with
  | zero =>
    rw [scanFrom_succ, if_neg (by omega)]
    rfl
  | succ fuel ih =>
    rw [scanFrom_succ, scanFrom_succ]
    by_cases hroom : next + npages < total
    · rw [if_pos hroom, if_pos hroom]
      cases hfirst : firstUsed mask bitmap next npages with
      | none => rfl
      | some s =>
        -- the restart is past the page the scan found, which is past `next`
        have := (firstUsed_mem hfirst).1
        exact ih (s + 1) (by omega)
    · rw [if_neg hroom, if_neg hroom]

/-- **The loop ends**: from the `total + 1` rounds on, more rounds give the
same outcome, for every `next`. -/
theorem scanFrom_enough {total npages : Nat} (next : Nat) :
    ∀ k, scanFrom mask bitmap total npages (total + 1 + k) next = scanFrom mask bitmap total npages (total + 1) next
  | 0 => rfl
  | k + 1 => by
    rw [← Nat.add_assoc, scanFrom_fuel _ next (by omega)]
    exact scanFrom_enough next k

/-- A range the loop settles on lies past `next`, below the node's last page,
and passed the test. -/
theorem scanFrom_found {total npages fuel next s : Nat}
    (h : scanFrom mask bitmap total npages fuel next = .found s) :
    next ≤ s ∧ s + npages < total ∧ firstUsed mask bitmap s npages = none := by
  induction fuel generalizing next with
  | zero => cases h
  | succ fuel ih =>
    rw [scanFrom_succ] at h
    by_cases hroom : next + npages < total
    · rw [if_pos hroom] at h
      cases hfirst : firstUsed mask bitmap next npages with
      | none =>
        rw [hfirst] at h
        cases h
        exact ⟨(Nat.le_refl _), hroom, hfirst⟩
      | some t =>
        rw [hfirst] at h
        have hnext := (firstUsed_mem hfirst).1
        obtain ⟨hs, hend, hpass⟩ := ih h
        exact ⟨by omega, hend, hpass⟩
    · rw [if_neg hroom] at h
      cases h

/-- Both passes: a range found passed the test and ends below the last page. -/
theorem scanTwice_found {node : BootmemNode} {npages s : Nat}
    (h : scanTwice mask node npages = .found s) :
    s + npages < node.npages ∧ firstUsed mask node.bitmap s npages = none := by
  unfold scanTwice at h
  split at h
  · cases h
    rename_i start hfirst
    exact (scanFrom_found hfirst).2
  · exact (scanFrom_found h).2

end Loops

/-! ## Marking and clearing -/

/-- **The marking loop sets exactly its range.** -/
theorem get_markPages (bitmap : Nat → UInt64) (start len q : Nat) :
    get (markPages bitmap start len) q = (get bitmap q || decide (start ≤ q ∧ q < start + len)) := by
  induction len generalizing bitmap start with
  | zero =>
    have hout : ¬(start ≤ q ∧ q < start + 0) := by omega
    simp only [markPages, hout, decide_false, Bool.or_false]
  | succ len ih =>
    simp only [markPages, doDiv]
    rw [ih, get_orWord_colBit]
    by_cases hq : q = start
    · simp [hq]
    · simp only [hq, decide_false, Bool.or_false]
      congr 1
      simp only [decide_eq_decide]
      omega

/-- The clearing loop with the masks the layout calls for clears exactly its
range. -/
theorem get_clearPages (bitmap : Nat → UInt64) {startPfn pfn : Nat} (hpfn : startPfn ≤ pfn)
    (n q : Nat) :
    get (clearPages (fun col => ~~~colBit col) bitmap startPfn pfn n) q =
      (get bitmap q && !decide (pfn - startPfn ≤ q ∧ q < pfn - startPfn + n)) := by
  induction n generalizing bitmap pfn with
  | zero =>
    have hout : ¬(pfn - startPfn ≤ q ∧ q < pfn - startPfn + 0) := by omega
    simp only [clearPages, hout, decide_false, Bool.not_false, Bool.and_true]
  | succ n ih =>
    simp only [clearPages, doDiv]
    rw [ih _ (by omega), get_andWord_not_colBit]
    by_cases hq : q = pfn - startPfn
    · simp [hq]
    · simp only [hq, decide_false, Bool.not_false, Bool.and_true]
      congr 1
      simp only [Bool.not_inj_iff, decide_eq_decide]
      omega

/-! ## One call of `bootmem_alloc` -/

section Alloc

variable {mask : Nat → UInt64} {node : BootmemNode} {npages : Nat}

/-- A range found is handed out. -/
theorem allocWith_of_found {s : Nat} (hn : npages < node.npages)
    (h : scanTwice mask node npages = .found s) :
    allocWith mask node npages = takePages node s npages := by
  rw [allocWith, if_neg (by omega), h]

/-- With no range found, nothing is handed out and the bitmap stays. -/
theorem allocWith_of_not_found (h : ∀ s, npages < node.npages → scanTwice mask node npages ≠ .found s) :
    (allocWith mask node npages).1.bitmap = node.bitmap ∧ (allocWith mask node npages).2 = 0 := by
  unfold allocWith
  by_cases hn : npages ≥ node.npages
  · rw [if_pos hn]
    exact ⟨rfl, rfl⟩
  · rw [if_neg hn]
    cases hscan : scanTwice mask node npages with
    | found s => exact absurd hscan (h s (by omega))
    | exhausted next => exact ⟨rfl, rfl⟩

/-- A call keeps the node's first frame. -/
theorem allocWith_startPfn (mask : Nat → UInt64) (node : BootmemNode) (npages : Nat) :
    (allocWith mask node npages).1.startPfn = node.startPfn := by
  unfold allocWith
  split
  · rfl
  · split <;> rfl

/-- What one call does, for any test mask. -/
theorem allocWith_spec (mask : Nat → UInt64) (node : BootmemNode) (npages : Nat) :
    ((allocWith mask node npages).1.bitmap = node.bitmap ∧ (allocWith mask node npages).2 = 0) ∨
    ∃ s, s + npages < node.npages ∧
      (allocWith mask node npages).2 = (node.startPfn + s) <<< PGSHIFT ∧
      (allocWith mask node npages).1.nextOffset = s + npages ∧
      ∀ p, get (allocWith mask node npages).1.bitmap p =
        (get node.bitmap p || decide (s ≤ p ∧ p < s + npages)) := by
  by_cases hfound : ∃ s, npages < node.npages ∧ scanTwice mask node npages = .found s
  · obtain ⟨s, hn, hs⟩ := hfound
    rw [allocWith_of_found hn hs]
    exact Or.inr ⟨s, (scanTwice_found hs).1, rfl, rfl, get_markPages node.bitmap s npages⟩
  · refine Or.inl (allocWith_of_not_found fun s hn hs => hfound ⟨s, hn, hs⟩)

end Alloc

/-- What one `bootmem_alloc` hands out: nothing, with the bitmap unchanged,
or the `npages` pages from some `s`, marked. -/
theorem bootmemAlloc_result (node : BootmemNode) (npages : Nat) :
    ((bootmemAlloc node npages).1.bitmap = node.bitmap ∧ (bootmemAlloc node npages).2 = 0) ∨
    ∃ s, s + npages < node.npages ∧
      (bootmemAlloc node npages).2 = (node.startPfn + s) <<< PGSHIFT ∧
      (bootmemAlloc node npages).1.nextOffset = s + npages ∧
      ∀ p, get (bootmemAlloc node npages).1.bitmap p =
        (get node.bitmap p || decide (s ≤ p ∧ p < s + npages)) :=
  allocWith_spec testMask node npages

/-- **One `bootmem_alloc`**: each pass of its `repeat:` loop, from whatever
`next_offset`, has ended within the `node->npages + 1` rounds the model gives
it, more rounds giving the same outcome; and either nothing is handed out and
the bitmap is unchanged, or the `npages` pages from some `s` are, ending
below the node's last page: the address returned is page `s`'s,
`next_offset` is past the range, and the bitmap gains exactly the range. -/
theorem bootmemAlloc_spec (node : BootmemNode) (npages : Nat) :
    (∀ next k, scanFrom testMask node.bitmap node.npages npages (node.npages + 1 + k) next =
      scanFrom testMask node.bitmap node.npages npages (node.npages + 1) next) ∧
    (((bootmemAlloc node npages).1.bitmap = node.bitmap ∧ (bootmemAlloc node npages).2 = 0) ∨
    ∃ s, s + npages < node.npages ∧
      (bootmemAlloc node npages).2 = (node.startPfn + s) <<< PGSHIFT ∧
      (bootmemAlloc node npages).1.nextOffset = s + npages ∧
      ∀ p, get (bootmemAlloc node npages).1.bitmap p =
        (get node.bitmap p || decide (s ≤ p ∧ p < s + npages))) :=
  ⟨fun next k => scanFrom_enough next k, bootmemAlloc_result node npages⟩

/-! ## The masks -/

/-- **What the `int` test mask is**: the page's own bit only from column 33
on; at columns 1 to 31 the bit of column `col + 32`, and at columns 0 and 32
the sign-extended `INT_MIN`, the bits of columns 0 to 32. -/
theorem testMask_eq {col : Nat} (h : col < 64) :
    testMask col = if col % 32 = 0 then 0xFFFFFFFF80000000 else colBit (col % 32 + 32) := by
  have hall : ∀ c < 64,
      testMask c = if c % 32 = 0 then 0xFFFFFFFF80000000 else colBit (c % 32 + 32) := by
    decide
  exact hall col h

/-- The clear mask is the complement of the test mask. -/
theorem clearMask_eq {col : Nat} (h : col < 64) : clearMask col = ~~~testMask col := by
  have hall : ∀ c < 64, clearMask c = ~~~testMask c := by decide
  exact hall col h

/-- `INT_MIN` sign-extended holds columns 0 to 32. -/
theorem bit_intMin {c : Nat} (hc : c < 64) : bit 0xFFFFFFFF80000000 (63 - c) = decide (c ≤ 32) := by
  have hall : ∀ c < 64, bit 0xFFFFFFFF80000000 (63 - c) = decide (c ≤ 32) := by decide
  exact hall c hc

/-- The pages the clear of page `p` clears: in `p`'s word, columns 0 to 32
when `p` is at column 0 or 32, else the column `p % 32 + 32`. -/
def Clears (p q : Nat) : Prop :=
  q / 64 = p / 64 ∧ ((p % 32 = 0 ∧ q % 64 ≤ 32) ∨ (p % 32 ≠ 0 ∧ q % 64 = p % 32 + 32))

instance (p q : Nat) : Decidable (Clears p q) := inferInstanceAs (Decidable (_ ∧ _))

/-- **The source's clear of one page.** -/
theorem get_andWord_clearMask (bm : Nat → UInt64) (p q : Nat) :
    get (andWord bm (p / 64) (clearMask (p % 64))) q = (get bm q && !decide (Clears p q)) := by
  have hcol : p % 64 < 64 := Nat.mod_lt _ (by decide)
  have hp : p % 64 % 32 = p % 32 := by omega
  rw [get_andWord, clearMask_eq hcol, bit_not _ (by omega), testMask_eq hcol, hp]
  by_cases hw : q / 64 = p / 64
  · rw [if_pos hw]
    by_cases h0 : p % 32 = 0
    · rw [if_pos h0, bit_intMin (Nat.mod_lt _ (by decide))]
      simp [Clears, hw, h0]
    · -- one column, `p % 32 + 32`
      have hc : 63 - q % 64 = 63 - (p % 32 + 32) ↔ Clears p q := by
        unfold Clears
        constructor <;> intro h <;> omega
      rw [if_neg h0, bit_colBit (by omega), decide_eq_decide.mpr hc]
  · rw [if_neg hw]
    simp [Clears, hw]

/-- **The source's clearing loop**: item `q` ends cleared iff the clear of some
page of the range clears it. -/
theorem get_clearPages_clearMask (bitmap : Nat → UInt64) {startPfn pfn : Nat} (hpfn : startPfn ≤ pfn)
    (n q : Nat) :
    get (clearPages clearMask bitmap startPfn pfn n) q =
      (get bitmap q && !(List.range' (pfn - startPfn) n).any fun r => decide (Clears r q)) := by
  induction n generalizing bitmap pfn with
  | zero => simp [clearPages]
  | succ n ih =>
    have hnext : pfn + 1 - startPfn = pfn - startPfn + 1 := by omega
    simp only [clearPages, doDiv]
    rw [ih _ (by omega), get_andWord_clearMask, hnext, List.range'_succ, List.any_cons]
    cases get bitmap q <;> simp [Bool.not_or]

/-- A free by a page address of the node: `addr >> PGSHIFT` is the page's frame. -/
theorem freeWith_pageAddr (mask : Nat → UInt64) (node : BootmemNode) (s npages : Nat) :
    freeWith mask node ((node.startPfn + s) <<< PGSHIFT) npages =
      .ok { node with bitmap := clearPages mask node.bitmap node.startPfn (node.startPfn + s) npages } := by
  have haligned : (node.startPfn + s) <<< PGSHIFT &&& (PGSIZE - 1) = 0 := by
    rw [show PGSIZE - 1 = 2 ^ PGSHIFT - 1 by rfl, Nat.and_two_pow_sub_one_eq_mod, Nat.shiftLeft_eq,
      Nat.mul_mod_left]
  have hpfn : (node.startPfn + s) <<< PGSHIFT >>> PGSHIFT = node.startPfn + s := by
    simp [PGSHIFT, Nat.shiftLeft_eq, Nat.shiftRight_eq_div_pow]
  rw [freeWith, if_neg (not_not.mpr haligned), hpfn]

/-- **`bootmem_free` does not undo `bootmem_alloc`.** On any node, when
`bootmem_alloc(npages)` hands out pages from `s` that lie within columns 1 to
31 of one bitmap word, `bootmem_free` of the address it returned, on the same
node, leaves every page of the range marked, and clears instead the page 32
further on, which another caller may hold. -/
theorem bootmem_free_leaves_pages_marked (node : BootmemNode) {npages s : Nat}
    (halloc : (bootmemAlloc node npages).2 = (node.startPfn + s) <<< PGSHIFT) (hpos : 0 < node.startPfn + s)
    (hcol : s % 64 ≠ 0 ∧ s % 64 + npages ≤ 32) :
    ∃ node', bootmemFree (bootmemAlloc node npages).1 ((node.startPfn + s) <<< PGSHIFT) npages = .ok node' ∧
      ∀ q, s ≤ q → q < s + npages → get node'.bitmap q = true ∧ get node'.bitmap (q + 32) = false := by
  have hshift : ∀ x, x <<< PGSHIFT = x * 4096 := fun x => Nat.shiftLeft_eq x PGSHIFT
  -- the call handed out the pages from `s`
  obtain ⟨hbm, hzero⟩ | ⟨s', -, haddr, -, hget⟩ := bootmemAlloc_result node npages
  · rw [hzero, hshift] at halloc
    omega
  have hs : s' = s := by
    rw [halloc, hshift, hshift] at haddr
    omega
  subst hs
  have hstart : (bootmemAlloc node npages).1.startPfn = node.startPfn :=
    allocWith_startPfn testMask node npages
  refine ⟨_, hstart ▸ freeWith_pageAddr clearMask (bootmemAlloc node npages).1 s' npages, fun q hq hq' => ?_⟩
  have hqcol : q % 64 ≠ 0 ∧ q % 64 < 32 := by omega
  simp only [get_clearPages_clearMask _ (Nat.le_add_right _ _), Nat.add_sub_cancel_left, hget]
  constructor
  · -- no page of the range clears a page of columns 1 to 31
    have hnone : ∀ r ∈ List.range' s' npages, ¬Clears r q := by
      intro r hr hclears
      obtain ⟨i, hi, rfl⟩ := List.mem_range'.mp hr
      unfold Clears at hclears
      omega
    simp only [hq, hq', and_self, decide_true, Bool.or_true, Bool.true_and, Bool.not_eq_eq_eq_not,
      Bool.not_true, List.any_eq_false]
    exact fun r hr => by simpa using hnone r hr
  · -- the clear of `q` itself takes the page 32 further on
    have hclears : Clears q (q + 32) := by unfold Clears; omega
    have hany : ((List.range' s' npages).any fun r => decide (Clears r (q + 32))) = true :=
      List.any_eq_true.mpr ⟨q, List.mem_range'.mpr ⟨q - s', by omega, by omega⟩, decide_eq_true hclears⟩
    simp [hany]

/-- A node of 66 pages at `0x80400000` whose page 0 is handed out
(`next_offset` 1, bitmap clear): `bootmem_alloc(1)` takes page 1, at column 1,
and after `bootmem_free` of it page 1 is still marked and page 33 cleared. -/
theorem bootmem_free_leaves_pages_marked_page1 :
    ∃ node', bootmemFree (bootmemAlloc ⟨0x80400, 66, 1, fun _ => 0⟩ 1).1 (0x80401 <<< PGSHIFT) 1 = .ok node' ∧
      get node'.bitmap 1 = true ∧ get node'.bitmap 33 = false := by
  obtain ⟨node', hfree, hbits⟩ :=
    bootmem_free_leaves_pages_marked ⟨0x80400, 66, 1, fun _ => 0⟩
      (by decide : (bootmemAlloc ⟨0x80400, 66, 1, fun _ => 0⟩ 1).2 = (0x80400 + 1) <<< PGSHIFT) (by decide)
      (by decide)
  exact ⟨node', hfree, hbits 1 (Nat.le_refl 1) (by decide)⟩

/-! ## The allocator as its layout means it

With a test and a clear that read the page's own bit, as the marking loop's
`1UL << (63 - col)` does, the allocator keeps what its callers hold apart. -/

/-- Page `p` lies in the range of `r.2` pages from `r.1`. -/
def InRange (r : Nat × Nat) (p : Nat) : Prop := r.1 ≤ p ∧ p < r.1 + r.2

/-- The test of the page's own bit. -/
def ownTest (col : Nat) : UInt64 := colBit col

/-- The clear of the page's own bit. -/
def ownClear (col : Nat) : UInt64 := ~~~colBit col

/-- **The allocator's invariant** over the ranges its callers hold: every page
of a held range is marked, and no two held ranges share a page. -/
structure Sound (node : BootmemNode) (held : List (Nat × Nat)) : Prop where
  marked : ∀ r ∈ held, ∀ p, InRange r p → get node.bitmap p = true
  disjoint : held.Pairwise fun r r' => ∀ p, InRange r p → ¬InRange r' p

/-- The states a node can reach with the test `mask` and the clear `clear`,
with the ranges held: from a sound start, a range `bootmem_alloc` finds is
held from then on, and a free names a held range and ends its hold. -/
inductive Reach (mask clear : Nat → UInt64) : BootmemNode → List (Nat × Nat) → Prop
  | start {node held} : Sound node held → Reach mask clear node held
  | alloc {node held npages s} : Reach mask clear node held → npages < node.npages →
      scanTwice mask node npages = .found s →
      Reach mask clear (allocWith mask node npages).1 ((s, npages) :: held)
  | allocNone {node held npages} : Reach mask clear node held →
      (∀ s, npages < node.npages → scanTwice mask node npages ≠ .found s) →
      Reach mask clear (allocWith mask node npages).1 held
  | free {node held s npages node'} : Reach mask clear node held → (s, npages) ∈ held →
      freeWith clear node ((node.startPfn + s) <<< PGSHIFT) npages = .ok node' →
      Reach mask clear node' (held.erase (s, npages))

section Own

variable {node : BootmemNode} {held : List (Nat × Nat)}

/-- A range the own-bit test finds is unmarked, so it meets no held range. -/
theorem found_disjoint (hs : Sound node held) {npages s : Nat}
    (h : scanTwice ownTest node npages = .found s) :
    ∀ r ∈ held, ∀ p, InRange (s, npages) p → ¬InRange r p := by
  intro r hr p hp hpr
  have hpass := firstUsed_eq_none_iff.mp (scanTwice_found h).2 p hp.1 hp.2
  have hmarked := hs.marked r hr p hpr
  rw [get_iff_and_ne_zero] at hmarked
  exact hmarked hpass

theorem sound_alloc (hs : Sound node held) {npages s : Nat} (hn : npages < node.npages)
    (h : scanTwice ownTest node npages = .found s) :
    Sound (allocWith ownTest node npages).1 ((s, npages) :: held) := by
  rw [allocWith_of_found hn h]
  constructor
  · intro r hr p hp
    show get (markPages node.bitmap s npages) p = true
    rw [get_markPages]
    rcases List.mem_cons.mp hr with rfl | hr
    · simp [hp.1, hp.2]
    · simp [hs.marked r hr p hp]
  · exact List.Pairwise.cons (found_disjoint hs h) hs.disjoint

theorem sound_allocNone (hs : Sound node held) {npages : Nat}
    (h : ∀ s, npages < node.npages → scanTwice ownTest node npages ≠ .found s) :
    Sound (allocWith ownTest node npages).1 held := by
  have hbm := (allocWith_of_not_found h).1
  exact ⟨fun r hr p hp => hbm ▸ hs.marked r hr p hp, hs.disjoint⟩

/-- A free of a held range, by its page address, clears exactly that range. -/
theorem freeWith_ownClear {s npages : Nat} {node' : BootmemNode}
    (h : freeWith ownClear node ((node.startPfn + s) <<< PGSHIFT) npages = .ok node') (q : Nat) :
    get node'.bitmap q = (get node.bitmap q && !decide (s ≤ q ∧ q < s + npages)) := by
  have hpfn : (node.startPfn + s) <<< PGSHIFT >>> PGSHIFT = node.startPfn + s := by
    simp [PGSHIFT, Nat.shiftLeft_eq, Nat.shiftRight_eq_div_pow]
  unfold freeWith at h
  split at h
  · cases h
  · cases h
    show get (clearPages (fun col => ~~~colBit col) node.bitmap node.startPfn _ npages) q = _
    rw [hpfn, get_clearPages _ (by omega), Nat.add_sub_cancel_left]

theorem sound_free (hs : Sound node held) {s npages : Nat} {node' : BootmemNode}
    (hheld : (s, npages) ∈ held)
    (h : freeWith ownClear node ((node.startPfn + s) <<< PGSHIFT) npages = .ok node') :
    Sound node' (held.erase (s, npages)) := by
  -- the freed range is apart from every other held range
  have hperm := List.perm_cons_erase hheld
  have hpair := (hperm.pairwise_iff fun {r r'} (h : ∀ p, InRange r p → ¬InRange r' p) p hp hp' =>
    h p hp' hp).mp hs.disjoint
  obtain ⟨happart, hrest⟩ := List.pairwise_cons.mp hpair
  refine ⟨fun r hr p hp => ?_, hrest⟩
  rw [freeWith_ownClear h, hs.marked r (List.mem_of_mem_erase hr) p hp]
  have hout : ¬InRange (s, npages) p := happart r hr p |>.mt (not_not.mpr hp)
  simp only [InRange] at hout
  simp [hout]

/-- **Every reachable state is sound.** -/
theorem reach_sound (h : Reach ownTest ownClear node held) : Sound node held := by
  induction h with
  | start hs => exact hs
  | alloc _ hn hfound ih => exact sound_alloc ih hn hfound
  | allocNone _ hnone ih => exact sound_allocNone ih hnone
  | free _ hheld hfree ih => exact sound_free ih hheld hfree

end Own

/-- **With own-bit masks no page is handed out twice.** From a node whose
held ranges are marked and apart, along any run of allocations and of frees
of held ranges, the range `bootmem_alloc` finds meets no range then held. -/
theorem intended_alloc_disjoint {node : BootmemNode} {held : List (Nat × Nat)}
    (h : Reach ownTest ownClear node held) {npages s : Nat}
    (hfound : scanTwice ownTest node npages = .found s) :
    ∀ r ∈ held, ∀ p, InRange (s, npages) p → ¬InRange r p :=
  found_disjoint (reach_sound h) hfound

/-- **The source's masks hand out a held page.** On a 66-page region at
`0x80400000`: one page, another, the first freed, then 64 pages. The free
clears columns 0 to 32, and the scan for 64 pages tests columns 1 to 31
through columns 33 to 63, so the 64 pages start at the region's first page and
take in the second, still held. -/
theorem bootmem_alloc_reallocates_held_page :
    ((initNode 0x80241000 ⟨0, 0x80400000, 66 * PGSIZE⟩ fun _ => 0) >>= fun node =>
      runOps node [.alloc 1, .alloc 1, .free 0x80400000 1, .alloc 64]).toOption.map Prod.snd =
      some [0x80400000, 0x80401000, 0x80400000] ∧
    0x80400000 < 0x80401000 ∧ 0x80401000 < 0x80400000 + 64 * PGSIZE := by
  refine ⟨by decide, by decide, by decide⟩

/-- **The scan misses a free run at the node's end.** On the same 66-page
region, 64 pages and then one are handed out: pages 0 to 63, then page 64.
Page 65, the last, is free in the bitmap, but `bootmem_alloc(1)` returns
`0`: both passes stop at `next_offset + npages < node->npages`, which no run
ending at the last page meets. -/
theorem bootmem_alloc_misses_last_page :
    ((initNode 0x80241000 ⟨0, 0x80400000, 66 * PGSIZE⟩ fun _ => 0) >>= fun node =>
      runOps node [.alloc 64, .alloc 1]).toOption.map
        (fun r => (r.2, r.1.npages, get r.1.bitmap 65, (bootmemAlloc r.1 1).2)) =
      some ([0x80400000, 0x80440000], 66, false, 0) := by
  decide

end Bootmem

end Mkros
