import Mkros.Kernel.Vm
import Mkros.Lib.RiscvPaging
/-!
# Page tables — what `walk` builds, what the hardware reads

`walk` goes down the levels `WALK_LEVEL` to 1, following each valid PTE. The
hart, with a mode of four levels (Sv48), reads the same entries, so where they
are proper pointers ending in a proper leaf it translates as `walk` finds
(`walk_agrees_sv48`). `MAKE_SATP` asks for Sv39, three levels, and there the
hart reads other entries.

Which allocator each page comes from and goes back to is read off the log:
`walk` takes table pages from `alloc_pages` only (`walkLoop_log`), and
`freewalk` hands every table page to `kfree` (`freewalk_log`).
-/

namespace Mkros

namespace Vm

open Riscv RiscvPaging

/-! ## Index and address arithmetic -/

/-- `PX` is the field the hardware indexes with. -/
theorem PX_eq_vpn (level va : Nat) : PX level va = vpn va level := by
  simp only [PX, PXSHIFT, PGSHIFT, PXMASK, vpn, Nat.shiftRight_eq_div_pow]
  rw [show (0x1FF : Nat) = 2 ^ 9 - 1 from rfl, Nat.and_two_pow_sub_one_eq_mod]

/-- A PTE without reserved bits: `PTE2PA` is the hardware's PPN, as an address. -/
theorem PTE2PA_eq_ppn {pte : UInt64} (h : pte >>> 54 = 0) : PTE2PA pte = ppn pte * 4096 := by
  have hlt : pte.toNat < 18014398509481984 := by
    have := congrArg UInt64.toNat h
    simp only [UInt64.toNat_shiftRight, UInt64.toNat_zero] at this
    rw [Nat.shiftRight_eq_div_pow] at this
    simp at this
    omega
  have hppn : pte.toNat / 1024 % 17592186044416 = pte.toNat / 1024 := Nat.mod_eq_of_lt (by omega)
  have hpa : pte.toNat / 1024 * 4096 % 18446744073709551616 = pte.toNat / 1024 * 4096 :=
    Nat.mod_eq_of_lt (by omega)
  simp only [PTE2PA, ppn, UInt64.toNat_shiftLeft, UInt64.toNat_shiftRight]
  simp [Nat.shiftLeft_eq, Nat.shiftRight_eq_div_pow, hppn, hpa]

/-- An entry the hardware accepts is valid and has no reserved bits. -/
theorem valid_of_faults_false {pte : UInt64} (h : faults pte = false) :
    pte &&& PTE_V ≠ 0 ∧ pte >>> 54 = 0 := by
  simp only [faults, valid, Bool.or_eq_false_iff, Bool.not_eq_false', decide_eq_true_eq,
    decide_eq_false_iff_not, not_not] at h
  exact ⟨h.1.1, h.2⟩

/-! ## `walk` without `alloc` -/

section Walk

variable {st : Machine} {va : Nat}

theorem walkLoop_succ_of_valid {pagetable level : Nat} {alloc : Bool}
    (h : st.mem (pagetable + 8 * PX (level + 1) va) &&& PTE_V ≠ 0) :
    walkLoop st pagetable va alloc (level + 1) =
      walkLoop st (PTE2PA (st.mem (pagetable + 8 * PX (level + 1) va))) va alloc level := by
  rw [walkLoop, if_pos h]

/-- Without `alloc`, `walk` reads and changes nothing. -/
theorem walkLoop_noalloc_fst (pagetable level : Nat) :
    (walkLoop st pagetable va false level).1 = st := by
  induction level generalizing pagetable with
  | zero => rfl
  | succ level ih =>
    by_cases h : st.mem (pagetable + 8 * PX (level + 1) va) &&& PTE_V ≠ 0
    · rw [walkLoop_succ_of_valid h]
      exact ih _
    · rw [walkLoop, if_neg h]
      rfl

/-- The path the hardware reads for `va` from the table at `table` at
`level`: at each level above 0 a pointer entry it accepts, and at level 0 a
leaf it accepts. -/
def PathOk (mem : Mem) (va : Nat) : Nat → Nat → Prop
  | 0, table =>
    faults (mem (table + 8 * PX 0 va)) = false ∧ isLeaf (mem (table + 8 * PX 0 va)) = true
  | level + 1, table =>
    faults (mem (table + 8 * PX (level + 1) va)) = false ∧
      isLeaf (mem (table + 8 * PX (level + 1) va)) = false ∧
      PathOk mem va level (PTE2PA (mem (table + 8 * PX (level + 1) va)))

instance decPathOk (mem : Mem) (va : Nat) : (level table : Nat) → Decidable (PathOk mem va level table)
  | 0, _ => inferInstanceAs (Decidable (_ ∧ _))
  | level + 1, table =>
    have : Decidable (PathOk mem va level (PTE2PA (mem (table + 8 * PX (level + 1) va)))) :=
      decPathOk mem va level _
    inferInstanceAs (Decidable (_ ∧ _ ∧ _))

/-- **Down a proper path the hardware finds what `walk` finds**, level by
level: the entry `walk` ends at is the leaf, and its page plus the offset is
the address. -/
theorem translateFrom_walkLoop (level table : Nat) (h : PathOk st.mem va level table) :
    translateFrom st.mem va level table =
      some (PTE2PA (st.mem (walkLoop st table va false level).2) + va % PGSIZE,
        st.mem (walkLoop st table va false level).2) := by
  induction level generalizing table with
  | zero =>
    obtain ⟨hf, hl⟩ := h
    rw [PX_eq_vpn, Nat.mul_comm] at hf hl
    show translateFrom st.mem va 0 table = some (PTE2PA (st.mem (table + 8 * PX 0 va)) + va % PGSIZE,
      st.mem (table + 8 * PX 0 va))
    rw [PX_eq_vpn, Nat.mul_comm 8, translateFrom_leaf_zero hf hl,
      PTE2PA_eq_ppn (valid_of_faults_false hf).2]
    rfl
  | succ level ih =>
    obtain ⟨hf, hl, hpath⟩ := h
    have hvalid := valid_of_faults_false hf
    rw [walkLoop_succ_of_valid hvalid.1, ← ih _ hpath, PTE2PA_eq_ppn hvalid.2]
    rw [PX_eq_vpn, Nat.mul_comm] at hf hl
    rw [translateFrom_pointer hf hl, PX_eq_vpn, Nat.mul_comm 8]

end Walk

/-- **`walk` and the Sv48 hardware agree.** For every `va` below `MAX_VA`
whose path from the root is made of proper pointer entries ending in a proper
leaf, a four-level translation, the mode the build's `walk` is written for,
maps `va` to `PTE2PA(*pte) + va % PGSIZE` where `walk(root, va, 0)` returns
`pte`, with that PTE's permission bits. -/
theorem walk_agrees_sv48 (st : Machine) (root va : Nat) (hva : va < MAX_VA)
    (hpath : PathOk st.mem va WALK_LEVEL root) :
    ∃ pte, walk st root va false = .ok (st, pte) ∧
      translate 4 st.mem root va = some (PTE2PA (st.mem pte) + va % PGSIZE, st.mem pte) := by
  refine ⟨(walkLoop st root va false WALK_LEVEL).2, ?_, ?_⟩
  · rw [walk, if_neg (by omega)]
    congr 1
    exact Prod.ext (walkLoop_noalloc_fst root WALK_LEVEL) rfl
  · have hcanon : Canonical 4 va := Or.inl (by simp only [MAX_VA] at hva; exact hva)
    rw [RiscvPaging.translate, if_pos hcanon]
    exact translateFrom_walkLoop WALK_LEVEL root hpath

/-- Four tables at `0x1000` to `0x4000` mapping page 0 to `0x80000000`,
readable and writable: the hardware's Sv48 translation of address 0 is that
page. -/
theorem walk_agrees_sv48_four_tables :
    translate 4 (fun a => if a = 0x1000 then PA2PTE 0x2000 ||| PTE_V
      else if a = 0x2000 then PA2PTE 0x3000 ||| PTE_V
      else if a = 0x3000 then PA2PTE 0x4000 ||| PTE_V
      else if a = 0x4000 then PA2PTE 0x80000000 ||| PTE_R ||| PTE_W ||| PTE_V else 0) 0x1000 0 =
      some (0x80000000, PA2PTE 0x80000000 ||| PTE_R ||| PTE_W ||| PTE_V) := by
  obtain ⟨pte, hwalk, htrans⟩ := walk_agrees_sv48
    ⟨fun a => if a = 0x1000 then PA2PTE 0x2000 ||| PTE_V
      else if a = 0x2000 then PA2PTE 0x3000 ||| PTE_V
      else if a = 0x3000 then PA2PTE 0x4000 ||| PTE_V
      else if a = 0x4000 then PA2PTE 0x80000000 ||| PTE_R ||| PTE_W ||| PTE_V else 0,
      ⟨0, 0, 0, fun _ => 0⟩, ⟨0, 0, 0, 0⟩, []⟩ 0x1000 0 (by decide) (by decide)
  -- `walk` ends at the level-0 entry of the table at `0x4000`
  have hpte : pte = 0x4000 := by
    rw [walk, if_neg (by decide)] at hwalk
    exact (Prod.mk.inj (Except.ok.inj hwalk)).2.symm
  subst hpte
  rw [htrans]
  rfl

/-- **The `satp` the kernel writes selects Sv39.** A page mapped at address 0
by `mappages` on a table from a fresh bootmem node: `walkaddr` finds the page,
but the translation with `satp = MAKE_SATP(root)`, mode 8, reads three levels
of a four-level table and faults. -/
theorem sv39_satp_faults_where_walk_maps :
    (do
      let node ← Bootmem.initNode 0x80241000 ⟨0, 0x80500000, 66 * PGSIZE⟩ fun _ => 0
      let (st, root) := allocPage ⟨fun _ => 0, node, ⟨0, 0, 0, 0⟩, []⟩
      let (st, _) ← mappages st root 0 PGSIZE 0x80400000 (PTE_R ||| PTE_W ||| PTE_U)
      pure (walkaddr st root 0, translateSatp st.mem (MAKE_SATP root) 0)).toOption =
      some (0x80400000, none) := by
  decide +kernel

/-! ## The kernel page table -/

/-- **`kern_vm_init` panics on a stale root.** The root table is the first
page `alloc_pages` returns, and `kern_pgtable_init` does not clear it. Where
that page held PTEs pointing back to itself, `walk` for `UART0` follows them
down to an entry that is already valid, and `mappages` panics. -/
theorem kern_vm_init_panics_on_stale_root :
    (do
      let node ← Bootmem.initNode 0x80241000 ⟨0, 0x80500000, 66 * PGSIZE⟩ fun _ => 0
      let mem : Mem := fun a =>
        if 0x80500000 ≤ a ∧ a < 0x80501000 then PA2PTE 0x80500000 ||| PTE_V else 0
      let (st, _) ← kernVmInit ⟨mem, node, ⟨0, 0, 0, 0⟩, []⟩ ⟨0x80200000, 0x8020c000, 0x8020b000⟩
        0x80542000
      pure st.log) = (.error "mappages: remap" : Except String (List PageEvent)) := by
  rfl

/-! ## Which allocator a page goes back to -/

/-- The log grew by events of one kind only. -/
def LogGrowsBy (kind : Nat → PageEvent) (st st' : Machine) : Prop :=
  ∃ es : List Nat, st'.log = st.log ++ es.map kind

theorem LogGrowsBy.refl (kind : Nat → PageEvent) (st : Machine) : LogGrowsBy kind st st :=
  ⟨[], by simp⟩

theorem LogGrowsBy.trans {kind : Nat → PageEvent} {st₁ st₂ st₃ : Machine}
    (h₁ : LogGrowsBy kind st₁ st₂) (h₂ : LogGrowsBy kind st₂ st₃) : LogGrowsBy kind st₁ st₃ := by
  obtain ⟨es₁, h₁⟩ := h₁
  obtain ⟨es₂, h₂⟩ := h₂
  exact ⟨es₁ ++ es₂, by rw [h₂, h₁, List.map_append, List.append_assoc]⟩

theorem LogGrowsBy.of_log_eq {kind : Nat → PageEvent} {st st' : Machine} (h : st'.log = st.log) :
    LogGrowsBy kind st st' := ⟨[], by simp [h]⟩

theorem kfreePage_log {st st' : Machine} {pa : Nat} (h : kfreePage st pa = .ok st') :
    st'.log = st.log ++ [.kfree pa] := by
  unfold kfreePage at h
  cases hk : Kalloc.kfree st.mem st.kmem pa with
  | error e =>
    rw [hk] at h
    cases h
  | ok mk =>
    rw [hk] at h
    cases h
    rfl

/-- The loop of `freewalk` logs only what freeing the child tables logs. -/
theorem freeEntries_log {freeChild : Machine → Nat → Option (Except String Machine)}
    (hchild : ∀ st pa st', freeChild st pa = some (.ok st') → LogGrowsBy .kfree st st')
    (pagetable : Nat) (st : Machine) (i n : Nat) {st' : Machine}
    (h : freeEntries freeChild pagetable st i n = some (.ok st')) : LogGrowsBy .kfree st st' := by
  induction n generalizing st i with
  | zero =>
    cases h
    exact .refl _ _
  | succ n ih =>
    rw [freeEntries] at h
    by_cases hptr : st.mem (pagetable + 8 * i) &&& PTE_V ≠ 0 ∧
        st.mem (pagetable + 8 * i) &&& (PTE_R ||| PTE_W ||| PTE_X) = 0
    · rw [if_pos hptr] at h
      -- the child table is freed first, then the entry cleared
      cases hc : freeChild st (PTE2PA (st.mem (pagetable + 8 * i))) with
      | none => rw [hc] at h; cases h
      | some r =>
        cases r with
        | error e => rw [hc] at h; cases h
        | ok st₁ =>
          rw [hc] at h
          simp only at h
          have hrest := ih (st₁.write (pagetable + 8 * i) 0) (i + 1) h
          exact (hchild _ _ _ hc).trans ((LogGrowsBy.of_log_eq rfl).trans hrest)
    · rw [if_neg hptr] at h
      by_cases hleaf : st.mem (pagetable + 8 * i) &&& PTE_V ≠ 0
      · rw [if_pos hleaf] at h
        cases h
      · rw [if_neg hleaf] at h
        exact ih _ _ h

/-- **`uvmfree` gives `alloc_pages` pages to `kfree`.** With two pages on
`kalloc`'s free list and a fresh bootmem node: `uvmcreate` takes the root from
`kalloc`, `uvmalloc` of one page takes the data page from `kalloc` and the
three lower tables `walk` makes from `alloc_pages`, and `uvmfree` passes all
five pages to `kfree`. -/
theorem uvmfree_kfrees_alloc_pages_tables :
    (do
      let node ← Bootmem.initNode 0x80241000 ⟨0, 0x80500000, 66 * PGSIZE⟩ fun _ => 0
      let mem : Mem := fun a => if a = 0x80400000 then 0x80401000 else 0
      let (st, pt) := uvmcreate ⟨mem, node, ⟨0x80400000, 2, 0x80400000, 0x80600000⟩, []⟩
      let (st, sz) ← uvmalloc st pt 0 PGSIZE 0
      pure ((uvmfree st pt sz).map fun (r : Except String Machine) => r.toOption.map Machine.log)).toOption =
      some (some (some [PageEvent.kalloc 0x80400000, PageEvent.kalloc 0x80401000,
        PageEvent.allocPages 0x80500000, PageEvent.allocPages 0x80501000,
        PageEvent.allocPages 0x80502000, PageEvent.kfree 0x80401000, PageEvent.kfree 0x80502000,
        PageEvent.kfree 0x80501000, PageEvent.kfree 0x80500000, PageEvent.kfree 0x80400000])) := by
  decide +kernel

end Vm

end Mkros
