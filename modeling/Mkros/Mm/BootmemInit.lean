import Mkros.Mm.Numa
/-!
# `bootmem_init` — where a node's pages and descriptor go

`bootmem_init` raises a region's `start_addr` to `kernel_end`, but still
counts `npages` and `end_addr` from the whole `ram_size`. Where the kernel
image reaches into a region, the node it builds manages pages past the
region's end, and its descriptor, in the page below `end_addr`, lies past that
end too (`bootmem_init_node_past_region`). On the `README`'s machine, whose
regions are contiguous, node 0's last pages and its descriptor are pages of
region 1 (`bootmem_init_node_past_region_virt`).

The marks are off as well: the head mask `(1 << rest) - 1` shifts an `int`,
so from `rest = 32` on it keeps only the columns `32` further on, and the
first page of the node's metadata stays free in its bitmap
(`initRegion_meta_page_free`).
-/

namespace Mkros

namespace Bootmem

open Bitmap DeviceTree Riscv

variable {kernelEnd : Nat} {region : MemoryInfo} {mem : Nat → UInt64} {node : BootmemNode}

/-- The node `bootmem_init` builds for a region numbers its pages from
`start_addr` and counts the whole region. -/
theorem initRegion_fields (h : initRegion kernelEnd region mem = .ok node) :
    node.startPfn = startAddr kernelEnd region >>> PGSHIFT ∧ node.npages = region.ramSize >>> PGSHIFT := by
  unfold initRegion initNode at h
  dsimp only at h
  split at h
  · cases h
  · cases h
    exact ⟨rfl, rfl⟩

/-- **A region the kernel reaches into gets a node past its end**: the
node's page range ends past the region, and its descriptor lies past it. -/
theorem initRegion_past_region (hk : region.baseAddress + PGSIZE ≤ kernelEnd)
    (hsz : region.ramSize % PGSIZE = 0) (h : initRegion kernelEnd region mem = .ok node) :
    region.baseAddress + region.ramSize < (node.startPfn + node.npages) * PGSIZE ∧
      region.baseAddress + region.ramSize ≤ nodeAddr kernelEnd region := by
  obtain ⟨hstart, hnpages⟩ := initRegion_fields h
  -- `start_addr` is `kernel_end`
  have hmax : startAddr kernelEnd region = kernelEnd := max_eq_right (by omega)
  rw [hstart, hnpages, nodeAddr, hmax]
  simp only [Nat.shiftRight_eq_div_pow, PGSHIFT] at *
  unfold PGSIZE at *
  omega

/-- **`bootmem_init` lays a node out past its region.** After
`bootmem_init` succeeds, the node of every region that the kernel image
reaches a page into, with a `ram_size` of whole pages, manages pages past the
region's end, and its descriptor lies past that end. -/
theorem bootmem_init_node_past_region {dt : DeviceTree} {allNodes : Nat → Option BootmemNode}
    (hinit : bootmemInit kernelEnd dt mem = .ok allNodes) {id : Nat} (hid : id < dt.memNum)
    (hk : (dt.memory id).baseAddress + PGSIZE ≤ kernelEnd) (hsz : (dt.memory id).ramSize % PGSIZE = 0) :
    ∃ node, allNodes id = some node ∧
      (dt.memory id).baseAddress + (dt.memory id).ramSize < (node.startPfn + node.npages) * PGSIZE ∧
      (dt.memory id).baseAddress + (dt.memory id).ramSize ≤ nodeAddr kernelEnd (dt.memory id) := by
  obtain ⟨node, hnode, hentry⟩ := (initLoop_spec hinit).1 id hid
  exact ⟨node, hentry, initRegion_past_region hk hsz hnode⟩

/-- On the `README`'s machine, with the kernel ending at `0x80241000` in
region 0: node 0 manages pages past `0x82000000`, and its descriptor is a page
of region 1. -/
theorem bootmem_init_node_past_region_virt :
    ∃ allNodes node, bootmemInit 0x80241000 virtDt (fun _ => 0) = .ok allNodes ∧ allNodes 0 = some node ∧
      (virtDt.memory 0).baseAddress + (virtDt.memory 0).ramSize < (node.startPfn + node.npages) * PGSIZE ∧
      (virtDt.memory 1).baseAddress ≤ nodeAddr 0x80241000 (virtDt.memory 0) ∧
      nodeAddr 0x80241000 (virtDt.memory 0) < (virtDt.memory 1).baseAddress + (virtDt.memory 1).ramSize := by
  have hk : (virtDt.memory 0).baseAddress + PGSIZE ≤ 0x80241000 := by decide +kernel
  have hsz : (virtDt.memory 0).ramSize % PGSIZE = 0 := by decide +kernel
  have hid : 0 < virtDt.memNum := by decide +kernel
  have hregion1 : (virtDt.memory 1).baseAddress ≤ nodeAddr 0x80241000 (virtDt.memory 0) ∧
      nodeAddr 0x80241000 (virtDt.memory 0) < (virtDt.memory 1).baseAddress + (virtDt.memory 1).ramSize := by
    decide +kernel
  cases hinit : bootmemInit 0x80241000 virtDt (fun _ => 0) with
  | error e =>
    have hok : (bootmemInit 0x80241000 virtDt fun _ => 0).toOption.isSome := by decide +kernel
    simp [hinit, Except.toOption] at hok
  | ok allNodes =>
    obtain ⟨node, hentry, hpast, -⟩ := bootmem_init_node_past_region hinit hid hk hsz
    exact ⟨allNodes, node, rfl, hentry, hpast, hregion1⟩

/-! ## The marks -/

/-- `memset` from byte `a` leaves the words below `a`'s alone. -/
theorem memsetBytes_of_lt (bitmap : Nat → UInt64) {a w : Nat} (c : UInt8) (n : Nat) (hw : w < a / 8) :
    memsetBytes bitmap a c n w = bitmap w := by
  induction n generalizing bitmap a with
  | zero => rfl
  | succ n ih => rw [memsetBytes, ih _ (by omega), Function.update_of_ne (by omega)]

/-- The `memset` from byte `a` leaves the items of the words below `a`'s alone. -/
theorem get_memsetBytes_of_lt (bitmap : Nat → UInt64) {a q : Nat} (c : UInt8) (n : Nat) (hq : q / 64 < a / 8) :
    get (memsetBytes bitmap a c n) q = get bitmap q := by
  unfold Bitmap.get
  rw [memsetBytes_of_lt _ _ _ hq]

/-- From `rest = 32` on, the head mask leaves the first column it should mark
unmarked. -/
theorem bit_headMask {c : Nat} (hc : c ≤ 32) : bit (headMask (64 - c)) (63 - c) = false := by
  have hall : ∀ c ≤ 32, bit (headMask (64 - c)) (63 - c) = false := by decide
  exact hall c hc

/-- **The first page of a node's metadata can stay free.** Where the
bitmap's first page falls at column 32 or before in its word, `rest` is 32 or
more, `(1 << rest) - 1` does not mark that page, and the `memset` starts at
the next word: the page is free in the node's own bitmap. -/
theorem initRegion_meta_page_free (hsz : region.ramSize % PGSIZE = 0)
    (h : initRegion kernelEnd region mem = .ok node)
    (hcol : (bitmapAddr kernelEnd region >>> PGSHIFT - node.startPfn) % 64 ≤ 32) :
    get node.bitmap (bitmapAddr kernelEnd region >>> PGSHIFT - node.startPfn) = false := by
  unfold initRegion initNode at h
  dsimp only at h
  split at h
  · cases h
  · rename_i hroom
    cases h
    dsimp only at hcol ⊢
    generalize hoff : bitmapAddr kernelEnd region >>> PGSHIFT - startAddr kernelEnd region >>> PGSHIFT = off at hcol ⊢
    -- the bitmap's first page is a page of the node
    have hlt : off < region.ramSize >>> PGSHIFT := by
      subst hoff
      simp only [bitmapAddr, nodeAddr, Nat.shiftRight_eq_div_pow, Nat.shiftLeft_eq, PGSHIFT] at hroom ⊢
      unfold PGSIZE at *
      omega
    have hand : off &&& 63 = off % 64 := Nat.and_two_pow_sub_one_eq_mod off 6
    have hword : off >>> 6 = off / 64 := Nat.shiftRight_eq_div_pow off 6
    -- the `memset` starts at the next word, and the word was zeroed
    have hpast : off / 64 < (off + (64 - off % 64)) >>> 6 * 8 / 8 := by
      rw [Nat.shiftRight_eq_div_pow]
      omega
    have hzeroed : off / 64 < bitmapSize (region.ramSize >>> PGSHIFT) / 8 := by
      unfold bitmapSize
      omega
    rw [hand, hword, apply_ite (fun bm => get bm off), get_memsetBytes_of_lt _ _ _ hpast, ite_self,
      get_orWord, if_pos rfl, bit_headMask hcol, Bool.or_false]
    unfold Bitmap.get
    simp only [if_pos hzeroed]
    simp [bit]

/-- A region of 66 pages at `0x80500000`: the bitmap's page is page 64, at
column 0 of its word. -/
theorem initRegion_meta_page_free_66 :
    ∃ node, initRegion 0x80241000 ⟨0, 0x80500000, 66 * PGSIZE⟩ (fun _ => 0) = .ok node ∧
      (66 * PGSIZE) % PGSIZE = 0 ∧
      (bitmapAddr 0x80241000 ⟨0, 0x80500000, 66 * PGSIZE⟩ >>> PGSHIFT - node.startPfn) % 64 ≤ 32 ∧
      get node.bitmap (bitmapAddr 0x80241000 ⟨0, 0x80500000, 66 * PGSIZE⟩ >>> PGSHIFT - node.startPfn) = false := by
  have hsz : (66 * PGSIZE) % PGSIZE = 0 := by decide
  cases hinit : initRegion 0x80241000 ⟨0, 0x80500000, 66 * PGSIZE⟩ (fun _ => 0) with
  | error e =>
    have hok : (initRegion 0x80241000 ⟨0, 0x80500000, 66 * PGSIZE⟩ fun _ => 0).toOption.isSome := by decide +kernel
    simp [hinit, Except.toOption] at hok
  | ok node =>
    have hcol : ((initRegion 0x80241000 ⟨0, 0x80500000, 66 * PGSIZE⟩ fun _ => 0).toOption.map fun node =>
        (bitmapAddr 0x80241000 ⟨0, 0x80500000, 66 * PGSIZE⟩ >>> PGSHIFT - node.startPfn) % 64) = some 0 := by
      decide +kernel
    rw [hinit] at hcol
    have hcol' : (bitmapAddr 0x80241000 ⟨0, 0x80500000, 66 * PGSIZE⟩ >>> PGSHIFT - node.startPfn) % 64 ≤ 32 := by
      simp only [Except.toOption, Option.map_some, Option.some.injEq] at hcol
      omega
    exact ⟨node, rfl, hsz, hcol', initRegion_meta_page_free hsz hinit hcol'⟩

end Bootmem

end Mkros
