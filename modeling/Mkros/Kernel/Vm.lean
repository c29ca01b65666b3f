import Mkros.Kernel.Kalloc
import Mkros.Mm.Bootmem
import Mkros.Lib.ByteMem
/-!
# Page tables, `vm.c` — the model

The machine `vm.c` runs on: physical memory, the bootmem node `alloc_pages`
draws from (`register_mm_handlers` binds it to `bootmem_alloc`, on the node of
the calling CPU), and `kalloc`'s `kmem`. A page table is a page of 512 PTEs,
`pagetable[i]` the word at `pagetable + 8 i`.

The machine also keeps a log, which the code does not: each page an allocator
hands out or takes back, in order. It is what ownership of pages is stated
over.

`freewalk` recurses into every table a valid non-leaf PTE points to; the
model gives it a depth, `WALK_LEVEL + 1` for the tables `walk` builds, and
`none` when a table lies deeper.
-/

namespace Mkros

namespace Vm

open Riscv Kalloc

/-- A page handed out or taken back. -/
inductive PageEvent where
  | allocPages (pa : Nat)
  | kalloc (pa : Nat)
  | kfree (pa : Nat)
  deriving DecidableEq, Repr

/-- The machine. -/
structure Machine where
  mem : Mem
  node : Bootmem.BootmemNode
  kmem : Kmem
  log : List PageEvent

/-- `*pte = v`. -/
def Machine.write (st : Machine) (a : Nat) (v : UInt64) : Machine :=
  { st with mem := Function.update st.mem a v }

/-- `alloc_pages(1)`: `bootmem_alloc(1)`. -/
def allocPage (st : Machine) : Machine × Nat :=
  let (node, pa) := Bootmem.bootmemAlloc st.node 1
  ({ st with node := node, log := if pa ≠ 0 then st.log ++ [.allocPages pa] else st.log }, pa)

/-- `kalloc()`. -/
def kallocPage (st : Machine) : Machine × Nat :=
  let (mem, kmem, pa) := kalloc st.mem st.kmem
  ({ st with mem := mem, kmem := kmem, log := if pa ≠ 0 then st.log ++ [.kalloc pa] else st.log }, pa)

/-- `kfree(pa)`. -/
def kfreePage (st : Machine) (pa : Nat) : Except String Machine := do
  let (mem, kmem) ← kfree st.mem st.kmem pa
  pure { st with mem := mem, kmem := kmem, log := st.log ++ [.kfree pa] }

/-- `memset(pa, 0, PGSIZE)`. -/
def zeroPage (st : Machine) (pa : Nat) : Machine :=
  { st with mem := memsetPage st.mem pa 0 }

/-! ## `walk` and `mappages` -/

/-- The loop of `walk` from `level` down: the address of the PTE for `va`, or
`0` where a table is missing and not made. -/
def walkLoop (st : Machine) (pagetable va : Nat) (alloc : Bool) : Nat → Machine × Nat
  | 0 => (st, pagetable + 8 * PX 0 va)
  | level + 1 =>
    let pte := pagetable + 8 * PX (level + 1) va
    if st.mem pte &&& PTE_V ≠ 0 then walkLoop st (PTE2PA (st.mem pte)) va alloc level
    else if !alloc then (st, 0)
    else
      let (st, page) := allocPage st
      if page = 0 then (st, 0)
      else
        let st := (zeroPage st page).write pte (PA2PTE page ||| PTE_V)
        walkLoop st page va alloc level

/-- `walk`. -/
def walk (st : Machine) (pagetable va : Nat) (alloc : Bool) : Except String (Machine × Nat) :=
  if va ≥ MAX_VA then .error "walk" else .ok (walkLoop st pagetable va alloc WALK_LEVEL)

/-- One round of `mappages`'s loop, at `cur`: the PTE written, or `false`
where `walk` could not make a table. -/
def mapOne (st : Machine) (pagetable cur pa : Nat) (perm : UInt64) : Except String (Machine × Bool) :=
  match walk st pagetable cur true with
  | .error e => .error e
  | .ok (st, pte) =>
    if pte = 0 then .ok (st, false)
    else if st.mem pte &&& PTE_V ≠ 0 then .error "mappages: remap"
    else .ok (st.write pte (PA2PTE pa ||| perm ||| PTE_V), true)

/-- The loop of `mappages` from `cur`, with `n` pages after it up to `last`. -/
def mapLoop (st : Machine) (pagetable cur pa : Nat) (perm : UInt64) : Nat → Except String (Machine × Int)
  | 0 => do
    let (st, ok) ← mapOne st pagetable cur pa perm
    pure (st, if ok then 0 else -1)
  | n + 1 => do
    let (st, ok) ← mapOne st pagetable cur pa perm
    if ok then mapLoop st pagetable (cur + PGSIZE) (pa + PGSIZE) perm n else pure (st, -1)

/-- `mappages`: `0`, or `-1` where `walk` could not make a table. -/
def mappages (st : Machine) (pagetable va size pa : Nat) (perm : UInt64) :
    Except String (Machine × Int) :=
  if size = 0 then .error "mappages: size"
  else
    let cur := PGROUNDDOWN va
    let last := PGROUNDDOWN (va + size - 1)
    mapLoop st pagetable cur pa perm ((last - cur) / PGSIZE)

/-- `kvmmap`. -/
def kvmmap (st : Machine) (kpgtbl va pa sz : Nat) (perm : UInt64) : Except String Machine := do
  let (st, r) ← mappages st kpgtbl va sz pa perm
  if r ≠ 0 then throw "kvmmap" else pure st

/-- `walkaddr`. -/
def walkaddr (st : Machine) (pagetable va : Nat) : Nat :=
  if va ≥ MAX_VA then 0
  else
    let (st, pte) := walkLoop st pagetable va false WALK_LEVEL
    if pte = 0 then 0
    else if st.mem pte &&& PTE_V = 0 then 0
    else if st.mem pte &&& PTE_U = 0 then 0
    else PTE2PA (st.mem pte)

/-! ## The kernel page table -/

/-- Where the linker put the kernel: `kernel_start`, `etext`, and the
trampoline page `trampoline`. -/
structure Layout where
  kernelStart : Nat
  etext : Nat
  trampoline : Nat

/-- `kern_pgtable_init`, with `max_pa` as `kern_vm_init` set it. -/
def kernPgtableInit (st : Machine) (layout : Layout) (maxPa : Nat) : Except String (Machine × Nat) := do
  let (st, kpgtbl) := allocPage st
  let st ← kvmmap st kpgtbl UART0 UART0 PGSIZE (PTE_R ||| PTE_W)
  let st ← kvmmap st kpgtbl VIRTIO0 VIRTIO0 PGSIZE (PTE_R ||| PTE_W)
  let st ← kvmmap st kpgtbl PLIC PLIC 0x400000 (PTE_R ||| PTE_W)
  let st ← kvmmap st kpgtbl layout.kernelStart layout.kernelStart
    (layout.etext - layout.kernelStart) (PTE_R ||| PTE_X)
  let st ← kvmmap st kpgtbl layout.etext layout.etext (maxPa - layout.etext) (PTE_R ||| PTE_W)
  let st ← kvmmap st kpgtbl TRAMPOLINE layout.trampoline PGSIZE (PTE_R ||| PTE_X)
  pure (st, kpgtbl)

/-- `kern_vm_init`: `max_pa = ram_end()`, then the table. -/
def kernVmInit (st : Machine) (layout : Layout) (ramEnd : Nat) : Except String (Machine × Nat) :=
  kernPgtableInit st layout ramEnd

/-! ## User page tables -/

/-- The loop of `uvmunmap` over `n` pages from `a`. -/
def unmapLoop (st : Machine) (pagetable a : Nat) (doFree : Bool) : Nat → Except String Machine
  | 0 => .ok st
  | n + 1 => do
    let (st, pte) ← walk st pagetable a false
    if pte = 0 then throw "uvmunmap: walk"
    if st.mem pte &&& PTE_V = 0 then throw "uvmunmap: not mapped"
    if PTE_FLAGS (st.mem pte) = PTE_V then throw "uvmunmap: not a leaf"
    let st ← if doFree then kfreePage st (PTE2PA (st.mem pte)) else pure st
    unmapLoop (st.write pte 0) pagetable (a + PGSIZE) doFree n

/-- `uvmunmap`. -/
def uvmunmap (st : Machine) (pagetable va npages : Nat) (doFree : Bool) : Except String Machine :=
  if va % PGSIZE ≠ 0 then .error "uvmunmap: not aligned"
  else unmapLoop st pagetable va doFree npages

/-- `uvmcreate`: the table, `0` if out of memory. -/
def uvmcreate (st : Machine) : Machine × Nat :=
  let (st, pagetable) := kallocPage st
  if pagetable = 0 then (st, 0) else (zeroPage st pagetable, pagetable)

/-- `uvmdealloc`. -/
def uvmdealloc (st : Machine) (pagetable oldsz newsz : Nat) : Except String (Machine × Nat) :=
  if newsz ≥ oldsz then .ok (st, oldsz)
  else if PGROUNDUP newsz < PGROUNDUP oldsz then do
    let npages := (PGROUNDUP oldsz - PGROUNDUP newsz) / PGSIZE
    let st ← uvmunmap st pagetable (PGROUNDUP newsz) npages true
    pure (st, newsz)
  else .ok (st, newsz)

/-- The loop of `uvmalloc` from `a`, `n` pages up to `newsz`; `oldsz` is the
rounded size a failure deallocates back to. -/
def allocLoop (st : Machine) (pagetable oldsz newsz : Nat) (xperm : UInt64) :
    Nat → Nat → Except String (Machine × Nat)
  | _, 0 => .ok (st, newsz)
  | a, n + 1 =>
    let (st, mem) := kallocPage st
    if mem = 0 then do
      let (st, _) ← uvmdealloc st pagetable a oldsz
      pure (st, 0)
    else
      let st := zeroPage st mem
      match mappages st pagetable a PGSIZE mem (PTE_R ||| PTE_U ||| xperm) with
      | .error e => .error e
      | .ok (st, r) =>
        if r ≠ 0 then do
          let st ← kfreePage st mem
          let (st, _) ← uvmdealloc st pagetable a oldsz
          pure (st, 0)
        else allocLoop st pagetable oldsz newsz xperm (a + PGSIZE) n

/-- `uvmalloc`: the new size, `0` on error. -/
def uvmalloc (st : Machine) (pagetable oldsz newsz : Nat) (xperm : UInt64) :
    Except String (Machine × Nat) :=
  if newsz < oldsz then .ok (st, oldsz)
  else
    let oldsz := PGROUNDUP oldsz
    allocLoop st pagetable oldsz newsz xperm oldsz ((newsz - oldsz + PGSIZE - 1) / PGSIZE)

/-- The loop of `freewalk` over the entries from `i` of the table at
`pagetable`, `n` of them, freeing child tables with `freeChild`. -/
def freeEntries (freeChild : Machine → Nat → Option (Except String Machine)) (pagetable : Nat) :
    Machine → Nat → Nat → Option (Except String Machine)
  | st, _, 0 => some (.ok st)
  | st, i, n + 1 =>
    let pte := st.mem (pagetable + 8 * i)
    if pte &&& PTE_V ≠ 0 ∧ pte &&& (PTE_R ||| PTE_W ||| PTE_X) = 0 then
      -- a lower-level page table
      match freeChild st (PTE2PA pte) with
      | some (.ok st) => freeEntries freeChild pagetable (st.write (pagetable + 8 * i) 0) (i + 1) n
      | r => r
    else if pte &&& PTE_V ≠ 0 then some (.error "freewalk: leaf")
    else freeEntries freeChild pagetable st (i + 1) n

/-- `freewalk`, into tables down to `depth` levels; `none` where a table lies
deeper. -/
def freewalk : Nat → Machine → Nat → Option (Except String Machine)
  | 0, _, _ => none
  | depth + 1, st, pagetable =>
    match freeEntries (freewalk depth) pagetable st 0 512 with
    | some (.ok st) => some (kfreePage st pagetable)
    | r => r

/-- `uvmfree`. -/
def uvmfree (st : Machine) (pagetable sz : Nat) : Option (Except String Machine) :=
  let unmapped := if sz > 0 then uvmunmap st pagetable 0 (PGROUNDUP sz / PGSIZE) true else .ok st
  match unmapped with
  | .error e => some (.error e)
  | .ok st => freewalk (WALK_LEVEL + 1) st pagetable

/-- `memmove(dst, src, PGSIZE)`. -/
def copyPage (st : Machine) (dst src : Nat) : Machine :=
  { st with mem := fun a => if dst ≤ a ∧ a < dst + PGSIZE then st.mem (a - dst + src) else st.mem a }

/-- The loop of `uvmcopy` from `i`, `n` pages up to `sz`: `0`, or `-1` after
unmapping what it mapped. -/
def copyLoop (old new : Nat) : Machine → Nat → Nat → Except String (Machine × Int)
  | st, _, 0 => .ok (st, 0)
  | st, i, n + 1 => do
    let (st, pte) ← walk st old i false
    if pte = 0 then throw "uvmcopy: pte should exist"
    if st.mem pte &&& PTE_V = 0 then throw "uvmcopy: page not present"
    let pa := PTE2PA (st.mem pte)
    let flags := PTE_FLAGS (st.mem pte)
    let (st, mem) := kallocPage st
    if mem = 0 then
      let st ← uvmunmap st new 0 (i / PGSIZE) true
      return (st, -1)
    let st := copyPage st mem pa
    let (st, r) ← mappages st new i PGSIZE mem flags
    if r ≠ 0 then
      let st ← kfreePage st mem
      let st ← uvmunmap st new 0 (i / PGSIZE) true
      return (st, -1)
    copyLoop old new st (i + PGSIZE) n

/-- `uvmcopy`. -/
def uvmcopy (st : Machine) (old new sz : Nat) : Except String (Machine × Int) :=
  copyLoop old new st 0 ((sz + PGSIZE - 1) / PGSIZE)

/-- `uvmclear`. -/
def uvmclear (st : Machine) (pagetable va : Nat) : Except String Machine := do
  let (st, pte) ← walk st pagetable va false
  if pte = 0 then throw "uvmclear"
  pure (st.write pte (st.mem pte &&& ~~~PTE_U))

/-! ## Copying a string in -/

/-- The byte at physical address `a`: byte `a % 8` of the word at
`a / 8 * 8` (RISC-V is little-endian). -/
def loadByte (mem : Mem) (a : Nat) : UInt8 := (mem (a / 8 * 8) >>> (8 * (a % 8)).toUInt64).toUInt8

/-- The inner loop of `copyinstr`, over `n` bytes from `p` with `max` left:
the bytes it writes to `dst` in turn, `max` after, and `got_null`. -/
def copyBytes (mem : Mem) : Nat → Nat → Nat → List UInt8 × Nat × Bool
  | _, 0, max => ([], max, false)
  | p, n + 1, max =>
    let c := loadByte mem p
    -- `*dst = '\0'; got_null = 1; break;`
    if c = 0 then ([0], max, true)
    else
      let (out, max, got) := copyBytes mem (p + 1) n (max - 1)
      (c :: out, max, got)

/-- The outer loop of `copyinstr` from `srcva` with `max` left, for at most
`fuel` pages: the bytes it writes to `dst` in turn, and what it returns.
Each page takes a byte of `max` at least, so `max + 1` rounds of fuel always
suffice. -/
def copyinstrLoop (st : Machine) (pagetable : Nat) : Nat → Nat → Nat → List UInt8 × Int
  | 0, _, _ => ([], -1)
  | fuel + 1, srcva, max =>
    if max = 0 then ([], -1)
    else
      let va0 := PGROUNDDOWN srcva
      let pa0 := walkaddr st pagetable va0
      if pa0 = 0 then ([], -1)
      else
        let n := min (PGSIZE - (srcva - va0)) max
        let (out, max, got) := copyBytes st.mem (pa0 + (srcva - va0)) n max
        if got then (out, 0)
        else
          let (rest, r) := copyinstrLoop st pagetable fuel (va0 + PGSIZE) max
          (out ++ rest, r)

/-- `copyinstr(pagetable, dst, srcva, max)`: the bytes written to `dst[0]`,
`dst[1]`, … in turn, and `0` or `-1`. `dst` is a kernel buffer, apart from
the user's pages. -/
def copyinstr (st : Machine) (pagetable srcva max : Nat) : List UInt8 × Int :=
  copyinstrLoop st pagetable (max + 1) srcva max

/-! ## Copying between kernel and user

A kernel pointer is a physical address (the kernel's memory is mapped one to
one), so `copyout` and `copyin` move bytes within the one physical memory,
between the user's pages and the kernel's buffer. -/

/-- `while (n-- > 0) *d++ = *s++;`: the `n` bytes from `s` on to `d` on,
lowest first. -/
def moveUp (mem : Mem) (d s : Nat) : Nat → Mem
  | 0 => mem
  | n + 1 => moveUp (ByteMem.store mem d (ByteMem.load mem s)) (d + 1) (s + 1) n

/-- `s += n; d += n; while (n-- > 0) *--d = *--s;`: the `n` bytes from `s`
on to `d` on, highest first. -/
def moveDown (mem : Mem) (d s : Nat) : Nat → Mem
  | 0 => mem
  | n + 1 => moveDown (ByteMem.store mem (d + n) (ByteMem.load mem (s + n))) d s n

/-- `memmove(dst, src, n)`: from the top down where the source starts below
the destination and runs into it, from the bottom up otherwise. -/
def memmove (mem : Mem) (dst src n : Nat) : Mem :=
  if n = 0 then mem
  else if src < dst ∧ src + n > dst then moveDown mem dst src n
  else moveUp mem dst src n

/-- The loop `copyout` and `copyin` share, with `len` bytes left between the
user's `va` and the kernel's `k`: a page at a time, from `va` to the page's
end or to `len`, `move mem pa k n` copying the `n` bytes between the user's
at physical `pa` and the kernel's at `k`. -/
def userCopyLoop (move : Mem → Nat → Nat → Nat → Mem) (st : Machine) (pagetable va k len : Nat) :
    Machine × Int :=
  if _h : len = 0 then (st, 0)
  else
    let va0 := PGROUNDDOWN va
    let pa0 := walkaddr st pagetable va0
    if pa0 = 0 then (st, -1)
    else
      let n := min (PGSIZE - (va - va0)) len
      userCopyLoop move { st with mem := move st.mem (pa0 + (va - va0)) k n } pagetable (va0 + PGSIZE) (k + n)
        (len - n)
termination_by len
decreasing_by
  -- a page's rest from `va` is at least one byte
  simp only [PGROUNDDOWN, PGSIZE]
  omega

/-- `copyout(pagetable, dstva, src, len)`: `0`, or `-1` at the first page
`walkaddr` does not give, with the pages before it written. -/
def copyout (st : Machine) (pagetable dstva src len : Nat) : Machine × Int :=
  userCopyLoop (fun mem pa k n => memmove mem pa k n) st pagetable dstva src len

/-- `copyin(pagetable, dst, srcva, len)`. -/
def copyin (st : Machine) (pagetable dst srcva len : Nat) : Machine × Int :=
  userCopyLoop (fun mem pa k n => memmove mem k pa n) st pagetable srcva dst len

end Vm

end Mkros
