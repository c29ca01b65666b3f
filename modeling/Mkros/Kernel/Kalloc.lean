import Mkros.Kernel.Riscv
/-!
# The page allocator `kalloc.c` — the model

Physical memory is the 64-bit word at each 8-aligned address. `kalloc.c`
keeps its free pages in a list threaded through the pages themselves: each
free page's first word holds the next one, `kmem.freelist` the first. The model
keeps it so, with `0` for the end of the list.
-/

namespace Mkros

open Riscv

/-- Physical memory: the word at each 8-aligned address. -/
abbrev Mem := Nat → UInt64

/-- A word of eight bytes `c`. -/
def byteWord (c : UInt8) : UInt64 := c.toUInt64 * 0x0101010101010101

/-- `memset(pa, c, PGSIZE)`. -/
def memsetPage (mem : Mem) (pa : Nat) (c : UInt8) : Mem :=
  fun a => if pa ≤ a ∧ a < pa + PGSIZE then byteWord c else mem a

namespace Kalloc

/-- `kmem`, less its lock and the fields only `pr_info` reads. -/
structure Kmem where
  freelist : Nat
  npage : Nat
  kernelEnd : Nat
  ramStop : Nat
  deriving DecidableEq, Repr

/-- `kfree`. A panic is an `error` with its message. -/
def kfree (mem : Mem) (kmem : Kmem) (pa : Nat) : Except String (Mem × Kmem) :=
  if pa % PGSIZE ≠ 0 ∨ pa < kmem.kernelEnd ∨ pa ≥ kmem.ramStop then .error "kfree"
  else
    -- junk, then `r->next = kmem.freelist` in the page's first word
    let mem := Function.update (memsetPage mem pa 1) pa kmem.freelist.toUInt64
    .ok (mem, { kmem with freelist := pa, npage := kmem.npage + 1 })

/-- `kalloc`: the memory and `kmem` after the call, and the page returned,
`0` for none. -/
def kalloc (mem : Mem) (kmem : Kmem) : Mem × Kmem × Nat :=
  let r := kmem.freelist
  if r ≠ 0 then
    (memsetPage mem r 5, { kmem with freelist := (mem r).toNat, npage := kmem.npage - 1 }, r)
  else (mem, kmem, 0)

/-- The loop of `freerange` over `n` pages from `p`. -/
def freerangeLoop (mem : Mem) (kmem : Kmem) (p : Nat) : Nat → Except String (Mem × Kmem)
  | 0 => .ok (mem, kmem)
  | n + 1 => do
    let (mem, kmem) ← kfree mem kmem p
    freerangeLoop mem kmem (p + PGSIZE) n

/-- `freerange(pa_start, pa_end)`: every whole page from `PGROUNDUP(pa_start)`
up to `pa_end`. -/
def freerange (mem : Mem) (kmem : Kmem) (paStart paEnd : Nat) : Except String (Mem × Kmem) :=
  let p := PGROUNDUP paStart
  freerangeLoop mem kmem p ((paEnd - p) / PGSIZE)

/-- `kinit`, with the kernel's end and the RAM `ram_start()` and `ram_size()`
report. -/
def kinit (mem : Mem) (kernelEnd ramStart ramSize : Nat) : Except String (Mem × Kmem) :=
  let kmem : Kmem := ⟨0, 0, kernelEnd, ramStart + ramSize⟩
  freerange mem kmem kernelEnd kmem.ramStop

/-- `freemem_amount`. -/
def freememAmount (kmem : Kmem) : Nat := kmem.npage <<< PGSHIFT

/-! ## The allocator and its callers -/

/-- Memory and `kmem`, with the pages callers got from `kalloc` and have
not given back. -/
structure Sys where
  mem : Mem
  kmem : Kmem
  held : List Nat

/-- What a caller does next. -/
inductive Call
  | kalloc
  | kfree (pa : Nat)
  /-- A store of a word into memory. -/
  | write (a : Nat) (w : UInt64)

/-- `kfree` is applied only to a page `kalloc` gave and not yet taken back;
a caller stores into a page it holds, or into the kernel's image below
`kernel_end`. -/
def Call.Allowed (s : Sys) : Call → Prop
  | .kalloc => True
  | .kfree pa => pa ∈ s.held
  | .write a _ => (∃ p ∈ s.held, p ≤ a ∧ a < p + PGSIZE) ∨ a < s.kmem.kernelEnd

/-- One call; a panic of `kfree` is an `error`. -/
def step (s : Sys) : Call → Except String Sys
  | .kalloc =>
    let (mem, kmem, r) := kalloc s.mem s.kmem
    .ok ⟨mem, kmem, if r ≠ 0 then r :: s.held else s.held⟩
  | .kfree pa => (kfree s.mem s.kmem pa).map fun (mem, kmem) => ⟨mem, kmem, s.held.erase pa⟩
  | .write a w => .ok { s with mem := Function.update s.mem a w }

/-- The states allowed calls reach after `kinit` over memory `mem`. -/
inductive Reach (mem : Mem) (kernelEnd ramStart ramSize : Nat) : Sys → Prop
  | init {mem' : Mem} {kmem : Kmem} : kinit mem kernelEnd ramStart ramSize = .ok (mem', kmem) →
      Reach mem kernelEnd ramStart ramSize ⟨mem', kmem, []⟩
  | step {s s' : Sys} (c : Call) : Reach mem kernelEnd ramStart ramSize s → c.Allowed s →
      step s c = .ok s' → Reach mem kernelEnd ramStart ramSize s'

end Kalloc

end Mkros
