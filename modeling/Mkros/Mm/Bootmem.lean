import Mkros.Lib.Bitmap
import Mkros.Kernel.DeviceTree
import Mkros.Kernel.Riscv
/-!
# The boot memory allocator — the model

`bootmem.c` gives each memory region a `bootmem_node`: the region's pages are
numbered from `start_pfn`, one bit per page in a bitmap of `uint64_t` words,
page `p` at bit `63 - p % 64` of word `p / 64` (`Bitmap.get`). The node itself
sits in the region's last page and its bitmap in the pages just below.
`bootmem_alloc` looks for `npages` free pages from `next_offset` on, first
to the end of the region and, once (`retry`), from its first page;
`bootmem_free` clears the pages' bits.

The masks are the source's. `1UL << (63 - col)` is `Bitmap.colBit col`, but
the test in `bootmem_alloc`, the clear in `bootmem_free` and the head mask in
`bootmem_init` shift the `int` constant `1`. C leaves such a shift undefined
from a count of 31 on; the RV64 target shifts an `int` with `sllw`, which takes
the count modulo 32 and sign-extends the 32-bit result, and widening the `int`
to `uint64_t` for `&` with a word sign-extends it. The model computes them so:
as `Int32` shifts, whose count Lean also takes modulo 32, widened with
`toInt64.toUInt64`.

Addresses and page numbers are `Nat`: nothing here comes near `2 ^ 32` pages.
-/

namespace Mkros

namespace Bootmem

open Bitmap DeviceTree Riscv

/-- `do_div(num, base)`: the quotient, and the remainder it returns. -/
def doDiv (num base : Nat) : Nat × Nat := (num / base, num % base)

/-! ## The `int` masks -/

/-- `1 << (63 - col)`, an `int`. -/
def intBit (col : Nat) : Int32 := 1 <<< Int32.ofNat (63 - col)

/-- The test mask of `bootmem_alloc`: `1 << (63 - col)` widened to `uint64_t`. -/
def testMask (col : Nat) : UInt64 := (intBit col).toInt64.toUInt64

/-- The mask of `bootmem_free`: `~(1 << (63 - col))` widened to `uint64_t`. -/
def clearMask (col : Nat) : UInt64 := (~~~intBit col).toInt64.toUInt64

/-- `(1 << rest) - 1` of `bootmem_init`, widened to `uint64_t`. -/
def headMask (rest : Nat) : UInt64 := ((1 <<< Int32.ofNat rest) - 1 : Int32).toInt64.toUInt64

/-! ## The node and the two calls -/

/-- `bootmem_node`, less its list and lock. -/
structure BootmemNode where
  startPfn : Nat
  npages : Nat
  nextOffset : Nat
  bitmap : Nat → UInt64

/-- The scan `while (start < end)` of `bootmem_alloc` over `len` pages from
`start`, with the test mask `mask`: the first page the test finds allocated. -/
def firstUsed (mask : Nat → UInt64) (bitmap : Nat → UInt64) (start : Nat) : Nat → Option Nat
  | 0 => none
  | len + 1 =>
    let (row, col) := doDiv start 64
    if bitmap row &&& mask col ≠ 0 then some start else firstUsed mask bitmap (start + 1) len

/-- How the `repeat:` loop of `bootmem_alloc` ends for one value of `retry`. -/
inductive Scan where
  /-- The pages from `start` passed the test. -/
  | found (start : Nat)
  /-- `next_offset + npages < node->npages` failed with `next_offset = next`. -/
  | exhausted (next : Nat)
  deriving DecidableEq, Repr

/-- The `repeat:` loop for one value of `retry`, from `next_offset = next`:
a page the test finds allocated restarts it just after that page. Each restart
moves `next` up by one at least, so `total + 1` rounds of fuel always suffice
(`scanFrom_fuel`). -/
def scanFrom (mask : Nat → UInt64) (bitmap : Nat → UInt64) (total npages : Nat) :
    Nat → Nat → Scan
  | 0, next => .exhausted next
  | fuel + 1, next =>
    if next + npages < total then
      match firstUsed mask bitmap next npages with
      | some start => scanFrom mask bitmap total npages fuel (start + 1)
      | none => .found next
    else .exhausted next

/-- The second loop of `bootmem_alloc`: `bitmap[row] |= 1UL << (63 - col)` for
`len` pages from `start`. -/
def markPages (bitmap : Nat → UInt64) (start : Nat) : Nat → Nat → UInt64
  | 0 => bitmap
  | len + 1 =>
    let (row, col) := doDiv start 64
    markPages (orWord bitmap row (colBit col)) (start + 1) len

/-- The pages from `start` handed out: marked, `next_offset` past them, and
their address returned. -/
def takePages (node : BootmemNode) (start npages : Nat) : BootmemNode × Nat :=
  ({ node with nextOffset := start + npages, bitmap := markPages node.bitmap start npages },
    (node.startPfn + start) <<< PGSHIFT)

/-- Both passes of `repeat:`: from `next_offset`, and on exhaustion, as
`retry` allows once, from `next_offset = 0`. -/
def scanTwice (mask : Nat → UInt64) (node : BootmemNode) (npages : Nat) : Scan :=
  match scanFrom mask node.bitmap node.npages npages (node.npages + 1) node.nextOffset with
  | .found start => .found start
  | .exhausted _ => scanFrom mask node.bitmap node.npages npages (node.npages + 1) 0

/-- `bootmem_alloc` with the test mask `mask`: the node after the call and the
address returned, `0` for none. -/
def allocWith (mask : Nat → UInt64) (node : BootmemNode) (npages : Nat) : BootmemNode × Nat :=
  if npages ≥ node.npages then (node, 0)
  else
    match scanTwice mask node npages with
    | .found start => takePages node start npages
    | .exhausted next => ({ node with nextOffset := next }, 0)

/-- `bootmem_alloc`. -/
def bootmemAlloc (node : BootmemNode) (npages : Nat) : BootmemNode × Nat :=
  allocWith testMask node npages

/-- The loop of `bootmem_free`: `bitmap[row] &= mask(col)` for `n` pages from
frame `pfn`. -/
def clearPages (mask : Nat → UInt64) (bitmap : Nat → UInt64) (startPfn pfn : Nat) :
    Nat → Nat → UInt64
  | 0 => bitmap
  | n + 1 =>
    let (row, col) := doDiv (pfn - startPfn) 64
    clearPages mask (andWord bitmap row (mask col)) startPfn (pfn + 1) n

/-- `bootmem_free` with the clear mask `mask`. A panic is an `error` with its
message. -/
def freeWith (mask : Nat → UInt64) (node : BootmemNode) (addr npages : Nat) :
    Except String BootmemNode :=
  if addr &&& (PGSIZE - 1) ≠ 0 then .error "addr of bootmem_free should be aligned to PGSIZE(4k)."
  else .ok { node with bitmap := clearPages mask node.bitmap node.startPfn (addr >>> PGSHIFT) npages }

/-- `bootmem_free`. -/
def bootmemFree (node : BootmemNode) (addr npages : Nat) : Except String BootmemNode :=
  freeWith clearMask node addr npages

/-! ## `bootmem_init`, for one region -/

/-- `start_addr`: the region less what the kernel image occupies. -/
def startAddr (kernelEnd : Nat) (mem : MemoryInfo) : Nat := max mem.baseAddress kernelEnd

/-- Where the node goes: `end_addr - PGSIZE`. -/
def nodeAddr (kernelEnd : Nat) (mem : MemoryInfo) : Nat :=
  startAddr kernelEnd mem + mem.ramSize - PGSIZE

/-- `bitmap_size`, in bytes: whole words. -/
def bitmapSize (npages : Nat) : Nat := (npages + 63) / 64 * 8

/-- `bitmap_npages`. -/
def bitmapNpages (npages : Nat) : Nat := (bitmapSize npages + PGSIZE - 1) >>> PGSHIFT

/-- Where the bitmap goes: the pages just below the node. -/
def bitmapAddr (kernelEnd : Nat) (mem : MemoryInfo) : Nat :=
  nodeAddr kernelEnd mem - (bitmapNpages (mem.ramSize >>> PGSHIFT) <<< PGSHIFT)

/-- Byte `j` of a word set to `c`, the least significant byte first. -/
def setByte (w : UInt64) (j : Nat) (c : UInt8) : UInt64 :=
  (w &&& ~~~((0xFF : UInt64) <<< (8 * j).toUInt64)) ||| (c.toUInt64 <<< (8 * j).toUInt64)

/-- `memset` of `n` bytes to `c` from byte `a` of the bitmap: byte `a` is
byte `a % 8` of word `a / 8` (RISC-V is little-endian). -/
def memsetBytes (bitmap : Nat → UInt64) (a : Nat) (c : UInt8) : Nat → Nat → UInt64
  | 0 => bitmap
  | n + 1 =>
    memsetBytes (Function.update bitmap (a / 8) (setByte (bitmap (a / 8)) (a % 8) c)) (a + 1) c n

/-- `bootmem_init`'s loop body for one region, over the words `ram` the bitmap's
memory held before. The `pr_err` and `return -1` is an `error`. -/
def initNode (kernelEnd : Nat) (mem : MemoryInfo) (ram : Nat → UInt64) :
    Except String BootmemNode :=
  let npages := mem.ramSize >>> PGSHIFT
  let startPfn := startAddr kernelEnd mem >>> PGSHIFT
  if bitmapNpages npages + 1 > npages then .error "not enough memory space for bootmem bitmap."
  else
    -- `memset(node->bitmap, 0, bitmap_size)`
    let bitmap := fun w => if w < bitmapSize npages / 8 then 0 else ram w
    -- the pages of the bitmap and the node: the rest of the bitmap's first word
    let off := (bitmapAddr kernelEnd mem >>> PGSHIFT) - startPfn
    let rest := 64 - (off &&& 63)
    let bitmap := orWord bitmap (off >>> 6) (headMask rest)
    let off := off + rest
    -- and the words after it, by `memset(…, 1, (npages - off) / 8)`
    let bitmap := if off < npages then memsetBytes bitmap ((off >>> 6) * 8) 1 ((npages - off) / 8)
      else bitmap
    .ok ⟨startPfn, npages, 0, bitmap⟩

/-- The node `bootmem_init` builds for `region`, over physical memory `mem`
(the word at each 8-aligned address), where the bitmap goes. -/
def initRegion (kernelEnd : Nat) (region : MemoryInfo) (mem : Nat → UInt64) :
    Except String BootmemNode :=
  initNode kernelEnd region fun w => mem (bitmapAddr kernelEnd region + 8 * w)

/-- The loop of `bootmem_init` over the first `n` regions of a parsed tree:
`bootmem_all_nodes[id]` is the node built from `dt.memory[id]`, and an entry no
region filled is `NULL`. The error of a region stops the loop. -/
def initLoop (kernelEnd : Nat) (dt : DeviceTree) (mem : Nat → UInt64) :
    Nat → Except String (Nat → Option BootmemNode)
  | 0 => .ok fun _ => none
  | id + 1 => do
    let allNodes ← initLoop kernelEnd dt mem id
    let node ← initRegion kernelEnd (dt.memory id) mem
    pure (Function.update allNodes id (some node))

/-- `bootmem_init`: `bootmem_all_nodes`, indexed by the region's place among
the tree's `/memory@` nodes. -/
def bootmemInit (kernelEnd : Nat) (dt : DeviceTree) (mem : Nat → UInt64) :
    Except String (Nat → Option BootmemNode) :=
  initLoop kernelEnd dt mem dt.memNum

/-- The node `bootmem_alloc` and `bootmem_free` take on CPU `cpu`:
`bootmem_all_nodes[cpu_of(cpu)->numa_node_id]`, indexed by the CPU's NUMA
node. `none` is a `NULL` entry, or an index past the table. -/
def nodeOfCpu (dt : DeviceTree) (allNodes : Nat → Option BootmemNode) (cpu : Nat) :
    Option BootmemNode :=
  let id := (dt.cpus cpu).numaNodeId
  if id < MAX_NUMA_NODE then allNodes id else none

/-! ## Runs -/

/-- A call on the node. -/
inductive Op where
  | alloc (npages : Nat)
  | free (addr npages : Nat)
  deriving DecidableEq, Repr

/-- The calls made in turn on one node with the masks `mask` and `clear`, and
the address each `bootmem_alloc` returned. A panic stops the run. -/
def runWith (mask clear : Nat → UInt64) : BootmemNode → List Op → Except String (BootmemNode × List Nat)
  | node, [] => .ok (node, [])
  | node, .alloc npages :: ops =>
    let (node', addr) := allocWith mask node npages
    (runWith mask clear node' ops).map fun (last, addrs) => (last, addr :: addrs)
  | node, .free addr npages :: ops => do
    let node' ← freeWith clear node addr npages
    runWith mask clear node' ops

/-- `bootmem_alloc` and `bootmem_free` called in turn on one node. -/
def runOps (node : BootmemNode) (ops : List Op) : Except String (BootmemNode × List Nat) :=
  runWith testMask clearMask node ops

end Bootmem

end Mkros
