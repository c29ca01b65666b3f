import Mkros.Lib.Fdt
import Mathlib
/-!
# The device tree: `device_tree.h` and `device_tree.c`

`parse_device_tree` walks the blob's root node and fills the global `dt`:
the `/cpus/cpu@` nodes, the clusters of `/cpus/cpu-map`, the `/memory@`
nodes and the `/distance-map` matrix, each into a fixed-size table with a
counter. The blob is the tree `Fdt.Node` of its root; the header check and the
root lookup are libfdt's and taken to succeed.

None of the four parsers checks its counter against its table, the strings
are copied by `strlen` into 16-byte fields, and some values are read without
a look at their length. The C abstract machine leaves each of these accesses
undefined once it leaves its object; the model stops there with a `Fault`
that names the table and index, or the property, so that a parse that
returns `ok` made no such access. So does `get_prop_of_node` where the
property is missing, and `parse_memory_node` after it: their `pr_err` hands
the `int` offset `node` to a `%s`, which `printk` reads as a string's
address. A parser's `return -1` is its return code:
no caller acts on it but `parse_cpu_map_node`'s loop, which it ends.
-/

namespace Mkros

open Fdt

/-- `MAX_CPU`. -/
def MAX_CPU : Nat := 32

/-- `MAX_MEM`. -/
def MAX_MEM : Nat := 8

/-- `MAX_NUMA_NODE`. -/
def MAX_NUMA_NODE : Nat := MAX_MEM

/-- `MAX_CORES_PER_NODE`: the cores of a cluster, and also the length of
`dt.nodes`. -/
def MAX_CORES_PER_NODE : Nat := 4

/-- `MAX_INFO_STR_LEN`. -/
def MAX_INFO_STR_LEN : Nat := 16

/-- `MAX_DISTANCE_MAP_ENTRY`. -/
def MAX_DISTANCE_MAP_ENTRY : Nat := 64

/-- `node_info`: one cluster of the `cpu-map`. -/
structure NodeInfo where
  coreNum : Nat
  cores : Nat → Nat

/-- `cpu_info`. Each string is the `MAX_INFO_STR_LEN` bytes of its field. -/
structure CpuInfo where
  phandle : Nat
  cpuId : Nat
  numaNodeId : Nat
  status : List UInt8
  riscvIsa : List UInt8
  mmuType : List UInt8

/-- `memory_info`: one `/memory@` node. -/
structure MemoryInfo where
  numaNodeId : Nat
  baseAddress : Nat
  ramSize : Nat
  deriving DecidableEq, Repr

/-- `distance`: one entry of the distance matrix. -/
structure Distance where
  src : Nat
  dst : Nat
  value : Nat
  deriving DecidableEq, Repr

/-- `device_tree`. -/
structure DeviceTree where
  cpuNum : Nat
  cpus : Nat → CpuInfo
  memNum : Nat
  memory : Nat → MemoryInfo
  nodeNum : Nat
  nodes : Nat → NodeInfo
  distanceEntryNum : Nat
  distanceMatrix : Nat → Distance

/-- A string field of zero bytes. -/
def zeroStr : List UInt8 := List.replicate MAX_INFO_STR_LEN 0

/-- A zeroed `cpu_info`. -/
def CpuInfo.zero : CpuInfo := ⟨0, 0, 0, zeroStr, zeroStr, zeroStr⟩

/-- A zeroed `node_info`. -/
def NodeInfo.zero : NodeInfo := ⟨0, fun _ => 0⟩

/-- `dt` after `memset(&dt, 0, sizeof(device_tree))`. -/
def DeviceTree.zero : DeviceTree :=
  ⟨0, fun _ => .zero, 0, fun _ => ⟨0, 0, 0⟩, 0, fun _ => .zero, 0, fun _ => ⟨0, 0, 0⟩⟩

/-! ## Undefined accesses -/

/-- The arrays of `device_tree`. -/
inductive Table where
  | cpus
  | memory
  | nodes
  | cores
  | distanceMatrix
  | status
  | riscvIsa
  | mmuType
  deriving DecidableEq, Repr

/-- Where the parse leaves what C defines. -/
inductive Fault where
  /-- An access to `table[index]`, past the array. -/
  | outside (table : Table) (index : Nat)
  /-- A read past the end of a property's value. -/
  | readPast (prop : String)
  /-- `strlen` of the `NULL` that `fdt_getprop` returns for a missing property. -/
  | nullDeref (prop : String)
  /-- `pr_err`'s `%s` given the `int` offset of the node that lacks `prop`. -/
  | strArg (prop : String)
  deriving DecidableEq, Repr

/-- `a[i]` of an array of `bound` entries. -/
def entry {α : Type} (table : Table) (bound : Nat) (a : Nat → α) (i : Nat) : Except Fault α :=
  if i < bound then .ok (a i) else .error (.outside table i)

/-- `a[i] = f(a[i])` on an array of `bound` entries. -/
def updateAt {α : Type} (table : Table) (bound : Nat) (a : Nat → α) (i : Nat) (f : α → α) :
    Except Fault (Nat → α) := do
  let x ← entry table bound a i
  pure (Function.update a i (f x))

/-- `fdt32_to_cpu(p[i])` of the value of `prop`. -/
def readCell (prop : String) (bs : List UInt8) (i : Nat) : Except Fault Nat :=
  match cell bs i with
  | none => .error (.readPast prop)
  | some v => .ok v

/-- `memcpy(field, value, strlen(value))` into a `MAX_INFO_STR_LEN` field. -/
def copyInfoStr (table : Table) (prop : String) (value : Option (List UInt8))
    (field : List UInt8) : Except Fault (List UInt8) :=
  match value with
  | none => .error (.nullDeref prop)
  | some s =>
    match strlen s with
    | none => .error (.readPast prop)
    | some n =>
      if n ≤ MAX_INFO_STR_LEN then .ok (s.take n ++ field.drop n)
      else .error (.outside table MAX_INFO_STR_LEN)

namespace DeviceTree

/-- A write through `&dt.cpus[i]`. -/
def setCpu (dt : DeviceTree) (i : Nat) (f : CpuInfo → CpuInfo) : Except Fault DeviceTree := do
  let cpus ← updateAt .cpus MAX_CPU dt.cpus i f
  pure { dt with cpus := cpus }

/-- A write through `&dt.memory[i]`. -/
def setMemory (dt : DeviceTree) (i : Nat) (f : MemoryInfo → MemoryInfo) :
    Except Fault DeviceTree := do
  let memory ← updateAt .memory MAX_MEM dt.memory i f
  pure { dt with memory := memory }

/-- A write through `&dt.distance_matrix[i]`. -/
def setDistance (dt : DeviceTree) (i : Nat) (f : Distance → Distance) :
    Except Fault DeviceTree := do
  let distanceMatrix ← updateAt .distanceMatrix MAX_DISTANCE_MAP_ENTRY dt.distanceMatrix i f
  pure { dt with distanceMatrix := distanceMatrix }

/-- `node->cores[node->core_num++] = v` through `node = &dt.nodes[i]`. -/
def pushCore (dt : DeviceTree) (i v : Nat) : Except Fault DeviceTree := do
  let n ← entry .nodes MAX_CORES_PER_NODE dt.nodes i
  let cores ← updateAt .cores MAX_CORES_PER_NODE n.cores n.coreNum fun _ => v
  let nodes ← updateAt .nodes MAX_CORES_PER_NODE dt.nodes i fun _ => ⟨n.coreNum + 1, cores⟩
  pure { dt with nodes := nodes }

end DeviceTree

/-! ## The parsers -/

/-- `get_prop_of_node`: the code it returns, and the value it stores to
`prop_value`; the switch's default case stores nothing. A missing property
is reported by `pr_err("failed to get %s props of %s node", prop, node)`
before the `return -1`. -/
def getPropOfNode (node : Node) (prop : String) : Except Fault (Int × Option Nat) :=
  match node.getprop prop with
  | none => .error (.strArg prop)
  | some v => .ok (0, if v.length = 1 ∨ v.length = 2 ∨ v.length = 4 then some (beNat v) else none)

/-- `parse_cpu_node`: the slot `dt.cpus[dt.cpu_num++]` is taken before the
node is read. -/
def parseCpuNode (dt : DeviceTree) (node : Node) : Except Fault (DeviceTree × Int) :=
  let i := dt.cpuNum
  let dt := { dt with cpuNum := i + 1 }
  match node.getprop "reg" with
  | none => pure (dt, -1)
  | some reg => do
    let cpuId ← readCell "reg" reg 0
    let dt ← dt.setCpu i fun c => { c with cpuId := cpuId }
    let dt ← dt.setCpu i fun c => { c with phandle := getPhandle node }
    let (err, numa) ← getPropOfNode node "numa-node-id"
    let dt ← match numa with
      | some v => dt.setCpu i fun c => { c with numaNodeId := v }
      | none => pure dt
    if err < 0 then pure (dt, -1)
    else
      let status ← copyInfoStr .status "status" (node.getprop "status") (dt.cpus i).status
      let dt ← dt.setCpu i fun c => { c with status := status }
      let isa ← copyInfoStr .riscvIsa "riscv,isa" (node.getprop "riscv,isa") (dt.cpus i).riscvIsa
      let dt ← dt.setCpu i fun c => { c with riscvIsa := isa }
      let mmu ← copyInfoStr .mmuType "mmu-type" (node.getprop "mmu-type") (dt.cpus i).mmuType
      let dt ← dt.setCpu i fun c => { c with mmuType := mmu }
      pure (dt, 0)

/-- The inner loop of `parse_cpu_map_node`, over the cores of the cluster
`dt.nodes[i]`. A core without a `cpu` property returns `-1` from the whole
function. -/
def parseCores (i : Nat) : DeviceTree → List Node → Except Fault (DeviceTree × Int)
  | dt, [] => pure (dt, 0)
  | dt, core :: cores =>
    match core.getprop "cpu" with
    | none => pure (dt, -1)
    | some cpu => do
      let v ← readCell "cpu" cpu 0
      let dt ← dt.pushCore i v
      parseCores i dt cores

/-- The outer loop of `parse_cpu_map_node`: each cluster takes the slot
`dt.nodes[dt.node_num++]`. -/
def parseClusters : DeviceTree → List Node → Except Fault (DeviceTree × Int)
  | dt, [] => pure (dt, 0)
  | dt, cluster :: clusters => do
    let i := dt.nodeNum
    let (dt, err) ← parseCores i { dt with nodeNum := i + 1 } cluster.children
    if err < 0 then pure (dt, err) else parseClusters dt clusters

/-- `parse_cpu_map_node`. -/
def parseCpuMapNode (dt : DeviceTree) (node : Node) : Except Fault (DeviceTree × Int) :=
  parseClusters dt node.children

/-- The loop body of `parse_cpus_node`. -/
def parseCpusChild (dt : DeviceTree) (child : Node) : Except Fault DeviceTree :=
  if child.name.startsWith "cpu@" then Prod.fst <$> parseCpuNode dt child
  else if child.name = "cpu-map" then Prod.fst <$> parseCpuMapNode dt child
  else pure dt

/-- `parse_cpus_node`, which always returns `0`. -/
def parseCpusNode (dt : DeviceTree) (node : Node) : Except Fault DeviceTree :=
  node.children.foldlM parseCpusChild dt

/-- The two loops of `parse_memory_node`: `acc = (acc << 32) | reg[k]` for
`n` cells from cell `k`. -/
def readCells (reg : List UInt8) : UInt64 → Nat → Nat → Except Fault UInt64
  | acc, _, 0 => pure acc
  | acc, k, n + 1 => do
    let c ← readCell "reg" reg k
    readCells reg ((acc <<< 32) ||| c.toUInt64) (k + 1) n

/-- `parse_memory_node`, with the `address_cells` and `size_cells` the root
gave: `uint32_t`s, so their sum wraps. -/
def parseMemoryNode (addressCells sizeCells : Nat) (dt : DeviceTree) (node : Node) :
    Except Fault (DeviceTree × Int) :=
  let i := dt.memNum
  let dt := { dt with memNum := i + 1 }
  match node.getprop "reg" with
  | none => pure (dt, -1)
  | some reg => do
    let (err, numa) ← getPropOfNode node "numa-node-id"
    let dt ← match numa with
      | some v => dt.setMemory i fun m => { m with numaNodeId := v }
      | none => pure dt
    let cells := (addressCells + sizeCells) % 2 ^ 32
    -- `pr_err("failed to get %s prop of node %s", PROP_NUMA_NODE_ID, node)`
    if err < 0 then .error (.strArg "numa-node-id")
    else if 4 * cells ≤ reg.length then
      let base ← readCells reg 0 0 addressCells
      -- `for (i = address_cells; i < address_cells + size_cells; i++)`
      let size ← readCells reg 0 addressCells (cells - addressCells)
      let dt ← dt.setMemory i fun m => { m with baseAddress := base.toNat }
      let dt ← dt.setMemory i fun m => { m with ramSize := size.toNat }
      pure (dt, 0)
    else pure (dt, 0)

/-- The loop of `parse_distance_map_node`: `n` triples from cell `i`, each
into `dt.distance_matrix[dt.distance_entry_num++]`. -/
def parseDistances (matrix : List UInt8) : DeviceTree → Nat → Nat → Except Fault DeviceTree
  | dt, _, 0 => pure dt
  | dt, i, n + 1 => do
    let j := dt.distanceEntryNum
    let dt := { dt with distanceEntryNum := j + 1 }
    let src ← readCell "distance-matrix" matrix i
    let dt ← dt.setDistance j fun d => { d with src := src }
    let dst ← readCell "distance-matrix" matrix (i + 1)
    let dt ← dt.setDistance j fun d => { d with dst := dst }
    let value ← readCell "distance-matrix" matrix (i + 2)
    let dt ← dt.setDistance j fun d => { d with value := value }
    parseDistances matrix dt (i + 3) n

/-- `parse_distance_map_node`: `for (i = 0; i < len / 4; i += 3)` makes
`⌈(len / 4) / 3⌉` passes. -/
def parseDistanceMapNode (dt : DeviceTree) (node : Node) : Except Fault (DeviceTree × Int) :=
  match node.getprop "distance-matrix" with
  | none => pure (dt, -1)
  | some m => do
    let dt ← parseDistances m dt 0 ((m.length / 4 + 2) / 3)
    pure (dt, 0)

/-- The loop body of `parse_device_tree` over the root's subnodes. The
`soc` node's parser does nothing, and other nodes are ignored. -/
def parseRootChild (addressCells sizeCells : Nat) (dt : DeviceTree) (child : Node) :
    Except Fault DeviceTree :=
  if child.name.startsWith "memory@" then Prod.fst <$> parseMemoryNode addressCells sizeCells dt child
  else if child.name = "cpus" then parseCpusNode dt child
  else if child.name = "distance-map" then Prod.fst <$> parseDistanceMapNode dt child
  else pure dt

/-- `(uint32_t)` of an `int`. -/
def toUInt32 (v : Int) : Nat := (v % 2 ^ 32).toNat

/-- `parse_device_tree`: the tables after the walk of the root's subnodes. -/
def parseDeviceTree (root : Node) : Except Fault DeviceTree :=
  root.children.foldlM (parseRootChild (toUInt32 (addressCells root)) (toUInt32 (sizeCells root)))
    DeviceTree.zero

/-! ## The RAM `kinit` reads -/

/-- `ram_start`: the base of the first `/memory@` region. -/
def ramStart (dt : DeviceTree) : Nat := (dt.memory 0).baseAddress

/-- `ram_size`: the sizes of the `mem_num` regions, summed in a `uint64_t`. -/
def ramSize (dt : DeviceTree) : Nat :=
  (List.range dt.memNum).foldl (fun acc i => (acc + (dt.memory i).ramSize) % 2 ^ 64) 0

end Mkros
