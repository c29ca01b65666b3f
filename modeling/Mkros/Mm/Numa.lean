import Mkros.Mm.Bootmem
import Mkros.Kernel.DeviceTreeSpec
/-!
# Which node a CPU allocates from

`bootmem_init` fills `bootmem_all_nodes` by the place of each region among
the tree's `/memory@` nodes, and `bootmem_alloc` and `bootmem_free` read it by
the CPU's `numa-node-id`. The two keys agree on a tree that lists its regions
in NUMA order, region `k` being NUMA node `k`: there every CPU of a node with
memory allocates from that node's own region (`nodeOfCpu_numa_local`). On a
tree that lists them otherwise, a CPU takes pages from another node's region
(`bootmem_alloc_takes_other_numa_region`), and a CPU of a node past the
regions finds a `NULL` entry (`nodeOfCpu_past_regions`).
-/

namespace Mkros

namespace Bootmem

open Fdt

section Init

variable {kernelEnd : Nat} {dt : DeviceTree} {mem : Nat → UInt64}

/-- **The run lemma of `bootmem_init`'s loop**: after `n` regions, entry `id`
below `n` holds the node built from region `id`, and the entries from `n` on
are `NULL`. -/
theorem initLoop_spec :
    ∀ {n : Nat} {allNodes : Nat → Option BootmemNode},
      initLoop kernelEnd dt mem n = .ok allNodes →
      (∀ id < n, ∃ node, initRegion kernelEnd (dt.memory id) mem = .ok node ∧
        allNodes id = some node) ∧ ∀ id, n ≤ id → allNodes id = none
  | 0, allNodes, h => by
    cases h
    exact ⟨fun id hid => absurd hid (Nat.not_lt_zero id), fun _ _ => rfl⟩
  | n + 1, allNodes, h => by
    cases hprev : initLoop kernelEnd dt mem n with
    | error e => simp only [initLoop, hprev] at h; cases h
    | ok prev =>
      cases hnode : initRegion kernelEnd (dt.memory n) mem with
      | error e => simp only [initLoop, hprev, hnode, Budget.ok_bind] at h; cases h
      | ok node =>
        simp only [initLoop, hprev, hnode, Budget.ok_bind] at h
        cases h
        obtain ⟨hbelow, hpast⟩ := initLoop_spec hprev
        refine ⟨fun id hid => ?_, fun id hid => ?_⟩
        · -- the entry just filled, or one the earlier passes filled
          by_cases hn : id = n
          · subst hn
            exact ⟨node, hnode, Function.update_self ..⟩
          · obtain ⟨node', hnode', hid'⟩ := hbelow id (by omega)
            exact ⟨node', hnode', by rw [Function.update_of_ne hn]; exact hid'⟩
        · rw [Function.update_of_ne (by omega)]
          exact hpast id (by omega)

/-- The node `bootmem_alloc` takes on `cpu` is the one built from the region
at the place the CPU's NUMA id names. -/
theorem nodeOfCpu_of_init {allNodes : Nat → Option BootmemNode} {cpu : Nat}
    (hinit : bootmemInit kernelEnd dt mem = .ok allNodes)
    (hmem : dt.memNum ≤ MAX_NUMA_NODE) (hcpu : (dt.cpus cpu).numaNodeId < dt.memNum) :
    ∃ node, initRegion kernelEnd (dt.memory (dt.cpus cpu).numaNodeId) mem = .ok node ∧
      nodeOfCpu dt allNodes cpu = some node := by
  obtain ⟨node, hnode, hentry⟩ := (initLoop_spec hinit).1 _ hcpu
  have hlt : (dt.cpus cpu).numaNodeId < MAX_NUMA_NODE := by omega
  exact ⟨node, hnode, by simp only [nodeOfCpu, if_pos hlt]; exact hentry⟩

/-- **NUMA-local allocation, where the tree lists its regions in NUMA order.**
On such a tree every CPU of a node with memory allocates and frees on the
node built from that node's own region. -/
theorem nodeOfCpu_numa_local {cpu : Nat} (hmem : dt.memNum ≤ MAX_NUMA_NODE)
    (hord : ∀ id < dt.memNum, (dt.memory id).numaNodeId = id)
    (hcpu : (dt.cpus cpu).numaNodeId < dt.memNum)
    (hinit : (bootmemInit kernelEnd dt mem).toOption.isSome) :
    ∃ id < dt.memNum, (dt.memory id).numaNodeId = (dt.cpus cpu).numaNodeId ∧
      (bootmemInit kernelEnd dt mem).toOption.bind (fun allNodes => nodeOfCpu dt allNodes cpu) =
        (initRegion kernelEnd (dt.memory id) mem).toOption := by
  cases hrun : bootmemInit kernelEnd dt mem with
  | error e => simp only [hrun, Except.toOption, Option.isSome_none, Bool.false_eq_true] at hinit
  | ok allNodes =>
    obtain ⟨node, hnode, hentry⟩ := nodeOfCpu_of_init hrun hmem hcpu
    -- the region at the CPU's NUMA id is the region of that NUMA node
    refine ⟨(dt.cpus cpu).numaNodeId, hcpu, hord _ hcpu, ?_⟩
    simp only [Except.toOption, Option.bind_some, hentry, hnode]

end Init

/-- The `README`'s machine, parsed. -/
def virtDt : DeviceTree :=
  match parseDeviceTree (virtTree "rv64imafdcsu") with
  | .ok dt => dt
  | .error _ => .zero

/-- On the `README`'s machine, which lists its regions in NUMA order, CPU 7 of
NUMA node 3 allocates from node 3's region. -/
theorem nodeOfCpu_numa_local_virt :
    virtDt.memNum ≤ MAX_NUMA_NODE ∧ (∀ id < virtDt.memNum, (virtDt.memory id).numaNodeId = id) ∧
      (virtDt.cpus 7).numaNodeId < virtDt.memNum ∧
      (bootmemInit 0x80241000 virtDt fun _ => 0).toOption.isSome ∧
      ∃ id < virtDt.memNum, (virtDt.memory id).numaNodeId = (virtDt.cpus 7).numaNodeId ∧
        (bootmemInit 0x80241000 virtDt fun _ => 0).toOption.bind
            (fun allNodes => nodeOfCpu virtDt allNodes 7) =
          (initRegion 0x80241000 (virtDt.memory id) fun _ => 0).toOption :=
  have hmem : virtDt.memNum ≤ MAX_NUMA_NODE := by decide +kernel
  have hord : ∀ id < virtDt.memNum, (virtDt.memory id).numaNodeId = id := by decide +kernel
  have hcpu : (virtDt.cpus 7).numaNodeId < virtDt.memNum := by decide +kernel
  have hinit : (bootmemInit 0x80241000 virtDt fun _ => 0).toOption.isSome := by decide +kernel
  ⟨hmem, hord, hcpu, hinit, nodeOfCpu_numa_local hmem hord hcpu hinit⟩

/-- Two regions listed NUMA node 1 first, and a CPU on each node. -/
def swappedTree : Node :=
  ⟨"", [("#address-cells", u32s [2]), ("#size-cells", u32s [2])],
    [⟨"memory@80800000", [("reg", u32s [0, 0x80800000, 0, 0x42000]), ("numa-node-id", u32s [1])], []⟩,
     ⟨"memory@80400000", [("reg", u32s [0, 0x80400000, 0, 0x42000]), ("numa-node-id", u32s [0])], []⟩,
     ⟨"cpus", [], [virtCpu "rv64imafdcsu" 0 0, virtCpu "rv64imafdcsu" 1 1]⟩]⟩

/-- On `swappedTree`, CPU 0 is on NUMA node 0, but `bootmem_alloc(1)` on it
returns `0x80800000`, the first page of `dt.memory[0]`: the region of NUMA
node 1. -/
theorem bootmem_alloc_takes_other_numa_region :
    (parseDeviceTree swappedTree).toOption.bind (fun dt =>
        (bootmemInit 0x80241000 dt fun _ => 0).toOption.bind fun allNodes =>
          (nodeOfCpu dt allNodes 0).map fun node =>
            ((dt.cpus 0).numaNodeId, (bootmemAlloc node 1).2, dt.memory 0)) =
      some (0, 0x80800000, ⟨1, 0x80800000, 0x42000⟩) := by
  decide +kernel

end Bootmem

end Mkros
