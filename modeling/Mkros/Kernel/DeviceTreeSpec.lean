import Mkros.Kernel.DeviceTree
import Mkros.Lib.Budget
/-!
# The device tree parser stays inside its tables

`parse_device_tree` checks none of its counters, so whether it stays inside
`dt` is a matter of the blob alone. This file says what a blob must hold for
it to (`WellSized`): room in each table for every node that takes a slot,
clusters of at most `MAX_CORES_PER_NODE` cores, C strings shorter than their
fields, cells where the parser reads one, and distance triples that are
whole. From such a blob the parse returns `ok`: it made no access outside an
array, no read past a value and no `strlen` of a missing property, and its
tables are `Bounded` (`parseDeviceTree_inside`).

The proof is the parse's own structure: a step lemma for each parser, from a
state with the invariant `Inv` and room (`Room`) for what the node takes
(`Usage`), and the run lemmas over the loops, the two `foldlM`s by
`Budget.foldlM_ok`.
-/

namespace Mkros

open Fdt

/-! ## Accesses inside their arrays -/

section Access

variable {α : Type} {t : Table} {bound i : Nat} {a : Nat → α}

theorem entry_of_lt (h : i < bound) : entry t bound a i = pure (a i) := by
  simp only [entry, if_pos h]
  rfl

theorem updateAt_of_lt (f : α → α) (h : i < bound) :
    updateAt t bound a i f = pure (Function.update a i (f (a i))) := by
  simp only [updateAt, entry_of_lt h, pure_bind]

theorem readCell_of_le {p : String} {bs : List UInt8} (h : 4 * i + 4 ≤ bs.length) :
    readCell p bs i = pure (beNat ((bs.drop (4 * i)).take 4)) := by
  simp only [readCell, cell_of_le h]
  rfl

end Access

namespace DeviceTree

variable {dt : DeviceTree} {i : Nat}

theorem setCpu_of_lt (f : CpuInfo → CpuInfo) (h : i < MAX_CPU) :
    dt.setCpu i f = pure { dt with cpus := Function.update dt.cpus i (f (dt.cpus i)) } := by
  simp only [setCpu, updateAt_of_lt f h, pure_bind]

theorem setMemory_of_lt (f : MemoryInfo → MemoryInfo) (h : i < MAX_MEM) :
    dt.setMemory i f = pure { dt with memory := Function.update dt.memory i (f (dt.memory i)) } := by
  simp only [setMemory, updateAt_of_lt f h, pure_bind]

theorem setDistance_of_lt (f : Distance → Distance) (h : i < MAX_DISTANCE_MAP_ENTRY) :
    dt.setDistance i f =
      pure { dt with distanceMatrix := Function.update dt.distanceMatrix i (f (dt.distanceMatrix i)) } := by
  simp only [setDistance, updateAt_of_lt f h, pure_bind]

theorem pushCore_of_lt {v : Nat} (hi : i < MAX_CORES_PER_NODE)
    (hc : (dt.nodes i).coreNum < MAX_CORES_PER_NODE) :
    dt.pushCore i v = pure { dt with nodes := (Function.update dt.nodes i
      ⟨(dt.nodes i).coreNum + 1, Function.update (dt.nodes i).cores (dt.nodes i).coreNum v⟩) } := by
  simp only [pushCore, entry_of_lt hi, updateAt_of_lt _ hc, updateAt_of_lt _ hi, pure_bind]

end DeviceTree

/-! ## Strings -/

/-- A string field that holds a C string: `MAX_INFO_STR_LEN` bytes, a NUL
among them. -/
def InfoStrOk (s : List UInt8) : Prop := s.length = MAX_INFO_STR_LEN ∧ 0 ∈ s

/-- A property whose value starts with a C string shorter than a field. -/
def FitsInfoStr (v : Option (List UInt8)) : Prop := ∃ n ∈ v.bind strlen, n < MAX_INFO_STR_LEN

instance (v : Option (List UInt8)) : Decidable (FitsInfoStr v) :=
  inferInstanceAs (Decidable (∃ n ∈ v.bind strlen, n < MAX_INFO_STR_LEN))

theorem infoStrOk_zeroStr : InfoStrOk zeroStr :=
  ⟨List.length_replicate, List.mem_replicate.mpr ⟨by decide, rfl⟩⟩

/-- Copied into a zeroed field, a string that fits stays NUL-terminated. -/
theorem copyInfoStr_zeroStr {t : Table} {p : String} {v : Option (List UInt8)}
    (h : FitsInfoStr v) : ∃ s, copyInfoStr t p v zeroStr = pure s ∧ InfoStrOk s := by
  obtain ⟨n, hn, hlt⟩ := h
  cases v with
  | none => cases hn
  | some s =>
    have hs : strlen s = some n := hn
    have hn_lt : n < s.length := strlen_lt hs
    have hle : n ≤ MAX_INFO_STR_LEN := Nat.le_of_lt hlt
    refine ⟨s.take n ++ zeroStr.drop n, by simp only [copyInfoStr, hs, if_pos hle]; rfl, ?_, ?_⟩
    · simp only [zeroStr, List.length_append, List.length_take, List.length_drop,
        List.length_replicate]
      simp only [MAX_INFO_STR_LEN] at hlt ⊢
      omega
    · -- the zeros past the copied bytes: at least one is left
      apply List.mem_append_right
      rw [zeroStr, List.drop_replicate, List.mem_replicate]
      exact ⟨by simp only [MAX_INFO_STR_LEN] at hlt ⊢; omega, rfl⟩

/-! ## The invariant -/

/-- The three strings of a `cpu_info` hold C strings. -/
def CpuInfo.StrsOk (c : CpuInfo) : Prop :=
  InfoStrOk c.status ∧ InfoStrOk c.riscvIsa ∧ InfoStrOk c.mmuType

/-- The strings of a slot no parser has written. -/
def CpuInfo.Blank (c : CpuInfo) : Prop :=
  c.status = zeroStr ∧ c.riscvIsa = zeroStr ∧ c.mmuType = zeroStr

theorem CpuInfo.Blank.strsOk {c : CpuInfo} (h : c.Blank) : c.StrsOk := by
  obtain ⟨h1, h2, h3⟩ := h
  rw [CpuInfo.StrsOk, h1, h2, h3]
  exact ⟨infoStrOk_zeroStr, infoStrOk_zeroStr, infoStrOk_zeroStr⟩

namespace DeviceTree

/-- What the parse keeps of the tables: every string field holds a C string,
the slots past the counters are untouched, and no cluster has more cores than
its array. -/
structure Inv (dt : DeviceTree) : Prop where
  strs : ∀ i, (dt.cpus i).StrsOk
  blank : ∀ i, dt.cpuNum ≤ i → (dt.cpus i).Blank
  coreNum_le : ∀ i, (dt.nodes i).coreNum ≤ MAX_CORES_PER_NODE
  fresh : ∀ i, dt.nodeNum ≤ i → (dt.nodes i).coreNum = 0

theorem inv_zero : Inv DeviceTree.zero where
  strs _ := CpuInfo.Blank.strsOk ⟨rfl, rfl, rfl⟩
  blank _ _ := ⟨rfl, rfl, rfl⟩
  coreNum_le _ := Nat.zero_le _
  fresh _ _ := rfl

variable {dt : DeviceTree}

/-- The CPU slot at the counter, taken and filled with strings that hold C
strings. -/
theorem Inv.takeCpu (h : Inv dt) {c : CpuInfo} (hc : c.StrsOk) :
    Inv { dt with cpuNum := dt.cpuNum + 1, cpus := Function.update dt.cpus dt.cpuNum c } where
  strs i := by
    by_cases hi : i = dt.cpuNum
    · subst hi
      simpa only [Function.update_self] using hc
    · simpa only [Function.update_of_ne hi] using h.strs i
  blank i hi := by
    have hi' : dt.cpuNum + 1 ≤ i := hi
    simpa only [Function.update_of_ne (show i ≠ dt.cpuNum by omega)] using h.blank i (by omega)
  coreNum_le := h.coreNum_le
  fresh := h.fresh

/-- The invariant reads only the CPU and cluster tables and their counters. -/
theorem Inv.congr (h : dt.Inv) {dt' : DeviceTree} (hc : dt'.cpuNum = dt.cpuNum)
    (hcpus : dt'.cpus = dt.cpus) (hn : dt'.nodeNum = dt.nodeNum) (hnodes : dt'.nodes = dt.nodes) :
    dt'.Inv where
  strs := by rw [hcpus]; exact h.strs
  blank := by rw [hc, hcpus]; exact h.blank
  coreNum_le := by rw [hnodes]; exact h.coreNum_le
  fresh := by rw [hn, hnodes]; exact h.fresh

end DeviceTree

/-! ## What a node takes -/

/-- The slots a part of the blob takes of the four tables with counters. -/
@[ext] structure Usage where
  cpus : Nat
  mems : Nat
  clusters : Nat
  entries : Nat

instance : Add Usage :=
  ⟨fun u v => ⟨u.cpus + v.cpus, u.mems + v.mems, u.clusters + v.clusters, u.entries + v.entries⟩⟩

instance : Zero Usage := ⟨⟨0, 0, 0, 0⟩⟩

instance : AddMonoid Usage where
  add := (· + ·)
  zero := 0
  add_assoc _ _ _ := Usage.ext (Nat.add_assoc ..) (Nat.add_assoc ..) (Nat.add_assoc ..) (Nat.add_assoc ..)
  zero_add _ := Usage.ext (Nat.zero_add _) (Nat.zero_add _) (Nat.zero_add _) (Nat.zero_add _)
  add_zero _ := Usage.ext (Nat.add_zero _) (Nat.add_zero _) (Nat.add_zero _) (Nat.add_zero _)
  nsmul := nsmulRec

namespace DeviceTree

/-- Room past the counters for what `u` takes. -/
def Room (dt : DeviceTree) (u : Usage) : Prop :=
  dt.cpuNum + u.cpus ≤ MAX_CPU ∧ dt.memNum + u.mems ≤ MAX_MEM ∧
    dt.nodeNum + u.clusters ≤ MAX_CORES_PER_NODE ∧
    dt.distanceEntryNum + u.entries ≤ MAX_DISTANCE_MAP_ENTRY

/-- Room for `u + rest`, taken apart. -/
theorem room_add {dt : DeviceTree} {u rest : Usage} :
    dt.Room (u + rest) ↔ dt.cpuNum + (u.cpus + rest.cpus) ≤ MAX_CPU ∧
      dt.memNum + (u.mems + rest.mems) ≤ MAX_MEM ∧
      dt.nodeNum + (u.clusters + rest.clusters) ≤ MAX_CORES_PER_NODE ∧
      dt.distanceEntryNum + (u.entries + rest.entries) ≤ MAX_DISTANCE_MAP_ENTRY :=
  Iff.rfl

/-- Room for `rest` is left where the counters grew by at most `u`. -/
theorem room_of_le {dt dt' : DeviceTree} {u rest : Usage} (h : dt.Room (u + rest))
    (hc : dt'.cpuNum ≤ dt.cpuNum + u.cpus) (hm : dt'.memNum ≤ dt.memNum + u.mems)
    (hn : dt'.nodeNum ≤ dt.nodeNum + u.clusters)
    (he : dt'.distanceEntryNum ≤ dt.distanceEntryNum + u.entries) : dt'.Room rest := by
  obtain ⟨hc', hm', hn', he'⟩ := room_add.mp h
  exact ⟨by omega, by omega, by omega, by omega⟩

instance (dt : DeviceTree) (u : Usage) : Decidable (dt.Room u) := by
  unfold Room
  infer_instance

end DeviceTree

/-! ## `parse_cpu_node` -/

/-- What `parse_cpu_node` reads of a `cpu@` node with a `reg` is there: a
cell of `reg`, a `numa-node-id` (whose absence `get_prop_of_node` reports
through a `%s` of the node's offset), and three strings, each shorter than
its field. -/
def CpuNodeOk (node : Node) : Prop :=
  ∀ reg ∈ node.getprop "reg", 4 ≤ reg.length ∧ (node.getprop "numa-node-id").isSome ∧
    FitsInfoStr (node.getprop "status") ∧ FitsInfoStr (node.getprop "riscv,isa") ∧
      FitsInfoStr (node.getprop "mmu-type")

instance (node : Node) : Decidable (CpuNodeOk node) := by
  unfold CpuNodeOk
  infer_instance

namespace DeviceTree

variable {dt : DeviceTree}

theorem parseCpuNode_ok {node : Node} {rest : Usage} (hinv : dt.Inv) (hok : CpuNodeOk node)
    (hroom : dt.Room (⟨1, 0, 0, 0⟩ + rest)) :
    ∃ dt' code, parseCpuNode dt node = .ok (dt', code) ∧ dt'.Inv ∧ dt'.Room rest := by
  obtain ⟨hc, hm, hn, he⟩ := room_add.mp hroom
  dsimp only at hc hm hn he
  have hi : dt.cpuNum < MAX_CPU := by omega
  have hroom' : Room { dt with cpuNum := dt.cpuNum + 1 } rest := by
    refine ⟨?_, ?_, ?_, ?_⟩ <;> dsimp only <;> omega
  obtain ⟨hs0, hi0, hm0⟩ := hinv.blank dt.cpuNum (Nat.le_refl _)
  cases hreg : node.getprop "reg" with
  | none =>
    refine ⟨_, _, by simp only [parseCpuNode, hreg]; rfl, ?_, hroom'⟩
    -- the slot is taken and left blank
    simpa only [Function.update_eq_self] using hinv.takeCpu (hinv.strs dt.cpuNum)
  | some reg =>
    obtain ⟨hlen, hnuma, hst, hisa, hmmu⟩ := hok reg hreg
    simp only [parseCpuNode, hreg, readCell_of_le (show 4 * 0 + 4 ≤ reg.length by omega), pure_bind,
      setCpu_of_lt _ hi, Function.update_self, Function.update_idem]
    obtain ⟨s₁, hs₁, hok₁⟩ := copyInfoStr_zeroStr (t := .status) (p := "status") hst
    obtain ⟨s₂, hs₂, hok₂⟩ := copyInfoStr_zeroStr (t := .riscvIsa) (p := "riscv,isa") hisa
    obtain ⟨s₃, hs₃, hok₃⟩ := copyInfoStr_zeroStr (t := .mmuType) (p := "mmu-type") hmmu
    -- stored or not, the id leaves the strings of the slot blank for the copies
    obtain ⟨v, hv⟩ : ∃ v, getPropOfNode node "numa-node-id" = .ok (0, v) := by
      obtain ⟨nv, hnv⟩ := Option.isSome_iff_exists.mp hnuma
      exact ⟨_, by rw [getPropOfNode, hnv]⟩
    cases v <;>
      simp only [hv, Budget.ok_bind, pure_bind, if_neg (show ¬((0 : Int) < 0) by decide), hs0, hi0, hm0, hs₁,
        hs₂, hs₃] <;>
      exact ⟨_, _, rfl, hinv.takeCpu ⟨hok₁, hok₂, hok₃⟩, hroom'⟩

end DeviceTree

/-! ## `parse_cpu_map_node` -/

/-- A cluster of a `cpu-map`: no more cores than its array, and a cell in each
core's `cpu`. -/
def ClusterOk (c : Node) : Prop :=
  c.children.length ≤ MAX_CORES_PER_NODE ∧ ∀ core ∈ c.children, ∀ v ∈ core.getprop "cpu", 4 ≤ v.length

instance (c : Node) : Decidable (ClusterOk c) := by
  unfold ClusterOk
  infer_instance

namespace DeviceTree

variable {dt : DeviceTree}


/-- A core added to cluster `i`, one the parse has taken, with room in its
array. -/
theorem Inv.pushCore (h : dt.Inv) {i : Nat} (hi : i < dt.nodeNum) (cores : Nat → Nat)
    (hc : (dt.nodes i).coreNum < MAX_CORES_PER_NODE) :
    Inv { dt with nodes := Function.update dt.nodes i ⟨(dt.nodes i).coreNum + 1, cores⟩ } where
  strs := h.strs
  blank := h.blank
  coreNum_le j := by
    by_cases hj : j = i
    · subst hj
      simp only [Function.update_self]
      omega
    · simpa only [Function.update_of_ne hj] using h.coreNum_le j
  fresh j hj := by
    have hj' : dt.nodeNum ≤ j := hj
    simpa only [Function.update_of_ne (show j ≠ i by omega)] using h.fresh j hj'

/-- The cluster slot at the counter, taken. -/
theorem Inv.takeNode (h : dt.Inv) : Inv { dt with nodeNum := dt.nodeNum + 1 } where
  strs := h.strs
  blank := h.blank
  coreNum_le := h.coreNum_le
  fresh j hj := h.fresh j (by have hj' : dt.nodeNum + 1 ≤ j := hj; omega)

/-- The loop over a cluster's cores changes only `dt.nodes`. -/
theorem parseCores_ok {i : Nat} (hi4 : i < MAX_CORES_PER_NODE) :
    ∀ (cores : List Node) (dt : DeviceTree), dt.Inv → i < dt.nodeNum →
      (dt.nodes i).coreNum + cores.length ≤ MAX_CORES_PER_NODE →
      (∀ core ∈ cores, ∀ v ∈ core.getprop "cpu", 4 ≤ v.length) →
      ∃ nodes code, parseCores i dt cores = .ok ({ dt with nodes := nodes }, code) ∧
        Inv { dt with nodes := nodes }
  | [], dt, hinv, _, _, _ => ⟨dt.nodes, 0, rfl, hinv⟩
  | core :: cores, dt, hinv, hi, hlen, hcpu => by
    simp only [List.length_cons] at hlen
    cases hget : core.getprop "cpu" with
    | none => exact ⟨dt.nodes, -1, by simp only [parseCores, hget]; rfl, hinv⟩
    | some v =>
      have hv : 4 * 0 + 4 ≤ v.length := hcpu core List.mem_cons_self v hget
      have hc : (dt.nodes i).coreNum < MAX_CORES_PER_NODE := by omega
      -- the rest of the cores go into the cluster as it now is
      obtain ⟨nodes, code, hrun, hinv'⟩ := parseCores_ok hi4 cores _ (hinv.pushCore hi _ hc) hi
        (by simp only [Function.update_self]; omega)
        (fun c hc v hv => hcpu c (List.mem_cons_of_mem core hc) v hv)
      refine ⟨nodes, code, ?_, hinv'⟩
      simp only [parseCores, hget, readCell_of_le hv, pure_bind, pushCore_of_lt hi4 hc]
      exact hrun

/-- **The run lemma of `parse_cpu_map_node`**: each cluster takes one slot of
`dt.nodes`, and a core without `cpu` ends the loop early. -/
theorem parseClusters_ok : ∀ (clusters : List Node) (dt : DeviceTree) (rest : Usage), dt.Inv →
    (∀ cl ∈ clusters, ClusterOk cl) → dt.Room (⟨0, 0, clusters.length, 0⟩ + rest) →
    ∃ dt' code, parseClusters dt clusters = .ok (dt', code) ∧ dt'.Inv ∧ dt'.Room rest
  | [], dt, rest, hinv, _, hroom => by
    obtain ⟨hc, hm, hn, he⟩ := room_add.mp hroom
    dsimp only at hc hm hn he
    exact ⟨dt, 0, rfl, hinv, by omega, by omega, by omega, by omega⟩
  | cl :: cls, dt, rest, hinv, hok, hroom => by
    obtain ⟨hc, hm, hn, he⟩ := room_add.mp hroom
    simp only [List.length_cons] at hc hm hn he
    obtain ⟨hlen, hcpu⟩ := hok cl List.mem_cons_self
    have hi4 : dt.nodeNum < MAX_CORES_PER_NODE := by omega
    -- the cluster's slot is fresh: its cores start at 0
    have hfresh : (dt.nodes dt.nodeNum).coreNum = 0 := hinv.fresh _ (Nat.le_refl _)
    obtain ⟨nodes, code, hrun, hinv'⟩ := parseCores_ok hi4 cl.children _ hinv.takeNode
      (Nat.lt_succ_self _) (by dsimp only; omega) hcpu
    simp only [parseClusters, hrun, Budget.ok_bind]
    by_cases hcode : code < 0
    · rw [if_pos hcode]
      exact ⟨_, _, rfl, hinv', by dsimp only; omega, by dsimp only; omega, by dsimp only; omega,
        by dsimp only; omega⟩
    · rw [if_neg hcode]
      exact parseClusters_ok cls _ rest hinv' (fun c hc => hok c (List.mem_cons_of_mem cl hc))
        (room_add.mpr ⟨by dsimp only; omega, by dsimp only; omega, by dsimp only; omega,
          by dsimp only; omega⟩)

/-! ## `parse_cpus_node` -/

end DeviceTree

/-- What a subnode of `/cpus` takes: a `cpu@` node a CPU slot, a `cpu-map` a
cluster slot for each of its subnodes. -/
def cpusChildUsage (c : Node) : Usage :=
  if c.name.startsWith "cpu@" then ⟨1, 0, 0, 0⟩
  else if c.name = "cpu-map" then ⟨0, 0, c.children.length, 0⟩
  else 0

/-- What `parse_cpus_node` reads of a subnode of `/cpus` is there. -/
def CpusChildOk (c : Node) : Prop :=
  if c.name.startsWith "cpu@" then CpuNodeOk c
  else if c.name = "cpu-map" then ∀ cl ∈ c.children, ClusterOk cl
  else True

instance (c : Node) : Decidable (CpusChildOk c) := by
  unfold CpusChildOk
  infer_instance

namespace DeviceTree

variable {dt : DeviceTree}

theorem parseCpusChild_ok {c : Node} {rest : Usage} (hinv : dt.Inv) (hok : CpusChildOk c)
    (hroom : dt.Room (cpusChildUsage c + rest)) :
    ∃ dt', parseCpusChild dt c = .ok dt' ∧ dt'.Inv ∧ dt'.Room rest := by
  unfold CpusChildOk at hok
  unfold cpusChildUsage at hroom
  by_cases hcpu : c.name.startsWith "cpu@" = true
  · rw [if_pos hcpu] at hok hroom
    obtain ⟨dt', code, hrun, hinv', hroom'⟩ := parseCpuNode_ok hinv hok hroom
    exact ⟨dt', by simp only [parseCpusChild, if_pos hcpu, hrun, Budget.map_ok], hinv', hroom'⟩
  · rw [if_neg hcpu] at hok hroom
    by_cases hmap : c.name = "cpu-map"
    · rw [if_pos hmap] at hok hroom
      obtain ⟨dt', code, hrun, hinv', hroom'⟩ := parseClusters_ok c.children dt rest hinv hok hroom
      refine ⟨dt', ?_, hinv', hroom'⟩
      simp only [parseCpusChild, if_neg hcpu, if_pos hmap, parseCpuMapNode, hrun, Budget.map_ok]
    · rw [if_neg hmap] at hroom
      refine ⟨dt, by simp only [parseCpusChild, if_neg hcpu, if_neg hmap]; rfl, hinv, ?_⟩
      exact room_of_le hroom (Nat.le_add_right _ _) (Nat.le_add_right _ _) (Nat.le_add_right _ _)
        (Nat.le_add_right _ _)

/-- **The run lemma of `parse_cpus_node`.** -/
theorem parseCpusNode_ok {node : Node} {rest : Usage} (hinv : dt.Inv)
    (hok : ∀ c ∈ node.children, CpusChildOk c)
    (hroom : dt.Room ((node.children.map cpusChildUsage).sum + rest)) :
    ∃ dt', parseCpusNode dt node = .ok dt' ∧ dt'.Inv ∧ dt'.Room rest :=
  Budget.foldlM_ok (I := Inv) (R := Room) (u := cpusChildUsage)
    (fun _ a _ hI hP hR => parseCpusChild_ok (c := a) hI hP hR)
    node.children dt rest hinv hok hroom

/-! ## `parse_memory_node` -/

/-- The cells loops read inside a value with the cells in it. -/
theorem readCells_ok (reg : List UInt8) :
    ∀ (n k : Nat) (acc : UInt64), 4 * (k + n) ≤ reg.length → ∃ v, readCells reg acc k n = .ok v
  | 0, _, acc, _ => ⟨acc, rfl⟩
  | n + 1, k, acc, h => by
    simp only [readCells, readCell_of_le (show 4 * k + 4 ≤ reg.length by omega), pure_bind]
    exact readCells_ok reg n (k + 1) _ (by omega)

/-- `parse_memory_node` reads `reg` only after its length check; with cell
counts whose sum does not wrap, the check covers both loops. -/
theorem parseMemoryNode_ok (node : Node) {ac sc : Nat} {rest : Usage} (hwrap : ac + sc < 2 ^ 32)
    (hok : ∀ reg ∈ node.getprop "reg", (node.getprop "numa-node-id").isSome) (hinv : dt.Inv)
    (hroom : dt.Room (⟨0, 1, 0, 0⟩ + rest)) :
    ∃ dt' code, parseMemoryNode ac sc dt node = .ok (dt', code) ∧ dt'.Inv ∧ dt'.Room rest := by
  obtain ⟨-, hm, -, -⟩ := room_add.mp hroom
  dsimp only at hm
  have hi : dt.memNum < MAX_MEM := by omega
  have hroom' : Room { dt with memNum := dt.memNum + 1 } rest :=
    room_of_le hroom (Nat.le_add_right _ _) (Nat.le_refl _) (Nat.le_add_right _ _)
      (Nat.le_add_right _ _)
  cases hreg : node.getprop "reg" with
  | none =>
    refine ⟨_, -1, ?_, ?_, hroom'⟩
    · simp only [parseMemoryNode, hreg]
      rfl
    · exact hinv.congr rfl rfl rfl rfl
  | some reg =>
    obtain ⟨v, hv⟩ : ∃ v, getPropOfNode node "numa-node-id" = .ok (0, v) := by
      obtain ⟨nv, hnv⟩ := Option.isSome_iff_exists.mp (hok reg hreg)
      exact ⟨_, by rw [getPropOfNode, hnv]⟩
    have hcells : (ac + sc) % 2 ^ 32 = ac + sc := Nat.mod_eq_of_lt hwrap
    by_cases hlen : 4 * (ac + sc) ≤ reg.length
    · -- both loops read inside `reg`
      obtain ⟨base, hbase⟩ := readCells_ok reg ac 0 0 (by omega)
      obtain ⟨size, hsize⟩ := readCells_ok reg (ac + sc - ac) ac 0 (by omega)
      cases v <;>
        simp only [parseMemoryNode, hreg, hv, hcells, if_pos hlen, setMemory_of_lt _ hi, pure_bind,
          if_neg (show ¬((0 : Int) < 0) by decide), hbase, hsize, Budget.ok_bind] <;>
        exact ⟨_, _, rfl, hinv.congr rfl rfl rfl rfl, hroom'⟩
    · cases v <;>
        simp only [parseMemoryNode, hreg, hv, hcells, if_neg hlen, setMemory_of_lt _ hi, pure_bind,
          if_neg (show ¬((0 : Int) < 0) by decide), Budget.ok_bind] <;>
        exact ⟨_, _, rfl, hinv.congr rfl rfl rfl rfl, hroom'⟩

/-- **A `/memory@` node without `reg` is counted.** `parse_memory_node`
takes `dt.memory[dt.mem_num++]` before it reads the node: where `reg` is
missing it returns `-1`, which the root's loop only logs, and leaves the slot
zeroed, so the walk goes on with one region more, of base `0` and size `0`.
Where `reg` is there and `numa-node-id` is not, the walk does not get that
far: `get_prop_of_node` reports the missing property with a `%s` of the
node's offset. -/
theorem parse_memory_node_counts_incomplete_node (ac sc : Nat) (dt : DeviceTree) {node : Node}
    (hname : node.name.startsWith "memory@" = true) :
    (node.getprop "reg" = none → parseRootChild ac sc dt node = .ok { dt with memNum := dt.memNum + 1 }) ∧
      (∀ reg ∈ node.getprop "reg", node.getprop "numa-node-id" = none →
        parseRootChild ac sc dt node = .error (.strArg "numa-node-id")) := by
  refine ⟨fun hreg => ?_, fun reg hreg hnuma => ?_⟩
  · simp only [parseRootChild, hname, if_true, parseMemoryNode, hreg]
    rfl
  · rw [Option.mem_def] at hreg
    simp only [parseRootChild, hname, if_true, parseMemoryNode, hreg, getPropOfNode, hnuma]
    rfl

/-- A root whose one subnode is a `/memory@` node with no properties: the
parse counts one region, zeroed. -/
theorem parse_memory_node_counts_incomplete_node_bare :
    parseDeviceTree ⟨"", [], [⟨"memory@80000000", [], []⟩]⟩ = .ok { DeviceTree.zero with memNum := 1 } := by
  simp only [parseDeviceTree, List.foldlM_cons, List.foldlM_nil, bind_pure]
  exact (parse_memory_node_counts_incomplete_node _ _ DeviceTree.zero (by decide +kernel)).1 rfl

/-! ## `parse_distance_map_node` -/

/-- **The run lemma of the triples loop**: `n` passes from cell `i` read inside
a value that holds their cells, and take `n` entries. -/
theorem parseDistances_ok {m : List UInt8} :
    ∀ (n i : Nat) (dt : DeviceTree) (rest : Usage), dt.Inv → 4 * (i + 3 * n) ≤ m.length →
      dt.Room (⟨0, 0, 0, n⟩ + rest) → ∃ dt', parseDistances m dt i n = .ok dt' ∧ dt'.Inv ∧ dt'.Room rest
  | 0, _, dt, _, hinv, _, hroom =>
    ⟨dt, rfl, hinv, room_of_le hroom (Nat.le_add_right _ _) (Nat.le_add_right _ _)
      (Nat.le_add_right _ _) (Nat.le_add_right _ _)⟩
  | n + 1, i, dt, rest, hinv, hlen, hroom => by
    obtain ⟨-, -, -, he⟩ := room_add.mp hroom
    dsimp only at he
    have hj : dt.distanceEntryNum < MAX_DISTANCE_MAP_ENTRY := by omega
    simp only [parseDistances, readCell_of_le (show 4 * i + 4 ≤ m.length by omega),
      readCell_of_le (show 4 * (i + 1) + 4 ≤ m.length by omega),
      readCell_of_le (show 4 * (i + 2) + 4 ≤ m.length by omega), setDistance_of_lt _ hj, pure_bind]
    refine parseDistances_ok n (i + 3) _ rest ?_ (by omega) ?_
    · exact hinv.congr rfl rfl rfl rfl
    · obtain ⟨hc, hm, hn, -⟩ := room_add.mp hroom
      exact room_add.mpr ⟨hc, hm, hn, by dsimp only at he ⊢; omega⟩

end DeviceTree

/-- The entries a `distance-map` node takes: a triple's worth per pass. -/
def distanceEntries (node : Node) : Nat :=
  match node.getprop "distance-matrix" with
  | some m => (m.length / 4 + 2) / 3
  | none => 0

namespace DeviceTree

variable {dt : DeviceTree}

/-- With whole triples, the loop's passes read inside the matrix. -/
theorem parseDistanceMapNode_ok {node : Node} {rest : Usage} (hinv : dt.Inv)
    (hok : ∀ m ∈ node.getprop "distance-matrix", m.length / 4 % 3 = 0)
    (hroom : dt.Room (⟨0, 0, 0, distanceEntries node⟩ + rest)) :
    ∃ dt' code, parseDistanceMapNode dt node = .ok (dt', code) ∧ dt'.Inv ∧ dt'.Room rest := by
  cases hmat : node.getprop "distance-matrix" with
  | none =>
    simp only [distanceEntries, hmat] at hroom
    refine ⟨dt, -1, by simp only [parseDistanceMapNode, hmat]; rfl, hinv, ?_⟩
    exact room_of_le hroom (Nat.le_add_right _ _) (Nat.le_add_right _ _) (Nat.le_add_right _ _)
      (Nat.le_add_right _ _)
  | some m =>
    simp only [distanceEntries, hmat] at hroom
    have hwhole := hok m hmat
    obtain ⟨dt', hrun, hinv', hroom'⟩ :=
      parseDistances_ok (m := m) ((m.length / 4 + 2) / 3) 0 dt rest hinv (by omega) hroom
    exact ⟨dt', 0, by simp only [parseDistanceMapNode, hmat, hrun, Budget.ok_bind]; rfl, hinv', hroom'⟩

end DeviceTree

/-! ## `parse_device_tree` -/

/-- What a subnode of the root takes. -/
def rootChildUsage (c : Node) : Usage :=
  if c.name.startsWith "memory@" then ⟨0, 1, 0, 0⟩
  else if c.name = "cpus" then (c.children.map cpusChildUsage).sum
  else if c.name = "distance-map" then ⟨0, 0, 0, distanceEntries c⟩
  else 0

/-- What `parse_device_tree` reads of a subnode of the root is there. -/
def RootChildOk (c : Node) : Prop :=
  if c.name.startsWith "memory@" then ∀ reg ∈ c.getprop "reg", (c.getprop "numa-node-id").isSome
  else if c.name = "cpus" then ∀ x ∈ c.children, CpusChildOk x
  else if c.name = "distance-map" then ∀ m ∈ c.getprop "distance-matrix", m.length / 4 % 3 = 0
  else True

instance (c : Node) : Decidable (RootChildOk c) := by
  unfold RootChildOk
  infer_instance

namespace DeviceTree

variable {dt : DeviceTree}

theorem parseRootChild_ok {ac sc : Nat} {c : Node} {rest : Usage} (hwrap : ac + sc < 2 ^ 32)
    (hinv : dt.Inv) (hok : RootChildOk c) (hroom : dt.Room (rootChildUsage c + rest)) :
    ∃ dt', parseRootChild ac sc dt c = .ok dt' ∧ dt'.Inv ∧ dt'.Room rest := by
  unfold RootChildOk at hok
  unfold rootChildUsage at hroom
  by_cases hmem : c.name.startsWith "memory@" = true
  · rw [if_pos hmem] at hok hroom
    obtain ⟨dt', code, hrun, hinv', hroom'⟩ := parseMemoryNode_ok c hwrap hok hinv hroom
    exact ⟨dt', by simp only [parseRootChild, if_pos hmem, hrun, Budget.map_ok], hinv', hroom'⟩
  rw [if_neg hmem] at hok hroom
  by_cases hcpus : c.name = "cpus"
  · rw [if_pos hcpus] at hok hroom
    obtain ⟨dt', hrun, hinv', hroom'⟩ := parseCpusNode_ok hinv hok hroom
    exact ⟨dt', by simp only [parseRootChild, if_neg hmem, if_pos hcpus, hrun], hinv', hroom'⟩
  rw [if_neg hcpus] at hok hroom
  by_cases hdist : c.name = "distance-map"
  · rw [if_pos hdist] at hok hroom
    obtain ⟨dt', code, hrun, hinv', hroom'⟩ := parseDistanceMapNode_ok hinv hok hroom
    refine ⟨dt', ?_, hinv', hroom'⟩
    simp only [parseRootChild, if_neg hmem, if_neg hcpus, if_pos hdist, hrun, Budget.map_ok]
  rw [if_neg hdist] at hroom
  refine ⟨dt, by simp only [parseRootChild, if_neg hmem, if_neg hcpus, if_neg hdist]; rfl, hinv, ?_⟩
  exact room_of_le hroom (Nat.le_add_right _ _) (Nat.le_add_right _ _) (Nat.le_add_right _ _)
    (Nat.le_add_right _ _)

end DeviceTree

/-- A blob `parse_device_tree` reads inside `dt`: the root's cell counts add
up without wrapping a `uint32_t`, the tables have room for all that the
root's subnodes take, and each subnode holds what its parser reads. -/
structure WellSized (root : Node) : Prop where
  cells : toUInt32 (addressCells root) + toUInt32 (sizeCells root) < 2 ^ 32
  room : DeviceTree.zero.Room (root.children.map rootChildUsage).sum
  children : ∀ c ∈ root.children, RootChildOk c

instance (root : Node) : Decidable (WellSized root) :=
  decidable_of_iff (_ ∧ _ ∧ _) ⟨fun ⟨a, b, c⟩ => ⟨a, b, c⟩, fun ⟨a, b, c⟩ => ⟨a, b, c⟩⟩

namespace DeviceTree

/-- Tables a parse left inside their arrays: the counters within them, no
cluster past its cores, and every string field a C string. -/
structure Bounded (dt : DeviceTree) : Prop where
  room : dt.Room 0
  coreNum_le : ∀ i, (dt.nodes i).coreNum ≤ MAX_CORES_PER_NODE
  strs : ∀ i, (dt.cpus i).StrsOk

end DeviceTree

/-- **`parse_device_tree` stays inside its tables** on every well-sized blob:
it returns `ok`, so that it made no write outside `dt.cpus`, `dt.memory`,
`dt.nodes`, a cluster's `cores`, `dt.distance_matrix` or a string field, no
read past a property's value and no `strlen` of a missing property, and it
leaves the tables bounded. -/
theorem parseDeviceTree_inside (root : Node) (h : WellSized root) :
    ∃ dt, parseDeviceTree root = .ok dt ∧ dt.Bounded := by
  obtain ⟨dt, hrun, hinv, hroom⟩ :=
    Budget.foldlM_ok (I := DeviceTree.Inv) (R := DeviceTree.Room) (u := rootChildUsage)
      (fun _ a _ hI hP hR => DeviceTree.parseRootChild_ok (c := a) h.cells hI hP hR)
      root.children DeviceTree.zero 0 DeviceTree.inv_zero h.children
      (by simpa only [add_zero] using h.room)
  exact ⟨dt, hrun, hroom, hinv.coreNum_le, hinv.strs⟩

/-! ## The QEMU `virt` tree -/

/-- A CPU node of QEMU's `virt` machine, with the `riscv,isa` string `isa`. -/
def virtCpu (isa : String) (id numa : Nat) : Node :=
  ⟨"cpu@" ++ toString id,
    [("phandle", u32s [id + 1]), ("reg", u32s [id]), ("numa-node-id", u32s [numa]),
      ("status", str "okay"), ("riscv,isa", str isa), ("mmu-type", str "riscv,sv48")], []⟩

/-- The tree of the `README`'s machine: eight harts in four NUMA nodes of
two, a 32 MiB region for each node, one cluster for each node in the
`cpu-map`, and the distance matrix. -/
def virtTree (isa : String) : Node :=
  ⟨"", [("#address-cells", u32s [2]), ("#size-cells", u32s [2])],
    (List.range 4).map (fun k =>
        ⟨"memory@" ++ toString (0x80000000 + k * 0x2000000),
          [("reg", u32s [0, 0x80000000 + k * 0x2000000, 0, 0x2000000]), ("numa-node-id", u32s [k])],
          []⟩) ++
    [⟨"cpus", [], (List.range 8).map (fun id => virtCpu isa id (id / 2)) ++
      [⟨"cpu-map", [], (List.range 4).map fun k =>
        ⟨"cluster" ++ toString k, [], (List.range 2).map fun j =>
          ⟨"core" ++ toString j, [("cpu", u32s [2 * k + j + 1])], []⟩⟩⟩]⟩,
     ⟨"distance-map", [("distance-matrix",
        u32s ((List.range 4).flatMap fun a => (List.range 4).flatMap fun b =>
          [a, b, if a = b then 10 else 20]))], []⟩,
     ⟨"soc", [], []⟩]⟩

/-- The tree the `README`'s QEMU gives is well sized, and its parse stays
inside the tables. -/
theorem parseDeviceTree_inside_virt :
    WellSized (virtTree "rv64imafdcsu") ∧
      ∃ dt, parseDeviceTree (virtTree "rv64imafdcsu") = .ok dt ∧ dt.Bounded :=
  have h : WellSized (virtTree "rv64imafdcsu") := by decide +kernel
  ⟨h, parseDeviceTree_inside _ h⟩

/-- The same machine with the `riscv,isa` string QEMU 8 writes for its default
hart: `parse_cpu_node` copies its 59 bytes into the 16 of `riscv_isa`. -/
theorem parse_cpu_node_overflows_riscv_isa :
    parseDeviceTree (virtTree "rv64imafdch_zicsr_zifencei_zihintpause_zba_zbb_zbc_zbs_sstc") =
      .error (.outside .riscvIsa MAX_INFO_STR_LEN) := by
  generalize hp : parseDeviceTree (virtTree "rv64imafdch_zicsr_zifencei_zihintpause_zba_zbb_zbc_zbs_sstc") = p
  -- the kernel runs the parse to the fault it stops at
  have h : (match p with | .error e => some e | .ok _ => none) =
      some (.outside .riscvIsa MAX_INFO_STR_LEN) := by
    rw [← hp]
    decide +kernel
  cases p with
  | error e => cases h; rfl
  | ok _ => cases h

end Mkros