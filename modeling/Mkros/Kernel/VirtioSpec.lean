import Mkros.Kernel.Virtio
import Mkros.Lib.Pool
import Mkros.Lib.Budget
/-!
# The virtio disk's descriptors: an ownership over every interleaving

The descriptors are a pool (`Pool.Owns`): each is free, or held by the one
request whose chain it is. `alloc3_desc` takes three free descriptors or,
failing, gives back the ones it took, leaving the free marks as they were
(`alloc3Desc_spec`); `free_chain` follows the chain `virtio_disk_rw`
formatted (`Chain`) and frees exactly its three descriptors
(`freeChain_chain`).

Over any interleaving of requests, device completions and interrupts
(`Inv`, `virtio_descriptor_ownership`): nothing panics; every descriptor is
free or in exactly one request's chain; each request's chain is three
descriptors, formatted as it was submitted, with its buf in
`disk.info[head].b`; the chains on the avail and used rings are those of
requests whose `b->disk` is `1`, each once, so neither ring holds more than
`NUM` entries.
-/

namespace Mkros

namespace Virtio

variable {β : Type}

/-! ## The descriptors -/

section Desc

variable {disk : Disk β}

/-- `disk` after `free_desc` of each of `l`. -/
def Disk.freed (disk : Disk β) (l : List Nat) : Disk β :=
  { disk with desc := fun i => if i ∈ l then Desc.zero else disk.desc i, free := Pool.give disk.free l }

/-- `disk` with `l` marked busy. -/
def Disk.taken (disk : Disk β) (l : List Nat) : Disk β := { disk with free := Pool.take disk.free l }

@[simp] theorem freed_desc (l : List Nat) (i : Nat) :
    (disk.freed l).desc i = if i ∈ l then Desc.zero else disk.desc i := rfl

@[simp] theorem freed_free (l : List Nat) : (disk.freed l).free = Pool.give disk.free l := rfl

@[simp] theorem freed_info (l : List Nat) : (disk.freed l).info = disk.info := rfl

@[simp] theorem freed_avail (l : List Nat) : (disk.freed l).avail = disk.avail := rfl

@[simp] theorem freed_used (l : List Nat) : (disk.freed l).used = disk.used := rfl

@[simp] theorem taken_desc (l : List Nat) : (disk.taken l).desc = disk.desc := rfl

@[simp] theorem taken_free (l : List Nat) : (disk.taken l).free = Pool.take disk.free l := rfl

@[simp] theorem taken_info (l : List Nat) : (disk.taken l).info = disk.info := rfl

@[simp] theorem taken_avail (l : List Nat) : (disk.taken l).avail = disk.avail := rfl

@[simp] theorem taken_used (l : List Nat) : (disk.taken l).used = disk.used := rfl

/-- Freeing `l`, then `m`, frees both. -/
theorem freed_append (l m : List Nat) : (disk.freed l).freed m = disk.freed (l ++ m) := by
  simp only [Disk.freed, Disk.mk.injEq, and_true]
  constructor
  · funext i
    by_cases hm : i ∈ m <;> by_cases hl : i ∈ l <;> simp [hm, hl]
  · funext i
    by_cases hm : i ∈ m <;> by_cases hl : i ∈ l <;> simp [Pool.give, hm, hl]

theorem allocDesc_some {disk' : Disk β} {i : Nat} (h : allocDesc disk = (disk', some i)) :
    i < NUM ∧ disk.free i = true ∧ disk' = disk.taken [i] := by
  unfold allocDesc at h
  split at h
  · rename_i j hj
    cases h
    refine ⟨List.mem_range.mp (List.mem_of_find?_eq_some hj), List.find?_some hj, ?_⟩
    simp only [Disk.taken, Disk.mk.injEq, and_true, true_and]
    funext k
    by_cases hk : k = i
    · subst hk
      simp
    · simp [hk]
  · cases h

theorem allocDesc_none {disk' : Disk β} (h : allocDesc disk = (disk', none)) :
    disk' = disk ∧ ∀ i < NUM, disk.free i = false := by
  unfold allocDesc at h
  split at h
  · cases h
  · rename_i hnone
    cases h
    refine ⟨rfl, fun i hi => ?_⟩
    have := List.find?_eq_none.mp hnone i (List.mem_range.mpr hi)
    simpa using this

/-- `free_desc` of a busy descriptor frees it. -/
theorem freeDesc_ok {i : Nat} (hi : i < NUM) (hbusy : disk.free i = false) :
    freeDesc disk i = .ok (disk.freed [i]) := by
  rw [freeDesc, if_neg (Nat.not_le.mpr hi), if_neg (by rw [hbusy]; decide)]
  simp only [Disk.freed, Except.ok.injEq, Disk.mk.injEq, and_true]
  constructor
  · funext j
    by_cases hj : j = i
    · subst hj
      simp
    · simp [hj]
  · funext j
    by_cases hj : j = i
    · subst hj
      simp [Pool.give]
    · simp [hj, Pool.give]

/-- `free_desc` of each of `l`, busy and apart, frees them all. -/
theorem foldlM_freeDesc {l : List Nat} (hl : ∀ i ∈ l, i < NUM ∧ disk.free i = false) (hnd : l.Nodup) :
    l.foldlM freeDesc disk = .ok (disk.freed l) := by
  induction l generalizing disk with
  | nil => rfl
  | cons a l ih =>
    obtain ⟨ha, hl'⟩ := List.nodup_cons.mp hnd
    rw [List.foldlM_cons, freeDesc_ok (hl a List.mem_cons_self).1 (hl a List.mem_cons_self).2, Budget.ok_bind,
      ih (fun i hi => ?_) hl', freed_append, List.singleton_append]
    -- the rest stay busy: they are not `a`
    have hia : i ∉ [a] := fun h => ha (List.mem_singleton.mp h ▸ hi)
    exact ⟨(hl i (List.mem_cons_of_mem a hi)).1, by simp [hia, (hl i (List.mem_cons_of_mem a hi)).2]⟩

/-- Marking busy, then freeing, descriptors that were free leaves the marks
as they were. -/
theorem freed_taken {l : List Nat} (hl : ∀ i ∈ l, disk.free i = true) :
    ((disk.taken l).freed l).free = disk.free := by
  funext i
  by_cases hi : i ∈ l
  · simp [Disk.freed, Disk.taken, hi, hl i hi]
  · simp [Disk.freed, Disk.taken, hi]

/-- **The loop of `alloc3_desc`**, from `d0` with `idx` taken: it takes
`k` more free descriptors, or, failing, frees the ones it took. -/
theorem alloc3Loop_spec {d0 : Disk β} (k : Nat) {idx : List Nat}
    (hidx : ∀ i ∈ idx, i < NUM ∧ d0.free i = true) (hnd : idx.Nodup) :
    (∃ idx', alloc3Loop k (d0.taken idx) idx = .ok (d0.taken (idx ++ idx'), some (idx ++ idx')) ∧
        idx'.length = k ∧ (idx ++ idx').Nodup ∧ ∀ i ∈ idx', i < NUM ∧ d0.free i = true) ∨
      ∃ l, alloc3Loop k (d0.taken idx) idx = .ok ((d0.taken l).freed l, none) ∧
        ∀ i ∈ l, d0.free i = true := by
  induction k generalizing idx with
  | zero => exact .inl ⟨[], by simp [alloc3Loop], rfl, by simpa using hnd, by simp⟩
  | succ k ih =>
    rw [alloc3Loop]
    cases halloc : allocDesc (d0.taken idx) with
    | mk disk r =>
      cases r with
      | some i =>
        obtain ⟨hi, hfree, rfl⟩ := allocDesc_some halloc
        -- `i` was free after taking `idx`, so free in `d0` and not in `idx`
        have hnot : i ∉ idx := fun hmem => by simp [Disk.taken, hmem] at hfree
        have hfree0 : d0.free i = true := by simpa [Disk.taken, hnot] using hfree
        have htaken : (d0.taken idx).taken [i] = d0.taken (idx ++ [i]) := by
          simp only [Disk.taken, Disk.mk.injEq, and_true, true_and]
          funext j
          by_cases hj : j ∈ idx <;> by_cases hji : j = i <;> simp [Pool.take, hj, hji]
        have hidx' : ∀ j ∈ idx ++ [i], j < NUM ∧ d0.free j = true := by
          intro j hj
          rcases List.mem_append.mp hj with hj | hj
          · exact hidx j hj
          · rw [List.mem_singleton.mp hj]
            exact ⟨hi, hfree0⟩
        have hnd' : (idx ++ [i]).Nodup := List.nodup_append.mpr
          ⟨hnd, List.nodup_singleton i, fun a ha b hb hab => hnot (by rw [List.mem_singleton.mp hb] at hab; exact hab ▸ ha)⟩
        rw [htaken]
        rcases ih hidx' hnd' with ⟨idx', hrun, hlen, hnd'', hall⟩ | hfail
        · refine .inl ⟨i :: idx', by simpa using hrun, by simp [hlen], by simpa using hnd'', ?_⟩
          intro j hj
          rcases List.mem_cons.mp hj with rfl | hj
          · exact ⟨hi, hfree0⟩
          · exact hall j hj
        · exact .inr hfail
      | none =>
        obtain ⟨rfl, -⟩ := allocDesc_none halloc
        -- the ones taken are given back
        have hbusy : ∀ j ∈ idx, j < NUM ∧ (d0.taken idx).free j = false := fun j hj =>
          ⟨(hidx j hj).1, by simp [Disk.taken, hj]⟩
        refine .inr ⟨idx, ?_, fun j hj => (hidx j hj).2⟩
        simp only [foldlM_freeDesc hbusy hnd, Budget.ok_bind]

/-- **`alloc3_desc`** takes three free descriptors, apart, or fails and
gives back the free descriptors it took. -/
theorem alloc3Desc_spec (disk : Disk β) :
    (∃ idx, alloc3Desc disk = .ok (disk.taken idx, some idx) ∧ idx.length = 3 ∧ idx.Nodup ∧
        ∀ i ∈ idx, i < NUM ∧ disk.free i = true) ∨
      ∃ l, alloc3Desc disk = .ok ((disk.taken l).freed l, none) ∧ ∀ i ∈ l, disk.free i = true := by
  have h := @alloc3Loop_spec β disk 3 [] (by simp) List.nodup_nil
  rw [show disk.taken [] = disk from rfl] at h
  rcases h with ⟨idx, hrun, hlen, hnd, hall⟩ | hfail
  · exact .inl ⟨idx, by simpa [alloc3Desc] using hrun, hlen, by simpa using hnd, hall⟩
  · exact .inr hfail

/-- **A failed `alloc3_desc` leaves the free marks as they were.** -/
theorem alloc3Desc_none_free {disk' : Disk β} (h : alloc3Desc disk = .ok (disk', none)) :
    disk'.free = disk.free := by
  rcases alloc3Desc_spec disk with ⟨idx, hrun, -⟩ | ⟨l, hrun, hl⟩
  · rw [hrun] at h
    cases h
  · rw [hrun] at h
    cases h
    exact freed_taken hl

/-- A pass of `free_chain` at a busy descriptor that chains on frees it and
goes on to the next. -/
theorem freeChainLoop_next (fuel : Nat) {i : Nat} (hi : i < NUM) (hbusy : disk.free i = false)
    (hflag : (disk.desc i).flags &&& VRING_DESC_F_NEXT ≠ 0) :
    freeChainLoop (fuel + 1) disk i = freeChainLoop fuel (disk.freed [i]) (disk.desc i).next.toNat := by
  rw [freeChainLoop]
  simp only [freeDesc_ok hi hbusy, Budget.ok_bind, if_pos hflag]

/-- A pass of `free_chain` at a busy descriptor that ends the chain frees it
and stops. -/
theorem freeChainLoop_last (fuel : Nat) {i : Nat} (hi : i < NUM) (hbusy : disk.free i = false)
    (hflag : (disk.desc i).flags &&& VRING_DESC_F_NEXT = 0) :
    freeChainLoop (fuel + 1) disk i = .ok (disk.freed [i]) := by
  rw [freeChainLoop]
  simp only [freeDesc_ok hi hbusy, Budget.ok_bind, hflag, ne_eq, not_true_eq_false, if_false]

end Desc

/-! ## A request's chain -/

section Chain

variable {desc : Nat → Desc β} {disk : Disk β} {b : β} {write : Bool} {i0 i1 i2 : Nat}

/-- The chain `virtio_disk_rw(b, write)` formats at `i0 → i1 → i2`: three
descriptors apart, linked through `next`. -/
structure Linked (desc : Nat → Desc β) (b : β) (write : Bool) (i0 i1 i2 : Nat) : Prop where
  lt : i0 < NUM ∧ i1 < NUM ∧ i2 < NUM
  ne : i0 ≠ i1 ∧ i0 ≠ i2 ∧ i1 ≠ i2
  desc0 : desc i0 = ⟨.op i0, REQ_SIZE, VRING_DESC_F_NEXT, i1.toUInt16⟩
  desc1 : desc i1 =
    ⟨.data b, BSIZE, (if write then 0 else VRING_DESC_F_WRITE) ||| VRING_DESC_F_NEXT, i2.toUInt16⟩
  desc2 : desc i2 = ⟨.status i0, 1, VRING_DESC_F_WRITE, 0⟩

/-- A chain stays linked while its three descriptors stay. -/
theorem Linked.congr {desc' : Nat → Desc β} (h : Linked desc b write i0 i1 i2)
    (hdesc : ∀ i ∈ [i0, i1, i2], desc' i = desc i) : Linked desc' b write i0 i1 i2 :=
  ⟨h.lt, h.ne, by rw [hdesc i0 (by simp), h.desc0], by rw [hdesc i1 (by simp), h.desc1],
    by rw [hdesc i2 (by simp), h.desc2]⟩

theorem toNat_toUInt16 {i : Nat} (hi : i < NUM) : i.toUInt16.toNat = i := by
  unfold NUM at hi
  rw [Nat.toUInt16_eq, UInt16.toNat_ofNat']
  omega

/-- **`free_chain` frees exactly the three descriptors of a chain.** -/
theorem freeChain_chain (h : Linked disk.desc b write i0 i1 i2)
    (hbusy : ∀ i ∈ [i0, i1, i2], disk.free i = false) :
    freeChain disk i0 = .ok (disk.freed [i0, i1, i2]) := by
  obtain ⟨⟨h0, h1, h2⟩, ⟨h01, h02, h12⟩, hd0, hd1, hd2⟩ := h
  -- the first two descriptors chain on, the third ends the chain, whichever way `b->data` goes
  have hflag1 : ((if write then 0 else VRING_DESC_F_WRITE) ||| VRING_DESC_F_NEXT) &&& VRING_DESC_F_NEXT ≠ 0 := by
    cases write <;> decide
  have hbusy1 : (disk.freed [i0]).free i1 = false := by simp [Ne.symm h01, hbusy i1 (by simp)]
  have hbusy2 : ((disk.freed [i0]).freed [i1]).free i2 = false := by
    simp [Ne.symm h02, Ne.symm h12, hbusy i2 (by simp)]
  unfold freeChain
  rw [show NUM + 1 = NUM - 2 + 1 + 1 + 1 from rfl,
    freeChainLoop_next _ h0 (hbusy i0 (by simp))
      (by rw [hd0]; exact (by decide : VRING_DESC_F_NEXT &&& VRING_DESC_F_NEXT ≠ 0)),
    hd0, toNat_toUInt16 h1,
    freeChainLoop_next _ h1 hbusy1 (by simp [Ne.symm h01, hd1, hflag1]),
    freed_desc, if_neg (by simpa using Ne.symm h01), hd1, toNat_toUInt16 h2,
    freeChainLoop_last _ h2 hbusy2 (by simp [Ne.symm h02, Ne.symm h12, hd2]; decide), freed_append, freed_append]
  rfl

/-- `submit` writes the chain's three descriptors and nothing else. -/
theorem submit_desc_of_not_mem {j : Nat} (hj : j ∉ [i0, i1, i2]) :
    (submit disk b write [i0, i1, i2]).desc j = disk.desc j := by
  simp only [List.mem_cons, List.not_mem_nil, or_false, not_or] at hj
  simp [submit, Function.update_of_ne hj.1, Function.update_of_ne hj.2.1, Function.update_of_ne hj.2.2]

/-- `submit` writes `disk.info` at the head only. -/
theorem submit_info_of_ne {j : Nat} (hj : j ≠ i0) : (submit disk b write [i0, i1, i2]).info j = disk.info j := by
  simp [submit, Function.update_of_ne hj]

@[simp] theorem submit_free (idx : List Nat) : (submit disk b write idx).free = disk.free := rfl

@[simp] theorem submit_avail (idx : List Nat) : (submit disk b write idx).avail = disk.avail ++ [idx.getD 0 0] :=
  rfl

@[simp] theorem submit_used (idx : List Nat) : (submit disk b write idx).used = disk.used := rfl

/-- **`virtio_disk_rw` formats the chain**, and records its buf at the head. -/
theorem submit_chain (hlt : i0 < NUM ∧ i1 < NUM ∧ i2 < NUM) (hne : i0 ≠ i1 ∧ i0 ≠ i2 ∧ i1 ≠ i2) :
    Linked (submit disk b write [i0, i1, i2]).desc b write i0 i1 i2 ∧
      ((submit disk b write [i0, i1, i2]).info i0).b = some b := by
  obtain ⟨h01, h02, h12⟩ := hne
  refine ⟨⟨hlt, ⟨h01, h02, h12⟩, ?_, ?_, ?_⟩, by simp [submit]⟩
  · simp [submit, Function.update_of_ne h01, Function.update_of_ne h02]
  · simp [submit, Function.update_of_ne h12]
  · simp [submit]

/-- The device completes a chain: status `0` at its head, which moves from
the avail ring to the used ring. -/
theorem complete_chain (h : Linked disk.desc b write i0 i1 i2) :
    disk.complete i0 =
      { disk with
        info := Function.update disk.info i0 { disk.info i0 with status := 0 }
        avail := disk.avail.erase i0
        used := disk.used ++ [i0] } := by
  unfold Disk.complete
  rw [h.desc0, toNat_toUInt16 h.lt.2.1, h.desc1, toNat_toUInt16 h.lt.2.2, h.desc2]

/-- **`virtio_disk_intr`'s loop**, over used chains whose status is `0` and
whose buf is recorded, marks those bufs done and no other. -/
theorem intrLoop_ok [DecidableEq β] (bufDisk : β → Bool) {ids : List Nat}
    (h : ∀ id ∈ ids, (disk.info id).status = 0 ∧ (disk.info id).b ≠ none) :
    ∃ bufDisk', intrLoop disk bufDisk ids = .ok bufDisk' ∧
      (∀ id ∈ ids, ∀ x, (disk.info id).b = some x → bufDisk' x = false) ∧
      ∀ x, (∀ id ∈ ids, (disk.info id).b ≠ some x) → bufDisk' x = bufDisk x := by
  induction ids generalizing bufDisk with
  | nil => exact ⟨bufDisk, rfl, fun _ hid => absurd hid List.not_mem_nil, fun _ _ => rfl⟩
  | cons id ids ih =>
    obtain ⟨hstatus, hb⟩ := h id List.mem_cons_self
    obtain ⟨x₀, hx₀⟩ := Option.ne_none_iff_exists'.mp hb
    obtain ⟨bufDisk', hrun, hdone, hrest⟩ :=
      ih (Function.update bufDisk x₀ false) (fun id' hid' => h id' (List.mem_cons_of_mem id hid'))
    refine ⟨bufDisk', ?_, fun id' hid' x hx => ?_, fun x hx => ?_⟩
    · rw [intrLoop, if_neg (by rw [hstatus]; decide), hx₀]
      exact hrun
    · rcases List.mem_cons.mp hid' with rfl | hid'
      · -- the first buf is marked here, and nothing later unmarks it
        rw [hx₀] at hx
        cases hx
        by_cases hlater : ∃ id'' ∈ ids, (disk.info id'').b = some x₀
        · obtain ⟨id'', hid'', hx''⟩ := hlater
          exact hdone id'' hid'' x₀ hx''
        · simp only [not_exists, not_and] at hlater
          rw [hrest x₀ hlater, Function.update_self]
      · exact hdone id' hid' x hx
    · rw [hrest x (fun id' hid' => hx id' (List.mem_cons_of_mem id hid'))]
      have hne : x ≠ x₀ := fun hxx => hx id List.mem_cons_self (hxx ▸ hx₀)
      exact Function.update_of_ne hne ..

end Chain

/-! ## Every interleaving -/

variable {τ : Type}

/-- **The driver's invariant.** -/
structure Inv (s : Sys τ β) : Prop where
  /-- Nothing has panicked. -/
  running : s.panicked = none
  /-- Every descriptor is free or in one request's chain. -/
  owns : Pool.Owns (· < NUM) s.disk.free fun p => (s.procs p).chain
  /-- A request's chain is three descriptors, as it formatted them, with its
  buf recorded at the head. -/
  chains : ∀ p b write idx, s.procs p = .waiting b write idx →
    ∃ i0 i1 i2, idx = [i0, i1, i2] ∧ Linked s.disk.desc b write i0 i1 i2 ∧ (s.disk.info i0).b = some b
  /-- No two calls share a buf. -/
  bufs : ∀ p q b, (s.procs p).buf = some b → (s.procs q).buf = some b → p = q
  /-- A chain is on the rings once at most, -/
  rings : (s.disk.avail ++ s.disk.used).Nodup
  /-- and only a request's. -/
  heads : ∀ x ∈ s.disk.avail ++ s.disk.used, ∃ p b write i1 i2, s.procs p = .waiting b write [x, i1, i2]
  /-- A request's `b->disk` is `1` exactly while its chain is on a ring. -/
  done : ∀ p b write i0 i1 i2, s.procs p = .waiting b write [i0, i1, i2] →
    (s.bufDisk b = true ↔ i0 ∈ s.disk.avail ++ s.disk.used)
  /-- The device wrote status `0` for every chain it completed. -/
  status : ∀ x ∈ s.disk.used, (s.disk.info x).status = 0

section Inv

variable {s : Sys τ β}

/-- A chain's descriptors are busy. -/
theorem Inv.busy_of_waiting (h : Inv s) {p : τ} {b : β} {write : Bool} {idx : List Nat}
    (hp : s.procs p = .waiting b write idx) {i : Nat} (hi : i ∈ idx) : s.disk.free i = false :=
  h.owns.busy p i (by rw [hp]; exact hi)

/-- What is on a ring is busy. -/
theorem Inv.busy_of_ring (h : Inv s) {x : Nat} (hx : x ∈ s.disk.avail ++ s.disk.used) : s.disk.free x = false := by
  obtain ⟨p, b, write, i1, i2, hp⟩ := h.heads x hx
  exact h.busy_of_waiting hp List.mem_cons_self

/-- Two requests' chains are apart. -/
theorem Inv.eq_of_mem_chain (h : Inv s) {p q : τ} {i : Nat} (hp : i ∈ (s.procs p).chain)
    (hq : i ∈ (s.procs q).chain) : p = q :=
  h.owns.unique p q i hp hq

variable [DecidableEq τ]

omit [DecidableEq τ] in
/-- A process that is not asleep on a chain holds none. -/
theorem Proc.chain_eq_nil {x : Proc β} (hx : ∀ b w idx, x ≠ .waiting b w idx) : x.chain = [] := by
  cases x with
  | waiting b w idx => exact absurd rfl (hx b w idx)
  | _ => rfl

/-- Moving one process to where it holds no chain leaves every other
process where it was. -/
theorem waiting_of_update {procs : τ → Proc β} {p q : τ} {x : Proc β} (hx : ∀ b w idx, x ≠ .waiting b w idx)
    {b : β} {w : Bool} {idx : List Nat} (hq : Function.update procs p x q = .waiting b w idx) :
    q ≠ p ∧ procs q = .waiting b w idx := by
  by_cases hqp : q = p
  · subst hqp
    rw [Function.update_self] at hq
    exact absurd hq (hx b w idx)
  · rw [Function.update_of_ne hqp] at hq
    exact ⟨hqp, hq⟩

/-- Moving one process between places that hold no chain moves no chain. -/
theorem chain_update_of_nil {procs : τ → Proc β} {p : τ} {x : Proc β} (hx : x.chain = [])
    (hp : (procs p).chain = []) (q : τ) : (Function.update procs p x q).chain = (procs q).chain := by
  by_cases hqp : q = p
  · subst hqp
    rw [Function.update_self, hx, hp]
  · rw [Function.update_of_ne hqp]

/-- Giving process `p` buf `b`, which no other call has, keeps the bufs apart. -/
theorem bufs_update {procs : τ → Proc β} (hbufs : ∀ p q b, (procs p).buf = some b → (procs q).buf = some b → p = q)
    {p : τ} {x : Proc β} {b : β} (hx : x.buf = some b ∨ x.buf = none) (hb : ∀ q, q ≠ p → (procs q).buf ≠ some b) :
    ∀ q r c, (Function.update procs p x q).buf = some c → (Function.update procs p x r).buf = some c → q = r := by
  -- a process other than `p` with `p`'s new buf is ruled out
  have hother : ∀ q c, q ≠ p → x.buf = some c → (procs q).buf ≠ some c := by
    intro q c hq hxc
    rcases hx with hx | hx
    · rw [hx] at hxc
      cases hxc
      exact hb q hq
    · rw [hx] at hxc
      cases hxc
  intro q r c hq hr
  by_cases hqp : q = p <;> by_cases hrp : r = p
  · exact hqp.trans hrp.symm
  · subst hqp
    rw [Function.update_self] at hq
    rw [Function.update_of_ne hrp] at hr
    exact absurd hr (hother r c hrp hq)
  · subst hrp
    rw [Function.update_self] at hr
    rw [Function.update_of_ne hqp] at hq
    exact absurd hq (hother q c hqp hr)
  · rw [Function.update_of_ne hqp] at hq
    rw [Function.update_of_ne hrp] at hr
    exact hbufs q r c hq hr

variable [DecidableEq β]

/-- A stretch from `alloc3_desc`, by a process that holds no chain, on a buf
no other call has, keeps the invariant. -/
theorem Inv.runAlloc (h : Inv s) {p : τ} {b : β} {write : Bool}
    (hp : s.procs p = .idle ∨ ∃ w, s.procs p = .allocating b w) (hb : ∀ q, q ≠ p → (s.procs q).buf ≠ some b) :
    Inv (s.runAlloc p b write) := by
  have hchain : (s.procs p).chain = [] := by
    rcases hp with hp | ⟨w, hp⟩ <;> rw [hp] <;> rfl
  have hnw : ∀ b' w' idx, s.procs p ≠ .waiting b' w' idx := by
    intro b' w' idx hw
    rcases hp with hp | ⟨w, hp⟩ <;> rw [hp] at hw <;> cases hw
  rcases alloc3Desc_spec s.disk with ⟨idx, hrun, hlen, hnd, hall⟩ | ⟨l, hrun, hl⟩
  · -- three free descriptors: the chain is submitted
    obtain ⟨i0, i1, i2, rfl⟩ : ∃ i0 i1 i2, idx = [i0, i1, i2] := by
      match idx, hlen with
      | [i0, i1, i2], _ => exact ⟨i0, i1, i2, rfl⟩
    simp only [Sys.runAlloc, hrun]
    have hlt : i0 < NUM ∧ i1 < NUM ∧ i2 < NUM := ⟨(hall i0 (by simp)).1, (hall i1 (by simp)).1, (hall i2 (by simp)).1⟩
    have hne : i0 ≠ i1 ∧ i0 ≠ i2 ∧ i1 ≠ i2 := by
      simp only [List.nodup_cons, List.mem_cons, List.not_mem_nil, or_false, not_or] at hnd
      exact ⟨hnd.1.1, hnd.1.2, hnd.2.1⟩
    obtain ⟨hlinked, hinfo⟩ := @submit_chain β (s.disk.taken [i0, i1, i2]) b write i0 i1 i2 hlt hne
    -- the descriptors taken were free, so in no chain and on no ring
    have hnotchain : ∀ q i, i ∈ (s.procs q).chain → i ∉ [i0, i1, i2] := fun q i hi hidx => by
      have hbusy := h.owns.busy q i hi
      rw [(hall i hidx).2] at hbusy
      cases hbusy
    have hnotring : ∀ x ∈ s.disk.avail ++ s.disk.used, x ≠ i0 := fun x hx hx0 => by
      have hbusy := h.busy_of_ring hx
      rw [hx0, (hall i0 (by simp)).2] at hbusy
      cases hbusy
    have hring : ∀ x, x ∈ (s.disk.avail ++ [i0]) ++ s.disk.used ↔ x = i0 ∨ x ∈ s.disk.avail ++ s.disk.used := by
      intro x
      simp only [List.mem_append, List.mem_singleton]
      tauto
    refine ⟨h.running, ?_, fun q b' w' idx hq => ?_, bufs_update h.bufs (.inl rfl) hb, ?_,
      fun x hx => ?_, fun q b' w' j0 j1 j2 hq => ?_, fun x hx => ?_⟩
    · exact (h.owns.acquire hchain fun i hi => (hall i hi).2).congr (fun _ => rfl)
        (fun q => Function.apply_update (fun _ => Proc.chain) s.procs p _ q)
    · dsimp only at hq ⊢
      by_cases hqp : q = p
      · subst hqp
        rw [Function.update_self] at hq
        cases hq
        exact ⟨i0, i1, i2, rfl, hlinked, hinfo⟩
      · rw [Function.update_of_ne hqp] at hq
        obtain ⟨j0, j1, j2, rfl, hlinked', hinfo'⟩ := h.chains q b' w' idx hq
        have hj0 : j0 ≠ i0 := fun hj => hnotchain q j0 (by rw [hq]; exact List.mem_cons_self) (by rw [hj]; exact List.mem_cons_self)
        refine ⟨j0, j1, j2, rfl, hlinked'.congr fun i hi => ?_, ?_⟩
        · exact submit_desc_of_not_mem (hnotchain q i (by rw [hq]; exact hi))
        · rw [submit_info_of_ne hj0]
          exact hinfo'
    · -- the head goes on the avail ring, where it was not
      show ((s.disk.avail ++ [i0]) ++ s.disk.used).Nodup
      rw [List.append_assoc, List.singleton_append]
      exact List.perm_middle.nodup_iff.mpr (List.nodup_cons.mpr ⟨fun hx => hnotring i0 hx rfl, h.rings⟩)
    · rcases (hring x).mp hx with rfl | hx
      · exact ⟨p, b, write, i1, i2, Function.update_self ..⟩
      · obtain ⟨q, b', w', j1, j2, hq⟩ := h.heads x hx
        have hqp : q ≠ p := fun hqp => hnw b' w' _ (hqp ▸ hq)
        exact ⟨q, b', w', j1, j2, (Function.update_of_ne hqp ..).trans hq⟩
    · show Function.update s.bufDisk b true b' = true ↔ j0 ∈ (s.disk.avail ++ [i0]) ++ s.disk.used
      by_cases hqp : q = p
      · subst hqp
        have hq' : Function.update s.procs q (Proc.waiting b write [i0, i1, i2]) q = _ := hq
        rw [Function.update_self] at hq'
        cases hq'
        rw [Function.update_self]
        exact iff_of_true rfl ((hring i0).mpr (.inl rfl))
      · have hq' : s.procs q = .waiting b' w' [j0, j1, j2] := (Function.update_of_ne hqp ..).symm.trans hq
        -- another request: another buf, another head
        have hbb : b' ≠ b := fun hbb => hb q hqp (by rw [hq', ← hbb]; rfl)
        have hj0 : j0 ≠ i0 := fun hj => hnotchain q j0 (by rw [hq']; exact List.mem_cons_self) (by rw [hj]; exact List.mem_cons_self)
        rw [Function.update_of_ne hbb, hring, h.done q b' w' j0 j1 j2 hq']
        exact ⟨.inr, fun hj => hj.resolve_left hj0⟩
    · show ((submit (s.disk.taken [i0, i1, i2]) b write [i0, i1, i2]).info x).status = 0
      have hx' : x ∈ s.disk.avail ++ s.disk.used := List.mem_append_right _ hx
      rw [submit_info_of_ne (hnotring x hx')]
      exact h.status x hx
  · -- no three free: the ones taken are given back
    simp only [Sys.runAlloc, hrun]
    have hnotl : ∀ q i, i ∈ (s.procs q).chain → i ∉ l := fun q i hi hil => by
      have hbusy := h.owns.busy q i hi
      rw [hl i hil] at hbusy
      cases hbusy
    have hx : ∀ b' w' idx, (Proc.allocating b write : Proc β) ≠ .waiting b' w' idx := fun _ _ _ hx => by cases hx
    refine ⟨h.running, ?_, fun q b' w' idx hq => ?_, bufs_update h.bufs (.inl rfl) hb, h.rings,
      fun x hx' => ?_, fun q b' w' j0 j1 j2 hq => ?_, h.status⟩
    · exact h.owns.congr (fun i => congrFun (freed_taken hl) i)
        (chain_update_of_nil (Proc.chain_eq_nil hx) hchain)
    · obtain ⟨-, hq⟩ := waiting_of_update hx hq
      obtain ⟨j0, j1, j2, rfl, hlinked, hinfo⟩ := h.chains q b' w' idx hq
      refine ⟨j0, j1, j2, rfl, hlinked.congr fun i hi => ?_, hinfo⟩
      -- a chain's descriptors were busy, so not among those given back
      have hil := hnotl q i (by rw [hq]; exact hi)
      simp [hil]
    · obtain ⟨q, b', w', i1, i2, hq⟩ := h.heads x hx'
      have hqp : q ≠ p := fun hqp => hnw b' w' _ (hqp ▸ hq)
      exact ⟨q, b', w', i1, i2, (Function.update_of_ne hqp ..).trans hq⟩
    · exact h.done q b' w' j0 j1 j2 (waiting_of_update hx hq).2

omit [DecidableEq β] in
/-- A stretch woken on `b`, by the request that holds a chain, keeps the
invariant: asleep again while `b->disk` is `1`, and otherwise its chain is
off both rings and freed. -/
theorem Inv.runFinish (h : Inv s) {p : τ} {b : β} {write : Bool} {idx : List Nat}
    (hp : s.procs p = .waiting b write idx) : Inv (s.runFinish p b idx) := by
  unfold Sys.runFinish
  split_ifs with hdisk
  · exact h
  obtain ⟨i0, i1, i2, rfl, hlinked, -⟩ := h.chains p b write idx hp
  have hoff : i0 ∉ s.disk.avail ++ s.disk.used := fun hmem => hdisk ((h.done p b write i0 i1 i2 hp).mpr hmem)
  have hheld : (s.procs p).chain = [i0, i1, i2] := by rw [hp]; rfl
  have hbusy : ∀ i ∈ [i0, i1, i2], s.disk.free i = false := fun i hi => h.busy_of_waiting hp hi
  dsimp only [List.getD_cons_zero]
  split
  · rename_i msg hfc
    cases hfc.symm.trans (freeChain_chain hlinked hbusy)
  rename_i disk' hfc
  cases hfc.symm.trans (freeChain_chain hlinked hbusy)
  -- another request's chain is apart from this one
  have happart : ∀ q, q ≠ p → ∀ i ∈ (s.procs q).chain, i ∉ [i0, i1, i2] := fun q hqp i hi hi' =>
    hqp (h.eq_of_mem_chain hi (by rw [hheld]; exact hi'))
  have hx : ∀ b' w' idx', (Proc.idle : Proc β) ≠ .waiting b' w' idx' := fun _ _ _ hx => by cases hx
  refine ⟨h.running, ?_, fun q b' w' idx' hq => ?_,
    bufs_update h.bufs (.inr rfl) fun q hqp hqb => hqp (h.bufs q p b hqb (by rw [hp]; rfl)), h.rings,
    fun x hx' => ?_, fun q b' w' j0 j1 j2 hq => h.done q b' w' j0 j1 j2 (waiting_of_update hx hq).2,
    fun x hx' => ?_⟩
  · refine (h.owns.release p).congr (fun i => ?_) (fun q => Function.apply_update (fun _ => Proc.chain) s.procs p _ q)
    rw [hheld]
    rfl
  · obtain ⟨hqp, hq⟩ := waiting_of_update hx hq
    obtain ⟨j0, j1, j2, rfl, hlinked', hinfo'⟩ := h.chains q b' w' idx' hq
    have hj0 : j0 ≠ i0 := fun hj => happart q hqp j0 (by rw [hq]; exact List.mem_cons_self)
      (by rw [hj]; exact List.mem_cons_self)
    refine ⟨j0, j1, j2, rfl, hlinked'.congr fun i hi => ?_, ?_⟩
    · simp [happart q hqp i (by rw [hq]; exact hi)]
    · show (Function.update s.disk.info i0 _ j0).b = some b'
      rw [Function.update_of_ne hj0]
      exact hinfo'
  · obtain ⟨q, b', w', j1, j2, hq⟩ := h.heads x hx'
    -- the request on the ring is not `p`, whose chain is off both
    have hqp : q ≠ p := by
      rintro rfl
      rw [hp] at hq
      cases hq
      exact hoff hx'
    exact ⟨q, b', w', j1, j2, (Function.update_of_ne hqp ..).trans hq⟩
  · show (Function.update s.disk.info i0 _ x).status = 0
    by_cases hxi : x = i0
    · subst hxi
      rw [Function.update_self]
      exact h.status x hx'
    · rw [Function.update_of_ne hxi]
      exact h.status x hx'

omit [DecidableEq τ] [DecidableEq β] in
/-- The device completing a chain on the avail ring keeps the invariant. -/
theorem Inv.complete (h : Inv s) {head : Nat} (hhead : head ∈ s.disk.avail) :
    Inv { s with disk := s.disk.complete head } := by
  obtain ⟨p, b, write, i1, i2, hp⟩ := h.heads head (List.mem_append_left _ hhead)
  obtain ⟨i0, j1, j2, hidx, hlinked, -⟩ := h.chains p b write _ hp
  cases hidx
  rw [complete_chain hlinked]
  -- the chain moves from one ring to the other
  have hperm : List.Perm (s.disk.avail.erase head ++ (s.disk.used ++ [head])) (s.disk.avail ++ s.disk.used) :=
    calc List.Perm _ (s.disk.avail.erase head ++ (head :: s.disk.used)) := List.Perm.append_left _ List.perm_append_comm
      List.Perm _ (head :: (s.disk.avail.erase head ++ s.disk.used)) := List.perm_middle
      List.Perm _ (s.disk.avail ++ s.disk.used) := ((List.perm_cons_erase hhead).append_right _).symm
  refine ⟨h.running, h.owns, fun q b' w' idx hq => ?_, h.bufs, hperm.nodup_iff.mpr h.rings,
    fun x hx => h.heads x (hperm.mem_iff.mp hx), fun q b' w' j0 j1 j2 hq => ?_, fun x hx => ?_⟩
  · -- only the status byte at the head is written
    obtain ⟨j0, j1, j2, rfl, hlinked', hinfo'⟩ := h.chains q b' w' idx hq
    refine ⟨j0, j1, j2, rfl, hlinked', ?_⟩
    show (Function.update s.disk.info head _ j0).b = some b'
    by_cases hj : j0 = head
    · subst hj
      rw [Function.update_self]
      exact hinfo'
    · rw [Function.update_of_ne hj]
      exact hinfo'
  · exact (h.done q b' w' j0 j1 j2 hq).trans hperm.mem_iff.symm
  · show (Function.update s.disk.info head _ x).status = 0
    by_cases hx' : x = head
    · subst hx'
      rw [Function.update_self]
    · rw [Function.update_of_ne hx']
      rcases List.mem_append.mp hx with hx | hx
      · exact h.status x hx
      · exact absurd (List.mem_singleton.mp hx) hx'

omit [DecidableEq τ] in
/-- `virtio_disk_intr` keeps the invariant: each used chain's request has
`b->disk = 0`, and no other. -/
theorem Inv.intr (h : Inv s) : Inv s.runIntr := by
  -- a used chain is a request's, with status `0` and its buf recorded
  have hused : ∀ id ∈ s.disk.used, (s.disk.info id).status = 0 ∧ (s.disk.info id).b ≠ none := by
    intro id hid
    obtain ⟨p, b, write, i1, i2, hp⟩ := h.heads id (List.mem_append_right _ hid)
    obtain ⟨j0, j1, j2, hidx, -, hinfo⟩ := h.chains p b write _ hp
    cases hidx
    exact ⟨h.status id hid, by rw [hinfo]; exact Option.some_ne_none b⟩
  obtain ⟨bufDisk', hrun, hdone, hrest⟩ := intrLoop_ok s.bufDisk hused
  simp only [Sys.runIntr, hrun]
  have hsub : List.Sublist (s.disk.avail ++ []) (s.disk.avail ++ s.disk.used) :=
    (List.nil_sublist s.disk.used).append_left s.disk.avail
  refine ⟨h.running, h.owns, h.chains, h.bufs, h.rings.sublist hsub,
    fun x hx => h.heads x (hsub.subset hx), fun q b write j0 j1 j2 hq => ?_, fun x hx => absurd hx List.not_mem_nil⟩
  obtain ⟨k0, k1, k2, hidx, -, hinfo⟩ := h.chains q b write _ hq
  cases hidx
  show bufDisk' b = true ↔ j0 ∈ s.disk.avail ++ []
  by_cases hj : j0 ∈ s.disk.used
  · -- done: marked, and off the avail ring
    have hnot : j0 ∉ s.disk.avail := fun ha =>
      (List.nodup_append.mp h.rings).2.2 j0 ha j0 hj rfl
    rw [hdone j0 hj b hinfo, List.append_nil]
    exact iff_of_false Bool.false_ne_true hnot
  · -- not done: no used chain is this request's, whose buf no other has
    have hother : ∀ id ∈ s.disk.used, (s.disk.info id).b ≠ some b := by
      intro id hid hb
      obtain ⟨r, b', w', l1, l2, hr⟩ := h.heads id (List.mem_append_right _ hid)
      obtain ⟨m0, m1, m2, hidx, -, hinfo'⟩ := h.chains r b' w' _ hr
      cases hidx
      rw [hinfo'] at hb
      cases hb
      have hrq : r = q := h.bufs r q b (by rw [hr]; rfl) (by rw [hq]; rfl)
      subst hrq
      rw [hr] at hq
      cases hq
      exact hj hid
    rw [hrest b hother, h.done q b write j0 j1 j2 hq, List.append_nil, List.mem_append]
    exact or_iff_left hj

omit [DecidableEq τ] [DecidableEq β] in
theorem inv_init (bufDisk : β → Bool) : Inv (Sys.init bufDisk : Sys τ β) where
  running := rfl
  owns := ⟨fun _ _ hi => absurd hi List.not_mem_nil, fun _ _ _ hi => absurd hi List.not_mem_nil,
    fun i hi hbusy => absurd hbusy (by simp [Sys.init, hi])⟩
  chains := fun _ _ _ _ hp => by cases hp
  bufs := fun _ _ _ hp => by cases hp
  rings := List.nodup_nil
  heads := fun _ hx => absurd hx List.not_mem_nil
  done := fun _ _ _ _ _ _ hp => by cases hp
  status := fun _ hx => absurd hx List.not_mem_nil

/-- **One allowed step keeps the invariant.** -/
theorem Inv.step (h : Inv s) {c : Call τ β} (hc : c.Allowed s) {s' : Sys τ β}
    (hstep : Virtio.step s c = some s') : Inv s' := by
  have hrun : s.panicked.isSome = false := by rw [h.running]; rfl
  cases c with
  | rw p b write =>
    simp only [Virtio.step, hrun, Bool.false_eq_true, if_false] at hstep
    split at hstep
    · rename_i hp
      cases hstep
      exact h.runAlloc (.inl hp) fun q _ => hc q
    · cases hstep
  | wake p =>
    simp only [Virtio.step, hrun, Bool.false_eq_true, if_false] at hstep
    split at hstep
    · rename_i b write hp
      cases hstep
      -- `p` has `b`, so no other call does
      exact h.runAlloc (.inr ⟨write, hp⟩) fun q hqp hqb => hqp (h.bufs q p b hqb (by rw [hp]; rfl))
    · rename_i b write idx hp
      cases hstep
      exact h.runFinish hp
    · cases hstep
  | complete k =>
    simp only [Virtio.step, hrun, Bool.false_eq_true, if_false] at hstep
    split at hstep
    · rename_i head hk
      cases hstep
      exact h.complete (List.mem_of_getElem? hk)
    · cases hstep
  | intr =>
    simp only [Virtio.step, hrun, Bool.false_eq_true, if_false, Option.some.injEq] at hstep
    subst hstep
    exact h.intr

theorem reach_inv {bufDisk : β → Bool} {s : Sys τ β} (h : Reach bufDisk s) : Inv s := by
  induction h with
  | init => exact inv_init bufDisk
  | step c _ hc hstep ih => exact ih.step hc hstep

end Inv

/-- Neither ring holds more than `NUM` chains: each is a busy descriptor's,
once. -/
theorem Inv.rings_le {s : Sys τ β} (h : Inv s) : (s.disk.avail ++ s.disk.used).length ≤ NUM := by
  have hsub : s.disk.avail ++ s.disk.used ⊆ List.range NUM := fun x hx => by
    obtain ⟨p, b, write, i1, i2, hp⟩ := h.heads x hx
    obtain ⟨j0, j1, j2, hidx, hlinked, -⟩ := h.chains p b write _ hp
    cases hidx
    exact List.mem_range.mpr hlinked.lt.1
  simpa using h.rings.length_le_of_subset hsub

variable [DecidableEq τ] [DecidableEq β]

/-- **Every descriptor is free or in exactly one request's chain**, over any
interleaving of requests, device completions and interrupts: nothing
panics; a request's chain is three descriptors, linked as it formatted
them, with its buf in `disk.info[head].b`, and `free_chain` of its head
frees exactly those three; a failed `alloc3_desc` leaves the free marks as
they were; and the rings hold at most `NUM` chains. -/
theorem virtio_descriptor_ownership {bufDisk : β → Bool} {s : Sys τ β} (h : Reach bufDisk s) :
    s.panicked = none ∧
      (∀ i < NUM, s.disk.free i = true ∨ ∃! p, i ∈ (s.procs p).chain) ∧
      (∀ p b write idx, s.procs p = .waiting b write idx →
        ∃ i0 i1 i2, idx = [i0, i1, i2] ∧ Linked s.disk.desc b write i0 i1 i2 ∧ (s.disk.info i0).b = some b ∧
          freeChain s.disk i0 = .ok (s.disk.freed idx)) ∧
      (∀ disk', alloc3Desc s.disk = .ok (disk', none) → disk'.free = s.disk.free) ∧
      (s.disk.avail ++ s.disk.used).length ≤ NUM := by
  have hinv := reach_inv h
  refine ⟨hinv.running, fun i hi => hinv.owns.free_or_unique hi, fun p b write idx hp => ?_,
    fun _ hnone => alloc3Desc_none_free hnone, hinv.rings_le⟩
  obtain ⟨i0, i1, i2, rfl, hlinked, hinfo⟩ := hinv.chains p b write idx hp
  exact ⟨i0, i1, i2, rfl, hlinked, hinfo, freeChain_chain hlinked fun i hi => hinv.busy_of_waiting hp hi⟩

/-- `virtio_disk_rw` of buf `0` from boot. -/
def firstRequest : Sys Unit Nat := (Sys.init fun _ => false).runAlloc () 0 false

/-- The first request holds descriptors `0 1 2`, and `free_chain` of `0`
frees them. -/
theorem virtio_descriptor_ownership_first :
    Reach (fun _ => false) firstRequest ∧ firstRequest.procs () = .waiting 0 false [0, 1, 2] ∧
      freeChain firstRequest.disk 0 = .ok (firstRequest.disk.freed [0, 1, 2]) := by
  have hreach : Reach (fun _ => false) firstRequest :=
    Reach.step (.rw () 0 false) Reach.init (fun _ hq => by cases hq) rfl
  have hproc : firstRequest.procs () = .waiting 0 false [0, 1, 2] := rfl
  obtain ⟨-, -, hchains, -⟩ := virtio_descriptor_ownership hreach
  obtain ⟨i0, i1, i2, hidx, -, -, hfree⟩ := hchains () 0 false [0, 1, 2] hproc
  simp only [List.cons.injEq, and_true] at hidx
  obtain ⟨rfl, rfl, rfl⟩ := hidx
  exact ⟨hreach, hproc, hfree⟩

end Virtio

end Mkros
