import Mathlib.Data.List.Nodup
import Mkros.Fs.DataSpec
/-!
# The block map of a file, from `bmap` to `itrunc`

`fileBlocks` lists the blocks a file holds: those `blockOf` finds, in the
order of the block numbers, then the indirect block. `itrunc` frees exactly
these, in this order (`itrunc_eq`), and on a sound file, where they are
marked and all different, each once and without a panic (`Sound.itrunc`).

Along a run of `readi`, `writei` and `itrunc` calls from a file without
blocks, the file stays well formed (`FileInv`), so that no call panics and
`bmap` never reaches `bmap: out of range`. What `bmap` allocates stays in
the file (`Extends`): a block whose bit a run sets is a block of the file,
and one the file gains was free. A block the file has stays where it is
until `itrunc` (`Wf.runCalls_extends`). So the blocks `itrunc` frees are the
blocks the run allocated (`bmap_stable_injective`).
-/

namespace Mkros

namespace Fs

/-! ## `bfree` of a list of blocks -/

/-- `bfree` of each block of `bs` in turn. -/
def bfreeAll (dev : BlockDev) (bs : List Nat) : Except String BlockDev := bs.foldlM bfree dev

/-- `bfree` of a block in use clears its bit. -/
theorem bfree_ok {dev : BlockDev} {b : Nat} (h : dev.used b = true) :
    bfree dev b = .ok { dev with used := Function.update dev.used b false } := by
  simp [bfree, h]

theorem bfreeAll_append (dev : BlockDev) (bs cs : List Nat) :
    bfreeAll dev (bs ++ cs) = bfreeAll dev bs >>= fun dev' => bfreeAll dev' cs :=
  List.foldlM_append

/-- **Freeing distinct blocks in use** clears their bits and nothing else. -/
theorem bfreeAll_of_used : ∀ {dev : BlockDev} {bs : List Nat}, bs.Nodup → (∀ b ∈ bs, dev.used b = true) →
    bfreeAll dev bs = .ok { dev with used := fun b => dev.used b && !decide (b ∈ bs) }
  | dev, [], _, _ => by
    simp only [bfreeAll, List.foldlM_nil, List.not_mem_nil, decide_false, Bool.not_false, Bool.and_true]
    rfl
  | dev, b :: bs, hnd, hused => by
    obtain ⟨hb, hnd'⟩ := List.nodup_cons.mp hnd
    -- the blocks after `b` are still in use once `b` is freed
    have hrest : ∀ c ∈ bs, (Function.update dev.used b false) c = true := by
      intro c hc
      rw [Function.update_of_ne (fun h => hb (by rw [← h]; exact hc))]
      exact hused c (List.mem_cons_of_mem b hc)
    rw [bfreeAll, List.foldlM_cons, bfree_ok (hused b List.mem_cons_self)]
    change bfreeAll _ bs = _
    rw [bfreeAll_of_used hnd' hrest]
    congr 2
    funext c
    by_cases hcb : c = b
    · subst hcb
      simp
    · simp [hcb]

/-- `bfree` changes no block's bytes. -/
theorem bfreeAll_data : ∀ {dev dev' : BlockDev} {bs : List Nat}, bfreeAll dev bs = .ok dev' →
    dev'.size = dev.size ∧ dev'.data = dev.data
  | dev, dev', [], h => by
    simp only [bfreeAll, List.foldlM_nil, pure, Except.pure, Except.ok.injEq] at h
    rw [h]
    exact ⟨rfl, rfl⟩
  | dev, dev', b :: bs, h => by
    rw [bfreeAll, List.foldlM_cons] at h
    by_cases hb : dev.used b = true
    · rw [bfree_ok hb] at h
      have h' : bfreeAll { dev with used := Function.update dev.used b false } bs = .ok dev' := h
      obtain ⟨hsize, hdata⟩ := bfreeAll_data h'
      exact ⟨hsize, hdata⟩
    · have he : bfree dev b = .error "freeing free block" := by simp [bfree, hb]
      rw [he] at h
      cases h

/-! ## `itrunc` frees the file's blocks in order -/

/-- **The blocks of the file**: those it lists, in the order of the block
numbers, then its indirect block. -/
def fileBlocks (ip : FileInode) (dev : BlockDev) : List Nat :=
  ((List.range MAXFILE).map (blockOf ip dev)).filter (· ≠ 0) ++
    if ip.addrs NDIRECT ≠ 0 then [ip.addrs NDIRECT] else []

/-- What `itrunc` leaves of the inode: size `0` and every slot of `addrs`
cleared. -/
def truncated (ip : FileInode) : FileInode := ⟨0, fun i => if i ≤ NDIRECT then 0 else ip.addrs i⟩

/-- The loop over the indirect block frees its nonzero entries. -/
theorem foldlM_freeEntry (a : Bytes) : ∀ (js : List Nat) (dev : BlockDev),
    js.foldlM (freeEntry a) dev = bfreeAll dev ((js.map (getEntry a)).filter (· ≠ 0))
  | [], _ => rfl
  | j :: js, dev => by
    rw [List.foldlM_cons, List.map_cons]
    by_cases h : getEntry a j = 0
    · rw [List.filter_cons_of_neg (by simp [h]), freeEntry, if_neg (by simp [h])]
      exact foldlM_freeEntry a js dev
    · rw [List.filter_cons_of_pos (by simp [h]), freeEntry, if_pos h, bfreeAll, List.foldlM_cons]
      cases bfree dev (getEntry a j) with
      | error e => rfl
      | ok dev' => exact foldlM_freeEntry a js dev'

/-- The loop over the direct blocks frees the nonzero ones and clears their
slots; each slot is read before any is cleared, as the indices differ. -/
theorem foldlM_freeDirect : ∀ (is : List Nat) (ip : FileInode) (dev : BlockDev), is.Nodup →
    is.foldlM freeDirect (ip, dev) =
      (fun dev' => ({ ip with addrs := fun i => if i ∈ is then 0 else ip.addrs i }, dev')) <$>
        bfreeAll dev ((is.map ip.addrs).filter (· ≠ 0))
  | [], ip, dev, _ => by
    simp [bfreeAll]
  | i :: is, ip, dev, hnd => by
    obtain ⟨hi, hnd'⟩ := List.nodup_cons.mp hnd
    rw [List.foldlM_cons, List.map_cons]
    by_cases h : ip.addrs i = 0
    · have haddrs : (fun k => if k ∈ is then 0 else ip.addrs k) = fun k => if k ∈ i :: is then 0 else ip.addrs k := by
        funext k
        by_cases hk : k = i
        · simp [hk, h]
        · simp [hk]
      rw [List.filter_cons_of_neg (by simp [h]), freeDirect, if_neg (by simp [h])]
      change is.foldlM freeDirect (ip, dev) = _
      rw [foldlM_freeDirect is ip dev hnd', haddrs]
    · have haddrs : (fun k => if k ∈ is then 0 else Function.update ip.addrs i 0 k) =
          fun k => if k ∈ i :: is then 0 else ip.addrs k := by
        funext k
        by_cases hk : k = i
        · simp [hk]
        · simp [hk]
      -- the rest of the loop reads the slots after `i`, which it did not clear
      have hrest : is.map (Function.update ip.addrs i 0) = is.map ip.addrs :=
        List.map_congr_left fun k hk => Function.update_of_ne (fun h => hi (by rw [← h]; exact hk)) _ _
      rw [List.filter_cons_of_pos (by simp [h]), freeDirect, if_pos h, bfreeAll, List.foldlM_cons]
      cases bfree dev (ip.addrs i) with
      | error e => rfl
      | ok dev' =>
        change is.foldlM freeDirect ({ ip with addrs := Function.update ip.addrs i 0 }, dev') =
          _ <$> bfreeAll dev' _
        rw [foldlM_freeDirect is _ dev' hnd']
        change _ <$> bfreeAll dev' ((is.map (Function.update ip.addrs i 0)).filter (· ≠ 0)) = _
        rw [hrest, ← haddrs]

/-- The file's blocks as `itrunc` meets them: the direct ones, then, where
there is an indirect block, its entries and the block itself. -/
theorem fileBlocks_eq (ip : FileInode) (dev : BlockDev) :
    fileBlocks ip dev = ((List.range NDIRECT).map ip.addrs).filter (· ≠ 0) ++
      if ip.addrs NDIRECT ≠ 0 then
        ((List.range NINDIRECT).map (getEntry (dev.data (ip.addrs NDIRECT)))).filter (· ≠ 0) ++ [ip.addrs NDIRECT]
      else [] := by
  have hdirect : (List.range NDIRECT).map (blockOf ip dev) = (List.range NDIRECT).map ip.addrs :=
    List.map_congr_left fun bn hbn => if_pos (List.mem_range.mp hbn)
  have hindirect : ((List.range NINDIRECT).map fun j => blockOf ip dev (NDIRECT + j)) =
      (List.range NINDIRECT).map fun j =>
        if ip.addrs NDIRECT = 0 then 0 else getEntry (dev.data (ip.addrs NDIRECT)) j := by
    apply List.map_congr_left
    intro j _
    rw [blockOf, if_neg (by omega), Nat.add_sub_cancel_left]
  rw [fileBlocks, MAXFILE, List.range_add, List.map_append, List.map_map, List.filter_append, hdirect]
  change _ ++ ((List.range NINDIRECT).map fun j => blockOf ip dev (NDIRECT + j)).filter _ ++ _ = _
  rw [hindirect, List.append_assoc]
  by_cases h : ip.addrs NDIRECT = 0
  · simp [h]
  · simp only [h, if_false, ne_eq, not_false_eq_true, if_true]

/-- **`itrunc` is `bfree` of the file's blocks in turn**, and leaves the
inode cleared. -/
theorem itrunc_eq (ip : FileInode) (dev : BlockDev) :
    itrunc ip dev = (fun dev' => (truncated ip, dev')) <$> bfreeAll dev (fileBlocks ip dev) := by
  unfold itrunc
  rw [foldlM_freeDirect _ ip dev List.nodup_range, fileBlocks_eq, bfreeAll_append]
  cases hd : bfreeAll dev (((List.range NDIRECT).map ip.addrs).filter (· ≠ 0)) with
  | error e => rfl
  | ok dev₁ =>
    have hdata := (bfreeAll_data hd).2
    simp only [Functor.map, Except.map, bind, Except.bind, List.mem_range, Nat.lt_irrefl, if_false]
    by_cases h : ip.addrs NDIRECT = 0
    · -- no indirect block: the direct slots were all there was
      have hcl : (⟨0, fun i => if i < NDIRECT then 0 else ip.addrs i⟩ : FileInode) = truncated ip := by
        unfold truncated
        congr 1
        funext i
        by_cases hi : i = NDIRECT
        · simp [hi, h]
        · by_cases hlt : i < NDIRECT
          · simp [hlt, Nat.le_of_lt hlt]
          · simp [hlt, show ¬i ≤ NDIRECT by omega]
      simp only [h, ne_eq, not_true_eq_false, if_false]
      rw [hcl]
      rfl
    · have hcl : (⟨0, Function.update (fun i => if i < NDIRECT then 0 else ip.addrs i) NDIRECT 0⟩ : FileInode) =
          truncated ip := by
        unfold truncated
        congr 1
        funext i
        by_cases hi : i = NDIRECT
        · simp [hi]
        · by_cases hlt : i < NDIRECT
          · simp [hi, hlt, Nat.le_of_lt hlt]
          · simp [hi, hlt, show ¬i ≤ NDIRECT by omega]
      simp only [h, ne_eq, not_false_eq_true, if_true]
      rw [hdata, foldlM_freeEntry, bfreeAll_append]
      cases bfreeAll dev₁ (((List.range NINDIRECT).map (getEntry (dev.data (ip.addrs NDIRECT)))).filter (· ≠ 0)) with
      | error e => rfl
      | ok dev₂ =>
        cases hb : bfree dev₂ (ip.addrs NDIRECT) with
        | error e => simp only [bfreeAll, List.foldlM_cons, hb, bind, Except.bind]
        | ok dev₃ =>
          simp only [bfreeAll, List.foldlM_cons, List.foldlM_nil, hb, bind, Except.bind, pure, Except.pure]
          rw [← hcl]

/-! ## On a sound file -/

section Sound

variable {ip ip' : FileInode} {dev dev' : BlockDev}

theorem mem_fileBlocks {b : Nat} :
    b ∈ fileBlocks ip dev ↔ b ≠ 0 ∧ ((∃ bn < MAXFILE, blockOf ip dev bn = b) ∨ ip.addrs NDIRECT = b) := by
  rw [fileBlocks, List.mem_append, List.mem_filter, List.mem_map]
  constructor
  · rintro (⟨⟨bn, hbn, rfl⟩, h0⟩ | hind)
    · exact ⟨by simpa using h0, Or.inl ⟨bn, List.mem_range.mp hbn, rfl⟩⟩
    · by_cases h : ip.addrs NDIRECT = 0
      · simp [h] at hind
      · rw [if_pos h, List.mem_singleton] at hind
        exact ⟨hind ▸ h, Or.inr hind.symm⟩
  · rintro ⟨h0, ⟨bn, hbn, rfl⟩ | rfl⟩
    · exact Or.inl ⟨⟨bn, List.mem_range.mpr hbn, rfl⟩, by simpa using h0⟩
    · exact Or.inr (by simp [h0])

/-- Only the blocks the file lists, and its indirect block, are its blocks. -/
theorem fileBlocks_congr (hblk : ∀ bn, blockOf ip' dev' bn = blockOf ip dev bn)
    (hind : ip'.addrs NDIRECT = ip.addrs NDIRECT) : fileBlocks ip' dev' = fileBlocks ip dev := by
  unfold fileBlocks
  rw [hind, List.map_congr_left fun bn _ => hblk bn]

theorem Sound.fileBlocks_used (hs : Sound ip dev) : ∀ b ∈ fileBlocks ip dev, dev.used b = true := by
  intro b hb
  obtain ⟨h0, ⟨bn, hbn, rfl⟩ | rfl⟩ := mem_fileBlocks.mp hb
  · exact hs.marked bn hbn h0
  · exact hs.indMarked h0

/-- **A sound file lists each block once.** -/
theorem Sound.fileBlocks_nodup (hs : Sound ip dev) : (fileBlocks ip dev).Nodup := by
  rw [fileBlocks, List.nodup_append]
  refine ⟨?_, by split <;> simp, ?_⟩
  · rw [List.filter_map]
    refine List.Nodup.map_on (fun bn hbn bn' hbn' heq => ?_) (List.nodup_range.filter _)
    obtain ⟨hbn, h0⟩ := List.mem_filter.mp hbn
    obtain ⟨hbn', -⟩ := List.mem_filter.mp hbn'
    by_contra hne
    exact hs.distinct bn (List.mem_range.mp hbn) bn' (List.mem_range.mp hbn') hne (by simpa using h0) heq
  · -- the indirect block is none of the blocks it lists
    intro a ha b hb
    rw [List.mem_filter, List.mem_map] at ha
    obtain ⟨⟨bn, hbn, rfl⟩, -⟩ := ha
    by_cases hind : ip.addrs NDIRECT = 0
    · simp [hind] at hb
    · rw [if_pos hind, List.mem_singleton] at hb
      rw [hb]
      exact hs.indApart bn (List.mem_range.mp hbn) hind

/-- **`itrunc` of a sound file** frees each of its blocks once, without a
panic: their bits cleared, the inode cleared. -/
theorem Sound.itrunc (hs : Sound ip dev) :
    itrunc ip dev = .ok (truncated ip, { dev with used := fun b => dev.used b && !decide (b ∈ fileBlocks ip dev) }) := by
  rw [itrunc_eq, bfreeAll_of_used hs.fileBlocks_nodup hs.fileBlocks_used]
  rfl

end Sound

/-! ## What `bmap` allocates stays in the file -/

/-- **`ip', dev'` extend `ip, dev`**: each bit set since, but block `0`'s,
is that of a block of the file; each block the file gained was free; and
the file's blocks, its indirect block and the slots past it stay. -/
structure Extends (ip : FileInode) (dev : BlockDev) (ip' : FileInode) (dev' : BlockDev) : Prop where
  used : ∀ b, b ≠ 0 → (dev'.used b = true ↔ dev.used b = true ∨ b ∈ fileBlocks ip' dev')
  fresh : ∀ b ∈ fileBlocks ip' dev', b ∈ fileBlocks ip dev ∨ dev.used b = false
  blocks : ∀ bn < MAXFILE, blockOf ip dev bn ≠ 0 → blockOf ip' dev' bn = blockOf ip dev bn
  ind : ip.addrs NDIRECT ≠ 0 → ip'.addrs NDIRECT = ip.addrs NDIRECT
  slots : ∀ i, NDIRECT < i → ip'.addrs i = ip.addrs i

section Extends

variable {ip ip₁ ip₂ ip₃ : FileInode} {dev dev₁ dev₂ dev₃ : BlockDev}

theorem Extends.keep (he : Extends ip₁ dev₁ ip₂ dev₂) {b : Nat} (hb : b ∈ fileBlocks ip₁ dev₁) :
    b ∈ fileBlocks ip₂ dev₂ := by
  obtain ⟨h0, ⟨bn, hbn, rfl⟩ | rfl⟩ := mem_fileBlocks.mp hb
  · exact mem_fileBlocks.mpr ⟨h0, Or.inl ⟨bn, hbn, he.blocks bn hbn h0⟩⟩
  · exact mem_fileBlocks.mpr ⟨h0, Or.inr (he.ind h0)⟩

theorem Extends.trans (h₁ : Extends ip₁ dev₁ ip₂ dev₂) (h₂ : Extends ip₂ dev₂ ip₃ dev₃) :
    Extends ip₁ dev₁ ip₃ dev₃ where
  used b hb := by
    rw [h₂.used b hb, h₁.used b hb]
    constructor
    · rintro ((h | h) | h)
      · exact Or.inl h
      · exact Or.inr (h₂.keep h)
      · exact Or.inr h
    · rintro (h | h)
      · exact Or.inl (Or.inl h)
      · exact Or.inr h
  fresh b hb := by
    rcases h₂.fresh b hb with h | h
    · exact h₁.fresh b h
    · -- free in the middle, so free before: a step only sets bits
      refine Or.inr ?_
      cases hu : dev₁.used b
      · rfl
      · have hset := (h₁.used b (mem_fileBlocks.mp hb).1).mpr (Or.inl hu)
        rw [h] at hset
        exact absurd hset Bool.false_ne_true
  blocks bn hbn h := (h₂.blocks bn hbn (by rw [h₁.blocks bn hbn h]; exact h)).trans (h₁.blocks bn hbn h)
  ind h := (h₂.ind (by rw [h₁.ind h]; exact h)).trans (h₁.ind h)
  slots i hi := (h₂.slots i hi).trans (h₁.slots i hi)

/-- A step that allocates nothing: the bits but block `0`'s and the blocks
as they were. -/
theorem Sound.extends_of_same (hs : Sound ip₁ dev₁) (hused : ∀ b, b ≠ 0 → dev₂.used b = dev₁.used b)
    (hblk : ∀ bn, blockOf ip₂ dev₂ bn = blockOf ip₁ dev₁ bn) (hind : ip₂.addrs NDIRECT = ip₁.addrs NDIRECT)
    (hslots : ∀ i, NDIRECT < i → ip₂.addrs i = ip₁.addrs i) : Extends ip₁ dev₁ ip₂ dev₂ where
  used b hb := by
    rw [hused b hb, fileBlocks_congr hblk hind]
    exact ⟨Or.inl, fun h => h.elim id (hs.fileBlocks_used b)⟩
  fresh b hb := Or.inl (by rwa [fileBlocks_congr hblk hind] at hb)
  blocks bn _ _ := hblk bn
  ind _ := hind
  slots := hslots

/-- A step that sets the bit of the free block `a` and adds it to the file. -/
theorem Sound.extends_of_alloc {a : Nat} (hs : Sound ip₁ dev₁)
    (hused : ∀ b, b ≠ 0 → (dev₂.used b = true ↔ dev₁.used b = true ∨ b = a)) (hfree : dev₁.used a = false)
    (hfb : ∀ b, b ∈ fileBlocks ip₂ dev₂ ↔ b ∈ fileBlocks ip₁ dev₁ ∨ b = a)
    (hblk : ∀ bn < MAXFILE, blockOf ip₁ dev₁ bn ≠ 0 → blockOf ip₂ dev₂ bn = blockOf ip₁ dev₁ bn)
    (hind : ip₁.addrs NDIRECT ≠ 0 → ip₂.addrs NDIRECT = ip₁.addrs NDIRECT)
    (hslots : ∀ i, NDIRECT < i → ip₂.addrs i = ip₁.addrs i) : Extends ip₁ dev₁ ip₂ dev₂ where
  used b hb := by
    rw [hused b hb, hfb]
    constructor
    · rintro (h | h)
      · exact Or.inl h
      · exact Or.inr (Or.inr h)
    · rintro (h | h | h)
      · exact Or.inl h
      · exact Or.inl (hs.fileBlocks_used b h)
      · exact Or.inr h
  fresh b hb := by
    rcases (hfb b).mp hb with h | rfl
    · exact Or.inl h
    · exact Or.inr hfree
  blocks := hblk
  ind := hind
  slots := hslots

/-- Block `a` placed as block `bn` of the file, which had none there, joins
its blocks. -/
theorem mem_fileBlocks_of_place {bn a b : Nat} (hbn : bn < MAXFILE) (ha : a ≠ 0) (h0 : blockOf ip₁ dev₁ bn = 0)
    (hnew : blockOf ip₂ dev₂ bn = a) (hold : ∀ bn', bn' ≠ bn → blockOf ip₂ dev₂ bn' = blockOf ip₁ dev₁ bn')
    (hind : ip₂.addrs NDIRECT = ip₁.addrs NDIRECT) :
    b ∈ fileBlocks ip₂ dev₂ ↔ b ∈ fileBlocks ip₁ dev₁ ∨ b = a := by
  rw [mem_fileBlocks, mem_fileBlocks, hind]
  constructor
  · rintro ⟨hb0, ⟨bn', hbn', hb⟩ | hi⟩
    · by_cases he : bn' = bn
      · rw [he, hnew] at hb
        exact Or.inr hb.symm
      · rw [hold bn' he] at hb
        exact Or.inl ⟨hb0, Or.inl ⟨bn', hbn', hb⟩⟩
    · exact Or.inl ⟨hb0, Or.inr hi⟩
  · rintro (⟨hb0, ⟨bn', hbn', hb⟩ | hi⟩ | rfl)
    · have he : bn' ≠ bn := fun he => hb0 (by rw [← hb, he, h0])
      exact ⟨hb0, Or.inl ⟨bn', hbn', by rw [hold bn' he]; exact hb⟩⟩
    · exact ⟨hb0, Or.inr hi⟩
    · exact ⟨ha, Or.inl ⟨bn, hbn, hnew⟩⟩

/-- A new indirect block `a`, where the file had none, joins its blocks. -/
theorem mem_fileBlocks_of_ind {a b : Nat} (ha : a ≠ 0) (h0 : ip₁.addrs NDIRECT = 0)
    (hblk : ∀ bn, blockOf ip₂ dev₂ bn = blockOf ip₁ dev₁ bn) (hind : ip₂.addrs NDIRECT = a) :
    b ∈ fileBlocks ip₂ dev₂ ↔ b ∈ fileBlocks ip₁ dev₁ ∨ b = a := by
  rw [mem_fileBlocks, mem_fileBlocks, hind, h0]
  simp only [hblk]
  constructor
  · rintro ⟨hb0, h | rfl⟩
    · exact Or.inl ⟨hb0, Or.inl h⟩
    · exact Or.inr rfl
  · rintro (⟨hb0, h | h⟩ | rfl)
    · exact ⟨hb0, Or.inl h⟩
    · exact absurd h.symm hb0
    · exact ⟨ha, Or.inr rfl⟩

/-- `balloc` sets the bit of the block it returns and no other, but block
`0`'s. -/
theorem balloc_used {a : Nat} (hb : balloc dev₁ = (dev₂, a)) (b : Nat) (hb0 : b ≠ 0) :
    dev₂.used b = true ↔ dev₁.used b = true ∨ b = a := by
  cases hfind : (List.range dev₁.size).find? fun b => !dev₁.used b with
  | none =>
    simp only [balloc, hfind, Prod.mk.injEq] at hb
    obtain ⟨rfl, rfl⟩ := hb
    simp [hb0]
  | some c =>
    simp only [balloc, hfind, Prod.mk.injEq] at hb
    obtain ⟨rfl, rfl⟩ := hb
    by_cases hbc : b = c
    · simp [hbc]
    · simp [hbc]

theorem Sound.extends_self (hs : Sound ip dev) : Extends ip dev ip dev :=
  hs.extends_of_same (fun _ _ => rfl) (fun _ => rfl) rfl (fun _ _ => rfl)

/-- `balloc` out of blocks allocates nothing. -/
theorem Sound.extends_of_balloc_zero (hs : Sound ip dev₁) (hb : balloc dev₁ = (dev₂, 0)) : Extends ip dev₁ ip dev₂ :=
  hs.extends_of_same (fun b hb0 => Bool.eq_iff_iff.mpr (by simpa [hb0] using balloc_used hb b hb0))
    (blockOf_keeps hs (balloc_keeps hb)) rfl (fun _ _ => rfl)

/-- **What `bmap` allocates stays in the file**: the block it places, and
the indirect block where it allocates one. -/
theorem bmap_extends {bn a : Nat} (hs : Sound ip dev₁) (hbn : bn < MAXFILE)
    (h : bmap ip dev₁ bn = .ok (ip₂, dev₂, a)) : Extends ip dev₁ ip₂ dev₂ := by
  by_cases hp : blockOf ip dev₁ bn ≠ 0
  · rw [bmap_of_present hbn hp, Except.ok.injEq, Prod.mk.injEq, Prod.mk.injEq] at h
    obtain ⟨rfl, rfl, -⟩ := h
    exact hs.extends_of_same (fun _ _ => rfl) (fun _ => rfl) rfl (fun _ _ => rfl)
  have h0 : blockOf ip dev₁ bn = 0 := not_not.mp hp
  by_cases hd : bn < NDIRECT
  · -- a direct block
    have ha0 : ip.addrs bn = 0 := by simpa [blockOf, hd] using h0
    have hnd : NDIRECT ≠ bn := by omega
    rcases hb : balloc dev₁ with ⟨dev, a₁⟩
    by_cases ha : a₁ = 0
    · simp only [bmap, if_pos hd, ha0, hb, ha, if_true, Except.ok.injEq, Prod.mk.injEq] at h
      obtain ⟨rfl, rfl, -⟩ := h
      exact hs.extends_of_balloc_zero (ha ▸ hb)
    obtain ⟨hg, hnew, hold⟩ := bmap_direct_grows hs hd ha0 hb ha
    simp only [bmap, if_pos hd, ha0, hb, ha, if_true, if_false, Except.ok.injEq, Prod.mk.injEq] at h
    obtain ⟨rfl, rfl, -⟩ := h
    exact hs.extends_of_alloc (balloc_used hb) (balloc_fresh hb ha).1
      (fun b => mem_fileBlocks_of_place hbn ha h0 hnew hold (Function.update_of_ne hnd _ _)) hg.blocks
      (fun _ => Function.update_of_ne hnd _ _) (fun i hi => Function.update_of_ne (by omega) _ _)
  have hi : bn - NDIRECT < NINDIRECT := by unfold MAXFILE at hbn; omega
  by_cases hind : ip.addrs NDIRECT = 0
  · -- no indirect block yet: allocate it, then the block
    rcases hb : balloc dev₁ with ⟨dev, ind⟩
    by_cases hind0 : ind = 0
    · simp only [bmap, if_neg hd, if_pos hi, hind, hb, hind0, if_true, Except.ok.injEq, Prod.mk.injEq] at h
      obtain ⟨rfl, rfl, -⟩ := h
      exact hs.extends_of_balloc_zero (hind0 ▸ hb)
    obtain ⟨hg₁, hblk⟩ := bmap_indblock_grows hs hind hb hind0
    have he₁ := hs.extends_of_alloc (balloc_used hb) (balloc_fresh hb hind0).1
      (fun b => mem_fileBlocks_of_ind hind0 hind hblk (by simp)) (fun bn _ _ => hblk bn)
      (fun h => absurd hind h) (fun i hi => Function.update_of_ne (by omega) _ _)
    have hent : getEntry (dev.data ind) (bn - NDIRECT) = 0 := by
      rw [(balloc_fresh hb hind0).2.2.2]
      exact getEntry_zero _
    have hi₁ : ({ ip with addrs := Function.update ip.addrs NDIRECT ind } : FileInode).addrs NDIRECT = ind := by
      simp
    rcases hb₂ : balloc dev with ⟨dev', a₂⟩
    by_cases ha : a₂ = 0
    · simp only [bmap, if_neg hd, if_pos hi, hind, hb, hind0, hent, hb₂, ha, if_true, if_false,
        Except.ok.injEq, Prod.mk.injEq] at h
      obtain ⟨rfl, rfl, -⟩ := h
      exact he₁.trans (hg₁.sound.extends_of_balloc_zero (ha ▸ hb₂))
    obtain ⟨hg₂, hnew, hold⟩ := bmap_indirect_grows hg₁.sound (Nat.le_of_not_lt hd) (by rw [hi₁]; exact hind0)
      (by rw [hblk]; exact h0) hb₂ ha
    rw [hi₁] at hg₂ hnew hold
    simp only [bmap, if_neg hd, if_pos hi, hind, hb, hind0, hent, hb₂, ha, if_true, if_false,
      Except.ok.injEq, Prod.mk.injEq] at h
    obtain ⟨rfl, rfl, -⟩ := h
    exact he₁.trans (hg₁.sound.extends_of_alloc (fun b hb0 => balloc_used hb₂ b hb0) (balloc_fresh hb₂ ha).1
      (fun b => mem_fileBlocks_of_place hbn ha (by rw [hblk]; exact h0) hnew hold rfl) hg₂.blocks
      (fun _ => rfl) (fun _ _ => rfl))
  · -- the indirect block is there: allocate the block
    have hent : getEntry (dev₁.data (ip.addrs NDIRECT)) (bn - NDIRECT) = 0 := by
      simpa [blockOf, hd, hind] using h0
    rcases hb : balloc dev₁ with ⟨dev, a₁⟩
    by_cases ha : a₁ = 0
    · simp only [bmap, if_neg hd, if_pos hi, hind, hent, hb, ha, if_true, if_false,
        Except.ok.injEq, Prod.mk.injEq] at h
      obtain ⟨rfl, rfl, -⟩ := h
      exact hs.extends_of_balloc_zero (ha ▸ hb)
    obtain ⟨hg, hnew, hold⟩ := bmap_indirect_grows hs (Nat.le_of_not_lt hd) hind h0 hb ha
    simp only [bmap, if_neg hd, if_pos hi, hind, hent, hb, ha, if_true, if_false,
      Except.ok.injEq, Prod.mk.injEq] at h
    obtain ⟨rfl, rfl, -⟩ := h
    exact hs.extends_of_alloc (fun b hb0 => balloc_used hb b hb0) (balloc_fresh hb ha).1
      (fun b => mem_fileBlocks_of_place hbn ha h0 hnew hold rfl) hg.blocks (fun _ => rfl) (fun _ _ => rfl)

end Extends

/-! ## `readi` and `writei` do not panic -/

section Calls

variable {ip : FileInode} {dev : BlockDev}

/-- Writing a block other than the indirect block moves none of the file's
blocks. -/
theorem blockOf_update_data {addr : Nat} {blk : Bytes} (hind : addr ≠ ip.addrs NDIRECT) (bn : Nat) :
    blockOf ip { dev with data := Function.update dev.data addr blk } bn = blockOf ip dev bn := by
  simp [blockOf, Function.update_of_ne (Ne.symm hind)]

/-- **The loop of `writei` returns**, within `MAXFILE` blocks: it counts at
most the bytes it was given and allocates only into the file. -/
theorem writeLoop_total : ∀ (fuel : Nat) {ip : FileInode} {dev : BlockDev} {off : Nat} {src : List UInt8},
    Sound ip dev → off + src.length ≤ MAXFILE * BSIZE →
    ∃ ip' dev' off' tot, writeLoop fuel ip dev off src = .ok (ip', dev', off', tot) ∧ tot ≤ src.length ∧
      Extends ip dev ip' dev'
  | 0, ip, dev, off, _, hs, _ => ⟨ip, dev, off, 0, rfl, Nat.zero_le _, hs.extends_self⟩
  | fuel + 1, ip, dev, off, src, hs, hb => by
    by_cases hsrc : src = []
    · exact ⟨ip, dev, off, 0, by simp [writeLoop, hsrc], Nat.zero_le _, hs.extends_self⟩
    have hlen := List.length_pos_iff.mpr hsrc
    have hbn : off / BSIZE < MAXFILE := div_lt_maxfile (by omega)
    obtain ⟨ip₁, dev₁, addr, hbm, hg, haddr⟩ := bmap_spec hs hbn
    have he₁ := bmap_extends hs hbn hbm
    by_cases ha : addr = 0
    · -- the disk is full: the loop stops where it is
      exact ⟨ip₁, dev₁, off, 0, by simp [writeLoop, hsrc, hbm, ha, bind, Except.bind], Nat.zero_le _, he₁⟩
    -- one pass writes into the block of `off`, which is not the indirect block
    have hmod := Nat.mod_lt off (show 0 < BSIZE by decide)
    have hind : addr ≠ ip₁.addrs NDIRECT := haddr ha ▸ hg.sound.ne_ind hbn (by rw [haddr ha]; exact ha)
    have hwb : Wrote ip₁ dev₁ off (src.take (min src.length (BSIZE - off % BSIZE))) ip₁ _ :=
      hg.sound.writeBlock hbn (haddr ha) ha (by rw [List.length_take]; omega)
    have he₂ : Extends ip₁ dev₁ ip₁ { dev₁ with data := (Function.update dev₁.data addr
        (writeBytes (dev₁.data addr) (off % BSIZE) (src.take (min src.length (BSIZE - off % BSIZE))))) } :=
      hg.sound.extends_of_same (fun _ _ => rfl) (blockOf_update_data hind) rfl (fun _ _ => rfl)
    have hb' : off + min src.length (BSIZE - off % BSIZE) +
        (src.drop (min src.length (BSIZE - off % BSIZE))).length ≤ MAXFILE * BSIZE := by
      rw [List.length_drop]
      omega
    obtain ⟨ip₂, dev₂, off₂, tot₂, hrec, htot, he₃⟩ := writeLoop_total fuel hwb.sound hb'
    refine ⟨ip₂, dev₂, off₂, min src.length (BSIZE - off % BSIZE) + tot₂, ?_, ?_, he₁.trans (he₂.trans he₃)⟩
    · simp only [writeLoop, if_neg hsrc, hbm, bind, Except.bind, if_neg ha, hrec]
    · rw [List.length_drop] at htot
      omega

/-- A `uint` sum from within a file does not wrap: a wrapped one would lie
below `off`. -/
theorem add_mod_of_not_wrap {off n size : Nat} (hsize : size ≤ MAXFILE * BSIZE) (ho : off ≤ size)
    (hn : n < 2 ^ 32) (hw : off ≤ (off + n) % 2 ^ 32) : (off + n) % 2 ^ 32 = off + n := by
  have h32 := maxfile_bytes_lt
  apply Nat.mod_eq_of_lt
  by_contra hge
  have hsub : (off + n) % 2 ^ 32 = off + n - 2 ^ 32 := by
    rw [Nat.mod_eq_sub_mod (by omega), Nat.mod_eq_of_lt (by omega)]
  omega

/-- **`readi` of a well-formed file returns** and changes nothing: the
bytes it reads lie below the size, so `bmap` finds each block there. -/
theorem readi_total (hwf : Wf ip dev) {off n : Nat} (hn : n < 2 ^ 32) : ∃ bs, readi ip dev off n = .ok (ip, dev, bs) := by
  unfold readi
  by_cases h1 : off > ip.size ∨ (off + n) % 2 ^ 32 < off
  · exact ⟨[], by rw [if_pos h1]⟩
  rw [if_neg h1]
  have hmod := add_mod_of_not_wrap hwf.size_le (show off ≤ ip.size by omega) hn (by omega)
  dsimp only
  by_cases h2 : (off + n) % 2 ^ 32 > ip.size
  · rw [if_pos h2]
    exact ⟨_, readLoop_of_wf hwf (by omega)⟩
  · rw [if_neg h2]
    exact ⟨_, readLoop_of_wf hwf (by omega)⟩

/-- **`writei` of a well-formed file returns** and leaves it well formed;
what it allocates stays in the file. -/
theorem writei_total (hwf : Wf ip dev) {off : Nat} {src : List UInt8} (hn : src.length < 2 ^ 32) :
    ∃ ip' dev' r, writei ip dev off src = .ok (ip', dev', r) ∧ Wf ip' dev' ∧ Extends ip dev ip' dev' := by
  unfold writei
  by_cases h1 : off > ip.size ∨ (off + src.length) % 2 ^ 32 < off
  · exact ⟨ip, dev, -1, by rw [if_pos h1], hwf, hwf.sound.extends_self⟩
  rw [if_neg h1]
  by_cases h2 : (off + src.length) % 2 ^ 32 > MAXFILE * BSIZE
  · exact ⟨ip, dev, -1, by rw [if_pos h2], hwf, hwf.sound.extends_self⟩
  rw [if_neg h2]
  have hoff : off ≤ ip.size := by omega
  have hmod := add_mod_of_not_wrap hwf.size_le hoff hn (by omega)
  have hmax : off + src.length ≤ MAXFILE * BSIZE := by omega
  obtain ⟨ip₁, dev₁, off₁, tot, hl, htot, he⟩ := writeLoop_total src.length hwf.sound hmax
  obtain ⟨hoff₁, hwr⟩ := writeLoop_spec src.length hwf.sound hmax hl
  -- `iupdate` writes back the size and nothing else
  have haddrs : (if off₁ > ip₁.size then { ip₁ with size := off₁ } else ip₁).addrs = ip₁.addrs := by
    split <;> rfl
  have hsize : (if off₁ > ip₁.size then { ip₁ with size := off₁ } else ip₁).size =
      max ip.size (off + (src.take tot).length) := by
    rw [List.length_take, Nat.min_eq_left htot, ← hwr.size, ← hoff₁]
    split
    · simp only
      omega
    · omega
  refine ⟨_, dev₁, tot, by simp [hl, bind, Except.bind], hwf.of_wrote hoff hwr haddrs le_rfl hsize,
    he.trans (hwr.sound.extends_of_same (fun _ _ => rfl) (blockOf_of_addrs haddrs) (congrFun haddrs _)
      fun i _ => congrFun haddrs i)⟩

end Calls

/-! ## Runs of calls -/

/-- The calls on a file: `readi` of `n` bytes at `off`, `writei` of the
bytes `src` at `off`, and `itrunc`. -/
inductive FileCall
  | readi (off n : Nat)
  | writei (off : Nat) (src : List UInt8)
  | itrunc

/-- The count of bytes fits its `uint`. -/
def FileCall.Fits : FileCall → Prop
  | .readi _ n => n < 2 ^ 32
  | .writei _ src => src.length < 2 ^ 32
  | .itrunc => True

instance : DecidablePred FileCall.Fits := fun c => by
  cases c <;> unfold FileCall.Fits <;> infer_instance

/-- A call, for the inode and the disk it leaves. -/
def FileCall.run (ip : FileInode) (dev : BlockDev) : FileCall → Except String (FileInode × BlockDev)
  | .readi off n => (fun r => (r.1, r.2.1)) <$> Fs.readi ip dev off n
  | .writei off src => (fun r => (r.1, r.2.1)) <$> Fs.writei ip dev off src
  | .itrunc => Fs.itrunc ip dev

/-- Calls in turn; a panic stops the run. -/
def runCalls (ip : FileInode) (dev : BlockDev) : List FileCall → Except String (FileInode × BlockDev)
  | [] => .ok (ip, dev)
  | c :: cs => do
    let (ip, dev) ← c.run ip dev
    runCalls ip dev cs

section Run

variable {dev₀ : BlockDev} {ip : FileInode} {dev : BlockDev}

theorem runCalls_cons {c : FileCall} {cs : List FileCall} {ip' : FileInode} {dev' : BlockDev}
    (h : c.run ip dev = .ok (ip', dev')) : runCalls ip dev (c :: cs) = runCalls ip' dev' cs := by
  simp only [runCalls, h, bind, Except.bind]

/-- **A read or a write returns** and keeps what the file holds. -/
theorem FileCall.run_extends {c : FileCall} (hwf : Wf ip dev) (hfit : c.Fits) (hne : c ≠ .itrunc) :
    ∃ ip' dev', c.run ip dev = .ok (ip', dev') ∧ Wf ip' dev' ∧ Extends ip dev ip' dev' := by
  cases c with
  | readi off n =>
    obtain ⟨bs, h⟩ : ∃ bs, Fs.readi ip dev off n = .ok (ip, dev, bs) := readi_total hwf hfit
    exact ⟨ip, dev, by simp [FileCall.run, h, Functor.map, Except.map], hwf, hwf.sound.extends_self⟩
  | writei off src =>
    obtain ⟨ip', dev', r, h, hwf', he⟩ : ∃ ip' dev' r, Fs.writei ip dev off src = .ok (ip', dev', r) ∧
        Wf ip' dev' ∧ Extends ip dev ip' dev' := writei_total hwf hfit
    exact ⟨ip', dev', by simp [FileCall.run, h, Functor.map, Except.map], hwf', he⟩
  | itrunc => exact absurd rfl hne

/-- **Reads and writes keep the file's blocks where they are**: along a run
of them from a well-formed file, nothing panics and each block stays. -/
theorem Wf.runCalls_extends : ∀ (cs : List FileCall) {ip : FileInode} {dev : BlockDev}, Wf ip dev →
    (∀ c ∈ cs, c.Fits ∧ c ≠ .itrunc) →
    ∃ ip' dev', runCalls ip dev cs = .ok (ip', dev') ∧ Wf ip' dev' ∧ Extends ip dev ip' dev'
  | [], ip, dev, hwf, _ => ⟨ip, dev, rfl, hwf, hwf.sound.extends_self⟩
  | c :: cs, ip, dev, hwf, hcs => by
    obtain ⟨hfit, hne⟩ := hcs c List.mem_cons_self
    obtain ⟨ip₁, dev₁, h₁, hwf₁, he₁⟩ := FileCall.run_extends hwf hfit hne
    obtain ⟨ip₂, dev₂, h₂, hwf₂, he₂⟩ := hwf₁.runCalls_extends cs fun c hc => hcs c (List.mem_cons_of_mem _ hc)
    exact ⟨ip₂, dev₂, by rw [runCalls_cons h₁, h₂], hwf₂, he₁.trans he₂⟩

/-- What keeps a well-formed file keeps it well formed. -/
theorem Wf.grows {ip' : FileInode} {dev' : BlockDev} (hwf : Wf ip dev) (hg : Grows ip dev ip' dev') : Wf ip' dev' :=
  ⟨hg.sound, by rw [hg.size]; exact hwf.size_le, by rw [hg.size]; exact hwf.filled.grows hg⟩

/-! ### From a file without blocks -/

theorem blockOf_emptyFile (dev : BlockDev) (bn : Nat) : blockOf emptyFile dev bn = 0 := by
  simp [blockOf, emptyFile]

theorem fileBlocks_emptyFile (dev : BlockDev) : fileBlocks emptyFile dev = [] := by
  rw [fileBlocks, if_neg (by simp [emptyFile]), List.append_nil, List.filter_eq_nil_iff]
  intro b hb
  obtain ⟨bn, -, rfl⟩ := List.mem_map.mp hb
  simp [blockOf_emptyFile]

/-- A file without blocks is well formed. -/
theorem Wf.emptyFile (hsize : dev.size ≤ 2 ^ 32) : Wf emptyFile dev :=
  ⟨⟨hsize, fun bn _ h => absurd (blockOf_emptyFile dev bn) h, fun h => absurd rfl h,
    fun bn _ _ _ _ h => absurd (blockOf_emptyFile dev bn) h, fun _ _ h => absurd rfl h⟩,
    Nat.zero_le _, fun _ _ h => absurd h (Nat.not_lt_zero _)⟩

/-- **The invariant of a run from a file without blocks on `dev₀`**: the
file is well formed, and it holds exactly the blocks whose bits the run set. -/
structure FileInv (dev₀ : BlockDev) (ip : FileInode) (dev : BlockDev) : Prop where
  base : dev₀.size ≤ 2 ^ 32
  wf : Wf ip dev
  ext : Extends Fs.emptyFile dev₀ ip dev

theorem FileInv.init (hsize : dev₀.size ≤ 2 ^ 32) : FileInv dev₀ emptyFile dev₀ :=
  ⟨hsize, Wf.emptyFile hsize, (Wf.emptyFile hsize).sound.extends_self⟩

/-- **The file's blocks are the blocks the run allocated**: those, but
block `0`, whose bits are set and were not on `dev₀`. -/
theorem FileInv.mem_fileBlocks (hinv : FileInv dev₀ ip dev) {b : Nat} :
    b ∈ fileBlocks ip dev ↔ b ≠ 0 ∧ dev.used b = true ∧ dev₀.used b = false := by
  constructor
  · intro hb
    have hfree := (hinv.ext.fresh b hb).resolve_left (by rw [fileBlocks_emptyFile]; exact List.not_mem_nil)
    exact ⟨(Fs.mem_fileBlocks.mp hb).1, hinv.wf.sound.fileBlocks_used b hb, hfree⟩
  · rintro ⟨hb0, hused, hfree⟩
    rcases (hinv.ext.used b hb0).mp hused with h | h
    · rw [hfree] at h
      exact absurd h Bool.false_ne_true
    · exact h

/-- **`itrunc` gives the disk back**: it frees the file's blocks without a
panic, the inode is as a fresh one, and every bit but block `0`'s is as on
`dev₀`. -/
theorem FileInv.itrunc (hinv : FileInv dev₀ ip dev) :
    ∃ dev', Fs.itrunc ip dev = .ok (emptyFile, dev') ∧ (∀ b, b ≠ 0 → dev'.used b = dev₀.used b) ∧
      FileInv dev₀ emptyFile dev' := by
  -- the slots past the indirect block are still those of a fresh inode
  have hcl : truncated ip = emptyFile := by
    unfold truncated emptyFile
    congr 1
    funext i
    by_cases hi : i ≤ NDIRECT
    · rw [if_pos hi]
    · rw [if_neg hi, hinv.ext.slots i (by omega)]
      rfl
  have hused : ∀ b, b ≠ 0 → (dev.used b && !decide (b ∈ fileBlocks ip dev)) = dev₀.used b := by
    intro b hb0
    rw [Bool.eq_iff_iff, Bool.and_eq_true, Bool.not_eq_true', decide_eq_false_iff_not, hinv.mem_fileBlocks]
    constructor
    · rintro ⟨hu, hn⟩
      rcases (hinv.ext.used b hb0).mp hu with h | h
      · exact h
      · exact absurd ((hinv.ext.fresh b h).resolve_left (by rw [fileBlocks_emptyFile]; exact List.not_mem_nil))
          (by intro hf; exact hn ⟨hb0, hu, hf⟩)
    · intro h0
      have hu := (hinv.ext.used b hb0).mpr (Or.inl h0)
      exact ⟨hu, fun h => by rw [h.2.2] at h0; exact Bool.false_ne_true h0⟩
  refine ⟨{ dev with used := fun b => dev.used b && !decide (b ∈ fileBlocks ip dev) },
    by rw [hinv.wf.sound.itrunc, hcl], hused, hinv.base, Wf.emptyFile hinv.wf.sound.devSize, ?_⟩
  exact (Wf.emptyFile hinv.base).sound.extends_of_same hused (fun bn => by rw [blockOf_emptyFile, blockOf_emptyFile])
    rfl (fun _ _ => rfl)

/-- **One call from the invariant returns and keeps it.** -/
theorem FileInv.step {c : FileCall} (hinv : FileInv dev₀ ip dev) (hfit : c.Fits) :
    ∃ ip' dev', c.run ip dev = .ok (ip', dev') ∧ FileInv dev₀ ip' dev' := by
  by_cases hc : c = .itrunc
  · subst hc
    obtain ⟨dev', h, -, hinv'⟩ := hinv.itrunc
    exact ⟨emptyFile, dev', h, hinv'⟩
  · obtain ⟨ip', dev', h, hwf', he⟩ := FileCall.run_extends hinv.wf hfit hc
    exact ⟨ip', dev', h, hinv.base, hwf', hinv.ext.trans he⟩

/-- **A run from the invariant returns and keeps it.** -/
theorem FileInv.runCalls : ∀ (cs : List FileCall) {ip : FileInode} {dev : BlockDev}, FileInv dev₀ ip dev →
    (∀ c ∈ cs, c.Fits) → ∃ ip' dev', Fs.runCalls ip dev cs = .ok (ip', dev') ∧ FileInv dev₀ ip' dev'
  | [], ip, dev, hinv, _ => ⟨ip, dev, rfl, hinv⟩
  | c :: cs, _, _, hinv, hcs => by
    obtain ⟨ip₁, dev₁, h₁, hinv₁⟩ := hinv.step (hcs c List.mem_cons_self)
    obtain ⟨ip₂, dev₂, h₂, hinv₂⟩ := hinv₁.runCalls cs fun c hc => hcs c (List.mem_cons_of_mem _ hc)
    exact ⟨ip₂, dev₂, by rw [runCalls_cons h₁, h₂], hinv₂⟩

end Run

/-- **The block map of a file, from its first block to `itrunc`.** Take
any run of `readi`, `writei` and `itrunc` calls, with counts that fit their
`uint`s, from a file without blocks on a disk of at most `2 ^ 32` blocks.
It returns: no call panics, and so no `bmap` a read or a write makes is out
of range. In the state it reaches, the file's blocks are all different and
none is its indirect block. A block `bmap` returns stays the one it returns
along any further reads and writes. `itrunc` calls `bfree` on the file's
blocks in turn. These are listed once each, and they are exactly the
blocks, but block `0`, whose bits the run has set. `itrunc` returns without
a panic, leaves the inode as a fresh one, and gives every other bit back as
it was on the disk the run started from. -/
theorem bmap_stable_injective (dev₀ : BlockDev) (hsize : dev₀.size ≤ 2 ^ 32) (cs : List FileCall)
    (hfits : ∀ c ∈ cs, c.Fits) :
    ∃ ip dev, runCalls emptyFile dev₀ cs = .ok (ip, dev) ∧
      (∀ bn < MAXFILE, ∀ bn' < MAXFILE, bn ≠ bn' → blockOf ip dev bn ≠ 0 →
        blockOf ip dev bn ≠ blockOf ip dev bn' ∧ blockOf ip dev bn ≠ ip.addrs NDIRECT) ∧
      (∀ bn < MAXFILE, ∀ ip₁ dev₁ a, bmap ip dev bn = .ok (ip₁, dev₁, a) → a ≠ 0 →
        ∀ cs', (∀ c ∈ cs', c.Fits ∧ c ≠ .itrunc) →
          ∃ ip₂ dev₂, runCalls ip₁ dev₁ cs' = .ok (ip₂, dev₂) ∧ bmap ip₂ dev₂ bn = .ok (ip₂, dev₂, a)) ∧
      itrunc ip dev = (fun dev' => (truncated ip, dev')) <$> bfreeAll dev (fileBlocks ip dev) ∧
      (fileBlocks ip dev).Nodup ∧
      (∀ b, b ∈ fileBlocks ip dev ↔ b ≠ 0 ∧ dev.used b = true ∧ dev₀.used b = false) ∧
      ∃ dev', itrunc ip dev = .ok (emptyFile, dev') ∧ ∀ b, b ≠ 0 → dev'.used b = dev₀.used b := by
  obtain ⟨ip, dev, hrun, hinv⟩ := (FileInv.init hsize).runCalls cs hfits
  have hs := hinv.wf.sound
  obtain ⟨dev', htrunc, hback, -⟩ := hinv.itrunc
  refine ⟨ip, dev, hrun, fun bn hbn bn' hbn' hne h0 => ⟨hs.distinct bn hbn bn' hbn' hne h0, hs.ne_ind hbn h0⟩,
    fun bn hbn ip₁ dev₁ a hbm ha cs' hcs' => ?_, itrunc_eq ip dev, hs.fileBlocks_nodup,
    fun b => hinv.mem_fileBlocks, dev', htrunc, hback⟩
  -- the block `bmap` returned is block `bn` of the file it leaves, and stays
  obtain ⟨ip', dev'', addr, hbm', hg, haddr⟩ := bmap_spec hs hbn
  rw [hbm', Except.ok.injEq, Prod.mk.injEq, Prod.mk.injEq] at hbm
  obtain ⟨rfl, rfl, rfl⟩ := hbm
  have hblk := haddr ha
  obtain ⟨ip₂, dev₂, hrun₂, -, he⟩ := (hinv.wf.grows hg).runCalls_extends cs' hcs'
  have hblk₂ : blockOf ip₂ dev₂ bn = addr := by
    rw [he.blocks bn hbn (by rw [hblk]; exact ha), hblk]
  refine ⟨ip₂, dev₂, hrun₂, ?_⟩
  rw [bmap_of_present hbn (by rw [hblk₂]; exact ha), hblk₂]

/-- One write of a byte at offset `0` of an empty file gives it block `1`,
the first free block of the disk, and only that block. -/
theorem bmap_stable_injective_one_write :
    emptyDisk.size ≤ 2 ^ 32 ∧ (∀ c ∈ [FileCall.writei 0 [7]], c.Fits) ∧
      ∃ ip dev, runCalls emptyFile emptyDisk [.writei 0 [7]] = .ok (ip, dev) ∧ blockOf ip dev 0 = 1 ∧
        fileBlocks ip dev = [1] ∧ dev.used 1 = true ∧ emptyDisk.used 1 = false := by
  have hsize : emptyDisk.size ≤ 2 ^ 32 := by decide
  have hfits : ∀ c ∈ [FileCall.writei 0 [7]], c.Fits := by decide
  obtain ⟨ip, dev, hrun, -, -, -, -, hmem, -⟩ := bmap_stable_injective emptyDisk hsize _ hfits
  -- the run, evaluated: the file's one block is block `1`
  have heval : (match runCalls emptyFile emptyDisk [.writei 0 [7]] with
      | .ok (ip, dev) => some (fileBlocks ip dev, blockOf ip dev 0) | .error _ => none) = some ([1], 1) := by
    decide
  rw [hrun] at heval
  simp only [Option.some.injEq, Prod.mk.injEq] at heval
  obtain ⟨-, hused, hfree⟩ := (hmem 1).mp (by rw [heval.1]; exact List.mem_singleton_self 1)
  exact ⟨hsize, hfits, ip, dev, hrun, heval.2, heval.1, hused, hfree⟩

end Fs

end Mkros
