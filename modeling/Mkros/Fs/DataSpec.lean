import Mathlib.Data.List.GetD
import Mkros.Fs.Data
/-!
# `readi` reads back what `writei` wrote

The file's bytes, as the inode and the disk give them, are `byteAt`: the
byte at its offset in the block `blockOf` finds for its block number, and
`0` in a block the file lacks. `Sound` is what keeps them apart from the
rest of the disk: the file's blocks and its indirect block are marked in the
bitmap and are all different. `balloc` hands out an unmarked block
(`balloc_fresh`) and leaves the marked ones as they were (`balloc_keeps`), so
`bmap` changes no byte of the file (`bmap_spec`). A write into one of the
file's blocks changes the bytes it covers and no other (`writeBlock_spec`).
By induction on the loops, `writeLoop_spec` and `readLoop_spec`, and from
them the read after a write, `writei_then_readi`.
-/

namespace Mkros

namespace Fs

/-! ## Entries of the indirect block -/

/-- An entry reads back the block number written to it. -/
theorem getEntry_setEntry_self (blk : Bytes) (i : Nat) {v : Nat} (hv : v < 2 ^ 32) :
    getEntry (setEntry blk i v) i = v := by
  simp only [getEntry, setEntry, show (4 * i) / 4 = i by omega, show (4 * i + 1) / 4 = i by omega,
    show (4 * i + 2) / 4 = i by omega, show (4 * i + 3) / 4 = i by omega, if_true,
    show (4 * i) % 4 = 0 by omega, show (4 * i + 1) % 4 = 1 by omega, show (4 * i + 2) % 4 = 2 by omega,
    show (4 * i + 3) % 4 = 3 by omega, Nat.toUInt8, UInt8.toNat_ofNat', show (256 : Nat) ^ 0 = 1 from rfl,
    show (256 : Nat) ^ 1 = 256 from rfl, show (256 : Nat) ^ 2 = 65536 from rfl,
    show (256 : Nat) ^ 3 = 16777216 from rfl]
  omega

/-- The other entries stay. -/
theorem getEntry_setEntry_of_ne (blk : Bytes) {i j : Nat} (h : j ≠ i) (v : Nat) :
    getEntry (setEntry blk i v) j = getEntry blk j := by
  simp only [getEntry, setEntry, show (4 * j) / 4 ≠ i by omega, show (4 * j + 1) / 4 ≠ i by omega,
    show (4 * j + 2) / 4 ≠ i by omega, show (4 * j + 3) / 4 ≠ i by omega, if_false]

/-- A zeroed indirect block lists no block. -/
theorem getEntry_zero (i : Nat) : getEntry (fun _ => 0) i = 0 := rfl

/-! ## The file's bytes -/

/-- The block that holds block `bn` of the file, as `bmap` finds it without
allocating; `0` where the file has none. -/
def blockOf (ip : FileInode) (dev : BlockDev) (bn : Nat) : Nat :=
  if bn < NDIRECT then ip.addrs bn
  else if ip.addrs NDIRECT = 0 then 0
  else getEntry (dev.data (ip.addrs NDIRECT)) (bn - NDIRECT)

/-- Byte `o` of the file: `0` in a block the file lacks. -/
def byteAt (ip : FileInode) (dev : BlockDev) (o : Nat) : UInt8 :=
  if blockOf ip dev (o / BSIZE) = 0 then 0 else dev.data (blockOf ip dev (o / BSIZE)) (o % BSIZE)

/-- **The file's blocks are its own**: each, and the indirect block, is
marked in the bitmap, and no two are the same. Block numbers fit the
`uint`s of the indirect block. -/
structure Sound (ip : FileInode) (dev : BlockDev) : Prop where
  devSize : dev.size ≤ 2 ^ 32
  marked : ∀ bn < MAXFILE, blockOf ip dev bn ≠ 0 → dev.used (blockOf ip dev bn) = true
  indMarked : ip.addrs NDIRECT ≠ 0 → dev.used (ip.addrs NDIRECT) = true
  distinct : ∀ bn < MAXFILE, ∀ bn' < MAXFILE, bn ≠ bn' → blockOf ip dev bn ≠ 0 →
    blockOf ip dev bn ≠ blockOf ip dev bn'
  indApart : ∀ bn < MAXFILE, ip.addrs NDIRECT ≠ 0 → blockOf ip dev bn ≠ ip.addrs NDIRECT

/-- Every block below offset `limit` is there. -/
def Filled (ip : FileInode) (dev : BlockDev) (limit : Nat) : Prop :=
  ∀ bn < MAXFILE, bn * BSIZE < limit → blockOf ip dev bn ≠ 0

/-- **A well-formed file**: sound, within `MAXFILE` blocks, and with every
block below its size there. -/
structure Wf (ip : FileInode) (dev : BlockDev) : Prop where
  sound : Sound ip dev
  size_le : ip.size ≤ MAXFILE * BSIZE
  filled : Filled ip dev ip.size

/-! ## The size is not the bytes

`iupdate` writes back a new size; the bytes and the blocks are read through
`addrs` alone. -/

section Addrs

variable {ip ip' : FileInode} {dev dev' : BlockDev}

/-- **Soundness rests on the blocks listed and their marks**: a file that
lists the same blocks, with the same indirect block, on a disk that keeps the
marks, is sound. -/
theorem Sound.of_blockOf (hs : Sound ip dev) (hsize : dev'.size = dev.size)
    (hused : ∀ b, dev.used b = true → dev'.used b = true) (hind : ip'.addrs NDIRECT = ip.addrs NDIRECT)
    (hb : ∀ bn, blockOf ip' dev' bn = blockOf ip dev bn) : Sound ip' dev' where
  devSize := by
    rw [hsize]
    exact hs.devSize
  marked bn hbn h := by
    rw [hb] at h ⊢
    exact hused _ (hs.marked bn hbn h)
  indMarked h := by
    rw [hind] at h ⊢
    exact hused _ (hs.indMarked h)
  distinct bn hbn bn' hbn' hne h := by
    rw [hb, hb] at *
    exact hs.distinct bn hbn bn' hbn' hne h
  indApart bn hbn h := by
    rw [hb, hind] at *
    exact hs.indApart bn hbn h

theorem blockOf_of_addrs (h : ip'.addrs = ip.addrs) (bn : Nat) : blockOf ip' dev bn = blockOf ip dev bn := by
  simp only [blockOf, h]

theorem byteAt_of_addrs (h : ip'.addrs = ip.addrs) (o : Nat) : byteAt ip' dev o = byteAt ip dev o := by
  simp only [byteAt, blockOf_of_addrs h]

theorem Sound.of_addrs (h : ip'.addrs = ip.addrs) (hs : Sound ip dev) : Sound ip' dev :=
  hs.of_blockOf rfl (fun _ hb => hb) (congrFun h NDIRECT) (blockOf_of_addrs h)

end Addrs

/-! ## What keeps the file -/

/-- `dev'` keeps every block `dev` marks. -/
def Keeps (dev dev' : BlockDev) : Prop :=
  dev'.size = dev.size ∧ ∀ b, dev.used b = true → dev'.used b = true ∧ dev'.data b = dev.data b

/-- **What a step keeps of the file**: it stays sound with the same size,
its bytes are the same, and a block it had stays where it was. -/
structure Grows (ip : FileInode) (dev : BlockDev) (ip' : FileInode) (dev' : BlockDev) : Prop where
  sound : Sound ip' dev'
  size : ip'.size = ip.size
  bytes : ∀ o, o / BSIZE < MAXFILE → byteAt ip' dev' o = byteAt ip dev o
  blocks : ∀ bn < MAXFILE, blockOf ip dev bn ≠ 0 → blockOf ip' dev' bn = blockOf ip dev bn

theorem Grows.trans {ip₁ ip₂ ip₃ : FileInode} {dev₁ dev₂ dev₃ : BlockDev} (h₁ : Grows ip₁ dev₁ ip₂ dev₂)
    (h₂ : Grows ip₂ dev₂ ip₃ dev₃) : Grows ip₁ dev₁ ip₃ dev₃ where
  sound := h₂.sound
  size := h₂.size.trans h₁.size
  bytes o ho := (h₂.bytes o ho).trans (h₁.bytes o ho)
  blocks bn hbn h := (h₂.blocks bn hbn (by rw [h₁.blocks bn hbn h]; exact h)).trans (h₁.blocks bn hbn h)

/-- A step that grows the file leaves the blocks below a limit there. -/
theorem Filled.grows {ip ip' : FileInode} {dev dev' : BlockDev} {limit : Nat} (hf : Filled ip dev limit)
    (hg : Grows ip dev ip' dev') : Filled ip' dev' limit := fun bn hbn hlt => by
  rw [hg.blocks bn hbn (hf bn hbn hlt)]
  exact hf bn hbn hlt

section Keep

variable {ip : FileInode} {dev dev' : BlockDev}

/-- Where the marked blocks are kept, the file finds the same blocks: its
indirect block is marked. -/
theorem blockOf_keeps (hs : Sound ip dev) (hk : Keeps dev dev') (bn : Nat) : blockOf ip dev' bn = blockOf ip dev bn := by
  unfold blockOf
  by_cases hind : ip.addrs NDIRECT = 0
  · simp [hind]
  · simp [hind, (hk.2 _ (hs.indMarked hind)).2]

/-- **Keeping the marked blocks keeps the file.** -/
theorem Sound.grows_of_keeps (hs : Sound ip dev) (hk : Keeps dev dev') : Grows ip dev ip dev' := by
  have hb := blockOf_keeps hs hk
  refine ⟨hs.of_blockOf hk.1 (fun b h => (hk.2 b h).1) rfl hb, rfl, fun o ho => ?_, fun bn _ _ => hb bn⟩
  · unfold byteAt
    rw [hb]
    by_cases h0 : blockOf ip dev (o / BSIZE) = 0
    · simp [h0]
    · simp [h0, (hk.2 _ (hs.marked _ ho h0)).2]

end Keep

/-! ## `balloc` -/

section Balloc

variable {dev dev' : BlockDev} {a : Nat}

/-- A marked block is not an unmarked one. -/
theorem ne_of_used {b c : Nat} (hb : dev.used b = true) (hc : dev.used c = false) : b ≠ c := by
  intro h
  rw [h, hc] at hb
  exact Bool.false_ne_true hb

/-- `balloc` keeps the marked blocks. -/
theorem balloc_keeps (hb : balloc dev = (dev', a)) : Keeps dev dev' := by
  cases hfind : (List.range dev.size).find? fun b => !dev.used b with
  | none =>
    simp only [balloc, hfind, Prod.mk.injEq] at hb
    obtain ⟨rfl, -⟩ := hb
    exact ⟨rfl, fun b h => ⟨h, rfl⟩⟩
  | some b =>
    simp only [balloc, hfind, Prod.mk.injEq] at hb
    obtain ⟨rfl, -⟩ := hb
    have hfree : dev.used b = false := by simpa using List.find?_some hfind
    refine ⟨rfl, fun c hc => ?_⟩
    simp [Function.update_of_ne (ne_of_used hc hfree), hc]

/-- **`balloc` hands out a free block**, below `sb.size`, now marked and
zeroed. -/
theorem balloc_fresh (hb : balloc dev = (dev', a)) (ha : a ≠ 0) :
    dev.used a = false ∧ a < dev.size ∧ dev'.used a = true ∧ dev'.data a = fun _ => 0 := by
  cases hfind : (List.range dev.size).find? fun b => !dev.used b with
  | none =>
    simp only [balloc, hfind, Prod.mk.injEq] at hb
    exact absurd hb.2.symm ha
  | some b =>
    simp only [balloc, hfind, Prod.mk.injEq] at hb
    obtain ⟨rfl, rfl⟩ := hb
    refine ⟨by simpa using List.find?_some hfind, List.mem_range.mp (List.mem_of_find?_eq_some hfind), ?_, ?_⟩ <;>
      simp

end Balloc

/-! ## `bmap` -/

section Bmap

variable {ip : FileInode} {dev dev₁ : BlockDev} {bn a : Nat}

/-- A step from a sound file to itself. -/
theorem Sound.grows_self (hs : Sound ip dev) : Grows ip dev ip dev :=
  hs.grows_of_keeps ⟨rfl, fun _ h => ⟨h, rfl⟩⟩

/-- A block of the file is marked, so it is not a block `balloc` can hand
out. -/
theorem Sound.blockOf_ne_of_unused (hs : Sound ip dev) (ha0 : a ≠ 0) (ha : dev.used a = false)
    (hbn : bn < MAXFILE) : blockOf ip dev bn ≠ a := by
  by_cases h0 : blockOf ip dev bn = 0
  · rw [h0]
    exact Ne.symm ha0
  · exact ne_of_used (hs.marked bn hbn h0) ha

theorem Sound.ind_ne_of_unused (hs : Sound ip dev) (ha0 : a ≠ 0) (ha : dev.used a = false) :
    ip.addrs NDIRECT ≠ a := by
  by_cases h0 : ip.addrs NDIRECT = 0
  · rw [h0]
    exact Ne.symm ha0
  · exact ne_of_used (hs.indMarked h0) ha

/-- A block the file has is not its indirect block. -/
theorem Sound.ne_ind (hs : Sound ip dev) (hbn : bn < MAXFILE) (h : blockOf ip dev bn ≠ 0) :
    blockOf ip dev bn ≠ ip.addrs NDIRECT := by
  by_cases hind : ip.addrs NDIRECT = 0
  · rw [hind]
    exact h
  · exact hs.indApart bn hbn hind

/-- **Placing a block**: a block `a` outside the file, marked and zeroed,
becomes block `bn` of it, where the file had none; only the indirect block's
bytes may change on the way. The file's bytes stay, since the new block
reads as the zeroes the missing one did. -/
theorem Sound.grows_of_place {ip' : FileInode} {dev' : BlockDev} (hs : Sound ip dev)
    (h0 : blockOf ip dev bn = 0) (hused : dev.used a = true) (hzero : dev.data a = fun _ => 0)
    (hfile : ∀ bn' < MAXFILE, blockOf ip dev bn' ≠ a) (hind : ip.addrs NDIRECT ≠ a)
    (hsize : ip'.size = ip.size) (hdsize : dev'.size = dev.size) (hused' : dev'.used = dev.used)
    (hdata : ∀ b, b ≠ ip.addrs NDIRECT → dev'.data b = dev.data b) (hind' : ip'.addrs NDIRECT = ip.addrs NDIRECT)
    (hnew : blockOf ip' dev' bn = a) (hold : ∀ bn', bn' ≠ bn → blockOf ip' dev' bn' = blockOf ip dev bn') :
    Grows ip dev ip' dev' := by
  refine ⟨⟨?_, fun bn₁ hbn₁ h => ?_, fun h => ?_, fun bn₁ hbn₁ bn₂ hbn₂ hne h => ?_, fun bn₁ hbn₁ h => ?_⟩,
    hsize, fun o ho => ?_, fun bn₁ _ h => hold bn₁ fun he => h (he ▸ h0)⟩
  · rw [hdsize]
    exact hs.devSize
  · rw [hused']
    by_cases hb : bn₁ = bn
    · rw [hb, hnew]
      exact hused
    · rw [hold bn₁ hb] at h ⊢
      exact hs.marked bn₁ hbn₁ h
  · rw [hind'] at h ⊢
    rw [hused']
    exact hs.indMarked h
  · -- the new block is apart from the others, which are marked
    by_cases hb₁ : bn₁ = bn
    · rw [hb₁, hnew, hold bn₂ (hb₁ ▸ Ne.symm hne)]
      exact (hfile bn₂ hbn₂).symm
    · rw [hold bn₁ hb₁] at h ⊢
      by_cases hb₂ : bn₂ = bn
      · rw [hb₂, hnew]
        exact hfile bn₁ hbn₁
      · rw [hold bn₂ hb₂]
        exact hs.distinct bn₁ hbn₁ bn₂ hbn₂ hne h
  · rw [hind'] at h ⊢
    by_cases hb : bn₁ = bn
    · rw [hb, hnew]
      exact Ne.symm hind
    · rw [hold bn₁ hb]
      exact hs.indApart bn₁ hbn₁ h
  · unfold byteAt
    by_cases hb : o / BSIZE = bn
    · rw [hb, hnew, h0, hdata a (Ne.symm hind), hzero]
      simp
    · rw [hold _ hb]
      by_cases hz : blockOf ip dev (o / BSIZE) = 0
      · simp [hz]
      · rw [if_neg hz, if_neg hz, hdata _ (hs.ne_ind ho hz)]

/-- `bmap` of a direct block the file lacks, where `balloc` finds one. -/
theorem bmap_direct_grows (hs : Sound ip dev) (hd : bn < NDIRECT) (h0 : ip.addrs bn = 0)
    (hb : balloc dev = (dev₁, a)) (ha : a ≠ 0) :
    Grows ip dev { ip with addrs := Function.update ip.addrs bn a } dev₁ ∧
      blockOf { ip with addrs := Function.update ip.addrs bn a } dev₁ bn = a ∧
      ∀ bn', bn' ≠ bn → blockOf { ip with addrs := Function.update ip.addrs bn a } dev₁ bn' = blockOf ip dev bn' := by
  have hk := balloc_keeps hb
  obtain ⟨hfree, -, hused, hzero⟩ := balloc_fresh hb ha
  have hbk := blockOf_keeps hs hk
  have hg := hs.grows_of_keeps hk
  have hnd : NDIRECT ≠ bn := by omega
  have hnew : blockOf { ip with addrs := Function.update ip.addrs bn a } dev₁ bn = a := by
    simp [blockOf, hd]
  have hold : ∀ bn', bn' ≠ bn → blockOf { ip with addrs := Function.update ip.addrs bn a } dev₁ bn' =
      blockOf ip dev₁ bn' := by
    intro bn' hne
    simp [blockOf, Function.update_of_ne hne, Function.update_of_ne hnd]
  refine ⟨hg.trans (hg.sound.grows_of_place ?_ hused hzero ?_ ?_ rfl rfl rfl
    (fun _ _ => rfl) (Function.update_of_ne hnd _ _) hnew hold), hnew, fun bn' hne => (hold bn' hne).trans (hbk bn')⟩
  · rw [hbk]
    simp [blockOf, hd, h0]
  · intro bn' hbn'
    rw [hbk]
    exact hs.blockOf_ne_of_unused ha hfree hbn'
  · exact hs.ind_ne_of_unused ha hfree

/-- `bmap` of an indirect block the file lacks, where the indirect block is
there and `balloc` finds one: the entry is written in the indirect block. -/
theorem bmap_indirect_grows (hs : Sound ip dev) (hd : NDIRECT ≤ bn)
    (hind : ip.addrs NDIRECT ≠ 0) (h0 : blockOf ip dev bn = 0) (hb : balloc dev = (dev₁, a)) (ha : a ≠ 0) :
    Grows ip dev ip { dev₁ with data := (Function.update dev₁.data (ip.addrs NDIRECT)
        (setEntry (dev₁.data (ip.addrs NDIRECT)) (bn - NDIRECT) a)) } ∧
      blockOf ip { dev₁ with data := (Function.update dev₁.data (ip.addrs NDIRECT)
        (setEntry (dev₁.data (ip.addrs NDIRECT)) (bn - NDIRECT) a)) } bn = a ∧
      ∀ bn', bn' ≠ bn → blockOf ip { dev₁ with data := (Function.update dev₁.data (ip.addrs NDIRECT)
        (setEntry (dev₁.data (ip.addrs NDIRECT)) (bn - NDIRECT) a)) } bn' = blockOf ip dev bn' := by
  have hk := balloc_keeps hb
  obtain ⟨hfree, hlt, hused, hzero⟩ := balloc_fresh hb ha
  have hbk := blockOf_keeps hs hk
  have hg := hs.grows_of_keeps hk
  have hnd : ¬ bn < NDIRECT := by omega
  -- `a` fits the entry's four bytes: it is a block of the disk
  have ha32 : a < 2 ^ 32 := Nat.lt_of_lt_of_le hlt (hk.1 ▸ hs.devSize)
  have hnew : blockOf ip { dev₁ with data := (Function.update dev₁.data (ip.addrs NDIRECT)
      (setEntry (dev₁.data (ip.addrs NDIRECT)) (bn - NDIRECT) a)) } bn = a := by
    simp only [blockOf, if_neg hnd, if_neg hind, Function.update_self]
    exact getEntry_setEntry_self _ _ ha32
  have hold : ∀ bn', bn' ≠ bn → blockOf ip { dev₁ with data := (Function.update dev₁.data (ip.addrs NDIRECT)
      (setEntry (dev₁.data (ip.addrs NDIRECT)) (bn - NDIRECT) a)) } bn' = blockOf ip dev₁ bn' := by
    intro bn' hne
    by_cases hd' : bn' < NDIRECT
    · simp [blockOf, hd']
    · simp only [blockOf, if_neg hd', if_neg hind, Function.update_self]
      exact getEntry_setEntry_of_ne _ (by omega) _
  refine ⟨hg.trans (hg.sound.grows_of_place (by rw [hbk]; exact h0) hused hzero ?_
    (hs.ind_ne_of_unused ha hfree) rfl rfl rfl (fun b hb => Function.update_of_ne hb _ _) rfl hnew hold), hnew,
    fun bn' hne => (hold bn' hne).trans (hbk bn')⟩
  intro bn' hbn'
  rw [hbk]
  exact hs.blockOf_ne_of_unused ha hfree hbn'

/-- `bmap` of an indirect block where the file has no indirect block and
`balloc` finds one: the file now has a zeroed indirect block, and lists
the same blocks. -/
theorem bmap_indblock_grows (hs : Sound ip dev) (h0 : ip.addrs NDIRECT = 0) (hb : balloc dev = (dev₁, a))
    (ha : a ≠ 0) :
    Grows ip dev { ip with addrs := Function.update ip.addrs NDIRECT a } dev₁ ∧
      ∀ bn, blockOf { ip with addrs := Function.update ip.addrs NDIRECT a } dev₁ bn = blockOf ip dev bn := by
  have hk := balloc_keeps hb
  obtain ⟨hfree, -, hused, hzero⟩ := balloc_fresh hb ha
  have hg := hs.grows_of_keeps hk
  have hblk : ∀ bn, blockOf { ip with addrs := Function.update ip.addrs NDIRECT a } dev₁ bn = blockOf ip dev bn := by
    intro bn
    by_cases hd : bn < NDIRECT
    · simp [blockOf, hd, Function.update_of_ne (Nat.ne_of_lt hd)]
    · simp [blockOf, hd, h0, ha, hzero, getEntry_zero]
  refine ⟨⟨⟨?_, fun bn hbn h => ?_, fun _ => ?_, fun bn hbn bn' hbn' hne h => ?_, fun bn hbn _ => ?_⟩, rfl,
    fun o ho => ?_, fun bn _ _ => hblk bn⟩, hblk⟩
  · exact hg.sound.devSize
  · rw [hblk] at h ⊢
    exact (hk.2 _ (hs.marked bn hbn h)).1
  · simpa using hused
  · rw [hblk, hblk] at *
    exact hs.distinct bn hbn bn' hbn' hne h
  · rw [hblk]
    simpa using hs.blockOf_ne_of_unused ha hfree hbn
  · rw [← hg.bytes o ho]
    unfold byteAt
    rw [hblk, blockOf_keeps hs hk]

/-- `bmap` of a block the file has returns it and changes nothing. -/
theorem bmap_of_present (hbn : bn < MAXFILE) (h : blockOf ip dev bn ≠ 0) :
    bmap ip dev bn = .ok (ip, dev, blockOf ip dev bn) := by
  by_cases hd : bn < NDIRECT
  · simp only [blockOf, if_pos hd] at h
    simp [bmap, blockOf, hd, h]
  · have hi : bn - NDIRECT < NINDIRECT := by unfold MAXFILE at hbn; omega
    have hind : ip.addrs NDIRECT ≠ 0 := fun h' => h (by simp [blockOf, hd, h'])
    simp only [blockOf, if_neg hd, if_neg hind] at h
    simp [bmap, blockOf, hd, hi, hind, h]

/-- **`bmap` grows the file**: below `MAXFILE` it returns, changes no byte
of the file, and a block it returns is block `bn` of the file. -/
theorem bmap_spec (hs : Sound ip dev) (hbn : bn < MAXFILE) :
    ∃ ip' dev' addr, bmap ip dev bn = .ok (ip', dev', addr) ∧ Grows ip dev ip' dev' ∧
      (addr ≠ 0 → blockOf ip' dev' bn = addr) := by
  by_cases hp : blockOf ip dev bn ≠ 0
  · exact ⟨ip, dev, _, bmap_of_present hbn hp, hs.grows_self, fun _ => rfl⟩
  have h0 : blockOf ip dev bn = 0 := not_not.mp hp
  by_cases hd : bn < NDIRECT
  · -- a direct block
    have ha0 : ip.addrs bn = 0 := by simpa [blockOf, hd] using h0
    rcases hb : balloc dev with ⟨dev₁, a⟩
    by_cases ha : a = 0
    · exact ⟨ip, dev₁, 0, by simp [bmap, hd, ha0, hb, ha], hs.grows_of_keeps (balloc_keeps hb), fun h => absurd rfl h⟩
    · obtain ⟨hg, hnew, -⟩ := bmap_direct_grows hs hd ha0 hb ha
      exact ⟨_, dev₁, a, by simp [bmap, hd, ha0, hb, ha], hg, fun _ => hnew⟩
  have hi : bn - NDIRECT < NINDIRECT := by unfold MAXFILE at hbn; omega
  by_cases hind : ip.addrs NDIRECT = 0
  · -- no indirect block yet: allocate it, then the block
    rcases hb : balloc dev with ⟨dev₁, ind⟩
    by_cases hind0 : ind = 0
    · exact ⟨ip, dev₁, 0, by simp [bmap, hd, hi, hind, hb, hind0], hs.grows_of_keeps (balloc_keeps hb),
        fun h => absurd rfl h⟩
    obtain ⟨hg₁, hblk⟩ := bmap_indblock_grows hs hind hb hind0
    have hent : getEntry (dev₁.data ind) (bn - NDIRECT) = 0 := by
      rw [(balloc_fresh hb hind0).2.2.2]
      exact getEntry_zero _
    have hi₁ : ({ ip with addrs := Function.update ip.addrs NDIRECT ind } : FileInode).addrs NDIRECT = ind := by
      simp
    rcases hb₂ : balloc dev₁ with ⟨dev₂, a⟩
    by_cases ha : a = 0
    · exact ⟨_, dev₂, 0, by simp [bmap, hd, hi, hind, hb, hind0, hent, hb₂, ha],
        hg₁.trans (hg₁.sound.grows_of_keeps (balloc_keeps hb₂)), fun h => absurd rfl h⟩
    obtain ⟨hg₂, hnew, -⟩ := bmap_indirect_grows hg₁.sound (Nat.le_of_not_lt hd) (by rw [hi₁]; exact hind0)
      (by rw [hblk]; exact h0) hb₂ ha
    rw [hi₁] at hg₂ hnew
    exact ⟨_, _, a, by simp [bmap, hd, hi, hind, hb, hind0, hent, hb₂, ha], hg₁.trans hg₂, fun _ => hnew⟩
  · -- the indirect block is there: allocate the block
    have hent : getEntry (dev.data (ip.addrs NDIRECT)) (bn - NDIRECT) = 0 := by
      simpa [blockOf, hd, hind] using h0
    rcases hb : balloc dev with ⟨dev₁, a⟩
    by_cases ha : a = 0
    · exact ⟨ip, dev₁, 0, by simp [bmap, hd, hi, hind, hent, hb, ha], hs.grows_of_keeps (balloc_keeps hb),
        fun h => absurd rfl h⟩
    obtain ⟨hg, hnew, -⟩ := bmap_indirect_grows hs (Nat.le_of_not_lt hd) hind h0 hb ha
    exact ⟨ip, _, a, by simp [bmap, hd, hi, hind, hent, hb, ha], hg, fun _ => hnew⟩

end Bmap

/-! ## Offsets and blocks -/

theorem maxfile_bytes_lt : MAXFILE * BSIZE < 2 ^ 32 := by decide

/-- An offset below `MAXFILE * BSIZE` lies in a block `bmap` maps. -/
theorem div_lt_maxfile {p : Nat} (h : p < MAXFILE * BSIZE) : p / BSIZE < MAXFILE :=
  Nat.div_lt_of_lt_mul (by rw [Nat.mul_comm]; exact h)

/-- The bytes a pass copies lie in the block of its first offset. -/
theorem div_eq_of_inBlock {off p len : Nat} (hfit : off % BSIZE + len ≤ BSIZE) (h₁ : off ≤ p) (h₂ : p < off + len) :
    p / BSIZE = off / BSIZE := by
  unfold BSIZE at *
  omega

/-- Within one block, offsets compare as their positions in the block. -/
theorem inBlock_iff {off p len : Nat} (hp : p / BSIZE = off / BSIZE) :
    (off % BSIZE ≤ p % BSIZE ∧ p % BSIZE < off % BSIZE + len) ↔ (off ≤ p ∧ p < off + len) := by
  unfold BSIZE at *
  omega

theorem mod_sub_mod_of_div_eq {off p : Nat} (hp : p / BSIZE = off / BSIZE) : p % BSIZE - off % BSIZE = p - off := by
  unfold BSIZE at *
  omega

/-! ## Writing -/

/-- **`bs` written at `off`**: the file stays sound with the same size and
keeps its blocks, the blocks under `[off, off + bs.length)` are there, and
the bytes there are `bs`, the others as they were. -/
structure Wrote (ip : FileInode) (dev : BlockDev) (off : Nat) (bs : List UInt8) (ip' : FileInode) (dev' : BlockDev) :
    Prop where
  sound : Sound ip' dev'
  bound : off + bs.length ≤ MAXFILE * BSIZE
  size : ip'.size = ip.size
  blocks : ∀ bn < MAXFILE, blockOf ip dev bn ≠ 0 → blockOf ip' dev' bn = blockOf ip dev bn
  filled : ∀ p, off ≤ p → p < off + bs.length → blockOf ip' dev' (p / BSIZE) ≠ 0
  bytes : ∀ p, p / BSIZE < MAXFILE →
    byteAt ip' dev' p = if off ≤ p ∧ p < off + bs.length then bs.getD (p - off) 0 else byteAt ip dev p

section Write

variable {ip ip₁ ip₂ : FileInode} {dev dev₁ dev₂ : BlockDev} {off : Nat}

/-- A step that keeps the file wrote nothing. -/
theorem Grows.wrote (hg : Grows ip dev ip₁ dev₁) (hoff : off ≤ MAXFILE * BSIZE) : Wrote ip dev off [] ip₁ dev₁ where
  sound := hg.sound
  bound := hoff
  size := hg.size
  blocks := hg.blocks
  filled _ h₁ h₂ := absurd h₂ (by simpa using h₁)
  bytes p hp := by
    rw [hg.bytes p hp, if_neg (by simp only [List.length_nil, Nat.add_zero]; omega)]

/-- A step that keeps the file, then a write. -/
theorem Grows.trans_wrote {bs : List UInt8} (hg : Grows ip dev ip₁ dev₁) (hw : Wrote ip₁ dev₁ off bs ip₂ dev₂) :
    Wrote ip dev off bs ip₂ dev₂ where
  sound := hw.sound
  bound := hw.bound
  size := hw.size.trans hg.size
  blocks bn hbn h := (hw.blocks bn hbn (by rw [hg.blocks bn hbn h]; exact h)).trans (hg.blocks bn hbn h)
  filled := hw.filled
  bytes p hp := by
    rw [hw.bytes p hp, hg.bytes p hp]

/-- **Two writes, one after the other, write their bytes in turn.** -/
theorem Wrote.append {bs₁ bs₂ : List UInt8} {off₂ : Nat} (hw₁ : Wrote ip dev off bs₁ ip₁ dev₁)
    (hw₂ : Wrote ip₁ dev₁ off₂ bs₂ ip₂ dev₂) (hoff : off₂ = off + bs₁.length) :
    Wrote ip dev off (bs₁ ++ bs₂) ip₂ dev₂ := by
  subst hoff
  refine ⟨hw₂.sound, by simpa [Nat.add_assoc] using hw₂.bound, hw₂.size.trans hw₁.size, fun bn hbn h => ?_,
    fun p h₁ h₂ => ?_, fun p hp => ?_⟩
  · rw [hw₂.blocks bn hbn (by rw [hw₁.blocks bn hbn h]; exact h)]
    exact hw₁.blocks bn hbn h
  · rw [List.length_append] at h₂
    by_cases hp : p < off + bs₁.length
    · -- a block the first write filled, kept by the second
      have hbn : p / BSIZE < MAXFILE := div_lt_maxfile (by have := hw₁.bound; omega)
      rw [hw₂.blocks _ hbn (hw₁.filled p h₁ hp)]
      exact hw₁.filled p h₁ hp
    · exact hw₂.filled p (by omega) (by omega)
  · rw [hw₂.bytes p hp, hw₁.bytes p hp, List.length_append]
    by_cases h₂ : off + bs₁.length ≤ p ∧ p < off + bs₁.length + bs₂.length
    · rw [if_pos h₂, if_pos (by omega), List.getD_append_right _ _ _ _ (by omega), Nat.sub_sub]
    · rw [if_neg h₂]
      by_cases h₁ : off ≤ p ∧ p < off + bs₁.length
      · rw [if_pos h₁, if_pos (by omega), List.getD_append _ _ _ _ (by omega)]
      · rw [if_neg h₁, if_neg (by omega)]

/-- **A pass of `writei`**: copying `bs` into the block of `off` the file
has, within that block, writes `bs` at `off`. The block is apart from the
file's other blocks and from its indirect block, so nothing else changes. -/
theorem Sound.writeBlock {addr : Nat} {bs : List UInt8} (hs : Sound ip dev) (hbn : off / BSIZE < MAXFILE)
    (haddr : blockOf ip dev (off / BSIZE) = addr) (ha : addr ≠ 0) (hfit : off % BSIZE + bs.length ≤ BSIZE) :
    Wrote ip dev off bs ip
      { dev with data := Function.update dev.data addr (writeBytes (dev.data addr) (off % BSIZE) bs) } := by
  have hind : addr ≠ ip.addrs NDIRECT := haddr ▸ hs.ne_ind hbn (haddr ▸ ha)
  have hbk : ∀ bn, blockOf ip
      { dev with data := Function.update dev.data addr (writeBytes (dev.data addr) (off % BSIZE) bs) } bn =
        blockOf ip dev bn := by
    intro bn
    simp [blockOf, Function.update_of_ne (Ne.symm hind)]
  refine ⟨hs.of_blockOf rfl (fun _ h => h) rfl hbk, ?_, rfl, fun bn _ _ => hbk bn, fun p h₁ h₂ => ?_, fun p hp => ?_⟩
  · unfold MAXFILE NDIRECT NINDIRECT BSIZE at *
    omega
  · rw [hbk, div_eq_of_inBlock hfit h₁ h₂, haddr]
    exact ha
  · unfold byteAt
    rw [hbk]
    by_cases hp' : p / BSIZE = off / BSIZE
    · -- the block written to
      rw [hp', haddr, if_neg ha, if_neg ha]
      simp only [Function.update_self, writeBytes, inBlock_iff hp', mod_sub_mod_of_div_eq hp']
    · -- another block: the file's blocks are distinct
      have hout : ¬(off ≤ p ∧ p < off + bs.length) := fun h => hp' (div_eq_of_inBlock hfit h.1 h.2)
      rw [if_neg hout]
      by_cases hz : blockOf ip dev (p / BSIZE) = 0
      · simp [hz]
      · rw [if_neg hz, if_neg hz]
        simp only [Function.update_of_ne (haddr ▸ hs.distinct _ hp _ hbn hp' hz)]

/-- **The loop of `writei`** writes the bytes it counts: it ends `tot`
bytes on, having written the first `tot` bytes of `src`. -/
theorem writeLoop_spec : ∀ (fuel : Nat) {ip : FileInode} {dev : BlockDev} {off : Nat} {src : List UInt8}
    {ip' : FileInode} {dev' : BlockDev} {off' tot : Nat}, Sound ip dev → off + src.length ≤ MAXFILE * BSIZE →
    writeLoop fuel ip dev off src = .ok (ip', dev', off', tot) → off' = off + tot ∧ Wrote ip dev off (src.take tot) ip' dev'
  | 0, ip, dev, off, src, ip', dev', off', tot, hs, hb, hw => by
    simp only [writeLoop, Except.ok.injEq, Prod.mk.injEq] at hw
    obtain ⟨rfl, rfl, rfl, rfl⟩ := hw
    exact ⟨rfl, hs.grows_self.wrote (by omega)⟩
  | fuel + 1, ip, dev, off, src, ip', dev', off', tot, hs, hb, hw => by
    by_cases hsrc : src = []
    · simp only [writeLoop, if_pos hsrc, Except.ok.injEq, Prod.mk.injEq] at hw
      obtain ⟨rfl, rfl, rfl, rfl⟩ := hw
      exact ⟨rfl, hs.grows_self.wrote (by omega)⟩
    have hlen := List.length_pos_iff.mpr hsrc
    have hbn : off / BSIZE < MAXFILE := div_lt_maxfile (by omega)
    obtain ⟨ip₁, dev₁, addr, hbm, hg, haddr⟩ := bmap_spec hs hbn
    simp only [writeLoop, if_neg hsrc, hbm, bind, Except.bind] at hw
    by_cases ha : addr = 0
    · -- the disk is full: the loop stops where it is
      simp only [if_pos ha, Except.ok.injEq, Prod.mk.injEq] at hw
      obtain ⟨rfl, rfl, rfl, rfl⟩ := hw
      exact ⟨rfl, hg.wrote (by omega)⟩
    rw [if_neg ha] at hw
    -- one pass writes `m` bytes into the block of `off`
    have hmod := Nat.mod_lt off (show 0 < BSIZE by decide)
    have hwb : Wrote ip₁ dev₁ off (src.take (min src.length (BSIZE - off % BSIZE))) ip₁ _ :=
      hg.sound.writeBlock hbn (haddr ha) ha (by rw [List.length_take]; omega)
    cases hrec : writeLoop fuel ip₁ { dev₁ with data := (Function.update dev₁.data addr
        (writeBytes (dev₁.data addr) (off % BSIZE) (src.take (min src.length (BSIZE - off % BSIZE))))) }
        (off + min src.length (BSIZE - off % BSIZE)) (src.drop (min src.length (BSIZE - off % BSIZE))) with
    | error e => simp [hrec] at hw
    | ok r =>
      obtain ⟨ip₂, dev₂, off₂, tot₂⟩ := r
      simp only [hrec, Except.ok.injEq, Prod.mk.injEq] at hw
      obtain ⟨rfl, rfl, rfl, rfl⟩ := hw
      obtain ⟨hoff, hw₂⟩ := writeLoop_spec fuel hwb.sound (by rw [List.length_drop]; omega) hrec
      refine ⟨by omega, ?_⟩
      rw [List.take_add]
      exact hg.trans_wrote (hwb.append hw₂ (by rw [List.length_take]; omega))

end Write

/-! ## Reading -/

section Read

variable {ip : FileInode} {dev : BlockDev}

/-- The bytes a pass of `readi` copies from the block of `off`, within that
block, are the file's bytes from `off`. -/
theorem blockBytes_eq {off m : Nat} (hblk : blockOf ip dev (off / BSIZE) ≠ 0) (hm : off % BSIZE + m ≤ BSIZE) :
    ((List.range m).map fun j => dev.data (blockOf ip dev (off / BSIZE)) (off % BSIZE + j)) =
      (List.range m).map fun j => byteAt ip dev (off + j) := by
  apply List.map_congr_left
  intro j hj
  have hj' := List.mem_range.mp hj
  have hdiv : (off + j) / BSIZE = off / BSIZE := div_eq_of_inBlock hm (Nat.le_add_right off j) (by omega)
  have hmod' : (off + j) % BSIZE = off % BSIZE + j := by
    unfold BSIZE at hdiv hm ⊢
    omega
  simp only [byteAt, hdiv, hmod', if_neg hblk]

/-- **The loop of `readi`** over blocks the file has copies its bytes, with
fuel for one byte a pass, and allocates nothing. -/
theorem readLoop_spec (hs : Sound ip dev) : ∀ (fuel off left : Nat), left ≤ fuel → off + left ≤ MAXFILE * BSIZE →
    (∀ p, off ≤ p → p < off + left → blockOf ip dev (p / BSIZE) ≠ 0) →
    readLoop fuel ip dev off left = .ok (ip, dev, (List.range left).map fun j => byteAt ip dev (off + j))
  | 0, off, left, hf, _, _ => by
    rw [Nat.le_zero.mp hf]
    rfl
  | fuel + 1, off, left, hf, hb, hfill => by
    by_cases hl : left = 0
    · subst hl
      simp [readLoop]
    have hblk := hfill off (Nat.le_refl off) (by omega)
    have hmod := Nat.mod_lt off (show 0 < BSIZE by decide)
    -- the pass copies `m` bytes of the block of `off`, at least one
    have hm : 0 < min left (BSIZE - off % BSIZE) := by omega
    simp only [readLoop, if_neg hl, bmap_of_present (div_lt_maxfile (by omega)) hblk, bind, Except.bind, if_neg hblk]
    rw [readLoop_spec hs fuel _ _ (by omega) (by omega) (fun p h₁ h₂ => hfill p (by omega) (by omega))]
    simp only [Except.ok.injEq, Prod.mk.injEq, true_and]
    have hsplit : left = min left (BSIZE - off % BSIZE) + (left - min left (BSIZE - off % BSIZE)) := by omega
    rw [congrArg List.range hsplit, List.range_add, List.map_append, List.map_map]
    congr 1
    · exact blockBytes_eq hblk (by omega)
    · apply List.map_congr_left
      intro j _
      simp only [Function.comp_apply, Nat.add_assoc]

/-- A byte below the size of a well-formed file lies in a block it has. -/
theorem Wf.blockOf_ne_zero (hwf : Wf ip dev) {p : Nat} (hp : p < ip.size) : blockOf ip dev (p / BSIZE) ≠ 0 := by
  have hsize := hwf.size_le
  have hdiv : p / BSIZE * BSIZE < ip.size := Nat.lt_of_le_of_lt (Nat.div_mul_le_self p BSIZE) hp
  exact hwf.filled _ (div_lt_maxfile (by omega)) hdiv

/-- What a read of a well-formed file within its size returns. -/
theorem readLoop_of_wf (hwf : Wf ip dev) {o n : Nat} (h : o + n ≤ ip.size) :
    readLoop n ip dev o n = .ok (ip, dev, (List.range n).map fun j => byteAt ip dev (o + j)) := by
  have hsize := hwf.size_le
  exact readLoop_spec hwf.sound n o n (Nat.le_refl n) (by omega) fun p _ hp => hwf.blockOf_ne_zero (by omega)

/-- **`readi` within the file** returns its bytes. -/
theorem readi_spec (hwf : Wf ip dev) {o k : Nat} (h : o + k ≤ ip.size) :
    readi ip dev o k = .ok (ip, dev, (List.range k).map fun j => byteAt ip dev (o + j)) := by
  have hsize := hwf.size_le
  have hmod : (o + k) % 2 ^ 32 = o + k := Nat.mod_eq_of_lt (by have := maxfile_bytes_lt; omega)
  unfold readi
  rw [if_neg (by omega), hmod, if_neg (by omega)]
  exact readLoop_of_wf hwf h

/-- `readi` past the end of the file stops at its size, where `o + k` does
not wrap. -/
theorem readi_clamp (hwf : Wf ip dev) {o k : Nat} (ho : o ≤ ip.size) (hk : ip.size < o + k) (hw : o + k < 2 ^ 32) :
    readi ip dev o k = .ok (ip, dev, (List.range (ip.size - o)).map fun j => byteAt ip dev (o + j)) := by
  have hmod : (o + k) % 2 ^ 32 = o + k := Nat.mod_eq_of_lt hw
  unfold readi
  rw [if_neg (by omega), hmod, if_pos hk]
  exact readLoop_of_wf hwf (by omega)

end Read

/-! ## Read after write -/

section ReadAfterWrite

variable {ip ip' : FileInode} {dev dev' : BlockDev} {off : Nat} {src : List UInt8}

/-- **A write from within the file leaves it well formed**, with the size
`iupdate` writes back: the blocks below the old size stay, and the write
filled those past it. -/
theorem Wf.of_wrote {ip₁ : FileInode} {dev₁ : BlockDev} {bs : List UInt8} {t : Nat} (hwf : Wf ip dev)
    (hoff : off ≤ ip.size) (hwr : Wrote ip dev off bs ip₁ dev₁) (haddrs : ip'.addrs = ip₁.addrs) (ht : t ≤ bs.length)
    (hsize : ip'.size = max ip.size (off + t)) : Wf ip' dev₁ := by
  have hbound := hwr.bound
  have hsize_le := hwf.size_le
  refine ⟨hwr.sound.of_addrs haddrs, by omega, fun bn hbn hlt => ?_⟩
  rw [blockOf_of_addrs haddrs]
  by_cases hold : bn * BSIZE < ip.size
  · rw [hwr.blocks bn hbn (hwf.filled bn hbn hold)]
    exact hwf.filled bn hbn hold
  · -- a block past the old size: the write filled it
    have := hwr.filled (bn * BSIZE) (by omega) (by omega)
    rwa [Nat.mul_div_cancel bn (show 0 < BSIZE by decide)] at this

/-- **`readi` reads back what `writei` wrote.** A write of `n` bytes into a
well-formed file, within `MAXFILE` blocks, that returns `n` sets the size to
`max size (off + n)` and leaves the file well formed. A read within the new
size then returns its bytes: those of `src` inside `[off, off + n)`, the old
ones elsewhere. A read from past the size returns nothing, and one that runs
past the size, where `o + k` does not wrap at `2 ^ 32`, stops there. -/
theorem writei_then_readi (hwf : Wf ip dev) (hoff : off ≤ ip.size) (hmax : off + src.length ≤ MAXFILE * BSIZE)
    (hw : writei ip dev off src = .ok (ip', dev', src.length)) :
    ip'.size = max ip.size (off + src.length) ∧ Wf ip' dev' ∧
      (∀ o k, o + k ≤ ip'.size → readi ip' dev' o k = .ok (ip', dev', (List.range k).map fun j =>
        if off ≤ o + j ∧ o + j < off + src.length then src.getD (o + j - off) 0 else byteAt ip dev (o + j))) ∧
      (∀ o k, ip'.size < o → readi ip' dev' o k = .ok (ip', dev', [])) ∧
      (∀ o k, o ≤ ip'.size → ip'.size < o + k → o + k < 2 ^ 32 →
        readi ip' dev' o k = .ok (ip', dev', (List.range (ip'.size - o)).map fun j =>
          if off ≤ o + j ∧ o + j < off + src.length then src.getD (o + j - off) 0 else byteAt ip dev (o + j))) := by
  have hsize := hwf.size_le
  have hmod : (off + src.length) % 2 ^ 32 = off + src.length := Nat.mod_eq_of_lt (by have := maxfile_bytes_lt; omega)
  unfold writei at hw
  rw [hmod, if_neg (by omega), if_neg (by omega)] at hw
  cases hl : writeLoop src.length ip dev off src with
  | error e => simp [hl, bind, Except.bind] at hw
  | ok r =>
    obtain ⟨ip₁, dev₁, off₁, tot⟩ := r
    simp only [hl, bind, Except.bind, Except.ok.injEq, Prod.mk.injEq] at hw
    obtain ⟨hip, rfl, htot⟩ := hw
    have htot' : tot = src.length := by exact_mod_cast htot
    subst htot'
    obtain ⟨hoff₁, hwr⟩ := writeLoop_spec src.length hwf.sound hmax hl
    rw [List.take_length] at hwr
    -- `iupdate` writes back the size and nothing else
    have haddrs : ip'.addrs = ip₁.addrs := by
      rw [← hip]
      split <;> rfl
    have hsize' : ip'.size = max ip.size (off + src.length) := by
      rw [← hip]
      by_cases hgt : off₁ > ip₁.size
      · rw [if_pos hgt, ← hwr.size]
        simp only
        omega
      · rw [if_neg hgt, ← hwr.size]
        omega
    have hwf' : Wf ip' dev₁ := hwf.of_wrote hoff hwr haddrs le_rfl hsize'
    -- the bytes `readi` returns, as the write left them
    have hbytes : ∀ o n, o + n ≤ ip'.size → ((List.range n).map fun j => byteAt ip' dev₁ (o + j)) =
        (List.range n).map fun j =>
          if off ≤ o + j ∧ o + j < off + src.length then src.getD (o + j - off) 0 else byteAt ip dev (o + j) := by
      intro o n h
      apply List.map_congr_left
      intro j hj
      have hj' := List.mem_range.mp hj
      rw [byteAt_of_addrs haddrs, hwr.bytes (o + j) (div_lt_maxfile (by omega))]
    refine ⟨hsize', hwf', fun o k h => ?_, fun o k h => ?_, fun o k ho hk h32 => ?_⟩
    · rw [readi_spec hwf' h, hbytes o k h]
    · unfold readi
      rw [if_pos (Or.inl h)]
    · rw [readi_clamp hwf' ho hk h32, hbytes o _ (by omega)]

end ReadAfterWrite

/-- An empty file on a disk of four blocks, block `0` in use. -/
def emptyFile : FileInode := ⟨0, fun _ => 0⟩

/-- The disk of `emptyFile`. -/
def emptyDisk : BlockDev := ⟨4, fun _ _ => 0, fun b => b == 0⟩

/-- `emptyFile` after `writei` of the byte `7` at `0`: block `1` allocated. -/
def oneByteFile : FileInode := ⟨1, Function.update (fun _ => 0) 0 1⟩

/-- The disk of `oneByteFile`. -/
def oneByteDisk : BlockDev :=
  ⟨4, Function.update (Function.update (fun _ _ => 0) 1 fun _ => 0) 1 (writeBytes (fun _ => 0) 0 [7]),
    Function.update (fun b => b == 0) 1 true⟩

theorem writei_then_readi_one_byte :
    Wf emptyFile emptyDisk ∧ writei emptyFile emptyDisk 0 [7] = .ok (oneByteFile, oneByteDisk, 1) ∧
      readi oneByteFile oneByteDisk 0 1 = .ok (oneByteFile, oneByteDisk, [7]) := by
  have hempty : ∀ bn, blockOf emptyFile emptyDisk bn = 0 := by
    intro bn
    simp [blockOf, emptyFile]
  have hwf : Wf emptyFile emptyDisk :=
    ⟨⟨by decide, fun bn _ h => absurd (hempty bn) h, fun h => absurd rfl h, fun bn _ _ _ _ h => absurd (hempty bn) h,
      fun _ _ h => absurd rfl h⟩, Nat.zero_le _, fun _ _ h => absurd h (Nat.not_lt_zero _)⟩
  have hw : writei emptyFile emptyDisk 0 [7] = .ok (oneByteFile, oneByteDisk, 1) := rfl
  refine ⟨hwf, hw, ?_⟩
  rw [(writei_then_readi hwf (Nat.le_refl 0) (by decide) hw).2.2.1 0 1 (by decide)]
  rfl

/-- A file of two bytes, in block `1` of a disk of two blocks. -/
def twoByteFile : FileInode := ⟨2, fun bn => if bn = 0 then 1 else 0⟩

/-- The disk of `twoByteFile`: block `1` marked, every byte `0`. -/
def twoByteDisk : BlockDev := ⟨2, fun _ _ => 0, fun b => b == 1⟩

/-- At offset `1` of a well-formed file of two bytes, a read of `2 ^ 32 - 1`
bytes wraps `off + n` to `0`, and `readi` returns none of the one byte left. -/
theorem readi_wraps_past_end :
    Wf twoByteFile twoByteDisk ∧ twoByteFile.size - 1 = 1 ∧
      readi twoByteFile twoByteDisk 1 (2 ^ 32 - 1) = .ok (twoByteFile, twoByteDisk, []) := by
  have hblk : ∀ bn, blockOf twoByteFile twoByteDisk bn = if bn = 0 then 1 else 0 := by
    intro bn
    by_cases hd : bn < NDIRECT
    · simp [blockOf, twoByteFile, hd]
    · have hbn : bn ≠ 0 := by unfold NDIRECT at hd; omega
      simp [blockOf, twoByteFile, hd, hbn, show NDIRECT ≠ 0 by decide]
  have hsound : Sound twoByteFile twoByteDisk := by
    refine ⟨by decide, fun bn _ h => ?_, fun h => absurd rfl h, fun bn _ bn' _ hne h => ?_, fun _ _ h => absurd rfl h⟩
    · rw [hblk] at h ⊢
      by_cases h0 : bn = 0
      · simp [h0, twoByteDisk]
      · simp [h0] at h
    · rw [hblk, hblk] at *
      by_cases h0 : bn = 0
      · have h0' : bn' ≠ 0 := by omega
        simp [h0, h0']
      · simp [h0] at h
  refine ⟨⟨hsound, by decide, fun bn _ hlt => ?_⟩, rfl, ?_⟩
  · have h0 : bn = 0 := by
      simp only [twoByteFile, BSIZE] at hlt
      omega
    simp [hblk, h0]
  · unfold readi
    rw [if_pos (Or.inr (by decide))]

end Fs

end Mkros
