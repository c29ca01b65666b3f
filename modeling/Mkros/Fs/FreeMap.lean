import Mathlib.Data.List.Find
import Mathlib.Data.List.Range
import Mkros.Fs.Data
import Mkros.Lib.Bitmap
/-!
# The block bitmap: `balloc` and `bfree` bit by bit

On disk the free map is a run of blocks from `sb.bmapstart`: block `b`'s bit
is bit `b % 8` of byte `(b % BPB) / 8` of block `BBLOCK(b)` (`used`).
`balloc` walks the map a bitmap block at a time, `BPB` blocks to each, and in
each the blocks below `sb.size`; at the first clear bit it sets it and zeroes
the block. `bfree` clears a block's bit, and panics on a clear one.

Both loops are the search `firstFree` of the lowest clear bit
(`balloc_eq`): the inner one within a bitmap block (`ballocScan_eq`), the
outer one over the blocks in turn (`ballocLoop_eq`). Zeroing the block found
changes the map only where the block is itself a bitmap block, which `mkfs`
marks in use (`MapMarked`). Where it does, the model of `Mkros.Fs.Data`, which
keeps the bitmap apart from the blocks, is what the disk does
(`balloc_refines`).

`log_write` and the buffer cache pass the writes through, as in
`Mkros.Fs.Data`; `printk("balloc: out of blocks")` is left out.
-/

namespace Mkros

namespace Fs

namespace FreeMap

open Bitmap

/-- `BPB`: bitmap bits per block. -/
def BPB : Nat := BSIZE * 8

/-- The fields of `struct superblock` these functions read. -/
structure Superblock where
  size : Nat
  bmapstart : Nat

/-- `BBLOCK(b, sb)`: the block of the free map with block `b`'s bit. -/
def BBLOCK (b : Nat) (sb : Superblock) : Nat := b / BPB + sb.bmapstart

/-- The disk: each block's bytes. -/
abbrev Disk := Nat → Bytes

/-- `m = 1 << (bi % 8)`. -/
def mask (bi : Nat) : UInt8 := 1 <<< (bi % 8).toUInt8

/-- `bzero(dev, bno)`. -/
def bzero (d : Disk) (bno : Nat) : Disk := Function.update d bno fun _ => 0

/-- The inner loop of `balloc`, in the bitmap block `bp` of the blocks from
`b`, from `bi` on, for at most `fuel` rounds: the first `bi` whose bit is
clear. -/
def ballocScan (bp : Bytes) (size b : Nat) : Nat → Nat → Option Nat
  | 0, _ => none
  | fuel + 1, bi =>
    if bi < BPB ∧ b + bi < size then
      if bp (bi / 8) &&& mask bi = 0 then some bi else ballocScan bp size b fuel (bi + 1)
    else none

/-- The outer loop of `balloc` from block `b`, for at most `fuel` bitmap
blocks: the disk, and the block allocated or `0`. -/
def ballocLoop (d : Disk) (sb : Superblock) : Nat → Nat → Disk × Nat
  | 0, _ => (d, 0)
  | fuel + 1, b =>
    if b < sb.size then
      let bp := d (BBLOCK b sb)
      match ballocScan bp sb.size b BPB 0 with
      | some bi =>
        -- `bp->data[bi / 8] |= m; log_write(bp); brelse(bp); bzero(dev, b + bi);`
        let d := Function.update d (BBLOCK b sb) (Function.update bp (bi / 8) (bp (bi / 8) ||| mask bi))
        (bzero d (b + bi), b + bi)
      | none => ballocLoop d sb fuel (b + BPB)
    else (d, 0)

/-- `balloc(dev)`: the disk, and the block allocated, zeroed, or `0`. The
loop takes a round for each bitmap block up to `sb.size`. -/
def balloc (d : Disk) (sb : Superblock) : Disk × Nat := ballocLoop d sb (sb.size / BPB + 1) 0

/-- `bfree(dev, b)`. A panic is an `error` with its message. -/
def bfree (d : Disk) (sb : Superblock) (b : Nat) : Except String Disk :=
  let bp := d (BBLOCK b sb)
  let bi := b % BPB
  let m := mask bi
  if bp (bi / 8) &&& m = 0 then .error "freeing free block"
  else .ok (Function.update d (BBLOCK b sb) (Function.update bp (bi / 8) (bp (bi / 8) &&& ~~~m)))

/-! ## The map, bit by bit -/

/-- **Block `b`'s bit**: bit `b % 8` of byte `(b % BPB) / 8` of `BBLOCK(b)`. -/
def used (d : Disk) (sb : Superblock) (b : Nat) : Bool := byteBit (d (BBLOCK b sb) (b % BPB / 8)) (b % 8)

/-- Block `b`'s bit set, `bp->data[bi / 8] |= m`. -/
def mark (d : Disk) (sb : Superblock) (b : Nat) : Disk :=
  Function.update d (BBLOCK b sb)
    (Function.update (d (BBLOCK b sb)) (b % BPB / 8) (d (BBLOCK b sb) (b % BPB / 8) ||| mask (b % BPB)))

/-- Block `b`'s bit cleared, `bp->data[bi / 8] &= ~m`. -/
def unmark (d : Disk) (sb : Superblock) (b : Nat) : Disk :=
  Function.update d (BBLOCK b sb)
    (Function.update (d (BBLOCK b sb)) (b % BPB / 8) (d (BBLOCK b sb) (b % BPB / 8) &&& ~~~mask (b % BPB)))

/-- The lowest block below `sb.size` whose bit is clear. -/
def firstFree (d : Disk) (sb : Superblock) : Option Nat := (List.range sb.size).find? fun b => !used d sb b

/-- **The map is marked where it lies**: every bitmap block below
`sb.size`, of a block below it, has its own bit set, as `mkfs` leaves it. -/
def MapMarked (d : Disk) (sb : Superblock) : Prop :=
  ∀ b < sb.size, BBLOCK b sb < sb.size → used d sb (BBLOCK b sb) = true

instance (d : Disk) (sb : Superblock) : Decidable (MapMarked d sb) := by
  unfold MapMarked
  infer_instance

variable {d : Disk} {sb : Superblock}

/-! ### Where a block's bit lies -/

/-- The mask of `b % BPB` tests bit `b % 8`. -/
theorem mask_mod (b : Nat) : mask (b % BPB) = 1 <<< (b % 8).toUInt8 := by
  unfold mask BPB BSIZE
  rw [Nat.mod_mod_of_dvd b (by decide)]

/-- A block's place in the map, its bitmap block, byte and bit, is its own. -/
theorem eq_of_place {b r : Nat} (hblk : BBLOCK b sb = BBLOCK r sb) (hbyte : b % BPB / 8 = r % BPB / 8)
    (hbit : b % 8 = r % 8) : b = r := by
  unfold BBLOCK BPB BSIZE at *
  omega

/-- The blocks of one bitmap block: `b + bi` has its bit at bit `bi` of the
group's bitmap block. -/
theorem place_in_group {b bi : Nat} (hb : b % BPB = 0) (hbi : bi < BPB) :
    BBLOCK (b + bi) sb = BBLOCK b sb ∧ (b + bi) % BPB = bi := by
  unfold BBLOCK BPB BSIZE at *
  omega

/-- The test `bp->data[bi / 8] & m` reads block `b + bi`'s bit. -/
theorem test_iff_used {b bi : Nat} (hb : b % BPB = 0) (hbi : bi < BPB) :
    d (BBLOCK b sb) (bi / 8) &&& mask bi = 0 ↔ used d sb (b + bi) = false := by
  obtain ⟨hblk, hmod⟩ : BBLOCK (b + bi) sb = BBLOCK b sb ∧ (b + bi) % BPB = bi := place_in_group hb hbi
  have hmask : mask bi = 1 <<< ((b + bi) % 8).toUInt8 := by
    have := mask_mod (b + bi)
    rw [hmod] at this
    exact this
  rw [hmask, and_one_shiftLeft_eq_zero _ (Nat.mod_lt _ (by decide)), used, hblk, hmod]

/-! ### What the writes do to the map -/

/-- **Setting a block's bit sets that bit and no other.** -/
theorem used_mark (r b : Nat) : used (mark d sb r) sb b = (used d sb b || decide (b = r)) := by
  unfold used mark
  by_cases hblk : BBLOCK b sb = BBLOCK r sb
  · by_cases hbyte : b % BPB / 8 = r % BPB / 8
    · rw [hblk, hbyte, Function.update_self, Function.update_self, mask_mod, byteBit_or,
        byteBit_one_shiftLeft (Nat.mod_lt _ (by decide))]
      by_cases hbit : b % 8 = r % 8
      · simp [eq_of_place hblk hbyte hbit]
      · have hne : b ≠ r := fun h => hbit (h ▸ rfl)
        simp [hbit, hne]
    · have hne : b ≠ r := fun h => hbyte (h ▸ rfl)
      rw [hblk, Function.update_self, Function.update_of_ne hbyte]
      simp [hne]
  · have hne : b ≠ r := fun h => hblk (h ▸ rfl)
    rw [Function.update_of_ne hblk]
    simp [hne]

/-- **Clearing a block's bit clears that bit and no other.** -/
theorem used_unmark (r b : Nat) : used (unmark d sb r) sb b = (used d sb b && !decide (b = r)) := by
  unfold used unmark
  by_cases hblk : BBLOCK b sb = BBLOCK r sb
  · by_cases hbyte : b % BPB / 8 = r % BPB / 8
    · rw [hblk, hbyte, Function.update_self, Function.update_self, mask_mod, byteBit_and,
        byteBit_not _ (Nat.mod_lt _ (by decide)), byteBit_one_shiftLeft (Nat.mod_lt _ (by decide))]
      by_cases hbit : b % 8 = r % 8
      · simp [eq_of_place hblk hbyte hbit]
      · have hne : b ≠ r := fun h => hbit (h ▸ rfl)
        simp [hbit, hne]
    · have hne : b ≠ r := fun h => hbyte (h ▸ rfl)
      rw [hblk, Function.update_self, Function.update_of_ne hbyte]
      simp [hne]
  · have hne : b ≠ r := fun h => hblk (h ▸ rfl)
    rw [Function.update_of_ne hblk]
    simp [hne]

/-- Zeroing a block clears every bit it holds. -/
theorem used_bzero (blk b : Nat) : used (bzero d blk) sb b = if BBLOCK b sb = blk then false else used d sb b := by
  unfold used bzero
  by_cases hblk : BBLOCK b sb = blk
  · rw [if_pos hblk, hblk, Function.update_self]
    simp [byteBit]
  · rw [if_neg hblk, Function.update_of_ne hblk]

/-- In a map marked where it lies, a clear block below `sb.size` is no
bitmap block of a block below it. -/
theorem MapMarked.ne_bblock (hm : MapMarked d sb) {r b : Nat} (hr : r < sb.size) (hfree : used d sb r = false)
    (hb : b < sb.size) : BBLOCK b sb ≠ r := by
  intro h
  have hused := hm b hb (h ▸ hr)
  rw [h, hfree] at hused
  exact Bool.false_ne_true hused

/-! ### The loops are the search -/

/-- **The inner loop is the search within a bitmap block**: with fuel for
the rest of the block, the first `bi` from where it is whose bit is clear,
below `BPB` and `sb.size`. -/
theorem ballocScan_eq (bp : Bytes) (size b : Nat) :
    ∀ (fuel bi : Nat), min BPB (size - b) - bi ≤ fuel →
      ballocScan bp size b fuel bi =
        (List.range' bi (min BPB (size - b) - bi)).find? fun j => decide (bp (j / 8) &&& mask j = 0)
  | 0, bi, h => by
    rw [Nat.le_zero.mp h]
    rfl
  | fuel + 1, bi, h => by
    by_cases hin : bi < BPB ∧ b + bi < size
    · -- the rest of the block from `bi` is `bi` and the rest from `bi + 1`
      have hsplit : min BPB (size - b) - bi = (min BPB (size - b) - (bi + 1)) + 1 := by omega
      rw [ballocScan, if_pos hin, hsplit, List.range'_succ, List.find?_cons]
      by_cases hbit : bp (bi / 8) &&& mask bi = 0
      · simp only [hbit, if_true, decide_true]
      · simp only [hbit, if_false, decide_false]
        exact ballocScan_eq bp size b fuel (bi + 1) (by omega)
    · have hnil : min BPB (size - b) - bi = 0 := by omega
      rw [ballocScan, if_neg hin, hnil]
      rfl

/-- The search over one bitmap block's blocks is the search of the group's
bits, shifted to the group. -/
theorem find?_group {b : Nat} (hb : b % BPB = 0) :
    (List.range' b (min BPB (sb.size - b))).find? (fun x => !used d sb x) =
      ((List.range' 0 (min BPB (sb.size - b))).find? fun j => decide (d (BBLOCK b sb) (j / 8) &&& mask j = 0)).map
        (b + ·) := by
  have hrange : List.range' b (min BPB (sb.size - b)) = (List.range' 0 (min BPB (sb.size - b))).map (b + ·) := by
    rw [List.map_add_range', Nat.add_zero]
  rw [hrange, List.find?_map]
  congr 1
  apply List.find?_congr
  intro j hj
  have hj' : j < BPB := by
    have := (List.mem_range'.mp hj)
    omega
  simp only [Function.comp_apply, test_iff_used hb hj']
  cases used d sb (b + j) <;> rfl

/-- The blocks from `b`: those of `b`'s bitmap block, then the rest. -/
theorem range'_group (b n : Nat) : List.range' b n = List.range' b (min BPB n) ++ List.range' (b + BPB) (n - BPB) := by
  by_cases h : BPB ≤ n
  · have happ : List.range' b BPB ++ List.range' (b + 1 * BPB) (n - BPB) = List.range' b (BPB + (n - BPB)) :=
      List.range'_append
    rw [Nat.one_mul, Nat.add_sub_cancel' h] at happ
    rw [Nat.min_eq_left h, happ]
  · rw [Nat.min_eq_right (by omega), show n - BPB = 0 by omega, List.range'_zero, List.append_nil]

/-- **The outer loop is the search over the blocks from `b`**, with fuel for
the bitmap blocks up to `sb.size`: the first clear block is marked and
zeroed. -/
theorem ballocLoop_eq : ∀ (fuel b : Nat), b % BPB = 0 → sb.size - b ≤ fuel * BPB →
    ballocLoop d sb fuel b =
      match (List.range' b (sb.size - b)).find? (fun x => !used d sb x) with
      | some r => (bzero (mark d sb r) r, r)
      | none => (d, 0)
  | 0, b, _, h => by
    rw [Nat.zero_mul, Nat.le_zero] at h
    rw [h]
    rfl
  | fuel + 1, b, hb, h => by
    by_cases hlt : b < sb.size
    · -- the group of `b`'s bitmap block first, then the blocks past it
      have hscan := ballocScan_eq (d (BBLOCK b sb)) sb.size b BPB 0 (by omega)
      rw [Nat.sub_zero] at hscan
      rw [ballocLoop, if_pos hlt]
      dsimp only
      rw [hscan, range'_group b (sb.size - b), Nat.sub_sub, List.find?_append, find?_group hb]
      cases hfind : (List.range' 0 (min BPB (sb.size - b))).find? fun j => decide (d (BBLOCK b sb) (j / 8) &&& mask j = 0) with
      | some bi =>
        -- the block found is `b + bi`, its bit in `b`'s bitmap block
        have hbi : bi < BPB := by
          have := (List.mem_range'.mp (List.mem_of_find?_eq_some hfind))
          omega
        obtain ⟨hblk, hmod⟩ : BBLOCK (b + bi) sb = BBLOCK b sb ∧ (b + bi) % BPB = bi := place_in_group hb hbi
        simp only [Option.map_some, Option.some_or, mark, hblk, hmod]
      | none =>
        -- `rw`, not `simp`: reducing this `match` by `dsimp` leaves the
        -- kernel a `b + BPB` to unfold numeral by numeral
        rw [Option.map_none, Option.none_or]
        have hb' : (b + BPB) % BPB = 0 := by
          rw [Nat.add_mod_right]
          exact hb
        exact ballocLoop_eq fuel (b + BPB) hb' (by rw [Nat.succ_mul] at h; omega)
    · have hnil : sb.size - b = 0 := by omega
      rw [ballocLoop, if_neg hlt, hnil]
      rfl

/-- **`balloc` is the search for the lowest clear bit**: that block's bit
set and the block zeroed, or `0` where every bit is set. -/
theorem balloc_eq (d : Disk) (sb : Superblock) :
    balloc d sb = match firstFree d sb with
      | some r => (bzero (mark d sb r) r, r)
      | none => (d, 0) := by
  have hfuel : sb.size - 0 ≤ (sb.size / BPB + 1) * BPB := by
    unfold BPB BSIZE
    omega
  rw [balloc, ballocLoop_eq _ 0 (Nat.zero_mod _) hfuel, Nat.sub_zero, firstFree, List.range_eq_range']

/-- **The search finds the lowest clear bit below `sb.size`.** -/
theorem firstFree_eq_some_iff {r : Nat} :
    firstFree d sb = some r ↔ r < sb.size ∧ used d sb r = false ∧ ∀ b < r, used d sb b = true := by
  rw [firstFree, List.range_eq_range', List.find?_range'_eq_some, List.mem_range']
  constructor
  · rintro ⟨hfree, ⟨i, hi, rfl⟩, hlow⟩
    refine ⟨by omega, by simpa using hfree, fun b hb => ?_⟩
    simpa using hlow b (Nat.zero_le b) (by omega)
  · rintro ⟨hr, hfree, hlow⟩
    refine ⟨by simp [hfree], ⟨r, hr, by omega⟩, fun b _ hb => ?_⟩
    simp [hlow b hb]

theorem firstFree_eq_none (hall : ∀ b < sb.size, used d sb b = true) : firstFree d sb = none := by
  rw [firstFree, List.find?_eq_none]
  intro b hb
  simp [hall b (List.mem_range.mp hb)]

/-! ### `bfree` -/

theorem bfree_of_used {b : Nat} (h : used d sb b = true) : bfree d sb b = .ok (unmark d sb b) := by
  have htest : ¬d (BBLOCK b sb) (b % BPB / 8) &&& mask (b % BPB) = 0 := by
    rw [mask_mod, and_one_shiftLeft_eq_zero _ (Nat.mod_lt _ (by decide))]
    simpa [used] using h
  simp only [bfree, if_neg htest]
  rfl

theorem bfree_of_free {b : Nat} (h : used d sb b = false) : bfree d sb b = .error "freeing free block" := by
  have htest : d (BBLOCK b sb) (b % BPB / 8) &&& mask (b % BPB) = 0 := by
    rw [mask_mod, and_one_shiftLeft_eq_zero _ (Nat.mod_lt _ (by decide))]
    simpa [used] using h
  simp only [bfree, if_pos htest]

/-- **Freeing what was allocated gives the map back**: with the block's
bit clear before, setting it and clearing it again leaves its byte as it
was, so only the zeroed block differs. -/
theorem bfree_balloc (hm : MapMarked d sb) {r : Nat} (hr : r < sb.size) (hfree : used d sb r = false) :
    bfree (bzero (mark d sb r) r) sb r = .ok (bzero d r) := by
  have hne : BBLOCK r sb ≠ r := hm.ne_bblock hr hfree hr
  have hset : used (bzero (mark d sb r) r) sb r = true := by
    rw [used_bzero, if_neg hne, used_mark]
    simp
  rw [bfree_of_used hset]
  congr 1
  funext blk
  unfold unmark bzero mark
  by_cases hblk : blk = BBLOCK r sb
  · subst hblk
    rw [Function.update_self, Function.update_of_ne hne, Function.update_of_ne hne, Function.update_self]
    funext o
    by_cases ho : o = r % BPB / 8
    · subst ho
      rw [Function.update_self, Function.update_self, mask_mod,
        or_and_not_one_shiftLeft _ (Nat.mod_lt _ (by decide)) (by simpa [used] using hfree)]
    · rw [Function.update_of_ne ho, Function.update_of_ne ho]
  · rw [Function.update_of_ne hblk]
    by_cases hr' : blk = r
    · subst hr'
      rw [Function.update_self, Function.update_self]
    · rw [Function.update_of_ne hr', Function.update_of_ne hr', Function.update_of_ne hblk]

/-- What `balloc` leaves of the map: the bit of the block found set, and the
bits the zeroed block held, where it is a bitmap block, cleared. -/
theorem used_bzero_mark (r b : Nat) :
    used (bzero (mark d sb r) r) sb b = if BBLOCK b sb = r then false else (used d sb b || decide (b = r)) := by
  rw [used_bzero, used_mark]

/-- Zeroing a clear block of a map marked where it lies leaves its bits
below `sb.size` as they are. -/
theorem used_bzero_of_marked (hm : MapMarked d sb) {r b : Nat} (hr : r < sb.size) (hfree : used d sb r = false)
    (hb : b < sb.size) : used (bzero d r) sb b = used d sb b := by
  rw [used_bzero, if_neg (hm.ne_bblock hr hfree hb)]

/-- **`balloc` and `bfree` on a map marked where it lies.** `balloc`
returns the lowest block below `sb.size` whose bit is clear, sets that bit
and no other and zeroes the block, and `bfree` of it gives the map back; or,
with every bit set, it returns `0` and writes nothing. `bfree` of a block in
use clears its bit and no other. -/
theorem balloc_allocates_lowest_clear (d : Disk) (sb : Superblock) (hm : MapMarked d sb) :
    (∀ r < sb.size, used d sb r = false → (∀ b < r, used d sb b = true) →
      balloc d sb = (bzero (mark d sb r) r, r) ∧
      (∀ b < sb.size, used (balloc d sb).1 sb b = (used d sb b || decide (b = r))) ∧
      (balloc d sb).1 r = (fun _ => 0) ∧
      bfree (balloc d sb).1 sb r = .ok (bzero d r) ∧ ∀ b < sb.size, used (bzero d r) sb b = used d sb b) ∧
    ((∀ b < sb.size, used d sb b = true) → balloc d sb = (d, 0)) ∧
    ∀ b, used d sb b = true →
      bfree d sb b = .ok (unmark d sb b) ∧ ∀ b', used (unmark d sb b) sb b' = (used d sb b' && !decide (b' = b)) := by
  refine ⟨fun r hr hfree hlow => ?_, fun hall => ?_, fun b hb => ⟨bfree_of_used hb, used_unmark b⟩⟩
  · have hballoc : balloc d sb = (bzero (mark d sb r) r, r) := by
      rw [balloc_eq, firstFree_eq_some_iff.mpr ⟨hr, hfree, hlow⟩]
    refine ⟨hballoc, fun b hb => ?_, ?_, ?_, fun b hb => used_bzero_of_marked hm hr hfree hb⟩
    · rw [hballoc, used_bzero_mark, if_neg (hm.ne_bblock hr hfree hb)]
    · rw [hballoc]
      exact Function.update_self _ _ _
    · rw [hballoc]
      exact bfree_balloc hm hr hfree
  · rw [balloc_eq, firstFree_eq_none hall]

/-- A disk of three blocks, the bitmap in block 1, with blocks 0 and 1 in use. -/
def markedDisk : Disk := fun blk o => if blk = 1 ∧ o = 0 then 3 else 0

theorem markedDisk_marked : MapMarked markedDisk ⟨3, 1⟩ := by decide

theorem balloc_allocates_lowest_clear_three :
    MapMarked markedDisk ⟨3, 1⟩ ∧ balloc markedDisk ⟨3, 1⟩ = (bzero (mark markedDisk ⟨3, 1⟩ 2) 2, 2) :=
  ⟨markedDisk_marked,
    ((balloc_allocates_lowest_clear markedDisk ⟨3, 1⟩ markedDisk_marked).1 2 (by decide) (by decide) (by decide)).1⟩

/-- A disk of two blocks, the bitmap in block 1, whose bitmap block's own
bit is clear. -/
def ownBitClearDisk : Disk := fun blk o => if blk = 1 ∧ o = 0 then 1 else 0

/-- **Where the block found is a bitmap block, zeroing it clears the map.**
`balloc` returns block 1, the bitmap block itself, and `bzero` then clears
every bit it holds: block 0's bit, set before, and the bit just set; `bfree`
of the block then panics. -/
theorem balloc_zeroes_own_bitmap_block :
    balloc ownBitClearDisk ⟨2, 1⟩ = (bzero (mark ownBitClearDisk ⟨2, 1⟩ 1) 1, 1) ∧
      used ownBitClearDisk ⟨2, 1⟩ 0 = true ∧ used (balloc ownBitClearDisk ⟨2, 1⟩).1 ⟨2, 1⟩ 0 = false ∧
      used (balloc ownBitClearDisk ⟨2, 1⟩).1 ⟨2, 1⟩ 1 = false ∧
      bfree (balloc ownBitClearDisk ⟨2, 1⟩).1 ⟨2, 1⟩ 1 = .error "freeing free block" := by
  have hballoc : balloc ownBitClearDisk ⟨2, 1⟩ = (bzero (mark ownBitClearDisk ⟨2, 1⟩ 1) 1, 1) := by
    rw [balloc_eq, (firstFree_eq_some_iff (r := 1)).mpr ⟨by decide, by decide, by decide⟩]
  have hcleared : ∀ b < 2, used (balloc ownBitClearDisk ⟨2, 1⟩).1 ⟨2, 1⟩ b = false := by
    intro b hb
    have hblk : BBLOCK b ⟨2, 1⟩ = 1 := by
      unfold BBLOCK BPB BSIZE
      dsimp only
      omega
    rw [hballoc, used_bzero_mark, if_pos hblk]
  exact ⟨hballoc, by decide, hcleared 0 (by omega), hcleared 1 (by omega), bfree_of_free (hcleared 1 (by omega))⟩

/-! ### The disk refines the model of `Mkros.Fs.Data` -/

/-- The disk as `Mkros.Fs.Data` sees it: the map read apart from the blocks. -/
def toDev (d : Disk) (sb : Superblock) : BlockDev := ⟨sb.size, d, used d sb⟩

/-- **`balloc` on the disk is `balloc` of `Mkros.Fs.Data`**, on a map marked
where it lies: the same block, the same map below `sb.size`, and the same
bytes in every block that holds no bit of a block below `sb.size`. -/
theorem balloc_refines (hm : MapMarked d sb) :
    (balloc d sb).2 = (Fs.balloc (toDev d sb)).2 ∧
      (∀ b < sb.size, used (balloc d sb).1 sb b = (Fs.balloc (toDev d sb)).1.used b) ∧
      ∀ blk, (∀ b < sb.size, BBLOCK b sb ≠ blk) → (balloc d sb).1 blk = (Fs.balloc (toDev d sb)).1.data blk := by
  -- both are the one search `firstFree`
  have hfind : (List.range (toDev d sb).size).find? (fun b => !(toDev d sb).used b) = firstFree d sb := rfl
  unfold Fs.balloc
  rw [hfind, balloc_eq]
  cases hfirst : firstFree d sb with
  | none => exact ⟨rfl, fun _ _ => rfl, fun _ _ => rfl⟩
  | some r =>
    obtain ⟨hr, hfree, _⟩ := firstFree_eq_some_iff.mp hfirst
    refine ⟨rfl, fun b hb => ?_, fun blk hblk => ?_⟩
    · rw [used_bzero_mark, if_neg (hm.ne_bblock hr hfree hb)]
      by_cases hbr : b = r
      · subst hbr
        simp
      · simp [hbr, toDev]
    · -- the map's byte changes in `BBLOCK r`, which is no such block
      show Function.update (mark d sb r) r (fun _ => 0) blk = Function.update d r (fun _ => 0) blk
      by_cases hbr : blk = r
      · rw [hbr, Function.update_self, Function.update_self]
      · rw [Function.update_of_ne hbr, Function.update_of_ne hbr, mark,
          Function.update_of_ne (Ne.symm (hblk r hr))]

theorem balloc_refines_three :
    MapMarked markedDisk ⟨3, 1⟩ ∧ (balloc markedDisk ⟨3, 1⟩).2 = (Fs.balloc (toDev markedDisk ⟨3, 1⟩)).2 :=
  ⟨markedDisk_marked, (balloc_refines markedDisk_marked).1⟩

end FreeMap

end Fs

end Mkros
