import Mathlib
/-!
# File data: `bmap`, `readi` and `writei` — the model

A file's bytes live in data blocks. The inode's `addrs` lists the first
`NDIRECT` of them and, in `addrs[NDIRECT]`, the indirect block. That block's
entries are `uint`s, four bytes each with the least significant first, and
they list the next `NINDIRECT`. `bmap` finds the block that holds a block
number of the file and allocates it where it is missing. `readi` and
`writei` copy bytes out and in a block at a time.

The disk is what the running transaction sees: the bytes of each block, and
the block bitmap. `mkfs` marks the blocks the file system keeps for itself
(boot block, superblock, log, inodes, the bitmap) in the bitmap; the model
keeps the bitmap apart from the blocks' bytes, so that only data blocks hold
a file's bytes. Within a transaction `log_write` and the buffer cache pass
writes through, and the model leaves them out. The inode is the in-memory
copy, which `iupdate` writes back as it is. The source and destination are
kernel buffers (`user_src = 0`, `user_dst = 0`); `n` is below `2 ^ 32`, and
`off + n` wraps there as a `uint`. `itrunc` frees the blocks through
`bfree`, which clears their bits.
-/

namespace Mkros

namespace Fs

/-- `BSIZE`. -/
def BSIZE : Nat := 1024

/-- `NDIRECT`. -/
def NDIRECT : Nat := 12

/-- `NINDIRECT`: the block numbers an indirect block holds. -/
def NINDIRECT : Nat := BSIZE / 4

/-- `MAXFILE`, in blocks. -/
def MAXFILE : Nat := NDIRECT + NINDIRECT

/-- The bytes of a block. -/
abbrev Bytes := Nat → UInt8

/-- The disk: `sb.size`, each block's bytes, and the block bitmap. -/
structure BlockDev where
  size : Nat
  data : Nat → Bytes
  used : Nat → Bool

/-- The fields of an inode the data functions touch: `size` and `addrs`. -/
structure FileInode where
  size : Nat
  addrs : Nat → Nat

/-- Entry `i` of an indirect block, `((uint *)bp->data)[i]`. -/
def getEntry (blk : Bytes) (i : Nat) : Nat :=
  (blk (4 * i)).toNat + 256 * (blk (4 * i + 1)).toNat + 65536 * (blk (4 * i + 2)).toNat +
    16777216 * (blk (4 * i + 3)).toNat

/-- `a[i] = v` in an indirect block. -/
def setEntry (blk : Bytes) (i v : Nat) : Bytes :=
  fun j => if j / 4 = i then (v / 256 ^ (j % 4)).toUInt8 else blk j

/-- `memmove(blk + o, bs, len)`. -/
def writeBytes (blk : Bytes) (o : Nat) (bs : List UInt8) : Bytes :=
  fun j => if o ≤ j ∧ j < o + bs.length then bs.getD (j - o) 0 else blk j

/-- `balloc`: the first free block of the bitmap, marked and zeroed; `0`
where every block is in use. -/
def balloc (dev : BlockDev) : BlockDev × Nat :=
  match (List.range dev.size).find? fun b => !dev.used b with
  | none => (dev, 0)
  | some b => ({ dev with used := Function.update dev.used b true, data := Function.update dev.data b fun _ => 0 }, b)

/-- `bmap`: the block that holds block `bn` of the file, allocated where it is
missing; `0` where the disk is full. Past `MAXFILE` it panics. -/
def bmap (ip : FileInode) (dev : BlockDev) (bn : Nat) : Except String (FileInode × BlockDev × Nat) :=
  if bn < NDIRECT then
    if ip.addrs bn = 0 then
      let (dev, addr) := balloc dev
      if addr = 0 then .ok (ip, dev, 0)
      else .ok ({ ip with addrs := Function.update ip.addrs bn addr }, dev, addr)
    else .ok (ip, dev, ip.addrs bn)
  else if bn - NDIRECT < NINDIRECT then
    -- load the indirect block, allocating if necessary
    let (ip, dev, ind) :=
      if ip.addrs NDIRECT = 0 then
        let (dev, addr) := balloc dev
        if addr = 0 then (ip, dev, 0) else ({ ip with addrs := Function.update ip.addrs NDIRECT addr }, dev, addr)
      else (ip, dev, ip.addrs NDIRECT)
    if ind = 0 then .ok (ip, dev, 0)
    else
      let addr := getEntry (dev.data ind) (bn - NDIRECT)
      if addr = 0 then
        let (dev, addr) := balloc dev
        if addr = 0 then .ok (ip, dev, 0)
        else .ok (ip, { dev with data := Function.update dev.data ind (setEntry (dev.data ind) (bn - NDIRECT) addr) }, addr)
      else .ok (ip, dev, addr)
  else .error "bmap: out of range"

/-- The loop of `readi` from `off` with `left` bytes to go, for at most
`fuel` passes: the bytes copied to `dst`, in order. -/
def readLoop : Nat → FileInode → BlockDev → Nat → Nat → Except String (FileInode × BlockDev × List UInt8)
  | 0, ip, dev, _, _ => .ok (ip, dev, [])
  | fuel + 1, ip, dev, off, left =>
    if left = 0 then .ok (ip, dev, [])
    else do
      let (ip, dev, addr) ← bmap ip dev (off / BSIZE)
      if addr = 0 then .ok (ip, dev, [])
      else
        let m := min left (BSIZE - off % BSIZE)
        let bytes := (List.range m).map fun j => dev.data addr (off % BSIZE + j)
        let (ip, dev, rest) ← readLoop fuel ip dev (off + m) (left - m)
        .ok (ip, dev, bytes ++ rest)

/-- `readi(ip, 0, dst, off, n)`: the bytes copied to `dst`, whose number it
returns. -/
def readi (ip : FileInode) (dev : BlockDev) (off n : Nat) : Except String (FileInode × BlockDev × List UInt8) :=
  if off > ip.size ∨ (off + n) % 2 ^ 32 < off then .ok (ip, dev, [])
  else
    let n := if (off + n) % 2 ^ 32 > ip.size then ip.size - off else n
    readLoop n ip dev off n

/-- The loop of `writei` from `off`, with the bytes `src` still to copy, for
at most `fuel` passes: where `off` ended, and `tot`. -/
def writeLoop : Nat → FileInode → BlockDev → Nat → List UInt8 → Except String (FileInode × BlockDev × Nat × Nat)
  | 0, ip, dev, off, _ => .ok (ip, dev, off, 0)
  | fuel + 1, ip, dev, off, src =>
    if src = [] then .ok (ip, dev, off, 0)
    else do
      let (ip, dev, addr) ← bmap ip dev (off / BSIZE)
      if addr = 0 then .ok (ip, dev, off, 0)
      else
        let m := min src.length (BSIZE - off % BSIZE)
        let dev := { dev with data := Function.update dev.data addr (writeBytes (dev.data addr) (off % BSIZE) (src.take m)) }
        let (ip, dev, off, tot) ← writeLoop fuel ip dev (off + m) (src.drop m)
        .ok (ip, dev, off, m + tot)

/-- `writei(ip, 0, src, off, n)` of the `n` bytes `src`: the inode as
`iupdate` writes it back, and what it returns. -/
def writei (ip : FileInode) (dev : BlockDev) (off : Nat) (src : List UInt8) : Except String (FileInode × BlockDev × Int) :=
  if off > ip.size ∨ (off + src.length) % 2 ^ 32 < off then .ok (ip, dev, -1)
  else if (off + src.length) % 2 ^ 32 > MAXFILE * BSIZE then .ok (ip, dev, -1)
  else do
    let (ip, dev, off, tot) ← writeLoop src.length ip dev off src
    -- `if (off > ip->size) ip->size = off; iupdate(ip);`
    let ip := if off > ip.size then { ip with size := off } else ip
    .ok (ip, dev, tot)

/-- `bfree(dev, b)`: the block's bit cleared; it panics on a free block. -/
def bfree (dev : BlockDev) (b : Nat) : Except String BlockDev :=
  if dev.used b then .ok { dev with used := Function.update dev.used b false }
  else .error "freeing free block"

/-- A round of `itrunc`'s loop over the direct blocks:
`if (ip->addrs[i]) { bfree(ip->dev, ip->addrs[i]); ip->addrs[i] = 0; }`. -/
def freeDirect (s : FileInode × BlockDev) (i : Nat) : Except String (FileInode × BlockDev) :=
  if s.1.addrs i ≠ 0 then do
    let dev ← bfree s.2 (s.1.addrs i)
    .ok ({ s.1 with addrs := Function.update s.1.addrs i 0 }, dev)
  else .ok s

/-- A round of `itrunc`'s loop over the indirect block `a`:
`if (a[j]) bfree(ip->dev, a[j]);`. -/
def freeEntry (a : Bytes) (dev : BlockDev) (j : Nat) : Except String BlockDev :=
  if getEntry a j ≠ 0 then bfree dev (getEntry a j) else .ok dev

/-- `itrunc(ip)`: every block of the file freed, then the indirect block,
and the size set to `0`. -/
def itrunc (ip : FileInode) (dev : BlockDev) : Except String (FileInode × BlockDev) := do
  let (ip, dev) ← (List.range NDIRECT).foldlM freeDirect (ip, dev)
  let (ip, dev) ←
    if ip.addrs NDIRECT ≠ 0 then do
      let dev ← (List.range NINDIRECT).foldlM (freeEntry (dev.data (ip.addrs NDIRECT))) dev
      let dev ← bfree dev (ip.addrs NDIRECT)
      .ok ({ ip with addrs := Function.update ip.addrs NDIRECT 0 }, dev)
    else .ok (ip, dev)
  -- `ip->size = 0; iupdate(ip);`
  .ok ({ ip with size := 0 }, dev)

end Fs

end Mkros
