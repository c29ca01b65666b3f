import Mkros.Lib.Writes
/-!
# The file system log — the model

`log.c` is a physical redo log. On disk a header block at `log.start` records
`n` and the home block numbers of a group of writes; the `n` blocks after it
hold the group's copies. `commit` copies the group into the log
(`write_log`), writes the header (`write_head` — the commit point), copies the
group home (`install_trans`) and writes a header of `n = 0`;
`recover_from_log` redoes the install from whatever header it finds.

Every `bwrite` is one atomic write of a block, and `bread` returns the buffer
cache's copy: for a block nothing has logged that is the disk's, for a logged
block it is the contents the group commits. So the model keeps the disk and
the view `bread` gives, and each procedure of `log.c` is the list of `bwrite`s
it issues (`Writes.issue`), each computed from the view its earlier writes
left. Crash points are prefixes of those lists.
-/

namespace Mkros

namespace Fs

open Writes

/-- `MAXOPBLOCKS`. -/
def MAXOPBLOCKS : Nat := 10

/-- `LOGSIZE`. -/
def LOGSIZE : Nat := MAXOPBLOCKS * 3

/-- A disk block, as the `int`s its `BSIZE` bytes hold: the header block is
read through `struct logheader`, and data blocks are only ever copied whole. -/
abbrev Blk := Nat → Int

/-- The disk, or the view `bread` gives of it: block number to contents. -/
abbrev Disk := Nat → Blk

/-- `struct logheader`. `block i` is read only below `n`. -/
structure LogHeader where
  n : Nat
  block : Nat → Nat

/-- `struct log`, less its lock and device: one log on one disk. -/
structure Log where
  start : Nat
  size : Nat
  outstanding : Nat
  committing : Bool
  lh : LogHeader

/-- A block the group has logged. -/
def Logged (lh : LogHeader) (b : Nat) : Prop := ∃ i < lh.n, lh.block i = b

instance (lh : LogHeader) (b : Nat) : Decidable (Logged lh b) :=
  inferInstanceAs (Decidable (∃ i, i < lh.n ∧ lh.block i = b))

/-- A block outside the log region `[start, start + size)`. -/
def OutsideLog (log : Log) (b : Nat) : Prop := b < log.start ∨ log.start + log.size ≤ b

/-- `read_head`: `n` is the header block's first `int`, the block numbers the
ones after it. -/
def readHead (b : Blk) : LogHeader := ⟨(b 0).toNat, fun i => (b (i + 1)).toNat⟩

/-- The header block `write_head` writes: `n` and `block[0..n)` over the
cached header block, whose later entries stay. -/
def headerBlock (old : Blk) (lh : LogHeader) : Blk :=
  fun w => if w = 0 then lh.n else if w ≤ lh.n then lh.block (w - 1) else old w

/-- `write_head`. -/
def writeHead (log : Log) : Disk → Nat × Blk :=
  fun view => (log.start, headerBlock (view log.start) log.lh)

/-- `write_log`: log block `tail + 1` gets the cached copy of the group's
`tail`-th block. -/
def writeLog (log : Log) : List (Disk → Nat × Blk) :=
  (List.range log.lh.n).map fun tail view => (log.start + tail + 1, view (log.lh.block tail))

/-- `install_trans`: the group's `tail`-th block gets log block `tail + 1`. -/
def installTrans (log : Log) : List (Disk → Nat × Blk) :=
  (List.range log.lh.n).map fun tail view => (log.lh.block tail, view (log.start + tail + 1))

/-- The log with the in-memory header emptied, as `commit` and
`recover_from_log` leave it before their last `write_head`. -/
def cleared (log : Log) : Log := { log with lh := { log.lh with n := 0 } }

/-- `commit`: nothing for an empty group. -/
def commit (log : Log) : List (Disk → Nat × Blk) :=
  if 0 < log.lh.n then
    writeLog log ++ [writeHead log] ++ installTrans log ++ [writeHead (cleared log)]
  else []

/-- `recover_from_log`, on the disk it boots from: `read_head` reads the
disk, since after a crash the cache holds nothing else. -/
def recoverFromLog (log : Log) (disk : Disk) : List (Disk → Nat × Blk) :=
  let log := { log with lh := readHead (disk log.start) }
  installTrans log ++ [writeHead (cleared log)]

/-- The view `bread` gives at commit time: the group's blocks hold their
cached contents, every other block what the disk holds. It is also the disk
once the group is installed. -/
def withGroup (disk : Disk) (lh : LogHeader) (cache : Disk) : Disk :=
  fun b => if Logged lh b then cache b else disk b

/-- The `bwrite`s of a commit started from `view`. -/
def commitWrites (log : Log) (view : Disk) : List (Nat × Blk) := issue view (commit log)

/-- The `bwrite`s of a recovery booted from `disk`. -/
def recoverWrites (log : Log) (disk : Disk) : List (Nat × Blk) :=
  issue disk (recoverFromLog log disk)

/-- Booting after a crash: `recover_from_log` crashes after `k` of its writes
for each `k` of `ks` in turn, then runs to its end. -/
def recoverAfterCrashes (log : Log) : List Nat → Disk → Disk
  | [], d => applyAll d (recoverWrites log d)
  | k :: ks, d => recoverAfterCrashes log ks (applyAll d ((recoverWrites log d).take k))

/-- `log_write`: the group may hold at most `LOGSIZE` blocks and must leave
room for the header; a block already in the group is absorbed, a new one
appended. A panic is an `error` with its message. -/
def logWrite (log : Log) (blockno : Nat) : Except String Log :=
  if LOGSIZE ≤ log.lh.n ∨ log.size ≤ log.lh.n + 1 then .error "too big a transaction"
  else if log.outstanding < 1 then .error "log_write outside of trans"
  else
    let i := ((List.range log.lh.n).find? fun i => log.lh.block i = blockno).getD log.lh.n
    let block := fun j => if j = i then blockno else log.lh.block j
    if i = log.lh.n then .ok { log with lh := ⟨log.lh.n + 1, block⟩ }
    else .ok { log with lh := { log.lh with block := block } }

end Fs

end Mkros
