import Mathlib.Logic.Function.Basic
import Mathlib.Data.List.Basic
/-!
# The virtio disk's descriptors `virtio_disk.c` — the model

A disk request is a chain of three of the `NUM` descriptors in `disk.desc`,
linked through `next` where `flags` has `VRING_DESC_F_NEXT`: the request
header, `b->data`, and the status byte `disk.info[head].status`.
`disk.free` marks the descriptors no request holds.

`virtio_disk_rw` runs under `disk.vdisk_lock`, which `sleep` gives up, so a
call is a run of lock-held stretches: one allocates the chain, or sleeps on
`disk.free[0]` when `alloc3_desc` fails; once it has, it formats and submits
the chain and sleeps on `b` until `b->disk` is `0`; a last one frees the
chain. As elsewhere, any sleeper may run again at any time, as after any
`wakeup`. `bread` and `bwrite` call it holding `b`'s sleeplock, so no two
calls share a buf.

The device is the other party: it completes any chain the driver made
available, in any order, once each, writing status `0` through the chain's
third descriptor and putting its head on the used ring; `virtio_disk_intr`
then marks each used chain's buf done. The two rings are kept as the entries
between the driver's and the device's indices, which is all either side
reads of them; the device registers, `ops` (the request headers) and what
the device does with `b->data` are not modelled.
-/

namespace Mkros

namespace Virtio

/-- `NUM`: the descriptors, and the entries of each ring. -/
def NUM : Nat := 8

/-- `VRING_DESC_F_NEXT`: chained with another descriptor. -/
def VRING_DESC_F_NEXT : UInt16 := 1

/-- `VRING_DESC_F_WRITE`: the device writes, rather than reads. -/
def VRING_DESC_F_WRITE : UInt16 := 2

/-- `BSIZE`, the bytes of a block. -/
def BSIZE : Nat := 1024

/-- `sizeof(struct virtio_blk_req)`: `type`, `reserved`, `sector`. -/
def REQ_SIZE : Nat := 16

/-- What a descriptor's `addr` points at. -/
inductive Addr (β : Type)
  /-- `0`. -/
  | zero
  /-- `&disk.ops[i]`. -/
  | op (i : Nat)
  /-- `b->data`. -/
  | data (b : β)
  /-- `&disk.info[i].status`. -/
  | status (i : Nat)
  deriving DecidableEq, Repr

/-- `struct virtq_desc`. -/
structure Desc (β : Type) where
  addr : Addr β
  len : Nat
  flags : UInt16
  next : UInt16
  deriving DecidableEq, Repr

/-- A descriptor `free_desc` has cleared. -/
def Desc.zero {β : Type} : Desc β := ⟨.zero, 0, 0, 0⟩

/-- An entry of `disk.info`: the buf of the chain at that head, `none` for
`0`, and the status byte the device writes. -/
structure Info (β : Type) where
  b : Option β
  status : UInt8
  deriving DecidableEq, Repr

/-- `disk`, less its lock, its registers and `ops`: the descriptors, their
free marks and `info`; `avail` the chain heads on the avail ring the device
has not completed, `used` those on the used ring `virtio_disk_intr` has not
looked at, oldest first. -/
structure Disk (β : Type) where
  desc : Nat → Desc β
  free : Nat → Bool
  info : Nat → Info β
  avail : List Nat
  used : List Nat

variable {β : Type}

/-! ## The descriptors -/

/-- `alloc_desc`: the first free descriptor, marked busy; `none` for `-1`. -/
def allocDesc (disk : Disk β) : Disk β × Option Nat :=
  match (List.range NUM).find? fun i => disk.free i with
  | some i => ({ disk with free := Function.update disk.free i false }, some i)
  | none => (disk, none)

/-- `free_desc(i)`. A panic is an `error` with its message. -/
def freeDesc (disk : Disk β) (i : Nat) : Except String (Disk β) :=
  if i ≥ NUM then .error "free_desc 1"
  else if disk.free i then .error "free_desc 2"
  else .ok { disk with desc := Function.update disk.desc i Desc.zero, free := Function.update disk.free i true }

/-- The loop of `free_chain` from `i`, for at most `fuel` passes. -/
def freeChainLoop : Nat → Disk β → Nat → Except String (Disk β)
  | 0, disk, _ => .ok disk
  | fuel + 1, disk, i => do
    let flag := (disk.desc i).flags
    let nxt := (disk.desc i).next
    let disk ← freeDesc disk i
    if flag &&& VRING_DESC_F_NEXT ≠ 0 then freeChainLoop fuel disk nxt.toNat else .ok disk

/-- `free_chain(i)`. A pass frees a busy descriptor or panics, so after
`NUM` passes the next one panics: `NUM + 1` passes suffice. -/
def freeChain (disk : Disk β) (i : Nat) : Except String (Disk β) := freeChainLoop (NUM + 1) disk i

/-- The loop of `alloc3_desc` with `k` descriptors still to take, `idx` those
taken: the descriptors, or `none` for `-1` once the ones taken are given
back. -/
def alloc3Loop : Nat → Disk β → List Nat → Except String (Disk β × Option (List Nat))
  | 0, disk, idx => .ok (disk, some idx)
  | k + 1, disk, idx =>
    match allocDesc disk with
    | (disk, some i) => alloc3Loop k disk (idx ++ [i])
    | (disk, none) => do
      let disk ← idx.foldlM freeDesc disk
      .ok (disk, none)

/-- `alloc3_desc(idx)`. -/
def alloc3Desc (disk : Disk β) : Except String (Disk β × Option (List Nat)) := alloc3Loop 3 disk []

/-- From the formatting of the three descriptors to the notify, in
`virtio_disk_rw(b, write)`: the chain `idx[0] → idx[1] → idx[2]`, `b`
recorded at its head, and the head made available. -/
def submit (disk : Disk β) (b : β) (write : Bool) (idx : List Nat) : Disk β :=
  let i0 := idx.getD 0 0
  let i1 := idx.getD 1 0
  let i2 := idx.getD 2 0
  let desc := Function.update disk.desc i0 ⟨.op i0, REQ_SIZE, VRING_DESC_F_NEXT, i1.toUInt16⟩
  -- the device reads `b->data` for a write, and writes it for a read
  let desc := Function.update desc i1
    ⟨.data b, BSIZE, (if write then 0 else VRING_DESC_F_WRITE) ||| VRING_DESC_F_NEXT, i2.toUInt16⟩
  let info := Function.update disk.info i0 { disk.info i0 with status := 0xff }
  let desc := Function.update desc i2 ⟨.status i0, 1, VRING_DESC_F_WRITE, 0⟩
  let info := Function.update info i0 { info i0 with b := some b }
  { disk with desc, info, avail := disk.avail ++ [i0] }

/-- The device completes the chain at `head`: it follows the chain to its
third descriptor, writes `0` where that one points, and puts `head` on the
used ring. -/
def Disk.complete (disk : Disk β) (head : Nat) : Disk β :=
  let d2 := disk.desc (disk.desc (disk.desc head).next.toNat).next.toNat
  let info :=
    match d2.addr with
    | .status j => Function.update disk.info j { disk.info j with status := 0 }
    | _ => disk.info
  { disk with info, avail := disk.avail.erase head, used := disk.used ++ [head] }

/-- The loop of `virtio_disk_intr` over the used entries `ids`: `b->disk`
after it. A `0` buf is written through, which `kerneltrap` reports. -/
def intrLoop [DecidableEq β] (disk : Disk β) (bufDisk : β → Bool) : List Nat → Except String (β → Bool)
  | [] => .ok bufDisk
  | id :: ids =>
    if (disk.info id).status ≠ 0 then .error "virtio_disk_intr status"
    else
      match (disk.info id).b with
      | none => .error "kerneltrap"
      | some b => intrLoop disk (Function.update bufDisk b false) ids

/-! ## The driver and the device -/

/-- Where a process is in `virtio_disk_rw(b, write)`: outside it, asleep on
`disk.free[0]`, or asleep on `b` with its chain `idx` submitted. -/
inductive Proc (β : Type)
  | idle
  | allocating (b : β) (write : Bool)
  | waiting (b : β) (write : Bool) (idx : List Nat)

/-- The buf a process has in `virtio_disk_rw`. -/
def Proc.buf : Proc β → Option β
  | .idle => none
  | .allocating b _ => some b
  | .waiting b _ _ => some b

/-- The chain a process holds. -/
def Proc.chain : Proc β → List Nat
  | .waiting _ _ idx => idx
  | _ => []

/-- The disk, each buf's `b->disk`, the processes, and the panic that
stopped the kernel, if one did. -/
structure Sys (τ β : Type) where
  disk : Disk β
  bufDisk : β → Bool
  procs : τ → Proc β
  panicked : Option String

/-- What happens next. -/
inductive Call (τ β : Type)
  /-- `bread` or `bwrite` calls `virtio_disk_rw(b, write)`. -/
  | rw (p : τ) (b : β) (write : Bool)
  /-- A sleeper in `virtio_disk_rw` runs again. -/
  | wake (p : τ)
  /-- The device completes the `k`-th chain it was given and has not
  completed. -/
  | complete (k : Nat)
  /-- `virtio_disk_intr`. -/
  | intr

variable {τ : Type} [DecidableEq τ] [DecidableEq β]

/-- A stretch of `virtio_disk_rw(b, write)` from `alloc3_desc`: asleep on
`disk.free[0]` again if it fails; otherwise the chain submitted,
`b->disk = 1`, and asleep on `b`. -/
def Sys.runAlloc (s : Sys τ β) (p : τ) (b : β) (write : Bool) : Sys τ β :=
  match alloc3Desc s.disk with
  | .error msg => { s with panicked := some msg }
  | .ok (disk, none) => { s with disk, procs := Function.update s.procs p (.allocating b write) }
  | .ok (disk, some idx) =>
    { s with
      disk := submit disk b write idx
      bufDisk := Function.update s.bufDisk b true
      procs := Function.update s.procs p (.waiting b write idx) }

/-- A stretch of `virtio_disk_rw` woken on `b`: asleep again while
`b->disk` is `1`; otherwise `disk.info[idx[0]].b = 0`, the chain freed, and
the call done. -/
def Sys.runFinish (s : Sys τ β) (p : τ) (b : β) (idx : List Nat) : Sys τ β :=
  if s.bufDisk b then s
  else
    let i0 := idx.getD 0 0
    let disk := { s.disk with info := Function.update s.disk.info i0 { s.disk.info i0 with b := none } }
    match freeChain disk i0 with
    | .error msg => { s with panicked := some msg }
    | .ok disk => { s with disk, procs := Function.update s.procs p .idle }

/-- `virtio_disk_intr()`: every used entry looked at. -/
def Sys.runIntr (s : Sys τ β) : Sys τ β :=
  match intrLoop s.disk s.bufDisk s.disk.used with
  | .error msg => { s with panicked := some msg }
  | .ok bufDisk => { s with bufDisk, disk := { s.disk with used := [] } }

/-- One step; `none` once the kernel has panicked, or where the call does
not start from the state. -/
def step (s : Sys τ β) (c : Call τ β) : Option (Sys τ β) :=
  if s.panicked.isSome then none
  else
    match c with
    | .rw p b write =>
      match s.procs p with
      | .idle => some (s.runAlloc p b write)
      | _ => none
    | .wake p =>
      match s.procs p with
      | .allocating b write => some (s.runAlloc p b write)
      | .waiting b _ idx => some (s.runFinish p b idx)
      | .idle => none
    | .complete k =>
      match s.disk.avail[k]? with
      | some head => some { s with disk := s.disk.complete head }
      | none => none
    | .intr => some s.runIntr

/-- A call the rest of the kernel may make: `virtio_disk_rw` on a buf whose
sleeplock its caller holds, so no other call has it. -/
def Call.Allowed (s : Sys τ β) : Call τ β → Prop
  | .rw _ b _ => ∀ q, (s.procs q).buf ≠ some b
  | _ => True

/-- `disk` as `virtio_disk_init` leaves it: zeroed, every descriptor free. -/
def Sys.init (bufDisk : β → Bool) : Sys τ β :=
  ⟨⟨fun _ => Desc.zero, fun i => decide (i < NUM), fun _ => ⟨none, 0⟩, [], []⟩, bufDisk, fun _ => .idle, none⟩

/-- The states any interleaving of allowed calls reaches, from the bufs'
`b->disk` at boot. -/
inductive Reach (bufDisk : β → Bool) : Sys τ β → Prop
  | init : Reach bufDisk (Sys.init bufDisk)
  | step {s s' : Sys τ β} (c : Call τ β) : Reach bufDisk s → c.Allowed s → step s c = some s' → Reach bufDisk s'

end Virtio

end Mkros
