import Mkros.Lib.DList
import Mkros.Fs.Log
/-!
# The buffer cache `bio.c` — the model

`bcache` holds `NBUF` buffers on a circular doubly linked list through
`bcache.head`, most recently released first. `bget` scans the list forward
for the block, and if no buffer caches it, backward for the least recently
used buffer no one references, which it gives to the block. `brelse` drops a
reference, and the last one moves the buffer to the front. `bpin` and
`bunpin` are the log's references: `log_write` pins a buffer when it adds the
block to the group, and `install_trans` unpins it once the block is home.

Nodes are numbered: buffer `b` is `bcache.buf[b]`, and `HEAD` is
`&bcache.head`. The links are a `DLinks Nat`; the scans are `DLinks.scan`,
run for `NBUF + 1` rounds, which on the list the cache keeps is as far as
the C loops go (`Cycle.scan_next`). The sleep locks are left out: a buffer's
holder is whoever got it from `bread` and has not released it.

The callers' side is `Sys`: beside the cache, how many `bread`s of each
buffer are not yet released and how many pins are not yet undone. A caller
releases or pins only a buffer it holds, and unpins only a pinned one
(`Call.Allowed`); `install_trans`'s `bread`, `bwrite`, `bunpin`, `brelse` of
each logged block is such a run of calls.
-/

namespace Mkros

namespace Bio

open Fs

/-- `NBUF`. -/
def NBUF : Nat := MAXOPBLOCKS * 3

/-- `&bcache.head`: the node after the buffers. -/
def HEAD : Nat := NBUF

/-- `bcache`, less its locks and the blocks' data: the links of the buffers
and the head, and each buffer's `dev`, `blockno`, `valid` and `refcnt`. -/
structure Bcache where
  links : DLinks Nat
  dev : Nat → Nat
  blockno : Nat → Nat
  valid : Nat → Bool
  refcnt : Nat → Nat

/-- `bcache` as the kernel image holds it before `binit`: all zero. The null
links are never read; `binit` writes them first. -/
def Bcache.zero : Bcache := ⟨⟨fun _ => 0, fun _ => 0⟩, fun _ => 0, fun _ => 0, fun _ => false, fun _ => 0⟩

/-- `b->dev == dev && b->blockno == blockno`. -/
def Bcache.isBlock (bc : Bcache) (dev blockno b : Nat) : Bool :=
  decide (bc.dev b = dev ∧ bc.blockno b = blockno)

/-- `binit`: the head's links to itself, then each buffer in turn linked in
after the head. -/
def binit (bc : Bcache) : Bcache :=
  let links : DLinks Nat :=
    ⟨Function.update bc.links.next HEAD HEAD, Function.update bc.links.prev HEAD HEAD⟩
  { bc with links := (List.range NBUF).foldl (fun L b => L.pushFront HEAD b) links }

/-- `bget`: the buffer caching the block, with one more reference; else the
least recently used buffer with none, given to the block. -/
def bget (bc : Bcache) (dev blockno : Nat) : Except String (Bcache × Nat) :=
  -- Is the block already cached?
  match DLinks.scan bc.links.next HEAD (bc.isBlock dev blockno) (NBUF + 1) (bc.links.next HEAD) with
  | some b => .ok ({ bc with refcnt := Function.update bc.refcnt b (bc.refcnt b + 1) }, b)
  | none =>
    -- Not cached. Recycle the least recently used (LRU) unused buffer.
    match DLinks.scan bc.links.prev HEAD (fun b => bc.refcnt b = 0) (NBUF + 1) (bc.links.prev HEAD) with
    | some b =>
      .ok ({ bc with
          dev := Function.update bc.dev b dev
          blockno := Function.update bc.blockno b blockno
          valid := Function.update bc.valid b false
          refcnt := Function.update bc.refcnt b 1 }, b)
    | none => .error "bget: no buffers"

/-- `bread`: `bget`, and the block read in if the buffer does not hold it;
the data read is not modelled. -/
def bread (bc : Bcache) (dev blockno : Nat) : Except String (Bcache × Nat) := do
  let (bc, b) ← bget bc dev blockno
  if bc.valid b then pure (bc, b)
  else pure ({ bc with valid := Function.update bc.valid b true }, b)

/-- `brelse`: one reference less; the last one moves the buffer to the front. -/
def brelse (bc : Bcache) (b : Nat) : Bcache :=
  let bc := { bc with refcnt := Function.update bc.refcnt b (bc.refcnt b - 1) }
  -- no one is waiting for it.
  if bc.refcnt b = 0 then { bc with links := (bc.links.unlink b).pushFront HEAD b } else bc

/-- `bpin`. -/
def bpin (bc : Bcache) (b : Nat) : Bcache :=
  { bc with refcnt := Function.update bc.refcnt b (bc.refcnt b + 1) }

/-- `bunpin`. -/
def bunpin (bc : Bcache) (b : Nat) : Bcache :=
  { bc with refcnt := Function.update bc.refcnt b (bc.refcnt b - 1) }

/-! ## The callers -/

/-- The cache and its callers: for each buffer, the `bread`s not yet
released and the pins not yet undone. -/
structure Sys where
  bc : Bcache
  holds : Nat → Nat
  pins : Nat → Nat

/-- A call some thread makes. -/
inductive Call
  | bread (dev blockno : Nat)
  | brelse (b : Nat)
  | bpin (b : Nat)
  | bunpin (b : Nat)

/-- A thread releases or pins only a buffer it got from `bread`, and
unpins only a pinned one. -/
def Call.Allowed (s : Sys) : Call → Prop
  | .bread _ _ => True
  | .brelse b => 0 < s.holds b
  | .bpin b => 0 < s.holds b
  | .bunpin b => 0 < s.pins b

/-- One call, with the callers' counts; `bget`'s panic is an `error`. -/
def step (s : Sys) : Call → Except String Sys
  | .bread dev blockno =>
    (bread s.bc dev blockno).map fun (bc, b) => ⟨bc, Function.update s.holds b (s.holds b + 1), s.pins⟩
  | .brelse b => .ok ⟨brelse s.bc b, Function.update s.holds b (s.holds b - 1), s.pins⟩
  | .bpin b => .ok ⟨bpin s.bc b, s.holds, Function.update s.pins b (s.pins b + 1)⟩
  | .bunpin b => .ok ⟨bunpin s.bc b, s.holds, Function.update s.pins b (s.pins b - 1)⟩

/-- The cache after `binit`, with no caller holding anything. -/
def Sys.init : Sys := ⟨binit .zero, fun _ => 0, fun _ => 0⟩

/-- The states any interleaving of allowed calls reaches after `binit`. -/
inductive Reach : Sys → Prop
  | init : Reach .init
  | step {s s' : Sys} (c : Call) : Reach s → c.Allowed s → step s c = .ok s' → Reach s'

end Bio

end Mkros
