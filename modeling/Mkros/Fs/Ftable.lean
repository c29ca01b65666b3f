import Mathlib
import Mkros.Fs.Sysfile
import Mkros.Kernel.Proc
import Mkros.Lib.Budget
/-!
# The file table

`ftable` holds `NFILE` open files, each with a count of the references to
it; the descriptors `ofile[0..NOFILE)` of every process point into it.
`filealloc` takes a free file, `filedup` adds a reference, and `fileclose`
drops one and, with the last, hands the file's pipe end to `pipeclose` or
its inode to `iput`. The calls that hold files are modelled for their part
in the table: `sys_open` from the inode it has found (its path lookup is
`Mkros.Fs.sysOpen`'s), `sys_dup`, `sys_close`, `sys_pipe` with `pipealloc`,
and the loops of `fork` and `exit` over the descriptors. What a call gets
from outside the table is an argument of the call: the inode, the page
`kalloc` gives the pipe, whether the `copyout` of the two descriptors
succeeds, the slot `allocproc` gives `fork`.

The log records the references the table takes over (`f->ip = ip`,
`f->pipe = pi`) and those `fileclose` hands on. Over every run from boot
each file's count is the number of descriptors that point to it, a file
without one is `FD_NONE`, no call panics, and what the table took is what
it handed on and what it holds (`ftable_counts_descriptors`).
-/

namespace Mkros

namespace Fs

namespace Ftable

open ProcTable

/-- `NFILE`. -/
def NFILE : Nat := 100

/-- `O_WRONLY`. -/
def O_WRONLY : Nat := 0x001

/-- `O_RDWR`. -/
def O_RDWR : Nat := 0x002

/-- `enum { FD_NONE, FD_PIPE, FD_INODE, FD_DEVICE }`. -/
inductive FdType
  | none
  | pipe
  | inode
  | device
  deriving DecidableEq, Repr

/-- `struct file`; `pipe` and `ip` are the pipe's and the inode's addresses. -/
structure File where
  type : FdType
  ref : Nat
  readable : Bool
  writable : Bool
  pipe : Nat
  ip : Nat
  off : Nat
  major : Int
  deriving DecidableEq, Repr

/-- A reference a file holds: an end of a pipe, or an inode. -/
inductive Obj
  | pipe (pi : Nat) (writable : Bool)
  | inode (ip : Nat)
  deriving DecidableEq, Repr

/-- What the table does with references: it takes one over when `sys_open`
or `pipealloc` fills a file, and `fileclose` hands one on, to
`pipeclose(ff.pipe, ff.writable)` or to `iput(ff.ip)`. -/
inductive Event
  | take (o : Obj)
  | give (o : Obj)
  deriving DecidableEq, Repr

/-- The table, the descriptors of each process, which processes can make
calls (those `allocproc` set up and that have not exited), and the log. -/
structure Sys where
  file : Fin NFILE → File
  ofile : Fin NPROC → Fin NOFILE → Option (Fin NFILE)
  live : Fin NPROC → Bool
  log : List Event

namespace Sys

def setFile (s : Sys) (f : Fin NFILE) (x : File) : Sys := { s with file := Function.update s.file f x }

/-- `p->ofile[fd] = x`. -/
def setOfile (s : Sys) (p : Fin NPROC) (fd : Fin NOFILE) (x : Option (Fin NFILE)) : Sys :=
  { s with ofile := Function.update s.ofile p (Function.update (s.ofile p) fd x) }

def record (s : Sys) (e : Event) : Sys := { s with log := s.log ++ [e] }

end Sys

/-- `filealloc`: the first file with no reference, now with one. -/
def filealloc (s : Sys) : Option (Fin NFILE) × Sys :=
  match (List.finRange NFILE).find? fun f => (s.file f).ref = 0 with
  | none => (none, s)
  | some f => (some f, s.setFile f { s.file f with ref := 1 })

/-- `filedup`. -/
def filedup (s : Sys) (f : Fin NFILE) : Except String Sys :=
  if (s.file f).ref < 1 then .error "filedup"
  else .ok (s.setFile f { s.file f with ref := (s.file f).ref + 1 })

/-- `fileclose`: with the last reference the file is `FD_NONE` again, and
its pipe end or inode is handed on. -/
def fileclose (s : Sys) (f : Fin NFILE) : Except String Sys :=
  if (s.file f).ref < 1 then .error "fileclose"
  else if (s.file f).ref - 1 > 0 then .ok (s.setFile f { s.file f with ref := (s.file f).ref - 1 })
  else
    let ff := s.file f
    let s := s.setFile f { ff with ref := 0, type := .none }
    match ff.type with
    | .pipe => .ok (s.record (.give (.pipe ff.pipe ff.writable)))
    | .inode | .device => .ok (s.record (.give (.inode ff.ip)))
    | .none => .ok s

/-- `fdalloc(f)`: the process's first free descriptor, now `f`. -/
def fdalloc (s : Sys) (p : Fin NPROC) (f : Fin NFILE) : Option (Fin NOFILE) × Sys :=
  match (List.finRange NOFILE).find? fun fd => s.ofile p fd = none with
  | none => (none, s)
  | some fd => (some fd, s.setOfile p fd (some f))

/-- `argfd`: the descriptor and its file, where `fd` names an open one. -/
def argfd (s : Sys) (p : Fin NPROC) (fd : Int) : Option (Fin NOFILE × Fin NFILE) :=
  if h : 0 ≤ fd ∧ fd < NOFILE then
    match s.ofile p ⟨fd.toNat, by omega⟩ with
    | none => none
    | some f => some (⟨fd.toNat, by omega⟩, f)
  else none

/-- `sys_dup`. -/
def sysDup (s : Sys) (p : Fin NPROC) (fd : Int) : Except String (Sys × Int) :=
  match argfd s p fd with
  | none => .ok (s, -1)
  | some (_, f) =>
    match fdalloc s p f with
    | (none, s) => .ok (s, -1)
    | (some fd, s) => do
      let s ← filedup s f
      pure (s, fd.val)

/-- `sys_close`. -/
def sysClose (s : Sys) (p : Fin NPROC) (fd : Int) : Except String (Sys × Int) :=
  match argfd s p fd with
  | none => .ok (s, -1)
  | some (fd, f) => do
    let s ← fileclose (s.setOfile p fd none) f
    pure (s, 0)

/-- `sys_open` from the point its inode `ip` is found and locked (`none`
where `create` or `namei` failed or a directory was opened for writing),
with the inode's type (`T_DEVICE` or not) and major number. -/
def sysOpen (s : Sys) (p : Fin NPROC) (ip : Option Nat) (device : Bool) (major : Int) (omode : Nat) :
    Except String (Sys × Int) :=
  match ip with
  | none => .ok (s, -1)
  | some ip =>
    if device ∧ (major < 0 ∨ NDEV ≤ major) then .ok (s, -1)
    else
      match filealloc s with
      | (none, s) => .ok (s, -1)
      | (some f, s) =>
        match fdalloc s p f with
        | (none, s) => do
          let s ← fileclose s f
          pure (s, -1)
        | (some fd, s) =>
          let x := if device then { s.file f with type := .device, major := major }
            else { s.file f with type := .inode, off := 0 }
          let x := { x with
            ip := ip
            readable := decide (omode &&& O_WRONLY = 0)
            writable := decide (omode &&& O_WRONLY ≠ 0 ∨ omode &&& O_RDWR ≠ 0) }
          .ok ((s.setFile f x).record (.take (.inode ip)), fd.val)

/-- `pipealloc`, with `pi` the page `kalloc` gives (`0` where it has none):
the read end and the write end. -/
def pipealloc (s : Sys) (pi : Nat) : Except String (Option (Fin NFILE × Fin NFILE) × Sys) :=
  match filealloc s with
  | (none, s) => .ok (none, s)
  | (some f0, s) =>
    match filealloc s with
    | (none, s) => do
      let s ← fileclose s f0
      pure (none, s)
    | (some f1, s) =>
      if pi = 0 then do
        let s ← fileclose s f0
        let s ← fileclose s f1
        pure (none, s)
      else
        let s := s.setFile f0 { s.file f0 with type := .pipe, readable := true, writable := false, pipe := pi }
        let s := s.setFile f1 { s.file f1 with type := .pipe, readable := false, writable := true, pipe := pi }
        .ok (some (f0, f1), (s.record (.take (.pipe pi false))).record (.take (.pipe pi true)))

/-- Both ends closed, after a failure of `sys_pipe`. -/
def closeBoth (s : Sys) (rf wf : Fin NFILE) : Except String Sys := do
  let s ← fileclose s rf
  fileclose s wf

/-- `sys_pipe`, with `copyOk` whether both `copyout`s of the descriptors
succeed. -/
def sysPipe (s : Sys) (p : Fin NPROC) (pi : Nat) (copyOk : Bool) : Except String (Sys × Int) := do
  match ← pipealloc s pi with
  | (none, s) => pure (s, -1)
  | (some (rf, wf), s) =>
    match fdalloc s p rf with
    | (none, s) => do
      let s ← closeBoth s rf wf
      pure (s, -1)
    | (some fd0, s) =>
      match fdalloc s p wf with
      | (none, s) => do
        let s ← closeBoth (s.setOfile p fd0 none) rf wf
        pure (s, -1)
      | (some fd1, s) =>
        if copyOk then pure (s, 0)
        else do
          let s ← closeBoth ((s.setOfile p fd0 none).setOfile p fd1 none) rf wf
          pure (s, -1)

/-- One pass of `fork`'s loop: `np->ofile[i] = filedup(p->ofile[i])` where
`p` has the descriptor. -/
def forkDesc (p np : Fin NPROC) (s : Sys) (i : Fin NOFILE) : Except String Sys :=
  match s.ofile p i with
  | none => .ok s
  | some f => do
    let s ← filedup s f
    pure (s.setOfile np i (some f))

/-- One pass of `exit`'s loop: `fileclose(f); p->ofile[fd] = 0` where `p`
has the descriptor. -/
def exitDesc (p : Fin NPROC) (s : Sys) (fd : Fin NOFILE) : Except String Sys :=
  match s.ofile p fd with
  | none => .ok s
  | some f => do
    let s ← fileclose s f
    pure (s.setOfile p fd none)

/-- The calls a process makes on the table. -/
inductive Call
  | open (p : Fin NPROC) (ip : Option Nat) (device : Bool) (major : Int) (omode : Nat)
  | dup (p : Fin NPROC) (fd : Int)
  | close (p : Fin NPROC) (fd : Int)
  | pipe (p : Fin NPROC) (pi : Nat) (copyOk : Bool)
  /-- `fork` by `p`, with `np` the slot `allocproc` gave. -/
  | fork (p np : Fin NPROC)
  | exit (p : Fin NPROC)
  deriving DecidableEq, Repr

/-- One call, or the panic it stops at. -/
def step (s : Sys) : Call → Except String Sys
  | .open p ip device major omode => Prod.fst <$> sysOpen s p ip device major omode
  | .dup p fd => Prod.fst <$> sysDup s p fd
  | .close p fd => Prod.fst <$> sysClose s p fd
  | .pipe p pi copyOk => Prod.fst <$> sysPipe s p pi copyOk
  | .fork p np => do
    let s ← (List.finRange NOFILE).foldlM (forkDesc p np) s
    pure { s with live := Function.update s.live np true }
  | .exit p => do
    let s ← (List.finRange NOFILE).foldlM (exitDesc p) s
    pure { s with live := Function.update s.live p false }

/-- The caller can make calls; `fork`'s new slot is one `allocproc` found
unused. -/
def Call.Fits (s : Sys) : Call → Prop
  | .open p .. | .dup p _ | .close p _ | .pipe p .. | .exit p => s.live p = true
  | .fork p np => s.live p = true ∧ s.live np = false

/-- At boot: every file free and `FD_NONE`, no descriptor, `init` the one
process. -/
def boot : Sys where
  file _ := ⟨.none, 0, false, false, 0, 0, 0, 0⟩
  ofile _ _ := none
  live p := p.val = 0
  log := []

/-- The states the calls reach from boot. -/
inductive Reach : Sys → Prop
  | boot : Reach boot
  | step {s s' : Sys} {c : Call} : Reach s → c.Fits s → step s c = .ok s' → Reach s'

/-! ## What the table holds -/

/-- The descriptors, over every process, that point to `f`. -/
def Sys.count (s : Sys) (f : Fin NFILE) : Nat := ∑ p, ∑ fd, if s.ofile p fd = some f then 1 else 0

/-- The reference a file holds, by its type. -/
def File.obj (x : File) : Multiset Obj :=
  match x.type with
  | .none => 0
  | .pipe => {.pipe x.pipe x.writable}
  | .inode | .device => {.inode x.ip}

/-- A file's part of what the table holds: its reference, while it has a count. -/
def File.share (x : File) : Multiset Obj := if 0 < x.ref then x.obj else 0

/-- The references the table holds. -/
def Sys.held (s : Sys) : Multiset Obj := ∑ f, (s.file f).share

def Event.taken : Event → Multiset Obj
  | .take o => {o}
  | .give _ => 0

def Event.given : Event → Multiset Obj
  | .take _ => 0
  | .give o => {o}

/-- The references the table has taken over, and those it has handed on. -/
def Sys.taken (s : Sys) : Multiset Obj := (s.log.map Event.taken).sum

def Sys.given (s : Sys) : Multiset Obj := (s.log.map Event.given).sum

/-- **The table while a call is under way**, holding the references `m`
that no descriptor holds yet: each file's count is its descriptors and its
part of `m`; a file with no count is `FD_NONE`, and one a descriptor points
to is not; a process that cannot make calls has no descriptor; and what the
table took is what it handed on and what it holds. -/
structure Holds (s : Sys) (m : Multiset (Fin NFILE)) : Prop where
  ref_eq : ∀ f, (s.file f).ref = s.count f + m.count f
  clean : ∀ f, (s.file f).ref = 0 → (s.file f).type = .none
  made : ∀ f, 0 < s.count f → (s.file f).type ≠ .none
  dead : ∀ p, s.live p = false → ∀ fd, s.ofile p fd = none
  balanced : s.taken = s.given + s.held

/-- Between calls: the references are the descriptors'. -/
def Inv (s : Sys) : Prop := Holds s 0

section Frame

variable (s : Sys) (f g : Fin NFILE) (x : File) (p q : Fin NPROC) (fd : Fin NOFILE) (y : Option (Fin NFILE))

@[simp] theorem setFile_file_self : (s.setFile f x).file f = x := Function.update_self ..

theorem setFile_file_of_ne {f g : Fin NFILE} (h : g ≠ f) : (s.setFile f x).file g = s.file g :=
  Function.update_of_ne h ..

@[simp] theorem setFile_ofile : (s.setFile f x).ofile = s.ofile := rfl

@[simp] theorem setFile_live : (s.setFile f x).live = s.live := rfl

@[simp] theorem setFile_log : (s.setFile f x).log = s.log := rfl

@[simp] theorem setOfile_file : (s.setOfile p fd y).file = s.file := rfl

@[simp] theorem setOfile_live : (s.setOfile p fd y).live = s.live := rfl

@[simp] theorem setOfile_log : (s.setOfile p fd y).log = s.log := rfl

theorem setOfile_ofile : (s.setOfile p fd y).ofile q =
    if q = p then Function.update (s.ofile p) fd y else s.ofile q := by
  by_cases hq : q = p
  · subst hq
    simp [Sys.setOfile]
  · simp [Sys.setOfile, hq]

@[simp] theorem record_file (e : Event) : (s.record e).file = s.file := rfl

@[simp] theorem record_ofile (e : Event) : (s.record e).ofile = s.ofile := rfl

@[simp] theorem record_live (e : Event) : (s.record e).live = s.live := rfl

theorem setFile_record_comm (e : Event) : (s.setFile f x).record e = (s.record e).setFile f x := rfl

@[simp] theorem count_setFile : (s.setFile f x).count = s.count := rfl

@[simp] theorem count_record (e : Event) : (s.record e).count = s.count := rfl

@[simp] theorem held_record (e : Event) : (s.record e).held = s.held := rfl

@[simp] theorem held_setOfile : (s.setOfile p fd y).held = s.held := rfl

@[simp] theorem taken_setFile : (s.setFile f x).taken = s.taken := rfl

@[simp] theorem given_setFile : (s.setFile f x).given = s.given := rfl

@[simp] theorem taken_record (e : Event) : (s.record e).taken = s.taken + e.taken := by
  simp [Sys.taken, Sys.record]

@[simp] theorem given_record (e : Event) : (s.record e).given = s.given + e.given := by
  simp [Sys.given, Sys.record]

/-- **One descriptor changed** changes each file's count by what it pointed
to and what it points to now. -/
theorem count_setOfile :
    (s.setOfile p fd y).count g + (if s.ofile p fd = some g then 1 else 0) =
      s.count g + (if y = some g then 1 else 0) := by
  -- the row of `p` changes in one slot, and the table in one row
  have hrow := Budget.sum_update_add (fun o => if o = some g then 1 else 0) (s.ofile p) fd y
  have htable := Budget.sum_update_add (fun row : Fin NOFILE → Option (Fin NFILE) =>
    ∑ i, if row i = some g then 1 else 0) s.ofile p (Function.update (s.ofile p) fd y)
  beta_reduce at hrow htable
  unfold Sys.count Sys.setOfile
  dsimp only
  omega

/-- A descriptor counts towards its file. -/
theorem count_pos {s : Sys} {p : Fin NPROC} {fd : Fin NOFILE} {f : Fin NFILE} (h : s.ofile p fd = some f) :
    0 < s.count f := by
  have hone : 0 < if s.ofile p fd = some f then 1 else 0 := by
    rw [if_pos h]
    exact Nat.one_pos
  have hrow : 0 < ∑ i, if s.ofile p i = some f then 1 else 0 :=
    Finset.sum_pos' (fun i _ => Nat.zero_le _) ⟨fd, Finset.mem_univ _, hone⟩
  unfold Sys.count
  exact Finset.sum_pos' (fun q _ => Nat.zero_le _) ⟨p, Finset.mem_univ _, hrow⟩

end Frame

/-! ## The table's operations, one at a time -/

section Ops

variable {s s' : Sys} {m : Multiset (Fin NFILE)} {f : Fin NFILE}

/-- **One file changed**, with the events logged for it: the table keeps
its invariant where the new file's count is its descriptors and the call's
references, it has no type only where it has no count, it has a type where
a descriptor points to it, and the events log what its share gained and
lost. -/
theorem Holds.change (hI : Holds s m) {s₂ : Sys} {m' : Multiset (Fin NFILE)} {x : File}
    (hfile : s₂.file = Function.update s.file f x) (hofile : s₂.ofile = s.ofile) (hlive : s₂.live = s.live)
    (hm : ∀ g, g ≠ f → m'.count g = m.count g) (href : x.ref = s.count f + m'.count f)
    (hclean : x.ref = 0 → x.type = .none) (hmade : 0 < s.count f → x.type ≠ .none)
    (hbal : ∃ T G, s₂.taken = s.taken + T ∧ s₂.given = s.given + G ∧ T + (s.file f).share = G + x.share) :
    Holds s₂ m' := by
  have hcount : s₂.count = s.count := by
    unfold Sys.count
    rw [hofile]
  have hget : ∀ g, g ≠ f → s₂.file g = s.file g := fun g hg => by
    rw [hfile, Function.update_of_ne hg]
  have hself : s₂.file f = x := by
    rw [hfile, Function.update_self]
  refine ⟨fun g => ?_, fun g hg => ?_, fun g hg => ?_, fun q hq => ?_, ?_⟩
  · by_cases hgf : g = f
    · subst hgf
      rw [hself, hcount, href]
    · rw [hget g hgf, hcount, hm g hgf]
      exact hI.ref_eq g
  · by_cases hgf : g = f
    · subst hgf
      rw [hself] at hg ⊢
      exact hclean hg
    · rw [hget g hgf] at hg ⊢
      exact hI.clean g hg
  · rw [hcount] at hg
    by_cases hgf : g = f
    · subst hgf
      rw [hself]
      exact hmade hg
    · rw [hget g hgf]
      exact hI.made g hg
  · rw [hofile]
    exact hI.dead q (hlive ▸ hq)
  · -- the share the file gained or lost is what the log gained
    obtain ⟨T, G, hT, hG, hTG⟩ := hbal
    have hheld : s₂.held + (s.file f).share = s.held + x.share := by
      have h := Budget.sum_update_add File.share s.file f x
      unfold Sys.held
      rw [hfile]
      exact h
    have hsum : s.taken + T + (s.file f).share = s.given + G + s₂.held + (s.file f).share :=
      calc s.taken + T + (s.file f).share = s.given + s.held + (T + (s.file f).share) := by
            rw [hI.balanced, add_assoc]
        _ = s.given + G + (s.held + x.share) := by
            rw [hTG]
            abel
        _ = s.given + G + s₂.held + (s.file f).share := by
            rw [← hheld]
            abel
    rw [hT, hG]
    exact add_right_cancel hsum

/-- A descriptor changed leaves the table's own fields alone. -/
theorem Holds.setOfile (hI : Holds s m) {p : Fin NPROC} {fd : Fin NOFILE} {y : Option (Fin NFILE)}
    {m' : Multiset (Fin NFILE)}
    (href : ∀ g, (s.setOfile p fd y).count g + m'.count g = s.count g + m.count g)
    (hmade : ∀ g, y = some g → (s.file g).type ≠ .none) (hdead : s.live p = false → y = none) :
    Holds (s.setOfile p fd y) m' := by
  refine ⟨fun g => ?_, hI.clean, fun g hg => ?_, fun q hq => ?_, hI.balanced⟩
  · rw [setOfile_file, hI.ref_eq g, href g]
  · have hc := count_setOfile s g p fd y
    by_cases hy : y = some g
    · exact hmade g hy
    · rw [if_neg hy] at hc
      exact hI.made g (by omega)
  · rw [setOfile_ofile]
    split_ifs with hqp
    · subst hqp
      intro i
      by_cases hi : i = fd
      · subst hi
        rw [Function.update_self]
        exact hdead hq
      · rw [Function.update_of_ne hi]
        exact hI.dead q hq i
    · exact hI.dead q hq

theorem filealloc_none (h : filealloc s = (none, s')) : s' = s := by
  unfold filealloc at h
  split at h <;> simp_all

theorem filealloc_some (h : filealloc s = (some f, s')) :
    (s.file f).ref = 0 ∧ s' = s.setFile f { s.file f with ref := 1 } := by
  unfold filealloc at h
  split at h
  · cases h
  · rename_i g hg
    simp only [Prod.mk.injEq, Option.some.injEq] at h
    obtain ⟨rfl, rfl⟩ := h
    exact ⟨by simpa using List.find?_some hg, rfl⟩

theorem fdalloc_none {p : Fin NPROC} (h : fdalloc s p f = (none, s')) : s' = s := by
  unfold fdalloc at h
  split at h <;> simp_all

theorem fdalloc_some {p : Fin NPROC} {fd : Fin NOFILE} (h : fdalloc s p f = (some fd, s')) :
    s.ofile p fd = none ∧ s' = s.setOfile p fd (some f) := by
  unfold fdalloc at h
  split at h
  · cases h
  · rename_i i hi
    simp only [Prod.mk.injEq, Option.some.injEq] at h
    obtain ⟨rfl, rfl⟩ := h
    exact ⟨by simpa using List.find?_some hi, rfl⟩

theorem argfd_some {p : Fin NPROC} {fd : Int} {i : Fin NOFILE} (h : argfd s p fd = some (i, f)) :
    s.ofile p i = some f := by
  unfold argfd at h
  split at h
  · split at h
    · cases h
    · rename_i g hg
      simp only [Option.some.injEq, Prod.mk.injEq] at h
      obtain ⟨rfl, rfl⟩ := h
      exact hg
  · cases h

/-- `filealloc` hands the call a free file, `FD_NONE`, with one reference. -/
theorem Holds.filealloc (hI : Holds s m) (h : Ftable.filealloc s = (some f, s')) :
    Holds s' (f ::ₘ m) ∧ (s'.file f).type = .none ∧ (s.file f).ref = 0 := by
  obtain ⟨h0, rfl⟩ := filealloc_some h
  have hf := hI.ref_eq f
  have hnone := hI.clean f h0
  refine ⟨hI.change rfl rfl rfl (fun g hg => Multiset.count_cons_of_ne hg m) ?_ (fun h => absurd h one_ne_zero)
    (fun h => by omega) ⟨0, 0, (add_zero _).symm, (add_zero _).symm, ?_⟩, by simpa using hnone, h0⟩
  · rw [Multiset.count_cons_self]
    dsimp only
    omega
  · simp [File.share, File.obj, h0, hnone]

/-- `filedup` of a file in use adds the call's reference. -/
theorem Holds.filedup (hI : Holds s m) (hf : 0 < (s.file f).ref) :
    Ftable.filedup s f = .ok (s.setFile f { s.file f with ref := (s.file f).ref + 1 }) ∧
      Holds (s.setFile f { s.file f with ref := (s.file f).ref + 1 }) (f ::ₘ m) := by
  have href := hI.ref_eq f
  refine ⟨if_neg (by omega), hI.change rfl rfl rfl (fun g hg => Multiset.count_cons_of_ne hg m) ?_
    (fun h => by simp at h) (hI.made f) ⟨0, 0, (add_zero _).symm, (add_zero _).symm, ?_⟩⟩
  · rw [Multiset.count_cons_self]
    dsimp only
    omega
  · simp [File.share, File.obj, hf]

/-- **`fileclose` of a reference the call holds** drops it; with the last,
the file is `FD_NONE` again and its reference is handed on. -/
theorem Holds.fileclose (hI : Holds s (f ::ₘ m)) :
    ∃ s', Ftable.fileclose s f = .ok s' ∧ Holds s' m := by
  have href := hI.ref_eq f
  have hcons := Multiset.count_cons_self f m
  have hm : ∀ g, g ≠ f → m.count g = (f ::ₘ m).count g := fun g hg => (Multiset.count_cons_of_ne hg m).symm
  unfold Ftable.fileclose
  rw [if_neg (by omega)]
  by_cases hlast : (s.file f).ref - 1 > 0
  · -- references remain: the count goes down by one
    rw [if_pos hlast]
    exact ⟨_, rfl, hI.change rfl rfl rfl hm (by simp only; omega) (fun h => by simp only at h; omega)
      (hI.made f) ⟨0, 0, (add_zero _).symm, (add_zero _).symm,
        by simp [File.share, File.obj, hlast, show 0 < (s.file f).ref by omega]⟩⟩
  -- the last reference: no descriptor points to the file
  rw [if_neg hlast]
  have hnone : s.count f = 0 := by omega
  have hkeep : ∀ s₂ : Sys, s₂.file = Function.update s.file f { s.file f with ref := 0, type := .none } →
      s₂.ofile = s.ofile → s₂.live = s.live → s₂.taken = s.taken → s₂.given = s.given + (s.file f).obj →
      Holds s₂ m := fun s₂ hfile hofile hlive hT hG =>
    hI.change hfile hofile hlive hm (by simp only; omega) (fun _ => rfl) (fun h => by omega)
      ⟨0, (s.file f).obj, by rw [hT, add_zero], hG, by simp [File.share, show 0 < (s.file f).ref by omega]⟩
  -- the reference handed on is the one the file held
  cases ht : (s.file f).type with
  | none =>
    simp only [ht]
    exact ⟨_, rfl, hkeep _ rfl rfl rfl rfl (by simp [File.obj, ht])⟩
  | pipe =>
    simp only [ht]
    exact ⟨_, rfl, hkeep _ rfl rfl rfl (by simp [Event.taken]) (by simp [Event.given, File.obj, ht])⟩
  | inode =>
    simp only [ht]
    exact ⟨_, rfl, hkeep _ rfl rfl rfl (by simp [Event.taken]) (by simp [Event.given, File.obj, ht])⟩
  | device =>
    simp only [ht]
    exact ⟨_, rfl, hkeep _ rfl rfl rfl (by simp [Event.taken]) (by simp [Event.given, File.obj, ht])⟩

/-- Both ends of a pipe the call holds closed. -/
theorem Holds.closeBoth {rf wf : Fin NFILE} (hI : Holds s (rf ::ₘ wf ::ₘ m)) :
    ∃ s', Ftable.closeBoth s rf wf = .ok s' ∧ Holds s' m := by
  obtain ⟨s₁, h₁, hI₁⟩ := hI.fileclose
  obtain ⟨s₂, h₂, hI₂⟩ := hI₁.fileclose
  refine ⟨s₂, ?_, hI₂⟩
  unfold Ftable.closeBoth
  rw [h₁]
  exact h₂

theorem File.share_of_none {x : File} (h : x.type = .none) : x.share = 0 := by
  simp [File.share, File.obj, h]

/-- **A file filled**: the call's new file, `FD_NONE` so far, gets a type
and the reference it holds, and the log records that reference as taken. -/
theorem Holds.fill (hI : Holds s (f ::ₘ m)) (hnone : (s.file f).type = .none) {x : File} {o : Obj}
    (href : x.ref = (s.file f).ref) (hobj : x.obj = {o}) :
    Holds ((s.setFile f x).record (.take o)) (f ::ₘ m) := by
  have hpos : 0 < x.ref := by
    rw [href, hI.ref_eq f, Multiset.count_cons_self]
    omega
  have htype : x.type ≠ .none := fun h => by simp [File.obj, h] at hobj
  have hshare : x.share = {o} := by rw [File.share, if_pos hpos, hobj]
  refine hI.change rfl rfl rfl (fun _ _ => rfl) (by rw [href, hI.ref_eq f]) (fun h => by omega) (fun _ => htype)
    ⟨{o}, 0, by simp [Event.taken], by simp [Event.given], ?_⟩
  rw [File.share_of_none hnone, hshare, add_zero, zero_add]

/-- **A descriptor takes over** a reference the call holds, to a file with a
type, in a free slot of a process that can make calls. -/
theorem Holds.take (hI : Holds s (f ::ₘ m)) {p : Fin NPROC} {fd : Fin NOFILE} (hlive : s.live p = true)
    (hfd : s.ofile p fd = none) (htype : (s.file f).type ≠ .none) : Holds (s.setOfile p fd (some f)) m := by
  refine hI.setOfile (fun g => ?_) (fun g hg => ?_) (fun h => ?_)
  · have hc := count_setOfile s g p fd (some f)
    rw [hfd] at hc
    by_cases hgf : g = f
    · subst hgf
      simp at hc
      rw [Multiset.count_cons_self]
      omega
    · simp [Ne.symm hgf] at hc
      rw [Multiset.count_cons_of_ne hgf]
      omega
  · cases hg
    exact htype
  · rw [hlive] at h
    cases h

/-- **A descriptor cleared** hands its reference back to the call. -/
theorem Holds.clear (hI : Holds s m) {p : Fin NPROC} {fd : Fin NOFILE} (hfd : s.ofile p fd = some f) :
    Holds (s.setOfile p fd none) (f ::ₘ m) := by
  refine hI.setOfile (fun g => ?_) (fun g hg => by cases hg) (fun _ => rfl)
  have hc := count_setOfile s g p fd none
  rw [hfd] at hc
  by_cases hgf : g = f
  · subst hgf
    simp at hc
    rw [Multiset.count_cons_self]
    omega
  · simp [Ne.symm hgf] at hc
    rw [Multiset.count_cons_of_ne hgf]
    omega

/-- Whether a process can make calls changed, where one that stops has no
descriptor. -/
theorem Holds.setLive (hI : Holds s m) {p : Fin NPROC} {b : Bool} (hp : b = false → ∀ fd, s.ofile p fd = none) :
    Holds { s with live := Function.update s.live p b } m := by
  refine ⟨hI.ref_eq, hI.clean, hI.made, fun q hq => ?_, hI.balanced⟩
  dsimp only at hq
  by_cases hqp : q = p
  · subst hqp
    rw [Function.update_self] at hq
    exact hp hq
  · rw [Function.update_of_ne hqp] at hq
    exact hI.dead q hq

end Ops

/-! ## The calls

A call breaks the invariant between its steps only where it holds a
reference no descriptor holds yet; where the source gives a descriptor its
file before `filedup` or `fileclose`, the two steps touch different fields
and are taken in the other order. -/

section Commute

variable (s : Sys) (f : Fin NFILE) (p : Fin NPROC) (fd : Fin NOFILE) (y : Option (Fin NFILE))

theorem filedup_setOfile : filedup (s.setOfile p fd y) f = (·.setOfile p fd y) <$> filedup s f := by
  by_cases h : (s.file f).ref < 1
  · simp [filedup, h]
  · simp [filedup, h]
    rfl

theorem fileclose_setOfile : fileclose (s.setOfile p fd y) f = (·.setOfile p fd y) <$> fileclose s f := by
  by_cases h : (s.file f).ref < 1
  · simp [fileclose, h]
  by_cases hlast : (s.file f).ref - 1 > 0
  · simp [fileclose, h, hlast]
    rfl
  · simp only [fileclose, setOfile_file, h, hlast, if_false]
    rcases (s.file f).type <;> rfl

/-- `fileclose` leaves the descriptors and the processes alone. -/
theorem fileclose_frame {s s' : Sys} {f : Fin NFILE} (h : fileclose s f = .ok s') :
    s'.ofile = s.ofile ∧ s'.live = s.live := by
  unfold fileclose at h
  split_ifs at h
  · cases h
    exact ⟨rfl, rfl⟩
  · dsimp only at h
    split at h <;> cases h <;> exact ⟨rfl, rfl⟩

/-- `exit`'s pass clears the descriptor, then closes its file. -/
theorem exitDesc_of_some {s : Sys} {p : Fin NPROC} {fd : Fin NOFILE} {f : Fin NFILE} (h : s.ofile p fd = some f) :
    exitDesc p s fd = fileclose (s.setOfile p fd none) f := by
  unfold exitDesc
  rw [h, fileclose_setOfile]
  dsimp only
  cases fileclose s f <;> rfl

theorem forkDesc_setLive (np : Fin NPROC) (L : Fin NPROC → Bool) (i : Fin NOFILE) :
    forkDesc p np { s with live := L } i = (fun s : Sys => { s with live := L }) <$> forkDesc p np s i := by
  unfold forkDesc filedup
  dsimp only
  rcases s.ofile p i with _ | f
  · rfl
  · dsimp only
    split_ifs <;> rfl

/-- `fork` marks the child runnable after its loop; the loop never reads
it, so the child can make calls from the start. -/
theorem step_fork (np : Fin NPROC) :
    step s (.fork p np) =
      (List.finRange NOFILE).foldlM (forkDesc p np) { s with live := Function.update s.live np true } := by
  have hcomm := Budget.foldlM_hom (fun s' : Sys => { s' with live := Function.update s.live np true })
    (forkDesc_setLive · p np _) (List.finRange NOFILE) s
  -- the loop does not change who can make calls
  have hlive : (List.finRange NOFILE).foldlM (forkDesc p np) s =
      (fun s' : Sys => { s' with live := s.live }) <$> (List.finRange NOFILE).foldlM (forkDesc p np) s :=
    Budget.foldlM_hom (fun s' : Sys => { s' with live := s.live }) (forkDesc_setLive · p np _) _ s
  rw [hcomm]
  simp only [step]
  rcases h : (List.finRange NOFILE).foldlM (forkDesc p np) s with e | s'
  · rfl
  · rw [h] at hlive
    simp only [Budget.map_ok, Except.ok.injEq] at hlive
    have hl : s'.live = s.live := by rw [hlive]
    simp only [Budget.ok_bind, Budget.map_ok, hl]
    rfl

end Commute

section Calls

variable {s : Sys} {p : Fin NPROC}

/-- `sys_open` from its inode: the file is filled before the descriptor
takes it over. -/
theorem Inv.sysOpen (hI : Inv s) (hlive : s.live p = true) (ip : Option Nat) (device : Bool) (major : Int)
    (omode : Nat) : ∃ s' r, Ftable.sysOpen s p ip device major omode = .ok (s', r) ∧ Inv s' := by
  unfold Ftable.sysOpen
  rcases ip with _ | ip
  · exact ⟨s, -1, rfl, hI⟩
  dsimp only
  by_cases hdev : device ∧ (major < 0 ∨ NDEV ≤ major)
  · exact ⟨s, -1, if_pos hdev, hI⟩
  rw [if_neg hdev]
  rcases ha : Ftable.filealloc s with ⟨_ | f, s₁⟩
  · obtain rfl := filealloc_none ha
    exact ⟨_, -1, rfl, hI⟩
  obtain ⟨h₁, hnone, -⟩ := hI.filealloc ha
  have hl₁ : s₁.live = s.live := by rw [(filealloc_some ha).2]; rfl
  dsimp only
  rcases hd : fdalloc s₁ p f with ⟨_ | fd, s₂⟩
  · -- no free descriptor: the file is closed again
    obtain rfl := fdalloc_none hd
    obtain ⟨s₃, hclose, h₃⟩ := h₁.fileclose
    exact ⟨s₃, -1, by dsimp only; rw [hclose]; rfl, h₃⟩
  obtain ⟨hfd, rfl⟩ := fdalloc_some hd
  refine ⟨_, _, rfl, ?_⟩
  refine (h₁.fill hnone ?_ ?_).take (hl₁ ▸ hlive : s₁.live p = true) hfd ?_
  · cases device <;> rfl
  · cases device <;> rfl
  · cases device <;> simp

/-- `sys_dup`: `fdalloc` gives the descriptor the file, `filedup` counts it. -/
theorem Inv.sysDup (hI : Inv s) (hlive : s.live p = true) (fd : Int) :
    ∃ s' r, Ftable.sysDup s p fd = .ok (s', r) ∧ Inv s' := by
  unfold Ftable.sysDup
  rcases hfd : argfd s p fd with _ | ⟨i, f⟩
  · exact ⟨s, -1, rfl, hI⟩
  have hc := count_pos (argfd_some hfd)
  dsimp only
  rcases hd : fdalloc s p f with ⟨_ | j, s₁⟩
  · obtain rfl := fdalloc_none hd
    exact ⟨_, -1, rfl, hI⟩
  obtain ⟨hj, rfl⟩ := fdalloc_some hd
  obtain ⟨hdup, h₁⟩ := hI.filedup (f := f) (by rw [hI.ref_eq f]; omega)
  refine ⟨_, _, by dsimp only; rw [filedup_setOfile, hdup]; rfl, h₁.take hlive hj ?_⟩
  simpa using hI.made f hc

/-- `sys_close`: the descriptor is cleared, then its file closed. -/
theorem Inv.sysClose (hI : Inv s) (fd : Int) : ∃ s' r, Ftable.sysClose s p fd = .ok (s', r) ∧ Inv s' := by
  unfold Ftable.sysClose
  rcases hfd : argfd s p fd with _ | ⟨i, f⟩
  · exact ⟨s, -1, rfl, hI⟩
  obtain ⟨s', hclose, h'⟩ := (hI.clear (argfd_some hfd)).fileclose
  exact ⟨s', 0, by dsimp only; rw [hclose]; rfl, h'⟩

/-- `pipealloc`: both ends, filled, held by the call; or, where a file or
the page is missing, what it took is closed again. -/
theorem Inv.pipealloc (hI : Inv s) (pi : Nat) :
    (∃ s', Ftable.pipealloc s pi = .ok (none, s') ∧ Inv s') ∨
    ∃ s' rf wf, Ftable.pipealloc s pi = .ok (some (rf, wf), s') ∧ Holds s' (rf ::ₘ wf ::ₘ 0) ∧
      (s'.file rf).type ≠ .none ∧ (s'.file wf).type ≠ .none ∧ s'.live = s.live := by
  unfold Ftable.pipealloc
  rcases ha : Ftable.filealloc s with ⟨_ | f0, s₁⟩
  · obtain rfl := filealloc_none ha
    exact .inl ⟨_, rfl, hI⟩
  obtain ⟨h₁, hn0, -⟩ := hI.filealloc ha
  have hl₁ : s₁.live = s.live := by rw [(filealloc_some ha).2]; rfl
  dsimp only
  rcases hb : Ftable.filealloc s₁ with ⟨_ | f1, s₂⟩
  · -- no second file: the first is closed again
    obtain rfl := filealloc_none hb
    obtain ⟨s₃, hc, h₃⟩ := h₁.fileclose
    exact .inl ⟨s₃, by dsimp only; rw [hc]; rfl, h₃⟩
  obtain ⟨h₂, hn1, hr1⟩ := h₁.filealloc hb
  have hs₂ := (filealloc_some hb).2
  have hl₂ : s₂.live = s.live := by rw [hs₂, ← hl₁]; rfl
  -- the second file had no reference, the first has one
  have hne : f1 ≠ f0 := by
    rintro rfl
    have := h₁.ref_eq f1
    rw [Multiset.count_cons_self] at this
    omega
  have hn0' : (s₂.file f0).type = .none := by
    rw [hs₂, setFile_file_of_ne _ _ (Ne.symm hne)]
    exact hn0
  dsimp only
  by_cases hpi : pi = 0
  · rw [if_pos hpi]
    obtain ⟨s₃, hc₃, h₃⟩ := (Multiset.cons_swap f1 f0 0 ▸ h₂).fileclose
    obtain ⟨s₄, hc₄, h₄⟩ := h₃.fileclose
    exact .inl ⟨s₄, by rw [hc₃, Budget.ok_bind, hc₄]; rfl, h₄⟩
  rw [if_neg hpi]
  refine .inr ⟨_, f0, f1, rfl, ?_, ?_, ?_, hl₂⟩
  · -- the read end filled first, then the write end
    have h₂' : Holds s₂ (f0 ::ₘ f1 ::ₘ 0) := by
      rw [Multiset.cons_swap]
      exact h₂
    rw [setFile_record_comm, Multiset.cons_swap]
    refine Holds.fill ?_ (by simpa [setFile_file_of_ne _ _ hne] using hn1) rfl rfl
    rw [Multiset.cons_swap]
    exact h₂'.fill hn0' rfl rfl
  · simp [setFile_file_of_ne _ _ (Ne.symm hne)]
  · simp

/-- `sys_pipe`: each end is handed to a descriptor; where the second
`fdalloc` or a `copyout` fails, the descriptors are cleared and both ends
closed. -/
theorem Inv.sysPipe (hI : Inv s) (hlive : s.live p = true) (pi : Nat) (copyOk : Bool) :
    ∃ s' r, Ftable.sysPipe s p pi copyOk = .ok (s', r) ∧ Inv s' := by
  unfold Ftable.sysPipe
  rcases hI.pipealloc pi with ⟨s₁, ha, h₁⟩ | ⟨s₁, rf, wf, ha, h₁, hrf, hwf, hl₁⟩
  · exact ⟨s₁, -1, by rw [ha]; rfl, h₁⟩
  rw [ha, Budget.ok_bind]
  dsimp only
  rcases hd0 : fdalloc s₁ p rf with ⟨_ | fd0, s₂⟩
  · obtain rfl := fdalloc_none hd0
    obtain ⟨s₃, hc, h₃⟩ := h₁.closeBoth
    exact ⟨s₃, -1, by dsimp only; rw [hc]; rfl, h₃⟩
  obtain ⟨hfd0, rfl⟩ := fdalloc_some hd0
  have hl : s₁.live p = true := by rw [hl₁]; exact hlive
  have h₂ := h₁.take hl hfd0 hrf
  have hrf₂ : (s₁.setOfile p fd0 (some rf)).ofile p fd0 = some rf := by simp [setOfile_ofile]
  dsimp only
  rcases hd1 : fdalloc (s₁.setOfile p fd0 (some rf)) p wf with ⟨_ | fd1, s₃⟩
  · obtain rfl := fdalloc_none hd1
    obtain ⟨s₄, hc, h₄⟩ := (h₂.clear hrf₂).closeBoth
    exact ⟨s₄, -1, by dsimp only; rw [hc]; rfl, h₄⟩
  obtain ⟨hfd1, rfl⟩ := fdalloc_some hd1
  have h₃ := h₂.take hl hfd1 hwf
  dsimp only
  cases copyOk
  · -- a `copyout` failed: both descriptors are cleared, both ends closed
    have hne : fd1 ≠ fd0 := by
      rintro rfl
      rw [hrf₂] at hfd1
      cases hfd1
    have hrf₃ : ((s₁.setOfile p fd0 (some rf)).setOfile p fd1 (some wf)).ofile p fd0 = some rf := by
      simp [setOfile_ofile, Function.update_of_ne (Ne.symm hne)]
    have hwf₄ : (((s₁.setOfile p fd0 (some rf)).setOfile p fd1 (some wf)).setOfile p fd0 none).ofile p fd1 =
        some wf := by
      simp [setOfile_ofile, Function.update_of_ne hne]
    have h₄ := (h₃.clear hrf₃).clear hwf₄
    obtain ⟨s₅, hc, h₅⟩ := (Multiset.cons_swap wf rf 0 ▸ h₄).closeBoth
    exact ⟨s₅, -1, by rw [hc]; rfl, h₅⟩
  · exact ⟨_, 0, rfl, h₃⟩

/-- One pass of `fork`'s loop, where the child's slot is free and the child
can make calls. -/
theorem Inv.forkDesc {np : Fin NPROC} {i : Fin NOFILE} (hI : Inv s) (hnp : s.live np = true)
    (hi : s.ofile np i = none) :
    ∃ s', Ftable.forkDesc p np s i = .ok s' ∧ Inv s' ∧ s'.live = s.live ∧
      ∀ j, j ≠ i → s'.ofile np j = s.ofile np j := by
  unfold Ftable.forkDesc
  rcases hf : s.ofile p i with _ | f
  · exact ⟨s, rfl, hI, rfl, fun _ _ => rfl⟩
  have hc := count_pos hf
  obtain ⟨hdup, h₁⟩ := hI.filedup (f := f) (by rw [hI.ref_eq f]; omega)
  refine ⟨_, by dsimp only; rw [hdup]; rfl, h₁.take hnp hi (by simpa using hI.made f hc), rfl, fun j hj => ?_⟩
  simp [setOfile_ofile, Function.update_of_ne hj]

/-- `fork`: the loop runs over the child's free slots, with the child able to
make calls (`step_fork`). -/
theorem Inv.fork {np : Fin NPROC} (hI : Inv s) (hnp : s.live np = false) :
    ∃ s', step s (.fork p np) = .ok s' ∧ Inv s' := by
  rw [step_fork]
  -- the invariant of the loop: the slots still to fill are free
  obtain ⟨s', hs', hI', -⟩ := Budget.foldlM_ok_of_rest
    (P := fun s rest => Inv s ∧ s.live np = true ∧ rest.Nodup ∧ ∀ i ∈ rest, s.ofile np i = none)
    (fun s i rest ⟨hI, hl, hnd, hfree⟩ => by
      obtain ⟨s', hs', hI', hl', hrow⟩ := hI.forkDesc (p := p) hl (hfree i List.mem_cons_self)
      have hnd' := List.nodup_cons.mp hnd
      refine ⟨s', hs', hI', hl' ▸ hl, hnd'.2, fun j hj => ?_⟩
      have hji : j ≠ i := fun h => hnd'.1 (h ▸ hj)
      rw [hrow j hji]
      exact hfree j (List.mem_cons_of_mem _ hj))
    (List.finRange NOFILE) _
    ⟨Holds.setLive (p := np) (b := true) hI (fun h => by cases h), by simp, List.nodup_finRange _,
      fun i _ => hI.dead np hnp i⟩
  exact ⟨s', hs', hI'⟩

/-- One pass of `exit`'s loop: the descriptor is cleared and its file closed. -/
theorem Inv.exitDesc (hI : Inv s) (fd : Fin NOFILE) :
    ∃ s', Ftable.exitDesc p s fd = .ok s' ∧ Inv s' ∧ s'.ofile p fd = none ∧
      ∀ j, j ≠ fd → s'.ofile p j = s.ofile p j := by
  rcases hf : s.ofile p fd with _ | f
  · exact ⟨s, by unfold Ftable.exitDesc; rw [hf], hI, hf, fun _ _ => rfl⟩
  obtain ⟨s', hs', hI'⟩ := (hI.clear hf).fileclose
  have hof := (fileclose_frame hs').1
  refine ⟨s', by rw [exitDesc_of_some hf, hs'], hI', ?_, fun j hj => ?_⟩
  · simp [hof, setOfile_ofile]
  · simp [hof, setOfile_ofile, Function.update_of_ne hj]

/-- `exit`: after the loop the process has no descriptor, and it stops
making calls. -/
theorem Inv.exit (hI : Inv s) : ∃ s', step s (.exit p) = .ok s' ∧ Inv s' := by
  -- the invariant of the loop: the slots already passed are free
  obtain ⟨s', hs', hI', -, hnone⟩ := Budget.foldlM_ok_of_rest
    (P := fun s rest => Inv s ∧ rest.Nodup ∧ ∀ fd, fd ∉ rest → s.ofile p fd = none)
    (fun s fd rest ⟨hI, hnd, hfree⟩ => by
      obtain ⟨s', hs', hI', hfd, hrow⟩ := hI.exitDesc (p := p) fd
      refine ⟨s', hs', hI', (List.nodup_cons.mp hnd).2, fun j hj => ?_⟩
      by_cases hjfd : j = fd
      · rw [hjfd]
        exact hfd
      · rw [hrow j hjfd]
        exact hfree j (by simp [hjfd, hj]))
    (List.finRange NOFILE) s ⟨hI, List.nodup_finRange _, fun fd h => absurd (List.mem_finRange fd) h⟩
  refine ⟨_, by simp only [step]; rw [hs']; rfl, hI'.setLive fun _ fd => hnone fd (by simp)⟩

/-- **A call that fits succeeds and keeps the invariant.** -/
theorem Inv.step (hI : Inv s) {c : Call} (hc : c.Fits s) : ∃ s', Ftable.step s c = .ok s' ∧ Inv s' := by
  rcases c with ⟨p, ip, device, major, omode⟩ | ⟨p, fd⟩ | ⟨p, fd⟩ | ⟨p, pi, copyOk⟩ | ⟨p, np⟩ | p
  · obtain ⟨s', r, h, hI'⟩ := hI.sysOpen hc ip device major omode
    exact ⟨s', by simp only [Ftable.step, h]; rfl, hI'⟩
  · obtain ⟨s', r, h, hI'⟩ := hI.sysDup hc fd
    exact ⟨s', by simp only [Ftable.step, h]; rfl, hI'⟩
  · obtain ⟨s', r, h, hI'⟩ := hI.sysClose (p := p) fd
    exact ⟨s', by simp only [Ftable.step, h]; rfl, hI'⟩
  · obtain ⟨s', r, h, hI'⟩ := hI.sysPipe hc pi copyOk
    exact ⟨s', by simp only [Ftable.step, h]; rfl, hI'⟩
  · exact hI.fork hc.2
  · exact hI.exit

theorem inv_boot : Inv boot where
  ref_eq f := by simp [Sys.count, boot]
  clean _ _ := rfl
  made f h := by simp [Sys.count, boot] at h
  dead _ _ _ := rfl
  balanced := by simp [Sys.taken, Sys.given, Sys.held, boot, File.share]

/-- **The run lemma.** -/
theorem Reach.inv {s : Sys} (h : Reach s) : Inv s := by
  induction h with
  | boot => exact inv_boot
  | step _ hc hs ih =>
    obtain ⟨s', hs', hI'⟩ := ih.step hc
    rw [hs] at hs'
    cases hs'
    exact hI'

end Calls

/-! ## Over every run -/

/-- **The file table over every run from boot.** Each file's count is the
number of descriptors that point to it, so no call that fits reaches the
`filedup` or `fileclose` panic; a file is `FD_NONE` exactly when it has no
count; a process that has exited holds no descriptor; and each pipe end and
inode the table took over it has handed on once or still holds. -/
theorem ftable_counts_descriptors {s : Sys} (hs : Reach s) :
    (∀ f, (s.file f).ref = s.count f) ∧
    (∀ f, (s.file f).ref = 0 ↔ (s.file f).type = .none) ∧
    (∀ p, s.live p = false → ∀ fd, s.ofile p fd = none) ∧
    s.taken = s.given + s.held ∧
    ∀ c : Call, c.Fits s → ∃ s', step s c = .ok s' := by
  have hI := hs.inv
  have href : ∀ f, (s.file f).ref = s.count f := fun f => by simpa using hI.ref_eq f
  refine ⟨href, fun f => ⟨hI.clean f, fun hnone => ?_⟩, hI.dead, hI.balanced, fun c hc => ?_⟩
  · -- a file a descriptor points to has a type
    by_contra hpos
    exact hI.made f (by rw [← href f]; omega) hnone
  · obtain ⟨s', h, -⟩ := hI.step hc
    exact ⟨s', h⟩

theorem ftable_counts_descriptors_after_open :
    ∃ s, step boot (.open ⟨0, by decide⟩ (some 1) false 0 0) = .ok s ∧
      (∀ f, (s.file f).ref = s.count f) ∧
      (∀ f, (s.file f).ref = 0 ↔ (s.file f).type = .none) ∧
      (∀ p, s.live p = false → ∀ fd, s.ofile p fd = none) ∧
      s.taken = s.given + s.held ∧
      ∀ c : Call, c.Fits s → ∃ s', step s c = .ok s' := by
  have hc : Call.Fits boot (.open ⟨0, by decide⟩ (some 1) false 0 0) := rfl
  obtain ⟨s, hs, -⟩ := inv_boot.step hc
  exact ⟨s, hs, ftable_counts_descriptors (.step .boot hc hs)⟩

end Ftable

end Fs

end Mkros
