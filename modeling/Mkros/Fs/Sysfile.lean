import Mkros.Fs.Inode
/-!
# The file-system system calls — the model

`sysfile.c`'s calls that change the name space, over the inode model: each
takes the state between calls to the state after it and the value it
returns. Only `sys_unlink` can stop the kernel (`panic`), so its result is an
`Except`. What `sys_write` and `O_TRUNC` do to a file's data, and the
`filealloc` limit of `NFILE` files, are left out: they change no field the
model keeps. A run of calls stops at the first panic.
-/

namespace Mkros

namespace Fs

/-- `O_RDONLY`. -/
def O_RDONLY : Nat := 0x000

/-- `O_CREATE`. -/
def O_CREATE : Nat := 0x200

/-- `NDEV`. -/
def NDEV : Int := 10

/-! ## `create` -/

/-- `create`'s `fail` path: `ip` loses its link, and the references to `ip`
and `dp` go. -/
def createFail (s : State) (dp ip : Nat) : State × Option Nat :=
  (iput (iput (s.setNlink ip 0) ip) dp, none)

/-- The `.` and `..` entries of a new directory `ip` made in `dp`. -/
def dotLinks (s : State) (ip dp : Nat) : State × Int :=
  let (s, r) := dirlink s ip "." ip
  if r < 0 then (s, r) else dirlink s ip ".." dp

/-- `create` once `ip` is allocated with its one link: a directory's `.` and
`..`, the entry `name` in `dp`, and for a directory `dp`'s link from `..`. -/
def linkNew (s : State) (dp : Nat) (name : String) (ip type : Nat) : State × Option Nat :=
  let (s, r) := if type = T_DIR then dotLinks s ip dp else (s, 0)
  if r < 0 then createFail s dp ip else
  let (s, r) := dirlink s dp name ip
  if r < 0 then createFail s dp ip else
  -- now that success is guaranteed
  let s := if type = T_DIR then s.setNlink dp ((s.inode dp).nlink + 1) else s
  (iput s dp, some ip)

/-- `create`: the inode `path` names, with a reference, made if it is not
there; an existing file is returned only when a file is asked for. -/
def create (s : State) (path : String) (type : Nat) (major : Int) : State × Option Nat :=
  match nameiparent s path with
  | (s, none) => (s, none)
  | (s, some (dp, name)) =>
    match dirlookup s dp name with
    | (s, some (_, ip)) =>
      let s := iput s dp
      if type = T_FILE ∧ ((s.inode ip).type = T_FILE ∨ (s.inode ip).type = T_DEVICE) then
        (s, some ip)
      else (iput s ip, none)
    | (s, none) =>
      match ialloc s type with
      | (s, none) => (iput s dp, none)
      | (s, some ip) => linkNew (s.setInode ip { s.inode ip with major, nlink := 1 }) dp name ip type

/-- `create`'s last steps for an inode that is not a directory, in a parent
that lacks the name: the entry is written and the parent's reference goes. -/
theorem linkNew_of_absent {s : State} {dp ip type : Nat} {name : String} (hfile : type ≠ T_DIR)
    (habsent : findEntry name (s.inode dp).dirents = none) :
    linkNew s dp name ip type =
      (iput (s.setDirents dp (place ⟨ip.toUInt16, name⟩ (s.inode dp).dirents)) dp, some ip) := by
  simp only [linkNew, if_neg hfile, Int.lt_irrefl, if_false, dirlink_of_absent habsent]

/-- **`create` of a new inode that is not a directory.** When the parent has
no entry of the name and `ialloc` gives `ip`, `create` returns `ip`, now of
the type with one link. Besides `ip` only the parent changes: it gains the
entry, or the last `iput` frees it. -/
theorem create_of_absent (major : Int) {s s₁ s₂ : State} {path name : String} {type dp ip : Nat}
    (hparent : nameiparent s path = (s₁, some (dp, name))) (hdir : (s₁.inode dp).type = T_DIR)
    (habsent : findEntry name (s₁.inode dp).dirents = none)
    (halloc : ialloc s₁ type = (s₂, some ip)) (hfile : type ≠ T_DIR) :
    ∃ s', create s path type major = (s', some ip) ∧ s'.ninodes = s₁.ninodes ∧
      s'.inode ip = { Inode.free with type, major, nlink := 1 } ∧
      (s'.inode dp = { s₁.inode dp with dirents := place ⟨ip.toUInt16, name⟩ (s₁.inode dp).dirents } ∨
        s'.inode dp = .free) ∧
      ∀ d, d ≠ ip → d ≠ dp → s'.inode d = s₁.inode d := by
  obtain ⟨-, -, hfree, rfl⟩ := ialloc_some halloc
  -- the new inode was free, the parent is a directory
  have hne : ip ≠ dp := fun h => by rw [h, hdir] at hfree; cases hfree
  simp only [create, hparent, dirlookup_of_absent habsent, halloc]
  rw [linkNew_of_absent hfile (by simpa only [State.setInode_inode_of_ne _ hne.symm, iget_inode])]
  refine ⟨_, rfl, ?_, ?_, ?_, ?_⟩
  · simp only [iput_ninodes, State.setDirents, State.setInode_ninodes, iget_ninodes]
  · simp only [iput_inode_of_ne hne, State.setDirents, State.setInode_inode_of_ne _ hne, iget_inode,
      State.setInode_inode_self]
  · -- the parent keeps its slots unless this was its last reference
    refine (iput_inode_eq_or_free _ dp dp).imp (fun h => ?_) id
    rw [h]
    simp only [State.setDirents, State.setInode_inode_self, State.setInode_inode_of_ne _ hne.symm,
      iget_inode]
  · intro d hdip hddp
    simp only [iput_inode_of_ne hddp, State.setDirents, State.setInode_inode_of_ne _ hddp,
      State.setInode_inode_of_ne _ hdip, iget_inode]

/-! ## The calls -/

/-- `sys_link`'s `bad` path: the link taken early is given back. -/
def linkBad (s : State) (ip : Nat) : State × Int :=
  (iput (s.setNlink ip ((s.inode ip).nlink - 1)) ip, -1)

/-- `sys_link`: a new entry `new` for the inode `old` names, which is not a
directory. The link is counted before the entry is made. -/
def sysLink (s : State) (old new : String) : State × Int :=
  match namei s old with
  | (s, none) => (s, -1)
  | (s, some ip) =>
    if (s.inode ip).type = T_DIR then (iput s ip, -1) else
    let s := s.setNlink ip ((s.inode ip).nlink + 1)
    match nameiparent s new with
    | (s, none) => linkBad s ip
    | (s, some (dp, name)) =>
      -- one device, so dp->dev == ip->dev
      let (s, r) := dirlink s dp name ip
      if r < 0 then linkBad (iput s dp) ip else (iput (iput s dp) ip, 0)

/-- `sys_unlink`: the entry is cleared and the inode loses a link; a
directory must be empty, and its parent loses the link of its `..`. -/
def sysUnlink (s : State) (path : String) : Except String (State × Int) :=
  match nameiparent s path with
  | (s, none) => .ok (s, -1)
  | (s, some (dp, name)) =>
    -- cannot unlink "." or ".."
    if name = "." ∨ name = ".." then .ok (iput s dp, -1) else
    match dirlookup s dp name with
    | (s, none) => .ok (iput s dp, -1)
    | (s, some (off, ip)) =>
      if (s.inode ip).nlink < 1 then .error "unlink: nlink < 1" else
      if (s.inode ip).type = T_DIR ∧ isdirempty (s.inode ip) = false then
        .ok (iput (iput s ip) dp, -1)
      else
        let s := s.setDirents dp ((s.inode dp).dirents.set off ⟨0, ""⟩)
        let s := if (s.inode ip).type = T_DIR then s.setNlink dp ((s.inode dp).nlink - 1) else s
        let s := iput s dp
        .ok (iput (s.setNlink ip ((s.inode ip).nlink - 1)) ip, 0)

/-- `fdalloc`: the process's lowest free descriptor. -/
def fdalloc (s : State) : Option Nat := (List.range NOFILE).find? fun fd => s.ofile fd = none

/-- `sys_open`: with `O_CREATE` the inode `create` gives, else the one the
path names (a directory only for reading); kept by a new descriptor. -/
def sysOpen (s : State) (path : String) (omode : Nat) : State × Int :=
  let opened : State × Option Nat :=
    if omode &&& O_CREATE ≠ 0 then create s path T_FILE 0
    else match namei s path with
      | (s, none) => (s, none)
      | (s, some ip) =>
        if (s.inode ip).type = T_DIR ∧ omode ≠ O_RDONLY then (iput s ip, none) else (s, some ip)
  match opened with
  | (s, none) => (s, -1)
  | (s, some ip) =>
    if (s.inode ip).type = T_DEVICE ∧ ((s.inode ip).major < 0 ∨ NDEV ≤ (s.inode ip).major) then
      (iput s ip, -1)
    else match fdalloc s with
      | none => (iput s ip, -1)
      | some fd => ({ s with ofile := Function.update s.ofile fd (some ip) }, fd)

/-- `sys_open` with `O_CREATE` leaves the inodes as `create` does, when that
gives a file with a link: the descriptor, or the `iput` when none is free,
changes no inode. -/
theorem sysOpen_of_create {s s' : State} {path : String} {ip : Nat}
    (h : create s path T_FILE 0 = (s', some ip)) (hfile : (s'.inode ip).type = T_FILE)
    (hlinked : 0 < (s'.inode ip).nlink) :
    (sysOpen s path O_CREATE).1.inode = s'.inode ∧
      (sysOpen s path O_CREATE).1.ninodes = s'.ninodes := by
  have hcreate : O_CREATE &&& O_CREATE ≠ 0 := by decide
  have hdev : ¬ T_FILE = T_DEVICE := by decide
  simp only [sysOpen, if_pos hcreate, h, hfile, hdev, false_and, if_false]
  split
  · exact ⟨iput_inode_of_linked hlinked, iput_ninodes ..⟩
  · exact ⟨rfl, rfl⟩

/-- `sys_mkdir`. -/
def sysMkdir (s : State) (path : String) : State × Int :=
  match create s path T_DIR 0 with
  | (s, none) => (s, -1)
  | (s, some ip) => (iput s ip, 0)

/-- `sys_mknod`. -/
def sysMknod (s : State) (path : String) (major : Int) : State × Int :=
  match create s path T_DEVICE major with
  | (s, none) => (s, -1)
  | (s, some ip) => (iput s ip, 0)

/-- `sys_chdir`: the new `cwd` keeps the reference `namei` took; the old
one's goes. -/
def sysChdir (s : State) (path : String) : State × Int :=
  match namei s path with
  | (s, none) => (s, -1)
  | (s, some ip) =>
    if (s.inode ip).type ≠ T_DIR then (iput s ip, -1)
    else ({ iput s s.cwd with cwd := ip }, 0)

/-- `fileclose` of the file at `fd`, with the descriptor cleared. -/
def closeFd (s : State) (fd : Nat) : State :=
  match s.ofile fd with
  | some ip => iput { s with ofile := Function.update s.ofile fd none } ip
  | none => s

/-- `sys_close`. -/
def sysClose (s : State) (fd : Nat) : State × Int :=
  if fd < NOFILE ∧ (s.ofile fd).isSome then (closeFd s fd, 0) else (s, -1)

/-- `exit`'s part in the file system: every open file is closed, then the
reference `cwd` holds is dropped. -/
def exit (s : State) : State :=
  let s := (List.range NOFILE).foldl closeFd s
  { iput s s.cwd with cwd := 0 }

/-- The calls of the model. -/
inductive Syscall
  | open (path : String) (omode : Nat)
  | close (fd : Nat)
  | link (old new : String)
  | unlink (path : String)
  | mkdir (path : String)
  | mknod (path : String) (major : Int)
  | chdir (path : String)
  | exit

/-- One completed call, or the panic it stops at. -/
def syscall (s : State) : Syscall → Except String (State × Int)
  | .open path omode => .ok (sysOpen s path omode)
  | .close fd => .ok (sysClose s fd)
  | .link old new => .ok (sysLink s old new)
  | .unlink path => sysUnlink s path
  | .mkdir path => .ok (sysMkdir s path)
  | .mknod path major => .ok (sysMknod s path major)
  | .chdir path => .ok (sysChdir s path)
  | .exit => .ok (exit s, 0)

/-- A run of calls, each from the state the last one left. -/
def run (s : State) : List Syscall → Except String State
  | [] => .ok s
  | c :: cs =>
    match syscall s c with
    | .ok (s, _) => run s cs
    | .error e => .error e

end Fs

end Mkros
