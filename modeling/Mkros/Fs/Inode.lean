import Mathlib.Logic.Function.Basic
/-!
# Inodes, directories and path names — the model

`fs.c` at the grain of directory entries. An inode is its type (`0` for a
free one), its link count and, for a directory, its `struct dirent` slots in
order; the blocks that hold them are left out. `itable` writes through to the
disk (`iupdate` follows every change of a field that lives on disk), so
between system calls one map serves for both, next to the in-memory
reference counts. One process makes the calls; its `cwd` and its open files
hold references.

`iput` frees an inode when its last reference goes while it has no links;
`dirlookup` takes a reference to what it finds, and `namex` walks a path from
the root or from `cwd`, swapping the reference it holds for the next one.
-/

namespace Mkros

namespace Fs

/-- `T_DIR`. -/
def T_DIR : Nat := 1

/-- `T_FILE`. -/
def T_FILE : Nat := 2

/-- `T_DEVICE`. -/
def T_DEVICE : Nat := 3

/-- `ROOTINO`. -/
def ROOTINO : Nat := 1

/-- `DIRSIZ`. -/
def DIRSIZ : Nat := 14

/-- `NOFILE`. -/
def NOFILE : Nat := 16

/-- `struct dirent`, its `inum` a `ushort`; a slot with `inum = 0` is empty. -/
structure Dirent where
  inum : UInt16
  name : String
  deriving DecidableEq, Repr

/-- What the model keeps of an inode: `type` (`0` for a free inode), `major`,
`nlink`, and a directory's entries in slot order. -/
structure Inode where
  type : Nat
  major : Int
  nlink : Nat
  dirents : List Dirent
  deriving DecidableEq, Repr

/-- A free inode, as `itrunc` and `ip->type = 0` leave it and `ialloc` finds
it. -/
def Inode.free : Inode := ⟨0, 0, 0, []⟩

/-- The file system between system calls: the superblock's `ninodes`, the
inodes, the references `itable` counts, and the calling process's `cwd` and
`ofile` (an open file's inode; no file is shared, so closing one drops its
reference). -/
structure State where
  ninodes : Nat
  inode : Nat → Inode
  ref : Nat → Nat
  cwd : Nat
  ofile : Nat → Option Nat

namespace State

/-- Write an inode back (`iupdate`). -/
def setInode (s : State) (inum : Nat) (ip : Inode) : State :=
  { s with inode := Function.update s.inode inum ip }

/-- `ip->nlink = n; iupdate(ip)`. -/
def setNlink (s : State) (inum n : Nat) : State :=
  s.setInode inum { s.inode inum with nlink := n }

/-- A directory's slots rewritten by `writei`. -/
def setDirents (s : State) (dp : Nat) (des : List Dirent) : State :=
  s.setInode dp { s.inode dp with dirents := des }

@[simp] theorem setInode_inode_self (s : State) (inum : Nat) (ip : Inode) :
    (s.setInode inum ip).inode inum = ip := Function.update_self ..

@[simp] theorem setInode_inode_of_ne {s : State} {inum i : Nat} (ip : Inode) (h : i ≠ inum) :
    (s.setInode inum ip).inode i = s.inode i := Function.update_of_ne h ..

@[simp] theorem setInode_ref (s : State) (inum : Nat) (ip : Inode) :
    (s.setInode inum ip).ref = s.ref := rfl

@[simp] theorem setInode_cwd (s : State) (inum : Nat) (ip : Inode) :
    (s.setInode inum ip).cwd = s.cwd := rfl

@[simp] theorem setInode_ninodes (s : State) (inum : Nat) (ip : Inode) :
    (s.setInode inum ip).ninodes = s.ninodes := rfl

end State

/-! ## The inode table -/

/-- `iget`, and `idup`: one more reference. -/
def iget (s : State) (inum : Nat) : State :=
  { s with ref := Function.update s.ref inum (s.ref inum + 1) }

/-- `iput`: drop a reference. The last one, on an inode with no links,
truncates and frees the inode first. -/
def iput (s : State) (inum : Nat) : State :=
  let s := if s.ref inum = 1 ∧ (s.inode inum).nlink = 0 then s.setInode inum .free else s
  { s with ref := Function.update s.ref inum (s.ref inum - 1) }

/-- `ialloc`: the first free inode from `1` below `ninodes`, cleared, given
its type and a reference; `none` when every one is in use. -/
def ialloc (s : State) (type : Nat) : State × Option Nat :=
  match (List.range' 1 (s.ninodes - 1)).find? fun inum => (s.inode inum).type = 0 with
  | none => (s, none)
  | some inum => (iget (s.setInode inum { Inode.free with type }) inum, some inum)

@[simp] theorem iget_inode (s : State) (inum : Nat) : (iget s inum).inode = s.inode := rfl

@[simp] theorem iget_cwd (s : State) (inum : Nat) : (iget s inum).cwd = s.cwd := rfl

@[simp] theorem iget_ninodes (s : State) (inum : Nat) : (iget s inum).ninodes = s.ninodes := rfl

@[simp] theorem iput_cwd (s : State) (inum : Nat) : (iput s inum).cwd = s.cwd := by
  simp only [iput]
  split <;> rfl

@[simp] theorem iput_ninodes (s : State) (inum : Nat) : (iput s inum).ninodes = s.ninodes := by
  simp only [iput]
  split <;> rfl

/-- An `iput` that does not free leaves every inode as it was. -/
theorem iput_inode_of_linked {s : State} {inum : Nat} (h : 0 < (s.inode inum).nlink) :
    (iput s inum).inode = s.inode := by
  simp only [iput, if_neg (fun hfree : _ ∧ _ => Nat.ne_of_gt h hfree.2)]

/-- An `iput` changes no inode but its own. -/
theorem iput_inode_of_ne {s : State} {inum d : Nat} (h : d ≠ inum) :
    (iput s inum).inode d = s.inode d := by
  simp only [iput]
  split
  · exact State.setInode_inode_of_ne _ h
  · rfl

/-- After an `iput` every inode is as it was, or free. -/
theorem iput_inode_eq_or_free (s : State) (inum d : Nat) :
    (iput s inum).inode d = s.inode d ∨ (iput s inum).inode d = .free := by
  simp only [iput]
  split
  · by_cases hd : d = inum
    · subst hd
      exact .inr (State.setInode_inode_self ..)
    · exact .inl (State.setInode_inode_of_ne _ hd)
  · exact .inl rfl

/-- What `ialloc` hands out: a free inode from `1` below `ninodes`, now of
the type asked for, with the caller's reference. -/
theorem ialloc_some {s s' : State} {type inum : Nat} (h : ialloc s type = (s', some inum)) :
    0 < inum ∧ inum < s.ninodes ∧ (s.inode inum).type = 0 ∧
      s' = iget (s.setInode inum { Inode.free with type }) inum := by
  simp only [ialloc] at h
  split at h
  · cases h
  · rename_i i hfind
    cases h
    have hmem := List.mem_range'_1.mp (List.mem_of_find?_eq_some hfind)
    have htype := List.find?_some hfind
    exact ⟨by omega, by omega, by simpa using htype, rfl⟩

/-- `ialloc` finds an inode whenever one is free. -/
theorem ialloc_of_free {s : State} {type inum : Nat} (hpos : 0 < inum) (hlt : inum < s.ninodes)
    (hfree : (s.inode inum).type = 0) : ∃ s' i, ialloc s type = (s', some i) := by
  simp only [ialloc]
  split
  · rename_i hfind
    have hno := List.find?_eq_none.mp hfind inum (List.mem_range'_1.mpr ⟨hpos, by omega⟩)
    simp only [hfree, decide_true, not_true_eq_false] at hno
  · exact ⟨_, _, rfl⟩

/-! ## Directories -/

/-- The slot and inode number of a directory's first in-use entry called
`name`, as `dirlookup`'s loop finds it. -/
def findEntry (name : String) : List Dirent → Option (Nat × Nat)
  | [] => none
  | de :: des =>
    if de.inum ≠ 0 ∧ de.name = name then some (0, de.inum.toNat)
    else (findEntry name des).map fun (off, inum) => (off + 1, inum)

/-- `dirlookup`: the entry's slot and inode, with a reference to the inode. -/
def dirlookup (s : State) (dp : Nat) (name : String) : State × Option (Nat × Nat) :=
  match findEntry name (s.inode dp).dirents with
  | none => (s, none)
  | some (off, inum) => (iget s inum, some (off, inum))

/-- The slots after `dirlink` writes `de`: into the first empty slot, or past
the last. -/
def place (de : Dirent) : List Dirent → List Dirent
  | [] => [de]
  | d :: ds => if d.inum = 0 then de :: ds else d :: place de ds

/-- `dirlink`: `-1` if `name` is present, else the entry is written, its
`uint` inode number stored in the `ushort` `de.inum`. -/
def dirlink (s : State) (dp : Nat) (name : String) (inum : Nat) : State × Int :=
  match dirlookup s dp name with
  | (s, some (_, ip)) => (iput s ip, -1)
  | (s, none) => (s.setDirents dp (place ⟨inum.toUInt16, name⟩ (s.inode dp).dirents), 0)

theorem dirlookup_of_absent {s : State} {dp : Nat} {name : String}
    (h : findEntry name (s.inode dp).dirents = none) : dirlookup s dp name = (s, none) := by
  simp only [dirlookup, h]

/-- `dirlink` of a name the directory lacks writes the entry. -/
theorem dirlink_of_absent {s : State} {dp inum : Nat} {name : String}
    (h : findEntry name (s.inode dp).dirents = none) :
    dirlink s dp name inum = (s.setDirents dp (place ⟨inum.toUInt16, name⟩ (s.inode dp).dirents), 0) := by
  simp only [dirlink, dirlookup_of_absent h]

/-! ## Names, byte by byte

The model compares names as strings. `dirlookup` compares them with
`namecmp`, `strncmp` bounded by `DIRSIZ`, against the `DIRSIZ` bytes
`dirlink` stored with `strncpy`, which leaves no NUL after a name of
`DIRSIZ` bytes. -/

/-- `strncmp(p, q, n)`, over the bytes from `p` and from `q`. -/
def strncmp : List UInt8 → List UInt8 → Nat → Int
  | _, _, 0 => 0
  | p, q, n + 1 =>
    let a := p.headD 0
    let b := q.headD 0
    if a ≠ 0 ∧ a = b then strncmp p.tail q.tail n else (a.toNat : Int) - b.toNat

/-- The `n` bytes `strncpy(s, t, n)` writes from `s`: `t` up to its NUL,
then NULs. -/
def strncpy (t : List UInt8) : Nat → List UInt8
  | 0 => []
  | n + 1 =>
    let c := t.headD 0
    c :: if c = 0 then List.replicate n 0 else strncpy t.tail n

/-- `namecmp`. -/
def namecmp (s t : List UInt8) : Int := strncmp s t DIRSIZ

/-- A name's bytes, without the NUL. -/
def nameBytes (name : String) : List UInt8 := name.toUTF8.data.toList

/-- `isdirempty`: every slot after "." and ".." is empty. -/
def isdirempty (dp : Inode) : Bool := (dp.dirents.drop 2).all fun de => de.inum = 0

/-! ## Path names -/

/-- The path's elements, as `skipelem` hands them to `namex` one after
another: the runs between slashes, each cut to `DIRSIZ`. -/
def elems (path : String) : List String :=
  ((path.toList.splitOn '/').filter (· ≠ [])).map fun e => String.ofList (e.take DIRSIZ)

/-- `namex`'s loop, holding a reference to `ip`: each element but (for
`nameiparent`) the last is looked up in a directory, whose reference is
dropped once the next inode's is taken. -/
def walk (nameiparent : Bool) (s : State) (ip : Nat) : List String → State × Option (Nat × String)
  | [] => if nameiparent then (iput s ip, none) else (s, some (ip, ""))
  | name :: path =>
    if (s.inode ip).type ≠ T_DIR then (iput s ip, none)
    -- stop one level early
    else if nameiparent ∧ path = [] then (s, some (ip, name))
    else match dirlookup s ip name with
      | (s, none) => (iput s ip, none)
      | (s, some (_, next)) => walk nameiparent (iput s ip) next path

/-- `namex`: from the root for an absolute path, else from `cwd`. -/
def namex (s : State) (path : String) (nameiparent : Bool) : State × Option (Nat × String) :=
  if path.toList.head? = some '/' then walk nameiparent (iget s ROOTINO) ROOTINO (elems path)
  else walk nameiparent (iget s s.cwd) s.cwd (elems path)

/-- `namei`. -/
def namei (s : State) (path : String) : State × Option Nat :=
  let (s, r) := namex s path false
  (s, r.map Prod.fst)

/-- `nameiparent`: the directory and the last element's name. -/
def nameiparent (s : State) (path : String) : State × Option (Nat × String) :=
  namex s path true

/-- A name relative to a directory `cwd` stops at `cwd` at once, holding the
reference `idup` took. -/
theorem nameiparent_of_single {s : State} {path name : String}
    (hrel : path.toList.head? ≠ some '/') (helems : elems path = [name])
    (hdir : (s.inode s.cwd).type = T_DIR) :
    nameiparent s path = (iget s s.cwd, some (s.cwd, name)) := by
  simp only [nameiparent, namex, if_neg hrel, helems, walk, iget_inode, hdir, ne_eq,
    not_true_eq_false, if_false, and_self, if_true]

end Fs

end Mkros
