import Mkros.Fs.BlockMap
import Mkros.Fs.Log
import Mkros.Fs.Ftable
/-!
# Reading and writing a file through its descriptor

`filewrite` on an inode writes in transactions of at most
`((MAXOPBLOCKS-1-1-2) / 2) * BSIZE` bytes, one `writei` each, and stops at
the first that comes up short; `fileread` is one `readi`. Both move
`f->off` by the bytes they moved, and both pass a user address, so `writei`
copies with `copyin` and `readi` with `copyout`, and either may fail. As for
pipes, `buf i` is the byte `copyin` reads at `addr + i` (`none` where its
page is not mapped) and `dst i` whether `copyout` to `addr + i` succeeds.

A `copyin` that fails has copied the bytes before the page that is not
mapped into the cached block, which `writei` then neither logs nor counts:
it stops, and returns what the passes before counted. A `copyout` that fails
makes `readi` return `-1`.

So a write of `n` bytes from an offset within a well-formed file counts
`k ≤ n` bytes and puts `w ≥ k` of them in the file's blocks, all before the
first byte of `buf` that is not mapped: the file stays well formed, its size
is the larger of the old size and `off + k`, and within it the bytes at
`[off, off + w)` are the user's. `f->off` moves by `k`, and `filewrite`
returns `n` exactly when `k = n`, `-1` otherwise
(`filewrite_writes_in_chunks`). A `fileread` from where a write of `n` bytes
that returned `n` began copies the bytes written up to the first byte of
`dst` not mapped, and returns `n` where there is none, `-1` otherwise
(`filewrite_then_fileread`).
-/

namespace Mkros

namespace Fs

open Ftable

/-! ## `writei` and `readi` on a user address -/

/-- The bytes `copyin` moves from the user's bytes `src`: those before the
first whose page is not mapped. -/
def copyinBytes : List (Option UInt8) → List UInt8
  | [] => []
  | none :: _ => []
  | some b :: src => b :: copyinBytes src

/-- How many of the `m` bytes to `addr + d` on `copyout` moves: those before
the first whose page is not mapped. -/
def copyoutCount (dst : Nat → Bool) (d : Nat) : Nat → Nat
  | 0 => 0
  | m + 1 => if dst d then copyoutCount dst (d + 1) m + 1 else 0

/-- The loop of `writei(ip, 1, src, off, n)`: a pass of `writeLoop` that
copies with `copyin`. Where that fails, what it copied stays in the block,
which is not logged, and the loop stops without counting it. -/
def writeLoopUser : Nat → FileInode → BlockDev → Nat → List (Option UInt8) →
    Except String (FileInode × BlockDev × Nat × Nat)
  | 0, ip, dev, off, _ => .ok (ip, dev, off, 0)
  | fuel + 1, ip, dev, off, src =>
    if src = [] then .ok (ip, dev, off, 0)
    else do
      let (ip, dev, addr) ← bmap ip dev (off / BSIZE)
      if addr = 0 then .ok (ip, dev, off, 0)
      else
        let m := min src.length (BSIZE - off % BSIZE)
        let got := copyinBytes (src.take m)
        let dev := { dev with data := Function.update dev.data addr (writeBytes (dev.data addr) (off % BSIZE) got) }
        -- `either_copyin` returned `-1`: `brelse(bp); break;`
        if got.length < m then .ok (ip, dev, off, 0)
        else
          let (ip, dev, off, tot) ← writeLoopUser fuel ip dev (off + m) (src.drop m)
          .ok (ip, dev, off, m + tot)

/-- `writei(ip, 1, src, off, n)` of the user's `n` bytes `src`: the inode as
`iupdate` writes it back, and what it returns. -/
def writeiUser (ip : FileInode) (dev : BlockDev) (off : Nat) (src : List (Option UInt8)) :
    Except String (FileInode × BlockDev × Int) :=
  if off > ip.size ∨ (off + src.length) % 2 ^ 32 < off then .ok (ip, dev, -1)
  else if (off + src.length) % 2 ^ 32 > MAXFILE * BSIZE then .ok (ip, dev, -1)
  else do
    let (ip, dev, off, tot) ← writeLoopUser src.length ip dev off src
    let ip := if off > ip.size then { ip with size := off } else ip
    .ok (ip, dev, tot)

/-- The loop of `readi(ip, 1, dst, off, n)` from `off`, the user's byte `d`
next, with `left` bytes to go: the bytes copied out, and whether every
`copyout` succeeded. -/
def readLoopUser (dst : Nat → Bool) : Nat → FileInode → BlockDev → Nat → Nat → Nat →
    Except String (FileInode × BlockDev × List UInt8 × Bool)
  | 0, ip, dev, _, _, _ => .ok (ip, dev, [], true)
  | fuel + 1, ip, dev, off, d, left =>
    if left = 0 then .ok (ip, dev, [], true)
    else do
      let (ip, dev, addr) ← bmap ip dev (off / BSIZE)
      if addr = 0 then .ok (ip, dev, [], true)
      else
        let m := min left (BSIZE - off % BSIZE)
        let bytes := (List.range m).map fun j => dev.data addr (off % BSIZE + j)
        let c := copyoutCount dst d m
        -- `either_copyout` returned `-1`: `tot = -1; break;`
        if c < m then .ok (ip, dev, bytes.take c, false)
        else
          let (ip, dev, rest, whole) ← readLoopUser dst fuel ip dev (off + m) (d + m) (left - m)
          .ok (ip, dev, bytes ++ rest, whole)

/-- `readi(ip, 1, dst, off, n)`: the bytes copied to the user, and what it
returns. -/
def readiUser (ip : FileInode) (dev : BlockDev) (dst : Nat → Bool) (off n : Nat) :
    Except String (FileInode × BlockDev × List UInt8 × Int) :=
  if off > ip.size ∨ (off + n) % 2 ^ 32 < off then .ok (ip, dev, [], 0)
  else
    let n := if (off + n) % 2 ^ 32 > ip.size then ip.size - off else n
    do
      let (ip, dev, bytes, whole) ← readLoopUser dst n ip dev off 0 n
      .ok (ip, dev, bytes, if whole then (bytes.length : Int) else -1)

/-! ## Through the descriptor -/

/-- `((MAXOPBLOCKS-1-1-2) / 2) * BSIZE`, `filewrite`'s `max`: the bytes of
one transaction. -/
def filewriteMax : Nat := ((MAXOPBLOCKS - 1 - 1 - 2) / 2) * BSIZE

/-- The `n` bytes of the user's buffer from `i` on. -/
def userBytes (buf : Nat → Option UInt8) (i n : Nat) : List (Option UInt8) :=
  (List.range n).map fun j => buf (i + j)

/-- The loop of `filewrite` on an inode, `i` bytes of `n` written and
`f->off` at `off`: a chunk of at most `filewriteMax` bytes is one `writei`,
`f->off` moves by what it wrote, and the loop stops where it comes up short.
It ends with the inode, the disk, `f->off` and `i`. -/
def writeChunks (buf : Nat → Option UInt8) (n : Nat) (ip : FileInode) (dev : BlockDev) (off i : Nat) :
    Except String (FileInode × BlockDev × Nat × Nat) :=
  if _h : i < n then do
    let n1 := min (n - i) filewriteMax
    let (ip, dev, r) ← writeiUser ip dev off (userBytes buf i n1)
    let off := if r > 0 then off + r.toNat else off
    if r ≠ n1 then .ok (ip, dev, off, i)
    else writeChunks buf n ip dev off (i + n1)
  else .ok (ip, dev, off, i)
termination_by n - i
decreasing_by
  have hmax : 0 < filewriteMax := by decide
  omega

/-- `filewrite(f, addr, n)` on a file of type `FD_INODE`, the user's bytes at
`addr` being `buf`: the file with `f->off` moved, the inode, the disk, and
what it returns. -/
def filewrite (f : File) (ip : FileInode) (dev : BlockDev) (buf : Nat → Option UInt8) (n : Int) :
    Except String (File × FileInode × BlockDev × Int) :=
  if f.writable = false then .ok (f, ip, dev, -1)
  else do
    let (ip, dev, off, i) ← writeChunks buf n.toNat ip dev f.off 0
    .ok ({ f with off := off }, ip, dev, if (i : Int) = n then n else -1)

/-- `fileread(f, addr, n)` on a file of type `FD_INODE`, `dst` telling where
`copyout` to `addr` succeeds: the file with `f->off` moved, the inode, the
disk, the bytes copied to `addr`, and what it returns. `n` reaches `readi`
as a `uint`. -/
def fileread (f : File) (ip : FileInode) (dev : BlockDev) (dst : Nat → Bool) (n : Int) :
    Except String (File × FileInode × BlockDev × List UInt8 × Int) :=
  if f.readable = false then .ok (f, ip, dev, [], -1)
  else do
    let (ip, dev, bytes, r) ← readiUser ip dev dst f.off (n % 2 ^ 32).toNat
    .ok ((if r > 0 then { f with off := f.off + r.toNat } else f), ip, dev, bytes, r)

/-! ## The user's bytes -/

@[simp] theorem length_userBytes (buf : Nat → Option UInt8) (i n : Nat) : (userBytes buf i n).length = n := by
  simp [userBytes]

theorem userBytes_add (buf : Nat → Option UInt8) (i a b : Nat) :
    userBytes buf i (a + b) = userBytes buf i a ++ userBytes buf (i + a) b := by
  simp only [userBytes, List.range_add, List.map_append, List.map_map]
  congr 1
  apply List.map_congr_left
  intro j _
  simp only [Function.comp_apply, Nat.add_assoc]

theorem length_copyinBytes_le : ∀ src : List (Option UInt8), (copyinBytes src).length ≤ src.length
  | [] => le_rfl
  | none :: _ => Nat.zero_le _
  | some _ :: src => Nat.succ_le_succ (length_copyinBytes_le src)

/-- What `copyin` moves from the front of the bytes is the front of what it
moves from all of them. -/
theorem copyinBytes_isPrefix : ∀ (src₁ src₂ : List (Option UInt8)), copyinBytes src₁ <+: copyinBytes (src₁ ++ src₂)
  | [], _ => List.nil_prefix
  | none :: _, _ => List.nil_prefix
  | some _ :: src₁, src₂ => List.cons_prefix_cons.mpr ⟨rfl, copyinBytes_isPrefix src₁ src₂⟩

/-- Where `copyin` moved all of the front bytes, it goes on into the rest. -/
theorem copyinBytes_append_of_full :
    ∀ {src₁ : List (Option UInt8)} (src₂ : List (Option UInt8)), (copyinBytes src₁).length = src₁.length →
      copyinBytes (src₁ ++ src₂) = copyinBytes src₁ ++ copyinBytes src₂
  | [], _, _ => rfl
  | none :: src₁, _, h => by simp [copyinBytes] at h
  | some b :: src₁, src₂, h => by
    simp only [copyinBytes, List.length_cons, Nat.add_right_cancel_iff] at h
    simp only [List.cons_append, copyinBytes, copyinBytes_append_of_full src₂ h]

theorem copyoutCount_le (dst : Nat → Bool) : ∀ (d m : Nat), copyoutCount dst d m ≤ m
  | _, 0 => le_rfl
  | d, m + 1 => by
    unfold copyoutCount
    split
    · exact Nat.succ_le_succ (copyoutCount_le dst (d + 1) m)
    · exact Nat.zero_le _

/-- `copyout` of `a + b` bytes: the first `a`, then, where they all went, the
rest. -/
theorem copyoutCount_add (dst : Nat → Bool) : ∀ (d a b : Nat),
    copyoutCount dst d (a + b) =
      if copyoutCount dst d a = a then a + copyoutCount dst (d + a) b else copyoutCount dst d a
  | d, 0, b => by simp [copyoutCount]
  | d, a + 1, b => by
    rw [Nat.add_right_comm, copyoutCount, copyoutCount]
    by_cases hd : dst d
    · rw [if_pos hd, if_pos hd, copyoutCount_add dst (d + 1) a b, Nat.add_right_comm d 1 a, Nat.add_assoc d]
      by_cases hall : copyoutCount dst (d + 1) a = a
      · rw [if_pos hall, if_pos (by rw [hall])]
        omega
      · rw [if_neg hall, if_neg (by omega)]
    · rw [if_neg hd, if_neg hd, if_neg (by omega)]

/-- The first `c` of a run of values, read back by index. -/
theorem map_range_getD {l : List UInt8} {c : Nat} (h : c ≤ l.length) :
    ((List.range c).map fun j => l.getD j 0) = l.take c := by
  apply List.ext_getElem (by simp; omega)
  intro j h₁ h₂
  simp only [List.length_map, List.length_range] at h₁
  have hj : j < l.length := by omega
  simp [hj]

/-! ## The user-address loops -/

section Loops

/-- **The loop of `writei` on a user address returns**, within `MAXFILE`
blocks: it ends `tot` bytes on and allocates only into the file; it has put
the first `w ≥ tot` bytes `copyin` moved in the file's blocks. -/
theorem writeLoopUser_spec : ∀ (fuel : Nat) {ip : FileInode} {dev : BlockDev} {off : Nat}
    {src : List (Option UInt8)}, Sound ip dev → off + src.length ≤ MAXFILE * BSIZE →
    ∃ ip' dev' tot w, writeLoopUser fuel ip dev off src = .ok (ip', dev', off + tot, tot) ∧ tot ≤ w ∧
      w ≤ (copyinBytes src).length ∧ Wrote ip dev off ((copyinBytes src).take w) ip' dev' ∧ Extends ip dev ip' dev'
  | 0, ip, dev, off, _, hs, hb =>
    ⟨ip, dev, 0, 0, rfl, le_rfl, Nat.zero_le _, hs.grows_self.wrote (by omega), hs.extends_self⟩
  | fuel + 1, ip, dev, off, src, hs, hb => by
    by_cases hsrc : src = []
    · exact ⟨ip, dev, 0, 0, by simp [writeLoopUser, hsrc], le_rfl, Nat.zero_le _, hs.grows_self.wrote (by omega),
        hs.extends_self⟩
    have hlen := List.length_pos_iff.mpr hsrc
    have hbn : off / BSIZE < MAXFILE := div_lt_maxfile (by omega)
    obtain ⟨ip₁, dev₁, addr, hbm, hg, haddr⟩ := bmap_spec hs hbn
    have he₁ := bmap_extends hs hbn hbm
    by_cases ha : addr = 0
    · -- the disk is full: the loop stops where it is
      exact ⟨ip₁, dev₁, 0, 0, by simp [writeLoopUser, hsrc, hbm, ha, bind, Except.bind], le_rfl, Nat.zero_le _,
        hg.wrote (by omega), he₁⟩
    -- a pass puts what `copyin` moves of the next `m` bytes in the block of `off`
    have hmod := Nat.mod_lt off (show 0 < BSIZE by decide)
    have hgot := length_copyinBytes_le (src.take (min src.length (BSIZE - off % BSIZE)))
    rw [List.length_take] at hgot
    have hind : addr ≠ ip₁.addrs NDIRECT := haddr ha ▸ hg.sound.ne_ind hbn (by rw [haddr ha]; exact ha)
    have hwb : Wrote ip₁ dev₁ off (copyinBytes (src.take (min src.length (BSIZE - off % BSIZE)))) ip₁ _ :=
      hg.sound.writeBlock hbn (haddr ha) ha (by omega)
    have he₂ : Extends ip₁ dev₁ ip₁ { dev₁ with data := (Function.update dev₁.data addr
        (writeBytes (dev₁.data addr) (off % BSIZE) (copyinBytes (src.take (min src.length (BSIZE - off % BSIZE)))))) } :=
      hg.sound.extends_of_same (fun _ _ => rfl) (blockOf_update_data hind) rfl (fun _ _ => rfl)
    have hsplit := copyinBytes_isPrefix (src.take (min src.length (BSIZE - off % BSIZE)))
      (src.drop (min src.length (BSIZE - off % BSIZE)))
    rw [List.take_append_drop] at hsplit
    by_cases hshort : (copyinBytes (src.take (min src.length (BSIZE - off % BSIZE)))).length <
        min src.length (BSIZE - off % BSIZE)
    · -- `copyin` failed: the bytes it moved stay in the block, uncounted
      refine ⟨ip₁, _, 0, (copyinBytes (src.take (min src.length (BSIZE - off % BSIZE)))).length, ?_, Nat.zero_le _,
        hsplit.length_le, ?_, he₁.trans he₂⟩
      · simp only [writeLoopUser, if_neg hsrc, hbm, bind, Except.bind, if_neg ha, if_pos hshort, Nat.add_zero]
      · rw [← List.prefix_iff_eq_take.mp hsplit]
        exact hg.trans_wrote hwb
    -- the whole pass: `copyin` moved all `m` bytes, and the loop goes on
    have hfull : (copyinBytes (src.take (min src.length (BSIZE - off % BSIZE)))).length =
        (src.take (min src.length (BSIZE - off % BSIZE))).length := by
      rw [List.length_take]
      omega
    have hb' : off + min src.length (BSIZE - off % BSIZE) +
        (src.drop (min src.length (BSIZE - off % BSIZE))).length ≤ MAXFILE * BSIZE := by
      rw [List.length_drop]
      omega
    obtain ⟨ip₂, dev₂, tot₂, w₂, hrec, htw, hw₂, hwr₂, he₃⟩ := writeLoopUser_spec fuel hwb.sound hb'
    have happ := copyinBytes_append_of_full (src.drop (min src.length (BSIZE - off % BSIZE))) hfull
    rw [List.take_append_drop] at happ
    rw [List.length_take] at hfull
    refine ⟨ip₂, dev₂, min src.length (BSIZE - off % BSIZE) + tot₂, min src.length (BSIZE - off % BSIZE) + w₂, ?_,
      by omega, ?_, ?_, he₁.trans (he₂.trans he₃)⟩
    · simp only [writeLoopUser, if_neg hsrc, hbm, bind, Except.bind, if_neg ha, if_neg hshort, hrec, Nat.add_assoc]
    · rw [happ, List.length_append]
      omega
    · rw [happ, List.take_append, List.take_of_length_le (by omega),
        show min src.length (BSIZE - off % BSIZE) + w₂ -
          (copyinBytes (src.take (min src.length (BSIZE - off % BSIZE)))).length = w₂ by omega]
      exact hg.trans_wrote (hwb.append hwr₂ (by omega))

variable {ip : FileInode} {dev : BlockDev} (dst : Nat → Bool)

/-- **The loop of `readi` on a user address**, over blocks the file has,
copies out the file's bytes up to the first byte of `dst` that is not
mapped, and allocates nothing; every `copyout` succeeded exactly where that
byte lies past the end. -/
theorem readLoopUser_spec (hs : Sound ip dev) : ∀ (fuel off d left : Nat), left ≤ fuel →
    off + left ≤ MAXFILE * BSIZE → (∀ p, off ≤ p → p < off + left → blockOf ip dev (p / BSIZE) ≠ 0) →
    readLoopUser dst fuel ip dev off d left = .ok (ip, dev,
      (List.range (copyoutCount dst d left)).map (fun j => byteAt ip dev (off + j)),
      decide (copyoutCount dst d left = left))
  | 0, off, d, left, hf, _, _ => by
    rw [Nat.le_zero.mp hf]
    rfl
  | fuel + 1, off, d, left, hf, hb, hfill => by
    by_cases hl : left = 0
    · subst hl
      simp [readLoopUser, copyoutCount]
    have hblk := hfill off (Nat.le_refl off) (by omega)
    have hmod := Nat.mod_lt off (show 0 < BSIZE by decide)
    -- the pass covers `m` bytes of the block of `off`, at least one
    have hm : 0 < min left (BSIZE - off % BSIZE) := by omega
    have hsplit : left = min left (BSIZE - off % BSIZE) + (left - min left (BSIZE - off % BSIZE)) := by omega
    simp only [readLoopUser, if_neg hl, bmap_of_present (div_lt_maxfile (by omega)) hblk, bind, Except.bind,
      if_neg hblk, blockBytes_eq hblk (show off % BSIZE + min left (BSIZE - off % BSIZE) ≤ BSIZE by omega)]
    have hc := copyoutCount_le dst d (min left (BSIZE - off % BSIZE))
    have hcount := copyoutCount_add dst d (min left (BSIZE - off % BSIZE)) (left - min left (BSIZE - off % BSIZE))
    rw [← hsplit] at hcount
    rw [hcount]
    by_cases hshort : copyoutCount dst d (min left (BSIZE - off % BSIZE)) < min left (BSIZE - off % BSIZE)
    · -- a `copyout` failed: the bytes before it went out, and `readi` gives `-1`
      have hne : copyoutCount dst d (min left (BSIZE - off % BSIZE)) ≠ min left (BSIZE - off % BSIZE) := by omega
      rw [if_pos hshort, if_neg hne, ← List.map_take, List.take_range, Nat.min_eq_left hc]
      simp only [Except.ok.injEq, Prod.mk.injEq, true_and]
      exact (decide_eq_false (by omega)).symm
    rw [if_neg hshort, if_pos (by omega)]
    rw [readLoopUser_spec hs fuel _ _ _ (by omega) (by omega) (fun p h₁ h₂ => hfill p (by omega) (by omega))]
    simp only [Except.ok.injEq, Prod.mk.injEq, true_and]
    refine ⟨?_, by simp only [decide_eq_decide]; omega⟩
    rw [List.range_add, List.map_append, List.map_map]
    congr 1
    apply List.map_congr_left
    intro j _
    simp only [Function.comp_apply, Nat.add_assoc]

/-- **`readi` on a user address within the file** copies out its bytes up
to the first byte of `dst` that is not mapped, and returns how many, or `-1`
where there is one. -/
theorem readiUser_spec (hwf : Wf ip dev) {o k : Nat} (h : o + k ≤ ip.size) :
    readiUser ip dev dst o k = .ok (ip, dev, (List.range (copyoutCount dst 0 k)).map (fun j => byteAt ip dev (o + j)),
      if copyoutCount dst 0 k = k then (k : Int) else -1) := by
  have hsize := hwf.size_le
  have hmod : (o + k) % 2 ^ 32 = o + k := Nat.mod_eq_of_lt (by have := maxfile_bytes_lt; omega)
  unfold readiUser
  rw [if_neg (by omega), hmod, if_neg (by omega)]
  dsimp only
  rw [readLoopUser_spec dst hwf.sound k o 0 k le_rfl (by omega) fun p _ hp => hwf.blockOf_ne_zero (by omega),
    Budget.ok_bind]
  by_cases hall : copyoutCount dst 0 k = k
  · simp [hall]
  · simp [hall]

end Loops

/-! ## Writes with the size written back -/

/-- **`bs` written at `off`, `k` of them counted, the size written back**:
what a `writei` leaves that put `bs` in the file's blocks and returned `k`.
The file is well formed, its size is the larger of the old size and
`off + k`, and within it the bytes at `[off, off + bs.length)` are `bs`, the
others as they were. -/
structure Written (ip : FileInode) (dev : BlockDev) (off : Nat) (bs : List UInt8) (k : Nat) (ip' : FileInode)
    (dev' : BlockDev) : Prop where
  wf : Wf ip' dev'
  le : k ≤ bs.length
  size : ip'.size = max ip.size (off + k)
  bytes : ∀ p, p < ip'.size →
    byteAt ip' dev' p = if off ≤ p ∧ p < off + bs.length then bs.getD (p - off) 0 else byteAt ip dev p

section Written

variable {ip ip₁ ip₂ : FileInode} {dev dev₁ dev₂ : BlockDev} {off : Nat}

theorem Written.nil (hwf : Wf ip dev) (hoff : off ≤ ip.size) : Written ip dev off [] 0 ip dev where
  wf := hwf
  le := le_rfl
  size := by omega
  bytes p _ := by rw [if_neg (by simp)]

/-- **Two writes, the second from where the first ended, write their bytes
in turn**, where the first counted all of its bytes. A byte the second does
not reach is below the first's end or was already in the file. -/
theorem Written.append {bs₁ bs₂ : List UInt8} {k₁ k₂ : Nat} (h₁ : Written ip dev off bs₁ k₁ ip₁ dev₁)
    (hk₁ : k₁ = bs₁.length) (h₂ : Written ip₁ dev₁ (off + k₁) bs₂ k₂ ip₂ dev₂) :
    Written ip dev off (bs₁ ++ bs₂) (k₁ + k₂) ip₂ dev₂ := by
  subst hk₁
  have hs₁ := h₁.size
  have hs₂ := h₂.size
  have hle₂ := h₂.le
  refine ⟨h₂.wf, by rw [List.length_append]; omega, by rw [hs₂, hs₁]; omega, fun p hp => ?_⟩
  rw [h₂.bytes p hp, List.length_append]
  by_cases hin₂ : off + bs₁.length ≤ p ∧ p < off + bs₁.length + bs₂.length
  · rw [if_pos hin₂, if_pos (by omega), List.getD_append_right _ _ _ _ (by omega), Nat.sub_sub]
  rw [if_neg hin₂]
  -- a byte past what the second write counted lies below the first's end
  have hp₁ : p < ip₁.size := by omega
  rw [h₁.bytes p hp₁]
  by_cases hin₁ : off ≤ p ∧ p < off + bs₁.length
  · rw [if_pos hin₁, if_pos (by omega), List.getD_append _ _ _ _ (by omega)]
  · rw [if_neg hin₁, if_neg (by omega)]

end Written

section Calls

variable {ip : FileInode} {dev : BlockDev} {off : Nat}

/-- **`writei` on a user address from within a well-formed file returns**:
it puts the first `w` bytes `copyin` moved in the file's blocks and returns
`k ≤ w`; or, where the write would wrap or pass `MAXFILE` blocks, it returns
`-1` and changes nothing. -/
theorem writeiUser_written {src : List (Option UInt8)} (hwf : Wf ip dev) (hoff : off ≤ ip.size)
    (hn : src.length < 2 ^ 32) :
    ∃ ip' dev' r, writeiUser ip dev off src = .ok (ip', dev', r) ∧ ((r = -1 ∧ ip' = ip ∧ dev' = dev) ∨
      ∃ k w : Nat, r = k ∧ k ≤ w ∧ w ≤ (copyinBytes src).length ∧
        Written ip dev off ((copyinBytes src).take w) k ip' dev') := by
  unfold writeiUser
  by_cases h1 : off > ip.size ∨ (off + src.length) % 2 ^ 32 < off
  · exact ⟨ip, dev, -1, by rw [if_pos h1], .inl ⟨rfl, rfl, rfl⟩⟩
  rw [if_neg h1]
  by_cases h2 : (off + src.length) % 2 ^ 32 > MAXFILE * BSIZE
  · exact ⟨ip, dev, -1, by rw [if_pos h2], .inl ⟨rfl, rfl, rfl⟩⟩
  rw [if_neg h2]
  have hmod := add_mod_of_not_wrap hwf.size_le hoff hn (by omega)
  have hmax : off + src.length ≤ MAXFILE * BSIZE := by omega
  obtain ⟨ip₁, dev₁, tot, w, hl, htw, hw, hwr, -⟩ := writeLoopUser_spec src.length hwf.sound hmax
  -- `iupdate` writes back the size and nothing else
  have haddrs : (if off + tot > ip₁.size then { ip₁ with size := off + tot } else ip₁).addrs = ip₁.addrs := by
    split <;> rfl
  have hsize : (if off + tot > ip₁.size then { ip₁ with size := off + tot } else ip₁).size = max ip.size (off + tot) := by
    rw [← hwr.size]
    split
    · simp only
      omega
    · omega
  have hlen : ((copyinBytes src).take w).length = w := by
    rw [List.length_take]
    omega
  have hwf' := hwf.of_wrote hoff hwr haddrs (by omega) hsize
  refine ⟨_, dev₁, tot, by simp [hl, bind, Except.bind], .inr ⟨tot, w, rfl, htw, hw, hwf', by omega, hsize,
    fun p hp => ?_⟩⟩
  have hbn : p / BSIZE < MAXFILE := div_lt_maxfile (by have := hwf'.size_le; omega)
  rw [byteAt_of_addrs haddrs]
  exact hwr.bytes p hbn

/-- **The loop of `filewrite`** from `i` of `n` bytes, at an offset within a
well-formed file, returns: it counted the next `k` bytes of the user's
buffer and put `w ≥ k` of those `copyin` moved in the file, and it reached
`n` exactly when it counted all the rest. -/
theorem writeChunks_spec (buf : Nat → Option UInt8) (n : Nat) {ip : FileInode} {dev : BlockDev} {off i : Nat}
    (hwf : Wf ip dev) (hoff : off ≤ ip.size) (hi : i ≤ n) :
    ∃ ip' dev' k w i', writeChunks buf n ip dev off i = .ok (ip', dev', off + k, i') ∧ k ≤ w ∧
      w ≤ (copyinBytes (userBytes buf i (n - i))).length ∧ (i' = n ↔ k = n - i) ∧
      Written ip dev off ((copyinBytes (userBytes buf i (n - i))).take w) k ip' dev' := by
  rw [writeChunks]
  by_cases hlt : i < n
  swap
  · rw [dif_neg hlt]
    exact ⟨ip, dev, 0, 0, i, rfl, le_rfl, Nat.zero_le _, by omega, Written.nil hwf hoff⟩
  rw [dif_pos hlt]
  have hmax : filewriteMax < 2 ^ 32 := by decide
  have hpos : 0 < filewriteMax := by decide
  -- the chunk is the first `n1` of the bytes still to write
  have hsplit : userBytes buf i (n - i) = userBytes buf i (min (n - i) filewriteMax) ++
      userBytes buf (i + min (n - i) filewriteMax) (n - (i + min (n - i) filewriteMax)) := by
    rw [← userBytes_add]
    congr 1
    omega
  have hlen : (userBytes buf i (min (n - i) filewriteMax)).length < 2 ^ 32 := by
    rw [length_userBytes]
    omega
  obtain ⟨ip₁, dev₁, r, hw, hres⟩ := writeiUser_written hwf hoff hlen
  dsimp only
  rw [hw, Budget.ok_bind]
  dsimp only
  have hpre := copyinBytes_isPrefix (userBytes buf i (min (n - i) filewriteMax))
    (userBytes buf (i + min (n - i) filewriteMax) (n - (i + min (n - i) filewriteMax)))
  rw [← hsplit] at hpre
  rcases hres with ⟨rfl, rfl, rfl⟩ | ⟨k, w, rfl, hkw, hw, hwr⟩
  · -- `writei` refused the chunk: nothing is written and the loop stops
    rw [if_pos (by omega)]
    exact ⟨_, _, 0, 0, i, by simp, le_rfl, Nat.zero_le _, by omega, Written.nil hwf hoff⟩
  have hcle := length_copyinBytes_le (userBytes buf i (min (n - i) filewriteMax))
  rw [length_userBytes] at hcle
  by_cases hfull : k = min (n - i) filewriteMax
  · -- the whole chunk: `copyin` moved all of it, and the loop goes on from its end
    subst hfull
    have hcfull : (copyinBytes (userBytes buf i (min (n - i) filewriteMax))).length =
        (userBytes buf i (min (n - i) filewriteMax)).length := by
      rw [length_userBytes]
      omega
    rw [List.take_of_length_le (by omega)] at hwr
    have hoff₁ : off + min (n - i) filewriteMax ≤ ip₁.size := by
      rw [hwr.size]
      omega
    obtain ⟨ip₂, dev₂, k₂, w₂, i₂, hrec, hkw₂, hw₂, hi₂, hwr₂⟩ :=
      writeChunks_spec buf n (i := i + min (n - i) filewriteMax) hwr.wf hoff₁ (by omega)
    have happ := copyinBytes_append_of_full
      (userBytes buf (i + min (n - i) filewriteMax) (n - (i + min (n - i) filewriteMax))) hcfull
    rw [← hsplit] at happ
    rw [length_userBytes] at hcfull
    refine ⟨ip₂, dev₂, min (n - i) filewriteMax + k₂, min (n - i) filewriteMax + w₂, i₂, ?_, by omega, ?_, by omega,
      ?_⟩
    · rw [if_neg (by simp), if_pos (by omega), Int.toNat_natCast, hrec, Nat.add_assoc]
    · rw [happ, List.length_append]
      omega
    · rw [happ, List.take_append, List.take_of_length_le (by omega),
        show min (n - i) filewriteMax + w₂ - (copyinBytes (userBytes buf i (min (n - i) filewriteMax))).length = w₂
          by omega]
      exact hwr.append hcfull.symm hwr₂
  · -- a short chunk: `f->off` moves by what it counted and the loop stops
    refine ⟨ip₁, dev₁, k, w, i, ?_, hkw, hw.trans hpre.length_le, by omega, ?_⟩
    · rw [if_pos (by exact_mod_cast hfull)]
      by_cases hk0 : k = 0
      · subst hk0
        simp
      · rw [if_pos (by omega), Int.toNat_natCast]
    · have htake : (copyinBytes (userBytes buf i (n - i))).take w =
          (copyinBytes (userBytes buf i (min (n - i) filewriteMax))).take w := by
        conv_rhs => rw [List.prefix_iff_eq_take.mp hpre]
        rw [List.take_take, Nat.min_eq_left hw]
      rw [htake]
      exact hwr
termination_by n - i
decreasing_by
  have hmax : 0 < filewriteMax := by decide
  omega

end Calls

section Descriptor

variable {f : File} {ip : FileInode} {dev : BlockDev} {buf : Nat → Option UInt8} {n : Int}

/-- `filewrite` on a writable file is its loop from `f->off`; it returns `n`
where the loop reached `n`, else `-1`. -/
theorem filewrite_of_loop {ip' : FileInode} {dev' : BlockDev} {off i : Nat} (hwr : f.writable = true)
    (hloop : writeChunks buf n.toNat ip dev f.off 0 = .ok (ip', dev', off, i)) :
    filewrite f ip dev buf n = .ok ({ f with off := off }, ip', dev', if (i : Int) = n then n else -1) := by
  unfold filewrite
  rw [if_neg (by simp [hwr]), hloop, Budget.ok_bind]

/-- A `filewrite` that returned `n ≥ 0` had every one of the user's `n`
bytes, and put them all in the file at `f->off`. -/
theorem filewrite_written {f' : File} {ip' : FileInode} {dev' : BlockDev} (hwf : Wf ip dev) (hoff : f.off ≤ ip.size)
    (hn : 0 ≤ n) (hw : filewrite f ip dev buf n = .ok (f', ip', dev', n)) :
    (copyinBytes (userBytes buf 0 n.toNat)).length = n.toNat ∧
      Written ip dev f.off (copyinBytes (userBytes buf 0 n.toNat)) n.toNat ip' dev' := by
  -- a file not writable returns `-1`, and `n ≥ 0`
  have hwr : f.writable = true := by
    by_contra hno
    simp only [filewrite, Bool.not_eq_true] at hw hno
    rw [if_pos hno] at hw
    have : (-1 : Int) = n := by cases hw; rfl
    omega
  obtain ⟨ip₁, dev₁, k, w, i', hloop, hkw, hw', hi', hwrote⟩ := writeChunks_spec buf n.toNat hwf hoff (Nat.zero_le _)
  rw [filewrite_of_loop hwr hloop] at hw
  simp only [Except.ok.injEq, Prod.mk.injEq] at hw
  obtain ⟨-, rfl, rfl, hret⟩ := hw
  -- it returned `n`, so the loop counted all `n` bytes, and `copyin` moved them all
  have hkn : k = n.toNat := by
    by_contra hne
    rw [if_neg (by omega)] at hret
    omega
  subst hkn
  have hcle := length_copyinBytes_le (userBytes buf 0 n.toNat)
  rw [length_userBytes] at hcle
  rw [Nat.sub_zero] at hw' hwrote
  have hall : (copyinBytes (userBytes buf 0 n.toNat)).length = n.toNat := by omega
  rw [List.take_of_length_le (by omega)] at hwrote
  exact ⟨hall, hwrote⟩

/-- **Reading back what was written.** A `fileread` of `n ≥ 0` bytes, by a
readable file at the offset where the `n` bytes `bs` were written, copies
them out up to the first byte of `dst` that is not mapped. -/
theorem fileread_of_written {g : File} {ip' : FileInode} {dev' : BlockDev} {bs : List UInt8} {dst : Nat → Bool}
    (hwrote : Written ip dev g.off bs n.toNat ip' dev') (hlen : bs.length = n.toNat) (hn : 0 ≤ n)
    (hg : g.readable = true) :
    fileread g ip' dev' dst n =
      .ok (if copyoutCount dst 0 n.toNat = n.toNat ∧ 0 < n then { g with off := g.off + n.toNat } else g, ip', dev',
        bs.take (copyoutCount dst 0 n.toNat), if copyoutCount dst 0 n.toNat = n.toNat then n else -1) := by
  -- the bytes are within the new size, which fits a `uint`
  have hle := hwrote.wf.size_le
  have h32 := maxfile_bytes_lt
  have hfit : g.off + n.toNat ≤ ip'.size := by
    rw [hwrote.size]
    exact le_max_right _ _
  have hcast : (n % 2 ^ 32).toNat = n.toNat := by omega
  have hc := copyoutCount_le dst 0 n.toNat
  unfold fileread
  rw [if_neg (by simp [hg]), hcast, readiUser_spec dst hwrote.wf (o := g.off) (k := n.toNat) (by omega),
    Budget.ok_bind]
  dsimp only
  have hbytes : ((List.range (copyoutCount dst 0 n.toNat)).map fun j => byteAt ip' dev' (g.off + j)) =
      bs.take (copyoutCount dst 0 n.toNat) := by
    rw [← map_range_getD (by omega)]
    apply List.map_congr_left
    intro j hj
    have hj' := List.mem_range.mp hj
    rw [hwrote.bytes (g.off + j) (by omega), if_pos (by omega), Nat.add_sub_cancel_left]
  rw [hbytes]
  -- `f->off` moves where `readi` returned `n > 0`, never where it returned `-1`
  by_cases hout : copyoutCount dst 0 n.toNat = n.toNat
  · have hmoves : (copyoutCount dst 0 n.toNat = n.toNat ∧ 0 < n) ↔ n > 0 := ⟨fun h => h.2, fun h => ⟨hout, h⟩⟩
    simp only [if_pos hout, Int.ofNat_toNat, max_eq_left hn, hmoves]
  · have hneg : ¬((-1 : Int) > 0) := by omega
    simp only [if_neg hout]
    rw [if_neg hneg, if_neg (fun h => hout h.1)]

/-- **A write read back through the descriptor layer.** A `filewrite` of
`n` bytes that returns `n`, from an offset within a well-formed file, had
every one of the user's bytes; a `fileread` of `n` bytes by a readable file
at the offset the write began then copies them out up to the first byte of
`dst` that is not mapped. Where there is none it returns `n` and moves that
file's offset past them; else it returns `-1` and leaves the offset. -/
theorem filewrite_then_fileread {f' g : File} {ip' : FileInode} {dev' : BlockDev} {dst : Nat → Bool}
    (hwf : Wf ip dev) (hoff : f.off ≤ ip.size) (hn : 0 ≤ n) (hw : filewrite f ip dev buf n = .ok (f', ip', dev', n))
    (hg : g.readable = true) (hgoff : g.off = f.off) :
    (copyinBytes (userBytes buf 0 n.toNat)).length = n.toNat ∧
      fileread g ip' dev' dst n =
        .ok (if copyoutCount dst 0 n.toNat = n.toNat ∧ 0 < n then { g with off := g.off + n.toNat } else g, ip', dev',
          (copyinBytes (userBytes buf 0 n.toNat)).take (copyoutCount dst 0 n.toNat),
          if copyoutCount dst 0 n.toNat = n.toNat then n else -1) := by
  obtain ⟨hall, hwrote⟩ := filewrite_written hwf hoff hn hw
  rw [← hgoff] at hwrote
  exact ⟨hall, fileread_of_written hwrote hall hn hg⟩

/-- The write of the byte `7` to an empty file: one chunk, one `writei`. -/
theorem filewrite_one_byte :
    filewrite ⟨.inode, 1, true, true, 0, 0, 0, 0⟩ emptyFile emptyDisk (fun _ => some 7) 1 =
      .ok (⟨.inode, 1, true, true, 0, 0, 1, 0⟩, oneByteFile, oneByteDisk, 1) := by
  have hw : writeiUser emptyFile emptyDisk 0 (userBytes (fun _ => some 7) 0 (min (1 - 0) filewriteMax)) =
      .ok (oneByteFile, oneByteDisk, 1) := rfl
  have hloop : writeChunks (fun _ => some 7) 1 emptyFile emptyDisk 0 0 = .ok (oneByteFile, oneByteDisk, 1, 1) := by
    rw [writeChunks, dif_pos (by decide)]
    dsimp only
    rw [hw, Budget.ok_bind]
    dsimp only
    rw [if_neg (by decide), writeChunks, dif_neg (by decide)]
    rfl
  unfold filewrite
  rw [if_neg (by decide), show (1 : Int).toNat = 1 from rfl, hloop]
  rfl

theorem filewrite_then_fileread_one_byte :
    filewrite ⟨.inode, 1, true, true, 0, 0, 0, 0⟩ emptyFile emptyDisk (fun _ => some 7) 1 =
      .ok (⟨.inode, 1, true, true, 0, 0, 1, 0⟩, oneByteFile, oneByteDisk, 1) ∧
    (copyinBytes (userBytes (fun _ => some 7) 0 (1 : Int).toNat)).length = (1 : Int).toNat ∧
      fileread ⟨.inode, 1, true, true, 0, 0, 0, 0⟩ oneByteFile oneByteDisk (fun _ => true) 1 =
        .ok (if copyoutCount (fun _ => true) 0 (1 : Int).toNat = (1 : Int).toNat ∧ 0 < (1 : Int) then
            { (⟨.inode, 1, true, true, 0, 0, 0, 0⟩ : File) with off := 0 + (1 : Int).toNat }
          else ⟨.inode, 1, true, true, 0, 0, 0, 0⟩, oneByteFile, oneByteDisk,
          (copyinBytes (userBytes (fun _ => some 7) 0 (1 : Int).toNat)).take (copyoutCount (fun _ => true) 0 (1 : Int).toNat),
          if copyoutCount (fun _ => true) 0 (1 : Int).toNat = (1 : Int).toNat then 1 else -1) :=
  ⟨filewrite_one_byte, filewrite_then_fileread (Wf.emptyFile (by decide)) (Nat.le_refl 0) (by decide)
    filewrite_one_byte rfl rfl⟩

end Descriptor

end Fs

end Mkros
