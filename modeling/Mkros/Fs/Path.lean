import Mathlib
import Mkros.Fs.Dir
/-!
# Path names byte by byte: `skipelem`

`skipelem` reads a NUL-terminated path from a pointer. The model reads the
bytes from the pointer as a list, the NUL, or the end of the list, closing
the string; a pointer it returns is the rest of the list. It skips the
slashes, scans the element up to the next slash or the NUL, copies it into
the name buffer (cut to `DIRSIZ` bytes, with a NUL after it where it is
shorter) and skips the slashes after it.

The elements of a path are its maximal non-empty runs of bytes other than
`/`, before the NUL (`segments`). One call of `skipelem` takes the first
of them off and leaves the rest (`skipelem_of_cons`), or returns `0` where
there is none (`skipelem_of_nil`). Called again and again, as `namex` does,
it hands out the elements in order and returns `0` after the last, and the
check `*path == '\0'` that stops `nameiparent` one level early holds
exactly after the last element (`splitsInto_segments`).

`Path.namex` is `namex` over those bytes: its loop calls `skipelem` and
looks the name buffer up with `namecmp`. Where every directory entry's name
fits its slot, it follows the elements as `walk`, the loop over names, does
(`Path.walk_follows`).
-/

namespace Mkros

namespace Fs

/-! ## The model -/

/-- `while (*path == '/') path++;`. -/
def skipSlashes : List UInt8 → List UInt8
  | [] => []
  | c :: rest => if c = '/'.toUInt8 then skipSlashes rest else c :: rest

/-- `while (*path != '/' && *path != 0) path++;`: the element from `s`, and
the path from the byte that ends it. -/
def scanElem : List UInt8 → List UInt8 × List UInt8
  | [] => ([], [])
  | c :: rest =>
    if c ≠ '/'.toUInt8 ∧ c ≠ 0 then (c :: (scanElem rest).1, (scanElem rest).2) else ([], c :: rest)

/-- `memmove(name, s, n)` of the bytes `bs` into the name buffer. -/
def copyName (name : Nat → UInt8) (bs : List UInt8) : Nat → UInt8 :=
  fun i => if i < bs.length then bs.getD i 0 else name i

/-- `skipelem(path, name)`: the pointer it returns, `none` for `0`, and the
name buffer. -/
def skipelem (path : List UInt8) (name : Nat → UInt8) : Option (List UInt8) × (Nat → UInt8) :=
  let path := skipSlashes path
  if path.headD 0 = 0 then (none, name)
  else
    let s := (scanElem path).1
    -- `len = path - s`; a long element fills the buffer and gets no NUL
    let name := if DIRSIZ ≤ s.length then copyName name (s.take DIRSIZ)
      else Function.update (copyName name s) s.length 0
    (some (skipSlashes (scanElem path).2), name)

/-! ### What the loops leave -/

/-- **The pointer returned has no slash in front.** -/
theorem skipSlashes_headD : ∀ p : List UInt8, (skipSlashes p).headD 0 ≠ '/'.toUInt8
  | [] => by decide
  | c :: rest => by
    by_cases hc : c = '/'.toUInt8
    · rw [skipSlashes, if_pos hc]
      exact skipSlashes_headD rest
    · rw [skipSlashes, if_neg hc]
      exact hc

/-- The scan stops at the element's end: a slash, the NUL or the end. -/
theorem scanElem_spec : ∀ p : List UInt8,
    (scanElem p).1 ++ (scanElem p).2 = p ∧ (∀ c ∈ (scanElem p).1, c ≠ '/'.toUInt8 ∧ c ≠ 0) ∧
      ((scanElem p).2.headD 0 = '/'.toUInt8 ∨ (scanElem p).2.headD 0 = 0)
  | [] => ⟨rfl, fun _ h => absurd h List.not_mem_nil, Or.inr rfl⟩
  | c :: rest => by
    obtain ⟨happ, helem, hend⟩ := scanElem_spec rest
    by_cases hc : c ≠ '/'.toUInt8 ∧ c ≠ 0
    · simp only [scanElem, if_pos hc, List.cons_append, happ, List.mem_cons, forall_eq_or_imp]
      exact ⟨trivial, ⟨hc, helem⟩, hend⟩
    · simp only [scanElem, if_neg hc, List.nil_append, List.headD_cons]
      refine ⟨trivial, fun _ h => absurd h List.not_mem_nil, ?_⟩
      by_cases hs : c = '/'.toUInt8
      · exact Or.inl hs
      · exact Or.inr (by simpa [hs] using hc)

/-- The scan reads at least one byte where the path is at an element. -/
theorem scanElem_fst_ne_nil {p : List UInt8} (h0 : p.headD 0 ≠ 0) (hs : p.headD 0 ≠ '/'.toUInt8) :
    (scanElem p).1 ≠ [] := by
  cases p with
  | nil => exact absurd rfl h0
  | cons c rest =>
    rw [List.headD_cons] at h0 hs
    simp [scanElem, h0, hs]

theorem skipSlashes_length_le : ∀ p : List UInt8, (skipSlashes p).length ≤ p.length
  | [] => le_rfl
  | c :: rest => by
    by_cases hc : c = '/'.toUInt8
    · have hle := skipSlashes_length_le rest
      rw [skipSlashes, if_pos hc, List.length_cons]
      omega
    · rw [skipSlashes, if_neg hc]

/-- **The pointer `skipelem` returns is past the element it copied**, so a
loop over `skipelem` ends. -/
theorem skipelem_length_lt {path path' : List UInt8} {name name' : Nat → UInt8}
    (h : skipelem path name = (some path', name')) : path'.length < path.length := by
  simp only [skipelem] at h
  split at h
  · simp at h
  · rename_i h0
    simp only [Prod.mk.injEq, Option.some.injEq] at h
    obtain ⟨rfl, -⟩ := h
    have happ := congrArg List.length (scanElem_spec (skipSlashes path)).1
    have hne := List.length_pos_iff.mpr (scanElem_fst_ne_nil h0 (skipSlashes_headD path))
    have hle₁ := skipSlashes_length_le (scanElem (skipSlashes path)).2
    have hle₂ := skipSlashes_length_le path
    rw [List.length_append] at happ
    omega

/-! ### `namex` over the bytes -/

namespace Path

/-- The `DIRSIZ` bytes of the name buffer that `namecmp` reads. -/
def nameBuf (name : Nat → UInt8) : List UInt8 := (List.range DIRSIZ).map name

/-- `dirlookup`'s loop over a directory's slots: the first in-use entry for
which `namecmp(name, de.name)`, against the `DIRSIZ` bytes `dirlink` stored
with `strncpy`, is `0`. -/
def findName (name : Nat → UInt8) : List Dirent → Option (Nat × Nat)
  | [] => none
  | de :: des =>
    if de.inum ≠ 0 ∧ namecmp (nameBuf name) (strncpy (nameBytes de.name ++ [0]) DIRSIZ) = 0 then some (0, de.inum.toNat)
    else (findName name des).map (Prod.map (· + 1) id)

/-- `dirlookup(dp, name, 0)` of the name buffer. -/
def dirlookup (s : State) (dp : Nat) (name : Nat → UInt8) : State × Option (Nat × Nat) :=
  match findName name (s.inode dp).dirents with
  | none => (s, none)
  | some r => (iget s r.2, some r)

/-- `namex`'s loop, holding a reference to `ip`: `skipelem` copies the next
element into the name buffer; each but (for `nameiparent`) the last is
looked up in a directory, whose reference is dropped once the next inode's
is taken. The inode, and the name buffer as the loop leaves it. -/
def walk (nameiparent : Bool) (s : State) (ip : Nat) (path : List UInt8) (name : Nat → UInt8) :
    State × Option Nat × (Nat → UInt8) :=
  match _h : skipelem path name with
  | (none, name) => if nameiparent then (iput s ip, none, name) else (s, some ip, name)
  | (some path', name) =>
    if (s.inode ip).type ≠ T_DIR then (iput s ip, none, name)
    -- `nameiparent && *path == '\0'`: stop one level early
    else if nameiparent ∧ path'.headD 0 = 0 then (s, some ip, name)
    else match dirlookup s ip name with
      | (s, none) => (iput s ip, none, name)
      | (s, some (_, next)) => walk nameiparent (iput s ip) next path' name
termination_by path.length
decreasing_by exact skipelem_length_lt _h

/-- `namex(path, nameiparent, name)`: from the root for an absolute path,
else from `cwd`. -/
def namex (s : State) (path : List UInt8) (nameiparent : Bool) (name : Nat → UInt8) :
    State × Option Nat × (Nat → UInt8) :=
  if path.headD 0 = '/'.toUInt8 then walk nameiparent (iget s ROOTINO) ROOTINO path name
  else walk nameiparent (iget s s.cwd) s.cwd path name

end Path

/-! ## The elements of a path -/

/-- The string a NUL-terminated buffer holds: its bytes before the NUL. -/
def cstr (path : List UInt8) : List UInt8 := path.takeWhile (· ≠ 0)

/-- The maximal non-empty runs of bytes other than `/` of a text. -/
def segs (t : List UInt8) : List (List UInt8) := (t.splitOn '/'.toUInt8).filter (· ≠ [])

/-- **The elements of a path**: the maximal non-empty runs of bytes other
than `/` of the string it holds. -/
def segments (path : List UInt8) : List (List UInt8) := segs (cstr path)

/-- **The name buffer holds the element `e`**: its first `min len DIRSIZ`
bytes, then a NUL where it is shorter than `DIRSIZ`; the other bytes are
as they were. -/
structure Copied (name name' : Nat → UInt8) (e : List UInt8) : Prop where
  bytes : ∀ i < min e.length DIRSIZ, name' i = e.getD i 0
  nul : e.length < DIRSIZ → name' e.length = 0
  rest : ∀ i, DIRSIZ ≤ i ∨ e.length < i → name' i = name i

/-- **What `skipelem` yields when called again and again**, as `namex`
does: from `path` and the name buffer `name`, the elements `es` in turn.
Each call returns a pointer with no slash in front, which points at the
NUL exactly after the last element, and the call after the last returns
`0`. -/
inductive SplitsInto : List UInt8 → (Nat → UInt8) → List (List UInt8) → Prop
  | last {path : List UInt8} {name : Nat → UInt8} : skipelem path name = (none, name) → SplitsInto path name []
  | next {path path' : List UInt8} {name name' : Nat → UInt8} {e : List UInt8} {es : List (List UInt8)} :
      skipelem path name = (some path', name') → Copied name name' e → path'.headD 0 ≠ '/'.toUInt8 →
      (path'.headD 0 = 0 ↔ es = []) → SplitsInto path' name' es → SplitsInto path name (e :: es)

/-! ### Splitting at the slashes -/

theorem segs_nil : segs [] = [] := by
  simp [segs, List.splitOn_eq_splitOnP, List.splitOnP_nil]

/-- A slash splits the elements. -/
theorem segs_append_slash (x y : List UInt8) : segs (x ++ '/'.toUInt8 :: y) = segs x ++ segs y := by
  unfold segs
  rw [List.splitOn_eq_splitOnP, List.splitOn_eq_splitOnP, List.splitOn_eq_splitOnP,
    List.splitOnP_append_cons x y (by simp), List.filter_append]

theorem segs_cons_slash (y : List UInt8) : segs ('/'.toUInt8 :: y) = segs y := by
  simpa [segs_nil] using segs_append_slash [] y

/-- A non-empty run with no slash is one element. -/
theorem segs_of_run {w : List UInt8} (hne : w ≠ []) (h : ∀ c ∈ w, c ≠ '/'.toUInt8) : segs w = [w] := by
  rw [segs, List.splitOn_eq_splitOnP, List.splitOnP_eq_singleton fun c hc => by simpa using h c hc]
  simp [hne]

/-! ### The elements of a path -/

theorem segments_cons_slash (p : List UInt8) : segments ('/'.toUInt8 :: p) = segments p := by
  rw [segments, cstr, List.takeWhile_cons, if_pos (by decide), segs_cons_slash]
  rfl

theorem segments_of_headD {p : List UInt8} (h : p.headD 0 = 0) : segments p = [] := by
  cases p with
  | nil => exact segs_nil
  | cons c p =>
    rw [List.headD_cons] at h
    rw [segments, cstr, List.takeWhile_cons, if_neg (by simp [h])]
    exact segs_nil

/-- **An element, then a slash, a NUL or the end**: the element is the
path's first. -/
theorem segments_append {e r : List UInt8} (hne : e ≠ []) (he : ∀ c ∈ e, c ≠ '/'.toUInt8 ∧ c ≠ 0)
    (hr : r.headD 0 = '/'.toUInt8 ∨ r.headD 0 = 0) : segments (e ++ r) = e :: segments r := by
  have hcstr : cstr (e ++ r) = e ++ cstr r := by
    rw [cstr, List.takeWhile_append_of_pos fun c hc => by simpa using (he c hc).2]
    rfl
  rw [segments, hcstr]
  rcases hr with hr | hr
  · -- a slash ends the element
    obtain ⟨t, rfl⟩ : ∃ t, r = '/'.toUInt8 :: t := by
      cases r with
      | nil => exact absurd hr (by decide)
      | cons c t => exact ⟨t, by rw [List.headD_cons] at hr; rw [hr]⟩
    rw [cstr, List.takeWhile_cons, if_pos (by decide), segs_append_slash, segs_of_run hne fun c hc => (he c hc).1,
      segments_cons_slash]
    rfl
  · -- the NUL or the end ends the path
    rw [show cstr r = [] by
      cases r with
      | nil => rfl
      | cons c t =>
        rw [List.headD_cons] at hr
        simp [cstr, hr], List.append_nil, segs_of_run hne fun c hc => (he c hc).1, segments_of_headD hr]

/-! ### The loops -/

theorem segments_skipSlashes : ∀ p : List UInt8, segments (skipSlashes p) = segments p
  | [] => rfl
  | c :: rest => by
    by_cases hc : c = '/'.toUInt8
    · rw [skipSlashes, if_pos hc, segments_skipSlashes rest, hc, segments_cons_slash]
    · rw [skipSlashes, if_neg hc]

/-- After the slashes, a path has no element exactly where it is at its
NUL. -/
theorem segments_eq_nil_iff {p : List UInt8} (h : p.headD 0 ≠ '/'.toUInt8) : segments p = [] ↔ p.headD 0 = 0 := by
  refine ⟨fun hnil => ?_, segments_of_headD⟩
  by_contra h0
  obtain ⟨happ, helem, hend⟩ := scanElem_spec p
  -- the first byte starts an element
  rw [← happ, segments_append (scanElem_fst_ne_nil h0 h) helem hend] at hnil
  exact List.cons_ne_nil _ _ hnil

/-! ## One call -/

/-- **Where a path has no element, `skipelem` returns `0`** and leaves the
name buffer. -/
theorem skipelem_of_nil {path : List UInt8} (h : segments path = []) (name : Nat → UInt8) :
    skipelem path name = (none, name) := by
  have h0 : (skipSlashes path).headD 0 = 0 := by
    rw [← segments_eq_nil_iff (skipSlashes_headD path), segments_skipSlashes]
    exact h
  simp only [skipelem, h0, if_true]

/-- What the buffer holds after the copy of `skipelem`. -/
theorem copied_skipelem (name : Nat → UInt8) (e : List UInt8) :
    Copied name (if DIRSIZ ≤ e.length then copyName name (e.take DIRSIZ)
      else Function.update (copyName name e) e.length 0) e := by
  by_cases hlen : DIRSIZ ≤ e.length
  · simp only [if_pos hlen]
    refine ⟨fun i hi => ?_, fun h => absurd hlen (by omega), fun i hi => ?_⟩
    · rw [copyName, if_pos (by rw [List.length_take]; omega), List.getD_eq_getElem?_getD,
        List.getD_eq_getElem?_getD, List.getElem?_take_of_lt (by omega)]
    · rw [copyName, if_neg (by rw [List.length_take]; omega)]
  · simp only [if_neg hlen]
    refine ⟨fun i hi => ?_, fun _ => Function.update_self _ _ _, fun i hi => ?_⟩
    · rw [Function.update_of_ne (by omega), copyName, if_pos (by omega)]
    · rw [Function.update_of_ne (by omega), copyName, if_neg (by omega)]

/-- **`skipelem` takes the first element off**: it copies it into the name
buffer and returns a pointer, with no slash in front, to the rest, which
points at the NUL exactly where no element is left. -/
theorem skipelem_of_cons {path : List UInt8} {e : List UInt8} {es : List (List UInt8)}
    (h : segments path = e :: es) (name : Nat → UInt8) :
    ∃ path', skipelem path name = (some path', if DIRSIZ ≤ e.length then copyName name (e.take DIRSIZ)
        else Function.update (copyName name e) e.length 0) ∧
      segments path' = es ∧ path'.headD 0 ≠ '/'.toUInt8 ∧ (path'.headD 0 = 0 ↔ es = []) ∧
      ∀ c ∈ e, c ≠ '/'.toUInt8 ∧ c ≠ 0 := by
  have hq := skipSlashes_headD path
  have hseg : segments (skipSlashes path) = e :: es := by rw [segments_skipSlashes, h]
  have h0 : (skipSlashes path).headD 0 ≠ 0 := by
    rw [Ne, ← segments_eq_nil_iff hq, hseg]
    exact List.cons_ne_nil _ _
  -- the scan reads the first element
  obtain ⟨happ, helem, hend⟩ := scanElem_spec (skipSlashes path)
  have hsplit := segments_append (scanElem_fst_ne_nil h0 hq) helem hend
  rw [happ, hseg, List.cons.injEq] at hsplit
  obtain ⟨rfl, hrest⟩ := hsplit
  refine ⟨skipSlashes (scanElem (skipSlashes path)).2, by simp only [skipelem, if_neg h0], ?_,
    skipSlashes_headD _, ?_, helem⟩
  · rw [segments_skipSlashes, hrest]
  · rw [← segments_eq_nil_iff (skipSlashes_headD _), segments_skipSlashes, hrest]

/-! ## Again and again -/

/-- **`skipelem` splits a path into its elements.** For every
NUL-terminated path and name buffer, calling `skipelem` again and again from
the path, as `namex` does, hands out the path's maximal non-empty runs of
bytes other than `/`, in order: each is copied into the buffer, cut to
`DIRSIZ` bytes with a NUL after it where it is shorter. Each pointer
returned has no slash in front and points at the NUL exactly after the last
element, where `nameiparent` stops one level early. The call after the last
element returns `0`, at once for an empty path or one of slashes only. -/
theorem splitsInto_segments (path : List UInt8) (name : Nat → UInt8) : SplitsInto path name (segments path) := by
  -- induction on the elements left, for every path that has them
  generalize hes : segments path = es
  induction es generalizing path name with
  | nil => exact .last (skipelem_of_nil hes name)
  | cons e es ih =>
    obtain ⟨path', hcall, hrest, hhead, hnul, -⟩ := skipelem_of_cons hes name
    exact .next hcall (copied_skipelem name e) hhead hnul (ih path' _ hrest)

/-! ## `namex` follows the elements -/

/-- Every directory entry's name fits its slot: at most `DIRSIZ` bytes, none
of them NUL, as `dirlink` of a path element stores it. -/
def NamesFit (s : State) : Prop :=
  ∀ ip, ∀ de ∈ (s.inode ip).dirents, (nameBytes de.name).length ≤ DIRSIZ ∧ 0 ∉ nameBytes de.name

/-- **The buffer holds the name `x`** as `namecmp` reads it: against the
stored bytes of any name that fits a slot, it compares equal exactly to
`x`. -/
def Holds (name : Nat → UInt8) (x : String) : Prop :=
  ∀ t, (nameBytes t).length ≤ DIRSIZ → 0 ∉ nameBytes t →
    (namecmp (Path.nameBuf name) (strncpy (nameBytes t ++ [0]) DIRSIZ) = 0 ↔ x = t)

/-- **The byte-level `namex` ends as the one over names does**: in the same
state, at the same inode, and for `nameiparent` with the last element's
name in the buffer. -/
structure Follows (nameiparent : Bool) (r : State × Option Nat × (Nat → UInt8))
    (w : State × Option (Nat × String)) : Prop where
  state : r.1 = w.1
  inode : r.2.1 = w.2.map Prod.fst
  name : nameiparent = true → ∀ ip x, w.2 = some (ip, x) → Holds r.2.2 x

theorem NamesFit.iget {s : State} (h : NamesFit s) (inum : Nat) : NamesFit (iget s inum) := h

theorem NamesFit.dirlookup {s : State} (h : NamesFit s) (dp : Nat) (x : String) :
    NamesFit (Fs.dirlookup s dp x).1 := by
  unfold Fs.dirlookup
  split
  · exact h
  · exact h.iget _

theorem NamesFit.iput {s : State} (h : NamesFit s) (inum : Nat) : NamesFit (iput s inum) := by
  intro ip de hde
  rcases iput_inode_eq_or_free s inum ip with heq | heq
  · rw [heq] at hde
    exact h ip de hde
  · rw [heq] at hde
    exact absurd hde List.not_mem_nil

/-! ### What `namecmp` reads of the buffer -/

theorem headD_eq_getD (p : List UInt8) : p.headD 0 = p.getD 0 0 := by
  cases p <;> rfl

theorem getD_tail (p : List UInt8) (i : Nat) : p.tail.getD i 0 = p.getD (i + 1) 0 := by
  cases p <;> simp

theorem getD_append_nul (a : List UInt8) (i : Nat) :
    (a ++ [0]).getD i 0 = if i < a.length then a.getD i 0 else 0 := by
  split_ifs with h
  · exact List.getD_append _ _ _ _ h
  · rw [List.getD_append_right _ _ _ _ (by omega)]
    cases i - a.length <;> simp

/-- **`strncmp` reads no byte past the first NUL, nor past `n`**: two
strings that agree up to there compare alike. -/
theorem strncmp_congr : ∀ (n : Nat) {p p' : List UInt8} (q : List UInt8),
    (∀ i < n, (∀ j < i, p.getD j 0 ≠ 0) → p.getD i 0 = p'.getD i 0) → strncmp p q n = strncmp p' q n
  | 0, _, _, _, _ => rfl
  | n + 1, p, p', q, h => by
    have hhead : p.headD 0 = p'.headD 0 := by
      rw [headD_eq_getD, headD_eq_getD]
      exact h 0 (by omega) fun j hj => absurd hj (Nat.not_lt_zero j)
    simp only [strncmp, hhead]
    split_ifs with hc
    · -- a byte other than the NUL, the same in both: the tails compare alike
      refine strncmp_congr n q.tail fun i hi hbefore => ?_
      rw [getD_tail, getD_tail]
      refine h (i + 1) (by omega) fun j hj => ?_
      cases j with
      | zero => rw [← headD_eq_getD, hhead]; exact hc.1
      | succ j => rw [← getD_tail]; exact hbefore j (by omega)
    · rfl

/-- **The element `skipelem` copied is the name the buffer holds**, cut to
`DIRSIZ` bytes: what the buffer held past it is never read. -/
theorem holds_of_copied {name name' : Nat → UInt8} {e : List UInt8} {x : String} (hc : Copied name name' e)
    (he : ∀ c ∈ e, c ≠ 0) (hx : nameBytes x = e.take DIRSIZ) : Holds name' x := by
  intro t ht ht0
  have hlen : (nameBytes x).length = min e.length DIRSIZ := by rw [hx, List.length_take, min_comm]
  have hx0 : 0 ∉ nameBytes x := fun h0 => he 0 (List.mem_of_mem_take (hx ▸ h0)) rfl
  -- the buffer reads as the element with a NUL after it
  have hread : strncmp (Path.nameBuf name') (strncpy (nameBytes t ++ [0]) DIRSIZ) DIRSIZ =
      strncmp (nameBytes x ++ [0]) (strncpy (nameBytes t ++ [0]) DIRSIZ) DIRSIZ := by
    refine strncmp_congr DIRSIZ _ fun i hi hbefore => ?_
    have hbuf : ∀ j < DIRSIZ, (Path.nameBuf name').getD j 0 = name' j := fun j hj => by
      simp [Path.nameBuf, List.getD_eq_getElem?_getD, hj]
    rw [hbuf i hi, getD_append_nul, hlen]
    split_ifs with hlt
    · rw [hc.bytes i hlt, hx, List.getD_eq_getElem?_getD, List.getD_eq_getElem?_getD,
        List.getElem?_take_of_lt hi]
    · -- past the element: its NUL, and nothing read after it
      have hshort : e.length < DIRSIZ := by omega
      rcases Nat.lt_or_eq_of_le (show e.length ≤ i by omega) with hgt | heq
      · exact absurd (hbuf _ hshort ▸ hc.nul hshort) (hbefore e.length hgt)
      · rw [← heq]
        exact hc.nul hshort
  rw [namecmp, hread, ← namecmp, namecmp_nameBytes (by omega) ht hx0 ht0]

/-! ### One lookup -/

theorem findName_eq {name : Nat → UInt8} {x : String} (hx : Holds name x) :
    ∀ des : List Dirent, (∀ de ∈ des, (nameBytes de.name).length ≤ DIRSIZ ∧ 0 ∉ nameBytes de.name) →
      Path.findName name des = findEntry x des
  | [] => fun _ => rfl
  | de :: des => fun hfit => by
    obtain ⟨hlen, h0⟩ := hfit de List.mem_cons_self
    have ih := findName_eq hx des fun d hd => hfit d (List.mem_cons_of_mem _ hd)
    rw [Path.findName, findEntry, ih]
    simp only [hx de.name hlen h0, @eq_comm _ x]
    rfl

/-- **`dirlookup` of the buffer is `dirlookup` of the name it holds.** -/
theorem dirlookup_eq {s : State} (hs : NamesFit s) {name : Nat → UInt8} {x : String} (hx : Holds name x)
    (dp : Nat) : Path.dirlookup s dp name = Fs.dirlookup s dp x := by
  rw [Path.dirlookup, Fs.dirlookup, findName_eq hx _ (hs dp)]
  cases findEntry x (s.inode dp).dirents with
  | none => rfl
  | some r => rfl

/-! ### The loop -/

/-- **`namex` over the bytes follows the elements.** Where every entry's
name fits its slot, the loop over `skipelem` ends as `walk` over the names
the path's elements give, cut to `DIRSIZ` bytes: it looks up the same
elements in the same directories, stops one level early for
`nameiparent` with the last element in the buffer, and leaves the same
references. -/
theorem Path.walk_follows {s : State} (hs : NamesFit s) (nameiparent : Bool) (ip : Nat) {path : List UInt8}
    {ss : List String} (hss : (segments path).map (·.take DIRSIZ) = ss.map nameBytes) (name : Nat → UInt8) :
    Follows nameiparent (Path.walk nameiparent s ip path name) (Fs.walk nameiparent s ip ss) := by
  -- induction on the names left, for every path that gives them
  induction ss generalizing s ip path name with
  | nil =>
    have hcall := skipelem_of_nil (List.map_eq_nil_iff.mp hss) name
    rw [Path.walk]
    split
    · rename_i name' heq
      obtain ⟨-, rfl⟩ := Prod.mk.inj (hcall.symm.trans heq)
      cases nameiparent
      · exact ⟨rfl, rfl, fun h => absurd h Bool.false_ne_true⟩
      · exact ⟨rfl, rfl, fun _ _ _ h => by simp [Fs.walk] at h⟩
    · rename_i heq
      exact absurd (hcall.symm.trans heq) (by simp)
  | cons x xs ih =>
    obtain ⟨e, es, hes, hx, hrest⟩ := List.map_eq_cons_iff.mp hss
    obtain ⟨path', hcall, hseg, -, hnul, helem⟩ := skipelem_of_cons hes name
    have hholds := holds_of_copied (copied_skipelem name e) (fun c hc => (helem c hc).2) hx.symm
    -- the pointer is at the NUL exactly after the last element
    have hlast : path'.headD 0 = 0 ↔ xs = [] := by
      rw [hnul]
      constructor
      · intro h
        rw [h, List.map_nil] at hrest
        exact List.map_eq_nil_iff.mp hrest.symm
      · intro h
        rw [h, List.map_nil] at hrest
        exact List.map_eq_nil_iff.mp hrest
    rw [Path.walk]
    split
    · rename_i heq
      exact absurd (hcall.symm.trans heq) (by simp)
    · rename_i path'' name'' heq
      obtain ⟨hp, rfl⟩ := Prod.mk.inj (hcall.symm.trans heq)
      cases Option.some.inj hp
      rw [Fs.walk]
      by_cases hdir : (s.inode ip).type ≠ T_DIR
      · rw [if_pos hdir, if_pos hdir]
        exact ⟨rfl, rfl, fun _ _ _ h => by simp at h⟩
      rw [if_neg hdir, if_neg hdir]
      by_cases hstop : nameiparent = true ∧ xs = []
      · rw [if_pos hstop, if_pos ⟨hstop.1, hlast.mpr hstop.2⟩]
        refine ⟨rfl, rfl, fun _ ip' x' h => ?_⟩
        obtain ⟨-, rfl⟩ := Prod.mk.inj (Option.some.inj h)
        exact hholds
      rw [if_neg hstop, if_neg fun h => hstop ⟨h.1, hlast.mp h.2⟩, dirlookup_eq hs hholds]
      -- the element is looked up: the loop goes on from the entry's inode
      have hfit := hs.dirlookup ip x
      rcases hlook : Fs.dirlookup s ip x with ⟨s', _ | ⟨off, next⟩⟩
      · exact ⟨rfl, rfl, fun _ _ _ h => by simp at h⟩
      · rw [hlook] at hfit
        exact ih (hfit.iput ip) next (by rw [hseg]; exact hrest) _

/-! ## Path splitting -/

/-- **Path splitting.** For every NUL-terminated path and name buffer,
`skipelem` called again and again from the path hands out the path's
maximal non-empty runs of bytes other than `/`, in order, each copied into
the buffer as its first `min len DIRSIZ` bytes with a NUL after it where it
is shorter; each pointer returned has no slash in front and is at the NUL
exactly after the last element, and the call after the last returns `0`,
at once for an empty path or one of slashes only. And `namex` follows those
elements: where every entry's name fits its slot, and the elements cut to
`DIRSIZ` bytes are the names `ss`, `namex` from the root or from `cwd` ends
as `walk` over `ss` does, stopping one level early for `nameiparent`. -/
theorem skipelem_splits_path (path : List UInt8) (name : Nat → UInt8) :
    SplitsInto path name (segments path) ∧
      ∀ (s : State) (ss : List String), NamesFit s → (segments path).map (·.take DIRSIZ) = ss.map nameBytes →
        ∀ nameiparent : Bool,
          let ip := if path.headD 0 = '/'.toUInt8 then ROOTINO else s.cwd
          Follows nameiparent (Path.namex s path nameiparent name) (Fs.walk nameiparent (iget s ip) ip ss) := by
  refine ⟨splitsInto_segments path name, fun s ss hs hss nameiparent => ?_⟩
  dsimp only
  unfold Path.namex
  split_ifs
  · exact Path.walk_follows (hs.iget _) nameiparent ROOTINO hss name
  · exact Path.walk_follows (hs.iget _) nameiparent s.cwd hss name

/-- `nameiparent("/a//bb")` from the root directory, whose names fit their
slots. -/
theorem skipelem_splits_path_root :
    NamesFit rootDir ∧ (segments [47, 97, 47, 47, 98, 98]).map (·.take DIRSIZ) = ["a", "bb"].map nameBytes ∧
      Follows true (Path.namex rootDir [47, 97, 47, 47, 98, 98] true fun _ => 0)
        (Fs.walk true (iget rootDir ROOTINO) ROOTINO ["a", "bb"]) := by
  have hfit : NamesFit rootDir := by
    intro ip de hde
    by_cases hip : ip = ROOTINO
    · rw [show rootDir.inode ip = ⟨T_DIR, 0, 1, [⟨1, "."⟩, ⟨1, ".."⟩, ⟨0, ""⟩]⟩ from if_pos hip] at hde
      simp only [List.mem_cons, List.not_mem_nil, or_false] at hde
      rcases hde with rfl | rfl | rfl <;> decide +kernel
    · rw [show rootDir.inode ip = .free from if_neg hip] at hde
      exact absurd hde List.not_mem_nil
  have hseg : (segments [47, 97, 47, 47, 98, 98]).map (·.take DIRSIZ) = ["a", "bb"].map nameBytes := by
    decide +kernel
  exact ⟨hfit, hseg, (skipelem_splits_path _ _).2 rootDir ["a", "bb"] hfit hseg true⟩

end Fs

end Mkros
