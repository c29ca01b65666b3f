import Mkros.Kernel.Console
/-!
# The console's line discipline over every interleaving

`cons` holds two runs of bytes: from `r` to `w` the input committed to
readers (`queue`), and from `w` to `e` the line being edited (`line`). The
counters are `uint`s and `INPUT_BUF_SIZE` divides `2 ^ 32`, so their
wrap-around moves no byte. What the line discipline means them to do is
`View.intr`: the erase keys drop the line's last byte, `^U` the whole line,
and any other byte joins it, `\r` as `\n`, with a newline, `^D` or a full
buffer committing it. `console_intr` does just that to the two runs
(`consoleIntr_view`): the line never holds a newline, so `^U` stops at `w`,
and no erase reaches the committed input.

`console_read` takes the committed bytes from the front (`readLoop_spec`).
Over any interleaving (`Inv`, `console_line_discipline`): `0 ≤ w - r ≤ e - r
≤ INPUT_BUF_SIZE`; what the reads took, followed by what is still queued,
is what was committed; and what they copied out is what they took, less
every `^D` and less the bytes they lost.

A byte is lost when its `either_copyout` fails: `cons.r` has already moved
past it, and the loop breaks without putting it back, so no read returns it
(`console_read_loses_byte`). With every copy-out succeeding, a stretch
copies out exactly the bytes it took but `^D` (`consoleRead_copies_taken`).
-/

namespace Mkros

namespace Console

open CircBuf

/-! ## The line discipline -/

/-- What the console holds, as its line discipline means it: the committed
bytes no reader has taken yet, and the line being edited. -/
structure View where
  queue : List UInt8
  line : List UInt8
  deriving DecidableEq, Repr

/-- A view the buffer can hold. -/
structure View.Wf (v : View) : Prop where
  /-- At most `INPUT_BUF_SIZE` bytes. -/
  room : v.queue.length + v.line.length ≤ INPUT_BUF_SIZE
  /-- A newline would have committed the line. -/
  open_line : byte '\n' ∉ v.line

/-- An input byte, as the line discipline means it: `^U` erases the line,
an erase key its last byte, and any other byte but `0` joins it while there
is room, `\r` as `\n`; a newline, `^D` or a full buffer commits the line. -/
def View.intr (v : View) (c : UInt8) : View :=
  if c = C 'P' then v
  else if c = C 'U' then { v with line := [] }
  else if c = C 'H' ∨ c = 0x7f then { v with line := v.line.dropLast }
  else if c ≠ 0 ∧ v.queue.length + v.line.length < INPUT_BUF_SIZE then
    let c := if c = byte '\r' then byte '\n' else c
    if c = byte '\n' ∨ c = C 'D' ∨ v.queue.length + v.line.length + 1 = INPUT_BUF_SIZE then
      ⟨v.queue ++ (v.line ++ [c]), []⟩
    else { v with line := v.line ++ [c] }
  else v

namespace View

variable {v : View}

/-- **Committed input is never erased**: an input byte at most adds to it. -/
theorem intr_queue (c : UInt8) : ∃ l, (v.intr c).queue = v.queue ++ l := by
  unfold intr
  dsimp only
  generalize (if c = byte '\r' then byte '\n' else c) = c'
  split_ifs <;> first | exact ⟨[], (List.append_nil _).symm⟩ | exact ⟨_, rfl⟩

/-- An input byte keeps a view the buffer can hold. -/
theorem Wf.intr (h : v.Wf) (c : UInt8) : (v.intr c).Wf := by
  have hroom := h.room
  unfold View.intr
  dsimp only
  generalize (if c = byte '\r' then byte '\n' else c) = c'
  split_ifs with hP hU hH hstore hcommit
  · exact h
  · exact ⟨by simp only [List.length_nil]; omega, List.not_mem_nil⟩
  · refine ⟨?_, fun hmem => h.open_line (List.dropLast_subset _ hmem)⟩
    simp only [List.length_dropLast]
    omega
  · refine ⟨?_, List.not_mem_nil⟩
    simp only [List.length_append, List.length_nil, List.length_singleton]
    omega
  · -- the byte joins the line, and is no newline: it would have committed it
    refine ⟨?_, ?_⟩
    · simp only [List.length_append, List.length_singleton]
      omega
    · simp only [List.mem_append, List.mem_singleton, not_or]
      exact ⟨h.open_line, fun heq => hcommit (.inl heq.symm)⟩
  · exact h

end View

/-! ## The two runs of `cons.buf` -/

/-- How many committed bytes no reader has taken: `w - r`, as `uint`s. -/
def qlen (cons : Cons) : Nat := (cons.w - cons.r).toNat

/-- How long the line being edited is: `e - w`. -/
def llen (cons : Cons) : Nat := (cons.e - cons.w).toNat

/-- The committed bytes no reader has taken, oldest first. -/
def queue (cons : Cons) : List UInt8 := window cons.buf INPUT_BUF_SIZE cons.r.toNat (qlen cons)

/-- The line being edited. -/
def line (cons : Cons) : List UInt8 := window cons.buf INPUT_BUF_SIZE cons.w.toNat (llen cons)

/-- What `cons` holds, as the line discipline sees it. -/
def view (cons : Cons) : View := ⟨queue cons, line cons⟩

/-- `cons` holds a view the buffer can hold. -/
def Cons.Wf (cons : Cons) : Prop := (view cons).Wf

theorem INPUT_BUF_SIZE_dvd : INPUT_BUF_SIZE ∣ 2 ^ 32 := ⟨2 ^ 25, by decide⟩

theorem slot_eq (x : UInt32) : slot x = x.toNat % INPUT_BUF_SIZE := by
  rw [slot, UInt32.toNat_mod]
  rfl

variable {cons : Cons}

@[simp] theorem length_queue : (queue cons).length = qlen cons := length_window

@[simp] theorem length_line : (line cons).length = llen cons := length_window

namespace Cons.Wf

theorem room' (h : cons.Wf) : qlen cons + llen cons ≤ INPUT_BUF_SIZE := by
  simpa [view] using h.room

end Cons.Wf

/-- `e - r` is the two runs together, while they fit the buffer. -/
theorem sub_toNat_of_room (hroom : qlen cons + llen cons ≤ INPUT_BUF_SIZE) :
    (cons.e - cons.r).toNat = qlen cons + llen cons := by
  unfold qlen llen INPUT_BUF_SIZE at *
  rw [Nat.add_comm]
  exact sub_toNat_add_sub_toNat (by omega)

/-! ## What `console_intr` and `console_read` do to the runs -/

/-- The line ends `llen` cells past `w`. -/
theorem slot_e : slot cons.e = (cons.w.toNat + llen cons) % INPUT_BUF_SIZE := by
  rw [slot_eq, toNat_mod_eq_add_sub INPUT_BUF_SIZE_dvd cons.e cons.w]
  rfl

/-- **An erase drops the line's last byte**, from a line that is not empty. -/
theorem view_erase (hne : cons.e ≠ cons.w) :
    view { cons with e := cons.e - 1 } = ⟨queue cons, (line cons).dropLast⟩ := by
  have hpos : 0 < llen cons := Nat.pos_of_ne_zero (mt eq_iff_sub_toNat_eq_zero.mpr (Ne.symm hne))
  have hllen : llen { cons with e := cons.e - 1 } = llen cons - 1 := sub_one_sub_toNat hpos
  obtain ⟨k, hk⟩ := Nat.exists_eq_add_of_lt hpos
  rw [Nat.zero_add] at hk
  rw [view, View.mk.injEq]
  refine ⟨rfl, ?_⟩
  rw [line, line, hllen, hk, window_succ, List.dropLast_concat, Nat.add_sub_cancel]

/-- `^U` empties the line. -/
theorem view_kill : view { cons with e := cons.w } = ⟨queue cons, []⟩ := by
  have hllen : llen { cons with e := cons.w } = 0 := by simp [llen]
  rw [view, line, hllen, window_zero]
  rfl

/-- A store makes the line one longer, while the buffer has room. -/
theorem llen_store (hroom : qlen cons + llen cons < INPUT_BUF_SIZE) {buf : Nat → UInt8} :
    llen { cons with buf, e := cons.e + 1 } = llen cons + 1 := by
  show (cons.e + 1 - cons.w).toNat = (cons.e - cons.w).toNat + 1
  exact sub_toNat_add_one (by unfold qlen llen INPUT_BUF_SIZE at hroom; omega)

/-- **A store adds the byte to the line**, while the buffer has room. -/
theorem view_store (hroom : qlen cons + llen cons < INPUT_BUF_SIZE) (c : UInt8) :
    view { cons with buf := Function.update cons.buf (slot cons.e) c, e := cons.e + 1 } =
      ⟨queue cons, line cons ++ [c]⟩ := by
  have hsub := sub_toNat_of_room (Nat.le_of_lt hroom)
  rw [view, View.mk.injEq]
  constructor
  · -- the cell past the line is past the committed bytes too
    have hcell : slot cons.e = (cons.r.toNat + (qlen cons + llen cons)) % INPUT_BUF_SIZE := by
      rw [slot_eq, toNat_mod_eq_add_sub INPUT_BUF_SIZE_dvd cons.e cons.r, hsub]
    show window _ INPUT_BUF_SIZE cons.r.toNat (qlen cons) = window cons.buf INPUT_BUF_SIZE cons.r.toNat (qlen cons)
    refine window_congr fun i hi => ?_
    rw [hcell]
    exact Function.update_of_ne (mod_ne_of_lt (by omega) hroom) ..
  · show window _ INPUT_BUF_SIZE cons.w.toNat (llen { cons with e := cons.e + 1 }) = _
    rw [llen_store hroom, slot_e]
    exact window_push (by omega) c

/-- **A commit moves the line to the end of the committed input.** -/
theorem view_commit (hroom : qlen cons + llen cons ≤ INPUT_BUF_SIZE) :
    view { cons with w := cons.e } = ⟨queue cons ++ line cons, []⟩ := by
  have hqlen : qlen { cons with w := cons.e } = qlen cons + llen cons := by
    rw [qlen, sub_toNat_of_room hroom]
  have hllen : llen { cons with w := cons.e } = 0 := by simp [llen]
  rw [view, View.mk.injEq]
  refine ⟨?_, by rw [line, hllen, window_zero]⟩
  rw [queue, hqlen, window_append, line]
  congr 1
  exact window_start (toNat_mod_eq_add_sub INPUT_BUF_SIZE_dvd cons.w cons.r).symm

/-- **A take removes the first committed byte**, while there is one; the
line stays. -/
theorem queue_take (hpos : 0 < qlen cons) :
    queue cons = cons.buf (slot cons.r) :: queue { cons with r := cons.r + 1 } := by
  have hqlen : qlen { cons with r := cons.r + 1 } = qlen cons - 1 := sub_toNat_sub_one hpos
  obtain ⟨k, hk⟩ := Nat.exists_eq_add_of_lt hpos
  rw [Nat.zero_add] at hk
  have hr : (cons.r + 1).toNat = (cons.r.toNat + 1) % 2 ^ 32 := by
    rw [UInt32.toNat_add, UInt32.toNat_one]
  rw [queue, queue, hqlen, hk, Nat.add_sub_cancel, window_succ_left, slot_eq]
  show _ = _ :: window cons.buf INPUT_BUF_SIZE (cons.r + 1).toNat k
  rw [hr, window_mod INPUT_BUF_SIZE_dvd]

/-- Moving `r` leaves the line alone. -/
@[simp] theorem line_set_r (r : UInt32) : line { cons with r } = line cons := rfl

/-- The `^U` loop, on a line with no newline, runs back to `w`, echoing a
`BACKSPACE` for each byte. -/
theorem killLine_spec (hline : byte '\n' ∉ line cons) :
    killLine (llen cons) cons = ({ cons with e := cons.w }, List.replicate (llen cons) BACKSPACE) := by
  -- induction on the line's length, which each pass shortens by one
  generalize hk : llen cons = k
  induction k generalizing cons with
  | zero =>
    have he : cons.e = cons.w := (eq_iff_sub_toNat_eq_zero.mpr hk).symm
    obtain ⟨buf, r, w, e⟩ := cons
    dsimp only at he
    subst he
    rfl
  | succ k ih =>
    have hne : cons.e ≠ cons.w := fun he => by simp [llen, he] at hk
    -- the byte before `e` is the line's last
    have hlast : cons.buf (slot (cons.e - 1)) ≠ byte '\n' := by
      have hllen : (cons.e - 1 - cons.w).toNat = k := by
        rw [sub_one_sub_toNat (by rw [← llen, hk]; omega), ← llen, hk, Nat.add_sub_cancel]
      have hcell : slot (cons.e - 1) = (cons.w.toNat + k) % INPUT_BUF_SIZE := by
        rw [slot_eq, toNat_mod_eq_add_sub INPUT_BUF_SIZE_dvd (cons.e - 1) cons.w, hllen]
      rw [line, hk, window_succ] at hline
      rw [hcell]
      exact fun heq => hline (List.mem_append_right _ (heq ▸ List.mem_singleton_self _))
    have herase := view_erase hne
    have hline' : byte '\n' ∉ line { cons with e := cons.e - 1 } := by
      rw [view, View.mk.injEq] at herase
      rw [herase.2]
      exact fun hmem => hline (List.dropLast_subset _ hmem)
    have hllen' : llen { cons with e := cons.e - 1 } = k := by
      rw [llen, sub_one_sub_toNat (by rw [← llen, hk]; omega), ← llen, hk, Nat.add_sub_cancel]
    rw [killLine, if_pos ⟨hne, hlast⟩, ih hline' hllen', List.replicate_succ]

/-- **`console_intr` is the line discipline** on what `cons` holds. -/
theorem consoleIntr_view (h : cons.Wf) (c : UInt8) : view (consoleIntr cons c).1 = (view cons).intr c := by
  have hroom := h.room'
  have hsub := sub_toNat_of_room hroom
  have hlen : (view cons).queue.length + (view cons).line.length = (cons.e - cons.r).toNat := by
    rw [hsub]
    exact congrArg₂ (· + ·) length_queue length_line
  have hnext : (cons.e + 1 - cons.r).toNat = (cons.e - cons.r).toNat + 1 :=
    sub_toNat_add_one (by rw [hsub]; unfold INPUT_BUF_SIZE at hroom; omega)
  unfold consoleIntr View.intr
  dsimp only
  rw [hlen, hnext]
  generalize (if c = byte '\r' then byte '\n' else c) = c'
  split_ifs with hP hU hH hne hstore hcommit
  · rfl
  · rw [show (cons.e - cons.w).toNat = llen cons from rfl, killLine_spec h.open_line]
    exact view_kill
  · exact view_erase hne
  · -- at `w` there is no line to erase
    have hllen : llen cons = 0 := eq_iff_sub_toNat_eq_zero.mp (Decidable.of_not_not hne).symm
    have hline : line cons = [] := List.eq_nil_of_length_eq_zero (by rw [length_line, hllen])
    show view cons = ⟨queue cons, (line cons).dropLast⟩
    rw [view, hline]
    rfl
  · -- the byte joins the line, and commits it
    have hlt : qlen cons + llen cons < INPUT_BUF_SIZE := hsub ▸ hstore.2
    have hstored := view_store hlt c'
    rw [view, View.mk.injEq] at hstored
    refine (@view_commit { cons with buf := Function.update cons.buf (slot cons.e) c', e := cons.e + 1 } ?_).trans ?_
    · show qlen cons + llen _ ≤ INPUT_BUF_SIZE
      rw [llen_store hlt]
      exact hlt
    · rw [hstored.1, hstored.2]
      rfl
  · -- the byte joins the line
    exact view_store (hsub ▸ hstore.2) c'
  · rfl

theorem Cons.Wf.intr (h : cons.Wf) (c : UInt8) : (consoleIntr cons c).1.Wf := by
  unfold Cons.Wf
  rw [consoleIntr_view h]
  exact View.Wf.intr h c

/-- `console_intr` leaves `r` alone. -/
theorem consoleIntr_r (h : cons.Wf) (c : UInt8) : (consoleIntr cons c).1.r = cons.r := by
  unfold consoleIntr
  dsimp only
  split_ifs
  all_goals first
    | rfl
    | rw [show (cons.e - cons.w).toNat = llen cons from rfl, killLine_spec h.open_line]

/-- Where `r` stays and `w` moves on, the committed bytes grow by those from
the old `w` to the new. -/
theorem queue_extend {cons' : Cons} (hr : cons'.r = cons.r) (hle : qlen cons ≤ qlen cons') :
    queue cons' = window cons'.buf INPUT_BUF_SIZE cons.r.toNat (qlen cons) ++
      window cons'.buf INPUT_BUF_SIZE cons.w.toNat (cons'.w - cons.w).toNat := by
  have hqlen : qlen cons' = qlen cons + (cons'.w - cons.w).toNat := by
    unfold qlen at *
    rw [hr] at hle ⊢
    rw [sub_toNat_of_le hle]
    omega
  rw [queue, hqlen, window_append, hr]
  congr 1
  exact window_start (toNat_mod_eq_add_sub INPUT_BUF_SIZE_dvd cons.w cons.r).symm

/-- **`console_intr` commits the bytes from the old `w` to the new**, after
those committed before. -/
theorem queue_intr (h : cons.Wf) (c : UInt8) :
    queue (consoleIntr cons c).1 = queue cons ++
      window (consoleIntr cons c).1.buf INPUT_BUF_SIZE cons.w.toNat ((consoleIntr cons c).1.w - cons.w).toNat := by
  obtain ⟨l, hl⟩ := @View.intr_queue (view cons) c
  rw [← consoleIntr_view h] at hl
  change queue (consoleIntr cons c).1 = queue cons ++ l at hl
  have hle : qlen cons ≤ qlen (consoleIntr cons c).1 := by
    rw [← length_queue, ← @length_queue (consoleIntr cons c).1, hl, List.length_append]
    omega
  have hsplit := queue_extend (consoleIntr_r h c) hle
  rw [hl] at hsplit ⊢
  -- the first `qlen` bytes are the ones committed before
  have hsame := List.append_inj hsplit (by rw [length_queue, length_window])
  rw [hsame.2]

/-! ## `console_read` -/

section Read

variable {dst : Nat → Bool} {killed : Bool} {target : Int}

/-- **The read loop takes from the front**: it moves only `r`; what it took,
then what is still committed, is what was committed; and it copies out what it
took but `^D`, up to the first byte whose copy-out fails, so all of it where
none fails. -/
theorem readLoop_spec {fuel : Nat} {cons cons' : Cons} {n : Int} {took copied : List UInt8} {e : Ends}
    (hres : readLoop dst killed target fuel cons n = (cons', took, copied, e)) :
    cons' = { cons with r := cons'.r } ∧ took ++ queue cons' = queue cons ∧
      copied <+: took.filter (· ≠ C 'D') ∧ ((∀ i, dst i = true) → copied = took.filter (· ≠ C 'D')) := by
  induction fuel generalizing cons n cons' took copied e with
  | zero =>
    cases hres
    exact ⟨rfl, rfl, List.prefix_refl _, fun _ => rfl⟩
  | succ fuel ih =>
    unfold readLoop at hres
    dsimp only at hres
    split_ifs at hres with hn hrw hkill hD hlt hdst hnl
    -- nothing committed, or nothing wanted: the stretch ends where it is
    any_goals (cases hres; exact ⟨rfl, rfl, List.prefix_refl _, fun _ => rfl⟩)
    all_goals
      have htake := queue_take (Nat.pos_of_ne_zero (mt eq_iff_sub_toNat_eq_zero.mpr hrw))
    · -- `^D` after some bytes: put back
      cases hres
      refine ⟨rfl, ?_, List.prefix_refl _, fun _ => rfl⟩
      show queue { cons with r := cons.r + 1 - 1 } = queue cons
      rw [UInt32.add_sub_cancel]
    · -- `^D` first: taken, and not copied out
      cases hres
      refine ⟨rfl, htake.symm, ?_, fun _ => ?_⟩ <;> simp [hD]
    · -- a newline: taken and copied out, and the line is done
      cases hres
      have hkeep : [cons.buf (slot cons.r)].filter (· ≠ C 'D') = [cons.buf (slot cons.r)] :=
        List.filter_cons_of_pos (decide_eq_true hD)
      exact ⟨rfl, htake.symm, hkeep.symm ▸ List.prefix_refl _, fun _ => hkeep.symm⟩
    · -- any other byte: taken and copied out, and on to the next
      generalize hrec : readLoop dst killed target fuel { cons with r := cons.r + 1 } (n - 1) = res at hres
      obtain ⟨cons₁, took₁, copied₁, e₁⟩ := res
      cases hres
      obtain ⟨ih₁, ih₂, ih₃, ih₄⟩ := ih hrec
      have hkeep : (cons.buf (slot cons.r) :: took₁).filter (· ≠ C 'D') =
          cons.buf (slot cons.r) :: took₁.filter (· ≠ C 'D') :=
        List.filter_cons_of_pos (decide_eq_true hD)
      refine ⟨ih₁, ?_, ?_, fun hall => ?_⟩
      · rw [List.cons_append, ih₂, htake]
      · rw [hkeep]
        exact List.prefix_cons_inj _ |>.mpr ih₃
      · rw [hkeep, ih₄ hall]
    · -- `either_copyout` failed: taken, and lost
      cases hres
      exact ⟨rfl, htake.symm, List.nil_prefix, fun hall => absurd (hall _) hdst⟩

/-- What the read loop leaves, `cons` still holds what its buffer can. -/
theorem Cons.Wf.read (h : cons.Wf) {cons' : Cons} (hcons : cons' = { cons with r := cons'.r })
    (hle : (queue cons').length ≤ (queue cons).length) : cons'.Wf := by
  have hroom : (queue cons).length + (line cons).length ≤ INPUT_BUF_SIZE := h.room
  have hline : line cons' = line cons := by
    rw [hcons]
    rfl
  refine ⟨?_, ?_⟩
  · show (queue cons').length + (line cons').length ≤ INPUT_BUF_SIZE
    rw [hline]
    omega
  · show byte '\n' ∉ line cons'
    rw [hline]
    exact h.open_line

end Read

/-! ## Every interleaving -/

variable {τ : Type} [DecidableEq τ]

/-- **The console's invariant.** -/
structure Inv (s : Sys τ) : Prop where
  /-- `cons` holds what its buffer can. -/
  cons : s.cons.Wf
  /-- What was taken, then what is still committed, is what was committed. -/
  fifo : s.took ++ queue s.cons = s.committed
  /-- What was copied out is what was taken but `^D`, less what was lost. -/
  delivered : s.delivered.Sublist (s.took.filter (· ≠ C 'D'))
  lost : (s.took.filter (· ≠ C 'D')).length = s.delivered.length + s.lost.length

section Inv

variable {s : Sys τ}

omit [DecidableEq τ] in
theorem Inv.runIntr (h : Inv s) (c : UInt8) : Inv (s.runIntr c) := by
  have hq := queue_intr h.cons c
  have hwf := h.cons.intr c
  generalize hi : consoleIntr s.cons c = i at hq hwf
  obtain ⟨cons, echo⟩ := i
  simp only [Sys.runIntr, hi]
  refine ⟨hwf, ?_, h.delivered, h.lost⟩
  rw [hq, ← List.append_assoc, h.fifo]

theorem Inv.runRead (h : Inv s) (p : τ) (dst : Nat → Bool) (killed : Bool) (target n : Int) :
    Inv (s.runRead p dst killed target n) := by
  generalize hres : consoleRead s.cons dst killed target n = res
  obtain ⟨cons, took, copied, e⟩ := res
  obtain ⟨hcons, hfifo, hprefix, -⟩ := readLoop_spec hres
  simp only [Sys.runRead, hres]
  have hle : (queue cons).length ≤ (queue s.cons).length := by
    rw [← hfifo, List.length_append]
    omega
  refine ⟨h.cons.read hcons hle, ?_, ?_, ?_⟩
  · rw [List.append_assoc, hfifo, h.fifo]
  · rw [List.filter_append]
    exact h.delivered.append hprefix.sublist
  · -- the bytes taken but `^D` split into those copied out and those lost
    have hcopied := hprefix.length_le
    simp only [List.filter_append, List.length_append, List.length_drop]
    rw [h.lost]
    omega

/-- **One step keeps the invariant.** -/
theorem Inv.step (h : Inv s) {c : Call τ} {s' : Sys τ} (hstep : Console.step s c = some s') : Inv s' := by
  cases c with
  | intr c =>
    cases hstep
    exact h.runIntr c
  | read p dst n killed =>
    simp only [Console.step] at hstep
    split at hstep
    · cases hstep
      exact h.runRead ..
    · cases hstep
  | wake p killed =>
    simp only [Console.step] at hstep
    split at hstep
    · cases hstep
      exact h.runRead ..
    · cases hstep

end Inv

omit [DecidableEq τ] in
theorem inv_init : Inv (Sys.init : Sys τ) where
  cons := show (view ⟨fun _ => 0, 0, 0, 0⟩).Wf from ⟨by decide, by decide⟩
  fifo := show [] ++ queue ⟨fun _ => 0, 0, 0, 0⟩ = [] by decide
  delivered := List.Sublist.slnil
  lost := rfl

theorem reach_inv {s : Sys τ} (h : Reach s) : Inv s := by
  induction h with
  | init => exact inv_init
  | step c _ hstep ih => exact ih.step hstep

/-- **The console's line discipline, over any interleaving of input and
reads**: `0 ≤ w - r ≤ e - r ≤ INPUT_BUF_SIZE`; every input byte acts on
what `cons` holds as the line discipline means it; what the reads took, then
what is still committed, is what was committed; and what they copied out is
what they took but `^D`, less the bytes they lost. -/
theorem console_line_discipline {s : Sys τ} (h : Reach s) :
    (s.cons.w - s.cons.r).toNat ≤ (s.cons.e - s.cons.r).toNat ∧ (s.cons.e - s.cons.r).toNat ≤ INPUT_BUF_SIZE ∧
      (∀ c, view (consoleIntr s.cons c).1 = (view s.cons).intr c) ∧
      s.took ++ queue s.cons = s.committed ∧
      s.delivered.Sublist (s.took.filter (· ≠ C 'D')) ∧
      (s.took.filter (· ≠ C 'D')).length = s.delivered.length + s.lost.length ∧
      (s.lost = [] → s.delivered = s.took.filter (· ≠ C 'D')) := by
  have hinv := reach_inv h
  have hroom := hinv.cons.room'
  have hsub := sub_toNat_of_room hroom
  refine ⟨?_, ?_, fun c => consoleIntr_view hinv.cons c, hinv.fifo, hinv.delivered, hinv.lost,
    fun hlost => ?_⟩
  · rw [hsub]
    exact Nat.le_add_right _ _
  · rw [hsub]
    exact hroom
  · -- with nothing lost, what was copied out is all that was taken but `^D`
    exact hinv.delivered.eq_of_length (by rw [hinv.lost, hlost, List.length_nil, Nat.add_zero])

/-- `a` typed, then Enter: the line `a\n` is committed. -/
def lineTyped : Sys Unit := ((Sys.init : Sys Unit).runIntr (byte 'a')).runIntr (byte '\r')

/-- Then `console_read` of `10` bytes into a buffer whose first
`either_copyout` fails. -/
def lineRefused : Sys Unit := lineTyped.runRead () (fun i => i != 0) false 10 10

/-- Then `console_read` of `10` bytes that `either_copyout` takes. -/
def lineReadAgain : Sys Unit := lineRefused.runRead () (fun _ => true) false 10 10

theorem reach_lineTyped : Reach lineTyped :=
  Reach.step (.intr (byte '\r')) (Reach.step (.intr (byte 'a')) Reach.init rfl) rfl

theorem console_line_discipline_typed :
    Reach lineTyped ∧ lineTyped.took ++ queue lineTyped.cons = [byte 'a', byte '\n'] :=
  ⟨reach_lineTyped, (console_line_discipline reach_lineTyped).2.2.2.1.trans (by decide +kernel)⟩

/-- **A failed `either_copyout` loses a byte.** After `a` and Enter, the
committed input is `a\n`; a `console_read` whose first copy-out fails returns
`0`, having taken `a`, and the next returns the newline alone: `a` is in no
read's bytes. -/
theorem console_read_loses_byte :
    Reach lineReadAgain ∧ lineTyped.committed = [byte 'a', byte '\n'] ∧
      (consoleRead lineTyped.cons (fun i => i != 0) false 10 10).2.2.2 = .ret 0 ∧
      lineReadAgain.took = [byte 'a', byte '\n'] ∧ queue lineReadAgain.cons = [] ∧
      lineReadAgain.delivered = [byte '\n'] ∧
      lineReadAgain.delivered ≠ lineReadAgain.committed.filter (· ≠ C 'D') := by
  have h₂ : Reach lineRefused := Reach.step (.read () (fun i => i != 0) 10 false) reach_lineTyped rfl
  have h₃ : Reach lineReadAgain := Reach.step (.read () (fun _ => true) 10 false) h₂ rfl
  exact ⟨h₃, by decide +kernel, by decide +kernel, by decide +kernel, by decide +kernel, by decide +kernel,
    by decide +kernel⟩

end Console

end Mkros
