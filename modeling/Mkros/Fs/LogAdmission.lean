import Mkros.Fs.Log
import Mkros.Lib.Budget
import Mathlib.Algebra.Order.BigOperators.Group.Finset
import Mathlib.Algebra.BigOperators.Ring.Finset
/-!
# Admission to the log

`begin_op` admits an operation only while the log has room for what every
admitted operation may still write, `MAXOPBLOCKS` blocks each, beside the
`lh.n` blocks the group holds. The operations of many threads run
interleaved; the last `end_op` starts the commit, and `begin_op` waits while
it runs.

The model is `log.c`'s log with an operation state for each thread: outside
an operation, or inside one with the blocks it has passed to `log_write`. Its
invariant (`Inv`) books what each operation may still add: `lh.n` plus every
active operation's `MAXOPBLOCKS` less what it has logged stays within
`LOGSIZE`. From any state that keeps it, over any interleaving in which an
operation calls `log_write` only while it has logged fewer than
`MAXOPBLOCKS` distinct blocks, no call panics, the header holds each block
once, and the header fits the log as crash atomicity asks (`reach_safe`).
-/

namespace Mkros

namespace Fs

open Finset

/-- `begin_op`: the log with one more outstanding operation, or `none` while
the caller sleeps. -/
def beginOp (log : Log) : Option Log :=
  if log.committing then none
  -- this op might exhaust log space; wait for commit
  else if LOGSIZE < log.lh.n + (log.outstanding + 1) * MAXOPBLOCKS then none
  else some { log with outstanding := log.outstanding + 1 }

/-- `end_op`: the last operation out starts the commit. -/
def endOp (log : Log) : Except String Log :=
  let log := { log with outstanding := log.outstanding - 1 }
  if log.committing then .error "log.committing"
  else if log.outstanding = 0 then .ok { log with committing := true }
  else .ok log

/-- The end of the commit `end_op` starts: `commit` empties the group and
`committing` is cleared. -/
def commitDone (log : Log) : Log := { cleared log with committing := false }

/-- Where a thread is: outside an operation, or inside one with the blocks it
has passed to `log_write`. -/
inductive OpState
  | idle
  | active (written : List Nat)
  deriving DecidableEq

/-- What an operation may still add to the group. -/
def OpState.reserve : OpState → Nat
  | .idle => 0
  | .active w => MAXOPBLOCKS - w.length

/-- The blocks an operation has logged. -/
def OpState.logged : OpState → List Nat
  | .idle => []
  | .active w => w

/-- `1` inside an operation. -/
def OpState.weight : OpState → Nat
  | .idle => 0
  | .active _ => 1

@[simp] theorem OpState.reserve_idle : OpState.idle.reserve = 0 := rfl

@[simp] theorem OpState.reserve_active (w : List Nat) :
    (OpState.active w).reserve = MAXOPBLOCKS - w.length := rfl

@[simp] theorem OpState.weight_idle : OpState.idle.weight = 0 := rfl

@[simp] theorem OpState.weight_active (w : List Nat) : (OpState.active w).weight = 1 := rfl

/-- An operation with no share of the outstanding count is outside one. -/
theorem OpState.eq_idle_of_weight {o : OpState} (h : o.weight = 0) : o = .idle := by
  cases o with
  | idle => rfl
  | active w => simp only [OpState.weight_active, Nat.one_ne_zero] at h

/-- The log and each thread's operation. -/
structure Sys (τ : Type) where
  log : Log
  op : τ → OpState

/-- A call one thread makes, or the end of the commit. -/
inductive Call (τ : Type)
  | beginOp (t : τ)
  | logWrite (t : τ) (blockno : Nat)
  | endOp (t : τ)
  | commit

variable {τ : Type}

/-- An operation calls `log_write` only while it has logged fewer than
`MAXOPBLOCKS` blocks. -/
def Call.Fits (s : Sys τ) : Call τ → Prop
  | .logWrite t _ => (s.op t).logged.length < MAXOPBLOCKS
  | _ => True

instance (s : Sys τ) (c : Call τ) : Decidable (c.Fits s) := by
  cases c <;> unfold Call.Fits <;> infer_instance

section Run

variable [DecidableEq τ]

/-- One call: `none` while the caller sleeps, or where its thread does not
make it; an `error` for a panic. -/
def step (s : Sys τ) : Call τ → Except String (Option (Sys τ))
  | .beginOp t =>
    match s.op t with
    | .idle => .ok ((beginOp s.log).map fun log => ⟨log, Function.update s.op t (.active [])⟩)
    | .active _ => .ok none
  | .logWrite t b =>
    match s.op t with
    | .active w =>
      (logWrite s.log b).map fun log =>
        some ⟨log, Function.update s.op t (.active (if b ∈ w then w else b :: w))⟩
    | .idle => .ok none
  | .endOp t =>
    match s.op t with
    | .active _ => (endOp s.log).map fun log => some ⟨log, Function.update s.op t .idle⟩
    | .idle => .ok none
  | .commit => .ok (if s.log.committing then some ⟨commitDone s.log, s.op⟩ else none)

/-- The states a run of fitting calls reaches from `s₀`. -/
inductive Reach (s₀ : Sys τ) : Sys τ → Prop
  | init : Reach s₀ s₀
  | step {s s' : Sys τ} (c : Call τ) : Reach s₀ s → c.Fits s → step s c = .ok (some s') →
      Reach s₀ s'

/-- What every active operation has survives one thread's change of state,
when the new state has it too. -/
theorem forall_active_update {t : τ} {op : τ → OpState} {x : OpState} {P : List Nat → Prop}
    (hold : ∀ u, u ≠ t → ∀ w, op u = .active w → P w) (hnew : ∀ w, x = .active w → P w) :
    ∀ u w, Function.update op t x u = .active w → P w := by
  intro u w hu
  by_cases hut : u = t
  · subst hut
    rw [Function.update_self] at hu
    exact hnew w hu
  · rw [Function.update_of_ne hut] at hu
    exact hold u hut w hu

end Run

/-! ## `log_write` -/

/-- The header after `log_write` appends `b`. -/
def LogHeader.push (lh : LogHeader) (b : Nat) : LogHeader :=
  ⟨lh.n + 1, fun j => if j = lh.n then b else lh.block j⟩

/-- The header names each block once. -/
def LogHeader.Distinct (lh : LogHeader) : Prop :=
  ∀ i < lh.n, ∀ j < lh.n, lh.block i = lh.block j → i = j

section Header

variable {lh : LogHeader} {b c : Nat}

theorem logged_push_self : Logged (lh.push b) b :=
  ⟨lh.n, Nat.lt_succ_self _, if_pos rfl⟩

theorem logged_push_of_logged (h : Logged lh c) : Logged (lh.push b) c := by
  obtain ⟨i, hi, hic⟩ := h
  refine ⟨i, Nat.lt_succ_of_lt hi, ?_⟩
  show (if i = lh.n then b else lh.block i) = c
  rw [if_neg (Nat.ne_of_lt hi)]
  exact hic

/-- Appending a block the header lacks keeps it free of duplicates. -/
theorem distinct_push (h : lh.Distinct) (hb : ¬Logged lh b) : (lh.push b).Distinct := by
  intro i hi j hj hij
  simp only [LogHeader.push] at hi hj hij
  by_cases hin : i = lh.n <;> by_cases hjn : j = lh.n
  · omega
  · rw [if_pos hin, if_neg hjn] at hij
    exact absurd ⟨j, by omega, hij.symm⟩ hb
  · rw [if_neg hin, if_pos hjn] at hij
    exact absurd ⟨i, by omega, hij⟩ hb
  · rw [if_neg hin, if_neg hjn] at hij
    exact h i (by omega) j (by omega) hij

end Header

section LogWrite

variable {log : Log} {b : Nat}

/-- `log_write` of a block the group holds changes nothing (absorption). -/
theorem logWrite_of_logged (hfit : ¬(LOGSIZE ≤ log.lh.n ∨ log.size ≤ log.lh.n + 1))
    (hout : ¬log.outstanding < 1) (hb : Logged log.lh b) : logWrite log b = .ok log := by
  obtain ⟨i, hi, hib⟩ := hb
  have hfind : ((List.range log.lh.n).find? fun i => log.lh.block i = b).isSome :=
    List.find?_isSome.mpr ⟨i, List.mem_range.mpr hi, by simpa using hib⟩
  obtain ⟨j, hj⟩ := Option.isSome_iff_exists.mp hfind
  have hjn : j < log.lh.n := List.mem_range.mp (List.mem_of_find?_eq_some hj)
  have hjb : log.lh.block j = b := by simpa using List.find?_some hj
  simp only [logWrite, if_neg hfit, if_neg hout, hj, Option.getD_some, Nat.ne_of_lt hjn, if_false]
  -- the slot found already holds the block
  congr
  funext k
  split
  · subst k
    exact hjb.symm
  · rfl

/-- `log_write` of a new block appends it to the group. -/
theorem logWrite_of_not_logged (hfit : ¬(LOGSIZE ≤ log.lh.n ∨ log.size ≤ log.lh.n + 1))
    (hout : ¬log.outstanding < 1) (hb : ¬Logged log.lh b) :
    logWrite log b = .ok { log with lh := log.lh.push b } := by
  have hfind : (List.range log.lh.n).find? (fun i => log.lh.block i = b) = none :=
    List.find?_eq_none.mpr fun i hi heq => hb ⟨i, List.mem_range.mp hi, by simpa using heq⟩
  simp only [logWrite, if_neg hfit, if_neg hout, hfind, Option.getD_none, if_true]
  rfl

end LogWrite

/-! ## The invariant -/

variable [Fintype τ]

/-- What the log keeps over every interleaving. -/
structure Inv (s : Sys τ) : Prop where
  size : LOGSIZE + 1 ≤ s.log.size
  outstanding : s.log.outstanding = ∑ t, (s.op t).weight
  room : s.log.lh.n + ∑ t, (s.op t).reserve ≤ LOGSIZE
  idle_of_committing : s.log.committing = true → ∀ t, s.op t = .idle
  written : ∀ t w, s.op t = .active w →
    w.Nodup ∧ w.length ≤ MAXOPBLOCKS ∧ ∀ b ∈ w, Logged s.log.lh b
  distinct : s.log.lh.Distinct

section Steps

variable {s : Sys τ} {t : τ}

theorem reserve_le_weight (o : OpState) : o.reserve ≤ MAXOPBLOCKS * o.weight := by
  cases o with
  | idle => exact Nat.le_refl 0
  | active w => simp only [OpState.reserve_active, OpState.weight_active, Nat.mul_one, Nat.sub_le]

theorem share_le_sum (f : OpState → Nat) (s : Sys τ) (t : τ) : f (s.op t) ≤ ∑ u, f (s.op u) :=
  single_le_sum (fun u _ => Nat.zero_le (f (s.op u))) (mem_univ t)

/-- Every operation's reservation together is within `MAXOPBLOCKS` per
outstanding operation. -/
theorem Inv.reserve_le (h : Inv s) : ∑ u, (s.op u).reserve ≤ s.log.outstanding * MAXOPBLOCKS := by
  calc ∑ u, (s.op u).reserve
      ≤ ∑ u, MAXOPBLOCKS * (s.op u).weight := sum_le_sum fun u _ => reserve_le_weight _
    _ = s.log.outstanding * MAXOPBLOCKS := by rw [← mul_sum, ← h.outstanding, Nat.mul_comm]

/-- No commit runs while an operation is active. -/
theorem Inv.not_committing (h : Inv s) {w : List Nat} (ht : s.op t = .active w) :
    s.log.committing = false := by
  cases hc : s.log.committing with
  | false => rfl
  | true => rw [h.idle_of_committing hc t] at ht; cases ht

/-- The group fits the log with its header, as crash atomicity needs. -/
theorem Inv.hroom (h : Inv s) : s.log.lh.n + 1 ≤ s.log.size := by
  have := h.room
  have := h.size
  omega

/-- A `log_write` by an operation that has logged fewer than `MAXOPBLOCKS`
blocks passes both of `log_write`'s checks. -/
theorem Inv.logWrite_checks (h : Inv s) {w : List Nat} (ht : s.op t = .active w)
    (hw : w.length < MAXOPBLOCKS) :
    ¬(LOGSIZE ≤ s.log.lh.n ∨ s.log.size ≤ s.log.lh.n + 1) ∧ ¬s.log.outstanding < 1 := by
  have hres := share_le_sum OpState.reserve s t
  have hwt := share_le_sum OpState.weight s t
  rw [ht, OpState.reserve_active] at hres
  rw [ht, OpState.weight_active] at hwt
  have hroom := h.room
  have hsize := h.size
  have ho := h.outstanding
  omega

/-- **The end of a commit.** It empties the group, with no operation active. -/
theorem Inv.commit (h : Inv s) (hc : s.log.committing = true) : Inv ⟨commitDone s.log, s.op⟩ := by
  have hidle := h.idle_of_committing hc
  have hr : ∑ u, (s.op u).reserve = 0 := sum_eq_zero fun u _ => by rw [hidle u]; rfl
  refine ⟨h.size, h.outstanding, ?_, (fun hc' => nomatch hc'), fun u w hu => ?_,
    fun i hi => absurd hi (Nat.not_lt_zero i)⟩
  · show 0 + _ ≤ LOGSIZE
    rw [hr]
    exact Nat.zero_le _
  · rw [hidle u] at hu
    cases hu

variable [DecidableEq τ]

theorem Inv.beginOp (h : Inv s) (ht : s.op t = .idle) {log : Log} (hb : beginOp s.log = some log) :
    Inv ⟨log, Function.update s.op t (.active [])⟩ := by
  simp only [Fs.beginOp] at hb
  split at hb
  · cases hb
  rename_i hc
  split at hb
  · cases hb
  rename_i hfree
  cases hb
  have hw := Budget.sum_update_add OpState.weight s.op t (.active [])
  have hr := Budget.sum_update_add OpState.reserve s.op t (.active [])
  simp only [ht, OpState.weight_idle, OpState.weight_active, OpState.reserve_idle,
    OpState.reserve_active, List.length_nil, Nat.sub_zero] at hw hr
  -- the new operation books `MAXOPBLOCKS`, which the guard leaves room for
  have hle := h.reserve_le
  have ho := h.outstanding
  have hroom := h.room
  have hmax : MAXOPBLOCKS = 10 := rfl
  have hlog : LOGSIZE = 30 := rfl
  rw [hmax] at hfree hle hr
  refine ⟨h.size, by dsimp only; omega, by dsimp only; omega, fun hc' => absurd hc' hc,
    forall_active_update (fun u _ => h.written u) ?_, h.distinct⟩
  rintro w ⟨⟩
  exact ⟨List.nodup_nil, Nat.zero_le _, fun b hb => absurd hb List.not_mem_nil⟩

/-- **The `log_write` step.** The call succeeds, and the operation's new
block is booked against what it had reserved. -/
theorem Inv.logWrite (h : Inv s) {w : List Nat} (ht : s.op t = .active w)
    (hw : w.length < MAXOPBLOCKS) (b : Nat) :
    ∃ log, Fs.logWrite s.log b = .ok log ∧
      Inv ⟨log, Function.update s.op t (.active (if b ∈ w then w else b :: w))⟩ := by
  obtain ⟨hfit, hout⟩ := h.logWrite_checks ht hw
  obtain ⟨hnodup, -, hlogged⟩ := h.written t w ht
  have hnc := h.not_committing ht
  have hwt := Budget.sum_update_add OpState.weight s.op t (.active (if b ∈ w then w else b :: w))
  have hr := Budget.sum_update_add OpState.reserve s.op t (.active (if b ∈ w then w else b :: w))
  rw [ht, OpState.weight_active, OpState.weight_active] at hwt
  rw [ht, OpState.reserve_active, OpState.reserve_active] at hr
  have ho := h.outstanding
  have hroom := h.room
  -- what the operation has logged after the call: nodup, within its bound
  have hw' : (if b ∈ w then w else b :: w).Nodup ∧
      (if b ∈ w then w else b :: w).length ≤ MAXOPBLOCKS := by
    split
    · exact ⟨hnodup, Nat.le_of_lt hw⟩
    · exact ⟨List.nodup_cons.mpr ⟨‹_›, hnodup⟩, by rw [List.length_cons]; omega⟩
  by_cases hb : Logged s.log.lh b
  · -- absorbed: the group is unchanged, and the reservation shrinks or stays
    have hlen : w.length ≤ (if b ∈ w then w else b :: w).length := by
      split
      · exact Nat.le_refl _
      · rw [List.length_cons]; omega
    refine ⟨s.log, logWrite_of_logged hfit hout hb, h.size, by dsimp only; omega,
      by dsimp only; omega, fun hc => absurd hc (by rw [hnc]; decide),
      forall_active_update (fun u _ => h.written u) ?_, h.distinct⟩
    rintro w' ⟨⟩
    refine ⟨hw'.1, hw'.2, fun c hc => ?_⟩
    split at hc
    · exact hlogged c hc
    · rcases List.mem_cons.mp hc with rfl | hc
      · exact hb
      · exact hlogged c hc
  · -- a new block: the group grows by the one block the reservation gives up
    have hbw : b ∉ w := fun hbw => hb (hlogged b hbw)
    have hlen : (if b ∈ w then w else b :: w).length = w.length + 1 := by
      rw [if_neg hbw, List.length_cons]
    refine ⟨_, logWrite_of_not_logged hfit hout hb, h.size, by dsimp only; omega,
      by dsimp only [LogHeader.push]; omega, fun hc => absurd hc (by rw [hnc]; decide),
      forall_active_update (fun u _ w' hu => ?_) ?_, distinct_push h.distinct hb⟩
    · obtain ⟨hn', hl', hlog'⟩ := h.written u w' hu
      exact ⟨hn', hl', fun c hc => logged_push_of_logged (hlog' c hc)⟩
    · rintro w' ⟨⟩
      refine ⟨hw'.1, hw'.2, fun c hc => ?_⟩
      rw [if_neg hbw] at hc
      rcases List.mem_cons.mp hc with rfl | hc
      · exact logged_push_self
      · exact logged_push_of_logged (hlogged c hc)

/-- **The `end_op` step.** It finds no commit running; the last operation out
starts one, with every thread outside its operation. -/
theorem Inv.endOp (h : Inv s) {w : List Nat} (ht : s.op t = .active w) :
    ∃ log, Fs.endOp s.log = .ok log ∧ Inv ⟨log, Function.update s.op t .idle⟩ := by
  have hnc := h.not_committing ht
  have hwt := Budget.sum_update_add OpState.weight s.op t .idle
  have hr := Budget.sum_update_add OpState.reserve s.op t .idle
  rw [ht, OpState.weight_active, OpState.weight_idle] at hwt
  rw [ht, OpState.reserve_active, OpState.reserve_idle] at hr
  have ho := h.outstanding
  have hroom := h.room
  have hwritten := forall_active_update (t := t) (x := .idle) (fun u _ => h.written u)
    (fun _ hw => nomatch hw)
  by_cases hz : s.log.outstanding - 1 = 0
  · refine ⟨{ s.log with outstanding := s.log.outstanding - 1, committing := true }, ?_, h.size,
      by dsimp only; omega, by dsimp only; omega, fun _ u => ?_, hwritten, h.distinct⟩
    · simp only [Fs.endOp, hnc, hz, Bool.false_eq_true, if_false, if_true]
    · -- no thread is left with a share of the outstanding count
      have hle := share_le_sum OpState.weight ⟨s.log, Function.update s.op t .idle⟩ u
      exact OpState.eq_idle_of_weight (by dsimp only at hle ⊢; omega)
  · refine ⟨{ s.log with outstanding := s.log.outstanding - 1 }, ?_, h.size,
      by dsimp only; omega, by dsimp only; omega, fun hc => ?_, hwritten, h.distinct⟩
    · simp only [Fs.endOp, hnc, hz, Bool.false_eq_true, if_false]
    · dsimp only at hc
      rw [hnc] at hc
      cases hc

/-- **The step lemma.** A fitting call from a state that keeps the invariant
does not panic, and leads to a state that keeps it. -/
theorem Inv.step (h : Inv s) {c : Call τ} (hc : c.Fits s) :
    ∃ r, step s c = .ok r ∧ ∀ s', r = some s' → Inv s' := by
  cases c with
  | beginOp t =>
    cases ht : s.op t with
    | idle =>
      refine ⟨(Fs.beginOp s.log).map fun log => ⟨log, Function.update s.op t (.active [])⟩,
        by simp only [Fs.step, ht], fun s' hs' => ?_⟩
      obtain ⟨log, hlog, rfl⟩ := Option.map_eq_some_iff.mp hs'
      exact h.beginOp ht hlog
    | active w => exact ⟨none, by simp only [Fs.step, ht], fun _ hs' => nomatch hs'⟩
  | logWrite t b =>
    cases ht : s.op t with
    | idle => exact ⟨none, by simp only [Fs.step, ht], fun _ hs' => nomatch hs'⟩
    | active w =>
      have hw : w.length < MAXOPBLOCKS := by
        simpa only [Call.Fits, ht, OpState.logged] using hc
      obtain ⟨log, hlog, hinv⟩ := h.logWrite ht hw b
      refine ⟨_, by simp only [Fs.step, ht, hlog]; rfl, fun s' hs' => ?_⟩
      cases hs'
      exact hinv
  | endOp t =>
    cases ht : s.op t with
    | idle => exact ⟨none, by simp only [Fs.step, ht], fun _ hs' => nomatch hs'⟩
    | active w =>
      obtain ⟨log, hlog, hinv⟩ := h.endOp ht
      refine ⟨_, by simp only [Fs.step, ht, hlog]; rfl, fun s' hs' => ?_⟩
      cases hs'
      exact hinv
  | commit =>
    by_cases hcm : s.log.committing = true
    · refine ⟨some ⟨commitDone s.log, s.op⟩, by simp only [Fs.step, hcm, if_true], fun s' hs' => ?_⟩
      cases hs'
      exact h.commit hcm
    · exact ⟨none, by simp only [Fs.step, hcm, Bool.false_eq_true, if_false], fun _ hs' => nomatch hs'⟩

end Steps

/-! ## Every interleaving -/

/-- A log just recovered, with every thread outside an operation. -/
def idleSys (log : Log) : Sys τ := ⟨log, fun _ => .idle⟩

/-- A recovered log of at least `LOGSIZE + 1` blocks keeps the invariant:
its group is empty, nothing is outstanding, and no commit runs. -/
theorem inv_idleSys {log : Log} (hsize : LOGSIZE + 1 ≤ log.size) (hn : log.lh.n = 0)
    (hout : log.outstanding = 0) (hc : log.committing = false) : Inv (idleSys log : Sys τ) := by
  refine ⟨hsize, ?_, ?_, (fun hc' => ?_), (fun u w hu => nomatch hu), fun i hi => ?_⟩
  · simp only [idleSys, OpState.weight_idle, sum_const_zero, hout]
  · simp only [idleSys, OpState.reserve_idle, sum_const_zero, hn, Nat.add_zero]
    exact Nat.zero_le _
  · change log.committing = true at hc'
    rw [hc] at hc'
    cases hc'
  · change i < log.lh.n at hi
    omega

variable [DecidableEq τ]

/-- **Safety over every interleaving.** From a state that keeps the
invariant, every state a run of fitting calls reaches keeps it: there the
group fits the log with its header, and no fitting call panics. -/
theorem reach_safe {s₀ s : Sys τ} (h₀ : Inv s₀) (hs : Reach s₀ s) :
    Inv s ∧ s.log.lh.n + 1 ≤ s.log.size ∧ ∀ c : Call τ, c.Fits s → ∃ r, step s c = .ok r := by
  have hinv : Inv s := by
    induction hs with
    | init => exact h₀
    | step c _ hfits hstep ih =>
      obtain ⟨r, hr, hnext⟩ := ih.step hfits
      exact hnext _ (Except.ok.inj (hr.symm.trans hstep))
  exact ⟨hinv, hinv.hroom, fun c hc => (hinv.step hc).imp fun _ hr => hr.1⟩

/-- Two threads on a recovered log of `LOGSIZE + 1` blocks. -/
def twoThreads : Sys (Fin 2) := idleSys ⟨2, LOGSIZE + 1, 0, false, ⟨0, fun _ => 0⟩⟩

/-- Both threads begin an operation and log block 40, the second write
absorbed into the first; the log is safe from there on. -/
theorem reach_safe_shared_block :
    ∃ s, Reach twoThreads s ∧ s.log.lh.n = 1 ∧ s.log.outstanding = 2 ∧
      (Inv s ∧ s.log.lh.n + 1 ≤ s.log.size ∧
        ∀ c : Call (Fin 2), c.Fits s → ∃ r, step s c = .ok r) := by
  have h₀ : Inv twoThreads := inv_idleSys (by decide) rfl rfl rfl
  have h₁ : Reach twoThreads _ := Reach.step (.beginOp 0) Reach.init trivial rfl
  have h₂ : Reach twoThreads _ := Reach.step (.beginOp 1) h₁ trivial rfl
  have h₃ : Reach twoThreads _ := Reach.step (.logWrite 0 40) h₂ (by decide) rfl
  have h₄ : Reach twoThreads _ := Reach.step (.logWrite 1 40) h₃ (by decide) rfl
  exact ⟨_, h₄, rfl, rfl, reach_safe h₀ h₄⟩

end Fs

end Mkros
