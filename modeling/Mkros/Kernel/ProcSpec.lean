import Mkros.Kernel.Proc
/-!
# The process table — invariants over every interleaving

Five invariants, each about a few fields, hold in every state the sections
reach (`Inv`, `reach_inv`):

* `Parents`: every parent is live (`USED`, `SLEEPING`, `RUNNABLE` or
  `RUNNING`), and so is `initproc`; a free slot has no parent. `exit` hands
  the children to `initproc` before its process becomes a `ZOMBIE`, and
  `wait` frees only a `ZOMBIE`, which by then is no one's parent.
* `Cpus`: a process is `RUNNING` exactly when a CPU's `c->proc` is it, and
  no two CPUs run the same process.
* `Sleepers`: a `SLEEPING` process has a `chan`.
* `Forks`: a process half way through `fork` is `RUNNING` or `RUNNABLE`, and
  its child is `USED` and no other process's.
* `Pids`: `nextpid` is one past the pids handed out, wrapped to an `int`;
  while fewer than `2 ^ 31` have been handed out, the processes in use have
  distinct pids in `1 ..= allocated`.

Each holds across a section by a frame lemma (`Parents.frame`, …), which
asks only what the section does to each slot, or by a lemma for the
section that changes it (`Cpus.switchIn`, `Parents.retire`,
`Pids.allocFound`, …).

The pid counter is the code's limit: it is never reset, so `2 ^ 31 - 1`
failed `fork`s later `allocpid` hands out `INT_MIN`, and `2 ^ 32` later
`1` again, while `initproc` still has it (`pid_wraps`).
-/

namespace Mkros

namespace ProcTable

/-- Holding its slot and able to have children: neither `UNUSED` nor
`ZOMBIE`. -/
def Procstate.live : Procstate → Bool
  | .unused | .zombie => false
  | _ => true

/-- The child a process is setting up in `fork`. -/
def Pc.child : Pc → Option (Fin NPROC)
  | .forked np | .parented np => some np
  | _ => none

variable {s s' : Sys}

/-- A relation of new slot to old that holds of every slot left alone
holds everywhere once it holds at the slot rewritten. -/
theorem forall_update {P : Proc → Proc → Prop} (hrefl : ∀ x, P x x) {f : Fin NPROC → Proc}
    {p : Fin NPROC} {y : Proc} (hp : P y (f p)) : ∀ q, P (Function.update f p y q) (f q) := by
  intro q
  by_cases hqp : q = p
  · subst hqp
    rw [Function.update_self]
    exact hp
  · rw [Function.update_of_ne hqp]
    exact hrefl (f q)

/-! ## Parents -/

/-- Every parent is live, and so is `initproc`; a free slot has no parent. -/
structure Parents (s : Sys) : Prop where
  unused : ∀ q, (s.proc q).state = .unused → (s.proc q).parent = none
  live : ∀ q pp, (s.proc q).parent = some pp → (s.proc pp).state.live
  init : ∃ i, s.initproc = some i ∧ (s.proc i).state.live

/-- Parents hold across a section that keeps every parent and `initproc`,
takes no process out of the live states and frees none. -/
theorem Parents.frame (h : Parents s) (hparent : ∀ q, (s'.proc q).parent = (s.proc q).parent)
    (hlive : ∀ q, (s.proc q).state.live → (s'.proc q).state.live)
    (hunused : ∀ q, (s'.proc q).state = .unused → (s.proc q).state = .unused)
    (hinit : s'.initproc = s.initproc) : Parents s' where
  unused q hq := (hparent q).trans (h.unused q (hunused q hq))
  live q pp hq := hlive pp (h.live q pp ((hparent q).symm.trans hq))
  init := by
    obtain ⟨i, hi, hlive'⟩ := h.init
    exact ⟨i, hinit.trans hi, hlive i hlive'⟩

/-- `Parents.frame`, for a section that rewrites one slot. -/
theorem Parents.set (h : Parents s) {p : Fin NPROC} {y : Proc}
    (hproc : s'.proc = Function.update s.proc p y) (hinit : s'.initproc = s.initproc)
    (hpar : y.parent = (s.proc p).parent) (hlive : (s.proc p).state.live → y.state.live)
    (hunused : y.state = .unused → (s.proc p).state = .unused) : Parents s' :=
  h.frame (fun q => by rw [hproc]; exact forall_update (P := fun x z => x.parent = z.parent) (fun _ => rfl) hpar q)
    (fun q => by
      rw [hproc]
      exact forall_update (P := fun x z => z.state.live → x.state.live) (fun _ => id) hlive q)
    (fun q => by
      rw [hproc]
      exact forall_update (P := fun x z => x.state = .unused → z.state = .unused) (fun _ => id) hunused q)
    hinit

/-- **Parents hold when a process no one is the child of leaves the live
states**, `initproc` apart, keeping its own parent or clearing it. -/
theorem Parents.retire (h : Parents s) {p : Fin NPROC} {y : Proc}
    (hproc : s'.proc = Function.update s.proc p y) (hinit' : s'.initproc = s.initproc)
    (hnone : ∀ q, (s.proc q).parent ≠ some p) (hinit : s.initproc ≠ some p)
    (hy : y.state = .unused → y.parent = none) (hpar : y.parent = none ∨ y.parent = (s.proc p).parent) :
    Parents s' where
  unused q hq := by
    rw [hproc] at hq ⊢
    by_cases hqp : q = p
    · subst hqp
      rw [Function.update_self] at hq ⊢
      exact hy hq
    · rw [Function.update_of_ne hqp] at hq ⊢
      exact h.unused q hq
  live q pp hq := by
    rw [hproc] at hq ⊢
    -- the parent is not `p`, so its state is the old one
    have hold : (s.proc q).parent = some pp ∨ (s.proc p).parent = some pp := by
      by_cases hqp : q = p
      · subst hqp
        rw [Function.update_self] at hq
        rcases hpar with hnil | hsame
        · rw [hnil] at hq; cases hq
        · exact .inr (hsame ▸ hq)
      · rw [Function.update_of_ne hqp] at hq
        exact .inl hq
    have hpp : pp ≠ p := by
      intro heq
      rcases hold with hq' | hp'
      · exact hnone q (heq ▸ hq')
      · exact hnone p (heq ▸ hp')
    rw [Function.update_of_ne hpp]
    rcases hold with hq' | hp'
    · exact h.live q pp hq'
    · exact h.live p pp hp'
  init := by
    obtain ⟨i, hi, hlive⟩ := h.init
    have hip : i ≠ p := by rintro rfl; exact hinit hi
    exact ⟨i, hinit'.trans hi, by rw [hproc, Function.update_of_ne hip]; exact hlive⟩

/-! ## CPUs -/

/-- A process is `RUNNING` exactly when a CPU runs it, and no two CPUs run
the same process. -/
structure Cpus (s : Sys) : Prop where
  running : ∀ p, (s.proc p).state = .running ↔ ∃ c, s.cpus c = some p
  inj : ∀ c c' p, s.cpus c = some p → s.cpus c' = some p → c = c'

/-- The CPUs hold across a section that keeps them and what runs. -/
theorem Cpus.frame (h : Cpus s) (hcpus : s'.cpus = s.cpus)
    (hrun : ∀ p, (s'.proc p).state = .running ↔ (s.proc p).state = .running) : Cpus s' where
  running p := by rw [hrun, hcpus]; exact h.running p
  inj := hcpus ▸ h.inj

/-- `Cpus.frame`, for a section that rewrites one slot. -/
theorem Cpus.set (h : Cpus s) {p : Fin NPROC} {y : Proc} (hproc : s'.proc = Function.update s.proc p y)
    (hcpus : s'.cpus = s.cpus) (hrun : y.state = .running ↔ (s.proc p).state = .running) : Cpus s' :=
  h.frame hcpus fun q => by
    rw [hproc]
    exact forall_update (P := fun x z => x.state = .running ↔ z.state = .running) (fun _ => Iff.rfl) hrun q

/-- The slot rewritten runs, the others as before. -/
theorem running_update_of_running {f : Fin NPROC → Proc} {p : Fin NPROC} {y : Proc} (hy : y.state = .running)
    (q : Fin NPROC) : (Function.update f p y q).state = .running ↔ q = p ∨ (f q).state = .running := by
  by_cases hqp : q = p
  · subst hqp
    simp only [Function.update_self, hy, true_or]
  · simp only [Function.update_of_ne hqp, hqp, false_or]

/-- The slot rewritten does not run, the others as before. -/
theorem running_update_of_not_running {f : Fin NPROC → Proc} {p : Fin NPROC} {y : Proc}
    (hy : y.state ≠ .running) (q : Fin NPROC) :
    (Function.update f p y q).state = .running ↔ q ≠ p ∧ (f q).state = .running := by
  by_cases hqp : q = p
  · subst hqp
    simp only [Function.update_self, hy, ne_eq, not_true_eq_false, false_and]
  · simp only [Function.update_of_ne hqp, ne_eq, hqp, not_false_eq_true, true_and]

/-- **Switching in**: an idle CPU takes up a process that was not running. -/
theorem Cpus.switchIn (h : Cpus s) {c : Fin NCPU} {p : Fin NPROC} (hc : s.cpus c = none)
    (hp : (s.proc p).state ≠ .running) (hcpus : s'.cpus = Function.update s.cpus c (some p))
    (hrun : ∀ q, (s'.proc q).state = .running ↔ q = p ∨ (s.proc q).state = .running) : Cpus s' := by
  -- the other CPUs keep their processes, none of them `p`
  have hother : ∀ c' q, s'.cpus c' = some q → c' ≠ c → s.cpus c' = some q ∧ q ≠ p := by
    intro c' q hc' hne
    rw [hcpus, Function.update_of_ne hne] at hc'
    refine ⟨hc', ?_⟩
    rintro rfl
    exact hp ((h.running q).mpr ⟨c', hc'⟩)
  have hself : s'.cpus c = some p := by rw [hcpus, Function.update_self]
  refine ⟨fun q => ?_, fun c₁ c₂ q h₁ h₂ => ?_⟩
  · rw [hrun, h.running]
    constructor
    · rintro (rfl | ⟨c', hc'⟩)
      · exact ⟨c, hself⟩
      · have hne : c' ≠ c := by rintro rfl; rw [hc] at hc'; cases hc'
        exact ⟨c', by rw [hcpus, Function.update_of_ne hne]; exact hc'⟩
    · rintro ⟨c', hc'⟩
      by_cases hne : c' = c
      · subst hne
        rw [hself] at hc'
        exact .inl (Option.some_injective _ hc').symm
      · exact .inr ⟨c', (hother c' q hc' hne).1⟩
  · by_cases h₁c : c₁ = c <;> by_cases h₂c : c₂ = c
    · rw [h₁c, h₂c]
    · subst h₁c
      rw [hself] at h₁
      exact absurd (Option.some_injective _ h₁) (hother c₂ q h₂ h₂c).2.symm
    · subst h₂c
      rw [hself] at h₂
      exact absurd (Option.some_injective _ h₂) (hother c₁ q h₁ h₁c).2.symm
    · exact h.inj c₁ c₂ q (hother c₁ q h₁ h₁c).1 (hother c₂ q h₂ h₂c).1

/-- **Switching out**: the CPU running `p` goes back to its scheduler, and
`p` stops running. -/
theorem Cpus.switchOut (h : Cpus s) {c : Fin NCPU} {p : Fin NPROC} (hc : s.cpus c = some p)
    (hcpus : s'.cpus = Function.update s.cpus c none)
    (hrun : ∀ q, (s'.proc q).state = .running ↔ q ≠ p ∧ (s.proc q).state = .running) : Cpus s' := by
  -- the other CPUs keep their processes, none of them `p`
  have hother : ∀ c' q, s'.cpus c' = some q → s.cpus c' = some q ∧ c' ≠ c := by
    intro c' q hc'
    by_cases hne : c' = c
    · subst hne
      rw [hcpus, Function.update_self] at hc'
      cases hc'
    · rw [hcpus, Function.update_of_ne hne] at hc'
      exact ⟨hc', hne⟩
  refine ⟨fun q => ?_, fun c₁ c₂ q h₁ h₂ => h.inj c₁ c₂ q (hother c₁ q h₁).1 (hother c₂ q h₂).1⟩
  rw [hrun, h.running]
  constructor
  · rintro ⟨hqp, c', hc'⟩
    have hne : c' ≠ c := by
      rintro rfl
      rw [hc] at hc'
      exact hqp (Option.some_injective _ hc').symm
    exact ⟨c', by rw [hcpus, Function.update_of_ne hne]; exact hc'⟩
  · rintro ⟨c', hc'⟩
    obtain ⟨hc'', hne⟩ := hother c' q hc'
    refine ⟨?_, c', hc''⟩
    rintro rfl
    exact hne (h.inj c' c q hc'' hc)

/-! ## Sleepers -/

/-- A `SLEEPING` process has a `chan`. -/
def Sleepers (s : Sys) : Prop := ∀ p, (s.proc p).state = .sleeping → (s.proc p).chan ≠ none

/-- Sleepers hold across a section that puts a process to sleep only with a
`chan`, and leaves a sleeper's `chan` alone. -/
theorem Sleepers.frame (h : Sleepers s)
    (hp : ∀ p, (s'.proc p).state = .sleeping →
      (s'.proc p).chan ≠ none ∨ (s.proc p).state = .sleeping ∧ (s'.proc p).chan = (s.proc p).chan) :
    Sleepers s' := by
  intro p hsl
  rcases hp p hsl with hchan | ⟨hsl', hchan⟩
  · exact hchan
  · rw [hchan]
    exact h p hsl'

/-- `Sleepers.frame`, for a section that rewrites one slot. -/
theorem Sleepers.set (h : Sleepers s) {p : Fin NPROC} {y : Proc} (hproc : s'.proc = Function.update s.proc p y)
    (hp : y.state = .sleeping → y.chan ≠ none ∨ (s.proc p).state = .sleeping ∧ y.chan = (s.proc p).chan) :
    Sleepers s' :=
  h.frame fun q => by
    rw [hproc]
    exact forall_update (P := fun x z => x.state = .sleeping → x.chan ≠ none ∨ z.state = .sleeping ∧ x.chan = z.chan)
      (fun _ hx => .inr ⟨hx, rfl⟩) hp q

/-! ## Forks under way -/

/-- A process half way through `fork` is `RUNNING` or `RUNNABLE`, and its
child is `USED` and no other process's. -/
structure Forks (s : Sys) : Prop where
  forker : ∀ p np, (s.proc p).pc.child = some np →
    (s.proc p).state = .running ∨ (s.proc p).state = .runnable
  used : ∀ p np, (s.proc p).pc.child = some np → (s.proc np).state = .used
  owner : ∀ p p' np, (s.proc p).pc.child = some np → (s.proc p').pc.child = some np → p = p'

/-- Forks hold across a section that starts no child, keeps every `USED`
process `USED`, and keeps a forker running or runnable. -/
theorem Forks.frame (h : Forks s)
    (hchild : ∀ p np, (s'.proc p).pc.child = some np → (s.proc p).pc.child = some np)
    (hused : ∀ q, (s.proc q).state = .used → (s'.proc q).state = .used)
    (hforker : ∀ p np, (s'.proc p).pc.child = some np →
      (s.proc p).state = .running ∨ (s.proc p).state = .runnable →
      (s'.proc p).state = .running ∨ (s'.proc p).state = .runnable) : Forks s' where
  forker p np hp := hforker p np hp (h.forker p np (hchild p np hp))
  used p np hp := hused np (h.used p np (hchild p np hp))
  owner p p' np hp hp' := h.owner p p' np (hchild p np hp) (hchild p' np hp')

/-- `Forks.frame`, for a section that rewrites one slot. -/
theorem Forks.set (h : Forks s) {p : Fin NPROC} {y : Proc} (hproc : s'.proc = Function.update s.proc p y)
    (hchild : ∀ np, y.pc.child = some np → (s.proc p).pc.child = some np)
    (hused : (s.proc p).state = .used → y.state = .used)
    (hforker : ∀ np, y.pc.child = some np → (s.proc p).state = .running ∨ (s.proc p).state = .runnable →
      y.state = .running ∨ y.state = .runnable) : Forks s' :=
  h.frame
    (fun q => by
      rw [hproc]
      exact forall_update (P := fun x z => ∀ np, x.pc.child = some np → z.pc.child = some np)
        (fun _ _ => id) hchild q)
    (fun q => by
      rw [hproc]
      exact forall_update (P := fun x z => z.state = .used → x.state = .used) (fun _ => id) hused q)
    (fun q => by
      rw [hproc]
      exact forall_update (P := fun x z => ∀ np, x.pc.child = some np →
          z.state = .running ∨ z.state = .runnable → x.state = .running ∨ x.state = .runnable)
        (fun _ _ _ => id) hforker q)

/-! ## Pids -/

/-- `nextpid` is one past the pids handed out, as an `int`; while fewer than
`2 ^ 31` have been, the processes in use have distinct pids in
`1 ..= allocated`. -/
structure Pids (s : Sys) : Prop where
  nextpid : s.nextpid = ((1 + s.allocated : Nat) : Int).bmod (2 ^ 32)
  range : s.allocated < 2 ^ 31 → ∀ p, (s.proc p).state ≠ .unused →
    1 ≤ (s.proc p).pid ∧ (s.proc p).pid ≤ s.allocated
  distinct : s.allocated < 2 ^ 31 → ∀ p q, p ≠ q → (s.proc p).state ≠ .unused →
    (s.proc q).state ≠ .unused → (s.proc p).pid ≠ (s.proc q).pid

/-- Pids hold across a section that hands out no pid to a process in use
and frees processes or keeps their pids. -/
theorem Pids.mono (h : Pids s) (hnext : s'.nextpid = ((1 + s'.allocated : Nat) : Int).bmod (2 ^ 32))
    (halloc : s.allocated ≤ s'.allocated)
    (hq : ∀ q, (s'.proc q).state ≠ .unused →
      (s.proc q).state ≠ .unused ∧ (s'.proc q).pid = (s.proc q).pid) : Pids s' where
  nextpid := hnext
  range hlt p hp := by
    obtain ⟨hp', hpid⟩ := hq p hp
    obtain ⟨h₁, h₂⟩ := h.range (by omega) p hp'
    rw [hpid]
    exact ⟨h₁, h₂.trans (by exact_mod_cast halloc)⟩
  distinct hlt p q hpq hp hq' := by
    rw [(hq p hp).2, (hq q hq').2]
    exact h.distinct (by omega) p q hpq (hq p hp).1 (hq q hq').1

theorem Pids.frame (h : Pids s) (hnext : s'.nextpid = s.nextpid) (halloc : s'.allocated = s.allocated)
    (hq : ∀ q, (s'.proc q).state ≠ .unused →
      (s.proc q).state ≠ .unused ∧ (s'.proc q).pid = (s.proc q).pid) : Pids s' :=
  h.mono (by rw [hnext, halloc, h.nextpid]) halloc.ge hq

/-- `Pids.frame`, for a section that rewrites one slot. -/
theorem Pids.set (h : Pids s) {p : Fin NPROC} {y : Proc} (hproc : s'.proc = Function.update s.proc p y)
    (hnext : s'.nextpid = s.nextpid) (halloc : s'.allocated = s.allocated)
    (hp : y.state ≠ .unused → (s.proc p).state ≠ .unused ∧ y.pid = (s.proc p).pid) : Pids s' :=
  h.frame hnext halloc fun q => by
    rw [hproc]
    exact forall_update (P := fun x z => x.state ≠ .unused → z.state ≠ .unused ∧ x.pid = z.pid)
      (fun _ hx => ⟨hx, rfl⟩) hp q

/-- `nextpid + 1` keeps `nextpid` one past the pids handed out. -/
theorem intSucc_bmod (a : Nat) :
    intSucc (((1 + a : Nat) : Int).bmod (2 ^ 32)) = ((1 + (a + 1) : Nat) : Int).bmod (2 ^ 32) := by
  rw [intSucc, Int.bmod_add_bmod]
  push_cast
  rw [Int.add_assoc]

/-- Before the counter wraps, `nextpid` is one past the pids handed out. -/
theorem bmod_of_lt {a : Nat} (ha : a + 1 < 2 ^ 31) : ((1 + a : Nat) : Int).bmod (2 ^ 32) = 1 + a := by
  rw [Int.bmod_eq_of_le (by omega) (by omega)]
  push_cast
  rfl

@[simp] theorem allocFound_proc (s : Sys) (p : Fin NPROC) :
    (allocFound s p).proc = Function.update s.proc p { s.proc p with pid := s.nextpid, state := .used, pc := .user } :=
  rfl

@[simp] theorem allocFound_cpus (s : Sys) (p : Fin NPROC) : (allocFound s p).cpus = s.cpus := rfl

@[simp] theorem allocFound_initproc (s : Sys) (p : Fin NPROC) : (allocFound s p).initproc = s.initproc := rfl

@[simp] theorem allocFound_nextpid (s : Sys) (p : Fin NPROC) : (allocFound s p).nextpid = intSucc s.nextpid :=
  rfl

@[simp] theorem allocFound_allocated (s : Sys) (p : Fin NPROC) :
    (allocFound s p).allocated = s.allocated + 1 := rfl

/-- **`allocproc` hands out a fresh pid.** Below the wrap it is one past
every pid in use. -/
theorem Pids.allocFound (h : Pids s) {p : Fin NPROC} (hp : (s.proc p).state = .unused) :
    Pids (allocFound s p) where
  nextpid := by rw [allocFound_nextpid, h.nextpid, allocFound_allocated, intSucc_bmod]
  range hlt q hq := by
    rw [allocFound_allocated] at hlt ⊢
    by_cases hqp : q = p
    · subst hqp
      simp only [allocFound_proc, Function.update_self]
      rw [h.nextpid, bmod_of_lt hlt]
      push_cast
      omega
    · simp only [allocFound_proc, Function.update_of_ne hqp] at hq ⊢
      obtain ⟨h₁, h₂⟩ := h.range (by omega) q hq
      push_cast
      omega
  distinct hlt q r hqr hq hr := by
    rw [allocFound_allocated] at hlt
    -- the new pid is past every old one
    have hnew : ∀ t, t ≠ p → (s.proc t).state ≠ .unused → (s.proc t).pid < s.nextpid := by
      intro t _ ht
      rw [h.nextpid, bmod_of_lt hlt]
      have := (h.range (by omega) t ht).2
      omega
    by_cases hqp : q = p <;> by_cases hrp : r = p
    · exact absurd (hqp.trans hrp.symm) hqr
    · subst hqp
      simp only [allocFound_proc, Function.update_self, Function.update_of_ne hrp] at hr ⊢
      exact (hnew r hrp hr).ne'
    · subst hrp
      simp only [allocFound_proc, Function.update_self, Function.update_of_ne hqp] at hq ⊢
      exact (hnew q hqp hq).ne
    · simp only [allocFound_proc, Function.update_of_ne hqp, Function.update_of_ne hrp] at hq hr ⊢
      exact h.distinct (by omega) q r hqr hq hr

/-! ## The invariant, section by section -/

/-- The five invariants together. -/
structure Inv (s : Sys) : Prop where
  parents : Parents s
  cpus : Cpus s
  sleepers : Sleepers s
  forks : Forks s
  pids : Pids s

/-- A process a CPU runs is `RUNNING`. -/
theorem Inv.running (h : Inv s) {c : Fin NCPU} {p : Fin NPROC} (hc : s.cpus c = some p) :
    (s.proc p).state = .running :=
  (h.cpus.running p).mpr ⟨c, hc⟩

/-- **The scheduler's switch keeps the invariant.** -/
theorem Inv.scheduler (h : Inv s) {c : Fin NCPU} {p : Fin NPROC} (hc : s.cpus c = none)
    (hp : (s.proc p).state = .runnable) : Inv (scheduler s c p) := by
  -- `p` runs, and keeps its fields but for `sleep`'s `p->chan = 0`
  obtain ⟨y, hproc, hst, hpar, hpid, hchild⟩ : ∃ y : Proc,
      (ProcTable.scheduler s c p).proc = Function.update s.proc p y ∧ y.state = .running ∧
        y.parent = (s.proc p).parent ∧ y.pid = (s.proc p).pid ∧ y.pc.child = (s.proc p).pc.child := by
    refine ⟨_, rfl, ?_⟩
    split
    · rename_i hslept
      simp only at hslept
      simp [hslept, Pc.child]
    · simp
  have hnot : (s.proc p).state ≠ .running := by rw [hp]; decide
  refine ⟨h.parents.set hproc rfl hpar (fun _ => by rw [hst]; rfl) (by rw [hst]; simp),
    h.cpus.switchIn hc hnot rfl (by rw [hproc]; exact running_update_of_running hst),
    h.sleepers.set hproc (by rw [hst]; simp),
    h.forks.set hproc (by rw [hchild]; exact fun _ => id) (by rw [hp]; simp) (fun _ _ _ => .inl hst),
    h.pids.set hproc rfl rfl (fun _ => ⟨by rw [hp]; simp, hpid⟩)⟩

/-- **`yield` keeps the invariant.** -/
theorem Inv.yield (h : Inv s) {c : Fin NCPU} {p : Fin NPROC} (hc : s.cpus c = some p) :
    Inv (yield s c p) := by
  have hrun := h.running hc
  have hproc : (ProcTable.yield s c p).proc = Function.update s.proc p { s.proc p with state := .runnable } := rfl
  refine ⟨h.parents.set hproc rfl rfl (fun _ => rfl) (by simp),
    h.cpus.switchOut hc rfl (by rw [hproc]; exact running_update_of_not_running (by simp)),
    h.sleepers.set hproc (by simp),
    h.forks.set hproc (fun _ => id) (by rw [hrun]; simp) (fun _ _ _ => .inr rfl),
    h.pids.set hproc rfl rfl (fun _ => ⟨by rw [hrun]; simp, rfl⟩)⟩

/-- **`sleep` keeps the invariant**, from where the process can make a call. -/
theorem Inv.sleep (h : Inv s) {c : Fin NCPU} {p : Fin NPROC} (hc : s.cpus c = some p) (chan : Chan) :
    Inv (sleep s c p chan) := by
  have hrun := h.running hc
  have hproc : (ProcTable.sleep s c p chan).proc =
      Function.update s.proc p { s.proc p with chan := some chan, state := .sleeping, pc := .slept } := rfl
  refine ⟨h.parents.set hproc rfl rfl (fun _ => rfl) (by simp),
    h.cpus.switchOut hc rfl (by rw [hproc]; exact running_update_of_not_running (by simp)),
    h.sleepers.set hproc (fun _ => .inl (by simp)),
    h.forks.set hproc (fun _ hnp => by simp [Pc.child] at hnp) (by rw [hrun]; simp)
      (fun _ hnp => by simp [Pc.child] at hnp),
    h.pids.set hproc rfl rfl (fun _ => ⟨by rw [hrun]; simp, rfl⟩)⟩

/-! ## `wakeup` and `kill` -/

/-- What a pass of `wakeup` or `kill` may do to a slot: make a sleeper
`RUNNABLE`, and set `killed`. -/
def Nudged (y x : Proc) : Prop :=
  y.parent = x.parent ∧ y.pid = x.pid ∧ y.pc = x.pc ∧ y.chan = x.chan ∧
    (y.state = x.state ∨ x.state = .sleeping ∧ y.state = .runnable)

theorem Nudged.refl (x : Proc) : Nudged x x := ⟨rfl, rfl, rfl, rfl, .inl rfl⟩

/-- **Waking sleepers keeps the invariant**: every invariant asks the same
of a `RUNNABLE` process as of a `SLEEPING` one, but a `chan`. -/
theorem Inv.nudge (h : Inv s) (hn : ∀ q, Nudged (s'.proc q) (s.proc q)) (hcpus : s'.cpus = s.cpus)
    (hinit : s'.initproc = s.initproc) (hnext : s'.nextpid = s.nextpid)
    (halloc : s'.allocated = s.allocated) : Inv s' := by
  have hstate q := (hn q).2.2.2.2
  refine ⟨h.parents.frame (fun q => (hn q).1) (fun q hl => ?_) (fun q hu => ?_) hinit,
    h.cpus.frame hcpus (fun q => ?_), h.sleepers.frame (fun q hsl => .inr ⟨?_, (hn q).2.2.2.1⟩),
    h.forks.frame (fun q np hq => (hn q).2.2.1 ▸ hq) (fun q hu => ?_) (fun q _ _ hr => ?_),
    h.pids.frame hnext halloc (fun q hq => ⟨?_, (hn q).2.1⟩)⟩
  all_goals rcases hstate q with hs | ⟨hs₀, hs⟩
  · rw [hs]; exact hl
  · rw [hs]; rfl
  · rw [← hs]; exact hu
  · rw [hs] at hu; cases hu
  · rw [hs]
  · rw [hs, hs₀]; simp
  · rw [← hs]; exact hsl
  · exact hs₀
  · rw [hs]; exact hu
  · rw [hs₀] at hu; cases hu
  · rw [hs]; exact hr
  · exact .inr hs
  · rw [← hs]; exact hq
  · rw [hs₀]; simp

theorem nudged_wakeOne (self : Option (Fin NPROC)) (chan : Option Chan) (q : Fin NPROC) (x : Proc) :
    Nudged (wakeOne self chan q x) x := by
  unfold wakeOne
  split
  · rename_i hw
    exact ⟨rfl, rfl, rfl, rfl, .inr ⟨hw.2.1, rfl⟩⟩
  · exact Nudged.refl x

/-- **`wakeup` keeps the invariant.** -/
theorem Inv.wakeup (h : Inv s) (self : Option (Fin NPROC)) (chan : Option Chan) :
    Inv (wakeup s self chan) :=
  h.nudge (fun q => nudged_wakeOne self chan q (s.proc q)) rfl rfl rfl rfl

/-- **A pass of `wakeup`'s loop keeps the invariant.** -/
theorem Inv.wakeOne (h : Inv s) (self : Option (Fin NPROC)) (chan : Option Chan) (q : Fin NPROC) :
    Inv (s.set q (wakeOne self chan q (s.proc q))) :=
  h.nudge (forall_update Nudged.refl (nudged_wakeOne self chan q (s.proc q))) rfl rfl rfl rfl

/-- **A pass of `kill`'s loop keeps the invariant.** -/
theorem Inv.kill (h : Inv s) (q : Fin NPROC) (pid : Int) : Inv (kill s q pid) := by
  unfold ProcTable.kill
  split
  · refine h.nudge (forall_update Nudged.refl ⟨rfl, rfl, rfl, rfl, ?_⟩) rfl rfl rfl rfl
    split
    · rename_i hsl
      exact .inr ⟨hsl, rfl⟩
    · exact .inl rfl
  · exact h

/-! ## `exit` and `wait` -/

/-- **Freeing a `ZOMBIE` keeps the invariant**: it is no one's parent, and
not `initproc`. -/
theorem Inv.free (h : Inv s) {q : Fin NPROC} (hq : (s.proc q).state = .zombie) :
    Inv (s.set q (freeproc (s.proc q))) := by
  have hdead : (s.proc q).state.live = false := by rw [hq]; rfl
  have hproc : (s.set q (freeproc (s.proc q))).proc = Function.update s.proc q (freeproc (s.proc q)) := rfl
  refine ⟨h.parents.retire hproc rfl (fun r hr => ?_) (fun hi => ?_) (fun _ => rfl) (.inl rfl),
    h.cpus.set hproc rfl (by simp [freeproc, hq]),
    h.sleepers.set hproc (by simp [freeproc]),
    h.forks.set hproc (fun _ => id) (by rw [hq]; simp) (fun np hnp hr => ?_),
    h.pids.set hproc rfl rfl (by simp [freeproc])⟩
  · have := h.parents.live r q hr
    rw [hdead] at this
    cases this
  · obtain ⟨i, hi', hlive⟩ := h.parents.init
    rw [hi] at hi'
    cases hi'
    rw [hdead] at hlive
    cases hlive
  · -- a `ZOMBIE` is half way through no `fork`
    rcases h.forks.forker q np hnp with hr' | hr' <;> rw [hq] at hr' <;> cases hr'

/-- The child `wait`'s scan stops at is a `ZOMBIE` child. -/
theorem zombieChild_some {p q : Fin NPROC} (h : zombieChild s p = some q) :
    (s.proc q).parent = some p ∧ (s.proc q).state = .zombie := by
  simpa using List.find?_some h

/-- **A pass of `wait`'s loop keeps the invariant.** -/
theorem Inv.wait (h : Inv s) {c : Fin NCPU} {p : Fin NPROC} (hc : s.cpus c = some p) (copyOk : Bool) :
    Inv (wait s c p copyOk) := by
  unfold ProcTable.wait
  split
  · rename_i q hq
    split
    · exact h.free (zombieChild_some hq).2
    · exact h
  · split
    · exact h
    · exact h.sleep hc (.proc p)

/-- `handOver` rewrites parents only: a child of `p` now has `initproc`'s. -/
theorem handOver_slot (s : Sys) (p q : Fin NPROC) : (handOver s p).proc q =
    { s.proc q with parent := if (s.proc q).parent = some p then s.initproc else (s.proc q).parent } := by
  by_cases hq : (s.proc q).parent = some p
  · simp only [handOver, if_pos hq]
  · simp only [handOver, if_neg hq]

/-- **Handing the children to `initproc` keeps the parents live**, and
leaves `p` no child, where `p` is not `initproc`. -/
theorem Parents.handOver (h : Parents s) {p : Fin NPROC} (hinit : s.initproc ≠ some p) :
    Parents (handOver s p) ∧ ∀ q, ((handOver s p).proc q).parent ≠ some p := by
  have hstate : ∀ q, ((ProcTable.handOver s p).proc q).state = (s.proc q).state := fun q => by rw [handOver_slot]
  refine ⟨⟨fun q hq => ?_, fun q pp hq => ?_, ?_⟩, fun q => ?_⟩
  · rw [hstate] at hq
    have hnil := h.unused q hq
    rw [handOver_slot, if_neg (by rw [hnil]; simp)]
    exact hnil
  · rw [hstate]
    rw [handOver_slot] at hq
    split at hq
    · -- handed to `initproc`, which is live
      obtain ⟨i, hi, hlive⟩ := h.init
      rw [hi] at hq
      cases hq
      exact hlive
    · exact h.live q pp hq
  · obtain ⟨i, hi, hlive⟩ := h.init
    exact ⟨i, hi, by rw [hstate]; exact hlive⟩
  · rw [handOver_slot]
    split
    · exact hinit
    · assumption

/-- **`reparent` keeps the invariant** and leaves `p` no child, where `p` is
not `initproc`; each process keeps its place, and the CPUs and `initproc`
stay. -/
theorem Inv.reparent (h : Inv s) {p : Fin NPROC} (hinit : s.initproc ≠ some p) :
    Inv (reparent s p) ∧ (∀ q, ((reparent s p).proc q).parent ≠ some p) ∧
      (∀ q, ((reparent s p).proc q).pc = (s.proc q).pc) ∧ (reparent s p).cpus = s.cpus ∧
      (reparent s p).initproc = s.initproc := by
  obtain ⟨hparents, hnone⟩ := h.parents.handOver hinit
  -- apart from the parents, every slot is as it was
  have hslot : ∀ q, ((handOver s p).proc q).state = (s.proc q).state ∧
      ((handOver s p).proc q).chan = (s.proc q).chan ∧ ((handOver s p).proc q).pc = (s.proc q).pc ∧
      ((handOver s p).proc q).pid = (s.proc q).pid :=
    fun q => by rw [handOver_slot]; exact ⟨rfl, rfl, rfl, rfl⟩
  have h₁ : Inv (handOver s p) :=
    ⟨hparents, h.cpus.frame rfl (fun q => by rw [(hslot q).1]),
      h.sleepers.frame (fun q hsl => .inr ⟨(hslot q).1 ▸ hsl, (hslot q).2.1⟩),
      h.forks.frame (fun q np hq => (hslot q).2.2.1 ▸ hq) (fun q hu => (hslot q).1 ▸ hu)
        (fun q _ _ hr => (hslot q).1 ▸ hr),
      h.pids.frame rfl rfl (fun q hq => ⟨(hslot q).1 ▸ hq, (hslot q).2.2.2⟩)⟩
  unfold ProcTable.reparent
  split
  · have hn q := nudged_wakeOne (some p) (s.initproc.map .proc) q ((handOver s p).proc q)
    exact ⟨h₁.wakeup _ _, fun q => (hn q).1 ▸ hnone q, fun q => (hn q).2.2.1.trans (hslot q).2.2.1, rfl, rfl⟩
  · exact ⟨h₁, hnone, fun q => (hslot q).2.2.1, rfl, rfl⟩

/-- **`exit` keeps the invariant**: the children go to `initproc` first, so
the new `ZOMBIE` is no one's parent. -/
theorem Inv.exit (h : Inv s) {c : Fin NCPU} {p : Fin NPROC} (hc : s.cpus c = some p)
    (hpc : (s.proc p).pc = .user) {status : Int} (hexit : exit s c p status = some s') : Inv s' := by
  unfold ProcTable.exit at hexit
  split at hexit
  · cases hexit
  · rename_i hinit
    cases hexit
    obtain ⟨h₁, hnone₁, hpc₁, hcpus₁, hinit₁⟩ := h.reparent hinit
    generalize ProcTable.reparent s p = s₁ at h₁ hnone₁ hpc₁ hcpus₁ hinit₁ ⊢
    -- `wakeup(p->parent)` keeps every parent and place
    have h₂ := h₁.wakeup (some p) ((s₁.proc p).parent.map .proc)
    have hn₂ : ∀ q, Nudged ((ProcTable.wakeup s₁ (some p) ((s₁.proc p).parent.map .proc)).proc q) (s₁.proc q) :=
      fun q => nudged_wakeOne _ _ q (s₁.proc q)
    have hcpus₂ : (ProcTable.wakeup s₁ (some p) ((s₁.proc p).parent.map .proc)).cpus = s₁.cpus := rfl
    have hinit₂ : (ProcTable.wakeup s₁ (some p) ((s₁.proc p).parent.map .proc)).initproc = s₁.initproc := rfl
    generalize ProcTable.wakeup s₁ (some p) ((s₁.proc p).parent.map .proc) = s₂ at h₂ hn₂ hcpus₂ hinit₂ ⊢
    have hc₂ : s₂.cpus c = some p := by rw [hcpus₂, hcpus₁]; exact hc
    have hrun₂ := h₂.running hc₂
    have hpc₂ : (s₂.proc p).pc = .user := by rw [(hn₂ p).2.2.1, hpc₁, hpc]
    have hproc : ((s₂.set p { s₂.proc p with xstate := status, state := .zombie }).release c).proc =
        Function.update s₂.proc p { s₂.proc p with xstate := status, state := .zombie } := rfl
    refine ⟨h₂.parents.retire hproc rfl (fun q => (hn₂ q).1 ▸ hnone₁ q)
        (by rw [hinit₂, hinit₁]; exact hinit) (by simp) (.inr rfl),
      h₂.cpus.switchOut hc₂ rfl (by rw [hproc]; exact running_update_of_not_running (by simp)),
      h₂.sleepers.set hproc (by simp),
      h₂.forks.set hproc (fun _ => id) (by rw [hrun₂]; simp) (fun np hnp => by simp [hpc₂, Pc.child] at hnp),
      h₂.pids.set hproc rfl rfl (fun _ => ⟨by rw [hrun₂]; simp, rfl⟩)⟩

/-! ## `fork` -/

theorem firstUnused_some {np : Fin NPROC} (h : firstUnused s = some np) : (s.proc np).state = .unused := by
  simpa using List.find?_some h

/-- What `fork`'s first section can do: nothing, with no free slot; spend a
pid on a slot it frees again; or set a child up. -/
theorem forkAlloc_cases (s : Sys) (p : Fin NPROC) (allocOk copyOk : Bool) :
    forkAlloc s p allocOk copyOk = s ∨
      ∃ np, (s.proc np).state = .unused ∧
        (forkAlloc s p allocOk copyOk = (allocFound s np).set np (freeproc ((allocFound s np).proc np)) ∨
          forkAlloc s p allocOk copyOk =
            (allocFound s np).set p { (allocFound s np).proc p with pc := .forked np }) := by
  unfold forkAlloc allocproc
  cases hfu : firstUnused s with
  | none => exact .inl rfl
  | some np =>
    refine .inr ⟨np, firstUnused_some hfu, ?_⟩
    cases allocOk <;> cases copyOk
    · exact .inl rfl
    · exact .inl rfl
    · exact .inl rfl
    · exact .inr rfl

/-- **`allocproc` at `found:` keeps the invariant**, on a free slot. -/
theorem Inv.allocFound (h : Inv s) {np : Fin NPROC} (hnp : (s.proc np).state = .unused) :
    Inv (allocFound s np) := by
  have hproc := allocFound_proc s np
  refine ⟨h.parents.set hproc rfl rfl (fun _ => rfl) (by simp),
    h.cpus.set hproc rfl (by simp [hnp]), h.sleepers.set hproc (by simp),
    h.forks.set hproc (fun _ hc => by simp [Pc.child] at hc) (fun _ => rfl) (fun _ hc => by simp [Pc.child] at hc),
    h.pids.allocFound hnp⟩

/-- **A failed `fork` keeps the invariant**: the slot is free again, and
only the pid is spent. -/
theorem Inv.forkFail (h : Inv s) {np : Fin NPROC} (hnp : (s.proc np).state = .unused) :
    Inv ((ProcTable.allocFound s np).set np (freeproc ((ProcTable.allocFound s np).proc np))) := by
  -- against the state before, one slot is rewritten, still free
  have hproc : ((ProcTable.allocFound s np).set np (freeproc ((ProcTable.allocFound s np).proc np))).proc =
      Function.update s.proc np (freeproc { s.proc np with pid := s.nextpid, state := .used, pc := .user }) := by
    simp only [Sys.set_proc, allocFound_proc, Function.update_self, Function.update_idem]
  have hpar : (freeproc { s.proc np with pid := s.nextpid, state := .used, pc := .user }).parent =
      (s.proc np).parent := (h.parents.unused np hnp).symm
  refine ⟨h.parents.set hproc rfl hpar (fun hl => by rw [hnp] at hl; cases hl) (fun _ => hnp),
    h.cpus.set hproc rfl (by simp [freeproc, hnp]), h.sleepers.set hproc (by simp [freeproc]),
    h.forks.set hproc (fun _ hc => by simp [freeproc, Pc.child] at hc) (by rw [hnp]; simp)
      (fun _ hc => by simp [freeproc, Pc.child] at hc),
    h.pids.mono ?_ (Nat.le_succ _) (fun q => by
      rw [hproc]
      exact forall_update (P := fun x z => x.state ≠ .unused → z.state ≠ .unused ∧ x.pid = z.pid)
        (fun _ hx => ⟨hx, rfl⟩) (by simp [freeproc]) q)⟩
  show intSucc s.nextpid = _
  rw [h.pids.nextpid, intSucc_bmod]
  rfl

/-- **Starting a child keeps the invariant**: the new `USED` slot is the
forker's child and no other process's. -/
theorem Inv.forkStart (h : Inv s) {c : Fin NCPU} {p np : Fin NPROC} (hc : s.cpus c = some p)
    (hnp : (s.proc np).state = .unused) :
    Inv ((ProcTable.allocFound s np).set p { (ProcTable.allocFound s np).proc p with pc := .forked np }) := by
  have h₁ := h.allocFound hnp
  have hrun := h.running hc
  have hpnp : p ≠ np := by rintro rfl; rw [hrun] at hnp; cases hnp
  have hrun₁ : ((ProcTable.allocFound s np).proc p).state = .running := by
    rw [allocFound_proc, Function.update_of_ne hpnp]; exact hrun
  have hused₁ : ((ProcTable.allocFound s np).proc np).state = .used := by rw [allocFound_proc, Function.update_self]
  -- in the state before, no one was setting `np` up
  have hfresh : ∀ r, ((ProcTable.allocFound s np).proc r).pc.child ≠ some np := by
    intro r hr
    by_cases hrnp : r = np
    · subst hrnp
      rw [allocFound_proc, Function.update_self] at hr
      cases hr
    · rw [allocFound_proc, Function.update_of_ne hrnp] at hr
      have := h.forks.used r np hr
      rw [hnp] at this
      cases this
  set s₁ := ProcTable.allocFound s np
  have hproc : (s₁.set p { s₁.proc p with pc := .forked np }).proc =
      Function.update s₁.proc p { s₁.proc p with pc := .forked np } := rfl
  have hslot : ∀ r, r ≠ p → (s₁.set p { s₁.proc p with pc := .forked np }).proc r = s₁.proc r :=
    fun r hr => by rw [hproc, Function.update_of_ne hr]
  have hforks : Forks (s₁.set p { s₁.proc p with pc := .forked np }) := by
    refine ⟨fun r x hr => ?_, fun r x hr => ?_, fun r r' x hr hr' => ?_⟩
    · by_cases hrp : r = p
      · subst hrp
        rw [hproc, Function.update_self]
        exact .inl hrun₁
      · rw [hslot r hrp] at hr ⊢
        exact h₁.forks.forker r x hr
    · by_cases hrp : r = p
      · subst hrp
        rw [hproc, Function.update_self] at hr
        cases hr
        rw [hslot np hpnp.symm]
        exact hused₁
      · rw [hslot r hrp] at hr
        have hx := h₁.forks.used r x hr
        have hxp : x ≠ p := by rintro rfl; rw [hrun₁] at hx; cases hx
        rw [hslot x hxp]
        exact hx
    · by_cases hrp : r = p <;> by_cases hrp' : r' = p
      · rw [hrp, hrp']
      · subst hrp
        rw [hproc, Function.update_self] at hr
        cases hr
        rw [hslot r' hrp'] at hr'
        exact absurd hr' (hfresh r')
      · subst hrp'
        rw [hproc, Function.update_self] at hr'
        cases hr'
        rw [hslot r hrp] at hr
        exact absurd hr (hfresh r)
      · rw [hslot r hrp] at hr
        rw [hslot r' hrp'] at hr'
        exact h₁.forks.owner r r' x hr hr'
  exact ⟨h₁.parents.set hproc rfl rfl id id, h₁.cpus.set hproc rfl Iff.rfl,
    h₁.sleepers.set hproc (fun hs => .inr ⟨hs, rfl⟩), hforks, h₁.pids.set hproc rfl rfl (fun hz => ⟨hz, rfl⟩)⟩

/-- **`fork`'s first section keeps the invariant.** -/
theorem Inv.forkAlloc (h : Inv s) {c : Fin NCPU} {p : Fin NPROC} (hc : s.cpus c = some p)
    (allocOk copyOk : Bool) : Inv (forkAlloc s p allocOk copyOk) := by
  rcases forkAlloc_cases s p allocOk copyOk with heq | ⟨np, hnp, heq | heq⟩ <;> rw [heq]
  · exact h
  · exact h.forkFail hnp
  · exact h.forkStart hc hnp

/-- **Writing `np->parent` keeps the invariant**: the forker is live. -/
theorem Inv.forkParent (h : Inv s) {c : Fin NCPU} {p np : Fin NPROC} (hc : s.cpus c = some p)
    (hpc : (s.proc p).pc = .forked np) : Inv (forkParent s p np) := by
  have hrun := h.running hc
  have hused : (s.proc np).state = .used := h.forks.used p np (by rw [hpc]; rfl)
  have hpnp : p ≠ np := by rintro rfl; rw [hrun] at hused; cases hused
  -- first the child's parent
  set s₁ := s.set np { s.proc np with parent := some p }
  have hproc₁ : s₁.proc = Function.update s.proc np { s.proc np with parent := some p } := rfl
  have hparents₁ : Parents s₁ := by
    refine ⟨fun q hq => ?_, fun q pp hq => ?_, ?_⟩
    · by_cases hqnp : q = np
      · subst hqnp
        rw [hproc₁, Function.update_self] at hq
        rw [hused] at hq
        cases hq
      · rw [hproc₁, Function.update_of_ne hqnp] at hq ⊢
        exact h.parents.unused q hq
    · have hstate : (s₁.proc pp).state = (s.proc pp).state := by
        rw [hproc₁]
        by_cases hppnp : pp = np
        · subst hppnp; rw [Function.update_self]
        · rw [Function.update_of_ne hppnp]
      rw [hstate]
      by_cases hqnp : q = np
      · subst hqnp
        rw [hproc₁, Function.update_self] at hq
        cases hq
        rw [hrun]
        rfl
      · rw [hproc₁, Function.update_of_ne hqnp] at hq
        exact h.parents.live q pp hq
    · obtain ⟨i, hi, hlive⟩ := h.parents.init
      refine ⟨i, hi, ?_⟩
      rw [hproc₁]
      by_cases hinp : i = np
      · subst hinp; rw [Function.update_self]; exact hlive
      · rw [Function.update_of_ne hinp]; exact hlive
  have h₁ : Inv s₁ :=
    ⟨hparents₁, h.cpus.set hproc₁ rfl Iff.rfl, h.sleepers.set hproc₁ (fun hs => .inr ⟨hs, rfl⟩),
      h.forks.set hproc₁ (fun _ => id) id (fun _ _ => id), h.pids.set hproc₁ rfl rfl (fun hz => ⟨hz, rfl⟩)⟩
  -- then the forker's place, naming the same child
  have hpc₁ : (s₁.proc p).pc = .forked np := by rw [hproc₁, Function.update_of_ne hpnp]; exact hpc
  have hproc : (ProcTable.forkParent s p np).proc = Function.update s₁.proc p { s₁.proc p with pc := .parented np } := rfl
  exact ⟨h₁.parents.set hproc rfl rfl id id, h₁.cpus.set hproc rfl Iff.rfl,
    h₁.sleepers.set hproc (fun hs => .inr ⟨hs, rfl⟩),
    h₁.forks.set hproc (fun _ hx => by rw [hpc₁]; exact hx) id (fun _ _ => id),
    h₁.pids.set hproc rfl rfl (fun hz => ⟨hz, rfl⟩)⟩

/-- **Making the child `RUNNABLE` keeps the invariant**: `fork` is done with
it, and no other process was setting it up. -/
theorem Inv.forkRunnable (h : Inv s) {c : Fin NCPU} {p np : Fin NPROC} (hc : s.cpus c = some p)
    (hpc : (s.proc p).pc = .parented np) : Inv (forkRunnable s p np) := by
  have hrun := h.running hc
  have hchild : (s.proc p).pc.child = some np := by rw [hpc]; rfl
  have hused : (s.proc np).state = .used := h.forks.used p np hchild
  have hpnp : p ≠ np := by rintro rfl; rw [hrun] at hused; cases hused
  -- `np` is `USED`, so it is setting nothing up
  have hnochild : (s.proc np).pc.child = none := by
    cases hx : (s.proc np).pc.child with
    | none => rfl
    | some x => rcases h.forks.forker np x hx with h' | h' <;> rw [hused] at h' <;> cases h'
  set s₁ := s.set np { s.proc np with state := .runnable }
  have hproc₁ : s₁.proc = Function.update s.proc np { s.proc np with state := .runnable } := rfl
  have hproc : (ProcTable.forkRunnable s p np).proc = Function.update s₁.proc p { s₁.proc p with pc := .user } := rfl
  have hslot₁ : ∀ r, r ≠ np → s₁.proc r = s.proc r := fun r hr => by rw [hproc₁, Function.update_of_ne hr]
  have hslot : ∀ r, r ≠ p → (ProcTable.forkRunnable s p np).proc r = s₁.proc r :=
    fun r hr => by rw [hproc, Function.update_of_ne hr]
  have hforks : Forks (ProcTable.forkRunnable s p np) := by
    -- a process still setting a child up is neither `p` nor `np`
    have hother : ∀ r x, ((ProcTable.forkRunnable s p np).proc r).pc.child = some x →
        r ≠ p ∧ r ≠ np ∧ (s.proc r).pc.child = some x := by
      intro r x hr
      have hrp : r ≠ p := by rintro rfl; rw [hproc, Function.update_self] at hr; cases hr
      have hrnp : r ≠ np := by
        rintro rfl
        rw [hslot r hrp, hproc₁, Function.update_self] at hr
        rw [hnochild] at hr
        cases hr
      rw [hslot r hrp, hslot₁ r hrnp] at hr
      exact ⟨hrp, hrnp, hr⟩
    refine ⟨fun r x hr => ?_, fun r x hr => ?_, fun r r' x hr hr' => ?_⟩
    · obtain ⟨hrp, hrnp, hr⟩ := hother r x hr
      rw [hslot r hrp, hslot₁ r hrnp]
      exact h.forks.forker r x hr
    · obtain ⟨hrp, -, hr₀⟩ := hother r x hr
      have hx := h.forks.used r x hr₀
      have hxnp : x ≠ np := by rintro rfl; exact hrp (h.forks.owner r p x hr₀ hchild)
      have hxp : x ≠ p := by rintro rfl; rw [hrun] at hx; cases hx
      rw [hslot x hxp, hslot₁ x hxnp]
      exact hx
    · exact h.forks.owner r r' x (hother r x hr).2.2 (hother r' x hr').2.2
  have h₁ : Parents s₁ ∧ Cpus s₁ ∧ Sleepers s₁ ∧ Pids s₁ :=
    ⟨h.parents.set hproc₁ rfl rfl (fun _ => rfl) (by simp), h.cpus.set hproc₁ rfl (by simp [hused]),
      h.sleepers.set hproc₁ (by simp), h.pids.set hproc₁ rfl rfl (fun _ => ⟨by simp [hused], rfl⟩)⟩
  exact ⟨h₁.1.set hproc rfl rfl id id, h₁.2.1.set hproc rfl Iff.rfl,
    h₁.2.2.1.set hproc (fun hs => .inr ⟨hs, rfl⟩), hforks, h₁.2.2.2.set hproc rfl rfl (fun hz => ⟨hz, rfl⟩)⟩

/-! ## Every interleaving -/

/-- The process a `caller` names runs on that CPU, where it can make a call. -/
theorem caller_some {c : Fin NCPU} {p : Fin NPROC} (h : s.caller c = some p) :
    s.cpus c = some p ∧ (s.proc p).pc = .user := by
  unfold Sys.caller at h
  rw [Option.filter_eq_some_iff] at h
  exact ⟨h.1, of_decide_eq_true h.2⟩

/-- **One section keeps the invariant.** -/
theorem Inv.step (h : Inv s) {a : Call} (hs : step s a = some s') : Inv s' := by
  cases a with
  | scheduler c p =>
    simp only [ProcTable.step] at hs
    split at hs
    · rename_i hcond
      cases hs
      exact h.scheduler hcond.1 hcond.2
    · cases hs
  | fork c allocOk copyOk =>
    obtain ⟨p, hp, rfl⟩ := Option.map_eq_some_iff.mp hs
    exact h.forkAlloc (caller_some hp).1 allocOk copyOk
  | forkParent c =>
    obtain ⟨p, hp, hs⟩ := Option.bind_eq_some_iff.mp hs
    split at hs
    · rename_i np hpc
      cases hs
      exact h.forkParent hp hpc
    · cases hs
  | forkRunnable c =>
    obtain ⟨p, hp, hs⟩ := Option.bind_eq_some_iff.mp hs
    split at hs
    · rename_i np hpc
      cases hs
      exact h.forkRunnable hp hpc
    · cases hs
  | exit c status =>
    obtain ⟨p, hp, hs⟩ := Option.bind_eq_some_iff.mp hs
    exact h.exit (caller_some hp).1 (caller_some hp).2 hs
  | wait c copyOk =>
    obtain ⟨p, hp, rfl⟩ := Option.map_eq_some_iff.mp hs
    exact h.wait (caller_some hp).1 copyOk
  | sleep c x =>
    obtain ⟨p, hp, rfl⟩ := Option.map_eq_some_iff.mp hs
    exact h.sleep (caller_some hp).1 (.obj x)
  | yield c =>
    obtain ⟨p, hp, rfl⟩ := Option.map_eq_some_iff.mp hs
    exact h.yield hp
  | kill q pid =>
    cases hs
    exact h.kill q pid
  | wakeup c chan q =>
    cases hs
    exact h.wakeOne (s.cpus c) chan q

/-- After `userinit`, `initproc` in slot `0` with pid `1` is the one process,
and no CPU runs it yet. -/
theorem inv_init : Inv Sys.init := by
  have hparent : ∀ q : Fin NPROC, (Sys.init.proc q).parent = none := by decide
  have hrun : ∀ q : Fin NPROC, (Sys.init.proc q).state ≠ .running := by decide
  have hcpus : ∀ c : Fin NCPU, Sys.init.cpus c = none := by decide
  have hchild : ∀ q : Fin NPROC, (Sys.init.proc q).pc.child = none := by decide
  have hone : ∀ q : Fin NPROC, (Sys.init.proc q).state ≠ .unused →
      q = ⟨0, by decide⟩ ∧ (Sys.init.proc q).pid = 1 := by decide
  have hnochild : ∀ p np, (Sys.init.proc p).pc.child ≠ some np := fun p np hp => by
    rw [hchild p] at hp
    cases hp
  refine ⟨⟨fun q _ => hparent q, fun q pp hq => ?_, ⟨⟨0, by decide⟩, by decide, by decide⟩⟩,
    ⟨fun p => ⟨fun hp => absurd hp (hrun p), fun ⟨c, hc⟩ => ?_⟩, fun c _ p hc => ?_⟩,
    by unfold Sleepers; decide,
    ⟨fun p np hp => absurd hp (hnochild p np), fun p np hp => absurd hp (hnochild p np),
      fun p _ np hp => absurd hp (hnochild p np)⟩,
    ⟨by decide, fun _ p hp => ?_, fun _ p q hpq hp hq => ?_⟩⟩
  · rw [hparent q] at hq
    cases hq
  · rw [hcpus c] at hc
    cases hc
  · rw [hcpus c] at hc
    cases hc
  · rw [(hone p hp).2]
    decide
  · exact absurd ((hone p hp).1.trans (hone q hq).1.symm) hpq

theorem reach_inv {s : Sys} (h : Reach s) : Inv s := by
  induction h with
  | init => exact inv_init
  | step a _ hs ih => exact ih.step hs

theorem Procstate.live_iff {st : Procstate} : st.live = true ↔ st ≠ .unused ∧ st ≠ .zombie := by
  cases st <;> simp [Procstate.live]

/-- **The process table's invariants over every interleaving.** In every
state the sections reach from `userinit`: while fewer than `2 ^ 31` pids
have been handed out, the processes in use have distinct positive pids;
every parent is in use and not a `ZOMBIE`, so `exit` hands the children to
`initproc` before its process becomes a `ZOMBIE`, and `wait` frees a
`ZOMBIE` no one is the child of; a process is `RUNNING` exactly when one
CPU's `c->proc` is it, and no other's; a `SLEEPING` process has a non-zero
`chan`. -/
theorem proctable_invariants {s : Sys} (h : Reach s) :
    (s.allocated < 2 ^ 31 →
        (∀ p, (s.proc p).state ≠ .unused → 0 < (s.proc p).pid) ∧
          ∀ p q, p ≠ q → (s.proc p).state ≠ .unused → (s.proc q).state ≠ .unused →
            (s.proc p).pid ≠ (s.proc q).pid) ∧
      (∀ p pp, (s.proc p).parent = some pp → (s.proc pp).state ≠ .unused ∧ (s.proc pp).state ≠ .zombie) ∧
      (∀ p, (s.proc p).state = .running ↔ ∃! c, s.cpus c = some p) ∧
      ∀ p, (s.proc p).state = .sleeping → (s.proc p).chan ≠ none := by
  have hinv := reach_inv h
  refine ⟨fun hlt => ⟨fun p hp => ?_, hinv.pids.distinct hlt⟩,
    fun p pp hpp => Procstate.live_iff.mp (hinv.parents.live p pp hpp), fun p => ?_, hinv.sleepers⟩
  · have := (hinv.pids.range hlt p hp).1
    omega
  · rw [hinv.cpus.running p]
    constructor
    · rintro ⟨c, hc⟩
      exact ⟨c, hc, fun c' hc' => hinv.cpus.inj c' c p hc' hc⟩
    · rintro ⟨c, hc, -⟩
      exact ⟨c, hc⟩

/-! ## Runs from `userinit` -/

/-- Slot `0`, where `userinit` puts `initproc`. -/
def slot0 : Fin NPROC := ⟨0, by decide⟩

/-- Slot `1`. -/
def slot1 : Fin NPROC := ⟨1, by decide⟩

/-- CPU `0`. -/
def cpu0 : Fin NCPU := ⟨0, by decide⟩

/-- `initproc` running on CPU `0`. -/
def initRunning : Sys := scheduler Sys.init cpu0 slot0

theorem reach_initRunning : Reach initRunning := by
  have hstep : step Sys.init (.scheduler cpu0 slot0) = some initRunning := by
    simp only [ProcTable.step]
    rw [if_pos (by decide)]
    rfl
  exact Reach.step _ Reach.init hstep

/-- CPU `0`, and no other, runs `initproc` once the scheduler has switched
to it. -/
theorem proctable_invariants_initRunning : ∃! c, initRunning.cpus c = some slot0 :=
  ((proctable_invariants reach_initRunning).2.2.1 slot0).mp (by decide)

/-- `k` rounds of `nextpid + 1` from one past `a` pids. -/
theorem iterate_intSucc (a k : Nat) :
    intSucc^[k] (((1 + a : Nat) : Int).bmod (2 ^ 32)) = ((1 + (a + k) : Nat) : Int).bmod (2 ^ 32) := by
  induction k with
  | zero => rw [Function.iterate_zero_apply, Nat.add_zero]
  | succ k ih => rw [Function.iterate_succ_apply', ih, intSucc_bmod, Nat.add_assoc]

/-- **A failed `fork` only spends a pid**, where the first free slot is
zeroed. -/
theorem step_fork_fails {c : Fin NCPU} {p np : Fin NPROC} (hp : s.caller c = some p)
    (hnp : firstUnused s = some np) (hzero : s.proc np = ⟨.unused, none, false, 0, 0, none, .user⟩) :
    step s (.fork c false false) = some { s with nextpid := intSucc s.nextpid, allocated := s.allocated + 1 } := by
  have hfree : freeproc { s.proc np with pid := s.nextpid, state := .used, pc := .user } = s.proc np := by
    rw [hzero]
    rfl
  simp only [ProcTable.step, hp, Option.map_some, forkAlloc, allocproc, hnp, Bool.false_eq_true, ↓reduceIte]
  congr 1
  simp only [Sys.set, allocFound, allocpid, Function.update_self, Function.update_idem, hfree, Function.update_eq_self]

/-- `s` after `k` failed `fork`s. -/
def Sys.spent (s : Sys) (k : Nat) : Sys :=
  { s with nextpid := intSucc^[k] s.nextpid, allocated := s.allocated + k }

/-- So any number of failed `fork`s is a run. -/
theorem reach_forks_fail (h : Reach s) {c : Fin NCPU} {p np : Fin NPROC} (hp : s.caller c = some p)
    (hnp : firstUnused s = some np) (hzero : s.proc np = ⟨.unused, none, false, 0, 0, none, .user⟩) (k : Nat) :
    Reach (s.spent k) := by
  induction k with
  | zero => exact h
  | succ k ih =>
    have hstep : step (s.spent k) (.fork c false false) = some (s.spent (k + 1)) := by
      rw [step_fork_fails (s := s.spent k) hp hnp hzero, Sys.spent, Sys.spent, Function.iterate_succ_apply']
      rfl
    exact Reach.step _ ih hstep

/-- **A `fork` that succeeds gives its child the pid `nextpid` held.** -/
theorem step_fork_starts {c : Fin NCPU} {p np : Fin NPROC} (hp : s.caller c = some p)
    (hnp : firstUnused s = some np) (hpnp : p ≠ np) :
    ∃ s', step s (.fork c true true) = some s' ∧ (s'.proc np).state = .used ∧
      (s'.proc np).pid = s.nextpid ∧ s'.proc p = { s.proc p with pc := .forked np } := by
  refine ⟨_, by simp only [ProcTable.step, hp, Option.map_some, forkAlloc, allocproc, hnp]; rfl, ?_, ?_, ?_⟩
  · simp [Function.update_of_ne hpnp.symm]
  · simp [Function.update_of_ne hpnp.symm]
  · simp [Function.update_of_ne hpnp]

/-- **The pid counter wraps.** `nextpid` only goes up, and a failed `fork`
spends a pid too: after `2 ^ 31 - 2` failed `fork`s by `initproc`, a `fork`
gives its child the pid `INT_MIN`; after `2 ^ 32 - 1`, the pid `1`, which
`initproc` still has. -/
theorem pid_wraps :
    (∃ s, Reach s ∧ ∃ p, (s.proc p).state = .used ∧ (s.proc p).pid = -2 ^ 31) ∧
      ∃ s, Reach s ∧ ∃ p q, p ≠ q ∧ (s.proc p).state ≠ .unused ∧ (s.proc q).state ≠ .unused ∧
        (s.proc p).pid = (s.proc q).pid := by
  -- `initproc` runs on CPU `0`, and slot `1` is free and zeroed
  have hp : initRunning.caller cpu0 = some slot0 := by decide
  have hnp : firstUnused initRunning = some slot1 := by decide
  have hzero : initRunning.proc slot1 = ⟨.unused, none, false, 0, 0, none, .user⟩ := by decide
  have hnext : initRunning.nextpid = ((1 + 1 : Nat) : Int).bmod (2 ^ 32) := by decide
  -- `k` failed `fork`s, then one that succeeds
  have hrun : ∀ k, ∃ s', Reach s' ∧ (s'.proc slot1).state = .used ∧
      (s'.proc slot1).pid = ((1 + (1 + k) : Nat) : Int).bmod (2 ^ 32) ∧
      s'.proc slot0 = { initRunning.proc slot0 with pc := .forked slot1 } := by
    intro k
    have hpk : (initRunning.spent k).caller cpu0 = some slot0 := hp
    have hnpk : firstUnused (initRunning.spent k) = some slot1 := hnp
    obtain ⟨s', hstep, hused, hpid, hinit⟩ := step_fork_starts hpk hnpk (by decide)
    refine ⟨s', Reach.step _ (reach_forks_fail reach_initRunning hp hnp hzero k) hstep, hused, ?_, hinit⟩
    rw [hpid]
    show intSucc^[k] initRunning.nextpid = _
    rw [hnext, iterate_intSucc]
  obtain ⟨s₁, h₁, hused₁, hpid₁, -⟩ := hrun (2 ^ 31 - 2)
  obtain ⟨s₂, h₂, hused₂, hpid₂, hinit₂⟩ := hrun (2 ^ 32 - 1)
  refine ⟨⟨s₁, h₁, slot1, hused₁, by rw [hpid₁]; decide⟩,
    ⟨s₂, h₂, slot0, slot1, by decide, by rw [hinit₂]; decide, by rw [hused₂]; decide, ?_⟩⟩
  rw [hpid₂, hinit₂]
  decide

/-! ## `kill` as one call -/

/-- **`kill(pid)` stops at the first slot with that pid**, in whatever state
it is: it kills that slot and returns `0`; with none, it returns `-1` and
changes nothing. -/
theorem killLoop_find (pid : Int) : ∀ (qs : List (Fin NPROC)) (s : Sys),
    killLoop pid qs s = match qs.find? (fun q => (s.proc q).pid = pid) with
      | some q => (kill s q pid, 0)
      | none => (s, -1)
  | [], _ => rfl
  | q :: qs, s => by
    by_cases hq : (s.proc q).pid = pid
    · simp [killLoop, hq]
    · simp [killLoop, hq, killLoop_find pid qs s]

/-- A pass of `kill` leaves every other slot as it was. -/
theorem kill_proc_of_ne (s : Sys) {q r : Fin NPROC} (hr : r ≠ q) (pid : Int) : (kill s q pid).proc r = s.proc r := by
  unfold ProcTable.kill
  split
  · rw [Sys.set_proc, Function.update_of_ne hr]
  · rfl

/-- A pass of `kill` changes no state but a `SLEEPING` one. -/
theorem kill_state (s : Sys) (q r : Fin NPROC) (pid : Int) (hq : (s.proc q).state ≠ .sleeping) :
    ((kill s q pid).proc r).state = (s.proc r).state := by
  by_cases hr : r = q
  · subst hr
    unfold ProcTable.kill
    split
    · simp only [Sys.set_proc, Function.update_self]
    · rfl
  · rw [kill_proc_of_ne s hr]

/-- `allocproc` looks at the states only. -/
theorem firstUnused_congr {s s' : Sys} (h : ∀ q, (s'.proc q).state = (s.proc q).state) :
    firstUnused s' = firstUnused s := by
  simp only [firstUnused, h]

/-- **`kill(0)` kills the next child.** In every table whose free slots
have pid `0`, as `procinit` and `freeproc` leave them, and whose processes
in use do not: `kill(0)` finds the first free slot, sets its `killed` and
returns `0`, though no process has pid `0`; `allocproc` does not clear
`killed`, so the process the next `fork` creates there starts killed. -/
theorem kill_zero_kills_next_child {s : Sys} {p : Fin NPROC} (hp : firstUnused s = some p)
    (hfree : ∀ q, (s.proc q).state = .unused → (s.proc q).pid = 0)
    (hlive : ∀ q, (s.proc q).state ≠ .unused → (s.proc q).pid ≠ 0) :
    (sysKill s 0).2 = 0 ∧ (allocproc (sysKill s 0).1 true).2 = some p ∧
      ((allocproc (sysKill s 0).1 true).1.proc p).killed = true := by
  -- the slots with pid `0` are the free ones, so `kill`'s loop stops where `allocproc`'s does
  have hzero : (fun q => decide ((s.proc q).pid = 0)) = fun q => decide ((s.proc q).state = .unused) := by
    funext q
    by_cases hq : (s.proc q).state = .unused
    · simp [hq, hfree q hq]
    · simp [hq, hlive q hq]
  have hkill : sysKill s 0 = (kill s p 0, 0) := by
    rw [sysKill, killLoop_find, hzero]
    rw [firstUnused] at hp
    rw [hp]
  have hunused : (s.proc p).state = .unused := firstUnused_some hp
  have hfirst : firstUnused (kill s p 0) = some p :=
    (firstUnused_congr fun q => kill_state s p q 0 (by rw [hunused]; decide)).trans hp
  have hkilled : ((kill s p 0).proc p).killed = true := by
    simp [ProcTable.kill, hfree p hunused]
  refine ⟨by rw [hkill], ?_, ?_⟩
  · simp only [hkill, allocproc, hfirst, if_true]
  · simp only [hkill, allocproc, hfirst, if_true, allocFound_proc, Function.update_self, hkilled]

/-- After `userinit`, `kill(0)` returns `0` and the first child of
`initproc` starts killed. -/
theorem kill_zero_kills_next_child_init :
    (sysKill Sys.init 0).2 = 0 ∧ (allocproc (sysKill Sys.init 0).1 true).2 = some slot1 ∧
      ((allocproc (sysKill Sys.init 0).1 true).1.proc slot1).killed = true :=
  kill_zero_kills_next_child (by decide) (by decide) (by decide)

end ProcTable

end Mkros
