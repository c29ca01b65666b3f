/-!
# Interrupt nesting `push_off` and `pop_off`, and `sched`'s `intena`

`push_off` and `pop_off` (`spinlock.c`) are `intr_off` and `intr_on` made to
nest: `acquire` opens with a `push_off` and `release` ends with a `pop_off`.
The CPU counts the open `push_off`s in `noff` and keeps, in `intena`, whether
interrupts were on before the outermost one; the hart's `sstatus.SIE` bit is
`sie`. `sched` checks that `p->lock` is the one lock held and that interrupts
are off, and saves `intena` around `swtch`: the thread may come back on
another CPU, whose `intena` its scheduler set.

What the nesting is for is `Nesting`: a depth, and the interrupt state that
holds outside every `push_off`, which `intr_on` and `intr_off` change only
there. A CPU stands for it through `abs`, and every allowed call keeps the
two in step (`step_refines`, `run_refines`): so `noff` is the depth,
interrupts stay off while it is positive, and back at depth `0` they are
what they were before the outermost `push_off`. `sched` is no step at all
for the thread that calls it: it leaves on a CPU at depth one with
interrupts off, and comes back with its own `intena`.
-/

namespace Mkros

namespace Intr

/-- `struct cpu`'s `noff` and `intena`, and the hart's `sstatus.SIE`. -/
structure Cpu where
  noff : Nat
  intena : Bool
  sie : Bool
  deriving DecidableEq, Repr

/-- `intr_on()`. -/
def intrOn (c : Cpu) : Cpu := { c with sie := true }

/-- `intr_off()`. -/
def intrOff (c : Cpu) : Cpu := { c with sie := false }

/-- `push_off()`. -/
def pushOff (c : Cpu) : Cpu :=
  let old := c.sie
  let c := intrOff c
  let c := if c.noff = 0 then { c with intena := old } else c
  { c with noff := c.noff + 1 }

/-- `pop_off()`. A panic is an `error` with its message. -/
def popOff (c : Cpu) : Except String Cpu :=
  if c.sie then .error "pop_off - interruptible"
  else if c.noff < 1 then .error "pop_off"
  else
    let c := { c with noff := c.noff - 1 }
    if c.noff = 0 ∧ c.intena then .ok (intrOn c) else .ok c

/-- `sched()` on the CPU `c`, as far as interrupts go: its checks on `noff`
and `intr_get()`, then `intena` saved across `swtch`, from which the thread
comes back to `resume`, the CPU as the scheduler that switches to it left
it. -/
def sched (c resume : Cpu) : Except String Cpu :=
  if c.noff ≠ 1 then .error "sched locks"
  else if c.sie then .error "sched interruptible"
  else
    let intena := c.intena
    -- `swtch(&p->context, &this_cpu()->context); this_cpu()->intena = intena;`
    .ok { resume with intena := intena }

/-- What a kernel thread does to its CPU's interrupt state: the `push_off`
and `pop_off` of `acquire` and `release` and their own, `intr_on` and
`intr_off`, and `sched`, which comes back to `resume`. -/
inductive Op
  | pushOff
  | popOff
  | intrOn
  | intrOff
  | sched (resume : Cpu)

/-- One call. -/
def Op.run (c : Cpu) : Op → Except String Cpu
  | .pushOff => .ok (Intr.pushOff c)
  | .popOff => Intr.popOff c
  | .intrOn => .ok (Intr.intrOn c)
  | .intrOff => .ok (Intr.intrOff c)
  | .sched resume => Intr.sched c resume

/-- A run of calls, stopping at the first panic. -/
def runOps (c : Cpu) : List Op → Except String Cpu
  | [] => .ok c
  | op :: ops =>
    match op.run c with
    | .error e => .error e
    | .ok c => runOps c ops

/-! ## What nesting means -/

/-- **The nesting**: how many `push_off`s are open, and the interrupt state
outside all of them. -/
structure Nesting where
  depth : Nat
  outer : Bool
  deriving DecidableEq, Repr

/-- The interrupt state the nesting promises: off inside a `push_off`. -/
def Nesting.sie (n : Nesting) : Bool := if n.depth = 0 then n.outer else false

/-- What a call does to the nesting. `sched` does nothing: the thread comes
back as deep as it left. -/
def Nesting.step (n : Nesting) : Op → Nesting
  | .pushOff => { n with depth := n.depth + 1 }
  | .popOff => { n with depth := n.depth - 1 }
  | .intrOn => { n with outer := true }
  | .intrOff => if n.depth = 0 then { n with outer := false } else n
  | .sched _ => n

/-- The calls a correct kernel makes: a `pop_off` closes an open `push_off`;
`intr_on` only outside every `push_off`; `sched` holding the one lock
`p->lock`, to a CPU one deep with interrupts off. -/
def Nesting.Allowed (n : Nesting) : Op → Prop
  | .pushOff => True
  | .popOff => 0 < n.depth
  | .intrOn => n.depth = 0
  | .intrOff => True
  | .sched resume => n.depth = 1 ∧ resume.noff = 1 ∧ resume.sie = false

/-- A run of allowed calls. -/
def Nesting.AllowedRun : Nesting → List Op → Prop
  | _, [] => True
  | n, op :: ops => n.Allowed op ∧ (n.step op).AllowedRun ops

/-- The nesting after a run. -/
def Nesting.run : Nesting → List Op → Nesting
  | n, [] => n
  | n, op :: ops => (n.step op).run ops

/-- A call of `push_off`, `pop_off` or `sched`: the calls that leave the
state outside the nesting alone. -/
def Op.Nests : Op → Prop
  | .pushOff => True
  | .popOff => True
  | .intrOn => False
  | .intrOff => False
  | .sched _ => True

/-- **`push_off`, `pop_off` and `sched` keep the outer state.** -/
theorem Nesting.run_outer : ∀ (n : Nesting) (ops : List Op), (∀ op ∈ ops, op.Nests) → (n.run ops).outer = n.outer
  | _, [], _ => rfl
  | n, op :: ops, h => by
    have hop : (n.step op).outer = n.outer := by
      have := h op List.mem_cons_self
      cases op with
      | pushOff => rfl
      | popOff => rfl
      | intrOn => exact absurd this id
      | intrOff => exact absurd this id
      | sched _ => rfl
    rw [Nesting.run, Nesting.run_outer (n.step op) ops fun op' h' => h op' (List.mem_cons_of_mem _ h'), hop]

/-! ## The CPU stands for the nesting -/

/-- Interrupts are off while a `push_off` is open. -/
def Inv (c : Cpu) : Prop := 0 < c.noff → c.sie = false

/-- The nesting a CPU stands for: `noff`, and outside every `push_off` the
interrupt state, inside them `intena`. -/
def abs (c : Cpu) : Nesting := ⟨c.noff, if c.noff = 0 then c.sie else c.intena⟩

section Steps

variable {c : Cpu}

/-- `push_off` records the interrupt state at the outermost one. -/
theorem pushOff_refines : Inv (pushOff c) ∧ abs (pushOff c) = (abs c).step .pushOff := by
  refine ⟨fun _ => by simp only [pushOff]; split <;> rfl, ?_⟩
  by_cases h0 : c.noff = 0
  · simp [pushOff, abs, Nesting.step, intrOff, h0]
  · simp [pushOff, abs, Nesting.step, intrOff, h0]

/-- `pop_off` of an open `push_off` does not panic, and the last one puts
back what the first recorded. -/
theorem popOff_refines (h : Inv c) (hpos : 0 < c.noff) :
    ∃ c', popOff c = .ok c' ∧ Inv c' ∧ abs c' = (abs c).step .popOff := by
  have hsie : c.sie = false := h hpos
  have hne : c.noff ≠ 0 := Nat.pos_iff_ne_zero.mp hpos
  by_cases hlast : c.noff - 1 = 0 ∧ c.intena = true
  · -- the outermost `push_off` closes with interrupts on before it
    refine ⟨intrOn { c with noff := c.noff - 1 }, ?_, fun hp => absurd hlast.1 (Nat.pos_iff_ne_zero.mp hp), ?_⟩
    · simp only [popOff, hsie, Bool.false_eq_true, if_false, if_neg (Nat.not_lt.mpr hpos), if_pos hlast]
    · simp [abs, Nesting.step, intrOn, hlast.1, hne, hlast.2]
  · refine ⟨{ c with noff := c.noff - 1 }, ?_, fun _ => hsie, ?_⟩
    · simp only [popOff, hsie, Bool.false_eq_true, if_false, if_neg (Nat.not_lt.mpr hpos), if_neg hlast]
    · by_cases h1 : c.noff - 1 = 0
      · -- the outermost one, with interrupts off before it: they stay off
        have hena : c.intena = false := by simpa [h1] using hlast
        simp [abs, Nesting.step, h1, hne, hena, hsie]
      · simp [abs, Nesting.step, h1, hne]

/-- `intr_on` outside every `push_off`. -/
theorem intrOn_refines (h0 : c.noff = 0) : Inv (intrOn c) ∧ abs (intrOn c) = (abs c).step .intrOn := by
  refine ⟨fun hp => absurd h0 (Nat.pos_iff_ne_zero.mp hp), ?_⟩
  simp [abs, Nesting.step, intrOn, h0]

theorem intrOff_refines : Inv (intrOff c) ∧ abs (intrOff c) = (abs c).step .intrOff := by
  refine ⟨fun _ => rfl, ?_⟩
  by_cases h0 : c.noff = 0
  · simp [abs, Nesting.step, intrOff, h0]
  · simp [abs, Nesting.step, intrOff, h0]

/-- **`sched` keeps the thread's `intena`**: it comes back to whatever CPU
with the `intena` it left with, and as deep as that CPU is. -/
theorem sched_ok {resume : Cpu} (h : Inv c) (h1 : c.noff = 1) :
    sched c resume = .ok { resume with intena := c.intena } := by
  have hsie : c.sie = false := h (by omega)
  simp only [sched, h1, ne_eq, not_true_eq_false, if_false, hsie, Bool.false_eq_true]

/-- Coming back one deep with interrupts off, the thread finds the nesting
it left. -/
theorem sched_refines {resume : Cpu} (h1 : c.noff = 1) (hr : resume.noff = 1) (hrs : resume.sie = false) :
    Inv { resume with intena := c.intena } ∧ abs { resume with intena := c.intena } = (abs c).step (.sched resume) := by
  refine ⟨fun _ => hrs, ?_⟩
  simp [abs, Nesting.step, h1, hr]

/-- **One allowed call keeps the CPU and the nesting in step.** -/
theorem step_refines (h : Inv c) : ∀ op : Op, (abs c).Allowed op →
    ∃ c', op.run c = .ok c' ∧ Inv c' ∧ abs c' = (abs c).step op
  | .pushOff, _ => ⟨pushOff c, rfl, pushOff_refines⟩
  | .popOff, hpos => popOff_refines h hpos
  | .intrOn, h0 => ⟨intrOn c, rfl, intrOn_refines h0⟩
  | .intrOff, _ => ⟨intrOff c, rfl, intrOff_refines⟩
  | .sched _, ⟨h1, hr, hrs⟩ => ⟨_, sched_ok h h1, sched_refines h1 hr hrs⟩

end Steps

/-- **A run of allowed calls keeps the CPU and the nesting in step**, by
induction on the calls, each one by `step_refines`. -/
theorem run_refines : ∀ (c : Cpu) (ops : List Op), Inv c → (abs c).AllowedRun ops →
    ∃ c', runOps c ops = .ok c' ∧ Inv c' ∧ abs c' = (abs c).run ops
  | c, [], h, _ => ⟨c, rfl, h, rfl⟩
  | c, op :: ops, h, ⟨hop, hrest⟩ => by
    obtain ⟨c₁, hrun, h₁, habs⟩ := step_refines h op hop
    rw [← habs] at hrest
    obtain ⟨c', hrun', h', habs'⟩ := run_refines c₁ ops h₁ hrest
    refine ⟨c', ?_, h', ?_⟩
    · rw [runOps, hrun]
      exact hrun'
    · rw [habs', habs]
      rfl

/-- The law read off the nesting: a run of allowed calls never panics,
`noff` is the depth, interrupts are off while it is positive and, at depth
`0`, what the nesting keeps outside. -/
theorem runOps_law {c : Cpu} (h : Inv c) {ops : List Op} (hops : (abs c).AllowedRun ops) :
    ∃ c', runOps c ops = .ok c' ∧ c'.noff = ((abs c).run ops).depth ∧ (0 < c'.noff → c'.sie = false) ∧
      (c'.noff = 0 → c'.sie = ((abs c).run ops).outer) := by
  obtain ⟨c', hrun, h', habs⟩ := run_refines c ops h hops
  refine ⟨c', hrun, congrArg Nesting.depth habs, h', fun h0 => ?_⟩
  have houter := congrArg Nesting.outer habs
  simp only [abs, h0, if_true] at houter
  exact houter

/-- Two locks taken with interrupts on and let go: they come back on. -/
example : runOps ⟨0, false, true⟩ [.pushOff, .pushOff, .popOff, .popOff] = .ok ⟨0, true, true⟩ := rfl

/-- **Interrupt nesting.** On every CPU with interrupts off inside its open
`push_off`s, any run of `push_off`, `pop_off` (those of `acquire` and
`release` among them), `intr_on` outside every `push_off`, `intr_off` and
`sched`, in which each `pop_off` closes an open `push_off`, never panics;
`noff` is the nesting depth, interrupts stay off while it is positive, and
at depth `0` they are as the nesting keeps them outside. From depth `0`, a
run of `push_off`, `pop_off` and `sched` back to depth `0` leaves interrupts
as they were before its outermost `push_off`. And `sched`, on a CPU holding
one lock with interrupts off, comes back on whatever CPU with the `intena` it
left with. -/
theorem push_off_pop_off_nesting :
    (∀ (c : Cpu) (ops : List Op), Inv c → (abs c).AllowedRun ops →
      ∃ c', runOps c ops = .ok c' ∧ c'.noff = ((abs c).run ops).depth ∧ (0 < c'.noff → c'.sie = false) ∧
        (c'.noff = 0 → c'.sie = ((abs c).run ops).outer)) ∧
    (∀ (c : Cpu) (ops : List Op), c.noff = 0 → (∀ op ∈ ops, op.Nests) → (abs c).AllowedRun ops →
      ((abs c).run ops).depth = 0 → ∃ c', runOps c ops = .ok c' ∧ c'.noff = 0 ∧ c'.sie = c.sie) ∧
    (∀ c resume : Cpu, Inv c → c.noff = 1 → sched c resume = .ok { resume with intena := c.intena }) := by
  refine ⟨fun c ops h hops => runOps_law h hops, fun c ops h0 hn hops hd => ?_, fun c resume h h1 => sched_ok h h1⟩
  have h : Inv c := fun hp => absurd h0 (Nat.pos_iff_ne_zero.mp hp)
  obtain ⟨c', hrun, hnoff, -, hsie⟩ := runOps_law h hops
  have hnoff0 : c'.noff = 0 := hnoff.trans hd
  refine ⟨c', hrun, hnoff0, ?_⟩
  -- the calls leave the outer state, which is the interrupt state at depth `0`
  rw [hsie hnoff0, Nesting.run_outer _ _ hn]
  simp [abs, h0]

/-- Two nested `push_off`s and their `pop_off`s, from a CPU at depth `0`
with interrupts on, leave it at depth `0` with interrupts on. -/
theorem push_off_pop_off_nesting_two_deep :
    ∃ c', runOps ⟨0, false, true⟩ [.pushOff, .pushOff, .popOff, .popOff] = .ok c' ∧ c'.noff = 0 ∧ c'.sie = true :=
  push_off_pop_off_nesting.2.1 ⟨0, false, true⟩ _ rfl (by simp [Op.Nests])
    (by simp [Nesting.AllowedRun, Nesting.Allowed, Nesting.step, abs]) (by decide)

end Intr

end Mkros
