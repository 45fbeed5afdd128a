import Mathlib.Algebra.Order.BigOperators.Group.Finset
import Mathlib.Data.Fintype.BigOperators

namespace Foundation

/-! # Machines and pools of threads

A machine is a labelled transition system whose moves are computed, so that a
concrete schedule can be run.  A pool is a machine made of one shared state and
one local state for each thread; a move advances exactly one thread.  Nothing
here depends on what the threads execute.
-/

/-- `move` returns `none` when the label is not enabled in the state. -/
structure Machine (State Label : Type*) where
  start : State → Prop
  move : State → Label → Option State

namespace Machine

variable {State Label : Type*} (machine : Machine State Label)

/-- The guard admitting every move. -/
def free : State → Label → Prop := fun _ _ => True

instance : DecidableRel (free : State → Label → Prop) := fun _ _ => isTrue trivial

/-- A finite run all of whose moves are taken in a state that meets the guard. -/
inductive Run (guard : State → Label → Prop) : State → State → Prop where
  | refl (state : State) : Run guard state state
  | tail {first middle last : State} {label : Label} (before : Run guard first middle)
      (allowed : guard middle label) (moved : machine.move middle label = some last) :
      Run guard first last

def Reachable (guard : State → Label → Prop) (state : State) : Prop :=
  ∃ first, machine.start first ∧ machine.Run guard first state

variable {machine} {guard : State → Label → Prop}

theorem Run.trans {first middle last : State} (before : machine.Run guard first middle)
    (after : machine.Run guard middle last) : machine.Run guard first last := by
  induction after with
  | refl => exact before
  | tail _ allowed moved ih => exact ih.tail allowed moved

theorem Run.preserves {invariant : State → Prop} {first last : State}
    (run : machine.Run guard first last)
    (preserved : ∀ state label next, invariant state → guard state label →
      machine.move state label = some next → invariant next)
    (holds : invariant first) : invariant last := by
  induction run with
  | refl => exact holds
  | tail _ allowed moved ih => exact preserved _ _ _ ih allowed moved

/-- The invariant rule: what holds at the start and survives every admitted
move holds in every reachable state. -/
theorem Reachable.invariant {invariant : State → Prop} {state : State}
    (reachable : machine.Reachable guard state)
    (initial : ∀ first, machine.start first → invariant first)
    (preserved : ∀ state label next, invariant state → guard state label →
      machine.move state label = some next → invariant next) : invariant state := by
  obtain ⟨first, started, run⟩ := reachable
  exact run.preserves preserved (initial first started)

theorem Reachable.step {state next : State} {label : Label}
    (reachable : machine.Reachable guard state) (allowed : guard state label)
    (moved : machine.move state label = some next) : machine.Reachable guard next := by
  obtain ⟨first, started, run⟩ := reachable
  exact ⟨first, started, run.tail allowed moved⟩

/-- The invariant rule for a run that begins in a reachable state. -/
theorem Run.reachable_preserves {stronger : State → Label → Prop} {first last : State}
    (run : machine.Run stronger first last) (invariant : State → Prop)
    (reachable : machine.Reachable guard first)
    (weaker : ∀ state label, stronger state label → guard state label)
    (preserved : ∀ state label next, machine.Reachable guard state → invariant state →
      stronger state label → machine.move state label = some next → invariant next)
    (holds : invariant first) : machine.Reachable guard last ∧ invariant last := by
  induction run with
  | refl => exact ⟨reachable, holds⟩
  | tail _ allowed moved ih =>
      exact ⟨ih.1.step (weaker _ _ allowed) moved, preserved _ _ _ ih.1 ih.2 allowed moved⟩

/-- A run that leaves a property behind has a first state without it. -/
theorem Run.avoids {first last : State} (run : machine.Run guard first last)
    (property : State → Prop) :
    machine.Run (fun state label => guard state label ∧ property state) first last ∨
      ∃ middle, machine.Run guard first middle ∧ machine.Run guard middle last ∧
        ¬ property middle := by
  induction run with
  | refl => exact .inl (.refl first)
  | @tail middle last label before allowed moved ih =>
      rcases ih with avoiding | ⟨found, reached, rest, fails⟩
      · by_cases holds : property middle
        · exact .inl (avoiding.tail ⟨allowed, holds⟩ moved)
        · exact .inr ⟨middle, before, (Run.refl middle).tail allowed moved, holds⟩
      · exact .inr ⟨found, reached, rest.tail allowed moved, fails⟩

theorem Reachable.mono {stronger : State → Label → Prop} {state : State}
    (weaker : ∀ state label, stronger state label → guard state label)
    (reachable : machine.Reachable stronger state) : machine.Reachable guard state := by
  obtain ⟨first, started, run⟩ := reachable
  refine ⟨first, started, ?_⟩
  clear started
  induction run with
  | refl => exact .refl _
  | tail _ allowed moved ih => exact ih.tail (weaker _ _ allowed) moved

variable (machine) (guard)

/-- Execute a schedule, giving up at a label that is not enabled or not admitted. -/
def exec [DecidableRel guard] : State → List Label → Option State
  | state, [] => some state
  | state, label :: rest =>
      if guard state label then (machine.move state label).bind fun next => exec next rest
      else none

variable {machine} {guard}

@[simp] theorem exec_nil [DecidableRel guard] (state : State) :
    machine.exec guard state [] = some state := rfl

theorem exec_label [DecidableRel guard] (state : State) (label : Label) (rest : List Label) :
    machine.exec guard state (label :: rest) =
      if guard state label then
        (machine.move state label).bind fun next => machine.exec guard next rest
      else none := rfl

/-- What a schedule that executes has done first. -/
theorem exec_cons_eq_some [DecidableRel guard] {first last : State} {label : Label}
    {rest : List Label} :
    machine.exec guard first (label :: rest) = some last ↔
      guard first label ∧ ∃ next, machine.move first label = some next ∧
        machine.exec guard next rest = some last := by
  rw [exec_label, Option.ite_none_right_eq_some, Option.bind_eq_some_iff]

theorem exec_run [DecidableRel guard] {first last : State} {labels : List Label}
    (executed : machine.exec guard first labels = some last) :
    machine.Run guard first last := by
  induction labels generalizing first with
  | nil =>
      cases executed
      exact .refl _
  | cons label rest ih =>
      obtain ⟨allowed, next, moved, remaining⟩ := exec_cons_eq_some.mp executed
      exact ((Run.refl first).tail allowed moved).trans (ih remaining)

theorem exec_cons [DecidableRel guard] {first next : State} {label : Label} {rest : List Label}
    (allowed : guard first label) (moved : machine.move first label = some next) :
    machine.exec guard first (label :: rest) = machine.exec guard next rest := by
  rw [exec_label, if_pos allowed, moved, Option.bind_some]

theorem exec_mono {weaker : State → Label → Prop} [DecidableRel guard] [DecidableRel weaker]
    (weakens : ∀ state label, guard state label → weaker state label) {first last : State}
    {labels : List Label} (executed : machine.exec guard first labels = some last) :
    machine.exec weaker first labels = some last := by
  induction labels generalizing first with
  | nil => exact executed
  | cons label rest ih =>
      obtain ⟨allowed, next, moved, remaining⟩ := exec_cons_eq_some.mp executed
      rw [exec_cons (weakens first label allowed) moved]
      exact ih remaining

/-- A schedule either meets a further guard at every label or leads to a first
label that does not. -/
theorem exec_or_strays (stronger : State → Label → Prop) [DecidableRel guard]
    [DecidableRel stronger] {first last : State} {labels : List Label}
    (executed : machine.exec guard first labels = some last) :
    machine.exec stronger first labels = some last ∨
      machine.exec stronger first labels = none ∧ ∃ state label next,
        machine.Run stronger first state ∧ ¬ stronger state label ∧
          machine.move state label = some next ∧ machine.Run guard next last := by
  induction labels generalizing first with
  | nil => exact .inl executed
  | cons label rest ih =>
      obtain ⟨_, next, moved, remaining⟩ := exec_cons_eq_some.mp executed
      by_cases allowed : stronger first label
      · rw [exec_cons allowed moved]
        cases ih remaining with
        | inl kept => exact .inl kept
        | inr strays =>
            obtain ⟨stops, state, after, reached, run, missed, moves, onwards⟩ := strays
            refine .inr ⟨stops, state, after, reached, ?_, missed, moves, onwards⟩
            exact ((Run.refl first).tail allowed moved).trans run
      · refine .inr ⟨by rw [exec_label, if_neg allowed], ?_⟩
        exact ⟨first, label, next, .refl first, allowed, moved, exec_run remaining⟩

theorem exec_append [DecidableRel guard] {first middle : State} {labels rest : List Label}
    (executed : machine.exec guard first labels = some middle) :
    machine.exec guard first (labels ++ rest) = machine.exec guard middle rest := by
  induction labels generalizing first with
  | nil =>
      cases executed
      rfl
  | cons label labels ih =>
      obtain ⟨allowed, next, moved, remaining⟩ := exec_cons_eq_some.mp executed
      rw [List.cons_append, exec_cons allowed moved]
      exact ih remaining

variable (machine) (guard)

/-- A schedule that executes and ends in a state with the property witnesses
that the property is reachable. -/
theorem reachable_of_exec [DecidableRel guard] (first : State) (labels : List Label)
    (property : State → Prop) (started : machine.start first)
    (executed : ∃ last, machine.exec guard first labels = some last ∧ property last) :
    ∃ state, machine.Reachable guard state ∧ property state := by
  obtain ⟨last, executed, holds⟩ := executed
  exact ⟨last, ⟨first, started, exec_run executed⟩, holds⟩

/-- The same for a property that is decided by evaluation. -/
theorem reachable_of_any [DecidableRel guard] (first : State) (labels : List Label)
    (property : State → Prop) [DecidablePred property] (started : machine.start first)
    (executed : (machine.exec guard first labels).any (fun last => decide (property last)) = true) :
    ∃ state, machine.Reachable guard state ∧ property state := by
  obtain ⟨last, executed, holds⟩ := (Option.any_eq_true _ _).mp executed
  exact reachable_of_exec machine guard first labels property started
    ⟨last, executed, of_decide_eq_true holds⟩

end Machine

/-! ## Two machines stepped by the same labels -/

namespace Machine

variable {Concrete Abstract Label : Type*}

/-- A concrete machine beside an abstract one that answers the same labels; a
label is enabled when both admit it. -/
def product (concrete : Machine Concrete Label) (abstract : Machine Abstract Label) :
    Machine (Concrete × Abstract) Label where
  start state := concrete.start state.1 ∧ abstract.start state.2
  move state label :=
    (concrete.move state.1 label).bind fun next =>
      (abstract.move state.2 label).map fun nextAbstract => (next, nextAbstract)

variable {concrete : Machine Concrete Label} {abstract : Machine Abstract Label}
  {guard : Abstract → Label → Prop}

/-- A guard that looks at the abstract state only. -/
def abstractly (guard : Abstract → Label → Prop) : Concrete × Abstract → Label → Prop :=
  fun state label => guard state.2 label

instance [decidable : DecidableRel guard] :
    DecidableRel (abstractly guard : Concrete × Abstract → Label → Prop) :=
  fun state label => decidable state.2 label

theorem product_move_eq_some {state next : Concrete × Abstract} {label : Label} :
    (product concrete abstract).move state label = some next ↔
      concrete.move state.1 label = some next.1 ∧ abstract.move state.2 label = some next.2 := by
  obtain ⟨nextConcrete, nextAbstract⟩ := next
  simp [product, Option.bind_eq_some_iff]

/-- `relation` holds at the start and survives every label that the guard admits
and the abstract machine answers. -/
structure Simulates (concrete : Machine Concrete Label) (abstract : Machine Abstract Label)
    (guard : Abstract → Label → Prop) (relation : Concrete → Abstract → Prop) : Prop where
  initial : ∀ state history, concrete.start state → abstract.start history →
    relation state history
  step : ∀ state history label next nextHistory, relation state history → guard history label →
    concrete.move state label = some next → abstract.move history label = some nextHistory →
    relation next nextHistory

theorem Simulates.related {relation : Concrete → Abstract → Prop}
    (simulates : Simulates concrete abstract guard relation) {state : Concrete × Abstract}
    (reachable : (product concrete abstract).Reachable (abstractly guard) state) :
    relation state.1 state.2 := by
  obtain ⟨first, started, run⟩ := reachable
  induction run with
  | refl => exact simulates.initial _ _ started.1 started.2
  | tail _ allowed moved ih =>
      obtain ⟨movedConcrete, movedAbstract⟩ := product_move_eq_some.mp moved
      exact simulates.step _ _ _ _ _ ih allowed movedConcrete movedAbstract

/-- The labels alone determine what the abstract machine does. -/
theorem product_exec_abstract [DecidableRel guard] {first last : Concrete × Abstract}
    {labels : List Label}
    (executed : (product concrete abstract).exec (abstractly guard) first labels = some last) :
    abstract.exec guard first.2 labels = some last.2 := by
  induction labels generalizing first with
  | nil =>
      cases executed
      rfl
  | cons label rest ih =>
      obtain ⟨allowed, next, moved, remaining⟩ := exec_cons_eq_some.mp executed
      have admitted : guard first.2 label := allowed
      rw [exec_cons admitted (product_move_eq_some.mp moved).2]
      exact ih remaining

end Machine

/-- One shared state and the local state of every thread. -/
structure Pool (Thread Shared Local : Type*) where
  shared : Shared
  locals : Thread → Local

/-- The code the threads execute: one atomic step of a thread, resolved by a
choice where the step is not determined. -/
structure Program (Thread Shared Local Label : Type*) where
  advance : Thread → Shared → Local → Label → Option (Shared × Local)

/-- A thread begins a call or takes the next step of the call it is in.
`spurious` lets a weak exchange fail although the word is the expected one. -/
inductive Choice (Call : Type*) where
  | call (call : Call)
  | step (spurious : Bool)
deriving DecidableEq

def Choice.isSpurious {Call : Type*} : Choice Call → Bool
  | .call _ => false
  | .step spurious => spurious

namespace Program

variable {Thread Shared Local Label : Type*} [DecidableEq Thread]
  (program : Program Thread Shared Local Label)

def machine (start : Pool Thread Shared Local → Prop) :
    Machine (Pool Thread Shared Local) (Thread × Label) where
  start := start
  move pool label :=
    (program.advance label.1 pool.shared (pool.locals label.1) label.2).map fun next =>
      { shared := next.1, locals := Function.update pool.locals label.1 next.2 }

variable {program} {start : Pool Thread Shared Local → Prop}
  {guard : Pool Thread Shared Local → Thread × Label → Prop}

theorem move_eq_some {pool next : Pool Thread Shared Local} {thread : Thread} {choice : Label} :
    (program.machine start).move pool (thread, choice) = some next ↔
      ∃ shared finish,
        program.advance thread pool.shared (pool.locals thread) choice = some (shared, finish) ∧
        next = { shared, locals := Function.update pool.locals thread finish } := by
  simp only [machine, Option.map_eq_some_iff, Prod.exists, eq_comm (b := next)]

/-- The invariant rule for pools, stated on the step of the one thread that moves. -/
theorem invariant {invariant : Pool Thread Shared Local → Prop} {pool : Pool Thread Shared Local}
    (reachable : (program.machine start).Reachable guard pool)
    (initial : ∀ first, start first → invariant first)
    (preserved : ∀ (pool : Pool Thread Shared Local) thread choice shared finish,
      invariant pool → guard pool (thread, choice) →
      program.advance thread pool.shared (pool.locals thread) choice = some (shared, finish) →
      invariant { shared, locals := Function.update pool.locals thread finish }) :
    invariant pool := by
  refine reachable.invariant initial ?_
  intro state label next holds allowed moved
  obtain ⟨shared, finish, advanced, rfl⟩ := move_eq_some.mp moved
  exact preserved state label.1 label.2 shared finish holds allowed advanced

/-- The invariant rule with a fact already known of every reachable pool. -/
theorem invariant_of_known {known invariant : Pool Thread Shared Local → Prop}
    {pool : Pool Thread Shared Local}
    (reachable : (program.machine start).Reachable guard pool)
    (established : ∀ pool, (program.machine start).Reachable guard pool → known pool)
    (initial : ∀ first, start first → invariant first)
    (preserved : ∀ (pool : Pool Thread Shared Local) thread choice shared finish,
      known pool → invariant pool → guard pool (thread, choice) →
      program.advance thread pool.shared (pool.locals thread) choice = some (shared, finish) →
      invariant { shared, locals := Function.update pool.locals thread finish }) :
    invariant pool := by
  obtain ⟨first, started, run⟩ := reachable
  induction run with
  | refl => exact initial _ started
  | @tail middle last label before allowed moved ih =>
      have holds := ih
      obtain ⟨shared, finish, advanced, rfl⟩ := move_eq_some.mp moved
      exact preserved middle label.1 label.2 shared finish
        (established middle ⟨first, started, before⟩) holds allowed advanced

end Program

/-- Some thread stays where it is unless it is the one that leaves. -/
theorem exists_local_update {Thread Local : Type*} [DecidableEq Thread] (place : Local → Prop)
    {locals : Thread → Local} {thread : Thread} {next : Local}
    (kept : place (locals thread) → place next) (some : ∃ other, place (locals other)) :
    ∃ other, place (Function.update locals thread next other) := by
  obtain ⟨other, standing⟩ := some
  by_cases same : other = thread
  · subst same
    exact ⟨other, by simpa using kept standing⟩
  · exact ⟨other, by simpa [Function.update_of_ne same] using standing⟩

/-! ## Naming threads

A schedule names its threads by numerals, which rest on these instances.
-/

instance (priority := high) neZeroOne : @NeZero ℕ Zero.ofOfNat0 1 := ⟨Nat.one_ne_zero⟩

instance (priority := high) neZeroTwo : @NeZero ℕ Zero.ofOfNat0 2 := ⟨Nat.succ_ne_zero 1⟩

/-! ## Counting over the threads of a pool -/

section Tally

/-- A sum over the items of a family changes by what the one item that changes weighs. -/
theorem sum_update_add {Index Item Weight : Type*} [DecidableEq Index] [AddCommMonoid Weight]
    (weight : Item → Weight) (items : Index → Item) {range : Finset Index} {index : Index}
    (member : index ∈ range) (after : Item) :
    ∑ i ∈ range, weight (Function.update items index after i) + weight (items index) =
      ∑ i ∈ range, weight (items i) + weight after := by
  have others : ∀ i ∈ range.erase index,
      weight (Function.update items index after i) = weight (items i) := by
    intro i other
    rw [Function.update_of_ne (Finset.ne_of_mem_erase other)]
  have before := Finset.add_sum_erase range (fun i => weight (items i)) member
  have updated := Finset.add_sum_erase range
    (fun i => weight (Function.update items index after i)) member
  simp only [Function.update_self] at updated
  rw [Finset.sum_congr rfl others] at updated
  rw [← before, ← updated]
  ac_rfl

variable {Thread Local : Type*} [Fintype Thread] {weight : Local → ℕ} {locals : Thread → Local}

/-- The total weight of the local states of all threads. -/
def tally (weight : Local → ℕ) (locals : Thread → Local) : ℕ := ∑ thread, weight (locals thread)

theorem tally_update [DecidableEq Thread] (weight : Local → ℕ) (locals : Thread → Local)
    (thread : Thread) (next : Local) :
    tally weight (Function.update locals thread next) + weight (locals thread) =
      tally weight locals + weight next :=
  sum_update_add weight locals (Finset.mem_univ thread) next

theorem weight_le_tally (thread : Thread) : weight (locals thread) ≤ tally weight locals :=
  Finset.single_le_sum (f := fun other => weight (locals other)) (fun _ _ => Nat.zero_le _)
    (Finset.mem_univ thread)

/-- The tally as one thread moves and the others stand still. -/
theorem exists_tally_others [DecidableEq Thread] (weight : Local → ℕ) (locals : Thread → Local)
    (thread : Thread) :
    ∃ others, tally weight locals = others + weight (locals thread) ∧
      ∀ next, tally weight (Function.update locals thread next) = others + weight next := by
  have bounded : weight (locals thread) ≤ tally weight locals := weight_le_tally thread
  refine ⟨tally weight locals - weight (locals thread), by omega, fun next => ?_⟩
  have moved := tally_update weight locals thread next
  omega

theorem tally_eq_zero : tally weight locals = 0 ↔ ∀ thread, weight (locals thread) = 0 := by
  simp [tally]

theorem tally_mono {heavier : Local → ℕ} (heavy : ∀ place, weight place ≤ heavier place) :
    tally weight locals ≤ tally heavier locals :=
  Finset.sum_le_sum fun thread _ => heavy (locals thread)

/-- Distinct threads of weight at least one are counted by the tally. -/
theorem length_le_tally {threads : List Thread} (distinct : threads.Nodup)
    (weighted : ∀ thread ∈ threads, 1 ≤ weight (locals thread)) :
    threads.length ≤ tally weight locals := by
  classical
  calc threads.length = ∑ _thread ∈ threads.toFinset, 1 := by
        simp [List.toFinset_card_of_nodup distinct]
    _ ≤ ∑ thread ∈ threads.toFinset, weight (locals thread) :=
        Finset.sum_le_sum fun thread member => weighted thread (List.mem_toFinset.mp member)
    _ ≤ tally weight locals :=
        Finset.sum_le_sum_of_subset (Finset.subset_univ _)

/-- A list that names every thread of positive weight is at least as long as the
tally when no thread weighs more than one. -/
theorem tally_le_length {threads : List Thread} (light : ∀ thread, weight (locals thread) ≤ 1)
    (listed : ∀ thread, weight (locals thread) ≠ 0 → thread ∈ threads) :
    tally weight locals ≤ threads.length := by
  classical
  have outside : ∀ thread ∈ Finset.univ, thread ∉ threads.toFinset →
      weight (locals thread) = 0 := by
    intro thread _ missing
    by_contra weighted
    exact missing (List.mem_toFinset.mpr (listed thread weighted))
  calc tally weight locals = ∑ thread ∈ threads.toFinset, weight (locals thread) :=
        (Finset.sum_subset (Finset.subset_univ _) outside).symm
    _ ≤ ∑ _thread ∈ threads.toFinset, 1 := Finset.sum_le_sum fun thread _ => light thread
    _ ≤ threads.length := by simpa using List.toFinset_card_le threads

end Tally

end Foundation
