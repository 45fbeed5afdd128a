import Asco.Core.Task.CycleScheduler.Refinement
import Asco.Core.Task.DynprioScheduler.Refinement

namespace Asco.Core.Task.Agreement

open Foundation
open CycleScheduler (WakesInTime wordCount)
open DynprioScheduler (ExecutionState PrioritiedExecution)

/-! # Two schedulers, one machine for suspending and waking

A run of either scheduler is compared with the abstract scheduler on the same
calls, and two runs on the same calls with each other.
-/

variable {N : ℕ} {Id : Type*} [DecidableEq Id]

/-- `cycle_scheduler<N>` beside the abstract scheduler. -/
def cycleScheduler (N : ℕ) (domain : Id → ExecutionState) :
    Machine (CycleScheduler.Run N Id × Suspension Id) (Event Id) :=
  (CycleScheduler.machine N domain).product (Suspension.machine N)

/-- `dynprio_scheduler` beside the abstract scheduler. -/
def dynprioScheduler (N : ℕ) (current : PrioritiedExecution Id) (domain : Id → ExecutionState) :
    Machine (DynprioScheduler.Run Id × Suspension Id) (Event Id) :=
  (DynprioScheduler.Run.machine current domain).product (Suspension.machine N)

/-- A wake-up gives up or ends at most one suspension, that of a detached
execution changes nothing, and `schedule` finds an execution while there is one. -/
structure CycleServes (guard : Suspension Id → Event Id → Prop)
    (state : CycleScheduler.Run N Id × Suspension Id) : Prop where
  resumes : ∀ id, state.1.resumed id ≤ state.1.awakes id
  stale : ∀ id ∈ state.2.detached, guard state.2 (.awake id) →
    state.1.scheduler.awakeExecution id = state.1.scheduler
  schedules : state.2.attached.card = N → state.1.scheduler.hasActiveExecution = true →
    ∃ id context scheduler, state.1.scheduler.schedule = some (some id, context, scheduler) ∧
      id ∈ state.2.attached ∧ id ∉ state.2.detached ∧ state.1.Runnable id

/-- The same of `dynprio_scheduler`, for every entry that may be on top of its
queue. -/
structure DynprioServes (guard : Suspension Id → Event Id → Prop)
    (state : DynprioScheduler.Run Id × Suspension Id) : Prop where
  resumes : ∀ id, state.1.resumed id ≤ state.1.awakes id
  stale : ∀ id ∈ state.2.detached, guard state.2 (.awake id) →
    state.1.scheduler.awakeExecution id = state.1.scheduler
  schedules : state.1.scheduler.hasActiveExecution = true →
    (∃ entry ∈ state.1.scheduler.active, state.1.scheduler.IsTop entry) ∧
    ∀ entry ∈ state.1.scheduler.active, state.1.scheduler.IsTop entry →
      (∃ scheduler, state.1.scheduler.schedule entry.id = some scheduler) ∧
      entry.id ∈ state.2.attached ∧ entry.id ∉ state.2.detached ∧ state.1.Runnable entry.id

/-- Over every sequence of calls whose steps meet the guard, the two schedulers
leave the same executions runnable and serve as schedulers. -/
structure SameMachine (N : ℕ) (current : PrioritiedExecution Id) (domain : Id → ExecutionState)
    (guard : Suspension Id → Event Id → Prop) [DecidableRel guard] : Prop where
  runnable : ∀ calls cycle dynprio,
    (cycleScheduler N domain).exec (Machine.abstractly guard) (.empty N domain, .empty Id) calls =
      some cycle →
    (dynprioScheduler N current domain).exec (Machine.abstractly guard)
      (.empty current domain, .empty Id) calls = some dynprio →
    ∀ id, cycle.1.Runnable id ↔ dynprio.1.Runnable id
  cycle : ∀ state, (cycleScheduler N domain).Reachable (Machine.abstractly guard) state →
    CycleServes guard state
  dynprio : ∀ state,
    (dynprioScheduler N current domain).Reachable (Machine.abstractly guard) state →
    DynprioServes guard state

theorem cycleServes {domain : Id → ExecutionState} (size : N < wordCount)
    {state : CycleScheduler.Run N Id × Suspension Id}
    (reachable : (cycleScheduler N domain).Reachable (Machine.abstractly WakesInTime) state) :
    CycleServes WakesInTime state := by
  have related := (CycleScheduler.simulates N domain).related reachable
  constructor
  · intro id
    have balance := related.consistent.balance id
    rw [related.resumed, related.awakes]
    omega
  · intro id detached inTime
    exact absurd detached inTime
  · intro full hasActive
    obtain ⟨id, context, scheduler, yields, attached, undetached, runnable, _⟩ :=
      related.schedules size full hasActive
    exact ⟨id, context, scheduler, yields, attached, undetached, runnable⟩

/-- `dynprio_scheduler` needs no condition on the calls. -/
theorem dynprioServes {guard : Suspension Id → Event Id → Prop} {current : PrioritiedExecution Id}
    {domain : Id → ExecutionState} {state : DynprioScheduler.Run Id × Suspension Id}
    (reachable : (dynprioScheduler N current domain).Reachable (Machine.abstractly guard) state) :
    DynprioServes guard state := by
  have related := (DynprioScheduler.simulates current domain N guard).related reachable
  constructor
  · intro id
    have balance := related.consistent.balance id
    rw [related.resumed, related.awakes]
    omega
  · intro id detached _
    have unknown : id ∉ state.1.scheduler.contexts := fun known =>
      ((related.contexts id).mp known).2 detached
    exact if_neg unknown
  · intro hasActive
    exact ⟨DynprioScheduler.exists_top hasActive, fun entry => related.schedules_top⟩

theorem runnable_iff_of_exec {guard : Suspension Id → Event Id → Prop} [DecidableRel guard]
    {current : PrioritiedExecution Id} {domain : Id → ExecutionState} {calls : List (Event Id)}
    {cycle : CycleScheduler.Run N Id × Suspension Id}
    {dynprio : DynprioScheduler.Run Id × Suspension Id}
    (inTime : ∀ history event, guard history event → WakesInTime history event)
    (cycled : (cycleScheduler N domain).exec (Machine.abstractly guard)
      (.empty N domain, .empty Id) calls = some cycle)
    (prioritised : (dynprioScheduler N current domain).exec (Machine.abstractly guard)
      (.empty current domain, .empty Id) calls = some dynprio) (id : Id) :
    cycle.1.Runnable id ↔ dynprio.1.Runnable id := by
  have cycleReachable :
      (cycleScheduler N domain).Reachable (Machine.abstractly WakesInTime) cycle := by
    have weaker (state : CycleScheduler.Run N Id × Suspension Id) (event : Event Id) :
        Machine.abstractly guard state event → Machine.abstractly WakesInTime state event :=
      inTime state.2 event
    have admitted := Machine.exec_mono weaker cycled
    exact ⟨(.empty N domain, .empty Id), ⟨rfl, rfl⟩, Machine.exec_run admitted⟩
  have dynprioReachable :
      (dynprioScheduler N current domain).Reachable (Machine.abstractly guard) dynprio :=
    ⟨(.empty current domain, .empty Id), ⟨rfl, rfl⟩, Machine.exec_run prioritised⟩
  have cycleRelated := (CycleScheduler.simulates N domain).related cycleReachable
  have dynprioRelated :=
    (DynprioScheduler.simulates current domain N guard).related dynprioReachable
  have same : cycle.2 = dynprio.2 := Option.some.inj
    ((Machine.product_exec_abstract cycled).symm.trans (Machine.product_exec_abstract prioritised))
  rw [cycleRelated.runnable_iff, dynprioRelated.runnable_iff, same]

theorem sameMachine_of_wakesInTime (size : N < wordCount) (current : PrioritiedExecution Id)
    (domain : Id → ExecutionState) : SameMachine N current domain WakesInTime where
  runnable _ _ _ cycled prioritised :=
    runnable_iff_of_exec (fun _ _ inTime => inTime) cycled prioritised
  cycle _ reachable := cycleServes size reachable
  dynprio _ reachable := dynprioServes reachable

/-- A wake-up between `suspend_current` and `end`, and one of an execution that is
suspended. -/
def twoExecutions : List (Event (Fin 2)) :=
  [.attach 0, .attach 1, .schedule 0, .suspend 0, .awake 0, .finish 0 false 3, .schedule 1,
    .suspend 1, .finish 1 false 2, .awake 1]

theorem sameMachine_of_wakesInTime_two :
    2 < wordCount ∧ ∃ cycle dynprio,
      (cycleScheduler 2 fun _ => .active).exec (Machine.abstractly WakesInTime)
        (.empty 2 fun _ => .active, .empty (Fin 2)) twoExecutions = some cycle ∧
      (dynprioScheduler 2 ⟨0, 0⟩ fun _ => .active).exec (Machine.abstractly WakesInTime)
        (.empty ⟨0, 0⟩ fun _ => .active, .empty (Fin 2)) twoExecutions = some dynprio ∧
      ∀ id, cycle.1.Runnable id ↔ dynprio.1.Runnable id := by
  have size : 2 < wordCount := by decide
  obtain ⟨cycle, cycled⟩ := Option.isSome_iff_exists.mp
    (show ((cycleScheduler 2 fun _ => .active).exec (Machine.abstractly WakesInTime)
      (.empty 2 fun _ => .active, .empty (Fin 2)) twoExecutions).isSome by decide +kernel)
  obtain ⟨dynprio, prioritised⟩ := Option.isSome_iff_exists.mp
    (show ((dynprioScheduler 2 ⟨0, 0⟩ fun _ => .active).exec (Machine.abstractly WakesInTime)
      (.empty ⟨0, 0⟩ fun _ => .active, .empty (Fin 2)) twoExecutions).isSome by decide +kernel)
  exact ⟨size, cycle, dynprio, cycled, prioritised,
    (sameMachine_of_wakesInTime size _ _).runnable _ _ _ cycled prioritised⟩

/-- A wake-up between `suspend_current` and `end`, and a second suspension. -/
def suspendedTwice : List (Event (Fin 1)) :=
  [.attach 0, .schedule 0, .suspend 0, .awake 0, .finish 0 false 1, .schedule 0, .suspend 0,
    .finish 0 false 1]

/-- `end` of `cycle_scheduler` leaves the wake-up in the slot, which gives up the
second suspension too. -/
theorem one_wake_up_gives_up_two_suspensions :
    ¬ SameMachine 1 (⟨0, 0⟩ : PrioritiedExecution (Fin 1)) (fun _ => .active) Machine.free := by
  intro same
  have cycled : (((cycleScheduler 1 fun _ => .active).exec (Machine.abstractly Machine.free)
      (.empty 1 fun _ => .active, .empty (Fin 1)) suspendedTwice).map
        fun state => decide (state.1.Runnable 0)) = some true := by decide +kernel
  have prioritised : (((dynprioScheduler 1 ⟨0, 0⟩ fun _ => .active).exec
      (Machine.abstractly Machine.free) (.empty ⟨0, 0⟩ fun _ => .active, .empty (Fin 1))
        suspendedTwice).map fun state => decide (state.1.Runnable 0)) = some false := by
    decide +kernel
  obtain ⟨cycle, cycled, runnable⟩ := Option.map_eq_some_iff.mp cycled
  obtain ⟨dynprio, prioritised, suspended⟩ := Option.map_eq_some_iff.mp prioritised
  exact of_decide_eq_false suspended
    ((same.runnable _ _ _ cycled prioritised 0).mp (of_decide_eq_true runnable))

end Asco.Core.Task.Agreement
