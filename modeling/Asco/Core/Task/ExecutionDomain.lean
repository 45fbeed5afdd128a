import Asco.Core.Task.CycleScheduler.Refinement

namespace Asco.Core.Task

open DynprioScheduler (ExecutionState)
open CycleScheduler (ExecutionSched)

/-! # `execution_domain`

A nested domain with its `cycle_scheduler`.  Its executions are looked up by
their ids, each of which has a slot of its own.
-/

/-- `parent` is the domain of the parent execution: the root domain of the
worker, or the domain nested in an execution. -/
structure ExecutionDomain (Id : Type*) where
  parent : Option Id
  size : ℕ
  scheduler : CycleScheduler.Scheduler size Id

namespace ExecutionDomain

variable {Id : Type*} (domain : ExecutionDomain Id)

def hasActiveExecution : Bool := domain.scheduler.hasActiveExecution

/-- `get_execution_state`. -/
def executionState (id : Id) : ExecutionState := domain.scheduler.domain id

variable [DecidableEq Id]

def awakeExecution (id : Id) : ExecutionDomain Id :=
  { domain with scheduler := domain.scheduler.awakeExecution id }

def suspendCurrent (id : Id) : ExecutionDomain Id :=
  { domain with scheduler := domain.scheduler.suspendCurrent id }

/-- `schedule`, with the execution and its context. -/
def schedule : Option (Id × Fin domain.size × ExecutionDomain Id) :=
  match domain.scheduler.schedule with
  | some (some id, context, scheduler) => some (id, context, { domain with scheduler })
  | _ => none

/-- `schedule_execution`. -/
def scheduleExecution (id : Id) : ExecutionDomain Id :=
  { domain with scheduler := domain.scheduler.recordState id .running }

/-- `end(completed)` of the context in a slot. -/
def endContext (context : ℕ) (completed : Bool) : ExecutionDomain Id :=
  if bound : context < domain.size then
    { domain with scheduler := domain.scheduler.endContext ⟨context, bound⟩ completed }
  else domain

/-- The slot of an execution. -/
def slot (id : Id) : Option (ExecutionSched Id) :=
  (domain.scheduler.find id).map domain.scheduler.executions

/-- The context of an execution. -/
def context (id : Id) : Option ℕ := (domain.scheduler.find id).map Fin.val

/-- The slots that hold an id are those that the index map leads to. -/
def WellFormed : Prop :=
  ∀ index id, (domain.scheduler.executions index).id = some id ↔
    domain.scheduler.find id = some index

/-! ## What the calls do to a slot -/

end ExecutionDomain

namespace CycleScheduler.ExecutionSched

variable {Id : Type*} (state : ExecutionSched Id)

/-- After `awake_execution`. -/
def awoken : ExecutionSched Id :=
  if state.active then { state with preawaken := true }
  else { state with suspendNow := false, active := true }

/-- After `suspend_current`. -/
def asked : ExecutionSched Id :=
  if state.preawaken then { state with preawaken := false } else { state with suspendNow := true }

/-- `end(completed)` suspends the execution. -/
def leaves (completed : Bool) : Bool := (state.suspendNow && !state.preawaken) || completed

/-- After `end(completed)`. -/
def ended (completed : Bool) : ExecutionSched Id :=
  if state.leaves completed then { state with active := false, suspendNow := false }
  else { state with suspendNow := false }

variable {state}

theorem awoken_active : state.awoken.active = true := by
  unfold awoken
  split
  · assumption
  · rfl

theorem awoken_suspendNow (asks : state.awoken.suspendNow = true) : state.suspendNow = true := by
  unfold awoken at asks
  split at asks
  · exact asks
  · contradiction

theorem asked_active :
    state.asked.active = state.active := by
  unfold asked
  split <;> rfl

theorem ended_suspendNow {completed : Bool} :
    (state.ended completed).suspendNow = false := by
  unfold ended
  split <;> rfl

end CycleScheduler.ExecutionSched

namespace ExecutionDomain

variable {Id : Type*} [DecidableEq Id]

theorem isSome_slot (domain : ExecutionDomain Id) (id : Id) :
    (domain.slot id).isSome = (domain.context id).isSome := by
  simp [slot, context]

/-- A call that changes the slot of one execution and what is recorded of it. -/
structure Changes (domain next : ExecutionDomain Id) (id : Id)
    (change : ExecutionSched Id → ExecutionSched Id) : Prop where
  parent : next.parent = domain.parent
  wellFormed : next.WellFormed
  contexts : next.context = domain.context
  slots : ∀ other, next.slot other =
    if other = id then (domain.slot id).map change else domain.slot other
  others : ∀ other, other ≠ id → next.executionState other = domain.executionState other

variable {domain : ExecutionDomain Id} {id : Id}

/-- A call on an execution that the scheduler does not know. -/
theorem Changes.of_absent (wellFormed : domain.WellFormed) (absent : domain.slot id = none)
    (change : ExecutionSched Id → ExecutionSched Id) : Changes domain domain id change where
  parent := rfl
  wellFormed := wellFormed
  contexts := rfl
  slots other := by
    split
    · rename_i same
      rw [same, absent, Option.map_none]
    · rfl
  others _ _ := rfl

/-- A call that finds the slot of its execution. -/
theorem Changes.of_update {change : ExecutionSched Id → ExecutionSched Id}
    {scheduler : CycleScheduler.Scheduler domain.size Id} {index : Fin domain.size}
    (wellFormed : domain.WellFormed) (found : domain.scheduler.find id = some index)
    (named : ∀ state, (change state).id = state.id)
    (sameMap : scheduler.executionIndexMap = domain.scheduler.executionIndexMap)
    (executions : scheduler.executions = Function.update domain.scheduler.executions index
      (change (domain.scheduler.executions index)))
    (others : ∀ other, other ≠ id → scheduler.domain other = domain.scheduler.domain other) :
    Changes domain { domain with scheduler } id change := by
  have sameFind : scheduler.find = domain.scheduler.find := CycleScheduler.find_congr sameMap
  refine ⟨rfl, ?_, ?_, ?_, others⟩
  · intro position other
    simp only [sameFind, executions]
    rw [← wellFormed position other]
    by_cases same : position = index
    · subst same
      rw [Function.update_self, named]
    · rw [Function.update_of_ne same]
  · funext other
    simp only [context, sameFind]
  · intro other
    simp only [slot, sameFind, executions]
    split
    · rename_i same
      rw [same, found]
      simp
    · rename_i different
      cases search : domain.scheduler.find other with
      | none => rfl
      | some position =>
          have apart : position ≠ index := by
            intro same
            subst same
            have here := (wellFormed position id).mpr found
            have there := (wellFormed position other).mpr search
            exact different (Option.some.inj (there.symm.trans here))
          simp only [Option.map_some, Function.update_of_ne apart]

theorem awakeExecution_changes (wellFormed : domain.WellFormed) (id : Id) :
    Changes domain (domain.awakeExecution id) id ExecutionSched.awoken := by
  cases found : domain.scheduler.find id with
  | none =>
      simp only [awakeExecution, CycleScheduler.Scheduler.awakeExecution, found]
      exact Changes.of_absent wellFormed (by simp [slot, found]) _
  | some index =>
      simp only [awakeExecution, CycleScheduler.Scheduler.awakeExecution, found]
      refine Changes.of_update wellFormed found ?_ ?_ ?_ ?_
      · intro state
        unfold ExecutionSched.awoken
        split <;> rfl
      · split <;> rfl
      · unfold ExecutionSched.awoken
        split <;> rfl
      · intro other different
        split
        · rfl
        · exact Function.update_of_ne different _ _

theorem suspendCurrent_changes (wellFormed : domain.WellFormed) (id : Id) :
    Changes domain (domain.suspendCurrent id) id ExecutionSched.asked := by
  cases found : domain.scheduler.find id with
  | none =>
      simp only [suspendCurrent, CycleScheduler.Scheduler.suspendCurrent, found]
      exact Changes.of_absent wellFormed (by simp [slot, found]) _
  | some index =>
      simp only [suspendCurrent, CycleScheduler.Scheduler.suspendCurrent, found]
      refine Changes.of_update wellFormed found ?_ ?_ ?_ ?_
      · intro state
        unfold ExecutionSched.asked
        split <;> rfl
      · split <;> rfl
      · unfold ExecutionSched.asked
        split <;> rfl
      · intro other different
        split
        · rfl
        · exact Function.update_of_ne different _ _

theorem endContext_changes {context : ℕ} (wellFormed : domain.WellFormed)
    (scheduled : domain.context id = some context) (completed : Bool) :
    Changes domain (domain.endContext context completed) id (ExecutionSched.ended · completed) := by
  obtain ⟨index, found, rfl⟩ := Option.map_eq_some_iff.mp scheduled
  have named := (wellFormed index id).mpr found
  simp only [endContext, index.isLt, dif_pos, Fin.eta, CycleScheduler.Scheduler.endContext, named]
  refine Changes.of_update wellFormed found ?_ ?_ ?_ ?_
  · intro state
    unfold ExecutionSched.ended
    split <;> rfl
  · split <;> rfl
  · unfold ExecutionSched.ended ExecutionSched.leaves
    split <;> rfl
  · intro other different
    split <;> exact Function.update_of_ne different _ _

theorem scheduleExecution_changes (wellFormed : domain.WellFormed) (id : Id) :
    Changes domain (domain.scheduleExecution id) id fun state => state where
  parent := rfl
  wellFormed := wellFormed
  contexts := rfl
  slots other := by
    split
    · rename_i same
      rw [same, Option.map_id']
      rfl
    · rfl
  others _ different := Function.update_of_ne different _ _

/-! ## What the calls record, and whether an execution is left active -/

theorem awakeExecution_executionState {state : ExecutionSched Id}
    (holds : domain.slot id = some state) (active : state.active = true) :
    (domain.awakeExecution id).executionState id = domain.executionState id := by
  obtain ⟨index, found, rfl⟩ := Option.map_eq_some_iff.mp holds
  simp only [awakeExecution, CycleScheduler.Scheduler.awakeExecution, found, active, if_true]
  rfl

theorem suspendCurrent_executionState {state : ExecutionSched Id}
    (holds : domain.slot id = some state) (late : state.preawaken = false) :
    (domain.suspendCurrent id).executionState id = .suspended := by
  obtain ⟨index, found, rfl⟩ := Option.map_eq_some_iff.mp holds
  simp only [suspendCurrent, CycleScheduler.Scheduler.suspendCurrent, found, late,
    Bool.false_eq_true, if_false]
  exact Function.update_self _ _ _

theorem endContext_executionState {context : ℕ} {completed : Bool} {state : ExecutionSched Id}
    (wellFormed : domain.WellFormed) (scheduled : domain.context id = some context)
    (holds : domain.slot id = some state) (leaves : state.leaves completed = true) :
    (domain.endContext context completed).executionState id = .suspended := by
  obtain ⟨index, found, rfl⟩ := Option.map_eq_some_iff.mp scheduled
  obtain ⟨_, search, rfl⟩ := Option.map_eq_some_iff.mp holds
  cases found.symm.trans search
  have named := (wellFormed index id).mpr found
  have suspends : ((domain.scheduler.executions index).suspendNow &&
      !(domain.scheduler.executions index).preawaken || completed) = true := leaves
  simp only [endContext, index.isLt, dif_pos, Fin.eta, CycleScheduler.Scheduler.endContext, named,
    suspends, if_true]
  exact Function.update_self _ _ _

theorem suspendCurrent_hasActive (id : Id) :
    (domain.suspendCurrent id).hasActiveExecution = domain.hasActiveExecution := by
  simp only [suspendCurrent, hasActiveExecution, CycleScheduler.Scheduler.suspendCurrent]
  split
  · rfl
  · split <;> rfl

theorem endContext_hasActive {context : ℕ} {completed : Bool}
    (active : (domain.endContext context completed).hasActiveExecution = true) :
    domain.hasActiveExecution = true := by
  unfold endContext at active
  split at active
  · rename_i bound
    simp only [hasActiveExecution, CycleScheduler.Scheduler.hasActiveExecution,
      decide_eq_true_eq, CycleScheduler.Scheduler.endContext] at active ⊢
    revert active
    split <;> split <;> intro active
    all_goals
      simp only [CycleScheduler.Scheduler.recordState, CycleScheduler.Scheduler.modify] at active
      omega
  · exact active

/-- `schedule` yields an execution of the domain that is active. -/
theorem schedule_spec {context : Fin domain.size} {next : ExecutionDomain Id}
    (wellFormed : domain.WellFormed) (yields : domain.schedule = some (id, context, next)) :
    domain.context id = some context.val ∧ (∃ state, domain.slot id = some state ∧
      state.active = true) ∧ next.parent = domain.parent ∧ next.WellFormed ∧
      next.context = domain.context ∧ next.slot = domain.slot ∧
      next.executionState = domain.executionState ∧
      next.hasActiveExecution = domain.hasActiveExecution := by
  unfold schedule at yields
  split at yields
  · rename_i scheduled
    cases yields
    obtain ⟨named, selectable, index, _, rfl⟩ := CycleScheduler.schedule_spec scheduled
    have found := (wellFormed context id).mp named.symm
    simp only [CycleScheduler.Scheduler.selectable, Bool.not_eq_true', Bool.or_eq_false_iff,
      Bool.not_eq_false'] at selectable
    exact ⟨by simp [ExecutionDomain.context, found], ⟨_, by simp [slot, found], selectable.2⟩,
      rfl, wellFormed, rfl, rfl, rfl, rfl⟩
  · contradiction

end ExecutionDomain

end Asco.Core.Task
