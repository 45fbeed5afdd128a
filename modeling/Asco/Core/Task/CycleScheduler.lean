import Asco.Core.Task.DynprioScheduler
import Asco.Core.Task.Suspension

namespace Asco.Core.Task.CycleScheduler

open Foundation
open DynprioScheduler (ExecutionState)

/-! # `cycle_scheduler`

The scheduler of a nested domain with a fixed number of executions.  It keeps
its flags in one slot for each execution and goes round the slots.
-/

/-- `execution_sched`.  Its context is the index of the slot. -/
structure ExecutionSched (Id : Type*) where
  id : Option Id := none
  active : Bool := true
  suspendNow : Bool := false
  preawaken : Bool := false
  detached : Bool := false

/-- The fields of the scheduler, with the states its domain records.  An entry of
the index map that is not filled holds the null id. -/
structure Scheduler (N : ℕ) (Id : Type*) where
  currentExecutionIndex : ℕ
  executions : Fin N → ExecutionSched Id
  fillIndex : ℕ
  activeCount : ℕ
  executionIndexMap : Fin N → Option (Id × Fin N)
  domain : Id → ExecutionState

/-- The number of values of `std::size_t`. -/
def wordCount : ℕ := 2 ^ 64

/-- `index % N`. -/
def slot {N : ℕ} (positive : 0 < N) (index : ℕ) : Fin N := ⟨index % N, Nat.mod_lt index positive⟩

namespace Scheduler

variable {N : ℕ} {Id : Type*}

/-- A scheduler without executions. -/
def empty (N : ℕ) (domain : Id → ExecutionState) : Scheduler N Id where
  currentExecutionIndex := 0
  executions _ := {}
  fillIndex := 0
  activeCount := 0
  executionIndexMap _ := none
  domain := domain

/-- The slots that `schedule` may stop at. -/
def selectable (scheduler : Scheduler N Id) (index : Fin N) : Bool :=
  !((scheduler.executions index).detached || !(scheduler.executions index).active)

/-- The loop of `schedule`. -/
def scan (scheduler : Scheduler N Id) (positive : 0 < N) : ℕ → ℕ → Option ℕ
  | 0, _ => none
  | turns + 1, index =>
      if scheduler.selectable (slot positive index) then some index
      else scheduler.scan positive turns ((index + 1) % wordCount)

/-- The id and the context that `schedule` yields.  The loop changes nothing but
the index, which after `wordCount` turns is back where it began: a search that
has not ended by then never ends. -/
def schedule (scheduler : Scheduler N Id) : Option (Option Id × Fin N × Scheduler N Id) :=
  if positive : 0 < N then
    (scheduler.scan positive wordCount scheduler.currentExecutionIndex).map fun index =>
      ((scheduler.executions (slot positive index)).id, slot positive index,
        { scheduler with currentExecutionIndex := (index + 1) % wordCount })
  else none

def hasActiveExecution (scheduler : Scheduler N Id) : Bool := 0 < scheduler.activeCount

variable [DecidableEq Id]

def recordState (scheduler : Scheduler N Id) (id : Id) (state : ExecutionState) : Scheduler N Id :=
  { scheduler with domain := Function.update scheduler.domain id state }

def modify (scheduler : Scheduler N Id) (index : Fin N)
    (change : ExecutionSched Id → ExecutionSched Id) : Scheduler N Id :=
  { scheduler with
    executions := Function.update scheduler.executions index (change (scheduler.executions index)) }

/-- The loop over the index map, which stops at the first entry of `id`. -/
def find (scheduler : Scheduler N Id) (id : Id) : Option (Fin N) :=
  (List.finRange N).findSome? fun position =>
    match scheduler.executionIndexMap position with
    | some (first, second) => if first = id then some second else none
    | none => none

def attachExecution (scheduler : Scheduler N Id) (id : Id) : Option (Scheduler N Id) :=
  if bound : scheduler.fillIndex < N then
    let index : Fin N := ⟨scheduler.fillIndex, bound⟩
    some { scheduler with
      executions := Function.update scheduler.executions index { id := some id }
      executionIndexMap := Function.update scheduler.executionIndexMap index (some (id, index))
      activeCount := scheduler.activeCount + 1
      fillIndex := scheduler.fillIndex + 1 }
  else none

def detachSuspendedExecution (scheduler : Scheduler N Id) (id : Id) : Option (Scheduler N Id) :=
  match scheduler.find id with
  | none => some scheduler
  | some index =>
      -- the assertion that the execution is not active
      if (scheduler.executions index).active then none
      else some (scheduler.modify index fun state => { state with detached := true, id := none })

def awakeExecution (scheduler : Scheduler N Id) (id : Id) : Scheduler N Id :=
  match scheduler.find id with
  | none => scheduler
  | some index =>
      if (scheduler.executions index).active then
        scheduler.modify index fun state => { state with preawaken := true }
      else
        let woken := scheduler.modify index fun state =>
          { state with suspendNow := false, active := true }
        { woken with activeCount := woken.activeCount + 1 }.recordState id .active

def suspendCurrent (scheduler : Scheduler N Id) (id : Id) : Scheduler N Id :=
  match scheduler.find id with
  | none => scheduler
  | some index =>
      if (scheduler.executions index).preawaken then
        scheduler.modify index fun state => { state with preawaken := false }
      else
        (scheduler.modify index fun state => { state with suspendNow := true }).recordState id
          .suspended

/-- `end(completed)` of the context of a slot. -/
def endContext (scheduler : Scheduler N Id) (index : Fin N) (completed : Bool) : Scheduler N Id :=
  let state := scheduler.executions index
  let record (next : Scheduler N Id) (recorded : ExecutionState) : Scheduler N Id :=
    match state.id with
    | some id => next.recordState id recorded
    | none => next
  if (state.suspendNow && !state.preawaken) || completed then
    let suspended := scheduler.modify index fun state =>
      { state with active := false, suspendNow := false }
    record { suspended with activeCount := suspended.activeCount - 1 } .suspended
  else record (scheduler.modify index fun state => { state with suspendNow := false }) .active

end Scheduler

/-! ## The calls of a worker -/

/-- A scheduler and the context that is to be ended, with the number of wake-ups
of each execution and of the suspensions that they gave up or ended. -/
structure Run (N : ℕ) (Id : Type*) where
  scheduler : Scheduler N Id
  context : Option (Fin N)
  awakes : Id → ℕ
  resumed : Id → ℕ

variable {N : ℕ} {Id : Type*} [DecidableEq Id]

namespace Run

def empty (N : ℕ) (domain : Id → ExecutionState) : Run N Id where
  scheduler := .empty N domain
  context := none
  awakes _ := 0
  resumed _ := 0

/-- Whether the call takes the branch that gives up or ends a suspension because
of a wake-up. -/
def resumes (run : Run N Id) : Event Id → Bool
  | .suspend id => match run.scheduler.find id with
      | some index => (run.scheduler.executions index).preawaken
      | none => false
  | .finish _ completed _ => match run.context with
      | some index => !completed && (run.scheduler.executions index).suspendNow
          && (run.scheduler.executions index).preawaken
      | none => false
  | .awake id => match run.scheduler.find id with
      | some index => !(run.scheduler.executions index).active
      | none => false
  | _ => false

/-- What a call does to the scheduler and to the open context.  A worker that
schedules an execution records it as running. -/
def call (run : Run N Id) : Event Id → Option (Scheduler N Id × Option (Fin N))
  | .attach id => (run.scheduler.attachExecution id).map fun next => (next, run.context)
  | .schedule id => match run.scheduler.schedule with
      | some (scheduled, context, next) =>
          if scheduled = some id then some (next.recordState id .running, some context) else none
      | none => none
  | .suspend id => some (run.scheduler.suspendCurrent id, run.context)
  | .finish _ completed _ =>
      run.context.map fun index => (run.scheduler.endContext index completed, none)
  | .awake id => some (run.scheduler.awakeExecution id, run.context)
  | .detach id => (run.scheduler.detachSuspendedExecution id).map fun next => (next, run.context)

def perform (run : Run N Id) (event : Event Id) : Option (Run N Id) :=
  (run.call event).map fun next =>
    { scheduler := next.1
      context := next.2
      awakes := match event with
        | .awake id => Suspension.count run.awakes id
        | _ => run.awakes
      resumed :=
        if run.resumes event then Suspension.count run.resumed event.id else run.resumed }

/-- The execution has an active slot that is not detached. -/
def Runnable (run : Run N Id) (id : Id) : Prop :=
  ∃ index, (run.scheduler.executions index).id = some id ∧ run.scheduler.selectable index

instance (run : Run N Id) (id : Id) : Decidable (run.Runnable id) :=
  inferInstanceAs (Decidable (∃ _, _))

end Run

def machine (N : ℕ) (domain : Id → ExecutionState) : Machine (Run N Id) (Event Id) where
  start run := run = .empty N domain
  move := Run.perform

end Asco.Core.Task.CycleScheduler
