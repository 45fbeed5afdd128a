import Asco.Core.Worker.RunOnce.Executions

namespace Asco.ThisTask

open Foundation Asco.Core.Worker
open Asco.Core.Worker.Tree (Frame path)

/-! # `task_local` and `is_blocking_env`

What a coroutine finds in `m_coroutine_metas`, which a worker fills when it fetches
a task.
-/

/-- What a task was spawned with. -/
structure CoroutineMeta (Storage : Type*) where
  tls : Storage
  blocking : Bool

/-- `coroutineMetas` is `m_coroutine_metas`, `spawned` what each task was spawned with that was
fetched last under its handle, and `handles` the base coroutines of the executions that have
not come to their end. -/
structure State (Id Storage : Type*) where
  worker : RunOnce.State Id
  coroutineMetas : Id → Option (CoroutineMeta Storage)
  spawned : Id → Option (CoroutineMeta Storage)
  handles : Finset Id

inductive Label (Id Storage : Type*) where
  | fetch (id : Id) (requested : Bool) (coroutineMeta : CoroutineMeta Storage)
  | other (label : RunOnce.Label Id)

variable {Id Storage : Type*} [DecidableEq Id]

namespace State

variable (state : State Id Storage)

/-- `fetch_task` has attached the task.  `insert` keeps an entry that is there. -/
def fetched (worker : RunOnce.State Id) (id : Id) (coroutineMeta : CoroutineMeta Storage) :
    State Id Storage where
  worker := worker
  coroutineMetas :=
    if (state.coroutineMetas id).isSome then state.coroutineMetas
    else Function.update state.coroutineMetas id (some coroutineMeta)
  spawned := Function.update state.spawned id (some coroutineMeta)
  handles := insert id state.handles

/-- `run_once` removes the entry of the innermost execution when `execute` has returned
`false`. -/
def turned (worker : RunOnce.State Id) : State Id Storage :=
  match state.worker.tree.stack with
  | [] => { state with worker }
  | top :: _ =>
      if worker.finished then
        { state with
          worker
          coroutineMetas := Function.update state.coroutineMetas top.id none
          handles := state.handles.erase top.id }
      else { state with worker }

def move (maxDepth : ℕ) : Label Id Storage → Option (State Id Storage)
  | .fetch id requested coroutineMeta =>
      (state.worker.move maxDepth (.fetch id requested)).map (state.fetched · id coroutineMeta)
  | .other (.fetch _ _) => none
  | .other (.attach address id) =>
      (state.worker.move maxDepth (.attach address id)).map fun worker =>
        { state with worker, handles := insert id state.handles }
  | .other label => (state.worker.move maxDepth label).map state.turned

/-- `executor::current_execution`. -/
def currentExecution : Option Id :=
  if state.worker.tree.phase = .executing then state.worker.tree.stack.head?.map Frame.id else none

/-- `m_coroutine_metas.get(current_execution())`, `none` for an empty guard. -/
def guard : Option (CoroutineMeta Storage) := state.currentExecution.bind state.coroutineMetas

/-- `task_local`, which panics where it has no answer. -/
def taskLocal : Option Storage := state.guard.map CoroutineMeta.tls

/-- `is_blocking_env` in the runtime, which panics where it has no answer. -/
def isBlockingEnv : Option Bool := state.guard.map CoroutineMeta.blocking

/-- The task that the innermost execution belongs to. -/
def task : Option Id := state.worker.tree.stack.getLast?.map Frame.id

end State

/-- A worker that has not fetched anything. -/
def machine (Id Storage : Type*) [DecidableEq Id] (maxDepth : ℕ) :
    Machine (State Id Storage) (Label Id Storage) where
  start state := (∃ current states, state.worker = .empty current states) ∧
    state.coroutineMetas = (fun _ => none) ∧ state.spawned = (fun _ => none) ∧ state.handles = ∅
  move state := state.move maxDepth

/-- The coroutines of two executions differ, and an `execution_domain_proxy` attaches to a
domain of its own. -/
def Distinct (state : State Id Storage) : Label Id Storage → Prop
  | .fetch id _ _ => id ∉ state.handles
  | .other (.attach address id) => address ≠ [] ∧ id ∉ state.handles ∧
      ∀ domain ∈ state.worker.tree.nested address, domain.scheduler.find id = none
  | .other _ => True

instance : DecidableRel (Distinct : State Id Storage → Label Id Storage → Prop)
  | state, .fetch id _ _ => inferInstanceAs (Decidable (id ∉ state.handles))
  | _, .other (.attach _ _) => inferInstanceAs (Decidable (_ ∧ _ ∧ ∀ _ ∈ _, _))
  | _, .other (.fetch _ _) | _, .other (.schedule _) | _, .other (.visit _) | _, .other .suspend
  | _, .other (.construct _) | _, .other (.cancel _) | _, .other (.cancelTask _)
  | _, .other (.awake _ _) | _, .other (.await _) | _, .other .complete
  | _, .other (.leave _) => isTrue trivial

/-- Both calls answer with what the task was spawned with. -/
def State.Finds (state : State Id Storage) : Prop :=
  ∃ task coroutineMeta, state.task = some task ∧ state.spawned task = some coroutineMeta ∧
    state.taskLocal = some coroutineMeta.tls ∧ state.isBlockingEnv = some coroutineMeta.blocking

end Asco.ThisTask
