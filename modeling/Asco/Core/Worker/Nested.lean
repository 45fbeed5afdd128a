import Asco.Core.Task.ExecutionDomain
import Asco.Core.Worker

namespace Asco.Core.Worker.Nested

open Foundation Asco.Core.Task Asco.Core.Task.DynprioScheduler

/-! # Nested execution domains

`run_once` enters the domain nested in the execution it has scheduled, and the
one nested in that, until it comes to an execution without a domain or to a
domain without an active execution.  A wake-up in a nested domain goes on to the
parent execution when it reads this one's state as suspended.  The worker and
the wake-ups take their steps in the root domain as `worker` does, and the
operations of a nested scheduler are one step each.
-/

/-- An execution scheduled in the domain nested in `domain`. -/
structure Frame (Id : Type*) where
  domain : Id
  id : Id
  context : ℕ
deriving DecidableEq

/-- What `run_once` does next.  At `root` no nested domain has been entered. -/
inductive Phase where
  | root
  | test
  | schedule
  | record
  | suspend
  | execute
  | exit (completed : Bool)
deriving DecidableEq

/-- Where a thread stands in `awake_execution` outside the root scheduler: it is
about to wake an execution of the domain nested in `domain`, or to read the state
of the parent execution of the domain it has been in. -/
inductive Climb (Id : Type*) where
  | outside
  | awake (domain id : Id)
  | parent (execution : Id)
deriving DecidableEq

/-- `nested` are the domains by the executions they are nested in, and `stack` the
executions scheduled in them, the innermost first. -/
structure State (Thread Id : Type*) where
  worker : Worker.State Thread Id
  nested : Id → Option (ExecutionDomain Id)
  stack : List (Frame Id)
  phase : Phase
  climbs : Thread → Climb Id

/-- `suspendLeaf` and `leave` are what the executed execution of a nested domain
does, and `awake` is a call of `awake_execution` of the scheduler of the domain
nested in `domain`. -/
inductive Label (Thread Id : Type*) where
  | root (label : Worker.Label Thread Id)
  | descend
  | suspendLeaf
  | leave (completed : Bool)
  | awake (thread : Thread) (domain id : Id)
  | climb (thread : Thread)

variable {Thread Id : Type*} [DecidableEq Thread] [DecidableEq Id]

namespace State

/-- The innermost execution that is scheduled. -/
def top (state : State Thread Id) : Id :=
  match state.stack with
  | [] => state.worker.current
  | frame :: _ => frame.id

/-- The steps in the root domain that `run_once` takes there.  An execution with a
nested domain is suspended only as its domain has no active execution, and gives
the worker back only as the contexts end; its cancellation is for the executions
of its domain to notice. -/
def permits (state : State Thread Id) : Worker.Label Thread Id → Bool
  | .attach id => (state.nested id).all fun domain => domain.parent.isNone
  | .register => (state.nested state.worker.current).isNone
  | .suspend => (state.nested state.worker.current).isNone ||
      (state.phase = .suspend && state.stack.isEmpty)
  | .leave completed => (state.nested state.worker.current).isNone ||
      (state.phase = .exit false && state.stack.isEmpty && !completed)
  | .requestCancel id => (state.nested id).isNone
  | .awake thread _ _ => state.climbs thread = .outside
  | _ => true

/-- Where `run_once` goes on after a step in the root domain. -/
def phaseAfter (state : State Thread Id) : Worker.Label Thread Id → Phase
  | .schedule entry => if (state.nested entry.id).isSome then .test else .root
  | .suspend => if (state.nested state.worker.current).isSome then .exit false else state.phase
  | .leave _ => .root
  | _ => state.phase

/-- A call of the scheduler of the domain nested in `id`. -/
def change (state : State Thread Id) (id : Id)
    (call : ExecutionDomain Id → ExecutionDomain Id) : Option (State Thread Id) :=
  (state.nested id).map fun domain =>
    { state with nested := Function.update state.nested id (some (call domain)) }

/-- The next step of `run_once` below the root domain, where it has no choice. -/
def descend (state : State Thread Id) : Option (State Thread Id) :=
  match state.phase, state.stack with
  | .test, _ =>
      match state.nested state.top with
      | none => some { state with phase := .execute }
      | some domain =>
          if domain.hasActiveExecution then some { state with phase := .schedule }
          else some { state with phase := .suspend }
  | .schedule, stack =>
      (state.nested state.top).bind fun domain =>
        domain.schedule.map fun scheduled =>
          { state with
            nested := Function.update state.nested state.top (some scheduled.2.2)
            stack :=
              { domain := state.top, id := scheduled.1, context := scheduled.2.1 } :: stack
            phase := .record }
  | .record, frame :: _ =>
      (state.change frame.domain (·.scheduleExecution frame.id)).map fun next =>
        { next with phase := .test }
  | .suspend, frame :: _ =>
      (state.change frame.domain (·.suspendCurrent frame.id)).map fun next =>
        { next with phase := .exit false }
  | .exit completed, frame :: rest =>
      (state.change frame.domain (·.endContext frame.context completed)).map fun next =>
        { next with stack := rest, phase := .exit false }
  | _, _ => none

/-- `get_execution_state` of the parent execution of the domain nested in `id`. -/
def parentState (state : State Thread Id) (id : Id) (domain : ExecutionDomain Id) :
    Option ExecutionState :=
  match domain.parent with
  | none => some (state.worker.scheduler.domain id)
  | some above => (state.nested above).map (·.executionState id)

/-- The next step of a thread that wakes an execution of a nested domain. -/
def climb (state : State Thread Id) (thread : Thread) : Option (State Thread Id) :=
  match state.climbs thread with
  | .outside => none
  | .awake domain id =>
      (state.change domain (·.awakeExecution id)).map fun next =>
        { next with climbs := Function.update state.climbs thread (.parent domain) }
  | .parent id =>
      (state.nested id).bind fun domain =>
        (state.parentState id domain).map fun read =>
          if read = .suspended then
            match domain.parent with
            | none =>
                { state with
                  worker := { state.worker with
                    awakers := Function.update state.worker.awakers thread (.contains id) }
                  climbs := Function.update state.climbs thread .outside }
            | some above =>
                { state with climbs := Function.update state.climbs thread (.awake above id) }
          else { state with climbs := Function.update state.climbs thread .outside }

def move (state : State Thread Id) : Label Thread Id → Option (State Thread Id)
  | .root label =>
      if state.permits label then
        (state.worker.move label).map fun worker =>
          { state with worker, phase := state.phaseAfter label }
      else none
  | .descend => state.descend
  | .suspendLeaf =>
      match state.phase, state.stack with
      | .execute, frame :: _ => state.change frame.domain (·.suspendCurrent frame.id)
      | _, _ => none
  | .leave completed =>
      if state.phase = .execute then some { state with phase := .exit completed } else none
  | .awake thread domain id =>
      if state.climbs thread = .outside ∧ state.worker.awakers thread = .outside then
        some { state with climbs := Function.update state.climbs thread (.awake domain id) }
      else none
  | .climb thread => state.climb thread

end State

/-- The domains form a forest: `depth` grows from an execution to those of its
domain, and a domain knows where its parent execution belongs. -/
structure Forest (depth : Id → ℕ) (nested : Id → Option (ExecutionDomain Id)) : Prop where
  wellFormed : ∀ above domain, nested above = some domain → domain.WellFormed
  deeper : ∀ above domain id, nested above = some domain → (domain.slot id).isSome →
    depth id = depth above + 1
  parent : ∀ above domain id inner, nested above = some domain → (domain.slot id).isSome →
    nested id = some inner → inner.parent = some above

/-- A worker that has not run anything, and domains in which every execution is
active and nobody has been woken. -/
structure Fresh (depth : Id → ℕ) (state : State Thread Id) : Prop where
  worker : state.worker.Fresh
  forest : Forest depth state.nested
  unused : ∀ above domain id slot, state.nested above = some domain → domain.slot id = some slot →
    slot.active = true ∧ slot.suspendNow = false
  stack : state.stack = []
  phase : state.phase = .root
  climbs : ∀ thread, state.climbs thread = .outside

def machine (Thread : Type*) [DecidableEq Thread] (depth : Id → ℕ) :
    Machine (State Thread Id) (Label Thread Id) where
  start := Fresh depth
  move := State.move

end Asco.Core.Worker.Nested
