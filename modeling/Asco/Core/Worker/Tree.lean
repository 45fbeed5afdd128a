import Asco.Core.Task.DynprioScheduler.Members

namespace Asco.Core.Worker.Tree

open Foundation Asco.Core.Task
open DynprioScheduler (ExecutionState)

/-! # A worker and the domains of its tasks

A worker whose tasks nest domains in their executions, attach executions to them
and cancel them, on one thread: a call returns before the next one is made.  A
domain is addressed by its parent execution, the parent execution of the domain
this one belongs to, and so on up to the root domain of the worker, whose address
is empty.
-/

/-- The cancel sources: that of a task, and that of the `execution_domain_proxy` of
a domain. -/
inductive CancelSource (Id : Type*) where
  | task (id : Id)
  | proxy (address : List Id)
deriving DecidableEq

/-- An execution on `m_sexec_stack`, with its context on `m_context_stack`. -/
structure Frame (Id : Type*) where
  id : Id
  context : ℕ
deriving DecidableEq

/-- `idle` is between two calls of `run_once`, and `visiting` at the top of its loop,
where it looks for the subdomain of the execution it has scheduled. -/
inductive Phase where
  | idle
  | visiting
  | executing
deriving DecidableEq

/-- `nested` are the subdomains by their addresses, `executions` the keys of
`m_executions` of each domain, and `stack` the executions that are scheduled, the
innermost first. -/
structure State (Id : Type*) where
  scheduler : DynprioScheduler.Scheduler Id
  nested : List Id → Option (ExecutionDomain Id)
  executions : List Id → Finset Id
  cancelSrcStack : List Id → Id → List (CancelSource Id)
  requested : CancelSource Id → Bool
  stack : List (Frame Id)
  phase : Phase

/-- The address of the domain nested in the innermost of the scheduled executions. -/
def path {Id : Type*} (frames : List (Frame Id)) : List Id := frames.map Frame.id

variable {Id : Type*} [DecidableEq Id]

namespace State

def empty (current : DynprioScheduler.PrioritiedExecution Id) (states : Id → ExecutionState) :
    State Id where
  scheduler :=
    { current, currentSuspend := false, active := [], suspended := ∅, preawake := ∅,
      contexts := ∅, domain := states }
  nested _ := none
  executions _ := ∅
  cancelSrcStack _ _ := []
  requested _ := false
  stack := []
  phase := .idle

variable (state : State Id)

/-- What is kept about an execution of a domain. -/
def view : List Id → Id → Option View
  | [], id => some (state.scheduler.view id)
  | parent :: above, id => (state.nested (parent :: above)).bind (·.view id)

/-- The scheduler of the domain holds the execution as suspended. -/
def Held (address : List Id) (id : Id) : Prop := ∃ view ∈ state.view address id, view.active = false

instance (address : List Id) (id : Id) : Decidable (state.Held address id) :=
  decidable_of_iff ((state.view address id).any (!·.active) = true)
    (by simp [Held, Option.any_eq_true])

/-- `get_execution_state`, which asserts that the execution is attached. -/
def executionState (address : List Id) (id : Id) : Option ExecutionState :=
  if id ∈ state.executions address then (state.view address id).map (·.state) else none

/-- A call of the scheduler of a domain. -/
def call (root : DynprioScheduler.Scheduler Id → Option (DynprioScheduler.Scheduler Id))
    (nested : ExecutionDomain Id → Option (ExecutionDomain Id)) : List Id → Option (State Id)
  | [] => (root state.scheduler).map fun scheduler => { state with scheduler }
  | parent :: above => (state.nested (parent :: above)).bind fun domain =>
      (nested domain).map fun next =>
        { state with nested := Function.update state.nested (parent :: above) (some next) }

def recordState (address : List Id) (id : Id) (recorded : ExecutionState) : Option (State Id) :=
  state.call (fun scheduler => some (scheduler.recordState id recorded))
    (fun domain => some (domain.recordState id recorded)) address

/-- `awake_execution` up to the look at the parent execution.  `activate_execution`
asserts that the execution is attached. -/
def awakeHere (address : List Id) (id : Id) : Option (State Id) :=
  state.call
    (fun scheduler =>
      if id ∈ scheduler.contexts ∧ id ∈ scheduler.suspended ∧ id ∉ state.executions address then
        none
      else some (scheduler.awakeExecution id))
    (fun domain =>
      if domain.held id ∧ id ∉ state.executions address then none
      else some (domain.awakeExecution id))
    address

/-- `suspend_current`.  The root scheduler asserts that the execution is the current one. -/
def suspendCurrent (address : List Id) (id : Id) : Option (State Id) :=
  state.call
    (fun scheduler => if scheduler.current.id = id then some scheduler.suspendCurrent else none)
    (fun domain => some (domain.suspendCurrent id)) address

def endContext (address : List Id) (frame : Frame Id) (completed : Bool) (execTime : UInt64) :
    Option (State Id) :=
  state.call (fun scheduler => some (scheduler.endContext completed execTime))
    (fun domain => some (domain.endContext frame.context completed)) address

/-- `attach_execution` of the domain, which asserts that the nesting is not too deep and
keeps an execution that it has already, and then of its scheduler. -/
def attachExecution (maxDepth : ℕ) (address : List Id) (id : Id)
    (parentSrcStack : List (CancelSource Id)) (cancelSrc : CancelSource Id) : Option (State Id) :=
  if parentSrcStack.length < maxDepth then
    let inserted :=
      if id ∈ state.executions address then some state
      else
        (state.recordState address id .active).map fun next =>
          { next with
            executions :=
              Function.update state.executions address (insert id (state.executions address))
            cancelSrcStack := Function.update state.cancelSrcStack address
              (Function.update (state.cancelSrcStack address) id (parentSrcStack ++ [cancelSrc])) }
    inserted.bind fun next =>
      next.call (·.attachExecution id) (·.attachExecution id) address
  else none

/-- The coroutine that owns the domain at `address` is destroyed, and with it the domain and
all that is nested in its executions. -/
def prune (address : List Id) : State Id :=
  { state with
    nested := fun other => if address <:+ other then none else state.nested other
    executions := fun other => if address <:+ other then ∅ else state.executions other }

/-- `detach_suspended_execution` and `detach_execution`. -/
def detachExecution (address : List Id) (id : Id) : Option (State Id) :=
  (state.call (fun scheduler => some (scheduler.detachSuspendedExecution id))
    (·.detachSuspendedExecution id) address).map fun next =>
      let pruned := next.prune (id :: address)
      { pruned with
        executions :=
          Function.update pruned.executions address ((pruned.executions address).erase id) }

/-- The contexts end from the innermost on, which alone may have completed. -/
def endContexts (execTime : UInt64) : State Id → List (Frame Id) → Bool → Option (State Id)
  | state, [], _ => some state
  | state, frame :: rest, completed =>
      (state.endContext (path rest) frame completed execTime).bind fun next =>
        next.endContexts execTime rest false

/-- `exit_stack`, and the end of the innermost execution if it has completed. -/
def leave (execTime : UInt64) (completed : Bool) : Option (State Id) :=
  match state.stack with
  | [] => none
  | top :: rest =>
      (state.endContexts execTime (top :: rest) completed).bind fun ended =>
        let outside := { ended with stack := [], phase := .idle }
        if completed then outside.detachExecution (path rest) top.id else some outside

/-- Some cancel token of the execution is requested. -/
def cancelRequested (address : List Id) (id : Id) : Bool :=
  (state.cancelSrcStack address id).any state.requested

/-- One turn of the loop of `run_once`, with the first `cancel_cleanup` of `execute`. -/
def visit (execTime : UInt64) : Option (State Id) :=
  match state.stack with
  | [] => none
  | top :: rest =>
      match state.nested (path (top :: rest)) with
      | none =>
          if state.cancelRequested (path rest) top.id then state.leave execTime true
          else some { state with phase := .executing }
      | some domain =>
          if state.executions (path (top :: rest)) = ∅ then
            (state.prune (path (top :: rest))).leave execTime false
          else if domain.hasActiveExecution then
            domain.schedule.bind fun scheduled =>
              if scheduled.1 ∈ state.executions (path (top :: rest)) then
                some { state with
                  nested := Function.update state.nested (path (top :: rest))
                    (some (scheduled.2.2.scheduleExecution scheduled.1))
                  stack := { id := scheduled.1, context := scheduled.2.1 } :: top :: rest }
              else none
          else
            (state.suspendCurrent (path rest) top.id).bind fun next => next.leave execTime false

/-- `awake_execution`, which goes on to the parent execution of the domain if it reads
this one's state as suspended. -/
def awakeExecution : State Id → Id → List Id → Option (State Id)
  | state, id, [] => state.awakeHere [] id
  | state, id, parent :: above =>
      (state.awakeHere (parent :: above) id).bind fun next =>
        (next.executionState above parent).bind fun recorded =>
          if recorded = .suspended then next.awakeExecution parent above else some next

end State

/-- `leave` is what the coroutine of the innermost execution does last, and `finished`
whether it has run to its end.  `cancelTask` is `join_handle::cancel`; the cancellation may
also have been requested before the task is fetched. -/
inductive Label (Id : Type*) where
  | fetch (id : Id) (requested : Bool)
  | schedule (id : Id)
  | visit (execTime : UInt64)
  | suspend
  | construct (size : ℕ)
  | attach (address : List Id) (id : Id)
  | cancel (address : List Id)
  | cancelTask (id : Id)
  | awake (address : List Id) (id : Id)
  | leave (finished : Bool) (execTime : UInt64)

namespace State

variable (state : State Id)

/-- What `worker::fetch_task` does with a task. -/
def fetch (maxDepth : ℕ) (id : Id) (requested : Bool) : Option (State Id) :=
  { state with requested := Function.update state.requested (.task id) requested }.attachExecution
    maxDepth [] id [] (.task id)

/-- `schedule` of the root scheduler, and `schedule_execution`. -/
def schedule (id : Id) : Option (State Id) :=
  (state.scheduler.schedule id).bind fun scheduler =>
    if id ∈ state.executions [] then
      some { state with
        scheduler := scheduler.recordState id .running
        stack := [{ id, context := 0 }]
        phase := .visiting }
    else none

/-- The constructor of an `execution_domain_proxy` with a `cycle_scheduler<size>`. -/
def construct (size : ℕ) : State Id :=
  let pruned := state.prune (path state.stack)
  { pruned with
    nested := Function.update pruned.nested (path state.stack)
      (some
        { parent := (path state.stack).tail.head?
          size
          scheduler := .empty size fun _ => .active })
    requested := Function.update state.requested (.proxy (path state.stack)) false }

/-- `execution_domain_proxy::cancel`. -/
def cancel (address : List Id) : Option (State Id) :=
  { state with requested := Function.update state.requested (.proxy address) true }.call
    (fun scheduler => some (scheduler.activateAll (state.executions address)))
    (fun domain => some (domain.activateAll (state.executions address))) address

def move (maxDepth : ℕ) : Label Id → Option (State Id)
  | .fetch id requested => if state.phase = .idle then state.fetch maxDepth id requested else none
  | .schedule id => if state.phase = .idle then state.schedule id else none
  | .visit execTime => if state.phase = .visiting then state.visit execTime else none
  | .awake address id => if state.phase = .visiting then none else state.awakeExecution id address
  | .cancelTask id =>
      if state.phase = .visiting then none
      else
        { state with
          requested := Function.update state.requested (.task id) true }.awakeExecution id []
  | label =>
      match state.phase, state.stack with
      | .executing, top :: rest =>
          match label with
          | .suspend => state.suspendCurrent (path rest) top.id
          | .construct size => some (state.construct size)
          | .attach address id => state.attachExecution maxDepth address id
              (state.cancelSrcStack (path rest) top.id) (.proxy address)
          | .cancel address => state.cancel address
          | .leave finished execTime =>
              state.leave execTime (state.cancelRequested (path rest) top.id || finished)
          | _ => none
      | _, _ => none

end State

/-- A worker that has not fetched anything. -/
def machine (Id : Type*) [DecidableEq Id] (maxDepth : ℕ) : Machine (State Id) (Label Id) where
  start state := ∃ current states, state = .empty current states
  move state := state.move maxDepth

end Asco.Core.Worker.Tree
