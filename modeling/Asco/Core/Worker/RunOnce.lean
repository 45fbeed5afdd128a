import Asco.Core.Worker.Tree.Accounts

namespace Asco.Core.Worker.RunOnce

open Foundation Asco.Core.Task
open Asco.Core.Worker.Tree (Frame CancelSource path)

/-! # `run_once` and the executor

The worker of `Asco.Core.Worker.Tree` with the handle stacks of its executions and
the exits of `run_once` and of `execute` one by one.
-/

/-- `handleStacks` are those of the executions of each domain, the handle that was pushed
last first, and `returned` says that the coroutine has pushed another one or has come to
its end.  Of the last `run_once` the state has the executions that `schedule` has yielded,
the innermost first, the contexts that have ended, and whether `execute` has returned
`false`. -/
structure State (Id : Type*) where
  tree : Tree.State Id
  handleStacks : List Id → Id → List Id
  returned : Bool
  scheduled : List (List Id × Id)
  ended : List (List Id × Id)
  finished : Bool

/-- The executions of the stack, each with its domain. -/
def contexts {Id : Type*} : List (Frame Id) → List (List Id × Id)
  | [] => []
  | frame :: rest => (path rest, frame.id) :: contexts rest

variable {Id : Type*} [DecidableEq Id]

namespace State

variable (state : State Id)

def setHandleStack (address : List Id) (id : Id) (handles : List Id) : State Id :=
  { state with
    handleStacks :=
      Function.update state.handleStacks address
        (Function.update (state.handleStacks address) id handles) }

/-- `exit_stack` of `run_once`, which ends the contexts unless `execute` has done so. -/
def exitStack (execTime : UInt64) (executed : Bool) : Option (State Id) :=
  if executed then some { state with tree := { state.tree with stack := [], phase := .idle } }
  else
    (state.tree.endContexts execTime state.tree.stack false).map fun tree =>
      { state with
        tree := { tree with stack := [], phase := .idle }
        ended := state.ended ++ contexts state.tree.stack }

/-- `exit_stack` of `execute`. -/
def endAll (execTime : UInt64) (completed : Bool) : Option (State Id) :=
  (state.tree.endContexts execTime state.tree.stack completed).map fun tree =>
    { state with tree, ended := state.ended ++ contexts state.tree.stack }

/-- What `run_once` does with the result of `execute`. -/
def afterExecute (execTime : UInt64) (result : Bool) : Option (State Id) :=
  if result then state.exitStack execTime true
  else
    match state.tree.stack with
    | [] => none
    | top :: rest =>
        (state.tree.detachExecution (path rest) top.id).bind fun tree =>
          { state with tree, finished := true }.exitStack execTime true

/-- `cancel_cleanup` has found a request: it takes all handles from the stack. -/
def cancelled (execTime : UInt64) (address : List Id) (id : Id) : Option (State Id) :=
  ((state.setHandleStack address id []).endAll execTime true).bind fun next =>
    next.afterExecute execTime false

/-- `execute` up to `resume`. -/
def execute (execTime : UInt64) : Option (State Id) :=
  match state.tree.stack with
  | [] => none
  | top :: rest =>
      if state.handleStacks (path rest) top.id = [] then state.afterExecute execTime false
      else if state.tree.cancelRequested (path rest) top.id then
        state.cancelled execTime (path rest) top.id
      else some { state with tree := { state.tree with phase := .executing }, returned := false }

/-- `execute` from `resume` on. -/
def resumed (execTime : UInt64) : Option (State Id) :=
  match state.tree.stack with
  | [] => none
  | top :: rest =>
      if state.tree.cancelRequested (path rest) top.id then
        state.cancelled execTime (path rest) top.id
      else
        let res := !(state.handleStacks (path rest) top.id).isEmpty
        (state.endAll execTime !res).bind fun next => next.afterExecute execTime res

/-- One turn of the loop of `run_once`. -/
def visit (execTime : UInt64) : Option (State Id) :=
  match state.tree.stack with
  | [] => none
  | top :: rest =>
      match state.tree.nested (path (top :: rest)) with
      | none => state.execute execTime
      | some domain =>
          if state.tree.executions (path (top :: rest)) = ∅ then
            { state with tree := state.tree.prune (path (top :: rest)) }.exitStack execTime false
          else if domain.hasActiveExecution then
            domain.schedule.bind fun scheduled =>
              if scheduled.1 ∈ state.tree.executions (path (top :: rest)) then
                some { state with
                  tree := { state.tree with
                    nested := Function.update state.tree.nested (path (top :: rest))
                      (some (scheduled.2.2.scheduleExecution scheduled.1))
                    stack := { id := scheduled.1, context := scheduled.2.1 } :: top :: rest }
                  scheduled := (path (top :: rest), scheduled.1) :: state.scheduled }
              else none
          else
            (state.tree.suspendCurrent (path rest) top.id).bind fun tree =>
              { state with tree }.exitStack execTime false

/-- `schedule` of the root scheduler. -/
def schedule (id : Id) : Option (State Id) :=
  (state.tree.schedule id).map fun tree =>
    { state with tree, scheduled := [([], id)], ended := [], finished := false }

/-- `attach_execution`, which keeps an execution that is there. -/
def attachExecution (maxDepth : ℕ) (address : List Id) (id : Id)
    (parentSrcStack : List (CancelSource Id)) (cancelSrc : CancelSource Id) : Option (State Id) :=
  (state.tree.attachExecution maxDepth address id parentSrcStack cancelSrc).map fun tree =>
    let attached := { state with tree }
    if id ∈ state.tree.executions address then attached else attached.setHandleStack address id [id]

/-- `worker::fetch_task`. -/
def fetch (maxDepth : ℕ) (id : Id) (requested : Bool) : Option (State Id) :=
  { state with tree := { state.tree with
      requested := Function.update state.tree.requested (.task id) requested } }.attachExecution
    maxDepth [] id [] (.task id)

/-- `final_suspend`: that of a task, whose base coroutine it is, suspends the execution, and
that of a future does so if the handle it has popped is the base coroutine still. -/
def complete (address : List Id) (id : Id) : Option (State Id) :=
  match state.handleStacks address id with
  | [] => none
  | popped :: remaining =>
      let next := { state.setHandleStack address id remaining with returned := true }
      if address = [] ∧ remaining = [] ∨ remaining.getLast? = some popped then
        (next.tree.suspendCurrent address popped).map fun tree => { next with tree }
      else some next

end State

/-- `await` pushes the handle of a future and `complete` is the end of the coroutine on top;
`leave` is the return of `resume`.  The others are those of the tree, of which `fetch` is also
what a coroutine does that spawns a task without a permit. -/
inductive Label (Id : Type*) where
  | fetch (id : Id) (requested : Bool)
  | schedule (id : Id)
  | visit (execTime : UInt64)
  | suspend
  | construct (size : ℕ)
  | attach (address : List Id) (id : Id)
  | cancel (address : List Id)
  | cancelTask (id : Id)
  | awake (address : List Id) (id : Id)
  | await (handle : Id)
  | complete
  | leave (execTime : UInt64)

namespace State

variable (state : State Id)

/-- What the coroutine does that the executor has resumed. -/
def resume (maxDepth : ℕ) (top : Frame Id) (rest : List (Frame Id)) : Label Id → Option (State Id)
  | .suspend =>
      (state.tree.suspendCurrent (path rest) top.id).map fun tree => { state with tree }
  | .construct size => some { state with tree := state.tree.construct size }
  | .attach address id => state.attachExecution maxDepth address id
      (state.tree.cancelSrcStack (path rest) top.id) (.proxy address)
  | .cancel address => (state.tree.cancel address).map fun tree => { state with tree }
  | .await handle =>
      some { state.setHandleStack (path rest) top.id
          (handle :: state.handleStacks (path rest) top.id) with
        returned := true }
  | .complete => state.complete (path rest) top.id
  | _ => none

def move (maxDepth : ℕ) : Label Id → Option (State Id)
  | .fetch id requested =>
      if state.tree.phase = .visiting then none else state.fetch maxDepth id requested
  | .schedule id => if state.tree.phase = .idle then state.schedule id else none
  | .visit execTime => if state.tree.phase = .visiting then state.visit execTime else none
  | .awake address id =>
      if state.tree.phase = .visiting then none
      else (state.tree.awakeExecution id address).map fun tree => { state with tree }
  | .cancelTask id =>
      if state.tree.phase = .visiting then none
      else
        ({ state.tree with
          requested := Function.update state.tree.requested (.task id) true }.awakeExecution id
            []).map fun tree => { state with tree }
  | .leave execTime => if state.tree.phase = .executing then state.resumed execTime else none
  | label =>
      match state.tree.phase, state.tree.stack with
      | .executing, top :: rest =>
          if state.returned then none else state.resume maxDepth top rest label
      | _, _ => none

def empty (current : DynprioScheduler.PrioritiedExecution Id)
    (states : Id → DynprioScheduler.ExecutionState) : State Id where
  tree := .empty current states
  handleStacks _ _ := []
  returned := false
  scheduled := []
  ended := []
  finished := false

end State

/-- A worker that has not fetched anything. -/
def machine (Id : Type*) [DecidableEq Id] (maxDepth : ℕ) : Machine (State Id) (Label Id) where
  start state := ∃ current states, state = .empty current states
  move state := state.move maxDepth

/-- `join_all` and `select` attach executions under new ids. -/
def AttachesNew (state : State Id) : Label Id → Prop
  | .attach address id => ∀ domain ∈ state.tree.nested address, domain.scheduler.find id = none
  | _ => True

instance : DecidableRel (@AttachesNew Id _)
  | _, .attach _ _ => inferInstanceAs (Decidable (∀ _ ∈ _, _))
  | _, .fetch _ _ => isTrue trivial
  | _, .schedule _ => isTrue trivial
  | _, .visit _ => isTrue trivial
  | _, .suspend => isTrue trivial
  | _, .construct _ => isTrue trivial
  | _, .cancel _ => isTrue trivial
  | _, .cancelTask _ => isTrue trivial
  | _, .awake _ _ => isTrue trivial
  | _, .await _ => isTrue trivial
  | _, .complete => isTrue trivial
  | _, .leave _ => isTrue trivial

end Asco.Core.Worker.RunOnce
