import Asco.Foundation.Machine
import Asco.Foundation.Nesting

namespace Asco.Core.Task.Executor

open Foundation Foundation.Nesting

/-! # `executor`

The executions of one execution domain and the coroutine frames on their
`handle_stack`s: what `execute` does with the execution it is given, what the
coroutine it resumes may do, and what `run_once` does when the execution is
over.  An execution is named by the handle of its base coroutine.
-/

/-- The handle that was pushed last is the first of `handleStack`. -/
structure Execution (Handle Source : Type*) where
  handleStack : List Handle
  cancelSrcStack : List Source

/-- A coroutine frame is `fresh` until it is attached as an execution or awaited,
which happens to a future once. -/
inductive Usage where
  | fresh
  | used
deriving DecidableEq

/-- Where `execute` is.  `entered` is before the first `cancel_cleanup` and
`resumed` before the second; `running` has the coroutine that `resume` was called
on, and `finishing` the same coroutine after `final_suspend` has popped it.
`cancelling` is before the loop of `cancel_cleanup` and `cleaning` in it; `leaving`
is after `execute` has returned `false`. -/
inductive Phase (Handle : Type*) where
  | idle
  | entered (id : Handle)
  | running (id current : Handle)
  | finishing (id current : Handle)
  | resumed (id : Handle)
  | cancelling (id : Handle)
  | cleaning (id : Handle) (popped : Option Handle)
  | leaving (id : Handle)

/-- `frames` are the coroutine frames that are allocated, and `history` what has
happened to those of the executions. -/
structure State (Handle Source : Type*) where
  executions : Handle → Option (Execution Handle Source)
  corohandleExecMap : Handle → Option Handle
  frames : Handle → Option Usage
  requested : Source → Bool
  phase : Phase Handle
  history : List (Nesting.Event Handle Handle)

/-- `complete` is the end of the body of the running coroutine, by `co_return` or
by an exception, up to the pop in `final_suspend`; `suspend` is any `co_await`
that pushes nothing. -/
inductive Label (Handle Source : Type*) where
  | create (handle : Handle)
  | requestCancel (source : Source)
  | attach (id : Handle) (cancelSrcStack : List Source)
  | execute (id : Handle)
  | test
  | await (handle : Handle)
  | suspend
  | complete
  | invokeCallbacks
  | unwind
  | destroy
  | detach

variable {Handle Source : Type*} [DecidableEq Handle] [DecidableEq Source]

namespace State

variable (state : State Handle Source)

/-- `execution_domain::attach_execution`; the scheduler asserts that the id is not
attached. -/
def attachExecution (id : Handle) (cancelSrcStack : List Source) : Option (State Handle Source) :=
  if (state.executions id).isSome then none
  else
    some { state with
      executions :=
        Function.update state.executions id (some { handleStack := [id], cancelSrcStack })
      corohandleExecMap := Function.update state.corohandleExecMap id (some id)
      frames := Function.update state.frames id (some .used)
      history := state.history ++ [.enter id id] }

/-- `execution_domain::detach_execution`. -/
def detachExecution (id : Handle) : State Handle Source :=
  { state with
    executions := Function.update state.executions id none
    corohandleExecMap := Function.update state.corohandleExecMap id none }

/-- The map takes `handle_stack.front()`, which is the last of the list. -/
def pushHandle (id handle : Handle) : Option (State Handle Source) :=
  (state.executions id).map fun execution =>
    let pushed := handle :: execution.handleStack
    { state with
      executions :=
        Function.update state.executions id (some { execution with handleStack := pushed })
      corohandleExecMap := Function.update state.corohandleExecMap handle pushed.getLast?
      frames := Function.update state.frames handle (some .used)
      history := state.history ++ [.enter id handle] }

def popHandle (id : Handle) : Option (Handle × State Handle Source) :=
  (state.executions id).bind fun execution =>
    match execution.handleStack with
    | [] => none
    | handle :: rest =>
        some (handle, { state with
          executions :=
            Function.update state.executions id (some { execution with handleStack := rest })
          corohandleExecMap := Function.update state.corohandleExecMap handle none
          history := state.history ++ [.leave id handle] })

/-- `coroutine_handle::destroy`. -/
def destroyFrame (id handle : Handle) : State Handle Source :=
  { state with
    frames := Function.update state.frames handle none
    history := state.history ++ [.finish id handle] }

/-- Some token of the execution's stack has its source requested. -/
def cancelRequested (execution : Execution Handle Source) : Bool :=
  execution.cancelSrcStack.any state.requested

/-- An execution with nothing on its stack is not begun. -/
def execute (id : Handle) : Option (State Handle Source) :=
  (state.executions id).map fun execution =>
    { state with phase := if execution.handleStack.isEmpty then .leaving id else .entered id }

/-- The test of `cancel_cleanup`, and what `execute` goes on to without a request. -/
def test : Option (State Handle Source) :=
  match state.phase with
  | .entered id =>
      (state.executions id).bind fun execution =>
        if state.cancelRequested execution then some { state with phase := .cancelling id }
        else
          execution.handleStack.head?.map fun current =>
            { state with phase := .running id current }
  | .resumed id =>
      (state.executions id).map fun execution =>
        if state.cancelRequested execution then { state with phase := .cancelling id }
        else if execution.handleStack.isEmpty then { state with phase := .leaving id }
        else { state with phase := .idle }
  | _ => none

/-- One turn of the loop of `cancel_cleanup` up to `destroy`, or its end. -/
def unwind (id : Handle) : Option (State Handle Source) :=
  (state.executions id).map fun execution =>
    if execution.handleStack.isEmpty then { state with phase := .leaving id }
    else
      match state.popHandle id with
      | some (handle, next) => { next with phase := .cleaning id (some handle) }
      | none => state

def initial (Handle Source : Type*) : State Handle Source where
  executions _ := none
  corohandleExecMap _ := none
  frames _ := none
  requested _ := false
  phase := .idle
  history := []

def move (label : Label Handle Source) : Option (State Handle Source) :=
  match label, state.phase with
  | .create handle, _ =>
      if state.frames handle = none then
        some { state with frames := Function.update state.frames handle (some .fresh) }
      else none
  | .requestCancel source, _ =>
      some { state with requested := Function.update state.requested source true }
  | .attach id cancelSrcStack, _ =>
      if state.frames id = some .fresh then state.attachExecution id cancelSrcStack else none
  | .execute id, .idle => state.execute id
  | .test, _ => state.test
  | .await handle, .running id _ =>
      if state.frames handle = some .fresh then
        (state.pushHandle id handle).map fun next => { next with phase := .resumed id }
      else none
  | .suspend, .running id _ => some { state with phase := .resumed id }
  | .complete, .running id current =>
      (state.popHandle id).map fun popped => { popped.2 with phase := .finishing id current }
  | .destroy, .finishing id current =>
      some { state.destroyFrame id current with phase := .resumed id }
  | .invokeCallbacks, .cancelling id => some { state with phase := .cleaning id none }
  | .unwind, .cleaning id none => state.unwind id
  | .destroy, .cleaning id (some popped) =>
      some { state.destroyFrame id popped with phase := .cleaning id none }
  | .detach, .leaving id => some { state.detachExecution id with phase := .idle }
  | _, _ => none

end State

def machine (Handle Source : Type*) [DecidableEq Handle] [DecidableEq Source] :
    Machine (State Handle Source) (Label Handle Source) where
  start state := state = .initial Handle Source
  move := State.move

/-! ## What a step does -/

/-- What the steps leave, with the execution they are about. -/
inductive Moves (state : State Handle Source) :
    Label Handle Source → State Handle Source → Prop where
  | create {handle : Handle} (free : state.frames handle = none) :
      Moves state (.create handle)
        { state with frames := Function.update state.frames handle (some .fresh) }
  | requestCancel (source : Source) :
      Moves state (.requestCancel source)
        { state with requested := Function.update state.requested source true }
  | attach {id : Handle} (cancelSrcStack : List Source) (fresh : state.frames id = some .fresh)
      (unattached : state.executions id = none) :
      Moves state (.attach id cancelSrcStack)
        { state with
          executions :=
            Function.update state.executions id (some { handleStack := [id], cancelSrcStack })
          corohandleExecMap := Function.update state.corohandleExecMap id (some id)
          frames := Function.update state.frames id (some .used)
          history := state.history ++ [.enter id id] }
  | enter {id : Handle} {execution : Execution Handle Source} (idle : state.phase = .idle)
      (attached : state.executions id = some execution) (stacked : execution.handleStack ≠ []) :
      Moves state (.execute id) { state with phase := .entered id }
  | skip {id : Handle} {execution : Execution Handle Source} (idle : state.phase = .idle)
      (attached : state.executions id = some execution) (exhausted : execution.handleStack = []) :
      Moves state (.execute id) { state with phase := .leaving id }
  | cancel {id : Handle} {execution : Execution Handle Source}
      (before : state.phase = .entered id ∨ state.phase = .resumed id)
      (attached : state.executions id = some execution) :
      Moves state .test { state with phase := .cancelling id }
  | resume {id current : Handle} {rest : List Handle} {execution : Execution Handle Source}
      (entered : state.phase = .entered id) (attached : state.executions id = some execution)
      (stack : execution.handleStack = current :: rest) :
      Moves state .test { state with phase := .running id current }
  | leave {id : Handle} {execution : Execution Handle Source} (resumed : state.phase = .resumed id)
      (attached : state.executions id = some execution) (exhausted : execution.handleStack = []) :
      Moves state .test { state with phase := .leaving id }
  | yield {id : Handle} {execution : Execution Handle Source} (resumed : state.phase = .resumed id)
      (attached : state.executions id = some execution) (stacked : execution.handleStack ≠ []) :
      Moves state .test { state with phase := .idle }
  | await {id current handle : Handle} {execution : Execution Handle Source}
      (running : state.phase = .running id current) (fresh : state.frames handle = some .fresh)
      (attached : state.executions id = some execution) :
      Moves state (.await handle)
        { state with
          executions :=
            Function.update state.executions id
              (some { execution with handleStack := handle :: execution.handleStack })
          corohandleExecMap :=
            Function.update state.corohandleExecMap handle
              (handle :: execution.handleStack).getLast?
          frames := Function.update state.frames handle (some .used)
          phase := .resumed id
          history := state.history ++ [.enter id handle] }
  | suspend {id current : Handle} (running : state.phase = .running id current) :
      Moves state .suspend { state with phase := .resumed id }
  | complete {id current handle : Handle} {rest : List Handle} {execution : Execution Handle Source}
      (running : state.phase = .running id current)
      (attached : state.executions id = some execution)
      (stack : execution.handleStack = handle :: rest) :
      Moves state .complete
        { state with
          executions :=
            Function.update state.executions id (some { execution with handleStack := rest })
          corohandleExecMap := Function.update state.corohandleExecMap handle none
          phase := .finishing id current
          history := state.history ++ [.leave id handle] }
  | invokeCallbacks {id : Handle} (cancelling : state.phase = .cancelling id) :
      Moves state .invokeCallbacks { state with phase := .cleaning id none }
  | unwind {id handle : Handle} {rest : List Handle} {execution : Execution Handle Source}
      (cleaning : state.phase = .cleaning id none) (attached : state.executions id = some execution)
      (stack : execution.handleStack = handle :: rest) :
      Moves state .unwind
        { state with
          executions :=
            Function.update state.executions id (some { execution with handleStack := rest })
          corohandleExecMap := Function.update state.corohandleExecMap handle none
          phase := .cleaning id (some handle)
          history := state.history ++ [.leave id handle] }
  | cleaned {id : Handle} {execution : Execution Handle Source}
      (cleaning : state.phase = .cleaning id none) (attached : state.executions id = some execution)
      (exhausted : execution.handleStack = []) :
      Moves state .unwind { state with phase := .leaving id }
  | destroyCompleted {id current : Handle} (finishing : state.phase = .finishing id current) :
      Moves state .destroy
        { state with
          frames := Function.update state.frames current none
          phase := .resumed id
          history := state.history ++ [.finish id current] }
  | destroyCancelled {id popped : Handle} (cleaning : state.phase = .cleaning id (some popped)) :
      Moves state .destroy
        { state with
          frames := Function.update state.frames popped none
          phase := .cleaning id none
          history := state.history ++ [.finish id popped] }
  | detach {id : Handle} (leaving : state.phase = .leaving id) :
      Moves state .detach
        { state with
          executions := Function.update state.executions id none
          corohandleExecMap := Function.update state.corohandleExecMap id none
          phase := .idle }

variable {state next : State Handle Source} {label : Label Handle Source}

theorem execute_moves {id : Handle} (idle : state.phase = .idle)
    (executed : state.execute id = some next) : Moves state (.execute id) next := by
  obtain ⟨execution, attached, rfl⟩ := Option.map_eq_some_iff.mp executed
  cases stack : execution.handleStack with
  | nil => exact .skip idle attached stack
  | cons handle rest => exact .enter idle attached (by simp [stack])

theorem test_moves (tested : state.test = some next) : Moves state .test next := by
  unfold State.test at tested
  split at tested
  · rename_i id entered
    obtain ⟨execution, attached, chosen⟩ := Option.bind_eq_some_iff.mp tested
    split at chosen
    · cases chosen
      exact .cancel (.inl entered) attached
    · cases stack : execution.handleStack with
      | nil => simp [stack] at chosen
      | cons current rest =>
          obtain rfl : _ = next := by simpa [stack] using chosen
          exact .resume entered attached stack
  · rename_i id resumed
    obtain ⟨execution, attached, rfl⟩ := Option.map_eq_some_iff.mp tested
    split
    · exact .cancel (.inr resumed) attached
    · cases stack : execution.handleStack with
      | nil => exact .leave resumed attached stack
      | cons handle rest => exact .yield resumed attached (by simp [stack])
  · contradiction

theorem unwind_moves {id : Handle} (cleaning : state.phase = .cleaning id none)
    (unwound : state.unwind id = some next) : Moves state .unwind next := by
  obtain ⟨execution, attached, rfl⟩ := Option.map_eq_some_iff.mp unwound
  cases stack : execution.handleStack with
  | nil => exact .cleaned cleaning attached stack
  | cons handle rest =>
      simp only [List.isEmpty_cons, Bool.false_eq_true, if_false, State.popHandle, attached,
        Option.bind_some, stack]
      exact .unwind cleaning attached stack

theorem moves_of_move (moved : state.move label = some next) : Moves state label next := by
  unfold State.move at moved
  split at moved
  · split at moved
    · cases moved
      exact .create ‹_›
    · contradiction
  · cases moved
    exact .requestCancel _
  · split at moved
    · rename_i fresh
      unfold State.attachExecution at moved
      split at moved
      · contradiction
      · cases moved
        rename_i unattached
        exact .attach _ fresh (by simpa using unattached)
    · contradiction
  · exact execute_moves ‹_› moved
  · exact test_moves moved
  · split at moved
    · rename_i handle id current running fresh
      obtain ⟨pushed, executed, rfl⟩ := Option.map_eq_some_iff.mp moved
      obtain ⟨execution, attached, rfl⟩ := Option.map_eq_some_iff.mp executed
      exact .await running fresh attached
    · contradiction
  · cases moved
    exact .suspend ‹_›
  · rename_i id current running
    obtain ⟨popped, executed, rfl⟩ := Option.map_eq_some_iff.mp moved
    obtain ⟨execution, attached, chosen⟩ := Option.bind_eq_some_iff.mp executed
    cases stack : execution.handleStack with
    | nil => simp [stack] at chosen
    | cons handle rest =>
        obtain rfl : _ = popped := by simpa [stack] using chosen
        exact .complete running attached stack
  · cases moved
    exact .destroyCompleted ‹_›
  · cases moved
    exact .invokeCallbacks ‹_›
  · exact unwind_moves ‹_› moved
  · cases moved
    exact .destroyCancelled ‹_›
  · cases moved
    exact .detach ‹_›
  · contradiction

end Asco.Core.Task.Executor
