import Asco.Foundation.Machine

namespace Asco.JoinHandle

open Foundation

/-! # `join_handle`

The completers of a task race on `cstate`, each in a thread of its own, while
one execution awaits the handle.  A step is one atomic operation, the
construction of the value or the write of `e_ptr`.  Of the scheduler of the
awaiter only its own execution is kept; a wake-up that precedes the suspension
cancels it.
-/

inductive CompleteState where
  | notCompleted
  | awaitableWaiting
  | completed
deriving DecidableEq

inductive Exception (ε : Type*) where
  | thrown (error : ε)
  | coroutineCancelled
deriving DecidableEq

/-- The callers of `try_mark_completed`; `final` is `final_suspend`. -/
inductive Completer (α ε : Type*) where
  | returnValue (value : α)
  | returnVoid
  | unhandledException (error : ε)
  | cancel
  | final

/-- Where a completer stands. -/
inductive Pc (α ε : Type*) where
  | markLoad (completer : Completer α ε)
  | markExchange (completer : Completer α ε) (expected : CompleteState)
  | write (completer : Completer α ε)
  | requestCancel (completer : Completer α ε)
  | release (completer : Completer α ε)
  | loadToken (completer : Completer α ε)
  | awake (completer : Completer α ε)
  | loadCancelToken
  | awakeTask

/-- What `await_resume` ends with; `unconstructed` reads the storage of a value
that is not there. -/
inductive Read (α ε : Type*) where
  | value (value : α)
  | void
  | rethrown (exception : Exception ε)
  | unconstructed

/-- Where the awaiter stands; `waiting` is the suspension itself. -/
inductive Awaiter (α ε : Type*) where
  | ready
  | storeToken
  | suspendLoad
  | suspendExchange (expected : CompleteState)
  | suspendCurrent
  | waiting
  | resumeLoad
  | resumeRead
  | resumed (read : Read α ε)

/-- `task_state` and what the scheduler knows of the awaiter.  `isVoid` is
`output_void`, `winners` lists the successes of `try_mark_completed`, `released`
counts the releases of `sync_awaiter`, and `returned` the calls that have ended. -/
structure TaskState (α ε : Type*) where
  isVoid : Bool
  cstate : CompleteState
  value : Option α
  ePtr : Option (Exception ε)
  released : ℕ
  callerAwakeToken : Bool
  cancelRequested : Bool
  cancelAwakeToken : Bool
  taskWakeUps : ℕ
  awaiter : Awaiter α ε
  suspended : Bool
  preawake : Bool
  winners : List (Completer α ε)
  returned : ℕ

variable {α ε : Type*}

/-- The payload of a completer goes to the value or to `e_ptr`. -/
def Completer.afterMark : Completer α ε → Pc α ε
  | .returnVoid => .release .returnVoid
  | .final => .release .final
  | completer => .write completer

def Completer.afterWrite : Completer α ε → Pc α ε
  | .cancel => .requestCancel .cancel
  | completer => .release completer

/-- A task that has returned or thrown goes on to `final_suspend`. -/
def Completer.afterwards : Completer α ε → Option (Pc α ε)
  | .cancel | .final => none
  | _ => some (.markLoad .final)

def TaskState.write (task : TaskState α ε) : Completer α ε → TaskState α ε
  | .returnValue value => { task with value := some value }
  | .unhandledException error => { task with ePtr := some (.thrown error) }
  | .cancel => { task with ePtr := some .coroutineCancelled }
  | .returnVoid | .final => task

/-- `awake_execution` of the awaiter. -/
def TaskState.awakeCaller (task : TaskState α ε) : TaskState α ε :=
  if task.suspended then { task with suspended := false } else { task with preawake := true }

/-- `suspend_current` of the awaiter. -/
def TaskState.suspendCaller (task : TaskState α ε) : TaskState α ε :=
  if task.preawake then { task with preawake := false } else { task with suspended := true }

def TaskState.finish (task : TaskState α ε) (completer : Completer α ε) :
    TaskState α ε × Option (Pc α ε) :=
  ({ task with returned := task.returned + 1 }, completer.afterwards)

/-- After the caller has been woken, `cancel` also wakes the task. -/
def TaskState.afterAwake (task : TaskState α ε) :
    Completer α ε → TaskState α ε × Option (Pc α ε)
  | .cancel => (task, some .loadCancelToken)
  | completer => task.finish completer

/-- The next step of a completer. -/
def resume (task : TaskState α ε) (spurious : Bool) : Pc α ε → TaskState α ε × Option (Pc α ε)
  | .markLoad completer =>
      if task.cstate = .completed then task.finish completer
      else (task, some (.markExchange completer task.cstate))
  | .markExchange completer expected =>
      if task.cstate = expected ∧ spurious = false then
        ({ task with cstate := .completed, winners := completer :: task.winners },
          some completer.afterMark)
      else (task, some (.markLoad completer))
  | .write completer => (task.write completer, some completer.afterWrite)
  | .requestCancel completer =>
      ({ task with cancelRequested := true }, some (.release completer))
  | .release completer =>
      ({ task with released := task.released + 1 }, some (.loadToken completer))
  | .loadToken completer =>
      if task.callerAwakeToken then (task, some (.awake completer))
      else task.afterAwake completer
  | .awake completer => task.awakeCaller.afterAwake completer
  | .loadCancelToken =>
      if task.cancelAwakeToken then (task, some .awakeTask) else task.finish .cancel
  | .awakeTask => { task with taskWakeUps := task.taskWakeUps + 1 }.finish .cancel

/-- What `await_resume` finds. -/
def TaskState.read (task : TaskState α ε) : Read α ε :=
  match task.ePtr, task.isVoid, task.value with
  | some exception, _, _ => .rethrown exception
  | none, true, _ => .void
  | none, false, some value => .value value
  | none, false, none => .unconstructed

/-- The next step of the awaiter; there is none while it is suspended. -/
def awaiterStep (task : TaskState α ε) (spurious : Bool) : Option (TaskState α ε) :=
  match task.awaiter with
  | .ready =>
      if task.cstate = .completed then some { task with awaiter := .resumeLoad }
      else some { task with awaiter := .storeToken }
  | .storeToken => some { task with callerAwakeToken := true, awaiter := .suspendLoad }
  | .suspendLoad =>
      if task.cstate = .completed then some { task with awaiter := .resumeLoad }
      else some { task with awaiter := .suspendExchange task.cstate }
  | .suspendExchange expected =>
      if task.cstate = expected ∧ spurious = false then
        some { task with cstate := .awaitableWaiting, awaiter := .suspendCurrent }
      else some { task with awaiter := .suspendLoad }
  | .suspendCurrent => some { task.suspendCaller with awaiter := .waiting }
  | .waiting => if task.suspended then none else some { task with awaiter := .resumeLoad }
  | .resumeLoad => some { task with awaiter := .resumeRead }
  | .resumeRead => some { task with awaiter := .resumed task.read }
  | .resumed _ => none

/-! ## One awaiter and any number of completers -/

inductive Label (α ε : Type*) where
  | call (completer : Completer α ε)
  | step (spurious : Bool)
  | awaiter (spurious : Bool)

/-- `final_suspend` is only reached through the end of the task, and the task
returns a value or nothing by its type. -/
def TaskState.offers (task : TaskState α ε) : Completer α ε → Bool
  | .returnValue _ => !task.isVoid
  | .returnVoid => task.isVoid
  | .unhandledException _ | .cancel => true
  | .final => false

def advance (task : TaskState α ε) (pc : Option (Pc α ε)) :
    Label α ε → Option (TaskState α ε × Option (Pc α ε))
  | .call completer =>
      match pc with
      | none => if task.offers completer then some (task, some (.markLoad completer)) else none
      | some _ => none
  | .step spurious => pc.map (resume task spurious)
  | .awaiter spurious => (awaiterStep task spurious).map fun next => (next, pc)

def program (Thread α ε : Type*) :
    Program Thread (TaskState α ε) (Option (Pc α ε)) (Label α ε) where
  advance _ := advance

/-- A task that has just been spawned and is about to be awaited. -/
def Fresh (task : TaskState α ε) : Prop :=
  task.cstate = .notCompleted ∧ task.value.isNone ∧ task.ePtr.isNone ∧ task.released = 0 ∧
    task.callerAwakeToken = false ∧ task.awaiter matches .ready ∧ task.suspended = false ∧
    task.preawake = false ∧ task.winners = [] ∧ task.returned = 0

def machine (Thread α ε : Type*) [DecidableEq Thread] :
    Machine (Pool Thread (TaskState α ε) (Option (Pc α ε))) (Thread × Label α ε) :=
  (program Thread α ε).machine fun pool => Fresh pool.shared ∧ ∀ thread, pool.locals thread = none

/-- A task without any call yet. -/
def spawned (Thread α ε : Type*) (isVoid : Bool) :
    Pool Thread (TaskState α ε) (Option (Pc α ε)) where
  shared :=
    { isVoid, cstate := .notCompleted, value := none, ePtr := none, released := 0,
      callerAwakeToken := false, cancelRequested := false, cancelAwakeToken := false,
      taskWakeUps := 0, awaiter := .ready, suspended := false, preawake := false,
      winners := [], returned := 0 }
  locals _ := none

theorem spawned_start (Thread α ε : Type*) [DecidableEq Thread] (isVoid : Bool) :
    (machine Thread α ε).start (spawned Thread α ε isVoid) :=
  ⟨⟨rfl, rfl, rfl, rfl, rfl, rfl, rfl, rfl, rfl, rfl⟩, fun _ => rfl⟩

end Asco.JoinHandle
