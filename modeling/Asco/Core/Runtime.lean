import Asco.Foundation.Machine

namespace Asco.Core.Runtime

open Foundation

/-! # `runtime` and its workers

Workers run `run_once` for ever, while they and threads outside of the runtime
spawn tasks.  A step is one operation on the coroutine queue, on the queue of
idle workers, on a semaphore or on the scheduler of a worker.  The executions of
a worker are only counted.
-/

/-- `detail::coroutine_queue_capacity`. -/
def coroutineQueueCapacity : ℕ := 1024

/-- `detail::idle_workers_capacity`. -/
def idleWorkersCapacity : ℕ := 1024

/-- `backsem` is `m_backsem_sync`, `sem` the semaphore of the daemon that a worker
is, `active` and `suspended` count its executions, and `rejected` lists the tasks
the coroutine queue did not take. -/
structure State (Worker τ : Type*) where
  coroutines : List τ
  backsem : ℕ
  idleWorkers : List Worker
  sem : Worker → ℕ
  active : Worker → ℕ
  suspended : Worker → ℕ
  rejected : List τ

/-- Where a thread stands.  `execute` runs an execution of the worker and
`outside` is the place of a thread that is no worker; `spawning` is the task of
the `spawn` that fetches another one, and `permitted` says that the task to push
has its permit. -/
inductive Pc (Worker τ : Type*) where
  | fetch
  | fetchRelease (spawning : Option τ)
  | fetchAttach (spawning : Option τ)
  | checkActive
  | register
  | sleep
  | execute
  | outside
  | acquire (task : τ)
  | tryAcquire (task : τ)
  | spawnFetch (task : τ)
  | push (task : τ) (permitted : Bool)
  | awakeNext
  | awake (worker : Worker)
  | tokenActivate (worker : Worker)
  | tokenAwake (worker : Worker)

/-- How a worker leaves an execution. -/
inductive Rest where
  | yields
  | suspends
  | completes

/-- A thread takes a step, begins a call, or leaves an execution.  `token` is
`awake_token::awake`. -/
inductive Label (Worker τ : Type*) where
  | step
  | spawn (task : τ)
  | blockOn (task : τ)
  | token (worker : Worker)
  | rest (rest : Rest)

section

variable {Worker Client τ : Type*} [DecidableEq Worker]

/-- Where a thread is between its calls. -/
def home : Worker ⊕ Client → Pc Worker τ
  | .inl _ => .execute
  | .inr _ => .outside

def State.trySend (state : State Worker τ) (task : τ) : State Worker τ :=
  if state.coroutines.length < coroutineQueueCapacity then
    { state with coroutines := state.coroutines ++ [task] }
  else { state with rejected := state.rejected ++ [task] }

def State.trySendIdle (state : State Worker τ) (worker : Worker) : State Worker τ :=
  if state.idleWorkers.length < idleWorkersCapacity then
    { state with idleWorkers := state.idleWorkers ++ [worker] }
  else state

/-- `daemon::awake`. -/
def State.awake (state : State Worker τ) (worker : Worker) : State Worker τ :=
  { state with sem := Function.update state.sem worker (state.sem worker + 1) }

/-- `attach_execution`. -/
def State.attach (state : State Worker τ) (worker : Worker) : State Worker τ :=
  { state with active := Function.update state.active worker (state.active worker + 1) }

/-- `awake_execution`, of a suspended execution if there is one. -/
def State.activate (state : State Worker τ) (worker : Worker) : State Worker τ :=
  if state.suspended worker = 0 then state
  else
    { state with
      active := Function.update state.active worker (state.active worker + 1)
      suspended := Function.update state.suspended worker (state.suspended worker - 1) }

/-- An execution of the worker gives the worker back. -/
def State.leave (state : State Worker τ) (worker : Worker) (rest : Rest) : State Worker τ :=
  if state.active worker = 0 then state
  else
    match rest with
    | .yields => state
    | .suspends =>
        { state with
          active := Function.update state.active worker (state.active worker - 1)
          suspended := Function.update state.suspended worker (state.suspended worker + 1) }
    | .completes =>
        { state with active := Function.update state.active worker (state.active worker - 1) }

def afterFetch : Option τ → Pc Worker τ
  | none => .execute
  | some task => .push task false

/-- The steps only a worker takes. -/
def workerStep (worker : Worker) (state : State Worker τ) :
    Pc Worker τ → Option (State Worker τ × Pc Worker τ)
  | .fetch =>
      match state.coroutines with
      | [] => some (state, .checkActive)
      | _ :: coroutines => some ({ state with coroutines }, .fetchRelease none)
  | .fetchRelease spawning =>
      some ({ state with backsem := state.backsem + 1 }, .fetchAttach spawning)
  | .fetchAttach spawning => some (state.attach worker, afterFetch spawning)
  | .checkActive =>
      if state.active worker = 0 then some (state, .register) else some (state, .execute)
  | .register => some (state.trySendIdle worker, .sleep)
  | .sleep =>
      if state.sem worker = 0 then none
      else
        some ({ state with sem := Function.update state.sem worker (state.sem worker - 1) }, .fetch)
  | .tryAcquire task =>
      if state.backsem = 0 then some (state, .spawnFetch task)
      else some ({ state with backsem := state.backsem - 1 }, .push task true)
  | .spawnFetch task =>
      match state.coroutines with
      | [] => some (state, .push task false)
      | _ :: coroutines => some ({ state with coroutines }, .fetchRelease (some task))
  | _ => none

/-- The steps any thread takes. -/
def callStep (thread : Worker ⊕ Client) (state : State Worker τ) :
    Pc Worker τ → Option (State Worker τ × Pc Worker τ)
  | .acquire task =>
      if state.backsem = 0 then none
      else some ({ state with backsem := state.backsem - 1 }, .push task true)
  | .push task _ => some (state.trySend task, .awakeNext)
  | .awakeNext =>
      match state.idleWorkers with
      | [] => some (state, home thread)
      | worker :: idleWorkers => some ({ state with idleWorkers }, .awake worker)
  | .awake worker => some (state.awake worker, home thread)
  | .tokenActivate worker => some (state.activate worker, .tokenAwake worker)
  | .tokenAwake worker => some (state.awake worker, home thread)
  | _ => none

/-- `spawn` and `spawn_blocking`, inside and outside of the runtime. -/
def spawn (task : τ) : Worker ⊕ Client → Pc Worker τ
  | .inl _ => .tryAcquire task
  | .inr _ => .acquire task

def advance (thread : Worker ⊕ Client) (state : State Worker τ) (pc : Pc Worker τ) :
    Label Worker τ → Option (State Worker τ × Pc Worker τ)
  | .step =>
      match thread with
      | .inl worker => workerStep worker state pc <|> callStep thread state pc
      | .inr _ => callStep thread state pc
  | .spawn task =>
      match pc with
      | .execute | .outside => some (state, spawn task thread)
      | _ => none
  | .blockOn task =>
      match pc with
      | .execute | .outside => some (state, .acquire task)
      | _ => none
  | .token worker =>
      match pc with
      | .execute | .outside => some (state, .tokenActivate worker)
      | _ => none
  | .rest rest =>
      match thread, pc with
      | .inl worker, .execute => some (state.leave worker rest, .fetch)
      | _, _ => none

def program (Worker Client τ : Type*) [DecidableEq Worker] :
    Program (Worker ⊕ Client) (State Worker τ) (Pc Worker τ) (Label Worker τ) where
  advance := advance

/-- A runtime whose workers begin their first `run_once`. -/
def built (Worker Client τ : Type*) : Pool (Worker ⊕ Client) (State Worker τ) (Pc Worker τ) where
  shared :=
    { coroutines := [], backsem := coroutineQueueCapacity, idleWorkers := [], sem := fun _ => 0,
      active := fun _ => 0, suspended := fun _ => 0, rejected := [] }
  locals
    | .inl _ => .fetch
    | .inr _ => .outside

def machine (Worker Client τ : Type*) [DecidableEq Worker] [DecidableEq Client] :
    Machine (Pool (Worker ⊕ Client) (State Worker τ) (Pc Worker τ))
      ((Worker ⊕ Client) × Label Worker τ) :=
  (program Worker Client τ).machine (· = built Worker Client τ)

end

end Asco.Core.Runtime
