import Asco.Sync.Mutex
import Mathlib.Algebra.Ring.Nat

namespace Asco.Sync.Semaphore.Cleanup

open Foundation

/-! # `cancel_cleanup` and the coroutines that await `acquire`

An execution is a stack of coroutines.  The executor resumes the innermost one until it
suspends, and tests for cancellation before and after; a cancelled stack is destroyed from
the top.  A step is one operation of a semaphore or one move between the executor and the
coroutines.
-/

/-- The template parameter and the argument of the constructor. -/
structure Size where
  limit : UInt64
  count : UInt64

variable {Task S M : Type*}

/-- There are the semaphores `S` and the mutexes `M`, each with its `binary_semaphore`. -/
def size (sizes : S → Size) : S ⊕ M → Size :=
  Sum.elim sizes fun _ => { limit := 1, count := 1 }

def initial (sizes : S → Size) (semaphore : S ⊕ M) : ℕ :=
  min (size sizes semaphore).limit.toNat (size sizes semaphore).count.toNat

/-- The coroutine that awaits `acquire()`: one of the task's own, such as `send` and `recv`
of a channel, or `mutex<>::lock`. -/
inductive Awaiter (S M : Type*) where
  | code (semaphore : S)
  | lock (mutex : M)
deriving DecidableEq

def Awaiter.semaphore : Awaiter S M → S ⊕ M
  | .code semaphore => .inl semaphore
  | .lock mutex => .inr mutex

/-- The coroutines above the task's own ones.  With `acquire` there is `wait_once` where
its place is one of `wait_once`; `acquired` is the awaiter alone, after `acquire` has
returned. -/
inductive Awaited (S M : Type*) where
  | nothing
  | lock (mutex : M)
  | acquire (awaiter : Awaiter S M) (pc : Pc)
  | acquired (awaiter : Awaiter S M)
deriving DecidableEq

/-- `resumed` is inside `resume()`, `returned` between it and the second test; a call is
one that does not suspend. -/
inductive Phase (S M : Type*) where
  | parked
  | resumed (call : Option ((S ⊕ M) × Pc))
  | returned
  | cleaning (call : Option ((S ⊕ M) × Pc))
  | finished
deriving DecidableEq

/-- `guards` are those in the frame of the innermost of the task's own coroutines and
`callers` those in the frames that await it. -/
structure Execution (S M : Type*) where
  guards : List M
  callers : List (List M)
  awaited : Awaited S M
  phase : Phase S M
  requested : Bool

/-- What a coroutine of the task does; `ret` hands its guards to the caller. -/
inductive Operation (S M : Type*) where
  | tryAcquire (semaphore : S)
  | release (semaphore : S) (n : UInt64)
  | tryLock (mutex : M)
  | unlock (mutex : M)
  | acquire (semaphore : S)
  | lock (mutex : M)
  | await
  | yield
  | ret

inductive Action (S M : Type*) where
  | request
  | execute
  | check
  | code (operation : Operation S M)
  | step (spurious : Bool)

/-- `obtained` counts the permits of successful calls of `try_acquire` and of the awaiters
that have been resumed from `acquire`, `given` adds up what `release` has returned. -/
structure State (Task S M : Type*) where
  semaphores : S ⊕ M → Semaphore Task
  executions : Task → Execution S M
  obtained : S ⊕ M → ℕ
  given : S ⊕ M → ℕ

variable [DecidableEq Task] [DecidableEq S] [DecidableEq M]

/-- The guard made of a permit of a mutex. -/
def Execution.keep (execution : Execution S M) :
    S ⊕ M → Option Outcome → Execution S M
  | .inr mutex, some .acquired => { execution with guards := mutex :: execution.guards }
  | _, _ => execution

/-- The step of `acquire` or `wait_once` suspends the coroutine: it has returned, yields or
awaits. -/
def suspends : Pc → Pc → Bool
  | _, .idle => true
  | .acquireLoad _, .acquireLoad i => 16 < i
  | .acquireLoad _, .acquireWait => true
  | .acquireWait, _ | .acquireSuspended, _ => true
  | _, _ => false

namespace State

def become (state : State Task S M) (task : Task) (execution : Execution S M) :
    State Task S M :=
  { state with executions := Function.update state.executions task execution }

/-- `await_resume` of the awaiter. -/
def obtain (state : State Task S M) (semaphore : S ⊕ M) : State Task S M :=
  { state with
    obtained := Function.update state.obtained semaphore (state.obtained semaphore + 1) }

/-- `cancel_cleanup` begins: nothing in the frames of `wait_once`, `acquire` and `lock`
gives a permit back. -/
def cleanup (state : State Task S M) (task : Task) : State Task S M :=
  state.become task
    { state.executions task with awaited := .nothing, phase := .cleaning none }

/-- `cancel_cleanup` destroys a guard, or the frame when none is left in it. -/
def destroy (state : State Task S M) (task : Task) : State Task S M :=
  let execution := state.executions task
  match execution.guards, execution.callers with
  | mutex :: guards, _ =>
      state.become task
        { execution with
          guards
          phase := .cleaning (some (.inr mutex, start (.release 1))) }
  | [], guards :: callers => state.become task { execution with guards, callers }
  | [], [] => state.become task { execution with phase := .finished }

/-- A suspended task is active again when its token has been awoken. -/
def active (state : State Task S M) (task : Task) : Bool :=
  match (state.executions task).awaited with
  | .acquire awaiter .acquireSuspended =>
      task ∉ (state.semaphores awaiter.semaphore).cv.waitQueue
  | _ => true

/-- The innermost coroutine is resumed. -/
def resume (state : State Task S M) (task : Task) : State Task S M :=
  let execution := state.executions task
  match execution.awaited with
  | .nothing | .acquire _ _ => state.become task { execution with phase := .resumed none }
  | .lock mutex =>
      state.become task
        { execution with
          awaited := .acquire (.lock mutex) (start .acquire)
          phase := .returned }
  | .acquired (.code semaphore) =>
      (state.become task
        { execution with awaited := .nothing, phase := .resumed none }).obtain (.inl semaphore)
  | .acquired (.lock mutex) =>
      (state.become task
        { execution with
          guards := mutex :: execution.guards
          awaited := .nothing
          phase := .returned }).obtain (.inr mutex)

/-- `executor::execute`, up to `resume()`.  `join_handle::cancel` makes the task active. -/
def execute (state : State Task S M) (task : Task) : Option (State Task S M) :=
  if (state.executions task).requested then some (state.cleanup task)
  else if state.active task then some (state.resume task)
  else none

/-- The second test. -/
def check (state : State Task S M) (task : Task) : State Task S M :=
  if (state.executions task).requested then state.cleanup task
  else state.become task { state.executions task with phase := .parked }

/-- The step of a coroutine of the task's own. -/
def code (state : State Task S M) (task : Task) : Operation S M → Option (State Task S M)
  | .tryAcquire semaphore =>
      some (state.become task
        { state.executions task with
          phase := .resumed (some (.inl semaphore, start .tryAcquire)) })
  | .release semaphore n =>
      some (state.become task
        { state.executions task with
          phase := .resumed (some (.inl semaphore, start (.release n))) })
  | .tryLock mutex =>
      some (state.become task
        { state.executions task with
          phase := .resumed (some (.inr mutex, start .tryAcquire)) })
  | .unlock mutex =>
      if mutex ∈ (state.executions task).guards then
        some (state.become task
          { state.executions task with
            guards := (state.executions task).guards.erase mutex
            phase := .resumed (some (.inr mutex, start (.release 1))) })
      else none
  | .acquire semaphore =>
      some (state.become task
        { state.executions task with
          awaited := .acquire (.code semaphore) (start .acquire)
          phase := .returned })
  | .lock mutex =>
      some (state.become task
        { state.executions task with awaited := .lock mutex, phase := .returned })
  | .await =>
      some (state.become task
        { state.executions task with
          guards := []
          callers := (state.executions task).guards :: (state.executions task).callers
          phase := .returned })
  | .yield =>
      some (state.become task { state.executions task with phase := .returned })
  | .ret =>
      match (state.executions task).callers with
      | caller :: callers =>
          some (state.become task
            { state.executions task with
              guards := (state.executions task).guards ++ caller
              callers
              phase := .returned })
      | [] =>
          -- the guards that are left have been destroyed
          if (state.executions task).guards = [] then
            some (state.become task { state.executions task with phase := .finished })
          else none

/-- A step of a call that does not suspend. -/
def call (state : State Task S M) (sizes : S → Size) (task : Task) (spurious : Bool)
    (phase : Option ((S ⊕ M) × Pc) → Phase S M) (semaphore : S ⊕ M) (pc : Pc) :
    Option (State Task S M) :=
  let answer := outcome (size sizes semaphore).limit (state.semaphores semaphore) spurious pc
  (Semaphore.resume (size sizes semaphore).limit task (state.semaphores semaphore) spurious
      pc).map fun next =>
    { semaphores := Function.update state.semaphores semaphore next.1
      executions := Function.update state.executions task
        { (state.executions task).keep semaphore answer with
          phase := phase (if next.2 = .idle then none else some (semaphore, next.2)) }
      obtained := Function.update state.obtained semaphore
        (state.obtained semaphore + taken answer)
      given := Function.update state.given semaphore
        (state.given semaphore + Semaphore.given answer) }

/-- A step of `acquire` or `wait_once`. -/
def acquire (state : State Task S M) (sizes : S → Size) (task : Task) (spurious : Bool)
    (awaiter : Awaiter S M) (pc : Pc) : Option (State Task S M) :=
  (Semaphore.resume (size sizes awaiter.semaphore).limit task
      (state.semaphores awaiter.semaphore) spurious pc).map fun next =>
    { state with
      semaphores := Function.update state.semaphores awaiter.semaphore next.1
      executions := Function.update state.executions task
        { state.executions task with
          awaited := if next.2 = .idle then .acquired awaiter else .acquire awaiter next.2
          phase := if suspends pc next.2 then .returned else .resumed none } }

def step (state : State Task S M) (sizes : S → Size) (task : Task) (spurious : Bool) :
    Option (State Task S M) :=
  match (state.executions task).phase, (state.executions task).awaited with
  | .resumed (some (semaphore, pc)), _ =>
      state.call sizes task spurious .resumed semaphore pc
  | .cleaning (some (semaphore, pc)), _ =>
      state.call sizes task spurious .cleaning semaphore pc
  | .cleaning none, _ => some (state.destroy task)
  | .resumed none, .acquire awaiter pc => state.acquire sizes task spurious awaiter pc
  | _, _ => none

def move (sizes : S → Size) (state : State Task S M) :
    Task × Action S M → Option (State Task S M)
  | (task, .request) =>
      some (state.become task { state.executions task with requested := true })
  | (task, .execute) =>
      match (state.executions task).phase with
      | .parked => state.execute task
      | _ => none
  | (task, .check) =>
      match (state.executions task).phase with
      | .returned => some (state.check task)
      | _ => none
  | (task, .code operation) =>
      match (state.executions task).phase, (state.executions task).awaited with
      | .resumed none, .nothing => state.code task operation
      | _, _ => none
  | (task, .step spurious) => state.step sizes task spurious

end State

def fresh (sizes : S → Size) (Task M : Type*) : State Task S M where
  semaphores semaphore := { count := initial sizes semaphore, cv := .empty }
  executions _ :=
    { guards := [], callers := [], awaited := .nothing, phase := .parked, requested := false }
  obtained _ := 0
  given _ := 0

def machine (sizes : S → Size) (Task M : Type*) [DecidableEq Task] [DecidableEq M] :
    Machine (State Task S M) (Task × Action S M) where
  start := (· = fresh sizes Task M)
  move := State.move sizes

/-! ## Where the permits are -/

/-- `acquire` has taken a permit and its awaiter has not been resumed. -/
def Execution.inFlight (execution : Execution S M) (semaphore : S ⊕ M) : ℕ :=
  match execution.awaited with
  | .acquired awaiter => if awaiter.semaphore = semaphore then 1 else 0
  | _ => 0

/-- The call of a semaphore that is under way. -/
def Phase.call : Phase S M → Option ((S ⊕ M) × Pc)
  | .resumed call | .cleaning call => call
  | _ => none

/-- The destructor of a guard gives the permit back. -/
def Phase.releasing (phase : Phase S M) (mutex : M) : ℕ :=
  match phase.call with
  | some (.inr other, pc) => if other = mutex then Mutex.releasing pc else 0
  | _ => 0

/-- The guards of a mutex in the frames of a task, one that is being destroyed included. -/
def Execution.held (execution : Execution S M) (mutex : M) : ℕ :=
  execution.guards.count mutex + (execution.callers.map (List.count mutex)).sum +
    execution.phase.releasing mutex

/-- A task that has finished or has been torn down, or that has neither a permit that it has
not been resumed with nor a guard. -/
def Clear (execution : Execution S M) (mutex : M) : Prop :=
  execution.phase = .finished ∨
    execution.inFlight (.inr mutex) = 0 ∧ execution.held mutex = 0

/-- The counter is as if the calls of `acquire` whose awaiters have been destroyed had never
been made. -/
structure Unconsumed [Fintype Task] (sizes : S → Size) (state : State Task S M) : Prop where
  counted : ∀ semaphore, (state.semaphores semaphore).count + state.obtained semaphore +
    tally (fun execution : Execution S M => execution.inFlight semaphore) state.executions =
      initial sizes semaphore + state.given semaphore
  restored : ∀ semaphore, (∀ task, (state.executions task).inFlight semaphore = 0) →
    state.obtained semaphore = state.given semaphore →
      (state.semaphores semaphore).count = initial sizes semaphore
  unlocked : ∀ mutex, (∀ task, Clear (state.executions task) mutex) →
    (state.semaphores (.inr mutex)).count = 1

def Awaited.isAcquired : Awaited S M → Bool
  | .acquired _ => true
  | _ => false

/-- The steps in which the executor tests for a cancellation. -/
def Action.tests : Action S M → Bool
  | .execute | .check => true
  | _ => false

/-- The executor finds no cancellation between the return of `acquire` and the resumption of
its awaiter. -/
def ResumesAwaiter (state : State Task S M) (label : Task × Action S M) : Prop :=
  label.2.tests = true → (state.executions label.1).requested = true →
    (state.executions label.1).awaited.isAcquired = false

instance : DecidableRel (@ResumesAwaiter Task S M) :=
  fun _ _ => inferInstanceAs (Decidable (_ → _ → _))

/-! ## The places of an execution -/

open Mutex (Within releases releasing_eq start_within)

/-- A call that does not suspend is on a place of its own. -/
structure Calling (sizes : S → Size) (semaphore : S ⊕ M) (pc : Pc) : Prop where
  carried : Carried (size sizes semaphore).limit pc
  within : ∀ mutex, semaphore = .inr mutex → Within .tryAcquire pc ∨ Within (.release 1) pc

/-- Nothing is awaited while a call or `cancel_cleanup` is under way. -/
structure Follows (sizes : S → Size) (execution : Execution S M) : Prop where
  calls : ∀ semaphore pc, execution.phase.call = some (semaphore, pc) →
    Calling sizes semaphore pc ∧ execution.awaited = .nothing
  awaits : ∀ awaiter pc, execution.awaited = .acquire awaiter pc →
    Carried (size sizes awaiter.semaphore).limit pc ∧ Within .acquire pc
  torn : ∀ call, execution.phase = .cleaning call → execution.awaited = .nothing
  finished : execution.phase = .finished →
    execution.guards = [] ∧ execution.callers = [] ∧ execution.awaited = .nothing

/-- The counters account for every permit, and the guards of a mutex are what has been
obtained and not given back. -/
structure Accounted [Fintype Task] (sizes : S → Size) (state : State Task S M) : Prop where
  bounded : ∀ semaphore, (state.semaphores semaphore).count ≤ (size sizes semaphore).limit.toNat
  follows : ∀ task, Follows sizes (state.executions task)
  counted : ∀ semaphore, (state.semaphores semaphore).count + state.obtained semaphore +
    tally (fun execution : Execution S M => execution.inFlight semaphore) state.executions =
      initial sizes semaphore + state.given semaphore
  owned : ∀ mutex, state.obtained (.inr mutex) = state.given (.inr mutex) +
    tally (fun execution : Execution S M => execution.held mutex) state.executions

variable {sizes : S → Size} {execution : Execution S M} {pc : Pc} {task : Task}
  {state next : State Task S M}

theorem start_carried {N : UInt64} {call : Call} : Carried N (start call) := by
  cases call <;> trivial

omit [DecidableEq S] [DecidableEq M] in
/-- The coroutine stands at none of the places of a call. -/
theorem Follows.of_quiet (calm : execution.phase.call = none)
    (standing : ∀ awaiter pc, execution.awaited ≠ .acquire awaiter pc)
    (alive : ∀ call, execution.phase ≠ .cleaning call)
    (unfinished : execution.phase ≠ .finished) : Follows sizes execution where
  calls semaphore pc calling := by
    rw [calm] at calling
    contradiction
  awaits awaiter pc awaiting := absurd awaiting (standing awaiter pc)
  torn call cleaning := absurd cleaning (alive call)
  finished ended := absurd ended unfinished

omit [DecidableEq S] [DecidableEq M] in
/-- A call that does not suspend. -/
theorem Follows.of_calling (idle : execution.awaited = .nothing)
    (place : ∀ other pc, execution.phase.call = some (other, pc) → Calling sizes other pc)
    (unfinished : execution.phase ≠ .finished) : Follows sizes execution where
  calls other pc calling := ⟨place other pc calling, idle⟩
  awaits awaiter pc awaiting := by
    rw [idle] at awaiting
    contradiction
  torn _ _ := idle
  finished ended := absurd ended unfinished

/-- A step of one task, with what it has before and after. -/
theorem Accounted.changed [Fintype Task] (accounted : Accounted sizes state)
    (executions : next.executions = Function.update state.executions task execution)
    (bounded : ∀ semaphore,
      (next.semaphores semaphore).count ≤ (size sizes semaphore).limit.toNat)
    (follows : Follows sizes execution)
    (counted : ∀ semaphore, (next.semaphores semaphore).count + next.obtained semaphore +
        execution.inFlight semaphore + state.given semaphore =
      (state.semaphores semaphore).count + state.obtained semaphore +
        (state.executions task).inFlight semaphore + next.given semaphore)
    (owned : ∀ mutex, next.obtained (.inr mutex) + (state.executions task).held mutex +
        state.given (.inr mutex) =
      state.obtained (.inr mutex) + execution.held mutex + next.given (.inr mutex)) :
    Accounted sizes next where
  bounded := bounded
  follows other := by
    rw [executions]
    by_cases same : other = task
    · subst same
      simpa using follows
    · simpa [same] using accounted.follows other
  counted semaphore := by
    have before := accounted.counted semaphore
    have changes := counted semaphore
    have tallied := tally_update (fun execution : Execution S M => execution.inFlight semaphore)
      state.executions task execution
    rw [executions]
    omega
  owned mutex := by
    have before := accounted.owned mutex
    have changes := owned mutex
    have tallied := tally_update (fun execution : Execution S M => execution.held mutex)
      state.executions task execution
    rw [executions]
    omega

/-! ## The moves that leave the semaphores alone -/

section

variable [Fintype Task]

theorem Accounted.become (accounted : Accounted sizes state) (follows : Follows sizes execution)
    (flight : ∀ semaphore,
      execution.inFlight semaphore = (state.executions task).inFlight semaphore)
    (keeps : ∀ mutex, execution.held mutex = (state.executions task).held mutex) :
    Accounted sizes (state.become task execution) := by
  apply Accounted.changed accounted
  · rfl
  · exact accounted.bounded
  · exact follows
  · intro semaphore
    rw [flight semaphore]
    rfl
  · intro mutex
    rw [keeps mutex]
    rfl

/-- `await_resume` of the awaiter turns the permit that is on its way into an obtained one. -/
theorem Accounted.obtain {semaphore : S ⊕ M} (accounted : Accounted sizes state)
    (follows : Follows sizes execution)
    (flight : ∀ other, execution.inFlight other + (if semaphore = other then 1 else 0) =
      (state.executions task).inFlight other)
    (keeps : ∀ mutex, execution.held mutex =
      (state.executions task).held mutex + (if semaphore = .inr mutex then 1 else 0)) :
    Accounted sizes ((state.become task execution).obtain semaphore) := by
  have obtains (other : S ⊕ M) :
      ((state.become task execution).obtain semaphore).obtained other =
        state.obtained other + (if semaphore = other then 1 else 0) := by
    by_cases same : semaphore = other
    · subst same
      simp [State.obtain, State.become]
    · simp [State.obtain, State.become, same, Function.update_of_ne (Ne.symm same)]
  apply Accounted.changed accounted
  · rfl
  · exact accounted.bounded
  · exact follows
  · intro other
    rw [obtains other, ← flight other]
    simp only [State.obtain, State.become]
    omega
  · intro mutex
    rw [obtains (.inr mutex), keeps mutex]
    simp only [State.obtain, State.become]
    omega

theorem Accounted.cleanup (accounted : Accounted sizes state)
    (calm : (state.executions task).phase.call = none)
    (resumed : (state.executions task).awaited.isAcquired = false) :
    Accounted sizes (state.cleanup task) := by
  apply accounted.become
  · apply Follows.of_calling rfl
    · intro semaphore pc calling
      contradiction
    · simp
  · intro semaphore
    cases awaited : (state.executions task).awaited with
    | acquired awaiter =>
        rw [awaited] at resumed
        contradiction
    | _ => simp [Execution.inFlight, awaited]
  · intro mutex
    have before : (state.executions task).phase.releasing mutex = 0 := by
      simp [Phase.releasing, calm]
    rw [Execution.held, Execution.held, before]
    rfl

omit [DecidableEq S] [Fintype Task] in
/-- The destructor of a guard of one mutex. -/
theorem releasing_start {mutex other : M} :
    (Phase.cleaning (S := S) (some (.inr mutex, start (.release 1)))).releasing other =
      if mutex = other then 1 else 0 := rfl

theorem Accounted.destroy (accounted : Accounted sizes state)
    (cleaning : (state.executions task).phase = .cleaning none) :
    Accounted sizes (state.destroy task) := by
  have follows := accounted.follows task
  have idle := follows.torn none cleaning
  have before (mutex : M) : (state.executions task).phase.releasing mutex = 0 := by
    simp [Phase.releasing, Phase.call, cleaning]
  rw [State.destroy]
  cases guards : (state.executions task).guards with
  | cons mutex rest =>
      apply accounted.become
      · apply Follows.of_calling
        · exact idle
        · intro semaphore pc calling
          cases calling
          exact ⟨start_carried, fun _ _ => .inr start_within⟩
        · simp
      · intro semaphore
        rfl
      · intro other
        rw [Execution.held, Execution.held, before, guards, releasing_start]
        simp only [List.count_cons, beq_iff_eq]
        omega
  | nil =>
      cases callers : (state.executions task).callers with
      | cons caller rest =>
          apply accounted.become
          · apply Follows.of_calling
            · exact idle
            · intro semaphore pc calling
              rw [cleaning] at calling
              contradiction
            · simp [cleaning]
          · intro semaphore
            rfl
          · intro mutex
            simp only [Execution.held, guards, callers, List.map_cons, List.sum_cons,
              List.count_nil]
            omega
      | nil =>
          apply accounted.become
          · exact
              { calls := fun _ _ calling => by contradiction
                awaits := fun awaiter pc awaiting => by
                  rw [idle] at awaiting
                  contradiction
                torn := fun _ _ => idle
                finished := fun _ => ⟨rfl, rfl, idle⟩ }
          · intro semaphore
            rfl
          · intro mutex
            rw [Execution.held, Execution.held, before, guards, callers]
            rfl

theorem Accounted.resume (accounted : Accounted sizes state)
    (parked : (state.executions task).phase = .parked) :
    Accounted sizes (state.resume task) := by
  have follows := accounted.follows task
  have before (mutex : M) : (state.executions task).phase.releasing mutex = 0 := by
    simp [Phase.releasing, Phase.call, parked]
  rw [State.resume]
  cases awaited : (state.executions task).awaited with
  | nothing =>
      apply accounted.become
      · apply Follows.of_quiet <;> simp [Phase.call]
      · intro semaphore
        simp [Execution.inFlight, awaited]
      · intro mutex
        rw [Execution.held, Execution.held, before]
        rfl
  | acquire awaiter pc =>
      apply accounted.become
      · exact
          { calls := fun _ _ calling => by contradiction
            awaits := fun other place awaiting => follows.awaits other place
              (awaited.trans awaiting)
            torn := fun _ cleaning => by contradiction
            finished := fun ended => by contradiction }
      · intro semaphore
        simp [Execution.inFlight, awaited]
      · intro mutex
        rw [Execution.held, Execution.held, before]
        rfl
  | lock mutex =>
      apply accounted.become
      · exact
          { calls := fun _ _ calling => by contradiction
            awaits := fun other place awaiting => by
              cases awaiting
              exact ⟨start_carried, start_within⟩
            torn := fun _ cleaning => by contradiction
            finished := fun ended => by contradiction }
      · intro semaphore
        simp [Execution.inFlight, awaited]
      · intro other
        rw [Execution.held, Execution.held, before]
        rfl
  | acquired awaiter =>
      cases awaiter with
      | code semaphore =>
          apply accounted.obtain
          · apply Follows.of_quiet <;> simp [Phase.call]
          · intro other
            rw [Execution.inFlight, Execution.inFlight, awaited]
            exact Nat.zero_add _
          · intro mutex
            rw [Execution.held, Execution.held, before]
            rfl
      | lock mutex =>
          apply accounted.obtain
          · apply Follows.of_quiet <;> simp [Phase.call]
          · intro other
            rw [Execution.inFlight, Execution.inFlight, awaited]
            exact Nat.zero_add _
          · intro other
            rw [Execution.held, Execution.held, before]
            simp only [Phase.releasing, Phase.call, List.count_cons, beq_iff_eq,
              Sum.inr.injEq]
            omega

/-- A call of a coroutine of the task begins. -/
theorem Accounted.begin (accounted : Accounted sizes state) {semaphore : S ⊕ M} {call : Call}
    {guards : List M} (idle : (state.executions task).awaited = .nothing)
    (calm : (state.executions task).phase.call = none)
    (within : ∀ mutex, semaphore = .inr mutex → call = .tryAcquire ∨ call = .release 1)
    (keeps : ∀ mutex, guards.count mutex +
        (if semaphore = .inr mutex then releases call else 0) =
      (state.executions task).guards.count mutex) :
    Accounted sizes (state.become task
      { state.executions task with
        guards, phase := .resumed (some (semaphore, start call)) }) := by
  apply accounted.become
  · apply Follows.of_calling
    · exact idle
    · intro other pc calling
      cases calling
      refine ⟨start_carried, fun mutex same => ?_⟩
      rcases within mutex same with rfl | rfl
      · exact .inl start_within
      · exact .inr start_within
    · simp
  · intro other
    rfl
  · intro mutex
    have before : (state.executions task).phase.releasing mutex = 0 := by
      simp [Phase.releasing, calm]
    have after : (Phase.resumed (some (semaphore, start call))).releasing mutex =
        if semaphore = .inr mutex then releases call else 0 := by
      cases semaphore with
      | inl semaphore => simp [Phase.releasing, Phase.call]
      | inr other => simp [Phase.releasing, Phase.call, releasing_eq start_within]
    have kept := keeps mutex
    rw [Execution.held, Execution.held, before, after]
    show guards.count mutex + ((state.executions task).callers.map (List.count mutex)).sum + _ = _
    omega

/-- The coroutine suspends. -/
theorem Accounted.suspend (accounted : Accounted sizes state) {guards : List M}
    {callers : List (List M)} {awaited : Awaited S M}
    (idle : (state.executions task).awaited = .nothing)
    (calm : (state.executions task).phase.call = none)
    (awaits : ∀ awaiter pc, awaited = .acquire awaiter pc →
      Carried (size sizes awaiter.semaphore).limit pc ∧ Within .acquire pc)
    (waits : awaited.isAcquired = false)
    (keeps : ∀ mutex, guards.count mutex + (callers.map (List.count mutex)).sum =
      (state.executions task).guards.count mutex +
        ((state.executions task).callers.map (List.count mutex)).sum) :
    Accounted sizes (state.become task
      { state.executions task with guards, callers, awaited, phase := .returned }) := by
  apply accounted.become
  · exact
      { calls := fun _ _ calling => by contradiction
        awaits := awaits
        torn := fun _ cleaning => by contradiction
        finished := fun ended => by contradiction }
  · intro semaphore
    cases awaited with
    | acquired awaiter => contradiction
    | _ => simp [Execution.inFlight, idle]
  · intro mutex
    have before : (state.executions task).phase.releasing mutex = 0 := by
      simp [Phase.releasing, calm]
    rw [Execution.held, Execution.held, before, ← keeps mutex]
    rfl

theorem Accounted.code (accounted : Accounted sizes state) {operation : Operation S M}
    (resumed : (state.executions task).phase = .resumed none)
    (idle : (state.executions task).awaited = .nothing)
    (moved : state.code task operation = some next) : Accounted sizes next := by
  have calm : (state.executions task).phase.call = none := by rw [resumed]; rfl
  cases operation with
  | tryAcquire semaphore | release semaphore n =>
      cases moved
      apply accounted.begin idle calm
      · intro mutex same
        contradiction
      · intro mutex
        simp
  | tryLock mutex =>
      cases moved
      apply accounted.begin idle calm
      · intro other same
        exact .inl rfl
      · intro other
        simp [releases]
  | unlock mutex =>
      obtain ⟨member, ⟨⟩⟩ := Option.ite_none_right_eq_some.mp moved
      apply accounted.begin idle calm
      · intro other same
        exact .inr rfl
      · intro other
        have counted : ((state.executions task).guards.erase mutex).count other =
            (state.executions task).guards.count other - if mutex == other then 1 else 0 :=
          List.count_erase
        have there : 0 < (state.executions task).guards.count mutex := List.count_pos_iff.mpr member
        by_cases same : mutex = other
        · subst same
          simp only [beq_self_eq_true, if_true] at counted
          simp only [if_true, releases]
          omega
        · simpa [same] using counted
  | acquire semaphore =>
      cases moved
      apply accounted.suspend idle calm
      · intro awaiter pc same
        cases same
        exact ⟨start_carried, start_within⟩
      · rfl
      · intro mutex
        rfl
  | lock mutex =>
      cases moved
      apply accounted.suspend idle calm
      · intro awaiter pc same
        contradiction
      · rfl
      · intro other
        rfl
  | await =>
      cases moved
      apply accounted.suspend idle calm
      · intro awaiter pc same
        rw [idle] at same
        contradiction
      · rw [idle]
        rfl
      · intro mutex
        simp
  | yield =>
      cases moved
      apply accounted.suspend idle calm
      · intro awaiter pc same
        rw [idle] at same
        contradiction
      · rw [idle]
        rfl
      · intro mutex
        rfl
  | ret =>
      simp only [State.code] at moved
      cases callers : (state.executions task).callers with
      | cons caller rest =>
          rw [callers] at moved
          cases moved
          apply accounted.suspend idle calm
          · intro awaiter pc same
            rw [idle] at same
            contradiction
          · rw [idle]
            rfl
          · intro mutex
            rw [callers, List.count_append, List.map_cons, List.sum_cons]
            omega
      | nil =>
          rw [callers] at moved
          obtain ⟨emptied, ⟨⟩⟩ := Option.ite_none_right_eq_some.mp moved
          apply accounted.become
          · exact
              { calls := fun _ _ calling => by contradiction
                awaits := fun awaiter pc awaiting => by
                  rw [idle] at awaiting
                  contradiction
                torn := fun _ _ => idle
                finished := fun _ => ⟨emptied, rfl, idle⟩ }
          · intro semaphore
            rfl
          · intro mutex
            rw [Execution.held, Execution.held, resumed, callers]
            rfl

/-! ## The steps of the semaphores -/

omit [DecidableEq Task] in
theorem Accounted.bounded_update (accounted : Accounted sizes state) {semaphore : S ⊕ M}
    {after : Semaphore Task} (bounded : after.count ≤ (size sizes semaphore).limit.toNat)
    (other : S ⊕ M) :
    (Function.update state.semaphores semaphore after other).count ≤
      (size sizes other).limit.toNat := by
  by_cases same : other = semaphore
  · subst same
    simpa using bounded
  · simpa [same] using accounted.bounded other

omit [DecidableEq Task] [DecidableEq S] [Fintype Task] in
theorem keep_count {mutex other : M} {answer : Option Outcome} :
    (execution.keep (.inr mutex) answer).guards.count other =
      execution.guards.count other + (if mutex = other then taken answer else 0) := by
  cases answer with
  | none => simp [Execution.keep, taken]
  | some outcome =>
      cases outcome with
      | acquired => simp only [Execution.keep, taken, List.count_cons, beq_iff_eq]
      | _ => simp [Execution.keep, taken]

omit [DecidableEq Task] [DecidableEq S] [DecidableEq M] [Fintype Task] in
@[simp] theorem keep_callers {semaphore : S ⊕ M} {answer : Option Outcome} :
    (execution.keep semaphore answer).callers = execution.callers := by
  unfold Execution.keep
  split <;> rfl

omit [DecidableEq Task] [DecidableEq S] [DecidableEq M] [Fintype Task] in
@[simp] theorem keep_awaited {semaphore : S ⊕ M} {answer : Option Outcome} :
    (execution.keep semaphore answer).awaited = execution.awaited := by
  unfold Execution.keep
  split <;> rfl

omit [DecidableEq Task] in
/-- A guard of a mutex that is being destroyed has the permit. -/
theorem Accounted.locked (accounted : Accounted sizes state) {mutex : M}
    (calling : (state.executions task).phase.call = some (.inr mutex, pc))
    (within : Within (.release 1) pc) : (state.semaphores (.inr mutex)).count = 0 := by
  have counted := accounted.counted (.inr mutex)
  have owned := accounted.owned mutex
  have one : initial sizes (.inr mutex : S ⊕ M) = 1 := rfl
  have holds : 1 ≤ (state.executions task).held mutex := by
    have releasing : (state.executions task).phase.releasing mutex = 1 := by
      simp [Phase.releasing, calling, releasing_eq within, releases]
    rw [Execution.held, releasing]
    exact Nat.le_add_left _ _
  have tallied : (state.executions task).held mutex ≤
      tally (fun execution : Execution S M => execution.held mutex) state.executions :=
    @weight_le_tally Task (Execution S M) _ (fun execution => execution.held mutex) _ task
  omega

omit [Fintype Task] in
/-- A call on a mutex answers when it ends, and a destructor gives one permit back. -/
theorem releasing_step {before after : Semaphore Task} {finish : Pc} {spurious : Bool}
    (within : Within .tryAcquire pc ∨ Within (.release 1) pc)
    (locked : Within (.release 1) pc → before.count = 0)
    (resumed : Semaphore.resume 1 task before spurious pc = some (after, finish)) :
    Mutex.releasing finish + given (outcome 1 before spurious pc) = Mutex.releasing pc := by
  have answers := outcome_isSome resumed
  rcases within with trying | releasing
  · have nothing : given (outcome 1 before spurious pc) = 0 := by
      rcases Mutex.tryAcquire_outcome trying with answer | answer | answer <;>
        rw [answer] <;> rfl
    rw [nothing, releasing_eq trying]
    rcases Mutex.resume_within trying resumed with rfl | still
    · rfl
    · rw [releasing_eq still, Nat.add_zero]
  · rw [releasing_eq releasing]
    rcases Mutex.release_outcome releasing (locked releasing) with answer | answer
    · rw [answer] at answers ⊢
      rcases Mutex.resume_within releasing resumed with rfl | still
      · simp at answers
      · rw [releasing_eq still]
        rfl
    · rw [answer] at answers ⊢
      rw [answers.mp rfl]
      rfl

theorem Accounted.call (accounted : Accounted sizes state) {semaphore : S ⊕ M}
    {phase : Option ((S ⊕ M) × Pc) → Phase S M} {spurious : Bool}
    (wraps : phase = .resumed ∨ phase = .cleaning)
    (standing : (state.executions task).phase = phase (some (semaphore, pc)))
    (moved : state.call sizes task spurious phase semaphore pc = some next) :
    Accounted sizes next := by
  have inner (call : Option ((S ⊕ M) × Pc)) : (phase call).call = call := by
    rcases wraps with rfl | rfl <;> rfl
  have calling : (state.executions task).phase.call = some (semaphore, pc) := by
    rw [standing, inner]
  obtain ⟨place, idle⟩ := (accounted.follows task).calls semaphore pc calling
  obtain ⟨⟨after, finish⟩, resumed, rfl⟩ := Option.map_eq_some_iff.mp moved
  have balanced := resume_balanced place.carried resumed
  have bounds := resume_bounded (accounted.bounded semaphore) place.carried resumed
  apply Accounted.changed accounted
  · rfl
  · exact accounted.bounded_update bounds.1
  · apply Follows.of_calling
    · simpa using idle
    · intro other still calls
      simp only [inner] at calls
      obtain ⟨_, ⟨⟩⟩ := Option.ite_none_left_eq_some.mp calls
      rename_i busy
      refine ⟨bounds.2, fun mutex same => ?_⟩
      rcases place.within mutex same with trying | releasing
      · subst same
        exact .inl ((Mutex.resume_within trying resumed).resolve_left busy)
      · subst same
        exact .inr ((Mutex.resume_within releasing resumed).resolve_left busy)
    · rcases wraps with rfl | rfl <;> simp
  · intro other
    have before : (state.executions task).inFlight other = 0 := by
      simp [Execution.inFlight, idle]
    have still : Execution.inFlight
        { (state.executions task).keep semaphore
            (outcome (size sizes semaphore).limit (state.semaphores semaphore) spurious pc) with
          phase := phase (if finish = .idle then none else some (semaphore, finish)) }
        other = 0 := by
      simp [Execution.inFlight, idle]
    rw [before, still]
    by_cases same : other = semaphore
    · subst same
      simp only [Function.update_self]
      omega
    · simp only [Function.update_of_ne same]
  · intro mutex
    cases semaphore with
    | inl semaphore =>
        have before : (state.executions task).phase.releasing mutex = 0 := by
          simp [Phase.releasing, calling]
        have after : (phase (if finish = .idle then none
            else some (.inl semaphore, finish))).releasing mutex = 0 := by
          rw [Phase.releasing, inner]
          by_cases ended : finish = .idle
          · rw [if_pos ended]
          · rw [if_neg ended]
        rw [Execution.held, Execution.held, before]
        simp only [keep_callers, after]
        rfl
    | inr other =>
        have before : (state.executions task).phase.releasing mutex =
            if other = mutex then Mutex.releasing pc else 0 := by
          simp [Phase.releasing, calling]
        have after : (phase (if finish = .idle then none
            else some (.inr other, finish))).releasing mutex =
              if other = mutex then Mutex.releasing finish else 0 := by
          rw [Phase.releasing, inner]
          by_cases ended : finish = .idle
          · subst ended
            simp [Mutex.releasing]
          · rw [if_neg ended]
        have gives := releasing_step (place.within other rfl) (accounted.locked calling) resumed
        rw [Execution.held, Execution.held, before]
        simp only [keep_callers, keep_count, after]
        by_cases same : mutex = other
        · subst same
          simp only [Function.update_self, if_true]
          have limit : (size sizes (.inr mutex : S ⊕ M)).limit = 1 := rfl
          rw [limit]
          omega
        · have different : (Sum.inr mutex : S ⊕ M) ≠ .inr other := by simpa using same
          simp only [Function.update_of_ne different, if_neg (Ne.symm same)]
          omega

theorem Accounted.acquire (accounted : Accounted sizes state) {awaiter : Awaiter S M}
    {spurious : Bool} (running : (state.executions task).phase = .resumed none)
    (awaiting : (state.executions task).awaited = .acquire awaiter pc)
    (moved : state.acquire sizes task spurious awaiter pc = some next) :
    Accounted sizes next := by
  obtain ⟨carried, within⟩ := (accounted.follows task).awaits awaiter pc awaiting
  obtain ⟨⟨after, finish⟩, resumed, rfl⟩ := Option.map_eq_some_iff.mp moved
  have balanced := resume_balanced carried resumed
  have answers := outcome_isSome resumed
  have bounds := resume_bounded (accounted.bounded awaiter.semaphore) carried resumed
  have inside := Mutex.resume_within within resumed
  have takes : after.count + (if finish = .idle then 1 else 0) =
      (state.semaphores awaiter.semaphore).count := by
    have outcomes (N : UInt64) :
        outcome N (state.semaphores awaiter.semaphore) spurious pc = none ∨
          outcome N (state.semaphores awaiter.semaphore) spurious pc = some .acquired :=
      Mutex.acquire_outcome within
    rcases outcomes _ with answer | answer
    · rw [answer] at answers balanced
      have busy : finish ≠ .idle := fun idle => by simp [idle] at answers
      rw [if_neg busy]
      exact balanced
    · rw [answer] at answers balanced
      rw [if_pos (answers.mp rfl)]
      exact balanced
  have calm (mutex : M) : (Phase.releasing (S := S)
      (if suspends pc finish then .returned else .resumed none)) mutex = 0 := by
    split <;> rfl
  apply Accounted.changed accounted
  · rfl
  · exact accounted.bounded_update bounds.1
  · exact
      { calls := fun _ _ calling => by
          simp only at calling
          split at calling <;> contradiction
        awaits := fun other place still => by
          simp only at still
          split at still <;> cases still
          rename_i busy
          exact ⟨bounds.2, inside.resolve_left busy⟩
        torn := fun _ cleaning => by
          simp only at cleaning
          split at cleaning <;> contradiction
        finished := fun ended => by
          simp only at ended
          split at ended <;> contradiction }
  · intro other
    have before : (state.executions task).inFlight other = 0 := by
      simp [Execution.inFlight, awaiting]
    rw [before]
    by_cases ended : finish = .idle
    · rw [if_pos ended] at takes
      simp only [Execution.inFlight, if_pos ended]
      by_cases same : other = awaiter.semaphore
      · subst same
        simp only [Function.update_self, if_true]
        omega
      · simp only [Function.update_of_ne same, if_neg (Ne.symm same)]
    · rw [if_neg ended] at takes
      simp only [Execution.inFlight, if_neg ended]
      by_cases same : other = awaiter.semaphore
      · subst same
        simp only [Function.update_self]
        omega
      · simp only [Function.update_of_ne same]
  · intro mutex
    have before : (state.executions task).phase.releasing mutex = 0 := by rw [running]; rfl
    rw [Execution.held, Execution.held, before, calm]

theorem Accounted.move (accounted : Accounted sizes state) {label : Task × Action S M}
    (allowed : ResumesAwaiter state label) (moved : state.move sizes label = some next) :
    Accounted sizes next := by
  obtain ⟨task, action⟩ := label
  cases action with
  | request =>
      cases moved
      have follows := accounted.follows task
      apply accounted.become
      · exact ⟨follows.calls, follows.awaits, follows.torn, follows.finished⟩
      · intro semaphore
        rfl
      · intro mutex
        rfl
  | execute =>
      cases standing : (state.executions task).phase with
      | parked =>
          simp only [State.move, standing, State.execute] at moved
          split at moved
          · rename_i requested
            cases moved
            apply accounted.cleanup
            · rw [standing]
              rfl
            · exact allowed rfl requested
          · split at moved <;> cases moved
            exact accounted.resume standing
      | _ => simp [State.move, standing] at moved
  | check =>
      cases standing : (state.executions task).phase with
      | returned =>
          simp only [State.move, standing, State.check] at moved
          split at moved
          · rename_i requested
            cases moved
            apply accounted.cleanup
            · rw [standing]
              rfl
            · exact allowed rfl requested
          · cases moved
            have follows := accounted.follows task
            apply accounted.become
            · exact
                { calls := fun _ _ calling => by contradiction
                  awaits := follows.awaits
                  torn := fun _ cleaning => by contradiction
                  finished := fun ended => by contradiction }
            · intro semaphore
              rfl
            · intro mutex
              rw [Execution.held, Execution.held, standing]
              rfl
      | _ => simp [State.move, standing] at moved
  | code operation =>
      cases standing : (state.executions task).phase with
      | resumed call =>
          cases idle : (state.executions task).awaited with
          | nothing =>
              cases call with
              | none =>
                  simp only [State.move, standing, idle] at moved
                  exact accounted.code standing idle moved
              | some call => simp [State.move, standing] at moved
          | _ => simp [State.move, standing, idle] at moved
      | _ => simp [State.move, standing] at moved
  | step spurious =>
      cases standing : (state.executions task).phase with
      | resumed call =>
          cases call with
          | some call =>
              simp only [State.move, State.step, standing] at moved
              exact accounted.call (.inl rfl) standing moved
          | none =>
              cases awaiting : (state.executions task).awaited with
              | acquire awaiter pc =>
                  simp only [State.move, State.step, standing, awaiting] at moved
                  exact accounted.acquire standing awaiting moved
              | _ => simp [State.move, State.step, standing, awaiting] at moved
      | cleaning call =>
          cases call with
          | some call =>
              simp only [State.move, State.step, standing] at moved
              exact accounted.call (.inr rfl) standing moved
          | none =>
              simp only [State.move, State.step, standing] at moved
              cases moved
              exact accounted.destroy standing
      | _ => simp [State.move, State.step, standing] at moved

theorem reachable_accounted
    (reachable : (machine sizes Task M).Reachable ResumesAwaiter state) :
    Accounted sizes state := by
  apply reachable.invariant
  · intro first started
    cases started
    exact
      { bounded := fun _ => Nat.min_le_left _ _
        follows := fun _ => by apply Follows.of_quiet <;> simp [fresh, Phase.call]
        counted := fun semaphore => by
          have none : tally (fun execution : Execution S M => execution.inFlight semaphore)
              (fresh sizes Task M).executions = 0 := tally_eq_zero.mpr fun _ => rfl
          rw [none]
          rfl
        owned := fun mutex => by
          have none : tally (fun execution : Execution S M => execution.held mutex)
              (fresh sizes Task M).executions = 0 := tally_eq_zero.mpr fun _ => rfl
          rw [none]
          rfl }
  · intro state label next accounted allowed moved
    exact accounted.move allowed moved

theorem unconsumed_of_resumesAwaiter
    (reachable : (machine sizes Task M).Reachable ResumesAwaiter state) :
    Unconsumed sizes state := by
  have accounted := reachable_accounted reachable
  have restored (semaphore : S ⊕ M)
      (landed : ∀ task, (state.executions task).inFlight semaphore = 0)
      (returned : state.obtained semaphore = state.given semaphore) :
      (state.semaphores semaphore).count = initial sizes semaphore := by
    have counted := accounted.counted semaphore
    rw [tally_eq_zero.mpr landed] at counted
    omega
  refine ⟨accounted.counted, restored, fun mutex clear => ?_⟩
  have empty (task : Task) : (state.executions task).inFlight (.inr mutex) = 0 ∧
      (state.executions task).held mutex = 0 := by
    rcases clear task with finished | empty
    · obtain ⟨guards, callers, idle⟩ := (accounted.follows task).finished finished
      simp [Execution.inFlight, Execution.held, Phase.releasing, Phase.call, guards, callers,
        idle, finished]
    · exact empty
  have owned := accounted.owned mutex
  rw [tally_eq_zero.mpr fun task => (empty task).2] at owned
  exact restored (.inr mutex) (fun task => (empty task).1) owned

end

/-! ## Two tasks and a mutex -/

/-- No semaphore beside the mutexes. -/
def mutexesOnly : Fin 0 → Size := Fin.elim0

/-- A task awaits `lock()` until `acquire` is on its stack and has not run. -/
def locks (task : Fin 2) : List (Fin 2 × Action (Fin 0) (Fin 1)) :=
  [(task, .execute), (task, .code (.lock 0)), (task, .check), (task, .execute)]

/-- `acquire` takes the permit at once and returns. -/
def acquires : List (Fin 2 × Action (Fin 0) (Fin 1)) :=
  [(0, .check), (0, .execute), (0, .step false), (0, .step false)]

/-- One task gets the guard, the other is torn down inside `acquire`; then the first one is,
and its guard gives the permit back. -/
theorem unconsumed_of_resumesAwaiter_guarded :
    ∃ state : State (Fin 2) (Fin 0) (Fin 1),
      (machine mutexesOnly (Fin 2) (Fin 1)).Reachable ResumesAwaiter state ∧
        ((∀ task, (state.executions task).phase = .finished) ∧ state.obtained (.inr 0) = 1 ∧
          (state.semaphores (.inr 0)).count = 1) ∧ Unconsumed mutexesOnly state := by
  obtain ⟨state, reachable, finished⟩ :=
    Machine.reachable_of_any (machine mutexesOnly (Fin 2) (Fin 1)) ResumesAwaiter
      (fresh mutexesOnly (Fin 2) (Fin 1))
      (List.flatten
        [locks 0, acquires, [(0, .check), (0, .execute)],
          locks 1, [(1, .request), (1, .check), (1, .step false)],
          [(0, .request), (0, .check)], List.replicate 5 (0, .step false)])
      (fun state => (∀ task, (state.executions task).phase = .finished) ∧
        state.obtained (.inr 0) = 1 ∧ (state.semaphores (.inr 0)).count = 1)
      rfl (by decide +kernel)
  exact ⟨state, reachable, finished, unconsumed_of_resumesAwaiter reachable⟩

/-- The cancellation is found after `acquire` has returned and before `lock` has made a guard
of the permit: the task is gone and the mutex stays locked. -/
theorem cancelled_lock_keeps_permit :
    ∃ state : State (Fin 2) (Fin 0) (Fin 1),
      (machine mutexesOnly (Fin 2) (Fin 1)).Reachable Machine.free state ∧
        ¬ Unconsumed mutexesOnly state := by
  obtain ⟨state, reachable, clear, locked⟩ :=
    Machine.reachable_of_any (machine mutexesOnly (Fin 2) (Fin 1)) Machine.free
      (fresh mutexesOnly (Fin 2) (Fin 1))
      (List.flatten
        [locks 0, acquires, [(0, .request), (0, .check), (0, .step false)],
          locks 1, [(1, .request), (1, .check), (1, .step false)]])
      (fun state => (∀ task, (state.executions task).phase = .finished) ∧
        (state.semaphores (.inr 0)).count = 0)
      rfl (by decide +kernel)
  refine ⟨state, reachable, fun unconsumed => ?_⟩
  have unlocked := unconsumed.unlocked 0 fun task => .inl (clear task)
  omega

end Asco.Sync.Semaphore.Cleanup
