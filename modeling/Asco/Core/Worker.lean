import Asco.Core.Task.DynprioScheduler

namespace Asco.Core.Worker

open Foundation Asco.Core.Task.DynprioScheduler

/-! # `worker`

One worker with its root domain and the threads that wake its executions, over
the whole life of the executions: they are attached, scheduled, suspended, woken
and detached, and their ids are used again.  The steps inside `suspend_current`,
`end` and `awake_execution` are those of `dynprio_scheduler`.
-/

/-- Where the worker stands; inside `executing` the execution is the current one
of the scheduler, and `completing` says that it is not scheduled again. -/
inductive Place (Id : Type*) where
  | idle
  | attachContext (id : Id)
  | attachPush (id : Id)
  | executing (pc : WorkerPc) (completing : Bool)
  | detachRemove
  | detachContext
  | detachDomain
deriving DecidableEq

/-- `attached` are the executions of the domain.  `waits` holds the one-shot wait
that an execution has registered, with whether an awake has been issued for it,
and `returned` the waits that have returned. -/
structure State (Thread Id : Type*) where
  scheduler : Scheduler Id
  attached : Finset Id
  cancelled : Finset Id
  place : Place Id
  awakers : Thread → AwakePc Id
  waits : Id → Option Bool
  returned : List (Id × Bool)

/-- `register` hands out a token for a one-shot wait, `leave` gives the worker
back, and `awake` is a call of `awake_execution`, `own` if it is for the wait the
execution has registered. -/
inductive Label (Thread Id : Type*) where
  | worker (execTime : UInt64)
  | attach (id : Id)
  | schedule (entry : PrioritiedExecution Id)
  | register
  | suspend
  | leave (completed : Bool)
  | requestCancel (id : Id)
  | awake (thread : Thread) (id : Id) (own : Bool)
  | awaker (thread : Thread)

variable {Thread Id : Type*} [DecidableEq Thread] [DecidableEq Id]

namespace State

def current (state : State Thread Id) : Id := state.scheduler.current.id

/-- `schedule()` and the start of `execute`: a cancelled execution is cleaned up,
any other is resumed, which ends the wait it is in. -/
def schedule (state : State Thread Id) (entry : PrioritiedExecution Id) : State Thread Id :=
  let scheduler :=
    { state.scheduler with
      current := entry
      active := state.scheduler.active.erase entry
      domain := Function.update state.scheduler.domain entry.id .running }
  let waits := Function.update state.waits entry.id none
  if entry.id ∈ state.cancelled then
    { state with scheduler, waits, place := .executing (.endFlag true) true }
  else
    { state with
      scheduler, waits, place := .executing .running false,
      returned := match state.waits entry.id with
        | none => state.returned
        | some issued => (entry.id, issued) :: state.returned }

/-- The next step of the worker where it has no choice. -/
def workerStep (state : State Thread Id) (execTime : UInt64) : Option (State Thread Id) :=
  match state.place with
  | .idle => none
  | .attachContext id =>
      -- the assertion of `attach_execution`
      if id ∈ state.scheduler.contexts then none
      else
        some { state with
          scheduler := { state.scheduler with contexts := insert id state.scheduler.contexts }
          place := .attachPush id }
  | .attachPush id =>
      some { state with
        scheduler :=
          { state.scheduler with active := { id, priority := 0 } :: state.scheduler.active }
        place := .idle }
  | .executing .running _ | .executing .returned _ => none
  | .executing .ended completing =>
      some { state with place := if completing then .detachRemove else .idle }
  | .executing pc completing =>
      (state.scheduler.workerStep execTime pc).map fun next =>
        { state with scheduler := next.1, place := .executing next.2 completing }
  | .detachRemove =>
      if state.current ∈ state.scheduler.suspended then
        some { state with
          scheduler :=
            { state.scheduler with suspended := state.scheduler.suspended.erase state.current }
          place := .detachContext }
      else some { state with place := .detachDomain }
  | .detachContext =>
      some { state with
        scheduler :=
          { state.scheduler with contexts := state.scheduler.contexts.erase state.current }
        place := .detachDomain }
  | .detachDomain =>
      some { state with attached := state.attached.erase state.current, place := .idle }

/-- An execution gives the worker back: it yields, or it is done.  A registered
wait suspends before it yields, and is abandoned only by a cancelled execution. -/
def leave (state : State Thread Id) (completed : Bool) : Option (State Thread Id) :=
  match state.place with
  | .executing .running _ | .executing .returned _ =>
      if completed then
        if state.waits state.current = none ∨ state.current ∈ state.cancelled then
          some { state with
            waits := Function.update state.waits state.current none
            place := .executing (.endFlag true) true }
        else none
      else
        if state.place = .executing .running false ∧ state.waits state.current ≠ none then none
        else some { state with place := .executing (.endFlag false) false }
  | _ => none

/-- The assertion of `activate_execution` does not fail. -/
def asserts (state : State Thread Id) : AwakePc Id → Bool
  | .activate id => id ∈ state.attached
  | _ => true

def move (state : State Thread Id) : Label Thread Id → Option (State Thread Id)
  | .worker execTime => state.workerStep execTime
  | .attach id =>
      if state.place = .idle ∧ id ∉ state.attached then
        some { state with
          attached := insert id state.attached
          cancelled := state.cancelled.erase id
          waits := Function.update state.waits id none
          place := .attachContext id }
      else none
  | .schedule entry =>
      if state.place = .idle ∧ entry ∈ state.scheduler.active ∧
          (∀ other ∈ state.scheduler.active, entry.priority ≤ other.priority) ∧
          entry.id ∈ state.scheduler.contexts ∧ entry.id ∈ state.attached then
        some (state.schedule entry)
      else none
  | .register =>
      if state.place = .executing .running false ∧ state.waits state.current = none then
        some { state with waits := Function.update state.waits state.current (some false) }
      else none
  | .suspend =>
      if state.place = .executing .running false then
        some { state with place := .executing .suspendContains false }
      else none
  | .leave completed => state.leave completed
  | .requestCancel id => some { state with cancelled := insert id state.cancelled }
  | .awake thread id own =>
      if state.awakers thread = .outside ∧ (own = true → (state.waits id).isSome) then
        some { state with
          awakers := Function.update state.awakers thread (.contains id)
          waits := if own then Function.update state.waits id (some true) else state.waits }
      else none
  | .awaker thread =>
      if state.asserts (state.awakers thread) then
        (state.scheduler.awakeStep (state.awakers thread)).map fun next =>
          { state with
            scheduler := next.1, awakers := Function.update state.awakers thread next.2 }
      else none

section

omit [DecidableEq Thread]

variable (state : State Thread Id) (entry : PrioritiedExecution Id)

theorem schedule_place : (state.schedule entry).place =
    if entry.id ∈ state.cancelled then .executing (.endFlag true) true
    else .executing .running false := by
  unfold schedule
  split <;> rfl

@[simp] theorem schedule_current : (state.schedule entry).current = entry.id := by
  unfold schedule
  split <;> rfl

@[simp] theorem schedule_contexts :
    (state.schedule entry).scheduler.contexts = state.scheduler.contexts := by
  unfold schedule
  split <;> rfl

@[simp] theorem schedule_attached : (state.schedule entry).attached = state.attached := by
  unfold schedule
  split <;> rfl

@[simp] theorem schedule_cancelled : (state.schedule entry).cancelled = state.cancelled := by
  unfold schedule
  split <;> rfl

@[simp] theorem schedule_awakers : (state.schedule entry).awakers = state.awakers := by
  unfold schedule
  split <;> rfl

end

/-- The branches of `workerStep`. -/
inductive WorkerStep (state : State Thread Id) (execTime : UInt64) : State Thread Id → Prop where
  | attachContext {id : Id} (stands : state.place = .attachContext id)
      (fresh : id ∉ state.scheduler.contexts) :
      WorkerStep state execTime { state with
        scheduler := { state.scheduler with contexts := insert id state.scheduler.contexts }
        place := .attachPush id }
  | attachPush {id : Id} (stands : state.place = .attachPush id) :
      WorkerStep state execTime { state with
        scheduler :=
          { state.scheduler with active := { id, priority := 0 } :: state.scheduler.active }
        place := .idle }
  | ended {completing : Bool} (stands : state.place = .executing .ended completing) :
      WorkerStep state execTime
        { state with place := if completing then .detachRemove else .idle }
  | executes {pc finish : WorkerPc} {completing : Bool} {scheduler : Scheduler Id}
      (stands : state.place = .executing pc completing) (running : pc ≠ .running)
      (returned : pc ≠ .returned)
      (stepped : state.scheduler.workerStep execTime pc = some (scheduler, finish)) :
      WorkerStep state execTime { state with scheduler, place := .executing finish completing }
  | detachSuspended (stands : state.place = .detachRemove)
      (suspended : state.current ∈ state.scheduler.suspended) :
      WorkerStep state execTime { state with
        scheduler :=
          { state.scheduler with suspended := state.scheduler.suspended.erase state.current }
        place := .detachContext }
  | detachAwake (stands : state.place = .detachRemove)
      (awake : state.current ∉ state.scheduler.suspended) :
      WorkerStep state execTime { state with place := .detachDomain }
  | detachContext (stands : state.place = .detachContext) :
      WorkerStep state execTime { state with
        scheduler :=
          { state.scheduler with contexts := state.scheduler.contexts.erase state.current }
        place := .detachDomain }
  | detachDomain (stands : state.place = .detachDomain) :
      WorkerStep state execTime
        { state with attached := state.attached.erase state.current, place := .idle }

omit [DecidableEq Thread] in
theorem workerStep_cases {state after : State Thread Id} {execTime : UInt64}
    (stepped : state.workerStep execTime = some after) : WorkerStep state execTime after := by
  cases stands : state.place with
  | idle => simp [workerStep, stands] at stepped
  | attachContext id =>
      simp only [workerStep, stands] at stepped
      split at stepped <;> cases stepped
      exact .attachContext stands ‹_›
  | attachPush id =>
      simp only [workerStep, stands, Option.some.injEq] at stepped
      subst stepped
      exact .attachPush stands
  | executing pc completing =>
      cases pc with
      | running => simp [workerStep, stands] at stepped
      | returned => simp [workerStep, stands] at stepped
      | ended =>
          simp only [workerStep, stands, Option.some.injEq] at stepped
          subst stepped
          exact .ended stands
      | _ =>
          simp only [workerStep, stands, Option.map_eq_some_iff, Prod.exists] at stepped
          obtain ⟨scheduler, finish, stepped, rfl⟩ := stepped
          exact .executes stands (by simp) (by simp) stepped
  | detachRemove =>
      simp only [workerStep, stands] at stepped
      split at stepped <;> cases stepped
      · exact .detachSuspended stands ‹_›
      · exact .detachAwake stands ‹_›
  | detachContext =>
      simp only [workerStep, stands, Option.some.injEq] at stepped
      subst stepped
      exact .detachContext stands
  | detachDomain =>
      simp only [workerStep, stands, Option.some.injEq] at stepped
      subst stepped
      exact .detachDomain stands

/-- The branches of `leave`. -/
inductive Leaves (state : State Thread Id) : Bool → State Thread Id → Prop where
  | completes {pc : WorkerPc} {completing : Bool} (stands : state.place = .executing pc completing)
      (ready : pc = .running ∨ pc = .returned)
      (finished : state.waits state.current = none ∨ state.current ∈ state.cancelled) :
      Leaves state true { state with
        waits := Function.update state.waits state.current none
        place := .executing (.endFlag true) true }
  | yields {pc : WorkerPc} {completing : Bool} (stands : state.place = .executing pc completing)
      (ready : pc = .running ∨ pc = .returned)
      (waits : state.place = .executing .running false → state.waits state.current = none) :
      Leaves state false { state with place := .executing (.endFlag false) false }

omit [DecidableEq Thread] in
theorem leave_cases {state after : State Thread Id} {completed : Bool}
    (left : state.leave completed = some after) : Leaves state completed after := by
  cases completed with
  | true =>
      simp only [leave, if_true] at left
      split at left
      · obtain ⟨finished, ⟨⟩⟩ := Option.ite_none_right_eq_some.mp left
        exact .completes ‹_› (.inl rfl) finished
      · obtain ⟨finished, ⟨⟩⟩ := Option.ite_none_right_eq_some.mp left
        exact .completes ‹_› (.inr rfl) finished
      · contradiction
  | false =>
      simp only [leave, Bool.false_eq_true, if_false] at left
      split at left
      · obtain ⟨stays, ⟨⟩⟩ := Option.ite_none_left_eq_some.mp left
        exact .yields ‹_› (.inl rfl) fun fresh => not_not.mp fun waits => stays ⟨fresh, waits⟩
      · obtain ⟨stays, ⟨⟩⟩ := Option.ite_none_left_eq_some.mp left
        exact .yields ‹_› (.inr rfl) fun fresh => not_not.mp fun waits => stays ⟨fresh, waits⟩
      · contradiction

/-- A worker that has not run anything. -/
def Fresh (state : State Thread Id) : Prop :=
  state.scheduler.active = [] ∧ state.scheduler.suspended = ∅ ∧ state.scheduler.preawake = ∅ ∧
    state.scheduler.contexts = ∅ ∧ state.scheduler.currentSuspend = false ∧ state.attached = ∅ ∧
    state.place = .idle ∧ (∀ thread, state.awakers thread = .outside) ∧
    (∀ id, state.waits id = none) ∧ state.returned = []

end State

def machine (Thread Id : Type*) [DecidableEq Thread] [DecidableEq Id] :
    Machine (State Thread Id) (Label Thread Id) where
  start := State.Fresh
  move := State.move

/-- A worker that has not run anything, with the entry of no execution as its
current one. -/
def started (Thread : Type*) {Id : Type*} (current : Id) : State Thread Id where
  scheduler :=
    { current := { id := current, priority := 0 }, currentSuspend := false, active := [],
      suspended := ∅, preawake := ∅, contexts := ∅, domain := fun _ => .active }
  attached := ∅
  cancelled := ∅
  place := .idle
  awakers _ := .outside
  waits _ := none
  returned := []

theorem started_fresh (Thread : Type*) {Id : Type*} [DecidableEq Thread] [DecidableEq Id]
    (current : Id) : (machine Thread Id).start (started Thread current) :=
  ⟨rfl, rfl, rfl, rfl, rfl, rfl, rfl, fun _ => rfl, fun _ => rfl, rfl⟩

end Asco.Core.Worker
