import Asco.Sync.ConditionVariable

namespace Asco.Sync.ConditionVariable.Wait

open Foundation

/-! # `wait` and `notify()`

The predicate is evaluated, the token pushed and `suspend_current` called in one critical
section; the task stops at the `yield` that follows, where the scheduler ends its context.
A token may be awoken in between.
-/

/-- An `awake_token` in the queue; `serial` tells the tokens of one task apart. -/
structure Token (Task : Type*) where
  task : Task
  serial : ℕ
deriving DecidableEq

/-- Where a task stands: before the critical section of `wait`, between it and the `yield`,
after the `yield`, or between a change of the state and the `notify()` that follows it.
`suspending` is `m_current_suspend`. -/
inductive Place (Value : Type*) where
  | idle
  | entering (predicate : Value → Bool)
  | pushed (predicate : Value → Bool) (suspending : Bool)
  | stopped (predicate : Value → Bool)
  | changed

/-- What the scheduler of a task knows of it: it is one of `m_suspended_executions` or of
`m_preawake_executions`. -/
structure Context where
  suspended : Bool
  preawake : Bool
deriving DecidableEq

/-- `value` is what the predicates read; `issued` and `awoken` count the tokens and keep
those that have been awoken. -/
structure State (Task Value : Type*) where
  value : Value
  cv : ConditionVariable (Token Task)
  places : Task → Place Value
  contexts : Task → Context
  issued : ℕ
  awoken : List (Token Task)

/-- A task begins to wait, changes the state, or takes its next step.  In between it may be
awoken by a token of something else, or suspend there with an awakening that it has. -/
inductive Action (Value : Type*) where
  | wait (predicate : Value → Bool)
  | update (change : Value → Value)
  | step
  | awake
  | suspend

variable {Task Value : Type*}

/-- `awake_execution`. -/
def Context.awake (context : Context) : Context :=
  if context.suspended then { context with suspended := false }
  else { context with preawake := true }

/-- The `end` of a context that has not completed. -/
def Context.stop (context : Context) (suspending : Bool) : Context :=
  if suspending then
    if context.preawake then { context with preawake := false }
    else { context with suspended := true }
  else { context with suspended := false }

variable [DecidableEq Task]

/-- The tokens are awoken, the first one first. -/
def awakeAll (contexts : Task → Context) : List (Token Task) → Task → Context
  | [] => contexts
  | token :: rest =>
      awakeAll (Function.update contexts token.task (contexts token.task).awake) rest

namespace State

def become (state : State Task Value) (task : Task) (place : Place Value) : State Task Value :=
  { state with places := Function.update state.places task place }

def context (state : State Task Value) (task : Task) (context : Context) : State Task Value :=
  { state with contexts := Function.update state.contexts task context }

/-- The critical section of `wait`; `suspend_current` takes an awakening that is there. -/
def enter (state : State Task Value) (task : Task) (predicate : Value → Bool) :
    State Task Value :=
  if predicate state.value then state.become task .idle
  else
    { state with
      cv := state.cv.suspend { task, serial := state.issued }
      places := Function.update state.places task
        (.pushed predicate !(state.contexts task).preawake)
      contexts := Function.update state.contexts task
        { state.contexts task with preawake := false }
      issued := state.issued + 1 }

/-- The critical section of `notify()`. -/
def notify (state : State Task Value) : State Task Value :=
  { state with
    cv := state.cv.notifyAll
    contexts := awakeAll state.contexts state.cv.waitQueue
    awoken := state.awoken ++ state.cv.waitQueue }

def move (state : State Task Value) : Task × Action Value → Option (State Task Value)
  | (task, .wait predicate) =>
      match state.places task with
      | .idle => some (state.become task (.entering predicate))
      | _ => none
  | (task, .update change) =>
      match state.places task with
      | .idle => some ({ state with value := change state.value }.become task .changed)
      | _ => none
  | (task, .step) =>
      match state.places task with
      | .idle => none
      | .entering predicate => some (state.enter task predicate)
      | .pushed predicate suspending =>
          some ((state.become task (.stopped predicate)).context task
            ((state.contexts task).stop suspending))
      | .stopped predicate =>
          if (state.contexts task).suspended then none
          else some (state.become task (.entering predicate))
      | .changed => some (state.notify.become task .idle)
  | (task, .awake) => some (state.context task (state.contexts task).awake)
  | (task, .suspend) =>
      match state.places task with
      | .idle => some (state.context task { state.contexts task with preawake := false })
      | _ => none

end State

def fresh (Task : Type*) (value : Value) : State Task Value where
  value := value
  cv := .empty
  places _ := .idle
  contexts _ := { suspended := false, preawake := false }
  issued := 0
  awoken := []

def machine (Task Value : Type*) [DecidableEq Task] :
    Machine (State Task Value) (Task × Action Value) where
  start state := ∃ value, state = fresh Task value
  move := State.move

/-- A task that `wait` has suspended. -/
def Suspended (state : State Task Value) (task : Task) (predicate : Value → Bool) : Prop :=
  state.places task = .stopped predicate ∧ (state.contexts task).suspended = true

def Queued (state : State Task Value) (task : Task) : Prop :=
  ∃ token ∈ state.cv.waitQueue, token.task = task

/-- When all updaters have notified, no task sleeps on a predicate that holds; a task that
sleeps has a token in the queue, and a token is awoken at most once. -/
structure NoLostWakeUp (state : State Task Value) : Prop where
  attended : (∀ task, state.places task ≠ .changed) →
    ∀ task predicate, Suspended state task predicate → predicate state.value = false
  queued : ∀ task predicate, Suspended state task predicate → Queued state task
  once : ∀ token, (state.cv.waitQueue ++ state.awoken).count token ≤ 1

/-! ## The tokens of a task that stops -/

/-- The task sleeps, or will when it yields. -/
def Stops (state : State Task Value) (task : Task) (predicate : Value → Bool) : Prop :=
  Suspended state task predicate ∨
    state.places task = .pushed predicate true ∧ (state.contexts task).preawake = false

/-- A task that stops has a token in the queue, and its predicate has been false since the
last `notify()`. -/
structure Attended (state : State Task Value) : Prop where
  queued : ∀ task predicate, Stops state task predicate → Queued state task
  refused : ∀ task predicate, Stops state task predicate →
    predicate state.value = false ∨ ∃ updater, state.places updater = .changed
  asleep : ∀ task, (state.contexts task).suspended = true →
    ∃ predicate, state.places task = .stopped predicate
  issued : ∀ token ∈ state.cv.waitQueue ++ state.awoken, token.serial < state.issued
  distinct : (state.cv.waitQueue ++ state.awoken).Nodup

variable {state next : State Task Value} {task other : Task} {contexts : Task → Context}
  {tokens : List (Token Task)} {place : Place Value} {context : Context}

/-- A task that is still suspended had no token among those awoken. -/
theorem awakeAll_suspended (asleep : (awakeAll contexts tokens task).suspended = true) :
    (contexts task).suspended = true ∧ ∀ token ∈ tokens, token.task ≠ task := by
  induction tokens generalizing contexts with
  | nil => exact ⟨asleep, by simp⟩
  | cons token rest ih =>
      obtain ⟨before, absent⟩ := ih asleep
      by_cases same : token.task = task
      · subst same
        rw [Function.update_self, Context.awake] at before
        split at before
        · contradiction
        · contradiction
      · rw [Function.update_of_ne (Ne.symm same)] at before
        simp only [List.mem_cons, forall_eq_or_imp]
        exact ⟨before, same, absent⟩

/-- Nor had one that is not suspended and has not been awoken before it is. -/
theorem awakeAll_preawake (awake : (contexts task).suspended = false)
    (missing : (awakeAll contexts tokens task).preawake = false) :
    (contexts task).preawake = false ∧ ∀ token ∈ tokens, token.task ≠ task := by
  induction tokens generalizing contexts with
  | nil => exact ⟨missing, by simp⟩
  | cons token rest ih =>
      by_cases same : token.task = task
      · subst same
        have awoken : (contexts token.task).awake =
            { contexts token.task with preawake := true } := by
          simp [Context.awake, awake]
        have still : (Function.update contexts token.task (contexts token.task).awake
            token.task).suspended = false := by
          rw [Function.update_self, awoken]
          exact awake
        have before := (ih still missing).1
        rw [Function.update_self, awoken] at before
        contradiction
      · have kept : Function.update contexts token.task (contexts token.task).awake task =
            contexts task := Function.update_of_ne (Ne.symm same) _ _
        have still : (Function.update contexts token.task (contexts token.task).awake
            task).suspended = false := by
          rw [kept]
          exact awake
        obtain ⟨before, absent⟩ := ih still missing
        rw [kept] at before
        simp only [List.mem_cons, forall_eq_or_imp]
        exact ⟨before, same, absent⟩

/-- A task that moves on its own, with the queue left alone. -/
theorem Attended.moved (attended : Attended state)
    (cv : next.cv = state.cv) (awoken : next.awoken = state.awoken)
    (issued : next.issued = state.issued)
    (places : next.places = Function.update state.places task place)
    (contexts : next.contexts = Function.update state.contexts task context)
    (stops : ∀ predicate, Stops next task predicate → Stops state task predicate)
    (asleep : context.suspended = true → ∃ predicate, place = .stopped predicate)
    (refused : ∀ other predicate, Stops state other predicate → predicate next.value = false ∨
      ∃ updater, next.places updater = .changed) : Attended next := by
  have stopped (other : Task) (predicate : Value → Bool)
      (stopping : Stops next other predicate) : Stops state other predicate := by
    by_cases same : other = task
    · subst same
      exact stops predicate stopping
    · rw [Stops, Suspended, places, contexts, Function.update_of_ne same,
        Function.update_of_ne same] at stopping
      exact stopping
  exact
    { queued := fun other predicate stopping => by
        rw [Queued, cv]
        exact attended.queued other predicate (stopped other predicate stopping)
      refused := fun other predicate stopping =>
        refused other predicate (stopped other predicate stopping)
      asleep := fun other sleeping => by
        rw [places]
        rw [contexts] at sleeping
        by_cases same : other = task
        · subst same
          rw [Function.update_self] at sleeping ⊢
          exact asleep sleeping
        · rw [Function.update_of_ne same] at sleeping ⊢
          exact attended.asleep other sleeping
      issued := by
        rw [cv, awoken, issued]
        exact attended.issued
      distinct := by
        rw [cv, awoken]
        exact attended.distinct }

/-- The updaters that have not notified are the same. -/
theorem Attended.refused_same (attended : Attended state) (before : state.places task ≠ .changed)
    {predicate : Value → Bool} (stopping : Stops state other predicate) :
    predicate state.value = false ∨
      ∃ updater, Function.update state.places task place updater = .changed := by
  rcases attended.refused other predicate stopping with refused | ⟨updater, changed⟩
  · exact .inl refused
  · have different : updater ≠ task := by
      intro same
      exact before (same ▸ changed)
    exact .inr ⟨updater, by rw [Function.update_of_ne different, changed]⟩

/-- A task moves to a place where it does not stop. -/
theorem Attended.become (attended : Attended state)
    (before : state.places task ≠ .changed) (awake : (state.contexts task).suspended = false)
    (calm : ∀ predicate, place ≠ .stopped predicate)
    (runs : ∀ predicate, place ≠ .pushed predicate true) :
    Attended (state.become task place) := by
  apply attended.moved
  · rfl
  · rfl
  · rfl
  · rfl
  · exact (Function.update_eq_self task state.contexts).symm
  · intro predicate stopping
    rcases stopping with ⟨stopped, _⟩ | ⟨pushed, _⟩
    · simp only [State.become, Function.update_self] at stopped
      exact absurd stopped (calm predicate)
    · simp only [State.become, Function.update_self] at pushed
      exact absurd pushed (runs predicate)
  · intro asleep
    rw [awake] at asleep
    contradiction
  · intro other predicate stopping
    exact attended.refused_same before stopping

/-- Something else wakes a task, or takes the awakening of one that does not wait. -/
theorem Attended.elsewhere (attended : Attended state)
    (stops : ∀ predicate, ¬ Stops (state.context task context) task predicate)
    (asleep : context.suspended = true → (state.contexts task).suspended = true) :
    Attended (state.context task context) := by
  apply attended.moved
  · rfl
  · rfl
  · rfl
  · exact (Function.update_eq_self task state.places).symm
  · rfl
  · intro predicate stopping
    exact absurd stopping (stops predicate)
  · intro sleeping
    exact attended.asleep task (asleep sleeping)
  · exact attended.refused

omit [DecidableEq Task] in
/-- A task that runs is not suspended. -/
theorem Attended.running (attended : Attended state)
    (runs : ∀ predicate, state.places task ≠ .stopped predicate) :
    (state.contexts task).suspended = false := by
  by_contra asleep
  obtain ⟨predicate, stopped⟩ := attended.asleep task (by simpa using asleep)
  exact runs predicate stopped

theorem Attended.awake (attended : Attended state) :
    Attended (state.context task (state.contexts task).awake) := by
  apply attended.elsewhere
  · intro predicate stopping
    rcases stopping with ⟨_, asleep⟩ | ⟨pushed, missing⟩
    · simp only [State.context, Function.update_self, Context.awake] at asleep
      split at asleep
      · contradiction
      · contradiction
    · have running : (state.contexts task).suspended = false := by
        apply attended.running
        intro other stopped
        rw [show state.places task = _ from pushed] at stopped
        contradiction
      simp [State.context, Context.awake, running] at missing
  · intro asleep
    rw [Context.awake] at asleep
    split at asleep
    · assumption
    · exact asleep

theorem Attended.enter (attended : Attended state) {predicate : Value → Bool}
    (standing : state.places task = .entering predicate) :
    Attended (state.enter task predicate) := by
  have running : (state.contexts task).suspended = false := by
    apply attended.running
    simp [standing]
  unfold State.enter
  split
  · apply attended.become
    · simp [standing]
    · exact running
    · simp
    · simp
  · rename_i refused
    have stopped (other : Task) (different : other ≠ task) (waiting : Value → Bool)
        (stopping : Stops (state.enter task predicate) other waiting) :
        Stops state other waiting := by
      simp only [State.enter, if_neg refused, Stops, Suspended,
        Function.update_of_ne different] at stopping
      exact stopping
    have own (waiting : Value → Bool)
        (stopping : Stops (state.enter task predicate) task waiting) : waiting = predicate := by
      simp only [State.enter, if_neg refused, Stops, Suspended, Function.update_self] at stopping
      rcases stopping with ⟨stopped, _⟩ | ⟨pushed, _⟩
      · contradiction
      · exact (Place.pushed.inj pushed).1.symm
    simp only [State.enter, if_neg refused] at stopped own
    exact
      { queued := fun other waiting stopping => by
          by_cases same : other = task
          · exact ⟨_, List.mem_append_right _ (List.mem_singleton_self _), same.symm⟩
          · obtain ⟨token, member, owner⟩ :=
              attended.queued other waiting (stopped other same waiting stopping)
            exact ⟨token, List.mem_append_left _ member, owner⟩
        refused := fun other waiting stopping => by
          by_cases same : other = task
          · subst same
            rw [own waiting stopping]
            exact .inl (by simpa using refused)
          · apply attended.refused_same
            · simp [standing]
            · exact stopped other same waiting stopping
        asleep := fun other sleeping => by
          by_cases same : other = task
          · subst same
            simp only [Function.update_self, running] at sleeping
            contradiction
          · simp only [Function.update_of_ne same] at sleeping ⊢
            exact attended.asleep other sleeping
        issued := fun token member => by
          simp only [suspend_waitQueue, List.append_assoc, List.mem_append,
            List.mem_singleton] at member
          rcases member with queued | rfl | awoken
          · exact Nat.lt_succ_of_lt (attended.issued token (List.mem_append_left _ queued))
          · exact Nat.lt_succ_self _
          · exact Nat.lt_succ_of_lt (attended.issued token (List.mem_append_right _ awoken))
        distinct := by
          have fresh : { task, serial := state.issued } ∉ state.cv.waitQueue ++ state.awoken := by
            intro member
            exact absurd (attended.issued _ member) (Nat.lt_irrefl _)
          simp only [suspend_waitQueue, List.append_assoc, List.singleton_append]
          exact List.nodup_middle.mpr (List.nodup_cons.mpr ⟨fresh, attended.distinct⟩) }

theorem Attended.notify (attended : Attended state) (standing : state.places task = .changed) :
    Attended (state.notify.become task .idle) := by
  have places (other : Task) (different : other ≠ task) :
      (state.notify.become task .idle).places other = state.places other :=
    Function.update_of_ne different _ _
  have woken (other : Task) (predicate : Value → Bool) :
      ¬ Stops (state.notify.become task .idle) other predicate := by
    intro stopping
    by_cases same : other = task
    · subst same
      simp [Stops, Suspended, State.become] at stopping
    · rw [Stops, Suspended, places other same] at stopping
      rcases stopping with ⟨stopped, asleep⟩ | ⟨pushed, missing⟩
      · obtain ⟨before, absent⟩ := awakeAll_suspended asleep
        obtain ⟨token, member, owner⟩ :=
          attended.queued other predicate (.inl ⟨stopped, before⟩)
        exact absent token member owner
      · have running : (state.contexts other).suspended = false := by
          apply attended.running
          simp [pushed]
        obtain ⟨before, absent⟩ := awakeAll_preawake running missing
        obtain ⟨token, member, owner⟩ :=
          attended.queued other predicate (.inr ⟨pushed, before⟩)
        exact absent token member owner
  exact
    { queued := fun other predicate stopping => absurd stopping (woken other predicate)
      refused := fun other predicate stopping => absurd stopping (woken other predicate)
      asleep := fun other sleeping => by
        obtain ⟨predicate, stopped⟩ := attended.asleep other (awakeAll_suspended sleeping).1
        have different : other ≠ task := by
          intro same
          rw [same, standing] at stopped
          contradiction
        exact ⟨predicate, by rw [places other different, stopped]⟩
      issued := fun token member => by
        have before : token ∈ state.awoken ++ state.cv.waitQueue := member
        apply attended.issued
        rw [List.mem_append] at before ⊢
        exact before.symm
      distinct := by
        have before := attended.distinct
        rw [List.nodup_append_comm] at before
        exact before }

theorem Attended.move (attended : Attended state) {action : Action Value}
    (moved : state.move (task, action) = some next) : Attended next := by
  cases action with
  | wait predicate =>
      cases standing : state.places task with
      | idle =>
          simp only [State.move, standing] at moved
          cases moved
          apply attended.become
          · simp [standing]
          · apply attended.running
            simp [standing]
          · simp
          · simp
      | _ => simp [State.move, standing] at moved
  | update change =>
      cases standing : state.places task with
      | idle =>
          simp only [State.move, standing] at moved
          cases moved
          apply attended.moved
          · rfl
          · rfl
          · rfl
          · rfl
          · exact (Function.update_eq_self task state.contexts).symm
          · intro predicate stopping
            simp [Stops, Suspended, State.become] at stopping
          · intro asleep
            obtain ⟨predicate, stopped⟩ := attended.asleep task asleep
            rw [standing] at stopped
            contradiction
          · intro other predicate stopping
            exact .inr ⟨task, Function.update_self _ _ _⟩
      | _ => simp [State.move, standing] at moved
  | step =>
      cases standing : state.places task with
      | idle => simp [State.move, standing] at moved
      | entering predicate =>
          simp only [State.move, standing] at moved
          cases moved
          exact attended.enter standing
      | pushed predicate suspending =>
          simp only [State.move, standing] at moved
          cases moved
          apply attended.moved
          · rfl
          · rfl
          · rfl
          · rfl
          · rfl
          · intro waiting stopping
            simp only [Stops, Suspended, State.become, State.context,
              Function.update_self] at stopping
            rcases stopping with ⟨same, asleep⟩ | ⟨pushed, _⟩
            · cases same
              rw [Context.stop] at asleep
              split at asleep
              · split at asleep
                · rename_i suspends awoken
                  have running : (state.contexts task).suspended = false := by
                    apply attended.running
                    simp [standing]
                  rw [show _ = true from asleep] at running
                  contradiction
                · rename_i suspends missing
                  exact .inr ⟨by rw [standing, suspends], by simpa using missing⟩
              · contradiction
            · contradiction
          · intro _
            exact ⟨predicate, rfl⟩
          · intro other waiting stopping
            apply attended.refused_same
            · simp [standing]
            · exact stopping
      | stopped predicate =>
          simp only [State.move, standing] at moved
          split at moved
          · contradiction
          · rename_i awake
            cases moved
            apply attended.become
            · simp [standing]
            · simpa using awake
            · simp
            · simp
      | changed =>
          simp only [State.move, standing] at moved
          cases moved
          exact attended.notify standing
  | awake =>
      cases moved
      exact attended.awake
  | suspend =>
      cases standing : state.places task with
      | idle =>
          simp only [State.move, standing] at moved
          cases moved
          apply attended.elsewhere
          · intro predicate stopping
            simp [Stops, Suspended, State.context, standing] at stopping
          · intro asleep
            exact asleep
      | _ => simp [State.move, standing] at moved

theorem attended_of_reachable {guard : State Task Value → Task × Action Value → Prop}
    (reachable : (machine Task Value).Reachable guard state) : Attended state := by
  apply reachable.invariant
  · intro first started
    obtain ⟨value, rfl⟩ := started
    exact
      { queued := fun _ _ stopping => by simp [Stops, Suspended, fresh] at stopping
        refused := fun _ _ stopping => by simp [Stops, Suspended, fresh] at stopping
        asleep := fun _ sleeping => by contradiction
        issued := fun token member => by simp [fresh] at member
        distinct := List.nodup_nil }
  · intro state label next attended _ moved
    exact attended.move moved

/-- Over any number of tasks and updaters, with any predicates. -/
theorem noLostWakeUp_of_reachable {guard : State Task Value → Task × Action Value → Prop}
    (reachable : (machine Task Value).Reachable guard state) : NoLostWakeUp state := by
  have attended := attended_of_reachable reachable
  refine ⟨fun notified task predicate suspended => ?_, fun task predicate suspended => ?_,
    fun token => ?_⟩
  · rcases attended.refused task predicate (.inl suspended) with refused | ⟨updater, changed⟩
    · exact refused
    · exact absurd changed (notified updater)
  · exact attended.queued task predicate (.inl suspended)
  · exact List.nodup_iff_count_le_one.mp attended.distinct token

/-- A token that is awoken before its task yields keeps the task from stopping; the task finds
its predicate still false and sleeps on a second token. -/
theorem noLostWakeUp_of_reachable_again :
    ∃ state : State (Fin 2) ℕ, (machine (Fin 2) ℕ).Reachable Machine.free state ∧
      ((state.contexts 0).suspended = true ∧ state.value = 1 ∧ state.awoken.length = 1) ∧
        NoLostWakeUp state := by
  obtain ⟨state, reachable, slept⟩ :=
    Machine.reachable_of_any (machine (Fin 2) ℕ) Machine.free (fresh (Fin 2) 0)
      [(0, .wait (2 ≤ ·)), (0, .step), (1, .update (· + 1)), (1, .step),
        (0, .step), (0, .step), (0, .step), (0, .step)]
      (fun state => (state.contexts 0).suspended = true ∧ state.value = 1 ∧
        state.awoken.length = 1)
      ⟨0, rfl⟩ (by decide +kernel)
  exact ⟨state, reachable, slept, noLostWakeUp_of_reachable reachable⟩

end Asco.Sync.ConditionVariable.Wait
