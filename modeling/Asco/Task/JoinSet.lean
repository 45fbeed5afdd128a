import Asco.Sync.Channel.Fifo

namespace Asco.Task.JoinSet

open Foundation Asco.Sync
open Asco.Sync.Channel.Atomic (Pc Traffic)

/-! # `join_set`

Any coroutine may call `spawn`, and one of them, the owner, awaits the `join_set` or calls
`join_all`.  The results go through a channel over an atomic queue.
-/

/-- The call of `spawn` for a task: when it is `submitted`, the runtime has the task and
`m_task_count` does not count it yet. -/
inductive Spawn where
  | absent
  | submitted
  | counted
deriving DecidableEq

/-- Where the owner is: in `operator co_await` before `load`, in `recv` or before `fetch_sub`,
or in `join_all` in `stop` or in its loop. -/
inductive Owner (α : Type*) where
  | outside
  | loading
  | receiving
  | subtracting (value : α)
  | stopping
  | collecting
deriving DecidableEq

/-- The owner is the task `none` of the channel.  `outcome` is what the function of a task has
returned, `answers` are those of `operator co_await`, and `collected` is what `join_all` has
put into its vectors. -/
structure State (Task α : Type*) where
  channel : Pool (Option Task) (Traffic α) (Option (Pc α))
  spawns : Task → Spawn
  outcome : Task → Option α
  taskCount : ℕ
  owner : Owner α
  answers : List (Option α)
  collected : List α

/-- `complete` is the return of the function of a task, whose coroutine then sends. -/
inductive Label (Task α : Type*) where
  | spawn (task : Task)
  | count (task : Task)
  | complete (task : Task) (value : α)
  | coAwait
  | load
  | subtract
  | joinAll
  | collect
  | step (task : Option Task)

variable {Task α : Type*} [DecidableEq Task]

def State.initial (Task α : Type*) : State Task α where
  channel := Channel.Atomic.fresh (Option Task) α
  spawns _ := .absent
  outcome _ := none
  taskCount := 0
  owner := .outside
  answers := []
  collected := []

/-- What the owner does with the answer of the channel. -/
def State.settle (state : State Task α) : State Task α :=
  match state.owner with
  | .receiving =>
      match state.channel.shared.received.getLast?.join with
      | some value => { state with owner := .subtracting value }
      | none => { state with owner := .outside, answers := state.answers ++ [none] }
  | .stopping => { state with owner := .collecting }
  | .collecting =>
      match state.channel.shared.received.getLast?.join with
      | some value => { state with collected := state.collected ++ [value] }
      | none => { state with owner := .outside }
  | _ => state

section

variable (state : State Task α)

/-- A call of the channel or a step of one. -/
def State.perform (task : Option Task) (label : Channel.Atomic.Label α) :
    Option (State Task α) :=
  ((Channel.Atomic.machine (Option Task) α).move state.channel (task, label)).map
    fun channel => { state with channel }

def move : Label Task α → Option (State Task α)
  | .spawn task =>
      if state.spawns task = .absent then
        some { state with spawns := Function.update state.spawns task .submitted }
      else none
  | .count task =>
      if state.spawns task = .submitted then
        some { state with
          spawns := Function.update state.spawns task .counted
          taskCount := state.taskCount + 1 }
      else none
  | .complete task value =>
      if state.spawns task ≠ .absent ∧ (state.outcome task).isNone then
        { state with outcome := Function.update state.outcome task (some value) }.perform
          (some task) (.call (.send value))
      else none
  | .coAwait =>
      match state.owner with
      | .outside => some { state with owner := .loading }
      | _ => none
  | .load =>
      match state.owner with
      | .loading =>
          if state.taskCount = 0 then
            some { state with owner := .outside, answers := state.answers ++ [none] }
          else { state with owner := .receiving }.perform none (.call .recv)
      | _ => none
  | .subtract =>
      match state.owner with
      | .subtracting value =>
          some { state with
            taskCount := state.taskCount - 1
            owner := .outside
            answers := state.answers ++ [some value] }
      | _ => none
  | .joinAll =>
      match state.owner with
      | .outside => { state with owner := .stopping }.perform none (.call .stop)
      | _ => none
  | .collect =>
      match state.owner with
      | .collecting => state.perform none (.call .recv)
      | _ => none
  | .step (some task) => state.perform (some task) .step
  | .step none =>
      (state.perform none .step).map fun next =>
        if (next.channel.locals none).isNone then next.settle else next

end

def machine (Task α : Type*) [DecidableEq Task] : Machine (State Task α) (Label Task α) where
  start state := state = .initial Task α
  move := move

variable {state next : State Task α} {label : Label Task α}

theorem perform_eq_some {task : Option Task} {label : Channel.Atomic.Label α} :
    state.perform task label = some next ↔ ∃ shared finish,
      Channel.Atomic.advance state.channel.shared (state.channel.locals task) label =
        some (shared, finish) ∧
      next = { state with
        channel := { shared, locals := Function.update state.channel.locals task finish } } := by
  unfold State.perform
  rw [Option.map_eq_some_iff]
  constructor
  · rintro ⟨channel, moved, rfl⟩
    obtain ⟨shared, finish, advanced, rfl⟩ := Program.move_eq_some.mp moved
    exact ⟨shared, finish, advanced, rfl⟩
  · rintro ⟨shared, finish, advanced, rfl⟩
    exact ⟨_, Program.move_eq_some.mpr ⟨shared, finish, advanced, rfl⟩, rfl⟩

/-! ## The channel -/

theorem perform_channel {task : Option Task} {label : Channel.Atomic.Label α}
    (performed : state.perform task label = some next) :
    (Channel.Atomic.machine (Option Task) α).move state.channel (task, label) =
      some next.channel := by
  obtain ⟨channel, moved, rfl⟩ := Option.map_eq_some_iff.mp performed
  exact moved

omit [DecidableEq Task] in
theorem settle_channel (state : State Task α) : state.settle.channel = state.channel := by
  unfold State.settle
  split
  · split <;> rfl
  · rfl
  · split <;> rfl
  · rfl

/-- Each step leaves the channel as it is or is one of the channel. -/
theorem channel_of_move (moved : move state label = some next) :
    next.channel = state.channel ∨ ∃ step,
      (Channel.Atomic.machine (Option Task) α).move state.channel step = some next.channel := by
  cases label with
  | spawn task | count task =>
      obtain ⟨_, moved⟩ := Option.ite_none_right_eq_some.mp moved
      cases moved
      exact .inl rfl
  | complete task value =>
      obtain ⟨_, moved⟩ := Option.ite_none_right_eq_some.mp moved
      have channel := perform_channel moved
      exact .inr ⟨_, channel⟩
  | coAwait | subtract =>
      simp only [move] at moved
      split at moved
      · cases moved
        exact .inl rfl
      · contradiction
  | load =>
      simp only [move] at moved
      split at moved
      · split at moved
        · cases moved
          exact .inl rfl
        · have channel := perform_channel moved
          exact .inr ⟨_, channel⟩
      · contradiction
  | joinAll | collect =>
      simp only [move] at moved
      split at moved
      · have channel := perform_channel moved
        exact .inr ⟨_, channel⟩
      · contradiction
  | step task =>
      cases task with
      | some task =>
          have channel := perform_channel moved
          exact .inr ⟨_, channel⟩
      | none =>
          obtain ⟨middle, performed, rfl⟩ := Option.map_eq_some_iff.mp moved
          have channel :
              (if (middle.channel.locals none).isNone then middle.settle else middle).channel =
              middle.channel := by
            split
            · exact settle_channel middle
            · rfl
          exact .inr ⟨_, by rw [channel]; exact perform_channel performed⟩

theorem channel_of_reachable {guard : State Task α → Label Task α → Prop}
    (reachable : (machine Task α).Reachable guard state) :
    (Channel.Atomic.machine (Option Task) α).Reachable Machine.free state.channel := by
  obtain ⟨first, started, run⟩ := reachable
  induction run with
  | refl =>
      cases started
      exact ⟨_, rfl, .refl _⟩
  | tail _ _ moved ih =>
      rcases channel_of_move moved with same | ⟨step, moved⟩
      · rw [same]
        exact ih
      · exact ih.step trivial moved

end Asco.Task.JoinSet
