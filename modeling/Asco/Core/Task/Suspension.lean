import Asco.Foundation.Machine

namespace Asco.Core.Task

open Foundation

/-! # Suspending and waking executions

What a scheduler is for, apart from the order in which it schedules: executions
are attached, run one at a time, ask to be suspended, and are woken.  A wake-up
that finds an execution runnable is early, and gives up its next suspension.
-/

/-- One call of the scheduler.  `finish` is `end(completed)` of the context that
was scheduled last, and `execTime` the time it took. -/
inductive Event (Id : Type*) where
  | attach (id : Id)
  | schedule (id : Id)
  | suspend (id : Id)
  | finish (id : Id) (completed : Bool) (execTime : UInt64)
  | awake (id : Id)
  | detach (id : Id)
deriving DecidableEq

def Event.id {Id : Type*} : Event Id → Id
  | .attach id | .schedule id | .suspend id | .finish id _ _ | .awake id | .detach id => id

/-- `runnable` includes the execution that is running, and `suspending` says that
this one has asked to be suspended.  `spent` are the executions whose early
wake-up has given up a suspension as the context ended, with none since.
`awakes` and `resumed` count the wake-ups of each execution and the suspensions
that they gave up or ended. -/
structure Suspension (Id : Type*) where
  attached : Finset Id
  runnable : Finset Id
  early : Finset Id
  spent : Finset Id
  completed : Finset Id
  detached : Finset Id
  running : Option Id
  suspending : Bool
  awakes : Id → ℕ
  resumed : Id → ℕ

namespace Suspension

def empty (Id : Type*) : Suspension Id where
  attached := ∅
  runnable := ∅
  early := ∅
  spent := ∅
  completed := ∅
  detached := ∅
  running := none
  suspending := false
  awakes _ := 0
  resumed _ := 0

variable {Id : Type*} [DecidableEq Id]

/-- One more for `id`. -/
def count (counter : Id → ℕ) (id : Id) : Id → ℕ :=
  Function.update counter id (counter id + 1)

/-- `suspend_current` of the running execution. -/
def suspend (state : Suspension Id) (id : Id) : Suspension Id :=
  if id ∈ state.early then
    { state with early := state.early.erase id, resumed := count state.resumed id }
  else { state with suspending := true }

/-- The end of a context. -/
def finish (state : Suspension Id) (id : Id) (completed : Bool) : Suspension Id :=
  let woken := state.suspending = true ∧ id ∈ state.early
  { state with
    running := none
    suspending := false
    early := if woken then state.early.erase id else state.early
    spent := if woken then insert id state.spent else state.spent
    completed := if completed then insert id state.completed else state.completed
    runnable :=
      if completed ∨ state.suspending = true ∧ id ∉ state.early then state.runnable.erase id
      else state.runnable
    resumed := if woken ∧ completed = false then count state.resumed id else state.resumed }

def awake (state : Suspension Id) (id : Id) : Suspension Id :=
  let counted := { state with awakes := count state.awakes id }
  if id ∈ state.detached then counted
  else if id ∈ state.runnable then
    { counted with early := insert id state.early, spent := state.spent.erase id }
  else
    { counted with
      runnable := insert id state.runnable, resumed := count state.resumed id }

/-- The calls in the order in which a worker may make them: `capacity` distinct
executions are attached before the first is scheduled, only runnable ones are
scheduled, one at a time, the running one is suspended and ended, executions
that were attached are woken, and completed ones detached. -/
def step (capacity : ℕ) (state : Suspension Id) : Event Id → Option (Suspension Id)
  | .attach id =>
      if id ∉ state.attached ∧ state.attached.card < capacity then
        some { state with
          attached := insert id state.attached, runnable := insert id state.runnable }
      else none
  | .schedule id =>
      if state.running = none ∧ state.attached.card = capacity ∧ id ∈ state.runnable then
        some { state with running := some id }
      else none
  | .suspend id => if state.running = some id then some (state.suspend id) else none
  | .finish id completed _ =>
      if state.running = some id then some (state.finish id completed) else none
  | .awake id => if id ∈ state.attached then some (state.awake id) else none
  | .detach id =>
      if id ∈ state.completed then
        some (if id ∈ state.runnable then state
          else { state with detached := insert id state.detached })
      else none

def machine (capacity : ℕ) : Machine (Suspension Id) (Event Id) where
  start state := state = empty Id
  move := step capacity

/-- Every wake-up gives up or ends at most one suspension. -/
structure Consistent (state : Suspension Id) : Prop where
  runnable : state.runnable ⊆ state.attached
  early : state.early ⊆ state.attached
  spent : state.spent ⊆ state.attached
  completed : state.completed ⊆ state.attached
  detached : state.detached ⊆ state.attached
  apart : Disjoint state.runnable state.detached
  running : ∀ id, state.running = some id → id ∈ state.runnable
  idle : state.running = none → state.suspending = false
  balance : ∀ id, state.resumed id + (if id ∈ state.early then 1 else 0) ≤ state.awakes id

theorem empty_consistent : (empty Id).Consistent where
  runnable := subset_rfl
  early := subset_rfl
  spent := subset_rfl
  completed := subset_rfl
  detached := subset_rfl
  apart := Finset.disjoint_empty_left _
  running := nofun
  idle _ := rfl
  balance _ := by simp [empty]

variable {capacity : ℕ} {state next : Suspension Id}

theorem suspend_consistent {id : Id} (holds : state.Consistent)
    (running : state.running = some id) : (state.suspend id).Consistent := by
  unfold suspend
  split
  · rename_i early
    refine { holds with
      early := (Finset.erase_subset _ _).trans holds.early
      balance := fun other => ?_ }
    have balance := holds.balance other
    by_cases same : other = id
    · subst same
      simpa [count, early] using balance
    · simpa [count, Finset.mem_erase, same] using balance
  · exact { holds with idle := fun idle => by simp_all }

theorem finish_consistent {id : Id} {completed : Bool} (holds : state.Consistent)
    (running : state.running = some id) : (state.finish id completed).Consistent := by
  have remaining : (state.finish id completed).runnable ⊆ state.runnable := by
    simp only [finish]
    split
    · exact Finset.erase_subset _ _
    · exact subset_rfl
  have known := holds.runnable (holds.running id running)
  refine
    { runnable := remaining.trans holds.runnable
      early := ?_
      spent := ?_
      completed := ?_
      detached := holds.detached
      apart := holds.apart.mono_left remaining
      running := nofun
      idle := fun _ => rfl
      balance := fun other => ?_ }
  · simp only [finish]
    split
    · exact (Finset.erase_subset _ _).trans holds.early
    · exact holds.early
  · simp only [finish]
    split
    · exact Finset.insert_subset known holds.spent
    · exact holds.spent
  · simp only [finish]
    split
    · exact Finset.insert_subset known holds.completed
    · exact holds.completed
  · have balance := holds.balance other
    simp only [finish, count]
    by_cases same : other = id
    · subst same
      grind
    · grind

theorem awake_consistent {id : Id} (holds : state.Consistent) (known : id ∈ state.attached) :
    (state.awake id).Consistent := by
  have counted (other : Id) :
      state.awakes other ≤ count state.awakes id other := by
    simp only [count, Function.update_apply]
    split <;> simp_all
  unfold awake
  split
  · refine { holds with balance := fun other => ?_ }
    exact (holds.balance other).trans (counted other)
  · rename_i attached
    split
    · rename_i runnable
      refine { holds with
        early := Finset.insert_subset known holds.early
        spent := (Finset.erase_subset _ _).trans holds.spent
        balance := fun other => ?_ }
      have balance := holds.balance other
      simp only [count]
      grind
    · refine { holds with
        runnable := Finset.insert_subset known holds.runnable
        apart := Finset.disjoint_insert_left.mpr ⟨attached, holds.apart⟩
        running := fun other running => Finset.mem_insert_of_mem (holds.running other running)
        balance := fun other => ?_ }
      have balance := holds.balance other
      simp only [count]
      grind

theorem step_consistent {event : Event Id} (holds : state.Consistent)
    (stepped : state.step capacity event = some next) : next.Consistent := by
  cases event with
  | attach id =>
      obtain ⟨⟨fresh, _⟩, ⟨⟩⟩ := Option.ite_none_right_eq_some.mp stepped
      have undetached : id ∉ state.detached := fun detached => fresh (holds.detached detached)
      exact { holds with
        runnable := Finset.insert_subset_insert id holds.runnable
        early := holds.early.trans (Finset.subset_insert _ _)
        spent := holds.spent.trans (Finset.subset_insert _ _)
        completed := holds.completed.trans (Finset.subset_insert _ _)
        detached := holds.detached.trans (Finset.subset_insert _ _)
        apart := Finset.disjoint_insert_left.mpr ⟨undetached, holds.apart⟩
        running := fun other running => Finset.mem_insert_of_mem (holds.running other running) }
  | schedule id =>
      obtain ⟨⟨_, _, runnable⟩, ⟨⟩⟩ := Option.ite_none_right_eq_some.mp stepped
      exact { holds with
        running := fun other running => Option.some.inj running ▸ runnable
        idle := nofun }
  | suspend id =>
      obtain ⟨running, ⟨⟩⟩ := Option.ite_none_right_eq_some.mp stepped
      exact suspend_consistent holds running
  | finish id completed execTime =>
      obtain ⟨running, ⟨⟩⟩ := Option.ite_none_right_eq_some.mp stepped
      exact finish_consistent holds running
  | awake id =>
      obtain ⟨known, ⟨⟩⟩ := Option.ite_none_right_eq_some.mp stepped
      exact awake_consistent holds known
  | detach id =>
      obtain ⟨completed, ⟨⟩⟩ := Option.ite_none_right_eq_some.mp stepped
      split
      · exact holds
      · rename_i suspended
        exact { holds with
          detached := Finset.insert_subset (holds.completed completed) holds.detached
          apart := Finset.disjoint_insert_right.mpr ⟨suspended, holds.apart⟩ }

end Suspension

end Asco.Core.Task
