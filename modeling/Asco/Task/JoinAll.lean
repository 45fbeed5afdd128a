import Asco.Core.Task.ExecutionDomainProxy

namespace Asco.Task.JoinAll

open Foundation Asco.Core.Task
open Asco.Core.Task.Executor (requested_of_move)
open Asco.Core.Task.ExecutionDomainProxy (Accounted Branches)

/-! # `join_all`

The coroutine that awaits a `join_all` goes on when all its futures have completed.
-/

/-- `futures` are those of `m_futures`, with what their coroutines have ended with. -/
structure State (n : ℕ) (Value : Fin n → Type*) (Exception Handle Source : Type*) where
  proxy : ExecutionDomainProxy.State (Fin n) Handle Source
  futures : (i : Fin n) → Option (Except Exception (Value i))

/-- `endFuture` is the end of the coroutine of a future. -/
inductive Label (n : ℕ) (Value : Fin n → Type*) (Exception Handle Source : Type*) where
  | proxy (label : ExecutionDomainProxy.Label (Fin n) Handle Source)
  | endFuture (i : Fin n) (outcome : Except Exception (Value i))

variable {n : ℕ} {Value : Fin n → Type*} {Exception Handle Source : Type*}

def State.initial (Value : Fin n → Type*) (Exception Handle Source : Type*) :
    State n Value Exception Handle Source where
  proxy := .initial (Fin n) Handle Source
  futures _ := none

/-- `await_resume` reads every future. -/
def State.awaitResume (state : State n Value Exception Handle Source) :
    Option ((i : Fin n) → Except Exception (Value i)) :=
  if completed : ∀ i, (state.futures i).isSome then
    some fun i => (state.futures i).get (completed i)
  else none

variable [DecidableEq Handle] [DecidableEq Source]

section

variable (branches : Branches (Fin n) Handle Source)
  (state : State n Value Exception Handle Source)

/-- The coroutine of the future runs. -/
def runs (i : Fin n) : Bool :=
  match state.proxy.executor.phase with
  | .running id current => id = branches.base i && current = branches.base i
  | _ => false

/-- The end of a future has a label of its own, and `join_all` does not cancel. -/
def permits : ExecutionDomainProxy.Label (Fin n) Handle Source → Bool
  | .cancel => false
  | .executor .complete => decide (∀ i, runs branches state i = false)
  | _ => true

def move : Label n Value Exception Handle Source → Option (State n Value Exception Handle Source)
  | .proxy label =>
      if permits branches state label then
        (branches.move state.proxy label).map fun proxy => { state with proxy }
      else none
  | .endFuture i outcome =>
      if runs branches state i then
        (branches.step state.proxy .complete).map fun proxy =>
          { state with
            proxy
            futures := Function.update state.futures i (some outcome) }
      else none

end

def machine (Value : Fin n → Type*) (Exception : Type*)
    (branches : Branches (Fin n) Handle Source) :
    Machine (State n Value Exception Handle Source) (Label n Value Exception Handle Source) where
  start state := state = .initial Value Exception Handle Source
  move := move branches

/-! ## The futures that have completed -/

variable {branches : Branches (Fin n) Handle Source}
  {state next last : State n Value Exception Handle Source}
  {proxy : ExecutionDomainProxy.State (Fin n) Handle Source}
  {label : Executor.Label Handle Source} {i : Fin n}

/-- A future has completed when its coroutine has run to its end. -/
structure Invariant (branches : Branches (Fin n) Handle Source)
    (state : State n Value Exception Handle Source) : Prop where
  accounted : Accounted branches state.proxy
  uncancelled : state.proxy.executor.requested branches.own ≠ true
  completed : ∀ i, state.proxy.finished i = (state.futures i).isSome

omit [DecidableEq Source] in
theorem finishes_eq (i : Fin n) :
    branches.finishes state.proxy .complete i = runs branches state i := by
  unfold Branches.finishes runs
  cases state.proxy.executor.phase with
  | running id current => rfl
  | _ => rfl

theorem uncancelled_of_step (plain : label ≠ .requestCancel branches.own)
    (uncancelled : state.proxy.executor.requested branches.own ≠ true)
    (stepped : branches.step state.proxy label = some proxy) :
    proxy.executor.requested branches.own ≠ true := by
  obtain ⟨executor, advanced, rfl⟩ := Option.map_eq_some_iff.mp stepped
  intro now
  exact ((requested_of_move advanced).mp now).elim uncancelled plain

/-- A step of the executor that is not the end of a future. -/
theorem Invariant.step (invariant : Invariant branches state) (accounted : Accounted branches proxy)
    (plain : label ≠ .requestCancel branches.own)
    (goes : ∀ i, branches.finishes state.proxy label i = false)
    (stepped : branches.step state.proxy label = some proxy) :
    Invariant branches { state with proxy } := by
  refine ⟨accounted, uncancelled_of_step plain invariant.uncancelled stepped, fun i => ?_⟩
  obtain ⟨executor, _, rfl⟩ := Option.map_eq_some_iff.mp stepped
  simp [goes i, invariant.completed i]

theorem Invariant.endFuture (invariant : Invariant branches state)
    (accounted : Accounted branches proxy) (running : runs branches state i = true)
    (outcome : Except Exception (Value i))
    (stepped : branches.step state.proxy .complete = some proxy) :
    Invariant branches
      { state with proxy, futures := Function.update state.futures i (some outcome) } := by
  refine ⟨accounted, uncancelled_of_step (by simp) invariant.uncancelled stepped, fun j => ?_⟩
  obtain ⟨executor, _, rfl⟩ := Option.map_eq_some_iff.mp stepped
  by_cases own : j = i
  · subst own
    simp [finishes_eq, running]
  · have apart : branches.finishes state.proxy .complete j = false := by
      rw [finishes_eq]
      unfold runs at running ⊢
      split at running
      · simp only [Bool.and_eq_true, decide_eq_true_eq] at running
        have different : branches.base i ≠ branches.base j :=
          fun same => own (branches.distinct same).symm
        simp [running.1, different]
      · contradiction
    simp [apart, own, invariant.completed j]

theorem Invariant.move (invariant : Invariant branches state)
    {label : Label n Value Exception Handle Source}
    (moved : move branches state label = some next) : Invariant branches next := by
  have accounted := invariant.accounted
  cases label with
  | proxy label =>
      obtain ⟨permitted, moved⟩ := Option.ite_none_right_eq_some.mp moved
      obtain ⟨proxy, advanced, rfl⟩ := Option.map_eq_some_iff.mp moved
      have after := accounted.move advanced
      cases label with
      | executor label =>
          obtain ⟨allowed, stepped⟩ := Option.ite_none_right_eq_some.mp advanced
          refine invariant.step after (fun same => ?_) (fun i => ?_) stepped
          · simp [same, Branches.permits] at allowed
          · cases label with
            | complete =>
                simp only [permits, decide_eq_true_eq] at permitted
                exact (finishes_eq i).trans (permitted i)
            | _ => rfl
      | attach branch =>
          obtain ⟨_, stepped⟩ := Option.ite_none_right_eq_some.mp advanced
          exact invariant.step after (by simp) (fun _ => rfl) stepped
      | suspend =>
          obtain ⟨_, entered⟩ := Option.ite_none_right_eq_some.mp advanced
          cases entered
          exact ⟨after, invariant.uncancelled, invariant.completed⟩
      | cancel => cases permitted
      | resume =>
          obtain ⟨_, entered⟩ := Option.ite_none_right_eq_some.mp advanced
          cases entered
          exact ⟨after, invariant.uncancelled, invariant.completed⟩
  | endFuture i outcome =>
      obtain ⟨running, moved⟩ := Option.ite_none_right_eq_some.mp moved
      obtain ⟨proxy, stepped, rfl⟩ := Option.map_eq_some_iff.mp moved
      have after := accounted.goes (by simp) (by simp) stepped
      exact invariant.endFuture after running outcome stepped

theorem invariant_of_reachable
    (reachable : (machine Value Exception branches).Reachable Machine.free state) :
    Invariant branches state := by
  refine reachable.invariant ?_ fun state label next invariant _ moved => invariant.move moved
  intro first started
  cases started
  exact ⟨.initial _, nofun, fun _ => rfl⟩

/-- A coroutine ends once. -/
theorem Invariant.keeps (invariant : Invariant branches state)
    {label : Label n Value Exception Handle Source} {outcome : Except Exception (Value i)}
    (found : state.futures i = some outcome)
    (moved : JoinAll.move branches state label = some next) :
    next.futures i = some outcome := by
  cases label with
  | proxy label =>
      obtain ⟨_, moved⟩ := Option.ite_none_right_eq_some.mp moved
      obtain ⟨proxy, _, rfl⟩ := Option.map_eq_some_iff.mp moved
      exact found
  | endFuture j other =>
      obtain ⟨running, moved⟩ := Option.ite_none_right_eq_some.mp moved
      obtain ⟨proxy, _, rfl⟩ := Option.map_eq_some_iff.mp moved
      by_cases own : i = j
      · subst own
        have ended := invariant.accounted.ended i (by simp [invariant.completed i, found])
        unfold runs at running
        split at running
        · rename_i id current runs
          simp only [Bool.and_eq_true, decide_eq_true_eq] at running
          obtain ⟨rfl, rfl⟩ := running
          have alone := Executor.alone_of_running invariant.accounted.coherent runs
          cases alone.symm.trans ended
        · contradiction
      · simpa [own] using found

/-- Whatever the order in which the futures complete, the coroutine that has awaited the
`join_all` gets what each of them has ended with. -/
theorem outcomes_of_run
    (reachable : (machine Value Exception branches).Reachable Machine.free state)
    (run : (machine Value Exception branches).Run Machine.free state last)
    (resumed : last.proxy.parent = .resumed) :
    ∃ outcomes, last.awaitResume = some outcomes ∧
      ∀ i outcome, state.futures i = some outcome → outcomes i = outcome := by
  obtain ⟨reached, kept⟩ := run.reachable_preserves
    (fun later => ∀ i outcome, state.futures i = some outcome → later.futures i = some outcome)
    reachable (fun _ _ _ => trivial) (fun middle label next reached kept _ moved i outcome found =>
      (invariant_of_reachable reached).keeps (kept i outcome found) moved)
    (fun _ _ found => found)
  have invariant := invariant_of_reachable reached
  have completed (i : Fin n) : (last.futures i).isSome := by
    rw [← invariant.completed i]
    exact (invariant.accounted.resumed resumed i).resolve_right invariant.uncancelled
  refine ⟨_, dif_pos completed, fun i outcome found => ?_⟩
  simp [kept i outcome found]

/-- Two futures of which the second one completes first. -/
def secondFirst : List (Label 2 (fun _ => ℕ) Unit ℕ ℕ) :=
  [.proxy (.executor (.create 0)), .proxy (.executor (.create 1)), .proxy (.attach 0),
    .proxy (.attach 1), .proxy .suspend, .proxy (.executor (.execute 1)),
    .proxy (.executor .test), .endFuture 1 (.ok 7)]

/-- Then the first one throws. -/
def firstThrows : List (Label 2 (fun _ => ℕ) Unit ℕ ℕ) :=
  [.proxy (.executor .destroy), .proxy (.executor .test), .proxy (.executor .detach),
    .proxy (.executor (.execute 0)), .proxy (.executor .test), .endFuture 0 (.error ()),
    .proxy (.executor .destroy), .proxy (.executor .test), .proxy (.executor .detach),
    .proxy .resume]

theorem outcomes_of_run_second_first : ∃ state last : State 2 (fun _ => ℕ) Unit ℕ ℕ,
    state.futures 1 = some (.ok 7) ∧ ∃ outcomes, last.awaitResume = some outcomes ∧
      ∀ i outcome, state.futures i = some outcome → outcomes i = outcome := by
  let branches : Branches (Fin 2) ℕ ℕ := ⟨fun i => i, Fin.val_injective, [8], 9, by decide⟩
  obtain ⟨state, reachable, found, last, executed, resumed⟩ :=
    Machine.reachable_of_exec (machine (fun _ => ℕ) Unit branches) Machine.free
      (.initial _ Unit ℕ ℕ) secondFirst
      (fun state => state.futures 1 = some (.ok 7) ∧
        ∃ last, (machine (fun _ => ℕ) Unit branches).exec Machine.free state firstThrows =
          some last ∧ last.proxy.parent = .resumed)
      rfl ⟨_, rfl, rfl, _, rfl, rfl⟩
  exact ⟨state, last, found, outcomes_of_run reachable (Machine.exec_run executed) resumed⟩

end Asco.Task.JoinAll
