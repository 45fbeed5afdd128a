import Asco.Core.Task.ExecutionDomainProxy

namespace Asco.Task.Select

open Foundation Asco.Core.Task
open Asco.Core.Task.Executor (handleStacks)

/-! # `select`

The branches of a `select` and the exchange by which one of them wins.  The executor
runs one of the executions of the domain at a time, and other threads may request the
cancellation of the task meanwhile.
-/

/-- The coroutine of `select_impl<i>` awaits the future `fut` of its function, whose
coroutine is `inner i`. -/
structure Coroutines (n : ℕ) (Handle Source : Type*) extends
    ExecutionDomainProxy.Branches (Fin n) Handle Source where
  inner : Fin n → Handle
  different : ∀ i, inner i ≠ base i

/-- Where `select_impl` is.  `won` is between the exchange and `m_domain.cancel()`, and
`returning` before the `co_return` or the rethrow. -/
inductive Pc where
  | start
  | awaiting
  | won
  | returning
  | spinning
  | ended
deriving DecidableEq

/-- `results` are the values and exceptions that the coroutines of the functions have ended
with, and `futures` are those of `m_futures`.  Without a branch, `m_complete_branch` has the
largest `std::size_t`. -/
structure State (n : ℕ) (Value : Fin n → Type*) (Exception Handle Source : Type*) where
  proxy : ExecutionDomainProxy.State (Fin n) Handle Source
  pcs : Fin n → Pc
  results : (i : Fin n) → Option (Except Exception (Value i))
  futures : (i : Fin n) → Option (Except Exception (Value i))
  completeBranch : Option (Fin n)

/-- `endFuture` is the end of the coroutine of a function, and the labels after it are the
steps of `select_impl`. -/
inductive Label (n : ℕ) (Value : Fin n → Type*) (Exception Handle Source : Type*) where
  | proxy (label : ExecutionDomainProxy.Label (Fin n) Handle Source)
  | endFuture (i : Fin n) (outcome : Except Exception (Value i))
  | awaitFuture (i : Fin n)
  | exchange (i : Fin n)
  | cancel (i : Fin n)
  | coReturn (i : Fin n)
  | yield (i : Fin n)

variable {n : ℕ} {Value : Fin n → Type*} {Exception Handle Source : Type*}

def State.initial (Value : Fin n → Type*) (Exception Handle Source : Type*) :
    State n Value Exception Handle Source where
  proxy := .initial (Fin n) Handle Source
  pcs _ := .start
  results _ := none
  futures _ := none
  completeBranch := none

/-- `await_resume`, which asserts that a branch has completed. -/
def State.awaitResume (state : State n Value Exception Handle Source) :
    Option ((i : Fin n) × Except Exception (Value i)) :=
  state.completeBranch.bind fun i => (state.futures i).map fun outcome => ⟨i, outcome⟩

variable [DecidableEq Handle] [DecidableEq Source]

namespace Coroutines

variable (coroutines : Coroutines n Handle Source) (state : State n Value Exception Handle Source)

/-- The coroutine runs, in the execution of the branch. -/
def runs (handle : Handle) (i : Fin n) : Bool :=
  match state.proxy.executor.phase with
  | .running id current => id = coroutines.base i && current = handle
  | _ => false

/-- `select_impl` and the ends of the awaited coroutines have labels of their own, nobody
else has the futures that `select_impl` is given, and only `select_impl` cancels. -/
def permits : ExecutionDomainProxy.Label (Fin n) Handle Source → Bool
  | .cancel => false
  | .executor label =>
      match label, state.proxy.executor.phase with
      | .await handle, .running id current =>
          id ≠ current && decide (∀ i, state.pcs i = .start → handle ≠ coroutines.inner i)
      | .suspend, .running id current => id ≠ current
      | .complete, .running id current =>
          id ≠ current && decide (∀ i, id = coroutines.base i → current ≠ coroutines.inner i)
      | _, _ => true
  | _ => true

def move : Label n Value Exception Handle Source → Option (State n Value Exception Handle Source)
  | .proxy label =>
      if coroutines.permits state label then
        (coroutines.toBranches.move state.proxy label).map fun proxy => { state with proxy }
      else none
  | .endFuture i outcome =>
      if coroutines.runs state (coroutines.inner i) i then
        (coroutines.step state.proxy .complete).map fun proxy =>
          { state with
            proxy
            results := Function.update state.results i (some outcome) }
      else none
  | .awaitFuture i =>
      if coroutines.runs state (coroutines.base i) i ∧ state.pcs i = .start then
        (coroutines.step state.proxy (.await (coroutines.inner i))).map fun proxy =>
          { state with proxy, pcs := Function.update state.pcs i .awaiting }
      else none
  | .exchange i =>
      if coroutines.runs state (coroutines.base i) i ∧ state.pcs i = .awaiting then
        match state.completeBranch with
        | none =>
            some { state with
              completeBranch := some i
              pcs := Function.update state.pcs i .won }
        | some _ => some { state with pcs := Function.update state.pcs i .spinning }
      else none
  | .cancel i =>
      if coroutines.runs state (coroutines.base i) i ∧ state.pcs i = .won then
        (coroutines.toBranches.move state.proxy .cancel).map fun proxy =>
          { state with proxy, pcs := Function.update state.pcs i .returning }
      else none
  | .coReturn i =>
      if coroutines.runs state (coroutines.base i) i ∧ state.pcs i = .returning then
        (coroutines.step state.proxy .complete).map fun proxy =>
          { state with
            proxy
            futures := Function.update state.futures i (state.results i)
            pcs := Function.update state.pcs i .ended }
      else none
  | .yield i =>
      if coroutines.runs state (coroutines.base i) i ∧ state.pcs i = .spinning then
        (coroutines.step state.proxy .suspend).map fun proxy => { state with proxy }
      else none

end Coroutines

def machine (Value : Fin n → Type*) (Exception : Type*) (coroutines : Coroutines n Handle Source) :
    Machine (State n Value Exception Handle Source) (Label n Value Exception Handle Source) where
  start state := state = .initial Value Exception Handle Source
  move := coroutines.move

end Asco.Task.Select
