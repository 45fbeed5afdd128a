import Asco.Foundation.Machine

namespace Asco.Core.Daemon

open Foundation

/-! # `daemon`

The thread of a daemon, its owner, who starts and joins it, and any threads that awake
it.  `run_once` may sleep and return as it likes.
-/

/-- A call of a virtual function by the thread of the daemon. -/
inductive Event where
  | init (succeeds : Bool)
  | runOnce
  | shutdown
deriving DecidableEq

/-- Where the thread of the daemon is.  In `runOnce` and `sleeping` it has slept that many
times since the call of `run_once`. -/
inductive ThreadPc where
  | unstarted
  | arrive
  | wait
  | setName
  | init
  | release (succeeds : Bool)
  | test
  | runOnce (slept : ℕ)
  | sleeping (slept : ℕ)
  | shutdown
  | exited
deriving DecidableEq

/-- Where the owner is, in `start`, in the destructor of the `init_waiter`, in `join`, or
`outside` before and `idle` after `start`. -/
inductive OwnerPc where
  | outside
  | assign
  | arrive
  | wait
  | acquire
  | idle
  | requestStop
  | release
  | joining
deriving DecidableEq

/-- `arrived` counts the arrivals at `m_b`, `assigned` says that `m_dthread` is the thread,
and `derived` that the members of the derived class are alive; `stray` says that a virtual
function was called when they were not. -/
structure State where
  arrived : ℕ
  assigned : Bool
  stopRequested : Bool
  initSem : ℕ
  sem : ℕ
  joined : Bool
  thread : ThreadPc
  owner : OwnerPc
  derived : Bool
  history : List Event
  stray : Bool
deriving DecidableEq

/-- `thread` and `owner` are the next steps of the two, the former with what `init` or
`run_once` returns; `sleep` and `timeOut` are what `run_once` does besides. -/
inductive Label where
  | start
  | join
  | destroyDerived
  | owner
  | thread (returns : Bool)
  | sleep
  | timeOut
  | awake
deriving DecidableEq

namespace State

def constructed : State where
  arrived := 0
  assigned := false
  stopRequested := false
  initSem := 0
  sem := 0
  joined := false
  thread := .unstarted
  owner := .outside
  derived := true
  history := []
  stray := false

variable (state : State)

def call (event : Event) (thread : ThreadPc) : State :=
  { state with
    thread
    history := state.history ++ [event]
    stray := state.stray || !state.derived }

/-- The function of the thread. -/
def threadStep (returns : Bool) : Option State :=
  match state.thread with
  | .arrive => some { state with arrived := state.arrived + 1, thread := .wait }
  | .wait => if 2 ≤ state.arrived then some { state with thread := .setName } else none
  | .setName => some { state with thread := .init }
  | .init => some (state.call (.init returns) (.release returns))
  | .release succeeds =>
      some { state with
        initSem := state.initSem + 1
        thread := if succeeds then .test else .shutdown }
  | .test =>
      if state.stopRequested then some { state with thread := .shutdown }
      else some (state.call .runOnce (.runOnce 0))
  | .runOnce _ => some { state with thread := if returns then .test else .shutdown }
  | .sleeping slept =>
      if 0 < state.sem then
        some { state with sem := state.sem - 1, thread := .runOnce (slept + 1) }
      else none
  | .shutdown => some (state.call .shutdown .exited)
  | .unstarted | .exited => none

/-- `start` after the thread is there, the destructor of the `init_waiter`, and `join`. -/
def ownerStep : Option State :=
  match state.owner with
  | .assign => some { state with assigned := true, owner := .arrive }
  | .arrive => some { state with arrived := state.arrived + 1, owner := .wait }
  | .wait => if 2 ≤ state.arrived then some { state with owner := .acquire } else none
  | .acquire =>
      if 0 < state.initSem then some { state with initSem := state.initSem - 1, owner := .idle }
      else none
  | .requestStop => some { state with stopRequested := true, owner := .release }
  | .release => some { state with sem := state.sem + 1, owner := .joining }
  | .joining =>
      if state.thread = .exited then some { state with joined := true, owner := .idle } else none
  | .outside | .idle => none

def move : Label → Option State
  | .start =>
      if state.owner = .outside ∧ state.derived = true then
        some { state with thread := .arrive, owner := .assign }
      else none
  | .join =>
      match state.owner with
      | .outside => some state
      | .idle => if state.joined then some state else some { state with owner := .requestStop }
      | _ => none
  | .destroyDerived =>
      if state.owner = .outside ∨ state.owner = .idle then some { state with derived := false }
      else none
  | .owner => state.ownerStep
  | .thread returns => state.threadStep returns
  | .sleep =>
      match state.thread with
      | .runOnce slept => some { state with thread := .sleeping slept }
      | _ => none
  | .timeOut =>
      match state.thread with
      | .sleeping slept => some { state with thread := .runOnce (slept + 1) }
      | _ => none
  | .awake => some { state with sem := state.sem + 1 }

/-- The branches of `threadStep`. -/
inductive ThreadStep (state : State) (returns : Bool) : State → Prop where
  | arrive (here : state.thread = .arrive) :
      ThreadStep state returns { state with arrived := state.arrived + 1, thread := .wait }
  | wait (here : state.thread = .wait) (arrived : 2 ≤ state.arrived) :
      ThreadStep state returns { state with thread := .setName }
  | setName (here : state.thread = .setName) :
      ThreadStep state returns { state with thread := .init }
  | init (here : state.thread = .init) :
      ThreadStep state returns (state.call (.init returns) (.release returns))
  | release {succeeds : Bool} (here : state.thread = .release succeeds) :
      ThreadStep state returns { state with
        initSem := state.initSem + 1
        thread := if succeeds then .test else .shutdown }
  | stops (here : state.thread = .test) (requested : state.stopRequested = true) :
      ThreadStep state returns { state with thread := .shutdown }
  | runs (here : state.thread = .test) (unrequested : state.stopRequested = false) :
      ThreadStep state returns (state.call .runOnce (.runOnce 0))
  | runOnce {slept : ℕ} (here : state.thread = .runOnce slept) :
      ThreadStep state returns { state with thread := if returns then .test else .shutdown }
  | sleeping {slept : ℕ} (here : state.thread = .sleeping slept) (permit : 0 < state.sem) :
      ThreadStep state returns
        { state with sem := state.sem - 1, thread := .runOnce (slept + 1) }
  | shutdown (here : state.thread = .shutdown) :
      ThreadStep state returns (state.call .shutdown .exited)

/-- The branches of `ownerStep`. -/
inductive OwnerStep (state : State) : State → Prop where
  | assign (here : state.owner = .assign) :
      OwnerStep state { state with assigned := true, owner := .arrive }
  | arrive (here : state.owner = .arrive) :
      OwnerStep state { state with arrived := state.arrived + 1, owner := .wait }
  | wait (here : state.owner = .wait) (arrived : 2 ≤ state.arrived) :
      OwnerStep state { state with owner := .acquire }
  | acquire (here : state.owner = .acquire) (permit : 0 < state.initSem) :
      OwnerStep state { state with initSem := state.initSem - 1, owner := .idle }
  | requestStop (here : state.owner = .requestStop) :
      OwnerStep state { state with stopRequested := true, owner := .release }
  | release (here : state.owner = .release) :
      OwnerStep state { state with sem := state.sem + 1, owner := .joining }
  | joining (here : state.owner = .joining) (exited : state.thread = .exited) :
      OwnerStep state { state with joined := true, owner := .idle }

variable {state} {next : State}

theorem threadStep_cases {returns : Bool} (moved : state.threadStep returns = some next) :
    ThreadStep state returns next := by
  unfold threadStep at moved
  split at moved
  · cases moved
    exact .arrive ‹_›
  · obtain ⟨arrived, ⟨⟩⟩ := Option.ite_none_right_eq_some.mp moved
    exact .wait ‹_› arrived
  · cases moved
    exact .setName ‹_›
  · cases moved
    exact .init ‹_›
  · cases moved
    exact .release ‹_›
  · split at moved <;> cases moved
    · exact .stops ‹_› ‹_›
    · rename_i here unrequested
      exact .runs here (by simpa using unrequested)
  · cases moved
    exact .runOnce ‹_›
  · obtain ⟨permit, ⟨⟩⟩ := Option.ite_none_right_eq_some.mp moved
    exact .sleeping ‹_› permit
  · cases moved
    exact .shutdown ‹_›
  · contradiction
  · contradiction

theorem ownerStep_cases (moved : state.ownerStep = some next) : OwnerStep state next := by
  unfold ownerStep at moved
  split at moved
  · cases moved
    exact .assign ‹_›
  · cases moved
    exact .arrive ‹_›
  · obtain ⟨arrived, ⟨⟩⟩ := Option.ite_none_right_eq_some.mp moved
    exact .wait ‹_› arrived
  · obtain ⟨permit, ⟨⟩⟩ := Option.ite_none_right_eq_some.mp moved
    exact .acquire ‹_› permit
  · cases moved
    exact .requestStop ‹_›
  · cases moved
    exact .release ‹_›
  · obtain ⟨exited, ⟨⟩⟩ := Option.ite_none_right_eq_some.mp moved
    exact .joining ‹_› exited
  · contradiction
  · contradiction

end State

def machine : Machine State Label where
  start state := state = .constructed
  move := State.move

end Asco.Core.Daemon
