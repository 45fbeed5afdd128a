import Asco.Core.Task.ExecutionDomain.CancelSrcStack
import Asco.Core.Worker.RunOnce.Executions

namespace Asco.Core.Worker.NestDepth

open Foundation Asco.Core.Task
open Asco.Core.Worker.Tree (Frame CancelSource path)
open Asco.Core.Worker.RunOnce (Accounted)
open CancelSrcStack (attachExecution Recorded)

/-! # How deep domains are nested

The worker of `run_once` with the array of cancel sources of each execution.  An
attachment reads the array of the execution that makes it.
-/

structure State (Id : Type*) (nestMaxDepth : ℕ) where
  worker : RunOnce.State Id
  arrays : List Id → Id → CancelSrcStack (CancelSource Id) nestMaxDepth

/-- The arguments of a call of `attach_execution`. -/
structure Attaching (Id : Type*) where
  address : List Id
  id : Id
  parentSrcStack : List (Option (CancelSource Id))
  cancelSrc : CancelSource Id

variable {Id : Type*} {nestMaxDepth : ℕ}

/-- What the call does. -/
def Attaching.outcome (call : Attaching Id) (build : Build) (nestMaxDepth : ℕ) :
    Attachment (CancelSource Id) nestMaxDepth :=
  attachExecution build nestMaxDepth call.parentSrcStack call.cancelSrc

namespace State

variable (state : State Id nestMaxDepth)

/-- `current_cancel_source_stack`. -/
def currentCancelSourceStack : List (Option (CancelSource Id)) :=
  match state.worker.tree.stack with
  | [] => []
  | top :: rest => (state.arrays (path rest) top.id).getCancelSourceStack

/-- The call of `fetch_task` or of `execution_domain_proxy::attach_execution`. -/
def attaching : RunOnce.Label Id → Option (Attaching Id)
  | .fetch id _ => some { address := [], id, parentSrcStack := [], cancelSrc := .task id }
  | .attach address id => some
      { address, id, parentSrcStack := state.currentCancelSourceStack, cancelSrc := .proxy address }
  | _ => none

/-- How many executions are above the one that is attached. -/
def nestDepth : RunOnce.Label Id → ℕ
  | .attach _ _ => state.worker.tree.stack.length
  | _ => 0

variable [DecidableEq Id]

/-- `m_executions.insert`, which keeps an execution that is there. -/
def insert (worker : RunOnce.State Id) (address : List Id) (id : Id)
    (execution : CancelSrcStack (CancelSource Id) nestMaxDepth) : State Id nestMaxDepth where
  worker := worker
  arrays :=
    if id ∈ state.worker.tree.executions address then state.arrays
    else Function.update state.arrays address (Function.update (state.arrays address) id execution)

/-- A rejected attachment panics, and nothing is known of a program that has written behind
the array. -/
def move (build : Build) (label : RunOnce.Label Id) : Option (State Id nestMaxDepth) :=
  match state.attaching label with
  | none => (state.worker.move nestMaxDepth label).map fun worker => { state with worker }
  | some call =>
      match call.outcome build nestMaxDepth with
      | .attached execution =>
          (state.worker.move nestMaxDepth label).map fun worker =>
            state.insert worker call.address call.id execution
      | .rejected => none
      | .outOfBounds => none

end State

/-- A worker that has not fetched anything. -/
def machine (Id : Type*) [DecidableEq Id] (build : Build) (nestMaxDepth : ℕ) :
    Machine (State Id nestMaxDepth) (RunOnce.Label Id) where
  start state := ∃ current states, state.worker = .empty current states
  move state := state.move build

variable [DecidableEq Id]

/-- `join_all` and `select` attach executions to the domain that they have constructed
themselves, under new ids. -/
def OwnDomain (state : State Id nestMaxDepth) : RunOnce.Label Id → Prop
  | .attach address id => address = path state.worker.tree.stack ∧
      ∀ domain ∈ state.worker.tree.nested address, domain.scheduler.find id = none
  | _ => True

instance : DecidableRel (OwnDomain : State Id nestMaxDepth → RunOnce.Label Id → Prop)
  | _, .attach _ _ => inferInstanceAs (Decidable (_ ∧ ∀ _ ∈ _, _))
  | _, .fetch _ _ | _, .schedule _ | _, .visit _ | _, .suspend | _, .construct _ | _, .cancel _
  | _, .cancelTask _ | _, .awake _ _ | _, .await _ | _, .complete | _, .leave _ => isTrue trivial

/-- The array of every execution has its cancel sources, which are those of the execution
above it and the source of its domain. -/
structure Deep (state : State Id nestMaxDepth) : Prop where
  accounted : Accounted state.worker
  holds : ∀ place, ∀ id ∈ state.worker.tree.executions place,
    (state.arrays place id).Holds (state.worker.tree.cancelSrcStack place id)
  root : ∀ id ∈ state.worker.tree.executions [],
    state.worker.tree.cancelSrcStack [] id = [.task id]
  nested : ∀ parent above, ∀ id ∈ state.worker.tree.executions (parent :: above),
    state.worker.tree.cancelSrcStack (parent :: above) id =
      state.worker.tree.cancelSrcStack above parent ++ [.proxy (parent :: above)]

variable {state next : State Id nestMaxDepth} {worker : RunOnce.State Id} {address : List Id}
  {id : Id} {build : Build}

theorem Deep.parent_attached (deep : Deep state) {parent : Id} {above : List Id}
    (member : id ∈ state.worker.tree.executions (parent :: above)) :
    parent ∈ state.worker.tree.executions above := by
  obtain ⟨domain, present⟩ := deep.accounted.scheduled.sound.exists_domain member
  exact deep.accounted.scheduled.parent parent above (by rw [present]; rfl)

/-- An execution has one source for each execution above it and one for itself. -/
theorem Deep.length_sources (deep : Deep state)
    (member : id ∈ state.worker.tree.executions address) :
    (state.worker.tree.cancelSrcStack address id).length = address.length + 1 := by
  induction address generalizing id with
  | nil => rw [deep.root id member, List.length_singleton, List.length_nil]
  | cons parent above ih =>
      rw [deep.nested parent above id member, List.length_append, List.length_singleton,
        ih (deep.parent_attached member), List.length_cons]

/-- No execution is attached. -/
theorem Deep.kept (deep : Deep state) (accounted : Accounted worker)
    (fewer : ∀ place, worker.tree.executions place ⊆ state.worker.tree.executions place)
    (sources : worker.tree.cancelSrcStack = state.worker.tree.cancelSrcStack) :
    Deep { state with worker } where
  accounted := accounted
  holds place id member := by
    rw [sources]
    exact deep.holds place id (fewer place member)
  root id member := by
    rw [sources]
    exact deep.root id (fewer [] member)
  nested parent above id member := by
    rw [sources]
    exact deep.nested parent above id (fewer _ member)

theorem entry_self {Value : Type*} (entries : List Id → Id → Value) (address : List Id) (id : Id)
    (value : Value) :
    Function.update entries address (Function.update (entries address) id value) address id =
      value := by
  rw [Function.update_self, Function.update_self]

theorem entry_other {Value : Type*} (entries : List Id → Id → Value) {address place : List Id}
    {id other : Id} (value : Value) (apart : ¬ (place = address ∧ other = id)) :
    Function.update entries address (Function.update (entries address) id value) place other =
      entries place other := by
  by_cases here : place = address
  · subst here
    rw [Function.update_self, Function.update_of_ne fun same => apart ⟨rfl, same⟩]
  · rw [Function.update_of_ne here]

/-- An execution is attached with an array that has its sources. -/
theorem Deep.grown {execution : CancelSrcStack (CancelSource Id) nestMaxDepth}
    {sources : List (CancelSource Id)} (deep : Deep state) (accounted : Accounted worker)
    (fresh : id ∉ state.worker.tree.executions address)
    (members : ∀ place other, other ∈ worker.tree.executions place ↔
      place = address ∧ other = id ∨ other ∈ state.worker.tree.executions place)
    (recorded : worker.tree.cancelSrcStack = Function.update state.worker.tree.cancelSrcStack
      address (Function.update (state.worker.tree.cancelSrcStack address) id sources))
    (holds : execution.Holds sources)
    (task : address = [] → sources = [.task id])
    (proxy : ∀ parent above, address = parent :: above →
      sources = state.worker.tree.cancelSrcStack above parent ++ [.proxy address]) :
    Deep (state.insert worker address id execution) := by
  have arrays : (state.insert worker address id execution).arrays =
      Function.update state.arrays address (Function.update (state.arrays address) id execution) :=
    if_neg fresh
  have apart {place : List Id} {other : Id}
      (member : other ∈ state.worker.tree.executions place) : ¬ (place = address ∧ other = id) := by
    rintro ⟨rfl, rfl⟩
    exact fresh member
  have kept {place : List Id} {other : Id}
      (member : other ∈ state.worker.tree.executions place) :
      worker.tree.cancelSrcStack place other = state.worker.tree.cancelSrcStack place other := by
    rw [recorded, entry_other _ _ (apart member)]
  have own : worker.tree.cancelSrcStack address id = sources := by
    rw [recorded, entry_self]
  refine ⟨accounted, fun place other member => ?_, fun other member => ?_,
    fun parent above other member => ?_⟩
  · rw [arrays]
    change CancelSrcStack.Holds _ (worker.tree.cancelSrcStack place other)
    rcases (members place other).mp member with ⟨rfl, rfl⟩ | before
    · rw [entry_self, own]
      exact holds
    · rw [entry_other _ _ (apart before), kept before]
      exact deep.holds place other before
  · change worker.tree.cancelSrcStack [] other = _
    rcases (members [] other).mp member with ⟨rfl, rfl⟩ | before
    · rw [own, task rfl]
    · rw [kept before, deep.root other before]
  · change worker.tree.cancelSrcStack (parent :: above) other =
      worker.tree.cancelSrcStack above parent ++ _
    rcases (members _ other).mp member with ⟨rfl, rfl⟩ | before
    · have shorter : ¬ (above = parent :: above ∧ parent = other) := fun both =>
        absurd (congrArg List.length both.1) (by simp)
      rw [own, proxy parent above rfl, recorded, entry_other _ _ shorter]
    · rw [kept before, kept (deep.parent_attached before), deep.nested parent above other before]

/-! ## Every step -/

/-- The array that an attachment reads has the sources of the innermost execution. -/
theorem Deep.currentCancelSourceStack (deep : Deep state) {top : Frame Id}
    {rest : List (Frame Id)} (whole : state.worker.tree.stack = top :: rest) :
    state.currentCancelSourceStack =
      (state.worker.tree.cancelSrcStack (path rest) top.id).map some := by
  simp only [State.currentCancelSourceStack, whole]
  exact (deep.holds _ _ (deep.accounted.innermost whole)).getCancelSourceStack

theorem Deep.fetch {requested : Bool}
    {execution : CancelSrcStack (CancelSource Id) nestMaxDepth} (deep : Deep state)
    (attached : attachExecution build nestMaxDepth [] (.task id) = .attached execution)
    (fetches : state.worker.move nestMaxDepth (.fetch id requested) = some worker) :
    Deep (state.insert worker [] id execution) := by
  have attachesNew : RunOnce.AttachesNew state.worker (.fetch id requested) := trivial
  have accounted := (deep.accounted.step attachesNew fetches).1
  obtain ⟨_, attaches⟩ := Option.ite_none_left_eq_some.mp fetches
  have requests := deep.accounted.request
    (Function.update state.worker.tree.requested (.task id) requested)
  have grown := requests.attach_grown (fun domain present =>
    nomatch deep.accounted.scheduled.sound.rootless.symm.trans present) attaches
  have recorded := congrArg Tree.State.cancelSrcStack grown.rest
  have sources : ([] : List (Option (CancelSource Id))) = ([] : List (CancelSource Id)).map some :=
    rfl
  rw [sources] at attached
  exact deep.grown accounted grown.fresh (fun place other => grown.mem_executions) recorded
    (CancelSrcStack.holds_of_attached attached) (fun _ => rfl) nofun

theorem Deep.attach {execution : CancelSrcStack (CancelSource Id) nestMaxDepth} (deep : Deep state)
    (own : OwnDomain state (.attach address id))
    (attached : attachExecution build nestMaxDepth state.currentCancelSourceStack
      (.proxy address) = .attached execution)
    (moves : state.worker.move nestMaxDepth (.attach address id) = some worker) :
    Deep (state.insert worker address id execution) := by
  obtain ⟨rfl, unlisted⟩ := own
  have attachesNew : RunOnce.AttachesNew state.worker
    (.attach (path state.worker.tree.stack) id) := unlisted
  have accounted := (deep.accounted.step attachesNew moves).1
  simp only [RunOnce.State.move] at moves
  split at moves
  · rename_i top rest executing whole
    obtain ⟨_, attaches⟩ := Option.ite_none_left_eq_some.mp moves
    have grown := deep.accounted.attach_grown unlisted attaches
    have recorded := congrArg Tree.State.cancelSrcStack grown.rest
    rw [deep.currentCancelSourceStack whole] at attached
    have innermost : path state.worker.tree.stack = top.id :: path rest := by
      rw [whole]
      rfl
    refine deep.grown accounted grown.fresh (fun place other => grown.mem_executions) recorded
      (CancelSrcStack.holds_of_attached attached) (fun root => ?_) fun parent above same => ?_
    · rw [innermost] at root
      contradiction
    · obtain ⟨rfl, rfl⟩ := List.cons.inj (innermost.symm.trans same)
      rfl
  · contradiction

theorem Deep.step {label : RunOnce.Label Id} (deep : Deep state) (own : OwnDomain state label)
    (moved : state.move build label = some next) : Deep next := by
  have others (fetches : ∀ id requested, label ≠ .fetch id requested)
      (attaches : ∀ address id, label ≠ .attach address id)
      (moves : (state.worker.move nestMaxDepth label).map
        (fun worker => { state with worker }) = some next) : Deep next := by
    obtain ⟨worker, taken, rfl⟩ := Option.map_eq_some_iff.mp moves
    obtain ⟨accounted, turns⟩ := deep.accounted.move_turns fetches attaches taken
    obtain ⟨fewer, sources⟩ := RunOnce.fewer_of_turns turns
    exact deep.kept accounted fewer sources
  cases label with
  | fetch id requested =>
      simp only [State.move, State.attaching, Attaching.outcome] at moved
      split at moved
      · rename_i execution attached
        obtain ⟨worker, fetches, rfl⟩ := Option.map_eq_some_iff.mp moved
        exact deep.fetch attached fetches
      · contradiction
      · contradiction
  | attach address id =>
      simp only [State.move, State.attaching, Attaching.outcome] at moved
      split at moved
      · rename_i execution attached
        obtain ⟨worker, moves, rfl⟩ := Option.map_eq_some_iff.mp moved
        exact deep.attach own attached moves
      · contradiction
      · contradiction
  | _ => exact others nofun nofun moved

theorem deep_of_reachable
    (reachable : (machine Id build nestMaxDepth).Reachable OwnDomain state) : Deep state := by
  apply reachable.invariant
  · rintro ⟨worker, arrays⟩ ⟨current, states, rfl⟩
    exact
      { accounted := RunOnce.accounted_empty current states
        holds := fun place id member => absurd member (Finset.notMem_empty id)
        root := fun id member => absurd member (Finset.notMem_empty id)
        nested := fun parent above id member => absurd member (Finset.notMem_empty id) }
  · intro state label next deep own moved
    exact deep.step own moved

/-- An attachment writes into the array only and records the sources of the executions above,
or is rejected, exactly if the assertion is compiled in or the new execution is nested less
deeply than the bound; and every execution that was attached has its sources in its array. -/
theorem nest_depth_recorded_iff
    (reachable : (machine Id build nestMaxDepth).Reachable OwnDomain state) :
    (∀ place, ∀ id ∈ state.worker.tree.executions place, ∃ sources,
      (state.arrays place id).Holds sources ∧ sources.length = place.length + 1) ∧
    ∀ label call, state.attaching label = some call → ∃ sources : List (CancelSource Id),
      call.parentSrcStack = sources.map some ∧ sources.length = state.nestDepth label ∧
        (Recorded sources call.cancelSrc (call.outcome build nestMaxDepth) ↔
          build = .debug ∨ state.nestDepth label < nestMaxDepth) := by
  have deep := deep_of_reachable reachable
  refine ⟨fun place id member => ⟨_, deep.holds place id member, deep.length_sources member⟩,
    fun label call calls => ?_⟩
  have known : ∃ sources : List (CancelSource Id), call.parentSrcStack = sources.map some ∧
      sources.length = state.nestDepth label := by
    cases label with
    | fetch id requested =>
        cases calls
        exact ⟨[], rfl, rfl⟩
    | attach address id =>
        cases calls
        cases whole : state.worker.tree.stack with
        | nil => exact ⟨[], by simp [State.currentCancelSourceStack, whole], by
            simp [State.nestDepth, whole]⟩
        | cons top rest =>
            refine ⟨_, deep.currentCancelSourceStack whole, ?_⟩
            rw [deep.length_sources (deep.accounted.innermost whole), State.nestDepth, whole]
            simp [path]
    | _ => contradiction
  obtain ⟨sources, same, length⟩ := known
  refine ⟨sources, same, length, ?_⟩
  rw [Attaching.outcome, same, CancelSrcStack.recorded_iff, length]

def started (nestMaxDepth : ℕ) : State ℕ nestMaxDepth :=
  ⟨.empty ⟨0, 0⟩ fun _ => .active, fun _ _ => ⟨fun _ => none, 0⟩⟩

/-- The executions from 0 to `depth` are scheduled, each in the domain of the one before. -/
def entered (depth : ℕ) : List (RunOnce.Label ℕ) :=
  .schedule 0 :: List.replicate (depth + 1) (.visit 0)

/-- The last of them constructs a domain and attaches the next one. -/
def joined (depth : ℕ) : List (RunOnce.Label ℕ) :=
  entered depth ++
    [.construct 1, .attach (List.range (depth + 1)).reverse (depth + 1), .leave 0]

/-- The task 0 with `depth` executions below one another, the last of which runs. -/
def nested (depth : ℕ) : List (RunOnce.Label ℕ) :=
  .fetch 0 false :: (List.range depth).flatMap joined ++ entered depth

/-- The cancel sources of the last one. -/
def sourcesOf (depth : ℕ) : List (CancelSource ℕ) :=
  .task 0 :: (List.range depth).map fun level => .proxy (List.range (level + 1)).reverse

theorem nest_depth_recorded_once : ∃ state : State ℕ 8, ∃ call : Attaching ℕ,
    (machine ℕ .ndebug 8).Reachable OwnDomain state ∧
      state.nestDepth (.attach [1, 0] 2) = 2 ∧ state.attaching (.attach [1, 0] 2) = some call ∧
      call.parentSrcStack = (sourcesOf 1).map some ∧
      Recorded (sourcesOf 1) call.cancelSrc (call.outcome .ndebug 8) := by
  obtain ⟨state, reachable, depth, current⟩ :=
    Machine.reachable_of_exec (machine ℕ .ndebug 8) OwnDomain (started 8) (nested 1)
      (fun state => state.worker.tree.stack.length = 2 ∧
        state.currentCancelSourceStack = (sourcesOf 1).map some)
      ⟨_, _, rfl⟩ ⟨_, rfl, rfl, rfl⟩
  obtain ⟨sources, same, _, iff⟩ :=
    (nest_depth_recorded_iff reachable).2 (.attach [1, 0] 2) _ rfl
  have recorded := iff.mpr (.inr (by rw [State.nestDepth, depth]; decide))
  obtain rfl : sources = sourcesOf 1 :=
    List.map_injective_iff.mpr (Option.some_injective _) (same.symm.trans current)
  exact ⟨state, _, reachable, depth, rfl, current, recorded⟩

/-- Without the assertion the ninth execution below one another is attached with a null pointer
behind the array. -/
theorem attach_out_of_bounds : ∃ state : State ℕ 8, ∃ call : Attaching ℕ,
    (machine ℕ .ndebug 8).Reachable OwnDomain state ∧ state.worker.tree.phase = .executing ∧
      state.nestDepth (.attach [7, 6, 5, 4, 3, 2, 1, 0] 8) = 8 ∧
      state.attaching (.attach [7, 6, 5, 4, 3, 2, 1, 0] 8) = some call ∧
      ∀ sources, ¬ Recorded sources call.cancelSrc (call.outcome .ndebug 8) := by
  obtain ⟨state, reachable, executing, depth, current⟩ :=
    Machine.reachable_of_any (machine ℕ .ndebug 8) OwnDomain (started 8) (nested 7)
      (fun state => state.worker.tree.phase = .executing ∧ state.worker.tree.stack.length = 8 ∧
        state.currentCancelSourceStack = (sourcesOf 7).map some)
      ⟨_, _, rfl⟩ (by decide +kernel)
  refine ⟨state, _, reachable, executing, depth, rfl, fun sources recorded => ?_⟩
  rw [Attaching.outcome, current] at recorded
  exact recorded

end Asco.Core.Worker.NestDepth
