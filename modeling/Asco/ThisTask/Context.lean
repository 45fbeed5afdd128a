import Asco.ThisTask

namespace Asco.ThisTask

open Foundation Asco.Core.Worker
open Asco.Core.Worker.Tree (Frame path Keeps Grown)
open Asco.Core.Worker.RunOnce (Accounted Stays Ends)

/-! # Whose context is found

The entries are those of the executions of the root domain, and an execution that is
nested in another one is in no root domain.
-/

variable {Id Storage : Type*} [DecidableEq Id]

/-- Every execution is attached to one domain, and the root domain has those with an entry. -/
structure Contexted (state : State Id Storage) : Prop where
  accounted : Accounted state.worker
  entries : ∀ id, (state.coroutineMetas id).isSome = true ↔ id ∈ state.worker.tree.executions []
  spawned : ∀ id ∈ state.worker.tree.executions [], state.coroutineMetas id = state.spawned id
  known : ∀ place, ∀ id ∈ state.worker.tree.executions place, id ∈ state.handles
  once : ∀ id place other, id ∈ state.worker.tree.executions place →
    id ∈ state.worker.tree.executions other → place = other

variable {state next : State Id Storage} {worker : RunOnce.State Id} {address : List Id} {id : Id}

/-- No execution has come to its end. -/
theorem Contexted.kept (contexted : Contexted state) (accounted : Accounted worker)
    (keeps : Keeps state.worker.tree worker.tree) : Contexted { state with worker } where
  accounted := accounted
  entries id := (contexted.entries id).trans (by rw [keeps.root])
  spawned id member := contexted.spawned id (keeps.fewer [] member)
  known place id member := contexted.known place id (keeps.fewer place member)
  once id place other here there :=
    contexted.once id place other (keeps.fewer place here) (keeps.fewer other there)

/-- The innermost execution has come to its end, and so has its entry if it has one. -/
theorem Contexted.ended {top : Frame Id} {rest : List (Frame Id)} (contexted : Contexted state)
    (accounted : Accounted worker) (ends : Ends state.worker worker top rest) :
    Contexted { state with
      worker
      coroutineMetas := Function.update state.coroutineMetas top.id none
      handles := state.handles.erase top.id } := by
  obtain ⟨whole, ⟨fewer, gone, root⟩, _⟩ := ends
  have innermost := contexted.accounted.innermost whole
  have differs : ∀ place, ∀ id ∈ worker.tree.executions place, id ≠ top.id := by
    rintro place id member rfl
    obtain rfl := contexted.once _ _ _ (fewer place member) innermost
    exact gone member
  refine ⟨accounted, fun id => ?_, fun id member => ?_, fun place id member => ?_,
    fun id place other here there => ?_⟩
  · by_cases same : id = top.id
    · subst same
      refine iff_of_false ?_ fun member => differs [] _ member rfl
      simp
    · have entry := contexted.entries id
      simp only [Function.update_of_ne same]
      rw [entry]
      exact ⟨fun member => root id member fun both => same both.2, fun member => fewer [] member⟩
  · simp only [Function.update_of_ne (differs [] id member)]
    exact contexted.spawned id (fewer [] member)
  · exact Finset.mem_erase.mpr
      ⟨differs place id member, contexted.known place id (fewer place member)⟩
  · exact contexted.once id place other (fewer place here) (fewer other there)

/-- An execution under a new handle. -/
theorem Contexted.once_grown (contexted : Contexted state) (fresh : id ∉ state.handles)
    (grown : ∀ place other, other ∈ worker.tree.executions place ↔
      place = address ∧ other = id ∨ other ∈ state.worker.tree.executions place) :
    (∀ place, ∀ other ∈ worker.tree.executions place, other ∈ insert id state.handles) ∧
      ∀ other place second, other ∈ worker.tree.executions place →
        other ∈ worker.tree.executions second → place = second := by
  have unknown : ∀ place, id ∉ state.worker.tree.executions place := fun place member =>
    fresh (contexted.known place id member)
  refine ⟨fun place other member => ?_, fun other place second here there => ?_⟩
  · rcases (grown place other).mp member with ⟨_, rfl⟩ | before
    · exact Finset.mem_insert_self _ _
    · exact Finset.mem_insert_of_mem (contexted.known place other before)
  · rcases (grown place other).mp here with ⟨rfl, rfl⟩ | before
    · rcases (grown second other).mp there with ⟨rfl, _⟩ | before
      · rfl
      · exact absurd before (unknown second)
    · rcases (grown second other).mp there with ⟨_, rfl⟩ | after
      · exact absurd before (unknown place)
      · exact contexted.once other place second before after

theorem Contexted.attached (contexted : Contexted state) (accounted : Accounted worker)
    (nested : address ≠ []) (fresh : id ∉ state.handles)
    (grown : ∀ place other, other ∈ worker.tree.executions place ↔
      place = address ∧ other = id ∨ other ∈ state.worker.tree.executions place) :
    Contexted { state with worker, handles := insert id state.handles } := by
  have root (other : Id) : other ∈ worker.tree.executions [] ↔
      other ∈ state.worker.tree.executions [] := by
    rw [grown]
    exact or_iff_right fun both => nested both.1.symm
  obtain ⟨known, once⟩ := contexted.once_grown fresh grown
  exact ⟨accounted, fun other => (contexted.entries other).trans (root other).symm,
    fun other member => contexted.spawned other ((root other).mp member), known, once⟩

theorem Contexted.fetched (contexted : Contexted state) (accounted : Accounted worker)
    (coroutineMeta : CoroutineMeta Storage) (fresh : id ∉ state.handles)
    (grown : ∀ place other, other ∈ worker.tree.executions place ↔
      place = [] ∧ other = id ∨ other ∈ state.worker.tree.executions place) :
    Contexted (state.fetched worker id coroutineMeta) := by
  obtain ⟨known, once⟩ := contexted.once_grown fresh grown
  have vacant : ¬ (state.coroutineMetas id).isSome = true := fun present =>
    fresh (contexted.known [] id ((contexted.entries id).mp present))
  have metas : (state.fetched worker id coroutineMeta).coroutineMetas =
      Function.update state.coroutineMetas id (some coroutineMeta) := if_neg vacant
  refine ⟨accounted, fun other => ?_, fun other member => ?_, known, once⟩
  · rw [metas]
    refine Iff.trans ?_ (grown [] other).symm
    by_cases same : other = id
    · subst same
      simp
    · simp [same, contexted.entries]
  · rw [metas]
    change _ = Function.update state.spawned id (some coroutineMeta) other
    rcases (grown [] other).mp member with ⟨_, rfl⟩ | before
    · rw [Function.update_self, Function.update_self]
    · have same : other ≠ id := by
        rintro rfl
        exact fresh (contexted.known [] other before)
      rw [Function.update_of_ne same, Function.update_of_ne same]
      exact contexted.spawned other before

/-! ## Every step -/

theorem State.turned_of_finished (accounted : Accounted state.worker)
    (same : worker.finished = state.worker.finished) :
    state.turned worker = { state with worker } := by
  unfold State.turned
  split
  · rfl
  · rename_i top rest whole
    have running : state.worker.tree.phase ≠ .idle := fun idle =>
      List.cons_ne_nil top rest (whole.symm.trans (accounted.idle.mp idle))
    rw [same, (accounted.taken running).2.2]
    rfl

theorem State.turned_of_stays (stays : Stays state.worker worker) :
    state.turned worker = { state with worker } := by
  unfold State.turned
  split
  · rfl
  · rw [stays.finished]
    rfl

theorem State.turned_of_ends {top : Frame Id} {rest : List (Frame Id)}
    (ends : Ends state.worker worker top rest) : state.turned worker =
      { state with
        worker
        coroutineMetas := Function.update state.coroutineMetas top.id none
        handles := state.handles.erase top.id } := by
  simp only [State.turned, ends.whole, ends.finished, if_true]

theorem Contexted.turned (contexted : Contexted state) (accounted : Accounted worker)
    (turns : RunOnce.Turns state.worker worker) : Contexted (state.turned worker) := by
  rcases turns with stays | ⟨top, rest, ends⟩
  · rw [State.turned_of_stays stays]
    exact contexted.kept accounted stays.keeps
  · rw [State.turned_of_ends ends]
    exact contexted.ended accounted ends

/-- What is neither fetched nor attached. -/
theorem Contexted.other {maxDepth : ℕ} {label : RunOnce.Label Id} (contexted : Contexted state)
    (fetches : ∀ id requested, label ≠ .fetch id requested)
    (attaches : ∀ address id, label ≠ .attach address id)
    (moved : state.worker.move maxDepth label = some worker) : Contexted (state.turned worker) := by
  obtain ⟨accounted, turns⟩ := contexted.accounted.move_turns fetches attaches moved
  rcases turns with turns | ⟨keeps, same⟩
  · exact contexted.turned accounted turns
  · rw [State.turned_of_finished contexted.accounted same]
    exact contexted.kept accounted keeps

theorem Contexted.step {maxDepth : ℕ} {label : Label Id Storage} (contexted : Contexted state)
    (distinct : Distinct state label) (moved : state.move maxDepth label = some next) :
    Contexted next := by
  unfold State.move at moved
  split at moved
  · rename_i id requested coroutineMeta
    obtain ⟨worker, fetches, rfl⟩ := Option.map_eq_some_iff.mp moved
    have attachesNew : RunOnce.AttachesNew state.worker (.fetch id requested) := trivial
    have accounted := (contexted.accounted.step attachesNew fetches).1
    obtain ⟨_, attaches⟩ := Option.ite_none_left_eq_some.mp fetches
    have requests := contexted.accounted.request
      (Function.update state.worker.tree.requested (.task id) requested)
    have grown := requests.attach_grown (fun domain present =>
      nomatch contexted.accounted.scheduled.sound.rootless.symm.trans present) attaches
    exact contexted.fetched accounted coroutineMeta distinct fun place other => grown.mem_executions
  · contradiction
  · rename_i address id
    obtain ⟨worker, moves, rfl⟩ := Option.map_eq_some_iff.mp moved
    obtain ⟨nested, fresh, unlisted⟩ := distinct
    have attachesNew : RunOnce.AttachesNew state.worker (.attach address id) := unlisted
    have accounted := (contexted.accounted.step attachesNew moves).1
    refine contexted.attached accounted nested fresh fun place other => ?_
    simp only [RunOnce.State.move] at moves
    split at moves
    · obtain ⟨_, attaches⟩ := Option.ite_none_left_eq_some.mp moves
      exact (contexted.accounted.attach_grown unlisted attaches).mem_executions
    · contradiction
  · rename_i label fetches attaches
    obtain ⟨worker, moves, rfl⟩ := Option.map_eq_some_iff.mp moved
    exact contexted.other (fun id requested same => fetches id requested (same ▸ rfl))
      (fun address id same => attaches address id (same ▸ rfl)) moves

theorem contexted_of_reachable {maxDepth : ℕ}
    (reachable : (machine Id Storage maxDepth).Reachable Distinct state) : Contexted state := by
  apply reachable.invariant
  · rintro ⟨worker, coroutineMetas, spawned, handles⟩ ⟨⟨current, states, rfl⟩, rfl, rfl, rfl⟩
    exact
      { accounted := RunOnce.accounted_empty current states
        entries := fun id => iff_of_false nofun (Finset.notMem_empty id)
        spawned := fun id member => absurd member (Finset.notMem_empty id)
        known := fun place id member => absurd member (Finset.notMem_empty id)
        once := fun id place other member => absurd member (Finset.notMem_empty id) }
  · intro state label next contexted distinct moved
    exact contexted.step distinct moved

/-! ## Whose entry is found -/

/-- The entry of the task itself. -/
theorem Contexted.finds (contexted : Contexted state) {frame : Frame Id}
    (whole : state.worker.tree.stack = [frame])
    (executing : state.worker.tree.phase = .executing) : state.Finds := by
  have attached : frame.id ∈ state.worker.tree.executions [] := contexted.accounted.innermost whole
  obtain ⟨coroutineMeta, entry⟩ := Option.isSome_iff_exists.mp ((contexted.entries _).mpr attached)
  have found : state.guard = some coroutineMeta := by
    simp [State.guard, State.currentExecution, executing, whole, entry]
  refine ⟨frame.id, coroutineMeta, ?_, ?_, ?_, ?_⟩
  · simp [State.task, whole]
  · rw [← contexted.spawned _ attached, entry]
  · rw [State.taskLocal, found, Option.map_some]
  · rw [State.isBlockingEnv, found, Option.map_some]

/-- A nested execution has no entry. -/
theorem Contexted.guard_empty (contexted : Contexted state) {top outer : Frame Id}
    {rest : List (Frame Id)} (whole : state.worker.tree.stack = top :: outer :: rest) :
    state.guard = none := by
  have attached := contexted.accounted.innermost whole
  have absent : top.id ∉ state.worker.tree.executions [] := fun member =>
    List.cons_ne_nil _ _ (contexted.once _ _ _ attached member)
  have entry : state.coroutineMetas top.id = none :=
    Option.not_isSome_iff_eq_none.mp (mt (contexted.entries _).mp absent)
  unfold State.guard State.currentExecution
  split
  · simp [whole, entry]
  · rfl

/-- `task_local` and `is_blocking_env` answer with what the task was spawned with exactly if
the execution that calls them is the one of the task itself; in an execution that is nested
the guard is empty. -/
theorem context_found_iff {maxDepth : ℕ}
    (reachable : (machine Id Storage maxDepth).Reachable Distinct state)
    (executing : state.worker.tree.phase = .executing) :
    (state.Finds ↔ state.worker.tree.stack.length = 1) ∧
      (state.worker.tree.stack.length ≠ 1 → state.guard = none) := by
  have contexted := contexted_of_reachable reachable
  cases whole : state.worker.tree.stack with
  | nil =>
      rw [contexted.accounted.idle.mpr whole] at executing
      contradiction
  | cons top rest =>
      cases rest with
      | nil =>
          exact ⟨iff_of_true (contexted.finds whole executing) rfl, fun nested => absurd rfl nested⟩
      | cons outer rest =>
          have empty := contexted.guard_empty whole
          refine ⟨iff_of_false ?_ (by simp), fun _ => empty⟩
          rintro ⟨task, coroutineMeta, _, _, answered, _⟩
          rw [State.taskLocal, empty] at answered
          contradiction

def started : State ℕ String :=
  ⟨.empty ⟨0, 0⟩ fun _ => .active, fun _ => none, fun _ => none, ∅⟩

/-- The task 0 is scheduled. -/
def spawnedTask : List (Label ℕ String) :=
  [.fetch 0 false ⟨"request", true⟩, .other (.schedule 0), .other (.visit 0)]

/-- It constructs a domain with the execution 1, which is scheduled in the next call of
`run_once`. -/
def joinedTask : List (Label ℕ String) :=
  spawnedTask ++ [.other (.construct 1), .other (.attach [0] 1), .other (.leave 0),
    .other (.schedule 0), .other (.visit 0), .other (.visit 0)]

/-- The execution 1 runs to its end, the domain is left, and the task runs on. -/
def returnedTask : List (Label ℕ String) :=
  joinedTask ++ [.other .complete, .other (.leave 0), .other (.schedule 0), .other (.visit 0),
    .other (.schedule 0), .other (.visit 0)]

/-- Back from the join, the task finds what it was spawned with. -/
theorem context_of_task : ∃ state : State ℕ String,
    (machine ℕ String 4).Reachable Distinct state ∧ state.task = some 0 ∧
      state.worker.tree.stack.length = 1 ∧ state.Finds := by
  obtain ⟨state, reachable, executing, task, depth⟩ :=
    Machine.reachable_of_exec (machine ℕ String 4) Distinct started returnedTask
      (fun state => state.worker.tree.phase = .executing ∧ state.task = some 0 ∧
        state.worker.tree.stack.length = 1)
      ⟨⟨_, _, rfl⟩, rfl, rfl, rfl⟩ ⟨_, rfl, rfl, rfl, rfl⟩
  exact ⟨state, reachable, task, depth, (context_found_iff reachable executing).1.mpr depth⟩

/-- The execution 1 is one of the task 0, and the guard that it gets is empty. -/
theorem context_lost : ∃ state : State ℕ String,
    (machine ℕ String 4).Reachable Distinct state ∧ state.worker.tree.phase = .executing ∧
      state.currentExecution = some 1 ∧ state.task = some 0 ∧ state.guard = none ∧
      (state.spawned 0).isSome = true ∧ ¬ state.Finds := by
  obtain ⟨state, reachable, executing, current, task, guard, spawned⟩ :=
    Machine.reachable_of_exec (machine ℕ String 4) Distinct started joinedTask
      (fun state => state.worker.tree.phase = .executing ∧ state.currentExecution = some 1 ∧
        state.task = some 0 ∧ state.guard = none ∧ (state.spawned 0).isSome = true)
      ⟨⟨_, _, rfl⟩, rfl, rfl, rfl⟩ ⟨_, rfl, rfl, rfl, rfl, rfl, rfl⟩
  refine ⟨state, reachable, executing, current, task, guard, spawned, ?_⟩
  rintro ⟨_, _, _, _, answered, _⟩
  rw [State.taskLocal, guard] at answered
  contradiction

end Asco.ThisTask
