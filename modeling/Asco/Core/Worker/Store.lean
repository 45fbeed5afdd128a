import Asco.Concurrency.HashMap.Slots
import Asco.Core.Runtime
import Asco.Foundation.OpenAddressing

namespace Asco.Core.Worker.Store

open Foundation Foundation.OpenAddressing Asco.Concurrency

/-! # The maps of a worker

`m_executions` of the domains a worker goes through and `m_exec_ctx_map` of its
scheduler, one call at a time: where the entries are, what a rehash does to
them, and what the worker and the coroutine it resumes do in between.  A domain
is addressed by its parent execution, the parent execution of the domain this
one belongs to, and so on up to the root domain, whose address is empty.
-/

/-- What is kept of an `execution`; of the callbacks the last registered is the
first of the list. -/
structure Execution (Id Callback : Type*) where
  id : Id
  cancelCallbackStack : List Callback

variable {Id Callback : Type*}

/-- `execution(id)`. -/
def Execution.new (id : Id) : Execution Id Callback where
  id := id
  cancelCallbackStack := []

/-- The move constructor, which gives the new object the default for
`cancel_callback_stack`. -/
def Execution.moved (execution : Execution Id Callback) : Execution Id Callback where
  id := execution.id
  cancelCallbackStack := []

/-- `m_buckets` and the index in it. -/
structure Address where
  array : ℕ
  index : ℕ
deriving DecidableEq

/-- An execution on `m_sexec_stack` with the pointer to it, and the reference to
its context on `m_context_stack`.  The contexts of a nested domain are in an
array of its `cycle_scheduler`. -/
structure Frame (Id : Type*) where
  id : Id
  execution : Address
  context : Option Address

/-- `idle` is between two calls of `run_once`, and `visiting` at the top of its loop. -/
inductive Phase where
  | idle
  | visiting
  | executing
deriving DecidableEq

/-- `stack` has the innermost of the scheduled executions first.  `alive` are the
`cancel_callback` objects in the frames of an execution, the last constructed
first; `processed` pairs those alive when a cancellation was processed with the
callbacks that were invoked, and `destroyed` an object with the callback that its
destructor took off. -/
structure State (Id Callback : Type*) where
  executions : List Id → Option (Table Id (Execution Id Callback))
  contexts : Table Id Unit
  queue : List Id
  permits : ℕ
  stack : List (Frame Id)
  phase : Phase
  alive : List Id → Id → List Callback
  processed : List (List Callback × List Callback)
  destroyed : List (Callback × Option Callback)

/-- `others` is what other threads do to the coroutine queue and to its permits. -/
inductive Label (Id Callback : Type*) where
  | others (queue : List Id) (permits : ℕ)
  | fetch
  | schedule (id : Id)
  | visit (id : Id)
  | exit
  | execute
  | spawn (id : Id)
  | construct
  | attach (id : Id)
  | register (callback : Callback)
  | destroy
  | leave (finished : Bool)
  | cancel

/-- The address of the domain nested in the innermost of the scheduled executions. -/
def path (frames : List (Frame Id)) : List Id := frames.map Frame.id

/-- A map that has just been constructed. -/
def created (K V : Type*) : Table K V where
  array := 0
  size := HashMap.initialCapacity
  slots _ := .empty
  load := 0

/-- The load factor is reached. -/
def full {K V : Type*} (table : Table K V) : Bool := 3 * table.size ≤ 5 * table.load

section

variable [DecidableEq Id] (hash : Id → UInt64) {V : Type*}

/-- `insert`; one rehash is enough, since it doubles the buckets. -/
def insert (move : V → V) (table : Table Id V) (id : Id) (value : V) : Table Id V × Bool :=
  (if full table then table.rehash (HashMap.slot hash) move else table).add
    (HashMap.slot hash) id value

namespace State

variable (state : State Id Callback)

/-- `execution_domain::attach_execution`, which ignores that the id is there. -/
def attachExecution (address : List Id) (id : Id) : Option (State Id Callback) :=
  (state.executions address).map fun table =>
    { state with
      executions := Function.update state.executions address
        (some (insert hash Execution.moved table id (.new id)).1) }

/-- `attach_execution` of the root domain and of its scheduler, which asserts that
the id is not there. -/
def attachRoot (task : Id) : Option (State Id Callback) :=
  (state.attachExecution hash [] task).bind fun next =>
    let inserted := insert hash id next.contexts task ()
    if inserted.2 then some { next with contexts := inserted.1 } else none

/-- `worker::fetch_task`. -/
def fetchTask : Option (State Id Callback) :=
  match state.queue with
  | [] => some state
  | id :: rest => { state with queue := rest, permits := state.permits + 1 }.attachRoot hash id

/-- The domains at the address and below it are gone, with their executions. -/
def prune (address : List Id) : State Id Callback :=
  { state with
    executions := fun other => if address <:+ other then none else state.executions other
    alive := fun other => if address <:+ other then fun _ => [] else state.alive other }

/-- `schedule()` of the root scheduler and `schedule_execution`. -/
def schedule (id : Id) : Option (State Id Callback) :=
  (state.executions []).bind fun table =>
    (table.locate (HashMap.slot hash) id).bind fun index =>
      (state.contexts.locate (HashMap.slot hash) id).map fun context =>
        { state with
          stack := [{ id
                      execution := { array := table.array, index }
                      context := some { array := state.contexts.array, index := context } }]
          phase := .visiting }

/-- The same in the domain nested in the innermost of the scheduled executions. -/
def visit (id : Id) : Option (State Id Callback) :=
  (state.executions (path state.stack)).bind fun table =>
    (table.locate (HashMap.slot hash) id).map fun index =>
      { state with
        stack := { id, execution := { array := table.array, index }, context := none } ::
          state.stack }

/-- `exit_stack`, after a domain without executions has been removed. -/
def exit : Option (State Id Callback) :=
  (state.executions (path state.stack)).map fun table =>
    let left := if table.load = 0 then state.prune (path state.stack) else state
    { left with stack := [], phase := .idle }

/-- `runtime::spawn` in a coroutine: without a permit the worker makes room. -/
def spawn (id : Id) : Option (State Id Callback) :=
  (if 0 < state.permits then some { state with permits := state.permits - 1 }
    else state.fetchTask hash).map fun next =>
      if next.queue.length < Runtime.coroutineQueueCapacity then
        { next with queue := next.queue ++ [id] }
      else next

/-- The constructor of an `execution_domain_proxy`. -/
def construct : State Id Callback :=
  let pruned := state.prune (path state.stack)
  { pruned with
    executions :=
      Function.update pruned.executions (path state.stack) (some (created _ _)) }

/-- The constructor of a `cancel_callback` in the execution. -/
def register (address : List Id) (id : Id) (callback : Callback) : Option (State Id Callback) :=
  (state.executions address).bind fun table =>
    (table.get (HashMap.slot hash) id).map fun _ =>
      { state with
        executions := Function.update state.executions address
          (some (table.modify (HashMap.slot hash) id fun execution =>
            { execution with cancelCallbackStack := callback :: execution.cancelCallbackStack }))
        alive := Function.update state.alive address
          (Function.update (state.alive address) id (callback :: state.alive address id)) }

/-- The destructor of the `cancel_callback` that was constructed last. -/
def destroy (address : List Id) (id : Id) : Option (State Id Callback) :=
  match state.executions address, state.alive address id with
  | some table, object :: rest =>
      (table.get (HashMap.slot hash) id).map fun execution =>
        { state with
          executions := Function.update state.executions address
            (some (table.modify (HashMap.slot hash) id fun execution =>
              { execution with cancelCallbackStack := execution.cancelCallbackStack.tail }))
          alive := Function.update state.alive address
            (Function.update (state.alive address) id rest)
          destroyed := (object, execution.cancelCallbackStack.head?) :: state.destroyed }
  | _, _ => none

/-- `detach_suspended_execution` and `detach_execution`. -/
def detach (address : List Id) (id : Id) : State Id Callback :=
  let pruned := state.prune (id :: address)
  { pruned with
    executions := Function.update pruned.executions address
      ((pruned.executions address).map fun table => table.remove (HashMap.slot hash) id)
    contexts :=
      if address = [] then state.contexts.remove (HashMap.slot hash) id else state.contexts
    alive := Function.update pruned.alive address (Function.update (pruned.alive address) id [])
    stack := []
    phase := .idle }

/-- `invoke_callbacks`, and the end of the execution.  What the destructors of the
objects in its frames find is empty. -/
def cancel (address : List Id) (id : Id) : Option (State Id Callback) :=
  (state.executions address).bind fun table =>
    (table.get (HashMap.slot hash) id).map fun execution =>
      { state with
        processed := (state.alive address id, execution.cancelCallbackStack) :: state.processed
      }.detach hash address id

/-- A coroutine that has finished has destroyed its objects. -/
def leave (address : List Id) (id : Id) (finished : Bool) : Option (State Id Callback) :=
  if finished then
    match state.alive address id with
    | [] => some (state.detach hash address id)
    | _ :: _ => none
  else some { state with stack := [], phase := .idle }

def move (label : Label Id Callback) : Option (State Id Callback) :=
  match label with
  | .others queue permits =>
      if queue.length ≤ Runtime.coroutineQueueCapacity then some { state with queue, permits }
      else none
  | .fetch => if state.phase = .idle then state.fetchTask hash else none
  | .schedule id => if state.phase = .idle then state.schedule hash id else none
  | .visit id => if state.phase = .visiting then state.visit hash id else none
  | .exit => if state.phase = .visiting then state.exit else none
  | .execute =>
      if state.phase = .visiting then
        match state.executions (path state.stack) with
        | none => some { state with phase := .executing }
        | some _ => none
      else none
  | label =>
      match state.phase, state.stack with
      | .executing, top :: rest =>
          match label with
          | .spawn id => state.spawn hash id
          | .construct => some state.construct
          | .attach id => state.attachExecution hash (path state.stack) id
          | .register callback => state.register hash (path rest) top.id callback
          | .destroy => state.destroy hash (path rest) top.id
          | .leave finished => state.leave hash (path rest) top.id finished
          | .cancel => state.cancel hash (path rest) top.id
          | _ => none
      | _, _ => none

end State

end

/-- A worker that has not fetched anything. -/
def State.initial (Id Callback : Type*) [DecidableEq Id] : State Id Callback where
  executions := Function.update (fun _ => none) [] (some (created _ _))
  contexts := created _ _
  queue := []
  permits := Runtime.coroutineQueueCapacity
  stack := []
  phase := .idle
  alive _ _ := []
  processed := []
  destroyed := []

def machine {Id : Type*} (Callback : Type*) [DecidableEq Id] (hash : Id → UInt64) :
    Machine (State Id Callback) (Label Id Callback) where
  start state := state = .initial Id Callback
  move state := state.move hash

/-! ## The maps are well-formed -/

section

variable [DecidableEq Id] {hash : Id → UInt64} {V : Type*} {table : Table Id V} {id other : Id}
  {value : V} {move change : V → V} {size : ℕ}

omit [DecidableEq Id] in
theorem probes (sized : HashMap.WellSized size) : Probes (HashMap.slot hash) size where
  lt := HashMap.slot_lt sized hash
  covers key _ bound := HashMap.exists_slot sized hash key bound

omit [DecidableEq Id] in
/-- What holds of a map between two calls. -/
structure Kept (hash : Id → UInt64) (table : Table Id V) : Prop where
  sized : HashMap.WellSized table.size
  sound : Table.Sound (HashMap.slot hash) table.size table.slots

omit [DecidableEq Id] in
theorem kept_created : Kept hash (created Id V) where
  sized := .initial
  sound := by
    constructor
    · intro index key value filled
      cases filled
    · intro first second key value other filled
      cases filled

namespace Kept

variable (kept : Kept hash table)
include kept

theorem modify (id : Id) (change : V → V) :
    Kept hash (table.modify (HashMap.slot hash) id change) where
  sized := by
    unfold Table.modify
    split <;> exact kept.sized
  sound := (Table.get_modify kept.sound change id).1

theorem remove (id : Id) : Kept hash (table.remove (HashMap.slot hash) id) where
  sized := by
    unfold Table.remove
    split <;> exact kept.sized
  sound := (Table.get_remove kept.sound id).1

theorem rehash (move : V → V) : Kept hash (table.rehash (HashMap.slot hash) move) ∧
    ∀ other, (table.rehash (HashMap.slot hash) move).get (HashMap.slot hash) other =
      (table.get (HashMap.slot hash) other).map move := by
  have moved := Table.get_rehash kept.sound (probes kept.sized) (probes kept.sized.double) move
  refine ⟨⟨kept.sized.double, ?_⟩, fun other => (moved other).2⟩
  constructor
  · intro index key value filled
    exact (moved key).1.reached index key value filled
  · intro first second key value other atFirst atSecond
    exact (moved key).1.single first second key value other atFirst atSecond

theorem add (id : Id) (value : V) : Kept hash (table.add (HashMap.slot hash) id value).1 where
  sized := by
    rcases Table.add_cases table id value with same | added
    · rw [same]
      exact kept.sized
    · obtain ⟨index, _, _, sized, _⟩ := added
      rw [sized]
      exact kept.sized
  sound := (Table.get_add kept.sound id id value).1

theorem insert (move : V → V) (id : Id) (value : V) :
    Kept hash (Store.insert hash move table id value).1 := by
  unfold Store.insert
  split
  · exact (kept.rehash move).1.add id value
  · exact kept.add id value

/-- An insertion adds a new entry and moves the others if the map is full. -/
theorem get_insert (move : V → V) (id other : Id) (value : V) :
    (Store.insert hash move table id value).1.get (HashMap.slot hash) other =
      if (Store.insert hash move table id value).2 = true ∧ other = id then some value
      else if full table then (table.get (HashMap.slot hash) other).map move
      else table.get (HashMap.slot hash) other := by
  unfold Store.insert
  by_cases needed : full table
  · simp only [needed, if_true]
    rw [(Table.get_add (kept.rehash move).1.sound id other value).2, (kept.rehash move).2]
  · simp only [needed, Bool.false_eq_true, if_false]
    exact (Table.get_add kept.sound id other value).2

end Kept

/-- What holds of the maps of a worker in every state. -/
structure Lawful (hash : Id → UInt64)
    (executions : List Id → Option (Table Id (Execution Id Callback))) (contexts : Table Id Unit) :
    Prop where
  maps : ∀ address table, executions address = some table → Kept hash table
  contexts : Kept hash contexts
  root : (executions []).isSome = true

namespace Lawful

variable {executions : List Id → Option (Table Id (Execution Id Callback))}
  {contexts : Table Id Unit} {address : List Id} {held : Table Id (Execution Id Callback)}

theorem update (lawful : Lawful hash executions contexts) (kept : Kept hash held) :
    Lawful hash (Function.update executions address (some held)) contexts where
  maps := by
    intro other table found
    by_cases here : other = address
    · rw [here, Function.update_self] at found
      cases found
      exact kept
    · rw [Function.update_of_ne here] at found
      exact lawful.maps other table found
  contexts := lawful.contexts
  root := by
    by_cases here : [] = address
    · rw [← here, Function.update_self]
      rfl
    · rw [Function.update_of_ne here]
      exact lawful.root

theorem prune (lawful : Lawful hash executions contexts) (below : address ≠ []) :
    Lawful hash (fun other => if address <:+ other then none else executions other) contexts where
  maps := by
    intro other table found
    split at found
    · cases found
    · exact lawful.maps other table found
  contexts := lawful.contexts
  root := by
    rw [if_neg fun suffix => below (List.suffix_nil.mp suffix)]
    exact lawful.root

end Lawful

variable {state next : State Id Callback} {address : List Id}

theorem Lawful.attachExecution (lawful : Lawful hash state.executions state.contexts)
    (attached : state.attachExecution hash address id = some next) :
    Lawful hash next.executions next.contexts := by
  obtain ⟨table, found, rfl⟩ := Option.map_eq_some_iff.mp attached
  exact lawful.update ((lawful.maps address table found).insert _ _ _)

theorem Lawful.attachRoot (lawful : Lawful hash state.executions state.contexts)
    (attached : state.attachRoot hash id = some next) :
    Lawful hash next.executions next.contexts := by
  obtain ⟨middle, first, second⟩ := Option.bind_eq_some_iff.mp attached
  have between := lawful.attachExecution first
  dsimp only at second
  split at second
  · cases second
    exact ⟨between.maps, between.contexts.insert _ _ _, between.root⟩
  · cases second

theorem Lawful.fetchTask (lawful : Lawful hash state.executions state.contexts)
    (fetched : state.fetchTask hash = some next) : Lawful hash next.executions next.contexts := by
  unfold State.fetchTask at fetched
  split at fetched
  · cases fetched
    exact lawful
  · rename_i task rest queue
    have same : Lawful hash
        { state with queue := rest, permits := state.permits + 1 }.executions state.contexts :=
          lawful
    exact same.attachRoot fetched

theorem Lawful.detach (lawful : Lawful hash state.executions state.contexts) (address : List Id)
    (id : Id) : Lawful hash (state.detach hash address id).executions
      (state.detach hash address id).contexts := by
  have pruned := lawful.prune (List.cons_ne_nil id address)
  constructor
  · intro other table found
    simp only [State.detach, State.prune] at found
    by_cases here : other = address
    · rw [here, Function.update_self] at found
      obtain ⟨held, was, rfl⟩ := Option.map_eq_some_iff.mp found
      exact (pruned.maps address held was).remove id
    · rw [Function.update_of_ne here] at found
      exact pruned.maps other table found
  · simp only [State.detach]
    split
    · exact lawful.contexts.remove id
    · exact lawful.contexts
  · simp only [State.detach, State.prune]
    by_cases here : [] = address
    · rw [← here, Function.update_self, Option.isSome_map]
      have root := pruned.root
      rw [← here] at root
      exact root
    · rw [Function.update_of_ne here]
      exact pruned.root

omit [DecidableEq Id] in
theorem path_ne_nil {frames : List (Frame Id)} (some : frames ≠ []) : path frames ≠ [] := by
  simpa [path] using some

/-- The stack is empty between two calls of `run_once`, and the outermost of its
executions has a context in the map of the scheduler. -/
structure Placed (phase : Phase) (stack : List (Frame Id)) : Prop where
  idle : phase = .idle ↔ stack = []
  rooted : ∀ frame ∈ stack.getLast?, frame.context.isSome = true

omit [DecidableEq Id] in
theorem placed_idle : Placed .idle ([] : List (Frame Id)) where
  idle := ⟨fun _ => rfl, fun _ => rfl⟩
  rooted := by
    intro frame member
    cases member

/-- The invariant of the maps and of the stack. -/
structure State.Ready (hash : Id → UInt64) (state : State Id Callback) : Prop where
  lawful : Lawful hash state.executions state.contexts
  placed : Placed state.phase state.stack

theorem ready_initial : (State.initial Id Callback).Ready hash where
  lawful := by
    constructor
    · intro address table found
      by_cases here : address = []
      · rw [here] at found
        simp only [State.initial, Function.update_self, Option.some.injEq] at found
        rw [← found]
        exact kept_created
      · simp only [State.initial, Function.update_of_ne here] at found
        cases found
    · exact kept_created
    · simp [State.initial]
  placed := placed_idle

/-- Attaching an execution leaves everything but the maps alone. -/
theorem attachExecution_fields (attached : state.attachExecution hash address id = some next) :
    next.contexts = state.contexts ∧ next.stack = state.stack ∧ next.phase = state.phase ∧
      next.alive = state.alive ∧ next.processed = state.processed ∧
      next.destroyed = state.destroyed := by
  obtain ⟨table, _, rfl⟩ := Option.map_eq_some_iff.mp attached
  exact ⟨rfl, rfl, rfl, rfl, rfl, rfl⟩

theorem attachRoot_fields (attached : state.attachRoot hash id = some next) :
    next.stack = state.stack ∧ next.phase = state.phase ∧ next.alive = state.alive ∧
      next.processed = state.processed ∧ next.destroyed = state.destroyed := by
  obtain ⟨middle, first, second⟩ := Option.bind_eq_some_iff.mp attached
  have fields := attachExecution_fields first
  dsimp only at second
  split at second
  · cases second
    exact fields.2
  · cases second

theorem fetchTask_fields (fetched : state.fetchTask hash = some next) :
    next.stack = state.stack ∧ next.phase = state.phase ∧ next.alive = state.alive ∧
      next.processed = state.processed ∧ next.destroyed = state.destroyed := by
  unfold State.fetchTask at fetched
  split at fetched
  · cases fetched
    exact ⟨rfl, rfl, rfl, rfl, rfl⟩
  · rename_i task rest queue
    have fields := attachRoot_fields fetched
    exact fields

/-- `spawn` takes a permit, or fetches a task. -/
theorem spawn_cases (spawned : state.spawn hash id = some next) :
    ∃ middle, (0 < state.permits ∧ middle = { state with permits := state.permits - 1 } ∨
        state.permits = 0 ∧ state.fetchTask hash = some middle) ∧
      ∃ queue, next = { middle with queue } := by
  obtain ⟨middle, made, rfl⟩ := Option.map_eq_some_iff.mp spawned
  refine ⟨middle, ?_, ?_⟩
  · split at made
    · rename_i permitted
      cases made
      exact .inl ⟨permitted, rfl⟩
    · rename_i exhausted
      exact .inr ⟨by omega, made⟩
  · split
    · exact ⟨_, rfl⟩
    · exact ⟨middle.queue, rfl⟩

/-- What a step can do, by its label. -/
inductive Moves (hash : Id → UInt64) (state : State Id Callback) :
    Label Id Callback → State Id Callback → Prop where
  | others (queue : List Id) (permits : ℕ) :
      Moves hash state (.others queue permits) { state with queue, permits }
  | fetch {next : State Id Callback} (idle : state.phase = .idle)
      (fetched : state.fetchTask hash = some next) : Moves hash state .fetch next
  | schedule {id : Id} {next : State Id Callback} (idle : state.phase = .idle)
      (scheduled : state.schedule hash id = some next) : Moves hash state (.schedule id) next
  | visit {id : Id} {next : State Id Callback} (visiting : state.phase = .visiting)
      (visited : state.visit hash id = some next) : Moves hash state (.visit id) next
  | exit {next : State Id Callback} (visiting : state.phase = .visiting)
      (left : state.exit = some next) : Moves hash state .exit next
  | execute (visiting : state.phase = .visiting) :
      Moves hash state .execute { state with phase := .executing }
  | spawn {id : Id} {next : State Id Callback} (executing : state.phase = .executing)
      (spawned : state.spawn hash id = some next) : Moves hash state (.spawn id) next
  | construct (executing : state.phase = .executing) : Moves hash state .construct state.construct
  | attach {id : Id} {next : State Id Callback} (executing : state.phase = .executing)
      (attached : state.attachExecution hash (path state.stack) id = some next) :
      Moves hash state (.attach id) next
  | register {callback : Callback} {top : Frame Id} {rest : List (Frame Id)}
      {next : State Id Callback} (stands : state.stack = top :: rest)
      (registered : state.register hash (path rest) top.id callback = some next) :
      Moves hash state (.register callback) next
  | destroy {top : Frame Id} {rest : List (Frame Id)} {next : State Id Callback}
      (stands : state.stack = top :: rest)
      (destroyed : state.destroy hash (path rest) top.id = some next) :
      Moves hash state .destroy next
  | leave {finished : Bool} {top : Frame Id} {rest : List (Frame Id)} {next : State Id Callback}
      (stands : state.stack = top :: rest)
      (left : state.leave hash (path rest) top.id finished = some next) :
      Moves hash state (.leave finished) next
  | cancel {top : Frame Id} {rest : List (Frame Id)} {next : State Id Callback}
      (stands : state.stack = top :: rest)
      (cancelled : state.cancel hash (path rest) top.id = some next) :
      Moves hash state .cancel next

theorem moves_of_move {label : Label Id Callback} (moved : state.move hash label = some next) :
    Moves hash state label next := by
  cases label with
  | others queue permits =>
      simp only [State.move] at moved
      split at moved <;> cases moved
      exact .others queue permits
  | fetch | schedule id | visit id | exit =>
      simp only [State.move] at moved
      split at moved
      · constructor <;> assumption
      · cases moved
  | execute =>
      simp only [State.move] at moved
      split at moved
      · rename_i visiting
        split at moved <;> cases moved
        exact .execute visiting
      · cases moved
  | spawn id | attach id | register callback | destroy | leave finished | cancel =>
      simp only [State.move] at moved
      split at moved
      · constructor <;> assumption
      · cases moved
  | construct =>
      simp only [State.move] at moved
      split at moved <;> cases moved
      rename_i executing stands
      exact .construct executing

theorem schedule_cases (scheduled : state.schedule hash id = some next) :
    ∃ table index context, state.executions [] = some table ∧
      table.locate (HashMap.slot hash) id = some index ∧
      state.contexts.locate (HashMap.slot hash) id = some context ∧
      next = { state with
        stack := [{ id
                    execution := { array := table.array, index }
                    context := some { array := state.contexts.array, index := context } }]
        phase := .visiting } := by
  obtain ⟨table, found, scheduled⟩ := Option.bind_eq_some_iff.mp scheduled
  obtain ⟨index, located, scheduled⟩ := Option.bind_eq_some_iff.mp scheduled
  obtain ⟨context, known, rfl⟩ := Option.map_eq_some_iff.mp scheduled
  exact ⟨table, index, context, found, located, known, rfl⟩

theorem visit_cases (visited : state.visit hash id = some next) :
    ∃ table index, state.executions (path state.stack) = some table ∧
      table.locate (HashMap.slot hash) id = some index ∧
      next = { state with
        stack := { id, execution := { array := table.array, index }, context := none } ::
          state.stack } := by
  obtain ⟨table, found, visited⟩ := Option.bind_eq_some_iff.mp visited
  obtain ⟨index, located, rfl⟩ := Option.map_eq_some_iff.mp visited
  exact ⟨table, index, found, located, rfl⟩

theorem exit_cases (left : state.exit = some next) :
    ∃ table, state.executions (path state.stack) = some table ∧
      (next = { state with stack := [], phase := .idle } ∨
        next = { state.prune (path state.stack) with stack := [], phase := .idle }) := by
  obtain ⟨table, found, rfl⟩ := Option.map_eq_some_iff.mp left
  refine ⟨table, found, ?_⟩
  dsimp only
  split
  · exact .inr rfl
  · exact .inl rfl

theorem register_cases {address : List Id} {callback : Callback}
    (registered : state.register hash address id callback = some next) :
    ∃ table execution, state.executions address = some table ∧
      table.get (HashMap.slot hash) id = some execution ∧
      next = { state with
        executions := Function.update state.executions address
          (some (table.modify (HashMap.slot hash) id fun execution =>
            { execution with cancelCallbackStack := callback :: execution.cancelCallbackStack }))
        alive := Function.update state.alive address
          (Function.update (state.alive address) id (callback :: state.alive address id)) } := by
  obtain ⟨table, found, registered⟩ := Option.bind_eq_some_iff.mp registered
  obtain ⟨execution, got, rfl⟩ := Option.map_eq_some_iff.mp registered
  exact ⟨table, execution, found, got, rfl⟩

theorem destroy_cases {address : List Id} (destroyed : state.destroy hash address id = some next) :
    ∃ table object rest execution, state.executions address = some table ∧
      state.alive address id = object :: rest ∧
      table.get (HashMap.slot hash) id = some execution ∧
      next = { state with
        executions := Function.update state.executions address
          (some (table.modify (HashMap.slot hash) id fun execution =>
            { execution with cancelCallbackStack := execution.cancelCallbackStack.tail }))
        alive := Function.update state.alive address
          (Function.update (state.alive address) id rest)
        destroyed := (object, execution.cancelCallbackStack.head?) :: state.destroyed } := by
  unfold State.destroy at destroyed
  split at destroyed
  · rename_i table object rest found alive
    obtain ⟨execution, got, rfl⟩ := Option.map_eq_some_iff.mp destroyed
    exact ⟨table, object, rest, execution, found, alive, got, rfl⟩
  · cases destroyed

theorem leave_cases {address : List Id} {finished : Bool}
    (left : state.leave hash address id finished = some next) :
    (finished = true ∧ state.alive address id = [] ∧ next = state.detach hash address id) ∨
      (finished = false ∧ next = { state with stack := [], phase := .idle }) := by
  unfold State.leave at left
  split at left
  · rename_i isFinished
    split at left <;> cases left
    rename_i gone
    exact .inl ⟨isFinished, gone, rfl⟩
  · rename_i suspends
    cases left
    exact .inr ⟨by simpa using suspends, rfl⟩

theorem cancel_cases {address : List Id} (cancelled : state.cancel hash address id = some next) :
    ∃ table execution, state.executions address = some table ∧
      table.get (HashMap.slot hash) id = some execution ∧
      next = { state with
        processed := (state.alive address id, execution.cancelCallbackStack) :: state.processed
      }.detach hash address id := by
  obtain ⟨table, found, cancelled⟩ := Option.bind_eq_some_iff.mp cancelled
  obtain ⟨execution, got, rfl⟩ := Option.map_eq_some_iff.mp cancelled
  exact ⟨table, execution, found, got, rfl⟩

theorem State.Ready.step {label : Label Id Callback} (ready : state.Ready hash)
    (moved : Moves hash state label next) : next.Ready hash := by
  obtain ⟨lawful, placed⟩ := ready
  have busy {phase : Phase} (is : state.phase = phase) (other : phase ≠ .idle) :
      path state.stack ≠ [] := by
    refine path_ne_nil fun none => other ?_
    rw [← is]
    exact placed.idle.mpr none
  cases moved with
  | others queue permits => exact ⟨lawful, placed⟩
  | fetch idle fetched =>
      obtain ⟨stack, phase, _⟩ := fetchTask_fields fetched
      refine ⟨lawful.fetchTask fetched, ?_⟩
      rw [phase, stack]
      exact placed
  | schedule idle scheduled =>
      obtain ⟨table, index, context, _, _, _, rfl⟩ := schedule_cases scheduled
      refine ⟨lawful, by simp, ?_⟩
      intro frame member
      cases member
      rfl
  | visit visiting visited =>
      obtain ⟨table, index, _, _, rfl⟩ := visit_cases visited
      refine ⟨lawful, ?_, ?_⟩
      · simp [visiting]
      · have some : state.stack ≠ [] := fun none => by
          have idle := placed.idle.mpr none
          rw [visiting] at idle
          cases idle
        intro frame member
        dsimp only at member
        rw [List.getLast?_cons, List.getLast?_eq_some_getLast some] at member
        cases member
        exact placed.rooted _ (List.getLast?_eq_some_getLast some)
  | exit visiting left =>
      obtain ⟨table, _, rfl | rfl⟩ := exit_cases left
      · exact ⟨lawful, placed_idle⟩
      · exact ⟨lawful.prune (busy visiting (by decide)), placed_idle⟩
  | execute visiting =>
      refine ⟨lawful, ?_, placed.rooted⟩
      have some : state.stack ≠ [] := fun none => by
        have idle := placed.idle.mpr none
        rw [visiting] at idle
        cases idle
      simp [some]
  | spawn executing spawned =>
      obtain ⟨middle, made, queue, rfl⟩ := spawn_cases spawned
      rcases made with ⟨_, rfl⟩ | ⟨_, fetched⟩
      · exact ⟨lawful, placed⟩
      · obtain ⟨stack, phase, _⟩ := fetchTask_fields fetched
        have between := lawful.fetchTask fetched
        refine ⟨between, ?_⟩
        dsimp only
        rw [phase, stack]
        exact placed
  | construct executing =>
      exact ⟨(lawful.prune (busy executing (by decide))).update kept_created, placed⟩
  | attach executing attached =>
      obtain ⟨_, stack, phase, _⟩ := attachExecution_fields attached
      refine ⟨lawful.attachExecution attached, ?_⟩
      rw [phase, stack]
      exact placed
  | register stands registered =>
      obtain ⟨table, execution, found, _, rfl⟩ := register_cases registered
      exact ⟨lawful.update ((lawful.maps _ _ found).modify _ _), placed⟩
  | destroy stands destroyed =>
      obtain ⟨table, object, rest, execution, found, _, _, rfl⟩ := destroy_cases destroyed
      exact ⟨lawful.update ((lawful.maps _ _ found).modify _ _), placed⟩
  | leave stands left =>
      rcases leave_cases left with ⟨_, _, rfl⟩ | ⟨_, rfl⟩
      · exact ⟨lawful.detach _ _, placed_idle⟩
      · exact ⟨lawful, placed_idle⟩
  | cancel stands cancelled =>
      obtain ⟨table, execution, _, _, rfl⟩ := cancel_cases cancelled
      exact ⟨Lawful.detach lawful _ _, placed_idle⟩

theorem ready_of_reachable {guard : State Id Callback → Label Id Callback → Prop}
    (reachable : (machine Callback hash).Reachable guard state) : state.Ready hash := by
  refine reachable.invariant ?_ ?_
  · rintro _ rfl
    exact ready_initial
  · intro state label next ready _ moved
    exact ready.step (moves_of_move moved)

end

end Asco.Core.Worker.Store
