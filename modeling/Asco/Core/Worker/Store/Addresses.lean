import Asco.Core.Worker.Store

namespace Asco.Core.Worker.Store

open Foundation Foundation.OpenAddressing Asco.Concurrency

/-! # The pointers on the stacks of the worker

`schedule_execution` and `schedule` hand out the address of an entry after the
guard on it has been dropped.
-/

variable {Id Callback : Type*} [DecidableEq Id] {hash : Id → UInt64} {V : Type*}
  {table : Table Id V} {pointer : Address} {id other : Id} {value : V} {move change : V → V}
  {state next : State Id Callback} {label : Label Id Callback}

omit [DecidableEq Id] in
/-- The entry of the id is at the address. -/
def Points (table : Table Id V) (pointer : Address) (id : Id) : Prop :=
  pointer.array = table.array ∧ ∃ value, table.slots pointer.index = .filled id value

theorem points_of_locate {index : ℕ}
    (located : table.locate (HashMap.slot hash) id = some index) :
    Points table { array := table.array, index } id := ⟨rfl, Table.locate_filled located⟩

namespace Points

variable (points : Points table pointer id)
include points

theorem modify (other : Id) (change : V → V) :
    Points (table.modify (HashMap.slot hash) other change) pointer id := by
  obtain ⟨array, value, filled⟩ := points
  unfold Table.modify
  split
  · rename_i index located
    refine ⟨array, ?_⟩
    by_cases here : pointer.index = index
    · rw [here] at filled
      exact ⟨change value, by simp [here, filled, Slot.modify]⟩
    · exact ⟨value, by simpa [Function.update_of_ne here] using filled⟩
  · exact ⟨array, value, filled⟩

theorem add (other : Id) (value : V) :
    Points (table.add (HashMap.slot hash) other value).1 pointer id := by
  obtain ⟨array, held, filled⟩ := points
  rcases Table.add_cases table other value with same | added
  · rw [same]
    exact ⟨array, held, filled⟩
  · obtain ⟨index, _, sameArray, _, wrote, free, _⟩ := added
    refine ⟨array.trans sameArray.symm, held, ?_⟩
    rw [wrote, Function.update_of_ne]
    · exact filled
    · rintro rfl
      rw [filled] at free
      cases free

theorem insert (roomy : full table = false) (move : V → V) (other : Id) (value : V) :
    Points (Store.insert hash move table other value).1 pointer id := by
  rw [Store.insert, roomy, if_neg Bool.false_ne_true]
  exact points.add other value

end Points

theorem add_array (table : Table Id V) (id : Id) (value : V) :
    (table.add (HashMap.slot hash) id value).1.array = table.array := by
  rcases Table.add_cases table id value with same | added
  · rw [same]
  · obtain ⟨_, _, array, _⟩ := added
    exact array

/-- A full map gets another vector. -/
theorem insert_moves (needed : full table = true) (move : V → V) (id : Id) (value : V) :
    (Store.insert hash move table id value).1.array = table.array + 1 := by
  rw [Store.insert, if_pos needed, add_array]
  rfl

/-- The domains of a worker by their addresses. -/
abbrev Domains (Id Callback : Type*) := List Id → Option (Table Id (Execution Id Callback))

/-- The pointer to the scheduled execution and the reference to its context. -/
structure Frame.Valid (executions : Domains Id Callback) (contexts : Table Id Unit)
    (address : List Id) (frame : Frame Id) : Prop where
  execution : ∃ table, executions address = some table ∧ Points table frame.execution frame.id
  context : ∀ context ∈ frame.context, Points contexts context frame.id

/-- What the worker has kept since `schedule_execution` and `schedule` are the
addresses of the entries. -/
def State.Valid (state : State Id Callback) : Prop :=
  ∀ frame rest, frame :: rest <:+ state.stack →
    frame.Valid state.executions state.contexts (path rest)

/-- A coroutine that spawns a task without a permit, and with one to fetch, finds
room in the map of the worker's domain and in that of its scheduler. -/
def Roomy (state : State Id Callback) : Label Id Callback → Prop
  | .spawn _ => state.permits = 0 → state.queue ≠ [] →
      (state.executions []).any full = false ∧ full state.contexts = false
  | _ => True

instance : DecidableRel (@Roomy Id Callback) := by
  intro state label
  cases label with
  | spawn id => exact inferInstanceAs (Decidable (_ → _ → _ ∧ _))
  | others | fetch | schedule | visit | exit | execute | construct | attach | register | destroy
  | leave | cancel => exact inferInstanceAs (Decidable True)

omit [DecidableEq Id] in
theorem valid_of_empty (empty : state.stack = []) : state.Valid := by
  intro frame rest suffix
  rw [empty] at suffix
  cases List.suffix_nil.mp suffix

variable {executions after : Domains Id Callback} {contexts : Table Id Unit} {address : List Id}
  {frame : Frame Id}

omit [DecidableEq Id] in
theorem Frame.Valid.mono {contextsAfter : Table Id Unit}
    (valid : frame.Valid executions contexts address)
    (kept : ∀ table, executions address = some table → Points table frame.execution frame.id →
      ∃ other, after address = some other ∧ Points other frame.execution frame.id)
    (keptContexts : ∀ context ∈ frame.context, Points contexts context frame.id →
      Points contextsAfter context frame.id) : frame.Valid after contextsAfter address := by
  obtain ⟨⟨table, found, points⟩, context⟩ := valid
  exact ⟨kept table found points, fun held member => keptContexts held member (context held member)⟩

omit [DecidableEq Id] in
/-- The domains that have been scheduled from are not nested in the innermost
execution. -/
theorem path_not_suffix {rest stack : List (Frame Id)}
    (suffix : frame :: rest <:+ stack) : ¬ path stack <:+ path rest := by
  intro below
  have shorter := below.length_le
  have longer := suffix.length_le
  simp only [path, List.length_map, List.length_cons] at shorter longer
  omega

/-! ## One step -/

/-- While neither map is full, fetching a task leaves the entries where they are. -/
theorem Frame.Valid.attachRoot (valid : frame.Valid state.executions state.contexts address)
    (roomy : (state.executions []).any full = false) (spacious : full state.contexts = false)
    (attached : state.attachRoot hash other = some next) :
    frame.Valid next.executions next.contexts address := by
  obtain ⟨middle, first, second⟩ := Option.bind_eq_some_iff.mp attached
  obtain ⟨root, found, rfl⟩ := Option.map_eq_some_iff.mp first
  rw [found] at roomy
  dsimp only at second
  split at second <;> cases second
  refine valid.mono (fun table was points => ?_) fun context _ points =>
    points.insert spacious _ _ _
  dsimp only
  by_cases here : address = []
  · subst here
    cases found.symm.trans was
    exact ⟨_, Function.update_self _ _ _, points.insert roomy _ _ _⟩
  · exact ⟨table, (Function.update_of_ne here _ _).trans was, points⟩

theorem Frame.Valid.fetchTask (valid : frame.Valid state.executions state.contexts address)
    (room : state.queue ≠ [] → (state.executions []).any full = false ∧ full state.contexts = false)
    (fetched : state.fetchTask hash = some next) :
    frame.Valid next.executions next.contexts address := by
  unfold State.fetchTask at fetched
  split at fetched
  · cases fetched
    exact valid
  · rename_i task rest queue
    obtain ⟨roomy, spacious⟩ := room (by simp [queue])
    refine Frame.Valid.attachRoot ?_ ?_ ?_ fetched
    · exact valid
    · exact roomy
    · exact spacious

/-- Writing to another domain, or a value in this one, keeps the entries of the
others. -/
theorem Frame.Valid.update {touched : List Id} {written : Table Id (Execution Id Callback)}
    (valid : frame.Valid executions contexts address)
    (kept : touched = address → ∀ table, executions address = some table →
      Points table frame.execution frame.id → Points written frame.execution frame.id) :
    frame.Valid (Function.update executions touched (some written)) contexts address := by
  refine valid.mono (fun table was points => ?_) fun _ _ points => points
  by_cases here : address = touched
  · subst here
    exact ⟨written, Function.update_self _ _ _, kept rfl table was points⟩
  · exact ⟨table, (Function.update_of_ne here _ _).trans was, points⟩

theorem State.Valid.step (valid : state.Valid) (ready : state.Ready hash)
    (roomy : Roomy state label) (moved : Moves hash state label next) : next.Valid := by
  cases moved with
  | others queue permits => exact valid
  | fetch idle fetched =>
      refine valid_of_empty ?_
      rw [(fetchTask_fields fetched).1]
      exact ready.placed.idle.mp idle
  | schedule idle scheduled =>
      obtain ⟨table, index, context, found, located, known, rfl⟩ := schedule_cases scheduled
      intro frame rest suffix
      obtain ⟨rfl, rfl⟩ | inside := List.suffix_cons_iff.mp suffix |>.imp_left List.cons.inj
      · refine ⟨⟨table, found, points_of_locate located⟩, ?_⟩
        rintro _ ⟨⟩
        exact points_of_locate known
      · cases List.suffix_nil.mp inside
  | visit visiting visited =>
      obtain ⟨table, index, found, located, rfl⟩ := visit_cases visited
      intro frame rest suffix
      obtain ⟨rfl, rfl⟩ | inside := List.suffix_cons_iff.mp suffix |>.imp_left List.cons.inj
      · refine ⟨⟨table, found, points_of_locate located⟩, ?_⟩
        intro context member
        cases member
      · exact valid frame rest inside
  | exit visiting left =>
      obtain ⟨table, _, rfl | rfl⟩ := exit_cases left
      · exact valid_of_empty rfl
      · exact valid_of_empty rfl
  | execute visiting => exact valid
  | spawn executing spawned =>
      obtain ⟨middle, made, queue, rfl⟩ := spawn_cases spawned
      rcases made with ⟨_, rfl⟩ | ⟨exhausted, fetched⟩
      · exact valid
      · intro frame rest suffix
        dsimp only at suffix
        rw [(fetchTask_fields fetched).1] at suffix
        have kept : frame.Valid middle.executions middle.contexts (path rest) :=
          (valid frame rest suffix).fetchTask (roomy exhausted) fetched
        exact kept
  | construct executing =>
      intro frame rest suffix
      have apart : ¬ path state.stack <:+ path rest := path_not_suffix suffix
      refine (valid frame rest suffix).mono (fun table was points => ⟨table, ?_, points⟩)
        fun _ _ points => points
      have different : path rest ≠ path state.stack := by
        intro same
        exact apart (by rw [same])
      simp only [State.construct, State.prune]
      rw [Function.update_of_ne different, if_neg apart]
      exact was
  | attach executing attached =>
      obtain ⟨table, found, rfl⟩ := Option.map_eq_some_iff.mp attached
      intro frame rest suffix
      have apart := path_not_suffix suffix
      exact (valid frame rest suffix).update fun same => absurd (by rw [same]) apart
  | register stands registered =>
      obtain ⟨table, execution, found, _, rfl⟩ := register_cases registered
      intro frame rest suffix
      refine (valid frame rest suffix).update fun same held was points => ?_
      rw [same, was] at found
      cases found
      exact points.modify _ _
  | destroy stands destroyed =>
      obtain ⟨table, object, left, execution, found, _, _, rfl⟩ := destroy_cases destroyed
      intro frame rest suffix
      refine (valid frame rest suffix).update fun same held was points => ?_
      rw [same, was] at found
      cases found
      exact points.modify _ _
  | leave stands left =>
      rcases leave_cases left with ⟨_, _, rfl⟩ | ⟨_, rfl⟩
      · exact valid_of_empty rfl
      · exact valid_of_empty rfl
  | cancel stands cancelled =>
      obtain ⟨table, execution, _, _, rfl⟩ := cancel_cases cancelled
      exact valid_of_empty rfl

/-! ## A rehash leaves the pointers behind -/

omit [DecidableEq Id] in
/-- The outermost of the scheduled executions. -/
theorem exists_outermost (ready : state.Ready hash) (executing : state.phase = .executing) :
    ∃ frame, [frame] <:+ state.stack ∧ ∃ context, frame.context = some context := by
  have some : state.stack ≠ [] := by
    intro none
    have idle := ready.placed.idle.mpr none
    rw [executing] at idle
    cases idle
  have member : state.stack.getLast some ∈ state.stack.getLast? :=
    List.getLast?_eq_some_getLast some
  refine ⟨state.stack.getLast some, ⟨state.stack.dropLast, List.dropLast_append_getLast some⟩, ?_⟩
  exact Option.isSome_iff_exists.mp (ready.placed.rooted _ member)

theorem attachRoot_arrays (attached : state.attachRoot hash id = some next) :
    ∃ table after, state.executions [] = some table ∧ next.executions [] = some after ∧
      (full table = true → after.array = table.array + 1) ∧
      (full state.contexts = true → next.contexts.array = state.contexts.array + 1) := by
  obtain ⟨middle, first, second⟩ := Option.bind_eq_some_iff.mp attached
  obtain ⟨table, found, rfl⟩ := Option.map_eq_some_iff.mp first
  dsimp only at second
  split at second <;> cases second
  refine ⟨table, (insert hash Execution.moved table id (.new id)).1, found, ?_,
    fun needed => insert_moves needed _ _ _, fun needed => insert_moves needed _ _ _⟩
  simp only [Function.update_self]

theorem State.Valid.roomy (valid : state.Valid) (ready : state.Ready hash)
    (moved : Moves hash state label next) (stays : next.Valid) : Roomy state label := by
  cases moved with
  | others | fetch | schedule | visit | exit | execute | construct | attach | register | destroy
  | leave | cancel => trivial
  | spawn executing spawned =>
      intro exhausted waiting
      obtain ⟨middle, made, queue, rfl⟩ := spawn_cases spawned
      rcases made with ⟨permitted, _⟩ | ⟨_, fetched⟩
      · omega
      · obtain ⟨frame, suffix, context, known⟩ := exists_outermost ready executing
        have before := valid frame [] suffix
        have after := stays frame [] (by dsimp only; rwa [(fetchTask_fields fetched).1])
        unfold State.fetchTask at fetched
        split at fetched
        · exact absurd (by assumption) waiting
        · obtain ⟨table, written, found, wrote, moves, contextMoves⟩ := attachRoot_arrays fetched
          obtain ⟨held, was, array, _⟩ := before.execution
          obtain ⟨holds, is, arrayAfter, _⟩ := after.execution
          cases found.symm.trans was
          cases wrote.symm.trans is
          have contextArray := (before.context context known).1
          have contextArrayAfter := (after.context context known).1
          constructor
          · rw [found]
            by_contra needed
            have moved := moves (by simpa using needed)
            omega
          · by_contra needed
            have moved := contextMoves (by simpa using needed)
            dsimp only at contextArrayAfter moved
            omega

/-! ## Every run -/

/-- While every coroutine that spawns without a permit finds room in the maps of
its worker, the pointers that the worker keeps are those of the entries.  The
first that does not leaves them behind. -/
theorem valid_of_roomy (reachable : (machine Callback hash).Reachable Roomy state) :
    state.Valid ∧ ∀ label next, state.move hash label = some next →
      (next.Valid ↔ Roomy state label) := by
  have ready := ready_of_reachable reachable
  have valid : state.Valid := by
    obtain ⟨first, rfl, run⟩ := reachable
    have start : (machine Callback hash).Reachable Machine.free (.initial Id Callback) :=
      ⟨_, rfl, .refl _⟩
    refine (run.reachable_preserves State.Valid start (fun _ _ _ => trivial) ?_
      (valid_of_empty rfl)).2
    intro state label next reached valid roomy moved
    exact valid.step (ready_of_reachable reached) roomy (moves_of_move moved)
  refine ⟨valid, fun label next moved => ?_⟩
  constructor
  · exact valid.roomy ready (moves_of_move moved)
  · exact fun roomy => valid.step ready roomy (moves_of_move moved)

/-- A task is executed and spawns another one with a permit. -/
theorem valid_of_roomy_spawn :
    ∃ state : State ℕ Unit, (machine Unit UInt64.ofNat).Reachable Roomy state ∧
      (state.stack.length = 1 ∧ state.queue = [1]) ∧ state.Valid ∧
      ∀ label next, state.move UInt64.ofNat label = some next →
        (next.Valid ↔ Roomy state label) := by
  obtain ⟨state, reachable, placed⟩ :=
    Machine.reachable_of_any (machine Unit UInt64.ofNat) Roomy (.initial ℕ Unit)
      [.others [0] 1023, .fetch, .schedule 0, .execute, .spawn 1]
      (fun state => state.stack.length = 1 ∧ state.queue = [1]) rfl (by decide +kernel)
  exact ⟨state, reachable, placed, valid_of_roomy reachable⟩

/-- The worker has 39 tasks and runs one of them, the coroutine queue is full, and
the coroutine spawns another task. -/
def saturated : List (Label ℕ Unit) :=
  List.flatten
    [.others (List.range 39) 985 :: List.replicate 39 .fetch,
      [.schedule 0, .execute, .others (List.range' 39 1024) 0, .spawn 5000]]

/-- The fortieth task rehashes the map, and the pointer is to the old vector. -/
theorem saturated_queue_rehashes : ¬ ∀ state : State ℕ Unit,
    (machine Unit UInt64.ofNat).Reachable Machine.free state → state.Valid := by
  intro valid
  obtain ⟨state, reachable, kept, moved⟩ :=
    Machine.reachable_of_any (machine Unit UInt64.ofNat) Machine.free (.initial ℕ Unit) saturated
      (fun state => state.stack.map (fun frame => frame.execution.array) = [0] ∧
        (state.executions []).map (fun table => table.array) = some 1)
      rfl (by decide +kernel)
  obtain ⟨frame, stack⟩ : ∃ frame, state.stack = [frame] := by
    have single := congrArg List.length kept
    rw [List.length_map] at single
    exact List.length_eq_one_iff.mp single
  rw [stack] at kept
  obtain ⟨table, found, array, _⟩ := (valid state reachable frame [] (by rw [stack])).execution
  rw [show state.executions [] = some table from found] at moved
  simp only [List.map_cons, List.map_nil, List.cons.injEq, Option.map_some, Option.some.injEq]
    at kept moved
  omega

end Asco.Core.Worker.Store
