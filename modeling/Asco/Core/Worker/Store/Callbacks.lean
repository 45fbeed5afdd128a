import Asco.Core.Worker.Store

namespace Asco.Core.Worker.Store

open Foundation Foundation.OpenAddressing Asco.Concurrency

/-! # The cancel callbacks of an execution

A `cancel_callback` registers its callback in the execution it is constructed in
and is destroyed in reverse order.  The move constructor of `execution` does not
take the callbacks along, so a rehash of `m_executions` loses them.
-/

variable {Id Callback : Type*} [DecidableEq Id] {hash : Id → UInt64}
  {state next : State Id Callback} {label : Label Id Callback} {address : List Id} {id : Id}
  {table : Table Id (Execution Id Callback)}

/-- The callbacks that a table holds for an execution. -/
def stackIn (hash : Id → UInt64) (table : Table Id (Execution Id Callback)) (id : Id) :
    List Callback :=
  ((table.get (HashMap.slot hash) id).map Execution.cancelCallbackStack).getD []

/-- The callbacks registered for the executions of a domain, the last first. -/
def registered (hash : Id → UInt64)
    (executions : List Id → Option (Table Id (Execution Id Callback))) (address : List Id) :
    Id → List Callback :=
  match executions address with
  | some table => stackIn hash table
  | none => fun _ => []

/-- The callbacks that are registered are those of the objects alive, a
cancellation has invoked exactly these, and no object has unregistered the
callback of another. -/
structure State.Faithful (hash : Id → UInt64) (state : State Id Callback) : Prop where
  registered : ∀ address, registered hash state.executions address = state.alive address
  processed : ∀ pair ∈ state.processed, pair.2 = pair.1
  destroyed : ∀ pair ∈ state.destroyed, pair.2 = some pair.1

/-- If the table is full, no execution in it has a `cancel_callback`. -/
def bare (alive : Id → List Callback) (table : Table Id (Execution Id Callback)) : Bool :=
  !full table || (List.range table.size).all fun index =>
    match table.slots index with
    | .filled id _ => (alive id).isEmpty
    | .empty | .tombstone => true

/-- A task is attached to a domain whose map is rehashed only while no execution
of the domain has a `cancel_callback`. -/
def Unburdened (state : State Id Callback) : Label Id Callback → Prop
  | .fetch => state.queue ≠ [] → (state.executions []).all (bare (state.alive [])) = true
  | .spawn _ => state.permits = 0 → state.queue ≠ [] →
      (state.executions []).all (bare (state.alive [])) = true
  | .attach _ =>
      (state.executions (path state.stack)).all (bare (state.alive (path state.stack))) = true
  | _ => True

instance : DecidableRel (@Unburdened Id Callback) := fun _ label =>
  match label with
  | .fetch => inferInstanceAs (Decidable (_ → _))
  | .spawn _ => inferInstanceAs (Decidable (_ → _ → _))
  | .attach _ => inferInstanceAs (Decidable (_ = true))
  | .others .. | .schedule .. | .visit .. | .exit .. | .execute .. | .construct .. | .register ..
  | .destroy .. | .leave .. | .cancel .. => isTrue trivial

theorem bare_iff {alive : Id → List Callback} (kept : Kept hash table) :
    bare alive table = true ↔ (full table = true →
      ∀ id execution, table.get (HashMap.slot hash) id = some execution → alive id = []) := by
  unfold bare
  rw [Bool.or_eq_true, Bool.not_eq_true', List.all_eq_true]
  constructor
  · intro quiet needed id execution got
    have all := quiet.resolve_left (by simp [needed])
    obtain ⟨index, filled⟩ := (Table.get_iff kept.sound).mp got
    have here := all index (List.mem_range.mpr (kept.sound.inside (probes kept.sized) filled))
    rw [filled] at here
    simpa using here
  · intro quiet
    by_cases needed : full table = true
    · right
      intro index _
      cases found : table.slots index with
      | filled id execution =>
          have got := (Table.get_iff kept.sound).mpr ⟨index, found⟩
          simpa using quiet needed id execution got
      | empty | tombstone => rfl
    · exact .inl (by simpa using needed)

/-! ## What the calls do to the callbacks -/

theorem added_absent {V : Type*} {held : Table Id V} {move : V → V} {value : V}
    (kept : Kept hash held) (added : (insert hash move held id value).2 = true) :
    held.get (HashMap.slot hash) id = none := by
  have missing {table : Table Id V} (added : (table.add (HashMap.slot hash) id value).2 = true) :
      table.get (HashMap.slot hash) id = none := by
    rcases Table.add_cases table id value with same | fresh
    · rw [same] at added
      cases added
    · obtain ⟨_, _, _, _, _, _, _, none⟩ := fresh
      exact Table.get_eq_none none
  unfold insert at added
  split at added
  · have none := missing added
    rw [(kept.rehash move).2] at none
    simpa using none
  · exact missing added

theorem stackIn_insert (kept : Kept hash table) (id other : Id) :
    stackIn hash (insert hash Execution.moved table id (.new id)).1 other =
      if full table then [] else stackIn hash table other := by
  simp only [stackIn]
  rw [kept.get_insert]
  split
  · rename_i new
    obtain ⟨added, rfl⟩ := new
    rw [added_absent kept added]
    simp [Execution.new]
  · split
    · cases table.get (HashMap.slot hash) other <;> rfl
    · rfl

theorem stackIn_modify (kept : Kept hash table) (id other : Id)
    (change : List Callback → List Callback) {execution : Execution Id Callback}
    (got : table.get (HashMap.slot hash) id = some execution) :
    stackIn hash (table.modify (HashMap.slot hash) id fun execution =>
        { execution with cancelCallbackStack := change execution.cancelCallbackStack }) other =
      Function.update (stackIn hash table) id (change (stackIn hash table id)) other := by
  simp only [stackIn]
  rw [(Table.get_modify kept.sound _ other).2]
  by_cases same : other = id
  · subst same
    rw [if_pos rfl, Function.update_self, got]
    rfl
  · rw [if_neg same, Function.update_of_ne same]
    rfl

theorem stackIn_remove (kept : Kept hash table) (id other : Id) :
    stackIn hash (table.remove (HashMap.slot hash) id) other =
      Function.update (stackIn hash table) id [] other := by
  simp only [stackIn]
  rw [(Table.get_remove kept.sound other).2]
  by_cases same : other = id
  · subst same
    rw [if_pos rfl, Function.update_self]
    rfl
  · rw [if_neg same, Function.update_of_ne same]
    rfl

theorem stackIn_created : stackIn hash (created Id (Execution Id Callback)) = fun _ => [] := by
  funext id
  have none : (created Id (Execution Id Callback)).get (HashMap.slot hash) id = none := by
    refine Table.get_eq_none ((Table.locate_eq_none_iff kept_created.sound).mpr ?_)
    intro index value filled
    cases filled
  simp [stackIn, none]

variable {executions : List Id → Option (Table Id (Execution Id Callback))}
  {alive : List Id → Id → List Callback}

theorem registered_eq (found : executions address = some table) :
    registered hash executions address = stackIn hash table := by
  simp only [registered, found]

theorem registered_update (written : Table Id (Execution Id Callback)) (address other : List Id) :
    registered hash (Function.update executions address (some written)) other =
      if other = address then stackIn hash written else registered hash executions other := by
  by_cases here : other = address
  · subst here
    rw [if_pos rfl, registered_eq (Function.update_self _ _ _)]
  · rw [if_neg here, registered, Function.update_of_ne here]
    rfl

theorem registered_prune (address other : List Id) :
    registered hash (fun other => if address <:+ other then none else executions other) other =
      if address <:+ other then fun _ => [] else registered hash executions other := by
  simp only [registered]
  split <;> simp_all

/-- The callbacks agree with the objects again once both have been changed in one
domain. -/
theorem registered_write (agrees : ∀ address, registered hash executions address = alive address)
    {written : Table Id (Execution Id Callback)} {objects : Id → List Callback}
    (here : stackIn hash written = objects) (address other : List Id) :
    registered hash (Function.update executions address (some written)) other =
      Function.update alive address objects other := by
  rw [registered_update]
  by_cases same : other = address
  · subst same
    rw [if_pos rfl, Function.update_self, here]
  · rw [if_neg same, Function.update_of_ne same, agrees]

/-- An execution that is attached leaves the callbacks of the others in place
unless the map is rehashed. -/
theorem registered_attach_iff (kept : Kept hash table) (found : executions address = some table)
    (agrees : ∀ address, registered hash executions address = alive address) (id : Id) :
    (∀ other, registered hash (Function.update executions address
        (some (insert hash Execution.moved table id (.new id)).1)) other = alive other) ↔
      bare (alive address) table = true := by
  have here : stackIn hash table = alive address := by
    rw [← agrees, registered_eq found]
  rw [bare_iff kept]
  constructor
  · intro agreesAfter needed other execution got
    have after := congrFun (agreesAfter address) other
    rw [registered_update, if_pos rfl, stackIn_insert kept, if_pos needed] at after
    exact after.symm
  · intro quiet other
    rw [registered_update]
    split
    · rename_i same
      subst same
      funext held
      rw [stackIn_insert kept]
      split
      · rename_i needed
        rw [← here]
        cases got : table.get (HashMap.slot hash) held with
        | none => simp [stackIn, got]
        | some execution =>
            rw [here]
            exact (quiet needed held execution got).symm
      · rw [here]
    · exact agrees other

/-! ## One step -/

theorem Lawful.attachExecution_iff (lawful : Lawful hash state.executions state.contexts)
    (agrees : ∀ address, registered hash state.executions address = state.alive address)
    (attached : state.attachExecution hash address id = some next) :
    (∀ other, registered hash next.executions other = next.alive other) ↔
      (state.executions address).all (bare (state.alive address)) = true := by
  obtain ⟨table, found, rfl⟩ := Option.map_eq_some_iff.mp attached
  rw [found]
  exact registered_attach_iff (lawful.maps _ _ found) found agrees id

theorem Lawful.fetchTask_iff (lawful : Lawful hash state.executions state.contexts)
    (agrees : ∀ address, registered hash state.executions address = state.alive address)
    (fetched : state.fetchTask hash = some next) :
    (∀ other, registered hash next.executions other = next.alive other) ↔
      (state.queue ≠ [] → (state.executions []).all (bare (state.alive [])) = true) := by
  unfold State.fetchTask at fetched
  cases waiting : state.queue with
  | nil =>
      rw [waiting] at fetched
      cases fetched
      exact ⟨fun _ none => absurd rfl none, fun _ => agrees⟩
  | cons task rest =>
      simp only [waiting] at fetched
      obtain ⟨middle, first, second⟩ := Option.bind_eq_some_iff.mp fetched
      dsimp only at second
      split at second <;> cases second
      refine (Lawful.attachExecution_iff ?_ ?_ first).trans
        ⟨fun quiet _ => quiet, fun quiet => quiet (by simp)⟩
      · exact lawful
      · exact agrees

/-- Attaching does not touch the logs. -/
theorem State.Faithful.iff_of_logs (faithful : state.Faithful hash)
    (processed : next.processed = state.processed) (destroyed : next.destroyed = state.destroyed) :
    next.Faithful hash ↔
      ∀ address, Store.registered hash next.executions address = next.alive address := by
  constructor
  · exact State.Faithful.registered
  · intro agrees
    exact ⟨agrees, by rw [processed]; exact faithful.processed,
      by rw [destroyed]; exact faithful.destroyed⟩

/-- The execution is detached with its objects, and the domains nested in it with
theirs. -/
theorem registered_detach (lawful : Lawful hash state.executions state.contexts)
    (agrees : ∀ address, registered hash state.executions address = state.alive address)
    (address : List Id) (id : Id) (other : List Id) :
    registered hash (state.detach hash address id).executions other =
      (state.detach hash address id).alive other := by
  have pruned (place : List Id) : registered hash (state.prune (id :: address)).executions place =
      (state.prune (id :: address)).alive place := by
    simp only [State.prune]
    rw [registered_prune, agrees]
  have stays : ¬ id :: address <:+ address := by
    intro below
    have shorter := below.length_le
    simp at shorter
  have here : (state.prune (id :: address)).executions address = state.executions address :=
    if_neg stays
  simp only [State.detach]
  cases found : state.executions address with
  | none =>
      rw [here, found, Option.map_none]
      by_cases same : other = address
      · subst same
        rw [Function.update_self, registered, Function.update_self]
        have none := agrees other
        rw [registered, found] at none
        funext held
        by_cases is : held = id
        · rw [is, Function.update_self]
        · rw [Function.update_of_ne is]
          simp only [State.prune, if_neg stays]
          exact congrFun none held
      · rw [Function.update_of_ne same, registered, Function.update_of_ne same]
        exact pruned other
  | some table =>
      rw [here, found, Option.map_some]
      refine registered_write pruned ?_ address other
      funext held
      rw [stackIn_remove (lawful.maps _ _ found)]
      have before := agrees address
      rw [registered_eq found] at before
      simp only [State.prune, if_neg stays, before]

theorem State.Faithful.detach (faithful : state.Faithful hash)
    (lawful : Lawful hash state.executions state.contexts) (address : List Id) (id : Id) :
    (state.detach hash address id).Faithful hash :=
  ⟨registered_detach lawful faithful.registered address id, faithful.processed, faithful.destroyed⟩

theorem State.Faithful.prune_registered (faithful : state.Faithful hash) (address other : List Id) :
    Store.registered hash (state.prune address).executions other =
      (state.prune address).alive other := by
  simp only [State.prune]
  rw [registered_prune, faithful.registered]

/-- A step keeps the callbacks exactly if it does not rehash the map of an
execution that has some. -/
theorem State.Faithful.step_iff (faithful : state.Faithful hash) (ready : state.Ready hash)
    (moved : Moves hash state label next) : next.Faithful hash ↔ Unburdened state label := by
  have lawful := ready.lawful
  have agrees := faithful.registered
  have logs {after : State Id Callback}
      (kept : ∀ address, Store.registered hash after.executions address = after.alive address)
      (processed : after.processed = state.processed)
      (destroyed : after.destroyed = state.destroyed) : after.Faithful hash :=
    (faithful.iff_of_logs processed destroyed).mpr kept
  cases moved with
  | others queue permits => exact ⟨fun _ => trivial, fun _ => logs agrees rfl rfl⟩
  | fetch idle fetched =>
      obtain ⟨_, _, _, processed, destroyed⟩ := fetchTask_fields fetched
      exact (faithful.iff_of_logs processed destroyed).trans (lawful.fetchTask_iff agrees fetched)
  | schedule idle scheduled =>
      obtain ⟨table, index, context, _, _, _, rfl⟩ := schedule_cases scheduled
      exact ⟨fun _ => trivial, fun _ => logs agrees rfl rfl⟩
  | visit visiting visited =>
      obtain ⟨table, index, _, _, rfl⟩ := visit_cases visited
      exact ⟨fun _ => trivial, fun _ => logs agrees rfl rfl⟩
  | exit visiting left =>
      obtain ⟨table, _, rfl | rfl⟩ := exit_cases left
      · exact ⟨fun _ => trivial, fun _ => logs agrees rfl rfl⟩
      · exact ⟨fun _ => trivial, fun _ => logs (faithful.prune_registered _) rfl rfl⟩
  | execute visiting => exact ⟨fun _ => trivial, fun _ => logs agrees rfl rfl⟩
  | spawn executing spawned =>
      obtain ⟨middle, made, queue, rfl⟩ := spawn_cases spawned
      rcases made with ⟨permitted, rfl⟩ | ⟨exhausted, fetched⟩
      · refine ⟨fun _ none => ?_, fun _ => logs agrees rfl rfl⟩
        omega
      · obtain ⟨_, _, _, processed, destroyed⟩ := fetchTask_fields fetched
        have fetches :
            (∀ other, Store.registered hash middle.executions other = middle.alive other) ↔
            (state.queue ≠ [] → (state.executions []).all (bare (state.alive [])) = true) :=
          lawful.fetchTask_iff agrees fetched
        constructor
        · intro stays _
          exact fetches.mp stays.registered
        · intro quiet
          exact logs (fetches.mpr (quiet exhausted)) processed destroyed
  | construct executing =>
      refine ⟨fun _ => trivial, fun _ => logs (fun other => ?_) rfl rfl⟩
      simp only [State.construct]
      rw [registered_update]
      split
      · rename_i here
        subst here
        rw [stackIn_created]
        simp [State.prune]
      · exact faithful.prune_registered _ other
  | attach executing attached =>
      obtain ⟨_, _, _, _, processed, destroyed⟩ := attachExecution_fields attached
      exact (faithful.iff_of_logs processed destroyed).trans
        (lawful.attachExecution_iff agrees attached)
  | register stands registered =>
      obtain ⟨table, execution, found, got, rfl⟩ := register_cases registered
      refine ⟨fun _ => trivial, fun _ => logs (registered_write agrees ?_ _) rfl rfl⟩
      rw [← agrees, registered_eq found]
      funext other
      exact stackIn_modify (lawful.maps _ _ found) _ other _ got
  | destroy stands destroyed =>
      obtain ⟨table, object, rest, execution, found, alive, got, rfl⟩ := destroy_cases destroyed
      have here := (registered_eq found).symm.trans (agrees _)
      have stack : execution.cancelCallbackStack = object :: rest := by
        rw [← alive, ← here]
        simp [stackIn, got]
      refine ⟨fun _ => trivial, fun _ => ⟨registered_write agrees ?_ _, faithful.processed, ?_⟩⟩
      · funext other
        rw [stackIn_modify (lawful.maps _ _ found) _ other List.tail got, here, alive]
        rfl
      · intro pair member
        cases List.mem_cons.mp member with
        | inl now =>
            rw [now, stack]
            rfl
        | inr before => exact faithful.destroyed pair before
  | leave stands left =>
      rcases leave_cases left with ⟨_, _, rfl⟩ | ⟨_, rfl⟩
      · exact ⟨fun _ => trivial, fun _ => faithful.detach lawful _ _⟩
      · exact ⟨fun _ => trivial, fun _ => logs agrees rfl rfl⟩
  | @cancel top rest _ stands cancelled =>
      obtain ⟨table, execution, found, got, rfl⟩ := cancel_cases cancelled
      have here := (registered_eq found).symm.trans (agrees _)
      have logged : State.Faithful hash { state with
          processed := (state.alive (path rest) top.id, execution.cancelCallbackStack) ::
            state.processed } := by
        refine ⟨agrees, ?_, faithful.destroyed⟩
        intro pair member
        cases List.mem_cons.mp member with
        | inl now =>
            rw [now, ← here]
            simp [stackIn, got]
        | inr before => exact faithful.processed pair before
      exact ⟨fun _ => trivial, fun _ => logged.detach lawful _ _⟩

theorem faithful_initial : (State.initial Id Callback).Faithful hash where
  registered := by
    intro address
    simp only [State.initial]
    rw [registered_update]
    split
    · exact stackIn_created
    · rfl
  processed := by
    intro pair member
    cases member
  destroyed := by
    intro pair member
    cases member

/-! ## Every run -/

/-- While no map is rehashed that holds an execution with a `cancel_callback`, the
callbacks are those of the objects alive.  The first such rehash loses some. -/
theorem faithful_of_unburdened (reachable : (machine Callback hash).Reachable Unburdened state) :
    state.Faithful hash ∧ ∀ label next, state.move hash label = some next →
      (next.Faithful hash ↔ Unburdened state label) := by
  have ready := ready_of_reachable reachable
  have faithful : state.Faithful hash := by
    obtain ⟨first, rfl, run⟩ := reachable
    have start : (machine Callback hash).Reachable Machine.free (.initial Id Callback) :=
      ⟨_, rfl, .refl _⟩
    refine (run.reachable_preserves (State.Faithful hash) start (fun _ _ _ => trivial) ?_
      faithful_initial).2
    intro state label next reached faithful unburdened moved
    exact (faithful.step_iff (ready_of_reachable reached) (moves_of_move moved)).mpr unburdened
  exact ⟨faithful, fun label next moved => faithful.step_iff ready (moves_of_move moved)⟩

/-- A task registers two callbacks, destroys the second, and is cancelled. -/
theorem faithful_of_unburdened_scopes :
    ∃ state : State ℕ ℕ, (machine ℕ UInt64.ofNat).Reachable Unburdened state ∧
      (state.processed = [([1], [1])] ∧ state.destroyed = [(2, some 2)]) ∧
      state.Faithful UInt64.ofNat ∧ ∀ label next, state.move UInt64.ofNat label = some next →
        (next.Faithful UInt64.ofNat ↔ Unburdened state label) := by
  obtain ⟨state, reachable, logs⟩ :=
    Machine.reachable_of_any (machine ℕ UInt64.ofNat) Unburdened (.initial ℕ ℕ)
      [.others [0] 1023, .fetch, .schedule 0, .execute, .register 1, .register 2, .destroy, .cancel]
      (fun state => state.processed = [([1], [1])] ∧ state.destroyed = [(2, some 2)])
      rfl (by decide +kernel)
  exact ⟨state, reachable, logs, faithful_of_unburdened reachable⟩

/-- A task registers a callback and yields, 39 more tasks are attached, of which
the last makes the map rehash, and the cancellation invokes nothing. -/
theorem rehash_loses_callback : ¬ ∀ state : State ℕ ℕ,
    (machine ℕ UInt64.ofNat).Reachable Machine.free state → state.Faithful UInt64.ofNat := by
  intro faithful
  obtain ⟨state, reachable, processed⟩ :=
    Machine.reachable_of_any (machine ℕ UInt64.ofNat) Machine.free (.initial ℕ ℕ)
      (List.flatten
        [[.others (List.range 40) 984, .fetch, .schedule 0, .execute, .register 1, .leave false],
          List.replicate 39 .fetch, [.schedule 0, .execute, .cancel]])
      (fun state => state.processed = [([1], [])]) rfl (by decide +kernel)
  have exact_ := (faithful state reachable).processed ([1], []) (by simp [processed])
  cases exact_

end Asco.Core.Worker.Store
