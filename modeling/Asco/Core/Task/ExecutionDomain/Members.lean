import Asco.Core.Task.ExecutionDomain

namespace Asco.Core.Task

open Foundation
open DynprioScheduler (ExecutionState)
open CycleScheduler (ExecutionSched)

/-! # The executions attached to an `execution_domain`

Executions are attached to a nested domain and detached from it, and every
operation of its scheduler keeps one slot for each execution that is attached.
-/

/-- What is kept about an execution: whether its scheduler holds it as active, whether
it has asked to be suspended, and the state that its domain records. -/
structure View where
  active : Bool
  suspendNow : Bool
  state : ExecutionState
deriving DecidableEq

namespace View

variable (view : View)

/-- After `awake_execution`. -/
def awoken : View :=
  if view.active then view else { active := true, suspendNow := false, state := .active }

/-- After `suspend_current`, unless an early wake-up gives it up. -/
def asked : View := { view with suspendNow := true, state := .suspended }

/-- What `end(completed)` may leave behind. -/
def Ended (completed : Bool) (after : View) : Prop :=
  after = { active := true, suspendNow := false, state := .active } ∧ completed = false ∨
    after = { active := false, suspendNow := false, state := .suspended } ∧
      (completed = true ∨ view.suspendNow = true)

/-- What is recorded is what the scheduler holds, unless the execution, which must be
`asking`, has asked to be suspended. -/
structure Agrees (asking : Prop) : Prop where
  held : view.active = false → view.state = .suspended
  recorded : view.state = .suspended → view.active = false ∨ view.suspendNow = true
  asks : view.suspendNow = true → asking

variable {view}

theorem Ended.agrees {after : View} {completed : Bool} (ended : view.Ended completed after)
    (asking : Prop) : after.Agrees asking := by
  rcases ended with ⟨rfl, _⟩ | ⟨rfl, _⟩
  · exact ⟨nofun, nofun, nofun⟩
  · exact ⟨fun _ => rfl, fun _ => .inl rfl, nofun⟩

theorem awoken_active : view.awoken.active = true := by
  unfold awoken
  split
  · assumption
  · rfl

theorem awoken_suspendNow (asks : view.awoken.suspendNow = true) : view.suspendNow = true := by
  unfold awoken at asks
  split at asks
  · exact asks
  · contradiction

theorem Agrees.awoken {asking : Prop} (agrees : view.Agrees asking) :
    view.awoken.Agrees asking := by
  unfold View.awoken
  split
  · exact agrees
  · exact ⟨nofun, nofun, nofun⟩

theorem awoken_of_active (active : view.active = true) : view.awoken = view := if_pos active

end View

namespace CycleScheduler.ExecutionSched

variable {Id : Type*}

/-- One for the slot of an execution that is active. -/
def weight (state : ExecutionSched Id) : ℕ := if state.id.isSome ∧ state.active then 1 else 0

end CycleScheduler.ExecutionSched

namespace ExecutionDomain

variable {Id : Type*} [DecidableEq Id] (domain : ExecutionDomain Id)

/-- `attach_execution` of the scheduler. -/
def attachExecution (id : Id) : Option (ExecutionDomain Id) :=
  (domain.scheduler.attachExecution id).map fun scheduler => { domain with scheduler }

/-- `detach_suspended_execution` of the scheduler. -/
def detachSuspendedExecution (id : Id) : Option (ExecutionDomain Id) :=
  (domain.scheduler.detachSuspendedExecution id).map fun scheduler => { domain with scheduler }

def recordState (id : Id) (state : ExecutionState) : ExecutionDomain Id :=
  { domain with scheduler := domain.scheduler.recordState id state }

/-- `activate_all`, with the executions of `m_execution_list`. -/
def activateAll (members : Finset Id) : ExecutionDomain Id :=
  { domain with
    scheduler := { domain.scheduler with
      domain := fun id => if id ∈ members then .active else domain.scheduler.domain id } }

def view (id : Id) : Option View :=
  (domain.slot id).map fun slot =>
    { active := slot.active, suspendNow := slot.suspendNow, state := domain.executionState id }

/-- The scheduler holds the execution as suspended. -/
def held (id : Id) : Bool := (domain.view id).any (!·.active)

/-- `members` are the executions that are attached.  Each of them has the slot that
the index map leads to. -/
structure Filled (members : Finset Id) : Prop where
  placed : ∀ id ∈ members, ∃ index, domain.scheduler.find id = some index ∧
    (domain.scheduler.executions index).id = some id
  named : ∀ index id, (domain.scheduler.executions index).id = some id →
    id ∈ members ∧ domain.scheduler.find id = some index
  undetached : ∀ index id, (domain.scheduler.executions index).id = some id →
    (domain.scheduler.executions index).detached = false
  unfilled : ∀ index : Fin domain.size, domain.scheduler.fillIndex ≤ index.val →
    domain.scheduler.executionIndexMap index = none ∧
      (domain.scheduler.executions index).id = none
  count : domain.scheduler.activeCount =
    ∑ index, (domain.scheduler.executions index).weight

variable {domain} {members : Finset Id} {id other : Id}

theorem empty_filled (parent : Option Id) (size : ℕ) (states : Id → ExecutionState) :
    Filled { parent, size, scheduler := .empty size states } ∅ where
  placed _ member := absurd member (Finset.notMem_empty _)
  named _ _ named := nomatch named
  undetached _ _ named := nomatch named
  unfilled _ _ := ⟨rfl, rfl⟩
  count := by
    have idle : ∀ index : Fin size, ((CycleScheduler.Scheduler.empty size states).executions
        index).weight = 0 := fun _ => rfl
    exact (Finset.sum_eq_zero fun index _ => idle index).symm

theorem Filled.exists_slot (filled : domain.Filled members) (member : id ∈ members) :
    ∃ index, domain.scheduler.find id = some index ∧
      (domain.scheduler.executions index).id = some id ∧
      domain.slot id = some (domain.scheduler.executions index) := by
  obtain ⟨index, found, named⟩ := filled.placed id member
  exact ⟨index, found, named, by rw [slot, found, Option.map_some]⟩

theorem Filled.exists_view (filled : domain.Filled members) (member : id ∈ members) :
    ∃ view, domain.view id = some view := by
  obtain ⟨index, _, _, holds⟩ := filled.exists_slot member
  exact ⟨_, by rw [view, holds, Option.map_some]⟩

/-- The slots of two executions are different. -/
theorem Filled.apart (filled : domain.Filled members) {index : Fin domain.size}
    (named : (domain.scheduler.executions index).id = some id) (member : other ∈ members)
    (different : other ≠ id) : domain.scheduler.find other ≠ some index := by
  intro found
  obtain ⟨position, search, holds⟩ := filled.placed other member
  obtain rfl : position = index := Option.some.inj (search.symm.trans found)
  exact different (Option.some.inj (holds.symm.trans named))

theorem Filled.hasActive_of_active (filled : domain.Filled members) {view : View}
    (member : id ∈ members) (viewed : domain.view id = some view) (active : view.active = true) :
    domain.hasActiveExecution = true := by
  obtain ⟨index, _, named, holds⟩ := filled.exists_slot member
  rw [ExecutionDomain.view, holds, Option.map_some, Option.some.injEq] at viewed
  subst viewed
  have weighs : (domain.scheduler.executions index).weight = 1 := by
    rw [ExecutionSched.weight, if_pos ⟨by rw [named]; rfl, active⟩]
  have bounded : (domain.scheduler.executions index).weight ≤
      ∑ index, (domain.scheduler.executions index).weight :=
    Finset.single_le_sum (f := fun index => (domain.scheduler.executions index).weight)
      (fun _ _ => Nat.zero_le _) (Finset.mem_univ index)
  rw [hasActiveExecution, CycleScheduler.Scheduler.hasActiveExecution, filled.count]
  exact decide_eq_true (by omega)

/-- A call after which `after` is kept about one execution and nothing else has changed. -/
structure Turned (domain next : ExecutionDomain Id) (members : Finset Id) (id : Id)
    (after : View) : Prop where
  filled : next.Filled members
  contexts : next.context = domain.context
  views : ∀ other ∈ members, next.view other = if other = id then some after else domain.view other

/-- A call that does not change whose the slots are and which of them are in use. -/
theorem Filled.of_slots {scheduler : CycleScheduler.Scheduler domain.size Id}
    (filled : domain.Filled members)
    (sameMap : scheduler.executionIndexMap = domain.scheduler.executionIndexMap)
    (sameFill : scheduler.fillIndex = domain.scheduler.fillIndex)
    (ids : ∀ index, (scheduler.executions index).id = (domain.scheduler.executions index).id)
    (detached : ∀ index, (scheduler.executions index).detached =
      (domain.scheduler.executions index).detached)
    (count : scheduler.activeCount = ∑ index, (scheduler.executions index).weight) :
    Filled { domain with scheduler } members := by
  have sameFind : scheduler.find = domain.scheduler.find := CycleScheduler.find_congr sameMap
  constructor
  · simpa only [sameFind, ids] using filled.placed
  · simpa only [sameFind, ids] using filled.named
  · simpa only [ids, detached] using filled.undetached
  · simpa only [ids, sameFill, sameMap] using filled.unfilled
  · exact count

/-- A call that changes one slot, but neither whose slot it is nor that it is in use. -/
theorem Filled.turned {scheduler : CycleScheduler.Scheduler domain.size Id}
    {index : Fin domain.size} {state : ExecutionSched Id} {after : View}
    (filled : domain.Filled members)
    (sameMap : scheduler.executionIndexMap = domain.scheduler.executionIndexMap)
    (sameFill : scheduler.fillIndex = domain.scheduler.fillIndex)
    (executions : scheduler.executions = Function.update domain.scheduler.executions index state)
    (sameId : state.id = (domain.scheduler.executions index).id)
    (sameDetached : state.detached = (domain.scheduler.executions index).detached)
    (count : scheduler.activeCount + (domain.scheduler.executions index).weight =
      domain.scheduler.activeCount + state.weight)
    (named : (domain.scheduler.executions index).id = some id)
    (others : ∀ other, other ≠ id → scheduler.domain other = domain.scheduler.domain other)
    (left : after = { active := state.active, suspendNow := state.suspendNow
                      state := scheduler.domain id }) :
    Turned domain { domain with scheduler } members id after := by
  have sameFind : scheduler.find = domain.scheduler.find := CycleScheduler.find_congr sameMap
  have ids (position : Fin domain.size) :
      (scheduler.executions position).id = (domain.scheduler.executions position).id := by
    rw [executions]
    by_cases same : position = index
    · rw [same, Function.update_self, sameId]
    · rw [Function.update_of_ne same]
  have detached (position : Fin domain.size) : (scheduler.executions position).detached =
      (domain.scheduler.executions position).detached := by
    rw [executions]
    by_cases same : position = index
    · rw [same, Function.update_self, sameDetached]
    · rw [Function.update_of_ne same]
  constructor
  · refine filled.of_slots sameMap sameFill ids detached ?_
    have total := sum_update_add ExecutionSched.weight domain.scheduler.executions
      (Finset.mem_univ index) state
    have counted := filled.count
    simp only [executions]
    omega
  · funext other
    simp only [context, sameFind]
  · intro other member
    split
    · rename_i same
      subst same left
      simp only [view, slot, executionState, sameFind, (filled.named index other named).2,
        executions, Option.map_some, Function.update_self]
    · rename_i different
      obtain ⟨position, search, _⟩ := filled.placed other member
      have apart : position ≠ index := by
        intro same
        exact filled.apart named member different (same ▸ search)
      simp only [view, slot, executionState, sameFind, search, executions, Option.map_some,
        Function.update_of_ne apart, others other different]

theorem Filled.view_eq (filled : domain.Filled members) (member : id ∈ members) :
    ∃ index, domain.scheduler.find id = some index ∧
      (domain.scheduler.executions index).id = some id ∧
      domain.view id = some
        { active := (domain.scheduler.executions index).active
          suspendNow := (domain.scheduler.executions index).suspendNow
          state := domain.executionState id } := by
  obtain ⟨index, found, named, holds⟩ := filled.exists_slot member
  exact ⟨index, found, named, by rw [view, holds, Option.map_some]⟩

/-! ## One lemma for each call -/

/-- The wake-up of an execution that is not suspended leaves only a note. -/
theorem Filled.awakeExecution_active (filled : domain.Filled members)
    (active : domain.held id = false) :
    (domain.awakeExecution id).Filled members ∧
      (domain.awakeExecution id).context = domain.context ∧
      (domain.awakeExecution id).view = domain.view := by
  cases found : domain.scheduler.find id with
  | none =>
      have same : domain.awakeExecution id = domain := by
        simp only [ExecutionDomain.awakeExecution, CycleScheduler.Scheduler.awakeExecution, found]
      rw [same]
      exact ⟨filled, rfl, rfl⟩
  | some index =>
      have running : (domain.scheduler.executions index).active = true := by
        simpa [held, view, slot, found] using active
      simp only [ExecutionDomain.awakeExecution, CycleScheduler.Scheduler.awakeExecution, found,
        running, if_true]
      have kept (position : Fin domain.size) : ∃ preawaken,
          (domain.scheduler.modify index fun state =>
            { state with preawaken := true }).executions position =
          { domain.scheduler.executions position with preawaken } := by
        by_cases here : position = index
        · subst here
          exact ⟨true, Function.update_self _ _ _⟩
        · exact ⟨_, Function.update_of_ne here _ _⟩
      refine ⟨filled.of_slots rfl rfl ?_ ?_ ?_, rfl, ?_⟩
      · intro position
        obtain ⟨_, same⟩ := kept position
        rw [same]
      · intro position
        obtain ⟨_, same⟩ := kept position
        rw [same]
      · refine filled.count.trans (Finset.sum_congr rfl fun position _ => ?_)
        obtain ⟨_, same⟩ := kept position
        rw [same]
        rfl
      · funext other
        unfold view slot
        simp only [Option.map_map]
        refine Option.map_congr fun position _ => ?_
        obtain ⟨_, same⟩ := kept position
        simp only [Function.comp_apply, same]
        rfl

theorem Filled.awakeExecution {before : View} (filled : domain.Filled members)
    (member : id ∈ members) (viewed : domain.view id = some before) :
    Turned domain (domain.awakeExecution id) members id before.awoken := by
  obtain ⟨index, found, named, holds⟩ := filled.view_eq member
  obtain rfl := Option.some.inj (viewed.symm.trans holds)
  cases active : (domain.scheduler.executions index).active with
  | true =>
      simp only [ExecutionDomain.awakeExecution, CycleScheduler.Scheduler.awakeExecution, found,
        active, if_true]
      exact filled.turned rfl rfl rfl rfl rfl rfl named (fun _ _ => rfl)
        (by simp [View.awoken, active, CycleScheduler.Scheduler.modify]; rfl)
  | false =>
      simp only [ExecutionDomain.awakeExecution, CycleScheduler.Scheduler.awakeExecution, found,
        active, Bool.false_eq_true, if_false]
      refine filled.turned rfl rfl rfl rfl rfl ?_ named ?_ ?_
      · simp [ExecutionSched.weight, named, active, CycleScheduler.Scheduler.recordState,
          CycleScheduler.Scheduler.modify]
      · intro other different
        exact Function.update_of_ne different _ _
      · simp [View.awoken, CycleScheduler.Scheduler.recordState]

theorem Filled.suspendCurrent {before : View} (filled : domain.Filled members)
    (member : id ∈ members) (viewed : domain.view id = some before) :
    ∃ after, (after = before ∨ after = before.asked) ∧
      Turned domain (domain.suspendCurrent id) members id after := by
  obtain ⟨index, found, named, holds⟩ := filled.view_eq member
  obtain rfl := Option.some.inj (viewed.symm.trans holds)
  cases early : (domain.scheduler.executions index).preawaken with
  | true =>
      simp only [ExecutionDomain.suspendCurrent, CycleScheduler.Scheduler.suspendCurrent, found,
        early, if_true]
      exact ⟨_, .inl rfl, filled.turned rfl rfl rfl rfl rfl rfl named (fun _ _ => rfl) rfl⟩
  | false =>
      simp only [ExecutionDomain.suspendCurrent, CycleScheduler.Scheduler.suspendCurrent, found,
        early, Bool.false_eq_true, if_false]
      refine ⟨_, .inr rfl, filled.turned rfl rfl rfl rfl rfl rfl named ?_ ?_⟩
      · intro other different
        exact Function.update_of_ne different _ _
      · simp [View.asked, CycleScheduler.Scheduler.recordState]

theorem Filled.endContext {context : ℕ} {completed : Bool} {before : View}
    (filled : domain.Filled members) (member : id ∈ members)
    (scheduled : domain.context id = some context) (viewed : domain.view id = some before)
    (active : before.active = true) :
    ∃ after, before.Ended completed after ∧
      Turned domain (domain.endContext context completed) members id after := by
  obtain ⟨index, found, named, holds⟩ := filled.view_eq member
  obtain rfl := Option.some.inj (viewed.symm.trans holds)
  have running : (domain.scheduler.executions index).active = true := active
  have index_val : index.val = context := by
    rw [ExecutionDomain.context, found, Option.map_some, Option.some.injEq] at scheduled
    exact scheduled
  subst index_val
  simp only [ExecutionDomain.endContext, index.isLt, dif_pos, Fin.eta,
    CycleScheduler.Scheduler.endContext, named]
  have others (state : ExecutionState) (other : Id) (different : other ≠ id) :
      Function.update domain.scheduler.domain id state other = domain.scheduler.domain other :=
    Function.update_of_ne different _ _
  split
  · rename_i suspends
    have positive : 0 < domain.scheduler.activeCount := by
      have busy := filled.hasActive_of_active member viewed active
      simpa [hasActiveExecution, CycleScheduler.Scheduler.hasActiveExecution] using busy
    have asked : completed = true ∨ (domain.scheduler.executions index).suspendNow = true := by
      cases completed with
      | true => exact .inl rfl
      | false =>
          simp only [Bool.or_false, Bool.and_eq_true] at suspends
          exact .inr suspends.1
    refine ⟨_, .inr ⟨rfl, asked⟩,
      filled.turned rfl rfl rfl rfl rfl ?_ named (others .suspended) ?_⟩
    · simp only [ExecutionSched.weight, named, running, CycleScheduler.Scheduler.recordState,
        CycleScheduler.Scheduler.modify]
      simp
      omega
    · simp [CycleScheduler.Scheduler.recordState]
  · rename_i stays
    have unfinished : completed = false := by
      cases completed with
      | true => simp at stays
      | false => rfl
    refine ⟨_, .inl ⟨rfl, unfinished⟩,
      filled.turned rfl rfl rfl rfl rfl rfl named (others .active) ?_⟩
    simp [CycleScheduler.Scheduler.recordState, running]

theorem Filled.recordState {before : View} (filled : domain.Filled members)
    (viewed : domain.view id = some before) (state : ExecutionState) :
    Turned domain (domain.recordState id state) members id { before with state } where
  filled := { filled with }
  contexts := rfl
  views other _ := by
    have slots : (domain.recordState id state).slot = domain.slot := rfl
    have states : (domain.recordState id state).executionState other =
        if other = id then state else domain.executionState other := Function.update_apply ..
    obtain ⟨slot, holds, rfl⟩ := Option.map_eq_some_iff.mp viewed
    rw [view, slots, states]
    split
    · rename_i same
      rw [same, holds]
      rfl
    · rfl

/-- What is recorded about one execution is not what is kept about another. -/
theorem recordState_view (state : ExecutionState) (different : other ≠ id) :
    (domain.recordState id state).view other = domain.view other := by
  have states : (domain.recordState id state).executionState other = domain.executionState other :=
    Function.update_of_ne different _ _
  rw [view, states]
  rfl

theorem Filled.activateAll (filled : domain.Filled members) :
    (domain.activateAll members).Filled members ∧
      (domain.activateAll members).context = domain.context ∧
      ∀ other ∈ members, (domain.activateAll members).view other =
        (domain.view other).map fun view => { view with state := .active } := by
  refine ⟨{ filled with }, rfl, fun other member => ?_⟩
  have slots : (domain.activateAll members).slot = domain.slot := rfl
  have state : (domain.activateAll members).executionState other = .active := if_pos member
  rw [view, slots, state, view, Option.map_map]
  rfl

/-- `schedule` yields an execution that is attached and active. -/
theorem Filled.schedule {context : Fin domain.size} {next : ExecutionDomain Id}
    (filled : domain.Filled members) (yields : domain.schedule = some (id, context, next)) :
    id ∈ members ∧ domain.context id = some context.val ∧
      (∃ view, domain.view id = some view ∧ view.active = true) ∧
      next.Filled members ∧ next.context = domain.context ∧ next.view = domain.view := by
  unfold ExecutionDomain.schedule at yields
  split at yields
  · rename_i scheduled
    cases yields
    obtain ⟨named, selectable, index, _, rfl⟩ := CycleScheduler.schedule_spec scheduled
    obtain ⟨member, found⟩ := filled.named context id named.symm
    simp only [CycleScheduler.Scheduler.selectable, Bool.not_eq_true', Bool.or_eq_false_iff,
      Bool.not_eq_false'] at selectable
    exact ⟨member, by rw [ExecutionDomain.context, found, Option.map_some],
      ⟨_, by rw [view, slot, found, Option.map_some, Option.map_some], selectable.2⟩,
      { filled with }, rfl, rfl⟩
  · contradiction

/-! ## Attaching and detaching -/

/-- The index map after one more entry at the end. -/
theorem find_update {scheduler : CycleScheduler.Scheduler domain.size Id}
    (next : CycleScheduler.Scheduler domain.size Id) {index : Fin domain.size}
    (vacant : scheduler.executionIndexMap index = none)
    (absent : scheduler.find id = none)
    (changed : next.executionIndexMap =
      Function.update scheduler.executionIndexMap index (some (id, index))) (other : Id) :
    next.find other = if other = id then some index else scheduler.find other := by
  have others (key : Id) (different : key ≠ id) : next.find key = scheduler.find key := by
    unfold CycleScheduler.Scheduler.find
    congr 1
    funext position
    by_cases here : position = index
    · subst here
      simp [changed, vacant, Ne.symm different]
    · simp [changed, here]
  split
  · rename_i same
    subst same
    have found : (next.find other).isSome := by
      rw [CycleScheduler.Scheduler.find, List.findSome?_isSome_iff]
      exact ⟨index, List.mem_finRange index, by simp [changed]⟩
    obtain ⟨result, search⟩ := Option.isSome_iff_exists.mp found
    obtain ⟨position, _, matched⟩ := List.exists_of_findSome?_eq_some search
    by_cases here : position = index
    · subst here
      simpa [changed, search, eq_comm] using matched
    · have missing := List.findSome?_eq_none_iff.mp absent position (List.mem_finRange position)
      rw [changed, Function.update_of_ne here] at matched
      rw [missing] at matched
      contradiction
  · rename_i different
    exact others other different

theorem Filled.attachExecution {next : ExecutionDomain Id} (filled : domain.Filled members)
    (fresh : domain.scheduler.find id = none) (attached : domain.attachExecution id = some next) :
    next.Filled (insert id members) ∧
      (∀ other ∈ members, next.context other = domain.context other) ∧
      (∀ other ∈ members, next.view other = domain.view other) ∧
      next.view id = some
        { active := true, suspendNow := false, state := domain.executionState id } := by
  have unknown : id ∉ members := by
    intro member
    obtain ⟨_, found, _⟩ := filled.placed id member
    rw [fresh] at found
    contradiction
  obtain ⟨scheduler, attaching, rfl⟩ := Option.map_eq_some_iff.mp attached
  unfold CycleScheduler.Scheduler.attachExecution at attaching
  split at attaching
  · rename_i bound
    obtain ⟨vacant, unnamed⟩ := filled.unfilled ⟨_, bound⟩ le_rfl
    have find := find_update scheduler vacant fresh (by cases attaching; rfl)
    have known (other : Id) (member : other ∈ members) :
        scheduler.find other = domain.scheduler.find other := by
      have different : other ≠ id := by
        intro same
        exact unknown (same ▸ member)
      rw [find, if_neg different]
    have executions : scheduler.executions = Function.update domain.scheduler.executions
        ⟨domain.scheduler.fillIndex, bound⟩ { id := some id } := by
      cases attaching
      rfl
    have ids (position : Fin domain.size) (other : Id) :
        (scheduler.executions position).id = some other ↔
          (position = ⟨_, bound⟩ ∧ other = id) ∨
            (domain.scheduler.executions position).id = some other := by
      rw [executions]
      by_cases here : position = ⟨_, bound⟩
      · subst here
        simp [unnamed, eq_comm]
      · simp [here]
    have slots (other : Id) (member : other ∈ members) :
        slot { domain with scheduler } other = domain.slot other := by
      obtain ⟨position, search, named⟩ := filled.placed other member
      have apart : position ≠ ⟨_, bound⟩ := by
        intro same
        rw [same, unnamed] at named
        contradiction
      simp only [slot, known other member, search, executions, Option.map_some,
        Function.update_of_ne apart]
    refine ⟨?_, ?_, ?_, ?_⟩
    · constructor
      · intro other member
        rcases Finset.mem_insert.mp member with rfl | member
        · exact ⟨⟨_, bound⟩, by rw [find, if_pos rfl], (ids _ _).mpr (.inl ⟨rfl, rfl⟩)⟩
        · obtain ⟨position, search, named⟩ := filled.placed other member
          exact ⟨position, (known other member).trans search, (ids _ _).mpr (.inr named)⟩
      · intro position other named
        rcases (ids _ _).mp named with ⟨rfl, rfl⟩ | named
        · exact ⟨Finset.mem_insert_self _ _, by rw [find, if_pos rfl]⟩
        · obtain ⟨member, search⟩ := filled.named position other named
          exact ⟨Finset.mem_insert_of_mem member, (known other member).trans search⟩
      · intro position other named
        rw [executions]
        by_cases here : position = ⟨_, bound⟩
        · rw [here, Function.update_self]
        · rw [Function.update_of_ne here]
          rcases (ids _ _).mp named with ⟨there, _⟩ | named
          · exact absurd there here
          · exact filled.undetached position other named
      · intro position beyond
        cases attaching
        have apart : position ≠ ⟨_, bound⟩ := by
          intro same
          subst same
          have shifted : domain.scheduler.fillIndex + 1 ≤ domain.scheduler.fillIndex := beyond
          omega
        have earlier := filled.unfilled position (by
          have shifted : domain.scheduler.fillIndex + 1 ≤ position.val := beyond
          omega)
        simpa only [Function.update_of_ne apart] using earlier
      · have total := sum_update_add ExecutionSched.weight domain.scheduler.executions
          (Finset.mem_univ ⟨_, bound⟩) { id := some id }
        have before : (domain.scheduler.executions ⟨_, bound⟩).weight = 0 := by
          simp [ExecutionSched.weight, unnamed]
        have after : ExecutionSched.weight { id := some id } = 1 := rfl
        have counted := filled.count
        have added : scheduler.activeCount = domain.scheduler.activeCount + 1 := by
          cases attaching
          rfl
        simp only [executions]
        omega
    · intro other member
      simp only [context, known other member]
    · intro other member
      have states : executionState { domain with scheduler } other =
          domain.executionState other := by
        cases attaching
        rfl
      rw [view, slots other member, states, view]
    · have states : executionState { domain with scheduler } id = domain.executionState id := by
        cases attaching
        rfl
      simp only [view, states, slot, find, if_pos, executions, Option.map_some,
        Function.update_self]
  · contradiction

theorem Filled.detachSuspendedExecution {next : ExecutionDomain Id}
    (filled : domain.Filled members) (member : id ∈ members)
    (detached : domain.detachSuspendedExecution id = some next) :
    next.Filled (members.erase id) ∧ next.context = domain.context ∧
      ∀ other ∈ members, other ≠ id → next.view other = domain.view other := by
  obtain ⟨index, found, named, holds⟩ := filled.exists_slot member
  obtain ⟨scheduler, detaching, rfl⟩ := Option.map_eq_some_iff.mp detached
  simp only [CycleScheduler.Scheduler.detachSuspendedExecution, found] at detaching
  split at detaching
  · contradiction
  · rename_i inactive
    have sameFind : scheduler.find = domain.scheduler.find := by
      cases detaching
      rfl
    obtain ⟨state, executions, unnamed⟩ : ∃ state : ExecutionSched Id, scheduler.executions =
        Function.update domain.scheduler.executions index state ∧ state.id = none := by
      cases detaching
      exact ⟨_, rfl, rfl⟩
    have ids (position : Fin domain.size) (other : Id) :
        (scheduler.executions position).id = some other ↔
          position ≠ index ∧ (domain.scheduler.executions position).id = some other := by
      rw [executions]
      by_cases here : position = index
      · simp [here, unnamed]
      · simp [here]
    refine ⟨?_, ?_, ?_⟩
    · constructor
      · intro other known
        obtain ⟨different, known⟩ := Finset.mem_erase.mp known
        obtain ⟨position, search, holds⟩ := filled.placed other known
        have apart : position ≠ index := by
          intro same
          exact filled.apart named known different (same ▸ search)
        exact ⟨position, (congrFun sameFind other).trans search, (ids _ _).mpr ⟨apart, holds⟩⟩
      · intro position other holds
        obtain ⟨apart, holds⟩ := (ids _ _).mp holds
        obtain ⟨known, search⟩ := filled.named position other holds
        have different : other ≠ id := by
          intro same
          subst same
          exact apart (Option.some.inj (search.symm.trans found))
        exact ⟨Finset.mem_erase.mpr ⟨different, known⟩, (congrFun sameFind other).trans search⟩
      · intro position other holds
        obtain ⟨apart, holds⟩ := (ids _ _).mp holds
        rw [executions, Function.update_of_ne apart]
        exact filled.undetached position other holds
      · intro position beyond
        have sameFill : scheduler.fillIndex = domain.scheduler.fillIndex := by
          cases detaching
          rfl
        obtain ⟨vacant, unnamed⟩ := filled.unfilled position (sameFill ▸ beyond)
        have apart : position ≠ index := by
          intro same
          subst same
          rw [named] at unnamed
          contradiction
        refine ⟨?_, ?_⟩
        · cases detaching
          exact vacant
        · rw [executions, Function.update_of_ne apart]
          exact unnamed
      · have total := sum_update_add ExecutionSched.weight domain.scheduler.executions
          (Finset.mem_univ index) state
        have before : (domain.scheduler.executions index).weight = 0 := by
          simp [ExecutionSched.weight, inactive]
        have after : state.weight = 0 := by
          simp [ExecutionSched.weight, unnamed]
        have counted := filled.count
        have same : scheduler.activeCount = domain.scheduler.activeCount := by
          cases detaching
          rfl
        simp only [executions]
        omega
    · funext other
      simp only [context, sameFind]
    · intro other known different
      obtain ⟨position, search, _⟩ := filled.placed other known
      have apart : position ≠ index := by
        intro same
        exact filled.apart named known different (same ▸ search)
      have states : executionState { domain with scheduler } other =
          domain.executionState other := by
        cases detaching
        rfl
      simp only [view, states, slot, sameFind, search, executions, Option.map_some,
        Function.update_of_ne apart]

/-- An execution that is not active is detached. -/
theorem Filled.exists_detach (filled : domain.Filled members) (member : id ∈ members)
    (held : domain.held id = true) : ∃ next, domain.detachSuspendedExecution id = some next := by
  obtain ⟨index, found, _, holds⟩ := filled.exists_slot member
  have inactive : (domain.scheduler.executions index).active = false := by
    simpa [ExecutionDomain.held, view, holds] using held
  simp [ExecutionDomain.detachSuspendedExecution,
    CycleScheduler.Scheduler.detachSuspendedExecution, found, inactive]

end ExecutionDomain

end Asco.Core.Task
