import Asco.Core.Worker.Tree.Agreement

namespace Asco.Core.Worker.Tree

open Foundation Asco.Core.Task
open DynprioScheduler (ExecutionState)

/-! # What the schedulers hold

Every execution that is attached is held by the scheduler of its domain once.  The
domains may record anything about it, and a domain may be cancelled that has suspended
executions.
-/

variable {Id : Type*} [DecidableEq Id]

namespace State

variable (state : State Id)

/-- How often the scheduler of the domain holds the execution as active. -/
def heldActive : List Id → Id → ℕ
  | [], id => (state.scheduler.active.filter fun entry => entry.id = id).length
  | parent :: above, id =>
      match state.nested (parent :: above) with
      | none => 0
      | some domain => (Finset.univ.filter fun index =>
          (domain.scheduler.executions index).id = some id ∧
            (domain.scheduler.executions index).detached = false ∧
              (domain.scheduler.executions index).active = true).card

/-- How often the scheduler of the domain holds the execution as suspended. -/
def heldSuspended : List Id → Id → ℕ
  | [], id => if id ∈ state.scheduler.suspended then 1 else 0
  | parent :: above, id =>
      match state.nested (parent :: above) with
      | none => 0
      | some domain => (Finset.univ.filter fun index =>
          (domain.scheduler.executions index).id = some id ∧
            (domain.scheduler.executions index).detached = false ∧
              (domain.scheduler.executions index).active = false).card

end State

variable {state next : State Id} {running : Option Id} {address : List Id} {id : Id}

theorem Sound.held_once (sound : Sound state none) (member : id ∈ state.executions address) :
    state.heldActive address id + state.heldSuspended address id = 1 := by
  cases address with
  | nil =>
      have queued := sound.root.queued id
      have distinct := sound.root.distinct
      have filtered : (state.scheduler.active.filter fun entry => entry.id = id).length =
          (state.scheduler.active.map (·.id)).count id := by
        rw [List.count, List.countP_map, List.countP_eq_length_filter]
        rfl
      simp only [State.heldActive, State.heldSuspended, filtered]
      by_cases suspended : id ∈ state.scheduler.suspended
      · have absent : id ∉ state.scheduler.active.map (·.id) := fun listed =>
          (queued.mp listed).2.1 suspended
        rw [List.count_eq_zero.mpr absent, if_pos suspended]
      · have listed : id ∈ state.scheduler.active.map (·.id) :=
          queued.mpr ⟨member, suspended, nofun⟩
        rw [List.count_eq_one_of_mem distinct listed, if_neg suspended]
  | cons parent above =>
      obtain ⟨domain, present⟩ := sound.exists_domain member
      have filled := sound.filled _ _ present
      obtain ⟨index, found, named⟩ := filled.placed id member
      have undetached := filled.undetached index id named
      have unique : ∀ other, (domain.scheduler.executions other).id = some id → other = index := by
        intro other same
        exact Option.some.inj ((filled.named other id same).2.symm.trans found)
      have slots (active : Bool) : (Finset.univ.filter fun other =>
          (domain.scheduler.executions other).id = some id ∧
            (domain.scheduler.executions other).detached = false ∧
              (domain.scheduler.executions other).active = active) =
          if (domain.scheduler.executions index).active = active then {index} else ∅ := by
        ext other
        by_cases same : other = index
        · subst same
          by_cases agrees : (domain.scheduler.executions other).active = active
          · simp [named, undetached, agrees]
          · simp [agrees]
        · have elsewhere := mt (unique other) same
          split <;> simp [elsewhere, same]
      simp only [State.heldActive, State.heldSuspended, present, slots]
      cases (domain.scheduler.executions index).active <;> simp

theorem Sound.held_of_absent (sound : Sound state running)
    (absent : id ∉ state.executions address) :
    state.heldActive address id = 0 ∧ state.heldSuspended address id = 0 := by
  cases address with
  | nil =>
      have unlisted : id ∉ state.scheduler.active.map (·.id) := fun listed =>
        absent ((sound.root.queued id).mp listed).1
      have awake : id ∉ state.scheduler.suspended := fun suspended =>
        absent (sound.root.suspended suspended)
      simp only [State.heldActive, State.heldSuspended, if_neg awake, and_true,
        List.length_eq_zero_iff, List.filter_eq_nil_iff, decide_eq_true_eq]
      intro entry listed same
      exact unlisted (List.mem_map.mpr ⟨entry, listed, same⟩)
  | cons parent above =>
      cases present : state.nested (parent :: above) with
      | none => simp [State.heldActive, State.heldSuspended, present]
      | some domain =>
          have unnamed : ∀ index, (domain.scheduler.executions index).id ≠ some id :=
            fun index named => absent ((sound.filled _ _ present).named index id named).1
          simp [State.heldActive, State.heldSuspended, present, unnamed]

/-! ## The invariant -/

/-- The schedulers hold what is attached, and an execution on `m_sexec_stack` is active and
has the context that is on `m_context_stack`. -/
structure Scheduled (state : State Id) : Prop where
  sound : Sound state (state.stack.getLast?.map Frame.id)
  parent : ∀ parent above, (state.nested (parent :: above)).isSome →
    parent ∈ state.executions above
  frames : ∀ frame rest, frame :: rest <:+ state.stack →
    frame.id ∈ state.executions (path rest) ∧ state.Active (path rest) frame.id ∧
      ∀ domain, state.nested (path rest) = some domain →
        domain.context frame.id = some frame.context

/-- A call after which what was active still is. -/
theorem Scheduled.kept (scheduled : Scheduled state)
    (sound : Sound next (state.stack.getLast?.map Frame.id)) (kept : Kept state next)
    (active : ∀ place other, other ∈ state.executions place → state.Active place other →
      next.Active place other) : Scheduled next where
  sound := by
    rw [kept.stack]
    exact sound
  parent parent above present := by
    rw [kept.isSome] at present
    rw [kept.executions]
    exact scheduled.parent parent above present
  frames frame rest within := by
    rw [kept.stack] at within
    obtain ⟨member, runs, context⟩ := scheduled.frames frame rest within
    rw [kept.executions]
    exact ⟨member, active _ _ member runs, fun domain present => kept.context present context⟩

theorem Turned.active {after : View} (turned : Turned state next address id after)
    (stays : state.Active address id → after.active = true) (place : List Id) (other : Id)
    (member : other ∈ state.executions place) (active : state.Active place other) :
    next.Active place other := by
  have shown := turned.views place other member
  by_cases here : place = address ∧ other = id
  · obtain ⟨rfl, rfl⟩ := here
    rw [if_pos ⟨rfl, rfl⟩] at shown
    exact ⟨after, shown, stays active⟩
  · obtain ⟨view, viewed, runs⟩ := active
    rw [if_neg here] at shown
    exact ⟨view, shown.trans viewed, runs⟩

theorem Scheduled.request (scheduled : Scheduled state) (requested : CancelSource Id → Bool) :
    Scheduled { state with requested } where
  sound := { scheduled.sound with }
  parent := scheduled.parent
  frames := scheduled.frames

/-- `suspend_current` of an execution that is scheduled. -/
theorem Scheduled.suspend {top : Frame Id} {rest : List (Frame Id)} (scheduled : Scheduled state)
    (within : top :: rest <:+ state.stack)
    (suspends : state.suspendCurrent (path rest) top.id = some next) : Scheduled next := by
  obtain ⟨member, ⟨before, viewed, runs⟩, _⟩ := scheduled.frames top rest within
  have outermost : path rest = [] → state.stack.getLast?.map Frame.id = some top.id := by
    intro outermost
    obtain ⟨above, whole⟩ := within
    rw [← whole, List.map_eq_nil_iff.mp outermost]
    simp
  obtain ⟨after, either, sound, turned⟩ :=
    scheduled.sound.suspendCurrent member viewed outermost suspends
  refine scheduled.kept sound turned.kept (turned.active fun _ => ?_)
  rcases either with rfl | rfl
  · exact runs
  · exact runs

/-- A wake-up passes any states that the domains record. -/
theorem Sound.awakes (sound : Sound state running)
    (called : state.awakeExecution id address = some next) :
    Sound next running ∧ Kept state next ∧ ∀ place other, other ∈ state.executions place →
      state.Active place other → next.Active place other := by
  induction address generalizing state id with
  | nil =>
      obtain ⟨held, after, turned, awoken⟩ := sound.awakeHere called
      refine ⟨held, turned.kept, fun place other member active => ?_⟩
      obtain ⟨view, viewed, runs⟩ := active
      obtain ⟨later, shown, rfl | ⟨rfl, _⟩⟩ :=
        (sound.wakes_here called).2.2.2.1 place other view member viewed
      · exact ⟨later, shown, runs⟩
      · exact ⟨_, shown, View.awoken_active⟩
  | cons parent above ih =>
      obtain ⟨middle, here, goesOn⟩ := Option.bind_eq_some_iff.mp called
      obtain ⟨read, reads, goesOn⟩ := Option.bind_eq_some_iff.mp goesOn
      obtain ⟨held, kept, _, views, _⟩ := sound.wakes_here here
      have active : ∀ place other, other ∈ state.executions place → state.Active place other →
          middle.Active place other := by
        rintro place other member ⟨view, viewed, runs⟩
        obtain ⟨later, shown, rfl | ⟨rfl, _⟩⟩ := views place other view member viewed
        · exact ⟨later, shown, runs⟩
        · exact ⟨_, shown, View.awoken_active⟩
      split at goesOn
      · obtain ⟨finally_, keeps, stays⟩ := ih held goesOn
        refine ⟨finally_, kept.trans keeps, fun place other member runs => ?_⟩
        exact stays place other (kept.executions ▸ member) (active place other member runs)
      · cases goesOn
        exact ⟨held, kept, active⟩

theorem Scheduled.cancel (scheduled : Scheduled state)
    (cancelled : state.cancel address = some next) : Scheduled next := by
  obtain ⟨sound, kept, views⟩ := scheduled.sound.cancel cancelled
  refine (scheduled.request (Function.update state.requested (.proxy address) true)).kept sound
    kept fun place other member active => ?_
  obtain ⟨view, viewed, runs⟩ := active
  refine ⟨_, views place other view member viewed, ?_⟩
  split
  · exact runs
  · exact runs

theorem Scheduled.grown {sources : List (CancelSource Id)} (scheduled : Scheduled state)
    (sound : Sound next (state.stack.getLast?.map Frame.id))
    (grown : Grown state next address id sources) : Scheduled next where
  sound := by
    rw [grown.stack]
    exact sound
  parent parent above present := by
    rw [grown.isSome] at present
    exact grown.mem_executions.mpr (.inr (scheduled.parent parent above present))
  frames frame rest within := by
    rw [grown.stack] at within
    obtain ⟨member, ⟨view, viewed, runs⟩, context⟩ := scheduled.frames frame rest within
    refine ⟨grown.mem_executions.mpr (.inr member),
      ⟨view, (grown.views _ _ member).trans viewed, runs⟩, fun domain present => ?_⟩
    obtain ⟨before, earlier, same⟩ := grown.contexts _ _ domain member present
    exact same.trans (context before earlier)

theorem Scheduled.prune (scheduled : Scheduled state) (nonempty : state.stack ≠ []) :
    Scheduled (state.prune (path state.stack)) where
  sound := scheduled.sound.prune fun same => nonempty (List.map_eq_nil_iff.mp same)
  parent parent above present := by
    by_cases within : path state.stack <:+ parent :: above
    · have gone : (state.prune (path state.stack)).nested (parent :: above) = none := if_pos within
      rw [gone] at present
      contradiction
    · rw [State.prune_nested within] at present
      rw [State.prune_executions fun inside => within (inside.trans (List.suffix_cons _ _))]
      exact scheduled.parent parent above present
  frames frame rest within := by
    have within : frame :: rest <:+ state.stack := within
    obtain ⟨member, ⟨view, viewed, runs⟩, context⟩ := scheduled.frames frame rest within
    have outside := not_suffix_path within
    rw [State.prune_executions outside, State.prune_nested outside]
    exact ⟨member, ⟨view, (State.prune_view outside).trans viewed, runs⟩, context⟩

theorem Scheduled.construct (scheduled : Scheduled state) (nonempty : state.stack ≠ []) (size : ℕ) :
    Scheduled (state.construct size) := by
  have pruned := scheduled.prune nonempty
  obtain ⟨top, rest, whole⟩ := List.exists_cons_of_ne_nil nonempty
  have apart {place : List Id} (different : place ≠ path state.stack) :
      (state.construct size).nested place = (state.prune (path state.stack)).nested place :=
    Function.update_of_ne different _ _
  refine ⟨scheduled.sound.construct nonempty size, fun parent above present => ?_,
    fun frame lower within => ?_⟩
  · by_cases same : parent :: above = path state.stack
    · obtain ⟨rfl, rfl⟩ : parent = top.id ∧ above = path rest := by
        simpa [whole, path] using same
      exact (pruned.frames top rest (whole ▸ List.suffix_refl _)).1
    · rw [apart same] at present
      exact pruned.parent parent above present
  · have within : frame :: lower <:+ state.stack := within
    obtain ⟨member, ⟨view, viewed, runs⟩, context⟩ := pruned.frames frame lower within
    have different : path lower ≠ path state.stack := fun same =>
      not_suffix_path within (same ▸ List.suffix_refl _)
    refine ⟨member, ⟨view, ?_, runs⟩,
      fun domain present => context domain (apart different ▸ present)⟩
    cases below : path lower with
    | nil => rw [below] at viewed; exact viewed
    | cons parent above =>
        rw [below] at viewed different
        simpa only [State.view, apart different] using viewed

/-! ## `schedule` and `end` -/

/-- `schedule` of the root scheduler. -/
theorem Scheduled.schedule (scheduled : Scheduled state) (outside : state.stack = [])
    (taken : state.schedule id = some next) :
    Scheduled next ∧ next.stack = [{ id, context := 0 }] ∧ next.phase = .visiting := by
  have sound := scheduled.sound
  rw [outside] at sound
  obtain ⟨scheduler, yields, taken⟩ := Option.bind_eq_some_iff.mp taken
  obtain ⟨member, ⟨⟩⟩ := Option.ite_none_right_eq_some.mp taken
  obtain ⟨_, active, holds, same⟩ := sound.root.schedule yields
  have turned := holds.recordState id ExecutionState.running
  refine ⟨⟨{ sound with root := turned.holds }, scheduled.parent, fun frame rest within => ?_⟩,
    rfl, rfl⟩
  rcases List.suffix_cons_iff.mp within with whole | empty
  · cases whole
    have seen := turned.views id
    rw [if_pos rfl, same] at seen
    exact ⟨member, ⟨_, congrArg some seen, active⟩, fun domain present =>
      nomatch sound.rootless.symm.trans present⟩
  · exact absurd (List.suffix_nil.mp empty) (List.cons_ne_nil _ _)

/-- `schedule` of the scheduler of a nested domain. -/
theorem Scheduled.push {domain after : ExecutionDomain Id} {context : Fin domain.size}
    (scheduled : Scheduled state) (nonempty : state.stack ≠ [])
    (present : state.nested (path state.stack) = some domain)
    (yields : domain.schedule = some (id, context, after)) :
    Scheduled { state with
      nested := Function.update state.nested (path state.stack) (some (after.scheduleExecution id))
      stack := { id, context := context.val } :: state.stack } := by
  obtain ⟨view, seen, runs, known, placed, sound, turned⟩ := scheduled.sound.schedule present yields
  have kept := scheduled.kept sound turned.kept (turned.active fun _ => runs)
  have bottom : (({ id, context := context.val } : Frame Id) :: state.stack).getLast? =
      state.stack.getLast? := by
    obtain ⟨top, rest, whole⟩ := List.exists_cons_of_ne_nil nonempty
    rw [whole, List.getLast?_cons_cons]
  refine ⟨?_, kept.parent, fun frame rest within => ?_⟩
  · rw [bottom]
    exact { sound with }
  · rcases List.suffix_cons_iff.mp within with same | within
    · cases same
      refine ⟨known, ⟨_, (turned.views _ _ known).trans (if_pos ⟨rfl, rfl⟩), runs⟩,
        fun inner inside => turned.kept.context inside fun before earlier => ?_⟩
      obtain rfl := Option.some.inj (present.symm.trans earlier)
      exact placed
    · exact kept.frames frame rest within

/-- Every context on `m_context_stack` has ended. -/
theorem Scheduled.exit {execTime : UInt64} {completed : Bool} (scheduled : Scheduled state)
    (ended : state.endContexts execTime state.stack completed = some next) :
    Scheduled { next with stack := [], phase := .idle } ∧ next.executions = state.executions ∧
      next.stack = state.stack ∧ next.cancelSrcStack = state.cancelSrcStack ∧
      (completed = true → ∀ top rest, state.stack = top :: rest →
        ¬ next.Active (path rest) top.id) := by
  obtain ⟨sound, kept, views⟩ := scheduled.sound.endContexts scheduled.frames ended
  refine ⟨⟨{ sound with }, fun parent above present => ?_, fun frame rest within => ?_⟩,
    kept.executions, kept.stack, kept.cancelSrcStack, fun completes top rest whole => ?_⟩
  · have present : (next.nested (parent :: above)).isSome := present
    rw [kept.isSome] at present
    exact kept.executions ▸ scheduled.parent parent above present
  · exact absurd (List.suffix_nil.mp within) (List.cons_ne_nil _ _)
  · rintro ⟨after, shown, runs⟩
    obtain ⟨member, ⟨view, viewed, _⟩, _⟩ :=
      scheduled.frames top rest (whole ▸ List.suffix_refl _)
    obtain ⟨later, seen, innermost, _⟩ := views _ _ view member viewed
    obtain rfl := Option.some.inj (shown.symm.trans seen)
    rcases innermost (whole ▸ rfl) with ⟨_, unfinished⟩ | ⟨rfl, _⟩
    · rw [completes] at unfinished
      contradiction
    · contradiction

/-- `detach_suspended_execution` and `detach_execution` of an execution that is suspended. -/
theorem Scheduled.detach (scheduled : Scheduled state) (outside : state.stack = [])
    (member : id ∈ state.executions address) (inactive : ¬ state.Active address id)
    (detached : state.detachExecution address id = some next) :
    Scheduled next ∧ next.stack = [] ∧
      ∀ place other, ¬ id :: address <:+ place → (other ∈ next.executions place ↔
        ¬ (place = address ∧ other = id) ∧ other ∈ state.executions place) := by
  have sound := scheduled.sound
  rw [outside] at sound
  have stack := (State.detachExecution_rest detached).1.trans outside
  obtain ⟨middle, stepped, rfl⟩ := State.detachExecution_eq_some detached
  obtain ⟨erased, kept, _⟩ := sound.detached member inactive stepped
  have known (place : List Id) (other : Id) (apart : ¬ id :: address <:+ place) :
      other ∈ ((middle.erase address id).prune (id :: address)).executions place ↔
        ¬ (place = address ∧ other = id) ∧ other ∈ state.executions place := by
    rw [State.prune_executions apart, State.mem_erase, kept.executions]
  refine ⟨⟨?_, fun parent above present => ?_, fun frame rest within => ?_⟩, stack, known⟩
  · rw [stack]
    exact erased.prune (List.cons_ne_nil _ _)
  · by_cases within : id :: address <:+ parent :: above
    · have gone : ((middle.erase address id).prune (id :: address)).nested (parent :: above) =
          none := if_pos within
      rw [gone] at present
      contradiction
    · have before : (state.nested (parent :: above)).isSome := by
        rw [State.prune_nested within] at present
        exact (kept.isSome _).symm.trans present
      refine (known above parent fun inside => within (inside.trans (List.suffix_cons _ _))).mpr
        ⟨?_, scheduled.parent parent above before⟩
      rintro ⟨rfl, rfl⟩
      exact within (List.suffix_refl _)
  · rw [stack] at within
    exact absurd (List.suffix_nil.mp within) (List.cons_ne_nil _ _)

end Asco.Core.Worker.Tree
