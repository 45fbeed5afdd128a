import Asco.Core.Worker.Tree.Accounts

namespace Asco.Core.Worker.Tree

open Foundation Asco.Core.Task
open DynprioScheduler (ExecutionState)

/-! # Cancellation reaches the executions

An execution is cancelled when a source on its cancel-source stack is requested.  As long
as none of those that a request cancels is suspended, but for the execution of the task
itself, which is woken, they all stay runnable until they are torn down.
-/

variable {Id : Type*} [DecidableEq Id]

/-- The source that a call requests. -/
def Label.cancels : Label Id → Option (CancelSource Id)
  | .cancel address => some (.proxy address)
  | .cancelTask id => some (.task id)
  | _ => none

/-- `join_all` and `select` attach executions to the domain that they have constructed
themselves, under new ids, and a domain that has a proxy is cancelled by one of its
executions. -/
def ByTasks (state : State Id) : Label Id → Prop
  | .attach address id => address = path state.stack ∧
      ∀ domain ∈ state.nested address, domain.scheduler.find id = none
  | .cancel address => address = path state.stack.tail ∧ address ≠ []
  | _ => True

instance : DecidableRel (@ByTasks Id _)
  | _, .attach _ _ => inferInstanceAs (Decidable (_ ∧ ∀ _ ∈ _, _))
  | _, .cancel _ => inferInstanceAs (Decidable (_ ∧ _))
  | _, .fetch _ _ => isTrue trivial
  | _, .schedule _ => isTrue trivial
  | _, .visit _ => isTrue trivial
  | _, .suspend => isTrue trivial
  | _, .construct _ => isTrue trivial
  | _, .cancelTask _ => isTrue trivial
  | _, .awake _ _ => isTrue trivial
  | _, .leave _ _ => isTrue trivial

/-- No execution that a request cancels is suspended, but for that of the cancelled task. -/
def CancelsRunnable (state : State Id) (label : Label Id) : Prop :=
  ByTasks state label ∧ ∀ source ∈ label.cancels, ∀ place, ∀ id ∈ state.executions place,
    source ∈ state.cancelSrcStack place id → state.Held place id → place = [] ∧ source = .task id

/-- The scheduler of the domain may yield the execution, or has yielded it. -/
def State.Runnable (state : State Id) : List Id → Id → Prop
  | [], id => id ∈ state.scheduler.active.map (·.id) ∨
      state.stack.getLast?.map Frame.id = some id
  | parent :: above, id => ∃ domain, state.nested (parent :: above) = some domain ∧
      ∃ slot, domain.slot id = some slot ∧ slot.active = true ∧ slot.detached = false

/-- The cancel-source stack of an execution is that of the execution above it and the source
of its domain. -/
structure Sourced (state : State Id) : Prop where
  root : ∀ id ∈ state.executions [], state.cancelSrcStack [] id = [.task id]
  nested : ∀ parent above, ∀ id ∈ state.executions (parent :: above),
    state.cancelSrcStack (parent :: above) id =
      state.cancelSrcStack above parent ++ [.proxy (parent :: above)]
  quiet : state.phase = .executing → (state.nested (path state.stack)).isSome →
    state.requested (.proxy (path state.stack)) = false

/-- The executions that are cancelled are active, and so are those above them. -/
structure Reaches (state : State Id) : Prop where
  active : ∀ place, ∀ id ∈ state.executions place, state.cancelRequested place id = true →
    state.Active place id
  parent : ∀ parent above, ∀ id ∈ state.executions (parent :: above),
    state.cancelRequested (parent :: above) id = true → state.Active above parent

variable {state next : State Id} {address : List Id} {id : Id}

/-- The root execution of a task is above every execution that its source cancels. -/
theorem Sourced.task_attached (sourced : Sourced state) (coherent : Coherent state) {task : Id}
    (member : id ∈ state.executions address)
    (source : .task task ∈ state.cancelSrcStack address id) : task ∈ state.executions [] := by
  induction address generalizing id with
  | nil =>
      rw [sourced.root id member, List.mem_singleton] at source
      cases source
      exact member
  | cons parent above ih =>
      rw [sourced.nested parent above id member, List.mem_append] at source
      obtain ⟨domain, holds⟩ := coherent.sound.exists_domain member
      have attached := coherent.parent parent above (by rw [holds]; rfl)
      rcases source with source | own
      · exact ih attached source
      · cases List.mem_singleton.mp own

omit [DecidableEq Id] in
theorem cancelRequested_iff :
    state.cancelRequested address id = true ↔
      ∃ source ∈ state.cancelSrcStack address id, state.requested source = true := by
  simp [State.cancelRequested]

omit [DecidableEq Id] in
/-- A cancelled execution cancels what is nested in it. -/
theorem Sourced.inherits (sourced : Sourced state) {parent : Id} {above : List Id}
    (member : id ∈ state.executions (parent :: above))
    (cancelled : state.cancelRequested above parent = true) :
    state.cancelRequested (parent :: above) id = true := by
  obtain ⟨source, listed, requested⟩ := cancelRequested_iff.mp cancelled
  refine cancelRequested_iff.mpr ⟨source, ?_, requested⟩
  rw [sourced.nested parent above id member]
  exact List.mem_append_left _ listed

omit [DecidableEq Id] in
/-- What is not cancelled by the source of its own domain is so with the execution above it. -/
theorem Sourced.cancelled_parent (sourced : Sourced state) {parent : Id} {above : List Id}
    (member : id ∈ state.executions (parent :: above))
    (unrequested : state.requested (.proxy (parent :: above)) = false)
    (cancelled : state.cancelRequested (parent :: above) id = true) :
    state.cancelRequested above parent = true := by
  obtain ⟨source, listed, requested⟩ := cancelRequested_iff.mp cancelled
  rw [sourced.nested parent above id member, List.mem_append] at listed
  rcases listed with listed | own
  · exact cancelRequested_iff.mpr ⟨source, listed, requested⟩
  · rw [List.mem_singleton.mp own, unrequested] at requested
    contradiction

/-- A step that attaches nothing and requests nothing, and leaves what is cancelled active. -/
theorem Reaches.of_active (reaches : Reaches state) (coherent : Coherent next)
    (fewer : ∀ place, next.executions place ⊆ state.executions place)
    (sources : next.cancelSrcStack = state.cancelSrcStack)
    (requests : ∀ source, next.requested source = true → state.requested source = true)
    (active : ∀ place, ∀ id ∈ next.executions place, state.Active place id →
      (state.cancelRequested place id = true ∨ ∃ other ∈ next.executions (id :: place),
        state.cancelRequested (id :: place) other = true) → next.Active place id) :
    Reaches next := by
  have cancelled {place : List Id} {other : Id}
      (requested : next.cancelRequested place other = true) :
      state.cancelRequested place other = true := by
    obtain ⟨source, listed, requested⟩ := cancelRequested_iff.mp requested
    exact cancelRequested_iff.mpr ⟨source, sources ▸ listed, requests source requested⟩
  constructor
  · intro place other member requested
    exact active place other member
      (reaches.active place other (fewer place member) (cancelled requested))
      (.inl (cancelled requested))
  · intro parent above other member requested
    obtain ⟨domain, holds⟩ := coherent.sound.exists_domain member
    have attached := coherent.parent parent above (by rw [holds]; rfl)
    exact active above parent attached
      (reaches.parent parent above other (fewer _ member) (cancelled requested))
      (.inr ⟨other, member, cancelled requested⟩)

/-! ## The end of a turn -/

/-- What was active still is, but for an innermost execution that has completed or has asked
to be suspended. -/
theorem Coherent.active_of_endContexts {execTime : UInt64} {completed : Bool}
    (coherent : Coherent state)
    (ended : state.endContexts execTime state.stack completed = some next)
    (member : id ∈ state.executions address) (active : state.Active address id)
    (stays : id :: address = path state.stack → completed = false ∧
      ∀ view, state.view address id = some view → view.suspendNow = false) :
    next.Active address id := by
  obtain ⟨_, _, views⟩ := coherent.sound.endContexts coherent.frames ended
  obtain ⟨view, viewed, runs⟩ := active
  obtain ⟨after, shown, top, below, same⟩ := views address id view member viewed
  refine ⟨after, shown, ?_⟩
  by_cases within : id :: address <:+ path state.stack
  · by_cases innermost : id :: address = path state.stack
    · obtain ⟨unfinished, calm⟩ := stays innermost
      rcases top innermost with ⟨rfl, _⟩ | ⟨_, completes | asks⟩
      · rfl
      · simp [unfinished] at completes
      · simp [calm view viewed] at asks
    · have calm := coherent.not_asking member viewed (Ne.symm innermost)
      rcases below innermost within with ⟨rfl, _⟩ | ⟨_, leaves⟩
      · rfl
      · simp [calm] at leaves
  · rw [same within]
    exact runs

theorem State.view_outside (state : State Id) (stack : List (Frame Id)) (phase : Phase)
    (address : List Id) (id : Id) :
    State.view { state with stack, phase } address id = state.view address id := by
  cases address with
  | nil => rfl
  | cons parent above => rfl

/-- What `leave` leaves. -/
structure Left (state next : State Id) (completed : Bool) : Prop where
  phase : next.phase = .idle
  fewer : ∀ place, next.executions place ⊆ state.executions place
  sources : next.cancelSrcStack = state.cancelSrcStack
  requested : next.requested = state.requested
  active : ∀ place other, other ∈ next.executions place → state.Active place other →
    (completed = false → other :: place = path state.stack →
      ∀ view, state.view place other = some view → view.suspendNow = false) →
    next.Active place other
  gone : completed = true → ∀ top rest, state.stack = top :: rest →
    top.id ∉ next.executions (path rest)

theorem Coherent.left {execTime : UInt64} {completed : Bool} (coherent : Coherent state)
    (leaves : state.leave execTime completed = some next) : Left state next completed := by
  unfold State.leave at leaves
  split at leaves
  · contradiction
  · rename_i top rest whole
    obtain ⟨ended, ends, remains⟩ := Option.bind_eq_some_iff.mp leaves
    rw [← whole] at ends
    obtain ⟨sound, kept, views⟩ := coherent.sound.endContexts coherent.frames ends
    have innermost : path state.stack = top.id :: path rest := by
      rw [whole]
      rfl
    cases completed with
    | false =>
        cases remains
        refine ⟨rfl, fun place => ?_, kept.cancelSrcStack, kept.requested,
          fun place other member active calm => ?_, nofun⟩
        · exact kept.executions ▸ subset_rfl
        · obtain ⟨view, shown, runs⟩ := coherent.active_of_endContexts ends
            (kept.executions ▸ member) active fun same => ⟨rfl, calm rfl same⟩
          exact ⟨view, (ended.view_outside _ _ _ _).trans shown, runs⟩
    | true =>
        have member := (coherent.frames top rest (whole ▸ List.suffix_refl _)).1
        have inactive :
            ¬ State.Active { ended with stack := [], phase := .idle } (path rest) top.id := by
          rintro ⟨after, shown, runs⟩
          obtain ⟨view, viewed⟩ := coherent.sound.exists_view member
          obtain ⟨later, seen, ends, _⟩ := views _ _ view member viewed
          rw [ended.view_outside] at shown
          obtain rfl := Option.some.inj (shown.symm.trans seen)
          rcases ends innermost.symm with ⟨_, unfinished⟩ | ⟨rfl, _⟩
          · contradiction
          · contradiction
        have outside : Sound { ended with stack := [], phase := .idle } none := { sound with }
        have executions : State.executions { ended with stack := [], phase := .idle } =
            state.executions := kept.executions
        have phase := (State.detachExecution_rest remains).2
        obtain ⟨middle, stepped, rfl⟩ := State.detachExecution_eq_some remains
        obtain ⟨_, keeps, same⟩ := outside.detached (executions ▸ member) inactive stepped
        have known {place : List Id} {other : Id}
            (member : other ∈ ((middle.erase (path rest) top.id).prune
              (top.id :: path rest)).executions place) :
            ¬ top.id :: path rest <:+ place ∧
              other ∈ (middle.erase (path rest) top.id).executions place := by
          simp only [State.prune] at member
          split at member
          · exact absurd member (Finset.notMem_empty other)
          · exact ⟨‹_›, member⟩
        refine ⟨phase, fun place other member => ?_, ?_, ?_, fun place other member active _ => ?_,
          fun _ frame lower same member => ?_⟩
        · have remaining := (State.mem_erase.mp (known member).2).2
          rw [keeps.executions] at remaining
          exact executions ▸ remaining
        · exact keeps.cancelSrcStack.trans kept.cancelSrcStack
        · exact keeps.requested.trans kept.requested
        · obtain ⟨within, remaining⟩ := known member
          obtain ⟨different, before⟩ := State.mem_erase.mp remaining
          rw [keeps.executions] at before
          have before : other ∈ state.executions place := executions ▸ before
          obtain ⟨view, shown, runs⟩ := coherent.active_of_endContexts ends before active
            fun same => by
            rw [innermost] at same
            obtain ⟨rfl, rfl⟩ := List.cons.inj same
            exact absurd ⟨rfl, rfl⟩ different
          have seen := (ended.view_outside [] .idle place other).trans shown
          exact ⟨view, (State.prune_view within).trans ((same place other remaining).trans seen),
            runs⟩
        · obtain ⟨rfl, rfl⟩ := List.cons.inj (whole.symm.trans same)
          exact (State.mem_erase.mp (known member).2).1 ⟨rfl, rfl⟩

/-- A turn ends with `false` when neither the innermost execution that asks to be suspended is
cancelled nor what is nested in it. -/
theorem Reaches.leave {completed : Bool} (reaches : Reaches state) (ready : Ready next)
    (left : Left state next completed)
    (calm : completed = false → ∀ place, ∀ id ∈ state.executions place,
      id :: place = path state.stack →
      (state.cancelRequested place id = true ∨ ∃ other ∈ state.executions (id :: place),
        state.cancelRequested (id :: place) other = true) →
      ∀ view, state.view place id = some view → view.suspendNow = false) : Reaches next := by
  refine reaches.of_active ready.toCoherent left.fewer left.sources
    (fun source requested => left.requested ▸ requested) fun place id member active cancelled => ?_
  refine left.active place id member active fun unfinished innermost => ?_
  refine calm unfinished place id (left.fewer place member) innermost ?_
  refine cancelled.imp_right ?_
  rintro ⟨other, nested, requested⟩
  exact ⟨other, left.fewer _ nested, requested⟩

omit [DecidableEq Id] in
theorem Sourced.shrink (sourced : Sourced state)
    (fewer : ∀ place, next.executions place ⊆ state.executions place)
    (sources : next.cancelSrcStack = state.cancelSrcStack)
    (quiet : next.phase = .executing → (next.nested (path next.stack)).isSome →
      next.requested (.proxy (path next.stack)) = false) : Sourced next where
  root id member := by
    rw [sources]
    exact sourced.root id (fewer [] member)
  nested parent above id member := by
    rw [sources]
    exact sourced.nested parent above id (fewer _ member)
  quiet := quiet

end Asco.Core.Worker.Tree
