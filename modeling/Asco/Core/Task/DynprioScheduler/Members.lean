import Asco.Core.Task.DynprioScheduler.Refinement
import Asco.Core.Task.ExecutionDomain.Members

namespace Asco.Core.Task.DynprioScheduler.Scheduler

/-! # The executions attached to the root domain

The same for `dynprio_scheduler`, which keeps its executions in sets and in a
priority queue.
-/

variable {Id : Type*} [DecidableEq Id]

/-- What the scheduler and the root domain keep about an execution. -/
def view (scheduler : Scheduler Id) (id : Id) : View where
  active := id ∉ scheduler.suspended
  suspendNow := scheduler.currentSuspend && scheduler.current.id = id
  state := scheduler.domain id

/-- `activate_all`, with the executions of `m_execution_list`. -/
def activateAll (scheduler : Scheduler Id) (members : Finset Id) : Scheduler Id :=
  { scheduler with domain := fun id => if id ∈ members then .active else scheduler.domain id }

/-- `members` are the executions that are attached, and `running` is the one whose
context is open. -/
structure Holds (scheduler : Scheduler Id) (members : Finset Id) (running : Option Id) : Prop where
  contexts : scheduler.contexts = members
  suspended : scheduler.suspended ⊆ members
  queued : ∀ id, id ∈ scheduler.active.map (·.id) ↔
    id ∈ members ∧ id ∉ scheduler.suspended ∧ running ≠ some id
  distinct : (scheduler.active.map (·.id)).Nodup
  current : ∀ id, running = some id →
    scheduler.current.id = id ∧ id ∈ members ∧ id ∉ scheduler.suspended
  idle : running = none → scheduler.currentSuspend = false

/-- A call after which `after` is kept about one execution and nothing else has changed. -/
structure Turned (scheduler next : Scheduler Id) (members : Finset Id) (running : Option Id)
    (id : Id) (after : View) : Prop where
  holds : next.Holds members running
  views : ∀ other, next.view other = if other = id then after else scheduler.view other

variable {scheduler : Scheduler Id} {members : Finset Id} {running : Option Id} {id : Id}

theorem Holds.asks (holds : scheduler.Holds members running)
    (asked : (scheduler.view id).suspendNow = true) : running = some id := by
  simp only [view, Bool.and_eq_true, decide_eq_true_eq] at asked
  cases scheduled : running with
  | none =>
      rw [holds.idle scheduled] at asked
      simp at asked
  | some other => rw [← (holds.current other scheduled).1, asked.2]

theorem Holds.not_asking (holds : scheduler.Holds members running)
    (unscheduled : running ≠ some id) :
    (scheduler.view id).suspendNow = false := by
  cases asked : (scheduler.view id).suspendNow with
  | true => exact absurd (holds.asks asked) unscheduled
  | false => rfl

/-! ## One lemma for each call -/

/-- The wake-up of an execution that is not suspended leaves only a note. -/
theorem Holds.awakeExecution_active (holds : scheduler.Holds members running)
    (active : id ∉ scheduler.suspended) :
    (scheduler.awakeExecution id).Holds members running ∧
      (scheduler.awakeExecution id).view = scheduler.view := by
  simp only [Scheduler.awakeExecution, active, if_false]
  split
  · exact ⟨{ holds with }, rfl⟩
  · exact ⟨holds, rfl⟩

theorem Holds.awakeExecution (holds : scheduler.Holds members running) (member : id ∈ members) :
    Turned scheduler (scheduler.awakeExecution id) members running id
      (scheduler.view id).awoken := by
  by_cases suspended : id ∈ scheduler.suspended
  · have unscheduled : running ≠ some id := fun scheduled =>
      (holds.current id scheduled).2.2 suspended
    have calm := holds.not_asking unscheduled
    have known : id ∈ scheduler.contexts := holds.contexts ▸ member
    have queued := holds.queued
    have runs := holds.current
    simp only [Scheduler.awakeExecution, known, suspended, if_true]
    constructor
    · exact
        { contexts := holds.contexts
          suspended := (Finset.erase_subset _ _).trans holds.suspended
          queued := fun other => by
            simp only [recordState, List.map_cons, List.mem_cons, Finset.mem_erase]
            grind
          distinct := by
            simp only [recordState, List.map_cons, List.nodup_cons]
            exact ⟨fun queues => ((queued id).mp queues).2.1 suspended, holds.distinct⟩
          current := fun other scheduled => by
            obtain ⟨named, member, active⟩ := runs other scheduled
            exact ⟨named, member, fun still => active (Finset.mem_of_mem_erase still)⟩
          idle := holds.idle }
    · intro other
      split
      · rename_i same
        subst same
        have shown : (scheduler.view other).awoken =
            { active := true, suspendNow := false, state := .active } := by
          simp [View.awoken, view, suspended]
        rw [shown, view, View.mk.injEq]
        exact ⟨by simp [recordState], calm, Function.update_self _ _ _⟩
      · rename_i different
        rw [view, view, View.mk.injEq]
        exact ⟨by simp [recordState, different], rfl, Function.update_of_ne different _ _⟩
  · obtain ⟨held, same⟩ := holds.awakeExecution_active suspended
    refine ⟨held, fun other => ?_⟩
    have awoken : (scheduler.view id).awoken = scheduler.view id := by
      simp [View.awoken, view, suspended]
    rw [same, awoken]
    split
    · rename_i same
      rw [same]
    · rfl

theorem Holds.suspendCurrent (holds : scheduler.Holds members (some id)) :
    ∃ after, (after = scheduler.view id ∨ after = (scheduler.view id).asked) ∧
      Turned scheduler scheduler.suspendCurrent members (some id) id after := by
  obtain ⟨current, member, _⟩ := holds.current id rfl
  have known : scheduler.current.id ∈ scheduler.contexts := holds.contexts ▸ current ▸ member
  unfold Scheduler.suspendCurrent
  rw [if_pos known]
  split
  · refine ⟨_, .inl rfl, ⟨{ holds with }, fun other => ?_⟩⟩
    split
    · rename_i same
      rw [same]
      rfl
    · rfl
  · refine ⟨_, .inr rfl, ⟨{ holds with idle := nofun }, fun other => ?_⟩⟩
    split
    · rename_i same
      subst same
      simp [view, View.asked, recordState, current]
    · rename_i different
      simp [view, recordState, current, different, Ne.symm different]

theorem Holds.endContext {completed : Bool} {execTime : UInt64}
    (holds : scheduler.Holds members (some id)) :
    ∃ after, (scheduler.view id).Ended completed after ∧
      Turned scheduler (scheduler.endContext completed execTime) members none id after := by
  obtain ⟨current, member, active⟩ := holds.current id rfl
  have queued := holds.queued
  have others (other : Id) (different : other ≠ id) :
      (scheduler.view other).suspendNow = false :=
    holds.not_asking fun same => different (Option.some.inj same).symm
  simp only [Scheduler.endContext, current]
  split
  · rename_i leaves
    have asked : completed = true ∨ (scheduler.view id).suspendNow = true := by
      rcases leaves with ⟨flagged, _⟩ | completes
      · exact .inr (by simp [view, flagged, current])
      · exact .inl completes
    refine ⟨_, .inr ⟨rfl, asked⟩, ⟨?_, fun other => ?_⟩⟩
    · exact
        { contexts := holds.contexts
          suspended := Finset.insert_subset member holds.suspended
          queued := fun other => by
            simp only [recordState, Finset.mem_insert]
            grind
          distinct := holds.distinct
          current := fun _ running => absurd running (by simp)
          idle := fun _ => rfl }
    · split
      · rename_i same
        subst same
        simp [view, recordState]
      · rename_i different
        have calm : (scheduler.currentSuspend && scheduler.current.id = other) = false :=
          others other different
        simp [view, recordState, different, calm]
  · rename_i stays
    have unfinished : completed = false := by
      cases completed with
      | true => exact absurd (.inr rfl) stays
      | false => rfl
    refine ⟨_, .inl ⟨rfl, unfinished⟩, ⟨?_, fun other => ?_⟩⟩
    · exact
        { contexts := holds.contexts
          suspended := (Finset.erase_subset _ _).trans holds.suspended
          queued := fun other => by
            simp only [List.map_cons, List.mem_cons, Finset.mem_erase]
            grind
          distinct := by
            simp only [List.map_cons, List.nodup_cons]
            exact ⟨fun queues => ((queued id).mp queues).2.2 rfl, holds.distinct⟩
          current := fun _ running => absurd running (by simp)
          idle := fun _ => rfl }
    · split
      · rename_i same
        subst same
        simp [view, recordState]
      · rename_i different
        have calm : (scheduler.currentSuspend && scheduler.current.id = other) = false :=
          others other different
        simp [view, recordState, different, calm]

theorem Holds.recordState (holds : scheduler.Holds members running) (id : Id)
    (state : ExecutionState) :
    Turned scheduler (scheduler.recordState id state) members running id
      { scheduler.view id with state } where
  holds := { holds with }
  views other := by
    split
    · rename_i same
      subst same
      exact congrArg (View.mk _ _) (Function.update_self _ _ _)
    · rename_i different
      exact congrArg (View.mk _ _) (Function.update_of_ne different _ _)

theorem Holds.activateAll (holds : scheduler.Holds members running) :
    (scheduler.activateAll members).Holds members running ∧
      ∀ other ∈ members, (scheduler.activateAll members).view other =
        { scheduler.view other with state := .active } := by
  refine ⟨{ holds with }, fun other member => ?_⟩
  exact congrArg (View.mk _ _) (if_pos member)

/-- `schedule` yields an execution that is attached and not suspended. -/
theorem Holds.schedule {next : Scheduler Id} (holds : scheduler.Holds members none)
    (yields : scheduler.schedule id = some next) :
    id ∈ members ∧ (scheduler.view id).active = true ∧ next.Holds members (some id) ∧
      next.view = scheduler.view := by
  obtain ⟨entry, listed, rfl, _, rfl⟩ := schedule_spec yields
  have taken := (List.perm_cons_erase listed).map (·.id)
  have distinct := taken.nodup_iff.mp holds.distinct
  simp only [List.map_cons, List.nodup_cons] at distinct
  have queued := holds.queued
  obtain ⟨member, active, _⟩ := (queued entry.id).mp (List.mem_map_of_mem listed)
  refine ⟨member, by simp [view, active], ?_, ?_⟩
  · exact
      { contexts := holds.contexts
        suspended := holds.suspended
        queued := fun other => by
          have before := queued other
          rw [taken.mem_iff] at before
          simp only [List.map_cons, List.mem_cons] at before
          grind
        distinct := distinct.2
        current := fun other same => by
          obtain rfl := Option.some.inj same
          exact ⟨rfl, member, active⟩
        idle := nofun }
  · funext other
    simp [view, holds.idle rfl]

/-! ## Attaching and detaching -/

theorem Holds.attachExecution {next : Scheduler Id} (holds : scheduler.Holds members running)
    (attached : scheduler.attachExecution id = some next) :
    id ∉ members ∧ next.Holds (insert id members) running ∧
      next.view = scheduler.view ∧
      (next.view id).active = true ∧ (next.view id).suspendNow = false := by
  obtain ⟨fresh, ⟨⟩⟩ := Option.ite_none_left_eq_some.mp attached
  have unknown : id ∉ members := holds.contexts ▸ fresh
  have awake : id ∉ scheduler.suspended := fun suspended => unknown (holds.suspended suspended)
  have unscheduled : running ≠ some id := fun scheduled =>
    unknown (holds.current id scheduled).2.1
  have queued := holds.queued
  have runs := holds.current
  refine ⟨unknown, ?_, rfl, by simp [view, awake], holds.not_asking unscheduled⟩
  exact
    { contexts := by rw [← holds.contexts]
      suspended := holds.suspended.trans (Finset.subset_insert _ _)
      queued := fun other => by
        simp only [List.map_cons, List.mem_cons, Finset.mem_insert]
        grind
      distinct := by
        simp only [List.map_cons, List.nodup_cons]
        exact ⟨fun queues => unknown ((queued id).mp queues).1, holds.distinct⟩
      current := fun other scheduled => by
        obtain ⟨named, member, active⟩ := runs other scheduled
        exact ⟨named, Finset.mem_insert_of_mem member, active⟩
      idle := holds.idle }

theorem Holds.detachSuspendedExecution (holds : scheduler.Holds members running)
    (suspended : id ∈ scheduler.suspended) :
    (scheduler.detachSuspendedExecution id).Holds (members.erase id) running ∧
      ∀ other, other ≠ id →
        (scheduler.detachSuspendedExecution id).view other = scheduler.view other := by
  have queued := holds.queued
  have runs := holds.current
  simp only [Scheduler.detachSuspendedExecution, suspended, if_true]
  constructor
  · exact
      { contexts := by rw [← holds.contexts]
        suspended := Finset.erase_subset_erase id holds.suspended
        queued := fun other => by
          simp only [Finset.mem_erase]
          grind
        distinct := holds.distinct
        current := fun other scheduled => by
          obtain ⟨named, member, active⟩ := runs other scheduled
          have different : other ≠ id := by
            rintro rfl
            exact active suspended
          exact ⟨named, Finset.mem_erase_of_ne_of_mem different member,
            fun still => active (Finset.mem_of_mem_erase still)⟩
        idle := holds.idle }
  · intro other different
    simp [view, different]

end Asco.Core.Task.DynprioScheduler.Scheduler
