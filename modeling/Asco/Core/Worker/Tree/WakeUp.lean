import Asco.Core.Worker.Tree.Effects

namespace Asco.Core.Worker.Tree

open Asco.Core.Task
open DynprioScheduler (ExecutionState)

/-! # A wake-up goes up the tree

A wake-up wakes the parent execution of the domain if this one is suspended, and so on.
It stops at a parent that is not suspended, above which no execution is.
-/

variable {Id : Type*} [DecidableEq Id]

/-- The scheduler of the domain holds the execution as active. -/
def State.Active (state : State Id) (address : List Id) (id : Id) : Prop :=
  ∃ view, state.view address id = some view ∧ view.active = true

/-- The executions above a domain: they are attached, a suspended one is recorded as
suspended, and the one above an active one is active. -/
structure Rising (state : State Id) (address : List Id) : Prop where
  attached : ∀ id above, id :: above <:+ address → id ∈ state.executions above
  held : ∀ id above view, id :: above <:+ address → state.view above id = some view →
    view.active = false → view.state = .suspended
  rises : ∀ id parent above, id :: parent :: above <:+ address →
    state.Active (parent :: above) id → state.Active above parent

variable {state next : State Id} {running : Option Id} {address above : List Id} {id parent : Id}

theorem Rising.tail (rising : Rising state (parent :: above)) : Rising state above where
  attached id upper within := rising.attached id upper (within.trans (List.suffix_cons _ _))
  held id upper view within := rising.held id upper view (within.trans (List.suffix_cons _ _))
  rises id parent upper within := rising.rises id parent upper (within.trans (List.suffix_cons _ _))

theorem Rising.active (rising : Rising state (parent :: above)) (active : state.Active above parent)
    {other : Id} {place : List Id} (within : other :: place <:+ parent :: above) :
    state.Active place other := by
  induction above generalizing parent with
  | nil =>
      rcases List.suffix_cons_iff.mp within with same | empty
      · cases same
        exact active
      · exact absurd (List.suffix_nil.mp empty) (List.cons_ne_nil _ _)
  | cons upper above ih =>
      rcases List.suffix_cons_iff.mp within with same | within
      · cases same
        exact active
      · exact ih rising.tail (rising.rises parent upper above (List.suffix_refl _) active) within

/-- A call on an execution of a domain leaves the executions above it as they are. -/
theorem Turned.view_above {after : View} (turned : Turned state next address id after)
    {other : Id} {place : List Id} (within : other :: place <:+ address)
    (member : other ∈ state.executions place) : next.view place other = state.view place other := by
  rw [turned.views place other member, if_neg]
  rintro ⟨rfl, _⟩
  have bounded := within.length_le
  simp at bounded

theorem Rising.turned {after : View} (rising : Rising state address)
    (turned : Turned state next address id after) : Rising next address where
  attached other place within := by
    rw [turned.kept.executions]
    exact rising.attached other place within
  held other place view within viewed := by
    rw [turned.view_above within (rising.attached other place within)] at viewed
    exact rising.held other place view within viewed
  rises other parent above within active := by
    have upper : parent :: above <:+ address := (List.suffix_cons _ _).trans within
    obtain ⟨view, viewed, active⟩ := active
    rw [turned.view_above within (rising.attached other _ within)] at viewed
    obtain ⟨view, viewed, active⟩ := rising.rises other parent above within ⟨view, viewed, active⟩
    refine ⟨view, ?_, active⟩
    rw [turned.view_above upper (rising.attached parent _ upper)]
    exact viewed

/-- The parent execution is active if its state is read as another one than suspended. -/
theorem Rising.active_of_read (rising : Rising state (parent :: above)) {read : ExecutionState}
    (reads : state.executionState above parent = some read) (other : read ≠ .suspended) :
    state.Active above parent := by
  unfold State.executionState at reads
  rw [if_pos (rising.attached parent above (List.suffix_refl _))] at reads
  obtain ⟨view, viewed, rfl⟩ := Option.map_eq_some_iff.mp reads
  refine ⟨view, viewed, ?_⟩
  cases active : view.active with
  | true => rfl
  | false => exact absurd (rising.held parent above view (List.suffix_refl _) viewed active) other

/-- What a wake-up does. -/
structure Wakes (state next : State Id) (running : Option Id) (address : List Id) (id : Id) :
    Prop where
  sound : Sound next running
  kept : Kept state next
  views : ∀ place other view, other ∈ state.executions place → state.view place other = some view →
    ∃ after, next.view place other = some after ∧
      (after = view ∨ after = view.awoken ∧ other :: place <:+ id :: address)
  wakes : ∀ other place, other :: place <:+ id :: address → other ∈ state.executions place →
    next.Active place other

theorem Sound.wakes_here (sound : Sound state running)
    (called : state.awakeHere address id = some next) : Sound next running ∧ Kept state next ∧
      (∃ after, Turned state next address id after) ∧
      (∀ place other view, other ∈ state.executions place → state.view place other = some view →
        ∃ after, next.view place other = some after ∧
          (after = view ∨ after = view.awoken ∧ other :: place = id :: address)) ∧
      (id ∈ state.executions address → next.Active address id) := by
  obtain ⟨held, after, turned, awoken⟩ := sound.awakeHere called
  refine ⟨held, turned.kept, ⟨after, turned⟩, fun place other view member viewed => ?_,
    fun member => ?_⟩
  · have shown := turned.views place other member
    by_cases here : place = address ∧ other = id
    · obtain ⟨rfl, rfl⟩ := here
      rw [if_pos ⟨rfl, rfl⟩] at shown
      exact ⟨after, shown, .inr ⟨awoken view member viewed, rfl⟩⟩
    · rw [if_neg here] at shown
      exact ⟨view, shown.trans viewed, .inl rfl⟩
  · obtain ⟨before, viewed⟩ := sound.exists_view member
    have shown := turned.views address id member
    rw [if_pos ⟨rfl, rfl⟩] at shown
    exact ⟨after, shown, awoken before member viewed ▸ View.awoken_active⟩

theorem Sound.awakeExecution (sound : Sound state running) (rising : Rising state address)
    (called : state.awakeExecution id address = some next) :
    Wakes state next running address id := by
  induction address generalizing state id with
  | nil =>
      obtain ⟨held, kept, _, views, active⟩ := sound.wakes_here called
      refine ⟨held, kept, fun place other view member viewed => ?_,
        fun other place within member => ?_⟩
      · obtain ⟨after, shown, same | ⟨awoken, here⟩⟩ := views place other view member viewed
        · exact ⟨after, shown, .inl same⟩
        · exact ⟨after, shown, .inr ⟨awoken, here ▸ List.suffix_refl _⟩⟩
      · rcases List.suffix_cons_iff.mp within with same | empty
        · cases same
          exact active member
        · exact absurd (List.suffix_nil.mp empty) (List.cons_ne_nil _ _)
  | cons parent above ih =>
      obtain ⟨middle, here, goesOn⟩ := Option.bind_eq_some_iff.mp called
      obtain ⟨read, reads, goesOn⟩ := Option.bind_eq_some_iff.mp goesOn
      obtain ⟨held, kept, ⟨left, turned⟩, views, active⟩ := sound.wakes_here here
      have risen := rising.turned turned
      split at goesOn
      · obtain ⟨finally_, keeps, changes, wakes⟩ := ih held risen.tail goesOn
        refine ⟨finally_, kept.trans keeps, fun place other view member viewed => ?_,
          fun other place within member => ?_⟩
        · have member' : other ∈ middle.executions place := kept.executions ▸ member
          obtain ⟨after, shown, first⟩ := views place other view member viewed
          obtain ⟨later, seen, second⟩ := changes place other after member' shown
          refine ⟨later, seen, ?_⟩
          rcases first with rfl | ⟨rfl, same⟩
          · rcases second with rfl | ⟨rfl, within⟩
            · exact .inl rfl
            · exact .inr ⟨rfl, within.trans (List.suffix_cons _ _)⟩
          · refine .inr ⟨?_, same ▸ List.suffix_refl _⟩
            rcases second with rfl | ⟨rfl, _⟩
            · rfl
            · rw [View.awoken_of_active View.awoken_active]
        · rcases List.suffix_cons_iff.mp within with same | within
          · cases same
            obtain ⟨view, viewed, awake⟩ := active member
            obtain ⟨after, shown, either⟩ :=
              changes _ _ view (kept.executions ▸ member) viewed
            refine ⟨after, shown, ?_⟩
            rcases either with rfl | ⟨rfl, _⟩
            · exact awake
            · exact View.awoken_active
          · exact wakes other place within (kept.executions ▸ member)
      · rename_i unsuspended
        cases goesOn
        refine ⟨held, kept, fun place other view member viewed => ?_,
          fun other place within member => ?_⟩
        · obtain ⟨after, shown, same | ⟨awoken, here⟩⟩ := views place other view member viewed
          · exact ⟨after, shown, .inl same⟩
          · exact ⟨after, shown, .inr ⟨awoken, here ▸ List.suffix_refl _⟩⟩
        · rcases List.suffix_cons_iff.mp within with same | within
          · cases same
            exact active member
          · exact risen.active (risen.active_of_read reads unsuspended) within

/-- The wake-up of an execution that is attached passes every assertion. -/
theorem Sound.exists_awakeExecution (sound : Sound state running) (rising : Rising state address)
    (member : id ∈ state.executions address) :
    ∃ next, state.awakeExecution id address = some next := by
  induction address generalizing state id with
  | nil => exact sound.exists_awakeHere member
  | cons parent above ih =>
      obtain ⟨middle, here⟩ := sound.exists_awakeHere member
      obtain ⟨held, kept, ⟨left, turned⟩, _⟩ := sound.wakes_here here
      have risen := rising.turned turned
      have upper := risen.attached parent above (List.suffix_refl _)
      obtain ⟨view, viewed⟩ := held.exists_view upper
      have reads : middle.executionState above parent = some view.state := by
        rw [State.executionState, if_pos upper, viewed, Option.map_some]
      by_cases suspended : view.state = .suspended
      · obtain ⟨next, goesOn⟩ := ih held risen.tail upper
        exact ⟨next, by simp [State.awakeExecution, here, reads, suspended, goesOn]⟩
      · exact ⟨middle, by simp [State.awakeExecution, here, reads, suspended]⟩

end Asco.Core.Worker.Tree
