import Asco.Core.Worker.Tree.WakeUp

namespace Asco.Core.Worker.Tree

open Foundation Asco.Core.Task
open DynprioScheduler (ExecutionState)

/-! # The tree of domains stays coherent

What a domain records about its executions and what its scheduler holds agree, but for
the execution that is running and has asked to be suspended.  It takes that no domain is
cancelled that has a suspended execution.
-/

variable {Id : Type*} [DecidableEq Id]

/-- A domain is cancelled only when its scheduler holds none of its executions as
suspended, and an execution is attached only under an id that is not in the index map
of the scheduler yet. -/
def CancelsActive (state : State Id) : Label Id → Prop
  | .cancel address => ∀ id ∈ state.executions address, ¬ state.Held address id
  | .attach address id => ∀ domain ∈ state.nested address, domain.scheduler.find id = none
  | _ => True

instance : DecidableRel (@CancelsActive Id _)
  | _, .cancel _ => inferInstanceAs (Decidable (∀ _ ∈ _, _))
  | _, .attach _ _ => inferInstanceAs (Decidable (∀ _ ∈ _, _))
  | _, .fetch _ _ => isTrue trivial
  | _, .schedule _ => isTrue trivial
  | _, .visit _ => isTrue trivial
  | _, .suspend => isTrue trivial
  | _, .construct _ => isTrue trivial
  | _, .cancelTask _ => isTrue trivial
  | _, .awake _ _ => isTrue trivial
  | _, .leave _ _ => isTrue trivial

/-- What is kept about the executions agrees, only the innermost execution that is scheduled
may have asked to be suspended, and the execution above an active one is active. -/
structure Coherent (state : State Id) : Prop where
  sound : Sound state (state.stack.getLast?.map Frame.id)
  parent : ∀ parent above, (state.nested (parent :: above)).isSome →
    parent ∈ state.executions above
  frames : ∀ frame rest, frame :: rest <:+ state.stack →
    frame.id ∈ state.executions (path rest) ∧ state.Active (path rest) frame.id ∧
      ∀ domain, state.nested (path rest) = some domain →
        domain.context frame.id = some frame.context
  agrees : ∀ address id view, id ∈ state.executions address → state.view address id = some view →
    view.Agrees (path state.stack = id :: address)
  rises : ∀ id parent above, id ∈ state.executions (parent :: above) →
    (state.nested (id :: parent :: above)).isSome → state.Active (parent :: above) id →
    state.Active above parent

variable {state next : State Id} {address above : List Id} {id parent : Id}

theorem Coherent.attached (coherent : Coherent state) (present : (state.nested address).isSome)
    (within : id :: above <:+ address) : id ∈ state.executions above := by
  induction address with
  | nil => exact absurd (List.suffix_nil.mp within) (List.cons_ne_nil _ _)
  | cons parent upper ih =>
      have member := coherent.parent parent upper present
      rcases List.suffix_cons_iff.mp within with same | within
      · cases same
        exact member
      · cases upper with
        | nil => exact absurd (List.suffix_nil.mp within) (List.cons_ne_nil _ _)
        | cons _ _ =>
            obtain ⟨domain, holds⟩ := coherent.sound.exists_domain member
            exact ih (by rw [holds]; rfl) within

theorem Coherent.isSome_of_suffix (coherent : Coherent state)
    (present : (state.nested address).isSome) (within : id :: above <:+ address) :
    (state.nested (id :: above)).isSome := by
  by_cases same : id :: above = address
  · rw [same]
    exact present
  · obtain ⟨front, split⟩ := within
    cases front using List.reverseRecOn with
    | nil => exact absurd split same
    | append_singleton front last =>
        have inner : last :: id :: above <:+ address := ⟨front, by simpa using split⟩
        obtain ⟨domain, holds⟩ := coherent.sound.exists_domain (coherent.attached present inner)
        rw [holds]
        rfl

/-- The executions above a domain. -/
theorem Coherent.rising (coherent : Coherent state) (present : address = [] ∨
    (state.nested address).isSome) : Rising state address := by
  rcases present with rfl | present
  · exact
      { attached := fun id above within => absurd (List.suffix_nil.mp within) (List.cons_ne_nil _ _)
        held := fun id above _ within => absurd (List.suffix_nil.mp within) (List.cons_ne_nil _ _)
        rises := fun id parent above within =>
          absurd (List.suffix_nil.mp within) (List.cons_ne_nil _ _) }
  · have attached (id : Id) (above : List Id) (within : id :: above <:+ address) :
        id ∈ state.executions above := coherent.attached present within
    exact
      { attached := attached
        held := fun id above view within viewed =>
          (coherent.agrees above id view (attached id above within) viewed).held
        rises := fun id parent above within =>
          coherent.rises id parent above (attached id _ within)
            (coherent.isSome_of_suffix present within) }

/-- A call that changes what is kept about the executions. -/
theorem Coherent.changed (coherent : Coherent state)
    (sound : Sound next (state.stack.getLast?.map Frame.id)) (kept : Kept state next)
    (views : ∀ place other view, other ∈ state.executions place →
      state.view place other = some view → view.Agrees (path state.stack = other :: place) →
      ∃ after, next.view place other = some after ∧ (view.active = true → after.active = true) ∧
        after.Agrees (path state.stack = other :: place))
    (raised : ∀ other parent above, other ∈ state.executions (parent :: above) →
      (state.nested (other :: parent :: above)).isSome → ¬ state.Active (parent :: above) other →
      next.Active (parent :: above) other → next.Active above parent) : Coherent next := by
  have active {place : List Id} {other : Id} (member : other ∈ state.executions place)
      (active : state.Active place other) : next.Active place other := by
    obtain ⟨view, viewed, active⟩ := active
    obtain ⟨after, shown, monotone, _⟩ :=
      views place other view member viewed (coherent.agrees _ _ _ member viewed)
    exact ⟨after, shown, monotone active⟩
  constructor
  · rw [kept.stack]
    exact sound
  · intro parent above present
    rw [kept.isSome] at present
    rw [kept.executions]
    exact coherent.parent parent above present
  · intro frame rest within
    rw [kept.stack] at within
    obtain ⟨member, runs, context⟩ := coherent.frames frame rest within
    exact ⟨kept.executions ▸ member, active member runs,
      fun domain present => kept.context present context⟩
  · intro place other after member shown
    rw [kept.executions] at member
    obtain ⟨view, viewed⟩ := coherent.sound.exists_view member
    obtain ⟨later, seen, _, agrees⟩ :=
      views place other view member viewed (coherent.agrees _ _ _ member viewed)
    obtain rfl := Option.some.inj (shown.symm.trans seen)
    rw [kept.stack]
    exact agrees
  · intro other parent above member present running
    rw [kept.executions] at member
    rw [kept.isSome] at present
    by_cases before : state.Active (parent :: above) other
    · obtain ⟨domain, holds⟩ := coherent.sound.exists_domain member
      have upper := coherent.parent parent above (by rw [holds]; rfl)
      exact active upper (coherent.rises other parent above member present before)
    · exact raised other parent above member present before running

/-- A call that changes what is kept about one execution, which it leaves active if it was. -/
theorem Coherent.turned {after : View} (coherent : Coherent state)
    (sound : Sound next (state.stack.getLast?.map Frame.id))
    (turned : Turned state next address id after) (active : state.Active address id)
    (stays : after.active = true) (agrees : after.Agrees (path state.stack = id :: address)) :
    Coherent next := by
  refine coherent.changed sound turned.kept (fun place other view member viewed agreed => ?_) ?_
  · have shown := turned.views place other member
    by_cases here : place = address ∧ other = id
    · obtain ⟨rfl, rfl⟩ := here
      rw [if_pos ⟨rfl, rfl⟩] at shown
      exact ⟨after, shown, fun _ => stays, agrees⟩
    · rw [if_neg here] at shown
      exact ⟨view, shown.trans viewed, fun active => active, agreed⟩
  · intro other parent above member present inactive running
    by_cases here : parent :: above = address ∧ other = id
    · obtain ⟨rfl, rfl⟩ := here
      exact absurd active inactive
    · obtain ⟨view, viewed, running⟩ := running
      rw [turned.views _ _ member, if_neg here] at viewed
      exact absurd ⟨view, viewed, running⟩ inactive

end Asco.Core.Worker.Tree
