import Asco.Core.Worker.Nested.ParentAwake

namespace Asco.Core.Worker.Nested

open Foundation Asco.Core.Task Asco.Core.Task.DynprioScheduler
open Asco.Core.Task.CycleScheduler (ExecutionSched)

/-! # The propagation of wake-ups

A wake-up in a nested domain goes on to the parent execution before this one is
left suspended, on every level of the domains.
-/

variable {Thread Id : Type*} {state next : State Thread Id} {gone : Climb Id}

/-- Every climbing wake-up goes on, but for one place. -/
def Climbing (state next : State Thread Id) (gone : Climb Id) : Prop :=
  ∀ place, place ≠ gone → (∃ thread, state.climbs thread = place) →
    ∃ thread, next.climbs thread = place

theorem Climbing.of_same (gone : Climb Id) (same : next.climbs = state.climbs) :
    Climbing state next gone := by
  intro place _ found
  rwa [same]

theorem Climbing.of_update [DecidableEq Thread] {thread : Thread} {place : Climb Id}
    (stands : state.climbs thread = gone)
    (moved : next.climbs = Function.update state.climbs thread place) :
    Climbing state next gone := by
  subst stands
  intro other different found
  obtain ⟨witness, standing⟩ := found
  have apart : witness ≠ thread := by
    rintro rfl
    exact different standing.symm
  exact ⟨witness, by rw [moved, Function.update_of_ne apart, standing]⟩

variable [DecidableEq Id] {depth : Id → ℕ} {id above p q : Id}
  {domain inner outer after : ExecutionDomain Id} {slot : ExecutionSched Id}

omit [DecidableEq Id] in
/-- A step that leaves the slot of the execution alone. -/
theorem InnerParent.of_slot (holds : InnerParent state id domain above outer slot)
    (climbing : Climbing state next gone) (stays : gone ≠ .parent id ∧ gone ≠ .awake above id)
    (recorded : after.executionState id = outer.executionState id)
    (window : inner.hasActiveExecution = true → next.Window id → state.Window id)
    (runs : inner.hasActiveExecution = true →
      domain.hasActiveExecution = true ∨ ∃ thread, next.climbs thread = .parent id) :
    InnerParent next id inner above after slot where
  recorded suspended := recorded.trans (holds.recorded suspended)
  coming active suspends := by
    rcases runs active with ran | ⟨thread, comes⟩
    · have before := suspends.imp_right fun open' => open'.imp_right (Or.imp_right (window active))
      obtain ⟨thread, parent | awake⟩ := holds.coming ran before
      · obtain ⟨thread, parent⟩ := climbing _ (Ne.symm stays.1) ⟨thread, parent⟩
        exact ⟨thread, .inl parent⟩
      · obtain ⟨thread, awake⟩ := climbing _ (Ne.symm stays.2) ⟨thread, awake⟩
        exact ⟨thread, .inr awake⟩
    · exact ⟨thread, .inl comes⟩

omit [DecidableEq Id] in
/-- A step that leaves the worker in the root domain alone. -/
theorem RootParent.of_worker (holds : RootParent state id domain)
    (worker : next.worker = state.worker) (climbing : Climbing state next gone)
    (stays : gone ≠ .parent id)
    (window : inner.hasActiveExecution = true → next.Window id → state.Window id)
    (runs : inner.hasActiveExecution = true →
      domain.hasActiveExecution = true ∨ ∃ thread, next.climbs thread = .parent id) :
    RootParent next id inner := by
  refine holds.of_place (by rw [worker]) (by rw [worker]) (by rw [worker])
    (fun rests => worker ▸ rests) (fun early => worker ▸ early) (fun _ => by rw [worker]) window
    (fun active => (runs active).imp_right .inl) ?_
  intro _ _ found
  rcases found with found | waits
  · exact .inl (climbing _ (Ne.symm stays) found)
  · exact .inr (.inl (by rwa [worker]))

/-- A step that leaves the worker and the domains alone. -/
theorem Attended.of_same (attended : Attended state) (nested : next.nested = state.nested)
    (worker : next.worker = state.worker) (climbing : Climbing state next .outside)
    (window : ∀ id domain, state.nested id = some domain → domain.hasActiveExecution = true →
      next.Window id → state.Window id) : Attended next := by
  constructor
  · intro id domain entered parent
    rw [nested] at entered
    exact (attended.roots id domain entered parent).of_worker worker climbing nofun
      (window id domain entered) .inl
  · intro id domain above outer slot entered parent within holds
    rw [nested] at entered within
    exact (attended.inner id domain above outer slot entered parent within holds).of_slot climbing
      ⟨nofun, nofun⟩ rfl (window id domain entered) .inl

/-- A call of the scheduler of one nested domain. -/
theorem Attended.of_changes {old changed : ExecutionDomain Id}
    {change : ExecutionSched Id → ExecutionSched Id} (attended : Attended state)
    (forest : Forest depth state.nested) (entered : state.nested p = some old)
    (changes : ExecutionDomain.Changes old changed q change)
    (nested : next.nested = Function.update state.nested p (some changed))
    (worker : next.worker = state.worker) (climbing : Climbing state next gone)
    (stays : ∀ above id, gone = .parent id ∨ gone = .awake above id → gone = .awake p q)
    (window : ∀ id, next.Window id → state.Window id)
    (runs : changed.hasActiveExecution = true →
      old.hasActiveExecution = true ∨ ∃ thread, next.climbs thread = .parent p)
    (own : ∀ domain slot, state.nested q = some domain → domain.parent = some p →
      old.slot q = some slot → InnerParent state q domain p old slot →
      InnerParent next q domain p changed (change slot)) : Attended next := by
  have before {id : Id} {found : ExecutionDomain Id} (inside : next.nested id = some found) :
      ∃ domain, state.nested id = some domain ∧ found.parent = domain.parent ∧
        (id ≠ p → found = domain) ∧ (found.hasActiveExecution = true →
          domain.hasActiveExecution = true ∨ ∃ thread, next.climbs thread = .parent id) := by
    rw [nested] at inside
    by_cases here : id = p
    · subst here
      rw [Function.update_self] at inside
      cases inside
      exact ⟨old, entered, changes.parent, fun away => absurd rfl away, runs⟩
    · rw [Function.update_of_ne here] at inside
      exact ⟨found, inside, rfl, fun _ => rfl, .inl⟩
  constructor
  · intro id found inside parent
    obtain ⟨domain, inside, same, _, runs⟩ := before inside
    refine (attended.roots id domain inside (same ▸ parent)).of_worker worker climbing ?_
      (fun _ => window id) runs
    intro gone
    cases gone.symm.trans (stays id id (.inl gone))
  · intro id found above outer slot inside parent within holds
    obtain ⟨domain, inside, same, unchanged, runs⟩ := before inside
    rw [nested] at within
    obtain ⟨previous, old', within', held, _, here | ⟨elsewhere, rfl, recorded⟩⟩ :=
      slot_of_changes entered changes within holds
    · obtain ⟨rfl, rfl, rfl, rfl, rfl⟩ := here
      have deeper := forest.deeper above previous id entered (by simp [held])
      have apart : id ≠ above := by
        rintro rfl
        omega
      rw [unchanged apart] at parent ⊢
      exact own domain old' inside parent held
        (attended.inner id domain above previous old' inside parent entered held)
    · refine (attended.inner id domain above previous slot inside (same ▸ parent) within'
        held).of_slot climbing ⟨?_, ?_⟩ recorded (fun _ => window id) runs
      · intro gone
        cases gone.symm.trans (stays id id (.inl gone))
      · intro gone
        cases gone.symm.trans (stays above id (.inr gone))
        exact elsewhere ⟨rfl, rfl⟩

/-! ## The steps of `run_once` -/

omit [DecidableEq Id] in
/-- Elsewhere than right after the test of a domain, no execution of a nested
domain is about to be suspended. -/
theorem window_of_phase (worker : next.worker = state.worker) (phase : next.phase ≠ .suspend)
    (opened : next.Window id) : state.Window id := by
  have here := opened.resolve_left fun suspends => phase suspends.1
  rw [worker] at here
  exact .inr here

omit [DecidableEq Id] in
theorem not_window (worker : next.worker = state.worker) (phase : next.phase ≠ .suspend)
    (runs : state.worker.place = .executing .running false) : ¬ next.Window id := by
  rintro (suspends | ⟨_, here⟩)
  · exact phase suspends.1
  · rw [worker, runs] at here
    contradiction

section
variable [Fintype Thread] (attended : Attended state) (stacked : Stacked depth state)
  {frame : Frame Id} {rest : List (Frame Id)}
include attended stacked

/-- `suspend_current` of the innermost execution, whose domain has been found without
an active one. -/
theorem Attended.suspendCurrent (phase : state.phase = .suspend)
    (stack : state.stack = frame :: rest) (entered : state.nested frame.domain = some outer) :
    Attended { state with
      nested := Function.update state.nested frame.domain (some (outer.suspendCurrent frame.id))
      phase := .exit false } := by
  have runs := stacked.runs (by simp [phase]) (.inr (by simp [phase]))
  refine attended.of_changes stacked.forest entered
    (ExecutionDomain.suspendCurrent_changes (stacked.forest.wellFormed _ _ entered) frame.id)
    rfl rfl (Climbing.of_same .outside rfl) (by simp)
    (fun _ => window_of_phase rfl (by simp)) ?_ ?_
  · rw [ExecutionDomain.suspendCurrent_hasActive]
    exact .inl
  · intro domain slot inside parent holds before
    have closed : ¬ State.Window { state with
        nested := Function.update state.nested frame.domain (some (outer.suspendCurrent frame.id))
        phase := .exit false } frame.id := not_window rfl (by simp) runs
    have calm := stacked.unasked (by simp [phase]) entered holds
    obtain ⟨_, _, within, held, active, _⟩ := stacked.frames frame (by simp [stack])
    cases entered.symm.trans within
    cases holds.symm.trans held
    cases early : slot.preawaken with
    | true =>
        simp only [ExecutionSched.asked, early, if_true]
        constructor
        · simp [active, calm]
        · simp [active, calm, closed]
    | false =>
        constructor
        · exact fun _ => ExecutionDomain.suspendCurrent_executionState holds early
        · intro occupied _
          exact before.coming occupied
            (.inr ⟨early, .inr (.inl ⟨phase, by simp [State.top, stack]⟩)⟩)

/-- The end of the innermost context. -/
theorem Attended.endContext {completed : Bool} (phase : state.phase = .exit completed)
    (stack : state.stack = frame :: rest) (entered : state.nested frame.domain = some outer) :
    Attended { state with
      nested := Function.update state.nested frame.domain
        (some (outer.endContext frame.context completed))
      stack := rest
      phase := .exit false } := by
  have runs := stacked.runs (by simp [phase]) (.inl (by simp [stack]))
  obtain ⟨_, scheduled, within, held, active, context⟩ := stacked.frames frame (by simp [stack])
  cases entered.symm.trans within
  have wellFormed := stacked.forest.wellFormed _ _ entered
  refine attended.of_changes stacked.forest entered
    (ExecutionDomain.endContext_changes wellFormed context completed)
    rfl rfl (Climbing.of_same .outside rfl) (by simp)
    (fun _ => window_of_phase rfl (by simp)) ?_ ?_
  · exact fun runs => .inl (ExecutionDomain.endContext_hasActive runs)
  · intro domain slot inside parent holds before
    cases holds.symm.trans held
    have yields : completed = false := by
      rw [← Bool.not_eq_true]
      rintro rfl
      obtain ⟨_, _, same, leaf⟩ := stacked.executes (.inr phase)
      cases stack.symm.trans same
      rw [inside] at leaf
      contradiction
    subst yields
    cases leaves : scheduled.leaves false with
    | true =>
        constructor
        · exact fun _ => ExecutionDomain.endContext_executionState wellFormed context holds leaves
        · intro occupied _
          have asked : scheduled.suspendNow = true ∧ scheduled.preawaken = false := by
            simpa [ExecutionSched.leaves] using leaves
          exact before.coming occupied (.inr ⟨asked.2, .inl asked.1⟩)
    | false =>
        have closed : ¬ State.Window { state with
            nested := Function.update state.nested frame.domain
              (some (outer.endContext frame.context false))
            stack := rest
            phase := .exit false } frame.id := not_window rfl (by simp) runs
        simp only [ExecutionSched.ended, leaves, Bool.false_eq_true, if_false]
        constructor
        · simp [active]
        · simp [active, closed]

/-- The state of the scheduled execution is recorded. -/
theorem Attended.record (phase : state.phase = .record)
    (stack : state.stack = frame :: rest) (entered : state.nested frame.domain = some outer) :
    Attended { state with
      nested := Function.update state.nested frame.domain (some (outer.scheduleExecution frame.id))
      phase := .test } := by
  obtain ⟨_, scheduled, within, held, active, _⟩ := stacked.frames frame (by simp [stack])
  cases entered.symm.trans within
  refine attended.of_changes stacked.forest entered
    (ExecutionDomain.scheduleExecution_changes (stacked.forest.wellFormed _ _ entered) frame.id)
    rfl rfl (Climbing.of_same .outside rfl) (by simp)
    (fun _ => window_of_phase rfl (by simp)) .inl ?_
  intro domain slot inside parent holds before
  cases holds.symm.trans held
  have calm := stacked.unasked (by simp [phase]) entered holds
  constructor
  · simp [active, calm]
  · intro occupied suspends
    have closed : ¬ State.Window { state with
        nested := Function.update state.nested frame.domain
          (some (outer.scheduleExecution frame.id))
        phase := .test } frame.id :=
      not_window rfl (by simp) (stacked.runs (by simp [phase]) (.inr (by simp [phase])))
    simp [active, calm, closed] at suspends

/-- `schedule` of the domain of the innermost execution. -/
theorem Attended.schedule {context : Fin domain.size}
    (entered : state.nested state.top = some domain)
    (yields : domain.schedule = some (id, context, after)) :
    Attended { state with
      nested := Function.update state.nested state.top (some after)
      stack := { domain := state.top, id, context } :: state.stack
      phase := .record } := by
  obtain ⟨_, _, parent, wellFormed, contexts, slots, recorded, active⟩ :=
    ExecutionDomain.schedule_spec (stacked.forest.wellFormed _ _ entered) yields
  have changes : ExecutionDomain.Changes domain after id fun slot => slot := by
    refine ⟨parent, wellFormed, contexts, fun other => ?_, fun other _ => by rw [recorded]⟩
    rw [slots, Option.map_id']
    split
    · rename_i same
      rw [same]
    · rfl
  refine attended.of_changes stacked.forest entered changes
    rfl rfl (Climbing.of_same .outside rfl) (by simp)
    (fun _ => window_of_phase rfl (by simp)) (by rw [active]; exact .inl) ?_
  intro inner slot _ _ _ before
  exact before.of_slot (Climbing.of_same .outside rfl) ⟨nofun, nofun⟩ (by rw [recorded])
    (fun _ => window_of_phase rfl (by simp)) .inl

theorem Attended.descend (stepped : state.descend = some next) : Attended next := by
  unfold State.descend at stepped
  split at stepped
  · rename_i phase
    split at stepped
    · cases stepped
      exact attended.of_same rfl rfl (Climbing.of_same .outside rfl)
        fun _ _ _ _ => window_of_phase rfl (by simp)
    · rename_i domain entered
      split at stepped <;> cases stepped
      · exact attended.of_same rfl rfl (Climbing.of_same .outside rfl)
          fun _ _ _ _ => window_of_phase rfl (by simp)
      · rename_i empty
        refine attended.of_same rfl rfl (Climbing.of_same .outside rfl) ?_
        rintro id found inside occupied (⟨_, top⟩ | here)
        · have top : state.top = id := top
          cases (top ▸ entered).symm.trans inside
          exact absurd occupied empty
        · exact .inr here
  · obtain ⟨domain, entered, stepped⟩ := Option.bind_eq_some_iff.mp stepped
    obtain ⟨⟨id, context, scheduled⟩, yields, rfl⟩ := Option.map_eq_some_iff.mp stepped
    exact attended.schedule stacked entered yields
  · rename_i frame rest phase stack
    obtain ⟨_, changed, rfl⟩ := Option.map_eq_some_iff.mp stepped
    obtain ⟨domain, entered, rfl⟩ := change_eq_some changed
    exact attended.record stacked phase stack entered
  · rename_i frame rest phase stack
    obtain ⟨_, changed, rfl⟩ := Option.map_eq_some_iff.mp stepped
    obtain ⟨domain, entered, rfl⟩ := change_eq_some changed
    exact attended.suspendCurrent stacked phase stack entered
  · rename_i completed frame rest phase stack
    obtain ⟨_, changed, rfl⟩ := Option.map_eq_some_iff.mp stepped
    obtain ⟨domain, entered, rfl⟩ := change_eq_some changed
    exact attended.endContext stacked phase stack entered
  · contradiction

/-- `suspend_current` of an execution without a domain. -/
theorem Attended.suspendLeaf (phase : state.phase = .execute)
    (stack : state.stack = frame :: rest) (entered : state.nested frame.domain = some outer) :
    Attended { state with
      nested := Function.update state.nested frame.domain
        (some (outer.suspendCurrent frame.id)) } := by
  refine attended.of_changes stacked.forest entered
    (ExecutionDomain.suspendCurrent_changes (stacked.forest.wellFormed _ _ entered) frame.id)
    rfl rfl (Climbing.of_same .outside rfl) (by simp) (fun _ opened => opened) ?_ ?_
  · rw [ExecutionDomain.suspendCurrent_hasActive]
    exact .inl
  · intro domain slot inside _ _ _
    obtain ⟨_, _, same, leaf⟩ := stacked.executes (.inl phase)
    cases stack.symm.trans same
    rw [inside] at leaf
    contradiction

/-! ## The steps of `awake_execution` -/

variable [DecidableEq Thread] {thread : Thread}

/-- `awake_execution` of a nested domain. -/
theorem Attended.awakeExecution (climbs : state.climbs thread = .awake p q)
    (entered : state.nested p = some outer) :
    Attended { state with
      nested := Function.update state.nested p (some (outer.awakeExecution q))
      climbs := Function.update state.climbs thread (.parent p) } := by
  refine attended.of_changes stacked.forest entered
    (ExecutionDomain.awakeExecution_changes (stacked.forest.wellFormed _ _ entered) q)
    rfl rfl (Climbing.of_update climbs rfl) (fun _ _ _ => rfl) (fun _ opened => opened)
    (fun _ => .inr ⟨thread, Function.update_self _ _ _⟩) ?_
  intro domain slot inside parent holds before
  cases active : slot.active with
  | true =>
      simp only [ExecutionSched.awoken, active, if_true]
      constructor
      · intro asks
        rw [ExecutionDomain.awakeExecution_executionState holds active]
        exact before.recorded (by simpa [active] using asks)
      · simp
  | false =>
      have closed : ¬ state.Window q := by
        intro opened
        obtain ⟨_, frame, rest, stack, rfl, rfl⟩ := stacked.inner_window inside parent opened
        obtain ⟨_, _, within, held, runs, _⟩ := stacked.frames frame (by simp [stack])
        cases entered.symm.trans within
        cases holds.symm.trans held
        rw [active] at runs
        contradiction
      simp only [ExecutionSched.awoken, active, Bool.false_eq_true, if_false]
      constructor
      · simp
      · intro _ suspends
        simp only [Bool.true_eq_false, Bool.false_eq_true, false_or] at suspends
        exact absurd suspends.2 closed

omit stacked [Fintype Thread] in
/-- A thread has read the state of the parent execution. -/
theorem Attended.reads (climbs : state.climbs thread = .parent p) {place : Climb Id}
    {awakers : Thread → AwakePc Id}
    (waits : ∀ id, (∃ other, (state.worker.awakers other).Pending id) →
      ∃ other, (awakers other).Pending id)
    (root : ∀ domain, state.nested p = some domain → domain.parent = none →
      (state.worker.scheduler.domain p = .suspended ∧ ∃ other, (awakers other).Pending p) ∨
        state.worker.scheduler.domain p ≠ .suspended ∧
          (domain.hasActiveExecution = true → state.Window p →
            p ∈ state.worker.scheduler.preawake ∧ ¬ Decided state.worker p))
    (inner : ∀ domain above outer slot, state.nested p = some domain → domain.parent = some above →
      state.nested above = some outer → outer.slot p = some slot →
      (outer.executionState p = .suspended ∧ place = .awake above p) ∨
        outer.executionState p ≠ .suspended ∧
          (domain.hasActiveExecution = true → state.Window p → slot.preawaken = true)) :
    Attended { state with
      worker := { state.worker with awakers }
      climbs := Function.update state.climbs thread place } := by
  have climbing : Climbing state { state with
      worker := { state.worker with awakers }
      climbs := Function.update state.climbs thread place } (.parent p) :=
    Climbing.of_update climbs rfl
  constructor
  · intro id domain entered parent
    have before := attended.roots id domain entered parent
    refine before.of_place rfl rfl rfl (fun rests => rests) (fun early => early) (fun _ => rfl)
      (fun _ opened => opened) .inl ?_
    intro active opened found
    rcases found with found | found
    · by_cases same : id = p
      · subst same
        rcases root domain entered parent with ⟨_, waits⟩ | ⟨awake, early⟩
        · exact .inr (.inl waits)
        · refine .inr (.inr ?_)
          refine early active (opened.resolve_right fun marked => awake (before.recorded marked))
      · exact .inl (climbing _ (by simpa using same) found)
    · exact .inr (.inl (waits id found))
  · intro id domain above outer slot entered parent within holds
    have before := attended.inner id domain above outer slot entered parent within holds
    by_cases same : id = p
    · subst same
      refine ⟨before.recorded, fun active suspends => ?_⟩
      rcases inner domain above outer slot entered parent within holds with
        ⟨_, rfl⟩ | ⟨awake, early⟩
      · exact ⟨thread, .inr (Function.update_self _ _ _)⟩
      · exfalso
        rcases suspends with inactive | ⟨late, asks | opened⟩
        · exact awake (before.recorded (.inl inactive))
        · exact awake (before.recorded (.inr asks))
        · have opened : state.Window id := opened
          simp [early active opened] at late
    · refine before.of_slot climbing ⟨?_, nofun⟩ rfl (fun _ opened => opened) .inl
      rintro ⟨⟩
      exact same rfl

theorem Attended.climb (allowed : state.Reads (state.climbs thread))
    (stepped : state.climb thread = some next) : Attended next := by
  cases place : state.climbs thread with
  | outside => simp [State.climb, place] at stepped
  | awake above id =>
      simp only [State.climb, place] at stepped
      obtain ⟨_, changed, rfl⟩ := Option.map_eq_some_iff.mp stepped
      obtain ⟨domain, entered, rfl⟩ := change_eq_some changed
      exact attended.awakeExecution stacked place entered
  | parent p =>
      have outside := (stacked.apart thread).resolve_left (by simp [place])
      rw [place] at allowed
      simp only [State.climb, place] at stepped
      obtain ⟨domain, entered, stepped⟩ := Option.bind_eq_some_iff.mp stepped
      obtain ⟨read, parentState, rfl⟩ := Option.map_eq_some_iff.mp stepped
      have occupied (active : domain.hasActiveExecution = true) : state.occupied p = true := by
        simp [State.occupied, entered, active]
      cases parent : domain.parent with
      | none =>
          simp only [State.parentState, parent, Option.some.injEq] at parentState
          subst parentState
          have noInner (domain' : ExecutionDomain Id) (above : Id)
              (inside : state.nested p = some domain') : domain'.parent ≠ some above := by
            cases entered.symm.trans inside
            simp [parent]
          split
          · rename_i suspended
            refine attended.reads place ?_ ?_ ?_
            · intro id waits
              exact exists_local_update (AwakePc.Pending id) (by simp [outside]) waits
            · intro _ _ _
              exact .inl ⟨suspended, thread, by simp⟩
            · intro domain' above _ _ inside within
              exact absurd within (noInner domain' above inside)
          · rename_i awake
            refine attended.reads place (fun _ waits => waits) ?_ ?_
            · intro domain' inside _
              cases entered.symm.trans inside
              refine .inr ⟨awake, fun active opened => ?_⟩
              have early := allowed (occupied active) opened
              have open' := stacked.root_window entered parent opened
              simp only [State.preawaken, entered, Option.bind_some, parent,
                decide_eq_true_eq] at early
              exact ⟨early, fun decided => decided.elim open'.1.1 open'.2⟩
            · intro domain' above _ _ inside within
              exact absurd within (noInner domain' above inside)
      | some above =>
          simp only [State.parentState, parent, Option.map_eq_some_iff] at parentState
          obtain ⟨outer, within, rfl⟩ := parentState
          have noRoot (domain' : ExecutionDomain Id) (inside : state.nested p = some domain') :
              domain'.parent ≠ none := by
            cases entered.symm.trans inside
            simp [parent]
          split
          · rename_i suspended
            refine attended.reads place (fun _ waits => waits) ?_ ?_
            · intro domain' inside root
              exact absurd root (noRoot domain' inside)
            · intro domain' above' outer' _ inside parent' within' _
              cases entered.symm.trans inside
              cases parent.symm.trans parent'
              cases within.symm.trans within'
              exact .inl ⟨suspended, rfl⟩
          · rename_i awake
            refine attended.reads place (fun _ waits => waits) ?_ ?_
            · intro domain' inside root
              exact absurd root (noRoot domain' inside)
            · intro domain' above' outer' slot inside parent' within' holds
              cases entered.symm.trans inside
              cases parent.symm.trans parent'
              cases within.symm.trans within'
              refine .inr ⟨awake, fun active opened => ?_⟩
              have early := allowed (occupied active) opened
              simpa only [State.preawaken, entered, Option.bind_some, parent, within, holds,
                Option.any_some] using early

/-- A step in the root domain. -/
theorem Attended.root {label : Worker.Label Thread Id} {worker : Worker.State Thread Id}
    (allowed : ReadsInTime state (.root label)) (permitted : state.permits label = true)
    (moved : state.worker.move label = some worker) :
    Attended { state with worker, phase := state.phaseAfter label } := by
  have behind := stacked.root permitted moved
  constructor
  · intro id domain entered parent
    exact (attended.roots id domain entered parent).root stacked entered parent allowed permitted
      moved
  · intro id domain above outer slot entered parent within holds
    refine (attended.inner id domain above outer slot entered parent within holds).of_slot
      (Climbing.of_same .outside rfl) ⟨nofun, nofun⟩ rfl ?_ .inl
    intro _ opened
    obtain ⟨phase, frame, rest, stack, same, _⟩ := behind.inner_window entered parent opened
    have kept := stacked.phaseAfter_of_stack stack permitted moved
    have stack : state.stack = frame :: rest := stack
    exact .inl ⟨kept.symm.trans phase, by simp only [State.top, stack, same]⟩

theorem Attended.step {label : Label Thread Id} (allowed : ReadsInTime state label)
    (moved : state.move label = some next) : Attended next := by
  cases label with
  | root label =>
      obtain ⟨permitted, made⟩ := Option.ite_none_right_eq_some.mp moved
      obtain ⟨worker, stepped, rfl⟩ := Option.map_eq_some_iff.mp made
      exact attended.root stacked allowed permitted stepped
  | descend => exact attended.descend stacked moved
  | suspendLeaf =>
      simp only [State.move] at moved
      split at moved
      · rename_i frame rest phase stack
        obtain ⟨domain, entered, rfl⟩ := change_eq_some moved
        exact attended.suspendLeaf stacked phase stack entered
      · contradiction
  | leave completed =>
      obtain ⟨_, ⟨⟩⟩ := Option.ite_none_right_eq_some.mp moved
      exact attended.of_same rfl rfl (Climbing.of_same .outside rfl)
        fun _ _ _ _ => window_of_phase rfl (by simp)
  | awake thread domain id =>
      obtain ⟨⟨outside, _⟩, ⟨⟩⟩ := Option.ite_none_right_eq_some.mp moved
      exact attended.of_same rfl rfl (Climbing.of_update outside rfl) fun _ _ _ _ opened => opened
  | climb thread => exact attended.climb stacked allowed moved

end

/-! ## Runs -/

theorem attended_of_fresh (fresh : Fresh depth state) : Attended state := by
  obtain ⟨⟨_, suspended, _, _, _, _, place, _⟩, _, unused, _, phase, _⟩ := fresh
  have closed (id : Id) : ¬ state.Window id := by
    simp [State.Window, At, phase, place]
  have unmarked (id : Id) : ¬ Marked state.worker id := by
    simp [Marked, At, suspended, place]
  constructor
  · intro id _ _ _
    exact ⟨fun marked => absurd marked (unmarked id),
      fun _ opened => opened.elim (absurd · (closed id)) (absurd · (unmarked id))⟩
  · intro id _ above outer slot _ _ within holds
    obtain ⟨active, calm⟩ := unused above outer id slot within holds
    constructor
    · simp [active, calm]
    · simp [active, calm, closed id]

theorem attended_of_reachable [DecidableEq Thread] [Fintype Thread]
    (reachable : (machine Thread depth).Reachable ReadsInTime state) :
    Stacked depth state ∧ Attended state := by
  have initial (first : State Thread Id) (fresh : Fresh depth first) :
      Stacked depth first ∧ Attended first :=
    ⟨stacked_of_fresh fresh, attended_of_fresh fresh⟩
  refine reachable.invariant initial ?_
  intro state label next holds allowed moved
  exact ⟨holds.1.step moved, holds.2.step holds.1 allowed moved⟩

/-- Once all calls have returned, no execution is suspended whose domain has an
active execution, on any level. -/
theorem parentsAwake_of_readsInTime [DecidableEq Thread] [Fintype Thread]
    (reachable : (machine Thread depth).Reachable ReadsInTime state) : state.ParentsAwake := by
  obtain ⟨_, attended⟩ := attended_of_reachable reachable
  intro finished id domain entered active suspended
  obtain ⟨_, _, returned⟩ := finished
  cases parent : domain.parent with
  | none =>
      simp only [State.ParentSuspended, parent] at suspended
      rcases (attended.roots id domain entered parent).coming active (.inr (.inl suspended)) with
        ⟨thread, climbs⟩ | ⟨thread, waits⟩ | ⟨_, undecided⟩
      · rw [(returned thread).1] at climbs
        contradiction
      · simp [(returned thread).2] at waits
      · exact undecided (.inl suspended)
  | some above =>
      simp only [State.ParentSuspended, parent] at suspended
      obtain ⟨outer, slot, within, holds, inactive⟩ := suspended
      obtain ⟨thread, climbs⟩ := (attended.inner id domain above outer slot entered parent within
        holds).coming active (.inl inactive)
      rw [(returned thread).1] at climbs
      simp at climbs

/-! ## Two executions -/

/-- A domain of the root domain, with execution 1. -/
def single : ExecutionDomain (Fin 2) where
  parent := none
  size := 1
  scheduler :=
    let empty := CycleScheduler.Scheduler.empty 1 fun _ => .active
    (empty.attachExecution 1).getD empty

/-- Execution 1 in the domain of execution 0. -/
def pair : State (Fin 1) (Fin 2) where
  worker := Worker.started (Fin 1) 0
  nested id := if id = 0 then some single else none
  stack := []
  phase := .root
  climbs _ := .outside

theorem pair_nested {above : Fin 2} {domain : ExecutionDomain (Fin 2)}
    (entered : pair.nested above = some domain) : above = 0 ∧ domain = single := by
  obtain ⟨rfl, ⟨⟩⟩ := Option.ite_none_right_eq_some.mp entered
  exact ⟨rfl, rfl⟩

theorem pair_fresh : Fresh (fun id : Fin 2 => id.val) pair where
  worker := Worker.started_fresh (Fin 1) 0
  forest := by
    constructor
    · intro above domain entered
      obtain ⟨rfl, rfl⟩ := pair_nested entered
      unfold ExecutionDomain.WellFormed
      decide
    · intro above domain id entered holds
      obtain ⟨rfl, rfl⟩ := pair_nested entered
      revert id
      decide
    · intro above domain id inner entered holds inside
      obtain ⟨rfl, rfl⟩ := pair_nested entered
      obtain ⟨rfl, rfl⟩ := pair_nested inside
      revert holds
      decide
  unused above domain id slot entered holds := by
    obtain ⟨rfl, rfl⟩ := pair_nested entered
    have used : id = 1 := by
      have only : ∀ id : Fin 2, (single.slot id).isSome → id = 1 := by decide
      exact only id (by simp [holds])
    subst used
    cases holds
    exact ⟨rfl, rfl⟩
  stack := rfl
  phase := rfl
  climbs _ := rfl

/-- Execution 1 is suspended, and `run_once` finds the domain of execution 0 without
an active execution. -/
def emptied : List (Label (Fin 1) (Fin 2)) :=
  [.root (.attach 0), .root (.worker 0), .root (.worker 0), .root (.schedule ⟨0, 0⟩), .descend,
    .descend, .descend, .descend, .suspendLeaf, .leave false, .descend, .root (.leave false)] ++
    List.replicate 6 (.root (.worker 0)) ++ [.root (.schedule ⟨0, 0⟩), .descend]

/-- Execution 0 is suspended. -/
def suspension : List (Label (Fin 1) (Fin 2)) :=
  .root .suspend :: List.replicate 4 (.root (.worker 0)) ++
    .root (.leave false) :: List.replicate 6 (.root (.worker 0))

/-- Execution 1 is woken, and the state of execution 0 is read. -/
def wakeUp : List (Label (Fin 1) (Fin 2)) := [.awake 0 0 1, .climb 0, .climb 0]

/-- All calls have returned and the domain of execution 0 has an active execution;
`suspended` says whether execution 0 is suspended. -/
def settled (suspended : Bool) (state : State (Fin 1) (Fin 2)) : Bool :=
  state.phase = .root && state.worker.place = .idle && state.climbs 0 = .outside &&
    state.worker.awakers 0 = .outside &&
    (state.nested 0).any (fun domain => domain.hasActiveExecution && domain.parent.isNone) &&
    decide (0 ∈ state.worker.scheduler.suspended) == suspended

/-- A wake-up of execution 1 after execution 0 has been suspended. -/
theorem parentsAwake_of_readsInTime_pair : ∃ state : State (Fin 1) (Fin 2),
    (machine (Fin 1) fun id : Fin 2 => id.val).Reachable ReadsInTime state ∧ state.ParentsAwake ∧
      settled false state = true := by
  have executed : ((machine (Fin 1) fun id : Fin 2 => id.val).exec ReadsInTime pair
      (List.flatten
        [emptied,
          suspension,
          wakeUp,
          List.replicate 4 (.root (.awaker 0))])).map
        (settled false) = some true := by decide +kernel
  obtain ⟨state, executed, settled⟩ := Option.map_eq_some_iff.mp executed
  have reachable : (machine (Fin 1) fun id : Fin 2 => id.val).Reachable ReadsInTime state :=
    ⟨pair, pair_fresh, Machine.exec_run executed⟩
  exact ⟨state, reachable, parentsAwake_of_readsInTime reachable, settled⟩

/-- A wake-up of execution 1 that reads the state of execution 0 before
`suspend_current` has recorded it. -/
theorem parent_suspended_with_active_child : ∃ state : State (Fin 1) (Fin 2),
    (machine (Fin 1) fun id : Fin 2 => id.val).Reachable Machine.free state ∧
      ¬ state.ParentsAwake := by
  have executed : ((machine (Fin 1) fun id : Fin 2 => id.val).exec Machine.free pair
      (emptied ++ wakeUp ++ suspension)).map (settled true) = some true := by decide +kernel
  obtain ⟨state, executed, settles⟩ := Option.map_eq_some_iff.mp executed
  have reachable : (machine (Fin 1) fun id : Fin 2 => id.val).Reachable Machine.free state :=
    ⟨pair, pair_fresh, Machine.exec_run executed⟩
  refine ⟨state, reachable, fun awake => ?_⟩
  simp only [settled, Bool.and_eq_true, decide_eq_true_eq, beq_iff_eq, Option.any_eq_true,
    Option.isNone_iff_eq_none] at settles
  obtain ⟨⟨⟨⟨⟨phase, idle⟩, climbs⟩, awakers⟩, domain, entered, active, parent⟩, suspended⟩ :=
    settles
  refine awake ⟨phase, idle, fun thread => ?_⟩ 0 domain entered active ?_
  · rw [Subsingleton.elim thread 0]
    exact ⟨climbs, awakers⟩
  · simpa only [State.ParentSuspended, parent] using suspended

end Asco.Core.Worker.Nested
