import Asco.Core.Worker.Nested.Root

namespace Asco.Core.Worker.Nested

open Foundation Asco.Core.Task Asco.Core.Task.DynprioScheduler
open Asco.Core.Task.CycleScheduler (ExecutionSched)

/-! # The contexts of a run

What holds between the calls of `run_once`, whatever other threads wake: the
scheduled executions are active in their domains, lie one below the other, and
only the innermost has asked to be suspended.
-/

variable {Thread Id : Type*} [DecidableEq Thread] [DecidableEq Id]
  {worker after : Worker.State Thread Id}

/-! ## The stack -/

/-- The places inside `suspend_current` of the current execution. -/
def suspends : WorkerPc → Bool
  | .suspendContains | .suspendPreawake | .suspendDomain | .suspendFlag | .returned => true
  | _ => false

/-- The scheduled executions, the innermost first. -/
def State.path (state : State Thread Id) : List Id :=
  state.stack.map (·.id) ++ [state.worker.current]

/-- The worker is inside `run_once` below the root: its execution of the root
domain runs, or is being suspended as the contexts end. -/
def State.Below (state : State Thread Id) : Prop :=
  (state.nested state.worker.current).isSome ∧ ∃ pc,
    state.worker.place = .executing pc false ∧
      (pc = .running ∨ state.phase = .exit false ∧ state.stack = [] ∧ suspends pc = true)

variable [Fintype Thread]

structure Stacked (depth : Id → ℕ) (state : State Thread Id) : Prop where
  located : Located state.worker
  asked : Asked state.worker
  forest : Forest depth state.nested
  roots : ∀ id domain,
    id ∈ state.worker.scheduler.contexts ∨ state.worker.place = .attachContext id →
    state.nested id = some domain → domain.parent = none
  uncancelled : ∀ id ∈ state.worker.attached, (state.nested id).isSome →
    id ∉ state.worker.cancelled
  leaf : ∀ pc, state.worker.place = .executing pc true → state.nested state.worker.current = none
  atRoot : state.phase = .root → state.stack = []
  below : state.phase ≠ .root → state.Below
  frames : ∀ frame ∈ state.stack, ∃ domain slot, state.nested frame.domain = some domain ∧
    domain.slot frame.id = some slot ∧ slot.active = true ∧
    domain.context frame.id = some frame.context
  deep : state.path.Pairwise fun inner outer => depth outer < depth inner
  asks : ∀ above domain id slot, state.nested above = some domain → domain.slot id = some slot →
    slot.suspendNow = true → ∃ frame rest, state.stack = frame :: rest ∧
      frame.domain = above ∧ frame.id = id ∧
      (state.phase = .execute ∨ ∃ completed, state.phase = .exit completed)
  executes : state.phase = .execute ∨ state.phase = .exit true →
    ∃ frame rest, state.stack = frame :: rest ∧ state.nested frame.id = none
  apart : ∀ thread, state.climbs thread = .outside ∨ state.worker.awakers thread = .outside

variable {depth : Id → ℕ} {state : State Thread Id}

omit [DecidableEq Thread] [Fintype Thread] in
/-- The steps of a worker inside `suspend_current` of its current execution. -/
theorem workerStep_suspends {execTime : UInt64} {pc : WorkerPc}
    (executes : worker.place = .executing pc false) (inside : pc = .running ∨ suspends pc = true)
    (moved : worker.workerStep execTime = some after) :
    suspends pc = true ∧ after.current = worker.current ∧
      ∃ finish, after.place = .executing finish false ∧ suspends finish = true := by
  cases Worker.State.workerStep_cases moved with
  | @executes _ finish _ scheduler stands running returned stepped =>
      cases executes.symm.trans stands
      have entered := inside.resolve_left running
      have current := (Scheduler.workerStep_keeps stepped).1
      refine ⟨entered, congrArg PrioritiedExecution.id current, finish, rfl, ?_⟩
      cases Scheduler.workerStep_cases stepped with
      | unknown unknown => rfl
      | known known => rfl
      | stays early => rfl
      | suspends unawoken => rfl
      | suspendDomain => rfl
      | suspendFlag => rfl
      | returned => exact absurd rfl returned
      | _ => contradiction
  | ended stands =>
      cases executes.symm.trans stands
      simp [suspends] at inside
  | attachContext stands fresh => cases executes.symm.trans stands
  | attachPush stands => cases executes.symm.trans stands
  | detachSuspended stands suspended => cases executes.symm.trans stands
  | detachAwake stands awake => cases executes.symm.trans stands
  | detachContext stands => cases executes.symm.trans stands
  | detachDomain stands => cases executes.symm.trans stands

omit [DecidableEq Thread] [DecidableEq Id] [Fintype Thread] in
theorem State.Below.of_same {phase : Phase} (below : state.Below) (samePhase : phase = state.phase)
    (place : after.place = state.worker.place) (current : after.current = state.worker.current) :
    State.Below { state with worker := after, phase } := by
  subst samePhase
  simpa only [State.Below, place, current] using below

theorem Stacked.below_root {label : Worker.Label Thread Id} (stacked : Stacked depth state)
    (permitted : state.permits label = true) (moved : state.worker.move label = some after) :
    (state.phaseAfter label = .root → state.stack = []) ∧
      (state.phaseAfter label ≠ .root →
        State.Below { state with worker := after, phase := state.phaseAfter label }) := by
  have atRoot := stacked.atRoot
  have below := stacked.below
  have idle (rests : state.worker.place = .idle) : state.phase = .root := by
    by_contra away
    obtain ⟨_, pc, executes, _⟩ := below away
    rw [rests] at executes
    contradiction
  cases label with
  | worker execTime =>
      refine ⟨atRoot, fun away => ?_⟩
      obtain ⟨entered, pc, executes, inside⟩ := below away
      obtain ⟨asks, current, finish, finished, asked⟩ :=
        workerStep_suspends executes (inside.imp_right (·.2.2)) moved
      obtain ⟨phase, stack, _⟩ := inside.resolve_left (by
        rintro rfl
        contradiction)
      refine ⟨?_, finish, finished, .inr ⟨phase, stack, asked⟩⟩
      simpa only [current] using entered
  | attach id =>
      obtain ⟨⟨rests, _⟩, ⟨⟩⟩ := Option.ite_none_right_eq_some.mp moved
      exact ⟨atRoot, fun away => absurd (idle rests) away⟩
  | schedule entry =>
      obtain ⟨⟨rests, _, _, _, attached⟩, ⟨⟩⟩ := Option.ite_none_right_eq_some.mp moved
      refine ⟨fun _ => atRoot (idle rests), fun away => ?_⟩
      by_cases entered : (state.nested entry.id).isSome
      · have runs := stacked.uncancelled entry.id attached entered
        simp only [Worker.State.schedule, runs, if_false]
        exact ⟨entered, .running, rfl, .inl rfl⟩
      · simp [State.phaseAfter, entered] at away
  | register =>
      obtain ⟨_, ⟨⟩⟩ := Option.ite_none_right_eq_some.mp moved
      exact ⟨atRoot, fun away => (below away).of_same rfl rfl rfl⟩
  | suspend =>
      obtain ⟨_, ⟨⟩⟩ := Option.ite_none_right_eq_some.mp moved
      by_cases entered : (state.nested state.worker.current).isSome
      · have known : (state.nested state.worker.current).isNone = false := by
          simpa [Option.isSome_iff_ne_none] using entered
        simp only [State.permits, known, Bool.false_or, Bool.and_eq_true,
          List.isEmpty_iff] at permitted
        simp only [State.phaseAfter, entered, if_true]
        exact ⟨(by simp), fun _ => ⟨entered, .suspendContains, rfl, .inr ⟨rfl, permitted.2, rfl⟩⟩⟩
      · simp only [State.phaseAfter, entered]
        exact ⟨atRoot, fun away => absurd (below away).1 entered⟩
  | leave completed =>
      refine ⟨fun _ => ?_, fun away => absurd rfl away⟩
      by_cases phase : state.phase = .root
      · exact atRoot phase
      · have entered := (below phase).1
        have known : (state.nested state.worker.current).isNone = false := by
          simpa [Option.isSome_iff_ne_none] using entered
        simp only [State.permits, known, Bool.false_or, Bool.and_eq_true,
          List.isEmpty_iff] at permitted
        exact permitted.1.2
  | requestCancel id =>
      cases moved
      exact ⟨atRoot, fun away => (below away).of_same rfl rfl rfl⟩
  | awake thread id own =>
      obtain ⟨_, ⟨⟩⟩ := Option.ite_none_right_eq_some.mp moved
      exact ⟨atRoot, fun away => (below away).of_same rfl rfl rfl⟩
  | awaker thread =>
      obtain ⟨_, moved⟩ := Option.ite_none_right_eq_some.mp moved
      obtain ⟨⟨scheduler, place⟩, stepped, rfl⟩ := Option.map_eq_some_iff.mp moved
      have current := (Scheduler.awakeStep_keeps stepped).1
      exact ⟨atRoot, fun away =>
        (below away).of_same rfl rfl (congrArg PrioritiedExecution.id current)⟩

/-- Below the first nested domain, the worker takes no step in the root domain
that concerns `run_once`. -/
theorem Stacked.phaseAfter_of_stack {label : Worker.Label Thread Id} {frame : Frame Id}
    {rest : List (Frame Id)} (stacked : Stacked depth state)
    (stack : state.stack = frame :: rest) (permitted : state.permits label = true)
    (moved : state.worker.move label = some after) : state.phaseAfter label = state.phase := by
  have away : state.phase ≠ .root := by
    intro phase
    simp [stacked.atRoot phase] at stack
  obtain ⟨entered, pc, executes, _⟩ := stacked.below away
  have known : (state.nested state.worker.current).isNone = false := by
    simpa [Option.isSome_iff_ne_none] using entered
  cases label with
  | schedule entry =>
      obtain ⟨⟨rests, _⟩, _⟩ := Option.ite_none_right_eq_some.mp moved
      rw [rests] at executes
      contradiction
  | suspend => simp [State.permits, known, stack] at permitted
  | leave completed => simp [State.permits, known, stack] at permitted
  | _ => rfl

theorem Stacked.root {label : Worker.Label Thread Id} (stacked : Stacked depth state)
    (permitted : state.permits label = true) (moved : state.worker.move label = some after) :
    Stacked depth { state with worker := after, phase := state.phaseAfter label } := by
  obtain ⟨atRoot, below⟩ := stacked.below_root permitted moved
  have stackless {entry : PrioritiedExecution Id} (schedules : label = .schedule entry)
      (idle : state.worker.place = .idle) : state.stack = [] := by
    by_cases phase : state.phase = .root
    · exact stacked.atRoot phase
    · obtain ⟨_, pc, executes, _⟩ := stacked.below phase
      rw [idle] at executes
      contradiction
  refine
    { located := stacked.located.step moved
      asked := stacked.asked.step moved
      forest := stacked.forest
      roots := ?_
      uncancelled := ?_
      leaf := ?_
      atRoot := atRoot
      below := below
      frames := stacked.frames
      deep := ?_
      asks := ?_
      executes := ?_
      apart := ?_ }
  · intro id domain known entered
    rcases move_known moved known with known | rfl
    · exact stacked.roots id domain known entered
    · have entered : state.nested id = some domain := entered
      simpa [State.permits, entered] using permitted
  · intro id attached entered cancelled
    rcases move_cancelled moved attached cancelled with ⟨attached, cancelled⟩ | rfl
    · exact stacked.uncancelled id attached entered cancelled
    · simp only [State.permits, Option.isNone_iff_eq_none] at permitted
      simp [permitted] at entered
  · intro pc completes
    rcases move_completing moved completes with
      ⟨⟨before, executes⟩, current⟩ | ⟨entry, _, cancelled, attached, current⟩ | ⟨rfl, current⟩
    · rw [current]
      exact stacked.leaf before executes
    · rw [current]
      by_contra entered
      exact stacked.uncancelled entry.id attached (Option.isSome_iff_ne_none.mpr entered) cancelled
    · rw [current]
      simpa [State.permits] using permitted
  · rcases move_current moved with current | ⟨entry, schedules, idle, current⟩
    · simpa only [State.path, current] using stacked.deep
    · simp [State.path, stackless schedules idle]
  · intro above domain id slot entered holds suspendNow
    obtain ⟨frame, rest, stack, here, same, phase⟩ :=
      stacked.asks above domain id slot entered holds suspendNow
    have kept := stacked.phaseAfter_of_stack stack permitted moved
    exact ⟨frame, rest, stack, here, same, by rwa [kept]⟩
  · intro phase
    cases label with
    | schedule entry =>
        simp only [State.phaseAfter] at phase
        split at phase <;> simp at phase
    | suspend =>
        simp only [State.phaseAfter] at phase
        split at phase
        · simp at phase
        · exact stacked.executes phase
    | leave completed => simp [State.phaseAfter] at phase
    | _ => exact stacked.executes phase
  · intro thread
    rcases stacked.apart thread with outside | outside
    · exact .inl outside
    · rcases move_outside moved outside with stays | ⟨id, own, rfl⟩
      · exact .inr stays
      · exact .inl (by simpa [State.permits] using permitted)

/-! ## Steps in the nested domains -/

/-- The domains after a step have the same executions and the same parents. -/
structure Kept (nested after : Id → Option (ExecutionDomain Id)) : Prop where
  isSome : ∀ id, (after id).isSome = (nested id).isSome
  domain : ∀ id next, after id = some next → ∃ domain, nested id = some domain ∧
    next.parent = domain.parent ∧ next.context = domain.context ∧ next.WellFormed

namespace Kept

variable {nested after : Id → Option (ExecutionDomain Id)}

theorem refl (forest : Forest depth nested) : Kept nested nested where
  isSome _ := rfl
  domain id next entered := ⟨next, entered, rfl, rfl, forest.wellFormed id next entered⟩

theorem update {above : Id} {domain next : ExecutionDomain Id} (forest : Forest depth nested)
    (entered : nested above = some domain) (parent : next.parent = domain.parent)
    (contexts : next.context = domain.context) (wellFormed : next.WellFormed) :
    Kept nested (Function.update nested above (some next)) where
  isSome id := by
    by_cases same : id = above
    · simp [same, entered]
    · rw [Function.update_of_ne same]
  domain id other found := by
    by_cases same : id = above
    · subst same
      rw [Function.update_self] at found
      cases found
      exact ⟨domain, entered, parent, contexts, wellFormed⟩
    · rw [Function.update_of_ne same] at found
      exact (refl forest).domain id other found

theorem none_iff (kept : Kept nested after) (id : Id) : after id = none ↔ nested id = none := by
  rw [← Option.not_isSome_iff_eq_none, ← Option.not_isSome_iff_eq_none, kept.isSome]

theorem forest (kept : Kept nested after) (forest : Forest depth nested) : Forest depth after := by
  constructor
  · intro above next entered
    obtain ⟨_, _, _, _, wellFormed⟩ := kept.domain above next entered
    exact wellFormed
  · intro above next id entered holds
    obtain ⟨domain, before, _, contexts, _⟩ := kept.domain above next entered
    rw [ExecutionDomain.isSome_slot, contexts, ← ExecutionDomain.isSome_slot] at holds
    exact forest.deeper above domain id before holds
  · intro above next id inner entered holds within
    obtain ⟨domain, before, _, contexts, _⟩ := kept.domain above next entered
    obtain ⟨_, inside, parent, _, _⟩ := kept.domain id inner within
    rw [ExecutionDomain.isSome_slot, contexts, ← ExecutionDomain.isSome_slot] at holds
    exact parent.trans (forest.parent above domain id _ before holds inside)

end Kept

omit [DecidableEq Thread] in
/-- A step that leaves the worker in the root domain alone. -/
theorem Stacked.of_kept {nested : Id → Option (ExecutionDomain Id)} {stack : List (Frame Id)}
    {phase : Phase} {climbs : Thread → Climb Id} (stacked : Stacked depth state)
    (kept : Kept state.nested nested) (atRoot : phase = .root → stack = [])
    (below : phase ≠ .root → state.phase ≠ .root ∧
      (state.worker.place = .executing .running false ∨
        phase = state.phase ∧ stack = state.stack))
    (frames : ∀ frame ∈ stack, ∃ domain slot, nested frame.domain = some domain ∧
      domain.slot frame.id = some slot ∧ slot.active = true ∧
      domain.context frame.id = some frame.context)
    (deep : (stack.map (·.id) ++ [state.worker.current]).Pairwise
      fun inner outer => depth outer < depth inner)
    (asks : ∀ above domain id slot, nested above = some domain → domain.slot id = some slot →
      slot.suspendNow = true → ∃ frame rest, stack = frame :: rest ∧ frame.domain = above ∧
        frame.id = id ∧ (phase = .execute ∨ ∃ completed, phase = .exit completed))
    (executes : phase = .execute ∨ phase = .exit true →
      ∃ frame rest, stack = frame :: rest ∧ nested frame.id = none)
    (apart : ∀ thread, climbs thread = .outside ∨ state.worker.awakers thread = .outside) :
    Stacked depth { state with nested, stack, phase, climbs } where
  located := stacked.located
  asked := stacked.asked
  forest := kept.forest stacked.forest
  roots id next known entered := by
    obtain ⟨domain, before, parent, _, _⟩ := kept.domain id next entered
    exact parent.trans (stacked.roots id domain known before)
  uncancelled id attached entered := by
    have before : (state.nested id).isSome := kept.isSome id ▸ entered
    exact stacked.uncancelled id attached before
  leaf pc completes := (kept.none_iff _).mpr (stacked.leaf pc completes)
  atRoot := atRoot
  below away := by
    obtain ⟨before, place⟩ := below away
    obtain ⟨entered, pc, executes, inside⟩ := stacked.below before
    refine ⟨(kept.isSome _).trans entered, ?_⟩
    rcases place with runs | ⟨samePhase, sameStack⟩
    · exact ⟨.running, runs, .inl rfl⟩
    · exact ⟨pc, executes, by rwa [samePhase, sameStack]⟩
  frames := frames
  deep := deep
  asks := asks
  executes := executes
  apart := apart

omit [DecidableEq Thread] in
/-- Away from the root, and not at the end of the last context, the worker stands
at the execution of the root domain. -/
theorem Stacked.runs (stacked : Stacked depth state) (away : state.phase ≠ .root)
    (inside : state.stack ≠ [] ∨ state.phase ≠ .exit false) :
    state.worker.place = .executing .running false := by
  obtain ⟨_, pc, executes, rfl | ⟨phase, stack, _⟩⟩ := stacked.below away
  · exact executes
  · rcases inside with inside | inside
    · exact absurd stack inside
    · exact absurd phase inside

omit [DecidableEq Thread] [Fintype Thread] in
/-- The frames stay as a slot changes that stays active where a frame is for it. -/
theorem frames_of_changes {nested : Id → Option (ExecutionDomain Id)} {above id : Id}
    {domain next : ExecutionDomain Id} {change : ExecutionSched Id → ExecutionSched Id}
    {stack : List (Frame Id)} (entered : nested above = some domain)
    (changes : ExecutionDomain.Changes domain next id change)
    (active : ∀ frame ∈ stack, frame.id = id → ∀ slot, slot.active = true →
      (change slot).active = true)
    (frames : ∀ frame ∈ stack, ∃ domain slot, nested frame.domain = some domain ∧
      domain.slot frame.id = some slot ∧ slot.active = true ∧
      domain.context frame.id = some frame.context) :
    ∀ frame ∈ stack, ∃ domain slot,
      Function.update nested above (some next) frame.domain = some domain ∧
      domain.slot frame.id = some slot ∧ slot.active = true ∧
      domain.context frame.id = some frame.context := by
  intro frame member
  obtain ⟨outer, slot, within, holds, runs, context⟩ := frames frame member
  by_cases here : frame.domain = above
  · rw [here, entered] at within
    cases within
    have slots := changes.slots frame.id
    rw [here, Function.update_self]
    by_cases same : frame.id = id
    · rw [if_pos same, ← same, holds] at slots
      exact ⟨next, change slot, rfl, slots, active frame member same slot runs,
        by rw [changes.contexts, context]⟩
    · rw [if_neg same, holds] at slots
      exact ⟨next, slot, rfl, slots, runs, by rw [changes.contexts, context]⟩
  · rw [Function.update_of_ne here]
    exact ⟨outer, slot, within, holds, runs, context⟩

omit [DecidableEq Thread] [Fintype Thread] in
/-- The slots after one of them has changed. -/
theorem slot_of_changes {nested : Id → Option (ExecutionDomain Id)} {above id outer other : Id}
    {domain next found : ExecutionDomain Id} {slot : ExecutionSched Id}
    {change : ExecutionSched Id → ExecutionSched Id} (entered : nested above = some domain)
    (changes : ExecutionDomain.Changes domain next id change)
    (within : Function.update nested above (some next) outer = some found)
    (holds : found.slot other = some slot) :
    ∃ before old, nested outer = some before ∧ before.slot other = some old ∧
      found.parent = before.parent ∧
      (outer = above ∧ other = id ∧ before = domain ∧ found = next ∧ slot = change old ∨
        ¬ (outer = above ∧ other = id) ∧ slot = old ∧
          found.executionState other = before.executionState other) := by
  by_cases here : outer = above
  · subst here
    rw [Function.update_self] at within
    cases within
    have slots := changes.slots other
    rw [holds] at slots
    by_cases same : other = id
    · subst same
      rw [if_pos rfl] at slots
      obtain ⟨old, before, rfl⟩ := Option.map_eq_some_iff.mp slots.symm
      exact ⟨domain, old, entered, before, changes.parent, .inl ⟨rfl, rfl, rfl, rfl, rfl⟩⟩
    · rw [if_neg same] at slots
      exact ⟨domain, slot, entered, slots.symm, changes.parent,
        .inr ⟨fun both => same both.2, rfl, changes.others other same⟩⟩
  · rw [Function.update_of_ne here] at within
    exact ⟨found, slot, within, holds, rfl, .inr ⟨fun both => here both.1, rfl, rfl⟩⟩

omit [DecidableEq Thread] in
/-- Elsewhere than at the end of an execution, no slot is asked to be suspended. -/
theorem Stacked.unasked (stacked : Stacked depth state)
    (phase : state.phase ≠ .execute ∧ ∀ completed, state.phase ≠ .exit completed)
    {above id : Id} {domain : ExecutionDomain Id} {slot : ExecutionSched Id}
    (entered : state.nested above = some domain) (holds : domain.slot id = some slot) :
    slot.suspendNow = false := by
  by_contra asks
  obtain ⟨_, _, _, _, _, executes | ⟨completed, exits⟩⟩ :=
    stacked.asks above domain id slot entered holds (by simpa using asks)
  · exact phase.1 executes
  · exact phase.2 completed exits

/-! ## The step lemmas -/

omit [DecidableEq Thread] [Fintype Thread] in
theorem change_eq_some {id : Id} {call : ExecutionDomain Id → ExecutionDomain Id}
    {next : State Thread Id} (changed : state.change id call = some next) :
    ∃ domain, state.nested id = some domain ∧
      next = { state with nested := Function.update state.nested id (some (call domain)) } := by
  obtain ⟨domain, entered, rfl⟩ := Option.map_eq_some_iff.mp changed
  exact ⟨domain, entered, rfl⟩

omit [DecidableEq Thread] in
/-- `suspend_current` of the innermost execution. -/
theorem Stacked.suspendCurrent {frame : Frame Id} {rest : List (Frame Id)}
    {domain : ExecutionDomain Id} {phase : Phase} (stacked : Stacked depth state)
    (stack : state.stack = frame :: rest) (entered : state.nested frame.domain = some domain)
    (kind : state.phase = .suspend ∧ phase = .exit false ∨
      state.phase = .execute ∧ phase = .execute) :
    Stacked depth { state with
      nested := Function.update state.nested frame.domain
        (some (domain.suspendCurrent frame.id))
      phase } := by
  have changes := domain.suspendCurrent_changes
    (stacked.forest.wellFormed frame.domain domain entered) frame.id
  have kept := Kept.update stacked.forest entered changes.parent changes.contexts
    changes.wellFormed
  refine stacked.of_kept kept ?_ ?_ ?_ stacked.deep ?_ ?_ stacked.apart
  · rintro rfl
    simp at kind
  · intro _
    have away : state.phase ≠ .root := by
      rcases kind with ⟨phase, _⟩ | ⟨phase, _⟩ <;> simp [phase]
    exact ⟨away, .inl (stacked.runs away (.inl (by simp [stack])))⟩
  · refine frames_of_changes entered changes ?_ stacked.frames
    intro _ _ _ slot active
    rw [ExecutionSched.asked_active, active]
  · intro above found id slot within holds asks
    obtain ⟨before, old, inside, held, _, here | ⟨_, rfl, _⟩⟩ :=
      slot_of_changes entered changes within holds
    · obtain ⟨rfl, rfl, _⟩ := here
      refine ⟨frame, rest, stack, rfl, rfl, ?_⟩
      rcases kind with ⟨_, rfl⟩ | ⟨_, rfl⟩
      · exact .inr ⟨false, rfl⟩
      · exact .inl rfl
    · obtain ⟨other, others, same, outer, inner, asked⟩ :=
        stacked.asks above before id slot inside held asks
      refine ⟨other, others, same, outer, inner, ?_⟩
      rcases kind with ⟨suspends, _⟩ | ⟨_, rfl⟩
      · simp [suspends] at asked
      · exact .inl rfl
  · intro executes
    rcases kind with ⟨_, rfl⟩ | ⟨phase, rfl⟩
    · simp at executes
    · obtain ⟨other, others, same, leaf⟩ := stacked.executes (.inl phase)
      exact ⟨other, others, same, (kept.none_iff _).mpr leaf⟩

omit [DecidableEq Thread] in
/-- The end of the innermost context. -/
theorem Stacked.endContext {frame : Frame Id} {rest : List (Frame Id)}
    {domain : ExecutionDomain Id} {completed : Bool} (stacked : Stacked depth state)
    (stack : state.stack = frame :: rest) (entered : state.nested frame.domain = some domain)
    (phase : state.phase = .exit completed) :
    Stacked depth { state with
      nested := Function.update state.nested frame.domain
        (some (domain.endContext frame.context completed))
      stack := rest
      phase := .exit false } := by
  have known : domain.context frame.id = some frame.context := by
    obtain ⟨_, _, within, _, _, context⟩ := stacked.frames frame (by simp [stack])
    cases entered.symm.trans within
    exact context
  have changes := ExecutionDomain.endContext_changes
    (stacked.forest.wellFormed frame.domain domain entered) known completed
  have kept := Kept.update stacked.forest entered changes.parent changes.contexts
    changes.wellFormed
  have deep := stacked.deep
  simp only [State.path, stack, List.map_cons, List.cons_append, List.pairwise_cons] at deep
  have away : state.phase ≠ .root := by simp [phase]
  refine stacked.of_kept kept nofun ?_ ?_ deep.2 ?_ (by simp) stacked.apart
  · intro _
    exact ⟨away, .inl (stacked.runs away (.inl (by simp [stack])))⟩
  · refine frames_of_changes entered changes ?_ ?_
    · intro other member same
      have below := deep.1 other.id (by simp [List.mem_map_of_mem member])
      rw [same] at below
      omega
    · intro other member
      exact stacked.frames other (by simp [stack, member])
  · intro above found id slot within holds asks
    obtain ⟨before, old, inside, held, _, here | ⟨elsewhere, rfl, _⟩⟩ :=
      slot_of_changes entered changes within holds
    · obtain ⟨_, _, _, _, rfl⟩ := here
      rw [ExecutionSched.ended_suspendNow] at asks
      contradiction
    · obtain ⟨other, others, same, outer, inner, _⟩ :=
        stacked.asks above before id slot inside held asks
      cases stack.symm.trans same
      exact absurd ⟨outer.symm, inner.symm⟩ elsewhere

omit [DecidableEq Thread] in
/-- A step that leaves the slots and the stack alone. -/
theorem Stacked.of_slots {nested : Id → Option (ExecutionDomain Id)} {phase : Phase}
    {climbs : Thread → Climb Id} (stacked : Stacked depth state)
    (kept : Kept state.nested nested)
    (slots : ∀ above next, nested above = some next →
      ∃ domain, state.nested above = some domain ∧ next.slot = domain.slot)
    (phases : phase = state.phase ∨ state.phase ≠ .root ∧ phase ≠ .root ∧
      state.worker.place = .executing .running false ∧
      (state.phase = .execute ∧ (∃ completed, phase = .exit completed) ∨
        state.phase ≠ .execute ∧ (∀ completed, state.phase ≠ .exit completed) ∧
          (∀ completed, phase ≠ .exit completed) ∧
          (phase = .execute → ∃ frame rest, state.stack = frame :: rest ∧
            state.nested frame.id = none)))
    (apart : ∀ thread, climbs thread = .outside ∨ state.worker.awakers thread = .outside) :
    Stacked depth { state with nested, phase, climbs } := by
  refine stacked.of_kept kept ?_ ?_ ?_ stacked.deep ?_ ?_ apart
  · rintro rfl
    rcases phases with same | ⟨_, away, _⟩
    · exact stacked.atRoot same.symm
    · exact absurd rfl away
  · intro away
    rcases phases with same | ⟨before, _, runs, _⟩
    · exact ⟨same ▸ away, .inr ⟨same, rfl⟩⟩
    · exact ⟨before, .inl runs⟩
  · intro frame member
    obtain ⟨domain, slot, within, holds, active, context⟩ := stacked.frames frame member
    have isSome := kept.isSome frame.domain
    rw [within] at isSome
    obtain ⟨next, found⟩ := Option.isSome_iff_exists.mp isSome
    obtain ⟨old, before, sameSlots⟩ := slots _ _ found
    obtain ⟨old', before', _, contexts, _⟩ := kept.domain _ _ found
    cases within.symm.trans before
    cases within.symm.trans before'
    exact ⟨next, slot, found, by rw [sameSlots, holds], active, by rw [contexts, context]⟩
  · intro above next id slot within holds asks
    obtain ⟨domain, before, sameSlots⟩ := slots _ _ within
    rw [sameSlots] at holds
    obtain ⟨frame, rest, stack, outer, inner, asked⟩ :=
      stacked.asks above domain id slot before holds asks
    refine ⟨frame, rest, stack, outer, inner, ?_⟩
    rcases phases with rfl | ⟨_, _, _, ⟨_, exits⟩ | ⟨idle, calm, _⟩⟩
    · exact asked
    · exact .inr exits
    · rcases asked with executes | ⟨completed, exits⟩
      · exact absurd executes idle
      · exact absurd exits (calm completed)
  · intro executes
    have leaf : ∃ frame rest, state.stack = frame :: rest ∧ state.nested frame.id = none := by
      rcases phases with rfl | ⟨_, _, _, ⟨before, _⟩ | ⟨_, _, calm, leaf⟩⟩
      · exact stacked.executes executes
      · exact stacked.executes (.inl before)
      · exact leaf (executes.resolve_right (calm true))
    obtain ⟨frame, rest, stack, leaf⟩ := leaf
    exact ⟨frame, rest, stack, (kept.none_iff _).mpr leaf⟩

omit [DecidableEq Thread] [DecidableEq Id] [Fintype Thread] in
theorem depth_le_top (deep : state.path.Pairwise fun inner outer => depth outer < depth inner)
    {id : Id} (member : id ∈ state.path) : depth id ≤ depth state.top := by
  simp only [State.path, State.top] at deep member ⊢
  cases stack : state.stack with
  | nil =>
      simp only [stack, List.map_nil, List.nil_append, List.mem_singleton] at member
      rw [member]
  | cons frame rest =>
      simp only [stack, List.map_cons, List.cons_append, List.pairwise_cons,
        List.mem_cons] at deep member ⊢
      rcases member with rfl | member
      · exact le_rfl
      · exact (deep.1 id member).le

omit [DecidableEq Thread] in
/-- `schedule` of the domain of the innermost execution. -/
theorem Stacked.schedule {id : Id} {domain next : ExecutionDomain Id} {context : Fin domain.size}
    (stacked : Stacked depth state) (phase : state.phase = .schedule)
    (entered : state.nested state.top = some domain)
    (yields : domain.schedule = some (id, context, next)) :
    Stacked depth { state with
      nested := Function.update state.nested state.top (some next)
      stack := { domain := state.top, id, context } :: state.stack
      phase := .record } := by
  have away : state.phase ≠ .root := by simp [phase]
  obtain ⟨known, ⟨slot, holds, active⟩, parent, wellFormed, contexts, slots, _, _⟩ :=
    ExecutionDomain.schedule_spec (stacked.forest.wellFormed _ _ entered) yields
  have found (outer : Id) {after : ExecutionDomain Id}
      (within : Function.update state.nested state.top (some next) outer = some after) :
      ∃ before, state.nested outer = some before ∧ after.slot = before.slot := by
    by_cases same : outer = state.top
    · subst same
      rw [Function.update_self] at within
      cases within
      exact ⟨domain, entered, slots⟩
    · rw [Function.update_of_ne same] at within
      exact ⟨after, within, rfl⟩
  refine stacked.of_kept (Kept.update stacked.forest entered parent contexts wellFormed) nofun
    (fun _ => ⟨away, .inl (stacked.runs away (.inr (by simp [phase])))⟩) ?_ ?_ ?_ (by simp)
    stacked.apart
  · intro frame member
    rcases List.mem_cons.mp member with rfl | member
    · exact ⟨next, slot, Function.update_self _ _ _, by rw [slots, holds], active,
        by rw [contexts, known]⟩
    · obtain ⟨before, old, within, held, runs, place⟩ := stacked.frames frame member
      by_cases same : frame.domain = state.top
      · rw [same] at within ⊢
        cases entered.symm.trans within
        exact ⟨next, old, Function.update_self _ _ _, by rw [slots, held], runs,
          by rw [contexts, place]⟩
      · rw [Function.update_of_ne same]
        exact ⟨before, old, within, held, runs, place⟩
  · have deeper := stacked.forest.deeper _ _ id entered (by rw [holds]; rfl)
    refine List.pairwise_cons.mpr ⟨fun outer member => ?_, stacked.deep⟩
    have below := depth_le_top stacked.deep member
    show depth outer < depth id
    omega
  · intro above after inner held within asked asks
    obtain ⟨before, inside, same⟩ := found above within
    rw [same] at asked
    have calm := stacked.unasked ⟨by simp [phase], by simp [phase]⟩ inside asked
    rw [calm] at asks
    contradiction

omit [DecidableEq Thread] in
/-- The state of the scheduled execution is recorded. -/
theorem Stacked.record {frame : Frame Id} {domain : ExecutionDomain Id}
    (stacked : Stacked depth state) (phase : state.phase = .record)
    (entered : state.nested frame.domain = some domain) :
    Stacked depth { state with
      nested := Function.update state.nested frame.domain
        (some (domain.scheduleExecution frame.id))
      phase := .test } := by
  have away : state.phase ≠ .root := by simp [phase]
  have runs := stacked.runs away (.inr (by simp [phase]))
  have wellFormed : (domain.scheduleExecution frame.id).WellFormed :=
    stacked.forest.wellFormed frame.domain domain entered
  refine stacked.of_slots (Kept.update stacked.forest entered rfl rfl wellFormed) ?_
    (.inr ⟨away, by simp, runs, .inr ⟨by simp [phase], by simp [phase], by simp, by simp⟩⟩)
    stacked.apart
  intro above after within
  by_cases here : above = frame.domain
  · subst here
    rw [Function.update_self] at within
    cases within
    exact ⟨domain, entered, rfl⟩
  · rw [Function.update_of_ne here] at within
    exact ⟨after, within, rfl⟩

omit [DecidableEq Thread] in
theorem Stacked.descend {next : State Thread Id} (stacked : Stacked depth state)
    (stepped : state.descend = some next) : Stacked depth next := by
  have same (above : Id) (domain : ExecutionDomain Id)
      (entered : state.nested above = some domain) :
      ∃ before, state.nested above = some before ∧ domain.slot = before.slot :=
    ⟨domain, entered, rfl⟩
  have kept := Kept.refl stacked.forest
  unfold State.descend at stepped
  split at stepped
  · rename_i phase
    have away : state.phase ≠ .root := by simp [phase]
    have runs := stacked.runs away (.inr (by simp [phase]))
    split at stepped
    · rename_i leaf
      cases stepped
      refine stacked.of_slots kept same (.inr ⟨away, by simp, runs, .inr ⟨by simp [phase],
        by simp [phase], by simp, fun _ => ?_⟩⟩) stacked.apart
      cases stack : state.stack with
      | nil =>
          have entered := (stacked.below away).1
          rw [State.top, stack] at leaf
          simp [leaf] at entered
      | cons frame rest =>
          rw [State.top, stack] at leaf
          exact ⟨frame, rest, rfl, leaf⟩
    · split at stepped <;> cases stepped
      · exact stacked.of_slots kept same (.inr ⟨away, by simp, runs, .inr ⟨by simp [phase],
          by simp [phase], by simp, by simp⟩⟩) stacked.apart
      · exact stacked.of_slots kept same (.inr ⟨away, by simp, runs, .inr ⟨by simp [phase],
          by simp [phase], by simp, by simp⟩⟩) stacked.apart
  · rename_i phase
    obtain ⟨domain, entered, stepped⟩ := Option.bind_eq_some_iff.mp stepped
    obtain ⟨⟨id, context, scheduled⟩, yields, rfl⟩ := Option.map_eq_some_iff.mp stepped
    exact stacked.schedule phase entered yields
  · rename_i frame rest phase stack
    obtain ⟨_, changed, rfl⟩ := Option.map_eq_some_iff.mp stepped
    obtain ⟨domain, entered, rfl⟩ := change_eq_some changed
    exact stacked.record phase entered
  · rename_i frame rest phase stack
    obtain ⟨_, changed, rfl⟩ := Option.map_eq_some_iff.mp stepped
    obtain ⟨domain, entered, rfl⟩ := change_eq_some changed
    exact stacked.suspendCurrent stack entered (.inl ⟨phase, rfl⟩)
  · rename_i completed frame rest phase stack
    obtain ⟨_, changed, rfl⟩ := Option.map_eq_some_iff.mp stepped
    obtain ⟨domain, entered, rfl⟩ := change_eq_some changed
    exact stacked.endContext stack entered phase
  · contradiction

/-- `awake_execution` of a nested domain. -/
theorem Stacked.awakeExecution {above id : Id} {domain : ExecutionDomain Id} {thread : Thread}
    {place : Climb Id} (stacked : Stacked depth state)
    (entered : state.nested above = some domain)
    (outside : state.worker.awakers thread = .outside) :
    Stacked depth { state with
      nested := Function.update state.nested above (some (domain.awakeExecution id))
      climbs := Function.update state.climbs thread place } := by
  have changes := domain.awakeExecution_changes
    (stacked.forest.wellFormed above domain entered) id
  have kept := Kept.update stacked.forest entered changes.parent changes.contexts
    changes.wellFormed
  refine stacked.of_kept kept stacked.atRoot (fun away => ⟨away, .inr ⟨rfl, rfl⟩⟩) ?_
    stacked.deep ?_ ?_ ?_
  · refine frames_of_changes entered changes ?_ stacked.frames
    intro _ _ _ slot _
    exact ExecutionSched.awoken_active
  · intro outer found inner slot within holds asks
    obtain ⟨before, old, inside, held, _, here | ⟨_, rfl, _⟩⟩ :=
      slot_of_changes entered changes within holds
    · obtain ⟨_, _, _, _, rfl⟩ := here
      exact stacked.asks outer before inner old inside held
        (ExecutionSched.awoken_suspendNow asks)
    · exact stacked.asks outer before inner slot inside held asks
  · intro executes
    obtain ⟨frame, rest, stack, leaf⟩ := stacked.executes executes
    exact ⟨frame, rest, stack, (kept.none_iff _).mpr leaf⟩
  · intro other
    by_cases same : other = thread
    · subst same
      exact .inr outside
    · rw [Function.update_of_ne same]
      exact stacked.apart other

/-- A step of a thread that is not in the root scheduler. -/
theorem Stacked.moves {thread : Thread} (stacked : Stacked depth state)
    (outside : state.worker.awakers thread = .outside) (place : Climb Id) :
    Stacked depth { state with climbs := Function.update state.climbs thread place } := by
  refine stacked.of_slots (Kept.refl stacked.forest) (fun _ domain entered =>
    ⟨domain, entered, rfl⟩) (.inl rfl) fun other => ?_
  by_cases same : other = thread
  · subst same
    exact .inr outside
  · rw [Function.update_of_ne same]
    exact stacked.apart other

/-- A thread goes on into the root scheduler. -/
theorem Stacked.enters {thread : Thread} (stacked : Stacked depth state)
    (outside : state.worker.awakers thread = .outside) (id : Id) :
    Stacked depth { state with
      worker := { state.worker with
        awakers := Function.update state.worker.awakers thread (.contains id) }
      climbs := Function.update state.climbs thread .outside } := by
  have moved := stacked.moves outside .outside
  have permitted : State.permits
      { state with climbs := Function.update state.climbs thread .outside }
      (.awake thread id false) = true := by
    simp [State.permits]
  have called : state.worker.move (.awake thread id false) = some { state.worker with
      awakers := Function.update state.worker.awakers thread (.contains id) } := by
    simp [Worker.State.move, outside]
  exact moved.root permitted called

theorem Stacked.climb {thread : Thread} {next : State Thread Id} (stacked : Stacked depth state)
    (stepped : state.climb thread = some next) : Stacked depth next := by
  cases place : state.climbs thread with
  | outside => simp [State.climb, place] at stepped
  | awake above id =>
      have outside := (stacked.apart thread).resolve_left (by simp [place])
      simp only [State.climb, place] at stepped
      obtain ⟨_, changed, rfl⟩ := Option.map_eq_some_iff.mp stepped
      obtain ⟨domain, entered, rfl⟩ := change_eq_some changed
      exact stacked.awakeExecution entered outside
  | parent id =>
      have outside := (stacked.apart thread).resolve_left (by simp [place])
      simp only [State.climb, place] at stepped
      obtain ⟨domain, entered, stepped⟩ := Option.bind_eq_some_iff.mp stepped
      obtain ⟨read, _, rfl⟩ := Option.map_eq_some_iff.mp stepped
      split
      · split
        · exact stacked.enters outside id
        · exact stacked.moves outside _
      · exact stacked.moves outside _

theorem Stacked.step {label : Label Thread Id} {next : State Thread Id}
    (stacked : Stacked depth state) (moved : state.move label = some next) :
    Stacked depth next := by
  cases label with
  | root label =>
      obtain ⟨permitted, made⟩ := Option.ite_none_right_eq_some.mp moved
      obtain ⟨worker, stepped, rfl⟩ := Option.map_eq_some_iff.mp made
      exact stacked.root permitted stepped
  | descend => exact stacked.descend moved
  | suspendLeaf =>
      simp only [State.move] at moved
      split at moved
      · rename_i frame rest phase stack
        obtain ⟨domain, entered, rfl⟩ := change_eq_some moved
        have suspended := stacked.suspendCurrent stack entered (.inr ⟨phase, rfl⟩)
        rwa [← phase] at suspended
      · contradiction
  | leave completed =>
      obtain ⟨phase, ⟨⟩⟩ := Option.ite_none_right_eq_some.mp moved
      have away : state.phase ≠ .root := by simp [phase]
      exact stacked.of_slots (Kept.refl stacked.forest)
        (fun _ domain entered => ⟨domain, entered, rfl⟩)
        (.inr ⟨away, by simp, stacked.runs away (.inr (by simp [phase])),
          .inl ⟨phase, completed, rfl⟩⟩) stacked.apart
  | awake thread domain id =>
      obtain ⟨⟨_, outside⟩, ⟨⟩⟩ := Option.ite_none_right_eq_some.mp moved
      exact stacked.moves outside _
  | climb thread => exact stacked.climb moved

omit [DecidableEq Thread] in
theorem stacked_of_fresh (fresh : Fresh depth state) : Stacked depth state := by
  obtain ⟨worker, forest, unused, stack, phase, climbs⟩ := fresh
  have located := located_of_fresh worker
  obtain ⟨_, _, _, contexts, calm, attached, place, outside, _⟩ := worker
  exact
    { located := located
      asked := Asked.of_place calm (by simp [place])
      forest := forest
      roots := by simp [contexts, place]
      uncancelled := by simp [attached]
      leaf := by simp [place]
      atRoot := fun _ => stack
      below := fun away => absurd phase away
      frames := by simp [stack]
      deep := by simp [State.path, stack]
      asks := fun above domain id slot entered holds asks => by
        simp [(unused above domain id slot entered holds).2] at asks
      executes := by simp [phase]
      apart := fun thread => .inl (climbs thread) }

end Asco.Core.Worker.Nested
