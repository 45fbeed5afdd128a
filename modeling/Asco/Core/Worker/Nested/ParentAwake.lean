import Asco.Core.Worker.Nested.Marks
import Asco.Core.Worker.Nested.Stack

namespace Asco.Core.Worker.Nested

open Foundation Asco.Core.Task Asco.Core.Task.DynprioScheduler
open Asco.Core.Task.CycleScheduler (ExecutionSched)

/-! # A suspended parent has no runnable child

The parent execution is suspended because its domain had no active execution
when `run_once` looked.  A wake-up in the domain since then reaches the parent
only if it reads its state after this has been recorded as suspended.
-/

variable {Thread Id : Type*} [DecidableEq Id]

/-- `run_once` has found the domain of the execution without an active execution
and has not recorded the execution as suspended. -/
def State.Window (state : State Thread Id) (id : Id) : Prop :=
  state.phase = .suspend ∧ state.top = id ∨
    At state.worker id records

instance (state : State Thread Id) : DecidablePred state.Window :=
  fun _ => inferInstanceAs (Decidable (_ ∨ _))

/-- The domain nested in the execution has an active execution. -/
def State.occupied (state : State Thread Id) (id : Id) : Bool :=
  (state.nested id).any fun domain => domain.hasActiveExecution

/-- An early wake-up of the execution is recorded. -/
def State.preawaken (state : State Thread Id) (id : Id) : Bool :=
  match (state.nested id).bind (·.parent) with
  | none => id ∈ state.worker.scheduler.preawake
  | some above => ((state.nested above).bind (·.slot id)).any (·.preawaken)

/-- While its domain has an active execution, the state of an execution is not
read between the test of the domain and the record of the suspension unless an
early wake-up is recorded. -/
def State.Reads (state : State Thread Id) : Climb Id → Prop
  | .parent id => state.occupied id = true → state.Window id → state.preawaken id = true
  | _ => True

/-- An early wake-up of an execution whose domain has an active execution is not
recorded once `end` has decided to suspend it, and an execution with a domain is
not recorded as active while it is suspended or about to be. -/
def State.Records (state : State Thread Id) : AwakePc Id → Prop
  | .preawake id => state.occupied id = true → ¬ Decided state.worker id
  | .activate id => (state.nested id).isSome → ¬ Marked state.worker id
  | _ => True

def ReadsInTime (state : State Thread Id) : Label Thread Id → Prop
  | .climb thread => state.Reads (state.climbs thread)
  | .root (.awaker thread) => state.Records (state.worker.awakers thread)
  | _ => True

instance (state : State Thread Id) : DecidablePred state.Reads
  | .parent id => inferInstanceAs
      (Decidable (state.occupied id = true → state.Window id → state.preawaken id = true))
  | .outside | .awake _ _ => isTrue trivial

instance (state : State Thread Id) : DecidablePred state.Records
  | .preawake id => inferInstanceAs
      (Decidable (state.occupied id = true → ¬ Decided state.worker id))
  | .activate id => inferInstanceAs
      (Decidable ((state.nested id).isSome → ¬ Marked state.worker id))
  | .outside | .contains _ | .remove _ | .push _ => isTrue trivial

instance : DecidableRel (ReadsInTime : State Thread Id → Label Thread Id → Prop)
  | state, .climb thread => inferInstanceAs (Decidable (state.Reads (state.climbs thread)))
  | state, .root (.awaker thread) =>
      inferInstanceAs (Decidable (state.Records (state.worker.awakers thread)))
  | _, .root (.worker _) | _, .root (.attach _) | _, .root (.schedule _) | _, .root .register
  | _, .root .suspend | _, .root (.leave _) | _, .root (.requestCancel _)
  | _, .root (.awake _ _ _) | _, .descend | _, .suspendLeaf | _, .leave _ | _, .awake _ _ _ =>
      isTrue trivial

/-- `run_once` and all calls of `awake_execution` have returned. -/
def State.Finished (state : State Thread Id) : Prop :=
  state.phase = .root ∧ state.worker.place = .idle ∧
    ∀ thread, state.climbs thread = .outside ∧ state.worker.awakers thread = .outside

/-- The parent execution of the domain nested in `id` is suspended in the scheduler
of its own domain. -/
def State.ParentSuspended (state : State Thread Id) (id : Id) (domain : ExecutionDomain Id) :
    Prop :=
  match domain.parent with
  | none => id ∈ state.worker.scheduler.suspended
  | some above => ∃ outer slot, state.nested above = some outer ∧ outer.slot id = some slot ∧
      slot.active = false

def State.ParentsAwake (state : State Thread Id) : Prop :=
  state.Finished → ∀ id domain, state.nested id = some domain →
    domain.hasActiveExecution = true → ¬ state.ParentSuspended id domain

/-! ## The invariant -/

/-- A wake-up is on its way to an execution of the root domain, or has come early
enough. -/
def State.Coming (state : State Thread Id) (id : Id) : Prop :=
  (∃ thread, state.climbs thread = .parent id) ∨
    (∃ thread, (state.worker.awakers thread).Pending id) ∨
    id ∈ state.worker.scheduler.preawake ∧ ¬ Decided state.worker id

/-- A domain with an active execution, whose parent execution in the root domain
is suspended or about to be, has a wake-up on its way to the parent. -/
structure RootParent (state : State Thread Id) (id : Id) (domain : ExecutionDomain Id) :
    Prop where
  recorded : Marked state.worker id → state.worker.scheduler.domain id = .suspended
  coming : domain.hasActiveExecution = true → state.Window id ∨ Marked state.worker id →
    state.Coming id

/-- The same with the parent execution in a nested domain. -/
structure InnerParent (state : State Thread Id) (id : Id) (domain : ExecutionDomain Id)
    (above : Id) (outer : ExecutionDomain Id) (slot : ExecutionSched Id) : Prop where
  recorded : slot.active = false ∨ slot.suspendNow = true → outer.executionState id = .suspended
  coming : domain.hasActiveExecution = true →
    slot.active = false ∨ slot.preawaken = false ∧ (slot.suspendNow = true ∨ state.Window id) →
    ∃ thread, state.climbs thread = .parent id ∨ state.climbs thread = .awake above id

structure Attended (state : State Thread Id) : Prop where
  roots : ∀ id domain, state.nested id = some domain → domain.parent = none →
    RootParent state id domain
  inner : ∀ id domain above outer slot, state.nested id = some domain →
    domain.parent = some above → state.nested above = some outer →
    outer.slot id = some slot → InnerParent state id domain above outer slot

variable {state next : State Thread Id} {worker after : Worker.State Thread Id} {depth : Id → ℕ}
  {id : Id} {domain : ExecutionDomain Id}

/-! ## Parents in the root domain -/

omit [DecidableEq Id] in
/-- A step that leaves the worker where it is. -/
theorem RootParent.of_place {inner : ExecutionDomain Id} (holds : RootParent state id domain)
    (current : next.worker.current = state.worker.current)
    (flag : next.worker.scheduler.currentSuspend = state.worker.scheduler.currentSuspend)
    (place : next.worker.place = state.worker.place)
    (suspended : id ∈ next.worker.scheduler.suspended → id ∈ state.worker.scheduler.suspended)
    (preawake : id ∈ state.worker.scheduler.preawake → id ∈ next.worker.scheduler.preawake)
    (recorded : Marked state.worker id →
      next.worker.scheduler.domain id = state.worker.scheduler.domain id)
    (window : inner.hasActiveExecution = true → next.Window id → state.Window id)
    (runs : inner.hasActiveExecution = true → domain.hasActiveExecution = true ∨ next.Coming id)
    (coming : inner.hasActiveExecution = true → state.Window id ∨ Marked state.worker id →
      (∃ thread, state.climbs thread = .parent id) ∨
        (∃ thread, (state.worker.awakers thread).Pending id) → next.Coming id) :
    RootParent next id inner := by
  have stays (stands : WorkerPc → Bool) : At next.worker id stands ↔ At state.worker id stands := by
    simp only [At, current, place]
  have marks : marks next.worker.scheduler = marks state.worker.scheduler := by
    funext pc
    cases pc <;> simp only [Nested.marks, flag]
  have marked (marked : Marked next.worker id) : Marked state.worker id := by
    rw [Marked, marks, stays] at marked
    exact marked.imp_left suspended
  have decided (decided : Decided next.worker id) : Decided state.worker id := by
    rw [Decided, stays] at decided
    exact decided.imp_left suspended
  constructor
  · intro isMarked
    rw [recorded (marked isMarked)]
    exact holds.recorded (marked isMarked)
  · intro active opened
    have before := opened.imp (window active) marked
    rcases runs active with ran | comes
    · rcases holds.coming ran before with climbs | pending | ⟨early, undecided⟩
      · exact coming active before (.inl climbs)
      · exact coming active before (.inr pending)
      · exact .inr (.inr ⟨preawake early, fun late => undecided (decided late)⟩)
    · exact comes

omit [DecidableEq Id] in
/-- A step of the worker in the root domain. -/
theorem RootParent.of_moves {phase : Phase} (holds : RootParent state id domain)
    (moves : Moves state.worker after id) (awakers : after.awakers = state.worker.awakers)
    (phases : phase ≠ .suspend) :
    RootParent { state with worker := after, phase } id domain := by
  have window : State.Window { state with worker := after, phase } id → At after id records :=
    fun opened => opened.resolve_left fun suspends => phases suspends.1
  constructor
  · exact moves.recorded holds.recorded
  · intro active opened
    have before : state.Window id ∨ Marked state.worker id := by
      rcases opened with opened | marked
      · exact .inl (.inr (moves.window (window opened)))
      · rcases moves.marked marked with marked | records
        · exact .inr marked
        · exact .inl (.inr records)
    rcases holds.coming active before with climbs | waits | early
    · exact .inl climbs
    · exact .inr (.inl (by simpa only [awakers] using waits))
    · exact .inr (.inr (moves.early (opened.imp_left window) early))

variable [DecidableEq Thread]

omit [DecidableEq Id] in
/-- A step of a thread inside the root scheduler. -/
theorem RootParent.of_awaker {scheduler : Scheduler Id} {finish : AwakePc Id} {thread : Thread}
    (holds : RootParent state id domain)
    (current : scheduler.current = state.worker.scheduler.current)
    (flag : scheduler.currentSuspend = state.worker.scheduler.currentSuspend)
    (suspended : id ∈ scheduler.suspended → id ∈ state.worker.scheduler.suspended)
    (preawake : id ∈ state.worker.scheduler.preawake → id ∈ scheduler.preawake)
    (recorded : Marked state.worker id → scheduler.domain id = state.worker.scheduler.domain id)
    (pending : domain.hasActiveExecution = true → state.Window id ∨ Marked state.worker id →
      (state.worker.awakers thread).Pending id → finish.Pending id ∨
        id ∈ scheduler.preawake ∧ id ∉ scheduler.suspended ∧ ¬ At state.worker id decides) :
    RootParent { state with worker := { state.worker with
      scheduler, awakers := Function.update state.worker.awakers thread finish } } id domain := by
  have sameCurrent : scheduler.current.id = state.worker.scheduler.current.id := by rw [current]
  refine holds.of_place sameCurrent flag rfl suspended preawake recorded ?_
    (fun active => .inl active) ?_
  · intro _ opened
    simpa only [State.Window, State.top, At, Worker.State.current, sameCurrent] using opened
  · intro active opened found
    rcases found with climbs | ⟨other, waits⟩
    · exact .inl climbs
    · by_cases same : other = thread
      · subst same
        rcases pending active opened waits with waits | ⟨early, rests, decided⟩
        · exact .inr (.inl ⟨other, by simpa only [Function.update_self] using waits⟩)
        · refine .inr (.inr ⟨early, ?_⟩)
          simpa only [Decided, At, Worker.State.current, sameCurrent, not_or] using
            ⟨rests, decided⟩
      · exact .inr (.inl ⟨other, by simpa only [Function.update_of_ne same] using waits⟩)

/-- The places before `suspend_current` has recorded the state. -/
def unrecorded : WorkerPc → Bool
  | .running | .suspendContains | .suspendPreawake | .suspendDomain => true
  | _ => false

omit [DecidableEq Thread] in
/-- An execution of the root domain that the worker is inside `suspend_current` or
`end` for is in no other place. -/
theorem held_alone [Fintype Thread] {place : WorkerPc → Bool} (located : Located worker)
    (here : At worker id place) (holds : ∀ pc, place pc = true → holding pc = true) :
    id ∉ worker.scheduler.suspended ∧ id ∈ worker.scheduler.contexts := by
  obtain ⟨rfl, stands⟩ := here
  split at stands
  · rename_i pc completing executes
    obtain ⟨rests, _, _, known⟩ := located.alone executes (holds pc stands)
    exact ⟨rests, known⟩
  · exact stands.elim

variable [Fintype Thread]

omit [DecidableEq Thread] in
/-- The execution at which `run_once` stops belongs to the root domain if it has
entered only one nested domain. -/
theorem Stacked.window_cases (stacked : Stacked depth state)
    (entered : state.nested id = some domain) (opened : state.Window id) :
    (∃ frame rest, state.phase = .suspend ∧ state.stack = frame :: rest ∧ frame.id = id ∧
        domain.parent = some frame.domain) ∨
      At state.worker id unrecorded := by
  rcases opened with ⟨suspends, top⟩ | here
  · have runs := stacked.runs (by simp [suspends]) (.inr (by simp [suspends]))
    cases stack : state.stack with
    | nil =>
        simp only [State.top, stack] at top
        exact .inr ⟨top, by simp [runs, unrecorded]⟩
    | cons frame rest =>
        simp only [State.top, stack] at top
        obtain ⟨outer, slot, within, holds, _⟩ := stacked.frames frame (by simp [stack])
        have parent := stacked.forest.parent frame.domain outer frame.id domain within
          (by simp [holds]) (top ▸ entered)
        exact .inl ⟨frame, rest, suspends, rfl, top, parent⟩
  · obtain ⟨current, stands⟩ := here
    refine .inr ⟨current, ?_⟩
    split at stands
    · rename_i pc _ _
      cases pc <;> first | rfl | contradiction
    · exact stands

omit [DecidableEq Id] in
theorem marks_holding {scheduler : Scheduler Id} :
    ∀ pc, marks scheduler pc = true → holding pc = true := by
  intro pc marked
  cases pc <;> first | rfl | contradiction

theorem unrecorded_holding :
    ∀ pc, unrecorded pc = true → holding pc = true ∧ decides pc = false := by
  intro pc stands
  cases pc <;> first | exact ⟨rfl, rfl⟩ | contradiction

omit [DecidableEq Thread] in
/-- An execution of a nested domain that `run_once` is about to suspend is the
innermost one. -/
theorem Stacked.inner_window {above : Id} (stacked : Stacked depth state)
    (entered : state.nested id = some domain) (parent : domain.parent = some above)
    (opened : state.Window id) : state.phase = .suspend ∧ ∃ frame rest,
      state.stack = frame :: rest ∧ frame.id = id ∧ frame.domain = above := by
  rcases stacked.window_cases entered opened with
    ⟨frame, rest, phase, stack, same, within⟩ | here
  · exact ⟨phase, frame, rest, stack, same, Option.some.inj (within.symm.trans parent)⟩
  · have known := (held_alone stacked.located here fun pc stands =>
      (unrecorded_holding pc stands).1).2
    have root := stacked.roots id domain (.inl known) entered
    rw [parent] at root
    contradiction

section
variable (stacked : Stacked depth state) (entered : state.nested id = some domain)
  (parent : domain.parent = none)
include stacked entered parent

omit [DecidableEq Thread] in
/-- An execution of the root domain that `run_once` is about to suspend is on the
worker, and can still be woken early. -/
theorem Stacked.root_window (opened : state.Window id) :
    (id ∉ state.worker.scheduler.suspended ∧ id ∈ state.worker.scheduler.contexts) ∧
      ¬ At state.worker id decides := by
  rcases stacked.window_cases entered opened with ⟨_, _, _, _, _, above⟩ | here
  · rw [parent] at above
    contradiction
  · refine ⟨held_alone stacked.located here fun pc stands => (unrecorded_holding pc stands).1, ?_⟩
    intro late
    obtain ⟨_, stands⟩ := here
    obtain ⟨_, late⟩ := late
    split at stands
    · rename_i pc completing executes
      simp [executes, (unrecorded_holding pc stands).2] at late
    · exact stands

omit [DecidableEq Thread] in
theorem Stacked.root_known (opened : state.Window id ∨ Marked state.worker id) :
    id ∈ state.worker.scheduler.contexts := by
  rcases opened with opened | rests | here
  · exact (stacked.root_window entered parent opened).1.2
  · refine stacked.located.known id ?_
    simp [Worker.State.places, resting, rests]
  · exact (held_alone stacked.located here marks_holding).2

omit [DecidableEq Thread] in
theorem Stacked.root_rests (rests : id ∈ state.worker.scheduler.suspended) :
    ¬ state.Window id ∧ ¬ At state.worker id (marks state.worker.scheduler) :=
  ⟨fun opened => (stacked.root_window entered parent opened).1.1 rests,
    fun here => (held_alone stacked.located here marks_holding).1 rests⟩

/-- A step of `awake_execution` in the root scheduler. -/
theorem RootParent.awaker {thread : Thread} (holds : RootParent state id domain)
    (allowed : state.Records (state.worker.awakers thread))
    (moved : state.worker.move (.awaker thread) = some after) :
    RootParent { state with worker := after } id domain := by
  obtain ⟨_, moved⟩ := Option.ite_none_right_eq_some.mp moved
  obtain ⟨⟨scheduler, finish⟩, stepped, rfl⟩ := Option.map_eq_some_iff.mp moved
  have occupied (active : domain.hasActiveExecution = true) : state.occupied id = true := by
    simp [State.occupied, entered, active]
  cases place : state.worker.awakers thread with
  | outside => simp [place, Scheduler.awakeStep] at stepped
  | contains other =>
      simp only [place, Scheduler.awakeStep] at stepped
      split at stepped <;> cases stepped
      · refine holds.of_awaker rfl rfl (fun rests => rests) (fun early => early) (fun _ => rfl) ?_
        intro _ _ waits
        simp only [place, AwakePc.Pending] at waits ⊢
        grind
      · rename_i unknown
        refine holds.of_awaker rfl rfl (fun rests => rests) (fun early => early) (fun _ => rfl) ?_
        intro _ opened waits
        have known := stacked.root_known entered parent opened
        simp only [place, AwakePc.Pending] at waits
        grind
  | remove other =>
      simp only [place, Scheduler.awakeStep] at stepped
      by_cases rests : other ∈ state.worker.scheduler.suspended
      · cases (if_pos rests).symm.trans stepped
        by_cases same : other = id
        · subst same
          obtain ⟨closed, unmarked⟩ := stacked.root_rests entered parent rests
          refine ⟨fun marked => ?_, fun _ opened => ?_⟩
          · exact absurd (marked.resolve_left (Finset.notMem_erase _ _)) unmarked
          · exact absurd
              ((opened.resolve_left closed).resolve_left (Finset.notMem_erase _ _)) unmarked
        · refine holds.of_awaker rfl rfl Finset.mem_of_mem_erase (fun early => early)
            (fun _ => rfl) ?_
          intro _ _ waits
          simp only [place, AwakePc.Pending] at waits
          grind
      · cases (if_neg rests).symm.trans stepped
        refine holds.of_awaker rfl rfl (fun rests => rests) (fun early => early) (fun _ => rfl) ?_
        intro _ _ waits
        simp only [place, AwakePc.Pending] at waits ⊢
        grind
  | push other =>
      cases place ▸ stepped
      refine holds.of_awaker rfl rfl (fun rests => rests) (fun early => early) (fun _ => rfl) ?_
      intro _ _ waits
      simp [place] at waits
  | activate other =>
      cases place ▸ stepped
      rw [place] at allowed
      refine holds.of_awaker rfl rfl (fun rests => rests) (fun early => early) ?_ ?_
      · intro marked
        have different : id ≠ other := by
          rintro rfl
          exact allowed (by simp [entered]) marked
        exact Function.update_of_ne different _ _
      · intro _ _ waits
        simp [place] at waits
  | preawake other =>
      cases place ▸ stepped
      rw [place] at allowed
      refine holds.of_awaker rfl rfl (fun rests => rests) Finset.mem_insert_of_mem (fun _ => rfl) ?_
      intro active _ waits
      obtain rfl : other = id := by simpa [place] using waits
      have undecided := allowed (occupied active)
      rw [Decided, not_or] at undecided
      exact .inr ⟨Finset.mem_insert_self _ _, undecided⟩

omit parent in
/-- `suspend_current` of an execution with a domain is called at the end of the
contexts. -/
theorem RootParent.suspend (holds : RootParent state id domain)
    (permitted : state.permits .suspend = true) (moved : state.worker.move .suspend = some after) :
    RootParent { state with worker := after, phase := state.phaseAfter .suspend } id domain := by
  obtain ⟨runs, ⟨⟩⟩ := Option.ite_none_right_eq_some.mp moved
  have before (stands : WorkerPc → Bool) : At state.worker id stands ↔
      state.worker.current = id ∧ stands .running = true := at_executing runs
  have behind (stands : WorkerPc → Bool) :
      At { state.worker with place := .executing .suspendContains false } id stands ↔
        state.worker.current = id ∧ stands .suspendContains = true := at_executing rfl
  have phase : state.phaseAfter .suspend ≠ .suspend := by
    simp only [State.phaseAfter]
    split
    · simp
    · rename_i leaf
      intro suspends
      exact leaf (stacked.below (by simp [suspends])).1
  have marked
      (marked : Marked { state.worker with place := .executing .suspendContains false } id) :
      Marked state.worker id := by
    rw [Marked, behind] at marked
    exact .inl (marked.resolve_right (by simp [Nested.marks]))
  constructor
  · exact fun isMarked => holds.recorded (marked isMarked)
  · intro active opened
    have window : state.Window id ∨ Marked state.worker id := by
      refine opened.imp (fun opened => ?_) marked
      obtain ⟨current, _⟩ := (behind records).mp
        (opened.resolve_left fun suspends => phase suspends.1)
      have known : (state.nested state.worker.current).isNone = false := by
        simp [current, entered]
      simp only [State.permits, known, Bool.false_or, Bool.and_eq_true, decide_eq_true_eq,
        List.isEmpty_iff] at permitted
      exact .inl ⟨permitted.1, by simp only [State.top, permitted.2, current]⟩
    rcases holds.coming active window with climbs | waits | ⟨early, undecided⟩
    · exact .inl climbs
    · exact .inr (.inl waits)
    · refine .inr (.inr ⟨early, fun late => undecided ?_⟩)
      rw [Decided, behind] at late
      exact .inl (late.resolve_right (by simp [decides]))

/-- A step in the root domain. -/
theorem RootParent.root {label : Worker.Label Thread Id} (holds : RootParent state id domain)
    (allowed : ReadsInTime state (.root label)) (permitted : state.permits label = true)
    (moved : state.worker.move label = some after) :
    RootParent { state with worker := after, phase := state.phaseAfter label } id domain := by
  have leaf (pc : WorkerPc) (completes : state.worker.place = .executing pc true) :
      state.worker.current ≠ id := by
    rintro rfl
    have none := stacked.leaf pc completes
    rw [entered] at none
    contradiction
  have idle (rests : state.worker.place = .idle) : state.phase = .root ∧
      state.worker.scheduler.currentSuspend = false := by
    refine ⟨?_, stacked.asked.calm (by simp [rests])⟩
    by_contra away
    obtain ⟨_, pc, executes, _⟩ := stacked.below away
    rw [rests] at executes
    contradiction
  cases label with
  | worker execTime =>
      refine holds.of_moves (workerStep_moves stacked.asked leaf moved) ?_ ?_
      · cases Worker.State.workerStep_cases moved <;> rfl
      · intro suspends
        have suspends : state.phase = .suspend := suspends
        have runs := stacked.runs (by simp [suspends]) (.inr (by simp [suspends]))
        simp [Worker.State.move, Worker.State.workerStep, runs] at moved
  | attach other =>
      obtain ⟨⟨rests, _⟩, ⟨⟩⟩ := Option.ite_none_right_eq_some.mp moved
      refine holds.of_moves (Moves.of_away (fun rests => rests) rfl (fun _ => rfl) (by simp)) rfl ?_
      simp [State.phaseAfter, (idle rests).1]
  | schedule entry =>
      obtain ⟨⟨rests, member, _⟩, ⟨⟩⟩ := Option.ite_none_right_eq_some.mp moved
      have calm := (idle rests).2
      refine holds.of_moves ?_ ?_ ?_
      · refine Moves.of_away ?_ ?_ ?_ ?_
        · unfold Worker.State.schedule
          split <;> exact fun rests => rests
        · unfold Worker.State.schedule
          split <;> rfl
        · intro suspended
          have different : id ≠ entry.id := by
            rintro rfl
            have once := stacked.located.once entry.id
            have queued : 0 < queued state.worker.scheduler entry.id :=
              List.countP_pos_iff.mpr ⟨entry, member, by simp⟩
            simp only [Worker.State.places, resting, suspended, if_true] at once
            omega
          unfold Worker.State.schedule
          split <;> exact Function.update_of_ne different _ _
        · unfold Worker.State.schedule
          split
          · rintro pc completing ⟨⟩
            exact ⟨rfl, rfl, calm⟩
          · rintro pc completing ⟨⟩
            exact ⟨rfl, rfl, rfl⟩
      · unfold Worker.State.schedule
        split <;> rfl
      · simp only [State.phaseAfter]
        split <;> simp
  | register =>
      obtain ⟨_, ⟨⟩⟩ := Option.ite_none_right_eq_some.mp moved
      exact holds.of_place rfl rfl rfl (fun rests => rests) (fun early => early) (fun _ => rfl)
        (fun _ opened => opened) (fun active => .inl active)
        fun _ _ found => found.imp_right .inl
  | suspend => exact holds.suspend stacked entered permitted moved
  | leave completed =>
      obtain ⟨_, _, _, _, _, rfl⟩ := leave_cases moved
      exact holds.of_moves (leave_moves stacked.asked moved) rfl (by simp [State.phaseAfter])
  | requestCancel other =>
      cases moved
      exact holds.of_place rfl rfl rfl (fun rests => rests) (fun early => early) (fun _ => rfl)
        (fun _ opened => opened) (fun active => .inl active)
        fun _ _ found => found.imp_right .inl
  | awake thread other own =>
      obtain ⟨⟨outside, _⟩, ⟨⟩⟩ := Option.ite_none_right_eq_some.mp moved
      refine holds.of_place rfl rfl rfl (fun rests => rests) (fun early => early) (fun _ => rfl)
        (fun _ opened => opened) (fun active => .inl active) ?_
      intro _ _ found
      refine found.imp_right fun waits => .inl ?_
      exact exists_local_update (AwakePc.Pending id) (by simp [outside]) waits
  | awaker thread => exact holds.awaker stacked entered parent allowed moved

end

end Asco.Core.Worker.Nested
