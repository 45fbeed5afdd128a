import Asco.Core.Worker.Location

namespace Asco.Core.Worker

open Foundation Asco.Core.Task.DynprioScheduler

/-! # The end of an execution

`end(true)` puts a finished execution into the suspended set, where the detach
looks for it, and where a thread that wakes it finds it first.
-/

variable {Thread Id : Type*} {state after : State Thread Id}

/-- The worker is ending its current execution and has not taken it out of the
suspended set. -/
def State.ending (state : State Thread Id) : Bool :=
  match state.place with
  | .executing _ completing => completing
  | .detachRemove => true
  | _ => false

/-- What is left of an execution that has been detached: it is not queued, it has
no context, and no thread is about to activate it. -/
structure Detached (state : State Thread Id) : Prop where
  unqueued : ∀ entry ∈ state.scheduler.active, entry.id ∈ state.attached
  forgotten : ∀ id ∈ state.scheduler.contexts, id ∈ state.attached
  asserted : ∀ thread id, state.awakers thread = .push id ∨ state.awakers thread = .activate id →
    id ∈ state.attached

/-- No thread takes an execution out of the suspended set while the worker ends
it, and the worker does not detach an execution from its domain that a thread is
about to activate. -/
def AwakesInTime (state : State Thread Id) : Label Thread Id → Prop
  | .awaker thread =>
      state.awakers thread = .remove state.current → state.current ∈ state.scheduler.suspended →
        state.ending = false
  | .worker _ => state.place = .detachDomain →
      ∀ thread, state.awakers thread ≠ .activate state.current
  | _ => True

/-- What the place of the worker says about its execution. -/
def State.Phase (state : State Thread Id) : Prop :=
  match state.place with
  | .attachContext id => id ∈ state.attached
  | .executing (.endFlag true) true | .executing (.endPreawake true) true
  | .executing .endInsert true => True
  | .executing .endDomainSuspend true | .executing .endClear true | .executing .ended true
  | .detachRemove => state.current ∈ state.scheduler.suspended
  | .executing _ completing => completing = false
  | .detachDomain => state.current ∉ state.scheduler.contexts
  | .idle | .attachPush _ | .detachContext => True

theorem phase_of_executing {pc : WorkerPc} (executes : state.place = .executing pc false) :
    state.Phase := by
  rw [State.Phase, executes]
  cases pc with
  | endFlag completed => cases completed <;> rfl
  | endPreawake completed => cases completed <;> rfl
  | _ => rfl

/-- A step of another thread, which leaves an ending execution suspended. -/
theorem State.Phase.of_rests (phase : state.Phase) (place : after.place = state.place)
    (attached : after.attached = state.attached) (current : after.current = state.current)
    (contexts : after.scheduler.contexts = state.scheduler.contexts)
    (rests : state.ending = true → state.current ∈ state.scheduler.suspended →
      state.current ∈ after.scheduler.suspended) : after.Phase := by
  cases stands : state.place with
  | executing pc completing =>
      cases completing with
      | false => exact phase_of_executing (place.trans stands)
      | true =>
          have kept := rests (by simp [State.ending, stands])
          rw [State.Phase, stands] at phase
          rw [State.Phase, place, stands, current]
          cases pc with
          | endFlag completed => cases completed <;> exact phase
          | endPreawake completed => cases completed <;> exact phase
          | endDomainSuspend => exact kept phase
          | endClear => exact kept phase
          | ended => exact kept phase
          | _ => exact phase
  | detachRemove =>
      rw [State.Phase, stands] at phase
      rw [State.Phase, place, stands, current]
      exact rests (by simp [State.ending, stands]) phase
  | _ =>
      rw [State.Phase, stands] at phase
      rw [State.Phase, place, stands, current, attached, contexts]
      exact phase

/-- The invariant. -/
structure Settled (state : State Thread Id) : Prop where
  forgotten : ∀ id ∈ state.scheduler.contexts, id ∈ state.attached
  activating : ∀ thread id, state.awakers thread = .activate id → id ∈ state.attached
  phase : state.Phase

variable [DecidableEq Id]

instance [Fintype Thread] : DecidableRel (@AwakesInTime Thread Id)
  | state, .awaker thread =>
      inferInstanceAs (Decidable (state.awakers thread = .remove state.current →
        state.current ∈ state.scheduler.suspended → state.ending = false))
  | state, .worker _ =>
      inferInstanceAs (Decidable (state.place = .detachDomain →
        ∀ thread, state.awakers thread ≠ .activate state.current))
  | _, .attach _ | _, .schedule _ | _, .register | _, .suspend | _, .leave _
  | _, .requestCancel _ | _, .awake _ _ _ => isTrue trivial

theorem Located.attached [Fintype Thread] (located : Located state) (settled : Settled state)
    {id : Id} (some : state.places id ≠ 0) : id ∈ state.attached :=
  settled.forgotten id (located.known id some)

theorem Settled.detached [Fintype Thread] (settled : Settled state) (located : Located state) :
    Detached state := by
  refine ⟨?_, settled.forgotten, ?_⟩
  · intro entry member
    apply located.attached settled
    have here : 0 < queued state.scheduler entry.id :=
      List.countP_pos_iff.mpr ⟨entry, member, by simp⟩
    simp only [State.places]
    omega
  · intro thread id stands
    cases stands with
    | inr activates => exact settled.activating thread id activates
    | inl pushes =>
        apply located.attached settled
        have here : inHand id (state.awakers thread) ≤ tally (inHand id) state.awakers :=
          weight_le_tally thread
        rw [pushes] at here
        simp only [inHand, if_true] at here
        simp only [State.places]
        omega

/-! ## One step -/

theorem schedulerStep_ending {scheduler next : Scheduler Id} {pc finish : WorkerPc}
    {execTime : UInt64} {state : State Thread Id} (executes : state.place = .executing pc true)
    (same : state.scheduler = scheduler) (phase : state.Phase)
    (stepped : scheduler.workerStep execTime pc = some (next, finish)) :
    State.Phase { state with scheduler := next, place := .executing finish true } := by
  subst same
  rw [State.Phase, executes] at phase
  cases Scheduler.workerStep_cases stepped with
  | flagged completed flagged =>
      cases completed with
      | true => exact trivial
      | false => contradiction
  | completes unflagged => exact trivial
  | completesEarly early => exact trivial
  | decides completed unawoken => exact trivial
  | endInsert => exact Finset.mem_insert_self _ _
  | endDomainSuspend => exact phase
  | endClear => exact phase
  | _ => contradiction

theorem Settled.leave {completed : Bool} (settled : Settled state)
    (stepped : state.leave completed = some after) : Settled after := by
  obtain ⟨forgotten, activating, _⟩ := settled
  unfold State.leave at stepped
  split at stepped
  · split at stepped <;> split at stepped <;> cases stepped
    · exact ⟨forgotten, activating, trivial⟩
    · exact ⟨forgotten, activating, rfl⟩
  · split at stepped <;> split at stepped <;> cases stepped
    · exact ⟨forgotten, activating, trivial⟩
    · exact ⟨forgotten, activating, rfl⟩
  · contradiction

variable [Fintype Thread]

theorem Settled.workerStep {execTime : UInt64} (settled : Settled state) (located : Located state)
    (inTime : AwakesInTime state (.worker execTime))
    (stepped : state.workerStep execTime = some after) : Settled after := by
  obtain ⟨forgotten, activating, phase⟩ := settled
  cases stands : state.place with
  | idle => simp [State.workerStep, stands] at stepped
  | attachContext id =>
      simp only [State.workerStep, stands] at stepped
      split at stepped <;> cases stepped
      simp only [State.Phase, stands] at phase
      refine ⟨?_, activating, trivial⟩
      intro other member
      cases Finset.mem_insert.mp member with
      | inl same => exact same ▸ phase
      | inr known => exact forgotten other known
  | attachPush id =>
      simp only [State.workerStep, stands, Option.some.injEq] at stepped
      subst stepped
      exact ⟨forgotten, activating, trivial⟩
  | executing pc completing =>
      cases pc with
      | running => simp [State.workerStep, stands] at stepped
      | returned => simp [State.workerStep, stands] at stepped
      | ended =>
          simp only [State.workerStep, stands, Option.some.injEq] at stepped
          subst stepped
          refine ⟨forgotten, activating, ?_⟩
          cases completing with
          | false => trivial
          | true =>
              simp only [State.Phase, stands] at phase
              exact phase
      | _ =>
          simp only [State.workerStep, stands, Option.map_eq_some_iff, Prod.exists] at stepped
          obtain ⟨scheduler, finish, stepped, rfl⟩ := stepped
          have contexts := (schedulerStep_places completing
            (fun holds => (located.alone stands holds).1) stepped).2.1
          refine ⟨fun id member => forgotten id (contexts ▸ member), activating, ?_⟩
          cases completing with
          | false => exact phase_of_executing rfl
          | true => exact schedulerStep_ending stands rfl phase stepped
  | detachRemove =>
      simp only [State.Phase, stands] at phase
      simp only [State.workerStep, stands, phase, if_true, Option.some.injEq] at stepped
      subst stepped
      exact ⟨forgotten, activating, trivial⟩
  | detachContext =>
      simp only [State.workerStep, stands, Option.some.injEq] at stepped
      subst stepped
      refine ⟨?_, activating, ?_⟩
      · exact fun id member => forgotten id (Finset.mem_of_mem_erase member)
      · exact Finset.notMem_erase _ _
  | detachDomain =>
      simp only [State.Phase, stands] at phase
      simp only [State.workerStep, stands, Option.some.injEq] at stepped
      subst stepped
      refine ⟨?_, ?_, trivial⟩
      · intro id member
        have different : id ≠ state.current := by
          intro same
          exact phase (same ▸ member)
        exact Finset.mem_erase.mpr ⟨different, forgotten id member⟩
      · intro thread id activates
        have different : id ≠ state.current := by
          intro same
          exact inTime stands thread (same ▸ activates)
        exact Finset.mem_erase.mpr ⟨different, activating thread id activates⟩

/-- What a waking thread does to the suspended set and to itself. -/
theorem awakeStep_cases {scheduler next : Scheduler Id} {place finish : AwakePc Id}
    (stepped : scheduler.awakeStep place = some (next, finish)) :
    (∀ id, place ≠ .remove id → id ∈ scheduler.suspended → id ∈ next.suspended) ∧
      ∀ id, finish = .activate id → place = .push id := by
  cases Scheduler.awakeStep_cases stepped with
  | @takes taken suspended =>
      refine ⟨fun id other rests => Finset.mem_erase.mpr ⟨?_, rests⟩, nofun⟩
      rintro rfl
      exact other rfl
  | push =>
      refine ⟨fun _ _ rests => rests, fun id activates => ?_⟩
      cases activates
      rfl
  | _ => exact ⟨fun _ _ rests => rests, nofun⟩

variable [DecidableEq Thread]

theorem Settled.awaker {thread : Thread} {scheduler : Scheduler Id} {place : AwakePc Id}
    (settled : Settled state) (located : Located state)
    (inTime : AwakesInTime state (.awaker thread))
    (stepped : state.scheduler.awakeStep (state.awakers thread) = some (scheduler, place)) :
    Settled { state with scheduler, awakers := Function.update state.awakers thread place } := by
  obtain ⟨current, contexts, _⟩ := awakeStep_places stepped
  obtain ⟨kept, activates⟩ := awakeStep_cases stepped
  have detached := settled.detached located
  refine ⟨fun id member => settled.forgotten id (contexts ▸ member), ?_, ?_⟩
  · intro other id stands
    dsimp only at stands ⊢
    by_cases same : other = thread
    · subst same
      rw [Function.update_self] at stands
      exact detached.asserted other id (.inl (activates id stands))
    · rw [Function.update_of_ne same] at stands
      exact settled.activating other id stands
  · have rests (ending : state.ending = true) (before : state.current ∈ state.scheduler.suspended) :
        state.current ∈ scheduler.suspended := by
      apply kept state.current _ before
      intro removes
      simp [inTime removes before] at ending
    exact settled.phase.of_rests rfl rfl (congrArg PrioritiedExecution.id current) contexts rests

theorem Settled.step {label : Label Thread Id} (settled : Settled state) (located : Located state)
    (inTime : AwakesInTime state label) (moved : state.move label = some after) :
    Settled after := by
  cases label with
  | worker execTime => exact settled.workerStep located inTime moved
  | attach id =>
      obtain ⟨forgotten, activating, _⟩ := settled
      simp only [State.move] at moved
      split at moved <;> cases moved
      exact ⟨fun other known => Finset.mem_insert_of_mem (forgotten other known),
        fun thread other stands => Finset.mem_insert_of_mem (activating thread other stands),
        Finset.mem_insert_self _ _⟩
  | schedule entry =>
      obtain ⟨forgotten, activating, _⟩ := settled
      simp only [State.move] at moved
      split at moved <;> cases moved
      unfold State.schedule
      split
      · exact ⟨forgotten, activating, trivial⟩
      · exact ⟨forgotten, activating, rfl⟩
  | register =>
      obtain ⟨forgotten, activating, phase⟩ := settled
      simp only [State.move] at moved
      split at moved <;> cases moved
      exact ⟨forgotten, activating, phase⟩
  | suspend =>
      obtain ⟨forgotten, activating, _⟩ := settled
      simp only [State.move] at moved
      split at moved <;> cases moved
      exact ⟨forgotten, activating, rfl⟩
  | leave completed => exact settled.leave moved
  | requestCancel id =>
      obtain ⟨forgotten, activating, phase⟩ := settled
      cases moved
      exact ⟨forgotten, activating, phase⟩
  | awake thread id own =>
      obtain ⟨forgotten, activating, phase⟩ := settled
      simp only [State.move] at moved
      split at moved <;> cases moved
      refine ⟨forgotten, ?_, phase⟩
      intro other woken stands
      dsimp only at stands
      by_cases same : other = thread
      · subst same
        rw [Function.update_self] at stands
        cases stands
      · rw [Function.update_of_ne same] at stands
        exact activating other woken stands
  | awaker thread =>
      simp only [State.move] at moved
      split at moved
      · simp only [Option.map_eq_some_iff, Prod.exists] at moved
        obtain ⟨scheduler, place, stepped, rfl⟩ := moved
        exact settled.awaker located inTime stepped
      · contradiction

/-! ## Every run -/

theorem settled_of_reachable (reachable : (machine Thread Id).Reachable AwakesInTime state) :
    Settled state := by
  obtain ⟨first, started, run⟩ := reachable
  induction run with
  | refl =>
      obtain ⟨_, _, _, contexts, _, _, place, outside, _⟩ := started
      refine ⟨?_, ?_, ?_⟩
      · simp [contexts]
      · simp [outside]
      · simp [State.Phase, place]
  | tail before allowed moved ih =>
      have located := located_of_reachable ⟨first, started, before⟩
      exact ih.step located allowed moved

theorem detached_of_awakesInTime
    (reachable : (machine Thread Id).Reachable AwakesInTime state) : Detached state :=
  (settled_of_reachable reachable).detached (located_of_reachable reachable)

/-- A wake-up that comes while the execution still runs does not bring it back. -/
theorem detached_of_awakesInTime_running :
    ∃ state : State (Fin 1) ℕ, (machine (Fin 1) ℕ).Reachable AwakesInTime state ∧
      (5 ∉ state.attached ∧ 5 ∈ state.scheduler.preawake) ∧ Detached state := by
  obtain ⟨state, reachable, gone⟩ :=
    Machine.reachable_of_exec (machine (Fin 1) ℕ) AwakesInTime (started (Fin 1) 0)
      (List.flatten
        [[.attach 5, .worker 0, .worker 0, .schedule ⟨5, 0⟩, .awake 0 5 false, .awaker 0, .awaker 0,
          .leave true],
          List.replicate 8 (.worker 0),
          [.awaker 0]])
      (fun state => 5 ∉ state.attached ∧ 5 ∈ state.scheduler.preawake)
      (started_fresh _ _) ⟨_, rfl, by decide⟩
  exact ⟨state, reachable, gone, detached_of_awakesInTime reachable⟩

/-- The wake-up takes the finished execution out of the suspended set before the
detach looks there. -/
theorem finished_execution_scheduled :
    ∃ state : State (Fin 1) ℕ, (machine (Fin 1) ℕ).Reachable Machine.free state ∧
      ¬ Detached state := by
  obtain ⟨state, reachable, gone, kept⟩ :=
    Machine.reachable_of_exec (machine (Fin 1) ℕ) Machine.free (started (Fin 1) 0)
      (List.flatten
        [[.attach 5, .worker 0, .worker 0, .schedule ⟨5, 0⟩, .leave true, .awake 0 5 false,
          .awaker 0, .worker 0, .worker 0, .awaker 0],
          List.replicate 5 (.worker 0),
          [.awaker 0]])
      (fun state => 5 ∉ state.attached ∧ 5 ∈ state.scheduler.contexts)
      (started_fresh _ _) ⟨_, rfl, by decide⟩
  exact ⟨state, reachable, fun detached => gone (detached.forgotten 5 kept)⟩

end Asco.Core.Worker
