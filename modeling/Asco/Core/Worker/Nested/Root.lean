import Asco.Core.Worker.Location
import Asco.Core.Worker.Nested

namespace Asco.Core.Worker.Nested

open Foundation Asco.Core.Task Asco.Core.Task.DynprioScheduler

/-! # The worker in its root domain

What the place of the worker says about the scheduler of the root domain, and
what a step there does to the current execution.
-/

variable {Thread Id : Type*} [DecidableEq Thread] [DecidableEq Id]

/-! ## What the place of the worker says about the root scheduler -/

/-- The places at which the current execution may have asked to be suspended. -/
def flags : WorkerPc → Bool
  | .running | .suspendContains | .suspendPreawake | .suspendDomain | .suspendFlag | .ended => false
  | _ => true

/-- The places at which the current execution has been put back into the queue. -/
def queues : WorkerPc → Bool
  | .endPush | .endDomainActivate => true
  | _ => false

/-- The places inside `end(true)` before its decision. -/
def finishes : WorkerPc → Bool
  | .endFlag true | .endPreawake true => true
  | _ => false

structure Asked {Thread Id : Type*} (worker : Worker.State Thread Id) : Prop where
  flag : worker.scheduler.currentSuspend = true →
    ∃ pc completing, worker.place = .executing pc completing ∧ flags pc = true
  free : ∀ pc completing, worker.place = .executing pc completing → queues pc = true →
    worker.current ∉ worker.scheduler.suspended
  done : ∀ pc completing, worker.place = .executing pc completing → finishes pc = true →
    completing = true

omit [DecidableEq Thread] in
theorem schedulerStep_asked {scheduler next : Scheduler Id} {pc finish : WorkerPc}
    {execTime : UInt64} (flag : scheduler.currentSuspend = true → flags pc = true)
    (free : queues pc = true → scheduler.current.id ∉ scheduler.suspended)
    (stepped : scheduler.workerStep execTime pc = some (next, finish)) :
    (next.currentSuspend = true → flags finish = true) ∧
      (queues finish = true → next.current.id ∉ next.suspended) ∧
      (finishes finish = true → finishes pc = true) := by
  have unflagged (calm : flags pc = false) : scheduler.currentSuspend = true → False :=
    fun asks => Bool.false_ne_true (calm.symm.trans (flag asks))
  cases Scheduler.workerStep_cases stepped with
  | running => exact ⟨fun asks => (unflagged rfl asks).elim, nofun, nofun⟩
  | known known => exact ⟨fun asks => (unflagged rfl asks).elim, nofun, nofun⟩
  | suspends unawoken => exact ⟨fun asks => (unflagged rfl asks).elim, nofun, nofun⟩
  | suspendDomain => exact ⟨fun asks => (unflagged rfl asks).elim, nofun, nofun⟩
  | flagged completed asked =>
      refine ⟨fun _ => rfl, nofun, fun finishing => ?_⟩
      cases completed with
      | true => rfl
      | false => exact finishing
  | endErase => exact ⟨fun _ => rfl, fun _ => Finset.notMem_erase _ _, nofun⟩
  | endPush => exact ⟨fun _ => rfl, fun _ => free rfl, nofun⟩
  | endClear => exact ⟨nofun, nofun, nofun⟩
  | _ => exact ⟨fun _ => rfl, nofun, nofun⟩

variable {worker after : Worker.State Thread Id}

omit [DecidableEq Thread] [DecidableEq Id] in
/-- A step after which the worker is elsewhere than inside `end`. -/
theorem Asked.of_place (calm : after.scheduler.currentSuspend = false)
    (place : ∀ pc completing, after.place = .executing pc completing → queues pc = false ∧
      (finishes pc = true → completing = true)) : Asked after where
  flag asks := by simp [calm] at asks
  free pc completing executes queued := by simp [(place pc completing executes).1] at queued
  done pc completing executes := (place pc completing executes).2

omit [DecidableEq Thread] [DecidableEq Id] in
/-- A step that leaves the worker and what it has asked for alone. -/
theorem Asked.of_same (asked : Asked worker) (place : after.place = worker.place)
    (current : after.current = worker.current)
    (flag : after.scheduler.currentSuspend = worker.scheduler.currentSuspend)
    (suspended : after.scheduler.suspended ⊆ worker.scheduler.suspended) : Asked after where
  flag asks := by
    rw [place]
    exact asked.flag (flag ▸ asks)
  free pc completing executes queued := by
    rw [current]
    exact fun member => asked.free pc completing (place ▸ executes) queued (suspended member)
  done pc completing executes := asked.done pc completing (place ▸ executes)

omit [DecidableEq Thread] [DecidableEq Id] in
theorem Asked.calm (asked : Asked worker)
    (place : ∀ pc completing, worker.place = .executing pc completing → flags pc = false) :
    worker.scheduler.currentSuspend = false := by
  by_contra asks
  obtain ⟨pc, completing, executes, flagged⟩ := asked.flag (by simpa using asks)
  simp [place pc completing executes] at flagged

theorem awakeStep_suspended {scheduler next : Scheduler Id} {place finish : AwakePc Id}
    (stepped : scheduler.awakeStep place = some (next, finish)) :
    next.current = scheduler.current ∧ next.currentSuspend = scheduler.currentSuspend ∧
      next.suspended ⊆ scheduler.suspended := by
  cases Scheduler.awakeStep_cases stepped with
  | takes suspended => exact ⟨rfl, rfl, Finset.erase_subset _ _⟩
  | _ => exact ⟨rfl, rfl, subset_rfl⟩

omit [DecidableEq Thread] in
theorem Asked.workerStep {execTime : UInt64} (asked : Asked worker)
    (stepped : worker.workerStep execTime = some after) : Asked after := by
  cases Worker.State.workerStep_cases stepped with
  | ended stands =>
      refine Asked.of_place (asked.calm ?_) (by dsimp only; split <;> simp)
      intro pc finished executes
      rw [stands] at executes
      cases executes
      rfl
  | @executes pc finish completing scheduler stands running returned inside =>
      have flag := asked.flag
      have free := asked.free
      have done := asked.done _ _ stands
      simp only [stands, Place.executing.injEq] at flag free
      obtain ⟨flagged, free, finished⟩ := schedulerStep_asked
        (fun asks => by
          obtain ⟨_, _, ⟨rfl, _⟩, flagged⟩ := flag asks
          exact flagged)
        (fun queued => free _ _ ⟨rfl, rfl⟩ queued) inside
      refine ⟨fun asks => ⟨finish, completing, rfl, flagged asks⟩, ?_, ?_⟩
      · rintro pc completing ⟨⟩ queued
        exact free queued
      · rintro pc completing ⟨⟩ completes
        exact done (finished completes)
  | _ => exact Asked.of_place (asked.calm (by simp [*])) (by simp)

omit [DecidableEq Thread] in
/-- An execution gives the worker back before or after `suspend_current`. -/
theorem leave_cases {completed : Bool} (stepped : worker.leave completed = some after) :
    ∃ pc completing waits, worker.place = .executing pc completing ∧
      (pc = .running ∨ pc = .returned) ∧
      after = { worker with waits, place := .executing (.endFlag completed) completed } := by
  cases Worker.State.leave_cases stepped with
  | completes stands ready finished => exact ⟨_, _, _, stands, ready, rfl⟩
  | yields stands ready waits => exact ⟨_, _, _, stands, ready, rfl⟩

omit [DecidableEq Thread] in
theorem Asked.leave {completed : Bool} (stepped : worker.leave completed = some after) :
    Asked after := by
  obtain ⟨pc, completing, waits, _, _, rfl⟩ := leave_cases stepped
  constructor
  · intro _
    exact ⟨_, _, rfl, rfl⟩
  · rintro pc completing ⟨⟩ queued
    contradiction
  · rintro pc completing ⟨⟩ finished
    cases completed with
    | true => rfl
    | false => contradiction

theorem Asked.step {label : Worker.Label Thread Id} (asked : Asked worker)
    (moved : worker.move label = some after) : Asked after := by
  cases label with
  | worker execTime => exact asked.workerStep moved
  | attach id =>
      obtain ⟨⟨idle, _⟩, ⟨⟩⟩ := Option.ite_none_right_eq_some.mp moved
      exact Asked.of_place (asked.calm (by simp [idle])) (by simp)
  | schedule entry =>
      obtain ⟨⟨idle, _⟩, ⟨⟩⟩ := Option.ite_none_right_eq_some.mp moved
      have calm := asked.calm (by simp [idle])
      unfold Worker.State.schedule
      split
      · exact Asked.of_place calm (by rintro pc completing ⟨⟩; exact ⟨rfl, fun _ => rfl⟩)
      · exact Asked.of_place calm (by rintro pc completing ⟨⟩; exact ⟨rfl, nofun⟩)
  | register =>
      obtain ⟨_, ⟨⟩⟩ := Option.ite_none_right_eq_some.mp moved
      exact asked.of_same rfl rfl rfl subset_rfl
  | suspend =>
      obtain ⟨runs, ⟨⟩⟩ := Option.ite_none_right_eq_some.mp moved
      refine Asked.of_place (asked.calm ?_) (by rintro pc completing ⟨⟩; exact ⟨rfl, nofun⟩)
      intro pc completing executes
      rw [runs] at executes
      cases executes
      rfl
  | leave completed => exact Asked.leave moved
  | requestCancel id =>
      cases moved
      exact asked.of_same rfl rfl rfl subset_rfl
  | awake thread id own =>
      obtain ⟨_, ⟨⟩⟩ := Option.ite_none_right_eq_some.mp moved
      exact asked.of_same rfl rfl rfl subset_rfl
  | awaker thread =>
      obtain ⟨_, moved⟩ := Option.ite_none_right_eq_some.mp moved
      obtain ⟨⟨scheduler, place⟩, stepped, rfl⟩ := Option.map_eq_some_iff.mp moved
      obtain ⟨current, flag, suspended⟩ := awakeStep_suspended stepped
      exact asked.of_same rfl (congrArg PrioritiedExecution.id current) flag suspended

/-! ## What a step of the worker does to its current execution -/

/-- Only `attach_execution` makes an execution known to the scheduler. -/
theorem move_known {label : Worker.Label Thread Id} {id : Id}
    (moved : worker.move label = some after)
    (known : id ∈ after.scheduler.contexts ∨ after.place = .attachContext id) :
    (id ∈ worker.scheduler.contexts ∨ worker.place = .attachContext id) ∨ label = .attach id := by
  cases label with
  | worker execTime =>
      left
      cases Worker.State.workerStep_cases moved with
      | attachContext stands fresh =>
          cases Finset.mem_insert.mp (known.resolve_right (by simp)) with
          | inl same => exact .inr (same ▸ stands)
          | inr known => exact .inl known
      | ended stands => exact .inl (known.resolve_right (by split <;> simp))
      | executes stands running returned stepped =>
          rw [← (Scheduler.workerStep_keeps stepped).2]
          exact .inl (known.resolve_right (by simp))
      | detachContext stands =>
          exact .inl (Finset.mem_of_mem_erase (known.resolve_right (by simp)))
      | _ => exact .inl (known.resolve_right (by simp))
  | attach other =>
      obtain ⟨_, ⟨⟩⟩ := Option.ite_none_right_eq_some.mp moved
      cases known with
      | inl known => exact .inl (.inl known)
      | inr attaching =>
          cases attaching
          exact .inr rfl
  | schedule entry =>
      obtain ⟨_, ⟨⟩⟩ := Option.ite_none_right_eq_some.mp moved
      rw [Worker.State.schedule_contexts, Worker.State.schedule_place] at known
      exact .inl (.inl (known.resolve_right (by split <;> simp)))
  | register =>
      obtain ⟨_, ⟨⟩⟩ := Option.ite_none_right_eq_some.mp moved
      exact .inl known
  | suspend =>
      obtain ⟨_, ⟨⟩⟩ := Option.ite_none_right_eq_some.mp moved
      exact .inl (.inl (known.resolve_right (by simp)))
  | leave completed =>
      cases Worker.State.leave_cases moved <;>
        exact .inl (.inl (known.resolve_right (by simp)))
  | requestCancel other =>
      cases moved
      exact .inl known
  | awake thread other own =>
      obtain ⟨_, ⟨⟩⟩ := Option.ite_none_right_eq_some.mp moved
      exact .inl known
  | awaker thread =>
      obtain ⟨_, moved⟩ := Option.ite_none_right_eq_some.mp moved
      obtain ⟨⟨scheduler, place⟩, stepped, rfl⟩ := Option.map_eq_some_iff.mp moved
      rw [← (Scheduler.awakeStep_keeps stepped).2.1]
      exact .inl known

/-- Only a request cancels an attached execution. -/
theorem move_cancelled {label : Worker.Label Thread Id} {id : Id}
    (moved : worker.move label = some after) (attached : id ∈ after.attached)
    (cancelled : id ∈ after.cancelled) :
    id ∈ worker.attached ∧ id ∈ worker.cancelled ∨ label = .requestCancel id := by
  cases label with
  | worker execTime =>
      cases Worker.State.workerStep_cases moved with
      | detachDomain stands => exact .inl ⟨Finset.mem_of_mem_erase attached, cancelled⟩
      | _ => exact .inl ⟨attached, cancelled⟩
  | attach other =>
      obtain ⟨_, ⟨⟩⟩ := Option.ite_none_right_eq_some.mp moved
      obtain ⟨different, cancelled⟩ := Finset.mem_erase.mp cancelled
      exact .inl ⟨(Finset.mem_insert.mp attached).resolve_left different, cancelled⟩
  | schedule entry =>
      obtain ⟨_, ⟨⟩⟩ := Option.ite_none_right_eq_some.mp moved
      rw [Worker.State.schedule_attached] at attached
      rw [Worker.State.schedule_cancelled] at cancelled
      exact .inl ⟨attached, cancelled⟩
  | register =>
      obtain ⟨_, ⟨⟩⟩ := Option.ite_none_right_eq_some.mp moved
      exact .inl ⟨attached, cancelled⟩
  | suspend =>
      obtain ⟨_, ⟨⟩⟩ := Option.ite_none_right_eq_some.mp moved
      exact .inl ⟨attached, cancelled⟩
  | leave completed =>
      cases Worker.State.leave_cases moved <;> exact .inl ⟨attached, cancelled⟩
  | requestCancel other =>
      cases moved
      cases Finset.mem_insert.mp cancelled with
      | inl same => exact .inr (congrArg _ same.symm)
      | inr cancelled => exact .inl ⟨attached, cancelled⟩
  | awake thread other own =>
      obtain ⟨_, ⟨⟩⟩ := Option.ite_none_right_eq_some.mp moved
      exact .inl ⟨attached, cancelled⟩
  | awaker thread =>
      obtain ⟨_, moved⟩ := Option.ite_none_right_eq_some.mp moved
      obtain ⟨⟨scheduler, place⟩, stepped, rfl⟩ := Option.map_eq_some_iff.mp moved
      exact .inl ⟨attached, cancelled⟩

theorem move_current {label : Worker.Label Thread Id} (moved : worker.move label = some after) :
    after.current = worker.current ∨
      ∃ entry, label = .schedule entry ∧ worker.place = .idle ∧ after.current = entry.id := by
  cases label with
  | worker execTime =>
      left
      cases Worker.State.workerStep_cases moved with
      | executes stands running returned stepped =>
          exact congrArg PrioritiedExecution.id (Scheduler.workerStep_keeps stepped).1
      | _ => rfl
  | schedule entry =>
      obtain ⟨⟨idle, _⟩, ⟨⟩⟩ := Option.ite_none_right_eq_some.mp moved
      exact .inr ⟨entry, rfl, idle, Worker.State.schedule_current _ _⟩
  | leave completed => cases Worker.State.leave_cases moved <;> exact .inl rfl
  | requestCancel other =>
      cases moved
      exact .inl rfl
  | awaker thread =>
      obtain ⟨_, moved⟩ := Option.ite_none_right_eq_some.mp moved
      obtain ⟨⟨scheduler, place⟩, stepped, rfl⟩ := Option.map_eq_some_iff.mp moved
      exact .inl (congrArg PrioritiedExecution.id (Scheduler.awakeStep_keeps stepped).1)
  | _ =>
      obtain ⟨_, ⟨⟩⟩ := Option.ite_none_right_eq_some.mp moved
      exact .inl rfl

/-- An execution completes because it was cancelled or gives up the worker for good. -/
theorem move_completing {label : Worker.Label Thread Id} {pc : WorkerPc}
    (moved : worker.move label = some after) (completes : after.place = .executing pc true) :
    (∃ before, worker.place = .executing before true) ∧ after.current = worker.current ∨
      (∃ entry, label = .schedule entry ∧ entry.id ∈ worker.cancelled ∧
        entry.id ∈ worker.attached ∧ after.current = entry.id) ∨
      label = .leave true ∧ after.current = worker.current := by
  cases label with
  | worker execTime =>
      cases Worker.State.workerStep_cases moved with
      | ended stands =>
          dsimp only at completes
          split at completes <;> contradiction
      | executes stands running returned stepped =>
          cases completes
          refine .inl ⟨⟨_, stands⟩, ?_⟩
          exact congrArg PrioritiedExecution.id (Scheduler.workerStep_keeps stepped).1
      | _ => contradiction
  | attach other =>
      obtain ⟨_, ⟨⟩⟩ := Option.ite_none_right_eq_some.mp moved
      contradiction
  | schedule entry =>
      obtain ⟨⟨_, _, _, _, attached⟩, ⟨⟩⟩ := Option.ite_none_right_eq_some.mp moved
      rw [Worker.State.schedule_place] at completes
      split at completes
      · exact .inr (.inl ⟨entry, rfl, ‹_›, attached, Worker.State.schedule_current _ _⟩)
      · cases completes
  | register =>
      obtain ⟨_, ⟨⟩⟩ := Option.ite_none_right_eq_some.mp moved
      exact .inl ⟨⟨pc, completes⟩, rfl⟩
  | suspend =>
      obtain ⟨_, ⟨⟩⟩ := Option.ite_none_right_eq_some.mp moved
      cases completes
  | leave completed =>
      cases Worker.State.leave_cases moved with
      | completes stands ready finished => exact .inr (.inr ⟨rfl, rfl⟩)
      | yields stands ready waits => cases completes
  | requestCancel other =>
      cases moved
      exact .inl ⟨⟨pc, completes⟩, rfl⟩
  | awake thread other own =>
      obtain ⟨_, ⟨⟩⟩ := Option.ite_none_right_eq_some.mp moved
      exact .inl ⟨⟨pc, completes⟩, rfl⟩
  | awaker thread =>
      obtain ⟨_, moved⟩ := Option.ite_none_right_eq_some.mp moved
      obtain ⟨⟨scheduler, place⟩, stepped, rfl⟩ := Option.map_eq_some_iff.mp moved
      refine .inl ⟨⟨pc, completes⟩, ?_⟩
      exact congrArg PrioritiedExecution.id (Scheduler.awakeStep_keeps stepped).1

/-- A thread enters the root scheduler only by a call of `awake_execution`. -/
theorem move_outside {label : Worker.Label Thread Id} {thread : Thread}
    (moved : worker.move label = some after) (outside : worker.awakers thread = .outside) :
    after.awakers thread = .outside ∨ ∃ id own, label = .awake thread id own := by
  cases label with
  | awake other id own =>
      obtain ⟨_, ⟨⟩⟩ := Option.ite_none_right_eq_some.mp moved
      by_cases same : thread = other
      · subst same
        exact .inr ⟨id, own, rfl⟩
      · exact .inl (by simpa [Function.update_of_ne same] using outside)
  | awaker other =>
      obtain ⟨_, moved⟩ := Option.ite_none_right_eq_some.mp moved
      obtain ⟨⟨scheduler, place⟩, stepped, rfl⟩ := Option.map_eq_some_iff.mp moved
      have different : thread ≠ other := by
        intro same
        subst same
        simp [outside, Scheduler.awakeStep] at stepped
      exact .inl (by simpa [Function.update_of_ne different] using outside)
  | worker execTime => cases Worker.State.workerStep_cases moved <;> exact .inl outside
  | schedule entry =>
      obtain ⟨_, ⟨⟩⟩ := Option.ite_none_right_eq_some.mp moved
      rw [Worker.State.schedule_awakers]
      exact .inl outside
  | leave completed => cases Worker.State.leave_cases moved <;> exact .inl outside
  | requestCancel other =>
      cases moved
      exact .inl outside
  | _ =>
      obtain ⟨_, ⟨⟩⟩ := Option.ite_none_right_eq_some.mp moved
      exact .inl outside

end Asco.Core.Worker.Nested
