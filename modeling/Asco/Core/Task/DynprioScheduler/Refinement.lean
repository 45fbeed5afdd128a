import Mathlib.Data.Finset.Max
import Mathlib.Logic.Relation
import Asco.Core.Task.DynprioScheduler
import Asco.Core.Task.Suspension

namespace Asco.Core.Task.DynprioScheduler

open Foundation

/-! # `dynprio_scheduler` suspends and wakes as a scheduler should

Called from one thread, the operations on the sets of the scheduler add up to
one call of the abstract scheduler.
-/

variable {Id : Type*} [DecidableEq Id]

namespace Scheduler

def attachExecution (scheduler : Scheduler Id) (id : Id) : Option (Scheduler Id) :=
  -- the assertion that the context is new
  if id ∈ scheduler.contexts then none
  else
    some { scheduler with
      contexts := insert id scheduler.contexts
      active := { id, priority := 0 } :: scheduler.active }

def detachSuspendedExecution (scheduler : Scheduler Id) (id : Id) : Scheduler Id :=
  if id ∈ scheduler.suspended then
    { scheduler with
      suspended := scheduler.suspended.erase id, contexts := scheduler.contexts.erase id }
  else scheduler

def awakeExecution (scheduler : Scheduler Id) (id : Id) : Scheduler Id :=
  if id ∈ scheduler.contexts then
    if id ∈ scheduler.suspended then
      { scheduler with
        suspended := scheduler.suspended.erase id
        active := { id, priority := 0 } :: scheduler.active }.recordState id .active
    else { scheduler with preawake := insert id scheduler.preawake }
  else scheduler

/-- `suspend_current` of the current execution. -/
def suspendCurrent (scheduler : Scheduler Id) : Scheduler Id :=
  if scheduler.current.id ∈ scheduler.contexts then
    if scheduler.current.id ∈ scheduler.preawake then
      { scheduler with preawake := scheduler.preawake.erase scheduler.current.id }
    else
      { scheduler.recordState scheduler.current.id .suspended with currentSuspend := true }
  else scheduler

/-- The pre-awake set after `end` has looked there. -/
def preawakeAtEnd (scheduler : Scheduler Id) : Finset Id :=
  if scheduler.currentSuspend then scheduler.preawake.erase scheduler.current.id
  else scheduler.preawake

/-- `end(completed)` of the current execution. -/
def endContext (scheduler : Scheduler Id) (completed : Bool) (execTime : UInt64) : Scheduler Id :=
  let current := scheduler.current
  let tested := { scheduler with preawake := scheduler.preawakeAtEnd }
  if scheduler.currentSuspend = true ∧ current.id ∉ scheduler.preawake ∨ completed = true then
    { tested.recordState current.id .suspended with
      suspended := insert current.id scheduler.suspended, currentSuspend := false }
  else
    { tested.recordState current.id .active with
      suspended := scheduler.suspended.erase current.id
      active := { current with priority := current.priority + execTime } :: scheduler.active
      currentSuspend := false }

/-- The entries that may be on top of the priority queue. -/
def IsTop (scheduler : Scheduler Id) (entry : PrioritiedExecution Id) : Prop :=
  ∀ other ∈ scheduler.active, entry.priority ≤ other.priority

instance (scheduler : Scheduler Id) : DecidablePred scheduler.IsTop :=
  fun _ => inferInstanceAs (Decidable (∀ _, _ → _))

/-- `schedule()` when it yields `id`: of two entries with the same priority, the
queue may have either on top. -/
def schedule (scheduler : Scheduler Id) (id : Id) : Option (Scheduler Id) :=
  (scheduler.active.find? fun entry => entry.id = id ∧ scheduler.IsTop entry).bind fun entry =>
    if id ∈ scheduler.contexts then
      some { scheduler with current := entry, active := scheduler.active.erase entry }
    else none

def hasActiveExecution (scheduler : Scheduler Id) : Bool := !scheduler.active.isEmpty

/-! ## The calls are the operations one after the other -/

/-- The worker runs on without interruption. -/
def WorkerSteps (execTime : UInt64) : Scheduler Id × WorkerPc → Scheduler Id × WorkerPc → Prop :=
  Relation.ReflTransGen fun before after => before.1.workerStep execTime before.2 = some after

/-- A waking thread runs on without interruption. -/
def AwakeSteps : Scheduler Id × AwakePc Id → Scheduler Id × AwakePc Id → Prop :=
  Relation.ReflTransGen fun before after => before.1.awakeStep before.2 = some after

theorem suspendCurrent_steps (scheduler : Scheduler Id) (execTime : UInt64) :
    WorkerSteps execTime (scheduler, .suspendContains) (scheduler.suspendCurrent, .returned) := by
  unfold suspendCurrent
  split
  · rename_i known
    have contains : WorkerSteps execTime (scheduler, .suspendContains)
        (scheduler, .suspendPreawake) := .single (if_pos known)
    split
    · rename_i early
      exact contains.tail (if_pos early)
    · rename_i notEarly
      exact ((contains.tail (if_neg notEarly)).tail rfl).tail rfl
  · rename_i unknown
    exact .single (if_neg unknown)

theorem awakeExecution_steps (scheduler : Scheduler Id) (id : Id) :
    AwakeSteps (scheduler, .contains id) (scheduler.awakeExecution id, .outside) := by
  unfold awakeExecution
  split
  · rename_i known
    have contains : AwakeSteps (scheduler, .contains id) (scheduler, .remove id) :=
      .single (if_pos known)
    split
    · rename_i suspended
      exact ((contains.tail (if_pos suspended)).tail rfl).tail rfl
    · rename_i runnable
      exact (contains.tail (if_neg runnable)).tail rfl
  · rename_i unknown
    exact .single (if_neg unknown)

theorem endContext_steps (scheduler : Scheduler Id) (completed : Bool) (execTime : UInt64) :
    WorkerSteps execTime (scheduler, .endFlag completed)
      (scheduler.endContext completed execTime, .ended) := by
  have one {before after : Scheduler Id × WorkerPc}
      (stepped : before.1.workerStep execTime before.2 = some after) :
      WorkerSteps execTime before after := .single stepped
  have suspends (tested : Scheduler Id) : WorkerSteps execTime (tested, .endInsert)
      ({ tested.recordState tested.current.id .suspended with
        suspended := insert tested.current.id tested.suspended, currentSuspend := false },
        .ended) :=
    ((one rfl).trans (one rfl)).trans (one rfl)
  have queues (tested : Scheduler Id) : WorkerSteps execTime (tested, .endErase)
      ({ tested.recordState tested.current.id .active with
        suspended := tested.suspended.erase tested.current.id
        active :=
          { tested.current with priority := tested.current.priority + execTime } :: tested.active
        currentSuspend := false }, .ended) :=
    (((one rfl).trans (one rfl)).trans (one rfl)).trans (one rfl)
  cases flagged : scheduler.currentSuspend with
  | false =>
      cases completed with
      | false =>
          have tested : WorkerSteps execTime (scheduler, .endFlag false) (scheduler, .endErase) :=
            one (by simp [workerStep, flagged])
          simpa [WorkerSteps, recordState, endContext, preawakeAtEnd, flagged] using
            tested.trans (queues scheduler)
      | true =>
          have tested : WorkerSteps execTime (scheduler, .endFlag true) (scheduler, .endInsert) :=
            one (by simp [workerStep, flagged])
          simpa [WorkerSteps, recordState, endContext, preawakeAtEnd, flagged] using
            tested.trans (suspends scheduler)
  | true =>
      have tested : WorkerSteps execTime (scheduler, .endFlag completed)
          (scheduler, .endPreawake completed) := one (if_pos flagged)
      by_cases early : scheduler.current.id ∈ scheduler.preawake
      · have removed := tested.trans (one (if_pos early))
        cases completed with
        | false =>
            simpa [WorkerSteps, recordState, endContext, preawakeAtEnd, flagged, early] using
              removed.trans (queues _)
        | true =>
            simpa [WorkerSteps, recordState, endContext, preawakeAtEnd, flagged, early] using
              removed.trans (suspends _)
      · have missed := tested.trans (one (if_neg early))
        simpa [WorkerSteps, recordState, endContext, preawakeAtEnd, flagged, early] using
          missed.trans (suspends _)

end Scheduler

/-! ## The calls of a worker -/

/-- A scheduler and the execution whose context is to be ended, with the number
of wake-ups of each execution and of the suspensions that they gave up or ended. -/
structure Run (Id : Type*) where
  scheduler : Scheduler Id
  context : Option Id
  awakes : Id → ℕ
  resumed : Id → ℕ

namespace Run

def empty (current : PrioritiedExecution Id) (domain : Id → ExecutionState) : Run Id where
  scheduler :=
    { current, currentSuspend := false, active := [], suspended := ∅, preawake := ∅,
      contexts := ∅, domain }
  context := none
  awakes _ := 0
  resumed _ := 0

/-- Whether the call takes the branch that gives up or ends a suspension because
of a wake-up. -/
def resumes (run : Run Id) : Event Id → Bool
  | .suspend id => id ∈ run.scheduler.contexts && id ∈ run.scheduler.preawake
  | .finish _ completed _ =>
      !completed && run.scheduler.currentSuspend
        && run.scheduler.current.id ∈ run.scheduler.preawake
  | .awake id => id ∈ run.scheduler.contexts && id ∈ run.scheduler.suspended
  | _ => false

/-- What a call does to the scheduler and to the open context.  A worker that
schedules an execution records it as running. -/
def call (run : Run Id) : Event Id → Option (Scheduler Id × Option Id)
  | .attach id => (run.scheduler.attachExecution id).map fun next => (next, run.context)
  | .schedule id =>
      (run.scheduler.schedule id).map fun next => (next.recordState id .running, some id)
  | .suspend id =>
      -- the assertion that the current execution is suspended
      if run.scheduler.current.id = id then some (run.scheduler.suspendCurrent, run.context)
      else none
  | .finish _ completed execTime =>
      run.context.map fun _ => (run.scheduler.endContext completed execTime, none)
  | .awake id => some (run.scheduler.awakeExecution id, run.context)
  | .detach id => some (run.scheduler.detachSuspendedExecution id, run.context)

def perform (run : Run Id) (event : Event Id) : Option (Run Id) :=
  (run.call event).map fun next =>
    { scheduler := next.1
      context := next.2
      awakes := match event with
        | .awake id => Suspension.count run.awakes id
        | _ => run.awakes
      resumed :=
        if run.resumes event then Suspension.count run.resumed event.id else run.resumed }

/-- The execution is queued, or it runs. -/
def Runnable (run : Run Id) (id : Id) : Prop :=
  id ∈ run.scheduler.active.map (·.id) ∨ run.context = some id

instance (run : Run Id) (id : Id) : Decidable (run.Runnable id) :=
  inferInstanceAs (Decidable (_ ∨ _))

def machine (current : PrioritiedExecution Id) (domain : Id → ExecutionState) :
    Machine (Run Id) (Event Id) where
  start run := run = .empty current domain
  move := perform

end Run

/-- The scheduler after a run represents the abstract scheduler after it. -/
structure Related (run : Run Id) (history : Suspension Id) : Prop where
  consistent : history.Consistent
  contexts : ∀ id, id ∈ run.scheduler.contexts ↔ id ∈ history.attached ∧ id ∉ history.detached
  suspended : ∀ id, id ∈ run.scheduler.suspended ↔
    id ∈ run.scheduler.contexts ∧ id ∉ history.runnable
  queued : ∀ id, id ∈ run.scheduler.active.map (·.id) ↔
    id ∈ history.runnable ∧ history.running ≠ some id
  distinct : (run.scheduler.active.map (·.id)).Nodup
  preawake : run.scheduler.preawake = history.early
  current : ∀ id, history.running = some id → run.scheduler.current.id = id
  flag : run.scheduler.currentSuspend = history.suspending
  context : run.context = history.running
  awakes : run.awakes = history.awakes
  resumed : run.resumed = history.resumed

variable {run next : Run Id} {history nextHistory : Suspension Id} {capacity : ℕ}

theorem Related.context_of_runnable (related : Related run history) {id : Id}
    (runnable : id ∈ history.runnable) : id ∈ run.scheduler.contexts :=
  (related.contexts id).mpr ⟨related.consistent.runnable runnable,
    Finset.disjoint_left.mp related.consistent.apart runnable⟩

theorem related_attach {id : Id} (related : Related run history)
    (called : run.perform (.attach id) = some next)
    (stepped : history.step capacity (.attach id) = some nextHistory) :
    Related next nextHistory := by
  have consistent := Suspension.step_consistent related.consistent stepped
  obtain ⟨⟨fresh, _⟩, ⟨⟩⟩ := Option.ite_none_right_eq_some.mp stepped
  obtain ⟨⟨scheduler, context⟩, made, ⟨⟩⟩ := Option.map_eq_some_iff.mp called
  obtain ⟨_, attaching, ⟨⟩⟩ := Option.map_eq_some_iff.mp made
  simp only [Scheduler.attachExecution] at attaching
  split at attaching
  · contradiction
  · cases attaching
    have undetached : id ∉ history.detached := fun member =>
      fresh (related.consistent.detached member)
    have unknown : id ∉ history.runnable := fun member =>
      fresh (related.consistent.runnable member)
    have unscheduled : history.running ≠ some id :=
      fun running => unknown (related.consistent.running id running)
    have contexts := related.contexts
    have suspended := related.suspended
    have queued := related.queued
    exact { related with
      consistent := consistent
      contexts := fun other => by grind
      suspended := fun other => by grind
      queued := fun other => by
        simp only [List.map_cons, List.mem_cons]
        grind
      distinct := by
        simp only [List.map_cons, List.nodup_cons]
        exact ⟨fun member => unknown ((queued id).mp member).1, related.distinct⟩ }

theorem related_suspend {id : Id} (related : Related run history)
    (called : run.perform (.suspend id) = some next)
    (stepped : history.step capacity (.suspend id) = some nextHistory) :
    Related next nextHistory := by
  have consistent := Suspension.step_consistent related.consistent stepped
  obtain ⟨running, ⟨⟩⟩ := Option.ite_none_right_eq_some.mp stepped
  have current := related.current id running
  have known := related.context_of_runnable (related.consistent.running id running)
  have preawake := related.preawake
  have resumed := related.resumed
  simp only [Run.perform, Run.call, Run.resumes, Scheduler.suspendCurrent, current, if_true, known,
    preawake, decide_true, Bool.true_and, decide_eq_true_eq, Option.map_some,
    Option.some.injEq] at called
  subst called
  unfold Suspension.suspend at consistent ⊢
  by_cases early : id ∈ history.early
  · simp only [early, if_true] at consistent ⊢
    exact { related with
      consistent := consistent
      preawake := by rfl
      resumed := by rw [resumed]; rfl }
  · simp only [early, if_false] at consistent ⊢
    exact { related with
      consistent := consistent
      flag := rfl }

theorem related_finish {id : Id} {completed : Bool} {execTime : UInt64}
    (related : Related run history)
    (called : run.perform (.finish id completed execTime) = some next)
    (stepped : history.step capacity (.finish id completed execTime) = some nextHistory) :
    Related next nextHistory := by
  have consistent := Suspension.step_consistent related.consistent stepped
  obtain ⟨running, ⟨⟩⟩ := Option.ite_none_right_eq_some.mp stepped
  have current := related.current id running
  have runnable := related.consistent.running id running
  have known := related.context_of_runnable runnable
  have preawake := related.preawake
  have flag := related.flag
  have resumed := related.resumed
  have contexts := related.contexts
  have suspended := related.suspended
  have queued := related.queued
  have distinct := related.distinct
  have resumes : (!completed && history.suspending && decide (id ∈ history.early)) = true ↔
      (history.suspending = true ∧ id ∈ history.early) ∧ completed = false := by
    grind
  have looked : (if history.suspending = true then history.early.erase id else history.early) =
      if history.suspending = true ∧ id ∈ history.early then history.early.erase id
      else history.early := by
    by_cases early : id ∈ history.early
    · simp [early]
    · simp [early, Finset.erase_eq_of_notMem]
  simp only [Run.perform, Run.call, Run.resumes, related.context, running, Option.map_some,
    Option.some.injEq, Scheduler.endContext, Scheduler.preawakeAtEnd, current, preawake, flag,
    resumes, looked, Scheduler.recordState] at called
  subst called
  by_cases leaves : history.suspending = true ∧ id ∉ history.early ∨ completed = true
  · have suspends := leaves.symm
    simp only [Suspension.finish, leaves, suspends, if_true] at consistent ⊢
    exact
      { consistent := consistent
        contexts := contexts
        suspended := fun other => by
          simp only [Finset.mem_insert, Finset.mem_erase]
          grind
        queued := fun other => by
          simp only [Finset.mem_erase]
          grind
        distinct := distinct
        preawake := rfl
        current := by simp
        flag := rfl
        context := rfl
        awakes := related.awakes
        resumed := by rw [resumed]; rfl }
  · have stays : ¬ (completed = true ∨ history.suspending = true ∧ id ∉ history.early) :=
      fun suspends => leaves suspends.symm
    simp only [Suspension.finish, leaves, stays, if_false] at consistent ⊢
    exact
      { consistent := consistent
        contexts := contexts
        suspended := fun other => by
          simp only [Finset.mem_erase]
          grind
        queued := fun other => by
          simp only [List.map_cons, List.mem_cons]
          grind
        distinct := by
          simp only [List.map_cons, List.nodup_cons]
          exact ⟨fun member => ((queued id).mp member).2 running, distinct⟩
        preawake := rfl
        current := by simp
        flag := rfl
        context := rfl
        awakes := related.awakes
        resumed := by rw [resumed]; rfl }

theorem related_awake {id : Id} (related : Related run history)
    (called : run.perform (.awake id) = some next)
    (stepped : history.step capacity (.awake id) = some nextHistory) :
    Related next nextHistory := by
  have consistent := Suspension.step_consistent related.consistent stepped
  obtain ⟨attached, ⟨⟩⟩ := Option.ite_none_right_eq_some.mp stepped
  have contexts := related.contexts id
  have suspended := related.suspended
  have queued := related.queued
  have awakes := related.awakes
  have resumed := related.resumed
  simp only [Run.perform, Run.call, Run.resumes, Option.map_some, Option.some.injEq,
    Scheduler.awakeExecution, awakes, resumed] at called
  unfold Suspension.awake at consistent ⊢
  by_cases detached : id ∈ history.detached
  · have unknown : id ∉ run.scheduler.contexts := fun known => (contexts.mp known).2 detached
    simp only [unknown, detached, if_true, if_false] at called consistent ⊢
    subst called
    exact { related with
      consistent := consistent
      awakes := rfl
      resumed := rfl }
  · have known : id ∈ run.scheduler.contexts := contexts.mpr ⟨attached, detached⟩
    by_cases runnable : id ∈ history.runnable
    · have unsuspended : id ∉ run.scheduler.suspended := fun member =>
        ((suspended id).mp member).2 runnable
      simp only [known, unsuspended, detached, runnable, if_true, if_false] at called consistent ⊢
      subst called
      exact { related with
        consistent := consistent
        preawake := congrArg (insert id) related.preawake
        awakes := rfl
        resumed := rfl }
    · have found : id ∈ run.scheduler.suspended := (suspended id).mpr ⟨known, runnable⟩
      have unscheduled : history.running ≠ some id :=
        fun running => runnable (related.consistent.running id running)
      simp only [known, found, detached, runnable, if_true, if_false,
        Scheduler.recordState] at called consistent ⊢
      subst called
      exact { related with
        consistent := consistent
        suspended := fun other => by
          simp only [Finset.mem_erase, Finset.mem_insert]
          grind
        queued := fun other => by
          simp only [List.map_cons, List.mem_cons, Finset.mem_insert]
          grind
        distinct := by
          simp only [List.map_cons, List.nodup_cons]
          exact ⟨fun member => runnable ((queued id).mp member).1, related.distinct⟩
        awakes := rfl
        resumed := rfl }

theorem related_detach {id : Id} (related : Related run history)
    (called : run.perform (.detach id) = some next)
    (stepped : history.step capacity (.detach id) = some nextHistory) :
    Related next nextHistory := by
  have consistent := Suspension.step_consistent related.consistent stepped
  obtain ⟨completed, ⟨⟩⟩ := Option.ite_none_right_eq_some.mp stepped
  have attached := related.consistent.completed completed
  have contexts := related.contexts
  have suspended := related.suspended
  simp only [Run.perform, Run.call, Run.resumes, Option.map_some, Option.some.injEq,
    Scheduler.detachSuspendedExecution, Bool.false_eq_true, if_false] at called
  by_cases runnable : id ∈ history.runnable
  · have unsuspended : id ∉ run.scheduler.suspended := fun member =>
      ((suspended id).mp member).2 runnable
    simp only [runnable, unsuspended, if_true, if_false] at called ⊢
    subst called
    exact related
  · simp only [runnable, if_false] at consistent ⊢
    by_cases found : id ∈ run.scheduler.suspended
    · simp only [found, if_true] at called
      subst called
      exact { related with
        consistent := consistent
        contexts := fun other => by
          simp only [Finset.mem_erase, Finset.mem_insert]
          grind
        suspended := fun other => by
          simp only [Finset.mem_erase]
          grind }
    · simp only [found, if_false] at called
      subst called
      exact { related with
        consistent := consistent
        contexts := fun other => by
          simp only [Finset.mem_insert]
          grind }

/-- `schedule` takes one entry of the execution off the queue. -/
theorem Scheduler.schedule_spec {scheduler next : Scheduler Id} {id : Id}
    (yields : scheduler.schedule id = some next) :
    ∃ entry ∈ scheduler.active, entry.id = id ∧ scheduler.IsTop entry ∧
      next = { scheduler with current := entry, active := scheduler.active.erase entry } := by
  obtain ⟨entry, found, taken⟩ := Option.bind_eq_some_iff.mp yields
  obtain ⟨_, ⟨⟩⟩ := Option.ite_none_right_eq_some.mp taken
  have matched := List.find?_some found
  simp only [decide_eq_true_eq] at matched
  exact ⟨entry, List.mem_of_find?_eq_some found, matched.1, matched.2, rfl⟩

theorem related_schedule {id : Id} (related : Related run history)
    (called : run.perform (.schedule id) = some next)
    (stepped : history.step capacity (.schedule id) = some nextHistory) :
    Related next nextHistory := by
  have consistent := Suspension.step_consistent related.consistent stepped
  obtain ⟨⟨idle, _, runnable⟩, ⟨⟩⟩ := Option.ite_none_right_eq_some.mp stepped
  obtain ⟨⟨scheduler, context⟩, made, ⟨⟩⟩ := Option.map_eq_some_iff.mp called
  obtain ⟨taken, yields, ⟨⟩⟩ := Option.map_eq_some_iff.mp made
  obtain ⟨entry, member, named, _, rfl⟩ := Scheduler.schedule_spec yields
  have taken := (List.perm_cons_erase member).map (·.id)
  have distinct := taken.nodup_iff.mp related.distinct
  simp only [List.map_cons, List.nodup_cons, named] at distinct
  have queued := related.queued
  exact { related with
    consistent := consistent
    queued := fun other => by
      have before := queued other
      rw [taken.mem_iff] at before
      simp only [List.map_cons, List.mem_cons, named] at before
      simp only [Scheduler.recordState]
      grind
    distinct := distinct.2
    current := fun other running => named.trans (Option.some.inj running)
    context := rfl }

theorem simulates (current : PrioritiedExecution Id) (domain : Id → ExecutionState)
    (capacity : ℕ) (guard : Suspension Id → Event Id → Prop) :
    Machine.Simulates (Run.machine current domain) (Suspension.machine capacity) guard Related where
  initial := by
    rintro run history rfl rfl
    exact
      { consistent := Suspension.empty_consistent
        contexts := by simp [Run.empty, Suspension.empty]
        suspended := by simp [Run.empty]
        queued := by simp [Run.empty, Suspension.empty]
        distinct := List.nodup_nil
        preawake := rfl
        current := nofun
        flag := rfl
        context := rfl
        awakes := rfl
        resumed := rfl }
  step run history event next nextHistory related _ called answered := by
    have stepped : history.step capacity event = some nextHistory := answered
    cases event with
    | attach id => exact related_attach related called stepped
    | schedule id => exact related_schedule related called stepped
    | suspend id => exact related_suspend related called stepped
    | finish id completed execTime => exact related_finish related called stepped
    | awake id => exact related_awake related called stepped
    | detach id => exact related_detach related called stepped

/-! ## What the scheduler offers -/

theorem Related.runnable_iff (related : Related run history) (id : Id) :
    run.Runnable id ↔ id ∈ history.runnable := by
  rw [Run.Runnable, related.queued, related.context]
  constructor
  · rintro (⟨runnable, _⟩ | running)
    · exact runnable
    · exact related.consistent.running id running
  · intro runnable
    by_cases running : history.running = some id
    · exact .inr running
    · exact .inl ⟨runnable, running⟩

/-- Whatever entry is on top of the queue, the scheduler yields its execution,
which is attached, active and not detached. -/
theorem Related.schedules_top (related : Related run history) {entry : PrioritiedExecution Id}
    (member : entry ∈ run.scheduler.active) (top : run.scheduler.IsTop entry) :
    (∃ scheduler, run.scheduler.schedule entry.id = some scheduler) ∧
      entry.id ∈ history.attached ∧ entry.id ∉ history.detached ∧ run.Runnable entry.id := by
  have queued : entry.id ∈ run.scheduler.active.map (·.id) := List.mem_map_of_mem member
  have runnable := ((related.queued entry.id).mp queued).1
  have known := related.context_of_runnable runnable
  obtain ⟨attached, undetached⟩ := (related.contexts entry.id).mp known
  refine ⟨?_, attached, undetached, .inl queued⟩
  obtain ⟨found, search⟩ : ∃ found, (run.scheduler.active.find? fun other =>
      other.id = entry.id ∧ run.scheduler.IsTop other) = some found := by
    rw [← Option.isSome_iff_exists, List.find?_isSome]
    exact ⟨entry, member, by simp [top]⟩
  rw [Scheduler.schedule, search, Option.bind_some, if_pos known]
  exact ⟨_, rfl⟩

theorem exists_top {scheduler : Scheduler Id} (hasActive : scheduler.hasActiveExecution = true) :
    ∃ entry ∈ scheduler.active, scheduler.IsTop entry := by
  have nonempty : scheduler.active.toFinset.Nonempty := by
    rw [List.toFinset_nonempty_iff]
    rintro empty
    simp [Scheduler.hasActiveExecution, empty] at hasActive
  obtain ⟨entry, member, least⟩ :=
    scheduler.active.toFinset.exists_min_image (·.priority.toNat) nonempty
  exact ⟨entry, List.mem_toFinset.mp member, fun other queued =>
    UInt64.le_iff_toNat_le.mpr (least other (List.mem_toFinset.mpr queued))⟩

end Asco.Core.Task.DynprioScheduler
