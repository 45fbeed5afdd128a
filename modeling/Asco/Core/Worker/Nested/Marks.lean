import Asco.Core.Worker.Nested.Root

namespace Asco.Core.Worker.Nested

open Foundation Asco.Core.Task Asco.Core.Task.DynprioScheduler

/-! # The suspension of the current execution of the root domain

How far the worker has come in suspending its current execution, and what this
says about an execution that a wake-up looks for.
-/

variable {Thread Id : Type*} [DecidableEq Id]

/-- The places at which `suspend_current` has yet to record the state. -/
def records : WorkerPc → Bool
  | .suspendContains | .suspendPreawake | .suspendDomain => true
  | _ => false

/-- The worker is about to put its current execution into the suspended set. -/
def decides : WorkerPc → Bool
  | .endInsert => true
  | _ => false

/-- The state of the current execution is recorded as suspended, and stays so
unless `end` finds an early wake-up. -/
def marks (scheduler : Scheduler Id) : WorkerPc → Bool
  | .suspendFlag | .endPreawake _ | .endInsert => true
  | .returned | .endFlag _ => scheduler.currentSuspend
  | _ => false

/-- The worker stands at such a place with its current execution. -/
def At (worker : Worker.State Thread Id) (id : Id) (place : WorkerPc → Bool) : Prop :=
  worker.current = id ∧ match worker.place with
    | .executing pc _ => place pc = true
    | _ => False

instance (worker : Worker.State Thread Id) (id : Id) (place : WorkerPc → Bool) :
    Decidable (At worker id place) := by
  unfold At
  exact @instDecidableAnd _ _ _ (by split <;> infer_instance)

/-- An execution of the root domain is suspended, or is about to be. -/
def Marked (worker : Worker.State Thread Id) (id : Id) : Prop :=
  id ∈ worker.scheduler.suspended ∨ At worker id (marks worker.scheduler)

/-- An early wake-up comes too late for the execution. -/
def Decided (worker : Worker.State Thread Id) (id : Id) : Prop :=
  id ∈ worker.scheduler.suspended ∨ At worker id decides

instance (worker : Worker.State Thread Id) : DecidablePred (Marked worker) :=
  fun _ => inferInstanceAs (Decidable (_ ∨ _))

instance (worker : Worker.State Thread Id) : DecidablePred (Decided worker) :=
  fun _ => inferInstanceAs (Decidable (_ ∨ _))

variable {worker after : Worker.State Thread Id} {id : Id}

/-- What a step of the worker in the root scheduler does to an execution there. -/
structure Moves (worker after : Worker.State Thread Id) (id : Id) : Prop where
  recorded : (Marked worker id → worker.scheduler.domain id = .suspended) →
    Marked after id → after.scheduler.domain id = .suspended
  marked : Marked after id → Marked worker id ∨ At worker id records
  window : At after id records → At worker id records
  early : At after id records ∨ Marked after id →
    id ∈ worker.scheduler.preawake ∧ ¬ Decided worker id →
    id ∈ after.scheduler.preawake ∧ ¬ Decided after id

/-- What a step records of the current execution. -/
theorem schedulerStep_domain {scheduler after : Scheduler Id} {pc finish : WorkerPc}
    {execTime : UInt64} (stepped : scheduler.workerStep execTime pc = some (after, finish)) :
    after.domain = scheduler.domain ∧ pc ≠ .suspendDomain ∧ pc ≠ .endDomainActivate ∨
      after.domain = Function.update scheduler.domain scheduler.current.id .suspended ∨
      after.domain = Function.update scheduler.domain scheduler.current.id .active ∧
        pc = .endDomainActivate := by
  cases Scheduler.workerStep_cases stepped with
  | endDomainActivate => exact .inr (.inr ⟨rfl, rfl⟩)
  | suspendDomain => exact .inr (.inl rfl)
  | endDomainSuspend => exact .inr (.inl rfl)
  | _ => exact .inl ⟨rfl, by simp, by simp⟩

/-- A step concerns the current execution only. -/
theorem schedulerStep_others {scheduler after : Scheduler Id} {pc finish : WorkerPc}
    {execTime : UInt64} (stepped : scheduler.workerStep execTime pc = some (after, finish))
    (different : id ≠ scheduler.current.id) :
    (id ∈ after.suspended ↔ id ∈ scheduler.suspended) ∧
      (id ∈ after.preawake ↔ id ∈ scheduler.preawake) ∧ after.domain id = scheduler.domain id := by
  refine ⟨?_, ?_, ?_⟩
  · cases Scheduler.workerStep_cases stepped with
    | endInsert => simp [different]
    | endErase => simp [different]
    | _ => exact Iff.rfl
  · cases Scheduler.workerStep_cases stepped with
    | stays early => simp [different]
    | completesEarly early => simp [different]
    | yieldsEarly early => simp [different]
    | _ => exact Iff.rfl
  · rcases schedulerStep_domain stepped with ⟨same, _⟩ | recorded | ⟨recorded, _⟩
    · rw [same]
    · rw [recorded, Function.update_of_ne different]
    · rw [recorded, Function.update_of_ne different]

/-- The current execution comes to be suspended, or about to be, by recording it. -/
theorem schedulerStep_marks {scheduler after : Scheduler Id} {pc finish : WorkerPc}
    {execTime : UInt64} (stepped : scheduler.workerStep execTime pc = some (after, finish))
    (flag : scheduler.currentSuspend = true → flags pc = true)
    (completes : pc ≠ .endFlag true ∧ pc ≠ .endPreawake true)
    (marked : scheduler.current.id ∈ after.suspended ∨ marks after finish = true) :
    (scheduler.current.id ∈ scheduler.suspended ∨ marks scheduler pc = true) ∨
      pc = .suspendDomain := by
  cases Scheduler.workerStep_cases stepped with
  | suspendDomain => exact .inr rfl
  | unknown unknown =>
      exact .inl (marked.imp_right fun asks => absurd (flag asks) (by simp [flags]))
  | stays early => exact .inl (marked.imp_right fun asks => absurd (flag asks) (by simp [flags]))
  | suspendFlag => exact .inl (.inr rfl)
  | returned => exact .inl marked
  | flagged completed flagged => exact .inl (.inr flagged)
  | completes unflagged => exact absurd rfl completes.1
  | completesEarly early => exact absurd rfl completes.2
  | decides completed unawoken => exact .inl (.inr rfl)
  | endInsert => exact .inl (.inr rfl)
  | endErase =>
      have rests := marked.resolve_right (by simp [marks])
      exact absurd rests (Finset.notMem_erase _ _)
  | _ => exact .inl (.inl (marked.resolve_right (by simp [marks])))

/-- A step that leaves the current execution suspended, or about to be, leaves
that recorded. -/
theorem schedulerStep_recorded {scheduler after : Scheduler Id} {pc finish : WorkerPc}
    {execTime : UInt64} (stepped : scheduler.workerStep execTime pc = some (after, finish))
    (flag : scheduler.currentSuspend = true → flags pc = true)
    (free : queues pc = true → scheduler.current.id ∉ scheduler.suspended)
    (completes : pc ≠ .endFlag true ∧ pc ≠ .endPreawake true)
    (recorded : scheduler.current.id ∈ scheduler.suspended ∨ marks scheduler pc = true →
      scheduler.domain scheduler.current.id = .suspended)
    (marked : scheduler.current.id ∈ after.suspended ∨ marks after finish = true) :
    after.domain scheduler.current.id = .suspended := by
  rcases schedulerStep_domain stepped with ⟨same, unrecorded, _⟩ | suspended | ⟨_, rfl⟩
  · rw [same]
    exact recorded ((schedulerStep_marks stepped flag completes marked).resolve_right unrecorded)
  · rw [suspended, Function.update_self]
  · cases stepped
    exact absurd (marked.resolve_right (by simp [marks])) (free rfl)

theorem schedulerStep_marked {scheduler after : Scheduler Id} {pc finish : WorkerPc}
    {execTime : UInt64} (stepped : scheduler.workerStep execTime pc = some (after, finish))
    (flag : scheduler.currentSuspend = true → flags pc = true)
    (completes : pc ≠ .endFlag true ∧ pc ≠ .endPreawake true) :
    (records finish = true → pc ≠ .running → records pc = true) ∧
      (scheduler.current.id ∈ after.suspended ∨ marks after finish = true →
        (scheduler.current.id ∈ scheduler.suspended ∨ marks scheduler pc = true) ∨
          records pc = true) := by
  constructor
  · intro recording started
    cases Scheduler.workerStep_cases stepped with
    | running => exact absurd rfl started
    | known known => rfl
    | suspends unawoken => rfl
    | _ => contradiction
  · intro marked
    refine (schedulerStep_marks stepped flag completes marked).imp_right ?_
    rintro rfl
    rfl

/-- An early wake-up is still there as long as it can be found. -/
theorem schedulerStep_early {scheduler after : Scheduler Id} {pc finish : WorkerPc}
    {execTime : UInt64} (stepped : scheduler.workerStep execTime pc = some (after, finish))
    (flag : scheduler.currentSuspend = true → flags pc = true)
    (completes : pc ≠ .endFlag true ∧ pc ≠ .endPreawake true)
    (kept : records finish = true ∨ scheduler.current.id ∈ after.suspended ∨
      marks after finish = true)
    (early : scheduler.current.id ∈ scheduler.preawake)
    (undecided : scheduler.current.id ∉ scheduler.suspended ∧ decides pc = false) :
    scheduler.current.id ∈ after.preawake ∧ scheduler.current.id ∉ after.suspended ∧
      decides finish = false := by
  obtain ⟨awake, unsettled⟩ := undecided
  cases Scheduler.workerStep_cases stepped with
  | stays taken =>
      have asks := (kept.resolve_left (by simp [records])).resolve_left awake
      exact absurd (flag asks) (by simp [flags])
  | yieldsEarly taken => simp [records, marks, awake] at kept
  | completes unflagged => exact absurd rfl completes.1
  | completesEarly taken => exact absurd rfl completes.2
  | decides completed unawoken => exact absurd early unawoken
  | endInsert => contradiction
  | endErase => exact ⟨early, Finset.notMem_erase _ _, rfl⟩
  | _ => exact ⟨early, awake, rfl⟩

omit [DecidableEq Id] in
theorem at_executing {pc : WorkerPc} {completing : Bool} {place : WorkerPc → Bool}
    (executes : worker.place = .executing pc completing) :
    At worker id place ↔ worker.current = id ∧ place pc = true := by
  simp only [At, executes]

omit [DecidableEq Id] in
/-- A step that leaves the sets alone, or takes the execution out of the suspended
ones, and after which the worker is not about to suspend it. -/
theorem Moves.of_away
    (suspended : id ∈ after.scheduler.suspended → id ∈ worker.scheduler.suspended)
    (preawake : after.scheduler.preawake = worker.scheduler.preawake)
    (recorded : id ∈ worker.scheduler.suspended →
      after.scheduler.domain id = worker.scheduler.domain id)
    (place : ∀ pc completing, after.place = .executing pc completing →
      records pc = false ∧ decides pc = false ∧ marks after.scheduler pc = false) :
    Moves worker after id := by
  have away (stands : WorkerPc → Bool) (calm : ∀ pc completing,
      after.place = .executing pc completing → stands pc = false) : ¬ At after id stands := by
    intro here
    obtain ⟨_, here⟩ := here
    split at here
    · rename_i pc completing executes
      simp [calm pc completing executes] at here
    · exact here
  have unrecorded := away records fun pc completing executes => (place pc completing executes).1
  have undecided := away decides fun pc completing executes => (place pc completing executes).2.1
  have unmarked := away (marks after.scheduler) fun pc completing executes =>
    (place pc completing executes).2.2
  constructor
  · intro before marked
    have rests := suspended (marked.resolve_right unmarked)
    rw [recorded rests]
    exact before (.inl rests)
  · exact fun marked => .inl (.inl (suspended (marked.resolve_right unmarked)))
  · exact fun here => absurd here unrecorded
  · intro _ early
    rw [preawake]
    exact ⟨early.1, fun decided => early.2 (.inl (suspended (decided.resolve_right undecided)))⟩

/-- A step inside `suspend_current` or `end`. -/
theorem executing_moves {scheduler : Scheduler Id} {pc finish : WorkerPc} {completing : Bool}
    {execTime : UInt64} (executes : worker.place = .executing pc completing)
    (running : pc ≠ .running)
    (flag : worker.scheduler.currentSuspend = true → flags pc = true)
    (free : queues pc = true → worker.current ∉ worker.scheduler.suspended)
    (leaf : finishes pc = true → worker.current ≠ id)
    (stepped : worker.scheduler.workerStep execTime pc = some (scheduler, finish)) :
    Moves worker { worker with scheduler, place := .executing finish completing } id := by
  have current : scheduler.current = worker.scheduler.current :=
    (Scheduler.workerStep_keeps stepped).1
  have before (place : WorkerPc → Bool) : At worker id place ↔
      worker.current = id ∧ place pc = true := at_executing executes
  have behind (place : WorkerPc → Bool) :
      At { worker with scheduler, place := .executing finish completing } id place ↔
        worker.current = id ∧ place finish = true := by
    rw [at_executing rfl, Worker.State.current, Worker.State.current, current]
  by_cases here : worker.current = id
  · have completes : pc ≠ .endFlag true ∧ pc ≠ .endPreawake true := by
      constructor <;> rintro rfl <;> exact leaf rfl here
    have recorded := schedulerStep_recorded stepped flag free completes
    obtain ⟨records, marked⟩ := schedulerStep_marked stepped flag completes
    have early := schedulerStep_early stepped flag completes
    subst here
    constructor
    all_goals simp only [Marked, Decided, before, behind, true_and]
    · exact recorded
    · exact marked
    · exact fun here => records here running
    · intro kept found
      obtain ⟨member, undecided⟩ := found
      rw [not_or, Bool.not_eq_true] at undecided ⊢
      exact early kept member undecided
  · have different : id ≠ worker.scheduler.current.id := Ne.symm here
    obtain ⟨suspended, preawake, recorded⟩ := schedulerStep_others stepped different
    constructor
    all_goals simp only [Marked, Decided, before, behind, here, false_and, or_false, suspended,
      preawake, recorded]
    · exact fun before => before
    · exact fun marked => marked
    · exact fun absurd => absurd
    · exact fun _ early => early

theorem workerStep_moves {execTime : UInt64} (asked : Asked worker)
    (leaf : ∀ pc, worker.place = .executing pc true → worker.current ≠ id)
    (stepped : worker.workerStep execTime = some after) : Moves worker after id := by
  cases Worker.State.workerStep_cases stepped with
  | ended stands =>
      exact Moves.of_away (fun rests => rests) rfl (fun _ => rfl) (by dsimp only; split <;> simp)
  | @executes pc finish completing scheduler stands running returned inside =>
      have flag : worker.scheduler.currentSuspend = true → flags pc = true := by
        intro asks
        obtain ⟨_, _, executes, flagged⟩ := asked.flag asks
        cases stands.symm.trans executes
        exact flagged
      exact executing_moves stands running flag (asked.free pc completing stands)
        (fun finishing => leaf _ (asked.done _ _ stands finishing ▸ stands)) inside
  | detachSuspended stands suspended =>
      exact Moves.of_away Finset.mem_of_mem_erase rfl (fun _ => rfl) (by simp)
  | _ => exact Moves.of_away (fun rests => rests) rfl (fun _ => rfl) (by simp)

/-- An execution that gives the worker back is suspended by `end` exactly if it has
asked for it. -/
theorem leave_moves {completed : Bool} (asked : Asked worker)
    (moved : worker.leave completed = some after) : Moves worker after id := by
  obtain ⟨pc, completing, waits, executes, left, rfl⟩ := leave_cases moved
  rcases left with rfl | rfl
  · have calm : worker.scheduler.currentSuspend = false := by
      refine asked.calm fun other _ stands => ?_
      cases executes.symm.trans stands
      rfl
    refine Moves.of_away (fun rests => rests) rfl (fun _ => rfl) ?_
    rintro pc completing ⟨⟩
    exact ⟨rfl, rfl, calm⟩
  · have before (place : WorkerPc → Bool) : At worker id place ↔
        worker.current = id ∧ place .returned = true := at_executing executes
    have behind (place : WorkerPc → Bool) :
        At { worker with waits, place := .executing (.endFlag completed) completed } id place ↔
          worker.current = id ∧ place (.endFlag completed) = true := at_executing rfl
    constructor
    all_goals simp only [Marked, Decided, before, behind, marks, records, decides,
      Bool.false_eq_true, and_false, or_false]
    · exact fun recorded => recorded
    · exact fun marked => marked
    · exact fun absurd => absurd
    · exact fun _ early => early

end Asco.Core.Worker.Nested
