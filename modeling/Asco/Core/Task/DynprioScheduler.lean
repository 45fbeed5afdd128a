import Asco.Foundation.Machine

namespace Asco.Core.Task.DynprioScheduler

open Foundation

/-! # `dynprio_scheduler`: suspending and waking one execution

The scheduler of a worker is touched by the worker itself and by every thread
that holds a token of one of its executions.  Each operation on one of its
containers is one step.  The scheduler belongs to the root domain of a worker,
which has no parent domain to wake.
-/

inductive ExecutionState where
  | active
  | running
  | suspended
deriving DecidableEq

/-- `prioritied_execution`. -/
structure PrioritiedExecution (Id : Type*) where
  id : Id
  priority : UInt64
deriving DecidableEq

/-- The fields of the scheduler, with the states its domain records. -/
structure Scheduler (Id : Type*) where
  current : PrioritiedExecution Id
  currentSuspend : Bool
  active : List (PrioritiedExecution Id)
  suspended : Finset Id
  preawake : Finset Id
  contexts : Finset Id
  domain : Id → ExecutionState

/-- The worker inside `suspend_current(id)` and then inside `end(completed)`
for the execution it is running. -/
inductive WorkerPc where
  | running
  | suspendContains
  | suspendPreawake
  | suspendDomain
  | suspendFlag
  | returned
  | endFlag (completed : Bool)
  | endPreawake (completed : Bool)
  | endInsert
  | endDomainSuspend
  | endErase
  | endPush
  | endDomainActivate
  | endClear
  | ended
deriving DecidableEq

/-- A thread inside `awake_execution(id)`. -/
inductive AwakePc (Id : Type*) where
  | outside
  | contains (id : Id)
  | remove (id : Id)
  | push (id : Id)
  | activate (id : Id)
  | preawake (id : Id)
deriving DecidableEq

variable {Id : Type*} [DecidableEq Id]

namespace Scheduler

def recordState (scheduler : Scheduler Id) (id : Id) (state : ExecutionState) : Scheduler Id :=
  { scheduler with domain := Function.update scheduler.domain id state }

/-- One step of the worker; `execTime` is the measured running time. -/
def workerStep (scheduler : Scheduler Id) (execTime : UInt64) :
    WorkerPc → Option (Scheduler Id × WorkerPc)
  | .running => some (scheduler, .suspendContains)
  | .suspendContains =>
      if scheduler.current.id ∈ scheduler.contexts then some (scheduler, .suspendPreawake)
      else some (scheduler, .returned)
  | .suspendPreawake =>
      if scheduler.current.id ∈ scheduler.preawake then
        some ({ scheduler with preawake := scheduler.preawake.erase scheduler.current.id },
          .returned)
      else some (scheduler, .suspendDomain)
  | .suspendDomain => some (scheduler.recordState scheduler.current.id .suspended, .suspendFlag)
  | .suspendFlag => some ({ scheduler with currentSuspend := true }, .returned)
  | .returned => some (scheduler, .endFlag false)
  | .endFlag completed =>
      if scheduler.currentSuspend then some (scheduler, .endPreawake completed)
      else if completed then some (scheduler, .endInsert)
      else some (scheduler, .endErase)
  | .endPreawake completed =>
      if scheduler.current.id ∈ scheduler.preawake then
        some ({ scheduler with preawake := scheduler.preawake.erase scheduler.current.id },
          if completed then .endInsert else .endErase)
      else some (scheduler, .endInsert)
  | .endInsert =>
      some ({ scheduler with suspended := insert scheduler.current.id scheduler.suspended },
        .endDomainSuspend)
  | .endDomainSuspend => some (scheduler.recordState scheduler.current.id .suspended, .endClear)
  | .endErase =>
      some ({ scheduler with suspended := scheduler.suspended.erase scheduler.current.id },
        .endPush)
  | .endPush =>
      some ({ scheduler with
        active := { scheduler.current with priority := scheduler.current.priority + execTime } ::
          scheduler.active }, .endDomainActivate)
  | .endDomainActivate => some (scheduler.recordState scheduler.current.id .active, .endClear)
  | .endClear => some ({ scheduler with currentSuspend := false }, .ended)
  | .ended => none

/-- One step of a thread inside `awake_execution`. -/
def awakeStep (scheduler : Scheduler Id) : AwakePc Id → Option (Scheduler Id × AwakePc Id)
  | .outside => none
  | .contains id =>
      if id ∈ scheduler.contexts then some (scheduler, .remove id) else some (scheduler, .outside)
  | .remove id =>
      if id ∈ scheduler.suspended then
        some ({ scheduler with suspended := scheduler.suspended.erase id }, .push id)
      else some (scheduler, .preawake id)
  | .push id =>
      some ({ scheduler with active := { id, priority := 0 } :: scheduler.active }, .activate id)
  | .activate id => some (scheduler.recordState id .active, .outside)
  | .preawake id =>
      some ({ scheduler with preawake := insert id scheduler.preawake }, .outside)

/-- The branches of `workerStep`. -/
inductive WorkerStep (scheduler : Scheduler Id) (execTime : UInt64) :
    WorkerPc → Scheduler Id → WorkerPc → Prop where
  | running : WorkerStep scheduler execTime .running scheduler .suspendContains
  | unknown (unknown : scheduler.current.id ∉ scheduler.contexts) :
      WorkerStep scheduler execTime .suspendContains scheduler .returned
  | known (known : scheduler.current.id ∈ scheduler.contexts) :
      WorkerStep scheduler execTime .suspendContains scheduler .suspendPreawake
  | stays (early : scheduler.current.id ∈ scheduler.preawake) :
      WorkerStep scheduler execTime .suspendPreawake
        { scheduler with preawake := scheduler.preawake.erase scheduler.current.id } .returned
  | suspends (unawoken : scheduler.current.id ∉ scheduler.preawake) :
      WorkerStep scheduler execTime .suspendPreawake scheduler .suspendDomain
  | suspendDomain :
      WorkerStep scheduler execTime .suspendDomain
        (scheduler.recordState scheduler.current.id .suspended) .suspendFlag
  | suspendFlag :
      WorkerStep scheduler execTime .suspendFlag { scheduler with currentSuspend := true } .returned
  | returned : WorkerStep scheduler execTime .returned scheduler (.endFlag false)
  | flagged (completed : Bool) (flagged : scheduler.currentSuspend = true) :
      WorkerStep scheduler execTime (.endFlag completed) scheduler (.endPreawake completed)
  | completes (unflagged : scheduler.currentSuspend = false) :
      WorkerStep scheduler execTime (.endFlag true) scheduler .endInsert
  | yields (unflagged : scheduler.currentSuspend = false) :
      WorkerStep scheduler execTime (.endFlag false) scheduler .endErase
  | completesEarly (early : scheduler.current.id ∈ scheduler.preawake) :
      WorkerStep scheduler execTime (.endPreawake true)
        { scheduler with preawake := scheduler.preawake.erase scheduler.current.id } .endInsert
  | yieldsEarly (early : scheduler.current.id ∈ scheduler.preawake) :
      WorkerStep scheduler execTime (.endPreawake false)
        { scheduler with preawake := scheduler.preawake.erase scheduler.current.id } .endErase
  | decides (completed : Bool) (unawoken : scheduler.current.id ∉ scheduler.preawake) :
      WorkerStep scheduler execTime (.endPreawake completed) scheduler .endInsert
  | endInsert :
      WorkerStep scheduler execTime .endInsert
        { scheduler with suspended := insert scheduler.current.id scheduler.suspended }
        .endDomainSuspend
  | endDomainSuspend :
      WorkerStep scheduler execTime .endDomainSuspend
        (scheduler.recordState scheduler.current.id .suspended) .endClear
  | endErase :
      WorkerStep scheduler execTime .endErase
        { scheduler with suspended := scheduler.suspended.erase scheduler.current.id } .endPush
  | endPush :
      WorkerStep scheduler execTime .endPush
        { scheduler with
          active := { scheduler.current with priority := scheduler.current.priority + execTime } ::
            scheduler.active } .endDomainActivate
  | endDomainActivate :
      WorkerStep scheduler execTime .endDomainActivate
        (scheduler.recordState scheduler.current.id .active) .endClear
  | endClear :
      WorkerStep scheduler execTime .endClear { scheduler with currentSuspend := false } .ended

/-- The branches of `awakeStep`. -/
inductive AwakeStep (scheduler : Scheduler Id) : AwakePc Id → Scheduler Id → AwakePc Id → Prop where
  | unknown {id : Id} (unknown : id ∉ scheduler.contexts) :
      AwakeStep scheduler (.contains id) scheduler .outside
  | known {id : Id} (known : id ∈ scheduler.contexts) :
      AwakeStep scheduler (.contains id) scheduler (.remove id)
  | takes {id : Id} (suspended : id ∈ scheduler.suspended) :
      AwakeStep scheduler (.remove id)
        { scheduler with suspended := scheduler.suspended.erase id } (.push id)
  | misses {id : Id} (awake : id ∉ scheduler.suspended) :
      AwakeStep scheduler (.remove id) scheduler (.preawake id)
  | push {id : Id} :
      AwakeStep scheduler (.push id)
        { scheduler with active := { id, priority := 0 } :: scheduler.active } (.activate id)
  | activate {id : Id} :
      AwakeStep scheduler (.activate id) (scheduler.recordState id .active) .outside
  | preawake {id : Id} :
      AwakeStep scheduler (.preawake id)
        { scheduler with preawake := insert id scheduler.preawake } .outside

variable {scheduler next : Scheduler Id}

theorem workerStep_cases {execTime : UInt64} {pc finish : WorkerPc}
    (stepped : scheduler.workerStep execTime pc = some (next, finish)) :
    WorkerStep scheduler execTime pc next finish := by
  cases pc with
  | running =>
      cases stepped
      exact .running
  | suspendContains =>
      simp only [workerStep] at stepped
      split at stepped <;> cases stepped
      · exact .known ‹_›
      · exact .unknown ‹_›
  | suspendPreawake =>
      simp only [workerStep] at stepped
      split at stepped <;> cases stepped
      · exact .stays ‹_›
      · exact .suspends ‹_›
  | suspendDomain =>
      cases stepped
      exact .suspendDomain
  | suspendFlag =>
      cases stepped
      exact .suspendFlag
  | returned =>
      cases stepped
      exact .returned
  | endFlag completed =>
      simp only [workerStep] at stepped
      split at stepped
      · cases stepped
        exact .flagged completed ‹_›
      · rename_i unflagged
        cases completed <;> cases stepped
        · exact .yields (by simpa using unflagged)
        · exact .completes (by simpa using unflagged)
  | endPreawake completed =>
      simp only [workerStep] at stepped
      split at stepped
      · cases completed <;> cases stepped
        · exact .yieldsEarly ‹_›
        · exact .completesEarly ‹_›
      · cases stepped
        exact .decides completed ‹_›
  | endInsert =>
      cases stepped
      exact .endInsert
  | endDomainSuspend =>
      cases stepped
      exact .endDomainSuspend
  | endErase =>
      cases stepped
      exact .endErase
  | endPush =>
      cases stepped
      exact .endPush
  | endDomainActivate =>
      cases stepped
      exact .endDomainActivate
  | endClear =>
      cases stepped
      exact .endClear
  | ended => contradiction

theorem awakeStep_cases {place finish : AwakePc Id}
    (stepped : scheduler.awakeStep place = some (next, finish)) :
    AwakeStep scheduler place next finish := by
  cases place with
  | outside => contradiction
  | contains id =>
      simp only [awakeStep] at stepped
      split at stepped <;> cases stepped
      · exact .known ‹_›
      · exact .unknown ‹_›
  | remove id =>
      simp only [awakeStep] at stepped
      split at stepped <;> cases stepped
      · exact .takes ‹_›
      · exact .misses ‹_›
  | push id =>
      cases stepped
      exact .push
  | activate id =>
      cases stepped
      exact .activate
  | preawake id =>
      cases stepped
      exact .preawake

theorem workerStep_keeps {execTime : UInt64} {pc finish : WorkerPc}
    (stepped : scheduler.workerStep execTime pc = some (next, finish)) :
    next.current = scheduler.current ∧ next.contexts = scheduler.contexts := by
  cases workerStep_cases stepped <;> exact ⟨rfl, rfl⟩

theorem awakeStep_keeps {place finish : AwakePc Id}
    (stepped : scheduler.awakeStep place = some (next, finish)) :
    next.current = scheduler.current ∧ next.contexts = scheduler.contexts ∧
      next.currentSuspend = scheduler.currentSuspend := by
  cases awakeStep_cases stepped <;> exact ⟨rfl, rfl, rfl⟩

end Scheduler

/-- `suspend_current` has returned. -/
def WorkerPc.isReturned : WorkerPc → Bool
  | .running | .suspendContains | .suspendPreawake | .suspendDomain | .suspendFlag => false
  | _ => true

/-- One worker and the threads waking executions.  `late` records that a call
of `awake_execution` for the running execution began after `suspend_current`
had returned. -/
structure State (Thread Id : Type*) where
  scheduler : Scheduler Id
  worker : WorkerPc
  awakers : Thread → AwakePc Id
  late : Bool

inductive Label (Thread Id : Type*) where
  | worker (execTime : UInt64)
  | awake (thread : Thread) (id : Id)
  | awaker (thread : Thread)

variable {Thread : Type*} [DecidableEq Thread]

def State.move (state : State Thread Id) : Label Thread Id → Option (State Thread Id)
  | .worker execTime =>
      (state.scheduler.workerStep execTime state.worker).map fun next =>
        { state with scheduler := next.1, worker := next.2 }
  | .awake thread id =>
      if state.awakers thread = .outside then
        some { state with
          awakers := Function.update state.awakers thread (.contains id),
          late := state.late || (state.worker.isReturned && id == state.scheduler.current.id) }
      else none
  | .awaker thread =>
      (state.scheduler.awakeStep (state.awakers thread)).map fun next =>
        { state with
          scheduler := next.1, awakers := Function.update state.awakers thread next.2 }

/-- The worker is about to suspend the execution it runs, which no scheduler
set but possibly the pre-awake set mentions. -/
def State.Starts (state : State Thread Id) : Prop :=
  state.worker = .running ∧ (∀ thread, state.awakers thread = .outside) ∧ state.late = false ∧
    state.scheduler.currentSuspend = false ∧
    state.scheduler.current.id ∉ state.scheduler.suspended

def machine (Thread Id : Type*) [DecidableEq Thread] [DecidableEq Id] :
    Machine (State Thread Id) (Label Thread Id) where
  start := State.Starts
  move := State.move

def State.AllReturned (state : State Thread Id) : Prop :=
  state.worker = .ended ∧ ∀ thread, state.awakers thread = .outside

instance [Fintype Thread] : DecidablePred (@State.AllReturned Id Thread) :=
  fun _ => inferInstanceAs (Decidable (_ ∧ _))

/-- No wake-up is lost: with every call returned and one wake-up begun after
the suspension, the execution is queued and not left suspended. -/
def State.WokenUp (state : State Thread Id) : Prop :=
  state.AllReturned → state.late = true →
    (∃ queued ∈ state.scheduler.active, queued.id = state.scheduler.current.id) ∧
      state.scheduler.current.id ∉ state.scheduler.suspended

/-- `awake_execution` does not put the running execution into the pre-awake set
once `end()` has decided to suspend it: neither between the failed test of that
set and the insertion into the suspended set, nor while it is suspended. -/
def PreawakeInTime (state : State Thread Id) : Label Thread Id → Prop
  | .awaker thread =>
      state.awakers thread = .preawake state.scheduler.current.id →
        state.worker ≠ .endInsert ∧ state.scheduler.current.id ∉ state.scheduler.suspended
  | _ => True

instance : DecidableRel (@PreawakeInTime Id Thread)
  | state, .awaker thread =>
      inferInstanceAs (Decidable
        (state.awakers thread = .preawake state.scheduler.current.id →
          state.worker ≠ .endInsert ∧ state.scheduler.current.id ∉ state.scheduler.suspended))
  | _, .worker _ => isTrue trivial
  | _, .awake _ _ => isTrue trivial

/-! ## Where a wake-up is between its first step and the worker's decision -/

/-- The thread is inside `awake_execution(id)` and has not found `id` suspended. -/
@[simp]
def AwakePc.Pending (id : Id) (pc : AwakePc Id) : Prop :=
  pc = .contains id ∨ pc = .remove id ∨ pc = .preawake id

/-- The thread has taken `id` out of the suspended set and is about to queue it. -/
@[simp]
def AwakePc.Pushing (id : Id) (pc : AwakePc Id) : Prop := pc = .push id

namespace State

variable (state : State Thread Id)

def running : Id := state.scheduler.current.id

def Queued : Prop := ∃ queued ∈ state.scheduler.active, queued.id = state.running

def Pending : Prop := ∃ thread, (state.awakers thread).Pending state.running

def Pushing : Prop := ∃ thread, (state.awakers thread).Pushing state.running

/-- Before the worker tests the pre-awake set for the last time, a late
wake-up is still on its way or already in that set. -/
def Announced : Prop :=
  state.running ∉ state.scheduler.suspended ∧
    (state.scheduler.currentSuspend = true → state.running ∈ state.scheduler.contexts ∧
      (state.late = true → state.Pending ∨ state.running ∈ state.scheduler.preawake))

/-- After the decision, a suspended execution is still to be found by the late
wake-up, and one that is not suspended is queued or about to be. -/
def Settled : Prop :=
  (state.running ∈ state.scheduler.suspended → state.running ∈ state.scheduler.contexts ∧
    (state.late = true → state.Pending)) ∧
  (state.running ∉ state.scheduler.suspended → state.Queued ∨ state.Pushing)

/-- The invariant, phase by phase of the worker. -/
def Invariant : Prop :=
  match state.worker with
  | .running | .suspendContains =>
      state.running ∉ state.scheduler.suspended ∧ state.late = false ∧
        state.scheduler.currentSuspend = false
  | .suspendPreawake | .suspendDomain | .suspendFlag =>
      state.running ∉ state.scheduler.suspended ∧ state.late = false ∧
        state.scheduler.currentSuspend = false ∧ state.running ∈ state.scheduler.contexts
  | .returned | .endFlag false => state.Announced
  | .endPreawake false => state.Announced ∧ state.scheduler.currentSuspend = true
  | .endInsert =>
      state.running ∉ state.scheduler.suspended ∧ state.running ∈ state.scheduler.contexts ∧
        (state.late = true → state.Pending)
  | .endErase | .endPush => state.running ∉ state.scheduler.suspended
  | .endDomainSuspend | .endDomainActivate | .endClear | .ended => state.Settled
  | .endFlag true | .endPreawake true => False

end State

variable {state next : State Thread Id}

theorem worker_invariant {execTime : UInt64} (holds : state.Invariant)
    (moved : state.move (.worker execTime) = some next) : next.Invariant := by
  obtain ⟨⟨scheduler, pc⟩, stepped, rfl⟩ := Option.map_eq_some_iff.mp moved
  obtain ⟨⟨current, currentSuspend, active, suspended, preawake, contexts, domain⟩, worker,
    awakers, late⟩ := state
  cases worker with
  | running =>
      cases stepped
      exact holds
  | suspendContains =>
      obtain ⟨absent, early, unflagged⟩ := holds
      simp only [Scheduler.workerStep] at stepped
      split at stepped
      · rename_i known
        cases stepped
        exact ⟨absent, early, unflagged, known⟩
      · cases stepped
        exact ⟨absent, fun flagged => by simp_all⟩
  | suspendPreawake =>
      obtain ⟨absent, early, unflagged, known⟩ := holds
      simp only [Scheduler.workerStep] at stepped
      split at stepped
      · cases stepped
        exact ⟨absent, fun flagged => by simp_all⟩
      · cases stepped
        exact ⟨absent, early, unflagged, known⟩
  | suspendDomain =>
      cases stepped
      exact holds
  | suspendFlag =>
      obtain ⟨absent, early, unflagged, known⟩ := holds
      cases stepped
      exact ⟨absent, fun _ => ⟨known, fun isLate => by simp_all⟩⟩
  | returned =>
      cases stepped
      exact holds
  | endFlag completed =>
      cases completed with
      | true => exact holds.elim
      | false =>
          simp only [Scheduler.workerStep] at stepped
          split at stepped
          · rename_i flagged
            cases stepped
            exact ⟨holds, flagged⟩
          · cases stepped
            exact holds.1
  | endPreawake completed =>
      cases completed with
      | true => exact holds.elim
      | false =>
          obtain ⟨⟨absent, announced⟩, flagged⟩ := holds
          obtain ⟨known, onTheWay⟩ := announced flagged
          simp only [Scheduler.workerStep] at stepped
          split at stepped
          · cases stepped
            exact absent
          · rename_i notPreawake
            cases stepped
            exact ⟨absent, known, fun isLate => (onTheWay isLate).resolve_right notPreawake⟩
  | endInsert =>
      obtain ⟨absent, known, onTheWay⟩ := holds
      cases stepped
      exact ⟨fun _ => ⟨known, onTheWay⟩, fun missing => absurd (Finset.mem_insert_self _ _) missing⟩
  | endErase =>
      cases stepped
      exact Finset.notMem_erase _ _
  | endPush =>
      cases stepped
      exact ⟨fun present => absurd present holds, fun _ => .inl ⟨_, List.mem_cons_self, rfl⟩⟩
  | endDomainSuspend | endDomainActivate | endClear =>
      cases stepped
      exact holds
  | ended => contradiction

/-! ## What a waking thread does for the running execution -/

/-- The effect of one step of `awake_execution` on the running execution. -/
structure AwakeEffect (state next : State Thread Id) : Prop where
  worker : next.worker = state.worker
  running : next.running = state.running
  contexts : next.scheduler.contexts = state.scheduler.contexts
  flag : next.scheduler.currentSuspend = state.scheduler.currentSuspend
  late : next.late = true → state.late = true ∨ state.worker.isReturned = true ∧ next.Pending
  suspended : next.running ∈ next.scheduler.suspended → state.running ∈ state.scheduler.suspended
  taken : state.running ∈ state.scheduler.suspended → next.running ∉ next.scheduler.suspended →
    next.Pushing
  preawake : state.running ∈ state.scheduler.preawake → next.running ∈ next.scheduler.preawake
  pending : state.running ∈ state.scheduler.contexts →
    (state.running ∈ state.scheduler.suspended → next.running ∈ next.scheduler.suspended) →
    state.Pending → next.Pending ∨ next.running ∈ next.scheduler.preawake ∧
      state.worker ≠ .endInsert ∧ state.running ∉ state.scheduler.suspended
  queued : state.Queued ∨ state.Pushing → next.Queued ∨ next.Pushing

namespace AwakeEffect

omit [DecidableEq Thread]

omit [DecidableEq Id] in
theorem announced (effect : AwakeEffect state next) (holds : state.Announced) : next.Announced := by
  obtain ⟨absent, onTheWay⟩ := holds
  refine ⟨fun present => absent (effect.suspended present), fun flagged => ?_⟩
  obtain ⟨known, announced⟩ := onTheWay (effect.flag ▸ flagged)
  refine ⟨by rw [effect.running, effect.contexts]; exact known, fun isLate => ?_⟩
  rcases effect.late isLate with wasLate | ⟨_, pending⟩
  · rcases announced wasLate with pending | recorded
    · exact (effect.pending known (absurd · absent) pending).imp_right (·.1)
    · exact .inr (effect.preawake recorded)
  · exact .inl pending

theorem settled (effect : AwakeEffect state next) (holds : state.Settled) : next.Settled := by
  obtain ⟨waiting, leaving⟩ := holds
  refine ⟨fun present => ?_, fun missing => ?_⟩
  · have wasPresent := effect.suspended present
    obtain ⟨known, onTheWay⟩ := waiting wasPresent
    refine ⟨by rw [effect.running, effect.contexts]; exact known, fun isLate => ?_⟩
    rcases effect.late isLate with wasLate | ⟨_, pending⟩
    · rcases effect.pending known (fun _ => present) (onTheWay wasLate) with
        pending | ⟨_, _, absent⟩
      · exact pending
      · exact absurd wasPresent absent
    · exact pending
  · by_cases wasPresent : state.running ∈ state.scheduler.suspended
    · exact .inr (effect.taken wasPresent missing)
    · exact effect.queued (leaving wasPresent)

theorem invariant (effect : AwakeEffect state next) (holds : state.Invariant) :
    next.Invariant := by
  have unsuspended (absent : state.running ∉ state.scheduler.suspended) :
      next.running ∉ next.scheduler.suspended := fun present => absent (effect.suspended present)
  have early (notReturned : state.worker.isReturned = false) (early : state.late = false) :
      next.late = false := by
    have late := effect.late
    simp_all
  have known : next.scheduler.contexts = state.scheduler.contexts ∧ next.running = state.running :=
    ⟨effect.contexts, effect.running⟩
  simp only [State.Invariant, effect.worker] at holds ⊢
  cases phase : state.worker with
  | running | suspendContains =>
      simp only [phase] at holds
      obtain ⟨absent, wasEarly, unflagged⟩ := holds
      exact ⟨unsuspended absent, early (by simp [phase]; rfl) wasEarly, effect.flag.trans unflagged⟩
  | suspendPreawake | suspendDomain | suspendFlag =>
      simp only [phase] at holds
      obtain ⟨absent, wasEarly, unflagged, inMap⟩ := holds
      exact ⟨unsuspended absent, early (by simp [phase]; rfl) wasEarly,
        effect.flag.trans unflagged, by rw [known.1, known.2]; exact inMap⟩
  | returned =>
      simp only [phase] at holds
      exact effect.announced holds
  | endFlag completed =>
      cases completed with
      | true => simp only [phase] at holds
      | false =>
          simp only [phase] at holds
          exact effect.announced holds
  | endPreawake completed =>
      cases completed with
      | true => simp only [phase] at holds
      | false =>
          simp only [phase] at holds
          exact ⟨effect.announced holds.1, effect.flag.trans holds.2⟩
  | endInsert =>
      simp only [phase] at holds
      obtain ⟨absent, inMap, onTheWay⟩ := holds
      refine ⟨unsuspended absent, by rw [known.1, known.2]; exact inMap, fun isLate => ?_⟩
      rcases effect.late isLate with wasLate | ⟨_, pending⟩
      · rcases effect.pending inMap (absurd · absent) (onTheWay wasLate) with
          pending | ⟨_, decided, _⟩
        · exact pending
        · exact absurd phase decided
      · exact pending
  | endErase | endPush =>
      simp only [phase] at holds
      exact unsuspended holds
  | endDomainSuspend | endDomainActivate | endClear | ended =>
      simp only [phase] at holds
      exact effect.settled holds

end AwakeEffect

theorem awake_effect {thread : Thread} {id : Id}
    (moved : state.move (.awake thread id) = some next) : AwakeEffect state next := by
  simp only [State.move] at moved
  split at moved
  · rename_i outside
    cases moved
    refine ⟨rfl, rfl, rfl, rfl, ?_, fun present => present,
      fun present missing => absurd present missing, fun recorded => recorded,
      fun _ _ pending => .inl ?_, fun queued => queued.imp_right fun pushing => ?_⟩
    · simp only [Bool.or_eq_true, Bool.and_eq_true, beq_iff_eq]
      rintro (wasLate | ⟨returned, rfl⟩)
      · exact .inl wasLate
      · exact .inr ⟨returned, thread, by simp [State.running]⟩
    · exact exists_local_update (AwakePc.Pending state.running) (by simp [outside])
        pending
    · exact exists_local_update (AwakePc.Pushing state.running) (by simp [outside]) pushing
  · contradiction

omit [DecidableEq Id] in
/-- The steps of a waking thread that leave the suspended and the pre-awake set
alone. -/
theorem awaker_effect_of_sets {thread : Thread} {finish : AwakePc Id}
    {active : List (PrioritiedExecution Id)} {domain : Id → ExecutionState}
    (grows : state.scheduler.active ⊆ active)
    (pending : state.running ∈ state.scheduler.contexts →
      (state.awakers thread).Pending state.running → finish.Pending state.running)
    (pushed : state.awakers thread = .push state.running →
      finish = .push state.running ∨ ∃ queued ∈ active, queued.id = state.running) :
    AwakeEffect state { state with
      scheduler := { state.scheduler with active, domain },
      awakers := Function.update state.awakers thread finish } where
  worker := rfl
  running := rfl
  contexts := rfl
  flag := rfl
  late := .inl
  suspended present := present
  taken present missing := absurd present missing
  preawake recorded := recorded
  pending known _ waiting := .inl (exists_local_update _ (pending known) waiting)
  queued := by
    rintro (⟨queued, member, same⟩ | ⟨other, pushing⟩)
    · exact .inl ⟨queued, grows member, same⟩
    · by_cases moving : other = thread
      · subst moving
        rcases pushed pushing with still | queued
        · exact .inr ⟨other, by simpa [State.running] using still⟩
        · exact .inl queued
      · exact .inr ⟨other, by simpa [State.running, Function.update_of_ne moving] using pushing⟩

/-- The step that takes an execution out of the suspended set. -/
theorem remove_effect {thread : Thread} {id : Id} (standing : state.awakers thread = .remove id)
    (found : id ∈ state.scheduler.suspended) :
    AwakeEffect state { state with
      scheduler := { state.scheduler with suspended := state.scheduler.suspended.erase id },
      awakers := Function.update state.awakers thread (.push id) } where
  worker := rfl
  running := rfl
  contexts := rfl
  flag := rfl
  late := .inl
  suspended := Finset.mem_of_mem_erase
  taken present missing := by
    have same : id = state.running := by
      by_contra other
      exact missing (Finset.mem_erase_of_ne_of_mem (Ne.symm other) present)
    exact ⟨thread, by simp [same, State.running]⟩
  preawake recorded := recorded
  pending _ kept waiting := by
    have other : id ≠ state.running := by
      rintro rfl
      exact Finset.notMem_erase _ _ (kept found)
    exact .inl (exists_local_update (AwakePc.Pending state.running) (by simp [standing, other])
      waiting)
  queued queued := queued.imp_right fun pushing =>
    exists_local_update (AwakePc.Pushing state.running) (by simp [standing]) pushing

/-- The step that records an execution as awake before it is suspended. -/
theorem preawake_effect {thread : Thread} {id : Id}
    (inTime : PreawakeInTime state (.awaker thread))
    (standing : state.awakers thread = .preawake id) :
    AwakeEffect state { state with
      scheduler := { state.scheduler with preawake := insert id state.scheduler.preawake },
      awakers := Function.update state.awakers thread .outside } where
  worker := rfl
  running := rfl
  contexts := rfl
  flag := rfl
  late := .inl
  suspended present := present
  taken present missing := absurd present missing
  preawake := Finset.mem_insert_of_mem
  pending _ _ waiting := by
    by_cases same : id = state.running
    · subst same
      exact .inr ⟨Finset.mem_insert_self _ _, inTime standing⟩
    · exact .inl (exists_local_update (AwakePc.Pending state.running)
        (by simp [standing, same]) waiting)
  queued queued := queued.imp_right fun pushing =>
    exists_local_update (AwakePc.Pushing state.running) (by simp [standing]) pushing

theorem awaker_effect {thread : Thread} (inTime : PreawakeInTime state (.awaker thread))
    (moved : state.move (.awaker thread) = some next) : AwakeEffect state next := by
  obtain ⟨⟨scheduler, pc⟩, stepped, rfl⟩ := Option.map_eq_some_iff.mp moved
  cases standing : state.awakers thread with
  | outside => simp [standing, Scheduler.awakeStep] at stepped
  | contains id =>
      simp only [standing, Scheduler.awakeStep] at stepped
      split at stepped
      · cases stepped
        exact awaker_effect_of_sets (fun _ member => member) (by simp [standing])
          (by simp [standing])
      · rename_i unknown
        cases stepped
        refine awaker_effect_of_sets (fun _ member => member) ?_ (by simp [standing])
        rintro known pending
        have other : id ≠ state.running := fun same => unknown (same ▸ known)
        simp [standing, other] at pending
  | remove id =>
      simp only [standing, Scheduler.awakeStep] at stepped
      split at stepped
      · rename_i found
        cases stepped
        exact remove_effect standing found
      · cases stepped
        exact awaker_effect_of_sets (fun _ member => member) (by simp [standing])
          (by simp [standing])
  | push id =>
      simp only [standing, Scheduler.awakeStep] at stepped
      cases stepped
      refine awaker_effect_of_sets (List.subset_cons_self _ _) (by simp [standing])
        (fun pushing => .inr ⟨_, List.mem_cons_self, ?_⟩)
      exact AwakePc.push.inj (standing.symm.trans pushing)
  | activate id =>
      simp only [standing, Scheduler.awakeStep] at stepped
      cases stepped
      exact awaker_effect_of_sets (fun _ member => member) (by simp [standing])
        (by simp [standing])
  | preawake id =>
      simp only [standing, Scheduler.awakeStep] at stepped
      cases stepped
      exact preawake_effect inTime standing

theorem invariant_of_reachable
    (reachable : (machine Thread Id).Reachable PreawakeInTime state) : state.Invariant := by
  refine reachable.invariant ?_ ?_
  · intro first started
    obtain ⟨running, _, early, unflagged, absent⟩ := started
    simp only [State.Invariant, running]
    exact ⟨absent, early, unflagged⟩
  · intro state label next holds inTime moved
    cases label with
    | worker execTime => exact worker_invariant holds moved
    | awake thread id => exact (awake_effect moved).invariant holds
    | awaker thread => exact (awaker_effect inTime moved).invariant holds

theorem wokenUp_of_preawakeInTime
    (reachable : (machine Thread Id).Reachable PreawakeInTime state) : state.WokenUp := by
  rintro ⟨ended, outside⟩ isLate
  have holds := invariant_of_reachable reachable
  simp only [State.Invariant, ended] at holds
  obtain ⟨waiting, leaving⟩ := holds
  have absent : state.running ∉ state.scheduler.suspended := by
    intro present
    obtain ⟨thread, pending⟩ := (waiting present).2 isLate
    simp [outside thread] at pending
  rcases leaving absent with queued | ⟨thread, pushing⟩
  · exact ⟨queued, absent⟩
  · simp [outside thread] at pushing

/-- One execution runs and one other thread may wake it. -/
def oneExecution : State (Fin 1) (Fin 1) where
  scheduler :=
    { current := { id := 0, priority := 0 }
      currentSuspend := false
      active := []
      suspended := ∅
      preawake := ∅
      contexts := {0}
      domain := fun _ => .running }
  worker := .running
  awakers _ := .outside
  late := false

theorem oneExecution_starts : oneExecution.Starts := by
  refine ⟨rfl, fun _ => rfl, rfl, rfl, ?_⟩
  simp [oneExecution]

/-- The wake-up comes between the return of `suspend_current` and `end`. -/
theorem wokenUp_of_preawakeInTime_between :
    ∃ state : State (Fin 1) (Fin 1), (machine (Fin 1) (Fin 1)).Reachable PreawakeInTime state ∧
      (state.AllReturned ∧ state.late = true) ∧ state.WokenUp := by
  obtain ⟨state, reachable, returned⟩ :=
    Machine.reachable_of_exec (machine (Fin 1) (Fin 1)) PreawakeInTime oneExecution
      (List.flatten
        [List.replicate 5 (.worker 1),
          .awake 0 0 :: List.replicate 3 (.awaker 0),
          List.replicate 7 (.worker 1)])
      (fun state => state.AllReturned ∧ state.late = true)
      oneExecution_starts ⟨_, rfl, by decide, rfl⟩
  exact ⟨state, reachable, returned, wokenUp_of_preawakeInTime reachable⟩

/-- The wake-up finds the execution not yet suspended, and records it in the
pre-awake set when `end` has already looked there. -/
theorem execution_left_suspended :
    ∃ state : State (Fin 1) (Fin 1), (machine (Fin 1) (Fin 1)).Reachable Machine.free state ∧
      ¬ state.WokenUp := by
  refine Machine.reachable_of_exec (machine (Fin 1) (Fin 1)) Machine.free oneExecution
    (List.flatten
      [List.replicate 8 (.worker 1),
        .awake 0 0 :: List.replicate 3 (.awaker 0),
        List.replicate 3 (.worker 1)])
    (fun state => ¬ state.WokenUp) oneExecution_starts ⟨_, rfl, ?_⟩
  intro wokenUp
  obtain ⟨_, absent⟩ := wokenUp (by decide) rfl
  exact absurd (by decide) absent

end Asco.Core.Task.DynprioScheduler
