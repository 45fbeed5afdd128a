import Asco.Core.Worker

namespace Asco.Core.Worker

open Foundation Asco.Core.Task.DynprioScheduler

/-! # Every execution is in one place

An execution is in the queue, in the suspended set, on the worker, or with one
thread that has taken it out of the suspended set.
-/

variable {Thread Id : Type*} [DecidableEq Id]

/-- The worker has not handed the current execution on. -/
def holding : WorkerPc → Bool
  | .endDomainSuspend | .endDomainActivate | .endClear | .ended => false
  | _ => true

def queued (scheduler : Scheduler Id) (id : Id) : ℕ :=
  scheduler.active.countP fun entry => entry.id = id

def resting (scheduler : Scheduler Id) (id : Id) : ℕ :=
  if id ∈ scheduler.suspended then 1 else 0

def onWorker (current : Id) (id : Id) : Place Id → ℕ
  | .attachPush other => if other = id then 1 else 0
  | .executing pc _ => if holding pc = true ∧ current = id then 1 else 0
  | _ => 0

def inHand (id : Id) : AwakePc Id → ℕ
  | .push other => if other = id then 1 else 0
  | _ => 0

variable {scheduler next : Scheduler Id} {pc finish : WorkerPc} {execTime : UInt64}

theorem schedulerStep_places (completing : Bool)
    (alone : holding pc = true → scheduler.current.id ∉ scheduler.suspended)
    (stepped : scheduler.workerStep execTime pc = some (next, finish)) :
    next.current = scheduler.current ∧ next.contexts = scheduler.contexts ∧
      ∀ id, queued next id + resting next id +
          onWorker next.current.id id (.executing finish completing) =
        queued scheduler id + resting scheduler id +
          onWorker scheduler.current.id id (.executing pc completing) := by
  obtain ⟨current, contexts⟩ := Scheduler.workerStep_keeps stepped
  refine ⟨current, contexts, fun id => ?_⟩
  rw [current]
  cases Scheduler.workerStep_cases stepped with
  | endInsert =>
      have absent := alone rfl
      by_cases same : scheduler.current.id = id
      · subst same
        simp [queued, resting, onWorker, holding, absent]
      · have other : id ≠ scheduler.current.id := Ne.symm same
        simp [queued, resting, onWorker, same, other]
  | endErase =>
      have absent := alone rfl
      simp [queued, resting, onWorker, holding, Finset.erase_eq_of_notMem absent]
  | endPush =>
      by_cases same : scheduler.current.id = id
      · simp [queued, resting, onWorker, holding, same]
        omega
      · simp [queued, resting, onWorker, same]
  | _ => rfl

theorem awakeStep_places {place after : AwakePc Id}
    (stepped : scheduler.awakeStep place = some (next, after)) :
    next.current = scheduler.current ∧ next.contexts = scheduler.contexts ∧
      ∀ id, queued next id + resting next id + inHand id after =
        queued scheduler id + resting scheduler id + inHand id place := by
  obtain ⟨current, contexts, _⟩ := Scheduler.awakeStep_keeps stepped
  refine ⟨current, contexts, fun id => ?_⟩
  cases Scheduler.awakeStep_cases stepped with
  | @takes taken suspended =>
      by_cases same : taken = id
      · subst same
        simp [queued, resting, inHand, suspended]
      · have other : id ≠ taken := Ne.symm same
        simp [queued, resting, inHand, same, other]
  | @push pushed =>
      by_cases same : pushed = id
      · simp [queued, resting, inHand, same]
        omega
      · simp [queued, resting, inHand, same]
  | _ => rfl

theorem queued_erase {entry : PrioritiedExecution Id} (member : entry ∈ scheduler.active)
    (id : Id) : queued scheduler id =
      (scheduler.active.erase entry).countP (fun other => other.id = id) +
        if entry.id = id then 1 else 0 := by
  have split := (List.perm_cons_erase member).countP_eq fun other => other.id = id
  simpa [queued, List.countP_cons] using split

theorem mem_erase_count {ids : Finset Id} {gone : Id} (id : Id) (member : gone ∈ ids) :
    (if id ∈ ids.erase gone then 1 else 0) + (if id = gone then 1 else 0) =
      if id ∈ ids then 1 else 0 := by
  grind

/-! ## All places together -/

variable [Fintype Thread] {state after : State Thread Id}

/-- How often an execution is found in some place. -/
def State.places (state : State Thread Id) (id : Id) : ℕ :=
  queued state.scheduler id + resting state.scheduler id +
    onWorker state.scheduler.current.id id state.place + tally (inHand id) state.awakers

/-- The invariant. -/
structure Located (state : State Thread Id) : Prop where
  once : ∀ id, state.places id ≤ 1
  known : ∀ id, state.places id ≠ 0 → id ∈ state.scheduler.contexts
  dropped : state.place = .detachContext → state.places state.current = 0

theorem Located.alone {pc : WorkerPc} {completing : Bool} (located : Located state)
    (executes : state.place = .executing pc completing) (holds : holding pc = true) :
    state.current ∉ state.scheduler.suspended ∧ queued state.scheduler state.current = 0 ∧
      tally (inHand state.current) state.awakers = 0 ∧
      state.current ∈ state.scheduler.contexts := by
  have once := located.once state.current
  have known := located.known state.current
  simp only [State.places, executes, onWorker, holds, State.current, true_and, if_true]
    at once known
  refine ⟨?_, ?_, ?_, known (by omega)⟩
  · intro rests
    simp only [State.current] at rests
    simp only [resting, rests, if_true] at once
    omega
  · simp only [State.current]
    omega
  · simp only [State.current]
    omega

/-- A step that leaves every execution where it is, or hands it on. -/
theorem Located.stays (located : Located state)
    (contexts : after.scheduler.contexts = state.scheduler.contexts)
    (places : ∀ id, after.places id = state.places id)
    (kept : after.place = .detachContext →
      state.place = .detachContext ∧ after.current = state.current) : Located after where
  once id := places id ▸ located.once id
  known id some := contexts ▸ located.known id (places id ▸ some)
  dropped drops := by
    obtain ⟨dropping, current⟩ := kept drops
    rw [places, current]
    exact located.dropped dropping

theorem Located.workerStep {execTime : UInt64} (located : Located state)
    (stepped : state.workerStep execTime = some after) : Located after := by
  cases stands : state.place with
  | idle => simp [State.workerStep, stands] at stepped
  | attachContext id =>
      simp only [State.workerStep, stands] at stepped
      split at stepped <;> cases stepped
      rename_i unknown
      have absent : state.places id = 0 := by
        by_contra some
        exact unknown (located.known id some)
      have once := located.once
      have known := located.known
      simp only [State.places, stands, onWorker] at once known absent
      constructor
      · intro other
        have once := once other
        simp only [State.places, onWorker, queued, resting] at once absent ⊢
        by_cases same : id = other
        · subst same
          rw [if_pos rfl]
          omega
        · rw [if_neg same]
          exact once
      · intro other some
        have known := known other
        simp only [State.places, onWorker, queued, resting] at known some
        simp only [Finset.mem_insert]
        by_cases same : other = id
        · exact .inl same
        · rw [if_neg (Ne.symm same)] at some
          exact .inr (known some)
      · simp
  | attachPush id =>
      simp only [State.workerStep, stands, Option.some.injEq] at stepped
      subst stepped
      refine located.stays rfl ?_ (by simp)
      intro other
      simp only [State.places, stands, onWorker, queued, resting, List.countP_cons,
        decide_eq_true_eq]
      omega
  | executing pc completing =>
      cases pc with
      | running => simp [State.workerStep, stands] at stepped
      | returned => simp [State.workerStep, stands] at stepped
      | ended =>
          simp only [State.workerStep, stands, Option.some.injEq] at stepped
          subst stepped
          refine located.stays rfl ?_ ?_
          · intro id
            cases completing <;> simp [State.places, stands, onWorker, holding]
          · cases completing <;> simp
      | _ =>
          simp only [State.workerStep, stands, Option.map_eq_some_iff, Prod.exists] at stepped
          obtain ⟨scheduler, finish, stepped, rfl⟩ := stepped
          obtain ⟨_, contexts, conserved⟩ := schedulerStep_places completing
            (fun holds => (located.alone stands holds).1) stepped
          refine located.stays contexts ?_ (by simp)
          intro id
          simp only [State.places, stands]
          rw [conserved id]
  | detachRemove =>
      simp only [State.workerStep, stands] at stepped
      split at stepped <;> simp only [Option.some.injEq] at stepped
      · rename_i rests
        have fewer (id : Id) :
            after.places id + (if id = state.current then 1 else 0) = state.places id := by
          have counted := mem_erase_count id rests
          rw [← stepped]
          simp only [State.places, stands, onWorker, queued, resting]
          omega
        have same : after.current = state.current ∧
            after.scheduler.contexts = state.scheduler.contexts := by
          rw [← stepped]
          exact ⟨rfl, rfl⟩
        constructor
        · intro id
          have fewer := fewer id
          have once := located.once id
          omega
        · intro id some
          have fewer := fewer id
          exact same.2 ▸ located.known id (by omega)
        · intro _
          have fewer := fewer state.current
          have once := located.once state.current
          rw [if_pos rfl] at fewer
          rw [same.1]
          omega
      · subst stepped
        refine located.stays rfl ?_ (by simp)
        intro id
        simp only [State.places, stands, onWorker]
  | detachContext =>
      have gone := located.dropped stands
      simp only [State.workerStep, stands, Option.some.injEq] at stepped
      subst stepped
      have same (id : Id) : State.places { state with
          scheduler :=
            { state.scheduler with contexts := state.scheduler.contexts.erase state.current }
          place := .detachDomain } id = state.places id := by
        simp only [State.places, stands, onWorker, queued, resting]
      constructor
      · exact fun id => same id ▸ located.once id
      · intro id some
        rw [same] at some
        have different : id ≠ state.current := by
          intro here
          exact some (here ▸ gone)
        exact Finset.mem_erase.mpr ⟨different, located.known id some⟩
      · simp
  | detachDomain =>
      simp only [State.workerStep, stands, Option.some.injEq] at stepped
      subst stepped
      refine located.stays rfl ?_ (by simp)
      intro id
      simp only [State.places, stands, onWorker]

theorem Located.schedule {entry : PrioritiedExecution Id} (located : Located state)
    (idle : state.place = .idle) (member : entry ∈ state.scheduler.active) :
    Located (state.schedule entry) := by
  have conserved (id : Id) : (state.schedule entry).places id = state.places id := by
    have split := queued_erase member id
    simp only [State.places, State.schedule, idle]
    split <;> simp only [onWorker, queued, resting, holding, true_and] at split ⊢ <;> omega
  refine located.stays ?_ conserved ?_
  · unfold State.schedule
    split <;> rfl
  · unfold State.schedule
    split <;> simp

theorem Located.leave {completed : Bool} (located : Located state)
    (stepped : state.leave completed = some after) : Located after := by
  cases stands : state.place with
  | executing pc completing =>
      have conserved (finish : Bool) (waits : Id → Option Bool) (holds : holding pc = true)
          (id : Id) :
          State.places { state with waits, place := .executing (.endFlag finish) finish } id =
            state.places id := by
        have begun : holding (.endFlag finish) = true := rfl
        simp only [State.places, stands, onWorker, holds, begun]
      cases pc with
      | running =>
          simp only [State.leave, stands] at stepped
          split at stepped
          · split at stepped <;> cases stepped
            exact located.stays rfl (conserved _ _ rfl) (by simp)
          · split at stepped <;> cases stepped
            exact located.stays rfl (conserved _ _ rfl) (by simp)
      | returned =>
          simp only [State.leave, stands] at stepped
          split at stepped
          · split at stepped <;> cases stepped
            exact located.stays rfl (conserved _ _ rfl) (by simp)
          · split at stepped <;> cases stepped
            exact located.stays rfl (conserved _ _ rfl) (by simp)
      | _ => simp [State.leave, stands] at stepped
  | _ => simp [State.leave, stands] at stepped

theorem located_of_fresh (fresh : state.Fresh) : Located state := by
  obtain ⟨active, suspended, _, _, _, _, place, outside, _⟩ := fresh
  have empty (id : Id) : state.places id = 0 := by
    have nobody : tally (inHand id) state.awakers = 0 :=
      tally_eq_zero.mpr fun thread => by rw [outside thread]; rfl
    simp [State.places, queued, resting, active, suspended, place, onWorker, nobody]
  exact ⟨fun id => by simp [empty], fun id some => absurd (empty id) some, by simp [place]⟩

section

variable [DecidableEq Thread]

theorem Located.awaker {thread : Thread} {scheduler : Scheduler Id} {place : AwakePc Id}
    (located : Located state)
    (stepped : state.scheduler.awakeStep (state.awakers thread) = some (scheduler, place)) :
    Located { state with scheduler, awakers := Function.update state.awakers thread place } := by
  obtain ⟨current, contexts, conserved⟩ := awakeStep_places stepped
  refine located.stays contexts ?_ ?_
  · intro id
    obtain ⟨others, now, later⟩ := exists_tally_others (inHand id) state.awakers thread
    have conserved := conserved id
    simp only [State.places, now, later, current]
    omega
  · exact fun drops => ⟨drops, by rw [State.current, current]; rfl⟩

/-- A step keeps the invariant. -/
theorem Located.step {label : Label Thread Id} (located : Located state)
    (moved : state.move label = some after) : Located after := by
  cases label with
  | worker execTime => exact located.workerStep moved
  | attach id =>
      simp only [State.move] at moved
      split at moved <;> cases moved
      rename_i idle
      refine located.stays rfl ?_ (by simp)
      intro other
      simp only [State.places, idle.1, onWorker]
  | schedule entry =>
      simp only [State.move] at moved
      split at moved <;> cases moved
      rename_i allowed
      exact located.schedule allowed.1 allowed.2.1
  | register =>
      simp only [State.move] at moved
      split at moved <;> cases moved
      exact located.stays rfl (fun _ => rfl) fun drops => ⟨drops, rfl⟩
  | suspend =>
      simp only [State.move] at moved
      split at moved <;> cases moved
      rename_i runs
      refine located.stays rfl ?_ (by simp)
      intro id
      simp only [State.places, runs, onWorker, holding]
  | leave completed => exact located.leave moved
  | requestCancel id =>
      cases moved
      exact located.stays rfl (fun _ => rfl) fun drops => ⟨drops, rfl⟩
  | awake thread id own =>
      simp only [State.move] at moved
      split at moved <;> cases moved
      rename_i outside
      refine located.stays rfl ?_ fun drops => ⟨drops, rfl⟩
      intro other
      obtain ⟨others, now, later⟩ := exists_tally_others (inHand other) state.awakers thread
      simp only [State.places, now, later, outside.1, inHand]
  | awaker thread =>
      simp only [State.move] at moved
      split at moved
      · simp only [Option.map_eq_some_iff, Prod.exists] at moved
        obtain ⟨scheduler, place, stepped, rfl⟩ := moved
        exact located.awaker stepped
      · contradiction

theorem located_of_reachable {guard : State Thread Id → Label Thread Id → Prop}
    (reachable : (machine Thread Id).Reachable guard state) : Located state :=
  reachable.invariant (fun _ => located_of_fresh) fun _ _ _ located _ moved => located.step moved

end

end Asco.Core.Worker
