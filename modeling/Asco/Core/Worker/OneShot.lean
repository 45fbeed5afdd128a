import Asco.Core.Worker.Completion

namespace Asco.Core.Worker

open Foundation Asco.Core.Task.DynprioScheduler

/-! # One-shot waits

`sleep_until` and the file operations register a token, suspend and yield once.
Nothing ties a wake-up to the wait it was meant for, so the wait returns for its
own event as long as the wake-ups that reach the execution are its own.
-/

variable {Thread Id : Type*} {state after : State Thread Id}

/-- An execution in an unanswered wait is suspended, or the worker is on its way
to suspend it. -/
def State.Waits (state : State Thread Id) (id : Id) : Prop :=
  id ∈ state.scheduler.suspended ∨ state.current = id ∧
    match state.place with
    | .executing .running false | .executing .suspendContains false
    | .executing .suspendPreawake false | .executing .suspendDomain false
    | .executing .suspendFlag false | .executing .endInsert false => True
    | .executing .returned false | .executing (.endFlag _) false
    | .executing (.endPreawake _) false => state.scheduler.currentSuspend = true
    | _ => False

/-- Off the way to its suspension, an execution waits in the suspended set. -/
theorem State.Waits.rests {id : Id} (waits : state.Waits id)
    (aside : (∀ pc, state.place ≠ .executing pc false) ∨ id ≠ state.current) :
    id ∈ state.scheduler.suspended := by
  cases waits with
  | inl rests => exact rests
  | inr onWay =>
      obtain ⟨here, stands⟩ := onWay
      have off := aside.resolve_right (fun different => different here.symm)
      cases place : state.place with
      | executing pc completing =>
          cases completing with
          | false => exact absurd place (off pc)
          | true =>
              rw [place] at stands
              cases pc <;> exact stands.elim
      | _ =>
          rw [place] at stands
          exact stands.elim

variable [DecidableEq Id]

/-- The execution is in a one-shot wait whose event has not issued an awake, and
it is not being cancelled. -/
def State.unanswered (state : State Thread Id) (id : Id) : Bool :=
  state.waits id == some false && !decide (id ∈ state.cancelled)

/-- Every wait that has returned did so after an awake issued for it. -/
def WaitsForOwnEvent (state : State Thread Id) : Prop :=
  ∀ id, (id, false) ∉ state.returned

/-- The worker is about to test the set of early wake-ups. -/
def State.tests (state : State Thread Id) : Bool :=
  match state.place with
  | .executing .suspendPreawake _ | .executing (.endPreawake _) _ => true
  | _ => false

/-- The execution a thread looks for in the suspended set. -/
def taken : AwakePc Id → Option Id
  | .remove id => some id
  | _ => none

/-- While a wait is unanswered, the execution is neither found in the set of
early wake-ups by its own suspension nor in the suspended set by a wake-up. -/
def OwnEvents (state : State Thread Id) : Label Thread Id → Prop
  | .worker _ => state.tests = true → state.current ∈ state.scheduler.preawake →
      state.unanswered state.current = false
  | .awaker thread => ∀ id ∈ taken (state.awakers thread),
      id ∈ state.scheduler.suspended → state.unanswered id = false
  | _ => True

instance : DecidableRel (@OwnEvents Thread Id _)
  | state, .worker _ =>
      inferInstanceAs (Decidable (state.tests = true →
        state.current ∈ state.scheduler.preawake → state.unanswered state.current = false))
  | state, .awaker thread =>
      inferInstanceAs (Decidable (∀ id ∈ taken (state.awakers thread),
        id ∈ state.scheduler.suspended → state.unanswered id = false))
  | _, .attach _ | _, .schedule _ | _, .register | _, .suspend | _, .leave _
  | _, .requestCancel _ | _, .awake _ _ _ => isTrue trivial

/-- The invariant. -/
structure Waiting (state : State Thread Id) : Prop where
  waits : ∀ id, state.unanswered id = true → state.Waits id
  done : state.ending = true → state.waits state.current = none
  own : WaitsForOwnEvent state

/-! ## One step -/

theorem Waiting.of_same (waiting : Waiting state)
    (unanswered : ∀ id, after.unanswered id = true → state.unanswered id = true)
    (waits : ∀ id, state.Waits id → after.Waits id)
    (done : after.ending = true → after.waits after.current = none)
    (returned : after.returned = state.returned) : Waiting after where
  waits id waiting' := waits id (waiting.waits id (unanswered id waiting'))
  done := done
  own id := returned ▸ waiting.own id

theorem schedulerStep_waits {scheduler : Scheduler Id} {pc finish : WorkerPc}
    {execTime : UInt64} {id : Id} (executes : state.place = .executing pc false)
    (alone : holding pc = true → state.current ∉ state.scheduler.suspended ∧
      state.current ∈ state.scheduler.contexts)
    (tested : state.tests = true → state.current ∈ state.scheduler.preawake → id ≠ state.current)
    (waits : state.Waits id)
    (stepped : state.scheduler.workerStep execTime pc = some (scheduler, finish)) :
    State.Waits { state with scheduler, place := .executing finish false } id := by
  cases waits with
  | inl rests =>
      left
      cases Scheduler.workerStep_cases stepped with
      | endInsert => exact Finset.mem_insert_of_mem rests
      | endErase =>
          refine Finset.mem_erase.mpr ⟨?_, rests⟩
          rintro rfl
          exact (alone rfl).1 rests
      | _ => exact rests
  | inr onWay =>
      obtain ⟨here, stands⟩ := onWay
      have tests : state.tests = true → state.current ∉ state.scheduler.preawake :=
        fun tests early => tested tests early here.symm
      rw [State.tests, executes] at tests
      rw [executes] at stands
      cases Scheduler.workerStep_cases stepped with
      | running => exact .inr ⟨here, trivial⟩
      | unknown unknown => exact absurd (alone rfl).2 unknown
      | known known => exact .inr ⟨here, trivial⟩
      | stays early => exact absurd early (tests rfl)
      | suspends unawoken => exact .inr ⟨here, trivial⟩
      | suspendDomain => exact .inr ⟨here, trivial⟩
      | suspendFlag => exact .inr ⟨here, rfl⟩
      | returned => exact .inr ⟨here, stands⟩
      | flagged completed flagged => exact .inr ⟨here, flagged⟩
      | completes unflagged => exact absurd (unflagged.symm.trans stands) Bool.false_ne_true
      | yields unflagged => exact absurd (unflagged.symm.trans stands) Bool.false_ne_true
      | completesEarly early => exact absurd early (tests rfl)
      | yieldsEarly early => exact absurd early (tests rfl)
      | decides completed unawoken => exact .inr ⟨here, trivial⟩
      | endInsert =>
          subst here
          exact .inl (Finset.mem_insert_self _ _)
      | _ => exact stands.elim

theorem schedulerStep_rests {scheduler next : Scheduler Id} {pc finish : WorkerPc}
    {execTime : UInt64} {id : Id} (different : id ≠ scheduler.current.id)
    (rests : id ∈ scheduler.suspended)
    (stepped : scheduler.workerStep execTime pc = some (next, finish)) : id ∈ next.suspended := by
  cases Scheduler.workerStep_cases stepped with
  | endInsert => exact Finset.mem_insert_of_mem rests
  | endErase => exact Finset.mem_erase.mpr ⟨different, rests⟩
  | _ => exact rests

theorem State.unanswered_update {waits : Id → Option Bool} {gone id : Id}
    (unanswered : State.unanswered { state with waits := Function.update waits gone none } id =
      true) : id ≠ gone ∧ State.unanswered { state with waits } id = true := by
  have different : id ≠ gone := by
    intro same
    simp [State.unanswered, same] at unanswered
  refine ⟨different, ?_⟩
  simpa [State.unanswered, different] using unanswered

theorem Waiting.leave {completed : Bool} (waiting : Waiting state)
    (stepped : state.leave completed = some after) : Waiting after := by
  cases stands : state.place with
  | executing pc completing =>
      have completes : Waiting { state with
          waits := Function.update state.waits state.current none
          place := .executing (.endFlag true) true } := by
        constructor
        · intro id unanswered
          obtain ⟨different, before⟩ := State.unanswered_update unanswered
          exact .inl ((waiting.waits id before).rests (.inr different))
        · exact fun _ => Function.update_self ..
        · exact waiting.own
      have yields (late : pc = .returned ∨ pc = .running ∧ (completing = false →
          state.waits state.current = none)) :
          Waiting { state with place := .executing (.endFlag false) false } := by
        refine ⟨?_, nofun, waiting.own⟩
        intro id unanswered
        have waits := waiting.waits id unanswered
        by_cases here : id = state.current
        · subst here
          cases waits with
          | inl rests => exact .inl rests
          | inr onWay =>
              have flagged := onWay.2
              rw [stands] at flagged
              cases late with
              | inl returned =>
                  subst returned
                  cases completing with
                  | true => exact flagged.elim
                  | false => exact .inr ⟨rfl, flagged⟩
              | inr running =>
                  obtain ⟨rfl, fresh⟩ := running
                  cases completing with
                  | true => exact flagged.elim
                  | false => simp [State.unanswered, fresh rfl] at unanswered
        · exact .inl (waits.rests (.inr here))
      cases pc with
      | running =>
          simp only [State.leave, stands] at stepped
          split at stepped
          · split at stepped <;> cases stepped
            exact completes
          · split at stepped <;> cases stepped
            rename_i abandons
            refine yields (.inr ⟨rfl, ?_⟩)
            intro fresh
            by_contra waits
            exact abandons ⟨by rw [fresh], waits⟩
      | returned =>
          simp only [State.leave, stands] at stepped
          split at stepped
          · split at stepped <;> cases stepped
            exact completes
          · split at stepped <;> cases stepped
            exact yields (.inl rfl)
      | _ => simp [State.leave, stands] at stepped
  | _ => simp [State.leave, stands] at stepped

theorem Waiting.completes {scheduler : Scheduler Id} {pc finish : WorkerPc} {execTime : UInt64}
    (waiting : Waiting state) (stands : state.place = .executing pc true)
    (stepped : state.scheduler.workerStep execTime pc = some (scheduler, finish)) :
    Waiting { state with scheduler, place := .executing finish true } := by
  have gone : state.waits state.current = none := waiting.done (by simp [State.ending, stands])
  refine ⟨?_, ?_, waiting.own⟩
  · intro id unanswered
    have different : id ≠ state.current := by
      intro here
      subst here
      simp [State.unanswered, gone] at unanswered
    have rests := (waiting.waits id unanswered).rests (.inr different)
    exact .inl (schedulerStep_rests different rests stepped)
  · intro _
    simp only [State.current, (Scheduler.workerStep_keeps stepped).1]
    exact gone

theorem awakeStep_kept {scheduler next : Scheduler Id} {place finish : AwakePc Id}
    (stepped : scheduler.awakeStep place = some (next, finish)) :
    next.current = scheduler.current ∧ next.currentSuspend = scheduler.currentSuspend ∧
      ∀ id, id ∈ scheduler.suspended → id ∉ next.suspended → id ∈ taken place := by
  cases Scheduler.awakeStep_cases stepped with
  | takes suspended =>
      refine ⟨rfl, rfl, fun other rests gone => ?_⟩
      by_contra different
      refine gone (Finset.mem_erase.mpr ⟨?_, rests⟩)
      rintro rfl
      exact different rfl
  | _ => exact ⟨rfl, rfl, fun _ rests gone => absurd rests gone⟩

theorem Waiting.awaker [DecidableEq Thread] {thread : Thread} {scheduler : Scheduler Id}
    {place : AwakePc Id} (waiting : Waiting state) (own : OwnEvents state (.awaker thread))
    (stepped : state.scheduler.awakeStep (state.awakers thread) = some (scheduler, place)) :
    Waiting { state with scheduler, awakers := Function.update state.awakers thread place } := by
  obtain ⟨current, currentSuspend, kept⟩ := awakeStep_kept stepped
  refine ⟨?_, ?_, waiting.own⟩
  · intro id unanswered
    cases waiting.waits id unanswered with
    | inl rests =>
        left
        by_contra gone
        have answered := own id (kept id rests gone) rests
        exact Bool.false_ne_true (answered.symm.trans unanswered)
    | inr onWay =>
        right
        simp only [State.current, current, currentSuspend]
        exact onWay
  · intro ending
    simp only [State.current, current]
    exact waiting.done ending

variable [Fintype Thread]

theorem Waiting.schedule {entry : PrioritiedExecution Id} (waiting : Waiting state)
    (located : Located state) (idle : state.place = .idle)
    (member : entry ∈ state.scheduler.active) : Waiting (state.schedule entry) := by
  have queuedOnce : 0 < queued state.scheduler entry.id :=
    List.countP_pos_iff.mpr ⟨entry, member, by simp⟩
  have awake : entry.id ∉ state.scheduler.suspended := by
    intro rests
    have once := located.once entry.id
    simp only [State.places, resting, rests, if_true] at once
    omega
  have answered : state.unanswered entry.id = false := by
    by_contra unanswered
    have waits := waiting.waits entry.id (by simpa using unanswered)
    exact awake (waits.rests (.inl (by simp [idle])))
  unfold State.schedule
  split
  · refine ⟨?_, fun _ => Function.update_self .., waiting.own⟩
    intro id unanswered
    obtain ⟨_, before⟩ := State.unanswered_update unanswered
    exact .inl ((waiting.waits id before).rests (.inl (by simp [idle])))
  · rename_i live
    refine ⟨?_, (by rintro ⟨⟩), ?_⟩
    · intro id unanswered
      obtain ⟨_, before⟩ := State.unanswered_update unanswered
      exact .inl ((waiting.waits id before).rests (.inl (by simp [idle])))
    · intro id returned
      cases waits : state.waits entry.id with
      | none =>
          rw [waits] at returned
          exact waiting.own id returned
      | some issued =>
          rw [waits] at returned
          cases List.mem_cons.mp returned with
          | inl now =>
              cases now
              simp [State.unanswered, waits, live] at answered
          | inr before => exact waiting.own id before

theorem Waiting.executes {scheduler : Scheduler Id} {pc finish : WorkerPc} {execTime : UInt64}
    (waiting : Waiting state) (located : Located state) (own : OwnEvents state (.worker execTime))
    (stands : state.place = .executing pc false)
    (stepped : state.scheduler.workerStep execTime pc = some (scheduler, finish)) :
    Waiting { state with scheduler, place := .executing finish false } := by
  refine ⟨?_, nofun, waiting.own⟩
  intro id unanswered
  refine schedulerStep_waits stands ?_ ?_ (waiting.waits id unanswered) stepped
  · intro holds
    have alone := located.alone stands holds
    exact ⟨alone.1, alone.2.2.2⟩
  · intro tests early here
    have answered := own tests early
    rw [← here] at answered
    exact Bool.false_ne_true (answered.symm.trans unanswered)

theorem Waiting.workerStep {execTime : UInt64} (waiting : Waiting state) (located : Located state)
    (own : OwnEvents state (.worker execTime))
    (stepped : state.workerStep execTime = some after) : Waiting after := by
  cases stands : state.place with
  | idle => simp [State.workerStep, stands] at stepped
  | attachContext id =>
      simp only [State.workerStep, stands] at stepped
      split at stepped <;> cases stepped
      refine waiting.of_same (fun _ same => same) ?_ (by rintro ⟨⟩) rfl
      exact fun other waits => .inl (waits.rests (.inl (by simp [stands])))
  | attachPush id =>
      simp only [State.workerStep, stands, Option.some.injEq] at stepped
      subst stepped
      refine waiting.of_same (fun _ same => same) ?_ (by rintro ⟨⟩) rfl
      exact fun other waits => .inl (waits.rests (.inl (by simp [stands])))
  | executing pc completing =>
      cases pc with
      | running => simp [State.workerStep, stands] at stepped
      | returned => simp [State.workerStep, stands] at stepped
      | ended =>
          simp only [State.workerStep, stands, Option.some.injEq] at stepped
          subst stepped
          have rests (id : Id) (waits : state.Waits id) : id ∈ state.scheduler.suspended := by
            cases completing <;> simpa [State.Waits, stands] using waits
          refine ⟨fun id unanswered => .inl (rests id (waiting.waits id unanswered)), ?_,
            waiting.own⟩
          cases completing with
          | false => rintro ⟨⟩
          | true => exact fun _ => waiting.done (by simp [State.ending, stands])
      | _ =>
          simp only [State.workerStep, stands, Option.map_eq_some_iff, Prod.exists] at stepped
          obtain ⟨scheduler, finish, stepped, rfl⟩ := stepped
          cases completing with
          | false => exact waiting.executes located own stands stepped
          | true => exact waiting.completes stands stepped
  | detachRemove =>
      have gone : state.waits state.current = none := waiting.done (by simp [State.ending, stands])
      simp only [State.workerStep, stands] at stepped
      split at stepped <;> cases stepped
      · refine ⟨?_, (by rintro ⟨⟩), waiting.own⟩
        intro id unanswered
        have rests := (waiting.waits id unanswered).rests (.inl (by simp [stands]))
        refine .inl (Finset.mem_erase.mpr ⟨?_, rests⟩)
        intro here
        subst here
        simp [State.unanswered, gone] at unanswered
      · refine waiting.of_same (fun _ same => same) ?_ (by rintro ⟨⟩) rfl
        exact fun other waits => .inl (waits.rests (.inl (by simp [stands])))
  | detachContext =>
      simp only [State.workerStep, stands, Option.some.injEq] at stepped
      subst stepped
      refine waiting.of_same (fun _ same => same) ?_ (by rintro ⟨⟩) rfl
      exact fun other waits => .inl (waits.rests (.inl (by simp [stands])))
  | detachDomain =>
      simp only [State.workerStep, stands, Option.some.injEq] at stepped
      subst stepped
      refine waiting.of_same (fun _ same => same) ?_ (by rintro ⟨⟩) rfl
      exact fun other waits => .inl (waits.rests (.inl (by simp [stands])))

section

variable [DecidableEq Thread]

theorem Waiting.step {label : Label Thread Id} (waiting : Waiting state) (located : Located state)
    (own : OwnEvents state label) (moved : state.move label = some after) : Waiting after := by
  cases label with
  | worker execTime => exact waiting.workerStep located own moved
  | attach id =>
      simp only [State.move] at moved
      split at moved <;> cases moved
      rename_i idle
      refine ⟨?_, (by rintro ⟨⟩), waiting.own⟩
      intro other unanswered
      have different : other ≠ id := by
        intro same
        simp [State.unanswered, same] at unanswered
      have before : state.unanswered other = true := by
        simpa [State.unanswered, different] using unanswered
      exact .inl ((waiting.waits other before).rests (.inl (by simp [idle.1])))
  | schedule entry =>
      simp only [State.move] at moved
      split at moved <;> cases moved
      rename_i allowed
      exact waiting.schedule located allowed.1 allowed.2.1
  | register =>
      simp only [State.move] at moved
      split at moved <;> cases moved
      rename_i runs
      refine ⟨?_, ?_, waiting.own⟩
      · intro id unanswered
        by_cases here : id = state.current
        · subst here
          exact .inr ⟨rfl, by simp [runs.1]⟩
        · have before : state.unanswered id = true := by
            simpa [State.unanswered, here] using unanswered
          exact waiting.waits id before
      · exact fun ending => by simp [State.ending, runs.1] at ending
  | suspend =>
      simp only [State.move] at moved
      split at moved <;> cases moved
      rename_i runs
      refine waiting.of_same (fun _ same => same) ?_ (by rintro ⟨⟩) rfl
      intro id waits
      simpa [State.Waits, runs, State.current] using waits
  | leave completed => exact waiting.leave moved
  | requestCancel id =>
      cases moved
      refine waiting.of_same ?_ (fun _ waits => waits) waiting.done rfl
      intro other unanswered
      simp only [State.unanswered, Finset.mem_insert, not_or, Bool.and_eq_true, Bool.not_eq_true',
        decide_eq_false_iff_not] at unanswered ⊢
      exact ⟨unanswered.1, unanswered.2.2⟩
  | awake thread id isOwn =>
      simp only [State.move] at moved
      split at moved <;> cases moved
      rename_i allowed
      cases isOwn with
      | false => exact waiting.of_same (fun _ same => same) (fun _ waits => waits) waiting.done rfl
      | true =>
          refine waiting.of_same ?_ (fun _ waits => waits) ?_ rfl
          · intro other unanswered
            have different : other ≠ id := by
              intro same
              simp [State.unanswered, same] at unanswered
            simpa [State.unanswered, different] using unanswered
          · intro ending
            have gone := waiting.done ending
            have registered := allowed.2 rfl
            have different : state.current ≠ id := by
              intro same
              rw [← same, gone] at registered
              contradiction
            exact (Function.update_of_ne different ..).trans gone
  | awaker thread =>
      simp only [State.move] at moved
      split at moved
      · simp only [Option.map_eq_some_iff, Prod.exists] at moved
        obtain ⟨scheduler, place, stepped, rfl⟩ := moved
        exact waiting.awaker own stepped
      · contradiction

/-! ## Every run -/

theorem waiting_of_reachable (reachable : (machine Thread Id).Reachable OwnEvents state) :
    Waiting state := by
  obtain ⟨first, started, run⟩ := reachable
  induction run with
  | refl =>
      obtain ⟨_, _, _, _, _, _, place, _, waits, returned⟩ := started
      refine ⟨?_, ?_, ?_⟩
      · simp [State.unanswered, waits]
      · simp [State.ending, place]
      · simp [WaitsForOwnEvent, returned]
  | tail before allowed moved ih =>
      have located := located_of_reachable ⟨first, started, before⟩
      exact ih.step located allowed moved

theorem waitsForOwnEvent_of_ownEvents
    (reachable : (machine Thread Id).Reachable OwnEvents state) : WaitsForOwnEvent state :=
  (waiting_of_reachable reachable).own

end

/-- A wait is entered, its event issues an awake, and the wait returns. -/
theorem waitsForOwnEvent_of_ownEvents_timer :
    ∃ state : State (Fin 1) ℕ, (machine (Fin 1) ℕ).Reachable OwnEvents state ∧
      state.returned = [(5, true)] ∧ WaitsForOwnEvent state := by
  obtain ⟨state, reachable, returned⟩ :=
    Machine.reachable_of_exec (machine (Fin 1) ℕ) OwnEvents (started (Fin 1) 0)
      (List.flatten
        [[.attach 5, .worker 0, .worker 0, .schedule ⟨5, 0⟩, .register, .suspend],
          List.replicate 4 (.worker 0),
          .leave false :: List.replicate 6 (.worker 0),
          .awake 0 5 true :: List.replicate 4 (.awaker 0),
          [.schedule ⟨5, 0⟩]])
      (fun state => state.returned = [(5, true)]) (started_fresh _ _) ⟨_, rfl, rfl⟩
  exact ⟨state, reachable, returned, waitsForOwnEvent_of_ownEvents reachable⟩

/-- A wake-up that finds the execution running stays in the set of early wake-ups
and ends the wait that is entered next. -/
theorem wait_returns_early :
    ∃ state : State (Fin 1) ℕ, (machine (Fin 1) ℕ).Reachable Machine.free state ∧
      ¬ WaitsForOwnEvent state := by
  obtain ⟨state, reachable, returned⟩ :=
    Machine.reachable_of_exec (machine (Fin 1) ℕ) Machine.free (started (Fin 1) 0)
      (List.flatten
        [[.attach 5, .worker 0, .worker 0, .schedule ⟨5, 0⟩, .awake 0 5 false],
          List.replicate 3 (.awaker 0),
          [.register, .suspend],
          List.replicate 2 (.worker 0),
          .leave false :: List.replicate 6 (.worker 0),
          [.schedule ⟨5, 0⟩]])
      (fun state => state.returned = [(5, false)]) (started_fresh _ _) ⟨_, rfl, rfl⟩
  exact ⟨state, reachable, fun own => own 5 (by simp [returned])⟩

end Asco.Core.Worker
