import Asco.Core.Daemon

namespace Asco.Core.Daemon

open Foundation

/-! # What the thread of a daemon calls -/

/-- The thread has arrived at `m_b`. -/
def ThreadPc.arrived : ThreadPc → Bool
  | .unstarted | .arrive => false
  | _ => true

/-- The thread has gone through `m_b`. -/
def ThreadPc.passed : ThreadPc → Bool
  | .unstarted | .arrive | .wait => false
  | _ => true

/-- The thread has released `m_init_sem`. -/
def ThreadPc.released : ThreadPc → Bool
  | .unstarted | .arrive | .wait | .setName | .init | .release _ => false
  | _ => true

def OwnerPc.assigned : OwnerPc → Bool
  | .outside | .assign => false
  | _ => true

def OwnerPc.arrived : OwnerPc → Bool
  | .outside | .assign | .arrive => false
  | _ => true

/-- The owner has acquired `m_init_sem`. -/
def OwnerPc.acquired : OwnerPc → Bool
  | .idle | .requestStop | .release | .joining => true
  | _ => false

/-- The calls of a thread whose `init` has returned, before its `shutdown`. -/
def session (ready : Bool) (runs : ℕ) : List Event :=
  .init ready :: List.replicate runs .runOnce

/-- What has been called where the thread is. -/
def Called : ThreadPc → List Event → Prop
  | .unstarted, history | .arrive, history | .wait, history | .setName, history
  | .init, history => history = []
  | .release ready, history => history = session ready 0
  | .test, history | .runOnce _, history | .sleeping _, history =>
      ∃ runs, history = session true runs
  | .shutdown, history =>
      ∃ ready runs, (ready = false → runs = 0) ∧ history = session ready runs
  | .exited, history =>
      ∃ ready runs, (ready = false → runs = 0) ∧ history = session ready runs ++ [.shutdown]

structure Invariant (state : State) : Prop where
  arrivals : state.arrived = state.thread.arrived.toNat + state.owner.arrived.toNat
  passed : state.thread.passed = true → state.owner.arrived = true
  assigned : state.assigned = state.owner.assigned
  unstarted : state.thread = .unstarted ↔ state.owner = .outside
  permits : state.initSem + state.owner.acquired.toNat = state.thread.released.toNat
  called : Called state.thread state.history
  joined : state.joined = true → state.thread = .exited

variable {state next first last : State} {label : Label}

theorem session_succ (ready : Bool) (runs : ℕ) :
    session ready runs ++ [.runOnce] = session ready (runs + 1) := by
  simp [session, List.replicate_succ']

theorem ThreadPc.arrived_of_released {thread : ThreadPc} (released : thread.released = true) :
    thread.arrived = true := by
  cases thread <;> first | rfl | cases released

theorem ThreadPc.passed_of_released {thread : ThreadPc} (released : thread.released = true) :
    thread.passed = true := by
  cases thread <;> first | rfl | cases released

theorem OwnerPc.assigned_of_arrived {owner : OwnerPc} (arrived : owner.arrived = true) :
    owner.assigned = true := by
  cases owner <;> first | rfl | cases arrived

theorem init_mem_session (ready : Bool) (runs : ℕ) : Event.init ready ∈ session ready runs :=
  List.mem_cons_self

theorem init_of_called {thread : ThreadPc} {history : List Event}
    (released : thread.released = true) (called : Called thread history) :
    ∃ ready, Event.init ready ∈ history := by
  cases thread with
  | unstarted | arrive | wait | setName | init | release => cases released
  | test | runOnce | sleeping =>
      obtain ⟨runs, rfl⟩ := called
      exact ⟨true, init_mem_session true runs⟩
  | shutdown =>
      obtain ⟨ready, runs, _, rfl⟩ := called
      exact ⟨ready, init_mem_session ready runs⟩
  | exited =>
      obtain ⟨ready, runs, _, rfl⟩ := called
      exact ⟨ready, List.mem_append_left _ (init_mem_session ready runs)⟩

theorem Invariant.initial : Invariant .constructed :=
  ⟨rfl, by simp [State.constructed, ThreadPc.passed], rfl, by simp [State.constructed], rfl, rfl,
    by simp [State.constructed]⟩

/-- A step of the thread once it has released `m_init_sem`. -/
theorem Invariant.inside (invariant : Invariant state) {thread : ThreadPc} {history : List Event}
    {sem : ℕ} {stray : Bool} (released : state.thread.released = true)
    (still : thread.released = true) (alive : state.thread ≠ .exited)
    (called : Called thread history) :
    Invariant { state with thread, history, sem, stray } := by
  have passed := invariant.passed (ThreadPc.passed_of_released released)
  refine ⟨?_, fun _ => passed, invariant.assigned, ?_, ?_, called, ?_⟩
  · simpa [ThreadPc.arrived_of_released still, ThreadPc.arrived_of_released released]
      using invariant.arrivals
  · constructor
    · intro (fresh : thread = .unstarted)
      rw [fresh] at still
      cases still
    · intro outside
      rw [show state.owner = .outside from outside] at passed
      cases passed
  · simpa [still, released] using invariant.permits
  · intro already
    exact absurd (invariant.joined already) alive

section

attribute [local simp] ThreadPc.released

theorem Invariant.threadStep (invariant : Invariant state) {returns : Bool}
    (moved : state.threadStep returns = some next) : Invariant next := by
  have before := invariant
  obtain ⟨arrivals, passed, assigned, unstarted, permits, called, joined⟩ := invariant
  cases here : state.thread with
  | unstarted => simp [State.threadStep, here] at moved
  | arrive =>
      simp only [State.threadStep, here, Option.some.injEq] at moved
      rw [here] at arrivals unstarted permits called joined
      cases moved
      refine ⟨?_, by simp [ThreadPc.passed], assigned, by simpa using unstarted, permits, called,
        by simpa using joined⟩
      simp only [ThreadPc.arrived, Bool.toNat_true, Bool.toNat_false] at arrivals ⊢
      omega
  | wait =>
      simp only [State.threadStep, here] at moved
      rw [here] at arrivals unstarted permits called joined
      obtain ⟨both, moved⟩ := Option.ite_none_right_eq_some.mp moved
      cases moved
      -- the other arrival is that of the owner
      refine ⟨arrivals, fun _ => ?_, assigned, by simpa using unstarted, permits, called,
        by simpa using joined⟩
      cases owner : state.owner.arrived with
      | true => rfl
      | false => simp [owner, arrivals, ThreadPc.arrived] at both
  | setName =>
      simp only [State.threadStep, here, Option.some.injEq] at moved
      rw [here] at arrivals passed unstarted permits called joined
      cases moved
      exact ⟨arrivals, passed, assigned, by simpa using unstarted, permits, called,
        by simpa using joined⟩
  | init =>
      simp only [State.threadStep, here, Option.some.injEq] at moved
      rw [here] at arrivals passed unstarted permits called joined
      cases moved
      refine ⟨arrivals, passed, assigned, by simpa [State.call] using unstarted, permits, ?_,
        by simpa [State.call] using joined⟩
      have empty : state.history = [] := called
      simp [State.call, Called, session, empty]
  | release succeeds =>
      simp only [State.threadStep, here, Option.some.injEq] at moved
      rw [here] at arrivals passed unstarted permits called joined
      cases moved
      have none : state.initSem = 0 ∧ state.owner.acquired.toNat = 0 := by
        simpa only [ThreadPc.released, Bool.toNat_false, Nat.add_eq_zero_iff] using permits
      cases succeeds with
      | true =>
          refine ⟨arrivals, passed, assigned, by simpa using unstarted, ?_, ⟨0, called⟩,
            by simpa using joined⟩
          simp [none.1, none.2]
      | false =>
          refine ⟨arrivals, passed, assigned, by simpa using unstarted, ?_,
            ⟨false, 0, fun _ => rfl, called⟩, by simpa using joined⟩
          simp [none.1, none.2]
  | test =>
      simp only [State.threadStep, here] at moved
      rw [here] at called
      obtain ⟨runs, called⟩ := called
      split at moved
      · cases moved
        exact before.inside (by simp [here]) rfl (by simp [here])
          ⟨true, runs, by simp, called⟩
      · cases moved
        exact before.inside (by simp [here]) rfl (by simp [here])
          ⟨runs + 1, by rw [called, session_succ]⟩
  | runOnce slept =>
      simp only [State.threadStep, here, Option.some.injEq] at moved
      rw [here] at called
      obtain ⟨runs, called⟩ := called
      cases moved
      cases returns with
      | true =>
          exact before.inside (by simp [here]) rfl (by simp [here])
            ⟨runs, called⟩
      | false =>
          exact before.inside (by simp [here]) rfl (by simp [here])
            ⟨true, runs, by simp, called⟩
  | sleeping slept =>
      simp only [State.threadStep, here] at moved
      rw [here] at called
      obtain ⟨_, moved⟩ := Option.ite_none_right_eq_some.mp moved
      cases moved
      exact before.inside (by simp [here]) rfl (by simp [here]) called
  | shutdown =>
      simp only [State.threadStep, here, Option.some.injEq] at moved
      rw [here] at called
      obtain ⟨ready, runs, none, called⟩ := called
      cases moved
      exact before.inside (by simp [here]) rfl (by simp [here])
        ⟨ready, runs, none, by rw [called]⟩
  | exited => simp [State.threadStep, here] at moved

theorem Invariant.ownerStep (invariant : Invariant state)
    (moved : state.ownerStep = some next) : Invariant next := by
  obtain ⟨arrivals, passed, assigned, unstarted, permits, called, joined⟩ := invariant
  cases here : state.owner with
  | outside => simp [State.ownerStep, here] at moved
  | assign =>
      simp only [State.ownerStep, here, Option.some.injEq] at moved
      rw [here] at arrivals passed unstarted permits
      cases moved
      exact ⟨arrivals, passed, rfl, by simpa using unstarted, permits, called, joined⟩
  | arrive =>
      simp only [State.ownerStep, here, Option.some.injEq] at moved
      rw [here] at arrivals assigned unstarted permits
      cases moved
      refine ⟨?_, fun _ => rfl, assigned, by simpa using unstarted, permits, called, joined⟩
      simp only [OwnerPc.arrived, Bool.toNat_true, Bool.toNat_false] at arrivals ⊢
      omega
  | wait =>
      simp only [State.ownerStep, here] at moved
      rw [here] at arrivals passed assigned unstarted permits
      obtain ⟨_, moved⟩ := Option.ite_none_right_eq_some.mp moved
      cases moved
      exact ⟨arrivals, passed, assigned, by simpa using unstarted, permits, called, joined⟩
  | acquire =>
      simp only [State.ownerStep, here] at moved
      rw [here] at arrivals passed assigned unstarted permits
      obtain ⟨some, moved⟩ := Option.ite_none_right_eq_some.mp moved
      cases moved
      refine ⟨arrivals, passed, assigned, by simpa using unstarted, ?_, called, joined⟩
      simp only [OwnerPc.acquired, Bool.toNat_true, Bool.toNat_false] at permits ⊢
      omega
  | idle => simp [State.ownerStep, here] at moved
  | requestStop | release =>
      simp only [State.ownerStep, here, Option.some.injEq] at moved
      rw [here] at arrivals passed assigned unstarted permits
      cases moved
      exact ⟨arrivals, passed, assigned, by simpa using unstarted, permits, called, joined⟩
  | joining =>
      simp only [State.ownerStep, here] at moved
      rw [here] at arrivals passed assigned unstarted permits
      obtain ⟨exited, moved⟩ := Option.ite_none_right_eq_some.mp moved
      cases moved
      exact ⟨arrivals, passed, assigned, by simpa using unstarted, permits, called,
        fun _ => exited⟩

theorem Invariant.move (invariant : Invariant state) (moved : state.move label = some next) :
    Invariant next := by
  have before := invariant
  obtain ⟨arrivals, passed, assigned, unstarted, permits, called, joined⟩ := invariant
  cases label with
  | start =>
      obtain ⟨⟨outside, _⟩, moved⟩ := Option.ite_none_right_eq_some.mp moved
      cases moved
      have fresh := unstarted.mpr outside
      rw [fresh] at arrivals permits called
      rw [outside] at arrivals assigned permits
      refine ⟨arrivals, by simp [ThreadPc.passed], assigned, by simp, permits, called, ?_⟩
      intro already
      cases fresh.symm.trans (joined already)
  | join =>
      simp only [State.move] at moved
      split at moved
      · cases moved
        exact before
      · rename_i idle
        split at moved
        · cases moved
          exact before
        · cases moved
          rw [idle] at arrivals passed assigned unstarted permits
          exact ⟨arrivals, passed, assigned, by simpa using unstarted, permits, called, joined⟩
      · contradiction
  | destroyDerived =>
      obtain ⟨_, moved⟩ := Option.ite_none_right_eq_some.mp moved
      cases moved
      exact ⟨arrivals, passed, assigned, unstarted, permits, called, joined⟩
  | owner => exact before.ownerStep moved
  | thread returns => exact before.threadStep moved
  | sleep =>
      simp only [State.move] at moved
      split at moved
      · rename_i slept here
        cases moved
        rw [here] at called
        exact before.inside (by simp [here]) rfl (by simp [here]) called
      · contradiction
  | timeOut =>
      simp only [State.move] at moved
      split at moved
      · rename_i slept here
        cases moved
        rw [here] at called
        exact before.inside (by simp [here]) rfl (by simp [here]) called
      · contradiction
  | awake =>
      cases moved
      exact ⟨arrivals, passed, assigned, unstarted, permits, called, joined⟩

end

theorem invariant_of_reachable {guard : State → Label → Prop}
    (reachable : machine.Reachable guard state) : Invariant state :=
  reachable.invariant (fun _ started => started ▸ .initial)
    fun _ _ _ invariant _ moved => invariant.move moved

/-- `init` is called once and first, `run_once` only if it has succeeded, and `shutdown` once
and last, whatever the threads do.  The thread names itself when `m_dthread` is there, `start`
returns after `init`, and `join` after `shutdown`. -/
theorem lifecycle_of_reachable (reachable : machine.Reachable Machine.free state) :
    (state.history = [] ∨ ∃ ready runs, (ready = false → runs = 0) ∧
      state.history = .init ready :: List.replicate runs .runOnce ++
        (if state.thread = .exited then [.shutdown] else [])) ∧
    (state.thread = .setName → state.assigned = true) ∧
    (state.owner = .idle → ∃ ready, Event.init ready ∈ state.history) ∧
    (state.joined = true → ∃ before, state.history = before ++ [.shutdown]) := by
  obtain ⟨_, passed, assigned, _, permits, called, joined⟩ := invariant_of_reachable reachable
  refine ⟨?_, fun naming => ?_, fun idle => ?_, fun already => ?_⟩
  · cases here : state.thread with
    | unstarted | arrive | wait | setName | init =>
        rw [here] at called
        exact .inl called
    | release ready =>
        rw [here] at called
        exact .inr ⟨ready, 0, fun _ => rfl, by simpa [Called, session] using called⟩
    | test | runOnce | sleeping =>
        rw [here] at called
        obtain ⟨runs, called⟩ := called
        exact .inr ⟨true, runs, by simp, by simpa [session] using called⟩
    | shutdown =>
        rw [here] at called
        obtain ⟨ready, runs, none, called⟩ := called
        exact .inr ⟨ready, runs, none, by simpa [session] using called⟩
    | exited =>
        rw [here] at called
        obtain ⟨ready, runs, none, called⟩ := called
        exact .inr ⟨ready, runs, none, by simpa [session] using called⟩
  · have arrived := passed (by simp [naming, ThreadPc.passed])
    rw [assigned]
    exact OwnerPc.assigned_of_arrived arrived
  · rw [idle] at permits
    have released : state.thread.released = true := by
      cases released : state.thread.released with
      | true => rfl
      | false => simp [released, OwnerPc.acquired] at permits
    exact init_of_called released called
  · rw [joined already] at called
    obtain ⟨ready, runs, _, called⟩ := called
    exact ⟨session ready runs, called⟩

theorem lifecycle_of_reachable_failed : ∃ state : State,
    state.history = [.init false, .shutdown] ∧
      (state.history = [] ∨ ∃ ready runs, (ready = false → runs = 0) ∧
        state.history = .init ready :: List.replicate runs .runOnce ++
          (if state.thread = .exited then [.shutdown] else [])) ∧
      (state.thread = .setName → state.assigned = true) ∧
      (state.owner = .idle → ∃ ready, Event.init ready ∈ state.history) ∧
      (state.joined = true → ∃ before, state.history = before ++ [.shutdown]) := by
  obtain ⟨state, reachable, failed⟩ :=
    Machine.reachable_of_any machine Machine.free .constructed
      [.start, .owner, .owner, .thread true, .thread true, .thread true, .thread false,
        .thread true, .thread true]
      (fun state => state.history = [.init false, .shutdown]) rfl rfl
  exact ⟨state, failed, lifecycle_of_reachable reachable⟩

end Asco.Core.Daemon
