import Asco.Core.Daemon.Lifecycle

namespace Asco.Core.Daemon

open Foundation

/-! # `join`

Who joins a daemon waits for a bounded number of steps of its thread.
-/

variable {state next first last : State} {label : Label}

/-- A `run_once` sleeps at most once. -/
def SleepsOnce (state : State) (label : Label) : Prop :=
  label = .sleep → state.thread = .runOnce 0

instance : DecidableRel SleepsOnce := fun _ _ => inferInstanceAs (Decidable (_ → _))

/-- The steps of the thread of the daemon. -/
def Label.own : Label → Bool
  | .thread _ | .sleep | .timeOut => true
  | _ => false

/-- The steps that are left to the thread when it is asked to stop. -/
def ThreadPc.remaining : ThreadPc → ℕ
  | .exited => 0
  | .shutdown => 1
  | .test => 2
  | .runOnce 0 => 5
  | .runOnce (_ + 1) => 3
  | .sleeping _ => 4
  | _ => 0

/-- The thread may yet sleep. -/
def ThreadPc.sleeps : ThreadPc → Bool
  | .runOnce 0 | .sleeping _ => true
  | _ => false

/-- The thread has been asked to stop, and the permit for that is left where it may sleep. -/
structure Stopping (state : State) : Prop where
  requested : state.stopRequested = true
  released : state.thread.released = true
  awoken : state.thread.sleeps = true → 0 < state.sem

theorem Stopping.threadStep (stopping : Stopping state) {returns : Bool}
    (moved : state.threadStep returns = some next) :
    Stopping next ∧ next.thread.remaining + 1 ≤ state.thread.remaining := by
  obtain ⟨requested, released, awoken⟩ := stopping
  cases State.threadStep_cases moved with
  | stops here =>
      exact ⟨⟨requested, rfl, by simp [ThreadPc.sleeps]⟩, by simp [here, ThreadPc.remaining]⟩
  | runs here unrequested => exact absurd (unrequested.symm.trans requested) Bool.false_ne_true
  | @runOnce slept here =>
      refine ⟨⟨requested, ?_, ?_⟩, ?_⟩
      · cases returns <;> rfl
      · cases returns <;> simp [ThreadPc.sleeps]
      · rw [here]
        cases returns <;> cases slept <;> simp [ThreadPc.remaining]
  | sleeping here permit =>
      exact ⟨⟨requested, rfl, by simp [ThreadPc.sleeps]⟩, by simp [here, ThreadPc.remaining]⟩
  | shutdown here =>
      exact ⟨⟨requested, rfl, by simp [State.call, ThreadPc.sleeps]⟩,
        by simp [here, State.call, ThreadPc.remaining]⟩
  | arrive here => simp [here, ThreadPc.released] at released
  | wait here arrived => simp [here, ThreadPc.released] at released
  | setName here => simp [here, ThreadPc.released] at released
  | init here => simp [here, ThreadPc.released] at released
  | release here => simp [here, ThreadPc.released] at released

/-- The owner leaves the thread where it is. -/
theorem Stopping.ownerStep (stopping : Stopping state) (moved : state.ownerStep = some next) :
    Stopping next ∧ next.thread = state.thread := by
  obtain ⟨requested, released, awoken⟩ := stopping
  cases State.ownerStep_cases moved with
  | requestStop here => exact ⟨⟨rfl, released, awoken⟩, rfl⟩
  | release here => exact ⟨⟨requested, released, fun _ => Nat.succ_pos _⟩, rfl⟩
  | _ => exact ⟨⟨requested, released, awoken⟩, rfl⟩

/-- What a step takes from what is left to the thread. -/
theorem Stopping.move (stopping : Stopping state) (once : SleepsOnce state label)
    (started : state.owner ≠ .outside) (moved : state.move label = some next) :
    Stopping next ∧ next.thread.remaining + label.own.toNat ≤ state.thread.remaining := by
  obtain ⟨requested, released, awoken⟩ := stopping
  cases label with
  | start =>
      obtain ⟨⟨outside, _⟩, _⟩ := Option.ite_none_right_eq_some.mp moved
      exact absurd outside started
  | join =>
      simp only [State.move] at moved
      split at moved
      · cases moved
        exact ⟨⟨requested, released, awoken⟩, le_rfl⟩
      · split at moved
        · cases moved
          exact ⟨⟨requested, released, awoken⟩, le_rfl⟩
        · cases moved
          exact ⟨⟨requested, released, awoken⟩, le_rfl⟩
      · contradiction
  | destroyDerived =>
      obtain ⟨_, moved⟩ := Option.ite_none_right_eq_some.mp moved
      cases moved
      exact ⟨⟨requested, released, awoken⟩, le_rfl⟩
  | owner =>
      obtain ⟨stopping, same⟩ := Stopping.ownerStep ⟨requested, released, awoken⟩ moved
      exact ⟨stopping, by simp [same, Label.own]⟩
  | thread returns => exact Stopping.threadStep ⟨requested, released, awoken⟩ moved
  | sleep =>
      have here := once rfl
      simp only [State.move, here, Option.some.injEq] at moved
      cases moved
      exact ⟨⟨requested, rfl, fun _ => awoken (by simp [here, ThreadPc.sleeps])⟩,
        by simp [here, ThreadPc.remaining, Label.own]⟩
  | timeOut =>
      simp only [State.move] at moved
      split at moved
      · rename_i here
        cases moved
        exact ⟨⟨requested, rfl, by simp [ThreadPc.sleeps]⟩,
          by simp [here, ThreadPc.remaining, Label.own]⟩
      · contradiction
  | awake =>
      cases moved
      exact ⟨⟨requested, released, fun _ => Nat.succ_pos _⟩, le_rfl⟩

/-- A thread that has been asked to stop is not blocked. -/
theorem Stopping.enabled (stopping : Stopping state) (alive : state.thread ≠ .exited)
    (returns : Bool) : ∃ next, state.threadStep returns = some next := by
  obtain ⟨requested, released, awoken⟩ := stopping
  cases here : state.thread with
  | unstarted | arrive | wait | setName | init | release =>
      simp [here, ThreadPc.released] at released
  | test => simp [State.threadStep, here, requested]
  | runOnce | shutdown => simp [State.threadStep, here]
  | sleeping =>
      have permit := awoken (by simp [here, ThreadPc.sleeps])
      simp [State.threadStep, here, permit]
  | exited => exact absurd here alive

theorem ThreadPc.remaining_le (thread : ThreadPc) : thread.remaining ≤ 5 := by
  cases thread with
  | runOnce slept => cases slept <;> simp [ThreadPc.remaining]
  | _ => simp [ThreadPc.remaining]

theorem released_of_acquired (invariant : Invariant state)
    (acquired : state.owner.acquired = true) : state.thread.released = true := by
  have permits := invariant.permits
  cases released : state.thread.released with
  | true => rfl
  | false => simp [released, acquired] at permits

/-- The owner joins a thread that it has asked to stop and awoken. -/
structure Joining (state : State) : Prop where
  requested : state.owner = .release → state.stopRequested = true
  stopping : state.owner = .joining → Stopping state

theorem Joining.ownerStep (joining : Joining state) (invariant : Invariant state)
    (moved : state.ownerStep = some next) : Joining next := by
  cases State.ownerStep_cases moved with
  | requestStop here => exact ⟨fun _ => rfl, by simp⟩
  | release here =>
      have released := released_of_acquired invariant (by simp [here, OwnerPc.acquired])
      exact ⟨by simp, fun _ => ⟨joining.requested here, released, fun _ => Nat.succ_pos _⟩⟩
  | _ => exact ⟨by simp, by simp⟩

/-- A step of another than the owner, in which the owner is the same. -/
theorem Joining.beside (joining : Joining state) (once : SleepsOnce state label)
    (moved : state.move label = some next) (same : next.owner = state.owner)
    (kept : state.stopRequested = true → next.stopRequested = true) : Joining next := by
  refine ⟨fun releases => kept (joining.requested (same ▸ releases)), fun joins => ?_⟩
  have here : state.owner = .joining := same ▸ joins
  exact ((joining.stopping here).move once (by simp [here]) moved).1

theorem owner_of_threadStep {returns : Bool} (moved : state.threadStep returns = some next) :
    next.owner = state.owner ∧ next.stopRequested = state.stopRequested := by
  cases State.threadStep_cases moved <;> exact ⟨rfl, rfl⟩

theorem Joining.move (joining : Joining state) (invariant : Invariant state)
    (once : SleepsOnce state label) (moved : state.move label = some next) : Joining next := by
  have step := moved
  cases label with
  | start =>
      obtain ⟨_, moved⟩ := Option.ite_none_right_eq_some.mp moved
      cases moved
      exact ⟨by simp, by simp⟩
  | join =>
      simp only [State.move] at moved
      split at moved
      · cases moved
        exact joining
      · split at moved
        · cases moved
          exact joining
        · cases moved
          exact ⟨by simp, by simp⟩
      · contradiction
  | destroyDerived =>
      obtain ⟨_, moved⟩ := Option.ite_none_right_eq_some.mp moved
      cases moved
      exact joining.beside once step rfl id
  | owner => exact joining.ownerStep invariant moved
  | thread returns =>
      obtain ⟨same, kept⟩ := owner_of_threadStep moved
      exact joining.beside once step same kept.trans
  | sleep | timeOut =>
      simp only [State.move] at moved
      split at moved
      · cases moved
        exact joining.beside once step rfl id
      · contradiction
  | awake =>
      cases moved
      exact joining.beside once step rfl id

theorem joining_of_reachable (reachable : machine.Reachable SleepsOnce state) : Joining state := by
  obtain ⟨first, started, run⟩ := reachable
  refine (run.reachable_preserves Joining ⟨first, started, .refl first⟩ (fun _ _ once => once)
    (fun state label next reached joining once moved =>
      joining.move (invariant_of_reachable reached) once moved) ?_).2
  cases started
  exact ⟨by simp [State.constructed], by simp [State.constructed]⟩

theorem started_of_move (started : state.owner ≠ .outside) (moved : state.move label = some next) :
    next.owner ≠ .outside := by
  cases label with
  | start =>
      obtain ⟨_, moved⟩ := Option.ite_none_right_eq_some.mp moved
      cases moved
      simp
  | join =>
      simp only [State.move] at moved
      split at moved
      · rename_i outside
        exact absurd outside started
      · split at moved
        · cases moved
          exact started
        · cases moved
          simp
      · contradiction
  | destroyDerived =>
      obtain ⟨_, moved⟩ := Option.ite_none_right_eq_some.mp moved
      cases moved
      exact started
  | owner =>
      cases State.ownerStep_cases moved <;> simp
  | thread returns =>
      rw [(owner_of_threadStep moved).1]
      exact started
  | sleep | timeOut =>
      simp only [State.move] at moved
      split at moved
      · cases moved
        exact started
      · contradiction
  | awake =>
      cases moved
      exact started

/-- The run lemma of `Stopping.move`. -/
theorem Stopping.exec (stopping : Stopping first) (started : first.owner ≠ .outside)
    {labels : List Label} (executed : machine.exec SleepsOnce first labels = some last) :
    Stopping last ∧ last.thread.remaining + labels.countP Label.own ≤ first.thread.remaining := by
  induction labels generalizing first with
  | nil =>
      cases executed
      exact ⟨stopping, le_rfl⟩
  | cons label rest ih =>
      obtain ⟨once, next, moved, remaining⟩ := Machine.exec_cons_eq_some.mp executed
      obtain ⟨stopped, taken⟩ := stopping.move once started moved
      obtain ⟨stopping, bound⟩ := ih stopped (started_of_move started moved) remaining
      refine ⟨stopping, ?_⟩
      rw [List.countP_cons]
      cases own : label.own <;> simp only [own, Bool.toNat_true, Bool.toNat_false] at taken ⊢
        <;> simp <;> omega

/-- While the owner is in `join`, the thread is never blocked and takes at most five steps, one
`run_once` in which it may sleep, the test, and `shutdown` among them.  The owner goes on after
them. -/
theorem join_of_exec (reachable : machine.Reachable SleepsOnce first)
    (joining : first.owner = .joining) {labels : List Label}
    (executed : machine.exec SleepsOnce first labels = some last) :
    labels.countP Label.own ≤ 5 ∧
      (last.thread ≠ .exited → ∀ returns, ∃ next, last.move (.thread returns) = some next) ∧
      (last.thread = .exited → last.owner = .joining →
        ∃ next, last.move .owner = some next ∧ next.joined = true) := by
  have stopping := (joining_of_reachable reachable).stopping joining
  obtain ⟨still, bound⟩ := stopping.exec (by simp [joining]) executed
  have limit := ThreadPc.remaining_le first.thread
  refine ⟨by omega, still.enabled, fun exited joins => ?_⟩
  simp [State.move, State.ownerStep, joins, exited]

/-- The thread sleeps when the owner joins. -/
def asleep : List Label :=
  [.start, .owner, .owner, .thread true, .owner, .thread true, .thread true, .thread true,
    .thread true, .owner, .thread true, .sleep, .join, .owner, .owner]

theorem join_of_exec_asleep : ∃ first last : State,
    first.thread = .sleeping 0 ∧ first.owner = .joining ∧ last.joined = true ∧
      [Label.thread true, .thread true, .thread true, .thread true, .owner].countP
        Label.own ≤ 5 := by
  obtain ⟨first, reachable, sleeping, joining, last, executed, joined⟩ :=
    Machine.reachable_of_exec machine SleepsOnce .constructed asleep
      (fun first => first.thread = .sleeping 0 ∧ first.owner = .joining ∧
        ∃ last, machine.exec SleepsOnce first
          [.thread true, .thread true, .thread true, .thread true, .owner] = some last ∧
            last.joined = true)
      rfl ⟨_, rfl, rfl, rfl, _, rfl, rfl⟩
  exact ⟨first, last, sleeping, joining, joined, (join_of_exec reachable joining executed).1⟩

/-- A `run_once` that sleeps twice can take the permit of `join` for another, and then nobody
awakes the thread. -/
theorem exists_blocked : ∃ state, machine.Reachable Machine.free state ∧
    state.owner = .joining ∧ state.thread = .sleeping 1 ∧
      state.threadStep true = none ∧ state.ownerStep = none :=
  Machine.reachable_of_any machine Machine.free .constructed
    (asleep ++ [.thread true, .sleep])
    (fun state => state.owner = .joining ∧ state.thread = .sleeping 1 ∧
      state.threadStep true = none ∧ state.ownerStep = none) rfl (by decide)

/-! ## A derived class that is destroyed -/

/-- The destructor of the derived class has joined the thread, if there is one. -/
def JoinsFirst (state : State) (label : Label) : Prop :=
  label = .destroyDerived → state.joined = true ∨ state.owner = .outside

instance : DecidableRel JoinsFirst := fun _ _ => inferInstanceAs (Decidable (_ → _))

/-- No thread is left to call a virtual function of a derived class that is gone. -/
structure Quiet (state : State) : Prop where
  unstray : state.stray = false
  gone : state.derived = false → state.thread = .unstarted ∨ state.thread = .exited

theorem Quiet.threadStep (quiet : Quiet state) {returns : Bool}
    (moved : state.threadStep returns = some next) : Quiet next := by
  have alive : state.derived = true := by
    cases derived : state.derived with
    | true => rfl
    | false =>
        rcases quiet.gone derived with here | here <;> simp [State.threadStep, here] at moved
  obtain ⟨unstray, _⟩ := quiet
  have called (event : Event) (thread : ThreadPc) : Quiet (state.call event thread) :=
    ⟨by simp [State.call, unstray, alive], by simp [State.call, alive]⟩
  have gone : state.derived = false → False :=
    fun gone => Bool.false_ne_true (gone.symm.trans alive)
  cases State.threadStep_cases moved with
  | init here => exact called _ _
  | runs here unrequested => exact called _ _
  | shutdown here => exact called _ _
  | _ => exact ⟨unstray, fun left => (gone left).elim⟩

theorem Quiet.move (quiet : Quiet state) (invariant : Invariant state)
    (first : JoinsFirst state label) (moved : state.move label = some next) : Quiet next := by
  cases label with
  | start =>
      obtain ⟨⟨_, alive⟩, moved⟩ := Option.ite_none_right_eq_some.mp moved
      cases moved
      exact ⟨quiet.unstray, by simp [alive]⟩
  | join =>
      simp only [State.move] at moved
      split at moved
      · cases moved
        exact quiet
      · split at moved
        · cases moved
          exact quiet
        · cases moved
          exact ⟨quiet.unstray, quiet.gone⟩
      · contradiction
  | destroyDerived =>
      obtain ⟨_, moved⟩ := Option.ite_none_right_eq_some.mp moved
      cases moved
      refine ⟨quiet.unstray, fun _ => ?_⟩
      rcases first rfl with joined | outside
      · exact .inr (invariant.joined joined)
      · exact .inl (invariant.unstarted.mpr outside)
  | owner =>
      cases State.ownerStep_cases moved <;> exact ⟨quiet.unstray, quiet.gone⟩
  | thread returns => exact quiet.threadStep moved
  | sleep | timeOut =>
      simp only [State.move] at moved
      split at moved
      · rename_i here
        cases moved
        refine ⟨quiet.unstray, fun gone => ?_⟩
        rcases quiet.gone gone with fresh | exited
        · cases here.symm.trans fresh
        · cases here.symm.trans exited
      · contradiction
  | awake =>
      cases moved
      exact ⟨quiet.unstray, quiet.gone⟩

/-- The destructor of `daemon` joins too late for a derived class: its thread calls no virtual
function of one that is gone if the destructor of the derived class has joined it. -/
theorem not_stray_of_reachable (reachable : machine.Reachable JoinsFirst state) :
    state.stray = false ∧
      (state.derived = false → state.thread = .unstarted ∨ state.thread = .exited) := by
  obtain ⟨first, started, run⟩ := reachable
  have quiet := (run.reachable_preserves Quiet ⟨first, started, .refl first⟩
    (fun _ _ joins => joins)
    (fun state label next reached quiet joins moved =>
      quiet.move (invariant_of_reachable reached) joins moved) (by
        cases started
        exact ⟨rfl, by simp [State.constructed]⟩)).2
  exact ⟨quiet.unstray, quiet.gone⟩

theorem not_stray_of_reachable_joined : ∃ state : State, state.derived = false ∧
    state.stray = false ∧
      (state.derived = false → state.thread = .unstarted ∨ state.thread = .exited) := by
  obtain ⟨state, reachable, gone⟩ :=
    Machine.reachable_of_any machine JoinsFirst .constructed
      (asleep ++ [.thread true, .thread true, .thread true, .thread true, .owner, .destroyDerived])
      (fun state => state.derived = false) rfl rfl
  exact ⟨state, gone, not_stray_of_reachable reachable⟩

/-- Without that the thread may call `run_once` of a derived class that is gone. -/
theorem exists_stray : ∃ state, machine.Reachable Machine.free state ∧
    state.owner = .idle ∧ state.joined = false ∧ state.stray = true :=
  Machine.reachable_of_any machine Machine.free .constructed
    [.start, .owner, .owner, .thread true, .owner, .thread true, .thread true, .thread true,
      .thread true, .owner, .destroyDerived, .thread true]
    (fun state => state.owner = .idle ∧ state.joined = false ∧ state.stray = true) rfl (by decide)

end Asco.Core.Daemon
