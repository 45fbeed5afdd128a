import Asco.Core.Worker.Tree.Steps

namespace Asco.Core.Worker.Tree

open Foundation Asco.Core.Task
open DynprioScheduler (ExecutionState)

/-! # Domains and schedulers agree

Between two calls of `run_once` a domain records an execution as suspended exactly when
its scheduler holds it as suspended, and a wake-up leaves no execution above the woken
one suspended.
-/

variable {Id : Type*} [DecidableEq Id] {state next : State Id} {address : List Id} {id : Id}

/-! ## What the executed coroutine and the wake-ups do -/

/-- A call that leaves the stack and the subdomains alone while an execution is executed. -/
theorem Coherent.executing (coherent : Coherent next) (ready : Ready state) (kept : Kept state next)
    (executing : state.phase = .executing) : Ready next where
  toCoherent := coherent
  idle := by
    rw [kept.phase, kept.stack]
    exact ready.idle
  calm others := absurd (kept.phase.trans executing) others
  bare _ other := by
    rw [kept.stack]
    have missing := kept.isSome (other :: path state.stack)
    rw [ready.bare executing other] at missing
    exact Option.isNone_iff_eq_none.mp (by simpa using missing)

theorem Ready.suspend {top : Frame Id} {rest : List (Frame Id)} (ready : Ready state)
    (executing : state.phase = .executing) (whole : state.stack = top :: rest)
    (suspends : state.suspendCurrent (path rest) top.id = some next) : Ready next := by
  obtain ⟨coherent, after, turned, _⟩ := ready.toCoherent.suspend whole suspends
  exact coherent.executing ready turned.kept executing

theorem Ready.construct (ready : Ready state) (executing : state.phase = .executing)
    (nonempty : state.stack ≠ []) (size : ℕ) : Ready (state.construct size) where
  toCoherent := ready.toCoherent.construct nonempty size
  idle := ready.idle
  calm others := absurd executing others
  bare _ other := by
    have apart : other :: path state.stack ≠ path state.stack := List.cons_ne_self _ _
    have pruned : (state.prune (path state.stack)).nested (other :: path state.stack) = none :=
      if_pos (List.suffix_cons _ _)
    exact (Function.update_of_ne apart _ _).trans pruned

theorem Ready.grown {sources : List (CancelSource Id)} (ready : Ready state)
    (sound : Sound next (state.stack.getLast?.map Frame.id))
    (grown : Grown state next address id sources) : Ready next where
  toCoherent := ready.toCoherent.grown sound grown
  idle := by
    rw [grown.phase, grown.stack]
    exact ready.idle
  calm others place other view member viewed := by
    rw [grown.phase] at others
    rcases grown.mem_executions.mp member with ⟨rfl, rfl⟩ | member
    · exact Option.some.inj (grown.new.symm.trans viewed) ▸ rfl
    · rw [grown.views place other member] at viewed
      exact ready.calm others place other view member viewed
  bare executing other := by
    rw [grown.phase] at executing
    rw [grown.stack]
    have missing := grown.isSome (other :: path state.stack)
    rw [ready.bare executing other] at missing
    exact Option.isNone_iff_eq_none.mp (by simpa using missing)

/-- What `activate_all` leaves: every execution of the domain is recorded as active. -/
theorem Sound.cancel {running : Option Id} (sound : Sound state running)
    (cancelled : state.cancel address = some next) :
    Sound next running ∧
      Kept { state with requested := Function.update state.requested (.proxy address) true } next ∧
      ∀ place other view, other ∈ state.executions place → state.view place other = some view →
        next.view place other =
          some (if place = address then { view with state := .active } else view) := by
  cases address with
  | nil =>
      cases cancelled
      obtain ⟨holds, views⟩ := sound.root.activateAll
      refine ⟨{ sound with root := holds }, ⟨fun _ => rfl, rfl⟩,
        fun place other view member viewed => ?_⟩
      cases place with
      | nil =>
          rw [if_pos rfl, ← Option.some.inj viewed]
          exact congrArg some (views other member)
      | cons parent above =>
          rw [if_neg (List.cons_ne_nil _ _)]
          exact viewed
  | cons parent above =>
      obtain ⟨domain, present, stepped⟩ := Option.bind_eq_some_iff.mp cancelled
      cases stepped
      have present : state.nested (parent :: above) = some domain := present
      obtain ⟨filled, contexts, views⟩ := (sound.filled _ _ present).activateAll
      have outside : ([] : List Id) ≠ parent :: above := (List.cons_ne_nil _ _).symm
      refine ⟨⟨sound.root, ?_, ?_, ?_⟩, ⟨?_, rfl⟩, ?_⟩
      · simp only [Function.update_of_ne outside]
        exact sound.rootless
      · intro place other
        by_cases here : place = parent :: above
        · subst here
          simp only [Function.update_self, Option.some.injEq]
          rintro rfl
          exact filled
        · simp only [Function.update_of_ne here]
          exact sound.filled place other
      · intro upper higher gone
        by_cases here : upper :: higher = parent :: above
        · rw [here] at gone
          simp at gone
        · simp only [Function.update_of_ne here] at gone
          exact sound.absent upper higher gone
      · intro place
        by_cases here : place = parent :: above
        · subst here
          simp only [Function.update_self, present, Option.map_some, contexts]
        · simp only [Function.update_of_ne here]
      · intro place other view member viewed
        cases place with
        | nil =>
            rw [if_neg outside]
            exact viewed
        | cons upper higher =>
            simp only [State.view] at viewed ⊢
            by_cases here : upper :: higher = parent :: above
            · rw [here] at member viewed ⊢
              rw [present, Option.bind_some] at viewed
              simp only [Function.update_self, Option.bind_some, views other member, viewed,
                Option.map_some, if_pos]
            · simp only [Function.update_of_ne here, here, if_false, viewed]

theorem Ready.cancel (ready : Ready state) (executing : state.phase = .executing)
    (active : ∀ id ∈ state.executions address, ¬ state.Held address id)
    (cancelled : state.cancel address = some next) : Ready next := by
  obtain ⟨sound, kept, views⟩ := ready.sound.cancel cancelled
  have requested := ready.request (Function.update state.requested (.proxy address) true)
  refine (requested.toCoherent.changed sound kept (fun place other view member viewed agreed => ?_)
    ?_).executing requested kept executing
  · refine ⟨_, views place other view member viewed, ?_⟩
    split
    · rename_i here
      subst here
      have runs : view.active = true := by
        cases running : view.active with
        | true => rfl
        | false => exact absurd ⟨view, viewed, running⟩ (active other member)
      exact ⟨fun running => running, fun inactive => by rw [runs] at inactive; contradiction, nofun,
        agreed.asks⟩
    · exact ⟨fun running => running, agreed⟩
  · intro other parent above member _ inactive running
    obtain ⟨view, viewed⟩ := ready.sound.exists_view member
    obtain ⟨after, shown, runs⟩ := running
    have seen := views _ other view member viewed
    have same : after.active = view.active := by
      rw [← Option.some.inj (seen.symm.trans shown)]
      split <;> rfl
    exact absurd ⟨view, viewed, same ▸ runs⟩ inactive

theorem State.present_of_awake (awoken : state.awakeExecution id address = some next) :
    address = [] ∨ (state.nested address).isSome := by
  cases address with
  | nil => exact .inl rfl
  | cons parent above =>
      obtain ⟨_, here, _⟩ := Option.bind_eq_some_iff.mp awoken
      obtain ⟨domain, present, _⟩ := Option.bind_eq_some_iff.mp here
      exact .inr (by rw [present]; rfl)

theorem Ready.wakes (ready : Ready state) (awoken : state.awakeExecution id address = some next) :
    Wakes state next (state.stack.getLast?.map Frame.id) address id :=
  ready.sound.awakeExecution (ready.toCoherent.rising (State.present_of_awake awoken)) awoken

theorem Ready.awake (ready : Ready state) (awoken : state.awakeExecution id address = some next) :
    Ready next := by
  have wakes := ready.wakes awoken
  have coherent : Coherent next := by
    refine ready.toCoherent.changed wakes.sound wakes.kept
      (fun place other view member viewed agreed => ?_) ?_
    · obtain ⟨after, shown, rfl | ⟨rfl, _⟩⟩ := wakes.views place other view member viewed
      · exact ⟨after, shown, fun runs => runs, agreed⟩
      · exact ⟨_, shown, fun _ => View.awoken_active, agreed.awoken⟩
    · intro other parent above member present inactive running
      obtain ⟨view, viewed⟩ := ready.sound.exists_view member
      obtain ⟨domain, holds⟩ := ready.sound.exists_domain member
      have attached := ready.parent parent above (by rw [holds]; rfl)
      obtain ⟨after, shown, same | ⟨_, within⟩⟩ := wakes.views _ other view member viewed
      · subst same
        obtain ⟨later, seen, runs⟩ := running
        obtain rfl := Option.some.inj (shown.symm.trans seen)
        exact absurd ⟨after, viewed, runs⟩ inactive
      · exact wakes.wakes parent above ((List.suffix_cons _ _).trans within) attached
  refine ⟨coherent, ?_, fun others place other view member viewed => ?_, fun executing => ?_⟩
  · rw [wakes.kept.phase, wakes.kept.stack]
    exact ready.idle
  · rw [wakes.kept.phase] at others
    rw [wakes.kept.executions] at member
    obtain ⟨before, earlier⟩ := ready.sound.exists_view member
    have calm := ready.calm others place other before member earlier
    obtain ⟨after, shown, same⟩ := wakes.views place other before member earlier
    obtain rfl := Option.some.inj (shown.symm.trans viewed)
    rcases same with rfl | ⟨rfl, _⟩
    · exact calm
    · cases asks : before.awoken.suspendNow with
      | true => exact absurd (View.awoken_suspendNow asks) (by rw [calm]; nofun)
      | false => rfl
  · rw [wakes.kept.phase] at executing
    exact (coherent.executing ready wakes.kept executing).bare (wakes.kept.phase.trans executing)

/-! ## Runs -/

theorem Ready.leave {finished : Bool} {execTime : UInt64} (ready : Ready state)
    (executing : state.phase = .executing) (leaves : state.leave execTime finished = some next) :
    Ready next :=
  ready.toCoherent.leave (fun _ _ _ _ _ _ id _ _ => ready.bare executing id) leaves

theorem Ready.step {maxDepth : ℕ} {label : Label Id} (ready : Ready state)
    (allowed : CancelsActive state label) (moved : state.move maxDepth label = some next) :
    Ready next := by
  cases label with
  | fetch id requested =>
      obtain ⟨idle, fetched⟩ := Option.ite_none_right_eq_some.mp moved
      have ready := ready.request (Function.update state.requested (.task id) requested)
      obtain ⟨sound, grown⟩ := ready.sound.attachExecution
        (fun domain holds => nomatch ready.sound.rootless.symm.trans holds) fetched
      exact ready.grown sound grown
  | schedule id =>
      obtain ⟨idle, scheduled⟩ := Option.ite_none_right_eq_some.mp moved
      exact ready.schedule idle scheduled
  | visit execTime =>
      obtain ⟨visiting, visits⟩ := Option.ite_none_right_eq_some.mp moved
      exact ready.visit visiting visits
  | cancelTask id =>
      obtain ⟨_, awoken⟩ := Option.ite_none_left_eq_some.mp moved
      exact (ready.request (Function.update state.requested (.task id) true)).awake awoken
  | awake address id =>
      obtain ⟨_, awoken⟩ := Option.ite_none_left_eq_some.mp moved
      exact ready.awake awoken
  | suspend =>
      simp only [State.move] at moved
      split at moved
      · rename_i top rest executing whole
        exact ready.suspend executing whole moved
      · contradiction
  | construct size =>
      simp only [State.move] at moved
      split at moved
      · rename_i top rest executing whole
        cases moved
        exact ready.construct executing (by rw [whole]; exact List.cons_ne_nil _ _) size
      · contradiction
  | attach address id =>
      simp only [State.move] at moved
      split at moved
      · obtain ⟨sound, grown⟩ := ready.sound.attachExecution allowed moved
        exact ready.grown sound grown
      · contradiction
  | cancel address =>
      simp only [State.move] at moved
      split at moved
      · rename_i top rest executing whole
        exact ready.cancel executing allowed moved
      · contradiction
  | leave finished execTime =>
      simp only [State.move] at moved
      split at moved
      · rename_i top rest executing whole
        exact ready.leave executing moved
      · contradiction

theorem empty_ready (current : DynprioScheduler.PrioritiedExecution Id)
    (states : Id → ExecutionState) : Ready (State.empty current states) := by
  have sound : Sound (State.empty current states) none :=
    { root :=
        { contexts := rfl
          suspended := Finset.empty_subset _
          queued := fun id => by simp [State.empty]
          distinct := List.nodup_nil
          current := nofun
          idle := fun _ => rfl }
      rootless := rfl
      filled := nofun
      absent := fun _ _ _ => rfl }
  have coherent : Coherent (State.empty current states) :=
    { sound := sound
      parent := nofun
      frames := fun frame rest within =>
        absurd (List.suffix_nil.mp within) (List.cons_ne_nil _ _)
      agrees := fun _ id _ member => absurd member (Finset.notMem_empty id)
      rises := fun id _ _ member => absurd member (Finset.notMem_empty id) }
  exact coherent.ready rfl rfl

theorem ready_of_reachable {maxDepth : ℕ}
    (reachable : (machine Id maxDepth).Reachable CancelsActive state) : Ready state := by
  refine reachable.invariant ?_ ?_
  · rintro _ ⟨current, states, rfl⟩
    exact empty_ready current states
  · intro state label next ready allowed moved
    exact ready.step allowed moved

theorem Ready.recorded_iff (ready : Ready state) (idle : state.phase = .idle)
    (member : id ∈ state.executions address) :
    state.executionState address id = some .suspended ↔ state.Held address id := by
  obtain ⟨view, viewed⟩ := ready.sound.exists_view member
  have agreed := ready.agrees address id view member viewed
  have calm := ready.calm (by simp [idle]) address id view member viewed
  rw [State.executionState, if_pos member, viewed, Option.map_some, Option.some.injEq]
  constructor
  · intro suspended
    exact ⟨view, viewed, (agreed.recorded suspended).resolve_right (by simp [calm])⟩
  · rintro ⟨other, seen, inactive⟩
    obtain rfl := Option.some.inj (viewed.symm.trans seen)
    exact agreed.held inactive

theorem Ready.awake_ancestors (ready : Ready state) (member : id ∈ state.executions address) :
    ∃ next, state.awakeExecution id address = some next ∧
      ∀ other place, other :: place <:+ id :: address →
        other ∈ state.executions place ∧ ¬ next.Held place other ∧
          (state.Held place other → next.executionState place other = some .active) := by
  have present : address = [] ∨ (state.nested address).isSome := by
    cases address with
    | nil => exact .inl rfl
    | cons parent above =>
        obtain ⟨domain, holds⟩ := ready.sound.exists_domain member
        exact .inr (by rw [holds]; rfl)
  have rising := ready.toCoherent.rising present
  obtain ⟨next, awoken⟩ := ready.sound.exists_awakeExecution rising member
  have wakes := ready.wakes awoken
  refine ⟨next, awoken, fun other place within => ?_⟩
  have attached : other ∈ state.executions place := by
    rcases List.suffix_cons_iff.mp within with same | within
    · cases same
      exact member
    · exact rising.attached other place within
  obtain ⟨view, viewed⟩ := ready.sound.exists_view attached
  obtain ⟨after, shown, either⟩ := wakes.views place other view attached viewed
  obtain ⟨later, seen, runs⟩ := wakes.wakes other place within attached
  obtain rfl := Option.some.inj (shown.symm.trans seen)
  refine ⟨attached, ?_, ?_⟩
  · rintro ⟨held, found, inactive⟩
    obtain rfl := Option.some.inj (shown.symm.trans found)
    rw [runs] at inactive
    contradiction
  · rintro ⟨held, found, inactive⟩
    obtain rfl := Option.some.inj (viewed.symm.trans found)
    rw [State.executionState, if_pos (wakes.kept.executions ▸ attached), shown, Option.map_some]
    rcases either with rfl | ⟨rfl, _⟩
    · rw [runs] at inactive
      contradiction
    · rw [View.awoken, inactive, if_neg Bool.false_ne_true]

/-- As long as no domain is cancelled that has a suspended execution, domains and schedulers
agree between two calls of `run_once`, and every wake-up returns and leaves the woken
execution and all above it active. -/
theorem agreement_of_cancelsActive {maxDepth : ℕ} {state : State Id}
    (reachable : (machine Id maxDepth).Reachable CancelsActive state) :
    (state.phase = .idle → ∀ address, ∀ id ∈ state.executions address,
      (state.executionState address id = some .suspended ↔ state.Held address id)) ∧
    ∀ address, ∀ id ∈ state.executions address, ∃ next,
      state.awakeExecution id address = some next ∧
      ∀ other place, other :: place <:+ id :: address →
        other ∈ state.executions place ∧ ¬ next.Held place other ∧
          (state.Held place other → next.executionState place other = some .active) := by
  have ready := ready_of_reachable reachable
  constructor
  · intro idle address id member
    exact ready.recorded_iff idle member
  · intro address id member
    exact ready.awake_ancestors member

/-- Execution 0 constructs a domain with executions 1 and 2. -/
def constructed : List (Label ℕ) :=
  [.fetch 0 false, .schedule 0, .visit 0, .construct 2, .attach [0] 1, .attach [0] 2,
    .leave false 0]

/-- The next of executions 1 and 2 is executed and is suspended. -/
def suspension : List (Label ℕ) := [.schedule 0, .visit 0, .visit 0, .suspend, .leave false 0]

/-- The next of executions 1 and 2 is executed and cancels the domain. -/
def cancellation : List (Label ℕ) := [.schedule 0, .visit 0, .visit 0, .cancel [0], .leave false 0]

def started : State ℕ := .empty ⟨0, 0⟩ fun _ => .active

/-- Executions 1 and 2 are suspended, and with them execution 0. -/
theorem agreement_of_cancelsActive_suspended : ∃ state : State ℕ,
    (machine ℕ 8).Reachable CancelsActive state ∧
    (state.Held [0] 1 ∧ state.Held [0] 2 ∧ state.Held [] 0) ∧
    (state.phase = .idle → ∀ address, ∀ id ∈ state.executions address,
      (state.executionState address id = some .suspended ↔ state.Held address id)) ∧
    ∀ address, ∀ id ∈ state.executions address, ∃ next,
      state.awakeExecution id address = some next ∧
      ∀ other place, other :: place <:+ id :: address →
        other ∈ state.executions place ∧ ¬ next.Held place other ∧
          (state.Held place other → next.executionState place other = some .active) := by
  have executed : ((machine ℕ 8).exec CancelsActive started
      (constructed ++ suspension ++ suspension ++ [.schedule 0, .visit 0])).map
        (fun state => decide (state.Held [0] 1 ∧ state.Held [0] 2 ∧ state.Held [] 0)) =
          some true := by decide +kernel
  obtain ⟨state, executed, held⟩ := Option.map_eq_some_iff.mp executed
  have reachable : (machine ℕ 8).Reachable CancelsActive state :=
    ⟨started, ⟨_, _, rfl⟩, Machine.exec_run executed⟩
  exact ⟨state, reachable, of_decide_eq_true held, agreement_of_cancelsActive reachable⟩

/-- Execution 2 cancels the domain while execution 1 is suspended: execution 1 is recorded as
active, and its scheduler holds it as suspended. -/
theorem disagreement_after_cancel : ∃ state : State ℕ,
    (machine ℕ 8).Reachable Machine.free state ∧ state.phase = .idle ∧
      1 ∈ state.executions [0] ∧ state.Held [0] 1 ∧
      ¬ state.executionState [0] 1 = some .suspended := by
  have executed : ((machine ℕ 8).exec Machine.free started
      (constructed ++ suspension ++ cancellation)).map
        (fun state => decide (state.phase = .idle ∧ 1 ∈ state.executions [0] ∧ state.Held [0] 1 ∧
          ¬ state.executionState [0] 1 = some .suspended)) = some true := by decide +kernel
  obtain ⟨state, executed, held⟩ := Option.map_eq_some_iff.mp executed
  exact ⟨state, ⟨started, ⟨_, _, rfl⟩, Machine.exec_run executed⟩, of_decide_eq_true held⟩

end Asco.Core.Worker.Tree
