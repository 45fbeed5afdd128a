import Asco.Task.JoinSet

namespace Asco.Task.JoinSet

open Foundation Asco.Sync
open Asco.Sync.Channel.Atomic (Lossless Pc Traffic advance carrying resume reporting)

/-! # What a `join_set` hands out -/

/-! ## A call of the channel -/

inductive Kind where
  | send
  | recv
  | stop
deriving DecidableEq

variable {Task α : Type*}

def kind : Pc α → Kind
  | .sendClosed _ | .sendTryAcquire _ | .sendAcquire _ | .sendReclosed _ | .sendGiveBack _
  | .sendQueue _ | .sendRelease _ => .send
  | .recvCount | .recvClosed | .recvTryAcquire | .recvAcquire | .recvRecount | .recvReclosed
  | .recvQueue | .recvRelease _ => .recv
  | .stopClose | .stopCount | .stopBackpress => .stop

section

variable {traffic after : Traffic α} {pc : Pc α} {finish : Option (Pc α)}

theorem trySend_received (traffic : Traffic α) (value : α) :
    (traffic.trySend value).received = traffic.received := by
  unfold Traffic.trySend
  split <;> rfl

theorem tryRecv_received (traffic : Traffic α) :
    traffic.tryRecv.1.received = traffic.received := by
  unfold Traffic.tryRecv
  split <;> rfl

theorem tryRecv_entered (traffic : Traffic α) : traffic.tryRecv.1.entered = traffic.entered := by
  unfold Traffic.tryRecv
  split <;> rfl

/-- A call stays one of its kind, and only the end of a `recv` is an answer. -/
theorem resume_kind (stepped : resume traffic pc = some (after, finish)) :
    (∀ later, finish = some later → kind later = kind pc) ∧
      (kind pc = .recv → finish = none →
        ∃ result, after.received = traffic.received ++ [result]) ∧
      (kind pc ≠ .recv ∨ finish ≠ none → after.received = traffic.received) := by
  cases pc with
  | sendClosed value | sendTryAcquire value | sendAcquire value | sendReclosed value
  | recvCount | recvTryAcquire | recvAcquire | recvRecount | recvClosed | recvReclosed =>
      simp only [resume] at stepped
      split at stepped <;> cases stepped <;> simp [kind]
  | sendQueue value =>
      cases stepped
      simp [kind, trySend_received]
  | recvQueue =>
      cases stepped
      simp [kind, tryRecv_received]
  | sendGiveBack value | sendRelease value | recvRelease result | stopClose | stopCount
  | stopBackpress =>
      cases stepped
      simp [kind]

variable [DecidableEq α] {value : α}

/-- The value that a call of `send` has yet to put into the queue. -/
def unsent (value : α) : Option (Pc α) → ℕ
  | some (.sendClosed sending) | some (.sendTryAcquire sending) | some (.sendAcquire sending)
  | some (.sendReclosed sending) | some (.sendGiveBack sending) | some (.sendQueue sending) =>
      if sending = value then 1 else 0
  | _ => 0

theorem resume_unsent (stepped : resume traffic pc = some (after, finish)) :
    after.entered.count value + unsent value finish ≤
      traffic.entered.count value + unsent value (some pc) := by
  cases pc with
  | sendClosed sending | sendTryAcquire sending | sendAcquire sending | sendReclosed sending
  | recvCount | recvTryAcquire | recvAcquire | recvRecount | recvClosed | recvReclosed =>
      simp only [resume] at stepped
      split at stepped <;> cases stepped <;> simp [unsent]
  | sendQueue sending =>
      cases stepped
      unfold Traffic.trySend
      split
      · simp [unsent, List.count_singleton]
      · simp [unsent]
  | recvQueue =>
      cases stepped
      simp [unsent, tryRecv_entered]
  | sendGiveBack sending | sendRelease sending | recvRelease result | stopClose | stopCount
  | stopBackpress =>
      cases stepped
      simp [unsent]

end

/-! ## The owner -/

namespace Owner

/-- Where the owner is in the channel. -/
def Admits : Owner α → Option (Pc α) → Prop
  | .receiving, place => ∃ pc, place = some pc ∧ kind pc = .recv
  | .stopping, place => ∃ pc, place = some pc ∧ kind pc = .stop
  | .collecting, place => ∀ pc, place = some pc → kind pc = .recv
  | .outside, place | .loading, place | .subtracting _, place => place = none

/-- A result that the owner has and `m_task_count` still counts. -/
def holding [DecidableEq α] (value : α) : Owner α → ℕ
  | .subtracting held => if held = value then 1 else 0
  | _ => 0

/-- The owner has found `m_task_count` positive. -/
def claims : Owner α → Bool
  | .receiving | .subtracting _ => true
  | _ => false

end Owner

def Spawn.counts : Spawn → ℕ
  | .counted => 1
  | _ => 0

variable [DecidableEq α]

def ended (value : α) (outcome : Option α) : ℕ := if outcome = some value then 1 else 0

section

variable [Fintype Task]

structure Invariant (state : State Task α) : Prop where
  produced : ∀ value, state.channel.shared.entered.count value +
    tally (unsent value) state.channel.locals ≤ tally (ended value) state.outcome
  received : ∀ value, state.channel.shared.received.count (some value) =
    state.answers.count (some value) + state.collected.count value + state.owner.holding value
  counted : state.taskCount + state.answers.countP Option.isSome = tally Spawn.counts state.spawns
  claimed : state.owner.claims = true → 0 < state.taskCount
  spawned : ∀ task, (state.outcome task).isSome → state.spawns task ≠ .absent
  sends : ∀ task pc, state.channel.locals (some task) = some pc → kind pc = .send
  admits : state.owner.Admits (state.channel.locals none)

variable [DecidableEq Task] {state next : State Task α} {label : Label Task α} {task : Task}

omit [DecidableEq α] [Fintype Task] in
theorem spawned_update {spawn : Spawn}
    (spawned : ∀ task, (state.outcome task).isSome → state.spawns task ≠ .absent)
    (present : spawn ≠ .absent) (other : Task) (isSome : (state.outcome other).isSome) :
    Function.update state.spawns task spawn other ≠ .absent := by
  by_cases same : other = task
  · subst same
    simpa using present
  · simpa [same] using spawned other isSome

omit [DecidableEq Task] in
theorem Invariant.initial : Invariant (.initial Task α) := by
  refine ⟨?_, ?_, ?_, ?_, ?_, ?_, ?_⟩
  · simp [State.initial, Channel.Atomic.fresh, tally, unsent]
  · simp [State.initial, Channel.Atomic.fresh, Owner.holding]
  · simp [State.initial, tally, Spawn.counts]
  · simp [State.initial, Owner.claims]
  · simp [State.initial]
  · simp [State.initial, Channel.Atomic.fresh]
  · rfl

theorem Invariant.submit (invariant : Invariant state) (absent : state.spawns task = .absent) :
    Invariant { state with spawns := Function.update state.spawns task .submitted } := by
  obtain ⟨produced, received, counted, claimed, spawned, sends, admits⟩ := invariant
  refine ⟨produced, received, ?_, claimed, ?_, sends, admits⟩
  · have update := tally_update Spawn.counts state.spawns task .submitted
    simp only [absent, Spawn.counts] at update
    simp only
    omega
  · exact spawned_update spawned (by simp)

theorem Invariant.count (invariant : Invariant state) (submitted : state.spawns task = .submitted) :
    Invariant { state with
      spawns := Function.update state.spawns task .counted
      taskCount := state.taskCount + 1 } := by
  obtain ⟨produced, received, counted, claimed, spawned, sends, admits⟩ := invariant
  refine ⟨produced, received, ?_, fun _ => Nat.succ_pos _, ?_, sends, admits⟩
  · have update := tally_update Spawn.counts state.spawns task .counted
    simp only [submitted, Spawn.counts] at update
    simp only
    omega
  · exact spawned_update spawned (by simp)

theorem Invariant.complete (invariant : Invariant state) {value : α}
    (present : state.spawns task ≠ .absent) (unfinished : state.outcome task = none)
    (performed : State.perform
      { state with outcome := Function.update state.outcome task (some value) }
      (some task) (.call (.send value)) = some next) : Invariant next := by
  obtain ⟨shared, finish, advanced, rfl⟩ := perform_eq_some.mp performed
  obtain ⟨produced, received, counted, claimed, spawned, sends, admits⟩ := invariant
  cases place : state.channel.locals (some task) with
  | some pc => simp [advance, place] at advanced
  | none =>
      simp only [advance, place, Option.some.injEq, Prod.mk.injEq] at advanced
      obtain ⟨rfl, rfl⟩ := advanced
      refine ⟨fun other => ?_, received, counted, claimed, ?_, ?_, ?_⟩
      · have outcomes := tally_update (ended other) state.outcome task (some value)
        have places := tally_update (unsent other) state.channel.locals (some task)
          (some (Channel.Atomic.start (.send value)))
        have before := produced other
        simp only [unfinished, ended, place, unsent, Channel.Atomic.start, Option.some.injEq,
          reduceCtorEq, if_false, add_zero] at outcomes places ⊢
        omega
      · intro other isSome
        by_cases same : other = task
        · exact same ▸ present
        · exact spawned other (by simpa [same] using isSome)
      · intro other pc stands
        by_cases same : other = task
        · subst same
          simp only [Function.update_self, Option.some.injEq] at stands
          subst stands
          rfl
        · exact sends other pc (by simpa [same] using stands)
      · simpa using admits

/-- The owner calls the channel. -/
theorem Invariant.call (invariant : Invariant state) {owner : Owner α} {call : Channel.Call α}
    (performed : { state with owner }.perform none (.call call) = some next)
    (weightless : ∀ value, unsent value (some (Channel.Atomic.start call)) = 0)
    (held : ∀ value, owner.holding value = state.owner.holding value)
    (claimed : owner.claims = true → 0 < state.taskCount)
    (admits : owner.Admits (some (Channel.Atomic.start call))) : Invariant next := by
  obtain ⟨shared, finish, advanced, rfl⟩ := perform_eq_some.mp performed
  obtain ⟨produced, received, counted, _, spawned, sends, _⟩ := invariant
  cases place : state.channel.locals none with
  | some pc => simp [advance, place] at advanced
  | none =>
      simp only [advance, place, Option.some.injEq, Prod.mk.injEq] at advanced
      obtain ⟨rfl, rfl⟩ := advanced
      refine ⟨fun value => ?_, fun value => ?_, counted, claimed, spawned, ?_, ?_⟩
      · have places := tally_update (unsent value) state.channel.locals none
          (some (Channel.Atomic.start call))
        have before := produced value
        rw [place, weightless value] at places
        simp only [unsent] at places ⊢
        omega
      · rw [held value]
        exact received value
      · simpa using sends
      · simpa using admits

omit [DecidableEq α] [Fintype Task] [DecidableEq Task] in
theorem advance_step {traffic after : Traffic α} {place finish : Option (Pc α)}
    (advanced : advance traffic place .step = some (after, finish)) :
    ∃ pc, place = some pc ∧ resume traffic pc = some (after, finish) := by
  cases place with
  | none => simp [advance] at advanced
  | some pc => exact ⟨pc, rfl, advanced⟩

/-- A step in the channel brings no value into it twice. -/
theorem produced_step {channel : Pool (Option Task) (Traffic α) (Option (Pc α))}
    {outcome : Task → Option α} {thread : Option Task} {pc : Pc α} {shared : Traffic α}
    {finish : Option (Pc α)} (stands : channel.locals thread = some pc)
    (stepped : resume channel.shared pc = some (shared, finish)) (value : α)
    (produced : channel.shared.entered.count value + tally (unsent value) channel.locals ≤
      tally (ended value) outcome) :
    shared.entered.count value +
      tally (unsent value) (Function.update channel.locals thread finish) ≤
        tally (ended value) outcome := by
  have places := tally_update (unsent value) channel.locals thread finish
  have moved : shared.entered.count value + unsent value finish ≤
      channel.shared.entered.count value + unsent value (some pc) := resume_unsent stepped
  rw [stands] at places
  omega

theorem Invariant.stepTask (invariant : Invariant state)
    (performed : state.perform (some task) .step = some next) : Invariant next := by
  obtain ⟨shared, finish, advanced, rfl⟩ := perform_eq_some.mp performed
  obtain ⟨produced, received, counted, claimed, spawned, sends, admits⟩ := invariant
  obtain ⟨pc, stands, stepped⟩ := advance_step advanced
  obtain ⟨stays, _, unanswered⟩ := resume_kind stepped
  have sending := sends task pc stands
  have same := unanswered (.inl (by simp [sending]))
  refine ⟨fun value => produced_step stands stepped value (produced value), fun value => ?_,
    counted, claimed, spawned, ?_, ?_⟩
  · simp only [same]
    exact received value
  · intro other later standing
    by_cases own : other = task
    · subst own
      rw [stays later (by simpa using standing)]
      exact sending
    · exact sends other later (by simpa [own] using standing)
  · simpa using admits

theorem Invariant.stepOwner (invariant : Invariant state)
    (performed : state.perform none .step = some next) :
    Invariant (if (next.channel.locals none).isNone then next.settle else next) := by
  obtain ⟨shared, finish, advanced, rfl⟩ := perform_eq_some.mp performed
  obtain ⟨produced, received, counted, claimed, spawned, sends, admits⟩ := invariant
  obtain ⟨pc, stands, stepped⟩ := advance_step advanced
  obtain ⟨stays, answered, unanswered⟩ := resume_kind stepped
  have produced := fun value => produced_step stands stepped value (produced value)
  have sends : ∀ task pc, Function.update state.channel.locals none finish (some task) = some pc →
      kind pc = .send := by simpa using sends
  rw [stands] at admits
  cases finish with
  | some later =>
      have same := unanswered (.inr (by simp))
      have kept := stays later rfl
      simp only [Function.update_self, Option.isNone_some, Bool.false_eq_true, if_false]
      refine ⟨produced, fun value => ?_, counted, claimed, spawned, sends, ?_⟩
      · simp only [same]
        exact received value
      · simp only [Function.update_self]
        cases here : state.owner with
        | receiving | stopping =>
            rw [here] at admits
            obtain ⟨_, ⟨⟩, receives⟩ := admits
            exact ⟨later, rfl, kept.trans receives⟩
        | collecting =>
            rw [here] at admits
            rintro _ ⟨⟩
            exact kept.trans (admits pc rfl)
        | outside | loading | subtracting =>
            rw [here] at admits
            cases admits
  | none =>
      simp only [Function.update_self, Option.isNone_none, if_true]
      have emptied : Function.update state.channel.locals none none none = none :=
        Function.update_self ..
      cases here : state.owner with
      | receiving =>
          rw [here] at admits received claimed
          obtain ⟨_, ⟨⟩, receives⟩ := admits
          obtain ⟨result, appended⟩ := answered receives rfl
          have last : shared.received.getLast?.join = result := by simp [appended]
          cases result with
          | none =>
              simp only [State.settle, last]
              refine ⟨produced, fun value => ?_, ?_, by simp [Owner.claims], spawned, sends, ?_⟩
              · simpa [appended, Owner.holding, List.count_singleton] using received value
              · simpa using counted
              · exact emptied
          | some result =>
              simp only [State.settle, last]
              refine ⟨produced, fun value => ?_, counted, fun _ => claimed rfl, spawned, sends, ?_⟩
              · have before := received value
                simp only [Owner.holding, add_zero] at before
                simp [appended, Owner.holding, List.count_singleton, before]
              · exact emptied
      | stopping =>
          rw [here] at admits received
          obtain ⟨_, ⟨⟩, stops⟩ := admits
          have same := unanswered (.inl (by simp [stops]))
          simp only [State.settle]
          refine ⟨produced, fun value => ?_, counted, by simp [Owner.claims], spawned, sends, ?_⟩
          · simp only [same]
            exact received value
          · intro later standing
            simp at standing
      | collecting =>
          rw [here] at admits received
          obtain ⟨result, appended⟩ := answered (admits pc rfl) rfl
          have last : shared.received.getLast?.join = result := by simp [appended]
          cases result with
          | none =>
              simp only [State.settle, last]
              refine ⟨produced, fun value => ?_, counted, by simp [Owner.claims], spawned, sends,
                ?_⟩
              · simpa [appended, Owner.holding, List.count_singleton] using received value
              · exact emptied
          | some result =>
              simp only [State.settle, last]
              refine ⟨produced, fun value => ?_, counted, by simp [Owner.claims], spawned,
                sends, ?_⟩
              · have before := received value
                simp only [Owner.holding, add_zero] at before
                simp [appended, Owner.holding, List.count_singleton, before, add_assoc]
              · intro later standing
                simp at standing
      | outside | loading | subtracting =>
          rw [here] at admits
          cases admits

theorem Invariant.move (invariant : Invariant state) (moved : move state label = some next) :
    Invariant next := by
  have before := invariant
  obtain ⟨produced, received, counted, claimed, spawned, sends, admits⟩ := invariant
  cases label with
  | spawn task =>
      obtain ⟨absent, moved⟩ := Option.ite_none_right_eq_some.mp moved
      cases moved
      exact before.submit absent
  | count task =>
      obtain ⟨submitted, moved⟩ := Option.ite_none_right_eq_some.mp moved
      cases moved
      exact before.count submitted
  | complete task value =>
      obtain ⟨⟨present, unfinished⟩, moved⟩ := Option.ite_none_right_eq_some.mp moved
      exact before.complete present (by simpa using unfinished) moved
  | coAwait =>
      simp only [JoinSet.move] at moved
      split at moved
      · rename_i outside
        cases moved
        rw [outside] at received admits
        exact ⟨produced, received, counted, by simp [Owner.claims], spawned, sends, admits⟩
      · contradiction
  | load =>
      simp only [JoinSet.move] at moved
      split at moved
      · rename_i loading
        rw [loading] at received admits
        split at moved
        · cases moved
          refine ⟨produced, fun value => ?_, ?_, by simp [Owner.claims], spawned, sends, admits⟩
          · simpa [Owner.holding, List.count_singleton] using received value
          · simpa using counted
        · rename_i positive
          exact before.call moved (fun _ => rfl) (fun _ => by simp [loading, Owner.holding])
            (fun _ => Nat.pos_of_ne_zero positive) ⟨_, rfl, rfl⟩
      · contradiction
  | subtract =>
      simp only [JoinSet.move] at moved
      split at moved
      · rename_i held subtracting
        cases moved
        rw [subtracting] at received admits claimed
        have positive := claimed rfl
        refine ⟨produced, fun value => ?_, ?_, by simp [Owner.claims], spawned, sends, admits⟩
        · have before := received value
          simp only [Owner.holding] at before
          simp only [before, Owner.holding, List.count_append, List.count_singleton, beq_iff_eq,
            Option.some.injEq]
          omega
        · simp only [List.countP_append, List.countP_singleton, Option.isSome_some, if_true]
          omega
      · contradiction
  | joinAll =>
      simp only [JoinSet.move] at moved
      split at moved
      · rename_i outside
        exact before.call moved (fun _ => rfl) (fun _ => by simp [outside, Owner.holding])
          (by simp [Owner.claims]) ⟨_, rfl, rfl⟩
      · contradiction
  | collect =>
      simp only [JoinSet.move] at moved
      split at moved
      · rename_i collecting
        refine before.call moved (fun _ => rfl) (fun _ => rfl) claimed ?_
        rw [collecting]
        rintro _ ⟨⟩
        rfl
      · contradiction
  | step task =>
      cases task with
      | some task => exact before.stepTask moved
      | none =>
          obtain ⟨middle, performed, rfl⟩ := Option.map_eq_some_iff.mp moved
          exact before.stepOwner performed

theorem invariant_of_reachable (reachable : (machine Task α).Reachable Machine.free state) :
    Invariant state :=
  reachable.invariant (fun _ started => started ▸ .initial)
    fun _ _ _ invariant _ moved => invariant.move moved

/-! ## Results -/

/-- What the functions of the tasks have returned. -/
def State.outcomes (state : State Task α) : Multiset α :=
  (Finset.univ : Finset Task).val.filterMap state.outcome

/-- The results that `operator co_await` has answered. -/
def State.delivered (state : State Task α) : List α := state.answers.filterMap id

omit [Fintype Task] [DecidableEq Task] in
theorem count_filterMap (outcome : Task → Option α) (tasks : Multiset Task) (value : α) :
    (tasks.filterMap outcome).count value =
      (tasks.map fun task => ended value (outcome task)).sum := by
  induction tasks using Multiset.induction with
  | empty => simp
  | cons task tasks ih =>
      cases result : outcome task with
      | none => simp [Multiset.filterMap_cons_none _ _ result, ih, result, ended]
      | some other =>
          rw [Multiset.filterMap_cons_some _ _ _ result, Multiset.count_cons, ih]
          simp [result, ended, add_comm, eq_comm]

omit [DecidableEq α] [Fintype Task] [DecidableEq Task] in
theorem card_filterMap (outcome : Task → Option α) (tasks : Multiset Task) :
    Multiset.card (tasks.filterMap outcome) =
      (tasks.map fun task => (outcome task).isSome.toNat).sum := by
  induction tasks using Multiset.induction with
  | empty => simp
  | cons task tasks ih =>
      cases result : outcome task with
      | none => simp [Multiset.filterMap_cons_none _ _ result, ih, result]
      | some other =>
          rw [Multiset.filterMap_cons_some _ _ _ result, Multiset.card_cons, ih]
          simp [result, add_comm]

omit [DecidableEq Task] in
theorem count_outcomes (state : State Task α) (value : α) :
    state.outcomes.count value = tally (ended value) state.outcome :=
  count_filterMap state.outcome _ value

omit [DecidableEq α] [DecidableEq Task] in
theorem card_outcomes (state : State Task α) :
    Multiset.card state.outcomes = tally (fun outcome => outcome.isSome.toNat) state.outcome :=
  card_filterMap state.outcome _

omit [Fintype Task] [DecidableEq Task] in
theorem count_delivered (state : State Task α) (value : α) :
    state.delivered.count value = state.answers.count (some value) := by
  rw [State.delivered, List.count_filterMap, List.count]
  rfl

omit [DecidableEq α] [Fintype Task] [DecidableEq Task] in
theorem length_delivered (state : State Task α) :
    state.delivered.length = state.answers.countP Option.isSome :=
  List.length_filterMap_eq_countP

omit [DecidableEq Task] in
/-- What comes out of the channel has gone into it. -/
theorem Invariant.delivered_le (invariant : Invariant state) (lossless : Lossless state.channel) :
    (state.delivered : Multiset α) + state.collected ≤ state.outcomes := by
  rw [Multiset.le_iff_count]
  intro value
  have out := lossless.receivedOnce value
  have through :
      state.channel.shared.left.count value ≤ state.channel.shared.entered.count value := by
    rw [lossless.inOrder, List.count_append]
    exact Nat.le_add_right _ _
  have answered := invariant.received value
  have returned := invariant.produced value
  rw [Multiset.count_add, Multiset.coe_count, Multiset.coe_count, count_delivered, count_outcomes]
  omega

omit [DecidableEq Task] in
/-- `m_task_count` is what is still to come when no call of `spawn` is under way. -/
theorem Invariant.taskCount_eq_zero_iff (invariant : Invariant state)
    (lossless : Lossless state.channel) (returned : ∀ task, state.spawns task ≠ .submitted) :
    state.taskCount = 0 ↔
      (∀ task, state.spawns task ≠ .absent → (state.outcome task).isSome) ∧
        (state.delivered : Multiset α) = state.outcomes := by
  have within : (state.delivered : Multiset α) ≤ state.outcomes :=
    (Multiset.le_add_right _ _).trans (invariant.delivered_le lossless)
  have cards := Multiset.card_le_card within
  have counted := invariant.counted
  rw [← length_delivered] at counted
  rw [Multiset.coe_card, card_outcomes] at cards
  have each : ∀ task ∈ Finset.univ,
      (state.outcome task).isSome.toNat ≤ (state.spawns task).counts := by
    intro task _
    cases returns : (state.outcome task).isSome with
    | false => simp
    | true =>
        have present := invariant.spawned task returns
        cases here : state.spawns task with
        | absent => exact absurd here present
        | submitted => exact absurd here (returned task)
        | counted => simp [Spawn.counts]
  have ends : tally (fun outcome => outcome.isSome.toNat) state.outcome ≤
      tally Spawn.counts state.spawns := Finset.sum_le_sum each
  constructor
  · intro none
    have all : tally (fun outcome => outcome.isSome.toNat) state.outcome =
        tally Spawn.counts state.spawns := by omega
    refine ⟨fun task present => ?_, Multiset.eq_of_le_of_card_le within ?_⟩
    · have same := (Finset.sum_eq_sum_iff_of_le each).mp all task (Finset.mem_univ task)
      cases here : state.spawns task with
      | absent => exact absurd here present
      | submitted => exact absurd here (returned task)
      | counted =>
          rw [here] at same
          cases returns : (state.outcome task).isSome with
          | true => rfl
          | false => simp [returns, Spawn.counts] at same
    · rw [Multiset.coe_card, card_outcomes]
      omega
  · rintro ⟨finished, all⟩
    have total : state.delivered.length =
        tally (fun outcome => outcome.isSome.toNat) state.outcome := by
      rw [← card_outcomes, ← all, Multiset.coe_card]
    have others : tally Spawn.counts state.spawns ≤
        tally (fun outcome => outcome.isSome.toNat) state.outcome := by
      refine Finset.sum_le_sum fun task _ => ?_
      cases here : state.spawns task with
      | absent | submitted => simp [Spawn.counts]
      | counted => simp [Spawn.counts, finished task (by simp [here])]
    omega

/-- Every result goes out at most once, to `operator co_await` or to `join_all`, and
`m_task_count` never drops below zero.  When no call of `spawn` is under way,
`operator co_await` answers `nullopt` if and only if all tasks have returned and all their
results are out, and until `join_all` closes the channel it does not get `nullopt` from it. -/
theorem collects_of_reachable (reachable : (machine Task α).Reachable Machine.free state) :
    (state.delivered : Multiset α) + state.collected ≤ state.outcomes ∧
      (∀ value, state.owner = .subtracting value → 0 < state.taskCount) ∧
      (state.owner = .loading → (∀ task, state.spawns task ≠ .submitted) →
        (state.taskCount = 0 ↔
          (∀ task, state.spawns task ≠ .absent → (state.outcome task).isSome) ∧
            (state.delivered : Multiset α) = state.outcomes)) ∧
      (state.channel.shared.closed = false → none ∉ state.channel.shared.received) := by
  have invariant := invariant_of_reachable reachable
  have lossless := Channel.Atomic.lossless_of_reachable (channel_of_reachable reachable)
  refine ⟨invariant.delivered_le lossless, fun value holds => ?_,
    fun _ returned => invariant.taskCount_eq_zero_iff lossless returned,
    fun isOpen => (lossless.obtains isOpen).2.2⟩
  exact invariant.claimed (by simp [holds, Owner.claims])

end

/-- The owner spawns two tasks, and the second one returns first. -/
def bothReturn : List (Label (Fin 2) ℕ) :=
  List.flatten
    [[.spawn 0, .count 0, .spawn 1, .count 1],
      .complete 1 7 :: List.replicate 5 (.step (some 1)),
      .complete 0 5 :: List.replicate 5 (.step (some 0)),
      [.coAwait, .load], List.replicate 5 (.step none), [.subtract],
      [.coAwait, .load], List.replicate 6 (.step none), [.subtract, .coAwait]]

theorem collects_of_reachable_both : ∃ state : State (Fin 2) ℕ,
    state.answers = [some 7, some 5] ∧ state.taskCount = 0 ∧
      ((state.delivered : Multiset ℕ) + state.collected ≤ state.outcomes ∧
        (∀ value, state.owner = .subtracting value → 0 < state.taskCount) ∧
        (state.owner = .loading → (∀ task, state.spawns task ≠ .submitted) →
          (state.taskCount = 0 ↔
            (∀ task, state.spawns task ≠ .absent → (state.outcome task).isSome) ∧
              (state.delivered : Multiset ℕ) = state.outcomes)) ∧
        (state.channel.shared.closed = false → none ∉ state.channel.shared.received)) := by
  obtain ⟨state, reachable, answered, counted⟩ :=
    Machine.reachable_of_exec (machine (Fin 2) ℕ) Machine.free (.initial (Fin 2) ℕ) bothReturn
      (fun state => state.answers = [some 7, some 5] ∧ state.taskCount = 0) rfl ⟨_, rfl, rfl, rfl⟩
  exact ⟨state, answered, counted, collects_of_reachable reachable⟩

/-- The first task spawns the second one, whose result comes before it is counted.  Then
`operator co_await` answers `nullopt` although the first task runs. -/
theorem exists_early_nullopt : ∃ state : State (Fin 2) ℕ,
    (machine (Fin 2) ℕ).Reachable Machine.free state ∧
      state.answers = [some 7, none] ∧ state.spawns 0 = .counted ∧ state.outcome 0 = none :=
  Machine.reachable_of_exec (machine (Fin 2) ℕ) Machine.free (.initial (Fin 2) ℕ)
    (List.flatten
      [[.spawn 0, .count 0, .spawn 1],
        .complete 1 7 :: List.replicate 5 (.step (some 1)),
        [.coAwait, .load], List.replicate 6 (.step none), [.subtract, .coAwait, .load]])
    (fun state => state.answers = [some 7, none] ∧ state.spawns 0 = .counted ∧
      state.outcome 0 = none) rfl ⟨_, rfl, rfl, rfl, rfl⟩

end Asco.Task.JoinSet
