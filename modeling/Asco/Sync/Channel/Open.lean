import Asco.Sync.Channel

namespace Asco.Sync.Channel

open Foundation Concurrency

/-! # A channel that is never stopped

Every permit of a semaphore is matched by a value or by a call on its way, so
a receiver that has its permit finds a value unless it looks too early or at an
outdated index.
-/

variable {α : Type*}

/-- The call of the ring queue a task is in. -/
def ringPc : Option (Pc α) → Option (RingQueue.Pc α channelCapacity.toNat)
  | some (.sendQueue _ pc) | some (.recvQueue pc) => some pc
  | _ => none

/-! ## Who has which permit -/

/-- A sender with a permit of `backpress_sem` that has not moved `tail`. -/
def sending : Option (Pc α) → ℕ
  | some (.sendReclosed _) => 1
  | some (.sendQueue _ pc) => if RingQueue.stage pc = .sending then 1 else 0
  | _ => 0

/-- A sender that has moved `tail` and not released `count_sem`. -/
def publishing : Option (Pc α) → ℕ
  | some (.sendQueue _ pc) => if RingQueue.stage pc = .sending then 0 else 1
  | some (.sendRelease _) => 1
  | _ => 0

/-- A receiver with a permit of `count_sem` that has not moved `head`. -/
def receiving : Option (Pc α) → ℕ
  | some .recvRecount | some .recvReclosed => 1
  | some (.recvQueue pc) => if RingQueue.stage pc = .receiving then 1 else 0
  | _ => 0

/-- A receiver that has moved `head` and not released `backpress_sem`. -/
def returning : Option (Pc α) → ℕ
  | some (.recvQueue pc) => if RingQueue.stage pc = .receiving then 0 else 1
  | some (.recvRelease _) => 1
  | _ => 0

/-- What all tasks but one have. -/
structure Others where
  sending : ℕ
  publishing : ℕ
  receiving : ℕ
  returning : ℕ

/-- Every buffered value has one permit of `count_sem`, and every other slot one
of `backpress_sem`. -/
structure Balanced (others : Others) (channel : Channel α) (pc : Option (Pc α)) : Prop where
  filled : span channel.queue.head channel.queue.tail =
    (others.publishing + publishing pc) + channel.countSem + (others.receiving + receiving pc)
  free : channel.backpressSem + (others.sending + sending pc) +
    span channel.queue.head channel.queue.tail + (others.returning + returning pc) = 1024

/-- A call of the ring queue is on the side of the call of the channel, and
`recv` has no empty result to return. -/
def Proper : Pc α → Prop
  | .sendQueue _ pc => RingQueue.stage pc = .sending ∨ RingQueue.stage pc = .constructing
  | .recvQueue pc => RingQueue.stage pc = .receiving ∨ RingQueue.stage pc = .movingOut
  | .recvRelease result => result.isSome
  | .sendGiveBack _ | .stopClose | .stopCount | .stopBackpress => False
  | _ => True

/-- The tests a call of the ring queue makes are true of the queue as it is, and
the slot at `head` is not being constructed when a receiver tries it. -/
def testsCurrent (storage : RingQueue.Storage α channelCapacity.toNat) :
    Option (RingQueue.Pc α channelCapacity.toNat) → Bool
  | some (.sendLoadTail _ head) =>
      storage.tail + 1 != head || storage.tail + 1 == storage.head
  | some (.recvLoadTail head) => head != storage.tail || storage.head == storage.tail
  | some (.recvClaim head tail) =>
      storage.states head != .constructing &&
        (storage.states head == .filled || head + 1 != tail || storage.head == storage.tail)
  | _ => true

variable {others : Others} {channel next : Channel α} {pc : Pc α} {finish : Progress α}
  {value : α} {ring : RingQueue.Pc α channelCapacity.toNat}
  {ringFinish : RingQueue.Progress α channelCapacity.toNat}
  {storage : RingQueue.Storage α channelCapacity.toNat}

/-- A sender with its permit finds room behind the tail. -/
theorem Balanced.room {place : Option (Pc α)} (balanced : Balanced others channel place)
    (permitted : sending place = 1) : channel.queue.tail + 1 ≠ channel.queue.head := by
  intro full
  have free := balanced.free
  have all : span channel.queue.head channel.queue.tail = 1024 := RingQueue.full_iff.mp full
  omega

/-- A receiver with its permit finds a value. -/
theorem Balanced.nonempty {place : Option (Pc α)} (balanced : Balanced others channel place)
    (permitted : receiving place = 1) : channel.queue.head ≠ channel.queue.tail := by
  intro empty
  have filled := balanced.filled
  have none := span_eq_zero.mpr empty
  omega

/-- A step that moves no permit and no index. -/
theorem Balanced.stays {place after : Option (Pc α)} (balanced : Balanced others channel place)
    (sameStorage : storage.head = channel.queue.head ∧ storage.tail = channel.queue.tail)
    (sent : sending after = sending place) (published : publishing after = publishing place)
    (received : receiving after = receiving place) (returned : returning after = returning place) :
    Balanced others { channel with queue := storage } after := by
  obtain ⟨filled, free⟩ := balanced
  have same : span storage.head storage.tail = span channel.queue.head channel.queue.tail := by
    rw [sameStorage.1, sameStorage.2]
  constructor
  · change span storage.head storage.tail =
      others.publishing + publishing after + channel.countSem + (others.receiving + receiving after)
    rw [same, published, received]
    exact filled
  · change channel.backpressSem + (others.sending + sending after) +
      span storage.head storage.tail +
      (others.returning + returning after) = 1024
    rw [same, sent, returned]
    exact free

theorem sendQueue_balanced (balanced : Balanced others channel (some (.sendQueue value ring)))
    (proper : Proper (.sendQueue value ring)) (current : testsCurrent channel.queue (some ring))
    (effect : RingQueue.Effect channel.queue ring storage ringFinish) :
    Balanced others { channel with queue := storage } (afterTrySend value ringFinish).pc ∧
      ∀ after, afterTrySend value ringFinish = .running after → Proper after := by
  cases effect with
  | goesOn free freeNext same knows =>
      refine ⟨balanced.stays ⟨rfl, rfl⟩ ?_ ?_ rfl rfl, ?_⟩
      · simp [afterTrySend, Progress.pc, sending, same]
      · simp [afterTrySend, Progress.pc, publishing, same]
      · rintro after ⟨⟩
        simpa [Proper, same] using proper
  | @refuses given head at_ full =>
      subst at_
      have room := balanced.room rfl
      change (channel.queue.tail + 1 != head || channel.queue.tail + 1 == channel.queue.head) = true
        at current
      rw [full] at room current
      simp only [bne_self_eq_false, Bool.false_or, beq_iff_eq] at current
      exact absurd current room
  | givesUp gives =>
      cases ring <;> first | exact gives.elim | simp [Proper, RingQueue.stage] at proper
  | claims at_ | misses at_ | releases at_ =>
      subst at_
      refine ⟨balanced.stays ⟨rfl, rfl⟩ rfl rfl rfl rfl, ?_⟩
      rintro after ⟨⟩
      exact .inl rfl
  | @enqueues given tail at_ now =>
      subst at_ now
      have longer := span_succ_last (balanced.room rfl)
      obtain ⟨filled, free⟩ := balanced
      change span channel.queue.head channel.queue.tail =
        others.publishing + 0 + channel.countSem + (others.receiving + 0) at filled
      change channel.backpressSem + (others.sending + 1) +
        span channel.queue.head channel.queue.tail + (others.returning + 0) = 1024 at free
      refine ⟨⟨?_, ?_⟩, ?_⟩
      · change span channel.queue.head (channel.queue.tail + 1) =
          others.publishing + 1 + channel.countSem + (others.receiving + 0)
        omega
      · change channel.backpressSem + (others.sending + 0) +
          span channel.queue.head (channel.queue.tail + 1) +
            (others.returning + 0) = 1024
        omega
      · rintro after ⟨⟩
        exact .inr rfl
  | publishes at_ =>
      subst at_
      refine ⟨balanced.stays ⟨rfl, rfl⟩ rfl rfl rfl rfl, ?_⟩
      rintro after ⟨⟩
      trivial
  | takes at_ | dequeues at_ | waits at_ | movesOut at_ =>
      subst at_
      simp [Proper, RingQueue.stage] at proper

theorem recvQueue_balanced (balanced : Balanced others channel (some (.recvQueue ring)))
    (proper : Proper (.recvQueue ring : Pc α)) (current : testsCurrent channel.queue (some ring))
    (effect : RingQueue.Effect channel.queue ring storage ringFinish) :
    Balanced others { channel with queue := storage } (afterTryRecv ringFinish).pc ∧
      ∀ after, afterTryRecv ringFinish = .running after → Proper after := by
  cases effect with
  | goesOn free freeNext same knows =>
      refine ⟨balanced.stays ⟨rfl, rfl⟩ rfl rfl ?_ ?_, ?_⟩
      · simp [afterTryRecv, Progress.pc, receiving, same]
      · simp [afterTryRecv, Progress.pc, returning, same]
      · rintro after ⟨⟩
        simpa [Proper, same] using proper
  | givesUp gives =>
      cases ring with
      | recvLoadTail head =>
          have nonempty := balanced.nonempty rfl
          change (head != channel.queue.tail || channel.queue.head == channel.queue.tail) = true
            at current
          simp [show head = channel.queue.tail from gives, nonempty] at current
      | recvClaim head tail =>
          have nonempty := balanced.nonempty rfl
          change (channel.queue.states head != .constructing &&
            (channel.queue.states head == .filled || head + 1 != tail ||
              channel.queue.head == channel.queue.tail)) = true at current
          rcases gives with constructing | ⟨empty | busy, last⟩
          · simp [constructing] at current
          · simp [empty, last, nonempty] at current
          · simp [busy, last, nonempty] at current
      | _ => exact gives.elim
  | takes at_ | waits at_ =>
      subst at_
      refine ⟨balanced.stays ⟨rfl, rfl⟩ rfl rfl rfl rfl, ?_⟩
      rintro after ⟨⟩
      exact .inl rfl
  | @dequeues head at_ now =>
      subst at_ now
      have shorter := span_succ_first (balanced.nonempty rfl)
      obtain ⟨filled, free⟩ := balanced
      change span channel.queue.head channel.queue.tail =
        others.publishing + 0 + channel.countSem + (others.receiving + 1) at filled
      change channel.backpressSem + (others.sending + 0) +
        span channel.queue.head channel.queue.tail + (others.returning + 0) = 1024 at free
      refine ⟨⟨?_, ?_⟩, ?_⟩
      · change span (channel.queue.head + 1) channel.queue.tail =
          others.publishing + 0 + channel.countSem + (others.receiving + 0)
        omega
      · change channel.backpressSem + (others.sending + 0) +
          span (channel.queue.head + 1) channel.queue.tail +
            (others.returning + 1) = 1024
        omega
      · rintro after ⟨⟩
        exact .inr rfl
  | movesOut at_ present =>
      subst at_
      refine ⟨balanced.stays ⟨rfl, rfl⟩ rfl rfl rfl rfl, ?_⟩
      rintro after ⟨⟩
      rfl
  | refuses at_ | claims at_ | enqueues at_ | misses at_ | releases at_ | publishes at_ =>
      subst at_
      simp [Proper, RingQueue.stage] at proper

/-- Where a step of a call may lead while the channel is open. -/
structure Steady (others : Others) (next : Channel α) (finish : Progress α) : Prop where
  isOpen : next.closed = false
  balanced : Balanced others next finish.pc
  proper : ∀ after, finish = .running after → Proper after
  answered : ∀ result, finish = .done (.received result) → result.isSome

theorem Steady.running {after : Pc α} (isOpen : next.closed = false)
    (balanced : Balanced others next (some after)) (proper : Proper after) :
    Steady others next (.running after) := by
  refine ⟨isOpen, balanced, ?_, ?_⟩
  · rintro other ⟨⟩
    exact proper
  · rintro result ⟨⟩

theorem Steady.done {result : Result α} (isOpen : next.closed = false)
    (balanced : Balanced others next none)
    (answered : ∀ value, result = .received value → value.isSome) :
    Steady others next (.done result) := by
  refine ⟨isOpen, balanced, ?_, ?_⟩
  · rintro after ⟨⟩
  · rintro value ⟨⟩
    exact answered value rfl

/-- A sender takes its permit. -/
theorem Balanced.takeFree {before after : Option (Pc α)}
    (balanced : Balanced others channel before) (available : channel.backpressSem ≠ 0)
    (sent : sending after = sending before + 1) (published : publishing after = publishing before)
    (received : receiving after = receiving before)
    (returned : returning after = returning before) :
    Balanced others { channel with backpressSem := acquired channel.backpressSem } after := by
  obtain ⟨filled, free⟩ := balanced
  have bounded : channel.backpressSem ≤ 1024 := by omega
  have taken := acquired_eq bounded available
  generalize acquired channel.backpressSem = count at taken ⊢
  refine ⟨by rw [published, received]; exact filled, ?_⟩
  change count + (others.sending + sending after) + span channel.queue.head channel.queue.tail +
    (others.returning + returning after) = 1024
  omega

/-- A receiver takes its permit. -/
theorem Balanced.takeFilled {before after : Option (Pc α)}
    (balanced : Balanced others channel before) (available : channel.countSem ≠ 0)
    (sent : sending after = sending before) (published : publishing after = publishing before)
    (received : receiving after = receiving before + 1)
    (returned : returning after = returning before) :
    Balanced others { channel with countSem := acquired channel.countSem } after := by
  obtain ⟨filled, free⟩ := balanced
  have bounded : channel.countSem ≤ 1024 := by omega
  have taken := acquired_eq bounded available
  generalize acquired channel.countSem = count at taken ⊢
  refine ⟨?_, by rw [sent, returned]; exact free⟩
  change span channel.queue.head channel.queue.tail = others.publishing + publishing after + count +
    (others.receiving + receiving after)
  omega

/-- One step of a call on an open channel, without an exception. -/
theorem resume_steady (isOpen : channel.closed = false)
    (balanced : Balanced others channel (some pc)) (proper : Proper pc)
    (standing : ∀ ring, ringPc (some pc) = some ring → RingQueue.Standing channel.queue ring)
    (noException : ∀ index, channel.queue.states index ≠ .exception)
    (current : testsCurrent channel.queue (ringPc (some pc)))
    (resumed : resume channel false pc = some (next, finish)) : Steady others next finish := by
  cases pc with
  | sendClosed value =>
      simp only [resume, isOpen, Bool.false_eq_true, if_false] at resumed
      cases resumed
      exact .running isOpen ⟨balanced.filled, balanced.free⟩ trivial
  | sendTryAcquire value =>
      simp only [resume] at resumed
      split at resumed
      · cases resumed
        exact .running isOpen ⟨balanced.filled, balanced.free⟩ trivial
      · rename_i available
        cases resumed
        exact .running isOpen (balanced.takeFree available rfl rfl rfl rfl) trivial
  | sendAcquire value =>
      simp only [resume] at resumed
      split at resumed
      · contradiction
      · rename_i available
        cases resumed
        exact .running isOpen (balanced.takeFree available rfl rfl rfl rfl) trivial
  | sendReclosed value =>
      simp only [resume, isOpen, Bool.false_eq_true, if_false] at resumed
      cases resumed
      exact .running isOpen ⟨balanced.filled, balanced.free⟩ (.inl rfl)
  | sendGiveBack value => exact proper.elim
  | sendQueue value ring =>
      simp only [resume, Option.map_eq_some_iff] at resumed
      obtain ⟨⟨storage, ringFinish⟩, stepped, moved⟩ := resumed
      cases moved
      have effect := RingQueue.resume_effect (standing ring rfl) noException stepped
      obtain ⟨kept, properAfter⟩ := sendQueue_balanced balanced proper current effect
      refine ⟨isOpen, kept, properAfter, fun result finished => ?_⟩
      rcases ringFinish with after | outcome
      · contradiction
      · cases outcome <;> contradiction
  | sendRelease value =>
      cases resumed
      obtain ⟨filled, free⟩ := balanced
      change span channel.queue.head channel.queue.tail =
        others.publishing + 1 + channel.countSem + (others.receiving + 0) at filled
      have bounded : channel.countSem ≤ 1024 := by omega
      have raised := released_eq bounded
      generalize released channel.countSem = count at raised ⊢
      refine .done isOpen ⟨?_, free⟩ (by rintro value ⟨⟩)
      change span channel.queue.head channel.queue.tail =
        others.publishing + 0 + count + (others.receiving + 0)
      omega
  | recvCount =>
      simp only [resume] at resumed
      split at resumed <;> cases resumed
      · exact .running isOpen ⟨balanced.filled, balanced.free⟩ trivial
      · exact .running isOpen ⟨balanced.filled, balanced.free⟩ trivial
  | recvClosed =>
      simp only [resume, isOpen, Bool.false_eq_true, if_false] at resumed
      cases resumed
      exact .running isOpen ⟨balanced.filled, balanced.free⟩ trivial
  | recvTryAcquire =>
      simp only [resume] at resumed
      split at resumed
      · cases resumed
        exact .running isOpen ⟨balanced.filled, balanced.free⟩ trivial
      · rename_i available
        cases resumed
        exact .running isOpen (balanced.takeFilled available rfl rfl rfl rfl) trivial
  | recvAcquire =>
      simp only [resume] at resumed
      split at resumed
      · contradiction
      · rename_i available
        cases resumed
        exact .running isOpen (balanced.takeFilled available rfl rfl rfl rfl) trivial
  | recvRecount =>
      simp only [resume] at resumed
      split at resumed <;> cases resumed
      · exact .running isOpen ⟨balanced.filled, balanced.free⟩ trivial
      · exact .running isOpen ⟨balanced.filled, balanced.free⟩ (.inl rfl)
  | recvReclosed =>
      simp only [resume, isOpen, Bool.false_eq_true, if_false] at resumed
      cases resumed
      exact .running isOpen ⟨balanced.filled, balanced.free⟩ (.inl rfl)
  | recvQueue ring =>
      simp only [resume, Option.map_eq_some_iff] at resumed
      obtain ⟨⟨storage, ringFinish⟩, stepped, moved⟩ := resumed
      cases moved
      have effect := RingQueue.resume_effect (standing ring rfl) noException stepped
      obtain ⟨kept, properAfter⟩ := recvQueue_balanced balanced proper current effect
      refine ⟨isOpen, kept, properAfter, fun result finished => ?_⟩
      rcases ringFinish with after | outcome
      · contradiction
      · cases outcome <;> contradiction
  | recvRelease result =>
      cases resumed
      obtain ⟨filled, free⟩ := balanced
      change channel.backpressSem + (others.sending + 0) +
        span channel.queue.head channel.queue.tail + (others.returning + 1) = 1024 at free
      have bounded : channel.backpressSem ≤ 1024 := by omega
      have raised := released_eq bounded
      generalize released channel.backpressSem = count at raised ⊢
      refine .done isOpen ⟨filled, ?_⟩ ?_
      · change count + (others.sending + 0) + span channel.queue.head channel.queue.tail +
          (others.returning + 0) = 1024
        omega
      · rintro other ⟨⟩
        exact proper
  | stopClose | stopCount | stopBackpress => exact proper.elim

/-! ## All the tasks of a pool -/

section Pool

variable {Task : Type*} {locals : Task → Option (Pc α)} {task : Task}
  {pool : Pool Task (Traffic α) (Option (Pc α))}

theorem ringPc_afterTrySend : ringPc (afterTrySend value ringFinish).pc = ringFinish.pc := by
  rcases ringFinish with after | outcome
  · rfl
  · cases outcome <;> rfl

theorem ringPc_afterTryRecv : ringPc (afterTryRecv ringFinish).pc = ringFinish.pc := by
  rcases ringFinish with after | outcome
  · rfl
  · cases outcome <;> rfl

/-- Outside the ring queue a call leaves it alone, and it enters it at the start. -/
theorem resume_outside (outside : ringPc (some pc) = none)
    (resumed : resume channel false pc = some (next, finish)) :
    next.queue = channel.queue ∧ ∀ after, ringPc finish.pc = some after →
      RingQueue.holds after = none ∧ RingQueue.Standing channel.queue after := by
  cases pc with
  | sendQueue value ring | recvQueue ring => simp [ringPc] at outside
  | sendClosed value | sendTryAcquire value | sendAcquire value | recvCount | recvClosed
  | recvTryAcquire | recvAcquire =>
      simp only [resume] at resumed
      split at resumed <;> cases resumed
      all_goals refine ⟨rfl, ?_⟩
      all_goals rintro after ⟨⟩
  | sendReclosed value | recvRecount | recvReclosed =>
      simp only [resume] at resumed
      split at resumed <;> cases resumed
      all_goals refine ⟨rfl, ?_⟩
      all_goals rintro after ⟨⟩
      all_goals exact ⟨rfl, trivial⟩
  | sendGiveBack value | sendRelease value | recvRelease result | stopClose | stopCount
  | stopBackpress =>
      cases resumed
      refine ⟨rfl, ?_⟩
      rintro after ⟨⟩

variable [DecidableEq Task]

theorem resume_owned (owned : RingQueue.Owned channel.queue (ringPc ∘ locals))
    (stands : locals task = some pc) (balanced : Balanced others channel (some pc))
    (proper : Proper pc) (resumed : resume channel false pc = some (next, finish)) :
    RingQueue.Owned next.queue (ringPc ∘ Function.update locals task finish.pc) := by
  rw [Function.comp_update]
  have inside : (ringPc ∘ locals) task = ringPc (some pc) := by simp [stands]
  cases calls : ringPc (some pc) with
  | none =>
      obtain ⟨sameQueue, entering⟩ := resume_outside calls resumed
      rw [sameQueue]
      refine owned.keep ?_ fun after enters => (entering after enters).2
      rw [inside, calls]
      cases enters : ringPc finish.pc with
      | none => rfl
      | some after => exact (entering after enters).1
  | some ring =>
      rw [calls] at inside
      have standing := owned.standing task ring inside
      cases pc with
      | sendQueue value called =>
          cases calls
          simp only [resume, Option.map_eq_some_iff] at resumed
          obtain ⟨⟨storage, ringFinish⟩, stepped, moved⟩ := resumed
          cases moved
          rw [ringPc_afterTrySend]
          have effect := RingQueue.resume_effect standing owned.noException stepped
          refine owned.effect inside effect ?_
          rintro given tail rfl current
          rw [← current]
          exact balanced.room rfl
      | recvQueue called =>
          cases calls
          simp only [resume, Option.map_eq_some_iff] at resumed
          obtain ⟨⟨storage, ringFinish⟩, stepped, moved⟩ := resumed
          cases moved
          rw [ringPc_afterTryRecv]
          have effect := RingQueue.resume_effect standing owned.noException stepped
          refine owned.effect inside effect ?_
          rintro given tail rfl current
          simp [Proper, RingQueue.stage] at proper
      | _ => simp [ringPc] at calls

variable [Fintype Task]

/-- `Balanced` over all tasks. -/
structure Settled (channel : Channel α) (locals : Task → Option (Pc α)) : Prop where
  filled : span channel.queue.head channel.queue.tail =
    tally publishing locals + channel.countSem + tally receiving locals
  free : channel.backpressSem + tally sending locals +
    span channel.queue.head channel.queue.tail + tally returning locals = 1024

theorem exists_others (locals : Task → Option (Pc α)) (task : Task) :
    ∃ others : Others, ∀ channel : Channel α,
      (Settled channel locals → Balanced others channel (locals task)) ∧
      ∀ place, Balanced others channel place →
        Settled channel (Function.update locals task place) := by
  obtain ⟨sends, sendsNow, sendsNext⟩ := exists_tally_others sending locals task
  obtain ⟨publishes, publishesNow, publishesNext⟩ := exists_tally_others publishing locals task
  obtain ⟨receives, receivesNow, receivesNext⟩ := exists_tally_others receiving locals task
  obtain ⟨returns, returnsNow, returnsNext⟩ := exists_tally_others returning locals task
  refine ⟨⟨sends, publishes, receives, returns⟩, fun channel => ⟨?_, fun place => ?_⟩⟩
  · rintro ⟨filled, free⟩
    rw [publishesNow, receivesNow] at filled
    rw [sendsNow, returnsNow] at free
    exact ⟨filled, free⟩
  · rintro ⟨filled, free⟩
    constructor
    · rw [publishesNext, receivesNext]
      exact filled
    · rw [sendsNext, returnsNext]
      exact free

/-- What holds of an open channel while the tests of all calls are current. -/
structure Undisturbed (pool : Pool Task (Traffic α) (Option (Pc α))) : Prop where
  isOpen : pool.shared.channel.closed = false
  owned : RingQueue.Owned pool.shared.channel.queue (ringPc ∘ pool.locals)
  proper : ∀ task pc, pool.locals task = some pc → Proper pc
  settled : Settled pool.shared.channel pool.locals
  answered : ∀ result ∈ pool.shared.received, result.isSome

/-- Nobody calls `stop`, and no element throws. -/
def NeverStopped (_ : Pool Task (Traffic α) (Option (Pc α))) (label : Task × Label α) : Prop :=
  label.2.isStop = false ∧ label.2.throws = false

instance : DecidableRel (@NeverStopped α Task) := fun _ _ => inferInstanceAs (Decidable (_ ∧ _))

/-- Also, the step of a call of the ring queue makes a test that is true of the
queue as it is. -/
def TestsCurrent (pool : Pool Task (Traffic α) (Option (Pc α))) (label : Task × Label α) : Prop :=
  NeverStopped pool label ∧
    testsCurrent pool.shared.channel.queue (ringPc (pool.locals label.1)) = true

instance : DecidableRel (@TestsCurrent α Task) := fun _ _ => inferInstanceAs (Decidable (_ ∧ _))

omit [DecidableEq Task] [Fintype Task] in
theorem finish_eq (traffic : Traffic α) (progress : Progress α) :
    (traffic.finish progress).1.channel = traffic.channel ∧
      (traffic.finish progress).2 = progress.pc ∧
      ∀ result ∈ (traffic.finish progress).1.received,
        result ∈ traffic.received ∨ progress = .done (.received result) := by
  rcases progress with after | result
  · exact ⟨rfl, rfl, fun _ => .inl⟩
  · cases result with
    | received result =>
        refine ⟨rfl, rfl, fun other member => ?_⟩
        rcases List.mem_append.mp member with earlier | latest
        · exact .inl earlier
        · rw [List.mem_singleton.mp latest]
          exact .inr rfl
    | _ => exact ⟨rfl, rfl, fun _ => .inl⟩

theorem Undisturbed.begin (undisturbed : Undisturbed pool) (outside : pool.locals task = none)
    {call : Call α} (goesOn : call ≠ .stop) :
    Undisturbed { pool with locals := Function.update pool.locals task (some (start call)) } := by
  obtain ⟨isOpen, owned, proper, settled, answered⟩ := undisturbed
  obtain ⟨others, balance⟩ := exists_others pool.locals task
  have balanced := (balance pool.shared.channel).1 settled
  rw [outside] at balanced
  have begins : ringPc (some (start call)) = none ∧ Proper (start call) ∧
      Balanced others pool.shared.channel (some (start call)) := by
    cases call with
    | stop => contradiction
    | _ => exact ⟨rfl, trivial, balanced.filled, balanced.free⟩
  refine ⟨isOpen, ?_, ?_, (balance _).2 _ begins.2.2, answered⟩
  · rw [Function.comp_update, begins.1]
    exact owned.keep (by simp [outside, ringPc]) nofun
  · refine (Function.forall_update_iff _ fun _ place => ∀ pc, place = some pc → Proper pc).mpr
      ⟨?_, fun other _ => proper other⟩
    rintro pc ⟨⟩
    exact begins.2.1

theorem Undisturbed.step (undisturbed : Undisturbed pool) (stands : pool.locals task = some pc)
    (current : testsCurrent pool.shared.channel.queue (ringPc (some pc)))
    (resumed : resume pool.shared.channel false pc = some (next, finish)) :
    Undisturbed { shared := ({ pool.shared with channel := next }.finish finish).1,
                  locals := Function.update pool.locals task finish.pc } := by
  obtain ⟨isOpen, owned, proper, settled, answered⟩ := undisturbed
  obtain ⟨others, balance⟩ := exists_others pool.locals task
  have balanced := (balance pool.shared.channel).1 settled
  rw [stands] at balanced
  have steady := resume_steady isOpen balanced (proper task pc stands)
    (fun ring calls => owned.standing task ring (by simpa [stands] using calls))
    owned.noException current resumed
  obtain ⟨sameChannel, _, results⟩ := finish_eq { pool.shared with channel := next } finish
  refine ⟨?_, ?_, ?_, ?_, ?_⟩
  · rw [sameChannel]
    exact steady.isOpen
  · rw [sameChannel]
    exact resume_owned owned stands balanced (proper task pc stands) resumed
  · refine (Function.forall_update_iff _ fun _ place => ∀ pc, place = some pc → Proper pc).mpr
      ⟨?_, fun other _ => proper other⟩
    intro after stays
    cases finish with
    | running moved =>
        cases stays
        exact steady.proper after rfl
    | done result => contradiction
  · rw [sameChannel]
    exact (balance next).2 finish.pc steady.balanced
  · intro result member
    rcases results result member with earlier | latest
    · exact answered result earlier
    · exact steady.answered result latest

theorem undisturbed_of_reachable (reachable : (machine Task α).Reachable TestsCurrent pool) :
    Undisturbed pool := by
  refine Program.invariant reachable ?_ ?_
  · rintro first rfl
    refine ⟨rfl, ⟨nofun, nofun, fun index => .inl (.inl ⟨rfl, ?_⟩)⟩, nofun, ⟨?_, ?_⟩, nofun⟩
    · simp [RingQueue.Inside, fresh, create, RingQueue.Storage.create]
    · simp [fresh, create, RingQueue.Storage.create, tally, publishing, receiving]
    · simp [fresh, create, RingQueue.Storage.create, tally, sending, returning]
      rfl
  · intro pool task label shared finish undisturbed allowed advanced
    cases stands : pool.locals task with
    | none =>
        cases label with
        | step throws => simp [stands, advance, program] at advanced
        | call call =>
            have goesOn : call ≠ .stop := by
              rintro rfl
              cases allowed.1.1
            simp only [stands, program, advance, Option.some.injEq, Prod.mk.injEq] at advanced
            obtain ⟨rfl, rfl⟩ := advanced
            exact undisturbed.begin stands goesOn
    | some pc =>
        cases label with
        | call call => simp [stands, advance, program] at advanced
        | step throws =>
            obtain ⟨⟨_, rfl : throws = false⟩, current⟩ := allowed
            rw [stands] at current
            simp only [stands, program, advance, Option.map_eq_some_iff] at advanced
            obtain ⟨⟨next, progress⟩, resumed, finished⟩ := advanced
            have stepped := undisturbed.step stands current resumed
            rw [← (finish_eq { pool.shared with channel := next } progress).2.1,
              finished] at stepped
            exact stepped

/-- The claim: every call of `recv` that has returned has a value. -/
def AlwaysValues (pool : Pool Task (Traffic α) (Option (Pc α))) : Prop :=
  ∀ result ∈ pool.shared.received, result.isSome

theorem values_of_testsCurrent (reachable : (machine Task α).Reachable TestsCurrent pool) :
    AlwaysValues pool := (undisturbed_of_reachable reachable).answered

end Pool

/-- A value is sent and received. -/
theorem values_of_testsCurrent_once :
    ∃ pool : Pool (Fin 1) (Traffic ℕ) (Option (Pc ℕ)),
      (machine (Fin 1) ℕ).Reachable TestsCurrent pool ∧
        pool.shared.received = [some 7] ∧ AlwaysValues pool := by
  obtain ⟨pool, reachable, received⟩ :=
    Machine.reachable_of_exec (machine (Fin 1) ℕ) TestsCurrent (fresh (Fin 1) ℕ)
      (List.flatten
        [(0, .call (.send 7)) :: List.replicate 11 (0, .step false),
          (0, .call .recv) :: List.replicate 11 (0, .step false)])
      (fun pool => pool.shared.received = [some 7]) rfl ⟨_, rfl, rfl⟩
  exact ⟨pool, reachable, received, values_of_testsCurrent reachable⟩

/-- The first sender stalls in the slot at `head`; the second one sends its
value behind it and releases the permit the receiver gets. -/
theorem open_channel_reports_closure :
    ∃ pool : Pool (Fin 3) (Traffic ℕ) (Option (Pc ℕ)),
      (machine (Fin 3) ℕ).Reachable NeverStopped pool ∧ ¬ AlwaysValues pool := by
  obtain ⟨pool, reachable, received⟩ :=
    Machine.reachable_of_exec (machine (Fin 3) ℕ) NeverStopped (fresh (Fin 3) ℕ)
      (List.flatten
        [(0, .call (.send 7)) :: List.replicate 9 (0, .step false),
          (1, .call (.send 8)) :: List.replicate 11 (1, .step false),
          (2, .call .recv) :: List.replicate 9 (2, .step false)])
      (fun pool => pool.shared.received = [none]) rfl ⟨_, rfl, rfl⟩
  refine ⟨pool, reachable, fun values => ?_⟩
  have answered := values none (by simp [received])
  contradiction

end Asco.Sync.Channel
