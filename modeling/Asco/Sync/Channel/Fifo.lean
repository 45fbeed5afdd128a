import Asco.Sync.Channel.Atomic

namespace Asco.Sync.Channel.Atomic

open Foundation

/-! # Nothing is dropped and nothing is duplicated

While the channel is open every slot of the queue is a free permit, a permit in
the hands of a call, or a value.  Closing it only adds permits that no sender
can use.
-/

variable {α : Type*} {traffic next : Traffic α} {pc : Pc α} {finish : Option (Pc α)}

/-- What a call holds: `permitted` is a permit of `backpress_sem` without a value,
`passed` one that is past the second test of `closed`, `receiving` a permit of
`count_sem`, `publishing` a value in the queue whose permit is to come,
`stopping` a permit `stop` is about to add, and `emptyHanded` a result without a
value. -/
structure Share where
  permitted : ℕ := 0
  passed : ℕ := 0
  receiving : ℕ := 0
  publishing : ℕ := 0
  stopping : ℕ := 0
  emptyHanded : ℕ := 0

def Pc.share : Pc α → Share
  | .sendReclosed _ | .sendGiveBack _ => { permitted := 1 }
  | .sendQueue _ => { passed := 1 }
  | .sendRelease _ => { publishing := 1 }
  | .recvRecount | .recvReclosed | .recvQueue => { receiving := 1 }
  | .recvRelease (some _) => { permitted := 1 }
  | .recvRelease none => { permitted := 1, emptyHanded := 1 }
  | .stopCount | .stopBackpress => { stopping := 1 }
  | _ => {}

def share : Option (Pc α) → Share
  | some pc => pc.share
  | none => {}

/-- The counting invariant, with what one call holds apart from the others. -/
structure Balanced (others own : Share) (traffic : Traffic α) : Prop where
  room : others.passed + own.passed + traffic.queue.length ≤ 1024
  countSem : traffic.countSem ≤ 1024
  backpressSem : traffic.backpressSem ≤ 1024
  slots : traffic.closed = false → traffic.backpressSem + (others.permitted + own.permitted) +
    (others.passed + own.passed) + traffic.queue.length = 1024
  filled : traffic.closed = false → traffic.countSem + (others.receiving + own.receiving) +
    (others.publishing + own.publishing) = traffic.queue.length
  unstopped : traffic.closed = false → others.stopping + own.stopping = 0
  answered : traffic.closed = false →
    others.emptyHanded + own.emptyHanded = 0 ∧ none ∉ traffic.received
  inOrder : traffic.entered = traffic.left ++ traffic.queue

variable {others : Share}

/-! ## One step -/

theorem Balanced.acquiresBackpress (balanced : Balanced others {} traffic)
    (available : traffic.backpressSem ≠ 0) :
    Balanced others { permitted := 1 }
      { traffic with backpressSem := acquired traffic.backpressSem } := by
  have taken := acquired_eq balanced.backpressSem available
  exact
    { balanced with
      backpressSem := by
        have bound := balanced.backpressSem
        dsimp only
        omega
      slots := fun isOpen => by
        have slots := balanced.slots isOpen
        dsimp only at slots ⊢
        omega }

/-- The permit that comes back is one of the 1024, or the channel is closed. -/
theorem Balanced.releasesBackpress (balanced : Balanced others { permitted := 1 } traffic) :
    Balanced others {} { traffic with backpressSem := released traffic.backpressSem } := by
  have given := released_eq balanced.backpressSem
  exact
    { balanced with
      backpressSem := by
        dsimp only
        omega
      slots := fun isOpen => by
        have slots := balanced.slots isOpen
        dsimp only at slots ⊢
        omega }

/-- The counting facts are about an open channel, and `stop` has closed it. -/
theorem Balanced.closed_of_stopping (balanced : Balanced others { stopping := 1 } traffic) :
    traffic.closed ≠ false := by
  intro isOpen
  have unstopped := balanced.unstopped isOpen
  dsimp only at unstopped
  omega

theorem Balanced.stopsBackpress (balanced : Balanced others { stopping := 1 } traffic) :
    Balanced others {} { traffic with backpressSem := released traffic.backpressSem } := by
  have closed := balanced.closed_of_stopping
  have given := released_eq balanced.backpressSem
  exact
    { balanced with
      backpressSem := by
        dsimp only
        omega
      slots := fun isOpen => absurd isOpen closed
      unstopped := fun isOpen => absurd isOpen closed }

theorem Balanced.stopsCount (balanced : Balanced others { stopping := 1 } traffic) :
    Balanced others { stopping := 1 } { traffic with countSem := released traffic.countSem } := by
  have closed := balanced.closed_of_stopping
  obtain ⟨room, countSem, backpressSem, slots, filled, unstopped, answered, inOrder⟩ := balanced
  have given := released_eq countSem
  have bounded : released traffic.countSem ≤ 1024 := by omega
  exact ⟨room, bounded, backpressSem, slots, fun isOpen => absurd isOpen closed, unstopped,
    answered, inOrder⟩

theorem Balanced.closes (balanced : Balanced others {} traffic) :
    Balanced others { stopping := 1 } { traffic with closed := true } where
  room := balanced.room
  countSem := balanced.countSem
  backpressSem := balanced.backpressSem
  slots := fun isOpen => absurd isOpen (by simp)
  filled := fun isOpen => absurd isOpen (by simp)
  unstopped := fun isOpen => absurd isOpen (by simp)
  answered := fun isOpen => absurd isOpen (by simp)
  inOrder := balanced.inOrder

theorem Balanced.acquiresCount (balanced : Balanced others {} traffic)
    (available : traffic.countSem ≠ 0) :
    Balanced others { receiving := 1 } { traffic with countSem := acquired traffic.countSem } := by
  have taken := acquired_eq balanced.countSem available
  exact
    { balanced with
      countSem := by
        have bound := balanced.countSem
        dsimp only
        omega
      filled := fun isOpen => by
        have filled := balanced.filled isOpen
        dsimp only at filled ⊢
        omega }

/-- The queue holds at most 1024 values, so the permit of one of them is not lost. -/
theorem Balanced.releasesCount (value : α)
    (balanced : Balanced others { publishing := 1 } traffic) :
    Balanced others {}
      { traffic with countSem := released traffic.countSem, sent := traffic.sent ++ [value] } := by
  have given := released_eq balanced.countSem
  exact
    { balanced with
      countSem := by
        dsimp only
        omega
      filled := fun isOpen => by
        have filled := balanced.filled isOpen
        have room := balanced.room
        dsimp only at filled room ⊢
        omega }

/-- A permit that has passed the second test of `closed` stands for a place in the
queue. -/
theorem Balanced.passes (balanced : Balanced others { permitted := 1 } traffic)
    (isOpen : traffic.closed = false) : Balanced others { passed := 1 } traffic := by
  have slots := balanced.slots isOpen
  dsimp only at slots
  exact
    { balanced with
      room := by
        dsimp only
        omega
      slots := fun _ => by
        dsimp only
        omega }

theorem Balanced.trySend (value : α) (balanced : Balanced others { passed := 1 } traffic) :
    Balanced others { publishing := 1 } (traffic.trySend value) := by
  have room := balanced.room
  dsimp only at room
  have fits : traffic.queue.length < channelCapacity.toNat := by
    rw [channelCapacity_toNat]
    omega
  rw [Traffic.trySend, if_pos fits]
  exact
    { balanced with
      room := by
        simp only [List.length_append, List.length_singleton]
        omega
      slots := fun isOpen => by
        have slots := balanced.slots isOpen
        simp only [List.length_append, List.length_singleton] at slots ⊢
        omega
      filled := fun isOpen => by
        have filled := balanced.filled isOpen
        simp only [List.length_append, List.length_singleton] at filled ⊢
        omega
      inOrder := by
        rw [balanced.inOrder, List.append_assoc] }

/-- A receiver with a permit finds a value while the channel is open. -/
theorem Balanced.tryRecv (balanced : Balanced others { receiving := 1 } traffic) :
    Balanced others (share (some (.recvRelease traffic.tryRecv.2))) traffic.tryRecv.1 := by
  cases stored : traffic.queue with
  | nil =>
      have closed : traffic.closed ≠ false := by
        intro isOpen
        have filled := balanced.filled isOpen
        rw [stored, List.length_nil] at filled
        dsimp only at filled
        omega
      simp only [Traffic.tryRecv, stored, share, Pc.share]
      exact
        { balanced with
          slots := fun isOpen => absurd isOpen closed
          filled := fun isOpen => absurd isOpen closed
          answered := fun isOpen => absurd isOpen closed }
  | cons value rest =>
      have length : traffic.queue.length = rest.length + 1 := by
        rw [stored, List.length_cons]
      simp only [Traffic.tryRecv, stored, share, Pc.share]
      exact
        { balanced with
          room := by
            have room := balanced.room
            dsimp only at room ⊢
            omega
          slots := fun isOpen => by
            have slots := balanced.slots isOpen
            dsimp only at slots ⊢
            omega
          filled := fun isOpen => by
            have filled := balanced.filled isOpen
            dsimp only at filled ⊢
            omega
          inOrder := by
            rw [balanced.inOrder, stored, List.append_assoc, List.singleton_append] }

theorem Balanced.answers {result : Option α}
    (balanced : Balanced others (share (some (.recvRelease result))) traffic) :
    Balanced others {}
      { traffic with
        backpressSem := released traffic.backpressSem,
        received := traffic.received ++ [result] } := by
  cases result with
  | none =>
      have closed : traffic.closed ≠ false := by
        intro isOpen
        have emptyHanded := (balanced.answered isOpen).1
        simp only [share, Pc.share] at emptyHanded
        omega
      have given := released_eq balanced.backpressSem
      exact
        { balanced with
          backpressSem := by
            dsimp only
            omega
          slots := fun isOpen => absurd isOpen closed
          answered := fun isOpen => absurd isOpen closed }
  | some value =>
      exact
        { balanced.releasesBackpress with
          answered := fun isOpen => by
            obtain ⟨none, received⟩ := balanced.answered isOpen
            exact ⟨none, by simpa using received⟩ }

/-- A call that is cut off returns without a value, on a closed channel only. -/
theorem Balanced.cutOff {own : Share} (balanced : Balanced others own traffic)
    (closed : traffic.closed = true) :
    Balanced others {} { traffic with received := traffic.received ++ [none] } where
  room := by
    have room := balanced.room
    dsimp only
    omega
  countSem := balanced.countSem
  backpressSem := balanced.backpressSem
  slots := fun isOpen => absurd isOpen (by simp [closed])
  filled := fun isOpen => absurd isOpen (by simp [closed])
  unstopped := fun isOpen => absurd isOpen (by simp [closed])
  answered := fun isOpen => absurd isOpen (by simp [closed])
  inOrder := balanced.inOrder

theorem resume_balanced (balanced : Balanced others pc.share traffic)
    (stepped : resume traffic pc = some (next, finish)) :
    Balanced others (share finish) next := by
  cases pc with
  | sendClosed value =>
      simp only [resume] at stepped
      split at stepped <;> cases stepped <;> exact balanced
  | sendTryAcquire value =>
      simp only [resume] at stepped
      split at stepped <;> cases stepped
      · exact balanced
      · exact balanced.acquiresBackpress ‹_›
  | sendAcquire value =>
      simp only [resume] at stepped
      split at stepped <;> cases stepped
      exact balanced.acquiresBackpress ‹_›
  | sendReclosed value =>
      simp only [resume] at stepped
      split at stepped <;> cases stepped
      · exact balanced
      · rename_i isOpen
        exact balanced.passes (by simpa using isOpen)
  | sendGiveBack value =>
      cases stepped
      exact balanced.releasesBackpress
  | sendQueue value =>
      cases stepped
      exact balanced.trySend value
  | sendRelease value =>
      cases stepped
      exact balanced.releasesCount value
  | recvCount =>
      simp only [resume] at stepped
      split at stepped <;> cases stepped <;> exact balanced
  | recvClosed =>
      simp only [resume] at stepped
      split at stepped <;> cases stepped
      · exact balanced.cutOff ‹_›
      · exact balanced
  | recvTryAcquire =>
      simp only [resume] at stepped
      split at stepped <;> cases stepped
      · exact balanced
      · exact balanced.acquiresCount ‹_›
  | recvAcquire =>
      simp only [resume] at stepped
      split at stepped <;> cases stepped
      exact balanced.acquiresCount ‹_›
  | recvRecount =>
      simp only [resume] at stepped
      split at stepped <;> cases stepped <;> exact balanced
  | recvReclosed =>
      simp only [resume] at stepped
      split at stepped <;> cases stepped
      · exact balanced.cutOff ‹_›
      · exact balanced
  | recvQueue =>
      cases stepped
      exact balanced.tryRecv
  | recvRelease result =>
      cases stepped
      exact balanced.answers
  | stopClose =>
      cases stepped
      exact balanced.closes
  | stopCount =>
      cases stepped
      exact balanced.stopsCount
  | stopBackpress =>
      cases stepped
      exact balanced.stopsBackpress

/-! ## All calls together -/

variable {Task : Type*} [Fintype Task]

/-- What all calls hold. -/
def total (locals : Task → Option (Pc α)) : Share where
  permitted := tally (fun place => (share place).permitted) locals
  passed := tally (fun place => (share place).passed) locals
  receiving := tally (fun place => (share place).receiving) locals
  publishing := tally (fun place => (share place).publishing) locals
  stopping := tally (fun place => (share place).stopping) locals
  emptyHanded := tally (fun place => (share place).emptyHanded) locals

theorem exists_others [DecidableEq Task] (locals : Task → Option (Pc α)) (task : Task) :
    ∃ others, (∀ traffic : Traffic α, Balanced (total locals) {} traffic →
      Balanced others (share (locals task)) traffic) ∧
      ∀ (place : Option (Pc α)) (traffic : Traffic α), Balanced others (share place) traffic →
        Balanced (total (Function.update locals task place)) {} traffic := by
  obtain ⟨permitted, permittedNow, permittedNext⟩ :=
    exists_tally_others (fun place => (share place).permitted) locals task
  obtain ⟨passed, passedNow, passedNext⟩ :=
    exists_tally_others (fun place => (share place).passed) locals task
  obtain ⟨receiving, receivingNow, receivingNext⟩ :=
    exists_tally_others (fun place => (share place).receiving) locals task
  obtain ⟨publishing, publishingNow, publishingNext⟩ :=
    exists_tally_others (fun place => (share place).publishing) locals task
  obtain ⟨stopping, stoppingNow, stoppingNext⟩ :=
    exists_tally_others (fun place => (share place).stopping) locals task
  obtain ⟨emptyHanded, emptyHandedNow, emptyHandedNext⟩ :=
    exists_tally_others (fun place => (share place).emptyHanded) locals task
  refine ⟨⟨permitted, passed, receiving, publishing, stopping, emptyHanded⟩, ?_, ?_⟩
  · intro traffic balanced
    have now : total locals =
        { permitted := permitted + (share (locals task)).permitted
          passed := passed + (share (locals task)).passed
          receiving := receiving + (share (locals task)).receiving
          publishing := publishing + (share (locals task)).publishing
          stopping := stopping + (share (locals task)).stopping
          emptyHanded := emptyHanded + (share (locals task)).emptyHanded } := by
      rw [total, permittedNow, passedNow, receivingNow, publishingNow, stoppingNow, emptyHandedNow]
    rw [now] at balanced
    exact { balanced with }
  · intro place traffic balanced
    have next : total (Function.update locals task place) =
        { permitted := permitted + (share place).permitted
          passed := passed + (share place).passed
          receiving := receiving + (share place).receiving
          publishing := publishing + (share place).publishing
          stopping := stopping + (share place).stopping
          emptyHanded := emptyHanded + (share place).emptyHanded } := by
      rw [total, permittedNext, passedNext, receivingNext, publishingNext, stoppingNext,
        emptyHandedNext]
    rw [next]
    exact { balanced with }

/-! ## Values -/

variable [DecidableEq α] {value : α}

/-- The result a receiver is about to return. -/
def carrying (value : α) : Option (Pc α) → ℕ
  | some (.recvRelease (some carried)) => if carried = value then 1 else 0
  | _ => 0

/-- The value a sender has put into the queue and is about to report. -/
def reporting (value : α) : Option (Pc α) → ℕ
  | some (.sendRelease reported) => if reported = value then 1 else 0
  | _ => 0

/-- Where the copies of a value are; `carried` and `reported` count the calls. -/
structure Accounted (value : α) (carried reported : ℕ) (traffic : Traffic α) : Prop where
  received : traffic.received.count (some value) + carried = traffic.left.count value
  sent : traffic.sent.count value + reported = traffic.entered.count value

variable {carried reported : ℕ}

theorem resume_accounted (room : pc.share.passed + traffic.queue.length ≤ 1024)
    (accounted : Accounted value (carried + carrying value (some pc))
      (reported + reporting value (some pc)) traffic)
    (stepped : resume traffic pc = some (next, finish)) :
    Accounted value (carried + carrying value finish) (reported + reporting value finish) next := by
  cases pc with
  | sendQueue sending =>
      have fits : traffic.queue.length < channelCapacity.toNat := by
        rw [channelCapacity_toNat]
        simp only [Pc.share] at room
        omega
      simp only [resume, Traffic.trySend, if_pos fits, Option.some.injEq, Prod.mk.injEq] at stepped
      obtain ⟨rfl, rfl⟩ := stepped
      obtain ⟨received, sent⟩ := accounted
      refine ⟨received, ?_⟩
      simp only [reporting, List.count_append, List.count_singleton, beq_iff_eq] at sent ⊢
      omega
  | sendRelease reporting =>
      cases stepped
      obtain ⟨received, sent⟩ := accounted
      refine ⟨received, ?_⟩
      simp only [Atomic.reporting, List.count_append, List.count_singleton, beq_iff_eq] at sent ⊢
      omega
  | recvQueue =>
      obtain ⟨received, sent⟩ := accounted
      cases stored : traffic.queue with
      | nil =>
          simp only [resume, Traffic.tryRecv, stored, Option.some.injEq, Prod.mk.injEq] at stepped
          obtain ⟨rfl, rfl⟩ := stepped
          exact ⟨received, sent⟩
      | cons value rest =>
          simp only [resume, Traffic.tryRecv, stored, Option.some.injEq, Prod.mk.injEq] at stepped
          obtain ⟨rfl, rfl⟩ := stepped
          refine ⟨?_, sent⟩
          simp only [carrying, List.count_append, List.count_singleton, beq_iff_eq] at received ⊢
          omega
  | recvRelease result =>
      cases stepped
      obtain ⟨received, sent⟩ := accounted
      refine ⟨?_, sent⟩
      cases result <;> simp [carrying, List.count_singleton] at received ⊢ <;> omega
  | recvClosed =>
      simp only [resume] at stepped
      split at stepped <;> cases stepped
      · exact ⟨by simpa [carrying] using accounted.received, accounted.sent⟩
      · exact accounted
  | recvReclosed =>
      simp only [resume] at stepped
      split at stepped <;> cases stepped
      · exact ⟨by simpa [carrying] using accounted.received, accounted.sent⟩
      · exact accounted
  | sendClosed _ | sendTryAcquire _ | sendAcquire _ | sendReclosed _ | recvCount | recvTryAcquire
  | recvAcquire | recvRecount =>
      simp only [resume] at stepped
      split at stepped <;> cases stepped <;>
        exact ⟨accounted.received, accounted.sent⟩
  | sendGiveBack _ | stopClose | stopCount | stopBackpress =>
      cases stepped
      exact ⟨accounted.received, accounted.sent⟩

/-! ## Every run -/

section

variable {pool : Pool Task (Traffic α) (Option (Pc α))}

/-- What a channel over an atomic queue promises. -/
structure Lossless (pool : Pool Task (Traffic α) (Option (Pc α))) : Prop where
  neverFull : ∀ task value, pool.locals task = some (.sendQueue value) →
    pool.shared.queue.length < channelCapacity.toNat
  inOrder : pool.shared.entered = pool.shared.left ++ pool.shared.queue
  sentOnce : ∀ value, pool.shared.sent.count value + tally (reporting value) pool.locals =
    pool.shared.entered.count value
  receivedOnce : ∀ value,
    pool.shared.received.count (some value) + tally (carrying value) pool.locals =
      pool.shared.left.count value
  law : pool.shared.closed = false →
    pool.shared.backpressSem + (total pool.locals).passed + pool.shared.queue.length ≤
      channelCapacity.toNat
  obtains : pool.shared.closed = false →
    (∀ task, (share (pool.locals task)).receiving = 1 → pool.shared.queue ≠ []) ∧
      (∀ task, pool.locals task ≠ some (.recvRelease none)) ∧ none ∉ pool.shared.received

/-- The invariant of the pool. -/
structure Kept (pool : Pool Task (Traffic α) (Option (Pc α))) : Prop where
  balanced : Balanced (total pool.locals) {} pool.shared
  accounted : ∀ value, Accounted value (tally (carrying value) pool.locals)
    (tally (reporting value) pool.locals) pool.shared

theorem kept_fresh : Kept (fresh Task α) := by
  constructor
  · have weightless : total (fresh Task α).locals = {} := by
      simp [total, fresh, tally, share]
    rw [weightless]
    constructor <;> simp [fresh, channelCapacity_toNat]
  · intro value
    constructor <;> simp [fresh, tally, carrying, reporting]

variable [DecidableEq Task]

theorem Kept.step {task : Task} {label : Label α} {shared : Traffic α} (kept : Kept pool)
    (stepped : advance pool.shared (pool.locals task) label = some (shared, finish)) :
    Kept { shared, locals := Function.update pool.locals task finish } := by
  obtain ⟨balanced, accounted⟩ := kept
  obtain ⟨others, before, after⟩ := exists_others pool.locals task
  have balanced := before pool.shared balanced
  cases stands : pool.locals task with
  | none =>
      cases label with
      | step => simp [advance, stands] at stepped
      | call call =>
          simp only [advance, stands, Option.some.injEq, Prod.mk.injEq] at stepped
          obtain ⟨rfl, rfl⟩ := stepped
          rw [stands] at balanced
          constructor
          · cases call <;> exact after _ _ balanced
          · intro value
            obtain ⟨carried, carriedNow, carriedNext⟩ :=
              exists_tally_others (carrying value) pool.locals task
            obtain ⟨reported, reportedNow, reportedNext⟩ :=
              exists_tally_others (reporting value) pool.locals task
            have accounts := accounted value
            rw [carriedNow, reportedNow, stands] at accounts
            rw [carriedNext, reportedNext]
            cases call <;> exact accounts
  | some pc =>
      cases label with
      | call call => simp [advance, stands] at stepped
      | step =>
          simp only [advance, stands] at stepped
          rw [stands] at balanced
          constructor
          · exact after _ _ (resume_balanced balanced stepped)
          · intro value
            obtain ⟨carried, carriedNow, carriedNext⟩ :=
              exists_tally_others (carrying value) pool.locals task
            obtain ⟨reported, reportedNow, reportedNext⟩ :=
              exists_tally_others (reporting value) pool.locals task
            have accounts := accounted value
            rw [carriedNow, reportedNow, stands] at accounts
            rw [carriedNext, reportedNext]
            have room : pc.share.passed + pool.shared.queue.length ≤ 1024 := by
              have room := balanced.room
              simp only [share] at room
              omega
            exact resume_accounted room accounts stepped

theorem kept_of_reachable (reachable : (machine Task α).Reachable Machine.free pool) :
    Kept pool := by
  apply Program.invariant reachable
  · intro first started
    rw [started]
    exact kept_fresh
  · intro pool task label shared finish kept _ stepped
    exact kept.step stepped

theorem lossless_of_reachable (reachable : (machine Task α).Reachable Machine.free pool) :
    Lossless pool := by
  obtain ⟨balanced, accounted⟩ := kept_of_reachable reachable
  constructor
  · intro task value stands
    have passed : (share (pool.locals task)).passed ≤ (total pool.locals).passed :=
      @weight_le_tally _ _ _ (fun place => (share place).passed) pool.locals task
    have room := balanced.room
    simp only [stands, share, Pc.share] at passed
    rw [channelCapacity_toNat]
    omega
  · exact balanced.inOrder
  · exact fun value => (accounted value).sent
  · exact fun value => (accounted value).received
  · intro isOpen
    have slots := balanced.slots isOpen
    rw [channelCapacity_toNat]
    omega
  · intro isOpen
    have filled := balanced.filled isOpen
    obtain ⟨none, answered⟩ := balanced.answered isOpen
    refine ⟨?_, ?_, answered⟩
    · intro task receives empty
      have held : (share (pool.locals task)).receiving ≤ (total pool.locals).receiving :=
        @weight_le_tally _ _ _ (fun place => (share place).receiving) pool.locals task
      rw [empty, List.length_nil] at filled
      omega
    · intro task stands
      have held : (share (pool.locals task)).emptyHanded ≤ (total pool.locals).emptyHanded :=
        @weight_le_tally _ _ _ (fun place => (share place).emptyHanded) pool.locals task
      simp only [stands, share, Pc.share] at held
      omega

end

/-- A value is received by a call that waits for it, a second one is cut off by
`stop`. -/
theorem lossless_of_reachable_stop :
    ∃ pool : Pool (Fin 2) (Traffic ℕ) (Option (Pc ℕ)),
      (machine (Fin 2) ℕ).Reachable Machine.free pool ∧
        pool.shared.received = [some 5, none] ∧ Lossless pool := by
  obtain ⟨pool, reachable, received⟩ :=
    Machine.reachable_of_exec (machine (Fin 2) ℕ) Machine.free (fresh (Fin 2) ℕ)
      (List.flatten
        [(0, .call .recv) :: List.replicate 3 (0, .step),
          (1, .call (.send 5)) :: List.replicate 5 (1, .step),
          List.replicate 5 (0, .step),
          (0, .call .recv) :: List.replicate 3 (0, .step),
          (1, .call .stop) :: List.replicate 3 (1, .step),
          List.replicate 3 (0, .step)])
      (fun pool => pool.shared.received = [some 5, none]) rfl ⟨_, rfl, by decide⟩
  exact ⟨pool, reachable, received, lossless_of_reachable reachable⟩

end Asco.Sync.Channel.Atomic
