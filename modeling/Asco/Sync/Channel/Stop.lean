import Asco.Sync.Channel.Fifo

namespace Asco.Sync.Channel.Atomic

open Foundation

/-! # Who is released by `stop`

A sender that is woken on a closed channel gives its permit back, so one permit
wakes all of them.  A receiver that takes the last permit keeps it.
-/

variable {α : Type*} {traffic next : Traffic α} {pc : Pc α} {finish : Option (Pc α)}

/-- A call that is suspended in `acquire`. -/
def suspended (traffic : Traffic α) : Option (Pc α) → Bool
  | some .recvAcquire => traffic.countSem == 0
  | some (.sendAcquire _) => traffic.backpressSem == 0
  | _ => false

/-- A receiver that goes for a permit. -/
def wanting : Option (Pc α) → Bool
  | some .recvTryAcquire | some .recvAcquire => true
  | _ => false

/-- A call that has a release of `count_sem` before it. -/
def supplying : Option (Pc α) → Bool
  | some (.sendQueue _) | some (.sendRelease _) | some .stopClose | some .stopCount => true
  | _ => false

/-- A call that has a release of `backpress_sem` before it once the channel is closed. -/
def handing : Option (Pc α) → Bool
  | some (.sendReclosed _) | some (.sendGiveBack _) | some .stopClose | some .stopCount
  | some .stopBackpress => true
  | _ => false

/-- Receivers that go for a permit will find one. -/
def Supplied (traffic : Traffic α) (supplied wanted : Prop) : Prop :=
  traffic.closed = true → traffic.countSem ≠ 0 ∨ supplied ∨ ¬ wanted

/-- Senders will find a permit. -/
def Handed (traffic : Traffic α) (handed : Prop) : Prop :=
  traffic.closed = true → traffic.backpressSem ≠ 0 ∨ handed

/-! ## One step -/

@[simp] theorem trySend_closed (value : α) : (traffic.trySend value).closed = traffic.closed := by
  unfold Traffic.trySend
  split <;> rfl

@[simp] theorem trySend_backpressSem (value : α) :
    (traffic.trySend value).backpressSem = traffic.backpressSem := by
  unfold Traffic.trySend
  split <;> rfl

@[simp] theorem tryRecv_closed : traffic.tryRecv.1.closed = traffic.closed := by
  unfold Traffic.tryRecv
  split <;> rfl

@[simp] theorem tryRecv_countSem : traffic.tryRecv.1.countSem = traffic.countSem := by
  unfold Traffic.tryRecv
  split <;> rfl

@[simp] theorem tryRecv_backpressSem :
    traffic.tryRecv.1.backpressSem = traffic.backpressSem := by
  unfold Traffic.tryRecv
  split <;> rfl

variable {supplied wanted handed : Prop}

theorem resume_handed (bounded : traffic.backpressSem ≤ 1024)
    (before : Handed traffic (handing (some pc) = true ∨ handed))
    (stepped : resume traffic pc = some (next, finish)) :
    Handed next (handing finish = true ∨ handed) := by
  have given : released traffic.backpressSem ≠ 0 := by
    rw [released_eq bounded]
    omega
  have same {after : Traffic α} {place : Option (Pc α)} (closed : after.closed = traffic.closed)
      (permits : after.backpressSem = traffic.backpressSem)
      (hands : handing place = handing (some pc)) :
      Handed after (handing place = true ∨ handed) := by
    rw [Handed, closed, permits, hands]
    exact before
  cases pc with
  | sendClosed value =>
      simp only [resume] at stepped
      split at stepped <;> cases stepped <;> exact same rfl rfl rfl
  | sendTryAcquire value =>
      simp only [resume] at stepped
      split at stepped <;> cases stepped
      · exact same rfl rfl rfl
      · exact fun _ => .inr (.inl rfl)
  | sendAcquire value =>
      simp only [resume] at stepped
      split at stepped <;> cases stepped
      exact fun _ => .inr (.inl rfl)
  | sendReclosed value =>
      simp only [resume] at stepped
      split at stepped <;> cases stepped
      · exact same rfl rfl rfl
      · exact fun closed => absurd closed ‹_›
  | sendGiveBack value =>
      cases stepped
      exact fun _ => .inl given
  | sendQueue value =>
      cases stepped
      exact same (trySend_closed value) (trySend_backpressSem value) rfl
  | recvQueue =>
      cases stepped
      exact same tryRecv_closed tryRecv_backpressSem rfl
  | recvRelease result =>
      cases stepped
      exact fun _ => .inl given
  | stopClose =>
      cases stepped
      exact fun _ => .inr (.inl rfl)
  | stopCount =>
      cases stepped
      exact fun _ => .inr (.inl rfl)
  | stopBackpress =>
      cases stepped
      exact fun _ => .inl given
  | sendRelease value =>
      cases stepped
      exact same rfl rfl rfl
  | recvCount | recvClosed | recvTryAcquire | recvAcquire | recvRecount | recvReclosed =>
      simp only [resume] at stepped
      split at stepped <;> cases stepped <;> exact same rfl rfl rfl

theorem resume_supplied (bounded : traffic.countSem ≤ 1024)
    (before : Supplied traffic (supplying (some pc) = true ∨ supplied)
      (wanting (some pc) = true ∨ wanted))
    (handsOn : traffic.closed = true → traffic.countSem = 1 → wanting (some pc) = true →
      supplied ∨ ¬ wanted)
    (stepped : resume traffic pc = some (next, finish)) :
    Supplied next (supplying finish = true ∨ supplied) (wanting finish = true ∨ wanted) := by
  have given : released traffic.countSem ≠ 0 := by
    rw [released_eq bounded]
    omega
  have same {after : Traffic α} {place : Option (Pc α)} (closed : after.closed = traffic.closed)
      (permits : after.countSem = traffic.countSem)
      (supplies : supplying place = supplying (some pc))
      (wants : wanting place = wanting (some pc)) :
      Supplied after (supplying place = true ∨ supplied) (wanting place = true ∨ wanted) := by
    rw [Supplied, closed, permits, supplies, wants]
    exact before
  -- the receiver that takes the last permit hands on what is still to come
  have takes (wants : wanting (some pc) = true) (available : traffic.countSem ≠ 0) :
      Supplied { traffic with countSem := acquired traffic.countSem } supplied wanted := by
    intro closed
    by_cases last : traffic.countSem = 1
    · exact .inr (handsOn closed last wants)
    · left
      have taken := acquired_eq bounded available
      dsimp only
      omega
  have recounts (kept : Supplied next supplied wanted) :
      Supplied next (supplying (some (.recvRecount : Pc α)) = true ∨ supplied)
        (wanting (some (.recvRecount : Pc α)) = true ∨ wanted) :=
    fun closed => (kept closed).imp_right fun spared => spared.imp .inr fun absent wants =>
      absent (wants.resolve_left Bool.false_ne_true)
  cases pc with
  | sendClosed value =>
      simp only [resume] at stepped
      split at stepped <;> cases stepped <;> exact same rfl rfl rfl rfl
  | sendTryAcquire value =>
      simp only [resume] at stepped
      split at stepped <;> cases stepped <;> exact same rfl rfl rfl rfl
  | sendAcquire value =>
      simp only [resume] at stepped
      split at stepped <;> cases stepped
      exact same rfl rfl rfl rfl
  | sendReclosed value =>
      simp only [resume] at stepped
      split at stepped <;> cases stepped
      · exact same rfl rfl rfl rfl
      · exact fun closed => absurd closed ‹_›
  | sendQueue value =>
      cases stepped
      exact fun _ => .inr (.inl (.inl rfl))
  | sendRelease value =>
      cases stepped
      exact fun _ => .inl given
  | recvCount =>
      simp only [resume] at stepped
      split at stepped <;> cases stepped
      · exact same rfl rfl rfl rfl
      · exact fun _ => .inl ‹_›
  | recvClosed =>
      simp only [resume] at stepped
      split at stepped <;> cases stepped
      · exact same rfl rfl rfl rfl
      · exact fun closed => absurd closed ‹_›
  | recvTryAcquire =>
      simp only [resume] at stepped
      split at stepped <;> cases stepped
      · exact same rfl rfl rfl rfl
      · exact recounts (takes rfl ‹_›)
  | recvAcquire =>
      simp only [resume] at stepped
      split at stepped <;> cases stepped
      exact recounts (takes rfl ‹_›)
  | recvRecount =>
      simp only [resume] at stepped
      split at stepped <;> cases stepped <;> exact same rfl rfl rfl rfl
  | recvReclosed =>
      simp only [resume] at stepped
      split at stepped <;> cases stepped <;> exact same rfl rfl rfl rfl
  | recvQueue =>
      cases stepped
      exact same tryRecv_closed tryRecv_countSem rfl rfl
  | stopClose =>
      cases stepped
      exact fun _ => .inr (.inl (.inl rfl))
  | stopCount =>
      cases stepped
      exact fun _ => .inl given
  | sendGiveBack _ | recvRelease _ | stopBackpress =>
      cases stepped
      exact same rfl rfl rfl rfl

/-! ## Every run -/

section

variable {Task : Type*} {pool : Pool Task (Traffic α) (Option (Pc α))}

/-- Every call has returned or is suspended. -/
def Quiescent (pool : Pool Task (Traffic α) (Option (Pc α))) : Prop :=
  ∀ task, pool.locals task = none ∨ suspended pool.shared (pool.locals task) = true

/-- No call is left suspended on a closed channel. -/
def StopReleases (pool : Pool Task (Traffic α) (Option (Pc α))) : Prop :=
  pool.shared.closed = true → Quiescent pool → ∀ task, pool.locals task = none

theorem Quiescent.idle (quiescent : Quiescent pool) (task : Task) :
    supplying (pool.locals task) = false ∧ handing (pool.locals task) = false := by
  cases stands : pool.locals task with
  | none => exact ⟨rfl, rfl⟩
  | some pc =>
      have waits := (quiescent task).resolve_left (by simp [stands])
      rw [stands] at waits
      cases pc with
      | recvAcquire => exact ⟨rfl, rfl⟩
      | sendAcquire value => exact ⟨rfl, rfl⟩
      | _ => simp [suspended] at waits

/-- When a receiver takes the last permit of `count_sem` on a closed channel, a
release is still to come or no other receiver goes for a permit. -/
def HandsOn (pool : Pool Task (Traffic α) (Option (Pc α))) (label : Task × Label α) : Prop :=
  pool.shared.closed = true → pool.shared.countSem = 1 → wanting (pool.locals label.1) = true →
    (∃ other, other ≠ label.1 ∧ supplying (pool.locals other) = true) ∨
      ∀ other, other ≠ label.1 → wanting (pool.locals other) = false

instance [Fintype Task] [DecidableEq Task] : DecidableRel (@HandsOn α Task) :=
  fun _ _ => inferInstanceAs (Decidable (_ → _ → _ → _ ∨ _))

instance [Fintype Task] [DecidableEq α] : Decidable (StopReleases pool) :=
  haveI : Decidable (Quiescent pool) := inferInstanceAs (Decidable (∀ _, _ ∨ _))
  inferInstanceAs (Decidable (_ → _ → ∀ _, _))

variable [DecidableEq Task]

/-- One task apart from the others. -/
theorem exists_apart (place : Option (Pc α) → Bool) (locals : Task → Option (Pc α)) (task : Task) :
    (∃ other, place (locals other) = true) ↔
      place (locals task) = true ∨ ∃ other, other ≠ task ∧ place (locals other) = true := by
  have updated := Function.exists_update_iff (a := task) (b := locals task) locals
    fun _ standing => place standing = true
  rwa [Function.update_eq_self] at updated

/-- The same after the task has moved. -/
theorem exists_moved (place : Option (Pc α) → Bool) (locals : Task → Option (Pc α)) (task : Task)
    (finish : Option (Pc α)) :
    (∃ other, place (Function.update locals task finish other) = true) ↔
      place finish = true ∨ ∃ other, other ≠ task ∧ place (locals other) = true :=
  Function.exists_update_iff locals fun _ standing => place standing = true

/-- The invariant of the pool. -/
structure Woken (pool : Pool Task (Traffic α) (Option (Pc α))) : Prop where
  handed : Handed pool.shared (∃ task, handing (pool.locals task) = true)
  supplied : Supplied pool.shared (∃ task, supplying (pool.locals task) = true)
    (∃ task, wanting (pool.locals task) = true)

theorem Woken.step {task : Task} {label : Label α} {shared : Traffic α}
    (countSem : pool.shared.countSem ≤ 1024) (backpressSem : pool.shared.backpressSem ≤ 1024)
    (woken : Woken pool) (handsOn : HandsOn pool (task, label))
    (stepped : advance pool.shared (pool.locals task) label = some (shared, finish)) :
    Woken { shared, locals := Function.update pool.locals task finish } := by
  obtain ⟨handed, supplied⟩ := woken
  rw [exists_apart handing pool.locals task] at handed
  rw [exists_apart supplying pool.locals task, exists_apart wanting pool.locals task] at supplied
  constructor
  · simp only [exists_moved]
    cases stands : pool.locals task with
    | none =>
        cases label with
        | step => simp [advance, stands] at stepped
        | call call =>
            simp only [advance, stands, Option.some.injEq, Prod.mk.injEq] at stepped
            obtain ⟨rfl, rfl⟩ := stepped
            rw [stands] at handed
            exact fun closed => (handed closed).imp_right fun early =>
              .inr (early.resolve_left Bool.false_ne_true)
    | some pc =>
        cases label with
        | call call => simp [advance, stands] at stepped
        | step =>
            simp only [advance, stands] at stepped
            rw [stands] at handed
            exact resume_handed backpressSem handed stepped
  · simp only [exists_moved]
    cases stands : pool.locals task with
    | none =>
        cases label with
        | step => simp [advance, stands] at stepped
        | call call =>
            simp only [advance, stands, Option.some.injEq, Prod.mk.injEq] at stepped
            obtain ⟨rfl, rfl⟩ := stepped
            rw [stands] at supplied
            intro closed
            have before := supplied closed
            cases call with
            | stop => exact .inr (.inl (.inl rfl))
            | send value => exact before
            | recv => exact before
    | some pc =>
        cases label with
        | call call => simp [advance, stands] at stepped
        | step =>
            simp only [advance, stands] at stepped
            rw [stands] at supplied
            apply resume_supplied countSem supplied ?_ stepped
            intro closed last wants
            have passes := handsOn closed last (stands ▸ wants)
            apply passes.imp_right
            intro none some
            obtain ⟨other, different, wants⟩ := some
            simp [none other different] at wants

variable [Fintype Task]

theorem woken_of_reachable (reachable : (machine Task α).Reachable HandsOn pool) : Woken pool := by
  classical
  apply Program.invariant_of_known reachable
  · exact fun pool before => kept_of_reachable (before.mono fun _ _ _ => trivial)
  · intro first started
    rw [started]
    exact ⟨nofun, nofun⟩
  · intro pool task label shared finish kept woken handsOn stepped
    exact woken.step kept.balanced.countSem kept.balanced.backpressSem handsOn stepped

theorem stopReleases_of_handsOn (reachable : (machine Task α).Reachable HandsOn pool) :
    StopReleases pool := by
  obtain ⟨handed, supplied⟩ := woken_of_reachable reachable
  intro closed quiescent task
  cases stands : pool.locals task with
  | none => rfl
  | some pc =>
      have waits := (quiescent task).resolve_left (by simp [stands])
      rw [stands] at waits
      cases pc with
      | recvAcquire =>
          have unavailable : pool.shared.countSem = 0 := by simpa [suspended] using waits
          have wants : ∃ task, wanting (pool.locals task) = true := ⟨task, by rw [stands]; rfl⟩
          obtain ⟨other, supplies⟩ :=
            ((supplied closed).resolve_left (absurd unavailable)).resolve_right (absurd wants)
          simp [(quiescent.idle other).1] at supplies
      | sendAcquire value =>
          have unavailable : pool.shared.backpressSem = 0 := by simpa [suspended] using waits
          obtain ⟨other, hands⟩ := (handed closed).resolve_left (absurd unavailable)
          simp [(quiescent.idle other).2] at hands
      | _ => simp [suspended] at waits

end

/-- One receiver waits, `stop` lets it go. -/
theorem stopReleases_of_handsOn_receiver :
    ∃ pool : Pool (Fin 2) (Traffic ℕ) (Option (Pc ℕ)),
      (machine (Fin 2) ℕ).Reachable HandsOn pool ∧
        (pool.shared.closed = true ∧ pool.shared.received = [none]) ∧ StopReleases pool := by
  obtain ⟨pool, reachable, closed, received⟩ :=
    Machine.reachable_of_exec (machine (Fin 2) ℕ) HandsOn (fresh (Fin 2) ℕ)
      (List.flatten
        [(0, .call .recv) :: List.replicate 3 (0, .step),
          (1, .call .stop) :: List.replicate 3 (1, .step),
          List.replicate 3 (0, .step)])
      (fun pool => pool.shared.closed = true ∧ pool.shared.received = [none])
      rfl ⟨_, rfl, by decide⟩
  exact ⟨pool, reachable, ⟨closed, received⟩, stopReleases_of_handsOn reachable⟩

/-- Two receivers wait; the first that is woken by `stop` keeps the permit. -/
theorem receiver_left_suspended :
    ∃ pool : Pool (Fin 3) (Traffic ℕ) (Option (Pc ℕ)),
      (machine (Fin 3) ℕ).Reachable Machine.free pool ∧ ¬ StopReleases pool := by
  apply Machine.reachable_of_exec (machine (Fin 3) ℕ) Machine.free (fresh (Fin 3) ℕ)
    (List.flatten
      [(0, .call .recv) :: List.replicate 3 (0, .step),
        (1, .call .recv) :: List.replicate 3 (1, .step),
        (2, .call .stop) :: List.replicate 3 (2, .step),
        List.replicate 3 (0, .step)])
    (fun pool => ¬ StopReleases pool) rfl
  exact ⟨_, rfl, by decide⟩

end Asco.Sync.Channel.Atomic
