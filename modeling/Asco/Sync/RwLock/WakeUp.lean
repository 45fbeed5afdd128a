import Asco.Sync.RwLock.Exclusion

namespace Asco.Sync.RwLock

open Foundation

/-! # Waking the suspended tasks -/

namespace Ledger

variable {ledger : Ledger} {writer willing upgrading : Bool}

/-- Whoever waits has a guard or a notification to wait for; a reader may also
wait for an announced writer. -/
structure Attended (ledger : Ledger) : Prop where
  writers : 0 < ledger.writeWaiters → 0 < ledger.reads + ledger.writes ∨ 0 < ledger.writeNotices
  readers : 0 < ledger.readWaiters → 0 < ledger.reads + ledger.writes ∨ 0 < ledger.readNotices ∨
    ledger.state &&& writeWillingMask ≠ 0#64

/-- A task queues itself while the word does not admit it, or while a
destructor will still notify its queue. -/
def InTime (ledger : Ledger) : Event → Prop
  | .queueReader => ledger.state ≠ 0#64 ∨ 0 < ledger.readNotices
  | .queueWriter =>
      ledger.state ≠ 0#64 ∧ ledger.state ≠ writeWillingMask ∨ 0 < ledger.writeNotices
  | _ => True

theorem Reads.willing_bit (reads : ledger.Reads writer willing upgrading) :
    ledger.state &&& writeWillingMask ≠ 0#64 ↔ willing = true := by
  rw [reads.state, writeWillingMask_eq, word_and]
  cases willing <;> simp <;> decide

theorem Reads.free_word (reads : ledger.Reads writer willing upgrading)
    (owned : ledger.upgrades ≤ ledger.reads) (free : ledger.reads + ledger.writes = 0) :
    ledger.state = word false willing false 0 := by
  obtain ⟨noReads, noWrites⟩ := Nat.add_eq_zero_iff.mp free
  have unheld : writer = false := by simpa [noWrites] using reads.writes.symm
  have noUpgrade : upgrading = false := by
    have none : ledger.upgrades = 0 := by omega
    simpa [none] using reads.upgrades.symm
  rw [reads.state, noReads, unheld, noUpgrade]

/-- A word other than zero shows a guard or an announced writer. -/
theorem Reads.occupied (reads : ledger.Reads writer willing upgrading)
    (owned : ledger.upgrades ≤ ledger.reads) (nonzero : ledger.state ≠ 0#64) :
    0 < ledger.reads + ledger.writes ∨ willing = true := by
  by_cases live : 0 < ledger.reads + ledger.writes
  · exact .inl live
  · have state := reads.free_word owned (Nat.eq_zero_of_not_pos live)
    cases willing with
    | true => exact .inr rfl
    | false => exact absurd (state.trans zero_eq.symm) nonzero

theorem Reads.busy (reads : ledger.Reads writer willing upgrading)
    (owned : ledger.upgrades ≤ ledger.reads) (nonzero : ledger.state ≠ 0#64)
    (held : ledger.state ≠ writeWillingMask) : 0 < ledger.reads + ledger.writes := by
  by_contra idle
  have state := reads.free_word owned (Nat.eq_zero_of_not_pos idle)
  cases willing with
  | true => exact held (state.trans writeWillingMask_eq.symm)
  | false => exact nonzero (state.trans zero_eq.symm)

theorem Attended.apply {event : Event} (attended : ledger.Attended) (coherent : ledger.Coherent)
    (owned : ledger.upgrades ≤ ledger.reads) (enabled : ledger.Enabled event)
    (inTime : ledger.InTime event) : (ledger.apply event).Attended := by
  obtain ⟨writers, readers⟩ := attended
  obtain ⟨writer, willing, upgrading, reads⟩ := coherent
  cases event with
  | quiet | retreat => exact ⟨writers, readers⟩
  | takeRead | takeWrite | tryWrite | upgrade =>
      refine ⟨fun _ => .inl ?_, fun _ => .inl ?_⟩
      · simp only [Ledger.apply]
        omega
      · simp only [Ledger.apply]
        omega
  | dropRead | dropWrite =>
      exact ⟨fun _ => .inr (Nat.succ_pos _), fun _ => .inr (.inl (Nat.succ_pos _))⟩
  | announce =>
      refine ⟨writers, fun _ => .inr (.inr ?_)⟩
      simp only [Ledger.apply, reads.state, writeWillingMask_eq, word_or, word_and, Bool.or_true]
      simp
      decide
  | requestUpgrade =>
      have live := enabled.1
      refine ⟨fun _ => .inl ?_, fun _ => .inl ?_⟩
      · simp only [Ledger.apply]
        omega
      · simp only [Ledger.apply]
        omega
  | queueReader =>
      refine ⟨writers, fun _ => ?_⟩
      rcases inTime with nonzero | notified
      · rcases reads.occupied owned nonzero with live | wanted
        · exact .inl live
        · exact .inr (.inr (reads.willing_bit.mpr wanted))
      · exact .inr (.inl notified)
  | queueWriter =>
      refine ⟨fun _ => ?_, readers⟩
      rcases inTime with ⟨nonzero, held⟩ | notified
      · exact .inl (reads.busy owned nonzero held)
      · exact .inr notified
  | queueUpgrade =>
      refine ⟨fun _ => .inl ?_, readers⟩
      simp only [Enabled] at enabled
      simp only [Ledger.apply]
      omega
  | notifyReaders => exact ⟨writers, fun waiting => absurd waiting (Nat.lt_irrefl 0)⟩
  | notifyWriters => exact ⟨fun waiting => absurd waiting (Nat.lt_irrefl 0), readers⟩

end Ledger

section

variable {Task : Type*} [DecidableEq Task] [Fintype Task] {pool : Pool Task (RwLock Task) Pc}

/-- Every call has returned or is suspended in a queue. -/
def Settled (pool : Pool Task (RwLock Task) Pc) : Prop :=
  ∀ task, pool.locals task = .idle ∨
    pool.locals task = .readSuspended ∧ task ∈ pool.shared.readCv.waitQueue ∨
    (pool.locals task = .writeSuspended ∨ pool.locals task = .upgradeSuspended) ∧
      task ∈ pool.shared.writeCv.waitQueue

instance : DecidablePred (@Settled Task) := fun _ => inferInstanceAs (Decidable (∀ _, _))

/-- With every guard released, a word that admits a waiter has none. -/
def NoLostWakeUp (pool : Pool Task (RwLock Task) Pc) : Prop :=
  Settled pool → liveReadGuards pool = 0 → liveWriteGuards pool = 0 →
    pool.shared.state = 0#64 ∨ pool.shared.state = writeWillingMask →
    pool.shared.readCv.waitQueue = [] ∧ pool.shared.writeCv.waitQueue = []

/-- The runs of the claim: few readers, and no exchange fails spuriously. -/
def Certain (pool : Pool Task (RwLock Task) Pc) (label : Task × Choice Call) : Prop :=
  FewReaders pool ∧ label.2.isSpurious = false

instance : DecidableRel (@Certain Task _) := fun _ _ => inferInstanceAs (Decidable (_ ∧ _))

/-- A task that queues itself in `read` or `write` does so while the word does
not admit it, or while a destructor will still notify its queue. -/
def queuesInTime (ledger : Ledger) : Pc → Bool
  | .readWait expected =>
      ledger.state == expected || ledger.state != 0#64 || decide (0 < ledger.readNotices)
  | .writeWait expected =>
      expected == writeWillingMask || (ledger.state != 0#64 && ledger.state != writeWillingMask) ||
        decide (0 < ledger.writeNotices)
  | _ => true

def QueuesInTime (pool : Pool Task (RwLock Task) Pc) (label : Task × Choice Call) : Prop :=
  Certain pool label ∧ queuesInTime (ledger pool) (pool.locals label.1)

instance : DecidableRel (@QueuesInTime Task _) := fun _ _ => inferInstanceAs (Decidable (_ ∧ _))

theorem inTime_of_queues {ledger : Ledger} {event : Event} {pc : Pc}
    (cause : Cause ledger.state false pc event) (inTime : queuesInTime ledger pc) :
    ledger.InTime event := by
  cases event with
  | queueReader =>
      obtain ⟨expected, rfl, failed⟩ := cause
      simp only [queuesInTime] at inTime
      simp_all [Ledger.InTime]
  | queueWriter =>
      obtain ⟨expected, rfl, other⟩ := cause
      simp only [queuesInTime] at inTime
      simp_all [Ledger.InTime]
  | _ => trivial

omit [DecidableEq Task] in
theorem pendingUpgrades_le (pool : Pool Task (RwLock Task) Pc) :
    pendingUpgrades pool ≤ liveReadGuards pool := by
  have owned : tally upgradePending pool.locals ≤ tally holdsRead pool.locals :=
    tally_mono fun pc => by cases pc <;> exact Nat.le_of_ble_eq_true rfl
  simp only [pendingUpgrades, liveReadGuards]
  omega

/-- Every queue is attended. -/
def Attended (pool : Pool Task (RwLock Task) Pc) : Prop := (ledger pool).Attended

theorem attended_of_reachable (reachable : (machine Task).Reachable QueuesInTime pool) :
    Attended pool := by
  refine Program.invariant_of_known reachable
    (fun pool reached => And.intro (prepared_of_reachable reached)
      (coherent_of_reachable (fun _ _ allowed => allowed.1.1) reached)) ?_ ?_
  · rintro first rfl
    exact ⟨fun waiting => absurd waiting (Nat.lt_irrefl 0),
      fun waiting => absurd waiting (Nat.lt_irrefl 0)⟩
  · intro pool task choice shared finish known attended allowed advanced
    obtain ⟨prepared, coherent⟩ := known
    obtain ⟨⟨few, certain⟩, inTime⟩ := allowed
    obtain ⟨event, enabled, applied, cause⟩ := ledger_simulated prepared advanced
    rw [certain] at cause
    rw [Attended, applied]
    exact attended.apply (coherent few) (pendingUpgrades_le pool) enabled
      (inTime_of_queues cause inTime)

omit [DecidableEq Task] in
theorem Settled.noNotices (settled : Settled pool) :
    tally readNotice pool.locals = 0 ∧ tally writeNotice pool.locals = 0 := by
  have quiet : ∀ task, readNotice (pool.locals task) = 0 ∧ writeNotice (pool.locals task) = 0 := by
    intro task
    rcases settled task with idle | ⟨suspended, _⟩ | ⟨suspended | suspended, _⟩
    · rw [idle]
      exact ⟨rfl, rfl⟩
    · rw [suspended]
      exact ⟨rfl, rfl⟩
    · rw [suspended]
      exact ⟨rfl, rfl⟩
    · rw [suspended]
      exact ⟨rfl, rfl⟩
  exact ⟨tally_eq_zero.mpr fun task => (quiet task).1, tally_eq_zero.mpr fun task => (quiet task).2⟩

omit [DecidableEq Task] in
/-- In a settled pool the announced writers are in the queue. -/
theorem Settled.noneAnnounced (settled : Settled pool)
    (empty : pool.shared.writeCv.waitQueue = []) : tally announcing pool.locals = 0 := by
  refine tally_eq_zero.mpr fun task => ?_
  rcases settled task with idle | ⟨suspended, _⟩ | ⟨_, queued⟩
  · rw [idle]
    rfl
  · rw [suspended]
    rfl
  · simp [empty] at queued

theorem noLostWakeUp_of_queuesInTime (reachable : (machine Task).Reachable QueuesInTime pool) :
    NoLostWakeUp pool := by
  intro settled noReads noWrites _
  have few : FewReaders pool := by simp [FewReaders, noReads]
  obtain ⟨writer, willing, upgrading, reads⟩ :=
    coherent_of_reachable (fun _ _ allowed => allowed.1.1) reachable few
  obtain ⟨writers, readers⟩ := attended_of_reachable reachable
  obtain ⟨noReadNotices, noWriteNotices⟩ := settled.noNotices
  simp only [ledger, noReads, noWrites, noReadNotices, noWriteNotices, Nat.lt_irrefl, false_or,
    or_false, Nat.add_zero, List.length_pos_iff, imp_false, not_not] at writers readers
  refine ⟨?_, writers⟩
  by_contra waiting
  have wanted := reads.wanted (reads.willing_bit.mp (readers waiting))
  have unheld : writer = false := by simpa [ledger, noWrites] using reads.writes.symm
  have noUpgrade : upgrading = false := by
    have owned := pendingUpgrades_le pool
    have none : (ledger pool).upgrades = 0 := by simp only [ledger]; omega
    simpa [none] using reads.upgrades.symm
  have announced : (ledger pool).announced = 0 := settled.noneAnnounced writers
  simp [unheld, noUpgrade, announced] at wanted

end

/-- A reader that holds the lock lets it go while a second one waits. -/
theorem noLostWakeUp_of_queuesInTime_writer :
    ∃ pool : Pool (Fin 2) (RwLock (Fin 2)) Pc, (machine (Fin 2)).Reachable QueuesInTime pool ∧
      (Settled pool ∧ pool.shared.state = 0#64 ∧ liveReadGuards pool = 0) ∧ NoLostWakeUp pool := by
  obtain ⟨pool, reachable, settled, free, readers⟩ :=
    Machine.reachable_of_exec (machine (Fin 2)) QueuesInTime (fresh (Fin 2))
      (List.flatten
        [(0, .call .read) :: List.replicate 2 (0, .step false),
          (1, .call .write) :: List.replicate 4 (1, .step false),
          (0, .call .dropReadGuard) :: List.replicate 3 (0, .step false),
          List.replicate 4 (1, .step false),
          (1, .call .dropWriteGuard) :: List.replicate 3 (1, .step false)])
      (fun pool => Settled pool ∧ pool.shared.state = 0#64 ∧ liveReadGuards pool = 0)
      rfl ⟨_, rfl, by decide, by decide, by decide⟩
  exact ⟨pool, reachable, ⟨settled, free, readers⟩, noLostWakeUp_of_queuesInTime reachable⟩

/-- A reader loads the word while another reader holds the lock, and queues
itself after that one has gone. -/
theorem reader_suspended_on_free_lock :
    ∃ pool : Pool (Fin 2) (RwLock (Fin 2)) Pc, (machine (Fin 2)).Reachable Certain pool ∧
      ¬ NoLostWakeUp pool := by
  refine Machine.reachable_of_exec (machine (Fin 2)) Certain (fresh (Fin 2))
    (List.flatten
      [(0, .call .read) :: List.replicate 2 (0, .step false),
        (1, .call .read) :: (1, .step false) :: (0, .call .dropReadGuard) ::
          List.replicate 3 (0, .step false),
        [(1, .step false)]])
    (fun pool => ¬ NoLostWakeUp pool) rfl ⟨_, rfl, ?_⟩
  intro noLostWakeUp
  obtain ⟨empty, _⟩ := noLostWakeUp (by decide) (by decide) (by decide) (by decide)
  exact absurd empty (by decide)

end Asco.Sync.RwLock
