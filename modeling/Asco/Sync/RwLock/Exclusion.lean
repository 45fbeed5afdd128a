import Asco.Sync.RwLock.Refinement

namespace Asco.Sync.RwLock

open Foundation

/-! # Mutual exclusion and clean release -/

namespace Ledger

variable {ledger : Ledger} {writer willing upgrading : Bool}

/-- The bits and the count of the word say what the ledger says. -/
structure Reads (ledger : Ledger) (writer willing upgrading : Bool) : Prop where
  state : ledger.state = word writer willing upgrading ledger.reads
  writes : ledger.writes = writer.toNat
  upgrades : ledger.upgrades = upgrading.toNat
  alone : writer = true → ledger.reads = 0 ∧ upgrading = false
  waits : upgrading = true → willing = true
  wanted : willing = true → writer = true ∨ upgrading = true ∨ 0 < ledger.announced

def Coherent (ledger : Ledger) : Prop :=
  ∃ writer willing upgrading, ledger.Reads writer willing upgrading

def FewReaders (ledger : Ledger) : Prop := ledger.reads < 2 ^ 61

theorem Reads.eq_word (reads : ledger.Reads writer willing upgrading) (few : ledger.FewReaders)
    {writer' willing' upgrading' : Bool} {readers : ℕ} (bounded : readers < 2 ^ 61)
    (same : ledger.state = word writer' willing' upgrading' readers) :
    writer = writer' ∧ willing = willing' ∧ upgrading = upgrading' ∧ ledger.reads = readers := by
  rw [reads.state] at same
  exact (word_inj few bounded).mp same

theorem Reads.eq_zero (reads : ledger.Reads writer willing upgrading) (few : ledger.FewReaders)
    (zero : ledger.state = 0#64) :
    writer = false ∧ willing = false ∧ upgrading = false ∧ ledger.reads = 0 :=
  reads.eq_word few (Nat.two_pow_pos 61) (zero.trans zero_eq)

/-- Bits a test of the word finds clear. -/
theorem Reads.clear (reads : ledger.Reads writer willing upgrading)
    {maskWriter maskWilling maskUpgrading : Bool}
    (clear : ledger.state &&& word maskWriter maskWilling maskUpgrading 0 = 0#64) :
    (writer && maskWriter) = false ∧ (willing && maskWilling) = false ∧
      (upgrading && maskUpgrading) = false := by
  rw [reads.state, word_and, zero_eq] at clear
  have bounded : 0 < 2 ^ 61 := Nat.two_pow_pos 61
  obtain ⟨noWriter, noWilling, noUpgrade, _⟩ := (word_inj bounded bounded).mp clear
  exact ⟨noWriter, noWilling, noUpgrade⟩

theorem readMask_eq : writeMask ||| writeWillingMask = word true true false 0 := by decide

theorem upgradeMask_eq : updateWillingMask ||| writeWillingMask = word false true true 0 := by
  decide

/-- What every event preserves, as long as the count does not run into the bits
above it. -/
theorem Coherent.apply {event : Event} (coherent : ledger.Coherent) (few : ledger.FewReaders)
    (enabled : ledger.Enabled event) (room : (ledger.apply event).FewReaders) :
    (ledger.apply event).Coherent := by
  obtain ⟨writer, willing, upgrading, reads⟩ := coherent
  have ⟨state, writes, upgrades, alone, waits, wanted⟩ := reads
  cases event with
  | quiet | queueReader | queueWriter | queueUpgrade | notifyReaders | notifyWriters =>
      exact ⟨writer, willing, upgrading, state, writes, upgrades, alone, waits, wanted⟩
  | takeRead =>
      simp only [Enabled, readMask_eq] at enabled
      obtain ⟨noWriter, noWilling, _⟩ := reads.clear enabled
      simp only [Bool.and_true] at noWriter noWilling
      subst noWriter noWilling
      refine ⟨false, false, upgrading, ?_, writes, upgrades, by simp, waits, by simp⟩
      simp only [Ledger.apply, state]
      exact word_succ room
  | dropRead =>
      obtain ⟨rest, counted⟩ : ∃ rest, ledger.reads = rest + 1 :=
        ⟨ledger.reads - 1, by simp only [Enabled] at enabled; omega⟩
      refine ⟨writer, willing, upgrading, ?_, writes, upgrades, ?_, waits, wanted⟩
      · simp only [Ledger.apply, state, counted, Nat.add_sub_cancel]
        exact word_pred (by simpa only [FewReaders, counted] using few)
      · intro held
        have none := (alone held).1
        omega
  | announce =>
      refine ⟨writer, true, upgrading, ?_, writes, upgrades, alone, fun _ => rfl,
        fun _ => .inr (.inr (Nat.succ_pos _))⟩
      simp only [Ledger.apply, state, writeWillingMask_eq, word_or, Bool.or_false, Bool.or_true]
  | retreat =>
      obtain ⟨rfl, rfl, rfl, _⟩ := reads.eq_zero few enabled.1
      exact ⟨false, false, false, state, writes, upgrades, alone, waits, by simp⟩
  | takeWrite =>
      obtain ⟨rfl, rfl, rfl, none⟩ :=
        reads.eq_word few (Nat.two_pow_pos 61) (enabled.1.trans writeWillingMask_eq)
      refine ⟨true, true, false, ?_, ?_, upgrades, fun _ => ⟨none, rfl⟩, by simp, by simp⟩
      · simp only [Ledger.apply, state, writeMask_eq, word_or, Bool.or_false, Bool.or_true]
      · simp [Ledger.apply, writes]
  | tryWrite =>
      obtain ⟨rfl, rfl, rfl, none⟩ := reads.eq_zero few enabled
      refine ⟨true, false, false, ?_, ?_, upgrades, fun _ => ⟨none, rfl⟩, by simp, by simp⟩
      · simp only [Ledger.apply, none, writeMask_eq]
      · simp [Ledger.apply, writes]
  | dropWrite =>
      have held : writer = true := by
        cases writer with
        | false => simp [Enabled, writes] at enabled
        | true => rfl
      subst held
      obtain ⟨none, rfl⟩ := alone rfl
      refine ⟨false, false, false, ?_, ?_, upgrades, by simp, by simp, by simp⟩
      · simp only [Ledger.apply, none, zero_eq]
      · simp [Ledger.apply, writes]
  | requestUpgrade =>
      obtain ⟨held, clear⟩ := enabled
      rw [upgradeMask_eq] at clear
      obtain ⟨_, noWilling, noUpgrade⟩ := reads.clear clear
      simp only [Bool.and_true] at noWilling noUpgrade
      subst noWilling noUpgrade
      have free : writer = false := by
        cases writer with
        | false => rfl
        | true => exact absurd (alone rfl).1 (Nat.ne_of_gt held)
      subst free
      refine ⟨false, true, true, ?_, writes, ?_, by simp, fun _ => rfl, by simp⟩
      · simp only [Ledger.apply, state, writeWillingMask_eq, updateWillingMask_eq, word_or,
          Bool.or_false, Bool.or_true]
      · simp [Ledger.apply, upgrades]
  | upgrade =>
      obtain ⟨_, _, last⟩ := enabled
      have single : 1 < 2 ^ 61 := Nat.one_lt_two_pow (by omega)
      obtain ⟨rfl, rfl, rfl, one⟩ := reads.eq_word few single (last.trans lastReader_eq)
      refine ⟨true, true, false, ?_, ?_, ?_, fun _ => ⟨?_, rfl⟩, by simp, by simp⟩
      · simp only [Ledger.apply, one, readMask_eq]
      · simp [Ledger.apply, writes]
      · simp [Ledger.apply, upgrades]
      · simp [Ledger.apply, one]

end Ledger

/-! ## The lock -/

section

variable {Task : Type*} [DecidableEq Task] [Fintype Task] {pool : Pool Task (RwLock Task) Pc}

def FewReaders (pool : Pool Task (RwLock Task) Pc) : Prop := liveReadGuards pool < 2 ^ 61

instance : DecidablePred (@FewReaders Task _) := fun _ => inferInstanceAs (Decidable (_ < _))

/-- The runs in which the lock never has 2^61 live readers. -/
def Bounded (pool : Pool Task (RwLock Task) Pc) (_ : Task × Choice Call) : Prop := FewReaders pool

instance : DecidableRel (@Bounded Task _) := fun _ _ => inferInstanceAs (Decidable (_ < _))

/-- From the announcement of an upgrade to the step that makes it the writer,
its read guard is counted. -/
def KeptUntilWriter (pool : Pool Task (RwLock Task) Pc) : Prop :=
  ∀ task label next, upgradePending (pool.locals task) = 1 →
    (machine Task).move pool label = some next →
    upgradePending (next.locals task) = 1 ∨
      next.locals task = .idle ∧ next.shared.writeGuards = pool.shared.writeGuards + 1 ∧
        liveReadGuards next + 1 = liveReadGuards pool

/-- Exclusion and clean release. -/
structure Safe (pool : Pool Task (RwLock Task) Pc) : Prop where
  exclusive : 0 < liveWriteGuards pool → liveWriteGuards pool = 1 ∧ liveReadGuards pool = 0
  oneUpgrade : pendingUpgrades pool ≤ 1
  counted : readerCount pool.shared.state = liveReadGuards pool
  kept : KeptUntilWriter pool
  released : Unused pool → pool.shared.state = 0#64

/-- The ledger agrees with the word unless the readers overflow their field. -/
def Coherent (pool : Pool Task (RwLock Task) Pc) : Prop :=
  FewReaders pool → (ledger pool).Coherent

omit [DecidableEq Task] in
theorem Unused.ledger (unused : Unused pool) :
    (ledger pool).reads = 0 ∧ (ledger pool).writes = 0 ∧ (ledger pool).upgrades = 0 ∧
      (ledger pool).announced = 0 := by
  obtain ⟨noReads, noWrites, idle⟩ := unused
  have reads : tally holdsRead pool.locals = 0 := tally_eq_zero.mpr fun task => by rw [idle]; rfl
  have writes : tally holdsWrite pool.locals = 0 := tally_eq_zero.mpr fun task => by rw [idle]; rfl
  refine ⟨?_, ?_, ?_, ?_⟩
  · simp [RwLock.ledger, liveReadGuards, noReads, reads]
  · simp [RwLock.ledger, liveWriteGuards, noWrites, writes]
  · exact tally_eq_zero.mpr fun task => by rw [idle]; rfl
  · exact tally_eq_zero.mpr fun task => by rw [idle]; rfl

theorem coherent_of_reachable {guard : Pool Task (RwLock Task) Pc → Task × Choice Call → Prop}
    (bounded : ∀ pool label, guard pool label → FewReaders pool)
    (reachable : (machine Task).Reachable guard pool) : Coherent pool := by
  refine Program.invariant_of_known reachable (fun _ => prepared_of_reachable) ?_ ?_
  · rintro first rfl _
    obtain ⟨reads, writes, upgrades, _⟩ :=
      (show Unused (fresh Task) from ⟨rfl, rfl, fun _ => rfl⟩).ledger
    exact ⟨false, false, false, by rw [reads]; exact zero_eq, writes, upgrades, by simp, by simp,
      by simp⟩
  · intro pool task choice shared finish prepared holds allowed advanced few
    obtain ⟨event, enabled, applied, _⟩ := ledger_simulated prepared advanced
    have fewBefore := bounded pool _ allowed
    rw [applied]
    exact (holds fewBefore).apply fewBefore enabled (by rw [← applied]; exact few)

omit [Fintype Task] in
theorem upgradePending_cases {pc : Pc} (pending : upgradePending pc = 1) :
    pc = .upgradeWait ∨ pc = .upgradeSuspended := by
  cases pc <;> first | contradiction | simp

theorem keptUntilWriter : KeptUntilWriter pool := by
  rintro task ⟨mover, choice⟩ next pending moved
  obtain ⟨shared, finish, advanced, rfl⟩ := Program.move_eq_some.mp moved
  by_cases moving : task = mover
  · subst moving
    have busy : pool.locals task ≠ .idle := by
      intro idle
      simp [idle, upgradePending] at pending
    cases choice with
    | call call => simp [program, advance, busy] at advanced
    | step spurious =>
        rcases upgradePending_cases pending with waits | suspended
        · simp only [program, advance, waits, resume] at advanced
          split at advanced <;> cases advanced
          · refine .inr ⟨Function.update_self .., rfl, ?_⟩
            have counted := tally_update holdsRead pool.locals task .idle
            rw [waits] at counted
            have owned : holdsRead .upgradeWait = 1 := rfl
            have released : holdsRead .idle = 0 := rfl
            simp only [liveReadGuards, takeWrite]
            omega
          · exact .inl (by simp [upgradePending])
        · simp only [program, advance, suspended, resume] at advanced
          split at advanced
          · contradiction
          · cases advanced
            exact .inl (by simp [upgradePending])
  · exact .inl (by simpa [Function.update_of_ne moving] using pending)

theorem Coherent.safe (coherent : Coherent pool) (few : FewReaders pool) : Safe pool := by
  obtain ⟨writer, willing, upgrading, reads⟩ := coherent few
  have writes : liveWriteGuards pool = writer.toNat := reads.writes
  have upgrades : pendingUpgrades pool = upgrading.toNat := reads.upgrades
  refine ⟨?_, ?_, ?_, keptUntilWriter, ?_⟩
  · intro live
    cases writer with
    | false => simp [writes] at live
    | true => exact ⟨writes, (reads.alone rfl).1⟩
  · rw [upgrades]
    exact Bool.toNat_le upgrading
  · have state : pool.shared.state = word writer willing upgrading (liveReadGuards pool) :=
      reads.state
    rw [state, readerCount_word few]
  · intro unused
    obtain ⟨noReads, noWrites, noUpgrades, noneAnnounced⟩ := unused.ledger
    have unheld : writer = false := by simpa [noWrites] using reads.writes.symm
    have noUpgrade : upgrading = false := by simpa [noUpgrades] using reads.upgrades.symm
    have unwanted : willing = false := by
      have wanted := reads.wanted
      simp only [unheld, noUpgrade, noneAnnounced] at wanted
      simpa using wanted
    have state := reads.state
    rw [noReads, unheld, noUpgrade, unwanted] at state
    exact state.trans zero_eq.symm

theorem safe_of_bounded (reachable : (machine Task).Reachable Bounded pool)
    (few : FewReaders pool) : Safe pool :=
  (coherent_of_reachable (fun _ _ few => few) reachable).safe few

end

/-- Two readers, one of which waits to become the writer. -/
theorem safe_of_bounded_upgrade :
    ∃ pool : Pool (Fin 2) (RwLock (Fin 2)) Pc, (machine (Fin 2)).Reachable Bounded pool ∧
      (pendingUpgrades pool = 1 ∧ liveReadGuards pool = 2) ∧ Safe pool := by
  obtain ⟨pool, reachable, pending, readers⟩ :=
    Machine.reachable_of_exec (machine (Fin 2)) Bounded (fresh (Fin 2))
      (List.flatten
        [(0, .call .read) :: List.replicate 2 (0, .step false),
          (1, .call .read) :: List.replicate 2 (1, .step false),
          (1, .call .upgrade) :: List.replicate 3 (1, .step false)])
      (fun pool => pendingUpgrades pool = 1 ∧ liveReadGuards pool = 2)
      rfl ⟨_, rfl, by decide, by decide⟩
  have few : FewReaders pool := by simp [FewReaders, readers]
  exact ⟨pool, reachable, ⟨pending, readers⟩, safe_of_bounded reachable few⟩

end Asco.Sync.RwLock
