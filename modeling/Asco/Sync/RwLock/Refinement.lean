import Asco.Sync.RwLock.Ledger

namespace Asco.Sync.RwLock

open Foundation

/-! # Every step of a task is an event of the ledger -/

/-- The expected values a task may carry into an exchange that acquires. -/
def Prepared : Pc → Prop
  | .readWait expected | .tryReadCas expected =>
      expected &&& (writeMask ||| writeWillingMask) = 0#64
  | .writeTake expected => expected = writeWillingMask
  | .tryWriteCas expected => expected = 0#64
  | .upgradeCas expected => expected &&& (updateWillingMask ||| writeWillingMask) = 0#64
  | _ => True

/-- What a task is doing when it queues itself in `read` or in `write`. -/
def Cause (state : Word) (spurious : Bool) (pc : Pc) : Event → Prop
  | .queueReader => ∃ expected, pc = .readWait expected ∧ ¬ (state = expected ∧ spurious = false)
  | .queueWriter => ∃ expected, pc = .writeWait expected ∧ expected ≠ writeWillingMask
  | _ => True

theorem cleared_and (state mask : Word) : state &&& ~~~mask &&& mask = 0#64 := by
  ext index
  simp

variable {Task : Type*} {others : Others} {lock next : RwLock Task} {pc finish : Pc}
  {spurious : Bool} {task : Task}

/-- A step is an event that is enabled and has the cause. -/
def Simulated (others : Others) (spurious : Bool) (lock : RwLock Task) (pc : Pc)
    (next : RwLock Task) (finish : Pc) : Prop :=
  ∃ event, (others.ledger lock pc).Enabled event ∧
    others.ledger next finish = (others.ledger lock pc).apply event ∧
    Cause lock.state spurious pc event

theorem start_simulated {call : Call} (started : start lock call = some (next, finish)) :
    Simulated others spurious lock .idle next finish ∧ Prepared finish := by
  obtain ⟨state, readCv, writeCv, readGuards, writeGuards⟩ := lock
  cases call with
  | read | tryRead | write | tryWrite =>
      cases started
      exact ⟨⟨.quiet, trivial, rfl, trivial⟩, trivial⟩
  | upgrade | dropReadGuard =>
      cases readGuards with
      | zero => contradiction
      | succ rest =>
          cases started
          exact ⟨⟨.quiet, trivial, rfl, trivial⟩, trivial⟩
  | dropWriteGuard =>
      cases writeGuards with
      | zero => contradiction
      | succ rest =>
          cases started
          exact ⟨⟨.quiet, trivial, rfl, trivial⟩, trivial⟩

variable [DecidableEq Task]

theorem resume_simulated (prepared : Prepared pc)
    (resumed : resume task lock spurious pc = some (next, finish)) :
    Simulated others spurious lock pc next finish ∧ Prepared finish := by
  cases pc with
  | idle => contradiction
  | readLoad =>
      cases resumed
      exact ⟨⟨.quiet, trivial, rfl, trivial⟩, cleared_and _ _⟩
  | readWait expected =>
      simp only [resume] at resumed
      split at resumed
      · rename_i exchanged
        cases resumed
        obtain ⟨rfl, _⟩ := exchanged
        exact ⟨⟨.takeRead, prepared, rfl, trivial⟩, trivial⟩
      · rename_i failed
        cases resumed
        refine ⟨⟨.queueReader, trivial, ?_, expected, rfl, failed⟩, trivial⟩
        simp only [Others.ledger, ConditionVariable.suspend_waitQueue, List.length_append]
        rfl
  | readSuspended =>
      simp only [resume] at resumed
      split at resumed
      · contradiction
      · cases resumed
        exact ⟨⟨.quiet, trivial, rfl, trivial⟩, trivial⟩
  | tryReadLoad =>
      simp only [resume] at resumed
      split at resumed
      · cases resumed
        exact ⟨⟨.quiet, trivial, rfl, trivial⟩, trivial⟩
      · cases resumed
        exact ⟨⟨.quiet, trivial, rfl, trivial⟩, cleared_and _ _⟩
  | tryReadCas expected =>
      simp only [resume] at resumed
      split at resumed
      · rename_i exchanged
        cases resumed
        obtain ⟨rfl, _⟩ := exchanged
        exact ⟨⟨.takeRead, prepared, rfl, trivial⟩, trivial⟩
      · cases resumed
        exact ⟨⟨.quiet, trivial, rfl, trivial⟩, trivial⟩
  | writeLoad =>
      cases resumed
      exact ⟨⟨.quiet, trivial, rfl, trivial⟩, trivial⟩
  | writeCas expected =>
      simp only [resume] at resumed
      split at resumed
      · rename_i exchanged
        cases resumed
        obtain ⟨rfl, _⟩ := exchanged
        exact ⟨⟨.announce, trivial, rfl, trivial⟩, trivial⟩
      · cases resumed
        exact ⟨⟨.quiet, trivial, rfl, trivial⟩, trivial⟩
  | writeCheck =>
      simp only [resume] at resumed
      split at resumed
      · rename_i zero
        cases resumed
        exact ⟨⟨.retreat, ⟨zero, Nat.succ_pos _⟩, rfl, trivial⟩, trivial⟩
      · cases resumed
        exact ⟨⟨.quiet, trivial, rfl, trivial⟩, trivial⟩
  | writeWait expected =>
      simp only [resume] at resumed
      split at resumed
      · rename_i willing
        cases resumed
        exact ⟨⟨.quiet, trivial, rfl, trivial⟩, willing⟩
      · rename_i other
        cases resumed
        refine ⟨⟨.queueWriter, trivial, ?_, expected, rfl, other⟩, trivial⟩
        simp only [Others.ledger, ConditionVariable.suspend_waitQueue, List.length_append]
        rfl
  | writeSuspended =>
      simp only [resume] at resumed
      split at resumed
      · contradiction
      · cases resumed
        exact ⟨⟨.quiet, trivial, rfl, trivial⟩, trivial⟩
  | writeTake expected =>
      simp only [resume] at resumed
      split at resumed
      · rename_i same
        cases resumed
        subst same
        exact ⟨⟨.takeWrite, ⟨prepared, Nat.succ_pos _⟩, rfl, trivial⟩, trivial⟩
      · cases resumed
        exact ⟨⟨.quiet, trivial, rfl, trivial⟩, trivial⟩
  | tryWriteLoad =>
      simp only [resume] at resumed
      split at resumed
      · cases resumed
        exact ⟨⟨.quiet, trivial, rfl, trivial⟩, trivial⟩
      · rename_i zero
        cases resumed
        exact ⟨⟨.quiet, trivial, rfl, trivial⟩, not_not.mp zero⟩
  | tryWriteCas expected =>
      simp only [resume] at resumed
      split at resumed
      · rename_i same
        cases resumed
        exact ⟨⟨.tryWrite, same.trans prepared, rfl, trivial⟩, trivial⟩
      · cases resumed
        exact ⟨⟨.quiet, trivial, rfl, trivial⟩, trivial⟩
  | upgradeLoad =>
      simp only [resume] at resumed
      split at resumed
      · cases resumed
        exact ⟨⟨.quiet, trivial, rfl, trivial⟩, trivial⟩
      · rename_i clear
        cases resumed
        exact ⟨⟨.quiet, trivial, rfl, trivial⟩, not_not.mp clear⟩
  | upgradeCas expected =>
      simp only [resume] at resumed
      split at resumed
      · rename_i exchanged
        cases resumed
        obtain ⟨rfl, _⟩ := exchanged
        exact ⟨⟨.requestUpgrade, ⟨Nat.succ_pos _, prepared⟩, rfl, trivial⟩, trivial⟩
      · split at resumed
        · cases resumed
          exact ⟨⟨.quiet, trivial, rfl, trivial⟩, trivial⟩
        · cases resumed
          exact ⟨⟨.quiet, trivial, rfl, trivial⟩, trivial⟩
  | upgradeWait =>
      simp only [resume] at resumed
      split at resumed
      · rename_i last
        cases resumed
        exact ⟨⟨.upgrade, ⟨Nat.succ_pos _, Nat.succ_pos _, last⟩, rfl, trivial⟩, trivial⟩
      · cases resumed
        refine ⟨⟨.queueUpgrade, Nat.succ_pos _, ?_, trivial⟩, trivial⟩
        simp only [Others.ledger, ConditionVariable.suspend_waitQueue, List.length_append]
        rfl
  | upgradeSuspended =>
      simp only [resume] at resumed
      split at resumed
      · contradiction
      · cases resumed
        exact ⟨⟨.quiet, trivial, rfl, trivial⟩, trivial⟩
  | readRelease =>
      cases resumed
      exact ⟨⟨.dropRead, Nat.succ_pos _, rfl, trivial⟩, trivial⟩
  | readNotifyRead =>
      cases resumed
      exact ⟨⟨.notifyReaders, Nat.succ_pos _, rfl, trivial⟩, trivial⟩
  | readNotifyWrite =>
      cases resumed
      exact ⟨⟨.notifyWriters, Nat.succ_pos _, rfl, trivial⟩, trivial⟩
  | writeRelease =>
      cases resumed
      exact ⟨⟨.dropWrite, Nat.succ_pos _, rfl, trivial⟩, trivial⟩
  | writeNotifyWrite =>
      cases resumed
      exact ⟨⟨.notifyWriters, Nat.succ_pos _, rfl, trivial⟩, trivial⟩
  | writeNotifyRead =>
      cases resumed
      exact ⟨⟨.notifyReaders, Nat.succ_pos _, rfl, trivial⟩, trivial⟩

theorem advance_simulated (others : Others) {choice : Choice Call} (prepared : Prepared pc)
    (advanced : advance task lock pc choice = some (next, finish)) :
    Simulated others choice.isSpurious lock pc next finish ∧ Prepared finish := by
  cases choice with
  | call call =>
      simp only [advance] at advanced
      split at advanced
      · rename_i outside
        subst outside
        exact start_simulated advanced
      · contradiction
  | step spurious => exact resume_simulated prepared advanced

variable {pool : Pool Task (RwLock Task) Pc}
  {guard : Pool Task (RwLock Task) Pc → Task × Choice Call → Prop}

def AllPrepared (pool : Pool Task (RwLock Task) Pc) : Prop :=
  ∀ task, Prepared (pool.locals task)

theorem prepared_of_reachable (reachable : (machine Task).Reachable guard pool) :
    AllPrepared pool := by
  refine Program.invariant reachable ?_ ?_
  · rintro first rfl
    exact fun _ => trivial
  · intro pool task choice shared finish holds _ advanced
    have prepared := (advance_simulated default (holds task) advanced).2
    rw [AllPrepared, Function.forall_update_iff]
    exact ⟨prepared, fun other _ => holds other⟩

/-- The refinement: a step of the pool is an event of its ledger. -/
theorem ledger_simulated [Fintype Task] {choice : Choice Call} {shared : RwLock Task}
    (prepared : AllPrepared pool)
    (advanced : advance task pool.shared (pool.locals task) choice = some (shared, finish)) :
    ∃ event, (ledger pool).Enabled event ∧
      ledger { shared, locals := Function.update pool.locals task finish } =
        (ledger pool).apply event ∧
      Cause pool.shared.state choice.isSpurious (pool.locals task) event := by
  obtain ⟨others, before, after⟩ := exists_others pool task
  obtain ⟨event, enabled, applied, cause⟩ :=
    (advance_simulated others (prepared task) advanced).1
  exact ⟨event, before ▸ enabled, by rw [after, before, applied], cause⟩

end Asco.Sync.RwLock
