import Asco.Foundation.Machine
import Asco.Foundation.PackedWord

namespace Asco.Sync.SpinRwLock

open Foundation

/-! # `spinrwlock<>`: the spinning reader-writer lock

One thread step is one atomic operation on `m_state`.  The waiting between two
attempts (`exp_withdraw`) touches no shared state and is left out.
-/

abbrev Word := BitVec 64

def writeMask : Word := 1#64 <<< (64 - 1)

def writeWillingMask : Word := writeMask >>> 1

/-- `m_state` and the guards alive on the lock. -/
structure Lock where
  state : Word
  readers : ℕ
  writers : ℕ

/-- Where a thread stands inside a call; the arguments are the local `e`. -/
inductive Pc where
  | idle
  | readLoad
  | readCas (expected : Word)
  | tryReadLoad
  | tryReadCas (expected : Word)
  | writeLoad
  | writeCas (expected : Word)
  | handOverLoad (expected : Word)
  | handOverCas (expected : Word)
  | tryWriteLoad
  | tryWriteCas (expected : Word)
deriving DecidableEq

inductive Call where
  | read
  | tryRead
  | write
  | tryWrite
  | dropReadGuard
  | dropWriteGuard
deriving DecidableEq

def Lock.takeRead (lock : Lock) (expected : Word) : Lock :=
  { lock with state := expected + 1#64, readers := lock.readers + 1 }

def Lock.takeWrite (lock : Lock) (next : Word) : Lock :=
  { lock with state := next, writers := lock.writers + 1 }

/-- The destructors are one atomic operation each, so they take effect at
once.  Any thread may destroy a guard, since guards can be moved. -/
def start (lock : Lock) : Call → Option (Lock × Pc)
  | .read => some (lock, .readLoad)
  | .tryRead => some (lock, .tryReadLoad)
  | .write => some (lock, .writeLoad)
  | .tryWrite => some (lock, .tryWriteLoad)
  | .dropReadGuard =>
      if 0 < lock.readers then
        some ({ lock with state := lock.state - 1#64, readers := lock.readers - 1 }, .idle)
      else none
  | .dropWriteGuard =>
      if 0 < lock.writers then
        some ({ lock with state := 0#64, writers := lock.writers - 1 }, .idle)
      else none

/-- The next atomic operation of the call in progress.  In `write()` the second
exchange is strong and, when it fails, leaves the word it found in `e`. -/
def resume (lock : Lock) (spurious : Bool) : Pc → Option (Lock × Pc)
  | .idle => none
  | .readLoad => some (lock, .readCas (lock.state &&& ~~~(writeMask ||| writeWillingMask)))
  | .readCas expected =>
      if lock.state = expected ∧ spurious = false then some (lock.takeRead expected, .idle)
      else some (lock, .readLoad)
  | .tryReadLoad =>
      if lock.state &&& (writeMask ||| writeWillingMask) ≠ 0#64 then some (lock, .idle)
      else some (lock, .tryReadCas (lock.state &&& ~~~(writeMask ||| writeWillingMask)))
  | .tryReadCas expected =>
      if lock.state = expected ∧ spurious = false then some (lock.takeRead expected, .idle)
      else some (lock, .tryReadLoad)
  | .writeLoad => some (lock, .writeCas lock.state)
  | .writeCas expected =>
      if lock.state = expected ∧ spurious = false then
        some ({ lock with state := expected ||| writeWillingMask }, .handOverLoad writeWillingMask)
      else some (lock, .writeLoad)
  | .handOverLoad expected =>
      if lock.state = expected then some (lock, .handOverCas expected)
      else if lock.state = 0#64 then some (lock, .writeLoad)
      else some (lock, .handOverLoad expected)
  | .handOverCas expected =>
      if lock.state = expected then some (lock.takeWrite (expected ||| writeMask), .idle)
      else some (lock, .handOverLoad lock.state)
  | .tryWriteLoad =>
      if lock.state ≠ 0#64 then some (lock, .idle) else some (lock, .tryWriteCas lock.state)
  | .tryWriteCas expected =>
      if lock.state = expected then some (lock.takeWrite writeMask, .idle)
      else some (lock, .idle)

def advance (lock : Lock) (pc : Pc) : Choice Call → Option (Lock × Pc)
  | .call call => if pc = .idle then start lock call else none
  | .step spurious => resume lock spurious pc

def program (Thread : Type*) : Program Thread Lock Pc (Choice Call) where
  advance _ := advance

def fresh (Thread : Type*) : Pool Thread Lock Pc where
  shared := { state := 0#64, readers := 0, writers := 0 }
  locals _ := .idle

def machine (Thread : Type*) [DecidableEq Thread] :
    Machine (Pool Thread Lock Pc) (Thread × Choice Call) :=
  (program Thread).machine (· = fresh Thread)

/-- A live write guard excludes every other live guard. -/
def Exclusive (lock : Lock) : Prop :=
  0 < lock.writers → lock.writers = 1 ∧ lock.readers = 0

instance : DecidablePred Exclusive := fun _ => inferInstanceAs (Decidable (_ → _))

def FewReaders (lock : Lock) : Prop := lock.readers < 2 ^ 62

instance : DecidablePred FewReaders := fun lock => inferInstanceAs (Decidable (lock.readers < _))

/-- The second exchange of `write()` succeeds, or it finds the word free or
only wanted, and so does not leave the word of a held lock in `e`. -/
def handOverUndisturbed (lock : Lock) : Pc → Bool
  | .handOverCas expected =>
      lock.state == expected || lock.state == 0#64 || lock.state == writeWillingMask
  | _ => true

/-! ## The word of the lock -/

/-- The word with its writer bit, its waiting bit and its reader count. -/
def word (writer willing : Bool) (readers : ℕ) : Word :=
  (packed (BitVec.ofBool writer ++ BitVec.ofBool willing) readers : BitVec (1 + 1 + 62))

theorem writeMask_eq : writeMask = word true false 0 := by decide

theorem writeWillingMask_eq : writeWillingMask = word false true 0 := by decide

theorem masks_eq : writeMask ||| writeWillingMask = word true true 0 := by decide

theorem zero_eq : (0#64 : Word) = word false false 0 := by decide

theorem word_or (writer willing : Bool) (readers : ℕ) (maskWriter maskWilling : Bool) :
    word writer willing readers ||| word maskWriter maskWilling 0 =
      word (writer || maskWriter) (willing || maskWilling) readers := by
  rw [word, word, word, packed_or]
  congr 1
  cases writer <;> cases willing <;> cases maskWriter <;> cases maskWilling <;> decide

theorem word_clear (writer willing : Bool) (readers : ℕ) :
    word writer willing readers &&& ~~~word true true 0 = word false false readers := by
  rw [word, word, word, packed_and_not]
  congr 1
  cases writer <;> cases willing <;> decide

theorem word_inj {writer willing writer' willing' : Bool} {readers readers' : ℕ}
    (few : readers < 2 ^ 62) (few' : readers' < 2 ^ 62) :
    word writer willing readers = word writer' willing' readers' ↔
      writer = writer' ∧ willing = willing' ∧ readers = readers' := by
  rw [word, word, packed_inj few few', ← and_assoc]
  refine and_congr_left fun _ => ?_
  cases writer <;> cases willing <;> cases writer' <;> cases willing' <;> decide

theorem word_succ {writer willing : Bool} {readers : ℕ} (few : readers + 1 < 2 ^ 62) :
    word writer willing readers + 1#64 = word writer willing (readers + 1) :=
  packed_succ few

theorem word_pred {writer willing : Bool} {readers : ℕ} (few : readers + 1 < 2 ^ 62) :
    word writer willing (readers + 1) - 1#64 = word writer willing readers :=
  packed_pred few

/-! ## What the word says about the guards -/

/-- The writer bit and the count are exactly the live guards. -/
def Coherent (lock : Lock) : Prop :=
  ∃ writer willing, lock.state = word writer willing lock.readers ∧
    lock.writers = writer.toNat ∧ (writer = true → lock.readers = 0)

/-- The expected values a thread may carry into an exchange that acquires. -/
def Prepared : Pc → Prop
  | .readCas expected | .tryReadCas expected =>
      ∃ readers, readers < 2 ^ 62 ∧ expected = word false false readers
  | .tryWriteCas expected => expected = 0#64
  | .handOverLoad expected | .handOverCas expected =>
      expected = 0#64 ∨ expected = writeWillingMask
  | _ => True

variable {lock next : Lock} {expected : Word}

theorem Coherent.exclusive (coherent : Coherent lock) : Exclusive lock := by
  obtain ⟨writer, willing, _, writers, alone⟩ := coherent
  intro live
  cases writer with
  | false => simp [writers] at live
  | true => exact ⟨by simp [writers], alone rfl⟩

theorem Coherent.readers_prepared (coherent : Coherent lock) (few : FewReaders lock) :
    ∃ readers, readers < 2 ^ 62 ∧
      lock.state &&& ~~~(writeMask ||| writeWillingMask) = word false false readers := by
  obtain ⟨writer, willing, stateEq, _, _⟩ := coherent
  refine ⟨lock.readers, few, ?_⟩
  rw [stateEq, masks_eq, word_clear]

theorem Coherent.takeRead (coherent : Coherent lock) (few : FewReaders lock)
    (prepared : ∃ readers, readers < 2 ^ 62 ∧ expected = word false false readers)
    (same : lock.state = expected) (room : FewReaders (lock.takeRead expected)) :
    Coherent (lock.takeRead expected) := by
  obtain ⟨writer, willing, stateEq, writers, alone⟩ := coherent
  obtain ⟨readers, bounded, rfl⟩ := prepared
  rw [stateEq, word_inj few bounded] at same
  obtain ⟨rfl, rfl, rfl⟩ := same
  refine ⟨false, false, ?_, writers, by simp⟩
  exact word_succ room

theorem Coherent.dropRead (coherent : Coherent lock) (few : FewReaders lock)
    (live : 0 < lock.readers) :
    Coherent { lock with state := lock.state - 1#64, readers := lock.readers - 1 } := by
  obtain ⟨writer, willing, stateEq, writers, alone⟩ := coherent
  obtain ⟨rest, counted⟩ : ∃ rest, lock.readers = rest + 1 := ⟨lock.readers - 1, by omega⟩
  refine ⟨writer, willing, ?_, writers, ?_⟩
  · simp only [stateEq, counted, Nat.add_sub_cancel]
    exact word_pred (by simpa only [FewReaders, counted] using few)
  · intro held
    have none := alone held
    omega

theorem Coherent.dropWrite (coherent : Coherent lock) (live : 0 < lock.writers) :
    Coherent { lock with state := 0#64, writers := lock.writers - 1 } := by
  obtain ⟨only, free⟩ := coherent.exclusive live
  refine ⟨false, false, ?_, by simp [only], by simp⟩
  simp only [free, zero_eq]

theorem Coherent.announce (coherent : Coherent lock) :
    Coherent { lock with state := lock.state ||| writeWillingMask } := by
  obtain ⟨writer, willing, stateEq, writers, alone⟩ := coherent
  refine ⟨writer, true, ?_, writers, alone⟩
  simp only [stateEq, writeWillingMask_eq, word_or, Bool.or_false, Bool.or_true]

/-- A word that is zero or only waiting belongs to a lock without guards, so
setting its writer bit makes one writer. -/
theorem Coherent.takeWrite (coherent : Coherent lock) (few : FewReaders lock)
    (free : lock.state = 0#64 ∨ lock.state = writeWillingMask) :
    Coherent (lock.takeWrite (lock.state ||| writeMask)) := by
  obtain ⟨writer, willing, stateEq, writers, alone⟩ := coherent
  have empty : writer = false ∧ lock.readers = 0 := by
    have bounded : 0 < 2 ^ 62 := Nat.two_pow_pos 62
    rw [stateEq, zero_eq, writeWillingMask_eq, word_inj few bounded, word_inj few bounded] at free
    rcases free with ⟨unheld, _, none⟩ | ⟨unheld, _, none⟩
    · exact ⟨unheld, none⟩
    · exact ⟨unheld, none⟩
  obtain ⟨rfl, none⟩ := empty
  refine ⟨true, willing, ?_, ?_, fun _ => none⟩
  · simp only [Lock.takeWrite, stateEq, writeMask_eq, word_or, Bool.or_true, Bool.or_false]
  · simp [Lock.takeWrite, writers]


theorem start_coherent {finish : Pc} {call : Call} (coherent : Coherent lock)
    (few : FewReaders lock) (started : start lock call = some (next, finish)) :
    Coherent next ∧ Prepared finish := by
  cases call with
  | read | tryRead | write | tryWrite =>
      cases started
      exact ⟨coherent, trivial⟩
  | dropReadGuard =>
      simp only [start] at started
      split at started
      · rename_i live
        cases started
        exact ⟨coherent.dropRead few live, trivial⟩
      · contradiction
  | dropWriteGuard =>
      simp only [start] at started
      split at started
      · rename_i live
        cases started
        exact ⟨coherent.dropWrite live, trivial⟩
      · contradiction

theorem resume_coherent {pc finish : Pc} {spurious : Bool} (coherent : Coherent lock)
    (few : FewReaders lock) (prepared : Prepared pc) (undisturbed : handOverUndisturbed lock pc)
    (resumed : resume lock spurious pc = some (next, finish)) :
    (FewReaders next → Coherent next) ∧ Prepared finish := by
  cases pc with
  | idle => contradiction
  | readLoad =>
      cases resumed
      exact ⟨fun _ => coherent, coherent.readers_prepared few⟩
  | readCas expected | tryReadCas expected =>
      simp only [resume] at resumed
      split at resumed
      · rename_i exchanged
        cases resumed
        exact ⟨coherent.takeRead few prepared exchanged.1, trivial⟩
      · cases resumed
        exact ⟨fun _ => coherent, trivial⟩
  | tryReadLoad =>
      simp only [resume] at resumed
      split at resumed
      · cases resumed
        exact ⟨fun _ => coherent, trivial⟩
      · cases resumed
        exact ⟨fun _ => coherent, coherent.readers_prepared few⟩
  | writeLoad =>
      cases resumed
      exact ⟨fun _ => coherent, trivial⟩
  | writeCas expected =>
      simp only [resume] at resumed
      split at resumed
      · rename_i exchanged
        cases resumed
        rw [← exchanged.1]
        exact ⟨fun _ => coherent.announce, .inr rfl⟩
      · cases resumed
        exact ⟨fun _ => coherent, trivial⟩
  | handOverLoad expected =>
      simp only [resume] at resumed
      split at resumed
      · cases resumed
        exact ⟨fun _ => coherent, prepared⟩
      · split at resumed <;> cases resumed
        · exact ⟨fun _ => coherent, trivial⟩
        · exact ⟨fun _ => coherent, prepared⟩
  | handOverCas expected =>
      simp only [resume] at resumed
      split at resumed
      · rename_i same
        cases resumed
        rw [← same] at prepared ⊢
        exact ⟨fun _ => coherent.takeWrite few prepared, trivial⟩
      · rename_i different
        cases resumed
        simp only [handOverUndisturbed, Bool.or_eq_true, beq_iff_eq] at undisturbed
        rcases undisturbed with (same | zero) | willing
        · exact absurd same different
        · exact ⟨fun _ => coherent, .inl zero⟩
        · exact ⟨fun _ => coherent, .inr willing⟩
  | tryWriteLoad =>
      simp only [resume] at resumed
      split at resumed
      · cases resumed
        exact ⟨fun _ => coherent, trivial⟩
      · rename_i zero
        cases resumed
        exact ⟨fun _ => coherent, not_not.mp zero⟩
  | tryWriteCas expected =>
      simp only [resume] at resumed
      split at resumed
      · rename_i same
        cases resumed
        have zero : lock.state = 0#64 := same.trans prepared
        have taken := coherent.takeWrite few (.inl zero)
        rw [zero, BitVec.zero_or] at taken
        exact ⟨fun _ => taken, trivial⟩
      · cases resumed
        exact ⟨fun _ => coherent, trivial⟩

/-! ## Mutual exclusion -/

section

variable {Thread : Type*} [DecidableEq Thread]

/-- The runs in which the lock never has 2^62 live readers. -/
def Bounded (pool : Pool Thread Lock Pc) (_ : Thread × Choice Call) : Prop :=
  FewReaders pool.shared

instance : DecidableRel (@Bounded Thread) :=
  fun pool _ => inferInstanceAs (Decidable (FewReaders pool.shared))

/-- The runs in which the lock never has 2^62 live readers and no second
exchange of `write()` is disturbed. -/
def Undisturbed (pool : Pool Thread Lock Pc) (label : Thread × Choice Call) : Prop :=
  FewReaders pool.shared ∧ handOverUndisturbed pool.shared (pool.locals label.1)

instance : DecidableRel (@Undisturbed Thread) :=
  fun _ _ => inferInstanceAs (Decidable (_ ∧ _))

def Invariant (pool : Pool Thread Lock Pc) : Prop :=
  (FewReaders pool.shared → Coherent pool.shared) ∧ ∀ thread, Prepared (pool.locals thread)

theorem invariant_of_reachable {pool : Pool Thread Lock Pc}
    (reachable : (machine Thread).Reachable Undisturbed pool) : Invariant pool := by
  refine Program.invariant reachable ?_ ?_
  · intro first started
    subst started
    exact ⟨fun _ => ⟨false, false, zero_eq, rfl, by simp⟩, fun _ => trivial⟩
  · intro pool thread choice shared finish holds allowed advanced
    have coherent := holds.1 allowed.1
    have stepped : (FewReaders shared → Coherent shared) ∧ Prepared finish := by
      cases choice with
      | call call =>
          simp only [program, advance] at advanced
          split at advanced
          · obtain ⟨kept, prepared⟩ := start_coherent coherent allowed.1 advanced
            exact ⟨fun _ => kept, prepared⟩
          · contradiction
      | step spurious =>
          exact resume_coherent coherent allowed.1 (holds.2 thread) allowed.2 advanced
    refine ⟨stepped.1, ?_⟩
    rw [Function.forall_update_iff]
    exact ⟨stepped.2, fun other _ => holds.2 other⟩

theorem exclusive_of_undisturbed {pool : Pool Thread Lock Pc}
    (reachable : (machine Thread).Reachable Undisturbed pool) (few : FewReaders pool.shared) :
    Exclusive pool.shared :=
  ((invariant_of_reachable reachable).1 few).exclusive

end

/-- One thread takes the lock through `write()`. -/
theorem exclusive_of_undisturbed_write :
    ∃ pool : Pool (Fin 2) Lock Pc, (machine (Fin 2)).Reachable Undisturbed pool ∧
      pool.shared.writers = 1 ∧ Exclusive pool.shared := by
  obtain ⟨pool, reachable, writers, few⟩ :=
    Machine.reachable_of_exec (machine (Fin 2)) Undisturbed (fresh (Fin 2))
      ((0, .call .write) :: List.replicate 4 (0, .step false))
      (fun pool => pool.shared.writers = 1 ∧ FewReaders pool.shared)
      rfl ⟨_, rfl, by decide, by decide⟩
  exact ⟨pool, reachable, writers, exclusive_of_undisturbed reachable few⟩

/-- Two writers wait for the same hand-over.  The one whose exchange fails
keeps the word of the held lock as its expected value, finds it again, and
acquires next to the first. -/
def twoWriters : List (Fin 2 × Choice Call) :=
  (0, .call .write) :: (1, .call .write) :: List.replicate 3 (0, .step false) ++
    List.replicate 3 (1, .step false) ++ [(0, .step false)] ++ List.replicate 3 (1, .step false)

theorem exclusion_fails :
    ∃ pool : Pool (Fin 2) Lock Pc, (machine (Fin 2)).Reachable Bounded pool ∧
      FewReaders pool.shared ∧ ¬ Exclusive pool.shared :=
  Machine.reachable_of_exec (machine (Fin 2)) Bounded (fresh (Fin 2)) twoWriters
    (fun pool => FewReaders pool.shared ∧ ¬ Exclusive pool.shared)
    rfl ⟨_, rfl, by decide, by decide⟩

end Asco.Sync.SpinRwLock
