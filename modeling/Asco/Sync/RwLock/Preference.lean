import Asco.Sync.RwLock.Exclusion

namespace Asco.Sync.RwLock

open Foundation

/-! # Writer preference

A `write()` call waits from the exchange that sets `write_willing_mask` until it obtains
the lock, also while it starts over.  Readers respect the bit, but the destructor of a
write guard clears it together with the rest of the word.
-/

/-- The waiting bit of the word. -/
def willing (state : Word) : Bool := state.getLsbD 62

@[simp]
theorem willing_or (state mask : Word) :
    willing (state ||| mask) = (willing state || willing mask) :=
  BitVec.getLsbD_or

@[simp]
theorem willing_writeWillingMask : willing writeWillingMask = true := by decide

@[simp]
theorem willing_zero : willing 0#64 = false := by decide

theorem willing_word (writer waiting upgrading : Bool) (readers : ℕ) :
    willing (word writer waiting upgrading readers) = waiting := by
  have masked := congrArg willing (word_and writer waiting upgrading false true false readers)
  rw [willing, BitVec.getLsbD_and] at masked
  have mask : (word false true false 0).getLsbD 62 = true := by decide
  rw [mask, Bool.and_true] at masked
  rw [willing, masked]
  cases writer <;> cases waiting <;> cases upgrading <;> decide

theorem willing_of_clear {state : Word}
    (clear : state &&& (writeMask ||| writeWillingMask) = 0#64) :
    willing state = false := by
  have masked := congrArg willing clear
  rw [willing, BitVec.getLsbD_and] at masked
  have mask : (writeMask ||| writeWillingMask).getLsbD 62 = true := by decide
  rw [mask, Bool.and_true] at masked
  exact masked

variable {Task : Type*} [DecidableEq Task]

/-! ## The calls that wait -/

/-- The `write()` calls that have set the waiting bit and have not obtained the lock, after a
step of `task`. -/
def nextWaiting (waiting : Finset Task) (task : Task) : Pc → Pc → Finset Task
  | .writeCas _, .writeCheck => insert task waiting
  | .writeTake _, .idle => waiting.erase task
  | _, _ => waiting

/-- A pool and the `write()` calls that wait. -/
structure Watched (Task : Type*) where
  pool : Pool Task (RwLock Task) Pc
  waiting : Finset Task

def Watched.move (watched : Watched Task) (label : Task × Choice Call) :
    Option (Watched Task) :=
  ((machine Task).move watched.pool label).map fun next =>
    { pool := next
      waiting := nextWaiting watched.waiting label.1 (watched.pool.locals label.1)
        (next.locals label.1) }

def watched (Task : Type*) [DecidableEq Task] : Machine (Watched Task) (Task × Choice Call) where
  start := (· = { pool := fresh Task, waiting := ∅ })
  move := Watched.move

/-- No step acquires a read guard while a `write()` call waits. -/
def NotOvertaken (watched : Watched Task) : Prop :=
  ∀ label next, watched.move label = some next →
    watched.pool.shared.readGuards < next.pool.shared.readGuards → watched.waiting = ∅

/-- No `write()` call waits when a write guard is released, and the readers stay within
their field of the word. -/
def ReleasesUnwatched [Fintype Task] (watched : Watched Task) (label : Task × Choice Call) : Prop :=
  FewReaders watched.pool ∧
    (watched.pool.locals label.1 = .writeRelease → watched.waiting = ∅)

instance [Fintype Task] : DecidableRel (@ReleasesUnwatched Task _) :=
  fun _ _ => inferInstanceAs (Decidable (_ ∧ (_ → _)))

/-! ## The waiting bit stays -/

variable {lock next : RwLock Task} {pc finish : Pc} {spurious : Bool} {task : Task}

omit [DecidableEq Task] in
theorem start_guards {call : Call} (started : start lock call = some (next, finish)) :
    next.state = lock.state ∧ next.readGuards ≤ lock.readGuards := by
  cases call with
  | read | tryRead | write | tryWrite =>
      cases started
      exact ⟨rfl, le_rfl⟩
  | upgrade | dropReadGuard | dropWriteGuard =>
      obtain ⟨_, ⟨⟩⟩ := Option.ite_none_right_eq_some.mp started
      exact ⟨rfl, by simp⟩

/-- Only the destructor of a write guard clears the waiting bit, and no reader gets past it. -/
theorem resume_willing (prepared : Prepared pc) (announced : willing lock.state = true)
    (resumed : resume task lock spurious pc = some (next, finish)) :
    (pc ≠ .writeRelease → pc ≠ .readRelease → willing next.state = true) ∧
      next.readGuards ≤ lock.readGuards := by
  cases pc with
  | idle => contradiction
  | readWait expected | tryReadCas expected =>
      simp only [resume] at resumed
      split at resumed
      · rename_i exchanged
        rw [exchanged.1, willing_of_clear prepared] at announced
        contradiction
      · cases resumed
        exact ⟨fun _ _ => announced, le_rfl⟩
  | readSuspended | writeSuspended | upgradeSuspended =>
      obtain ⟨_, ⟨⟩⟩ := Option.ite_none_left_eq_some.mp resumed
      exact ⟨fun _ _ => announced, le_rfl⟩
  | tryReadLoad | writeCheck | writeWait expected | tryWriteLoad | upgradeLoad =>
      simp only [resume] at resumed
      split at resumed <;> cases resumed <;> exact ⟨fun _ _ => announced, le_rfl⟩
  | writeCas expected | writeTake expected =>
      simp only [resume] at resumed
      split at resumed
      · rename_i exchanged
        cases resumed
        have expects : willing expected = true := by simp_all
        exact ⟨fun _ _ => by simp [takeWrite, expects], le_rfl⟩
      · cases resumed
        exact ⟨fun _ _ => announced, le_rfl⟩
  | tryWriteCas expected =>
      simp only [resume] at resumed
      split at resumed
      · rename_i same
        have zero : expected = 0#64 := prepared
        rw [same, zero] at announced
        contradiction
      · cases resumed
        exact ⟨fun _ _ => announced, le_rfl⟩
  | upgradeCas expected =>
      simp only [resume] at resumed
      split at resumed
      · cases resumed
        exact ⟨fun _ _ => by simp, le_rfl⟩
      · split at resumed <;> cases resumed <;> exact ⟨fun _ _ => announced, le_rfl⟩
  | upgradeWait =>
      simp only [resume] at resumed
      split at resumed <;> cases resumed
      · exact ⟨fun _ _ => by simp [takeWrite], le_rfl⟩
      · exact ⟨fun _ _ => announced, le_rfl⟩
  | readRelease =>
      cases resumed
      exact ⟨fun _ other => absurd rfl other, le_rfl⟩
  | writeRelease =>
      cases resumed
      exact ⟨fun other => absurd rfl other, le_rfl⟩
  | _ =>
      cases resumed
      exact ⟨fun _ _ => announced, le_rfl⟩

/-- A call comes to wait by the exchange that sets the bit. -/
theorem nextWaiting_nonempty {waiting : Finset Task}
    (waits : (nextWaiting waiting task pc finish).Nonempty) :
    waiting.Nonempty ∨ (∃ expected, pc = .writeCas expected) ∧ finish = .writeCheck := by
  unfold nextWaiting at waits
  split at waits
  · exact .inr ⟨⟨_, rfl⟩, rfl⟩
  · exact .inl (waits.mono (Finset.erase_subset _ _))
  · exact .inl waits

section

variable [Fintype Task] {state after : Watched Task}

omit [DecidableEq Task] in
/-- A reader that leaves takes nothing from the bits above the count. -/
theorem willing_readRelease {pool : Pool Task (RwLock Task) Pc} (coherent : Coherent pool)
    (few : FewReaders pool) (announced : willing pool.shared.state = true)
    (releases : pool.locals task = .readRelease) : willing (pool.shared.state - 1#64) = true := by
  obtain ⟨writer, waiting, upgrading, reads⟩ := coherent few
  have held : 1 ≤ liveReadGuards pool := by
    have weight : holdsRead (pool.locals task) ≤ tally holdsRead pool.locals :=
      weight_le_tally task
    rw [releases] at weight
    exact weight.trans (Nat.le_add_left _ _)
  obtain ⟨rest, counted⟩ := Nat.exists_eq_add_of_le' held
  have state : pool.shared.state = word writer waiting upgrading (rest + 1) := by
    rw [← counted]
    exact reads.state
  rw [state, willing_word] at announced
  rw [state, word_pred (by rw [← counted]; exact few), willing_word]
  exact announced

theorem Watched.announced_step (prepared : AllPrepared state.pool) (coherent : Coherent state.pool)
    {label : Task × Choice Call} (allowed : ReleasesUnwatched state label)
    (moved : state.move label = some after) (waits : state.waiting.Nonempty)
    (announced : willing state.pool.shared.state = true) :
    willing after.pool.shared.state = true := by
  obtain ⟨task, choice⟩ := label
  obtain ⟨pool, stepped, rfl⟩ := Option.map_eq_some_iff.mp moved
  obtain ⟨shared, finish, advanced, rfl⟩ := Program.move_eq_some.mp stepped
  cases choice with
  | call call =>
      obtain ⟨_, started⟩ := Option.ite_none_right_eq_some.mp advanced
      rw [(start_guards started).1]
      exact announced
  | step spurious =>
      have keeps : state.pool.locals task ≠ .writeRelease := by
        intro releases
        exact waits.ne_empty (allowed.2 releases)
      by_cases releases : state.pool.locals task = .readRelease
      · simp only [program, advance, releases, resume] at advanced
        cases advanced
        exact willing_readRelease coherent allowed.1 announced releases
      · exact (resume_willing (prepared task) announced advanced).1 keeps releases

omit [Fintype Task] in
/-- The exchange by which a call comes to wait sets the bit. -/
theorem Watched.announces {label : Task × Choice Call} (moved : state.move label = some after)
    (waits : after.waiting.Nonempty) (free : state.waiting = ∅) :
    willing after.pool.shared.state = true := by
  obtain ⟨task, choice⟩ := label
  obtain ⟨pool, stepped, rfl⟩ := Option.map_eq_some_iff.mp moved
  obtain ⟨shared, finish, advanced, rfl⟩ := Program.move_eq_some.mp stepped
  simp only [Function.update_self, free] at waits
  obtain waits | ⟨⟨expected, standing⟩, rfl⟩ := nextWaiting_nonempty waits
  · exact absurd waits Finset.not_nonempty_empty
  · cases choice with
    | call call =>
        simp [program, advance, standing] at advanced
    | step spurious =>
        simp only [program, advance, standing, resume] at advanced
        split at advanced <;> cases advanced
        simp

theorem pool_reachable (reachable : (watched Task).Reachable ReleasesUnwatched state) :
    (machine Task).Reachable Bounded state.pool := by
  obtain ⟨first, rfl, run⟩ := reachable
  induction run with
  | refl => exact ⟨_, rfl, .refl _⟩
  | tail _ allowed moved ih =>
      obtain ⟨pool, stepped, rfl⟩ := Option.map_eq_some_iff.mp moved
      exact ih.step allowed.1 stepped

/-- While a call waits, the bit is set. -/
theorem announced_of_reachable (reachable : (watched Task).Reachable ReleasesUnwatched state)
    (waits : state.waiting.Nonempty) : willing state.pool.shared.state = true := by
  obtain ⟨first, rfl, run⟩ := reachable
  induction run with
  | refl => exact absurd waits Finset.not_nonempty_empty
  | @tail state after label before allowed moved ih =>
      have reached := pool_reachable ⟨_, rfl, before⟩
      rcases state.waiting.eq_empty_or_nonempty with free | waited
      · exact Watched.announces moved waits free
      · exact Watched.announced_step (prepared_of_reachable reached)
          (coherent_of_reachable (fun _ _ few => few) reached) allowed moved waited (ih waited)

/-- A waiting writer is not overtaken as long as no write guard is released beside it. -/
theorem notOvertaken_of_releasesUnwatched
    (reachable : (watched Task).Reachable ReleasesUnwatched state) : NotOvertaken state := by
  intro label after moved acquires
  obtain ⟨task, choice⟩ := label
  obtain ⟨pool, stepped, rfl⟩ := Option.map_eq_some_iff.mp moved
  obtain ⟨shared, finish, advanced, rfl⟩ := Program.move_eq_some.mp stepped
  rcases state.waiting.eq_empty_or_nonempty with free | waits
  · exact free
  · exfalso
    refine Nat.not_le_of_lt acquires ?_
    cases choice with
    | call call =>
        obtain ⟨_, started⟩ := Option.ite_none_right_eq_some.mp advanced
        exact (start_guards started).2
    | step spurious =>
        have prepared := prepared_of_reachable (pool_reachable reachable)
        have announced := announced_of_reachable reachable waits
        exact (resume_willing (prepared task) announced advanced).2

end

/-- A reader holds the lock, a writer waits, and the reader leaves. -/
theorem notOvertaken_of_releasesUnwatched_writer :
    ∃ state : Watched (Fin 2), (watched (Fin 2)).Reachable ReleasesUnwatched state ∧
      (state.waiting = {1} ∧ state.pool.shared.readGuards = 0) ∧ NotOvertaken state := by
  obtain ⟨state, reachable, waits, left⟩ :=
    Machine.reachable_of_any (watched (Fin 2)) ReleasesUnwatched
      { pool := fresh (Fin 2), waiting := ∅ }
      (List.flatten
        [(0, .call .read) :: List.replicate 2 (0, .step false),
          (1, .call .write) :: List.replicate 4 (1, .step false),
          (0, .call .dropReadGuard) :: List.replicate 3 (0, .step false)])
      (fun state => state.waiting = {1} ∧ state.pool.shared.readGuards = 0)
      rfl (by decide +kernel)
  exact ⟨state, reachable, ⟨waits, left⟩, notOvertaken_of_releasesUnwatched reachable⟩

/-- A writer waits beside another one; the release of that one clears the waiting bit, and
`try_read` succeeds before the writer sets it again. -/
theorem writer_overtaken :
    ∃ state : Watched (Fin 3), (watched (Fin 3)).Reachable Machine.free state ∧
      ¬ NotOvertaken state := by
  obtain ⟨state, reachable, waits, overtakes⟩ :=
    Machine.reachable_of_any (watched (Fin 3)) Machine.free
      { pool := fresh (Fin 3), waiting := ∅ }
      (List.flatten
        [(0, .call .tryWrite) :: List.replicate 2 (0, .step false),
          (1, .call .write) :: List.replicate 4 (1, .step false),
          (0, .call .dropWriteGuard) :: (0, .step false) :: (2, .call .tryRead) ::
            [(2, .step false)]])
      (fun state => state.waiting = {1} ∧ (state.move (2, .step false)).any fun next =>
        state.pool.shared.readGuards < next.pool.shared.readGuards)
      rfl (by decide +kernel)
  refine ⟨state, reachable, fun preferred => ?_⟩
  obtain ⟨next, moved, acquires⟩ := (Option.any_eq_true _ _).mp overtakes
  have free := preferred (2, .step false) next moved (by simpa using acquires)
  rw [waits] at free
  exact absurd free (Finset.singleton_ne_empty 1)

end Asco.Sync.RwLock
