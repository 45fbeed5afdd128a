import Asco.Sync.SpinRwLock

namespace Asco.Sync.SpinRwLock

open Foundation

/-! # `spinrwlock<>`: calls that nobody disturbs

One call after another is made on the lock.  A call that would spin for ever
does not return, so it is not part of such a sequence.
-/

/-- The steps of a call until it returns.  The flags say which of its weak
exchanges fail spuriously. -/
def complete : Lock → Pc → List Bool → Option Lock
  | lock, pc, [] => if pc = .idle then some lock else none
  | lock, pc, spurious :: rest =>
      (resume lock spurious pc).bind fun next => complete next.1 next.2 rest

def run (lock : Lock) (call : Call) (spurious : List Bool) : Option Lock :=
  (start lock call).bind fun begun => complete begun.1 begun.2 spurious

inductive Mode where
  | read
  | write
deriving DecidableEq

inductive Request where
  | read
  | tryRead
  | write
  | tryWrite
deriving DecidableEq

def Request.mode : Request → Mode
  | .read | .tryRead => .read
  | .write | .tryWrite => .write

def Request.call : Request → Call
  | .read => .read
  | .tryRead => .tryRead
  | .write => .write
  | .tryWrite => .tryWrite

/-- `try_read` and `try_write` may return an empty guard. -/
def Request.attempts : Request → Bool
  | .read | .write => false
  | .tryRead | .tryWrite => true

def Mode.drop : Mode → Call
  | .read => .dropReadGuard
  | .write => .dropWriteGuard

/-- The guards of a mode that the lock has given and not got back. -/
def Lock.given (lock : Lock) : Mode → ℕ
  | .read => lock.readers
  | .write => lock.writers

/-- The guard that the call returned is not empty. -/
def acquired (before after : Lock) (mode : Mode) : Bool := before.given mode < after.given mode

/-- The places a call goes through. -/
def Serves : Request → Pc → Prop
  | .read, .readLoad | .read, .readCas _ | .tryRead, .tryReadLoad | .tryRead, .tryReadCas _
  | .write, .writeLoad | .write, .writeCas _ | .write, .handOverLoad _ | .write, .handOverCas _
  | .tryWrite, .tryWriteLoad | .tryWrite, .tryWriteCas _ => True
  | _, _ => False

/-- One guard of the mode was given. -/
def Gives (mode : Mode) (before after : Lock) : Prop :=
  ∀ other, after.given other = before.given other + if other = mode then 1 else 0

variable {lock next last : Lock} {pc finish : Pc} {spurious : Bool} {request : Request}

/-- The exchange that takes the lock over expects the word it will find. -/
def Steady (lock : Lock) (pc : Pc) : Prop := ∀ expected, pc = .handOverCas expected →
  lock.state = expected

theorem gives_takeRead (lock : Lock) (expected : Word) :
    Gives .read lock (lock.takeRead expected) := by
  intro other
  cases other <;> rfl

theorem gives_takeWrite (lock : Lock) (word : Word) : Gives .write lock (lock.takeWrite word) := by
  intro other
  cases other <;> rfl

/-- What a step of a call may do: it gives no guard and stays in the call, or
it returns. -/
def Proceeds (request : Request) (lock next : Lock) (finish : Pc) : Prop :=
  (Serves request finish ∧ Steady next finish ∧ ∀ mode, next.given mode = lock.given mode) ∨
    (finish = .idle ∧ (Gives request.mode lock next ∨ (request.attempts = true ∧ next = lock)))

theorem Proceeds.stay {word : Word} (serves : Serves request finish)
    (steady : Steady { lock with state := word } finish) :
    Proceeds request lock { lock with state := word } finish :=
  .inl ⟨serves, steady, fun mode => by cases mode <;> rfl⟩

theorem Proceeds.give (gives : Gives request.mode lock next) :
    Proceeds request lock next .idle :=
  .inr ⟨rfl, .inl gives⟩

theorem Proceeds.fail (attempts : request.attempts = true) : Proceeds request lock lock .idle :=
  .inr ⟨rfl, .inr ⟨attempts, rfl⟩⟩

theorem resume_proceeds (serves : Serves request pc) (steady : Steady lock pc)
    (resumed : resume lock spurious pc = some (next, finish)) :
    Proceeds request lock next finish := by
  have elsewhere {lock : Lock} {pc : Pc} (other : ∀ expected, pc ≠ .handOverCas expected) :
      Steady lock pc := fun expected same => (other expected same).elim
  cases request with
  | read =>
      cases pc with
      | readLoad =>
          cases resumed
          exact .stay trivial (elsewhere (by simp))
      | readCas expected =>
          simp only [resume] at resumed
          split at resumed <;> cases resumed
          · exact .give (gives_takeRead lock expected)
          · exact .stay trivial (elsewhere (by simp))
      | _ => exact serves.elim
  | tryRead =>
      cases pc with
      | tryReadLoad =>
          simp only [resume] at resumed
          split at resumed <;> cases resumed
          · exact .fail rfl
          · exact .stay trivial (elsewhere (by simp))
      | tryReadCas expected =>
          simp only [resume] at resumed
          split at resumed <;> cases resumed
          · exact .give (gives_takeRead lock expected)
          · exact .stay trivial (elsewhere (by simp))
      | _ => exact serves.elim
  | write =>
      cases pc with
      | writeLoad =>
          cases resumed
          exact .stay trivial (elsewhere (by simp))
      | writeCas expected =>
          simp only [resume] at resumed
          split at resumed <;> cases resumed
          · exact .stay trivial (elsewhere (by simp))
          · exact .stay trivial (elsewhere (by simp))
      | handOverLoad expected =>
          simp only [resume] at resumed
          split at resumed
          · rename_i same
            cases resumed
            refine .stay trivial fun other reached => ?_
            cases reached
            exact same
          · split at resumed <;> cases resumed
            · exact .stay trivial (elsewhere (by simp))
            · exact .stay trivial (elsewhere (by simp))
      | handOverCas expected =>
          simp only [resume, if_pos (steady expected rfl)] at resumed
          cases resumed
          exact .give (gives_takeWrite lock _)
      | _ => exact serves.elim
  | tryWrite =>
      cases pc with
      | tryWriteLoad =>
          simp only [resume] at resumed
          split at resumed <;> cases resumed
          · exact .fail rfl
          · exact .stay trivial (elsewhere (by simp))
      | tryWriteCas expected =>
          simp only [resume] at resumed
          split at resumed <;> cases resumed
          · exact .give (gives_takeWrite lock _)
          · exact .fail rfl
      | _ => exact serves.elim

theorem Steady.undisturbed (steady : Steady lock pc) : handOverUndisturbed lock pc = true := by
  cases pc with
  | handOverCas expected => simp [handOverUndisturbed, steady expected rfl]
  | _ => rfl

/-- A call that returns has given one guard or left the lock as it was, but for
the bit that announces a writer. -/
theorem complete_gives {flags : List Bool} (serves : Serves request pc) (steady : Steady lock pc)
    (coherent : Coherent lock) (few : lock.readers + 1 < 2 ^ 62) (prepared : Prepared pc)
    (completed : complete lock pc flags = some last) :
    Coherent last ∧ (Gives request.mode lock last ∨
      (request.attempts = true ∧ ∀ mode, last.given mode = lock.given mode)) := by
  induction flags generalizing lock pc with
  | nil =>
      simp only [complete] at completed
      split at completed
      · rename_i idle
        subst idle
        cases request <;> exact serves.elim
      · cases completed
  | cons spurious rest ih =>
      obtain ⟨⟨next, finish⟩, resumed, completed⟩ := Option.bind_eq_some_iff.mp completed
      have fewNow : FewReaders lock := by
        unfold FewReaders
        omega
      obtain ⟨coherentNext, preparedNext⟩ :=
        resume_coherent coherent fewNow prepared steady.undisturbed resumed
      rcases resume_proceeds serves steady resumed with
        ⟨servesNext, steadyNext, same⟩ | ⟨rfl, outcome⟩
      · have readers : next.readers = lock.readers := same .read
        obtain ⟨coherentLast, outcome⟩ := ih servesNext steadyNext
          (coherentNext (by unfold FewReaders; omega)) (by omega) preparedNext completed
        refine ⟨coherentLast, ?_⟩
        simpa only [Gives, same] using outcome
      · have returned : next = last := by
          cases rest with
          | nil => simpa [complete] using completed
          | cons _ _ => simp [complete, resume] at completed
        subst returned
        have room : FewReaders next := by
          unfold FewReaders
          rcases outcome with gives | ⟨_, rfl⟩
          · have counted : next.readers = lock.readers + _ := gives .read
            split at counted <;> omega
          · omega
        refine ⟨coherentNext room, ?_⟩
        rcases outcome with gives | ⟨attempts, rfl⟩
        · exact .inl gives
        · exact .inr ⟨attempts, fun _ => rfl⟩

theorem run_gives {flags : List Bool} (coherent : Coherent lock)
    (few : lock.readers + 1 < 2 ^ 62) (ran : run lock request.call flags = some last) :
    Coherent last ∧ (Gives request.mode lock last ∨
      (request.attempts = true ∧ ∀ mode, last.given mode = lock.given mode)) := by
  obtain ⟨pc, started, serves, prepared, steady⟩ : ∃ pc, start lock request.call = some (lock, pc) ∧
      Serves request pc ∧ Prepared pc ∧ Steady lock pc := by
    cases request <;> exact ⟨_, rfl, trivial, trivial, fun _ other => by cases other⟩
  rw [run, started, Option.bind_some] at ran
  exact complete_gives serves steady coherent few prepared ran

/-- The destructor of a guard takes one guard of its mode back. -/
theorem run_drop {mode : Mode} (coherent : Coherent lock) (few : FewReaders lock)
    (ran : run lock mode.drop [] = some last) :
    Coherent last ∧
      ∀ other, lock.given other = last.given other + if other = mode then 1 else 0 := by
  obtain ⟨⟨next, finish⟩, started, completed⟩ := Option.bind_eq_some_iff.mp ran
  have coherentNext := (start_coherent coherent few started).1
  have same : next = last := by
    simp only [complete] at completed
    split at completed
    · exact Option.some.inj completed
    · cases completed
  subst same
  refine ⟨coherentNext, fun other => ?_⟩
  cases mode with
  | read =>
      simp only [Mode.drop, start] at started
      split at started
      · cases started
        cases other with
        | read => exact (Nat.sub_add_cancel (by assumption)).symm
        | write => rfl
      · cases started
  | write =>
      simp only [Mode.drop, start] at started
      split at started
      · cases started
        cases other with
        | read => rfl
        | write => exact (Nat.sub_add_cancel (by assumption)).symm
      · cases started

/-! ## What the word counts -/

/-- The reader count and the writer bit of `m_state`. -/
def counted (state : Word) : Mode → ℕ
  | .read => (state &&& ~~~(writeMask ||| writeWillingMask)).toNat
  | .write => if state &&& writeMask = 0#64 then 0 else 1

theorem Coherent.counted (coherent : Coherent lock) (few : FewReaders lock) (mode : Mode) :
    counted lock.state mode = lock.given mode := by
  obtain ⟨writer, willing, stateEq, writers, alone⟩ := coherent
  cases mode with
  | read =>
      have value : (word false false lock.readers).toNat = lock.readers := by
        have unflagged :
            (BitVec.ofBool false ++ BitVec.ofBool false : BitVec (1 + 1)).toNat = 0 := by
          decide
        rw [word, packed_toNat few, unflagged, Nat.zero_mul, Nat.zero_add]
      rw [SpinRwLock.counted, stateEq, masks_eq, word_clear, value]
      rfl
  | write =>
      have bit : word writer willing lock.readers &&& writeMask = word writer false 0 := by
        rw [writeMask_eq, word, word, word, packed_and]
        congr 1
        cases writer <;> cases willing <;> decide
      rw [SpinRwLock.counted, stateEq, bit, Lock.given, writers]
      cases writer <;> decide

end Asco.Sync.SpinRwLock
