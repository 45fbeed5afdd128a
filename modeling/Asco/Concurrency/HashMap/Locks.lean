import Asco.Concurrency.HashMap.Sequential

namespace Asco.Concurrency.HashMap

open Foundation

/-! # The lock of the buckets

Calls on keys hold the read lock from `try_read` to their return, and
`try_rehash` holds the write lock.  Destroying a guard takes no lock.
-/

variable {K V : Type*}

/-- The call holds the read lock. -/
def Pc.reading : Pc K V → ℕ
  | .tryRead _ | .tryReadExchange _ _ | .lowerLoad _ .guard | .lower _ .guard _ | .tryWrite
  | .tryWriteExchange | .rehashLoad _ _ | .rehashWait _ _ | .rehashMove _ _ | .rehashSwap _
  | .unlockWrite => 0
  | _ => 1

/-- The call holds the write lock. -/
def Pc.writing : Pc K V → ℕ
  | .rehashLoad _ _ | .rehashWait _ _ | .rehashMove _ _ | .rehashSwap _ | .unlockWrite => 1
  | _ => 0

def Progress.reading : Progress K V → ℕ
  | .running pc => pc.reading
  | .done _ => 0

def Progress.writing : Progress K V → ℕ
  | .running pc => pc.writing
  | .done _ => 0

def readLocks : Option (Pc K V) → ℕ
  | some pc => pc.reading
  | none => 0

def writeLocks : Option (Pc K V) → ℕ
  | some pc => pc.writing
  | none => 0

section

variable {map : HashMap K V} {key : K} {value : V} {i : ℕ}

@[simp] theorem leave_reading (outcome : Outcome V) :
    (leave outcome : Progress K V).reading = 1 := rfl

@[simp] theorem leave_writing (outcome : Outcome V) :
    (leave outcome : Progress K V).writing = 0 := rfl

theorem insertAt_reading (claim : Option ℕ) : (map.insertAt key value i claim).reading ≤ 1 := by
  cases claim <;> simp only [insertAt] <;> split <;>
    simp [Progress.reading, Pc.reading]

@[simp] theorem insertAt_writing (claim : Option ℕ) :
    (map.insertAt key value i claim).writing = 0 := by
  cases claim <;> simp only [insertAt] <;> split <;> rfl

@[simp] theorem insertFail_reading (failure : InsertFailed) (claim : Option ℕ) :
    (insertFail failure claim : Progress K V).reading = 1 := by
  cases claim <;> rfl

@[simp] theorem insertFail_writing (failure : InsertFailed) (claim : Option ℕ) :
    (insertFail failure claim : Progress K V).writing = 0 := by
  cases claim <;> rfl

@[simp] theorem insertAgain_reading (claim : Option ℕ) :
    (insertAgain key value i claim).reading = 1 := by
  cases claim <;> rfl

@[simp] theorem insertAgain_writing (claim : Option ℕ) :
    (insertAgain key value i claim).writing = 0 := by
  cases claim <;> rfl

@[simp] theorem removeAt_reading : (map.removeAt key i).reading = 1 := by
  simp only [removeAt]
  split <;> rfl

@[simp] theorem removeAt_writing : (map.removeAt key i).writing = 0 := by
  simp only [removeAt]
  split <;> rfl

@[simp] theorem getAt_reading (contains : Bool) : (map.getAt key contains i).reading = 1 := by
  simp only [getAt]
  split <;> rfl

@[simp] theorem getAt_writing (contains : Bool) : (map.getAt key contains i).writing = 0 := by
  simp only [getAt]
  split <;> rfl

@[simp] theorem lower_reading (reason : Lower K V) (index : ℕ) (expected : BucketState) :
    (Pc.lower index reason expected).reading = (Pc.lowerLoad index reason).reading := by
  cases reason <;> rfl

theorem lowered_reading (reason : Lower K V) (index : ℕ) :
    (map.lowered reason).reading ≤ (Pc.lowerLoad index reason).reading := by
  cases reason with
  | insertCompared key value i claim same =>
      cases same
      · exact insertAt_reading claim
      · simp [lowered, Pc.reading]
  | guard => exact Nat.le_refl 0
  | _ => simp [lowered, Pc.reading]

@[simp] theorem lowered_writing (reason : Lower K V) : (map.lowered reason).writing = 0 := by
  cases reason with
  | insertCompared key value i claim same => cases same <;> simp [lowered]
  | guard => rfl
  | _ => simp [lowered]

theorem enter_reading {call : Call K V} {progress : Progress K V}
    (entered : map.enter call = some progress) : progress.reading = 1 ∧ progress.writing = 0 := by
  cases call with
  | tryInsert key value =>
      cases entered
      exact ⟨rfl, rfl⟩
  | tryRemove key =>
      cases entered
      exact ⟨removeAt_reading, removeAt_writing⟩
  | tryGet key =>
      cases entered
      exact ⟨getAt_reading false, getAt_writing false⟩
  | tryContains key =>
      cases entered
      exact ⟨getAt_reading true, getAt_writing true⟩
  | tryRehash => contradiction
  | drop index => contradiction

end

/-- The word of the lock as a step passes: the readers, the writer, and that
they exclude each other. -/
structure Locks (map : HashMap K V) (pc : Pc K V) (next : HashMap K V)
    (progress : Progress K V) : Prop where
  readers : map.readers + progress.reading ≤ next.readers + pc.reading
  writer : (if next.writing then 1 else 0) + pc.writing =
    (if map.writing then 1 else 0) + progress.writing
  excludes : (map.writing = true → map.readers = 0) → next.writing = true → next.readers = 0
  taken : progress.writing = 1 → pc.writing = 1 ∨ pc = .tryWriteExchange

variable [DecidableEq K] {hash : K → UInt64} {map next : HashMap K V} {pc : Pc K V}
  {progress : Progress K V} {spurious : Bool}

omit [DecidableEq K] in
theorem Locks.of_same {next : HashMap K V} (readers : next.readers = map.readers)
    (writer : next.writing = map.writing) (reads : progress.reading ≤ pc.reading)
    (writes : progress.writing = pc.writing) : Locks map pc next progress := by
  constructor
  · rw [readers]
    exact Nat.add_le_add_left reads _
  · rw [writer, writes]
  · rw [readers, writer]
    exact id
  · rw [writes]
    exact .inl

theorem resume_locks (held : pc.writing = 1 → map.writing = true)
    (resumed : resume hash map spurious pc = some (next, progress)) :
    Locks map pc next progress := by
  cases pc with
  | tryRead call =>
      simp only [resume] at resumed
      split at resumed <;> cases resumed
      · exact .of_same rfl rfl (Nat.zero_le _) rfl
      · exact .of_same rfl rfl (Nat.le_refl _) rfl
  | tryReadExchange call expected =>
      simp only [resume] at resumed
      split at resumed
      · rename_i free
        simp only [Option.map_eq_some_iff, Prod.mk.injEq] at resumed
        obtain ⟨entered, found, rfl, rfl⟩ := resumed
        obtain ⟨reads, writes⟩ := enter_reading found
        constructor
        · simp [reads, free.2.1, Pc.reading]
        · simp [writes, Pc.writing]
        · intro _ writing
          simp [free.1] at writing
        · simp [writes]
      · cases resumed
        exact .of_same rfl rfl (Nat.le_refl _) rfl
  | unlockRead outcome =>
      cases resumed
      constructor
      · simp only [Progress.reading, Pc.reading]
        omega
      · rfl
      · intro excludes writing
        simp [excludes writing]
      · simp [Progress.writing]
  | tryWrite =>
      simp only [resume] at resumed
      split at resumed <;> cases resumed <;> exact .of_same rfl rfl (Nat.le_refl _) rfl
  | tryWriteExchange =>
      simp only [resume] at resumed
      split at resumed <;> cases resumed
      · exact .of_same rfl rfl (Nat.le_refl _) rfl
      · rename_i free
        simp only [not_or, Bool.not_eq_true, ne_eq, not_not] at free
        constructor
        · exact Nat.le_refl _
        · simp [free.1, Progress.writing, Pc.writing]
        · intro _ _
          exact free.2
        · exact fun _ => .inr rfl
  | unlockWrite =>
      cases resumed
      constructor
      · exact Nat.le_refl _
      · simp [held rfl, Progress.writing, Pc.writing]
      · intro _ writing
        contradiction
      · simp [Progress.writing]
  | lower index reason expected =>
      simp only [resume] at resumed
      split at resumed <;> cases resumed
      · refine .of_same rfl rfl ?_ (lowered_writing reason)
        rw [lower_reading]
        exact lowered_reading reason index
      · refine .of_same rfl rfl ?_ rfl
        rw [lower_reading]
        exact Nat.le_refl _
  | lowerLoad index reason =>
      cases resumed
      refine .of_same rfl rfl ?_ rfl
      rw [Progress.reading, lower_reading]
  | insertStart key value =>
      simp only [resume] at resumed
      split at resumed <;> cases resumed
      · exact .of_same rfl rfl (Nat.le_refl _) rfl
      · exact .of_same rfl rfl (insertAt_reading none) (insertAt_writing none)
  | insertRaise key value i claim refcount =>
      simp only [resume] at resumed
      split at resumed
      · cases resumed
        exact .of_same rfl rfl (Nat.le_refl _) rfl
      · split at resumed <;> cases resumed
        · exact .of_same rfl rfl (insertFail_reading _ claim).le (insertFail_writing _ claim)
        · exact .of_same rfl rfl (insertAgain_reading claim).le (insertAgain_writing claim)
  | insertClaim key value i expected =>
      simp only [resume] at resumed
      split at resumed <;> cases resumed
      · exact .of_same rfl rfl (insertAt_reading _) (insertAt_writing _)
      · exact .of_same rfl rfl (Nat.le_refl _) rfl
  | insertCheck key value i claim =>
      simp only [resume] at resumed
      split at resumed <;> cases resumed
      · exact .of_same rfl rfl (insertAt_reading _) (insertAt_writing _)
      · exact .of_same rfl rfl (Nat.le_refl _) rfl
      · exact .of_same rfl rfl (Nat.le_refl _) rfl
      · exact .of_same rfl rfl (Nat.le_refl _) rfl
      · exact .of_same rfl rfl (Nat.le_refl _) rfl
      · exact .of_same rfl rfl (Nat.le_refl _) rfl
  | removeExchange key i =>
      simp only [resume] at resumed
      split at resumed
      · cases resumed
        exact .of_same rfl rfl (Nat.le_refl _) rfl
      · split at resumed <;> cases resumed
        · exact .of_same rfl rfl (Nat.le_refl _) rfl
        · exact .of_same rfl rfl (Nat.le_refl _) rfl
        · exact .of_same rfl rfl (Nat.le_refl _) rfl
        · exact .of_same rfl rfl (Nat.le_refl _) rfl
        · exact .of_same rfl rfl removeAt_reading.le removeAt_writing
        · exact .of_same rfl rfl removeAt_reading.le removeAt_writing
  | getLoad key contains i =>
      simp only [resume] at resumed
      split at resumed <;> cases resumed
      · exact .of_same rfl rfl (Nat.le_refl _) rfl
      · exact .of_same rfl rfl (Nat.le_refl _) rfl
      · exact .of_same rfl rfl (Nat.le_refl _) rfl
      · exact .of_same rfl rfl (getAt_reading contains).le (getAt_writing contains)
      · exact .of_same rfl rfl (getAt_reading contains).le (getAt_writing contains)
      · exact .of_same rfl rfl (Nat.le_refl _) rfl
  | insertExchange key value i =>
      simp only [resume] at resumed
      split at resumed
      · cases resumed
        exact .of_same rfl rfl (Nat.le_refl _) rfl
      · split at resumed <;> cases resumed <;> exact .of_same rfl rfl (Nat.le_refl _) rfl
  | insertTombstone key value i | removeDrainLoad index | removeDrain index expected
  | removeRaise key i refcount | removeConfirm index | getRaise key contains i refcount
  | rehashWait index fresh =>
      simp only [resume] at resumed
      split at resumed <;> cases resumed <;> exact .of_same rfl rfl (Nat.le_refl _) rfl
  | removeLoad key i | rehashLoad index fresh =>
      simp only [resume] at resumed
      split at resumed
      · first
          | cases resumed
            exact .of_same rfl rfl (Nat.le_refl _) rfl
          | split at resumed <;> cases resumed <;> exact .of_same rfl rfl (Nat.le_refl _) rfl
      · first
          | cases resumed
            exact .of_same rfl rfl (Nat.le_refl _) rfl
          | split at resumed <;> cases resumed <;> exact .of_same rfl rfl (Nat.le_refl _) rfl
  | insertGiveUp claim failure | insertConstruct key value claim | insertCount key claim
  | insertPublish key claim | removeCount index value | removeBury index value
  | rehashSwap fresh =>
      cases resumed
      exact .of_same rfl rfl (Nat.le_refl _) rfl
  | insertCompare key value i claim | removeTake index =>
      simp only [resume, Option.map_eq_some_iff, Prod.mk.injEq] at resumed
      obtain ⟨entry, _, rfl, rfl⟩ := resumed
      exact .of_same rfl rfl (Nat.le_refl _) rfl
  | removeCompare key i =>
      simp only [resume, Option.map_eq_some_iff] at resumed
      obtain ⟨entry, _, compared⟩ := resumed
      split at compared <;> cases compared <;> exact .of_same rfl rfl (Nat.le_refl _) rfl
  | getCompare key contains i =>
      simp only [resume, Option.map_eq_some_iff] at resumed
      obtain ⟨entry, _, compared⟩ := resumed
      split at compared
      · split at compared <;> cases compared <;> exact .of_same rfl rfl (Nat.le_refl _) rfl
      · cases compared
        exact .of_same rfl rfl (Nat.le_refl _) rfl
  | rehashMove index fresh =>
      simp only [resume, Option.map_eq_some_iff] at resumed
      obtain ⟨entry, _, placed⟩ := resumed
      split at placed <;> cases placed <;> exact .of_same rfl rfl (Nat.le_refl _) rfl

end Asco.Concurrency.HashMap
