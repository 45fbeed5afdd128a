import Asco.Sync.SpinLock

namespace Asco.Sync.SpinLock

open Foundation

/-! # Critical sections one after another -/

variable {Thread Slot T : Type*}

/-! ## What a thread holds -/

section

variable [Fintype Slot]

/-- The guards with the lock, the one that `lock` or `try_lock` returns included. -/
def Local.named (place : Local Slot T) : ℕ :=
  tally Bool.toNat place.guards +
    match place.pc with
    | .placing _ (.made true) => 1
    | _ => 0

/-- Also, a lock that has no guard yet or no guard any more. -/
def Local.held (place : Local Slot T) : ℕ :=
  tally Bool.toNat place.guards +
    match place.pc with
    | .naming _ | .placing _ (.made true) => 1
    | .unlocking _ (.made true) => 2
    | .unlocking _ _ => 1
    | _ => 0

theorem named_le_held (place : Local Slot T) : place.named ≤ place.held := by
  obtain ⟨guards, pc⟩ := place
  unfold Local.named Local.held
  cases pc with
  | placing target origin =>
      cases origin with
      | made lock => cases lock <;> simp
      | slot source => simp
  | _ => simp

theorem named_pos {place : Local Slot T} {slot : Slot} (holds : place.guards slot = true) :
    0 < place.named := by
  have counted : (place.guards slot).toNat ≤ tally Bool.toNat place.guards := weight_le_tally slot
  rw [holds] at counted
  exact Nat.lt_of_lt_of_le Nat.zero_lt_one (counted.trans (Nat.le_add_right _ _))

variable [DecidableEq Slot]

theorem tally_release {guards : Slot → Bool} {target : Slot} (holds : guards target = true) :
    tally Bool.toNat (Function.update guards target false) + 1 = tally Bool.toNat guards := by
  have update := tally_update Bool.toNat guards target false
  rw [holds] at update
  exact update

/-- The slot takes the guard when it is empty. -/
theorem tally_place {guards : Slot → Bool} {target : Slot} (empty : guards target = false)
    (origin : Origin Slot) :
    tally Bool.toNat (origin.place guards target) = tally Bool.toNat guards +
      match origin with
      | .made true => 1
      | _ => 0 := by
  cases origin with
  | made lock =>
      have update := tally_update Bool.toNat guards target lock
      rw [empty] at update
      cases lock <;> simpa [Origin.place] using update
  | slot source =>
      have first := tally_update Bool.toNat guards target (guards source)
      have second := tally_update Bool.toNat
        (Function.update guards target (guards source)) source false
      simp only [Origin.place]
      by_cases same : source = target
      · subst same
        simp only [Function.update_self, empty, Bool.toNat_false] at first second ⊢
        omega
      · simp only [Function.update_of_ne same, empty, Bool.toNat_false] at first second
        omega

end

section

variable [Fintype Thread] [Fintype Slot]

structure Invariant (original : T) (pool : Pool Thread (SpinLock Thread T) (Local Slot T)) :
    Prop where
  exclusive : tally Local.held pool.locals = pool.shared.locked.toNat
  lockerId : ∀ thread, pool.shared.lockerId = some thread ↔ 0 < (pool.locals thread).named
  accessed : ∀ thread slot seen, (pool.locals thread).pc = .accessed slot seen →
    (pool.locals thread).guards slot = true ∧ seen = pool.shared.value
  folded : pool.shared.value =
    pool.shared.updates.foldl (fun value update => update value) original

variable {original : T} {pool : Pool Thread (SpinLock Thread T) (Local Slot T)}
  {thread other : Thread}

theorem Invariant.alone (invariant : Invariant original pool)
    (first : 0 < (pool.locals thread).held) (second : 0 < (pool.locals other).held) :
    thread = other := by
  by_contra apart
  have both : [thread, other].length ≤ tally Local.held pool.locals :=
    length_le_tally (by simpa using apart) (by simp; omega)
  have bounded := Bool.toNat_le pool.shared.locked
  rw [invariant.exclusive] at both
  simp only [List.length_cons, List.length_nil] at both
  omega

theorem Invariant.held_le (invariant : Invariant original pool) (thread : Thread) :
    (pool.locals thread).held ≤ pool.shared.locked.toNat := by
  rw [← invariant.exclusive]
  exact weight_le_tally thread

theorem Invariant.initial (value : T) : Invariant value (unlocked Thread Slot value) := by
  refine ⟨?_, fun thread => ?_, by simp [unlocked], rfl⟩
  · simp [unlocked, tally, Local.held]
  · simp [unlocked, tally, Local.named]

variable [DecidableEq Thread]

/-- A step that leaves the value as it is. -/
theorem Invariant.local (invariant : Invariant original pool) {locked : Bool}
    {lockerId : Option Thread} {finish : Local Slot T}
    (held : finish.held + pool.shared.locked.toNat = (pool.locals thread).held + locked.toNat)
    (names : lockerId = some thread ↔ 0 < finish.named)
    (others : ∀ other, other ≠ thread →
      (lockerId = some other ↔ pool.shared.lockerId = some other))
    (accesses : ∀ slot seen, finish.pc = .accessed slot seen →
      finish.guards slot = true ∧ seen = pool.shared.value) :
    Invariant original
      { shared := { pool.shared with locked, lockerId }
        locals := Function.update pool.locals thread finish } := by
  obtain ⟨exclusive, lockers, accessed, folded⟩ := invariant
  refine ⟨?_, fun other => ?_, fun other slot seen reads => ?_, folded⟩
  · have update := tally_update Local.held pool.locals thread finish
    simp only
    omega
  · by_cases same : other = thread
    · subst same
      simpa using names
    · simpa [same] using (others other same).trans (lockers other)
  · by_cases same : other = thread
    · subst same
      simp only [Function.update_self] at reads ⊢
      exact accesses slot seen reads
    · simp only [Function.update_of_ne same] at reads ⊢
      exact accessed other slot seen reads

omit [DecidableEq Thread] in
/-- Nobody else has a guard when the thread holds the lock. -/
theorem Invariant.unnamed (invariant : Invariant original pool)
    (holds : 0 < (pool.locals thread).held) (apart : other ≠ thread) :
    pool.shared.lockerId ≠ some other := by
  intro named
  have positive := ((invariant.lockerId other).mp named).trans_le (named_le_held _)
  exact apart (invariant.alone positive holds)

variable [DecidableEq Slot] {shared : SpinLock Thread T} {guards : Slot → Bool}
  {finish : Local Slot T}

theorem Invariant.start (invariant : Invariant original pool) {call : Call Slot}
    (place : pool.locals thread = ⟨guards, .idle⟩)
    (started : SpinLock.start pool.shared guards call = some (shared, finish)) :
    Invariant original { shared, locals := Function.update pool.locals thread finish } := by
  have lockerId := invariant.lockerId thread
  rw [place] at lockerId
  cases call with
  | lock target | tryLock target | destroy slot =>
      cases started
      exact invariant.local (by simp [place, Local.held]) lockerId (fun _ _ => Iff.rfl) (by simp)
  | move source target =>
      simp only [SpinLock.start] at started
      split at started
      all_goals
        cases started
        exact invariant.local (by simp [place, Local.held]) lockerId (fun _ _ => Iff.rfl) (by simp)
  | access slot =>
      obtain ⟨holds, started⟩ := Option.ite_none_right_eq_some.mp started
      cases started
      refine invariant.local (by simp [place, Local.held]) lockerId (fun _ _ => Iff.rfl) ?_
      rintro _ _ ⟨⟩
      exact ⟨holds, rfl⟩

theorem Invariant.resume (invariant : Invariant original pool) {spurious : Bool} {pc : Pc Slot T}
    (place : pool.locals thread = ⟨guards, pc⟩)
    (stepped : SpinLock.resume thread pool.shared guards spurious pc = some (shared, finish)) :
    Invariant original { shared, locals := Function.update pool.locals thread finish } := by
  have lockerId := invariant.lockerId thread
  have bounded := invariant.held_le thread
  have bit := Bool.toNat_le pool.shared.locked
  rw [place] at lockerId bounded
  cases pc with
  | idle => cases stepped
  | locking target =>
      simp only [SpinLock.resume] at stepped
      split at stepped
      · cases stepped
        exact invariant.local (by simp [place]) lockerId (fun _ _ => Iff.rfl) (by simp)
      · rename_i free
        simp only [Bool.or_eq_true, not_or, Bool.not_eq_true] at free
        cases stepped
        exact invariant.local (by simp [place, Local.held, free.1]) lockerId (fun _ _ => Iff.rfl)
          (by simp)
  | trying target =>
      simp only [SpinLock.resume] at stepped
      split at stepped
      · cases stepped
        exact invariant.local (by simp [place, Local.held]) lockerId (fun _ _ => Iff.rfl) (by simp)
      · rename_i free
        cases stepped
        exact invariant.local (by simp [place, Local.held, free]) lockerId (fun _ _ => Iff.rfl)
          (by simp)
  | naming target =>
      cases stepped
      refine invariant.local (by simp [place, Local.held]) (by simp [Local.named]) ?_ (by simp)
      intro other apart
      have unnamed := invariant.unnamed (by simp [place, Local.held]) apart
      simp [unnamed, apart.symm]
  | placing target origin =>
      simp only [SpinLock.resume] at stepped
      split at stepped
      · rename_i holds
        cases stepped
        have released := tally_release holds
        refine invariant.local ?_ ?_ ?_ (by simp)
        · cases origin with
          | made lock => cases lock <;> simp only [place, Local.held] <;> omega
          | slot source => simp only [place, Local.held]; omega
        · simp only [Local.held] at bounded
          simp only [Local.named, reduceCtorEq, false_iff]
          omega
        · intro other apart
          have holding : 0 < (pool.locals thread).held := by
            simp only [place, Local.held]
            omega
          simp [invariant.unnamed holding apart]
      · rename_i empty
        cases stepped
        have placed := tally_place (by simpa using empty) origin
        refine invariant.local ?_ ?_ (fun _ _ => Iff.rfl) (by simp)
        · simp only [place, Local.held, placed]
          cases origin with
          | made lock => cases lock <;> rfl
          | slot source => rfl
        · rw [lockerId]
          simp only [Local.named, placed]
          cases origin with
          | made lock => cases lock <;> rfl
          | slot source => rfl
  | unlocking target origin =>
      cases stepped
      cases origin with
      | made lock =>
          cases lock with
          | true =>
              simp only [Local.held] at bounded
              omega
          | false =>
              simp only [Local.held] at bounded
              refine invariant.local ?_ lockerId (fun _ _ => Iff.rfl) (by simp)
              simp only [place, Local.held, Bool.toNat_false]
              omega
      | slot source =>
          simp only [Local.held] at bounded
          refine invariant.local ?_ lockerId (fun _ _ => Iff.rfl) (by simp)
          simp only [place, Local.held, Bool.toNat_false]
          omega
  | accessed slot seen =>
      cases stepped
      exact invariant.local (by simp [place, Local.held]) lockerId (fun _ _ => Iff.rfl) (by simp)

omit [DecidableEq Slot] in
/-- Nobody reads or writes the value between the read of a thread and its write. -/
theorem Invariant.store (invariant : Invariant original pool) {slot : Slot} {seen : T}
    (place : pool.locals thread = ⟨guards, .accessed slot seen⟩) (update : T → T) :
    Invariant original
      { shared := { pool.shared with
          value := update seen, updates := pool.shared.updates ++ [update] }
        locals := Function.update pool.locals thread ⟨guards, .idle⟩ } := by
  obtain ⟨holds, same⟩ := invariant.accessed thread slot seen (by rw [place])
  have holding : 0 < (pool.locals thread).held := (named_pos holds).trans_le (named_le_held _)
  have apart (other : Thread) (different : other ≠ thread) (slot : Slot) (seen : T) :
      (pool.locals other).pc ≠ .accessed slot seen := by
    intro reads
    have guarded := (invariant.accessed other slot seen reads).1
    exact different (invariant.alone ((named_pos guarded).trans_le (named_le_held _)) holding)
  obtain ⟨exclusive, lockerId, _, folded⟩ := invariant
  refine ⟨?_, fun other => ?_, fun other slot seen reads => ?_, ?_⟩
  · have moved := tally_update Local.held pool.locals thread ⟨guards, .idle⟩
    simp only [place, Local.held] at moved
    simp only [← exclusive]
    omega
  · by_cases own : other = thread
    · subst own
      simpa [place, Local.named] using lockerId other
    · simpa [own] using lockerId other
  · by_cases own : other = thread
    · subst own
      simp at reads
    · simp only [Function.update_of_ne own] at reads
      exact absurd reads (apart other own slot seen)
  · simp [same, folded]

theorem invariant_of_reachable {value : T}
    (reachable : (machine Thread Slot value).Reachable Machine.free pool) :
    Invariant value pool := by
  refine Program.invariant reachable (fun first started => started ▸ .initial value) ?_
  intro pool thread label shared finish invariant _ advanced
  cases place : pool.locals thread with
  | mk guards pc =>
      rw [place] at advanced
      cases label with
      | call call =>
          cases pc with
          | idle => exact invariant.start place advanced
          | _ => cases advanced
      | step spurious => exact invariant.resume place advanced
      | store update =>
          cases pc with
          | accessed slot seen =>
              cases advanced
              exact invariant.store place update
          | _ => cases advanced

/-- There is one guard with the lock at most, the lock is taken if and only if a thread has it,
and `m_locker_id` is the thread whose guard it is.  The accesses through guards do not
interleave: what a thread has read is the value until it writes, and the value is what the
updates have made of the first one, one after another. -/
theorem serial_of_reachable {value : T}
    (reachable : (machine Thread Slot value).Reachable Machine.free pool) :
    (∀ thread other slot second, (pool.locals thread).guards slot = true →
      (pool.locals other).guards second = true → thread = other ∧ slot = second) ∧
    (pool.shared.locked = false ↔ ∀ thread, (pool.locals thread).held = 0) ∧
    (∀ thread slot, (pool.locals thread).guards slot = true →
      pool.shared.lockerId = some thread) ∧
    (∀ thread slot seen, (pool.locals thread).pc = .accessed slot seen →
      seen = pool.shared.value) ∧
    pool.shared.value = pool.shared.updates.foldl (fun value update => update value) value := by
  have invariant := invariant_of_reachable reachable
  refine ⟨?_, ?_, fun thread slot holds => (invariant.lockerId thread).mpr (named_pos holds),
    fun thread slot seen reads => (invariant.accessed thread slot seen reads).2, invariant.folded⟩
  · intro thread other slot second first holds
    have same := invariant.alone ((named_pos first).trans_le (named_le_held _))
      ((named_pos holds).trans_le (named_le_held _))
    subst same
    refine ⟨rfl, ?_⟩
    by_contra apart
    have both : [slot, second].length ≤ tally Bool.toNat (pool.locals thread).guards :=
      length_le_tally (by simpa using apart) (by simp [first, holds])
    have bounded := invariant.held_le thread
    have bit := Bool.toNat_le pool.shared.locked
    simp only [Local.held] at bounded
    simp only [List.length_cons, List.length_nil] at both
    omega
  · rw [← tally_eq_zero, invariant.exclusive]
    simp

end

/-- The first thread reads the value, the second one waits for the lock, and each adds to it. -/
def twoUpdates : List (Fin 2 × Label (Fin 1) ℕ) :=
  [(0, .call (.lock 0)), (0, .step false), (0, .step false), (0, .step false),
    (0, .call (.access 0)), (1, .call (.lock 0)), (1, .step false), (0, .store (· + 2)),
    (0, .call (.destroy 0)), (0, .step false), (0, .step false), (0, .step false),
    (1, .step false), (1, .step false), (1, .step false), (1, .call (.access 0)),
    (1, .store (· * 5))]

theorem serial_of_reachable_twice :
    ∃ pool : Pool (Fin 2) (SpinLock (Fin 2) ℕ) (Local (Fin 1) ℕ), pool.shared.value = 15 ∧
      pool.shared.value = pool.shared.updates.foldl (fun value update => update value) 1 := by
  obtain ⟨pool, reachable, value⟩ :=
    Machine.reachable_of_exec (machine (Fin 2) (Fin 1) 1) Machine.free
      (unlocked (Fin 2) (Fin 1) 1) twoUpdates (fun pool => pool.shared.value = 15) rfl
      ⟨_, rfl, rfl⟩
  exact ⟨pool, value, (serial_of_reachable reachable).2.2.2.2⟩

end Asco.Sync.SpinLock
