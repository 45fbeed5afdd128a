import Asco.Sync.ConditionVariable

namespace Asco.Sync

open Foundation

/-! # `semaphore<N>`

A step is one atomic operation on `m_count` or one critical section of the
queue lock of `m_cv`; the loads and the exchange made by a predicate belong to
the critical section that evaluates it.  Waiting in `exp_withdraw` and `yield`
touches no shared state and is left out.
-/

/-- `m_count` and `m_cv`. -/
structure Semaphore (Task : Type*) where
  count : ℕ
  cv : ConditionVariable Task

namespace Semaphore

/-- The number of values of `counter_type`. -/
def counterModulus (N : UInt64) : ℕ := if N.toNat ≤ 255 then 2 ^ 8 else 2 ^ 64

inductive Pc where
  | idle
  | tryAcquireLoad
  | tryAcquireCas (oldc : ℕ)
  | acquireLoad (i : UInt64)
  | acquireCas (i : UInt64) (oldc : ℕ)
  | acquireWait
  | acquireSuspended
  | releaseLoad (n : UInt64)
  | releaseNotify (n : UInt64) (oldc : ℕ)
  | releaseCas (n : UInt64) (oldc : ℕ)
deriving DecidableEq

inductive Call where
  | tryAcquire
  | acquire
  | release (n : UInt64)
deriving DecidableEq

variable {Task : Type*}

/-- `oldc - 1` in `counter_type`. -/
def pred (N : UInt64) (oldc : ℕ) : ℕ := (oldc + (counterModulus N - 1)) % counterModulus N

/-- `N - oldc` is computed in `std::size_t`, its minimum with `n` converted to
`counter_type`. -/
def diff (N n : UInt64) (oldc : ℕ) : ℕ :=
  min n.toNat (N - UInt64.ofNat oldc).toNat % counterModulus N

/-- `oldc + diff` in `counter_type`. -/
def raised (N n : UInt64) (oldc : ℕ) : ℕ := (oldc + diff N n oldc) % counterModulus N

def start : Call → Pc
  | .tryAcquire => .tryAcquireLoad
  | .acquire => .acquireLoad (.ofNat (2 ^ 64 - 1))
  | .release n => .releaseLoad n

/-- The exchange `oldc → next` of `m_count`; a weak one may also fail spuriously. -/
def exchange (semaphore : Semaphore Task) (spurious : Bool) (oldc next : ℕ) :
    Option (Semaphore Task) :=
  if semaphore.count = oldc ∧ spurious = false then some { semaphore with count := next } else none

/-- The next step of the call `task` is in. -/
def resume [DecidableEq Task] (N : UInt64) (task : Task) (semaphore : Semaphore Task)
    (spurious : Bool) : Pc → Option (Semaphore Task × Pc)
  | .idle => none
  | .tryAcquireLoad =>
      if semaphore.count = 0 then some (semaphore, .idle)
      else some (semaphore, .tryAcquireCas semaphore.count)
  | .tryAcquireCas oldc =>
      match exchange semaphore spurious oldc (pred N oldc) with
      | some next => some (next, .idle)
      | none => some (semaphore, .tryAcquireLoad)
  | .acquireLoad i =>
      if semaphore.count = 0 then
        if i + 1 ≤ 100 then some (semaphore, .acquireLoad (i + 1))
        else some (semaphore, .acquireWait)
      else some (semaphore, .acquireCas i semaphore.count)
  | .acquireCas i oldc =>
      match exchange semaphore spurious oldc (pred N oldc) with
      | some next => some (next, .idle)
      | none => some (semaphore, .acquireLoad i)
  | .acquireWait =>
      if semaphore.count = 0 then
        some ({ semaphore with cv := semaphore.cv.suspend task }, .acquireSuspended)
      else some (semaphore, .acquireLoad (.ofNat (2 ^ 64 - 1)))
  | .acquireSuspended =>
      if task ∈ semaphore.cv.waitQueue then none
      else some (semaphore, .acquireLoad (.ofNat (2 ^ 64 - 1)))
  | .releaseLoad n => some (semaphore, .releaseNotify n semaphore.count)
  | .releaseNotify n oldc =>
      if semaphore.cv.waitQueue = [] then some (semaphore, .releaseCas n oldc)
      else
        match exchange semaphore spurious oldc (raised N n oldc) with
        | some next => some ({ next with cv := next.cv.notify (diff N n oldc) }, .idle)
        | none => some (semaphore, .releaseLoad n)
  | .releaseCas n oldc =>
      match exchange semaphore spurious oldc (raised N n oldc) with
      | some next => some (next, .idle)
      | none => some (semaphore, .releaseLoad n)

variable [DecidableEq Task]

def advance (N : UInt64) (task : Task) (semaphore : Semaphore Task) (pc : Pc) :
    Choice Call → Option (Semaphore Task × Pc)
  | .call call => if pc = .idle then some (semaphore, start call) else none
  | .step spurious => resume N task semaphore spurious pc

def program (N : UInt64) (Task : Type*) [DecidableEq Task] :
    Program Task (Semaphore Task) Pc (Choice Call) where
  advance := advance N

/-- The constructor. -/
def fresh (N count : UInt64) (Task : Type*) : Pool Task (Semaphore Task) Pc where
  shared := { count := min N.toNat count.toNat, cv := .empty }
  locals _ := .idle

def machine (N : UInt64) (Task : Type*) [DecidableEq Task] :
    Machine (Pool Task (Semaphore Task) Pc) (Task × Choice Call) :=
  (program N Task).machine fun pool => ∃ count, pool = fresh N count Task

/-- No call is mid-way: every task is outside or suspended in the queue. -/
def Settled (pool : Pool Task (Semaphore Task) Pc) : Prop :=
  ∀ task, pool.locals task = .idle ∨
    pool.locals task = .acquireSuspended ∧ task ∈ pool.shared.cv.waitQueue

instance [Fintype Task] : DecidablePred (@Settled Task) :=
  fun _ => inferInstanceAs (Decidable (∀ _, _))

/-- No permit lies unused beside a suspended task. -/
def NoLostWakeUp (pool : Pool Task (Semaphore Task) Pc) : Prop :=
  Settled pool → 0 < pool.shared.count → pool.shared.cv.waitQueue = []

/-- The exchange on the `no_waiters` branch of `release` fails, publishes
nothing or finds the queue still empty. -/
def stillNoWaiters (N : UInt64) (semaphore : Semaphore Task) : Pc → Bool
  | .releaseCas n oldc =>
      semaphore.count != oldc || semaphore.cv.waitQueue.isEmpty || diff N n oldc == 0
  | _ => true

def StillNoWaiters (N : UInt64) (pool : Pool Task (Semaphore Task) Pc)
    (label : Task × Choice Call) : Prop :=
  label.2 = .step false → stillNoWaiters N pool.shared (pool.locals label.1)

instance (N : UInt64) : DecidableRel (@StillNoWaiters Task N) :=
  fun _ _ => inferInstanceAs (Decidable (_ → _))

/-! ## The counter does not wrap -/

variable {N n : UInt64} {oldc : ℕ}

theorem limit_lt_modulus : N.toNat < counterModulus N := by
  have fits := N.toNat_lt
  simp only [counterModulus]
  split <;> omega

theorem pred_eq (bounded : oldc ≤ N.toNat) (available : oldc ≠ 0) : pred N oldc = oldc - 1 := by
  have fits := limit_lt_modulus (N := N)
  have wrapped : oldc + (counterModulus N - 1) = oldc - 1 + counterModulus N := by omega
  rw [pred, wrapped, Nat.add_mod_right, Nat.mod_eq_of_lt (by omega)]

theorem diff_eq (bounded : oldc ≤ N.toNat) : diff N n oldc = min n.toNat (N.toNat - oldc) := by
  have fits := limit_lt_modulus (N := N)
  have small : oldc < 2 ^ 64 := bounded.trans_lt N.toNat_lt
  have room : (N - UInt64.ofNat oldc).toNat = N.toNat - oldc := by
    rw [UInt64.toNat_sub_of_le, UInt64.toNat_ofNat_of_lt' small]
    rw [UInt64.le_iff_toNat_le, UInt64.toNat_ofNat_of_lt' small]
    exact bounded
  rw [diff, room, Nat.mod_eq_of_lt (by omega)]

theorem raised_eq (bounded : oldc ≤ N.toNat) : raised N n oldc = oldc + diff N n oldc := by
  have fits := limit_lt_modulus (N := N)
  have added := diff_eq (n := n) bounded
  rw [raised, Nat.mod_eq_of_lt (by omega)]

theorem raised_le (bounded : oldc ≤ N.toNat) : raised N n oldc ≤ N.toNat := by
  have added := diff_eq (n := n) bounded
  rw [raised_eq bounded]
  omega

/-- The count a task carries into an exchange. -/
def Carried (N : UInt64) : Pc → Prop
  | .tryAcquireCas oldc | .acquireCas _ oldc => oldc ≤ N.toNat ∧ oldc ≠ 0
  | .releaseNotify _ oldc | .releaseCas _ oldc => oldc ≤ N.toNat
  | _ => True

/-- The calls that may still take a permit. -/
def acquiring : Pc → ℕ
  | .acquireLoad _ | .acquireCas _ _ | .acquireWait | .acquireSuspended => 1
  | _ => 0

@[simp] theorem acquiring_idle : acquiring .idle = 0 := rfl

@[simp] theorem acquiring_tryAcquireCas {oldc : ℕ} : acquiring (.tryAcquireCas oldc) = 0 := rfl

@[simp] theorem acquiring_acquireLoad {i : UInt64} : acquiring (.acquireLoad i) = 1 := rfl

@[simp] theorem acquiring_acquireCas {i : UInt64} {oldc : ℕ} :
    acquiring (.acquireCas i oldc) = 1 := rfl

@[simp] theorem acquiring_acquireSuspended : acquiring .acquireSuspended = 1 := rfl

@[simp] theorem acquiring_releaseLoad {n : UInt64} : acquiring (.releaseLoad n) = 0 := rfl

@[simp] theorem acquiring_releaseNotify {n : UInt64} {oldc : ℕ} :
    acquiring (.releaseNotify n oldc) = 0 := rfl

@[simp] theorem acquiring_releaseCas {n : UInt64} {oldc : ℕ} :
    acquiring (.releaseCas n oldc) = 0 := rfl

/-- What a step does to the counter and the queue.  Permits appear beside a
nonempty queue only when as many tasks are woken. -/
inductive Effect (task : Task) (before : Semaphore Task) (pc : Pc) :
    Semaphore Task → Pc → Prop where
  | counts {count : ℕ} {finish : Pc}
      (awake : pc = .acquireSuspended → task ∉ before.cv.waitQueue)
      (covered : before.cv.waitQueue = [] ∨
        count + acquiring pc ≤ before.count + acquiring finish) :
      Effect task before pc { before with count } finish
  | suspends (waits : pc = .acquireWait) (unavailable : before.count = 0) :
      Effect task before pc { before with cv := before.cv.suspend task } .acquireSuspended
  | notifies {woken : ℕ} {n : UInt64} {oldc : ℕ} (releases : pc = .releaseNotify n oldc) :
      Effect task before pc { count := before.count + woken, cv := before.cv.notify woken } .idle

variable {semaphore next : Semaphore Task} {task : Task} {pc finish : Pc} {spurious : Bool}

omit [DecidableEq Task] in
theorem exchange_eq_some {new : ℕ} (exchanged : exchange semaphore spurious oldc new = some next) :
    semaphore.count = oldc ∧ spurious = false ∧ next = { semaphore with count := new } := by
  simp only [exchange] at exchanged
  split at exchanged
  · rename_i same
    cases exchanged
    exact ⟨same.1, same.2, rfl⟩
  · contradiction

omit [DecidableEq Task] in
theorem Effect.of_same (awake : pc = .acquireSuspended → task ∉ semaphore.cv.waitQueue)
    (acquires : acquiring pc = acquiring finish) : Effect task semaphore pc semaphore finish :=
  .counts awake (.inr (by omega))

theorem resume_effect (carried : Carried N pc)
    (noWaiters : ∀ n oldc, pc = .releaseCas n oldc → spurious = false → semaphore.count = oldc →
      semaphore.cv.waitQueue = [] ∨ diff N n oldc = 0)
    (resumed : resume N task semaphore spurious pc = some (next, finish)) :
    Effect task semaphore pc next finish := by
  cases pc with
  | idle => contradiction
  | tryAcquireLoad =>
      simp only [resume] at resumed
      split at resumed <;> cases resumed
      · exact .of_same (by simp) rfl
      · exact .of_same (by simp) rfl
  | tryAcquireCas oldc =>
      simp only [resume] at resumed
      split at resumed <;> cases resumed
      · rename_i exchanged
        obtain ⟨rfl, _, rfl⟩ := exchange_eq_some exchanged
        refine .counts (by simp) (.inr ?_)
        have taken := pred_eq carried.1 carried.2
        simp only [acquiring_tryAcquireCas, acquiring_idle]
        omega
      · exact .of_same (by simp) rfl
  | acquireLoad i =>
      simp only [resume] at resumed
      split at resumed
      · split at resumed <;> cases resumed
        · exact .of_same (by simp) rfl
        · exact .of_same (by simp) rfl
      · cases resumed
        exact .of_same (by simp) rfl
  | acquireCas i oldc =>
      simp only [resume] at resumed
      split at resumed <;> cases resumed
      · rename_i exchanged
        obtain ⟨rfl, _, rfl⟩ := exchange_eq_some exchanged
        refine .counts (by simp) (.inr ?_)
        have taken := pred_eq carried.1 carried.2
        have available := carried.2
        simp only [acquiring_acquireCas, acquiring_idle]
        omega
      · exact .of_same (by simp) rfl
  | acquireWait =>
      simp only [resume] at resumed
      split at resumed <;> cases resumed
      · rename_i unavailable
        exact .suspends rfl unavailable
      · exact .of_same (by simp) rfl
  | acquireSuspended =>
      simp only [resume] at resumed
      split at resumed
      · contradiction
      · rename_i awake
        cases resumed
        exact .of_same (fun _ => awake) rfl
  | releaseLoad n =>
      cases resumed
      exact .of_same (by simp) rfl
  | releaseNotify n oldc =>
      simp only [resume] at resumed
      split at resumed
      · cases resumed
        exact .of_same (by simp) rfl
      · split at resumed <;> cases resumed
        · rename_i exchanged
          obtain ⟨rfl, _, rfl⟩ := exchange_eq_some exchanged
          rw [raised_eq carried]
          exact .notifies rfl
        · exact .of_same (by simp) rfl
  | releaseCas n oldc =>
      simp only [resume] at resumed
      split at resumed <;> cases resumed
      · rename_i exchanged
        obtain ⟨same, certain, rfl⟩ := exchange_eq_some exchanged
        refine .counts (by simp) ?_
        rcases noWaiters n oldc rfl certain same with empty | nothing
        · exact .inl empty
        · have unchanged := raised_eq (n := n) carried
          exact .inr (by simp only [acquiring_releaseCas, acquiring_idle]; omega)
      · exact .of_same (by simp) rfl

theorem resume_bounded (bounded : semaphore.count ≤ N.toNat) (carried : Carried N pc)
    (resumed : resume N task semaphore spurious pc = some (next, finish)) :
    next.count ≤ N.toNat ∧ Carried N finish := by
  cases pc with
  | idle => contradiction
  | tryAcquireLoad =>
      simp only [resume] at resumed
      split at resumed <;> cases resumed
      · exact ⟨bounded, trivial⟩
      · rename_i available
        exact ⟨bounded, bounded, available⟩
  | tryAcquireCas oldc | acquireCas i oldc =>
      simp only [resume] at resumed
      split at resumed <;> cases resumed
      · rename_i exchanged
        obtain ⟨_, _, rfl⟩ := exchange_eq_some exchanged
        have taken := pred_eq carried.1 carried.2
        have below := carried.1
        exact ⟨by simp only; omega, trivial⟩
      · exact ⟨bounded, trivial⟩
  | acquireLoad i =>
      simp only [resume] at resumed
      split at resumed
      · split at resumed <;> cases resumed
        · exact ⟨bounded, trivial⟩
        · exact ⟨bounded, trivial⟩
      · rename_i available
        cases resumed
        exact ⟨bounded, bounded, available⟩
  | acquireWait =>
      simp only [resume] at resumed
      split at resumed <;> cases resumed
      · exact ⟨bounded, trivial⟩
      · exact ⟨bounded, trivial⟩
  | acquireSuspended =>
      simp only [resume] at resumed
      split at resumed
      · contradiction
      · cases resumed
        exact ⟨bounded, trivial⟩
  | releaseLoad n =>
      cases resumed
      exact ⟨bounded, bounded⟩
  | releaseNotify n oldc =>
      simp only [resume] at resumed
      split at resumed
      · cases resumed
        exact ⟨bounded, carried⟩
      · split at resumed <;> cases resumed
        · rename_i exchanged
          obtain ⟨_, _, rfl⟩ := exchange_eq_some exchanged
          exact ⟨raised_le carried, trivial⟩
        · exact ⟨bounded, trivial⟩
  | releaseCas n oldc =>
      simp only [resume] at resumed
      split at resumed <;> cases resumed
      · rename_i exchanged
        obtain ⟨_, _, rfl⟩ := exchange_eq_some exchanged
        exact ⟨raised_le carried, trivial⟩
      · exact ⟨bounded, trivial⟩

/-! ## Wake-ups -/

variable {pool : Pool Task (Semaphore Task) Pc}

/-- The counter stays within the limit in every run. -/
def Bounded (N : UInt64) (pool : Pool Task (Semaphore Task) Pc) : Prop :=
  pool.shared.count ≤ N.toNat ∧ ∀ task, Carried N (pool.locals task)

theorem Bounded.move {label : Task × Choice Call} {after : Pool Task (Semaphore Task) Pc}
    (holds : Bounded N pool) (moved : (machine N Task).move pool label = some after) :
    Bounded N after := by
  obtain ⟨task, choice⟩ := label
  obtain ⟨shared, finish, advanced, rfl⟩ := Program.move_eq_some.mp moved
  obtain ⟨bounded, carried⟩ := holds
  have stepped : shared.count ≤ N.toNat ∧ Carried N finish := by
    cases choice with
    | call call =>
        simp only [program, advance] at advanced
        split at advanced
        · cases advanced
          exact ⟨bounded, by cases call <;> trivial⟩
        · contradiction
    | step spurious => exact resume_bounded bounded (carried task) advanced
  refine ⟨stepped.1, ?_⟩
  rw [Function.forall_update_iff]
  exact ⟨stepped.2, fun other _ => carried other⟩

omit [DecidableEq Task] in
theorem bounded_fresh (N count : UInt64) : Bounded N (fresh N count Task) :=
  ⟨Nat.min_le_left _ _, fun _ => trivial⟩

theorem bounded_of_reachable {guard : Pool Task (Semaphore Task) Pc → Task × Choice Call → Prop}
    (reachable : (machine N Task).Reachable guard pool) : Bounded N pool := by
  refine reachable.invariant ?_ ?_
  · rintro first ⟨count, rfl⟩
    exact bounded_fresh N count
  · intro pool label next holds _ moved
    exact holds.move moved

variable [Fintype Task]

/-- While tasks are queued, every permit has an acquiring task that is awake. -/
structure Attended (pool : Pool Task (Semaphore Task) Pc) : Prop where
  parked : pool.shared.cv.Parked (· = .acquireSuspended) pool.locals
  covered : pool.shared.cv.waitQueue ≠ [] →
    pool.shared.count + pool.shared.cv.waitQueue.length ≤ tally acquiring pool.locals

theorem Attended.effect (attended : Attended pool)
    (effect : Effect task pool.shared (pool.locals task) next finish) :
    Attended { shared := next, locals := Function.update pool.locals task finish } := by
  obtain ⟨parked, covered⟩ := attended
  have counted := tally_update acquiring pool.locals task finish
  generalize standing : pool.locals task = pc at effect counted
  cases effect with
  | counts awake covers =>
      have outside : task ∉ pool.shared.cv.waitQueue := by
        by_cases suspended : pool.locals task = .acquireSuspended
        · exact awake (standing.symm.trans suspended)
        · exact parked.absent suspended
      refine ⟨parked.move outside, fun nonempty => ?_⟩
      rcases covers with empty | covers
      · exact absurd empty nonempty
      · have before := covered nonempty
        simp only
        omega
  | suspends waits unavailable =>
      have awake : pool.locals task ≠ .acquireSuspended := by simp [standing, waits]
      have suspended := parked.suspend awake rfl
      refine ⟨suspended, fun _ => ?_⟩
      simp only [unavailable, Nat.zero_add]
      refine length_le_tally suspended.distinct fun other member => ?_
      rw [suspended.suspended other member]
      exact Nat.le_refl 1
  | @notifies woken n oldc releases =>
      have outside : task ∉ pool.shared.cv.waitQueue := parked.absent (by simp [standing, releases])
      refine ⟨(parked.move outside).notify woken, fun nonempty => ?_⟩
      have remaining : woken < pool.shared.cv.waitQueue.length := by
        simpa [List.drop_eq_nil_iff] using nonempty
      have before := covered (by rintro empty; simp [empty] at remaining)
      have lengthLeft : (pool.shared.cv.notify woken).waitQueue.length =
          pool.shared.cv.waitQueue.length - woken := List.length_drop
      simp only [releases, acquiring_releaseNotify, acquiring_idle] at counted
      simp only [lengthLeft]
      omega

theorem attended_of_reachable
    (reachable : (machine N Task).Reachable (StillNoWaiters N) pool) : Attended pool := by
  refine Program.invariant_of_known reachable (fun _ => bounded_of_reachable) ?_ ?_
  · rintro first ⟨count, rfl⟩
    exact ⟨.of_empty, by simp [fresh]⟩
  · intro pool task choice shared finish bounded attended allowed advanced
    refine attended.effect ?_
    cases choice with
    | call call =>
        simp only [program, advance] at advanced
        split at advanced
        · rename_i outside
          cases advanced
          rw [outside]
          exact .counts (by simp) (.inr (by simp))
        · contradiction
    | step spurious =>
        refine resume_effect (bounded.2 task) ?_ advanced
        intro n oldc standing certain same
        subst certain
        have still := allowed rfl
        simp only [standing, stillNoWaiters, same, bne_self_eq_false, Bool.false_or,
          Bool.or_eq_true, List.isEmpty_iff, beq_iff_eq] at still
        exact still

theorem noLostWakeUp_of_stillNoWaiters
    (reachable : (machine N Task).Reachable (StillNoWaiters N) pool) : NoLostWakeUp pool := by
  intro settled available
  obtain ⟨_, covered⟩ := attended_of_reachable reachable
  by_contra nonempty
  have attended := covered nonempty
  have waiting : tally acquiring pool.locals ≤ pool.shared.cv.waitQueue.length := by
    refine tally_le_length ?_ ?_
    · intro task
      rcases settled task with idle | ⟨suspended, _⟩
      · simp [idle]
      · simp [suspended]
    · intro task acquires
      rcases settled task with idle | ⟨_, queued⟩
      · simp [idle] at acquires
      · exact queued
  omega

/-- A task acquires, finds no permit and spins until it is about to queue itself. -/
def spins : List (Fin 2 × Choice Call) :=
  (0, .call .acquire) :: List.replicate 102 (0, .step false)

set_option maxRecDepth 2000 in
/-- A release wakes the queued task, which acquires; a second release leaves a
permit. -/
theorem noLostWakeUp_of_stillNoWaiters_handOver :
    ∃ pool : Pool (Fin 2) (Semaphore (Fin 2)) Pc,
      (machine 1 (Fin 2)).Reachable (StillNoWaiters 1) pool ∧
        (Settled pool ∧ pool.shared.count = 1) ∧ NoLostWakeUp pool := by
  obtain ⟨pool, reachable, settled⟩ :=
    Machine.reachable_of_exec (machine 1 (Fin 2)) (StillNoWaiters 1) (fresh 1 0 (Fin 2))
      (List.flatten
        [spins,
          [(0, .step false), (1, .call (.release 1))],
          List.replicate 2 (1, .step false),
          List.replicate 3 (0, .step false),
          (1, .call (.release 1)) :: List.replicate 3 (1, .step false)])
      (fun pool => Settled pool ∧ pool.shared.count = 1)
      ⟨0, rfl⟩ ⟨_, rfl, by decide, by decide⟩
  exact ⟨pool, reachable, settled, noLostWakeUp_of_stillNoWaiters reachable⟩

set_option maxRecDepth 2000 in
/-- The task queues itself between the emptiness test of a release and the
exchange that publishes the permit. -/
theorem permit_beside_suspended_task :
    ∃ pool : Pool (Fin 2) (Semaphore (Fin 2)) Pc,
      (machine 1 (Fin 2)).Reachable Machine.free pool ∧ ¬ NoLostWakeUp pool := by
  refine Machine.reachable_of_exec (machine 1 (Fin 2)) Machine.free (fresh 1 0 (Fin 2))
    (List.flatten
      [spins,
        (1, .call (.release 1)) :: List.replicate 2 (1, .step false),
        [(0, .step false), (1, .step false)]])
    (fun pool => ¬ NoLostWakeUp pool) ⟨0, rfl⟩ ⟨_, rfl, ?_⟩
  intro noLostWakeUp
  have empty := noLostWakeUp (by decide) (by decide)
  exact absurd empty (by decide)

end Semaphore

end Asco.Sync
