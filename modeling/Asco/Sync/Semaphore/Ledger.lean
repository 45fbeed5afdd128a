import Asco.Sync.Semaphore

namespace Asco.Sync.Semaphore

open Foundation

/-! # The permits that calls take and give back -/

/-- What a call answers; `released` carries the value returned by `release`. -/
inductive Outcome where
  | refused
  | acquired
  | released (permits : ℕ)
deriving DecidableEq

variable {Task : Type*}

/-- The answer of a call whose next step is its last one. -/
def outcome (N : UInt64) (semaphore : Semaphore Task) (spurious : Bool) : Pc → Option Outcome
  | .tryAcquireLoad => if semaphore.count = 0 then some .refused else none
  | .tryAcquireCas oldc | .acquireCas _ oldc =>
      (semaphore.exchange spurious oldc (pred N oldc)).map fun _ => .acquired
  | .releaseNotify n oldc =>
      if semaphore.cv.waitQueue = [] then none
      else
        (semaphore.exchange spurious oldc (raised N n oldc)).map fun _ => .released (diff N n oldc)
  | .releaseCas n oldc =>
      (semaphore.exchange spurious oldc (raised N n oldc)).map fun _ => .released (diff N n oldc)
  | _ => none

/-- The permits an answer says were taken. -/
def taken : Option Outcome → ℕ
  | some .acquired => 1
  | _ => 0

/-- The permits an answer says were given back. -/
def given : Option Outcome → ℕ
  | some (.released permits) => permits
  | _ => 0

variable [DecidableEq Task] {N : UInt64} {semaphore next : Semaphore Task} {task : Task}
  {pc finish : Pc} {spurious : Bool}

/-- A call answers in the step that ends it. -/
theorem outcome_isSome (resumed : resume N task semaphore spurious pc = some (next, finish)) :
    (outcome N semaphore spurious pc).isSome ↔ finish = .idle := by
  cases pc with
  | idle => contradiction
  | tryAcquireLoad =>
      simp only [resume] at resumed
      split at resumed
      · rename_i unavailable
        cases resumed
        simp [outcome, unavailable]
      · rename_i available
        cases resumed
        simp [outcome, available]
  | tryAcquireCas oldc | acquireCas i oldc =>
      cases exchanged : semaphore.exchange spurious oldc (pred N oldc) with
      | none =>
          simp only [resume, exchanged] at resumed
          cases resumed
          simp [outcome, exchanged]
      | some after =>
          simp only [resume, exchanged] at resumed
          cases resumed
          simp [outcome, exchanged]
  | acquireLoad i =>
      simp only [resume] at resumed
      split at resumed
      · split at resumed <;> cases resumed <;> simp [outcome]
      · cases resumed
        simp [outcome]
  | acquireWait =>
      simp only [resume] at resumed
      split at resumed <;> cases resumed <;> simp [outcome]
  | acquireSuspended =>
      simp only [resume] at resumed
      split at resumed
      · contradiction
      · cases resumed
        simp [outcome]
  | releaseLoad n =>
      cases resumed
      simp [outcome]
  | releaseNotify n oldc =>
      by_cases empty : semaphore.cv.waitQueue = []
      · simp only [resume, if_pos empty] at resumed
        cases resumed
        simp [outcome, empty]
      · cases exchanged : semaphore.exchange spurious oldc (raised N n oldc) with
        | none =>
            simp only [resume, if_neg empty, exchanged] at resumed
            cases resumed
            simp [outcome, exchanged]
        | some after =>
            simp only [resume, if_neg empty, exchanged] at resumed
            cases resumed
            simp [outcome, empty, exchanged]
  | releaseCas n oldc =>
      cases exchanged : semaphore.exchange spurious oldc (raised N n oldc) with
      | none =>
          simp only [resume, exchanged] at resumed
          cases resumed
          simp [outcome, exchanged]
      | some after =>
          simp only [resume, exchanged] at resumed
          cases resumed
          simp [outcome, exchanged]

omit [DecidableEq Task] in
theorem exchange_pred {oldc : ℕ} (carried : oldc ≤ N.toNat ∧ oldc ≠ 0)
    (exchanged : semaphore.exchange spurious oldc (pred N oldc) = some next) :
    next.count + 1 = semaphore.count := by
  obtain ⟨same, _, changed⟩ := exchange_eq_some exchanged
  have lowered := pred_eq carried.1 carried.2
  have available := carried.2
  rw [changed, same, lowered]
  simp only
  omega

omit [DecidableEq Task] in
theorem exchange_raised {n : UInt64} {oldc : ℕ} (carried : oldc ≤ N.toNat)
    (exchanged : semaphore.exchange spurious oldc (raised N n oldc) = some next) :
    next.count = semaphore.count + diff N n oldc := by
  obtain ⟨same, _, changed⟩ := exchange_eq_some exchanged
  rw [changed, same]
  exact raised_eq carried

/-- The counter changes by what the calls answer. -/
theorem resume_balanced (carried : Carried N pc)
    (resumed : resume N task semaphore spurious pc = some (next, finish)) :
    next.count + taken (outcome N semaphore spurious pc) =
      semaphore.count + given (outcome N semaphore spurious pc) := by
  cases pc with
  | idle => contradiction
  | tryAcquireLoad =>
      simp only [resume] at resumed
      split at resumed
      · rename_i unavailable
        cases resumed
        simp [outcome, unavailable, taken, given]
      · rename_i available
        cases resumed
        simp [outcome, available, taken, given]
  | tryAcquireCas oldc | acquireCas i oldc =>
      cases exchanged : semaphore.exchange spurious oldc (pred N oldc) with
      | none =>
          simp only [resume, exchanged] at resumed
          cases resumed
          simp [outcome, exchanged, taken, given]
      | some after =>
          have lowered := exchange_pred carried exchanged
          simp only [resume, exchanged] at resumed
          cases resumed
          simpa [outcome, exchanged, taken, given] using lowered
  | acquireLoad i =>
      simp only [resume] at resumed
      split at resumed
      · split at resumed <;> cases resumed <;> rfl
      · cases resumed
        rfl
  | acquireWait =>
      simp only [resume] at resumed
      split at resumed <;> cases resumed <;> rfl
  | acquireSuspended =>
      simp only [resume] at resumed
      split at resumed
      · contradiction
      · cases resumed
        rfl
  | releaseLoad n =>
      cases resumed
      rfl
  | releaseNotify n oldc =>
      by_cases empty : semaphore.cv.waitQueue = []
      · simp only [resume, if_pos empty] at resumed
        cases resumed
        simp [outcome, empty, taken, given]
      · cases exchanged : semaphore.exchange spurious oldc (raised N n oldc) with
        | none =>
            simp only [resume, if_neg empty, exchanged] at resumed
            cases resumed
            simp [outcome, exchanged, taken, given]
        | some after =>
            have added := exchange_raised carried exchanged
            simp only [resume, if_neg empty, exchanged] at resumed
            cases resumed
            simpa [outcome, empty, exchanged, taken, given] using added
  | releaseCas n oldc =>
      cases exchanged : semaphore.exchange spurious oldc (raised N n oldc) with
      | none =>
          simp only [resume, exchanged] at resumed
          cases resumed
          simp [outcome, exchanged, taken, given]
      | some after =>
          have added := exchange_raised carried exchanged
          simp only [resume, exchanged] at resumed
          cases resumed
          simpa [outcome, exchanged, taken, given] using added

/-! ## The ledger beside the counter -/

/-- The semaphore, with the successful acquisitions so far and the sum of the
values that `release` has returned. -/
structure Ledger (Task : Type*) where
  semaphore : Semaphore Task
  acquired : ℕ
  returned : ℕ

namespace Ledger

def enter (ledger : Ledger Task) (semaphore : Semaphore Task) (answer : Option Outcome) :
    Ledger Task where
  semaphore := semaphore
  acquired := ledger.acquired + taken answer
  returned := ledger.returned + given answer

/-- The answer given in the next step. -/
def answer (N : UInt64) (ledger : Ledger Task) (pc : Pc) : Choice Call → Option Outcome
  | .call _ => none
  | .step spurious => outcome N ledger.semaphore spurious pc

def advance (N : UInt64) (task : Task) (ledger : Ledger Task) (pc : Pc) (choice : Choice Call) :
    Option (Ledger Task × Pc) :=
  (Semaphore.advance N task ledger.semaphore pc choice).map fun next =>
    (ledger.enter next.1 (ledger.answer N pc choice), next.2)

def program (N : UInt64) (Task : Type*) [DecidableEq Task] :
    Program Task (Ledger Task) Pc (Choice Call) where
  advance := advance N

/-- The constructor, before the first call. -/
def fresh (N count : UInt64) (Task : Type*) : Pool Task (Ledger Task) Pc where
  shared := { semaphore := (Semaphore.fresh N count Task).shared, acquired := 0, returned := 0 }
  locals _ := .idle

def machine (N count : UInt64) (Task : Type*) [DecidableEq Task] :
    Machine (Pool Task (Ledger Task) Pc) (Task × Choice Call) :=
  (program N Task).machine (· = fresh N count Task)

/-- The counter stays within its limit, accounts for every permit, and moves by
exactly what a `release` that is about to return answers; a call answers in the step
that ends it and in no other. -/
structure Conserved (N count : UInt64) (pool : Pool Task (Ledger Task) Pc) : Prop where
  bounded : pool.shared.semaphore.count ≤ N.toNat
  balanced : pool.shared.semaphore.count + pool.shared.acquired =
    min N.toNat count.toNat + pool.shared.returned
  added : ∀ task spurious next finish permits,
    resume N task pool.shared.semaphore spurious (pool.locals task) = some (next, finish) →
      outcome N pool.shared.semaphore spurious (pool.locals task) = some (.released permits) →
        next.count = pool.shared.semaphore.count + permits
  answered : ∀ task spurious next finish,
    resume N task pool.shared.semaphore spurious (pool.locals task) = some (next, finish) →
      ((outcome N pool.shared.semaphore spurious (pool.locals task)).isSome ↔ finish = .idle)

variable {pool : Pool Task (Ledger Task) Pc} {count : UInt64}

/-- The semaphore in a ledger's pool, the ledger closed. -/
def close (pool : Pool Task (Ledger Task) Pc) : Pool Task (Semaphore Task) Pc where
  shared := pool.shared.semaphore
  locals := pool.locals

theorem advance_eq_some {ledger after : Ledger Task} {choice : Choice Call}
    (advanced : advance N task ledger pc choice = some (after, finish)) :
    Semaphore.advance N task ledger.semaphore pc choice = some (after.semaphore, finish) ∧
      after = ledger.enter after.semaphore (ledger.answer N pc choice) := by
  simp only [advance, Option.map_eq_some_iff, Prod.exists, Prod.mk.injEq] at advanced
  obtain ⟨semaphore, next, moved, same, rfl⟩ := advanced
  cases same
  exact ⟨moved, rfl⟩

/-- The ledger only watches. -/
theorem close_reachable (reachable : (machine N count Task).Reachable Machine.free pool) :
    (Semaphore.machine N Task).Reachable Machine.free (close pool) := by
  obtain ⟨first, started, run⟩ := reachable
  induction run with
  | refl =>
      cases started
      exact ⟨_, ⟨count, rfl⟩, .refl _⟩
  | tail _ _ moved ih =>
      obtain ⟨shared, finish, advanced, rfl⟩ := Program.move_eq_some.mp moved
      exact ih.step trivial
        (Program.move_eq_some.mpr ⟨shared.semaphore, finish, (advance_eq_some advanced).1, rfl⟩)

/-- The permits that are there and the ones taken are the first ones and the ones
given back. -/
def Balanced (N count : UInt64) (pool : Pool Task (Ledger Task) Pc) : Prop :=
  pool.shared.semaphore.count + pool.shared.acquired =
    min N.toNat count.toNat + pool.shared.returned

omit [DecidableEq Task] in
theorem enter_balanced {ledger : Ledger Task} {answer : Option Outcome} {total : ℕ}
    (balanced : ledger.semaphore.count + ledger.acquired = total + ledger.returned)
    (moved : next.count + taken answer = ledger.semaphore.count + given answer) :
    (ledger.enter next answer).semaphore.count + (ledger.enter next answer).acquired =
      total + (ledger.enter next answer).returned := by
  simp only [enter]
  omega

theorem balanced_of_reachable (reachable : (machine N count Task).Reachable Machine.free pool) :
    Balanced N count pool := by
  refine Program.invariant_of_known reachable
    (fun _ before => bounded_of_reachable (close_reachable before)) ?_ ?_
  · intro first started
    cases started
    rfl
  · intro pool task choice shared finish bounded balanced _ advanced
    obtain ⟨moved, entered⟩ := advance_eq_some advanced
    rw [Balanced]
    simp only
    rw [entered]
    refine enter_balanced balanced ?_
    cases choice with
    | call call =>
        simp only [Semaphore.advance] at moved
        split at moved
        · simp only [Option.some.injEq, Prod.mk.injEq] at moved
          simp [answer, taken, given, moved.1]
        · contradiction
    | step spurious => exact resume_balanced (bounded.2 task) moved

theorem conserved_of_reachable (reachable : (machine N count Task).Reachable Machine.free pool) :
    Conserved N count pool := by
  have bounded := bounded_of_reachable (close_reachable reachable)
  refine ⟨bounded.1, balanced_of_reachable reachable, ?_,
    fun task spurious next finish resumed => outcome_isSome resumed⟩
  intro task spurious next finish permits resumed released
  have moved := resume_balanced (bounded.2 task) resumed
  simpa [close, released, taken, given] using moved

/-- An acquisition waits in the queue for a release of three permits, of which the semaphore
takes two, and another task takes the first of them before it runs on. -/
theorem conserved_of_reachable_saturated :
    ∃ pool : Pool (Fin 3) (Ledger (Fin 3)) Pc,
      (machine 2 0 (Fin 3)).Reachable Machine.free pool ∧
      (pool.shared.semaphore.count = 0 ∧ pool.shared.acquired = 2 ∧ pool.shared.returned = 2) ∧
        Conserved 2 0 pool := by
  obtain ⟨pool, reachable, counted⟩ :=
    Machine.reachable_of_any (machine 2 0 (Fin 3)) Machine.free (fresh 2 0 (Fin 3))
      (List.flatten
        [(0, .call .acquire) :: List.replicate 103 (0, .step false),
          (1, .call (.release 3)) :: List.replicate 2 (1, .step false),
          (2, .call .tryAcquire) :: List.replicate 2 (2, .step false),
          List.replicate 3 (0, .step false)])
      (fun pool => pool.shared.semaphore.count = 0 ∧ pool.shared.acquired = 2 ∧
        pool.shared.returned = 2)
      rfl (by decide +kernel)
  exact ⟨pool, reachable, counted, conserved_of_reachable reachable⟩

end Ledger

end Asco.Sync.Semaphore
