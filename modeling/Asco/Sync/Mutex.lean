import Asco.Sync.Semaphore.Ledger

namespace Asco.Sync.Mutex

open Foundation

/-! # `mutex<>` and `mutex<T>`

A mutex is a `binary_semaphore` whose permit is held by a guard object.  The guards live
in slots; a task obtains them, moves them and destroys them, and each step of the
semaphore is a step here.
-/

/-- What the guards of `mutex<>` and of `mutex<T>` have in common: a guard is empty or has
been made by `lock()`, and its destructor releases the permit that it holds. -/
structure GuardClass (Guard : Type*) where
  empty : Guard
  locked : Guard
  usable : Guard → Bool
  holds : Guard → Bool
  empty_usable : usable empty = false
  empty_holds : holds empty = false
  locked_usable : usable locked = true
  locked_holds : holds locked = true

/-- `mutex<>::guard`: `m_lock` is not null. -/
def guard : GuardClass Bool where
  empty := false
  locked := true
  usable lock := lock
  holds lock := lock
  empty_usable := rfl
  empty_holds := rfl
  locked_usable := rfl
  locked_holds := rfl

/-- `mutex<T>::guard`: `m_lock` is not null, and `m_guard` is not empty. -/
structure TypedGuard where
  lock : Bool
  guard : Bool
deriving DecidableEq

def typedGuard : GuardClass TypedGuard where
  empty := { lock := false, guard := false }
  locked := { lock := true, guard := true }
  usable := TypedGuard.lock
  holds := TypedGuard.guard
  empty_usable := rfl
  empty_holds := rfl
  locked_usable := rfl
  locked_holds := rfl

/-- What a task does: a guard that is obtained or moved goes to the slot `target`, and the
object that was there is destroyed. -/
inductive Operation (Slot : Type*) where
  | lock (target : Slot)
  | tryLock (target : Slot)
  | move (source target : Slot)
  | destroy (slot : Slot)

/-- Where a task stands: in `acquire()` or `try_acquire()`, with the permit, with the guard
that is made of it, or moving a guard. -/
inductive Activity (Guard Slot : Type*) where
  | idle
  | locking (target : Slot)
  | trying (target : Slot)
  | granted (target : Slot)
  | giving (target : Slot) (guard : Guard)
  | moving (source target : Slot)

/-- `destroyed` and `released` count the guards with a permit that have been destroyed and
the permits that `release()` has given back. -/
structure State (Task Guard Slot : Type*) where
  pool : Pool Task (Semaphore Task) Semaphore.Pc
  guards : Slot → Guard
  activity : Task → Activity Guard Slot
  destroyed : ℕ
  released : ℕ

variable {Task Guard Slot : Type*} [DecidableEq Task] [DecidableEq Slot]

namespace State

/-- A call of the semaphore begins. -/
def enter (state : State Task Guard Slot) (task : Task) (call : Semaphore.Call) :
    Option (State Task Guard Slot) :=
  ((Semaphore.machine 1 Task).move state.pool (task, .call call)).map fun pool =>
    { state with pool }

/-- What the semaphore answers in the next step of a task. -/
def answer (state : State Task Guard Slot) (task : Task) (spurious : Bool) :
    Option Semaphore.Outcome :=
  Semaphore.outcome 1 state.pool.shared spurious (state.pool.locals task)

/-- A step of the semaphore. -/
def resume (state : State Task Guard Slot) (task : Task) (spurious : Bool) :
    Option (State Task Guard Slot) :=
  ((Semaphore.machine 1 Task).move state.pool (task, .step spurious)).map fun pool =>
    { state with
      pool
      released := state.released + Semaphore.given (state.answer task spurious) }

def become (state : State Task Guard Slot) (task : Task) (activity : Activity Guard Slot) :
    State Task Guard Slot :=
  { state with activity := Function.update state.activity task activity }

def start (state : State Task Guard Slot) (kind : GuardClass Guard) (task : Task) :
    Operation Slot → Option (State Task Guard Slot)
  | .lock target => (state.become task (.locking target)).enter task .acquire
  | .tryLock target => (state.become task (.trying target)).enter task .tryAcquire
  | .move source target =>
      if source = target then some state else some (state.become task (.moving source target))
  | .destroy slot => some (state.become task (.giving slot kind.empty))

/-- The object in a slot is destroyed; when that is done, the slot takes what follows. -/
def replace (state : State Task Guard Slot) (kind : GuardClass Guard) (task : Task)
    (spurious : Bool) (slot : Slot) (guards : Slot → Guard) : Option (State Task Guard Slot) :=
  if state.pool.locals task = .idle then
    if kind.holds (state.guards slot) then
      { state with
        guards := Function.update state.guards slot kind.empty
        destroyed := state.destroyed + 1 }.enter task (.release 1)
    else some ({ state with guards }.become task .idle)
  else state.resume task spurious

def step (state : State Task Guard Slot) (kind : GuardClass Guard) (task : Task)
    (spurious : Bool) : Option (State Task Guard Slot) :=
  match state.activity task with
  | .idle => none
  | .locking target =>
      (state.resume task spurious).map fun next =>
        if next.pool.locals task = .idle then next.become task (.granted target) else next
  | .trying target =>
      (state.resume task spurious).map fun next =>
        if next.pool.locals task = .idle then
          if state.answer task spurious = some .acquired then next.become task (.granted target)
          else next.become task (.giving target kind.empty)
        else next
  | .granted target => some (state.become task (.giving target kind.locked))
  | .giving target guard =>
      state.replace kind task spurious target (Function.update state.guards target guard)
  | .moving source target =>
      state.replace kind task spurious target
        (Function.update (Function.update state.guards target (state.guards source)) source
          kind.empty)

def move (kind : GuardClass Guard) (state : State Task Guard Slot) :
    Task × Choice (Operation Slot) → Option (State Task Guard Slot)
  | (task, .call operation) =>
      match state.activity task with
      | .idle => state.start kind task operation
      | _ => none
  | (task, .step spurious) => state.step kind task spurious

end State

/-- The constructor, with empty guards. -/
def unlocked (kind : GuardClass Guard) (Task Slot : Type*) : State Task Guard Slot where
  pool := Semaphore.fresh 1 1 Task
  guards _ := kind.empty
  activity _ := .idle
  destroyed := 0
  released := 0

def machine (kind : GuardClass Guard) (Task Slot : Type*) [DecidableEq Task] [DecidableEq Slot] :
    Machine (State Task Guard Slot) (Task × Choice (Operation Slot)) where
  start := (· = unlocked kind Task Slot)
  move := State.move kind

/-! ## Who holds the permit -/

/-- A call of `lock()` or `try_lock()` that has taken the permit and has made no guard. -/
def Activity.granting : Activity Guard Slot → ℕ
  | .granted _ => 1
  | _ => 0

/-- A guard with the permit that is not yet in a slot. -/
def Activity.given (kind : GuardClass Guard) : Activity Guard Slot → ℕ
  | .giving _ guard => (kind.holds guard).toNat
  | _ => 0

/-- A destructor that has not yet given the permit back. -/
def releasing : Semaphore.Pc → ℕ
  | .releaseLoad _ | .releaseNotify _ _ | .releaseCas _ _ => 1
  | _ => 0

section

variable [Fintype Task] [Fintype Slot] (kind : GuardClass Guard) (state : State Task Guard Slot)

/-- The guards that hold the permit, those that are handed over or destroyed included. -/
def existing : ℕ :=
  tally (fun guard => (kind.holds guard).toNat) state.guards +
    tally (Activity.given kind) state.activity + tally releasing state.pool.locals

/-- The calls that hold the permit. -/
def granting : ℕ := tally Activity.granting state.activity

/-- A move takes the guard from its source and leaves the permits as they are. -/
def MovesGuard : Prop :=
  ∀ task spurious next source target, state.activity task = .moving source target →
    state.step kind task spurious = some next → next.activity task = .idle →
      next.guards target = state.guards source ∧ next.guards source = kind.empty ∧
        existing kind next = existing kind state ∧
          next.pool = state.pool ∧ next.released = state.released

/-- Mutual exclusion and ownership. -/
structure Exclusive : Prop where
  single : existing kind state ≤ 1
  distinct : ∀ slot other, kind.usable (state.guards slot) = true →
    kind.usable (state.guards other) = true → slot = other
  free : state.pool.shared.count = 1 ↔ existing kind state = 0 ∧ granting state = 0
  moves : MovesGuard kind state
  released : state.released + tally releasing state.pool.locals = state.destroyed

end

/-! ## The calls of the semaphore -/

/-- A call is at this place. -/
def Within : Semaphore.Call → Semaphore.Pc → Prop
  | .acquire, .acquireLoad _ | .acquire, .acquireCas _ _ | .acquire, .acquireWait
  | .acquire, .acquireSuspended => True
  | .tryAcquire, .tryAcquireLoad | .tryAcquire, .tryAcquireCas _ => True
  | .release n, .releaseLoad m | .release n, .releaseNotify m _ | .release n, .releaseCas m _ =>
      m = n
  | _, _ => False

section

open Semaphore (outcome taken given resume)

variable {semaphore next : Semaphore Task} {pc finish : Semaphore.Pc} {call : Semaphore.Call}
  {task : Task} {spurious : Bool}

theorem start_within : Within call (Semaphore.start call) := by
  cases call <;> trivial

theorem resume_within {N : UInt64} (within : Within call pc)
    (resumed : resume N task semaphore spurious pc = some (next, finish)) :
    finish = .idle ∨ Within call finish := by
  cases pc with
  | idle => contradiction
  | tryAcquireLoad | tryAcquireCas oldc | acquireCas i oldc =>
      cases call <;> try contradiction
      simp only [resume] at resumed
      split at resumed <;> cases resumed
      · exact .inl rfl
      · exact .inr trivial
  | acquireLoad i =>
      cases call <;> try contradiction
      simp only [resume] at resumed
      split at resumed
      · split at resumed <;> cases resumed <;> exact .inr trivial
      · cases resumed
        exact .inr trivial
  | acquireWait =>
      cases call <;> try contradiction
      simp only [resume] at resumed
      split at resumed <;> cases resumed <;> exact .inr trivial
  | acquireSuspended =>
      cases call <;> try contradiction
      obtain ⟨_, ⟨⟩⟩ := Option.ite_none_left_eq_some.mp resumed
      exact .inr trivial
  | releaseLoad n =>
      cases call <;> try contradiction
      cases resumed
      exact .inr within
  | releaseNotify n oldc =>
      cases call <;> try contradiction
      simp only [resume] at resumed
      split at resumed
      · cases resumed
        exact .inr within
      · split at resumed <;> cases resumed
        · exact .inl rfl
        · exact .inr within
  | releaseCas n oldc =>
      cases call <;> try contradiction
      simp only [resume] at resumed
      split at resumed <;> cases resumed
      · exact .inl rfl
      · exact .inr within

omit [DecidableEq Task]

theorem acquire_outcome {N : UInt64} (within : Within .acquire pc) :
    outcome N semaphore spurious pc = none ∨
      outcome N semaphore spurious pc = some .acquired := by
  cases pc with
  | acquireCas i oldc =>
      rw [outcome]
      cases semaphore.exchange spurious oldc (Semaphore.pred N oldc) with
      | none => exact .inl rfl
      | some after => exact .inr rfl
  | acquireLoad _ | acquireWait | acquireSuspended => exact .inl rfl
  | _ => contradiction

theorem tryAcquire_outcome (within : Within .tryAcquire pc) :
    outcome 1 semaphore spurious pc = none ∨
      outcome 1 semaphore spurious pc = some .refused ∨
        outcome 1 semaphore spurious pc = some .acquired := by
  cases pc with
  | tryAcquireLoad =>
      rw [outcome]
      split
      · exact .inr (.inl rfl)
      · exact .inl rfl
  | tryAcquireCas oldc =>
      rw [outcome]
      cases semaphore.exchange spurious oldc (Semaphore.pred 1 oldc) with
      | none => exact .inl rfl
      | some after => exact .inr (.inr rfl)
  | _ => contradiction

/-- The destructor gives back exactly the permit that is missing. -/
theorem release_outcome (within : Within (.release 1) pc) (locked : semaphore.count = 0) :
    outcome 1 semaphore spurious pc = none ∨
      outcome 1 semaphore spurious pc = some (.released 1) := by
  have one : Semaphore.diff 1 1 0 = 1 := by decide
  have exchanged {oldc : ℕ} : (semaphore.exchange spurious oldc (Semaphore.raised 1 1 oldc)).map
      (fun _ => Semaphore.Outcome.released (Semaphore.diff 1 1 oldc)) = none ∨
      (semaphore.exchange spurious oldc (Semaphore.raised 1 1 oldc)).map
        (fun _ => Semaphore.Outcome.released (Semaphore.diff 1 1 oldc)) = some (.released 1) := by
    cases result : semaphore.exchange spurious oldc (Semaphore.raised 1 1 oldc) with
    | none => exact .inl rfl
    | some after =>
        obtain ⟨same, _, _⟩ := Semaphore.exchange_eq_some result
        rw [← same, locked, one]
        exact .inr rfl
  cases pc with
  | releaseLoad n => exact .inl rfl
  | releaseNotify n oldc =>
      cases within
      rw [outcome]
      split
      · exact .inl rfl
      · exact exchanged
  | releaseCas n oldc =>
      cases within
      exact exchanged
  | _ => contradiction

/-- The calls that give a permit back. -/
def releases : Semaphore.Call → ℕ
  | .release _ => 1
  | _ => 0

theorem releasing_eq (within : Within call pc) : releasing pc = releases call := by
  cases call <;> cases pc <;> first | contradiction | rfl

end

/-! ## The permit is always accounted for -/

/-- The guards that there are. -/
def Made (kind : GuardClass Guard) (guard : Guard) : Prop :=
  guard = kind.empty ∨ guard = kind.locked

/-- The place of a task in the semaphore is that of the call it is in. -/
def Follows (kind : GuardClass Guard) (pc : Semaphore.Pc) : Activity Guard Slot → Prop
  | .idle | .granted _ => pc = .idle
  | .locking _ => Within .acquire pc
  | .trying _ => Within .tryAcquire pc
  | .giving _ guard => Made kind guard ∧ (pc = .idle ∨ Within (.release 1) pc)
  | .moving source target => source ≠ target ∧ (pc = .idle ∨ Within (.release 1) pc)

omit [DecidableEq Task] [DecidableEq Slot] in
theorem Made.usable_eq {kind : GuardClass Guard} {guard : Guard} (made : Made kind guard) :
    kind.usable guard = kind.holds guard := by
  rcases made with rfl | rfl
  · rw [kind.empty_usable, kind.empty_holds]
  · rw [kind.locked_usable, kind.locked_holds]

/-- What an activity contributes to the permits that are held. -/
def Activity.weight (kind : GuardClass Guard) (activity : Activity Guard Slot) : ℕ :=
  activity.granting + activity.given kind

/-- The permits in the slots. -/
def occupied [Fintype Slot] (kind : GuardClass Guard) (guards : Slot → Guard) : ℕ :=
  tally (fun guard => (kind.holds guard).toNat) guards

structure Owned [Fintype Task] [Fintype Slot] (kind : GuardClass Guard)
    (state : State Task Guard Slot) : Prop where
  bounded : Semaphore.Bounded 1 state.pool
  made : ∀ slot, Made kind (state.guards slot)
  follows : ∀ task, Follows kind (state.pool.locals task) (state.activity task)
  counted : state.pool.shared.count + occupied kind state.guards +
    tally (Activity.weight kind) state.activity + tally releasing state.pool.locals = 1
  released : state.released + tally releasing state.pool.locals = state.destroyed

section

variable [Fintype Task] [Fintype Slot] {kind : GuardClass Guard}
  {state next : State Task Guard Slot} {task : Task} {finish : Semaphore.Pc}
  {spurious : Bool}

omit [DecidableEq Task] in
theorem occupied_update {guards : Slot → Guard} {slot : Slot} {guard : Guard} :
    occupied kind (Function.update guards slot guard) + (kind.holds (guards slot)).toNat =
      occupied kind guards + (kind.holds guard).toNat :=
  tally_update (fun guard => (kind.holds guard).toNat) guards slot guard

omit [DecidableEq Task] in
/-- A guard that is moved into an empty slot. -/
theorem occupied_move {guards : Slot → Guard} {source target : Slot} (different : source ≠ target)
    (vacant : kind.holds (guards target) = false) :
    occupied kind (Function.update (Function.update guards target (guards source)) source
      kind.empty) = occupied kind guards := by
  have given : occupied kind (Function.update guards target (guards source)) +
      (kind.holds (guards target)).toNat =
        occupied kind guards + (kind.holds (guards source)).toNat := occupied_update
  have emptied : occupied kind (Function.update (Function.update guards target (guards source))
      source kind.empty) +
      (kind.holds (Function.update guards target (guards source) source)).toNat =
        occupied kind (Function.update guards target (guards source)) +
          (kind.holds kind.empty).toNat := occupied_update
  rw [Function.update_of_ne different, kind.empty_holds] at emptied
  rw [vacant] at given
  simp only [Bool.toNat_false] at given emptied
  omega

omit [DecidableEq Slot] in
/-- A step of one task, with the permits it holds before and after. -/
theorem Owned.changed (owned : Owned kind state) {activity : Activity Guard Slot}
    (bounded : Semaphore.Bounded 1 next.pool) (made : ∀ slot, Made kind (next.guards slot))
    (locals : next.pool.locals = Function.update state.pool.locals task finish)
    (activities : next.activity = Function.update state.activity task activity)
    (follows : Follows kind finish activity)
    (counted : next.pool.shared.count + occupied kind next.guards + activity.weight kind +
        releasing finish =
      state.pool.shared.count + occupied kind state.guards + (state.activity task).weight kind +
        releasing (state.pool.locals task))
    (released : next.released + releasing finish + state.destroyed =
      state.released + releasing (state.pool.locals task) + next.destroyed) :
    Owned kind next where
  bounded := bounded
  made := made
  follows other := by
    rw [locals, activities]
    by_cases same : other = task
    · subst same
      simpa using follows
    · simpa [same] using owned.follows other
  counted := by
    have before := owned.counted
    have weights := tally_update (Activity.weight kind) state.activity task activity
    have releases := tally_update releasing state.pool.locals task finish
    rw [locals, activities]
    omega
  released := by
    have before := owned.released
    have releases := tally_update releasing state.pool.locals task finish
    rw [locals]
    omega

omit [DecidableEq Slot] in
/-- A call of the semaphore begins. -/
theorem Owned.enter (owned : Owned kind state) {call : Semaphore.Call}
    {activity : Activity Guard Slot} {guards : Slot → Guard} {destroyed : ℕ}
    (idle : state.pool.locals task = .idle) (made : ∀ slot, Made kind (guards slot))
    (follows : ∀ pc, Within call pc → Follows kind pc activity)
    (counted : occupied kind guards + activity.weight kind + releases call =
      occupied kind state.guards + (state.activity task).weight kind)
    (destroys : state.destroyed + releases call = destroyed)
    (entered : State.enter
      { state with
        guards, destroyed, activity := Function.update state.activity task activity }
      task call = some next) : Owned kind next := by
  obtain ⟨pool, stepped, rfl⟩ := Option.map_eq_some_iff.mp entered
  have bounded := owned.bounded.move stepped
  obtain ⟨shared, finish, advanced, rfl⟩ := Program.move_eq_some.mp stepped
  obtain ⟨_, ⟨⟩⟩ := Option.ite_none_right_eq_some.mp advanced
  have weight : releasing (Semaphore.start call) = releases call := releasing_eq start_within
  have none : releasing (.idle) = 0 := rfl
  refine owned.changed bounded made rfl rfl (follows _ start_within) ?_ ?_
  · rw [weight, idle, none]
    show state.pool.shared.count + occupied kind guards + _ + _ = _
    omega
  · rw [weight, idle, none, ← destroys]
    show state.released + _ + state.destroyed = _ + _ + (state.destroyed + releases call)
    omega

omit [DecidableEq Slot] in
/-- A step of the semaphore, with what the task makes of it. -/
theorem Owned.resumed (owned : Owned kind state) {call : Semaphore.Call}
    {activity : Activity Guard Slot} (within : Within call (state.pool.locals task))
    (stepped : state.resume task spurious = some next)
    (follows : Follows kind (next.pool.locals task) activity)
    (weighs : activity.weight kind = (state.activity task).weight kind +
      Semaphore.taken (state.answer task spurious))
    (gives : Semaphore.given (state.answer task spurious) + releasing (next.pool.locals task) =
      releases call) : Owned kind (next.become task activity) := by
  obtain ⟨pool, moved, rfl⟩ := Option.map_eq_some_iff.mp stepped
  have bounded := owned.bounded.move moved
  obtain ⟨shared, finish, advanced, rfl⟩ := Program.move_eq_some.mp moved
  have balanced : shared.count + Semaphore.taken (state.answer task spurious) =
      state.pool.shared.count + Semaphore.given (state.answer task spurious) :=
    Semaphore.resume_balanced (owned.bounded.2 task) advanced
  have releasing_before := releasing_eq within
  simp only [Function.update_self] at follows gives
  refine owned.changed bounded owned.made rfl rfl follows ?_ ?_
  · show shared.count + occupied kind state.guards + _ + _ = _
    omega
  · show state.released + Semaphore.given (state.answer task spurious) + _ + _ =
      state.released + _ + state.destroyed
    omega

omit [DecidableEq Task] [DecidableEq Slot] in
/-- While a task releases the permit, nobody else holds it. -/
theorem Owned.locked (owned : Owned kind state)
    (within : Within (.release 1) (state.pool.locals task)) : state.pool.shared.count = 0 := by
  have counted := owned.counted
  have weight : releasing (state.pool.locals task) ≤ tally releasing state.pool.locals :=
    weight_le_tally task
  rw [releasing_eq within] at weight
  have one : releases (.release 1) = 1 := rfl
  omega

omit [Fintype Task] [Fintype Slot] [DecidableEq Slot] in
theorem become_self {activity : Activity Guard Slot} (standing : state.activity task = activity) :
    state.become task activity = state := by
  rw [State.become, ← standing, Function.update_eq_self]

omit [Fintype Task] [Fintype Slot] [DecidableEq Slot] in
/-- A call returns in the step that answers, and stays inside in any other. -/
theorem resume_spec {call : Semaphore.Call} (within : Within call (state.pool.locals task))
    (stepped : state.resume task spurious = some next) :
    next.activity = state.activity ∧
      ((state.answer task spurious).isSome = true ↔ next.pool.locals task = .idle) ∧
      (next.pool.locals task = .idle ∨ Within call (next.pool.locals task)) := by
  obtain ⟨pool, moved, rfl⟩ := Option.map_eq_some_iff.mp stepped
  obtain ⟨shared, finish, advanced, rfl⟩ := Program.move_eq_some.mp moved
  have answers := Semaphore.outcome_isSome advanced
  simp only [Function.update_self]
  exact ⟨trivial, answers, resume_within within advanced⟩

theorem Owned.step_locking (owned : Owned kind state) {target : Slot}
    (standing : state.activity task = .locking target)
    (stepped : state.step kind task spurious = some next) : Owned kind next := by
  have within : Within .acquire (state.pool.locals task) := by
    have follows := owned.follows task
    rw [standing] at follows
    exact follows
  simp only [State.step, standing] at stepped
  obtain ⟨after, resumed, rfl⟩ := Option.map_eq_some_iff.mp stepped
  obtain ⟨same, answers, inside⟩ := resume_spec within resumed
  rcases acquire_outcome within with nothing | acquired
  · have busy : after.pool.locals task ≠ .idle := by
      intro idle
      have answered := answers.mpr idle
      rw [State.answer, nothing] at answered
      contradiction
    have still := inside.resolve_left busy
    have stays : after.become task (.locking target) = after := become_self (same ▸ standing)
    rw [if_neg busy, ← stays]
    refine owned.resumed within resumed still ?_ ?_
    · rw [State.answer, nothing, standing]
      rfl
    · rw [State.answer, nothing, releasing_eq still]
      rfl
  · have idle := answers.mp (by rw [State.answer, acquired]; rfl)
    rw [if_pos idle]
    refine owned.resumed within resumed idle ?_ ?_
    · rw [State.answer, acquired, standing]
      rfl
    · rw [State.answer, acquired, idle]
      rfl

theorem Owned.step_trying (owned : Owned kind state) {target : Slot}
    (standing : state.activity task = .trying target)
    (stepped : state.step kind task spurious = some next) : Owned kind next := by
  have within : Within .tryAcquire (state.pool.locals task) := by
    have follows := owned.follows task
    rw [standing] at follows
    exact follows
  simp only [State.step, standing] at stepped
  obtain ⟨after, resumed, rfl⟩ := Option.map_eq_some_iff.mp stepped
  obtain ⟨same, answers, inside⟩ := resume_spec within resumed
  have stays : after.become task (.trying target) = after := become_self (same ▸ standing)
  rcases tryAcquire_outcome within with nothing | refused | acquired
  · have busy : after.pool.locals task ≠ .idle := by
      intro idle
      have answered := answers.mpr idle
      rw [State.answer, nothing] at answered
      contradiction
    have still := inside.resolve_left busy
    rw [if_neg busy, ← stays]
    refine owned.resumed within resumed still ?_ ?_
    · rw [State.answer, nothing, standing]
      rfl
    · rw [State.answer, nothing, releasing_eq still]
      rfl
  · have answer : state.answer task spurious = some .refused := refused
    have idle := answers.mp (by rw [answer]; rfl)
    rw [if_pos idle, answer, if_neg (by simp)]
    refine owned.resumed within resumed ⟨.inl rfl, .inl idle⟩ ?_ ?_
    · rw [answer, standing]
      simp [Activity.weight, Activity.granting, Activity.given, kind.empty_holds, Semaphore.taken]
    · rw [answer, idle]
      rfl
  · have answer : state.answer task spurious = some .acquired := acquired
    have idle := answers.mp (by rw [answer]; rfl)
    rw [if_pos idle, if_pos answer]
    refine owned.resumed within resumed idle ?_ ?_
    · rw [answer, standing]
      rfl
    · rw [answer, idle]
      rfl

/-- A guard in a slot is destroyed, one step of it, or the slot takes what follows. -/
theorem Owned.replace (owned : Owned kind state) {slot : Slot} {guards : Slot → Guard}
    (destroying : state.pool.locals task = .idle ∨ Within (.release 1) (state.pool.locals task))
    (follows : ∀ pc, pc = .idle ∨ Within (.release 1) pc →
      Follows kind pc (state.activity task))
    (made : ∀ slot, Made kind (guards slot))
    (counted : kind.holds (state.guards slot) = false →
      occupied kind guards = occupied kind state.guards + (state.activity task).weight kind)
    (replaced : state.replace kind task spurious slot guards = some next) : Owned kind next := by
  have same := (Function.update_eq_self task state.activity).symm
  rw [State.replace] at replaced
  split at replaced
  · rename_i idle
    split at replaced
    · rename_i held
      have moved : occupied kind (Function.update state.guards slot kind.empty) +
          (kind.holds (state.guards slot)).toNat =
            occupied kind state.guards + (kind.holds kind.empty).toNat := occupied_update
      rw [held, kind.empty_holds] at moved
      have emptied : ∀ other, Made kind (Function.update state.guards slot kind.empty other) := by
        rw [Function.forall_update_iff]
        exact ⟨.inl rfl, fun other _ => owned.made other⟩
      have entered : State.enter
          { state with
            guards := Function.update state.guards slot kind.empty
            destroyed := state.destroyed + 1
            activity := Function.update state.activity task (state.activity task) }
          task (.release 1) = some next := by
        rw [Function.update_eq_self]
        exact replaced
      refine owned.enter idle emptied (fun pc within => follows pc (.inr within)) ?_ rfl entered
      have one : releases (.release 1) = 1 := rfl
      simp only [Bool.toNat_true, Bool.toNat_false] at moved
      omega
    · rename_i vacant
      cases replaced
      have still : state.pool.locals =
          Function.update state.pool.locals task (state.pool.locals task) :=
        (Function.update_eq_self ..).symm
      have placed := counted (by simpa using vacant)
      refine owned.changed owned.bounded made still rfl idle ?_ rfl
      show state.pool.shared.count + occupied kind guards + 0 + _ = _
      rw [placed]
      omega
  · rename_i busy
    have within := destroying.resolve_left busy
    obtain ⟨activities, answers, inside⟩ := resume_spec within replaced
    have stays : next.become task (state.activity task) = next :=
      become_self (by rw [activities])
    rw [← stays]
    rcases release_outcome within (owned.locked within) with nothing | gives
    · have answer : state.answer task spurious = none := nothing
      have unfinished : next.pool.locals task ≠ .idle := by
        intro idle
        have answered := answers.mpr idle
        rw [answer] at answered
        contradiction
      refine owned.resumed within replaced (follows _ inside) ?_ ?_
      · rw [answer]
        rfl
      · rw [answer, releasing_eq (inside.resolve_left unfinished)]
        rfl
    · have answer : state.answer task spurious = some (.released 1) := gives
      have idle := answers.mp (by rw [answer]; rfl)
      refine owned.resumed within replaced (follows _ inside) ?_ ?_
      · rw [answer]
        rfl
      · rw [answer, idle]
        rfl

theorem Owned.step (owned : Owned kind state)
    (stepped : state.step kind task spurious = some next) : Owned kind next := by
  have follows := owned.follows task
  cases standing : state.activity task with
  | idle =>
      rw [State.step, standing] at stepped
      contradiction
  | locking target => exact owned.step_locking standing stepped
  | trying target => exact owned.step_trying standing stepped
  | granted target =>
      rw [State.step, standing] at stepped
      cases stepped
      rw [standing] at follows
      have still : state.pool.locals =
          Function.update state.pool.locals task (state.pool.locals task) :=
        (Function.update_eq_self ..).symm
      refine owned.changed owned.bounded owned.made still rfl ⟨.inr rfl, .inl follows⟩ ?_ rfl
      rw [standing]
      simp [Activity.weight, Activity.granting, Activity.given, kind.locked_holds, State.become]
  | giving target guard =>
      rw [State.step, standing] at stepped
      rw [standing] at follows
      obtain ⟨made, destroying⟩ := follows
      have placed : ∀ slot, Made kind (Function.update state.guards target guard slot) := by
        rw [Function.forall_update_iff]
        exact ⟨made, fun other _ => owned.made other⟩
      refine owned.replace destroying ?_ placed ?_ stepped
      · intro pc place
        rw [standing]
        exact ⟨made, place⟩
      · intro vacant
        have moved : occupied kind (Function.update state.guards target guard) +
            (kind.holds (state.guards target)).toNat =
              occupied kind state.guards + (kind.holds guard).toNat := occupied_update
        rw [vacant, Bool.toNat_false] at moved
        rw [standing]
        simpa [Activity.weight, Activity.granting, Activity.given] using moved
  | moving source target =>
      rw [State.step, standing] at stepped
      rw [standing] at follows
      obtain ⟨different, destroying⟩ := follows
      have placed : ∀ slot, Made kind (Function.update (Function.update state.guards target
          (state.guards source)) source kind.empty slot) := by
        rw [Function.forall_update_iff]
        refine ⟨.inl rfl, fun other _ => ?_⟩
        by_cases here : other = target
        · subst here
          simpa using owned.made source
        · simpa [here] using owned.made other
      refine owned.replace destroying ?_ placed ?_ stepped
      · intro pc place
        rw [standing]
        exact ⟨different, place⟩
      · intro vacant
        rw [standing]
        exact occupied_move different vacant

theorem Owned.start (owned : Owned kind state) {operation : Operation Slot}
    (outside : state.activity task = .idle)
    (started : state.start kind task operation = some next) : Owned kind next := by
  have idle : state.pool.locals task = .idle := by
    have follows := owned.follows task
    rw [outside] at follows
    exact follows
  have still : state.pool.locals =
      Function.update state.pool.locals task (state.pool.locals task) :=
    (Function.update_eq_self ..).symm
  cases operation with
  | lock target =>
      have follows (pc : Semaphore.Pc) (within : Within .acquire pc) :
          Follows kind pc (.locking target) := within
      refine owned.enter idle owned.made follows ?_ rfl started
      rw [outside]
      rfl
  | tryLock target =>
      have follows (pc : Semaphore.Pc) (within : Within .tryAcquire pc) :
          Follows kind pc (.trying target) := within
      refine owned.enter idle owned.made follows ?_ rfl started
      rw [outside]
      rfl
  | move source target =>
      simp only [State.start] at started
      split at started <;> cases started
      · exact owned
      · rename_i different
        refine owned.changed owned.bounded owned.made still rfl ⟨different, .inl idle⟩ ?_ rfl
        rw [outside]
        rfl
  | destroy slot =>
      cases started
      refine owned.changed owned.bounded owned.made still rfl ⟨.inl rfl, .inl idle⟩ ?_ rfl
      rw [outside]
      simp [Activity.weight, Activity.granting, Activity.given, kind.empty_holds, State.become]

omit [DecidableEq Task] [DecidableEq Slot] in
theorem unlocked_owned : Owned kind (unlocked kind Task Slot) where
  bounded := Semaphore.bounded_fresh 1 1
  made _ := .inl rfl
  follows _ := rfl
  counted := by
    simp [unlocked, occupied, tally, kind.empty_holds, Activity.weight, Activity.granting,
      Activity.given, releasing, Semaphore.fresh]
  released := by simp [unlocked, tally, releasing, Semaphore.fresh]

theorem owned_of_reachable (reachable : (machine kind Task Slot).Reachable Machine.free state) :
    Owned kind state := by
  refine reachable.invariant ?_ ?_
  · rintro _ rfl
    exact unlocked_owned
  · intro state label next owned _ moved
    obtain ⟨task, choice⟩ := label
    cases choice with
    | call operation =>
        cases standing : state.activity task with
        | idle =>
            simp only [machine, State.move, standing] at moved
            exact owned.start standing moved
        | _ => simp [machine, State.move, standing] at moved
    | step spurious => exact owned.step moved

omit [DecidableEq Task] [DecidableEq Slot] in
/-- The permits that are held are those of the guards and those of the calls. -/
theorem existing_add_granting : existing kind state + granting state =
    occupied kind state.guards + tally (Activity.weight kind) state.activity +
      tally releasing state.pool.locals := by
  have split : tally (Activity.weight kind) state.activity =
      granting state + tally (Activity.given kind) state.activity := Finset.sum_add_distrib
  rw [split, existing, occupied]
  omega

theorem Owned.moves (owned : Owned kind state) : MovesGuard kind state := by
  intro task spurious next source target standing stepped finished
  have follows := owned.follows task
  rw [standing] at follows
  obtain ⟨different, _⟩ := follows
  rw [State.step, standing] at stepped
  simp only [State.replace] at stepped
  split at stepped
  · split at stepped
    · obtain ⟨pool, _, rfl⟩ := Option.map_eq_some_iff.mp stepped
      rw [standing] at finished
      contradiction
    · rename_i idle vacant
      cases stepped
      have kept := occupied_move different (by simpa using vacant)
      have weights : tally (Activity.given kind) (Function.update state.activity task .idle) +
          (Activity.given kind (state.activity task)) =
            tally (Activity.given kind) state.activity + (Activity.given kind .idle) :=
        tally_update (Activity.given kind) state.activity task .idle
      rw [standing] at weights
      refine ⟨?_, ?_, ?_, rfl, rfl⟩
      · simp [State.become, different.symm]
      · simp [State.become]
      · show occupied kind (Function.update (Function.update state.guards target
            (state.guards source)) source kind.empty) +
          tally _ (Function.update state.activity task .idle) + _ = _
        rw [kept, Nat.add_right_cancel weights]
        rfl
  · obtain ⟨pool, _, rfl⟩ := Option.map_eq_some_iff.mp stepped
    rw [standing] at finished
    contradiction

/-- Mutual exclusion, for the guards of `mutex<>` and of `mutex<T>`. -/
theorem exclusive_of_reachable
    (reachable : (machine kind Task Slot).Reachable Machine.free state) :
    Exclusive kind state := by
  have owned := owned_of_reachable reachable
  have total : existing kind state + granting state = occupied kind state.guards +
      tally (Activity.weight kind) state.activity + tally releasing state.pool.locals :=
    existing_add_granting
  have counted := owned.counted
  refine ⟨by omega, ?_, by omega, owned.moves, owned.released⟩
  intro slot other usable also
  by_contra different
  rw [(owned.made slot).usable_eq] at usable
  rw [(owned.made other).usable_eq] at also
  have apart : [slot, other].length ≤ occupied kind state.guards :=
    length_le_tally (by simpa using different) (by simp [usable, also])
  have two : [slot, other].length = 2 := rfl
  omega

end

/-- A task moves its guard, and then assigns an empty guard over it. -/
def reassigned : List (Fin 2 × Choice (Operation (Fin 2))) :=
  (0, .call (.lock 0)) :: List.replicate 4 (0, .step false) ++
    (0, .call (.move 0 1)) :: (0, .step false) ::
      (0, .call (.move 0 1)) :: List.replicate 5 (0, .step false)

theorem exclusive_of_reachable_reassigned :
    ∃ state : State (Fin 2) TypedGuard (Fin 2),
      (machine typedGuard (Fin 2) (Fin 2)).Reachable Machine.free state ∧
        state.released = 1 ∧ Exclusive typedGuard state := by
  obtain ⟨state, reachable, released⟩ :=
    Machine.reachable_of_exec (machine typedGuard (Fin 2) (Fin 2)) Machine.free
      (unlocked typedGuard (Fin 2) (Fin 2)) reassigned (fun state => state.released = 1) rfl
      ⟨_, rfl, by decide⟩
  exact ⟨state, reachable, released, exclusive_of_reachable reachable⟩

end Asco.Sync.Mutex
