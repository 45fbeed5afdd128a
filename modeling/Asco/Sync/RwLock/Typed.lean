import Asco.Sync.RwLock.Exclusion

namespace Asco.Sync.RwLock.Typed

open Foundation

/-! # `rwlock<T>`: guards that give access to a value

A guard of `rwlock<T>` holds a pointer to its lock beside a guard of the `rwlock<>` inside
it.  The guards are objects that live in slots; a task acquires them, moves them and
destroys them, and each step of the lock inside is a step here.
-/

inductive Mode where
  | read
  | write
deriving DecidableEq

/-- `m_rwlock` is not null, and `m_guard` is not empty. -/
structure Guard where
  rwlock : Bool
  guard : Bool
deriving DecidableEq

def Guard.empty : Guard := { rwlock := false, guard := false }

/-- `operator bool`: what it takes to dereference a guard. -/
def Guard.usable (guard : Guard) : Bool := guard.rwlock

/-- The destructor of the guard inside. -/
def Mode.drop : Mode → Call
  | .read => .dropReadGuard
  | .write => .dropWriteGuard

/-- What a task does to the guards: the result of a call and the object that is moved
go to the slot `target`, whose former object is destroyed. -/
inductive Operation (Slot : Type*) where
  | read (target : Slot)
  | tryRead (target : Slot)
  | write (target : Slot)
  | tryWrite (target : Slot)
  | upgrade (source target : Slot)
  | move (mode : Mode) (source target : Slot)
  | destroy (mode : Mode) (slot : Slot)

/-- Where a task stands: inside a call of the lock inside, with the guard that a call has
returned, or moving a guard. -/
inductive Activity (Slot : Type*) where
  | idle
  | calling (call : Call) (target : Slot)
  | giving (mode : Mode) (target : Slot) (guard : Guard)
  | moving (mode : Mode) (source target : Slot)

structure State (Task Slot : Type*) where
  pool : Pool Task (RwLock Task) Pc
  guards : Mode → Slot → Guard
  activity : Task → Activity Slot

variable {Task Slot : Type*} [DecidableEq Slot]

def put (guards : Mode → Slot → Guard) (mode : Mode) (slot : Slot) (guard : Guard) :
    Mode → Slot → Guard :=
  Function.update guards mode (Function.update (guards mode) slot guard)

/-- The guard that a call of the lock inside has returned is not empty. -/
def acquired (before after : RwLock Task) : Mode → Bool
  | .read => before.readGuards < after.readGuards
  | .write => before.writeGuards < after.writeGuards

/-- The guard that is made of the one that the call of the lock inside has returned. -/
def returned (before after : RwLock Task) (target : Slot) : Call → Activity Slot
  | .read => .giving .read target { rwlock := true, guard := acquired before after .read }
  | .tryRead =>
      if acquired before after .read then .giving .read target { rwlock := true, guard := true }
      else .giving .read target .empty
  | .write | .upgrade =>
      .giving .write target { rwlock := true, guard := acquired before after .write }
  | .tryWrite =>
      if acquired before after .write then .giving .write target { rwlock := true, guard := true }
      else .giving .write target .empty
  | .dropReadGuard | .dropWriteGuard => .idle

variable [DecidableEq Task]

namespace State

/-- A call of the lock inside begins. -/
def enter (state : State Task Slot) (task : Task) (call : Call) (activity : Activity Slot) :
    Option (State Task Slot) :=
  ((machine Task).move state.pool (task, .call call)).map fun pool =>
    { state with pool, activity := Function.update state.activity task activity }

def start (state : State Task Slot) (task : Task) : Operation Slot → Option (State Task Slot)
  | .read target => state.enter task .read (.calling .read target)
  | .tryRead target => state.enter task .tryRead (.calling .tryRead target)
  | .write target => state.enter task .write (.calling .write target)
  | .tryWrite target => state.enter task .tryWrite (.calling .tryWrite target)
  | .upgrade source target =>
      -- `self` is a parameter that is moved out of the source
      let self := state.guards .read source
      let taken := { state with guards := put state.guards .read source .empty }
      if self.rwlock then
        if self.guard then taken.enter task .upgrade (.calling .upgrade target)
        else
          -- an empty guard inside is upgraded to an empty one
          some { taken with
            activity := Function.update state.activity task
              (.giving .write target { rwlock := true, guard := false }) }
      else
        some { taken with
          activity := Function.update state.activity task (.giving .write target .empty) }
  | .move mode source target =>
      if source = target then some state
      else
        some { state with
          activity := Function.update state.activity task (.moving mode source target) }
  | .destroy mode slot =>
      some { state with
        activity := Function.update state.activity task (.giving mode slot .empty) }

/-- The object in a slot is destroyed; when that is done, the slot takes what follows. -/
def replace (state : State Task Slot) (task : Task) (spurious : Bool) (mode : Mode) (slot : Slot)
    (guards : Mode → Slot → Guard) : Option (State Task Slot) :=
  if state.pool.locals task = .idle then
    if (state.guards mode slot).guard then
      ((machine Task).move state.pool (task, .call mode.drop)).map fun pool =>
        { state with pool, guards := put state.guards mode slot .empty }
    else
      some { state with guards, activity := Function.update state.activity task .idle }
  else
    ((machine Task).move state.pool (task, .step spurious)).map fun pool => { state with pool }

def step (state : State Task Slot) (task : Task) (spurious : Bool) :
    Option (State Task Slot) :=
  match state.activity task with
  | .idle => none
  | .calling call target =>
      ((machine Task).move state.pool (task, .step spurious)).map fun pool =>
        { state with
          pool
          activity := Function.update state.activity task
            (if pool.locals task = .idle then returned state.pool.shared pool.shared target call
            else .calling call target) }
  | .giving mode target guard =>
      state.replace task spurious mode target (put state.guards mode target guard)
  | .moving mode source target =>
      state.replace task spurious mode target
        (put (put state.guards mode target (state.guards mode source)) mode source .empty)

def move (state : State Task Slot) :
    Task × Choice (Operation Slot) → Option (State Task Slot)
  | (task, .call operation) =>
      match state.activity task with
      | .idle => state.start task operation
      | _ => none
  | (task, .step spurious) => state.step task spurious

end State

def unlocked (Task Slot : Type*) : State Task Slot where
  pool := fresh Task
  guards _ _ := .empty
  activity _ := .idle

def typed (Task Slot : Type*) [DecidableEq Task] [DecidableEq Slot] :
    Machine (State Task Slot) (Task × Choice (Operation Slot)) where
  start := (· = unlocked Task Slot)
  move := State.move

/-- The step at which `upgrade()` gives up. -/
def refuses (state : Word) (spurious : Bool) : Pc → Bool
  | .upgradeLoad => state &&& (updateWillingMask ||| writeWillingMask) ≠ 0#64
  | .upgradeCas expected =>
      ¬ (state = expected ∧ spurious = false) ∧
        state &&& (updateWillingMask ||| writeWillingMask) ≠ 0#64
  | _ => false

/-- No upgrade finds the bit of a waiting writer or of another upgrade. -/
def UpgradesSucceed (state : State Task Slot) : Task × Choice (Operation Slot) → Prop
  | (task, .step spurious) =>
      refuses state.pool.shared.state spurious (state.pool.locals task) = false
  | (_, .call _) => True

instance : DecidableRel (@UpgradesSucceed Task Slot)
  | _, (_, .step _) => inferInstanceAs (Decidable (_ = _))
  | _, (_, .call _) => isTrue trivial

/-- A guard that can be dereferenced to a mutable value has a guard inside that holds the
lock. -/
def Backed (state : State Task Slot) : Prop :=
  ∀ slot, (state.guards .write slot).usable = true →
    (state.guards .write slot).guard = true ∧ 0 < state.pool.shared.writeGuards

/-! ## The calls of the lock inside -/

/-- A call is at this place. -/
def Within : Call → Pc → Prop
  | .read, .readLoad | .read, .readWait _ | .read, .readSuspended => True
  | .tryRead, .tryReadLoad | .tryRead, .tryReadCas _ => True
  | .write, .writeLoad | .write, .writeCas _ | .write, .writeCheck | .write, .writeWait _
  | .write, .writeSuspended | .write, .writeTake _ => True
  | .tryWrite, .tryWriteLoad | .tryWrite, .tryWriteCas _ => True
  | .upgrade, .upgradeLoad | .upgrade, .upgradeCas _ | .upgrade, .upgradeWait
  | .upgrade, .upgradeSuspended => True
  | .dropReadGuard, .readRelease | .dropReadGuard, .readNotifyRead
  | .dropReadGuard, .readNotifyWrite => True
  | .dropWriteGuard, .writeRelease | .dropWriteGuard, .writeNotifyWrite
  | .dropWriteGuard, .writeNotifyRead => True
  | _, _ => False

/-- What a call has acquired when it returns. -/
def Returns (before after : RwLock Task) : Call → Prop
  | .read =>
      after.readGuards = before.readGuards + 1 ∧ after.writeGuards = before.writeGuards
  | .write | .upgrade => after.writeGuards = before.writeGuards + 1
  | .tryWrite =>
      after.writeGuards = before.writeGuards ∨ after.writeGuards = before.writeGuards + 1
  | .tryRead | .dropReadGuard | .dropWriteGuard => after.writeGuards = before.writeGuards

variable {lock next : RwLock Task} {pc finish : Pc} {spurious : Bool} {task : Task} {call : Call}

theorem resume_within (within : Within call pc)
    (accepted : refuses lock.state spurious pc = false)
    (resumed : resume task lock spurious pc = some (next, finish)) :
    finish ≠ .idle ∧ Within call finish ∧ next.writeGuards = lock.writeGuards ∨
      finish = .idle ∧ Returns lock next call := by
  cases pc with
  | idle => cases call <;> contradiction
  | readLoad | writeLoad | readRelease | readNotifyRead | writeRelease | writeNotifyWrite =>
      cases resumed
      exact .inl ⟨by simp, by cases call <;> trivial, rfl⟩
  | readNotifyWrite | writeNotifyRead =>
      cases resumed
      cases call <;> try contradiction
      exact .inr ⟨rfl, rfl⟩
  | readSuspended | writeSuspended | upgradeSuspended =>
      obtain ⟨_, ⟨⟩⟩ := Option.ite_none_left_eq_some.mp resumed
      exact .inl ⟨by simp, by cases call <;> trivial, rfl⟩
  | writeCas expected | writeCheck | writeWait expected =>
      simp only [resume] at resumed
      split at resumed <;> cases resumed
      · exact .inl ⟨by simp, by cases call <;> trivial, rfl⟩
      · exact .inl ⟨by simp, by cases call <;> trivial, rfl⟩
  | readWait expected =>
      cases call <;> try contradiction
      simp only [resume] at resumed
      split at resumed <;> cases resumed
      · exact .inr ⟨rfl, rfl, rfl⟩
      · exact .inl ⟨by simp, trivial, rfl⟩
  | tryReadLoad | tryReadCas expected =>
      cases call <;> try contradiction
      simp only [resume] at resumed
      split at resumed <;> cases resumed
      · exact .inr ⟨rfl, rfl⟩
      · exact .inl ⟨by simp, trivial, rfl⟩
  | writeTake expected =>
      cases call <;> try contradiction
      simp only [resume] at resumed
      split at resumed <;> cases resumed
      · exact .inr ⟨rfl, rfl⟩
      · exact .inl ⟨by simp, trivial, rfl⟩
  | tryWriteLoad =>
      cases call <;> try contradiction
      simp only [resume] at resumed
      split at resumed <;> cases resumed
      · exact .inr ⟨rfl, .inl rfl⟩
      · exact .inl ⟨by simp, trivial, rfl⟩
  | tryWriteCas expected =>
      cases call <;> try contradiction
      simp only [resume] at resumed
      split at resumed <;> cases resumed
      · exact .inr ⟨rfl, .inr rfl⟩
      · exact .inr ⟨rfl, .inl rfl⟩
  | upgradeLoad =>
      cases call <;> try contradiction
      simp only [refuses, decide_eq_false_iff_not] at accepted
      simp only [resume, accepted, if_false] at resumed
      cases resumed
      exact .inl ⟨by simp, trivial, rfl⟩
  | upgradeCas expected =>
      cases call <;> try contradiction
      simp only [refuses, decide_eq_false_iff_not, not_and] at accepted
      simp only [resume] at resumed
      split at resumed
      · cases resumed
        exact .inl ⟨by simp, trivial, rfl⟩
      · rename_i failed
        rw [if_neg (accepted (not_and.mp failed))] at resumed
        cases resumed
        exact .inl ⟨by simp, trivial, rfl⟩
  | upgradeWait =>
      cases call <;> try contradiction
      simp only [resume] at resumed
      split at resumed <;> cases resumed
      · exact .inr ⟨rfl, rfl⟩
      · exact .inl ⟨by simp, trivial, rfl⟩

omit [DecidableEq Task] in
theorem start_within {call : Call} (started : RwLock.start lock call = some (next, finish)) :
    finish ≠ .idle ∧ Within call finish ∧
      next.writeGuards + (if call = .dropWriteGuard then 1 else 0) = lock.writeGuards := by
  cases call with
  | read | tryRead | write | tryWrite =>
      cases started
      exact ⟨by simp, trivial, rfl⟩
  | upgrade | dropReadGuard =>
      obtain ⟨_, ⟨⟩⟩ := Option.ite_none_right_eq_some.mp started
      exact ⟨by simp, trivial, rfl⟩
  | dropWriteGuard =>
      obtain ⟨held, ⟨⟩⟩ := Option.ite_none_right_eq_some.mp started
      exact ⟨by simp, trivial, Nat.sub_add_cancel held⟩

/-! ## The guards and the lock -/

/-- A guard for writing that is not empty. -/
def weight : Mode → Guard → ℕ
  | .read, _ => 0
  | .write, guard => guard.guard.toNat

/-- The guard that a task has not yet put into a slot. -/
def Activity.weight : Activity Slot → ℕ
  | .giving mode _ guard => Typed.weight mode guard
  | _ => 0

/-- The pointer of a guard is null exactly when the guard inside is empty. -/
def InStep (guard : Guard) : Prop := guard.rwlock = guard.guard

/-- The place of a task in the lock inside is that of the call it is in. -/
def Follows (pc : Pc) : Activity Slot → Prop
  | .idle => pc = .idle
  | .calling call _ => (call ≠ .dropReadGuard ∧ call ≠ .dropWriteGuard) ∧ Within call pc
  | .giving mode _ guard => InStep guard ∧ (pc = .idle ∨ Within mode.drop pc)
  | .moving mode source target => source ≠ target ∧ (pc = .idle ∨ Within mode.drop pc)

def occupied [Fintype Slot] (guards : Mode → Slot → Guard) : ℕ :=
  tally (weight .write) (guards .write)

structure Owned [Fintype Slot] [Fintype Task] (state : State Task Slot) : Prop where
  inStep : ∀ mode slot, InStep (state.guards mode slot)
  follows : ∀ task, Follows (state.pool.locals task) (state.activity task)
  counted : occupied state.guards + tally Activity.weight state.activity =
    state.pool.shared.writeGuards

section

variable {guards : Mode → Slot → Guard} {mode : Mode} {slot : Slot} {guard : Guard}

theorem put_inStep (inStep : ∀ mode slot, InStep (guards mode slot)) (given : InStep guard) :
    ∀ other place, InStep (put guards mode slot guard other place) := by
  intro other place
  by_cases same : other = mode
  · subst same
    by_cases here : place = slot
    · subst here
      simpa [put] using given
    · simpa [put, here] using inStep other place
  · simpa [put, same] using inStep other place

theorem put_other {place : Slot} (different : place ≠ slot) :
    put guards mode slot guard mode place = guards mode place := by simp [put, different]

theorem occupied_put [Fintype Slot] :
    occupied (put guards mode slot guard) + weight mode (guards mode slot) =
      occupied guards + weight mode guard := by
  cases mode with
  | read =>
      have kept : put guards .read slot guard .write = guards .write := by simp [put]
      rw [occupied, kept]
      rfl
  | write =>
      have changed : put guards .write slot guard .write =
          Function.update (guards .write) slot guard := by simp [put]
      rw [occupied, changed]
      exact tally_update (weight .write) (guards .write) slot guard

end

section

variable [Fintype Slot] [Fintype Task] {state after : State Task Slot}

omit [DecidableEq Slot] in
/-- A step of one task, with the guard it holds before and after. -/
theorem Owned.changed (owned : Owned state) {activity : Activity Slot}
    (inStep : ∀ mode slot, InStep (after.guards mode slot))
    (locals : after.pool.locals = Function.update state.pool.locals task finish)
    (activities : after.activity = Function.update state.activity task activity)
    (follows : Follows finish activity)
    (counted : occupied after.guards + activity.weight + state.pool.shared.writeGuards =
      occupied state.guards + (state.activity task).weight + after.pool.shared.writeGuards) :
    Owned after where
  inStep := inStep
  follows other := by
    rw [locals, activities]
    by_cases same : other = task
    · subst same
      simpa using follows
    · simpa [same] using owned.follows other
  counted := by
    have before := owned.counted
    have moved := tally_update Activity.weight state.activity task activity
    rw [activities]
    omega

omit [DecidableEq Slot] in
/-- A call of the lock inside begins. -/
theorem Owned.enter (owned : Owned state) {activity : Activity Slot}
    (entered : state.enter task call activity = some after) (outside : state.activity task = .idle)
    (acquires : call ≠ .dropWriteGuard) (carries : activity.weight = 0)
    (follows : ∀ pc, Within call pc → Follows pc activity) : Owned after := by
  obtain ⟨pool, stepped, rfl⟩ := Option.map_eq_some_iff.mp entered
  obtain ⟨shared, finish, advanced, rfl⟩ := Program.move_eq_some.mp stepped
  obtain ⟨_, started⟩ := Option.ite_none_right_eq_some.mp advanced
  obtain ⟨_, within, counted⟩ := start_within started
  rw [if_neg acquires] at counted
  refine owned.changed owned.inStep rfl rfl (follows finish within) ?_
  rw [outside, carries, ← counted]
  rfl

theorem Owned.start (owned : Owned state) {operation : Operation Slot}
    (outside : state.activity task = .idle) (started : state.start task operation = some after) :
    Owned after := by
  have idle : state.pool.locals task = .idle := by
    have follows := owned.follows task
    rw [outside] at follows
    exact follows
  have stays := (Function.update_eq_self task state.pool.locals).symm
  cases operation with
  | read target | tryRead target | write target | tryWrite target =>
      exact owned.enter started outside (by simp) rfl fun _ within => ⟨by simp, within⟩
  | upgrade source target =>
      have moved : occupied (put state.guards .read source .empty) + 0 =
          occupied state.guards + 0 := occupied_put
      have emptied := Nat.add_right_cancel moved
      have inStep : ∀ mode slot, InStep (put state.guards .read source .empty mode slot) :=
        put_inStep owned.inStep rfl
      have taken : Owned { state with guards := put state.guards .read source .empty } :=
        { owned with inStep := inStep, counted := by rw [emptied]; exact owned.counted }
      have same := owned.inStep .read source
      simp only [State.start] at started
      split at started
      · rename_i usable
        rw [if_pos (same.symm.trans usable)] at started
        exact taken.enter started outside (by simp) rfl fun _ within => ⟨by simp, within⟩
      · cases started
        refine owned.changed inStep stays rfl ⟨rfl, .inl idle⟩ ?_
        rw [outside, emptied]
        rfl
  | move mode source target =>
      simp only [State.start] at started
      split at started <;> cases started
      · exact owned
      · rename_i different
        refine owned.changed owned.inStep stays rfl ⟨different, .inl idle⟩ ?_
        rw [outside]
        rfl
  | destroy mode slot =>
      cases started
      refine owned.changed owned.inStep stays rfl ⟨rfl, .inl idle⟩ ?_
      rw [outside]
      cases mode <;> rfl

/-- A guard in a slot is destroyed, one step of it, or the slot takes what follows. -/
theorem Owned.replace (owned : Owned state) {mode : Mode} {slot : Slot}
    {guards : Mode → Slot → Guard} {spurious : Bool}
    (accepted : refuses state.pool.shared.state spurious (state.pool.locals task) = false)
    (destroying : state.pool.locals task = .idle ∨ Within mode.drop (state.pool.locals task))
    (follows : ∀ pc, pc = .idle ∨ Within mode.drop pc → Follows pc (state.activity task))
    (inStep : ∀ mode slot, InStep (guards mode slot))
    (counted : (state.guards mode slot).guard = false →
      occupied guards = occupied state.guards + (state.activity task).weight)
    (replaced : state.replace task spurious mode slot guards = some after) : Owned after := by
  have same := (Function.update_eq_self task state.activity).symm
  rw [State.replace] at replaced
  split at replaced
  · rename_i idle
    split at replaced
    · rename_i held
      obtain ⟨pool, stepped, rfl⟩ := Option.map_eq_some_iff.mp replaced
      obtain ⟨shared, finish, advanced, rfl⟩ := Program.move_eq_some.mp stepped
      obtain ⟨_, started⟩ := Option.ite_none_right_eq_some.mp advanced
      obtain ⟨_, within, dropped⟩ := start_within started
      have moved : occupied (put state.guards mode slot .empty) +
          weight mode (state.guards mode slot) = occupied state.guards + weight mode .empty :=
        occupied_put
      refine owned.changed (put_inStep owned.inStep rfl) rfl same (follows _ (.inr within)) ?_
      cases mode with
      | read =>
          simp only [weight, Mode.drop, reduceCtorEq, if_false] at moved dropped
          show occupied (put state.guards .read slot .empty) + _ + _ = _ + _ + shared.writeGuards
          omega
      | write =>
          simp only [weight, Mode.drop, if_true, held, Guard.empty] at moved dropped
          show occupied (put state.guards .write slot .empty) + _ + _ = _ + _ + shared.writeGuards
          simp only [Guard.empty, Bool.toNat_true, Bool.toNat_false] at moved ⊢
          omega
    · rename_i vacant
      cases replaced
      refine owned.changed inStep (Function.update_eq_self task state.pool.locals).symm rfl idle ?_
      rw [counted (by simpa using vacant)]
      rfl
  · rename_i busy
    obtain ⟨pool, stepped, rfl⟩ := Option.map_eq_some_iff.mp replaced
    obtain ⟨shared, finish, advanced, rfl⟩ := Program.move_eq_some.mp stepped
    have within := destroying.resolve_left busy
    have kept : (finish = .idle ∨ Within mode.drop finish) ∧
        shared.writeGuards = state.pool.shared.writeGuards := by
      rcases resume_within within accepted advanced with ⟨_, still, same⟩ | ⟨rfl, returns⟩
      · exact ⟨.inr still, same⟩
      · cases mode <;> exact ⟨.inl rfl, returns⟩
    refine owned.changed owned.inStep rfl same (follows _ kept.1) ?_
    show _ = _ + _ + shared.writeGuards
    rw [kept.2]

omit [DecidableEq Slot] [DecidableEq Task] [Fintype Slot] [Fintype Task] in
/-- What a call returns is a guard that is in step, and the lock has counted it. -/
theorem returned_owned {before after : RwLock Task} (target : Slot)
    (acquires : call ≠ .dropReadGuard ∧ call ≠ .dropWriteGuard)
    (returns : Returns before after call) :
    Follows .idle (returned before after target call) ∧
      (returned before after target call).weight + before.writeGuards = after.writeGuards := by
  cases call with
  | read =>
      obtain ⟨reads, writes⟩ := returns
      refine ⟨⟨?_, .inl rfl⟩, ?_⟩
      · simp [InStep, acquired, reads]
      · simp [returned, Activity.weight, weight, writes]
  | tryRead =>
      have writes : after.writeGuards = before.writeGuards := returns
      simp only [returned]
      split
      · exact ⟨⟨rfl, .inl rfl⟩, by simp [Activity.weight, weight, writes]⟩
      · exact ⟨⟨rfl, .inl rfl⟩, by simp [Activity.weight, weight, writes]⟩
  | write | upgrade =>
      have writes : after.writeGuards = before.writeGuards + 1 := returns
      refine ⟨⟨?_, .inl rfl⟩, ?_⟩
      · simp [InStep, acquired, writes]
      · simp [returned, Activity.weight, weight, acquired, writes, Nat.add_comm]
  | tryWrite =>
      simp only [returned]
      rcases returns with writes | writes
      · rw [if_neg (by simp [acquired, writes])]
        exact ⟨⟨rfl, .inl rfl⟩, by simp [Activity.weight, weight, Guard.empty, writes]⟩
      · rw [if_pos (by simp [acquired, writes])]
        exact ⟨⟨rfl, .inl rfl⟩, by simp [Activity.weight, weight, writes, Nat.add_comm]⟩
  | dropReadGuard => exact absurd rfl acquires.1
  | dropWriteGuard => exact absurd rfl acquires.2

theorem Owned.step (owned : Owned state) {spurious : Bool}
    (accepted : refuses state.pool.shared.state spurious (state.pool.locals task) = false)
    (stepped : state.step task spurious = some after) : Owned after := by
  have follows := owned.follows task
  cases standing : state.activity task with
  | idle =>
      rw [State.step, standing] at stepped
      contradiction
  | calling call target =>
      rw [State.step, standing] at stepped
      rw [standing] at follows
      obtain ⟨acquires, within⟩ := follows
      obtain ⟨pool, moved, rfl⟩ := Option.map_eq_some_iff.mp stepped
      obtain ⟨shared, finish, advanced, rfl⟩ := Program.move_eq_some.mp moved
      rcases resume_within within accepted advanced with ⟨busy, still, same⟩ | ⟨rfl, returns⟩
      · have running : Function.update state.pool.locals task finish task ≠ .idle := by
          rw [Function.update_self]
          exact busy
        refine owned.changed owned.inStep rfl
          (congrArg (Function.update state.activity task) (if_neg running)) ⟨acquires, still⟩ ?_
        rw [standing]
        show _ = _ + _ + shared.writeGuards
        rw [same]
      · have done : Function.update state.pool.locals task .idle task = .idle :=
          Function.update_self ..
        obtain ⟨placed, counted⟩ := returned_owned target acquires returns
        refine owned.changed owned.inStep rfl
          (congrArg (Function.update state.activity task) (if_pos done)) placed ?_
        rw [standing]
        show _ = _ + _ + shared.writeGuards
        rw [← counted, Nat.add_assoc]
        rfl
  | giving mode target guard =>
      rw [State.step, standing] at stepped
      rw [standing] at follows
      refine owned.replace accepted follows.2 ?_ (put_inStep owned.inStep follows.1) ?_ stepped
      · intro pc place
        rw [standing]
        exact ⟨follows.1, place⟩
      · intro vacant
        have moved : occupied (put state.guards mode target guard) +
            weight mode (state.guards mode target) = occupied state.guards + weight mode guard :=
          occupied_put
        have nothing : weight mode (state.guards mode target) = 0 := by
          cases mode <;> simp [weight, vacant]
        rw [standing]
        rw [nothing] at moved
        exact moved
  | moving mode source target =>
      rw [State.step, standing] at stepped
      rw [standing] at follows
      have inStep : ∀ other slot, InStep (put (put state.guards mode target
          (state.guards mode source)) mode source .empty other slot) :=
        put_inStep (put_inStep owned.inStep (owned.inStep mode source)) rfl
      refine owned.replace accepted follows.2 ?_ inStep ?_ stepped
      · intro pc place
        rw [standing]
        exact ⟨follows.1, place⟩
      · intro vacant
        have given : occupied (put state.guards mode target (state.guards mode source)) +
            weight mode (state.guards mode target) =
              occupied state.guards + weight mode (state.guards mode source) := occupied_put
        have emptied : occupied (put (put state.guards mode target (state.guards mode source))
            mode source .empty) +
            weight mode (put state.guards mode target (state.guards mode source) mode source) =
              occupied (put state.guards mode target (state.guards mode source)) +
                weight mode .empty := occupied_put
        have nothing : weight mode (state.guards mode target) = 0 := by
          cases mode <;> simp [weight, vacant]
        have empty : weight mode .empty = 0 := by cases mode <;> rfl
        rw [put_other follows.1, empty] at emptied
        rw [standing]
        show _ = occupied state.guards + 0
        omega

theorem owned_of_reachable (reachable : (typed Task Slot).Reachable UpgradesSucceed state) :
    Owned state := by
  refine reachable.invariant ?_ ?_
  · rintro _ rfl
    exact
      { inStep := fun _ _ => rfl
        follows := fun _ => rfl
        counted := by
          simp [unlocked, occupied, tally, weight, Guard.empty, Activity.weight, fresh] }
  · intro state label next owned accepted moved
    obtain ⟨task, choice⟩ := label
    cases choice with
    | call operation =>
        cases standing : state.activity task with
        | idle =>
            simp only [typed, State.move, standing] at moved
            exact owned.start standing moved
        | _ => simp [typed, State.move, standing] at moved
    | step spurious => exact owned.step accepted moved

/-- A usable guard for writing is backed as long as no upgrade fails. -/
theorem backed_of_upgradesSucceed
    (reachable : (typed Task Slot).Reachable UpgradesSucceed state) : Backed state := by
  intro slot usable
  have owned := owned_of_reachable reachable
  have held : (state.guards .write slot).guard = true :=
    (owned.inStep .write slot).symm.trans usable
  refine ⟨held, ?_⟩
  have counted : weight .write (state.guards .write slot) ≤ occupied state.guards :=
    weight_le_tally slot
  have one : weight .write (state.guards .write slot) = 1 := by simp [weight, held]
  have total := owned.counted
  omega

end

/-! ## Exclusive access -/

section

variable {state after : State Task Slot}
  {guard : State Task Slot → Task × Choice (Operation Slot) → Prop}

omit [DecidableEq Slot] in
theorem enter_pool {activity : Activity Slot}
    (entered : state.enter task call activity = some after) :
    after.pool = state.pool ∨ ∃ inner, (machine Task).move state.pool inner = some after.pool := by
  obtain ⟨pool, stepped, rfl⟩ := Option.map_eq_some_iff.mp entered
  exact .inr ⟨_, stepped⟩

theorem replace_pool {mode : Mode} {slot : Slot} {guards : Mode → Slot → Guard}
    (replaced : state.replace task spurious mode slot guards = some after) :
    after.pool = state.pool ∨ ∃ inner, (machine Task).move state.pool inner = some after.pool := by
  rw [State.replace] at replaced
  split at replaced
  · split at replaced
    · obtain ⟨pool, stepped, rfl⟩ := Option.map_eq_some_iff.mp replaced
      exact .inr ⟨_, stepped⟩
    · cases replaced
      exact .inl rfl
  · obtain ⟨pool, stepped, rfl⟩ := Option.map_eq_some_iff.mp replaced
    exact .inr ⟨_, stepped⟩

/-- A step is a step of the lock inside, or leaves it alone. -/
theorem move_pool {label : Task × Choice (Operation Slot)} (moved : state.move label = some after) :
    after.pool = state.pool ∨ ∃ inner, (machine Task).move state.pool inner = some after.pool := by
  obtain ⟨task, choice⟩ := label
  cases choice with
  | call operation =>
      cases standing : state.activity task with
      | idle =>
          simp only [State.move, standing] at moved
          cases operation with
          | read target | tryRead target | write target | tryWrite target =>
              exact enter_pool moved
          | upgrade source target =>
              simp only [State.start] at moved
              split at moved
              · split at moved
                · have entered := enter_pool moved
                  exact entered
                · cases moved
                  exact .inl rfl
              · cases moved
                exact .inl rfl
          | move mode source target =>
              simp only [State.start] at moved
              split at moved <;> cases moved <;> exact .inl rfl
          | destroy mode slot =>
              cases moved
              exact .inl rfl
      | _ => simp [State.move, standing] at moved
  | step spurious =>
      cases standing : state.activity task with
      | idle => simp [State.move, State.step, standing] at moved
      | calling call target =>
          simp only [State.move, State.step, standing] at moved
          obtain ⟨pool, stepped, rfl⟩ := Option.map_eq_some_iff.mp moved
          exact .inr ⟨_, stepped⟩
      | giving mode target guard =>
          simp only [State.move, State.step, standing] at moved
          exact replace_pool moved
      | moving mode source target =>
          simp only [State.move, State.step, standing] at moved
          exact replace_pool moved

variable [Fintype Task]

theorem pool_reachable (bounded : ∀ state label, guard state label → FewReaders state.pool)
    (reachable : (typed Task Slot).Reachable guard state) :
    (machine Task).Reachable Bounded state.pool := by
  obtain ⟨first, rfl, run⟩ := reachable
  induction run with
  | refl => exact ⟨_, rfl, .refl _⟩
  | @tail middle last label before allowed moved ih =>
      rcases move_pool moved with same | ⟨inner, stepped⟩
      · rw [same]
        exact ih
      · exact ih.step (bounded _ _ allowed) stepped

/-- Whoever has a usable guard for writing has the value for himself. -/
theorem exclusive_of_usable [Fintype Slot]
    (reachable : (typed Task Slot).Reachable
      (fun state label => UpgradesSucceed state label ∧ FewReaders state.pool) state)
    (few : FewReaders state.pool) {slot : Slot}
    (usable : (state.guards .write slot).usable = true) :
    liveWriteGuards state.pool = 1 ∧ liveReadGuards state.pool = 0 ∧
      ∀ other, (state.guards .write other).usable = true → other = slot := by
  have safe := safe_of_bounded (pool_reachable (fun _ _ allowed => allowed.2) reachable) few
  have weaker := reachable.mono fun _ _ allowed => allowed.1
  obtain ⟨held, locked⟩ := backed_of_upgradesSucceed weaker slot usable
  have live : 0 < liveWriteGuards state.pool := locked.trans_le (Nat.le_add_right _ _)
  obtain ⟨single, noReader⟩ := safe.exclusive live
  refine ⟨single, noReader, fun other also => ?_⟩
  by_contra different
  have owned := owned_of_reachable weaker
  have both : (state.guards .write other).guard = true :=
    (owned.inStep .write other).symm.trans also
  have two : 2 ≤ occupied state.guards := by
    have apart : [slot, other].length ≤ tally (weight .write) (state.guards .write) :=
      length_le_tally (by simpa using Ne.symm different) (by simp [weight, held, both])
    exact apart
  have counted := owned.counted
  have bound : state.pool.shared.writeGuards ≤ liveWriteGuards state.pool := Nat.le_add_right _ _
  omega

end

/-- A task upgrades its read guard, which no other call is in the way of. -/
def upgraded : List (Fin 2 × Choice (Operation (Fin 2))) :=
  (0, .call (.read 0)) :: List.replicate 3 (0, .step false) ++
    (0, .call (.upgrade 0 1)) :: List.replicate 4 (0, .step false)

theorem backed_of_upgradesSucceed_upgraded :
    ∃ state : State (Fin 2) (Fin 2),
      (typed (Fin 2) (Fin 2)).Reachable UpgradesSucceed state ∧
        (state.guards .write 1).usable = true ∧ Backed state := by
  obtain ⟨state, reachable, usable⟩ :=
    Machine.reachable_of_any (typed (Fin 2) (Fin 2)) UpgradesSucceed (unlocked (Fin 2) (Fin 2))
      upgraded (fun state => (state.guards .write 1).usable = true) rfl (by decide +kernel)
  exact ⟨state, reachable, usable, backed_of_upgradesSucceed reachable⟩

/-- A second reader asks for an upgrade while the first one waits: the upgrade is refused,
and yet its guard can be dereferenced. -/
theorem refused_upgrade_usable :
    ∃ state : State (Fin 2) (Fin 2),
      (typed (Fin 2) (Fin 2)).Reachable Machine.free state ∧ ¬ Backed state := by
  obtain ⟨state, reachable, usable, refused⟩ :=
    Machine.reachable_of_any (typed (Fin 2) (Fin 2)) Machine.free (unlocked (Fin 2) (Fin 2))
      (List.flatten
        [(0, .call (.read 0)) :: List.replicate 3 (0, .step false),
          (1, .call (.read 1)) :: List.replicate 3 (1, .step false),
          (0, .call (.upgrade 0 0)) :: List.replicate 2 (0, .step false),
          (1, .call (.upgrade 1 1)) :: List.replicate 5 (1, .step false)])
      (fun state => (state.guards .write 1).usable = true ∧
        (state.guards .write 1).guard = false)
      rfl (by decide +kernel)
  refine ⟨state, reachable, fun backed => ?_⟩
  have held := (backed 1 usable).1
  rw [refused] at held
  contradiction

end Asco.Sync.RwLock.Typed
