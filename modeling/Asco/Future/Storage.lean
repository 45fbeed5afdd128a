import Asco.Future

namespace Asco.Futures

open Foundation Foundation.Lifetimes

/-! # The values of futures

`Matched` says that the destructor of every future would destroy its value exactly
if there is one.
-/

variable {Object Promise Exception : Type}

/-- The storages whose value the destructor of the future destroys. -/
def holding (futures : Futures Object Promise Exception) (object : Object) : Bool :=
  (futures.objects object).any Future.hasValue

/-- A future with an exception is completed. -/
def Settled (futures : Futures Object Promise Exception) : Prop :=
  ∀ object future, futures.objects object = some future →
    future.ePtr.isSome = true → future.resultCompleted = true

variable [DecidableEq Object]

/-- No value was constructed over another one, none was destroyed that was not constructed,
and the storages with a value are those of the futures that will destroy one. -/
structure Matched (futures : Futures Object Promise Exception) : Prop where
  inside : futures.stray = false
  lives : history futures.changes = some futures.holding

/-- A coroutine ends only while its future exists, it returns only where nothing has completed
and throws only where no value was returned; no future that has failed is moved from. -/
def Spares (futures : Futures Object Promise Exception) :
    FutureCall Object Promise Exception → Prop
  | .returnValue promise => ∀ this ∈ futures.futureObject promise,
      ∃ future ∈ futures.objects this, future.resultCompleted = false
  | .unhandledException promise _ => ∀ this ∈ futures.futureObject promise,
      ∃ future ∈ futures.objects this, future.hasValue = false
  | .moveConstruct _ rhs => ∀ future ∈ futures.objects rhs, future.failed = false
  | .moveAssign this rhs => this ≠ rhs → ∀ future ∈ futures.objects rhs, future.failed = false
  | .getReturnObject _ _ | .destroy _ => True

instance : DecidableRel (Spares :
    Futures Object Promise Exception → FutureCall Object Promise Exception → Prop)
  | futures, .returnValue promise =>
      inferInstanceAs (Decidable (∀ this ∈ futures.futureObject promise,
        ∃ future ∈ futures.objects this, future.resultCompleted = false))
  | futures, .unhandledException promise _ =>
      inferInstanceAs (Decidable (∀ this ∈ futures.futureObject promise,
        ∃ future ∈ futures.objects this, future.hasValue = false))
  | futures, .moveConstruct _ rhs =>
      inferInstanceAs (Decidable (∀ future ∈ futures.objects rhs, future.failed = false))
  | futures, .moveAssign this rhs =>
      inferInstanceAs (Decidable (this ≠ rhs → ∀ future ∈ futures.objects rhs,
        future.failed = false))
  | _, .getReturnObject _ _ | _, .destroy _ => isTrue trivial

variable {futures next : Futures Object Promise Exception} {this rhs object : Object}
  {promise : Promise} {exception : Exception} {future source : Future Promise Exception}
  {label : FutureCall Object Promise Exception}

section

omit [DecidableEq Object]

theorem holding_of (found : futures.objects object = some future) :
    futures.holding object = future.hasValue := by
  rw [holding, found, Option.any_some]

theorem holding_of_none (vacant : futures.objects object = none) :
    futures.holding object = false := by
  rw [holding, vacant, Option.any_none]

@[simp] theorem holding_record (futures : Futures Object Promise Exception)
    (change : Lifetimes.Change Object) (takesPlace : Bool) :
    (futures.record change takesPlace).holding = futures.holding := rfl

/-- A sound history determines the storages with a value. -/
theorem matched_iff [DecidableEq Object] {held : Object → Bool} (inside : futures.stray = false)
    (known : history futures.changes = some held) : Matched futures ↔ held = futures.holding :=
  ⟨fun matched => Option.some.inj (known.symm.trans matched.lives),
    fun same => ⟨inside, same ▸ known⟩⟩

/-- What a move leaves behind has a value unless it has failed. -/
theorem hasValue_movedFrom_iff :
    future.movedFrom.hasValue = future.hasValue ↔ future.failed = false := by
  obtain ⟨promise, ePtr, resultCompleted⟩ := future
  cases resultCompleted <;> cases ePtr <;>
    simp [Future.movedFrom, Future.hasValue, Future.failed]

end

@[simp] theorem holding_put (futures : Futures Object Promise Exception) (this : Object)
    (future : Option (Future Promise Exception)) :
    (futures.put this future).holding =
      Function.update futures.holding this (future.any Future.hasValue) := by
  funext object
  by_cases same : object = this
  · subst same
    simp [holding, put]
  · simp [holding, put, same]

theorem Settled.put (settled : Settled futures) {left : Option (Future Promise Exception)}
    (here : ∀ future, left = some future →
      future.ePtr.isSome = true → future.resultCompleted = true) :
    Settled (futures.put this left) := by
  intro object future found
  by_cases same : object = this
  · subst same
    simp only [Futures.put, Function.update_self] at found
    exact here future found
  · simp only [Futures.put, Function.update_of_ne same] at found
    exact settled object future found

/-- The destructor destroys what is in the storage. -/
theorem Matched.destroy (matched : Matched futures) (found : futures.objects this = some future) :
    Matched (futures.destroy this future) where
  inside := matched.inside
  lives := by
    rw [Futures.destroy, holding_record, holding_put, ← holding_of found]
    exact history_destruct matched.lives this

theorem Matched.returnValue_iff (matched : Matched futures) (settled : Settled futures)
    (found : futures.objects this = some future) :
    Matched ((futures.put this (some { future with resultCompleted := true })).record
      (.construct this) true) ↔ future.resultCompleted = false := by
  cases full : futures.holding this with
  | true =>
      refine iff_of_false (fun after => ?_) fun pending => ?_
      · have overwritten := history_overwrites matched.lives full
        cases overwritten.symm.trans after.lives
      · rw [holding_of found, Future.hasValue, pending] at full
        contradiction
  | false =>
      have constructed := history_construct matched.lives full true
      refine Iff.trans (matched_iff matched.inside constructed) ?_
      rw [holding_record, holding_put, Option.any_some,
        (Function.update_injective _ _).eq_iff]
      rw [holding_of found] at full
      have unfailed := settled this future found
      obtain ⟨promise, ePtr, resultCompleted⟩ := future
      cases ePtr <;> simp_all [Future.hasValue]

/-- Where no value was returned the exception takes nothing away. -/
theorem Matched.unhandledException_iff (matched : Matched futures)
    (found : futures.objects this = some future) :
    Matched (futures.put this
      (some { future with ePtr := some exception, resultCompleted := true })) ↔
        future.hasValue = false := by
  refine Iff.trans (matched_iff matched.inside matched.lives) ?_
  rw [holding_put, eq_comm, Function.update_eq_self_iff, holding_of found]
  exact eq_comm

variable [DecidableEq Promise]

omit [DecidableEq Object] in
@[simp] theorem holding_pointTo (futures : Futures Object Promise Exception) (promise : Promise)
    (this : Object) : (futures.pointTo promise this).holding = futures.holding := rfl

/-- A move constructs a value where the source has one, and the source keeps it unless it
has failed. -/
theorem Matched.moveConstruct_iff (matched : Matched futures) (vacant : futures.objects this = none)
    (found : futures.objects rhs = some future) :
    Matched (futures.moveConstruct this rhs future) ↔ future.failed = false := by
  have differ : rhs ≠ this := by
    rintro rfl
    rw [vacant] at found
    contradiction
  have constructed := history_construct matched.lives (holding_of_none vacant) future.hasValue
  have kept : Function.update futures.holding this future.hasValue rhs = future.hasValue := by
    rw [Function.update_of_ne differ, holding_of found]
  refine Iff.trans (matched_iff matched.inside constructed) ?_
  rw [Futures.moveConstruct, holding_record, holding_pointTo, holding_put, holding_put,
    Option.any_some, Option.any_some, eq_comm, Function.update_eq_self_iff, kept]
  exact hasValue_movedFrom_iff

omit [DecidableEq Promise] in
theorem put_same_objects (futures : Futures Object Promise Exception) (differ : rhs ≠ this)
    (future : Option (Future Promise Exception)) :
    (futures.put this future).objects rhs = futures.objects rhs := Function.update_of_ne differ ..

/-- The futures stay matched with the values through every call but one that the condition
excludes. -/
theorem Matched.call_iff (matched : Matched futures) (settled : Settled futures)
    (moved : futures.call label = some next) : Matched next ↔ Spares futures label := by
  cases label with
  | getReturnObject this promise =>
      obtain ⟨vacant, same⟩ := Option.ite_none_left_eq_some.mp moved
      cases same
      have empty : futures.objects this = none :=
        Option.not_isSome_iff_eq_none.mp fun taken => vacant (.inl taken)
      have kept : ((futures.put this (some (.getReturnObject promise))).pointTo promise
          this).holding = futures.holding := by
        rw [holding_pointTo, holding_put]
        exact Function.update_eq_self_iff.mpr (holding_of_none empty).symm
      exact iff_of_true ⟨matched.inside, kept ▸ matched.lives⟩ trivial
  | returnValue promise =>
      obtain ⟨this, pointed, rest⟩ := Option.bind_eq_some_iff.mp moved
      simp only [Spares, pointed, Option.mem_some_iff, forall_eq']
      cases found : futures.objects this with
      | some future =>
          rw [found] at rest
          cases rest
          rw [matched.returnValue_iff settled found]
          simp
      | none =>
          rw [found] at rest
          cases rest
          exact iff_of_false (fun after => Bool.noConfusion after.inside) (by simp)
  | unhandledException promise exception =>
      obtain ⟨this, pointed, rest⟩ := Option.bind_eq_some_iff.mp moved
      simp only [Spares, pointed, Option.mem_some_iff, forall_eq']
      cases found : futures.objects this with
      | some future =>
          rw [found] at rest
          cases rest
          rw [matched.unhandledException_iff found]
          simp
      | none =>
          rw [found] at rest
          cases rest
          exact iff_of_false (fun after => Bool.noConfusion after.inside) (by simp)
  | moveConstruct this rhs =>
      obtain ⟨taken, rest⟩ := Option.ite_none_left_eq_some.mp moved
      obtain ⟨future, found, same⟩ := Option.bind_eq_some_iff.mp rest
      cases same
      rw [matched.moveConstruct_iff (Option.not_isSome_iff_eq_none.mp taken) found]
      simp [Spares, found]
  | moveAssign this rhs =>
      obtain ⟨future, found, rest⟩ := Option.bind_eq_some_iff.mp moved
      obtain ⟨source, there, assigned⟩ := Option.bind_eq_some_iff.mp rest
      split at assigned
      · rename_i same
        cases assigned
        exact iff_of_true matched fun differ => absurd same differ
      · rename_i differ
        cases assigned
        have gone : (futures.destroy this future).objects this = none := Function.update_self ..
        have source' : (futures.destroy this future).objects rhs = some source :=
          (put_same_objects futures (Ne.symm differ) none).trans there
        rw [(matched.destroy found).moveConstruct_iff gone source']
        simp [Spares, there, differ]
  | destroy this =>
      obtain ⟨future, found, same⟩ := Option.bind_eq_some_iff.mp moved
      cases same
      exact iff_of_true (matched.destroy found) trivial

omit [DecidableEq Promise] in
theorem Settled.destroy (settled : Settled futures) : Settled (futures.destroy this future) :=
  settled.put nofun

theorem Settled.moveConstruct (settled : Settled futures)
    (found : futures.objects rhs = some future) :
    Settled (futures.moveConstruct this rhs future) := by
  refine Settled.put (settled.put fun other same => ?_) fun other same => ?_
  · cases same
    exact settled rhs future found
  · cases same
    exact nofun

theorem Settled.call (settled : Settled futures) (moved : futures.call label = some next) :
    Settled next := by
  cases label with
  | getReturnObject this promise =>
      obtain ⟨_, same⟩ := Option.ite_none_left_eq_some.mp moved
      cases same
      refine settled.put fun other same => ?_
      cases same
      exact nofun
  | returnValue promise =>
      obtain ⟨this, _, rest⟩ := Option.bind_eq_some_iff.mp moved
      split at rest
      · cases rest
        refine settled.put fun other same => ?_
        cases same
        exact fun _ => rfl
      · cases rest
        exact settled
  | unhandledException promise exception =>
      obtain ⟨this, _, rest⟩ := Option.bind_eq_some_iff.mp moved
      split at rest
      · cases rest
        refine settled.put fun other same => ?_
        cases same
        exact fun _ => rfl
      · cases rest
        exact settled
  | moveConstruct this rhs =>
      obtain ⟨_, rest⟩ := Option.ite_none_left_eq_some.mp moved
      obtain ⟨future, found, same⟩ := Option.bind_eq_some_iff.mp rest
      cases same
      exact settled.moveConstruct found
  | moveAssign this rhs =>
      obtain ⟨future, _, rest⟩ := Option.bind_eq_some_iff.mp moved
      obtain ⟨source, there, assigned⟩ := Option.bind_eq_some_iff.mp rest
      split at assigned
      · cases assigned
        exact settled
      · rename_i differ
        cases assigned
        exact settled.destroy.moveConstruct
          ((put_same_objects futures (Ne.symm differ) none).trans there)
  | destroy this =>
      obtain ⟨future, _, same⟩ := Option.bind_eq_some_iff.mp moved
      cases same
      exact settled.destroy

theorem matched_of_reachable
    (reachable : (machine Object Promise Exception).Reachable Spares futures) :
    Matched futures ∧ Settled futures := by
  apply reachable.invariant
  · rintro first rfl
    exact ⟨⟨rfl, rfl⟩, nofun⟩
  · intro state label next ⟨matched, settled⟩ spared moved
    exact ⟨(matched.call_iff settled moved).mpr spared, settled.call moved⟩

/-- While no failed future is moved from and every coroutine ends once and in a future that
exists, what was constructed in a storage and not destroyed is what the destructor of the
future there will destroy; the first call that does otherwise breaks this. -/
theorem destroyed_iff_constructed
    (reachable : (machine Object Promise Exception).Reachable Spares futures) :
    Matched futures ∧
      (∀ object, futures.changes.count (.construct object) =
        futures.changes.count (.destruct object) + (futures.holding object).toNat) ∧
      ∀ label next, (machine Object Promise Exception).move futures label = some next →
        (Matched next ↔ Spares futures label) := by
  obtain ⟨matched, settled⟩ := matched_of_reachable reachable
  exact ⟨matched, count_of_history matched.lives,
    fun label next moved => matched.call_iff settled moved⟩

/-- A value that was moved before and after its coroutine returned, and assigned over another
one. -/
theorem destroyed_iff_constructed_moved : ∃ futures : Futures ℕ Bool Unit,
    (machine ℕ Bool Unit).Reachable Spares futures ∧ Matched futures ∧
      futures.changes = [.construct 1, .construct 3, .destruct 3, .construct 3, .destruct 1] := by
  obtain ⟨futures, reachable, changes⟩ :=
    Machine.reachable_of_exec (machine ℕ Bool Unit) Spares .initial
      [.getReturnObject 0 false, .moveConstruct 1 0, .returnValue false, .moveConstruct 3 1,
        .moveAssign 3 1, .destroy 0, .destroy 1]
      (fun futures => futures.changes =
        [.construct 1, .construct 3, .destruct 3, .construct 3, .destruct 1])
      rfl ⟨_, rfl, rfl⟩
  exact ⟨futures, reachable, (destroyed_iff_constructed reachable).1, changes⟩

/-- The destructor of a future that has failed and was moved from destroys a value that there
never was. -/
theorem destroys_unconstructed : ∃ futures : Futures ℕ Unit Unit,
    (machine ℕ Unit Unit).Reachable Machine.free futures ∧ futures.changes = [.destruct 0] ∧
      history futures.changes = none ∧ ¬ Matched futures := by
  obtain ⟨futures, reachable, changes⟩ :=
    Machine.reachable_of_exec (machine ℕ Unit Unit) Machine.free .initial
      [.getReturnObject 0 (), .unhandledException () (), .moveConstruct 1 0, .destroy 0]
      (fun futures => futures.changes = [.destruct 0]) rfl ⟨_, rfl, rfl⟩
  have unsound : history futures.changes = none := by
    rw [changes]
    rfl
  refine ⟨futures, reachable, changes, unsound, fun matched => ?_⟩
  cases unsound.symm.trans matched.lives

end Asco.Futures
