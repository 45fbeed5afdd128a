import Asco.Util.SafeErased

namespace Asco.Util.SafeErased

open Foundation Foundation.Lifetimes

/-! # The value of a `safe_erased`

The objects are boxes, whose values are moved but not copied; each value that is constructed is
destroyed once, and `get` refers to a value of its own type.
-/

variable {Object Address Ty : Type} {Value : Ty → Type}

/-- The storage that the destructor of an object destroys. -/
def State.owning (state : State Object Address Value) (object : Object) : Option Address :=
  (state.objects object).bind fun this => this.erased.owned

/-- The values that the objects own. -/
def State.boxes (state : State Object Address Value) : Object → Option (Sigma Value) :=
  holding state.owning state.contents

/-- The deleter and the `type_id` are those of the value. -/
def Typed (this : SafeErased Address Ty) (value : Sigma Value) : Prop :=
  this.erased.deleter = some value.1 ∧ this.tid = .of value.1

variable {state next : State Object Address Value} {this rhs object : Object}
  {target source : SafeErased Address Ty} {address : Address}

theorem owning_vacant (vacant : ¬ (state.objects this).isSome = true) :
    state.owning this = none := by
  simp only [Option.not_isSome_iff_eq_none] at vacant
  simp [State.owning, vacant]

theorem owning_put [DecidableEq Object] (left : Option (SafeErased Address Ty)) :
    (state.put this left).owning =
      Function.update state.owning this (left.bind fun this => this.erased.owned) := by
  funext object
  by_cases same : object = this
  · subst same
    simp [State.owning, State.put]
  · simp [State.owning, State.put, same]

variable [DecidableEq Address]

structure Invariant (state : State Object Address Value) : Prop where
  lives : history state.changes = some fun address => (state.contents address).isSome
  ownership : Ownership state.owning state.contents
  typed : ∀ object this address value, state.objects object = some this →
    this.erased.owned = some address → state.contents address = some value → Typed this value

theorem Invariant.initial : Invariant (State.initial : State Object Address Value) :=
  ⟨rfl, .empty, by simp [State.initial]⟩

variable [DecidableEq Object]

/-- An object that owns nothing takes the place of one that owns nothing, or of none. -/
theorem Invariant.put (invariant : Invariant state) (vacant : state.owning this = none)
    (left : Option (SafeErased Address Ty))
    (nothing : (left.bind fun this => this.erased.owned) = none) :
    Invariant (state.put this left) ∧
      (state.put this left).boxes = Function.update state.boxes this none := by
  have same : (state.put this left).owning = state.owning := by
    rw [owning_put, nothing]
    exact Function.update_eq_self_iff.mpr vacant.symm
  refine ⟨⟨invariant.lives, ?_, fun object other address value found owns lives => ?_⟩, ?_⟩
  · rw [same]
    exact invariant.ownership
  · by_cases here : object = this
    · subst here
      simp only [State.put, Function.update_self] at found
      subst found
      cases nothing.symm.trans owns
    · refine invariant.typed object other address value ?_ owns lives
      simpa [State.put, here] using found
  · rw [State.boxes, same]
    exact (Function.update_eq_self_iff.mpr (Ownership.holding_vacant vacant).symm).symm

theorem Invariant.construct (invariant : Invariant state) (vacant : state.owning this = none)
    (free : state.contents address = none) (value : Sigma Value) :
    Invariant (state.construct this address value) ∧
      (state.construct this address value).boxes =
        Function.update state.boxes this (some value) := by
  have owning : (state.construct this address value).owning =
      Function.update state.owning this (some address) := owning_put _
  refine ⟨⟨?_, ?_, fun object other storage living found owns lives => ?_⟩, ?_⟩
  · have constructed := history_construct invariant.lives (by rw [free]; rfl) true
    refine constructed.trans (congrArg some (funext fun other => ?_))
    by_cases here : other = address
    · subst here
      simp [State.construct]
    · simp [State.construct, here]
  · rw [owning]
    exact invariant.ownership.acquire vacant free value
  · by_cases here : object = this
    · subst here
      simp only [State.construct, Function.update_self, Option.some.injEq] at found
      subst found
      cases owns
      simp only [State.construct, Function.update_self, Option.some.injEq] at lives
      subst lives
      exact ⟨rfl, rfl⟩
    · have before : state.objects object = some other := by
        simpa [State.construct, here] using found
      have apart : storage ≠ address := by
        rintro rfl
        exact invariant.ownership.unowned free object (by simp [State.owning, before, owns])
      refine invariant.typed object other storage living before owns ?_
      simpa [State.construct, apart] using lives
  · rw [State.boxes, owning]
    exact invariant.ownership.holding_acquire free value

theorem Invariant.destroy (invariant : Invariant state) (found : state.objects this = some target) :
    Invariant (state.destroy this target.erased) ∧
      (state.destroy this target.erased).boxes = Function.update state.boxes this none := by
  cases owns : target.erased.owned with
  | none =>
      have vacant : state.owning this = none := by simp [State.owning, found, owns]
      simp only [State.destroy, owns]
      exact invariant.put vacant none rfl
  | some address =>
      have owned : state.owning this = some address := by simp [State.owning, found, owns]
      have alive : (state.contents address).isSome = true :=
        (invariant.ownership.used address).mpr ⟨this, owned⟩
      have owning : (state.destroy this target.erased).owning =
          Function.update state.owning this none := by
        simp only [State.destroy, owns]
        exact owning_put none
      have contents : (state.destroy this target.erased).contents =
          Function.update state.contents address none := by simp only [State.destroy, owns]
      refine ⟨⟨?_, ?_, fun object other storage value kept keeps lives => ?_⟩, ?_⟩
      · have destroyed := history_destruct invariant.lives address
        rw [if_pos alive] at destroyed
        simp only [State.destroy, owns]
        refine destroyed.trans (congrArg some (funext fun other => ?_))
        by_cases here : other = address
        · subst here
          simp
        · simp [here]
      · rw [owning, contents]
        exact invariant.ownership.release owned
      · have apart : object ≠ this := by
          rintro rfl
          simp [State.destroy, owns] at kept
        have before : state.objects object = some other := by
          simpa [State.destroy, owns, apart] using kept
        have elsewhere : storage ≠ address := by
          rintro rfl
          exact invariant.ownership.others owned apart (by simp [State.owning, before, keeps])
        refine invariant.typed object other storage value before keeps ?_
        simpa [contents, elsewhere] using lives
      · rw [State.boxes, owning, contents]
        exact invariant.ownership.holding_release owned

theorem Invariant.moveConstruct (invariant : Invariant state) (vacant : state.objects this = none)
    (found : state.objects rhs = some source) :
    Invariant (state.moveConstruct this rhs source) ∧
      (state.moveConstruct this rhs source).boxes =
        Function.update (Function.update state.boxes this (state.boxes rhs)) rhs none := by
  have empty : state.owning this = none := by simp [State.owning, vacant]
  have owning : (state.moveConstruct this rhs source).owning =
      Function.update (Function.update state.owning this (state.owning rhs)) rhs none := by
    rw [State.moveConstruct, owning_put, owning_put]
    simp [State.owning, found, movedFrom, Erased.owned, Erased.null]
  refine ⟨⟨invariant.lives, ?_, fun object other address value kept owns lives => ?_⟩, ?_⟩
  · rw [owning]
    exact invariant.ownership.hand empty
  · by_cases last : object = rhs
    · subst last
      simp only [State.moveConstruct, State.put, Function.update_self, Option.some.injEq] at kept
      subst kept
      cases owns
    · by_cases first : object = this
      · subst first
        simp only [State.moveConstruct, State.put, Function.update_self,
          Function.update_of_ne last, Option.some.injEq] at kept
        subst kept
        exact invariant.typed rhs source address value found owns lives
      · refine invariant.typed object other address value ?_ owns lives
        simpa [State.moveConstruct, State.put, last, first] using kept
  · rw [State.boxes, owning]
    exact Ownership.holding_hand empty

/-- What the destructor leaves of the other objects. -/
theorem objects_destroy (erased : Erased Address Ty) :
    (state.destroy this erased).objects = Function.update state.objects this none := by
  cases owns : erased.owned <;> simp only [State.destroy, owns, State.put]

theorem Invariant.call (invariant : Invariant state) {call : Call Object Address Value}
    (called : state.call call = some next) :
    Invariant next ∧ next.boxes = boxed state.boxes call := by
  cases call with
  | default this =>
      obtain ⟨vacant, same⟩ := Option.ite_none_left_eq_some.mp called
      cases same
      exact invariant.put (owning_vacant vacant) _ rfl
  | ofVoid this =>
      obtain ⟨vacant, same⟩ := Option.ite_none_left_eq_some.mp called
      cases same
      exact invariant.put (owning_vacant vacant) _ rfl
  | construct this address value =>
      obtain ⟨unused, same⟩ := Option.ite_none_left_eq_some.mp called
      cases same
      obtain ⟨vacant, free⟩ := not_or.mp unused
      exact invariant.construct (owning_vacant vacant) (by simpa using free) value
  | constructRef this address type =>
      obtain ⟨vacant, same⟩ := Option.ite_none_left_eq_some.mp called
      cases same
      exact invariant.put (owning_vacant vacant) _ rfl
  | moveConstruct this rhs =>
      obtain ⟨vacant, moved⟩ := Option.ite_none_left_eq_some.mp called
      obtain ⟨source, found, same⟩ := Option.map_eq_some_iff.mp moved
      cases same
      exact invariant.moveConstruct (by simpa using vacant) found
  | moveAssign this rhs =>
      obtain ⟨target, here, assigned⟩ := Option.bind_eq_some_iff.mp called
      obtain ⟨source, found, moved⟩ := Option.bind_eq_some_iff.mp assigned
      simp only [boxed]
      split at moved
      · rename_i same
        cases moved
        rw [if_pos same]
        exact ⟨invariant, rfl⟩
      · rename_i apart
        cases moved
        rw [if_neg apart]
        obtain ⟨destroyed, boxes⟩ := invariant.destroy here
        have gone : (state.destroy this target.erased).objects this = none := by
          simp [objects_destroy]
        have kept : (state.destroy this target.erased).objects rhs = some source := by
          simp [objects_destroy, Ne.symm apart, found]
        obtain ⟨moved, handed⟩ := destroyed.moveConstruct gone kept
        refine ⟨moved, ?_⟩
        rw [handed, boxes, Function.update_idem, Function.update_of_ne (Ne.symm apart)]
  | destroy this =>
      obtain ⟨target, found, same⟩ := Option.bind_eq_some_iff.mp called
      cases same
      exact invariant.destroy found

/-- The objects are the boxes and satisfy the invariant. -/
theorem simulates :
    Machine.Simulates (machine Object Address Value) (boxesMachine Object Address Value)
      Machine.free fun state boxes => Invariant state ∧ state.boxes = boxes where
  initial := by
    rintro _ _ rfl rfl
    exact ⟨.initial, rfl⟩
  step := by
    rintro state _ call next _ ⟨invariant, rfl⟩ _ called answered
    cases answered
    exact invariant.call called

/-- The objects are boxes whose values are moved.  A reference to the value of a box is given out
for its own type only, each value that lives has one object, and it is destroyed once. -/
theorem boxes_of_reachable [DecidableEq Ty]
    {state : State Object Address Value × (Object → Option (Sigma Value))}
    (reachable : ((machine Object Address Value).product
      (boxesMachine Object Address Value)).Reachable (Machine.abstractly Machine.free) state) :
    state.1.boxes = state.2 ∧
    (∀ object value, state.2 object = some value → ∃ this address,
      state.1.objects object = some this ∧ state.1.contents address = some value ∧
      this.erased.deleter = some value.1 ∧
      ∀ type, this.get type = if value.1 = type then some (some address) else none) ∧
    (∀ address, (state.1.contents address).isSome = true →
      ∃! object, state.1.owning object = some address) ∧
    history state.1.changes = some (fun address => (state.1.contents address).isSome) ∧
    ∀ address, state.1.changes.count (.construct address) =
      state.1.changes.count (.destruct address) + (state.1.contents address).isSome.toNat := by
  obtain ⟨invariant, same⟩ := simulates.related reachable
  refine ⟨same, fun object value has => ?_, fun address => invariant.ownership.exists_unique,
    invariant.lives, count_of_history invariant.lives⟩
  rw [← same] at has
  obtain ⟨address, owns, lives⟩ := Option.bind_eq_some_iff.mp has
  obtain ⟨this, found, owned⟩ := Option.bind_eq_some_iff.mp owns
  obtain ⟨deleter, tid⟩ := invariant.typed object this address value found owned lives
  refine ⟨this, address, found, lives, deleter, fun type => ?_⟩
  simp only [get, tid, Erased.storage_of_owned owned, TypeId.of.injEq]

/-- The value of one object is moved to another one, over the value that was there. -/
def overwritten : List (Call (Fin 2) (Fin 2) fun _ : Bool => ℕ) :=
  [.construct 0 0 ⟨true, 5⟩, .construct 1 1 ⟨false, 7⟩, .moveAssign 1 0]

/-- The check of `get` passes for the object that the value was moved from, whose reference is
to null. -/
theorem boxes_of_reachable_overwritten :
    ∃ state : State (Fin 2) (Fin 2) (fun _ : Bool => ℕ) × (Fin 2 → Option (Σ _ : Bool, ℕ)),
      state.1.boxes 1 = some ⟨true, 5⟩ ∧
      (state.1.objects 0).map (fun this => this.get true) = some (some none) := by
  obtain ⟨state, reachable, moved, empty⟩ :=
    Machine.reachable_of_exec
      ((machine (Fin 2) (Fin 2) fun _ : Bool => ℕ).product (boxesMachine (Fin 2) (Fin 2) _))
      (Machine.abstractly Machine.free) (.initial, fun _ => none) overwritten
      (fun state => state.2 1 = some ⟨true, 5⟩ ∧
        (state.1.objects 0).map (fun this => this.get true) = some (some none)) ⟨rfl, rfl⟩
      ⟨_, rfl, rfl, rfl⟩
  exact ⟨state, (congrFun (boxes_of_reachable reachable).1 1).trans moved, empty⟩

end Asco.Util.SafeErased
