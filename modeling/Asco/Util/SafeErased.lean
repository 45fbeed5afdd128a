import Asco.Foundation.Lifetimes
import Asco.Foundation.Machine
import Asco.Foundation.Ownership

namespace Asco.Util

open Foundation

/-! # `safe_erased`

A value of any type in storage of its own, with the `type_id` by which an access is checked.
-/

/-- `storage` is `m_storage`, null or an address, and `deleter` the type whose
`default_deleter` is in `m_deleter`; `m_align`, which is handed to the allocator, is left out. -/
structure Erased (Address Ty : Type) where
  storage : Option Address
  deleter : Option Ty

/-- A default `type_id`, that of `void` and those of the types of values.  A type stands for
its `type_id`, so that different types have different ones. -/
inductive TypeId (Ty : Type) where
  | default
  | void
  | of (type : Ty)
deriving DecidableEq

structure SafeErased (Address Ty : Type) where
  erased : Erased Address Ty
  tid : TypeId Ty

variable {Object Address Ty : Type} {Value : Ty → Type}

namespace Erased

def null : Erased Address Ty := { storage := none, deleter := none }

/-- The storage that the destructor destroys and deallocates. -/
def owned (erased : Erased Address Ty) : Option Address :=
  match erased.storage, erased.deleter with
  | some storage, some _ => some storage
  | _, _ => none

theorem storage_of_owned {erased : Erased Address Ty} {address : Address}
    (owns : erased.owned = some address) : erased.storage = some address := by
  obtain ⟨storage, deleter⟩ := erased
  cases storage with
  | none => cases owns
  | some storage =>
      cases deleter with
      | none => cases owns
      | some type => exact owns

end Erased

namespace SafeErased

/-- What the move constructor leaves: that of `erased` clears its source, and `m_tid` is
copied. -/
def movedFrom (source : SafeErased Address Ty) : SafeErased Address Ty :=
  { erased := .null, tid := source.tid }

/-- `get<T>()` where assertions are checked: the address of the reference, which may be null,
or `none` where the assertion fails. -/
def get [DecidableEq Ty] (this : SafeErased Address Ty) (type : Ty) : Option (Option Address) :=
  if this.tid = .of type then some this.erased.storage else none

/-- The objects that exist, the values that live in allocated storage, and what was constructed
and destroyed where. -/
structure State (Object Address : Type) {Ty : Type} (Value : Ty → Type) where
  objects : Object → Option (SafeErased Address Ty)
  contents : Address → Option (Sigma Value)
  changes : List (Lifetimes.Change Address)

/-- `construct` is the constructor from a value, for which `operator new` returns the address;
`constructRef` is the one from a `ref` to what is at the address. -/
inductive Call (Object Address : Type) {Ty : Type} (Value : Ty → Type) where
  | default (this : Object)
  | ofVoid (this : Object)
  | construct (this : Object) (address : Address) (value : Sigma Value)
  | constructRef (this : Object) (address : Address) (type : Ty)
  | moveConstruct (this rhs : Object)
  | moveAssign (this rhs : Object)
  | destroy (this : Object)

namespace State

def initial : State Object Address Value :=
  { objects := fun _ => none, contents := fun _ => none, changes := [] }

variable [DecidableEq Object]

/-- A constructor that allocates nothing, or the end of an object that owns nothing. -/
def put (state : State Object Address Value) (this : Object)
    (left : Option (SafeErased Address Ty)) : State Object Address Value :=
  { state with objects := Function.update state.objects this left }

def moveConstruct (state : State Object Address Value) (this rhs : Object)
    (source : SafeErased Address Ty) : State Object Address Value :=
  (state.put this (some source)).put rhs (some source.movedFrom)

variable [DecidableEq Address]

def construct (state : State Object Address Value) (this : Object) (address : Address)
    (value : Sigma Value) : State Object Address Value :=
  { objects := Function.update state.objects this
      (some { erased := { storage := some address, deleter := some value.1 }, tid := .of value.1 })
    contents := Function.update state.contents address (some value)
    changes := state.changes ++ [.construct address] }

def destroy (state : State Object Address Value) (this : Object)
    (erased : Erased Address Ty) : State Object Address Value :=
  match erased.owned with
  | some address =>
      { objects := Function.update state.objects this none
        contents := Function.update state.contents address none
        changes := state.changes ++ [.destruct address] }
  | none => state.put this none

/-- Objects are constructed where there is none, and `operator new` returns storage that is not
in use. -/
def call (state : State Object Address Value) :
    Call Object Address Value → Option (State Object Address Value)
  | .default this =>
      if (state.objects this).isSome then none
      else some (state.put this (some { erased := .null, tid := .default }))
  | .ofVoid this =>
      if (state.objects this).isSome then none
      else some (state.put this (some { erased := .null, tid := .void }))
  | .construct this address value =>
      if (state.objects this).isSome ∨ (state.contents address).isSome then none
      else some (state.construct this address value)
  | .constructRef this address type =>
      if (state.objects this).isSome then none
      else some (state.put this
        (some { erased := { storage := some address, deleter := none }, tid := .of type }))
  | .moveConstruct this rhs =>
      if (state.objects this).isSome then none
      else (state.objects rhs).map (state.moveConstruct this rhs)
  | .moveAssign this rhs => do
      let target ← state.objects this
      let source ← state.objects rhs
      if this = rhs then some state
      else some ((state.destroy this target.erased).moveConstruct this rhs source)
  | .destroy this => do
      let target ← state.objects this
      some (state.destroy this target.erased)

end State

variable [DecidableEq Object] [DecidableEq Address]

variable (Object Address Value) in
def machine : Machine (State Object Address Value) (Call Object Address Value) where
  start state := state = .initial
  move := State.call

/-! ## What it is for -/

/-- What the calls do to boxes, each of which has a value or is empty. -/
def boxed (boxes : Object → Option (Sigma Value)) :
    Call Object Address Value → Object → Option (Sigma Value)
  | .default this | .ofVoid this | .constructRef this .. | .destroy this =>
      Function.update boxes this none
  | .construct this _ value => Function.update boxes this (some value)
  | .moveConstruct this rhs =>
      Function.update (Function.update boxes this (boxes rhs)) rhs none
  | .moveAssign this rhs =>
      if this = rhs then boxes
      else Function.update (Function.update boxes this (boxes rhs)) rhs none

variable (Object Address Value) in
def boxesMachine : Machine (Object → Option (Sigma Value)) (Call Object Address Value) where
  start boxes := boxes = fun _ => none
  move boxes call := some (boxed boxes call)

end SafeErased

end Asco.Util
