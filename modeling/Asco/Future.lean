import Asco.Foundation.Lifetimes
import Asco.Foundation.Machine

namespace Asco

open Foundation Foundation.Lifetimes

/-! # `future`

Futures are objects in raw memory, and the promise of a coroutine keeps a pointer
to one of them.  Every move of a future redirects that pointer.
-/

/-- The promise is the one whose `m_future_object` the `m_promise_storage_ptr` points to. -/
structure Future (Promise Exception : Type) where
  promise : Promise
  ePtr : Option Exception
  resultCompleted : Bool

namespace Future

variable {Promise Exception : Type}

/-- `m_result_completed && !m_e_ptr`, by which a move and the destructor tell that there is a
value. -/
def hasValue (future : Future Promise Exception) : Bool :=
  future.resultCompleted && future.ePtr.isNone

/-- The coroutine has ended with an exception, and this object has it. -/
def failed (future : Future Promise Exception) : Bool :=
  future.resultCompleted && future.ePtr.isSome

/-- What is left of the source of a move: the flag is copied, the pointer is taken. -/
def movedFrom (future : Future Promise Exception) : Future Promise Exception :=
  { future with ePtr := none }

/-- `get_return_object`. -/
def getReturnObject (promise : Promise) : Future Promise Exception :=
  { promise, ePtr := none, resultCompleted := false }

end Future

/-- The futures that exist, the `m_future_object` of the promises, what was done to the
storages of values, and whether a promise has written to an object that is gone. -/
structure Futures (Object Promise Exception : Type) where
  objects : Object → Option (Future Promise Exception)
  futureObject : Promise → Option Object
  changes : List (Lifetimes.Change Object)
  stray : Bool

inductive FutureCall (Object Promise Exception : Type) where
  | getReturnObject (this : Object) (promise : Promise)
  | returnValue (promise : Promise)
  | unhandledException (promise : Promise) (exception : Exception)
  | moveConstruct (this rhs : Object)
  | moveAssign (this rhs : Object)
  | destroy (this : Object)

namespace Futures

variable {Object Promise Exception : Type}

def initial : Futures Object Promise Exception :=
  { objects := fun _ => none, futureObject := fun _ => none, changes := [], stray := false }

variable [DecidableEq Object]

def put (futures : Futures Object Promise Exception) (this : Object)
    (future : Option (Future Promise Exception)) : Futures Object Promise Exception :=
  { futures with objects := Function.update futures.objects this future }

def record (futures : Futures Object Promise Exception) (change : Lifetimes.Change Object)
    (takesPlace : Bool) : Futures Object Promise Exception :=
  { futures with changes := futures.changes ++ if takesPlace then [change] else [] }

/-- The destructor. -/
def destroy (futures : Futures Object Promise Exception) (this : Object)
    (future : Future Promise Exception) : Futures Object Promise Exception :=
  (futures.put this none).record (.destruct this) future.hasValue

variable [DecidableEq Promise]

def pointTo (futures : Futures Object Promise Exception) (promise : Promise) (this : Object) :
    Futures Object Promise Exception :=
  { futures with futureObject := Function.update futures.futureObject promise (some this) }

/-- The move constructor at `this`. -/
def moveConstruct (futures : Futures Object Promise Exception) (this rhs : Object)
    (future : Future Promise Exception) : Futures Object Promise Exception :=
  (((futures.put this (some future)).put rhs (some future.movedFrom)).pointTo future.promise
    this).record (.construct this) future.hasValue

def call (futures : Futures Object Promise Exception) :
    FutureCall Object Promise Exception → Option (Futures Object Promise Exception)
  | .getReturnObject this promise =>
      if (futures.objects this).isSome ∨ (futures.futureObject promise).isSome then none
      else some ((futures.put this (some (.getReturnObject promise))).pointTo promise this)
  | .returnValue promise => do
      let this ← futures.futureObject promise
      match futures.objects this with
      | some future =>
          some ((futures.put this (some { future with resultCompleted := true })).record
            (.construct this) true)
      | none => some { futures with stray := true }
  | .unhandledException promise exception => do
      let this ← futures.futureObject promise
      match futures.objects this with
      | some future =>
          some (futures.put this
            (some { future with ePtr := some exception, resultCompleted := true }))
      | none => some { futures with stray := true }
  | .moveConstruct this rhs =>
      if (futures.objects this).isSome then none
      else do
        let future ← futures.objects rhs
        some (futures.moveConstruct this rhs future)
  | .moveAssign this rhs => do
      let future ← futures.objects this
      let source ← futures.objects rhs
      if this = rhs then some futures
      else some ((futures.destroy this future).moveConstruct this rhs source)
  | .destroy this => do
      let future ← futures.objects this
      some (futures.destroy this future)

variable (Object Promise Exception) in
def machine : Machine (Futures Object Promise Exception)
    (FutureCall Object Promise Exception) where
  start futures := futures = initial
  move := call

end Futures

end Asco
