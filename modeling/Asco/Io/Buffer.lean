import Asco.Foundation.Blocks
import Asco.Foundation.Machine

namespace Asco.Io

open Foundation Foundation.Blocks

universe u

/-! # `io::buffer`

Buffers are objects that other objects may outlive.  `m_allocator` points to an
allocator elsewhere or into the `m_allocator_storage` of a buffer, so the model
keeps the object it points into.
-/

inductive AllocatorPointer (Object Alloc : Type u) where
  | elsewhere (allocator : Alloc)
  | storage (object : Object)
deriving DecidableEq

structure Buffer (Object Ptr Alloc : Type u) where
  data : Option Ptr
  size : UInt64
  cursor : UInt64
  allocatorStorage : Option Alloc
  allocator : AllocatorPointer Object Alloc

/-- `std::span<const std::byte>` and `std::string_view`. -/
structure Span where
  bytes : List UInt8
  fits : bytes.length < 2 ^ 64

def Span.size (span : Span) : UInt64 := .ofNat span.bytes.length

/-- The allocator argument of a constructor: `Alloc &&` or `Alloc &`. -/
inductive Argument (Alloc : Type*) where
  | rvalue (allocator : Alloc)
  | reference (allocator : Alloc)

def Argument.allocator {Alloc : Type*} : Argument Alloc → Alloc
  | .rvalue allocator => allocator
  | .reference allocator => allocator

namespace Buffer

variable {Object Ptr Alloc : Type u}

/-- The members as the constructors initialise them. -/
def constructed (this : Object) (data : Option Ptr) (size cursor : UInt64) :
    Argument Alloc → Buffer Object Ptr Alloc
  | .rvalue allocator =>
      { data, size, cursor, allocatorStorage := some allocator, allocator := .storage this }
  | .reference allocator =>
      { data, size, cursor, allocatorStorage := none, allocator := .elsewhere allocator }

/-- The members a move gives the object `this` from those of `rhs`. -/
def moved [DecidableEq Object] [DecidableEq Alloc] (this rhs : Object)
    (buffer : Buffer Object Ptr Alloc) : Buffer Object Ptr Alloc :=
  { buffer with
    allocator :=
      if buffer.allocatorStorage.isSome ∧ buffer.allocator = .storage rhs then .storage this
      else buffer.allocator }

def emptied (buffer : Buffer Object Ptr Alloc) : Buffer Object Ptr Alloc :=
  { buffer with data := none, size := 0, cursor := 0 }

/-- The buffers that exist, the memory behind them and what the last `push`
returned. -/
structure State (Object Ptr Alloc : Type u) where
  memory : Memory Ptr Alloc
  buffers : Object → Option (Buffer Object Ptr Alloc)
  answer : UInt64

inductive Label (Object Ptr Alloc : Type u) where
  | construct (this : Object) (argument : Argument Alloc)
  | constructSize (this : Object) (size : UInt64) (argument : Argument Alloc) (fresh : Fresh Ptr)
  | constructString (this : Object) (string : Span) (argument : Argument Alloc)
      (fresh : Fresh Ptr)
  | moveConstruct (this rhs : Object)
  | moveAssign (this rhs : Object)
  | reserve (this : Object) (size : UInt64) (fresh : Fresh Ptr)
  | push (this : Object) (bytes : Span) (fresh : Fresh Ptr)
  | pushBuffer (this other : Object) (fresh : Fresh Ptr)
  | clear (this : Object)
  | destroy (this : Object)

variable [DecidableEq Object] [DecidableEq Ptr] [DecidableEq Alloc]

namespace State

/-- `*m_allocator`. -/
def allocatorOf (state : State Object Ptr Alloc) (buffer : Buffer Object Ptr Alloc) :
    Option Alloc :=
  match buffer.allocator with
  | .elsewhere allocator => some allocator
  | .storage object => (state.buffers object).bind Buffer.allocatorStorage

def put (state : State Object Ptr Alloc) (memory : Memory Ptr Alloc) (this : Object)
    (buffer : Option (Buffer Object Ptr Alloc)) : State Object Ptr Alloc :=
  { state with memory, buffers := Function.update state.buffers this buffer }

def construct (state : State Object Ptr Alloc) (this : Object) (argument : Argument Alloc) :
    Option (State Object Ptr Alloc) :=
  if (state.buffers this).isSome then none
  else some (state.put state.memory this (some (constructed this none 0 0 argument)))

def constructSize (state : State Object Ptr Alloc) (this : Object) (size : UInt64)
    (argument : Argument Alloc) (fresh : Fresh Ptr) : Option (State Object Ptr Alloc) :=
  if (state.buffers this).isSome then none
  else do
    let memory ← state.memory.allocate argument.allocator size.toNat fresh
    some (state.put memory this (some (constructed this (some fresh.pointer) size 0 argument)))

def constructString (state : State Object Ptr Alloc) (this : Object) (string : Span)
    (argument : Argument Alloc) (fresh : Fresh Ptr) : Option (State Object Ptr Alloc) :=
  if (state.buffers this).isSome then none
  else do
    let memory ← state.memory.allocate argument.allocator string.size.toNat fresh
    some (state.put (memory.write (some fresh.pointer) 0 string.bytes) this
      (some (constructed this (some fresh.pointer) string.size string.size argument)))

def clear (state : State Object Ptr Alloc) (this : Object) : Option (State Object Ptr Alloc) := do
  let buffer ← state.buffers this
  match buffer.data with
  | some data => do
      let allocator ← state.allocatorOf buffer
      some (state.put (state.memory.deallocate allocator data buffer.size.toNat) this
        (some buffer.emptied))
  | none => some (state.put state.memory this (some buffer.emptied))

/-- The destructor. -/
def destroy (state : State Object Ptr Alloc) (this : Object) :
    Option (State Object Ptr Alloc) := do
  let state ← state.clear this
  some (state.put state.memory this none)

/-- `this` takes the members of `rhs`, and `rhs.m_data = nullptr; rhs.clear()`. -/
def transfer (state : State Object Ptr Alloc) (this rhs : Object) :
    Option (State Object Ptr Alloc) := do
  let buffer ← state.buffers rhs
  let taken := state.put state.memory this (some (buffer.moved this rhs))
  (taken.put taken.memory rhs (some { buffer with data := none })).clear rhs

def moveConstruct (state : State Object Ptr Alloc) (this rhs : Object) :
    Option (State Object Ptr Alloc) :=
  if (state.buffers this).isSome then none else state.transfer this rhs

def moveAssign (state : State Object Ptr Alloc) (this rhs : Object) :
    Option (State Object Ptr Alloc) :=
  if (state.buffers this).isNone || (state.buffers rhs).isNone then none
  else if this = rhs then some state
  else do
    let state ← state.clear this
    state.transfer this rhs

def reserve (state : State Object Ptr Alloc) (this : Object) (size : UInt64)
    (fresh : Fresh Ptr) : Option (State Object Ptr Alloc) := do
  let buffer ← state.buffers this
  if size ≤ buffer.size - buffer.cursor then some state
  else do
    let newSize := buffer.cursor + size
    let allocator ← state.allocatorOf buffer
    let memory ← state.memory.allocate allocator newSize.toNat fresh
    let memory :=
      match buffer.data with
      | some data =>
          (memory.copy (some data) buffer.cursor.toNat (some fresh.pointer) 0).deallocate
            allocator data buffer.size.toNat
      | none => memory
    some (state.put memory this
      (some { buffer with data := some fresh.pointer, size := newSize }))

/-- The memory, the members of `this` and the result. -/
def tryAdvance (state : State Object Ptr Alloc) (buffer : Buffer Object Ptr Alloc)
    (count : UInt64) (fresh : Fresh Ptr) :
    Option (Memory Ptr Alloc × Buffer Object Ptr Alloc × UInt64) :=
  if buffer.size = 0 then do
    let allocator ← state.allocatorOf buffer
    let memory ← state.memory.allocate allocator count.toNat fresh
    some (memory,
      { buffer with data := some fresh.pointer, size := count, cursor := count }, count)
  else
    let remaining := buffer.size - buffer.cursor
    let advanceBy := min count remaining
    some (state.memory, { buffer with cursor := buffer.cursor + advanceBy }, advanceBy)

def push (state : State Object Ptr Alloc) (this : Object) (bytes : Span) (fresh : Fresh Ptr) :
    Option (State Object Ptr Alloc) := do
  let buffer ← state.buffers this
  let (memory, advanced, size) ← state.tryAdvance buffer bytes.size fresh
  some { state.put (memory.write advanced.data buffer.cursor.toNat (bytes.bytes.take size.toNat))
    this (some advanced) with answer := size }

/-- `push(const buffer &)` pushes the span `{buf.data(), buf.m_cursor}`. -/
def pushBuffer (state : State Object Ptr Alloc) (this other : Object) (fresh : Fresh Ptr) :
    Option (State Object Ptr Alloc) := do
  let buffer ← state.buffers this
  let source ← state.buffers other
  let (memory, advanced, size) ← state.tryAdvance buffer source.cursor fresh
  some { state.put (memory.copy source.data size.toNat advanced.data buffer.cursor.toNat)
    this (some advanced) with answer := size }

def move (state : State Object Ptr Alloc) : Label Object Ptr Alloc → Option (State Object Ptr Alloc)
  | .construct this argument => state.construct this argument
  | .constructSize this size argument fresh => state.constructSize this size argument fresh
  | .constructString this string argument fresh => state.constructString this string argument fresh
  | .moveConstruct this rhs => state.moveConstruct this rhs
  | .moveAssign this rhs => state.moveAssign this rhs
  | .reserve this size fresh => state.reserve this size fresh
  | .push this bytes fresh => state.push this bytes fresh
  | .pushBuffer this other fresh => state.pushBuffer this other fresh
  | .clear this => state.clear this
  | .destroy this => state.destroy this

omit [DecidableEq Object] [DecidableEq Ptr] [DecidableEq Alloc] in
/-- No buffer exists and no memory is in use. -/
def initial : State Object Ptr Alloc :=
  { memory := .empty, buffers := fun _ => none, answer := 0 }

/-- Every buffer has been destroyed. -/
def AllDestroyed (state : State Object Ptr Alloc) : Prop := ∀ object, state.buffers object = none

end State

def machine (Object Ptr Alloc : Type u) [DecidableEq Object] [DecidableEq Ptr]
    [DecidableEq Alloc] : Machine (State Object Ptr Alloc) (Label Object Ptr Alloc) where
  start state := state = .initial
  move := State.move

end Buffer

end Asco.Io
