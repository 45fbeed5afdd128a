import Asco.Foundation.CyclicSegment
import Asco.Foundation.Machine

namespace Asco.Concurrency.RingQueue

open Foundation

/-! # `ring_queue`: the queue of many senders and many receivers

A step is one atomic operation on `head`, `tail` or a slot state, with the plain
code that follows it; a value is constructed, or moved out, with the store that
publishes the result.  `storage_size` is `Cap + 1`, and an index is taken modulo
it.
-/

inductive SlotState where
  | empty
  | constructing
  | filled
  | deconstructing
  | exception
deriving DecidableEq

/-- `slots` is `none` where the raw storage holds no object. -/
structure Storage (α : Type*) (Cap : ℕ) where
  head : Fin (Cap + 1)
  tail : Fin (Cap + 1)
  states : Fin (Cap + 1) → SlotState
  slots : Fin (Cap + 1) → Option α

/-- Where a call of `try_send` or `try_recv` stands; `head` and `tail` are its
`current_head` and `current_tail`. -/
inductive Pc (α : Type*) (Cap : ℕ) where
  | sendLoadHead (value : α)
  | sendLoadTail (value : α) (head : Fin (Cap + 1))
  | sendCheckTail (value : α) (head tail : Fin (Cap + 1))
  | sendCheckHead (value : α) (head tail : Fin (Cap + 1))
  | sendClaim (value : α) (tail : Fin (Cap + 1))
  | sendAdvance (value : α) (tail : Fin (Cap + 1))
  | sendRelease (value : α) (tail : Fin (Cap + 1))
  | sendConstruct (value : α) (tail : Fin (Cap + 1))
  | recvLoadHead
  | recvLoadTail (head : Fin (Cap + 1))
  | recvCheckHead (head tail : Fin (Cap + 1))
  | recvClaim (head tail : Fin (Cap + 1))
  | recvSkip (head : Fin (Cap + 1))
  | recvSkipAdvance (head : Fin (Cap + 1))
  | recvAdvance (head : Fin (Cap + 1))
  | recvMoveOut (head : Fin (Cap + 1))

/-- How a call ends: `full` hands the value back, `nothing` is `nullopt`, and
`threw` lets an exception of the element out. -/
inductive Outcome (α : Type*) where
  | sent (value : α)
  | full (value : α)
  | received (value : α)
  | nothing
  | threw

inductive Progress (α : Type*) (Cap : ℕ) where
  | running (pc : Pc α Cap)
  | done (outcome : Outcome α)

variable {α : Type*} {Cap : ℕ}

namespace Storage

def create (α : Type*) (Cap : ℕ) : Storage α Cap where
  head := 0
  tail := 0
  states _ := .empty
  slots _ := none

def setState (storage : Storage α Cap) (index : Fin (Cap + 1)) (state : SlotState) :
    Storage α Cap :=
  { storage with states := Function.update storage.states index state }

def setSlot (storage : Storage α Cap) (index : Fin (Cap + 1)) (value : Option α) :
    Storage α Cap :=
  { storage with slots := Function.update storage.slots index value }

end Storage

/-- The test at `start_race` and what follows it. -/
def startRace (head tail : Fin (Cap + 1)) : Progress α Cap :=
  if head = tail then .done .nothing else .running (.recvCheckHead head tail)

/-- The next step of a call; `throws` makes a constructor or a move throw.
Moving out of a slot without an object has no result. -/
def resume (storage : Storage α Cap) (throws : Bool) :
    Pc α Cap → Option (Storage α Cap × Progress α Cap)
  | .sendLoadHead value => some (storage, .running (.sendLoadTail value storage.head))
  | .sendLoadTail value head =>
      if storage.tail + 1 = head then some (storage, .done (.full value))
      else some (storage, .running (.sendCheckTail value head storage.tail))
  | .sendCheckTail value head tail =>
      if storage.tail = tail then some (storage, .running (.sendCheckHead value head tail))
      else some (storage, .running (.sendLoadHead value))
  | .sendCheckHead value head tail =>
      if storage.head = head then some (storage, .running (.sendClaim value tail))
      else some (storage, .running (.sendLoadHead value))
  | .sendClaim value tail =>
      if storage.states tail = .empty then
        some (storage.setState tail .constructing, .running (.sendAdvance value tail))
      else some (storage, .running (.sendLoadHead value))
  | .sendAdvance value tail =>
      if storage.tail = tail then
        some ({ storage with tail := tail + 1 }, .running (.sendConstruct value tail))
      else some (storage, .running (.sendRelease value tail))
  | .sendRelease value tail =>
      some (storage.setState tail .empty, .running (.sendLoadHead value))
  | .sendConstruct value tail =>
      if throws then some (storage.setState tail .exception, .done .threw)
      else some ((storage.setSlot tail (some value)).setState tail .filled, .done (.sent value))
  | .recvLoadHead => some (storage, .running (.recvLoadTail storage.head))
  | .recvLoadTail head => some (storage, startRace head storage.tail)
  | .recvCheckHead head tail =>
      if storage.head = head then some (storage, .running (.recvClaim head tail))
      else some (storage, .running .recvLoadHead)
  | .recvClaim head tail =>
      match storage.states head with
      | .filled => some (storage.setState head .deconstructing, .running (.recvAdvance head))
      | .exception => some (storage, .running (.recvSkip head))
      | .constructing => some (storage, .done .nothing)
      | .empty | .deconstructing => some (storage, startRace (head + 1) tail)
  | .recvSkip head => some (storage.setState head .empty, .running (.recvSkipAdvance head))
  | .recvSkipAdvance head =>
      if storage.head = head then
        some ({ storage with head := head + 1 }, .running .recvLoadHead)
      else some (storage, .running .recvLoadHead)
  | .recvAdvance head =>
      if storage.head = head then
        some ({ storage with head := head + 1 }, .running (.recvMoveOut head))
      else some (storage, .running (.recvAdvance head))
  | .recvMoveOut head =>
      if throws then some (storage.setState head .empty, .done .threw)
      else
        (storage.slots head).map fun value =>
          ((storage.setSlot head none).setState head .empty, .done (.received value))

/-- A call that runs alone, with elements that do not throw, for at most `fuel` steps. -/
def complete : ℕ → Storage α Cap → Pc α Cap → Option (Storage α Cap × Outcome α)
  | 0, _, _ => none
  | fuel + 1, storage, pc =>
      match resume storage false pc with
      | none => none
      | some (next, .done outcome) => some (next, outcome)
      | some (next, .running pc) => complete fuel next pc

/-! ## Any number of threads on one queue -/

/-- The queue, with the values that `try_send` has reported as sent and the
values that `try_recv` has returned. -/
structure Queue (α : Type*) (Cap : ℕ) where
  storage : Storage α Cap
  sent : List α
  received : List α

inductive Label (α : Type*) where
  | trySend (value : α)
  | tryRecv
  | step (throws : Bool)

def Label.throws : Label α → Bool
  | .step throws => throws
  | _ => false

def Queue.finish (queue : Queue α Cap) : Progress α Cap → Queue α Cap × Option (Pc α Cap)
  | .running pc => (queue, some pc)
  | .done (.sent value) => ({ queue with sent := queue.sent ++ [value] }, none)
  | .done (.received value) => ({ queue with received := queue.received ++ [value] }, none)
  | .done _ => (queue, none)

/-- A thread outside a call has no program counter. -/
def advance (queue : Queue α Cap) : Option (Pc α Cap) → Label α →
    Option (Queue α Cap × Option (Pc α Cap))
  | none, .trySend value => some (queue, some (.sendLoadHead value))
  | none, .tryRecv => some (queue, some .recvLoadHead)
  | some pc, .step throws =>
      (resume queue.storage throws pc).map fun next =>
        { queue with storage := next.1 }.finish next.2
  | _, _ => none

def program (Thread α : Type*) (Cap : ℕ) :
    Program Thread (Queue α Cap) (Option (Pc α Cap)) (Label α) where
  advance _ := advance

def fresh (Thread α : Type*) (Cap : ℕ) : Pool Thread (Queue α Cap) (Option (Pc α Cap)) where
  shared := { storage := .create α Cap, sent := [], received := [] }
  locals _ := none

def machine (Thread α : Type*) [DecidableEq Thread] (Cap : ℕ) :
    Machine (Pool Thread (Queue α Cap) (Option (Pc α Cap))) (Thread × Label α) :=
  (program Thread α Cap).machine (· = fresh Thread α Cap)

end Asco.Concurrency.RingQueue
