import Asco.Foundation.Machine

namespace Asco.Sync

open Foundation

/-! # `spinlock<T>`

Each thread has its guards in slots of its own.  It obtains, moves and destroys them, and
reads and writes the value through them.
-/

/-- `updates` are the functions by which the value has been changed. -/
structure SpinLock (Thread T : Type*) where
  locked : Bool
  lockerId : Option Thread
  value : T
  updates : List (T → T)

namespace SpinLock

/-- A guard that is obtained or moved goes to the slot `target`, and the one that was there
is destroyed; guards do not leave their thread.  `tryLock` is `spinlock<>::try_lock`: that of
`spinlock<T>` does not compile where it is used. -/
inductive Call (Slot : Type*) where
  | lock (target : Slot)
  | tryLock (target : Slot)
  | move (source target : Slot)
  | destroy (slot : Slot)
  | access (slot : Slot)

/-- What a slot is to take: a guard that `lock` or `try_lock` has made, with the lock or
empty, or the guard of another slot. -/
inductive Origin (Slot : Type*) where
  | made (lock : Bool)
  | slot (source : Slot)
deriving DecidableEq

/-- `naming` is before the write of `m_locker_id`, `placing` before the test of the destructor
of the guard in the slot, `unlocking` before its store, and `accessed` after a read of the
value. -/
inductive Pc (Slot T : Type*) where
  | idle
  | locking (target : Slot)
  | trying (target : Slot)
  | naming (target : Slot)
  | placing (target : Slot) (origin : Origin Slot)
  | unlocking (target : Slot) (origin : Origin Slot)
  | accessed (slot : Slot) (seen : T)

/-- A guard is its `m_lock`, null or not; `m_guard` of a `spinlock<T>::guard` has the same. -/
structure Local (Slot T : Type*) where
  guards : Slot → Bool
  pc : Pc Slot T

inductive Label (Slot T : Type*) where
  | call (call : Call Slot)
  | step (spurious : Bool)
  | store (update : T → T)

variable {Thread Slot T : Type*} [DecidableEq Slot]

def Origin.place (guards : Slot → Bool) (target : Slot) : Origin Slot → Slot → Bool
  | .made lock => Function.update guards target lock
  | .slot source => Function.update (Function.update guards target (guards source)) source false

/-- An access through an empty guard panics. -/
def start (lock : SpinLock Thread T) (guards : Slot → Bool) :
    Call Slot → Option (SpinLock Thread T × Local Slot T)
  | .lock target => some (lock, ⟨guards, .locking target⟩)
  | .tryLock target => some (lock, ⟨guards, .trying target⟩)
  | .move source target =>
      if source = target then some (lock, ⟨guards, .idle⟩)
      else some (lock, ⟨guards, .placing target (.slot source)⟩)
  | .destroy slot => some (lock, ⟨guards, .placing slot (.made false)⟩)
  | .access slot =>
      if guards slot then some (lock, ⟨guards, .accessed slot lock.value⟩) else none

/-- A weak exchange may fail although the word is the expected one. -/
def resume (thread : Thread) (lock : SpinLock Thread T) (guards : Slot → Bool) (spurious : Bool) :
    Pc Slot T → Option (SpinLock Thread T × Local Slot T)
  | .idle => none
  | .locking target =>
      if lock.locked || spurious then some (lock, ⟨guards, .locking target⟩)
      else some ({ lock with locked := true }, ⟨guards, .naming target⟩)
  | .trying target =>
      if lock.locked then some (lock, ⟨guards, .placing target (.made false)⟩)
      else some ({ lock with locked := true }, ⟨guards, .naming target⟩)
  | .naming target =>
      some ({ lock with lockerId := some thread }, ⟨guards, .placing target (.made true)⟩)
  | .placing target origin =>
      if guards target then
        some ({ lock with lockerId := none },
          ⟨Function.update guards target false, .unlocking target origin⟩)
      else some (lock, ⟨origin.place guards target, .idle⟩)
  | .unlocking target origin =>
      some ({ lock with locked := false }, ⟨guards, .placing target origin⟩)
  | .accessed _ _ => some (lock, ⟨guards, .idle⟩)

def advance (thread : Thread) (lock : SpinLock Thread T) (place : Local Slot T) :
    Label Slot T → Option (SpinLock Thread T × Local Slot T)
  | .call call =>
      match place.pc with
      | .idle => start lock place.guards call
      | _ => none
  | .step spurious => resume thread lock place.guards spurious place.pc
  | .store update =>
      match place.pc with
      | .accessed _ seen =>
          some ({ lock with value := update seen, updates := lock.updates ++ [update] },
            ⟨place.guards, .idle⟩)
      | _ => none

def program (Thread Slot T : Type*) [DecidableEq Slot] :
    Program Thread (SpinLock Thread T) (Local Slot T) (Label Slot T) where
  advance := advance

def unlocked (Thread Slot : Type*) {T : Type*} (value : T) :
    Pool Thread (SpinLock Thread T) (Local Slot T) where
  shared := { locked := false, lockerId := none, value, updates := [] }
  locals _ := ⟨fun _ => false, .idle⟩

def machine (Thread Slot : Type*) [DecidableEq Thread] [DecidableEq Slot] {T : Type*} (value : T) :
    Machine (Pool Thread (SpinLock Thread T) (Local Slot T)) (Thread × Label Slot T) :=
  (program Thread Slot T).machine (· = unlocked Thread Slot value)

end SpinLock

end Asco.Sync
