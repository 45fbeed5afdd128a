import Asco.Foundation.PackedWord
import Asco.Sync.ConditionVariable

namespace Asco.Sync

open Foundation

/-! # `rwlock<>`: the suspending reader-writer lock

A step is one atomic operation on `m_state` or one critical section of
`m_read_cv` or `m_write_cv`, with the exchange its predicate makes.
-/

/-- `m_state`, the two condition variables, and the guards that no call holds. -/
structure RwLock (Task : Type*) where
  state : BitVec 64
  readCv : ConditionVariable Task
  writeCv : ConditionVariable Task
  readGuards : ℕ
  writeGuards : ℕ

namespace RwLock

abbrev Word := BitVec 64

def writeMask : Word := 1#64 <<< (64 - 1)

def writeWillingMask : Word := writeMask >>> 1

def updateWillingMask : Word := writeMask >>> 2

/-- Where a task stands inside a call; the arguments are the local `e`.  From
`upgradeLoad` to `upgradeSuspended` the call owns its read guard, and so does
`readRelease`, the destructor of a read guard. -/
inductive Pc where
  | idle
  | readLoad
  | readWait (expected : Word)
  | readSuspended
  | tryReadLoad
  | tryReadCas (expected : Word)
  | writeLoad
  | writeCas (expected : Word)
  | writeCheck
  | writeWait (expected : Word)
  | writeSuspended
  | writeTake (expected : Word)
  | tryWriteLoad
  | tryWriteCas (expected : Word)
  | upgradeLoad
  | upgradeCas (expected : Word)
  | upgradeWait
  | upgradeSuspended
  | readRelease
  | readNotifyRead
  | readNotifyWrite
  | writeRelease
  | writeNotifyWrite
  | writeNotifyRead
deriving DecidableEq

inductive Call where
  | read
  | tryRead
  | write
  | tryWrite
  | upgrade
  | dropReadGuard
  | dropWriteGuard
deriving DecidableEq

variable {Task : Type*}

def takeRead (lock : RwLock Task) (expected : Word) : RwLock Task :=
  { lock with state := expected + 1#64, readGuards := lock.readGuards + 1 }

def takeWrite (lock : RwLock Task) (next : Word) : RwLock Task :=
  { lock with state := next, writeGuards := lock.writeGuards + 1 }

/-- Any task may use or destroy a guard, since guards can be moved. -/
def start (lock : RwLock Task) : Call → Option (RwLock Task × Pc)
  | .read => some (lock, .readLoad)
  | .tryRead => some (lock, .tryReadLoad)
  | .write => some (lock, .writeLoad)
  | .tryWrite => some (lock, .tryWriteLoad)
  | .upgrade =>
      if 0 < lock.readGuards then
        some ({ lock with readGuards := lock.readGuards - 1 }, .upgradeLoad)
      else none
  | .dropReadGuard =>
      if 0 < lock.readGuards then
        some ({ lock with readGuards := lock.readGuards - 1 }, .readRelease)
      else none
  | .dropWriteGuard =>
      if 0 < lock.writeGuards then
        some ({ lock with writeGuards := lock.writeGuards - 1 }, .writeRelease)
      else none

/-- The next step of the call `task` is in.  An upgrade that is refused ends in
the destructor of its read guard. -/
def resume [DecidableEq Task] (task : Task) (lock : RwLock Task) (spurious : Bool) :
    Pc → Option (RwLock Task × Pc)
  | .idle => none
  | .readLoad => some (lock, .readWait (lock.state &&& ~~~(writeMask ||| writeWillingMask)))
  | .readWait expected =>
      if lock.state = expected ∧ spurious = false then some (lock.takeRead expected, .idle)
      else some ({ lock with readCv := lock.readCv.suspend task }, .readSuspended)
  | .readSuspended =>
      if task ∈ lock.readCv.waitQueue then none else some (lock, .readLoad)
  | .tryReadLoad =>
      if lock.state &&& (writeMask ||| writeWillingMask) ≠ 0#64 then some (lock, .idle)
      else some (lock, .tryReadCas (lock.state &&& ~~~(writeMask ||| writeWillingMask)))
  | .tryReadCas expected =>
      if lock.state = expected ∧ spurious = false then some (lock.takeRead expected, .idle)
      else some (lock, .tryReadLoad)
  | .writeLoad => some (lock, .writeCas lock.state)
  | .writeCas expected =>
      if lock.state = expected ∧ spurious = false then
        some ({ lock with state := expected ||| writeWillingMask }, .writeCheck)
      else some (lock, .writeLoad)
  | .writeCheck =>
      if lock.state = 0#64 then some (lock, .writeLoad) else some (lock, .writeWait lock.state)
  | .writeWait expected =>
      if expected = writeWillingMask then some (lock, .writeTake expected)
      else some ({ lock with writeCv := lock.writeCv.suspend task }, .writeSuspended)
  | .writeSuspended =>
      if task ∈ lock.writeCv.waitQueue then none else some (lock, .writeCheck)
  | .writeTake expected =>
      if lock.state = expected then some (lock.takeWrite (expected ||| writeMask), .idle)
      else some (lock, .writeCheck)
  | .tryWriteLoad =>
      if lock.state ≠ 0#64 then some (lock, .idle) else some (lock, .tryWriteCas lock.state)
  | .tryWriteCas expected =>
      if lock.state = expected then some (lock.takeWrite writeMask, .idle)
      else some (lock, .idle)
  | .upgradeLoad =>
      if lock.state &&& (updateWillingMask ||| writeWillingMask) ≠ 0#64 then
        some (lock, .readRelease)
      else some (lock, .upgradeCas lock.state)
  | .upgradeCas expected =>
      if lock.state = expected ∧ spurious = false then
        some ({ lock with state := expected ||| writeWillingMask ||| updateWillingMask },
          .upgradeWait)
      else if lock.state &&& (updateWillingMask ||| writeWillingMask) ≠ 0#64 then
        some (lock, .readRelease)
      else some (lock, .upgradeLoad)
  | .upgradeWait =>
      if lock.state = writeWillingMask ||| (updateWillingMask + 1#64) then
        some (lock.takeWrite (writeMask ||| writeWillingMask), .idle)
      else some ({ lock with writeCv := lock.writeCv.suspend task }, .upgradeSuspended)
  | .upgradeSuspended =>
      if task ∈ lock.writeCv.waitQueue then none else some (lock, .upgradeWait)
  | .readRelease => some ({ lock with state := lock.state - 1#64 }, .readNotifyRead)
  | .readNotifyRead => some ({ lock with readCv := lock.readCv.notifyAll }, .readNotifyWrite)
  | .readNotifyWrite => some ({ lock with writeCv := lock.writeCv.notifyAll }, .idle)
  | .writeRelease => some ({ lock with state := 0#64 }, .writeNotifyWrite)
  | .writeNotifyWrite => some ({ lock with writeCv := lock.writeCv.notifyAll }, .writeNotifyRead)
  | .writeNotifyRead => some ({ lock with readCv := lock.readCv.notifyAll }, .idle)

variable [DecidableEq Task]

def advance (task : Task) (lock : RwLock Task) (pc : Pc) :
    Choice Call → Option (RwLock Task × Pc)
  | .call call => if pc = .idle then start lock call else none
  | .step spurious => resume task lock spurious pc

def program (Task : Type*) [DecidableEq Task] : Program Task (RwLock Task) Pc (Choice Call) where
  advance := advance

def fresh (Task : Type*) : Pool Task (RwLock Task) Pc where
  shared :=
    { state := 0#64, readCv := .empty, writeCv := .empty, readGuards := 0, writeGuards := 0 }
  locals _ := .idle

def machine (Task : Type*) [DecidableEq Task] :
    Machine (Pool Task (RwLock Task) Pc) (Task × Choice Call) :=
  (program Task).machine (· = fresh Task)

/-! ## What the tasks hold -/

/-- A call that owns a live read guard. -/
def holdsRead : Pc → ℕ
  | .upgradeLoad | .upgradeCas _ | .upgradeWait | .upgradeSuspended | .readRelease => 1
  | _ => 0

/-- A destructor that has not released its write guard. -/
def holdsWrite : Pc → ℕ
  | .writeRelease => 1
  | _ => 0

/-- An upgrade that has announced itself and waits for the other readers. -/
def upgradePending : Pc → ℕ
  | .upgradeWait | .upgradeSuspended => 1
  | _ => 0

variable [Fintype Task] (pool : Pool Task (RwLock Task) Pc)

def liveReadGuards : ℕ := pool.shared.readGuards + tally holdsRead pool.locals

def liveWriteGuards : ℕ := pool.shared.writeGuards + tally holdsWrite pool.locals

def pendingUpgrades : ℕ := tally upgradePending pool.locals

/-- No guard is alive and no call is in progress. -/
def Unused : Prop :=
  pool.shared.readGuards = 0 ∧ pool.shared.writeGuards = 0 ∧ ∀ task, pool.locals task = .idle

/-- The number of readers recorded in the word. -/
def readerCount (state : Word) : ℕ := state.toNat % 2 ^ 61

end RwLock

end Asco.Sync
