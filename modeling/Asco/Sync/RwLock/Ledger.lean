import Asco.Sync.RwLock

namespace Asco.Sync.RwLock

open Foundation

/-! # The ledger of a lock

What the lock is for, without the tasks: how many guards, announcements and
notifications there are, and what each event does to them.  The word of the lock
is one entry of the ledger.
-/

structure Ledger where
  state : Word
  reads : ℕ
  writes : ℕ
  upgrades : ℕ
  /-- Writers that have set the waiting bit and have not taken the lock. -/
  announced : ℕ
  /-- Destructors that have released their guard but not notified the readers. -/
  readNotices : ℕ
  writeNotices : ℕ
  readWaiters : ℕ
  writeWaiters : ℕ

inductive Event where
  | quiet
  | takeRead
  | dropRead
  | announce
  | retreat
  | takeWrite
  | tryWrite
  | dropWrite
  | requestUpgrade
  | upgrade
  | queueReader
  | queueWriter
  | queueUpgrade
  | notifyReaders
  | notifyWriters

namespace Ledger

def apply (ledger : Ledger) : Event → Ledger
  | .quiet => ledger
  | .takeRead => { ledger with state := ledger.state + 1#64, reads := ledger.reads + 1 }
  | .dropRead =>
      { ledger with
        state := ledger.state - 1#64
        reads := ledger.reads - 1
        readNotices := ledger.readNotices + 1
        writeNotices := ledger.writeNotices + 1 }
  | .announce =>
      { ledger with state := ledger.state ||| writeWillingMask, announced := ledger.announced + 1 }
  | .retreat => { ledger with announced := ledger.announced - 1 }
  | .takeWrite =>
      { ledger with
        state := ledger.state ||| writeMask
        writes := ledger.writes + 1
        announced := ledger.announced - 1 }
  | .tryWrite => { ledger with state := writeMask, writes := ledger.writes + 1 }
  | .dropWrite =>
      { ledger with
        state := 0#64
        writes := ledger.writes - 1
        readNotices := ledger.readNotices + 1
        writeNotices := ledger.writeNotices + 1 }
  | .requestUpgrade =>
      { ledger with
        state := ledger.state ||| writeWillingMask ||| updateWillingMask
        upgrades := ledger.upgrades + 1 }
  | .upgrade =>
      { ledger with
        state := writeMask ||| writeWillingMask
        reads := ledger.reads - 1
        writes := ledger.writes + 1
        upgrades := ledger.upgrades - 1 }
  | .queueReader => { ledger with readWaiters := ledger.readWaiters + 1 }
  | .queueWriter | .queueUpgrade => { ledger with writeWaiters := ledger.writeWaiters + 1 }
  | .notifyReaders =>
      { ledger with readWaiters := 0, readNotices := ledger.readNotices - 1 }
  | .notifyWriters =>
      { ledger with writeWaiters := 0, writeNotices := ledger.writeNotices - 1 }

/-- When an event can happen. -/
def Enabled (ledger : Ledger) : Event → Prop
  | .takeRead => ledger.state &&& (writeMask ||| writeWillingMask) = 0#64
  | .dropRead => 0 < ledger.reads
  | .retreat => ledger.state = 0#64 ∧ 0 < ledger.announced
  | .takeWrite => ledger.state = writeWillingMask ∧ 0 < ledger.announced
  | .tryWrite => ledger.state = 0#64
  | .dropWrite => 0 < ledger.writes
  | .requestUpgrade =>
      0 < ledger.reads ∧ ledger.state &&& (updateWillingMask ||| writeWillingMask) = 0#64
  | .upgrade =>
      0 < ledger.upgrades ∧ 0 < ledger.reads ∧
        ledger.state = writeWillingMask ||| (updateWillingMask + 1#64)
  | .queueUpgrade => 0 < ledger.upgrades
  | .notifyReaders => 0 < ledger.readNotices
  | .notifyWriters => 0 < ledger.writeNotices
  | _ => True

end Ledger

/-! ## The ledger of a pool -/

/-- A writer that has set the waiting bit and has not taken the lock. -/
def announcing : Pc → ℕ
  | .writeCheck | .writeWait _ | .writeSuspended | .writeTake _ => 1
  | _ => 0

/-- A destructor whose `m_read_cv.notify()` is still to come. -/
def readNotice : Pc → ℕ
  | .readNotifyRead | .writeNotifyWrite | .writeNotifyRead => 1
  | _ => 0

/-- A destructor whose `m_write_cv.notify()` is still to come. -/
def writeNotice : Pc → ℕ
  | .readNotifyRead | .readNotifyWrite | .writeNotifyWrite => 1
  | _ => 0

section

variable {Task : Type*} [DecidableEq Task] [Fintype Task]

def ledger (pool : Pool Task (RwLock Task) Pc) : Ledger where
  state := pool.shared.state
  reads := liveReadGuards pool
  writes := liveWriteGuards pool
  upgrades := pendingUpgrades pool
  announced := tally announcing pool.locals
  readNotices := tally readNotice pool.locals
  writeNotices := tally writeNotice pool.locals
  readWaiters := pool.shared.readCv.waitQueue.length
  writeWaiters := pool.shared.writeCv.waitQueue.length

/-- What all tasks but one contribute to the ledger. -/
structure Others where
  reads : ℕ
  writes : ℕ
  upgrades : ℕ
  announced : ℕ
  readNotices : ℕ
  writeNotices : ℕ
deriving Inhabited

def Others.ledger (others : Others) (lock : RwLock Task) (pc : Pc) : Ledger where
  state := lock.state
  reads := others.reads + (lock.readGuards + holdsRead pc)
  writes := others.writes + (lock.writeGuards + holdsWrite pc)
  upgrades := others.upgrades + upgradePending pc
  announced := others.announced + announcing pc
  readNotices := others.readNotices + readNotice pc
  writeNotices := others.writeNotices + writeNotice pc
  readWaiters := lock.readCv.waitQueue.length
  writeWaiters := lock.writeCv.waitQueue.length

/-- The ledger as one task moves and the others stand still. -/
theorem exists_others (pool : Pool Task (RwLock Task) Pc) (task : Task) :
    ∃ others : Others, ledger pool = others.ledger pool.shared (pool.locals task) ∧
      ∀ lock finish, ledger { shared := lock, locals := Function.update pool.locals task finish } =
        others.ledger lock finish := by
  obtain ⟨reads, readsBefore, readsAfter⟩ := exists_tally_others holdsRead pool.locals task
  obtain ⟨writes, writesBefore, writesAfter⟩ := exists_tally_others holdsWrite pool.locals task
  obtain ⟨upgrades, upgradesBefore, upgradesAfter⟩ :=
    exists_tally_others upgradePending pool.locals task
  obtain ⟨announced, announcedBefore, announcedAfter⟩ :=
    exists_tally_others announcing pool.locals task
  obtain ⟨readNotices, readNoticesBefore, readNoticesAfter⟩ :=
    exists_tally_others readNotice pool.locals task
  obtain ⟨writeNotices, writeNoticesBefore, writeNoticesAfter⟩ :=
    exists_tally_others writeNotice pool.locals task
  refine ⟨⟨reads, writes, upgrades, announced, readNotices, writeNotices⟩, ?_, ?_⟩
  · simp only [ledger, Others.ledger, liveReadGuards, liveWriteGuards, pendingUpgrades,
      readsBefore, writesBefore, upgradesBefore, announcedBefore, readNoticesBefore,
      writeNoticesBefore, Nat.add_left_comm]
  · intro lock finish
    simp only [ledger, Others.ledger, liveReadGuards, liveWriteGuards, pendingUpgrades,
      readsAfter, writesAfter, upgradesAfter, announcedAfter, readNoticesAfter,
      writeNoticesAfter, Nat.add_left_comm]

end

/-! ## The word of the lock -/

/-- The word with its writer, waiting and upgrade bit and its reader count. -/
def word (writer willing upgrading : Bool) (readers : ℕ) : Word :=
  (packed (BitVec.ofBool writer ++ BitVec.ofBool willing ++ BitVec.ofBool upgrading) readers :
    BitVec (1 + 1 + 1 + 61))

theorem zero_eq : (0#64 : Word) = word false false false 0 := by decide

theorem writeMask_eq : writeMask = word true false false 0 := by decide

theorem writeWillingMask_eq : writeWillingMask = word false true false 0 := by decide

theorem updateWillingMask_eq : updateWillingMask = word false false true 0 := by decide

theorem lastReader_eq :
    writeWillingMask ||| (updateWillingMask + 1#64) = word false true true 1 := by decide

theorem flags_or (writer willing upgrading maskWriter maskWilling maskUpgrading : Bool) :
    BitVec.ofBool writer ++ BitVec.ofBool willing ++ BitVec.ofBool upgrading |||
        (BitVec.ofBool maskWriter ++ BitVec.ofBool maskWilling ++ BitVec.ofBool maskUpgrading) =
      BitVec.ofBool (writer || maskWriter) ++ BitVec.ofBool (willing || maskWilling) ++
        BitVec.ofBool (upgrading || maskUpgrading) := by
  revert writer willing upgrading maskWriter maskWilling maskUpgrading
  decide

theorem flags_and (writer willing upgrading maskWriter maskWilling maskUpgrading : Bool) :
    BitVec.ofBool writer ++ BitVec.ofBool willing ++ BitVec.ofBool upgrading &&&
        (BitVec.ofBool maskWriter ++ BitVec.ofBool maskWilling ++ BitVec.ofBool maskUpgrading) =
      BitVec.ofBool (writer && maskWriter) ++ BitVec.ofBool (willing && maskWilling) ++
        BitVec.ofBool (upgrading && maskUpgrading) := by
  revert writer willing upgrading maskWriter maskWilling maskUpgrading
  decide

theorem flags_inj {writer willing upgrading writer' willing' upgrading' : Bool} :
    BitVec.ofBool writer ++ BitVec.ofBool willing ++ BitVec.ofBool upgrading =
        BitVec.ofBool writer' ++ BitVec.ofBool willing' ++ BitVec.ofBool upgrading' ↔
      writer = writer' ∧ willing = willing' ∧ upgrading = upgrading' := by
  revert writer willing upgrading writer' willing' upgrading'
  decide

theorem word_or (writer willing upgrading maskWriter maskWilling maskUpgrading : Bool)
    (readers : ℕ) :
    word writer willing upgrading readers ||| word maskWriter maskWilling maskUpgrading 0 =
      word (writer || maskWriter) (willing || maskWilling) (upgrading || maskUpgrading)
        readers := by
  rw [word, word, word, packed_or, flags_or]

theorem word_and (writer willing upgrading maskWriter maskWilling maskUpgrading : Bool)
    (readers : ℕ) :
    word writer willing upgrading readers &&& word maskWriter maskWilling maskUpgrading 0 =
      word (writer && maskWriter) (willing && maskWilling) (upgrading && maskUpgrading) 0 := by
  rw [word, word, word, packed_and, flags_and]

theorem word_inj {writer willing upgrading writer' willing' upgrading' : Bool}
    {readers readers' : ℕ} (few : readers < 2 ^ 61) (few' : readers' < 2 ^ 61) :
    word writer willing upgrading readers = word writer' willing' upgrading' readers' ↔
      writer = writer' ∧ willing = willing' ∧ upgrading = upgrading' ∧ readers = readers' := by
  rw [word, word, packed_inj few few', flags_inj, and_assoc, and_assoc]

theorem word_succ {writer willing upgrading : Bool} {readers : ℕ} (few : readers + 1 < 2 ^ 61) :
    word writer willing upgrading readers + 1#64 = word writer willing upgrading (readers + 1) :=
  packed_succ few

theorem word_pred {writer willing upgrading : Bool} {readers : ℕ} (few : readers + 1 < 2 ^ 61) :
    word writer willing upgrading (readers + 1) - 1#64 = word writer willing upgrading readers :=
  packed_pred few

theorem readerCount_word {writer willing upgrading : Bool} {readers : ℕ}
    (few : readers < 2 ^ 61) : readerCount (word writer willing upgrading readers) = readers := by
  rw [readerCount, word, packed_toNat few, Nat.mul_add_mod_self_right, Nat.mod_eq_of_lt few]

end Asco.Sync.RwLock
