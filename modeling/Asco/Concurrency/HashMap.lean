import Asco.Foundation.Machine
import Asco.Foundation.Probe

namespace Asco.Concurrency

open Foundation

/-! # `hash_map<K, V>`

Open addressing with tombstones.  A thread step is one atomic operation on a
bucket, on `m_load` or on `m_lock`, or the work on keys and values between two
of them.  `m_lock` is only ever taken by `try_read` and `try_write`.
-/

/-- `detail::bucket_state_enum`. -/
inductive BucketStateEnum where
  | empty
  | constructing
  | filled
  | predestructing
  | destructing
  | tombstone
deriving DecidableEq

/-- `detail::bucket_state`; the 61 bits of its `refcount` do not run out, as
`refcount_lt_of_reachable` shows. -/
structure BucketState where
  refcount : ℕ
  state : BucketStateEnum
deriving DecidableEq

/-- `entry` is the raw storage of the key and the value. -/
structure Bucket (K V : Type*) where
  state : BucketState
  entry : Option (K × V)

inductive InsertFailed where
  | rehashing
  | keyRepeated
  | rehashNeeded
  | retry
deriving DecidableEq

inductive RemoveFailed where
  | none
  | retry
  | rehashing
  | guardProtecting
deriving DecidableEq

inductive GetFailed where
  | none
  | rehashing
  | retry
deriving DecidableEq

/-- The map with the readers and the writer of `m_lock` and the number of live
guards on every bucket. -/
structure HashMap (K V : Type*) where
  buckets : ℕ → Bucket K V
  bucketCount : ℕ
  load : ℕ
  readers : ℕ
  writing : Bool
  guards : ℕ → ℕ

namespace HashMap

def initialCapacity : ℕ := 64

/-- `util::detail::mix64`. -/
def mix64 (x : UInt64) : UInt64 :=
  let x := x ^^^ (x >>> 33)
  let x := x * 0xff51afd7ed558ccd
  let x := x ^^^ (x >>> 33)
  let x := x * 0xc4ceb9fe1a85ec53
  x ^^^ (x >>> 33)

variable {K V : Type*}

section

variable (hash : K → UInt64)

def hash1 (key : K) : UInt64 := hash key

def hash2 (key : K) : UInt64 := mix64 (hash key ^^^ 0xd6e8feb86659fd93) ||| 1

/-- The index visited at position `i`.  The words of the source wrap around
without effect, see `slot_word`. -/
def slot (size : ℕ) (key : K) (i : ℕ) : ℕ :=
  probe ((hash1 hash key).toNat % size) ((hash2 hash key).toNat % size) size i

end

/-! ## Where a call stands -/

/-- What a call returns; after `unreachable` nothing is known. -/
inductive Outcome (V : Type*) where
  | inserted
  | insertFailed (failure : InsertFailed)
  | removed (value : V)
  | removeFailed (failure : RemoveFailed)
  | found (index : ℕ)
  | contained (found : Bool)
  | getFailed (failure : GetFailed)
  | rehashed (done : Bool)
  | dropped
  | unreachable

inductive Call (K V : Type*) where
  | tryInsert (key : K) (value : V)
  | tryRemove (key : K)
  | tryGet (key : K)
  | tryContains (key : K)
  | tryRehash
  | drop (index : ℕ)

/-- What a loop that lowers a reference count goes on with. -/
inductive Lower (K V : Type*) where
  | insertCompared (key : K) (value : V) (i : ℕ) (claim : Option ℕ) (same : Bool)
  | removeOther (key : K) (i : ℕ)
  | removeReverted
  | removeProtected
  | getOther (key : K) (contains : Bool) (i : ℕ)
  | contained
  | guard

/-- The arguments are the locals of the source: `claim` is `insert_index`,
`expected` is `e`, and `fresh` is `new_buckets`. -/
inductive Pc (K V : Type*) where
  | tryRead (call : Call K V)
  | tryReadExchange (call : Call K V) (expected : ℕ)
  | unlockRead (outcome : Outcome V)
  | insertStart (key : K) (value : V)
  | insertExchange (key : K) (value : V) (i : ℕ)
  | insertRaise (key : K) (value : V) (i : ℕ) (claim : Option ℕ) (refcount : ℕ)
  | insertCompare (key : K) (value : V) (i : ℕ) (claim : Option ℕ)
  | insertTombstone (key : K) (value : V) (i : ℕ)
  | insertClaim (key : K) (value : V) (i : ℕ) (expected : BucketState)
  | insertCheck (key : K) (value : V) (i : ℕ) (claim : ℕ)
  | insertGiveUp (claim : ℕ) (failure : InsertFailed)
  | insertConstruct (key : K) (value : V) (claim : ℕ)
  | insertCount (key : K) (claim : ℕ)
  | insertPublish (key : K) (claim : ℕ)
  | removeExchange (key : K) (i : ℕ)
  | removeLoad (key : K) (i : ℕ)
  | removeRaise (key : K) (i : ℕ) (refcount : ℕ)
  | removeCompare (key : K) (i : ℕ)
  | removeConfirm (index : ℕ)
  | removeDrainLoad (index : ℕ)
  | removeDrain (index : ℕ) (expected : BucketState)
  | removeTake (index : ℕ)
  | removeCount (index : ℕ) (value : V)
  | removeBury (index : ℕ) (value : V)
  | getLoad (key : K) (contains : Bool) (i : ℕ)
  | getRaise (key : K) (contains : Bool) (i : ℕ) (refcount : ℕ)
  | getCompare (key : K) (contains : Bool) (i : ℕ)
  | lowerLoad (index : ℕ) (next : Lower K V)
  | lower (index : ℕ) (next : Lower K V) (expected : BucketState)
  | tryWrite
  | tryWriteExchange
  | rehashLoad (index : ℕ) (fresh : ℕ → Bucket K V)
  | rehashWait (index : ℕ) (fresh : ℕ → Bucket K V)
  | rehashMove (index : ℕ) (fresh : ℕ → Bucket K V)
  | rehashSwap (fresh : ℕ → Bucket K V)
  | unlockWrite

inductive Progress (K V : Type*) where
  | running (pc : Pc K V)
  | done (outcome : Outcome V)

def emptyBucket (K V : Type*) : Bucket K V where
  state := ⟨0, .empty⟩
  entry := none

def create (K V : Type*) : HashMap K V where
  buckets _ := emptyBucket K V
  bucketCount := initialCapacity
  load := 0
  readers := 0
  writing := false
  guards _ := 0

def setState (map : HashMap K V) (index : ℕ) (state : BucketState) : HashMap K V :=
  { map with buckets := Function.update map.buckets index { map.buckets index with state } }

def setEntry (map : HashMap K V) (index : ℕ) (entry : Option (K × V)) : HashMap K V :=
  { map with buckets := Function.update map.buckets index { map.buckets index with entry } }

/-- The read guard is destroyed when the call returns. -/
def leave (outcome : Outcome V) : Progress K V := .running (.unlockRead outcome)

/-- The head of the loop of `do_insert` at position `i`. -/
def insertAt (map : HashMap K V) (key : K) (value : V) (i : ℕ) : Option ℕ → Progress K V
  | none =>
      if i < map.bucketCount then .running (.insertExchange key value i) else .done .unreachable
  | some claim =>
      if i < map.bucketCount then .running (.insertCheck key value i claim)
      else .running (.insertConstruct key value claim)

/-- `return std::unexpected`, after the claimed bucket has been given back. -/
def insertFail (failure : InsertFailed) : Option ℕ → Progress K V
  | none => leave (.insertFailed failure)
  | some claim => .running (.insertGiveUp claim failure)

/-- `goto begin_insert`. -/
def insertAgain (key : K) (value : V) (i : ℕ) : Option ℕ → Progress K V
  | none => .running (.insertExchange key value i)
  | some claim => .running (.insertCheck key value i claim)

def removeAt (map : HashMap K V) (key : K) (i : ℕ) : Progress K V :=
  if i < map.bucketCount then .running (.removeExchange key i)
  else leave (.removeFailed .none)

def getNone (contains : Bool) : Progress K V :=
  leave (if contains then .contained false else .getFailed .none)

def getAt (map : HashMap K V) (key : K) (contains : Bool) (i : ℕ) : Progress K V :=
  if i < map.bucketCount then .running (.getLoad key contains i) else getNone contains

/-- The state written together with the lowered reference count. -/
def Lower.state : Lower K V → BucketStateEnum → BucketStateEnum
  | .removeOther _ _ | .removeProtected => fun _ => .filled
  | _ => id

def lowered (map : HashMap K V) : Lower K V → Progress K V
  | .insertCompared _ _ _ claim true => insertFail .keyRepeated claim
  | .insertCompared key value i claim false => map.insertAt key value (i + 1) claim
  | .removeOther key i => map.removeAt key (i + 1)
  | .removeReverted => leave (.removeFailed .retry)
  | .removeProtected => leave (.removeFailed .guardProtecting)
  | .getOther key contains i => map.getAt key contains (i + 1)
  | .contained => leave (.contained true)
  | .guard => .done .dropped

variable [DecidableEq K]

/-- The inner loop of `do_rehash`: the entry goes to the first empty bucket. -/
def place (hash : K → UInt64) (size : ℕ) (fresh : ℕ → Bucket K V) (entry : K × V) :
    Option (ℕ → Bucket K V) :=
  ((List.range size).find? fun i =>
      (fresh (slot hash size entry.1 i)).state.state == .empty).map fun i =>
    Function.update fresh (slot hash size entry.1 i) ⟨⟨0, .filled⟩, some entry⟩

/-- Behind the read lock. -/
def enter (map : HashMap K V) : Call K V → Option (Progress K V)
  | .tryInsert key value => some (.running (.insertStart key value))
  | .tryRemove key => some (map.removeAt key 0)
  | .tryGet key => some (map.getAt key false 0)
  | .tryContains key => some (map.getAt key true 0)
  | .tryRehash | .drop _ => none

def rehashing : Call K V → Outcome V
  | .tryInsert _ _ => .insertFailed .rehashing
  | .tryRemove _ => .removeFailed .rehashing
  | _ => .getFailed .rehashing

/-- The next step of a call.  `spurious` makes a weak exchange fail although
the bucket is as expected. -/
def resume (hash : K → UInt64) (map : HashMap K V) (spurious : Bool) :
    Pc K V → Option (HashMap K V × Progress K V)
  | .tryRead call =>
      if map.writing then some (map, .done (rehashing call))
      else some (map, .running (.tryReadExchange call map.readers))
  | .tryReadExchange call expected =>
      if map.writing = false ∧ map.readers = expected ∧ spurious = false then
        (map.enter call).map fun next => ({ map with readers := expected + 1 }, next)
      else some (map, .running (.tryRead call))
  | .unlockRead outcome => some ({ map with readers := map.readers - 1 }, .done outcome)
  | .insertStart key value =>
      if 3 * map.bucketCount ≤ 5 * map.load then
        some (map, leave (.insertFailed .rehashNeeded))
      else some (map, map.insertAt key value 0 none)
  | .insertExchange key value i =>
      let index := slot hash map.bucketCount key i
      let bucket := map.buckets index
      if bucket.state = ⟨0, .empty⟩ then
        some (map.setState index ⟨0, .constructing⟩,
          .running (.insertConstruct key value index))
      else
        match bucket.state.state with
        | .constructing | .predestructing | .destructing =>
            some (map, leave (.insertFailed .retry))
        | .filled => some (map, .running (.insertRaise key value i none bucket.state.refcount))
        | .tombstone => some (map, .running (.insertTombstone key value i))
        | .empty => some (map, .running (.insertExchange key value i))
  | .insertRaise key value i claim refcount =>
      let index := slot hash map.bucketCount key i
      let bucket := map.buckets index
      if bucket.state = ⟨refcount, .filled⟩ then
        some (map.setState index ⟨refcount + 1, .filled⟩,
          .running (.insertCompare key value i claim))
      else if bucket.state.state = .predestructing then some (map, insertFail .retry claim)
      else some (map, insertAgain key value i claim)
  | .insertCompare key value i claim =>
      let index := slot hash map.bucketCount key i
      (map.buckets index).entry.map fun entry =>
        (map, .running (.lowerLoad index (.insertCompared key value i claim (entry.1 == key))))
  | .insertTombstone key value i =>
      let bucket := map.buckets (slot hash map.bucketCount key i)
      if bucket.state.state = .tombstone then
        some (map, .running (.insertClaim key value i bucket.state))
      else some (map, .running (.insertExchange key value i))
  | .insertClaim key value i expected =>
      let index := slot hash map.bucketCount key i
      if (map.buckets index).state = expected ∧ spurious = false then
        some (map.setState index ⟨0, .constructing⟩,
          map.insertAt key value (i + 1) (some index))
      else some (map, .running (.insertTombstone key value i))
  | .insertCheck key value i claim =>
      let bucket := map.buckets (slot hash map.bucketCount key i)
      match bucket.state.state with
      | .tombstone => some (map, map.insertAt key value (i + 1) (some claim))
      | .empty => some (map, .running (.insertConstruct key value claim))
      | .constructing | .predestructing | .destructing =>
          some (map, .running (.insertGiveUp claim .retry))
      | .filled =>
          some (map, .running (.insertRaise key value i (some claim) bucket.state.refcount))
  | .insertGiveUp claim failure =>
      some (map.setState claim ⟨0, .tombstone⟩, leave (.insertFailed failure))
  | .insertConstruct key value claim =>
      some (map.setEntry claim (some (key, value)), .running (.insertCount key claim))
  | .insertCount key claim =>
      some ({ map with load := map.load + 1 }, .running (.insertPublish key claim))
  | .insertPublish _ claim => some (map.setState claim ⟨0, .filled⟩, leave .inserted)
  | .removeExchange key i =>
      let index := slot hash map.bucketCount key i
      let bucket := map.buckets index
      if bucket.state = ⟨0, .filled⟩ then
        some (map.setState index ⟨1, .predestructing⟩, .running (.removeCompare key i))
      else
        match bucket.state.state with
        | .filled => some (map, .running (.removeLoad key i))
        | .empty => some (map, leave (.removeFailed .none))
        | .constructing | .predestructing => some (map, leave (.removeFailed .retry))
        | .destructing | .tombstone => some (map, map.removeAt key (i + 1))
  | .removeLoad key i =>
      let bucket := map.buckets (slot hash map.bucketCount key i)
      if bucket.state.state ≠ .filled then some (map, leave (.removeFailed .retry))
      else if bucket.state.refcount = 0 then some (map, .running (.removeExchange key i))
      else some (map, .running (.removeRaise key i bucket.state.refcount))
  | .removeRaise key i refcount =>
      let index := slot hash map.bucketCount key i
      if (map.buckets index).state = ⟨refcount, .filled⟩ ∧ spurious = false then
        some (map.setState index ⟨refcount + 1, .predestructing⟩,
          .running (.removeCompare key i))
      else some (map, .running (.removeLoad key i))
  | .removeCompare key i =>
      let index := slot hash map.bucketCount key i
      (map.buckets index).entry.map fun entry =>
        if entry.1 = key then (map, .running (.removeConfirm index))
        else (map, .running (.lowerLoad index (.removeOther key i)))
  | .removeConfirm index =>
      if (map.buckets index).state.state = .filled then
        some (map, .running (.lowerLoad index .removeReverted))
      else some (map, .running (.removeDrainLoad index))
  | .removeDrainLoad index =>
      let bucket := map.buckets index
      if 1 < bucket.state.refcount then
        some (map, .running (.lowerLoad index .removeProtected))
      else some (map, .running (.removeDrain index bucket.state))
  | .removeDrain index expected =>
      if (map.buckets index).state = expected ∧ spurious = false then
        some (map.setState index ⟨expected.refcount - 1, .predestructing⟩,
          .running (.removeTake index))
      else some (map, .running (.removeDrainLoad index))
  | .removeTake index =>
      (map.buckets index).entry.map fun entry =>
        (map.setEntry index none, .running (.removeCount index entry.2))
  | .removeCount index value =>
      some ({ map with load := map.load - 1 }, .running (.removeBury index value))
  | .removeBury index value =>
      some (map.setState index ⟨0, .tombstone⟩, leave (.removed value))
  | .getLoad key contains i =>
      let bucket := map.buckets (slot hash map.bucketCount key i)
      match bucket.state.state with
      | .empty => some (map, getNone contains)
      | .constructing | .predestructing => some (map, leave (.getFailed .retry))
      | .destructing | .tombstone => some (map, map.getAt key contains (i + 1))
      | .filled => some (map, .running (.getRaise key contains i bucket.state.refcount))
  | .getRaise key contains i refcount =>
      let index := slot hash map.bucketCount key i
      if (map.buckets index).state = ⟨refcount, .filled⟩ ∧ spurious = false then
        some (map.setState index ⟨refcount + 1, .filled⟩, .running (.getCompare key contains i))
      else some (map, .running (.getLoad key contains i))
  | .getCompare key contains i =>
      let index := slot hash map.bucketCount key i
      (map.buckets index).entry.map fun entry =>
        if entry.1 = key then
          if contains then (map, .running (.lowerLoad index .contained))
          else (map, leave (.found index))
        else (map, .running (.lowerLoad index (.getOther key contains i)))
  | .lowerLoad index next => some (map, .running (.lower index next (map.buckets index).state))
  | .lower index next expected =>
      if (map.buckets index).state = expected ∧ spurious = false then
        some (map.setState index ⟨expected.refcount - 1, next.state expected.state⟩,
          map.lowered next)
      else some (map, .running (.lowerLoad index next))
  | .tryWrite =>
      if map.writing = true ∨ map.readers ≠ 0 then some (map, .done (.rehashed false))
      else some (map, .running .tryWriteExchange)
  | .tryWriteExchange =>
      if map.writing = true ∨ map.readers ≠ 0 then some (map, .done (.rehashed false))
      else some ({ map with writing := true }, .running (.rehashLoad 0 fun _ => emptyBucket K V))
  | .rehashLoad index fresh =>
      if index < map.bucketCount then
        if (map.buckets index).state.state = .filled then
          some (map, .running (.rehashWait index fresh))
        else some (map, .running (.rehashLoad (index + 1) fresh))
      else some (map, .running (.rehashSwap fresh))
  | .rehashWait index fresh =>
      if (map.buckets index).state.refcount = 0 then some (map, .running (.rehashMove index fresh))
      else some (map, .running (.rehashWait index fresh))
  | .rehashMove index fresh =>
      (map.buckets index).entry.map fun entry =>
        match place hash (2 * map.bucketCount) fresh entry with
        | none => (map, .running (.rehashLoad (index + 1) fresh))
        | some moved =>
            ((map.setEntry index none).setState index ⟨0, .tombstone⟩,
              .running (.rehashLoad (index + 1) moved))
  | .rehashSwap fresh =>
      some ({ map with buckets := fresh, bucketCount := 2 * map.bucketCount },
        .running .unlockWrite)
  | .unlockWrite => some ({ map with writing := false }, .done (.rehashed true))

/-! ## Any number of threads on one map -/

/-- A guard can be moved between threads, so any thread may destroy it. -/
def start (map : HashMap K V) : Call K V → Option (HashMap K V × Pc K V)
  | .tryRehash => some (map, .tryWrite)
  | .drop index =>
      if 0 < map.guards index then
        some ({ map with guards := Function.update map.guards index (map.guards index - 1) },
          .lowerLoad index .guard)
      else none
  | call => some (map, .tryRead call)

/-- A call that has found its key returns a guard. -/
def settle (map : HashMap K V) : Progress K V → HashMap K V × Option (Pc K V)
  | .running pc => (map, some pc)
  | .done (.found index) =>
      ({ map with guards := Function.update map.guards index (map.guards index + 1) }, none)
  | .done _ => (map, none)

/-- A thread outside a call has no program counter. -/
def advance (hash : K → UInt64) (map : HashMap K V) :
    Option (Pc K V) → Choice (Call K V) → Option (HashMap K V × Option (Pc K V))
  | none, .call call => (map.start call).map fun next => (next.1, some next.2)
  | some pc, .step spurious =>
      (resume hash map spurious pc).map fun next => next.1.settle next.2
  | _, _ => none

def program (Thread : Type*) (hash : K → UInt64) :
    Program Thread (HashMap K V) (Option (Pc K V)) (Choice (Call K V)) where
  advance _ := advance hash

def unused (Thread K V : Type*) : Pool Thread (HashMap K V) (Option (Pc K V)) where
  shared := create K V
  locals _ := none

def machine (Thread : Type*) [DecidableEq Thread] (V : Type*) (hash : K → UInt64) :
    Machine (Pool Thread (HashMap K V) (Option (Pc K V))) (Thread × Choice (Call K V)) :=
  (program Thread hash).machine (· = unused Thread K V)

end HashMap

end Asco.Concurrency
