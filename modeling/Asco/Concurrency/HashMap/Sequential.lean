import Asco.Concurrency.HashMap.Slots

namespace Asco.Concurrency.HashMap

open Foundation

/-! # One call at a time: the scans of the probe path -/

variable {K V : Type*} [DecidableEq K] {hash : K → UInt64} {map next last : HashMap K V}
  {key : K} {value : V} {outcome : Outcome V} {progress : Progress K V} {pc : Pc K V}
  {index i : ℕ} {claim : Option ℕ}

/-- A call that runs alone, without spurious failures, for at most `fuel` steps. -/
def complete (hash : K → UInt64) : ℕ → HashMap K V → Pc K V → Option (HashMap K V × Outcome V)
  | 0, _, _ => none
  | fuel + 1, map, pc =>
      match resume hash map false pc with
      | none => none
      | some (next, .done outcome) => some (next, outcome)
      | some (next, .running pc) => complete hash fuel next pc

/-- From here the call returns the outcome and leaves the last map. -/
inductive Returns (hash : K → UInt64) : HashMap K V → Progress K V → HashMap K V → Outcome V →
    Prop where
  | done {map : HashMap K V} {outcome : Outcome V} : Returns hash map (.done outcome) map outcome
  | step {map next last : HashMap K V} {pc : Pc K V} {progress : Progress K V} {outcome : Outcome V}
      (resumed : resume hash map false pc = some (next, progress))
      (rest : Returns hash next progress last outcome) : Returns hash map (.running pc) last outcome

theorem Returns.completes (returns : Returns hash map progress last outcome) :
    ∀ pc, progress = .running pc →
      ∃ fuel, complete hash fuel map pc = some (last, outcome) := by
  induction returns with
  | done => exact nofun
  | @step map next last pc progress outcome resumed rest ih =>
      rintro other ⟨⟩
      cases progress with
      | done finished =>
          cases rest
          exact ⟨1, by simp [complete, resumed]⟩
      | running after =>
          obtain ⟨fuel, completed⟩ := ih after rfl
          exact ⟨fuel + 1, by simp [complete, resumed, completed]⟩

/-! ## Buckets -/

section

omit [DecidableEq K]

@[simp] theorem setState_bucketCount (map : HashMap K V) (index : ℕ) (state : BucketState) :
    (map.setState index state).bucketCount = map.bucketCount := rfl

@[simp] theorem setState_buckets (map : HashMap K V) (index : ℕ) (state : BucketState) :
    (map.setState index state).buckets index = { map.buckets index with state } := by
  simp [setState]

@[simp] theorem setState_setState (map : HashMap K V) (index : ℕ) (first second : BucketState) :
    (map.setState index first).setState index second = map.setState index second := by
  simp [setState]

theorem setState_of_ne {other : ℕ} (different : other ≠ index) (state : BucketState) :
    (map.setState index state).buckets other = map.buckets other :=
  Function.update_of_ne different _ _

theorem setState_self {state : BucketState} (same : (map.buckets index).state = state) :
    map.setState index state = map := by
  simp [setState, ← same]

@[simp] theorem lowered_setState (map : HashMap K V) (index : ℕ) (state : BucketState)
    (reason : Lower K V) : (map.setState index state).lowered reason = map.lowered reason := by
  cases reason with
  | insertCompared key value i claim same => cases same <;> cases claim <;> rfl
  | _ => rfl

end

/-- The bucket holds the entry and nobody refers to it. -/
def Holds (bucket : Bucket K V) (entry : K × V) : Prop := bucket = ⟨⟨0, .filled⟩, some entry⟩

/-- No call is working on the bucket. -/
def Idle (bucket : Bucket K V) : Prop :=
  bucket.state = ⟨0, .empty⟩ ∨ bucket.state = ⟨0, .tombstone⟩ ∨ ∃ entry, Holds bucket entry

/-! ## Passing a bucket -/

attribute [local simp] resume

theorem Returns.lower {reason : Lower K V} {state : BucketState}
    (found : (map.buckets index).state = state)
    (rest : Returns hash (map.setState index ⟨state.refcount - 1, reason.state state.state⟩)
      (map.lowered reason) last outcome) :
    Returns hash map (.running (.lowerLoad index reason)) last outcome := by
  subst found
  exact .step rfl (.step (by simp) rest)

variable {entry : K × V}

theorem Returns.insertRaise (visits : slot hash map.bucketCount key i = index)
    (filled : (map.buckets index).state.state = .filled)
    (stored : (map.buckets index).entry = some entry)
    (rest : Returns hash map (map.lowered (.insertCompared key value i claim (entry.1 == key)))
      last outcome) :
    Returns hash map (.running (.insertRaise key value i claim (map.buckets index).state.refcount))
      last outcome := by
  let refcount := (map.buckets index).state.refcount
  let raised := map.setState index ⟨refcount + 1, .filled⟩
  have state : (map.buckets index).state = ⟨refcount, .filled⟩ := by rw [← filled]
  have raises : resume hash map false (.insertRaise key value i claim refcount) =
      some (raised, .running (.insertCompare key value i claim)) := by
    simp [visits, state, raised]
  have compares : resume hash raised false (.insertCompare key value i claim) =
      some (raised, .running (.lowerLoad index
        (.insertCompared key value i claim (entry.1 == key)))) := by
    simp [visits, stored, raised]
  have raisedState : (raised.buckets index).state = ⟨refcount + 1, .filled⟩ := by simp [raised]
  refine .step raises (.step compares (.lower raisedState ?_))
  simpa [Lower.state, raised, setState_self state] using rest

/-- An insertion compares its key with the one of a filled bucket. -/
theorem Returns.insertOver (visits : slot hash map.bucketCount key i = index)
    (filled : (map.buckets index).state.state = .filled)
    (stored : (map.buckets index).entry = some entry) (bound : i < map.bucketCount)
    (rest : Returns hash map (map.lowered (.insertCompared key value i claim (entry.1 == key)))
      last outcome) :
    Returns hash map (map.insertAt key value i claim) last outcome := by
  have raised := Returns.insertRaise visits filled stored rest
  cases claim with
  | none =>
      rw [insertAt, if_pos bound]
      have busy : (map.buckets index).state ≠ ⟨0, .empty⟩ := fun same => by simp [same] at filled
      have fails : resume hash map false (.insertExchange key value i) =
          some (map, .running (.insertRaise key value i none
            (map.buckets index).state.refcount)) := by
        simp [visits, busy, filled]
      exact .step fails raised
  | some claimed =>
      rw [insertAt, if_pos bound]
      have loads : resume hash map false (.insertCheck key value i claimed) =
          some (map, .running (.insertRaise key value i (some claimed)
            (map.buckets index).state.refcount)) := by
        simp [visits, filled]
      exact .step loads raised

/-- An insertion without a claim claims a tombstone and goes on. -/
theorem Returns.claimTombstone (visits : slot hash map.bucketCount key i = index)
    (tombstone : (map.buckets index).state = ⟨0, .tombstone⟩) (bound : i < map.bucketCount)
    (rest : Returns hash (map.setState index ⟨0, .constructing⟩)
      (map.insertAt key value (i + 1) (some index)) last outcome) :
    Returns hash map (map.insertAt key value i none) last outcome := by
  rw [insertAt, if_pos bound]
  have fails : resume hash map false (.insertExchange key value i) =
      some (map, .running (.insertTombstone key value i)) := by
    simp [visits, tombstone]
  have loads : resume hash map false (.insertTombstone key value i) =
      some (map, .running (.insertClaim key value i ⟨0, .tombstone⟩)) := by
    simp [visits, tombstone]
  have claims : resume hash map false (.insertClaim key value i ⟨0, .tombstone⟩) =
      some (map.setState index ⟨0, .constructing⟩,
        map.insertAt key value (i + 1) (some index)) := by
    simp [visits, tombstone]
  exact .step fails (.step loads (.step claims rest))

theorem Returns.insertTombstone {claimed : ℕ} (visits : slot hash map.bucketCount key i = index)
    (tombstone : (map.buckets index).state = ⟨0, .tombstone⟩) (bound : i < map.bucketCount)
    (rest : Returns hash map (map.insertAt key value (i + 1) (some claimed)) last outcome) :
    Returns hash map (map.insertAt key value i (some claimed)) last outcome := by
  rw [insertAt, if_pos bound]
  exact .step (by simp [visits, tombstone]) rest

/-- No key is behind an empty bucket. -/
theorem Returns.insertEmpty {claimed : ℕ} (visits : slot hash map.bucketCount key i = index)
    (empty : (map.buckets index).state = ⟨0, .empty⟩) (bound : i < map.bucketCount)
    (rest : Returns hash map (.running (.insertConstruct key value claimed)) last outcome) :
    Returns hash map (map.insertAt key value i (some claimed)) last outcome := by
  rw [insertAt, if_pos bound]
  exact .step (by simp [visits, empty]) rest

theorem Returns.removeTombstone (visits : slot hash map.bucketCount key i = index)
    (tombstone : (map.buckets index).state = ⟨0, .tombstone⟩) (bound : i < map.bucketCount)
    (rest : Returns hash map (map.removeAt key (i + 1)) last outcome) :
    Returns hash map (map.removeAt key i) last outcome := by
  rw [removeAt, if_pos bound]
  exact .step (by simp [visits, tombstone]) rest

theorem Returns.getTombstone {contains : Bool} (visits : slot hash map.bucketCount key i = index)
    (tombstone : (map.buckets index).state = ⟨0, .tombstone⟩) (bound : i < map.bucketCount)
    (rest : Returns hash map (map.getAt key contains (i + 1)) last outcome) :
    Returns hash map (map.getAt key contains i) last outcome := by
  rw [getAt, if_pos bound]
  exact .step (by simp [visits, tombstone]) rest

theorem Returns.removeOver (visits : slot hash map.bucketCount key i = index)
    (holds : Holds (map.buckets index) entry) (bound : i < map.bucketCount)
    (different : entry.1 ≠ key) (rest : Returns hash map (map.removeAt key (i + 1)) last outcome) :
    Returns hash map (map.removeAt key i) last outcome := by
  have state := congrArg Bucket.state holds
  have stored := congrArg Bucket.entry holds
  let seized := map.setState index ⟨1, .predestructing⟩
  have seizes : resume hash map false (.removeExchange key i) =
      some (seized, .running (.removeCompare key i)) := by
    simp [visits, state, seized]
  have compares : resume hash seized false (.removeCompare key i) =
      some (seized, .running (.lowerLoad index (.removeOther key i))) := by
    simp [visits, stored, different, seized]
  have seizedState : (seized.buckets index).state = ⟨1, .predestructing⟩ := by simp [seized]
  rw [removeAt, if_pos bound]
  refine .step seizes (.step compares (.lower seizedState ?_))
  change Returns hash map (map.lowered (.removeOther key i)) last outcome at rest
  simpa [Lower.state, seized, setState_self state] using rest

theorem Returns.getOver {contains : Bool} (visits : slot hash map.bucketCount key i = index)
    (holds : Holds (map.buckets index) entry) (bound : i < map.bucketCount)
    (different : entry.1 ≠ key)
    (rest : Returns hash map (map.getAt key contains (i + 1)) last outcome) :
    Returns hash map (map.getAt key contains i) last outcome := by
  have state := congrArg Bucket.state holds
  have stored := congrArg Bucket.entry holds
  let raised := map.setState index ⟨1, .filled⟩
  have loads : resume hash map false (.getLoad key contains i) =
      some (map, .running (.getRaise key contains i 0)) := by
    simp [visits, state]
  have raises : resume hash map false (.getRaise key contains i 0) =
      some (raised, .running (.getCompare key contains i)) := by
    simp [visits, state, raised]
  have compares : resume hash raised false (.getCompare key contains i) =
      some (raised, .running (.lowerLoad index (.getOther key contains i))) := by
    simp [visits, stored, different, raised]
  have raisedState : (raised.buckets index).state = ⟨1, .filled⟩ := by simp [raised]
  rw [getAt, if_pos bound]
  refine .step loads (.step raises (.step compares (.lower raisedState ?_)))
  change Returns hash map (map.lowered (.getOther key contains i)) last outcome at rest
  simpa [Lower.state, raised, setState_self state] using rest

/-! ## What a scan ends with -/

def unlocked (map : HashMap K V) : HashMap K V := { map with readers := map.readers - 1 }

def store (map : HashMap K V) (index : ℕ) (entry : K × V) : HashMap K V :=
  { map with
    buckets := Function.update map.buckets index ⟨⟨0, .filled⟩, some entry⟩
    load := map.load + 1 }

def clear (map : HashMap K V) (index : ℕ) : HashMap K V :=
  { map with
    buckets := Function.update map.buckets index ⟨⟨0, .tombstone⟩, none⟩
    load := map.load - 1 }

theorem Returns.leave (hash : K → UInt64) (map : HashMap K V) (outcome : Outcome V) :
    Returns hash map (leave outcome) map.unlocked outcome := .step rfl .done

theorem Returns.construct (hash : K → UInt64) (map : HashMap K V) (key : K) (value : V)
    (index : ℕ) :
    Returns hash (map.setState index ⟨0, .constructing⟩)
      (.running (.insertConstruct key value index))
      (map.store index (key, value)).unlocked .inserted := by
  have stores : ((({ (map.setState index ⟨0, .constructing⟩).setEntry index (some (key, value)) with
      load := map.load + 1 } : HashMap K V).setState index ⟨0, .filled⟩).unlocked) =
      (map.store index (key, value)).unlocked := by
    simp [setState, setEntry, store, unlocked]
  rw [← stores]
  exact .step rfl (.step rfl (.step rfl (.leave hash _ _)))

theorem Returns.giveUp (hash : K → UInt64) {failure : InsertFailed}
    (tombstone : (map.buckets index).state = ⟨0, .tombstone⟩) :
    Returns hash (map.setState index ⟨0, .constructing⟩) (.running (.insertGiveUp index failure))
      map.unlocked (.insertFailed failure) := by
  refine .step rfl ?_
  rw [setState_setState, setState_self tombstone]
  exact .leave hash _ _

theorem Returns.remove (visits : slot hash map.bucketCount key i = index)
    (holds : Holds (map.buckets index) (key, value)) (bound : i < map.bucketCount) :
    Returns hash map (map.removeAt key i) (map.clear index).unlocked (.removed value) := by
  have state := congrArg Bucket.state holds
  have stored := congrArg Bucket.entry holds
  let seized := map.setState index ⟨1, .predestructing⟩
  let drained := map.setState index ⟨0, .predestructing⟩
  have seizes : resume hash map false (.removeExchange key i) =
      some (seized, .running (.removeCompare key i)) := by
    simp [visits, state, seized]
  have compares : resume hash seized false (.removeCompare key i) =
      some (seized, .running (.removeConfirm index)) := by
    simp [visits, stored, seized]
  have confirms : resume hash seized false (.removeConfirm index) =
      some (seized, .running (.removeDrainLoad index)) := by
    simp [seized]
  have loads : resume hash seized false (.removeDrainLoad index) =
      some (seized, .running (.removeDrain index ⟨1, .predestructing⟩)) := by
    simp [seized]
  have drains : resume hash seized false (.removeDrain index ⟨1, .predestructing⟩) =
      some (drained, .running (.removeTake index)) := by
    simp [seized, drained]
  have takes : resume hash drained false (.removeTake index) =
      some (drained.setEntry index none, .running (.removeCount index value)) := by
    simp [stored, drained]
  have clears : ((({ drained.setEntry index none with load := map.load - 1 } :
      HashMap K V).setState index ⟨0, .tombstone⟩).unlocked) = (map.clear index).unlocked := by
    simp [setState, setEntry, clear, unlocked, drained]
  rw [removeAt, if_pos bound, ← clears]
  refine .step seizes
    (.step compares (.step confirms (.step loads (.step drains (.step takes ?_)))))
  exact .step rfl (.step rfl (.leave hash _ _))

theorem Returns.get (visits : slot hash map.bucketCount key i = index)
    (holds : Holds (map.buckets index) (key, value)) (bound : i < map.bucketCount) :
    Returns hash map (map.getAt key false i) (map.setState index ⟨1, .filled⟩).unlocked
      (.found index) := by
  have state := congrArg Bucket.state holds
  have stored := congrArg Bucket.entry holds
  let raised := map.setState index ⟨1, .filled⟩
  have loads : resume hash map false (.getLoad key false i) =
      some (map, .running (.getRaise key false i 0)) := by
    simp [visits, state]
  have raises : resume hash map false (.getRaise key false i 0) =
      some (raised, .running (.getCompare key false i)) := by
    simp [visits, state, raised]
  have compares : resume hash raised false (.getCompare key false i) =
      some (raised, HashMap.leave (.found index)) := by
    simp [visits, stored, raised]
  rw [getAt, if_pos bound]
  exact .step loads (.step raises (.step compares (.leave hash _ _)))

theorem Returns.contains (visits : slot hash map.bucketCount key i = index)
    (holds : Holds (map.buckets index) (key, value)) (bound : i < map.bucketCount) :
    Returns hash map (map.getAt key true i) map.unlocked (.contained true) := by
  have state := congrArg Bucket.state holds
  have stored := congrArg Bucket.entry holds
  let raised := map.setState index ⟨1, .filled⟩
  have loads : resume hash map false (.getLoad key true i) =
      some (map, .running (.getRaise key true i 0)) := by
    simp [visits, state]
  have raises : resume hash map false (.getRaise key true i 0) =
      some (raised, .running (.getCompare key true i)) := by
    simp [visits, state, raised]
  have compares : resume hash raised false (.getCompare key true i) =
      some (raised, .running (.lowerLoad index .contained)) := by
    simp [visits, stored, raised]
  have raisedState : (raised.buckets index).state = ⟨1, .filled⟩ := by simp [raised]
  rw [getAt, if_pos bound]
  refine .step loads (.step raises (.step compares (.lower raisedState ?_)))
  have restored : raised.setState index ⟨0, .filled⟩ = map := by
    simp [raised, setState_self state]
  simp only [Lower.state, id, Nat.sub_self, restored, lowered]
  exact .leave hash _ _

end Asco.Concurrency.HashMap
