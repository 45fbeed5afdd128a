import Mathlib.Combinatorics.Enumerative.DoubleCounting
import Asco.Concurrency.HashMap.Calls
import Asco.Concurrency.HashMap.Session

namespace Asco.Concurrency.HashMap

open Foundation Foundation.OpenAddressing

/-! # A map at rest and what it holds

Each call of a thread that is alone does to the finite map what the call is for.
-/

variable {K V : Type*} [DecidableEq K] {hash : K → UInt64} {map last : HashMap K V}
  {dictionary : Dictionary K V} {key : K} {value : V} {outcome : Outcome V} {index : ℕ}

/-- The read lock is taken. -/
def locked (map : HashMap K V) : HashMap K V := { map with readers := map.readers + 1 }

omit [DecidableEq K] in
@[simp] theorem locked_unlocked (map : HashMap K V) : map.locked.unlocked = map := rfl

/-- A map at rest that holds what the dictionary holds. -/
structure Represents (hash : K → UInt64) (map : HashMap K V) (dictionary : Dictionary K V) :
    Prop where
  sized : WellSized map.bucketCount
  idle : ∀ index, Idle (map.buckets index)
  readers : map.readers = 0
  writing : map.writing = false
  sound : Table.Sound (slot hash) map.table.size map.table.slots
  entries : ∀ key, map.table.get (slot hash) key = dictionary.entries.lookup key
  load : map.load = dictionary.entries.keys.card
  bucketCount : map.bucketCount = dictionary.bucketCount

theorem represents_create (hash : K → UInt64) :
    Represents hash (create K V) (Dictionary.empty K V) where
  sized := .initial
  idle _ := .inl rfl
  readers := rfl
  writing := rfl
  sound := .vacant (slot hash) _
  entries key :=
    Table.get_eq_none ((Table.locate_eq_none_iff (.vacant (slot hash) _)).mpr
      fun _ _ filled => by cases filled)
  load := rfl
  bucketCount := rfl

namespace Represents

variable (represents : Represents hash map dictionary)
include represents

theorem mem_keys_iff : key ∈ dictionary.entries.keys ↔
    ∃ index value, map.table.slots index = .filled key value := by
  rw [Finmap.mem_keys, Finmap.mem_iff]
  constructor
  · rintro ⟨value, stored⟩
    rw [← represents.entries] at stored
    obtain ⟨index, filled⟩ := (Table.get_iff represents.sound).mp stored
    exact ⟨index, value, filled⟩
  · rintro ⟨index, value, filled⟩
    rw [← represents.entries]
    exact ⟨value, (Table.get_iff represents.sound).mpr ⟨index, filled⟩⟩

/-- There are no more keys than buckets. -/
theorem keys_le : dictionary.entries.keys.card ≤ map.bucketCount := by
  rw [← Finset.card_range map.bucketCount]
  refine Finset.card_le_card_of_forall_subsingleton
    (fun key index => ∃ value, map.table.slots index = .filled key value) ?_ ?_
  · intro key member
    obtain ⟨index, value, filled⟩ := represents.mem_keys_iff.mp member
    have inside := represents.sound.inside (represents.sized.probes hash) filled
    exact ⟨index, Finset.mem_range.mpr inside, value, filled⟩
  · rintro index _ first ⟨_, _, filled⟩ second ⟨_, _, also⟩
    rw [filled] at also
    cases also
    rfl

/-- With fewer keys than buckets there is a bucket that is not filled. -/
theorem room (fewer : dictionary.entries.keys.card < map.bucketCount) :
    ∃ index < map.bucketCount, (map.table.slots index).isFilled = false := by
  by_contra full
  have filled (index : ℕ) (inside : index < map.bucketCount) :
      ∃ key value, map.table.slots index = .filled key value := by
    refine Slot.isFilled_iff.mp ?_
    by_contra free
    exact full ⟨index, inside, by simpa using free⟩
  have many : (Finset.range map.bucketCount).card ≤ dictionary.entries.keys.card := by
    refine Finset.card_le_card_of_forall_subsingleton
      (fun index key => ∃ value, map.table.slots index = .filled key value) ?_ ?_
    · intro index member
      obtain ⟨key, value, filled⟩ := filled index (Finset.mem_range.mp member)
      exact ⟨key, represents.mem_keys_iff.mpr ⟨index, value, filled⟩, value, filled⟩
    · rintro key _ first ⟨_, value, filled⟩ second ⟨_, other, also⟩
      exact represents.sound.single first second key value other filled also
  rw [Finset.card_range] at many
  omega

/-- Where a search for the key ends. -/
theorem search (key : K) :
    (dictionary.entries.lookup key = none ∧ map.table.locate (slot hash) key = none) ∨
      ∃ index value, dictionary.entries.lookup key = some value ∧
        map.table.locate (slot hash) key = some index ∧
          Holds (map.buckets index) (key, value) := by
  rw [← represents.entries]
  cases located : map.table.locate (slot hash) key with
  | none => exact .inl ⟨Table.get_eq_none located, rfl⟩
  | some index =>
      obtain ⟨value, filled, got⟩ := Table.get_of_locate located
      exact .inr ⟨index, value, got, rfl, (represents.idle index).holds filled⟩

/-! ## The calls -/

theorem lock {call : Call K V} {progress : Progress K V}
    (enters : map.enter call = some progress)
    (rest : Returns hash map.locked progress last outcome) :
    Returns hash map (.running (.tryRead call)) last outcome := by
  have loads : resume hash map false (.tryRead call) =
      some (map, .running (.tryReadExchange call map.readers)) := by
    simp [resume, represents.writing]
  have locks : resume hash map false (.tryReadExchange call map.readers) =
      some (map.locked, progress) := by
    simp [resume, represents.writing, enters, locked]
  exact .step loads (.step locks rest)

theorem idle_locked (index : ℕ) : Idle (map.locked.buckets index) := represents.idle index

theorem tryGet (key : K) :
    (dictionary.entries.lookup key = none ∧
        Returns hash map (.running (.tryRead (.tryGet key))) map (.getFailed .none)) ∨
      ∃ index value, dictionary.entries.lookup key = some value ∧
        Holds (map.buckets index) (key, value) ∧
          Returns hash map (.running (.tryRead (.tryGet key)))
            (map.setState index ⟨1, .filled⟩) (.found index) := by
  rcases represents.search key with ⟨absent, missing⟩ | ⟨index, value, stored, located, holds⟩
  · have returns := Returns.getMissing represents.idle_locked missing false
    exact .inl ⟨absent, represents.lock rfl returns⟩
  · obtain ⟨_, _, returns, _⟩ := Returns.getPresent represents.idle_locked located
    exact .inr ⟨index, value, stored, holds, represents.lock rfl returns⟩

theorem tryContains (key : K) :
    Returns hash map (.running (.tryRead (.tryContains key))) map
      (.contained (decide (key ∈ dictionary.entries))) := by
  rcases represents.search key with ⟨absent, missing⟩ | ⟨index, value, stored, located, _⟩
  · rw [decide_eq_false (Finmap.lookup_eq_none.mp absent)]
    exact represents.lock rfl (.getMissing represents.idle_locked missing true)
  · obtain ⟨_, _, _, returns⟩ := Returns.getPresent represents.idle_locked located
    rw [decide_eq_true (Finmap.mem_iff.mpr ⟨value, stored⟩)]
    exact represents.lock rfl returns

theorem clear (located : map.table.locate (slot hash) key = some index) :
    Represents hash (map.clear index)
      { dictionary with entries := dictionary.entries.erase key } := by
  have removed : (map.clear index).table = map.table.remove (slot hash) key := by
    simp only [Table.remove, located]
    rw [table, HashMap.clear, slots_update]
    rfl
  have got (other : K) : Table.Sound (slot hash) (map.clear index).table.size
      (map.clear index).table.slots ∧
        (map.clear index).table.get (slot hash) other =
          if other = key then none else map.table.get (slot hash) other := by
    rw [removed]
    exact Table.get_remove represents.sound other
  refine ⟨represents.sized, fun other => ?_, represents.readers, represents.writing,
    (got key).1, fun other => ?_, ?_, represents.bucketCount⟩
  · by_cases here : other = index
    · subst here
      simp [HashMap.clear, Idle]
    · simpa [HashMap.clear, here] using represents.idle other
  · rw [(got other).2]
    by_cases same : other = key
    · rw [if_pos same, same, Finmap.lookup_erase]
    · rw [if_neg same, Finmap.lookup_erase_ne same, represents.entries]
  · have member : key ∈ dictionary.entries.keys := by
      obtain ⟨value, filled⟩ := Table.locate_filled located
      exact represents.mem_keys_iff.mpr ⟨index, value, filled⟩
    rw [Finmap.keys_erase, Finset.card_erase_of_mem member, ← represents.load]
    rfl

theorem tryRemove (key : K) :
    (dictionary.entries.lookup key = none ∧
        Returns hash map (.running (.tryRead (.tryRemove key))) map (.removeFailed .none)) ∨
      ∃ last value, dictionary.entries.lookup key = some value ∧
        Returns hash map (.running (.tryRead (.tryRemove key))) last (.removed value) ∧
          Represents hash last { dictionary with entries := dictionary.entries.erase key } := by
  rcases represents.search key with ⟨absent, missing⟩ | ⟨index, value, stored, located, holds⟩
  · exact .inl ⟨absent, represents.lock rfl (.removeMissing represents.idle_locked missing)⟩
  · obtain ⟨other, also, returns⟩ := Returns.removePresent represents.idle_locked located
    have same : (key, value) = (key, other) :=
      Option.some.inj ((congrArg Bucket.entry holds).symm.trans (congrArg Bucket.entry also))
    cases same
    exact .inr ⟨map.clear index, value, stored, represents.lock rfl returns,
      represents.clear located⟩

theorem refused (full : dictionary.Full) (key : K) (value : V) :
    Returns hash map (.running (.tryRead (.tryInsert key value))) map
      (.insertFailed .rehashNeeded) := by
  have full : 3 * map.bucketCount ≤ 5 * map.load := by
    rw [represents.bucketCount, represents.load]
    exact full
  have refuses : resume hash map.locked false (.insertStart key value) =
      some (map.locked, leave (.insertFailed .rehashNeeded)) := by
    simp [resume, locked, full]
  exact represents.lock rfl (.step refuses (.leave hash map.locked _))

theorem store (added : map.table.add (slot hash) key value =
      ({ map.table with
          slots := Function.update map.table.slots index (.filled key value)
          load := map.load + 1 },
        true))
    (absent : key ∉ dictionary.entries) :
    Represents hash (map.store index (key, value))
      { dictionary with entries := dictionary.entries.insert key value } := by
  have stored : (map.store index (key, value)).table =
      (map.table.add (slot hash) key value).1 := by
    rw [added, table, HashMap.store, slots_update]
    rfl
  have got := fun other => Table.get_add represents.sound key other value
  simp only [← stored] at got
  refine ⟨represents.sized, fun other => ?_, represents.readers, represents.writing,
    (got key).1, fun other => ?_, ?_, represents.bucketCount⟩
  · by_cases here : other = index
    · subst here
      simp [HashMap.store, Idle, Holds]
    · simpa [HashMap.store, here] using represents.idle other
  · rw [(got other).2, added]
    by_cases same : other = key
    · rw [if_pos ⟨rfl, same⟩, same, Finmap.lookup_insert]
    · rw [if_neg fun both => same both.2, Finmap.lookup_insert_of_ne _ same, represents.entries]
  · have keys : (dictionary.entries.insert key value).keys =
        insert key dictionary.entries.keys := by
      ext other
      simp [Finmap.mem_keys]
    have new : key ∉ dictionary.entries.keys := fun member => absent (Finmap.mem_keys.mp member)
    rw [keys, Finset.card_insert_of_notMem new, ← represents.load]
    rfl

/-- An insertion that is not refused. -/
theorem tryInsert (room : ¬ dictionary.Full) (key : K) (value : V) :
    ∃ last outcome, Returns hash map (.running (.tryRead (.tryInsert key value))) last outcome ∧
      outcome.answer last = some (dictionary.add key value).2 ∧
        (outcome = .inserted ∨ outcome = .insertFailed .keyRepeated) ∧
          Represents hash last (dictionary.add key value).1 := by
  have admits : ¬ 3 * map.bucketCount ≤ 5 * map.load := by
    rw [represents.bucketCount, represents.load]
    exact room
  have starts : resume hash map.locked false (.insertStart key value) =
      some (map.locked, map.locked.insertAt key value 0 none) := by
    simp [resume, locked, admits]
  rcases represents.search key with ⟨absent, missing⟩ | ⟨index, held, stored, located, holds⟩
  · have fewer : dictionary.entries.keys.card < map.bucketCount := by
      rw [← represents.load]
      omega
    obtain ⟨index, added, returns⟩ := Returns.insertMissing represents.idle_locked represents.sized
      value missing (represents.room fewer)
    have absent : key ∉ dictionary.entries := Finmap.lookup_eq_none.mp absent
    rw [Dictionary.add, if_neg absent]
    exact ⟨map.store index (key, value), .inserted, represents.lock rfl (.step starts returns), rfl,
      .inl rfl, represents.store added absent⟩
  · have returns := Returns.insertPresent represents.idle_locked represents.sized value located
    rw [Dictionary.add, if_pos (Finmap.mem_iff.mpr ⟨held, stored⟩)]
    exact ⟨map, .insertFailed .keyRepeated, represents.lock rfl (.step starts returns), rfl,
      .inr rfl, represents⟩

theorem rehashed {buckets : ℕ → Bucket K V} (moved : Rehashed hash map map.bucketCount buckets) :
    Represents hash { map with buckets, bucketCount := 2 * map.bucketCount }
      dictionary.doubled := by
  have got := Table.get_rehash represents.sound (represents.sized.probes hash)
    (represents.sized.double.probes hash) id
  have carried : slots buckets = (map.table.rehash (slot hash) id).slots := moved.carried
  refine ⟨represents.sized.double, moved.idle, represents.readers, represents.writing, ?_,
    fun key => ?_, represents.load, ?_⟩
  · change Table.Sound (slot hash) _ (slots buckets)
    rw [moved.carried]
    exact (Table.carried_carried represents.sound (represents.sized.double.probes hash) id
      (by omega : map.bucketCount ≤ 2 * map.bucketCount)).sound
  · calc Table.get (slot hash) { array := 0, size := _, slots := slots buckets, load := _ } key
        = (map.table.rehash (slot hash) id).get (slot hash) key := by
          rw [carried]
          rfl
      _ = (map.table.get (slot hash) key).map id := (got key).2
      _ = dictionary.entries.lookup key := by rw [Option.map_id_apply, represents.entries]
  · exact congrArg (2 * ·) represents.bucketCount

theorem tryRehash :
    ∃ last, Returns hash map (.running .tryWrite) last (.rehashed true) ∧
      Represents hash last dictionary.doubled := by
  have free : ¬ (map.writing = true ∨ map.readers ≠ 0) := by
    simp [represents.writing, represents.readers]
  let writing : HashMap K V := { map with writing := true }
  have sameSize : writing.bucketCount = map.bucketCount := rfl
  obtain ⟨buckets, moved, returns⟩ := Returns.rehashLoop represents.sized represents.sound
    represents.idle sameSize (fun _ _ => rfl) (Nat.zero_le _) (.start hash map)
  have loads : resume hash map false .tryWrite = some (map, .running .tryWriteExchange) := by
    simp [resume, free]
  have locks : resume hash map false .tryWriteExchange =
      some (writing, .running (.rehashLoad 0 fun _ => emptyBucket K V)) := by
    simp [resume, free, writing]
  have same : { writing with buckets, bucketCount := 2 * map.bucketCount, writing := false } =
      { map with buckets, bucketCount := 2 * map.bucketCount } := by
    simp [writing, represents.writing]
  rw [same] at returns
  exact ⟨_, .step loads (.step locks returns), represents.rehashed moved⟩

end Represents

end Asco.Concurrency.HashMap
