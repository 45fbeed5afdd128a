import Asco.Concurrency.HashMap.Sequential
import Asco.Foundation.OpenAddressing

namespace Asco.Concurrency

open Foundation Foundation.OpenAddressing

/-! # One call at a time: a table

Between the calls of one thread no bucket is worked on, and what the buckets hold
is a table with open addressing.  Each call does what the operation of the table
does.
-/

variable {K V : Type*}

/-- What a search finds in a bucket. -/
def Bucket.content (bucket : Bucket K V) : Slot K V :=
  match bucket.state.state, bucket.entry with
  | .empty, _ => .empty
  | .filled, some entry => .filled entry.1 entry.2
  | _, _ => .tombstone

namespace HashMap

def slots (buckets : ℕ → Bucket K V) (index : ℕ) : Slot K V := (buckets index).content

/-- `array` stays 0, as no address of a bucket is compared. -/
def table (map : HashMap K V) : Table K V where
  array := 0
  size := map.bucketCount
  slots := slots map.buckets
  load := map.load

section

variable {bucket : Bucket K V} {key : K} {value : V}

theorem Holds.content {entry : K × V} (holds : Holds bucket entry) :
    bucket.content = .filled entry.1 entry.2 := by
  subst holds
  rfl

theorem content_of_state {state : BucketState} (is : bucket.state = state)
    (unfilled : state.state ≠ .filled) :
    bucket.content = if state.state = .empty then .empty else .tombstone := by
  subst is
  unfold Bucket.content
  cases found : bucket.state.state with
  | filled => exact absurd found unfilled
  | _ => rfl

theorem Idle.empty (idle : Idle bucket) (empty : bucket.content = .empty) :
    bucket.state = ⟨0, .empty⟩ := by
  rcases idle with state | state | ⟨entry, holds⟩
  · exact state
  · rw [content_of_state state (by decide)] at empty
    contradiction
  · rw [holds.content] at empty
    contradiction

theorem Idle.holds (idle : Idle bucket) (filled : bucket.content = .filled key value) :
    Holds bucket (key, value) := by
  rcases idle with state | state | ⟨entry, holds⟩
  · rw [content_of_state state (by decide)] at filled
    contradiction
  · rw [content_of_state state (by decide)] at filled
    contradiction
  · rw [holds.content] at filled
    cases filled
    exact holds

theorem Idle.tombstone (idle : Idle bucket) (dead : bucket.content = .tombstone) :
    bucket.state = ⟨0, .tombstone⟩ := by
  rcases idle with state | state | ⟨entry, holds⟩
  · rw [content_of_state state (by decide)] at dead
    contradiction
  · exact state
  · rw [holds.content] at dead
    contradiction

end

theorem WellSized.probes {size : ℕ} (sized : WellSized size) (hash : K → UInt64) :
    Probes (slot hash) size :=
  ⟨slot_lt sized hash, fun key _ inside => exists_slot sized hash key inside⟩

variable [DecidableEq K] {hash : K → UInt64} {map last : HashMap K V} {key : K} {value : V}
  {outcome : Outcome V} {index i n : ℕ} {claim : Option ℕ}

/-- A bucket that a search passes is a tombstone or holds another key. -/
theorem Idle.passed (idle : Idle (map.buckets index))
    (passes : Table.stops map.table.slots key index = false) :
    (map.buckets index).state = ⟨0, .tombstone⟩ ∨
      ∃ entry, Holds (map.buckets index) entry ∧ entry.1 ≠ key := by
  rcases idle with state | state | ⟨entry, holds⟩
  · have stopped : Table.stops map.table.slots key index = true :=
      Table.stops_iff.mpr (.inl (content_of_state state (by decide)))
    rw [stopped] at passes
    contradiction
  · exact .inl state
  · refine .inr ⟨entry, holds, fun same => ?_⟩
    have stopped : Table.stops map.table.slots key index = true :=
      Table.stops_iff.mpr (.inr ⟨entry.2, same ▸ holds.content⟩)
    rw [stopped] at passes
    contradiction

/-! ## The scans -/

section

variable (idle : ∀ index, Idle (map.buckets index))
  (passes : Table.Passes (slot hash) map.bucketCount map.table.slots key n)
include idle passes

theorem Returns.getScan {contains : Bool}
    (rest : Returns hash map (map.getAt key contains n) last outcome) :
    Returns hash map (map.getAt key contains 0) last outcome := by
  induction n with
  | zero => exact rest
  | succ n ih =>
      have within : n < map.bucketCount := passes.1
      refine ih passes.pred ?_
      rcases (idle _).passed (passes.2 n (Nat.lt_succ_self n)) with
        tombstone | ⟨entry, holds, other⟩
      · exact .getTombstone rfl tombstone within rest
      · exact .getOver rfl holds within other rest

theorem Returns.removeScan (rest : Returns hash map (map.removeAt key n) last outcome) :
    Returns hash map (map.removeAt key 0) last outcome := by
  induction n with
  | zero => exact rest
  | succ n ih =>
      have within : n < map.bucketCount := passes.1
      refine ih passes.pred ?_
      rcases (idle _).passed (passes.2 n (Nat.lt_succ_self n)) with
        tombstone | ⟨entry, holds, other⟩
      · exact .removeTombstone rfl tombstone within rest
      · exact .removeOver rfl holds within other rest

/-- Before its claim an insertion passes what is filled with other keys. -/
theorem Returns.insertScan
    (filled : ∀ j < n, (map.table.slots (slot hash map.bucketCount key j)).isFilled = true)
    (rest : Returns hash map (map.insertAt key value n none) last outcome) :
    Returns hash map (map.insertAt key value 0 none) last outcome := by
  induction n with
  | zero => exact rest
  | succ n ih =>
      have within : n < map.bucketCount := passes.1
      refine ih passes.pred (fun j earlier => filled j (by omega)) ?_
      rcases (idle _).passed (passes.2 n (Nat.lt_succ_self n)) with
        tombstone | ⟨entry, holds, other⟩
      · have unfilled := filled n (Nat.lt_succ_self n)
        have dead : map.table.slots (slot hash map.bucketCount key n) = .tombstone :=
          content_of_state tombstone (by decide)
        rw [dead] at unfilled
        contradiction
      · refine .insertOver rfl (congrArg (·.state.state) holds)
          (congrArg Bucket.entry holds) within ?_
        rw [beq_false_of_ne other]
        exact rest

/-- With a claim it passes tombstones as well. -/
theorem Returns.claimScan (sized : WellSized map.bucketCount) (claims : i < n)
    (claimed : slot hash map.bucketCount key i = index)
    (rest : Returns hash (map.setState index ⟨0, .constructing⟩)
      (map.insertAt key value n (some index)) last outcome) :
    Returns hash (map.setState index ⟨0, .constructing⟩)
      (map.insertAt key value (i + 1) (some index)) last outcome := by
  induction n with
  | zero => contradiction
  | succ n ih =>
      have within : n < map.bucketCount := passes.1
      rcases Nat.lt_or_eq_of_le (Nat.le_of_lt_succ claims) with later | rfl
      · refine ih passes.pred later ?_
        have apart : slot hash map.bucketCount key n ≠ index := by
          intro same
          have positions := slot_injective sized (by omega) (by omega) (same.trans claimed.symm)
          omega
        have kept : (map.setState index ⟨0, .constructing⟩).buckets
            (slot hash map.bucketCount key n) = map.buckets (slot hash map.bucketCount key n) :=
          setState_of_ne apart _
        rcases (idle _).passed (passes.2 n (Nat.lt_succ_self n)) with dead | ⟨entry, holds, other⟩
        · exact .insertTombstone rfl (kept ▸ dead) within rest
        · have holds : Holds ((map.setState index ⟨0, .constructing⟩).buckets
            (slot hash map.bucketCount key n)) entry := kept.trans holds
          change Returns hash _
            ((map.setState index ⟨0, .constructing⟩).insertAt key value n (some index)) last outcome
          refine .insertOver rfl (congrArg (·.state.state) holds) (congrArg Bucket.entry holds)
            within ?_
          rw [beq_false_of_ne other]
          exact rest
      · exact rest

/-- What a search passes and is not filled is a tombstone. -/
theorem tombstone_of_passes (earlier : i < n)
    (free : (map.table.slots (slot hash map.bucketCount key i)).isFilled = false) :
    (map.buckets (slot hash map.bucketCount key i)).state = ⟨0, .tombstone⟩ := by
  rcases (idle _).passed (passes.2 i earlier) with tombstone | ⟨entry, holds, _⟩
  · exact tombstone
  · have filled : map.table.slots (slot hash map.bucketCount key i) = .filled entry.1 entry.2 :=
      holds.content
    rw [filled] at free
    contradiction

/-- An insertion claims the first bucket that is not filled and goes on to the position. -/
theorem Returns.insertTo (sized : WellSized map.bucketCount) (claims : i < n)
    (free : (map.table.slots (slot hash map.bucketCount key i)).isFilled = false)
    (before : ∀ j < i, (map.table.slots (slot hash map.bucketCount key j)).isFilled = true)
    (rest : Returns hash (map.setState (slot hash map.bucketCount key i) ⟨0, .constructing⟩)
      (map.insertAt key value n (some (slot hash map.bucketCount key i))) last outcome) :
    Returns hash map (map.insertAt key value 0 none) last outcome := by
  have tombstone := tombstone_of_passes idle passes claims free
  have inside : i < map.bucketCount := claims.trans_le passes.1
  have earlier : Table.Passes (slot hash) map.bucketCount map.table.slots key i :=
    ⟨inside.le, fun j below => passes.2 j (below.trans claims)⟩
  refine .insertScan idle earlier before (.claimTombstone rfl tombstone inside ?_)
  exact .claimScan idle passes sized claims rfl rest

end

/-! ## What a call does -/

section

variable (idle : ∀ index, Idle (map.buckets index))
include idle

/-- Where the search for a key ends, in the words of the buckets. -/
theorem search_cases (hash : K → UInt64) (key : K) :
    ∃ i, Table.Passes (slot hash) map.bucketCount map.table.slots key i ∧
      ((map.table.locate (slot hash) key = none ∧ (i < map.bucketCount →
          (map.buckets (slot hash map.bucketCount key i)).state = ⟨0, .empty⟩)) ∨
        ∃ value, i < map.bucketCount ∧
          Holds (map.buckets (slot hash map.bucketCount key i)) (key, value) ∧
            map.table.locate (slot hash) key = some (slot hash map.bucketCount key i)) := by
  obtain ⟨i, passes, ⟨missing, empty⟩ | ⟨value, below, filled, located⟩⟩ :=
    Table.locate_cases (slot hash) map.table key
  · exact ⟨i, passes, .inl ⟨missing, fun below => (idle _).empty (empty below)⟩⟩
  · exact ⟨i, passes, .inr ⟨value, below, (idle _).holds filled, located⟩⟩

theorem Returns.getMissing (missing : map.table.locate (slot hash) key = none) (contains : Bool) :
    Returns hash map (map.getAt key contains 0) map.unlocked
      (if contains then .contained false else .getFailed .none) := by
  obtain ⟨i, passes, ⟨_, empty⟩ | ⟨_, _, _, located⟩⟩ := search_cases idle hash key
  · refine .getScan idle passes ?_
    by_cases below : i < map.bucketCount
    · rw [getAt, if_pos below]
      have loads : resume hash map false (.getLoad key contains i) =
          some (map, getNone contains) := by
        simp [resume, empty below]
      exact .step loads (.leave hash map _)
    · rw [getAt, if_neg below]
      exact .leave hash map _
  · rw [missing] at located
    contradiction

theorem Returns.getPresent (located : map.table.locate (slot hash) key = some index) :
    ∃ value, Holds (map.buckets index) (key, value) ∧
      Returns hash map (map.getAt key false 0) (map.setState index ⟨1, .filled⟩).unlocked
        (.found index) ∧
      Returns hash map (map.getAt key true 0) map.unlocked (.contained true) := by
  obtain ⟨i, passes, ⟨missing, _⟩ | ⟨value, below, holds, here⟩⟩ := search_cases idle hash key
  · rw [missing] at located
    contradiction
  · obtain rfl := Option.some.inj (here.symm.trans located)
    exact ⟨value, holds, .getScan idle passes (.get rfl holds below),
      .getScan idle passes (.contains rfl holds below)⟩

theorem Returns.removeMissing (missing : map.table.locate (slot hash) key = none) :
    Returns hash map (map.removeAt key 0) map.unlocked (.removeFailed .none) := by
  obtain ⟨i, passes, ⟨_, empty⟩ | ⟨_, _, _, located⟩⟩ := search_cases idle hash key
  · refine .removeScan idle passes ?_
    by_cases below : i < map.bucketCount
    · rw [removeAt, if_pos below]
      exact .step (by simp [resume, empty below]) (.leave hash map _)
    · rw [removeAt, if_neg below]
      exact .leave hash map _
  · rw [missing] at located
    contradiction

theorem Returns.removePresent (located : map.table.locate (slot hash) key = some index) :
    ∃ value, Holds (map.buckets index) (key, value) ∧
      Returns hash map (map.removeAt key 0) (map.clear index).unlocked (.removed value) := by
  obtain ⟨i, passes, ⟨missing, _⟩ | ⟨value, below, holds, here⟩⟩ := search_cases idle hash key
  · rw [missing] at located
    contradiction
  · obtain rfl := Option.some.inj (here.symm.trans located)
    exact ⟨value, holds, .removeScan idle passes (.remove rfl holds below)⟩

variable (sized : WellSized map.bucketCount)
include sized

theorem Returns.insertPresent (value : V)
    (located : map.table.locate (slot hash) key = some index) :
    Returns hash map (map.insertAt key value 0 none) map.unlocked (.insertFailed .keyRepeated) := by
  obtain ⟨n, passes, ⟨missing, _⟩ | ⟨held, below, holds, _⟩⟩ := search_cases idle hash key
  · rw [missing] at located
    contradiction
  · rcases Table.filled_or_first (slot hash) map.bucketCount map.table.slots key n with
      before | ⟨i, claims, free, before⟩
    · refine .insertScan idle passes before ?_
      refine .insertOver rfl (congrArg (·.state.state) holds) (congrArg Bucket.entry holds) below ?_
      rw [beq_self_eq_true]
      exact .leave hash map _
    · refine .insertTo idle passes sized claims free before ?_
      have tombstone := tombstone_of_passes idle passes claims free
      have apart : slot hash map.bucketCount key n ≠ slot hash map.bucketCount key i := fun same =>
        claims.ne' (slot_injective sized below (claims.trans below) same)
      generalize slot hash map.bucketCount key i = claim at tombstone apart ⊢
      have kept : Holds ((map.setState claim ⟨0, .constructing⟩).buckets
          (slot hash map.bucketCount key n)) (key, held) := (setState_of_ne apart _).trans holds
      change Returns hash _ ((map.setState claim ⟨0, .constructing⟩).insertAt key value n
        (some claim)) _ _
      refine .insertOver rfl (congrArg (·.state.state) kept) (congrArg Bucket.entry kept) below ?_
      rw [beq_self_eq_true]
      exact .giveUp hash tombstone

/-- A new key goes to the bucket that the table gives it. -/
theorem Returns.insertMissing (value : V) (missing : map.table.locate (slot hash) key = none)
    (room : ∃ index < map.bucketCount, (map.table.slots index).isFilled = false) :
    ∃ index, (map.table.add (slot hash) key value) =
        ({ map.table with
            slots := Function.update map.table.slots index (.filled key value)
            load := map.load + 1 },
          true) ∧
      Returns hash map (map.insertAt key value 0 none) (map.store index (key, value)).unlocked
        .inserted := by
  obtain ⟨i, inside, free, before⟩ := Table.exists_first (sized.probes hash) key room
  refine ⟨slot hash map.bucketCount key i, Table.add_of_first missing inside free before value, ?_⟩
  obtain ⟨n, passes, ⟨_, empty⟩ | ⟨_, _, _, located⟩⟩ := search_cases idle hash key
  · rcases Nat.lt_or_ge i n with claims | reached
    · refine .insertTo idle passes sized claims free before ?_
      by_cases below : n < map.bucketCount
      · have apart : slot hash map.bucketCount key n ≠ slot hash map.bucketCount key i :=
          fun same => claims.ne' (slot_injective sized below inside same)
        generalize slot hash map.bucketCount key i = claim at apart ⊢
        exact .insertEmpty rfl
          ((congrArg Bucket.state (setState_of_ne apart _)).trans (empty below)) below
          (.construct hash map key value claim)
      · rw [insertAt, if_neg below]
        exact .construct hash map key value _
    · have same : i = n := by
        by_contra different
        have later : n < i := by omega
        have dead : map.table.slots (slot hash map.bucketCount key n) = .empty :=
          content_of_state (empty (later.trans inside)) (by decide)
        have filled := before n later
        rw [dead] at filled
        contradiction
      subst same
      refine .insertScan idle passes before ?_
      rw [insertAt, if_pos inside]
      have claims : resume hash map false (.insertExchange key value i) =
          some (map.setState (slot hash map.bucketCount key i) ⟨0, .constructing⟩,
            .running (.insertConstruct key value (slot hash map.bucketCount key i))) := by
        simp [resume, empty inside]
      exact .step claims (.construct hash map key value _)
  · rw [missing] at located
    contradiction

end

/-! ## A rehash -/

omit [DecidableEq K] in
theorem slots_update (buckets : ℕ → Bucket K V) (index : ℕ) (bucket : Bucket K V) :
    slots (Function.update buckets index bucket) =
      Function.update (slots buckets) index bucket.content := by
  funext other
  by_cases here : other = index
  · subst here
    simp [slots]
  · simp [slots, here]

omit [DecidableEq K] in
theorem Idle.unfilled {bucket : Bucket K V} (idle : Idle bucket)
    (unfilled : bucket.content.isFilled = false) : bucket.state.state ≠ .filled := by
  rcases idle with state | state | ⟨entry, holds⟩
  · simp [state]
  · simp [state]
  · rw [holds.content] at unfilled
    contradiction

omit [DecidableEq K] in
theorem Idle.isEmpty {bucket : Bucket K V} (idle : Idle bucket) :
    (bucket.state.state == .empty) = bucket.content.isEmpty := by
  rcases idle with state | state | ⟨entry, holds⟩
  · rw [content_of_state state (by decide), state]
    rfl
  · rw [content_of_state state (by decide), state]
    rfl
  · rw [holds.content, holds]
    rfl

/-- What the new buckets are once the entries of the first old ones have been moved. -/
structure Rehashed (hash : K → UInt64) (old : HashMap K V) (count : ℕ) (fresh : ℕ → Bucket K V) :
    Prop where
  idle : ∀ index, Idle (fresh index)
  carried : slots fresh =
    Table.carried (slot hash) (2 * old.bucketCount) id old.table.slots count

section

variable {old : HashMap K V} {count : ℕ} {fresh : ℕ → Bucket K V}

omit [DecidableEq K] in
theorem Rehashed.start (hash : K → UInt64) (old : HashMap K V) :
    Rehashed hash old 0 fun _ => emptyBucket K V where
  idle _ := .inl rfl
  carried := rfl

omit [DecidableEq K] in
theorem Rehashed.pass (rehashed : Rehashed hash old count fresh)
    (unfilled : (old.table.slots count).isFilled = false) :
    Rehashed hash old (count + 1) fresh where
  idle := rehashed.idle
  carried := by
    rw [rehashed.carried, Table.carried]
    cases found : old.table.slots count with
    | filled key value =>
        rw [found] at unfilled
        contradiction
    | _ => rfl

variable (sized : WellSized old.bucketCount)
  (sound : Table.Sound (slot hash) old.bucketCount old.table.slots)
include sized sound

omit [DecidableEq K] in
/-- An empty bucket is found for every entry. -/
theorem Rehashed.move {entry : K × V} (rehashed : Rehashed hash old count fresh)
    (below : count < old.bucketCount) (holds : Holds (old.buckets count) entry) :
    ∃ moved, place hash (2 * old.bucketCount) fresh entry = some moved ∧
      Rehashed hash old (count + 1) moved := by
  have probes := sized.double.probes hash
  have few := (Table.carried_carried sound probes id (by omega : count ≤ 2 * old.bucketCount)).few
  have room : (Table.used (2 * old.bucketCount) (slots fresh)).card < 2 * old.bucketCount := by
    rw [rehashed.carried]
    omega
  have same : (fun i => (fresh (slot hash (2 * old.bucketCount) entry.1 i)).state.state == .empty) =
      fun i => (slots fresh (slot hash (2 * old.bucketCount) entry.1 i)).isEmpty :=
    funext fun i => (rehashed.idle _).isEmpty
  have carries : Table.carried (slot hash) (2 * old.bucketCount) id old.table.slots (count + 1) =
      Table.place (slot hash) (2 * old.bucketCount) (slots fresh) entry.1 entry.2 := by
    have filled : old.table.slots count = .filled entry.1 entry.2 := holds.content
    rw [Table.carried, filled, ← rehashed.carried]
    rfl
  cases found : (List.range (2 * old.bucketCount)).find? fun i =>
      (slots fresh (slot hash (2 * old.bucketCount) entry.1 i)).isEmpty with
  | none =>
      obtain ⟨index, _, empty, ⟨i, below, visits, _⟩, _⟩ :=
        Table.exists_place probes room entry.1 entry.2
      have never := List.find?_eq_none.mp found i (List.mem_range.mpr below)
      rw [visits] at never
      exact absurd empty never
  | some i =>
      let index := slot hash (2 * old.bucketCount) entry.1 i
      refine ⟨Function.update fresh index ⟨⟨0, .filled⟩, some entry⟩, ?_, fun other => ?_, ?_⟩
      · rw [place, same, found]
        rfl
      · by_cases here : other = index
        · rw [here, Function.update_self]
          exact .inr (.inr ⟨entry, rfl⟩)
        · rw [Function.update_of_ne here]
          exact rehashed.idle other
      · rw [slots_update, carries]
        simp only [Table.place, found]
        rfl

/-- The loop of `do_rehash` from a bucket on. -/
theorem Returns.rehashLoop (idle : ∀ index, Idle (old.buckets index))
    (sameSize : map.bucketCount = old.bucketCount)
    (ahead : ∀ index, count ≤ index → map.buckets index = old.buckets index)
    (within : count ≤ old.bucketCount) (rehashed : Rehashed hash old count fresh) :
    ∃ final, Rehashed hash old old.bucketCount final ∧
      Returns hash map (.running (.rehashLoad count fresh))
        { map with buckets := final, bucketCount := 2 * old.bucketCount, writing := false }
        (.rehashed true) := by
  induction remaining : old.bucketCount - count generalizing map count fresh with
  | zero =>
      have ends : count = old.bucketCount := by omega
      subst ends
      have loads : resume hash map false (.rehashLoad old.bucketCount fresh) =
          some (map, .running (.rehashSwap fresh)) := by simp [resume, sameSize]
      have returns : Returns hash map (.running (.rehashLoad old.bucketCount fresh))
          { map with buckets := fresh, bucketCount := 2 * map.bucketCount, writing := false }
          (.rehashed true) := .step loads (.step rfl (.step rfl .done))
      exact ⟨fresh, rehashed, sameSize ▸ returns⟩
  | succ remaining ih =>
      have below : count < old.bucketCount := by omega
      have here := ahead count le_rfl
      cases filled : (old.table.slots count).isFilled with
      | false =>
          have state : (map.buckets count).state.state ≠ .filled := by
            rw [here]
            exact (idle count).unfilled filled
          have further (index : ℕ) (later : count + 1 ≤ index) :
              map.buckets index = old.buckets index := ahead index (by omega)
          obtain ⟨final, rest, returns⟩ :=
            ih sameSize further below (rehashed.pass filled) (by omega)
          have loads : resume hash map false (.rehashLoad count fresh) =
              some (map, .running (.rehashLoad (count + 1) fresh)) := by
            simp [resume, sameSize, below, state]
          exact ⟨final, rest, .step loads returns⟩
      | true =>
          obtain ⟨key, value, found⟩ := Slot.isFilled_iff.mp filled
          have holds := (idle count).holds found
          obtain ⟨moved, places, further⟩ := rehashed.move sized sound below holds
          let next := (map.setEntry count none).setState count ⟨0, .tombstone⟩
          have nextSize : next.bucketCount = old.bucketCount := sameSize
          have later (index : ℕ) (after : count + 1 ≤ index) :
              next.buckets index = old.buckets index := by
            have apart : index ≠ count := by omega
            rw [setState_of_ne apart]
            exact (Function.update_of_ne apart _ _).trans (ahead index (by omega))
          obtain ⟨final, rest, returns⟩ := ih nextSize later below further (by omega)
          have state : (map.buckets count).state = ⟨0, .filled⟩ :=
            (congrArg Bucket.state here).trans (congrArg Bucket.state holds)
          have stored : (map.buckets count).entry = some (key, value) :=
            (congrArg Bucket.entry here).trans (congrArg Bucket.entry holds)
          have loads : resume hash map false (.rehashLoad count fresh) =
              some (map, .running (.rehashWait count fresh)) := by
            simp [resume, sameSize, below, state]
          have waits : resume hash map false (.rehashWait count fresh) =
              some (map, .running (.rehashMove count fresh)) := by simp [resume, state]
          have moves : resume hash map false (.rehashMove count fresh) =
              some (next, .running (.rehashLoad (count + 1) moved)) := by
            simp [resume, stored, sameSize, places, next]
          exact ⟨final, rest, .step loads (.step waits (.step moves returns))⟩

end

end HashMap

end Asco.Concurrency
