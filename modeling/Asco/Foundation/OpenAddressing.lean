import Mathlib.Data.Finset.Card
import Mathlib.Data.Finset.Range
import Mathlib.Data.Finset.Basic
import Mathlib.Logic.Function.Basic

namespace Foundation

/-! # Tables with open addressing

A table of slots in which a key is looked for along its probe sequence, with
tombstones in the place of removed keys.  The probe sequence is a parameter: it
gives the slot to visit at each position.  `array` tells the vectors of slots
apart which a table has had, so that `(array, index)` is an address.
-/

namespace OpenAddressing

inductive Slot (K V : Type*) where
  | empty
  | tombstone
  | filled (key : K) (value : V)

structure Table (K V : Type*) where
  array : ℕ
  size : ℕ
  slots : ℕ → Slot K V
  load : ℕ

variable {K V : Type*}

def Slot.isEmpty : Slot K V → Bool
  | .empty => true
  | .tombstone | .filled _ _ => false

def Slot.isFilled : Slot K V → Bool
  | .filled _ _ => true
  | .empty | .tombstone => false

def Slot.value? : Slot K V → Option V
  | .filled _ value => some value
  | .empty | .tombstone => none

/-- The new value goes in the place of the old one. -/
def Slot.modify (change : V → V) : Slot K V → Slot K V
  | .filled key value => .filled key (change value)
  | .empty => .empty
  | .tombstone => .tombstone

theorem Slot.isFilled_iff {slot : Slot K V} :
    slot.isFilled = true ↔ ∃ key value, slot = .filled key value := by
  cases slot with
  | filled key value => simp [Slot.isFilled]
  | empty | tombstone => simp [Slot.isFilled]

/-- The slots that a search visits lie in the table, and all of them are visited. -/
structure Probes (probe : ℕ → K → ℕ → ℕ) (size : ℕ) : Prop where
  lt : ∀ key i, probe size key i < size
  covers : ∀ key, ∀ index < size, ∃ i < size, probe size key i = index

namespace Table

variable [DecidableEq K] (probe : ℕ → K → ℕ → ℕ)

/-- A search for the key ends at the slot. -/
def stops (slots : ℕ → Slot K V) (key : K) (index : ℕ) : Bool :=
  match slots index with
  | .empty => true
  | .tombstone => false
  | .filled held _ => held = key

/-- The slot of the key. -/
def locate (table : Table K V) (key : K) : Option ℕ :=
  ((List.range table.size).find? fun i => stops table.slots key (probe table.size key i)).bind
    fun i =>
      if (table.slots (probe table.size key i)).isFilled then some (probe table.size key i)
      else none

def get (table : Table K V) (key : K) : Option V :=
  (table.locate probe key).bind fun index => (table.slots index).value?

/-- Change the value of a key through a reference to it. -/
def modify (table : Table K V) (key : K) (change : V → V) : Table K V :=
  match table.locate probe key with
  | some index =>
      { table with
        slots := Function.update table.slots index ((table.slots index).modify change) }
  | none => table

/-- A new key goes to the first slot that is not filled. -/
def add (table : Table K V) (key : K) (value : V) : Table K V × Bool :=
  if (table.locate probe key).isSome then (table, false)
  else
    match (List.range table.size).find? fun i =>
        !(table.slots (probe table.size key i)).isFilled with
    | some i =>
        ({ table with
            slots := Function.update table.slots (probe table.size key i) (.filled key value)
            load := table.load + 1 },
          true)
    | none => (table, false)

def remove (table : Table K V) (key : K) : Table K V :=
  match table.locate probe key with
  | some index =>
      { table with
        slots := Function.update table.slots index .tombstone
        load := table.load - 1 }
  | none => table

omit [DecidableEq K] in
/-- A moved entry goes to the first empty slot. -/
def place (size : ℕ) (slots : ℕ → Slot K V) (key : K) (value : V) : ℕ → Slot K V :=
  match (List.range size).find? fun i => (slots (probe size key i)).isEmpty with
  | some i => Function.update slots (probe size key i) (.filled key value)
  | none => slots

omit [DecidableEq K] in
/-- The entry of an old slot is moved. -/
def carry (size : ℕ) (move : V → V) (fresh : ℕ → Slot K V) : Slot K V → ℕ → Slot K V
  | .filled key value => place probe size fresh key (move value)
  | .empty | .tombstone => fresh

omit [DecidableEq K] in
/-- The entries of the first slots, moved to a vector of the given size. -/
def carried (size : ℕ) (move : V → V) (slots : ℕ → Slot K V) : ℕ → ℕ → Slot K V
  | 0 => fun _ => .empty
  | count + 1 => carry probe size move (carried size move slots count) (slots count)

omit [DecidableEq K] in
def rehash (move : V → V) (table : Table K V) : Table K V where
  array := table.array + 1
  size := 2 * table.size
  slots := carried probe (2 * table.size) move table.slots table.size
  load := table.load

/-! ## What a table keeps to -/

omit [DecidableEq K] in
/-- A search for the key comes to the slot. -/
def Reached (size : ℕ) (slots : ℕ → Slot K V) (key : K) (index : ℕ) : Prop :=
  ∃ i < size, probe size key i = index ∧ ∀ j < i, (slots (probe size key j)).isEmpty = false

omit [DecidableEq K] in
/-- Every key is in one slot, and a search for it comes there. -/
structure Sound (size : ℕ) (slots : ℕ → Slot K V) : Prop where
  reached : ∀ index key value, slots index = .filled key value → Reached probe size slots key index
  single : ∀ first second key value other, slots first = .filled key value →
    slots second = .filled key other → first = second

variable {probe} {table : Table K V} {key : K} {value : V} {size index count : ℕ}
  {slots : ℕ → Slot K V}

omit [DecidableEq K] in
theorem Sound.inside (sound : Sound probe size slots) (probes : Probes probe size)
    (filled : slots index = .filled key value) : index < size := by
  obtain ⟨i, _, rfl, _⟩ := sound.reached index key value filled
  exact probes.lt key i

omit [DecidableEq K] in
theorem Sound.vacant (probe : ℕ → K → ℕ → ℕ) (size : ℕ) :
    Sound probe size fun _ => (.empty : Slot K V) where
  reached _ _ _ filled := by cases filled
  single _ _ _ _ _ filled := by cases filled

theorem stops_iff {index : ℕ} : stops slots key index = true ↔
    slots index = .empty ∨ ∃ value, slots index = .filled key value := by
  unfold stops
  cases found : slots index with
  | empty => simp
  | tombstone => simp
  | filled held value => simp

/-- The slots before the position are passed. -/
def Passes (probe : ℕ → K → ℕ → ℕ) (size : ℕ) (slots : ℕ → Slot K V) (key : K) (i : ℕ) : Prop :=
  i ≤ size ∧ ∀ j < i, stops slots key (probe size key j) = false

theorem Passes.pred {i : ℕ} (passes : Passes probe size slots key (i + 1)) :
    Passes probe size slots key i :=
  ⟨(Nat.le_succ i).trans passes.1, fun j earlier => passes.2 j (earlier.trans (Nat.lt_succ_self i))⟩

/-- Where a search for the key ends. -/
theorem locate_cases (probe : ℕ → K → ℕ → ℕ) (table : Table K V) (key : K) :
    ∃ i, Passes probe table.size table.slots key i ∧
      ((table.locate probe key = none ∧
          (i < table.size → table.slots (probe table.size key i) = .empty)) ∨
        ∃ value, i < table.size ∧ table.slots (probe table.size key i) = .filled key value ∧
          table.locate probe key = some (probe table.size key i)) := by
  cases found : (List.range table.size).find? fun i =>
      stops table.slots key (probe table.size key i) with
  | none =>
      refine ⟨table.size, ⟨le_rfl, fun j below => ?_⟩, .inl ⟨?_, fun inside => ?_⟩⟩
      · simpa using List.find?_eq_none.mp found j (List.mem_range.mpr below)
      · simp [locate, found]
      · exact absurd inside (lt_irrefl _)
  | some i =>
      obtain ⟨stopped, member, before⟩ := List.find?_range_eq_some.mp found
      have below := List.mem_range.mp member
      refine ⟨i, ⟨below.le, fun j earlier => by simpa using before j earlier⟩, ?_⟩
      rcases stops_iff.mp stopped with empty | ⟨value, filled⟩
      · exact .inl ⟨by simp [locate, found, empty, Slot.isFilled], fun _ => empty⟩
      · exact .inr ⟨value, below, filled, by simp [locate, found, filled, Slot.isFilled]⟩

theorem locate_filled (located : table.locate probe key = some index) :
    ∃ value, table.slots index = .filled key value := by
  obtain ⟨i, found, taken⟩ := Option.bind_eq_some_iff.mp located
  have stopped := (List.find?_range_eq_some.mp found).1
  split at taken
  · rename_i filled
    cases taken
    rw [stops_iff] at stopped
    refine stopped.resolve_left fun none => ?_
    rw [none] at filled
    cases filled
  · cases taken

/-- A search ends at the slot of the key. -/
theorem locate_of_filled (sound : Sound probe table.size table.slots)
    (filled : table.slots index = .filled key value) : table.locate probe key = some index := by
  obtain ⟨i, bound, visits, passed⟩ := sound.reached index key value filled
  have stops_here : stops table.slots key (probe table.size key i) = true := by
    rw [stops_iff, visits]
    exact .inr ⟨value, filled⟩
  cases found : (List.range table.size).find? fun i =>
      stops table.slots key (probe table.size key i) with
  | none =>
      have never := List.find?_eq_none.mp found i (List.mem_range.mpr bound)
      exact absurd stops_here never
  | some first =>
      obtain ⟨stopped, _, before⟩ := List.find?_range_eq_some.mp found
      have early : first ≤ i := by
        by_contra later
        have skipped := before i (by omega)
        rw [stops_here] at skipped
        cases skipped
      have held : ∃ other, table.slots (probe table.size key first) = .filled key other := by
        refine (stops_iff.mp stopped).resolve_left fun none => ?_
        rcases Nat.lt_or_eq_of_le early with earlier | same
        · have used := passed first earlier
          rw [none] at used
          cases used
        · rw [same, visits, filled] at none
          cases none
      obtain ⟨other, held⟩ := held
      have same := sound.single _ _ key other value held filled
      simp [locate, found, same, filled, Slot.isFilled]

theorem locate_iff (sound : Sound probe table.size table.slots) :
    table.locate probe key = some index ↔ ∃ value, table.slots index = .filled key value := by
  constructor
  · exact locate_filled
  · rintro ⟨value, filled⟩
    exact locate_of_filled sound filled

theorem get_iff (sound : Sound probe table.size table.slots) :
    table.get probe key = some value ↔ ∃ index, table.slots index = .filled key value := by
  constructor
  · intro got
    obtain ⟨index, located, read⟩ := Option.bind_eq_some_iff.mp got
    obtain ⟨held, filled⟩ := (locate_iff sound).mp located
    rw [filled] at read
    cases read
    exact ⟨index, filled⟩
  · rintro ⟨index, filled⟩
    have located := (locate_iff sound).mpr ⟨value, filled⟩
    simp [get, located, filled, Slot.value?]

theorem get_of_locate (located : table.locate probe key = some index) :
    ∃ value, table.slots index = .filled key value ∧ table.get probe key = some value := by
  obtain ⟨value, filled⟩ := locate_filled located
  exact ⟨value, filled, by simp [get, located, filled, Slot.value?]⟩

theorem get_eq_none (missing : table.locate probe key = none) : table.get probe key = none := by
  simp [get, missing]

/-! ## Writing one slot -/

section

omit [DecidableEq K]

/-- What a search has passed it passes again. -/
theorem Reached.write {slot : Slot K V} (reached : Reached probe size slots key index)
    (used : slot.isEmpty = false) (touched : ℕ) :
    Reached probe size (Function.update slots touched slot) key index := by
  obtain ⟨i, bound, visits, passed⟩ := reached
  refine ⟨i, bound, visits, fun j before => ?_⟩
  by_cases here : probe size key j = touched
  · rw [here, Function.update_self]
    exact used
  · rw [Function.update_of_ne here]
    exact passed j before

theorem Sound.fill (sound : Sound probe size slots) (reached : Reached probe size slots key index)
    (free : (slots index).isFilled = false) (absent : ∀ other held, slots other ≠ .filled key held)
    (value : V) : Sound probe size (Function.update slots index (.filled key value)) where
  reached := by
    intro other held stored filled
    by_cases here : other = index
    · subst here
      rw [Function.update_self] at filled
      cases filled
      exact reached.write rfl _
    · rw [Function.update_of_ne here] at filled
      exact (sound.reached other held stored filled).write rfl _
  single := by
    intro first second held stored other atFirst atSecond
    by_cases one : first = index
    · by_cases two : second = index
      · exact one.trans two.symm
      · rw [one, Function.update_self] at atFirst
        rw [Function.update_of_ne two] at atSecond
        cases atFirst
        exact absurd atSecond (absent second other)
    · rw [Function.update_of_ne one] at atFirst
      by_cases two : second = index
      · rw [two, Function.update_self] at atSecond
        cases atSecond
        exact absurd atFirst (absent first stored)
      · rw [Function.update_of_ne two] at atSecond
        exact sound.single first second held stored other atFirst atSecond

theorem Sound.bury (sound : Sound probe size slots) (index : ℕ) :
    Sound probe size (Function.update slots index .tombstone) := by
  have before {other : ℕ} {held : K} {stored : V}
      (filled : Function.update slots index .tombstone other = .filled held stored) :
      slots other = .filled held stored := by
    by_cases here : other = index
    · rw [here, Function.update_self] at filled
      cases filled
    · rwa [Function.update_of_ne here] at filled
  constructor
  · intro other held stored filled
    exact (sound.reached other held stored (before filled)).write rfl _
  · intro first second held stored other atFirst atSecond
    exact sound.single first second held stored other (before atFirst) (before atSecond)

theorem Sound.modify (sound : Sound probe size slots) (index : ℕ) (change : V → V) :
    Sound probe size (Function.update slots index ((slots index).modify change)) := by
  have same (other : ℕ) :
      (Function.update slots index ((slots index).modify change) other).isEmpty =
      (slots other).isEmpty := by
    by_cases here : other = index
    · subst here
      rw [Function.update_self]
      cases slots other <;> rfl
    · rw [Function.update_of_ne here]
  have before {other : ℕ} {held : K} {stored : V}
      (filled : Function.update slots index ((slots index).modify change) other =
        .filled held stored) : ∃ value, slots other = .filled held value := by
    by_cases here : other = index
    · subst here
      rw [Function.update_self] at filled
      cases found : slots other with
      | filled key value =>
          rw [found] at filled
          cases filled
          exact ⟨value, rfl⟩
      | empty | tombstone =>
          rw [found] at filled
          cases filled
    · rw [Function.update_of_ne here] at filled
      exact ⟨stored, filled⟩
  constructor
  · intro other held stored filled
    obtain ⟨value, filled⟩ := before filled
    obtain ⟨i, bound, visits, passed⟩ := sound.reached other held value filled
    exact ⟨i, bound, visits, fun j earlier => (same _).trans (passed j earlier)⟩
  · intro first second held stored other atFirst atSecond
    obtain ⟨one, atFirst⟩ := before atFirst
    obtain ⟨two, atSecond⟩ := before atSecond
    exact sound.single first second held one two atFirst atSecond

end

/-! ## A table is a finite map -/

theorem get_modify (sound : Sound probe table.size table.slots) (change : V → V) (other : K) :
    Sound probe (table.modify probe key change).size (table.modify probe key change).slots ∧
      (table.modify probe key change).get probe other =
        if other = key then (table.get probe key).map change else table.get probe other := by
  cases located : table.locate probe key with
  | none =>
      have kept : table.modify probe key change = table := by simp only [modify, located]
      rw [kept, get_eq_none located]
      refine ⟨sound, ?_⟩
      by_cases same : other = key
      · rw [if_pos same, same, get_eq_none located]
        rfl
      · rw [if_neg same]
  | some index =>
      have wrote : table.modify probe key change = { table with
          slots := Function.update table.slots index ((table.slots index).modify change) } := by
        simp only [modify, located]
      rw [wrote]
      obtain ⟨value, filled⟩ := locate_filled located
      have modified := sound.modify index change
      refine ⟨modified, Option.ext fun stored => ?_⟩
      rw [get_iff modified]
      dsimp only
      by_cases same : other = key
      · subst same
        rw [if_pos rfl, Option.map_eq_some_iff]
        constructor
        · rintro ⟨place, held⟩
          by_cases here : place = index
          · rw [here, Function.update_self, filled] at held
            cases held
            exact ⟨value, (get_iff sound).mpr ⟨index, filled⟩, rfl⟩
          · rw [Function.update_of_ne here] at held
            exact absurd (sound.single place index _ _ _ held filled) here
        · rintro ⟨old, got, rfl⟩
          obtain ⟨place, held⟩ := (get_iff sound).mp got
          have here := sound.single place index _ _ _ held filled
          rw [here, filled] at held
          cases held
          exact ⟨index, by rw [Function.update_self, filled]; rfl⟩
      · rw [if_neg same, get_iff sound]
        constructor
        · rintro ⟨place, held⟩
          by_cases here : place = index
          · rw [here, Function.update_self, filled] at held
            cases held
            exact absurd rfl same
          · rw [Function.update_of_ne here] at held
            exact ⟨place, held⟩
        · rintro ⟨place, held⟩
          have apart : place ≠ index := by
            rintro rfl
            rw [filled] at held
            cases held
            exact same rfl
          exact ⟨place, by rw [Function.update_of_ne apart]; exact held⟩

theorem get_remove (sound : Sound probe table.size table.slots) (other : K) :
    Sound probe (table.remove probe key).size (table.remove probe key).slots ∧
      (table.remove probe key).get probe other =
        if other = key then none else table.get probe other := by
  cases located : table.locate probe key with
  | none =>
      have kept : table.remove probe key = table := by simp only [remove, located]
      rw [kept]
      refine ⟨sound, ?_⟩
      by_cases same : other = key
      · rw [if_pos same, same, get_eq_none located]
      · rw [if_neg same]
  | some index =>
      have wrote : table.remove probe key = { table with
          slots := Function.update table.slots index .tombstone
          load := table.load - 1 } := by
        simp only [remove, located]
      rw [wrote]
      obtain ⟨value, filled⟩ := locate_filled located
      have buried := sound.bury index
      refine ⟨buried, Option.ext fun stored => ?_⟩
      rw [get_iff buried]
      dsimp only
      by_cases same : other = key
      · subst same
        rw [if_pos rfl]
        constructor
        · rintro ⟨place, held⟩
          by_cases here : place = index
          · rw [here, Function.update_self] at held
            cases held
          · rw [Function.update_of_ne here] at held
            exact absurd (sound.single place index _ _ _ held filled) here
        · intro none
          cases none
      · rw [if_neg same, get_iff sound]
        constructor
        · rintro ⟨place, held⟩
          by_cases here : place = index
          · rw [here, Function.update_self] at held
            cases held
          · rw [Function.update_of_ne here] at held
            exact ⟨place, held⟩
        · rintro ⟨place, held⟩
          have apart : place ≠ index := by
            rintro rfl
            rw [filled] at held
            cases held
            exact same rfl
          exact ⟨place, by rw [Function.update_of_ne apart]; exact held⟩

theorem locate_eq_none_iff (sound : Sound probe table.size table.slots) :
    table.locate probe key = none ↔ ∀ index value, table.slots index ≠ .filled key value := by
  constructor
  · intro missing index value filled
    rw [locate_of_filled sound filled] at missing
    cases missing
  · intro absent
    cases located : table.locate probe key with
    | none => rfl
    | some index =>
        obtain ⟨value, filled⟩ := locate_filled located
        exact absurd filled (absent index value)

omit [DecidableEq K] in
/-- The first slot that is not filled, if there is one before the position. -/
theorem filled_or_first (probe : ℕ → K → ℕ → ℕ) (size : ℕ) (slots : ℕ → Slot K V) (key : K)
    (n : ℕ) :
    (∀ j < n, (slots (probe size key j)).isFilled = true) ∨
      ∃ i < n, (slots (probe size key i)).isFilled = false ∧
        ∀ j < i, (slots (probe size key j)).isFilled = true := by
  induction n with
  | zero => exact .inl fun j below => absurd below (Nat.not_lt_zero j)
  | succ n ih =>
      rcases ih with filled | ⟨i, below, free, before⟩
      · cases last : (slots (probe size key n)).isFilled with
        | true =>
            refine .inl fun j below => ?_
            rcases Nat.lt_succ_iff_lt_or_eq.mp below with earlier | rfl
            · exact filled j earlier
            · exact last
        | false => exact .inr ⟨n, Nat.lt_succ_self n, last, filled⟩
      · exact .inr ⟨i, below.trans (Nat.lt_succ_self n), free, before⟩

omit [DecidableEq K] in
/-- A search for a key comes to a slot that is not filled. -/
theorem exists_first (probes : Probes probe size) (key : K)
    (room : ∃ index < size, (slots index).isFilled = false) :
    ∃ i < size, (slots (probe size key i)).isFilled = false ∧
      ∀ j < i, (slots (probe size key j)).isFilled = true := by
  obtain ⟨index, inside, free⟩ := room
  obtain ⟨i, below, visits⟩ := probes.covers key index inside
  refine (filled_or_first probe size slots key size).resolve_left fun filled => ?_
  have contrary := filled i below
  rw [visits, free] at contrary
  contradiction

theorem add_of_first {i : ℕ} (missing : table.locate probe key = none) (below : i < table.size)
    (free : (table.slots (probe table.size key i)).isFilled = false)
    (before : ∀ j < i, (table.slots (probe table.size key j)).isFilled = true) (value : V) :
    table.add probe key value =
      ({ table with
          slots := Function.update table.slots (probe table.size key i) (.filled key value)
          load := table.load + 1 },
        true) := by
  have found : ((List.range table.size).find? fun i =>
      !(table.slots (probe table.size key i)).isFilled) = some i :=
    List.find?_range_eq_some.mpr
      ⟨by simp [free], List.mem_range.mpr below, fun j earlier => by simp [before j earlier]⟩
  simp only [add, missing, Option.isSome_none, Bool.false_eq_true, if_false, found]

/-- What an addition does: it leaves the table, or a new key is in a slot that
was not filled. -/
theorem add_cases (table : Table K V) (key : K) (value : V) :
    table.add probe key value = (table, false) ∨
      ∃ index, (table.add probe key value).2 = true ∧
        (table.add probe key value).1.array = table.array ∧
        (table.add probe key value).1.size = table.size ∧
        (table.add probe key value).1.slots =
          Function.update table.slots index (.filled key value) ∧
        (table.slots index).isFilled = false ∧ Reached probe table.size table.slots key index ∧
        table.locate probe key = none := by
  unfold add
  split
  · exact .inl rfl
  · rename_i missing
    split
    · rename_i i found
      right
      obtain ⟨free, bound, before⟩ := List.find?_range_eq_some.mp found
      refine ⟨_, rfl, rfl, rfl, rfl, by simpa using free, ⟨i, List.mem_range.mp bound, rfl, ?_⟩, ?_⟩
      · intro j earlier
        have filled := before j earlier
        simp only [Bool.not_not] at filled
        obtain ⟨held, stored, is⟩ := Slot.isFilled_iff.mp filled
        rw [is]
        rfl
      · simpa using missing
    · exact .inl rfl

theorem get_add (sound : Sound probe table.size table.slots) (key other : K) (value : V) :
    Sound probe (table.add probe key value).1.size (table.add probe key value).1.slots ∧
      (table.add probe key value).1.get probe other =
        if (table.add probe key value).2 = true ∧ other = key then some value
        else table.get probe other := by
  rcases add_cases table key value with kept | added
  · rw [kept]
    exact ⟨sound, by simp⟩
  · obtain ⟨index, done, _, sized, wrote, free, reached, missing⟩ := added
    have absent := (locate_eq_none_iff sound).mp missing
    have filled := sound.fill reached free absent value
    rw [← sized, ← wrote] at filled
    refine ⟨filled, Option.ext fun stored => ?_⟩
    rw [get_iff filled, wrote, done]
    by_cases same : other = key
    · subst same
      rw [if_pos ⟨rfl, rfl⟩]
      constructor
      · rintro ⟨place, held⟩
        by_cases here : place = index
        · rw [here, Function.update_self] at held
          cases held
          rfl
        · rw [Function.update_of_ne here] at held
          exact absurd held (absent place stored)
      · rintro ⟨⟩
        exact ⟨index, Function.update_self _ _ _⟩
    · rw [if_neg fun both => same both.2, get_iff sound]
      constructor
      · rintro ⟨place, held⟩
        by_cases here : place = index
        · rw [here, Function.update_self] at held
          cases held
          exact absurd rfl same
        · rw [Function.update_of_ne here] at held
          exact ⟨place, held⟩
      · rintro ⟨place, held⟩
        have apart : place ≠ index := by
          rintro rfl
          rw [held] at free
          cases free
        exact ⟨place, by rw [Function.update_of_ne apart]; exact held⟩

/-! ## Moving the entries to a larger vector -/

section

omit [DecidableEq K]

/-- The slots in use. -/
def used (size : ℕ) (slots : ℕ → Slot K V) : Finset ℕ :=
  (Finset.range size).filter fun index => (slots index).isEmpty = false

/-- What the vector holds after the first slots have been moved to it. -/
structure Carried (probe : ℕ → K → ℕ → ℕ) (size : ℕ) (move : V → V) (slots fresh : ℕ → Slot K V)
    (count : ℕ) : Prop where
  sound : Sound probe size fresh
  entries : ∀ key value, (∃ index, fresh index = .filled key value) ↔
    ∃ old < count, ∃ held, slots old = .filled key held ∧ value = move held
  few : (used size fresh).card ≤ count

theorem exists_place (probes : Probes probe size) (room : (used size slots).card < size) (key : K)
    (value : V) : ∃ index < size, (slots index).isEmpty = true ∧
      Reached probe size slots key index ∧
        place probe size slots key value = Function.update slots index (.filled key value) := by
  obtain ⟨index, bound, empty⟩ : ∃ index < size, (slots index).isEmpty = true := by
    by_contra full
    have all : used size slots = Finset.range size := by
      refine Finset.filter_true_of_mem fun index member => ?_
      by_contra empty
      exact full ⟨index, Finset.mem_range.mp member, by simpa using empty⟩
    rw [all, Finset.card_range] at room
    exact Nat.lt_irrefl _ room
  obtain ⟨i, within, visits⟩ := probes.covers key index bound
  cases found : (List.range size).find? fun i => (slots (probe size key i)).isEmpty with
  | none =>
      have never := List.find?_eq_none.mp found i (List.mem_range.mpr within)
      rw [visits] at never
      exact absurd empty never
  | some first =>
      obtain ⟨free, inside, before⟩ := List.find?_range_eq_some.mp found
      refine ⟨probe size key first, probes.lt key first, free,
        ⟨first, List.mem_range.mp inside, rfl,
          fun j earlier => by simpa using before j earlier⟩, ?_⟩
      simp only [place, found]

theorem Carried.succ {move : V → V} {fresh : ℕ → Slot K V} {old : ℕ}
    (carried : Carried probe size move slots fresh count) (sound : Sound probe old slots)
    (probes : Probes probe size) (room : count < size) :
    Carried probe size move slots (carry probe size move fresh (slots count)) (count + 1) := by
  cases found : slots count with
  | empty | tombstone =>
      refine ⟨carried.sound, fun key value => ?_, carried.few.trans (Nat.le_succ _)⟩
      rw [carry, carried.entries]
      constructor
      · rintro ⟨index, before, held, filled, rfl⟩
        exact ⟨index, by omega, held, filled, rfl⟩
      · rintro ⟨index, before, held, filled, rfl⟩
        refine ⟨index, ?_, held, filled, rfl⟩
        have apart : index ≠ count := by
          rintro rfl
          rw [found] at filled
          cases filled
        omega
  | filled key value =>
      obtain ⟨index, bound, empty, reached, placed⟩ :=
        exists_place probes (carried.few.trans_lt room) key (move value)
      have absent (other : ℕ) (held : V) : fresh other ≠ .filled key held := by
        intro filled
        obtain ⟨earlier, before, stored, was, _⟩ :=
          (carried.entries key held).mp ⟨other, filled⟩
        have same := sound.single earlier count key stored value was found
        omega
      have free : (fresh index).isFilled = false := by
        cases slot : fresh index with
        | filled key value =>
            rw [slot] at empty
            cases empty
        | empty | tombstone => rfl
      rw [carry, placed]
      refine ⟨carried.sound.fill reached free absent _, fun other stored => ?_, ?_⟩
      · constructor
        · rintro ⟨place, filled⟩
          by_cases here : place = index
          · rw [here, Function.update_self] at filled
            cases filled
            exact ⟨count, Nat.lt_succ_self _, value, found, rfl⟩
          · rw [Function.update_of_ne here] at filled
            obtain ⟨earlier, before, held, was, is⟩ :=
              (carried.entries other stored).mp ⟨place, filled⟩
            exact ⟨earlier, by omega, held, was, is⟩
        · rintro ⟨earlier, before, held, was, rfl⟩
          rcases Nat.lt_succ_iff_lt_or_eq.mp before with strictly | rfl
          · obtain ⟨place, filled⟩ :=
              (carried.entries other (move held)).mpr ⟨earlier, strictly, held, was, rfl⟩
            refine ⟨place, ?_⟩
            rw [Function.update_of_ne]
            · exact filled
            · rintro rfl
              rw [filled] at free
              cases free
          · rw [found] at was
            cases was
            exact ⟨index, Function.update_self _ _ _⟩
      · have grown : used size (Function.update fresh index (.filled key (move value))) ⊆
            insert index (used size fresh) := by
          intro place member
          obtain ⟨inside, busy⟩ := Finset.mem_filter.mp member
          by_cases here : place = index
          · exact Finset.mem_insert.mpr (.inl here)
          · rw [Function.update_of_ne here] at busy
            exact Finset.mem_insert_of_mem (Finset.mem_filter.mpr ⟨inside, busy⟩)
        calc (used size _).card ≤ (insert index (used size fresh)).card := Finset.card_le_card grown
          _ ≤ (used size fresh).card + 1 := Finset.card_insert_le _ _
          _ ≤ count + 1 := Nat.add_le_add_right carried.few 1

theorem carried_carried {old : ℕ} (sound : Sound probe old slots) (probes : Probes probe size)
    (move : V → V) (room : count ≤ size) :
    Carried probe size move slots (carried probe size move slots count) count := by
  induction count with
  | zero =>
      refine ⟨.vacant probe size, ?_, ?_⟩
      · intro key value
        constructor
        · rintro ⟨index, filled⟩
          cases filled
        · rintro ⟨index, before, _⟩
          cases before
      · rw [Nat.le_zero, Finset.card_eq_zero]
        exact Finset.filter_false_of_mem fun index _ => by simp [carried, Slot.isEmpty]
  | succ count ih => exact (ih (by omega)).succ sound probes (by omega)

end

/-- A rehash keeps the keys and moves the values. -/
theorem get_rehash (sound : Sound probe table.size table.slots)
    (probes : Probes probe table.size) (doubled : Probes probe (2 * table.size)) (move : V → V)
    (other : K) :
    Sound probe (table.rehash probe move).size (table.rehash probe move).slots ∧
      (table.rehash probe move).get probe other = (table.get probe other).map move := by
  have moved := carried_carried sound doubled move (by omega : table.size ≤ 2 * table.size)
  refine ⟨moved.sound, Option.ext fun stored => ?_⟩
  have found : (table.rehash probe move).get probe other = some stored ↔
      ∃ index, (table.rehash probe move).slots index = .filled other stored := get_iff moved.sound
  rw [found, Option.map_eq_some_iff]
  refine (moved.entries other stored).trans ?_
  constructor
  · rintro ⟨index, _, held, filled, rfl⟩
    exact ⟨held, (get_iff sound).mpr ⟨index, filled⟩, rfl⟩
  · rintro ⟨held, got, rfl⟩
    obtain ⟨index, filled⟩ := (get_iff sound).mp got
    exact ⟨index, sound.inside probes filled, held, filled, rfl⟩

end Table

end OpenAddressing

end Foundation
