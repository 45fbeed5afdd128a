import Asco.Concurrency.RingQueue

namespace Asco.Concurrency.RingQueue

open Foundation

/-! # Where `storage` keeps an index

`slots` and `slot_states` are arrays of packs, and consecutive indices lie in
different packs.  The arithmetic is that of `std::size_t`.
-/

/-- A pack and a place in that pack. -/
abbrev Place := UInt64 × UInt64

namespace Layout

variable (cacheline sizeof Cap : UInt64)

def size : UInt64 := Cap + 1

/-- `sizeof` is `sizeof(util::raw_storage<T>)`. -/
def cacheLineCap : UInt64 := cacheline / sizeof

def slotPackCap : UInt64 :=
  if cacheLineCap cacheline sizeof ≠ 0 then cacheLineCap cacheline sizeof else 1

/-- The number of packs of `packCap` places that hold `size` indices. -/
def packs (size packCap : UInt64) : UInt64 := (size + packCap - 1) / packCap

def bufferCap : UInt64 := packs (size Cap) (slotPackCap cacheline sizeof)

def slotStatesCap : UInt64 := packs (size Cap) cacheline

/-- The place of an index among `count` packs; with no pack at all the remainder
is undefined in the source, and its value here is no pack. -/
def place (count index : UInt64) : Place := (index % count, index / count)

/-- `at`; an object longer than a cache line has a pack of its own. -/
def slotAt (index : UInt64) : Place :=
  if cacheLineCap cacheline sizeof = 0 then (index, 0)
  else place (bufferCap cacheline sizeof Cap) index

def stateAt (index : UInt64) : Place := place (slotStatesCap cacheline Cap) index

end Layout

open Layout

/-- The indices below `size` have places of their own in `count` packs of `packCap`. -/
structure Separates (where_ : UInt64 → Place) (size count packCap : UInt64) : Prop where
  inRange : ∀ index < size, (where_ index).1 < count ∧ (where_ index).2 < packCap
  distinct : ∀ index < size, ∀ other < size, where_ index = where_ other → index = other

/-- `at` and `state_at` map the indices below `size` to different places of
`slots` and `slot_states`. -/
def LaidOut (cacheline sizeof Cap : UInt64) : Prop :=
  Separates (slotAt cacheline sizeof Cap) (size Cap) (bufferCap cacheline sizeof Cap)
      (slotPackCap cacheline sizeof) ∧
    Separates (stateAt cacheline Cap) (size Cap) (slotStatesCap cacheline Cap) cacheline

variable {cacheline sizeof Cap length packCap : UInt64}

theorem size_toNat (admitted : Cap ≠ .ofNat (2 ^ 64 - 1)) :
    (size Cap).toNat = Cap.toNat + 1 := by
  have bounded := Cap.toNat_lt
  have different : Cap.toNat ≠ 2 ^ 64 - 1 := by
    intro same
    exact admitted (UInt64.toNat_inj.mp same)
  rw [size, UInt64.toNat_add]
  exact Nat.mod_eq_of_lt (by simp only [UInt64.toNat_one]; omega)

theorem packs_toNat (positive : 0 < packCap) :
    (packs length packCap).toNat =
      (length.toNat + packCap.toNat - 1) % 2 ^ 64 / packCap.toNat := by
  have positiveNat : 0 < packCap.toNat := UInt64.lt_iff_toNat_lt.mp positive
  have lengthBounded := length.toNat_lt
  have capBounded := packCap.toNat_lt
  rw [packs, UInt64.toNat_div, UInt64.toNat_sub, UInt64.toNat_add, UInt64.toNat_one]
  congr 1
  omega

/-- Without overflow the packs have room for all indices. -/
theorem separates_place (positive : 0 < packCap)
    (fits : length.toNat + packCap.toNat ≤ 2 ^ 64) :
    Separates (place (packs length packCap)) length (packs length packCap) packCap := by
  have positiveNat : 0 < packCap.toNat := UInt64.lt_iff_toNat_lt.mp positive
  have count : (packs length packCap).toNat = _ := packs_toNat positive
  rw [Nat.mod_eq_of_lt (by omega)] at count
  have enough : length.toNat ≤ (packs length packCap).toNat * packCap.toNat := by
    have remainder := Nat.div_add_mod (length.toNat + packCap.toNat - 1) packCap.toNat
    have small := Nat.mod_lt (length.toNat + packCap.toNat - 1) positiveNat
    rw [count, Nat.mul_comm]
    omega
  constructor
  · intro index below
    have belowNat := UInt64.lt_iff_toNat_lt.mp below
    have some : 0 < (packs length packCap).toNat := by
      by_contra none
      have zero : (packs length packCap).toNat = 0 := by omega
      rw [zero, Nat.zero_mul] at enough
      omega
    constructor
    · rw [UInt64.lt_iff_toNat_lt, place, UInt64.toNat_mod]
      exact Nat.mod_lt _ some
    · rw [UInt64.lt_iff_toNat_lt, place, UInt64.toNat_div]
      exact Nat.div_lt_of_lt_mul (by omega)
  · intro index _ other _ same
    simp only [place, Prod.mk.injEq] at same
    have remainders := congrArg UInt64.toNat same.1
    have quotients := congrArg UInt64.toNat same.2
    rw [UInt64.toNat_mod, UInt64.toNat_mod] at remainders
    rw [UInt64.toNat_div, UInt64.toNat_div] at quotients
    apply UInt64.toNat_inj.mp
    calc index.toNat = (packs length packCap).toNat * (index.toNat / (packs length packCap).toNat) +
          index.toNat % (packs length packCap).toNat := (Nat.div_add_mod _ _).symm
      _ = (packs length packCap).toNat * (other.toNat / (packs length packCap).toNat) +
          other.toNat % (packs length packCap).toNat := by rw [quotients, remainders]
      _ = other.toNat := Nat.div_add_mod _ _

theorem packs_one : packs length 1 = length := by
  apply UInt64.toNat_inj.mp
  rw [packs, UInt64.add_sub_cancel, UInt64.toNat_div, UInt64.toNat_one, Nat.div_one]

theorem separates_slotAt
    (fits : (size Cap).toNat + cacheline.toNat ≤ 2 ^ 64) :
    Separates (slotAt cacheline sizeof Cap) (size Cap) (bufferCap cacheline sizeof Cap)
      (slotPackCap cacheline sizeof) := by
  by_cases long : cacheLineCap cacheline sizeof = 0
  · have single : slotPackCap cacheline sizeof = 1 := by simp [slotPackCap, long]
    have own : bufferCap cacheline sizeof Cap = size Cap := by
      rw [bufferCap, single, packs_one]
    have same (index : UInt64) : slotAt cacheline sizeof Cap index = (index, 0) := by
      simp [slotAt, long]
    constructor
    · intro index below
      rw [same, single, own]
      exact ⟨below, by simp⟩
    · intro index _ other _ equal
      rw [same, same] at equal
      exact congrArg Prod.fst equal
  · have several : slotPackCap cacheline sizeof = cacheLineCap cacheline sizeof := by
      simp [slotPackCap, long]
    have positiveCap : 0 < slotPackCap cacheline sizeof := by
      rw [several]
      exact UInt64.pos_iff_ne_zero.mpr long
    have below : (slotPackCap cacheline sizeof).toNat ≤ cacheline.toNat := by
      rw [several, cacheLineCap, UInt64.toNat_div]
      exact Nat.div_le_self _ _
    have transposed : slotAt cacheline sizeof Cap = place (bufferCap cacheline sizeof Cap) := by
      funext index
      simp [slotAt, long]
    rw [transposed]
    exact separates_place positiveCap (by omega)

/-- The layout is right exactly when the round-up of `slot_states_cap` does not
overflow. -/
theorem laidOut_iff_fits (positive : 0 < cacheline)
    (admitted : Cap ≠ .ofNat (2 ^ 64 - 1)) :
    LaidOut cacheline sizeof Cap ↔ Cap.toNat + cacheline.toNat < 2 ^ 64 := by
  have length := size_toNat admitted
  constructor
  · intro laidOut
    by_contra overflows
    have first := laidOut.2.inRange 0 (UInt64.lt_iff_toNat_lt.mpr (by rw [length]; simp))
    have bounded := Cap.toNat_lt
    have lineBounded := cacheline.toNat_lt
    have below : (size Cap).toNat < 2 ^ 64 := (size Cap).toNat_lt
    have none : (slotStatesCap cacheline Cap).toNat = 0 := by
      rw [slotStatesCap, packs_toNat positive, length]
      apply Nat.div_eq_of_lt
      omega
    have inside := UInt64.lt_iff_toNat_lt.mp first.1
    rw [none] at inside
    exact absurd inside (Nat.not_lt_zero _)
  · intro fits
    exact ⟨separates_slotAt (by omega), separates_place positive (by omega)⟩

/-! ## The storage behind the layout -/

/-- `slots` and `slot_states`. -/
structure Arrays (α : Type*) where
  states : Place → SlotState
  slots : Place → Option α

namespace Arrays

variable {α : Type*} (cacheline sizeof Cap)

/-- What `at` and `state_at` show of the arrays. -/
def view (arrays : Arrays α) (head tail : Fin (Cap.toNat + 1)) : Storage α Cap.toNat where
  head := head
  tail := tail
  states index := arrays.states (stateAt cacheline Cap (.ofNat index))
  slots index := arrays.slots (slotAt cacheline sizeof Cap (.ofNat index))

variable {cacheline sizeof Cap} {arrays : Arrays α} {head tail index : Fin (Cap.toNat + 1)}

theorem view_update {β : Type*} {where_ : UInt64 → Place} {count packCap : UInt64}
    (admitted : Cap ≠ .ofNat (2 ^ 64 - 1))
    (separates : Separates where_ (size Cap) count packCap) (contents : Place → β)
    (index : Fin (Cap.toNat + 1)) (entry : β) :
    (fun other : Fin (Cap.toNat + 1) =>
        Function.update contents (where_ (.ofNat index)) entry (where_ (.ofNat other))) =
      Function.update (fun other : Fin (Cap.toNat + 1) => contents (where_ (.ofNat other))) index
        entry := by
  have length := size_toNat admitted
  have fits (other : Fin (Cap.toNat + 1)) : (UInt64.ofNat other).toNat = other.val := by
    have below := other.isLt
    have bounded := (size Cap).toNat_lt
    exact UInt64.toNat_ofNat_of_lt' (by rw [UInt64.size]; omega)
  have below (other : Fin (Cap.toNat + 1)) : UInt64.ofNat other < size Cap := by
    rw [UInt64.lt_iff_toNat_lt, fits, length]
    exact other.isLt
  funext other
  by_cases same : other = index
  · subst same
    simp
  · have apart : where_ (.ofNat other) ≠ where_ (.ofNat index) := by
      intro equal
      have indices := separates.distinct _ (below other) _ (below index) equal
      apply same
      rw [← Fin.val_inj, ← fits other, ← fits index, indices]
    rw [Function.update_of_ne apart, Function.update_of_ne same]

/-- A store to `state_at(index)` changes the state of that index alone. -/
theorem view_setState (admitted : Cap ≠ .ofNat (2 ^ 64 - 1))
    (laidOut : LaidOut cacheline sizeof Cap) (state : SlotState) :
    view cacheline sizeof Cap
        { arrays with
          states := Function.update arrays.states (stateAt cacheline Cap (.ofNat index)) state }
        head tail =
      (view cacheline sizeof Cap arrays head tail).setState index state := by
  have updated := view_update admitted laidOut.2 arrays.states index state
  simp only [view, Storage.setState, updated]

/-- Constructing or destroying the object of `at(index)` changes that slot alone. -/
theorem view_setSlot (admitted : Cap ≠ .ofNat (2 ^ 64 - 1))
    (laidOut : LaidOut cacheline sizeof Cap) (value : Option α) :
    view cacheline sizeof Cap
        { arrays with
          slots := Function.update arrays.slots (slotAt cacheline sizeof Cap (.ofNat index)) value }
        head tail =
      (view cacheline sizeof Cap arrays head tail).setSlot index value := by
  have updated := view_update admitted laidOut.1 arrays.slots index value
  simp only [view, Storage.setSlot, updated]

end Arrays

end Asco.Concurrency.RingQueue
