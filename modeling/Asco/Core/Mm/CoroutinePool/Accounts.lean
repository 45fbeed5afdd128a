import Asco.Core.Mm.CoroutinePool
import Mathlib.Algebra.BigOperators.Group.Finset.Basic
import Mathlib.Algebra.Order.BigOperators.Group.Finset

namespace Asco.Core.Mm

open Foundation

/-! # The account of the objects carved from the blocks

`allocating_index` of a block is what has been carved from it: what was given back to it and
the objects that still circulate.
-/

/-- The objects that were carved and not given back to their blocks. -/
structure Ledger where
  held : Finset ℕ
  units : ℕ → ℕ
  home : ℕ → ℕ

namespace Ledger

/-- The units of a block that circulate. -/
def outstanding (ledger : Ledger) (base : ℕ) : ℕ :=
  ∑ address ∈ ledger.held.filter fun address => ledger.home address = base, ledger.units address

def carve (ledger : Ledger) (address units base : ℕ) : Ledger where
  held := insert address ledger.held
  units := Function.update ledger.units address units
  home := Function.update ledger.home address base

def drop (ledger : Ledger) (address : ℕ) : Ledger :=
  { ledger with held := ledger.held.erase address }

variable {ledger : Ledger} {address units base other : ℕ}

theorem carve_units_self : (ledger.carve address units base).units address = units :=
  Function.update_self ..

theorem carve_home_self : (ledger.carve address units base).home address = base :=
  Function.update_self ..

theorem carve_units_of_ne (different : other ≠ address) :
    (ledger.carve address units base).units other = ledger.units other :=
  Function.update_of_ne different ..

theorem carve_home_of_ne (different : other ≠ address) :
    (ledger.carve address units base).home other = ledger.home other :=
  Function.update_of_ne different ..

theorem outstanding_carve (fresh : address ∉ ledger.held) :
    (ledger.carve address units base).outstanding other =
      ledger.outstanding other + if base = other then units else 0 := by
  have olds : ∑ old ∈ ledger.held.filter fun old =>
        (ledger.carve address units base).home old = other,
      (ledger.carve address units base).units old = ledger.outstanding other := by
    apply Finset.sum_congr
    · apply Finset.filter_congr
      intro old member
      have different : old ≠ address := fun same => fresh (same ▸ member)
      rw [carve_home_of_ne different]
    · intro old member
      have different : old ≠ address := fun same => fresh (same ▸ (Finset.mem_filter.mp member).1)
      rw [carve_units_of_ne different]
  have unlisted : address ∉ ledger.held.filter fun old =>
      (ledger.carve address units base).home old = other :=
    fun member => fresh (Finset.mem_filter.mp member).1
  have members : (ledger.carve address units base).held = insert address ledger.held := rfl
  rw [outstanding, members, Finset.filter_insert, carve_home_self]
  by_cases same : base = other
  · rw [if_pos same, if_pos same, Finset.sum_insert unlisted, olds, carve_units_self, Nat.add_comm]
  · rw [if_neg same, if_neg same, olds, Nat.add_zero]

theorem outstanding_drop (member : address ∈ ledger.held) :
    ledger.outstanding other =
      (ledger.drop address).outstanding other +
        if ledger.home address = other then ledger.units address else 0 := by
  have rest : (ledger.drop address).held.filter (fun old => ledger.home old = other) =
      (ledger.held.filter fun old => ledger.home old = other).erase address :=
    Finset.filter_erase ..
  have dropped : (ledger.drop address).outstanding other =
      ∑ old ∈ (ledger.held.filter fun old => ledger.home old = other).erase address,
        ledger.units old := Finset.sum_congr rest fun _ _ => rfl
  rw [dropped, outstanding]
  by_cases same : ledger.home address = other
  · rw [if_pos same, Nat.add_comm]
    exact (Finset.add_sum_erase _ _ (Finset.mem_filter.mpr ⟨member, same⟩)).symm
  · have absent : address ∉ ledger.held.filter fun old => ledger.home old = other :=
      fun listed => same (Finset.mem_filter.mp listed).2
    rw [if_neg same, Nat.add_zero, Finset.erase_eq_of_notMem absent]

theorem units_le_outstanding (member : address ∈ ledger.held) :
    ledger.units address ≤ ledger.outstanding (ledger.home address) := by
  rw [outstanding_drop member, if_pos rfl]
  exact Nat.le_add_left ..

theorem ne_home_of_outstanding (member : address ∈ ledger.held)
    (positive : 1 ≤ ledger.units address) (none : ledger.outstanding base = 0) :
    ledger.home address ≠ base := by
  intro same
  subst same
  have counted := units_le_outstanding member
  omega

end Ledger

/-- The words of an object. -/
def Within (word address units : ℕ) : Prop := address ≤ word ∧ word + 8 ≤ address + 64 * units

namespace Heap

theorem lastWord_add (address : ℕ) {units : ℕ} (positive : 1 ≤ units) :
    lastWord address units + 8 = address + 64 * units := by
  rw [lastWord]
  omega

theorem within_lastWord (address : ℕ) {units : ℕ} (positive : 1 ≤ units) :
    Within (lastWord address units) address units := by
  have last := lastWord_add address positive
  exact ⟨by omega, last.le⟩

variable (heap : Heap)

structure Accounts (ledger : Ledger) : Prop where
  apart : ∀ base ∈ heap.granted, ∀ other ∈ heap.granted, base ≠ other →
    Apart base (heap.extent base) other (heap.extent other)
  measured : ∀ base ∈ heap.granted,
    heap.extent base = 64 * ((heap.blocks base).unitCount.toNat + 1) ∧
      (heap.blocks base).unitCount.toNat + 63 < 2 ^ 64
  bumped : ∀ base ∈ heap.granted,
    (heap.blocks base).allocatingIndex.toNat ≤ (heap.blocks base).unitCount.toNat
  balanced : ∀ base ∈ heap.granted,
    (heap.blocks base).gavebackUnitCount.toNat + ledger.outstanding base =
      (heap.blocks base).allocatingIndex.toNat
  housed : ∀ address ∈ ledger.held, ledger.home address ∈ heap.granted
  carved : ∀ address ∈ ledger.held, ledger.home address + 64 ≤ address ∧
    address + 64 * ledger.units address ≤
      unit (ledger.home address) (heap.blocks (ledger.home address)).allocatingIndex.toNat
  sized : ∀ address ∈ ledger.held, 1 ≤ ledger.units address
  separate : ∀ address ∈ ledger.held, ∀ other ∈ ledger.held, address ≠ other →
    Apart address (64 * ledger.units address) other (64 * ledger.units other)
  stamped : ∀ address ∈ ledger.held,
    heap.memory (lastWord address (ledger.units address)) = ledger.home address

namespace Accounts

variable {heap : Heap} {ledger : Ledger} {address other base value word : ℕ} {n : UInt64}

/-- An object reaches up to the end of its block at most. -/
theorem within_block (accounts : heap.Accounts ledger) (member : address ∈ ledger.held) :
    ledger.home address + 64 ≤ address ∧ address + 64 * ledger.units address ≤
      ledger.home address + heap.extent (ledger.home address) := by
  have housed := accounts.housed address member
  obtain ⟨lower, upper⟩ := accounts.carved address member
  have bumped := accounts.bumped _ housed
  obtain ⟨measured, -⟩ := accounts.measured _ housed
  rw [unit] at upper
  omega

theorem apart_block (accounts : heap.Accounts ledger) (member : address ∈ ledger.held)
    (granted : base ∈ heap.granted) (elsewhere : ledger.home address ≠ base) :
    Apart address (64 * ledger.units address) base (heap.extent base) := by
  have blocks := accounts.apart base granted _ (accounts.housed address member) elsewhere.symm
  obtain ⟨lower, upper⟩ := accounts.within_block member
  exact (blocks.within (by omega) upper).symm

theorem word_ne (accounts : heap.Accounts ledger) (member : address ∈ ledger.held)
    (otherMember : other ∈ ledger.held) (different : address ≠ other)
    (within : Within word address (ledger.units address)) {read : ℕ}
    (reading : Within read other (ledger.units other)) : read ≠ word := by
  have separate := accounts.separate address member other otherMember different
  obtain ⟨lower, upper⟩ := within
  obtain ⟨readLower, readUpper⟩ := reading
  rcases separate with before | after <;> omega

/-- Only the last words of the objects, the headers and the grants are accounted for. -/
theorem of_reads (accounts : heap.Accounts ledger) {memory : Memory} {returned : List ℕ}
    (reads : ∀ address ∈ ledger.held, memory (lastWord address (ledger.units address)) =
      heap.memory (lastWord address (ledger.units address))) :
    Accounts { heap with memory, returned } ledger where
  apart := accounts.apart
  measured := accounts.measured
  bumped := accounts.bumped
  balanced := accounts.balanced
  housed := accounts.housed
  carved := accounts.carved
  sized := accounts.sized
  separate := accounts.separate
  stamped := by
    intro address member
    exact (reads address member).trans (accounts.stamped address member)

theorem of_links (accounts : heap.Accounts ledger) (links : Links ℕ) :
    Accounts { heap with links } ledger where
  apart := accounts.apart
  measured := accounts.measured
  bumped := accounts.bumped
  balanced := accounts.balanced
  housed := accounts.housed
  carved := accounts.carved
  sized := accounts.sized
  separate := accounts.separate
  stamped := accounts.stamped

theorem store (accounts : heap.Accounts ledger)
    (spared : ∀ address ∈ ledger.held, lastWord address (ledger.units address) ≠ word) :
    (heap.store word value).Accounts ledger := by
  apply accounts.of_reads
  intro address member
  exact Function.update_of_ne (spared address member) ..

/-- The first two words of an object are its own. -/
theorem node_words (accounts : heap.Accounts ledger) (member : address ∈ ledger.held) :
    Within address address (ledger.units address) ∧
      Within (address + 8) address (ledger.units address) := by
  have positive := accounts.sized address member
  constructor
  · exact ⟨Nat.le_refl _, by omega⟩
  · exact ⟨by omega, by omega⟩

/-- A word of an object other than its last. -/
theorem store_inside (accounts : heap.Accounts ledger) (member : address ∈ ledger.held)
    (lower : address ≤ word) (upper : word + 16 ≤ address + 64 * ledger.units address) :
    (heap.store word value).Accounts ledger := by
  apply accounts.store
  intro held heldMember
  have positive := accounts.sized held heldMember
  by_cases same : held = address
  · subst same
    have last := lastWord_add held positive
    omega
  · exact accounts.word_ne member heldMember (Ne.symm same) ⟨lower, by omega⟩
      (within_lastWord _ positive)

theorem release (accounts : heap.Accounts ledger)
    (empty : ∀ address ∈ ledger.held, ledger.home address ≠ base) :
    (heap.release base).Accounts ledger where
  apart := by
    intro first firstGranted second secondGranted
    exact accounts.apart first (Finset.mem_of_mem_erase firstGranted) second
      (Finset.mem_of_mem_erase secondGranted)
  measured block granted := accounts.measured block (Finset.mem_of_mem_erase granted)
  bumped block granted := accounts.bumped block (Finset.mem_of_mem_erase granted)
  balanced block granted := accounts.balanced block (Finset.mem_of_mem_erase granted)
  housed address member :=
    Finset.mem_erase.mpr ⟨empty address member, accounts.housed address member⟩
  carved := accounts.carved
  sized := accounts.sized
  separate := accounts.separate
  stamped := accounts.stamped

/-- A block whose every unit was given back holds no object. -/
theorem empty_of_canFree (accounts : heap.Accounts ledger) (granted : base ∈ heap.granted)
    (free : (heap.blocks base).canFree = true) :
    ∀ address ∈ ledger.held, ledger.home address ≠ base := by
  have full : (heap.blocks base).gavebackUnitCount = (heap.blocks base).unitCount := by
    simpa only [Block.canFree, beq_iff_eq] using free
  have bumped := accounts.bumped base granted
  have balanced := accounts.balanced base granted
  rw [full] at balanced
  intro address member
  exact Ledger.ne_home_of_outstanding member (accounts.sized address member) (by omega)

end Accounts

/-- A call has obtained a new object, and the objects there were are untouched. -/
structure Obtained (memory : Memory) (ledger : Ledger) (next : Heap) (address units base : ℕ) :
    Prop where
  accounts : next.Accounts (ledger.carve address units base)
  fresh : address ∉ ledger.held
  kept : ∀ other ∈ ledger.held, ∀ word, Within word other (ledger.units other) →
    next.memory word = memory word

theorem fits_iff {block : Block} {n : UInt64} (bumped : block.allocatingIndex ≤ block.unitCount)
    (bounded : block.unitCount.toNat + 63 < 2 ^ 64) (small : (neededUnits n).toNat ≤ 63) :
    block.Fits n ↔
      block.allocatingIndex.toNat + (neededUnits n).toNat ≤ block.unitCount.toNat := by
  have index : block.allocatingIndex.toNat ≤ block.unitCount.toNat :=
    UInt64.le_iff_toNat_le.mp bumped
  rw [Block.Fits, gt_iff_lt, UInt64.not_lt, UInt64.le_iff_toNat_le, UInt64.toNat_add,
    Nat.mod_eq_of_lt (by omega)]

variable {heap next : Heap} {ledger : Ledger} {address base : ℕ} {n : UInt64}

theorem allocate_eq_none (full : ¬ (heap.blocks base).Fits n) : heap.allocate base n = none :=
  if_neg full

theorem allocate_eq_some (allocated : heap.allocate base n = some (address, next)) :
    (heap.blocks base).Fits n ∧
      address = unit base (heap.blocks base).allocatingIndex.toNat ∧
      next = { heap.store (lastWord address (neededUnits n).toNat) base with
        blocks := Function.update heap.blocks base { heap.blocks base with
          allocatingIndex := (heap.blocks base).allocatingIndex + neededUnits n } } := by
  by_cases fits : (heap.blocks base).Fits n
  · simp only [allocate, if_pos fits, Option.some.injEq, Prod.mk.injEq] at allocated
    obtain ⟨place, result⟩ := allocated
    subst place
    exact ⟨fits, rfl, result.symm⟩
  · simp [allocate_eq_none fits] at allocated

theorem extent_update {block : Block} (same : block.size = (heap.blocks base).size) :
    ({ heap with blocks := Function.update heap.blocks base block } : Heap).extent =
      heap.extent := by
  funext other
  by_cases here : other = base
  · subst here
    simp only [extent, Function.update_self, same]
  · simp only [extent, Function.update_of_ne here]

/-- An object is carved where no object of the block has been, and stamped with the block. -/
theorem Accounts.allocate (accounts : heap.Accounts ledger) (granted : base ∈ heap.granted)
    (positive : 1 ≤ (neededUnits n).toNat) (small : (neededUnits n).toNat ≤ 63)
    (allocated : heap.allocate base n = some (address, next)) :
    Obtained heap.memory ledger next address (neededUnits n).toNat base := by
  obtain ⟨fits, place, result⟩ := allocate_eq_some allocated
  have bumped := accounts.bumped base granted
  obtain ⟨measured, bounded⟩ := accounts.measured base granted
  have room := (fits_iff (UInt64.le_iff_toNat_le.mpr bumped) bounded small).mp fits
  generalize units : (neededUnits n).toNat = count at *
  have raised : ((heap.blocks base).allocatingIndex + neededUnits n).toNat =
      (heap.blocks base).allocatingIndex.toNat + count := by
    rw [UInt64.toNat_add, units, Nat.mod_eq_of_lt (by omega)]
  rw [unit] at place
  -- the object lies beyond the others of its block and apart from the other blocks
  have separate : ∀ other ∈ ledger.held,
      Apart other (64 * ledger.units other) address (64 * count) := by
    intro other member
    by_cases home : ledger.home other = base
    · obtain ⟨-, upper⟩ := accounts.carved other member
      rw [home, unit] at upper
      exact .inl (by omega)
    · exact (accounts.apart_block member granted home).within (by omega) (by omega)
  have fresh : address ∉ ledger.held := by
    intro member
    have positiveUnits := accounts.sized address member
    rcases separate address member with before | after <;> omega
  have kept : ∀ other ∈ ledger.held, ∀ word, Within word other (ledger.units other) →
      next.memory word = heap.memory word := by
    intro other member word within
    have last := lastWord_add address positive
    have different : word ≠ lastWord address count := by
      obtain ⟨lower, upper⟩ := within
      rcases separate other member with before | after <;> omega
    rw [result]
    exact Function.update_of_ne different ..
  have blocksSelf : next.blocks base = { heap.blocks base with
      allocatingIndex := (heap.blocks base).allocatingIndex + neededUnits n } := by
    rw [result]
    exact Function.update_self ..
  have blocksOther : ∀ other, other ≠ base → next.blocks other = heap.blocks other := by
    intro other different
    rw [result]
    exact Function.update_of_ne different ..
  have extents : next.extent = heap.extent := by
    rw [result]
    exact extent_update rfl
  have grants : next.granted = heap.granted := by rw [result]; rfl
  have olds : ∀ other ∈ ledger.held, other ≠ address :=
    fun other member same => fresh (same ▸ member)
  refine { accounts := ?_, fresh, kept }
  constructor
  case apart =>
    rw [grants, extents]
    exact accounts.apart
  case measured =>
    intro block member
    rw [grants] at member
    rw [extents]
    by_cases here : block = base
    · subst here
      rw [blocksSelf]
      exact ⟨measured, bounded⟩
    · rw [blocksOther block here]
      exact accounts.measured block member
  case bumped =>
    intro block member
    rw [grants] at member
    by_cases here : block = base
    · subst here
      rw [blocksSelf, raised]
      exact room
    · rw [blocksOther block here]
      exact accounts.bumped block member
  case balanced =>
    intro block member
    rw [grants] at member
    have before := accounts.balanced block member
    rw [Ledger.outstanding_carve fresh]
    by_cases here : block = base
    · subst here
      rw [blocksSelf, raised, if_pos rfl]
      simp only
      omega
    · rw [blocksOther block here, if_neg (Ne.symm here)]
      exact before
  case housed =>
    intro other member
    rw [grants]
    cases Finset.mem_insert.mp member with
    | inl same =>
        subst same
        rw [Ledger.carve_home_self]
        exact granted
    | inr old =>
        rw [Ledger.carve_home_of_ne (olds other old)]
        exact accounts.housed other old
  case carved =>
    intro other member
    cases Finset.mem_insert.mp member with
    | inl same =>
        subst same
        rw [Ledger.carve_home_self, Ledger.carve_units_self, blocksSelf, raised, unit]
        omega
    | inr old =>
        rw [Ledger.carve_home_of_ne (olds other old), Ledger.carve_units_of_ne (olds other old)]
        obtain ⟨lower, upper⟩ := accounts.carved other old
        by_cases here : ledger.home other = base
        · rw [here] at lower upper ⊢
          rw [blocksSelf, raised]
          rw [unit] at upper ⊢
          omega
        · rw [blocksOther _ here]
          exact ⟨lower, upper⟩
  case sized =>
    intro other member
    cases Finset.mem_insert.mp member with
    | inl same =>
        subst same
        rw [Ledger.carve_units_self]
        exact positive
    | inr old =>
        rw [Ledger.carve_units_of_ne (olds other old)]
        exact accounts.sized other old
  case separate =>
    intro first firstMember second secondMember different
    cases Finset.mem_insert.mp firstMember with
    | inl same =>
        subst same
        have old := Finset.mem_of_mem_insert_of_ne secondMember (Ne.symm different)
        rw [Ledger.carve_units_self, Ledger.carve_units_of_ne (olds second old)]
        exact (separate second old).symm
    | inr old =>
        rw [Ledger.carve_units_of_ne (olds first old)]
        cases Finset.mem_insert.mp secondMember with
        | inl same =>
            subst same
            rw [Ledger.carve_units_self]
            exact separate first old
        | inr oldSecond =>
            rw [Ledger.carve_units_of_ne (olds second oldSecond)]
            exact accounts.separate first old second oldSecond different
  case stamped =>
    intro other member
    cases Finset.mem_insert.mp member with
    | inl same =>
        subst same
        rw [Ledger.carve_home_self, Ledger.carve_units_self, result]
        exact Function.update_self ..
    | inr old =>
        rw [Ledger.carve_home_of_ne (olds other old), Ledger.carve_units_of_ne (olds other old)]
        have word := within_lastWord other (accounts.sized other old)
        exact (kept other old _ word).trans (accounts.stamped other old)

/-- The units of an object are given back to the block they were carved from. -/
theorem Accounts.deallocate (accounts : heap.Accounts ledger) (member : address ∈ ledger.held)
    (counted : (neededUnits n).toNat = ledger.units address) :
    (heap.deallocate (ledger.home address) n).Accounts (ledger.drop address) := by
  have granted := accounts.housed address member
  have outstanding : ledger.outstanding (ledger.home address) =
      (ledger.drop address).outstanding (ledger.home address) + ledger.units address := by
    rw [Ledger.outstanding_drop member, if_pos rfl]
  have balanced := accounts.balanced _ granted
  have bumped := accounts.bumped _ granted
  have bounded := (accounts.measured _ granted).2
  have credited : ((heap.blocks (ledger.home address)).gavebackUnitCount + neededUnits n).toNat =
      (heap.blocks (ledger.home address)).gavebackUnitCount.toNat + ledger.units address := by
    rw [UInt64.toNat_add, counted, Nat.mod_eq_of_lt (by omega)]
  generalize home : ledger.home address = base at *
  have blocksSelf : (heap.deallocate base n).blocks base = { heap.blocks base with
      gavebackUnitCount := (heap.blocks base).gavebackUnitCount + neededUnits n } :=
    Function.update_self ..
  have blocksOther : ∀ other, other ≠ base →
      (heap.deallocate base n).blocks other = heap.blocks other :=
    fun other different => Function.update_of_ne different ..
  have extents : (heap.deallocate base n).extent = heap.extent := extent_update rfl
  constructor
  case apart =>
    rw [extents]
    exact accounts.apart
  case measured =>
    intro block blockGranted
    rw [extents]
    by_cases here : block = base
    · subst here
      rw [blocksSelf]
      exact accounts.measured block granted
    · rw [blocksOther block here]
      exact accounts.measured block blockGranted
  case bumped =>
    intro block blockGranted
    by_cases here : block = base
    · subst here
      rw [blocksSelf]
      exact bumped
    · rw [blocksOther block here]
      exact accounts.bumped block blockGranted
  case balanced =>
    intro block blockGranted
    by_cases here : block = base
    · subst here
      rw [blocksSelf, credited]
      simp only
      omega
    · have before := accounts.balanced block blockGranted
      rw [Ledger.outstanding_drop member, home, if_neg (Ne.symm here)] at before
      rw [blocksOther block here]
      exact before
  case housed =>
    intro other otherMember
    exact accounts.housed other (Finset.mem_of_mem_erase otherMember)
  case carved =>
    intro other otherMember
    have carved := accounts.carved other (Finset.mem_of_mem_erase otherMember)
    by_cases here : ledger.home other = base
    · have same : (ledger.drop address).home other = base := here
      rw [here] at carved
      rw [same, blocksSelf]
      exact carved
    · have moved : (heap.deallocate base n).blocks ((ledger.drop address).home other) =
          heap.blocks (ledger.home other) := blocksOther _ here
      rw [moved]
      exact carved
  case sized =>
    intro other otherMember
    exact accounts.sized other (Finset.mem_of_mem_erase otherMember)
  case separate =>
    intro first firstMember second secondMember
    exact accounts.separate first (Finset.mem_of_mem_erase firstMember) second
      (Finset.mem_of_mem_erase secondMember)
  case stamped =>
    intro other otherMember
    exact accounts.stamped other (Finset.mem_of_mem_erase otherMember)

/-- The header that a request for `2 ^ exp` times 4096 bytes constructs. -/
theorem ofCount_shift {exp : UInt64} (small : exp.toNat < 52) :
    (Block.ofCount (1 <<< exp)).size.toNat = 4096 * 2 ^ exp.toNat ∧
      (Block.ofCount (1 <<< exp)).unitCount.toNat + 1 = 64 * 2 ^ exp.toNat := by
  have power : 2 ^ exp.toNat ≤ 2 ^ 51 := Nat.pow_le_pow_right (by omega) (by omega)
  have one : (1 : UInt64).toNat = 1 := rfl
  have object : maxObjectSize.toNat = 4096 := rfl
  have unit : blockUnit.toNat = 64 := rfl
  have count : (1 <<< exp : UInt64).toNat = 2 ^ exp.toNat := by
    rw [UInt64.toNat_shiftLeft, one, Nat.mod_eq_of_lt (a := exp.toNat) (by omega),
      Nat.one_shiftLeft, Nat.mod_eq_of_lt (by omega)]
  have positive : 0 < 2 ^ exp.toNat := Nat.two_pow_pos _
  have size : (maxObjectSize * (1 <<< exp)).toNat = 4096 * 2 ^ exp.toNat := by
    rw [UInt64.toNat_mul, count, object, Nat.mod_eq_of_lt (by omega)]
  have units : (maxObjectSize * (1 <<< exp) / blockUnit).toNat = 64 * 2 ^ exp.toNat := by
    rw [UInt64.toNat_div, size, unit]
    omega
  have lower : (1 : UInt64) ≤ maxObjectSize * (1 <<< exp) / blockUnit := by
    rw [UInt64.le_iff_toNat_le, units, one]
    omega
  refine ⟨size, ?_⟩
  rw [Block.ofCount, UInt64.toNat_sub_of_le _ _ lower, units, one]
  omega

/-- A new block has room for every request that the pool serves. -/
theorem ofCount_fits {exp : UInt64} (small : exp.toNat < 52) (few : (neededUnits n).toNat ≤ 63) :
    (Block.ofCount (1 <<< exp)).Fits n := by
  obtain ⟨-, units⟩ := ofCount_shift small
  have power : 2 ^ exp.toNat ≤ 2 ^ 51 := Nat.pow_le_pow_right (by omega) (by omega)
  have positive : 0 < 2 ^ exp.toNat := Nat.two_pow_pos _
  have empty : (Block.ofCount (1 <<< exp)).allocatingIndex.toNat = 0 := rfl
  have bumped : (Block.ofCount (1 <<< exp)).allocatingIndex ≤
      (Block.ofCount (1 <<< exp)).unitCount := by
    rw [UInt64.le_iff_toNat_le, empty]
    exact Nat.zero_le _
  rw [fits_iff bumped (by omega) few, empty]
  omega

/-- A new block, in which nothing is carved yet. -/
theorem Accounts.grant (accounts : heap.Accounts ledger) {exp : UInt64} (small : exp.toNat < 52)
    (grantable : heap.Grantable base (Block.ofCount (1 <<< exp)).size.toNat) :
    (heap.grant base (Block.ofCount (1 <<< exp))).Accounts ledger := by
  obtain ⟨-, -, -, fresh, apart⟩ := grantable
  obtain ⟨size, units⟩ := ofCount_shift small
  have power : 2 ^ exp.toNat ≤ 2 ^ 51 := Nat.pow_le_pow_right (by omega) (by omega)
  have unhoused : ∀ address ∈ ledger.held, ledger.home address ≠ base :=
    fun address member same => fresh (same ▸ accounts.housed address member)
  have outstanding : ledger.outstanding base = 0 := by
    apply Finset.sum_eq_zero
    intro address member
    obtain ⟨held, home⟩ := Finset.mem_filter.mp member
    exact absurd home (unhoused address held)
  have empty : (Block.ofCount (1 <<< exp)).allocatingIndex.toNat = 0 := rfl
  have credit : (Block.ofCount (1 <<< exp)).gavebackUnitCount.toNat = 0 := rfl
  generalize Block.ofCount (1 <<< exp) = block at *
  have blocksSelf : (heap.grant base block).blocks base = block := Function.update_self ..
  have blocksOther : ∀ other, other ≠ base → (heap.grant base block).blocks other =
      heap.blocks other := fun other different => Function.update_of_ne different ..
  have extentSelf : (heap.grant base block).extent base = block.size.toNat := by
    rw [extent, blocksSelf]
  have extentOther : ∀ other, other ≠ base →
      (heap.grant base block).extent other = heap.extent other := by
    intro other different
    rw [extent, blocksOther other different, extent]
  have olds : ∀ other ∈ (heap.grant base block).granted, other ≠ base → other ∈ heap.granted :=
    fun other member different => Finset.mem_of_mem_insert_of_ne member different
  constructor
  case apart =>
    intro first firstGranted second secondGranted different
    by_cases here : first = base
    · have old := olds second secondGranted (here ▸ different.symm)
      rw [here, extentSelf, extentOther second (here ▸ different.symm)]
      exact apart second old
    · have old := olds first firstGranted here
      rw [extentOther first here]
      by_cases there : second = base
      · rw [there, extentSelf]
        exact (apart first old).symm
      · rw [extentOther second there]
        exact accounts.apart first old second (olds second secondGranted there) different
  case measured =>
    intro other member
    by_cases here : other = base
    · rw [here, extentSelf, blocksSelf]
      omega
    · rw [extentOther other here, blocksOther other here]
      exact accounts.measured other (olds other member here)
  case bumped =>
    intro other member
    by_cases here : other = base
    · rw [here, blocksSelf, empty]
      exact Nat.zero_le _
    · rw [blocksOther other here]
      exact accounts.bumped other (olds other member here)
  case balanced =>
    intro other member
    by_cases here : other = base
    · rw [here, blocksSelf, empty, credit, outstanding]
    · rw [blocksOther other here]
      exact accounts.balanced other (olds other member here)
  case housed =>
    intro address member
    exact Finset.mem_insert_of_mem (accounts.housed address member)
  case carved =>
    intro address member
    rw [blocksOther _ (unhoused address member)]
    exact accounts.carved address member
  case sized => exact accounts.sized
  case separate => exact accounts.separate
  case stamped => exact accounts.stamped

end Heap

end Asco.Core.Mm
