import Asco.Core.Mm.CoroutinePool.Accounts

namespace Asco.Core.Mm

open Foundation

/-! # The freelists and the live objects -/

variable {Thread : Type*}

/-- The objects of the account are the live ones and those on the freelists. -/
structure Placed (memory : Memory) (heads : Thread → ℕ → ℕ) (live : ℕ → Option UInt64)
    (ledger : Ledger) (listed : Thread → ℕ → List ℕ) : Prop where
  holds : ∀ address n, live address = some n →
    address ∈ ledger.held ∧ Served n ∧
      ledger.units address = (neededUnits (neededSize n)).toNat
  linked : ∀ thread index, Linked 0 memory (fun node => memory (node + 8)) (heads thread index)
    (listed thread index)
  free : ∀ thread index address, address ∈ listed thread index →
    address ∈ ledger.held ∧ ledger.units address = index + 1 ∧ live address = none
  accounted : ∀ address ∈ ledger.held,
    (∃ n, live address = some n) ∨ ∃ thread index, address ∈ listed thread index
  once : ∀ thread index, (listed thread index).Nodup
  exclusive : ∀ thread other index place address, address ∈ listed thread index →
    address ∈ listed other place → thread = other

namespace Placed

variable {memory after : Memory} {heads : Thread → ℕ → ℕ} {live : ℕ → Option UInt64}
  {ledger : Ledger} {listed : Thread → ℕ → List ℕ} {thread : Thread} {index address base : ℕ}
  {n : UInt64}

theorem live_units (placed : Placed memory heads live ledger listed)
    (held : live address = some n) : 64 * ledger.units address = span n := by
  rw [(placed.holds address n held).2.2, span]

/-- The nodes of the freelists are read as before. -/
theorem reads (placed : Placed memory heads live ledger listed)
    (links : ∀ thread index, ∀ node ∈ listed thread index,
      after node = memory node ∧ after (node + 8) = memory (node + 8)) :
    Placed after heads live ledger listed where
  holds := placed.holds
  linked := by
    intro thread index
    apply (placed.linked thread index).congr
    · intro node member
      exact (links thread index node member).1
    · intro node member
      exact (links thread index node member).2
  free := placed.free
  accounted := placed.accounted
  once := placed.once
  exclusive := placed.exclusive

/-- They are where no word of an object of the account is written. -/
theorem links {heap : Heap} (placed : Placed heap.memory heads live ledger listed)
    (accounts : heap.Accounts ledger)
    (reads : ∀ other ∈ ledger.held, ∀ word, Within word other (ledger.units other) →
      after word = heap.memory word) :
    ∀ thread index, ∀ node ∈ listed thread index, after node = heap.memory node ∧
      after (node + 8) = heap.memory (node + 8) := by
  intro thread index node member
  have held := (placed.free thread index node member).1
  obtain ⟨first, second⟩ := accounts.node_words held
  exact ⟨reads node held _ first, reads node held _ second⟩

theorem carve (placed : Placed memory heads live ledger listed) (served : Served n)
    (fresh : address ∉ ledger.held)
    (links : ∀ thread index, ∀ node ∈ listed thread index,
      after node = memory node ∧ after (node + 8) = memory (node + 8)) :
    Placed after heads (Function.update live address (some n))
      (ledger.carve address (neededUnits (neededSize n)).toNat base) listed where
  holds := by
    intro other m held
    by_cases same : other = address
    · subst same
      rw [Function.update_self] at held
      cases held
      exact ⟨Finset.mem_insert_self .., served, Ledger.carve_units_self⟩
    · rw [Function.update_of_ne same] at held
      obtain ⟨member, otherServed, units⟩ := placed.holds other m held
      exact ⟨Finset.mem_insert_of_mem member, otherServed,
        (Ledger.carve_units_of_ne same).trans units⟩
  linked := (placed.reads links).linked
  free := by
    intro thread index other member
    obtain ⟨held, units, free⟩ := placed.free thread index other member
    have different : other ≠ address := fun same => fresh (same ▸ held)
    exact ⟨Finset.mem_insert_of_mem held, (Ledger.carve_units_of_ne different).trans units,
      (Function.update_of_ne different ..).trans free⟩
  accounted := by
    intro other member
    by_cases same : other = address
    · subst same
      exact .inl ⟨n, Function.update_self ..⟩
    · have old := Finset.mem_of_mem_insert_of_ne member same
      rw [Function.update_of_ne same]
      exact placed.accounted other old
  once := placed.once
  exclusive := placed.exclusive

/-- A live object is given back to its block. -/
theorem drop (placed : Placed memory heads live ledger listed) (held : live address = some n) :
    Placed memory heads (Function.update live address none) (ledger.drop address) listed where
  holds := by
    intro other m otherHeld
    by_cases same : other = address
    · subst same
      rw [Function.update_self] at otherHeld
      contradiction
    · rw [Function.update_of_ne same] at otherHeld
      obtain ⟨member, rest⟩ := placed.holds other m otherHeld
      exact ⟨Finset.mem_erase.mpr ⟨same, member⟩, rest⟩
  linked := placed.linked
  free := by
    intro thread index node member
    obtain ⟨nodeHeld, units, free⟩ := placed.free thread index node member
    have different : node ≠ address := by
      intro same
      rw [same, held] at free
      contradiction
    exact ⟨Finset.mem_erase.mpr ⟨different, nodeHeld⟩, units,
      (Function.update_of_ne different ..).trans free⟩
  accounted := by
    intro other member
    obtain ⟨different, old⟩ := Finset.mem_erase.mp member
    rw [Function.update_of_ne different]
    exact placed.accounted other old
  once := placed.once
  exclusive := placed.exclusive

end Placed

variable [DecidableEq Thread]

/-- A table of the threads' freelists with one entry replaced. -/
def replace {Value : Type*} (table : Thread → ℕ → Value) (thread : Thread) (index : ℕ)
    (value : Value) : Thread → ℕ → Value :=
  fun other place => if other = thread ∧ place = index then value else table other place

theorem replace_self {Value : Type*} {table : Thread → ℕ → Value} {thread : Thread} {index : ℕ}
    {value : Value} : replace table thread index value thread index = value :=
  if_pos ⟨rfl, rfl⟩

theorem replace_of_ne {Value : Type*} {table : Thread → ℕ → Value} {thread other : Thread}
    {index place : ℕ} {value : Value} (elsewhere : ¬ (other = thread ∧ place = index)) :
    replace table thread index value other place = table other place :=
  if_neg elsewhere

namespace Placed

variable {memory after : Memory} {heads : Thread → ℕ → ℕ} {live : ℕ → Option UInt64}
  {ledger : Ledger} {listed : Thread → ℕ → List ℕ} {thread : Thread} {index address base : ℕ}
  {n : UInt64}

/-- The top of a freelist becomes live. -/
theorem pop (placed : Placed memory heads live ledger listed) (served : Served n)
    (class_eq : sizeClass (neededSize n) = index) (top : heads thread index = address)
    (present : address ≠ 0) :
    ∃ below, listed thread index = address :: below ∧
      Placed memory (replace heads thread index (memory address))
        (Function.update live address (some n)) ledger (replace listed thread index below) := by
  have linked := placed.linked thread index
  rw [top] at linked
  obtain ⟨below, shape, -, rest⟩ := linked.exists_below present
  have topMember : address ∈ listed thread index := shape ▸ List.mem_cons_self
  have once := placed.once thread index
  rw [shape] at once
  obtain ⟨unlisted, belowOnce⟩ := List.nodup_cons.mp once
  have sub : ∀ other place node, node ∈ replace listed thread index below other place →
      node ∈ listed other place ∧ node ≠ address := by
    intro other place node member
    by_cases here : other = thread ∧ place = index
    · obtain ⟨sameThread, sameIndex⟩ := here
      subst sameThread sameIndex
      rw [replace_self] at member
      exact ⟨shape ▸ List.mem_cons_of_mem _ member, fun same => unlisted (same ▸ member)⟩
    · rw [replace_of_ne here] at member
      refine ⟨member, ?_⟩
      intro same
      subst same
      have threads := placed.exclusive _ _ _ _ _ member topMember
      have units := (placed.free _ _ _ member).2.1
      have topUnits := (placed.free _ _ _ topMember).2.1
      exact here ⟨threads, by omega⟩
  obtain ⟨topHeld, topUnits, -⟩ := placed.free thread index address topMember
  refine ⟨below, shape, ?_⟩
  constructor
  case holds =>
    intro other m held
    by_cases same : other = address
    · subst same
      rw [Function.update_self] at held
      cases held
      refine ⟨topHeld, served, ?_⟩
      rw [topUnits, ← class_eq, served.sizeClass_add_one]
    · rw [Function.update_of_ne same] at held
      exact placed.holds other m held
  case linked =>
    intro other place
    by_cases here : other = thread ∧ place = index
    · obtain ⟨sameThread, sameIndex⟩ := here
      subst sameThread sameIndex
      rw [replace_self, replace_self]
      exact rest
    · rw [replace_of_ne here, replace_of_ne here]
      exact placed.linked other place
  case free =>
    intro other place node member
    obtain ⟨before, different⟩ := sub other place node member
    obtain ⟨held, units, free⟩ := placed.free other place node before
    exact ⟨held, units, (Function.update_of_ne different ..).trans free⟩
  case accounted =>
    intro other member
    by_cases same : other = address
    · subst same
      exact .inl ⟨n, Function.update_self ..⟩
    · rw [Function.update_of_ne same]
      cases placed.accounted other member with
      | inl held => exact .inl held
      | inr onList =>
          obtain ⟨otherThread, place, onList⟩ := onList
          refine .inr ⟨otherThread, place, ?_⟩
          by_cases here : otherThread = thread ∧ place = index
          · obtain ⟨sameThread, sameIndex⟩ := here
            subst sameThread sameIndex
            rw [replace_self]
            rw [shape] at onList
            exact List.mem_of_ne_of_mem same onList
          · rw [replace_of_ne here]
            exact onList
  case once =>
    intro other place
    by_cases here : other = thread ∧ place = index
    · obtain ⟨sameThread, sameIndex⟩ := here
      subst sameThread sameIndex
      rw [replace_self]
      exact belowOnce
    · rw [replace_of_ne here]
      exact placed.once other place
  case exclusive =>
    intro first second firstIndex secondIndex node firstMember secondMember
    exact placed.exclusive _ _ _ _ _ (sub _ _ _ firstMember).1 (sub _ _ _ secondMember).1

/-- A live object becomes the top of a freelist and its first words the link. -/
theorem push (placed : Placed memory heads live ledger listed) (held : live address = some n)
    (class_eq : sizeClass (neededSize n) = index) (present : address ≠ 0)
    (link : after address = heads thread index)
    (counted : after (address + 8) = (listed thread index).length + 1)
    (links : ∀ other place, ∀ node ∈ listed other place,
      after node = memory node ∧ after (node + 8) = memory (node + 8)) :
    Placed after (replace heads thread index address) (Function.update live address none) ledger
      (replace listed thread index (address :: listed thread index)) := by
  obtain ⟨member, served, units⟩ := placed.holds address n held
  have unlisted : ∀ other place, address ∉ listed other place := by
    intro other place inList
    have free := (placed.free other place address inList).2.2
    rw [held] at free
    contradiction
  constructor
  case holds =>
    intro other m otherHeld
    by_cases same : other = address
    · subst same
      rw [Function.update_self] at otherHeld
      contradiction
    · rw [Function.update_of_ne same] at otherHeld
      exact placed.holds other m otherHeld
  case linked =>
    intro other place
    by_cases here : other = thread ∧ place = index
    · obtain ⟨sameThread, sameIndex⟩ := here
      subst sameThread sameIndex
      rw [replace_self, replace_self]
      refine ⟨rfl, present, counted, ?_⟩
      rw [link]
      exact (placed.reads links).linked other place
    · rw [replace_of_ne here, replace_of_ne here]
      exact (placed.reads links).linked other place
  case free =>
    intro other place node nodeMember
    by_cases here : other = thread ∧ place = index
    · obtain ⟨sameThread, sameIndex⟩ := here
      subst sameThread sameIndex
      rw [replace_self] at nodeMember
      cases List.mem_cons.mp nodeMember with
      | inl same =>
          subst same
          refine ⟨member, ?_, Function.update_self ..⟩
          rw [units, ← class_eq, served.sizeClass_add_one]
      | inr below =>
          obtain ⟨nodeHeld, nodeUnits, free⟩ := placed.free other place node below
          have different : node ≠ address := fun same => unlisted other place (same ▸ below)
          exact ⟨nodeHeld, nodeUnits, (Function.update_of_ne different ..).trans free⟩
    · rw [replace_of_ne here] at nodeMember
      obtain ⟨nodeHeld, nodeUnits, free⟩ := placed.free other place node nodeMember
      have different : node ≠ address := fun same => unlisted other place (same ▸ nodeMember)
      exact ⟨nodeHeld, nodeUnits, (Function.update_of_ne different ..).trans free⟩
  case accounted =>
    intro other otherMember
    by_cases same : other = address
    · subst same
      refine .inr ⟨thread, index, ?_⟩
      rw [replace_self]
      exact List.mem_cons_self
    · rw [Function.update_of_ne same]
      cases placed.accounted other otherMember with
      | inl otherHeld => exact .inl otherHeld
      | inr onList =>
          obtain ⟨otherThread, place, onList⟩ := onList
          refine .inr ⟨otherThread, place, ?_⟩
          by_cases here : otherThread = thread ∧ place = index
          · obtain ⟨sameThread, sameIndex⟩ := here
            subst sameThread sameIndex
            rw [replace_self]
            exact List.mem_cons_of_mem _ onList
          · rw [replace_of_ne here]
            exact onList
  case once =>
    intro other place
    by_cases here : other = thread ∧ place = index
    · obtain ⟨sameThread, sameIndex⟩ := here
      subst sameThread sameIndex
      rw [replace_self]
      exact List.nodup_cons.mpr ⟨unlisted other place, placed.once other place⟩
    · rw [replace_of_ne here]
      exact placed.once other place
  case exclusive =>
    have origin : ∀ other place node,
        node ∈ replace listed thread index (address :: listed thread index) other place →
        node ∈ listed other place ∨ node = address ∧ other = thread := by
      intro other place node nodeMember
      by_cases here : other = thread ∧ place = index
      · obtain ⟨sameThread, sameIndex⟩ := here
        subst sameThread sameIndex
        rw [replace_self] at nodeMember
        cases List.mem_cons.mp nodeMember with
        | inl same => exact .inr ⟨same, rfl⟩
        | inr below => exact .inl below
      · rw [replace_of_ne here] at nodeMember
        exact .inl nodeMember
    intro first second firstIndex secondIndex node firstMember secondMember
    cases origin first firstIndex node firstMember with
    | inl old =>
        cases origin second secondIndex node secondMember with
        | inl otherOld => exact placed.exclusive _ _ _ _ _ old otherOld
        | inr new => exact absurd (new.1 ▸ old) (unlisted first firstIndex)
    | inr new =>
        cases origin second secondIndex node secondMember with
        | inl otherOld => exact absurd (new.1 ▸ otherOld) (unlisted second secondIndex)
        | inr otherNew => exact new.2.trans otherNew.2.symm

end Placed

end Asco.Core.Mm
