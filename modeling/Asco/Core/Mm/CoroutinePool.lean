import Asco.Foundation.IntrusiveList
import Asco.Foundation.IntrusiveStack
import Asco.Foundation.Machine
import Mathlib.Data.Finset.Basic
import Mathlib.Data.UInt

namespace Asco.Core.Mm

open Foundation

/-! # `coroutine_pool`

Every thread keeps a list of blocks, from which it carves objects, and a freelist for each
size.  An object may be freed on another thread than it was carved on.  The calls are atomic
and only `gaveback_unit_count` is written by another thread than the block's own.
-/

/-- Words by the address of their first byte.  The units of the blocks lie here. -/
abbrev Memory := ℕ → ℕ

def blockUnit : UInt64 := 64
def maxObjectSize : UInt64 := 4096
def givebackThreshold : ℕ := 1024

def neededSize (n : UInt64) : UInt64 := ((n + 8) + 7) / 8 * 8

/-- `block::needed_units`. -/
def neededUnits (n : UInt64) : UInt64 := (n - 1) / blockUnit + 1

/-- The freelist that holds the objects of a needed size. -/
def sizeClass (n : UInt64) : ℕ := ((n - 1) / blockUnit).toNat

/-- The header of a block without `prev` and `next`, which are `Heap.links`. -/
structure Block where
  size : UInt64
  unitCount : UInt64
  allocatingIndex : UInt64
  gavebackUnitCount : UInt64

/-- `block::block`. -/
def Block.ofCount (blockCount : UInt64) : Block where
  size := maxObjectSize * blockCount
  unitCount := maxObjectSize * blockCount / blockUnit - 1
  allocatingIndex := 0
  gavebackUnitCount := 0

def Block.canFree (block : Block) : Bool := block.gavebackUnitCount == block.unitCount

/-- The test of `block::allocate`. -/
def Block.Fits (block : Block) (n : UInt64) : Prop :=
  ¬ block.allocatingIndex + neededUnits n > block.unitCount

instance (block : Block) (n : UInt64) : Decidable (block.Fits n) :=
  inferInstanceAs (Decidable (¬ _))

/-- The members of a thread's own `coroutine_pool`. -/
structure Pool where
  freelist : ℕ → ℕ
  blocksList : ℕ
  blockAllocateExp : UInt64
  allocateCount : UInt64
  blockMissCount : UInt64

def Pool.empty : Pool where
  freelist _ := 0
  blocksList := 0
  blockAllocateExp := 0
  allocateCount := 0
  blockMissCount := 0

def Pool.updateBlockAllocateExp (pool : Pool) : Pool :=
  if pool.blockMissCount = 0 then pool
  else if pool.allocateCount / pool.blockMissCount ≤ 2 then
    { pool with blockAllocateExp := pool.blockAllocateExp + 1 }
  else
    { pool with
      blockAllocateExp := if pool.blockAllocateExp = 0 then 0 else pool.blockAllocateExp - 1 }

/-- The members after a request that a freelist served, which is left with the object `below`. -/
def Pool.hit (pool : Pool) (index below : ℕ) : Pool :=
  { pool with
    allocateCount := pool.allocateCount + 1
    freelist := Function.update pool.freelist index below }.updateBlockAllocateExp

/-- The members after a request that the thread's blocks could not serve. -/
def Pool.missed (pool : Pool) : Pool :=
  { pool with
    allocateCount := pool.allocateCount + 1
    blockMissCount := pool.blockMissCount + 1 }.updateBlockAllocateExp

theorem Pool.updateBlockAllocateExp_freelist (pool : Pool) :
    pool.updateBlockAllocateExp.freelist = pool.freelist := by
  unfold updateBlockAllocateExp
  split
  · rfl
  · split <;> rfl

theorem Pool.updateBlockAllocateExp_blocksList (pool : Pool) :
    pool.updateBlockAllocateExp.blocksList = pool.blocksList := by
  unfold updateBlockAllocateExp
  split
  · rfl
  · split <;> rfl

theorem Pool.hit_freelist (pool : Pool) (index below : ℕ) :
    (pool.hit index below).freelist = Function.update pool.freelist index below :=
  Pool.updateBlockAllocateExp_freelist _

theorem Pool.hit_blocksList (pool : Pool) (index below : ℕ) :
    (pool.hit index below).blocksList = pool.blocksList :=
  Pool.updateBlockAllocateExp_blocksList _

theorem Pool.missed_freelist (pool : Pool) : pool.missed.freelist = pool.freelist :=
  Pool.updateBlockAllocateExp_freelist _

/-- What the threads share: the memory, the headers by the address of their block, and the
blocks that the upstream resource has granted and not got back. -/
structure Heap where
  memory : Memory
  blocks : ℕ → Block
  links : Links ℕ
  granted : Finset ℕ
  /-- The blocks that the call in progress has returned to the upstream resource. -/
  returned : List ℕ

/-- The bytes that a request of `n` bytes takes, in whole units. -/
def span (n : UInt64) : ℕ := 64 * (neededUnits (neededSize n)).toNat

/-- Whether a request is served from the pool at all. -/
def Pooled (n : UInt64) : Prop := ¬ neededSize n > maxObjectSize - blockUnit

instance (n : UInt64) : Decidable (Pooled n) := inferInstanceAs (Decidable (¬ _))

theorem neededSize_toNat {n : UInt64} (small : n.toNat + 15 < 2 ^ 64) :
    (neededSize n).toNat = (n.toNat + 15) / 8 * 8 := by
  have eight : (8 : UInt64).toNat = 8 := rfl
  have seven : (7 : UInt64).toNat = 7 := rfl
  simp only [neededSize, UInt64.toNat_mul, UInt64.toNat_div, UInt64.toNat_add, eight, seven]
  omega

theorem neededUnits_toNat {n : UInt64} (positive : 1 ≤ n.toNat) :
    (neededUnits n).toNat = (n.toNat - 1) / 64 + 1 := by
  have one : (1 : UInt64).toNat = 1 := rfl
  have unit : blockUnit.toNat = 64 := rfl
  have bounded : n.toNat < 2 ^ 64 := n.toNat_lt
  have lower : (1 : UInt64) ≤ n := UInt64.le_iff_toNat_le.mpr positive
  simp only [neededUnits, UInt64.toNat_add, UInt64.toNat_div, UInt64.toNat_sub_of_le _ _ lower, one,
    unit]
  omega

theorem sizeClass_eq {n : UInt64} (positive : 1 ≤ n.toNat) : sizeClass n = (n.toNat - 1) / 64 := by
  have one : (1 : UInt64).toNat = 1 := rfl
  have unit : blockUnit.toNat = 64 := rfl
  have lower : (1 : UInt64) ≤ n := UInt64.le_iff_toNat_le.mpr positive
  simp only [sizeClass, UInt64.toNat_div, UInt64.toNat_sub_of_le _ _ lower, one, unit]

theorem pooled_iff {n : UInt64} : Pooled n ↔ (neededSize n).toNat ≤ 4032 := by
  have limit : (maxObjectSize - blockUnit).toNat = 4032 := rfl
  rw [Pooled, gt_iff_lt, UInt64.lt_iff_toNat_lt, limit, not_lt]

/-- The requests that are served from the pool and whose needed size does not wrap. -/
def Served (n : UInt64) : Prop := Pooled n ∧ n.toNat + 15 < 2 ^ 64

namespace Served

variable {n : UInt64}

theorem neededSize_bounds (served : Served n) :
    n.toNat + 8 ≤ (neededSize n).toNat ∧ 8 ∣ (neededSize n).toNat ∧
      (neededSize n).toNat ≤ 4032 := by
  have upper : (neededSize n).toNat ≤ 4032 := pooled_iff.mp served.1
  rw [neededSize_toNat served.2] at upper ⊢
  omega

theorem units_eq (served : Served n) :
    (neededUnits (neededSize n)).toNat = ((neededSize n).toNat - 1) / 64 + 1 := by
  obtain ⟨lower, -, -⟩ := served.neededSize_bounds
  exact neededUnits_toNat (by omega)

theorem units_bounds (served : Served n) :
    1 ≤ (neededUnits (neededSize n)).toNat ∧ (neededUnits (neededSize n)).toNat ≤ 63 := by
  obtain ⟨-, -, upper⟩ := served.neededSize_bounds
  rw [served.units_eq]
  omega

theorem sizeClass_add_one (served : Served n) :
    sizeClass (neededSize n) + 1 = (neededUnits (neededSize n)).toNat := by
  obtain ⟨lower, -, -⟩ := served.neededSize_bounds
  rw [served.units_eq, sizeClass_eq (by omega)]

theorem room (served : Served n) : n.toNat + 8 ≤ span n := by
  obtain ⟨lower, -, -⟩ := served.neededSize_bounds
  rw [span, served.units_eq]
  omega

/-- A word that holds one of the first `n` bytes is not the last of the object. -/
theorem word_before_last (served : Served n) {index : ℕ} (written : 8 * index < n.toNat) :
    8 * index + 16 ≤ span n := by
  obtain ⟨lower, aligned, -⟩ := served.neededSize_bounds
  rw [span, served.units_eq]
  omega

end Served

namespace Heap

/-- The address of `units[index]`. -/
def unit (base index : ℕ) : ℕ := base + 64 + 64 * index

/-- The address of the last word of an object of `units` units. -/
def lastWord (address units : ℕ) : ℕ := address + (units * 64 / 8 - 1) * 8

def extent (heap : Heap) (base : ℕ) : ℕ := (heap.blocks base).size.toNat

def store (heap : Heap) (address value : ℕ) : Heap :=
  { heap with memory := Function.update heap.memory address value }

/-- `block::allocate`. -/
def allocate (heap : Heap) (base : ℕ) (n : UInt64) : Option (ℕ × Heap) :=
  let block := heap.blocks base
  if block.Fits n then
    let res := unit base block.allocatingIndex.toNat
    let stamped := heap.store (lastWord res (neededUnits n).toNat) base
    let carved := { block with allocatingIndex := block.allocatingIndex + neededUnits n }
    some (res, { stamped with blocks := Function.update heap.blocks base carved })
  else none

/-- `block::deallocate`. -/
def deallocate (heap : Heap) (base : ℕ) (n : UInt64) : Heap :=
  let block := heap.blocks base
  let credited := { block with gavebackUnitCount := block.gavebackUnitCount + neededUnits n }
  { heap with blocks := Function.update heap.blocks base credited }

/-- `deallocate_bytes` of the upstream resource. -/
def release (heap : Heap) (base : ℕ) : Heap :=
  { heap with granted := heap.granted.erase base, returned := base :: heap.returned }

/-- The loop over the thread's blocks from `blist` on: the object found, and the head of the
list.  `fuel` bounds the number of turns. -/
def scan (n : UInt64) : ℕ → Heap → ℕ → ℕ → Option (Option ℕ × Heap × ℕ)
  | 0, _, _, _ => none
  | fuel + 1, heap, blocksList, blist =>
      if blist = 0 then some (none, heap, blocksList)
      else
        match heap.allocate blist n with
        | some (address, next) => some (some address, next, blocksList)
        | none =>
            if (heap.blocks blist).canFree then
              let (links, head) := heap.links.unlink 0 blocksList blist
              scan n fuel ({ heap with links }.release blist) head (heap.links.next blist)
            else scan n fuel heap blocksList (heap.links.next blist)

/-- What the upstream resource may answer to a request of `size` bytes. -/
def Grantable (heap : Heap) (base size : ℕ) : Prop :=
  base ≠ 0 ∧ base % 4096 = 0 ∧ base + size ≤ 2 ^ 64 ∧ base ∉ heap.granted ∧
    ∀ other ∈ heap.granted, Apart base size other (heap.extent other)

instance (heap : Heap) (base size : ℕ) : Decidable (heap.Grantable base size) :=
  inferInstanceAs (Decidable (_ ∧ _ ∧ _ ∧ _ ∧ _))

/-- The upstream resource's answer put to use: the header is constructed in it. -/
def grant (heap : Heap) (base : ℕ) (block : Block) : Heap :=
  { heap with
    granted := insert base heap.granted
    blocks := Function.update heap.blocks base block }

/-- The new block is put in front of the thread's list. -/
def push (heap : Heap) (blocksList base : ℕ) : Heap × ℕ :=
  let (links, head) := heap.links.pushFront 0 blocksList base
  ({ heap with links }, head)

end Heap

structure State (Thread : Type*) where
  heap : Heap
  pools : Thread → Pool
  /-- The pooled objects that the callers hold, with the `n` each asked for. -/
  live : ℕ → Option UInt64

inductive Label (Thread : Type*) where
  /-- `upstream` is the answer of the upstream resource, should it be asked; without one it
  throws. -/
  | allocate (thread : Thread) (n : UInt64) (upstream : Option ℕ)
  | deallocate (thread : Thread) (address : ℕ) (n : UInt64)
  /-- A caller writes a word of its object. -/
  | write (address index value : ℕ)
  /-- Anyone writes a word outside the granted blocks. -/
  | foreign (address value : ℕ)

namespace State

variable {Thread : Type*}

/-- The call returns an object to its caller. -/
def handOut (state : State Thread) (address : ℕ) (n : UInt64) : State Thread :=
  { state with live := Function.update state.live address (some n) }

/-- A write of the word `index` of an object reaches only words that hold one of its first
`n` bytes. -/
def write (state : State Thread) (address index value : ℕ) : Option (State Thread) :=
  match state.live address with
  | some n =>
      if 8 * index < n.toNat then
        some { state with heap := state.heap.store (address + 8 * index) value }
      else none
  | none => none

def foreign (state : State Thread) (address value : ℕ) : Option (State Thread) :=
  if ∀ base ∈ state.heap.granted, Apart address 8 base (state.heap.extent base) then
    some { state with heap := state.heap.store address value }
  else none

/-- No call has returned a block yet. -/
def quiet (state : State Thread) : State Thread :=
  { state with heap := { state.heap with returned := [] } }

/-- More turns than a list of granted blocks can take. -/
def turns (state : State Thread) : ℕ := state.heap.granted.card + 1

variable [DecidableEq Thread]

def setPool (state : State Thread) (thread : Thread) (pool : Pool) : State Thread :=
  { state with pools := Function.update state.pools thread pool }

/-- `allocate` once the thread's blocks have no room: a new block, and the object from it. -/
def expand (state : State Thread) (thread : Thread) (n : UInt64) (pool : Pool) :
    Option ℕ → Option (State Thread)
  | none => some (state.setPool thread pool)
  | some base =>
      let block := Block.ofCount (1 <<< pool.blockAllocateExp)
      if state.heap.Grantable base block.size.toNat then
        let (pushed, head) := (state.heap.grant base block).push pool.blocksList base
        let next := state.setPool thread { pool with blocksList := head }
        match pushed.allocate base (neededSize n) with
        | some (address, heap) => some ({ next with heap }.handOut address n)
        | none => some { next with heap := pushed }
      else none

/-- `allocate`.  A large object is the upstream resource's, outside the granted blocks. -/
def allocate (state : State Thread) (thread : Thread) (n : UInt64) (upstream : Option ℕ) :
    Option (State Thread) :=
  if Pooled n then
    let pool := state.pools thread
    let counted := { pool with allocateCount := pool.allocateCount + 1 }
    let index := sizeClass (neededSize n)
    let obj := pool.freelist index
    if obj ≠ 0 then
      some ((state.setPool thread (pool.hit index (state.heap.memory obj))).handOut obj n)
    else
      match Heap.scan (neededSize n) state.turns state.heap pool.blocksList pool.blocksList with
      | some (some address, heap, head) =>
          some (({ state with heap }.setPool thread { counted with blocksList := head }).handOut
            address n)
      | some (none, heap, head) =>
          { state with heap }.expand thread n { pool.missed with blocksList := head } upstream
      | none => none
  else some state

/-- `deallocate`, enabled for an object with the `n` it was asked for with. -/
def deallocate (state : State Thread) (thread : Thread) (address : ℕ) (n : UInt64) :
    Option (State Thread) :=
  if Pooled n then
    if state.live address = some n then
      let pool := state.pools thread
      let index := sizeClass (neededSize n)
      let head := pool.freelist index
      let dropped := { state with live := Function.update state.live address none }
      if head = 0 ∨ state.heap.memory (head + 8) ≤ givebackThreshold then
        let linked := state.heap.store address head
        let length := if head ≠ 0 then linked.memory (head + 8) + 1 else 1
        let pushed := { pool with freelist := Function.update pool.freelist index address }
        some ({ dropped with heap := linked.store (address + 8) length }.setPool thread pushed)
      else
        let units := (neededUnits (neededSize n)).toNat
        let thisBlock := state.heap.memory (Heap.lastWord address units)
        some { dropped with heap := state.heap.deallocate thisBlock (neededSize n) }
    else none
  else some state

def move (state : State Thread) : Label Thread → Option (State Thread)
  | .allocate thread n upstream => state.quiet.allocate thread n upstream
  | .deallocate thread address n => state.quiet.deallocate thread address n
  | .write address index value => state.quiet.write address index value
  | .foreign address value => state.quiet.foreign address value

def initial (memory : Memory) : State Thread where
  heap :=
    { memory
      blocks := fun _ => Block.ofCount 0
      links := ⟨fun _ => 0, fun _ => 0⟩
      granted := ∅
      returned := [] }
  pools _ := Pool.empty
  live _ := none

def machine (Thread : Type*) [DecidableEq Thread] : Machine (State Thread) (Label Thread) where
  start state := ∃ memory, state = initial memory
  move := move

end State

end Asco.Core.Mm
