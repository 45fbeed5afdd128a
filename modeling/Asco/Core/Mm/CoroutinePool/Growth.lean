import Asco.Core.Mm.CoroutinePool.Storage

namespace Asco.Core.Mm

open Foundation

/-! # The growth of the blocks

The exponent rises while the requests are fewer than three times the misses.  A miss makes up
for its rise by the objects that the new block must serve before the next miss; a refused one
does not.
-/

/-- The exponent follows the ratio of requests to misses. -/
theorem Pool.updateBlockAllocateExp_exp (pool : Pool) (small : pool.blockAllocateExp.toNat ≤ 51) :
    pool.updateBlockAllocateExp.blockAllocateExp.toNat =
      if pool.blockMissCount.toNat = 0 then pool.blockAllocateExp.toNat
      else if pool.allocateCount.toNat < 3 * pool.blockMissCount.toNat then
        pool.blockAllocateExp.toNat + 1
      else pool.blockAllocateExp.toNat - 1 := by
  have one : (1 : UInt64).toNat = 1 := rfl
  have two : (2 : UInt64).toNat = 2 := rfl
  have zero : (0 : UInt64).toNat = 0 := rfl
  have missless : pool.blockMissCount = 0 ↔ pool.blockMissCount.toNat = 0 := by
    rw [← UInt64.toNat_inj, zero]
  have expless : pool.blockAllocateExp = 0 ↔ pool.blockAllocateExp.toNat = 0 := by
    rw [← UInt64.toNat_inj, zero]
  unfold updateBlockAllocateExp
  by_cases none : pool.blockMissCount.toNat = 0
  · rw [if_pos (missless.mpr none), if_pos none]
  · have ratio : pool.allocateCount / pool.blockMissCount ≤ 2 ↔
        pool.allocateCount.toNat < 3 * pool.blockMissCount.toNat := by
      rw [UInt64.le_iff_toNat_le, UInt64.toNat_div, two, ← Nat.lt_succ_iff,
        Nat.div_lt_iff_lt_mul (Nat.pos_of_ne_zero none)]
    rw [if_neg (mt missless.mp none), if_neg none]
    by_cases rises : pool.allocateCount.toNat < 3 * pool.blockMissCount.toNat
    · rw [if_pos (ratio.mpr rises), if_pos rises, UInt64.toNat_add, one,
        Nat.mod_eq_of_lt (by omega)]
    · rw [if_neg (mt ratio.mp rises), if_neg rises]
      by_cases least : pool.blockAllocateExp.toNat = 0
      · simp only [if_pos (expless.mpr least), zero, least]
      · have lower : (1 : UInt64) ≤ pool.blockAllocateExp := by
          rw [UInt64.le_iff_toNat_le, one]
          omega
        simp only [if_neg (mt expless.mp least), UInt64.toNat_sub_of_le _ _ lower, one]

theorem Pool.updateBlockAllocateExp_counts (pool : Pool) :
    pool.updateBlockAllocateExp.allocateCount = pool.allocateCount ∧
      pool.updateBlockAllocateExp.blockMissCount = pool.blockMissCount := by
  unfold updateBlockAllocateExp
  split
  · exact ⟨rfl, rfl⟩
  · split <;> exact ⟨rfl, rfl⟩

theorem toNat_add_one {count : UInt64} (few : count.toNat + 1 < 2 ^ 64) :
    (count + 1).toNat = count.toNat + 1 := by
  rw [UInt64.toNat_add, UInt64.toNat_one, Nat.mod_eq_of_lt few]

/-- The exponent and the surplus of misses over requests are bounded by the objects of 63 units
that the thread's first block still has room for. -/
structure Pool.Bounded (pool : Pool) (room : ℕ) : Prop where
  settled : pool.blockAllocateExp.toNat + 3 * pool.blockMissCount.toNat ≤
    49 + pool.allocateCount.toNat + room / 63
  rising : pool.allocateCount.toNat < 3 * pool.blockMissCount.toNat →
    pool.blockAllocateExp.toNat + 3 * pool.blockMissCount.toNat ≤ 52 + pool.allocateCount.toNat ∧
      1 ≤ pool.blockAllocateExp.toNat
  small : pool.blockAllocateExp.toNat ≤ 51
  misses : pool.blockMissCount.toNat ≤ pool.allocateCount.toNat

namespace Pool.Bounded

variable {pool : Pool} {room after : ℕ}

theorem empty : Pool.empty.Bounded 0 where
  settled := Nat.zero_le _
  rising fewer := absurd fewer (Nat.lt_irrefl 0)
  small := Nat.zero_le _
  misses := Nat.le_refl _

theorem hit (bounded : pool.Bounded room) (few : pool.allocateCount.toNat + 1 < 2 ^ 64)
    (index below : ℕ) : (pool.hit index below).Bounded room := by
  obtain ⟨settled, rising, small, misses⟩ := bounded
  obtain ⟨counts, missed⟩ := Pool.updateBlockAllocateExp_counts { pool with
    allocateCount := pool.allocateCount + 1
    freelist := Function.update pool.freelist index below }
  have exp := Pool.updateBlockAllocateExp_exp { pool with
    allocateCount := pool.allocateCount + 1
    freelist := Function.update pool.freelist index below } small
  simp only [toNat_add_one few] at exp
  constructor
  case settled =>
    rw [Pool.hit, counts, missed, exp]
    simp only [toNat_add_one few]
    split <;> [skip; split] <;> omega
  case rising =>
    rw [Pool.hit, counts, missed, exp]
    simp only [toNat_add_one few]
    intro fewer
    have before := rising (by omega)
    rw [if_neg (by omega), if_pos fewer]
    omega
  case small =>
    rw [Pool.hit, exp]
    split <;> [skip; split] <;> omega
  case misses =>
    rw [Pool.hit, counts, missed]
    simp only [toNat_add_one few]
    omega

/-- A request that a block served, of at most 63 units. -/
theorem served (bounded : pool.Bounded room) (few : pool.allocateCount.toNat + 1 < 2 ^ 64)
    (spent : room / 63 ≤ after / 63 + 1) {blocksList : ℕ} :
    Pool.Bounded { pool with allocateCount := pool.allocateCount + 1, blocksList } after := by
  obtain ⟨settled, rising, small, misses⟩ := bounded
  constructor
  case settled =>
    simp only [toNat_add_one few]
    omega
  case rising =>
    simp only [toNat_add_one few]
    intro fewer
    have before := rising (by omega)
    omega
  case small => exact small
  case misses =>
    simp only [toNat_add_one few]
    omega

theorem missed_counts (bounded : pool.Bounded room)
    (few : pool.allocateCount.toNat + 1 < 2 ^ 64) :
    pool.missed.allocateCount.toNat = pool.allocateCount.toNat + 1 ∧
      pool.missed.blockMissCount.toNat = pool.blockMissCount.toNat + 1 ∧
      pool.missed.blockAllocateExp.toNat =
        if pool.allocateCount.toNat + 1 < 3 * (pool.blockMissCount.toNat + 1) then
          pool.blockAllocateExp.toNat + 1
        else pool.blockAllocateExp.toNat - 1 := by
  have misses := bounded.misses
  have missFew : pool.blockMissCount.toNat + 1 < 2 ^ 64 := by omega
  obtain ⟨counts, missed⟩ := Pool.updateBlockAllocateExp_counts { pool with
    allocateCount := pool.allocateCount + 1, blockMissCount := pool.blockMissCount + 1 }
  have exp := Pool.updateBlockAllocateExp_exp { pool with
    allocateCount := pool.allocateCount + 1
    blockMissCount := pool.blockMissCount + 1 } bounded.small
  simp only [toNat_add_one few, toNat_add_one missFew] at exp
  rw [if_neg (Nat.succ_ne_zero _)] at exp
  rw [Pool.missed, counts, missed]
  exact ⟨toNat_add_one few, toNat_add_one missFew, exp⟩

/-- A miss that the upstream resource does not make up for. -/
theorem refused (bounded : pool.Bounded room) (few : pool.allocateCount.toNat + 1 < 2 ^ 64)
    (spare : pool.missed.blockAllocateExp.toNat + 3 * pool.missed.blockMissCount.toNat ≤
      49 + pool.missed.allocateCount.toNat) {blocksList : ℕ} :
    Pool.Bounded { pool.missed with blocksList } after := by
  obtain ⟨counts, missed, exp⟩ := bounded.missed_counts few
  obtain ⟨settled, rising, small, misses⟩ := bounded
  rw [counts, missed] at spare
  constructor
  case settled =>
    rw [counts, missed]
    simp only
    omega
  case rising =>
    rw [counts, missed]
    intro fewer
    rw [if_pos fewer] at exp
    simp only
    omega
  case small =>
    simp only
    split at exp <;> omega
  case misses =>
    rw [counts, missed]
    omega

/-- A miss in a pool whose first block has no room for 63 units, and whose new block has room
for all its units but those of the first object. -/
theorem granted (bounded : pool.Bounded room) (few : pool.allocateCount.toNat + 1 < 2 ^ 64)
    (full : room < 63)
    (fresh : 64 * 2 ^ pool.missed.blockAllocateExp.toNat ≤ after + 64) {blocksList : ℕ} :
    Pool.Bounded { pool.missed with blocksList } after := by
  obtain ⟨counts, missed, exp⟩ := bounded.missed_counts few
  obtain ⟨settled, rising, small, misses⟩ := bounded
  have none : room / 63 = 0 := Nat.div_eq_of_lt full
  have objects : 2 ^ pool.missed.blockAllocateExp.toNat ≤ after / 63 + 1 := by
    omega
  have power : pool.missed.blockAllocateExp.toNat <
      2 ^ pool.missed.blockAllocateExp.toNat := Nat.lt_two_pow_self
  by_cases rises : pool.allocateCount.toNat + 1 < 3 * (pool.blockMissCount.toNat + 1)
  · rw [if_pos rises] at exp
    have rest : pool.blockAllocateExp.toNat = 0 →
        3 * pool.blockMissCount.toNat ≤ pool.allocateCount.toNat := by
      intro least
      by_contra fewer
      have positive := (rising (by omega)).2
      omega
    have double : 1 ≤ pool.blockAllocateExp.toNat →
        4 ≤ 2 ^ pool.missed.blockAllocateExp.toNat := by
      intro positive
      rw [exp]
      calc 4 = 2 ^ 2 := rfl
        _ ≤ 2 ^ (pool.blockAllocateExp.toNat + 1) := Nat.pow_le_pow_right (by omega) (by omega)
    constructor
    case settled =>
      rw [counts, missed]
      simp only
      omega
    case rising =>
      rw [counts, missed]
      simp only
      omega
    case small =>
      simp only
      omega
    case misses =>
      rw [counts, missed]
      omega
  · rw [if_neg rises] at exp
    constructor
    case settled =>
      rw [counts, missed]
      simp only
      omega
    case rising =>
      rw [counts, missed]
      exact fun fewer => absurd fewer rises
    case small =>
      simp only
      omega
    case misses =>
      rw [counts, missed]
      omega

end Pool.Bounded

/-- The units that are not carved yet. -/
def Block.room (block : Block) : ℕ := block.unitCount.toNat - block.allocatingIndex.toNat

theorem Block.room_lt {block : Block} {n : UInt64}
    (bumped : block.allocatingIndex.toNat ≤ block.unitCount.toNat)
    (bounded : block.unitCount.toNat + 63 < 2 ^ 64) (few : (neededUnits n).toNat ≤ 63)
    (full : ¬ block.Fits n) : block.room < 63 := by
  rw [Heap.fits_iff (UInt64.le_iff_toNat_le.mpr bumped) bounded few] at full
  rw [Block.room]
  omega

namespace State

variable {Thread : Type*}

/-- The room of the first block of a thread's list. -/
def room (state : State Thread) (thread : Thread) : ℕ :=
  if state.listHead thread = 0 then 0 else (state.heap.blocks (state.listHead thread)).room

/-- The needed size of a request does not wrap nor does the number of the thread's requests, and
the upstream resource refuses a block only while the misses have not outrun the requests. -/
def Affords (state : State Thread) : Label Thread → Prop
  | .allocate thread n upstream =>
      n.toNat + 15 < 2 ^ 64 ∧ (state.pools thread).allocateCount.toNat + 1 < 2 ^ 64 ∧
        (state.NeedsBlock thread n → upstream = none →
          (state.pools thread).missed.blockAllocateExp.toNat +
            3 * (state.pools thread).missed.blockMissCount.toNat ≤
              49 + (state.pools thread).missed.allocateCount.toNat)
  | _ => True

instance : DecidableRel (Affords : State Thread → Label Thread → Prop) :=
  fun _ label =>
    match label with
    | .allocate .. => inferInstanceAs (Decidable (_ ∧ _ ∧ _))
    | .deallocate .. | .write .. | .foreign .. => isTrue trivial

variable {state next : State Thread} {thread : Thread} {n : UInt64} {ledger : Ledger}
  {listed : Thread → ℕ → List ℕ} {lists : Thread → List ℕ}

/-- The first block of a list that a request passes over has room for less than 63 units. -/
theorem Kept.room_lt {passed remaining : List ℕ} (kept : state.Kept ledger listed lists)
    (served : Served n) (split : lists thread = passed ++ remaining)
    (full : ∀ base ∈ passed, ¬ (state.heap.blocks base).Fits (neededSize n))
    (some : passed ≠ [] ∨ remaining = []) : state.room thread < 63 := by
  have linked := kept.lists.linked thread
  rw [room]
  by_cases empty : state.listHead thread = 0
  · rw [if_pos empty]
    omega
  · rw [if_neg empty]
    have head : state.listHead thread ∈ passed := by
      have first := linked.head_eq
      rw [split] at first
      cases passed with
      | nil =>
          rw [some.resolve_left (fun other => other rfl)] at first
          exact absurd first empty
      | cons base others =>
          rw [first]
          exact List.mem_cons_self
    have granted := kept.lists.inside thread _ (split ▸ List.mem_append_left _ head)
    exact Block.room_lt (kept.accounts.bumped _ granted) (kept.accounts.measured _ granted).2
      served.units_bounds.2 (full _ head)

/-- The first block of a thread whose list and headers are as before. -/
theorem Kept.room_eq {other : Thread} (kept : state.Kept ledger listed lists)
    (head : next.listHead other = state.listHead other)
    (same : ∀ base ∈ lists other,
      (next.heap.blocks base).room = (state.heap.blocks base).room) :
    next.room other = state.room other := by
  rw [room, room, head]
  by_cases empty : state.listHead other = 0
  · rw [if_pos empty, if_pos empty]
  · have first := (kept.lists.linked other).head_eq
    have member : state.listHead other ∈ lists other := by
      cases shape : lists other with
      | nil =>
          rw [shape] at first
          exact absurd first empty
      | cons base others =>
          rw [shape] at first
          rw [first]
          exact List.mem_cons_self
    rw [if_neg empty, if_neg empty, same _ member]

theorem Kept.missed_room {heap : Heap} (kept : state.Kept ledger listed lists) (served : Served n)
    (scanned : Heap.Scanned (neededSize n) state.heap ledger (lists thread) (lists thread) [] none
      heap) : state.room thread < 63 :=
  kept.room_lt served (List.append_nil _).symm scanned.full (.inr rfl)

/-- The exponent of a new block. -/
theorem Kept.missed_small {heap : Heap} (kept : state.Kept ledger listed lists)
    (bounded : (state.pools thread).Bounded (state.room thread))
    (few : (state.pools thread).allocateCount.toNat + 1 < 2 ^ 64) (served : Served n)
    (scanned : Heap.Scanned (neededSize n) state.heap ledger (lists thread) (lists thread) [] none
      heap) : (state.pools thread).missed.blockAllocateExp.toNat < 52 := by
  have granted : Pool.Bounded { (state.pools thread).missed with
      blocksList := 0 } (64 * 2 ^ (state.pools thread).missed.blockAllocateExp.toNat) :=
    bounded.granted few (kept.missed_room served scanned) (Nat.le_add_right _ _)
  exact Nat.lt_succ_of_le granted.small

/-- Only `allocate` changes the exponent, the counters and what is carved from a block. -/
theorem bounded_of_same (bounded : ∀ other, (state.pools other).Bounded (state.room other))
    (pools : ∀ other, ∃ freelist, next.pools other = { state.pools other with freelist })
    (rooms : ∀ base, (next.heap.blocks base).room = (state.heap.blocks base).room) :
    ∀ other, (next.pools other).Bounded (next.room other) := by
  intro other
  obtain ⟨freelist, same⟩ := pools other
  have room : next.room other = state.room other := by
    rw [State.room, State.room, listHead, same, rooms]
    rfl
  obtain ⟨settled, rising, small, misses⟩ := bounded other
  rw [room, same]
  exact ⟨settled, rising, small, misses⟩

theorem write_bounded {address index value : ℕ}
    (bounded : ∀ other, (state.pools other).Bounded (state.room other))
    (moved : state.write address index value = some next) :
    ∀ other, (next.pools other).Bounded (next.room other) := by
  unfold State.write at moved
  split at moved
  · split at moved
    · cases moved
      exact bounded
    · contradiction
  · contradiction

theorem foreign_bounded {address value : ℕ}
    (bounded : ∀ other, (state.pools other).Bounded (state.room other))
    (moved : state.foreign address value = some next) :
    ∀ other, (next.pools other).Bounded (next.room other) := by
  unfold State.foreign at moved
  split at moved
  · cases moved
    exact bounded
  · contradiction

/-- A request that affords what it asks for is one whose block does not wrap. -/
theorem Kept.admits {label : Label Thread} (kept : state.Kept ledger listed lists)
    (affords : state.Affords label)
    (bounded : ∀ other, (state.pools other).Bounded (state.room other)) : state.Admits label := by
  cases label with
  | allocate thread n upstream =>
      obtain ⟨small, few, -⟩ := affords
      refine ⟨small, ?_⟩
      intro needs _
      obtain ⟨pooled, -, full⟩ := needs
      rw [kept.blocksOf_eq] at full
      have fresh : Pool.Bounded { (state.pools thread).missed with
          blocksList := 0 } (64 * 2 ^ (state.pools thread).missed.blockAllocateExp.toNat) :=
        (bounded thread).granted few (kept.room_lt ⟨pooled, small⟩ (List.append_nil _).symm full
          (.inr rfl)) (Nat.le_add_right _ _)
      exact Nat.lt_succ_of_le fresh.small
  | deallocate thread address n => trivial
  | write address index value => trivial
  | «foreign» address value => trivial

variable [DecidableEq Thread]

/-- What the grant of a block leaves: an object carved from its first unit on. -/
theorem expand_grants {pool : Pool} {base : ℕ} (small : pool.blockAllocateExp.toNat < 52)
    (served : Served n) (moved : state.expand thread n pool (some base) = some next) :
    state.heap.Grantable base (Block.ofCount (1 <<< pool.blockAllocateExp)).size.toNat ∧
      next.live = Function.update state.live (base + 64) (some n) ∧
      next.pools = Function.update state.pools thread { pool with blocksList := base } ∧
      next.heap.blocks = Function.update state.heap.blocks base
        { Block.ofCount (1 <<< pool.blockAllocateExp) with
          allocatingIndex := 0 + neededUnits (neededSize n) } := by
  have fits := Heap.ofCount_fits small served.units_bounds.2
  by_cases grantable : state.heap.Grantable base
      (Block.ofCount (1 <<< pool.blockAllocateExp)).size.toNat
  · refine ⟨grantable, ?_⟩
    simp only [State.expand, if_pos grantable] at moved
    have index : (Block.ofCount (1 <<< pool.blockAllocateExp)).allocatingIndex = 0 := rfl
    generalize Block.ofCount (1 <<< pool.blockAllocateExp) = block at *
    have header : ((state.heap.grant base block).push pool.blocksList base).1.blocks base = block :=
      Function.update_self ..
    cases allocated : ((state.heap.grant base block).push pool.blocksList base).1.allocate base
        (neededSize n) with
    | none =>
        rw [Heap.allocate, header] at allocated
        simp [fits] at allocated
    | some obtained =>
        obtain ⟨address, heap⟩ := obtained
        obtain ⟨-, place, result⟩ := Heap.allocate_eq_some allocated
        rw [header, index] at place
        simp only [allocated, Option.some.injEq] at moved
        subst moved
        refine ⟨by rw [place]; rfl, ?_, ?_⟩
        · have top : ((state.heap.grant base block).push pool.blocksList base).2 = base :=
            Links.pushFront_snd
          simp only [handOut, setPool, top]
        · simp only [handOut, result, header, index]
          exact Function.update_idem ..
  · simp only [State.expand, if_neg grantable] at moved
    contradiction

theorem Kept.allocate_bounded {upstream : Option ℕ} (kept : state.Kept ledger listed lists)
    (affords : state.Affords (.allocate thread n upstream))
    (bounded : ∀ other, (state.pools other).Bounded (state.room other))
    (moved : state.allocate thread n upstream = some next) :
    ∀ other, (next.pools other).Bounded (next.room other) := by
  obtain ⟨small, few, refusal⟩ := affords
  have mine := bounded thread
  cases kept.allocates small moved with
  | large notPooled result => exact result ▸ bounded
  | @hit address served top present result =>
      subst result
      intro other
      have head : (state.setPool thread ((state.pools thread).hit (sizeClass (neededSize n))
          (state.heap.memory address))).listHead = state.listHead :=
        listHead_setPool_same (Pool.hit_blocksList ..)
      have room : State.room (handOut (state.setPool thread ((state.pools thread).hit
          (sizeClass (neededSize n)) (state.heap.memory address))) address n) other =
            state.room other :=
        kept.room_eq (congrFun head other) fun _ _ => rfl
      rw [room]
      by_cases here : other = thread
      · subst here
        simp only [handOut, setPool, Function.update_self]
        exact mine.hit few _ _
      · simp only [handOut, setPool, Function.update_of_ne here]
        exact bounded other
  | @found heap address head passed remaining served split linked scanned result =>
      have pools : next.pools = Function.update state.pools thread { state.pools thread with
          allocateCount := (state.pools thread).allocateCount + 1
          blocksList := head } := by
        rw [result]
        rfl
      have heaps : next.heap = heap := by
        rw [result]
        rfl
      intro other
      obtain ⟨base, rest, tail, -, -, blocks⟩ := scanned.obtained address rfl
      have baseMember : base ∈ lists thread := by
        rw [split, tail]
        exact List.mem_append_right _ List.mem_cons_self
      by_cases here : other = thread
      · subst here
        have after : next.listHead other = head := by
          simp only [listHead, pools, Function.update_self]
        rw [pools, Function.update_self]
        apply mine.served few
        by_cases passing : passed = []
        · -- the first block has served the request
          subst passing
          rw [tail, List.nil_append] at split
          have first : state.listHead other = base := by
            rw [(kept.lists.linked other).head_eq, split, List.headD_cons]
          have start : head = base := by
            rw [linked.head_eq, tail]
            rfl
          have present : base ≠ 0 := (kept.lists.linked other).ne_null baseMember
          have granted := kept.lists.inside other base baseMember
          have bumped := kept.accounts.bumped base granted
          have bounded := (kept.accounts.measured base granted).2
          have units := served.units_bounds.2
          have raised : ((state.heap.blocks base).allocatingIndex +
              neededUnits (neededSize n)).toNat =
                (state.heap.blocks base).allocatingIndex.toNat +
                  (neededUnits (neededSize n)).toNat := by
            rw [UInt64.toNat_add, Nat.mod_eq_of_lt (by omega)]
          rw [room, room, after, first, start, if_neg present, if_neg present, heaps, blocks,
            Function.update_self, Block.room, Block.room, raised]
          simp only
          omega
        · have few := kept.room_lt served split scanned.full (.inl passing)
          rw [Nat.div_eq_of_lt few]
          exact Nat.zero_le _
      · have room : next.room other = state.room other := by
          apply kept.room_eq
          · simp only [listHead, pools, Function.update_of_ne here]
          · intro block member
            have different : block ≠ base := by
              intro same
              exact here (kept.lists.exclusive _ _ _ member (same ▸ baseMember))
            rw [heaps, blocks, Function.update_of_ne different]
        rw [room, pools, Function.update_of_ne here]
        exact bounded other
  | @missed heap head served empty linked scanned result =>
      obtain ⟨-, -, -, blocks⟩ := scanned.missed rfl
      have needs : state.NeedsBlock thread n := by
        refine ⟨served.1, empty, ?_⟩
        rw [kept.blocksOf_eq]
        exact scanned.full
      intro other
      cases upstream with
      | none =>
          simp only [State.expand, Option.some.injEq] at result
          subst result
          by_cases here : other = thread
          · subst here
            simp only [setPool, Function.update_self]
            exact mine.refused few (refusal needs rfl)
          · have room : State.room (State.setPool { state with heap } thread {
                (state.pools thread).missed with blocksList := head }) other =
                  state.room other := by
              apply kept.room_eq
              · simp only [setPool, listHead, Function.update_of_ne here]
              · intro block _
                simp only [setPool, blocks]
            rw [room]
            simp only [setPool, Function.update_of_ne here]
            exact bounded other
      | some base =>
          have exp : ({ (state.pools thread).missed with
              blocksList := head } : Pool).blockAllocateExp.toNat < 52 :=
            kept.missed_small mine few served scanned
          obtain ⟨grantable, -, pools, blocksAfter⟩ := expand_grants exp served result
          obtain ⟨nonzero, -, -, fresh, -⟩ := grantable
          by_cases here : other = thread
          · subst here
            rw [pools, Function.update_self]
            apply mine.granted few (kept.missed_room served scanned)
            obtain ⟨-, units⟩ := Heap.ofCount_shift exp
            have count := served.units_bounds.2
            have first : (0 + neededUnits (neededSize n)).toNat =
                (neededUnits (neededSize n)).toNat := by rw [UInt64.zero_add]
            have top : next.listHead other = base := by
              simp only [listHead, pools, Function.update_self]
            rw [room, top, if_neg nonzero, blocksAfter, Function.update_self, Block.room]
            simp only [first]
            simp only at units
            omega
          · have room : next.room other = state.room other := by
              apply kept.room_eq
              · simp only [listHead, pools, Function.update_of_ne here]
              · intro block member
                have different : block ≠ base := by
                  intro same
                  apply fresh
                  rw [← same, scanned.granted block]
                  refine ⟨kept.lists.inside other block member, ?_⟩
                  intro gone
                  exact here (kept.lists.exclusive _ _ _ member gone.1)
                rw [blocksAfter, Function.update_of_ne different]
                simp only [blocks]
            rw [room, pools, Function.update_of_ne here]
            exact bounded other

theorem deallocate_bounded {address : ℕ}
    (bounded : ∀ other, (state.pools other).Bounded (state.room other))
    (moved : state.deallocate thread address n = some next) :
    ∀ other, (next.pools other).Bounded (next.room other) := by
  by_cases pooled : Pooled n
  · by_cases held : state.live address = some n
    · simp only [State.deallocate, if_pos pooled, if_pos held] at moved
      split at moved
      · cases moved
        apply bounded_of_same bounded
        · intro other
          by_cases here : other = thread
          · subst here
            exact ⟨_, Function.update_self ..⟩
          · exact ⟨_, Function.update_of_ne here ..⟩
        · exact fun _ => rfl
      · cases moved
        apply bounded_of_same bounded
        · exact fun _ => ⟨_, rfl⟩
        · intro base
          simp only [Heap.deallocate]
          rw [Function.update_apply]
          split
          · rename_i same
            rw [same]
            rfl
          · rfl
    · simp [State.deallocate, pooled, held] at moved
  · simp only [State.deallocate, if_neg pooled, Option.some.injEq] at moved
    exact moved ▸ bounded

theorem Kept.bounded_step {label : Label Thread} (kept : state.Kept ledger listed lists)
    (affords : state.Affords label)
    (bounded : ∀ other, (state.pools other).Bounded (state.room other))
    (moved : state.move label = some next) :
    ∀ other, (next.pools other).Bounded (next.room other) := by
  have still : ∀ other, (state.quiet.pools other).Bounded (state.quiet.room other) := bounded
  cases label with
  | allocate thread n upstream => exact kept.quiet.allocate_bounded affords still moved
  | deallocate thread address n => exact deallocate_bounded still moved
  | write address index value => exact write_bounded still moved
  | «foreign» address value => exact foreign_bounded still moved

theorem bounded_of_reachable (reachable : (machine Thread).Reachable Affords state) :
    (∃ ledger listed lists, state.Kept ledger listed lists) ∧
      ∀ thread, (state.pools thread).Bounded (state.room thread) := by
  apply reachable.invariant
  · intro first started
    obtain ⟨memory, same⟩ := started
    subst same
    exact ⟨⟨_, _, _, initial_kept memory⟩, fun _ => Pool.Bounded.empty⟩
  · intro state label next holds affords moved
    obtain ⟨⟨ledger, listed, lists, kept⟩, bounded⟩ := holds
    exact ⟨(kept.move (kept.admits affords bounded) moved).1,
      kept.bounded_step affords bounded moved⟩

/-- The exponents are in range, and a block that a request is granted is as long as they say
and serves the request. -/
structure InRange (state : State Thread) : Prop where
  exponents : ∀ thread, (state.pools thread).blockAllocateExp.toNat < 52
  serves : ∀ thread n base next, state.Affords (.allocate thread n (some base)) →
    state.NeedsBlock thread n → state.move (.allocate thread n (some base)) = some next →
      next.heap.extent base = 4096 * 2 ^ (next.pools thread).blockAllocateExp.toNat ∧
        next.live (base + 64) = some n ∧ base + 64 + span n ≤ base + next.heap.extent base

theorem inRange_of_affords (reachable : (machine Thread).Reachable Affords state) :
    state.InRange := by
  obtain ⟨⟨ledger, listed, lists, kept⟩, bounded⟩ := bounded_of_reachable reachable
  constructor
  case exponents => exact fun thread => Nat.lt_succ_of_le (bounded thread).small
  case serves =>
    intro thread n base next affords needs moved
    obtain ⟨small, few, -⟩ := affords
    obtain ⟨pooled, empty, full⟩ := needs
    rw [kept.blocksOf_eq] at full
    cases kept.quiet.allocates small moved with
    | large notPooled result => exact absurd pooled notPooled
    | hit served top present result => exact absurd (top.symm.trans empty) present
    | @found heap address head passed remaining served split linked scanned result =>
        obtain ⟨block, rest, tail, fits, -, -⟩ := scanned.obtained address rfl
        have member : block ∈ lists thread := by
          rw [split, tail]
          exact List.mem_append_right _ List.mem_cons_self
        exact absurd fits (full block member)
    | @missed heap head served head_empty linked scanned result =>
        have exp : ({ (state.pools thread).missed with
            blocksList := head } : Pool).blockAllocateExp.toNat < 52 :=
          kept.quiet.missed_small (bounded thread) few served scanned
        obtain ⟨grantable, live, pools, blocks⟩ := expand_grants exp served result
        obtain ⟨size, units⟩ := Heap.ofCount_shift exp
        have count := served.units_bounds.2
        have extent : next.heap.extent base =
            4096 * 2 ^ (next.pools thread).blockAllocateExp.toNat := by
          rw [Heap.extent, blocks, Function.update_self, pools, Function.update_self]
          exact size
        have grown : (next.pools thread).blockAllocateExp =
            ({ (state.pools thread).missed with
              blocksList := head } : Pool).blockAllocateExp := by
          rw [pools, Function.update_self]
        refine ⟨extent, ?_, ?_⟩
        · rw [live]
          exact Function.update_self ..
        · rw [extent, grown, span]
          omega

theorem inRange_of_affords_refused : ∃ state : State Bool,
    (machine Bool).Reachable Affords state ∧
      (state.heap.extent 16384 = 16384 ∧ state.live 16448 = some 100) ∧ state.InRange := by
  obtain ⟨state, reachable, granted⟩ := Machine.reachable_of_any (machine Bool) Affords
    (initial fun _ => 0) [.allocate false 100 none, .allocate false 100 (some 16384)]
    (fun state => state.heap.extent 16384 = 16384 ∧ state.live 16448 = some 100)
    ⟨fun _ => 0, rfl⟩ (by decide +kernel)
  exact ⟨state, reachable, granted, inRange_of_affords reachable⟩

theorem exponent_out_of_range : ∃ state : State Bool,
    (machine Bool).Reachable Machine.free state ∧ ¬ state.InRange := by
  obtain ⟨state, reachable, large⟩ := Machine.reachable_of_any (machine Bool) Machine.free
    (initial fun _ => 0) (List.replicate 52 (.allocate false 1 none))
    (fun state => (state.pools false).blockAllocateExp.toNat = 52)
    ⟨fun _ => 0, rfl⟩ (by decide +kernel)
  refine ⟨state, reachable, ?_⟩
  intro inRange
  have small := inRange.exponents false
  omega

end State

end Asco.Core.Mm
