import Asco.Core.Mm.CoroutinePool.Freelists
import Asco.Core.Mm.CoroutinePool.Scan

namespace Asco.Core.Mm

open Foundation

/-! # The storage that the callers hold

The objects of the account are live or on a freelist.  A request whose size wraps, or for a
block whose size does, gets storage that is not its own.
-/

variable {Thread : Type*}

namespace State

def head (state : State Thread) (thread : Thread) : ℕ → ℕ := (state.pools thread).freelist

/-- The object is on a freelist of the size class. -/
def Listed (state : State Thread) (address index : ℕ) : Prop :=
  ∃ thread, OnChain 0 state.heap.memory (state.head thread index) address

structure Sound (state : State Thread) : Prop where
  housed : ∀ address n, state.live address = some n → ∃ base ∈ state.heap.granted,
    base + 64 ≤ address ∧ address + span n ≤ base + state.heap.extent base ∧
      state.heap.memory (Heap.lastWord address (neededUnits (neededSize n)).toNat) = base
  spanning : ∀ address n, state.live address = some n → n.toNat + 8 ≤ span n
  apart : ∀ address n other m, state.live address = some n → state.live other = some m →
    address ≠ other → Apart address (span n) other (span m)
  unlisted : ∀ address n other index, state.live address = some n → state.Listed other index →
    Apart address (span n) other (64 * (index + 1))

/-- No live object and none on a freelist lies in the block. -/
structure Unused (state : State Thread) (base : ℕ) : Prop where
  live : ∀ address n, state.live address = some n →
    Apart address (span n) base (state.heap.extent base)
  listed : ∀ address index, state.Listed address index →
    Apart address (64 * (index + 1)) base (state.heap.extent base)

/-- The blocks that are met from the head of the thread's list on. -/
def blocksOf (state : State Thread) (thread : Thread) : List ℕ :=
  state.heap.links.walk 0 state.turns (state.pools thread).blocksList

/-- The request finds its freelist empty and no room in the thread's blocks. -/
def NeedsBlock (state : State Thread) (thread : Thread) (n : UInt64) : Prop :=
  Pooled n ∧ (state.pools thread).freelist (sizeClass (neededSize n)) = 0 ∧
    ∀ base ∈ state.blocksOf thread, ¬ (state.heap.blocks base).Fits (neededSize n)

instance (state : State Thread) (thread : Thread) (n : UInt64) :
    Decidable (state.NeedsBlock thread n) :=
  inferInstanceAs (Decidable (_ ∧ _ ∧ _))

/-- The needed size of a request does not wrap, nor does the size of the block that it is
granted. -/
def Admits (state : State Thread) : Label Thread → Prop
  | .allocate thread n upstream =>
      n.toNat + 15 < 2 ^ 64 ∧ (state.NeedsBlock thread n → upstream.isSome = true →
        (state.pools thread).missed.blockAllocateExp.toNat < 52)
  | _ => True

instance : DecidableRel (Admits : State Thread → Label Thread → Prop) := by
  intro state label
  cases label with
  | allocate thread n upstream => exact inferInstanceAs (Decidable (_ ∧ _))
  | _ => exact isTrue trivial

end State

namespace State

variable {state next : State Thread} {thread : Thread} {pool : Pool} {address base index value : ℕ}
  {n : UInt64} {ledger : Ledger} {listed : Thread → ℕ → List ℕ} {lists : Thread → List ℕ}

def listHead (state : State Thread) (thread : Thread) : ℕ := (state.pools thread).blocksList

/-- The account, the freelists and the blocks lists of a state. -/
structure Kept (state : State Thread) (ledger : Ledger) (listed : Thread → ℕ → List ℕ)
    (lists : Thread → List ℕ) : Prop where
  accounts : state.heap.Accounts ledger
  placed : Placed state.heap.memory state.head state.live ledger listed
  lists : Lists state.heap.granted state.heap.links state.listHead lists

namespace Kept

theorem blocksOf_eq (kept : state.Kept ledger listed lists) (thread : Thread) :
    state.blocksOf thread = lists thread :=
  (kept.lists.linked thread).walk_eq ((kept.lists.length_le thread).trans (Nat.le_succ _))

theorem mem_of_listed (kept : state.Kept ledger listed lists)
    (onList : state.Listed address index) :
    address ∈ ledger.held ∧ ledger.units address = index + 1 ∧ state.live address = none := by
  obtain ⟨thread, found⟩ := onList
  exact kept.placed.free thread index address
    ((kept.placed.linked thread index).mem_of_onChain found)

theorem sound (kept : state.Kept ledger listed lists) : state.Sound where
  housed := by
    intro address n held
    obtain ⟨member, served, units⟩ := kept.placed.holds address n held
    obtain ⟨lower, upper⟩ := kept.accounts.within_block member
    rw [kept.placed.live_units held] at upper
    refine ⟨ledger.home address, kept.accounts.housed address member, lower, upper, ?_⟩
    rw [← units]
    exact kept.accounts.stamped address member
  spanning := by
    intro address n held
    exact (kept.placed.holds address n held).2.1.room
  apart := by
    intro address n other m held otherHeld different
    have separate := kept.accounts.separate address (kept.placed.holds address n held).1 other
      (kept.placed.holds other m otherHeld).1 different
    rwa [kept.placed.live_units held, kept.placed.live_units otherHeld] at separate
  unlisted := by
    intro address n other index held onList
    obtain ⟨member, units, free⟩ := kept.mem_of_listed onList
    have different : address ≠ other := by
      intro same
      rw [← same, held] at free
      contradiction
    have separate := kept.accounts.separate address (kept.placed.holds address n held).1 other
      member different
    rwa [kept.placed.live_units held, units] at separate

/-- A block that houses no object of the account is unused. -/
theorem unused (kept : state.Kept ledger listed lists) (granted : base ∈ state.heap.granted)
    (empty : ∀ address ∈ ledger.held, ledger.home address ≠ base) : state.Unused base where
  live := by
    intro address n held
    have member := (kept.placed.holds address n held).1
    rw [← kept.placed.live_units held]
    exact kept.accounts.apart_block member granted (empty address member)
  listed := by
    intro address index onList
    obtain ⟨member, units, -⟩ := kept.mem_of_listed onList
    rw [← units]
    exact kept.accounts.apart_block member granted (empty address member)

theorem quiet (kept : state.Kept ledger listed lists) : state.quiet.Kept ledger listed lists where
  accounts := kept.accounts.of_reads fun _ _ => rfl
  placed := kept.placed
  lists := kept.lists

/-- A word outside the first two of every object on a freelist and outside the last of every
object of the account is written. -/
theorem store (kept : state.Kept ledger listed lists)
    (accounts : (state.heap.store base value).Accounts ledger)
    (spared : ∀ address ∈ ledger.held, state.live address = none →
      address ≠ base ∧ address + 8 ≠ base) :
    { state with heap := state.heap.store base value }.Kept ledger listed lists where
  accounts := accounts
  placed := by
    apply kept.placed.reads
    intro thread index node member
    obtain ⟨held, -, free⟩ := kept.placed.free thread index node member
    obtain ⟨first, second⟩ := spared node held free
    exact ⟨Function.update_of_ne first .., Function.update_of_ne second ..⟩
  lists := kept.lists

theorem write (kept : state.Kept ledger listed lists)
    (moved : state.write address index value = some next) : next.Kept ledger listed lists := by
  unfold State.write at moved
  split at moved
  · rename_i n held
    split at moved
    · rename_i written
      cases moved
      obtain ⟨member, served, units⟩ := kept.placed.holds address n held
      have before := served.word_before_last written
      rw [← kept.placed.live_units held] at before
      apply kept.store
      · exact kept.accounts.store_inside member (by omega) (by omega)
      · intro node nodeMember free
        have different : address ≠ node := by
          intro same
          rw [← same, held] at free
          contradiction
        obtain ⟨first, second⟩ := kept.accounts.node_words nodeMember
        have within : Within (address + 8 * index) address (ledger.units address) :=
          ⟨by omega, by omega⟩
        exact ⟨kept.accounts.word_ne member nodeMember different within first,
          kept.accounts.word_ne member nodeMember different within second⟩
    · contradiction
  · contradiction

theorem foreign (kept : state.Kept ledger listed lists)
    (moved : state.foreign address value = some next) : next.Kept ledger listed lists := by
  unfold State.foreign at moved
  split at moved
  · rename_i outside
    cases moved
    have spared : ∀ node ∈ ledger.held, ∀ word, Within word node (ledger.units node) →
        word ≠ address := by
      intro node member word within same
      have apart := outside _ (kept.accounts.housed node member)
      obtain ⟨lower, upper⟩ := kept.accounts.within_block member
      obtain ⟨after, before⟩ := within
      rcases apart with left | right <;> omega
    apply kept.store
    · apply kept.accounts.store
      intro node member
      exact spared node member _ (Heap.within_lastWord _ (kept.accounts.sized node member))
    · intro node member _
      obtain ⟨first, second⟩ := kept.accounts.node_words member
      exact ⟨spared node member _ first, spared node member _ second⟩
  · contradiction

/-- An object beyond these goes back to its block. -/
theorem giveBack (kept : state.Kept ledger listed lists) (held : state.live address = some n)
    (read : state.heap.memory (Heap.lastWord address (neededUnits (neededSize n)).toNat) = base) :
    State.Kept { state with
      live := Function.update state.live address none
      heap := state.heap.deallocate base (neededSize n) } (ledger.drop address) listed lists := by
  obtain ⟨member, -, units⟩ := kept.placed.holds address n held
  have home : ledger.home address = base := by
    rw [← kept.accounts.stamped address member, units, read]
  have accounts := kept.accounts.deallocate member units.symm
  rw [home] at accounts
  constructor
  case accounts => exact accounts
  case placed => exact kept.placed.drop held
  case lists => exact kept.lists

end Kept

end State

namespace State

variable {state next : State Thread} {thread : Thread} {pool : Pool} {address base index value : ℕ}
  {n : UInt64} {ledger : Ledger} {listed : Thread → ℕ → List ℕ} {lists : Thread → List ℕ}

theorem initial_kept (memory : Memory) : (initial memory : State Thread).Kept
    { held := ∅, units := fun _ => 0, home := fun _ => 0 } (fun _ _ => []) (fun _ => []) where
  accounts := by constructor <;> simp [initial]
  placed := by constructor <;> simp [initial, head, Pool.empty, Linked]
  lists := by constructor <;> simp [initial, listHead, Pool.empty, Links.Linked]

theorem write_returned (moved : state.write address index value = some next) :
    next.heap.returned = state.heap.returned := by
  unfold State.write at moved
  split at moved
  · split at moved
    · cases moved
      rfl
    · contradiction
  · contradiction

theorem foreign_returned (moved : state.foreign address value = some next) :
    next.heap.returned = state.heap.returned := by
  unfold State.foreign at moved
  split at moved
  · cases moved
    rfl
  · contradiction

variable [DecidableEq Thread]

theorem head_setPool (same : pool.freelist = (state.pools thread).freelist) :
    (state.setPool thread pool).head = state.head := by
  funext other
  by_cases here : other = thread
  · subst here
    simp only [head, setPool, Function.update_self, same]
  · simp only [head, setPool, Function.update_of_ne here]

theorem head_setPool_replace
    (updated : pool.freelist = Function.update (state.pools thread).freelist index value) :
    (state.setPool thread pool).head = replace state.head thread index value := by
  funext other place
  by_cases here : other = thread
  · subst here
    by_cases there : place = index
    · subst there
      rw [replace_self]
      simp only [head, setPool, Function.update_self, updated]
    · rw [replace_of_ne fun both => there both.2]
      simp only [head, setPool, Function.update_self, updated, Function.update_of_ne there]
  · rw [replace_of_ne fun both => here both.1]
    simp only [head, setPool, Function.update_of_ne here]

theorem listHead_setPool : (state.setPool thread pool).listHead =
    Function.update state.listHead thread pool.blocksList := by
  funext other
  by_cases here : other = thread
  · subst here
    simp only [listHead, setPool, Function.update_self]
  · simp only [listHead, setPool, Function.update_of_ne here]

theorem listHead_setPool_same (same : pool.blocksList = (state.pools thread).blocksList) :
    (state.setPool thread pool).listHead = state.listHead := by
  rw [listHead_setPool, same]
  exact Function.update_eq_self ..

/-- The ways in which `allocate` answers. -/
inductive Allocates (state : State Thread) (ledger : Ledger) (lists : Thread → List ℕ)
    (thread : Thread) (n : UInt64) (upstream : Option ℕ) (next : State Thread) : Prop where
  | large (notPooled : ¬ Pooled n) (result : next = state)
  | hit {address : ℕ} (served : Served n)
      (top : state.head thread (sizeClass (neededSize n)) = address) (present : address ≠ 0)
      (result : next = (state.setPool thread ((state.pools thread).hit
        (sizeClass (neededSize n)) (state.heap.memory address))).handOut address n)
  | found {heap : Heap} {address head : ℕ} {passed remaining : List ℕ} (served : Served n)
      (split : lists thread = passed ++ remaining)
      (linked : heap.links.Linked 0 0 head (state.heap.survivors passed ++ remaining))
      (scanned : Heap.Scanned (neededSize n) state.heap ledger (lists thread) passed remaining
        (some address) heap)
      (result : next = ({ state with heap }.setPool thread { state.pools thread with
        allocateCount := (state.pools thread).allocateCount + 1
        blocksList := head }).handOut address n)
  | missed {heap : Heap} {head : ℕ} (served : Served n)
      (empty : state.head thread (sizeClass (neededSize n)) = 0)
      (linked : heap.links.Linked 0 0 head (state.heap.survivors (lists thread)))
      (scanned : Heap.Scanned (neededSize n) state.heap ledger (lists thread) (lists thread) []
        none heap)
      (result : { state with heap }.expand thread n
        { (state.pools thread).missed with blocksList := head } upstream = some next)

theorem Kept.allocates {upstream : Option ℕ} (kept : state.Kept ledger listed lists)
    (small : n.toNat + 15 < 2 ^ 64) (moved : state.allocate thread n upstream = some next) :
    state.Allocates ledger lists thread n upstream next := by
  by_cases pooled : Pooled n
  · have served : Served n := ⟨pooled, small⟩
    obtain ⟨positive, few⟩ := served.units_bounds
    by_cases present : state.head thread (sizeClass (neededSize n)) = 0
    · have empty : (state.pools thread).freelist (sizeClass (neededSize n)) = 0 := present
      have linked := kept.lists.linked thread
      have enough : (lists thread).length < state.turns :=
        Nat.lt_succ_of_le (kept.lists.length_le thread)
      obtain ⟨found, heap, head, passed, remaining, scan, split, after, scanned⟩ :=
        kept.accounts.scan [] positive few linked (kept.lists.once thread)
          (kept.lists.inside thread) enough
      have start : (lists thread).headD 0 = (state.pools thread).blocksList := linked.head_eq.symm
      have same : state.listHead thread = (state.pools thread).blocksList := rfl
      rw [start, same] at scan
      rw [List.nil_append] at after scanned
      simp only [State.allocate, if_pos pooled, empty, ne_eq, not_true_eq_false, if_false,
        scan] at moved
      cases found with
      | some address =>
          simp only [Option.some.injEq] at moved
          exact .found served split after scanned moved.symm
      | none =>
          obtain ⟨none, -⟩ := scanned.missed rfl
          subst none
          rw [List.append_nil] at split after
          rw [← split] at after scanned
          exact .missed served present after scanned moved
    · have nonempty : (state.pools thread).freelist (sizeClass (neededSize n)) ≠ 0 := present
      simp only [State.allocate, if_pos pooled, if_pos nonempty, Option.some.injEq] at moved
      exact .hit served rfl present moved.symm
  · simp only [State.allocate, if_neg pooled, Option.some.injEq] at moved
    exact .large pooled moved.symm

/-- A call returns: the scan ends within its turns. -/
theorem Kept.allocate_returns (kept : state.Kept ledger listed lists) (thread : Thread)
    (small : n.toNat + 15 < 2 ^ 64) : ∃ next, state.allocate thread n none = some next := by
  by_cases pooled : Pooled n
  · have served : Served n := ⟨pooled, small⟩
    obtain ⟨positive, few⟩ := served.units_bounds
    by_cases empty : (state.pools thread).freelist (sizeClass (neededSize n)) = 0
    · have enough : (lists thread).length < state.turns :=
        Nat.lt_succ_of_le (kept.lists.length_le thread)
      obtain ⟨found, heap, head, passed, remaining, scan, -, -, -⟩ :=
        kept.accounts.scan [] positive few (kept.lists.linked thread) (kept.lists.once thread)
          (kept.lists.inside thread) enough
      have start : (lists thread).headD 0 = (state.pools thread).blocksList :=
        (kept.lists.linked thread).head_eq.symm
      have same : state.listHead thread = (state.pools thread).blocksList := rfl
      rw [start, same] at scan
      simp only [State.allocate, if_pos pooled, empty, ne_eq, not_true_eq_false, if_false, scan]
      cases found with
      | some address => exact ⟨_, rfl⟩
      | none => exact ⟨_, rfl⟩
    · simp only [State.allocate, if_pos pooled, ne_eq, empty, not_false_eq_true, if_true]
      exact ⟨_, rfl⟩
  · exact ⟨state, if_neg pooled⟩

/-- A call hands out an object it has carved. -/
theorem Kept.carve {heap : Heap} (pool : Pool) (accounts : state.heap.Accounts ledger)
    (placed : Placed state.heap.memory state.head state.live ledger listed) (served : Served n)
    (obtained : Heap.Obtained state.heap.memory ledger heap address
      (neededUnits (neededSize n)).toNat base)
    (same : pool.freelist = (state.pools thread).freelist) {listsAfter : Thread → List ℕ}
    (listed_after : Lists heap.granted heap.links
      (Function.update state.listHead thread pool.blocksList) listsAfter) :
    (({ state with heap }.setPool thread pool).handOut address n).Kept
      (ledger.carve address (neededUnits (neededSize n)).toNat base) listed listsAfter where
  accounts := obtained.accounts
  placed := by
    have heads : ({ state with heap }.setPool thread pool).head = state.head :=
      head_setPool same
    have placed : Placed heap.memory state.head (Function.update state.live address (some n))
        (ledger.carve address (neededUnits (neededSize n)).toNat base) listed :=
      placed.carve served obtained.fresh (placed.links accounts obtained.kept)
    rw [← heads] at placed
    exact placed
  lists := by
    have heads : ({ state with heap }.setPool thread pool).listHead =
        Function.update state.listHead thread pool.blocksList :=
      listHead_setPool
    rw [← heads] at listed_after
    exact listed_after

/-- A call is answered from a freelist. -/
theorem Kept.hit (kept : state.Kept ledger listed lists) (served : Served n)
    (top : state.head thread (sizeClass (neededSize n)) = address) (present : address ≠ 0) :
    ∃ listedAfter, ((state.setPool thread ((state.pools thread).hit
      (sizeClass (neededSize n)) (state.heap.memory address))).handOut address n).Kept
        ledger listedAfter lists := by
  obtain ⟨below, -, placed⟩ := kept.placed.pop served rfl top present
  refine ⟨replace listed thread (sizeClass (neededSize n)) below, ?_⟩
  constructor
  case accounts => exact kept.accounts
  case placed =>
    rw [← head_setPool_replace (Pool.hit_freelist ..)] at placed
    exact placed
  case lists =>
    have heads : (state.setPool thread ((state.pools thread).hit (sizeClass (neededSize n))
        (state.heap.memory address))).listHead = state.listHead :=
      listHead_setPool_same (Pool.hit_blocksList ..)
    have lists := kept.lists
    rw [← heads] at lists
    exact lists

theorem survivors_sublist {heap : Heap} (passed remaining : List ℕ) :
    (heap.survivors passed ++ remaining).Sublist (passed ++ remaining) :=
  List.Sublist.append_right List.filter_sublist _

/-- The lists after a scan. -/
theorem Kept.scanned {heap : Heap} {head : ℕ} {passed remaining : List ℕ} {found : Option ℕ}
    (kept : state.Kept ledger listed lists) (split : lists thread = passed ++ remaining)
    (linked : heap.links.Linked 0 0 head (state.heap.survivors passed ++ remaining))
    (scanned : Heap.Scanned (neededSize n) state.heap ledger (lists thread) passed remaining found
      heap) :
    Lists heap.granted heap.links (Function.update state.listHead thread head)
      (Function.update lists thread (state.heap.survivors passed ++ remaining)) := by
  have sub : (state.heap.survivors passed ++ remaining).Sublist (lists thread) :=
    split ▸ survivors_sublist passed remaining
  have once := kept.lists.once thread
  apply kept.lists.update linked (sub.nodup once)
  · intro base member
    rw [scanned.granted base]
    refine ⟨kept.lists.inside thread base (sub.mem member), ?_⟩
    intro gone
    rw [split] at once
    cases List.mem_append.mp member with
    | inl survivor =>
        have stays := (List.mem_filter.mp survivor).2
        rw [gone.2] at stays
        contradiction
    | inr later => exact (List.nodup_append.mp once).2.2 base gone.1 base later rfl
  · intro base member
    exact .inl (sub.mem member)
  · intro base granted absent
    refine ⟨(scanned.granted base).mpr ⟨granted, ?_⟩, scanned.frame base absent⟩
    intro gone
    exact absent (split ▸ List.mem_append_left _ gone.1)

/-- The upstream resource is asked for a block. -/
theorem Kept.expand {upstream : Option ℕ} (accounts : state.heap.Accounts ledger)
    (placed : Placed state.heap.memory state.head state.live ledger listed)
    (kept : Lists state.heap.granted state.heap.links
      (Function.update state.listHead thread pool.blocksList) lists)
    (served : Served n) (same : pool.freelist = (state.pools thread).freelist)
    (small : upstream.isSome = true → pool.blockAllocateExp.toNat < 52)
    (moved : state.expand thread n pool upstream = some next) :
    ∃ ledgerAfter listsAfter, next.Kept ledgerAfter listed listsAfter ∧
      next.heap.returned = state.heap.returned ∧
        ∀ base ∈ listsAfter thread, base ∈ lists thread ∨ upstream = some base := by
  obtain ⟨positive, few⟩ := served.units_bounds
  cases upstream with
  | none =>
      simp only [State.expand, Option.some.injEq] at moved
      subst moved
      refine ⟨ledger, lists, ?_, rfl, fun base member => .inl member⟩
      constructor
      case accounts => exact accounts
      case placed =>
        rw [head_setPool same]
        exact placed
      case lists =>
        rw [listHead_setPool]
        exact kept
  | some base =>
      have exp : pool.blockAllocateExp.toNat < 52 := small rfl
      by_cases grantable : state.heap.Grantable base
          (Block.ofCount (1 <<< pool.blockAllocateExp)).size.toNat
      · have granted := accounts.grant exp grantable
        have fits := Heap.ofCount_fits exp few
        simp only [State.expand, if_pos grantable] at moved
        obtain ⟨nonzero, -, -, fresh, -⟩ := grantable
        generalize Block.ofCount (1 <<< pool.blockAllocateExp) = block at *
        have pushed := granted.of_links
          ((state.heap.grant base block).links.pushFront 0 pool.blocksList base).1
        have unlisted : base ∉ lists thread :=
          fun member => fresh (kept.inside thread base member)
        have linked := (kept.linked thread).pushFront (kept.once thread) nonzero unlisted
        rw [Function.update_self] at linked
        have member : base ∈ (state.heap.grant base block).granted := Finset.mem_insert_self ..
        have header : (state.heap.grant base block).blocks base = block := Function.update_self ..
        cases allocated : ((state.heap.grant base block).push pool.blocksList base).1.allocate base
            (neededSize n) with
        | none =>
            exfalso
            rw [Heap.allocate] at allocated
            have room : (((state.heap.grant base block).push pool.blocksList base).1.blocks
                base).Fits (neededSize n) := by
              rw [← header] at fits
              exact fits
            simp [room] at allocated
        | some obtained =>
            obtain ⟨address, heap⟩ := obtained
            have carved := pushed.allocate member positive few allocated
            obtain ⟨-, -, result⟩ := Heap.allocate_eq_some allocated
            have grants : heap.granted = insert base state.heap.granted := by rw [result]; rfl
            have links : heap.links =
                (state.heap.links.pushFront 0 pool.blocksList base).1 := by rw [result]; rfl
            have returns : heap.returned = state.heap.returned := by rw [result]; rfl
            simp only [allocated, Option.some.injEq] at moved
            subst moved
            have listsAfter : Lists heap.granted heap.links
                (Function.update state.listHead thread
                  ((state.heap.grant base block).push pool.blocksList base).2)
                (Function.update lists thread (base :: lists thread)) := by
              have updated : Lists heap.granted heap.links
                  (Function.update (Function.update state.listHead thread pool.blocksList) thread
                    (state.heap.links.pushFront 0 pool.blocksList base).2)
                  (Function.update lists thread (base :: lists thread)) := by
                rw [links, grants]
                apply kept.update linked (List.nodup_cons.mpr ⟨unlisted, kept.once thread⟩)
                · intro other inList
                  cases List.mem_cons.mp inList with
                  | inl new => exact new ▸ Finset.mem_insert_self ..
                  | inr old => exact Finset.mem_insert_of_mem (kept.inside thread other old)
                · intro other inList
                  cases List.mem_cons.mp inList with
                  | inl new => exact .inr (new ▸ fresh)
                  | inr old => exact .inl old
                · intro other otherGranted absent
                  refine ⟨Finset.mem_insert_of_mem otherGranted, ?_⟩
                  apply Links.pushFront_frame
                  · exact fun same => fresh (same ▸ otherGranted)
                  · have head := kept.linked thread
                    rw [Function.update_self] at head
                    exact head.ne_head absent
              rwa [Function.update_idem] at updated
            have newcomers : ∀ other ∈ Function.update lists thread (base :: lists thread) thread,
                other ∈ lists thread ∨ some base = some other := by
              intro other inList
              rw [Function.update_self] at inList
              cases List.mem_cons.mp inList with
              | inl new => exact .inr (congrArg some new.symm)
              | inr old => exact .inl old
            exact ⟨_, _, Kept.carve { pool with
              blocksList := ((state.heap.grant base block).push pool.blocksList base).2 }
              accounts placed served carved same listsAfter, returns, newcomers⟩
      · simp only [State.expand, if_neg grantable] at moved
        contradiction

/-- A call that the thread's blocks cannot serve. -/
theorem Kept.missed {upstream : Option ℕ} {heap : Heap} {head : ℕ}
    (kept : state.Kept ledger listed lists)
    (admitted : state.Admits (.allocate thread n upstream)) (served : Served n)
    (empty : state.head thread (sizeClass (neededSize n)) = 0)
    (linked : heap.links.Linked 0 0 head (state.heap.survivors (lists thread)))
    (scanned : Heap.Scanned (neededSize n) state.heap ledger (lists thread) (lists thread) [] none
      heap)
    (result : { state with heap }.expand thread n
      { (state.pools thread).missed with blocksList := head } upstream = some next) :
    ∃ ledgerAfter listsAfter, next.Kept ledgerAfter listed listsAfter ∧
      next.heap.returned = heap.returned ∧ ∀ base ∈ listsAfter thread,
        base ∈ state.heap.survivors (lists thread) ++ [] ∨ upstream = some base := by
  obtain ⟨-, accounts, memory, -⟩ := scanned.missed rfl
  rw [← List.append_nil (state.heap.survivors (lists thread))] at linked
  have listsAfter := kept.scanned (List.append_nil _).symm linked scanned
  have placed := kept.placed
  rw [← memory] at placed
  have needs : state.NeedsBlock thread n := by
    refine ⟨served.1, empty, ?_⟩
    rw [kept.blocksOf_eq]
    exact scanned.full
  have exp : upstream.isSome = true →
      ({ (state.pools thread).missed with blocksList := head } : Pool).blockAllocateExp.toNat
        < 52 := admitted.2 needs
  have same : ({ (state.pools thread).missed with blocksList := head } : Pool).freelist =
      (({ state with heap } : State Thread).pools thread).freelist := Pool.missed_freelist _
  obtain ⟨ledgerAfter, lists', expanded, returned, newcomers⟩ :=
    Kept.expand accounts placed listsAfter served same exp result
  rw [Function.update_self] at newcomers
  exact ⟨ledgerAfter, lists', expanded, returned, newcomers⟩

theorem Kept.allocate {upstream : Option ℕ} (kept : state.Kept ledger listed lists)
    (admitted : state.Admits (.allocate thread n upstream))
    (moved : state.allocate thread n upstream = some next) :
    (∃ ledgerAfter listedAfter listsAfter, next.Kept ledgerAfter listedAfter listsAfter) ∧
      ∀ base ∈ next.heap.returned, base ∈ state.heap.returned ∨
        base ∈ state.heap.granted ∧ ∀ address ∈ ledger.held, ledger.home address ≠ base := by
  obtain ⟨small, asked⟩ := admitted
  have freed : ∀ (heap : Heap) (passed remaining : List ℕ) (found : Option ℕ),
      lists thread = passed ++ remaining →
      Heap.Scanned (neededSize n) state.heap ledger (lists thread) passed remaining found heap →
      ∀ base ∈ heap.returned, base ∈ state.heap.returned ∨
        base ∈ state.heap.granted ∧ ∀ address ∈ ledger.held, ledger.home address ≠ base := by
    intro heap passed remaining found split scanned base gone
    refine ((scanned.returned base).mp gone).imp_right ?_
    intro free
    have granted := kept.lists.inside thread base (split ▸ List.mem_append_left _ free.1)
    exact ⟨granted, kept.accounts.empty_of_canFree granted free.2⟩
  cases kept.allocates small moved with
  | large notPooled result =>
      subst result
      exact ⟨⟨ledger, listed, lists, kept⟩, fun base before => .inl before⟩
  | hit served top present result =>
      subst result
      obtain ⟨listedAfter, hit⟩ := kept.hit served top present
      exact ⟨⟨ledger, listedAfter, lists, hit⟩, fun base before => .inl before⟩
  | @found heap address head passed remaining served split linked scanned result =>
      subst result
      obtain ⟨base, -, -, -, obtained, -⟩ := scanned.obtained address rfl
      have listsAfter := kept.scanned split linked scanned
      have carved := Kept.carve { state.pools thread with
        allocateCount := (state.pools thread).allocateCount + 1
        blocksList := head } kept.accounts kept.placed served obtained rfl listsAfter
      exact ⟨⟨_, _, _, carved⟩, freed heap passed remaining _ split scanned⟩
  | @missed heap head served empty linked scanned result =>
      obtain ⟨ledgerAfter, lists', expanded, returned, -⟩ :=
        kept.missed ⟨small, asked⟩ served empty linked scanned result
      refine ⟨⟨ledgerAfter, listed, lists', expanded⟩, ?_⟩
      rw [returned]
      exact freed heap (lists thread) [] none (List.append_nil _).symm scanned

/-- An object of at most 1024 others of its size goes on the thread's freelist. -/
theorem Kept.push (thread : Thread) (pool : Pool) (kept : state.Kept ledger listed lists)
    (held : state.live address = some n)
    (top : state.head thread (sizeClass (neededSize n)) = base) {linked : Heap}
    (first : linked = state.heap.store address base)
    (second : value = if base ≠ 0 then linked.memory (base + 8) + 1 else 1)
    (pushed : pool.freelist = Function.update (state.pools thread).freelist
      (sizeClass (neededSize n)) address)
    (same : pool.blocksList = (state.pools thread).blocksList) :
    ∃ listedAfter, (State.setPool { state with
      live := Function.update state.live address none
      heap := linked.store (address + 8) value } thread pool).Kept ledger listedAfter lists := by
  obtain ⟨member, served, units⟩ := kept.placed.holds address n held
  have positive := kept.accounts.sized address member
  obtain ⟨lower, -⟩ := kept.accounts.within_block member
  obtain ⟨firstOwn, secondOwn⟩ := kept.accounts.node_words member
  -- a node of a freelist is another object, whose words are not written
  have spared : ∀ other place, ∀ node ∈ listed other place,
      node ≠ address ∧ node ≠ address + 8 ∧ node + 8 ≠ address ∧ node + 8 ≠ address + 8 := by
    intro other place node inList
    obtain ⟨nodeMember, -, free⟩ := kept.placed.free other place node inList
    have different : address ≠ node := by
      intro same
      rw [← same, held] at free
      contradiction
    obtain ⟨nodeFirst, nodeSecond⟩ := kept.accounts.node_words nodeMember
    have apart : ∀ word read, Within word address (ledger.units address) →
        Within read node (ledger.units node) → read ≠ word :=
      fun _ _ within reading => kept.accounts.word_ne member nodeMember different within reading
    exact ⟨apart _ _ firstOwn nodeFirst, apart _ _ secondOwn nodeFirst,
      apart _ _ firstOwn nodeSecond, apart _ _ secondOwn nodeSecond⟩
  have counted : value = (listed thread (sizeClass (neededSize n))).length + 1 := by
    have chain := kept.placed.linked thread (sizeClass (neededSize n))
    rw [top] at chain
    by_cases empty : base = 0
    · rw [second, if_neg (not_not.mpr empty), chain.eq_nil empty, List.length_nil]
    · obtain ⟨below, shape, count, -⟩ := chain.exists_below empty
      have topMember : base ∈ listed thread (sizeClass (neededSize n)) :=
        shape ▸ List.mem_cons_self
      rw [second, if_pos empty, ← count, first]
      exact congrArg (· + 1) (Function.update_of_ne (spared _ _ base topMember).2.2.1 ..)
  have firstAccounts : linked.Accounts ledger := by
    rw [first]
    exact kept.accounts.store_inside member (Nat.le_refl _) (by omega)
  have accounts : (linked.store (address + 8) value).Accounts ledger :=
    firstAccounts.store_inside member (by omega) (by omega)
  have reads : ∀ word, word ≠ address → word ≠ address + 8 →
      (linked.store (address + 8) value).memory word = state.heap.memory word := by
    intro word notFirst notSecond
    rw [first]
    exact (Function.update_of_ne notSecond ..).trans (Function.update_of_ne notFirst ..)
  have link : (linked.store (address + 8) value).memory address =
      state.head thread (sizeClass (neededSize n)) := by
    rw [first, top]
    exact (Function.update_of_ne (by omega) ..).trans (Function.update_self ..)
  have length : (linked.store (address + 8) value).memory (address + 8) =
      (listed thread (sizeClass (neededSize n))).length + 1 :=
    (Function.update_self ..).trans counted
  have placed := kept.placed.push held rfl (by omega) link length (by
    intro other place node inList
    obtain ⟨a, b, c, d⟩ := spared other place node inList
    exact ⟨reads _ a b, reads _ c d⟩)
  refine ⟨replace listed thread (sizeClass (neededSize n))
    (address :: listed thread (sizeClass (neededSize n))), ?_⟩
  constructor
  case accounts => exact accounts
  case placed =>
    rw [← head_setPool_replace pushed] at placed
    exact placed
  case lists =>
    have heads : (state.setPool thread pool).listHead = state.listHead := listHead_setPool_same same
    have kept := kept.lists
    rw [← heads] at kept
    rw [first]
    exact kept

theorem Kept.deallocate (kept : state.Kept ledger listed lists)
    (moved : state.deallocate thread address n = some next) :
    (∃ ledgerAfter listedAfter, next.Kept ledgerAfter listedAfter lists) ∧
      next.heap.returned = state.heap.returned := by
  by_cases pooled : Pooled n
  · by_cases held : state.live address = some n
    · simp only [State.deallocate, if_pos pooled, if_pos held] at moved
      split at moved
      · cases moved
        obtain ⟨listedAfter, pushed⟩ := Kept.push thread { state.pools thread with
          freelist := Function.update (state.pools thread).freelist (sizeClass (neededSize n))
            address } kept held rfl rfl rfl rfl rfl
        exact ⟨⟨ledger, listedAfter, pushed⟩, rfl⟩
      · cases moved
        exact ⟨⟨_, _, kept.giveBack held rfl⟩, rfl⟩
    · simp [State.deallocate, pooled, held] at moved
  · simp only [State.deallocate, if_neg pooled, Option.some.injEq] at moved
    subst moved
    exact ⟨⟨ledger, listed, kept⟩, rfl⟩

theorem Kept.move {label : Label Thread} (kept : state.Kept ledger listed lists)
    (admitted : state.Admits label) (moved : state.move label = some next) :
    (∃ ledgerAfter listedAfter listsAfter, next.Kept ledgerAfter listedAfter listsAfter) ∧
      ∀ base ∈ next.heap.returned, base ∈ state.heap.granted ∧ state.Unused base := by
  have quiet := kept.quiet
  cases label with
  | allocate thread n upstream =>
      obtain ⟨after, freed⟩ := quiet.allocate admitted moved
      refine ⟨after, ?_⟩
      intro base gone
      cases freed base gone with
      | inl before => contradiction
      | inr now => exact ⟨now.1, kept.unused now.1 now.2⟩
  | deallocate thread address n =>
      obtain ⟨⟨ledgerAfter, listedAfter, after⟩, returned⟩ := quiet.deallocate moved
      refine ⟨⟨ledgerAfter, listedAfter, lists, after⟩, ?_⟩
      rw [returned]
      exact List.forall_mem_nil _
  | write address index value =>
      refine ⟨⟨ledger, listed, lists, quiet.write moved⟩, ?_⟩
      rw [write_returned moved]
      exact List.forall_mem_nil _
  | «foreign» address value =>
      refine ⟨⟨ledger, listed, lists, quiet.foreign moved⟩, ?_⟩
      rw [foreign_returned moved]
      exact List.forall_mem_nil _

theorem kept_of_reachable (reachable : (machine Thread).Reachable Admits state) :
    ∃ ledger listed lists, state.Kept ledger listed lists := by
  apply reachable.invariant
  · intro first started
    obtain ⟨memory, same⟩ := started
    subst same
    exact ⟨_, _, _, initial_kept memory⟩
  · intro state label next kept admitted moved
    obtain ⟨ledger, listed, lists, kept⟩ := kept
    exact (kept.move admitted moved).1

theorem sound_of_admits (reachable : (machine Thread).Reachable Admits state) :
    state.Sound ∧ ∀ label next, state.Admits label → state.move label = some next →
      ∀ base ∈ next.heap.returned, base ∈ state.heap.granted ∧ state.Unused base := by
  obtain ⟨ledger, listed, lists, kept⟩ := kept_of_reachable reachable
  exact ⟨kept.sound, fun label next admitted moved => (kept.move admitted moved).2⟩

/-- Two threads, of which the second frees the object that the first has been handed. -/
def recycling : List (Label Bool) :=
  [.allocate false 100 (some 4096), .write 4160 3 7, .deallocate true 4160 100,
    .allocate true 100 none, .allocate false 1000 none]

theorem sound_of_admits_recycled : ∃ state : State Bool,
    (machine Bool).Reachable Admits state ∧
      (state.live 4160 = some 100 ∧ state.live 4288 = some 1000) ∧
      state.Sound ∧ ∀ label next, state.Admits label → state.move label = some next →
        ∀ base ∈ next.heap.returned, base ∈ state.heap.granted ∧ state.Unused base := by
  obtain ⟨state, reachable, held⟩ := Machine.reachable_of_any (machine Bool) Admits
    (initial fun _ => 0) recycling
    (fun state => state.live 4160 = some 100 ∧ state.live 4288 = some 1000)
    ⟨fun _ => 0, rfl⟩ (by decide +kernel)
  exact ⟨state, reachable, held, sound_of_admits reachable⟩

/-- The upstream resource refuses 51 blocks and grants the next, of 2 ^ 64 bytes modulo
2 ^ 64. -/
def refusals : List (Label Bool) :=
  List.replicate 51 (.allocate false 1 none) ++ [.allocate false 1 (some 4096)]

theorem object_outside_block : ∃ state : State Bool,
    (machine Bool).Reachable Machine.free state ∧ ¬ state.Sound := by
  obtain ⟨state, reachable, held, empty⟩ := Machine.reachable_of_any (machine Bool) Machine.free
    (initial fun _ => 0) refusals
    (fun state => state.live 4160 = some 1 ∧
      ∀ base ∈ state.heap.granted, state.heap.extent base = 0)
    ⟨fun _ => 0, rfl⟩ (by decide +kernel)
  refine ⟨state, reachable, ?_⟩
  intro sound
  obtain ⟨base, granted, lower, upper, -⟩ := sound.housed 4160 1 held
  rw [empty base granted] at upper
  have room := sound.spanning 4160 1 held
  omega

end State

end Asco.Core.Mm
