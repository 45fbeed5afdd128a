import Asco.Core.Mm.CoroutinePool.Storage

namespace Asco.Core.Mm

open Foundation

/-! # The blocks that are returned

`can_free` compares what was given back to a block with all its units.  A block whose last
units were never carved holds these back.
-/

namespace State

variable {Thread : Type*}

/-- The request finds its freelist empty and no room in the block nor in those before it. -/
structure PassesOver (state : State Thread) (thread : Thread) (n : UInt64) (base : ℕ) : Prop where
  pooled : Pooled n
  empty : state.head thread (sizeClass (neededSize n)) = 0
  full : ∃ before after, state.blocksOf thread = before ++ base :: after ∧
    ∀ block ∈ before ++ [base], ¬ (state.heap.blocks block).Fits (neededSize n)

/-- Every list of blocks is linked both ways. -/
def WellLinked (state : State Thread) : Prop :=
  ∀ thread, (state.blocksOf thread).Nodup ∧
    state.heap.links.Linked 0 0 (state.listHead thread) (state.blocksOf thread)

/-- The call returns the block to the upstream resource and leaves the lists without it, unless
it is granted anew. -/
structure Reclaims (state next : State Thread) (thread : Thread) (upstream : Option ℕ)
    (base : ℕ) : Prop where
  canFree : (state.heap.blocks base).canFree = true
  returned : base ∈ next.heap.returned
  unlinked : base ∈ next.blocksOf thread → upstream = some base
  wellLinked : next.WellLinked

variable {state next : State Thread} {thread : Thread} {n : UInt64} {base : ℕ} {ledger : Ledger}
  {listed : Thread → ℕ → List ℕ} {lists : Thread → List ℕ}

theorem Kept.wellLinked (kept : state.Kept ledger listed lists) : state.WellLinked := by
  intro thread
  rw [kept.blocksOf_eq]
  exact ⟨kept.lists.once thread, kept.lists.linked thread⟩

/-- Of a block in which no object lies nothing circulates. -/
theorem Kept.outstanding_of_unused (kept : state.Kept ledger listed lists)
    (unused : state.Unused base) : ledger.outstanding base = 0 := by
  apply Finset.sum_eq_zero
  intro address member
  obtain ⟨held, home⟩ := Finset.mem_filter.mp member
  obtain ⟨lower, upper⟩ := kept.accounts.within_block held
  have positive := kept.accounts.sized address held
  rw [home] at lower upper
  have apart : Apart address (64 * ledger.units address) base (state.heap.extent base) := by
    cases kept.placed.accounted address held with
    | inl live =>
        obtain ⟨n, live⟩ := live
        rw [kept.placed.live_units live]
        exact unused.live address n live
    | inr onList =>
        obtain ⟨thread, index, onList⟩ := onList
        rw [(kept.placed.free thread index address onList).2.1]
        exact unused.listed address index
          ⟨thread, (kept.placed.linked thread index).onChain_of_mem onList⟩
  rcases apart with before | after <;> omega

/-- A block that nothing circulates of can be freed exactly when all its units were carved. -/
theorem Kept.canFree_iff (kept : state.Kept ledger listed lists)
    (granted : base ∈ state.heap.granted) (unused : state.Unused base) :
    (state.heap.blocks base).canFree = true ↔
      (state.heap.blocks base).allocatingIndex = (state.heap.blocks base).unitCount := by
  have balanced := kept.accounts.balanced base granted
  rw [kept.outstanding_of_unused unused, Nat.add_zero, UInt64.toNat_inj] at balanced
  rw [Block.canFree, beq_iff_eq, balanced]

/-- The blocks without room that stand before the one that serves a request. -/
theorem mem_passed {blocks : ℕ → Block} {passed remaining before after : List ℕ}
    (split : passed ++ remaining = before ++ base :: after)
    (served : ∀ block rest, remaining = block :: rest → (blocks block).Fits n)
    (full : ∀ block ∈ before ++ [base], ¬ (blocks block).Fits n) : base ∈ passed := by
  have regrouped : passed ++ remaining = before ++ [base] ++ after := by simpa using split
  rcases List.append_eq_append_iff.mp regrouped with ⟨served_first, shape, rest⟩ | ⟨more, shape, _⟩
  · cases served_first with
    | nil =>
        rw [List.append_nil] at shape
        rw [← shape]
        exact List.mem_append_right _ List.mem_cons_self
    | cons block others =>
        have fits := served block (others ++ after) rest
        have member : block ∈ before ++ [base] := by
          rw [shape]
          exact List.mem_append_right _ List.mem_cons_self
        exact absurd fits (full block member)
  · rw [shape]
    exact List.mem_append_left _ (List.mem_append_right _ List.mem_cons_self)

variable [DecidableEq Thread]

/-- The scan of a call that passes over a block. -/
theorem Kept.passes {upstream : Option ℕ} (kept : state.Kept ledger listed lists)
    (admitted : state.Admits (.allocate thread n upstream))
    (moved : state.allocate thread n upstream = some next)
    (passes : state.PassesOver thread n base) :
    ∃ heap passed remaining found ledgerAfter listsAfter,
      lists thread = passed ++ remaining ∧ base ∈ passed ∧
      Heap.Scanned (neededSize n) state.heap ledger (lists thread) passed remaining found heap ∧
      next.heap.returned = heap.returned ∧ next.Kept ledgerAfter listed listsAfter ∧
      ∀ block ∈ listsAfter thread,
        block ∈ state.heap.survivors passed ++ remaining ∨ upstream = some block := by
  obtain ⟨pooled, empty, before, after, blocks, full⟩ := passes
  rw [kept.blocksOf_eq] at blocks
  cases kept.allocates admitted.1 moved with
  | large notPooled result => exact absurd pooled notPooled
  | hit served top present result => exact absurd (top.symm.trans empty) present
  | @found heap address head passed remaining served split linked scanned result =>
      obtain ⟨block, rest, tail, fits, obtained, -⟩ := scanned.obtained address rfl
      have listsAfter := kept.scanned split linked scanned
      have carved := Kept.carve { state.pools thread with
        allocateCount := (state.pools thread).allocateCount + 1
        blocksList := head } kept.accounts kept.placed served obtained rfl listsAfter
      have member : base ∈ passed := by
        apply mem_passed (split.symm.trans blocks) _ full
        intro other others shape
        rw [tail] at shape
        obtain ⟨same, -⟩ := List.cons.inj shape
        exact same ▸ fits
      subst result
      refine ⟨heap, passed, remaining, some address, _, _, split, member, scanned, rfl, carved, ?_⟩
      intro other inList
      rw [Function.update_self] at inList
      exact .inl inList
  | @missed heap head served headEmpty linked scanned result =>
      obtain ⟨ledgerAfter, lists', expanded, returned, newcomers⟩ :=
        kept.missed admitted served headEmpty linked scanned result
      have member : base ∈ lists thread := by
        rw [blocks]
        exact List.mem_append_right _ List.mem_cons_self
      exact ⟨heap, lists thread, [], none, ledgerAfter, lists', (List.append_nil _).symm, member,
        scanned, returned, expanded, newcomers⟩

/-! ## A block of which everything is given back -/

/-- The first block of the thread has room. -/
theorem allocate_first (upstream : Option ℕ) (pooled : Pooled n)
    (empty : state.head thread (sizeClass (neededSize n)) = 0)
    (first : state.listHead thread = base) (present : base ≠ 0)
    (fits : (state.heap.blocks base).Fits (neededSize n)) {address : ℕ}
    (place : address = Heap.unit base (state.heap.blocks base).allocatingIndex.toNat) :
    ∃ next, state.allocate thread n upstream = some next ∧
      next.live = Function.update state.live address (some n) ∧
      next.head = state.head ∧ next.listHead = state.listHead ∧
      next.heap.memory = Function.update state.heap.memory
        (Heap.lastWord address (neededUnits (neededSize n)).toNat) base ∧
      next.heap.blocks = Function.update state.heap.blocks base { state.heap.blocks base with
        allocatingIndex := (state.heap.blocks base).allocatingIndex +
          neededUnits (neededSize n) } ∧
      next.heap.links = state.heap.links ∧ next.heap.granted = state.heap.granted := by
  have allocated : state.heap.allocate base (neededSize n) = some (_, _) := if_pos fits
  have freelist : (state.pools thread).freelist (sizeClass (neededSize n)) = 0 := empty
  have head : (state.pools thread).blocksList = base := first
  subst place
  simp only [State.allocate, if_pos pooled, freelist, ne_eq, not_true_eq_false, if_false, turns,
    head, Heap.scan, if_neg present, allocated]
  exact ⟨_, rfl, rfl, head_setPool rfl, listHead_setPool_same head.symm, rfl, rfl, rfl, rfl⟩

/-- `count` objects of 63 units on the first thread's freelist and the next one with the second
thread, and `own` of them in the first thread's block of `size` units. -/
structure Filling (own : ℕ) (size : UInt64) (state : State Bool) (count : ℕ) : Prop where
  freelist : state.head false 62 = if count = 0 then 0 else Heap.unit 4194304 (63 * (count - 1))
  length : count ≠ 0 → state.heap.memory (Heap.unit 4194304 (63 * (count - 1)) + 8) = count
  other : state.head false 1 = 0
  carving : state.head true 62 = 0
  live : state.live (Heap.unit 4194304 (63 * count)) = some 4000
  owned : ∀ index < own, state.live (Heap.unit 4096 (63 * index)) = some 4000
  stamps : ∀ index < own,
    state.heap.memory (Heap.lastWord (Heap.unit 4096 (63 * index)) 63) = 4096
  lists : state.listHead false = 4096 ∧ state.listHead true = 4194304
  last : state.heap.links.next 4096 = 0
  block : (state.heap.blocks 4194304).unitCount = 65535 ∧
    (state.heap.blocks 4194304).allocatingIndex.toNat = 63 * (count + 1)
  ownBlock : (state.heap.blocks 4096).unitCount = size ∧
    (state.heap.blocks 4096).allocatingIndex.toNat = 63 * own ∧
    (state.heap.blocks 4096).gavebackUnitCount = 0
  granted : state.heap.granted = {4096, 4194304}

instance (own : ℕ) (size : UInt64) (state : State Bool) (count : ℕ) :
    Decidable (Filling own size state count) :=
  decidable_of_iff (_ ∧ _ ∧ _ ∧ _ ∧ _ ∧ _ ∧ _ ∧ _ ∧ _ ∧ _ ∧ _ ∧ _)
    ⟨fun ⟨a, b, c, d, e, f, g, h, i, j, k, l⟩ => ⟨a, b, c, d, e, f, g, h, i, j, k, l⟩,
      fun ⟨a, b, c, d, e, f, g, h, i, j, k, l⟩ => ⟨a, b, c, d, e, f, g, h, i, j, k, l⟩⟩

/-- The block has a unit left. -/
theorem filling_tail : ∃ state, (machine Bool).Reachable Admits state ∧ Filling 2 127 state 0 :=
  Machine.reachable_of_any (machine Bool) Admits (initial fun _ => 0)
    ([.allocate false 4000 (some 4096), .allocate false 4000 none] ++
      List.replicate 9 (.allocate true 4000 none) ++ [.allocate true 4000 (some 4194304)])
    (fun state => Filling 2 127 state 0) ⟨fun _ => 0, rfl⟩ (by decide +kernel)

/-- The upstream resource refuses five times, and the block that it grants then is carved to
its end. -/
theorem filling_whole : ∃ state, (machine Bool).Reachable Admits state ∧ Filling 65 4095 state 0 :=
  Machine.reachable_of_any (machine Bool) Admits (initial fun _ => 0)
    (List.replicate 5 (.allocate false 4000 none) ++ [.allocate false 4000 (some 4096)] ++
      List.replicate 64 (.allocate false 4000 none) ++
      List.replicate 9 (.allocate true 4000 none) ++ [.allocate true 4000 (some 4194304)])
    (fun state => Filling 65 4095 state 0) ⟨fun _ => 0, rfl⟩ (by decide +kernel)

variable {own : ℕ} {size : UInt64}

theorem Filling.frees {state : State Bool} {count : ℕ} (filling : Filling own size state count)
    (fewOwn : own ≤ 65) (few : count ≤ 1024) :
    ∃ next, state.move (.deallocate false (Heap.unit 4194304 (63 * count)) 4000) = some next ∧
      next.head false 62 = Heap.unit 4194304 (63 * count) ∧
      next.heap.memory (Heap.unit 4194304 (63 * count) + 8) = count + 1 ∧
      next.head false 1 = 0 ∧ next.head true 62 = 0 ∧
      (∀ index < own, next.live (Heap.unit 4096 (63 * index)) = some 4000) ∧
      (∀ index < own,
        next.heap.memory (Heap.lastWord (Heap.unit 4096 (63 * index)) 63) = 4096) ∧
      (next.listHead false = 4096 ∧ next.listHead true = 4194304) ∧
      next.heap.links = state.heap.links ∧ next.heap.blocks = state.heap.blocks ∧
      next.heap.granted = state.heap.granted := by
  have pooled : Pooled 4000 := by decide
  have size : sizeClass (neededSize 4000) = 62 := by decide
  have held : state.quiet.live (Heap.unit 4194304 (63 * count)) = some 4000 := filling.live
  have top : (state.quiet.pools false).freelist 62 =
      if count = 0 then 0 else Heap.unit 4194304 (63 * (count - 1)) := filling.freelist
  have length : count ≠ 0 →
      state.quiet.heap.memory (Heap.unit 4194304 (63 * (count - 1)) + 8) = count := filling.length
  have shorter : (if count = 0 then 0 else Heap.unit 4194304 (63 * (count - 1))) = 0 ∨
      state.quiet.heap.memory
        ((if count = 0 then 0 else Heap.unit 4194304 (63 * (count - 1))) + 8) ≤ 1024 := by
    by_cases none : count = 0
    · exact .inl (if_pos none)
    · rw [if_neg none, length none]
      exact .inr few
  simp only [move, State.deallocate, if_pos pooled, if_pos held, size, top, givebackThreshold,
    if_pos shorter]
  refine ⟨_, rfl, ?_⟩
  have far : 4194368 ≤ Heap.unit 4194304 (63 * count) := by
    rw [Heap.unit]
    omega
  have apart : count ≠ 0 →
      Heap.unit 4194304 (63 * (count - 1)) + 8 ≠ Heap.unit 4194304 (63 * count) := by
    intro some
    rw [Heap.unit, Heap.unit]
    omega
  have present : Heap.unit 4194304 (63 * (count - 1)) ≠ 0 := by
    rw [Heap.unit]
    omega
  have below (index : ℕ) (within : index < own) : Heap.unit 4096 (63 * index) + 4032 ≤ 4194304 := by
    rw [Heap.unit]
    omega
  have owned := filling.owned
  have stamps := filling.stamps
  generalize Heap.unit 4194304 (63 * count) = address at *
  refine ⟨?_, ?_, ?_, ?_, ?_, ?_, ⟨?_, ?_⟩, rfl, rfl, rfl⟩
  · simp [head, setPool]
  · refine (Function.update_self ..).trans ?_
    by_cases none : count = 0
    · simp [none]
    · simp only [if_neg none, ne_eq, present, not_false_eq_true, if_true]
      refine congrArg (· + 1) ((Function.update_of_ne (apart none) ..).trans (length none))
  · have same := filling.other
    simp only [head, setPool, Function.update_self]
    exact (Function.update_of_ne (by decide) ..).trans same
  · exact filling.carving
  · intro index within
    have lower := below index within
    exact (Function.update_of_ne (by omega) ..).trans (owned index within)
  · intro index within
    have lower := below index within
    have word : Heap.lastWord (Heap.unit 4096 (63 * index)) 63 < 4194304 := by
      rw [Heap.lastWord]
      omega
    exact (Function.update_of_ne (by omega) ..).trans
      ((Function.update_of_ne (by omega) ..).trans (stamps index within))
  · exact filling.lists.1
  · exact filling.lists.2

theorem Filling.fills {state : State Bool} {count : ℕ} (filling : Filling own size state count)
    (fewOwn : own ≤ 65) (few : count ≤ 1024) : ∃ next, (machine Bool).Run Admits state next ∧
      Filling own size next (count + 1) := by
  obtain ⟨middle, freed, top, length, other, carving, owned, stamps, lists, links, blocks,
    granted⟩ := filling.frees fewOwn few
  have pooled : Pooled 4000 := by decide
  have class_eq : sizeClass (neededSize 4000) = 62 := by decide
  have units : (neededUnits (neededSize 4000)).toNat = 63 := by decide
  have empty : middle.quiet.head true (sizeClass (neededSize 4000)) = 0 := by
    rw [class_eq]
    exact carving
  have first : middle.quiet.listHead true = 4194304 := lists.2
  obtain ⟨count_eq, index⟩ := filling.block
  have header : middle.quiet.heap.blocks 4194304 = state.heap.blocks 4194304 := by
    rw [← blocks]
    rfl
  have capacity : (state.heap.blocks 4194304).unitCount.toNat = 65535 := by
    rw [count_eq]
    rfl
  have fits : (middle.quiet.heap.blocks 4194304).Fits (neededSize 4000) := by
    rw [header, Heap.fits_iff, units]
    · omega
    · rw [UInt64.le_iff_toNat_le]
      omega
    · omega
    · omega
  have place : Heap.unit 4194304 (63 * (count + 1)) =
      Heap.unit 4194304 (middle.quiet.heap.blocks 4194304).allocatingIndex.toNat := by
    rw [header, index]
  obtain ⟨next, served, live, heads, listHeads, memory, headers, linksAfter, grants⟩ :=
    allocate_first none pooled empty first (by decide) fits place
  rw [header] at headers
  rw [units] at memory
  have admitted : middle.Admits (.allocate true 4000 none) :=
    ⟨by decide, fun _ answered => by contradiction⟩
  have first_move : (machine Bool).move state
      (.deallocate false (Heap.unit 4194304 (63 * count)) 4000) = some middle := freed
  have second_move : (machine Bool).move middle (.allocate true 4000 none) = some next := served
  refine ⟨next, ((Machine.Run.refl state).tail trivial first_move).tail admitted second_move, ?_⟩
  have reads : ∀ word, word < 4194368 + 4032 * (count + 1) →
      next.heap.memory word = middle.heap.memory word := by
    intro word before
    rw [memory]
    apply Function.update_of_ne
    rw [Heap.lastWord, Heap.unit]
    omega
  have stays : ∀ address < 4194368, next.live address = middle.live address := by
    intro address before
    rw [live]
    apply Function.update_of_ne
    rw [Heap.unit]
    omega
  constructor
  case freelist =>
    rw [heads]
    exact top
  case length =>
    intro _
    rw [reads _ (by rw [Heap.unit]; omega)]
    exact length
  case other =>
    rw [heads]
    exact other
  case carving =>
    rw [heads]
    exact carving
  case live =>
    rw [live]
    exact Function.update_self ..
  case owned =>
    intro index within
    rw [stays _ (by rw [Heap.unit]; omega)]
    exact owned index within
  case stamps =>
    intro index within
    rw [reads _ (by rw [Heap.lastWord, Heap.unit]; omega)]
    exact stamps index within
  case lists =>
    rw [listHeads]
    exact lists
  case last =>
    rw [linksAfter]
    exact (congrArg (fun all : Links ℕ => all.next 4096) links).trans filling.last
  case block =>
    rw [headers, Function.update_self]
    refine ⟨count_eq, ?_⟩
    rw [UInt64.toNat_add, index, units]
    omega
  case ownBlock =>
    have same : next.heap.blocks 4096 = state.heap.blocks 4096 := by
      rw [headers, ← blocks]
      exact Function.update_of_ne (by decide) ..
    rw [same]
    exact filling.ownBlock
  case granted =>
    rw [grants]
    exact granted.trans filling.granted

theorem Filling.filled {state : State Bool} (filling : Filling own size state 0)
    (fewOwn : own ≤ 65) : ∃ next, (machine Bool).Run Admits state next ∧
      Filling own size next 1025 := by
  have fills : ∀ count ≤ 1025, ∃ next, (machine Bool).Run Admits state next ∧
      Filling own size next count := by
    intro count
    induction count with
    | zero => exact fun _ => ⟨state, .refl state, filling⟩
    | succ count ih =>
        intro few
        obtain ⟨middle, before, filling⟩ := ih (by omega)
        obtain ⟨next, after, filled⟩ := filling.fills fewOwn (by omega)
        exact ⟨next, before.trans after, filled⟩
  exact fills 1025 le_rfl

/-- An object beyond those that the freelist takes. -/
theorem deallocate_beyond {address : ℕ} (pooled : Pooled n) (held : state.live address = some n)
    (present : state.head thread (sizeClass (neededSize n)) ≠ 0)
    (long : givebackThreshold <
      state.heap.memory (state.head thread (sizeClass (neededSize n)) + 8))
    (stamped : state.heap.memory (Heap.lastWord address (neededUnits (neededSize n)).toNat) =
      base) :
    state.deallocate thread address n = some { state with
      live := Function.update state.live address none
      heap := state.heap.deallocate base (neededSize n) } := by
  have other : ¬ ((state.pools thread).freelist (sizeClass (neededSize n)) = 0 ∨
      state.heap.memory ((state.pools thread).freelist (sizeClass (neededSize n)) + 8) ≤
        givebackThreshold) := by
    intro short
    cases short with
    | inl empty => exact present empty
    | inr few => exact absurd few (Nat.not_le_of_lt long)
  simp only [State.deallocate, if_pos pooled, if_pos held, if_neg other, stamped]

/-- `given` of the first thread's own objects are given back to their block. -/
structure Draining (own : ℕ) (size : UInt64) (state : State Bool) (given : ℕ) : Prop where
  long : state.head false 62 ≠ 0 ∧ givebackThreshold < state.heap.memory (state.head false 62 + 8)
  empty : state.head false 1 = 0
  owned : ∀ index < own, given ≤ index → state.live (Heap.unit 4096 (63 * index)) = some 4000
  stamps : ∀ index < own,
    state.heap.memory (Heap.lastWord (Heap.unit 4096 (63 * index)) 63) = 4096
  list : state.listHead false = 4096
  last : state.heap.links.next 4096 = 0
  block : (state.heap.blocks 4096).unitCount = size ∧
    (state.heap.blocks 4096).allocatingIndex.toNat = 63 * own ∧
    (state.heap.blocks 4096).gavebackUnitCount.toNat = 63 * given
  granted : state.heap.granted = {4096, 4194304}

theorem Filling.draining {state : State Bool} (filling : Filling own size state 1025) :
    Draining own size state 0 := by
  have top : state.head false 62 = Heap.unit 4194304 (63 * 1024) := filling.freelist
  have length : state.heap.memory (Heap.unit 4194304 (63 * 1024) + 8) = 1025 :=
    filling.length (by decide)
  obtain ⟨unitCount, index, credit⟩ := filling.ownBlock
  constructor
  case long =>
    rw [top, length]
    decide
  case empty => exact filling.other
  case owned => exact fun index within _ => filling.owned index within
  case stamps => exact filling.stamps
  case list => exact filling.lists.1
  case last => exact filling.last
  case block => exact ⟨unitCount, index, congrArg UInt64.toNat credit⟩
  case granted => exact filling.granted

theorem Draining.gives {state : State Bool} {given : ℕ} (draining : Draining own size state given)
    (fewOwn : own ≤ 65) (within : given < own) :
    ∃ next, (machine Bool).Run Admits state next ∧ Draining own size next (given + 1) := by
  have pooled : Pooled 4000 := by decide
  have units : (neededUnits (neededSize 4000)).toNat = 63 := by decide
  have stamped : state.quiet.heap.memory (Heap.lastWord (Heap.unit 4096 (63 * given))
      (neededUnits (neededSize 4000)).toNat) = 4096 := by
    rw [units]
    exact draining.stamps given within
  have moved : (machine Bool).move state
      (.deallocate false (Heap.unit 4096 (63 * given)) 4000) = some { state.quiet with
        live := Function.update state.live (Heap.unit 4096 (63 * given)) none
        heap := state.quiet.heap.deallocate 4096 (neededSize 4000) } :=
    deallocate_beyond pooled (draining.owned given within le_rfl) draining.long.1
      draining.long.2 stamped
  have admitted : state.Admits (.deallocate false (Heap.unit 4096 (63 * given)) 4000) := trivial
  refine ⟨_, (Machine.Run.refl state).tail admitted moved, ?_⟩
  obtain ⟨unitCount, carved, credit⟩ := draining.block
  constructor
  case long => exact draining.long
  case empty => exact draining.empty
  case owned =>
    intro index inside later
    have apart : Heap.unit 4096 (63 * index) ≠ Heap.unit 4096 (63 * given) := by
      rw [Heap.unit, Heap.unit]
      omega
    exact (Function.update_of_ne apart ..).trans (draining.owned index inside (by omega))
  case stamps => exact draining.stamps
  case list => exact draining.list
  case last => exact draining.last
  case block =>
    simp only [Heap.deallocate, quiet, Function.update_self]
    refine ⟨unitCount, carved, ?_⟩
    rw [UInt64.toNat_add, credit, units]
    omega
  case granted => exact draining.granted

theorem Draining.drained {state : State Bool} (draining : Draining own size state 0)
    (fewOwn : own ≤ 65) : ∃ next, (machine Bool).Run Admits state next ∧
      Draining own size next own := by
  have drains : ∀ given ≤ own, ∃ next, (machine Bool).Run Admits state next ∧
      Draining own size next given := by
    intro given
    induction given with
    | zero => exact fun _ => ⟨state, .refl state, draining⟩
    | succ given ih =>
        intro within
        obtain ⟨middle, before, draining⟩ := ih (by omega)
        obtain ⟨next, after, drained⟩ := draining.gives fewOwn (by omega)
        exact ⟨next, before.trans after, drained⟩
  exact drains own le_rfl

/-- Two units are more than the block has left. -/
theorem Draining.passesOver {state : State Bool} (drained : Draining own size state own)
    (fewOwn : own ≤ 65) (full : size.toNat < 63 * own + 2) :
    state.PassesOver false 100 4096 := by
  have head : (state.pools false).blocksList = 4096 := drained.list
  have blocks : state.blocksOf false = [4096] := by
    have few : state.turns = 3 := by
      rw [turns, drained.granted]
      rfl
    rw [blocksOf, few, head]
    simp [Links.walk, drained.last]
  obtain ⟨unitCount, carved, -⟩ := drained.block
  have units : (neededUnits (neededSize 100)).toNat = 2 := by decide
  constructor
  case pooled => decide
  case empty => exact drained.empty
  case full =>
    refine ⟨[], [], blocks, ?_⟩
    intro block member
    cases List.mem_singleton.mp member
    rw [Block.Fits, not_not, gt_iff_lt, UInt64.lt_iff_toNat_lt, UInt64.toNat_add, carved, units,
      unitCount]
    omega

/-- The objects of the block are all given back to it, so nothing of it circulates. -/
theorem Filling.drains {filled : State Bool} (filling : Filling own size filled 0)
    (reachable : (machine Bool).Reachable Admits filled) (fewOwn : own ≤ 65)
    (full : size.toNat < 63 * own + 2) : ∃ state next : State Bool,
      (machine Bool).Reachable Admits state ∧ state.Admits (.allocate false 100 none) ∧
      state.move (.allocate false 100 none) = some next ∧ state.PassesOver false 100 4096 ∧
      state.Unused 4096 ∧ (state.heap.blocks 4096).unitCount = size ∧
      (state.heap.blocks 4096).allocatingIndex.toNat = 63 * own := by
  obtain ⟨start, started, before⟩ := reachable
  obtain ⟨middle, run, filling⟩ := filling.filled fewOwn
  obtain ⟨state, after, drained⟩ := filling.draining.drained fewOwn
  have reachable : (machine Bool).Reachable Admits state :=
    ⟨start, started, (before.trans run).trans after⟩
  obtain ⟨ledger, listed, lists, kept⟩ := kept_of_reachable reachable
  obtain ⟨unitCount, carved, credit⟩ := drained.block
  have granted : 4096 ∈ state.heap.granted := by
    rw [drained.granted]
    decide
  have unused : state.Unused 4096 := by
    apply kept.unused granted
    have balanced := kept.accounts.balanced 4096 granted
    rw [credit, carved] at balanced
    intro address member
    exact Ledger.ne_home_of_outstanding member (kept.accounts.sized address member) (by omega)
  have admitted : state.Admits (.allocate false 100 none) :=
    ⟨by decide, fun _ answered => by contradiction⟩
  obtain ⟨next, moved⟩ :=
    kept.quiet.allocate_returns false (by decide : (100 : UInt64).toNat + 15 < 2 ^ 64)
  exact ⟨state, next, reachable, admitted, moved, drained.passesOver fewOwn full, unused, unitCount,
    carved⟩

/-! ## When a block is returned -/

/-- A call returns a drained block that it passes over exactly when the block has no units left
that were never carved. -/
theorem reclaims_iff_carved {upstream : Option ℕ}
    (reachable : (machine Thread).Reachable Admits state)
    (admitted : state.Admits (.allocate thread n upstream))
    (moved : state.move (.allocate thread n upstream) = some next)
    (passes : state.PassesOver thread n base) (unused : state.Unused base) :
    state.Reclaims next thread upstream base ↔
      (state.heap.blocks base).allocatingIndex = (state.heap.blocks base).unitCount := by
  obtain ⟨ledger, listed, lists, kept⟩ := kept_of_reachable reachable
  have quietPasses : state.quiet.PassesOver thread n base :=
    ⟨passes.pooled, passes.empty, passes.full⟩
  obtain ⟨heap, passed, remaining, found, ledgerAfter, listsAfter, split, member, scanned, returned,
    after, newcomers⟩ := kept.quiet.passes admitted moved quietPasses
  have inList : base ∈ lists thread := split ▸ List.mem_append_left _ member
  have canFree := kept.canFree_iff (kept.lists.inside thread base inList) unused
  constructor
  · intro reclaims
    exact canFree.mp reclaims.canFree
  · intro carved
    have free := canFree.mpr carved
    constructor
    case canFree => exact free
    case returned =>
      rw [returned, scanned.returned base]
      exact .inr ⟨member, free⟩
    case unlinked =>
      intro stays
      rw [after.blocksOf_eq] at stays
      refine (newcomers base stays).resolve_left ?_
      intro remains
      have once := kept.lists.once thread
      rw [split] at once
      cases List.mem_append.mp remains with
      | inl survivor =>
          have notFree := (List.mem_filter.mp survivor).2
          have freed : (state.quiet.heap.blocks base).canFree = true := free
          rw [freed] at notFree
          contradiction
      | inr later => exact (List.nodup_append.mp once).2.2 base member base later rfl
    case wellLinked => exact after.wellLinked

/-- A block of 4095 units is carved to its end and returned, one of 127 units keeps its last
one and stays. -/
theorem reclaims_iff_carved_tail :
    (∃ state next : State Bool, (machine Bool).Reachable Admits state ∧
      state.PassesOver false 100 4096 ∧ (state.heap.blocks 4096).unitCount = 4095 ∧
      state.Reclaims next false none 4096) ∧
    ∃ state next : State Bool, (machine Bool).Reachable Admits state ∧
      state.PassesOver false 100 4096 ∧ (state.heap.blocks 4096).unitCount = 127 ∧
      ¬ state.Reclaims next false none 4096 := by
  constructor
  · obtain ⟨filled, reached, filling⟩ := filling_whole
    obtain ⟨state, next, reachable, admitted, moved, passes, unused, unitCount, carved⟩ :=
      filling.drains reached (by decide) (by decide)
    refine ⟨state, next, reachable, passes, unitCount, ?_⟩
    refine (reclaims_iff_carved reachable admitted moved passes unused).mpr ?_
    rw [unitCount]
    exact UInt64.toNat_inj.mp carved
  · obtain ⟨filled, reached, filling⟩ := filling_tail
    obtain ⟨state, next, reachable, admitted, moved, passes, unused, unitCount, carved⟩ :=
      filling.drains reached (by decide) (by decide)
    refine ⟨state, next, reachable, passes, unitCount, fun reclaims => ?_⟩
    have whole := (reclaims_iff_carved reachable admitted moved passes unused).mp reclaims
    rw [whole, unitCount] at carved
    contradiction

theorem drained_block_kept : ∃ state next : State Bool,
    (machine Bool).Reachable Machine.free state ∧
      state.move (.allocate false 100 none) = some next ∧ state.PassesOver false 100 4096 ∧
      state.Unused 4096 ∧ ¬ state.Reclaims next false none 4096 := by
  obtain ⟨filled, reached, filling⟩ := filling_tail
  obtain ⟨state, next, reachable, -, moved, passes, unused, unitCount, carved⟩ :=
    filling.drains reached (by decide) (by decide)
  refine ⟨state, next, reachable.mono (fun _ _ _ => trivial), moved, passes, unused, ?_⟩
  intro reclaims
  obtain ⟨ledger, listed, lists, kept⟩ := kept_of_reachable reachable
  have granted : 4096 ∈ state.heap.granted := by
    obtain ⟨before, after, blocks, -⟩ := passes.full
    rw [kept.blocksOf_eq] at blocks
    exact kept.lists.inside false 4096 (blocks ▸ List.mem_append_right _ List.mem_cons_self)
  have whole := (kept.canFree_iff granted unused).mp reclaims.canFree
  rw [whole, unitCount] at carved
  contradiction

end State

end Asco.Core.Mm
