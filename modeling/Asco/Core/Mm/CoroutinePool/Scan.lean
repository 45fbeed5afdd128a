import Asco.Core.Mm.CoroutinePool.Accounts

namespace Asco.Core.Mm

open Foundation

/-! # The scan of a thread's blocks

The scan ends at the first block with room.  Of the blocks before it, it returns those whose
every unit was given back.
-/

namespace Heap

variable {heap : Heap} {ledger : Ledger} {n : UInt64}

/-- What the loop over a thread's blocks leaves when it has passed over `passed`. -/
structure Scanned (n : UInt64) (heap : Heap) (ledger : Ledger) (list passed remaining : List ℕ)
    (found : Option ℕ) (next : Heap) : Prop where
  full : ∀ base ∈ passed, ¬ (heap.blocks base).Fits n
  granted : ∀ base, base ∈ next.granted ↔
    base ∈ heap.granted ∧ ¬ (base ∈ passed ∧ (heap.blocks base).canFree = true)
  returned : ∀ base, base ∈ next.returned ↔
    base ∈ heap.returned ∨ base ∈ passed ∧ (heap.blocks base).canFree = true
  frame : ∀ base, base ∉ list →
    next.links.prev base = heap.links.prev base ∧ next.links.next base = heap.links.next base
  missed : found = none → remaining = [] ∧ next.Accounts ledger ∧ next.memory = heap.memory ∧
    next.blocks = heap.blocks
  obtained : ∀ address, found = some address → ∃ base rest, remaining = base :: rest ∧
    (heap.blocks base).Fits n ∧
      Obtained heap.memory ledger next address (neededUnits n).toNat base ∧
      next.blocks = Function.update heap.blocks base { heap.blocks base with
        allocatingIndex := (heap.blocks base).allocatingIndex + neededUnits n }

/-- The blocks that a scan leaves of those it passes over. -/
def survivors (heap : Heap) (passed : List ℕ) : List ℕ :=
  passed.filter fun base => !(heap.blocks base).canFree

theorem Accounts.scan {head fuel : ℕ} (done : List ℕ) {rest : List ℕ}
    (accounts : heap.Accounts ledger)
    (positive : 1 ≤ (neededUnits n).toNat) (small : (neededUnits n).toNat ≤ 63)
    (linked : heap.links.Linked 0 0 head (done ++ rest)) (once : (done ++ rest).Nodup)
    (inside : ∀ base ∈ rest, base ∈ heap.granted) (enough : rest.length < fuel) :
    ∃ found next headAfter passed remaining,
      scan n fuel heap head (rest.headD 0) = some (found, next, headAfter) ∧
      rest = passed ++ remaining ∧
      next.links.Linked 0 0 headAfter (done ++ (heap.survivors passed ++ remaining)) ∧
      Scanned n heap ledger (done ++ rest) passed remaining found next := by
  induction rest generalizing done heap head fuel with
  | nil =>
      obtain ⟨turns, rfl⟩ : ∃ turns, fuel = turns + 1 := ⟨fuel - 1, by simp at enough; omega⟩
      refine ⟨none, heap, head, [], [], rfl, rfl, linked, ?_⟩
      constructor
      case full => exact List.forall_mem_nil _
      case granted => simp
      case returned => simp
      case frame => exact fun base _ => ⟨rfl, rfl⟩
      case missed => exact fun _ => ⟨rfl, accounts, rfl, rfl⟩
      case obtained => exact fun address found => by contradiction
  | cons base rest ih =>
      obtain ⟨turns, rfl⟩ : ∃ turns, fuel = turns + 1 := ⟨fuel - 1, by simp at enough; omega⟩
      have fewer : rest.length < turns := Nat.lt_of_succ_lt_succ enough
      have granted : base ∈ heap.granted := inside base List.mem_cons_self
      have restInside : ∀ other ∈ rest, other ∈ heap.granted :=
        fun other member => inside other (List.mem_cons_of_mem _ member)
      have present : base ≠ 0 := linked.rest.1
      have following : heap.links.next base = rest.headD 0 := linked.rest.2.head_eq
      have shorter : (done ++ rest).Sublist (done ++ base :: rest) :=
        List.Sublist.append_left (List.sublist_cons_self ..) _
      cases allocated : heap.allocate base n with
      | some obtained =>
          obtain ⟨address, next⟩ := obtained
          have carved := accounts.allocate granted positive small allocated
          obtain ⟨fits, -, result⟩ := allocate_eq_some allocated
          have grants : next.granted = heap.granted := by rw [result]; rfl
          have returns : next.returned = heap.returned := by rw [result]; rfl
          have links : next.links = heap.links := by rw [result]; rfl
          refine ⟨some address, next, head, [], base :: rest, ?_, rfl, links ▸ linked, ?_⟩
          · simp only [Heap.scan, List.headD_cons, if_neg present, allocated]
          · constructor
            case full => exact List.forall_mem_nil _
            case granted => simp [grants]
            case returned => simp [returns]
            case frame => exact fun other _ => links ▸ ⟨rfl, rfl⟩
            case missed => exact fun missed => by contradiction
            case obtained =>
              intro found same
              cases same
              exact ⟨base, rest, rfl, fits, carved, by rw [result]⟩
      | none =>
          have full : ¬ (heap.blocks base).Fits n := by
            intro fits
            rw [Heap.allocate] at allocated
            simp [fits] at allocated
          by_cases free : (heap.blocks base).canFree = true
          · -- the block leaves the list and is returned
            have empty := accounts.empty_of_canFree granted free
            have released : ({ heap with links := (heap.links.unlink 0 head base).1 }.release
                base).Accounts ledger := (accounts.of_links _).release empty
            have unlisted : base ∉ rest := by
              have later := (List.nodup_append.mp once).2.1
              exact (List.nodup_cons.mp later).1
            have stillGranted : ∀ other ∈ rest, other ∈ heap.granted.erase base := by
              intro other member
              have different : other ≠ base := fun same => unlisted (same ▸ member)
              exact Finset.mem_erase.mpr ⟨different, restInside other member⟩
            obtain ⟨found, next, headAfter, passed, remaining, scanned, split, after, result⟩ :=
              ih done released (linked.unlink once) (shorter.nodup once) stillGranted fewer
            refine ⟨found, next, headAfter, base :: passed, remaining, ?_, ?_, ?_, ?_⟩
            · simp only [Heap.scan, List.headD_cons, if_neg present, allocated, if_pos free,
                following]
              exact scanned
            · rw [split, List.cons_append]
            · have survivors : heap.survivors (base :: passed) = heap.survivors passed := by
                simp [Heap.survivors, free]
              rw [survivors]
              exact after
            · constructor
              case full => exact List.forall_mem_cons.mpr ⟨full, result.full⟩
              case granted =>
                intro other
                have left : other ∈ next.granted ↔ other ∈ heap.granted.erase base ∧
                    ¬ (other ∈ passed ∧ (heap.blocks other).canFree = true) :=
                  result.granted other
                rw [left, Finset.mem_erase, List.mem_cons]
                by_cases same : other = base
                · simp [same, free]
                · simp [same]
              case returned =>
                intro other
                have gone : other ∈ next.returned ↔ other ∈ base :: heap.returned ∨
                    other ∈ passed ∧ (heap.blocks other).canFree = true :=
                  result.returned other
                rw [gone, List.mem_cons, List.mem_cons]
                by_cases same : other = base
                · simp [same, free]
                · simp [same]
              case frame =>
                intro other absent
                have absentRest : other ∉ done ++ rest := fun member => absent (shorter.mem member)
                obtain ⟨prev, next⟩ := result.frame other absentRest
                obtain ⟨prevBefore, nextBefore⟩ := linked.unlink_frame absent
                exact ⟨prev.trans prevBefore, next.trans nextBefore⟩
              case missed => exact result.missed
              case obtained => exact result.obtained
          · have regrouped : done ++ base :: rest = done ++ [base] ++ rest := by simp
            rw [regrouped] at linked once
            obtain ⟨found, next, headAfter, passed, remaining, scanned, split, after, result⟩ :=
              ih (done ++ [base]) accounts linked once restInside fewer
            refine ⟨found, next, headAfter, base :: passed, remaining, ?_, ?_, ?_, ?_⟩
            · simp only [Heap.scan, List.headD_cons, if_neg present, allocated, if_neg free,
                following]
              exact scanned
            · rw [split, List.cons_append]
            · have survivors : heap.survivors (base :: passed) =
                  base :: heap.survivors passed := by
                simp [Heap.survivors, free]
              rw [survivors]
              simpa using after
            · constructor
              case full => exact List.forall_mem_cons.mpr ⟨full, result.full⟩
              case granted =>
                intro other
                rw [result.granted other]
                by_cases same : other = base
                · simp [same, free]
                · simp [same]
              case returned =>
                intro other
                rw [result.returned other]
                by_cases same : other = base
                · simp [same, free]
                · simp [same]
              case frame =>
                intro other absent
                exact result.frame other (regrouped ▸ absent)
              case missed => exact result.missed
              case obtained => exact result.obtained

end Heap

variable {Thread : Type*}

/-- The blocks lists of the threads hold granted blocks, each of them once. -/
structure Lists (granted : Finset ℕ) (links : Links ℕ) (heads : Thread → ℕ)
    (lists : Thread → List ℕ) : Prop where
  linked : ∀ thread, links.Linked 0 0 (heads thread) (lists thread)
  inside : ∀ thread, ∀ base ∈ lists thread, base ∈ granted
  once : ∀ thread, (lists thread).Nodup
  exclusive : ∀ thread other base, base ∈ lists thread → base ∈ lists other → thread = other

/-- A list is no longer than the number of granted blocks. -/
theorem Lists.length_le {granted : Finset ℕ} {links : Links ℕ} {heads : Thread → ℕ}
    {lists : Thread → List ℕ} (kept : Lists granted links heads lists) (thread : Thread) :
    (lists thread).length ≤ granted.card := by
  rw [← List.toFinset_card_of_nodup (kept.once thread)]
  apply Finset.card_le_card
  intro base member
  exact kept.inside thread base (List.mem_toFinset.mp member)

variable [DecidableEq Thread]

/-- One thread's list is replaced by blocks of its own and blocks of no list. -/
theorem Lists.update {granted after : Finset ℕ} {links linksAfter : Links ℕ} {heads : Thread → ℕ}
    {lists : Thread → List ℕ} {thread : Thread} {head : ℕ} {list : List ℕ}
    (kept : Lists granted links heads lists) (linked : linksAfter.Linked 0 0 head list)
    (once : list.Nodup)
    (inside : ∀ base ∈ list, base ∈ after)
    (own : ∀ base ∈ list, base ∈ lists thread ∨ base ∉ granted)
    (others : ∀ base ∈ granted, base ∉ lists thread → base ∈ after ∧
      linksAfter.prev base = links.prev base ∧ linksAfter.next base = links.next base) :
    Lists after linksAfter (Function.update heads thread head)
      (Function.update lists thread list) := by
  have foreign : ∀ other base, other ≠ thread → base ∈ lists other → base ∉ list := by
    intro other base different member listed
    cases own base listed with
    | inl mine => exact different (kept.exclusive _ _ _ member mine)
    | inr fresh => exact fresh (kept.inside other base member)
  have untouched : ∀ other base, other ≠ thread → base ∈ lists other → base ∈ after ∧
      linksAfter.prev base = links.prev base ∧ linksAfter.next base = links.next base := by
    intro other base different member
    apply others base (kept.inside other base member)
    intro mine
    exact different (kept.exclusive _ _ _ member mine)
  constructor
  case linked =>
    intro other
    by_cases same : other = thread
    · subst same
      rw [Function.update_self, Function.update_self]
      exact linked
    · rw [Function.update_of_ne same, Function.update_of_ne same]
      apply (kept.linked other).congr
      · intro base member
        exact (untouched other base same member).2.1
      · intro base member
        exact (untouched other base same member).2.2
  case inside =>
    intro other base member
    by_cases same : other = thread
    · subst same
      rw [Function.update_self] at member
      exact inside base member
    · rw [Function.update_of_ne same] at member
      exact (untouched other base same member).1
  case once =>
    intro other
    by_cases same : other = thread
    · subst same
      rw [Function.update_self]
      exact once
    · rw [Function.update_of_ne same]
      exact kept.once other
  case exclusive =>
    intro first second base firstMember secondMember
    by_cases firstSame : first = thread
    · by_cases secondSame : second = thread
      · exact firstSame.trans secondSame.symm
      · rw [firstSame, Function.update_self] at firstMember
        rw [Function.update_of_ne secondSame] at secondMember
        exact absurd firstMember (foreign second base secondSame secondMember)
    · rw [Function.update_of_ne firstSame] at firstMember
      by_cases secondSame : second = thread
      · rw [secondSame, Function.update_self] at secondMember
        exact absurd secondMember (foreign first base firstSame firstMember)
      · rw [Function.update_of_ne secondSame] at secondMember
        exact kept.exclusive _ _ _ firstMember secondMember

end Asco.Core.Mm
