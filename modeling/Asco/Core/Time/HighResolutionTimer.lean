import Asco.Foundation.OrderedMap
import Mathlib.Data.Prod.Lex
import Mathlib.Data.Finset.Basic

namespace Asco.Core.Time

open Foundation

/-! # `high_resolution_timer`

The timers of one second form an area, the areas a tree.  A cancelled timer is only marked
in its area and leaves it when the area is visited.
-/

/-- The nanoseconds of a `steady_clock::time_point` since its epoch. -/
abbrev TimePoint := Int64

/-- `timer_id`: the time point and the hash of the token. -/
structure TimerId where
  seq : UInt64
  hash : UInt64

/-- `operator<=>` compares `seq` before `hash`. -/
def TimerId.key (id : TimerId) : ℕ ×ₗ ℕ := toLex (id.seq.toNat, id.hash.toNat)

theorem TimerId.key_injective : Function.Injective TimerId.key := by
  intro first second same
  obtain ⟨firstSeq, firstHash⟩ := first
  obtain ⟨secondSeq, secondHash⟩ := second
  have pair : (firstSeq.toNat, firstHash.toNat) = (secondSeq.toNat, secondHash.toNat) := same
  obtain ⟨seqs, hashes⟩ := Prod.mk.inj pair
  rw [UInt64.toNat_inj.mp seqs, UInt64.toNat_inj.mp hashes]

instance : LinearOrder TimerId := LinearOrder.lift' TimerId.key TimerId.key_injective

structure TimerEntry (Token : Type*) where
  timePoint : TimePoint
  token : Token

structure EntryArea (Token : Type*) where
  entries : OrderedMap TimerId (TimerEntry Token)
  removedEntries : Finset TimerId

/-- `m_timer_tree`, by the seconds since the epoch. -/
abbrev TimerTree (Token : Type*) := OrderedMap ℕ (EntryArea Token)

/-- `duration_cast` truncates towards zero. -/
def secFromEpoch (timePoint : TimePoint) : ℕ := (timePoint / 1000000000).toUInt64.toNat

variable {Token : Type*}

/-- The id that `register_timer` makes. -/
def timerId (hash : Token → UInt64) (timePoint : TimePoint) (token : Token) : TimerId where
  seq := timePoint.toUInt64
  hash := hash token

/-- The second of an id. -/
def TimerId.second (id : TimerId) : ℕ := secFromEpoch id.seq.toInt64

namespace TimerTree

def mark (id : TimerId) (area : EntryArea Token) : EntryArea Token :=
  { area with removedEntries := insert id area.removedEntries }

def put (id : TimerId) (entry : TimerEntry Token) (area : EntryArea Token) : EntryArea Token :=
  { area with entries := area.entries.emplace id entry }

/-- The critical section of `register_timer`. -/
def register (tree : TimerTree Token) (id : TimerId) (entry : TimerEntry Token) :
    TimerTree Token :=
  let second := secFromEpoch entry.timePoint
  (tree.emplace second { entries := .empty, removedEntries := ∅ }).update second (put id entry)

/-- The critical section of `cancel_timer`. -/
def cancel (tree : TimerTree Token) (id : TimerId) : TimerTree Token :=
  tree.update id.second (mark id)

def isExpired (tree : TimerTree Token) (id : TimerId) : Bool :=
  match tree.get? id.second with
  | some area => !area.entries.contains id || decide (id ∈ area.removedEntries)
  | none => true

/-- What the loop over the entries of an area leaves: the timers that it fires, the entries and
the marks. -/
structure Sweep (Token : Type*) where
  fired : List (TimerId × TimerEntry Token)
  entries : List (TimerId × TimerEntry Token)
  removed : Finset TimerId

def sweep (now : TimePoint) (removed : Finset TimerId) :
    List (TimerId × TimerEntry Token) → Sweep Token
  | [] => { fired := [], entries := [], removed }
  | (id, entry) :: rest =>
      if id ∈ removed then sweep now (removed.erase id) rest
      else if now < entry.timePoint then { fired := [], entries := (id, entry) :: rest, removed }
      else
        let later := sweep now removed rest
        { later with fired := (id, entry) :: later.fired }

theorem sweep_suffix (now : TimePoint) (removed : Finset TimerId)
    (entries : List (TimerId × TimerEntry Token)) :
    (sweep now removed entries).entries <:+ entries := by
  induction entries generalizing removed with
  | nil => exact List.suffix_refl _
  | cons first rest ih =>
      rw [sweep]
      split
      · exact (ih _).trans (List.suffix_cons _ _)
      · split
        · exact List.suffix_refl _
        · exact (ih _).trans (List.suffix_cons _ _)

def swept (now : TimePoint) (area : EntryArea Token) : Sweep Token :=
  sweep now area.removedEntries area.entries.entries

/-- The area after the loop. -/
def leave (now : TimePoint) (area : EntryArea Token) : EntryArea Token where
  entries :=
    { entries := (swept now area).entries
      ordered := area.entries.ordered.sublist (sweep_suffix now _ _).sublist }
  removedEntries := (swept now area).removed

/-- The first critical section of `run_once`: the timers it fires and the tree it leaves. -/
def visit (tree : TimerTree Token) (now : TimePoint) :
    List (TimerId × TimerEntry Token) × TimerTree Token :=
  match tree.entries with
  | [] => ([], tree)
  | (second, area) :: _ =>
      if secFromEpoch now < second then ([], tree)
      else ((swept now area).fired, tree.update second (leave now))

/-- The second one. -/
def prune (tree : TimerTree Token) : TimerTree Token :=
  tree.dropWhile fun area => area.2.entries.entries.isEmpty

/-- The third one: `next_time_point`. -/
def nextTimePoint (tree : TimerTree Token) : Option TimePoint :=
  match tree.entries with
  | [] => none
  | (_, area) :: _ => area.entries.entries.head?.map fun entry => entry.2.timePoint

end TimerTree

/-! ## Times and keys -/

section

variable {timePoint earlier later : TimePoint} {id other : TimerId}
  {entry : TimerEntry Token}

theorem nonneg_iff : 0 ≤ timePoint ↔ 0 ≤ timePoint.toInt := Int64.le_iff_toInt_le

theorem toUInt64_toNat (positive : 0 ≤ timePoint) :
    timePoint.toUInt64.toNat = timePoint.toInt.toNat := by
  rw [Int64.toNat_toUInt64_of_le positive, Int64.toNat_toInt]

theorem secFromEpoch_eq (positive : 0 ≤ timePoint) :
    secFromEpoch timePoint = timePoint.toInt.toNat / 1000000000 := by
  have low : 0 ≤ timePoint.toInt := nonneg_iff.mp positive
  have high := timePoint.toInt_lt
  have unit : (1000000000 : Int64).toInt = 1000000000 := by decide
  have quotient : (timePoint / 1000000000).toInt = timePoint.toInt / 1000000000 := by
    rw [Int64.toInt_div, unit, Int.tdiv_eq_ediv_of_nonneg low, Int.bmod_eq_of_le] <;> omega
  have still : 0 ≤ timePoint / 1000000000 := by
    rw [nonneg_iff, quotient]
    omega
  rw [secFromEpoch, toUInt64_toNat still, quotient]
  omega

theorem secFromEpoch_mono (positive : 0 ≤ earlier) (before : earlier ≤ later) :
    secFromEpoch earlier ≤ secFromEpoch later := by
  have order := Int64.le_iff_toInt_le.mp before
  have low := nonneg_iff.mp positive
  have positiveLater : 0 ≤ later := nonneg_iff.mpr (low.trans order)
  rw [secFromEpoch_eq positive, secFromEpoch_eq positiveLater]
  exact Nat.div_le_div_right (by omega)

/-- An entry is filed under its own time point. -/
structure Filed (second : ℕ) (id : TimerId) (entry : TimerEntry Token) : Prop where
  second : secFromEpoch entry.timePoint = second
  seq : id.seq = entry.timePoint.toUInt64
  positive : 0 ≤ entry.timePoint

theorem Filed.second_eq {second : ℕ} (filed : Filed second id entry) : id.second = second := by
  rw [TimerId.second, filed.seq, Int64.toInt64_toUInt64, filed.second]

/-- The ids of the entries are ordered as their time points. -/
theorem Filed.timePoint_le {second first : ℕ} {next : TimerEntry Token}
    (filed : Filed second id entry) (also : Filed first other next) (before : id ≤ other) :
    entry.timePoint ≤ next.timePoint := by
  have seqs : id.seq.toNat ≤ other.seq.toNat := by
    rcases Prod.Lex.le_iff.mp (show id.key ≤ other.key from before) with less | ⟨same, _⟩
    · exact le_of_lt less
    · exact le_of_eq same
  rw [filed.seq, also.seq, toUInt64_toNat filed.positive, toUInt64_toNat also.positive] at seqs
  have low := nonneg_iff.mp filed.positive
  have lowNext := nonneg_iff.mp also.positive
  rw [Int64.le_iff_toInt_le]
  omega

end

/-! ## The loop over an area -/

namespace TimerTree

section

variable {now : TimePoint} {removed : Finset TimerId} {id : TimerId} {entry : TimerEntry Token}
  {entries : List (TimerId × TimerEntry Token)}

theorem sweep_fired_sublist : (sweep now removed entries).fired.Sublist entries := by
  induction entries generalizing removed with
  | nil => exact List.Sublist.slnil
  | cons first rest ih =>
      rw [sweep]
      split
      · exact ih.cons _
      · split
        · exact List.nil_sublist _
        · exact ih.cons_cons _

/-- A timer that fires is due and has not been marked. -/
theorem sweep_fired (distinct : (entries.map Prod.fst).Nodup)
    (fires : (id, entry) ∈ (sweep now removed entries).fired) :
    id ∉ removed ∧ entry.timePoint ≤ now := by
  induction entries generalizing removed with
  | nil => contradiction
  | cons first rest ih =>
      obtain ⟨apart, later⟩ := List.nodup_cons.mp distinct
      rw [sweep] at fires
      split at fires
      · have member := sweep_fired_sublist.subset fires
        have different : id ≠ first.1 := by
          intro same
          exact apart (same ▸ List.mem_map_of_mem (f := Prod.fst) member)
        obtain ⟨unmarked, due⟩ := ih later fires
        exact ⟨fun marked => unmarked (Finset.mem_erase.mpr ⟨different, marked⟩), due⟩
      · rename_i unmarked
        split at fires
        · contradiction
        · rename_i notLater
          rcases List.mem_cons.mp fires with same | fires
          · cases same
            exact ⟨unmarked, Int64.not_lt.mp notLater⟩
          · exact ih later fires

/-- An entry that has not been marked fires or stays, and one that stays keeps its mark. -/
theorem sweep_kept (distinct : (entries.map Prod.fst).Nodup) (member : (id, entry) ∈ entries) :
    ((id, entry) ∈ (sweep now removed entries).entries →
      (id ∈ (sweep now removed entries).removed ↔ id ∈ removed) ∧
        ∀ other, (id, other) ∉ (sweep now removed entries).fired) ∧
      ((id, entry) ∉ (sweep now removed entries).entries → id ∉ removed →
        (id, entry) ∈ (sweep now removed entries).fired) := by
  induction entries generalizing removed with
  | nil => contradiction
  | cons first rest ih =>
      obtain ⟨apart, later⟩ := List.nodup_cons.mp distinct
      have different (other : TimerEntry Token) (there : (id, other) ∈ rest) : id ≠ first.1 := by
        intro same
        exact apart (same ▸ List.mem_map_of_mem (f := Prod.fst) there)
      have restEntries (marks : Finset TimerId)
          (stays : (id, entry) ∈ (sweep now marks rest).entries) : (id, entry) ∈ rest :=
        (sweep_suffix now marks rest).subset stays
      rw [sweep]
      split
      · rename_i marked
        refine ⟨fun stays => ?_, fun gone unmarked => ?_⟩
        · have there := restEntries _ stays
          obtain ⟨marks, unfired⟩ := (ih later there).1 stays
          refine ⟨marks.trans ?_, unfired⟩
          rw [Finset.mem_erase]
          exact ⟨And.right, fun marked => ⟨different entry there, marked⟩⟩
        · rcases List.mem_cons.mp member with same | there
          · exact absurd marked (by rw [← same]; exact unmarked)
          · exact (ih later there).2 gone fun marked => unmarked (Finset.mem_of_mem_erase marked)
      · rename_i unmarked
        split
        · refine ⟨fun stays => ⟨Iff.rfl, fun _ => List.not_mem_nil⟩, fun gone _ => ?_⟩
          exact absurd member gone
        · refine ⟨fun stays => ?_, fun gone unmarkedId => ?_⟩
          · have there := restEntries _ stays
            obtain ⟨marks, unfired⟩ := (ih later there).1 stays
            refine ⟨marks, fun other fires => ?_⟩
            rcases List.mem_cons.mp fires with same | fires
            · exact different entry there (congrArg Prod.fst same)
            · exact unfired other fires
          · rcases List.mem_cons.mp member with same | there
            · rw [same]
              exact List.mem_cons_self
            · exact List.mem_cons_of_mem _ ((ih later there).2 gone unmarkedId)

/-- Nothing that is due stays. -/
theorem sweep_left {second : ℕ} (ordered : entries.Pairwise fun first next => first.1 < next.1)
    (filed : ∀ id entry, (id, entry) ∈ entries → Filed second id entry)
    (stays : (id, entry) ∈ (sweep now removed entries).entries) : now < entry.timePoint := by
  induction entries generalizing removed with
  | nil => contradiction
  | cons first rest ih =>
      obtain ⟨after, later⟩ := List.pairwise_cons.mp ordered
      have filedRest : ∀ id entry, (id, entry) ∈ rest → Filed second id entry :=
        fun id entry member => filed id entry (List.mem_cons_of_mem _ member)
      rw [sweep] at stays
      split at stays
      · exact ih later filedRest stays
      · split at stays
        · rename_i laterThanNow
          rcases List.mem_cons.mp stays with same | there
          · cases same
            exact laterThanNow
          · have before := (filed first.1 first.2 List.mem_cons_self).timePoint_le
              (filedRest id entry there) (after _ there).le
            exact Int64.lt_of_lt_of_le laterThanNow before
        · exact ih later filedRest stays

end

/-! ## The areas of a tree -/

/-- Every entry is in the area of its second. -/
def Placed (tree : TimerTree Token) : Prop :=
  ∀ second area, (second, area) ∈ tree → ∀ id entry, (id, entry) ∈ area.entries →
    Filed second id entry

/-- The area that `register_timer` finds or makes. -/
def areaAt (tree : TimerTree Token) (second : ℕ) : EntryArea Token :=
  (tree.get? second).getD { entries := .empty, removedEntries := ∅ }

section

variable {tree : TimerTree Token} {second : ℕ} {area : EntryArea Token} {id other : TimerId}
  {entry : TimerEntry Token} {now : TimePoint}

theorem areaAt_of_mem (member : (second, area) ∈ tree) : areaAt tree second = area := by
  rw [areaAt, OrderedMap.get?_eq_some.mpr member]
  rfl

theorem areaAt_of_absent (absent : ∀ area, (second, area) ∉ tree) :
    areaAt tree second = { entries := .empty, removedEntries := ∅ } := by
  rw [areaAt, OrderedMap.get?_eq_none.mpr absent]
  rfl

theorem mem_areaAt (member : (id, entry) ∈ (areaAt tree second).entries) :
    ∃ area, (second, area) ∈ tree ∧ areaAt tree second = area ∧ (id, entry) ∈ area.entries := by
  by_cases found : ∃ area, (second, area) ∈ tree
  · obtain ⟨area, found⟩ := found
    rw [areaAt_of_mem found] at member
    exact ⟨area, found, areaAt_of_mem found, member⟩
  · rw [areaAt_of_absent (not_exists.mp found)] at member
    contradiction

theorem mem_register : (second, area) ∈ register tree id entry ↔
    if second = secFromEpoch entry.timePoint then
      area = put id entry (areaAt tree (secFromEpoch entry.timePoint))
    else (second, area) ∈ tree := by
  rw [register, OrderedMap.mem_update]
  by_cases there : ∃ area, (secFromEpoch entry.timePoint, area) ∈ tree
  · obtain ⟨held, there⟩ := there
    rw [OrderedMap.emplace_of_mem there, areaAt_of_mem there]
    by_cases same : second = secFromEpoch entry.timePoint
    · simp only [if_pos same]
      subst same
      refine ⟨fun found => ?_, fun changed => ⟨held, there, changed⟩⟩
      obtain ⟨value, member, changed⟩ := found
      rw [changed, OrderedMap.mem_unique member there]
    · simp only [if_neg same, exists_eq_right']
  · have absent : ∀ area, (secFromEpoch entry.timePoint, area) ∉ tree := not_exists.mp there
    rw [areaAt_of_absent absent]
    simp only [OrderedMap.mem_emplace absent, Prod.mk.injEq]
    by_cases same : second = secFromEpoch entry.timePoint
    · simp only [if_pos same]
      subst same
      refine ⟨fun found => ?_, fun changed => ⟨_, .inl ⟨rfl, rfl⟩, changed⟩⟩
      obtain ⟨value, ⟨_, made⟩ | member, changed⟩ := found
      · rw [changed, made]
      · exact absurd member (absent value)
    · simp [same]

theorem mem_cancel : (second, area) ∈ cancel tree id ↔
    ∃ held, (second, held) ∈ tree ∧ area = if second = id.second then mark id held else held :=
  OrderedMap.mem_update

theorem mem_put {held : TimerEntry Token} (member : (other, held) ∈ (put id entry area).entries) :
    (other, held) = (id, entry) ∨ (other, held) ∈ area.entries :=
  OrderedMap.mem_place member

theorem Placed.register (placed : Placed tree)
    (filed : Filed (secFromEpoch entry.timePoint) id entry) :
    Placed (TimerTree.register tree id entry) := by
  intro second area member other held there
  rw [mem_register] at member
  split at member
  · rename_i same
    subst member
    rcases mem_put there with fresh | there
    · cases fresh
      rw [same]
      exact filed
    · obtain ⟨area, found, _, there⟩ := mem_areaAt there
      rw [same]
      exact placed _ area found other held there
  · exact placed second area member other held there

theorem Placed.cancel (placed : Placed tree) : Placed (TimerTree.cancel tree id) := by
  intro second area member other held there
  obtain ⟨before, found, changed⟩ := mem_cancel.mp member
  apply placed second before found
  rw [changed] at there
  split at there
  · exact there
  · exact there

theorem Placed.sublist {smaller : TimerTree Token} (placed : Placed tree)
    (contained : ∀ second area, (second, area) ∈ smaller → ∃ before, (second, before) ∈ tree ∧
      ∀ id entry, (id, entry) ∈ area.entries → (id, entry) ∈ before.entries) :
    Placed smaller := by
  intro second area member other held there
  obtain ⟨before, found, kept⟩ := contained second area member
  exact placed second before found other held (kept other held there)

/-- Only the first area changes, and only when its second has come. -/
theorem visit_cases (tree : TimerTree Token) (now : TimePoint) :
    (visit tree now = ([], tree) ∧
      ∀ second area rest, tree.entries = (second, area) :: rest → secFromEpoch now < second) ∨
    ∃ second area rest, tree.entries = (second, area) :: rest ∧
      second ≤ secFromEpoch now ∧
      visit tree now = ((swept now area).fired, tree.update second (leave now)) := by
  cases starts : tree.entries with
  | nil => exact .inl ⟨by simp [visit, starts], fun _ _ _ same => by contradiction⟩
  | cons first rest =>
      obtain ⟨second, area⟩ := first
      by_cases early : secFromEpoch now < second
      · refine .inl ⟨by simp [visit, starts, early], fun other held later same => ?_⟩
        cases same
        exact early
      · exact .inr ⟨second, area, rest, rfl, not_lt.mp early, by simp [visit, starts, early]⟩

theorem visit_contained (member : (second, area) ∈ (visit tree now).2) :
    ∃ before, (second, before) ∈ tree ∧
      ∀ id entry, (id, entry) ∈ area.entries → (id, entry) ∈ before.entries := by
  rcases visit_cases tree now with ⟨same, _⟩ | ⟨first, held, rest, starts, _, visited⟩
  · rw [same] at member
    exact ⟨area, member, fun _ _ there => there⟩
  · rw [visited] at member
    obtain ⟨before, found, changed⟩ := OrderedMap.mem_update.mp member
    refine ⟨before, found, fun id entry there => ?_⟩
    simp only at changed
    rw [changed] at there
    split at there
    · exact (sweep_suffix now _ _).subset there
    · exact there

theorem prune_contained (member : (second, area) ∈ prune tree) : (second, area) ∈ tree :=
  (List.dropWhile_sublist _).subset member

theorem mem_prune (member : (second, area) ∈ tree) (occupied : (id, entry) ∈ area.entries) :
    (second, area) ∈ prune tree := by
  have kept {entries : List (ℕ × EntryArea Token)} (there : (second, area) ∈ entries) :
      (second, area) ∈ entries.dropWhile fun area => area.2.entries.entries.isEmpty := by
    induction entries with
    | nil => contradiction
    | cons first rest ih =>
        rw [List.dropWhile_cons]
        split
        · rename_i empty
          rcases List.mem_cons.mp there with same | there
          · rw [← same, List.isEmpty_iff] at empty
            rw [OrderedMap.mem_iff, empty] at occupied
            contradiction
          · exact ih there
        · exact there
  exact kept member

theorem Placed.visit (placed : Placed tree) : Placed (TimerTree.visit tree now).2 :=
  placed.sublist fun _ _ => visit_contained

theorem Placed.prune (placed : Placed tree) : Placed (TimerTree.prune tree) :=
  placed.sublist fun _ area member => ⟨area, prune_contained member, fun _ _ there => there⟩

theorem prune_first {rest : List (ℕ × EntryArea Token)}
    (starts : (prune tree).entries = (second, area) :: rest) : area.entries.entries ≠ [] := by
  have nonempty : (prune tree).entries ≠ [] := by simp [starts]
  have refused : ((prune tree).entries.head nonempty).2.entries.entries.isEmpty = false :=
    List.head_dropWhile_not _ nonempty
  have head : (prune tree).entries.head nonempty = (second, area) := by simp [starts]
  rw [head] at refused
  simpa using refused

/-- The next deadline is not later than any entry. -/
theorem nextTimePoint_le (placed : Placed tree)
    (occupied : ∀ second area rest, tree.entries = (second, area) :: rest →
      area.entries.entries ≠ [])
    (member : (second, area) ∈ tree) (there : (id, entry) ∈ area.entries) :
    ∃ deadline, nextTimePoint tree = some deadline ∧ deadline ≤ entry.timePoint := by
  cases starts : tree.entries with
  | nil =>
      rw [OrderedMap.mem_iff, starts] at member
      contradiction
  | cons first rest =>
      obtain ⟨firstSecond, firstArea⟩ := first
      have firstMember : (firstSecond, firstArea) ∈ tree := by
        rw [OrderedMap.mem_iff, starts]
        exact List.mem_cons_self
      cases heads : firstArea.entries.entries with
      | nil => exact absurd heads (occupied _ _ _ starts)
      | cons head more =>
          have headMember : (head.1, head.2) ∈ firstArea.entries := by
            rw [OrderedMap.mem_iff, heads]
            exact List.mem_cons_self
          refine ⟨head.2.timePoint, by simp [nextTimePoint, starts, heads], ?_⟩
          have filedHead := placed _ _ firstMember _ _ headMember
          have filed := placed _ _ member _ _ there
          have seconds := OrderedMap.first_le starts member
          rcases seconds.lt_or_eq with before | same
          · by_contra later
            have reversed := secFromEpoch_mono filed.positive
              (Int64.le_of_lt (Int64.not_le.mp later))
            rw [filedHead.second, filed.second] at reversed
            exact absurd before (not_lt.mpr reversed)
          · simp only at same
            subst same
            rw [OrderedMap.mem_unique member firstMember] at there
            have order := OrderedMap.first_le heads there
            exact filedHead.timePoint_le filed order

end

end TimerTree

end Asco.Core.Time
