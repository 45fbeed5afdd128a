import Asco.Core.Time.HighResolutionTimer
import Asco.Foundation.CyclicSegment
import Asco.Foundation.Machine

namespace Asco.Core.Time.Firing

open Foundation TimerTree

/-! # When timers fire

Each call is one step, beside the history of what it did.
-/

inductive Event (Token : Type*) where
  | registered (id : TimerId) (entry : TimerEntry Token)
  | cancelled (id : TimerId)
  | awoken (id : TimerId) (now : TimePoint)

/-- `history` has the last event first; `passes` counts the calls of `run_once`. -/
structure State (Token : Type*) where
  clock : TimePoint
  tree : TimerTree Token
  history : List (Event Token)
  passes : ℕ

inductive Call (Token : Type*) where
  | tick (now : TimePoint)
  | register (timePoint : TimePoint) (token : Token)
  | cancel (id : TimerId)
  | isExpired (id : TimerId)
  | runOnce

variable {Token : Type*}

/-- The tokens are awoken in the order of the loop. -/
def record (now : TimePoint) :
    List (TimerId × TimerEntry Token) → List (Event Token) → List (Event Token)
  | [], history => history
  | timer :: rest, history => record now rest (.awoken timer.1 now :: history)

/-- `run_once` without the sleep at its end. -/
def State.runOnce (state : State Token) : State Token :=
  let visited := visit state.tree state.clock
  { clock := state.clock
    tree := prune visited.2
    history := record state.clock visited.1 state.history
    passes := state.passes + 1 }

/-- A time point that is over gives no id. -/
def State.register (hash : Token → UInt64) (state : State Token) (timePoint : TimePoint)
    (token : Token) : State Token :=
  if timePoint < state.clock then state
  else
    let id := timerId hash timePoint token
    { state with
      tree := TimerTree.register state.tree id { timePoint, token }
      history := .registered id { timePoint, token } :: state.history }

def move (hash : Token → UInt64) (state : State Token) : Call Token → Option (State Token)
  | .tick now => if state.clock ≤ now then some { state with clock := now } else none
  | .register timePoint token => some (state.register hash timePoint token)
  | .cancel id =>
      some { state with
        tree := TimerTree.cancel state.tree id
        history := .cancelled id :: state.history }
  | .isExpired _ => some state
  | .runOnce => some state.runOnce

def fresh (Token : Type*) (clock : TimePoint) : State Token where
  clock := clock
  tree := .empty
  history := []
  passes := 0

/-- The steady clock does not start before its epoch. -/
def machine (hash : Token → UInt64) : Machine (State Token) (Call Token) where
  start state := ∃ clock, 0 ≤ clock ∧ state = fresh Token clock
  move := move hash

/-- The last thing that happened to the timer is that it was registered: it has neither fired
nor been cancelled. -/
def Live : List (Event Token) → TimerId → Bool
  | [], _ => false
  | .registered other _ :: rest, id => if other = id then true else Live rest id
  | .cancelled other :: rest, id => if other = id then false else Live rest id
  | .awoken other _ :: rest, id => if other = id then false else Live rest id

def registrations : List (Event Token) → TimerId → ℕ
  | [], _ => 0
  | .registered other _ :: rest, id =>
      (if other = id then 1 else 0) + registrations rest id
  | _ :: rest, id => registrations rest id

def awakenings : List (Event Token) → TimerId → ℕ
  | [], _ => 0
  | .awoken other _ :: rest, id => (if other = id then 1 else 0) + awakenings rest id
  | _ :: rest, id => awakenings rest id

/-- The timer ids are pairwise distinct. -/
def Distinct (hash : Token → UInt64) (state : State Token) : Call Token → Prop
  | .register timePoint token =>
      ¬ timePoint < state.clock → registrations state.history (timerId hash timePoint token) = 0
  | _ => True

/-- An id that is registered has not been marked as cancelled in its area before. -/
def Unmarked (hash : Token → UInt64) (state : State Token) : Call Token → Prop
  | .register timePoint token =>
      ¬ timePoint < state.clock → timerId hash timePoint token ∉
        (areaAt state.tree (secFromEpoch timePoint)).removedEntries
  | _ => True

instance (hash : Token → UInt64) : DecidableRel (Distinct hash)
  | _, .register _ _ => inferInstanceAs (Decidable (_ → _))
  | _, .tick _ | _, .cancel _ | _, .isExpired _ | _, .runOnce => isTrue trivial

instance (hash : Token → UInt64) : DecidableRel (Unmarked hash)
  | _, .register _ _ => inferInstanceAs (Decidable (_ → _))
  | _, .tick _ | _, .cancel _ | _, .isExpired _ | _, .runOnce => isTrue trivial

/-- The seconds up to that of a time point that have timers. -/
def dueSeconds (tree : TimerTree Token) (timePoint : TimePoint) : ℕ :=
  (tree.entries.filter fun area =>
    area.1 ≤ secFromEpoch timePoint ∧ area.2.entries.entries.isEmpty = false).length

/-- A token is awoken at most once, not before its time, only while its timer is registered,
unfired and uncancelled, and `is_expired` tells whether it is. -/
structure Exact (state : State Token) : Prop where
  once : ∀ id, awakenings state.history id ≤ 1
  due : ∀ later earlier id now, state.history = later ++ .awoken id now :: earlier →
    Live earlier id = true ∧
      ∃ entry, .registered id entry ∈ earlier ∧ entry.timePoint ≤ now
  expired : ∀ id, isExpired state.tree id = false ↔ Live state.history id = true

/-- A timer whose time has come is no longer pending after one `run_once` for each second
up to its own that has timers. -/
def Fires (hash : Token → UInt64) (guard : State Token → Call Token → Prop)
    (state : State Token) : Prop :=
  ∀ final id entry, (machine hash).Run guard state final →
    .registered id entry ∈ state.history → entry.timePoint ≤ state.clock →
      state.passes + dueSeconds state.tree entry.timePoint ≤ final.passes →
        Live final.history id = false

/-! ## The timers in the tree -/

/-- The timer is in the tree and not marked. -/
def Pending (tree : TimerTree Token) (id : TimerId) : Prop :=
  ∃ area, (id.second, area) ∈ tree ∧ (∃ entry, (id, entry) ∈ area.entries) ∧
    id ∉ area.removedEntries

section

variable {tree : TimerTree Token} {id other : TimerId} {entry : TimerEntry Token}
  {now : TimePoint}

theorem isExpired_eq_false : isExpired tree id = false ↔ Pending tree id := by
  rw [isExpired]
  cases found : tree.get? id.second with
  | none =>
      have absent := OrderedMap.get?_eq_none.mp found
      simp only [Bool.true_eq_false, false_iff]
      intro pending
      obtain ⟨area, member, _⟩ := pending
      exact absent area member
  | some area =>
      have member := OrderedMap.get?_eq_some.mp found
      simp only [Bool.or_eq_false_iff, Bool.not_eq_false', OrderedMap.contains_iff,
        decide_eq_false_iff_not]
      refine ⟨fun held => ⟨area, member, held⟩, fun pending => ?_⟩
      obtain ⟨other, there, held⟩ := pending
      rw [OrderedMap.mem_unique member there]
      exact held

theorem pending_cancel : Pending (TimerTree.cancel tree id) other ↔
    Pending tree other ∧ other ≠ id := by
  refine ⟨fun pending => ?_, fun pending => ?_⟩
  · obtain ⟨area, member, held, unmarked⟩ := pending
    obtain ⟨before, found, changed⟩ := mem_cancel.mp member
    split at changed
    · subst changed
      rw [mark, Finset.mem_insert, not_or] at unmarked
      exact ⟨⟨before, found, held, unmarked.2⟩, unmarked.1⟩
    · rename_i elsewhere
      subst changed
      exact ⟨⟨area, found, held, unmarked⟩, fun same => elsewhere (by rw [same])⟩
  · obtain ⟨⟨area, member, held, unmarked⟩, different⟩ := pending
    refine ⟨_, mem_cancel.mpr ⟨area, member, rfl⟩, ?_⟩
    split
    · refine ⟨held, ?_⟩
      rw [mark, Finset.mem_insert, not_or]
      exact ⟨different, unmarked⟩
    · exact ⟨held, unmarked⟩

theorem pending_register (filed : Filed (secFromEpoch entry.timePoint) id entry)
    (absent : ∀ area, (id.second, area) ∈ tree → ∀ held, (id, held) ∉ area.entries)
    (unmarked : id ∉ (areaAt tree id.second).removedEntries) :
    Pending (TimerTree.register tree id entry) other ↔ Pending tree other ∨ other = id := by
  have second : secFromEpoch entry.timePoint = id.second := filed.second_eq.symm
  have missing (held : TimerEntry Token) : (id, held) ∉ (areaAt tree id.second).entries := by
    intro there
    obtain ⟨area, found, _, there⟩ := mem_areaAt there
    exact absent area found held there
  have stored (held : TimerEntry Token) :
      (other, held) ∈ (put id entry (areaAt tree id.second)).entries ↔
        (other, held) = (id, entry) ∨ (other, held) ∈ (areaAt tree id.second).entries :=
    OrderedMap.mem_emplace missing
  refine ⟨fun pending => ?_, fun pending => ?_⟩
  · obtain ⟨area, member, ⟨held, there⟩, clear⟩ := pending
    rw [mem_register, second] at member
    split at member
    · rename_i same
      subst member
      rcases (stored held).mp there with fresh | there
      · exact .inr (congrArg Prod.fst fresh)
      · obtain ⟨area, found, made, there⟩ := mem_areaAt there
        rw [put, made] at clear
        exact .inl ⟨area, by rw [same]; exact found, ⟨held, there⟩, clear⟩
    · exact .inl ⟨area, member, ⟨held, there⟩, clear⟩
  · rcases pending with ⟨area, member, ⟨held, there⟩, clear⟩ | same
    · by_cases elsewhere : other.second = id.second
      · rw [elsewhere] at member
        refine ⟨put id entry (areaAt tree id.second), ?_, ⟨held, ?_⟩, ?_⟩
        · rw [mem_register, second, if_pos elsewhere]
        · exact (stored held).mpr (.inr (by rw [areaAt_of_mem member]; exact there))
        · rw [put, areaAt_of_mem member]
          exact clear
      · refine ⟨area, ?_, ⟨held, there⟩, clear⟩
        rw [mem_register, second, if_neg elsewhere]
        exact member
    · subst same
      refine ⟨put other entry (areaAt tree other.second), ?_, ⟨entry, ?_⟩, unmarked⟩
      · rw [mem_register, second, if_pos rfl]
      · exact (stored entry).mpr (.inl rfl)

theorem pending_prune : Pending (TimerTree.prune tree) id ↔ Pending tree id := by
  refine ⟨fun pending => ?_, fun pending => ?_⟩
  · obtain ⟨area, member, held⟩ := pending
    exact ⟨area, prune_contained member, held⟩
  · obtain ⟨area, member, ⟨entry, there⟩, unmarked⟩ := pending
    exact ⟨area, mem_prune member there, ⟨entry, there⟩, unmarked⟩

theorem keys_nodup {area : EntryArea Token} :
    (area.entries.entries.map Prod.fst).Nodup :=
  List.pairwise_map.mpr (area.entries.ordered.imp fun before => before.ne)

/-- What fires was pending and is due. -/
theorem fired_pending (placed : Placed tree) (fires : (id, entry) ∈ (visit tree now).1) :
    Pending tree id ∧ entry.timePoint ≤ now ∧
      ∃ second area, (second, area) ∈ tree ∧ (id, entry) ∈ area.entries := by
  rcases visit_cases tree now with ⟨visited, _⟩ | ⟨second, area, rest, starts, _, visited⟩
  · rw [visited] at fires
    contradiction
  · rw [visited] at fires
    have member : (second, area) ∈ tree := by
      rw [OrderedMap.mem_iff, starts]
      exact List.mem_cons_self
    have there : (id, entry) ∈ area.entries := sweep_fired_sublist.subset fires
    obtain ⟨unmarked, due⟩ := sweep_fired keys_nodup fires
    have placedAt := (placed second area member id entry there).second_eq
    exact ⟨⟨area, placedAt ▸ member, ⟨entry, there⟩, unmarked⟩, due, second, area, member, there⟩

theorem fired_distinct : ((visit tree now).1.map Prod.fst).Nodup := by
  rcases visit_cases tree now with ⟨visited, _⟩ | ⟨second, area, rest, _, _, visited⟩
  · rw [visited]
    exact List.nodup_nil
  · rw [visited]
    exact keys_nodup.sublist (sweep_fired_sublist.map Prod.fst)

/-- What does not fire stays pending. -/
theorem pending_visit (placed : Placed tree) : Pending (visit tree now).2 id ↔
    Pending tree id ∧ ∀ entry, (id, entry) ∉ (visit tree now).1 := by
  rcases visit_cases tree now with ⟨visited, _⟩ | ⟨second, area, rest, starts, _, visited⟩
  · simp [visited]
  · rw [visited]
    have first : (second, area) ∈ tree := by
      rw [OrderedMap.mem_iff, starts]
      exact List.mem_cons_self
    refine ⟨fun pending => ?_, fun pending => ?_⟩
    · obtain ⟨after, member, ⟨entry, there⟩, clear⟩ := pending
      obtain ⟨before, found, changed⟩ := OrderedMap.mem_update.mp member
      simp only at changed found
      by_cases same : id.second = second
      · rw [if_pos same] at changed
        rw [same] at found
        have one := OrderedMap.mem_unique found first
        subst one changed
        have held := (sweep_suffix now _ _).subset there
        obtain ⟨marks, unfired⟩ := (sweep_kept keys_nodup held).1 there
        rw [← same] at found
        exact ⟨⟨before, found, ⟨entry, held⟩, fun marked => clear (marks.mpr marked)⟩, unfired⟩
      · rw [if_neg same] at changed
        subst changed
        refine ⟨⟨after, found, ⟨entry, there⟩, clear⟩, fun other fires => same ?_⟩
        exact (placed second area first id other (sweep_fired_sublist.subset fires)).second_eq
    · obtain ⟨⟨before, found, ⟨entry, held⟩, clear⟩, unfired⟩ := pending
      refine ⟨if id.second = second then leave now before else before,
        OrderedMap.mem_update.mpr ⟨before, found, rfl⟩, ?_⟩
      by_cases same : id.second = second
      · rw [if_pos same]
        rw [same] at found
        have one := OrderedMap.mem_unique found first
        subst one
        have kept := @sweep_kept Token now before.removedEntries id entry _ keys_nodup held
        have stays : (id, entry) ∈ (swept now before).entries := by
          by_contra gone
          exact unfired entry (kept.2 gone clear)
        exact ⟨⟨entry, stays⟩, fun marked => clear ((kept.1 stays).1.mp marked)⟩
      · rw [if_neg same]
        exact ⟨⟨entry, held⟩, clear⟩

end

/-! ## The history -/

/-- Every awakening is one of a live timer whose time has come, every id is new. -/
def Sound : List (Event Token) → Prop
  | [] => True
  | .registered id entry :: rest =>
      (id.seq = entry.timePoint.toUInt64 ∧ registrations rest id = 0) ∧ Sound rest
  | .cancelled _ :: rest => Sound rest
  | .awoken id now :: rest =>
      (Live rest id = true ∧ ∃ entry, .registered id entry ∈ rest ∧ entry.timePoint ≤ now) ∧
        Sound rest

section

variable {history : List (Event Token)} {id : TimerId} {entry : TimerEntry Token}
  {now : TimePoint} {fired : List (TimerId × TimerEntry Token)}

theorem registrations_pos (registered : .registered id entry ∈ history) :
    registrations history id ≠ 0 := by
  induction history with
  | nil => contradiction
  | cons event rest ih =>
      rcases List.mem_cons.mp registered with same | before
      · rw [← same]
        simp [registrations]
      · cases event with
        | registered other held =>
            rw [registrations]
            have later := ih before
            omega
        | _ => exact ih before

/-- A timer fires at most once, and not while it is live. -/
theorem Sound.counted (sound : Sound history) (id : TimerId) :
    awakenings history id + (Live history id).toNat ≤ registrations history id ∧
      registrations history id ≤ 1 := by
  induction history with
  | nil => simp [awakenings, Live, registrations]
  | cons event rest ih =>
      cases event with
      | registered other held =>
          obtain ⟨⟨_, fresh⟩, sound⟩ := sound
          have before := ih sound
          simp only [awakenings, Live, registrations]
          by_cases same : other = id
          · subst same
            simp only [if_true, Bool.toNat_true]
            omega
          · simpa [same] using before
      | cancelled other =>
          have before := ih sound
          simp only [awakenings, Live, registrations]
          split
          · simp only [Bool.toNat_false]
            omega
          · exact before
      | awoken other at_ =>
          obtain ⟨⟨live, _⟩, sound⟩ := sound
          have before := ih sound
          simp only [awakenings, Live, registrations]
          by_cases same : other = id
          · subst same
            rw [live, Bool.toNat_true] at before
            simp only [if_true, Bool.toNat_false]
            omega
          · simpa [same] using before

/-- What a history says holds of every part of it. -/
theorem Sound.due (sound : Sound history) {later earlier : List (Event Token)}
    (split : history = later ++ .awoken id now :: earlier) :
    Live earlier id = true ∧ ∃ entry, .registered id entry ∈ earlier ∧ entry.timePoint ≤ now := by
  subst split
  induction later with
  | nil => exact sound.1
  | cons event rest ih =>
      cases event with
      | registered other held => exact ih sound.2
      | cancelled other => exact ih sound
      | awoken other at_ => exact ih sound.2

/-- An id carries the time point it was registered with. -/
theorem Sound.named (sound : Sound history) (registered : .registered id entry ∈ history) :
    id.seq = entry.timePoint.toUInt64 := by
  induction history with
  | nil => contradiction
  | cons event rest ih =>
      cases event with
      | registered other held =>
          rcases List.mem_cons.mp registered with same | before
          · cases same
            exact sound.1.1
          · exact ih sound.2 before
      | cancelled other =>
          exact ih sound ((List.mem_cons.mp registered).resolve_left (by simp))
      | awoken other at_ =>
          exact ih sound.2 ((List.mem_cons.mp registered).resolve_left (by simp))

theorem live_record : Live (record now fired history) id = true ↔
    Live history id = true ∧ ∀ entry, (id, entry) ∉ fired := by
  induction fired generalizing history with
  | nil => simp [record]
  | cons timer rest ih =>
      rw [record, ih, Live]
      by_cases same : timer.1 = id
      · subst same
        simp only [if_true, Bool.false_eq_true, false_and, false_iff, not_and, not_forall,
          not_not]
        exact fun _ => ⟨timer.2, List.mem_cons_self⟩
      · have apart (entry : TimerEntry Token) : (id, entry) ≠ timer := by
          intro equal
          exact same (congrArg Prod.fst equal).symm
        simp [same, apart]

theorem registered_record (registered : .registered id entry ∈ history) :
    .registered id entry ∈ record now fired history := by
  induction fired generalizing history with
  | nil => exact registered
  | cons timer rest ih => exact ih (List.mem_cons_of_mem _ registered)

theorem Sound.record (sound : Sound history) (distinct : (fired.map Prod.fst).Nodup)
    (due : ∀ id entry, (id, entry) ∈ fired → Live history id = true ∧
      .registered id entry ∈ history ∧ entry.timePoint ≤ now) :
    Sound (Firing.record now fired history) := by
  induction fired generalizing history with
  | nil => exact sound
  | cons timer rest ih =>
      obtain ⟨apart, later⟩ := List.nodup_cons.mp distinct
      obtain ⟨live, registered, reached⟩ := due timer.1 timer.2 List.mem_cons_self
      apply ih
      · exact ⟨⟨live, timer.2, registered, reached⟩, sound⟩
      · exact later
      · intro id entry member
        obtain ⟨live, registered, reached⟩ := due id entry (List.mem_cons_of_mem _ member)
        have different : timer.1 ≠ id := by
          intro same
          exact apart (same ▸ List.mem_map_of_mem (f := Prod.fst) member)
        exact ⟨by rw [Live, if_neg different, live], List.mem_cons_of_mem _ registered, reached⟩

end

/-! ## The tree and the history -/

structure Matches (state : State Token) : Prop where
  clock : 0 ≤ state.clock
  placed : Placed state.tree
  occupied : ∀ second area, (second, area) ∈ state.tree → area.entries.entries ≠ []
  known : ∀ second area, (second, area) ∈ state.tree → ∀ id entry, (id, entry) ∈ area.entries →
    .registered id entry ∈ state.history
  pending : ∀ id, Pending state.tree id ↔ Live state.history id = true
  sound : Sound state.history

section

variable {hash : Token → UInt64} {state next final : State Token} {id : TimerId}
  {timePoint : TimePoint} {token : Token} {entry : TimerEntry Token}

theorem filed_timerId (positive : 0 ≤ timePoint) :
    Filed (secFromEpoch timePoint) (timerId hash timePoint token) { timePoint, token } where
  second := rfl
  seq := rfl
  positive := positive

theorem timerId_second : (timerId hash timePoint token).second = secFromEpoch timePoint := by
  rw [TimerId.second, timerId, Int64.toInt64_toUInt64]

theorem Matches.register (holds : Matches state) (ahead : ¬ timePoint < state.clock)
    (distinct : registrations state.history (timerId hash timePoint token) = 0)
    (unmarked : timerId hash timePoint token ∉
      (areaAt state.tree (secFromEpoch timePoint)).removedEntries) :
    Matches (state.register hash timePoint token) := by
  have filed : Filed (secFromEpoch timePoint) (timerId hash timePoint token)
      { timePoint, token } :=
    filed_timerId (Int64.le_trans holds.clock (Int64.not_lt.mp ahead))
  have absent (area : EntryArea Token)
      (member : ((timerId hash timePoint token).second, area) ∈ state.tree)
      (held : TimerEntry Token) : (timerId hash timePoint token, held) ∉ area.entries :=
    fun there => registrations_pos (holds.known _ _ member _ _ there) distinct
  have clear : timerId hash timePoint token ∉
      (areaAt state.tree (timerId hash timePoint token).second).removedEntries := by
    rw [timerId_second]
    exact unmarked
  have pends (other : TimerId) : Pending
      (TimerTree.register state.tree (timerId hash timePoint token) { timePoint, token }) other ↔
        Pending state.tree other ∨ other = timerId hash timePoint token :=
    pending_register filed absent clear
  rw [State.register, if_neg ahead]
  refine ⟨holds.clock, holds.placed.register filed, ?_, ?_, fun other => ?_, ⟨rfl, distinct⟩,
    holds.sound⟩
  · intro second area member
    rw [mem_register] at member
    split at member
    · subst member
      exact OrderedMap.place_ne_nil
    · exact holds.occupied second area member
  · intro second area member other held there
    rw [mem_register] at member
    split at member
    · subst member
      rcases mem_put there with fresh | there
      · cases fresh
        exact List.mem_cons_self
      · obtain ⟨area, found, _, there⟩ := mem_areaAt there
        exact List.mem_cons_of_mem _ (holds.known _ area found other held there)
    · exact List.mem_cons_of_mem _ (holds.known second area member other held there)
  · rw [pends other, holds.pending other, Live]
    by_cases same : timerId hash timePoint token = other
    · simp [same]
    · simp [same, Ne.symm same]

theorem Matches.cancel (holds : Matches state) :
    Matches { state with
      tree := TimerTree.cancel state.tree id
      history := .cancelled id :: state.history } := by
  refine ⟨holds.clock, holds.placed.cancel, ?_, ?_, fun other => ?_, holds.sound⟩
  · intro second area member
    obtain ⟨before, found, changed⟩ := mem_cancel.mp member
    have occupied := holds.occupied second before found
    rw [changed]
    split
    · exact occupied
    · exact occupied
  · intro second area member other held there
    obtain ⟨before, found, changed⟩ := mem_cancel.mp member
    apply List.mem_cons_of_mem
    apply holds.known second before found
    rw [changed] at there
    split at there
    · exact there
    · exact there
  · rw [pending_cancel, holds.pending other, Live]
    by_cases same : id = other
    · simp [same]
    · simp [same, Ne.symm same]

/-- After the pruning no area is empty when only the first one was. -/
theorem prune_occupied {tree : TimerTree Token}
    (occupied : ∀ area ∈ tree.entries.tail, area.2.entries.entries ≠ [])
    (area : ℕ × EntryArea Token) (member : area ∈ (prune tree).entries) :
    area.2.entries.entries ≠ [] := by
  rw [prune, OrderedMap.dropWhile] at member
  cases starts : tree.entries with
  | nil => simp [starts] at member
  | cons first rest =>
      rw [starts] at occupied
      simp only [starts, List.dropWhile_cons] at member
      split at member
      · exact occupied area ((List.dropWhile_sublist _).subset member)
      · rename_i nonempty
        rcases List.mem_cons.mp member with rfl | later
        · simpa using nonempty
        · exact occupied area later

theorem visit_occupied {tree : TimerTree Token} {now : TimePoint}
    (occupied : ∀ second area, (second, area) ∈ tree → area.entries.entries ≠ []) :
    ∀ area ∈ (visit tree now).2.entries.tail, area.2.entries.entries ≠ [] := by
  intro area member
  rcases visit_cases tree now with ⟨visited, _⟩ | ⟨second, held, rest, starts, _, visited⟩
  · rw [visited] at member
    exact occupied area.1 area.2 (List.mem_of_mem_tail member)
  · have listed : area ∈ (tree.entries.map fun entry =>
        if entry.1 = second then (entry.1, leave now entry.2) else entry).tail := by
      rw [visited] at member
      exact member
    have ordered := tree.ordered
    rw [starts] at ordered
    rw [starts, List.map_cons, List.tail_cons, List.mem_map] at listed
    obtain ⟨before, found, rfl⟩ := listed
    have after := (List.pairwise_cons.mp ordered).1 before found
    rw [if_neg after.ne']
    apply occupied before.1
    rw [OrderedMap.mem_iff, starts]
    exact List.mem_cons_of_mem _ found

theorem Matches.runOnce (holds : Matches state) : Matches state.runOnce := by
  refine ⟨holds.clock, holds.placed.visit.prune, ?_, ?_, fun other => ?_, ?_⟩
  · intro second area member
    exact prune_occupied (visit_occupied holds.occupied) (second, area) member
  · intro second area member other held there
    obtain ⟨before, found, kept⟩ := visit_contained (prune_contained member)
    exact registered_record (holds.known second before found other held (kept other held there))
  · rw [State.runOnce, pending_prune, pending_visit holds.placed, live_record, holds.pending]
  · apply holds.sound.record fired_distinct
    intro id entry fires
    obtain ⟨pending, due, second, area, member, there⟩ := fired_pending holds.placed fires
    exact ⟨(holds.pending id).mp pending, holds.known second area member id entry there, due⟩

theorem Matches.move (holds : Matches state) {call : Call Token}
    (distinct : Distinct hash state call) (unmarked : Unmarked hash state call)
    (moved : Firing.move hash state call = some next) : Matches next := by
  cases call with
  | tick now =>
      simp only [Firing.move] at moved
      split at moved
      · rename_i forward
        cases moved
        exact ⟨Int64.le_trans holds.clock forward, holds.placed, holds.occupied, holds.known,
          holds.pending, holds.sound⟩
      · contradiction
  | register timePoint token =>
      cases moved
      by_cases past : timePoint < state.clock
      · rw [State.register, if_pos past]
        exact holds
      · exact holds.register past (distinct past) (unmarked past)
  | cancel id =>
      cases moved
      exact holds.cancel
  | isExpired id =>
      cases moved
      exact holds
  | runOnce =>
      cases moved
      exact holds.runOnce

theorem matches_fresh {clock : TimePoint} (positive : 0 ≤ clock) : Matches (fresh Token clock) where
  clock := positive
  placed _ _ member := by contradiction
  occupied _ _ member := by contradiction
  known _ _ member := by contradiction
  pending id := by
    simp only [fresh, Live, Bool.false_eq_true, iff_false]
    intro pending
    obtain ⟨area, member, _⟩ := pending
    contradiction
  sound := trivial

/-! ## The seconds before a timer -/

/-- The keys up to the second of a time point. -/
def dueKeys (entries : List (ℕ × EntryArea Token)) (timePoint : TimePoint) : ℕ :=
  ((entries.map Prod.fst).filter fun second => second ≤ secFromEpoch timePoint).length

theorem dueSeconds_eq {tree : TimerTree Token}
    (occupied : ∀ second area, (second, area) ∈ tree → area.entries.entries ≠ []) :
    dueSeconds tree timePoint = dueKeys tree.entries timePoint := by
  rw [dueSeconds, dueKeys, List.filter_map, List.length_map]
  congr 1
  apply List.filter_congr
  intro area member
  have nonempty := occupied area.1 area.2 member
  simp [List.isEmpty_eq_false_iff, nonempty]

/-- A change of the areas leaves the seconds. -/
theorem dueKeys_map {entries : List (ℕ × EntryArea Token)} {second : ℕ}
    {change : EntryArea Token → EntryArea Token} :
    dueKeys (entries.map fun entry =>
      if entry.1 = second then (entry.1, change entry.2) else entry) timePoint =
        dueKeys entries timePoint := by
  have keys : (entries.map fun entry =>
      if entry.1 = second then (entry.1, change entry.2) else entry).map Prod.fst =
        entries.map Prod.fst := by
    rw [List.map_map]
    apply List.map_congr_left
    intro area _
    rw [Function.comp_apply]
    split <;> rfl
  rw [dueKeys, keys, dueKeys]

theorem dueKeys_place {entries : List (ℕ × EntryArea Token)} {second : ℕ} {area : EntryArea Token}
    (after : secFromEpoch timePoint < second) :
    dueKeys (OrderedMap.place second area entries) timePoint = dueKeys entries timePoint := by
  have late : ¬ second ≤ secFromEpoch timePoint := not_le.mpr after
  induction entries with
  | nil => simp [OrderedMap.place, dueKeys, late]
  | cons first rest ih =>
      rw [OrderedMap.place]
      split
      · simp [dueKeys, late]
      · split
        · rfl
        · simp only [dueKeys, List.map_cons, List.filter_cons] at ih ⊢
          split
          · rw [List.length_cons, List.length_cons, ih]
          · exact ih

/-- A pending timer is in the area of its second. -/
theorem pending_dueKeys {tree : TimerTree Token} (named : id.seq = entry.timePoint.toUInt64)
    (pending : Pending tree id) : 0 < dueKeys tree.entries entry.timePoint := by
  obtain ⟨area, member, _⟩ := pending
  have second : id.second = secFromEpoch entry.timePoint := by
    rw [TimerId.second, named, Int64.toInt64_toUInt64]
  rw [dueKeys, List.length_pos_iff]
  apply List.ne_nil_of_mem
  rw [List.mem_filter]
  exact ⟨List.mem_map_of_mem (f := Prod.fst) member, by simp [second]⟩

theorem dueKeys_sublist {entries smaller : List (ℕ × EntryArea Token)}
    (contained : smaller.Sublist entries) :
    dueKeys smaller timePoint ≤ dueKeys entries timePoint :=
  ((contained.map Prod.fst).filter _).length_le

/-- A `run_once` after which a due timer is still pending has emptied an earlier second. -/
theorem Matches.runOnce_dueKeys (holds : Matches state)
    (named : id.seq = entry.timePoint.toUInt64) (reached : entry.timePoint ≤ state.clock)
    (pending : Pending state.runOnce.tree id) :
    dueKeys state.runOnce.tree.entries entry.timePoint + 1 ≤
      dueKeys state.tree.entries entry.timePoint := by
  have second : id.second = secFromEpoch entry.timePoint := by
    rw [TimerId.second, named, Int64.toInt64_toUInt64]
  obtain ⟨after, member, ⟨held, there⟩, _⟩ := pending_prune.mp pending
  obtain ⟨before, found, kept⟩ := visit_contained member
  have filed := holds.placed _ before found id held (kept id held there)
  have time : held.timePoint = entry.timePoint := by
    rw [← Int64.toInt64_toUInt64 held.timePoint, ← filed.seq, named, Int64.toInt64_toUInt64]
  have due := secFromEpoch_mono (time ▸ filed.positive) reached
  rcases visit_cases state.tree state.clock with
    ⟨_, early⟩ | ⟨first, area, rest, starts, _, visited⟩
  · cases starts : state.tree.entries with
    | nil =>
        rw [OrderedMap.mem_iff, starts] at found
        contradiction
    | cons head rest =>
        have late := early head.1 head.2 rest starts
        have order : head.1 ≤ id.second := OrderedMap.first_le starts found
        omega
  · have firstMember : (first, area) ∈ state.tree := by
      rw [OrderedMap.mem_iff, starts]
      exact List.mem_cons_self
    have left {other : TimerId} {stays : TimerEntry Token}
        (stayed : (other, stays) ∈ (swept state.clock area).entries) :
        state.clock < stays.timePoint :=
      sweep_left area.entries.ordered (holds.placed first area firstMember) stayed
    have order : first ≤ id.second := OrderedMap.first_le starts found
    rw [visited] at member
    obtain ⟨origin, originMember, changed⟩ := OrderedMap.mem_update.mp member
    have different : id.second ≠ first := by
      intro same
      simp only [same] at originMember changed
      rw [OrderedMap.mem_unique originMember firstMember, if_pos trivial] at changed
      rw [changed] at there
      have late := left there
      rw [time] at late
      exact absurd reached (Int64.not_le.mpr late)
    have emptied : (leave state.clock area).entries.entries = [] := by
      rw [List.eq_nil_iff_forall_not_mem]
      intro stays stayed
      have late := left stayed
      have placedAt := holds.placed first area firstMember stays.1 stays.2
        ((sweep_suffix state.clock _ _).subset stayed)
      have seconds := secFromEpoch_mono (time ▸ filed.positive)
        (Int64.le_of_lt (Int64.lt_of_le_of_lt reached late))
      rw [placedAt.second] at seconds
      omega
    have pruned : (prune (state.tree.update first (leave state.clock))).entries.Sublist
        (rest.map fun entry =>
          if entry.1 = first then (entry.1, leave state.clock entry.2) else entry) := by
      have listed : (prune (state.tree.update first (leave state.clock))).entries =
          (state.tree.entries.map fun entry =>
            if entry.1 = first then (entry.1, leave state.clock entry.2) else entry).dropWhile
              fun area => area.2.entries.entries.isEmpty := rfl
      rw [listed, starts, List.map_cons, if_pos rfl, List.dropWhile_cons_of_pos (by simp [emptied])]
      exact List.dropWhile_sublist _
    have fewer : dueKeys state.runOnce.tree.entries entry.timePoint ≤
        dueKeys rest entry.timePoint := by
      rw [State.runOnce, visited]
      exact (dueKeys_sublist pruned).trans dueKeys_map.le
    have counted : dueKeys state.tree.entries entry.timePoint =
        dueKeys rest entry.timePoint + 1 := by
      have early : first ≤ secFromEpoch entry.timePoint := by omega
      simp [dueKeys, starts, early]
    omega

/-- What a run leaves of a timer that is due. -/
structure Waits (first : State Token) (id : TimerId) (entry : TimerEntry Token)
    (state : State Token) : Prop where
  reached : entry.timePoint ≤ state.clock
  registered : .registered id entry ∈ state.history
  remaining : Live state.history id = true →
    state.passes + dueSeconds state.tree entry.timePoint ≤
      first.passes + dueSeconds first.tree entry.timePoint

theorem Waits.register {first : State Token} (waits : Waits first id entry state)
    (holds : Matches state) (ahead : ¬ timePoint < state.clock)
    (after : Matches (state.register hash timePoint token))
    (distinct : registrations state.history (timerId hash timePoint token) = 0) :
    Waits first id entry (state.register hash timePoint token) := by
  have different : timerId hash timePoint token ≠ id := by
    intro same
    exact registrations_pos waits.registered (same ▸ distinct)
  have occupied := after.occupied
  rw [State.register, if_neg ahead] at occupied ⊢
  refine ⟨waits.reached, List.mem_cons_of_mem _ waits.registered, fun live => ?_⟩
  rw [Live, if_neg different] at live
  have before := waits.remaining live
  rw [dueSeconds_eq holds.occupied] at before
  rw [dueSeconds_eq occupied]
  simp only [TimerTree.register, OrderedMap.update, dueKeys_map]
  have positive : 0 ≤ entry.timePoint := by
    obtain ⟨area, member, ⟨held, there⟩, _⟩ := (holds.pending id).mpr live
    have filed := holds.placed _ area member id held there
    have named := holds.sound.named waits.registered
    rw [← Int64.toInt64_toUInt64 entry.timePoint, ← named, filed.seq, Int64.toInt64_toUInt64]
    exact filed.positive
  have seconds := secFromEpoch_mono positive
    (Int64.le_trans waits.reached (Int64.not_lt.mp ahead))
  rcases seconds.lt_or_eq with later | same
  · rw [OrderedMap.emplace, dueKeys_place later]
    exact before
  · obtain ⟨area, member, _⟩ := (holds.pending id).mpr live
    have second : id.second = secFromEpoch entry.timePoint := by
      rw [TimerId.second, holds.sound.named waits.registered, Int64.toInt64_toUInt64]
    rw [second, same] at member
    rw [OrderedMap.emplace_of_mem member]
    exact before

theorem Waits.move {first : State Token} {call : Call Token} (waits : Waits first id entry state)
    (holds : Matches state) (distinct : Distinct hash state call) (after : Matches next)
    (moved : Firing.move hash state call = some next) : Waits first id entry next := by
  cases call with
  | tick now =>
      simp only [Firing.move] at moved
      split at moved
      · rename_i forward
        cases moved
        exact ⟨Int64.le_trans waits.reached forward, waits.registered, waits.remaining⟩
      · contradiction
  | register timePoint token =>
      cases moved
      by_cases past : timePoint < state.clock
      · rw [State.register, if_pos past]
        exact waits
      · exact waits.register holds past after (distinct past)
  | cancel other =>
      cases moved
      refine ⟨waits.reached, List.mem_cons_of_mem _ waits.registered, fun live => ?_⟩
      rw [Live] at live
      split at live
      · contradiction
      · have before := waits.remaining live
        rw [dueSeconds_eq holds.occupied] at before
        rw [dueSeconds_eq after.occupied, TimerTree.cancel, OrderedMap.update, dueKeys_map]
        exact before
  | isExpired other =>
      cases moved
      exact waits
  | runOnce =>
      cases moved
      refine ⟨waits.reached, registered_record waits.registered, fun live => ?_⟩
      have named := holds.sound.named waits.registered
      have fewer := holds.runOnce_dueKeys named waits.reached ((after.pending id).mpr live)
      have before := waits.remaining (live_record.mp live).1
      rw [dueSeconds_eq holds.occupied] at before
      rw [dueSeconds_eq after.occupied]
      show state.passes + 1 + _ ≤ _
      omega

/-! ## All runs -/

/-- The calls that the results are about. -/
def Admitted (hash : Token → UInt64) (state : State Token) (call : Call Token) : Prop :=
  Distinct hash state call ∧ Unmarked hash state call

instance (hash : Token → UInt64) : DecidableRel (Admitted hash) :=
  fun _ _ => inferInstanceAs (Decidable (_ ∧ _))

theorem matches_of_reachable (reachable : (machine hash).Reachable (Admitted hash) state) :
    Matches state := by
  apply reachable.invariant
  · intro first started
    obtain ⟨clock, positive, rfl⟩ := started
    exact matches_fresh positive
  · intro state call next holds admitted moved
    exact holds.move admitted.1 admitted.2 moved

theorem Matches.exact (holds : Matches state) : Exact state where
  once id := by
    have counted := holds.sound.counted id
    omega
  due _ _ _ _ split := holds.sound.due split
  expired id := isExpired_eq_false.trans (holds.pending id)

theorem exact_and_fires_of_admitted
    (reachable : (machine hash).Reachable (Admitted hash) state) :
    Exact state ∧ Fires hash (Admitted hash) state := by
  refine ⟨(matches_of_reachable reachable).exact, ?_⟩
  intro final id entry run registered reached passed
  have waited := run.reachable_preserves (Waits state id entry) reachable
    (fun _ _ admitted => admitted)
    (fun middle call next middleReachable waits admitted moved =>
      waits.move (matches_of_reachable middleReachable) admitted.1
        (matches_of_reachable (middleReachable.step admitted moved)) moved)
    ⟨reached, registered, fun _ => le_rfl⟩
  have holds := matches_of_reachable waited.1
  by_contra live
  rw [Bool.not_eq_false] at live
  have remaining := waited.2.remaining live
  rw [dueSeconds_eq holds.occupied] at remaining
  have positive := pending_dueKeys (holds.sound.named waited.2.registered)
    ((holds.pending id).mpr live)
  omega

end

/-- A token that is its own hash. -/
def plain (token : Fin 3) : UInt64 := .ofNat token

/-- Of two timers of one second one is cancelled and the other fires; a third one waits in the
next second. -/
theorem exact_and_fires_of_admitted_cancelled :
    ∃ state : State (Fin 3),
      (machine plain).Reachable (Admitted plain) state ∧
        (awakenings state.history (timerId plain 5000000000 0) = 1 ∧
          isExpired state.tree (timerId plain 5000000000 1) = true ∧
          isExpired state.tree (timerId plain 6500000000 2) = false) ∧
        Exact state ∧ Fires plain (Admitted plain) state := by
  obtain ⟨state, reachable, fired⟩ :=
    Machine.reachable_of_any (machine plain) (Admitted plain) (fresh (Fin 3) 0)
      [.register 5000000000 0, .register 5000000000 1, .cancel (timerId plain 5000000000 1),
        .register 6500000000 2, .runOnce, .tick 5000000001, .runOnce]
      (fun state => awakenings state.history (timerId plain 5000000000 0) = 1 ∧
        isExpired state.tree (timerId plain 5000000000 1) = true ∧
        isExpired state.tree (timerId plain 6500000000 2) = false)
      ⟨0, by decide, rfl⟩ (by decide +kernel)
  exact ⟨state, reachable, fired, exact_and_fires_of_admitted reachable⟩

/-- An id is cancelled before it is registered, in a second that has another timer: the timer
registered under it is expired from the start. -/
theorem registered_timer_expired :
    ∃ state : State (Fin 3),
      (machine plain).Reachable (Distinct plain) state ∧ ¬ Exact state := by
  obtain ⟨state, reachable, live, expired⟩ :=
    Machine.reachable_of_any (machine plain) (Distinct plain) (fresh (Fin 3) 0)
      [.register 5000000000 0, .cancel (timerId plain 5000000000 1), .register 5000000000 1]
      (fun state => Live state.history (timerId plain 5000000000 1) = true ∧
        isExpired state.tree (timerId plain 5000000000 1) = true)
      ⟨0, by decide, rfl⟩ (by decide +kernel)
  refine ⟨state, reachable, fun exact => ?_⟩
  have unexpired := (exact.expired _).mpr live
  rw [expired] at unexpired
  contradiction

end Asco.Core.Time.Firing
