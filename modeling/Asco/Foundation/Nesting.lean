import Mathlib.Data.List.Count
import Mathlib.Data.List.Nodup
import Mathlib.Logic.Function.Basic

namespace Foundation.Nesting

/-! # Nested lifetimes

Every owner has a stack of items.  An item enters at the top, leaves from the
top, and is finished before anything else leaves or enters the stack of that
owner; only then may it enter a stack again.  A history is legal when it can be
replayed under these rules.
-/

inductive Event (Owner Item : Type*) where
  | enter (owner : Owner) (item : Item)
  | leave (owner : Owner) (item : Item)
  | finish (owner : Owner) (item : Item)
deriving DecidableEq

/-- `holder` is the owner of an item that has entered and is not finished, and
`leaving` the item that has left and is not finished. -/
structure Ledger (Owner Item : Type*) where
  holder : Item → Option Owner
  stackOf : Owner → List Item
  leaving : Owner → Option Item

variable {Owner Item : Type*} [DecidableEq Owner] [DecidableEq Item]

namespace Ledger

def empty : Ledger Owner Item where
  holder _ := none
  stackOf _ := []
  leaving _ := none

def step (ledger : Ledger Owner Item) : Event Owner Item → Option (Ledger Owner Item)
  | .enter owner item =>
      if ledger.holder item = none ∧ ledger.leaving owner = none then
        some { ledger with
          holder := Function.update ledger.holder item (some owner)
          stackOf := Function.update ledger.stackOf owner (item :: ledger.stackOf owner) }
      else none
  | .leave owner item =>
      if (ledger.stackOf owner).head? = some item ∧ ledger.leaving owner = none then
        some { ledger with
          stackOf := Function.update ledger.stackOf owner (ledger.stackOf owner).tail
          leaving := Function.update ledger.leaving owner (some item) }
      else none
  | .finish owner item =>
      if ledger.leaving owner = some item then
        some { ledger with
          holder := Function.update ledger.holder item none
          leaving := Function.update ledger.leaving owner none }
      else none

def replay : Ledger Owner Item → List (Event Owner Item) → Option (Ledger Owner Item)
  | ledger, [] => some ledger
  | ledger, event :: rest => (ledger.step event).bind fun next => replay next rest

/-- What the rules keep: a held item is on one stack once, or has just left it. -/
structure Consistent (ledger : Ledger Owner Item) : Prop where
  held : ∀ item owner, ledger.holder item = some owner ↔
    item ∈ ledger.stackOf owner ∨ ledger.leaving owner = some item
  once : ∀ owner, (ledger.stackOf owner).Nodup
  apart : ∀ owner item, ledger.leaving owner = some item → item ∉ ledger.stackOf owner

variable {ledger next last : Ledger Owner Item} {event : Event Owner Item}

theorem replay_append (ledger : Ledger Owner Item) (before after : List (Event Owner Item)) :
    ledger.replay (before ++ after) =
      (ledger.replay before).bind fun middle => middle.replay after := by
  induction before generalizing ledger with
  | nil => rfl
  | cons event rest ih =>
      cases stepped : ledger.step event with
      | none => simp [replay, stepped]
      | some next => simpa [replay, stepped] using ih next

theorem replay_concat {history : List (Event Owner Item)}
    (replayed : empty.replay history = some ledger)
    (stepped : ledger.step event = some next) : empty.replay (history ++ [event]) = some next := by
  simp [replay_append, replayed, replay, stepped]

/-- What one event does to the ledger. -/
inductive Steps (ledger : Ledger Owner Item) : Event Owner Item → Ledger Owner Item → Prop where
  | enter {owner : Owner} {item : Item} (free : ledger.holder item = none)
      (settled : ledger.leaving owner = none) :
      Steps ledger (.enter owner item)
        { ledger with
          holder := Function.update ledger.holder item (some owner)
          stackOf := Function.update ledger.stackOf owner (item :: ledger.stackOf owner) }
  | leave {owner : Owner} {item : Item} {rest : List Item}
      (top : ledger.stackOf owner = item :: rest) (settled : ledger.leaving owner = none) :
      Steps ledger (.leave owner item)
        { ledger with
          stackOf := Function.update ledger.stackOf owner rest
          leaving := Function.update ledger.leaving owner (some item) }
  | finish {owner : Owner} {item : Item} (left : ledger.leaving owner = some item) :
      Steps ledger (.finish owner item)
        { ledger with
          holder := Function.update ledger.holder item none
          leaving := Function.update ledger.leaving owner none }

theorem steps_of_step (stepped : ledger.step event = some next) : Steps ledger event next := by
  cases event with
  | enter owner item =>
      simp only [step, Option.ite_none_right_eq_some, Option.some.injEq] at stepped
      obtain ⟨⟨free, settled⟩, rfl⟩ := stepped
      exact .enter free settled
  | leave owner item =>
      simp only [step, Option.ite_none_right_eq_some, Option.some.injEq] at stepped
      obtain ⟨⟨top, settled⟩, rfl⟩ := stepped
      cases stack : ledger.stackOf owner with
      | nil => simp [stack] at top
      | cons first rest =>
          obtain rfl : first = item := by simpa [stack] using top
          exact .leave stack settled
  | finish owner item =>
      simp only [step, Option.ite_none_right_eq_some, Option.some.injEq] at stepped
      obtain ⟨left, rfl⟩ := stepped
      exact .finish left

omit [DecidableEq Owner] [DecidableEq Item] in
theorem consistent_empty : (empty : Ledger Owner Item).Consistent where
  held := by simp [empty]
  once := by simp [empty]
  apart := by simp [empty]

theorem Consistent.step (consistent : ledger.Consistent) (stepped : ledger.step event = some next) :
    next.Consistent := by
  cases steps_of_step stepped with
  | @enter owner item free settled =>
      have absent : ∀ other, item ∉ ledger.stackOf other ∧ ledger.leaving other ≠ some item := by
        intro other
        have unheld := (consistent.held item other).not.mp (by simp [free])
        exact not_or.mp unheld
      refine ⟨fun other holder => ?_, fun other => ?_, fun other left leaving => ?_⟩
      · by_cases sameItem : other = item
        · subst sameItem
          by_cases sameOwner : holder = owner
          · simp [sameOwner]
          · simp [sameOwner, Ne.symm sameOwner, absent holder]
        · by_cases sameOwner : holder = owner
          · subst sameOwner
            simpa [sameItem] using consistent.held other holder
          · simpa [sameItem, sameOwner] using consistent.held other holder
      · by_cases sameOwner : other = owner
        · subst sameOwner
          simpa [(absent other).1] using consistent.once other
        · simpa [sameOwner] using consistent.once other
      · have different : left ≠ item := fun same => (absent other).2 (same ▸ leaving)
        by_cases sameOwner : other = owner
        · subst sameOwner
          simpa [different] using consistent.apart other left leaving
        · simpa [sameOwner] using consistent.apart other left leaving
  | @leave owner item rest top settled =>
      have distinct := consistent.once owner
      rw [top, List.nodup_cons] at distinct
      refine ⟨fun other holder => ?_, fun other => ?_, fun other left leaving => ?_⟩
      · by_cases sameOwner : holder = owner
        · subst sameOwner
          have held := consistent.held other holder
          simp only [top, List.mem_cons, settled, reduceCtorEq, or_false] at held
          simp only [Function.update_self, Option.some.injEq, held]
          exact ⟨fun either => either.symm.imp_right Eq.symm,
            fun either => either.symm.imp_left Eq.symm⟩
        · simpa [sameOwner] using consistent.held other holder
      · by_cases sameOwner : other = owner
        · subst sameOwner
          simpa using distinct.2
        · simpa [sameOwner] using consistent.once other
      · by_cases sameOwner : other = owner
        · subst sameOwner
          obtain rfl : item = left := by simpa using leaving
          simpa using distinct.1
        · simp only [ne_eq, sameOwner, not_false_eq_true, Function.update_of_ne] at leaving ⊢
          exact consistent.apart other left leaving
  | @finish owner item left =>
      have holds : ledger.holder item = some owner := (consistent.held item owner).mpr (.inr left)
      refine ⟨fun other holder => ?_, consistent.once, fun other gone leaving => ?_⟩
      · have held := consistent.held other holder
        by_cases sameItem : other = item
        · subst sameItem
          by_cases sameOwner : holder = owner
          · subst sameOwner
            simpa using consistent.apart holder other left
          · have unheld := held.not.mp (by simpa [holds] using Ne.symm sameOwner)
            simpa [sameOwner] using unheld
        · by_cases sameOwner : holder = owner
          · subst sameOwner
            rw [left] at held
            simpa [sameItem, Ne.symm sameItem] using held
          · simpa [sameItem, sameOwner] using held
      · by_cases sameOwner : other = owner
        · simp [sameOwner] at leaving
        · simp only [ne_eq, sameOwner, not_false_eq_true, Function.update_of_ne] at leaving
          exact consistent.apart other gone leaving

theorem Consistent.replay {history : List (Event Owner Item)} (consistent : ledger.Consistent)
    (replayed : ledger.replay history = some last) : last.Consistent := by
  induction history generalizing ledger with
  | nil =>
      cases replayed
      exact consistent
  | cons event rest ih =>
      obtain ⟨next, stepped, remaining⟩ := Option.bind_eq_some_iff.mp replayed
      exact ih (consistent.step stepped) remaining

/-! ## How often an item enters, leaves and is finished -/

theorem count_leave {history : List (Event Owner Item)} (owner : Owner) (item : Item)
    (replayed : ledger.replay history = some last) :
    (if ledger.leaving owner = some item then 1 else 0) + history.count (.leave owner item) =
      history.count (.finish owner item) + if last.leaving owner = some item then 1 else 0 := by
  induction history generalizing ledger with
  | nil =>
      cases replayed
      simp
  | cons event rest ih =>
      obtain ⟨next, stepped, remaining⟩ := Option.bind_eq_some_iff.mp replayed
      have counted := ih remaining
      cases steps_of_step stepped with
      | enter => simpa [List.count_cons] using counted
      | @leave holder top _ _ settled =>
          by_cases sameOwner : owner = holder
          · subst sameOwner
            by_cases sameItem : top = item
            · subst sameItem
              simp [settled] at counted ⊢
              omega
            · simpa [List.count_cons, settled, sameItem] using counted
          · simpa [List.count_cons, sameOwner, Ne.symm sameOwner] using counted
      | @finish holder gone left =>
          by_cases sameOwner : owner = holder
          · subst sameOwner
            by_cases sameItem : gone = item
            · subst sameItem
              simp [left] at counted ⊢
              omega
            · simpa [List.count_cons, left, sameItem] using counted
          · simpa [List.count_cons, sameOwner, Ne.symm sameOwner] using counted

theorem count_enter {history : List (Event Owner Item)} (owner : Owner) (item : Item)
    (consistent : ledger.Consistent) (replayed : ledger.replay history = some last) :
    (if ledger.holder item = some owner then 1 else 0) + history.count (.enter owner item) =
      history.count (.finish owner item) + if last.holder item = some owner then 1 else 0 := by
  induction history generalizing ledger with
  | nil =>
      cases replayed
      simp
  | cons event rest ih =>
      obtain ⟨next, stepped, remaining⟩ := Option.bind_eq_some_iff.mp replayed
      have counted := ih (consistent.step stepped) remaining
      cases steps_of_step stepped with
      | @enter holder entered free _ =>
          by_cases sameItem : item = entered
          · subst sameItem
            by_cases sameOwner : holder = owner
            · subst sameOwner
              simp [free] at counted ⊢
              omega
            · simpa [List.count_cons, free, sameOwner] using counted
          · simpa [List.count_cons, sameItem, Ne.symm sameItem] using counted
      | leave => simpa [List.count_cons] using counted
      | @finish holder gone left =>
          have holds := (consistent.held gone holder).mpr (.inr left)
          by_cases sameItem : item = gone
          · subst sameItem
            by_cases sameOwner : holder = owner
            · subst sameOwner
              simp [holds] at counted ⊢
              omega
            · simpa [List.count_cons, holds, sameOwner] using counted
          · simpa [List.count_cons, sameItem, Ne.symm sameItem] using counted

/-! ## Innermost first -/

/-- The item is still on the stack, or has left it with all that was below in place. -/
def Above (ledger : Ledger Owner Item) (owner : Owner) (item : Item) (base : List Item) : Prop :=
  (∃ above, ledger.stackOf owner = above ++ item :: base) ∨
    ledger.stackOf owner = base ∧ ledger.leaving owner = some item

theorem Above.step {owner : Owner} {item : Item} {base : List Item}
    (above : ledger.Above owner item base) (stepped : ledger.step event = some next)
    (unfinished : event ≠ .finish owner item) : next.Above owner item base := by
  cases steps_of_step stepped with
  | @enter holder entered _ settled =>
      by_cases sameOwner : holder = owner
      · subst sameOwner
        rcases above with ⟨others, stack⟩ | ⟨-, leaving⟩
        · exact .inl ⟨entered :: others, by simp [stack]⟩
        · simp [settled] at leaving
      · simpa [Above, Ne.symm sameOwner] using above
  | @leave holder top rest stacked settled =>
      by_cases sameOwner : holder = owner
      · subst sameOwner
        rcases above with ⟨others, stack⟩ | ⟨-, leaving⟩
        · cases others with
          | nil =>
              obtain ⟨rfl, rfl⟩ : top = item ∧ rest = base := by simpa [stacked] using stack
              exact .inr (by simp)
          | cons other others =>
              obtain ⟨rfl, rfl⟩ : top = other ∧ rest = others ++ item :: base := by
                simpa [stacked] using stack
              exact .inl ⟨others, by simp⟩
        · simp [settled] at leaving
      · simpa [Above, Ne.symm sameOwner] using above
  | @finish holder gone left =>
      by_cases sameOwner : holder = owner
      · subst sameOwner
        rcases above with onStack | ⟨-, leaving⟩
        · exact .inl onStack
        · obtain rfl : gone = item := by simpa [left] using leaving
          exact absurd rfl unfinished
      · simpa [Above, Ne.symm sameOwner] using above

theorem Above.replay {owner : Owner} {item : Item} {base : List Item}
    {between : List (Event Owner Item)} (above : ledger.Above owner item base)
    (replayed : ledger.replay between = some last)
    (unfinished : .finish owner item ∉ between) : last.Above owner item base := by
  induction between generalizing ledger with
  | nil =>
      cases replayed
      exact above
  | cons event rest ih =>
      obtain ⟨next, stepped, remaining⟩ := Option.bind_eq_some_iff.mp replayed
      simp only [List.mem_cons, not_or] at unfinished
      exact ih (above.step stepped (Ne.symm unfinished.1)) remaining unfinished.2

/-- Between the entry of an item and its end, everything that entered above it
has been finished. -/
theorem finished_above {owner : Owner} {item : Item} {between : List (Event Owner Item)}
    (consistent : ledger.Consistent)
    (replayed : ledger.replay (.enter owner item :: (between ++ [.finish owner item])) = some last)
    (unfinished : .finish owner item ∉ between) (other : Item) :
    between.count (.enter owner other) = between.count (.finish owner other) := by
  obtain ⟨entered, stepped, remaining⟩ := Option.bind_eq_some_iff.mp replayed
  rw [replay_append] at remaining
  obtain ⟨before, reached, ended⟩ := Option.bind_eq_some_iff.mp remaining
  obtain ⟨after, finishing, -⟩ := Option.bind_eq_some_iff.mp ended
  have middle := consistent.step stepped
  have final := middle.replay reached
  have counted := count_enter owner other middle reached
  have left : before.leaving owner = some item := by
    cases steps_of_step finishing with
    | finish left => exact left
  have sameHolder : entered.holder other = some owner ↔ before.holder other = some owner := by
    cases steps_of_step stepped with
    | enter _ settled =>
        have above : Above { ledger with
            holder := Function.update ledger.holder item (some owner)
            stackOf := Function.update ledger.stackOf owner (item :: ledger.stackOf owner) }
            owner item (ledger.stackOf owner) := .inl ⟨[], by simp⟩
        rcases above.replay reached unfinished with ⟨others, stack⟩ | ⟨stack, -⟩
        · exact absurd (by simp [stack]) (final.apart owner item left)
        · rw [middle.held, final.held, stack, left]
          simp only [Function.update_self, List.mem_cons, settled, Option.some.injEq, reduceCtorEq,
            or_false]
          exact ⟨fun either => either.symm.imp_right Eq.symm,
            fun either => either.symm.imp_left Eq.symm⟩
  rw [if_congr sameHolder rfl rfl] at counted
  omega

end Ledger

end Foundation.Nesting
