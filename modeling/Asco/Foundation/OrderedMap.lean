import Mathlib.Data.List.Nodup
import Mathlib.Order.Lattice

namespace Foundation

/-! # Maps in the order of their keys

The sequence of the entries that an iteration visits, smallest key first.
-/

@[ext]
structure OrderedMap (Key Value : Type*) [LinearOrder Key] where
  entries : List (Key × Value)
  ordered : entries.Pairwise fun first second => first.1 < second.1

namespace OrderedMap

variable {Key Value : Type*} [LinearOrder Key]

def empty : OrderedMap Key Value where
  entries := []
  ordered := .nil

@[simp] theorem empty_entries : (empty : OrderedMap Key Value).entries = [] := rfl

instance : Membership (Key × Value) (OrderedMap Key Value) where
  mem map entry := entry ∈ map.entries

variable {map : OrderedMap Key Value} {key other : Key} {value : Value}
  {entry first : Key × Value} {rest : List (Key × Value)} {change : Value → Value}

theorem mem_iff : entry ∈ map ↔ entry ∈ map.entries := Iff.rfl

def get? (map : OrderedMap Key Value) (key : Key) : Option Value :=
  (map.entries.find? fun entry => entry.1 = key).map Prod.snd

def contains (map : OrderedMap Key Value) (key : Key) : Bool := (map.get? key).isSome

/-- The entry goes where its key belongs; nothing happens when the key is there. -/
def place (key : Key) (value : Value) : List (Key × Value) → List (Key × Value)
  | [] => [(key, value)]
  | entry :: rest =>
      if key < entry.1 then (key, value) :: entry :: rest
      else if key = entry.1 then entry :: rest
      else entry :: place key value rest

theorem mem_place {entries : List (Key × Value)} (member : entry ∈ place key value entries) :
    entry = (key, value) ∨ entry ∈ entries := by
  induction entries with
  | nil => exact .inl (List.mem_singleton.mp member)
  | cons first rest ih =>
      rw [place] at member
      split at member
      · exact List.mem_cons.mp member
      · split at member
        · exact .inr member
        · rcases List.mem_cons.mp member with same | later
          · exact .inr (List.mem_cons.mpr (.inl same))
          · rcases ih later with placed | before
            · exact .inl placed
            · exact .inr (List.mem_cons.mpr (.inr before))

theorem place_ordered {entries : List (Key × Value)}
    (ordered : entries.Pairwise fun first second => first.1 < second.1) :
    (place key value entries).Pairwise fun first second => first.1 < second.1 := by
  induction entries with
  | nil => exact List.pairwise_singleton _ _
  | cons first rest ih =>
      obtain ⟨after, later⟩ := List.pairwise_cons.mp ordered
      rw [place]
      split
      · rename_i before
        refine List.pairwise_cons.mpr ⟨fun entry member => ?_, ordered⟩
        rcases List.mem_cons.mp member with rfl | member
        · exact before
        · exact before.trans (after entry member)
      · split
        · exact ordered
        · rename_i notBefore different
          refine List.pairwise_cons.mpr ⟨fun entry member => ?_, ih later⟩
          rcases mem_place member with rfl | member
          · exact lt_of_le_of_ne (not_lt.mp notBefore) (Ne.symm different)
          · exact after entry member

def emplace (map : OrderedMap Key Value) (key : Key) (value : Value) : OrderedMap Key Value where
  entries := place key value map.entries
  ordered := place_ordered map.ordered

/-- The value of one key is changed in place. -/
def update (map : OrderedMap Key Value) (key : Key) (change : Value → Value) :
    OrderedMap Key Value where
  entries := map.entries.map fun entry =>
    if entry.1 = key then (entry.1, change entry.2) else entry
  ordered := by
    refine List.pairwise_map.mpr (map.ordered.imp fun {first second} before => ?_)
    split <;> split <;> exact before

/-- The entries from the first one that is kept. -/
def dropWhile (map : OrderedMap Key Value) (drops : Key × Value → Bool) :
    OrderedMap Key Value where
  entries := map.entries.dropWhile drops
  ordered := map.ordered.sublist (List.dropWhile_sublist drops)

/-! ## What a map contains -/

/-- A key has one value. -/
theorem mem_unique {other : Value} (there : (key, value) ∈ map) (also : (key, other) ∈ map) :
    value = other := by
  have distinct : (map.entries.map Prod.fst).Nodup :=
    List.pairwise_map.mpr (map.ordered.imp fun before => before.ne)
  have same := List.inj_on_of_nodup_map distinct there also rfl
  exact congrArg Prod.snd same

theorem get?_eq_some : map.get? key = some value ↔ (key, value) ∈ map := by
  rw [get?, Option.map_eq_some_iff]
  refine ⟨fun found => ?_, fun there => ?_⟩
  · obtain ⟨⟨same, held⟩, found, rfl⟩ := found
    have keyed := List.find?_some found
    simp only [decide_eq_true_eq] at keyed
    rw [← keyed]
    exact List.mem_of_find?_eq_some found
  · cases found : map.entries.find? fun entry => entry.1 = key with
    | none =>
        have absent := List.find?_eq_none.mp found (key, value) there
        simp at absent
    | some entry =>
        have keyed := List.find?_some found
        simp only [decide_eq_true_eq] at keyed
        have member : (key, entry.2) ∈ map := keyed ▸ List.mem_of_find?_eq_some found
        exact ⟨entry, rfl, mem_unique member there⟩

theorem contains_iff : map.contains key = true ↔ ∃ value, (key, value) ∈ map := by
  rw [contains, Option.isSome_iff_exists]
  exact exists_congr fun value => get?_eq_some

theorem get?_eq_none : map.get? key = none ↔ ∀ value, (key, value) ∉ map := by
  rw [Option.eq_none_iff_forall_ne_some]
  exact forall_congr' fun value => not_congr get?_eq_some

theorem mem_update : entry ∈ map.update key change ↔
    ∃ value, (entry.1, value) ∈ map ∧
      entry.2 = if entry.1 = key then change value else value := by
  obtain ⟨other, after⟩ := entry
  rw [mem_iff, update, List.mem_map]
  refine ⟨fun changed => ?_, fun held => ?_⟩
  · obtain ⟨⟨kept, value⟩, member, same⟩ := changed
    simp only at same
    split at same
    · rename_i keyed
      cases same
      exact ⟨value, member, (if_pos keyed).symm⟩
    · rename_i unkeyed
      cases same
      exact ⟨_, member, (if_neg unkeyed).symm⟩
  · obtain ⟨value, member, same⟩ := held
    refine ⟨(other, value), member, ?_⟩
    simp only at same ⊢
    rw [same]
    split <;> rfl

theorem mem_place_of_absent {entries : List (Key × Value)}
    (absent : ∀ held, (key, held) ∉ entries) :
    entry ∈ place key value entries ↔ entry = (key, value) ∨ entry ∈ entries := by
  induction entries with
  | nil => simp [place]
  | cons first rest ih =>
      have later : ∀ held, (key, held) ∉ rest := fun held member =>
        absent held (List.mem_cons_of_mem _ member)
      rw [place]
      split
      · rw [List.mem_cons]
      · split
        · rename_i same
          exact absurd List.mem_cons_self (same ▸ absent first.2)
        · rw [List.mem_cons, List.mem_cons, ih later]
          tauto

theorem mem_emplace (absent : ∀ held, (key, held) ∉ map) :
    entry ∈ map.emplace key value ↔ entry = (key, value) ∨ entry ∈ map :=
  mem_place_of_absent absent

theorem place_of_mem {held : Value} {entries : List (Key × Value)}
    (ordered : entries.Pairwise fun first second => first.1 < second.1)
    (member : (key, held) ∈ entries) : place key value entries = entries := by
  induction entries with
  | nil => contradiction
  | cons first rest ih =>
      obtain ⟨after, later⟩ := List.pairwise_cons.mp ordered
      rcases List.mem_cons.mp member with same | member
      · simp [place, ← same]
      · have before : first.1 < key := after _ member
        rw [place, if_neg before.asymm, if_neg before.ne', ih later member]

theorem emplace_of_mem {held : Value} (there : (key, held) ∈ map) :
    map.emplace key value = map :=
  OrderedMap.ext (place_of_mem map.ordered there)

theorem place_ne_nil {entries : List (Key × Value)} : place key value entries ≠ [] := by
  cases entries with
  | nil => simp [place]
  | cons first rest =>
      rw [place]
      split
      · simp
      · split <;> simp

/-- The first key is the smallest. -/
theorem first_le (starts : map.entries = first :: rest) (member : entry ∈ map) :
    first.1 ≤ entry.1 := by
  have ordered := map.ordered
  rw [mem_iff, starts] at member
  rw [starts] at ordered
  rcases List.mem_cons.mp member with rfl | later
  · exact le_rfl
  · exact ((List.pairwise_cons.mp ordered).1 entry later).le

end OrderedMap

end Foundation
