import Mathlib.Data.List.Nodup
import Mathlib.Logic.Function.Basic
import Mathlib.Tactic.Common

namespace Foundation

/-! # Lists linked both ways through their own nodes -/

/-- The two links of every node. -/
structure Links (Node : Type*) where
  prev : Node → Node
  next : Node → Node

namespace Links

variable {Node : Type*}

/-- The nodes are linked from `head` on, the first of them back to `before`. -/
def Linked (null : Node) (links : Links Node) : Node → Node → List Node → Prop
  | _, head, [] => head = null
  | before, head, node :: rest =>
      head = node ∧ node ≠ null ∧ links.prev node = before ∧
        Linked null links node (links.next node) rest

variable {null before head node : Node} {links after : Links Node} {nodes passed later : List Node}

theorem Linked.ne_null (linked : links.Linked null before head nodes) (member : node ∈ nodes) :
    node ≠ null := by
  induction nodes generalizing before head with
  | nil => contradiction
  | cons first others ih =>
      obtain ⟨_, present, _, following⟩ := linked
      cases List.mem_cons.mp member with
      | inl same => exact same ▸ present
      | inr later => exact ih following later

/-- Nodes whose links are read as before are linked as before. -/
theorem Linked.congr (linked : links.Linked null before head nodes)
    (prevs : ∀ node ∈ nodes, after.prev node = links.prev node)
    (nexts : ∀ node ∈ nodes, after.next node = links.next node) :
    after.Linked null before head nodes := by
  induction nodes generalizing before head with
  | nil => exact linked
  | cons first others ih =>
      obtain ⟨start, present, back, following⟩ := linked
      have prev : after.prev first = links.prev first := prevs first List.mem_cons_self
      have next : after.next first = links.next first := nexts first List.mem_cons_self
      refine ⟨start, present, prev.trans back, ?_⟩
      rw [next]
      apply ih following
      · intro other member
        exact prevs other (List.mem_cons_of_mem _ member)
      · intro other member
        exact nexts other (List.mem_cons_of_mem _ member)

/-- The rest of a list, linked back to the node before it. -/
theorem Linked.rest (linked : links.Linked null before head (passed ++ node :: later)) :
    node ≠ null ∧ links.Linked null node (links.next node) later := by
  induction passed generalizing before head with
  | nil => exact ⟨linked.2.1, linked.2.2.2⟩
  | cons first others ih => exact ih linked.2.2.2

theorem Linked.prev_eq (linked : links.Linked null before head (passed ++ node :: later)) :
    links.prev node = passed.getLastD before := by
  induction passed generalizing before head with
  | nil => exact linked.2.2.1
  | cons first others ih =>
      rw [List.getLastD_cons]
      exact ih linked.2.2.2

theorem Linked.head_eq (linked : links.Linked null before head nodes) :
    head = nodes.headD null := by
  cases nodes with
  | nil => exact linked
  | cons first others => exact linked.1

theorem Linked.ne_head (linked : links.Linked null before head nodes) {other : Node}
    (absent : other ∉ nodes) (nonempty : head ≠ null) : other ≠ head := by
  intro same
  cases nodes with
  | nil => exact nonempty linked
  | cons first others =>
      rw [same, linked.1] at absent
      exact absent List.mem_cons_self

/-- Links that differ from a list's in what bypasses one of its nodes link the others.  The
induction is on the nodes before the one that is taken out. -/
theorem Linked.bypass (linked : links.Linked null before head (passed ++ node :: later))
    (once : (before :: (passed ++ node :: later)).Nodup)
    (nexts : ∀ other ≠ links.prev node, after.next other = links.next other)
    (jump : passed ≠ [] → after.next (links.prev node) = links.next node)
    (prevs : ∀ other ≠ links.next node, after.prev other = links.prev other)
    (back : links.next node ≠ null → after.prev (links.next node) = links.prev node) :
    after.Linked null before (if passed = [] then links.next node else head)
      (passed ++ later) := by
  induction passed generalizing before head with
  | nil =>
      obtain ⟨_, _, prev, following⟩ := linked
      obtain ⟨notBefore, onceRest⟩ := List.nodup_cons.mp once
      rw [if_pos rfl, List.nil_append]
      cases later with
      | nil => exact following
      | cons first others =>
          obtain ⟨start, present, _, rest⟩ := following
          have firstNotBefore : first ≠ links.prev node := by
            rw [prev]
            intro same
            exact notBefore (same ▸ List.mem_cons_of_mem _ List.mem_cons_self)
          refine ⟨start, present, ?_, ?_⟩
          · rw [← prev, ← start]
            exact back (start ▸ present)
          · rw [nexts first firstNotBefore]
            apply rest.congr
            · intro other member
              apply prevs
              rw [start]
              intro same
              have restOnce := (List.nodup_cons.mp (List.nodup_cons.mp onceRest).2).1
              exact restOnce (same ▸ member)
            · intro other member
              apply nexts
              rw [prev]
              intro same
              exact notBefore (same ▸ List.mem_cons_of_mem _ (List.mem_cons_of_mem _ member))
  | cons first others ih =>
      obtain ⟨start, present, prev, following⟩ := linked
      obtain ⟨_, onceRest⟩ := List.nodup_cons.mp once
      obtain ⟨firstUnlisted, _⟩ := List.nodup_cons.mp onceRest
      have last : links.prev node = others.getLastD first := Linked.prev_eq following
      have target : links.next node = later.headD null := following.rest.2.head_eq
      have firstNotNext : first ≠ links.next node := by
        rw [target]
        cases later with
        | nil => exact present
        | cons second rest =>
            intro same
            apply firstUnlisted
            rw [same]
            simp
      have link : after.next first =
          if others = [] then links.next node else links.next first := by
        by_cases single : others = []
        · rw [if_pos single]
          rw [single] at last
          have jumped := jump (List.cons_ne_nil _ _)
          rwa [last] at jumped
        · rw [if_neg single]
          apply nexts
          rw [last]
          intro same
          apply firstUnlisted
          rw [List.getLastD_eq_getLast?, List.getLast?_eq_some_getLast single] at same
          rw [same]
          exact List.mem_append_left _ (List.getLast_mem single)
      rw [if_neg (List.cons_ne_nil _ _)]
      refine ⟨start, present, (prevs first firstNotNext).trans prev, ?_⟩
      rw [link]
      apply ih following onceRest
      intro some
      exact jump (List.cons_ne_nil _ _)

variable [DecidableEq Node]

/-- The new links, and the head of the list that `node` was put in front of. -/
def pushFront (null : Node) (links : Links Node) (head node : Node) : Links Node × Node :=
  let isolated : Links Node :=
    { prev := Function.update links.prev node null, next := Function.update links.next node head }
  if head = null then (isolated, node)
  else ({ isolated with prev := Function.update isolated.prev head node }, node)

/-- The new links, and the head of the list that `node` was taken from. -/
def unlink (null : Node) (links : Links Node) (head node : Node) : Links Node × Node :=
  let before := links.prev node
  let after := links.next node
  let shortened : Links Node × Node :=
    if before = null then (links, after)
    else ({ links with next := Function.update links.next before after }, head)
  if after = null then shortened
  else ({ shortened.1 with prev := Function.update shortened.1.prev after before }, shortened.2)

/-- The nodes met from `head` on, at most `fuel` many. -/
def walk (null : Node) (links : Links Node) : ℕ → Node → List Node
  | 0, _ => []
  | fuel + 1, head => if head = null then [] else head :: walk null links fuel (links.next head)

theorem Linked.walk_eq (linked : links.Linked null before head nodes) {fuel : ℕ}
    (enough : nodes.length ≤ fuel) : walk null links fuel head = nodes := by
  induction nodes generalizing before head fuel with
  | nil =>
      cases fuel with
      | zero => rfl
      | succ fuel => exact if_pos linked
  | cons first others ih =>
      obtain ⟨start, present, _, following⟩ := linked
      subst start
      cases fuel with
      | zero => exact absurd enough (Nat.not_succ_le_zero _)
      | succ fuel => rw [walk, if_neg present, ih following (Nat.le_of_succ_le_succ enough)]

theorem pushFront_snd : (pushFront null links head node).2 = node := by
  unfold pushFront
  split <;> rfl

/-- Only the links of the new node and of the old head are written. -/
theorem pushFront_frame {other : Node} (notNew : other ≠ node)
    (notHead : head ≠ null → other ≠ head) :
    (pushFront null links head node).1.prev other = links.prev other ∧
      (pushFront null links head node).1.next other = links.next other := by
  unfold pushFront
  split
  · exact ⟨Function.update_of_ne notNew .., Function.update_of_ne notNew ..⟩
  · rename_i nonempty
    exact ⟨(Function.update_of_ne (notHead nonempty) ..).trans (Function.update_of_ne notNew ..),
      Function.update_of_ne notNew ..⟩

theorem Linked.pushFront (linked : links.Linked null null head nodes) (once : nodes.Nodup)
    (present : node ≠ null) (fresh : node ∉ nodes) :
    (links.pushFront null head node).1.Linked null null (links.pushFront null head node).2
      (node :: nodes) := by
  refine ⟨pushFront_snd, present, ?_, ?_⟩
  · unfold Links.pushFront
    split
    · exact Function.update_self ..
    · rename_i nonempty
      have different : node ≠ head := linked.ne_head fresh nonempty
      exact (Function.update_of_ne different ..).trans (Function.update_self ..)
  · have next : (links.pushFront null head node).1.next node = head := by
      unfold Links.pushFront
      split <;> exact Function.update_self ..
    rw [next]
    cases nodes with
    | nil => exact linked
    | cons first others =>
        obtain ⟨start, firstPresent, _, following⟩ := linked
        obtain ⟨unlisted, _⟩ := List.nodup_cons.mp once
        have firstOld : first ≠ node := fun same => fresh (same ▸ List.mem_cons_self)
        have nexts : (links.pushFront null head node).1.next first = links.next first := by
          unfold Links.pushFront
          split <;> exact Function.update_of_ne firstOld ..
        refine ⟨start, firstPresent, ?_, ?_⟩
        · unfold Links.pushFront
          rw [if_neg (start ▸ firstPresent), start]
          exact Function.update_self ..
        · rw [nexts]
          have frame : ∀ other ∈ others, (links.pushFront null head node).1.prev other =
              links.prev other ∧
                (links.pushFront null head node).1.next other = links.next other := by
            intro other member
            apply pushFront_frame
            · exact fun same => fresh (same ▸ List.mem_cons_of_mem _ member)
            · rw [start]
              exact fun _ same => unlisted (same ▸ member)
          apply following.congr
          · intro other member
            exact (frame other member).1
          · intro other member
            exact (frame other member).2

theorem unlink_next : (unlink null links head node).1.next =
    if links.prev node = null then links.next
    else Function.update links.next (links.prev node) (links.next node) := by
  by_cases first : links.prev node = null <;> by_cases last : links.next node = null <;>
    simp [unlink, first, last]

theorem unlink_prev : (unlink null links head node).1.prev =
    if links.next node = null then links.prev
    else Function.update links.prev (links.next node) (links.prev node) := by
  by_cases first : links.prev node = null <;> by_cases last : links.next node = null <;>
    simp [unlink, first, last]

theorem unlink_snd : (unlink null links head node).2 =
    if links.prev node = null then links.next node else head := by
  by_cases first : links.prev node = null <;> by_cases last : links.next node = null <;>
    simp [unlink, first, last]

theorem Linked.unlink (linked : links.Linked null null head (passed ++ node :: later))
    (once : (passed ++ node :: later).Nodup) :
    (links.unlink null head node).1.Linked null null (links.unlink null head node).2
      (passed ++ later) := by
  have nonnull : null ∉ passed ++ node :: later := fun member => linked.ne_null member rfl
  have last := linked.prev_eq
  have first_iff : links.prev node = null ↔ passed = [] := by
    constructor
    · intro isNull
      by_contra some
      rw [last, List.getLastD_eq_getLast?, List.getLast?_eq_some_getLast some] at isNull
      apply nonnull
      rw [← isNull]
      exact List.mem_append_left _ (List.getLast_mem some)
    · intro none
      rw [last, none]
      rfl
  have bypassed : (links.unlink null head node).1.Linked null null
      (if passed = [] then links.next node else head) (passed ++ later) := by
    apply linked.bypass (List.nodup_cons.mpr ⟨nonnull, once⟩)
    · intro other different
      rw [unlink_next]
      split
      · rfl
      · exact Function.update_of_ne different ..
    · intro some
      rw [unlink_next, if_neg (fun isNull => some (first_iff.mp isNull)), Function.update_self]
    · intro other different
      rw [unlink_prev]
      split
      · rfl
      · exact Function.update_of_ne different ..
    · intro present
      rw [unlink_prev, if_neg present, Function.update_self]
  rw [unlink_snd]
  simp only [first_iff]
  exact bypassed

/-- Only links of nodes of the list are written. -/
theorem Linked.unlink_frame (linked : links.Linked null null head (passed ++ node :: later))
    {other : Node} (absent : other ∉ passed ++ node :: later) :
    (links.unlink null head node).1.prev other = links.prev other ∧
      (links.unlink null head node).1.next other = links.next other := by
  constructor
  · rw [unlink_prev]
    split
    · rfl
    · rename_i present
      apply Function.update_of_ne
      intro same
      have target := linked.rest.2.head_eq
      cases later with
      | nil => exact present target
      | cons second rest =>
          apply absent
          rw [same, target]
          simp
  · rw [unlink_next]
    split
    · rfl
    · rename_i present
      apply Function.update_of_ne
      intro same
      have last := linked.prev_eq
      by_cases single : passed = []
      · rw [single] at last
        exact present last
      · rw [List.getLastD_eq_getLast?, List.getLast?_eq_some_getLast single] at last
        apply absent
        rw [same, last]
        exact List.mem_append_left _ (List.getLast_mem single)

end Links

end Foundation
