import Mathlib.Data.List.Nodup
import Mathlib.Tactic.Common

namespace Foundation

/-! # Spans of addresses and stacks linked through their own nodes -/

/-- Two spans of addresses, each given by its start and its length, share no address. -/
def Apart (start length otherStart otherLength : ℕ) : Prop :=
  start + length ≤ otherStart ∨ otherStart + otherLength ≤ start

instance (start length otherStart otherLength : ℕ) :
    Decidable (Apart start length otherStart otherLength) :=
  inferInstanceAs (Decidable (_ ∨ _))

theorem Apart.symm {start length otherStart otherLength : ℕ}
    (apart : Apart start length otherStart otherLength) :
    Apart otherStart otherLength start length :=
  Or.symm apart

/-- What lies within one of two spans stays apart from the other. -/
theorem Apart.within {start length outer outerLength inner innerLength : ℕ}
    (apart : Apart start length outer outerLength) (lower : outer ≤ inner)
    (upper : inner + innerLength ≤ outer + outerLength) :
    Apart start length inner innerLength := by
  cases apart with
  | inl before => exact .inl (Nat.le_trans before lower)
  | inr after => exact .inr (Nat.le_trans upper after)

variable {Node : Type*}

/-- The nodes form a stack: each holds a link to the one below and the number of
nodes from itself down. -/
def Linked (null : Node) (next : Node → Node) (length : Node → ℕ) : Node → List Node → Prop
  | head, [] => head = null
  | head, node :: below =>
      head = node ∧ node ≠ null ∧ length node = below.length + 1 ∧
        Linked null next length (next node) below

/-- A node that is found by following the links from the head. -/
inductive OnChain (null : Node) (next : Node → Node) : Node → Node → Prop where
  | head {node : Node} (present : node ≠ null) : OnChain null next node node
  | link {head node : Node} (present : head ≠ null) (rest : OnChain null next (next head) node) :
      OnChain null next head node

variable {null : Node} {next : Node → Node} {length : Node → ℕ} {head node : Node}
  {nodes : List Node}

/-- Nodes whose links and lengths are read as before are linked as before. -/
theorem Linked.congr {nextAfter : Node → Node} {lengthAfter : Node → ℕ}
    (linked : Linked null next length head nodes)
    (links : ∀ node ∈ nodes, nextAfter node = next node)
    (lengths : ∀ node ∈ nodes, lengthAfter node = length node) :
    Linked null nextAfter lengthAfter head nodes := by
  induction nodes generalizing head with
  | nil => exact linked
  | cons node below ih =>
      obtain ⟨first, present, counted, rest⟩ := linked
      have link : nextAfter node = next node := links node List.mem_cons_self
      have count : lengthAfter node = length node := lengths node List.mem_cons_self
      refine ⟨first, present, count.trans counted, ?_⟩
      rw [link]
      apply ih rest
      · intro other member
        exact links other (List.mem_cons_of_mem _ member)
      · intro other member
        exact lengths other (List.mem_cons_of_mem _ member)

theorem Linked.eq_nil (linked : Linked null next length head nodes) (empty : head = null) :
    nodes = [] := by
  cases nodes with
  | nil => rfl
  | cons node below => exact absurd (linked.1.symm.trans empty) linked.2.1

theorem Linked.exists_below (linked : Linked null next length head nodes) (present : head ≠ null) :
    ∃ below, nodes = head :: below ∧ length head = nodes.length ∧
      Linked null next length (next head) below := by
  cases nodes with
  | nil => exact absurd linked present
  | cons node below =>
      obtain ⟨first, _, counted, rest⟩ := linked
      subst first
      exact ⟨below, rfl, counted, rest⟩

theorem Linked.mem_of_onChain (linked : Linked null next length head nodes)
    (found : OnChain null next head node) : node ∈ nodes := by
  induction found generalizing nodes with
  | head present =>
      obtain ⟨below, shape, _⟩ := linked.exists_below present
      rw [shape]
      exact List.mem_cons_self
  | link present _ ih =>
      obtain ⟨below, shape, _, rest⟩ := linked.exists_below present
      rw [shape]
      exact List.mem_cons_of_mem _ (ih rest)

theorem Linked.onChain_of_mem (linked : Linked null next length head nodes)
    (member : node ∈ nodes) : OnChain null next head node := by
  induction nodes generalizing head with
  | nil => contradiction
  | cons first below ih =>
      obtain ⟨top, present, _, rest⟩ := linked
      subst top
      cases List.mem_cons.mp member with
      | inl same =>
          subst same
          exact .head present
      | inr later => exact .link present (ih rest later)

end Foundation
