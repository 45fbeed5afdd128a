import Asco.Concurrency.RingQueue.Ownership

namespace Asco.Concurrency.RingQueue

open Foundation

/-! # One call at a time: a bounded queue of values -/

variable {α : Type*} {Cap : ℕ} {storage : Storage α Cap} {value : α}

/-- No slot is being worked on. -/
def Quiet (storage : Storage α Cap) : Prop := ∀ index, Settled storage index

/-- The values from `head` up to `tail`, the oldest first. -/
def values (storage : Storage α Cap) : List α :=
  (segment storage.head storage.tail).filterMap storage.slots

def trySend (storage : Storage α Cap) (value : α) : Option (Storage α Cap × Outcome α) :=
  complete 7 storage (.sendLoadHead value)

def tryRecv (storage : Storage α Cap) : Option (Storage α Cap × Outcome α) :=
  complete 6 storage .recvLoadHead

/-- The storage after a send that found room. -/
def Storage.push (storage : Storage α Cap) (value : α) : Storage α Cap where
  head := storage.head
  tail := storage.tail + 1
  states := Function.update storage.states storage.tail .filled
  slots := Function.update storage.slots storage.tail (some value)

/-- The storage after a receive that found a value. -/
def Storage.pop (storage : Storage α Cap) : Storage α Cap where
  head := storage.head + 1
  tail := storage.tail
  states := Function.update storage.states storage.head .empty
  slots := Function.update storage.slots storage.head none

attribute [local simp] complete resume

theorem trySend_full (full : storage.tail + 1 = storage.head) :
    trySend storage value = some (storage, .full value) := by
  simp [trySend, full]

theorem trySend_push (room : storage.tail + 1 ≠ storage.head)
    (empty : storage.states storage.tail = .empty) :
    trySend storage value = some (storage.push value, .sent value) := by
  simp [trySend, room, empty, Storage.setState, Storage.setSlot, Storage.push]

theorem tryRecv_nothing (empty : storage.head = storage.tail) :
    tryRecv storage = some (storage, .nothing) := by
  simp [tryRecv, startRace, empty]

theorem tryRecv_pop (nonempty : storage.head ≠ storage.tail)
    (filled : storage.states storage.head = .filled)
    (present : storage.slots storage.head = some value) :
    tryRecv storage = some (storage.pop, .received value) := by
  simp [tryRecv, startRace, nonempty, filled, present, Storage.setState, Storage.setSlot,
    Storage.pop]

theorem full_iff : storage.tail + 1 = storage.head ↔ span storage.head storage.tail = Cap := by
  constructor
  · intro full
    rw [← full, span_pred]
  · intro full
    by_contra room
    have longer := span_succ_last room
    have bounded : span storage.head (storage.tail + 1) ≤ Cap := span_le
    omega

namespace Quiet

theorem tail_empty (quiet : Quiet storage) : storage.states storage.tail = .empty := by
  rcases quiet storage.tail with ⟨empty, _⟩ | ⟨_, inside, _⟩
  · exact empty
  · exact absurd inside not_within_last

theorem head_filled (quiet : Quiet storage) (nonempty : storage.head ≠ storage.tail) :
    storage.states storage.head = .filled ∧ ∃ value, storage.slots storage.head = some value := by
  rcases quiet storage.head with ⟨_, outside⟩ | ⟨filled, _, present⟩
  · exact absurd (inside_head.mpr nonempty) outside
  · exact ⟨filled, Option.isSome_iff_exists.mp present⟩

theorem push (quiet : Quiet storage) (room : storage.tail + 1 ≠ storage.head) :
    Quiet (storage.push value) := by
  intro index
  by_cases last : index = storage.tail
  · subst last
    refine .inr ⟨by simp [Storage.push], ?_, by simp [Storage.push]⟩
    exact (within_succ_last room).mpr (.inr rfl)
  · refine (quiet index).agree ⟨?_, ?_, ?_⟩
    · simp [Storage.push, last]
    · simp [Storage.push, last]
    · simp [Inside, Storage.push, within_succ_last room, last]

theorem pop (quiet : Quiet storage) (nonempty : storage.head ≠ storage.tail) :
    Quiet storage.pop := by
  intro index
  by_cases first : index = storage.head
  · subst first
    refine .inl ⟨by simp [Storage.pop], ?_⟩
    simp [Inside, Storage.pop, within_succ_first nonempty]
  · refine (quiet index).agree ⟨?_, ?_, ?_⟩
    · simp [Storage.pop, first]
    · simp [Storage.pop, first]
    · simp [Inside, Storage.pop, within_succ_first nonempty, first]

end Quiet

theorem values_empty (empty : storage.head = storage.tail) : values storage = [] := by
  simp [values, empty]

theorem values_push (room : storage.tail + 1 ≠ storage.head) :
    values (storage.push value) = values storage ++ [value] := by
  have others : (segment storage.head storage.tail).filterMap (storage.push value).slots =
      values storage := by
    refine List.filterMap_congr fun index member => ?_
    have different : index ≠ storage.tail := by
      rintro rfl
      exact not_within_last (mem_segment.mp member)
    simp [Storage.push, different]
  have split : values (storage.push value) =
      (segment storage.head storage.tail ++ [storage.tail]).filterMap
        (storage.push value).slots := by
    rw [← segment_succ_last room]
    rfl
  rw [split, List.filterMap_append, others]
  simp [Storage.push]

theorem values_pop (nonempty : storage.head ≠ storage.tail)
    (present : storage.slots storage.head = some value) :
    values storage = value :: values storage.pop := by
  have others : (segment (storage.head + 1) storage.tail).filterMap storage.pop.slots =
      (segment (storage.head + 1) storage.tail).filterMap storage.slots := by
    refine List.filterMap_congr fun index member => ?_
    have different := ((within_succ_first nonempty).mp (mem_segment.mp member)).2
    simp [Storage.pop, different]
  have remaining : values storage.pop =
      (segment (storage.head + 1) storage.tail).filterMap storage.slots := others
  rw [values, segment_succ_first nonempty, List.filterMap_cons, present, remaining]

theorem values_length (quiet : Quiet storage) :
    (values storage).length = span storage.head storage.tail := by
  have present : ∀ index ∈ segment storage.head storage.tail, (storage.slots index).isSome := by
    intro index member
    rcases quiet index with ⟨_, outside⟩ | ⟨_, _, present⟩
    · exact absurd (mem_segment.mp member) outside
    · exact present
  rw [← segment_length, values, List.length_filterMap_eq_countP, List.countP_eq_length.mpr present]

/-! ## The bounded queue -/

/-- `try_send` on a queue nobody else uses appends its value or hands it back. -/
theorem trySend_spec (quiet : Quiet storage) (value : α) :
    if (values storage).length = Cap then trySend storage value = some (storage, .full value)
    else ∃ next, trySend storage value = some (next, .sent value) ∧ Quiet next ∧
      values next = values storage ++ [value] := by
  split
  · rename_i full
    rw [values_length quiet] at full
    exact trySend_full (full_iff.mpr full)
  · rename_i notFull
    rw [values_length quiet] at notFull
    have room : storage.tail + 1 ≠ storage.head := fun full => notFull (full_iff.mp full)
    exact ⟨storage.push value, trySend_push room quiet.tail_empty, quiet.push room,
      values_push room⟩

/-- `try_recv` on a queue nobody else uses takes the oldest value. -/
theorem tryRecv_spec (quiet : Quiet storage) :
    match values storage with
    | [] => tryRecv storage = some (storage, .nothing)
    | value :: rest => ∃ next, tryRecv storage = some (next, .received value) ∧ Quiet next ∧
        values next = rest := by
  by_cases empty : storage.head = storage.tail
  · rw [values_empty empty]
    exact tryRecv_nothing empty
  · obtain ⟨filled, value, present⟩ := quiet.head_filled empty
    rw [values_pop empty present]
    exact ⟨storage.pop, tryRecv_pop empty filled present, quiet.pop empty, rfl⟩

/-- Receive `count` values one after another. -/
def drain : ℕ → Storage α Cap → Option (List α × Storage α Cap)
  | 0, storage => some ([], storage)
  | count + 1, storage =>
      match tryRecv storage with
      | some (next, .received value) =>
          (drain count next).map fun rest => (value :: rest.1, rest.2)
      | _ => none

theorem drain_spec (quiet : Quiet storage) :
    ∃ emptied, drain (values storage).length storage = some (values storage, emptied) ∧
      tryRecv emptied = some (emptied, .nothing) := by
  generalize buffered : values storage = remaining
  induction remaining generalizing storage with
  | nil =>
      have nothing := tryRecv_spec quiet
      rw [buffered] at nothing
      exact ⟨storage, rfl, nothing⟩
  | cons value rest ih =>
      have taken := tryRecv_spec quiet
      rw [buffered] at taken
      obtain ⟨next, received, quietNext, left⟩ := taken
      obtain ⟨emptied, drained, nothing⟩ := ih quietNext left
      refine ⟨emptied, ?_, nothing⟩
      simp [drain, received, drained]

end Asco.Concurrency.RingQueue
