import Mathlib.Data.List.ReduceOption
import Asco.Concurrency.RingQueue.Layout
import Asco.Concurrency.RingQueue.Sequential

namespace Asco.Concurrency.RingQueue

open Foundation

/-! # Calls one after another, with elements that may throw

The queue is compared with a bounded queue of entries in which `none` stands for
the hole that a throwing construction leaves.
-/

variable {α : Type*} {Cap : ℕ}

/-- `throws` makes the constructor, or the move out of the slot, throw. -/
inductive Call (α : Type*) where
  | trySend (value : α) (throws : Bool)
  | tryRecv (throws : Bool)

namespace Call

def throws : Call α → Bool
  | .trySend _ throws | .tryRecv throws => throws

def start : Call α → Pc α Cap
  | .trySend value _ => .sendLoadHead value
  | .tryRecv _ => .recvLoadHead

end Call

/-! ## The bounded queue -/

namespace Fifo

/-- A full queue hands the value back; a throwing send takes up room. -/
def trySend (Cap : ℕ) (value : α) (throws : Bool) (queue : List (Option α)) :
    List (Option α) × Outcome α :=
  if queue.length = Cap then (queue, .full value)
  else if throws then (queue ++ [none], .threw)
  else (queue ++ [some value], .sent value)

/-- A receive passes the holes before the oldest value. -/
def tryRecv (throws : Bool) : List (Option α) → List (Option α) × Outcome α
  | [] => ([], .nothing)
  | none :: rest => tryRecv throws rest
  | some value :: rest => (rest, if throws then .threw else .received value)

def call (Cap : ℕ) : Call α → List (Option α) → List (Option α) × Outcome α
  | .trySend value throws => trySend Cap value throws
  | .tryRecv throws => tryRecv throws

def run (Cap : ℕ) : List (Call α) → List (Option α) → List (Option α) × List (Outcome α)
  | [], queue => (queue, [])
  | next :: rest, queue =>
      let (after, outcome) := call Cap next queue
      let (last, outcomes) := run Cap rest after
      (last, outcome :: outcomes)

theorem tryRecv_length (throws : Bool) (queue : List (Option α)) :
    (tryRecv throws queue).1.length ≤ queue.length := by
  induction queue with
  | nil => exact Nat.le_refl _
  | cons entry rest ih =>
      cases entry with
      | none => exact ih.trans (Nat.le_succ _)
      | some value => exact Nat.le_succ _

theorem call_length (next : Call α) {queue : List (Option α)} (bounded : queue.length ≤ Cap) :
    (call Cap next queue).1.length ≤ Cap := by
  cases next with
  | trySend value throws =>
      simp only [call, trySend]
      split
      · exact bounded
      · split <;> simp only [List.length_append, List.length_singleton] <;> omega
  | tryRecv throws => exact (tryRecv_length throws queue).trans bounded

theorem run_length (calls : List (Call α)) {queue : List (Option α)}
    (bounded : queue.length ≤ Cap) : (run Cap calls queue).1.length ≤ Cap := by
  induction calls generalizing queue with
  | nil => exact bounded
  | cons next rest ih => exact ih (call_length next bounded)

end Fifo

/-! ## Runs of one call -/

/-- The call on its own, for at most `fuel` steps. -/
def finish (throws : Bool) : ℕ → Storage α Cap → Pc α Cap → Option (Storage α Cap × Outcome α)
  | 0, _, _ => none
  | fuel + 1, storage, pc =>
      match resume storage throws pc with
      | none => none
      | some (next, .done outcome) => some (next, outcome)
      | some (next, .running pc) => finish throws fuel next pc

theorem finish_mono {throws : Bool} {fuel more : ℕ} {storage : Storage α Cap} {pc : Pc α Cap}
    {result : Storage α Cap × Outcome α} (enough : fuel ≤ more)
    (finished : finish throws fuel storage pc = some result) :
    finish throws more storage pc = some result := by
  induction fuel generalizing more storage pc with
  | zero => contradiction
  | succ fuel ih =>
      obtain ⟨rest, rfl⟩ : ∃ rest, more = rest + 1 := ⟨more - 1, by omega⟩
      simp only [finish] at finished ⊢
      split at finished
      · contradiction
      · exact finished
      · exact ih (by omega) finished

/-- No call takes more steps: six for each entry that a receive passes, and one
round more. -/
def steps (Cap : ℕ) : ℕ := 6 * Cap + 7

def serve (storage : Storage α Cap) (call : Call α) : Option (Storage α Cap × Outcome α) :=
  finish call.throws (steps Cap) storage call.start

def serveAll : Storage α Cap → List (Call α) → Option (Storage α Cap × List (Outcome α))
  | storage, [] => some (storage, [])
  | storage, call :: rest =>
      (serve storage call).bind fun next =>
        (serveAll next.1 rest).map fun last => (last.1, next.2 :: last.2)

/-! ## The entries of the storage -/

/-- A slot that no call works on: unused, holding a value, or a hole. -/
def Resting (storage : Storage α Cap) (index : Fin (Cap + 1)) : Prop :=
  storage.states index = .empty ∧ ¬ Inside storage index ∨
    storage.states index = .filled ∧ Inside storage index ∧ (storage.slots index).isSome ∨
    storage.states index = .exception ∧ Inside storage index

def Still (storage : Storage α Cap) : Prop := ∀ index, Resting storage index

/-- The value of a slot, if its state says that there is one. -/
def entry (storage : Storage α Cap) (index : Fin (Cap + 1)) : Option α :=
  if storage.states index = .filled then storage.slots index else none

/-- The entries from `head` up to `tail`, the oldest first. -/
def entries (storage : Storage α Cap) : List (Option α) :=
  (segment storage.head storage.tail).map (entry storage)

namespace Storage

/-- The storage after a send that found room. -/
def append (storage : Storage α Cap) (state : SlotState) (slot : Option α) : Storage α Cap where
  head := storage.head
  tail := storage.tail + 1
  states := Function.update storage.states storage.tail state
  slots := Function.update storage.slots storage.tail slot

/-- The storage after a receive that passed the first entry. -/
def pass (storage : Storage α Cap) (slot : Option α) : Storage α Cap where
  head := storage.head + 1
  tail := storage.tail
  states := Function.update storage.states storage.head .empty
  slots := Function.update storage.slots storage.head slot

end Storage

variable {storage : Storage α Cap} {value : α} {throws : Bool} {fuel : ℕ}

theorem entries_length : (entries storage).length = span storage.head storage.tail := by
  rw [entries, List.length_map, segment_length]

theorem entries_length_le : (entries storage).length ≤ Cap := by
  rw [entries_length]
  exact span_le

theorem entries_nil : entries storage = [] ↔ storage.head = storage.tail := by
  rw [← List.length_eq_zero_iff, entries_length, span_eq_zero]

theorem entries_cons (nonempty : storage.head ≠ storage.tail) (slot : Option α) :
    entries storage = entry storage storage.head :: entries (storage.pass slot) := by
  have others : (segment (storage.head + 1) storage.tail).map (entry (storage.pass slot)) =
      (segment (storage.head + 1) storage.tail).map (entry storage) := by
    refine List.map_congr_left fun index member => ?_
    have different := ((within_succ_first nonempty).mp (mem_segment.mp member)).2
    simp [entry, Storage.pass, different]
  have rest : entries (storage.pass slot) =
      (segment (storage.head + 1) storage.tail).map (entry storage) := others
  rw [rest, entries, segment_succ_first nonempty, List.map_cons]

theorem entries_append (room : storage.tail + 1 ≠ storage.head) (state : SlotState)
    (slot : Option α) :
    entries (storage.append state slot) =
      entries storage ++ [if state = .filled then slot else none] := by
  have others : (segment storage.head storage.tail).map (entry (storage.append state slot)) =
      entries storage := by
    refine List.map_congr_left fun index member => ?_
    have different : index ≠ storage.tail := by
      intro same
      exact not_within_last (same ▸ mem_segment.mp member)
    simp [entry, Storage.append, different]
  have last : entry (storage.append state slot) storage.tail =
      if state = .filled then slot else none := by
    simp [entry, Storage.append]
  have split : entries (storage.append state slot) =
      (segment storage.head storage.tail ++ [storage.tail]).map
        (entry (storage.append state slot)) := by
    rw [← segment_succ_last room]
    rfl
  rw [split, List.map_append, others, List.map_singleton, last]

namespace Still

theorem tail_empty (still : Still storage) : storage.states storage.tail = .empty := by
  rcases still storage.tail with ⟨empty, _⟩ | ⟨_, inside, _⟩ | ⟨_, inside⟩
  · exact empty
  · exact absurd inside not_within_last
  · exact absurd inside not_within_last

theorem append (still : Still storage) (room : storage.tail + 1 ≠ storage.head)
    {state : SlotState} {slot : Option α}
    (rests : state = .filled ∧ slot.isSome ∨ state = .exception) :
    Still (storage.append state slot) := by
  intro index
  by_cases last : index = storage.tail
  · subst last
    have inside : Inside (storage.append state slot) storage.tail :=
      (within_succ_last room).mpr (.inr rfl)
    rcases rests with ⟨rfl, present⟩ | rfl
    · exact .inr (.inl ⟨by simp [Storage.append], inside, by simpa [Storage.append] using present⟩)
    · exact .inr (.inr ⟨by simp [Storage.append], inside⟩)
  · have before := still index
    simpa [Resting, Inside, Storage.append, within_succ_last room, last] using before

theorem pass (still : Still storage) (nonempty : storage.head ≠ storage.tail) (slot : Option α) :
    Still (storage.pass slot) := by
  intro index
  by_cases first : index = storage.head
  · subst first
    refine .inl ⟨by simp [Storage.pass], ?_⟩
    simp [Inside, Storage.pass, within_succ_first nonempty]
  · have before := still index
    simpa [Resting, Inside, Storage.pass, within_succ_first nonempty, first] using before

end Still

/-! ## One call -/

theorem finish_send_full (full : storage.tail + 1 = storage.head) :
    finish throws 7 storage (.sendLoadHead value) = some (storage, .full value) := by
  simp [finish, resume, full]

theorem finish_send_append (room : storage.tail + 1 ≠ storage.head)
    (empty : storage.states storage.tail = .empty) :
    finish throws 7 storage (.sendLoadHead value) =
      if throws then some (storage.append .exception (storage.slots storage.tail), .threw)
      else some (storage.append .filled (some value), .sent value) := by
  cases throws with
  | false =>
      simp [finish, resume, room, empty, Storage.setState, Storage.setSlot, Storage.append]
  | true => simp [finish, resume, room, empty, Storage.setState, Storage.append]

theorem finish_recv_nothing (empty : storage.head = storage.tail) :
    finish throws 6 storage .recvLoadHead = some (storage, .nothing) := by
  simp [finish, resume, startRace, empty]

theorem finish_recv_value (nonempty : storage.head ≠ storage.tail)
    (filled : storage.states storage.head = .filled)
    (present : storage.slots storage.head = some value) :
    finish throws 6 storage .recvLoadHead =
      if throws then some (storage.pass (some value), .threw)
      else some (storage.pass none, .received value) := by
  cases throws with
  | false =>
      simp [finish, resume, startRace, nonempty, filled, present, Storage.setState,
        Storage.setSlot, Storage.pass]
  | true =>
      simp [finish, resume, startRace, nonempty, filled, ← present, Storage.setState, Storage.pass]

/-- A receive empties the slot of a hole, moves `head` and starts again. -/
theorem finish_recv_hole (nonempty : storage.head ≠ storage.tail)
    (hole : storage.states storage.head = .exception) :
    finish throws (fuel + 6) storage .recvLoadHead =
      finish throws fuel (storage.pass (storage.slots storage.head)) .recvLoadHead := by
  simp [finish, resume, startRace, nonempty, hole, Storage.setState, Storage.pass]

theorem serve_send (still : Still storage) (value : α) (throws : Bool) :
    ∃ next, serve storage (.trySend value throws) =
        some (next, (Fifo.trySend Cap value throws (entries storage)).2) ∧
      Still next ∧ entries next = (Fifo.trySend Cap value throws (entries storage)).1 := by
  have enough : 7 ≤ steps Cap := by
    rw [steps]
    omega
  by_cases full : storage.tail + 1 = storage.head
  · have counted : (entries storage).length = Cap := by rw [entries_length, full_iff.mp full]
    refine ⟨storage, ?_, still, by simp [Fifo.trySend, counted]⟩
    rw [Fifo.trySend, if_pos counted]
    exact finish_mono enough (finish_send_full full)
  · have counted : (entries storage).length ≠ Cap := by
      rw [entries_length]
      exact fun spanned => full (full_iff.mpr spanned)
    have sent : finish throws 7 storage (.sendLoadHead value) = _ :=
      finish_send_append full still.tail_empty
    rw [Fifo.trySend, if_neg counted]
    cases throws with
    | false =>
        refine ⟨_, finish_mono enough sent, still.append full (.inl ⟨rfl, rfl⟩), ?_⟩
        rw [entries_append full]
        rfl
    | true =>
        refine ⟨_, finish_mono enough sent, still.append full (.inr rfl), ?_⟩
        rw [entries_append full]
        rfl

/-- A receive takes six steps for each entry that it passes, and six at most when
there is none. -/
theorem finish_recv (throws : Bool) (still : Still storage) :
    ∃ next, finish throws (6 * (entries storage).length + 6) storage .recvLoadHead =
        some (next, (Fifo.tryRecv throws (entries storage)).2) ∧
      Still next ∧ entries next = (Fifo.tryRecv throws (entries storage)).1 := by
  generalize listed : entries storage = queue
  induction queue generalizing storage with
  | nil => exact ⟨storage, finish_recv_nothing (entries_nil.mp listed), still, listed⟩
  | cons first rest ih =>
      have nonempty : storage.head ≠ storage.tail := by
        intro empty
        rw [entries_nil.mpr empty] at listed
        contradiction
      have passed (slot : Option α) :
          first = entry storage storage.head ∧ rest = entries (storage.pass slot) := by
        rw [entries_cons nonempty slot, List.cons.injEq] at listed
        exact ⟨listed.1.symm, listed.2.symm⟩
      rcases still storage.head with ⟨_, outside⟩ | ⟨filled, _, present⟩ | ⟨hole, _⟩
      · exact absurd (inside_head.mpr nonempty) outside
      · obtain ⟨value, held⟩ := Option.isSome_iff_exists.mp present
        have oldest : first = some value := by rw [(passed none).1, entry, if_pos filled, held]
        have taken : finish throws 6 storage .recvLoadHead = _ :=
          finish_recv_value nonempty filled held
        subst oldest
        cases throws with
        | false =>
            exact ⟨_, finish_mono (by omega) taken, still.pass nonempty _, (passed _).2.symm⟩
        | true =>
            exact ⟨_, finish_mono (by omega) taken, still.pass nonempty _, (passed _).2.symm⟩
      · have skipped : first = none := by
          rw [(passed none).1, entry, if_neg (by rw [hole]; decide)]
        subst skipped
        obtain ⟨next, finished, stillNext, left⟩ :=
          ih (still.pass nonempty (storage.slots storage.head)) (passed _).2.symm
        refine ⟨next, ?_, stillNext, left⟩
        rw [List.length_cons, Nat.mul_succ, finish_recv_hole nonempty hole]
        exact finished

theorem serve_call (still : Still storage) (call : Call α) :
    ∃ next, serve storage call = some (next, (Fifo.call Cap call (entries storage)).2) ∧
      Still next ∧ entries next = (Fifo.call Cap call (entries storage)).1 := by
  cases call with
  | trySend value throws => exact serve_send still value throws
  | tryRecv throws =>
      obtain ⟨next, finished, kept⟩ := finish_recv throws still
      refine ⟨next, finish_mono ?_ finished, kept⟩
      have bounded : (entries storage).length ≤ Cap := entries_length_le
      rw [steps]
      omega

/-! ## Every sequence of calls -/

theorem serveAll_spec (calls : List (Call α)) (still : Still storage) :
    ∃ last, serveAll storage calls = some (last, (Fifo.run Cap calls (entries storage)).2) ∧
      Still last ∧ entries last = (Fifo.run Cap calls (entries storage)).1 := by
  induction calls generalizing storage with
  | nil => exact ⟨storage, rfl, still, rfl⟩
  | cons call rest ih =>
      obtain ⟨next, served, stillNext, left⟩ := serve_call still call
      obtain ⟨last, remaining, kept⟩ := ih stillNext
      rw [left] at remaining kept
      refine ⟨last, ?_, kept⟩
      simp [serveAll, served, remaining, Fifo.run]

theorem still_create : Still (Storage.create α Cap) := by
  intro index
  exact .inl ⟨rfl, not_within_self⟩

/-- Every sequence of calls on a new queue returns, each call after at most
`steps Cap` steps, what the bounded queue of entries answers. -/
def RefinesFifo (α : Type*) (Cap : ℕ) : Prop :=
  ∀ calls : List (Call α), ∃ last,
    serveAll (.create α Cap) calls = some (last, (Fifo.run Cap calls []).2) ∧
      entries last = (Fifo.run Cap calls []).1 ∧ (Fifo.run Cap calls []).1.length ≤ Cap

theorem refinesFifo (α : Type*) (Cap : ℕ) : RefinesFifo α Cap := by
  intro calls
  have empty : entries (Storage.create α Cap) = [] := entries_nil.mpr rfl
  have still : Still (Storage.create α Cap) := still_create
  obtain ⟨last, served, _, left⟩ := serveAll_spec calls still
  rw [empty] at served left
  exact ⟨last, served, left, Fifo.run_length calls (Nat.zero_le _)⟩

/-- The queue is the bounded one, and its arrays keep the indices apart, exactly
when rounding its size up to whole cache lines does not overflow `std::size_t`. -/
theorem laidOut_and_refinesFifo_iff {cacheline sizeof capacity : UInt64}
    (positive : 0 < cacheline) (admitted : capacity ≠ .ofNat (2 ^ 64 - 1)) :
    LaidOut cacheline sizeof capacity ∧ RefinesFifo α capacity.toNat ↔
      capacity.toNat + cacheline.toNat < 2 ^ 64 := by
  rw [laidOut_iff_fits positive admitted]
  exact and_iff_left (refinesFifo α capacity.toNat)

/-- Three elements of 24 bytes to a cache line of 64. -/
theorem laidOut_and_refinesFifo_iff_small :
    LaidOut 64 24 10 ∧ RefinesFifo ℕ 10 := by
  have iff_ : LaidOut 64 24 10 ∧ RefinesFifo ℕ (10 : UInt64).toNat ↔ _ :=
    laidOut_and_refinesFifo_iff (by decide) (by decide)
  exact iff_.mpr (by decide)

/-- With the largest capacity the source admits, `slot_states` has no pack. -/
theorem not_laidOut_of_largest : ¬ (LaidOut 64 1 (.ofNat (2 ^ 64 - 2)) ∧
    RefinesFifo ℕ (UInt64.ofNat (2 ^ 64 - 2)).toNat) := by
  intro holds
  have first := holds.1.2.inRange 0 (by decide)
  exact absurd first.1 (by decide)

end Asco.Concurrency.RingQueue
