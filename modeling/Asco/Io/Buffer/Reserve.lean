import Asco.Io.Buffer.Refinement

namespace Asco.Io.Buffer

open Foundation Foundation.Blocks

universe u

/-! # The room that `reserve` makes -/

variable {Object Ptr Alloc : Type u}

/-- The buffer has room for `size` more bytes, and its contents are those of `before`. -/
structure Reserved (memory changed : Memory Ptr Alloc) (before after : Buffer Object Ptr Alloc)
    (size : UInt64) : Prop where
  within : after.cursor ≤ after.size
  room : size.toNat ≤ after.size.toNat - after.cursor.toNat
  cursor : after.cursor = before.cursor
  contents : changed.front after.data after.cursor.toNat =
    memory.front before.data before.cursor.toNat

variable [DecidableEq Object] [DecidableEq Ptr] [DecidableEq Alloc]

/-- `reserve`, and whether it returns.  Without an answer of the allocator
`allocate_bytes` throws, if it is called. -/
def State.reserveAnswered (state : State Object Ptr Alloc) (this : Object) (size : UInt64) :
    Option (Fresh Ptr) → Option (State Object Ptr Alloc × Bool)
  | some fresh => (state.reserve this size fresh).map fun next => (next, true)
  | none => (state.buffers this).map fun buffer =>
      (state, decide (size ≤ buffer.size - buffer.cursor))

/-- `reserve` returns with the room that was asked for, or throws and changes nothing. -/
def Safe (state : State Object Ptr Alloc) (this : Object) (size : UInt64)
    (buffer : Buffer Object Ptr Alloc) (outcome : State Object Ptr Alloc × Bool) : Prop :=
  match outcome with
  | (next, true) => ∃ after, next.buffers this = some after ∧
      Reserved state.memory next.memory buffer after size
  | (next, false) => next = state

variable {state next : State Object Ptr Alloc} {this : Object} {buffer : Buffer Object Ptr Alloc}
  {size : UInt64} {fresh : Fresh Ptr}

theorem sound_of_reachable
    (reachable : (machine Object Ptr Alloc).Reachable Machine.free state) : state.Sound := by
  apply reachable.invariant
  · intro first started
    cases started
    exact sound_initial
  · intro state label next sound _ moved
    exact sound.step moved

omit [DecidableEq Object] [DecidableEq Ptr] [DecidableEq Alloc] in
/-- What lies before the cursor is a byte string. -/
theorem represents_front (memory : Memory Ptr Alloc) (within : buffer.cursor ≤ buffer.size) :
    buffer.Represents memory
      ⟨buffer.size.toNat, memory.front buffer.data buffer.cursor.toNat,
        (Memory.front_length _ _ _).trans_le (UInt64.le_iff_toNat_le.mp within)⟩ where
  within := within
  capacity := rfl
  length := (Memory.front_length _ _ _).symm
  contents := rfl

omit [DecidableEq Object] [DecidableEq Ptr] [DecidableEq Alloc] in
theorem toNat_room (within : buffer.cursor ≤ buffer.size) :
    (buffer.size - buffer.cursor).toNat = buffer.size.toNat - buffer.cursor.toNat :=
  UInt64.toNat_sub_of_le _ _ within

omit [DecidableEq Object] [DecidableEq Ptr] [DecidableEq Alloc] in
/-- A request that the buffer has room for does not overflow. -/
theorem fits_of_enough (within : buffer.cursor ≤ buffer.size)
    (enough : size ≤ buffer.size - buffer.cursor) :
    buffer.cursor.toNat + size.toNat < 2 ^ 64 := by
  have order := UInt64.le_iff_toNat_le.mp within
  have fits := UInt64.le_iff_toNat_le.mp enough
  rw [toNat_room within] at fits
  have bound := buffer.size.toNat_lt
  omega

omit [DecidableEq Object] [DecidableEq Ptr] [DecidableEq Alloc] in
theorem reserved_of_enough (memory : Memory Ptr Alloc) (within : buffer.cursor ≤ buffer.size)
    (enough : size ≤ buffer.size - buffer.cursor) : Reserved memory memory buffer buffer size where
  within := within
  room := toNat_room within ▸ UInt64.le_iff_toNat_le.mp enough
  cursor := rfl
  contents := rfl

omit [DecidableEq Object] [DecidableEq Ptr] [DecidableEq Alloc] in
/-- The new capacity has the room asked for if the sum does not overflow, and is below the
cursor if it does. -/
theorem room_iff_fits (cursor size : UInt64) :
    (cursor ≤ cursor + size ∧ size.toNat ≤ (cursor + size).toNat - cursor.toNat) ↔
      cursor.toNat + size.toNat < 2 ^ 64 := by
  have sum := UInt64.toNat_add cursor size
  have cursorBound := cursor.toNat_lt
  have sizeBound := size.toNat_lt
  rw [UInt64.le_iff_toNat_le]
  refine ⟨fun room => ?_, fun small => ?_⟩
  · by_contra overflows
    have wrapped : (cursor + size).toNat = cursor.toNat + size.toNat - 2 ^ 64 := by
      rw [sum, Nat.mod_eq_sub_mod (by omega), Nat.mod_eq_of_lt (by omega)]
    omega
  · rw [sum, Nat.mod_eq_of_lt small]
    omega

theorem State.Sound.reserve_iff (sound : state.Sound) (found : state.buffers this = some buffer)
    (within : buffer.cursor ≤ buffer.size)
    (moved : state.reserve this size fresh = some next) :
    Safe state this size buffer (next, true) ↔ buffer.cursor.toNat + size.toNat < 2 ^ 64 := by
  by_cases enough : size ≤ buffer.size - buffer.cursor
  · simp only [State.reserve, found, if_pos enough, Option.bind_eq_bind, Option.bind_some] at moved
    cases moved
    exact iff_of_true ⟨buffer, found, reserved_of_enough _ within enough⟩
      (fits_of_enough within enough)
  · obtain ⟨allocator, owns⟩ := sound.owns found
    obtain ⟨_, own, contents⟩ :=
      State.Refines.grow (represents_front state.memory within) sound found owns enough moved
    rw [← room_iff_fits]
    refine ⟨fun safe => ?_, fun room => ⟨_, own, room.1, room.2, rfl, contents⟩⟩
    obtain ⟨after, foundAfter, reserved⟩ := safe
    cases own.symm.trans foundAfter
    exact ⟨reserved.within, reserved.room⟩

structure Refining (state : State Object Ptr Alloc) : Prop where
  sound : state.Sound
  refines : ∃ strings, state.Refines strings

theorem refining_of_reachable
    (reachable : (machine Object Ptr Alloc).Reachable Fits state) : Refining state := by
  apply reachable.invariant
  · intro first started
    cases started
    exact ⟨sound_initial, .initial, refines_initial⟩
  · intro state label next refining fits moved
    obtain ⟨strings, refines⟩ := refining.refines
    obtain ⟨after, _, refinesNext⟩ := refines.step refining.sound fits moved
    exact ⟨refining.sound.step moved, after, refinesNext⟩

/-- A `reserve` is safe exactly if `m_cursor + size` does not overflow or the allocator
throws, and in a run without such an overflow no cursor comes to lie behind the size. -/
theorem reserve_safe_iff
    (reachable : (machine Object Ptr Alloc).Reachable Machine.free state)
    (found : state.buffers this = some buffer) (within : buffer.cursor ≤ buffer.size)
    {answer : Option (Fresh Ptr)} {outcome : State Object Ptr Alloc × Bool}
    (called : state.reserveAnswered this size answer = some outcome) :
    (Safe state this size buffer outcome ↔
      (answer.isSome = true → buffer.cursor.toNat + size.toNat < 2 ^ 64)) ∧
    ∀ last, (machine Object Ptr Alloc).Reachable Fits last → ∀ object other,
      last.buffers object = some other → other.cursor ≤ other.size := by
  refine ⟨?_, fun last run object other there => ?_⟩
  · cases answer with
    | some fresh =>
        obtain ⟨next, moved, rfl⟩ := Option.map_eq_some_iff.mp called
        rw [(sound_of_reachable reachable).reserve_iff found within moved]
        exact ⟨fun small _ => small, fun small => small rfl⟩
    | none =>
        simp only [State.reserveAnswered, found, Option.map_some, Option.some.injEq] at called
        subst called
        refine iff_of_true ?_ nofun
        by_cases enough : size ≤ buffer.size - buffer.cursor
        · rw [decide_eq_true enough]
          exact ⟨buffer, found, reserved_of_enough _ within enough⟩
        · rw [decide_eq_false enough]
          rfl
  · obtain ⟨strings, refines⟩ := (refining_of_reachable run).refines
    obtain ⟨_, _, represents⟩ := refines.value_of there
    exact represents.within

/-- A full buffer of two bytes is asked for room for three more. -/
theorem reserve_safe_iff_full : ∃ state next : State Unit ℕ Unit, ∃ buffer,
    (machine Unit ℕ Unit).Reachable Machine.free state ∧
      state.buffers () = some buffer ∧ buffer.cursor = 2 ∧ buffer.size = 2 ∧
      state.reserveAnswered () 3 (some ⟨1, fun _ => 9⟩) = some (next, true) ∧
      Safe state () 3 buffer (next, true) := by
  obtain ⟨state, reachable, buffer, found, full, next, called⟩ :=
    Machine.reachable_of_exec (machine Unit ℕ Unit) Machine.free .initial
      [.constructString () ⟨[1, 2], by decide⟩ (.rvalue ()) ⟨0, fun _ => 0⟩]
      (fun state => ∃ buffer, state.buffers () = some buffer ∧
        (buffer.cursor = 2 ∧ buffer.size = 2) ∧
        ∃ next, state.reserveAnswered () 3 (some ⟨1, fun _ => 9⟩) = some (next, true))
      rfl ⟨_, rfl, _, rfl, ⟨rfl, rfl⟩, _, rfl⟩
  have within : buffer.cursor ≤ buffer.size := by
    rw [full.1, full.2]
    exact UInt64.le_refl 2
  have small : buffer.cursor.toNat + (3 : UInt64).toNat < 2 ^ 64 := by
    rw [full.1]
    decide
  exact ⟨state, next, buffer, reachable, found, full.1, full.2, called,
    (reserve_safe_iff reachable found within called).1.mpr fun _ => small⟩

/-- A buffer of three bytes is asked for `2 ^ 64 - 2` more: the new block has one byte, and
the next call finds `2 ^ 64 - 2` bytes of room in it. -/
theorem reserve_wraps : ∃ state next : State Unit ℕ Unit, ∃ buffer after,
    (machine Unit ℕ Unit).Reachable Machine.free state ∧
      state.buffers () = some buffer ∧ buffer.cursor ≤ buffer.size ∧
      state.reserve () 0xfffffffffffffffe ⟨1, fun _ => 9⟩ = some next ∧
      next.buffers () = some after ∧ after.cursor = 3 ∧ after.size = 1 ∧
      after.size - after.cursor = 0xfffffffffffffffe ∧
      ¬ Safe state () 0xfffffffffffffffe buffer (next, true) := by
  obtain ⟨state, reachable, buffer, found, within, next, moved, after, foundAfter, members⟩ :=
    Machine.reachable_of_exec (machine Unit ℕ Unit) Machine.free .initial
      [.constructString () ⟨[1, 2, 3], by decide⟩ (.rvalue ()) ⟨0, fun _ => 0⟩]
      (fun state => ∃ buffer, state.buffers () = some buffer ∧ buffer.cursor ≤ buffer.size ∧
        ∃ next, state.reserve () 0xfffffffffffffffe ⟨1, fun _ => 9⟩ = some next ∧
          ∃ after, next.buffers () = some after ∧ after.cursor = 3 ∧ after.size = 1)
      rfl ⟨_, rfl, _, rfl, by decide, _, rfl, _, rfl, rfl, rfl⟩
  refine ⟨state, next, buffer, after, reachable, found, within, moved, foundAfter, members.1,
    members.2, by rw [members.1, members.2]; rfl, fun safe => ?_⟩
  obtain ⟨other, foundOther, reserved⟩ := safe
  cases foundAfter.symm.trans foundOther
  have order := reserved.within
  rw [members.1, members.2] at order
  exact absurd order (by decide)

end Asco.Io.Buffer
