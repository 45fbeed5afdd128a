import Asco.Io.Buffer.Allocations

namespace Asco.Io.Buffer

open Foundation Foundation.Blocks

universe u

/-! # `io::buffer` as a bounded byte string -/

/-- A byte string that has room for a number of bytes in all. -/
@[ext]
structure BoundedBytes where
  capacity : ℕ
  contents : List UInt8
  fits : contents.length ≤ capacity

namespace BoundedBytes

def empty (capacity : ℕ) : BoundedBytes := ⟨capacity, [], Nat.zero_le _⟩

def room (value : BoundedBytes) : ℕ := value.capacity - value.contents.length

/-- How many of `count` bytes a push takes: those that fit, but all of them
where there is no capacity yet. -/
def accepted (value : BoundedBytes) (count : ℕ) : ℕ :=
  if value.capacity = 0 then count else min count value.room

theorem accepted_le (value : BoundedBytes) (count : ℕ) : value.accepted count ≤ count := by
  unfold accepted
  split
  · exact Nat.le_refl _
  · exact Nat.min_le_left _ _

def push (value : BoundedBytes) (bytes : List UInt8) : BoundedBytes where
  capacity := if value.capacity = 0 then bytes.length else value.capacity
  contents := value.contents ++ bytes.take (value.accepted bytes.length)
  fits := by
    have fits := value.fits
    simp only [List.length_append, List.length_take, accepted, room]
    split <;> omega

/-- The room asked for is there already, or the capacity becomes exactly enough. -/
def reserve (value : BoundedBytes) (size : ℕ) : BoundedBytes where
  capacity := if size ≤ value.room then value.capacity else value.contents.length + size
  contents := value.contents
  fits := by
    have fits := value.fits
    split <;> omega

theorem le_room_reserve (value : BoundedBytes) (size : ℕ) : size ≤ (value.reserve size).room := by
  by_cases roomy : size ≤ value.capacity - value.contents.length
  · simp [reserve, room, roomy]
  · simp [reserve, room, roomy]

end BoundedBytes

/-- The byte strings that exist and what the last `push` answered. -/
structure Strings (Object : Type u) where
  values : Object → Option BoundedBytes
  answer : ℕ

variable {Object Ptr Alloc : Type u} [DecidableEq Object]

namespace Strings

def initial : Strings Object := { values := fun _ => none, answer := 0 }

def put (strings : Strings Object) (this : Object) (value : Option BoundedBytes) :
    Strings Object :=
  { strings with values := Function.update strings.values this value }

def create (strings : Strings Object) (this : Object) (value : BoundedBytes) :
    Option (Strings Object) :=
  if (strings.values this).isSome then none else some (strings.put this (some value))

/-- `this` gets the string of `rhs`, which becomes empty. -/
def transfer (strings : Strings Object) (this rhs : Object) : Option (Strings Object) :=
  (strings.values rhs).map fun value =>
    (strings.put this (some value)).put rhs (some (.empty 0))

def append (strings : Strings Object) (this : Object) (bytes : List UInt8) :
    Option (Strings Object) :=
  (strings.values this).map fun value =>
    { strings.put this (some (value.push bytes)) with answer := value.accepted bytes.length }

def move (strings : Strings Object) : Label Object Ptr Alloc → Option (Strings Object)
  | .construct this _ => strings.create this (.empty 0)
  | .constructSize this size _ _ => strings.create this (.empty size.toNat)
  | .constructString this string _ _ =>
      strings.create this ⟨string.bytes.length, string.bytes, Nat.le_refl _⟩
  | .moveConstruct this rhs =>
      if (strings.values this).isSome then none else strings.transfer this rhs
  | .moveAssign this rhs =>
      if (strings.values this).isNone || (strings.values rhs).isNone then none
      else if this = rhs then some strings
      else strings.transfer this rhs
  | .reserve this size _ =>
      (strings.values this).map fun value => strings.put this (some (value.reserve size.toNat))
  | .push this bytes _ => strings.append this bytes.bytes
  | .pushBuffer this other _ =>
      (strings.values other).bind fun value => strings.append this value.contents
  | .clear this => (strings.values this).map fun _ => strings.put this (some (.empty 0))
  | .destroy this => (strings.values this).map fun _ => strings.put this none

end Strings

def stringMachine (Object Ptr Alloc : Type u) [DecidableEq Object] :
    Machine (Strings Object) (Label Object Ptr Alloc) where
  start strings := strings = .initial
  move := Strings.move

omit [DecidableEq Object] in
/-- The bytes of the buffer before its cursor are the string. -/
structure Represents (memory : Memory Ptr Alloc) (buffer : Buffer Object Ptr Alloc)
    (value : BoundedBytes) : Prop where
  within : buffer.cursor ≤ buffer.size
  capacity : buffer.size.toNat = value.capacity
  length : buffer.cursor.toNat = value.contents.length
  contents : memory.front buffer.data buffer.cursor.toNat = value.contents

/-- The buffers that exist are the strings that exist, and no access left its block. -/
structure State.Refines [DecidableEq Ptr] [DecidableEq Alloc] (state : State Object Ptr Alloc)
    (strings : Strings Object) : Prop where
  bounded : InBounds state.memory.log
  answer : state.answer.toNat = strings.answer
  represents : ∀ object,
    Option.Rel (Represents state.memory) (state.buffers object) (strings.values object)

/-- `m_cursor + size` does not overflow in `reserve(size)`. -/
def Fits (state : State Object Ptr Alloc) : Label Object Ptr Alloc → Prop
  | .reserve this size _ => ∀ buffer ∈ state.buffers this,
      buffer.cursor.toNat + size.toNat < 2 ^ 64
  | _ => True

variable [DecidableEq Ptr] [DecidableEq Alloc] {state next : State Object Ptr Alloc}
  {strings after : Strings Object} {this that rhs : Object} {buffer : Buffer Object Ptr Alloc}
  {value : BoundedBytes} {memory : Memory Ptr Alloc} {fresh : Fresh Ptr}

omit [DecidableEq Object] [DecidableEq Ptr] [DecidableEq Alloc] in
theorem Represents.of_blocks {changed : Memory Ptr Alloc}
    (represents : buffer.Represents memory value)
    (same : ∀ pointer, buffer.data = some pointer →
      changed.blocks pointer = memory.blocks pointer) : buffer.Represents changed value :=
  { represents with
    contents := by
      rw [Memory.front_congr same]
      exact represents.contents }

omit [DecidableEq Object] [DecidableEq Ptr] [DecidableEq Alloc] in
theorem emptied_represents (memory : Memory Ptr Alloc) (buffer : Buffer Object Ptr Alloc) :
    buffer.emptied.Represents memory (.empty 0) :=
  ⟨UInt64.le_refl _, rfl, rfl, rfl⟩

namespace State.Refines

omit [DecidableEq Object] in
theorem value_of (refines : state.Refines strings) (found : state.buffers this = some buffer) :
    ∃ value, strings.values this = some value ∧ buffer.Represents state.memory value := by
  have related := refines.represents this
  rw [found] at related
  cases value : strings.values this with
  | none =>
      rw [value] at related
      cases related
  | some value_ =>
      rw [value] at related
      cases related with
      | some represents => exact ⟨value_, rfl, represents⟩

omit [DecidableEq Object] in
theorem absent_iff (refines : state.Refines strings) :
    state.buffers this = none ↔ strings.values this = none := by
  have related := refines.represents this
  cases found : state.buffers this <;> cases value : strings.values this <;>
    rw [found, value] at related <;> cases related <;> simp

/-- A step that rewrites one object leaves the strings of the others alone. -/
theorem rewrite {old : Option Ptr} {final : Option (Buffer Object Ptr Alloc)}
    {result : Option BoundedBytes} (refines : state.Refines strings) (sound : state.Sound)
    (rewrites : state.Rewrites next this old final)
    (settled : old = none ∨ old = state.dataOf this) (bounded : InBounds next.memory.log)
    (answer : next.answer.toNat = after.answer)
    (values : after.values = Function.update strings.values this result)
    (own : Option.Rel (Represents next.memory) (next.buffers this) result) :
    next.Refines after where
  bounded := bounded
  answer := answer
  represents := by
    intro object
    by_cases same : object = this
    · rw [same, values, Function.update_self]
      exact own
    · rw [values, Function.update_of_ne same, rewrites.buffers, Function.update_of_ne same]
      have related := refines.represents object
      cases found : state.buffers object with
      | none =>
          rw [refines.absent_iff.mp found]
          exact .none
      | some other =>
          obtain ⟨held, value, represents⟩ := refines.value_of found
          rw [value]
          exact .some (represents.of_blocks fun pointer data =>
            rewrites.frame sound settled same found data)

theorem transfers (refines : state.Refines strings)
    (transfers : state.Transfers next this rhs buffer) (sameAnswer : next.answer = state.answer) :
    ∃ after, strings.transfer this rhs = some after ∧ next.Refines after := by
  obtain ⟨value, held, represents⟩ := refines.value_of transfers.found
  refine ⟨_, by rw [Strings.transfer, held]; rfl, ?_, ?_, fun object => ?_⟩
  · rw [transfers.memory]
    exact refines.bounded
  · rw [sameAnswer]
    exact refines.answer
  · rw [transfers.buffers, transfers.memory]
    simp only [Strings.put, Function.update_apply]
    split
    · exact .some (emptied_represents _ buffer)
    · split
      · exact .some ⟨represents.within, represents.capacity, represents.length,
          represents.contents⟩
      · exact refines.represents object

/-! ### Construction -/

theorem create {data : Option Ptr} {size cursor : UInt64} {argument : Argument Alloc}
    (refines : state.Refines strings) (sound : state.Sound) (absent : state.buffers this = none)
    (bare : data = none → size = 0 ∧ cursor = 0)
    (exchanges : state.memory.Exchanges memory none data argument.allocator size.toNat)
    (bounded : InBounds memory.log) (within : cursor ≤ size)
    (capacity : size.toNat = value.capacity) (length : cursor.toNat = value.contents.length)
    (contents : memory.front data cursor.toNat = value.contents) :
    ∃ after, strings.create this value = some after ∧
      (state.put memory this
        (some (constructed this data size cursor argument))).Refines after := by
  have free := refines.absent_iff.mp absent
  refine ⟨strings.put this (some value), by simp [Strings.create, free], ?_⟩
  refine refines.rewrite sound (settles_constructed absent bare exchanges) (.inr rfl) bounded
    refines.answer rfl ?_
  obtain ⟨sameData, sameSize, sameCursor⟩ := constructed_members this data size cursor argument
  simp only [State.put, Function.update_self]
  refine .some ⟨?_, ?_, ?_, ?_⟩
  · rw [sameCursor, sameSize]
    exact within
  · rw [sameSize]
    exact capacity
  · rw [sameCursor]
    exact length
  · rw [sameData, sameCursor]
    exact contents

theorem construct {argument : Argument Alloc} (refines : state.Refines strings)
    (sound : state.Sound) (moved : state.construct this argument = some next) :
    ∃ after, strings.create this (.empty 0) = some after ∧ next.Refines after := by
  unfold State.construct at moved
  split at moved
  · cases moved
  · rename_i absent
    cases moved
    exact refines.create sound (by simpa using absent) (fun _ => ⟨rfl, rfl⟩)
      (.nothing sound.recorded) refines.bounded (UInt64.le_refl _) rfl rfl rfl

theorem constructSize {size : UInt64} {argument : Argument Alloc} (refines : state.Refines strings)
    (sound : state.Sound) (moved : state.constructSize this size argument fresh = some next) :
    ∃ after, strings.create this (.empty size.toNat) = some after ∧ next.Refines after := by
  unfold State.constructSize at moved
  split at moved
  · cases moved
  · rename_i absent
    obtain ⟨memory, allocated, same⟩ := Option.bind_eq_some_iff.mp moved
    cases same
    exact refines.create sound (by simpa using absent) (fun missing => by cases missing)
      (.allocate sound.recorded allocated) (Memory.inBounds_allocate refines.bounded allocated)
      (UInt64.zero_le) rfl rfl rfl

omit [DecidableEq Object] in
theorem span_size (span : Span) : span.size.toNat = span.bytes.length :=
  UInt64.toNat_ofNat_of_lt' span.fits

theorem constructString {string : Span} {argument : Argument Alloc}
    (refines : state.Refines strings) (sound : state.Sound)
    (moved : state.constructString this string argument fresh = some next) :
    ∃ after, strings.create this ⟨string.bytes.length, string.bytes, Nat.le_refl _⟩ = some after ∧
      next.Refines after := by
  unfold State.constructString at moved
  split at moved
  · cases moved
  · rename_i absent
    obtain ⟨memory, allocated, same⟩ := Option.bind_eq_some_iff.mp moved
    cases same
    have taken := Memory.Exchanges.allocate sound.recorded allocated
    obtain ⟨block, held, _, length⟩ := taken.held _ rfl
    have size := span_size string
    have written := Memory.write_blocks memory fresh.pointer 0 string.bytes
    refine refines.create sound (by simpa using absent) (fun missing => by cases missing)
      (taken.write 0 string.bytes)
      (Memory.inBounds_write taken.recorded (Memory.inBounds_allocate refines.bounded allocated)
        held (by omega)) (UInt64.le_refl _) size size ?_
    have found : (memory.write (some fresh.pointer) 0 string.bytes).blocks fresh.pointer =
        some { block with bytes := overwrite block.bytes 0 string.bytes } := by
      rw [written, Function.update_self, held, Option.map_some]
    rw [Memory.front_some found, size]
    simpa [Blocks.span] using span_overwrite block.bytes 0 string.bytes

/-! ### Clearing and moving -/

theorem clear (refines : state.Refines strings) (sound : state.Sound)
    (moved : state.clear this = some next) :
    ∃ value, strings.values this = some value ∧
      next.Refines (strings.put this (some (.empty 0))) ∧
      ∃ buffer, next.buffers this = some buffer ∧ buffer.data = none := by
  obtain ⟨buffer, found, _⟩ := Option.bind_eq_some_iff.mp moved
  obtain ⟨value, held, _⟩ := refines.value_of found
  obtain ⟨memory, cleared, settles, bounded⟩ := sound.clear_eq found
  rw [cleared] at moved
  cases moved
  have own : (state.put memory this (some buffer.emptied)).buffers this = some buffer.emptied :=
    Function.update_self _ _ _
  refine ⟨value, held, ?_, buffer.emptied, own, rfl⟩
  refine refines.rewrite sound settles (.inr rfl) (bounded refines.bounded) refines.answer rfl ?_
  rw [own]
  exact .some (emptied_represents memory buffer)

theorem destroy (refines : state.Refines strings) (sound : state.Sound)
    (moved : state.destroy this = some next) :
    ∃ value, strings.values this = some value ∧ next.Refines (strings.put this none) := by
  obtain ⟨cleared, clearing, same⟩ := Option.bind_eq_some_iff.mp moved
  cases same
  obtain ⟨value, held, emptied, buffer, found, bare⟩ := refines.clear sound clearing
  have soundCleared := (sound.clear_conserves clearing).1.sound
  have values : (strings.put this none).values =
      Function.update (strings.put this (some (.empty 0))).values this none :=
    (Function.update_idem _ _ _).symm
  refine ⟨value, held, emptied.rewrite soundCleared (settles_vanish soundCleared found bare)
    (.inr rfl) emptied.bounded emptied.answer values ?_⟩
  simp only [State.put, Function.update_self]
  exact .none

theorem transfer (refines : state.Refines strings) (different : this ≠ rhs)
    (bare : state.dataOf this = none) (moved : state.transfer this rhs = some next) :
    ∃ after, strings.transfer this rhs = some after ∧ next.Refines after := by
  obtain ⟨buffer, moves⟩ := transfers_of_moved different bare moved
  rw [transfer_eq moves.found] at moved
  cases moved
  exact refines.transfers moves rfl

omit [DecidableEq Ptr] [DecidableEq Alloc] in
theorem transfer_put (strings : Strings Object) (different : this ≠ rhs)
    (value : Option BoundedBytes) :
    (strings.put this value).transfer this rhs = strings.transfer this rhs := by
  simp only [Strings.transfer, Strings.put, Function.update_of_ne (Ne.symm different),
    Function.update_idem]

theorem moveConstruct (refines : state.Refines strings)
    (moved : state.moveConstruct this rhs = some next) :
    ∃ after, strings.transfer this rhs = some after ∧ strings.values this = none ∧
      next.Refines after := by
  unfold State.moveConstruct at moved
  split at moved
  · cases moved
  · rename_i absent
    have unbuilt : state.buffers this = none := by simpa using absent
    obtain ⟨buffer, found, _⟩ := Option.bind_eq_some_iff.mp moved
    have different : this ≠ rhs := by
      rintro rfl
      rw [unbuilt] at found
      cases found
    obtain ⟨after, transferred, nextRefines⟩ :=
      refines.transfer different (State.dataOf_eq_none unbuilt) moved
    exact ⟨after, transferred, refines.absent_iff.mp unbuilt, nextRefines⟩

theorem moveAssign (refines : state.Refines strings) (sound : state.Sound)
    (moved : state.moveAssign this rhs = some next) :
    ∃ after, (strings.values this).isSome ∧ (strings.values rhs).isSome ∧
      (if this = rhs then some strings else strings.transfer this rhs) = some after ∧
      next.Refines after := by
  have exists_iff (object : Object) :
      (strings.values object).isSome ↔ (state.buffers object).isSome := by
    rw [Option.isSome_iff_ne_none, Option.isSome_iff_ne_none, ne_eq, ne_eq, refines.absent_iff]
  unfold State.moveAssign at moved
  split at moved
  · cases moved
  · rename_i both
    have present : (state.buffers this).isSome ∧ (state.buffers rhs).isSome := by
      simpa [Option.isNone_iff_eq_none, Option.isSome_iff_ne_none] using both
    rw [← exists_iff, ← exists_iff] at present
    split at moved
    · rename_i same
      cases moved
      exact ⟨strings, present.1, present.2, if_pos same, refines⟩
    · rename_i different
      obtain ⟨cleared, clearing, transferring⟩ := Option.bind_eq_some_iff.mp moved
      obtain ⟨value, held, emptied, buffer, found, bare⟩ := refines.clear sound clearing
      obtain ⟨after, transferred, nextRefines⟩ :=
        emptied.transfer different (by rw [State.dataOf_eq found, bare]) transferring
      rw [transfer_put strings different] at transferred
      exact ⟨after, present.1, present.2, by rw [if_neg different, transferred], nextRefines⟩

/-! ### Writing -/

/-- The members and the contents after a `reserve` that has to grow. -/
theorem grow {size : UInt64} {allocator : Alloc} (represents : buffer.Represents state.memory value)
    (sound : state.Sound) (found : state.buffers this = some buffer)
    (owns : buffer.Owns state.memory this allocator)
    (large : ¬ size ≤ buffer.size - buffer.cursor)
    (moved : state.reserve this size fresh = some next) :
    next.answer = state.answer ∧
      next.buffers this =
        some { buffer with data := some fresh.pointer, size := buffer.cursor + size } ∧
      next.memory.front (some fresh.pointer) buffer.cursor.toNat = value.contents := by
  simp only [State.reserve, found, if_neg large, owns.allocatorOf found, Option.bind_eq_bind,
    Option.bind_some] at moved
  obtain ⟨memory, allocated, same⟩ := Option.bind_eq_some_iff.mp moved
  cases same
  have taken := Memory.Exchanges.allocate sound.recorded allocated
  obtain ⟨free, blocks, _⟩ := Memory.allocate_eq_some.mp allocated
  obtain ⟨block, heldFresh, _, length⟩ := taken.held _ rfl
  refine ⟨rfl, Function.update_self _ _ _, ?_⟩
  cases data : buffer.data with
  | none =>
      have empty := represents.contents
      rw [(owns.bare data).2, data] at empty
      rw [(owns.bare data).2, ← empty]
      rfl
  | some pointer =>
      obtain ⟨old, held, _, oldLength⟩ := owns.held pointer data
      have different : fresh.pointer ≠ pointer := by
        rintro rfl
        rw [free] at held
        cases held
      have kept : memory.blocks pointer = some old := by
        rw [blocks, Function.update_of_ne (Ne.symm different), held]
      have copied : ((memory.copy (some pointer) buffer.cursor.toNat (some fresh.pointer)
          0).deallocate allocator pointer buffer.size.toNat).blocks fresh.pointer =
          some { block with
            bytes := overwrite block.bytes 0
              (memory.front (some pointer) buffer.cursor.toNat) } := by
        rw [Memory.deallocate_blocks, Function.update_of_ne different, Memory.copy_blocks,
          Function.update_self, heldFresh, Option.map_some]
      have same : memory.front (some pointer) buffer.cursor.toNat = value.contents := by
        rw [Memory.front_some kept, ← Memory.front_some held, ← data]
        exact represents.contents
      have written := span_overwrite block.bytes 0 value.contents
      simp only [State.put]
      rw [Memory.front_some copied, same, represents.length]
      simpa [Blocks.span] using written

/-- The bytes before the cursor are copied within their old and their new block. -/
theorem grow_inBounds {size : UInt64} {allocator : Alloc}
    (represents : buffer.Represents state.memory value) (sound : state.Sound)
    (bounded : InBounds state.memory.log) (found : state.buffers this = some buffer)
    (owns : buffer.Owns state.memory this allocator)
    (small : buffer.cursor.toNat + size.toNat < 2 ^ 64)
    (large : ¬ size ≤ buffer.size - buffer.cursor)
    (moved : state.reserve this size fresh = some next) : InBounds next.memory.log := by
  simp only [State.reserve, found, if_neg large, owns.allocatorOf found, Option.bind_eq_bind,
    Option.bind_some] at moved
  obtain ⟨memory, allocated, same⟩ := Option.bind_eq_some_iff.mp moved
  cases same
  have taken := Memory.Exchanges.allocate sound.recorded allocated
  have boundedTaken := Memory.inBounds_allocate bounded allocated
  obtain ⟨free, blocks, _⟩ := Memory.allocate_eq_some.mp allocated
  obtain ⟨block, heldFresh, _, length⟩ := taken.held _ rfl
  have total : (buffer.cursor + size).toNat = buffer.cursor.toNat + size.toNat := by
    rw [UInt64.toNat_add, Nat.mod_eq_of_lt small]
  cases data : buffer.data with
  | none => exact boundedTaken
  | some pointer =>
      obtain ⟨old, held, _, oldLength⟩ := owns.held pointer data
      have different : pointer ≠ fresh.pointer := by
        rintro rfl
        rw [free] at held
        cases held
      have kept : memory.blocks pointer = some old := by
        rw [blocks, Function.update_of_ne different, held]
      have within := UInt64.le_iff_toNat_le.mp represents.within
      exact Memory.inBounds_deallocate (Memory.inBounds_copy taken.recorded boundedTaken heldFresh
        (by omega) fun _ => ⟨pointer, old, rfl, kept, by omega⟩)

theorem reserve {size : UInt64} (refines : state.Refines strings) (sound : state.Sound)
    (fits : Fits state (.reserve this size fresh))
    (moved : state.reserve this size fresh = some next) :
    ∃ value, strings.values this = some value ∧
      next.Refines (strings.put this (some (value.reserve size.toNat))) := by
  obtain ⟨buffer, found, outcome⟩ := sound.reserve moved
  obtain ⟨value, held, represents⟩ := refines.value_of found
  have room : (buffer.size - buffer.cursor).toNat = value.room := by
    rw [UInt64.toNat_sub_of_le _ _ represents.within, represents.capacity, represents.length]
    rfl
  have small : buffer.cursor.toNat + size.toNat < 2 ^ 64 := fits buffer found
  refine ⟨value, held, ?_⟩
  rcases outcome with ⟨enough, rfl⟩ | ⟨large, _, settles⟩
  · have enough : size.toNat ≤ value.room := room ▸ UInt64.le_iff_toNat_le.mp enough
    have kept : value.reserve size.toNat = value := by
      ext1
      · exact if_pos enough
      · rfl
    refine ⟨refines.bounded, refines.answer, fun object => ?_⟩
    rw [kept, Strings.put, ← held, Function.update_eq_self]
    exact refines.represents object
  · obtain ⟨_, owns⟩ := sound.owns found
    obtain ⟨answer, own, contents⟩ := grow represents sound found owns large moved
    have bounded := grow_inBounds represents sound refines.bounded found owns small large moved
    have more : ¬ size.toNat ≤ value.room :=
      fun enough => large (UInt64.le_iff_toNat_le.mpr (room ▸ enough))
    have total : (buffer.cursor + size).toNat = buffer.cursor.toNat + size.toNat := by
      rw [UInt64.toNat_add, Nat.mod_eq_of_lt small]
    refine refines.rewrite sound settles (.inr rfl) bounded (by rw [answer]; exact refines.answer)
      rfl ?_
    rw [own]
    refine .some ⟨?_, ?_, represents.length, contents⟩
    · rw [UInt64.le_iff_toNat_le, total]
      exact Nat.le_add_right _ _
    · rw [total, represents.length]
      exact (if_neg more).symm

end State.Refines

/-- What `try_advance` hands to the copy that follows it: a block that holds
the contents and has room for `size` more bytes after them. -/
structure Advances (memory : Memory Ptr Alloc) (buffer advanced : Buffer Object Ptr Alloc)
    (value : BoundedBytes) (count size : UInt64) (pointer : Ptr) (block : Block Alloc) : Prop where
  data : advanced.data = some pointer
  held : memory.blocks pointer = some block
  recorded : memory.Recorded
  bounded : InBounds memory.log
  taken : size.toNat = value.accepted count.toNat
  cursor : advanced.cursor.toNat = buffer.cursor.toNat + size.toNat
  within : advanced.cursor.toNat ≤ advanced.size.toNat
  length : block.size = advanced.size.toNat
  capacity : advanced.size.toNat = if value.capacity = 0 then count.toNat else value.capacity
  contents : span block.bytes buffer.cursor.toNat = value.contents

omit [DecidableEq Object] in
theorem tryAdvance_advances {count size : UInt64} {advanced : Buffer Object Ptr Alloc}
    (represents : buffer.Represents state.memory value) (sound : state.Sound)
    (bounded : InBounds state.memory.log) (found : state.buffers this = some buffer)
    (advance : state.tryAdvance buffer count fresh = some (memory, advanced, size)) :
    ∃ pointer block, Advances memory buffer advanced value count size pointer block := by
  obtain ⟨allocator, owns⟩ := sound.owns found
  have capacity := represents.capacity
  have lengths := represents.length
  have fits := value.fits
  unfold State.tryAdvance at advance
  split at advance
  · rename_i noSize
    have noCapacity : value.capacity = 0 := by
      rw [← capacity, noSize]
      rfl
    simp only [owns.allocatorOf found, Option.bind_eq_bind, Option.bind_some] at advance
    obtain ⟨taken, allocated, same⟩ := Option.bind_eq_some_iff.mp advance
    cases same
    have exchanged := Memory.Exchanges.allocate sound.recorded allocated
    obtain ⟨block, held, _, length⟩ := exchanged.held _ rfl
    have start : buffer.cursor.toNat = 0 := by omega
    refine ⟨fresh.pointer, block, rfl, held, exchanged.recorded,
      Memory.inBounds_allocate bounded allocated, ?_, ?_, Nat.le_refl _, length, ?_, ?_⟩
    · exact (if_pos noCapacity).symm
    · rw [start, Nat.zero_add]
    · exact (if_pos noCapacity).symm
    · rw [start]
      exact (List.eq_nil_of_length_eq_zero (by omega)).symm
  · rename_i sized
    cases advance
    have hasCapacity : value.capacity ≠ 0 := by
      intro none
      rw [← capacity] at none
      exact sized (UInt64.toNat_inj.mp none)
    cases data : buffer.data with
    | none => exact (sized (owns.bare data).1).elim
    | some pointer =>
        obtain ⟨block, held, _, length⟩ := owns.held pointer data
        have room : (buffer.size - buffer.cursor).toNat = value.room := by
          rw [UInt64.toNat_sub_of_le _ _ represents.within, capacity, lengths]
          rfl
        have taken : (min count (buffer.size - buffer.cursor)).toNat =
            value.accepted count.toNat := by
          rw [BoundedBytes.accepted, if_neg hasCapacity, ← room]
          exact UInt64.toNat_min _ _
        have within : value.accepted count.toNat ≤ value.room := by
          rw [BoundedBytes.accepted, if_neg hasCapacity]
          exact Nat.min_le_right _ _
        have bound := buffer.size.toNat_lt
        have total : (buffer.cursor + min count (buffer.size - buffer.cursor)).toNat =
            buffer.cursor.toNat + (min count (buffer.size - buffer.cursor)).toNat := by
          rw [UInt64.toNat_add, Nat.mod_eq_of_lt]
          rw [taken]
          unfold BoundedBytes.room at within
          omega
        refine ⟨pointer, block, rfl, held, sound.recorded, bounded, taken, total, ?_, length, ?_,
          ?_⟩
        · simp only
          rw [total, taken]
          unfold BoundedBytes.room at within
          omega
        · rw [if_neg hasCapacity]
          exact capacity
        · rw [← Memory.front_some held, ← data]
          exact represents.contents

namespace Advances

variable {advanced : Buffer Object Ptr Alloc} {count size : UInt64} {pointer : Ptr}
  {block : Block Alloc} {filled : Memory Ptr Alloc} {bytes : List UInt8}

omit [DecidableEq Object] in
theorem represents (advances : Advances memory buffer advanced value count size pointer block)
    (length : count.toNat = bytes.length)
    (blocks : filled.blocks pointer = some { block with
      bytes := overwrite block.bytes buffer.cursor.toNat
        (bytes.take (value.accepted bytes.length)) }) :
    advanced.Represents filled (value.push bytes) := by
  have accepted : (bytes.take (value.accepted bytes.length)).length = size.toNat := by
    rw [List.length_take, Nat.min_eq_left (value.accepted_le _), advances.taken, length]
  have written := span_overwrite block.bytes buffer.cursor.toNat
    (bytes.take (value.accepted bytes.length))
  have lengths := congrArg List.length advances.contents
  rw [span_length] at lengths
  refine ⟨UInt64.le_iff_toNat_le.mpr advances.within, ?_, ?_, ?_⟩
  · rw [advances.capacity, length]
    rfl
  · rw [advances.cursor, BoundedBytes.push, List.length_append, accepted, lengths]
  · rw [advances.data, Memory.front_some blocks, advances.cursor, ← accepted, written,
      advances.contents]
    rfl

end Advances

namespace State.Refines

theorem appended {count size : UInt64} {advanced : Buffer Object Ptr Alloc} {pointer : Ptr}
    {block : Block Alloc} {filled : Memory Ptr Alloc} {bytes : List UInt8} {old : Option Ptr}
    {final : Option (Buffer Object Ptr Alloc)} (refines : state.Refines strings)
    (sound : state.Sound) (held : strings.values this = some value)
    (advances : Advances memory buffer advanced value count size pointer block)
    (length : count.toNat = bytes.length)
    (blocks : filled.blocks pointer = some { block with
      bytes := overwrite block.bytes buffer.cursor.toNat
        (bytes.take (value.accepted bytes.length)) })
    (bounded : InBounds filled.log)
    (rewrites : state.Rewrites { state.put filled this (some advanced) with answer := size } this
      old final) (settled : old = none ∨ old = state.dataOf this) :
    ∃ after, strings.append this bytes = some after ∧
      State.Refines { state.put filled this (some advanced) with answer := size } after := by
  refine ⟨{ strings.put this (some (value.push bytes)) with
    answer := value.accepted bytes.length }, by rw [Strings.append, held]; rfl, ?_⟩
  refine refines.rewrite sound rewrites settled bounded ?_ rfl ?_
  · simp only [advances.taken, length]
  · simp only [State.put, Function.update_self]
    exact .some (advances.represents length blocks)

omit [DecidableEq Object] [DecidableEq Ptr] [DecidableEq Alloc] in
theorem settled_old (state : State Object Ptr Alloc) (this : Object) :
    (if state.holdsEmptyBlock this then none else state.dataOf this) = none ∨
      (if state.holdsEmptyBlock this then none else state.dataOf this) = state.dataOf this := by
  split
  · exact .inl rfl
  · exact .inr rfl

theorem push {bytes : Span} (refines : state.Refines strings) (sound : state.Sound)
    (moved : state.push this bytes fresh = some next) :
    ∃ after, strings.append this bytes.bytes = some after ∧ next.Refines after := by
  obtain ⟨_, rewrites⟩ := sound.push moved
  obtain ⟨buffer, found, rest⟩ := Option.bind_eq_some_iff.mp moved
  obtain ⟨⟨memory, advanced, size⟩, advance, same⟩ := Option.bind_eq_some_iff.mp rest
  cases same
  obtain ⟨value, held, represents⟩ := refines.value_of found
  obtain ⟨pointer, block, advances⟩ :=
    tryAdvance_advances represents sound refines.bounded found advance
  have length := span_size bytes
  have accepted : size.toNat = value.accepted bytes.bytes.length := by
    rw [advances.taken, length]
  refine refines.appended sound held advances length ?_ ?_ rewrites (settled_old state this)
  · rw [advances.data, Memory.write_blocks, Function.update_self, advances.held, Option.map_some,
      accepted]
  · rw [advances.data]
    refine Memory.inBounds_write advances.recorded advances.bounded advances.held ?_
    have fewer := List.length_take_le size.toNat bytes.bytes
    have cursor := advances.cursor
    have within := advances.within
    have total := advances.length
    omega

theorem pushBuffer (refines : state.Refines strings) (sound : state.Sound)
    (moved : state.pushBuffer this that fresh = some next) :
    ∃ other after, strings.values that = some other ∧
      strings.append this other.contents = some after ∧ next.Refines after := by
  obtain ⟨_, rewrites⟩ := sound.pushBuffer moved
  obtain ⟨buffer, found, rest⟩ := Option.bind_eq_some_iff.mp moved
  obtain ⟨source, foundSource, rest⟩ := Option.bind_eq_some_iff.mp rest
  obtain ⟨⟨memory, advanced, size⟩, advance, same⟩ := Option.bind_eq_some_iff.mp rest
  cases same
  obtain ⟨value, held, represents⟩ := refines.value_of found
  obtain ⟨other, heldOther, representsOther⟩ := refines.value_of foundSource
  obtain ⟨pointer, block, advances⟩ :=
    tryAdvance_advances represents sound refines.bounded found advance
  obtain ⟨_, owns⟩ := sound.owns foundSource
  obtain ⟨_, _, _, _, _, _, _, live⟩ := sound.tryAdvance found advance
  have length := representsOther.length
  have fewer : size.toNat ≤ source.cursor.toNat := UInt64.le_iff_toNat_le.mp (tryAdvance_le advance)
  have readable : 0 < size.toNat → ∃ place block, source.data = some place ∧
      memory.blocks place = some block ∧ size.toNat ≤ block.size := by
    intro positive
    cases data : source.data with
    | none =>
        rw [(owns.bare data).2] at fewer
        exact absurd fewer (Nat.not_le.mpr positive)
    | some place =>
        obtain ⟨block, used, _, total⟩ := owns.held place data
        have within := UInt64.le_iff_toNat_le.mp representsOther.within
        exact ⟨place, block, rfl, live place block used, by omega⟩
  have bytes : memory.front source.data size.toNat =
      other.contents.take (value.accepted other.contents.length) := by
    rw [← length, ← advances.taken, ← representsOther.contents, Memory.front, Memory.front]
    rw [span_take _ fewer]
    cases data : source.data with
    | none => rfl
    | some place =>
        obtain ⟨block, used, _, _⟩ := owns.held place data
        rw [Option.bind_some, Option.bind_some, used, live place block used]
  obtain ⟨after, appended, nextRefines⟩ := refines.appended sound held advances length (by
      rw [advances.data, Memory.copy_blocks, Function.update_self, advances.held, Option.map_some,
        bytes]) (by
      rw [advances.data]
      refine Memory.inBounds_copy advances.recorded advances.bounded advances.held ?_ readable
      have cursor := advances.cursor
      have within := advances.within
      have total := advances.length
      omega) rewrites (settled_old state this)
  exact ⟨other, after, heldOther, appended, nextRefines⟩

/-- Every step of the buffers is the step of the strings. -/
theorem step {label : Label Object Ptr Alloc} (refines : state.Refines strings)
    (sound : state.Sound) (fits : Fits state label) (moved : state.move label = some next) :
    ∃ after, strings.move label = some after ∧ next.Refines after := by
  cases label with
  | construct this argument => exact refines.construct sound moved
  | constructSize this size argument fresh => exact refines.constructSize sound moved
  | constructString this string argument fresh => exact refines.constructString sound moved
  | moveConstruct this rhs =>
      obtain ⟨after, transferred, absent, nextRefines⟩ := refines.moveConstruct moved
      exact ⟨after, by simp [Strings.move, absent, transferred], nextRefines⟩
  | moveAssign this rhs =>
      obtain ⟨after, present, other, outcome, nextRefines⟩ := refines.moveAssign sound moved
      refine ⟨after, ?_, nextRefines⟩
      rw [Option.isSome_iff_ne_none] at present other
      rw [Strings.move, if_neg (by simp [present, other]), outcome]
  | reserve this size fresh =>
      obtain ⟨value, held, nextRefines⟩ := refines.reserve sound fits moved
      exact ⟨_, by rw [Strings.move, held]; rfl, nextRefines⟩
  | push this bytes fresh => exact refines.push sound moved
  | pushBuffer this other fresh =>
      obtain ⟨value, after, held, appended, nextRefines⟩ := refines.pushBuffer sound moved
      exact ⟨after, by rw [Strings.move, held]; exact appended, nextRefines⟩
  | clear this =>
      obtain ⟨value, held, nextRefines, _⟩ := refines.clear sound moved
      exact ⟨_, by rw [Strings.move, held]; rfl, nextRefines⟩
  | destroy this =>
      obtain ⟨value, held, nextRefines⟩ := refines.destroy sound moved
      exact ⟨_, by rw [Strings.move, held]; rfl, nextRefines⟩

end State.Refines

/-! ## Every call on a live buffer goes through -/

/-- The allocator can answer with the pointer of the label. -/
def Offers (state : State Object Ptr Alloc) : Label Object Ptr Alloc → Prop
  | .constructSize _ _ _ fresh | .constructString _ _ _ fresh | .reserve _ _ fresh
  | .push _ _ fresh | .pushBuffer _ _ fresh => state.memory.blocks fresh.pointer = none
  | .construct .. | .moveConstruct .. | .moveAssign .. | .clear .. | .destroy .. => True

omit [DecidableEq Object] in
theorem State.Sound.tryAdvance_isSome {count : UInt64} (sound : state.Sound)
    (found : state.buffers this = some buffer)
    (free : state.memory.blocks fresh.pointer = none) :
    (state.tryAdvance buffer count fresh).isSome := by
  obtain ⟨allocator, owns⟩ := sound.owns found
  unfold State.tryAdvance
  split
  · simp [owns.allocatorOf found, Memory.allocate, free]
  · rfl

theorem State.Sound.clear_isSome (sound : state.Sound) (found : state.buffers this = some buffer) :
    (state.clear this).isSome := by
  obtain ⟨memory, cleared, _⟩ := sound.clear_eq found
  rw [cleared]
  rfl

theorem transfer_isSome (found : state.buffers rhs = some buffer) :
    (state.transfer this rhs).isSome := by
  rw [transfer_eq found]
  rfl

theorem State.Sound.reserve_isSome {size : UInt64} (sound : state.Sound)
    (found : state.buffers this = some buffer)
    (free : state.memory.blocks fresh.pointer = none) :
    (state.reserve this size fresh).isSome := by
  obtain ⟨allocator, owns⟩ := sound.owns found
  simp only [State.reserve, found, Option.bind_eq_bind, Option.bind_some]
  split
  · rfl
  · simp [owns.allocatorOf found, Memory.allocate, free]

theorem State.Refines.absent_of_create (refines : state.Refines strings)
    (called : (strings.create this value).isSome) : state.buffers this = none := by
  rw [refines.absent_iff]
  cases held : strings.values this with
  | none => rfl
  | some value => simp [Strings.create, held] at called

omit [DecidableEq Object] in
theorem State.Refines.present (refines : state.Refines strings)
    (held : (strings.values this).isSome) : ∃ buffer, state.buffers this = some buffer := by
  rw [← Option.isSome_iff_exists, Option.isSome_iff_ne_none, ne_eq, refines.absent_iff]
  exact Option.isSome_iff_ne_none.mp held

/-- What the strings can do the buffers can, when the allocator has an answer. -/
theorem State.Refines.enabled {label : Label Object Ptr Alloc} (refines : state.Refines strings)
    (sound : state.Sound) (offers : Offers state label) (called : (strings.move label).isSome) :
    (state.move label).isSome := by
  cases label with
  | construct this argument =>
      simp [State.move, State.construct, refines.absent_of_create called]
  | constructSize this size argument fresh =>
      have free : state.memory.blocks fresh.pointer = none := offers
      simp [State.move, State.constructSize, refines.absent_of_create called, Memory.allocate, free]
  | constructString this string argument fresh =>
      have free : state.memory.blocks fresh.pointer = none := offers
      simp [State.move, State.constructString, refines.absent_of_create called, Memory.allocate,
        free]
  | moveConstruct this rhs =>
      rw [Strings.move] at called
      split at called
      · cases called
      · rename_i absent
        obtain ⟨buffer, found⟩ := refines.present (by simpa [Strings.transfer] using called)
        have unbuilt :=
          refines.absent_iff.mpr (show strings.values this = none by simpa using absent)
        rw [State.move, State.moveConstruct, unbuilt]
        exact transfer_isSome found
  | moveAssign this rhs =>
      rw [Strings.move] at called
      split at called
      · cases called
      · rename_i both
        have held : (strings.values this).isSome ∧ (strings.values rhs).isSome := by
          simpa [Option.isNone_iff_eq_none, Option.isSome_iff_ne_none] using both
        obtain ⟨buffer, found⟩ := refines.present held.1
        obtain ⟨source, foundSource⟩ := refines.present held.2
        rw [State.move, State.moveAssign, found, foundSource]
        by_cases same : this = rhs
        · simp [same]
        · obtain ⟨cleared, clearing⟩ := Option.isSome_iff_exists.mp (sound.clear_isSome found)
          obtain ⟨_, _, others⟩ := sound.clear_conserves clearing
          have kept := (others rhs (Ne.symm same)).trans foundSource
          simp only [Option.isNone_some, Bool.or_self, Bool.false_eq_true, if_false, if_neg same,
            clearing, Option.bind_eq_bind, Option.bind_some]
          exact transfer_isSome kept
  | reserve this size fresh =>
      obtain ⟨buffer, found⟩ := refines.present (by simpa [Strings.move] using called)
      exact sound.reserve_isSome found offers
  | push this bytes fresh =>
      have held : (strings.values this).isSome := by
        simpa [Strings.move, Strings.append] using called
      obtain ⟨buffer, found⟩ := refines.present held
      obtain ⟨⟨memory, advanced, size⟩, advance⟩ :=
        Option.isSome_iff_exists.mp (sound.tryAdvance_isSome found offers)
      rw [State.move, State.push, found, Option.bind_eq_bind, Option.bind_some, advance]
      rfl
  | pushBuffer this other fresh =>
      obtain ⟨after, result⟩ := Option.isSome_iff_exists.mp called
      obtain ⟨value, held, appended⟩ := Option.bind_eq_some_iff.mp result
      obtain ⟨target, heldTarget, _⟩ := Option.map_eq_some_iff.mp appended
      obtain ⟨buffer, found⟩ := refines.present (Option.isSome_of_mem heldTarget)
      obtain ⟨source, foundSource⟩ := refines.present (Option.isSome_of_mem held)
      obtain ⟨⟨memory, advanced, size⟩, advance⟩ :=
        Option.isSome_iff_exists.mp (sound.tryAdvance_isSome found offers)
      rw [State.move, State.pushBuffer, found, foundSource]
      simp only [Option.bind_eq_bind, Option.bind_some]
      rw [advance]
      rfl
  | clear this =>
      obtain ⟨buffer, found⟩ := refines.present (by simpa [Strings.move] using called)
      exact sound.clear_isSome found
  | destroy this =>
      obtain ⟨buffer, found⟩ := refines.present (by simpa [Strings.move] using called)
      obtain ⟨_, _, _, destroyed⟩ := sound.destroy_eq found
      rw [State.move, destroyed]
      rfl

instance : DecidableRel (Fits : State Object Ptr Alloc → Label Object Ptr Alloc → Prop) :=
  fun state label =>
    match label with
    | .reserve this size _ =>
        inferInstanceAs (Decidable (∀ buffer ∈ state.buffers this,
          buffer.cursor.toNat + size.toNat < 2 ^ 64))
    | .push .. | .pushBuffer .. | .construct .. | .constructSize .. | .constructString ..
    | .moveConstruct .. | .moveAssign .. | .clear .. | .destroy .. => isTrue trivial

theorem State.Refines.exec {labels : List (Label Object Ptr Alloc)}
    {last : State Object Ptr Alloc} (refines : state.Refines strings) (sound : state.Sound)
    (executed : (machine Object Ptr Alloc).exec Fits state labels = some last) :
    ∃ final, (stringMachine Object Ptr Alloc).exec Machine.free strings labels = some final ∧
      last.Refines final ∧ last.Sound := by
  induction labels generalizing state strings with
  | nil =>
      cases executed
      exact ⟨strings, rfl, refines, sound⟩
  | cons label rest ih =>
      obtain ⟨fits, next, moved, executed⟩ := Machine.exec_cons_eq_some.mp executed
      obtain ⟨after, stepped, refinesNext⟩ := refines.step sound fits moved
      obtain ⟨final, executedStrings, refinesLast, soundLast⟩ :=
        ih refinesNext (sound.step moved) executed
      refine ⟨final, ?_, refinesLast, soundLast⟩
      have free : Machine.free strings label := trivial
      rw [Machine.exec_cons free stepped]
      exact executedStrings

omit [DecidableEq Object] in
theorem refines_initial : (State.initial : State Object Ptr Alloc).Refines .initial where
  bounded := .nil
  answer := rfl
  represents _ := .none

/-- Every run of buffers in which no `reserve` overflows is the run of bounded
byte strings: same contents, capacities and results, the cursor within the
size, every access within its block, and no call refused. -/
theorem refines_strings {labels : List (Label Object Ptr Alloc)} {last : State Object Ptr Alloc}
    (executed : (machine Object Ptr Alloc).exec Fits .initial labels = some last) :
    ∃ strings, (stringMachine Object Ptr Alloc).exec Machine.free .initial labels = some strings ∧
      last.Refines strings ∧
      ∀ label, Offers last label → (strings.move label).isSome → (last.move label).isSome := by
  obtain ⟨strings, executedStrings, refines, sound⟩ := refines_initial.exec sound_initial executed
  exact ⟨strings, executedStrings, refines, fun label offers called =>
    refines.enabled sound offers called⟩

/-- A full buffer is extended, moved from and its source used again. -/
theorem refines_strings_moved : ∃ last : State Bool ℕ Unit,
    (machine Bool ℕ Unit).exec Fits .initial
      [.constructString true ⟨[1, 2], by decide⟩ (.rvalue ()) ⟨0, fun _ => 0⟩,
        .reserve true 2 ⟨1, fun _ => 9⟩, .push true ⟨[3, 4, 5], by decide⟩ ⟨2, fun _ => 9⟩,
        .moveConstruct false true, .pushBuffer true false ⟨2, fun _ => 9⟩] = some last ∧
    ∃ strings, (stringMachine Bool ℕ Unit).exec Machine.free .initial
      [.constructString true ⟨[1, 2], by decide⟩ (.rvalue ()) ⟨0, fun _ => 0⟩,
        .reserve true 2 ⟨1, fun _ => 9⟩, .push true ⟨[3, 4, 5], by decide⟩ ⟨2, fun _ => 9⟩,
        .moveConstruct false true, .pushBuffer true false ⟨2, fun _ => 9⟩] = some strings ∧
      last.Refines strings ∧
      ∀ label, Offers last label → (strings.move label).isSome → (last.move label).isSome :=
  ⟨_, rfl, refines_strings rfl⟩

end Asco.Io.Buffer
