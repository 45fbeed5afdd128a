import Mathlib.Data.List.Basic
import Mathlib.Logic.Function.Basic

namespace Foundation.Blocks

/-! # Blocks of memory and the record of their use

A program takes blocks from allocators, touches their bytes and gives them
back.  The record of what it did says of each pointer whether it was used as
its owner may: a block is touched only while it is held, and it goes back
once, to the allocator it came from and with its own size.
-/

inductive Event (Ptr Source : Type*) where
  | allocate (source : Source) (pointer : Ptr) (size : ℕ)
  | deallocate (source : Source) (pointer : Ptr) (size : ℕ)
  | access (pointer : Ptr) (stop : ℕ)
  | wild

/-- What a record says of one pointer. -/
inductive Standing (Source : Type*) where
  | returned
  | held (source : Source) (size : ℕ)
  | misused
deriving DecidableEq

variable {Ptr Source : Type*}

section Record

variable [DecidableEq Ptr] [DecidableEq Source]

def Standing.after (pointer : Ptr) (standing : Standing Source) :
    Event Ptr Source → Standing Source
  | .allocate source other size =>
      if other = pointer then
        if standing = .returned then .held source size else .misused
      else standing
  | .deallocate source other size =>
      if other = pointer then
        if standing = .held source size then .returned else .misused
      else standing
  | .access other _ =>
      if other = pointer then
        match standing with
        | .held source size => .held source size
        | _ => .misused
      else standing
  | .wild => .misused

def standing (log : List (Event Ptr Source)) (pointer : Ptr) : Standing Source :=
  log.foldl (Standing.after pointer) .returned

theorem standing_append (log : List (Event Ptr Source)) (event : Event Ptr Source)
    (pointer : Ptr) :
    standing (log ++ [event]) pointer = (standing log pointer).after pointer event := by
  simp only [standing, List.foldl_append, List.foldl_cons, List.foldl_nil]

/-- Every access ended within the block it was made to. -/
inductive InBounds : List (Event Ptr Source) → Prop where
  | nil : InBounds []
  | snoc {log : List (Event Ptr Source)} {event : Event Ptr Source} (before : InBounds log)
      (within : ∀ pointer stop, event = .access pointer stop →
        ∃ source size, standing log pointer = .held source size ∧ stop ≤ size) :
      InBounds (log ++ [event])

end Record

attribute [local simp] Standing.after

structure Block (Source : Type*) where
  source : Source
  size : ℕ
  bytes : ℕ → UInt8

structure Memory (Ptr Source : Type*) where
  blocks : Ptr → Option (Block Source)
  log : List (Event Ptr Source)

/-- What an allocator answers: a pointer and whatever bytes lie behind it. -/
structure Fresh (Ptr : Type*) where
  pointer : Ptr
  bytes : ℕ → UInt8

def span (bytes : ℕ → UInt8) (count : ℕ) : List UInt8 := (List.range count).map bytes

def overwrite (bytes : ℕ → UInt8) (offset : ℕ) (values : List UInt8) (index : ℕ) : UInt8 :=
  if offset ≤ index then (values[index - offset]?).getD (bytes index) else bytes index

@[simp] theorem span_length (bytes : ℕ → UInt8) (count : ℕ) :
    (span bytes count).length = count := by
  simp [span]

theorem span_take (bytes : ℕ → UInt8) {count fewer : ℕ} (within : fewer ≤ count) :
    (span bytes count).take fewer = span bytes fewer := by
  rw [span, span, ← List.map_take, List.take_range, Nat.min_eq_left within]

theorem span_overwrite (bytes : ℕ → UInt8) (offset : ℕ) (values : List UInt8) :
    span (overwrite bytes offset values) (offset + values.length) =
      span bytes offset ++ values := by
  apply List.ext_getElem
  · simp
  · intro index within _
    rw [span_length] at within
    simp only [span, List.getElem_map, List.getElem_range, overwrite]
    by_cases before : index < offset
    · rw [if_neg (Nat.not_le.mpr before), List.getElem_append_left (by simpa using before)]
      simp
    · have later := Nat.le_of_not_lt before
      rw [if_pos later, List.getElem_append_right (by simpa using later)]
      have inside : index - offset < values.length := by omega
      simp [List.getElem?_eq_getElem inside]

namespace Memory

def empty : Memory Ptr Source := { blocks := fun _ => none, log := [] }

def record (memory : Memory Ptr Source) (event : Event Ptr Source) : Memory Ptr Source :=
  { memory with log := memory.log ++ [event] }

/-- The bytes at the front of a block. -/
def front (memory : Memory Ptr Source) (pointer : Option Ptr) (count : ℕ) : List UInt8 :=
  span (((pointer.bind memory.blocks).map Block.bytes).getD fun _ => 0) count

/-- Touching no byte is no access. -/
def touch (memory : Memory Ptr Source) (pointer : Option Ptr) (start count : ℕ) :
    Memory Ptr Source :=
  if count = 0 then memory
  else
    match pointer with
    | some pointer => memory.record (.access pointer (start + count))
    | none => memory.record .wild

theorem touch_blocks (memory : Memory Ptr Source) (pointer : Option Ptr) (start count : ℕ) :
    (memory.touch pointer start count).blocks = memory.blocks := by
  unfold touch
  split
  · rfl
  · cases pointer <;> rfl

theorem touch_none (memory : Memory Ptr Source) (pointer : Option Ptr) (start : ℕ) :
    memory.touch pointer start 0 = memory := by
  simp [touch]

theorem front_some {memory : Memory Ptr Source} {pointer : Ptr} {block : Block Source} {count : ℕ}
    (held : memory.blocks pointer = some block) :
    memory.front (some pointer) count = span block.bytes count := by
  simp [front, held]

theorem front_length (memory : Memory Ptr Source) (pointer : Option Ptr) (count : ℕ) :
    (memory.front pointer count).length = count := span_length _ _

theorem front_congr {memory next : Memory Ptr Source} {pointer : Option Ptr}
    (same : ∀ place, pointer = some place → next.blocks place = memory.blocks place) (count : ℕ) :
    next.front pointer count = memory.front pointer count := by
  cases pointer with
  | none => rfl
  | some place => simp only [front, Option.bind_some, same place rfl]

variable [DecidableEq Ptr]

/-- An allocator never answers with a pointer that is in use. -/
def allocate (memory : Memory Ptr Source) (source : Source) (size : ℕ) (fresh : Fresh Ptr) :
    Option (Memory Ptr Source) :=
  if (memory.blocks fresh.pointer).isSome then none
  else some
    { blocks := Function.update memory.blocks fresh.pointer
        (some { source := source, size := size, bytes := fresh.bytes })
      log := memory.log ++ [.allocate source fresh.pointer size] }

def deallocate (memory : Memory Ptr Source) (source : Source) (pointer : Ptr) (size : ℕ) :
    Memory Ptr Source :=
  { blocks := Function.update memory.blocks pointer none
    log := memory.log ++ [.deallocate source pointer size] }

def write (memory : Memory Ptr Source) (pointer : Option Ptr) (start : ℕ)
    (values : List UInt8) : Memory Ptr Source :=
  let touched := memory.touch pointer start values.length
  match pointer with
  | some pointer =>
      { touched with
        blocks := Function.update memory.blocks pointer ((memory.blocks pointer).map fun block =>
          { block with bytes := overwrite block.bytes start values }) }
  | none => touched

/-- Copy the front of one block into another. -/
def copy (memory : Memory Ptr Source) (origin : Option Ptr) (count : ℕ)
    (target : Option Ptr) (start : ℕ) : Memory Ptr Source :=
  (memory.touch origin 0 count).write target start (memory.front origin count)

theorem allocate_eq_some {memory next : Memory Ptr Source} {source : Source} {size : ℕ}
    {fresh : Fresh Ptr} :
    memory.allocate source size fresh = some next ↔
      memory.blocks fresh.pointer = none ∧
        next.blocks = Function.update memory.blocks fresh.pointer
          (some { source := source, size := size, bytes := fresh.bytes }) ∧
        next.log = memory.log ++ [.allocate source fresh.pointer size] := by
  obtain ⟨blocks, log⟩ := next
  cases found : memory.blocks fresh.pointer with
  | none =>
      simp only [allocate, found, Option.isSome_none, Bool.false_eq_true, if_false,
        Option.some.injEq, Memory.mk.injEq, true_and]
      exact ⟨fun same => ⟨same.1.symm, same.2.symm⟩, fun same => ⟨same.1.symm, same.2.symm⟩⟩
  | some block => simp [allocate, found]

theorem write_blocks (memory : Memory Ptr Source) (pointer : Ptr) (start : ℕ)
    (values : List UInt8) :
    (memory.write (some pointer) start values).blocks =
      Function.update memory.blocks pointer ((memory.blocks pointer).map fun block =>
        { block with bytes := overwrite block.bytes start values }) := rfl

theorem deallocate_blocks (memory : Memory Ptr Source) (source : Source) (pointer : Ptr)
    (size : ℕ) :
    (memory.deallocate source pointer size).blocks = Function.update memory.blocks pointer none :=
  rfl

theorem copy_blocks (memory : Memory Ptr Source) (origin : Option Ptr) (count : ℕ)
    (target : Ptr) (start : ℕ) :
    (memory.copy origin count (some target) start).blocks =
      Function.update memory.blocks target ((memory.blocks target).map fun block =>
        { block with bytes := overwrite block.bytes start (memory.front origin count) }) := by
  rw [copy, write_blocks, touch_blocks]

variable [DecidableEq Source]

/-- The record and the blocks agree, and no pointer was misused. -/
def Recorded (memory : Memory Ptr Source) : Prop :=
  ∀ pointer, standing memory.log pointer =
    ((memory.blocks pointer).map fun block => Standing.held block.source block.size).getD .returned

/-- Every block taken was given back. -/
def AllReturned (memory : Memory Ptr Source) : Prop :=
  ∀ pointer, standing memory.log pointer = .returned

/-- No pointer was touched while it was not held, or given back a second time,
to another allocator or with another size. -/
def NeverMisused (memory : Memory Ptr Source) : Prop :=
  ∀ pointer, standing memory.log pointer ≠ .misused

variable {memory : Memory Ptr Source} {source : Source} {pointer : Ptr} {size : ℕ}

theorem recorded_empty : (empty : Memory Ptr Source).Recorded := by
  intro pointer
  rfl

theorem Recorded.neverMisused (recorded : memory.Recorded) : memory.NeverMisused := by
  intro pointer misused
  rw [recorded pointer] at misused
  cases found : memory.blocks pointer <;> simp [found] at misused

theorem Recorded.allReturned_iff (recorded : memory.Recorded) :
    memory.AllReturned ↔ ∀ pointer, memory.blocks pointer = none := by
  refine forall_congr' fun pointer => ?_
  rw [recorded pointer]
  cases memory.blocks pointer <;> simp

theorem Recorded.allocate {next : Memory Ptr Source} {fresh : Fresh Ptr}
    (recorded : memory.Recorded) (allocated : memory.allocate source size fresh = some next) :
    next.Recorded := by
  obtain ⟨free, blocks, log⟩ := allocate_eq_some.mp allocated
  intro pointer
  rw [log, blocks, standing_append, recorded pointer]
  by_cases same : fresh.pointer = pointer
  · subst same
    simp [free]
  · rw [Function.update_of_ne (Ne.symm same)]
    simp [same]

theorem Recorded.deallocate {block : Block Source} (recorded : memory.Recorded)
    (held : memory.blocks pointer = some block) :
    (memory.deallocate block.source pointer block.size).Recorded := by
  intro other
  simp only [Memory.deallocate]
  rw [standing_append, recorded other]
  by_cases same : pointer = other
  · subst same
    simp [held]
  · rw [Function.update_of_ne (Ne.symm same)]
    simp [same]

theorem Recorded.touch {block : Block Source} {start count : ℕ} (recorded : memory.Recorded)
    (held : memory.blocks pointer = some block) :
    (memory.touch (some pointer) start count).Recorded := by
  unfold Memory.touch
  split
  · exact recorded
  · intro other
    simp only [record]
    rw [standing_append, recorded other]
    by_cases same : pointer = other
    · subst same
      simp [held]
    · simp [same]

/-- An update that keeps the origin and the size of every block keeps the record. -/
theorem Recorded.of_same {next : Memory Ptr Source} (recorded : memory.Recorded)
    (log : next.log = memory.log)
    (blocks : ∀ pointer, (next.blocks pointer).map (fun block => (block.source, block.size)) =
      (memory.blocks pointer).map fun block => (block.source, block.size)) : next.Recorded := by
  intro pointer
  have same := congrArg (fun pair : Option (Source × ℕ) =>
    (pair.map fun entry => Standing.held entry.1 entry.2).getD .returned) (blocks pointer)
  rw [log, recorded pointer]
  simpa only [Option.map_map, Function.comp_def] using same.symm

theorem Recorded.write {block : Block Source} {start : ℕ} {values : List UInt8}
    (recorded : memory.Recorded) (held : memory.blocks pointer = some block) :
    (memory.write (some pointer) start values).Recorded := by
  have touched : (memory.touch (some pointer) start values.length).Recorded := recorded.touch held
  refine touched.of_same rfl ?_
  intro other
  rw [write_blocks, touch_blocks]
  by_cases same : other = pointer
  · subst same
    simp [held]
  · rw [Function.update_of_ne same]

theorem Recorded.copy {origin : Option Ptr} {count start : ℕ} {block : Block Source}
    (recorded : memory.Recorded) (held : memory.blocks pointer = some block)
    (readable : 0 < count → ∃ place other, origin = some place ∧ memory.blocks place = some other) :
    (memory.copy origin count (some pointer) start).Recorded := by
  have touched : (memory.touch origin 0 count).Recorded := by
    cases count with
    | zero => rwa [touch_none]
    | succ count =>
        obtain ⟨place, other, rfl, found⟩ := readable count.succ_pos
        exact recorded.touch found
  exact touched.write (by rw [touch_blocks]; exact held)

/-- From `before` to `after` at most the block `old` was given back, and `new`
is a block of this origin and size: `old` itself or one just taken. -/
structure Exchanges (before after : Memory Ptr Source) (old new : Option Ptr) (source : Source)
    (size : ℕ) : Prop where
  recorded : after.Recorded
  others : ∀ pointer, old ≠ some pointer → new ≠ some pointer →
    after.blocks pointer = before.blocks pointer
  gone : ∀ pointer, old = some pointer → new ≠ some pointer → after.blocks pointer = none
  held : ∀ pointer, new = some pointer → ∃ block, after.blocks pointer = some block ∧
    block.source = source ∧ block.size = size
  origin : ∀ pointer, new = some pointer → old = some pointer ∨ before.blocks pointer = none

namespace Exchanges

variable {before after : Memory Ptr Source} {old new : Option Ptr}

theorem nothing (recorded : memory.Recorded) : Exchanges memory memory none none source size where
  recorded := recorded
  others _ _ _ := rfl
  gone _ missing := by cases missing
  held _ missing := by cases missing
  origin _ missing := by cases missing

theorem keep {block : Block Source} (recorded : memory.Recorded)
    (held : memory.blocks pointer = some block) :
    Exchanges memory memory (some pointer) (some pointer) block.source block.size where
  recorded := recorded
  others _ _ _ := rfl
  gone _ same other := (other same).elim
  held _ same := by
    cases same
    exact ⟨block, held, rfl, rfl⟩
  origin _ same := .inl same

theorem allocate {next : Memory Ptr Source} {fresh : Fresh Ptr} (recorded : memory.Recorded)
    (allocated : memory.allocate source size fresh = some next) :
    Exchanges memory next none (some fresh.pointer) source size := by
  obtain ⟨free, blocks, _⟩ := allocate_eq_some.mp allocated
  refine ⟨recorded.allocate allocated, ?_, ?_, ?_, ?_⟩
  · intro other _ different
    rw [blocks, Function.update_of_ne fun same => different (by rw [same])]
  · intro _ missing
    cases missing
  · intro other same
    cases same
    exact ⟨_, by rw [blocks, Function.update_self], rfl, rfl⟩
  · intro other same
    cases same
    exact .inr free

theorem release {block : Block Source} (recorded : memory.Recorded)
    (held : memory.blocks pointer = some block) :
    Exchanges memory (memory.deallocate block.source pointer block.size) (some pointer) none
      source size where
  recorded := recorded.deallocate held
  others other different _ := Function.update_of_ne (fun same => different (by rw [same])) _ _
  gone other same _ := by
    cases same
    exact Function.update_self _ _ _
  held _ missing := by cases missing
  origin _ missing := by cases missing

/-- Giving back another block once the new one is taken. -/
theorem deallocate {block : Block Source} (exchanges : Exchanges before after none new source size)
    (held : before.blocks pointer = some block) (kept : after.blocks pointer = some block) :
    Exchanges before (after.deallocate block.source pointer block.size) (some pointer) new source
      size := by
  have different : new ≠ some pointer := by
    intro same
    cases exchanges.origin pointer same with
    | inl missing => cases missing
    | inr free => simp [free] at held
  refine ⟨exchanges.recorded.deallocate kept, ?_, ?_, ?_, ?_⟩
  · intro other notOld notNew
    rw [deallocate_blocks, Function.update_of_ne fun same => notOld (by rw [same])]
    exact exchanges.others other (by simp) notNew
  · intro other same _
    cases same
    exact Function.update_self _ _ _
  · intro other same
    rw [deallocate_blocks, Function.update_of_ne fun equal => different (by rw [← equal, same])]
    exact exchanges.held other same
  · intro other same
    exact .inr ((exchanges.origin other same).resolve_left (by simp))

theorem overwrite_new {next : Memory Ptr Source} (change : (ℕ → UInt8) → ℕ → UInt8)
    (exchanges : Exchanges before after old (some pointer) source size) (recorded : next.Recorded)
    (blocks : next.blocks = Function.update after.blocks pointer
      ((after.blocks pointer).map fun block => { block with bytes := change block.bytes })) :
    Exchanges before next old (some pointer) source size := by
  refine ⟨recorded, ?_, ?_, ?_, exchanges.origin⟩
  · intro other notOld notNew
    rw [blocks, Function.update_of_ne fun same => notNew (by rw [same])]
    exact exchanges.others other notOld notNew
  · intro other same notNew
    rw [blocks, Function.update_of_ne fun equal => notNew (by rw [equal])]
    exact exchanges.gone other same notNew
  · intro other same
    cases same
    obtain ⟨block, found, origin, length⟩ := exchanges.held _ rfl
    exact ⟨{ block with bytes := change block.bytes },
      by rw [blocks, Function.update_self, found, Option.map_some], origin, length⟩

theorem write (exchanges : Exchanges before after old (some pointer) source size) (start : ℕ)
    (values : List UInt8) :
    Exchanges before (after.write (some pointer) start values) old (some pointer) source size := by
  obtain ⟨block, found, _⟩ := exchanges.held pointer rfl
  exact exchanges.overwrite_new (fun bytes => overwrite bytes start values)
    (exchanges.recorded.write found) (write_blocks after pointer start values)

theorem copy (exchanges : Exchanges before after old (some pointer) source size)
    {origin : Option Ptr} {count : ℕ} (start : ℕ)
    (readable : 0 < count → ∃ place other, origin = some place ∧
      after.blocks place = some other) :
    Exchanges before (after.copy origin count (some pointer) start) old (some pointer) source
      size := by
  obtain ⟨block, found, _⟩ := exchanges.held pointer rfl
  exact exchanges.overwrite_new
    (fun bytes => overwrite bytes start (after.front origin count))
    (exchanges.recorded.copy found readable) (copy_blocks after origin count pointer start)

end Exchanges

theorem inBounds_touch {block : Block Source} {start count : ℕ} (recorded : memory.Recorded)
    (bounded : InBounds memory.log) (held : memory.blocks pointer = some block)
    (within : start + count ≤ block.size) :
    InBounds (memory.touch (some pointer) start count).log := by
  unfold Memory.touch
  split
  · exact bounded
  · refine bounded.snoc fun other stop same => ?_
    obtain ⟨rfl, rfl⟩ := Event.access.inj same
    exact ⟨block.source, block.size, by simp [recorded pointer, held], within⟩

theorem inBounds_write {block : Block Source} {start : ℕ} {values : List UInt8}
    (recorded : memory.Recorded) (bounded : InBounds memory.log)
    (held : memory.blocks pointer = some block) (within : start + values.length ≤ block.size) :
    InBounds (memory.write (some pointer) start values).log :=
  inBounds_touch recorded bounded held within

theorem inBounds_copy {origin : Option Ptr} {count start : ℕ} {block : Block Source}
    (recorded : memory.Recorded) (bounded : InBounds memory.log)
    (held : memory.blocks pointer = some block) (within : start + count ≤ block.size)
    (readable : 0 < count → ∃ place other, origin = some place ∧
      memory.blocks place = some other ∧ count ≤ other.size) :
    InBounds (memory.copy origin count (some pointer) start).log := by
  have touched : (memory.touch origin 0 count).Recorded ∧
      InBounds (memory.touch origin 0 count).log := by
    cases count with
    | zero =>
        rw [touch_none]
        exact ⟨recorded, bounded⟩
    | succ count =>
        obtain ⟨place, other, rfl, found, enough⟩ := readable count.succ_pos
        exact ⟨recorded.touch found, inBounds_touch recorded bounded found (by omega)⟩
  exact inBounds_write touched.1 touched.2 (by rw [touch_blocks]; exact held)
    (by rw [front_length]; exact within)

theorem inBounds_allocate {next : Memory Ptr Source} {fresh : Fresh Ptr}
    (bounded : InBounds memory.log) (allocated : memory.allocate source size fresh = some next) :
    InBounds next.log := by
  obtain ⟨_, _, log⟩ := allocate_eq_some.mp allocated
  rw [log]
  exact bounded.snoc fun _ _ same => by cases same

theorem inBounds_deallocate (bounded : InBounds memory.log) :
    InBounds (memory.deallocate source pointer size).log :=
  bounded.snoc fun _ _ same => by cases same

end Memory

end Foundation.Blocks
