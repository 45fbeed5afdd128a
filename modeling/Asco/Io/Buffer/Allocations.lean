import Asco.Io.Buffer

namespace Asco.Io.Buffer

open Foundation Foundation.Blocks

universe u

variable {Object Ptr Alloc : Type u} [DecidableEq Object] [DecidableEq Ptr] [DecidableEq Alloc]

/-! # `io::buffer`: who owns which block -/

omit [DecidableEq Object] [DecidableEq Ptr] [DecidableEq Alloc] in
/-- `m_allocator` of the object `this` leads to `allocator`, and not through
the storage of another object. -/
def Denotes (this : Object) (buffer : Buffer Object Ptr Alloc) (allocator : Alloc) : Prop :=
  buffer.allocator = .elsewhere allocator ∨
    (buffer.allocator = .storage this ∧ buffer.allocatorStorage = some allocator)

omit [DecidableEq Object] [DecidableEq Ptr] [DecidableEq Alloc] in
structure Owns (memory : Memory Ptr Alloc) (this : Object) (buffer : Buffer Object Ptr Alloc)
    (allocator : Alloc) : Prop where
  denotes : buffer.Denotes this allocator
  bare : buffer.data = none → buffer.size = 0 ∧ buffer.cursor = 0
  held : ∀ pointer, buffer.data = some pointer → ∃ block, memory.blocks pointer = some block ∧
    block.source = allocator ∧ block.size = buffer.size.toNat

structure State.Sound (state : State Object Ptr Alloc) : Prop where
  recorded : state.memory.Recorded
  owns : ∀ {this buffer}, state.buffers this = some buffer →
    ∃ allocator, buffer.Owns state.memory this allocator
  apart : ∀ {this that buffer other pointer}, state.buffers this = some buffer →
    state.buffers that = some other → buffer.data = some pointer → other.data = some pointer →
      this = that

variable {state next : State Object Ptr Alloc} {this that rhs : Object}
  {buffer : Buffer Object Ptr Alloc} {allocator : Alloc} {memory : Memory Ptr Alloc}
  {fresh : Fresh Ptr}

omit [DecidableEq Object] [DecidableEq Ptr] [DecidableEq Alloc] in
theorem Denotes.allocatorOf (denotes : buffer.Denotes this allocator)
    (found : ∃ original, state.buffers this = some original ∧
      original.allocatorStorage = buffer.allocatorStorage) :
    state.allocatorOf buffer = some allocator := by
  obtain ⟨original, exists_, same⟩ := found
  cases denotes with
  | inl elsewhere => simp [State.allocatorOf, elsewhere]
  | inr stored => simp [State.allocatorOf, stored.1, exists_, same, stored.2]

omit [DecidableEq Object] [DecidableEq Ptr] [DecidableEq Alloc] in
theorem Owns.allocatorOf (owns : buffer.Owns memory this allocator)
    (found : state.buffers this = some buffer) : state.allocatorOf buffer = some allocator :=
  owns.denotes.allocatorOf ⟨buffer, found, rfl⟩

omit [DecidableEq Object] [DecidableEq Ptr] [DecidableEq Alloc] in
theorem Owns.of_blocks {changed : Memory Ptr Alloc} (owns : buffer.Owns memory this allocator)
    (same : ∀ pointer, buffer.data = some pointer →
      changed.blocks pointer = memory.blocks pointer) :
    buffer.Owns changed this allocator :=
  { owns with
    held := by
      intro pointer data
      rw [same pointer data]
      exact owns.held pointer data }

omit [DecidableEq Object] [DecidableEq Ptr] [DecidableEq Alloc] in
theorem Owns.emptied (owns : buffer.Owns memory this allocator) (changed : Memory Ptr Alloc) :
    buffer.emptied.Owns changed this allocator where
  denotes := owns.denotes
  bare _ := ⟨rfl, rfl⟩
  held pointer data := by cases data

/-- The block of `this`, when the object exists and has one. -/
def State.dataOf (state : State Object Ptr Alloc) (this : Object) : Option Ptr :=
  (state.buffers this).bind Buffer.data

/-- The step from `state` to `next` rewrites one object, gives at most the
block `old` back and takes at most the block that the object has afterwards. -/
structure State.Rewrites (state next : State Object Ptr Alloc) (this : Object) (old : Option Ptr)
    (after : Option (Buffer Object Ptr Alloc)) : Prop where
  buffers : next.buffers = Function.update state.buffers this after
  exchanges : ∃ allocator size,
    state.memory.Exchanges next.memory old (after.bind Buffer.data) allocator size ∧
      ∀ buffer, after = some buffer → buffer.Denotes this allocator ∧
        (buffer.data = none → buffer.size = 0 ∧ buffer.cursor = 0) ∧
        (buffer.data ≠ none → size = buffer.size.toNat)

/-- The rewritten object keeps its block, or the block goes back. -/
def State.Settles (state next : State Object Ptr Alloc) (this : Object)
    (after : Option (Buffer Object Ptr Alloc)) : Prop :=
  state.Rewrites next this (state.dataOf this) after

omit [DecidableEq Object] [DecidableEq Ptr] [DecidableEq Alloc] in
theorem State.dataOf_eq (found : state.buffers this = some buffer) :
    state.dataOf this = buffer.data := by
  simp [dataOf, found]

namespace State.Rewrites

variable {old : Option Ptr} {after : Option (Buffer Object Ptr Alloc)}

theorem others_apart (rewrites : state.Rewrites next this old after) (sound : state.Sound)
    (settled : old = none ∨ old = state.dataOf this) {other : Buffer Object Ptr Alloc}
    {pointer : Ptr} (different : that ≠ this) (found : state.buffers that = some other)
    (data : other.data = some pointer) :
    old ≠ some pointer ∧ after.bind Buffer.data ≠ some pointer := by
  have notOld : old ≠ some pointer := by
    intro same
    cases settled with
    | inl none =>
        rw [none] at same
        cases same
    | inr own =>
        rw [own] at same
        obtain ⟨buffer, foundThis, dataThis⟩ := Option.bind_eq_some_iff.mp same
        exact different (sound.apart found foundThis data dataThis)
  refine ⟨notOld, fun same => ?_⟩
  obtain ⟨allocator, size, exchanges, _⟩ := rewrites.exchanges
  cases exchanges.origin pointer same with
  | inl equal => exact notOld equal
  | inr free =>
      obtain ⟨_, owns⟩ := sound.owns found
      obtain ⟨block, held, _⟩ := owns.held pointer data
      rw [free] at held
      cases held

theorem frame (rewrites : state.Rewrites next this old after) (sound : state.Sound)
    (settled : old = none ∨ old = state.dataOf this) {other : Buffer Object Ptr Alloc}
    {pointer : Ptr} (different : that ≠ this) (found : state.buffers that = some other)
    (data : other.data = some pointer) :
    next.memory.blocks pointer = state.memory.blocks pointer := by
  obtain ⟨notOld, notNew⟩ := rewrites.others_apart sound settled different found data
  obtain ⟨allocator, size, exchanges, _⟩ := rewrites.exchanges
  exact exchanges.others pointer notOld notNew

theorem sound (rewrites : state.Rewrites next this old after) (sound : state.Sound)
    (settled : old = none ∨ old = state.dataOf this) : next.Sound where
  recorded := by
    obtain ⟨allocator, size, exchanges, _⟩ := rewrites.exchanges
    exact exchanges.recorded
  owns := by
    intro object buffer found
    rw [rewrites.buffers] at found
    by_cases same : object = this
    · subst same
      rw [Function.update_self] at found
      obtain ⟨allocator, size, exchanges, fields⟩ := rewrites.exchanges
      obtain ⟨denotes, bare, sized⟩ := fields buffer found
      refine ⟨allocator, denotes, bare, fun pointer data => ?_⟩
      obtain ⟨block, held, origin, length⟩ := exchanges.held pointer (by simpa [found] using data)
      exact ⟨block, held, origin, length.trans (sized (by simp [data]))⟩
    · rw [Function.update_of_ne same] at found
      obtain ⟨allocator, owns⟩ := sound.owns found
      exact ⟨allocator, owns.of_blocks fun pointer data =>
        rewrites.frame sound settled same found data⟩
  apart := by
    intro first second buffer other pointer foundFirst foundSecond data dataOther
    rw [rewrites.buffers] at foundFirst foundSecond
    by_cases sameFirst : first = this
    · by_cases sameSecond : second = this
      · rw [sameFirst, sameSecond]
      · rw [sameFirst, Function.update_self] at foundFirst
        rw [Function.update_of_ne sameSecond] at foundSecond
        have apart := (rewrites.others_apart sound settled sameSecond foundSecond dataOther).2
        exact (apart (by simpa [foundFirst] using data)).elim
    · rw [Function.update_of_ne sameFirst] at foundFirst
      by_cases sameSecond : second = this
      · rw [sameSecond, Function.update_self] at foundSecond
        have apart := (rewrites.others_apart sound settled sameFirst foundFirst data).2
        exact (apart (by simpa [foundSecond] using dataOther)).elim
      · rw [Function.update_of_ne sameSecond] at foundSecond
        exact sound.apart foundFirst foundSecond data dataOther

end State.Rewrites

/-- A block in use that no buffer has any more. -/
def State.Orphan (state : State Object Ptr Alloc) (pointer : Ptr) : Prop :=
  (state.memory.blocks pointer).isSome ∧ ∀ object, state.dataOf object ≠ some pointer

theorem State.Rewrites.dataOf {old : Option Ptr} {after : Option (Buffer Object Ptr Alloc)}
    (rewrites : state.Rewrites next this old after) (object : Object) :
    next.dataOf object = if object = this then after.bind Buffer.data else state.dataOf object := by
  unfold State.dataOf
  rw [rewrites.buffers, Function.update_apply]
  split <;> rfl

theorem State.Settles.orphan_iff {after : Option (Buffer Object Ptr Alloc)}
    (settles : state.Settles next this after) (pointer : Ptr) :
    next.Orphan pointer ↔ state.Orphan pointer := by
  obtain ⟨allocator, size, exchanges, fields⟩ := settles.exchanges
  have others : (∀ object, object ≠ this → next.dataOf object ≠ some pointer) ↔
      ∀ object, object ≠ this → state.dataOf object ≠ some pointer := by
    refine forall₂_congr fun object different => ?_
    rw [settles.dataOf, if_neg different]
  have own : next.dataOf this = after.bind Buffer.data := by rw [settles.dataOf, if_pos rfl]
  have split (state : State Object Ptr Alloc) :
      (∀ object, state.dataOf object ≠ some pointer) ↔ state.dataOf this ≠ some pointer ∧
        ∀ object, object ≠ this → state.dataOf object ≠ some pointer :=
    ⟨fun all => ⟨all this, fun object _ => all object⟩, fun all object => by
      by_cases same : object = this
      · rw [same]
        exact all.1
      · exact all.2 object same⟩
  unfold State.Orphan
  rw [split next, split state, others, own]
  by_cases old : state.dataOf this = some pointer
  · by_cases new : after.bind Buffer.data = some pointer
    · simp [old, new]
    · simp [exchanges.gone pointer old new, old]
  · by_cases new : after.bind Buffer.data = some pointer
    · have free := (exchanges.origin pointer new).resolve_left old
      simp [free, new]
    · rw [exchanges.others pointer old new]
      simp [old, new]

/-! ## The operations -/

omit [DecidableEq Object] [DecidableEq Ptr] [DecidableEq Alloc] in
theorem constructed_denotes (this : Object) (data : Option Ptr) (size cursor : UInt64)
    (argument : Argument Alloc) :
    (constructed this data size cursor argument).Denotes this argument.allocator := by
  cases argument with
  | rvalue allocator => exact .inr ⟨rfl, rfl⟩
  | reference allocator => exact .inl rfl

omit [DecidableEq Object] [DecidableEq Ptr] [DecidableEq Alloc] in
theorem constructed_members (this : Object) (data : Option Ptr) (size cursor : UInt64)
    (argument : Argument Alloc) :
    (constructed this data size cursor argument).data = data ∧
      (constructed this data size cursor argument).size = size ∧
      (constructed this data size cursor argument).cursor = cursor := by
  cases argument <;> exact ⟨rfl, rfl, rfl⟩

omit [DecidableEq Object] [DecidableEq Ptr] [DecidableEq Alloc] in
theorem State.dataOf_eq_none (absent : state.buffers this = none) : state.dataOf this = none := by
  simp [State.dataOf, absent]

theorem settles_constructed {data : Option Ptr} {size cursor : UInt64}
    {argument : Argument Alloc} (absent : state.buffers this = none)
    (bare : data = none → size = 0 ∧ cursor = 0)
    (exchanges : state.memory.Exchanges memory none data argument.allocator size.toNat) :
    state.Settles (state.put memory this (some (constructed this data size cursor argument))) this
      (some (constructed this data size cursor argument)) := by
  obtain ⟨sameData, sameSize, sameCursor⟩ := constructed_members this data size cursor argument
  refine ⟨rfl, argument.allocator, size.toNat, ?_, ?_⟩
  · rw [State.dataOf_eq_none absent, Option.bind_some, sameData]
    exact exchanges
  · intro buffer same
    cases same
    refine ⟨constructed_denotes this data size cursor argument, ?_, fun _ => by rw [sameSize]⟩
    rw [sameData, sameSize, sameCursor]
    exact bare

theorem State.Sound.construct {argument : Argument Alloc} (sound : state.Sound)
    (moved : state.construct this argument = some next) :
    ∃ after, state.Settles next this after := by
  unfold State.construct at moved
  split at moved
  · cases moved
  · rename_i absent
    cases moved
    exact ⟨_, settles_constructed (by simpa using absent) (fun _ => ⟨rfl, rfl⟩)
      (.nothing sound.recorded)⟩

theorem State.Sound.constructSize {size : UInt64} {argument : Argument Alloc} (sound : state.Sound)
    (moved : state.constructSize this size argument fresh = some next) :
    ∃ after, state.Settles next this after := by
  unfold State.constructSize at moved
  split at moved
  · cases moved
  · rename_i absent
    obtain ⟨memory, allocated, same⟩ := Option.bind_eq_some_iff.mp moved
    cases same
    exact ⟨_, settles_constructed (by simpa using absent) (fun missing => by cases missing)
      (.allocate sound.recorded allocated)⟩

theorem State.Sound.constructString {string : Span} {argument : Argument Alloc}
    (sound : state.Sound)
    (moved : state.constructString this string argument fresh = some next) :
    ∃ after, state.Settles next this after := by
  unfold State.constructString at moved
  split at moved
  · cases moved
  · rename_i absent
    obtain ⟨memory, allocated, same⟩ := Option.bind_eq_some_iff.mp moved
    cases same
    have taken := Memory.Exchanges.allocate sound.recorded allocated
    exact ⟨_, settles_constructed (by simpa using absent) (fun missing => by cases missing)
      (taken.write 0 string.bytes)⟩

theorem State.Sound.clear_eq (sound : state.Sound) (found : state.buffers this = some buffer) :
    ∃ memory, state.clear this = some (state.put memory this (some buffer.emptied)) ∧
      state.Settles (state.put memory this (some buffer.emptied)) this (some buffer.emptied) ∧
      (InBounds state.memory.log → InBounds memory.log) := by
  obtain ⟨allocator, owns⟩ := sound.owns found
  have settles {memory : Memory Ptr Alloc}
      (exchanges : state.memory.Exchanges memory buffer.data none allocator 0) :
      state.Settles (state.put memory this (some buffer.emptied)) this (some buffer.emptied) := by
    refine ⟨rfl, allocator, 0, ?_, ?_⟩
    · rw [State.dataOf_eq found]
      exact exchanges
    · intro emptied same
      cases same
      exact ⟨owns.denotes, fun _ => ⟨rfl, rfl⟩, fun missing => (missing rfl).elim⟩
  unfold State.clear
  cases data : buffer.data with
  | none =>
      refine ⟨state.memory, by simp [found, data], settles ?_, fun bounded => bounded⟩
      rw [data]
      exact .nothing sound.recorded
  | some pointer =>
      obtain ⟨block, held, origin, length⟩ := owns.held pointer data
      refine ⟨state.memory.deallocate allocator pointer buffer.size.toNat,
        by simp [found, data, owns.allocatorOf found], settles ?_, Memory.inBounds_deallocate⟩
      rw [data, ← origin, ← length]
      exact .release sound.recorded held

theorem settles_vanish (sound : state.Sound) (found : state.buffers this = some buffer)
    (bare : buffer.data = none) : state.Settles (state.put state.memory this none) this none := by
  obtain ⟨allocator, _⟩ := sound.owns found
  refine ⟨rfl, allocator, 0, ?_, fun _ missing => by cases missing⟩
  rw [State.dataOf_eq found, bare]
  exact .nothing sound.recorded

/-- `m_size` says that the buffer has no storage, but it holds a block of no bytes. -/
def State.holdsEmptyBlock (state : State Object Ptr Alloc) (this : Object) : Bool :=
  (state.buffers this).any fun buffer => buffer.size == 0 && buffer.data.isSome

omit [DecidableEq Object] [DecidableEq Ptr] [DecidableEq Alloc] in
theorem holdsEmptyBlock_iff : state.holdsEmptyBlock this = true ↔ ∃ buffer pointer,
    state.buffers this = some buffer ∧ buffer.size = 0 ∧ buffer.data = some pointer := by
  cases found : state.buffers this with
  | none => simp [State.holdsEmptyBlock, found]
  | some buffer => simp [State.holdsEmptyBlock, found, Option.isSome_iff_exists]

theorem State.Sound.reserve {size : UInt64} (sound : state.Sound)
    (moved : state.reserve this size fresh = some next) :
    ∃ buffer, state.buffers this = some buffer ∧
      ((size ≤ buffer.size - buffer.cursor ∧ next = state) ∨
        (¬ size ≤ buffer.size - buffer.cursor ∧ ∃ after, state.Settles next this after)) := by
  obtain ⟨buffer, found, rest⟩ := Option.bind_eq_some_iff.mp moved
  refine ⟨buffer, found, ?_⟩
  split at rest
  · rename_i enough
    cases rest
    exact .inl ⟨enough, rfl⟩
  · rename_i large
    obtain ⟨allocator, owns⟩ := sound.owns found
    simp only [owns.allocatorOf found, Option.bind_eq_bind, Option.bind_some] at rest
    obtain ⟨memory, allocated, same⟩ := Option.bind_eq_some_iff.mp rest
    cases same
    have taken := Memory.Exchanges.allocate sound.recorded allocated
    refine .inr ⟨large, _, rfl, allocator, (buffer.cursor + size).toNat, ?_, ?_⟩
    · rw [State.dataOf_eq found]
      cases data : buffer.data with
      | none => exact taken
      | some pointer =>
          obtain ⟨block, held, rfl, length⟩ := owns.held pointer data
          obtain ⟨free, blocks, _⟩ := Memory.allocate_eq_some.mp allocated
          have different : pointer ≠ fresh.pointer := by
            intro same
            rw [same, free] at held
            cases held
          have kept : memory.blocks pointer = some block := by
            rw [blocks, Function.update_of_ne different, held]
          have copied := taken.copy 0 fun _ : 0 < buffer.cursor.toNat =>
            ⟨pointer, block, (rfl : some pointer = some pointer), kept⟩
          rw [← length]
          refine copied.deallocate held ?_
          rw [Memory.copy_blocks, Function.update_of_ne different, kept]
    · intro after same
      cases same
      exact ⟨owns.denotes, (fun missing => by cases missing), fun _ => rfl⟩

omit [DecidableEq Object] [DecidableEq Alloc] in
theorem tryAdvance_le {count size : UInt64} {advanced : Buffer Object Ptr Alloc}
    (advance : state.tryAdvance buffer count fresh = some (memory, advanced, size)) :
    size ≤ count := by
  unfold State.tryAdvance at advance
  split at advance
  · obtain ⟨allocator, _, rest⟩ := Option.bind_eq_some_iff.mp advance
    obtain ⟨taken, _, same⟩ := Option.bind_eq_some_iff.mp rest
    cases same
    exact UInt64.le_refl _
  · cases advance
    change (if count ≤ buffer.size - buffer.cursor then count
      else buffer.size - buffer.cursor) ≤ count
    split
    · exact UInt64.le_refl _
    · rename_i more
      exact UInt64.le_of_lt (UInt64.not_le.mp more)

omit [DecidableEq Object] in
/-- `try_advance` leaves the buffer with a block to write to.  It forgets the
block of no bytes that a buffer of size 0 may hold. -/
theorem State.Sound.tryAdvance {count size : UInt64} {advanced : Buffer Object Ptr Alloc}
    (sound : state.Sound) (found : state.buffers this = some buffer)
    (advance : state.tryAdvance buffer count fresh = some (memory, advanced, size)) :
    ∃ pointer allocator old, advanced.data = some pointer ∧ advanced.Denotes this allocator ∧
      old = (if state.holdsEmptyBlock this then none else buffer.data) ∧
      state.memory.Exchanges memory old (some pointer) allocator advanced.size.toNat ∧
      ∀ other block, state.memory.blocks other = some block →
        memory.blocks other = some block := by
  obtain ⟨allocator, owns⟩ := sound.owns found
  unfold State.tryAdvance at advance
  split at advance
  · rename_i noSize
    simp only [owns.allocatorOf found, Option.bind_eq_bind, Option.bind_some] at advance
    obtain ⟨taken, allocated, same⟩ := Option.bind_eq_some_iff.mp advance
    cases same
    refine ⟨fresh.pointer, allocator, none, rfl, owns.denotes, ?_,
      .allocate sound.recorded allocated, ?_⟩
    · cases data : buffer.data <;> simp [State.holdsEmptyBlock, found, noSize, data]
    · intro other block held
      obtain ⟨free, blocks, _⟩ := Memory.allocate_eq_some.mp allocated
      rw [blocks, Function.update_of_ne, held]
      rintro rfl
      rw [free] at held
      cases held
  · rename_i sized
    cases advance
    cases data : buffer.data with
    | none => exact (sized (owns.bare data).1).elim
    | some pointer =>
        obtain ⟨block, held, origin, length⟩ := owns.held pointer data
        refine ⟨pointer, allocator, some pointer, rfl, owns.denotes, ?_, ?_,
          fun _ _ same => same⟩
        · simp [State.holdsEmptyBlock, found, sized]
        · have kept := Memory.Exchanges.keep sound.recorded held
          rwa [origin, length] at kept

theorem State.Sound.rewrites_advanced {count size answer : UInt64}
    {advanced : Buffer Object Ptr Alloc} {filled : Memory Ptr Alloc} (sound : state.Sound)
    (found : state.buffers this = some buffer)
    (advance : state.tryAdvance buffer count fresh = some (memory, advanced, size))
    (fills : ∀ pointer old allocator size, advanced.data = some pointer →
      state.memory.Exchanges memory old (some pointer) allocator size →
        state.memory.Exchanges filled old (some pointer) allocator size) :
    state.Rewrites { state.put filled this (some advanced) with answer } this
      (if state.holdsEmptyBlock this then none else state.dataOf this) (some advanced) := by
  obtain ⟨pointer, allocator, old, data, denotes, same, exchanges, _⟩ :=
    sound.tryAdvance found advance
  refine ⟨rfl, allocator, advanced.size.toNat, ?_, ?_⟩
  · rw [State.dataOf_eq found, ← same, Option.bind_some, data]
    exact fills pointer old allocator _ data exchanges
  · intro after same
    cases same
    exact ⟨denotes, fun missing => by simp [data] at missing, fun _ => rfl⟩

theorem State.Sound.push {bytes : Span} (sound : state.Sound)
    (moved : state.push this bytes fresh = some next) :
    ∃ after, state.Rewrites next this
      (if state.holdsEmptyBlock this then none else state.dataOf this) after := by
  obtain ⟨buffer, found, rest⟩ := Option.bind_eq_some_iff.mp moved
  obtain ⟨⟨memory, advanced, size⟩, advance, same⟩ := Option.bind_eq_some_iff.mp rest
  cases same
  refine ⟨_, sound.rewrites_advanced found advance ?_⟩
  intro pointer old allocator length data exchanges
  rw [data]
  exact exchanges.write buffer.cursor.toNat (bytes.bytes.take size.toNat)

theorem State.Sound.pushBuffer (sound : state.Sound)
    (moved : state.pushBuffer this that fresh = some next) :
    ∃ after, state.Rewrites next this
      (if state.holdsEmptyBlock this then none else state.dataOf this) after := by
  obtain ⟨buffer, found, rest⟩ := Option.bind_eq_some_iff.mp moved
  obtain ⟨source, foundSource, rest⟩ := Option.bind_eq_some_iff.mp rest
  obtain ⟨⟨memory, advanced, size⟩, advance, same⟩ := Option.bind_eq_some_iff.mp rest
  cases same
  refine ⟨_, sound.rewrites_advanced found advance ?_⟩
  intro pointer old allocator length data exchanges
  rw [data]
  refine exchanges.copy buffer.cursor.toNat fun positive => ?_
  obtain ⟨_, _, _, _, _, _, _, live⟩ := sound.tryAdvance found advance
  obtain ⟨_, owns⟩ := sound.owns foundSource
  cases place : source.data with
  | none =>
      have nothing := tryAdvance_le advance
      rw [(owns.bare place).2] at nothing
      have zero : size.toNat ≤ 0 := nothing
      omega
  | some pointer =>
      obtain ⟨block, held, _⟩ := owns.held pointer place
      exact ⟨pointer, block, rfl, live pointer block held⟩

theorem State.Sound.destroy_eq (sound : state.Sound) (found : state.buffers this = some buffer) :
    ∃ cleared, state.Settles cleared this (some buffer.emptied) ∧
      cleared.Settles (cleared.put cleared.memory this none) this none ∧
        state.destroy this = some (cleared.put cleared.memory this none) := by
  obtain ⟨memory, cleared, settles, _⟩ := sound.clear_eq found
  refine ⟨_, settles, ?_, ?_⟩
  · have emptied : (state.put memory this (some buffer.emptied)).buffers this =
        some buffer.emptied := Function.update_self _ _ _
    exact settles_vanish (settles.sound sound (.inr rfl)) emptied rfl
  · unfold State.destroy
    rw [cleared]
    rfl

/-! ## Moves -/

omit [DecidableEq Ptr] in
theorem Denotes.moved (denotes : buffer.Denotes rhs allocator) (this : Object) :
    (buffer.moved this rhs).Denotes this allocator := by
  cases denotes with
  | inl elsewhere =>
      have kept : (buffer.moved this rhs).allocator = .elsewhere allocator := by
        simp [Buffer.moved, elsewhere]
      exact .inl kept
  | inr stored =>
      have own : (buffer.moved this rhs).allocator = .storage this := by
        simp [Buffer.moved, stored.1, stored.2]
      exact .inr ⟨own, stored.2⟩

theorem transfer_eq (found : state.buffers rhs = some buffer) :
    state.transfer this rhs = some
      ((state.put state.memory this (some (buffer.moved this rhs))).put state.memory rhs
        (some buffer.emptied)) := by
  simp [State.transfer, State.clear, State.put, found, Buffer.emptied]

/-- The result of a move onto an object without a block. -/
structure State.Transfers (state next : State Object Ptr Alloc) (this rhs : Object)
    (buffer : Buffer Object Ptr Alloc) : Prop where
  different : this ≠ rhs
  found : state.buffers rhs = some buffer
  bare : state.dataOf this = none
  memory : next.memory = state.memory
  buffers : next.buffers =
    Function.update (Function.update state.buffers this (some (buffer.moved this rhs))) rhs
      (some buffer.emptied)

namespace State.Transfers

omit [DecidableEq Ptr] in
theorem buffers_of (transfers : state.Transfers next this rhs buffer) {object : Object}
    {other : Buffer Object Ptr Alloc} (found : next.buffers object = some other) :
    (object = rhs ∧ other = buffer.emptied) ∨
      (object ≠ rhs ∧ object = this ∧ other = buffer.moved this rhs) ∨
      (object ≠ rhs ∧ object ≠ this ∧ state.buffers object = some other) := by
  rw [transfers.buffers] at found
  by_cases isRhs : object = rhs
  · subst isRhs
    rw [Function.update_self] at found
    exact .inl ⟨rfl, (Option.some.inj found).symm⟩
  · rw [Function.update_of_ne isRhs] at found
    by_cases isThis : object = this
    · subst isThis
      rw [Function.update_self] at found
      exact .inr (.inl ⟨isRhs, rfl, (Option.some.inj found).symm⟩)
    · rw [Function.update_of_ne isThis] at found
      exact .inr (.inr ⟨isRhs, isThis, found⟩)

theorem sound (transfers : state.Transfers next this rhs buffer) (sound : state.Sound) :
    next.Sound where
  recorded := by
    rw [transfers.memory]
    exact sound.recorded
  owns := by
    intro object other found
    rw [transfers.memory]
    rcases transfers.buffers_of found with ⟨rfl, rfl⟩ | ⟨_, rfl, rfl⟩ | ⟨_, _, found⟩
    · obtain ⟨allocator, owns⟩ := sound.owns transfers.found
      exact ⟨allocator, owns.emptied _⟩
    · obtain ⟨allocator, owns⟩ := sound.owns transfers.found
      exact ⟨allocator, owns.denotes.moved object, owns.bare, owns.held⟩
    · exact sound.owns found
  apart := by
    intro first second one two pointer foundFirst foundSecond data dataOther
    rcases transfers.buffers_of foundFirst with
      ⟨rfl, rfl⟩ | ⟨_, rfl, rfl⟩ | ⟨notRhsFirst, _, ownFirst⟩
    · cases data
    · rcases transfers.buffers_of foundSecond with
        ⟨rfl, rfl⟩ | ⟨_, rfl, rfl⟩ | ⟨notRhs, _, own⟩
      · cases dataOther
      · rfl
      · exact (notRhs (sound.apart own transfers.found dataOther data)).elim
    · rcases transfers.buffers_of foundSecond with
        ⟨rfl, rfl⟩ | ⟨_, rfl, rfl⟩ | ⟨_, _, own⟩
      · cases dataOther
      · exact (notRhsFirst (sound.apart ownFirst transfers.found data dataOther)).elim
      · exact sound.apart ownFirst own data dataOther

omit [DecidableEq Ptr] in
theorem dataOf (transfers : state.Transfers next this rhs buffer) (object : Object) :
    next.dataOf object = if object = rhs then none
      else if object = this then buffer.data else state.dataOf object := by
  unfold State.dataOf
  rw [transfers.buffers, Function.update_apply, Function.update_apply]
  split
  · rfl
  · split <;> rfl

omit [DecidableEq Ptr] in
theorem orphan_iff (transfers : state.Transfers next this rhs buffer) (pointer : Ptr) :
    next.Orphan pointer ↔ state.Orphan pointer := by
  unfold State.Orphan
  rw [transfers.memory]
  refine and_congr_right fun _ => ⟨fun apart object => ?_, fun apart object => ?_⟩
  · by_cases isRhs : object = rhs
    · have own := apart this
      rw [transfers.dataOf, if_neg transfers.different, if_pos rfl] at own
      rwa [isRhs, State.dataOf_eq transfers.found]
    · by_cases isThis : object = this
      · rw [isThis, transfers.bare]
        simp
      · have own := apart object
        rwa [transfers.dataOf, if_neg isRhs, if_neg isThis] at own
  · rw [transfers.dataOf]
    split
    · simp
    · split
      · rw [← State.dataOf_eq transfers.found]
        exact apart rhs
      · exact apart object

end State.Transfers

/-! ## Every step -/

/-- Ownership is kept, and no block is lost or found. -/
structure State.Conserves (state next : State Object Ptr Alloc) : Prop where
  sound : next.Sound
  orphans : ∀ pointer, next.Orphan pointer ↔ state.Orphan pointer

theorem State.Settles.conserves {after : Option (Buffer Object Ptr Alloc)}
    (settles : state.Settles next this after) (sound : state.Sound) : state.Conserves next :=
  ⟨settles.sound sound (.inr rfl), settles.orphan_iff⟩

omit [DecidableEq Object] in
theorem State.Conserves.trans {last : State Object Ptr Alloc} (first : state.Conserves next)
    (second : next.Conserves last) : state.Conserves last :=
  ⟨second.sound, fun pointer => (second.orphans pointer).trans (first.orphans pointer)⟩

theorem transfers_of_moved (different : this ≠ rhs)
    (bare : state.dataOf this = none) (moved : state.transfer this rhs = some next) :
    ∃ buffer, state.Transfers next this rhs buffer := by
  obtain ⟨buffer, found, _⟩ := Option.bind_eq_some_iff.mp moved
  rw [transfer_eq found] at moved
  cases moved
  exact ⟨buffer, different, found, bare, rfl, rfl⟩

/-- No buffer that holds a block of no bytes is pushed to. -/
def KeepsBlock (state : State Object Ptr Alloc) : Label Object Ptr Alloc → Prop
  | .push this _ _ | .pushBuffer this _ _ => state.holdsEmptyBlock this = false
  | _ => True

instance : DecidableRel (KeepsBlock : State Object Ptr Alloc → Label Object Ptr Alloc → Prop) :=
  fun state label =>
    match label with
    | .push this _ _ | .pushBuffer this _ _ =>
        inferInstanceAs (Decidable (state.holdsEmptyBlock this = false))
    | .construct .. | .constructSize .. | .constructString .. | .moveConstruct ..
    | .moveAssign .. | .reserve .. | .clear .. | .destroy .. => isTrue trivial

theorem State.Sound.clear_conserves (sound : state.Sound)
    (moved : state.clear this = some next) :
    state.Conserves next ∧ next.dataOf this = none ∧
      ∀ object, object ≠ this → next.buffers object = state.buffers object := by
  obtain ⟨buffer, found, _⟩ := Option.bind_eq_some_iff.mp moved
  obtain ⟨memory, cleared, settles, _⟩ := sound.clear_eq found
  rw [cleared] at moved
  cases moved
  refine ⟨settles.conserves sound, ?_, fun object different =>
    Function.update_of_ne different _ _⟩
  rw [settles.dataOf, if_pos rfl]
  rfl

theorem State.Sound.transfer_conserves (sound : state.Sound) (different : this ≠ rhs)
    (bare : state.dataOf this = none) (moved : state.transfer this rhs = some next) :
    state.Conserves next := by
  obtain ⟨buffer, transfers⟩ := transfers_of_moved different bare moved
  exact ⟨transfers.sound sound, transfers.orphan_iff⟩

theorem State.Sound.moveConstruct_conserves (sound : state.Sound)
    (moved : state.moveConstruct this rhs = some next) : state.Conserves next := by
  unfold State.moveConstruct at moved
  split at moved
  · cases moved
  · rename_i absent
    have unbuilt : state.buffers this = none := by simpa using absent
    obtain ⟨buffer, found, _⟩ := Option.bind_eq_some_iff.mp moved
    have different : this ≠ rhs := by
      rintro rfl
      rw [unbuilt] at found
      cases found
    exact sound.transfer_conserves different (State.dataOf_eq_none unbuilt) moved

theorem State.Sound.moveAssign_conserves (sound : state.Sound)
    (moved : state.moveAssign this rhs = some next) : state.Conserves next := by
  unfold State.moveAssign at moved
  split at moved
  · cases moved
  · split at moved
    · cases moved
      exact ⟨sound, fun _ => Iff.rfl⟩
    · rename_i different
      obtain ⟨cleared, clearing, transferring⟩ := Option.bind_eq_some_iff.mp moved
      obtain ⟨conserved, bare, _⟩ := sound.clear_conserves clearing
      exact conserved.trans (conserved.sound.transfer_conserves different bare transferring)

theorem State.Sound.destroy_conserves (sound : state.Sound)
    (moved : state.destroy this = some next) : state.Conserves next := by
  obtain ⟨cleared, clearing, _⟩ := Option.bind_eq_some_iff.mp moved
  obtain ⟨buffer, found, _⟩ := Option.bind_eq_some_iff.mp clearing
  obtain ⟨middle, settles, vanishes, destroyed⟩ := sound.destroy_eq found
  rw [destroyed] at moved
  cases moved
  have conserved := settles.conserves sound
  exact conserved.trans (vanishes.conserves conserved.sound)

/-- One step that keeps its block loses none. -/
theorem State.Sound.conserves {label : Label Object Ptr Alloc} (sound : state.Sound)
    (keeps : KeepsBlock state label) (moved : state.move label = some next) :
    state.Conserves next := by
  cases label with
  | construct this argument =>
      obtain ⟨_, settles⟩ := sound.construct moved
      exact settles.conserves sound
  | constructSize this size argument fresh =>
      obtain ⟨_, settles⟩ := sound.constructSize moved
      exact settles.conserves sound
  | constructString this string argument fresh =>
      obtain ⟨_, settles⟩ := sound.constructString moved
      exact settles.conserves sound
  | moveConstruct this rhs => exact sound.moveConstruct_conserves moved
  | moveAssign this rhs => exact sound.moveAssign_conserves moved
  | reserve this size fresh =>
      obtain ⟨_, _, ⟨_, rfl⟩ | ⟨_, _, settles⟩⟩ := sound.reserve moved
      · exact ⟨sound, fun _ => Iff.rfl⟩
      · exact settles.conserves sound
  | push this bytes fresh =>
      obtain ⟨_, rewrites⟩ := sound.push moved
      have kept : state.holdsEmptyBlock this = false := keeps
      rw [if_neg (by rw [kept]; exact Bool.false_ne_true)] at rewrites
      exact State.Settles.conserves rewrites sound
  | pushBuffer this other fresh =>
      obtain ⟨_, rewrites⟩ := sound.pushBuffer moved
      have kept : state.holdsEmptyBlock this = false := keeps
      rw [if_neg (by rw [kept]; exact Bool.false_ne_true)] at rewrites
      exact State.Settles.conserves rewrites sound
  | clear this => exact (sound.clear_conserves moved).1
  | destroy this => exact sound.destroy_conserves moved

/-- A push that gives nothing back orphans the block of the buffer. -/
theorem State.Rewrites.orphan {after : Option (Buffer Object Ptr Alloc)} {pointer : Ptr}
    (rewrites : state.Rewrites next this none after)
    (live : (state.memory.blocks pointer).isSome)
    (others : ∀ object, object ≠ this → state.dataOf object ≠ some pointer) :
    next.Orphan pointer := by
  obtain ⟨allocator, size, exchanges, _⟩ := rewrites.exchanges
  have notNew : after.bind Buffer.data ≠ some pointer := by
    intro new
    cases exchanges.origin pointer new with
    | inl missing => cases missing
    | inr free => simp [free] at live
  refine ⟨by rw [exchanges.others pointer (by simp) notNew]; exact live, fun object => ?_⟩
  rw [rewrites.dataOf]
  split
  · exact notNew
  · rename_i different
    exact others object different

/-- A step that does not keep its block orphans it, and finds none again. -/
theorem State.Sound.orphans {label : Label Object Ptr Alloc} (sound : state.Sound)
    (drops : ¬ KeepsBlock state label) (moved : state.move label = some next) :
    next.Sound ∧ ∃ pointer, next.Orphan pointer := by
  have dropped {this : Object} (holds : state.holdsEmptyBlock this = true)
      (rewritten : ∃ after, state.Rewrites next this
        (if state.holdsEmptyBlock this then none else state.dataOf this) after) :
      next.Sound ∧ ∃ pointer, next.Orphan pointer := by
    obtain ⟨after, rewrites⟩ := rewritten
    rw [if_pos holds] at rewrites
    obtain ⟨buffer, pointer, found, _, data⟩ := holdsEmptyBlock_iff.mp holds
    obtain ⟨_, owns⟩ := sound.owns found
    obtain ⟨block, held, _⟩ := owns.held pointer data
    refine ⟨rewrites.sound sound (.inl rfl), pointer, rewrites.orphan (by simp [held]) ?_⟩
    intro object different taken
    obtain ⟨other, foundOther, dataOther⟩ := Option.bind_eq_some_iff.mp taken
    exact different (sound.apart foundOther found dataOther data)
  cases label with
  | push this bytes fresh => exact dropped (by simpa [KeepsBlock] using drops) (sound.push moved)
  | pushBuffer this other fresh =>
      exact dropped (by simpa [KeepsBlock] using drops) (sound.pushBuffer moved)
  | construct | constructSize | constructString | moveConstruct | moveAssign | reserve | clear
  | destroy => exact (drops trivial).elim

theorem State.Sound.step {label : Label Object Ptr Alloc} (sound : state.Sound)
    (moved : state.move label = some next) : next.Sound := by
  by_cases keeps : KeepsBlock state label
  · exact (sound.conserves keeps moved).sound
  · exact (sound.orphans keeps moved).1

/-- A run loses no block exactly when each of its steps keeps its block. -/
theorem State.Sound.exec (sound : state.Sound) {labels : List (Label Object Ptr Alloc)}
    {last : State Object Ptr Alloc}
    (executed : (machine Object Ptr Alloc).exec Machine.free state labels = some last) :
    last.Sound ∧ ((∀ pointer, ¬ last.Orphan pointer) ↔ (∀ pointer, ¬ state.Orphan pointer) ∧
      (machine Object Ptr Alloc).exec KeepsBlock state labels = some last) := by
  induction labels generalizing state with
  | nil =>
      cases executed
      exact ⟨sound, ⟨fun none => ⟨none, rfl⟩, fun both => both.1⟩⟩
  | cons label rest ih =>
      obtain ⟨_, next, moved, executed⟩ := Machine.exec_cons_eq_some.mp executed
      by_cases keeps : KeepsBlock state label
      · have conserved := sound.conserves keeps moved
        obtain ⟨soundLast, lossless⟩ := ih conserved.sound executed
        refine ⟨soundLast, lossless.trans ?_⟩
        rw [Machine.exec_cons keeps moved]
        exact and_congr_left' (forall_congr' fun pointer => not_congr (conserved.orphans pointer))
      · obtain ⟨soundNext, pointer, orphan⟩ := sound.orphans keeps moved
        obtain ⟨soundLast, lossless⟩ := ih soundNext executed
        refine ⟨soundLast, fun none => ((lossless.mp none).1 pointer orphan).elim, fun both => ?_⟩
        exact absurd (Machine.exec_cons_eq_some.mp both.2).1 keeps

omit [DecidableEq Object] in
theorem sound_initial : (State.initial : State Object Ptr Alloc).Sound where
  recorded := Memory.recorded_empty
  owns found := by cases found
  apart found := by cases found

/-- No run gives a block back twice, to the wrong allocator or with the wrong
size, or touches a block that is not in use.  When all buffers are destroyed,
every block has gone back exactly if no step pushed to a buffer of capacity 0
that still held a block. -/
theorem allReturned_iff_keepsBlock {labels : List (Label Object Ptr Alloc)}
    {last : State Object Ptr Alloc}
    (executed : (machine Object Ptr Alloc).exec Machine.free .initial labels = some last) :
    last.memory.NeverMisused ∧ (last.AllDestroyed → (last.memory.AllReturned ↔
      (machine Object Ptr Alloc).exec KeepsBlock .initial labels = some last)) := by
  obtain ⟨sound, lossless⟩ := sound_initial.exec executed
  have nothing (pointer : Ptr) : ¬ (State.initial : State Object Ptr Alloc).Orphan pointer :=
    fun orphan => by cases orphan.1
  refine ⟨sound.recorded.neverMisused, fun destroyed => ?_⟩
  have live (pointer : Ptr) : last.Orphan pointer ↔ last.memory.blocks pointer ≠ none := by
    have bare (object : Object) : last.dataOf object ≠ some pointer := by
      rw [State.dataOf_eq_none (destroyed object)]
      simp
    simp only [State.Orphan, Option.isSome_iff_ne_none]
    exact ⟨fun orphan => orphan.1, fun used => ⟨used, bare⟩⟩
  have orphanless : last.memory.AllReturned ↔ ∀ pointer, ¬ last.Orphan pointer := by
    rw [sound.recorded.allReturned_iff]
    exact forall_congr' fun pointer => by rw [live, not_not]
  rw [orphanless, lossless]
  exact ⟨fun both => both.2, fun kept => ⟨nothing, kept⟩⟩

/-- A buffer is built empty, pushed to and destroyed. -/
theorem allReturned_iff_keepsBlock_once : ∃ last : State Unit ℕ Unit,
    (machine Unit ℕ Unit).exec Machine.free .initial
      [.construct () (.reference ()), .push () ⟨[7], by decide⟩ ⟨0, fun _ => 0⟩, .destroy ()] =
        some last ∧
    last.memory.NeverMisused ∧ (last.AllDestroyed → (last.memory.AllReturned ↔
      (machine Unit ℕ Unit).exec KeepsBlock .initial
        [.construct () (.reference ()), .push () ⟨[7], by decide⟩ ⟨0, fun _ => 0⟩, .destroy ()] =
          some last)) :=
  ⟨_, rfl, allReturned_iff_keepsBlock rfl⟩

/-- An empty buffer is pushed nothing twice: the first block of no bytes never
goes back. -/
theorem empty_block_lost : ¬ ∀ (labels : List (Label Unit ℕ Unit)) (last : State Unit ℕ Unit),
    (machine Unit ℕ Unit).exec Machine.free .initial labels = some last →
      last.AllDestroyed → last.memory.AllReturned := by
  intro returned
  have lost := returned
    [.construct () (.reference ()), .push () ⟨[], by decide⟩ ⟨0, fun _ => 0⟩,
      .push () ⟨[], by decide⟩ ⟨1, fun _ => 0⟩, .destroy ()] _ rfl (fun _ => rfl) 0
  exact absurd lost (by decide)

end Asco.Io.Buffer
