import Asco.Concurrency.RingQueue.Sequential

namespace Asco.Concurrency.RingQueue

open Foundation

/-! # No value is lost or received twice -/

variable {α : Type*} {Cap : ℕ}

/-- The value a slot owes to a receiver. -/
def owed : SlotState → Option α → Multiset α
  | .filled, some value | .deconstructing, some value => {value}
  | _, _ => 0

def contents (storage : Storage α Cap) : Multiset α :=
  ∑ index, owed (storage.states index) (storage.slots index)

variable {storage next : Storage α Cap} {pc : Pc α Cap} {finish : Progress α Cap}

theorem contents_create : contents (Storage.create α Cap) = 0 :=
  Finset.sum_eq_zero fun _ _ => rfl

/-- The contents change by what the one slot that changes owes. -/
theorem contents_touch (slot : Fin (Cap + 1))
    (same : ∀ index, index ≠ slot →
      next.states index = storage.states index ∧ next.slots index = storage.slots index) :
    contents next + owed (storage.states slot) (storage.slots slot) =
      contents storage + owed (next.states slot) (next.slots slot) := by
  have others : ∀ index ∈ Finset.univ.erase slot,
      owed (next.states index) (next.slots index) =
        owed (storage.states index) (storage.slots index) := by
    intro index member
    obtain ⟨state, value⟩ := same index (Finset.ne_of_mem_erase member)
    rw [state, value]
  have before := Finset.add_sum_erase Finset.univ
    (fun index => owed (storage.states index) (storage.slots index)) (Finset.mem_univ slot)
  have after := Finset.add_sum_erase Finset.univ
    (fun index => owed (next.states index) (next.slots index)) (Finset.mem_univ slot)
  rw [Finset.sum_congr rfl others] at after
  simp only [contents, ← before, ← after]
  abel

theorem contents_setState (storage : Storage α Cap) (slot : Fin (Cap + 1)) (state : SlotState) :
    contents (storage.setState slot state) + owed (storage.states slot) (storage.slots slot) =
      contents storage + owed state (storage.slots slot) := by
  have same : ∀ index, index ≠ slot →
      (storage.setState slot state).states index = storage.states index ∧
        (storage.setState slot state).slots index = storage.slots index :=
    fun _ other => ⟨(agree_setState other).1, rfl⟩
  have touched := contents_touch slot same
  rwa [setState_states] at touched

theorem contents_setSlot (storage : Storage α Cap) (slot : Fin (Cap + 1)) (value : Option α)
    (state : SlotState) :
    contents ((storage.setSlot slot value).setState slot state) +
        owed (storage.states slot) (storage.slots slot) = contents storage + owed state value := by
  have same : ∀ index, index ≠ slot →
      ((storage.setSlot slot value).setState slot state).states index = storage.states index ∧
        ((storage.setSlot slot value).setState slot state).slots index = storage.slots index :=
    fun _ other => ⟨(agree_setSlot other).1, (agree_setSlot other).2.1⟩
  have written : ((storage.setSlot slot value).setState slot state).slots slot = value :=
    Function.update_self ..
  have touched := contents_touch slot same
  rwa [setState_states, written] at touched

/-- In a quiet queue the contents are the values from `head` to `tail`. -/
theorem contents_quiet (quiet : Quiet storage) :
    contents storage = (values storage : Multiset α) := by
  have outside : ∀ index ∈ Finset.univ, index ∉ (segment storage.head storage.tail).toFinset →
      owed (storage.states index) (storage.slots index) = 0 := by
    intro index _ missing
    rw [List.mem_toFinset, mem_segment] at missing
    rcases quiet index with ⟨empty, _⟩ | ⟨_, within, _⟩
    · rw [empty]
      rfl
    · exact absurd within missing
  have inside : ∀ index ∈ (segment storage.head storage.tail).toFinset,
      owed (storage.states index) (storage.slots index) = owed .filled (storage.slots index) := by
    intro index member
    rw [List.mem_toFinset, mem_segment] at member
    rcases quiet index with ⟨_, without⟩ | ⟨filled, _⟩
    · exact absurd member without
    · rw [filled]
  have collected : ∀ indices : List (Fin (Cap + 1)),
      (indices.map fun index => owed .filled (storage.slots index)).sum =
        (indices.filterMap storage.slots : Multiset α) := by
    intro indices
    induction indices with
    | nil => rfl
    | cons index rest ih =>
        rw [List.map_cons, List.sum_cons, ih, List.filterMap_cons]
        cases storage.slots index with
        | none => exact zero_add _
        | some value => exact Multiset.singleton_add value _
  calc contents storage
      = ∑ index ∈ (segment storage.head storage.tail).toFinset,
          owed (storage.states index) (storage.slots index) :=
        (Finset.sum_subset (Finset.subset_univ _) outside).symm
    _ = ∑ index ∈ (segment storage.head storage.tail).toFinset,
          owed .filled (storage.slots index) := Finset.sum_congr rfl inside
    _ = ((segment storage.head storage.tail).map
          fun index => owed .filled (storage.slots index)).sum :=
        List.sum_toFinset _ segment_nodup
    _ = values storage := collected _

/-- What a step adds to the values sent and received. -/
def Progress.sent : Progress α Cap → Multiset α
  | .done (.sent value) => {value}
  | _ => 0

def Progress.received : Progress α Cap → Multiset α
  | .done (.received value) => {value}
  | _ => 0

theorem owed_deconstructing (value : Option α) :
    owed .deconstructing value = owed .filled value := by
  cases value <;> rfl

theorem Effect.contents (standing : Standing storage pc) (effect : Effect storage pc next finish) :
    RingQueue.contents next + finish.received = RingQueue.contents storage + finish.sent := by
  cases effect with
  | goesOn | refuses | givesUp | misses | waits => simp [Progress.sent, Progress.received]
  | enqueues | dequeues => rfl
  | @claims value tail at_ empty =>
      have touched := contents_setState storage tail .constructing
      simpa [owed, empty, Progress.sent, Progress.received] using touched
  | @releases value tail at_ =>
      subst at_
      have touched := contents_setState storage tail .empty
      simpa [owed, standing.1, Progress.sent, Progress.received] using touched
  | @publishes value tail at_ =>
      subst at_
      have touched := contents_setSlot storage tail (some value) .filled
      simpa [owed, standing.1, Progress.sent, Progress.received] using touched
  | @takes head tail at_ filled =>
      have touched := contents_setState storage head .deconstructing
      rw [filled, owed_deconstructing, add_right_cancel_iff] at touched
      simpa [Progress.sent, Progress.received] using touched
  | @movesOut head value at_ present =>
      subst at_
      have touched := contents_setSlot storage head none .empty
      rw [standing.1, present] at touched
      exact touched

/-! ## Runs in which no fullness test is stale -/

section

variable {Thread : Type*} [DecidableEq Thread]
  {pool : Pool Thread (Queue α Cap) (Option (Pc α Cap))}

/-- A sender claims a slot only while the queue, as it is then, has room behind it. -/
def roomAtClaim (storage : Storage α Cap) : Option (Pc α Cap) → Bool
  | some (.sendClaim _ tail) => storage.states tail != .empty || tail + 1 != storage.head
  | _ => true

/-- No element throws. -/
def NoThrow (_ : Pool Thread (Queue α Cap) (Option (Pc α Cap))) (label : Thread × Label α) : Prop :=
  label.2.throws = false

instance : DecidableRel (@NoThrow α Cap Thread) := fun _ _ => inferInstanceAs (Decidable (_ = _))

def RoomAtClaim (pool : Pool Thread (Queue α Cap) (Option (Pc α Cap)))
    (label : Thread × Label α) : Prop :=
  NoThrow pool label ∧ roomAtClaim pool.shared.storage (pool.locals label.1)

instance : DecidableRel (@RoomAtClaim α Cap Thread) :=
  fun _ _ => inferInstanceAs (Decidable (_ ∧ _))

structure Invariant (pool : Pool Thread (Queue α Cap) (Option (Pc α Cap))) : Prop where
  owned : Owned pool.shared.storage pool.locals
  room : ∀ thread value tail, pool.locals thread = some (.sendAdvance value tail) →
    tail + 1 ≠ pool.shared.storage.head
  conserved : (pool.shared.sent : Multiset α) =
    (pool.shared.received : Multiset α) + contents pool.shared.storage

theorem coe_append_singleton (values : List α) (value : α) :
    ((values ++ [value] : List α) : Multiset α) = values + {value} :=
  (Multiset.coe_add values [value]).symm

theorem finish_eq (queue : Queue α Cap) (finish : Progress α Cap) :
    (queue.finish finish).2 = finish.pc ∧ (queue.finish finish).1.storage = queue.storage ∧
      ((queue.finish finish).1.sent : Multiset α) = queue.sent + finish.sent ∧
      ((queue.finish finish).1.received : Multiset α) = queue.received + finish.received := by
  cases finish with
  | running pc => simp [Queue.finish, Progress.pc, Progress.sent, Progress.received]
  | done outcome =>
      cases outcome <;>
        simp [Queue.finish, Progress.pc, Progress.sent, Progress.received, coe_append_singleton]

theorem Effect.head_cases (effect : Effect storage pc next finish) :
    next.head = storage.head ∨
      pc = .recvAdvance storage.head ∧ next.head = storage.head + 1 := by
  cases effect with
  | dequeues at_ current =>
      subst current
      exact .inr ⟨at_, rfl⟩
  | _ => exact .inl rfl

/-- A call comes to hold a slot for sending by claiming it. -/
theorem Effect.claim_of_advance {value : α} {tail : Fin (Cap + 1)}
    (effect : Effect storage pc next finish)
    (advances : finish.pc = some (.sendAdvance value tail)) :
    pc = .sendClaim value tail ∧ storage.states tail = .empty ∧ next.head = storage.head := by
  cases effect with
  | goesOn free freeNext =>
      cases advances
      simp [holds] at freeNext
  | claims at_ empty =>
      cases advances
      exact ⟨at_, empty, rfl⟩
  | _ => simp [Progress.pc] at advances

theorem Invariant.step {thread : Thread} {finish : Progress α Cap}
    (invariant : Invariant pool) (stands : pool.locals thread = some pc)
    (effect : Effect pool.shared.storage pc next finish)
    (roomy : roomAtClaim pool.shared.storage (some pc)) :
    Invariant { shared := ({ pool.shared with storage := next }.finish finish).1,
                locals := Function.update pool.locals thread
                  ({ pool.shared with storage := next }.finish finish).2 } := by
  obtain ⟨owned, room, conserved⟩ := invariant
  obtain ⟨local_, storage_, sent, received⟩ := finish_eq { pool.shared with storage := next } finish
  have standing := owned.standing thread pc stands
  refine ⟨?_, ?_, ?_⟩
  · rw [local_, storage_]
    refine owned.effect stands effect ?_
    rintro value tail rfl _
    exact room thread value tail stands
  · rw [local_, storage_]
    intro other value tail
    change Function.update pool.locals thread finish.pc other = _ → _ ≠ next.head
    intro advances
    by_cases moving : other = thread
    · subst moving
      rw [Function.update_self] at advances
      obtain ⟨rfl, empty, sameHead⟩ := effect.claim_of_advance advances
      rw [sameHead]
      simpa [roomAtClaim, empty] using roomy
    · rw [Function.update_of_ne moving] at advances
      rcases effect.head_cases with sameHead | ⟨rfl, advanced⟩
      · rw [sameHead]
        exact room other value tail advances
      · rw [advanced]
        intro same
        have shared : tail = pool.shared.storage.head := add_right_cancel same
        exact moving
          (owned.exclusive other thread _ _ tail advances stands rfl (by rw [shared]; rfl))
  · have moved := effect.contents standing
    simp only [storage_, sent, received]
    calc (pool.shared.sent : Multiset α) + finish.sent
        = pool.shared.received + (contents pool.shared.storage + finish.sent) := by
          rw [conserved, add_assoc]
      _ = pool.shared.received + finish.received + contents next := by
          rw [← moved, add_comm (contents next), add_assoc]

theorem Invariant.start {thread : Thread} (invariant : Invariant pool)
    (outside : pool.locals thread = none) {first : Pc α Cap} (free : holds first = none)
    (knows : Standing pool.shared.storage first) :
    Invariant { pool with locals := Function.update pool.locals thread (some first) } := by
  obtain ⟨owned, room, conserved⟩ := invariant
  refine ⟨owned.keep (by simp [outside, free]) ?_, ?_, conserved⟩
  · rintro finishPc ⟨⟩
    exact knows
  · intro other value tail
    change Function.update pool.locals thread (some first) other = _ → _
    intro advances
    by_cases moving : other = thread
    · subst moving
      rw [Function.update_self] at advances
      cases advances
      simp [holds] at free
    · rw [Function.update_of_ne moving] at advances
      exact room other value tail advances

omit [DecidableEq Thread] in
/-- A move begins a call or has an effect on the storage. -/
theorem Invariant.move_cases {thread : Thread} {label : Label α} {shared : Queue α Cap}
    {finish : Option (Pc α Cap)} (invariant : Invariant pool)
    (certain : NoThrow pool (thread, label))
    (advanced : advance pool.shared (pool.locals thread) label = some (shared, finish)) :
    (shared = pool.shared ∧ pool.locals thread = none ∧ ∃ first, finish = some first ∧
      holds first = none ∧ Standing pool.shared.storage first) ∨
    ∃ pc next progress, pool.locals thread = some pc ∧
      Effect pool.shared.storage pc next progress ∧
      { pool.shared with storage := next }.finish progress = (shared, finish) := by
  cases stands : pool.locals thread with
  | none =>
      cases label with
      | trySend value | tryRecv =>
          simp only [stands, advance, Option.some.injEq, Prod.mk.injEq] at advanced
          obtain ⟨rfl, rfl⟩ := advanced
          exact .inl ⟨rfl, rfl, _, rfl, rfl, trivial⟩
      | step throws => simp [stands, advance] at advanced
  | some pc =>
      cases label with
      | trySend value | tryRecv => simp [stands, advance] at advanced
      | step throws =>
          rw [show throws = false from certain] at advanced
          simp only [stands, advance, Option.map_eq_some_iff] at advanced
          obtain ⟨⟨next, progress⟩, resumed, finished⟩ := advanced
          have effect := resume_effect (invariant.owned.standing thread pc stands)
            invariant.owned.noException resumed
          exact .inr ⟨pc, next, progress, rfl, effect, finished⟩

theorem invariant_of_reachable (reachable : (machine Thread α Cap).Reachable RoomAtClaim pool) :
    Invariant pool := by
  refine Program.invariant reachable ?_ ?_
  · rintro first rfl
    refine ⟨⟨fun _ _ stands => ?_, fun _ _ _ _ _ stands => ?_, fun index => .inl (.inl ?_)⟩,
      fun _ _ _ stands => ?_, ?_⟩
    · simp [fresh] at stands
    · simp [fresh] at stands
    · exact ⟨rfl, by simp [Inside, fresh, Storage.create]⟩
    · simp [fresh] at stands
    · simp [fresh, contents_create]
  · intro pool thread label shared finish invariant allowed advanced
    obtain ⟨certain, roomy⟩ := allowed
    rcases invariant.move_cases certain advanced with
      ⟨rfl, outside, first, rfl, free, knows⟩ | ⟨pc, next, progress, stands, effect, finished⟩
    · exact invariant.start outside free knows
    · have stepped := invariant.step stands effect (by rw [← stands]; exact roomy)
      rw [finished] at stepped
      exact stepped

/-! ## The claim -/

/-- A queue on which no call is in progress: its filled slots are those from
`head` up to `tail`, at most `Cap`; they hold what was sent and not received,
and further calls receive all of it. -/
structure Delivers (queue : Queue α Cap) : Prop where
  filled : ∀ index, queue.storage.states index = .filled ↔
    index ∈ segment queue.storage.head queue.storage.tail
  bounded : (segment queue.storage.head queue.storage.tail).length ≤ Cap
  remaining : (queue.sent : Multiset α) = queue.received + values queue.storage
  drains : ∃ emptied,
    drain (values queue.storage).length queue.storage = some (values queue.storage, emptied) ∧
      tryRecv emptied = some (emptied, .nothing)

/-- Nothing is lost and nothing is received twice. -/
structure Lossless (pool : Pool Thread (Queue α Cap) (Option (Pc α Cap))) : Prop where
  once : (pool.shared.received : Multiset α) ≤ pool.shared.sent
  delivers : (∀ thread, pool.locals thread = none) → Delivers pool.shared
  apart : ∀ label next, NoThrow pool label → (machine Thread α Cap).move pool label = some next →
    next.shared.storage.tail ≠ pool.shared.storage.tail →
    next.shared.storage.tail ≠ next.shared.storage.head

omit [DecidableEq Thread] in
theorem Owned.quiet {inside : Thread → Option (Pc α Cap)} (owned : Owned storage inside)
    (outside : ∀ thread, inside thread = none) : Quiet storage := by
  intro index
  rcases owned.settled index with settled | ⟨thread, pc, stands, _⟩
  · exact settled
  · simp [outside thread] at stands

theorem Quiet.filled_iff (quiet : Quiet storage) (index : Fin (Cap + 1)) :
    storage.states index = .filled ↔ index ∈ segment storage.head storage.tail := by
  rw [mem_segment]
  rcases quiet index with ⟨empty, outside⟩ | ⟨filled, inside, _⟩
  · simp [empty, show ¬ Within storage.head storage.tail index from outside]
  · simp [filled, show Within storage.head storage.tail index from inside]

theorem lossless_of_roomAtClaim (reachable : (machine Thread α Cap).Reachable RoomAtClaim pool) :
    Lossless pool := by
  have invariant := invariant_of_reachable reachable
  have conserved := invariant.conserved
  refine ⟨?_, ?_, ?_⟩
  · rw [conserved]
    exact Multiset.le_add_right _ _
  · intro outside
    have quiet := invariant.owned.quiet outside
    refine ⟨quiet.filled_iff, ?_, ?_, drain_spec quiet⟩
    · rw [segment_length]
      exact span_le
    · rw [conserved, contents_quiet quiet]
  · rintro ⟨thread, label⟩ next certain moved
    obtain ⟨shared, finish, advanced, rfl⟩ := Program.move_eq_some.mp moved
    rcases invariant.move_cases certain advanced with
      ⟨rfl, _⟩ | ⟨pc, storage, progress, stands, effect, finished⟩
    · exact fun changed => absurd rfl changed
    · have stored := (finish_eq { pool.shared with storage } progress).2.1
      rw [finished] at stored
      change shared.storage = storage at stored
      rw [stored]
      intro changed
      cases effect with
      | enqueues at_ current =>
          subst at_
          exact invariant.room thread _ _ stands
      | _ => exact absurd rfl changed

end

/-- Two values pass through a queue of one slot. -/
theorem lossless_of_roomAtClaim_twice :
    ∃ pool : Pool (Fin 2) (Queue ℕ 1) (Option (Pc ℕ 1)),
      (machine (Fin 2) ℕ 1).Reachable RoomAtClaim pool ∧
        pool.shared.received = [7, 8] ∧ Lossless pool := by
  obtain ⟨pool, reachable, received⟩ :=
    Machine.reachable_of_exec (machine (Fin 2) ℕ 1) RoomAtClaim (fresh (Fin 2) ℕ 1)
      (List.flatten
        [(0, .trySend 7) :: List.replicate 7 (0, .step false),
          (1, .tryRecv) :: List.replicate 6 (1, .step false),
          (0, .trySend 8) :: List.replicate 7 (0, .step false),
          (1, .tryRecv) :: List.replicate 6 (1, .step false)])
      (fun pool => pool.shared.received = [7, 8]) rfl ⟨_, rfl, rfl⟩
  exact ⟨pool, reachable, received, lossless_of_roomAtClaim reachable⟩

/-- One sender stalls after its tests while the indices go once around; it then
claims the gap in front of `head` and moves `tail` onto it. -/
theorem full_queue_looks_empty :
    ∃ pool : Pool (Fin 2) (Queue ℕ 1) (Option (Pc ℕ 1)),
      (machine (Fin 2) ℕ 1).Reachable NoThrow pool ∧ ¬ Lossless pool := by
  refine Machine.reachable_of_exec (machine (Fin 2) ℕ 1) NoThrow (fresh (Fin 2) ℕ 1)
    (List.flatten
      [(0, .trySend 9) :: List.replicate 4 (0, .step false),
        (1, .trySend 7) :: List.replicate 7 (1, .step false),
        (1, .tryRecv) :: List.replicate 6 (1, .step false),
        (1, .trySend 8) :: List.replicate 7 (1, .step false),
        List.replicate 3 (0, .step false)])
    (fun pool => ¬ Lossless pool) rfl ⟨_, rfl, ?_⟩
  intro lossless
  have remaining := (lossless.delivers (by decide)).remaining
  exact absurd remaining (by decide +kernel)

end Asco.Concurrency.RingQueue
