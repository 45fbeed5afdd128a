import Asco.Concurrency.RingQueue

namespace Asco.Concurrency.RingQueue

open Foundation

/-! # Which thread owns which slot

A slot that is being constructed or emptied has exactly one thread working on
it; the filled slots lie between `head` and `tail`.
-/

variable {α : Type*} {Cap : ℕ}

/-- The side of the queue a call is on, and whether it has moved its index. -/
inductive Stage where
  | sending
  | constructing
  | receiving
  | movingOut
deriving DecidableEq

def stage : Pc α Cap → Stage
  | .sendLoadHead _ | .sendLoadTail _ _ | .sendCheckTail _ _ _ | .sendCheckHead _ _ _
  | .sendClaim _ _ | .sendAdvance _ _ | .sendRelease _ _ => .sending
  | .sendConstruct _ _ => .constructing
  | .recvLoadHead | .recvLoadTail _ | .recvCheckHead _ _ | .recvClaim _ _ | .recvSkip _
  | .recvSkipAdvance _ | .recvAdvance _ => .receiving
  | .recvMoveOut _ => .movingOut

/-- The slot whose state the call has set to one of its own. -/
def holds : Pc α Cap → Option (Fin (Cap + 1))
  | .sendAdvance _ tail | .sendRelease _ tail | .sendConstruct _ tail => some tail
  | .recvAdvance head | .recvMoveOut head => some head
  | .sendLoadHead _ | .sendLoadTail _ _ | .sendCheckTail _ _ _ | .sendCheckHead _ _ _
  | .sendClaim _ _ | .recvLoadHead | .recvLoadTail _ | .recvCheckHead _ _ | .recvClaim _ _
  | .recvSkip _ | .recvSkipAdvance _ => none

def Progress.pc : Progress α Cap → Option (Pc α Cap)
  | .running pc => some pc
  | .done _ => none

/-- Why a receiver returns `nullopt`. -/
def GivesUp (storage : Storage α Cap) : Pc α Cap → Prop
  | .recvLoadTail head => head = storage.tail
  | .recvClaim head tail =>
      storage.states head = .constructing ∨
        (storage.states head = .empty ∨ storage.states head = .deconstructing) ∧ head + 1 = tail
  | _ => False

/-- The slot is between `head` and `tail`. -/
def Inside (storage : Storage α Cap) (index : Fin (Cap + 1)) : Prop :=
  Within storage.head storage.tail index

/-- What a call knows of the slot it holds.  A call never meets an exception. -/
def Standing (storage : Storage α Cap) : Pc α Cap → Prop
  | .sendAdvance _ tail | .sendRelease _ tail =>
      storage.states tail = .constructing ∧ ¬ Inside storage tail
  | .sendConstruct _ tail => storage.states tail = .constructing ∧ Inside storage tail
  | .recvAdvance head =>
      storage.states head = .deconstructing ∧ Inside storage head ∧ (storage.slots head).isSome
  | .recvMoveOut head =>
      storage.states head = .deconstructing ∧ ¬ Inside storage head ∧ (storage.slots head).isSome
  | .recvSkip _ | .recvSkipAdvance _ => False
  | _ => True

/-- What the state of a slot says when no call holds it. -/
def Settled (storage : Storage α Cap) (index : Fin (Cap + 1)) : Prop :=
  storage.states index = .empty ∧ ¬ Inside storage index ∨
    storage.states index = .filled ∧ Inside storage index ∧ (storage.slots index).isSome

/-- What a step of a call does while no element throws. -/
inductive Effect (storage : Storage α Cap) (pc : Pc α Cap) :
    Storage α Cap → Progress α Cap → Prop where
  | goesOn {next : Pc α Cap} (free : holds pc = none) (freeNext : holds next = none)
      (same : stage next = stage pc) (knows : Standing storage next) :
      Effect storage pc storage (.running next)
  | refuses {value : α} {head : Fin (Cap + 1)} (at_ : pc = .sendLoadTail value head)
      (full : storage.tail + 1 = head) : Effect storage pc storage (.done (.full value))
  | givesUp (gives : GivesUp storage pc) : Effect storage pc storage (.done .nothing)
  | claims {value : α} {tail : Fin (Cap + 1)} (at_ : pc = .sendClaim value tail)
      (empty : storage.states tail = .empty) :
      Effect storage pc (storage.setState tail .constructing) (.running (.sendAdvance value tail))
  | enqueues {value : α} {tail : Fin (Cap + 1)} (at_ : pc = .sendAdvance value tail)
      (current : storage.tail = tail) :
      Effect storage pc { storage with tail := tail + 1 } (.running (.sendConstruct value tail))
  | misses {value : α} {tail : Fin (Cap + 1)} (at_ : pc = .sendAdvance value tail) :
      Effect storage pc storage (.running (.sendRelease value tail))
  | releases {value : α} {tail : Fin (Cap + 1)} (at_ : pc = .sendRelease value tail) :
      Effect storage pc (storage.setState tail .empty) (.running (.sendLoadHead value))
  | publishes {value : α} {tail : Fin (Cap + 1)} (at_ : pc = .sendConstruct value tail) :
      Effect storage pc ((storage.setSlot tail (some value)).setState tail .filled)
        (.done (.sent value))
  | takes {head tail : Fin (Cap + 1)} (at_ : pc = .recvClaim head tail)
      (filled : storage.states head = .filled) :
      Effect storage pc (storage.setState head .deconstructing) (.running (.recvAdvance head))
  | dequeues {head : Fin (Cap + 1)} (at_ : pc = .recvAdvance head)
      (current : storage.head = head) :
      Effect storage pc { storage with head := head + 1 } (.running (.recvMoveOut head))
  | waits {head : Fin (Cap + 1)} (at_ : pc = .recvAdvance head) :
      Effect storage pc storage (.running (.recvAdvance head))
  | movesOut {head : Fin (Cap + 1)} {value : α} (at_ : pc = .recvMoveOut head)
      (present : storage.slots head = some value) :
      Effect storage pc ((storage.setSlot head none).setState head .empty)
        (.done (.received value))

theorem startRace_effect {storage : Storage α Cap} {pc : Pc α Cap} {head tail : Fin (Cap + 1)}
    (free : holds pc = none) (receiving : stage pc = .receiving)
    (gives : head = tail → GivesUp storage pc) :
    Effect storage pc storage (startRace head tail) := by
  simp only [startRace]
  split
  · rename_i same
    exact .givesUp (gives same)
  · exact .goesOn free rfl receiving.symm trivial

theorem resume_effect {storage next : Storage α Cap} {pc : Pc α Cap} {finish : Progress α Cap}
    (standing : Standing storage pc) (noException : ∀ index, storage.states index ≠ .exception)
    (resumed : resume storage false pc = some (next, finish)) : Effect storage pc next finish := by
  cases pc with
  | sendLoadHead value =>
      cases resumed
      exact .goesOn rfl rfl rfl trivial
  | sendLoadTail value head =>
      simp only [resume] at resumed
      split at resumed
      · rename_i full
        cases resumed
        exact .refuses rfl full
      · cases resumed
        exact .goesOn rfl rfl rfl trivial
  | sendCheckTail value head tail =>
      simp only [resume] at resumed
      split at resumed
      · cases resumed
        exact .goesOn rfl rfl rfl trivial
      · cases resumed
        exact .goesOn rfl rfl rfl trivial
  | sendCheckHead value head tail =>
      simp only [resume] at resumed
      split at resumed
      · cases resumed
        exact .goesOn rfl rfl rfl trivial
      · cases resumed
        exact .goesOn rfl rfl rfl trivial
  | sendClaim value tail =>
      simp only [resume] at resumed
      split at resumed
      · rename_i empty
        cases resumed
        exact .claims rfl empty
      · cases resumed
        exact .goesOn rfl rfl rfl trivial
  | sendAdvance value tail =>
      simp only [resume] at resumed
      split at resumed
      · rename_i current
        cases resumed
        exact .enqueues rfl current
      · cases resumed
        exact .misses rfl
  | sendRelease value tail =>
      cases resumed
      exact .releases rfl
  | sendConstruct value tail =>
      cases resumed
      exact .publishes rfl
  | recvLoadHead =>
      cases resumed
      exact .goesOn rfl rfl rfl trivial
  | recvLoadTail head =>
      cases resumed
      exact startRace_effect rfl rfl id
  | recvCheckHead head tail =>
      simp only [resume] at resumed
      split at resumed
      · cases resumed
        exact .goesOn rfl rfl rfl trivial
      · cases resumed
        exact .goesOn rfl rfl rfl trivial
  | recvClaim head tail =>
      simp only [resume] at resumed
      split at resumed
      · rename_i filled
        cases resumed
        exact .takes rfl filled
      · rename_i failed
        exact absurd failed (noException head)
      · rename_i constructing
        cases resumed
        exact .givesUp (.inl constructing)
      · rename_i empty
        cases resumed
        exact startRace_effect rfl rfl fun same => .inr ⟨.inl empty, same⟩
      · rename_i deconstructing
        cases resumed
        exact startRace_effect rfl rfl fun same => .inr ⟨.inr deconstructing, same⟩
  | recvSkip head | recvSkipAdvance head => exact standing.elim
  | recvAdvance head =>
      simp only [resume] at resumed
      split at resumed
      · rename_i current
        cases resumed
        exact .dequeues rfl current
      · cases resumed
        exact .waits rfl
  | recvMoveOut head =>
      simp only [resume, Bool.false_eq_true, if_false, Option.map_eq_some_iff] at resumed
      obtain ⟨value, present, moved⟩ := resumed
      cases moved
      exact .movesOut rfl present

/-! ## The invariant -/

variable {Thread : Type*} {storage next : Storage α Cap} {inside : Thread → Option (Pc α Cap)}
  {thread : Thread} {pc : Pc α Cap}

structure Owned (storage : Storage α Cap) (inside : Thread → Option (Pc α Cap)) : Prop where
  standing : ∀ thread pc, inside thread = some pc → Standing storage pc
  exclusive : ∀ first second firstPc secondPc index, inside first = some firstPc →
    inside second = some secondPc → holds firstPc = some index → holds secondPc = some index →
    first = second
  settled : ∀ index, Settled storage index ∨
    ∃ thread pc, inside thread = some pc ∧ holds pc = some index

theorem Standing.held_state {index : Fin (Cap + 1)} (standing : Standing storage pc)
    (held : holds pc = some index) :
    storage.states index = .constructing ∨ storage.states index = .deconstructing := by
  cases pc with
  | sendAdvance value tail | sendRelease value tail | sendConstruct value tail =>
      obtain rfl := Option.some.inj held
      exact .inl standing.1
  | recvAdvance head | recvMoveOut head =>
      obtain rfl := Option.some.inj held
      exact .inr standing.1
  | _ => cases held

namespace Owned

theorem noException (owned : Owned storage inside) (index : Fin (Cap + 1)) :
    storage.states index ≠ .exception := by
  intro threw
  rcases owned.settled index with (⟨empty, _⟩ | ⟨filled, _⟩) | ⟨thread, pc, standing, held⟩
  · simp [threw] at empty
  · simp [threw] at filled
  · rcases (owned.standing thread pc standing).held_state held with busy | busy
    · simp [threw] at busy
    · simp [threw] at busy

theorem settled_of_state (owned : Owned storage inside) {index : Fin (Cap + 1)}
    (idle : storage.states index = .empty ∨ storage.states index = .filled) :
    Settled storage index := by
  rcases owned.settled index with settled | ⟨thread, pc, standing, held⟩
  · exact settled
  · rcases (owned.standing thread pc standing).held_state held with busy | busy
    · simp [busy] at idle
    · simp [busy] at idle

theorem unheld (owned : Owned storage inside) {index : Fin (Cap + 1)}
    (idle : storage.states index = .empty ∨ storage.states index = .filled)
    (standing : inside thread = some pc) (held : holds pc = some index) : False := by
  rcases (owned.standing thread pc standing).held_state held with busy | busy
  · simp [busy] at idle
  · simp [busy] at idle

end Owned

/-- The two storages have the same slot at the index. -/
def Agree (storage next : Storage α Cap) (index : Fin (Cap + 1)) : Prop :=
  next.states index = storage.states index ∧ next.slots index = storage.slots index ∧
    (Inside next index ↔ Inside storage index)

theorem Standing.agree (standing : Standing storage pc)
    (agree : ∀ index, holds pc = some index → Agree storage next index) : Standing next pc := by
  cases pc with
  | sendAdvance value tail | sendRelease value tail | sendConstruct value tail =>
      obtain ⟨state, _, inside⟩ := agree tail rfl
      simp only [Standing] at standing ⊢
      rw [state, inside]
      exact standing
  | recvAdvance head | recvMoveOut head =>
      obtain ⟨state, slot, inside⟩ := agree head rfl
      simp only [Standing] at standing ⊢
      rw [state, slot, inside]
      exact standing
  | recvSkip head | recvSkipAdvance head => exact standing.elim
  | _ => trivial

theorem Settled.agree {index : Fin (Cap + 1)} (settled : Settled storage index)
    (agree : Agree storage next index) : Settled next index := by
  obtain ⟨state, slot, inside⟩ := agree
  rw [Settled, state, slot, inside]
  exact settled

variable [DecidableEq Thread]

/-- A step that touches one slot, which no other thread holds. -/
theorem Owned.touch (owned : Owned storage inside) (slot : Fin (Cap + 1))
    {finish : Option (Pc α Cap)} (stands : inside thread = some pc)
    (agree : ∀ index, index ≠ slot → Agree storage next index)
    (mine : ∀ other otherPc, inside other = some otherPc → holds otherPc = some slot →
      other = thread)
    (before : holds pc = none ∨ holds pc = some slot)
    (after : ∀ finishPc, finish = some finishPc →
      Standing next finishPc ∧ (holds finishPc = none ∨ holds finishPc = some slot))
    (settled : Settled next slot ∨
      ∃ finishPc, finish = some finishPc ∧ holds finishPc = some slot) :
    Owned next (Function.update inside thread finish) where
  standing other otherPc standing := by
    by_cases moving : other = thread
    · subst moving
      rw [Function.update_self] at standing
      exact (after otherPc standing).1
    · rw [Function.update_of_ne moving] at standing
      refine (owned.standing other otherPc standing).agree fun index held => agree index ?_
      rintro rfl
      exact moving (mine other otherPc standing held)
  exclusive first second firstPc secondPc index firstStands secondStands firstHolds
      secondHolds := by
    by_cases firstMoves : first = thread
    · by_cases secondMoves : second = thread
      · exact firstMoves.trans secondMoves.symm
      · rw [firstMoves, Function.update_self] at firstStands
        rw [Function.update_of_ne secondMoves] at secondStands
        have touched : index = slot := by simpa [firstHolds] using (after firstPc firstStands).2
        exact absurd (mine second secondPc secondStands (touched ▸ secondHolds)) secondMoves
    · rw [Function.update_of_ne firstMoves] at firstStands
      by_cases secondMoves : second = thread
      · rw [secondMoves, Function.update_self] at secondStands
        have touched : index = slot := by simpa [secondHolds] using (after secondPc secondStands).2
        exact absurd (mine first firstPc firstStands (touched ▸ firstHolds)) firstMoves
      · rw [Function.update_of_ne secondMoves] at secondStands
        exact owned.exclusive first second firstPc secondPc index firstStands secondStands
          firstHolds secondHolds
  settled index := by
    by_cases touched : index = slot
    · subst touched
      rcases settled with settled | ⟨finishPc, finishes, held⟩
      · exact .inl settled
      · exact .inr ⟨thread, finishPc, by rw [Function.update_self]; exact finishes, held⟩
    · rcases owned.settled index with settled | ⟨other, otherPc, standing, held⟩
      · exact .inl (settled.agree (agree index touched))
      · refine .inr ⟨other, otherPc, ?_, held⟩
        have moving : other ≠ thread := by
          rintro rfl
          rw [stands] at standing
          cases standing
          simp [held, touched] at before
        rw [Function.update_of_ne moving]
        exact standing

/-- A step that leaves the storage alone and keeps what the thread holds. -/
theorem Owned.keep (owned : Owned storage inside) {finish : Option (Pc α Cap)}
    (same : finish.bind holds = (inside thread).bind holds)
    (standing : ∀ finishPc, finish = some finishPc → Standing storage finishPc) :
    Owned storage (Function.update inside thread finish) where
  standing other otherPc stands := by
    by_cases moving : other = thread
    · subst moving
      rw [Function.update_self] at stands
      exact standing otherPc stands
    · rw [Function.update_of_ne moving] at stands
      exact owned.standing other otherPc stands
  exclusive first second firstPc secondPc index firstStands secondStands firstHolds
      secondHolds := by
    have heldBefore : ∀ other otherPc, Function.update inside thread finish other = some otherPc →
        holds otherPc = some index → ∃ pc, inside other = some pc ∧ holds pc = some index := by
      intro other otherPc stands held
      by_cases moving : other = thread
      · subst moving
        rw [Function.update_self] at stands
        rw [stands, Option.bind_some, held] at same
        exact Option.bind_eq_some_iff.mp same.symm
      · rw [Function.update_of_ne moving] at stands
        exact ⟨otherPc, stands, held⟩
    obtain ⟨_, firstStood, firstHeld⟩ := heldBefore first firstPc firstStands firstHolds
    obtain ⟨_, secondStood, secondHeld⟩ := heldBefore second secondPc secondStands secondHolds
    exact owned.exclusive first second _ _ index firstStood secondStood firstHeld secondHeld
  settled index := by
    rcases owned.settled index with settled | ⟨other, otherPc, stands, held⟩
    · exact .inl settled
    · by_cases moving : other = thread
      · subst moving
        rw [stands, Option.bind_some, held] at same
        obtain ⟨finishPc, finishes, holding⟩ := Option.bind_eq_some_iff.mp same
        exact .inr ⟨other, finishPc, by rw [Function.update_self]; exact finishes, holding⟩
      · exact .inr ⟨other, otherPc, by rw [Function.update_of_ne moving]; exact stands, held⟩

theorem agree_setState {index slot : Fin (Cap + 1)} {state : SlotState} (other : index ≠ slot) :
    Agree storage (storage.setState slot state) index :=
  ⟨Function.update_of_ne other _ _, rfl, Iff.rfl⟩

theorem agree_setSlot {index slot : Fin (Cap + 1)} {state : SlotState} {value : Option α}
    (other : index ≠ slot) :
    Agree storage ((storage.setSlot slot value).setState slot state) index :=
  ⟨Function.update_of_ne other _ _, Function.update_of_ne other _ _, Iff.rfl⟩

theorem agree_enqueue (room : storage.tail + 1 ≠ storage.head) {index : Fin (Cap + 1)}
    (other : index ≠ storage.tail) :
    Agree storage { storage with tail := storage.tail + 1 } index := by
  refine ⟨rfl, rfl, ?_⟩
  simp only [Inside, within_succ_last room, other, or_false]

theorem agree_dequeue (nonempty : storage.head ≠ storage.tail) {index : Fin (Cap + 1)}
    (other : index ≠ storage.head) :
    Agree storage { storage with head := storage.head + 1 } index := by
  refine ⟨rfl, rfl, ?_⟩
  simp only [Inside, within_succ_first nonempty, ne_eq, other, not_false_eq_true, and_true]

theorem inside_head : Inside storage storage.head ↔ storage.head ≠ storage.tail := within_first

@[simp] theorem setState_states {slot : Fin (Cap + 1)} {state : SlotState} :
    (storage.setState slot state).states slot = state := Function.update_self ..

@[simp] theorem inside_setState {index slot : Fin (Cap + 1)} {state : SlotState} :
    Inside (storage.setState slot state) index ↔ Inside storage index := Iff.rfl

@[simp] theorem inside_setSlot {index slot : Fin (Cap + 1)} {value : Option α} :
    Inside (storage.setSlot slot value) index ↔ Inside storage index := Iff.rfl

/-- The invariant is kept by every step that does not move `tail` onto `head`. -/
theorem Owned.effect (owned : Owned storage inside) (stands : inside thread = some pc)
    {finish : Progress α Cap} (effect : Effect storage pc next finish)
    (room : ∀ value tail, pc = .sendAdvance value tail → storage.tail = tail →
      tail + 1 ≠ storage.head) :
    Owned next (Function.update inside thread finish.pc) := by
  have standing := owned.standing thread pc stands
  have mine (slot : Fin (Cap + 1)) (held : holds pc = some slot) (other : Thread)
      (otherPc : Pc α Cap) (otherStands : inside other = some otherPc)
      (otherHolds : holds otherPc = some slot) : other = thread :=
    owned.exclusive other thread otherPc pc slot otherStands stands otherHolds held
  cases effect with
  | goesOn free freeNext same knows =>
      refine owned.keep (by simp [Progress.pc, stands, free, freeNext]) ?_
      rintro finishPc ⟨⟩
      exact knows
  | refuses at_ full =>
      subst at_
      exact owned.keep (by simp [Progress.pc, stands, holds]) (by simp [Progress.pc])
  | givesUp gives =>
      have free : holds pc = none := by
        cases pc <;> first | rfl | exact gives.elim
      exact owned.keep (by simp [Progress.pc, stands, free]) (by simp [Progress.pc])
  | @claims value tail at_ empty =>
      subst at_
      have outside : ¬ Inside storage tail := by
        rcases owned.settled_of_state (.inl empty) with ⟨_, outside⟩ | ⟨filled, _⟩
        · exact outside
        · simp [empty] at filled
      refine owned.touch tail stands (fun _ => agree_setState) ?_ (.inl rfl) ?_ (.inr ⟨_, rfl, rfl⟩)
      · intro other otherPc otherStands held
        exact (owned.unheld (.inl empty) otherStands held).elim
      · rintro finishPc ⟨⟩
        exact ⟨⟨setState_states, outside⟩, .inr rfl⟩
  | @enqueues value tail at_ current =>
      subst at_ current
      have free := room value storage.tail rfl rfl
      refine owned.touch storage.tail stands (fun _ => agree_enqueue free) (mine _ rfl)
        (.inr rfl) ?_ (.inr ⟨_, rfl, rfl⟩)
      rintro finishPc ⟨⟩
      exact ⟨⟨standing.1, (within_succ_last free).mpr (.inr rfl)⟩, .inr rfl⟩
  | misses at_ =>
      subst at_
      refine owned.keep (by simp [Progress.pc, stands, holds]) ?_
      rintro finishPc ⟨⟩
      exact standing
  | @releases value tail at_ =>
      subst at_
      refine owned.touch tail stands (fun _ => agree_setState) (mine tail rfl) (.inr rfl) ?_
        (.inl (.inl ⟨setState_states, standing.2⟩))
      rintro finishPc ⟨⟩
      exact ⟨trivial, .inl rfl⟩
  | @publishes value tail at_ =>
      subst at_
      refine owned.touch tail stands (fun _ => agree_setSlot) (mine tail rfl) (.inr rfl)
        (by simp [Progress.pc]) (.inl (.inr ⟨setState_states, standing.2, ?_⟩))
      simp [Storage.setState, Storage.setSlot]
  | @takes head tail at_ filled =>
      subst at_
      have ready : Inside storage head ∧ (storage.slots head).isSome := by
        rcases owned.settled_of_state (.inr filled) with ⟨empty, _⟩ | ⟨_, ready⟩
        · simp [filled] at empty
        · exact ready
      refine owned.touch head stands (fun _ => agree_setState) ?_ (.inl rfl) ?_ (.inr ⟨_, rfl, rfl⟩)
      · intro other otherPc otherStands held
        exact (owned.unheld (.inr filled) otherStands held).elim
      · rintro finishPc ⟨⟩
        exact ⟨⟨setState_states, ready⟩, .inr rfl⟩
  | @dequeues head at_ current =>
      subst at_ current
      obtain ⟨busy, inHere, present⟩ := standing
      have nonempty := inside_head.mp inHere
      refine owned.touch storage.head stands (fun _ => agree_dequeue nonempty) (mine _ rfl)
        (.inr rfl) ?_ (.inr ⟨_, rfl, rfl⟩)
      rintro finishPc ⟨⟩
      refine ⟨⟨busy, ?_, present⟩, .inr rfl⟩
      rw [Inside, within_succ_first nonempty]
      simp
  | waits at_ =>
      subst at_
      refine owned.keep (by simp [Progress.pc, stands]) ?_
      rintro finishPc ⟨⟩
      exact standing
  | @movesOut head value at_ present =>
      subst at_
      exact owned.touch head stands (fun _ => agree_setSlot) (mine head rfl) (.inr rfl)
        (by simp [Progress.pc]) (.inl (.inl ⟨setState_states, standing.2.1⟩))

end Asco.Concurrency.RingQueue
