import Asco.Sync.SpinRwLock.Calls

namespace Asco.Sync.SpinRwLock.Guards

open Foundation

/-! # `spinrwlock<>` and `spinrwlock<T>`: guards as objects

Guards are objects that are acquired, moved and destroyed one call after
another.  A lock is named by its `spinrwlock<>`, which for a `spinrwlock<T>` is
the one inside.
-/

/-- A guard of `spinrwlock<>` is one pointer.  A guard of `spinrwlock<T>` has a
pointer `m_spinrwlock` beside the guard `m_guard` of the lock inside. -/
inductive Guard (Id : Type*) where
  | plain (mode : Mode) (spinrwlock : Option Id)
  | valued (mode : Mode) (spinrwlock guard : Option Id)
deriving DecidableEq

namespace Guard

variable {Id : Type*}

def mode : Guard Id → Mode
  | .plain mode _ | .valued mode _ _ => mode

/-- `operator bool` tests this pointer, and so do `operator*` and `operator->`. -/
def spinrwlock : Guard Id → Option Id
  | .plain _ spinrwlock | .valued _ spinrwlock _ => spinrwlock

/-- The lock that the destructor gives back. -/
def held : Guard Id → Option Id
  | .plain _ spinrwlock => spinrwlock
  | .valued _ _ guard => guard

def isValued : Guard Id → Bool
  | .plain .. => false
  | .valued .. => true

def isEmpty (guard : Guard Id) : Bool := guard.spinrwlock.isNone && guard.held.isNone

/-- The guard that `read`, `try_read`, `write` or `try_write` makes of what the
call of `spinrwlock<>` returned. -/
def made (request : Request) (id : Id) (valued given : Bool) : Guard Id :=
  if valued then
    if given then .valued request.mode (some id) (some id)
    else if request.attempts then .valued request.mode none none
    else .valued request.mode (some id) none
  else .plain request.mode (if given then some id else none)

/-- The move constructors: the new guard and what is left of the old one. -/
def moved : Guard Id → Guard Id × Guard Id
  | .plain mode spinrwlock => (.plain mode spinrwlock, .plain mode none)
  | .valued mode spinrwlock guard => (.valued mode spinrwlock none, .valued mode none guard)

/-- The move assignments, of guards of one class. -/
def assigned : Guard Id → Guard Id → Option (Guard Id × Guard Id)
  | .plain mode _, .plain other spinrwlock =>
      if mode = other then some (.plain mode spinrwlock, .plain mode none) else none
  | .valued mode _ guard, .valued other spinrwlock inner =>
      if mode = other then some (.valued mode spinrwlock guard, .valued mode none inner) else none
  | _, _ => none

end Guard

structure State (Object Id : Type*) where
  locks : Id → Lock
  objects : Object → Option (Guard Id)

inductive Label (Object Id : Type*) where
  | empty (target : Object) (valued : Bool) (mode : Mode)
  | acquire (target : Object) (valued : Bool) (request : Request) (id : Id) (spurious : List Bool)
  | moveConstruct (target source : Object)
  | moveAssign (target source : Object)
  | destroy (object : Object)

variable {Object Id : Type*} [DecidableEq Object] [DecidableEq Id]

namespace State

def put (state : State Object Id) (object : Object) (guard : Option (Guard Id)) :
    State Object Id :=
  { state with objects := Function.update state.objects object guard }

def empty (state : State Object Id) (target : Object) (valued : Bool) (mode : Mode) :
    Option (State Object Id) :=
  if (state.objects target).isSome then none
  else some (state.put target (some (if valued then .valued mode none none else .plain mode none)))

def acquire (state : State Object Id) (target : Object) (valued : Bool) (request : Request)
    (id : Id) (spurious : List Bool) : Option (State Object Id) :=
  if (state.objects target).isSome then none
  else (run (state.locks id) request.call spurious).map fun lock =>
    { state.put target
        (some (.made request id valued (acquired (state.locks id) lock request.mode))) with
      locks := Function.update state.locks id lock }

def moveConstruct (state : State Object Id) (target source : Object) : Option (State Object Id) :=
  if (state.objects target).isSome then none
  else (state.objects source).map fun guard =>
    (state.put target (some guard.moved.1)).put source (some guard.moved.2)

def moveAssign (state : State Object Id) (target source : Object) : Option (State Object Id) :=
  (state.objects target).bind fun old => (state.objects source).bind fun guard =>
    if target = source then some state
    else (old.assigned guard).map fun both =>
      (state.put target (some both.1)).put source (some both.2)

def destroy (state : State Object Id) (object : Object) : Option (State Object Id) :=
  (state.objects object).bind fun guard =>
    match guard.held with
    | none => some (state.put object none)
    | some id => (run (state.locks id) guard.mode.drop []).map fun lock =>
        { state.put object none with locks := Function.update state.locks id lock }

def move (state : State Object Id) : Label Object Id → Option (State Object Id)
  | .empty target valued mode => state.empty target valued mode
  | .acquire target valued request id spurious => state.acquire target valued request id spurious
  | .moveConstruct target source => state.moveConstruct target source
  | .moveAssign target source => state.moveAssign target source
  | .destroy object => state.destroy object

omit [DecidableEq Object] [DecidableEq Id] in
def initial : State Object Id where
  locks _ := { state := 0#64, readers := 0, writers := 0 }
  objects _ := none

end State

def machine (Object Id : Type*) [DecidableEq Object] [DecidableEq Id] :
    Machine (State Object Id) (Label Object Id) where
  start state := state = .initial
  move := State.move

/-- One for a guard of this mode that is not empty and names this lock. -/
def weight (mode : Mode) (id : Id) : Option (Guard Id) → ℕ
  | some guard => if guard.mode = mode ∧ guard.spinrwlock = some id then 1 else 0
  | none => 0

/-- How many live guards of this mode that are not empty name this lock. -/
def State.live [Fintype Object] (state : State Object Id) (mode : Mode) (id : Id) : ℕ :=
  tally (weight mode id) state.objects

/-- The word of every lock counts its live guards, and a guard that can be
dereferenced holds its lock through the guard inside. -/
structure State.Conserved [Fintype Object] (state : State Object Id) : Prop where
  counts : ∀ mode id, counted (state.locks id).state mode = state.live mode id
  inner : ∀ object mode id guard, state.objects object = some (.valued mode (some id) guard) →
    guard = some id

/-- No guard is assigned over that holds a lock, and no guard of `spinrwlock<T>`
that holds one is moved.  Assigning a guard to itself does nothing. -/
def Harmless (state : State Object Id) : Label Object Id → Prop
  | .moveConstruct _ source =>
      ∀ guard ∈ state.objects source, guard.isValued = true → guard.isEmpty = true
  | .moveAssign target source => target = source ∨
      ((∀ guard ∈ state.objects target, guard.isEmpty = true) ∧
        ∀ guard ∈ state.objects source, guard.isValued = true → guard.isEmpty = true)
  | .empty .. | .acquire .. | .destroy .. => True

instance : DecidableRel (Harmless : State Object Id → Label Object Id → Prop) := fun state label =>
  match label with
  | .moveConstruct _ source => inferInstanceAs (Decidable
      (∀ guard ∈ state.objects source, guard.isValued = true → guard.isEmpty = true))
  | .moveAssign target source => inferInstanceAs (Decidable (target = source ∨
      ((∀ guard ∈ state.objects target, guard.isEmpty = true) ∧
        ∀ guard ∈ state.objects source, guard.isValued = true → guard.isEmpty = true)))
  | .empty .. | .acquire .. | .destroy .. => isTrue trivial

/-! ## Every lock is held by its live guards -/

/-- What holds while every move is harmless. -/
structure State.Tracked [Fintype Object] (state : State Object Id) : Prop where
  coherent : ∀ id, Coherent (state.locks id)
  held : ∀ object guard, state.objects object = some guard → guard.held = guard.spinrwlock
  given : ∀ mode id, (state.locks id).given mode = state.live mode id

variable [Fintype Object] {state next : State Object Id}

omit [DecidableEq Object] in
theorem live_le_card (state : State Object Id) (mode : Mode) (id : Id) :
    state.live mode id ≤ Fintype.card Object := by
  have light (guard : Option (Guard Id)) : weight mode id guard ≤ 1 := by
    cases guard with
    | none => exact Nat.zero_le _
    | some guard =>
        simp only [weight]
        split <;> omega
  have bounded : state.live mode id ≤ Fintype.card Object • 1 :=
    Finset.sum_le_card_nsmul _ _ _ fun object _ => light (state.objects object)
  simpa using bounded

omit [DecidableEq Object] in
theorem State.Tracked.few (tracked : state.Tracked) (room : Fintype.card Object < 2 ^ 62)
    (id : Id) : FewReaders (state.locks id) := by
  have readers := (tracked.given .read id).trans_le (live_le_card state .read id)
  exact readers.trans_lt room

omit [DecidableEq Object] in
theorem State.Tracked.conserved (tracked : state.Tracked) (room : Fintype.card Object < 2 ^ 62) :
    state.Conserved where
  counts mode id := by
    rw [(tracked.coherent id).counted (tracked.few room id) mode]
    exact tracked.given mode id
  inner object mode id guard found := tracked.held object _ found

theorem live_put (state : State Object Id) (object : Object) (guard : Option (Guard Id))
    (mode : Mode) (id : Id) :
    (state.put object guard).live mode id + weight mode id (state.objects object) =
      state.live mode id + weight mode id guard :=
  tally_update (weight mode id) state.objects object guard

/-- Putting one guard into its place, with the locks that go with it. -/
theorem State.Tracked.rewrite {locks : Id → Lock} {object : Object} {guard : Option (Guard Id)}
    (tracked : state.Tracked) (coherent : ∀ id, Coherent (locks id))
    (held : ∀ placed, guard = some placed → placed.held = placed.spinrwlock)
    (given : ∀ mode id, (locks id).given mode + weight mode id (state.objects object) =
      (state.locks id).given mode + weight mode id guard) :
    State.Tracked { state.put object guard with locks } where
  coherent := coherent
  held := by
    intro other found present
    simp only [State.put, Function.update_apply] at present
    split at present
    · exact held found present
    · exact tracked.held other found present
  given := by
    intro mode id
    have total := live_put state object guard mode id
    have before := given mode id
    have now := tracked.given mode id
    change (locks id).given mode = (state.put object guard).live mode id
    omega

/-- Moving between two objects, when the guards afterwards weigh what the two
objects weighed before. -/
theorem State.Tracked.exchange {target source : Object} {one two : Guard Id}
    (tracked : state.Tracked) (different : target ≠ source) (heldOne : one.held = one.spinrwlock)
    (heldTwo : two.held = two.spinrwlock)
    (same : ∀ mode id, weight mode id (some one) + weight mode id (some two) =
      weight mode id (state.objects target) + weight mode id (state.objects source)) :
    ((state.put target (some one)).put source (some two)).Tracked where
  coherent := tracked.coherent
  held := by
    intro other found present
    simp only [State.put, Function.update_apply] at present
    split at present
    · cases present
      exact heldTwo
    · split at present
      · cases present
        exact heldOne
      · exact tracked.held other found present
  given := by
    intro mode id
    have first := live_put state target (some one) mode id
    have second := live_put (state.put target (some one)) source (some two) mode id
    have kept : (state.put target (some one)).objects source = state.objects source :=
      Function.update_of_ne (Ne.symm different) _ _
    have weights := same mode id
    have now := tracked.given mode id
    rw [kept] at second
    change (state.locks id).given mode = _
    omega

omit [DecidableEq Object] [Fintype Object] in
theorem weight_eq_zero {guard : Guard Id} (empty : guard.spinrwlock = none) (mode : Mode)
    (id : Id) : weight mode id (some guard) = 0 := by
  simp [weight, empty]

omit [DecidableEq Object] [Fintype Object] in
theorem weight_some {guard : Guard Id} {id : Id} (named : guard.spinrwlock = some id) (mode : Mode)
    (other : Id) :
    weight mode other (some guard) = if guard.mode = mode ∧ id = other then 1 else 0 := by
  simp [weight, named]

theorem State.Tracked.empty {target : Object} {valued : Bool} {mode : Mode}
    (tracked : state.Tracked) (moved : state.empty target valued mode = some next) :
    next.Tracked := by
  unfold State.empty at moved
  split at moved
  · cases moved
  · rename_i absent
    cases moved
    have free : state.objects target = none := by simpa using absent
    refine tracked.rewrite tracked.coherent ?_ fun other id => ?_
    · intro placed same
      cases same
      cases valued <;> rfl
    · rw [free, weight_eq_zero (by cases valued <;> rfl)]
      rfl

omit [DecidableEq Object] [DecidableEq Id] [Fintype Object] in
theorem made_given (request : Request) (id : Id) (valued : Bool) :
    (Guard.made request id valued true).mode = request.mode ∧
      (Guard.made request id valued true).spinrwlock = some id ∧
      (Guard.made request id valued true).held = some id := by
  cases valued <;> exact ⟨rfl, rfl, rfl⟩

omit [DecidableEq Object] [DecidableEq Id] [Fintype Object] in
theorem made_refused {request : Request} (attempts : request.attempts = true) (id : Id)
    (valued : Bool) :
    (Guard.made request id valued false).spinrwlock = none ∧
      (Guard.made request id valued false).held = none := by
  cases valued <;> simp [Guard.made, attempts, Guard.spinrwlock, Guard.held]

theorem State.Tracked.acquire {target : Object} {valued : Bool} {request : Request} {id : Id}
    {spurious : List Bool} (tracked : state.Tracked) (room : Fintype.card Object + 1 < 2 ^ 62)
    (moved : state.acquire target valued request id spurious = some next) : next.Tracked := by
  unfold State.acquire at moved
  split at moved
  · cases moved
  · rename_i absent
    have free : state.objects target = none := by simpa using absent
    obtain ⟨lock, ran, same⟩ := Option.map_eq_some_iff.mp moved
    have few : (state.locks id).readers + 1 < 2 ^ 62 := by
      have readers := (tracked.given .read id).trans_le (live_le_card state .read id)
      change (state.locks id).readers ≤ _ at readers
      omega
    obtain ⟨coherent, outcome⟩ := run_gives (tracked.coherent id) few ran
    subst same
    have coherentAll : ∀ other, Coherent (Function.update state.locks id lock other) := by
      intro other
      rw [Function.update_apply]
      split
      · exact coherent
      · exact tracked.coherent other
    rcases outcome with gives | ⟨attempts, kept⟩
    · have given : acquired (state.locks id) lock request.mode = true := by
        have more := gives request.mode
        rw [if_pos rfl] at more
        simp [acquired, more]
      rw [given]
      obtain ⟨mode, named, held⟩ := made_given request id valued
      refine tracked.rewrite coherentAll ?_ fun other id' => ?_
      · intro placed same
        cases same
        rw [held, named]
      · rw [free, weight_some named, mode, Function.update_apply]
        by_cases same : id' = id
        · subst same
          have counted := gives other
          simp only [if_pos, weight, eq_comm (a := other), and_true] at counted ⊢
          omega
        · simp [same, Ne.symm same, weight]
    · have given : acquired (state.locks id) lock request.mode = false := by
        simp [acquired, kept]
      rw [given]
      obtain ⟨named, held⟩ := made_refused attempts id valued
      refine tracked.rewrite coherentAll ?_ fun other id' => ?_
      · intro placed same
        cases same
        rw [held, named]
      · rw [free, weight_eq_zero named, Function.update_apply]
        split
        · rename_i same
          rw [same, kept]
          rfl
        · rfl

omit [DecidableEq Object] [DecidableEq Id] [Fintype Object] in
theorem isEmpty_iff {guard : Guard Id} :
    guard.isEmpty = true ↔ guard.spinrwlock = none ∧ guard.held = none := by
  simp [Guard.isEmpty]

theorem State.Tracked.moveConstruct {target source : Object} (tracked : state.Tracked)
    (harmless : Harmless state (.moveConstruct target source))
    (moved : state.moveConstruct target source = some next) : next.Tracked := by
  unfold State.moveConstruct at moved
  split at moved
  · cases moved
  · rename_i absent
    have free : state.objects target = none := by simpa using absent
    obtain ⟨guard, found, same⟩ := Option.map_eq_some_iff.mp moved
    cases same
    have different : target ≠ source := by
      rintro rfl
      rw [free] at found
      cases found
    have unvalued := harmless guard found
    refine tracked.exchange different ?_ ?_ fun mode id => ?_
    · cases guard with
      | plain mode spinrwlock => rfl
      | valued mode spinrwlock guard =>
          exact (isEmpty_iff.mp (unvalued rfl)).1.symm
    · cases guard with
      | plain mode spinrwlock => rfl
      | valued mode spinrwlock guard => exact (isEmpty_iff.mp (unvalued rfl)).2
    · rw [free, found]
      cases guard with
      | plain mode spinrwlock =>
          exact (Nat.add_comm _ _).trans (congrArg (· + _) (weight_eq_zero rfl _ _))
      | valued mode spinrwlock guard =>
          have named : spinrwlock = none := (isEmpty_iff.mp (unvalued rfl)).1
          subst named
          simp [Guard.moved, weight, Guard.spinrwlock]

theorem State.Tracked.moveAssign {target source : Object} (tracked : state.Tracked)
    (harmless : Harmless state (.moveAssign target source))
    (moved : state.moveAssign target source = some next) : next.Tracked := by
  obtain ⟨old, foundOld, rest⟩ := Option.bind_eq_some_iff.mp moved
  obtain ⟨guard, found, rest⟩ := Option.bind_eq_some_iff.mp rest
  split at rest
  · cases rest
    exact tracked
  · rename_i different
    obtain ⟨both, assigned, same⟩ := Option.map_eq_some_iff.mp rest
    cases same
    obtain ⟨emptyOld, unvalued⟩ := harmless.resolve_left different
    have empty := isEmpty_iff.mp (emptyOld old foundOld)
    have unvalued := unvalued guard found
    cases old with
    | plain mode oldLock =>
        cases guard with
        | valued => cases assigned
        | plain other spinrwlock =>
            simp only [Guard.assigned] at assigned
            split at assigned
            · rename_i sameMode
              cases assigned
              subst sameMode
              refine tracked.exchange different rfl rfl fun mode' id => ?_
              rw [foundOld, found, weight_eq_zero empty.1]
              exact (Nat.add_comm _ _).trans (congrArg (· + _) (weight_eq_zero rfl _ _))
            · cases assigned
    | valued mode oldLock oldGuard =>
        cases guard with
        | plain => cases assigned
        | valued other spinrwlock inner =>
            obtain ⟨named, held⟩ := isEmpty_iff.mp (unvalued rfl)
            simp only [Guard.spinrwlock, Guard.held] at named held empty
            obtain ⟨rfl, rfl⟩ := empty
            subst named held
            simp only [Guard.assigned] at assigned
            split at assigned
            · rename_i sameMode
              cases assigned
              subst sameMode
              refine tracked.exchange different rfl rfl fun mode' id => ?_
              rw [foundOld, found]
            · cases assigned

theorem State.Tracked.destroy {object : Object} (tracked : state.Tracked)
    (room : Fintype.card Object < 2 ^ 62) (moved : state.destroy object = some next) :
    next.Tracked := by
  obtain ⟨guard, found, rest⟩ := Option.bind_eq_some_iff.mp moved
  have backed := tracked.held object guard found
  cases held : guard.held with
  | none =>
      rw [held] at rest
      cases rest
      refine tracked.rewrite tracked.coherent (fun _ gone => by cases gone) fun mode id => ?_
      rw [found, weight_eq_zero (backed ▸ held)]
      rfl
  | some id =>
      rw [held] at rest
      obtain ⟨lock, ran, same⟩ := Option.map_eq_some_iff.mp rest
      cases same
      obtain ⟨coherent, taken⟩ := run_drop (tracked.coherent id) (tracked.few room id) ran
      refine tracked.rewrite ?_ (fun _ gone => by cases gone) fun mode id' => ?_
      · intro other
        rw [Function.update_apply]
        split
        · exact coherent
        · exact tracked.coherent other
      · have named : guard.spinrwlock = some id := backed ▸ held
        rw [found, weight_some named, Function.update_apply]
        by_cases same : id' = id
        · subst same
          have counted := taken mode
          simp only [if_pos, weight, eq_comm (a := mode), and_true] at counted ⊢
          omega
        · simp [same, Ne.symm same, weight]

/-- A harmless step keeps every guard tracked. -/
theorem State.Tracked.step {label : Label Object Id} (tracked : state.Tracked)
    (room : Fintype.card Object + 1 < 2 ^ 62) (harmless : Harmless state label)
    (moved : state.move label = some next) : next.Tracked := by
  cases label with
  | empty target valued mode => exact tracked.empty moved
  | acquire target valued request id spurious => exact tracked.acquire room moved
  | moveConstruct target source => exact tracked.moveConstruct harmless moved
  | moveAssign target source => exact tracked.moveAssign harmless moved
  | destroy object => exact tracked.destroy (by omega) moved

omit [DecidableEq Object] in
theorem tracked_initial : (State.initial : State Object Id).Tracked where
  coherent _ := ⟨false, false, zero_eq, rfl, by simp⟩
  held _ _ missing := by cases missing
  given mode id := by
    have nothing : (State.initial : State Object Id).live mode id = 0 :=
      Finset.sum_eq_zero fun object _ => rfl
    rw [nothing]
    cases mode <;> rfl

/-! ## A move that is not harmless breaks it -/

theorem live_exchange (state : State Object Id) {target source : Object}
    (different : target ≠ source) (one two : Option (Guard Id)) (mode : Mode) (id : Id) :
    ((state.put target one).put source two).live mode id + weight mode id (state.objects target) +
        weight mode id (state.objects source) =
      state.live mode id + weight mode id one + weight mode id two := by
  have first := live_put state target one mode id
  have second := live_put (state.put target one) source two mode id
  have kept : (state.put target one).objects source = state.objects source :=
    Function.update_of_ne (Ne.symm different) _ _
  rw [kept] at second
  omega

/-- A move that takes a guard from the live ones leaves its lock held. -/
theorem State.Tracked.loses {target source : Object} {one two : Option (Guard Id)}
    (tracked : state.Tracked) (room : Fintype.card Object < 2 ^ 62) (mode : Mode) (id : Id)
    (different : target ≠ source)
    (fewer : weight mode id one + weight mode id two <
      weight mode id (state.objects target) + weight mode id (state.objects source)) :
    ¬ ((state.put target one).put source two).Conserved := by
  intro conserved
  have before := (tracked.conserved room).counts mode id
  have after := conserved.counts mode id
  have total := live_exchange state different one two mode id
  change counted (state.locks id).state mode = _ at after
  omega

theorem State.Tracked.harmful_construct {target source : Object} (tracked : state.Tracked)
    (harmful : ¬ Harmless state (.moveConstruct target source))
    (moved : state.moveConstruct target source = some next) : ¬ next.Conserved := by
  unfold State.moveConstruct at moved
  split at moved
  · cases moved
  · rename_i absent
    obtain ⟨guard, found, same⟩ := Option.map_eq_some_iff.mp moved
    cases same
    have different : target ≠ source := by
      rintro rfl
      simp [found] at absent
    have nonempty : guard.isValued = true ∧ guard.isEmpty ≠ true := by
      simpa [Harmless, found] using harmful
    have backed := tracked.held source guard found
    cases guard with
    | plain mode spinrwlock => cases nonempty.1
    | valued mode spinrwlock guard =>
        change guard = spinrwlock at backed
        subst backed
        cases guard with
        | none => exact (nonempty.2 rfl).elim
        | some id =>
            intro conserved
            have placed : ((state.put target (some (.valued mode (some id) none))).put source
                (some (.valued mode none (some id)))).objects target =
                  some (.valued mode (some id) none) := by
              simp [State.put, Function.update_of_ne different]
            have wrong := conserved.inner target mode id none placed
            cases wrong

theorem State.Tracked.harmful_assign {target source : Object} (tracked : state.Tracked)
    (room : Fintype.card Object < 2 ^ 62)
    (harmful : ¬ Harmless state (.moveAssign target source))
    (moved : state.moveAssign target source = some next) : ¬ next.Conserved := by
  obtain ⟨old, foundOld, rest⟩ := Option.bind_eq_some_iff.mp moved
  obtain ⟨guard, found, rest⟩ := Option.bind_eq_some_iff.mp rest
  have different : target ≠ source := fun same => harmful (.inl same)
  rw [if_neg different] at rest
  obtain ⟨both, assigned, same⟩ := Option.map_eq_some_iff.mp rest
  cases same
  have nonempty : ¬ (old.isEmpty = true ∧ (guard.isValued = true → guard.isEmpty = true)) := by
    simpa [Harmless, foundOld, found, different] using harmful
  have backedOld := tracked.held target old foundOld
  have backed := tracked.held source guard found
  cases old with
  | plain mode oldLock =>
      cases guard with
      | valued => cases assigned
      | plain other spinrwlock =>
          simp only [Guard.assigned] at assigned
          split at assigned
          · rename_i sameMode
            cases assigned
            subst sameMode
            cases oldLock with
            | none => exact (nonempty ⟨rfl, fun missing => by cases missing⟩).elim
            | some id =>
                refine tracked.loses room mode id different ?_
                rw [foundOld, found]
                simp [weight, Guard.mode, Guard.spinrwlock]
          · cases assigned
  | valued mode oldLock oldGuard =>
      cases guard with
      | plain => cases assigned
      | valued other spinrwlock inner =>
          change oldGuard = oldLock at backedOld
          change inner = spinrwlock at backed
          subst backedOld backed
          simp only [Guard.assigned] at assigned
          split at assigned
          · rename_i sameMode
            cases assigned
            subst sameMode
            intro conserved
            have placed : ((state.put target (some (.valued mode inner oldGuard))).put source
                (some (.valued mode none inner))).objects target =
                  some (.valued mode inner oldGuard) := by
              simp [State.put, Function.update_of_ne different]
            cases inner with
            | some id =>
                -- both guards held the lock, and only one of them is left
                have held := conserved.inner target mode id oldGuard placed
                subst held
                refine tracked.loses room mode id different ?_ conserved
                rw [foundOld, found]
                simp [weight, Guard.mode, Guard.spinrwlock]
            | none =>
                cases oldGuard with
                | none => exact nonempty ⟨rfl, fun _ => rfl⟩
                | some id =>
                    refine tracked.loses room mode id different ?_ conserved
                    rw [foundOld, found]
                    simp [weight, Guard.mode, Guard.spinrwlock]
          · cases assigned

/-- From guards that are tracked, a step conserves the locks exactly when it is harmless. -/
theorem State.Tracked.conserved_iff {label : Label Object Id} (tracked : state.Tracked)
    (room : Fintype.card Object + 1 < 2 ^ 62) (moved : state.move label = some next) :
    next.Conserved ↔ Harmless state label := by
  constructor
  · intro conserved
    by_contra harmful
    cases label with
    | empty | acquire | destroy => exact harmful trivial
    | moveConstruct target source => exact tracked.harmful_construct harmful moved conserved
    | moveAssign target source => exact tracked.harmful_assign (by omega) harmful moved conserved
  · intro harmless
    exact (tracked.step room harmless moved).conserved (by omega)

/-! ## Every run -/

theorem tracked_of_harmless (room : Fintype.card Object + 1 < 2 ^ 62)
    (reachable : (machine Object Id).Reachable Harmless state) : state.Tracked := by
  refine reachable.invariant ?_ ?_
  · intro first started
    rw [show first = .initial from started]
    exact tracked_initial
  · intro state label next tracked harmless moved
    exact tracked.step room harmless moved

/-- Where an object can be in the memory of a 64-bit machine: a guard takes at
least one word of eight bytes. -/
def Address : Type := Fin (2 ^ 61)

instance : DecidableEq Address := inferInstanceAs (DecidableEq (Fin (2 ^ 61)))

instance : Fintype Address := inferInstanceAs (Fintype (Fin (2 ^ 61)))

theorem address_room : Fintype.card Address + 1 < 2 ^ 62 := by
  have words : Fintype.card Address = 2 ^ 61 := Fintype.card_fin _
  rw [words]
  decide

omit [DecidableEq Object] [Fintype Object] in
/-- While every move is harmless, the word of every lock counts its live guards
and a guard that can be dereferenced holds its lock.  The first step that is
not harmless ends that. -/
theorem conserved_of_harmless {state : State Address Id}
    (reachable : (machine Address Id).Reachable Harmless state) :
    state.Conserved ∧ ∀ label next, state.move label = some next →
      (next.Conserved ↔ Harmless state label) := by
  have tracked : state.Tracked := tracked_of_harmless address_room reachable
  have room : Fintype.card Address < 2 ^ 62 := by
    have bound := address_room
    omega
  exact ⟨tracked.conserved room, fun label next moved =>
    tracked.conserved_iff address_room moved⟩

/-- A reader is taken, its guard is moved, and the lock is tried for writing. -/
theorem conserved_of_harmless_moved :
    ∃ state : State Address Unit, (machine Address Unit).Reachable Harmless state ∧
      (counted (state.locks ()).state .read = 1 ∧ state.objects ⟨0, by decide⟩ ≠ none) ∧
      (state.Conserved ∧ ∀ label next, state.move label = some next →
        (next.Conserved ↔ Harmless state label)) := by
  obtain ⟨state, reachable, facts⟩ :=
    Machine.reachable_of_exec (machine Address Unit) Harmless .initial
      [.acquire ⟨0, by decide⟩ false .read () [false, false],
        .moveConstruct ⟨1, by decide⟩ ⟨0, by decide⟩,
        .acquire ⟨2, by decide⟩ true .tryWrite () [false]]
      (fun state => counted (state.locks ()).state .read = 1 ∧
        state.objects ⟨0, by decide⟩ ≠ none)
      rfl ⟨_, rfl, by decide, by decide⟩
  exact ⟨state, reachable, facts, conserved_of_harmless reachable⟩

/-- A guard of `spinrwlock<T>` is moved: the new guard can be dereferenced, and
once what is left of the old one is destroyed nobody holds the lock. -/
theorem moved_guard_unbacked : ¬ ∀ state : State Address Unit,
    (machine Address Unit).Reachable Machine.free state → state.Conserved := by
  intro conserved
  obtain ⟨state, reachable, placed⟩ :=
    Machine.reachable_of_exec (machine Address Unit) Machine.free .initial
      [.acquire ⟨0, by decide⟩ true .write () [false, false, false, false],
        .moveConstruct ⟨1, by decide⟩ ⟨0, by decide⟩, .destroy ⟨0, by decide⟩]
      (fun state => (state.locks ()).state = 0#64 ∧
        state.objects ⟨1, by decide⟩ = some (.valued .write (some ()) none))
      rfl ⟨_, rfl, by decide, by decide⟩
  have wrong := (conserved state reachable).inner _ _ _ _ placed.2
  cases wrong

end Asco.Sync.SpinRwLock.Guards
