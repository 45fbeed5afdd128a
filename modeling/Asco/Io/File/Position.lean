import Asco.Io.File

namespace Asco.Io.Files

open Foundation Foundation.Machine Asco.Core.Os

/-! # Where the calls are meant to take the position

Beside the files run positions that are natural numbers, on which a seek before
the start of the file stops at the start.
-/

/-- The position of each file and the offsets at which the reads and writes took place. -/
structure Cursors (Object : Type) where
  positions : Object → Option ℕ
  offsets : List ℕ

/-- `base + offset`, or the start of the file where that lies before it.  Positive offsets
behind the end give the end. -/
def aim (position : ℕ) (offset : Int64) (size : Word) : SeekMode → ℕ
  | .set => offset.toInt.toNat
  | .current => (position + offset.toInt).toNat
  | .end => (size.toNat + min offset.toInt 0).toNat

def behind (position : ℕ) : Except (Failed TransferFailure) Word → ℕ
  | .ok count => position + count.toNat
  | .error _ => position

variable {Object : Type} [DecidableEq Object]

namespace Cursors

def put (cursors : Cursors Object) (this : Object) (position : Option ℕ) : Cursors Object :=
  { cursors with positions := Function.update cursors.positions this position }

def transfer (cursors : Cursors Object) (this : Object)
    (result : Except (Failed TransferFailure) Word) : Cursors Object :=
  { cursors.put this ((cursors.positions this).map (behind · result)) with
    offsets := cursors.offsets ++ (cursors.positions this).toList }

@[simp] theorem transfer_self (cursors : Cursors Object) (this : Object)
    (result : Except (Failed TransferFailure) Word) :
    (cursors.transfer this result).positions this =
      (cursors.positions this).map (behind · result) := Function.update_self ..

def call (cursors : Cursors Object) : FileCall Object → Cursors Object
  | .construct this => cursors.put this (some 0)
  | .fromHandle this _ => cursors.put this (some 0)
  | .fileOpen this _ (.ok _) => cursors.put this (some 0)
  | .fileOpen _ _ (.error _) => cursors
  | .open this _ (.ok _) => cursors.put this (some 0)
  | .open _ _ (.error _) => cursors
  | .moveConstruct this rhs => cursors.put this (cursors.positions rhs)
  | .moveAssign this rhs => cursors.put this (cursors.positions rhs)
  | .close _ => cursors
  | .seek this offset size mode =>
      cursors.put this ((cursors.positions this).map (aim · offset size mode))
  | .read this _ _ result => cursors.transfer this result
  | .write this _ result => cursors.transfer this result
  | .destroy this => cursors.put this none

variable (Object) in
def machine : Machine (Cursors Object) (FileCall Object) where
  start cursors := cursors = { positions := fun _ => none, offsets := [] }
  move cursors label := some (cursors.call label)

end Cursors

variable (Object) in
/-- The files beside the positions. -/
def system : Machine (Files Object × Cursors Object) (FileCall Object) :=
  product (machine Object) (Cursors.machine Object)

def transferOffset : IoRequest → Option ℕ
  | .read request => some request.offset.toNat
  | .write request => some request.offset.toNat
  | .open _ => none
  | .close _ => none

def Matches (objects : Object → Option File) (positions : Object → Option ℕ) : Prop :=
  ∀ object, (objects object).map (fun file => file.fptr.toInt) =
    (positions object).map (Nat.cast : ℕ → ℤ)

/-- No signed operation has overflowed, every file is at its position, and every request had
the offset that was meant. -/
structure Intended (state : Files Object × Cursors Object) : Prop where
  exact : state.1.overflowed = false
  position : Matches state.1.objects state.2.positions
  offsets : state.1.requests.filterMap transferOffset = state.2.offsets

/-- The size of a file is less than `2 ^ 63`. -/
def Sized : FileCall Object → Prop
  | .seek _ _ size _ => size.toNat < 2 ^ 63
  | _ => True

instance : DecidablePred (Sized : FileCall Object → Prop)
  | .seek _ _ size _ => inferInstanceAs (Decidable (size.toNat < 2 ^ 63))
  | .construct _ | .fromHandle _ _ | .fileOpen _ _ _ | .open _ _ _ | .moveConstruct _ _
  | .moveAssign _ _ | .close _ | .read _ _ _ _ | .write _ _ _ | .destroy _ => isTrue trivial

/-- Neither the negation of the offset nor its sum with the position overflows. -/
def Reaches (fptr offset : Int64) : SeekMode → Prop
  | .set => True
  | .current => offset.toInt ≠ -2 ^ 63 ∧ fptr.toInt + offset.toInt < 2 ^ 63
  | .end => offset.toInt ≠ -2 ^ 63

instance (fptr offset : Int64) : DecidablePred (Reaches fptr offset)
  | .set => isTrue trivial
  | .current => inferInstanceAs (Decidable (_ ∧ _))
  | .end => inferInstanceAs (Decidable (_ ≠ _))

/-- The offset of a seek can be negated and the position that it gives is less than `2 ^ 63`,
as is the one behind what has been read or written. -/
def Spared (files : Files Object) : FileCall Object → Prop
  | .seek this offset _ mode => ∀ file ∈ files.objects this, Reaches file.fptr offset mode
  | .read this _ _ (.ok count) =>
      ∀ file ∈ files.objects this, file.fptr.toInt + count.toNat < 2 ^ 63
  | .write this _ (.ok count) =>
      ∀ file ∈ files.objects this, file.fptr.toInt + count.toNat < 2 ^ 63
  | _ => True

instance : DecidableRel (Spared : Files Object → FileCall Object → Prop)
  | files, .seek this offset _ mode =>
      inferInstanceAs (Decidable (∀ file ∈ files.objects this, Reaches file.fptr offset mode))
  | files, .read this _ _ (.ok count) =>
      inferInstanceAs (Decidable (∀ file ∈ files.objects this,
        file.fptr.toInt + count.toNat < 2 ^ 63))
  | files, .write this _ (.ok count) =>
      inferInstanceAs (Decidable (∀ file ∈ files.objects this,
        file.fptr.toInt + count.toNat < 2 ^ 63))
  | _, .read _ _ _ (.error _) | _, .write _ _ (.error _) => isTrue trivial
  | _, .construct _ | _, .fromHandle _ _ | _, .fileOpen _ _ _ | _, .open _ _ _
  | _, .moveConstruct _ _ | _, .moveAssign _ _ | _, .close _ | _, .destroy _ => isTrue trivial

/-! ## The position that one call leaves -/

section

variable {fptr offset arrived : Int64} {size : Word} {position : ℕ}

theorem sought_set_iff :
    File.sought fptr offset size .set = some arrived ↔
      arrived.toInt = aim position offset size .set := by
  simp only [File.sought, aim, Option.some.injEq, Signed.neg_iff, ← Int64.toInt_inj]
  split
  · rw [Int64.toInt_zero]
    omega
  · omega

/-- The comparison with the negation keeps a sum at or above zero. -/
theorem clamped_iff {base staged : Int64} {sum : Option Int64}
    (summed : sum = some arrived ↔ arrived.toInt = base.toInt + staged.toInt) :
    ((Signed.neg staged).bind fun distance => if base < distance then some 0 else sum) =
        some arrived ↔
      staged.toInt ≠ -2 ^ 63 ∧ arrived.toInt = (base.toInt + staged.toInt).toNat := by
  rw [Option.bind_eq_some_iff]
  have compared (distance : Int64) (negated : distance.toInt = -staged.toInt) :
      (if base < distance then some 0 else sum) = some arrived ↔
        arrived.toInt = (base.toInt + staged.toInt).toNat := by
    simp only [Int64.lt_iff_toInt_lt, negated]
    split
    · rw [Option.some.injEq, ← Int64.toInt_inj, Int64.toInt_zero]
      omega
    · rw [summed]
      omega
  constructor
  · rintro ⟨distance, negated, rest⟩
    exact ⟨Signed.neg_isSome_iff.mp (negated ▸ rfl),
      (compared distance (Signed.neg_eq_some_iff.mp negated)).mp rest⟩
  · rintro ⟨negatable, arrives⟩
    obtain ⟨distance, negated⟩ := Option.isSome_iff_exists.mp (Signed.neg_isSome_iff.mpr negatable)
    exact ⟨distance, negated,
      (compared distance (Signed.neg_eq_some_iff.mp negated)).mpr arrives⟩

theorem sought_current_iff (found : fptr.toInt = position) :
    File.sought fptr offset size .current = some arrived ↔
      Reaches fptr offset .current ∧ arrived.toInt = aim position offset size .current := by
  simp only [File.sought, aim, Reaches, Signed.neg_iff, ← found]
  by_cases negative : offset.toInt < 0
  · rw [if_pos negative, Option.bind_eq_bind,
      clamped_iff Signed.add_eq_some_iff]
    have below := fptr.toInt_lt
    omega
  · rw [if_neg negative, Signed.add_eq_some_iff]
    have below := arrived.toInt_lt
    omega

theorem sought_end_iff (sized : size.toNat < 2 ^ 63) :
    File.sought fptr offset size .end = some arrived ↔
      Reaches fptr offset .end ∧ arrived.toInt = aim position offset size .end := by
  simp only [File.sought, aim, Reaches, Option.bind_eq_bind]
  have length := Signed.toInt_ofBitVec_of_lt sized
  have staged : (if 0 < offset then 0 else offset).toInt = min offset.toInt 0 := by
    simp only [Int64.lt_iff_toInt_lt, apply_ite Int64.toInt, Int64.toInt_zero]
    split <;> omega
  rw [clamped_iff (Signed.add_eq_some_iff.trans (by rw [Int.add_comm])), length, staged]
  omega

theorem sought_iff (found : fptr.toInt = position) (sized : size.toNat < 2 ^ 63)
    (mode : SeekMode) :
    File.sought fptr offset size mode = some arrived ↔
      Reaches fptr offset mode ∧ arrived.toInt = aim position offset size mode := by
  cases mode with
  | set => exact sought_set_iff.trans (iff_of_eq (true_and _)).symm
  | current => exact sought_current_iff found
  | «end» => exact sought_end_iff sized

/-- A seek to a position that exists does not overflow. -/
theorem sought_exists (found : fptr.toInt = position) (sized : size.toNat < 2 ^ 63)
    {mode : SeekMode} (reaches : Reaches fptr offset mode) :
    ∃ arrived, File.sought fptr offset size mode = some arrived := by
  refine ⟨.ofInt (aim position offset size mode), (sought_iff found sized mode).mpr ⟨reaches, ?_⟩⟩
  refine Int64.toInt_ofInt_of_le (le_trans (by decide) (Int.natCast_nonneg _)) ?_
  have positionBound := fptr.toInt_lt
  have offsetBound := offset.toInt_lt
  cases mode with
  | set => simp only [aim]; omega
  | current =>
      simp only [Reaches] at reaches
      simp only [aim]
      omega
  | «end» => simp only [aim]; omega

end

/-! ## Every call keeps files and positions together -/

variable {files : Files Object} {cursors : Cursors Object} {objects : Object → Option File}
  {positions : Object → Option ℕ} {this object : Object} {file other : File} {position : ℕ}

omit [DecidableEq Object] in
theorem Matches.of_found (matching : Matches objects positions) (found : objects this = some file) :
    ∃ position : ℕ, positions this = some position ∧ file.fptr.toInt = position := by
  have here := matching this
  rw [found, Option.map_some] at here
  obtain ⟨position, known, same⟩ := Option.map_eq_some_iff.mp here.symm
  exact ⟨position, known, same.symm⟩

theorem Matches.update (matching : Matches objects positions) {left : Option File}
    {right : Option ℕ}
    (here : left.map (fun file => file.fptr.toInt) = right.map (Nat.cast : ℕ → ℤ)) :
    Matches (Function.update objects this left) (Function.update positions this right) := by
  intro object
  by_cases same : object = this
  · subst same
    rwa [Function.update_self, Function.update_self]
  · rw [Function.update_of_ne same, Function.update_of_ne same]
    exact matching object

/-- A file may be replaced by one at its position. -/
theorem Matches.replace (matching : Matches objects positions) (found : objects this = some file)
    (same : other.fptr = file.fptr) :
    Matches (Function.update objects this (some other)) positions := by
  rw [← Function.update_eq_self this positions]
  refine matching.update ?_
  rw [← matching this, found, Option.map_some, Option.map_some, same]

/-- What an object has takes its place in another one, and what is left stays where it was. -/
theorem Matches.move (matching : Matches objects positions) {rhs : Object}
    (found : objects rhs = some file) (differ : rhs ≠ this) :
    Matches (Function.update (Function.update objects this (some file)) rhs (some file.movedFrom))
      (Function.update positions this (positions rhs)) := by
  have taken : Matches (Function.update objects this (some file))
      (Function.update positions this (positions rhs)) :=
    matching.update (found ▸ matching rhs)
  have left : Function.update objects this (some file) rhs = some file := by
    rw [Function.update_of_ne differ, found]
  exact taken.replace left rfl

theorem offset_of (found : file.fptr.toInt = position) : file.offset.toNat = position := by
  have value := Signed.toNat_toBitVec_of_nonneg (found ▸ Int.natCast_nonneg position)
  rw [found] at value
  exact Int.natCast_inj.mp value

variable {offset : Int64} {size data : Word} {mode : SeekMode} {request : IoRequest}
  {count : Word} {result : Except (Failed TransferFailure) Word} {next : Files Object}
  {label : FileCall Object} {state : Files Object × Cursors Object}

theorem Intended.put (intended : Intended (files, cursors)) {left : Option File}
    {right : Option ℕ}
    (here : left.map (fun file => file.fptr.toInt) = right.map (Nat.cast : ℕ → ℤ)) :
    Intended (files.put this left, cursors.put this right) :=
  { intended with position := intended.position.update here }

theorem Intended.replace (intended : Intended (files, cursors))
    (found : files.objects this = some file) (same : other.fptr = file.fptr) :
    Intended (files.put this (some other), cursors) :=
  { intended with position := intended.position.replace found same }

omit [DecidableEq Object] in
theorem Intended.closing (intended : Intended (files, cursors)) (closing : List CloseRequest) :
    Intended ({ files with closing }, cursors) := { intended with }

/-- Closing a file leaves its position. -/
theorem Intended.closeAs (intended : Intended (files, cursors))
    (found : files.objects this = some file) (same : other.fptr = file.fptr) :
    Intended (files.closeAs this file (some other), cursors) :=
  (intended.replace found same).closing _

omit [DecidableEq Object] in
/-- A request to open is none of those that take place at an offset. -/
theorem Intended.submit_open (intended : Intended (files, cursors)) (request : OpenRequest) :
    Intended (files.submit (.open request), cursors) :=
  { intended with
    offsets := by
      rw [submit, List.filterMap_append, intended.offsets]
      exact List.append_nil _ }

omit [DecidableEq Object] in
theorem checkValid_found (valid : files.checkValid this = some file) :
    files.objects this = some file := (Option.filter_eq_some_iff.mp valid).1

theorem Intended.seek_iff (intended : Intended (files, cursors)) (sized : size.toNat < 2 ^ 63)
    (moved : files.call (.seek this offset size mode) = some next) :
    Intended (next, cursors.call (.seek this offset size mode)) ↔
      Spared files (.seek this offset size mode) := by
  obtain ⟨file, valid, sought⟩ := Option.bind_eq_some_iff.mp moved
  have found := checkValid_found valid
  obtain ⟨position, known, here⟩ := intended.position.of_found found
  have spared : Spared files (.seek this offset size mode) ↔ Reaches file.fptr offset mode := by
    simp only [Spared, found, Option.mem_some_iff, forall_eq']
  rw [spared]
  cases arrives : File.sought file.fptr offset size mode with
  | some arrived =>
      obtain ⟨reaches, same⟩ := (sought_iff here sized mode).mp arrives
      simp only [File.seek, arrives, Option.map_some, Option.some.injEq] at sought
      subst sought
      refine iff_of_true (intended.put ?_) reaches
      rw [known, Option.map_some, Option.map_some, Option.map_some, same]
  | none =>
      simp only [File.seek, arrives, Option.map_none, Option.some.injEq] at sought
      subst sought
      refine iff_of_false (fun after => Bool.noConfusion after.exact) fun reaches => ?_
      obtain ⟨arrived, computed⟩ := sought_exists here sized reaches
      cases arrives.symm.trans computed

/-- A transfer at the position of the file, with what the position becomes. -/
theorem Intended.transfer_iff (intended : Intended (files, cursors))
    (found : files.objects this = some file)
    (sent : transferOffset request = some file.offset.toNat) :
    Intended ((files.submit request).put this (some (file.advance result)),
        cursors.transfer this result) ↔
      ∀ count, result = .ok count → file.fptr.toInt + count.toNat < 2 ^ 63 := by
  obtain ⟨position, known, here⟩ := intended.position.of_found found
  have offsets : (files.requests ++ [request]).filterMap transferOffset =
      cursors.offsets ++ (cursors.positions this).toList := by
    rw [List.filterMap_append, intended.offsets, known, List.filterMap_cons, sent, offset_of here]
    rfl
  have advanced : ((some (file.advance result)).map fun file => file.fptr.toInt) =
      ((cursors.positions this).map (behind · result)).map (Nat.cast : ℕ → ℤ) ↔
        ∀ count, result = .ok count → file.fptr.toInt + count.toNat < 2 ^ 63 := by
    rw [known, Option.map_some, Option.map_some, Option.map_some, Option.some.injEq]
    cases result with
    | error failed => exact iff_of_true here nofun
    | ok count =>
        have low : 0 ≤ file.fptr.toInt := here ▸ Int.natCast_nonneg position
        have exact := Signed.toInt_advance_iff low count
        rw [here] at exact
        simp only [Except.ok.injEq, forall_eq', here]
        exact exact
  rw [← advanced]
  constructor
  · intro after
    have there := after.position this
    simpa only [put_self, Cursors.transfer_self] using there
  · intro here
    exact ⟨intended.exact, intended.position.update here, offsets⟩

omit [DecidableEq Object] in
theorem vacant_eq_some (files : Files Object) (this : Object) :
    files.vacant this = some () ↔ files.objects this = none := by
  rw [vacant, ← Option.not_isSome_iff_eq_none]
  split <;> simp_all

/-- The files stay with the positions through every call but one that the condition excludes. -/
theorem Intended.call_iff (intended : Intended (files, cursors)) (sized : Sized label)
    (moved : files.call label = some next) :
    Intended (next, cursors.call label) ↔ Spared files label := by
  cases label with
  | construct this =>
      obtain ⟨_, _, same⟩ := Option.bind_eq_some_iff.mp moved
      cases same
      exact iff_of_true (intended.put rfl) trivial
  | fromHandle this handle =>
      obtain ⟨_, _, same⟩ := Option.bind_eq_some_iff.mp moved
      cases same
      exact iff_of_true (intended.put rfl) trivial
  | fileOpen this request result =>
      obtain ⟨_, _, rest⟩ := Option.bind_eq_some_iff.mp moved
      have sent := intended.submit_open request
      cases result with
      | ok handle =>
          cases rest
          exact iff_of_true (sent.put rfl) trivial
      | error failed =>
          cases rest
          exact iff_of_true sent trivial
  | «open» this request result =>
      obtain ⟨file, found, same⟩ := Option.bind_eq_some_iff.mp moved
      cases same
      refine iff_of_true ?_ trivial
      cases result with
      | ok handle => exact ((intended.put rfl).closing _).submit_open request
      | error failed =>
          have closed : Intended (files.closeAs this file (some file.close.1), cursors) :=
            intended.closeAs found rfl
          exact closed.submit_open request
  | moveConstruct this rhs =>
      obtain ⟨_, vacant, rest⟩ := Option.bind_eq_some_iff.mp moved
      obtain ⟨file, found, same⟩ := Option.bind_eq_some_iff.mp rest
      cases same
      have differ : rhs ≠ this := by
        rintro rfl
        rw [(vacant_eq_some files rhs).mp vacant] at found
        contradiction
      exact iff_of_true { intended with position := intended.position.move found differ } trivial
  | moveAssign this rhs =>
      obtain ⟨file, found, rest⟩ := Option.bind_eq_some_iff.mp moved
      obtain ⟨source, there, assigned⟩ := Option.bind_eq_some_iff.mp rest
      refine iff_of_true ?_ trivial
      split at assigned
      · rename_i same
        subst same
        cases assigned
        simpa only [Cursors.call, Cursors.put, Function.update_eq_self] using intended
      · rename_i differ
        cases assigned
        exact { intended with position := intended.position.move there (Ne.symm differ) }
  | close this =>
      obtain ⟨file, found, same⟩ := Option.bind_eq_some_iff.mp moved
      cases same
      exact iff_of_true (intended.closeAs found rfl) trivial
  | seek this offset size mode => exact intended.seek_iff sized moved
  | read this data size result =>
      obtain ⟨file, valid, same⟩ := Option.bind_eq_some_iff.mp moved
      cases same
      have found := checkValid_found valid
      refine (intended.transfer_iff found rfl).trans ?_
      cases result with
      | ok count => simp only [Spared, found, Option.mem_some_iff, forall_eq', Except.ok.injEq]
      | error failed => exact iff_of_true nofun trivial
  | write this buffer result =>
      obtain ⟨file, valid, same⟩ := Option.bind_eq_some_iff.mp moved
      cases same
      have found := checkValid_found valid
      refine (intended.transfer_iff found rfl).trans ?_
      cases result with
      | ok count => simp only [Spared, found, Option.mem_some_iff, forall_eq', Except.ok.injEq]
      | error failed => exact iff_of_true nofun trivial
  | destroy this =>
      obtain ⟨file, found, same⟩ := Option.bind_eq_some_iff.mp moved
      cases same
      exact iff_of_true ((intended.put rfl).closing _) trivial

theorem intended_step_iff (intended : Intended state) (sized : Sized label)
    {after : Files Object × Cursors Object}
    (moved : (system Object).move state label = some after) :
    Intended after ↔ Spared state.1 label := by
  obtain ⟨called, followed⟩ := product_move_eq_some.mp moved
  obtain ⟨files, cursors⟩ := state
  obtain ⟨next, after⟩ := after
  cases followed
  have called : (if files.overflowed then none else files.call label) = some next := called
  rw [intended.exact] at called
  exact intended.call_iff sized called

omit [DecidableEq Object] in
theorem Intended.nonneg (intended : Intended state) (found : state.1.objects object = some file) :
    0 ≤ file.fptr := by
  obtain ⟨position, _, here⟩ := intended.position.of_found found
  rw [Signed.nonneg_iff, here]
  exact Int.natCast_nonneg position

/-- While no seek is asked for an offset without a negation and no position would reach
`2 ^ 63`, no signed operation overflows and every file is at the position that was meant.
The first call that does otherwise takes a file from its position or overflows. -/
theorem positions_intended
    (reachable : (system Object).Reachable (fun state label => Sized label ∧ Spared state.1 label)
      state) :
    Intended state ∧ (∀ object file, state.1.objects object = some file → 0 ≤ file.fptr) ∧
      ∀ label after, Sized label → (system Object).move state label = some after →
        (Intended after ↔ Spared state.1 label) := by
  have intended : Intended state := by
    apply reachable.invariant
    · rintro ⟨files, cursors⟩ ⟨rfl, rfl⟩
      exact ⟨rfl, fun _ => rfl, rfl⟩
    · intro state label next intended allowed moved
      exact (intended_step_iff intended allowed.1 moved).mpr allowed.2
  exact ⟨intended, fun object file found => intended.nonneg found,
    fun label after sized moved => intended_step_iff intended sized moved⟩

/-- Two bytes before the end of a file of six bytes, after a read and a seek before the start. -/
theorem positions_intended_end : ∃ (state : Files Unit × Cursors Unit) (file : File),
    (system Unit).Reachable (fun state label => Sized label ∧ Spared state.1 label) state ∧
      state.1.objects () = some file ∧ file.fptr = 4 ∧ 0 ≤ file.fptr ∧
      state.2.offsets = [2, 0] ∧ Intended state := by
  obtain ⟨state, reachable, file, found, there, offsets⟩ :=
    reachable_of_exec (system Unit) (fun state label => Sized label ∧ Spared state.1 label)
      (.initial, { positions := fun _ => none, offsets := [] })
      [.fromHandle () 5, .seek () 2 6 .set, .read () 0 3 (.ok 3), .seek () (-10) 6 .current,
        .read () 0 2 (.ok 2), .seek () (-2) 6 .end]
      (fun state => ∃ file, state.1.objects () = some file ∧ file.fptr = 4 ∧
        state.2.offsets = [2, 0])
      ⟨rfl, rfl⟩ ⟨_, rfl, _, rfl, rfl, rfl⟩
  have positions := positions_intended reachable
  exact ⟨state, file, reachable, found, there, positions.2.1 () file found, offsets,
    positions.1⟩

/-- The least offset moves back from the start of the file, and has no negation. -/
theorem seek_overflows : ∃ state : Files Unit × Cursors Unit,
    (system Unit).Reachable (fun _ label => Sized label) state ∧ state.1.overflowed = true ∧
      state.2.positions () = some 0 ∧ ¬ Intended state := by
  obtain ⟨state, reachable, overflowed, position⟩ :=
    reachable_of_exec (system Unit) (fun _ label => Sized label)
      (.initial, { positions := fun _ => none, offsets := [] })
      [.fromHandle () 5, .seek () Int64.minValue 6 .current]
      (fun state => state.1.overflowed = true ∧ state.2.positions () = some 0)
      ⟨rfl, rfl⟩ ⟨_, rfl, rfl, rfl⟩
  refine ⟨state, reachable, overflowed, position, fun intended => ?_⟩
  rw [intended.exact] at overflowed
  contradiction

end Asco.Io.Files
