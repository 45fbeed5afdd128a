import Mathlib.Data.Int.Notation
import Mathlib.Data.Nat.Notation
import Mathlib.Tactic.ByContra

namespace Asco.Core.Os

/-! # Requests of the I/O adapter

The four kinds of request, their identifiers, and what the numbers that the
kernel answers with mean to the one who asked.
-/

abbrev Word := BitVec 64

abbrev IoHandle := Word

abbrev IoRequestId := Word

inductive OpenFlags where
  | read | write | create | truncate | append | exclusive | temporary
deriving DecidableEq

inductive CreateMode where
  | read | write | execute | readShare | writeShare | executeShare
deriving DecidableEq

/-- `bit_of` of the two enumerations. -/
def OpenFlags.bit (flag : OpenFlags) : Word := 1#64 <<< flag.ctorIdx

def CreateMode.bit (mode : CreateMode) : Word := 1#64 <<< mode.ctorIdx

/-- `flags::contains`. -/
def contains (flags bit : Word) : Bool := flags &&& bit == bit

/-- What a request needs of an `io::buffer`. -/
structure Buffer where
  data : Word
  size : Word
  cursor : Word
deriving DecidableEq

/-- The timestamp is the count of its `time_since_epoch`. -/
structure OpenRequest where
  pathData : Word
  pathSize : Word
  flags : Word
  modes : Word
  timestamp : Word
deriving DecidableEq

structure CloseRequest where
  handle : IoHandle
deriving DecidableEq

structure ReadRequest where
  handle : IoHandle
  offset : Word
  buffer : Buffer
  size : Word
deriving DecidableEq

structure WriteRequest where
  handle : IoHandle
  offset : Word
  buffer : Buffer
deriving DecidableEq

inductive IoRequest where
  | open (request : OpenRequest)
  | close (request : CloseRequest)
  | read (request : ReadRequest)
  | write (request : WriteRequest)
deriving DecidableEq

def OpenRequest.genRequestId (request : OpenRequest) : IoRequestId :=
  request.pathData ^^^ request.pathSize ^^^ request.flags ^^^ request.modes ^^^ request.timestamp

def CloseRequest.genRequestId (request : CloseRequest) : IoRequestId := request.handle

def ReadRequest.genRequestId (request : ReadRequest) : IoRequestId :=
  request.handle ^^^ request.offset ^^^ request.buffer.data ^^^ request.size

/-- The offset does not take part. -/
def WriteRequest.genRequestId (request : WriteRequest) : IoRequestId :=
  request.handle ^^^ request.buffer.data ^^^ request.buffer.size

def IoRequest.genRequestId : IoRequest → IoRequestId
  | .open request => request.genRequestId
  | .close request => request.genRequestId
  | .read request => request.genRequestId
  | .write request => request.genRequestId

/-! ## What the kernel is asked -/

/-- The operation an entry of the submission queue is prepared with. -/
inductive Prepared where
  | openat (path : Word) (flags mode : BitVec 32)
  | close (fd : BitVec 32)
  | read (fd : BitVec 32) (address count offset : Word)
  | write (fd : BitVec 32) (address count offset : Word)
deriving DecidableEq

def fdFromIoHandle (handle : IoHandle) : BitVec 32 := handle.setWidth 32

/-- The flags of `openat`: `O_RDWR`, `O_WRONLY`, `O_RDONLY`, `O_CREAT`,
`O_TRUNC`, `O_APPEND`, `O_EXCL` and `O_TMPFILE`. -/
def OpenRequest.openatFlags (request : OpenRequest) : BitVec 32 :=
  let has (flag : OpenFlags) := contains request.flags flag.bit
  (if has .read && has .write then 2 else if has .write then 1 else 0) |||
    (if has .create then 0x40 else 0) ||| (if has .truncate then 0x200 else 0) |||
    (if has .append then 0x400 else 0) ||| (if has .exclusive then 0x80 else 0) |||
    (if has .temporary then 0x410000 else 0)

def OpenRequest.openatMode (request : OpenRequest) : BitVec 32 :=
  let has (mode : CreateMode) := contains request.modes mode.bit
  (if has .read then 1 <<< 8 else 0) ||| (if has .write then 1 <<< 7 else 0) |||
    (if has .execute then 1 <<< 6 else 0) ||| (if has .readShare then 9 <<< 2 else 0) |||
    (if has .writeShare then 9 <<< 1 else 0) ||| (if has .executeShare then 9 else 0)

/-- The `prep_fn` of each `submit_*`; the path goes in as a copy. -/
def IoRequest.prepare : IoRequest → Prepared
  | .open request => .openat request.pathData request.openatFlags request.openatMode
  | .close request => .close (fdFromIoHandle request.handle)
  | .read request =>
      .read (fdFromIoHandle request.handle) request.buffer.data request.size request.offset
  | .write request =>
      .write (fdFromIoHandle request.handle) request.buffer.data request.buffer.cursor
        request.offset

/-! ## What comes back -/

inductive OpenFailure where
  | notFound | permissionDenied | alreadyExists | invalidPath | tooManyOpenFiles | other
deriving DecidableEq

/-- The failures of `read_failed` and of `write_failed`. -/
inductive TransferFailure where
  | invalidHandle | badBuffer | permissionDenied | other
deriving DecidableEq

structure Failed (Kind : Type) where
  type : Kind
  rawCode : ℤ
deriving DecidableEq

def OpenFailure.ofErrno : ℕ → OpenFailure
  | 2 => .notFound
  | 13 => .permissionDenied
  | 17 => .alreadyExists
  | 36 | 20 | 21 => .invalidPath
  | 24 | 23 => .tooManyOpenFiles
  | _ => .other

def TransferFailure.ofErrno : ℕ → TransferFailure
  | 9 => .invalidHandle
  | 14 => .badBuffer
  | 13 => .permissionDenied
  | _ => .other

/-- A negative result is an error number. -/
def resultOf {Kind : Type} (ofErrno : ℕ → Kind) (res : ℤ) : Except (Failed Kind) Word :=
  if res < 0 then .error { type := ofErrno (-res).toNat, rawCode := res }
  else .ok (BitVec.ofInt 64 res)

def completeOpen : ℤ → Except (Failed OpenFailure) IoHandle := resultOf OpenFailure.ofErrno

def completeRead : ℤ → Except (Failed TransferFailure) Word := resultOf TransferFailure.ofErrno

def completeWrite : ℤ → Except (Failed TransferFailure) Word := resultOf TransferFailure.ofErrno

inductive Outcome where
  | opened (result : Except (Failed OpenFailure) IoHandle)
  | closed
  | read (result : Except (Failed TransferFailure) Word)
  | written (result : Except (Failed TransferFailure) Word)

/-- The `complete_*` of the request. -/
def IoRequest.outcome (res : ℤ) : IoRequest → Outcome
  | .open _ => .opened (completeOpen res)
  | .close _ => .closed
  | .read _ => .read (completeRead res)
  | .write _ => .written (completeWrite res)

/-! ## When two identifiers differ -/

/-- The words that go into the identifier. -/
def IoRequest.fields : IoRequest → List Word
  | .open request =>
      [request.pathData, request.pathSize, request.flags, request.modes, request.timestamp]
  | .close request => [request.handle]
  | .read request => [request.handle, request.offset, request.buffer.data, request.size]
  | .write request => [request.handle, request.buffer.data, request.buffer.size]

/-- How many of the words have the bit. -/
def ones (words : List Word) (bit : ℕ) : ℕ := words.countP fun word => word.getLsbD bit

/-- At some bit position the two requests have an odd number of ones between them. -/
def IoRequest.Tells (one two : IoRequest) : Prop :=
  ∃ bit : Fin 64, ones (one.fields ++ two.fields) bit % 2 = 1

instance (one two : IoRequest) : Decidable (one.Tells two) :=
  inferInstanceAs (Decidable (∃ bit : Fin 64, ones (one.fields ++ two.fields) bit % 2 = 1))

theorem ones_cons (word : Word) (rest : List Word) (bit : ℕ) :
    ones (word :: rest) bit = ones rest bit + if word.getLsbD bit then 1 else 0 := by
  simp only [ones, List.countP_cons]

theorem ones_append (one two : List Word) (bit : ℕ) :
    ones (one ++ two) bit = ones one bit + ones two bit := List.countP_append

theorem getLsbD_xor_iff (words : List Word) (bit : ℕ) :
    (words.foldr (· ^^^ ·) 0#64).getLsbD bit = true ↔ ones words bit % 2 = 1 := by
  induction words with
  | nil => simp [ones]
  | cons word rest ih =>
      rw [List.foldr_cons, BitVec.getLsbD_xor, ones_cons]
      cases word.getLsbD bit with
      | false => simpa using ih
      | true =>
          rw [Bool.true_xor, Bool.not_eq_true', ← Bool.not_eq_true, ih, if_pos rfl]
          omega

theorem genRequestId_eq_foldr (request : IoRequest) :
    request.genRequestId = request.fields.foldr (· ^^^ ·) 0#64 := by
  cases request <;>
    simp [IoRequest.genRequestId, IoRequest.fields, OpenRequest.genRequestId,
      CloseRequest.genRequestId, ReadRequest.genRequestId, WriteRequest.genRequestId,
      BitVec.xor_assoc]

theorem IoRequest.tells_iff (one two : IoRequest) :
    one.Tells two ↔ one.genRequestId ≠ two.genRequestId := by
  have parity (bit : ℕ) : ones (one.fields ++ two.fields) bit % 2 = 1 ↔
      ¬ (one.genRequestId.getLsbD bit = true ↔ two.genRequestId.getLsbD bit = true) := by
    rw [genRequestId_eq_foldr, genRequestId_eq_foldr, getLsbD_xor_iff, getLsbD_xor_iff, ones_append]
    omega
  constructor
  · rintro ⟨bit, odd⟩ same
    exact (parity bit).mp odd (by rw [same])
  · intro differ
    by_contra even
    refine differ (BitVec.eq_of_getLsbD_eq fun bit inside => ?_)
    by_contra other
    exact even ⟨⟨bit, inside⟩, (parity bit).mpr fun same => other (Bool.eq_iff_iff.mpr same)⟩

end Asco.Core.Os
