import Asco.Core.Os.Io
import Asco.Foundation.Machine
import Asco.Foundation.Signed

namespace Asco.Io

open Foundation Asco.Core.Os

/-! # `io::file`

A call without a valid handle panics, which ends the run.  The object is not
concurrent: a call returns before the next one.
-/

inductive SeekMode where
  | set | current | end
deriving DecidableEq

structure File where
  handle : IoHandle
  valid : Bool
  fptr : Int64
deriving DecidableEq

namespace File

/-- `file()`. -/
def constructed : File := { handle := 0, valid := false, fptr := 0 }

def fromHandle (handle : IoHandle) : File := { handle, valid := true, fptr := 0 }

/-- What is left of the source of a move. -/
def movedFrom (file : File) : File := { file with valid := false }

/-- The request is submitted by a task of its own. -/
def close (file : File) : File × Option CloseRequest :=
  ({ file with valid := false }, if file.valid then some { handle := file.handle } else none)

/-- `static_cast<std::size_t>(m_fptr)`. -/
def offset (file : File) : Word := file.fptr.toBitVec

/-- The position after `seek` in a file of the given size, `none` when a signed
operation overflows. -/
def sought (fptr offset : Int64) (size : Word) : SeekMode → Option Int64
  | .set => some (if offset < 0 then 0 else offset)
  | .current =>
      if offset < 0 then do
        let distance ← Signed.neg offset
        if fptr < distance then some 0 else Signed.add fptr offset
      else Signed.add fptr offset
  | .end => do
      -- `m_fptr` before the size is known
      let staged := if 0 < offset then 0 else offset
      let distance ← Signed.neg staged
      if Int64.ofBitVec size < distance then some 0 else Signed.add staged (.ofBitVec size)

def seek (file : File) (offset : Int64) (size : Word) (mode : SeekMode) : Option File :=
  (sought file.fptr offset size mode).map fun fptr => { file with fptr }

/-- `m_fptr += *res`, which is computed without signs. -/
def advance (file : File) : Except (Failed TransferFailure) Word → File
  | .ok count => { file with fptr := .ofBitVec (file.fptr.toBitVec + count) }
  | .error _ => file

/-- `try_advance` has moved the cursor of the new buffer to its end. -/
def readRequest (file : File) (data size : Word) : ReadRequest :=
  { handle := file.handle, offset := file.offset, buffer := ⟨data, size, size⟩, size }

def read (file : File) (data size : Word) (result : Except (Failed TransferFailure) Word) :
    File × Except (Failed TransferFailure) Asco.Core.Os.Buffer :=
  (file.advance result, result.map fun count => { data, size, cursor := count })

def writeRequest (file : File) (buffer : Asco.Core.Os.Buffer) : WriteRequest :=
  { handle := file.handle, offset := file.offset, buffer }

def write (file : File) (result : Except (Failed TransferFailure) Word) :
    File × Except (Failed TransferFailure) Word :=
  (file.advance result, result)

end File

/-- A file that is open already is closed first. -/
def File.open (file : File) : Except (Failed OpenFailure) IoHandle → File
  | .ok handle => .fromHandle handle
  | .error _ => file.close.1

/-! ## Files and their requests -/

/-- The objects that exist, the requests in the order of the calls, the ones that `close` has
left to tasks, and whether a signed operation has overflowed. -/
structure Files (Object : Type) where
  objects : Object → Option File
  requests : List IoRequest
  closing : List CloseRequest
  overflowed : Bool

inductive FileCall (Object : Type) where
  | construct (this : Object)
  | fromHandle (this : Object) (handle : IoHandle)
  /-- `file_open::open`, which returns a file only when it succeeds. -/
  | fileOpen (this : Object) (request : OpenRequest) (result : Except (Failed OpenFailure) IoHandle)
  | open (this : Object) (request : OpenRequest) (result : Except (Failed OpenFailure) IoHandle)
  | moveConstruct (this rhs : Object)
  | moveAssign (this rhs : Object)
  | close (this : Object)
  | seek (this : Object) (offset : Int64) (size : Word) (mode : SeekMode)
  | read (this : Object) (data size : Word) (result : Except (Failed TransferFailure) Word)
  | write (this : Object) (buffer : Asco.Core.Os.Buffer)
      (result : Except (Failed TransferFailure) Word)
  | destroy (this : Object)

namespace Files

variable {Object : Type} [DecidableEq Object]

def initial : Files Object :=
  { objects := fun _ => none, requests := [], closing := [], overflowed := false }

def put (files : Files Object) (this : Object) (file : Option File) : Files Object :=
  { files with objects := Function.update files.objects this file }

@[simp] theorem put_self (files : Files Object) (this : Object) (file : Option File) :
    (files.put this file).objects this = file := Function.update_self ..

def submit (files : Files Object) (request : IoRequest) : Files Object :=
  { files with requests := files.requests ++ [request] }

/-- `close` of the object, and what takes its place. -/
def closeAs (files : Files Object) (this : Object) (file : File) (after : Option File) :
    Files Object :=
  { files.put this after with closing := files.closing ++ file.close.2.toList }

def vacant (files : Files Object) (this : Object) : Option Unit :=
  if (files.objects this).isSome then none else some ()

/-- `check_valid`. -/
def checkValid (files : Files Object) (this : Object) : Option File :=
  (files.objects this).filter fun file => file.valid

def call (files : Files Object) : FileCall Object → Option (Files Object)
  | .construct this => do
      files.vacant this
      some (files.put this (some .constructed))
  | .fromHandle this handle => do
      files.vacant this
      some (files.put this (some (.fromHandle handle)))
  | .fileOpen this request result => do
      files.vacant this
      let files := files.submit (.open request)
      match result with
      | .ok handle => some (files.put this (some (.fromHandle handle)))
      | .error _ => some files
  | .open this request result => do
      let file ← files.objects this
      some ((files.closeAs this file (some (file.open result))).submit (.open request))
  | .moveConstruct this rhs => do
      files.vacant this
      let file ← files.objects rhs
      some ((files.put this (some file)).put rhs (some file.movedFrom))
  | .moveAssign this rhs => do
      let file ← files.objects this
      let source ← files.objects rhs
      if this = rhs then some files
      else some ((files.closeAs this file (some source)).put rhs (some source.movedFrom))
  | .close this => do
      let file ← files.objects this
      some (files.closeAs this file (some file.close.1))
  | .seek this offset size mode => do
      let file ← files.checkValid this
      match file.seek offset size mode with
      | some next => some (files.put this (some next))
      | none => some { files with overflowed := true }
  | .read this data size result => do
      let file ← files.checkValid this
      some ((files.submit (.read (file.readRequest data size))).put this
        (some (file.read data size result).1))
  | .write this buffer result => do
      let file ← files.checkValid this
      some ((files.submit (.write (file.writeRequest buffer))).put this
        (some (file.write result).1))
  | .destroy this => do
      let file ← files.objects this
      some (files.closeAs this file none)

/-- Nothing is known of a program that has overflowed. -/
def move (files : Files Object) (label : FileCall Object) : Option (Files Object) :=
  if files.overflowed then none else files.call label

variable (Object) in
def machine : Machine (Files Object) (FileCall Object) where
  start files := files = initial
  move := move

end Files

end Asco.Io
