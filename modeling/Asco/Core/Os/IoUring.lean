import Asco.Core.Os.Io
import Asco.Foundation.Machine
import Mathlib.Data.Fintype.Option

namespace Asco.Core.Os.IoUring

open Foundation

/-! # `io_uring_impl`

The requests of any number of calls of the file operations, each with an
`awake_token` of its own.  A call submits its request and is suspended; the
kernel answers the submitted entries in any order; `run_once` takes one
completion; a call that has been woken takes its result.
-/

/-- What `m_requests` holds for an identifier. -/
structure Entry (Call : Type*) where
  token : Call
  res : ℤ

/-- An entry of the submission queue.  `call` is not part of it: it says whose
request the entry was prepared for. -/
structure Sqe (Call : Type*) where
  call : Call
  userData : IoRequestId
  prepared : Prepared

/-- A completion. -/
structure Cqe (Call : Type*) where
  call : Call
  userData : IoRequestId
  res : ℤ

/-- Where a call stands. -/
inductive Progress where
  | unused
  | waiting (request : IoRequest) (reqid : IoRequestId) (awake : Bool)
  | finished (request : IoRequest) (outcome : Outcome)

/-- `reported` is what the kernel has answered to the request of a call, and
`repeated` says that `m_requests.insert` has met an identifier that was there. -/
structure State (Call : Type*) where
  requests : IoRequestId → Option (Entry Call)
  submitted : List (Sqe Call)
  completed : List (Cqe Call)
  progress : Call → Progress
  reported : Call → Option ℤ
  repeated : Bool
  panicked : Bool

inductive Label (Call : Type*) where
  | submit (call : Call) (request : IoRequest)
  | answer (call : Call) (res : ℤ)
  | runOnce
  | complete (call : Call)

/-- The awake of a token. -/
def Progress.awake : Progress → Progress
  | .waiting request reqid _ => .waiting request reqid true
  | progress => progress

/-- The request of a call between `submit_*` and `complete_*`. -/
def Progress.outstanding : Progress → Option IoRequest
  | .waiting request _ _ => some request
  | .unused | .finished _ _ => none

variable {Call : Type*} [DecidableEq Call]

/-- An identifier that is there already keeps its entry, and the token is lost. -/
def State.submit (state : State Call) (call : Call) (request : IoRequest) : State Call :=
  let reqid := request.genRequestId
  { state with
    requests :=
      if (state.requests reqid).isSome then state.requests
      else Function.update state.requests reqid (some { token := call, res := 0 })
    submitted := state.submitted ++ [{ call, userData := reqid, prepared := request.prepare }]
    progress := Function.update state.progress call (.waiting request reqid false)
    repeated := state.repeated || (state.requests reqid).isSome }

/-- The kernel takes the entry of the call and answers. -/
def State.answer (state : State Call) (call : Call) (res : ℤ) : Option (State Call) :=
  (state.submitted.find? fun sqe => sqe.call = call).map fun sqe =>
    { state with
      submitted := state.submitted.eraseP fun sqe => sqe.call = call
      completed := state.completed ++ [{ call, userData := sqe.userData, res }]
      reported := Function.update state.reported call (some res) }

def State.runOnce (state : State Call) : Option (State Call) :=
  match state.completed with
  | [] => none
  | cqe :: rest =>
      match state.requests cqe.userData with
      | some entry =>
          some { state with
            requests :=
              Function.update state.requests cqe.userData (some { entry with res := cqe.res })
            completed := rest
            progress :=
              Function.update state.progress entry.token (state.progress entry.token).awake }
      | none => some { state with panicked := true }

def State.complete (state : State Call) (call : Call) : Option (State Call) :=
  match state.progress call with
  | .waiting request reqid true =>
      match state.requests reqid with
      | some entry =>
          some { state with
            requests := Function.update state.requests reqid none
            progress :=
              Function.update state.progress call (.finished request (request.outcome entry.res)) }
      | none => some { state with panicked := true }
  | _ => none

def State.initial (Call : Type*) : State Call where
  requests _ := none
  submitted := []
  completed := []
  progress _ := .unused
  reported _ := none
  repeated := false
  panicked := false

/-- Each call submits once; nothing happens after a panic. -/
def State.move (state : State Call) (label : Label Call) : Option (State Call) :=
  if state.panicked then none
  else
    match label with
    | .submit call request =>
        match state.progress call with
        | .unused => some (state.submit call request)
        | _ => none
    | .answer call res => state.answer call res
    | .runOnce => state.runOnce
    | .complete call => state.complete call

def machine (Call : Type*) [DecidableEq Call] : Machine (State Call) (Label Call) where
  start state := state = .initial Call
  move := State.move

/-! ## What is promised -/

/-- Completions are routed to the call that submitted the request. -/
structure State.Routed (state : State Call) : Prop where
  distinct : ∀ one two request earlier, one ≠ two →
    (state.progress one).outstanding = some request →
    (state.progress two).outstanding = some earlier →
    request.genRequestId ≠ earlier.genRequestId
  inserted : state.repeated = false
  known : ∀ cqe ∈ state.completed, ∃ entry, state.requests cqe.userData = some entry ∧
    entry.token = cqe.call
  served : ∀ call request outcome, state.progress call = .finished request outcome →
    ∃ res, state.reported call = some res ∧ outcome = request.outcome res
  calm : state.panicked = false

/-- A request that is submitted differs from every outstanding one in the parity
of some bit position. -/
def Apart (state : State Call) : Label Call → Prop
  | .submit _ request =>
      ∀ other, ∀ earlier ∈ (state.progress other).outstanding, request.Tells earlier
  | .answer _ _ | .runOnce | .complete _ => True

instance [Fintype Call] : DecidableRel (Apart : State Call → Label Call → Prop) := by
  intro state label
  cases label with
  | submit call request =>
      exact inferInstanceAs (Decidable
        (∀ other, ∀ earlier ∈ (state.progress other).outstanding, request.Tells earlier))
  | answer call res => exact inferInstanceAs (Decidable True)
  | runOnce => exact inferInstanceAs (Decidable True)
  | complete call => exact inferInstanceAs (Decidable True)

end Asco.Core.Os.IoUring
