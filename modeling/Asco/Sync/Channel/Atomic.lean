import Asco.Sync.Channel

namespace Asco.Sync.Channel.Atomic

open Foundation

/-! # A channel over an atomic queue

`try_send` and `try_recv` of the queue are one step each on a FIFO of
`channel_capacity` values.  The other steps are those of `channel<T>`.
-/

/-- Where a call of `send`, `recv` or `stop` stands. -/
inductive Pc (α : Type*) where
  | sendClosed (value : α)
  | sendTryAcquire (value : α)
  | sendAcquire (value : α)
  | sendReclosed (value : α)
  | sendGiveBack (value : α)
  | sendQueue (value : α)
  | sendRelease (value : α)
  | recvCount
  | recvClosed
  | recvTryAcquire
  | recvAcquire
  | recvRecount
  | recvReclosed
  | recvQueue
  | recvRelease (result : Option α)
  | stopClose
  | stopCount
  | stopBackpress
deriving DecidableEq

/-- The channel with its history: `entered` and `left` are the values that went
through the queue, `sent` those `send` has reported as sent, `received` the
results of `recv`. -/
structure Traffic (α : Type*) where
  closed : Bool
  countSem : ℕ
  backpressSem : ℕ
  queue : List α
  entered : List α
  left : List α
  sent : List α
  received : List (Option α)

variable {α : Type*}

/-- `try_send` gives the value back when the queue is full. -/
def Traffic.trySend (traffic : Traffic α) (value : α) : Traffic α :=
  if traffic.queue.length < channelCapacity.toNat then
    { traffic with queue := traffic.queue ++ [value], entered := traffic.entered ++ [value] }
  else traffic

def Traffic.tryRecv (traffic : Traffic α) : Traffic α × Option α :=
  match traffic.queue with
  | [] => (traffic, none)
  | value :: rest => ({ traffic with queue := rest, left := traffic.left ++ [value] }, some value)

def start : Call α → Pc α
  | .send value => .sendClosed value
  | .recv => .recvCount
  | .stop => .stopClose

/-- The next step of a call; there is none while an `acquire` finds no permit. -/
def resume (traffic : Traffic α) : Pc α → Option (Traffic α × Option (Pc α))
  | .sendClosed value =>
      if traffic.closed then some (traffic, none) else some (traffic, some (.sendTryAcquire value))
  | .sendTryAcquire value =>
      if traffic.backpressSem = 0 then some (traffic, some (.sendAcquire value))
      else
        some ({ traffic with backpressSem := acquired traffic.backpressSem },
          some (.sendReclosed value))
  | .sendAcquire value =>
      if traffic.backpressSem = 0 then none
      else
        some ({ traffic with backpressSem := acquired traffic.backpressSem },
          some (.sendReclosed value))
  | .sendReclosed value =>
      if traffic.closed then some (traffic, some (.sendGiveBack value))
      else some (traffic, some (.sendQueue value))
  | .sendGiveBack _ =>
      some ({ traffic with backpressSem := released traffic.backpressSem }, none)
  | .sendQueue value => some (traffic.trySend value, some (.sendRelease value))
  | .sendRelease value =>
      some ({ traffic with
        countSem := released traffic.countSem, sent := traffic.sent ++ [value] }, none)
  | .recvCount =>
      if traffic.countSem = 0 then some (traffic, some .recvClosed)
      else some (traffic, some .recvTryAcquire)
  | .recvClosed =>
      if traffic.closed then some ({ traffic with received := traffic.received ++ [none] }, none)
      else some (traffic, some .recvTryAcquire)
  | .recvTryAcquire =>
      if traffic.countSem = 0 then some (traffic, some .recvAcquire)
      else some ({ traffic with countSem := acquired traffic.countSem }, some .recvRecount)
  | .recvAcquire =>
      if traffic.countSem = 0 then none
      else some ({ traffic with countSem := acquired traffic.countSem }, some .recvRecount)
  | .recvRecount =>
      if traffic.countSem = 0 then some (traffic, some .recvReclosed)
      else some (traffic, some .recvQueue)
  | .recvReclosed =>
      if traffic.closed then some ({ traffic with received := traffic.received ++ [none] }, none)
      else some (traffic, some .recvQueue)
  | .recvQueue => some (traffic.tryRecv.1, some (.recvRelease traffic.tryRecv.2))
  | .recvRelease result =>
      some ({ traffic with
        backpressSem := released traffic.backpressSem,
        received := traffic.received ++ [result] }, none)
  | .stopClose => some ({ traffic with closed := true }, some .stopCount)
  | .stopCount =>
      some ({ traffic with countSem := released traffic.countSem }, some .stopBackpress)
  | .stopBackpress =>
      some ({ traffic with backpressSem := released traffic.backpressSem }, none)

/-! ## Any number of senders, receivers and stops -/

inductive Label (α : Type*) where
  | call (call : Call α)
  | step

/-- A task outside a call has no program counter. -/
def advance (traffic : Traffic α) : Option (Pc α) → Label α → Option (Traffic α × Option (Pc α))
  | none, .call call => some (traffic, some (start call))
  | some pc, .step => resume traffic pc
  | _, _ => none

def program (Task α : Type*) : Program Task (Traffic α) (Option (Pc α)) (Label α) where
  advance _ := advance

def fresh (Task α : Type*) : Pool Task (Traffic α) (Option (Pc α)) where
  shared :=
    { closed := false, countSem := 0, backpressSem := channelCapacity.toNat, queue := [],
      entered := [], left := [], sent := [], received := [] }
  locals _ := none

def machine (Task α : Type*) [DecidableEq Task] :
    Machine (Pool Task (Traffic α) (Option (Pc α))) (Task × Label α) :=
  (program Task α).machine (· = fresh Task α)

end Asco.Sync.Channel.Atomic
