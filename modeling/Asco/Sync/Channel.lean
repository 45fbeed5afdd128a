import Asco.Concurrency.RingQueue.Sequential
import Asco.Sync.Semaphore

namespace Asco.Sync

open Foundation Concurrency

/-! # `channel<T>`

A step is one operation on the flag or on a semaphore, or one step of the ring
queue.  The semaphores are their counters: an operation of a semaphore takes
effect at once, and `acquire` waits for a permit.
-/

/-- `detail::channel_capacity`. -/
def channelCapacity : UInt64 := 1024

/-- `channel_cntrl` and the queue shared by the two ends. -/
structure Channel (α : Type*) where
  closed : Bool
  countSem : ℕ
  backpressSem : ℕ
  queue : RingQueue.Storage α channelCapacity.toNat

namespace Channel

/-- Where a call of `send`, `recv` or `stop` stands. -/
inductive Pc (α : Type*) where
  | sendClosed (value : α)
  | sendTryAcquire (value : α)
  | sendAcquire (value : α)
  | sendReclosed (value : α)
  | sendGiveBack (value : α)
  | sendQueue (value : α) (pc : RingQueue.Pc α channelCapacity.toNat)
  | sendRelease (value : α)
  | recvCount
  | recvClosed
  | recvTryAcquire
  | recvAcquire
  | recvRecount
  | recvReclosed
  | recvQueue (pc : RingQueue.Pc α channelCapacity.toNat)
  | recvRelease (result : Option α)
  | stopClose
  | stopCount
  | stopBackpress

inductive Call (α : Type*) where
  | send (value : α)
  | recv
  | stop

/-- How a call ends: `rejected` hands the value back, `received none` is
`nullopt`, and `threw` lets an exception of the element out. -/
inductive Result (α : Type*) where
  | sent (value : α)
  | rejected (value : α)
  | received (result : Option α)
  | stopped
  | threw

inductive Progress (α : Type*) where
  | running (pc : Pc α)
  | done (result : Result α)

variable {α : Type*}

def Progress.pc : Progress α → Option (Pc α)
  | .running pc => some pc
  | .done _ => none

def create (α : Type*) : Channel α where
  closed := false
  countSem := 0
  backpressSem := channelCapacity.toNat
  queue := .create α channelCapacity.toNat

/-- `release()` of a semaphore, as one step. -/
def released (count : ℕ) : ℕ := Semaphore.raised channelCapacity 1 count

/-- A successful acquisition, as one step. -/
def acquired (count : ℕ) : ℕ := Semaphore.pred channelCapacity count

def start : Call α → Pc α
  | .send value => .sendClosed value
  | .recv => .recvCount
  | .stop => .stopClose

/-- `send` ignores what `try_send` returns. -/
def afterTrySend (value : α) : RingQueue.Progress α channelCapacity.toNat → Progress α
  | .running pc => .running (.sendQueue value pc)
  | .done .threw => .done .threw
  | .done _ => .running (.sendRelease value)

def afterTryRecv : RingQueue.Progress α channelCapacity.toNat → Progress α
  | .running pc => .running (.recvQueue pc)
  | .done .threw => .done .threw
  | .done (.received value) => .running (.recvRelease (some value))
  | .done _ => .running (.recvRelease none)

/-- The next step of a call; there is none while an `acquire` finds no permit. -/
def resume (channel : Channel α) (throws : Bool) : Pc α → Option (Channel α × Progress α)
  | .sendClosed value =>
      if channel.closed then some (channel, .done (.rejected value))
      else some (channel, .running (.sendTryAcquire value))
  | .sendTryAcquire value =>
      if channel.backpressSem = 0 then some (channel, .running (.sendAcquire value))
      else
        some ({ channel with backpressSem := acquired channel.backpressSem },
          .running (.sendReclosed value))
  | .sendAcquire value =>
      if channel.backpressSem = 0 then none
      else
        some ({ channel with backpressSem := acquired channel.backpressSem },
          .running (.sendReclosed value))
  | .sendReclosed value =>
      if channel.closed then some (channel, .running (.sendGiveBack value))
      else some (channel, .running (.sendQueue value (.sendLoadHead value)))
  | .sendGiveBack value =>
      some ({ channel with backpressSem := released channel.backpressSem },
        .done (.rejected value))
  | .sendQueue value pc =>
      (RingQueue.resume channel.queue throws pc).map fun next =>
        ({ channel with queue := next.1 }, afterTrySend value next.2)
  | .sendRelease value =>
      some ({ channel with countSem := released channel.countSem }, .done (.sent value))
  | .recvCount =>
      if channel.countSem = 0 then some (channel, .running .recvClosed)
      else some (channel, .running .recvTryAcquire)
  | .recvClosed =>
      if channel.closed then some (channel, .done (.received none))
      else some (channel, .running .recvTryAcquire)
  | .recvTryAcquire =>
      if channel.countSem = 0 then some (channel, .running .recvAcquire)
      else some ({ channel with countSem := acquired channel.countSem }, .running .recvRecount)
  | .recvAcquire =>
      if channel.countSem = 0 then none
      else some ({ channel with countSem := acquired channel.countSem }, .running .recvRecount)
  | .recvRecount =>
      if channel.countSem = 0 then some (channel, .running .recvReclosed)
      else some (channel, .running (.recvQueue .recvLoadHead))
  | .recvReclosed =>
      if channel.closed then some (channel, .done (.received none))
      else some (channel, .running (.recvQueue .recvLoadHead))
  | .recvQueue pc =>
      (RingQueue.resume channel.queue throws pc).map fun next =>
        ({ channel with queue := next.1 }, afterTryRecv next.2)
  | .recvRelease result =>
      some ({ channel with backpressSem := released channel.backpressSem },
        .done (.received result))
  | .stopClose => some ({ channel with closed := true }, .running .stopCount)
  | .stopCount =>
      some ({ channel with countSem := released channel.countSem }, .running .stopBackpress)
  | .stopBackpress =>
      some ({ channel with backpressSem := released channel.backpressSem }, .done .stopped)

/-! ## Any number of tasks on one channel -/

/-- The channel, with the values that `send` has reported as sent and the
results of the calls of `recv` that have returned. -/
structure Traffic (α : Type*) where
  channel : Channel α
  sent : List α
  received : List (Option α)

inductive Label (α : Type*) where
  | call (call : Call α)
  | step (throws : Bool)

def Label.isStop : Label α → Bool
  | .call .stop => true
  | _ => false

def Label.throws : Label α → Bool
  | .step throws => throws
  | _ => false

def Traffic.finish (traffic : Traffic α) : Progress α → Traffic α × Option (Pc α)
  | .running pc => (traffic, some pc)
  | .done (.sent value) => ({ traffic with sent := traffic.sent ++ [value] }, none)
  | .done (.received result) => ({ traffic with received := traffic.received ++ [result] }, none)
  | .done _ => (traffic, none)

/-- A task outside a call has no program counter. -/
def advance (traffic : Traffic α) : Option (Pc α) → Label α → Option (Traffic α × Option (Pc α))
  | none, .call call => some (traffic, some (start call))
  | some pc, .step throws =>
      (resume traffic.channel throws pc).map fun next =>
        { traffic with channel := next.1 }.finish next.2
  | _, _ => none

def program (Task α : Type*) : Program Task (Traffic α) (Option (Pc α)) (Label α) where
  advance _ := advance

def fresh (Task α : Type*) : Pool Task (Traffic α) (Option (Pc α)) where
  shared := { channel := create α, sent := [], received := [] }
  locals _ := none

def machine (Task α : Type*) [DecidableEq Task] :
    Machine (Pool Task (Traffic α) (Option (Pc α))) (Task × Label α) :=
  (program Task α).machine (· = fresh Task α)

/-! ## The semaphores -/

theorem channelCapacity_toNat : channelCapacity.toNat = 1024 := rfl

theorem acquired_eq {count : ℕ} (bounded : count ≤ 1024) (available : count ≠ 0) :
    acquired count = count - 1 := Semaphore.pred_eq bounded available

theorem released_eq {count : ℕ} (bounded : count ≤ 1024) :
    released count = min (count + 1) 1024 := by
  have raised := Semaphore.raised_eq (N := channelCapacity) (n := 1) bounded
  have difference := Semaphore.diff_eq (N := channelCapacity) (n := 1) bounded
  have one : (1 : UInt64).toNat = 1 := rfl
  rw [released, raised, difference, channelCapacity_toNat, one]
  omega

end Channel

end Asco.Sync
