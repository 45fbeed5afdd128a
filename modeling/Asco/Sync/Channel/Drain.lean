import Asco.Sync.Channel

namespace Asco.Sync.Channel

open Foundation Concurrency RingQueue

/-! # One call at a time: draining a stopped channel -/

variable {α : Type*} {channel : Channel α} {value : α}

/-- A call that runs alone; it has no result when it needs to wait. -/
def complete : ℕ → Channel α → Pc α → Option (Channel α × Result α)
  | 0, _, _ => none
  | fuel + 1, channel, pc =>
      match resume channel false pc with
      | none => none
      | some (next, .done result) => some (next, result)
      | some (next, .running pc) => complete fuel next pc

attribute [local simp] complete

def perform (channel : Channel α) (call : Call α) : Option (Channel α × Result α) :=
  complete 11 channel (start call)

/-- The values in the queue, the oldest first. -/
def buffer (channel : Channel α) : List α := values channel.queue

/-! ## What each call does -/

/-- A call of the ring queue inside a call of the channel. -/
theorem complete_inQueue (place : RingQueue.Pc α channelCapacity.toNat → Pc α)
    {after : RingQueue.Progress α channelCapacity.toNat → Progress α} {exit : Pc α}
    {ringFuel : ℕ} {storage next : Storage α channelCapacity.toNat}
    {pc : RingQueue.Pc α channelCapacity.toNat} {outcome : Outcome α}
    (resumes : ∀ (channel : Channel α) pc, resume channel false (place pc) =
      (RingQueue.resume channel.queue false pc).map fun next =>
        ({ channel with queue := next.1 }, after next.2))
    (goesOn : ∀ pc, after (.running pc) = .running (place pc))
    (leaves : after (.done outcome) = .running exit)
    (performed : RingQueue.complete ringFuel storage pc = some (next, outcome))
    (channel : Channel α) (fuel : ℕ) :
    ∃ spare, fuel ≤ spare ∧
      complete (ringFuel + fuel) { channel with queue := storage } (place pc) =
        complete spare { channel with queue := next } exit := by
  induction ringFuel generalizing storage pc with
  | zero => contradiction
  | succ ringFuel ih =>
      rw [Nat.add_right_comm]
      simp only [RingQueue.complete] at performed
      split at performed
      · contradiction
      · rename_i stepped
        cases performed
        refine ⟨ringFuel + fuel, by omega, ?_⟩
        simp [resumes, stepped, leaves]
      · rename_i stepped
        obtain ⟨spare, enough, completed⟩ := ih performed
        refine ⟨spare, enough, ?_⟩
        rw [← completed]
        simp [resumes, stepped, goesOn]

theorem complete_sendQueue (channel : Channel α) {storage : Storage α channelCapacity.toNat}
    (sent : trySend channel.queue value = some (storage, .sent value)) :
    complete 8 channel (.sendQueue value (.sendLoadHead value)) =
      some ({ channel with countSem := released channel.countSem, queue := storage },
        .sent value) := by
  obtain ⟨spare, enough, completed⟩ := complete_inQueue (.sendQueue value)
    (fun _ _ => rfl) (fun _ => rfl) rfl sent channel 1
  obtain ⟨spare, rfl⟩ := Nat.exists_eq_add_of_le' enough
  exact completed

/-- What `recv` makes of the outcome of `try_recv`. -/
def taken : Outcome α → Option α
  | .received value => some value
  | _ => none

theorem complete_recvQueue (channel : Channel α) {storage : Storage α channelCapacity.toNat}
    {outcome : Outcome α} (performed : tryRecv channel.queue = some (storage, outcome))
    (returns : outcome ≠ .threw) (fuel : ℕ) :
    complete (7 + fuel) channel (.recvQueue .recvLoadHead) =
      some ({ channel with backpressSem := released channel.backpressSem, queue := storage },
        .received (taken outcome)) := by
  have leaves : afterTryRecv (.done outcome) = .running (.recvRelease (taken outcome)) := by
    cases outcome with
    | threw => contradiction
    | _ => rfl
  obtain ⟨spare, enough, completed⟩ := complete_inQueue .recvQueue
    (fun _ _ => rfl) (fun _ => rfl) leaves performed channel (1 + fuel)
  obtain ⟨spare, rfl⟩ := Nat.exists_eq_add_of_le' (Nat.le_of_add_right_le enough)
  rw [show 7 + fuel = 6 + (1 + fuel) by omega]
  exact completed

theorem complete_running {next : Channel α} {pc after : Pc α} {fuel : ℕ}
    (stepped : resume channel false pc = some (next, .running after)) :
    complete (fuel + 1) channel pc = complete fuel next after := by
  simp [stepped]

attribute [local simp] resume

theorem perform_send (isOpen : channel.closed = false) (available : channel.backpressSem ≠ 0)
    (quiet : Quiet channel.queue) (room : (buffer channel).length < 1024) (value : α) :
    ∃ storage, Quiet storage ∧ values storage = buffer channel ++ [value] ∧
      perform channel (.send value) =
        some ({ closed := false, countSem := released channel.countSem,
                backpressSem := acquired channel.backpressSem, queue := storage },
          .sent value) := by
  have spec := trySend_spec quiet value
  have notFull : (values channel.queue).length ≠ channelCapacity.toNat := Nat.ne_of_lt room
  rw [if_neg notFull] at spec
  obtain ⟨storage, sent, quietNext, pushed⟩ := spec
  refine ⟨storage, quietNext, pushed, ?_⟩
  let permitted := { channel with backpressSem := acquired channel.backpressSem }
  calc perform channel (.send value)
      = complete 10 channel (.sendTryAcquire value) :=
        complete_running (by simp [start, isOpen])
    _ = complete 9 permitted (.sendReclosed value) :=
        complete_running (by simp [available, permitted])
    _ = complete 8 permitted (.sendQueue value (.sendLoadHead value)) :=
        complete_running (by simp [isOpen, permitted])
    _ = some ({ permitted with countSem := released channel.countSem, queue := storage },
          .sent value) := complete_sendQueue permitted sent
    _ = _ := by simp [permitted, isOpen]

theorem perform_send_closed (closed : channel.closed = true) (value : α) :
    perform channel (.send value) = some (channel, .rejected value) := by
  simp [perform, start, closed]

theorem perform_send_waits (isOpen : channel.closed = false) (exhausted : channel.backpressSem = 0)
    (value : α) : perform channel (.send value) = none := by
  simp [perform, start, isOpen, exhausted]

/-- A receiver whose permit is not the last one of a closed channel. -/
theorem perform_recv (available : channel.countSem ≠ 0)
    (more : channel.closed = true → acquired channel.countSem ≠ 0) (quiet : Quiet channel.queue) :
    ∃ storage, Quiet storage ∧ values storage = (buffer channel).tail ∧
      perform channel .recv =
        some ({ channel with
                countSem := acquired channel.countSem
                backpressSem := released channel.backpressSem
                queue := storage },
          .received (buffer channel).head?) := by
  have spec : ∃ storage outcome, Quiet storage ∧ values storage = (buffer channel).tail ∧
      tryRecv channel.queue = some (storage, outcome) ∧ outcome ≠ .threw ∧
        taken outcome = (buffer channel).head? := by
    have spec := tryRecv_spec quiet
    split at spec
    · rename_i none
      exact ⟨channel.queue, .nothing, quiet, by simp [buffer, none], spec, nofun,
        by simp [buffer, none, taken]⟩
    · rename_i value rest some
      obtain ⟨storage, received, quietNext, left⟩ := spec
      exact ⟨storage, .received value, quietNext, by simp [buffer, some, left], received, nofun,
        by simp [buffer, some, taken]⟩
  obtain ⟨storage, outcome, quietNext, popped, received, returns, same⟩ := spec
  refine ⟨storage, quietNext, popped, ?_⟩
  let permitted := { channel with countSem := acquired channel.countSem }
  have entered : ∃ fuel, complete 9 permitted .recvRecount =
      complete (7 + fuel) permitted (.recvQueue .recvLoadHead) := by
    by_cases last : acquired channel.countSem = 0
    · have isOpen : channel.closed = false := by
        cases closed : channel.closed with
        | false => rfl
        | true => exact absurd last (more closed)
      refine ⟨0, ?_⟩
      calc complete 9 permitted .recvRecount
          = complete 8 permitted .recvReclosed :=
            complete_running (by simp [last, permitted])
        _ = complete 7 permitted (.recvQueue .recvLoadHead) :=
            complete_running (by simp [isOpen, permitted])
    · exact ⟨1, complete_running (by simp [last, permitted])⟩
  obtain ⟨fuel, entered⟩ := entered
  calc perform channel .recv
      = complete 10 channel .recvTryAcquire :=
        complete_running (by simp [start, available])
    _ = complete 9 permitted .recvRecount :=
        complete_running (by simp [available, permitted])
    _ = complete (7 + fuel) permitted (.recvQueue .recvLoadHead) := entered
    _ = some ({ permitted with backpressSem := released channel.backpressSem, queue := storage },
          .received (taken outcome)) := complete_recvQueue permitted received returns fuel
    _ = _ := by rw [same]

theorem perform_recv_last (closed : channel.closed = true) (available : channel.countSem ≠ 0)
    (last : acquired channel.countSem = 0) :
    perform channel .recv = some ({ channel with countSem := 0 }, .received none) := by
  simp [perform, start, closed, available, last]

theorem perform_recv_closed (closed : channel.closed = true) (exhausted : channel.countSem = 0) :
    perform channel .recv = some (channel, .received none) := by
  simp [perform, start, closed, exhausted]

theorem perform_recv_waits (isOpen : channel.closed = false) (exhausted : channel.countSem = 0) :
    perform channel .recv = none := by
  simp [perform, start, isOpen, exhausted]

theorem perform_stop (channel : Channel α) :
    perform channel .stop =
      some ({ channel with
              closed := true
              countSem := released channel.countSem
              backpressSem := released channel.backpressSem },
        .stopped) := by
  let closing := { channel with closed := true }
  let woken := { closing with countSem := released channel.countSem }
  calc perform channel .stop
      = complete 10 closing .stopCount := complete_running (by simp only [start, resume, closing])
    _ = complete 9 woken .stopBackpress :=
        complete_running (by simp only [resume, woken, closing])
    _ = _ := by simp only [complete, resume, woken, closing]

/-! ## Sequences of calls -/

/-- What the caller has seen so far.  `received` ends at the first `nullopt`,
`proper` says that every `nullopt` came from a closed and empty channel, and
`roomy` that some `stop` found fewer values than the capacity. -/
structure History (α : Type*) where
  channel : Channel α
  sent : List α
  received : List α
  exhausted : Bool
  proper : Bool
  roomy : Bool

def History.record (history : History α) (channel : Channel α) : Result α → History α
  | .sent value => { history with channel, sent := history.sent ++ [value] }
  | .received (some value) =>
      { history with
        channel
        received := if history.exhausted then history.received else history.received ++ [value] }
  | .received none =>
      { history with
        channel
        exhausted := true
        proper := history.proper && history.channel.closed && (buffer history.channel).isEmpty }
  | .stopped =>
      { history with
        channel
        roomy := history.roomy || decide ((buffer history.channel).length < 1024) }
  | _ => { history with channel }

def unused (α : Type*) : History α where
  channel := create α
  sent := []
  received := []
  exhausted := false
  proper := true
  roomy := false

/-- A call that needs to wait is not a move. -/
def calls (α : Type*) : Machine (History α) (Call α) where
  start := (· = unused α)
  move history call := (perform history.channel call).map fun next => history.record next.1 next.2

/-- The claim. -/
structure Drains (history : History α) : Prop where
  proper : history.proper = true
  ordered : history.received <+: history.sent
  complete : history.exhausted = true → history.received = history.sent

def Call.isRecv : Call α → Bool
  | .recv => true
  | _ => false

/-- No `recv` meets one last value in a channel that was full at every `stop`. -/
def SpareWhenLast (history : History α) (call : Call α) : Prop :=
  ¬ (call.isRecv = true ∧ history.channel.closed = true ∧ history.roomy = false ∧
    (buffer history.channel).length = 1)

instance : DecidableRel (@SpareWhenLast α) := fun _ _ => inferInstanceAs (Decidable (¬ _))

structure Kept (history : History α) : Prop where
  quiet : Quiet history.channel.queue
  counted : history.channel.countSem ≤ 1024
  freed : history.channel.backpressSem ≤ 1024
  matched : history.roomy = false → history.channel.countSem = (buffer history.channel).length
  spare : history.roomy = true → buffer history.channel ≠ [] →
    (buffer history.channel).length < history.channel.countSem
  room : history.channel.closed = false →
    history.channel.backpressSem + (buffer history.channel).length = 1024
  stopped : history.roomy = true ∨ history.exhausted = true → history.channel.closed = true
  conserved : history.exhausted = false → history.sent = history.received ++ buffer history.channel
  finished : history.exhausted = true →
    history.received = history.sent ∧ buffer history.channel = []
  proper : history.proper = true

variable {history next : History α} {call : Call α}

theorem Kept.drains (kept : Kept history) : Drains history where
  proper := kept.proper
  ordered := by
    cases ended : history.exhausted with
    | false => exact ⟨buffer history.channel, (kept.conserved ended).symm⟩
    | true => rw [(kept.finished ended).1]
  complete ended := (kept.finished ended).1

theorem move_of_perform {result : Result α}
    (performed : perform history.channel call = some (channel, result)) :
    (calls α).move history call = some (history.record channel result) := by
  simp [calls, performed]

theorem kept_unused : Kept (unused α) where
  quiet index := .inl ⟨rfl, by simp [Inside, unused, create, Storage.create]⟩
  counted := Nat.zero_le _
  freed := Nat.le_refl _
  matched _ := by simp [unused, create, buffer, values, Storage.create]
  spare := nofun
  room _ := by simp [unused, create, buffer, values, Storage.create, channelCapacity_toNat]
  stopped := by simp [unused]
  conserved _ := by simp [unused, create, buffer, values, Storage.create]
  finished := nofun
  proper := rfl

theorem buffer_length_le (quiet : Quiet channel.queue) : (buffer channel).length ≤ 1024 := by
  rw [buffer, values_length quiet]
  exact span_le

theorem Kept.send (kept : Kept history) {value : α} (isOpen : history.channel.closed = false)
    (moved : (calls α).move history (.send value) = some next) : Kept next := by
  obtain ⟨quiet, counted, freed, matched, spare, room, stopped, conserved, finished, proper⟩ := kept
  have notRoomy : history.roomy = false := by
    cases roomy : history.roomy with
    | false => rfl
    | true => simp [stopped (.inl roomy)] at isOpen
  have notEnded : history.exhausted = false := by
    cases ended : history.exhausted with
    | false => rfl
    | true => simp [stopped (.inr ended)] at isOpen
  by_cases waits : history.channel.backpressSem = 0
  · simp [calls, perform_send_waits isOpen waits] at moved
  · have balance := room isOpen
    have length := matched notRoomy
    obtain ⟨storage, quietNext, pushed, performed⟩ :=
      perform_send isOpen waits quiet (by omega) value
    simp only [calls, performed, Option.map_some, Option.some.injEq] at moved
    subst moved
    have longer : (values storage).length = (buffer history.channel).length + 1 := by
      simp [pushed]
    have counts := released_eq counted
    have frees := acquired_eq freed waits
    generalize released history.channel.countSem = count at counts ⊢
    generalize acquired history.channel.backpressSem = free at frees ⊢
    refine ⟨quietNext, ?_, ?_, fun _ => ?_, ?_, fun _ => ?_, ?_, fun _ => ?_, ?_, proper⟩
    · change count ≤ 1024
      omega
    · change free ≤ 1024
      omega
    · change count = (values storage).length
      omega
    · simp [History.record, notRoomy]
    · change free + (values storage).length = 1024
      omega
    · simp [History.record, notRoomy, notEnded]
    · change history.sent ++ [value] = history.received ++ values storage
      rw [conserved notEnded, pushed, List.append_assoc]
    · simp [History.record, notEnded]

theorem Kept.received (kept : Kept history) {value : α} {rest : List α}
    {storage : Storage α channelCapacity.toNat}
    (holdsValue : buffer history.channel = value :: rest)
    (quietNext : Quiet storage) (left : values storage = rest) {count free : ℕ}
    (counts : count + 1 = history.channel.countSem)
    (frees : free = min (history.channel.backpressSem + 1) 1024) :
    Kept (history.record
      { history.channel with countSem := count, backpressSem := free, queue := storage }
      (.received (some value))) := by
  obtain ⟨quiet, counted, freed, matched, spare, room, stopped, conserved, finished, proper⟩ := kept
  have notEnded : history.exhausted = false := by
    cases ended : history.exhausted with
    | false => rfl
    | true => simp [(finished ended).2] at holdsValue
  have shorter : (values storage).length + 1 = (buffer history.channel).length := by
    simp [left, holdsValue]
  refine ⟨quietNext, ?_, ?_, fun notRoomy => ?_, fun roomy _ => ?_, fun isOpen => ?_, ?_,
    fun _ => ?_, ?_, proper⟩
  · change count ≤ 1024
    omega
  · change free ≤ 1024
    omega
  · have length := matched notRoomy
    change count = (values storage).length
    omega
  · have more := spare roomy (by simp [holdsValue])
    change (values storage).length < count
    omega
  · have balance := room isOpen
    change free + (values storage).length = 1024
    omega
  · simpa [History.record, notEnded] using stopped
  · change history.sent = (if history.exhausted then history.received
      else history.received ++ [value]) ++ values storage
    rw [conserved notEnded, holdsValue, left, notEnded, if_neg Bool.false_ne_true,
      List.append_assoc, List.singleton_append]
  · simp [History.record, notEnded]

theorem Kept.finish (kept : Kept history) (closed : history.channel.closed = true)
    (empty : buffer history.channel = []) (stillClosed : channel.closed = true)
    (quietNext : Quiet channel.queue) (stillEmpty : buffer channel = [])
    (counted : channel.countSem ≤ 1024) (freed : channel.backpressSem ≤ 1024)
    (matched : history.roomy = false → channel.countSem = 0) :
    Kept (history.record channel (.received none)) := by
  refine ⟨quietNext, counted, freed, fun notRoomy => ?_, fun _ some => ?_, fun isOpen => ?_,
    fun _ => stillClosed, nofun, fun _ => ⟨?_, stillEmpty⟩, ?_⟩
  · change channel.countSem = (buffer channel).length
    rw [stillEmpty, matched notRoomy, List.length_nil]
  · exact absurd stillEmpty some
  · have stillOpen : channel.closed = false := isOpen
    simp [stillOpen] at stillClosed
  · change history.received = history.sent
    cases ended : history.exhausted with
    | false => rw [kept.conserved ended, empty, List.append_nil]
    | true => exact (kept.finished ended).1
  · simp [History.record, kept.proper, closed, empty]

theorem Kept.recv (kept : Kept history) (spareLeft : SpareWhenLast history .recv)
    (moved : (calls α).move history .recv = some next) : Kept next := by
  have counted := kept.counted
  have freed := kept.freed
  by_cases available : history.channel.countSem = 0
  · have nothing : buffer history.channel = [] := by
      cases roomy : history.roomy with
      | false => exact List.length_eq_zero_iff.mp ((kept.matched roomy).symm.trans available)
      | true =>
          by_contra some
          have more := kept.spare roomy some
          omega
    cases closed : history.channel.closed with
    | false => simp [calls, perform_recv_waits closed available] at moved
    | true =>
        simp only [calls, perform_recv_closed closed available, Option.map_some,
          Option.some.injEq] at moved
        subst moved
        exact kept.finish closed nothing closed kept.quiet nothing counted freed fun _ => available
  · have fewer := acquired_eq counted available
    by_cases last : history.channel.closed = true ∧ acquired history.channel.countSem = 0
    · obtain ⟨closed, last⟩ := last
      have nothing : buffer history.channel = [] := by
        cases roomy : history.roomy with
        | false =>
            have length := kept.matched roomy
            exact absurd ⟨rfl, closed, roomy, by omega⟩ spareLeft
        | true =>
            by_contra some
            have more := kept.spare roomy some
            have positive := List.length_pos_of_ne_nil some
            omega
      simp only [calls, perform_recv_last closed available last, Option.map_some,
        Option.some.injEq] at moved
      subst moved
      exact kept.finish closed nothing closed kept.quiet nothing (Nat.zero_le _) freed fun _ => rfl
    · obtain ⟨storage, quietNext, left, performed⟩ :=
        perform_recv available (fun closed none => last ⟨closed, none⟩) kept.quiet
      simp only [calls, performed, Option.map_some, Option.some.injEq] at moved
      subst moved
      have frees := released_eq freed
      cases holdsValues : buffer history.channel with
      | nil =>
          have roomy : history.roomy = true := by
            cases roomy : history.roomy with
            | true => rfl
            | false => simp [kept.matched roomy, holdsValues] at available
          have closed := kept.stopped (.inl roomy)
          rw [holdsValues] at left
          generalize acquired history.channel.countSem = count at fewer ⊢
          generalize released history.channel.backpressSem = free at frees ⊢
          refine kept.finish closed holdsValues closed quietNext left ?_ ?_ ?_
          · change count ≤ 1024
            omega
          · change free ≤ 1024
            omega
          · simp [roomy]
      | cons value rest =>
          rw [holdsValues] at left
          exact kept.received holdsValues quietNext left (by omega) frees

theorem Kept.stop (kept : Kept history)
    (moved : (calls α).move history .stop = some next) : Kept next := by
  obtain ⟨quiet, counted, freed, matched, spare, room, stopped, conserved, finished, proper⟩ := kept
  simp only [calls, perform_stop, Option.map_some, Option.some.injEq] at moved
  subst moved
  have bounded := buffer_length_le quiet
  have counts := released_eq counted
  have frees := released_eq freed
  generalize released history.channel.countSem = count at counts ⊢
  generalize released history.channel.backpressSem = free at frees ⊢
  refine ⟨quiet, ?_, ?_, fun notRoomy => ?_, fun roomy some => ?_, nofun, fun _ => rfl, conserved,
    finished, proper⟩
  · change count ≤ 1024
    omega
  · change free ≤ 1024
    omega
  · simp only [History.record, Bool.or_eq_false_iff, decide_eq_false_iff_not] at notRoomy
    have length := matched notRoomy.1
    change count = (buffer history.channel).length
    omega
  · simp only [History.record, Bool.or_eq_true, decide_eq_true_eq] at roomy
    change (buffer history.channel).length < count
    cases before : history.roomy with
    | true =>
        have more := spare before some
        omega
    | false =>
        have length := matched before
        simp only [before, Bool.false_eq_true, false_or] at roomy
        omega

theorem Kept.step (kept : Kept history) (allowed : SpareWhenLast history call)
    (moved : (calls α).move history call = some next) : Kept next := by
  cases call with
  | send value =>
      cases closed : history.channel.closed with
      | false => exact kept.send closed moved
      | true =>
          simp only [calls, perform_send_closed closed, Option.map_some, Option.some.injEq] at moved
          subst moved
          exact kept
  | recv => exact kept.recv allowed moved
  | stop => exact kept.stop moved

/-- The last value stays behind. -/
theorem Kept.loses (kept : Kept history) (last : ¬ SpareWhenLast history call) :
    ∃ next, (calls α).move history call = some next ∧ next.proper = false := by
  obtain ⟨receives, closed, notRoomy, one⟩ := not_not.mp last
  have length := kept.matched notRoomy
  have available : history.channel.countSem ≠ 0 := by omega
  have none := acquired_eq kept.counted available
  cases call with
  | recv =>
      have performed := perform_recv_last closed available (by omega)
      refine ⟨_, move_of_perform performed, ?_⟩
      have some : (buffer history.channel).isEmpty = false := by
        rw [List.isEmpty_eq_false_iff, ← List.length_pos_iff, one]
        exact Nat.one_pos
      change (history.proper && history.channel.closed && (buffer history.channel).isEmpty) = false
      rw [some, Bool.and_false]
  | send value | stop => cases receives

theorem improper_move (improper : history.proper = false)
    (moved : (calls α).move history call = some next) : next.proper = false := by
  simp only [calls, Option.map_eq_some_iff] at moved
  obtain ⟨⟨channel, result⟩, _, recorded⟩ := moved
  subst recorded
  cases result with
  | received result =>
      cases result with
      | none => simp [History.record, improper]
      | some value => exact improper
  | _ => exact improper

theorem exec_cases {sequence : List (Call α)} {last : History α} (kept : Kept history)
    (performed : (calls α).exec Machine.free history sequence = some last) :
    (calls α).exec SpareWhenLast history sequence = some last ∧ Kept last ∨
      (calls α).exec SpareWhenLast history sequence = none ∧ last.proper = false := by
  induction sequence generalizing history with
  | nil =>
      cases performed
      exact .inl ⟨rfl, kept⟩
  | cons call rest ih =>
      obtain ⟨_, next, moved, remaining⟩ := Machine.exec_cons_eq_some.mp performed
      by_cases allowed : SpareWhenLast history call
      · rw [Machine.exec_cons allowed moved]
        exact ih (kept.step allowed moved) remaining
      · rw [Machine.exec_label, if_neg allowed]
        obtain ⟨after, loses, improper⟩ := kept.loses allowed
        have same : after = next := Option.some.inj (loses.symm.trans moved)
        rw [same] at improper
        have run := Machine.exec_run remaining
        exact .inr ⟨rfl, run.preserves (fun _ _ _ improper _ => improper_move improper) improper⟩

theorem drains_iff_spareWhenLast (sequence : List (Call α)) {history : History α}
    (performed : (calls α).exec Machine.free (unused α) sequence = some history) :
    Drains history ↔ (calls α).exec SpareWhenLast (unused α) sequence = some history := by
  rcases exec_cases kept_unused performed with ⟨allowed, kept⟩ | ⟨violated, improper⟩
  · exact ⟨fun _ => allowed, fun _ => kept.drains⟩
  · constructor
    · intro drains
      exact absurd drains.proper (by simp [improper])
    · intro allowed
      simp [violated] at allowed

/-- A value is sent, the channel stopped and drained. -/
theorem drains_iff_spareWhenLast_once :
    ∃ history,
      (calls ℕ).exec Machine.free (unused ℕ) [.send 7, .stop, .recv, .recv] = some history ∧
      history.received = [7] ∧ history.exhausted = true ∧ Drains history := by
  have evaluated : ((calls ℕ).exec SpareWhenLast (unused ℕ) [.send 7, .stop, .recv, .recv]).map
      (fun history => (history.received, history.exhausted)) = some ([7], true) := by
    decide +kernel
  obtain ⟨history, allowed, seen⟩ := Option.map_eq_some_iff.mp evaluated
  have performed := Machine.exec_mono (fun _ _ _ => trivial) allowed
  refine ⟨history, performed, congrArg Prod.fst seen, congrArg Prod.snd seen, ?_⟩
  exact (drains_iff_spareWhenLast [.send 7, .stop, .recv, .recv] performed).mpr allowed

/-! ## A channel that is full when it is stopped -/

theorem move_send (kept : Kept history) (isOpen : history.channel.closed = false)
    (notRoomy : history.roomy = false) (room : (buffer history.channel).length < 1024) (value : α) :
    ∃ next, (calls α).move history (.send value) = some next ∧ Kept next ∧
      next.channel.closed = false ∧ next.roomy = false ∧
        (buffer next.channel).length = (buffer history.channel).length + 1 := by
  have balance := kept.room isOpen
  obtain ⟨storage, _, pushed, performed⟩ :=
    perform_send isOpen (by omega) kept.quiet room value
  have moved := move_of_perform performed
  refine ⟨_, moved, kept.send isOpen moved, rfl, notRoomy, ?_⟩
  simp only [History.record, buffer, pushed, List.length_append, List.length_singleton]

theorem move_recv (kept : Kept history) (closed : history.channel.closed = true)
    (notRoomy : history.roomy = false) (more : 2 ≤ (buffer history.channel).length) :
    ∃ next, (calls α).move history .recv = some next ∧ Kept next ∧
      next.channel.closed = true ∧ next.roomy = false ∧
        (buffer next.channel).length + 1 = (buffer history.channel).length := by
  have matched := kept.matched notRoomy
  have available : history.channel.countSem ≠ 0 := by omega
  have fewer := acquired_eq kept.counted available
  obtain ⟨storage, _, left, performed⟩ := perform_recv available (fun _ => by omega) kept.quiet
  have spareLeft : SpareWhenLast history .recv := by
    rintro ⟨_, _, _, one⟩
    omega
  cases holdsValues : buffer history.channel with
  | nil => simp [holdsValues] at more
  | cons value rest =>
      rw [holdsValues] at performed left
      have moved := move_of_perform performed
      refine ⟨_, moved, kept.recv spareLeft moved, ?_, ?_, ?_⟩
      · simp only [History.record, List.head?_cons, closed]
      · simp only [History.record, List.head?_cons, notRoomy]
      · simp only [History.record, List.head?_cons, buffer, left, List.tail_cons, List.length_cons]

theorem exec_sends (count : ℕ) (value : α) (kept : Kept history)
    (isOpen : history.channel.closed = false) (notRoomy : history.roomy = false)
    (room : (buffer history.channel).length + count ≤ 1024) :
    ∃ last, (calls α).exec Machine.free history (.replicate count (.send value)) = some last ∧
      Kept last ∧ last.roomy = false ∧
        (buffer last.channel).length = (buffer history.channel).length + count := by
  induction count generalizing history with
  | zero => exact ⟨history, rfl, kept, notRoomy, rfl⟩
  | succ count ih =>
      obtain ⟨next, moved, keptNext, stillOpen, stillNotRoomy, longer⟩ :=
        move_send kept isOpen notRoomy (by omega) value
      obtain ⟨last, sends, keptLast, lastNotRoomy, length⟩ :=
        ih keptNext stillOpen stillNotRoomy (by omega)
      refine ⟨last, ?_, keptLast, lastNotRoomy, by omega⟩
      rw [List.replicate_succ, Machine.exec_cons trivial moved]
      exact sends

theorem exec_recvs (count : ℕ) (kept : Kept history) (closed : history.channel.closed = true)
    (notRoomy : history.roomy = false) (length : (buffer history.channel).length = count + 1) :
    ∃ last, (calls α).exec Machine.free history (.replicate count .recv) = some last ∧
      Kept last ∧ last.channel.closed = true ∧ last.roomy = false ∧
        (buffer last.channel).length = 1 := by
  induction count generalizing history with
  | zero => exact ⟨history, rfl, kept, closed, notRoomy, length⟩
  | succ count ih =>
      obtain ⟨next, moved, keptNext, stillClosed, stillNotRoomy, shorter⟩ :=
        move_recv kept closed notRoomy (by omega)
      obtain ⟨last, receives, keptLast, lastClosed, lastNotRoomy, one⟩ :=
        ih keptNext stillClosed stillNotRoomy (by omega)
      refine ⟨last, ?_, keptLast, lastClosed, lastNotRoomy, one⟩
      rw [List.replicate_succ, Machine.exec_cons trivial moved]
      exact receives

/-- With 1024 values buffered `stop` cannot add the permit that the receiver of
the last value leaves behind, so this receiver takes itself for the last one. -/
theorem full_channel_keeps_last_value :
    ∃ history, (calls ℕ).exec Machine.free (unused ℕ)
        (.replicate 1024 (.send 7) ++ .stop :: (.replicate 1023 .recv ++ [.recv])) = some history ∧
      ¬ Drains history := by
  have nothing : (buffer (unused ℕ).channel).length = 0 := by
    simp [unused, create, buffer, values, Storage.create]
  obtain ⟨full, sends, keptFull, fullNotRoomy, length⟩ :=
    exec_sends 1024 7 kept_unused rfl rfl (by rw [nothing])
  rw [nothing, Nat.zero_add] at length
  have performed := perform_stop full.channel
  generalize released full.channel.countSem = count at performed
  generalize released full.channel.backpressSem = free at performed
  have stopped := move_of_perform performed
  have stillNotRoomy : (full.roomy || decide ((buffer full.channel).length < 1024)) = false := by
    simp [fullNotRoomy, length]
  obtain ⟨last, receives, keptLast, closed, notRoomy, one⟩ :=
    exec_recvs 1023 (keptFull.stop stopped) rfl stillNotRoomy length
  have violated : ¬ SpareWhenLast last .recv := not_not.mpr ⟨rfl, closed, notRoomy, one⟩
  obtain ⟨final, drained, improper⟩ := keptLast.loses violated
  refine ⟨final, ?_, fun drains => ?_⟩
  · rw [Machine.exec_append sends, Machine.exec_cons trivial stopped,
      Machine.exec_append receives, Machine.exec_cons trivial drained]
    rfl
  · simp [drains.proper] at improper

end Asco.Sync.Channel
