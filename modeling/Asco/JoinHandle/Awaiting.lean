import Asco.JoinHandle

namespace Asco.JoinHandle

open Foundation

/-! # One completion, and no lost wake-up -/

variable {α ε : Type*} {task next : TaskState α ε} {pc : Pc α ε} {finish : Option (Pc α ε)}
  {spurious : Bool} {completer : Completer α ε}

/-- What a completer knows of the task. -/
def Standing (task : TaskState α ε) : Pc α ε → Prop
  | .markLoad completer =>
      completer = .final ∧ task.cstate = .completed ∨ task.offers completer = true
  | .markExchange completer expected => expected ≠ .completed ∧ task.offers completer = true
  | .write completer | .requestCancel completer | .release completer | .loadToken completer
  | .awake completer => task.winners = [completer]
  | .loadCancelToken | .awakeTask => task.winners = [.cancel]

/-- A winner that has not released `sync_awaiter`. -/
def releasing : Option (Pc α ε) → ℕ
  | some (.write _) | some (.requestCancel _) | some (.release _) => 1
  | _ => 0

/-- A winner that has not decided whether to wake the awaiter, or is about to. -/
def Waking : Option (Pc α ε) → Prop
  | some (.write _) | some (.requestCancel _) | some (.release _) | some (.loadToken _)
  | some (.awake _) => True
  | _ => False

/-- A winner that has not written its payload. -/
def Writing : Option (Pc α ε) → Prop
  | some (.write _) => True
  | _ => False

/-- The payload of the completer is in place. -/
def Placed (task : TaskState α ε) : Completer α ε → Prop
  | .returnValue value => task.value = some value ∧ task.ePtr = none
  | .unhandledException error => task.value = none ∧ task.ePtr = some (.thrown error)
  | .cancel => task.value = none ∧ task.ePtr = some .coroutineCancelled
  | .returnVoid | .final => task.value = none ∧ task.ePtr = none

def Blank (task : TaskState α ε) : Prop := task.value = none ∧ task.ePtr = none

/-- What holds of the task alone; `waking` and `writing` say that some winner
still has its wake-up or its payload before it. -/
structure Sound (task : TaskState α ε) (waking writing : Prop) : Prop where
  open_ : task.winners = [] → task.cstate ≠ .completed ∧ Blank task ∧ task.returned = 0
  won : task.winners ≠ [] → task.cstate = .completed ∧ ∃ winner, task.winners = [winner] ∧
    task.offers winner = true ∧ (Placed task winner ∨ writing ∧ Blank task)
  token : ∀ expected, task.awaiter = .suspendLoad ∨ task.awaiter = .suspendExchange expected ∨
    task.awaiter = .suspendCurrent ∨ task.awaiter = .waiting → task.callerAwakeToken = true
  expects : ∀ expected, task.awaiter = .suspendExchange expected → expected ≠ .completed
  seen : ∀ read, task.awaiter = .resumeLoad ∨ task.awaiter = .resumeRead ∨
    task.awaiter = .resumed read → task.cstate = .completed
  suspends : task.suspended = true → task.awaiter = .waiting
  early : task.preawake = true → task.cstate = .completed
  woken : task.awaiter = .waiting → task.suspended = false → task.cstate = .completed
  caught : task.awaiter = .suspendCurrent → task.cstate = .completed →
    task.preawake = true ∨ waking
  onTheWay : task.suspended = true → task.cstate = .completed → waking

variable {waking writing : Prop}

theorem Sound.winners_of_completed (sound : Sound task waking writing)
    (completed : task.cstate = .completed) : task.winners ≠ [] :=
  fun none => (sound.open_ none).1 completed

theorem Sound.not_completed (sound : Sound task waking writing)
    (pending : task.cstate ≠ .completed) : task.winners = [] := by
  by_contra some
  exact pending (sound.won some).1

/-! ## One step of the awaiter -/

theorem awaiterStep_sound (sound : Sound task waking writing)
    (stepped : awaiterStep task spurious = some next) :
    Sound next waking writing ∧ next.winners = task.winners ∧ next.released = task.released ∧
      next.isVoid = task.isVoid ∧ (task.cstate = .completed → next.cstate = .completed) := by
  obtain ⟨open_, won, token, expects, seen, suspends, early, woken, caught, onTheWay⟩ := sound
  obtain ⟨isVoid, cstate, value, ePtr, released, callerAwakeToken, cancelRequested,
    cancelAwakeToken, taskWakeUps, awaiter, suspended, preawake, winners, returned⟩ := task
  cases awaiter with
  | ready =>
      simp only [awaiterStep] at stepped
      split at stepped <;> cases stepped
      · rename_i completed
        refine ⟨⟨open_, won, nofun, nofun, fun _ _ => completed, ?_, early, nofun, nofun, onTheWay⟩,
          rfl, rfl, rfl, id⟩
        exact fun isSuspended => nomatch suspends isSuspended
      · refine ⟨⟨open_, won, nofun, nofun, nofun, ?_, early, nofun, nofun, onTheWay⟩,
          rfl, rfl, rfl, id⟩
        exact fun isSuspended => nomatch suspends isSuspended
  | storeToken =>
      cases stepped
      refine ⟨⟨open_, won, fun _ _ => rfl, nofun, nofun, ?_, early, nofun, nofun, onTheWay⟩,
        rfl, rfl, rfl, id⟩
      exact fun isSuspended => nomatch suspends isSuspended
  | suspendLoad =>
      have stored := token .completed (.inl rfl)
      simp only [awaiterStep] at stepped
      split at stepped <;> cases stepped
      · rename_i completed
        refine ⟨⟨open_, won, nofun, nofun, fun _ _ => completed, ?_, early, nofun, nofun, onTheWay⟩,
          rfl, rfl, rfl, id⟩
        exact fun isSuspended => nomatch suspends isSuspended
      · rename_i pending
        refine ⟨⟨open_, won, fun _ _ => stored, ?_, nofun, ?_, early, nofun, nofun, onTheWay⟩,
          rfl, rfl, rfl, id⟩
        · rintro expected ⟨⟩
          exact pending
        · exact fun isSuspended => nomatch suspends isSuspended
  | suspendExchange expected =>
      have stored := token expected (.inr (.inl rfl))
      have pending := expects expected rfl
      simp only [awaiterStep] at stepped
      split at stepped <;> cases stepped
      · rename_i same
        have notCompleted : cstate ≠ .completed := same.1 ▸ pending
        have none : winners = [] := by
          by_contra some
          exact notCompleted (won some).1
        refine ⟨⟨fun _ => ⟨nofun, (open_ none).2⟩, fun some => absurd none some, fun _ _ => stored,
          nofun, nofun, ?_, fun isEarly => absurd (early isEarly) notCompleted, nofun, nofun, ?_⟩,
          rfl, rfl, rfl, fun completed => absurd completed notCompleted⟩
        · exact fun isSuspended => nomatch suspends isSuspended
        · exact fun isSuspended => nomatch suspends isSuspended
      · refine ⟨⟨open_, won, fun _ _ => stored, nofun, nofun, ?_, early, nofun, nofun, onTheWay⟩,
          rfl, rfl, rfl, id⟩
        exact fun isSuspended => nomatch suspends isSuspended
  | suspendCurrent =>
      have stored := token .completed (.inr (.inr (.inl rfl)))
      cases preawake with
      | true =>
          cases stepped
          refine ⟨⟨open_, won, fun _ _ => stored, nofun, nofun, fun _ => rfl, nofun,
            fun _ _ => early rfl, nofun, onTheWay⟩, rfl, rfl, rfl, id⟩
      | false =>
          cases stepped
          refine ⟨⟨open_, won, fun _ _ => stored, nofun, nofun, fun _ => rfl, nofun, nofun, nofun,
            ?_⟩, rfl, rfl, rfl, id⟩
          intro _ completed
          exact (caught rfl completed).resolve_left Bool.false_ne_true
  | waiting =>
      cases suspended with
      | true => simp [awaiterStep] at stepped
      | false =>
          cases stepped
          exact ⟨⟨open_, won, nofun, nofun, fun _ _ => woken rfl rfl, nofun, early, nofun, nofun,
            nofun⟩, rfl, rfl, rfl, id⟩
  | resumeLoad =>
      cases stepped
      have completed := seen .void (.inl rfl)
      refine ⟨⟨open_, won, nofun, nofun, fun _ _ => completed, ?_, early, nofun, nofun, onTheWay⟩,
        rfl, rfl, rfl, id⟩
      exact fun isSuspended => nomatch suspends isSuspended
  | resumeRead =>
      cases stepped
      have completed := seen .void (.inr (.inl rfl))
      refine ⟨⟨open_, won, nofun, nofun, fun _ _ => completed, ?_, early, nofun, nofun, onTheWay⟩,
        rfl, rfl, rfl, id⟩
      exact fun isSuspended => nomatch suspends isSuspended
  | resumed read => contradiction

/-! ## One step of a completer -/

/-- What the other threads may rely on. -/
structure Follows (task next : TaskState α ε) : Prop where
  isVoid : next.isVoid = task.isVoid
  winners : task.winners ≠ [] → next.winners = task.winners
  completed : task.cstate = .completed → next.cstate = .completed

theorem Follows.offers (follows : Follows task next) (completer : Completer α ε) :
    next.offers completer = task.offers completer := by
  cases completer <;> simp [TaskState.offers, follows.isVoid]

theorem Follows.standing (follows : Follows task next) (standing : Standing task pc) :
    Standing next pc := by
  have keeps (completer : Completer α ε) (won : task.winners = [completer]) :
      next.winners = [completer] := by
    rw [follows.winners (by simp [won]), won]
  cases pc with
  | markLoad completer =>
      simp only [Standing, follows.offers]
      exact standing.imp_left fun final => ⟨final.1, follows.completed final.2⟩
  | markExchange completer expected => simpa only [Standing, follows.offers] using standing
  | write completer => exact keeps _ standing
  | requestCancel completer => exact keeps _ standing
  | release completer => exact keeps _ standing
  | loadToken completer => exact keeps _ standing
  | awake completer => exact keeps _ standing
  | loadCancelToken => exact keeps _ standing
  | awakeTask => exact keeps _ standing

theorem Follows.of_same (isVoid : next.isVoid = task.isVoid)
    (winners : next.winners = task.winners) (cstate : next.cstate = task.cstate) :
    Follows task next :=
  ⟨isVoid, fun _ => winners, fun completed => cstate.trans completed⟩

theorem Sound.mono {wakingNext writingNext : Prop} (sound : Sound task waking writing)
    (wakes : waking → wakingNext) (writes : writing → writingNext) :
    Sound task wakingNext writingNext where
  open_ := sound.open_
  won := by
    intro some
    obtain ⟨completed, winner, winners, offered, payload⟩ := sound.won some
    exact ⟨completed, winner, winners, offered, payload.imp_right (And.imp_left writes)⟩
  token := sound.token
  expects := sound.expects
  seen := sound.seen
  suspends := sound.suspends
  early := sound.early
  woken := sound.woken
  caught suspending completed := (sound.caught suspending completed).imp_right wakes
  onTheWay suspended completed := wakes (sound.onTheWay suspended completed)

theorem Sound.idle (sound : Sound task (False ∨ waking) (False ∨ writing)) :
    Sound task waking writing :=
  sound.mono (fun early => early.resolve_left id) (fun early => early.resolve_left id)

theorem Sound.returns (sound : Sound task waking writing) (some : task.winners ≠ []) :
    Sound { task with returned := task.returned + 1 } waking writing :=
  ⟨fun none => absurd none some, sound.won, sound.token, sound.expects, sound.seen,
    sound.suspends, sound.early, sound.woken, sound.caught, sound.onTheWay⟩

theorem Sound.requests (sound : Sound task waking writing) :
    Sound { task with cancelRequested := true } waking writing :=
  ⟨sound.open_, sound.won, sound.token, sound.expects, sound.seen, sound.suspends, sound.early,
    sound.woken, sound.caught, sound.onTheWay⟩

theorem Sound.releases (sound : Sound task waking writing) :
    Sound { task with released := task.released + 1 } waking writing :=
  ⟨sound.open_, sound.won, sound.token, sound.expects, sound.seen, sound.suspends, sound.early,
    sound.woken, sound.caught, sound.onTheWay⟩

theorem Sound.wakesTask (sound : Sound task waking writing) :
    Sound { task with taskWakeUps := task.taskWakeUps + 1 } waking writing :=
  ⟨sound.open_, sound.won, sound.token, sound.expects, sound.seen, sound.suspends, sound.early,
    sound.woken, sound.caught, sound.onTheWay⟩

/-- The first to exchange `cstate` wins. -/
theorem Sound.wins (sound : Sound task waking writing) (pending : task.cstate ≠ .completed)
    (offered : task.offers completer = true) (wakes : waking)
    (writes : writing ∨ Placed { task with value := none, ePtr := none } completer) :
    Sound { task with cstate := .completed, winners := completer :: task.winners }
      waking writing where
  open_ := nofun
  won _ := by
    have none := sound.not_completed pending
    have blank := (sound.open_ none).2.1
    refine ⟨rfl, completer, by simp [none], offered, ?_⟩
    cases writes with
    | inl writes => exact .inr ⟨writes, blank⟩
    | inr placed =>
        refine .inl ?_
        obtain ⟨isVoid, cstate, value, ePtr⟩ := task
        obtain ⟨rfl, rfl⟩ := blank
        exact placed
  token := sound.token
  expects := sound.expects
  seen _ _ := rfl
  suspends := sound.suspends
  early _ := rfl
  woken _ _ := rfl
  caught _ _ := .inr wakes
  onTheWay _ _ := wakes

/-- The payload goes in place. -/
theorem Sound.writes (sound : Sound task waking writing) (won : task.winners = [completer])
    (stillWriting : Prop) : Sound (task.write completer) waking stillWriting where
  open_ none := by cases completer <;> simp_all [TaskState.write]
  won _ := by
    obtain ⟨completed, winner, winners, offered, payload⟩ := sound.won (by simp [won])
    obtain rfl : winner = completer := by simpa [winners] using won
    have placed : Placed (task.write winner) winner := by
      cases payload with
      | inl placed => cases winner <;> simp_all [Placed, TaskState.write]
      | inr blank =>
          obtain ⟨_, noValue, noException⟩ := blank
          cases winner <;> simp_all [Placed, TaskState.write]
    refine ⟨?_, winner, ?_, ?_, .inl placed⟩
    · cases winner <;> exact completed
    · cases winner <;> exact winners
    · cases winner <;> exact offered
  token := by cases completer <;> exact sound.token
  expects := by cases completer <;> exact sound.expects
  seen := by cases completer <;> exact sound.seen
  suspends := by cases completer <;> exact sound.suspends
  early := by cases completer <;> exact sound.early
  woken := by cases completer <;> exact sound.woken
  caught := by cases completer <;> exact sound.caught
  onTheWay := by cases completer <;> exact sound.onTheWay

/-- Without a token the awaiter has yet to look at `cstate`. -/
theorem Sound.withoutToken (sound : Sound task waking writing) (wakingNext : Prop)
    (noToken : task.callerAwakeToken = false) : Sound task wakingNext writing where
  open_ := sound.open_
  won := sound.won
  token := sound.token
  expects := sound.expects
  seen := sound.seen
  suspends := sound.suspends
  early := sound.early
  woken := sound.woken
  caught suspending := by
    have stored := sound.token .completed (.inr (.inr (.inl suspending)))
    exact absurd stored (by simp [noToken])
  onTheWay suspended := by
    have stored := sound.token .completed (.inr (.inr (.inr (sound.suspends suspended))))
    exact absurd stored (by simp [noToken])

/-- The awaiter is woken, or will not suspend. -/
theorem Sound.awakes (sound : Sound task waking writing) (wakingNext : Prop)
    (completed : task.cstate = .completed) : Sound task.awakeCaller wakingNext writing := by
  unfold TaskState.awakeCaller
  split
  · rename_i suspended
    have waiting := sound.suspends suspended
    exact ⟨sound.open_, sound.won, sound.token, sound.expects, sound.seen, nofun, sound.early,
      fun _ _ => completed, fun suspending => (nomatch waiting.symm.trans suspending), nofun⟩
  · rename_i runs
    exact ⟨sound.open_, sound.won, sound.token, sound.expects, sound.seen, sound.suspends,
      fun _ => completed, sound.woken, fun _ _ => .inl rfl, fun suspended => absurd suspended runs⟩

/-- What a completer leaves behind after one step. -/
structure Moved (task next : TaskState α ε) (pc : Pc α ε) (finish : Option (Pc α ε))
    (waking writing : Prop) : Prop where
  sound : Sound next (Waking finish ∨ waking) (Writing finish ∨ writing)
  standing : ∀ pc, finish = some pc → Standing next pc
  follows : Follows task next
  releases : next.winners.length + task.released + releasing (some pc) =
    task.winners.length + next.released + releasing finish

/-- A call that ends has been answered by a completion. -/
theorem finish_moved (completer : Completer α ε) (sound : Sound task waking writing)
    (some : task.winners ≠ []) (idle : releasing (.some pc) = 0) :
    Moved task (task.finish completer).1 pc (task.finish completer).2 waking writing := by
  have completed := (sound.won some).1
  refine ⟨?_, ?_, .of_same rfl rfl rfl, ?_⟩
  · exact (sound.returns some).mono .inr .inr
  · intro next finished
    cases completer <;> cases finished <;> exact .inl ⟨rfl, completed⟩
  · have quiet : releasing (task.finish completer).2 = 0 := by cases completer <;> rfl
    rw [idle, quiet]
    rfl

/-- Nothing is left to do for the awaiter once it has been woken. -/
theorem afterAwake_moved (sound : Sound task waking writing) (won : task.winners = [completer])
    (idle : releasing (some pc) = 0) :
    Moved task (task.afterAwake completer).1 pc (task.afterAwake completer).2 waking writing := by
  cases completer with
  | cancel =>
      refine ⟨sound.mono .inr .inr, ?_, .of_same rfl rfl rfl, ?_⟩
      · intro _ stands
        cases stands
        exact won
      · rw [idle]
        rfl
  | _ => exact finish_moved _ sound (by simp [won]) idle

theorem Follows.trans_moved {middle : TaskState α ε} (first : Follows task middle)
    (released : middle.released = task.released) (winners : middle.winners = task.winners)
    (moved : Moved middle next pc finish waking writing) :
    Moved task next pc finish waking writing where
  sound := moved.sound
  standing := moved.standing
  follows :=
    { isVoid := moved.follows.isVoid.trans first.isVoid
      winners := fun some => (moved.follows.winners (winners ▸ some)).trans winners
      completed := fun completed => moved.follows.completed (first.completed completed) }
  releases := by
    have balanced := moved.releases
    rwa [released, winners] at balanced

theorem afterMark_standing (won : task.winners = [completer]) :
    ∀ pc, some completer.afterMark = some pc → Standing task pc := by
  intro pc stands
  cases stands
  cases completer <;> exact won

theorem afterWrite_standing (won : task.winners = [completer]) :
    ∀ pc, some completer.afterWrite = some pc → Standing task pc := by
  intro pc stands
  cases stands
  cases completer <;> exact won

theorem resume_moved (spurious : Bool) (standing : Standing task pc)
    (sound : Sound task (Waking (some pc) ∨ waking) (Writing (some pc) ∨ writing)) :
    Moved task (resume task spurious pc).1 pc (resume task spurious pc).2 waking writing := by
  cases pc with
  | markLoad completer =>
      have sound := sound.idle
      simp only [resume]
      split
      · rename_i completed
        exact finish_moved _ sound (sound.winners_of_completed completed) rfl
      · rename_i pending
        refine ⟨sound.mono .inr .inr, ?_, .of_same rfl rfl rfl, rfl⟩
        intro _ stands
        cases stands
        exact ⟨pending, standing.resolve_left fun final => pending final.2⟩
  | markExchange completer expected =>
      have sound := sound.idle
      obtain ⟨notCompleted, offered⟩ := standing
      simp only [resume]
      split
      · rename_i same
        have pending : task.cstate ≠ .completed := same.1 ▸ notCompleted
        have none := sound.not_completed pending
        refine ⟨?_, afterMark_standing (by simp [none]), ⟨rfl, fun some => absurd none some,
          fun _ => rfl⟩, ?_⟩
        · refine (sound.mono .inr .inr).wins pending offered (.inl ?_) ?_
          · cases completer <;> trivial
          · cases completer with
            | returnVoid => exact .inr ⟨rfl, rfl⟩
            | final => exact .inr ⟨rfl, rfl⟩
            | _ => exact .inl (.inl trivial)
        · cases completer <;> simp +arith [releasing, Completer.afterMark]
      · refine ⟨sound.mono .inr .inr, ?_, .of_same rfl rfl rfl, rfl⟩
        intro _ stands
        cases stands
        exact .inr offered
  | write completer =>
      have winners : (task.write completer).winners = task.winners := by cases completer <;> rfl
      refine ⟨?_, afterWrite_standing (winners.trans standing), ?_, ?_⟩
      · refine (sound.mono ?_ id).writes standing _
        intro _
        left
        cases completer <;> trivial
      · cases completer <;> exact .of_same rfl rfl rfl
      · cases completer <;>
          simp [resume, releasing, Completer.afterWrite, TaskState.write]
  | requestCancel completer =>
      refine ⟨sound.requests, ?_, .of_same rfl rfl rfl, rfl⟩
      intro _ stands
      cases stands
      exact standing
  | release completer =>
      refine ⟨sound.releases, ?_, .of_same rfl rfl rfl, ?_⟩
      · intro _ stands
        cases stands
        exact standing
      · simp +arith [resume, releasing]
  | loadToken completer =>
      simp only [resume]
      split
      · refine ⟨sound, ?_, .of_same rfl rfl rfl, rfl⟩
        intro _ stands
        cases stands
        exact standing
      · rename_i noToken
        refine afterAwake_moved ?_ standing rfl
        exact (sound.withoutToken waking (by simpa using noToken)).mono id
          fun early => early.resolve_left id
  | awake completer =>
      have completed := (sound.won (by rw [standing]; nofun)).1
      have same : Follows task task.awakeCaller ∧ task.awakeCaller.released = task.released ∧
          task.awakeCaller.winners = task.winners := by
        unfold TaskState.awakeCaller
        split <;> exact ⟨.of_same rfl rfl rfl, rfl, rfl⟩
      obtain ⟨follows, released, winners⟩ := same
      refine follows.trans_moved released winners (afterAwake_moved ?_ (winners.trans standing) rfl)
      exact (sound.awakes waking completed).mono id fun early => early.resolve_left id
  | loadCancelToken =>
      have sound := sound.idle
      simp only [resume]
      split
      · refine ⟨sound.mono .inr .inr, ?_, .of_same rfl rfl rfl, rfl⟩
        intro _ stands
        cases stands
        exact standing
      · exact finish_moved _ sound (by rw [standing]; nofun) rfl
  | awakeTask =>
      have sound := sound.idle
      have woken : Follows task { task with taskWakeUps := task.taskWakeUps + 1 } :=
        .of_same rfl rfl rfl
      refine woken.trans_moved rfl rfl (finish_moved .cancel sound.wakesTask ?_ rfl)
      rw [standing]
      nofun

/-! ## Every run -/

variable {Thread : Type*} [Fintype Thread]
  {pool : Pool Thread (TaskState α ε) (Option (Pc α ε))}

/-- The invariant of the pool. -/
structure Awaited (pool : Pool Thread (TaskState α ε) (Option (Pc α ε))) : Prop where
  sound : Sound pool.shared (∃ thread, Waking (pool.locals thread))
    (∃ thread, Writing (pool.locals thread))
  standing : ∀ thread pc, pool.locals thread = some pc → Standing pool.shared pc
  balanced : pool.shared.winners.length = pool.shared.released + tally releasing pool.locals

theorem awaited_of_fresh (fresh : Fresh pool.shared) (idle : ∀ thread, pool.locals thread = none) :
    Awaited pool := by
  obtain ⟨pending, noValue, noException, released, noToken, ready, runs, notPreawake, noWinner,
    returned⟩ := fresh
  obtain ⟨task, locals⟩ := pool
  obtain rfl : locals = fun _ => none := funext idle
  obtain ⟨isVoid, cstate, value, ePtr, _, callerAwakeToken, cancelRequested, cancelAwakeToken,
    taskWakeUps, awaiter, suspended, preawake, winners, _⟩ := task
  dsimp only
    at pending noValue noException released noToken ready runs notPreawake noWinner returned
  subst pending released noToken runs notPreawake noWinner returned
  cases awaiter with
  | ready =>
      refine ⟨⟨fun _ => ⟨nofun, ⟨by simpa using noValue, by simpa using noException⟩, rfl⟩, nofun,
        nofun, nofun, nofun, nofun, nofun, nofun, nofun, nofun⟩, nofun, ?_⟩
      have none : tally releasing (fun _ : Thread => (none : Option (Pc α ε))) = 0 :=
        tally_eq_zero.mpr fun _ => rfl
      exact ((Nat.zero_add _).trans none).symm
  | _ => contradiction

variable [DecidableEq Thread]

theorem Awaited.step {thread : Thread} {label : Label α ε} {shared : TaskState α ε}
    (awaited : Awaited pool)
    (stepped : advance pool.shared (pool.locals thread) label = some (shared, finish)) :
    Awaited { shared, locals := Function.update pool.locals thread finish } := by
  obtain ⟨sound, standing, balanced⟩ := awaited
  cases label with
  | call completer =>
      cases idle : pool.locals thread with
      | some pc => simp [advance, idle] at stepped
      | none =>
          simp only [advance, idle] at stepped
          split at stepped <;> cases stepped
          rename_i offered
          refine ⟨sound.mono ?_ ?_, ?_, ?_⟩
          · exact exists_local_update _ (by simp [idle, Waking])
          · exact exists_local_update _ (by simp [idle, Writing])
          · refine (Function.forall_update_iff _ fun _ place =>
              ∀ pc, place = some pc → Standing pool.shared pc).mpr
                ⟨?_, fun other _ => standing other⟩
            intro _ started
            cases started
            exact .inr offered
          · have moved := tally_update releasing pool.locals thread (some (.markLoad completer))
            rw [idle] at moved
            rw [balanced]
            exact congrArg (pool.shared.released + ·) moved.symm
  | step spurious =>
      simp only [advance, Option.map_eq_some_iff] at stepped
      obtain ⟨pc, stands, stepped⟩ := stepped
      have others : Sound pool.shared
          (Waking (some pc) ∨ ∃ other, other ≠ thread ∧ Waking (pool.locals other))
          (Writing (some pc) ∨ ∃ other, other ≠ thread ∧ Writing (pool.locals other)) := by
        refine sound.mono ?_ ?_
        · rintro ⟨other, waking⟩
          by_cases same : other = thread
          · exact .inl (stands ▸ same ▸ waking)
          · exact .inr ⟨other, same, waking⟩
        · rintro ⟨other, writing⟩
          by_cases same : other = thread
          · exact .inl (stands ▸ same ▸ writing)
          · exact .inr ⟨other, same, writing⟩
      have moved := resume_moved spurious (standing thread pc stands) others
      rw [stepped] at moved
      refine ⟨moved.sound.mono ?_ ?_, ?_, ?_⟩
      · exact (Function.exists_update_iff _ fun _ place => Waking place).mpr
      · exact (Function.exists_update_iff _ fun _ place => Writing place).mpr
      · refine (Function.forall_update_iff _ fun _ place =>
          ∀ pc, place = some pc → Standing shared pc).mpr ⟨moved.standing, ?_⟩
        intro other _ pc stands
        exact moved.follows.standing (standing other pc stands)
      · have released := moved.releases
        have updated := tally_update releasing pool.locals thread finish
        rw [stands] at updated
        dsimp only at released ⊢
        omega
  | awaiter spurious =>
      simp only [advance, Option.map_eq_some_iff, Prod.mk.injEq] at stepped
      obtain ⟨next, stepped, rfl, rfl⟩ := stepped
      obtain ⟨sound, winners, released, isVoid, completed⟩ := awaiterStep_sound sound stepped
      have follows : Follows pool.shared next := ⟨isVoid, fun _ => winners, completed⟩
      rw [Function.update_eq_self]
      refine ⟨sound, fun other pc stands => follows.standing (standing other pc stands), ?_⟩
      dsimp only
      rw [winners, released, balanced]

theorem awaited_of_reachable
    (reachable : (machine Thread α ε).Reachable Machine.free pool) : Awaited pool := by
  refine Program.invariant reachable ?_ ?_
  · exact fun first started => awaited_of_fresh started.1 started.2
  · intro pool thread label shared finish awaited _ stepped
    exact awaited.step stepped

/-- Exactly one completer wins and releases `sync_awaiter`, and once all of them
have finished a completed task has no suspended awaiter. -/
theorem completesOnce_of_reachable
    (reachable : (machine Thread α ε).Reachable Machine.free pool) :
    (pool.shared.cstate = .completed → pool.shared.winners.length = 1) ∧
      (pool.shared.cstate ≠ .completed → pool.shared.winners = []) ∧
      (0 < pool.shared.returned → pool.shared.cstate = .completed) ∧
      pool.shared.released ≤ 1 ∧
      (pool.shared.cstate = .completed → (∀ thread, pool.locals thread = none) →
        pool.shared.released = 1 ∧ pool.shared.suspended = false) := by
  obtain ⟨sound, standing, balanced⟩ := awaited_of_reachable reachable
  have once : pool.shared.winners.length ≤ 1 := by
    by_cases none : pool.shared.winners = []
    · simp [none]
    · obtain ⟨_, winner, winners, _⟩ := sound.won none
      simp [winners]
  refine ⟨?_, sound.not_completed, ?_, by omega, ?_⟩
  · intro completed
    obtain ⟨_, winner, winners, _⟩ := sound.won (sound.winners_of_completed completed)
    simp [winners]
  · intro ended
    by_contra pending
    have notEnded := (sound.open_ (sound.not_completed pending)).2.2
    omega
  · intro completed idle
    obtain ⟨_, winner, winners, _⟩ := sound.won (sound.winners_of_completed completed)
    have settled : tally releasing pool.locals = 0 :=
      tally_eq_zero.mpr fun thread => by rw [idle thread]; rfl
    refine ⟨by simp only [winners, settled] at balanced; exact balanced.symm, ?_⟩
    by_contra suspended
    obtain ⟨thread, waking⟩ := sound.onTheWay (by simpa using suspended) completed
    rw [idle thread] at waking
    exact waking

/-- The awaiter suspends, `cancel` wins, and the task that returns finds itself
too late. -/
theorem completesOnce_of_reachable_cancel :
    ∃ pool : Pool (Fin 2) (TaskState ℕ String) (Option (Pc ℕ String)),
      (machine (Fin 2) ℕ String).Reachable Machine.free pool ∧
        pool.shared.released = 1 ∧ pool.shared.suspended = false := by
  obtain ⟨pool, reachable, completed, idle⟩ :=
    Machine.reachable_of_exec (machine (Fin 2) ℕ String) Machine.free
      (spawned (Fin 2) ℕ String false)
      (List.flatten
        [List.replicate 5 (0, .awaiter false),
          (0, .call .cancel) :: List.replicate 8 (0, .step false),
          (1, .call (.returnValue 3)) :: List.replicate 2 (1, .step false)])
      (fun pool => pool.shared.cstate = .completed ∧ ∀ thread, (pool.locals thread).isNone)
      (spawned_start _ _ _ _) ⟨_, rfl, rfl, by decide⟩
  have finished := (completesOnce_of_reachable reachable).2.2.2.2
  exact ⟨pool, reachable, finished completed fun thread => by simpa using idle thread⟩

end Asco.JoinHandle
