import Asco.JoinHandle.Awaiting

namespace Asco.JoinHandle

open Foundation

/-! # What `await_resume` reads

`cstate` is completed before the payload is in place.  An awaiter that is woken
comes after the payload; one that finds `cstate` completed by itself may come
before it.
-/

variable {α ε : Type*} {task next : TaskState α ε} {pc : Pc α ε} {finish : Option (Pc α ε)}
  {spurious : Bool} {completer : Completer α ε}

/-- What the awaiter of a task that ended this way has to receive. -/
def Completer.outcome : Completer α ε → Read α ε
  | .returnValue value => .value value
  | .returnVoid | .final => .void
  | .unhandledException error => .rethrown (.thrown error)
  | .cancel => .rethrown .coroutineCancelled

/-- Whenever `await_resume` runs the payload of the winner is in place, and what
it read is the outcome of the winner. -/
structure Published (task : TaskState α ε) : Prop where
  placed : task.awaiter = .resumeLoad ∨ task.awaiter = .resumeRead →
    ∃ winner, task.winners = [winner] ∧ Placed task winner
  read : ∀ read, task.awaiter = .resumed read →
    ∃ winner, task.winners = [winner] ∧ read = winner.outcome

/-- The awaiter is about to load `cstate`, in `await_ready` or in the loop of
`await_suspend`. -/
def TaskState.looks (task : TaskState α ε) : Bool :=
  match task.awaiter with
  | .ready | .suspendLoad => true
  | _ => false

instance : DecidablePred (Writing : Option (Pc α ε) → Prop)
  | some (.write _) => isTrue trivial
  | none | some (.markLoad _) | some (.markExchange _ _) | some (.requestCancel _)
  | some (.release _) | some (.loadToken _) | some (.awake _) | some .loadCancelToken
  | some .awakeTask => isFalse id

variable {Thread : Type*} {pool : Pool Thread (TaskState α ε) (Option (Pc α ε))}

/-- The awaiter does not look at `cstate` between the exchange of a completer
and the write of its payload. -/
def LooksInTime (pool : Pool Thread (TaskState α ε) (Option (Pc α ε)))
    (label : Thread × Label α ε) : Prop :=
  label.2 matches .awaiter _ → pool.shared.looks = true →
    ∀ thread, ¬ Writing (pool.locals thread)

instance [Fintype Thread] : DecidableRel (@LooksInTime α ε Thread) :=
  fun _ _ => inferInstanceAs (Decidable (_ → _ → _))

/-- The awaiter goes on without another look at `cstate`. -/
def Informed (task : TaskState α ε) : Prop :=
  task.preawake = true ∨ match task.awaiter with
    | .resumeLoad | .resumeRead | .resumed _ => True
    | .waiting => task.suspended = false
    | _ => False

theorem Sound.completed_of_informed {waking writing : Prop} (sound : Sound task waking writing)
    (informed : Informed task) : task.cstate = .completed := by
  cases informed with
  | inl early => exact sound.early early
  | inr goesOn =>
      cases stands : task.awaiter with
      | resumeLoad => exact sound.seen .void (.inl stands)
      | resumeRead => exact sound.seen .void (.inr (.inl stands))
      | resumed read => exact sound.seen read (.inr (.inr stands))
      | waiting => exact sound.woken stands (by simpa [stands] using goesOn)
      | _ => simp [stands] at goesOn

/-- A winner that may wake the awaiter has released `sync_awaiter`. -/
def Released (task : TaskState α ε) : Option (Pc α ε) → Prop
  | some (.loadToken _) | some (.awake _) => 0 < task.released
  | _ => True

/-- The part of the invariant that looks at the order of the wake-up and the
payload. -/
structure Settled (pool : Pool Thread (TaskState α ε) (Option (Pc α ε))) : Prop where
  past : ∀ thread, Released pool.shared (pool.locals thread)
  calm : Informed pool.shared → ∀ thread, ¬ Writing (pool.locals thread)
  answer : ∀ read, pool.shared.awaiter = .resumed read →
    ∃ winner, pool.shared.winners = [winner] ∧ read = winner.outcome

/-! ## One step -/

/-- What a completer changes of the order. -/
structure Orderly (task next : TaskState α ε) (pc : Pc α ε) (finish : Option (Pc α ε)) : Prop where
  begins : Writing finish → task.cstate ≠ .completed
  informs : Informed next → Informed task ∨ 0 < task.released ∧ ¬ Writing finish
  later : task.released ≤ next.released
  released : Released next finish
  awaiter : next.awaiter = task.awaiter

theorem finish_orderly (task : TaskState α ε) (pc : Pc α ε) (completer : Completer α ε) :
    Orderly task (task.finish completer).1 pc (task.finish completer).2 := by
  cases completer <;> exact ⟨nofun, .inl, le_rfl, trivial, rfl⟩

theorem afterAwake_orderly (task : TaskState α ε) (pc : Pc α ε) (completer : Completer α ε) :
    Orderly task (task.afterAwake completer).1 pc (task.afterAwake completer).2 := by
  cases completer with
  | cancel => exact ⟨nofun, .inl, le_rfl, trivial, rfl⟩
  | _ => exact finish_orderly task pc _

theorem awakeCaller_orderly (pc : Pc α ε) (completer : Completer α ε)
    (released : 0 < task.released) :
    Orderly task (task.awakeCaller.afterAwake completer).1 pc
      (task.awakeCaller.afterAwake completer).2 := by
  have same : task.awakeCaller.released = task.released ∧
      task.awakeCaller.awaiter = task.awaiter := by
    unfold TaskState.awakeCaller
    split <;> exact ⟨rfl, rfl⟩
  have ends := afterAwake_orderly task.awakeCaller pc completer
  have quiet : ¬ Writing (task.awakeCaller.afterAwake completer).2 := by
    cases completer <;> exact id
  exact ⟨fun writing => absurd writing quiet, fun _ => .inr ⟨released, quiet⟩,
    same.1 ▸ ends.later, ends.released, ends.awaiter.trans same.2⟩

theorem resume_orderly (spurious : Bool) (standing : Standing task pc)
    (released : Released task (some pc)) :
    Orderly task (resume task spurious pc).1 pc (resume task spurious pc).2 := by
  cases pc with
  | markLoad completer =>
      simp only [resume]
      split
      · exact finish_orderly _ _ _
      · exact ⟨(by rintro ⟨⟩), .inl, le_rfl, trivial, rfl⟩
  | markExchange completer expected =>
      simp only [resume]
      split
      · rename_i same
        have pending : task.cstate ≠ .completed := same.1 ▸ standing.1
        have payload :
            Released { task with cstate := .completed, winners := completer :: task.winners }
            (some completer.afterMark) := by cases completer <;> trivial
        exact ⟨fun _ => pending, .inl, le_rfl, payload, rfl⟩
      · exact ⟨(by rintro ⟨⟩), .inl, le_rfl, trivial, rfl⟩
  | write completer =>
      cases completer <;> exact ⟨(by rintro ⟨⟩), .inl, le_rfl, trivial, rfl⟩
  | requestCancel completer => exact ⟨(by rintro ⟨⟩), .inl, le_rfl, trivial, rfl⟩
  | release completer =>
      exact ⟨(by rintro ⟨⟩), .inl, Nat.le_succ _, Nat.succ_pos _, rfl⟩
  | loadToken completer =>
      simp only [resume]
      split
      · exact ⟨(by rintro ⟨⟩), .inl, le_rfl, released, rfl⟩
      · exact afterAwake_orderly _ _ _
  | awake completer => exact awakeCaller_orderly _ _ released
  | loadCancelToken =>
      simp only [resume]
      split
      · exact ⟨(by rintro ⟨⟩), .inl, le_rfl, trivial, rfl⟩
      · exact finish_orderly _ _ _
  | awakeTask =>
      have ends := finish_orderly { task with taskWakeUps := task.taskWakeUps + 1 } .awakeTask
        Completer.cancel
      exact ⟨ends.begins, ends.informs, ends.later, ends.released, ends.awaiter⟩

theorem Released.mono (later : task.released ≤ next.released) {place : Option (Pc α ε)}
    (released : Released task place) : Released next place := by
  cases place with
  | none => trivial
  | some pc =>
      cases pc with
      | loadToken completer => exact released.trans_le later
      | awake completer => exact released.trans_le later
      | _ => trivial

/-- The awaiter reads the outcome of the winner once nobody is writing. -/
theorem Sound.read_eq {waking writing : Prop} (sound : Sound task waking writing)
    (completed : task.cstate = .completed) (calm : ¬ writing) :
    ∃ winner, task.winners = [winner] ∧ Placed task winner ∧ task.read = winner.outcome := by
  obtain ⟨_, winner, winners, offered, payload⟩ := sound.won (sound.winners_of_completed completed)
  have placed : Placed task winner := payload.resolve_right fun early => calm early.1
  refine ⟨winner, winners, placed, ?_⟩
  cases winner with
  | returnValue value =>
      have nonvoid : task.isVoid = false := by simpa [TaskState.offers] using offered
      simp only [TaskState.read, placed.1, placed.2, nonvoid, Completer.outcome]
  | returnVoid =>
      have void : task.isVoid = true := offered
      simp only [TaskState.read, placed.2, void, Completer.outcome]
  | unhandledException error => simp only [TaskState.read, placed.2, Completer.outcome]
  | cancel => simp only [TaskState.read, placed.2, Completer.outcome]
  | final => simp [TaskState.offers] at offered

/-- An awaiter that is not looking at `cstate` was informed before. -/
theorem awaiterStep_informed (stepped : awaiterStep task spurious = some next)
    (informed : Informed next) : task.looks = true ∨ Informed task := by
  cases stands : task.awaiter with
  | ready => exact .inl (by simp [TaskState.looks, stands])
  | suspendLoad => exact .inl (by simp [TaskState.looks, stands])
  | storeToken =>
      simp only [awaiterStep, stands, Option.some.injEq] at stepped
      subst stepped
      exact .inr (informed.imp_right False.elim)
  | suspendExchange expected =>
      simp only [awaiterStep, stands] at stepped
      split at stepped <;> cases stepped <;> exact .inr (informed.imp_right False.elim)
  | suspendCurrent =>
      simp only [awaiterStep, stands, Option.some.injEq] at stepped
      subst stepped
      right
      left
      cases early : task.preawake with
      | true => rfl
      | false => simp [Informed, TaskState.suspendCaller, early] at informed
  | waiting =>
      simp only [awaiterStep, stands] at stepped
      split at stepped
      · contradiction
      · rename_i runs
        exact .inr (.inr (by simpa [stands] using runs))
  | resumeLoad => exact .inr (.inr (by simp [stands]))
  | resumeRead => exact .inr (.inr (by simp [stands]))
  | resumed read => simp [awaiterStep, stands] at stepped

theorem awaiterStep_resumed {read : Read α ε} (stepped : awaiterStep task spurious = some next)
    (resumed : next.awaiter = .resumed read) :
    task.awaiter = .resumeRead ∧ read = task.read := by
  cases stands : task.awaiter with
  | ready =>
      simp only [awaiterStep, stands] at stepped
      split at stepped <;> cases stepped <;> cases resumed
  | suspendLoad =>
      simp only [awaiterStep, stands] at stepped
      split at stepped <;> cases stepped <;> cases resumed
  | suspendExchange expected =>
      simp only [awaiterStep, stands] at stepped
      split at stepped <;> cases stepped <;> cases resumed
  | waiting =>
      simp only [awaiterStep, stands] at stepped
      split at stepped <;> cases stepped
      cases resumed
  | resumeRead =>
      simp only [awaiterStep, stands, Option.some.injEq] at stepped
      subst stepped
      cases resumed
      exact ⟨rfl, rfl⟩
  | resumed read => simp [awaiterStep, stands] at stepped
  | _ =>
      simp only [awaiterStep, stands, Option.some.injEq] at stepped
      subst stepped
      cases resumed

/-! ## Every run -/

section

variable [Fintype Thread]

/-- After the release nothing is left to write. -/
theorem Awaited.released_writing (awaited : Awaited pool) (released : 0 < pool.shared.released)
    (thread : Thread) : ¬ Writing (pool.locals thread) := by
  intro writing
  have counted : releasing (pool.locals thread) ≤ tally releasing pool.locals :=
    weight_le_tally thread
  have waits : releasing (pool.locals thread) = 1 := by
    cases stands : pool.locals thread with
    | none => simp [stands, Writing] at writing
    | some pc => cases pc <;> simp_all [Writing, releasing]
  have balanced := awaited.balanced
  by_cases none : pool.shared.winners = []
  · simp only [none, List.length_nil] at balanced
    omega
  · obtain ⟨_, winner, winners, _⟩ := awaited.sound.won none
    simp only [winners, List.length_singleton] at balanced
    omega

variable [DecidableEq Thread]

theorem Settled.step {thread : Thread} {label : Label α ε} {shared : TaskState α ε}
    (awaited : Awaited pool) (settled : Settled pool) (inTime : LooksInTime pool (thread, label))
    (stepped : advance pool.shared (pool.locals thread) label = some (shared, finish)) :
    Settled { shared, locals := Function.update pool.locals thread finish } := by
  have sound := awaited.sound
  have standing := awaited.standing
  obtain ⟨past, calm, answer⟩ := settled
  cases label with
  | call completer =>
      cases idle : pool.locals thread with
      | some pc => simp [advance, idle] at stepped
      | none =>
          simp only [advance, idle] at stepped
          split at stepped <;> cases stepped
          constructor
          · exact (Function.forall_update_iff _ fun _ place => Released pool.shared place).mpr
              ⟨trivial, fun other _ => past other⟩
          · intro informed
            exact (Function.forall_update_iff _ fun _ place => ¬ Writing place).mpr
              ⟨id, fun other _ => calm informed other⟩
          · exact answer
  | step spurious =>
      simp only [advance, Option.map_eq_some_iff] at stepped
      obtain ⟨pc, stands, stepped⟩ := stepped
      have here := past thread
      rw [stands] at here
      have follows : Follows pool.shared shared := by
        have anyway : Sound pool.shared (Waking (some pc) ∨ True) (Writing (some pc) ∨ True) :=
          sound.mono (fun _ => .inr trivial) (fun _ => .inr trivial)
        have moved := resume_moved spurious (standing thread pc stands) anyway
        rw [stepped] at moved
        exact moved.follows
      have orderly := resume_orderly spurious (standing thread pc stands) here
      rw [stepped] at orderly
      constructor
      · exact (Function.forall_update_iff _ fun _ place => Released shared place).mpr
          ⟨orderly.released, fun other _ => (past other).mono orderly.later⟩
      · intro informed
        apply (Function.forall_update_iff _ fun _ place => ¬ Writing place).mpr
        cases orderly.informs informed with
        | inl before =>
            have completed := sound.completed_of_informed before
            exact ⟨fun writing => orderly.begins writing completed,
              fun other _ => calm before other⟩
        | inr woken =>
            exact ⟨woken.2, fun other _ => awaited.released_writing woken.1 other⟩
      · intro read resumed
        obtain ⟨winner, winners, outcome⟩ := answer read (orderly.awaiter ▸ resumed)
        exact ⟨winner, (follows.winners (by simp [winners])).trans winners, outcome⟩
  | awaiter spurious =>
      simp only [advance, Option.map_eq_some_iff, Prod.mk.injEq] at stepped
      obtain ⟨next, stepped, rfl, rfl⟩ := stepped
      obtain ⟨_, winners, released, _, _⟩ := awaiterStep_sound sound stepped
      rw [Function.update_eq_self]
      constructor
      · exact fun other => (past other).mono released.ge
      · intro informed
        cases awaiterStep_informed stepped informed with
        | inl looks => exact inTime rfl looks
        | inr before => exact calm before
      · intro read resumed
        obtain ⟨reads, rfl⟩ := awaiterStep_resumed stepped resumed
        have before : Informed pool.shared := .inr (by simp [reads])
        have settled : ¬ ∃ other, Writing (pool.locals other) :=
          not_exists.mpr (calm before)
        obtain ⟨winner, won, _, outcome⟩ :=
          sound.read_eq (sound.completed_of_informed before) settled
        exact ⟨winner, winners.trans won, outcome⟩

theorem settled_of_reachable
    (reachable : (machine Thread α ε).Reachable LooksInTime pool) : Settled pool := by
  apply Program.invariant_of_known reachable
  · exact fun pool before => awaited_of_reachable (before.mono fun _ _ _ => trivial)
  · intro first started
    have idle := started.2
    obtain ⟨_, _, _, _, _, ready, _, notPreawake, _⟩ := started.1
    constructor
    · exact fun thread => by rw [idle thread]; trivial
    · exact fun _ thread => by rw [idle thread]; exact id
    · exact fun read resumed => by simp [resumed] at ready
  · intro pool thread label shared finish awaited settled inTime stepped
    exact settled.step awaited inTime stepped

theorem published_of_looksInTime
    (reachable : (machine Thread α ε).Reachable LooksInTime pool) : Published pool.shared := by
  have awaited := awaited_of_reachable (reachable.mono fun _ _ _ => trivial)
  have settled := settled_of_reachable reachable
  constructor
  · intro stands
    have informed : Informed pool.shared := by
      cases stands with
      | inl loads => exact .inr (by simp [loads])
      | inr reads => exact .inr (by simp [reads])
    obtain ⟨winner, won, placed, _⟩ := awaited.sound.read_eq
      (awaited.sound.completed_of_informed informed) (not_exists.mpr (settled.calm informed))
    exact ⟨winner, won, placed⟩
  · exact settled.answer

end

/-- The awaiter suspends, the task returns a value and the awaiter receives it. -/
theorem published_of_looksInTime_value :
    ∃ pool : Pool (Fin 2) (TaskState ℕ String) (Option (Pc ℕ String)),
      (machine (Fin 2) ℕ String).Reachable LooksInTime pool ∧
        pool.shared.awaiter matches .resumed (.value 3) ∧ Published pool.shared := by
  obtain ⟨pool, reachable, resumed⟩ :=
    Machine.reachable_of_exec (machine (Fin 2) ℕ String) LooksInTime
      (spawned (Fin 2) ℕ String false)
      (List.flatten
        [List.replicate 5 (0, .awaiter false),
          (0, .call (.returnValue 3)) :: List.replicate 7 (0, .step false),
          List.replicate 3 (0, .awaiter false)])
      (fun pool => pool.shared.awaiter matches .resumed (.value 3))
      (spawned_start _ _ _ _) ⟨_, rfl, rfl⟩
  exact ⟨pool, reachable, resumed, published_of_looksInTime reachable⟩

/-- The awaiter looks between the exchange of `return_value` and the
construction of the value. -/
theorem value_read_before_construction :
    ∃ pool : Pool (Fin 2) (TaskState ℕ String) (Option (Pc ℕ String)),
      (machine (Fin 2) ℕ String).Reachable Machine.free pool ∧ ¬ Published pool.shared := by
  apply Machine.reachable_of_exec (machine (Fin 2) ℕ String) Machine.free
    (spawned (Fin 2) ℕ String false)
    (List.flatten
      [(0, .call (.returnValue 3)) :: List.replicate 2 (0, .step false),
        List.replicate 3 (1, .awaiter false)])
    (fun pool => ¬ Published pool.shared) (spawned_start _ _ _ _)
  refine ⟨_, rfl, ?_⟩
  intro published
  obtain ⟨winner, winners, outcome⟩ := published.read .unconstructed rfl
  cases winner <;> cases outcome

end Asco.JoinHandle
