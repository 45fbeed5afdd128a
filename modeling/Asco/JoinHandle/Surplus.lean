import Asco.JoinHandle.Awaiting

namespace Asco.JoinHandle

open Foundation

/-! # Wake-ups that outlive the await

`await_suspend` publishes the token of the awaiter before it exchanges
`cstate`, so a completer may find the token of an awaiter that is about to see
`completed` and return without suspending.
-/

variable {α ε : Type*} {task next : TaskState α ε} {pc : Pc α ε} {finish : Option (Pc α ε)}
  {spurious : Bool} {completer : Completer α ε}

/-- The exchange to `awaitable_waiting` has succeeded: the awaiter is about to
call `suspend_current`, or has called it. -/
def Awaiter.suspends : Awaiter α ε → Bool
  | .suspendCurrent | .waiting => true
  | _ => false

/-- The await is over. -/
def Awaiter.isResumed : Awaiter α ε → Bool
  | .resumed _ => true
  | _ => false

/-- No wake-up of the awaiter is noted, and its next `suspend_current` suspends it. -/
def TaskState.Even (task : TaskState α ε) : Prop :=
  task.preawake = false ∧ task.suspendCaller.suspended = true

/-- The token of the awaiter is there to be found. -/
def TokenPublished : Awaiter α ε → Bool
  | .ready | .storeToken => false
  | _ => true

/-- The awaiter has published its token and does not call `suspend_current` any more. -/
def Awaiter.leaves (awaiter : Awaiter α ε) : Bool := TokenPublished awaiter && !awaiter.suspends

/-! ## One step of a completer -/

theorem finish_fields (task : TaskState α ε) (completer : Completer α ε) :
    (task.finish completer).1.awaiter = task.awaiter ∧
      (task.finish completer).1.callerAwakeToken = task.callerAwakeToken ∧
      (task.finish completer).1.preawake = task.preawake ∧
      (task.finish completer).1.suspended = task.suspended ∧
      ¬ Waking (task.finish completer).2 := by
  refine ⟨rfl, rfl, rfl, rfl, ?_⟩
  cases completer <;> exact fun waking => waking

theorem afterAwake_fields (task : TaskState α ε) (completer : Completer α ε) :
    (task.afterAwake completer).1.awaiter = task.awaiter ∧
      (task.afterAwake completer).1.callerAwakeToken = task.callerAwakeToken ∧
      (task.afterAwake completer).1.preawake = task.preawake ∧
      (task.afterAwake completer).1.suspended = task.suspended ∧
      ¬ Waking (task.afterAwake completer).2 := by
  cases completer with
  | cancel => exact ⟨rfl, rfl, rfl, rfl, fun waking => waking⟩
  | returnValue | returnVoid | unhandledException | final => exact finish_fields task _

theorem awakeCaller_fields (task : TaskState α ε) :
    task.awakeCaller.awaiter = task.awaiter ∧
      task.awakeCaller.callerAwakeToken = task.callerAwakeToken := by
  unfold TaskState.awakeCaller
  split <;> exact ⟨rfl, rfl⟩

theorem write_fields (task : TaskState α ε) (completer : Completer α ε) :
    (task.write completer).awaiter = task.awaiter ∧
      (task.write completer).callerAwakeToken = task.callerAwakeToken ∧
      (task.write completer).preawake = task.preawake ∧
      (task.write completer).suspended = task.suspended := by
  cases completer <;> exact ⟨rfl, rfl, rfl, rfl⟩

theorem resume_awaiter (task : TaskState α ε) (spurious : Bool) (pc : Pc α ε) :
    (resume task spurious pc).1.awaiter = task.awaiter ∧
      (resume task spurious pc).1.callerAwakeToken = task.callerAwakeToken := by
  cases pc with
  | markLoad completer =>
      simp only [resume]
      split <;> exact ⟨rfl, rfl⟩
  | markExchange completer expected =>
      simp only [resume]
      split <;> exact ⟨rfl, rfl⟩
  | write completer => exact ⟨(write_fields task completer).1, (write_fields task completer).2.1⟩
  | requestCancel completer | release completer | awakeTask => exact ⟨rfl, rfl⟩
  | loadToken completer =>
      simp only [resume]
      split
      · exact ⟨rfl, rfl⟩
      · exact ⟨(afterAwake_fields task completer).1, (afterAwake_fields task completer).2.1⟩
  | awake completer =>
      have woken := afterAwake_fields task.awakeCaller completer
      have same := awakeCaller_fields task
      exact ⟨woken.1.trans same.1, woken.2.1.trans same.2⟩
  | loadCancelToken =>
      simp only [resume]
      split <;> exact ⟨rfl, rfl⟩

/-- What the wake-up does; the completer has then done with the awaiter. -/
theorem resume_awake (task : TaskState α ε) (spurious : Bool) (completer : Completer α ε) :
    (resume task spurious (.awake completer)).1.preawake = task.awakeCaller.preawake ∧
      (resume task spurious (.awake completer)).1.suspended = task.awakeCaller.suspended ∧
      ¬ Waking (resume task spurious (.awake completer)).2 := by
  have woken := afterAwake_fields task.awakeCaller completer
  exact ⟨woken.2.2.1, woken.2.2.2.1, woken.2.2.2.2⟩

/-- Every other step of a completer leaves the awaiter's scheduler alone.  It
comes to the wake-up from the load of the token only. -/
structure Quiet (task next : TaskState α ε) (pc : Pc α ε) (finish : Option (Pc α ε)) : Prop where
  preawake : next.preawake = task.preawake
  suspended : next.suspended = task.suspended
  aims : ∀ completer, finish = some (.awake completer) →
    pc = .loadToken completer ∧ task.callerAwakeToken = true
  wakes : Waking finish → Waking (some pc) ∨
    ∃ completer, pc = .markExchange completer task.cstate

theorem Quiet.of_idle (preawake : next.preawake = task.preawake)
    (suspended : next.suspended = task.suspended) (idle : ¬ Waking finish) :
    Quiet task next pc finish where
  preawake := preawake
  suspended := suspended
  aims completer reached := by
    rw [reached] at idle
    exact absurd trivial idle
  wakes waking := absurd waking idle

theorem resume_quiet (task : TaskState α ε) (spurious : Bool)
    (other : ∀ completer, pc ≠ .awake completer) :
    Quiet task (resume task spurious pc).1 pc (resume task spurious pc).2 := by
  cases pc with
  | markLoad completer =>
      simp only [resume]
      split
      · obtain ⟨_, _, preawake, suspended, idle⟩ := finish_fields task completer
        exact .of_idle preawake suspended idle
      · exact .of_idle rfl rfl fun waking => waking
  | markExchange completer expected =>
      simp only [resume]
      split
      · rename_i same
        rw [← same.1]
        refine ⟨rfl, rfl, ?_, fun _ => .inr ⟨completer, rfl⟩⟩
        cases completer <;> exact fun _ reached => by cases reached
      · exact .of_idle rfl rfl fun waking => waking
  | write completer =>
      obtain ⟨_, _, preawake, suspended⟩ := write_fields task completer
      refine ⟨preawake, suspended, ?_, fun _ => .inl trivial⟩
      cases completer <;> exact fun _ reached => by cases reached
  | requestCancel completer | release completer =>
      exact ⟨rfl, rfl, (fun _ reached => by cases reached), fun _ => .inl trivial⟩
  | loadToken completer =>
      simp only [resume]
      split
      · rename_i token
        refine ⟨rfl, rfl, fun aimed reached => ?_, fun _ => .inl trivial⟩
        cases reached
        exact ⟨rfl, token⟩
      · obtain ⟨_, _, preawake, suspended, idle⟩ := afterAwake_fields task completer
        exact .of_idle preawake suspended idle
  | awake completer => exact absurd rfl (other completer)
  | loadCancelToken =>
      simp only [resume]
      split
      · exact .of_idle rfl rfl fun waking => waking
      · exact .of_idle rfl rfl fun waking => waking
  | awakeTask => exact .of_idle rfl rfl fun waking => waking

/-! ## Who is about to wake the awaiter -/

variable {Thread : Type*} [DecidableEq Thread]
  {pool : Pool Thread (TaskState α ε) (Option (Pc α ε))} {thread : Thread}
  {label : Label α ε}

/-- In every run at most one completer has its wake-up before it, and until then
no wake-up is noted and an awaiter that waits is suspended. -/
structure Single (pool : Pool Thread (TaskState α ε) (Option (Pc α ε))) : Prop where
  unique : ∀ one two, Waking (pool.locals one) → Waking (pool.locals two) → one = two
  quiet : ∀ thread, Waking (pool.locals thread) → pool.shared.preawake = false
  held : ∀ thread, Waking (pool.locals thread) → pool.shared.awaiter = .waiting →
    pool.shared.suspended = true
  published : pool.shared.callerAwakeToken = true → TokenPublished pool.shared.awaiter = true

omit [DecidableEq Thread] in
/-- Before the task is completed nobody wakes the awaiter. -/
theorem Awaited.idle [Fintype Thread] (awaited : Awaited pool)
    (pending : pool.shared.cstate ≠ .completed) (thread : Thread) :
    ¬ Waking (pool.locals thread) := by
  intro waking
  have none := awaited.sound.not_completed pending
  cases found : pool.locals thread with
  | none =>
      rw [found] at waking
      exact waking
  | some pc =>
      have stands := awaited.standing thread pc found
      rw [found] at waking
      cases pc with
      | write | requestCancel | release | loadToken | awake =>
          rw [Standing, none] at stands
          cases stands
      | markLoad | markExchange | loadCancelToken | awakeTask => exact waking

/-- A step of the awaiter while some completer has its wake-up before it. -/
theorem awaiterStep_held {waking writing : Prop} (sound : Sound task waking writing)
    (stepped : awaiterStep task spurious = some next) :
    (TokenPublished task.awaiter = true → TokenPublished next.awaiter = true) ∧
      (next.callerAwakeToken = true →
        task.callerAwakeToken = true ∨ TokenPublished next.awaiter = true) ∧
      (task.preawake = false → next.preawake = false ∧
        (next.awaiter = .waiting → next.suspended = true)) := by
  obtain ⟨isVoid, cstate, value, ePtr, released, callerAwakeToken, cancelRequested,
    cancelAwakeToken, taskWakeUps, awaiter, suspended, preawake, winners, returned⟩ := task
  cases awaiter with
  | ready | suspendLoad | suspendExchange | waiting =>
      simp only [awaiterStep] at stepped
      split at stepped <;> cases stepped <;> simp [TokenPublished]
  | storeToken | resumeLoad | resumeRead =>
      cases stepped
      simp [TokenPublished]
  | suspendCurrent =>
      cases stepped
      refine ⟨fun _ => rfl, fun _ => .inr rfl, fun calm => ?_⟩
      simp only at calm
      subst calm
      exact ⟨rfl, fun _ => rfl⟩
  | resumed read => contradiction

omit [DecidableEq Thread] in
theorem single_of_fresh (fresh : Fresh pool.shared) (idle : ∀ thread, pool.locals thread = none) :
    Single pool := by
  obtain ⟨_, _, _, _, noToken, _⟩ := fresh
  have nobody (thread : Thread) : ¬ Waking (pool.locals thread) := by
    rw [idle thread]
    exact fun waking => waking
  constructor
  · intro one _ waking
    exact absurd waking (nobody one)
  · intro thread waking
    exact absurd waking (nobody thread)
  · intro thread waking
    exact absurd waking (nobody thread)
  · intro stored
    rw [noToken] at stored
    cases stored

/-- A step of a completer that does not take on the wake-up. -/
theorem Single.keeps (single : Single pool) (awaiter : next.awaiter = pool.shared.awaiter)
    (token : next.callerAwakeToken = pool.shared.callerAwakeToken)
    (preawake : next.preawake = pool.shared.preawake)
    (suspended : next.suspended = pool.shared.suspended)
    (wakes : Waking finish → Waking (pool.locals thread)) :
    Single { shared := next, locals := Function.update pool.locals thread finish } := by
  have waking (other : Thread) (now : Waking (Function.update pool.locals thread finish other)) :
      Waking (pool.locals other) := by
    by_cases same : other = thread
    · subst same
      rw [Function.update_self] at now
      exact wakes now
    · rwa [Function.update_of_ne same] at now
  constructor
  · intro one two wakingOne wakingTwo
    exact single.unique one two (waking one wakingOne) (waking two wakingTwo)
  · intro other now
    exact preawake.trans (single.quiet other (waking other now))
  · intro other now waits
    exact suspended.trans (single.held other (waking other now) (awaiter ▸ waits))
  · intro stored
    rw [token] at stored
    have published := single.published stored
    rwa [← awaiter] at published

/-- The winner is alone with the wake-up. -/
theorem Single.wins [Fintype Thread] (awaited : Awaited pool) (single : Single pool)
    (pending : pool.shared.cstate ≠ .completed) (awaiter : next.awaiter = pool.shared.awaiter)
    (token : next.callerAwakeToken = pool.shared.callerAwakeToken)
    (preawake : next.preawake = pool.shared.preawake)
    (suspended : next.suspended = pool.shared.suspended) :
    Single { shared := next, locals := Function.update pool.locals thread finish } := by
  have alone (other : Thread) (now : Waking (Function.update pool.locals thread finish other)) :
      other = thread := by
    by_contra different
    rw [Function.update_of_ne different] at now
    exact awaited.idle pending other now
  have calm : pool.shared.preawake = false := by
    by_contra early
    exact pending (awaited.sound.early (by simpa using early))
  constructor
  · intro one two wakingOne wakingTwo
    exact (alone one wakingOne).trans (alone two wakingTwo).symm
  · intro _ _
    exact preawake.trans calm
  · intro _ _ waits
    rw [suspended]
    by_contra runs
    exact pending (awaited.sound.woken (awaiter ▸ waits) (by simpa using runs))
  · intro stored
    rw [token] at stored
    have published := single.published stored
    rwa [← awaiter] at published

theorem Single.step [Fintype Thread] (awaited : Awaited pool) (single : Single pool)
    (stepped : advance pool.shared (pool.locals thread) label = some (next, finish)) :
    Single { shared := next, locals := Function.update pool.locals thread finish } := by
  cases label with
  | call completer =>
      cases idle : pool.locals thread with
      | some pc => simp [advance, idle] at stepped
      | none =>
          simp only [advance, idle] at stepped
          split at stepped <;> cases stepped
          exact single.keeps rfl rfl rfl rfl fun waking => waking.elim
  | step spurious =>
      simp only [advance, Option.map_eq_some_iff] at stepped
      obtain ⟨pc, stands, stepped⟩ := stepped
      have same := resume_awaiter pool.shared spurious pc
      rw [stepped] at same
      by_cases awakes : ∃ completer, pc = .awake completer
      · obtain ⟨completer, rfl⟩ := awakes
        have done := (resume_awake pool.shared spurious completer).2.2
        rw [stepped] at done
        have nobody (other : Thread) :
            ¬ Waking (Function.update pool.locals thread finish other) := by
          by_cases is : other = thread
          · subst is
            rwa [Function.update_self]
          · rw [Function.update_of_ne is]
            intro waking
            exact is (single.unique other thread waking (by rw [stands]; trivial))
        refine ⟨fun one _ waking => absurd waking (nobody one),
          fun other waking => absurd waking (nobody other),
          fun other waking => absurd waking (nobody other), fun stored => ?_⟩
        rw [same.2] at stored
        have published := single.published stored
        rwa [← same.1] at published
      · have quiet := resume_quiet pool.shared spurious fun completer is =>
          awakes ⟨completer, is⟩
        rw [stepped] at quiet
        by_cases wins : ∃ completer, pc = .markExchange completer pool.shared.cstate
        · obtain ⟨completer, rfl⟩ := wins
          have pending := (awaited.standing thread _ stands).1
          exact single.wins awaited pending same.1 same.2 quiet.preawake quiet.suspended
        · refine single.keeps same.1 same.2 quiet.preawake quiet.suspended fun waking => ?_
          rw [stands]
          exact (quiet.wakes waking).resolve_right wins
  | awaiter spurious =>
      simp only [advance, Option.map_eq_some_iff, Prod.mk.injEq] at stepped
      obtain ⟨moved, stepped, rfl, rfl⟩ := stepped
      have held := awaiterStep_held awaited.sound stepped
      rw [Function.update_eq_self]
      refine ⟨single.unique, ?_, ?_, ?_⟩
      · intro other waking
        exact (held.2.2 (single.quiet other waking)).1
      · intro other waking
        exact (held.2.2 (single.quiet other waking)).2
      · intro stored
        cases held.2.1 stored with
        | inl before => exact held.1 (single.published before)
        | inr published => exact published

/-! ## Runs in which the wake-up is aimed at an awaiter that suspends -/

/-- A completer that loads the token finds none, or finds it there for an awaiter
whose exchange to `awaitable_waiting` has succeeded. -/
def TaskState.aims (task : TaskState α ε) : Option (Pc α ε) → Bool
  | some (.loadToken _) => !task.callerAwakeToken || task.awaiter.suspends
  | _ => true

def Aimed (pool : Pool Thread (TaskState α ε) (Option (Pc α ε))) : Thread × Label α ε → Prop
  | (thread, .step _) => pool.shared.aims (pool.locals thread) = true
  | (_, .call _) | (_, .awaiter _) => True

instance : DecidableRel (@Aimed α ε Thread) := by
  rintro pool ⟨thread, label⟩
  cases label with
  | step spurious => exact inferInstanceAs (Decidable (pool.shared.aims _ = true))
  | call completer | awaiter spurious => exact inferInstanceAs (Decidable True)

/-- A wake-up is on its way, or noted, only for an awaiter that suspends. -/
structure Due (pool : Pool Thread (TaskState α ε) (Option (Pc α ε))) : Prop where
  aims : ∀ thread completer, pool.locals thread = some (.awake completer) →
    pool.shared.awaiter.suspends = true
  noted : pool.shared.preawake = true → pool.shared.awaiter = .suspendCurrent

omit [DecidableEq Thread] in
theorem due_of_fresh (fresh : Fresh pool.shared) (idle : ∀ thread, pool.locals thread = none) :
    Due pool := by
  obtain ⟨_, _, _, _, _, _, _, quiet, _⟩ := fresh
  constructor
  · intro thread completer stands
    rw [idle thread] at stands
    cases stands
  · intro noted
    rw [quiet] at noted
    cases noted

/-- `suspend_current` uses up the wake-up that is noted, and an awaiter that a
completer is about to wake does not go on. -/
theorem awaiterStep_due
    (noted : task.preawake = true → task.awaiter = .suspendCurrent)
    (stepped : awaiterStep task spurious = some next) :
    (next.preawake = true → next.awaiter = .suspendCurrent) ∧
      ((task.awaiter = .waiting → task.suspended = true) → task.awaiter.suspends = true →
        next.awaiter.suspends = true) := by
  obtain ⟨isVoid, cstate, value, ePtr, released, callerAwakeToken, cancelRequested,
    cancelAwakeToken, taskWakeUps, awaiter, suspended, preawake, winners, returned⟩ := task
  cases awaiter with
  | ready | suspendLoad | suspendExchange =>
      simp only [awaiterStep] at stepped
      split at stepped <;> cases stepped <;> simp_all [Awaiter.suspends]
  | waiting =>
      simp only [awaiterStep] at stepped
      split at stepped <;> cases stepped
      simp_all [Awaiter.suspends]
  | storeToken | resumeLoad | resumeRead =>
      cases stepped
      simp_all [Awaiter.suspends]
  | suspendCurrent =>
      cases stepped
      cases preawake <;> simp [TaskState.suspendCaller, Awaiter.suspends]
  | resumed read => contradiction

/-- The wake-up of an awaiter that suspends is noted only if it comes first. -/
theorem awakeCaller_noted (suspends : task.awaiter.suspends = true)
    (held : task.awaiter = .waiting → task.suspended = true) (quiet : task.preawake = false)
    (noted : task.awakeCaller.preawake = true) : task.awaiter = .suspendCurrent := by
  cases stands : task.awaiter with
  | suspendCurrent => rfl
  | waiting =>
      simp [TaskState.awakeCaller, held stands, quiet] at noted
  | ready | storeToken | suspendLoad | suspendExchange | resumeLoad | resumeRead | resumed =>
      rw [stands] at suspends
      cases suspends

theorem Due.step (single : Single pool) (due : Due pool)
    (aimed : Aimed pool (thread, label))
    (stepped : advance pool.shared (pool.locals thread) label = some (next, finish)) :
    Due { shared := next, locals := Function.update pool.locals thread finish } := by
  cases label with
  | call completer =>
      cases idle : pool.locals thread with
      | some pc => simp [advance, idle] at stepped
      | none =>
          simp only [advance, idle] at stepped
          split at stepped <;> cases stepped
          refine ⟨?_, due.noted⟩
          intro other awaking stands
          dsimp only at stands
          by_cases same : other = thread
          · subst same
            rw [Function.update_self] at stands
            cases stands
          · rw [Function.update_of_ne same] at stands
            exact due.aims other awaking stands
  | step spurious =>
      simp only [advance, Option.map_eq_some_iff] at stepped
      obtain ⟨pc, stands, stepped⟩ := stepped
      have same := resume_awaiter pool.shared spurious pc
      rw [stepped] at same
      have others (other : Thread) (different : other ≠ thread) (awaking : Completer α ε)
          (aims : Function.update pool.locals thread finish other = some (.awake awaking)) :
          next.awaiter.suspends = true := by
        rw [Function.update_of_ne different] at aims
        rw [same.1]
        exact due.aims other awaking aims
      by_cases awakes : ∃ completer, pc = .awake completer
      · obtain ⟨completer, rfl⟩ := awakes
        have done := resume_awake pool.shared spurious completer
        rw [stepped] at done
        have waking : Waking (pool.locals thread) := by
          rw [stands]
          trivial
        constructor
        · intro other awaking aims
          dsimp only at aims
          by_cases is : other = thread
          · subst is
            rw [Function.update_self] at aims
            exact absurd (by rw [aims]; trivial) done.2.2
          · exact others other is awaking aims
        · intro noted
          rw [done.1] at noted
          rw [same.1]
          exact awakeCaller_noted (due.aims thread completer stands)
            (single.held thread waking) (single.quiet thread waking) noted
      · have quiet := resume_quiet pool.shared spurious fun completer is =>
          awakes ⟨completer, is⟩
        rw [stepped] at quiet
        constructor
        · intro other awaking aims
          dsimp only at aims
          by_cases is : other = thread
          · subst is
            rw [Function.update_self] at aims
            obtain ⟨rfl, token⟩ := quiet.aims awaking aims
            rw [Aimed, stands, TaskState.aims, token] at aimed
            rw [same.1]
            exact aimed
          · exact others other is awaking aims
        · intro noted
          rw [quiet.preawake] at noted
          exact same.1.trans (due.noted noted)
  | awaiter spurious =>
      simp only [advance, Option.map_eq_some_iff, Prod.mk.injEq] at stepped
      obtain ⟨moved, stepped, rfl, rfl⟩ := stepped
      have kept := awaiterStep_due due.noted stepped
      rw [Function.update_eq_self]
      refine ⟨fun other completer stands => ?_, kept.1⟩
      have waking : Waking (pool.locals other) := by
        rw [stands]
        trivial
      exact kept.2 (single.held other waking) (due.aims other completer stands)

/-! ## The others leave a wake-up behind -/

/-- The awaiter does not suspend, and a wake-up is noted for it or about to be. -/
structure Surplus (pool : Pool Thread (TaskState α ε) (Option (Pc α ε))) : Prop where
  completed : pool.shared.cstate = .completed
  leaves : pool.shared.awaiter.leaves = true
  awakes : pool.shared.preawake = true ∨
    ∃ thread completer, pool.locals thread = some (.awake completer)

/-- An awaiter whose token is published sees that the task is completed. -/
theorem awaiterStep_leaves {waking writing : Prop} (sound : Sound task waking writing)
    (completed : task.cstate = .completed) (leaves : task.awaiter.leaves = true)
    (stepped : awaiterStep task spurious = some next) :
    next.awaiter.leaves = true ∧ next.preawake = task.preawake := by
  have pending := sound.expects
  obtain ⟨isVoid, cstate, value, ePtr, released, callerAwakeToken, cancelRequested,
    cancelAwakeToken, taskWakeUps, awaiter, suspended, preawake, winners, returned⟩ := task
  cases awaiter with
  | ready | storeToken | suspendCurrent | waiting => cases leaves
  | suspendLoad =>
      simp only [awaiterStep] at stepped
      split at stepped <;> cases stepped
      · exact ⟨rfl, rfl⟩
      · contradiction
  | suspendExchange expected =>
      have other := pending expected rfl
      simp only [awaiterStep] at stepped
      split at stepped <;> cases stepped
      · rename_i same
        exact absurd (same.1.symm.trans completed) other
      · exact ⟨rfl, rfl⟩
  | resumeLoad | resumeRead =>
      cases stepped
      exact ⟨rfl, rfl⟩
  | resumed read => contradiction

theorem Surplus.step [Fintype Thread] (awaited : Awaited pool) (surplus : Surplus pool)
    (stepped : advance pool.shared (pool.locals thread) label = some (next, finish)) :
    Surplus { shared := next, locals := Function.update pool.locals thread finish } := by
  have stays := (awaited.step stepped).sound
  obtain ⟨completed, leaves, awakes⟩ := surplus
  have remains (other : pool.locals thread = none ∨
      ∀ completer, pool.locals thread ≠ some (.awake completer))
      (same : next.preawake = pool.shared.preawake) : next.preawake = true ∨
        ∃ one completer, Function.update pool.locals thread finish one =
          some (.awake completer) := by
    cases awakes with
    | inl noted => exact .inl (same.trans noted)
    | inr awaking =>
        obtain ⟨one, completer, stands⟩ := awaking
        refine .inr ⟨one, completer, ?_⟩
        rw [Function.update_of_ne, stands]
        rintro rfl
        cases other with
        | inl idle => cases idle.symm.trans stands
        | inr other => exact other completer stands
  cases label with
  | call completer =>
      cases idle : pool.locals thread with
      | some pc => simp [advance, idle] at stepped
      | none =>
          simp only [advance, idle] at stepped
          split at stepped <;> cases stepped
          exact ⟨completed, leaves, remains (.inl idle) rfl⟩
  | step spurious =>
      simp only [advance, Option.map_eq_some_iff] at stepped
      obtain ⟨pc, stands, stepped⟩ := stepped
      have same := resume_awaiter pool.shared spurious pc
      have follows := (resume_moved spurious (awaited.standing thread pc stands)
        (awaited.sound.mono .inr .inr)).follows.completed completed
      rw [stepped] at same follows
      refine ⟨follows, same.1 ▸ leaves, ?_⟩
      by_cases awaking : ∃ completer, pc = .awake completer
      · obtain ⟨completer, rfl⟩ := awaking
        have noted := (resume_awake pool.shared spurious completer).1
        rw [stepped] at noted
        left
        rw [noted, TaskState.awakeCaller]
        split
        · rename_i suspended
          have waits := awaited.sound.suspends suspended
          rw [waits] at leaves
          cases leaves
        · rfl
      · have quiet := resume_quiet pool.shared spurious fun completer is =>
          awaking ⟨completer, is⟩
        rw [stepped] at quiet
        refine remains (.inr fun completer is => ?_) quiet.preawake
        exact awaking ⟨completer, Option.some.inj (stands.symm.trans is)⟩
  | awaiter spurious =>
      simp only [advance, Option.map_eq_some_iff, Prod.mk.injEq] at stepped
      obtain ⟨moved, stepped, rfl, rfl⟩ := stepped
      have kept := awaiterStep_leaves awaited.sound completed leaves stepped
      rw [Function.update_eq_self]
      refine ⟨(awaiterStep_sound awaited.sound stepped).2.2.2.2 completed, kept.1, ?_⟩
      rw [kept.2]
      exact awakes

/-- A token that is found too early belongs to an awaiter that will not suspend. -/
theorem surplus_of_not_aimed [Fintype Thread] (awaited : Awaited pool) (single : Single pool)
    (missed : ¬ Aimed pool (thread, label))
    (stepped : advance pool.shared (pool.locals thread) label = some (next, finish)) :
    Surplus { shared := next, locals := Function.update pool.locals thread finish } := by
  cases label with
  | call completer => exact absurd trivial missed
  | awaiter spurious => exact absurd trivial missed
  | step spurious =>
      simp only [advance, Option.map_eq_some_iff] at stepped
      obtain ⟨pc, stands, stepped⟩ := stepped
      rw [Aimed, stands] at missed
      cases pc with
      | loadToken completer =>
          simp only [TaskState.aims, Bool.or_eq_true, Bool.not_eq_true', not_or,
            Bool.not_eq_false, Bool.not_eq_true] at missed
          obtain ⟨token, leaves⟩ := missed
          simp only [resume, token, if_true] at stepped
          cases stepped
          have won : pool.shared.winners = [completer] := awaited.standing thread _ stands
          refine ⟨(awaited.sound.won (by simp [won])).1, ?_, .inr ⟨thread, completer, ?_⟩⟩
          · simp [Awaiter.leaves, single.published token, leaves]
          · simp
      | markLoad | markExchange | write | requestCancel | release | awake | loadCancelToken
      | awakeTask => exact absurd rfl missed

/-! ## Every run -/

/-- The await is over and every completer has returned. -/
def AtRest (pool : Pool Thread (TaskState α ε) (Option (Pc α ε))) : Prop :=
  pool.shared.awaiter.isResumed = true ∧ ∀ thread, pool.locals thread = none

theorem even_iff (task : TaskState α ε) : task.Even ↔ task.preawake = false := by
  constructor
  · exact And.left
  · intro calm
    exact ⟨calm, by simp [TaskState.suspendCaller, calm]⟩

omit [DecidableEq Thread] in
theorem Due.even (due : Due pool) (settled : AtRest pool) : pool.shared.Even := by
  rw [even_iff]
  by_contra noted
  have stands := due.noted (by simpa using noted)
  have resumed := settled.1
  rw [stands] at resumed
  cases resumed

omit [DecidableEq Thread] in
theorem Surplus.not_even (surplus : Surplus pool) (settled : AtRest pool) :
    ¬ pool.shared.Even := by
  rw [even_iff]
  intro calm
  cases surplus.awakes with
  | inl noted => cases calm.symm.trans noted
  | inr awaking =>
      obtain ⟨thread, completer, stands⟩ := awaking
      cases (settled.2 thread).symm.trans stands

theorem single_of_reachable [Fintype Thread]
    (reachable : (machine Thread α ε).Reachable Machine.free pool) : Single pool := by
  refine Program.invariant_of_known reachable (fun pool reached => awaited_of_reachable reached)
    ?_ ?_
  · exact fun first started => single_of_fresh started.1 started.2
  · intro pool thread label shared finish awaited single _ stepped
    exact single.step awaited stepped

theorem due_of_aimed [Fintype Thread]
    (reachable : (machine Thread α ε).Reachable Aimed pool) : Due pool := by
  refine Program.invariant_of_known reachable (fun pool reached =>
    single_of_reachable (reached.mono fun _ _ _ => trivial)) ?_ ?_
  · exact fun first started => due_of_fresh started.1 started.2
  · intro pool thread label shared finish single due aimed stepped
    exact due.step single aimed stepped

theorem surplus_of_strays [Fintype Thread]
    {state next last : Pool Thread (TaskState α ε) (Option (Pc α ε))} {choice : Thread × Label α ε}
    (reachable : (machine Thread α ε).Reachable Machine.free state) (missed : ¬ Aimed state choice)
    (moved : (machine Thread α ε).move state choice = some next)
    (run : (machine Thread α ε).Run Machine.free next last) : Surplus last := by
  have reached := reachable.step trivial moved
  obtain ⟨thread, label⟩ := choice
  obtain ⟨shared, finish, stepped, rfl⟩ := Program.move_eq_some.mp moved
  have begins := surplus_of_not_aimed (awaited_of_reachable reachable)
    (single_of_reachable reachable) missed stepped
  refine (run.reachable_preserves Surplus reached (fun _ _ _ => trivial) ?_ begins).2
  rintro pool ⟨thread, label⟩ next reached surplus _ moved
  obtain ⟨shared, finish, stepped, rfl⟩ := Program.move_eq_some.mp moved
  exact surplus.step (awaited_of_reachable reached) stepped

/-- Once the await is over and the completers have returned, the awaiter is left
without a wake-up exactly if each of them that found a token found it for an
awaiter that suspends. -/
theorem even_iff_aimed [Fintype Thread]
    {first last : Pool Thread (TaskState α ε) (Option (Pc α ε))}
    {labels : List (Thread × Label α ε)} (started : (machine Thread α ε).start first)
    (executed : (machine Thread α ε).exec Machine.free first labels = some last)
    (settled : AtRest last) :
    last.shared.Even ↔ (machine Thread α ε).exec Aimed first labels = some last := by
  cases Machine.exec_or_strays Aimed executed with
  | inl kept =>
      have due := due_of_aimed ⟨first, started, Machine.exec_run kept⟩
      exact ⟨fun _ => kept, fun _ => due.even settled⟩
  | inr strays =>
      obtain ⟨stops, state, label, next, run, missed, moved, onwards⟩ := strays
      have reached : (machine Thread α ε).Reachable Aimed state := ⟨first, started, run⟩
      have surplus := surplus_of_strays (reached.mono fun _ _ _ => trivial) missed moved onwards
      constructor
      · exact fun even => absurd even (surplus.not_even settled)
      · intro kept
        rw [stops] at kept
        cases kept

/-- The awaiter suspends, and the task returns a value. -/
theorem even_iff_aimed_suspended :
    ∃ last : Pool (Fin 1) (TaskState ℕ String) (Option (Pc ℕ String)),
      (machine (Fin 1) ℕ String).Reachable Aimed last ∧ AtRest last ∧ last.shared.Even := by
  obtain ⟨last, executed, resumed, idle⟩ :
      ∃ last, (machine (Fin 1) ℕ String).exec Aimed (spawned (Fin 1) ℕ String false)
          (List.flatten
            [List.replicate 5 (0, .awaiter false),
              (0, .call (.returnValue 3)) :: List.replicate 7 (0, .step false),
              List.replicate 3 (0, .awaiter false)]) = some last ∧
        last.shared.awaiter.isResumed = true ∧ ∀ thread, (last.locals thread).isNone :=
    ⟨_, rfl, rfl, by decide⟩
  have settled : AtRest last := ⟨resumed, fun thread => by simpa using idle thread⟩
  have freely : (machine (Fin 1) ℕ String).exec Machine.free (spawned (Fin 1) ℕ String false) _ =
      some last := Machine.exec_mono (fun _ _ _ => trivial) executed
  exact ⟨last, ⟨_, spawned_start _ _ _ _, Machine.exec_run executed⟩, settled,
    (even_iff_aimed (spawned_start _ _ _ _) freely settled).mpr executed⟩

/-- The awaiter publishes its token, the task returns before the exchange to
`awaitable_waiting`, and the wake-up stays noted. -/
theorem published_token_overtaken :
    ¬ ∀ pool : Pool (Fin 1) (TaskState ℕ String) (Option (Pc ℕ String)),
      (machine (Fin 1) ℕ String).Reachable Machine.free pool → AtRest pool →
        pool.shared.Even := by
  intro even
  obtain ⟨pool, reachable, resumed, idle, noted⟩ :=
    Machine.reachable_of_exec (machine (Fin 1) ℕ String) Machine.free
      (spawned (Fin 1) ℕ String false)
      (List.flatten
        [List.replicate 2 (0, .awaiter false),
          (0, .call (.returnValue 3)) :: List.replicate 7 (0, .step false),
          List.replicate 3 (0, .awaiter false)])
      (fun pool => pool.shared.awaiter.isResumed = true ∧
        (∀ thread, (pool.locals thread).isNone) ∧ pool.shared.preawake = true)
      (spawned_start _ _ _ _) ⟨_, rfl, rfl, by decide, rfl⟩
  have calm := (even pool reachable ⟨resumed, fun thread => by simpa using idle thread⟩).1
  cases calm.symm.trans noted

end Asco.JoinHandle
