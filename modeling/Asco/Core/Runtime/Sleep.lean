import Asco.Core.Runtime

namespace Asco.Core.Runtime

open Foundation

/-! # Sleeping workers

A worker looks at the coroutine queue, registers as idle and sleeps.  A spawn
that pushes before the registration and consults the idle queue before it, too,
wakes nobody.
-/

variable {Worker Client τ : Type*} {state next : State Worker τ} {pc finish : Pc Worker τ}

def sleeping : Pc Worker τ → Bool
  | .sleep => true
  | _ => false

def registering : Pc Worker τ → Bool
  | .register => true
  | _ => false

/-- A thread that has an entry of the idle queue in hand. -/
def waking : Pc Worker τ → Bool
  | .awake _ => true
  | _ => false

/-- A `spawn`, `spawn_blocking` or `block_on` that has not returned. -/
def spawning : Pc Worker τ → Bool
  | .fetchRelease (some _) | .fetchAttach (some _) | .acquire _ | .tryAcquire _ | .spawnFetch _
  | .push _ _ | .awakeNext | .awake _ => true
  | _ => false

variable {pool : Pool (Worker ⊕ Client) (State Worker τ) (Pc Worker τ)}

/-- The worker sleeps without a permit pending. -/
def blocked (pool : Pool (Worker ⊕ Client) (State Worker τ) (Pc Worker τ)) (worker : Worker) :
    Bool :=
  sleeping (pool.locals (.inl worker)) && pool.shared.sem worker == 0

/-- A spawned task does not sleep with all workers. -/
def Served (pool : Pool (Worker ⊕ Client) (State Worker τ) (Pc Worker τ)) : Prop :=
  pool.shared.coroutines.length ≠ 0 →
    (∃ worker, blocked pool worker = false) ∨ ∃ thread, spawning (pool.locals thread) = true

/-- Some worker can be found by the next spawn. -/
def Findable (pool : Pool (Worker ⊕ Client) (State Worker τ) (Pc Worker τ)) : Prop :=
  (∃ worker, blocked pool worker = false) ∨ (∃ thread, waking (pool.locals thread) = true) ∨
    pool.shared.idleWorkers.length ≠ 0

/-- A worker that registers finds the coroutine queue still empty, or has a permit,
or is not the last one, or the spawn has yet to consult the idle queue. -/
def RegistersInTime (pool : Pool (Worker ⊕ Client) (State Worker τ) (Pc Worker τ))
    (label : (Worker ⊕ Client) × Label Worker τ) : Prop :=
  ∀ worker, label.1 = .inl worker → registering (pool.locals (.inl worker)) = true →
    pool.shared.coroutines.length = 0 ∨ pool.shared.sem worker ≠ 0 ∨
      (∃ other, other ≠ worker ∧ blocked pool other = false) ∨
        ∃ thread, spawning (pool.locals thread) = true

instance [Fintype Worker] [Fintype Client] [DecidableEq Worker] [DecidableEq Client] :
    DecidableRel (@RegistersInTime Worker Client τ) :=
  fun _ _ => inferInstanceAs (Decidable (∀ _, _ → _ → _ ∨ _ ∨ _ ∨ _))

instance [Fintype Worker] [Fintype Client] : Decidable (Served pool) :=
  inferInstanceAs (Decidable (_ → _ ∨ _))

/-! ## One step -/

theorem State.trySend_idleWorkers (state : State Worker τ) (task : τ) :
    (state.trySend task).sem = state.sem ∧
      (state.trySend task).idleWorkers = state.idleWorkers := by
  unfold State.trySend
  split <;> exact ⟨rfl, rfl⟩

variable [DecidableEq Worker]

/-- A worker only falls asleep from the registration. -/
theorem workerStep_awake {worker : Worker}
    (stepped : workerStep worker state pc = some (next, finish))
    (asleep : sleeping finish = true) :
    registering pc = true ∧ next = state.trySendIdle worker := by
  cases pc with
  | register =>
      cases stepped
      exact ⟨rfl, rfl⟩
  | fetchAttach spawning =>
      cases stepped
      cases spawning <;> cases asleep
  | fetch =>
      simp only [workerStep] at stepped
      split at stepped <;> cases stepped <;> cases asleep
  | spawnFetch task =>
      simp only [workerStep] at stepped
      split at stepped <;> cases stepped <;> cases asleep
  | checkActive =>
      simp only [workerStep] at stepped
      split at stepped <;> cases stepped <;> cases asleep
  | sleep =>
      simp only [workerStep] at stepped
      split at stepped <;> cases stepped
      cases asleep
  | tryAcquire task =>
      simp only [workerStep] at stepped
      split at stepped <;> cases stepped <;> cases asleep
  | fetchRelease spawning =>
      cases stepped
      cases asleep
  | _ => cases stepped

/-- What the call of a thread does to the sleep of the workers. -/
structure Called (state next : State Worker τ) (pc finish : Pc Worker τ) : Prop where
  sem : ∀ worker, state.sem worker ≤ next.sem worker
  coroutines : spawning finish = true ∨ next.coroutines = state.coroutines
  idleWorkers : waking finish = true ∨ next.idleWorkers = state.idleWorkers
  wakes : waking pc = true → ∃ worker, next.sem worker ≠ 0
  returns : spawning pc = true → waking pc = false → spawning finish = false →
    state.idleWorkers.length = 0

theorem State.awake_sem (state : State Worker τ) (woken worker : Worker) :
    state.sem worker ≤ (state.awake woken).sem worker := by
  by_cases same : worker = woken
  · subst same
    simp [State.awake]
  · simp [State.awake, same]

theorem State.activate_sem (state : State Worker τ) (worker : Worker) :
    (state.activate worker).sem = state.sem ∧
      (state.activate worker).coroutines = state.coroutines ∧
      (state.activate worker).idleWorkers = state.idleWorkers := by
  unfold State.activate
  split <;> exact ⟨rfl, rfl, rfl⟩

theorem callStep_called {client : Client}
    (stepped : callStep (.inr client) state pc = some (next, finish)) :
    Called state next pc finish := by
  cases pc with
  | acquire task =>
      simp only [callStep] at stepped
      split at stepped <;> cases stepped
      exact ⟨fun _ => le_rfl, .inl rfl, .inr rfl, nofun, nofun⟩
  | push task permitted =>
      cases stepped
      obtain ⟨sem, idleWorkers⟩ := state.trySend_idleWorkers task
      exact ⟨fun _ => by rw [sem], .inl rfl, .inr idleWorkers, nofun, nofun⟩
  | awakeNext =>
      simp only [callStep] at stepped
      split at stepped <;> cases stepped
      · rename_i empty
        exact ⟨fun _ => le_rfl, .inr rfl, .inr rfl, nofun, fun _ _ _ => by rw [empty]; rfl⟩
      · exact ⟨fun _ => le_rfl, .inl rfl, .inl rfl, nofun, nofun⟩
  | awake worker =>
      cases stepped
      exact ⟨state.awake_sem worker, .inr rfl, .inr rfl, fun _ => ⟨worker, by simp [State.awake]⟩,
        nofun⟩
  | tokenActivate worker =>
      cases stepped
      obtain ⟨sem, coroutines, idleWorkers⟩ := state.activate_sem worker
      exact ⟨fun _ => by rw [sem], .inr coroutines, .inr idleWorkers, nofun, nofun⟩
  | tokenAwake worker =>
      cases stepped
      exact ⟨state.awake_sem worker, .inr rfl, .inr rfl, nofun, nofun⟩
  | _ => cases stepped

theorem advance_called {client : Client} {label : Label Worker τ}
    (stepped : advance (.inr client) state pc label = some (next, finish)) :
    Called state next pc finish := by
  cases label with
  | step => exact callStep_called stepped
  | rest rest => cases stepped
  | spawn task =>
      simp only [advance] at stepped
      split at stepped <;> cases stepped <;>
        exact ⟨fun _ => le_rfl, .inr rfl, .inr rfl, nofun, nofun⟩
  | blockOn task =>
      simp only [advance] at stepped
      split at stepped <;> cases stepped <;>
        exact ⟨fun _ => le_rfl, .inr rfl, .inr rfl, nofun, nofun⟩
  | token worker =>
      simp only [advance] at stepped
      split at stepped <;> cases stepped <;>
        exact ⟨fun _ => le_rfl, .inr rfl, .inr rfl, nofun, nofun⟩

theorem callStep_awake {worker : Worker}
    (stepped : callStep (Sum.inl worker : Worker ⊕ Client) state pc = some (next, finish)) :
    sleeping finish = false := by
  cases pc with
  | acquire task =>
      simp only [callStep] at stepped
      split at stepped <;> cases stepped
      rfl
  | awakeNext =>
      simp only [callStep] at stepped
      split at stepped <;> cases stepped <;> rfl
  | push task permitted => cases stepped; rfl
  | awake worker => cases stepped; rfl
  | tokenActivate worker => cases stepped; rfl
  | tokenAwake worker => cases stepped; rfl
  | _ => cases stepped

theorem advance_awake {worker : Worker} {label : Label Worker τ}
    (stepped : advance (Sum.inl worker : Worker ⊕ Client) state pc label = some (next, finish))
    (asleep : sleeping finish = true) :
    registering pc = true ∧ next = state.trySendIdle worker := by
  cases label with
  | step =>
      simp only [advance] at stepped
      cases alone : workerStep worker state pc with
      | some result =>
          rw [alone] at stepped
          cases stepped
          exact workerStep_awake alone asleep
      | none =>
          rw [alone] at stepped
          exact absurd asleep (by simp [callStep_awake stepped])
  | rest rest =>
      simp only [advance] at stepped
      split at stepped <;> cases stepped
      cases asleep
  | spawn task =>
      simp only [advance] at stepped
      split at stepped <;> cases stepped <;> cases asleep
  | blockOn task =>
      simp only [advance] at stepped
      split at stepped <;> cases stepped <;> cases asleep
  | token worker =>
      simp only [advance] at stepped
      split at stepped <;> cases stepped <;> cases asleep

/-! ## Every run -/

/-- The invariant of the pool. -/
structure Attended (pool : Pool (Worker ⊕ Client) (State Worker τ) (Pc Worker τ)) : Prop where
  findable : Findable pool
  served : Served pool

variable [DecidableEq Client]

theorem unblocked_stays {shared : State Worker τ} {thread : Worker ⊕ Client} {worker : Worker}
    (different : .inl worker ≠ thread) (sem : pool.shared.sem worker ≤ shared.sem worker)
    (runs : blocked pool worker = false) :
    blocked { shared, locals := Function.update pool.locals thread finish } worker = false := by
  simp only [blocked, Bool.and_eq_false_iff, beq_eq_false_iff_ne, ne_eq] at runs ⊢
  rw [Function.update_of_ne different]
  exact runs.imp_right fun available => by omega

theorem Attended.worker_step {worker : Worker} {label : Label Worker τ} {shared : State Worker τ}
    (inTime : RegistersInTime pool (.inl worker, label))
    (stepped : advance (Sum.inl worker : Worker ⊕ Client) pool.shared (pool.locals (.inl worker))
      label = some (shared, finish)) :
    Attended { shared, locals := Function.update pool.locals (.inl worker) finish } := by
  cases asleep : sleeping finish with
  | false =>
      have runs : blocked { shared, locals := Function.update pool.locals (.inl worker) finish }
          worker = false := by
        simp [blocked, asleep]
      exact ⟨.inl ⟨worker, runs⟩, fun _ => .inl ⟨worker, runs⟩⟩
  | true =>
      obtain ⟨registers, rfl⟩ := advance_awake stepped asleep
      have kept : (pool.shared.trySendIdle worker).coroutines = pool.shared.coroutines ∧
          (pool.shared.trySendIdle worker).sem = pool.shared.sem ∧
          (pool.shared.trySendIdle worker).idleWorkers.length ≠ 0 := by
        unfold State.trySendIdle
        split
        · exact ⟨rfl, rfl, by simp⟩
        · rename_i full
          simp only [idleWorkersCapacity] at full
          exact ⟨rfl, rfl, by omega⟩
      obtain ⟨coroutines, sem, registered⟩ := kept
      refine ⟨.inr (.inr registered), ?_⟩
      intro queued
      simp only [coroutines] at queued
      cases (inTime worker rfl registers).resolve_left queued with
      | inl permit =>
          left
          refine ⟨worker, ?_⟩
          simp only [blocked, Bool.and_eq_false_iff, beq_eq_false_iff_ne]
          exact .inr (sem ▸ permit)
      | inr rest =>
          cases rest with
          | inl awake =>
              obtain ⟨other, different, runs⟩ := awake
              have apart : (Sum.inl other : Worker ⊕ Client) ≠ .inl worker := by
                simpa using different
              exact .inl ⟨other, unblocked_stays apart (by rw [sem]) runs⟩
          | inr spawns =>
              right
              exact exists_local_update (fun place => spawning place = true)
                (fun here => by cases stands : pool.locals (.inl worker) <;>
                  simp [stands, registering, spawning] at registers here) spawns

theorem Attended.client_step {client : Client} {label : Label Worker τ} {shared : State Worker τ}
    (attended : Attended pool)
    (stepped : advance (Sum.inr client : Worker ⊕ Client) pool.shared (pool.locals (.inr client))
      label = some (shared, finish)) :
    Attended { shared, locals := Function.update pool.locals (.inr client) finish } := by
  obtain ⟨findable, served⟩ := attended
  obtain ⟨sem, coroutines, idleWorkers, wakes, returns⟩ := advance_called stepped
  have stays : (∃ worker, blocked pool worker = false) → ∃ worker, blocked
      { shared, locals := Function.update pool.locals (.inr client) finish } worker = false := by
    intro some
    obtain ⟨worker, runs⟩ := some
    exact ⟨worker, unblocked_stays Sum.inl_ne_inr (sem worker) runs⟩
  have woken : waking (pool.locals (.inr client)) = true → ∃ worker, blocked
      { shared, locals := Function.update pool.locals (.inr client) finish } worker = false := by
    intro here
    obtain ⟨worker, permit⟩ := wakes here
    refine ⟨worker, ?_⟩
    simp only [blocked, Bool.and_eq_false_iff, beq_eq_false_iff_ne]
    exact .inr permit
  constructor
  · cases findable with
    | inl runs => exact .inl (stays runs)
    | inr rest =>
        cases rest with
        | inl someWaking =>
            by_cases here : waking (pool.locals (.inr client)) = true
            · exact .inl (woken here)
            · exact .inr (.inl (exists_local_update (fun place => waking place = true)
                (absurd · here) someWaking))
        | inr registered =>
            cases idleWorkers with
            | inl inHand => exact .inr (.inl ⟨.inr client, by simpa using inHand⟩)
            | inr same => exact .inr (.inr (by simpa only [same] using registered))
  · intro queued
    by_cases begun : spawning finish = true
    · exact .inr ⟨.inr client, by simpa using begun⟩
    · have ended : spawning finish = false := by simpa using begun
      have same := coroutines.resolve_left begun
      simp only [same] at queued
      by_cases inHand : waking (pool.locals (.inr client)) = true
      · exact .inl (woken inHand)
      · have empty (here : spawning (pool.locals (.inr client)) = true) :=
          returns here (by simpa using inHand) ended
        by_cases here : spawning (pool.locals (.inr client)) = true
        · cases findable with
          | inl runs => exact .inl (stays runs)
          | inr rest =>
              obtain ⟨other, wakes⟩ :=
                rest.resolve_right (fun registered => registered (empty here))
              have spawns :
                  ∃ other, waking (Function.update pool.locals (.inr client) finish other) = true :=
                exists_local_update (fun place => waking place = true) (absurd · inHand)
                  ⟨other, wakes⟩
              obtain ⟨other, wakes⟩ := spawns
              refine .inr ⟨other, ?_⟩
              dsimp only
              cases stands : Function.update pool.locals (.inr client) finish other <;>
                simp [stands, waking] at wakes
              rfl
        · cases served queued with
          | inl runs => exact .inl (stays runs)
          | inr spawns =>
              exact .inr (exists_local_update (fun place => spawning place = true)
                (absurd · here) spawns)

theorem attended_of_reachable [Nonempty Worker]
    (reachable : (machine Worker Client τ).Reachable RegistersInTime pool) : Attended pool := by
  apply Program.invariant reachable
  · intro first started
    obtain ⟨worker⟩ := ‹Nonempty Worker›
    rw [started]
    exact ⟨.inl ⟨worker, rfl⟩, fun _ => .inl ⟨worker, rfl⟩⟩
  · intro pool thread label shared finish attended inTime stepped
    cases thread with
    | inl worker => exact Attended.worker_step inTime stepped
    | inr client => exact attended.client_step stepped

theorem served_of_registersInTime [Nonempty Worker]
    (reachable : (machine Worker Client τ).Reachable RegistersInTime pool) : Served pool :=
  (attended_of_reachable reachable).served

/-- A worker sleeps, a task is spawned and waits for the worker that is woken. -/
theorem served_of_registersInTime_spawn :
    ∃ pool : Pool (Fin 1 ⊕ Fin 1) (State (Fin 1) ℕ) (Pc (Fin 1) ℕ),
      (machine (Fin 1) (Fin 1) ℕ).Reachable RegistersInTime pool ∧
        pool.shared.coroutines = [7] ∧ Served pool := by
  obtain ⟨pool, reachable, queued⟩ :=
    Machine.reachable_of_exec (machine (Fin 1) (Fin 1) ℕ) RegistersInTime
      (built (Fin 1) (Fin 1) ℕ)
      (List.flatten
        [List.replicate 3 (.inl 0, .step),
          (.inr 0, .spawn 7) :: List.replicate 4 (.inr 0, .step)])
      (fun pool => pool.shared.coroutines = [7]) rfl ⟨_, rfl, rfl⟩
  exact ⟨pool, reachable, queued, served_of_registersInTime reachable⟩

/-- The worker has found the queue empty, the task is pushed, no worker is
registered, and then the worker registers and sleeps. -/
theorem spawned_task_sleeps :
    ∃ pool : Pool (Fin 1 ⊕ Fin 1) (State (Fin 1) ℕ) (Pc (Fin 1) ℕ),
      (machine (Fin 1) (Fin 1) ℕ).Reachable Machine.free pool ∧ ¬ Served pool := by
  apply Machine.reachable_of_exec (machine (Fin 1) (Fin 1) ℕ) Machine.free
    (built (Fin 1) (Fin 1) ℕ)
    (List.flatten
      [(.inl 0, .step) :: (.inr 0, .spawn 7) :: List.replicate 3 (.inr 0, .step),
        List.replicate 2 (.inl 0, .step)])
    (fun pool => ¬ Served pool) rfl
  exact ⟨_, rfl, by decide⟩

end Asco.Core.Runtime
