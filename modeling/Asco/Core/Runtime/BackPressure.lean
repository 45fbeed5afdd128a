import Asco.Core.Runtime

namespace Asco.Core.Runtime

open Foundation

/-! # The permits of the coroutine queue

Every slot of the coroutine queue is a free permit, a permit on its way in or
out, or a task, as long as no spawn inside of the runtime has to do without a
permit.
-/

variable {Worker Client τ : Type*} {state next : State Worker τ} {pc finish : Pc Worker τ}

/-- A permit that was acquired for a task not sent yet, or a task that was
fetched and whose permit is not released yet. -/
def outstanding : Pc Worker τ → ℕ
  | .push _ true | .fetchRelease _ => 1
  | _ => 0

/-- A spawn that found no permit. -/
def unpaid : Pc Worker τ → Bool
  | .spawnFetch _ | .fetchRelease (some _) | .fetchAttach (some _) | .push _ false => true
  | _ => false

def acquiring : Pc Worker τ → Bool
  | .tryAcquire _ => true
  | _ => false

/-- The law of conservation, with the call of one thread apart from the others. -/
structure Balanced (others : ℕ) (state : State Worker τ) (pc : Pc Worker τ) : Prop where
  law : state.backsem + (others + outstanding pc) + state.coroutines.length =
    coroutineQueueCapacity
  paid : unpaid pc = false
  accepted : state.rejected = []

variable {others : ℕ}

theorem Balanced.room {task : τ} {permitted : Bool}
    (balanced : Balanced others state (.push task permitted)) :
    state.coroutines.length < coroutineQueueCapacity := by
  obtain ⟨law, paid, _⟩ := balanced
  cases permitted with
  | false => cases paid
  | true =>
      simp only [outstanding] at law
      omega

theorem Balanced.trySend {task : τ} {permitted : Bool}
    (balanced : Balanced others state (.push task permitted)) :
    Balanced others (state.trySend task) .awakeNext := by
  have room := balanced.room
  obtain ⟨law, paid, accepted⟩ := balanced
  rw [State.trySend, if_pos room]
  cases permitted with
  | false => cases paid
  | true =>
      refine ⟨?_, rfl, accepted⟩
      simp only [outstanding, List.length_append, List.length_singleton] at law ⊢
      omega

theorem State.trySendIdle_balance (state : State Worker τ) (worker : Worker) :
    (state.trySendIdle worker).backsem = state.backsem ∧
      (state.trySendIdle worker).coroutines = state.coroutines ∧
      (state.trySendIdle worker).rejected = state.rejected := by
  unfold State.trySendIdle
  split <;> exact ⟨rfl, rfl, rfl⟩

theorem Balanced.stays (balanced : Balanced others state pc)
    (same : next.backsem = state.backsem ∧ next.coroutines = state.coroutines ∧
      next.rejected = state.rejected)
    (weight : outstanding finish = outstanding pc) (paid : unpaid finish = false) :
    Balanced others next finish := by
  obtain ⟨law, _, accepted⟩ := balanced
  obtain ⟨backsem, coroutines, rejected⟩ := same
  exact ⟨by rw [backsem, coroutines, weight, law], paid, rejected.trans accepted⟩

theorem Balanced.acquires {task : τ} (balanced : Balanced others state pc)
    (weightless : outstanding pc = 0) (available : state.backsem ≠ 0) :
    Balanced others { state with backsem := state.backsem - 1 } (.push task true) := by
  obtain ⟨law, _, accepted⟩ := balanced
  refine ⟨?_, rfl, accepted⟩
  rw [weightless] at law
  simp only [outstanding]
  omega

theorem home_balanced {pc : Pc Worker τ} (thread : Worker ⊕ Client)
    (balanced : Balanced others state pc)
    (same : next.backsem = state.backsem ∧ next.coroutines = state.coroutines ∧
      next.rejected = state.rejected)
    (weightless : outstanding pc = 0) : Balanced others next (home thread) := by
  cases thread <;> exact balanced.stays same weightless.symm rfl

/-! ## All threads together -/

section

variable [Fintype Worker] [Fintype Client]
  {pool : Pool (Worker ⊕ Client) (State Worker τ) (Pc Worker τ)}

/-- `m_backsem_sync` counts to one more than the capacity of the queue. -/
def backsemMax : ℕ := coroutineQueueCapacity + 1

/-- Nothing is lost between the permits and the queue. -/
structure Conserved (pool : Pool (Worker ⊕ Client) (State Worker τ) (Pc Worker τ)) : Prop where
  law : pool.shared.backsem + tally outstanding pool.locals + pool.shared.coroutines.length =
    coroutineQueueCapacity
  neverFull : ∀ thread task permitted, pool.locals thread = .push task permitted →
    pool.shared.coroutines.length < coroutineQueueCapacity
  accepted : pool.shared.rejected = []
  neverAbove : ∀ thread spawning, pool.locals thread = .fetchRelease spawning →
    pool.shared.backsem + 1 ≤ backsemMax

/-- A spawn inside of the runtime finds a permit. -/
def FindsPermit (pool : Pool (Worker ⊕ Client) (State Worker τ) (Pc Worker τ))
    (label : (Worker ⊕ Client) × Label Worker τ) : Prop :=
  acquiring (pool.locals label.1) = true → pool.shared.backsem ≠ 0

instance : DecidableRel (@FindsPermit Worker Client τ) :=
  fun _ _ => inferInstanceAs (Decidable (_ → _))

/-- The invariant of the pool. -/
structure Kept (pool : Pool (Worker ⊕ Client) (State Worker τ) (Pc Worker τ)) : Prop where
  law : pool.shared.backsem + tally outstanding pool.locals + pool.shared.coroutines.length =
    coroutineQueueCapacity
  paid : ∀ thread, unpaid (pool.locals thread) = false
  accepted : pool.shared.rejected = []

theorem Kept.conserved (kept : Kept pool) : Conserved pool := by
  obtain ⟨law, paid, accepted⟩ := kept
  refine ⟨law, ?_, accepted, ?_⟩
  · intro thread task permitted stands
    have counted : outstanding (pool.locals thread) ≤ tally outstanding pool.locals :=
      weight_le_tally thread
    have owns := paid thread
    rw [stands] at counted owns
    cases permitted with
    | false => cases owns
    | true =>
        simp only [outstanding] at counted
        omega
  · intro thread spawning stands
    simp only [backsemMax]
    omega

end

section

variable [DecidableEq Worker]

theorem State.activate_balance (state : State Worker τ) (worker : Worker) :
    (state.activate worker).backsem = state.backsem ∧
      (state.activate worker).coroutines = state.coroutines ∧
      (state.activate worker).rejected = state.rejected := by
  unfold State.activate
  split <;> exact ⟨rfl, rfl, rfl⟩

theorem State.leave_balance (state : State Worker τ) (worker : Worker) (rest : Rest) :
    (state.leave worker rest).backsem = state.backsem ∧
      (state.leave worker rest).coroutines = state.coroutines ∧
      (state.leave worker rest).rejected = state.rejected := by
  unfold State.leave
  split
  · exact ⟨rfl, rfl, rfl⟩
  · cases rest <;> exact ⟨rfl, rfl, rfl⟩

/-! ## One step -/

theorem workerStep_balanced {worker : Worker}
    (permits : acquiring pc = true → state.backsem ≠ 0) (balanced : Balanced others state pc)
    (stepped : workerStep worker state pc = some (next, finish)) : Balanced others next finish := by
  cases pc with
  | fetch =>
      simp only [workerStep] at stepped
      split at stepped <;> cases stepped
      · exact balanced.stays ⟨rfl, rfl, rfl⟩ rfl rfl
      · rename_i fetched
        obtain ⟨law, _, accepted⟩ := balanced
        refine ⟨?_, rfl, accepted⟩
        simp only [fetched, outstanding, List.length_cons] at law ⊢
        omega
  | fetchRelease spawning =>
      cases stepped
      obtain ⟨law, paid, accepted⟩ := balanced
      cases spawning with
      | some task => cases paid
      | none =>
          refine ⟨?_, rfl, accepted⟩
          simp only [outstanding] at law ⊢
          omega
  | fetchAttach spawning =>
      cases stepped
      have paid := balanced.paid
      cases spawning with
      | some task => cases paid
      | none => exact balanced.stays ⟨rfl, rfl, rfl⟩ rfl rfl
  | checkActive =>
      simp only [workerStep] at stepped
      split at stepped <;> cases stepped <;> exact balanced.stays ⟨rfl, rfl, rfl⟩ rfl rfl
  | register =>
      cases stepped
      exact balanced.stays (state.trySendIdle_balance worker) rfl rfl
  | sleep =>
      simp only [workerStep] at stepped
      split at stepped <;> cases stepped
      exact balanced.stays ⟨rfl, rfl, rfl⟩ rfl rfl
  | tryAcquire task =>
      simp only [workerStep, if_neg (permits rfl), Option.some.injEq, Prod.mk.injEq] at stepped
      obtain ⟨rfl, rfl⟩ := stepped
      exact balanced.acquires rfl (permits rfl)
  | spawnFetch task => cases balanced.paid
  | _ => cases stepped

theorem callStep_balanced {thread : Worker ⊕ Client} (balanced : Balanced others state pc)
    (stepped : callStep thread state pc = some (next, finish)) : Balanced others next finish := by
  cases pc with
  | acquire task =>
      simp only [callStep] at stepped
      split at stepped <;> cases stepped
      rename_i available
      exact balanced.acquires rfl available
  | push task permitted =>
      cases stepped
      exact balanced.trySend
  | awakeNext =>
      simp only [callStep] at stepped
      split at stepped <;> cases stepped
      · exact home_balanced _ balanced ⟨rfl, rfl, rfl⟩ rfl
      · exact balanced.stays ⟨rfl, rfl, rfl⟩ rfl rfl
  | awake worker =>
      cases stepped
      exact home_balanced _ balanced ⟨rfl, rfl, rfl⟩ rfl
  | tokenActivate worker =>
      cases stepped
      exact balanced.stays (state.activate_balance worker) rfl rfl
  | tokenAwake worker =>
      cases stepped
      exact home_balanced _ balanced ⟨rfl, rfl, rfl⟩ rfl
  | _ => cases stepped

theorem advance_balanced {thread : Worker ⊕ Client} {label : Label Worker τ}
    (permits : acquiring pc = true → state.backsem ≠ 0) (balanced : Balanced others state pc)
    (stepped : advance thread state pc label = some (next, finish)) :
    Balanced others next finish := by
  cases label with
  | step =>
      cases thread with
      | inr client => exact callStep_balanced balanced stepped
      | inl worker =>
          simp only [advance] at stepped
          cases alone : workerStep worker state pc with
          | none =>
              rw [alone] at stepped
              exact callStep_balanced balanced stepped
          | some result =>
              rw [alone] at stepped
              cases stepped
              exact workerStep_balanced permits balanced alone
  | spawn task =>
      simp only [advance] at stepped
      split at stepped <;> cases stepped <;> cases thread <;>
        exact balanced.stays ⟨rfl, rfl, rfl⟩ rfl rfl
  | blockOn task =>
      simp only [advance] at stepped
      split at stepped <;> cases stepped <;> exact balanced.stays ⟨rfl, rfl, rfl⟩ rfl rfl
  | token worker =>
      simp only [advance] at stepped
      split at stepped <;> cases stepped <;> exact balanced.stays ⟨rfl, rfl, rfl⟩ rfl rfl
  | rest rest =>
      simp only [advance] at stepped
      split at stepped <;> cases stepped
      exact balanced.stays (state.leave_balance _ rest) rfl rfl

/-! ## Every run -/

variable [Fintype Worker] [Fintype Client]
  {pool : Pool (Worker ⊕ Client) (State Worker τ) (Pc Worker τ)}

variable [DecidableEq Client]

theorem Kept.step {thread : Worker ⊕ Client} {label : Label Worker τ} {shared : State Worker τ}
    (kept : Kept pool) (finds : FindsPermit pool (thread, label))
    (stepped : advance thread pool.shared (pool.locals thread) label = some (shared, finish)) :
    Kept { shared, locals := Function.update pool.locals thread finish } := by
  obtain ⟨law, paid, accepted⟩ := kept
  obtain ⟨others, now, later⟩ := exists_tally_others outstanding pool.locals thread
  have before : Balanced others pool.shared (pool.locals thread) :=
    ⟨now ▸ law, paid thread, accepted⟩
  have after := advance_balanced finds before stepped
  refine ⟨?_, ?_, after.accepted⟩
  · rw [later finish]
    exact after.law
  · exact (Function.forall_update_iff _ fun _ place => unpaid place = false).mpr
      ⟨after.paid, fun other _ => paid other⟩

theorem kept_of_reachable (reachable : (machine Worker Client τ).Reachable FindsPermit pool) :
    Kept pool := by
  apply Program.invariant reachable
  · intro first started
    rw [started]
    refine ⟨?_, ?_, rfl⟩
    · have none : tally outstanding (built Worker Client τ).locals = 0 :=
        tally_eq_zero.mpr fun thread => by cases thread <;> rfl
      rw [none]
      rfl
    · exact fun thread => by cases thread <;> rfl
  · intro pool thread label shared finish kept finds stepped
    exact kept.step finds stepped

theorem conserved_of_findsPermit
    (reachable : (machine Worker Client τ).Reachable FindsPermit pool) : Conserved pool :=
  (kept_of_reachable reachable).conserved

end

/-- A worker fetches one task and spawns a second. -/
theorem conserved_of_findsPermit_spawn :
    ∃ pool : Pool (Fin 1 ⊕ Fin 1) (State (Fin 1) ℕ) (Pc (Fin 1) ℕ),
      (machine (Fin 1) (Fin 1) ℕ).Reachable FindsPermit pool ∧
        pool.shared.coroutines = [8] ∧ Conserved pool := by
  obtain ⟨pool, reachable, queued⟩ :=
    Machine.reachable_of_exec (machine (Fin 1) (Fin 1) ℕ) FindsPermit (built (Fin 1) (Fin 1) ℕ)
      (List.flatten
        [(.inr 0, .spawn 7) :: List.replicate 3 (.inr 0, .step),
          List.replicate 3 (.inl 0, .step),
          (.inl 0, .spawn 8) :: List.replicate 3 (.inl 0, .step)])
      (fun pool => pool.shared.coroutines = [8]) rfl ⟨_, rfl, rfl⟩
  exact ⟨pool, reachable, queued, conserved_of_findsPermit reachable⟩

/-! ## A full queue -/

/-- One worker executes a task, and `count` more wait in the queue. -/
structure Crowded (count : ℕ) (pool : Pool (Fin 1 ⊕ Fin 1) (State (Fin 1) ℕ) (Pc (Fin 1) ℕ)) :
    Prop where
  coroutines : pool.shared.coroutines.length = count
  backsem : pool.shared.backsem = coroutineQueueCapacity - count
  idleWorkers : pool.shared.idleWorkers = []
  executes : pool.locals (.inl 0) = .execute
  outside : pool.locals (.inr 0) = .outside

theorem Crowded.spawns {count : ℕ} {pool : Pool (Fin 1 ⊕ Fin 1) (State (Fin 1) ℕ) (Pc (Fin 1) ℕ)}
    (crowded : Crowded count pool) (room : count < coroutineQueueCapacity) :
    ∃ next, (machine (Fin 1) (Fin 1) ℕ).exec Machine.free pool
      ((.inr 0, .spawn 0) :: List.replicate 3 (.inr 0, .step)) = some next ∧
        Crowded (count + 1) next := by
  obtain ⟨coroutines, backsem, idleWorkers, executes, outside⟩ := crowded
  have permits : pool.shared.backsem ≠ 0 := by omega
  have fits : pool.shared.coroutines.length < coroutineQueueCapacity := by omega
  have executed : (machine (Fin 1) (Fin 1) ℕ).exec Machine.free pool
      ((.inr 0, .spawn 0) :: List.replicate 3 (.inr 0, .step)) =
      some
        { shared :=
            { pool.shared with
              coroutines := pool.shared.coroutines ++ [0], backsem := pool.shared.backsem - 1 }
          locals := Function.update pool.locals (.inr 0) .outside } := by
    simp only [List.replicate, Machine.exec_nil, Machine.exec_label, Machine.free, if_true, machine,
      Program.machine, program, advance, outside, spawn, Option.map_some, Option.bind_some,
      Function.update_self, Function.update_idem, callStep, permits, if_false, State.trySend,
      fits, idleWorkers, home]
  refine ⟨_, executed, ⟨?_, ?_, idleWorkers, ?_, ?_⟩⟩
  · simp [coroutines]
  · dsimp only
    omega
  · simp [executes]
  · simp

theorem exists_crowded (count : ℕ) (bounded : count ≤ coroutineQueueCapacity) :
    ∃ pool, (machine (Fin 1) (Fin 1) ℕ).Reachable Machine.free pool ∧ Crowded count pool := by
  induction count with
  | zero =>
      apply Machine.reachable_of_exec (machine (Fin 1) (Fin 1) ℕ) Machine.free
        (built (Fin 1) (Fin 1) ℕ)
        (List.flatten
          [(.inr 0, .spawn 0) :: List.replicate 3 (.inr 0, .step),
            List.replicate 3 (.inl 0, .step)]) (Crowded 0) rfl
      exact ⟨_, rfl, ⟨rfl, rfl, rfl, rfl, rfl⟩⟩
  | succ count ih =>
      obtain ⟨pool, reachable, crowded⟩ := ih (by omega)
      obtain ⟨first, started, run⟩ := reachable
      obtain ⟨next, executed, fuller⟩ := crowded.spawns (by omega)
      exact ⟨next, ⟨first, started, run.trans (Machine.exec_run executed)⟩, fuller⟩

/-- With the queue full and no permit free, a spawn inside of the runtime fetches
a task and releases its permit, and the next spawn outside loses its task. -/
theorem spawned_task_dropped :
    ∃ pool : Pool (Fin 1 ⊕ Fin 1) (State (Fin 1) ℕ) (Pc (Fin 1) ℕ),
      (machine (Fin 1) (Fin 1) ℕ).Reachable Machine.free pool ∧ ¬ Conserved pool := by
  obtain ⟨pool, reachable, crowded⟩ := exists_crowded coroutineQueueCapacity le_rfl
  obtain ⟨coroutines, backsem, idleWorkers, executes, outside⟩ := crowded
  obtain ⟨first, started, run⟩ := reachable
  cases queued : pool.shared.coroutines with
  | nil => simp [queued, coroutineQueueCapacity] at coroutines
  | cons task rest =>
      rw [Nat.sub_self] at backsem
      have fits : rest.length < coroutineQueueCapacity := by
        rw [queued, List.length_cons] at coroutines
        omega
      have full : ¬ rest.length + 1 < coroutineQueueCapacity := by
        rw [queued, List.length_cons] at coroutines
        omega
      let inside : Pool (Fin 1 ⊕ Fin 1) (State (Fin 1) ℕ) (Pc (Fin 1) ℕ) :=
        { shared := { pool.shared.attach 0 with coroutines := rest ++ [1], backsem := 1 }
          locals := Function.update pool.locals (.inl 0) .execute }
      have spawns : (machine (Fin 1) (Fin 1) ℕ).exec Machine.free pool
          ((.inl 0, .spawn 1) :: List.replicate 6 (.inl 0, .step)) = some inside := by
        simp only [List.replicate, Machine.exec_nil, Machine.exec_label, Machine.free, if_true,
          machine, Program.machine, program, advance, executes, spawn, Option.map_some,
          Option.bind_some, Function.update_self, Function.update_idem, workerStep, callStep,
          backsem, queued, Option.orElse_eq_orElse, Option.orElse_some, Option.orElse_none,
          afterFetch, State.trySend, State.attach, fits, if_true, idleWorkers, home, inside,
          zero_add]
      have refuses : ((machine (Fin 1) (Fin 1) ℕ).exec Machine.free inside
          ((.inr 0, .spawn 2) :: List.replicate 2 (.inr 0, .step))).map
            (fun last => last.shared.rejected) = some (pool.shared.rejected ++ [2]) := by
        simp [Machine.exec_label, Machine.free, machine, Program.machine, program, advance,
          outside, spawn, callStep, State.trySend, State.attach, full, inside]
      rw [← Machine.exec_append spawns] at refuses
      obtain ⟨last, executed, rejected⟩ := Option.map_eq_some_iff.mp refuses
      refine ⟨last, ⟨first, started, run.trans (Machine.exec_run executed)⟩, ?_⟩
      intro conserved
      simp [conserved.accepted] at rejected

end Asco.Core.Runtime
