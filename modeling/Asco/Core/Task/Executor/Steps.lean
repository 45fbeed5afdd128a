import Asco.Core.Task.Executor.Frames

namespace Asco.Core.Task.Executor

open Foundation

/-! # What a step of the executor leaves

The steps by what they do to the stack of one execution, to the phase, to the
sources of the executions and to the requests.
-/

variable {Handle Source : Type*} [DecidableEq Handle] [DecidableEq Source]
  {state next : State Handle Source} {label : Label Handle Source} {id : Handle}

/-- What a step does to the stack of the execution. -/
inductive Restacks (state : State Handle Source) (label : Label Handle Source)
    (next : State Handle Source) (id : Handle) : Prop where
  | keeps (same : handleStacks next.executions id = handleStacks state.executions id)
  | attaches {sources : List Source} (attach : label = .attach id sources)
      (unattached : state.executions id = none) (base : handleStacks next.executions id = [id])
  | pushes {handle current : Handle} (await : label = .await handle)
      (running : state.phase = .running id current)
      (pushed : handleStacks next.executions id = handle :: handleStacks state.executions id)
  | pops {current : Handle} (complete : label = .complete)
      (running : state.phase = .running id current)
      (popped : handleStacks state.executions id = current :: handleStacks next.executions id)
  | unwinds {handle : Handle} (unwind : label = .unwind)
      (cleaning : state.phase = .cleaning id none)
      (popped : handleStacks state.executions id = handle :: handleStacks next.executions id)

theorem restacks_of_move (coherent : state.Coherent) (moved : state.move label = some next)
    (id : Handle) : Restacks state label next id := by
  obtain ⟨ledger, coherent⟩ := coherent
  have placed := coherent.placed
  cases moves_of_move moved with
  | @attach attached sources fresh unattached =>
      by_cases same : id = attached
      · subst same
        exact .attaches rfl unattached (by simp)
      · exact .keeps (by simp [same])
  | @await owner current handle execution running fresh attached =>
      by_cases same : id = owner
      · subst same
        exact .pushes rfl running (by simp [handleStacks_of_attached attached])
      · exact .keeps (by simp [same])
  | @complete owner current handle rest execution running attached stack =>
      by_cases same : id = owner
      · subst same
        have top := placed.resumes id current running
        rw [handleStacks_of_attached attached, stack] at top
        obtain rfl : handle = current := by simpa using top
        exact .pops rfl running (by simp [handleStacks_of_attached attached, stack])
      · exact .keeps (by simp [same])
  | @unwind owner handle rest execution cleaning attached stack =>
      by_cases same : id = owner
      · subst same
        exact .unwinds rfl cleaning (show handleStacks state.executions id = handle :: _ by
          simp [handleStacks_of_attached attached, stack])
      · exact .keeps (by simp [same])
  | @detach owner leaving =>
      exact .keeps (congrFun (handleStacks_detach (placed.left owner leaving)) id)
  | create | requestCancel | enter | skip | cancel | resume | leave | yield | suspend
  | invokeCallbacks | cleaned | destroyCompleted | destroyCancelled => exact .keeps rfl

theorem attached_of_move {sources : List Source}
    (moved : state.move (.attach id sources) = some next) :
    handleStacks next.executions id = [id] := by
  cases moves_of_move moved with
  | attach => simp

/-- Only `execute` begins an execution. -/
theorem idle_of_move (idle : state.phase = .idle)
    (enters : ∀ id, label ≠ .execute id) (moved : state.move label = some next) :
    next.phase = .idle := by
  cases moves_of_move moved with
  | create | requestCancel | attach | detach => first | exact idle | rfl
  | @enter id => exact absurd rfl (enters id)
  | @skip id => exact absurd rfl (enters id)
  | yield => rfl
  | cancel before =>
      rcases before with entered | resumed
      · rw [idle] at entered
        contradiction
      · rw [idle] at resumed
        contradiction
  | resume running | leave running | await running | suspend running | complete running
  | invokeCallbacks running | unwind running | cleaned running | destroyCompleted running
  | destroyCancelled running =>
      rw [idle] at running
      contradiction

omit [DecidableEq Source] in
/-- No coroutine is twice on a stack. -/
theorem nodup_of_coherent (coherent : state.Coherent) (id : Handle) :
    (handleStacks state.executions id).Nodup := by
  obtain ⟨ledger, coherent⟩ := coherent
  exact coherent.stacked ▸ coherent.consistent.once id

/-- The coroutine that ends is popped. -/
theorem pops_of_complete {current : Handle}
    (coherent : state.Coherent) (running : state.phase = .running id current)
    (moved : state.move .complete = some next) :
    handleStacks state.executions id = current :: handleStacks next.executions id := by
  obtain ⟨ledger, coherent⟩ := coherent
  cases moves_of_move moved with
  | @complete owner top handle rest execution runs attached stack =>
      obtain ⟨rfl, rfl⟩ : owner = id ∧ top = current := by simpa [runs] using running
      have first := coherent.placed.resumes owner top runs
      rw [handleStacks_of_attached attached, stack] at first
      obtain rfl : handle = top := by simpa using first
      simp [handleStacks_of_attached attached, stack]

omit [DecidableEq Source] in
theorem stacked_of_running {current : Handle}
    (coherent : state.Coherent) (running : state.phase = .running id current) :
    (handleStacks state.executions id).head? = some current ∧
      (handleStacks state.executions id).getLast? = some id := by
  obtain ⟨ledger, coherent⟩ := coherent
  have present := coherent.placed.present id (by simp [running, Phase.current])
  refine ⟨coherent.placed.resumes id current running, ?_⟩
  refine (coherent.placed.based id present).resolve_right fun spent => ?_
  have spends := spent.2
  rw [running] at spends
  exact spends

omit [DecidableEq Source] in
/-- The base coroutine runs only when nothing else is on the stack. -/
theorem alone_of_running
    (coherent : state.Coherent) (running : state.phase = .running id id) :
    handleStacks state.executions id = [id] := by
  obtain ⟨top, last⟩ := stacked_of_running coherent running
  have once := nodup_of_coherent coherent id
  cases stack : handleStacks state.executions id with
  | nil => simp [stack] at top
  | cons first rest =>
      rw [stack] at top last once
      obtain rfl : first = id := by simpa using top
      cases rest with
      | nil => rfl
      | cons second rest =>
          rw [List.getLast?_cons_cons] at last
          exact absurd (List.mem_of_getLast? last) (List.nodup_cons.mp once).1

/-- The coroutine that is awaited is pushed. -/
theorem pushes_of_await {handle current : Handle} (running : state.phase = .running id current)
    (moved : state.move (.await handle) = some next) :
    handleStacks next.executions id = handle :: handleStacks state.executions id := by
  cases moves_of_move moved with
  | @await owner top handle execution runs fresh attached =>
      obtain ⟨rfl, rfl⟩ : owner = id ∧ top = current := by simpa [runs] using running
      simp [handleStacks_of_attached attached]

/-- The execution that `cancel_cleanup` is cleaning. -/
def Phase.cleans : Phase Handle → Option Handle
  | .cancelling id | .cleaning id _ => some id
  | _ => none

omit [DecidableEq Handle] [DecidableEq Source] in
theorem test_requested (tested : state.test = some next) (cleans : next.phase.cleans = some id) :
    ∃ execution, state.executions id = some execution ∧ state.cancelRequested execution = true := by
  unfold State.test at tested
  split at tested
  · obtain ⟨execution, attached, chosen⟩ := Option.bind_eq_some_iff.mp tested
    split at chosen
    · rename_i requested
      cases chosen
      cases cleans
      exact ⟨execution, attached, requested⟩
    · obtain ⟨current, _, rfl⟩ := Option.map_eq_some_iff.mp chosen
      cases cleans
  · obtain ⟨execution, attached, rfl⟩ := Option.map_eq_some_iff.mp tested
    split at cleans
    · rename_i requested
      cases cleans
      exact ⟨execution, attached, requested⟩
    · split at cleans <;> cases cleans
  · contradiction

omit [DecidableEq Handle] [DecidableEq Source] in
/-- Only an execution that is not cancelled is resumed. -/
theorem test_unrequested {current : Handle} (tested : state.test = some next)
    (running : next.phase = .running id current) :
    state.phase = .entered id ∧
      ∃ execution, state.executions id = some execution ∧
        state.cancelRequested execution = false := by
  unfold State.test at tested
  split at tested
  · rename_i entered
    obtain ⟨execution, attached, chosen⟩ := Option.bind_eq_some_iff.mp tested
    split at chosen
    · cases chosen
      cases running
    · rename_i unrequested
      obtain ⟨head, _, rfl⟩ := Option.map_eq_some_iff.mp chosen
      cases running
      exact ⟨entered, execution, attached, by simpa using unrequested⟩
  · obtain ⟨execution, attached, rfl⟩ := Option.map_eq_some_iff.mp tested
    split at running
    · cases running
    · split at running <;> cases running
  · contradiction

/-- An execution is cleaned when one of its sources has been requested. -/
theorem cleans_of_move (moved : state.move label = some next)
    (cleans : next.phase.cleans = some id) :
    state.phase.cleans = some id ∨
      ∃ execution, state.executions id = some execution ∧
        state.cancelRequested execution = true := by
  cases moves_of_move moved with
  | create | requestCancel | attach => exact .inl cleans
  | cancel => exact .inr (test_requested moved cleans)
  | invokeCallbacks cancelling =>
      cases cleans
      exact .inl (by rw [cancelling]; rfl)
  | unwind cleaning =>
      cases cleans
      exact .inl (by rw [cleaning]; rfl)
  | destroyCancelled cleaning =>
      cases cleans
      exact .inl (by rw [cleaning]; rfl)
  | enter | skip | resume | leave | yield | await | suspend | complete | cleaned
  | destroyCompleted | detach => cases cleans

/-- A coroutine runs on, or its execution has been found not to be cancelled. -/
theorem running_of_move {current : Handle} (moved : state.move label = some next)
    (running : next.phase = .running id current) :
    state.phase = .running id current ∨
      state.phase = .entered id ∧ ∃ execution, state.executions id = some execution ∧
        state.cancelRequested execution = false := by
  cases moves_of_move moved with
  | create | requestCancel | attach => exact .inl running
  | resume => exact .inr (test_unrequested moved running)
  | enter | skip | cancel | leave | yield | await | suspend | complete | invokeCallbacks | unwind
  | cleaned | destroyCompleted | destroyCancelled | detach => cases running

/-- A coroutine runs until it awaits, suspends or ends. -/
theorem stops_of_move {current : Handle} (moved : state.move label = some next)
    (running : state.phase = .running id current) :
    next.phase = .running id current ∨ (∃ handle, label = .await handle) ∨ label = .suspend ∨
      label = .complete := by
  cases moves_of_move moved with
  | create | requestCancel | attach => exact .inl running
  | @await owner top handle => exact .inr (.inl ⟨handle, rfl⟩)
  | suspend => exact .inr (.inr (.inl rfl))
  | complete => exact .inr (.inr (.inr rfl))
  | cancel before =>
      rcases before with entered | resumed
      · cases running.symm.trans entered
      · cases running.symm.trans resumed
  | enter other | skip other | resume other | leave other | yield other | invokeCallbacks other
  | unwind other | cleaned other | destroyCompleted other | destroyCancelled other | detach other =>
      cases running.symm.trans other

theorem halts_of_complete {current : Handle} (moved : state.move .complete = some next) :
    next.phase ≠ .running id current := by
  cases moves_of_move moved with
  | complete => exact nofun

/-- The execution that is cleaned up or detached. -/
def Phase.ends : Phase Handle → Option Handle
  | .cancelling id | .cleaning id _ | .leaving id => some id
  | _ => none

/-- The execution is not in the domain, or on its way out. -/
def State.Gone (state : State Handle Source) (id : Handle) : Prop :=
  state.executions id = none ∨ state.phase.ends = some id

/-- The sources of an execution stay. -/
theorem sources_of_move {execution : Execution Handle Source} (moved : state.move label = some next)
    (attached : next.executions id = some execution) :
    label = .attach id execution.cancelSrcStack ∨
      ∃ before, state.executions id = some before ∧
        before.cancelSrcStack = execution.cancelSrcStack := by
  cases moves_of_move moved with
  | @attach owner sources fresh unattached =>
      by_cases same : id = owner
      · subst same
        simp only [Function.update_self, Option.some.injEq] at attached
        subst attached
        exact .inl rfl
      · simp only [Function.update_of_ne same] at attached
        exact .inr ⟨execution, attached, rfl⟩
  | @await owner current handle before running fresh present
  | @complete owner current handle rest before running present stack
  | @unwind owner handle rest before cleaning present stack =>
      by_cases same : id = owner
      · subst same
        simp only [Function.update_self, Option.some.injEq] at attached
        subst attached
        exact .inr ⟨before, present, rfl⟩
      · simp only [Function.update_of_ne same] at attached
        exact .inr ⟨execution, attached, rfl⟩
  | @detach owner leaving =>
      by_cases same : id = owner
      · subst same
        simp only [Function.update_self, reduceCtorEq] at attached
      · simp only [Function.update_of_ne same] at attached
        exact .inr ⟨execution, attached, rfl⟩
  | create | requestCancel | enter | skip | cancel | resume | leave | yield | suspend
  | invokeCallbacks | cleaned | destroyCompleted | destroyCancelled =>
      exact .inr ⟨execution, attached, rfl⟩

/-- An execution that is on its way out does not come back. -/
theorem gone_of_move (moved : state.move label = some next)
    (attaches : ∀ sources, label ≠ .attach id sources) (gone : state.Gone id) : next.Gone id := by
  rcases gone with absent | ends
  · refine .inl (Option.eq_none_iff_forall_not_mem.mpr fun execution present => ?_)
    rcases sources_of_move moved present with attach | ⟨before, stood, _⟩
    · exact attaches _ attach
    · cases absent.symm.trans stood
  · cases moves_of_move moved with
    | create | requestCancel | attach => exact .inr ends
    | detach leaving =>
        rw [leaving] at ends
        cases ends
        exact .inl (by simp)
    | invokeCallbacks other | unwind other | cleaned other | destroyCancelled other =>
        rw [other] at ends
        cases ends
        exact .inr rfl
    | cancel before =>
        rcases before with entered | resumed
        · rw [entered] at ends
          cases ends
        · rw [resumed] at ends
          cases ends
    | enter other | skip other | resume other | leave other | yield other | await other
    | suspend other | complete other | destroyCompleted other =>
        rw [other] at ends
        cases ends

theorem requested_of_move {source : Source} (moved : state.move label = some next) :
    next.requested source = true ↔
      state.requested source = true ∨ label = .requestCancel source := by
  cases moves_of_move moved with
  | requestCancel requested =>
      by_cases same : source = requested
      · simp [same]
      · simp [same, Ne.symm same]
  | create | attach | enter | skip | cancel | resume | leave | yield | await | suspend | complete
  | invokeCallbacks | unwind | cleaned | destroyCompleted | destroyCancelled | detach =>
      simp

end Asco.Core.Task.Executor
