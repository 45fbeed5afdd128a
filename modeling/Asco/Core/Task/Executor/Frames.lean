import Asco.Core.Task.Executor

namespace Asco.Core.Task.Executor

open Foundation Foundation.Nesting

/-! # The frames of the executions

Every frame that is pushed is popped, then destroyed, once and after those above
it, and the map of a domain has the frames on the stacks of its executions.
-/

variable {Handle Source : Type*} [DecidableEq Handle]

def handleStacks (executions : Handle → Option (Execution Handle Source)) (id : Handle) :
    List Handle :=
  ((executions id).map Execution.handleStack).getD []

omit [DecidableEq Handle] in
theorem handleStacks_of_attached {executions : Handle → Option (Execution Handle Source)}
    {id : Handle} {execution : Execution Handle Source}
    (attached : executions id = some execution) :
    handleStacks executions id = execution.handleStack := by
  simp [handleStacks, attached]

@[simp]
theorem handleStacks_update (executions : Handle → Option (Execution Handle Source)) (id : Handle)
    (execution : Execution Handle Source) :
    handleStacks (Function.update executions id (some execution)) =
      Function.update (handleStacks executions) id execution.handleStack := by
  funext other
  by_cases same : other = id
  · simp [handleStacks, same]
  · simp [handleStacks, same]

theorem handleStacks_detach {executions : Handle → Option (Execution Handle Source)} {id : Handle}
    (exhausted : handleStacks executions id = []) :
    handleStacks (Function.update executions id none) = handleStacks executions := by
  funext other
  by_cases same : other = id
  · subst same
    simpa [handleStacks] using exhausted.symm
  · simp [handleStacks, same]

namespace Phase

/-- The execution that the executor is at. -/
def current : Phase Handle → Option Handle
  | .idle => none
  | .entered id | .running id _ | .finishing id _ | .resumed id => some id
  | .cancelling id | .cleaning id _ | .leaving id => some id

/-- The handle of the execution that is popped and not destroyed yet. -/
def popped : Phase Handle → Handle → Option Handle
  | .finishing owner current, id => if id = owner then some current else none
  | .cleaning owner handle, id => if id = owner then handle else none
  | _, _ => none

/-- The stack of the execution may be empty. -/
def spends : Phase Handle → Handle → Prop
  | .finishing owner _, id | .resumed owner, id => id = owner
  | .cancelling owner, id | .cleaning owner _, id | .leaving owner, id => id = owner
  | .idle, _ | .entered _, _ | .running _ _, _ => False

theorem current_of_popped {phase : Phase Handle} {id handle : Handle}
    (popped : phase.popped id = some handle) : phase.current = some id := by
  cases phase with
  | finishing owner => simp_all [Phase.popped, current]
  | cleaning owner => simp_all [Phase.popped, current]
  | idle | entered | running | resumed | cancelling | leaving => simp [Phase.popped] at popped

omit [DecidableEq Handle] in
theorem current_of_spends {phase : Phase Handle} {id : Handle} (spends : phase.spends id) :
    phase.current = some id := by
  cases phase with
  | idle | entered | running => exact spends.elim
  | finishing | resumed | cancelling | cleaning | leaving => exact congrArg some spends.symm

end Phase

/-! ## The invariant -/

/-- What the phase says of the executions. -/
structure Placed (executions : Handle → Option (Execution Handle Source)) (phase : Phase Handle) :
    Prop where
  present : ∀ id, phase.current = some id → (executions id).isSome
  resumes : ∀ id handle, phase = .running id handle →
    (handleStacks executions id).head? = some handle
  left : ∀ id, phase = .leaving id → handleStacks executions id = []
  based : ∀ id, (executions id).isSome →
    (handleStacks executions id).getLast? = some id ∨
      handleStacks executions id = [] ∧ phase.spends id

structure Coherent (ledger : Ledger Handle Handle)
    (executions : Handle → Option (Execution Handle Source)) (map : Handle → Option Handle)
    (frames : Handle → Option Usage) (phase : Phase Handle)
    (history : List (Nesting.Event Handle Handle)) : Prop where
  replayed : Ledger.empty.replay history = some ledger
  stacked : ledger.stackOf = handleStacks executions
  leaving : ledger.leaving = phase.popped
  used : ∀ handle, ledger.holder handle ≠ none → frames handle = some .used
  mapped : ∀ handle id, map handle = some id ↔ handle ∈ handleStacks executions id
  own : ∀ id other, (executions id).isSome → id ∈ handleStacks executions other → other = id
  placed : Placed executions phase

section

variable {ledger : Ledger Handle Handle} {executions : Handle → Option (Execution Handle Source)}
  {map : Handle → Option Handle} {frames : Handle → Option Usage} {phase : Phase Handle}
  {history : List (Nesting.Event Handle Handle)}

namespace Coherent

variable (coherent : Coherent ledger executions map frames phase history)

include coherent

theorem consistent : ledger.Consistent :=
  Ledger.consistent_empty.replay coherent.replayed

theorem holder_of_mem {handle id : Handle} (member : handle ∈ handleStacks executions id) :
    ledger.holder handle = some id :=
  (coherent.consistent.held handle id).mpr (.inl (coherent.stacked ▸ member))

theorem unheld_of_fresh {handle : Handle} (fresh : frames handle = some .fresh) :
    ledger.holder handle = none := by
  by_contra held
  simp [coherent.used handle held] at fresh

/-- A frame that has not been used is not on any stack. -/
theorem unstacked_of_fresh {handle : Handle} (fresh : frames handle = some .fresh) (id : Handle) :
    handle ∉ handleStacks executions id := by
  intro member
  have held := coherent.holder_of_mem member
  simp [coherent.unheld_of_fresh fresh] at held

/-- A step that changes neither the handleStacks nor the frames. -/
theorem goes {after : Phase Handle} (popped : after.popped = phase.popped)
    (placed : Placed executions after) : Coherent ledger executions map frames after history :=
  { coherent with
    leaving := coherent.leaving.trans popped.symm
    placed }

theorem create {handle : Handle} (free : frames handle = none) :
    Coherent ledger executions map (Function.update frames handle (some .fresh)) phase history where
  __ := coherent
  used other held := by
    have usage := coherent.used other held
    have different : other ≠ handle := by
      rintro rfl
      simp [free] at usage
    simpa [different] using usage

theorem attach {id : Handle} (cancelSrcStack : List Source) (fresh : frames id = some .fresh)
    (unattached : executions id = none) :
    ∃ next, Coherent next
      (Function.update executions id (some { handleStack := [id], cancelSrcStack }))
      (Function.update map id (some id)) (Function.update frames id (some .used)) phase
      (history ++ [.enter id id]) := by
  have unheld := coherent.unheld_of_fresh fresh
  have unstacked := coherent.unstacked_of_fresh fresh
  have settled : ledger.leaving id = none := by
    rw [coherent.leaving]
    by_contra held
    obtain ⟨handle, popped⟩ := Option.ne_none_iff_exists'.mp held
    have present := coherent.placed.present id (Phase.current_of_popped popped)
    simp [unattached] at present
  have empty : handleStacks executions id = [] := by simp [handleStacks, unattached]
  refine ⟨_, Ledger.replay_concat coherent.replayed (if_pos ⟨unheld, settled⟩), ?_,
    coherent.leaving,
    fun handle held => ?_, fun handle owner => ?_, fun owner other attached member => ?_,
    ⟨fun owner current => ?_, fun owner handle running => ?_, fun owner leaving => ?_,
      fun owner attached => ?_⟩⟩
  · simp [coherent.stacked, empty]
  · by_cases same : handle = id
    · simp [same]
    · simp only [ne_eq, same, not_false_eq_true, Function.update_of_ne] at held ⊢
      exact coherent.used handle held
  · have mapped := coherent.mapped handle owner
    by_cases sameHandle : handle = id
    · subst sameHandle
      by_cases sameOwner : owner = handle
      · simp [sameOwner]
      · simpa [sameOwner, Ne.symm sameOwner] using unstacked owner
    · by_cases sameOwner : owner = id
      · subst sameOwner
        simpa [sameHandle, empty] using mapped
      · simpa [sameHandle, sameOwner] using mapped
  · by_cases sameOther : other = id
    · subst sameOther
      simpa using (show owner = other by simpa using member).symm
    · by_cases sameOwner : owner = id
      · subst sameOwner
        simp only [handleStacks_update, ne_eq, sameOther, not_false_eq_true,
          Function.update_of_ne] at member
        exact absurd member (unstacked other)
      · simp only [handleStacks_update, ne_eq, sameOther, sameOwner, not_false_eq_true,
          Function.update_of_ne] at member attached
        exact coherent.own owner other attached member
  · by_cases same : owner = id
    · simp [same]
    · simpa [same] using coherent.placed.present owner current
  · have present := coherent.placed.present owner (by simp [running, Phase.current])
    have different : owner ≠ id := by
      rintro rfl
      simp [unattached] at present
    simpa [different] using coherent.placed.resumes owner handle running
  · have present := coherent.placed.present owner (by simp [leaving, Phase.current])
    have different : owner ≠ id := by
      rintro rfl
      simp [unattached] at present
    simpa [different] using coherent.placed.left owner leaving
  · by_cases same : owner = id
    · simp [same]
    · simp only [ne_eq, same, not_false_eq_true, Function.update_of_ne,
        handleStacks_update] at attached ⊢
      exact coherent.placed.based owner attached

theorem await {id current handle : Handle} {execution : Execution Handle Source}
    (running : phase = .running id current) (fresh : frames handle = some .fresh)
    (attached : executions id = some execution) :
    ∃ next, Coherent next
      (Function.update executions id
        (some { execution with handleStack := handle :: execution.handleStack }))
      (Function.update map handle (handle :: execution.handleStack).getLast?)
      (Function.update frames handle (some .used)) (.resumed id)
      (history ++ [.enter id handle]) := by
  subst running
  have unheld := coherent.unheld_of_fresh fresh
  have unstacked := coherent.unstacked_of_fresh fresh
  have stack := handleStacks_of_attached attached
  have settled : ledger.leaving id = none := by
    rw [coherent.leaving]
    rfl
  -- No stack is empty while a coroutine runs.
  have base : ∀ owner, (executions owner).isSome →
      (handleStacks executions owner).getLast? = some owner := fun owner present =>
    (coherent.placed.based owner present).resolve_right fun spent => spent.2
  have unattached : ∀ owner, (executions owner).isSome → handle ≠ owner := by
    rintro owner present rfl
    exact unstacked handle (List.mem_of_getLast? (base handle present))
  have front : (handle :: execution.handleStack).getLast? = some id := by
    have last := base id (by simp [attached])
    rw [stack] at last
    simp [List.getLast?_cons, last]
  rw [front]
  refine ⟨_, Ledger.replay_concat coherent.replayed (if_pos ⟨unheld, settled⟩), ?_,
    coherent.leaving,
    fun other held => ?_, fun other owner => ?_, fun owner other present member => ?_,
    ⟨fun owner at_ => ?_, by simp, by simp, fun owner present => ?_⟩⟩
  · simp [coherent.stacked, stack]
  · by_cases same : other = handle
    · simp [same]
    · simp only [ne_eq, same, not_false_eq_true, Function.update_of_ne] at held ⊢
      exact coherent.used other held
  · have mapped := coherent.mapped other owner
    by_cases sameHandle : other = handle
    · subst sameHandle
      by_cases sameOwner : owner = id
      · simp [sameOwner]
      · simpa [sameOwner, Ne.symm sameOwner] using unstacked owner
    · by_cases sameOwner : owner = id
      · subst sameOwner
        simpa [sameHandle, stack] using mapped
      · simpa [sameHandle, sameOwner] using mapped
  · have present' : (executions owner).isSome := by
      by_cases sameOwner : owner = id
      · simp [sameOwner, attached]
      · simpa [sameOwner] using present
    by_cases sameOther : other = id
    · subst sameOther
      have below : owner ∈ handleStacks executions other := by
        simpa [stack, (unattached owner present').symm] using member
      exact coherent.own owner other present' below
    · simp only [handleStacks_update, ne_eq, sameOther, not_false_eq_true,
        Function.update_of_ne] at member
      exact coherent.own owner other present' member
  · obtain rfl : id = owner := by simpa [Phase.current] using at_
    simp
  · by_cases sameOwner : owner = id
    · subst sameOwner
      exact .inl (by simpa using front)
    · simp only [ne_eq, sameOwner, not_false_eq_true, Function.update_of_ne,
        handleStacks_update] at present ⊢
      exact .inl (base owner present)

/-- A pop, by `final_suspend` or in the loop of `cancel_cleanup`. -/
theorem pop {id handle : Handle} {rest : List Handle} {execution : Execution Handle Source}
    {after : Phase Handle} (current : phase.current = some id)
    (unpopped : phase.popped = fun _ => none) (attached : executions id = some execution)
    (stack : execution.handleStack = handle :: rest)
    (pops : after = .finishing id handle ∨ after = .cleaning id (some handle)) :
    ∃ next, Coherent next
      (Function.update executions id (some { execution with handleStack := rest }))
      (Function.update map handle none) frames after (history ++ [.leave id handle]) := by
  have stacked : handleStacks executions id = handle :: rest :=
    (handleStacks_of_attached attached).trans stack
  have settled : ledger.leaving id = none := by rw [coherent.leaving, unpopped]
  have distinct := coherent.consistent.once id
  rw [coherent.stacked, stacked, List.nodup_cons] at distinct
  have alone : ∀ owner, handle ∈ handleStacks executions owner → owner = id := by
    intro owner member
    have held := coherent.holder_of_mem member
    have top : ledger.holder handle = some id := coherent.holder_of_mem (by simp [stacked])
    simpa [top, eq_comm] using held
  refine ⟨_, Ledger.replay_concat coherent.replayed
    (if_pos ⟨by rw [coherent.stacked, stacked]; rfl, settled⟩), ?_, ?_, coherent.used,
    fun other owner => ?_, fun owner other present member => ?_,
    ⟨fun owner at_ => ?_, ?_, ?_, fun owner present => ?_⟩⟩
  · simp [coherent.stacked, stacked]
  · rw [coherent.leaving, unpopped]
    rcases pops with rfl | rfl <;> funext owner <;> by_cases same : owner = id <;>
      simp [Phase.popped, same]
  · have mapped := coherent.mapped other owner
    by_cases sameHandle : other = handle
    · subst sameHandle
      by_cases sameOwner : owner = id
      · simpa [sameOwner] using distinct.1
      · simpa [sameOwner] using fun member => sameOwner (alone owner member)
    · by_cases sameOwner : owner = id
      · subst sameOwner
        simpa [sameHandle, stacked] using mapped
      · simpa [sameHandle, sameOwner] using mapped
  · have present' : (executions owner).isSome := by
      by_cases sameOwner : owner = id
      · simp [sameOwner, attached]
      · simpa [sameOwner] using present
    have below : owner ∈ handleStacks executions other := by
      by_cases sameOther : other = id
      · subst sameOther
        have remaining : owner ∈ rest := by simpa using member
        simp [stacked, remaining]
      · simpa [sameOther] using member
    exact coherent.own owner other present' below
  · obtain rfl : id = owner := by rcases pops with rfl | rfl <;> simpa [Phase.current] using at_
    simp
  · rcases pops with rfl | rfl <;> simp
  · rcases pops with rfl | rfl <;> simp
  · have spends : after.spends id := by rcases pops with rfl | rfl <;> rfl
    by_cases sameOwner : owner = id
    · subst sameOwner
      have based := coherent.placed.based owner (by simp [attached])
      cases rest with
      | nil => exact .inr ⟨by simp, spends⟩
      | cons second others =>
          refine .inl ?_
          simpa [stacked, List.getLast?_cons_cons] using based
    · simp only [ne_eq, sameOwner, not_false_eq_true, Function.update_of_ne,
        handleStacks_update] at present ⊢
      refine (coherent.placed.based owner present).imp_right fun spent => ?_
      have at_ := Phase.current_of_spends spent.2
      simp [current, Ne.symm sameOwner] at at_

/-- The `destroy` of the popped handle. -/
theorem destroy {id handle : Handle} {after : Phase Handle}
    (popped : phase = .finishing id handle ∧ after = .resumed id ∨
      phase = .cleaning id (some handle) ∧ after = .cleaning id none) :
    ∃ next, Coherent next executions map (Function.update frames handle none) after
      (history ++ [.finish id handle]) := by
  have left : phase.popped = fun owner => if owner = id then some handle else none := by
    rcases popped with ⟨rfl, -⟩ | ⟨rfl, -⟩ <;> rfl
  have leaving : ledger.leaving id = some handle := by simp [coherent.leaving, left]
  refine ⟨_, Ledger.replay_concat coherent.replayed (if_pos leaving), coherent.stacked, ?_,
    fun other held => ?_, coherent.mapped, coherent.own,
    ⟨fun owner at_ => ?_, ?_, ?_, fun owner present => ?_⟩⟩
  · have settled : after.popped = fun _ => none := by
      rcases popped with ⟨-, rfl⟩ | ⟨-, rfl⟩ <;> funext owner <;> simp [Phase.popped]
    rw [settled]
    funext owner
    by_cases same : owner = id
    · simp [same]
    · simp [same, coherent.leaving, left]
  · by_cases same : other = handle
    · simp [same] at held
    · simp only [ne_eq, same, not_false_eq_true, Function.update_of_ne] at held ⊢
      exact coherent.used other held
  · refine coherent.placed.present owner ?_
    rcases popped with ⟨rfl, rfl⟩ | ⟨rfl, rfl⟩ <;> exact at_
  · rcases popped with ⟨-, rfl⟩ | ⟨-, rfl⟩ <;> simp
  · rcases popped with ⟨-, rfl⟩ | ⟨-, rfl⟩ <;> simp
  · refine (coherent.placed.based owner present).imp_right (And.imp_right fun spends => ?_)
    rcases popped with ⟨rfl, rfl⟩ | ⟨rfl, rfl⟩ <;> exact spends

theorem detach {id : Handle} (leaving : phase = .leaving id) :
    Coherent ledger (Function.update executions id none) (Function.update map id none) frames .idle
      history := by
  subst leaving
  have exhausted := coherent.placed.left id rfl
  have same := handleStacks_detach exhausted
  have remains : ∀ owner, (Function.update executions id none owner).isSome →
      owner ≠ id ∧ (executions owner).isSome := by
    intro owner present
    by_cases sameOwner : owner = id
    · simp [sameOwner] at present
    · exact ⟨sameOwner, by simpa [sameOwner] using present⟩
  refine ⟨coherent.replayed, same ▸ coherent.stacked, coherent.leaving, coherent.used,
    fun handle owner => ?_, fun owner other present member => ?_,
    ⟨by simp [Phase.current], by simp, by simp, fun owner present => ?_⟩⟩
  · rw [same]
    by_cases sameHandle : handle = id
    · subst sameHandle
      have absent : handle ∉ handleStacks executions owner := by
        intro member
        have attached := coherent.placed.present handle rfl
        obtain rfl := coherent.own handle owner attached member
        simp [exhausted] at member
      simpa using absent
    · simpa [sameHandle] using coherent.mapped handle owner
  · exact coherent.own owner other (remains owner present).2 (same ▸ member)
  · rw [same]
    obtain ⟨different, present⟩ := remains owner present
    refine (coherent.placed.based owner present).imp_right fun spent => ?_
    exact absurd spent.2 different

end Coherent

end

/-! ## Runs -/

variable {state next : State Handle Source}

def State.Coherent (state : State Handle Source) : Prop :=
  ∃ ledger, Executor.Coherent ledger state.executions state.corohandleExecMap state.frames
    state.phase state.history

variable [DecidableEq Source]

omit [DecidableEq Source] in
theorem State.Coherent.initial : (State.initial Handle Source).Coherent := by
  have empty : Placed (State.initial Handle Source).executions .idle :=
    ⟨by simp [Phase.current], by simp, by simp, by simp [State.initial]⟩
  exact ⟨.empty, rfl, rfl, rfl, by simp [Ledger.empty],
    by simp [State.initial, handleStacks], by simp [State.initial], empty⟩

theorem State.Coherent.step {label : Label Handle Source} (coherent : state.Coherent)
    (moved : state.move label = some next) : next.Coherent := by
  obtain ⟨ledger, coherent⟩ := coherent
  have placed := coherent.placed
  have moves := moves_of_move moved
  cases moves with
  | create free => exact ⟨ledger, coherent.create free⟩
  | requestCancel => exact ⟨ledger, coherent⟩
  | attach cancelSrcStack fresh unattached => exact coherent.attach cancelSrcStack fresh unattached
  | await running fresh attached => exact coherent.await running fresh attached
  | @complete id current handle rest execution running attached stack =>
      have top := placed.resumes id current running
      rw [handleStacks_of_attached attached, stack] at top
      obtain rfl : handle = current := by simpa using top
      exact coherent.pop (by simp [running, Phase.current]) (by rw [running]; rfl) attached stack
        (.inl rfl)
  | @unwind id handle rest execution cleaning attached stack =>
      refine coherent.pop (by simp [cleaning, Phase.current]) ?_ attached stack (.inr rfl)
      rw [cleaning]
      funext owner
      simp [Phase.popped]
  | destroyCompleted finishing => exact coherent.destroy (.inl ⟨finishing, rfl⟩)
  | destroyCancelled cleaning => exact coherent.destroy (.inr ⟨cleaning, rfl⟩)
  | detach leaving => exact ⟨ledger, coherent.detach leaving⟩
  | @enter id execution idle attached stacked =>
      refine ⟨ledger,
        coherent.goes (by rw [idle]; rfl) ⟨?_, by simp, by simp, fun owner present => ?_⟩⟩
      · simp [Phase.current, attached]
      · have based := placed.based owner present
        simpa [idle, Phase.spends] using based
  | @skip id execution idle attached exhausted =>
      have based := placed.based id (by simp [attached])
      rw [handleStacks_of_attached attached, exhausted] at based
      simp [idle, Phase.spends] at based
  | @cancel id execution before attached =>
      refine ⟨ledger, coherent.goes ?_ ⟨?_, by simp, by simp, fun owner present => ?_⟩⟩
      · rcases before with entered | resumed
        · rw [entered]
          rfl
        · rw [resumed]
          rfl
      · simp [Phase.current, attached]
      · have based := placed.based owner present
        rcases before with entered | resumed
        · exact .inl (by simpa [entered, Phase.spends] using based)
        · simpa [resumed, Phase.spends] using based
  | @resume id current rest execution entered attached stack =>
      refine ⟨ledger, coherent.goes (by rw [entered]; rfl)
        ⟨?_, fun owner handle running => ?_, by simp, fun owner present => ?_⟩⟩
      · simp [Phase.current, attached]
      · obtain ⟨rfl, rfl⟩ : id = owner ∧ current = handle := by simpa using running
        simp [handleStacks_of_attached attached, stack]
      · simpa [entered, Phase.spends] using placed.based owner present
  | @leave id execution resumed attached exhausted =>
      refine ⟨ledger, coherent.goes (by rw [resumed]; rfl)
        ⟨?_, by simp, fun owner leaving => ?_, fun owner present => ?_⟩⟩
      · simp [Phase.current, attached]
      · obtain rfl : id = owner := by simpa using leaving
        exact (handleStacks_of_attached attached).trans exhausted
      · simpa [resumed, Phase.spends] using placed.based owner present
  | @yield id execution resumed attached stacked =>
      refine ⟨ledger, coherent.goes (by rw [resumed]; rfl)
        ⟨by simp [Phase.current], by simp, by simp, fun owner present => ?_⟩⟩
      refine .inl ((placed.based owner present).resolve_right fun spent => ?_)
      obtain ⟨empty, spends⟩ := spent
      obtain rfl : owner = id := by simpa [resumed, Phase.spends] using spends
      exact stacked ((handleStacks_of_attached attached).symm.trans empty)
  | @suspend id current running =>
      refine ⟨ledger, coherent.goes (by rw [running]; rfl)
        ⟨fun owner at_ => ?_, by simp, by simp, fun owner present => ?_⟩⟩
      · exact placed.present owner (by rw [running]; exact at_)
      · have based := placed.based owner present
        exact .inl (by simpa [running, Phase.spends] using based)
  | @invokeCallbacks id cancelling =>
      refine ⟨ledger, coherent.goes ?_
        ⟨fun owner at_ => ?_, by simp, by simp, fun owner present => ?_⟩⟩
      · rw [cancelling]
        funext owner
        simp [Phase.popped]
      · exact placed.present owner (by rw [cancelling]; exact at_)
      · simpa [cancelling, Phase.spends] using placed.based owner present
  | @cleaned id execution cleaning attached exhausted =>
      refine ⟨ledger, coherent.goes ?_
        ⟨?_, by simp, fun owner leaving => ?_, fun owner present => ?_⟩⟩
      · rw [cleaning]
        funext owner
        simp [Phase.popped]
      · simp [Phase.current, attached]
      · obtain rfl : id = owner := by simpa using leaving
        exact (handleStacks_of_attached attached).trans exhausted
      · simpa [cleaning, Phase.spends] using placed.based owner present

theorem coherent_of_reachable (reachable : (machine Handle Source).Reachable Machine.free state) :
    state.Coherent := by
  refine reachable.invariant ?_ fun state label next coherent _ moved => coherent.step moved
  rintro first rfl
  exact .initial

/-! ## `cancel_cleanup` comes to its end -/

/-- The loop of `cancel_cleanup` destroys what is on the stack, however high, and
then `execute` returns `false`. -/
theorem cleanup_ends {id : Handle} {stack : List Handle} {execution : Execution Handle Source}
    (cleaning : state.phase = .cleaning id none) (attached : state.executions id = some execution)
    (stacked : execution.handleStack = stack) :
    ∃ last, (machine Handle Source).Run Machine.free state last ∧ last.phase = .leaving id ∧
      handleStacks last.executions id = [] ∧
      last.history = state.history ++ stack.flatMap fun handle =>
        [.leave id handle, .finish id handle] := by
  induction stack generalizing state execution with
  | nil =>
      have ends : (machine Handle Source).move state .unwind =
          some { state with phase := .leaving id } := by
        simp [machine, State.move, State.unwind, cleaning, attached, stacked]
      exact ⟨_, (Machine.Run.refl state).tail trivial ends, rfl,
        (handleStacks_of_attached attached).trans stacked, by simp⟩
  | cons handle rest ih =>
      let popped : State Handle Source :=
        { state with
          executions :=
            Function.update state.executions id (some { execution with handleStack := rest })
          corohandleExecMap := Function.update state.corohandleExecMap handle none
          phase := .cleaning id (some handle)
          history := state.history ++ [.leave id handle] }
      let destroyed : State Handle Source :=
        { popped.destroyFrame id handle with phase := .cleaning id none }
      have pops : (machine Handle Source).move state .unwind = some popped := by
        simp [machine, State.move, State.unwind, State.popHandle, cleaning, attached, stacked,
          popped]
      have destroys : (machine Handle Source).move popped .destroy = some destroyed := by
        simp [machine, State.move, popped, destroyed]
      have remaining : destroyed.executions id = some { execution with handleStack := rest } := by
        simp [destroyed, State.destroyFrame, popped]
      have cleaningOn : destroyed.phase = .cleaning id none := rfl
      obtain ⟨last, run, leaving, exhausted, history⟩ := ih cleaningOn remaining rfl
      refine ⟨last, ?_, leaving, exhausted, ?_⟩
      · exact (((Machine.Run.refl state).tail trivial pops).tail trivial destroys).trans run
      · rw [history]
        simp [destroyed, State.destroyFrame, popped]

/-! ## What holds of the frames -/

/-- The frames of an execution live nested: the history follows the rules of
nested lifetimes and leaves the stacks that are there; a handle is on a stack from
its push to its pop, is destroyed once for each pop, and after all that was
pushed above it; nothing is left of an execution that is detached.  The loop of
`cancel_cleanup` comes to its end, with all that was on the stack destroyed. -/
structure Disciplined (state : State Handle Source) : Prop where
  nested : ∃ ledger, Ledger.empty.replay state.history = some ledger ∧
    ledger.stackOf = handleStacks state.executions
  pushed : ∀ id handle, state.history.count (.enter id handle) =
    state.history.count (.leave id handle) +
      if handle ∈ handleStacks state.executions id then 1 else 0
  popped : ∀ id handle, state.history.count (.leave id handle) =
    state.history.count (.finish id handle) + if state.phase.popped id = some handle then 1 else 0
  innermost : ∀ earlier between later id handle,
    state.history = earlier ++ .enter id handle :: (between ++ .finish id handle :: later) →
    .finish id handle ∉ between →
    ∀ above, between.count (.enter id above) = between.count (.finish id above)
  detached : ∀ id, state.executions id = none → ∀ handle,
    state.history.count (.enter id handle) = state.history.count (.finish id handle)
  allocated : ∀ id handle, handle ∈ handleStacks state.executions id →
    state.frames handle = some .used
  mapped : ∀ handle id, state.corohandleExecMap handle = some id ↔
    handle ∈ handleStacks state.executions id
  unwinds : ∀ id, state.phase = .cleaning id none → ∃ last,
    (machine Handle Source).Run Machine.free state last ∧ last.phase = .leaving id ∧
      handleStacks last.executions id = [] ∧
      last.history = state.history ++ (handleStacks state.executions id).flatMap fun handle =>
        [.leave id handle, .finish id handle]

theorem State.Coherent.disciplined (coherent : state.Coherent) : Disciplined state := by
  obtain ⟨ledger, coherent⟩ := coherent
  have consistent := coherent.consistent
  have entered : ∀ id handle, state.history.count (.enter id handle) =
      state.history.count (.finish id handle) +
        if ledger.holder handle = some id then 1 else 0 := fun id handle => by
    simpa [Ledger.empty] using
      Ledger.count_enter id handle Ledger.consistent_empty coherent.replayed
  have left : ∀ id handle, state.history.count (.leave id handle) =
      state.history.count (.finish id handle) +
        if ledger.leaving id = some handle then 1 else 0 := fun id handle => by
    simpa [Ledger.empty] using Ledger.count_leave id handle coherent.replayed
  refine ⟨⟨ledger, coherent.replayed, coherent.stacked⟩, fun id handle => ?_, fun id handle => ?_,
    fun earlier between later id handle same unfinished above => ?_, fun id absent handle => ?_,
    fun id handle member => ?_, coherent.mapped, fun id cleaning => ?_⟩
  · rw [entered, left, ← coherent.stacked]
    have held := consistent.held handle id
    have apart := consistent.apart id handle
    by_cases popped : ledger.leaving id = some handle
    · simp [held, popped, apart popped]
    · simp [held, popped]
  · rw [left, coherent.leaving]
  · have replayed := coherent.replayed
    rw [same, Ledger.replay_append] at replayed
    obtain ⟨before, reached, remaining⟩ := Option.bind_eq_some_iff.mp replayed
    have regrouped : Nesting.Event.enter id handle :: (between ++ .finish id handle :: later) =
        .enter id handle :: (between ++ [.finish id handle]) ++ later := by simp
    rw [regrouped, Ledger.replay_append] at remaining
    obtain ⟨after, finished, -⟩ := Option.bind_eq_some_iff.mp remaining
    exact Ledger.finished_above (Ledger.consistent_empty.replay reached) finished unfinished above
  · have unheld : ledger.holder handle ≠ some id := by
      rw [ne_eq, consistent.held, coherent.stacked, coherent.leaving, not_or]
      refine ⟨by simp [handleStacks, absent], fun popped => ?_⟩
      have present := coherent.placed.present id (Phase.current_of_popped popped)
      simp [absent] at present
    rw [entered, if_neg unheld, Nat.add_zero]
  · exact coherent.used handle (by simp [coherent.holder_of_mem member])
  · have present := coherent.placed.present id (by simp [cleaning, Phase.current])
    obtain ⟨execution, attached⟩ := Option.isSome_iff_exists.mp present
    exact cleanup_ends cleaning attached (handleStacks_of_attached attached).symm

theorem disciplined_of_reachable
    (reachable : (machine Handle Source).Reachable Machine.free state) :
    Disciplined state :=
  (coherent_of_reachable reachable).disciplined

/-- A coroutine awaits a future that awaits another one, which ends first; a
request made before the next resume then unwinds the other two. -/
def nestedThenCancelled : List (Label ℕ ℕ) :=
  [.create 1, .attach 1 [0], .execute 1, .test, .create 2, .await 2, .test,
    .execute 1, .test, .create 3, .await 3, .test, .execute 1, .test, .complete, .destroy, .test,
    .requestCancel 0, .execute 1, .test, .invokeCallbacks, .unwind, .destroy, .unwind, .destroy,
    .unwind]

theorem disciplined_of_nested_then_cancelled : ∃ state,
    (machine ℕ ℕ).Reachable Machine.free state ∧ Disciplined state ∧
      state.phase.current = some (1 : ℕ) ∧ state.requested (0 : ℕ) ∧
      state.history =
        [.enter 1 1, .enter 1 2, .enter 1 3, .leave 1 3, .finish 1 3, .leave 1 2, .finish 1 2,
          .leave 1 1, .finish 1 1] := by
  obtain ⟨state, reachable, facts⟩ := Machine.reachable_of_any (machine ℕ ℕ) Machine.free
    (.initial ℕ ℕ) nestedThenCancelled
    (fun state => state.phase.current = some 1 ∧ state.requested 0 ∧ state.history =
        [.enter 1 1, .enter 1 2, .enter 1 3, .leave 1 3, .finish 1 3, .leave 1 2, .finish 1 2,
          .leave 1 1, .finish 1 1]) rfl (by decide +kernel)
  exact ⟨state, reachable, disciplined_of_reachable reachable, facts⟩

end Asco.Core.Task.Executor
