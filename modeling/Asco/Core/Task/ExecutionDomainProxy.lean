import Asco.Core.Task.Executor.Steps

namespace Asco.Core.Task.ExecutionDomainProxy

open Foundation Executor

/-! # `execution_domain_proxy`

The domain that an awaited `select` or `join_all` nests in the execution of its
coroutine, with one execution for each of the branches.  The worker executes those
until the domain is empty, and the parent execution only after that.
-/

/-- Where the coroutine is that has the proxy: in the constructors of the proxy and of
its owner, suspended with the domain nested in its execution, or resumed after the domain
has been removed, unless its execution has been cancelled. -/
inductive Parent where
  | constructing
  | suspended
  | resumed
  | cancelled
deriving DecidableEq

/-- `base` are the coroutines of the branches, `outer` are the sources on the stack of the
parent execution, and `own` is `m_cancel_src`. -/
structure Branches (Branch Handle Source : Type*) where
  base : Branch → Handle
  distinct : Function.Injective base
  outer : List Source
  own : Source
  apart : own ∉ outer

/-- `finished` are the branches whose coroutine has run to its end. -/
structure State (Branch Handle Source : Type*) where
  executor : Executor.State Handle Source
  finished : Branch → Bool
  parent : Parent

/-- `suspend` is the suspension of the coroutine that has the proxy, and `resume` the
`execute` of its execution after `run_once` has removed the domain. -/
inductive Label (Branch Handle Source : Type*) where
  | executor (label : Executor.Label Handle Source)
  | attach (branch : Branch)
  | suspend
  | cancel
  | resume

variable {Branch Handle Source : Type*}

/-- The `cancel_src_stack` of the executions of the domain. -/
def Branches.sources (branches : Branches Branch Handle Source) : List Source :=
  branches.outer ++ [branches.own]

def State.initial (Branch Handle Source : Type*) : State Branch Handle Source where
  executor := .initial Handle Source
  finished _ := false
  parent := .constructing

/-- What is on the `handle_stack` of the branch. -/
def State.stack (branches : Branches Branch Handle Source) (state : State Branch Handle Source)
    (branch : Branch) : List Handle :=
  handleStacks state.executor.executions (branches.base branch)

/-- The executions of the domain are to be cancelled. -/
def State.Requested (branches : Branches Branch Handle Source)
    (state : State Branch Handle Source) : Prop :=
  ∃ source ∈ branches.sources, state.executor.requested source = true

variable [DecidableEq Handle] [DecidableEq Source]

namespace Branches

variable (branches : Branches Branch Handle Source) (state : State Branch Handle Source)

/-- The step is the end of the coroutine of the branch. -/
def finishes (label : Executor.Label Handle Source) (branch : Branch) : Bool :=
  match label, state.executor.phase with
  | .complete, .running id current => id = branches.base branch && current = branches.base branch
  | _, _ => false

/-- Nothing else is attached to the domain, the worker enters it when the coroutine that
has the proxy is suspended, and `m_cancel_src` is private. -/
def permits : Executor.Label Handle Source → Bool
  | .attach _ _ => false
  | .execute _ => state.parent = .suspended
  | .requestCancel source => source ≠ branches.own
  | _ => true

def step (label : Executor.Label Handle Source) : Option (State Branch Handle Source) :=
  (state.executor.move label).map fun executor =>
    { state with
      executor
      finished := fun branch => state.finished branch || branches.finishes state label branch }

variable [Fintype Branch]

/-- The execution of the coroutine that has the proxy has the sources `outer`. -/
def move : Label Branch Handle Source → Option (State Branch Handle Source)
  | .executor label => if branches.permits state label then branches.step state label else none
  | .attach branch =>
      if state.parent = .constructing then
        branches.step state (.attach (branches.base branch) branches.sources)
      else none
  | .suspend =>
      if state.parent = .constructing ∧
          ∀ branch, (state.executor.executions (branches.base branch)).isSome then
        some { state with parent := .suspended }
      else none
  | .cancel => branches.step state (.requestCancel branches.own)
  | .resume =>
      if state.parent = .suspended ∧
          ∀ branch, (state.executor.executions (branches.base branch)).isNone then
        some { state with
          parent := if branches.outer.any state.executor.requested then .cancelled else .resumed }
      else none

end Branches

/-! ## Leaving the domain -/

variable {branches : Branches Branch Handle Source} {state next : State Branch Handle Source}
  {label : Executor.Label Handle Source} {branch : Branch}

/-- A branch leaves the domain when its coroutine has run to its end or a cancellation has
been requested. -/
structure Accounted (branches : Branches Branch Handle Source)
    (state : State Branch Handle Source) : Prop where
  executor : (Executor.machine Handle Source).Reachable Machine.free state.executor
  attached : ∀ id execution, state.executor.executions id = some execution →
    (∃ branch, id = branches.base branch) ∧ execution.cancelSrcStack = branches.sources
  cleaned : ∀ id, state.executor.phase.cleans = some id → state.Requested branches
  quiet : state.parent = .constructing →
    state.executor.phase = .idle ∧ ∀ branch, state.finished branch = false
  emptied : state.parent ≠ .constructing → ∀ branch, state.stack branches branch = [] →
    state.finished branch = true ∨ state.Requested branches
  ended : ∀ branch, state.finished branch = true → state.stack branches branch = []
  empty : state.parent = .resumed ∨ state.parent = .cancelled →
    ∀ id, state.executor.executions id = none
  resumed : state.parent = .resumed → ∀ branch,
    state.finished branch = true ∨ state.executor.requested branches.own = true

namespace Accounted

theorem coherent (accounted : Accounted branches state) : state.executor.Coherent :=
  coherent_of_reachable accounted.executor

/-- What has been requested stays requested. -/
theorem requested_mono (moved : branches.step state label = some next) {source : Source}
    (requested : state.executor.requested source = true) :
    next.executor.requested source = true := by
  obtain ⟨executor, advanced, rfl⟩ := Option.map_eq_some_iff.mp moved
  exact (requested_of_move advanced).mpr (.inl requested)

theorem requests_mono (moved : branches.step state label = some next)
    (requested : state.Requested branches) : next.Requested branches := by
  obtain ⟨source, member, found⟩ := requested
  exact ⟨source, member, requested_mono moved found⟩

theorem step (accounted : Accounted branches state)
    (attaches : ∀ id sources, label = .attach id sources → state.parent = .constructing ∧
      sources = branches.sources ∧ ∃ branch, id = branches.base branch)
    (enters : ∀ id, label = .execute id → state.parent ≠ .constructing)
    (moved : branches.step state label = some next) : Accounted branches next := by
  have mono := requests_mono moved
  have monoOwn : state.executor.requested branches.own = true →
      next.executor.requested branches.own = true := requested_mono moved
  have coherent := accounted.coherent
  obtain ⟨executor, advanced, rfl⟩ := Option.map_eq_some_iff.mp moved
  have restacks := restacks_of_move coherent advanced
  constructor
  · exact accounted.executor.step trivial advanced
  · intro id execution present
    rcases sources_of_move advanced present with attach | ⟨before, stood, kept⟩
    · exact (attaches _ _ attach).2.symm
    · exact kept ▸ accounted.attached id before stood
  · intro id cleans
    rcases cleans_of_move advanced cleans with cleaning | ⟨execution, present, requested⟩
    · exact mono (accounted.cleaned id cleaning)
    · have sources := (accounted.attached id execution present).2
      rw [Executor.State.cancelRequested, sources, List.any_eq_true] at requested
      exact mono requested
  · intro constructing
    obtain ⟨idle, unfinished⟩ := accounted.quiet constructing
    refine ⟨idle_of_move idle (fun id same => enters id same constructing) advanced,
      fun branch => ?_⟩
    simp [unfinished, Branches.finishes, idle]
  · intro entered branch empty
    cases restacks (branches.base branch) with
    | keeps same =>
        rcases accounted.emptied entered branch (same.symm.trans empty) with finished | requested
        · exact .inl (by simp [finished])
        · exact .inr (mono requested)
    | attaches attach => exact absurd (attaches _ _ attach).1 entered
    | pushes await running pushed =>
        have nonempty := pushed.symm.trans empty
        contradiction
    | @pops current complete running popped =>
        have last := (stacked_of_running coherent running).2
        rw [popped, show handleStacks executor.executions (branches.base branch) = [] from empty]
          at last
        obtain rfl : current = branches.base branch := by simpa using last
        exact .inl (by simp [Branches.finishes, complete, running])
    | unwinds unwind cleaning popped =>
        exact .inr (mono (accounted.cleaned _ (by rw [cleaning]; rfl)))
  · intro branch finished
    simp only [Bool.or_eq_true] at finished
    rcases finished with before | ends
    · have empty := accounted.ended branch before
      cases restacks (branches.base branch) with
      | keeps same => exact same.trans empty
      | attaches attach =>
          have unfinished := (accounted.quiet (attaches _ _ attach).1).2 branch
          simp [unfinished] at before
      | pushes await running pushed =>
          have top := (stacked_of_running coherent running).1
          rw [show handleStacks state.executor.executions (branches.base branch) = [] from empty]
            at top
          contradiction
      | pops complete running popped =>
          have nonempty := popped.symm.trans empty
          contradiction
      | unwinds unwind cleaning popped =>
          have nonempty := popped.symm.trans empty
          contradiction
    · unfold Branches.finishes at ends
      split at ends
      · rename_i id current running
        simp only [Bool.and_eq_true, decide_eq_true_eq] at ends
        obtain ⟨rfl, rfl⟩ := ends
        have popped := pops_of_complete coherent running advanced
        rw [alone_of_running coherent running] at popped
        exact (List.cons.inj popped).2.symm
      · contradiction
  · intro left id
    refine Option.eq_none_iff_forall_not_mem.mpr fun execution present => ?_
    rcases sources_of_move advanced present with attach | ⟨before, stood, _⟩
    · have constructing : state.parent = .constructing := (attaches _ _ attach).1
      rcases left with resumed | cancelled
      · cases constructing.symm.trans resumed
      · cases constructing.symm.trans cancelled
    · cases (accounted.empty left id).symm.trans stood
  · intro resumed branch
    rcases accounted.resumed resumed branch with finished | requested
    · exact .inl (by simp [finished])
    · exact .inr (monoOwn requested)

/-- A step that neither attaches an execution nor begins to execute one. -/
theorem goes (accounted : Accounted branches state)
    (attaches : ∀ id sources, label ≠ .attach id sources)
    (enters : ∀ id, label ≠ .execute id) (moved : branches.step state label = some next) :
    Accounted branches next :=
  accounted.step (fun id sources attach => absurd attach (attaches id sources))
    (fun id enter => absurd enter (enters id)) moved

variable [Fintype Branch]

theorem move (accounted : Accounted branches state) {label : Label Branch Handle Source}
    (moved : branches.move state label = some next) : Accounted branches next := by
  cases label with
  | executor label =>
      obtain ⟨permitted, stepped⟩ := Option.ite_none_right_eq_some.mp moved
      refine accounted.step (fun id sources attach => ?_) (fun id enter constructing => ?_) stepped
      · subst attach
        contradiction
      · subst enter
        simp [Branches.permits, constructing] at permitted
  | attach branch =>
      obtain ⟨constructing, stepped⟩ := Option.ite_none_right_eq_some.mp moved
      refine accounted.step (fun id sources attach => ?_) (fun id enter => ?_) stepped
      · cases attach
        exact ⟨constructing, rfl, branch, rfl⟩
      · cases enter
  | cancel =>
      have stepped : branches.step state (.requestCancel branches.own) = some next := moved
      exact accounted.goes (by simp) (by simp) stepped
  | suspend =>
      obtain ⟨⟨constructing, present⟩, entered⟩ := Option.ite_none_right_eq_some.mp moved
      cases entered
      obtain ⟨idle, unfinished⟩ := accounted.quiet constructing
      refine { accounted with quiet := ?_, emptied := ?_, empty := ?_, resumed := ?_ }
      · intro same
        contradiction
      · intro _ branch empty
        obtain ⟨ledger, coherent⟩ := accounted.coherent
        rcases coherent.placed.based _ (present branch) with last | ⟨_, spends⟩
        · rw [show handleStacks state.executor.executions (branches.base branch) = [] from empty]
            at last
          contradiction
        · rw [idle] at spends
          exact spends.elim
      · intro left
        simp at left
      · intro same
        contradiction
  | resume =>
      obtain ⟨⟨suspended, absent⟩, entered⟩ := Option.ite_none_right_eq_some.mp moved
      cases entered
      have gone (branch : Branch) : state.executor.executions (branches.base branch) = none := by
        simpa using absent branch
      refine { accounted with quiet := ?_, emptied := ?_, empty := ?_, resumed := ?_ }
      · intro same
        split at same <;> contradiction
      · intro _ branch empty
        exact accounted.emptied (by simp [suspended]) branch empty
      · intro _ id
        refine Option.eq_none_iff_forall_not_mem.mpr fun execution present => ?_
        obtain ⟨branch, rfl⟩ := (accounted.attached id execution present).1
        cases (gone branch).symm.trans present
      · intro same branch
        split at same
        · contradiction
        · rename_i unrequested
          have empty : state.stack branches branch = [] := by
            simp [State.stack, handleStacks, gone]
          rcases accounted.emptied (by simp [suspended]) branch empty with finished | requested
          · exact .inl finished
          · obtain ⟨source, member, found⟩ := requested
            rcases List.mem_append.mp member with outer | own
            · exact absurd (List.any_eq_true.mpr ⟨source, outer, found⟩) unrequested
            · exact .inr (List.mem_singleton.mp own ▸ found)

omit [Fintype Branch] in
theorem initial (branches : Branches Branch Handle Source) :
    Accounted branches (.initial Branch Handle Source) where
  executor := ⟨_, rfl, .refl _⟩
  attached id execution present := by cases present
  cleaned id cleans := by cases cleans
  quiet _ := ⟨rfl, fun _ => rfl⟩
  emptied entered := absurd rfl entered
  ended branch finished := by cases finished
  empty _ id := rfl
  resumed same := by cases same

end Accounted

end Asco.Core.Task.ExecutionDomainProxy
