import Asco.Core.Worker.RunOnce.Accounts

namespace Asco.Core.Worker

open Foundation Asco.Core.Task

variable {Id : Type*}

/-! # What the domains have attached

Only a task that is fetched and an execution that a coroutine attaches are new to a
domain, and one call of `run_once` takes at most the innermost execution from the root
domain.
-/

namespace Tree

variable {state next : State Id} {address : List Id} {id : Id}

/-- No domain has got an execution, and the root domain has kept its own. -/
structure Keeps (state next : State Id) : Prop where
  fewer : ∀ place, next.executions place ⊆ state.executions place
  root : next.executions [] = state.executions []
  sources : next.cancelSrcStack = state.cancelSrcStack

/-- Of the root domain only the execution itself is taken, and only if it is there. -/
structure Detached (state next : State Id) (address : List Id) (id : Id) : Prop where
  fewer : ∀ place, next.executions place ⊆ state.executions place
  gone : id ∉ next.executions address
  root : ∀ other ∈ state.executions [], ¬ (address = [] ∧ other = id) → other ∈ next.executions []
  sources : next.cancelSrcStack = state.cancelSrcStack

theorem Keeps.of_eq (executions : next.executions = state.executions)
    (sources : next.cancelSrcStack = state.cancelSrcStack) : Keeps state next where
  fewer _ := executions ▸ subset_rfl
  root := executions ▸ rfl
  sources := sources

theorem Keeps.refl (state : State Id) : Keeps state state := .of_eq rfl rfl

theorem Keeps.request (state : State Id) (requested : CancelSource Id → Bool) :
    Keeps state { state with requested } := .of_eq rfl rfl

theorem Keeps.trans {middle : State Id} (first : Keeps state middle) (second : Keeps middle next) :
    Keeps state next where
  fewer place := (second.fewer place).trans (first.fewer place)
  root := second.root.trans first.root
  sources := second.sources.trans first.sources

theorem Keeps.detached {middle : State Id} (first : Keeps state middle)
    (second : Detached middle next address id) : Detached state next address id where
  fewer place := (second.fewer place).trans (first.fewer place)
  gone := second.gone
  root other member apart := second.root other (first.root ▸ member) apart
  sources := second.sources.trans first.sources

theorem Detached.keeps {middle : State Id} (first : Detached state middle address id)
    (second : Keeps middle next) : Detached state next address id where
  fewer place := (second.fewer place).trans (first.fewer place)
  gone member := first.gone (second.fewer address member)
  root other member apart := second.root ▸ first.root other member apart
  sources := second.sources.trans first.sources

variable [DecidableEq Id]

theorem Keeps.prune (state : State Id) (nonempty : address ≠ []) :
    Keeps state (state.prune address) where
  fewer place := by
    simp only [State.prune]
    split
    · exact Finset.empty_subset _
    · exact subset_rfl
  root := State.prune_executions fun within => nonempty (List.suffix_nil.mp within)
  sources := rfl

theorem Detached.erase (state : State Id) (address : List Id) (id : Id) :
    Detached state (state.erase address id) address id where
  fewer _ _ member := (State.mem_erase.mp member).2
  gone member := (State.mem_erase.mp member).1 ⟨rfl, rfl⟩
  root _ member apart :=
    State.mem_erase.mpr ⟨fun both => apart ⟨both.1.symm, both.2⟩, member⟩
  sources := rfl

theorem State.call_keeps
    {root : DynprioScheduler.Scheduler Id → Option (DynprioScheduler.Scheduler Id)}
    {nested : ExecutionDomain Id → Option (ExecutionDomain Id)}
    (called : state.call root nested address = some next) : Keeps state next := by
  rw [State.call_rest called]
  exact .of_eq rfl rfl

theorem State.endContexts_keeps {execTime : UInt64} {frames : List (Frame Id)}
    {completed : Bool} (ended : state.endContexts execTime frames completed = some next) :
    Keeps state next ∧ next.stack = state.stack := by
  induction frames generalizing state completed with
  | nil =>
      cases ended
      exact ⟨.refl _, rfl⟩
  | cons frame rest ih =>
      obtain ⟨middle, first, others⟩ := Option.bind_eq_some_iff.mp ended
      obtain ⟨keeps, stack⟩ := ih others
      rw [State.call_rest first] at stack
      exact ⟨(State.call_keeps first).trans keeps, stack⟩

theorem State.awakeExecution_keeps (awoken : state.awakeExecution id address = some next) :
    Keeps state next := by
  induction address generalizing state id with
  | nil =>
      have here : state.awakeHere [] id = some next := awoken
      exact State.call_keeps here
  | cons parent above ih =>
      obtain ⟨middle, here, goesOn⟩ := Option.bind_eq_some_iff.mp awoken
      obtain ⟨read, _, goesOn⟩ := Option.bind_eq_some_iff.mp goesOn
      have keeps := State.call_keeps here
      split at goesOn
      · exact keeps.trans (ih goesOn)
      · cases goesOn
        exact keeps

theorem State.detachExecution_detached (detached : state.detachExecution address id = some next) :
    Detached state next address id := by
  obtain ⟨middle, stepped, rfl⟩ := State.detachExecution_eq_some detached
  exact (State.call_keeps stepped).detached
    ((Detached.erase middle address id).keeps (.prune _ (List.cons_ne_nil id address)))

end Tree

namespace RunOnce

open Asco.Core.Worker.Tree (Frame CancelSource path Keeps)

variable [DecidableEq Id] {state next : State Id} {execTime : UInt64}

/-- One call of `run_once` after which `execute` has not returned `false`. -/
structure Stays (state next : State Id) : Prop where
  keeps : Keeps state.tree next.tree
  finished : next.finished = false

/-- One call of `run_once` in which `execute` has returned `false`. -/
structure Ends (state next : State Id) (top : Frame Id) (rest : List (Frame Id)) : Prop where
  whole : state.tree.stack = top :: rest
  detached : Tree.Detached state.tree next.tree (path rest) top.id
  finished : next.finished = true

/-- One turn of the loop, or the return to it. -/
def Turns (state next : State Id) : Prop := Stays state next ∨ ∃ top rest, Ends state next top rest

theorem State.exitStack_stays {completed : Bool} (unfinished : state.finished = false)
    (exits : state.exitStack execTime completed = some next) : Stays state next := by
  unfold State.exitStack at exits
  split at exits
  · cases exits
    exact ⟨.of_eq rfl rfl, unfinished⟩
  · obtain ⟨tree, ended, rfl⟩ := Option.map_eq_some_iff.mp exits
    have keeps := (Tree.State.endContexts_keeps ended).1
    exact ⟨keeps.trans (.of_eq rfl rfl), unfinished⟩

theorem State.cancelled_ends {top : Frame Id} {rest : List (Frame Id)}
    (whole : state.tree.stack = top :: rest) {address : List Id} {id : Id}
    (cancels : state.cancelled execTime address id = some next) : Ends state next top rest := by
  obtain ⟨middle, ends, after⟩ := Option.bind_eq_some_iff.mp cancels
  obtain ⟨tree, ended, rfl⟩ := Option.map_eq_some_iff.mp ends
  obtain ⟨keeps, stack⟩ := Tree.State.endContexts_keeps ended
  have stack : tree.stack = top :: rest := stack.trans whole
  simp only [State.afterExecute, Bool.false_eq_true, if_false, stack] at after
  obtain ⟨left, detaches, exits⟩ := Option.bind_eq_some_iff.mp after
  cases exits
  have detached := keeps.detached (Tree.State.detachExecution_detached detaches)
  exact ⟨whole, detached.keeps (.of_eq rfl rfl), rfl⟩

theorem State.execute_turns (unfinished : state.finished = false)
    (stacked : ∀ top rest, state.tree.stack = top :: rest →
      state.handleStacks (path rest) top.id ≠ [])
    (executes : state.execute execTime = some next) : Turns state next := by
  unfold State.execute at executes
  split at executes
  · contradiction
  · rename_i top rest whole
    split at executes
    · exact absurd ‹_› (stacked top rest whole)
    · split at executes
      · exact .inr ⟨top, rest, State.cancelled_ends whole executes⟩
      · cases executes
        exact .inl ⟨.of_eq rfl rfl, unfinished⟩

theorem State.resumed_turns (unfinished : state.finished = false)
    (resumes : state.resumed execTime = some next) : Turns state next := by
  unfold State.resumed at resumes
  split at resumes
  · contradiction
  · rename_i top rest whole
    split at resumes
    · exact .inr ⟨top, rest, State.cancelled_ends whole resumes⟩
    · cases handles : state.handleStacks (path rest) top.id with
      | nil =>
          simp only [handles, List.isEmpty_nil, Bool.not_true, Bool.not_false] at resumes
          have cancels : state.cancelled execTime (path rest) top.id = some next := by
            rw [State.cancelled, State.setHandleStack_same handles]
            exact resumes
          exact .inr ⟨top, rest, State.cancelled_ends whole cancels⟩
      | cons handle below =>
          simp only [handles, List.isEmpty_cons, Bool.not_false, Bool.not_true,
            endAll_afterExecute] at resumes
          exact .inl (State.exitStack_stays unfinished resumes)

theorem State.visit_turns (unfinished : state.finished = false)
    (stacked : ∀ top rest, state.tree.stack = top :: rest →
      state.handleStacks (path rest) top.id ≠ [])
    (visits : state.visit execTime = some next) : Turns state next := by
  unfold State.visit at visits
  split at visits
  · contradiction
  · rename_i top rest whole
    split at visits
    · exact State.execute_turns unfinished stacked visits
    · rename_i domain present
      split at visits
      · obtain ⟨keeps, finished⟩ := State.exitStack_stays (by exact unfinished) visits
        exact .inl ⟨(Keeps.prune _ (List.cons_ne_nil _ _)).trans keeps, finished⟩
      · split at visits
        · obtain ⟨⟨scheduled, context, after⟩, _, taken⟩ := Option.bind_eq_some_iff.mp visits
          obtain ⟨_, ⟨⟩⟩ := Option.ite_none_right_eq_some.mp taken
          exact .inl ⟨.of_eq rfl rfl, unfinished⟩
        · obtain ⟨tree, suspends, exits⟩ := Option.bind_eq_some_iff.mp visits
          obtain ⟨keeps, finished⟩ := State.exitStack_stays (by exact unfinished) exits
          exact .inl ⟨(Tree.State.call_keeps suspends).trans keeps, finished⟩

/-- What a coroutine does, except that it attaches an execution. -/
theorem State.resume_keeps {maxDepth : ℕ} {top : Frame Id} {rest : List (Frame Id)}
    {label : Label Id} (nonempty : path state.tree.stack ≠ [])
    (other : ∀ address id, label ≠ .attach address id)
    (resumes : state.resume maxDepth top rest label = some next) :
    Keeps state.tree next.tree ∧ next.finished = state.finished := by
  cases label with
  | suspend =>
      obtain ⟨tree, suspends, rfl⟩ := Option.map_eq_some_iff.mp resumes
      exact ⟨Tree.State.call_keeps suspends, rfl⟩
  | construct size =>
      cases resumes
      exact ⟨(Keeps.prune state.tree nonempty).trans (.of_eq rfl rfl), rfl⟩
  | attach address id => exact absurd rfl (other address id)
  | cancel address =>
      obtain ⟨tree, cancelled, rfl⟩ := Option.map_eq_some_iff.mp resumes
      have keeps := Tree.State.call_keeps cancelled
      exact ⟨(Keeps.request _ _).trans keeps, rfl⟩
  | await handle =>
      cases resumes
      exact ⟨.of_eq rfl rfl, rfl⟩
  | complete =>
      have completes : state.complete (path rest) top.id = some next := resumes
      unfold State.complete at completes
      split at completes
      · contradiction
      · split at completes
        · obtain ⟨tree, suspends, rfl⟩ := Option.map_eq_some_iff.mp completes
          have keeps := Tree.State.call_keeps suspends
          exact ⟨keeps, rfl⟩
        · cases completes
          exact ⟨.of_eq rfl rfl, rfl⟩
  | _ => contradiction

/-- Every step but a fetch and an attachment. -/
theorem Accounted.move_turns {maxDepth : ℕ} {label : Label Id} (accounted : Accounted state)
    (fetches : ∀ id requested, label ≠ .fetch id requested)
    (attaches : ∀ address id, label ≠ .attach address id)
    (moved : state.move maxDepth label = some next) :
    Accounted next ∧
      (Turns state next ∨ Keeps state.tree next.tree ∧ next.finished = state.finished) := by
  have attachesNew : AttachesNew state label := by
    cases label with
    | attach address id => exact absurd rfl (attaches address id)
    | _ => trivial
  refine ⟨(accounted.step attachesNew moved).1, ?_⟩
  have unfinished (running : state.tree.phase ≠ .idle) : state.finished = false :=
    (accounted.taken running).2.2
  unfold State.move at moved
  split at moved
  · exact absurd rfl (fetches _ _)
  · split at moved
    · obtain ⟨tree, taken, rfl⟩ := Option.map_eq_some_iff.mp moved
      obtain ⟨_, _, chosen⟩ := Option.bind_eq_some_iff.mp taken
      obtain ⟨_, ⟨⟩⟩ := Option.ite_none_right_eq_some.mp chosen
      exact .inl (.inl ⟨.of_eq rfl rfl, rfl⟩)
    · contradiction
  · split at moved
    · rename_i visiting
      have running : state.tree.phase ≠ .idle := by simp [visiting]
      exact .inl (State.visit_turns (unfinished running)
        (fun top rest whole => accounted.stacked_of_visiting visiting (accounted.innermost whole))
        moved)
    · contradiction
  · split at moved
    · contradiction
    · obtain ⟨tree, awoken, rfl⟩ := Option.map_eq_some_iff.mp moved
      exact .inr ⟨Tree.State.awakeExecution_keeps awoken, rfl⟩
  · split at moved
    · contradiction
    · obtain ⟨tree, awoken, rfl⟩ := Option.map_eq_some_iff.mp moved
      have keeps := Tree.State.awakeExecution_keeps awoken
      exact .inr ⟨(Keeps.request _ _).trans keeps, rfl⟩
  · split at moved
    · rename_i executing
      have running : state.tree.phase ≠ .idle := by simp [executing]
      exact .inl (State.resumed_turns (unfinished running) moved)
    · contradiction
  · split at moved
    · rename_i top rest executing whole
      split at moved
      · contradiction
      · exact .inr (State.resume_keeps (by simp [whole, path]) attaches moved)
    · contradiction

omit [DecidableEq Id] in
/-- What a step without an attachment leaves of the executions and of their sources. -/
theorem fewer_of_turns
    (turns : Turns state next ∨ Keeps state.tree next.tree ∧ next.finished = state.finished) :
    (∀ place, next.tree.executions place ⊆ state.tree.executions place) ∧
      next.tree.cancelSrcStack = state.tree.cancelSrcStack := by
  rcases turns with (stays | ⟨top, rest, ends⟩) | ⟨keeps, _⟩
  · exact ⟨stays.keeps.fewer, stays.keeps.sources⟩
  · exact ⟨ends.detached.fewer, ends.detached.sources⟩
  · exact ⟨keeps.fewer, keeps.sources⟩

/-- An execution is attached that the domain has not got yet. -/
theorem Accounted.attach_grown {maxDepth : ℕ} {address : List Id} {id : Id}
    {parentSrcStack : List (CancelSource Id)} {cancelSrc : CancelSource Id}
    (accounted : Accounted state)
    (unlisted : ∀ domain ∈ state.tree.nested address, domain.scheduler.find id = none)
    (attaches : state.attachExecution maxDepth address id parentSrcStack cancelSrc = some next) :
    Tree.Grown state.tree next.tree address id (parentSrcStack ++ [cancelSrc]) := by
  obtain ⟨tree, attached, rfl⟩ := Option.map_eq_some_iff.mp attaches
  obtain ⟨_, grown⟩ := accounted.scheduled.sound.attachExecution unlisted attached
  simp only [if_neg grown.fresh]
  exact grown

end RunOnce

end Asco.Core.Worker
