import Asco.Core.Worker.RunOnce

namespace Asco.Core.Worker.RunOnce

open Foundation Asco.Core.Task
open Asco.Core.Worker.Tree (Frame CancelSource path Scheduled)

/-! # Every scheduled execution is accounted for

What `run_once` has taken from the schedulers on its way down is back in them when it
returns, with every context ended once, but for an innermost execution that has come to its
end.
-/

variable {Id : Type*} [DecidableEq Id]

/-! ## The contexts of a stack -/

omit [DecidableEq Id] in
theorem mem_contexts {frames : List (Frame Id)} {context : List Id × Id} :
    context ∈ contexts frames ↔
      ∃ frame rest, frame :: rest <:+ frames ∧ context = (path rest, frame.id) := by
  induction frames with
  | nil => simp [contexts]
  | cons top below ih =>
      simp only [contexts, List.mem_cons, ih, List.suffix_cons_iff]
      constructor
      · rintro (rfl | ⟨frame, rest, within, rfl⟩)
        · exact ⟨top, below, .inl rfl, rfl⟩
        · exact ⟨frame, rest, .inr within, rfl⟩
      · rintro ⟨frame, rest, same | within, rfl⟩
        · cases same
          exact .inl rfl
        · exact .inr ⟨frame, rest, within, rfl⟩

omit [DecidableEq Id] in
theorem nodup_contexts (frames : List (Frame Id)) : (contexts frames).Nodup := by
  induction frames with
  | nil => exact List.nodup_nil
  | cons top below ih =>
      refine List.nodup_cons.mpr ⟨fun member => ?_, ih⟩
      obtain ⟨frame, rest, within, same⟩ := mem_contexts.mp member
      have lengths := congrArg List.length (congrArg Prod.fst same)
      have bounded := within.length_le
      simp only [path, List.length_map, List.length_cons] at lengths bounded
      omega

@[simp]
theorem State.setHandleStack_self (state : State Id) (address : List Id) (id : Id)
    (handles : List Id) : (state.setHandleStack address id handles).handleStacks address id =
      handles := by
  simp [State.setHandleStack]

theorem State.setHandleStack_other (state : State Id) {address place : List Id} {id other : Id}
    {handles : List Id} (different : ¬ (place = address ∧ other = id)) :
    (state.setHandleStack address id handles).handleStacks place other =
      state.handleStacks place other := by
  by_cases samePlace : place = address
  · subst samePlace
    have different : other ≠ id := fun same => different ⟨rfl, same⟩
    simp [State.setHandleStack, different]
  · simp [State.setHandleStack, samePlace]

theorem State.setHandleStack_same {state : State Id} {address : List Id} {id : Id}
    {handles : List Id} (same : state.handleStacks address id = handles) :
    state.setHandleStack address id handles = state := by
  subst same
  simp [State.setHandleStack]

/-! ## The invariant -/

/-- Every attached execution has its base coroutine at the bottom of its handle stack, unless
it is the innermost and has come to its end. -/
structure Accounted (state : State Id) : Prop where
  scheduled : Scheduled state.tree
  idle : state.tree.phase = .idle ↔ state.tree.stack = []
  stacked : ∀ address id, id ∈ state.tree.executions address →
    (state.handleStacks address id).getLast? = some id ∨
      state.handleStacks address id = [] ∧ state.tree.phase = .executing ∧ state.returned = true ∧
        path state.tree.stack = id :: address
  taken : state.tree.phase ≠ .idle →
    state.scheduled = contexts state.tree.stack ∧ state.ended = [] ∧ state.finished = false

/-- What holds at the end of `run_once`. -/
structure Settled (state : State Id) : Prop where
  ended : state.ended = state.scheduled
  distinct : state.scheduled.Nodup
  finished : ∀ address id, state.scheduled.head? = some (address, id) →
    (state.finished = true ↔ state.handleStacks address id = [])
  held : ∀ address id, (address, id) ∈ state.scheduled →
    ¬ (state.finished = true ∧ state.scheduled.head? = some (address, id)) →
      id ∈ state.tree.executions address ∧
        state.tree.heldActive address id + state.tree.heldSuspended address id = 1
  detached : state.finished = true → ∀ address id, state.scheduled.head? = some (address, id) →
    id ∉ state.tree.executions address ∧
      state.tree.heldActive address id = 0 ∧ state.tree.heldSuspended address id = 0

variable {state next : State Id} {execTime : UInt64}

theorem Accounted.innermost (accounted : Accounted state) {top : Frame Id} {rest : List (Frame Id)}
    (whole : state.tree.stack = top :: rest) : top.id ∈ state.tree.executions (path rest) :=
  (accounted.scheduled.frames top rest (whole ▸ List.suffix_refl _)).1

/-- `execute` does not meet an empty handle stack. -/
theorem Accounted.stacked_of_visiting (accounted : Accounted state)
    (visiting : state.tree.phase = .visiting) {address : List Id} {id : Id}
    (member : id ∈ state.tree.executions address) : state.handleStacks address id ≠ [] := by
  rcases accounted.stacked address id member with base | ⟨_, executing, _⟩
  · rintro empty
    simp [empty] at base
  · rw [visiting] at executing
    contradiction

/-- A call of the schedulers or of the domains that leaves the stack alone. -/
theorem Accounted.called (accounted : Accounted state) {tree : Tree.State Id}
    (scheduled : Scheduled tree) (stack : tree.stack = state.tree.stack)
    (phase : tree.phase = state.tree.phase)
    (fewer : ∀ place, tree.executions place ⊆ state.tree.executions place) :
    Accounted { state with tree } where
  scheduled := scheduled
  idle := by
    rw [phase, stack]
    exact accounted.idle
  stacked address id member := by
    rw [phase, stack]
    exact accounted.stacked address id (fewer address member)
  taken others := by
    rw [phase] at others
    rw [stack]
    exact accounted.taken others

/-! ## The exits -/

/-- The contexts have ended with `false`. -/
theorem Accounted.exitStack (accounted : Accounted state) (running : state.tree.phase ≠ .idle)
    (stacked : ∀ address id, id ∈ state.tree.executions address →
      (state.handleStacks address id).getLast? = some id)
    (exits : state.exitStack execTime false = some next) : Accounted next ∧ Settled next := by
  obtain ⟨tree, ended, rfl⟩ := Option.map_eq_some_iff.mp exits
  obtain ⟨scheduled, executions, _⟩ := accounted.scheduled.exit ended
  obtain ⟨taken, nothing, unfinished⟩ := accounted.taken running
  have outside : Scheduled { tree with stack := [], phase := .idle } := scheduled
  refine ⟨⟨scheduled, ⟨fun _ => rfl, fun _ => rfl⟩, fun address id member => ?_,
    fun others => absurd rfl others⟩, ?_, ?_, fun address id first => ?_,
    fun address id member _ => ?_, fun finished => ?_⟩
  · exact .inl (stacked address id (executions ▸ member))
  · simp [nothing, taken]
  · exact taken ▸ nodup_contexts _
  · have listed : (address, id) ∈ contexts state.tree.stack := taken ▸ List.mem_of_head? first
    obtain ⟨frame, rest, within, same⟩ := mem_contexts.mp listed
    obtain ⟨rfl, rfl⟩ := Prod.mk.inj same
    have member := (accounted.scheduled.frames frame rest within).1
    have base := stacked _ _ member
    have nonempty : state.handleStacks (path rest) frame.id ≠ [] := by
      rintro empty
      simp [empty] at base
    simpa [unfinished] using nonempty
  · obtain ⟨frame, rest, within, same⟩ := mem_contexts.mp (taken ▸ member)
    obtain ⟨rfl, rfl⟩ := Prod.mk.inj same
    have member : frame.id ∈ tree.executions (path rest) :=
      executions ▸ (accounted.scheduled.frames frame rest within).1
    exact ⟨member, outside.sound.held_once member⟩
  · rw [show state.finished = true from finished] at unfinished
    contradiction

/-- `detach_suspended_execution` and `detach_execution` do not look at the stacks. -/
theorem detachExecution_outside {tree : Tree.State Id} {address : List Id} {id : Id} :
    { tree with stack := [], phase := .idle }.detachExecution address id =
      (tree.detachExecution address id).map fun after =>
        { after with stack := [], phase := .idle } := by
  cases address with
  | nil => rfl
  | cons parent above =>
      simp only [Tree.State.detachExecution, Tree.State.call]
      cases tree.nested (parent :: above) with
      | none => rfl
      | some domain =>
          simp only [Option.bind_some]
          cases domain.detachSuspendedExecution id with
          | none => rfl
          | some _ => rfl

/-- The innermost execution has come to its end, or has been cancelled. -/
theorem Accounted.cancelled (accounted : Accounted state) (running : state.tree.phase ≠ .idle)
    {top : Frame Id} {rest : List (Frame Id)} (whole : state.tree.stack = top :: rest)
    (exits : state.cancelled execTime (path rest) top.id = some next) :
    Accounted next ∧ Settled next := by
  have stacked : ∀ address id, id ∈ state.tree.executions address →
      ¬ (address = path rest ∧ id = top.id) →
      ((state.setHandleStack (path rest) top.id []).handleStacks address id).getLast? =
        some id := by
    intro address id member other
    rw [state.setHandleStack_other other]
    refine (accounted.stacked address id member).resolve_right ?_
    rintro ⟨-, -, -, innermost⟩
    obtain ⟨rfl, rfl⟩ : top.id = id ∧ path rest = address := by simpa [whole, path] using innermost
    exact other ⟨rfl, rfl⟩
  obtain ⟨middle, ends, after⟩ := Option.bind_eq_some_iff.mp exits
  obtain ⟨tree, ended, rfl⟩ := Option.map_eq_some_iff.mp ends
  obtain ⟨scheduled, executions, stack, _, inactive⟩ := accounted.scheduled.exit ended
  obtain ⟨taken, nothing, _⟩ := accounted.taken running
  simp only [State.afterExecute, Bool.false_eq_true, if_false, stack, whole] at after
  obtain ⟨detached, detaches, exited⟩ := Option.bind_eq_some_iff.mp after
  simp only [State.exitStack, if_true, Option.some.injEq] at exited
  subst exited
  have removed : { tree with stack := [], phase := .idle }.detachExecution (path rest) top.id =
      some { detached with stack := [], phase := .idle } := by
    rw [detachExecution_outside, detaches, Option.map_some]
  have member : top.id ∈ tree.executions (path rest) := executions ▸ accounted.innermost whole
  obtain ⟨left, _, known⟩ := scheduled.detach rfl member (inactive rfl top rest whole) removed
  have outside : ∀ frame lower, frame :: lower <:+ top :: rest →
      ¬ top.id :: path rest <:+ path lower := by
    intro frame lower within inside
    have shorter := within.length_le
    have longer := inside.length_le
    simp only [path, List.length_map, List.length_cons] at shorter longer
    omega
  have first : (state.scheduled.head? = some (path rest, top.id)) := by
    simp [taken, whole, contexts]
  refine ⟨⟨left, ⟨fun _ => rfl, fun _ => rfl⟩, fun address id member => ?_,
    fun others => absurd rfl others⟩, ?_, ?_, fun address id listed => ?_,
    fun address id listed others => ?_, fun _ address id listed => ?_⟩
  · have within : ¬ top.id :: path rest <:+ address := by
      intro within
      have gone : detached.executions address = ∅ := by
        obtain ⟨_, _, rfl⟩ := Tree.State.detachExecution_eq_some detaches
        exact if_pos within
      have member : id ∈ detached.executions address := member
      rw [gone] at member
      exact absurd member (Finset.notMem_empty id)
    obtain ⟨other, member⟩ := (known address id within).mp member
    exact .inl (stacked address id (executions ▸ member) other)
  · change state.ended ++ contexts state.tree.stack = state.scheduled
    rw [nothing, List.nil_append, taken]
  · exact taken ▸ nodup_contexts _
  · have listed : state.scheduled.head? = some (address, id) := listed
    obtain ⟨rfl, rfl⟩ : path rest = address ∧ top.id = id := by simpa [first] using listed
    simp
  · obtain ⟨frame, lower, within, same⟩ := mem_contexts.mp (taken ▸ listed)
    obtain ⟨rfl, rfl⟩ := Prod.mk.inj same
    have other : ¬ (path lower = path rest ∧ frame.id = top.id) := by
      rintro ⟨samePath, sameId⟩
      exact others ⟨rfl, by rw [samePath, sameId]; exact first⟩
    have member : frame.id ∈ tree.executions (path lower) :=
      executions ▸ (accounted.scheduled.frames frame lower within).1
    have remains := (known _ frame.id (outside frame lower (whole ▸ within))).mpr ⟨other, member⟩
    exact ⟨remains, left.sound.held_once remains⟩
  · have listed : state.scheduled.head? = some (address, id) := listed
    obtain ⟨rfl, rfl⟩ : path rest = address ∧ top.id = id := by simpa [first] using listed
    have gone := (known _ top.id (outside top rest (List.suffix_refl _))).not.mpr fun both =>
      both.1 ⟨rfl, rfl⟩
    exact ⟨gone, left.sound.held_of_absent gone⟩

/-- `execute` has returned `true`. -/
theorem endAll_afterExecute : (state.endAll execTime false).bind (·.afterExecute execTime true) =
    state.exitStack execTime false := by
  simp only [State.endAll, State.exitStack, State.afterExecute, if_true, Bool.false_eq_true,
    if_false]
  cases state.tree.endContexts execTime state.tree.stack false with
  | none => rfl
  | some tree => rfl

theorem Accounted.execute (accounted : Accounted state) (visiting : state.tree.phase = .visiting)
    (executes : state.execute execTime = some next) :
    Accounted next ∧ (next.tree.phase = .idle → Settled next) := by
  have running : state.tree.phase ≠ .idle := by simp [visiting]
  unfold State.execute at executes
  split at executes
  · contradiction
  · rename_i top rest whole
    split at executes
    · rename_i empty
      exact absurd empty (accounted.stacked_of_visiting visiting (accounted.innermost whole))
    · split at executes
      · obtain ⟨kept, settled⟩ := accounted.cancelled running whole executes
        exact ⟨kept, fun _ => settled⟩
      · cases executes
        refine ⟨⟨?_, ⟨nofun, fun empty => ?_⟩, fun address id member => .inl ?_, fun _ => ?_⟩,
          nofun⟩
        · exact ⟨{ accounted.scheduled.sound with }, accounted.scheduled.parent,
            accounted.scheduled.frames⟩
        · exact absurd (accounted.idle.mpr empty) running
        · refine (accounted.stacked address id member).resolve_right ?_
          rintro ⟨-, executing, -⟩
          rw [visiting] at executing
          contradiction
        · exact accounted.taken running

theorem Accounted.resumed (accounted : Accounted state) (executing : state.tree.phase = .executing)
    (resumes : state.resumed execTime = some next) : Accounted next ∧ Settled next := by
  have running : state.tree.phase ≠ .idle := by simp [executing]
  unfold State.resumed at resumes
  split at resumes
  · contradiction
  · rename_i top rest whole
    split at resumes
    · exact accounted.cancelled running whole resumes
    · cases handles : state.handleStacks (path rest) top.id with
      | nil =>
          simp only [handles, List.isEmpty_nil, Bool.not_true, Bool.not_false] at resumes
          have cancels : state.cancelled execTime (path rest) top.id = some next := by
            rw [State.cancelled, State.setHandleStack_same handles]
            exact resumes
          exact accounted.cancelled running whole cancels
      | cons handle below =>
          simp only [handles, List.isEmpty_cons, Bool.not_false, Bool.not_true,
            endAll_afterExecute] at resumes
          refine accounted.exitStack running (fun address id member => ?_) resumes
          refine (accounted.stacked address id member).resolve_right ?_
          rintro ⟨empty, -, -, innermost⟩
          obtain ⟨rfl, rfl⟩ : top.id = id ∧ path rest = address := by
            simpa [whole, path] using innermost
          simp [handles] at empty

theorem Accounted.visit (accounted : Accounted state) (visiting : state.tree.phase = .visiting)
    (visits : state.visit execTime = some next) :
    Accounted next ∧ (next.tree.phase = .idle → Settled next) := by
  have running : state.tree.phase ≠ .idle := by simp [visiting]
  have based : ∀ address id, id ∈ state.tree.executions address →
      (state.handleStacks address id).getLast? = some id := by
    intro address id member
    refine (accounted.stacked address id member).resolve_right ?_
    rintro ⟨-, executing, -⟩
    rw [visiting] at executing
    contradiction
  unfold State.visit at visits
  split at visits
  · contradiction
  · rename_i top rest whole
    rw [← whole] at visits
    have nonempty : state.tree.stack ≠ [] := by simp [whole]
    split at visits
    · exact accounted.execute visiting visits
    · rename_i domain present
      split at visits
      · have pruned := accounted.called (accounted.scheduled.prune nonempty) rfl rfl fun place =>
          show (state.tree.prune (path state.tree.stack)).executions place ⊆ _ by
            intro other member
            simp only [Tree.State.prune] at member
            split at member
            · simp at member
            · exact member
        have exits := pruned.exitStack running (fun address id member => based address id ?_) visits
        · exact ⟨exits.1, fun _ => exits.2⟩
        · simp only [Tree.State.prune] at member
          split at member
          · simp at member
          · exact member
      · split at visits
        · obtain ⟨⟨scheduled, context, after⟩, yields, taken⟩ := Option.bind_eq_some_iff.mp visits
          obtain ⟨_, ⟨⟩⟩ := Option.ite_none_right_eq_some.mp taken
          have pushed := accounted.scheduled.push nonempty present yields
          obtain ⟨listed, nothing, unfinished⟩ := accounted.taken running
          refine ⟨⟨pushed, ⟨fun idle => absurd idle running,
              fun nothing => absurd nothing (List.cons_ne_nil _ _)⟩, fun address id member => ?_,
            fun _ => ⟨?_, nothing, unfinished⟩⟩, fun idle => absurd idle running⟩
          · exact .inl (based address id member)
          · exact congrArg (List.cons _) listed
        · obtain ⟨tree, suspends, exits⟩ := Option.bind_eq_some_iff.mp visits
          have kept := Tree.State.call_rest suspends
          have phase : tree.phase = state.tree.phase := by rw [kept]
          have executions : tree.executions = state.tree.executions := by rw [kept]
          have suspended := accounted.called
            (accounted.scheduled.suspend (whole ▸ List.suffix_refl _) suspends)
            (by rw [kept]) phase (fun place => by rw [executions])
          have exits := suspended.exitStack (phase ▸ running)
            (fun address id member => based address id (executions ▸ member)) exits
          exact ⟨exits.1, fun _ => exits.2⟩

/-! ## The other steps -/

theorem Accounted.request (accounted : Accounted state) (requested : CancelSource Id → Bool) :
    Accounted { state with tree := { state.tree with requested } } :=
  accounted.called (accounted.scheduled.request requested) rfl rfl fun _ => subset_rfl

theorem Accounted.attach {maxDepth : ℕ} {address : List Id} {id : Id}
    {parentSrcStack : List (CancelSource Id)} {cancelSrc : CancelSource Id}
    (accounted : Accounted state)
    (unlisted : ∀ domain ∈ state.tree.nested address, domain.scheduler.find id = none)
    (attaches : state.attachExecution maxDepth address id parentSrcStack cancelSrc = some next) :
    Accounted next ∧ next.tree.phase = state.tree.phase := by
  obtain ⟨tree, attached, rfl⟩ := Option.map_eq_some_iff.mp attaches
  obtain ⟨sound, grown⟩ := accounted.scheduled.sound.attachExecution unlisted attached
  have scheduled := accounted.scheduled.grown sound grown
  simp only [if_neg grown.fresh]
  refine ⟨⟨scheduled, ?_, fun place other member => ?_, fun running => ?_⟩, grown.phase⟩
  · change tree.phase = .idle ↔ tree.stack = []
    rw [grown.phase, grown.stack]
    exact accounted.idle
  · by_cases here : place = address ∧ other = id
    · obtain ⟨rfl, rfl⟩ := here
      exact .inl (by simp)
    · rw [State.setHandleStack_other _ here]
      have before := (grown.mem_executions.mp member).resolve_left here
      have based := accounted.stacked place other before
      rw [← grown.phase, ← grown.stack] at based
      exact based
  · have taken := accounted.taken (grown.phase ▸ running)
    rw [← grown.stack] at taken
    exact taken

theorem Accounted.schedule {id : Id} (accounted : Accounted state) (idle : state.tree.phase = .idle)
    (schedules : state.schedule id = some next) : Accounted next := by
  obtain ⟨tree, taken, rfl⟩ := Option.map_eq_some_iff.mp schedules
  have executions : tree.executions = state.tree.executions := by
    obtain ⟨_, _, chosen⟩ := Option.bind_eq_some_iff.mp taken
    obtain ⟨_, ⟨⟩⟩ := Option.ite_none_right_eq_some.mp chosen
    rfl
  obtain ⟨scheduled, stack, phase⟩ :=
    accounted.scheduled.schedule (accounted.idle.mp idle) taken
  refine ⟨scheduled, ?_, fun address other member => ?_, fun _ => ⟨?_, rfl, rfl⟩⟩
  · change tree.phase = .idle ↔ tree.stack = []
    simp [stack, phase]
  · refine .inl ((accounted.stacked address other (executions ▸ member)).resolve_right ?_)
    rintro ⟨-, executing, -⟩
    rw [idle] at executing
    contradiction
  · change _ = contexts tree.stack
    rw [stack]
    rfl

theorem Accounted.awake {address : List Id} {id : Id} {tree : Tree.State Id}
    (accounted : Accounted state) (awoken : state.tree.awakeExecution id address = some tree) :
    Accounted { state with tree } := by
  obtain ⟨sound, kept, active⟩ := accounted.scheduled.sound.awakes awoken
  exact accounted.called (accounted.scheduled.kept sound kept active) kept.stack kept.phase
    fun place => by rw [kept.executions]

/-- A change of the handle stack of the innermost execution. -/
theorem Accounted.handles (accounted : Accounted state) (executing : state.tree.phase = .executing)
    {top : Frame Id} {rest : List (Frame Id)} (whole : state.tree.stack = top :: rest)
    {handles : List Id} (based : handles.getLast? = some top.id ∨ handles = []) :
    Accounted { state.setHandleStack (path rest) top.id handles with returned := true } := by
  refine ⟨accounted.scheduled, accounted.idle, fun address id member => ?_, accounted.taken⟩
  change ((state.setHandleStack (path rest) top.id handles).handleStacks address id).getLast? =
    some id ∨ (state.setHandleStack (path rest) top.id handles).handleStacks address id = [] ∧
      state.tree.phase = .executing ∧ true = true ∧ path state.tree.stack = id :: address
  by_cases here : address = path rest ∧ id = top.id
  · obtain ⟨rfl, rfl⟩ := here
    rw [State.setHandleStack_self]
    refine based.imp_right fun empty => ⟨empty, executing, rfl, ?_⟩
    rw [whole]
    rfl
  · rw [State.setHandleStack_other _ here]
    refine (accounted.stacked address id member).imp_right ?_
    rintro ⟨-, -, -, innermost⟩
    obtain ⟨rfl, rfl⟩ : top.id = id ∧ path rest = address := by simpa [whole, path] using innermost
    exact absurd ⟨rfl, rfl⟩ here

theorem Accounted.complete (accounted : Accounted state) (executing : state.tree.phase = .executing)
    {top : Frame Id} {rest : List (Frame Id)} (whole : state.tree.stack = top :: rest)
    (completes : state.complete (path rest) top.id = some next) :
    Accounted next ∧ next.tree.phase = state.tree.phase := by
  unfold State.complete at completes
  split at completes
  · contradiction
  · rename_i popped remaining handles
    have based := accounted.stacked _ _ (accounted.innermost whole)
    rw [handles] at based
    have bottom : (popped :: remaining).getLast? = some top.id :=
      based.resolve_right fun empty => absurd empty.1 (List.cons_ne_nil _ _)
    have below : remaining.getLast? = some top.id ∨ remaining = [] := by
      cases remaining with
      | nil => exact .inr rfl
      | cons second others => exact .inl (by rwa [List.getLast?_cons_cons] at bottom)
    have popped_ := accounted.handles executing whole below
    split at completes
    · rename_i base
      have same : popped = top.id := by
        rcases base with ⟨_, empty⟩ | last
        · simpa [empty] using bottom
        · rcases below with lowest | empty
          · exact Option.some.inj (last.symm.trans lowest)
          · simp [empty] at last
      subst same
      obtain ⟨tree, suspends, rfl⟩ := Option.map_eq_some_iff.mp completes
      have kept := Tree.State.call_rest suspends
      have phase : tree.phase = state.tree.phase := by rw [kept]; rfl
      exact ⟨popped_.called (popped_.scheduled.suspend (whole ▸ List.suffix_refl _) suspends)
        (by rw [kept]) (by rw [kept]) (fun place => by rw [kept]), phase⟩
    · cases completes
      exact ⟨popped_, rfl⟩

/-- What the coroutine does before it returns to the executor. -/
theorem Accounted.resume {maxDepth : ℕ} {label : Label Id} (accounted : Accounted state)
    (executing : state.tree.phase = .executing) (attaches : AttachesNew state label)
    {top : Frame Id} {rest : List (Frame Id)} (whole : state.tree.stack = top :: rest)
    (running : state.returned = false)
    (resumes : state.resume maxDepth top rest label = some next) :
    Accounted next ∧ next.tree.phase = state.tree.phase := by
  have nonempty : state.tree.stack ≠ [] := by simp [whole]
  cases label with
  | suspend =>
      obtain ⟨tree, suspends, rfl⟩ := Option.map_eq_some_iff.mp resumes
      have kept := Tree.State.call_rest suspends
      have phase : tree.phase = state.tree.phase := by rw [kept]
      exact ⟨accounted.called (accounted.scheduled.suspend (whole ▸ List.suffix_refl _) suspends)
        (by rw [kept]) phase (fun place => by rw [kept]), phase⟩
  | construct size =>
      cases resumes
      refine ⟨accounted.called (accounted.scheduled.construct nonempty size) rfl rfl
        fun place => ?_, rfl⟩
      change (if path state.tree.stack <:+ place then ∅ else state.tree.executions place) ⊆ _
      split
      · exact Finset.empty_subset _
      · exact subset_rfl
  | attach address id => exact accounted.attach attaches resumes
  | cancel address =>
      obtain ⟨tree, cancelled, rfl⟩ := Option.map_eq_some_iff.mp resumes
      obtain ⟨_, kept, _⟩ := accounted.scheduled.sound.cancel cancelled
      exact ⟨accounted.called (accounted.scheduled.cancel cancelled) kept.stack kept.phase
        fun place => by rw [kept.executions], kept.phase⟩
  | await handle =>
      cases resumes
      refine ⟨accounted.handles executing whole (.inl ?_), rfl⟩
      have based := accounted.stacked _ _ (accounted.innermost whole)
      rw [running] at based
      have bottom := based.resolve_right fun ended => absurd ended.2.2.1 Bool.false_ne_true
      simp [List.getLast?_cons, bottom]
  | complete => exact accounted.complete executing whole resumes
  | _ => contradiction

theorem Accounted.step {maxDepth : ℕ} {label : Label Id} (accounted : Accounted state)
    (attaches : AttachesNew state label) (moved : state.move maxDepth label = some next) :
    Accounted next ∧ (state.tree.phase ≠ .idle → next.tree.phase = .idle → Settled next) := by
  have stays (others : Accounted next) (phase : next.tree.phase = state.tree.phase) :
      Accounted next ∧ (state.tree.phase ≠ .idle → next.tree.phase = .idle → Settled next) :=
    ⟨others, fun running idle => absurd (phase.symm.trans idle) running⟩
  unfold State.move at moved
  split at moved
  · split at moved
    · contradiction
    · rename_i id requested _
      have requests := accounted.request
        (Function.update state.tree.requested (.task id) requested)
      obtain ⟨kept, phase⟩ := requests.attach (fun domain present =>
        nomatch accounted.scheduled.sound.rootless.symm.trans present) moved
      exact stays kept phase
  · split at moved
    · rename_i idle
      exact ⟨accounted.schedule idle moved, fun running => absurd idle running⟩
    · contradiction
  · split at moved
    · rename_i visiting
      obtain ⟨kept, settles⟩ := accounted.visit visiting moved
      exact ⟨kept, fun _ => settles⟩
    · contradiction
  · split at moved
    · contradiction
    · obtain ⟨tree, awoken, rfl⟩ := Option.map_eq_some_iff.mp moved
      exact stays (accounted.awake awoken) (accounted.scheduled.sound.awakes awoken).2.1.phase
  · split at moved
    · contradiction
    · rename_i id _
      have requests := accounted.request (Function.update state.tree.requested (.task id) true)
      obtain ⟨tree, awoken, rfl⟩ := Option.map_eq_some_iff.mp moved
      exact stays (requests.awake awoken) (requests.scheduled.sound.awakes awoken).2.1.phase
  · split at moved
    · rename_i executing
      obtain ⟨kept, settles⟩ := accounted.resumed executing moved
      exact ⟨kept, fun _ _ => settles⟩
    · contradiction
  · split at moved
    · rename_i top rest executing whole
      split at moved
      · contradiction
      · rename_i running
        obtain ⟨kept, phase⟩ :=
          accounted.resume executing attaches whole (by simpa using running) moved
        exact stays kept phase
    · contradiction

/-! ## Every run -/

theorem accounted_empty (current : DynprioScheduler.PrioritiedExecution Id)
    (states : Id → DynprioScheduler.ExecutionState) : Accounted (.empty current states) where
  scheduled :=
    { sound := (Tree.empty_ready current states).sound
      parent := (Tree.empty_ready current states).parent
      frames := (Tree.empty_ready current states).frames }
  idle := ⟨fun _ => rfl, fun _ => rfl⟩
  stacked _ id member := absurd member (Finset.notMem_empty id)
  taken running := absurd rfl running

theorem accounted_of_run {maxDepth : ℕ}
    (reachable : (machine Id maxDepth).Reachable AttachesNew state) : Accounted state := by
  refine reachable.invariant ?_ fun state label next accounted attaches moved =>
    (accounted.step attaches moved).1
  rintro first ⟨current, states, rfl⟩
  exact accounted_empty current states

/-- `execute` gets an execution with a handle on its stack, and at the end of `run_once` every
execution that `schedule` has yielded is held once, unless it is the innermost and has come to
its end, and then it is detached. -/
theorem runOnce_settles {maxDepth : ℕ}
    (reachable : (machine Id maxDepth).Reachable AttachesNew state) :
    (state.tree.phase = .visiting → ∀ top rest, state.tree.stack = top :: rest →
      state.handleStacks (path rest) top.id ≠ []) ∧
    ∀ label next, AttachesNew state label → state.move maxDepth label = some next →
      state.tree.phase ≠ .idle → next.tree.phase = .idle → Settled next := by
  have accounted := accounted_of_run reachable
  refine ⟨fun visiting top rest whole => ?_, fun label next attaches moved => ?_⟩
  · exact accounted.stacked_of_visiting visiting (accounted.innermost whole)
  · exact (accounted.step attaches moved).2

def started : State ℕ := .empty ⟨0, 0⟩ fun _ => .active

/-- Execution 0 constructs a domain with executions 1 and 2 and awaits it; execution 1, which
is scheduled next, comes to its end. -/
def joined : List (Label ℕ) :=
  [.fetch 0 false, .schedule 0, .visit 0, .construct 2, .attach [0] 1, .attach [0] 2, .leave 0,
    .schedule 0, .visit 0, .visit 0, .complete]

theorem settled_of_joined : ∃ state next : State ℕ,
    (machine ℕ 8).Reachable AttachesNew state ∧
    state.move 8 (.leave 0) = some next ∧ next.finished = true ∧
      next.scheduled = [([0], 1), ([], 0)] ∧ Settled next ∧
      1 ∉ next.tree.executions [0] ∧ 0 ∈ next.tree.executions [] := by
  have executed : (((machine ℕ 8).exec AttachesNew started joined).bind fun state =>
      (state.move 8 (.leave 0)).map fun next =>
        decide (state.tree.phase ≠ .idle ∧ next.tree.phase = .idle ∧ next.finished = true ∧
          next.scheduled = [([0], 1), ([], 0)])) = some true := by decide +kernel
  obtain ⟨state, executed, moves⟩ := Option.bind_eq_some_iff.mp executed
  obtain ⟨next, moved, facts⟩ := Option.map_eq_some_iff.mp moves
  obtain ⟨running, idle, finished, scheduled⟩ := of_decide_eq_true facts
  have reachable : (machine ℕ 8).Reachable AttachesNew state :=
    ⟨started, ⟨_, _, rfl⟩, Machine.exec_run executed⟩
  have settled := (runOnce_settles reachable).2 (.leave 0) next trivial moved running idle
  refine ⟨state, next, reachable, moved, finished, scheduled, settled, ?_, ?_⟩
  · exact (settled.detached finished [0] 1 (by rw [scheduled]; rfl)).1
  · exact (settled.held [] 0 (by simp [scheduled]) (by simp [scheduled])).1

end Asco.Core.Worker.RunOnce
