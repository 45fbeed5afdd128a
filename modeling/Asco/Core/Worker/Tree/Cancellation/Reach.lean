import Asco.Core.Worker.Tree.Cancellation

namespace Asco.Core.Worker.Tree

open Foundation Asco.Core.Task
open DynprioScheduler (ExecutionState)

/-! # Every run cancels what is runnable

A cancelled execution that is active is torn down when it is visited next; one that is
suspended when its cancellation is requested stays so.
-/

variable {Id : Type*} [DecidableEq Id] {state next : State Id} {address : List Id} {id : Id}

/-- The invariant. -/
structure Reaching (state : State Id) : Prop where
  ready : Ready state
  sourced : Sourced state
  reaches : Reaches state

/-! ## Calls that attach and request nothing -/

theorem Reaching.kept (reaching : Reaching state) (ready : Ready next) (kept : Kept state next)
    (active : ∀ place other, other ∈ state.executions place → state.Active place other →
      next.Active place other) : Reaching next where
  ready := ready
  sourced := by
    refine reaching.sourced.shrink (fun place => kept.executions ▸ subset_rfl)
      kept.cancelSrcStack ?_
    rw [kept.phase, kept.stack, kept.isSome, kept.requested]
    exact reaching.sourced.quiet
  reaches := by
    refine reaching.reaches.of_active ready.toCoherent (fun place => kept.executions ▸ subset_rfl)
      kept.cancelSrcStack (fun source requested => kept.requested ▸ requested)
      fun place id member runs _ => active place id (kept.executions ▸ member) runs

theorem Reaching.suspend {top : Frame Id} {rest : List (Frame Id)} (reaching : Reaching state)
    (executing : state.phase = .executing) (whole : state.stack = top :: rest)
    (suspends : state.suspendCurrent (path rest) top.id = some next) : Reaching next := by
  obtain ⟨_, after, turned, stays⟩ := reaching.ready.toCoherent.suspend whole suspends
  exact reaching.kept (reaching.ready.suspend executing whole suspends) turned.kept
    (turned.active fun _ => stays)

theorem Reaching.awake (reaching : Reaching state)
    (awoken : state.awakeExecution id address = some next) : Reaching next := by
  obtain ⟨_, kept, active⟩ := reaching.ready.sound.awakes awoken
  exact reaching.kept (reaching.ready.awake awoken) kept active

theorem State.construct_view {size : ℕ} (outside : ¬ path state.stack <:+ address) :
    (state.construct size).view address id = state.view address id := by
  cases address with
  | nil => rfl
  | cons parent above =>
      have apart : parent :: above ≠ path state.stack := by
        rintro same
        exact outside (same ▸ List.suffix_refl _)
      have domain : (state.construct size).nested (parent :: above) =
          (state.prune (path state.stack)).nested (parent :: above) :=
        Function.update_of_ne apart _ _
      simp only [State.view, domain, State.prune_nested outside]

theorem Reaching.construct (reaching : Reaching state) (executing : state.phase = .executing)
    (nonempty : state.stack ≠ []) (size : ℕ) : Reaching (state.construct size) := by
  have ready := reaching.ready.construct executing nonempty size
  have within {place : List Id} {other : Id}
      (member : other ∈ (state.construct size).executions place) :
      ¬ path state.stack <:+ place ∧ other ∈ state.executions place := by
    have member : other ∈ (state.prune (path state.stack)).executions place := member
    simp only [State.prune] at member
    split at member
    · exact absurd member (Finset.notMem_empty other)
    · exact ⟨‹_›, member⟩
  refine ⟨ready, ?_, ?_⟩
  · refine reaching.sourced.shrink (fun place other member => (within member).2) rfl fun _ _ => ?_
    exact Function.update_self _ _ _
  · refine reaching.reaches.of_active ready.toCoherent (fun place other member => (within member).2)
      rfl (fun source requested => ?_) fun place other member active _ => ?_
    · by_cases same : source = .proxy (path state.stack)
      · subst same
        have cleared : (state.construct size).requested (.proxy (path state.stack)) = false :=
          Function.update_self _ _ _
        rw [cleared] at requested
        contradiction
      · have unchanged : (state.construct size).requested source = state.requested source :=
          Function.update_of_ne same _ _
        rwa [unchanged] at requested
    · obtain ⟨view, viewed, runs⟩ := active
      exact ⟨view, (State.construct_view (within member).1).trans viewed, runs⟩

theorem Reaching.schedule (reaching : Reaching state) (idle : state.phase = .idle)
    (scheduled : state.schedule id = some next) : Reaching next := by
  have ready := reaching.ready.schedule idle scheduled
  have sound := reaching.ready.sound
  rw [reaching.ready.idle.mp idle] at sound
  obtain ⟨scheduler, yields, taken⟩ := Option.bind_eq_some_iff.mp scheduled
  obtain ⟨_, ⟨⟩⟩ := Option.ite_none_right_eq_some.mp taken
  obtain ⟨_, _, holds, same⟩ := sound.root.schedule yields
  have turned := holds.recordState id ExecutionState.running
  refine ⟨ready, reaching.sourced.shrink (fun _ => subset_rfl) rfl nofun,
    reaching.reaches.of_active ready.toCoherent (fun _ => subset_rfl) rfl
      (fun _ requested => requested) fun place other member active _ => ?_⟩
  obtain ⟨view, viewed, runs⟩ := active
  cases place with
  | nil =>
      obtain rfl := Option.some.inj viewed
      have seen := turned.views other
      rw [same] at seen
      refine ⟨_, congrArg some seen, ?_⟩
      split
      · rename_i here
        rw [← here]
        exact runs
      · exact runs
  | cons parent above => exact ⟨view, viewed, runs⟩

/-! ## The end of a turn -/

/-- An innermost execution that is not cancelled, with nothing cancelled in its domain, may be
suspended; one that has completed or is cancelled is gone. -/
theorem Ready.reaching {completed : Bool} (ready : Ready next) (sourced : Sourced state)
    (reaches : Reaches state) (left : Left state next completed)
    (calm : completed = false → ∀ top rest, state.stack = top :: rest →
      (∀ view, state.view (path rest) top.id = some view → view.suspendNow = false) ∨
        state.cancelRequested (path rest) top.id = false ∧
          ∀ other ∈ state.executions (path state.stack),
            state.cancelRequested (path state.stack) other = false) : Reaching next where
  ready := ready
  sourced := sourced.shrink left.fewer left.sources fun executing => by
    rw [left.phase] at executing
    contradiction
  reaches := by
    refine reaches.leave ready left fun unfinished place id member innermost cancelled => ?_
    cases whole : state.stack with
    | nil => simp [whole, path] at innermost
    | cons top rest =>
        obtain ⟨rfl, rfl⟩ : id = top.id ∧ place = path rest := by
          simpa [whole, path] using innermost
        rcases calm unfinished top rest whole with calm | ⟨uncancelled, nested⟩
        · exact calm
        · rcases cancelled with cancelled | ⟨other, attached, cancelled⟩
          · rw [uncancelled] at cancelled
            contradiction
          · rw [innermost] at attached cancelled
            rw [nested other attached] at cancelled
            contradiction

theorem Reaching.leave {finished : Bool} {execTime : UInt64} {top : Frame Id}
    {rest : List (Frame Id)} (reaching : Reaching state) (executing : state.phase = .executing)
    (whole : state.stack = top :: rest)
    (leaves : state.leave execTime (state.cancelRequested (path rest) top.id || finished) =
      some next) : Reaching next := by
  refine (reaching.ready.leave executing leaves).reaching reaching.sourced reaching.reaches
    (reaching.ready.toCoherent.left leaves) fun unfinished frame lower same => .inr ?_
  obtain ⟨rfl, rfl⟩ := List.cons.inj (whole.symm.trans same)
  have uncancelled : state.cancelRequested (path rest) top.id = false :=
    (Bool.or_eq_false_iff.mp unfinished).1
  have innermost : path state.stack = top.id :: path rest := by
    rw [whole]
    rfl
  refine ⟨uncancelled, fun other attached => ?_⟩
  rw [innermost] at attached ⊢
  obtain ⟨domain, present⟩ := reaching.ready.sound.exists_domain attached
  have quiet := reaching.sourced.quiet executing (by rw [innermost, present]; rfl)
  rw [innermost] at quiet
  by_contra cancelled
  have above := reaching.sourced.cancelled_parent attached quiet (by simpa using cancelled)
  rw [uncancelled] at above
  contradiction

theorem Reaching.visit {execTime : UInt64} (reaching : Reaching state)
    (visiting : state.phase = .visiting) (visits : state.visit execTime = some next) :
    Reaching next := by
  have ready := reaching.ready
  have after := ready.visit visiting visits
  have calm := ready.calm (by rw [visiting]; nofun)
  unfold State.visit at visits
  split at visits
  · contradiction
  · rename_i top rest whole
    rw [← whole] at visits
    have nonempty : state.stack ≠ [] := by simp [whole]
    obtain ⟨member, ⟨before, viewed, runs⟩, _⟩ :=
      ready.frames top rest (whole ▸ List.suffix_refl _)
    have innermost : path state.stack = top.id :: path rest := by
      rw [whole]
      rfl
    split at visits
    · rename_i bare
      split at visits
      · exact after.reaching reaching.sourced reaching.reaches (ready.toCoherent.left visits)
          fun same => absurd same.symm Bool.false_ne_true
      · cases visits
        refine ⟨after, reaching.sourced.shrink (fun _ => subset_rfl) rfl fun _ present => ?_,
          ⟨fun place other member cancelled => ?_, fun parent above other member cancelled => ?_⟩⟩
        · have present : (state.nested (path state.stack)).isSome := present
          rw [bare] at present
          contradiction
        · obtain ⟨view, seen, active⟩ := reaching.reaches.active place other member cancelled
          exact ⟨view, (state.view_outside state.stack .executing place other).trans seen, active⟩
        · obtain ⟨view, seen, active⟩ := reaching.reaches.parent parent above other member cancelled
          exact ⟨view, (state.view_outside state.stack .executing above parent).trans seen, active⟩
    · rename_i domain holds
      split at visits
      · rename_i vacant
        have pruned : Left (state.prune (path state.stack)) next false :=
          (ready.toCoherent.prune nonempty).left visits
        have within {place : List Id} {other : Id}
            (member : other ∈ (state.prune (path state.stack)).executions place) :
            ¬ path state.stack <:+ place ∧ other ∈ state.executions place := by
          simp only [State.prune] at member
          split at member
          · exact absurd member (Finset.notMem_empty other)
          · exact ⟨‹_›, member⟩
        have left : Left state next false :=
          { phase := pruned.phase
            fewer := fun place other member => (within (pruned.fewer place member)).2
            sources := pruned.sources
            requested := pruned.requested
            active := fun place other member active quiet => by
              have outside := (within (pruned.fewer place member)).1
              obtain ⟨view, seen, runs⟩ := active
              refine pruned.active place other member
                ⟨view, (State.prune_view outside).trans seen, runs⟩
                fun unfinished same view seen => ?_
              exact quiet unfinished same view ((State.prune_view outside).symm.trans seen)
            gone := fun same => absurd same Bool.false_ne_true }
        refine after.reaching reaching.sourced reaching.reaches left
          fun _ frame lower same => .inl ?_
        obtain ⟨rfl, rfl⟩ := List.cons.inj (whole.symm.trans same)
        exact fun view seen => calm _ _ view member seen
      · rename_i occupied
        split at visits
        · obtain ⟨⟨scheduled, slot, later⟩, yields, taken⟩ := Option.bind_eq_some_iff.mp visits
          obtain ⟨_, ⟨⟩⟩ := Option.ite_none_right_eq_some.mp taken
          obtain ⟨view, _, active, _, _, _, turned⟩ := ready.sound.schedule holds yields
          refine ⟨after, reaching.sourced.shrink (fun _ => subset_rfl) rfl fun executing => ?_,
            reaching.reaches.of_active after.toCoherent (fun _ => subset_rfl) rfl
              (fun _ requested => requested) fun place other member runs _ => ?_⟩
          · rw [visiting] at executing
            contradiction
          · obtain ⟨view, seen, stays⟩ :=
              turned.active (fun _ => active) place other member runs
            exact ⟨view, (State.view_outside _ _ _ _ _).trans seen, stays⟩
        · rename_i inactive
          obtain ⟨middle, suspends, leaves⟩ := Option.bind_eq_some_iff.mp visits
          obtain ⟨coherent, later, turned, stays⟩ := ready.toCoherent.suspend whole suspends
          have kept := turned.kept
          -- A cancelled execution in the domain would be active.
          have uncancelled : ∀ other ∈ state.executions (path state.stack),
              state.cancelRequested (path state.stack) other = false := by
            intro other attached
            by_contra cancelled
            obtain ⟨view, seen, active⟩ :=
              reaching.reaches.active _ other attached (by simpa using cancelled)
            exact inactive ((ready.sound.filled _ _ holds).hasActive_of_active attached
              (ready.sound.view_nested holds seen) active)
          have parent : state.cancelRequested (path rest) top.id = false := by
            by_contra cancelled
            obtain ⟨other, attached⟩ := Finset.nonempty_iff_ne_empty.mpr occupied
            have nested := uncancelled other attached
            rw [innermost] at attached nested
            rw [reaching.sourced.inherits attached (by simpa using cancelled)] at nested
            contradiction
          have sourced : Sourced middle := by
            refine reaching.sourced.shrink (fun place => kept.executions ▸ subset_rfl)
              kept.cancelSrcStack fun executing => ?_
            rw [kept.phase, visiting] at executing
            contradiction
          have reaches : Reaches middle :=
            reaching.reaches.of_active coherent (fun place => kept.executions ▸ subset_rfl)
              kept.cancelSrcStack (fun source requested => kept.requested ▸ requested)
              fun place id member runs _ =>
                turned.active (fun _ => stays) place id (kept.executions ▸ member) runs
          have same (place : List Id) (other : Id) :
              middle.cancelRequested place other = state.cancelRequested place other := by
            rw [State.cancelRequested, State.cancelRequested, kept.cancelSrcStack, kept.requested]
          refine after.reaching sourced reaches (coherent.left leaves) fun _ frame lower equal =>
            .inr ⟨?_, fun other attached => ?_⟩
          · rw [kept.stack] at equal
            obtain ⟨rfl, rfl⟩ := List.cons.inj (whole.symm.trans equal)
            exact (same _ _).trans parent
          · rw [kept.stack] at attached ⊢
            rw [kept.executions] at attached
            exact (same _ _).trans (uncancelled other attached)

/-! ## Attaching -/

/-- The source of a task that is not attached is on no cancel-source stack. -/
theorem Reaching.request_absent (reaching : Reaching state) (absent : id ∉ state.executions [])
    (value : Bool) :
    Reaching { state with
      requested := Function.update state.requested (.task id) value } := by
  have requests {place : List Id} {other : Id} (member : other ∈ state.executions place)
      (cancelled : State.cancelRequested
        { state with requested := Function.update state.requested (.task id) value } place other =
          true) : state.cancelRequested place other = true := by
    obtain ⟨source, listed, requested⟩ := cancelRequested_iff.mp cancelled
    refine cancelRequested_iff.mpr ⟨source, listed, ?_⟩
    have different : source ≠ .task id := by
      rintro rfl
      exact absent (reaching.sourced.task_attached reaching.ready.toCoherent member listed)
    simpa [different] using requested
  refine ⟨reaching.ready.request _, reaching.sourced.shrink (fun _ => subset_rfl) rfl
    fun executing present => ?_, ⟨fun place other member cancelled => ?_,
      fun parent above other member cancelled => ?_⟩⟩
  · have quiet := reaching.sourced.quiet executing present
    simpa using quiet
  · obtain ⟨view, seen, runs⟩ :=
      reaching.reaches.active place other member (requests member cancelled)
    exact ⟨view, by cases place <;> exact seen, runs⟩
  · obtain ⟨view, seen, runs⟩ :=
      reaching.reaches.parent parent above other member (requests member cancelled)
    exact ⟨view, by cases above <;> exact seen, runs⟩

theorem Reaching.grown {sources : List (CancelSource Id)} (reaching : Reaching state)
    (ready : Ready next) (grown : Grown state next address id sources)
    (root : address = [] → sources = [.task id])
    (nested : ∀ parent above, address = parent :: above →
      sources = state.cancelSrcStack above parent ++ [.proxy address] ∧
        state.Active above parent) : Reaching next := by
  have coherent := reaching.ready.toCoherent
  have requested : next.requested = state.requested := by rw [grown.rest]
  have listedAt (place : List Id) (other : Id) (before : other ∈ state.executions place) :
      next.cancelSrcStack place other = state.cancelSrcStack place other := by
    have apart : ¬ (place = address ∧ other = id) := by
      rintro ⟨rfl, rfl⟩
      exact grown.fresh before
    rw [grown.rest]
    by_cases here : place = address
    · subst here
      have different : other ≠ id := fun same => apart ⟨rfl, same⟩
      simp [different]
    · simp [here]
  have added : next.cancelSrcStack address id = sources := by
    rw [grown.rest]
    simp
  have unchanged {place : List Id} {other : Id} (before : other ∈ state.executions place)
      (cancelled : next.cancelRequested place other = true) :
      state.cancelRequested place other = true := by
    rwa [State.cancelRequested, listedAt place other before, requested] at cancelled
  have active {place : List Id} {other : Id} (before : other ∈ state.executions place)
      (runs : state.Active place other) : next.Active place other := by
    obtain ⟨view, seen, runs⟩ := runs
    exact ⟨view, (grown.views place other before).trans seen, runs⟩
  have parents {parent : Id} {above : List Id} {other : Id}
      (before : other ∈ state.executions (parent :: above)) : parent ∈ state.executions above := by
    obtain ⟨domain, present⟩ := coherent.sound.exists_domain before
    exact coherent.parent parent above (by rw [present]; rfl)
  -- The domain of the new execution was there before it.
  have upper {parent : Id} {above : List Id} (same : address = parent :: above) :
      parent ∈ state.executions above := by
    have present : (next.nested (parent :: above)).isSome := by
      have member : id ∈ next.executions (parent :: above) :=
        same ▸ grown.mem_executions.mpr (.inl ⟨rfl, rfl⟩)
      obtain ⟨domain, holds⟩ := ready.sound.exists_domain member
      rw [holds]
      rfl
    rw [grown.isSome] at present
    exact coherent.parent parent above present
  refine ⟨ready, ⟨fun other member => ?_, fun parent above other member => ?_, ?_⟩,
    ⟨fun place other member cancelled => ?_, fun parent above other member cancelled => ?_⟩⟩
  · rcases grown.mem_executions.mp member with ⟨rfl, rfl⟩ | before
    · rw [added]
      exact root rfl
    · rw [listedAt [] other before]
      exact reaching.sourced.root other before
  · rcases grown.mem_executions.mp member with ⟨rfl, rfl⟩ | before
    · rw [added, listedAt above parent (upper rfl)]
      exact (nested parent above rfl).1
    · rw [listedAt _ other before, listedAt above parent (parents before)]
      exact reaching.sourced.nested parent above other before
  · rw [grown.phase, grown.stack, grown.isSome, requested]
    exact reaching.sourced.quiet
  · rcases grown.mem_executions.mp member with ⟨rfl, rfl⟩ | before
    · exact ⟨_, grown.new, rfl⟩
    · exact active before (reaching.reaches.active place other before (unchanged before cancelled))
  · rcases grown.mem_executions.mp member with ⟨rfl, rfl⟩ | before
    · exact active (upper rfl) (nested parent above rfl).2
    · exact active (parents before)
        (reaching.reaches.parent parent above other before (unchanged before cancelled))

/-! ## Requests -/

/-- A request that leaves active what it cancels. -/
theorem Reaching.requests {source : CancelSource Id} (reaching : Reaching state)
    (ready : Ready next)
    (kept : Kept { state with requested := Function.update state.requested source true } next)
    (active : ∀ place other, other ∈ state.executions place → state.Active place other →
      next.Active place other)
    (reached : ∀ place other, other ∈ state.executions place →
      source ∈ state.cancelSrcStack place other → next.Active place other)
    (parents : ∀ parent above other, other ∈ state.executions (parent :: above) →
      source ∈ state.cancelSrcStack (parent :: above) other → next.Active above parent)
    (quiet : state.phase = .executing → source ≠ .proxy (path state.stack)) : Reaching next := by
  have executions : next.executions = state.executions := kept.executions
  have sources : next.cancelSrcStack = state.cancelSrcStack := kept.cancelSrcStack
  have requested : next.requested = Function.update state.requested source true := kept.requested
  have either {place : List Id} {other : Id} (cancelled : next.cancelRequested place other = true) :
      source ∈ state.cancelSrcStack place other ∨ state.cancelRequested place other = true := by
    obtain ⟨found, listed, requests⟩ := cancelRequested_iff.mp cancelled
    rw [sources] at listed
    rw [requested] at requests
    by_cases same : found = source
    · exact .inl (same ▸ listed)
    · rw [Function.update_of_ne same] at requests
      exact .inr (cancelRequested_iff.mpr ⟨found, listed, requests⟩)
  refine ⟨ready, reaching.sourced.shrink (fun place => executions ▸ subset_rfl) sources
    fun executing present => ?_, ⟨fun place other member cancelled => ?_,
      fun parent above other member cancelled => ?_⟩⟩
  · rw [kept.phase] at executing
    rw [kept.isSome, kept.stack] at present
    rw [kept.stack, requested, Function.update_of_ne (quiet executing).symm]
    exact reaching.sourced.quiet executing present
  · rw [executions] at member
    rcases either cancelled with listed | before
    · exact reached place other member listed
    · exact active place other member (reaching.reaches.active place other member before)
  · rw [executions] at member
    rcases either cancelled with listed | before
    · exact parents parent above other member listed
    · obtain ⟨domain, present⟩ := reaching.ready.sound.exists_domain member
      have attached := reaching.ready.parent parent above (by rw [present]; rfl)
      exact active above parent attached
        (reaching.reaches.parent parent above other member before)

theorem Ready.active_of_not_held (ready : Ready state) (member : id ∈ state.executions address)
    (free : ¬ state.Held address id) : state.Active address id := by
  obtain ⟨view, viewed⟩ := ready.sound.exists_view member
  cases runs : view.active with
  | true => exact ⟨view, viewed, runs⟩
  | false => exact absurd ⟨view, viewed, runs⟩ free

/-- `execution_domain_proxy::cancel`. -/
theorem Reaching.cancel (reaching : Reaching state) (executing : state.phase = .executing)
    (nonempty : state.stack ≠ []) (allowed : CancelsRunnable state (.cancel address))
    (cancelled : state.cancel address = some next) : Reaching next := by
  have ready := reaching.ready
  obtain ⟨⟨domainOf, rooted⟩, runnable⟩ := allowed
  have free : ∀ place other, other ∈ state.executions place →
      .proxy address ∈ state.cancelSrcStack place other → ¬ state.Held place other := by
    intro place other member listed held
    exact nomatch (runnable _ rfl place other member listed held).2
  have active : ∀ other ∈ state.executions address, ¬ state.Held address other := by
    intro other member
    refine free address other member ?_
    obtain ⟨parent, above, same⟩ := List.exists_cons_of_ne_nil rooted
    rw [same] at member ⊢
    rw [reaching.sourced.nested parent above other member]
    exact List.mem_append_right _ (List.mem_singleton_self _)
  obtain ⟨_, kept, views⟩ := ready.sound.cancel cancelled
  have stays : ∀ place other, other ∈ state.executions place → state.Active place other →
      next.Active place other := by
    rintro place other member ⟨view, viewed, runs⟩
    refine ⟨_, views place other view member viewed, ?_⟩
    split
    · exact runs
    · exact runs
  obtain ⟨top, rest, whole⟩ := List.exists_cons_of_ne_nil nonempty
  have inner : path state.stack = top.id :: address := by
    rw [domainOf, whole]
    rfl
  refine reaching.requests (ready.cancel executing active cancelled) kept stays
    (fun place other member listed => ?_) (fun parent above other member listed => ?_)
    fun _ same => ?_
  · exact stays place other member
      (ready.active_of_not_held member (free place other member listed))
  · obtain ⟨domain, present⟩ := ready.sound.exists_domain member
    have attached := ready.parent parent above (by rw [present]; rfl)
    rw [reaching.sourced.nested parent above other member, List.mem_append,
      List.mem_singleton, CancelSource.proxy.injEq] at listed
    rcases listed with listed | same
    · exact stays above parent attached
        (ready.active_of_not_held attached (free above parent attached listed))
    · -- The parent execution of the domain is on the stack.
      have within : parent :: above <:+ path state.stack := by
        rw [inner, same]
        exact List.suffix_cons _ _
      obtain ⟨frame, lower, onStack, rfl, rfl⟩ := exists_frame within
      exact stays _ _ attached (ready.frames frame lower onStack).2.1
  · have lengths := congrArg List.length (CancelSource.proxy.inj same)
    rw [inner, List.length_cons] at lengths
    omega

/-- `join_handle::cancel`. -/
theorem Reaching.cancelTask (reaching : Reaching state)
    (allowed : CancelsRunnable state (.cancelTask id))
    (awoken : { state with
      requested := Function.update state.requested (.task id) true }.awakeExecution id [] =
        some next) : Reaching next := by
  have ready := reaching.ready
  have requested := ready.request (Function.update state.requested (.task id) true)
  have wakes := requested.wakes awoken
  obtain ⟨_, kept, active⟩ := requested.sound.awakes awoken
  have stays : ∀ place other, other ∈ state.executions place → state.Active place other →
      next.Active place other := by
    rintro place other member ⟨view, viewed, runs⟩
    exact active place other member ⟨view, by cases place <;> exact viewed, runs⟩
  have reached : ∀ place other, other ∈ state.executions place →
      .task id ∈ state.cancelSrcStack place other → next.Active place other := by
    intro place other member listed
    by_cases held : state.Held place other
    · obtain ⟨rfl, same⟩ := allowed.2 _ rfl place other member listed held
      obtain rfl := CancelSource.task.inj same
      exact wakes.wakes id [] (List.suffix_refl _) member
    · exact stays place other member (ready.active_of_not_held member held)
  refine reaching.requests (requested.awake awoken) kept stays reached
    (fun parent above other member listed => ?_) fun _ => nofun
  obtain ⟨domain, present⟩ := ready.sound.exists_domain member
  have attached := ready.parent parent above (by rw [present]; rfl)
  rw [reaching.sourced.nested parent above other member, List.mem_append,
    List.mem_singleton] at listed
  exact reached above parent attached (listed.resolve_right nofun)

/-! ## Runs -/

theorem Reaching.step {maxDepth : ℕ} {label : Label Id} (reaching : Reaching state)
    (allowed : CancelsRunnable state label) (moved : state.move maxDepth label = some next) :
    Reaching next := by
  have ready := reaching.ready
  cases label with
  | fetch id requested =>
      obtain ⟨idle, fetched⟩ := Option.ite_none_right_eq_some.mp moved
      have asked := ready.request (Function.update state.requested (.task id) requested)
      obtain ⟨sound, grown⟩ := asked.sound.attachExecution
        (fun domain holds => nomatch ready.sound.rootless.symm.trans holds) fetched
      exact (reaching.request_absent grown.fresh requested).grown (asked.grown sound grown) grown
        (fun _ => rfl) nofun
  | schedule id =>
      obtain ⟨idle, scheduled⟩ := Option.ite_none_right_eq_some.mp moved
      exact reaching.schedule idle scheduled
  | visit execTime =>
      obtain ⟨visiting, visits⟩ := Option.ite_none_right_eq_some.mp moved
      exact reaching.visit visiting visits
  | cancelTask id =>
      obtain ⟨_, awoken⟩ := Option.ite_none_left_eq_some.mp moved
      exact reaching.cancelTask allowed awoken
  | awake address id =>
      obtain ⟨_, awoken⟩ := Option.ite_none_left_eq_some.mp moved
      exact reaching.awake awoken
  | suspend =>
      simp only [State.move] at moved
      split at moved
      · rename_i top rest executing whole
        exact reaching.suspend executing whole moved
      · contradiction
  | construct size =>
      simp only [State.move] at moved
      split at moved
      · rename_i top rest executing whole
        cases moved
        exact reaching.construct executing (by rw [whole]; exact List.cons_ne_nil _ _) size
      · contradiction
  | attach address id =>
      simp only [State.move] at moved
      split at moved
      · rename_i top rest executing whole
        obtain ⟨⟨innermost, unlisted⟩, _⟩ := allowed
        obtain ⟨sound, grown⟩ := ready.sound.attachExecution unlisted moved
        rw [whole] at innermost
        refine reaching.grown (ready.grown sound grown) grown
          (fun empty => by rw [innermost] at empty; contradiction) fun parent above same => ?_
        obtain ⟨rfl, rfl⟩ := List.cons.inj (innermost.symm.trans same)
        exact ⟨rfl, (ready.frames top rest (whole ▸ List.suffix_refl _)).2.1⟩
      · contradiction
  | cancel address =>
      simp only [State.move] at moved
      split at moved
      · rename_i top rest executing whole
        exact reaching.cancel executing (by rw [whole]; exact List.cons_ne_nil _ _) allowed moved
      · contradiction
  | leave finished execTime =>
      simp only [State.move] at moved
      split at moved
      · rename_i top rest executing whole
        exact reaching.leave executing whole moved
      · contradiction

theorem empty_reaching (current : DynprioScheduler.PrioritiedExecution Id)
    (states : Id → ExecutionState) : Reaching (State.empty current states) where
  ready := empty_ready current states
  sourced :=
    ⟨fun id member => absurd member (Finset.notMem_empty id),
      fun _ _ id member => absurd member (Finset.notMem_empty id), nofun⟩
  reaches :=
    ⟨fun _ id member => absurd member (Finset.notMem_empty id),
      fun _ _ id member => absurd member (Finset.notMem_empty id)⟩

theorem reaching_of_reachable {maxDepth : ℕ}
    (reachable : (machine Id maxDepth).Reachable CancelsRunnable state) : Reaching state := by
  refine reachable.invariant ?_ fun _ _ _ reaching allowed moved => reaching.step allowed moved
  rintro _ ⟨current, states, rfl⟩
  exact empty_reaching current states

/-! ## A cancelled execution is torn down -/

theorem State.exists_endContexts {execTime : UInt64} {frames : List (Frame Id)} {completed : Bool}
    (present : ∀ frame rest, frame :: rest <:+ frames →
      path rest = [] ∨ (state.nested (path rest)).isSome) :
    ∃ next, state.endContexts execTime frames completed = some next := by
  induction frames generalizing state completed with
  | nil => exact ⟨state, rfl⟩
  | cons frame rest ih =>
      have ended : ∃ middle, state.endContext (path rest) frame completed execTime = some middle ∧
          ∀ place, (middle.nested place).isSome = (state.nested place).isSome := by
        rcases present frame rest (List.suffix_refl _) with outermost | holds
        · rw [outermost]
          exact ⟨_, rfl, fun _ => rfl⟩
        · cases upper : path rest with
          | nil => exact ⟨_, rfl, fun _ => rfl⟩
          | cons parent above =>
              rw [upper] at holds
              obtain ⟨domain, here⟩ := Option.isSome_iff_exists.mp holds
              refine ⟨_, by simp [State.endContext, State.call, here]; rfl, fun place => ?_⟩
              by_cases same : place = parent :: above
              · simp [same, here]
              · simp [same]
      obtain ⟨middle, ends, same⟩ := ended
      obtain ⟨next, others⟩ := ih (fun other lower within => by
        rw [same]
        exact present other lower (within.trans (List.suffix_cons _ _)))
      exact ⟨next, by rw [State.endContexts, ends, Option.bind_some, others]⟩

theorem Coherent.exists_leave {execTime : UInt64} {top : Frame Id} {rest : List (Frame Id)}
    (coherent : Coherent state) (whole : state.stack = top :: rest) :
    ∃ next, state.leave execTime true = some next := by
  have present : ∀ frame lower, frame :: lower <:+ state.stack →
      path lower = [] ∨ (state.nested (path lower)).isSome := by
    intro frame lower within
    have member := (coherent.frames frame lower within).1
    cases above : path lower with
    | nil => exact .inl rfl
    | cons parent upper =>
        rw [above] at member
        obtain ⟨domain, holds⟩ := coherent.sound.exists_domain member
        exact .inr (by rw [holds]; rfl)
  have ended : ∃ next, state.endContexts execTime state.stack true = some next :=
    State.exists_endContexts present
  obtain ⟨ended, ends⟩ := ended
  obtain ⟨sound, kept, views⟩ := coherent.sound.endContexts coherent.frames ends
  have member := (coherent.frames top rest (whole ▸ List.suffix_refl _)).1
  have attached : top.id ∈ ended.executions (path rest) := kept.executions ▸ member
  obtain ⟨view, viewed⟩ := coherent.sound.exists_view member
  obtain ⟨after, shown, innermost, _⟩ := views _ _ view member viewed
  have inactive : after.active = false := by
    rcases innermost (by rw [whole]; rfl) with ⟨_, unfinished⟩ | ⟨rfl, _⟩
    · contradiction
    · rfl
  have detaches : ∃ next, State.detachExecution { ended with stack := [], phase := .idle }
      (path rest) top.id = some next := by
    cases upper : path rest with
    | nil => exact ⟨_, rfl⟩
    | cons parent above =>
        rw [upper] at attached shown
        obtain ⟨domain, holds⟩ := sound.exists_domain attached
        have held : domain.held top.id = true := by
          rw [ExecutionDomain.held, sound.view_nested holds shown, Option.any_some, inactive]
          rfl
        obtain ⟨changed, made⟩ := (sound.filled _ _ holds).exists_detach attached held
        exact ⟨_, by simp [State.detachExecution, State.call, holds, made]; rfl⟩
  obtain ⟨next, detached⟩ := detaches
  refine ⟨next, ?_⟩
  rw [State.leave, whole]
  rw [whole] at ends
  simp only [ends, Option.bind_some, if_true]
  exact detached

theorem Reaching.runnable (reaching : Reaching state) (member : id ∈ state.executions address)
    (active : state.Active address id) : state.Runnable address id ∧ ¬ state.Held address id := by
  obtain ⟨view, viewed, runs⟩ := active
  refine ⟨?_, ?_⟩
  · cases address with
    | nil =>
        obtain rfl := Option.some.inj viewed
        have awake : id ∉ state.scheduler.suspended := by
          simpa [DynprioScheduler.Scheduler.view] using runs
        by_cases running : state.stack.getLast?.map Frame.id = some id
        · exact .inr running
        · exact .inl ((reaching.ready.sound.root.queued id).mpr ⟨member, awake, running⟩)
    | cons parent above =>
        obtain ⟨domain, holds⟩ := reaching.ready.sound.exists_domain member
        have filled := reaching.ready.sound.filled _ _ holds
        obtain ⟨index, found, named, slot⟩ := filled.exists_slot member
        have seen := reaching.ready.sound.view_nested holds viewed
        rw [ExecutionDomain.view, slot, Option.map_some, Option.some.injEq] at seen
        subst seen
        exact ⟨domain, holds, _, slot, runs, filled.undetached index id named⟩
  · rintro ⟨other, seen, inactive⟩
    obtain rfl := Option.some.inj (viewed.symm.trans seen)
    rw [runs] at inactive
    contradiction

/-- Cancellation reaches the executions: one that is cancelled is runnable, the execution above
it is not suspended, and a visit that gets to it detaches it. -/
structure Reached (state : State Id) : Prop where
  runnable : ∀ place, ∀ id ∈ state.executions place, state.cancelRequested place id = true →
    state.Runnable place id ∧ ¬ state.Held place id
  parent : ∀ parent above, ∀ id ∈ state.executions (parent :: above),
    state.cancelRequested (parent :: above) id = true →
      state.Runnable above parent ∧ ¬ state.Held above parent
  tornDown : state.phase = .visiting → ∀ top rest, state.stack = top :: rest →
    state.nested (path state.stack) = none → state.cancelRequested (path rest) top.id = true →
    ∀ execTime, ∃ next, state.visit execTime = some next ∧
      top.id ∉ next.executions (path rest)

theorem reached_of_cancelsRunnable {maxDepth : ℕ}
    (reachable : (machine Id maxDepth).Reachable CancelsRunnable state) : Reached state := by
  have reaching := reaching_of_reachable reachable
  have coherent := reaching.ready.toCoherent
  refine ⟨fun place id member cancelled => ?_, fun parent above id member cancelled => ?_,
    fun visiting top rest whole bare cancelled execTime => ?_⟩
  · exact reaching.runnable member (reaching.reaches.active place id member cancelled)
  · obtain ⟨domain, present⟩ := coherent.sound.exists_domain member
    have attached := coherent.parent parent above (by rw [present]; rfl)
    exact reaching.runnable attached (reaching.reaches.parent parent above id member cancelled)
  · obtain ⟨next, leaves⟩ := coherent.exists_leave whole
    rw [whole] at bare
    refine ⟨next, ?_, (coherent.left leaves).gone rfl top rest whole⟩
    simp only [State.visit, whole, bare, cancelled, if_true]
    exact leaves

/-! ## Requests that come too late -/

/-- A request leaves suspended what it finds suspended, but for the task's own execution. -/
theorem unreached_of_suspended {maxDepth : ℕ} {label : Label Id}
    (reachable : (machine Id maxDepth).Reachable CancelsRunnable state)
    (tasks : ByTasks state label) (strays : ¬ CancelsRunnable state label)
    (moved : state.move maxDepth label = some next) : ¬ Reached next := by
  have reaching := reaching_of_reachable reachable
  simp only [CancelsRunnable, not_and, not_forall] at strays
  obtain ⟨source, cancels, place, other, member, listed, held, elsewhere⟩ := strays tasks
  obtain ⟨view, viewed, inactive⟩ := held
  intro reached
  suffices stays : other ∈ next.executions place ∧ next.cancelRequested place other = true ∧
      next.Held place other by
    exact (reached.runnable place other stays.1 stays.2.1).2 stays.2.2
  cases label with
  | cancel address =>
      obtain rfl : .proxy address = source := Option.some.inj cancels
      simp only [State.move] at moved
      split at moved
      · obtain ⟨_, kept, views⟩ := reaching.ready.sound.cancel moved
        refine ⟨kept.executions ▸ member, ?_, _, views place other view member viewed, ?_⟩
        · refine cancelRequested_iff.mpr ⟨_, kept.cancelSrcStack ▸ listed, ?_⟩
          rw [kept.requested]
          exact Function.update_self _ _ _
        · split
          · exact inactive
          · exact inactive
      · contradiction
  | cancelTask task =>
      obtain rfl : .task task = source := Option.some.inj cancels
      obtain ⟨_, awoken⟩ := Option.ite_none_left_eq_some.mp moved
      have requested := reaching.ready.request (Function.update state.requested (.task task) true)
      obtain ⟨_, kept, _⟩ := requested.sound.awakes awoken
      have nested : next.nested = state.nested := by
        obtain ⟨scheduler, _, rfl⟩ := Option.map_eq_some_iff.mp awoken
        rfl
      refine ⟨kept.executions ▸ member, ?_, view, ?_, inactive⟩
      · refine cancelRequested_iff.mpr ⟨_, kept.cancelSrcStack ▸ listed, ?_⟩
        rw [kept.requested]
        exact Function.update_self _ _ _
      · cases place with
        | nil =>
            rw [reaching.sourced.root other member, List.mem_singleton] at listed
            exact absurd listed (elsewhere rfl)
        | cons parent above =>
            have same : next.view (parent :: above) other = state.view (parent :: above) other := by
              simp only [State.view, nested]
            rw [same]
            exact viewed
  | _ => contradiction

/-! ## Runs of a task with two nested executions -/

/-- A step that requests nothing. -/
def Unrequested (state : State Id) (label : Label Id) : Prop :=
  ByTasks state label ∧ label.cancels = none

instance : DecidableRel (@Unrequested Id _) := fun _ _ => inferInstanceAs (Decidable (_ ∧ _))

theorem Unrequested.cancelsRunnable {label : Label Id} (unrequested : Unrequested state label) :
    CancelsRunnable state label :=
  ⟨unrequested.1, fun source cancels => by simp [unrequested.2] at cancels⟩

/-- Executions are attached only where the ids above them are. -/
theorem Coherent.place_of_pair {state : State ℕ} (coherent : Coherent state)
    (root : state.executions [] = {0}) (pair : state.executions [0] = {1, 2})
    (bare : state.executions [1, 0] = ∅ ∧ state.executions [2, 0] = ∅) {place : List ℕ} {id : ℕ}
    (member : id ∈ state.executions place) : place = [] ∨ place = [0] := by
  induction place generalizing id with
  | nil => exact .inl rfl
  | cons parent above ih =>
      obtain ⟨domain, present⟩ := coherent.sound.exists_domain member
      have attached := coherent.parent parent above (by rw [present]; rfl)
      rcases ih attached with rfl | rfl
      · rw [root, Finset.mem_singleton] at attached
        exact .inr (by rw [attached])
      · rw [pair, Finset.mem_insert, Finset.mem_singleton] at attached
        rcases attached with rfl | rfl
        · simp [bare.1] at member
        · simp [bare.2] at member

/-- Execution 1 cancels the domain while execution 2 waits for its turn. -/
theorem reached_of_cancelsRunnable_waiting : ∃ state : State ℕ,
    (machine ℕ 8).Reachable CancelsRunnable state ∧ Reached state ∧
    2 ∈ state.executions [0] ∧ state.cancelRequested [0] 2 = true ∧ state.Runnable [0] 2 := by
  have executed : ((machine ℕ 8).exec Unrequested started
      (constructed ++ [.schedule 0, .visit 0, .visit 0])).any (fun state =>
        decide (state.executions [] = {0} ∧ state.executions [0] = {1, 2} ∧
          (state.executions [1, 0] = ∅ ∧ state.executions [2, 0] = ∅) ∧
            ByTasks state (.cancel [0]) ∧ ¬ state.Held [0] 1 ∧ ¬ state.Held [0] 2) &&
          (state.move 8 (.cancel [0])).any fun next =>
            decide (2 ∈ next.executions [0] ∧ next.cancelRequested [0] 2 = true)) = true := by
    decide +kernel
  obtain ⟨state, executed, facts⟩ := (Option.any_eq_true _ _).mp executed
  obtain ⟨facts, moves⟩ := (Bool.and_eq_true _ _).mp facts
  obtain ⟨next, moved, cancelled⟩ := (Option.any_eq_true _ _).mp moves
  obtain ⟨root, pair, bare, tasks, first, second⟩ := of_decide_eq_true facts
  obtain ⟨member, cancelled⟩ := of_decide_eq_true cancelled
  have before : (machine ℕ 8).Reachable CancelsRunnable state :=
    Machine.Reachable.mono (fun _ _ => Unrequested.cancelsRunnable)
      ⟨started, ⟨_, _, rfl⟩, Machine.exec_run executed⟩
  have reaching := reaching_of_reachable before
  have runnable : CancelsRunnable state (.cancel [0]) := by
    refine ⟨tasks, fun source cancels place id attached listed held => ?_⟩
    obtain rfl : .proxy [0] = source := Option.some.inj cancels
    rcases reaching.ready.toCoherent.place_of_pair root pair bare attached with rfl | rfl
    · simp [reaching.sourced.root id attached] at listed
    · rw [pair, Finset.mem_insert, Finset.mem_singleton] at attached
      rcases attached with rfl | rfl
      · exact absurd held first
      · exact absurd held second
  have after := before.step runnable moved
  have reached := reached_of_cancelsRunnable after
  exact ⟨next, after, reached, member, cancelled, (reached.runnable [0] 2 member cancelled).1⟩

/-- Execution 2 cancels the domain while execution 1 is suspended: neither is execution 1 woken
nor torn down, and the next `run_once` suspends execution 0. -/
theorem suspended_branch_unreached : ∃ state : State ℕ,
    (machine ℕ 8).Reachable ByTasks state ∧ ¬ Reached state ∧ state.phase = .idle ∧
      1 ∈ state.executions [0] ∧ state.cancelRequested [0] 1 = true ∧ state.Held [0] 1 ∧
      state.Held [] 0 := by
  have executed : ((machine ℕ 8).exec ByTasks started
      (constructed ++ suspension ++ cancellation ++ [.schedule 0, .visit 0])).map (fun state =>
        decide (state.phase = .idle ∧ 1 ∈ state.executions [0] ∧
          state.cancelRequested [0] 1 = true ∧ state.Held [0] 1 ∧ state.Held [] 0)) =
            some true := by decide +kernel
  obtain ⟨state, executed, facts⟩ := Option.map_eq_some_iff.mp executed
  obtain ⟨idle, member, cancelled, held, parent⟩ := of_decide_eq_true facts
  refine ⟨state, ⟨started, ⟨_, _, rfl⟩, Machine.exec_run executed⟩, fun reached => ?_, idle, member,
    cancelled, held, parent⟩
  exact (reached.runnable [0] 1 member cancelled).2 held

end Asco.Core.Worker.Tree
