import Asco.Core.Worker.Tree.Coherence

namespace Asco.Core.Worker.Tree

open Foundation Asco.Core.Task
open DynprioScheduler (ExecutionState)

/-! # One lemma for each step of the worker

The contexts end, domains are constructed and destroyed, and executions are attached and
detached.
-/

variable {Id : Type*} [DecidableEq Id] {state next : State Id} {address above : List Id}
  {id parent : Id}

omit [DecidableEq Id] in
theorem exists_frame {frames : List (Frame Id)} (within : id :: address <:+ path frames) :
    ∃ frame rest, frame :: rest <:+ frames ∧ frame.id = id ∧ path rest = address := by
  obtain ⟨lower, inner, same⟩ := List.suffix_map_iff.mp within
  cases lower with
  | nil => contradiction
  | cons frame rest =>
      obtain ⟨rfl, rfl⟩ := List.cons.inj same
      exact ⟨frame, rest, inner, rfl, rfl⟩

theorem Coherent.not_asking (coherent : Coherent state) {view : View}
    (member : id ∈ state.executions address) (viewed : state.view address id = some view)
    (elsewhere : path state.stack ≠ id :: address) : view.suspendNow = false := by
  cases asks : view.suspendNow with
  | true => exact absurd ((coherent.agrees address id view member viewed).asks asks) elsewhere
  | false => rfl

/-! ## The contexts end -/

/-- A domain whose parent execution is left suspended or has completed has no active
execution with a domain. -/
theorem Coherent.exit {execTime : UInt64} {completed : Bool} (coherent : Coherent state)
    (settled : ∀ top rest view, state.stack = top :: rest →
      state.view (path rest) top.id = some view →
      completed = true ∨ view.suspendNow = true → ∀ id ∈ state.executions (path state.stack),
      state.Active (path state.stack) id → state.nested (id :: path state.stack) = none)
    (ended : state.endContexts execTime state.stack completed = some next) :
    Coherent { next with stack := [], phase := .idle } := by
  obtain ⟨sound, kept, views⟩ := coherent.sound.endContexts coherent.frames ended
  have framed {other : Id} {place : List Id} (within : other :: place <:+ path state.stack) :
      state.Active place other := by
    obtain ⟨frame, rest, inner, rfl, rfl⟩ := exists_frame within
    exact (coherent.frames frame rest inner).2.1
  constructor
  · exact { sound with }
  · intro parent above present
    rw [kept.isSome] at present
    exact kept.executions ▸ coherent.parent parent above present
  · intro frame rest within
    exact absurd (List.suffix_nil.mp within) (List.cons_ne_nil _ _)
  · intro place other after member shown
    have known : other ∈ state.executions place := kept.executions ▸ member
    obtain ⟨view, viewed⟩ := coherent.sound.exists_view known
    obtain ⟨later, seen, top, below, same⟩ := views place other view known viewed
    obtain rfl := Option.some.inj (shown.symm.trans seen)
    by_cases within : other :: place <:+ path state.stack
    · by_cases innermost : other :: place = path state.stack
      · exact (top innermost).agrees _
      · exact (below innermost within).agrees _
    · rw [same within]
      have agreed := coherent.agrees place other view known viewed
      have calm := coherent.not_asking known viewed fun innermost =>
        within (innermost ▸ List.suffix_refl _)
      exact ⟨agreed.held, agreed.recorded, fun asks => by rw [calm] at asks; contradiction⟩
  · intro other parent above member present running
    have known : other ∈ state.executions (parent :: above) := kept.executions ▸ member
    rw [kept.isSome] at present
    have before : state.Active (parent :: above) other := by
      by_cases within : other :: parent :: above <:+ path state.stack
      · exact framed within
      · obtain ⟨view, viewed⟩ := coherent.sound.exists_view known
        obtain ⟨after, shown, running⟩ := running
        obtain ⟨later, seen, _, _, same⟩ := views _ other view known viewed
        obtain rfl := Option.some.inj (shown.symm.trans seen)
        exact ⟨view, viewed, same within ▸ running⟩
    obtain ⟨upper, seen, runs⟩ := coherent.rises other parent above known present before
    obtain ⟨domain, holds⟩ := coherent.sound.exists_domain known
    have attached := coherent.parent parent above (by rw [holds]; rfl)
    obtain ⟨after, shown, top, below, same⟩ := views above parent upper attached seen
    by_cases within : parent :: above <:+ path state.stack
    · have stays : after = { active := true, suspendNow := false, state := .active } := by
        by_cases innermost : parent :: above = path state.stack
        · rcases top innermost with ⟨stays, _⟩ | ⟨_, leaves⟩
          · exact stays
          · obtain ⟨frame, rest, inner, rfl, rfl⟩ := exists_frame within
            have whole : state.stack = frame :: rest := by
              refine (inner.eq_of_length ?_).symm
              have lengths := congrArg List.length innermost
              simpa [path] using lengths
            have missing := settled frame rest upper whole seen leaves other
              (innermost ▸ known) (innermost ▸ before)
            rw [← innermost] at missing
            rw [missing] at present
            contradiction
        · rcases below innermost within with ⟨stays, _⟩ | ⟨_, leaves⟩
          · exact stays
          · have calm := coherent.not_asking attached seen (Ne.symm innermost)
            simp [calm] at leaves
      exact ⟨after, shown, by rw [stays]⟩
    · rw [same within] at shown
      exact ⟨upper, shown, runs⟩

/-! ## Domains go and come -/

/-- Executions and domains that are left are left as they were, and a domain that is new is
that of an active execution. -/
theorem Coherent.shrunk (coherent : Coherent state)
    (sound : Sound next (state.stack.getLast?.map Frame.id)) (stack : next.stack = state.stack)
    (fewer : ∀ place, next.executions place ⊆ state.executions place)
    (views : ∀ place other, other ∈ next.executions place →
      next.view place other = state.view place other)
    (parent : ∀ parent above, (next.nested (parent :: above)).isSome →
      parent ∈ next.executions above)
    (frames : ∀ frame rest, frame :: rest <:+ state.stack → frame.id ∈ next.executions (path rest) ∧
      ∀ domain, next.nested (path rest) = some domain →
        domain.context frame.id = some frame.context)
    (present : ∀ other parent above, other ∈ next.executions (parent :: above) →
      (next.nested (other :: parent :: above)).isSome →
      (state.nested (other :: parent :: above)).isSome ∨ next.Active above parent) :
    Coherent next := by
  constructor
  · rw [stack]
    exact sound
  · exact parent
  · intro frame rest within
    rw [stack] at within
    obtain ⟨member, context⟩ := frames frame rest within
    obtain ⟨view, viewed, active⟩ := (coherent.frames frame rest within).2.1
    exact ⟨member, ⟨view, (views _ _ member).trans viewed, active⟩, context⟩
  · intro place other view member viewed
    rw [views _ _ member] at viewed
    rw [stack]
    exact coherent.agrees place other view (fewer place member) viewed
  · intro other upper above member nested active
    rcases present other upper above member nested with before | active
    · obtain ⟨view, viewed, active⟩ := active
      rw [views _ _ member] at viewed
      obtain ⟨view, viewed, active⟩ :=
        coherent.rises other upper above (fewer _ member) before ⟨view, viewed, active⟩
      obtain ⟨domain, holds⟩ := sound.exists_domain member
      have attached := parent upper above (by rw [holds]; rfl)
      exact ⟨view, (views _ _ attached).trans viewed, active⟩
    · exact active

theorem State.prune_nested {root : List Id} (outside : ¬ root <:+ address) :
    (state.prune root).nested address = state.nested address := if_neg outside

theorem State.prune_executions {root : List Id} (outside : ¬ root <:+ address) :
    (state.prune root).executions address = state.executions address := if_neg outside

theorem State.prune_view {root : List Id} (outside : ¬ root <:+ address) :
    (state.prune root).view address id = state.view address id := by
  cases address with
  | nil => rfl
  | cons parent above => simp only [State.view, State.prune_nested outside]

omit [DecidableEq Id] in
theorem not_suffix_path {frames lower : List (Frame Id)} {frame : Frame Id}
    (within : frame :: lower <:+ frames) : ¬ path frames <:+ path lower := by
  intro inside
  have shorter := within.length_le
  have longer := inside.length_le
  simp only [path, List.length_map, List.length_cons] at shorter longer
  omega

theorem Sound.prune {root : List Id} {running : Option Id} (sound : Sound state running)
    (nonempty : root ≠ []) : Sound (state.prune root) running where
  root := by
    have outside : ¬ root <:+ [] := fun within => nonempty (List.suffix_nil.mp within)
    rw [State.prune_executions outside]
    exact sound.root
  rootless := by
    have outside : ¬ root <:+ [] := fun within => nonempty (List.suffix_nil.mp within)
    rw [State.prune_nested outside]
    exact sound.rootless
  filled place domain holds := by
    by_cases within : root <:+ place
    · have gone : (state.prune root).nested place = none := if_pos within
      rw [gone] at holds
      contradiction
    · rw [State.prune_nested within] at holds
      rw [State.prune_executions within]
      exact sound.filled place domain holds
  absent parent above gone := by
    by_cases within : root <:+ parent :: above
    · exact if_pos within
    · rw [State.prune_nested within] at gone
      rw [State.prune_executions within]
      exact sound.absent parent above gone

/-- The domain of the innermost execution is destroyed. -/
theorem Coherent.prune (coherent : Coherent state) (nonempty : state.stack ≠ []) :
    Coherent (state.prune (path state.stack)) := by
  have rooted : path state.stack ≠ [] := fun same => nonempty (List.map_eq_nil_iff.mp same)
  have outside {place : List Id} {other : Id}
      (member : other ∈ (state.prune (path state.stack)).executions place) :
      ¬ path state.stack <:+ place := by
    intro within
    have gone : (state.prune (path state.stack)).executions place = ∅ := if_pos within
    rw [gone] at member
    exact absurd member (Finset.notMem_empty other)
  have left {place : List Id} (holds : ((state.prune (path state.stack)).nested place).isSome) :
      ¬ path state.stack <:+ place ∧ (state.nested place).isSome := by
    by_cases within : path state.stack <:+ place
    · have gone : (state.prune (path state.stack)).nested place = none := if_pos within
      rw [gone] at holds
      contradiction
    · rw [State.prune_nested within] at holds
      exact ⟨within, holds⟩
  refine coherent.shrunk (coherent.sound.prune rooted) rfl ?_ ?_ ?_ ?_ ?_
  · intro place other member
    rwa [State.prune_executions (outside member)] at member
  · intro place other member
    exact State.prune_view (outside member)
  · intro parent above holds
    obtain ⟨within, before⟩ := left holds
    have further : ¬ path state.stack <:+ above := fun inside =>
      within (inside.trans (List.suffix_cons _ _))
    rw [State.prune_executions further]
    exact coherent.parent parent above before
  · intro frame rest within
    obtain ⟨member, _, context⟩ := coherent.frames frame rest within
    rw [State.prune_executions (not_suffix_path within),
      State.prune_nested (not_suffix_path within)]
    exact ⟨member, context⟩
  · intro other parent above _ holds
    exact .inl (left holds).2

/-- A domain that has just been constructed has no executions. -/
theorem Sound.construct {running : Option Id} (sound : Sound state running)
    (nonempty : state.stack ≠ []) (size : ℕ) : Sound (state.construct size) running := by
  have rooted : path state.stack ≠ [] := fun same => nonempty (List.map_eq_nil_iff.mp same)
  have pruned := sound.prune rooted
  have vacant : (state.prune (path state.stack)).executions (path state.stack) = ∅ :=
    if_pos (List.suffix_refl _)
  have apart {place : List Id} (different : place ≠ path state.stack) :
      (state.construct size).nested place = (state.prune (path state.stack)).nested place :=
    Function.update_of_ne different _ _
  have here : (state.construct size).nested (path state.stack) =
      some
        { parent := (path state.stack).tail.head?
          size
          scheduler := .empty size fun _ => .active } :=
    Function.update_self _ _ _
  have executions : (state.construct size).executions =
      (state.prune (path state.stack)).executions := rfl
  constructor
  · exact pruned.root
  · rw [apart rooted.symm]
    exact pruned.rootless
  · intro place domain holds
    by_cases same : place = path state.stack
    · subst same
      rw [here, Option.some.injEq] at holds
      subst holds
      rw [executions, vacant]
      exact ExecutionDomain.empty_filled _ _ _
    · rw [apart same] at holds
      exact pruned.filled place domain holds
  · intro parent above gone
    by_cases same : parent :: above = path state.stack
    · rw [same, here] at gone
      contradiction
    · rw [apart same] at gone
      exact pruned.absent parent above gone

/-- `execution_domain_proxy`. -/
theorem Coherent.construct (coherent : Coherent state) (nonempty : state.stack ≠ []) (size : ℕ) :
    Coherent (state.construct size) := by
  have pruned := coherent.prune nonempty
  have rooted : path state.stack ≠ [] := fun same => nonempty (List.map_eq_nil_iff.mp same)
  have vacant : (state.prune (path state.stack)).executions (path state.stack) = ∅ :=
    if_pos (List.suffix_refl _)
  have apart {place : List Id} (different : place ≠ path state.stack) :
      (state.construct size).nested place = (state.prune (path state.stack)).nested place :=
    Function.update_of_ne different _ _
  have executions : (state.construct size).executions =
      (state.prune (path state.stack)).executions := rfl
  have views {place : List Id} {other : Id}
      (member : other ∈ (state.construct size).executions place) :
      (state.construct size).view place other =
        (state.prune (path state.stack)).view place other := by
    have different : place ≠ path state.stack := by
      rintro rfl
      rw [executions, vacant] at member
      exact absurd member (Finset.notMem_empty other)
    cases place with
    | nil => rfl
    | cons parent above => simp only [State.view, apart different]
  obtain ⟨top, rest, whole⟩ := List.exists_cons_of_ne_nil nonempty
  have top_path : path state.stack = top.id :: path rest := by
    rw [whole]
    rfl
  refine pruned.shrunk (coherent.sound.construct nonempty size) rfl (fun place => subset_rfl)
    (fun place other => views) ?_ ?_ ?_
  · intro parent above holds
    by_cases same : parent :: above = path state.stack
    · obtain ⟨rfl, rfl⟩ := List.cons.inj (same.trans top_path)
      exact (pruned.frames top rest (whole ▸ List.suffix_refl _)).1
    · rw [apart same] at holds
      exact pruned.parent parent above holds
  · intro frame lower within
    obtain ⟨member, _, context⟩ := pruned.frames frame lower within
    have different : path lower ≠ path state.stack := fun same =>
      not_suffix_path within (same ▸ List.suffix_refl _)
    rw [apart different]
    exact ⟨member, context⟩
  · intro other parent above member holds
    by_cases same : other :: parent :: above = path state.stack
    · refine .inr ?_
      have inner : parent :: above <:+ path state.stack := same ▸ List.suffix_cons _ _
      obtain ⟨frame, lower, within, rfl, rfl⟩ := exists_frame inner
      obtain ⟨known, ⟨view, viewed, active⟩, _⟩ := pruned.frames frame lower within
      exact ⟨view, (views known).trans viewed, active⟩
    · rw [apart same] at holds
      exact .inl holds

/-! ## Attaching and detaching -/

/-- The executions of a domain without one of them. -/
def State.erase (state : State Id) (address : List Id) (id : Id) : State Id :=
  { state with
    executions := Function.update state.executions address ((state.executions address).erase id) }

theorem State.erase_executions {place : List Id} (different : place ≠ address) :
    (state.erase address id).executions place = state.executions place :=
  Function.update_of_ne different _ _

theorem State.erase_executions_self :
    (state.erase address id).executions address = (state.executions address).erase id :=
  Function.update_self _ _ _

theorem State.mem_erase {place : List Id} {other : Id} :
    other ∈ (state.erase address id).executions place ↔
      ¬ (place = address ∧ other = id) ∧ other ∈ state.executions place := by
  by_cases here : place = address
  · subst here
    simp [State.erase]
  · simp [State.erase_executions here, here]

/-- The scheduler of the domain detaches an execution that it holds as suspended. -/
theorem Sound.detached (sound : Sound state none) (member : id ∈ state.executions address)
    (inactive : ¬ state.Active address id)
    (called : state.call (fun scheduler => some (scheduler.detachSuspendedExecution id))
      (·.detachSuspendedExecution id) address = some next) :
    Sound (next.erase address id) none ∧ Kept state next ∧
      ∀ place other, other ∈ (next.erase address id).executions place →
        next.view place other = state.view place other := by
  cases address with
  | nil =>
      have suspended : id ∈ state.scheduler.suspended := by
        by_contra active
        exact inactive ⟨_, rfl, decide_eq_true active⟩
      cases called
      obtain ⟨holds, views⟩ := sound.root.detachSuspendedExecution suspended
      refine ⟨⟨?_, sound.rootless, ?_, ?_⟩, ⟨fun _ => rfl, rfl⟩, ?_⟩
      · rw [State.erase_executions_self]
        exact holds
      · intro place domain present
        have nested : place ≠ [] := by
          rintro rfl
          exact nomatch sound.rootless.symm.trans present
        rw [State.erase_executions nested]
        exact sound.filled place domain present
      · intro parent above gone
        rw [State.erase_executions (List.cons_ne_nil _ _)]
        exact sound.absent parent above gone
      · intro place other known
        cases place with
        | nil =>
            exact congrArg some (views other fun same => (State.mem_erase.mp known).1 ⟨rfl, same⟩)
        | cons parent above => rfl
  | cons parent above =>
      obtain ⟨domain, present, stepped⟩ := Option.bind_eq_some_iff.mp called
      obtain ⟨changed, made, rfl⟩ := Option.map_eq_some_iff.mp stepped
      obtain ⟨filled, contexts, views⟩ :=
        (sound.filled _ _ present).detachSuspendedExecution member made
      refine ⟨⟨?_, ?_, ?_, ?_⟩, ⟨?_, rfl⟩, ?_⟩
      · rw [State.erase_executions (List.cons_ne_nil _ _).symm]
        exact sound.root
      · rw [← sound.rootless]
        exact Function.update_of_ne (List.cons_ne_nil parent above).symm (some changed) state.nested
      · intro place other holds
        by_cases here : place = parent :: above
        · subst here
          simp only [State.erase, Function.update_self, Option.some.injEq] at holds
          subst holds
          rw [State.erase_executions_self]
          exact filled
        · rw [State.erase_executions here]
          exact sound.filled place other ((Function.update_of_ne here _ _).symm.trans holds)
      · intro upper higher gone
        by_cases here : upper :: higher = parent :: above
        · rw [here] at gone
          exact nomatch (Function.update_self _ _ _).symm.trans gone
        · rw [State.erase_executions here]
          exact sound.absent upper higher ((Function.update_of_ne here _ _).symm.trans gone)
      · intro place
        by_cases here : place = parent :: above
        · subst here
          simp only [Function.update_self, present, Option.map_some, contexts]
        · simp only [Function.update_of_ne here]
      · intro place other known
        obtain ⟨apart, known⟩ := State.mem_erase.mp known
        cases place with
        | nil => rfl
        | cons upper higher =>
            simp only [State.view]
            by_cases here : upper :: higher = parent :: above
            · rw [here] at known apart ⊢
              simp only [Function.update_self, present, Option.bind_some]
              exact views other known fun same => apart ⟨rfl, same⟩
            · simp only [Function.update_of_ne here]

theorem State.detachExecution_eq_some (detached : state.detachExecution address id = some next) :
    ∃ middle, state.call (fun scheduler => some (scheduler.detachSuspendedExecution id))
      (·.detachSuspendedExecution id) address = some middle ∧
        next = (middle.erase address id).prune (id :: address) := by
  obtain ⟨middle, stepped, rfl⟩ := Option.map_eq_some_iff.mp detached
  refine ⟨middle, stepped, ?_⟩
  have below : ¬ id :: address <:+ address := by
    intro within
    have bounded := within.length_le
    simp at bounded
  have executions : Function.update (middle.prune (id :: address)).executions address
      (((middle.prune (id :: address)).executions address).erase id) =
        ((middle.erase address id).prune (id :: address)).executions := by
    funext place
    rw [State.prune_executions below]
    by_cases here : place = address
    · subst here
      rw [Function.update_self, State.prune_executions below, State.erase_executions_self]
    · rw [Function.update_of_ne here]
      simp only [State.prune, State.erase_executions here]
  simp only [executions]
  rfl

theorem State.detachExecution_rest (detached : state.detachExecution address id = some next) :
    next.stack = state.stack ∧ next.phase = state.phase := by
  obtain ⟨middle, stepped, rfl⟩ := State.detachExecution_eq_some detached
  have rest := State.call_rest stepped
  change middle.stack = state.stack ∧ middle.phase = state.phase
  rw [rest]
  exact ⟨rfl, rfl⟩

/-- A suspended execution is detached, and what is nested in it destroyed. -/
theorem Coherent.detach (coherent : Coherent state) (outside : state.stack = [])
    (member : id ∈ state.executions address) (inactive : ¬ state.Active address id)
    (detached : state.detachExecution address id = some next) : Coherent next := by
  have sound := coherent.sound
  rw [outside] at sound
  obtain ⟨middle, stepped, rfl⟩ := State.detachExecution_eq_some detached
  obtain ⟨erased, kept, views⟩ := sound.detached member inactive stepped
  have known {place : List Id} {other : Id}
      (member : other ∈ ((middle.erase address id).prune (id :: address)).executions place) :
      ¬ id :: address <:+ place ∧ other ∈ (middle.erase address id).executions place := by
    by_cases within : id :: address <:+ place
    · have gone : ((middle.erase address id).prune (id :: address)).executions place = ∅ :=
        if_pos within
      rw [gone] at member
      exact absurd member (Finset.notMem_empty other)
    · rw [State.prune_executions within] at member
      exact ⟨within, member⟩
  have left {place : List Id}
      (holds : (((middle.erase address id).prune (id :: address)).nested place).isSome) :
      ¬ id :: address <:+ place ∧ (state.nested place).isSome := by
    by_cases within : id :: address <:+ place
    · have gone : ((middle.erase address id).prune (id :: address)).nested place = none :=
        if_pos within
      rw [gone] at holds
      contradiction
    · rw [State.prune_nested within] at holds
      exact ⟨within, (kept.isSome place).symm.trans holds⟩
  refine coherent.shrunk ?_ kept.stack ?_ ?_ ?_ ?_ ?_
  · rw [outside]
    exact erased.prune (List.cons_ne_nil _ _)
  · intro place other member
    exact kept.executions ▸ (State.mem_erase.mp (known member).2).2
  · intro place other member
    obtain ⟨within, member⟩ := known member
    exact (State.prune_view within).trans (views place other member)
  · intro parent above holds
    obtain ⟨within, before⟩ := left holds
    have further : ¬ id :: address <:+ above := fun inside =>
      within (inside.trans (List.suffix_cons _ _))
    rw [State.prune_executions further, State.mem_erase, kept.executions]
    refine ⟨?_, coherent.parent parent above before⟩
    rintro ⟨rfl, rfl⟩
    exact within (List.suffix_refl _)
  · intro frame rest within
    rw [outside] at within
    exact absurd (List.suffix_nil.mp within) (List.cons_ne_nil _ _)
  · intro other parent above _ holds
    exact .inl (left holds).2

/-- An execution more is attached to a domain. -/
structure Grown (state next : State Id) (address : List Id) (id : Id)
    (sources : List (CancelSource Id)) : Prop where
  fresh : id ∉ state.executions address
  isSome : ∀ place, (next.nested place).isSome = (state.nested place).isSome
  contexts : ∀ place other domain, other ∈ state.executions place →
    next.nested place = some domain →
    ∃ before, state.nested place = some before ∧ domain.context other = before.context other
  views : ∀ place other, other ∈ state.executions place →
    next.view place other = state.view place other
  new : next.view address id = some { active := true, suspendNow := false, state := .active }
  rest : next = { state with
    scheduler := next.scheduler
    nested := next.nested
    executions := Function.update state.executions address (insert id (state.executions address))
    cancelSrcStack := Function.update state.cancelSrcStack address
      (Function.update (state.cancelSrcStack address) id sources) }

theorem Grown.executions {sources : List (CancelSource Id)}
    (grown : Grown state next address id sources) :
    next.executions =
      Function.update state.executions address (insert id (state.executions address)) := by
  rw [grown.rest]

theorem Grown.stack {sources : List (CancelSource Id)}
    (grown : Grown state next address id sources) : next.stack = state.stack := by
  rw [grown.rest]

theorem Grown.phase {sources : List (CancelSource Id)}
    (grown : Grown state next address id sources) : next.phase = state.phase := by
  rw [grown.rest]

theorem Grown.mem_executions {sources : List (CancelSource Id)}
    (grown : Grown state next address id sources) {place : List Id} {other : Id} :
    other ∈ next.executions place ↔
      place = address ∧ other = id ∨ other ∈ state.executions place := by
  rw [grown.executions]
  by_cases here : place = address
  · subst here
    simp
  · simp [here]

theorem Sound.attachExecution {running : Option Id} {maxDepth : ℕ}
    {parentSrcStack : List (CancelSource Id)} {cancelSrc : CancelSource Id}
    (sound : Sound state running)
    (unlisted : ∀ domain ∈ state.nested address, domain.scheduler.find id = none)
    (attached : state.attachExecution maxDepth address id parentSrcStack cancelSrc = some next) :
    Sound next running ∧ Grown state next address id (parentSrcStack ++ [cancelSrc]) := by
  obtain ⟨_, attached⟩ := Option.ite_none_right_eq_some.mp attached
  obtain ⟨inserted, inserts, called⟩ := Option.bind_eq_some_iff.mp attached
  by_cases member : id ∈ state.executions address
  · -- the scheduler has the execution already
    rw [if_pos member] at inserts
    cases inserts
    cases address with
    | nil =>
        obtain ⟨scheduler, made, _⟩ := Option.map_eq_some_iff.mp called
        exact absurd member (sound.root.attachExecution made).1
    | cons parent above =>
        obtain ⟨domain, present⟩ := sound.exists_domain member
        obtain ⟨index, found, _⟩ := (sound.filled _ _ present).placed id member
        exact nomatch (unlisted domain present).symm.trans found
  · rw [if_neg member] at inserts
    obtain ⟨recorded, records, rfl⟩ := Option.map_eq_some_iff.mp inserts
    cases address with
    | nil =>
        cases records
        obtain ⟨scheduler, made, rfl⟩ := Option.map_eq_some_iff.mp called
        have turned := sound.root.recordState id ExecutionState.active
        obtain ⟨_, holds, same, active, calm⟩ := turned.holds.attachExecution made
        refine ⟨⟨?_, sound.rootless, ?_, ?_⟩, ⟨member, fun _ => rfl, ?_, ?_, ?_, rfl⟩⟩
        · simp only [Function.update_self]
          exact holds
        · intro place domain present
          have nested : place ≠ [] := by
            rintro rfl
            exact nomatch sound.rootless.symm.trans present
          simp only [Function.update_of_ne nested]
          exact sound.filled place domain present
        · intro parent above gone
          simp only [Function.update_of_ne (List.cons_ne_nil parent above)]
          exact sound.absent parent above gone
        · intro place other domain _ present
          exact ⟨domain, present, rfl⟩
        · intro place other known
          cases place with
          | nil =>
              have different : other ≠ id := by
                rintro rfl
                exact member known
              simp only [State.view, same, turned.views other, if_neg different]
          | cons parent above => rfl
        · have state : (scheduler.view id).state = .active := by
            rw [same, turned.views id, if_pos rfl]
          have shown : scheduler.view id =
              { active := true, suspendNow := false, state := .active } := by
            rw [← active, ← calm, ← state]
          exact congrArg some shown
    | cons parent above =>
        obtain ⟨domain, present, stepped⟩ := Option.bind_eq_some_iff.mp records
        cases stepped
        obtain ⟨middle, holds, stepped⟩ := Option.bind_eq_some_iff.mp called
        simp only [Function.update_self, Option.some.injEq] at holds
        subst holds
        obtain ⟨changed, made, rfl⟩ := Option.map_eq_some_iff.mp stepped
        have recorded :
            (domain.recordState id .active).Filled (state.executions (parent :: above)) :=
          { sound.filled _ _ present with }
        obtain ⟨filled, contexts, views, new⟩ :=
          recorded.attachExecution (unlisted domain present) made
        have different {other : Id} (known : other ∈ state.executions (parent :: above)) :
            other ≠ id := by
          rintro rfl
          exact member known
        simp only [Function.update_idem]
        refine ⟨⟨?_, ?_, ?_, ?_⟩, ⟨member, ?_, ?_, ?_, ?_, rfl⟩⟩
        · simp only [Function.update_of_ne (List.cons_ne_nil parent above).symm]
          exact sound.root
        · simp only [Function.update_of_ne (List.cons_ne_nil parent above).symm]
          exact sound.rootless
        · intro place other holds
          by_cases here : place = parent :: above
          · subst here
            simp only [Function.update_self, Option.some.injEq] at holds ⊢
            exact holds ▸ filled
          · simp only [Function.update_of_ne here] at holds ⊢
            exact sound.filled place other holds
        · intro upper higher gone
          by_cases here : upper :: higher = parent :: above
          · rw [here] at gone
            simp at gone
          · simp only [Function.update_of_ne here] at gone ⊢
            exact sound.absent upper higher gone
        · intro place
          by_cases here : place = parent :: above
          · subst here
            simp [present]
          · simp only [Function.update_of_ne here]
        · intro place other inner known holds
          by_cases here : place = parent :: above
          · subst here
            simp only [Function.update_self, Option.some.injEq] at holds
            exact ⟨domain, present, holds ▸ contexts other known⟩
          · simp only [Function.update_of_ne here] at holds
            exact ⟨inner, holds, rfl⟩
        · intro place other known
          cases place with
          | nil => rfl
          | cons upper higher =>
              simp only [State.view]
              by_cases here : upper :: higher = parent :: above
              · rw [here] at known ⊢
                simp only [Function.update_self, present, Option.bind_some, views other known]
                exact ExecutionDomain.recordState_view _ (different known)
              · simp only [Function.update_of_ne here]
        · simp only [State.view, Function.update_self, Option.bind_some, new]
          simp [ExecutionDomain.recordState, ExecutionDomain.executionState,
            CycleScheduler.Scheduler.recordState]

theorem Coherent.grown {sources : List (CancelSource Id)} (coherent : Coherent state)
    (sound : Sound next (state.stack.getLast?.map Frame.id))
    (grown : Grown state next address id sources) : Coherent next := by
  have active {place : List Id} {other : Id} (member : other ∈ state.executions place) :
      next.Active place other ↔ state.Active place other := by
    simp only [State.Active, grown.views place other member]
  constructor
  · rw [grown.stack]
    exact sound
  · intro parent above holds
    rw [grown.isSome] at holds
    exact grown.mem_executions.mpr (.inr (coherent.parent parent above holds))
  · intro frame rest within
    rw [grown.stack] at within
    obtain ⟨member, runs, context⟩ := coherent.frames frame rest within
    refine ⟨grown.mem_executions.mpr (.inr member), (active member).mpr runs,
      fun domain holds => ?_⟩
    obtain ⟨before, earlier, same⟩ := grown.contexts _ _ domain member holds
    rw [same]
    exact context before earlier
  · intro place other view member viewed
    rw [grown.stack]
    rcases grown.mem_executions.mp member with ⟨rfl, rfl⟩ | member
    · obtain rfl := Option.some.inj (grown.new.symm.trans viewed)
      exact ⟨nofun, nofun, nofun⟩
    · rw [grown.views place other member] at viewed
      exact coherent.agrees place other view member viewed
  · intro other parent above member holds runs
    rw [grown.isSome] at holds
    rcases grown.mem_executions.mp member with ⟨rfl, rfl⟩ | member
    · exact absurd (coherent.parent _ _ holds) grown.fresh
    · obtain ⟨domain, inner⟩ := coherent.sound.exists_domain member
      have attached := coherent.parent parent above (by rw [inner]; rfl)
      exact (active attached).mpr
        (coherent.rises other parent above member holds ((active member).mp runs))

/-! ## The steps -/

/-- Nothing has asked to be suspended but the execution that is executed, whose subdomain
is new. -/
structure Ready (state : State Id) : Prop extends Coherent state where
  idle : state.phase = .idle ↔ state.stack = []
  calm : state.phase ≠ .executing → ∀ address id view, id ∈ state.executions address →
    state.view address id = some view → view.suspendNow = false
  bare : state.phase = .executing → ∀ id, state.nested (id :: path state.stack) = none

theorem Coherent.ready (coherent : Coherent state) (outside : state.stack = [])
    (idle : state.phase = .idle) : Ready state where
  toCoherent := coherent
  idle := ⟨fun _ => outside, fun _ => idle⟩
  calm _ address id view member viewed := coherent.not_asking member viewed (by
    rw [outside]
    exact (List.cons_ne_nil id address).symm)
  bare executing := by
    rw [idle] at executing
    contradiction

theorem Coherent.request (coherent : Coherent state) (requested : CancelSource Id → Bool) :
    Coherent { state with requested } where
  sound := { coherent.sound with }
  parent := coherent.parent
  frames := coherent.frames
  agrees := coherent.agrees
  rises := coherent.rises

theorem Ready.request (ready : Ready state) (requested : CancelSource Id → Bool) :
    Ready { state with requested } where
  toCoherent := ready.toCoherent.request requested
  idle := ready.idle
  calm := ready.calm
  bare := ready.bare

/-- The end of a turn of `run_once`. -/
theorem Coherent.leave {execTime : UInt64} {completed : Bool} (coherent : Coherent state)
    (settled : ∀ top rest view, state.stack = top :: rest →
      state.view (path rest) top.id = some view →
      completed = true ∨ view.suspendNow = true → ∀ id ∈ state.executions (path state.stack),
      state.Active (path state.stack) id → state.nested (id :: path state.stack) = none)
    (leaves : state.leave execTime completed = some next) : Ready next := by
  unfold State.leave at leaves
  split at leaves
  · contradiction
  · rename_i top rest whole
    obtain ⟨ended, ends, remains⟩ := Option.bind_eq_some_iff.mp leaves
    rw [← whole] at ends
    have outside := coherent.exit settled ends
    cases completed with
    | true =>
        obtain ⟨sound, kept, views⟩ := coherent.sound.endContexts coherent.frames ends
        obtain ⟨member, ⟨view, viewed, _⟩, _⟩ :=
          coherent.frames top rest (whole ▸ List.suffix_refl _)
        obtain ⟨after, shown, innermost, _⟩ := views _ _ view member viewed
        have inactive : after.active = false := by
          rcases innermost (whole ▸ rfl) with ⟨_, stays⟩ | ⟨rfl, _⟩
          · contradiction
          · rfl
        have detached := outside.detach rfl (kept.executions ▸ member) (by
          rintro ⟨other, seen, active⟩
          obtain rfl := Option.some.inj (shown.symm.trans seen)
          rw [inactive] at active
          contradiction) remains
        obtain ⟨stack, phase⟩ := State.detachExecution_rest remains
        exact detached.ready stack phase
    | false =>
        cases remains
        exact outside.ready rfl rfl

/-- An execution is scheduled on top of the others. -/
theorem Coherent.push (coherent : Coherent state) (frame : Frame Id)
    (nonempty : state.stack ≠ [])
    (calm : ∀ address id view, id ∈ state.executions address → state.view address id = some view →
      view.suspendNow = false)
    (member : frame.id ∈ state.executions (path state.stack))
    (active : state.Active (path state.stack) frame.id)
    (context : ∀ domain, state.nested (path state.stack) = some domain →
      domain.context frame.id = some frame.context) :
    Coherent { state with stack := frame :: state.stack } where
  sound := by
    have bottom : (frame :: state.stack).getLast? = state.stack.getLast? := by
      obtain ⟨top, rest, whole⟩ := List.exists_cons_of_ne_nil nonempty
      rw [whole, List.getLast?_cons_cons]
    rw [bottom]
    exact { coherent.sound with }
  parent := coherent.parent
  frames other rest within := by
    rcases List.suffix_cons_iff.mp within with same | within
    · cases same
      exact ⟨member, active, context⟩
    · exact coherent.frames other rest within
  agrees address id view known viewed := by
    have agreed := coherent.agrees address id view known viewed
    refine ⟨agreed.held, agreed.recorded, fun asks => ?_⟩
    rw [calm address id view known viewed] at asks
    contradiction
  rises := coherent.rises

theorem Ready.schedule (ready : Ready state) (idle : state.phase = .idle)
    (scheduled : state.schedule id = some next) : Ready next := by
  have outside := ready.idle.mp idle
  have sound := ready.sound
  rw [outside] at sound
  obtain ⟨scheduler, yields, taken⟩ := Option.bind_eq_some_iff.mp scheduled
  obtain ⟨member, ⟨⟩⟩ := Option.ite_none_right_eq_some.mp taken
  obtain ⟨_, active, holds, same⟩ := sound.root.schedule yields
  have turned := holds.recordState id ExecutionState.running
  have calm := ready.calm (by rw [idle]; nofun)
  let begun : State Id := { state with
    scheduler := scheduler.recordState id .running
    stack := [{ id, context := 0 }]
    phase := .visiting }
  have shown (place : List Id) (other : Id) (member : other ∈ state.executions place) :
      ∃ view after, state.view place other = some view ∧ begun.view place other = some after ∧
        after.active = view.active ∧ after.Agrees False := by
    obtain ⟨view, viewed⟩ := ready.sound.exists_view member
    have agreed := ready.agrees place other view member viewed
    have quiet := calm place other view member viewed
    have agrees : view.Agrees False :=
      ⟨agreed.held, agreed.recorded, fun asks => by rw [quiet] at asks; contradiction⟩
    cases place with
    | nil =>
        obtain rfl := Option.some.inj viewed
        have seen := turned.views other
        rw [same] at seen
        by_cases here : other = id
        · subst here
          rw [if_pos rfl] at seen
          exact ⟨_, _, rfl, congrArg some seen, rfl,
            fun inactive => by rw [active] at inactive; contradiction, nofun, agrees.asks⟩
        · rw [if_neg here] at seen
          exact ⟨_, _, rfl, congrArg some seen, rfl, agrees⟩
    | cons parent above => exact ⟨view, view, viewed, viewed, rfl, agrees⟩
  have running (place : List Id) (other : Id) (member : other ∈ state.executions place) :
      begun.Active place other ↔ state.Active place other := by
    obtain ⟨view, after, viewed, seen, same, _⟩ := shown place other member
    simp [State.Active, viewed, seen, same]
  have nested : begun.nested = state.nested := rfl
  exact
    { sound := { sound with root := turned.holds }
      parent := ready.parent
      frames := fun frame rest within => by
        rcases List.suffix_cons_iff.mp within with whole | empty
        · cases whole
          exact ⟨member, (running [] id member).mpr ⟨_, rfl, active⟩, fun domain holds =>
            nomatch sound.rootless.symm.trans holds⟩
        · exact absurd (List.suffix_nil.mp empty) (List.cons_ne_nil _ _)
      agrees := fun place other view member viewed => by
        obtain ⟨_, after, _, seen, _, agrees⟩ := shown place other member
        obtain rfl := Option.some.inj (seen.symm.trans viewed)
        exact ⟨agrees.held, agrees.recorded, fun asks => (agrees.asks asks).elim⟩
      rises := fun other parent above member holds runs => by
        obtain ⟨domain, inner⟩ := sound.exists_domain member
        have attached := ready.parent parent above (by rw [inner]; rfl)
        exact (running above parent attached).mpr
          (ready.rises other parent above member holds ((running _ other member).mp runs))
      idle := ⟨nofun, nofun⟩
      calm := fun _ place other view member viewed => by
        obtain ⟨_, after, _, seen, _, agrees⟩ := shown place other member
        obtain rfl := Option.some.inj (seen.symm.trans viewed)
        cases asks : after.suspendNow with
        | true => exact (agrees.asks asks).elim
        | false => rfl
      bare := nofun }

theorem Turned.calm {after : View} (turned : Turned state next address id after)
    (quiet : after.suspendNow = false)
    (calm : ∀ place other view, other ∈ state.executions place →
      state.view place other = some view → view.suspendNow = false)
    (place : List Id) (other : Id) (view : View) (member : other ∈ next.executions place)
    (viewed : next.view place other = some view) : view.suspendNow = false := by
  rw [turned.kept.executions] at member
  rw [turned.views place other member] at viewed
  split at viewed
  · exact Option.some.inj viewed ▸ quiet
  · exact calm place other view member viewed

/-- The scheduler of a nested domain yields an execution, which is recorded as running. -/
theorem Sound.schedule {running : Option Id} {domain next : ExecutionDomain Id}
    {context : Fin domain.size} (sound : Sound state running)
    (holds : state.nested address = some domain)
    (yields : domain.schedule = some (id, context, next)) :
    ∃ view, state.view address id = some view ∧ view.active = true ∧
      id ∈ state.executions address ∧ domain.context id = some context.val ∧
      Sound { state with
        nested :=
          Function.update state.nested address (some (next.scheduleExecution id)) } running ∧
      Turned state { state with
        nested :=
          Function.update state.nested address (some (next.scheduleExecution id)) } address id
          { view with state := .running } := by
  obtain ⟨member, scheduled, ⟨view, viewed, active⟩, filled, contexts, views⟩ :=
    (sound.filled _ _ holds).schedule yields
  have recorded := filled.recordState (views ▸ viewed) ExecutionState.running
  have turned : ExecutionDomain.Turned domain (next.scheduleExecution id)
      (state.executions address) id { view with state := .running } :=
    ⟨recorded.filled, recorded.contexts.trans contexts, fun other known => by
      rw [← views]
      exact recorded.views other known⟩
  have seen : state.view address id = some view := by
    cases address with
    | nil => exact nomatch sound.rootless.symm.trans holds
    | cons parent above => rw [State.view, holds, Option.bind_some, viewed]
  obtain ⟨sound, turned⟩ := sound.nested_turned holds turned
  exact ⟨view, seen, active, member, scheduled, sound, turned⟩

/-- `suspend_current` of the innermost execution, which may ask to be suspended. -/
theorem Coherent.suspend {top : Frame Id} {rest : List (Frame Id)} (coherent : Coherent state)
    (whole : state.stack = top :: rest)
    (suspends : state.suspendCurrent (path rest) top.id = some next) :
    Coherent next ∧ ∃ after, Turned state next (path rest) top.id after ∧ after.active = true := by
  obtain ⟨member, ⟨before, viewed, runs⟩, _⟩ :=
    coherent.frames top rest (whole ▸ List.suffix_refl _)
  have outermost : path rest = [] → state.stack.getLast?.map Frame.id = some top.id := by
    intro outermost
    rw [whole, List.map_eq_nil_iff.mp outermost]
    rfl
  obtain ⟨after, either, sound, turned⟩ :=
    coherent.sound.suspendCurrent member viewed outermost suspends
  have stays : after.active = true := by
    rcases either with rfl | rfl
    · exact runs
    · exact runs
  have innermost : path state.stack = top.id :: path rest := by
    rw [whole]
    rfl
  refine ⟨coherent.turned sound turned ⟨before, viewed, runs⟩ stays ?_, after, turned, stays⟩
  refine ⟨fun inactive => ?_, fun suspended => ?_, fun _ => innermost⟩
  · rw [stays] at inactive
    contradiction
  · rcases either with rfl | rfl
    · exact (coherent.agrees _ _ _ member viewed).recorded suspended
    · exact .inr rfl

theorem Ready.visit {execTime : UInt64} (ready : Ready state) (visiting : state.phase = .visiting)
    (visits : state.visit execTime = some next) : Ready next := by
  have calm := ready.calm (by rw [visiting]; nofun)
  unfold State.visit at visits
  split at visits
  · contradiction
  · rename_i top rest whole
    rw [← whole] at visits
    have nonempty : state.stack ≠ [] := by
      rw [whole]
      exact List.cons_ne_nil _ _
    obtain ⟨member, active, context⟩ := ready.frames top rest (whole ▸ List.suffix_refl _)
    split at visits
    · rename_i bare
      have vacant : state.executions (path state.stack) = ∅ := by
        rw [whole] at bare ⊢
        exact ready.sound.absent _ _ bare
      split at visits
      · refine ready.toCoherent.leave (fun _ _ _ _ _ _ id known => ?_) visits
        rw [vacant] at known
        exact absurd known (Finset.notMem_empty id)
      · cases visits
        exact
          { sound := { ready.sound with }
            parent := ready.parent
            frames := ready.frames
            agrees := ready.agrees
            rises := ready.rises
            idle := ⟨nofun, fun outside => absurd outside nonempty⟩
            calm := fun executing => absurd rfl executing
            bare := fun _ id => by
              cases holds : state.nested (id :: path state.stack) with
              | none => rfl
              | some domain =>
                  have known := ready.parent id (path state.stack) (by rw [holds]; rfl)
                  rw [vacant] at known
                  exact absurd known (Finset.notMem_empty id) }
    · rename_i domain holds
      split at visits
      · rename_i vacant
        refine (ready.toCoherent.prune nonempty).leave (fun _ _ _ _ _ _ id known => ?_) visits
        have gone : (state.prune (path state.stack)).executions (path state.stack) = ∅ :=
          if_pos (List.suffix_refl _)
        have known : id ∈ (state.prune (path state.stack)).executions (path state.stack) := known
        rw [gone] at known
        exact absurd known (Finset.notMem_empty id)
      · split at visits
        · obtain ⟨⟨scheduled, slot, after⟩, yields, taken⟩ := Option.bind_eq_some_iff.mp visits
          obtain ⟨known, ⟨⟩⟩ := Option.ite_none_right_eq_some.mp taken
          obtain ⟨view, seen, runs, _, placed, sound, turned⟩ := ready.sound.schedule holds yields
          have agreed := ready.agrees _ _ view known seen
          have turns := ready.toCoherent.turned sound turned ⟨view, seen, runs⟩ runs
            ⟨fun inactive => by rw [runs] at inactive; contradiction, nofun, agreed.asks⟩
          have quiet := turned.calm (calm _ _ view known seen) calm
          have pushed := turns.push { id := scheduled, context := slot } nonempty quiet known
            ⟨_, (turned.views _ _ known).trans (if_pos ⟨rfl, rfl⟩), runs⟩
            fun inner inside => turned.kept.context inside fun before earlier => by
              obtain rfl := Option.some.inj (holds.symm.trans earlier)
              exact placed
          exact
            { toCoherent := pushed
              idle := ⟨fun idle => by rw [visiting] at idle; contradiction, nofun⟩
              calm := fun _ => quiet
              bare := fun executing => by rw [visiting] at executing; contradiction }
        · rename_i inactive
          obtain ⟨middle, suspends, leaves⟩ := Option.bind_eq_some_iff.mp visits
          obtain ⟨turns, after, turned, _⟩ := ready.toCoherent.suspend whole suspends
          have innermost : path state.stack = top.id :: path rest := by
            rw [whole]
            rfl
          refine turns.leave (fun _ _ _ _ _ _ id known running => ?_) leaves
          rw [turned.kept.stack] at known running
          rw [turned.kept.executions] at known
          obtain ⟨view, seen, running⟩ := running
          have elsewhere : ¬ (path state.stack = path rest ∧ id = top.id) := by
            rintro ⟨same, _⟩
            rw [innermost] at same
            exact List.cons_ne_self _ _ same
          rw [turned.views _ _ known, if_neg elsewhere] at seen
          have busy := (ready.sound.filled _ _ holds).hasActive_of_active known
            (ready.sound.view_nested holds seen) running
          exact absurd busy inactive

end Asco.Core.Worker.Tree
