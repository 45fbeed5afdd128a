import Asco.Core.Worker.Tree

namespace Asco.Core.Worker.Tree

open Asco.Core.Task
open DynprioScheduler (ExecutionState)

/-! # What the calls do to the domains

A call of a scheduler changes what is kept about one execution, of one domain.
-/

variable {Id : Type*} [DecidableEq Id]

/-- Every domain keeps what its scheduler needs about the executions that are attached
to it, and `running` is the execution of the root domain whose context is open. -/
structure Sound (state : State Id) (running : Option Id) : Prop where
  root : state.scheduler.Holds (state.executions []) running
  rootless : state.nested [] = none
  filled : ∀ address domain, state.nested address = some domain →
    domain.Filled (state.executions address)
  absent : ∀ parent above, state.nested (parent :: above) = none →
    state.executions (parent :: above) = ∅

/-- Domains are neither constructed nor destroyed, and keep their contexts. -/
structure Kept (state next : State Id) : Prop where
  contexts : ∀ address, (next.nested address).map (·.context) =
    (state.nested address).map (·.context)
  rest : next = { state with scheduler := next.scheduler, nested := next.nested }

/-- A call after which `after` is kept about one execution and nothing else has changed. -/
structure Turned (state next : State Id) (address : List Id) (id : Id) (after : View) : Prop where
  kept : Kept state next
  views : ∀ place other, other ∈ state.executions place → next.view place other =
    if place = address ∧ other = id then some after else state.view place other

variable {state next : State Id} {running after : Option Id} {address : List Id} {id : Id}

theorem Kept.refl (state : State Id) : Kept state state where
  contexts _ := rfl
  rest := rfl

theorem Kept.trans {middle : State Id} (first : Kept state middle) (second : Kept middle next) :
    Kept state next where
  contexts address := (second.contexts address).trans (first.contexts address)
  rest := by
    have before := first.rest
    have after := second.rest
    rw [before] at after
    exact after

theorem Kept.executions (kept : Kept state next) : next.executions = state.executions := by
  rw [kept.rest]

theorem Kept.stack (kept : Kept state next) : next.stack = state.stack := by
  rw [kept.rest]

theorem Kept.phase (kept : Kept state next) : next.phase = state.phase := by
  rw [kept.rest]

theorem Kept.cancelSrcStack (kept : Kept state next) :
    next.cancelSrcStack = state.cancelSrcStack := by
  rw [kept.rest]

theorem Kept.requested (kept : Kept state next) : next.requested = state.requested := by
  rw [kept.rest]

theorem Kept.isSome (kept : Kept state next) (address : List Id) :
    (next.nested address).isSome = (state.nested address).isSome := by
  have same := congrArg Option.isSome (kept.contexts address)
  simpa only [Option.isSome_map] using same

theorem Kept.context (kept : Kept state next) {domain : ExecutionDomain Id} {context : ℕ}
    (present : next.nested address = some domain)
    (scheduled : ∀ domain, state.nested address = some domain →
      domain.context id = some context) : domain.context id = some context := by
  have same := kept.contexts address
  rw [present, Option.map_some] at same
  obtain ⟨before, earlier, contexts⟩ := Option.map_eq_some_iff.mp same.symm
  rw [← contexts]
  exact scheduled before earlier

theorem State.call_rest
    {root : DynprioScheduler.Scheduler Id → Option (DynprioScheduler.Scheduler Id)}
    {nested : ExecutionDomain Id → Option (ExecutionDomain Id)}
    (called : state.call root nested address = some next) :
    next = { state with scheduler := next.scheduler, nested := next.nested } := by
  cases address with
  | nil =>
      obtain ⟨_, _, rfl⟩ := Option.map_eq_some_iff.mp called
      rfl
  | cons parent above =>
      obtain ⟨_, _, stepped⟩ := Option.bind_eq_some_iff.mp called
      obtain ⟨_, _, rfl⟩ := Option.map_eq_some_iff.mp stepped
      rfl

theorem Sound.exists_domain (sound : Sound state running) {parent : Id} {above : List Id}
    (member : id ∈ state.executions (parent :: above)) :
    ∃ domain, state.nested (parent :: above) = some domain := by
  cases present : state.nested (parent :: above) with
  | none =>
      rw [sound.absent parent above present] at member
      exact absurd member (Finset.notMem_empty id)
  | some domain => exact ⟨domain, rfl⟩

theorem Sound.exists_view (sound : Sound state running) (member : id ∈ state.executions address) :
    ∃ view, state.view address id = some view := by
  cases address with
  | nil => exact ⟨_, rfl⟩
  | cons parent above =>
      obtain ⟨domain, present⟩ := sound.exists_domain member
      obtain ⟨view, viewed⟩ := (sound.filled _ _ present).exists_view member
      exact ⟨view, by rw [State.view, present, Option.bind_some, viewed]⟩

theorem Sound.view_nested (sound : Sound state running) {view : View}
    {domain : ExecutionDomain Id} (present : state.nested address = some domain)
    (viewed : state.view address id = some view) : domain.view id = some view := by
  cases address with
  | nil =>
      rw [sound.rootless] at present
      contradiction
  | cons parent above =>
      rw [State.view, present, Option.bind_some] at viewed
      exact viewed

/-- The root scheduler is called. -/
theorem Sound.root_turned {scheduler : DynprioScheduler.Scheduler Id} {view : View}
    (sound : Sound state running)
    (turned : DynprioScheduler.Scheduler.Turned state.scheduler scheduler (state.executions [])
      after id view) :
    Sound { state with scheduler } after ∧ Turned state { state with scheduler } [] id view := by
  refine ⟨{ sound with root := turned.holds }, ⟨fun _ => rfl, rfl⟩, fun place other member => ?_⟩
  cases place with
  | nil =>
      rw [State.view, turned.views other]
      by_cases same : other = id
      · rw [if_pos same, if_pos ⟨rfl, same⟩]
      · rw [if_neg same, if_neg fun both => same both.2]
        rfl
  | cons parent above =>
      rw [if_neg fun both => List.cons_ne_nil _ _ both.1]
      rfl

/-- The scheduler of a nested domain is called. -/
theorem Sound.nested_turned {domain changed : ExecutionDomain Id} {view : View}
    (sound : Sound state running) (present : state.nested address = some domain)
    (turned : ExecutionDomain.Turned domain changed (state.executions address) id view) :
    Sound { state with nested := Function.update state.nested address (some changed) } running ∧
      Turned state { state with nested := Function.update state.nested address (some changed) }
        address id view := by
  have inner : address ≠ [] := by
    intro root
    rw [root, sound.rootless] at present
    contradiction
  refine ⟨⟨sound.root, ?_, ?_, ?_⟩, ⟨?_, rfl⟩, ?_⟩
  · simp only [Function.update_of_ne inner.symm]
    exact sound.rootless
  · intro place other
    by_cases here : place = address
    · subst here
      simp only [Function.update_self, Option.some.injEq]
      rintro rfl
      exact turned.filled
    · simp only [Function.update_of_ne here]
      exact sound.filled place other
  · intro parent above
    by_cases here : parent :: above = address
    · subst here
      simp
    · simp only [Function.update_of_ne here]
      exact sound.absent parent above
  · intro place
    by_cases here : place = address
    · subst here
      simp only [Function.update_self, present, Option.map_some, turned.contexts]
    · simp only [Function.update_of_ne here]
  · intro place other member
    cases place with
    | nil =>
        rw [if_neg fun both => inner both.1.symm]
        rfl
    | cons parent above =>
        simp only [State.view]
        by_cases here : parent :: above = address
        · subst here
          simp only [Function.update_self, present, Option.bind_some, turned.views other member,
            true_and]
        · simp only [Function.update_of_ne here, here, false_and, if_false]

/-! ## The calls -/

variable {before : View}

theorem Sound.recordState {recorded : ExecutionState} (sound : Sound state running)
    (member : id ∈ state.executions address) (viewed : state.view address id = some before)
    (called : state.recordState address id recorded = some next) :
    Sound next running ∧ Turned state next address id { before with state := recorded } := by
  cases address with
  | nil =>
      cases viewed
      cases called
      exact sound.root_turned (sound.root.recordState id recorded)
  | cons parent above =>
      obtain ⟨domain, present, stepped⟩ := Option.bind_eq_some_iff.mp called
      cases stepped
      have held := sound.view_nested present viewed
      exact sound.nested_turned present ((sound.filled _ _ present).recordState held recorded)

theorem Sound.suspendCurrent (sound : Sound state running)
    (member : id ∈ state.executions address) (viewed : state.view address id = some before)
    (scheduled : address = [] → running = some id)
    (called : state.suspendCurrent address id = some next) :
    ∃ after, (after = before ∨ after = before.asked) ∧ Sound next running ∧
      Turned state next address id after := by
  cases address with
  | nil =>
      obtain rfl := scheduled rfl
      cases viewed
      obtain ⟨scheduler, made, rfl⟩ := Option.map_eq_some_iff.mp called
      obtain ⟨_, ⟨⟩⟩ := Option.ite_none_right_eq_some.mp made
      obtain ⟨after, either, turned⟩ := sound.root.suspendCurrent
      exact ⟨after, either, sound.root_turned turned⟩
  | cons parent above =>
      obtain ⟨domain, present, stepped⟩ := Option.bind_eq_some_iff.mp called
      cases stepped
      have held := sound.view_nested present viewed
      obtain ⟨after, either, turned⟩ := (sound.filled _ _ present).suspendCurrent member held
      exact ⟨after, either, sound.nested_turned present turned⟩

theorem Sound.endContext {frame : Frame Id} {completed : Bool} {execTime : UInt64}
    (sound : Sound state running) (member : frame.id ∈ state.executions address)
    (viewed : state.view address frame.id = some before) (active : before.active = true)
    (scheduled : address = [] → running = some frame.id)
    (context : ∀ domain, state.nested address = some domain →
      domain.context frame.id = some frame.context)
    (called : state.endContext address frame completed execTime = some next) :
    ∃ after, before.Ended completed after ∧
      Sound next (if address = [] then none else running) ∧
      Turned state next address frame.id after := by
  cases address with
  | nil =>
      obtain rfl := scheduled rfl
      cases viewed
      cases called
      obtain ⟨after, ended, turned⟩ := sound.root.endContext
      exact ⟨after, ended, sound.root_turned turned⟩
  | cons parent above =>
      obtain ⟨domain, present, stepped⟩ := Option.bind_eq_some_iff.mp called
      cases stepped
      have held := sound.view_nested present viewed
      obtain ⟨after, ended, turned⟩ :=
        (sound.filled _ _ present).endContext member (context domain present) held active
      exact ⟨after, ended, sound.nested_turned present turned⟩

/-- A wake-up up to the look at the parent execution. -/
theorem Sound.awakeHere (sound : Sound state running)
    (called : state.awakeHere address id = some next) :
    Sound next running ∧ ∃ after, Turned state next address id after ∧
      ∀ before, id ∈ state.executions address → state.view address id = some before →
        after = before.awoken := by
  by_cases member : id ∈ state.executions address
  · obtain ⟨before, viewed⟩ := sound.exists_view member
    have only {held : View} (same : state.view address id = some held) : held = before :=
      Option.some.inj (same.symm.trans viewed)
    cases address with
    | nil =>
        obtain ⟨scheduler, made, rfl⟩ := Option.map_eq_some_iff.mp called
        obtain ⟨_, ⟨⟩⟩ := Option.ite_none_left_eq_some.mp made
        obtain ⟨kept, turned⟩ := sound.root_turned (sound.root.awakeExecution member)
        exact ⟨kept, _, turned, fun held _ same => by cases same; rfl⟩
    | cons parent above =>
        obtain ⟨domain, present, stepped⟩ := Option.bind_eq_some_iff.mp called
        obtain ⟨changed, made, rfl⟩ := Option.map_eq_some_iff.mp stepped
        obtain ⟨_, ⟨⟩⟩ := Option.ite_none_left_eq_some.mp made
        have held := sound.view_nested present viewed
        obtain ⟨kept, turned⟩ := sound.nested_turned present
          ((sound.filled _ _ present).awakeExecution member held)
        exact ⟨kept, _, turned, fun held _ same => by rw [only same]⟩
  · -- nothing is kept about an execution that is not attached
    have elsewhere {place : List Id} {other : Id} (known : other ∈ state.executions place) :
        ¬ (place = address ∧ other = id) := by
      rintro ⟨rfl, rfl⟩
      exact member known
    cases address with
    | nil =>
        have awake : id ∉ state.scheduler.suspended := fun suspended =>
          member (sound.root.suspended suspended)
        obtain ⟨scheduler, made, rfl⟩ := Option.map_eq_some_iff.mp called
        obtain ⟨_, ⟨⟩⟩ := Option.ite_none_left_eq_some.mp made
        obtain ⟨holds, same⟩ := sound.root.awakeExecution_active awake
        refine ⟨{ sound with root := holds },
          { active := true, suspendNow := false, state := .active },
          ⟨⟨fun _ => rfl, rfl⟩, fun place other known => ?_⟩, fun _ known => absurd known member⟩
        rw [if_neg (elsewhere known)]
        cases place with
        | nil => simp only [State.view, same]
        | cons parent above => rfl
    | cons parent above =>
        obtain ⟨domain, present, stepped⟩ := Option.bind_eq_some_iff.mp called
        obtain ⟨changed, made, rfl⟩ := Option.map_eq_some_iff.mp stepped
        obtain ⟨passes, ⟨⟩⟩ := Option.ite_none_left_eq_some.mp made
        have active : domain.held id = false := by
          cases held : domain.held id with
          | true => exact absurd ⟨held, member⟩ passes
          | false => rfl
        obtain ⟨filled, contexts, views⟩ := (sound.filled _ _ present).awakeExecution_active active
        have turned : ExecutionDomain.Turned domain (domain.awakeExecution id)
            (state.executions (parent :: above)) id
            { active := true, suspendNow := false, state := .active } := by
          refine ⟨filled, contexts, fun other known => ?_⟩
          rw [if_neg fun same => elsewhere known ⟨rfl, same⟩, views]
        obtain ⟨kept, turned⟩ := sound.nested_turned present turned
        exact ⟨kept, _, turned, fun _ known => absurd known member⟩

theorem Sound.exists_awakeHere (sound : Sound state running)
    (member : id ∈ state.executions address) : ∃ next, state.awakeHere address id = some next := by
  cases address with
  | nil => simp [State.awakeHere, State.call, member]
  | cons parent above =>
      obtain ⟨domain, present⟩ := sound.exists_domain member
      simp [State.awakeHere, State.call, member, present]

/-- The contexts of the frames end. -/
theorem Sound.endContexts {execTime : UInt64} {frames : List (Frame Id)} {completed : Bool}
    (sound : Sound state (frames.getLast?.map Frame.id))
    (open' : ∀ frame rest, frame :: rest <:+ frames → frame.id ∈ state.executions (path rest) ∧
      (∃ view ∈ state.view (path rest) frame.id, view.active = true) ∧
      ∀ domain, state.nested (path rest) = some domain →
        domain.context frame.id = some frame.context)
    (called : state.endContexts execTime frames completed = some next) :
    Sound next none ∧ Kept state next ∧
      ∀ place other view, other ∈ state.executions place → state.view place other = some view →
        ∃ after, next.view place other = some after ∧
          (other :: place = path frames → view.Ended completed after) ∧
          (other :: place ≠ path frames → other :: place <:+ path frames →
            view.Ended false after) ∧
          (¬ other :: place <:+ path frames → after = view) := by
  induction frames generalizing state completed with
  | nil =>
      cases called
      exact ⟨sound, .refl _, fun place other view _ viewed =>
        ⟨view, viewed, nofun, fun _ within => absurd within (by simp [path]), fun _ => rfl⟩⟩
  | cons frame rest ih =>
      obtain ⟨middle, first, others⟩ := Option.bind_eq_some_iff.mp called
      obtain ⟨member, ⟨before, viewed, active⟩, context⟩ := open' frame rest (List.suffix_refl _)
      have bottom : path rest = [] → (frame :: rest).getLast?.map Frame.id = some frame.id := by
        intro outermost
        obtain rfl := List.map_eq_nil_iff.mp outermost
        rfl
      obtain ⟨left, ended, held, turned⟩ :=
        sound.endContext member viewed active bottom context first
      have running : (if path rest = [] then none else (frame :: rest).getLast?.map Frame.id) =
          rest.getLast?.map Frame.id := by
        cases rest with
        | nil => rfl
        | cons outer rest => simp [path]
      rw [running] at held
      have shorter {other : Frame Id} {lower : List (Frame Id)} (within : other :: lower <:+ rest) :
          path lower ≠ path rest := by
        intro same
        have lengths := congrArg List.length same
        have bounded := within.length_le
        simp only [path, List.length_map, List.length_cons] at lengths bounded
        omega
      obtain ⟨finally_, kept, views⟩ := ih held (by
        intro other lower within
        obtain ⟨member, ⟨view, viewed, active⟩, context⟩ :=
          open' other lower (within.trans (List.suffix_cons _ _))
        refine ⟨turned.kept.executions ▸ member, ⟨view, ?_, active⟩, fun domain present =>
          turned.kept.context present context⟩
        rw [turned.views _ _ member, if_neg fun both => shorter within both.1]
        exact viewed) others
      refine ⟨finally_, turned.kept.trans kept, fun place other view known seen => ?_⟩
      have between := turned.views place other known
      by_cases here : place = path rest ∧ other = frame.id
      · obtain ⟨rfl, rfl⟩ := here
        rw [if_pos ⟨rfl, rfl⟩] at between
        obtain ⟨after, shown, _, _, same⟩ := views _ _ _ (turned.kept.executions ▸ known) between
        have outside : ¬ frame.id :: path rest <:+ path rest := by
          intro within
          have bounded := within.length_le
          simp at bounded
        obtain rfl := same outside
        obtain rfl := Option.some.inj (viewed.symm.trans seen)
        exact ⟨after, shown, fun _ => ended, fun different => absurd rfl different,
          fun outside => absurd (List.suffix_refl _) outside⟩
      · rw [if_neg here, seen] at between
        obtain ⟨after, shown, top, below, same⟩ :=
          views _ _ _ (turned.kept.executions ▸ known) between
        have apart : other :: place ≠ path (frame :: rest) := by
          intro equal
          obtain ⟨rfl, rfl⟩ := List.cons.inj equal
          exact here ⟨rfl, rfl⟩
        have within : other :: place <:+ path (frame :: rest) ↔ other :: place <:+ path rest := by
          constructor
          · intro within
            exact (List.suffix_cons_iff.mp within).resolve_left apart
          · intro within
            exact within.trans (List.suffix_cons _ _)
        refine ⟨after, shown, fun equal => absurd equal apart, fun _ inside => ?_, fun outside =>
          same fun inside => outside (within.mpr inside)⟩
        by_cases equal : other :: place = path rest
        · exact top equal
        · exact below equal (within.mp inside)

end Asco.Core.Worker.Tree
