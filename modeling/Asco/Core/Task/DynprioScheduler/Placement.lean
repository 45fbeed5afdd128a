import Asco.Core.Task.DynprioScheduler.Refinement

namespace Asco.Core.Task.DynprioScheduler.Placement

open Foundation

/-! # Where the executions of a scheduler are

The worker thread attaches, schedules, suspends, ends and detaches executions in any
order, while any thread wakes any execution.  An attached execution is in exactly one
place all the time: a container of the scheduler, or the hands of the thread that moves it
from one container to another.
-/

variable {Thread Id : Type*} [DecidableEq Id]

/-- What the worker thread calls; `schedule` names the execution that it yields. -/
inductive Call (Id : Type*) where
  | attachExecution (id : Id)
  | detachSuspendedExecution (id : Id)
  | schedule (id : Id)
  | suspendCurrent
  | endContext (completed : Bool)

/-- The worker thread between two calls or inside one of them. -/
inductive Worker (Id : Type*) where
  | between
  | attachInsert (id : Id)
  | attachPush (id : Id)
  | detachRemove (id : Id)
  | detachErase (id : Id)
  | current (pc : WorkerPc)

/-- `scheduled` is the execution that `schedule` has yielded, until `end` gives it to a
container. -/
structure State (Thread Id : Type*) where
  scheduler : Scheduler Id
  worker : Worker Id
  scheduled : Option Id
  awakers : Thread → AwakePc Id

inductive Label (Thread Id : Type*) where
  | call (call : Call Id)
  | worker (execTime : UInt64)
  | awake (thread : Thread) (id : Id)
  | awaker (thread : Thread)

/-- `suspend_current` and `end` return. -/
def Worker.resume : WorkerPc → Worker Id
  | .returned | .ended => .between
  | pc => .current pc

/-- The step of `end` that gives the execution to a container. -/
def givesBack : WorkerPc → Bool
  | .endInsert | .endPush => true
  | _ => false

namespace State

def call (state : State Thread Id) : Call Id → Option (State Thread Id)
  | .attachExecution id => some { state with worker := .attachInsert id }
  | .detachSuspendedExecution id => some { state with worker := .detachRemove id }
  | .schedule id =>
      -- the worker ends an execution before it schedules another one
      if state.scheduled = none then
        (state.scheduler.schedule id).map fun next =>
          { state with scheduler := next, scheduled := some id }
      else none
  | .suspendCurrent => some { state with worker := .current .suspendContains }
  | .endContext completed =>
      if state.scheduled.isSome then some { state with worker := .current (.endFlag completed) }
      else none

/-- One operation of the worker thread on a container. -/
def workerStep (state : State Thread Id) (execTime : UInt64) : Option (State Thread Id) :=
  match state.worker with
  | .between => none
  | .attachInsert id =>
      -- the assertion that the context is new
      if id ∈ state.scheduler.contexts then none
      else
        some { state with
          scheduler :=
            { state.scheduler with contexts := insert id state.scheduler.contexts }
          worker := .attachPush id }
  | .attachPush id =>
      some { state with
        scheduler :=
          { state.scheduler with active := { id, priority := 0 } :: state.scheduler.active }
        worker := .between }
  | .detachRemove id =>
      if id ∈ state.scheduler.suspended then
        some { state with
          scheduler :=
            { state.scheduler with suspended := state.scheduler.suspended.erase id }
          worker := .detachErase id }
      else some { state with worker := .between }
  | .detachErase id =>
      some { state with
        scheduler := { state.scheduler with contexts := state.scheduler.contexts.erase id }
        worker := .between }
  | .current pc =>
      (state.scheduler.workerStep execTime pc).map fun next =>
        { state with
          scheduler := next.1
          worker := Worker.resume next.2
          scheduled := if givesBack pc then none else state.scheduled }

def move [DecidableEq Thread] (state : State Thread Id) : Label Thread Id → Option (State Thread Id)
  | .call call =>
      match state.worker with
      | .between => state.call call
      | _ => none
  | .worker execTime => state.workerStep execTime
  | .awake thread id =>
      if state.awakers thread = .outside then
        some { state with awakers := Function.update state.awakers thread (.contains id) }
      else none
  | .awaker thread =>
      (state.scheduler.awakeStep (state.awakers thread)).map fun next =>
        { state with
          scheduler := next.1, awakers := Function.update state.awakers thread next.2 }

/-- Nothing is attached, and no call is going on. -/
def Starts (state : State Thread Id) : Prop :=
  state.scheduler.active = [] ∧ state.scheduler.suspended = ∅ ∧ state.scheduler.contexts = ∅ ∧
    state.worker = .between ∧ state.scheduled = none ∧ ∀ thread, state.awakers thread = .outside

end State

def machine (Thread Id : Type*) [DecidableEq Thread] [DecidableEq Id] :
    Machine (State Thread Id) (Label Thread Id) where
  start := State.Starts
  move := State.move

/-! ## Places -/

inductive Place (Thread : Type*) where
  | active
  | suspended
  | scheduled
  | attaching
  | detaching
  | awaking (thread : Thread)

def State.At (state : State Thread Id) (id : Id) : Place Thread → Prop
  | .active => id ∈ state.scheduler.active.map (·.id)
  | .suspended => id ∈ state.scheduler.suspended
  | .scheduled => state.scheduled = some id
  | .attaching => state.worker = .attachPush id
  | .detaching => state.worker = .detachErase id
  | .awaking thread => state.awakers thread = .push id

/-- The current execution is still the scheduled one while `end` has not given it to a
container. -/
def Ending : Worker Id → Prop → Prop
  | .current .returned, _ => False
  | .current (.endFlag _), scheduled | .current (.endPreawake _), scheduled
  | .current .endInsert, scheduled | .current .endErase, scheduled
  | .current .endPush, scheduled => scheduled
  | _, _ => True

structure Placed (state : State Thread Id) : Prop where
  distinct : (state.scheduler.active.map (·.id)).Nodup
  unique : ∀ id place other, state.At id place → state.At id other → place = other
  attached : ∀ id, id ∈ state.scheduler.contexts ↔ ∃ place, state.At id place
  current : ∀ id, state.scheduled = some id → state.scheduler.current.id = id
  ending : Ending state.worker (state.scheduled = some state.scheduler.current.id)

variable {state next : State Thread Id} {id : Id}

/-- A step takes one execution from one place to another; one that attaches it has no
source, one that detaches it has no target. -/
structure Moves (state next : State Thread Id) (id : Id) (source target : Option (Place Thread)) :
    Prop where
  stood : ∀ place ∈ source, state.At id place
  fresh : source = none → id ∉ state.scheduler.contexts
  places : ∀ other place, next.At other place ↔
    other = id ∧ target = some place ∨ state.At other place ∧ ¬ (other = id ∧ source = some place)
  contexts : ∀ other, other ∈ next.scheduler.contexts ↔
    if other = id then target.isSome = true else other ∈ state.scheduler.contexts

/-- The execution is nowhere but in the source. -/
theorem Moves.vacates {source target : Option (Place Thread)}
    (moves : Moves state next id source target) (placed : Placed state) (place : Place Thread) :
    next.At id place ↔ target = some place := by
  rw [moves.places]
  constructor
  · intro either
    rcases either with ⟨_, arrives⟩ | ⟨stood, elsewhere⟩
    · exact arrives
    · exfalso
      cases origin : source with
      | none => exact moves.fresh origin ((placed.attached id).mpr ⟨place, stood⟩)
      | some left =>
          have same := placed.unique id place left stood (moves.stood left origin)
          exact elsewhere ⟨rfl, same ▸ origin⟩
  · intro arrives
    exact .inl ⟨rfl, arrives⟩

theorem Moves.others {source target : Option (Place Thread)}
    (moves : Moves state next id source target) {other : Id} (different : other ≠ id)
    (place : Place Thread) : next.At other place ↔ state.At other place := by
  rw [moves.places]
  simp [different]

theorem Moves.placed {source target : Option (Place Thread)}
    (moves : Moves state next id source target) (placed : Placed state)
    (distinct : (next.scheduler.active.map (·.id)).Nodup)
    (current : ∀ id, next.scheduled = some id → next.scheduler.current.id = id)
    (ending : Ending next.worker (next.scheduled = some next.scheduler.current.id)) :
    Placed next where
  distinct := distinct
  unique other place another stands also := by
    by_cases same : other = id
    · subst same
      rw [moves.vacates placed] at stands also
      exact Option.some.inj (stands.symm.trans also)
    · rw [moves.others same] at stands also
      exact placed.unique other place another stands also
  attached other := by
    rw [moves.contexts]
    split
    · rename_i same
      subst same
      simp only [moves.vacates placed, Option.isSome_iff_exists]
    · rename_i different
      simp only [moves.others different, placed.attached]
  current := current
  ending := ending

/-- A step between two places leaves the attached executions as they are. -/
theorem Moves.between {source target : Place Thread} (placed : Placed state)
    (stood : state.At id source)
    (places : ∀ other place, next.At other place ↔
      other = id ∧ target = place ∨ state.At other place ∧ ¬ (other = id ∧ source = place))
    (contexts : next.scheduler.contexts = state.scheduler.contexts) :
    Moves state next id (some source) (some target) where
  stood place origin := by
    cases origin
    exact stood
  fresh absent := by contradiction
  places other place := by simp only [Option.some.injEq, places]
  contexts other := by
    rw [contexts]
    split
    · rename_i same
      have attached := (placed.attached id).mpr ⟨source, stood⟩
      simp [same, attached]
    · rfl

omit [DecidableEq Id] in
/-- A step that takes no execution anywhere. -/
theorem Placed.stays (placed : Placed state)
    (places : ∀ other place, next.At other place ↔ state.At other place)
    (contexts : next.scheduler.contexts = state.scheduler.contexts)
    (active : next.scheduler.active = state.scheduler.active)
    (current : next.scheduler.current = state.scheduler.current)
    (ending : Ending next.worker (state.scheduled = some state.scheduler.current.id)) :
    Placed next where
  distinct := by rw [active]; exact placed.distinct
  unique other place another stands also :=
    placed.unique other place another ((places _ _).mp stands) ((places _ _).mp also)
  attached other := by
    rw [contexts, placed.attached]
    exact exists_congr fun place => (places other place).symm
  current other scheduled := by
    rw [current]
    exact placed.current other ((places other .scheduled).mp scheduled)
  ending := by
    rw [current]
    exact (propext (places state.scheduler.current.id .scheduled) :
      (next.scheduled = some _) = _) ▸ ending

omit [DecidableEq Id] in
/-- A waking thread goes on without an execution in its hands. -/
theorem Placed.walks [DecidableEq Thread] (placed : Placed state) {thread : Thread}
    {pc : AwakePc Id}
    {scheduler : Scheduler Id} (before : ∀ id, state.awakers thread ≠ .push id)
    (after : ∀ id, pc ≠ .push id) (active : scheduler.active = state.scheduler.active)
    (suspended : scheduler.suspended = state.scheduler.suspended)
    (contexts : scheduler.contexts = state.scheduler.contexts)
    (current : scheduler.current = state.scheduler.current) :
    Placed { state with scheduler, awakers := Function.update state.awakers thread pc } := by
  refine placed.stays (fun other place => ?_) contexts active current placed.ending
  cases place with
  | active => simp [State.At, active]
  | suspended => simp [State.At, suspended]
  | awaking waking =>
      by_cases same : waking = thread
      · subst same
        simp [State.At, before, after]
      · simp [State.At, same]
  | _ => rfl

theorem Placed.awake_remove [DecidableEq Thread] (placed : Placed state) {thread : Thread}
    (standing : state.awakers thread = .remove id) (found : id ∈ state.scheduler.suspended) :
    Placed { state with
      scheduler := { state.scheduler with suspended := state.scheduler.suspended.erase id }
      awakers := Function.update state.awakers thread (.push id) } := by
  have moves : Moves state { state with
      scheduler := { state.scheduler with suspended := state.scheduler.suspended.erase id }
      awakers := Function.update state.awakers thread (.push id) } id (some .suspended)
      (some (.awaking thread)) := by
    refine .between placed found (fun other place => ?_) rfl
    cases place with
    | suspended => simp [State.At, and_comm]
    | awaking waking =>
        by_cases same : waking = thread
        · subst same
          simp [State.At, standing, eq_comm]
        · simp [State.At, same, Ne.symm same]
    | _ => simp [State.At]
  exact moves.placed placed placed.distinct placed.current placed.ending

theorem Placed.awake_push [DecidableEq Thread] (placed : Placed state) {thread : Thread}
    (standing : state.awakers thread = .push id) :
    Placed { state with
      scheduler :=
        { state.scheduler with active := { id, priority := 0 } :: state.scheduler.active }
      awakers := Function.update state.awakers thread (.activate id) } := by
  have moves : Moves state { state with
      scheduler :=
        { state.scheduler with active := { id, priority := 0 } :: state.scheduler.active }
      awakers := Function.update state.awakers thread (.activate id) } id
      (some (.awaking thread)) (some .active) := by
    refine .between placed standing (fun other place => ?_) rfl
    cases place with
    | active => simp [State.At]
    | awaking waking =>
        by_cases same : waking = thread
        · subst same
          simp [State.At, standing, eq_comm]
        · simp [State.At, same, Ne.symm same]
    | _ => simp [State.At]
  refine moves.placed placed ?_ placed.current placed.ending
  rw [List.map_cons, List.nodup_cons]
  refine ⟨fun queued => ?_, placed.distinct⟩
  cases placed.unique id .active (.awaking thread) queued standing

/-- A wake-up on its way to a container. -/
theorem Placed.awaker [DecidableEq Thread] (placed : Placed state) {thread : Thread}
    (moved : state.move (.awaker thread) = some next) : Placed next := by
  obtain ⟨⟨scheduler, pc⟩, stepped, rfl⟩ := Option.map_eq_some_iff.mp moved
  cases standing : state.awakers thread with
  | outside =>
      rw [standing] at stepped
      cases stepped
  | contains id =>
      simp only [standing, Scheduler.awakeStep] at stepped
      split at stepped <;> cases stepped
      · exact placed.walks (by simp [standing]) (by simp) rfl rfl rfl rfl
      · exact placed.walks (by simp [standing]) (by simp) rfl rfl rfl rfl
  | remove id =>
      simp only [standing, Scheduler.awakeStep] at stepped
      split at stepped <;> cases stepped
      · rename_i found
        exact placed.awake_remove standing found
      · exact placed.walks (by simp [standing]) (by simp) rfl rfl rfl rfl
  | push id =>
      rw [standing] at stepped
      cases stepped
      exact placed.awake_push standing
  | activate id =>
      rw [standing] at stepped
      cases stepped
      exact placed.walks (by simp [standing]) (by simp) rfl rfl rfl rfl
  | preawake id =>
      rw [standing] at stepped
      cases stepped
      exact placed.walks (by simp [standing]) (by simp) rfl rfl rfl rfl

omit [DecidableEq Id] in
/-- The worker thread goes on without an execution in its hands. -/
theorem Placed.works (placed : Placed state) {worker : Worker Id} {scheduler : Scheduler Id}
    (before : ∀ id, state.worker ≠ .attachPush id ∧ state.worker ≠ .detachErase id)
    (after : ∀ id, worker ≠ .attachPush id ∧ worker ≠ .detachErase id)
    (active : scheduler.active = state.scheduler.active)
    (suspended : scheduler.suspended = state.scheduler.suspended)
    (contexts : scheduler.contexts = state.scheduler.contexts)
    (current : scheduler.current = state.scheduler.current)
    (ending : Ending worker (state.scheduled = some state.scheduler.current.id)) :
    Placed { state with scheduler, worker } := by
  refine placed.stays (fun other place => ?_) contexts active current ending
  cases place with
  | active => simp [State.At, active]
  | suspended => simp [State.At, suspended]
  | attaching => simp [State.At, before, after]
  | detaching => simp [State.At, before, after]
  | _ => rfl

theorem Placed.attachInsert (placed : Placed state) (standing : state.worker = .attachInsert id)
    (fresh : id ∉ state.scheduler.contexts) :
    Placed { state with
      scheduler := { state.scheduler with contexts := insert id state.scheduler.contexts }
      worker := .attachPush id } := by
  have moves : Moves state { state with
      scheduler := { state.scheduler with contexts := insert id state.scheduler.contexts }
      worker := .attachPush id } id none (some .attaching) := by
    constructor
    · intro place absent
      contradiction
    · intro _
      exact fresh
    · intro other place
      cases place with
      | attaching => simp [State.At, standing, eq_comm]
      | detaching => simp [State.At, standing]
      | _ => simp [State.At]
    · intro other
      by_cases same : other = id
      · simp [same]
      · simp [same]
  exact moves.placed placed placed.distinct placed.current trivial

theorem Placed.attachPush (placed : Placed state) (standing : state.worker = .attachPush id) :
    Placed { state with
      scheduler :=
        { state.scheduler with active := { id, priority := 0 } :: state.scheduler.active }
      worker := .between } := by
  have moves : Moves state { state with
      scheduler :=
        { state.scheduler with active := { id, priority := 0 } :: state.scheduler.active }
      worker := .between } id (some .attaching) (some .active) := by
    refine .between placed standing (fun other place => ?_) rfl
    cases place with
    | active => simp [State.At]
    | attaching => simp [State.At, standing, eq_comm]
    | detaching => simp [State.At, standing]
    | _ => simp [State.At]
  refine moves.placed placed ?_ placed.current trivial
  rw [List.map_cons, List.nodup_cons]
  refine ⟨fun queued => ?_, placed.distinct⟩
  cases placed.unique id .active .attaching queued standing

theorem Placed.detachRemove (placed : Placed state) (standing : state.worker = .detachRemove id)
    (found : id ∈ state.scheduler.suspended) :
    Placed { state with
      scheduler := { state.scheduler with suspended := state.scheduler.suspended.erase id }
      worker := .detachErase id } := by
  have moves : Moves state { state with
      scheduler := { state.scheduler with suspended := state.scheduler.suspended.erase id }
      worker := .detachErase id } id (some .suspended) (some .detaching) := by
    refine .between placed found (fun other place => ?_) rfl
    cases place with
    | suspended => simp [State.At, and_comm]
    | _ => simp [State.At, standing, eq_comm]
  exact moves.placed placed placed.distinct placed.current trivial

theorem Placed.detachErase (placed : Placed state) (standing : state.worker = .detachErase id) :
    Placed { state with
      scheduler := { state.scheduler with contexts := state.scheduler.contexts.erase id }
      worker := .between } := by
  have moves : Moves state { state with
      scheduler := { state.scheduler with contexts := state.scheduler.contexts.erase id }
      worker := .between } id (some .detaching) none := by
    constructor
    · intro place stood
      cases stood
      exact standing
    · intro absent
      contradiction
    · intro other place
      cases place with
      | attaching => simp [State.At, standing]
      | detaching => simp [State.At, standing, eq_comm]
      | _ => simp [State.At]
    · intro other
      by_cases same : other = id
      · simp [same]
      · simp [same]
  exact moves.placed placed placed.distinct placed.current trivial

theorem Placed.schedule (placed : Placed state) {scheduler : Scheduler Id}
    (standing : state.worker = .between) (free : state.scheduled = none)
    (yields : state.scheduler.schedule id = some scheduler) :
    Placed { state with scheduler, scheduled := some id } := by
  obtain ⟨entry, listed, rfl, _, rfl⟩ := Scheduler.schedule_spec yields
  have taken := (List.perm_cons_erase listed).map (·.id)
  have distinct := taken.nodup_iff.mp placed.distinct
  simp only [List.map_cons, List.nodup_cons] at distinct
  have queued := List.mem_map_of_mem (f := (·.id)) listed
  have moves : Moves state { state with
      scheduler := { state.scheduler with
        current := entry, active := state.scheduler.active.erase entry }
      scheduled := some entry.id } entry.id (some .active) (some .scheduled) := by
    refine .between placed queued (fun other place => ?_) rfl
    cases place with
    | active =>
        simp only [State.At, taken.mem_iff, List.map_cons, List.mem_cons]
        by_cases same : other = entry.id
        · simp [same, distinct.1]
        · simp [same]
    | _ => simp [State.At, free, eq_comm]
  refine moves.placed placed distinct.2 ?_ ?_
  · intro other scheduled
    cases scheduled
    rfl
  · rw [standing]
    trivial

/-- `end` leaves the execution suspended. -/
theorem Placed.endInsert (placed : Placed state) (standing : state.worker = .current .endInsert) :
    Placed { state with
      scheduler := { state.scheduler with
        suspended := insert state.scheduler.current.id state.scheduler.suspended }
      worker := .current .endDomainSuspend
      scheduled := none } := by
  have scheduled : state.scheduled = some state.scheduler.current.id := by
    have ending := placed.ending
    rw [standing] at ending
    exact ending
  have moves : Moves state { state with
      scheduler := { state.scheduler with
        suspended := insert state.scheduler.current.id state.scheduler.suspended }
      worker := .current .endDomainSuspend
      scheduled := none } state.scheduler.current.id (some .scheduled) (some .suspended) := by
    refine .between placed scheduled (fun other place => ?_) rfl
    cases place with
    | scheduled => simp [State.At, scheduled, eq_comm]
    | _ => simp [State.At, standing]
  exact moves.placed placed placed.distinct (by simp) trivial

/-- `end` leaves the execution active. -/
theorem Placed.endPush (placed : Placed state) (execTime : UInt64)
    (standing : state.worker = .current .endPush) :
    Placed { state with
      scheduler := { state.scheduler with
        active := { state.scheduler.current with
          priority := state.scheduler.current.priority + execTime } :: state.scheduler.active }
      worker := .current .endDomainActivate
      scheduled := none } := by
  have scheduled : state.scheduled = some state.scheduler.current.id := by
    have ending := placed.ending
    rw [standing] at ending
    exact ending
  have moves : Moves state { state with
      scheduler := { state.scheduler with
        active := { state.scheduler.current with
          priority := state.scheduler.current.priority + execTime } :: state.scheduler.active }
      worker := .current .endDomainActivate
      scheduled := none } state.scheduler.current.id (some .scheduled) (some .active) := by
    refine .between placed scheduled (fun other place => ?_) rfl
    cases place with
    | scheduled => simp [State.At, scheduled, eq_comm]
    | _ => simp [State.At, standing]
  refine moves.placed placed ?_ (by simp) trivial
  rw [List.map_cons, List.nodup_cons]
  refine ⟨fun queued => ?_, placed.distinct⟩
  cases placed.unique _ .active .scheduled queued scheduled

omit [DecidableEq Id] in
/-- The scheduled execution is not in the suspended set. -/
theorem Placed.awake (placed : Placed state) (scheduled : state.scheduled = some id) :
    id ∉ state.scheduler.suspended := by
  intro suspended
  cases placed.unique id .scheduled .suspended scheduled suspended

/-- The other steps of `suspend_current` and `end`. -/
theorem workerStep_frame {scheduler after : Scheduler Id} {pc last : WorkerPc} {execTime : UInt64}
    (stepped : scheduler.workerStep execTime pc = some (after, last))
    (erases : pc ≠ .endErase) (keeps : givesBack pc = false) :
    after.active = scheduler.active ∧ after.suspended = scheduler.suspended ∧
      after.contexts = scheduler.contexts ∧ after.current = scheduler.current ∧
      ∀ scheduled, Ending (.current pc : Worker Id) scheduled →
        Ending (Worker.resume last : Worker Id) scheduled := by
  cases Scheduler.workerStep_cases stepped with
  | endInsert => contradiction
  | endPush => contradiction
  | endErase => contradiction
  | returned => exact ⟨rfl, rfl, rfl, rfl, fun _ ending => ending.elim⟩
  | _ => exact ⟨rfl, rfl, rfl, rfl, fun _ ending => ending⟩

/-- A step of `suspend_current` or `end`. -/
theorem Placed.current_step (placed : Placed state) {pc : WorkerPc} {execTime : UInt64}
    (standing : state.worker = .current pc) (moved : state.workerStep execTime = some next) :
    Placed next := by
  have outside : ∀ id, state.worker ≠ .attachPush id ∧ state.worker ≠ .detachErase id := by
    simp [standing]
  have ending := placed.ending
  rw [standing] at ending
  simp only [State.workerStep, standing] at moved
  obtain ⟨⟨scheduler, last⟩, stepped, rfl⟩ := Option.map_eq_some_iff.mp moved
  have between (id : Id) : (Worker.resume last : Worker Id) ≠ .attachPush id ∧
      (Worker.resume last : Worker Id) ≠ .detachErase id := by
    unfold Worker.resume
    split <;> simp
  cases keeps : givesBack pc with
  | true =>
      cases pc <;> cases keeps <;> cases stepped
      · exact placed.endInsert standing
      · exact placed.endPush execTime standing
  | false =>
      by_cases erases : pc = .endErase
      · subst erases
        cases stepped
        exact placed.works outside between rfl (Finset.erase_eq_of_notMem (placed.awake ending))
          rfl rfl ending
      · obtain ⟨active, suspended, contexts, current, still⟩ :=
          workerStep_frame stepped erases keeps
        exact placed.works outside between active suspended contexts current
          (still _ ending)

/-- A step of the worker thread inside a call. -/
theorem Placed.worker_step [DecidableEq Thread] (placed : Placed state) {execTime : UInt64}
    (moved : state.move (.worker execTime) = some next) : Placed next := by
  cases standing : state.worker with
  | between =>
      simp [State.move, State.workerStep, standing] at moved
  | attachInsert id =>
      simp only [State.move, State.workerStep, standing] at moved
      obtain ⟨fresh, ⟨⟩⟩ := Option.ite_none_left_eq_some.mp moved
      exact placed.attachInsert standing fresh
  | attachPush id =>
      simp only [State.move, State.workerStep, standing] at moved
      cases moved
      exact placed.attachPush standing
  | detachRemove id =>
      simp only [State.move, State.workerStep, standing] at moved
      split at moved <;> cases moved
      · rename_i found
        exact placed.detachRemove standing found
      · exact placed.works (by simp [standing]) (by simp) rfl rfl rfl rfl trivial
  | detachErase id =>
      simp only [State.move, State.workerStep, standing] at moved
      cases moved
      exact placed.detachErase standing
  | current pc => exact placed.current_step standing moved

theorem Placed.call [DecidableEq Thread] (placed : Placed state) {call : Call Id}
    (moved : state.move (.call call) = some next) : Placed next := by
  cases standing : state.worker with
  | between =>
      simp only [State.move, standing] at moved
      cases call with
      | attachExecution id =>
          cases moved
          exact placed.works (by simp [standing]) (by simp) rfl rfl rfl rfl trivial
      | detachSuspendedExecution id =>
          cases moved
          exact placed.works (by simp [standing]) (by simp) rfl rfl rfl rfl trivial
      | schedule id =>
          obtain ⟨free, yielded⟩ := Option.ite_none_right_eq_some.mp moved
          obtain ⟨scheduler, yields, rfl⟩ := Option.map_eq_some_iff.mp yielded
          exact placed.schedule standing free yields
      | suspendCurrent =>
          cases moved
          exact placed.works (by simp [standing]) (by simp) rfl rfl rfl rfl trivial
      | endContext completed =>
          obtain ⟨scheduled, ⟨⟩⟩ := Option.ite_none_right_eq_some.mp moved
          obtain ⟨id, yielded⟩ := Option.isSome_iff_exists.mp scheduled
          refine placed.works (by simp [standing]) (by simp) rfl rfl rfl rfl ?_
          show state.scheduled = some state.scheduler.current.id
          rw [placed.current id yielded, yielded]
  | _ => simp [State.move, standing] at moved

omit [DecidableEq Id] in
theorem starts_placed (starts : state.Starts) : Placed state := by
  obtain ⟨active, suspended, contexts, worker, scheduled, awakers⟩ := starts
  have nowhere (id : Id) (place : Place Thread) : ¬ state.At id place := by
    cases place with
    | active => simp [State.At, active]
    | suspended => simp [State.At, suspended]
    | scheduled => simp [State.At, scheduled]
    | attaching => simp [State.At, worker]
    | detaching => simp [State.At, worker]
    | awaking thread => simp [State.At, awakers]
  constructor
  · simp [active]
  · intro id place other stands
    exact absurd stands (nowhere id place)
  · intro id
    simp [contexts, nowhere]
  · simp [scheduled]
  · rw [worker]
    trivial

theorem placed_of_reachable [DecidableEq Thread]
    (reachable : (machine Thread Id).Reachable Machine.free state) :
    Placed state := by
  refine reachable.invariant (fun first starts => starts_placed starts) ?_
  intro state label next placed _ moved
  cases label with
  | call call => exact placed.call moved
  | worker execTime => exact placed.worker_step moved
  | awake thread id =>
      obtain ⟨outside, ⟨⟩⟩ := Option.ite_none_right_eq_some.mp moved
      exact placed.walks (by simp [outside]) (by simp) rfl rfl rfl rfl
  | awaker thread => exact placed.awaker moved

/-- No execution is queued twice: an execution has at most one entry in the priority queue,
and none while it is suspended or is the one that is scheduled. -/
theorem queued_once [DecidableEq Thread]
    (reachable : (machine Thread Id).Reachable Machine.free state) (id : Id) :
    (state.scheduler.active.map (·.id)).count id ≤ 1 ∧
      (id ∈ state.scheduler.active.map (·.id) →
        id ∉ state.scheduler.suspended ∧ state.scheduled ≠ some id) := by
  have placed := placed_of_reachable reachable
  refine ⟨List.nodup_iff_count_le_one.mp placed.distinct id, fun queued => ⟨?_, ?_⟩⟩
  · intro suspended
    cases placed.unique id .active .suspended queued suspended
  · intro scheduled
    cases placed.unique id .active .scheduled queued scheduled

/-- The worker suspends an execution while another thread wakes it twice. -/
def wakeUps : List (Label (Fin 1) (Fin 1)) :=
  let worker := List.replicate 5 (.worker 1)
  let awake : List (Label (Fin 1) (Fin 1)) := .awake 0 0 :: List.replicate 4 (.awaker 0)
  .call (.attachExecution 0) :: List.replicate 2 (.worker 1) ++
    .call (.schedule 0) :: .call .suspendCurrent :: List.replicate 4 (.worker 1) ++
    .call (.endContext false) :: worker ++ awake ++ .awake 0 0 :: List.replicate 3 (.awaker 0)

def unattached : State (Fin 1) (Fin 1) where
  scheduler :=
    { current := { id := 0, priority := 0 }
      currentSuspend := false
      active := []
      suspended := ∅
      preawake := ∅
      contexts := ∅
      domain := fun _ => .active }
  worker := .between
  scheduled := none
  awakers _ := .outside

theorem queued_once_woken : ∃ state : State (Fin 1) (Fin 1),
    (machine (Fin 1) (Fin 1)).Reachable Machine.free state ∧
      0 ∈ state.scheduler.active.map (·.id) ∧ 0 ∈ state.scheduler.preawake ∧
      (state.scheduler.active.map (·.id)).count 0 ≤ 1 ∧
      (0 ∈ state.scheduler.active.map (·.id) →
        0 ∉ state.scheduler.suspended ∧ state.scheduled ≠ some 0) := by
  obtain ⟨state, reachable, queued, woken⟩ :=
    Machine.reachable_of_exec (machine (Fin 1) (Fin 1)) Machine.free unattached wakeUps
      (fun state => 0 ∈ state.scheduler.active.map (·.id) ∧ 0 ∈ state.scheduler.preawake)
      ⟨rfl, rfl, rfl, rfl, rfl, fun _ => rfl⟩ ⟨_, rfl, by decide⟩
  exact ⟨state, reachable, queued, woken, queued_once reachable 0⟩

end Asco.Core.Task.DynprioScheduler.Placement
