import Asco.Core.Task.DynprioScheduler.Members

namespace Asco.Core.Task.DynprioScheduler.Forgetting

open Foundation

/-! # What a `dynprio_scheduler` keeps of a detached execution

The calls of one thread in any order, but for what the worker promises: it ends
the context it has scheduled before it schedules another one.
-/

variable {Id : Type*} [DecidableEq Id]

/-- How the history of an execution stands.  `clean` says that when it ended
with `end(true)` no wake-up was noted for it, and that none has come before it
was detached. -/
inductive Record where
  | live
  | ended (clean : Bool)
  | detached (clean : Bool)
deriving DecidableEq

def Record.awoken : Record → Record
  | .ended _ => .ended false
  | record => record

def Record.detach : Record → Record
  | .ended clean => .detached clean
  | record => record

/-- A scheduler, the execution whose context is open, and the history of every
execution. -/
structure State (Id : Type*) where
  scheduler : Scheduler Id
  context : Option Id
  record : Id → Record

namespace State

def noted (state : State Id) (id : Id) (record : Record) : Id → Record :=
  Function.update state.record id record

/-- `end` looks into the pre-awake set only after a suspension was asked for. -/
def endsClean (state : State Id) (id : Id) : Bool :=
  state.scheduler.currentSuspend || id ∉ state.scheduler.preawake

def perform (state : State Id) : Event Id → Option (State Id)
  | .attach id =>
      (state.scheduler.attachExecution id).map fun next =>
        { state with scheduler := next, record := state.noted id .live }
  | .schedule id =>
      if state.context = none then
        (state.scheduler.schedule id).map fun next =>
          { scheduler := next.recordState id .running, context := some id,
            record := state.noted id .live }
      else none
  | .suspend id =>
      if state.context = some id then
        some { state with scheduler := state.scheduler.suspendCurrent }
      else none
  | .finish id completed execTime =>
      if state.context = some id then
        some
          { scheduler := state.scheduler.endContext completed execTime, context := none,
            record := if completed then state.noted id (.ended (state.endsClean id))
              else state.record }
      else none
  | .awake id =>
      some { state with
        scheduler := state.scheduler.awakeExecution id
        record := state.noted id (state.record id).awoken }
  | .detach id =>
      some { state with
        scheduler := state.scheduler.detachSuspendedExecution id
        record := state.noted id (state.record id).detach }

def empty (current : PrioritiedExecution Id) (domain : Id → ExecutionState) : State Id where
  scheduler :=
    { current, currentSuspend := false, active := [], suspended := ∅, preawake := ∅,
      contexts := ∅, domain }
  context := none
  record _ := .live

end State

def machine (current : PrioritiedExecution Id) (domain : Id → ExecutionState) :
    Machine (State Id) (Event Id) where
  start state := state = .empty current domain
  move := State.perform

/-- No container of the scheduler mentions the execution. -/
structure Forgotten (scheduler : Scheduler Id) (id : Id) : Prop where
  active : id ∉ scheduler.active.map (·.id)
  suspended : id ∉ scheduler.suspended
  preawake : id ∉ scheduler.preawake
  contexts : id ∉ scheduler.contexts

/-- The containers of a scheduler under another naming of the executions. -/
structure Containers (Id : Type*) where
  active : List (PrioritiedExecution Id)
  suspended : Finset Id
  preawake : Finset Id
  contexts : Finset Id
  currentSuspend : Bool

def containers (scheduler : Scheduler Id) (naming : Equiv.Perm Id) : Containers Id where
  active := scheduler.active.map fun entry => { entry with id := naming entry.id }
  suspended := scheduler.suspended.image naming
  preawake := scheduler.preawake.image naming
  contexts := scheduler.contexts.image naming
  currentSuspend := scheduler.currentSuspend

/-- Attaching the execution does what attaching any forgotten one does, up to
the names. -/
def AttachesAfresh (scheduler : Scheduler Id) (id : Id) : Prop :=
  ∀ other, Forgotten scheduler other →
    (scheduler.attachExecution id).map (containers · (.refl Id)) =
      (scheduler.attachExecution other).map (containers · (Equiv.swap other id))

section Afresh

variable {scheduler : Scheduler Id} {id other : Id}

theorem image_swap {set : Finset Id} (first : id ∉ set) (second : other ∉ set) :
    set.image (Equiv.swap other id) = set := by
  have same : Set.EqOn (Equiv.swap other id) (fun name => name) (set : Set Id) := by
    intro member inside
    refine Equiv.swap_apply_of_ne_of_ne ?_ ?_
    · rintro rfl
      exact second inside
    · rintro rfl
      exact first inside
  rw [Finset.image_congr same, Finset.image_id']

theorem Forgotten.attachesAfresh (forgotten : Forgotten scheduler id) :
    AttachesAfresh scheduler id := by
  intro other unseen
  have queue : scheduler.active.map (fun entry =>
      ({ entry with id := Equiv.swap other id entry.id } : PrioritiedExecution Id)) =
        scheduler.active.map fun entry => { entry with id := Equiv.refl Id entry.id } := by
    refine List.map_congr_left fun entry member => ?_
    have named : entry.id ∈ scheduler.active.map (·.id) := List.mem_map_of_mem member
    rw [Equiv.swap_apply_of_ne_of_ne]
    · rfl
    · rintro same
      exact unseen.active (same ▸ named)
    · rintro same
      exact forgotten.active (same ▸ named)
  simp only [Scheduler.attachExecution, forgotten.contexts, unseen.contexts, if_false,
    Option.map_some, containers, Finset.image_insert, Equiv.swap_apply_left, List.map_cons, queue,
    image_swap forgotten.suspended unseen.suspended,
    image_swap forgotten.preawake unseen.preawake, image_swap forgotten.contexts unseen.contexts]
  simp

end Afresh

/-! ## What each record says about the containers -/

def Record.Describes (scheduler : Scheduler Id) (id : Id) : Record → Prop
  | .live => True
  | .ended true => id ∈ scheduler.suspended ∧ id ∉ scheduler.preawake
  | .ended false => id ∈ scheduler.contexts ∧
      (id ∈ scheduler.suspended → id ∈ scheduler.preawake)
  | .detached true => id ∉ scheduler.contexts ∧ id ∉ scheduler.preawake
  | .detached false => (id ∈ scheduler.contexts ∧ id ∉ scheduler.suspended) ∨
      (id ∉ scheduler.contexts ∧ id ∈ scheduler.preawake)

structure State.Tidy (state : State Id) : Prop where
  holds : state.scheduler.Holds state.scheduler.contexts state.context
  live : ∀ id, state.context = some id → state.record id = .live
  recorded : ∀ id, (state.record id).Describes state.scheduler id

variable {state next : State Id} {id : Id}

/-- The containers say the same of an execution. -/
structure Unchanged (before after : Scheduler Id) (id : Id) : Prop where
  suspended : id ∈ after.suspended ↔ id ∈ before.suspended
  preawake : id ∈ after.preawake ↔ id ∈ before.preawake
  contexts : id ∈ after.contexts ↔ id ∈ before.contexts

omit [DecidableEq Id] in
theorem Record.Describes.congr {record : Record} {before after : Scheduler Id}
    (describes : record.Describes before id) (unchanged : Unchanged before after id) :
    record.Describes after id := by
  cases record with
  | live => trivial
  | ended clean | detached clean =>
      cases clean <;>
        simpa only [Describes, unchanged.suspended, unchanged.preawake, unchanged.contexts]
          using describes

/-- A call on one execution leaves the records of the others true. -/
theorem State.Tidy.others {scheduler : Scheduler Id} {record : Record} (tidy : state.Tidy)
    (unchanged : ∀ other, other ≠ id → Unchanged state.scheduler scheduler other)
    (own : record.Describes scheduler id) (other : Id) :
    (state.noted id record other).Describes scheduler other := by
  by_cases same : other = id
  · subst same
    rwa [State.noted, Function.update_self]
  · rw [State.noted, Function.update_of_ne same]
    exact (tidy.recorded other).congr (unchanged other same)

theorem State.Tidy.attach (tidy : state.Tidy) (moved : state.perform (.attach id) = some next) :
    next.Tidy := by
  obtain ⟨scheduler, attached, same⟩ := Option.map_eq_some_iff.mp moved
  subst same
  obtain ⟨unknown, holds, _⟩ := tidy.holds.attachExecution attached
  refine ⟨?_, ?_, ?_⟩
  · rw [holds.contexts]
    exact holds
  · intro other context
    have different : other ≠ id := by
      rintro rfl
      exact unknown (tidy.holds.current other context).2.1
    exact (Function.update_of_ne different _ _).trans (tidy.live other context)
  · refine tidy.others (fun other different => ?_) trivial
    obtain ⟨_, ⟨⟩⟩ := Option.ite_none_left_eq_some.mp attached
    exact ⟨Iff.rfl, Iff.rfl, by simp [different]⟩

theorem State.Tidy.schedule (tidy : state.Tidy)
    (moved : state.perform (.schedule id) = some next) : next.Tidy := by
  simp only [State.perform] at moved
  split at moved
  · rename_i idle
    obtain ⟨scheduler, yielded, same⟩ := Option.map_eq_some_iff.mp moved
    subst same
    have free := tidy.holds
    rw [idle] at free
    obtain ⟨_, _, holds, _⟩ := free.schedule yielded
    obtain ⟨entry, _, _, _, rfl⟩ := Scheduler.schedule_spec yielded
    refine ⟨(holds.recordState id .running).holds, ?_, ?_⟩
    · intro other scheduled
      rw [← Option.some.inj scheduled]
      exact Function.update_self _ _ _
    · exact tidy.others (fun other _ => ⟨Iff.rfl, Iff.rfl, Iff.rfl⟩) trivial
  · cases moved

theorem State.Tidy.suspend (tidy : state.Tidy)
    (moved : state.perform (.suspend id) = some next) : next.Tidy := by
  simp only [State.perform] at moved
  split at moved
  · rename_i scheduled
    cases moved
    have runs := tidy.holds
    rw [scheduled] at runs
    obtain ⟨_, _, turned⟩ := runs.suspendCurrent
    have current := (tidy.holds.current id scheduled).1
    have kept : state.scheduler.suspendCurrent.contexts = state.scheduler.contexts :=
      turned.holds.contexts
    refine ⟨?_, tidy.live, fun other => ?_⟩
    · rw [kept, scheduled]
      exact turned.holds
    · by_cases same : other = id
      · rw [same, tidy.live id scheduled]
        trivial
      · refine (tidy.recorded other).congr ?_
        rw [← current] at same
        unfold Scheduler.suspendCurrent
        split
        · split
          · exact ⟨Iff.rfl, by simp [same], Iff.rfl⟩
          · exact ⟨Iff.rfl, Iff.rfl, Iff.rfl⟩
        · exact ⟨Iff.rfl, Iff.rfl, Iff.rfl⟩
  · cases moved

theorem endContext_unchanged {scheduler : Scheduler Id} {completed : Bool} {execTime : UInt64}
    {other : Id} (different : other ≠ scheduler.current.id) :
    Unchanged scheduler (scheduler.endContext completed execTime) other := by
  have looked : other ∈ scheduler.preawakeAtEnd ↔ other ∈ scheduler.preawake := by
    unfold Scheduler.preawakeAtEnd
    split
    · simp [different]
    · rfl
  simp only [Scheduler.endContext]
  split
  · exact ⟨by simp [different], looked, Iff.rfl⟩
  · exact ⟨by simp [different], looked, Iff.rfl⟩

theorem State.Tidy.finish {completed : Bool} {execTime : UInt64} (tidy : state.Tidy)
    (moved : state.perform (.finish id completed execTime) = some next) : next.Tidy := by
  simp only [State.perform] at moved
  split at moved
  · rename_i scheduled
    cases moved
    have runs := tidy.holds
    rw [scheduled] at runs
    obtain ⟨current, known, _⟩ := tidy.holds.current id scheduled
    have holds : (state.scheduler.endContext completed execTime).Holds state.scheduler.contexts
        none := by
      obtain ⟨_, _, turned⟩ := runs.endContext
      exact turned.holds
    have others (other : Id) (different : other ≠ id) : Unchanged state.scheduler
        (state.scheduler.endContext completed execTime) other :=
      endContext_unchanged (by rw [current]; exact different)
    refine ⟨?_, (fun _ context => by cases context), ?_⟩
    · rw [holds.contexts]
      exact holds
    · cases completed with
      | false =>
          intro other
          by_cases same : other = id
          · simp only [same, Bool.false_eq_true, if_false]
            rw [tidy.live id scheduled]
            trivial
          · exact (tidy.recorded other).congr (others other same)
      | true =>
          refine tidy.others others ?_
          have ended : state.scheduler.endContext true execTime =
              { ({ state.scheduler with preawake := state.scheduler.preawakeAtEnd } :
                  Scheduler Id).recordState state.scheduler.current.id .suspended with
                suspended := insert state.scheduler.current.id state.scheduler.suspended
                currentSuspend := false } :=
            if_pos (.inr rfl)
          rw [ended]
          simp only [State.endsClean]
          cases flagged : state.scheduler.currentSuspend with
          | true =>
              simp [Record.Describes, Scheduler.recordState, Scheduler.preawakeAtEnd, flagged,
                current]
          | false =>
              by_cases noted : id ∈ state.scheduler.preawake
              · simp [Record.Describes, Scheduler.recordState, Scheduler.preawakeAtEnd, flagged,
                  current, noted, known]
              · simp [Record.Describes, Scheduler.recordState, Scheduler.preawakeAtEnd, flagged,
                  current, noted]
  · cases moved

theorem awakeExecution_unchanged {scheduler : Scheduler Id} {other : Id} (different : other ≠ id) :
    Unchanged scheduler (scheduler.awakeExecution id) other := by
  unfold Scheduler.awakeExecution
  split
  · split
    · exact ⟨by simp [Scheduler.recordState, different], Iff.rfl, Iff.rfl⟩
    · exact ⟨Iff.rfl, by simp [different], Iff.rfl⟩
  · exact ⟨Iff.rfl, Iff.rfl, Iff.rfl⟩

/-- A wake-up of an ended execution takes it out of the suspended set, or notes it. -/
theorem Record.Describes.awoken {record : Record} {scheduler : Scheduler Id}
    (known : scheduler.suspended ⊆ scheduler.contexts) (describes : record.Describes scheduler id) :
    record.awoken.Describes (scheduler.awakeExecution id) id := by
  cases record with
  | live => trivial
  | ended clean =>
      have member : id ∈ scheduler.contexts := by
        cases clean with
        | true => exact known describes.1
        | false => exact describes.1
      unfold Scheduler.awakeExecution
      rw [if_pos member]
      split
      · exact ⟨member, fun still => absurd rfl (Finset.ne_of_mem_erase still)⟩
      · exact ⟨member, fun _ => Finset.mem_insert_self _ _⟩
  | detached clean =>
      unfold Scheduler.awakeExecution
      cases clean with
      | true =>
          rw [if_neg describes.1]
          exact describes
      | false =>
          rcases describes with ⟨member, idle⟩ | ⟨unknown, noted⟩
          · rw [if_pos member, if_neg idle]
            exact .inl ⟨member, idle⟩
          · rw [if_neg unknown]
            exact .inr ⟨unknown, noted⟩

theorem State.Tidy.awake (tidy : state.Tidy)
    (moved : state.perform (.awake id) = some next) : next.Tidy := by
  cases moved
  have known := tidy.holds.suspended
  have holds : (state.scheduler.awakeExecution id).Holds state.scheduler.contexts
      state.context := by
    by_cases member : id ∈ state.scheduler.contexts
    · exact (tidy.holds.awakeExecution member).holds
    · exact (tidy.holds.awakeExecution_active fun idle => member (known idle)).1
  refine ⟨?_, ?_, ?_⟩
  · rw [holds.contexts]
    exact holds
  · intro other context
    have live := tidy.live other context
    by_cases same : other = id
    · subst same
      simp only [State.noted, Function.update_self, live, Record.awoken]
    · exact (Function.update_of_ne same _ _).trans live
  · exact tidy.others (fun other different => awakeExecution_unchanged different)
      ((tidy.recorded id).awoken known)

theorem detach_unchanged {scheduler : Scheduler Id} {other : Id} (different : other ≠ id) :
    Unchanged scheduler (scheduler.detachSuspendedExecution id) other := by
  unfold Scheduler.detachSuspendedExecution
  split
  · exact ⟨by simp [different], Iff.rfl, by simp [different]⟩
  · exact ⟨Iff.rfl, Iff.rfl, Iff.rfl⟩

theorem Record.Describes.detach {record : Record} {scheduler : Scheduler Id}
    (known : scheduler.suspended ⊆ scheduler.contexts) (describes : record.Describes scheduler id) :
    record.detach.Describes (scheduler.detachSuspendedExecution id) id := by
  unfold Scheduler.detachSuspendedExecution
  cases record with
  | live => trivial
  | ended clean =>
      cases clean with
      | true =>
          rw [if_pos describes.1]
          exact ⟨Finset.notMem_erase _ _, describes.2⟩
      | false =>
          split
          · rename_i idle
            exact .inr ⟨Finset.notMem_erase _ _, describes.2 idle⟩
          · rename_i queued
            exact .inl ⟨describes.1, queued⟩
  | detached clean =>
      have awake : id ∉ scheduler.suspended := by
        cases clean with
        | true => exact fun idle => describes.1 (known idle)
        | false =>
            rcases describes with ⟨_, queued⟩ | ⟨unknown, _⟩
            · exact queued
            · exact fun idle => unknown (known idle)
      rw [if_neg awake]
      exact describes

theorem State.Tidy.detach (tidy : state.Tidy)
    (moved : state.perform (.detach id) = some next) : next.Tidy := by
  cases moved
  refine ⟨?_, ?_, ?_⟩
  · by_cases idle : id ∈ state.scheduler.suspended
    · have holds := (tidy.holds.detachSuspendedExecution idle).1
      rw [holds.contexts]
      exact holds
    · have same : state.scheduler.detachSuspendedExecution id = state.scheduler := if_neg idle
      rw [same]
      exact tidy.holds
  · intro other context
    have live := tidy.live other context
    by_cases same : other = id
    · subst same
      simp only [State.noted, Function.update_self, live, Record.detach]
    · exact (Function.update_of_ne same _ _).trans live
  · exact tidy.others (fun other different => detach_unchanged different)
      ((tidy.recorded id).detach tidy.holds.suspended)

theorem State.Tidy.perform {event : Event Id} (tidy : state.Tidy)
    (moved : state.perform event = some next) : next.Tidy := by
  cases event with
  | attach id => exact tidy.attach moved
  | schedule id => exact tidy.schedule moved
  | suspend id => exact tidy.suspend moved
  | finish id completed execTime => exact tidy.finish moved
  | awake id => exact tidy.awake moved
  | detach id => exact tidy.detach moved

variable {current : PrioritiedExecution Id} {domain : Id → ExecutionState}

theorem tidy_of_reachable (reachable : (machine current domain).Reachable Machine.free state) :
    state.Tidy := by
  refine reachable.invariant ?_ fun state event next tidy _ moved => tidy.perform moved
  intro first started
  rw [show first = .empty current domain from started]
  refine ⟨⟨rfl, Finset.empty_subset _, ?_, List.nodup_nil, ?_, fun _ => rfl⟩, ?_, fun _ => trivial⟩
  · simp [State.empty]
  · intro id context
    cases context
  · intro id context
    cases context

omit [DecidableEq Id] in
theorem State.Tidy.forgotten_iff (tidy : state.Tidy) :
    Forgotten state.scheduler id ↔
      id ∉ state.scheduler.contexts ∧ id ∉ state.scheduler.preawake := by
  constructor
  · intro forgotten
    exact ⟨forgotten.contexts, forgotten.preawake⟩
  · rintro ⟨unknown, unnoted⟩
    exact ⟨fun queued => unknown ((tidy.holds.queued id).mp queued).1,
      fun idle => unknown (tidy.holds.suspended idle), unnoted, unknown⟩

/-- In every state after the execution has ended and was detached, until it is
attached again, no container mentions it, and attaching it is like attaching one
that was never seen, exactly when its end and detachment were clean. -/
theorem forgotten_iff_clean (reachable : (machine current domain).Reachable Machine.free state)
    {clean : Bool} (detached : state.record id = .detached clean) :
    (Forgotten state.scheduler id ∧ AttachesAfresh state.scheduler id) ↔ clean = true := by
  have tidy := tidy_of_reachable reachable
  have describes := tidy.recorded id
  rw [detached] at describes
  rw [and_iff_left_of_imp Forgotten.attachesAfresh, tidy.forgotten_iff]
  cases clean with
  | true => exact ⟨fun _ => rfl, fun _ => describes⟩
  | false =>
      refine ⟨fun both => ?_, fun wrong => by cases wrong⟩
      rcases describes with ⟨known, _⟩ | ⟨_, noted⟩
      · exact absurd known both.1
      · exact absurd noted both.2

/-- An execution runs once, is woken after it has asked to be suspended, and
ends completed. -/
theorem forgotten_iff_clean_once :
    ∃ state : State (Fin 2), (machine ⟨0, 0⟩ fun _ => .active).Reachable Machine.free state ∧
      state.record 1 = .detached true ∧
        ((Forgotten state.scheduler 1 ∧ AttachesAfresh state.scheduler 1) ↔ true = true) := by
  obtain ⟨state, reachable, detached⟩ :=
    Machine.reachable_of_exec
      (machine (⟨0, 0⟩ : PrioritiedExecution (Fin 2)) fun _ => .active) Machine.free
      (.empty ⟨0, 0⟩ fun _ => .active)
      [.attach 1, .schedule 1, .suspend 1, .awake 1, .finish 1 true 5, .detach 1]
      (fun state => state.record 1 = .detached true) rfl ⟨_, rfl, by decide⟩
  exact ⟨state, reachable, detached, forgotten_iff_clean reachable detached⟩

/-- An execution is woken while it runs and then ends: the note stays for the
next execution at its address. -/
theorem detached_still_noted : ¬ ∀ (state : State (Fin 1)) (id : Fin 1) (clean : Bool),
    (machine ⟨0, 0⟩ fun _ => .active).Reachable Machine.free state →
      state.record id = .detached clean →
        Forgotten state.scheduler id ∧ AttachesAfresh state.scheduler id := by
  intro forgets
  obtain ⟨state, reachable, detached, noted⟩ :=
    Machine.reachable_of_exec
      (machine (⟨0, 0⟩ : PrioritiedExecution (Fin 1)) fun _ => .active) Machine.free
      (.empty ⟨0, 0⟩ fun _ => .active)
      [.attach 0, .schedule 0, .awake 0, .finish 0 true 5, .detach 0]
      (fun state => state.record 0 = .detached false ∧ 0 ∈ state.scheduler.preawake)
      rfl ⟨_, rfl, by decide, by decide⟩
  exact (forgets state 0 false reachable detached).1.preawake noted

end Asco.Core.Task.DynprioScheduler.Forgetting
