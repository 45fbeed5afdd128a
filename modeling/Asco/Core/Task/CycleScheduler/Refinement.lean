import Asco.Core.Task.CycleScheduler

namespace Asco.Core.Task.CycleScheduler

open Foundation

/-! # `cycle_scheduler` suspends and wakes as a scheduler should

The slots of `cycle_scheduler` represent the sets of the abstract scheduler as
long as no execution is woken after it was detached or detached after it was
woken, and no execution asks to be suspended while its slot still holds a
wake-up that has given up an earlier suspension.
-/

variable {N : ℕ} {Id : Type*} [DecidableEq Id]

/-- An execution is not suspended again while its early wake-up is spent, not
woken once it is detached, and not detached once it is runnable again. -/
def WakesInTime (history : Suspension Id) : Event Id → Prop
  | .suspend id => id ∉ history.spent
  | .awake id => id ∉ history.detached
  | .detach id => id ∉ history.runnable
  | _ => True

instance : DecidableRel (@WakesInTime Id)
  | history, .suspend id => inferInstanceAs (Decidable (id ∉ history.spent))
  | history, .awake id => inferInstanceAs (Decidable (id ∉ history.detached))
  | history, .detach id => inferInstanceAs (Decidable (id ∉ history.runnable))
  | _, .attach _ => isTrue trivial
  | _, .schedule _ => isTrue trivial
  | _, .finish _ _ _ => isTrue trivial

/-! ## The index map -/

/-- Every execution that was attached has one slot, and the slots are filled from
the first on. -/
structure Indexed (scheduler : Scheduler N Id) (attached : Finset Id) : Prop where
  fill : scheduler.fillIndex = attached.card
  place : ∀ position id index, scheduler.executionIndexMap position = some (id, index) →
    index = position ∧ id ∈ attached ∧ position.val < scheduler.fillIndex
  placed : ∀ id ∈ attached, ∃ index, scheduler.executionIndexMap index = some (id, index)
  unique : ∀ first second id, scheduler.executionIndexMap first = some (id, first) →
    scheduler.executionIndexMap second = some (id, second) → first = second
  unfilled : ∀ index : Fin N, scheduler.fillIndex ≤ index.val →
    (scheduler.executions index).id = none
  filled : ∀ index : Fin N, index.val < scheduler.fillIndex →
    ∃ id, scheduler.executionIndexMap index = some (id, index)

theorem Indexed.find_eq_some {scheduler : Scheduler N Id} {attached : Finset Id}
    (indexed : Indexed scheduler attached) {id : Id} {index : Fin N} :
    scheduler.find id = some index ↔ scheduler.executionIndexMap index = some (id, index) := by
  have found {result : Fin N} (search : scheduler.find id = some result) :
      scheduler.executionIndexMap result = some (id, result) := by
    obtain ⟨position, _, matched⟩ := List.exists_of_findSome?_eq_some search
    split at matched
    · rename_i first second entry
      split at matched
      · rename_i same
        cases matched
        subst same
        obtain ⟨rfl, _, _⟩ := indexed.place _ _ _ entry
        exact entry
      · contradiction
    · contradiction
  constructor
  · exact found
  · intro entry
    have some : (scheduler.find id).isSome := by
      rw [Scheduler.find, List.findSome?_isSome_iff]
      exact ⟨index, List.mem_finRange index, by simp [entry]⟩
    obtain ⟨result, search⟩ := Option.isSome_iff_exists.mp some
    rw [search, indexed.unique result index id (found search) entry]

theorem Indexed.exists_find {scheduler : Scheduler N Id} {attached : Finset Id}
    (indexed : Indexed scheduler attached) {id : Id} (known : id ∈ attached) :
    ∃ index, scheduler.find id = some index :=
  (indexed.placed id known).imp fun _ => indexed.find_eq_some.mpr

/-! ## The slots -/

/-- The flags of the slot of an execution. -/
structure Represents (state : ExecutionSched Id) (history : Suspension Id) (id : Id) : Prop where
  active : state.active = true ↔ id ∈ history.runnable
  suspendNow : state.suspendNow = true ↔ history.running = some id ∧ history.suspending = true
  preawaken : state.preawaken = true ↔ id ∈ history.early ∨ id ∈ history.spent
  detached : state.detached = true ↔ id ∈ history.detached
  named : state.id = if id ∈ history.detached then none else some id

/-- The scheduler after a run represents the abstract scheduler after it. -/
structure Related (run : Run N Id) (history : Suspension Id) : Prop where
  consistent : history.Consistent
  word : run.scheduler.currentExecutionIndex < wordCount
  indexed : Indexed run.scheduler history.attached
  slots : ∀ id index, run.scheduler.executionIndexMap index = some (id, index) →
    Represents (run.scheduler.executions index) history id
  count : run.scheduler.activeCount = history.runnable.card
  context : run.context = history.running.bind run.scheduler.find
  unspent : ∀ id, history.running = some id → history.suspending = true → id ∉ history.spent
  awakes : run.awakes = history.awakes
  resumed : run.resumed = history.resumed

theorem find_congr {first second : Scheduler N Id}
    (same : first.executionIndexMap = second.executionIndexMap) : first.find = second.find := by
  funext id
  simp only [Scheduler.find, same]

omit [DecidableEq Id] in
theorem Indexed.update {scheduler next : Scheduler N Id} {attached : Finset Id} {id : Id}
    {index : Fin N} {state : ExecutionSched Id} (indexed : Indexed scheduler attached)
    (entry : scheduler.executionIndexMap index = some (id, index))
    (sameMap : next.executionIndexMap = scheduler.executionIndexMap)
    (sameFill : next.fillIndex = scheduler.fillIndex)
    (changed : next.executions = Function.update scheduler.executions index state) :
    Indexed next attached where
  fill := sameFill.trans indexed.fill
  place := by simpa only [sameMap, sameFill] using indexed.place
  placed := by simpa only [sameMap] using indexed.placed
  unique := by simpa only [sameMap] using indexed.unique
  filled := by simpa only [sameMap, sameFill] using indexed.filled
  unfilled other beyond := by
    have bound := (indexed.place _ _ _ entry).2.2
    have apart : other ≠ index := by
      intro same
      subst same
      omega
    rw [changed, Function.update_of_ne apart]
    exact indexed.unfilled other (sameFill ▸ beyond)

/-- A call that changes one slot. -/
theorem Related.update {run next : Run N Id} {history nextHistory : Suspension Id} {id : Id}
    {index : Fin N} {state : ExecutionSched Id} (related : Related run history)
    (found : run.scheduler.find id = some index) (consistent : nextHistory.Consistent)
    (sameIndex : next.scheduler.currentExecutionIndex = run.scheduler.currentExecutionIndex)
    (sameMap : next.scheduler.executionIndexMap = run.scheduler.executionIndexMap)
    (sameFill : next.scheduler.fillIndex = run.scheduler.fillIndex)
    (changed : next.scheduler.executions = Function.update run.scheduler.executions index state)
    (attached : nextHistory.attached = history.attached)
    (represents : Represents (run.scheduler.executions index) history id →
      Represents state nextHistory id)
    (others : ∀ other state, other ≠ id → Represents state history other →
      Represents state nextHistory other)
    (count : next.scheduler.activeCount = nextHistory.runnable.card)
    (context : next.context = nextHistory.running.bind run.scheduler.find)
    (unspent : ∀ id, nextHistory.running = some id → nextHistory.suspending = true →
      id ∉ nextHistory.spent)
    (awakes : next.awakes = nextHistory.awakes) (resumed : next.resumed = nextHistory.resumed) :
    Related next nextHistory where
  consistent := consistent
  word := sameIndex ▸ related.word
  indexed := by
    have entry := related.indexed.find_eq_some.mp found
    exact attached ▸ related.indexed.update entry sameMap sameFill changed
  slots other position placed := by
    rw [sameMap] at placed
    have entry := related.indexed.find_eq_some.mp found
    rw [changed]
    by_cases same : position = index
    · subst same
      obtain rfl : id = other := by simp_all
      simpa using represents (related.slots id position entry)
    · have apart : other ≠ id := by
        intro sameId
        subst sameId
        exact same (related.indexed.unique _ _ _ placed entry)
      rw [Function.update_of_ne same]
      exact others other _ apart (related.slots other position placed)
  count := count
  context := by rw [context, find_congr sameMap]
  unspent := unspent
  awakes := awakes
  resumed := resumed

/-! ## One lemma for each call -/

variable {run next : Run N Id} {history nextHistory : Suspension Id} {capacity : ℕ}

theorem related_suspend {id : Id} (related : Related run history)
    (inTime : WakesInTime history (.suspend id))
    (called : run.perform (.suspend id) = some next)
    (stepped : history.step capacity (.suspend id) = some nextHistory) :
    Related next nextHistory := by
  have consistent := Suspension.step_consistent related.consistent stepped
  obtain ⟨running, ⟨⟩⟩ := Option.ite_none_right_eq_some.mp stepped
  have unspent : id ∉ history.spent := inTime
  have known : id ∈ history.attached :=
    related.consistent.runnable (related.consistent.running id running)
  obtain ⟨index, found⟩ := related.indexed.exists_find known
  have slot := related.slots id index (related.indexed.find_eq_some.mp found)
  have awakes := related.awakes
  have resumed := related.resumed
  simp only [Run.perform, Run.call, Run.resumes, found, Option.map_some, Option.some.injEq,
    Scheduler.suspendCurrent] at called
  by_cases preawaken : (run.scheduler.executions index).preawaken = true
  · have early : id ∈ history.early := (slot.preawaken.mp preawaken).resolve_right unspent
    simp only [preawaken, if_true] at called
    subst called
    simp only [Suspension.suspend, early, if_true] at consistent ⊢
    refine related.update found consistent rfl rfl rfl rfl rfl ?_ ?_ related.count related.context
      related.unspent awakes (by rw [resumed]; rfl)
    · intro slot
      exact { slot with preawaken := by simp [unspent] }
    · intro other state apart slot
      exact { slot with preawaken := by simpa [apart] using slot.preawaken }
  · have early : id ∉ history.early := fun early => preawaken (slot.preawaken.mpr (.inl early))
    simp only [preawaken] at called
    subst called
    simp only [Suspension.suspend, early, if_false] at consistent ⊢
    refine related.update found consistent rfl rfl rfl rfl rfl ?_ ?_ related.count related.context
      ?_ awakes resumed
    · intro slot
      exact { slot with suspendNow := by simp [running] }
    · intro other state apart slot
      have suspendNow : state.suspendNow = false := by
        simpa [running, Ne.symm apart] using slot.suspendNow
      exact { slot with suspendNow := by simp [suspendNow, running, Ne.symm apart] }
    · intro other still _
      rw [running] at still
      exact Option.some.inj still ▸ unspent

/-- An execution that goes on is noted as woken or as spent, before and after. -/
theorem mem_finish_woken {completed : Bool} (id other : Id) :
    other ∈ (history.finish id completed).early ∨ other ∈ (history.finish id completed).spent ↔
      other ∈ history.early ∨ other ∈ history.spent := by
  simp only [Suspension.finish]
  split
  · rename_i woken
    by_cases same : other = id
    · simp [same, woken.2]
    · simp [same]
  · rfl

theorem mem_finish_runnable {id other : Id} {completed : Bool} (apart : other ≠ id) :
    other ∈ (history.finish id completed).runnable ↔ other ∈ history.runnable := by
  simp only [Suspension.finish]
  split
  · simp [apart]
  · rfl

theorem related_finish {id : Id} {completed : Bool} {execTime : UInt64}
    (related : Related run history)
    (called : run.perform (.finish id completed execTime) = some next)
    (stepped : history.step capacity (.finish id completed execTime) = some nextHistory) :
    Related next nextHistory := by
  have consistent := Suspension.step_consistent related.consistent stepped
  obtain ⟨running, ⟨⟩⟩ := Option.ite_none_right_eq_some.mp stepped
  have runnable := related.consistent.running id running
  have undetached : id ∉ history.detached :=
    Finset.disjoint_left.mp related.consistent.apart runnable
  obtain ⟨index, found⟩ := related.indexed.exists_find (related.consistent.runnable runnable)
  have context : run.context = some index := by
    rw [related.context, running, Option.bind_some, found]
  have slot := related.slots id index (related.indexed.find_eq_some.mp found)
  have named : (run.scheduler.executions index).id = some id := by
    rw [slot.named, if_neg undetached]
  have awakes := related.awakes
  have resumed := related.resumed
  have unspent := related.unspent id running
  have flagged : (run.scheduler.executions index).suspendNow = history.suspending := by
    rw [Bool.eq_iff_iff, slot.suspendNow]
    simp only [running, true_and]
  have woken : history.suspending = true →
      ((run.scheduler.executions index).preawaken = true ↔ id ∈ history.early) := by
    intro suspending
    simp [slot.preawaken, unspent suspending]
  have resumes : (!completed && (run.scheduler.executions index).suspendNow
        && (run.scheduler.executions index).preawaken) = true ↔
      (history.suspending = true ∧ id ∈ history.early) ∧ completed = false := by
    grind
  simp only [Run.perform, Run.call, Run.resumes, context, Option.map_some, Option.some.injEq,
    Scheduler.endContext, named, resumes] at called
  subst called
  have others (other : Id) (state : ExecutionSched Id) (apart : other ≠ id)
      (slot : Represents state history other) :
      Represents state (history.finish id completed) other := by
    have suspendNow := slot.suspendNow
    simp only [running, Option.some.injEq, Ne.symm apart, false_and] at suspendNow
    exact
      { active := slot.active.trans (mem_finish_runnable apart).symm
        suspendNow := suspendNow.trans (by simp [Suspension.finish])
        preawaken := slot.preawaken.trans (mem_finish_woken id other).symm
        detached := slot.detached
        named := slot.named }
  by_cases suspends : (run.scheduler.executions index).suspendNow &&
      !(run.scheduler.executions index).preawaken || completed
  · have leaves : completed = true ∨ history.suspending = true ∧ id ∉ history.early := by
      grind
    simp only [suspends, if_true]
    refine related.update found consistent rfl rfl rfl rfl rfl ?_ others ?_ rfl ?_ awakes ?_
    · intro slot
      exact
        { active := by simp [Suspension.finish, leaves]
          suspendNow := by simp [Suspension.finish]
          preawaken := slot.preawaken.trans (mem_finish_woken id id).symm
          detached := slot.detached
          named := slot.named }
    · simp only [Suspension.finish, leaves, if_true, Finset.card_erase_of_mem runnable]
      exact congrArg (· - 1) related.count
    · intro _ absurd
      cases absurd
    · simp only [Suspension.finish, resumed]
      rfl
  · have stays : ¬ (completed = true ∨ history.suspending = true ∧ id ∉ history.early) := by
      grind
    simp only [suspends]
    refine related.update found consistent rfl rfl rfl rfl rfl ?_ others ?_ rfl ?_ awakes ?_
    · intro slot
      exact
        { active := by simpa [Suspension.finish, stays] using slot.active
          suspendNow := by simp [Suspension.finish]
          preawaken := slot.preawaken.trans (mem_finish_woken id id).symm
          detached := slot.detached
          named := slot.named }
    · simp only [Suspension.finish, stays, if_false]
      exact related.count
    · intro _ absurd
      cases absurd
    · simp only [Suspension.finish, resumed]
      rfl

theorem related_awake {id : Id} (related : Related run history)
    (inTime : WakesInTime history (.awake id)) (called : run.perform (.awake id) = some next)
    (stepped : history.step capacity (.awake id) = some nextHistory) :
    Related next nextHistory := by
  have consistent := Suspension.step_consistent related.consistent stepped
  obtain ⟨known, ⟨⟩⟩ := Option.ite_none_right_eq_some.mp stepped
  have undetached : id ∉ history.detached := inTime
  obtain ⟨index, found⟩ := related.indexed.exists_find known
  have slot := related.slots id index (related.indexed.find_eq_some.mp found)
  have awakes := related.awakes
  have resumed := related.resumed
  simp only [Run.perform, Run.call, Run.resumes, found, Option.map_some, Option.some.injEq,
    Scheduler.awakeExecution, awakes, resumed] at called
  by_cases active : (run.scheduler.executions index).active = true
  · have runnable := slot.active.mp active
    simp only [active, if_true] at called
    subst called
    simp only [Suspension.awake, undetached, runnable, if_true, if_false] at consistent ⊢
    refine related.update found consistent rfl rfl rfl rfl rfl ?_ ?_ related.count related.context
      ?_ rfl rfl
    · intro slot
      exact { slot with preawaken := by simp }
    · intro other state apart slot
      exact { slot with preawaken := by simpa [apart] using slot.preawaken }
    · intro other running suspending spent
      exact related.unspent other running suspending (Finset.mem_of_mem_erase spent)
  · have suspended : id ∉ history.runnable := fun runnable => active (slot.active.mpr runnable)
    have unscheduled : history.running ≠ some id :=
      fun running => suspended (related.consistent.running id running)
    simp only [active] at called
    subst called
    simp only [Suspension.awake, undetached, suspended, if_false] at consistent ⊢
    refine related.update found consistent rfl rfl rfl rfl rfl ?_ ?_ ?_ related.context
      related.unspent rfl rfl
    · intro slot
      exact { slot with
        active := by simp
        suspendNow := by simp [unscheduled] }
    · intro other state apart slot
      exact { slot with active := by simpa [apart] using slot.active }
    · simp only [Finset.card_insert_of_notMem suspended]
      exact congrArg (· + 1) related.count

theorem related_detach {id : Id} (related : Related run history)
    (inTime : WakesInTime history (.detach id)) (called : run.perform (.detach id) = some next)
    (stepped : history.step capacity (.detach id) = some nextHistory) :
    Related next nextHistory := by
  have consistent := Suspension.step_consistent related.consistent stepped
  obtain ⟨completed, ⟨⟩⟩ := Option.ite_none_right_eq_some.mp stepped
  have suspended : id ∉ history.runnable := inTime
  obtain ⟨index, found⟩ := related.indexed.exists_find (related.consistent.completed completed)
  have slot := related.slots id index (related.indexed.find_eq_some.mp found)
  have inactive : (run.scheduler.executions index).active = false := by
    simpa using mt slot.active.mp suspended
  simp only [Run.perform, Run.call, Run.resumes, Scheduler.detachSuspendedExecution, found,
    inactive, Option.map_some, Option.some.injEq, Bool.false_eq_true, if_false] at called
  subst called
  simp only [suspended, if_false] at consistent ⊢
  refine related.update found consistent rfl rfl rfl rfl rfl ?_ ?_ related.count related.context
    related.unspent related.awakes related.resumed
  · intro slot
    exact { slot with
      detached := by simp
      named := by simp }
  · intro other state apart slot
    exact { slot with
      detached := by simpa [apart] using slot.detached
      named := by simpa [apart] using slot.named }

/-- The slot that holds an id is the slot of the execution. -/
theorem Related.find_of_named (related : Related run history) {id : Id} {index : Fin N}
    (named : (run.scheduler.executions index).id = some id) :
    run.scheduler.find id = some index := by
  have bound : index.val < run.scheduler.fillIndex := by
    by_contra beyond
    have unnamed := related.indexed.unfilled index (Nat.le_of_not_lt beyond)
    rw [unnamed] at named
    contradiction
  obtain ⟨other, entry⟩ := related.indexed.filled index bound
  have slot := related.slots other index entry
  rw [slot.named] at named
  split at named
  · contradiction
  · cases named
    exact related.indexed.find_eq_some.mpr entry

omit [DecidableEq Id] in
theorem scan_selectable {scheduler : Scheduler N Id} {positive : 0 < N} {turns index result : ℕ}
    (scanned : scheduler.scan positive turns index = some result) :
    scheduler.selectable (slot positive result) = true := by
  induction turns generalizing index with
  | zero => contradiction
  | succ turns ih =>
      simp only [Scheduler.scan] at scanned
      split at scanned
      · rename_i selectable
        cases scanned
        exact selectable
      · exact ih scanned

omit [DecidableEq Id] in
/-- `schedule` yields the id and the context of a slot that it may stop at, and
moves the index on. -/
theorem schedule_spec {scheduler next : Scheduler N Id} {scheduled : Option Id} {context : Fin N}
    (yields : scheduler.schedule = some (scheduled, context, next)) :
    scheduled = (scheduler.executions context).id ∧ scheduler.selectable context = true ∧
      ∃ index < wordCount, next = { scheduler with currentExecutionIndex := index } := by
  simp only [Scheduler.schedule] at yields
  split at yields
  · obtain ⟨index, scanned, result⟩ := Option.map_eq_some_iff.mp yields
    cases result
    exact ⟨rfl, scan_selectable scanned, _, Nat.mod_lt _ (Nat.two_pow_pos 64), rfl⟩
  · contradiction

theorem related_schedule {id : Id} (related : Related run history)
    (called : run.perform (.schedule id) = some next)
    (stepped : history.step capacity (.schedule id) = some nextHistory) :
    Related next nextHistory := by
  have consistent := Suspension.step_consistent related.consistent stepped
  obtain ⟨⟨idle, _, runnable⟩, ⟨⟩⟩ := Option.ite_none_right_eq_some.mp stepped
  obtain ⟨⟨scheduler, context⟩, made, ⟨⟩⟩ := Option.map_eq_some_iff.mp called
  simp only [Run.call] at made
  split at made
  · rename_i scheduled found nextScheduler yields
    obtain ⟨rfl, ⟨⟩⟩ := Option.ite_none_right_eq_some.mp made
    obtain ⟨named, _, index, word, rfl⟩ := schedule_spec yields
    have entry := related.find_of_named named.symm
    have calm := related.consistent.idle idle
    exact { related with
      consistent := consistent
      word := word
      indexed := { related.indexed with }
      slots := fun other position placed =>
        { related.slots other position placed with
          suspendNow := by
            have suspendNow := (related.slots other position placed).suspendNow
            simpa [calm, Scheduler.recordState] using suspendNow }
      context := entry.symm
      unspent := fun _ _ suspending => by simp [calm] at suspending }
  · contradiction

omit [DecidableEq Id] in
/-- What `attach_execution` writes. -/
theorem attachExecution_spec {scheduler next : Scheduler N Id} {id : Id}
    (attaching : scheduler.attachExecution id = some next) :
    ∃ index : Fin N, index.val = scheduler.fillIndex ∧
      next.executions = Function.update scheduler.executions index { id := some id } ∧
      next.executionIndexMap =
        Function.update scheduler.executionIndexMap index (some (id, index)) ∧
      next.activeCount = scheduler.activeCount + 1 ∧
      next.fillIndex = scheduler.fillIndex + 1 ∧
      next.currentExecutionIndex = scheduler.currentExecutionIndex := by
  obtain ⟨bound, ⟨⟩⟩ := Option.dite_none_right_eq_some.mp attaching
  exact ⟨⟨scheduler.fillIndex, bound⟩, rfl, rfl, rfl, rfl, rfl, rfl⟩

theorem Indexed.attach {scheduler next : Scheduler N Id} {attached : Finset Id} {id : Id}
    (indexed : Indexed scheduler attached) (fresh : id ∉ attached)
    (attaching : scheduler.attachExecution id = some next) :
    Indexed next (insert id attached) := by
  obtain ⟨index, first, executions, sameMap, _, fill, _⟩ := attachExecution_spec attaching
  have before (position : Fin N) (bound : position.val < scheduler.fillIndex) :
      next.executionIndexMap position = scheduler.executionIndexMap position := by
    have apart : position ≠ index := fun same => by
      subst same
      omega
    rw [sameMap, Function.update_of_ne apart]
  have itself : next.executionIndexMap index = some (id, index) := by
    rw [sameMap, Function.update_self]
  have split (position : Fin N) {other : Id} {second : Fin N}
      (entry : next.executionIndexMap position = some (other, second)) :
      position = index ∧ other = id ∧ second = index ∨
        scheduler.executionIndexMap position = some (other, second) := by
    by_cases same : position = index
    · subst same
      rw [itself] at entry
      cases entry
      exact .inl ⟨rfl, rfl, rfl⟩
    · rw [sameMap, Function.update_of_ne same] at entry
      exact .inr entry
  constructor
  · rw [fill, indexed.fill, Finset.card_insert_of_notMem fresh]
  · intro position other second entry
    rcases split position entry with ⟨rfl, rfl, rfl⟩ | entry
    · exact ⟨rfl, Finset.mem_insert_self _ _, by omega⟩
    · obtain ⟨same, known, bound⟩ := indexed.place _ _ _ entry
      exact ⟨same, Finset.mem_insert_of_mem known, by omega⟩
  · intro other known
    rcases Finset.mem_insert.mp known with rfl | known
    · exact ⟨index, itself⟩
    · obtain ⟨position, entry⟩ := indexed.placed other known
      exact ⟨position, (before position (indexed.place _ _ _ entry).2.2).trans entry⟩
  · intro one another other entry otherEntry
    rcases split one entry with ⟨rfl, rfl, _⟩ | entry <;>
      rcases split another otherEntry with ⟨rfl, same, _⟩ | otherEntry
    · rfl
    · exact absurd (indexed.place _ _ _ otherEntry).2.1 fresh
    · exact absurd (same ▸ (indexed.place _ _ _ entry).2.1) fresh
    · exact indexed.unique _ _ _ entry otherEntry
  · intro position beyond
    have apart : position ≠ index := fun same => by
      subst same
      omega
    rw [executions, Function.update_of_ne apart]
    exact indexed.unfilled position (by omega)
  · intro position bound
    by_cases same : position = index
    · subst same
      exact ⟨id, itself⟩
    · have earlier : position.val < scheduler.fillIndex := by
        have apart : position.val ≠ index.val := fun equal => same (Fin.ext equal)
        omega
      obtain ⟨other, entry⟩ := indexed.filled position earlier
      exact ⟨other, (before position earlier).trans entry⟩

theorem related_attach {id : Id} (related : Related run history)
    (called : run.perform (.attach id) = some next)
    (stepped : history.step capacity (.attach id) = some nextHistory) :
    Related next nextHistory := by
  have consistent := Suspension.step_consistent related.consistent stepped
  obtain ⟨⟨fresh, _⟩, ⟨⟩⟩ := Option.ite_none_right_eq_some.mp stepped
  obtain ⟨⟨scheduler, context⟩, made, ⟨⟩⟩ := Option.map_eq_some_iff.mp called
  obtain ⟨_, attaching, ⟨⟩⟩ := Option.map_eq_some_iff.mp made
  have indexed := related.indexed.attach fresh attaching
  obtain ⟨index, first, executions, sameMap, activeCount, fill, sameIndex⟩ :=
    attachExecution_spec attaching
  have unattached {ids : Finset Id} (included : ids ⊆ history.attached) : id ∉ ids :=
    fun member => fresh (included member)
  have unknown := unattached related.consistent.runnable
  have unscheduled : history.running ≠ some id :=
    fun running => unknown (related.consistent.running id running)
  refine { related with
    consistent := consistent
    word := sameIndex.trans_lt related.word
    indexed := indexed
    slots := fun other position entry => ?_
    count := ?_
    context := ?_ }
  · change Represents (scheduler.executions position) _ other
    by_cases same : position = index
    · subst same
      obtain rfl : id = other := by simp_all
      rw [executions, Function.update_self]
      constructor
      · simp
      · simp [unscheduled]
      · simp [unattached related.consistent.early, unattached related.consistent.spent]
      · simp [unattached related.consistent.detached]
      · simp [unattached related.consistent.detached]
    · have earlier : run.scheduler.executionIndexMap position = some (other, position) := by
        simpa [sameMap, same] using entry
      have apart : other ≠ id := fun equal =>
        fresh (equal ▸ (related.indexed.place _ _ _ earlier).2.1)
      have slot := related.slots other position earlier
      rw [executions, Function.update_of_ne same]
      exact { slot with active := by simpa [apart] using slot.active }
  · rw [Finset.card_insert_of_notMem unknown]
    exact activeCount.trans (congrArg (· + 1) related.count)
  · rw [related.context]
    cases running : history.running with
    | none => rfl
    | some current =>
        have known := related.consistent.runnable (related.consistent.running current running)
        obtain ⟨position, found⟩ := related.indexed.exists_find known
        have entry := related.indexed.find_eq_some.mp found
        have apart : position ≠ index := fun same => by
          have bound := (related.indexed.place _ _ _ entry).2.2
          subst same
          omega
        have stays : scheduler.find current = some position := by
          rw [indexed.find_eq_some, sameMap, Function.update_of_ne apart, entry]
        simp only [Option.bind_some, found, stays]

theorem simulates (N : ℕ) (domain : Id → DynprioScheduler.ExecutionState) :
    Machine.Simulates (machine N domain) (Suspension.machine N) WakesInTime Related where
  initial := by
    rintro run history rfl rfl
    exact
      { consistent := Suspension.empty_consistent
        word := Nat.two_pow_pos 64
        indexed := by
          constructor <;> simp [Run.empty, Scheduler.empty, Suspension.empty]
        slots := by simp [Run.empty, Scheduler.empty]
        count := rfl
        context := rfl
        unspent := nofun
        awakes := rfl
        resumed := rfl }
  step run history event next nextHistory related inTime called answered := by
    have stepped : history.step N event = some nextHistory := answered
    cases event with
    | attach id => exact related_attach related called stepped
    | schedule id => exact related_schedule related called stepped
    | suspend id => exact related_suspend related inTime called stepped
    | finish id completed execTime => exact related_finish related called stepped
    | awake id => exact related_awake related inTime called stepped
    | detach id => exact related_detach related inTime called stepped

/-! ## What the scheduler offers -/

theorem Related.runnable_iff (related : Related run history) (id : Id) :
    run.Runnable id ↔ id ∈ history.runnable := by
  constructor
  · rintro ⟨index, named, selectable⟩
    have entry := related.indexed.find_eq_some.mp (related.find_of_named named)
    have slot := related.slots id index entry
    simp only [Scheduler.selectable, Bool.not_eq_true', Bool.or_eq_false_iff] at selectable
    simpa [slot.active] using selectable.2
  · intro runnable
    have undetached : id ∉ history.detached :=
      Finset.disjoint_left.mp related.consistent.apart runnable
    obtain ⟨index, entry⟩ := related.indexed.placed id (related.consistent.runnable runnable)
    have slot := related.slots id index entry
    have active := slot.active.mpr runnable
    have detached : (run.scheduler.executions index).detached = false := by
      simpa using mt slot.detached.mp undetached
    exact ⟨index, by rw [slot.named, if_neg undetached],
      by simp [Scheduler.selectable, active, detached]⟩

/-- One turn of the loop comes one step nearer to a slot that is not there yet. -/
theorem distance_succ {words target index : ℕ} (targetBound : target < words)
    (bound : index < words) (away : index ≠ target) :
    (target + words - (index + 1) % words) % words + 1 = (target + words - index) % words := by
  have wrap (value : ℕ) (small : value < words) : (value + words) % words = value := by
    rw [Nat.add_mod_right, Nat.mod_eq_of_lt small]
  by_cases last : index + 1 = words
  · have start : (index + 1) % words = 0 := by rw [last, Nat.mod_self]
    have apart : target + words - index = target + 1 := by omega
    rw [start, Nat.sub_zero, wrap target targetBound, apart, Nat.mod_eq_of_lt (by omega)]
  · rw [Nat.mod_eq_of_lt (by omega : index + 1 < words)]
    by_cases before : index < target
    · have further : target + words - index = target - index + words := by omega
      have nearer : target + words - (index + 1) = target - (index + 1) + words := by omega
      rw [further, nearer, wrap _ (by omega), wrap _ (by omega)]
      omega
    · rw [Nat.mod_eq_of_lt (by omega), Nat.mod_eq_of_lt (by omega)]
      omega

omit [DecidableEq Id] in
/-- The loop of `schedule` comes to a selectable slot after as many turns as the
index is steps away from it. -/
theorem exists_scan {scheduler : Scheduler N Id} (positive : 0 < N) {target : Fin N}
    (selectable : scheduler.selectable target = true) (size : N < wordCount) {turns index : ℕ}
    (word : index < wordCount)
    (near : (target.val + wordCount - index) % wordCount < turns) :
    ∃ result, scheduler.scan positive turns index = some result := by
  induction turns generalizing index with
  | zero => exact absurd near (Nat.not_lt_zero _)
  | succ turns ih =>
      rw [Scheduler.scan]
      split
      · exact ⟨index, rfl⟩
      · rename_i missed
        have away : index ≠ target.val := by
          intro same
          have here : slot positive index = target := by
            apply Fin.ext
            simp only [slot, same, Nat.mod_eq_of_lt target.isLt]
          exact missed (here ▸ selectable)
        have nearer := distance_succ (target.isLt.trans size) word away
        exact ih (Nat.mod_lt _ (Nat.zero_lt_of_lt size)) (by omega)

/-- With all its slots filled and one of them active, the scheduler yields an
execution that is attached, active and not detached. -/
theorem Related.schedules (related : Related run history) (size : N < wordCount)
    (full : history.attached.card = N)
    (hasActive : run.scheduler.hasActiveExecution = true) :
    ∃ id context scheduler, run.scheduler.schedule = some (some id, context, scheduler) ∧
      id ∈ history.attached ∧ id ∉ history.detached ∧ run.Runnable id ∧
      run.scheduler.find id = some context := by
  have active : 0 < run.scheduler.activeCount := of_decide_eq_true hasActive
  rw [related.count] at active
  obtain ⟨runnable, member⟩ := Finset.card_pos.mp active
  obtain ⟨target, _, selectable⟩ := (related.runnable_iff runnable).mpr member
  have positive : 0 < N := Nat.zero_lt_of_lt target.isLt
  obtain ⟨index, scanned⟩ := exists_scan positive selectable size related.word
    (Nat.mod_lt _ (Nat.two_pow_pos 64))
  have chosen := scan_selectable scanned
  obtain ⟨id, entry⟩ := related.indexed.filled (slot positive index) (by
    rw [related.indexed.fill, full]
    exact (slot positive index).isLt)
  have flags := related.slots id _ entry
  have undetached : id ∉ history.detached := by
    simp only [Scheduler.selectable, Bool.not_eq_true', Bool.or_eq_false_iff] at chosen
    simp [← flags.detached, chosen.1]
  have named : (run.scheduler.executions (slot positive index)).id = some id := by
    rw [flags.named, if_neg undetached]
  have yields : run.scheduler.schedule = some (some id, slot positive index,
      { run.scheduler with currentExecutionIndex := (index + 1) % wordCount }) := by
    simp only [Scheduler.schedule, positive, dif_pos, scanned, Option.map_some, named]
  exact ⟨id, slot positive index, _, yields, (related.indexed.place _ _ _ entry).2.1, undetached,
    ⟨_, named, chosen⟩, related.indexed.find_eq_some.mpr entry⟩

end Asco.Core.Task.CycleScheduler
