import Asco.Sync.Semaphore

namespace Asco.Sync.Semaphore.Cancellation

open Foundation

/-! # Tasks that are cancelled inside `acquire`

A cancelled task is torn down where it has given control back to its worker: at
a `yield` of `acquire` or suspended by `m_cv`.  Nothing takes its token out of
the queue.
-/

/-- `yielded` stands at `this_task::yield` of `acquire`; `gone` has been torn
down by `cancel_cleanup`. -/
inductive Life where
  | live (pc : Pc)
  | yielded (i : UInt64)
  | gone
deriving DecidableEq

inductive Event where
  | run (choice : Choice Call)
  | cancel
deriving DecidableEq

variable {Task : Type*}

/-- The value of `i` at which the next step yields. -/
def yields (semaphore : Semaphore Task) : Pc → Option UInt64
  | .acquireLoad i =>
      if semaphore.count = 0 ∧ 16 < i + 1 ∧ i + 1 ≤ 100 then some (i + 1) else none
  | _ => none

/-- Where the task stands after a step. -/
def settle (semaphore : Semaphore Task) (pc finish : Pc) : Life :=
  match yields semaphore pc with
  | some i => .yielded i
  | none => .live finish

def advance [DecidableEq Task] (N : UInt64) (task : Task) (semaphore : Semaphore Task) :
    Life → Event → Option (Semaphore Task × Life)
  | .live pc, .run choice =>
      (Semaphore.advance N task semaphore pc choice).map fun next =>
        (next.1, settle semaphore pc next.2)
  | .yielded i, .run (.step _) => some (semaphore, .live (.acquireLoad i))
  | .live .acquireSuspended, .cancel => some (semaphore, .gone)
  | .yielded _, .cancel => some (semaphore, .gone)
  | _, _ => none

def program (N : UInt64) (Task : Type*) [DecidableEq Task] :
    Program Task (Semaphore Task) Life Event where
  advance := advance N

def fresh (N count : UInt64) (Task : Type*) : Pool Task (Semaphore Task) Life where
  shared := { count := min N.toNat count.toNat, cv := .empty }
  locals _ := .live .idle

def machine (N : UInt64) (Task : Type*) [DecidableEq Task] :
    Machine (Pool Task (Semaphore Task) Life) (Task × Event) :=
  (program N Task).machine fun pool => ∃ count, pool = fresh N count Task

variable [DecidableEq Task]

/-- No call is mid-way and every woken task has run on. -/
def Settled (pool : Pool Task (Semaphore Task) Life) : Prop :=
  ∀ task, pool.locals task = .live .idle ∨ pool.locals task = .gone ∨
    pool.locals task = .live .acquireSuspended ∧ task ∈ pool.shared.cv.waitQueue

instance [Fintype Task] : DecidablePred (@Settled Task) :=
  fun _ => inferInstanceAs (Decidable (∀ _, _))

/-- The queued tasks that still exist. -/
def survivors (locals : Task → Life) (queue : List Task) : List Task :=
  queue.filter fun task => locals task ≠ .gone

/-- No permit lies unused beside a suspended task that still exists. -/
def NoLostWakeUp (pool : Pool Task (Semaphore Task) Life) : Prop :=
  Settled pool → 0 < pool.shared.count → survivors pool.locals pool.shared.cv.waitQueue = []

/-- A task that is on its way to a permit, suspended or not. -/
def standing : Life → ℕ
  | .live pc => acquiring pc
  | _ => 0

/-- No task that still exists is queued, or at least as many tasks are on their
way to a permit without being queued as there are permits. -/
def Attends [Fintype Task] (locals : Task → Life) (queue : List Task) (count : ℕ) : Prop :=
  survivors locals queue = [] ∨
    count + (survivors locals queue).length ≤ tally standing locals

instance [Fintype Task] (locals : Task → Life) (queue : List Task) (count : ℕ) :
    Decidable (Attends locals queue count) := inferInstanceAs (Decidable (_ ∨ _))

/-- The places of the tasks, the queue and the permits that are left when an
exchange of `release` succeeds, with the tokens it pops, and when a task that has
been woken is torn down before it runs on. -/
def left (N : UInt64) (pool : Pool Task (Semaphore Task) Life) (label : Task × Event) :
    Option ((Task → Life) × List Task × ℕ) :=
  match pool.locals label.1, label.2 with
  | .live (.releaseNotify n oldc), .run (.step false) =>
      if pool.shared.count = oldc then
        some (pool.locals, pool.shared.cv.waitQueue.drop (diff N n oldc), oldc + diff N n oldc)
      else none
  | .live (.releaseCas n oldc), .run (.step false) =>
      if pool.shared.count = oldc then
        some (pool.locals, pool.shared.cv.waitQueue, oldc + diff N n oldc)
      else none
  | .live .acquireSuspended, .cancel =>
      if label.1 ∈ pool.shared.cv.waitQueue then none
      else
        some (Function.update pool.locals label.1 .gone, pool.shared.cv.waitQueue,
          pool.shared.count)
  | _, _ => none

/-- Such a step leaves no task queued that still exists, or enough tasks on
their way to the permits. -/
def WakesSurvivors [Fintype Task] (N : UInt64) (pool : Pool Task (Semaphore Task) Life)
    (label : Task × Event) : Prop :=
  ∀ rest ∈ left N pool label, Attends rest.1 rest.2.1 rest.2.2

instance [Fintype Task] (N : UInt64) : DecidableRel (@WakesSurvivors Task _ _ N) :=
  fun _ _ => inferInstanceAs (Decidable (∀ _ ∈ _, _))

/-! ## The counter and the queue -/

variable {N : UInt64} {semaphore next : Semaphore Task} {task : Task} {life finish : Life}
  {pool : Pool Task (Semaphore Task) Life}

def Carried (N : UInt64) : Life → Prop
  | .live pc => Semaphore.Carried N pc
  | _ => True

/-- The counter stays within its limit, and every token belongs to a task that
is suspended or has been torn down. -/
structure Sound (N : UInt64) (pool : Pool Task (Semaphore Task) Life) : Prop where
  bounded : pool.shared.count ≤ N.toNat
  carried : ∀ task, Carried N (pool.locals task)
  parked : pool.shared.cv.Parked (fun life => life = .live .acquireSuspended ∨ life = .gone)
    pool.locals

/-- What a step of a call does, with the two exchanges of `release` apart. -/
inductive Moves (N : UInt64) (task : Task) (before : Semaphore Task) :
    Pc → Semaphore Task → Pc → Prop where
  | counts {pc finish : Pc} {count : ℕ}
      (awake : pc = .acquireSuspended → task ∉ before.cv.waitQueue)
      (covered : before.cv.waitQueue = [] ∨
        count + acquiring pc ≤ before.count + acquiring finish) :
      Moves N task before pc { before with count } finish
  | suspends (unavailable : before.count = 0) :
      Moves N task before .acquireWait { before with cv := before.cv.suspend task }
        .acquireSuspended
  | notifies (n : UInt64) :
      Moves N task before (.releaseNotify n before.count)
        { count := before.count + diff N n before.count
          cv := before.cv.notify (diff N n before.count) } .idle
  | releases (n : UInt64) :
      Moves N task before (.releaseCas n before.count)
        { before with count := before.count + diff N n before.count } .idle

theorem resume_moves {spurious : Bool} {pc last : Pc} (carried : Semaphore.Carried N pc)
    (resumed : resume N task semaphore spurious pc = some (next, last)) :
    Moves N task semaphore pc next last := by
  have effect (calm : ∀ n oldc, pc ≠ .releaseCas n oldc) :
      Effect task semaphore pc next last :=
    resume_effect carried (fun n oldc same => absurd same (calm n oldc)) resumed
  cases pc with
  | releaseNotify n oldc =>
      simp only [resume] at resumed
      split at resumed
      · cases resumed
        exact .counts (by simp) (.inr (by simp))
      · split at resumed <;> cases resumed
        · rename_i exchanged
          obtain ⟨same, _, rfl⟩ := exchange_eq_some exchanged
          subst same
          rw [raised_eq carried]
          exact .notifies n
        · exact .counts (by simp) (.inr (by simp))
  | releaseCas n oldc =>
      simp only [resume] at resumed
      split at resumed <;> cases resumed
      · rename_i exchanged
        obtain ⟨same, _, rfl⟩ := exchange_eq_some exchanged
        subst same
        rw [raised_eq carried]
        exact .releases n
      · exact .counts (by simp) (.inr (by simp))
  | _ =>
      cases effect (by simp) with
      | counts awake covered => exact .counts awake covered
      | suspends waits unavailable =>
          cases waits <;> exact .suspends unavailable
      | notifies releases => cases releases

/-- A step of a task that takes part in the semaphore. -/
theorem advance_eq_some {event : Event}
    (advanced : advance N task semaphore life event = some (next, finish)) :
    (∃ pc choice last, life = .live pc ∧ event = .run choice ∧
      Semaphore.advance N task semaphore pc choice = some (next, last) ∧
        finish = settle semaphore pc last) ∨
    (∃ i, life = .yielded i ∧ next = semaphore ∧ finish = .live (.acquireLoad i)) ∨
    (life = .live .acquireSuspended ∧ event = .cancel ∧ next = semaphore ∧ finish = .gone) ∨
    (∃ i, life = .yielded i ∧ next = semaphore ∧ finish = .gone) := by
  cases life with
  | live pc =>
      cases event with
      | run choice =>
          obtain ⟨⟨shared, last⟩, moved, settled⟩ := Option.map_eq_some_iff.mp advanced
          cases settled
          exact .inl ⟨pc, choice, last, rfl, rfl, moved, rfl⟩
      | cancel =>
          cases pc <;> cases advanced
          exact .inr (.inr (.inl ⟨rfl, rfl, rfl, rfl⟩))
  | yielded i =>
      cases event with
      | run choice =>
          cases choice <;> cases advanced
          exact .inr (.inl ⟨i, rfl, rfl, rfl⟩)
      | cancel =>
          cases advanced
          exact .inr (.inr (.inr ⟨i, rfl, rfl, rfl⟩))
  | gone => contradiction

omit [DecidableEq Task] in
theorem settle_cases {pc last : Pc} :
    settle semaphore pc last = .live last ∨
      ∃ i j, settle semaphore pc last = .yielded i ∧ semaphore.count = 0 ∧
        pc = .acquireLoad j := by
  cases pc with
  | acquireLoad i =>
      by_cases turns : semaphore.count = 0 ∧ 16 < i + 1 ∧ i + 1 ≤ 100
      · exact .inr ⟨i + 1, i, by simp [settle, yields, turns], turns.1, rfl⟩
      · exact .inl (by simp only [settle, yields, if_neg turns])
  | _ => exact .inl rfl

theorem move_bounded {choice : Choice Call} {pc last : Pc}
    (bounded : semaphore.count ≤ N.toNat) (carried : Semaphore.Carried N pc)
    (moved : Semaphore.advance N task semaphore pc choice = some (next, last)) :
    next.count ≤ N.toNat ∧ Semaphore.Carried N last := by
  cases choice with
  | call call =>
      simp only [Semaphore.advance] at moved
      split at moved
      · cases moved
        exact ⟨bounded, by cases call <;> trivial⟩
      · contradiction
  | step spurious => exact resume_bounded bounded carried moved

theorem move_moves {choice : Choice Call} {pc last : Pc} (carried : Semaphore.Carried N pc)
    (moved : Semaphore.advance N task semaphore pc choice = some (next, last)) :
    Moves N task semaphore pc next last := by
  cases choice with
  | call call =>
      simp only [Semaphore.advance] at moved
      split at moved
      · rename_i outside
        cases moved
        rw [outside]
        exact .counts (by simp) (.inr (by simp))
      · contradiction
  | step spurious => exact resume_moves carried moved

theorem Sound.parked_live (sound : Sound N pool) {pc last : Pc}
    (stands : pool.locals task = .live pc) (moves : Moves N task pool.shared pc next last) :
    next.cv.Parked (fun life => life = .live .acquireSuspended ∨ life = .gone)
      (Function.update pool.locals task (settle pool.shared pc last)) := by
  have outside (awake : pc ≠ .acquireSuspended) : task ∉ pool.shared.cv.waitQueue :=
    sound.parked.absent (by simp [stands, awake])
  cases moves with
  | counts awake covered =>
      by_cases suspended : pc = .acquireSuspended
      · exact sound.parked.move (awake suspended)
      · exact sound.parked.move (outside suspended)
  | suspends unavailable => exact sound.parked.suspend (by simp [stands]) (.inl rfl)
  | notifies n => exact (sound.parked.move (outside (by simp))).notify _
  | releases n => exact sound.parked.move (outside (by simp))

theorem Sound.step (sound : Sound N pool) {event : Event}
    (advanced : advance N task pool.shared (pool.locals task) event = some (next, finish)) :
    Sound N { shared := next, locals := Function.update pool.locals task finish } := by
  have others (kept : Carried N finish) :
      ∀ other, Carried N (Function.update pool.locals task finish other) := by
    rw [Function.forall_update_iff]
    exact ⟨kept, fun other _ => sound.carried other⟩
  have here := sound.carried task
  rcases advance_eq_some advanced with ⟨pc, choice, last, stands, rfl, moved, rfl⟩ |
    ⟨i, stands, rfl, rfl⟩ | ⟨stands, rfl, rfl, rfl⟩ | ⟨i, stands, rfl, rfl⟩
  · rw [stands] at here
    have counted := move_bounded sound.bounded here moved
    refine ⟨counted.1, others ?_, sound.parked_live stands (move_moves here moved)⟩
    have place : settle pool.shared pc last = .live last ∨ _ := settle_cases
    rcases place with same | ⟨i, j, turned, _⟩
    · rw [same]
      exact counted.2
    · rw [turned]
      trivial
  · exact ⟨sound.bounded, others trivial,
      sound.parked.move (sound.parked.absent (by simp [stands]))⟩
  · refine ⟨sound.bounded, others trivial, sound.parked.distinct, fun other member => ?_⟩
    by_cases same : other = task
    · subst same
      exact .inr (by simp)
    · simpa [Function.update_of_ne same] using sound.parked.suspended other member
  · exact ⟨sound.bounded, others trivial,
      sound.parked.move (sound.parked.absent (by simp [stands]))⟩

theorem sound_of_reachable {guard : Pool Task (Semaphore Task) Life → Task × Event → Prop}
    (reachable : (machine N Task).Reachable guard pool) : Sound N pool := by
  refine Program.invariant reachable ?_ ?_
  · rintro first ⟨count, rfl⟩
    exact ⟨Nat.min_le_left _ _, fun _ => trivial, .of_empty⟩
  · intro pool task event shared finish sound _ advanced
    exact sound.step advanced

/-! ## Permits and the tasks on their way to them -/

section Attends

variable [Fintype Task] {locals : Task → Life} {queue : List Task} {count : ℕ}

omit [Fintype Task] in
theorem survivors_update (outside : task ∉ queue) :
    survivors (Function.update locals task finish) queue = survivors locals queue := by
  refine List.filter_congr fun other member => ?_
  have different : other ≠ task := by
    intro same
    exact outside (same ▸ member)
  rw [Function.update_of_ne different]

omit [DecidableEq Task] in
theorem Sound.survivors_le (sound : Sound N pool) :
    (survivors pool.locals pool.shared.cv.waitQueue).length ≤ tally standing pool.locals := by
  refine length_le_tally (sound.parked.distinct.filter _) fun other member => ?_
  obtain ⟨queued, living⟩ := List.mem_filter.mp member
  rcases sound.parked.suspended other queued with suspended | gone
  · rw [suspended]
    exact Nat.le_refl 1
  · simp [gone] at living

omit [DecidableEq Task] in
/-- Nobody has to be awake while there is no permit. -/
theorem Sound.attends (sound : Sound N pool) (unavailable : pool.shared.count = 0) :
    Attends pool.locals pool.shared.cv.waitQueue pool.shared.count := by
  have length := sound.survivors_le
  exact .inr (by omega)

/-- A task outside the queue moves on, with as many permits as it is on its way to. -/
theorem Attends.move {more : ℕ} (attends : Attends locals queue count) (outside : task ∉ queue)
    (covered : more + standing (locals task) ≤ count + standing finish) :
    Attends (Function.update locals task finish) queue more := by
  have counted := tally_update standing locals task finish
  rw [Attends, survivors_update outside]
  rcases attends with nobody | enough
  · exact .inl nobody
  · exact .inr (by omega)

/-- A queued task is torn down. -/
theorem Attends.cancel (attends : Attends locals queue count) (distinct : queue.Nodup)
    (queued : task ∈ queue) (suspended : locals task = .live .acquireSuspended) :
    Attends (Function.update locals task .gone) queue count := by
  have counted := tally_update standing locals task .gone
  have weight : standing (locals task) = 1 := by rw [suspended]; rfl
  have removed : survivors (Function.update locals task .gone) queue =
      (survivors locals queue).erase task := by
    have apart : (survivors locals queue).erase task =
        (survivors locals queue).filter (· != task) := (distinct.filter _).erase_eq_filter task
    rw [apart, survivors, survivors, List.filter_filter]
    refine List.filter_congr fun other _ => ?_
    by_cases same : other = task
    · simp [same]
    · simp [same]
  have member : task ∈ survivors locals queue := List.mem_filter.mpr ⟨queued, by simp [suspended]⟩
  have shorter := List.length_erase_of_mem member
  have nonempty : 0 < (survivors locals queue).length := List.length_pos_of_mem member
  rcases attends with nobody | enough
  · simp [nobody] at member
  · refine .inr ?_
    rw [removed, shorter]
    have nothing : standing .gone = 0 := rfl
    omega

omit [Fintype Task] in
/-- A task that yields has found no permit and changes nothing. -/
theorem move_yielding {choice : Choice Call} {last : Pc} {i : UInt64}
    (unavailable : semaphore.count = 0)
    (moved : Semaphore.advance N task semaphore (.acquireLoad i) choice = some (next, last)) :
    next = semaphore := by
  cases choice with
  | call call => simp [Semaphore.advance] at moved
  | step spurious =>
      simp only [Semaphore.advance, resume, if_pos unavailable] at moved
      split at moved <;> cases moved <;> rfl

omit [Fintype Task] in
/-- An exchange of `release` that ends the call has not failed. -/
theorem certain_of_idle {choice : Choice Call} {pc : Pc} {n : UInt64} {oldc : ℕ}
    (releases : pc = .releaseNotify n oldc ∨ pc = .releaseCas n oldc)
    (moved : Semaphore.advance N task semaphore pc choice = some (next, .idle)) :
    choice = .step false := by
  cases choice with
  | call call => rcases releases with rfl | rfl <;> simp [Semaphore.advance] at moved
  | step spurious =>
      cases spurious with
      | false => rfl
      | true =>
          rcases releases with rfl | rfl
          · by_cases empty : semaphore.cv.waitQueue = [] <;>
              simp [Semaphore.advance, resume, exchange, empty] at moved
          · simp [Semaphore.advance, resume, exchange] at moved

theorem Sound.attends_live (sound : Sound N pool) {choice : Choice Call} {pc last : Pc}
    (soundNext : Sound N
      { shared := next, locals := Function.update pool.locals task (.live last) })
    (attends : Attends pool.locals pool.shared.cv.waitQueue pool.shared.count)
    (stands : pool.locals task = .live pc)
    (allowed : WakesSurvivors N pool (task, .run choice))
    (moved : Semaphore.advance N task pool.shared pc choice = some (next, last)) :
    Attends (Function.update pool.locals task (.live last)) next.cv.waitQueue next.count := by
  have here := sound.carried task
  rw [stands] at here
  have outside (awake : pc ≠ .acquireSuspended) : task ∉ pool.shared.cv.waitQueue :=
    sound.parked.absent (by simp [stands, awake])
  have moves := move_moves here moved
  cases moves with
  | @counts _ _ count awake covered =>
      have away : task ∉ pool.shared.cv.waitQueue := by
        by_cases suspended : pc = .acquireSuspended
        · exact awake suspended
        · exact outside suspended
      rcases covered with empty | covered
      · exact .inl (by simp [survivors, empty])
      · exact attends.move away (by rw [stands]; exact covered)
  | suspends unavailable => exact soundNext.attends unavailable
  | notifies n =>
      have away := outside (by simp)
      cases certain_of_idle (.inl rfl) moved
      have rest : Attends pool.locals (pool.shared.cv.waitQueue.drop (diff N n pool.shared.count))
          (pool.shared.count + diff N n pool.shared.count) :=
        allowed _ (by simp only [left, stands, if_true]; rfl)
      refine rest.move (fun member => away (List.mem_of_mem_drop member)) ?_
      rw [stands]
      exact Nat.le_refl _
  | releases n =>
      have away := outside (by simp)
      cases certain_of_idle (.inr rfl) moved
      have rest : Attends pool.locals pool.shared.cv.waitQueue
          (pool.shared.count + diff N n pool.shared.count) :=
        allowed _ (by simp only [left, stands, if_true]; rfl)
      refine rest.move away ?_
      rw [stands]
      exact Nat.le_refl _

theorem Sound.attends_step (sound : Sound N pool) {event : Event}
    (attends : Attends pool.locals pool.shared.cv.waitQueue pool.shared.count)
    (allowed : WakesSurvivors N pool (task, event))
    (advanced : advance N task pool.shared (pool.locals task) event = some (next, finish)) :
    Attends (Function.update pool.locals task finish) next.cv.waitQueue next.count := by
  have soundNext := sound.step advanced
  have outside (awake : pool.locals task ≠ .live .acquireSuspended)
      (living : pool.locals task ≠ .gone) : task ∉ pool.shared.cv.waitQueue :=
    sound.parked.absent (by simp [awake, living])
  rcases advance_eq_some advanced with ⟨pc, choice, last, stands, rfl, moved, rfl⟩ |
    ⟨i, stands, rfl, rfl⟩ | ⟨stands, rfl, rfl, rfl⟩ | ⟨i, stands, rfl, rfl⟩
  · have place : settle pool.shared pc last = .live last ∨ _ := settle_cases
    rcases place with same | ⟨i, j, turned, unavailable, rfl⟩
    · rw [same] at soundNext ⊢
      exact sound.attends_live soundNext attends stands allowed moved
    · cases move_yielding unavailable moved
      exact soundNext.attends unavailable
  · refine attends.move (outside (by simp [stands]) (by simp [stands])) ?_
    rw [stands]
    exact Nat.le_add_right _ _
  · by_cases queued : task ∈ pool.shared.cv.waitQueue
    · exact attends.cancel sound.parked.distinct queued stands
    · exact allowed _ (by simp only [left, stands, if_neg queued]; rfl)
  · refine attends.move (outside (by simp [stands]) (by simp [stands])) ?_
    rw [stands]
    exact Nat.le_refl _

def Attended (pool : Pool Task (Semaphore Task) Life) : Prop :=
  Attends pool.locals pool.shared.cv.waitQueue pool.shared.count

theorem attended_of_reachable
    (reachable : (machine N Task).Reachable (WakesSurvivors N) pool) : Attended pool := by
  refine Program.invariant_of_known reachable (fun _ before => sound_of_reachable before) ?_ ?_
  · rintro first ⟨count, rfl⟩
    exact .inl rfl
  · intro pool task event shared finish sound attends allowed advanced
    exact sound.attends_step attends allowed advanced

theorem noLostWakeUp_of_wakesSurvivors
    (reachable : (machine N Task).Reachable (WakesSurvivors N) pool) : NoLostWakeUp pool := by
  intro settled available
  have sound := sound_of_reachable reachable
  rcases attended_of_reachable reachable with nobody | enough
  · exact nobody
  · have waiting : tally standing pool.locals ≤
        (survivors pool.locals pool.shared.cv.waitQueue).length := by
      refine tally_le_length ?_ ?_
      · intro task
        rcases settled task with idle | gone | ⟨suspended, _⟩
        · simp [idle, standing]
        · simp [gone, standing]
        · simp [suspended, standing]
      · intro task weighs
        rcases settled task with idle | gone | ⟨suspended, queued⟩
        · simp [idle, standing] at weighs
        · simp [gone, standing] at weighs
        · exact List.mem_filter.mpr ⟨queued, by simp [suspended]⟩
    omega

end Attends

/-- A task acquires, finds no permit, spins and yields until it is queued. -/
def queues (task : Task) : List (Task × Event) :=
  (task, .run (.call .acquire)) :: List.replicate 187 (task, .run (.step false))

/-- A task releases one permit while no other call takes a step. -/
def releases (task : Task) : List (Task × Event) :=
  [(task, .run (.call (.release 1))), (task, .run (.step false)), (task, .run (.step false))]

set_option maxRecDepth 4000 in
/-- The second of two queued tasks is cancelled; a release wakes the first one,
which acquires, and a second release pops the token that is left. -/
theorem noLostWakeUp_of_wakesSurvivors_lastCancelled :
    ∃ pool : Pool (Fin 3) (Semaphore (Fin 3)) Life,
      (machine 1 (Fin 3)).Reachable (WakesSurvivors 1) pool ∧
        (Settled pool ∧ pool.shared.count = 1) ∧ NoLostWakeUp pool := by
  obtain ⟨pool, reachable, settled⟩ :=
    Machine.reachable_of_exec (machine 1 (Fin 3)) (WakesSurvivors 1) (fresh 1 0 (Fin 3))
      (List.flatten
        [queues 0,
          queues 1,
          (1, .cancel) :: releases 2,
          List.replicate 3 (0, .run (.step false)),
          releases 2])
      (fun pool => Settled pool ∧ pool.shared.count = 1)
      ⟨0, rfl⟩ ⟨_, rfl, by decide, by decide⟩
  exact ⟨pool, reachable, settled, noLostWakeUp_of_wakesSurvivors reachable⟩

set_option maxRecDepth 4000 in
/-- The first of two queued tasks is cancelled, and a release spends its wake-up
on the token of that task. -/
theorem permit_beside_surviving_task :
    ∃ pool : Pool (Fin 3) (Semaphore (Fin 3)) Life,
      (machine 1 (Fin 3)).Reachable Machine.free pool ∧ ¬ NoLostWakeUp pool := by
  refine Machine.reachable_of_exec (machine 1 (Fin 3)) Machine.free (fresh 1 0 (Fin 3))
    (List.flatten
      [queues 0,
        queues 1,
        (0, .cancel) :: releases 2])
    (fun pool => ¬ NoLostWakeUp pool) ⟨0, rfl⟩ ⟨_, rfl, ?_⟩
  intro noLostWakeUp
  have empty := noLostWakeUp (by decide) (by decide)
  exact absurd empty (by decide)

end Asco.Sync.Semaphore.Cancellation
