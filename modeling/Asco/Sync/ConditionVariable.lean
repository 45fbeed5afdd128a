import Asco.Foundation.Machine

namespace Asco.Sync

open Foundation

/-! # `condition_variable`: the queue of suspended tasks

A critical section of the queue lock is one step of the component that waits or
notifies.  A task whose token is in the queue is suspended; taking the token out
of the queue wakes it.
-/

/-- `m_wait_queue`, the next task to wake first. -/
structure ConditionVariable (Task : Type*) where
  waitQueue : List Task

namespace ConditionVariable

variable {Task Pc : Type*}

def empty : ConditionVariable Task where
  waitQueue := []

/-- The critical section of `wait` and `wait_once` after the predicate was false. -/
def suspend (cv : ConditionVariable Task) (task : Task) : ConditionVariable Task where
  waitQueue := cv.waitQueue ++ [task]

/-- The critical section of `notify(n)`. -/
def notify (cv : ConditionVariable Task) (n : ℕ) : ConditionVariable Task where
  waitQueue := cv.waitQueue.drop n

/-- The critical section of `notify()`; a queue holds fewer than 2^64 tokens. -/
def notifyAll (_ : ConditionVariable Task) : ConditionVariable Task := empty

@[simp] theorem notifyAll_waitQueue (cv : ConditionVariable Task) : cv.notifyAll.waitQueue = [] :=
  rfl

@[simp] theorem empty_waitQueue : (empty : ConditionVariable Task).waitQueue = [] := rfl

@[simp] theorem suspend_waitQueue (cv : ConditionVariable Task) (task : Task) :
    (cv.suspend task).waitQueue = cv.waitQueue ++ [task] := rfl

@[simp] theorem notify_waitQueue (cv : ConditionVariable Task) (n : ℕ) :
    (cv.notify n).waitQueue = cv.waitQueue.drop n := rfl

/-- Every token in the queue belongs to a different task, and that task is
suspended at a program counter of the given kind. -/
structure Parked (cv : ConditionVariable Task) (suspended : Pc → Prop) (locals : Task → Pc) :
    Prop where
  distinct : cv.waitQueue.Nodup
  suspended : ∀ task ∈ cv.waitQueue, suspended (locals task)

namespace Parked

variable {cv : ConditionVariable Task} {suspended : Pc → Prop} {locals : Task → Pc} {task : Task}
  {next : Pc}

theorem of_empty : (empty : ConditionVariable Task).Parked suspended locals where
  distinct := List.nodup_nil
  suspended := by simp

theorem absent (parked : cv.Parked suspended locals) (awake : ¬ suspended (locals task)) :
    task ∉ cv.waitQueue :=
  fun member => awake (parked.suspended task member)

theorem notify (parked : cv.Parked suspended locals) (n : ℕ) :
    (cv.notify n).Parked suspended locals where
  distinct := parked.distinct.sublist (List.drop_sublist n _)
  suspended task member := parked.suspended task (List.mem_of_mem_drop member)

variable [DecidableEq Task]

/-- A task outside the queue may move on. -/
theorem move (parked : cv.Parked suspended locals) (outside : task ∉ cv.waitQueue) :
    cv.Parked suspended (Function.update locals task next) where
  distinct := parked.distinct
  suspended other member := by
    have different : other ≠ task := by
      rintro rfl
      exact outside member
    rw [Function.update_of_ne different]
    exact parked.suspended other member

theorem suspend (parked : cv.Parked suspended locals) (awake : ¬ suspended (locals task))
    (stops : suspended next) :
    (cv.suspend task).Parked suspended (Function.update locals task next) where
  distinct := by
    have outside := parked.absent awake
    rw [suspend_waitQueue, List.nodup_append]
    refine ⟨parked.distinct, List.nodup_singleton task, ?_⟩
    intro other member last lastMember same
    rw [List.mem_singleton] at lastMember
    exact outside (lastMember ▸ same ▸ member)
  suspended other member := by
    have outside := parked.absent awake
    rw [suspend_waitQueue, List.mem_append, List.mem_singleton] at member
    rcases member with waiting | rfl
    · exact (parked.move outside).suspended other waiting
    · rw [Function.update_self]
      exact stops

end Parked

end ConditionVariable

end Asco.Sync
