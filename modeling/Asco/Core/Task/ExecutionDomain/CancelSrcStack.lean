import Asco.Foundation.FixedArray

namespace Asco.Core.Task

open Foundation

/-! # The array of cancel sources

`attach_execution` as it writes to the `cancel_src_stack` of an execution, in the two
kinds of build.
-/

inductive Build where
  | debug
  | ndebug
deriving DecidableEq

/-- The call goes on after an `asco_assert`, which without debugging is of no consequence. -/
def Build.passes : Build → Bool → Bool
  | .debug, expr => expr
  | .ndebug, _ => true

/-- The members of an `execution` that hold its cancel sources.  The array has one entry more
than domains may be nested. -/
structure CancelSrcStack (Source : Type*) (nestMaxDepth : ℕ) where
  cancelSrcStack : Fin (nestMaxDepth + 1) → Option Source
  size : ℕ

inductive Attachment (Source : Type*) (nestMaxDepth : ℕ) where
  /-- The assertion has failed, before anything is written. -/
  | rejected
  /-- An index is not in the array. -/
  | outOfBounds
  | attached (execution : CancelSrcStack Source nestMaxDepth)

namespace CancelSrcStack

variable {Source : Type*} {nestMaxDepth : ℕ}

/-- `get_cancel_source_stack`. -/
def getCancelSourceStack (execution : CancelSrcStack Source nestMaxDepth) : List (Option Source) :=
  (List.ofFn execution.cancelSrcStack).take execution.size

/-- The array with the sources of the parent, the new one and a null pointer behind them. -/
def written (nestMaxDepth : ℕ) (parentSrcStack : List (Option Source)) (cancelSrc : Source) :
    Option (Fin (nestMaxDepth + 1) → Option Source) := do
  let array ← FixedArray.copyFrom (fun _ => none) 0 parentSrcStack
  let array ← FixedArray.store array parentSrcStack.length (some cancelSrc)
  FixedArray.store array (parentSrcStack.length + 1) none

/-- `execution_domain::attach_execution`. -/
def attachExecution (build : Build) (nestMaxDepth : ℕ) (parentSrcStack : List (Option Source))
    (cancelSrc : Source) : Attachment Source nestMaxDepth :=
  if build.passes (parentSrcStack.length < nestMaxDepth) then
    match written nestMaxDepth parentSrcStack cancelSrc with
    | some cancelSrcStack => .attached { cancelSrcStack, size := parentSrcStack.length + 1 }
    | none => .outOfBounds
  else .rejected

/-- The array has the sources and nothing else. -/
structure Holds (execution : CancelSrcStack Source nestMaxDepth) (sources : List Source) :
    Prop where
  size : execution.size = sources.length
  fits : sources.length ≤ nestMaxDepth
  entries : ∀ place : Fin (nestMaxDepth + 1), execution.cancelSrcStack place = sources[place.val]?

/-- The sources of the parent are recorded with the new one behind them, or the attachment is
rejected. -/
def Recorded (parentSources : List Source) (cancelSrc : Source) :
    Attachment Source nestMaxDepth → Prop
  | .rejected => True
  | .outOfBounds => False
  | .attached execution => execution.Holds (parentSources ++ [cancelSrc])

variable {execution : CancelSrcStack Source nestMaxDepth} {sources : List Source}
  {cancelSrc : Source}

theorem Holds.getCancelSourceStack (holds : execution.Holds sources) :
    execution.getCancelSourceStack = sources.map some := by
  apply List.ext_getElem?
  intro index
  have bound := holds.fits
  rw [CancelSrcStack.getCancelSourceStack, List.getElem?_take, List.getElem?_map, holds.size]
  by_cases inside : index < sources.length
  · have here : index < nestMaxDepth + 1 := by omega
    rw [if_pos inside, List.getElem?_ofFn, dif_pos here, holds.entries,
      List.getElem?_eq_getElem inside]
    rfl
  · rw [if_neg inside, List.getElem?_eq_none (Nat.not_lt.mp inside)]
    rfl

/-- Within the bound both writes behind the copy are in the array. -/
theorem written_of_lt (cancelSrc : Source) (shallow : sources.length < nestMaxDepth) :
    ∃ array, written nestMaxDepth (sources.map some) cancelSrc = some array ∧
      ∀ place, array place = (sources ++ [cancelSrc])[place.val]? := by
  have together : written nestMaxDepth (sources.map some) cancelSrc =
      FixedArray.copyFrom (fun _ => none) 0
        (sources.map some ++ [some cancelSrc, (none : Option Source)]) := by
    rw [FixedArray.copyFrom_append, Nat.zero_add]
    simp only [written, FixedArray.copyFrom, Option.bind_eq_bind, Option.bind_fun_some]
  have fits : 0 + (sources.map some ++ [some cancelSrc, (none : Option Source)]).length ≤
      nestMaxDepth + 1 := by
    simp
    omega
  obtain ⟨array, copied, entries⟩ := FixedArray.copyFrom_exists (fun _ => none) fits
  refine ⟨array, together.trans copied, fun place => ?_⟩
  rw [entries, if_neg (Nat.not_lt_zero _), Nat.sub_zero]
  simp only [List.getElem?_append, List.length_map, List.getElem?_map]
  split
  · cases sources[place.val]? <;> rfl
  · rcases place.val - sources.length with _ | _ | _ <;> rfl

theorem written_of_le (deep : nestMaxDepth ≤ sources.length) :
    written nestMaxDepth (sources.map some) cancelSrc = none := by
  have outside : nestMaxDepth + 1 ≤ sources.length + 1 := Nat.succ_le_succ deep
  simp [written, FixedArray.store_of_le outside]

/-- `attach_execution` records the sources or rejects the attachment exactly if its assertion is
compiled in or holds. -/
theorem recorded_iff (build : Build) :
    Recorded sources cancelSrc
        (attachExecution build nestMaxDepth (sources.map some) cancelSrc) ↔
      build = .debug ∨ sources.length < nestMaxDepth := by
  rw [attachExecution, List.length_map]
  by_cases shallow : sources.length < nestMaxDepth
  · obtain ⟨array, wrote, entries⟩ := written_of_lt cancelSrc shallow
    have passes : build.passes (decide (sources.length < nestMaxDepth)) = true := by
      rw [decide_eq_true shallow]
      cases build <;> rfl
    rw [if_pos passes, wrote]
    refine iff_of_true ⟨?_, ?_, entries⟩ (.inr shallow)
    · simp
    · rw [List.length_append]
      exact shallow
  · cases build with
    | debug => simp [Build.passes, shallow, Recorded]
    | ndebug =>
        rw [written_of_le (Nat.not_lt.mp shallow)]
        exact iff_of_false id (by simpa using shallow)

theorem holds_of_attached {build : Build}
    (attached : attachExecution build nestMaxDepth (sources.map some) cancelSrc =
      .attached execution) : execution.Holds (sources ++ [cancelSrc]) := by
  by_cases shallow : sources.length < nestMaxDepth
  · have recorded : Recorded sources cancelSrc
        (attachExecution build nestMaxDepth (sources.map some) cancelSrc) :=
      (recorded_iff build).mpr (.inr shallow)
    rwa [attached] at recorded
  · rw [attachExecution, written_of_le (Nat.not_lt.mp shallow)] at attached
    split at attached <;> contradiction

end CancelSrcStack

end Asco.Core.Task
