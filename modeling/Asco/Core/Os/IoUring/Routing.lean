import Asco.Core.Os.IoUring

namespace Asco.Core.Os.IoUring

open Foundation

/-! # Completions find the call that asked for them -/

variable {Call : Type*} {state next : State Call} {call : Call} {request : IoRequest}
  {label : Label Call} {res : ℤ}

/-- The calls whose request the kernel has, or has answered without `run_once`
having looked. -/
def State.pending (state : State Call) : List Call :=
  state.submitted.map Sqe.call ++ state.completed.map Cqe.call

/-- The invariant of runs in which no identifier is used twice at a time. -/
structure Tracked (state : State Call) : Prop where
  calm : state.panicked = false
  inserted : state.repeated = false
  known : ∀ call request reqid awake, state.progress call = .waiting request reqid awake →
    reqid = request.genRequestId ∧ ∃ res, state.requests reqid = some { token := call, res } ∧
      (awake = true → state.reported call = some res)
  owned : ∀ reqid entry, state.requests reqid = some entry →
    ∃ request awake, state.progress entry.token = .waiting request reqid awake
  queued : ∀ sqe ∈ state.submitted, ∃ request,
    state.progress sqe.call = .waiting request sqe.userData false
  answered : ∀ cqe ∈ state.completed, state.reported cqe.call = some cqe.res ∧
    ∃ request, state.progress cqe.call = .waiting request cqe.userData false
  once : state.pending.Nodup
  served : ∀ call request outcome, state.progress call = .finished request outcome →
    ∃ res, state.reported call = some res ∧ outcome = request.outcome res

theorem Progress.outstanding_eq_some {progress : Progress} :
    progress.outstanding = some request ↔
      ∃ reqid awake, progress = .waiting request reqid awake := by
  cases progress with
  | waiting held reqid awake => simp [Progress.outstanding]
  | unused | finished => simp [Progress.outstanding]

theorem tracked_initial (Call : Type*) : Tracked (State.initial Call) where
  calm := rfl
  inserted := rfl
  known _ _ _ _ waits := by cases waits
  owned _ _ found := by cases found
  queued _ member := by cases member
  answered _ member := by cases member
  once := List.nodup_nil
  served _ _ _ done := by cases done

/-- The entry of a call that waits is its own. -/
theorem Tracked.found (tracked : Tracked state) {reqid : IoRequestId} {awake : Bool}
    (waits : state.progress call = .waiting request reqid awake) :
    ∃ res, state.requests reqid = some { token := call, res } ∧
      (awake = true → state.reported call = some res) :=
  (tracked.known call request reqid awake waits).2

theorem Tracked.routed (tracked : Tracked state) : state.Routed where
  distinct := by
    intro one two request earlier different first second same
    obtain ⟨reqid, awake, waits⟩ := Progress.outstanding_eq_some.mp first
    obtain ⟨other, late, waited⟩ := Progress.outstanding_eq_some.mp second
    obtain ⟨rfl, _, foundOne, _⟩ := tracked.known one request reqid awake waits
    obtain ⟨rfl, _, foundTwo, _⟩ := tracked.known two earlier other late waited
    rw [same, foundTwo] at foundOne
    cases foundOne
    exact different rfl
  inserted := tracked.inserted
  known := by
    intro cqe member
    obtain ⟨request, waits⟩ := (tracked.answered cqe member).2
    obtain ⟨res, found, _⟩ := tracked.found waits
    exact ⟨_, found, rfl⟩
  served := tracked.served
  calm := tracked.calm

theorem Tracked.fresh (tracked : Tracked state) (apart : Apart state (.submit call request)) :
    state.requests request.genRequestId = none := by
  cases found : state.requests request.genRequestId with
  | none => rfl
  | some entry =>
      obtain ⟨earlier, awake, waits⟩ := tracked.owned _ entry found
      have outstanding : earlier ∈ (state.progress entry.token).outstanding := by
        rw [waits]
        rfl
      have differ := (request.tells_iff earlier).mp (apart entry.token earlier outstanding)
      exact absurd (tracked.known _ _ _ _ waits).1 differ

variable [DecidableEq Call]

theorem Tracked.submit (tracked : Tracked state) (unused : state.progress call = .unused)
    (apart : Apart state (.submit call request)) : Tracked (state.submit call request) := by
  have fresh := tracked.fresh apart
  have other {held : Call} {request : IoRequest} {reqid : IoRequestId} {awake : Bool}
      (waits : state.progress held = .waiting request reqid awake) : held ≠ call := by
    rintro rfl
    cases unused.symm.trans waits
  have idle : call ∉ state.pending := by
    intro member
    cases List.mem_append.mp member with
    | inl asked =>
        obtain ⟨sqe, inside, rfl⟩ := List.mem_map.mp asked
        obtain ⟨_, waits⟩ := tracked.queued sqe inside
        exact other waits rfl
    | inr told =>
        obtain ⟨cqe, inside, rfl⟩ := List.mem_map.mp told
        obtain ⟨_, _, waits⟩ := tracked.answered cqe inside
        exact other waits rfl
  have kept {held : Call} (different : held ≠ call) :
      (state.submit call request).progress held = state.progress held :=
    Function.update_of_ne different _ _
  have taken : (state.submit call request).progress call =
      .waiting request request.genRequestId false := Function.update_self _ _ _
  have entries : (state.submit call request).requests =
      Function.update state.requests request.genRequestId (some { token := call, res := 0 }) := by
    simp [State.submit, fresh]
  constructor
  · exact tracked.calm
  · simp [State.submit, fresh, tracked.inserted]
  · intro held earlier reqid awake waits
    rw [entries]
    by_cases same : held = call
    · subst same
      rw [taken] at waits
      cases waits
      exact ⟨rfl, 0, Function.update_self _ _ _, fun woken => by cases woken⟩
    · rw [kept same] at waits
      obtain ⟨is, res, found, reported⟩ := tracked.known _ _ _ _ waits
      refine ⟨is, res, ?_, reported⟩
      rw [Function.update_of_ne]
      · exact found
      · rintro rfl
        cases fresh.symm.trans found
  · intro reqid entry found
    rw [entries] at found
    by_cases same : reqid = request.genRequestId
    · subst same
      rw [Function.update_self] at found
      cases found
      exact ⟨request, false, taken⟩
    · rw [Function.update_of_ne same] at found
      obtain ⟨earlier, awake, waits⟩ := tracked.owned reqid entry found
      exact ⟨earlier, awake, (kept (other waits)).trans waits⟩
  · intro sqe member
    cases List.mem_append.mp member with
    | inl before =>
        obtain ⟨earlier, waits⟩ := tracked.queued sqe before
        exact ⟨earlier, (kept (other waits)).trans waits⟩
    | inr now =>
        obtain rfl := List.mem_singleton.mp now
        exact ⟨request, taken⟩
  · intro cqe member
    obtain ⟨reported, earlier, waits⟩ := tracked.answered cqe member
    exact ⟨reported, earlier, (kept (other waits)).trans waits⟩
  · have moved : (state.submit call request).pending.Perm (call :: state.pending) := by
      simp only [State.pending, State.submit, List.map_append, List.map_cons, List.map_nil,
        List.append_assoc, List.singleton_append]
      exact List.perm_middle
    exact moved.nodup_iff.mpr (List.nodup_cons.mpr ⟨idle, tracked.once⟩)
  · intro held earlier outcome done
    have different : held ≠ call := by
      rintro rfl
      cases taken.symm.trans done
    rw [kept different] at done
    exact tracked.served held earlier outcome done

/-- The kernel's answer moves one entry from a queue to the other. -/
theorem Tracked.answer (tracked : Tracked state) (answered : state.answer call res = some next) :
    Tracked next := by
  obtain ⟨sqe, found, rfl⟩ := Option.map_eq_some_iff.mp answered
  obtain ⟨is, before, after, split, earlier⟩ := List.find?_eq_some_iff_append.mp found
  obtain rfl : sqe.call = call := by simpa using is
  have rest : state.submitted.eraseP (fun entry => entry.call = sqe.call) = before ++ after := by
    rw [split, List.eraseP_append_right _ fun entry member => by simpa using earlier entry member,
      List.eraseP_cons_of_pos (by simp)]
  have member : sqe ∈ state.submitted := by simp [split]
  have remains {entry : Sqe Call} (inside : entry ∈ before ++ after) : entry ∈ state.submitted := by
    rw [split]
    exact List.mem_append.mpr ((List.mem_append.mp inside).imp_right (List.mem_cons_of_mem _))
  obtain ⟨request, waits⟩ := tracked.queued sqe member
  have apart := tracked.once
  rw [State.pending, split, List.map_append, List.map_cons, List.append_assoc,
    List.cons_append] at apart
  have alone := (List.nodup_cons.mp (List.perm_middle.nodup_iff.mp apart)).1
  constructor
  · exact tracked.calm
  · exact tracked.inserted
  · intro held earlier reqid awake waited
    obtain ⟨is, was, entry, reported⟩ := tracked.known held earlier reqid awake waited
    refine ⟨is, was, entry, fun woken => ?_⟩
    have different : held ≠ sqe.call := by
      rintro rfl
      rw [waits] at waited
      cases waited
      cases woken
    exact (Function.update_of_ne different _ _).trans (reported woken)
  · exact tracked.owned
  · intro entry inside
    dsimp only at inside
    rw [rest] at inside
    exact tracked.queued entry (remains inside)
  · intro cqe inside
    cases List.mem_append.mp inside with
    | inl before =>
        have different : cqe.call ≠ sqe.call := by
          intro same
          refine alone (List.mem_append_right _ (List.mem_append_right _ ?_))
          exact List.mem_map.mpr ⟨cqe, before, same⟩
        obtain ⟨reported, known⟩ := tracked.answered cqe before
        exact ⟨(Function.update_of_ne different _ _).trans reported, known⟩
    | inr now =>
        obtain rfl := List.mem_singleton.mp now
        exact ⟨Function.update_self _ _ _, request, waits⟩
  · have moved : (State.pending { state with
        submitted := state.submitted.eraseP fun entry => entry.call = sqe.call
        completed := state.completed ++ [{ call := sqe.call, userData := sqe.userData, res }]
        reported := Function.update state.reported sqe.call (some res) }).Perm state.pending := by
      simp only [State.pending, rest]
      rw [split]
      simp only [List.map_append, List.map_cons, List.map_nil, List.append_assoc]
      refine List.Perm.append_left _ ?_
      rw [← List.append_assoc]
      exact List.perm_append_singleton _ _
    exact moved.nodup_iff.mpr tracked.once
  · intro held earlier outcome done
    obtain ⟨was, reported, is⟩ := tracked.served held earlier outcome done
    have different : held ≠ sqe.call := by
      rintro rfl
      cases waits.symm.trans done
    exact ⟨was, (Function.update_of_ne different _ _).trans reported, is⟩

/-- `run_once` finds the entry of the call whose request is completed. -/
theorem Tracked.runOnce (tracked : Tracked state) (taken : state.runOnce = some next) :
    Tracked next := by
  unfold State.runOnce at taken
  cases queue : state.completed with
  | nil =>
      rw [queue] at taken
      cases taken
  | cons cqe rest =>
      have head : cqe ∈ state.completed := by simp [queue]
      obtain ⟨reported, request, waits⟩ := tracked.answered cqe head
      obtain ⟨is, res, found, _⟩ := tracked.known _ _ _ _ waits
      simp only [queue, found, waits, Progress.awake] at taken
      cases taken
      have apart := tracked.once
      rw [State.pending, queue, List.map_cons] at apart
      have alone := (List.nodup_cons.mp (List.perm_middle.nodup_iff.mp apart)).1
      have once := (List.nodup_cons.mp (List.perm_middle.nodup_iff.mp apart)).2
      have woken : Function.update state.progress cqe.call (.waiting request cqe.userData true)
          cqe.call = .waiting request cqe.userData true := Function.update_self _ _ _
      have kept {held : Call} (different : held ≠ cqe.call) :
          Function.update state.progress cqe.call (.waiting request cqe.userData true) held =
            state.progress held := Function.update_of_ne different _ _
      constructor
      · exact tracked.calm
      · exact tracked.inserted
      · intro held earlier reqid awake waited
        dsimp only at waited ⊢
        by_cases same : held = cqe.call
        · subst same
          rw [woken] at waited
          cases waited
          exact ⟨is, cqe.res, Function.update_self _ _ _, fun _ => reported⟩
        · rw [kept same] at waited
          obtain ⟨was, stored, entry, known⟩ := tracked.known _ _ _ _ waited
          refine ⟨was, stored, ?_, known⟩
          rw [Function.update_of_ne]
          · exact entry
          · rintro rfl
            rw [found] at entry
            cases entry
            exact same rfl
      · intro reqid entry stored
        dsimp only at stored ⊢
        by_cases same : reqid = cqe.userData
        · subst same
          rw [Function.update_self] at stored
          cases stored
          exact ⟨request, true, woken⟩
        · rw [Function.update_of_ne same] at stored
          obtain ⟨earlier, awake, waited⟩ := tracked.owned reqid entry stored
          refine ⟨earlier, awake, (kept ?_).trans waited⟩
          intro own
          rw [own, waits] at waited
          cases waited
          exact same rfl
      · intro sqe member
        obtain ⟨earlier, waited⟩ := tracked.queued sqe member
        refine ⟨earlier, (kept ?_).trans waited⟩
        intro own
        exact alone (List.mem_append_left _ (List.mem_map.mpr ⟨sqe, member, own⟩))
      · intro other member
        obtain ⟨known, earlier, waited⟩ :=
          tracked.answered other (by rw [queue]; exact List.mem_cons_of_mem _ member)
        refine ⟨known, earlier, (kept ?_).trans waited⟩
        intro own
        exact alone (List.mem_append_right _ (List.mem_map.mpr ⟨other, member, own⟩))
      · exact once
      · intro held earlier outcome done
        dsimp only at done
        have different : held ≠ cqe.call := by
          rintro rfl
          cases woken.symm.trans done
        rw [kept different] at done
        exact tracked.served held earlier outcome done

/-- A call that has been woken takes its own result. -/
theorem Tracked.complete (tracked : Tracked state) (completes : state.complete call = some next) :
    Tracked next := by
  unfold State.complete at completes
  split at completes
  case h_2 => cases completes
  case h_1 request reqid waits =>
    obtain ⟨is, res, found, known⟩ := tracked.known _ _ _ _ waits
    have reported := known rfl
    rw [found] at completes
    cases completes
    have done : Function.update state.progress call (.finished request (request.outcome res))
        call = .finished request (request.outcome res) := Function.update_self _ _ _
    have kept {held : Call} (different : held ≠ call) :
        Function.update state.progress call (.finished request (request.outcome res)) held =
          state.progress held := Function.update_of_ne different _ _
    -- What is still in a queue belongs to a call that sleeps.
    have asleep {held : Call} {earlier : IoRequest} {other : IoRequestId}
        (waited : state.progress held = .waiting earlier other false) : held ≠ call := by
      rintro rfl
      cases waits.symm.trans waited
    constructor
    · exact tracked.calm
    · exact tracked.inserted
    · intro held earlier other awake waited
      dsimp only at waited ⊢
      have different : held ≠ call := by
        rintro rfl
        cases done.symm.trans waited
      rw [kept different] at waited
      obtain ⟨was, stored, entry, told⟩ := tracked.known _ _ _ _ waited
      refine ⟨was, stored, ?_, told⟩
      rw [Function.update_of_ne]
      · exact entry
      · rintro rfl
        rw [found] at entry
        cases entry
        exact different rfl
    · intro other entry stored
      dsimp only at stored ⊢
      have different : other ≠ reqid := by
        rintro rfl
        rw [Function.update_self] at stored
        cases stored
      rw [Function.update_of_ne different] at stored
      obtain ⟨earlier, awake, waited⟩ := tracked.owned other entry stored
      refine ⟨earlier, awake, (kept ?_).trans waited⟩
      intro own
      rw [own, waits] at waited
      cases waited
      exact different rfl
    · intro sqe member
      obtain ⟨earlier, waited⟩ := tracked.queued sqe member
      exact ⟨earlier, (kept (asleep waited)).trans waited⟩
    · intro cqe member
      obtain ⟨told, earlier, waited⟩ := tracked.answered cqe member
      exact ⟨told, earlier, (kept (asleep waited)).trans waited⟩
    · exact tracked.once
    · intro held earlier outcome ended
      dsimp only at ended
      by_cases same : held = call
      · subst same
        rw [done] at ended
        cases ended
        exact ⟨res, reported, rfl⟩
      · rw [kept same] at ended
        exact tracked.served held earlier outcome ended

theorem Tracked.move (tracked : Tracked state) (apart : Apart state label)
    (moved : state.move label = some next) : Tracked next := by
  simp only [State.move, tracked.calm, Bool.false_eq_true, if_false] at moved
  cases label with
  | submit call request =>
      cases unused : state.progress call with
      | unused =>
          simp only [unused] at moved
          cases moved
          exact tracked.submit unused apart
      | waiting | finished => simp [unused] at moved
  | answer call res => exact tracked.answer moved
  | runOnce => exact tracked.runOnce moved
  | complete call => exact tracked.complete moved

theorem tracked_of_apart (reachable : (machine Call).Reachable Apart state) : Tracked state := by
  refine reachable.invariant ?_ ?_
  · rintro _ rfl
    exact tracked_initial Call
  · intro state label next tracked apart moved
    exact tracked.move apart moved

/-- A request that is not told apart from an outstanding one meets its entry. -/
theorem Tracked.apart_of_routed (tracked : Tracked state) (moved : state.move label = some next)
    (routed : next.Routed) : Apart state label := by
  cases label with
  | answer | runOnce | complete => trivial
  | submit call request =>
      intro other earlier outstanding
      rw [IoRequest.tells_iff]
      simp only [State.move, tracked.calm, Bool.false_eq_true, if_false] at moved
      cases unused : state.progress call with
      | waiting | finished => simp [unused] at moved
      | unused =>
          simp only [unused] at moved
          cases moved
          have different : call ≠ other := by
            rintro rfl
            rw [unused] at outstanding
            cases outstanding
          refine routed.distinct call other request earlier different ?_ ?_
          · simp [State.submit, Progress.outstanding]
          · simp only [State.submit, Function.update_of_ne different.symm]
            exact outstanding

/-- While every submitted request is told apart from the outstanding ones, the
completions are routed to their submitters.  The first that is not ends that. -/
theorem routed_of_apart (reachable : (machine Call).Reachable Apart state) :
    state.Routed ∧ ∀ label next, state.move label = some next →
      (next.Routed ↔ Apart state label) := by
  have tracked := tracked_of_apart reachable
  refine ⟨tracked.routed, fun label next moved => ?_⟩
  constructor
  · exact tracked.apart_of_routed moved
  · intro apart
    exact (tracked.move apart moved).routed

/-- Two reads of one file are answered out of order. -/
theorem routed_of_apart_swapped :
    ∃ state : State (Fin 2), (machine (Fin 2)).Reachable Apart state ∧
      state.reported 0 = some 4 ∧ state.Routed ∧ ∀ label next, state.move label = some next →
        (next.Routed ↔ Apart state label) := by
  obtain ⟨state, reachable, reported⟩ :=
    Machine.reachable_of_any (machine (Fin 2)) Apart (.initial (Fin 2))
      [.submit 0 (.read ⟨5, 0, ⟨0x7f0000001000, 16, 16⟩, 16⟩),
        .submit 1 (.read ⟨5, 16, ⟨0x7f0000002000, 16, 16⟩, 16⟩),
        .answer 1 16, .answer 0 4, .runOnce, .complete 1]
      (fun state => state.reported 0 = some 4)
      rfl (by decide +kernel)
  exact ⟨state, reachable, reported, routed_of_apart reachable⟩

/-! ## Distinct handles and buffers -/

def handle? : IoRequest → Option IoHandle
  | .open _ => none
  | .close request => some request.handle
  | .read request => some request.handle
  | .write request => some request.handle

def buffer? : IoRequest → Option Buffer
  | .open _ | .close _ => none
  | .read request => some request.buffer
  | .write request => some request.buffer

/-- No byte lies in both buffers. -/
def Disjoint (one two : Buffer) : Prop :=
  one.data.toNat + one.size.toNat ≤ two.data.toNat ∨
    two.data.toNat + two.size.toNat ≤ one.data.toNat

instance (one two : Buffer) : Decidable (Disjoint one two) :=
  inferInstanceAs (Decidable (_ ∨ _))

/-- The requests name different handles, and their buffers do not overlap. -/
def Separate (one two : IoRequest) : Prop :=
  (handle? one = none ∨ handle? one ≠ handle? two) ∧
    ∀ buffer ∈ buffer? one, ∀ other ∈ buffer? two, Disjoint buffer other

instance (one two : IoRequest) : Decidable (Separate one two) :=
  inferInstanceAs (Decidable (_ ∧ _))

/-- A request that is submitted has a handle and a buffer of its own. -/
def Distinct (state : State Call) : Label Call → Prop
  | .submit _ request =>
      ∀ other, ∀ earlier ∈ (state.progress other).outstanding, Separate request earlier
  | .answer _ _ | .runOnce | .complete _ => True

instance [Fintype Call] : DecidableRel (Distinct : State Call → Label Call → Prop) :=
  fun state label =>
    match label with
    | .submit _ request =>
        inferInstanceAs (Decidable
          (∀ other, ∀ earlier ∈ (state.progress other).outstanding, Separate request earlier))
    | .answer .. | .runOnce | .complete .. => isTrue trivial

/-- Two reads of different files into different buffers have one identifier:
`5 ^ 0 ^ 0x7f0000001000 ^ 16` is `6 ^ 0x3000 ^ 0x7f0000002000 ^ 19`.  The second
is answered first, its result goes to the first call, and the answer to the
first finds no request. -/
theorem distinct_reads_collide : ¬ ∀ state : State (Fin 2),
    (machine (Fin 2)).Reachable Distinct state → state.Routed := by
  intro routed
  obtain ⟨state, reachable, panicked⟩ :=
    Machine.reachable_of_any (machine (Fin 2)) Distinct (.initial (Fin 2))
      [.submit 0 (.read ⟨5, 0, ⟨0x7f0000001000, 16, 16⟩, 16⟩),
        .submit 1 (.read ⟨6, 0x3000, ⟨0x7f0000002000, 19, 19⟩, 19⟩),
        .answer 1 19, .runOnce, .complete 0, .answer 0 16, .runOnce]
      (fun state => state.panicked = true)
      rfl (by decide +kernel)
  cases (routed state reachable).calm.symm.trans panicked

end Asco.Core.Os.IoUring
