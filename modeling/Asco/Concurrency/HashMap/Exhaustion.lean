import Asco.Concurrency.HashMap.Accounting
import Asco.Concurrency.HashMap.Room
import Asco.Concurrency.HashMap.Search

namespace Asco.Concurrency.HashMap

open Foundation

/-! # Insertions that find no bucket

The load check is made once, before the probe.  An insertion walks off the end
when every bucket that it still has to visit is filled with another key by the
time it comes there.
-/

variable {K V : Type*} [DecidableEq K] {hash : K → UInt64} {map next : HashMap K V} {pc : Pc K V}
  {progress : Progress K V} {spurious : Bool} {key : K} {value : V} {i index : ℕ}

/-! ## Runs that leave room -/

variable {Thread : Type*} [Fintype Thread] [DecidableEq Thread]
  {pool last : Pool Thread (HashMap K V) (Option (Pc K V))} {thread mover : Thread}
  {finish : Option (Pc K V)} {choice : Choice (Call K V)}

/-- A step that fills a bucket leaves every insertion without a claim a bucket
that it does not pass. -/
def LeavesRoom (hash : K → UInt64) (pool : Pool Thread (HashMap K V) (Option (Pc K V)))
    (label : Thread × Choice (Call K V)) : Prop :=
  ∀ index ∈ fills (pool.locals label.1), ∀ thread key i,
    Looks hash pool.shared key i (pool.locals thread) →
      Open hash (pool.shared.setState index ⟨0, .filled⟩) key i

/-- Every insertion without a claim has a bucket before it that it does not pass. -/
structure Spacious (hash : K → UInt64) (pool : Pool Thread (HashMap K V) (Option (Pc K V))) :
    Prop where
  room : ∀ thread key i, Looks hash pool.shared key i (pool.locals thread) →
    Open hash pool.shared key i
  returns : ∀ thread pc, pool.locals thread = some pc → (Progress.running pc).Returns

omit [DecidableEq K] [DecidableEq Thread] in
theorem Coherent.present (coherent : Coherent hash pool) (index : ℕ)
    (filled : (pool.shared.buckets index).state.state = .filled) :
    (pool.shared.buckets index).entry.isSome :=
  (coherent.lawful index).present filled

/-- When the load check passes, not every bucket is filled. -/
theorem open_of_load (reachable : (machine Thread V hash).Reachable Machine.free pool)
    (checked : 5 * pool.shared.load < 3 * pool.shared.bucketCount) (key : K) :
    Open hash pool.shared key 0 := by
  obtain ⟨books, reached, rfl⟩ := exists_books reachable
  have coherent := coherent_of_reachable (close_reachable reached)
  have filled := (balanced_of_reachable reached).filled_le coherent
  obtain ⟨index, below, free⟩ : ∃ index < (close books).shared.bucketCount,
      ((close books).shared.buckets index).state.state ≠ .filled := by
    by_contra full
    have all : filledBuckets (close books).shared =
        Finset.range (close books).shared.bucketCount := by
      refine Finset.filter_true_of_mem fun index member => ?_
      by_contra other
      exact full ⟨index, Finset.mem_range.mp member, other⟩
    have counted : (filledBuckets (close books).shared).card =
        (close books).shared.bucketCount := by
      rw [all, Finset.card_range]
    simp only [close] at counted checked
    omega
  obtain ⟨j, within, visits⟩ := exists_slot coherent.sized hash key below
  refine ⟨j, Nat.zero_le j, within, fun closed => ?_⟩
  rw [visits] at closed
  exact free closed.1

theorem Coherent.open_step (coherent : Coherent hash pool) (stands : pool.locals mover = some pc)
    (writes : pc.writing = 0)
    (resumed : resume hash pool.shared spurious pc = some (next, progress))
    (room : Open hash pool.shared key i)
    (leaves : ∀ index ∈ fills (some pc),
      Open hash (pool.shared.setState index ⟨0, .filled⟩) key i) :
    Open hash next key i := by
  have staying (fresh : ℕ → Bucket K V) : pc ≠ .rehashSwap fresh := by
    intro swaps
    rw [swaps] at writes
    exact absurd writes Nat.one_ne_zero
  have keeps := resume_keeps (coherent.backed stands) staying resumed
  obtain ⟨others, lawful, _⟩ := coherent.lawful_thread mover
  rw [stands] at lawful
  exact room.step keeps.1 leaves fun index closed => resume_closed lawful writes resumed closed

namespace Spacious

theorem resume_keep (spacious : Spacious hash pool) (coherent : Coherent hash pool)
    (reachable : (machine Thread V hash).Reachable Machine.free pool)
    (leaves : ∀ index ∈ fills (some pc), ∀ thread key i,
      Looks hash pool.shared key i (pool.locals thread) →
        Open hash (pool.shared.setState index ⟨0, .filled⟩) key i)
    (stands : pool.locals mover = some pc)
    (resumed : resume hash pool.shared spurious pc = some (next, progress)) :
    Spacious hash { shared := (next.settle progress).1
                    locals := Function.update pool.locals mover (next.settle progress).2 } := by
  have own (key : K) (i : ℕ) (looks : Looks hash pool.shared key i (some pc)) :
      Open hash pool.shared key i := spacious.room mover key i (stands ▸ looks)
  have returned := resume_returns coherent.sized (spacious.returns mover pc stands) own resumed
  obtain ⟨buckets_eq, count_eq, _⟩ := settle_fields next progress
  have settled (key : K) (i : ℕ) (room : Open hash next key i) :
      Open hash (next.settle progress).1 key i := by
    obtain ⟨j, later, below, free⟩ := room
    refine ⟨j, later, ?_, ?_⟩
    · rw [count_eq]
      exact below
    · rw [count_eq, buckets_eq]
      exact free
  constructor
  · intro thread key i looks
    refine settled key i ?_
    by_cases same : thread = mover
    · subst same
      simp only [Function.update_self] at looks
      have looking : Looks hash next key i progress.place := by
        cases progress with
        | running pc => exact looks
        | done outcome => cases outcome <;> exact looks.elim
      obtain ⟨nothing, writes⟩ := fills_of_looks resumed looking
      have room := resume_looks coherent.present (fun other _ _ checked =>
        open_of_load reachable checked other) own resumed looking
      refine coherent.open_step stands writes resumed room fun index member => ?_
      rw [nothing] at member
      contradiction
    · simp only [Function.update_of_ne same] at looks
      have reads : readLocks (pool.locals thread) = 1 := by
        cases standsOther : pool.locals thread with
        | none =>
            rw [standsOther] at looks
            exact looks.elim
        | some pcOther =>
            rw [standsOther] at looks
            exact looks.reading
      have writes := coherent.writing_eq_zero reads stands
      have advanced : advance hash pool.shared (pool.locals mover) (.step spurious) =
          some (next.settle progress) := by
        rw [stands]
        simp [advance, resumed]
      have before := looks.back fun index visits => by
        refine coherent.entry_shared ?_ advanced
        have counted := (coherent.lawful index).counted
        have positive := held_pos visits
        omega
      exact coherent.open_step stands writes resumed (spacious.room thread key i before)
        fun index member => leaves index member thread key i before
  · intro thread pcThread standsThread
    by_cases same : thread = mover
    · subst same
      simp only [Function.update_self] at standsThread
      have running := settle_eq_some standsThread
      subst running
      exact returned
    · simp only [Function.update_of_ne same] at standsThread
      exact spacious.returns thread pcThread standsThread

theorem step (spacious : Spacious hash pool) (coherent : Coherent hash pool)
    (reachable : (machine Thread V hash).Reachable Machine.free pool)
    (leaves : LeavesRoom hash pool (mover, choice))
    (advanced : advance hash pool.shared (pool.locals mover) choice = some (next, finish)) :
    Spacious hash { shared := next, locals := Function.update pool.locals mover finish } := by
  rcases advance_eq_some advanced with ⟨call, pc, stands, started, rfl⟩ |
    ⟨pc, spurious, after, progress, stands, resumed, rfl, rfl⟩
  · have calm := Calm.start started
    obtain ⟨silent, returned⟩ : (∀ key i, ¬ Looks hash next key i (some pc)) ∧
        (Progress.running pc).Returns := by
      cases call with
      | drop index =>
          simp only [HashMap.start] at started
          split at started
          · cases started
            exact ⟨fun key i looks => looks.elim, trivial⟩
          · contradiction
      | _ =>
          cases started
          exact ⟨fun key i looks => looks.elim, trivial⟩
    constructor
    · intro thread key i looks
      by_cases same : thread = mover
      · subst same
        simp only [Function.update_self] at looks
        exact absurd looks (silent key i)
      · simp only [Function.update_of_ne same] at looks
        obtain ⟨j, later, below, free⟩ := spacious.room thread key i
          (looks.back fun index _ => ⟨calm.bucketCount, calm.entry index⟩)
        refine ⟨j, later, calm.bucketCount ▸ below, fun closed => free ?_⟩
        obtain ⟨filled, entry, found, different⟩ := closed
        rw [calm.bucketCount, calm.state] at filled
        rw [calm.bucketCount, calm.entry] at found
        exact ⟨filled, entry, found, different⟩
    · intro thread pcThread standsThread
      by_cases same : thread = mover
      · subst same
        simp only [Function.update_self, Option.some.injEq] at standsThread
        exact standsThread ▸ returned
      · simp only [Function.update_of_ne same] at standsThread
        exact spacious.returns thread pcThread standsThread
  · refine spacious.resume_keep coherent reachable (fun index member => ?_) stands resumed
    exact leaves index (stands ▸ member)

end Spacious

theorem spacious_of_reachable
    (reachable : (machine Thread V hash).Reachable (LeavesRoom hash) pool) :
    Spacious hash pool := by
  have free (pool : Pool Thread (HashMap K V) (Option (Pc K V)))
      (reached : (machine Thread V hash).Reachable (LeavesRoom hash) pool) :
      (machine Thread V hash).Reachable Machine.free pool :=
    reached.mono fun _ _ _ => trivial
  refine Program.invariant_of_known reachable free ?_ ?_
  · intro first started
    cases started
    exact ⟨fun thread key i looks => looks.elim, fun thread pc stands => by simp [unused] at stands⟩
  · intro pool thread choice shared finish reached spacious leaves advanced
    exact spacious.step (coherent_of_reachable reached) reached leaves advanced

/-- No insertion comes to the end of `do_insert` without a bucket. -/
theorem returns_of_leavesRoom
    (reachable : (machine Thread V hash).Reachable (LeavesRoom hash) pool) (thread : Thread)
    (spurious : Bool) (stands : pool.locals thread = some pc) :
    resume hash pool.shared spurious pc ≠ some (next, .done .unreachable) := by
  intro resumed
  have spacious := spacious_of_reachable reachable
  have coherent := coherent_of_reachable reachable
  have own (key : K) (i : ℕ) (looks : Looks hash pool.shared key i (some pc)) :
      Open hash pool.shared key i := spacious.room thread key i (stands ▸ looks)
  exact resume_returns coherent.sized (spacious.returns thread pc stands) own resumed

/-- An insertion of the key 5 is about to fill a bucket that one of 69 has come to. -/
def meeting : Option (Pc ℕ ℕ) → Option (Pc ℕ ℕ) → Bool
  | some (.insertPublish 5 5), some (.insertExchange 69 9 0) => true
  | _, _ => false

theorem meeting_iff {first second : Option (Pc ℕ ℕ)} : meeting first second = true ↔
    first = some (.insertPublish 5 5) ∧ second = some (.insertExchange 69 9 0) := by
  constructor
  · intro meets
    unfold meeting at meets
    split at meets
    · exact ⟨rfl, rfl⟩
    · contradiction
  · rintro ⟨rfl, rfl⟩
    rfl

/-- A step fills no bucket, or that one while there is an empty bucket behind it. -/
def FillsBefore (pool : Pool (Fin 2) (HashMap ℕ ℕ) (Option (Pc ℕ ℕ)))
    (label : Fin 2 × Choice (Call ℕ ℕ)) : Prop :=
  fills (pool.locals label.1) = none ∨
    meeting (pool.locals 0) (pool.locals 1) = true ∧ label.1 = 0 ∧ pool.shared.bucketCount = 64 ∧
      (pool.shared.buckets (slot UInt64.ofNat 64 69 1)).state.state = .empty

instance : DecidableRel FillsBefore :=
  fun _ _ => inferInstanceAs (Decidable (_ ∨ _ ∧ _ ∧ _ ∧ _))

theorem FillsBefore.leavesRoom {pool : Pool (Fin 2) (HashMap ℕ ℕ) (Option (Pc ℕ ℕ))}
    {label : Fin 2 × Choice (Call ℕ ℕ)} (before : FillsBefore pool label) :
    LeavesRoom UInt64.ofNat pool label := by
  intro index member thread key i looks
  cases before with
  | inl none =>
      rw [none] at member
      contradiction
  | inr publishes =>
      obtain ⟨meets, mover, count, empty⟩ := publishes
      obtain ⟨first, second⟩ := meeting_iff.mp meets
      rw [mover, first] at member
      cases member
      have seeks : 69 = key ∧ 0 = i := by
        match thread with
        | 0 =>
            rw [first] at looks
            exact looks.elim
        | 1 =>
            rw [second] at looks
            exact looks
      obtain ⟨rfl, rfl⟩ := seeks
      refine ⟨1, by decide, by rw [setState_bucketCount, count]; decide, ?_⟩
      rw [setState_bucketCount, count]
      rintro ⟨filled, _⟩
      rw [setState_of_ne (by decide), empty] at filled
      contradiction

/-- An insertion passes a bucket that another one fills before its eyes. -/
theorem returns_of_leavesRoom_passing :
    ∃ pool : Pool (Fin 2) (HashMap ℕ ℕ) (Option (Pc ℕ ℕ)),
      ∃ pc, pc = .lower 5 (.insertCompared 69 9 0 none false) ⟨1, .filled⟩ ∧
        (machine (Fin 2) ℕ UInt64.ofNat).Reachable (LeavesRoom UInt64.ofNat) pool ∧
        pool.locals 1 = some pc ∧
          ∀ next, resume UInt64.ofNat pool.shared false pc ≠ some (next, .done .unreachable) := by
  obtain ⟨pool, reachable, standing⟩ :=
    Machine.reachable_of_exec (machine (Fin 2) ℕ UInt64.ofNat) FillsBefore (unused (Fin 2) ℕ ℕ)
      (List.flatten
        [(0, .call (.tryInsert 5 7)) :: List.replicate 6 (0, .step false),
          (1, .call (.tryInsert 69 9)) :: List.replicate 3 (1, .step false),
          [(0, .step false)], List.replicate 4 (1, .step false)])
      (fun pool => pool.locals 1 = some (.lower 5 (.insertCompared 69 9 0 none false) ⟨1, .filled⟩))
      rfl ⟨_, rfl, rfl⟩
  have guarded : (machine (Fin 2) ℕ UInt64.ofNat).Reachable (LeavesRoom UInt64.ofNat) pool :=
    reachable.mono fun _ _ before => before.leavesRoom
  exact ⟨pool, _, rfl, guarded, standing,
    fun next => returns_of_leavesRoom guarded 1 false standing⟩

/-! ## An insertion with no room -/

section

variable {start after : Pc K V} {final : HashMap K V} {outcome : Outcome V}

/-- A call takes some steps alone, without spurious failures. -/
inductive Steps (hash : K → UInt64) : HashMap K V → Pc K V → HashMap K V → Pc K V → Prop where
  | refl (map : HashMap K V) (pc : Pc K V) : Steps hash map pc map pc
  | head {map next last : HashMap K V} {pc after final : Pc K V}
      (resumed : resume hash map false pc = some (next, .running after))
      (rest : Steps hash next after last final) : Steps hash map pc last final

theorem Returns.steps (returns : Returns hash map progress final outcome) :
    ∀ pc, progress = .running pc → ∃ before after, Steps hash map pc before after ∧
      resume hash before false after = some (final, .done outcome) := by
  induction returns with
  | done =>
      intro pc running
      cases running
  | @step map next final pc progress outcome resumed rest ih =>
      intro other running
      cases running
      cases progress with
      | done finished =>
          cases rest
          exact ⟨map, pc, .refl map pc, resumed⟩
      | running after =>
          obtain ⟨before, stage, steps, ends⟩ := ih after rfl
          exact ⟨before, stage, .head resumed steps, ends⟩

omit [Fintype Thread] in
theorem Steps.run (steps : Steps hash map start final after) (thread : Thread) :
    ∀ pool : Pool Thread (HashMap K V) (Option (Pc K V)), pool.shared = map →
      pool.locals thread = some start →
      (machine Thread V hash).Run Machine.free pool
        { shared := final, locals := Function.update pool.locals thread (some after) } := by
  induction steps with
  | refl map pc =>
      intro pool shared stands
      have same :
          pool = { shared := map, locals := Function.update pool.locals thread (some pc) } := by
        rw [← stands, Function.update_eq_self, ← shared]
      rw [← same]
      exact .refl pool
  | @head map next final pc after last resumed rest ih =>
      intro pool shared stands
      subst shared
      have advanced : advance hash pool.shared (pool.locals thread) (.step false) =
          some (next, some after) := by
        rw [stands]
        simp [advance, resumed, settle]
      have moved : (machine Thread V hash).move pool (thread, .step false) =
          some { shared := next, locals := Function.update pool.locals thread (some after) } :=
        Program.move_eq_some.mpr ⟨next, some after, advanced, rfl⟩
      have remaining :=
        ih { shared := next, locals := Function.update pool.locals thread (some after) }
          rfl (Function.update_self ..)
      rw [Function.update_idem] at remaining
      exact ((Machine.Run.refl pool).tail trivial moved).trans remaining

end

/-- An insertion passes a bucket that is filled with another key. -/
theorem Returns.pass {last : HashMap K V} {outcome : Outcome V} (below : i < map.bucketCount)
    (closed : Closed (map.buckets (slot hash map.bucketCount key i)) key)
    (rest : Returns hash map (map.insertAt key value (i + 1) none) last outcome) :
    Returns hash map (map.insertAt key value i none) last outcome := by
  obtain ⟨filled, entry, found, different⟩ := closed
  refine .insertOver rfl filled found below ?_
  rw [beq_false_of_ne different]
  exact rest

/-- When only buckets with other keys are left, `do_insert` comes to its end. -/
theorem Returns.walksOff (full : ¬ Open hash map key i) :
    Returns hash map (map.insertAt key value i none) map .unreachable := by
  induction remaining : map.bucketCount - i generalizing i with
  | zero =>
      rw [insertAt, if_neg (by omega)]
      exact .done
  | succ remaining ih =>
      have below : i < map.bucketCount := by omega
      have closed : Closed (map.buckets (slot hash map.bucketCount key i)) key := by
        by_contra free
        exact full ⟨i, Nat.le_refl i, below, free⟩
      have later : ¬ Open hash map key (i + 1) := by
        intro room
        obtain ⟨j, after, bound, free⟩ := room
        exact full ⟨j, by omega, bound, free⟩
      exact .pass below closed (ih later (by omega))

omit [Fintype Thread] in
/-- An insertion that has no room left can run into the end. -/
theorem exists_unreachable (stands : pool.locals thread = some (.insertExchange key value i))
    (below : i < pool.shared.bucketCount) (full : ¬ Open hash pool.shared key i) :
    ∃ last pc next, (machine Thread V hash).Run Machine.free pool last ∧
      last.locals thread = some pc ∧
        resume hash last.shared false pc = some (next, .done .unreachable) := by
  have returns : Returns hash pool.shared (pool.shared.insertAt key value i none) pool.shared
      .unreachable := .walksOff full
  rw [insertAt, if_pos below] at returns
  obtain ⟨before, after, steps, ends⟩ := returns.steps _ rfl
  exact ⟨_, after, _, steps.run thread pool rfl stands, Function.update_self .., ends⟩

/-! ## Sixty-five insertions that all pass the load check -/

theorem Steps.passCheck (free : map.writing = false)
    (checked : 5 * map.load < 3 * map.bucketCount) :
    Steps hash map (.tryRead (.tryInsert key value)) { map with readers := map.readers + 1 }
      (.insertExchange key value 0) := by
  have loads : resume hash map false (.tryRead (.tryInsert key value)) =
      some (map, .running (.tryReadExchange (.tryInsert key value) map.readers)) := by
    simp [resume, free]
  have locks : resume hash map false (.tryReadExchange (.tryInsert key value) map.readers) =
      some ({ map with readers := map.readers + 1 }, .running (.insertStart key value)) := by
    simp [resume, free, enter]
  have admits : resume hash { map with readers := map.readers + 1 } false (.insertStart key value) =
      some ({ map with readers := map.readers + 1 }, .running (.insertExchange key value 0)) := by
    have positive : 0 < map.bucketCount := by omega
    simp [resume, insertAt, positive, checked]
  exact .head loads (.head locks (.head admits (.refl _ _)))

theorem Steps.fill (visits : slot hash map.bucketCount key 0 = index)
    (empty : map.buckets index = emptyBucket K V) :
    Steps hash map (.insertExchange key value 0) (map.store index (key, value))
      (.unlockRead .inserted) := by
  let claimed := map.setState index ⟨0, .constructing⟩
  let built := claimed.setEntry index (some (key, value))
  let counted : HashMap K V := { built with load := built.load + 1 }
  have claims : resume hash map false (.insertExchange key value 0) =
      some (claimed, .running (.insertConstruct key value index)) := by
    simp [resume, visits, empty, emptyBucket, claimed]
  have publishes : resume hash counted false (.insertPublish key index) =
      some (map.store index (key, value), .running (.unlockRead .inserted)) := by
    simp [resume, leave, counted, built, claimed, store, setEntry, HashMap.setState]
  have builds : resume hash claimed false (.insertConstruct key value index) =
      some (built, .running (.insertCount key index)) := rfl
  have counts : resume hash built false (.insertCount key index) =
      some (counted, .running (.insertPublish key index)) := rfl
  exact .head claims (.head builds (.head counts (.head publishes (.refl _ _))))

section Overload

/-- The first `n` of the threads stand behind the load check of an empty map. -/
structure Admitted (n : ℕ) (pool : Pool (Fin 65) (HashMap ℕ ℕ) (Option (Pc ℕ ℕ))) : Prop where
  reachable : (machine (Fin 65) ℕ UInt64.ofNat).Reachable Machine.free pool
  bucketCount : pool.shared.bucketCount = initialCapacity
  load : pool.shared.load = 0
  writing : pool.shared.writing = false
  empty : ∀ i, pool.shared.buckets i = emptyBucket ℕ ℕ
  behind : ∀ thread, thread.val < n →
    pool.locals thread = some (.insertExchange thread.val thread.val 0)
  before : ∀ thread, n ≤ thread.val → pool.locals thread = none

theorem exists_admitted (n : ℕ) (enough : n ≤ 65) : ∃ pool, Admitted n pool := by
  induction n with
  | zero =>
      refine ⟨unused (Fin 65) ℕ ℕ, ⟨_, rfl, .refl _⟩, rfl, rfl, rfl, fun _ => rfl, ?_,
        fun _ _ => rfl⟩
      intro thread below
      exact absurd below (Nat.not_lt_zero _)
  | succ n ih =>
      obtain ⟨pool, admitted⟩ := ih (by omega)
      let thread : Fin 65 := ⟨n, by omega⟩
      let begun : Pool (Fin 65) (HashMap ℕ ℕ) (Option (Pc ℕ ℕ)) :=
        { shared := pool.shared
          locals := Function.update pool.locals thread (some (.tryRead (.tryInsert n n))) }
      have stands : pool.locals thread = none := admitted.before thread (Nat.le_refl n)
      have called : advance UInt64.ofNat pool.shared (pool.locals thread) (.call (.tryInsert n n)) =
          some (pool.shared, some (.tryRead (.tryInsert n n))) := by
        rw [stands]
        rfl
      have moved : (machine (Fin 65) ℕ UInt64.ofNat).move pool (thread, .call (.tryInsert n n)) =
          some begun := Program.move_eq_some.mpr ⟨_, _, called, rfl⟩
      have checked : 5 * pool.shared.load < 3 * pool.shared.bucketCount := by
        rw [admitted.load, admitted.bucketCount]
        decide
      have steps : Steps UInt64.ofNat pool.shared (.tryRead (.tryInsert n n))
          { pool.shared with readers := pool.shared.readers + 1 } (.insertExchange n n 0) :=
        .passCheck admitted.writing checked
      have run := steps.run thread begun rfl (Function.update_self ..)
      obtain ⟨first, started, before⟩ := admitted.reachable.step trivial moved
      refine ⟨_, ⟨first, started, before.trans run⟩, admitted.bucketCount, admitted.load,
        admitted.writing, admitted.empty, fun other below => ?_, fun other later => ?_⟩
      · by_cases same : other = thread
        · subst same
          exact Function.update_self ..
        · have earlier : other.val < n := by
            have different : other.val ≠ n := fun equal => same (Fin.ext equal)
            omega
          simpa [begun, Function.update_of_ne same] using admitted.behind other earlier
      · have different : other ≠ thread := by
          intro same
          rw [same] at later
          exact absurd later (Nat.not_succ_le_self n)
        simpa [begun, Function.update_of_ne different] using admitted.before other (by omega)

/-- The first `n` of the buckets are filled, by as many threads, and the others
still stand behind the load check. -/
structure Filled (n : ℕ) (pool : Pool (Fin 65) (HashMap ℕ ℕ) (Option (Pc ℕ ℕ))) : Prop where
  reachable : (machine (Fin 65) ℕ UInt64.ofNat).Reachable Machine.free pool
  bucketCount : pool.shared.bucketCount = initialCapacity
  filled : ∀ i < n, pool.shared.buckets i = ⟨⟨0, .filled⟩, some (i, i)⟩
  empty : ∀ i, n ≤ i → pool.shared.buckets i = emptyBucket ℕ ℕ
  behind : ∀ thread, n ≤ thread.val →
    pool.locals thread = some (.insertExchange thread.val thread.val 0)

theorem slot_first {n : ℕ} (below : n < initialCapacity) :
    slot UInt64.ofNat initialCapacity n 0 = n := by
  have small : n < 2 ^ 64 := below.trans (by decide)
  simp [slot, probe, hash1, UInt64.toNat_ofNat_of_lt' small, Nat.mod_eq_of_lt below]

theorem exists_filled (n : ℕ) (enough : n ≤ initialCapacity) : ∃ pool, Filled n pool := by
  induction n with
  | zero =>
      obtain ⟨pool, admitted⟩ := exists_admitted 65 (Nat.le_refl 65)
      refine ⟨pool, admitted.reachable, admitted.bucketCount, fun i below => ?_,
        fun i _ => admitted.empty i, fun thread _ => admitted.behind thread thread.isLt⟩
      exact absurd below (Nat.not_lt_zero i)
  | succ n ih =>
      obtain ⟨pool, filled⟩ := ih (by omega)
      have within : n < 65 := by
        have capacity : initialCapacity = 64 := rfl
        omega
      let thread : Fin 65 := ⟨n, within⟩
      have stands : pool.locals thread = some (.insertExchange n n 0) :=
        filled.behind thread (Nat.le_refl n)
      have visits : slot UInt64.ofNat pool.shared.bucketCount n 0 = n := by
        rw [filled.bucketCount]
        exact slot_first enough
      have steps : Steps UInt64.ofNat pool.shared (.insertExchange n n 0)
          (pool.shared.store n (n, n)) (.unlockRead .inserted) :=
        .fill visits (filled.empty n (Nat.le_refl n))
      have run := steps.run thread pool rfl stands
      obtain ⟨first, started, before⟩ := filled.reachable
      refine ⟨_, ⟨first, started, before.trans run⟩, filled.bucketCount, fun i below => ?_,
        fun i later => ?_, fun other later => ?_⟩
      · by_cases same : i = n
        · subst same
          exact Function.update_self ..
        · exact (Function.update_of_ne same _ _).trans (filled.filled i (by omega))
      · have different : i ≠ n := by omega
        exact (Function.update_of_ne different _ _).trans (filled.empty i (by omega))
      · have different : other ≠ thread := by
          intro same
          rw [same] at later
          exact absurd later (Nat.not_succ_le_self n)
        exact (Function.update_of_ne different _ _).trans (filled.behind other (by omega))

/-- Sixty-four of the insertions fill all buckets, and the last one walks past
all of them. -/
theorem unreachable_of_overload :
    ∃ pool : Pool (Fin 65) (HashMap ℕ ℕ) (Option (Pc ℕ ℕ)),
      (machine (Fin 65) ℕ UInt64.ofNat).Reachable Machine.free pool ∧
        ∃ thread pc next, pool.locals thread = some pc ∧
          resume UInt64.ofNat pool.shared false pc = some (next, .done .unreachable) := by
  obtain ⟨pool, filled⟩ := exists_filled initialCapacity (Nat.le_refl _)
  have stands : pool.locals (Fin.last 64) = some (.insertExchange 64 64 0) :=
    filled.behind (Fin.last 64) (Nat.le_refl _)
  have below : 0 < pool.shared.bucketCount := by
    rw [filled.bucketCount]
    decide
  have sized : WellSized pool.shared.bucketCount := by
    rw [filled.bucketCount]
    exact WellSized.initial
  have full : ¬ Open UInt64.ofNat pool.shared 64 0 := by
    intro room
    obtain ⟨j, _, _, free⟩ := room
    have within := slot_lt sized UInt64.ofNat 64 j
    generalize slot UInt64.ofNat pool.shared.bucketCount 64 j = index at within free
    rw [filled.bucketCount] at within
    rw [filled.filled index within] at free
    exact free ⟨rfl, (index, index), rfl, Nat.ne_of_lt within⟩
  obtain ⟨last, pc, next, run, standing, ends⟩ := exists_unreachable stands below full
  obtain ⟨first, started, before⟩ := filled.reachable
  exact ⟨last, ⟨first, started, before.trans run⟩, Fin.last 64, pc, next, standing, ends⟩

end Overload

end Asco.Concurrency.HashMap
