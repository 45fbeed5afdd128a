import Asco.Concurrency.HashMap.Protection

namespace Asco.Concurrency.HashMap

open Foundation

/-! # No empty bucket before a key

A search ends at the first empty bucket, so a key must never lie behind one.
Buckets do not become empty again before the next rehash, and an insertion only
constructs its entry behind buckets that it has seen in use.
-/

variable {K V : Type*} {hash : K → UInt64} {map next : HashMap K V} {pc : Pc K V}
  {progress : Progress K V} {spurious : Bool} {key : K} {value : V} {i index size : ℕ}
  {buckets : ℕ → Bucket K V}

/-- The buckets before position `i` of the key are in use. -/
def Passed (hash : K → UInt64) (size : ℕ) (buckets : ℕ → Bucket K V) (key : K) (i : ℕ) : Prop :=
  ∀ j < i, (buckets (slot hash size key j)).state.state ≠ .empty

/-- A search for the key comes to the bucket. -/
def Leads (hash : K → UInt64) (size : ℕ) (buckets : ℕ → Bucket K V) (key : K) (index : ℕ) : Prop :=
  ∃ i, slot hash size key i = index ∧ Passed hash size buckets key i

/-- A search comes to every entry. -/
def Routed (hash : K → UInt64) (size : ℕ) (buckets : ℕ → Bucket K V) : Prop :=
  ∀ index entry, (buckets index).entry = some entry → Leads hash size buckets entry.1 index

theorem Passed.succ (passed : Passed hash size buckets key i)
    (used : (buckets (slot hash size key i)).state.state ≠ .empty) :
    Passed hash size buckets key (i + 1) := by
  intro j below
  rcases Nat.lt_succ_iff_lt_or_eq.mp below with earlier | rfl
  · exact passed j earlier
  · exact used

/-- A search comes to the bucket before it has been everywhere. -/
theorem Leads.within (sized : WellSized size) (below : index < size)
    (leads : Leads hash size buckets key index) :
    ∃ i < size, slot hash size key i = index ∧ Passed hash size buckets key i := by
  obtain ⟨i, visits, passed⟩ := leads
  obtain ⟨first, bound, visitsFirst⟩ := exists_slot sized hash key below
  have earlier : first ≤ i := by
    by_contra later
    have same := slot_injective sized (by omega) bound (visits.trans visitsFirst.symm)
    omega
  exact ⟨first, bound, visitsFirst, fun j before => passed j (by omega)⟩

/-! ## Buckets in use stay in use -/

/-- The vector stays, and no bucket becomes empty. -/
structure Grows (map next : HashMap K V) : Prop where
  bucketCount : next.bucketCount = map.bucketCount
  used : ∀ i, (map.buckets i).state.state ≠ .empty → (next.buckets i).state.state ≠ .empty

theorem Calm.grows (calm : Calm map next) : Grows map next where
  bucketCount := calm.bucketCount
  used i used := by
    rw [calm.state]
    exact used

theorem Keeps.grows (keeps : Keeps hash map pc next progress) : Grows map next := by
  obtain ⟨bucketCount, _, effect⟩ := keeps
  refine ⟨bucketCount, fun i used => ?_⟩
  generalize next.buckets = buckets at effect
  cases effect with
  | moves same => exact used
  | @touches _ touched lost gained after rest within action before after_ =>
      by_cases same : i = touched
      · subst same
        rw [Function.update_self]
        exact action.nonempty used
      · rw [Function.update_of_ne same]
        exact used

theorem Grows.settle (grows : Grows map next) (progress : Progress K V) :
    Grows map (next.settle progress).1 := by
  obtain ⟨buckets_eq, count_eq, _⟩ := settle_fields next progress
  refine ⟨count_eq.trans grows.bucketCount, fun i used => ?_⟩
  rw [buckets_eq]
  exact grows.used i used

theorem Grows.passed (grows : Grows map next)
    (passed : Passed hash map.bucketCount map.buckets key i) :
    Passed hash next.bucketCount next.buckets key i := by
  intro j below
  rw [grows.bucketCount]
  exact grows.used _ (passed j below)

theorem Grows.leads (grows : Grows map next)
    (leads : Leads hash map.bucketCount map.buckets key index) :
    Leads hash next.bucketCount next.buckets key index := by
  obtain ⟨i, visits, passed⟩ := leads
  exact ⟨i, grows.bucketCount ▸ visits, grows.passed passed⟩

/-! ## Where an insertion has been -/

/-- A search comes to the claimed bucket. -/
def Claimed (hash : K → UInt64) (map : HashMap K V) (key : K) (claim : Option ℕ) : Prop :=
  ∀ index ∈ claim, Leads hash map.bucketCount map.buckets key index

def Came (hash : K → UInt64) (map : HashMap K V) (key : K) (i : ℕ) (claim : Option ℕ) : Prop :=
  Passed hash map.bucketCount map.buckets key i ∧ Claimed hash map key claim

/-- What an insertion and a rehash know of the way behind them. -/
def Walked (hash : K → UInt64) (map : HashMap K V) : Pc K V → Prop
  | .insertExchange key _ i | .insertTombstone key _ i | .insertClaim key _ i _ =>
      Passed hash map.bucketCount map.buckets key i
  | .insertRaise key _ i claim _ => Came hash map key i claim
  | .insertCheck key _ i claim => Came hash map key i (some claim)
  | .insertCompare key _ i claim | .lowerLoad _ (.insertCompared key _ i claim _)
  | .lower _ (.insertCompared key _ i claim _) _ => Came hash map key (i + 1) claim
  | .insertConstruct key _ claim => Leads hash map.bucketCount map.buckets key claim
  | .rehashLoad _ fresh | .rehashWait _ fresh | .rehashMove _ fresh | .rehashSwap fresh =>
      Routed hash (2 * map.bucketCount) fresh
  | _ => True

def Progress.Walked (hash : K → UInt64) (map : HashMap K V) : Progress K V → Prop
  | .running pc => HashMap.Walked hash map pc
  | .done _ => True

theorem Grows.came {claim : Option ℕ} (grows : Grows map next) (came : Came hash map key i claim) :
    Came hash next key i claim :=
  ⟨grows.passed came.1, fun index member => grows.leads (came.2 index member)⟩

theorem Grows.walked (grows : Grows map next) (walked : Walked hash map pc) :
    Walked hash next pc := by
  cases pc with
  | insertExchange key value i | insertTombstone key value i | insertClaim key value i expected =>
      exact grows.passed walked
  | insertRaise key value i claim refcount => exact grows.came walked
  | insertCheck key value i claim => exact grows.came walked
  | insertCompare key value i claim => exact grows.came walked
  | insertConstruct key value claim => exact grows.leads walked
  | lowerLoad index reason | lower index reason expected =>
      cases reason with
      | insertCompared key value i claim same => exact grows.came walked
      | _ => trivial
  | rehashLoad index fresh | rehashWait index fresh | rehashMove index fresh | rehashSwap fresh =>
      simpa only [Walked, grows.bucketCount] using walked
  | _ => trivial

theorem insertAt_walked {claim : Option ℕ} (came : Came hash next key i claim) :
    (map.insertAt key value i claim).Walked hash next := by
  cases claim with
  | none =>
      simp only [insertAt]
      split
      · exact came.1
      · trivial
  | some claim =>
      simp only [insertAt]
      split
      · exact came
      · exact came.2 claim rfl

theorem insertFail_walked (failure : InsertFailed) (claim : Option ℕ) :
    (insertFail failure claim : Progress K V).Walked hash map := by
  cases claim <;> trivial

theorem insertAgain_walked {claim : Option ℕ} (came : Came hash map key i claim) :
    (insertAgain key value i claim).Walked hash map := by
  cases claim with
  | none => exact came.1
  | some claim => exact came

theorem removeAt_walked : (map.removeAt key i).Walked hash next := by
  simp only [removeAt]
  split <;> trivial

theorem getAt_walked (contains : Bool) : (map.getAt key contains i).Walked hash next := by
  simp only [getAt]
  split <;> trivial

theorem enter_walked {call : Call K V} (entered : map.enter call = some progress) :
    progress.Walked hash next := by
  cases call with
  | tryInsert key value =>
      cases entered
      trivial
  | tryRemove key =>
      cases entered
      exact removeAt_walked
  | tryGet key =>
      cases entered
      exact getAt_walked false
  | tryContains key =>
      cases entered
      exact getAt_walked true
  | tryRehash => contradiction
  | drop index => contradiction

/-- An entry that is placed is found again, and so are the ones placed before. -/
theorem Routed.placed {fresh moved : ℕ → Bucket K V} {entry : K × V}
    (routed : Routed hash size fresh) (placed : place hash size fresh entry = some moved) :
    Routed hash size moved := by
  obtain ⟨i, _, _, earlier, rfl⟩ := place_eq_some placed
  have used (other : ℕ) (before : (fresh other).state.state ≠ .empty) :
      (Function.update fresh (slot hash size entry.1 i) ⟨⟨0, .filled⟩, some entry⟩
        other).state.state ≠ .empty := by
    by_cases same : other = slot hash size entry.1 i
    · subst same
      simp
    · rw [Function.update_of_ne same]
      exact before
  intro index other found
  by_cases same : index = slot hash size entry.1 i
  · subst same
    simp only [Function.update_self, Option.some.injEq] at found
    subst found
    exact ⟨i, rfl, fun j before => used _ (earlier j before)⟩
  · rw [Function.update_of_ne same] at found
    obtain ⟨j, visits, passed⟩ := routed index other found
    exact ⟨j, visits, fun k before => used _ (passed k before)⟩

variable [DecidableEq K]

theorem resume_walked (grows : Grows map next) (walked : Walked hash map pc)
    (resumed : resume hash map spurious pc = some (next, progress)) :
    progress.Walked hash next := by
  cases pc with
  | tryReadExchange call expected =>
      simp only [resume] at resumed
      split at resumed
      · simp only [Option.map_eq_some_iff, Prod.mk.injEq] at resumed
        obtain ⟨entered, found, rfl, rfl⟩ := resumed
        exact enter_walked found
      · cases resumed
        trivial
  | insertStart key value =>
      simp only [resume] at resumed
      split at resumed <;> cases resumed
      · trivial
      · exact insertAt_walked ⟨fun j below => absurd below (Nat.not_lt_zero j), by simp [Claimed]⟩
  | insertExchange key value i =>
      have passed := grows.passed walked
      simp only [resume] at resumed
      split at resumed
      · cases resumed
        exact ⟨i, rfl, passed⟩
      · split at resumed <;> cases resumed
        · trivial
        · trivial
        · trivial
        · exact ⟨passed, by simp [Claimed]⟩
        · exact passed
        · exact passed
  | insertRaise key value i claim refcount =>
      have came := grows.came walked
      simp only [resume] at resumed
      split at resumed
      · cases resumed
        exact ⟨came.1.succ (by simp), came.2⟩
      · split at resumed <;> cases resumed
        · exact insertFail_walked _ claim
        · exact insertAgain_walked came
  | insertCompare key value i claim =>
      simp only [resume, Option.map_eq_some_iff, Prod.mk.injEq] at resumed
      obtain ⟨entry, _, rfl, rfl⟩ := resumed
      exact walked
  | insertTombstone key value i =>
      simp only [resume] at resumed
      split at resumed <;> cases resumed <;> exact walked
  | insertClaim key value i expected =>
      have passed := grows.passed walked
      simp only [resume] at resumed
      split at resumed
      · cases resumed
        refine insertAt_walked ⟨passed.succ (by simp), ?_⟩
        intro index member
        cases member
        exact ⟨i, rfl, passed⟩
      · cases resumed
        exact passed
  | insertCheck key value i claim =>
      have came := walked
      simp only [resume] at resumed
      split at resumed
      · rename_i tombstone
        cases resumed
        exact insertAt_walked ⟨came.1.succ (by simp [tombstone]), came.2⟩
      · cases resumed
        exact came.2 claim rfl
      · cases resumed
        trivial
      · cases resumed
        trivial
      · cases resumed
        trivial
      · cases resumed
        exact came
  | removeExchange key i =>
      simp only [resume] at resumed
      split at resumed
      · cases resumed
        trivial
      · split at resumed <;> cases resumed <;> first | exact removeAt_walked | trivial
  | getLoad key contains i =>
      simp only [resume] at resumed
      split at resumed <;> cases resumed <;> first | exact getAt_walked contains | trivial
  | lowerLoad index reason =>
      cases resumed
      cases reason with
      | insertCompared key value i claim same => exact walked
      | _ => trivial
  | lower index reason expected =>
      have kept := grows.walked walked
      simp only [resume] at resumed
      split at resumed
      · cases resumed
        cases reason with
        | insertCompared key value i claim same =>
            cases same
            · exact insertAt_walked kept
            · exact insertFail_walked _ claim
        | removeOther key i => exact removeAt_walked
        | getOther key contains i => exact getAt_walked contains
        | _ => trivial
      · cases resumed
        cases reason with
        | insertCompared key value i claim same => exact walked
        | _ => trivial
  | tryWriteExchange =>
      simp only [resume] at resumed
      split at resumed <;> cases resumed
      · trivial
      · intro index entry found
        simp [emptyBucket] at found
  | rehashLoad index fresh =>
      simp only [resume] at resumed
      split at resumed
      · split at resumed <;> cases resumed <;> exact walked
      · cases resumed
        exact walked
  | rehashWait index fresh =>
      simp only [resume] at resumed
      split at resumed <;> cases resumed <;> exact walked
  | rehashMove index fresh =>
      simp only [resume, Option.map_eq_some_iff] at resumed
      obtain ⟨entry, _, placed⟩ := resumed
      split at placed
      · cases placed
        exact walked
      · rename_i moved somewhere
        cases placed
        exact Routed.placed walked somewhere
  | tryRead call | removeDrain index expected | removeRaise key i refcount | removeConfirm index
  | removeDrainLoad index | getRaise key contains i refcount | tryWrite =>
      simp only [resume] at resumed
      split at resumed <;> cases resumed <;> trivial
  | removeLoad key i =>
      simp only [resume] at resumed
      split at resumed
      · cases resumed
        trivial
      · split at resumed <;> cases resumed <;> trivial
  | unlockRead outcome | insertGiveUp claim failure | insertConstruct key value claim
  | insertCount key claim | insertPublish key claim | removeCount index value
  | removeBury index value | rehashSwap fresh | unlockWrite =>
      cases resumed
      trivial
  | removeTake index =>
      simp only [resume, Option.map_eq_some_iff, Prod.mk.injEq] at resumed
      obtain ⟨entry, _, rfl, rfl⟩ := resumed
      trivial
  | removeCompare key i =>
      simp only [resume, Option.map_eq_some_iff] at resumed
      obtain ⟨entry, _, compared⟩ := resumed
      split at compared <;> cases compared <;> trivial
  | getCompare key contains i =>
      simp only [resume, Option.map_eq_some_iff] at resumed
      obtain ⟨entry, _, compared⟩ := resumed
      split at compared
      · split at compared <;> cases compared <;> trivial
      · cases compared
        trivial

omit [DecidableEq K] in
@[simp] theorem setState_entry (map : HashMap K V) (touched index : ℕ) (state : BucketState) :
    ((map.setState touched state).buckets index).entry = (map.buckets index).entry := by
  by_cases same : index = touched
  · subst same
    simp
  · rw [setState_of_ne same]

omit [DecidableEq K] in
theorem setEntry_none {touched : ℕ} {entry : K × V}
    (found : ((map.setEntry touched none).buckets index).entry = some entry) :
    (map.buckets index).entry = some entry := by
  by_cases same : index = touched
  · subst same
    simp [setEntry] at found
  · simpa [setEntry, Function.update_of_ne same] using found

omit [DecidableEq K] in
@[simp] theorem setEntry_bucketCount (map : HashMap K V) (touched : ℕ) (entry : Option (K × V)) :
    (map.setEntry touched entry).bucketCount = map.bucketCount := rfl

omit [DecidableEq K] in
theorem setEntry_of_ne {touched : ℕ} {entry : Option (K × V)} (different : index ≠ touched) :
    (map.setEntry touched entry).buckets index = map.buckets index :=
  Function.update_of_ne different _ _

/-- The steps that construct, move or take out an entry. -/
def Pc.rearranges : Pc K V → Bool
  | .insertConstruct _ _ _ | .removeTake _ | .rehashMove _ _ | .rehashSwap _ => true
  | _ => false

/-- All other steps leave the entries alone. -/
theorem resume_entries (quiet : pc.rearranges = false)
    (resumed : resume hash map spurious pc = some (next, progress)) (index : ℕ) :
    (next.buckets index).entry = (map.buckets index).entry := by
  cases pc with
  | insertConstruct key value claim | removeTake touched | rehashMove touched fresh
  | rehashSwap fresh => simp [Pc.rearranges] at quiet
  | tryReadExchange call expected =>
      simp only [resume] at resumed
      split at resumed
      · simp only [Option.map_eq_some_iff, Prod.mk.injEq] at resumed
        obtain ⟨entered, _, rfl, rfl⟩ := resumed
        rfl
      · cases resumed
        rfl
  | insertExchange key value i | removeExchange key i =>
      simp only [resume] at resumed
      split at resumed
      · cases resumed
        exact setState_entry ..
      · split at resumed <;> cases resumed <;> rfl
  | insertRaise key value i claim refcount =>
      simp only [resume] at resumed
      split at resumed
      · cases resumed
        exact setState_entry ..
      · split at resumed <;> cases resumed <;> rfl
  | insertClaim key value i expected | removeRaise key i refcount | removeDrain touched expected
  | getRaise key contains i refcount | lower touched reason expected =>
      simp only [resume] at resumed
      split at resumed <;> cases resumed
      · exact setState_entry ..
      · rfl
  | insertGiveUp claim failure | insertPublish key claim | removeBury touched value =>
      cases resumed
      exact setState_entry ..
  | insertCompare key value i claim =>
      simp only [resume, Option.map_eq_some_iff, Prod.mk.injEq] at resumed
      obtain ⟨seen, _, rfl, rfl⟩ := resumed
      rfl
  | removeCompare key i =>
      simp only [resume, Option.map_eq_some_iff] at resumed
      obtain ⟨seen, _, compared⟩ := resumed
      split at compared <;> cases compared <;> rfl
  | getCompare key contains i =>
      simp only [resume, Option.map_eq_some_iff] at resumed
      obtain ⟨seen, _, compared⟩ := resumed
      split at compared
      · split at compared <;> cases compared <;> rfl
      · cases compared
        rfl
  | tryRead call | insertStart key value | insertTombstone key value i
  | insertCheck key value i claim
  | removeConfirm touched | removeDrainLoad touched | getLoad key contains i | tryWrite
  | tryWriteExchange | rehashWait touched fresh =>
      simp only [resume] at resumed
      split at resumed <;> cases resumed <;> rfl
  | removeLoad key i =>
      simp only [resume] at resumed
      split at resumed
      · cases resumed
        rfl
      · split at resumed <;> cases resumed <;> rfl
  | rehashLoad touched fresh =>
      simp only [resume] at resumed
      split at resumed
      · split at resumed <;> cases resumed <;> rfl
      · cases resumed
        rfl
  | unlockRead outcome | insertCount key claim | removeCount touched value
  | lowerLoad touched reason | unlockWrite =>
      cases resumed
      rfl

/-- Only an insertion brings an entry into the vector. -/
theorem resume_entry {entry : K × V} (staying : ∀ fresh, pc ≠ .rehashSwap fresh)
    (constructs : ∀ key value claim, pc ≠ .insertConstruct key value claim)
    (resumed : resume hash map spurious pc = some (next, progress))
    (found : (next.buckets index).entry = some entry) :
    (map.buckets index).entry = some entry := by
  cases pc with
  | insertConstruct key value claim => exact absurd rfl (constructs key value claim)
  | rehashSwap fresh => exact absurd rfl (staying fresh)
  | removeTake touched =>
      simp only [resume, Option.map_eq_some_iff, Prod.mk.injEq] at resumed
      obtain ⟨taken, _, rfl, rfl⟩ := resumed
      exact setEntry_none found
  | rehashMove touched fresh =>
      simp only [resume, Option.map_eq_some_iff] at resumed
      obtain ⟨moved, _, placed⟩ := resumed
      split at placed <;> cases placed
      · exact found
      · rw [setState_entry] at found
        exact setEntry_none found
  | _ =>
      rw [resume_entries rfl resumed] at found
      exact found

/-! ## Every reachable pool -/

variable {Thread : Type*} [Fintype Thread] [DecidableEq Thread]
  {pool last : Pool Thread (HashMap K V) (Option (Pc K V))} {thread : Thread}
  {finish : Option (Pc K V)}

/-- A search comes to every entry, and the calls know where they have been. -/
structure Searchable (hash : K → UInt64) (pool : Pool Thread (HashMap K V) (Option (Pc K V))) :
    Prop where
  routed : Routed hash pool.shared.bucketCount pool.shared.buckets
  walked : ∀ thread pc, pool.locals thread = some pc → Walked hash pool.shared pc

namespace Searchable

theorem resume_keep (searchable : Searchable hash pool) (coherent : Coherent hash pool)
    (stands : pool.locals thread = some pc) (staying : ∀ fresh, pc ≠ .rehashSwap fresh)
    (resumed : resume hash pool.shared spurious pc = some (next, progress)) :
    Searchable hash { shared := (next.settle progress).1
                      locals := Function.update pool.locals thread (next.settle progress).2 } := by
  have grows := (resume_keeps (coherent.backed stands) staying resumed).grows
  have settled := grows.settle progress
  obtain ⟨buckets_eq, count_eq, _⟩ := settle_fields next progress
  have own := searchable.walked thread pc stands
  constructor
  · intro index entry found
    simp only [buckets_eq] at found
    refine settled.leads ?_
    by_cases constructs : ∃ key value claim, pc = .insertConstruct key value claim
    · obtain ⟨key, value, claim, rfl⟩ := constructs
      cases resumed
      by_cases same : index = claim
      · subst same
        simp only [setEntry, Function.update_self, Option.some.injEq] at found
        subst found
        exact own
      · simp only [setEntry, Function.update_of_ne same] at found
        exact searchable.routed index entry found
    · refine searchable.routed index entry (resume_entry staying ?_ resumed found)
      exact fun key value claim same => constructs ⟨key, value, claim, same⟩
  · intro other pcOther standsOther
    by_cases same : other = thread
    · subst same
      simp only [Function.update_self] at standsOther
      have running := settle_eq_some standsOther
      subst running
      exact resume_walked grows own resumed
    · simp only [Function.update_of_ne same] at standsOther
      exact settled.walked (searchable.walked other pcOther standsOther)

omit [DecidableEq K] in
theorem walked_of_free (free : pc.reading = 0) (writes : pc.writing = 0) : Walked hash map pc := by
  cases pc with
  | lowerLoad index reason | lower index reason expected =>
      cases reason with
      | guard => trivial
      | _ => simp [Pc.reading] at free
  | tryRead call | tryReadExchange call expected | tryWrite | tryWriteExchange => trivial
  | rehashLoad index fresh | rehashWait index fresh | rehashMove index fresh | rehashSwap fresh
  | unlockWrite => simp [Pc.writing] at writes
  | _ => simp [Pc.reading] at free

theorem step (searchable : Searchable hash pool) (coherent : Coherent hash pool)
    {choice : Choice (Call K V)}
    (advanced : advance hash pool.shared (pool.locals thread) choice = some (next, finish)) :
    Searchable hash { shared := next, locals := Function.update pool.locals thread finish } := by
  rcases advance_eq_some advanced with ⟨call, pc, stands, started, rfl⟩ |
    ⟨pc, spurious, after, progress, stands, resumed, rfl, rfl⟩
  · have grows := (Calm.start started).grows
    have free : Walked hash next pc := by
      cases call with
      | drop index =>
          simp only [HashMap.start] at started
          split at started
          · cases started
            trivial
          · contradiction
      | _ =>
          cases started
          trivial
    constructor
    · intro index entry found
      rw [(Calm.start started).entry] at found
      exact grows.leads (searchable.routed index entry found)
    · intro other pcOther standsOther
      by_cases same : other = thread
      · subst same
        simp only [Function.update_self, Option.some.injEq] at standsOther
        exact standsOther ▸ free
      · simp only [Function.update_of_ne same] at standsOther
        exact grows.walked (searchable.walked other pcOther standsOther)
  · by_cases swaps : ∃ fresh, pc = .rehashSwap fresh
    · obtain ⟨fresh, rfl⟩ := swaps
      cases resumed
      refine ⟨searchable.walked thread _ stands, ?_⟩
      intro other pcOther standsOther
      by_cases same : other = thread
      · subst same
        cases (Function.update_self (f := pool.locals) ..).symm.trans standsOther
        trivial
      · simp only [Function.update_of_ne same] at standsOther
        have free := coherent.excluded stands rfl same
        rw [standsOther] at free
        exact walked_of_free free.1 free.2
    · exact searchable.resume_keep coherent stands (fun fresh same => swaps ⟨fresh, same⟩) resumed

end Searchable

theorem searchable_of_reachable
    {guard : Pool Thread (HashMap K V) (Option (Pc K V)) → Thread × Choice (Call K V) → Prop}
    (reachable : (machine Thread V hash).Reachable guard pool) : Searchable hash pool := by
  refine Program.invariant_of_known reachable (fun _ before => coherent_of_reachable before) ?_ ?_
  · intro first started
    cases started
    exact ⟨fun index entry found => by simp [unused, create, emptyBucket] at found,
      fun thread pc stands => by simp [unused] at stands⟩
  · intro pool thread choice shared finish coherent searchable _ advanced
    exact searchable.step coherent advanced

end Asco.Concurrency.HashMap
