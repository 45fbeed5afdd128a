import Asco.Concurrency.HashMap.Paths

namespace Asco.Concurrency.HashMap

open Foundation

/-! # What becomes of the keys and the values

An insertion constructs a key and a value into its bucket, and a removal or a
rehash ends them; `m_load` follows the entries with a delay.
-/

variable {K V : Type*} {hash : K → UInt64} {map next : HashMap K V} {pc : Pc K V}
  {progress : Progress K V} {spurious : Bool} {index size : ℕ}
  {buckets fresh moved : ℕ → Bucket K V} {after : Bucket K V} {entry : K × V}

/-! ## The entries of a vector -/

def entriesOf (bucket : Bucket K V) : Multiset (K × V) := ↑bucket.entry.toList

/-- The entries in the first buckets of a vector. -/
def contents (size : ℕ) (buckets : ℕ → Bucket K V) : Multiset (K × V) :=
  ∑ i ∈ Finset.range size, entriesOf (buckets i)

theorem card_entries (bucket : Bucket K V) : (entriesOf bucket).card = stored bucket := by
  cases found : bucket.entry <;> simp [entriesOf, stored, found]

theorem card_contents (size : ℕ) (buckets : ℕ → Bucket K V) :
    (contents size buckets).card = total size buckets := by
  rw [contents, Multiset.card_sum, total]
  exact Finset.sum_congr rfl fun i _ => card_entries (buckets i)

theorem contents_update (within : index < size) :
    contents size (Function.update buckets index after) + entriesOf (buckets index) =
      contents size buckets + entriesOf after :=
  sum_update_add entriesOf buckets (Finset.mem_range.mpr within) after

theorem contents_congr (same : ∀ i, (fresh i).entry = (buckets i).entry) :
    contents size fresh = contents size buckets := by
  refine Finset.sum_congr rfl fun i _ => ?_
  rw [entriesOf, entriesOf, same]

theorem contents_vacant (vacant : ∀ i < size, (buckets i).entry = none) :
    contents size buckets = 0 := by
  refine Finset.sum_eq_zero fun i member => ?_
  rw [entriesOf, vacant i (Finset.mem_range.mp member)]
  rfl

theorem contents_placed (ready : Fresh size fresh) (sized : WellSized size)
    (placed : place hash size fresh entry = some moved) :
    contents size moved = contents size fresh + {entry} := by
  obtain ⟨i, _, empty, _, rfl⟩ := place_eq_some placed
  have within := slot_lt sized hash entry.1 i
  have vacant : entriesOf (fresh (slot hash size entry.1 i)) = 0 := by
    rcases ready.clean (slot hash size entry.1 i) with unused | ⟨found, filled⟩
    · rw [unused]
      rfl
    · rw [filled] at empty
      contradiction
  have changed : contents size (Function.update fresh (slot hash size entry.1 i)
      ⟨⟨0, .filled⟩, some entry⟩) + entriesOf (fresh (slot hash size entry.1 i)) = _ :=
    contents_update within
  rw [vacant, add_zero] at changed
  exact changed

/-! ## The accounts -/

/-- The map beside the entries that have been constructed into its buckets, those
that have been moved out of them or destroyed, and those that a rehash has moved
over; `inserted` and `removed` are the answers that have been given. -/
structure Accounts (K V : Type*) where
  map : HashMap K V
  constructed : Multiset (K × V)
  ended : Multiset (K × V)
  relocated : Multiset (K × V)
  inserted : ℕ
  removed : Multiset V

/-- The next step of a call returns that it has inserted. -/
def answersInserted : Option (Pc K V) → ℕ
  | some (.unlockRead .inserted) => 1
  | _ => 0

/-- The value with which the next step of a removal returns. -/
def answersRemoved : Option (Pc K V) → Multiset V
  | some (.unlockRead (.removed value)) => {value}
  | _ => 0

section

variable [DecidableEq K] (hash : K → UInt64) (map : HashMap K V)

/-- The entry that `do_rehash` moves into the new vector. -/
def relocated (index : ℕ) (fresh : ℕ → Bucket K V) : Multiset (K × V) :=
  match (map.buckets index).entry with
  | some entry => if (place hash (2 * map.bucketCount) fresh entry).isSome then {entry} else 0
  | none => 0

/-- What the next step of a call constructs. -/
def constructs : Option (Pc K V) → Multiset (K × V)
  | some (.insertConstruct key value _) => {(key, value)}
  | some (.rehashMove index fresh) => relocated hash map index fresh
  | _ => 0

/-- What the next step of a call moves out and destroys. -/
def ends : Option (Pc K V) → Multiset (K × V)
  | some (.removeTake index) => entriesOf (map.buckets index)
  | some (.rehashMove index fresh) => relocated hash map index fresh
  | _ => 0

/-- What the next step of a call moves into the new vector. -/
def relocates : Option (Pc K V) → Multiset (K × V)
  | some (.rehashMove index fresh) => relocated hash map index fresh
  | _ => 0

/-- The accounts after a step to `next`. -/
def Accounts.note (accounts : Accounts K V) (place : Option (Pc K V)) (next : HashMap K V) :
    Accounts K V where
  map := next
  constructed := accounts.constructed + constructs hash accounts.map place
  ended := accounts.ended + ends hash accounts.map place
  relocated := accounts.relocated + relocates hash accounts.map place
  inserted := accounts.inserted + answersInserted place
  removed := accounts.removed + answersRemoved place

def record (accounts : Accounts K V) (place : Option (Pc K V)) (choice : Choice (Call K V)) :
    Option (Accounts K V × Option (Pc K V)) :=
  (advance hash accounts.map place choice).map fun next =>
    (accounts.note hash place next.1, next.2)

end

def recording (Thread : Type*) [DecidableEq K] (hash : K → UInt64) :
    Program Thread (Accounts K V) (Option (Pc K V)) (Choice (Call K V)) where
  advance _ := record hash

def opened (Thread K V : Type*) : Pool Thread (Accounts K V) (Option (Pc K V)) where
  shared :=
    { map := create K V
      constructed := 0
      ended := 0
      relocated := 0
      inserted := 0
      removed := 0 }
  locals _ := none

def accounting (Thread : Type*) [DecidableEq Thread] [DecidableEq K] (V : Type*)
    (hash : K → UInt64) :
    Machine (Pool Thread (Accounts K V) (Option (Pc K V))) (Thread × Choice (Call K V)) :=
  (recording Thread hash).machine (· = opened Thread K V)

/-- `~hash_map`: the entries that it destroys, unless it panics or has to wait
for a guard. -/
def destroy (map : HashMap K V) : List ℕ → Option (List (K × V))
  | [] => some []
  | index :: rest =>
      let bucket := map.buckets index
      if bucket.state.state = .filled then
        if bucket.state.refcount = 0 then
          bucket.entry.bind fun entry => (destroy map rest).map (entry :: ·)
        else none
      else destroy map rest

def destruct (map : HashMap K V) : Option (List (K × V)) :=
  if map.writing = true ∨ map.readers ≠ 0 then none
  else destroy map (List.range map.bucketCount)

/-! ## What is still to be counted -/

/-- An insertion that has constructed its entry and not yet counted it. -/
def uncounted : Option (Pc K V) → ℕ
  | some (.insertCount _ _) => 1
  | _ => 0

/-- A removal that has taken its entry and not yet discounted it. -/
def undiscounted : Option (Pc K V) → ℕ
  | some (.removeCount _ _) => 1
  | _ => 0

/-- An insertion that has constructed its entry and not yet returned. -/
def inserting : Option (Pc K V) → ℕ
  | some (.insertCount _ _) | some (.insertPublish _ _) | some (.unlockRead .inserted) => 1
  | _ => 0

/-- The value that a removal has taken and not yet returned. -/
def removing : Option (Pc K V) → Multiset V
  | some (.removeCount _ value) | some (.removeBury _ value)
  | some (.unlockRead (.removed value)) => {value}
  | _ => 0

/-- The entries that a rehash has moved into its new vector. -/
def carried (size : ℕ) : Option (Pc K V) → Multiset (K × V)
  | some (.rehashLoad _ fresh) | some (.rehashWait _ fresh) | some (.rehashMove _ fresh)
  | some (.rehashSwap fresh) => contents (2 * size) fresh
  | _ => 0

/-! ## One step -/

/-- The call has not constructed or taken an entry. -/
def Progress.Counted : Progress K V → Prop
  | .running (.insertCount _ _) | .running (.insertPublish _ _) | .running (.unlockRead .inserted)
  | .running (.removeCount _ _) | .running (.removeBury _ _)
  | .running (.unlockRead (.removed _)) => False
  | _ => True

/-- Nothing is still to be counted or to be answered. -/
structure Weightless (place : Option (Pc K V)) : Prop where
  uncounted : uncounted place = 0
  undiscounted : undiscounted place = 0
  inserting : inserting place = 0
  removing : removing place = 0

theorem Progress.Counted.weights (counted : progress.Counted) : Weightless progress.place := by
  cases progress with
  | done outcome => exact ⟨rfl, rfl, rfl, rfl⟩
  | running pc =>
      cases pc with
      | insertCount key claim | insertPublish key claim => exact counted.elim
      | removeCount index value | removeBury index value => exact counted.elim
      | unlockRead outcome =>
          cases outcome with
          | inserted => exact counted.elim
          | removed value => exact counted.elim
          | _ => exact ⟨rfl, rfl, rfl, rfl⟩
      | _ => exact ⟨rfl, rfl, rfl, rfl⟩

/-- Its next step gives no answer of those counted. -/
theorem Progress.Counted.silent (counted : (Progress.running pc).Counted) :
    answersInserted (some pc) = 0 ∧ answersRemoved (some pc) = 0 := by
  cases pc with
  | unlockRead outcome =>
      cases outcome with
      | inserted => exact counted.elim
      | removed value => exact counted.elim
      | _ => exact ⟨rfl, rfl⟩
  | _ => exact ⟨rfl, rfl⟩

section

variable {key : K} {value : V} {i : ℕ}

theorem insertAt_counted (claim : Option ℕ) : (map.insertAt key value i claim).Counted := by
  cases claim <;> simp only [insertAt] <;> split <;> trivial

theorem insertFail_counted (failure : InsertFailed) (claim : Option ℕ) :
    (insertFail failure claim : Progress K V).Counted := by
  cases claim <;> trivial

theorem insertAgain_counted (claim : Option ℕ) : (insertAgain key value i claim).Counted := by
  cases claim <;> trivial

theorem removeAt_counted : (map.removeAt key i).Counted := by
  simp only [removeAt]
  split <;> trivial

theorem getNone_counted (contains : Bool) : (getNone contains : Progress K V).Counted := by
  cases contains <;> trivial

theorem getAt_counted (contains : Bool) : (map.getAt key contains i).Counted := by
  simp only [getAt]
  split
  · trivial
  · exact getNone_counted contains

theorem lowered_counted (reason : Lower K V) : (map.lowered reason).Counted := by
  cases reason with
  | insertCompared key value i claim same =>
      cases same
      · exact insertAt_counted claim
      · exact insertFail_counted .keyRepeated claim
  | removeOther key i => exact removeAt_counted
  | getOther key contains i => exact getAt_counted contains
  | _ => trivial

theorem enter_counted {call : Call K V} (entered : map.enter call = some progress) :
    progress.Counted := by
  cases call with
  | tryInsert key value =>
      cases entered
      trivial
  | tryRemove key =>
      cases entered
      exact removeAt_counted
  | tryGet key =>
      cases entered
      exact getAt_counted false
  | tryContains key =>
      cases entered
      exact getAt_counted true
  | tryRehash => contradiction
  | drop index => contradiction

end

variable [DecidableEq K]

/-- A call that touches no entry and has none to count leaves `m_load` alone. -/
theorem resume_counted (quiet : pc.rearranges = false) (counted : (Progress.running pc).Counted)
    (resumed : resume hash map spurious pc = some (next, progress)) :
    progress.Counted ∧ next.load = map.load := by
  cases pc with
  | insertConstruct key value claim | removeTake touched | rehashMove touched fresh
  | rehashSwap fresh => simp [Pc.rearranges] at quiet
  | insertCount key claim | insertPublish key claim => exact counted.elim
  | removeCount touched value | removeBury touched value => exact counted.elim
  | tryReadExchange call expected =>
      simp only [resume] at resumed
      split at resumed
      · simp only [Option.map_eq_some_iff, Prod.mk.injEq] at resumed
        obtain ⟨entered, found, rfl, rfl⟩ := resumed
        exact ⟨enter_counted found, rfl⟩
      · cases resumed
        exact ⟨trivial, rfl⟩
  | insertStart key value =>
      simp only [resume] at resumed
      split at resumed <;> cases resumed
      · exact ⟨trivial, rfl⟩
      · exact ⟨insertAt_counted none, rfl⟩
  | insertExchange key value i =>
      simp only [resume] at resumed
      split at resumed
      · cases resumed
        exact ⟨trivial, rfl⟩
      · split at resumed <;> cases resumed <;> exact ⟨trivial, rfl⟩
  | insertRaise key value i claim refcount =>
      simp only [resume] at resumed
      split at resumed
      · cases resumed
        exact ⟨trivial, rfl⟩
      · split at resumed <;> cases resumed
        · exact ⟨insertFail_counted .retry claim, rfl⟩
        · exact ⟨insertAgain_counted claim, rfl⟩
  | insertClaim key value i expected =>
      simp only [resume] at resumed
      split at resumed <;> cases resumed
      · exact ⟨insertAt_counted _, rfl⟩
      · exact ⟨trivial, rfl⟩
  | insertCheck key value i claim =>
      simp only [resume] at resumed
      split at resumed <;> cases resumed
      · exact ⟨insertAt_counted _, rfl⟩
      · exact ⟨trivial, rfl⟩
      · exact ⟨trivial, rfl⟩
      · exact ⟨trivial, rfl⟩
      · exact ⟨trivial, rfl⟩
      · exact ⟨trivial, rfl⟩
  | insertCompare key value i claim =>
      simp only [resume, Option.map_eq_some_iff, Prod.mk.injEq] at resumed
      obtain ⟨seen, _, rfl, rfl⟩ := resumed
      exact ⟨trivial, rfl⟩
  | removeExchange key i =>
      simp only [resume] at resumed
      split at resumed
      · cases resumed
        exact ⟨trivial, rfl⟩
      · split at resumed <;> cases resumed
        · exact ⟨trivial, rfl⟩
        · exact ⟨trivial, rfl⟩
        · exact ⟨trivial, rfl⟩
        · exact ⟨trivial, rfl⟩
        · exact ⟨removeAt_counted, rfl⟩
        · exact ⟨removeAt_counted, rfl⟩
  | removeLoad key i =>
      simp only [resume] at resumed
      split at resumed
      · cases resumed
        exact ⟨trivial, rfl⟩
      · split at resumed <;> cases resumed <;> exact ⟨trivial, rfl⟩
  | removeCompare key i =>
      simp only [resume, Option.map_eq_some_iff] at resumed
      obtain ⟨seen, _, compared⟩ := resumed
      split at compared <;> cases compared <;> exact ⟨trivial, rfl⟩
  | getLoad key contains i =>
      simp only [resume] at resumed
      split at resumed <;> cases resumed
      · exact ⟨getNone_counted contains, rfl⟩
      · exact ⟨trivial, rfl⟩
      · exact ⟨trivial, rfl⟩
      · exact ⟨getAt_counted contains, rfl⟩
      · exact ⟨getAt_counted contains, rfl⟩
      · exact ⟨trivial, rfl⟩
  | getCompare key contains i =>
      simp only [resume, Option.map_eq_some_iff] at resumed
      obtain ⟨seen, _, compared⟩ := resumed
      split at compared
      · split at compared <;> cases compared <;> exact ⟨trivial, rfl⟩
      · cases compared
        exact ⟨trivial, rfl⟩
  | lower touched reason expected =>
      simp only [resume] at resumed
      split at resumed <;> cases resumed
      · exact ⟨lowered_counted reason, rfl⟩
      · exact ⟨trivial, rfl⟩
  | rehashLoad touched fresh =>
      simp only [resume] at resumed
      split at resumed
      · split at resumed <;> cases resumed <;> exact ⟨trivial, rfl⟩
      · cases resumed
        exact ⟨trivial, rfl⟩
  | tryRead call | insertTombstone key value i | removeRaise key i refcount
  | removeConfirm touched | removeDrainLoad touched | removeDrain touched expected
  | getRaise key contains i refcount | tryWrite | tryWriteExchange | rehashWait touched fresh =>
      simp only [resume] at resumed
      split at resumed <;> cases resumed <;> exact ⟨trivial, rfl⟩
  | unlockRead outcome | insertGiveUp claim failure | lowerLoad touched reason | unlockWrite =>
      cases resumed
      exact ⟨trivial, rfl⟩

omit [DecidableEq K] in
theorem carried_of_writing (free : progress.writing ≠ 1) : carried size progress.place = 0 := by
  cases progress with
  | done outcome => rfl
  | running pc =>
      cases pc with
      | rehashLoad index fresh => exact absurd rfl free
      | rehashWait index fresh => exact absurd rfl free
      | rehashMove index fresh => exact absurd rfl free
      | rehashSwap fresh => exact absurd rfl free
      | _ => rfl

theorem resume_carried (quiet : pc.rearranges = false) (locks : Locks map pc next progress)
    (resumed : resume hash map spurious pc = some (next, progress)) :
    carried size progress.place = carried size (some pc) := by
  cases pc with
  | insertConstruct key value claim | removeTake touched | rehashMove touched fresh
  | rehashSwap fresh => simp [Pc.rearranges] at quiet
  | rehashLoad touched fresh =>
      simp only [resume] at resumed
      split at resumed
      · split at resumed <;> cases resumed <;> rfl
      · cases resumed
        rfl
  | rehashWait touched fresh =>
      simp only [resume] at resumed
      split at resumed <;> cases resumed <;> rfl
  | tryWriteExchange =>
      simp only [resume] at resumed
      split at resumed <;> cases resumed
      · rfl
      · exact contents_vacant fun _ _ => rfl
  | unlockWrite =>
      cases resumed
      rfl
  | _ =>
      refine carried_of_writing fun writes => ?_
      simpa [Pc.writing] using locks.taken writes

/-- What a step does to the entries and to `m_load`. -/
structure Balances (hash : K → UInt64) (map : HashMap K V) (place : Option (Pc K V))
    (next : HashMap K V) (finish : Option (Pc K V)) : Prop where
  kept : contents next.bucketCount next.buckets + carried next.bucketCount finish +
      ends hash map place =
    contents map.bucketCount map.buckets + carried map.bucketCount place +
      constructs hash map place
  loaded : next.load + uncounted finish + (ends hash map place).card + undiscounted place =
    map.load + uncounted place + (constructs hash map place).card + undiscounted finish
  inserted : inserting finish + answersInserted place + (relocates hash map place).card =
    inserting place + (constructs hash map place).card
  removed : removing finish + answersRemoved place + (relocates hash map place).map Prod.snd =
    removing place + (ends hash map place).map Prod.snd

/-- A step that touches no entry: it may count one or return with it. -/
structure CatchesUp (map : HashMap K V) (place : Option (Pc K V)) (next : HashMap K V)
    (finish : Option (Pc K V)) : Prop where
  loaded : next.load + uncounted finish + undiscounted place =
    map.load + uncounted place + undiscounted finish
  inserted : inserting finish + answersInserted place = inserting place
  removed : removing finish + answersRemoved place = removing place

theorem resume_catchesUp (quiet : pc.rearranges = false)
    (resumed : resume hash map spurious pc = some (next, progress))
    (positive : ∀ index value, pc = .removeCount index value → 0 < map.load) :
    CatchesUp map (some pc) next progress.place := by
  by_cases counted : (Progress.running pc).Counted
  · obtain ⟨after, load⟩ := resume_counted quiet counted resumed
    have before : Weightless (some pc) := counted.weights
    have weights := after.weights
    refine ⟨?_, ?_, ?_⟩
    · rw [load, before.uncounted, before.undiscounted, weights.uncounted, weights.undiscounted]
    · rw [weights.inserting, before.inserting, counted.silent.1]
    · rw [weights.removing, before.removing, counted.silent.2, add_zero]
  · cases pc with
    | insertCount key claim | insertPublish key claim | removeBury index value =>
        cases resumed
        exact ⟨rfl, rfl, add_zero _⟩
    | removeCount index value =>
        cases resumed
        have discounted := Nat.sub_add_cancel (positive index value rfl)
        exact ⟨discounted, rfl, add_zero _⟩
    | unlockRead outcome =>
        cases resumed
        cases outcome with
        | inserted | removed value => exact ⟨rfl, rfl, zero_add _⟩
        | _ => exact absurd trivial counted
    | _ => exact absurd trivial counted

theorem Balances.of_quiet (quiet : pc.rearranges = false) (locks : Locks map pc next progress)
    (sized : next.bucketCount = map.bucketCount)
    (resumed : resume hash map spurious pc = some (next, progress))
    (positive : ∀ index value, pc = .removeCount index value → 0 < map.load) :
    Balances hash map (some pc) next progress.place := by
  obtain ⟨noConstruction, noEnd, noMove⟩ : constructs hash map (some pc) = 0 ∧
      ends hash map (some pc) = 0 ∧ relocates hash map (some pc) = 0 := by
    cases pc with
    | insertConstruct key value claim | removeTake touched | rehashMove touched fresh =>
        simp [Pc.rearranges] at quiet
    | _ => exact ⟨rfl, rfl, rfl⟩
  have same : contents map.bucketCount next.buckets = contents map.bucketCount map.buckets :=
    contents_congr fun i => resume_entries quiet resumed i
  have carrying : carried map.bucketCount progress.place = carried map.bucketCount (some pc) :=
    resume_carried quiet locks resumed
  have catchesUp := resume_catchesUp quiet resumed positive
  refine ⟨?_, ?_, ?_, ?_⟩
  · rw [noConstruction, noEnd, sized, same, carrying]
  · rw [noConstruction, noEnd]
    exact catchesUp.loaded
  · rw [noConstruction, noMove]
    exact catchesUp.inserted
  · rw [noEnd, noMove]
    exact congrArg (· + 0) catchesUp.removed

/-! ## Every reachable state -/

variable {Thread : Type*} [Fintype Thread] [DecidableEq Thread]
  {pool : Pool Thread (HashMap K V) (Option (Pc K V))} {thread : Thread}

omit [DecidableEq K] [DecidableEq Thread] in
/-- A bucket nobody holds a claim for keeps an entry only when it is filled. -/
theorem Law.vacant {bucket : Bucket K V} {guards : ℕ} {roles : Role → ℕ}
    (law : Law bucket guards roles) (nobody : ∀ role, roles role = 0)
    (state : bucket.state.state ≠ .filled) : bucket.entry = none := by
  have removed := law.removed
  have stored := law.stored
  simp only [nobody] at removed stored
  have unseized : bucket.state.state ≠ .predestructing := by
    intro predestructing
    simp [predestructing] at removed
  cases found : bucket.entry with
  | none => rfl
  | some entry => simp [found, state, unseized] at stored

theorem Coherent.balances (coherent : Coherent hash pool)
    (stands : pool.locals thread = some pc)
    (resumed : resume hash pool.shared spurious pc = some (next, progress))
    (positive : ∀ index value, pc = .removeCount index value → 0 < pool.shared.load) :
    Balances hash pool.shared (some pc) next progress.place := by
  have backed := coherent.backed stands
  have locks := resume_locks (coherent.rehashes stands) resumed
  cases pc with
  | insertConstruct key value claim =>
      cases resumed
      have within : claim < pool.shared.bucketCount :=
        backed.within (.building, claim) (by simp [Pc.claims])
      obtain ⟨others, lawful, _⟩ := coherent.lawful_thread thread
      rw [stands] at lawful
      have unbuilt : (pool.shared.buckets claim).entry = none :=
        Lawful.unbuilt lawful (by simp [localClaims, Pc.claims])
      have vacant : entriesOf (pool.shared.buckets claim) = 0 := by
        rw [entriesOf, unbuilt]
        rfl
      have changed : contents pool.shared.bucketCount
          (pool.shared.setEntry claim (some (key, value))).buckets +
            entriesOf (pool.shared.buckets claim) =
          contents pool.shared.bucketCount pool.shared.buckets + {(key, value)} :=
        contents_update within
      rw [vacant, add_zero] at changed
      refine ⟨?_, Nat.add_right_comm _ _ _, rfl, rfl⟩
      simp only [setEntry_bucketCount, changed, carried, Progress.place, constructs, ends, add_zero]
  | removeTake index =>
      have within : index < pool.shared.bucketCount :=
        backed.within (.emptying, index) (by simp [Pc.claims])
      simp only [resume, Option.map_eq_some_iff, Prod.mk.injEq] at resumed
      obtain ⟨taken, found, rfl, rfl⟩ := resumed
      have changed : contents pool.shared.bucketCount (pool.shared.setEntry index none).buckets +
          entriesOf (pool.shared.buckets index) =
          contents pool.shared.bucketCount pool.shared.buckets + 0 :=
        contents_update within
      have single : (entriesOf (pool.shared.buckets index)).card = 1 := by
        rw [entriesOf, found]
        rfl
      rw [add_zero] at changed
      have value : (entriesOf (pool.shared.buckets index)).map Prod.snd = {taken.2} := by
        rw [entriesOf, found]
        rfl
      refine ⟨?_, ?_, rfl, ?_⟩
      · simp only [setEntry_bucketCount, changed, carried, Progress.place, constructs, ends,
          add_zero]
      · simp only [ends, constructs, single]
        rfl
      · simp only [ends, value]
        rfl
  | rehashMove index fresh =>
      have standing : Refilled pool.shared index fresh ∧ index < pool.shared.bucketCount ∧ _ :=
        coherent.rehashing thread _ stands
      obtain ⟨refilled, within, _⟩ := standing
      simp only [resume, Option.map_eq_some_iff] at resumed
      obtain ⟨entry, found, placed⟩ := resumed
      have single : entriesOf (pool.shared.buckets index) = {entry} := by
        rw [entriesOf, found]
        rfl
      split at placed
      · rename_i nowhere
        cases placed
        exact ⟨rfl, rfl, rfl, rfl⟩
      · rename_i moved somewhere
        cases placed
        have one : relocated hash pool.shared index fresh = {entry} := by
          simp [relocated, found, somewhere]
        have filled : contents (2 * pool.shared.bucketCount) moved = _ :=
          contents_placed refilled.ready coherent.sized.double somewhere
        have emptied : ((pool.shared.setEntry index none).setState index ⟨0, .tombstone⟩).buckets =
            Function.update pool.shared.buckets index ⟨⟨0, .tombstone⟩, none⟩ := by
          simp [setEntry, HashMap.setState]
        have changed : contents pool.shared.bucketCount
            (Function.update pool.shared.buckets index ⟨⟨0, .tombstone⟩, none⟩) +
              entriesOf (pool.shared.buckets index) =
            contents pool.shared.bucketCount pool.shared.buckets + 0 :=
          contents_update within
        rw [single, add_zero] at changed
        refine ⟨?_, rfl, rfl, rfl⟩
        simp only [setState_bucketCount, setEntry_bucketCount, emptied, carried, Progress.place,
          filled, constructs, ends, one, ← changed]
        ac_rfl
  | rehashSwap fresh =>
      cases resumed
      have standing : Scanned pool.shared pool.shared.bucketCount ∧ _ :=
        coherent.rehashing thread _ stands
      obtain ⟨_, unclaimed⟩ := coherent.swap_unclaimed stands
      have vacant : contents pool.shared.bucketCount pool.shared.buckets = 0 := by
        refine contents_vacant fun i below => (coherent.lawful i).vacant ?_ (standing.1 i below)
        exact fun role => held_eq_zero.mpr fun other => by simp [unclaimed other]
      refine ⟨?_, rfl, rfl, rfl⟩
      simp only [vacant, carried, Progress.place, constructs, ends, zero_add, add_zero]
  | _ =>
      have keeps := resume_keeps backed (by simp) resumed
      exact .of_quiet rfl locks keeps.1 resumed positive

omit [DecidableEq K] in
theorem carried_of_writeLocks {place : Option (Pc K V)} (free : writeLocks place = 0) (size : ℕ) :
    carried size place = 0 := by
  cases place with
  | none => rfl
  | some pc =>
      have idle : (Progress.running pc).writing ≠ 1 := by
        change pc.writing ≠ 1
        change pc.writing = 0 at free
        omega
      exact carried_of_writing idle

omit [DecidableEq Thread] in
/-- The entries that the other calls carry do not depend on the step of one call. -/
theorem Coherent.carried_others {other : Thread} (coherent : Coherent hash pool)
    (stands : pool.locals thread = some pc)
    (resumed : resume hash pool.shared spurious pc = some (next, progress))
    (different : other ≠ thread) :
    carried next.bucketCount (pool.locals other) =
      carried pool.shared.bucketCount (pool.locals other) := by
  by_cases swaps : ∃ fresh, pc = .rehashSwap fresh
  · obtain ⟨fresh, rfl⟩ := swaps
    have free := (coherent.excluded stands rfl different).2
    rw [carried_of_writeLocks free, carried_of_writeLocks free]
  · have keeps := resume_keeps (coherent.backed stands) (fun fresh same => swaps ⟨fresh, same⟩)
      resumed
    rw [keeps.1]

/-- The filled buckets of a map. -/
def filledBuckets (map : HashMap K V) : Finset ℕ :=
  (Finset.range map.bucketCount).filter fun index => (map.buckets index).state.state = .filled

omit [DecidableEq K] [DecidableEq Thread] in
/-- An entry is in its bucket before it is counted. -/
theorem Coherent.uncounted_le (coherent : Coherent hash pool) :
    (filledBuckets pool.shared).card + tally uncounted pool.locals ≤
      total pool.shared.bucketCount pool.shared.buckets := by
  have counts (thread : Thread) : uncounted (pool.locals thread) ≤
      ∑ i ∈ Finset.range pool.shared.bucketCount,
        (localClaims hash pool.shared.bucketCount (pool.locals thread)).count (.filling, i) := by
    cases stands : pool.locals thread with
    | none => exact Nat.zero_le _
    | some pc =>
        cases pc with
        | insertCount key claim =>
            have within : claim < pool.shared.bucketCount :=
              (coherent.backed stands).within (.filling, claim) (by simp [Pc.claims])
            rw [Finset.sum_eq_single_of_mem claim (Finset.mem_range.mpr within)]
            · simp [uncounted, localClaims, Pc.claims]
            · intro i _ different
              simp [localClaims, Pc.claims, different.symm]
        | _ => exact Nat.zero_le _
  have holds (i : ℕ) : (if (pool.shared.buckets i).state.state = .filled then 1 else 0) +
      held (localClaims hash pool.shared.bucketCount) pool.locals (.filling, i) ≤
        stored (pool.shared.buckets i) := by
    have built := (coherent.lawful i).built
    have removed := (coherent.lawful i).removed
    have kept := (coherent.lawful i).stored
    rw [stored]
    by_cases filled : (pool.shared.buckets i).state.state = .filled
    · simp only [filled, reduceCtorEq, true_or, if_true, if_false] at removed kept ⊢
      omega
    · rw [if_neg filled]
      by_cases constructing : (pool.shared.buckets i).state.state = .constructing
      · simp only [constructing, reduceCtorEq, or_self, if_false] at removed kept
        omega
      · rw [if_neg constructing] at built
        omega
  calc (filledBuckets pool.shared).card + tally uncounted pool.locals
      ≤ (filledBuckets pool.shared).card + ∑ thread, ∑ i ∈ Finset.range pool.shared.bucketCount,
          (localClaims hash pool.shared.bucketCount (pool.locals thread)).count (.filling, i) :=
        Nat.add_le_add_left (Finset.sum_le_sum fun thread _ => counts thread) _
    _ = ∑ i ∈ Finset.range pool.shared.bucketCount,
          ((if (pool.shared.buckets i).state.state = .filled then 1 else 0) +
            held (localClaims hash pool.shared.bucketCount) pool.locals (.filling, i)) := by
        rw [filledBuckets, Finset.card_filter, Finset.sum_comm, Finset.sum_add_distrib]
        rfl
    _ ≤ total pool.shared.bucketCount pool.shared.buckets := Finset.sum_le_sum fun i _ => holds i

theorem Coherent.advance_balances (coherent : Coherent hash pool) {choice : Choice (Call K V)}
    {finish : Option (Pc K V)} (positive : tally undiscounted pool.locals ≤ pool.shared.load)
    (advanced : advance hash pool.shared (pool.locals thread) choice = some (next, finish)) :
    Balances hash pool.shared (pool.locals thread) next finish ∧
      ∀ other, other ≠ thread → carried next.bucketCount (pool.locals other) =
        carried pool.shared.bucketCount (pool.locals other) := by
  rcases advance_eq_some advanced with ⟨call, pc, stands, started, rfl⟩ |
    ⟨pc, spurious, after, progress, stands, resumed, rfl, rfl⟩
  · have calm := Calm.start started
    have same : contents next.bucketCount next.buckets =
        contents pool.shared.bucketCount pool.shared.buckets := by
      rw [calm.bucketCount]
      exact contents_congr calm.entry
    obtain ⟨load, carrying, weights⟩ : next.load = pool.shared.load ∧
        carried next.bucketCount (some pc) = 0 ∧ Weightless (some pc) := by
      cases call with
      | drop index =>
          simp only [HashMap.start] at started
          split at started
          · cases started
            exact ⟨rfl, rfl, rfl, rfl, rfl, rfl⟩
          · contradiction
      | _ =>
          cases started
          exact ⟨rfl, rfl, rfl, rfl, rfl, rfl⟩
    refine ⟨⟨?_, ?_, ?_, ?_⟩, fun other _ => by rw [calm.bucketCount]⟩
    · rw [same, carrying, stands]
      rfl
    · rw [load, weights.uncounted, weights.undiscounted, stands]
      rfl
    · rw [weights.inserting, stands]
      rfl
    · rw [weights.removing, stands]
      rfl
  · obtain ⟨buckets_eq, count_eq, _, _, load_eq⟩ := settle_fields after progress
    have weighs (index : ℕ) (value : V) (discounts : pc = .removeCount index value) :
        0 < pool.shared.load := by
      have weight : undiscounted (pool.locals thread) ≤ tally undiscounted pool.locals :=
        weight_le_tally thread
      rw [stands, discounts] at weight
      exact Nat.lt_of_lt_of_le Nat.one_pos (weight.trans positive)
    have balances := coherent.balances stands resumed weighs
    rw [settle_place, stands]
    refine ⟨⟨?_, ?_, balances.inserted, balances.removed⟩, fun other different => ?_⟩
    · rw [buckets_eq, count_eq]
      exact balances.kept
    · rw [load_eq]
      exact balances.loaded
    · rw [count_eq]
      exact coherent.carried_others stands resumed different

/-! ## The accounts of a pool -/

variable {books : Pool Thread (Accounts K V) (Option (Pc K V))} {accounts : Accounts K V}
  {finish : Option (Pc K V)}

/-- The pool without its accounts. -/
def close (books : Pool Thread (Accounts K V) (Option (Pc K V))) :
    Pool Thread (HashMap K V) (Option (Pc K V)) where
  shared := books.shared.map
  locals := books.locals

/-- Every entry that has been constructed has either been ended or is in a
bucket, and `m_load` and the answers are behind by the calls that have still to
count and to return. -/
structure Balanced (books : Pool Thread (Accounts K V) (Option (Pc K V))) : Prop where
  kept : books.shared.constructed = books.shared.ended +
    (contents books.shared.map.bucketCount books.shared.map.buckets +
      ∑ thread, carried books.shared.map.bucketCount (books.locals thread))
  loaded : books.shared.map.load + tally uncounted books.locals + books.shared.ended.card =
    books.shared.constructed.card + tally undiscounted books.locals
  inserted : books.shared.constructed.card =
    books.shared.relocated.card + books.shared.inserted + tally inserting books.locals
  removed : books.shared.ended.map Prod.snd =
    books.shared.relocated.map Prod.snd + books.shared.removed +
      ∑ thread, removing (books.locals thread)

theorem record_eq_some {place : Option (Pc K V)} {choice : Choice (Call K V)}
    {recorded : Accounts K V}
    (moved : record hash accounts place choice = some (recorded, finish)) :
    ∃ next, advance hash accounts.map place choice = some (next, finish) ∧
      recorded = accounts.note hash place next := by
  simp only [record, Option.map_eq_some_iff, Prod.mk.injEq] at moved
  obtain ⟨next, advanced, rfl, rfl⟩ := moved
  exact ⟨next.1, advanced, rfl⟩

omit [Fintype Thread] in
theorem close_reachable (reachable : (accounting Thread V hash).Reachable Machine.free books) :
    (machine Thread V hash).Reachable Machine.free (close books) := by
  obtain ⟨first, started, run⟩ := reachable
  induction run with
  | refl =>
      cases started
      exact ⟨_, rfl, .refl _⟩
  | tail _ _ moved ih =>
      obtain ⟨recorded, finish, noted, rfl⟩ := Program.move_eq_some.mp moved
      obtain ⟨next, advanced, rfl⟩ := record_eq_some noted
      exact ih.step trivial (Program.move_eq_some.mpr ⟨next, finish, advanced, rfl⟩)

omit [Fintype Thread] in
/-- The accounts keep nothing from happening. -/
theorem exists_books (reachable : (machine Thread V hash).Reachable Machine.free pool) :
    ∃ books, (accounting Thread V hash).Reachable Machine.free books ∧ close books = pool := by
  obtain ⟨first, started, run⟩ := reachable
  induction run with
  | refl =>
      cases started
      exact ⟨opened Thread K V, ⟨_, rfl, .refl _⟩, rfl⟩
  | @tail middle last label before allowed moved ih =>
      obtain ⟨books, reached, rfl⟩ := ih
      obtain ⟨shared, finish, advanced, rfl⟩ := Program.move_eq_some.mp moved
      have noted : record hash books.shared (books.locals label.1) label.2 =
          some (books.shared.note hash (books.locals label.1) shared, finish) := by
        simp only [record, Option.map_eq_some_iff]
        exact ⟨(shared, finish), advanced, rfl⟩
      exact ⟨_, reached.step trivial (Program.move_eq_some.mpr ⟨_, finish, noted, rfl⟩), rfl⟩

omit [DecidableEq K] [DecidableEq Thread] in
/-- `m_load` counts the filled buckets and the removals that have still to
discount their entry. -/
theorem Balanced.filled_le (balanced : Balanced books) (coherent : Coherent hash (close books)) :
    (filledBuckets books.shared.map).card + tally undiscounted books.locals ≤
      books.shared.map.load := by
  have loaded := balanced.loaded
  have uncounted : (filledBuckets books.shared.map).card + tally uncounted books.locals ≤
      total books.shared.map.bucketCount books.shared.map.buckets := coherent.uncounted_le
  rw [balanced.kept, Multiset.card_add, Multiset.card_add, card_contents] at loaded
  omega

theorem Balanced.step (balanced : Balanced books) (coherent : Coherent hash (close books))
    {thread : Thread} {choice : Choice (Call K V)} {recorded : Accounts K V}
    (moved : record hash books.shared (books.locals thread) choice = some (recorded, finish)) :
    Balanced { shared := recorded, locals := Function.update books.locals thread finish } := by
  obtain ⟨next, advanced, rfl⟩ := record_eq_some moved
  have discounted := (Nat.le_add_left _ _).trans (balanced.filled_le coherent)
  obtain ⟨balances, others⟩ := coherent.advance_balances discounted advanced
  simp only [close] at balances others
  have carrying : ∑ other, carried next.bucketCount
        (Function.update books.locals thread finish other) +
      carried books.shared.map.bucketCount (books.locals thread) =
        ∑ other, carried books.shared.map.bucketCount (books.locals other) +
          carried next.bucketCount finish := by
    rw [← Finset.add_sum_erase _ _ (Finset.mem_univ thread),
      ← Finset.add_sum_erase Finset.univ
        (fun other => carried books.shared.map.bucketCount (books.locals other))
        (Finset.mem_univ thread), Function.update_self]
    have same : ∀ other ∈ Finset.univ.erase thread,
        carried next.bucketCount (Function.update books.locals thread finish other) =
          carried books.shared.map.bucketCount (books.locals other) := by
      intro other member
      have different := Finset.ne_of_mem_erase member
      rw [Function.update_of_ne different]
      exact others other different
    rw [Finset.sum_congr rfl same]
    ac_rfl
  refine ⟨?_, ?_, ?_, ?_⟩
  · refine add_right_cancel (b := carried books.shared.map.bucketCount (books.locals thread)) ?_
    simp only [Accounts.note]
    rw [balanced.kept]
    calc books.shared.ended + (contents books.shared.map.bucketCount books.shared.map.buckets +
            ∑ other, carried books.shared.map.bucketCount (books.locals other)) +
          constructs hash books.shared.map (books.locals thread) +
          carried books.shared.map.bucketCount (books.locals thread)
        = books.shared.ended + ∑ other, carried books.shared.map.bucketCount (books.locals other) +
          (contents books.shared.map.bucketCount books.shared.map.buckets +
            carried books.shared.map.bucketCount (books.locals thread) +
            constructs hash books.shared.map (books.locals thread)) := by ac_rfl
      _ = books.shared.ended + ∑ other, carried books.shared.map.bucketCount (books.locals other) +
          (contents next.bucketCount next.buckets + carried next.bucketCount finish +
            ends hash books.shared.map (books.locals thread)) :=
        congrArg _ balances.kept.symm
      _ = books.shared.ended + ends hash books.shared.map (books.locals thread) +
          contents next.bucketCount next.buckets +
          (∑ other, carried books.shared.map.bucketCount (books.locals other) +
            carried next.bucketCount finish) := by ac_rfl
      _ = _ := by
        rw [← carrying]
        ac_rfl
  · have uncounting := tally_update uncounted books.locals thread finish
    have undiscounting := tally_update undiscounted books.locals thread finish
    have loaded := balanced.loaded
    have moves := balances.loaded
    simp only [Accounts.note, Multiset.card_add]
    omega
  · have returning := tally_update inserting books.locals thread finish
    have answered := balanced.inserted
    have moves := balances.inserted
    simp only [Accounts.note, Multiset.card_add]
    omega
  · have returning : ∑ other, removing (Function.update books.locals thread finish other) +
        removing (books.locals thread) =
          ∑ other, removing (books.locals other) + removing finish :=
      sum_update_add removing books.locals (Finset.mem_univ thread) finish
    refine add_right_cancel (b := removing (books.locals thread)) ?_
    simp only [Accounts.note, Multiset.map_add]
    rw [balanced.removed]
    calc books.shared.relocated.map Prod.snd + books.shared.removed +
            ∑ other, removing (books.locals other) +
          (ends hash books.shared.map (books.locals thread)).map Prod.snd +
          removing (books.locals thread)
        = books.shared.relocated.map Prod.snd + books.shared.removed +
            ∑ other, removing (books.locals other) +
          (removing (books.locals thread) +
            (ends hash books.shared.map (books.locals thread)).map Prod.snd) := by ac_rfl
      _ = books.shared.relocated.map Prod.snd + books.shared.removed +
            ∑ other, removing (books.locals other) +
          (removing finish + answersRemoved (books.locals thread) +
            (relocates hash books.shared.map (books.locals thread)).map Prod.snd) :=
        congrArg _ balances.removed.symm
      _ = books.shared.relocated.map Prod.snd +
            (relocates hash books.shared.map (books.locals thread)).map Prod.snd +
          (books.shared.removed + answersRemoved (books.locals thread)) +
          (∑ other, removing (books.locals other) + removing finish) := by ac_rfl
      _ = _ := by
        rw [← returning]
        ac_rfl

theorem balanced_of_reachable
    (reachable : (accounting Thread V hash).Reachable Machine.free books) : Balanced books := by
  refine Program.invariant_of_known reachable
    (fun _ before => coherent_of_reachable (close_reachable before)) ?_ ?_
  · intro first started
    cases started
    have vacant : contents initialCapacity (create K V).buckets = 0 :=
      contents_vacant fun _ _ => rfl
    refine ⟨?_, ?_, ?_, ?_⟩
    · simp only [opened, carried, create] at vacant ⊢
      rw [vacant]
      simp
    · simp [opened, create, tally, uncounted, undiscounted]
    · simp [opened, tally, inserting]
    · simp [opened, removing]
  · intro books thread choice recorded finish coherent balanced _ moved
    exact balanced.step coherent moved

/-! ## A map that nobody uses -/

omit [DecidableEq K] [DecidableEq Thread] in
/-- Between calls the entries are in the filled buckets. -/
theorem Coherent.filled_iff (coherent : Coherent hash pool)
    (idle : ∀ thread, pool.locals thread = none) (index : ℕ) :
    ((pool.shared.buckets index).state.state = .filled ↔
        (pool.shared.buckets index).entry.isSome) ∧
      (pool.shared.buckets index).state.state ≠ .constructing ∧
      (pool.shared.buckets index).state.state ≠ .predestructing ∧
      (pool.shared.buckets index).state.refcount = pool.shared.guards index := by
  have nobody (role : Role) :
      held (localClaims hash pool.shared.bucketCount) pool.locals (role, index) = 0 :=
    held_eq_zero.mpr fun thread => by simp [idle thread, localClaims]
  obtain ⟨counted, removed, built, _, _, _, stored⟩ := coherent.lawful index
  simp only [nobody] at counted removed built stored
  have unseized : (pool.shared.buckets index).state.state ≠ .predestructing := by
    intro predestructing
    simp [predestructing] at removed
  have unbuilt : (pool.shared.buckets index).state.state ≠ .constructing := by
    intro constructing
    simp [constructing] at built
  refine ⟨?_, unbuilt, unseized, counted⟩
  by_cases filled : (pool.shared.buckets index).state.state = .filled
  · simp only [filled, true_or, if_true] at stored
    by_cases present : (pool.shared.buckets index).entry.isSome
    · exact ⟨fun _ => present, fun _ => filled⟩
    · simp [present] at stored
  · simp only [filled, unseized, or_self, if_false] at stored
    by_cases present : (pool.shared.buckets index).entry.isSome
    · simp [present] at stored
    · exact ⟨fun other => absurd other filled, fun other => absurd other present⟩

omit [DecidableEq K] [DecidableEq Thread] in
theorem Coherent.card_filledBuckets (coherent : Coherent hash pool)
    (idle : ∀ thread, pool.locals thread = none) :
    (filledBuckets pool.shared).card = total pool.shared.bucketCount pool.shared.buckets := by
  rw [filledBuckets, Finset.card_filter, total]
  refine Finset.sum_congr rfl fun index _ => ?_
  have agrees := (coherent.filled_iff idle index).1
  simp only [stored, agrees]

omit [DecidableEq K] [DecidableEq Thread] in
/-- The destructor visits every entry of the buckets it is given. -/
theorem Coherent.destroy_eq (coherent : Coherent hash pool)
    (idle : ∀ thread, pool.locals thread = none) (unguarded : ∀ index, pool.shared.guards index = 0)
    (indices : List ℕ) :
    ∃ entries, destroy pool.shared indices = some entries ∧
      (entries : Multiset (K × V)) =
        (indices.map fun index => entriesOf (pool.shared.buckets index)).sum := by
  induction indices with
  | nil => exact ⟨[], rfl, rfl⟩
  | cons index rest ih =>
      obtain ⟨entries, destroyed, same⟩ := ih
      obtain ⟨agrees, _, _, counted⟩ := coherent.filled_iff idle index
      rw [unguarded] at counted
      by_cases filled : (pool.shared.buckets index).state.state = .filled
      · obtain ⟨entry, found⟩ := Option.isSome_iff_exists.mp (agrees.mp filled)
        refine ⟨entry :: entries, by simp [destroy, filled, counted, found, destroyed], ?_⟩
        rw [List.map_cons, List.sum_cons, ← same, entriesOf, found]
        rfl
      · have vacant : (pool.shared.buckets index).entry = none := by
          rw [← Option.not_isSome_iff_eq_none, ← agrees]
          exact filled
        refine ⟨entries, by simp [destroy, filled, destroyed], ?_⟩
        rw [List.map_cons, List.sum_cons, ← same, entriesOf, vacant]
        exact (zero_add _).symm

omit [DecidableEq K] [DecidableEq Thread] in
theorem Coherent.destruct_eq (coherent : Coherent hash pool)
    (idle : ∀ thread, pool.locals thread = none) (unguarded : ∀ index, pool.shared.guards index = 0)
    (unlocked : pool.shared.readers = 0) :
    ∃ entries, destruct pool.shared = some entries ∧
      (entries : Multiset (K × V)) = contents pool.shared.bucketCount pool.shared.buckets := by
  have free : pool.shared.writing = false := by
    have writer := coherent.writer
    have nobody : tally writeLocks pool.locals = 0 :=
      tally_eq_zero.mpr fun thread => by rw [idle thread]; rfl
    rw [nobody] at writer
    cases writes : pool.shared.writing with
    | false => rfl
    | true => simp [writes] at writer
  obtain ⟨entries, destroyed, same⟩ :=
    coherent.destroy_eq idle unguarded (List.range pool.shared.bucketCount)
  refine ⟨entries, by simp [destruct, free, unlocked, destroyed], same.trans ?_⟩
  exact (Multiset.sum_coe _).symm

/-- The account of a map and of everything constructed into it. -/
structure Accounted (books : Pool Thread (Accounts K V) (Option (Pc K V))) : Prop where
  /-- `m_load` does not wrap below zero. -/
  counted : ∀ thread index value, books.locals thread = some (.removeCount index value) →
    0 < books.shared.map.load
  /-- Between calls `size()` is the number of filled buckets, and nobody has left
  a bucket half constructed or half destructed. -/
  settled : (∀ thread, books.locals thread = none) →
    books.shared.map.load = (filledBuckets books.shared.map).card ∧
      ∀ index, (books.shared.map.buckets index).state.state ≠ .constructing ∧
        (books.shared.map.buckets index).state.state ≠ .predestructing
  /-- What has been constructed has been ended once, or is in the vector or in
  the one that a rehash fills. -/
  conserved : books.shared.constructed = books.shared.ended +
    (contents books.shared.map.bucketCount books.shared.map.buckets +
      ∑ thread, carried books.shared.map.bucketCount (books.locals thread))
  /-- What has been constructed was moved over by a rehash, or an insertion has
  answered for it or is going to. -/
  inserted : books.shared.constructed.card =
    books.shared.relocated.card + books.shared.inserted + tally inserting books.locals
  /-- What has been ended was moved over by a rehash, or a removal has answered with
  its value or is going to. -/
  removed : books.shared.ended.map Prod.snd =
    books.shared.relocated.map Prod.snd + books.shared.removed +
      ∑ thread, removing (books.locals thread)
  /-- The destructor ends the rest, when it gets the lock and no guard is left. -/
  destructed : (∀ thread, books.locals thread = none) →
    (∀ index, books.shared.map.guards index = 0) → books.shared.map.readers = 0 →
      ∃ entries, destruct books.shared.map = some entries ∧
        books.shared.constructed = books.shared.ended + ↑entries

theorem accounted_of_reachable
    (reachable : (accounting Thread V hash).Reachable Machine.free books) : Accounted books := by
  have balanced := balanced_of_reachable reachable
  have coherent : Coherent hash (close books) := coherent_of_reachable (close_reachable reachable)
  have idleBalance (idle : ∀ thread, books.locals thread = none) :
      books.shared.constructed = books.shared.ended +
        contents books.shared.map.bucketCount books.shared.map.buckets := by
    have kept := balanced.kept
    simp only [idle, carried, Finset.sum_const_zero, add_zero] at kept
    exact kept
  refine ⟨?_, fun idle => ⟨?_, fun index => ?_⟩, balanced.kept, balanced.inserted,
    balanced.removed, ?_⟩
  · intro thread index value stands
    have discounted := (Nat.le_add_left _ _).trans (balanced.filled_le coherent)
    have weight : undiscounted (books.locals thread) ≤ tally undiscounted books.locals :=
      weight_le_tally thread
    rw [stands] at weight
    exact Nat.lt_of_lt_of_le Nat.one_pos (weight.trans discounted)
  · have loaded := balanced.loaded
    have nothing : tally uncounted books.locals = 0 ∧ tally undiscounted books.locals = 0 :=
      ⟨tally_eq_zero.mpr fun thread => by rw [idle thread]; rfl,
        tally_eq_zero.mpr fun thread => by rw [idle thread]; rfl⟩
    have filled : (filledBuckets books.shared.map).card =
        total books.shared.map.bucketCount books.shared.map.buckets :=
      coherent.card_filledBuckets idle
    rw [idleBalance idle, Multiset.card_add, card_contents, nothing.1, nothing.2] at loaded
    omega
  · have agrees := coherent.filled_iff idle index
    exact ⟨agrees.2.1, agrees.2.2.1⟩
  · intro idle unguarded unlocked
    obtain ⟨entries, destroyed, same⟩ := coherent.destruct_eq idle unguarded unlocked
    refine ⟨entries, destroyed, ?_⟩
    rw [same]
    exact idleBalance idle

/-- Two keys are inserted, and one of them is removed while the other thread is
about to publish a third one. -/
theorem accounted_of_reachable_removed :
    ∃ books : Pool (Fin 2) (Accounts ℕ ℕ) (Option (Pc ℕ ℕ)),
      (books.shared.constructed.card = 3 ∧ books.shared.inserted = 2 ∧
        books.shared.ended = {(5, 7)} ∧ books.shared.removed = {7} ∧
          books.shared.map.load = 2 ∧ books.locals 1 = some (.insertPublish 9 9)) ∧
        (accounting (Fin 2) ℕ UInt64.ofNat).Reachable Machine.free books ∧ Accounted books := by
  obtain ⟨books, reachable, standing⟩ :=
    Machine.reachable_of_exec (accounting (Fin 2) ℕ UInt64.ofNat) Machine.free
      (opened (Fin 2) ℕ ℕ)
      (List.flatten
        [(0, .call (.tryInsert 5 7)) :: List.replicate 8 (0, .step false),
          (0, .call (.tryInsert 6 8)) :: List.replicate 8 (0, .step false),
          (1, .call (.tryInsert 9 9)) :: List.replicate 6 (1, .step false),
          (0, .call (.tryRemove 5)) :: List.replicate 11 (0, .step false)])
      (fun books => books.shared.constructed.card = 3 ∧ books.shared.inserted = 2 ∧
        books.shared.ended = {(5, 7)} ∧ books.shared.removed = {7} ∧
          books.shared.map.load = 2 ∧ books.locals 1 = some (.insertPublish 9 9))
      rfl ⟨_, rfl, rfl, rfl, rfl, rfl, rfl, rfl⟩
  exact ⟨books, standing, reachable, accounted_of_reachable reachable⟩

end Asco.Concurrency.HashMap
