import Asco.Concurrency.HashMap.Probing
import Asco.Concurrency.HashMap.Search

namespace Asco.Concurrency.HashMap

open Foundation

/-! # Equal keys

An insertion claims the first bucket that it may take and looks for the key only
behind it.  The key can meanwhile come into a bucket that the insertion has passed,
so two insertions of one key exclude each other only when the claims come in order.
-/

variable {K V : Type*} {hash : K → UInt64} {map next : HashMap K V} {pc : Pc K V}
  {progress : Progress K V} {spurious : Bool} {key : K} {value : V} {i j index size : ℕ}
  {others : Claim → ℕ}

/-- The bucket has the key, and no removal has drained it. -/
def Stores (bucket : Bucket K V) (key : K) : Prop :=
  bucket.state ≠ ⟨0, .predestructing⟩ ∧ ∃ value, bucket.entry = some (key, value)

/-- An insertion on its way: it has met the key at no position below. -/
structure Walk (K : Type*) where
  key : K
  claim : Option ℕ
  position : ℕ

def Lower.walk : Lower K V → Option (Walk K)
  | .insertCompared key _ i claim false => some ⟨key, claim, i + 1⟩
  | _ => none

/-- With the key to be constructed next, the walk is at its end. -/
def Pc.walk (size : ℕ) : Pc K V → Option (Walk K)
  | .insertExchange key _ i | .insertTombstone key _ i | .insertClaim key _ i _ =>
      some ⟨key, none, i⟩
  | .insertRaise key _ i claim _ | .insertCompare key _ i claim => some ⟨key, claim, i⟩
  | .insertCheck key _ i claim => some ⟨key, some claim, i⟩
  | .lowerLoad _ reason | .lower _ reason _ => reason.walk
  | .insertConstruct key _ claim => some ⟨key, some claim, size⟩
  | _ => none

def Progress.walk (size : ℕ) (progress : Progress K V) : Option (Walk K) :=
  progress.place.bind (·.walk size)

/-- The key whose insertion the next step gives a bucket, and the position of the bucket. -/
def claiming (hash : K → UInt64) (map : HashMap K V) (spurious : Bool) :
    Pc K V → Option (K × ℕ)
  | .insertExchange key _ i =>
      if (map.buckets (slot hash map.bucketCount key i)).state = ⟨0, .empty⟩ then some (key, i)
      else none
  | .insertClaim key _ i expected =>
      if (map.buckets (slot hash map.bucketCount key i)).state = expected ∧ spurious = false then
        some (key, i)
      else none
  | _ => none

/-- Nobody has the key at the position, or may bring it there. -/
inductive Clear (hash : K → UInt64) (map : HashMap K V) (key : K) (j : ℕ) : Prop where
  | tombstone
      (state : (map.buckets (slot hash map.bucketCount key j)).state.state = .tombstone)
  | other {entry : K × V}
      (found : (map.buckets (slot hash map.bucketCount key j)).entry = some entry)
      (different : entry.1 ≠ key)
  | behind {i : ℕ} (before : i ≤ j)
      (empty : (map.buckets (slot hash map.bucketCount key i)).state.state = .empty)

theorem Present.stores {bucket : Bucket K V} (present : Present bucket key) :
    Stores bucket key := by
  refine ⟨fun drained => ?_, present.2⟩
  have filled := present.1
  rw [drained] at filled
  contradiction

/-- Where a walk comes from: it goes on, it claims the bucket at its position, or it
begins. -/
inductive Origin (hash : K → UInt64) (map : HashMap K V) (spurious : Bool) (pc : Pc K V) :
    Walk K → ℕ → Prop where
  | goesOn {key : K} {claim : Option ℕ} {position before : ℕ}
      (walks : pc.walk map.bucketCount = some ⟨key, claim, before⟩) :
      Origin hash map spurious pc ⟨key, claim, position⟩ before
  | claims {key : K} {i position : ℕ} (claims : claiming hash map spurious pc = some (key, i)) :
      Origin hash map spurious pc
        ⟨key, some (slot hash map.bucketCount key i), position⟩ i
  | begins {key : K} {value : V} {position : ℕ} (starts : pc = .insertStart key value) :
      Origin hash map spurious pc ⟨key, none, position⟩ 0

/-! ## What one step does to a walk -/

theorem insertAt_walk {claim : Option ℕ} {walk : Walk K}
    (walks : (map.insertAt key value i claim).walk map.bucketCount = some walk) :
    ∃ position ≤ i, walk = ⟨key, claim, position⟩ := by
  cases claim with
  | none =>
      simp only [insertAt] at walks
      split at walks
      · cases walks
        exact ⟨i, le_rfl, rfl⟩
      · cases walks
  | some claim =>
      simp only [insertAt] at walks
      split at walks
      · cases walks
        exact ⟨i, le_rfl, rfl⟩
      · rename_i all
        cases walks
        exact ⟨map.bucketCount, Nat.le_of_not_lt all, rfl⟩

theorem insertFail_walk (failure : InsertFailed) (claim : Option ℕ) :
    (insertFail failure claim : Progress K V).walk size = none := by
  cases claim <;> rfl

theorem insertAgain_walk (claim : Option ℕ) :
    (insertAgain key value i claim).walk size = some ⟨key, claim, i⟩ := by
  cases claim <;> rfl

theorem removeAt_walk : (map.removeAt key i).walk size = none := by
  simp only [removeAt]
  split <;> rfl

theorem getAt_walk (contains : Bool) : (map.getAt key contains i).walk size = none := by
  simp only [getAt]
  split <;> rfl

theorem enter_walk {call : Call K V} (entered : map.enter call = some progress) :
    progress.walk size = none := by
  cases call with
  | tryInsert key value =>
      cases entered
      rfl
  | tryRemove key =>
      cases entered
      exact removeAt_walk
  | tryGet key =>
      cases entered
      exact getAt_walk false
  | tryContains key =>
      cases entered
      exact getAt_walk true
  | tryRehash => contradiction
  | drop index => contradiction

/-- The walk has come from the position, and nothing in between has the key. -/
def Follows (hash : K → UInt64) (map : HashMap K V) (spurious : Bool) (pc : Pc K V)
    (walk : Walk K) : Prop :=
  ∃ before, Origin hash map spurious pc walk before ∧
    ∀ j, before ≤ j → j < walk.position → Clear hash map walk.key j

theorem Follows.stays {walk : Walk K} (walks : pc.walk map.bucketCount = some walk) :
    Follows hash map spurious pc walk :=
  ⟨walk.position, .goesOn walks, fun j reached before => by omega⟩

theorem Follows.passes {claim : Option ℕ} {position : ℕ}
    (walks : pc.walk map.bucketCount = some ⟨key, claim, i⟩) (clear : Clear hash map key i)
    (bound : position ≤ i + 1) : Follows hash map spurious pc ⟨key, claim, position⟩ := by
  refine ⟨i, .goesOn walks, fun j reached before => ?_⟩
  have here : j = i := by
    change j < position at before
    omega
  exact here ▸ clear

variable [DecidableEq K]

theorem resume_walk {walk : Walk K} (known : Known pc)
    (resumed : resume hash map spurious pc = some (next, progress))
    (walks : progress.walk map.bucketCount = some walk) : Follows hash map spurious pc walk := by
  cases pc with
  | tryReadExchange call expected =>
      simp only [resume] at resumed
      split at resumed
      · simp only [Option.map_eq_some_iff, Prod.mk.injEq] at resumed
        obtain ⟨entered, found, rfl, rfl⟩ := resumed
        rw [enter_walk found] at walks
        contradiction
      · cases resumed
        contradiction
  | insertStart key value =>
      simp only [resume] at resumed
      split at resumed <;> cases resumed
      · contradiction
      · obtain ⟨position, start, rfl⟩ := insertAt_walk walks
        exact ⟨0, .begins rfl, fun j _ before => absurd before (by simp; omega)⟩
  | insertExchange key value i =>
      simp only [resume] at resumed
      split at resumed
      · rename_i empty
        cases resumed
        cases walks
        have claims : claiming hash map spurious (.insertExchange key value i) = some (key, i) :=
          if_pos empty
        exact ⟨i, .claims claims, fun j reached _ => .behind reached (by rw [empty])⟩
      · split at resumed <;> cases resumed <;> cases walks <;> exact .stays rfl
  | insertRaise key value i claim refcount =>
      simp only [resume] at resumed
      split at resumed
      · cases resumed
        cases walks
        exact .stays rfl
      · split at resumed <;> cases resumed
        · rw [insertFail_walk] at walks
          contradiction
        · rw [insertAgain_walk] at walks
          cases walks
          exact .stays rfl
  | insertCompare key value i claim =>
      simp only [resume, Option.map_eq_some_iff, Prod.mk.injEq] at resumed
      obtain ⟨entry, found, rfl, rfl⟩ := resumed
      cases same : entry.1 == key with
      | true =>
          rw [same] at walks
          contradiction
      | false =>
          rw [same] at walks
          cases walks
          exact .passes rfl (.other found (beq_eq_false_iff_ne.mp same)) le_rfl
  | insertTombstone key value i =>
      simp only [resume] at resumed
      split at resumed <;> cases resumed <;> cases walks <;> exact .stays rfl
  | insertClaim key value i expected =>
      simp only [resume] at resumed
      split at resumed
      · rename_i same
        cases resumed
        obtain ⟨position, bound, rfl⟩ := insertAt_walk walks
        have claims : claiming hash map spurious (.insertClaim key value i expected) =
            some (key, i) := if_pos same
        refine ⟨i, .claims claims, fun j reached before => ?_⟩
        have here : j = i := by
          change j < position at before
          omega
        subst here
        exact .tombstone (by rw [same.1]; exact known)
      · cases resumed
        cases walks
        exact .stays rfl
  | insertCheck key value i claim =>
      simp only [resume] at resumed
      split at resumed
      · rename_i tombstone
        cases resumed
        obtain ⟨position, bound, rfl⟩ := insertAt_walk walks
        exact .passes rfl (.tombstone tombstone) bound
      · rename_i empty
        cases resumed
        cases walks
        exact ⟨i, .goesOn rfl, fun j reached _ => .behind reached empty⟩
      · cases resumed
        contradiction
      · cases resumed
        contradiction
      · cases resumed
        contradiction
      · cases resumed
        cases walks
        exact .stays rfl
  | lowerLoad index reason =>
      cases resumed
      exact .stays walks
  | lower index reason expected =>
      simp only [resume] at resumed
      split at resumed
      · cases resumed
        cases reason with
        | insertCompared key value i claim same =>
            cases same with
            | false =>
                obtain ⟨position, bound, rfl⟩ := insertAt_walk walks
                exact ⟨i + 1, .goesOn rfl, fun j reached before => by
                  change j < position at before
                  omega⟩
            | true =>
                rw [lowered, insertFail_walk] at walks
                contradiction
        | removeOther key i =>
            rw [lowered, removeAt_walk] at walks
            contradiction
        | getOther key contains i =>
            rw [lowered, getAt_walk] at walks
            contradiction
        | _ => contradiction
      · cases resumed
        exact .stays walks
  | removeExchange key i =>
      simp only [resume] at resumed
      split at resumed
      · cases resumed
        contradiction
      · split at resumed <;> cases resumed <;>
          first | contradiction | (rw [removeAt_walk] at walks; contradiction)
  | getLoad key contains i =>
      simp only [resume] at resumed
      split at resumed <;> cases resumed <;>
        first | contradiction | (rw [getAt_walk] at walks; contradiction)
  | removeLoad key i =>
      simp only [resume] at resumed
      split at resumed
      · cases resumed
        contradiction
      · split at resumed <;> cases resumed <;> contradiction
  | rehashLoad index fresh =>
      simp only [resume] at resumed
      split at resumed
      · split at resumed <;> cases resumed <;> contradiction
      · cases resumed
        contradiction
  | tryRead call | removeRaise key i refcount | removeConfirm index | removeDrainLoad index
  | removeDrain index expected | getRaise key contains i refcount | tryWrite | tryWriteExchange
  | rehashWait index fresh =>
      simp only [resume] at resumed
      split at resumed <;> cases resumed <;> contradiction
  | unlockRead outcome | insertGiveUp claim failure | insertConstruct key value claim
  | insertCount key claim | insertPublish key claim | removeCount index value
  | removeBury index value | rehashSwap fresh | unlockWrite =>
      cases resumed
      contradiction
  | removeTake index =>
      simp only [resume, Option.map_eq_some_iff, Prod.mk.injEq] at resumed
      obtain ⟨entry, _, rfl, rfl⟩ := resumed
      contradiction
  | removeCompare key i =>
      simp only [resume, Option.map_eq_some_iff] at resumed
      obtain ⟨entry, _, compared⟩ := resumed
      split at compared <;> cases compared <;> contradiction
  | getCompare key contains i =>
      simp only [resume, Option.map_eq_some_iff] at resumed
      obtain ⟨entry, _, compared⟩ := resumed
      split at compared
      · split at compared <;> cases compared <;> contradiction
      · cases compared
        contradiction
  | rehashMove index fresh =>
      simp only [resume, Option.map_eq_some_iff] at resumed
      obtain ⟨entry, _, placed⟩ := resumed
      split at placed <;> cases placed <;> contradiction

/-! ## What one step does to the keys -/

omit [DecidableEq K] in
/-- A drained bucket does not get its key back. -/
theorem Law.stores {bucket after : Bucket K V} {guards : ℕ} {roles : Role → ℕ}
    {lost gained : Option Role} (law : Law bucket guards (joined roles lost))
    (action : Action bucket lost gained after) (kept : after.entry = bucket.entry)
    (stores : Stores after key) : Stores bucket key := by
  obtain ⟨undrained, value, found⟩ := stores
  have before : bucket.entry = some (key, value) := kept ▸ found
  refine ⟨fun drained => ?_, value, before⟩
  have built := law.built
  simp only [drained, reduceCtorEq, if_false] at built
  cases action with
  | raise filled | seize filled => simp [filled] at drained
  | lower => exact undrained (by simp [drained])
  | revert predestructing =>
      have counted := law.counted
      simp [drained, joined] at counted
  | drain last => simp [last] at drained
  | take present => contradiction
  | bury =>
      have stored := law.stored
      simp [drained, before, joined] at stored built
      omega
  | claimEmpty empty => simp [empty] at drained
  | claimTombstone tombstone => simp [drained] at tombstone
  | giveUp | construct | publish => simp [joined] at built
  | relocate filled present => simp [filled] at drained

omit [DecidableEq K] in
theorem Effect.stores {buckets : ℕ → Bucket K V} (effect : Effect hash map pc buckets progress)
    (lawful : Lawful map others (pc.claims hash map.bucketCount))
    (kept : (buckets index).entry = (map.buckets index).entry)
    (stores : Stores (buckets index) key) : Stores (map.buckets index) key := by
  have law := lawful index
  cases effect with
  | moves same => exact stores
  | @touches _ touched lost gained after rest within action held after_ =>
      by_cases same : index = touched
      · subst same
        rw [held, count_joined] at law
        rw [Function.update_self] at stores kept
        exact law.stores action kept stores
      · rw [Function.update_of_ne same] at stores
        exact stores

theorem resume_stores (backed : Backed hash map pc)
    (lawful : Lawful map others (pc.claims hash map.bucketCount))
    (staying : ∀ fresh, pc ≠ .rehashSwap fresh)
    (resumed : resume hash map spurious pc = some (next, progress))
    (stores : Stores (next.buckets index) key) :
    Stores (map.buckets index) key ∨ ∃ value, pc = .insertConstruct key value index := by
  by_cases constructs : ∃ other value claim, pc = .insertConstruct other value claim
  · obtain ⟨other, value, claim, rfl⟩ := constructs
    cases resumed
    by_cases here : index = claim
    · subst here
      obtain ⟨_, held, found⟩ := stores
      simp only [setEntry, Function.update_self, Option.some.injEq, Prod.mk.injEq] at found
      obtain ⟨rfl, _⟩ := found
      exact .inr ⟨value, rfl⟩
    · rw [setEntry_of_ne here] at stores
      exact .inl stores
  · obtain ⟨value, found⟩ := stores.2
    have before : (map.buckets index).entry = some (key, value) :=
      resume_entry staying (fun other value claim same => constructs ⟨other, value, claim, same⟩)
        resumed found
    have keeps := resume_keeps backed staying resumed
    exact .inl (keeps.2.2.stores lawful (found.trans before.symm) stores)

omit [DecidableEq K] in
theorem Calm.stores (calm : Calm map next) (stores : Stores (next.buckets index) key) :
    Stores (map.buckets index) key := by
  obtain ⟨undrained, value, found⟩ := stores
  refine ⟨fun drained => undrained ?_, value, (calm.entry index).symm.trans found⟩
  have state := calm.state index
  have refcount := calm.refcount index
  rw [drained] at state refcount
  have none : (next.buckets index).state.refcount = 0 := Nat.le_zero.mp refcount
  have parts : (next.buckets index).state =
      ⟨(next.buckets index).state.refcount, (next.buckets index).state.state⟩ := rfl
  rw [parts, none, state]

/-! ## Claims in order -/

variable {Thread : Type*} [Fintype Thread] [DecidableEq Thread]
  {pool : Pool Thread (HashMap K V) (Option (Pc K V))} {thread : Thread}
  {finish : Option (Pc K V)}

section

variable (hash : K → UInt64) (pool : Pool Thread (HashMap K V) (Option (Pc K V)))

/-- The key is in the bucket, or an insertion of it has claimed the bucket and has passed
the positions below. -/
def Taken (key : K) (index least : ℕ) : Prop :=
  Stores (pool.shared.buckets index) key ∨ ∃ thread pc position, pool.locals thread = some pc ∧
    pc.walk pool.shared.bucketCount = some ⟨key, some index, position⟩ ∧ least ≤ position

/-- Whenever an insertion claims a bucket, no bucket before it has the key by then, and
no insertion of the key that has claimed one of them has passed the bucket. -/
def ClaimsInOrder (label : Thread × Choice (Call K V)) : Prop :=
  ∀ pc spurious key i, pool.locals label.1 = some pc → label.2 = .step spurious →
    claiming hash pool.shared spurious pc = some (key, i) →
      ∀ p < i, ¬ Taken pool key (slot hash pool.shared.bucketCount key p) (i + 1)

end

omit [DecidableEq K] in
theorem walk_building {claim position : ℕ}
    (walks : pc.walk size = some ⟨key, some claim, position⟩) :
    (.building, claim) ∈ pc.claims hash size := by
  cases pc with
  | insertRaise other value i claimed refcount | insertCheck other value i claimed
  | insertConstruct other value claimed =>
      cases walks
      exact List.mem_cons_self
  | insertCompare other value i claimed =>
      cases walks
      exact List.mem_cons_of_mem _ List.mem_cons_self
  | lowerLoad index reason | lower index reason expected =>
      cases reason with
      | insertCompared other value i claimed same =>
          cases same with
          | false =>
              cases walks
              exact List.mem_cons_of_mem _ List.mem_cons_self
          | true => contradiction
      | _ => contradiction
  | insertExchange | insertTombstone | insertClaim => cases walks
  | _ => contradiction

omit [DecidableEq K] in
theorem walk_leads {claim position : ℕ} (walked : Walked hash map pc)
    (walks : pc.walk map.bucketCount = some ⟨key, some claim, position⟩) :
    Leads hash map.bucketCount map.buckets key claim := by
  cases pc with
  | insertRaise other value i claimed refcount | insertCheck other value i claimed
  | insertCompare other value i claimed =>
      cases walks
      exact walked.2 claim rfl
  | insertConstruct other value claimed =>
      cases walks
      exact walked
  | lowerLoad index reason | lower index reason expected =>
      cases reason with
      | insertCompared other value i claimed same =>
          cases same with
          | false =>
              cases walks
              exact walked.2 claim rfl
          | true => contradiction
      | _ => contradiction
  | insertExchange | insertTombstone | insertClaim => cases walks
  | _ => contradiction

omit [DecidableEq K] [DecidableEq Thread] in
theorem Coherent.constructing {claim position : ℕ} (coherent : Coherent hash pool)
    (stands : pool.locals thread = some pc)
    (walks : pc.walk pool.shared.bucketCount = some ⟨key, some claim, position⟩) :
    (pool.shared.buckets claim).state.state = .constructing ∧
      (pool.shared.buckets claim).entry = none := by
  classical
  obtain ⟨others, lawful, _⟩ := coherent.lawful_thread thread
  rw [stands] at lawful
  have building : (Role.building, claim) ∈ pc.claims hash pool.shared.bucketCount :=
    walk_building walks
  exact ⟨lawful.constructing (.inl building), lawful.unbuilt building⟩

omit [DecidableEq K] in
/-- A bucket that nobody works on has no entry when it is not filled. -/
theorem Law.unworked {bucket : Bucket K V} {guards : ℕ} {roles : Role → ℕ}
    (law : Law bucket guards roles)
    (state : bucket.state.state = .empty ∨ bucket.state.state = .tombstone) :
    bucket.entry = none := by
  have built := law.built
  have stored := law.stored
  cases found : bucket.entry with
  | none => rfl
  | some entry =>
      rcases state with empty | tombstone
      · simp [empty, found] at built stored
        omega
      · simp [tombstone, found] at built stored
        omega

omit [DecidableEq K] [DecidableEq Thread] in
/-- What a search passes on its way to the bucket is in use. -/
theorem Leads.unclear (sized : WellSized size) {buckets : ℕ → Bucket K V}
    (leads : Leads hash size buckets key (slot hash size key j)) (below : j < size)
    (before : i < j) : (buckets (slot hash size key i)).state.state ≠ .empty := by
  obtain ⟨first, bound, visits, passed⟩ := leads.within sized (slot_lt sized hash key j)
  obtain rfl := slot_injective sized bound below visits
  exact passed i before

omit [DecidableEq K] [DecidableEq Thread] in
theorem Clear.untaken (clear : Clear hash pool.shared key j) (below : j < pool.shared.bucketCount)
    (coherent : Coherent hash pool) (searchable : Searchable hash pool) :
    ¬ Taken pool key (slot hash pool.shared.bucketCount key j) 0 := by
  have sized := coherent.sized
  have law := coherent.lawful (slot hash pool.shared.bucketCount key j)
  rintro (⟨_, value, found⟩ | ⟨thread, pc, position, stands, walks, _⟩)
  · cases clear with
    | tombstone state =>
        rw [law.unworked (.inr state)] at found
        contradiction
    | other held different =>
        rw [found] at held
        cases held
        exact different rfl
    | @behind i before empty =>
        rcases Nat.lt_or_eq_of_le before with earlier | rfl
        · exact (searchable.routed _ _ found).unclear sized below earlier empty
        · rw [law.unworked (.inl empty)] at found
          contradiction
  · obtain ⟨constructing, unbuilt⟩ := coherent.constructing stands walks
    cases clear with
    | tombstone state =>
        rw [state] at constructing
        contradiction
    | other held different =>
        rw [unbuilt] at held
        contradiction
    | @behind i before empty =>
        rcases Nat.lt_or_eq_of_le before with earlier | rfl
        · have leads := walk_leads (searchable.walked thread pc stands) walks
          exact leads.unclear sized below earlier empty
        · rw [empty] at constructing
          contradiction

/-! ## The vector that a rehash fills -/

/-- `new_buckets`. -/
def Pc.fresh : Pc K V → Option (ℕ → Bucket K V)
  | .rehashLoad _ fresh | .rehashWait _ fresh | .rehashMove _ fresh | .rehashSwap fresh =>
      some fresh
  | _ => none

omit [DecidableEq K] in
theorem writing_of_fresh {fresh : ℕ → Bucket K V} (fills : pc.fresh = some fresh) :
    pc.writing = 1 := by
  cases pc with
  | rehashLoad | rehashWait | rehashMove | rehashSwap => rfl
  | _ => contradiction

/-- No two buckets have one key. -/
def Distinct (buckets : ℕ → Bucket K V) : Prop :=
  ∀ key i j, Stores (buckets i) key → Stores (buckets j) key → i = j

/-- The keys that have been moved are gone from the old vector. -/
structure Moving (map : HashMap K V) (fresh : ℕ → Bucket K V) : Prop where
  distinct : Distinct fresh
  apart : ∀ key i j, Stores (fresh i) key → ¬ Stores (map.buckets j) key

omit [DecidableEq K] in
theorem Moving.mono {fresh : ℕ → Bucket K V} (moving : Moving map fresh)
    (stores : ∀ key j, Stores (next.buckets j) key → Stores (map.buckets j) key) :
    Moving next fresh :=
  ⟨moving.distinct, fun key i j here there => moving.apart key i j here (stores key j there)⟩

omit [DecidableEq K] in
theorem unused_stores : ¬ Stores (emptyBucket K V) key := fun stores => nomatch stores.2

omit [DecidableEq K] in
/-- The key that is moved leaves the old vector. -/
theorem Moving.place {fresh moved : ℕ → Bucket K V} {entry : K × V}
    (moving : Moving map fresh) (distinct : Distinct map.buckets)
    (state : (map.buckets index).state = ⟨0, .filled⟩)
    (found : (map.buckets index).entry = some entry)
    (placed : place hash size fresh entry = some moved) :
    Moving ((map.setEntry index none).setState index ⟨0, .tombstone⟩) moved := by
  obtain ⟨i, _, _, _, rfl⟩ := place_eq_some placed
  have here : Stores (map.buckets index) entry.1 := ⟨by simp [state], entry.2, found⟩
  have remains {other : K} {j : ℕ}
      (stores :
        Stores (((map.setEntry index none).setState index ⟨0, .tombstone⟩).buckets j) other) :
      Stores (map.buckets j) other ∧ j ≠ index := by
    by_cases same : j = index
    · subst same
      obtain ⟨_, value, held⟩ := stores
      simp [setEntry] at held
    · rw [setState_of_ne same, setEntry_of_ne same] at stores
      exact ⟨stores, same⟩
  have origin {other : K} {j : ℕ}
      (stores : Stores (Function.update fresh (slot hash size entry.1 i)
        ⟨⟨0, .filled⟩, some entry⟩ j) other) :
      other = entry.1 ∧ j = slot hash size entry.1 i ∨ Stores (fresh j) other := by
    by_cases same : j = slot hash size entry.1 i
    · subst same
      obtain ⟨_, value, held⟩ := stores
      rw [Function.update_self] at held
      cases held
      exact .inl ⟨rfl, rfl⟩
    · rw [Function.update_of_ne same] at stores
      exact .inr stores
  constructor
  · intro key first second one two
    rcases origin one with ⟨rfl, rfl⟩ | one <;> rcases origin two with ⟨same, rfl⟩ | two
    · rfl
    · exact absurd here (moving.apart _ _ _ two)
    · exact absurd (same ▸ here) (moving.apart _ _ _ one)
    · exact moving.distinct key first second one two
  · intro key first second one two
    obtain ⟨before, elsewhere⟩ := remains two
    rcases origin one with ⟨rfl, rfl⟩ | one
    · exact elsewhere (distinct _ _ _ before here)
    · exact moving.apart key first second one before

theorem resume_moving {after : Pc K V} {fresh : ℕ → Bucket K V} (distinct : Distinct map.buckets)
    (backed : Backed hash map pc) (locks : Locks map pc next (.running after))
    (moving : ∀ buckets, pc.fresh = some buckets → Moving map buckets)
    (resumed : resume hash map spurious pc = some (next, .running after))
    (fills : after.fresh = some fresh) : Moving next fresh := by
  have writes : after.writing = 1 := writing_of_fresh fills
  cases pc with
  | tryWriteExchange =>
      simp only [resume] at resumed
      split at resumed <;> cases resumed
      cases fills
      exact ⟨fun _ _ _ stores => absurd stores unused_stores,
        fun _ _ _ stores => absurd stores unused_stores⟩
  | rehashLoad index buckets =>
      have before := moving buckets rfl
      simp only [resume] at resumed
      split at resumed
      · split at resumed <;> cases resumed <;> cases fills <;> exact before
      · cases resumed
        cases fills
        exact before
  | rehashWait index buckets =>
      have before := moving buckets rfl
      simp only [resume] at resumed
      split at resumed <;> cases resumed <;> cases fills <;> exact before
  | rehashMove index buckets =>
      have before := moving buckets rfl
      have state := (backed.moving index buckets rfl).2
      simp only [resume, Option.map_eq_some_iff] at resumed
      obtain ⟨entry, found, moved⟩ := resumed
      split at moved
      · cases moved
        cases fills
        exact before
      · rename_i placed
        cases moved
        cases fills
        exact before.place distinct state found placed
  | rehashSwap buckets =>
      cases resumed
      contradiction
  | unlockWrite => cases resumed
  | _ => simpa [Pc.writing] using locks.taken writes

/-! ## The step -/

/-- Of two buckets that are taken for one key, the insertion at the earlier one has yet
to come past the later one. -/
structure Ordered (hash : K → UInt64) (pool : Pool Thread (HashMap K V) (Option (Pc K V))) :
    Prop where
  apart : ∀ key p q, p < q → q < pool.shared.bucketCount →
    Taken pool key (slot hash pool.shared.bucketCount key p) (q + 1) →
      ¬ Taken pool key (slot hash pool.shared.bucketCount key q) 0
  moving : ∀ thread pc fresh, pool.locals thread = some pc → pc.fresh = some fresh →
    Moving pool.shared fresh

omit [DecidableEq K] [DecidableEq Thread] in
theorem Coherent.lt_of_stores (coherent : Coherent hash pool)
    (stores : Stores (pool.shared.buckets index) key) : index < pool.shared.bucketCount := by
  by_contra beyond
  rw [coherent.outside index (Nat.le_of_not_lt beyond)] at stores
  exact unused_stores stores

omit [DecidableEq K] [DecidableEq Thread] in
theorem Ordered.distinct (ordered : Ordered hash pool) (coherent : Coherent hash pool) :
    Distinct pool.shared.buckets := by
  have never {key : K} {p q : ℕ} (before : p < q) (below : q < pool.shared.bucketCount)
      (first : Stores (pool.shared.buckets (slot hash pool.shared.bucketCount key p)) key)
      (second : Stores (pool.shared.buckets (slot hash pool.shared.bucketCount key q)) key) :
      False :=
    ordered.apart key p q before below (.inl first) (.inl second)
  intro key i j first second
  obtain ⟨p, belowP, rfl⟩ := exists_slot coherent.sized hash key (coherent.lt_of_stores first)
  obtain ⟨q, belowQ, rfl⟩ := exists_slot coherent.sized hash key (coherent.lt_of_stores second)
  rcases Nat.lt_trichotomy p q with before | same | after
  · exact (never before belowQ first second).elim
  · rw [same]
  · exact (never after belowP second first).elim

omit [DecidableEq K] in
theorem reading_of_walk {walk : Walk K} (walks : pc.walk size = some walk) : pc.reading = 1 := by
  cases pc with
  | lowerLoad index reason | lower index reason expected =>
      cases reason with
      | guard => contradiction
      | _ => rfl
  | _ => first | rfl | contradiction

/-- What is taken after the step was taken before it, or belongs to the walk that the
step leaves the thread on. -/
theorem taken_of_step {least : ℕ} (coherent : Coherent hash pool)
    (stands : pool.locals thread = some pc) (staying : ∀ fresh, pc ≠ .rehashSwap fresh)
    (resumed : resume hash pool.shared spurious pc = some (next, progress))
    (bound : least ≤ pool.shared.bucketCount)
    (taken : Taken ⟨(next.settle progress).1,
      Function.update pool.locals thread (next.settle progress).2⟩ key index least) :
    Taken pool key index least ∨ ∃ position,
      progress.walk pool.shared.bucketCount = some ⟨key, some index, position⟩ ∧
        least ≤ position := by
  have backed := coherent.backed stands
  have sameSize := (resume_keeps backed staying resumed).1
  obtain ⟨sameBuckets, sameCount, _⟩ := settle_fields next progress
  rcases taken with stores | ⟨other, after, position, standsAfter, walks, reached⟩
  · rw [sameBuckets] at stores
    obtain ⟨others, lawful, _⟩ := coherent.lawful_thread thread
    rw [stands] at lawful
    rcases resume_stores backed lawful staying resumed stores with before | ⟨value, rfl⟩
    · exact .inl (.inl before)
    · exact .inl (.inr ⟨thread, _, _, stands, rfl, bound⟩)
  · simp only [sameCount, sameSize] at walks
    by_cases own : other = thread
    · subst own
      simp only [Function.update_self, settle_place] at standsAfter
      refine .inr ⟨position, ?_, reached⟩
      rw [Progress.walk, standsAfter]
      exact walks
    · simp only [Function.update_of_ne own] at standsAfter
      exact .inl (.inr ⟨other, after, position, standsAfter, walks, reached⟩)

omit [DecidableEq K] [DecidableEq Thread] in
/-- An insertion claims a bucket of the vector. -/
theorem Orderly.claiming_lt (orderly : Orderly hash pool) (stands : pool.locals thread = some pc)
    (claims : claiming hash pool.shared spurious pc = some (key, i)) :
    i < pool.shared.bucketCount := by
  refine (orderly.onPaths thread pc stands key i ?_).1
  cases pc with
  | insertExchange | insertClaim =>
      simp only [claiming] at claims
      split at claims <;> cases claims
      rfl
  | _ => contradiction

omit [DecidableEq K] in
/-- After a rehash nobody is in a loop. -/
theorem Coherent.swap_still {fresh : ℕ → Bucket K V} {other : Thread} {after : Pc K V}
    (coherent : Coherent hash pool) (stands : pool.locals thread = some (.rehashSwap fresh))
    (standsAfter : Function.update pool.locals thread (some .unlockWrite) other = some after) :
    after.reading = 0 ∧ after.fresh = none := by
  by_cases own : other = thread
  · subst own
    rw [Function.update_self] at standsAfter
    cases standsAfter
    exact ⟨rfl, rfl⟩
  · rw [Function.update_of_ne own] at standsAfter
    have free := coherent.excluded stands rfl own
    rw [standsAfter] at free
    refine ⟨free.1, Option.eq_none_iff_forall_not_mem.mpr fun buckets fills => ?_⟩
    have writes := writing_of_fresh fills
    have freeWrites : after.writing = 0 := free.2
    omega

omit [DecidableEq K] in
theorem start_still {call : Call K V} (started : map.start call = some (next, pc)) :
    (∀ size, pc.walk size = none) ∧ pc.fresh = none := by
  cases call with
  | drop index =>
      simp only [HashMap.start] at started
      split at started
      · cases started
        exact ⟨fun _ => rfl, rfl⟩
      · contradiction
  | _ =>
      cases started
      exact ⟨fun _ => rfl, rfl⟩

namespace Ordered

omit [DecidableEq Thread] in
/-- Of the two buckets the one that has been taken before is ahead of the walk. -/
theorem resume_behind (ordered : Ordered hash pool) (orderly : Orderly hash pool)
    (searchable : Searchable hash pool) (stands : pool.locals thread = some pc)
    (resumed : resume hash pool.shared spurious pc = some (next, progress)) {p q position : ℕ}
    (before : p < q) (below : q < pool.shared.bucketCount)
    (walks : progress.walk pool.shared.bucketCount = some
      ⟨key, some (slot hash pool.shared.bucketCount key p), position⟩)
    (past : q + 1 ≤ position) :
    ¬ Taken pool key (slot hash pool.shared.bucketCount key q) 0 := by
  have coherent := orderly.coherent
  generalize visits : slot hash pool.shared.bucketCount key p = claim at walks
  obtain ⟨start, origin, clear⟩ := resume_walk (coherent.known thread pc stands) resumed walks
  intro taken
  have passed (reached : start ≤ q) : False :=
    (clear q reached past).untaken below coherent searchable taken
  cases origin with
  | goesOn walked =>
      by_cases reached : start ≤ q
      · exact passed reached
      · have farther : Taken pool key (slot hash pool.shared.bucketCount key p) (q + 1) := by
          rw [visits]
          exact .inr ⟨thread, pc, start, stands, walked, Nat.lt_of_not_le reached⟩
        exact ordered.apart key p q before below farther taken
  | claims claims =>
      have inside := orderly.claiming_lt stands claims
      have same := slot_injective coherent.sized (before.trans below) inside visits
      exact passed (same ▸ before.le)

omit [DecidableEq Thread] in
/-- A bucket that the step takes has none taken before it. -/
theorem resume_ahead (ordered : Ordered hash pool) (orderly : Orderly hash pool)
    (stands : pool.locals thread = some pc)
    (inOrder : ClaimsInOrder hash pool (thread, .step spurious))
    (resumed : resume hash pool.shared spurious pc = some (next, progress)) {p q position : ℕ}
    (before : p < q) (below : q < pool.shared.bucketCount)
    (walks : progress.walk pool.shared.bucketCount = some
      ⟨key, some (slot hash pool.shared.bucketCount key q), position⟩) :
    ¬ Taken pool key (slot hash pool.shared.bucketCount key p) (q + 1) := by
  have coherent := orderly.coherent
  generalize visits : slot hash pool.shared.bucketCount key q = claim at walks
  obtain ⟨start, origin, _⟩ := resume_walk (coherent.known thread pc stands) resumed walks
  intro taken
  cases origin with
  | goesOn walked =>
      refine ordered.apart key p q before below taken ?_
      rw [visits]
      exact .inr ⟨thread, pc, start, stands, walked, Nat.zero_le _⟩
  | claims claims =>
      have inside := orderly.claiming_lt stands claims
      obtain rfl := slot_injective coherent.sized below inside visits
      exact inOrder pc spurious key q stands rfl claims p before taken

theorem resume_keep (ordered : Ordered hash pool) (orderly : Orderly hash pool)
    (searchable : Searchable hash pool) (stands : pool.locals thread = some pc)
    (staying : ∀ fresh, pc ≠ .rehashSwap fresh)
    (inOrder : ClaimsInOrder hash pool (thread, .step spurious))
    (resumed : resume hash pool.shared spurious pc = some (next, progress)) :
    Ordered hash { shared := (next.settle progress).1
                   locals := Function.update pool.locals thread (next.settle progress).2 } := by
  have coherent := orderly.coherent
  have backed := coherent.backed stands
  have sameSize := (resume_keeps backed staying resumed).1
  have locks := resume_locks (coherent.rehashes stands) resumed
  obtain ⟨sameBuckets, sameCount, _⟩ := settle_fields next progress
  constructor
  · simp only [sameCount, sameSize]
    intro key p q before below first second
    have later := taken_of_step coherent stands staying resumed (Nat.zero_le _) second
    rcases taken_of_step coherent stands staying resumed below first with
      stood | ⟨position, walks, past⟩
    · rcases later with stoodToo | ⟨position, walks, _⟩
      · exact ordered.apart key p q before below stood stoodToo
      · exact ordered.resume_ahead orderly stands inOrder resumed before below walks stood
    · rcases later with stood | ⟨other, walksToo, _⟩
      · exact ordered.resume_behind orderly searchable stands resumed before below walks past stood
      · rw [walks] at walksToo
        simp only [Option.some.injEq, Walk.mk.injEq, true_and] at walksToo
        have same := slot_injective coherent.sized (before.trans below) below walksToo.1
        omega
  · intro other after fresh standsAfter fills
    have settled (moving : Moving next fresh) : Moving (next.settle progress).1 fresh :=
      moving.mono fun key j stores => by rwa [sameBuckets] at stores
    by_cases own : other = thread
    · subst own
      simp only [Function.update_self] at standsAfter
      obtain rfl := settle_eq_some standsAfter
      exact settled (resume_moving (ordered.distinct coherent) backed locks
        (fun buckets => ordered.moving other pc buckets stands) resumed fills)
    · simp only [Function.update_of_ne own] at standsAfter
      have free := coherent.excluded standsAfter (writing_of_fresh fills) (Ne.symm own)
      rw [stands] at free
      have calm := resume_calm (coherent.rehashes standsAfter (writing_of_fresh fills))
        free.1 free.2 resumed
      have moving := ordered.moving other after fresh standsAfter fills
      exact settled (moving.mono fun key j => calm.stores)

omit [DecidableEq K] in
theorem swap {fresh : ℕ → Bucket K V} (ordered : Ordered hash pool) (coherent : Coherent hash pool)
    (stands : pool.locals thread = some (.rehashSwap fresh)) :
    Ordered hash
      { shared := { pool.shared with
          buckets := fresh
          bucketCount := 2 * pool.shared.bucketCount }
        locals := Function.update pool.locals thread (some .unlockWrite) } := by
  have moving := ordered.moving thread _ fresh stands rfl
  have stored {key : K} {index least : ℕ}
      (taken : Taken ⟨{ pool.shared with
          buckets := fresh
          bucketCount := 2 * pool.shared.bucketCount },
        Function.update pool.locals thread (some .unlockWrite)⟩ key index least) :
      Stores (fresh index) key := by
    rcases taken with stores | ⟨other, after, position, standsAfter, walks, _⟩
    · exact stores
    · have reads := reading_of_walk walks
      have idle := (coherent.swap_still stands standsAfter).1
      omega
  constructor
  · intro key p q before below first second
    have same := moving.distinct key _ _ (stored first) (stored second)
    have equal := slot_injective coherent.sized.double (before.trans below) below same
    omega
  · intro other after buckets standsAfter fills
    have nothing := (coherent.swap_still stands standsAfter).2
    rw [nothing] at fills
    contradiction

omit [DecidableEq K] [Fintype Thread] in
theorem start (ordered : Ordered hash pool) {call : Call K V}
    (started : pool.shared.start call = some (next, pc)) :
    Ordered hash { shared := next, locals := Function.update pool.locals thread (some pc) } := by
  have calm := Calm.start started
  obtain ⟨walkless, freshless⟩ := start_still started
  have stood {key : K} {index least : ℕ}
      (taken : Taken ⟨next, Function.update pool.locals thread (some pc)⟩ key index least) :
      Taken pool key index least := by
    rcases taken with stores | ⟨other, after, position, standsAfter, walks, past⟩
    · exact .inl (calm.stores stores)
    · by_cases own : other = thread
      · subst own
        simp only [Function.update_self, Option.some.injEq] at standsAfter
        rw [← standsAfter, walkless] at walks
        contradiction
      · simp only [Function.update_of_ne own] at standsAfter
        rw [calm.bucketCount] at walks
        exact .inr ⟨other, after, position, standsAfter, walks, past⟩
  constructor
  · simp only [calm.bucketCount]
    intro key p q before below first second
    exact ordered.apart key p q before below (stood first) (stood second)
  · intro other after fresh standsAfter fills
    by_cases own : other = thread
    · subst own
      simp only [Function.update_self, Option.some.injEq] at standsAfter
      rw [← standsAfter, freshless] at fills
      contradiction
    · simp only [Function.update_of_ne own] at standsAfter
      have moving := ordered.moving other after fresh standsAfter fills
      exact moving.mono fun key j => calm.stores

end Ordered

/-- A thread begins a call, puts the new vector in place, or takes another step. -/
theorem advance_cases {place : Option (Pc K V)} {choice : Choice (Call K V)}
    (advanced : advance hash map place choice = some (next, finish)) :
    (∃ call pc, place = none ∧ map.start call = some (next, pc) ∧ finish = some pc) ∨
      (∃ fresh, place = some (.rehashSwap fresh) ∧
        next = { map with buckets := fresh, bucketCount := 2 * map.bucketCount } ∧
          finish = some .unlockWrite) ∨
      ∃ pc spurious after progress, place = some pc ∧ choice = .step spurious ∧
        (∀ fresh, pc ≠ .rehashSwap fresh) ∧
          resume hash map spurious pc = some (after, progress) ∧
            next = (after.settle progress).1 ∧ finish = (after.settle progress).2 := by
  cases place with
  | none =>
      rcases advance_eq_some advanced with begins | ⟨_, _, _, _, other, _⟩
      · exact .inl begins
      · contradiction
  | some pc =>
      cases choice with
      | call call => contradiction
      | step spurious =>
          simp only [advance, Option.map_eq_some_iff] at advanced
          obtain ⟨⟨after, progress⟩, resumed, settled⟩ := advanced
          obtain rfl : (after.settle progress).1 = next := congrArg Prod.fst settled
          obtain rfl : (after.settle progress).2 = finish := congrArg Prod.snd settled
          by_cases swaps : ∃ fresh, pc = .rehashSwap fresh
          · obtain ⟨fresh, rfl⟩ := swaps
            cases resumed
            exact .inr (.inl ⟨fresh, rfl, rfl, rfl⟩)
          · have staying : ∀ fresh, pc ≠ .rehashSwap fresh := fun fresh same => swaps ⟨fresh, same⟩
            exact .inr (.inr ⟨pc, spurious, after, progress, rfl, rfl, staying, resumed, rfl, rfl⟩)

theorem ordered_of_reachable
    (reachable : (machine Thread V hash).Reachable (ClaimsInOrder hash) pool) :
    Ordered hash pool := by
  have established (pool : Pool Thread (HashMap K V) (Option (Pc K V)))
      (before : (machine Thread V hash).Reachable (ClaimsInOrder hash) pool) :
      Orderly hash pool ∧ Searchable hash pool :=
    ⟨orderly_of_reachable (before.mono fun _ _ _ => trivial), searchable_of_reachable before⟩
  refine Program.invariant_of_known reachable established ?_ ?_
  · intro first started
    cases started
    refine ⟨fun key p q _ _ taken => ?_, fun thread pc fresh stands => ?_⟩
    · rcases taken with stores | ⟨thread, pc, position, stands, _⟩
      · exact absurd stores unused_stores
      · simp [unused] at stands
    · simp [unused] at stands
  · intro pool thread choice shared finish known ordered inOrder advanced
    obtain ⟨orderly, searchable⟩ := known
    rcases advance_cases advanced with ⟨call, pc, _, started, rfl⟩ | ⟨fresh, stands, rfl, rfl⟩ |
      ⟨pc, spurious, after, progress, stands, rfl, staying, resumed, rfl, rfl⟩
    · exact ordered.start started
    · exact ordered.swap orderly.coherent stands
    · exact ordered.resume_keep orderly searchable stands staying inOrder resumed

/-- While the claims come in order, no two buckets hold one key. -/
theorem present_unique_of_reachable
    (reachable : (machine Thread V hash).Reachable (ClaimsInOrder hash) pool) {i j : ℕ}
    (first : Present (pool.shared.buckets i) key) (second : Present (pool.shared.buckets j) key) :
    i = j := by
  have coherent := coherent_of_reachable reachable
  exact (ordered_of_reachable reachable).distinct coherent key i j first.stores second.stores

/-- 69 has the first bucket of 5.  One thread has passed it there when 69 is removed, and
another one inserts 5 in its place: both insertions of 5 return `true`. -/
theorem exists_equal_keys :
    ∃ pool, (machine (Fin 2) ℕ UInt64.ofNat).Reachable Machine.free pool ∧
      (∀ thread, pool.locals thread = none) ∧ Present (pool.shared.buckets 5) 5 ∧
        Present (pool.shared.buckets 24) 5 := by
  obtain ⟨pool, reachable, first, second, here, there⟩ :=
    Machine.reachable_of_exec (machine (Fin 2) ℕ UInt64.ofNat) Machine.free (unused (Fin 2) ℕ ℕ)
      (List.flatten
        [(0, .call (.tryInsert 69 1)) :: List.replicate 8 (0, .step false),
          (1, .call (.tryInsert 5 2)) :: List.replicate 8 (1, .step false),
          (0, .call (.tryRemove 69)) :: List.replicate 11 (0, .step false),
          (0, .call (.tryInsert 5 3)) :: List.replicate 11 (0, .step false),
          List.replicate 5 (1, .step false)])
      (fun pool => pool.locals 0 = none ∧ pool.locals 1 = none ∧
        Present (pool.shared.buckets 5) 5 ∧ Present (pool.shared.buckets 24) 5)
      rfl ⟨_, rfl, rfl, rfl, ⟨rfl, 3, rfl⟩, rfl, 2, rfl⟩
  exact ⟨pool, reachable, Fin.forall_fin_two.mpr ⟨first, second⟩, here, there⟩

/-! ## One insertion of a key at a time -/

section

variable (pool : Pool Thread (HashMap K V) (Option (Pc K V)))

/-- The key whose insertion begins its loop with the next step. -/
def startingKey : Option (Pc K V) → Option K
  | some (.insertStart key _) => some key
  | _ => none

/-- The key whose insertion is in its loop, up to the construction of the entry. -/
def walkingKey (size : ℕ) (place : Option (Pc K V)) : Option K :=
  (place.bind (·.walk size)).map Walk.key

/-- An insertion begins its loop only while no other thread is in the loop with the key. -/
def InsertsAlone (label : Thread × Choice (Call K V)) : Prop :=
  ∀ other, other ≠ label.1 → startingKey (pool.locals label.1) ≠ none →
    walkingKey pool.shared.bucketCount (pool.locals other) ≠ startingKey (pool.locals label.1)

instance : DecidableRel (InsertsAlone : Pool Thread (HashMap K V) (Option (Pc K V)) → _ → Prop) :=
  fun pool label => inferInstanceAs (Decidable (∀ other, other ≠ label.1 →
    startingKey (pool.locals label.1) ≠ none →
      walkingKey pool.shared.bucketCount (pool.locals other) ≠ startingKey (pool.locals label.1)))

end

/-- No two insertions of one key are on their way, and none has passed the key. -/
structure Solitary (hash : K → UInt64) (pool : Pool Thread (HashMap K V) (Option (Pc K V))) :
    Prop where
  alone : ∀ thread other pc after (walk walkOther : Walk K), pool.locals thread = some pc →
    pool.locals other = some after → pc.walk pool.shared.bucketCount = some walk →
      after.walk pool.shared.bucketCount = some walkOther → walk.key = walkOther.key →
        thread = other
  unmet : ∀ thread pc (walk : Walk K) j, pool.locals thread = some pc →
    pc.walk pool.shared.bucketCount = some walk → j < walk.position →
      j < pool.shared.bucketCount →
        ¬ Stores (pool.shared.buckets (slot hash pool.shared.bucketCount walk.key j)) walk.key

omit [DecidableEq K] in
theorem walk_of_claiming (claims : claiming hash map spurious pc = some (key, i)) :
    pc.walk size = some ⟨key, none, i⟩ := by
  cases pc with
  | insertExchange | insertClaim =>
      simp only [claiming] at claims
      split at claims <;> cases claims
      rfl
  | _ => contradiction

namespace Solitary

omit [DecidableEq K] [DecidableEq Thread] in
/-- The claims of insertions that are alone come in order. -/
theorem claimsInOrder (solitary : Solitary hash pool) (orderly : Orderly hash pool)
    (label : Thread × Choice (Call K V)) : ClaimsInOrder hash pool label := by
  intro pc spurious key i stands _ claims p before
  have walks : pc.walk pool.shared.bucketCount = some ⟨key, none, i⟩ := walk_of_claiming claims
  have below := before.trans (orderly.claiming_lt stands claims)
  intro taken
  rcases taken with stores | ⟨other, after, position, standsOther, walksOther, _⟩
  · exact solitary.unmet label.1 pc _ p stands walks before below stores
  · obtain rfl := solitary.alone _ _ _ _ _ _ stands standsOther walks walksOther rfl
    cases stands.symm.trans standsOther
    rw [walks] at walksOther
    cases walksOther

omit [DecidableEq K] in
/-- A walk comes from a walk with the key, or it has just begun. -/
theorem walk_from {walk : Walk K} (comes : Follows hash map spurious pc walk) :
    (∃ before, pc.walk map.bucketCount = some before ∧ before.key = walk.key) ∨
      startingKey (some pc) = some walk.key := by
  obtain ⟨_, origin, _⟩ := comes
  cases origin with
  | goesOn walks => exact .inl ⟨_, walks, rfl⟩
  | claims claims => exact .inl ⟨_, walk_of_claiming claims, rfl⟩
  | begins starts =>
      subst starts
      exact .inr rfl

omit [DecidableEq K] [DecidableEq Thread] in
/-- A walk has passed the key at none of the positions that it has come past. -/
theorem unmet_of_comes {walk : Walk K} {j : ℕ} (solitary : Solitary hash pool)
    (coherent : Coherent hash pool) (searchable : Searchable hash pool)
    (stands : pool.locals thread = some pc) (comes : Follows hash pool.shared spurious pc walk)
    (past : j < walk.position) (below : j < pool.shared.bucketCount) :
    ¬ Stores (pool.shared.buckets (slot hash pool.shared.bucketCount walk.key j)) walk.key := by
  obtain ⟨start, origin, clear⟩ := comes
  by_cases reached : start ≤ j
  · intro stores
    exact (clear j reached past).untaken below coherent searchable (.inl stores)
  · have earlier : j < start := Nat.lt_of_not_le reached
    cases origin with
    | goesOn walks =>
        have unmet := solitary.unmet thread pc _ j stands walks earlier below
        exact unmet
    | claims claims =>
        have unmet := solitary.unmet thread pc _ j stands (walk_of_claiming claims) earlier below
        exact unmet
    | begins starts => contradiction

theorem resume_keep (solitary : Solitary hash pool) (coherent : Coherent hash pool)
    (searchable : Searchable hash pool) (stands : pool.locals thread = some pc)
    (staying : ∀ fresh, pc ≠ .rehashSwap fresh)
    (alone : InsertsAlone pool (thread, .step spurious))
    (resumed : resume hash pool.shared spurious pc = some (next, progress)) :
    Solitary hash { shared := (next.settle progress).1
                    locals := Function.update pool.locals thread (next.settle progress).2 } := by
  have backed := coherent.backed stands
  have sameSize := (resume_keeps backed staying resumed).1
  obtain ⟨sameBuckets, sameCount, _⟩ := settle_fields next progress
  have comes {after : Pc K V} {walk : Walk K} (settled : (next.settle progress).2 = some after)
      (walks : after.walk pool.shared.bucketCount = some walk) :
      Follows hash pool.shared spurious pc walk := by
    obtain rfl := settle_eq_some settled
    exact resume_walk backed.known resumed walks
  have apart {other : Thread} {after final : Pc K V} {walk walkOther : Walk K}
      (own : other ≠ thread) (settled : (next.settle progress).2 = some final)
      (standsOther : pool.locals other = some after)
      (walks : final.walk pool.shared.bucketCount = some walk)
      (walksOther : after.walk pool.shared.bucketCount = some walkOther) :
      walk.key ≠ walkOther.key := by
    intro same
    rcases walk_from (comes settled walks) with ⟨before, walksBefore, kept⟩ | starts
    · exact own (solitary.alone _ _ _ _ _ _ standsOther stands walksOther walksBefore
        (kept.trans same).symm)
    · have starting : startingKey (pool.locals thread) = some walk.key := by
        rw [stands]
        exact starts
      have walking : walkingKey pool.shared.bucketCount (pool.locals other) = some walk.key := by
        rw [standsOther, same]
        exact congrArg (Option.map Walk.key) walksOther
      exact alone other own (by simp [starting]) (walking.trans starting.symm)
  constructor
  · simp only [sameCount, sameSize]
    intro first second pcFirst pcSecond walkFirst walkSecond standsFirst standsSecond
      walksFirst walksSecond same
    by_cases ownFirst : first = thread
    · by_cases ownSecond : second = thread
      · rw [ownFirst, ownSecond]
      · rw [ownFirst, Function.update_self] at standsFirst
        rw [Function.update_of_ne ownSecond] at standsSecond
        exact absurd same (apart ownSecond standsFirst standsSecond walksFirst walksSecond)
    · rw [Function.update_of_ne ownFirst] at standsFirst
      by_cases ownSecond : second = thread
      · rw [ownSecond, Function.update_self] at standsSecond
        exact absurd same.symm (apart ownFirst standsSecond standsFirst walksSecond walksFirst)
      · rw [Function.update_of_ne ownSecond] at standsSecond
        exact solitary.alone _ _ _ _ _ _ standsFirst standsSecond walksFirst walksSecond same
  · simp only [sameCount, sameSize, sameBuckets]
    intro other after walk j standsAfter walks past below stores
    obtain ⟨others, lawful, _⟩ := coherent.lawful_thread thread
    rw [stands] at lawful
    have stored := resume_stores backed lawful staying resumed stores
    by_cases own : other = thread
    · subst own
      rw [Function.update_self] at standsAfter
      rcases stored with before | ⟨value, rfl⟩
      · exact solitary.unmet_of_comes coherent searchable stands (comes standsAfter walks) past
          below before
      · cases resumed
        cases standsAfter
        contradiction
    · rw [Function.update_of_ne own] at standsAfter
      rcases stored with before | ⟨value, rfl⟩
      · exact solitary.unmet other after walk j standsAfter walks past below before
      · exact own (solitary.alone _ _ _ _ _ _ standsAfter stands walks rfl rfl)

omit [DecidableEq K] [Fintype Thread] in
theorem start (solitary : Solitary hash pool) {call : Call K V}
    (started : pool.shared.start call = some (next, pc)) :
    Solitary hash { shared := next, locals := Function.update pool.locals thread (some pc) } := by
  have calm := Calm.start started
  have walkless := (start_still started).1
  have stood {other : Thread} {after : Pc K V} {walk : Walk K}
      (standsAfter : Function.update pool.locals thread (some pc) other = some after)
      (walks : after.walk next.bucketCount = some walk) :
      pool.locals other = some after ∧ after.walk pool.shared.bucketCount = some walk := by
    by_cases own : other = thread
    · rw [own, Function.update_self, Option.some.injEq] at standsAfter
      rw [← standsAfter, walkless] at walks
      contradiction
    · rw [Function.update_of_ne own] at standsAfter
      exact ⟨standsAfter, calm.bucketCount ▸ walks⟩
  constructor
  · intro first second pcFirst pcSecond walkFirst walkSecond standsFirst standsSecond
      walksFirst walksSecond same
    obtain ⟨stoodFirst, walkedFirst⟩ := stood standsFirst walksFirst
    obtain ⟨stoodSecond, walkedSecond⟩ := stood standsSecond walksSecond
    exact solitary.alone _ _ _ _ _ _ stoodFirst stoodSecond walkedFirst walkedSecond same
  · intro other after walk j standsAfter walks past below stores
    obtain ⟨stoodOther, walked⟩ := stood standsAfter walks
    simp only [calm.bucketCount] at below stores
    exact solitary.unmet other after walk j stoodOther walked past below (calm.stores stores)

omit [DecidableEq K] in
theorem swap {fresh : ℕ → Bucket K V} (coherent : Coherent hash pool)
    (stands : pool.locals thread = some (.rehashSwap fresh)) :
    Solitary hash
      { shared := { pool.shared with
          buckets := fresh
          bucketCount := 2 * pool.shared.bucketCount }
        locals := Function.update pool.locals thread (some .unlockWrite) } := by
  have walkless {other : Thread} {after : Pc K V} {walk : Walk K} {size : ℕ}
      (standsAfter : Function.update pool.locals thread (some .unlockWrite) other = some after) :
      after.walk size ≠ some walk := by
    intro walks
    have reads := reading_of_walk walks
    have still := (coherent.swap_still stands standsAfter).1
    omega
  constructor
  · intro first second pcFirst pcSecond walkFirst walkSecond standsFirst _ walksFirst
    exact absurd walksFirst (walkless standsFirst)
  · intro other after walk j standsAfter walks
    exact absurd walks (walkless standsAfter)

end Solitary

theorem solitary_of_reachable
    (reachable : (machine Thread V hash).Reachable InsertsAlone pool) :
    Solitary hash pool := by
  have established (pool : Pool Thread (HashMap K V) (Option (Pc K V)))
      (before : (machine Thread V hash).Reachable InsertsAlone pool) :
      Coherent hash pool ∧ Searchable hash pool :=
    ⟨coherent_of_reachable before, searchable_of_reachable before⟩
  refine Program.invariant_of_known reachable established ?_ ?_
  · intro first started
    cases started
    exact ⟨fun thread _ pc _ _ _ stands => by simp [unused] at stands,
      fun thread pc _ _ stands => by simp [unused] at stands⟩
  · intro pool thread choice shared finish known solitary alone advanced
    obtain ⟨coherent, searchable⟩ := known
    rcases advance_cases advanced with ⟨call, pc, _, started, rfl⟩ | ⟨fresh, stands, rfl, rfl⟩ |
      ⟨pc, spurious, after, progress, stands, rfl, staying, resumed, rfl, rfl⟩
    · exact solitary.start started
    · exact .swap coherent stands
    · exact solitary.resume_keep coherent searchable stands staying alone resumed

/-- Insertions that are alone claim in order. -/
theorem inOrder_of_alone (reachable : (machine Thread V hash).Reachable InsertsAlone pool) :
    (machine Thread V hash).Reachable (ClaimsInOrder hash) pool := by
  obtain ⟨initial, started, run⟩ := reachable
  refine ⟨initial, started, ?_⟩
  induction run with
  | refl => exact .refl _
  | @tail middle last label before allowed moved ih =>
      have reached : (machine Thread V hash).Reachable InsertsAlone middle :=
        ⟨initial, started, before⟩
      have orderly := orderly_of_reachable (reached.mono fun _ _ _ => trivial)
      exact ih.tail ((solitary_of_reachable reached).claimsInOrder orderly label) moved

/-- While the insertions of one key come one after another, no two buckets hold it. -/
theorem present_unique_of_alone
    (reachable : (machine Thread V hash).Reachable InsertsAlone pool) {i j : ℕ}
    (first : Present (pool.shared.buckets i) key) (second : Present (pool.shared.buckets j) key) :
    i = j :=
  present_unique_of_reachable (inOrder_of_alone reachable) first second

/-- 5 is inserted behind 69, which is removed while the insertion is on its way. -/
theorem exists_behind :
    ∃ pool : Pool (Fin 2) (HashMap ℕ ℕ) (Option (Pc ℕ ℕ)),
      (machine (Fin 2) ℕ UInt64.ofNat).Reachable InsertsAlone pool ∧
        Present (pool.shared.buckets 24) 5 :=
  Machine.reachable_of_exec (machine (Fin 2) ℕ UInt64.ofNat) InsertsAlone (unused (Fin 2) ℕ ℕ)
    (List.flatten
      [(0, .call (.tryInsert 69 1)) :: List.replicate 8 (0, .step false),
        (1, .call (.tryInsert 5 2)) :: List.replicate 8 (1, .step false),
        (0, .call (.tryRemove 69)) :: List.replicate 11 (0, .step false),
        List.replicate 5 (1, .step false)])
    (fun pool => Present (pool.shared.buckets 24) 5) rfl ⟨_, rfl, rfl, 2, rfl⟩

theorem present_unique_of_alone_behind :
    ∃ pool : Pool (Fin 2) (HashMap ℕ ℕ) (Option (Pc ℕ ℕ)), Present (pool.shared.buckets 24) 5 ∧
      ∀ j, Present (pool.shared.buckets j) 5 → 24 = j := by
  obtain ⟨pool, reachable, present⟩ := exists_behind
  exact ⟨pool, present, fun j => present_unique_of_alone reachable present⟩

end Asco.Concurrency.HashMap
