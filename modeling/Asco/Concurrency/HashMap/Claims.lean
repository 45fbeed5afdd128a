import Asco.Concurrency.HashMap.Sequential
import Asco.Foundation.Holdings

namespace Asco.Concurrency.HashMap

open Foundation

/-! # What the calls hold of a bucket

A bucket that is being constructed belongs to one insertion, and one that is
about to be destructed to one removal; everybody else who may look at the entry
has raised the reference count.
-/

variable {K V : Type*}

/-- The part a call plays for a bucket: it has raised the reference count to look
at the entry; it has made the bucket `predestructing` and keeps a reference, has
drained the references, or has moved the entry out; it has claimed the bucket, or
has constructed the entry. -/
inductive Role where
  | visiting
  | seizing
  | emptying
  | burying
  | building
  | filling
deriving DecidableEq

abbrev Claim := Role × ℕ

def insertClaims : Option ℕ → List Claim
  | none => []
  | some claim => [(.building, claim)]

def Lower.claims (index : ℕ) : Lower K V → List Claim
  | .insertCompared _ _ _ claim _ => (.visiting, index) :: insertClaims claim
  | .removeOther _ _ | .removeReverted | .removeProtected => [(.seizing, index)]
  | .getOther _ _ _ | .contained | .guard => [(.visiting, index)]

def Outcome.claims : Outcome V → List Claim
  | .found index => [(.visiting, index)]
  | _ => []

section

variable (hash : K → UInt64) (size : ℕ)

def Pc.claims : Pc K V → List Claim
  | .unlockRead outcome => outcome.claims
  | .insertRaise _ _ _ claim _ => insertClaims claim
  | .insertCompare key _ i claim => (.visiting, slot hash size key i) :: insertClaims claim
  | .insertCheck _ _ _ claim | .insertGiveUp claim _ | .insertConstruct _ _ claim =>
      [(.building, claim)]
  | .insertCount _ claim | .insertPublish _ claim => [(.filling, claim)]
  | .removeCompare key i => [(.seizing, slot hash size key i)]
  | .removeConfirm index | .removeDrainLoad index | .removeDrain index _ => [(.seizing, index)]
  | .removeTake index => [(.emptying, index)]
  | .removeCount index _ | .removeBury index _ => [(.burying, index)]
  | .getCompare key _ i => [(.visiting, slot hash size key i)]
  | .lowerLoad index next | .lower index next _ => next.claims index
  | .tryRead _ | .tryReadExchange _ _ | .insertStart _ _ | .insertExchange _ _ _
  | .insertTombstone _ _ _ | .insertClaim _ _ _ _ | .removeExchange _ _ | .removeLoad _ _
  | .removeRaise _ _ _ | .getLoad _ _ _ | .getRaise _ _ _ _ | .tryWrite | .tryWriteExchange
  | .rehashLoad _ _ | .rehashWait _ _ | .rehashMove _ _ | .rehashSwap _ | .unlockWrite => []

attribute [local simp] Pc.claims

def Progress.claims : Progress K V → List Claim
  | .running pc => pc.claims hash size
  | .done outcome => outcome.claims

end

/-! ## One bucket -/

/-- The roles held for a bucket by the other calls and by one more. -/
def joined (others : Role → ℕ) (role : Option Role) (other : Role) : ℕ :=
  others other + if role = some other then 1 else 0

/-- How the state and the entry of a bucket agree with the guards and the roles
that are held for it. -/
structure Law (bucket : Bucket K V) (guards : ℕ) (roles : Role → ℕ) : Prop where
  counted : bucket.state.refcount = guards + roles .visiting + roles .seizing
  removed : roles .seizing + roles .emptying + roles .burying =
    if bucket.state.state = .predestructing then 1 else 0
  built : roles .building + roles .filling = if bucket.state.state = .constructing then 1 else 0
  drained : roles .emptying + roles .burying ≠ 0 → bucket.state.refcount = 0
  unshared : bucket.state.state ≠ .filled → bucket.state.state ≠ .predestructing →
    bucket.state.refcount = 0
  settled : bucket.state.state ≠ .destructing
  stored : (if bucket.entry.isSome then 1 else 0) + roles .burying =
    (if bucket.state.state = .filled ∨ bucket.state.state = .predestructing then 1 else 0) +
      roles .filling

/-- What one step makes of a bucket, with the role that is given up and the role
that is taken on. -/
inductive Action (bucket : Bucket K V) : Option Role → Option Role → Bucket K V → Prop where
  | raise {refcount : ℕ} (filled : bucket.state = ⟨refcount, .filled⟩) :
      Action bucket none (some .visiting) { bucket with state := ⟨refcount + 1, .filled⟩ }
  | seize {refcount : ℕ} (filled : bucket.state = ⟨refcount, .filled⟩) :
      Action bucket none (some .seizing) { bucket with state := ⟨refcount + 1, .predestructing⟩ }
  | lower :
      Action bucket (some .visiting) none
        { bucket with state := ⟨bucket.state.refcount - 1, bucket.state.state⟩ }
  | revert (predestructing : bucket.state.state = .predestructing) :
      Action bucket (some .seizing) none
        { bucket with state := ⟨bucket.state.refcount - 1, .filled⟩ }
  | drain (last : bucket.state = ⟨1, .predestructing⟩) :
      Action bucket (some .seizing) (some .emptying)
        { bucket with state := ⟨0, .predestructing⟩ }
  | take (present : bucket.entry.isSome) :
      Action bucket (some .emptying) (some .burying) { bucket with entry := none }
  | bury : Action bucket (some .burying) none { bucket with state := ⟨0, .tombstone⟩ }
  | claimEmpty (empty : bucket.state = ⟨0, .empty⟩) :
      Action bucket none (some .building) { bucket with state := ⟨0, .constructing⟩ }
  | claimTombstone (tombstone : bucket.state.state = .tombstone) :
      Action bucket none (some .building) { bucket with state := ⟨0, .constructing⟩ }
  | giveUp : Action bucket (some .building) none { bucket with state := ⟨0, .tombstone⟩ }
  | construct (entry : K × V) :
      Action bucket (some .building) (some .filling) { bucket with entry := some entry }
  | publish : Action bucket (some .filling) none { bucket with state := ⟨0, .filled⟩ }
  | relocate (filled : bucket.state = ⟨0, .filled⟩) (present : bucket.entry.isSome) :
      Action bucket none none ⟨⟨0, .tombstone⟩, none⟩

variable {bucket after : Bucket K V} {guards : ℕ} {others : Role → ℕ} {lost gained : Option Role}

theorem Law.act (law : Law bucket guards (joined others lost))
    (action : Action bucket lost gained after) : Law after guards (joined others gained) := by
  obtain ⟨counted, removed, built, drained, unshared, settled, stored⟩ := law
  have predestructing (held : joined others lost .seizing + joined others lost .emptying +
      joined others lost .burying ≠ 0) : bucket.state.state = .predestructing := by
    by_contra other
    rw [if_neg other] at removed
    exact held removed
  have constructing (held : joined others lost .building + joined others lost .filling ≠ 0) :
      bucket.state.state = .constructing := by
    by_contra other
    rw [if_neg other] at built
    exact held built
  cases action with
  | raise filled =>
      simp only [filled, joined, reduceCtorEq]
        at counted removed built drained unshared settled stored
      exact
        { counted := by
            simp [joined]
            omega
          removed := by
            simp [joined]
            omega
          built := by
            simp [joined]
            omega
          drained := fun held => by
            simp [joined] at held
            omega
          unshared := fun unfilled _ => absurd rfl unfilled
          settled := by simp
          stored := stored }
  | seize filled =>
      simp only [filled, joined, reduceCtorEq]
        at counted removed built drained unshared settled stored
      exact
        { counted := by
            simp [joined]
            omega
          removed := by
            simp [joined]
            omega
          built := by
            simp [joined]
            omega
          drained := fun held => by
            simp [joined] at held
            omega
          unshared := fun _ unseized => absurd rfl unseized
          settled := by simp
          stored := stored }
  | lower =>
      simp only [joined, ↓reduceIte, Option.some.injEq, reduceCtorEq]
        at counted removed built drained unshared settled stored
      exact
        { counted := by
            simp [joined]
            omega
          removed := by
            simp [joined]
            omega
          built := by
            simp [joined]
            omega
          drained := fun held => by
            simp [joined] at held
            omega
          unshared := fun unfilled unseized => by
            have none := unshared unfilled unseized
            omega
          settled := settled
          stored := stored }
  | revert predestructing =>
      simp only [joined, Option.some.injEq, reduceCtorEq, ↓reduceIte, ne_eq, Nat.add_eq_zero_iff,
        and_false, false_and, not_false_eq_true, predestructing]
        at counted removed built drained unshared settled stored
      exact
        { counted := by
            simp [joined]
            omega
          removed := by
            simp [joined]
            omega
          built := by
            simp [joined]
            omega
          drained := fun held => by
            simp [joined] at held
            omega
          unshared := fun unfilled _ => absurd rfl unfilled
          settled := by simp
          stored := stored }
  | drain last =>
      simp only [last, joined, reduceCtorEq, ↓reduceIte]
        at counted removed built drained unshared settled stored
      exact
        { counted := by
            simp [joined]
            omega
          removed := by
            simp [joined]
            omega
          built := by
            simp [joined]
            omega
          drained := fun _ => rfl
          unshared := fun _ unseized => absurd rfl unseized
          settled := by simp
          stored := stored }
  | take present =>
      have state := predestructing (by simp [joined])
      simp only [joined, reduceCtorEq, ↓reduceIte, state, Nat.add_eq_zero_iff, ne_eq, and_false,
        false_and, not_false_eq_true, forall_const]
        at counted removed built drained unshared settled stored
      exact
        { counted := by
            simp [joined]
            omega
          removed := by
            simp [joined, state]
            omega
          built := by
            simp [joined, state]
            omega
          drained := fun held => by
            simp [joined] at held
            omega
          unshared := by simp [state]
          settled := by simp [state]
          stored := by
            simp [joined, state]
            omega }
  | bury =>
      have state := predestructing (by simp [joined])
      simp only [joined, reduceCtorEq, ↓reduceIte, state, or_true]
        at counted removed built drained unshared settled stored
      exact
        { counted := by
            simp [joined]
            omega
          removed := by
            simp [joined]
            omega
          built := by
            simp [joined]
            omega
          drained := fun _ => rfl
          unshared := fun _ _ => rfl
          settled := by simp
          stored := by
            simp [joined]
            omega }
  | claimEmpty empty =>
      simp only [empty, joined, reduceCtorEq, or_self]
        at counted removed built drained unshared settled stored
      exact
        { counted := by
            simp [joined]
            omega
          removed := by
            simp [joined]
            omega
          built := by
            simp [joined]
            omega
          drained := fun _ => rfl
          unshared := fun _ _ => rfl
          settled := by simp
          stored := by
            simp [joined]
            omega }
  | claimTombstone tombstone =>
      simp only [joined, reduceCtorEq, tombstone, ne_eq, not_false_eq_true, forall_const, or_self]
        at counted removed built drained unshared settled stored
      exact
        { counted := by
            simp [joined]
            omega
          removed := by
            simp [joined]
            omega
          built := by
            simp [joined]
            omega
          drained := fun _ => rfl
          unshared := fun _ _ => rfl
          settled := by simp
          stored := by
            simp [joined]
            omega }
  | giveUp =>
      have state := constructing (by simp [joined])
      simp only [joined, reduceCtorEq, ↓reduceIte, state, ne_eq, not_false_eq_true, forall_const,
        or_self]
        at counted removed built drained unshared settled stored
      exact
        { counted := by
            simp [joined]
            omega
          removed := by
            simp [joined]
            omega
          built := by
            simp [joined]
            omega
          drained := fun _ => rfl
          unshared := fun _ _ => rfl
          settled := by simp
          stored := by
            simp [joined]
            omega }
  | construct entry =>
      have state := constructing (by simp [joined])
      simp only [joined, reduceCtorEq, ↓reduceIte, state, ne_eq, not_false_eq_true, forall_const]
        at counted removed built drained unshared settled stored
      exact
        { counted := by
            simp [joined]
            omega
          removed := by
            simp [joined, state]
            omega
          built := by
            simp [joined, state]
            omega
          drained := fun held => by
            simp [joined] at held
            omega
          unshared := fun _ _ => unshared
          settled := by simp [state]
          stored := by
            simp [joined, state]
            omega }
  | publish =>
      have state := constructing (by simp [joined])
      simp only [joined, reduceCtorEq, ↓reduceIte, state, ne_eq, not_false_eq_true, forall_const,
        or_self]
        at counted removed built drained unshared settled stored
      exact
        { counted := by
            simp [joined]
            omega
          removed := by
            simp [joined]
            omega
          built := by
            simp [joined]
            omega
          drained := fun _ => rfl
          unshared := fun unfilled _ => absurd rfl unfilled
          settled := by simp
          stored := by
            simp [joined]
            omega }
  | relocate filled present =>
      simp only [filled, joined, reduceCtorEq]
        at counted removed built drained unshared settled stored
      exact
        { counted := by
            simp [joined]
            omega
          removed := by
            simp [joined]
            omega
          built := by
            simp [joined]
            omega
          drained := fun _ => rfl
          unshared := fun _ _ => rfl
          settled := by simp
          stored := by
            simp [joined]
            omega }

/-- No bucket becomes empty again. -/
theorem Action.nonempty (action : Action bucket lost gained after)
    (nonempty : bucket.state.state ≠ .empty) : after.state.state ≠ .empty := by
  cases action with
  | lower => exact nonempty
  | take present => exact nonempty
  | construct entry => exact nonempty
  | _ => simp

/-- Only a removal, a rehash and an insertion touch the entry. -/
theorem Action.entry_eq (action : Action bucket lost gained after) :
    after.entry = bucket.entry ∨ lost = some .emptying ∨ lost = some .building ∨
      bucket.state = ⟨0, .filled⟩ ∧ lost = none ∧ gained = none := by
  cases action with
  | take present => exact .inr (.inl rfl)
  | construct entry => exact .inr (.inr (.inl rfl))
  | relocate filled present => exact .inr (.inr (.inr ⟨filled, rfl, rfl⟩))
  | _ => exact .inl rfl

/-! ## One step -/

/-- What a call has learnt of the values it carries. -/
def Known : Pc K V → Prop
  | .insertClaim _ _ _ expected => expected.state = .tombstone
  | .removeDrain _ expected => expected.refcount ≤ 1
  | .lowerLoad _ .removeReverted | .lower _ .removeReverted _ => False
  | _ => True

def Progress.Known : Progress K V → Prop
  | .running pc => HashMap.Known pc
  | .done _ => True

/-- What a step does to the buckets and to the claims of the call. -/
inductive Effect (hash : K → UInt64) (map : HashMap K V) (pc : Pc K V) :
    (ℕ → Bucket K V) → Progress K V → Prop where
  | moves {progress : Progress K V}
      (same : progress.claims hash map.bucketCount = pc.claims hash map.bucketCount) :
      Effect hash map pc map.buckets progress
  | touches {progress : Progress K V} {index : ℕ} {lost gained : Option Role}
      {after : Bucket K V} {rest : List Claim} (within : index < map.bucketCount)
      (action : Action (map.buckets index) lost gained after)
      (before : pc.claims hash map.bucketCount = lost.toList.map (·, index) ++ rest)
      (next : progress.claims hash map.bucketCount = gained.toList.map (·, index) ++ rest) :
      Effect hash map pc (Function.update map.buckets index after) progress

/-- What the law of the buckets tells a call. -/
structure Backed (hash : K → UInt64) (map : HashMap K V) (pc : Pc K V) : Prop where
  sized : WellSized map.bucketCount
  known : Known pc
  within : ∀ claim ∈ pc.claims hash map.bucketCount, claim.2 < map.bucketCount
  seized : ∀ index, (.seizing, index) ∈ pc.claims hash map.bucketCount →
    (map.buckets index).state.state = .predestructing ∧ 0 < (map.buckets index).state.refcount
  moving : ∀ index fresh, pc = .rehashMove index fresh →
    index < map.bucketCount ∧ (map.buckets index).state = ⟨0, .filled⟩

variable [DecidableEq K] {hash : K → UInt64} {map next : HashMap K V} {pc : Pc K V}
  {progress : Progress K V} {spurious : Bool}

omit [DecidableEq K] in
@[simp] theorem leave_claims (outcome : Outcome V) (size : ℕ) :
    (leave outcome : Progress K V).claims hash size = outcome.claims := rfl

omit [DecidableEq K] in
@[simp] theorem insertAt_claims (key : K) (value : V) (i : ℕ) (claim : Option ℕ) (size : ℕ) :
    (map.insertAt key value i claim).claims hash size = insertClaims claim := by
  cases claim <;> simp only [insertAt] <;> split <;> rfl

omit [DecidableEq K] in
@[simp] theorem insertFail_claims (failure : InsertFailed) (claim : Option ℕ) (size : ℕ) :
    (insertFail failure claim : Progress K V).claims hash size = insertClaims claim := by
  cases claim <;> rfl

omit [DecidableEq K] in
@[simp] theorem insertAgain_claims (key : K) (value : V) (i : ℕ) (claim : Option ℕ) (size : ℕ) :
    (insertAgain key value i claim : Progress K V).claims hash size = insertClaims claim := by
  cases claim <;> rfl

omit [DecidableEq K] in
@[simp] theorem removeAt_claims (key : K) (i size : ℕ) :
    (map.removeAt key i).claims hash size = [] := by
  simp only [removeAt]
  split <;> rfl

omit [DecidableEq K] in
@[simp] theorem getAt_claims (key : K) (contains : Bool) (i size : ℕ) :
    (map.getAt key contains i).claims hash size = [] := by
  simp only [getAt, getNone]
  split
  · rfl
  · cases contains <;> rfl

omit [DecidableEq K] in
@[simp] theorem lowered_claims (next : Lower K V) (index size : ℕ) :
    (map.lowered next).claims hash size = (next.claims index).tail := by
  cases next with
  | insertCompared key value i claim same =>
      cases same <;> simp [lowered, Lower.claims]
  | guard => rfl
  | _ => simp [lowered, Lower.claims, Outcome.claims]

omit [DecidableEq K] in
theorem enter_claims {call : Call K V} (entered : map.enter call = some progress) (size : ℕ) :
    progress.claims hash size = [] := by
  cases call with
  | tryInsert key value =>
      cases entered
      rfl
  | tryRemove key =>
      cases entered
      exact removeAt_claims key 0 size
  | tryGet key =>
      cases entered
      exact getAt_claims key false 0 size
  | tryContains key =>
      cases entered
      exact getAt_claims key true 0 size
  | tryRehash => contradiction
  | drop index => contradiction

/-- The step keeps the vector of buckets. -/
def Keeps (hash : K → UInt64) (map : HashMap K V) (pc : Pc K V) (next : HashMap K V)
    (progress : Progress K V) : Prop :=
  next.bucketCount = map.bucketCount ∧ next.guards = map.guards ∧
    Effect hash map pc next.buckets progress

omit [DecidableEq K] in
theorem Keeps.of_same
    (same : progress.claims hash map.bucketCount = pc.claims hash map.bucketCount) :
    Keeps hash map pc map progress := ⟨rfl, rfl, .moves same⟩

omit [DecidableEq K] in
theorem Keeps.setState {index : ℕ} {state : BucketState} {lost gained : Option Role}
    {rest : List Claim} (within : index < map.bucketCount)
    (action : Action (map.buckets index) lost gained { map.buckets index with state })
    (before : pc.claims hash map.bucketCount = lost.toList.map (·, index) ++ rest)
    (after : progress.claims hash map.bucketCount = gained.toList.map (·, index) ++ rest) :
    Keeps hash map pc (map.setState index state) progress :=
  ⟨rfl, rfl, .touches within action before after⟩

/-- Every step but the exchange of the vectors changes one bucket at most. -/
theorem resume_keeps (backed : Backed hash map pc) (staying : ∀ fresh, pc ≠ .rehashSwap fresh)
    (resumed : resume hash map spurious pc = some (next, progress)) :
    Keeps hash map pc next progress := by
  obtain ⟨sized, known, within, seized, moving⟩ := backed
  cases pc with
  | tryRead call =>
      simp only [resume] at resumed
      split at resumed <;> cases resumed
      · cases call <;> exact .of_same rfl
      · exact .of_same rfl
  | tryReadExchange call expected =>
      simp only [resume] at resumed
      split at resumed
      · simp only [Option.map_eq_some_iff, Prod.mk.injEq] at resumed
        obtain ⟨entered, found, rfl, rfl⟩ := resumed
        exact ⟨rfl, rfl, .moves (enter_claims found _)⟩
      · cases resumed
        exact .of_same rfl
  | unlockRead outcome =>
      cases resumed
      exact ⟨rfl, rfl, .moves rfl⟩
  | insertStart key value =>
      simp only [resume] at resumed
      split at resumed <;> cases resumed
      · exact .of_same rfl
      · exact .of_same (insertAt_claims _ _ _ _ _)
  | insertExchange key value i =>
      simp only [resume] at resumed
      split at resumed
      · rename_i empty
        cases resumed
        exact .setState (slot_lt sized hash key i) (.claimEmpty empty) rfl rfl
      · split at resumed <;> cases resumed <;> exact .of_same rfl
  | insertRaise key value i claim refcount =>
      simp only [resume] at resumed
      split at resumed
      · rename_i filled
        cases resumed
        exact .setState (slot_lt sized hash key i) (.raise filled) rfl rfl
      · split at resumed <;> cases resumed
        · exact .of_same (insertFail_claims _ _ _)
        · exact .of_same (insertAgain_claims _ _ _ _ _)
  | insertCompare key value i claim =>
      simp only [resume, Option.map_eq_some_iff, Prod.mk.injEq] at resumed
      obtain ⟨entry, _, rfl, rfl⟩ := resumed
      exact .of_same rfl
  | insertTombstone key value i =>
      simp only [resume] at resumed
      split at resumed <;> cases resumed <;> exact .of_same rfl
  | insertClaim key value i expected =>
      simp only [resume] at resumed
      split at resumed
      · rename_i same
        cases resumed
        have tombstone :
            (map.buckets (slot hash map.bucketCount key i)).state.state = .tombstone := by
          rw [same.1]
          exact known
        exact .setState (slot_lt sized hash key i) (.claimTombstone tombstone) rfl
          (insertAt_claims _ _ _ _ _)
      · cases resumed
        exact .of_same rfl
  | insertCheck key value i claim =>
      simp only [resume] at resumed
      split at resumed <;> cases resumed
      · exact .of_same (insertAt_claims _ _ _ _ _)
      · exact .of_same rfl
      · exact .of_same rfl
      · exact .of_same rfl
      · exact .of_same rfl
      · exact .of_same rfl
  | insertGiveUp claim failure =>
      cases resumed
      exact .setState (within _ List.mem_cons_self) .giveUp rfl rfl
  | insertConstruct key value claim =>
      cases resumed
      exact ⟨rfl, rfl, .touches (within _ List.mem_cons_self) (.construct (key, value)) rfl rfl⟩
  | insertCount key claim =>
      cases resumed
      exact ⟨rfl, rfl, .moves rfl⟩
  | insertPublish key claim =>
      cases resumed
      exact .setState (within _ List.mem_cons_self) .publish rfl rfl
  | removeExchange key i =>
      simp only [resume] at resumed
      split at resumed
      · rename_i filled
        cases resumed
        exact .setState (slot_lt sized hash key i) (.seize filled) rfl rfl
      · split at resumed <;> cases resumed
        · exact .of_same rfl
        · exact .of_same rfl
        · exact .of_same rfl
        · exact .of_same rfl
        · exact .of_same (removeAt_claims _ _ _)
        · exact .of_same (removeAt_claims _ _ _)
  | removeLoad key i =>
      simp only [resume] at resumed
      split at resumed
      · cases resumed
        exact .of_same rfl
      · split at resumed <;> cases resumed <;> exact .of_same rfl
  | removeRaise key i refcount =>
      simp only [resume] at resumed
      split at resumed
      · rename_i filled
        cases resumed
        exact .setState (slot_lt sized hash key i) (.seize filled.1) rfl rfl
      · cases resumed
        exact .of_same rfl
  | removeCompare key i =>
      simp only [resume, Option.map_eq_some_iff] at resumed
      obtain ⟨entry, _, compared⟩ := resumed
      split at compared <;> cases compared <;> exact .of_same rfl
  | removeConfirm index =>
      have owned := seized index List.mem_cons_self
      simp only [resume, owned.1] at resumed
      cases resumed
      exact .of_same rfl
  | removeDrainLoad index =>
      simp only [resume] at resumed
      split at resumed <;> cases resumed <;> exact .of_same rfl
  | removeDrain index expected =>
      simp only [resume] at resumed
      split at resumed
      · rename_i same
        obtain ⟨predestructing, shared⟩ := seized index List.mem_cons_self
        have single : expected.refcount = 1 := by
          rw [same.1] at shared
          exact Nat.le_antisymm known shared
        have last : (map.buckets index).state = ⟨1, .predestructing⟩ := by
          rw [← single, ← predestructing, same.1]
        cases resumed
        rw [single]
        exact .setState (within _ List.mem_cons_self) (.drain last) rfl rfl
      · cases resumed
        exact .of_same rfl
  | removeTake index =>
      simp only [resume, Option.map_eq_some_iff, Prod.mk.injEq] at resumed
      obtain ⟨entry, found, rfl, rfl⟩ := resumed
      have present : (map.buckets index).entry.isSome := by rw [found]; rfl
      exact ⟨rfl, rfl, .touches (within _ List.mem_cons_self) (.take present) rfl rfl⟩
  | removeCount index value =>
      cases resumed
      exact ⟨rfl, rfl, .moves rfl⟩
  | removeBury index value =>
      cases resumed
      exact .setState (within _ List.mem_cons_self) .bury rfl rfl
  | getLoad key contains i =>
      simp only [resume] at resumed
      split at resumed <;> cases resumed
      · cases contains <;> exact .of_same rfl
      · exact .of_same rfl
      · exact .of_same rfl
      · exact .of_same (getAt_claims _ _ _ _)
      · exact .of_same (getAt_claims _ _ _ _)
      · exact .of_same rfl
  | getRaise key contains i refcount =>
      simp only [resume] at resumed
      split at resumed
      · rename_i filled
        cases resumed
        exact .setState (slot_lt sized hash key i) (.raise filled.1) rfl rfl
      · cases resumed
        exact .of_same rfl
  | getCompare key contains i =>
      simp only [resume, Option.map_eq_some_iff] at resumed
      obtain ⟨entry, _, compared⟩ := resumed
      split at compared
      · split at compared <;> cases compared <;> exact .of_same rfl
      · cases compared
        exact .of_same rfl
  | lowerLoad index reason =>
      cases resumed
      cases reason with
      | removeReverted => exact known.elim
      | _ => exact .of_same rfl
  | lower index reason expected =>
      simp only [resume] at resumed
      split at resumed
      · rename_i same
        obtain ⟨rfl, _⟩ := same
        cases resumed
        have rest : (map.lowered reason).claims hash map.bucketCount = _ :=
          lowered_claims reason index _
        cases reason with
        | insertCompared key value i claim equal =>
            exact .setState (within _ List.mem_cons_self) .lower rfl rest
        | removeReverted => exact known.elim
        | removeOther key i =>
            have owned := seized index List.mem_cons_self
            exact .setState (within _ List.mem_cons_self) (.revert owned.1) rfl rest
        | removeProtected =>
            have owned := seized index List.mem_cons_self
            exact .setState (within _ List.mem_cons_self) (.revert owned.1) rfl rest
        | getOther key contains i =>
            exact .setState (within _ List.mem_cons_self) .lower rfl rest
        | contained => exact .setState (within _ List.mem_cons_self) .lower rfl rest
        | guard => exact .setState (within _ List.mem_cons_self) .lower rfl rest
      · cases resumed
        exact .of_same rfl
  | tryWrite =>
      simp only [resume] at resumed
      split at resumed <;> cases resumed <;> exact .of_same rfl
  | tryWriteExchange =>
      simp only [resume] at resumed
      split at resumed <;> cases resumed
      · exact .of_same rfl
      · exact ⟨rfl, rfl, .moves rfl⟩
  | rehashLoad index fresh =>
      simp only [resume] at resumed
      split at resumed
      · split at resumed <;> cases resumed <;> exact .of_same rfl
      · cases resumed
        exact .of_same rfl
  | rehashWait index fresh =>
      simp only [resume] at resumed
      split at resumed <;> cases resumed <;> exact .of_same rfl
  | rehashMove index fresh =>
      obtain ⟨inside, filled⟩ := moving index fresh rfl
      simp only [resume, Option.map_eq_some_iff] at resumed
      obtain ⟨entry, found, placed⟩ := resumed
      have present : (map.buckets index).entry.isSome := by rw [found]; rfl
      split at placed
      · cases placed
        exact .of_same rfl
      · cases placed
        have emptied : ((map.setEntry index none).setState index ⟨0, .tombstone⟩).buckets =
            Function.update map.buckets index ⟨⟨0, .tombstone⟩, none⟩ := by
          simp [setEntry, HashMap.setState]
        refine ⟨rfl, rfl, ?_⟩
        rw [emptied]
        exact .touches inside (.relocate filled present) rfl rfl
  | rehashSwap fresh => exact absurd rfl (staying fresh)
  | unlockWrite =>
      cases resumed
      exact ⟨rfl, rfl, .moves rfl⟩

/-! ## What a call carries on -/

section

variable {key : K} {value : V} {i : ℕ}

omit [DecidableEq K] in
@[simp] theorem leave_known (outcome : Outcome V) : (leave outcome : Progress K V).Known := trivial

omit [DecidableEq K] in
@[simp] theorem insertAt_known (claim : Option ℕ) : (map.insertAt key value i claim).Known := by
  cases claim <;> simp only [insertAt] <;> split <;> trivial

omit [DecidableEq K] in
@[simp] theorem insertFail_known (failure : InsertFailed) (claim : Option ℕ) :
    (insertFail failure claim : Progress K V).Known := by
  cases claim <;> trivial

omit [DecidableEq K] in
@[simp] theorem insertAgain_known (claim : Option ℕ) : (insertAgain key value i claim).Known := by
  cases claim <;> trivial

omit [DecidableEq K] in
@[simp] theorem removeAt_known : (map.removeAt key i).Known := by
  simp only [removeAt]
  split <;> trivial

omit [DecidableEq K] in
@[simp] theorem getAt_known (contains : Bool) : (map.getAt key contains i).Known := by
  simp only [getAt]
  split <;> trivial

omit [DecidableEq K] in
@[simp] theorem lowered_known (reason : Lower K V) : (map.lowered reason).Known := by
  cases reason with
  | insertCompared key value i claim same => cases same <;> simp [lowered]
  | guard => trivial
  | _ => simp [lowered]

omit [DecidableEq K] in
theorem enter_known {call : Call K V} (entered : map.enter call = some progress) :
    progress.Known := by
  cases call with
  | tryInsert key value =>
      cases entered
      trivial
  | tryRemove key =>
      cases entered
      exact removeAt_known
  | tryGet key =>
      cases entered
      exact getAt_known false
  | tryContains key =>
      cases entered
      exact getAt_known true
  | tryRehash => contradiction
  | drop index => contradiction

end

theorem resume_known (backed : Backed hash map pc)
    (resumed : resume hash map spurious pc = some (next, progress)) : progress.Known := by
  obtain ⟨_, known, _, seized, _⟩ := backed
  cases pc with
  | tryReadExchange call expected =>
      simp only [resume] at resumed
      split at resumed
      · simp only [Option.map_eq_some_iff, Prod.mk.injEq] at resumed
        obtain ⟨entered, found, rfl, rfl⟩ := resumed
        exact enter_known found
      · cases resumed
        trivial
  | insertTombstone key value i =>
      simp only [resume] at resumed
      split at resumed
      · rename_i tombstone
        cases resumed
        exact tombstone
      · cases resumed
        trivial
  | removeConfirm index =>
      have owned := seized index List.mem_cons_self
      simp only [resume, owned.1] at resumed
      cases resumed
      trivial
  | removeDrainLoad index =>
      simp only [resume] at resumed
      split at resumed
      · cases resumed
        trivial
      · rename_i single
        cases resumed
        exact Nat.le_of_not_lt single
  | lowerLoad index reason =>
      cases resumed
      cases reason with
      | removeReverted => exact known.elim
      | _ => trivial
  | lower index reason expected =>
      simp only [resume] at resumed
      split at resumed
      · cases resumed
        exact lowered_known reason
      · cases resumed
        cases reason with
        | removeReverted => exact known.elim
        | _ => trivial
  | insertStart key value =>
      simp only [resume] at resumed
      split at resumed <;> cases resumed <;> simp
  | insertRaise key value i claim refcount =>
      simp only [resume] at resumed
      split at resumed
      · cases resumed
        trivial
      · split at resumed <;> cases resumed <;> simp
  | insertClaim key value i expected =>
      simp only [resume] at resumed
      split at resumed <;> cases resumed
      · exact insertAt_known _
      · trivial
  | insertCheck key value i claim =>
      simp only [resume] at resumed
      split at resumed <;> cases resumed <;> first | exact insertAt_known _ | trivial
  | insertExchange key value i =>
      simp only [resume] at resumed
      split at resumed
      · cases resumed
        trivial
      · split at resumed <;> cases resumed <;> trivial
  | removeExchange key i =>
      simp only [resume] at resumed
      split at resumed
      · cases resumed
        trivial
      · split at resumed <;> cases resumed <;> first | exact removeAt_known | trivial
  | getLoad key contains i =>
      simp only [resume] at resumed
      split at resumed <;> cases resumed <;> first | exact getAt_known contains | trivial
  | removeLoad key i =>
      simp only [resume] at resumed
      split at resumed
      · cases resumed
        trivial
      · split at resumed <;> cases resumed <;> trivial
  | tryRead call | removeDrain index expected | removeRaise key i refcount
  | getRaise key contains i refcount | tryWrite | tryWriteExchange | rehashWait index fresh =>
      simp only [resume] at resumed
      split at resumed <;> cases resumed <;> trivial
  | rehashLoad index fresh =>
      simp only [resume] at resumed
      split at resumed
      · split at resumed <;> cases resumed <;> trivial
      · cases resumed
        trivial
  | unlockRead outcome | insertGiveUp claim failure | insertConstruct key value claim
  | insertCount key claim | insertPublish key claim | removeCount index value
  | removeBury index value | rehashSwap fresh | unlockWrite =>
      cases resumed
      trivial
  | insertCompare key value i claim | removeTake index =>
      simp only [resume, Option.map_eq_some_iff, Prod.mk.injEq] at resumed
      obtain ⟨entry, _, rfl, rfl⟩ := resumed
      trivial
  | removeCompare key i =>
      simp only [resume, Option.map_eq_some_iff] at resumed
      obtain ⟨entry, _, compared⟩ := resumed
      split at compared <;> cases compared <;> trivial
  | getCompare key contains i =>
      simp only [resume, Option.map_eq_some_iff] at resumed
      obtain ⟨entry, _, compared⟩ := resumed
      split at compared
      · split at compared <;> cases compared <;> trivial
      · cases compared
        trivial
  | rehashMove index fresh =>
      simp only [resume, Option.map_eq_some_iff] at resumed
      obtain ⟨entry, _, placed⟩ := resumed
      split at placed <;> cases placed <;> trivial

end Asco.Concurrency.HashMap
