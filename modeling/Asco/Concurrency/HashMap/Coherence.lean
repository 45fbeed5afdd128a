import Asco.Concurrency.HashMap.Claims
import Asco.Concurrency.HashMap.Locks

namespace Asco.Concurrency.HashMap

open Foundation

/-! # The map agrees with the calls in progress -/

variable {K V : Type*} {hash : K → UInt64} {map next : HashMap K V} {pc : Pc K V}
  {progress : Progress K V} {spurious : Bool} {others : Claim → ℕ} {claims : List Claim}

/-! ## All buckets -/

/-- Every bucket obeys its law when the other calls hold `others` and one more
call holds `claims`. -/
def Lawful (map : HashMap K V) (others : Claim → ℕ) (claims : List Claim) : Prop :=
  ∀ index, Law (map.buckets index) (map.guards index) fun role =>
    others (role, index) + claims.count (role, index)

theorem count_joined (others : Claim → ℕ) (role : Option Role) (index : ℕ) (rest : List Claim) :
    (fun other => others (other, index) +
        (role.toList.map (·, index) ++ rest : List Claim).count (other, index)) =
      joined (fun other => others (other, index) + rest.count (other, index)) role := by
  funext other
  cases role with
  | none => simp [joined]
  | some role =>
      by_cases same : role = other
      · subst same
        simp [joined]
        omega
      · simp [joined, same]

theorem count_elsewhere (role : Option Role) {index elsewhere : ℕ} (different : elsewhere ≠ index)
    (rest : List Claim) (other : Role) :
    (role.toList.map (·, index) ++ rest : List Claim).count (other, elsewhere) =
      rest.count (other, elsewhere) := by
  cases role with
  | none => simp
  | some role => simp [different.symm]

theorem Lawful.effect (lawful : Lawful map others (pc.claims hash map.bucketCount))
    (keeps : Keeps hash map pc next progress) :
    Lawful next others (progress.claims hash map.bucketCount) := by
  obtain ⟨_, guards, effect⟩ := keeps
  intro index
  have law := lawful index
  rw [guards]
  generalize next.buckets = buckets at effect
  cases effect with
  | moves same =>
      rw [same]
      exact law
  | @touches _ touched lost gained after rest within action before after_ =>
      rw [after_]
      rw [before] at law
      by_cases same : index = touched
      · subst same
        rw [count_joined] at law ⊢
        rw [Function.update_self]
        exact law.act action
      · simp only [count_elsewhere _ same] at law ⊢
        rw [Function.update_of_ne same]
        exact law

/-- A bucket that an insertion works on is being constructed. -/
theorem Lawful.constructing {index : ℕ} (lawful : Lawful map others claims)
    (claimed : (.building, index) ∈ claims ∨ (.filling, index) ∈ claims) :
    (map.buckets index).state.state = .constructing := by
  have built := (lawful index).built
  by_contra other
  rw [if_neg other] at built
  rcases claimed with building | filling
  · have counted := List.count_pos_iff.mpr building
    omega
  · have counted := List.count_pos_iff.mpr filling
    omega

theorem Lawful.unbuilt {index : ℕ} (lawful : Lawful map others claims)
    (claimed : (.building, index) ∈ claims) : (map.buckets index).entry = none := by
  have constructing := lawful.constructing (.inl claimed)
  have built := (lawful index).built
  have stored := (lawful index).stored
  have counted := List.count_pos_iff.mpr claimed
  rw [if_pos constructing] at built
  simp only [constructing, reduceCtorEq, or_self, if_false] at stored
  cases found : (map.buckets index).entry with
  | none => rfl
  | some entry =>
      simp only [found, Option.isSome_some, if_true] at stored
      omega

/-! ## Guards -/

theorem Law.keep {bucket : Bucket K V} {guards : ℕ} {others : Role → ℕ}
    (law : Law bucket guards (joined others (some .visiting))) :
    Law bucket (guards + 1) (joined others none) := by
  have counted : bucket.state.refcount = guards + (others .visiting + 1) + others .seizing :=
    law.counted
  refine ⟨?_, law.removed, law.built, law.drained, law.unshared, law.settled, law.stored⟩
  change bucket.state.refcount = guards + 1 + others .visiting + others .seizing
  omega

theorem Law.drop {bucket : Bucket K V} {guards : ℕ} {others : Role → ℕ}
    (law : Law bucket (guards + 1) (joined others none)) :
    Law bucket guards (joined others (some .visiting)) := by
  have counted : bucket.state.refcount = guards + 1 + others .visiting + others .seizing :=
    law.counted
  refine ⟨?_, law.removed, law.built, law.drained, law.unshared, law.settled, law.stored⟩
  change bucket.state.refcount = guards + (others .visiting + 1) + others .seizing
  omega

section

variable (hash : K → UInt64) (size : ℕ)

def localClaims : Option (Pc K V) → List Claim
  | some pc => pc.claims hash size
  | none => []

end

/-- A guard that is returned goes on protecting its bucket. -/
theorem Lawful.settle {size : ℕ} (lawful : Lawful map others (progress.claims hash size)) :
    Lawful (map.settle progress).1 others (localClaims hash size (map.settle progress).2) := by
  cases progress with
  | running pc => exact lawful
  | done outcome =>
      cases outcome with
      | found index =>
          intro other
          have law := lawful other
          have split : (Progress.done (.found index) : Progress K V).claims hash size =
              (some Role.visiting).toList.map (·, index) ++ [] := rfl
          have none : localClaims hash size (map.settle (.done (.found index))).2 =
              (Option.none : Option Role).toList.map (·, index) ++ [] := rfl
          rw [split] at law
          rw [none]
          by_cases same : other = index
          · subst same
            rw [count_joined] at law ⊢
            simpa [HashMap.settle] using law.keep
          · simp only [count_elsewhere _ same] at law ⊢
            simpa [HashMap.settle, Function.update_of_ne same] using law
      | _ => exact lawful

/-- Destroying a guard takes its protection over. -/
theorem Lawful.start {size : ℕ} {call : Call K V} (lawful : Lawful map others [])
    (started : map.start call = some (next, pc)) :
    Lawful next others (pc.claims hash size) := by
  cases call with
  | drop index =>
      simp only [HashMap.start] at started
      split at started
      · rename_i alive
        cases started
        intro other
        have law := lawful other
        have split : (Pc.lowerLoad index .guard : Pc K V).claims hash size =
            (some Role.visiting).toList.map (·, index) ++ [] := rfl
        have none : ([] : List Claim) = (Option.none : Option Role).toList.map (·, index) ++ [] :=
          rfl
        rw [none] at law
        rw [split]
        by_cases same : other = index
        · subst same
          rw [count_joined] at law ⊢
          have fewer : map.guards other = map.guards other - 1 + 1 := by omega
          rw [fewer] at law
          simpa using law.drop
        · simp only [count_elsewhere _ same] at law ⊢
          simpa [Function.update_of_ne same] using law
      · contradiction
  | _ =>
      cases started
      exact lawful

/-! ## What the law tells a call -/

theorem Law.seized {bucket : Bucket K V} {guards : ℕ} {roles : Role → ℕ}
    (law : Law bucket guards roles) (seizes : 0 < roles .seizing) :
    bucket.state.state = .predestructing ∧ 0 < bucket.state.refcount := by
  have removed := law.removed
  have counted := law.counted
  split at removed
  · rename_i predestructing
    exact ⟨predestructing, by omega⟩
  · omega

/-- Nobody holds a role for a bucket that has never been used. -/
theorem Law.unused {guards : ℕ} {roles : Role → ℕ} (law : Law (emptyBucket K V) guards roles)
    (role : Role) : roles role = 0 := by
  have counted := law.counted
  have removed := law.removed
  have built := law.built
  simp only [emptyBucket, reduceCtorEq, if_false] at counted removed built
  cases role <;> omega

/-- Nobody holds a role for a bucket that is neither filled nor worked on. -/
theorem Law.idle {bucket : Bucket K V} {guards : ℕ} {roles : Role → ℕ}
    (law : Law bucket guards roles) (visited : ∀ role, role ≠ .visiting → roles role = 0)
    (state : bucket.state.state ≠ .filled) : guards = 0 ∧ roles .visiting = 0 := by
  have removed := law.removed
  have counted := law.counted
  rw [visited .seizing (by simp), visited .emptying (by simp),
    visited .burying (by simp)] at removed
  have notSeized : bucket.state.state ≠ .predestructing := by
    intro predestructing
    simp [predestructing] at removed
  have unshared := law.unshared state notSeized
  omega

/-! ## The vector a rehash fills -/

/-- No filled bucket is left below the index. -/
def Scanned (map : HashMap K V) (index : ℕ) : Prop :=
  ∀ i < index, (map.buckets i).state.state ≠ .filled

/-- `new_buckets`, of the given size. -/
structure Fresh (size : ℕ) (fresh : ℕ → Bucket K V) : Prop where
  clean : ∀ i, fresh i = emptyBucket K V ∨ ∃ entry, fresh i = ⟨⟨0, .filled⟩, some entry⟩
  outside : ∀ i, size ≤ i → fresh i = emptyBucket K V

/-- The number of entries in a bucket. -/
def stored (bucket : Bucket K V) : ℕ := if bucket.entry.isSome then 1 else 0

/-- The number of entries in the first buckets of a vector. -/
def total (size : ℕ) (buckets : ℕ → Bucket K V) : ℕ := ∑ i ∈ Finset.range size, stored (buckets i)

/-- `do_rehash` has passed the buckets below the index. -/
structure Refilled (map : HashMap K V) (index : ℕ) (fresh : ℕ → Bucket K V) : Prop where
  scanned : Scanned map index
  ready : Fresh (2 * map.bucketCount) fresh
  counted : total (2 * map.bucketCount) fresh ≤ index

/-- What `do_rehash` has done so far. -/
def Rehashing (map : HashMap K V) : Pc K V → Prop
  | .rehashLoad index fresh => Refilled map index fresh
  | .rehashWait index fresh =>
      Refilled map index fresh ∧ index < map.bucketCount ∧
        (map.buckets index).state.state = .filled
  | .rehashMove index fresh =>
      Refilled map index fresh ∧ index < map.bucketCount ∧ (map.buckets index).state = ⟨0, .filled⟩
  | .rehashSwap fresh => Scanned map map.bucketCount ∧ Fresh (2 * map.bucketCount) fresh
  | _ => True

def Progress.Rehashing (map : HashMap K V) : Progress K V → Prop
  | .running pc => HashMap.Rehashing map pc
  | .done _ => True

theorem Scanned.succ {index : ℕ} (scanned : Scanned map index)
    (state : (map.buckets index).state.state ≠ .filled) : Scanned map (index + 1) := by
  intro i below
  rcases Nat.lt_succ_iff_lt_or_eq.mp below with earlier | rfl
  · exact scanned i earlier
  · exact state

/-- Outside the rehash a pool in which somebody rehashes only sees references
go away. -/
structure Calm (map next : HashMap K V) : Prop where
  bucketCount : next.bucketCount = map.bucketCount
  entry : ∀ i, (next.buckets i).entry = (map.buckets i).entry
  state : ∀ i, (next.buckets i).state.state = (map.buckets i).state.state
  refcount : ∀ i, (next.buckets i).state.refcount ≤ (map.buckets i).state.refcount

theorem Calm.refl (map : HashMap K V) : Calm map map :=
  ⟨rfl, fun _ => rfl, fun _ => rfl, fun _ => Nat.le_refl _⟩

theorem Calm.settle (calm : Calm map next) (progress : Progress K V) :
    Calm map (next.settle progress).1 := by
  cases progress with
  | running pc => exact calm
  | done outcome =>
      cases outcome with
      | found index => exact ⟨calm.bucketCount, calm.entry, calm.state, calm.refcount⟩
      | _ => exact calm

theorem Calm.start {call : Call K V} (started : map.start call = some (next, pc)) :
    Calm map next := by
  cases call with
  | drop index =>
      simp only [HashMap.start] at started
      split at started
      · cases started
        exact ⟨rfl, fun _ => rfl, fun _ => rfl, fun _ => Nat.le_refl _⟩
      · contradiction
  | _ =>
      cases started
      exact .refl map

theorem Calm.scanned {index : ℕ} (calm : Calm map next) (scanned : Scanned map index) :
    Scanned next index := by
  intro i below
  rw [calm.state]
  exact scanned i below

theorem Calm.refilled {index : ℕ} {fresh : ℕ → Bucket K V} (calm : Calm map next)
    (refilled : Refilled map index fresh) : Refilled next index fresh where
  scanned := calm.scanned refilled.scanned
  ready := calm.bucketCount ▸ refilled.ready
  counted := calm.bucketCount ▸ refilled.counted

theorem Calm.rehashing (calm : Calm map next) (standing : Rehashing map pc) :
    Rehashing next pc := by
  cases pc with
  | rehashLoad index fresh => exact calm.refilled standing
  | rehashWait index fresh =>
      obtain ⟨refilled, below, filled⟩ := standing
      refine ⟨calm.refilled refilled, calm.bucketCount ▸ below, ?_⟩
      rw [calm.state]
      exact filled
  | rehashMove index fresh =>
      obtain ⟨refilled, below, filled⟩ := standing
      refine ⟨calm.refilled refilled, calm.bucketCount ▸ below, ?_⟩
      have state := calm.state index
      have refcount := calm.refcount index
      rw [filled] at state refcount
      have none : (next.buckets index).state.refcount = 0 := Nat.le_zero.mp refcount
      have parts : (next.buckets index).state =
          ⟨(next.buckets index).state.refcount, (next.buckets index).state.state⟩ := rfl
      rw [parts, none, state]
  | rehashSwap fresh =>
      obtain ⟨scanned, ready⟩ := standing
      exact ⟨calm.bucketCount ▸ calm.scanned scanned, calm.bucketCount ▸ ready⟩
  | _ => trivial

/-! ## Counting entries -/

section

variable {size index : ℕ} {buckets fresh : ℕ → Bucket K V} {after : Bucket K V}

theorem total_update (within : index < size) :
    total size (Function.update buckets index after) + stored (buckets index) =
      total size buckets + stored after :=
  sum_update_add stored buckets (Finset.mem_range.mpr within) after

/-- A vector with a bucket to spare takes another entry. -/
theorem place_isSome (ready : Fresh size fresh) (sized : WellSized size)
    (room : total size fresh < size) (entry : K × V) : (place hash size fresh entry).isSome := by
  rw [Option.isSome_iff_ne_none]
  intro nowhere
  simp only [place, Option.map_eq_none_iff, List.find?_eq_none, List.mem_range] at nowhere
  have full : ∀ i ∈ Finset.range size, stored (fresh i) = 1 := by
    intro i below
    obtain ⟨j, bound, rfl⟩ := exists_slot sized hash entry.1 (Finset.mem_range.mp below)
    rcases ready.clean (slot hash size entry.1 j) with unused | ⟨found, filled⟩
    · exact absurd (by rw [unused]; rfl) (nowhere j bound)
    · rw [filled]
      rfl
  have counted : total size fresh = size := by
    rw [total, Finset.sum_congr rfl full]
    simp
  omega

end

variable [DecidableEq K]

theorem resume_calm (rehashes : map.writing = true) (reads : pc.reading = 0)
    (writes : pc.writing = 0) (resumed : resume hash map spurious pc = some (next, progress)) :
    Calm map next := by
  cases pc with
  | tryRead call =>
      simp only [resume] at resumed
      split at resumed <;> cases resumed <;> exact .refl map
  | tryReadExchange call expected =>
      simp only [resume, rehashes] at resumed
      cases resumed
      exact .refl map
  | tryWrite =>
      simp only [resume, rehashes, true_or, if_true] at resumed
      cases resumed
      exact .refl map
  | tryWriteExchange =>
      simp only [resume, rehashes, true_or, if_true] at resumed
      cases resumed
      exact .refl map
  | lowerLoad index reason =>
      cases resumed
      exact .refl map
  | lower index reason expected =>
      cases reason with
      | guard =>
          simp only [resume] at resumed
          split at resumed
          · rename_i same
            obtain ⟨rfl, _⟩ := same
            cases resumed
            refine ⟨rfl, fun i => ?_, fun i => ?_, fun i => ?_⟩
            · by_cases here : i = index
              · subst here
                simp
              · rw [setState_of_ne here]
            · by_cases here : i = index
              · subst here
                simp [Lower.state]
              · rw [setState_of_ne here]
            · by_cases here : i = index
              · subst here
                simp
              · rw [setState_of_ne here]
          · cases resumed
            exact .refl map
      | _ => simp [Pc.reading] at reads
  | rehashLoad index fresh | rehashWait index fresh | rehashMove index fresh | rehashSwap fresh =>
      simp [Pc.writing] at writes
  | unlockWrite => simp [Pc.writing] at writes
  | _ => simp [Pc.reading] at reads

omit [DecidableEq K] in
theorem place_eq_some {size : ℕ} {fresh moved : ℕ → Bucket K V} {entry : K × V}
    (placed : place hash size fresh entry = some moved) :
    ∃ i < size, (fresh (slot hash size entry.1 i)).state.state = .empty ∧
      (∀ j < i, (fresh (slot hash size entry.1 j)).state.state ≠ .empty) ∧
        moved = Function.update fresh (slot hash size entry.1 i) ⟨⟨0, .filled⟩, some entry⟩ := by
  simp only [place, Option.map_eq_some_iff] at placed
  obtain ⟨i, found, rfl⟩ := placed
  rw [List.find?_range_eq_some] at found
  obtain ⟨empty, below, earlier⟩ := found
  refine ⟨i, List.mem_range.mp below, by simpa using empty, ?_, rfl⟩
  intro j before
  simpa using earlier j before

omit [DecidableEq K] in
theorem Fresh.placed {size : ℕ} {fresh moved : ℕ → Bucket K V} {entry : K × V}
    (ready : Fresh size fresh) (sized : WellSized size)
    (placed : place hash size fresh entry = some moved) : Fresh size moved := by
  obtain ⟨i, _, _, _, rfl⟩ := place_eq_some placed
  have within := slot_lt sized hash entry.1 i
  constructor
  · intro index
    by_cases same : index = slot hash size entry.1 i
    · subst same
      exact .inr ⟨entry, by simp⟩
    · rw [Function.update_of_ne same]
      exact ready.clean index
  · intro index beyond
    rw [Function.update_of_ne (by omega)]
    exact ready.outside index beyond

omit [DecidableEq K] in
theorem total_placed {size : ℕ} {fresh moved : ℕ → Bucket K V} {entry : K × V}
    (ready : Fresh size fresh) (sized : WellSized size)
    (placed : place hash size fresh entry = some moved) :
    total size moved = total size fresh + 1 := by
  obtain ⟨i, _, empty, _, rfl⟩ := place_eq_some placed
  have within := slot_lt sized hash entry.1 i
  have added : total size (Function.update fresh (slot hash size entry.1 i)
      ⟨⟨0, .filled⟩, some entry⟩) + stored (fresh (slot hash size entry.1 i)) = _ :=
    total_update within
  have unused : stored (fresh (slot hash size entry.1 i)) = 0 := by
    rcases ready.clean (slot hash size entry.1 i) with unused | ⟨found, filled⟩
    · rw [unused]
      rfl
    · rw [filled] at empty
      contradiction
  rw [unused] at added
  exact added

/-- Passing a bucket, moved or not, keeps the account. -/
theorem resume_rehashing (sized : WellSized map.bucketCount) (standing : Rehashing map pc)
    (locks : Locks map pc next progress)
    (resumed : resume hash map spurious pc = some (next, progress))
    (writes : progress.writing = 1) : progress.Rehashing next := by
  cases pc with
  | tryWriteExchange =>
      simp only [resume] at resumed
      split at resumed <;> cases resumed
      · simp [Progress.writing] at writes
      · refine ⟨fun i below => absurd below (Nat.not_lt_zero i),
          ⟨fun _ => .inl rfl, fun _ _ => rfl⟩, ?_⟩
        exact (Finset.sum_const_zero).le
  | rehashLoad index fresh =>
      obtain ⟨scanned, ready, counted⟩ := standing
      simp only [resume] at resumed
      split at resumed
      · rename_i below
        split at resumed
        · rename_i filled
          cases resumed
          exact ⟨⟨scanned, ready, counted⟩, below, filled⟩
        · rename_i other
          cases resumed
          exact ⟨scanned.succ other, ready, counted.trans (Nat.le_succ _)⟩
      · rename_i all
        cases resumed
        exact ⟨fun i below => scanned i (by omega), ready⟩
  | rehashWait index fresh =>
      obtain ⟨refilled, below, filled⟩ := standing
      simp only [resume] at resumed
      split at resumed
      · rename_i unshared
        cases resumed
        refine ⟨refilled, below, ?_⟩
        have parts : (map.buckets index).state =
          ⟨(map.buckets index).state.refcount, (map.buckets index).state.state⟩ := rfl
        rw [parts, unshared, filled]
      · cases resumed
        exact ⟨refilled, below, filled⟩
  | rehashMove index fresh =>
      obtain ⟨⟨scanned, ready, counted⟩, below, filled⟩ := standing
      simp only [resume, Option.map_eq_some_iff] at resumed
      obtain ⟨entry, found, placed⟩ := resumed
      have room : total (2 * map.bucketCount) fresh < 2 * map.bucketCount := by omega
      have somewhere : (place hash _ fresh entry).isSome :=
        place_isSome ready sized.double room entry
      split at placed
      · rename_i nowhere
        simp [nowhere] at somewhere
      · rename_i moved placedAt
        cases placed
        have more := total_placed ready sized.double placedAt
        refine ⟨?_, ready.placed sized.double placedAt, more.trans_le (Nat.succ_le_succ counted)⟩
        refine Scanned.succ (fun i earlier => ?_) (by simp)
        have different : i ≠ index := by omega
        rw [setState_of_ne different]
        simpa [setEntry, Function.update_of_ne different] using scanned i earlier
  | rehashSwap fresh =>
      cases resumed
      trivial
  | unlockWrite =>
      cases resumed
      simp [Progress.writing] at writes
  | _ => simpa [Pc.writing] using locks.taken writes

/-! ## The pool -/

variable {Thread : Type*} [Fintype Thread] [DecidableEq Thread]
  {pool : Pool Thread (HashMap K V) (Option (Pc K V))} {thread : Thread}
  {finish : Option (Pc K V)}

/-- The lock counts the calls that hold it, every bucket obeys its law, and no
bucket outside the vector has been used. -/
structure Coherent (hash : K → UInt64) (pool : Pool Thread (HashMap K V) (Option (Pc K V))) :
    Prop where
  sized : WellSized pool.shared.bucketCount
  readers : tally readLocks pool.locals ≤ pool.shared.readers
  excludes : pool.shared.writing = true → pool.shared.readers = 0
  writer : tally writeLocks pool.locals = if pool.shared.writing then 1 else 0
  lawful : ∀ index, Law (pool.shared.buckets index) (pool.shared.guards index) fun role =>
    held (localClaims hash pool.shared.bucketCount) pool.locals (role, index)
  outside : ∀ index, pool.shared.bucketCount ≤ index →
    pool.shared.buckets index = emptyBucket K V
  known : ∀ thread pc, pool.locals thread = some pc → Known pc
  rehashing : ∀ thread pc, pool.locals thread = some pc → Rehashing pool.shared pc

namespace Coherent

omit [DecidableEq K] in
/-- The claims of one thread beside those of the others. -/
theorem lawful_thread (coherent : Coherent hash pool) (thread : Thread) :
    ∃ others, Lawful pool.shared others
        (localClaims hash pool.shared.bucketCount (pool.locals thread)) ∧
      ∀ (after : HashMap K V) (finish : Option (Pc K V)),
        Lawful after others (localClaims hash pool.shared.bucketCount finish) →
          ∀ index, Law (after.buckets index) (after.guards index) fun role =>
            held (localClaims hash pool.shared.bucketCount)
              (Function.update pool.locals thread finish) (role, index) := by
  obtain ⟨others, before, after⟩ :=
    exists_held_others (localClaims hash pool.shared.bucketCount) pool.locals thread
  refine ⟨others, fun index => ?_, fun map finish lawful index => ?_⟩
  · have law := coherent.lawful index
    simp only [before] at law
    exact law
  · have law := lawful index
    simp only [after]
    exact law

omit [DecidableEq K] [DecidableEq Thread] in
theorem holds {claim : Claim} (coherent : Coherent hash pool)
    (stands : pool.locals thread = some pc)
    (member : claim ∈ pc.claims hash pool.shared.bucketCount) :
    claim.2 < pool.shared.bucketCount ∧
      0 < held (localClaims hash pool.shared.bucketCount) pool.locals claim := by
  have positive : 0 < held (localClaims hash pool.shared.bucketCount) pool.locals claim := by
    have listed : claim ∈ localClaims hash pool.shared.bucketCount (pool.locals thread) := by
      rw [stands]
      exact member
    exact held_pos listed
  refine ⟨?_, positive⟩
  by_contra beyond
  have law := coherent.lawful claim.2
  rw [coherent.outside claim.2 (by omega)] at law
  have unused := law.unused claim.1
  simp only [Prod.mk.eta] at unused
  omega

omit [DecidableEq K] [DecidableEq Thread] in
theorem backed (coherent : Coherent hash pool) (stands : pool.locals thread = some pc) :
    Backed hash pool.shared pc where
  sized := coherent.sized
  known := coherent.known thread pc stands
  within _ member := (coherent.holds stands member).1
  seized index member := (coherent.lawful index).seized (coherent.holds stands member).2
  moving index fresh same := by
    have standing := coherent.rehashing thread pc stands
    rw [same] at standing
    exact ⟨standing.2.1, standing.2.2⟩

omit [DecidableEq K] [DecidableEq Thread] in
/-- Whoever rehashes holds the lock of the map. -/
theorem rehashes (coherent : Coherent hash pool) (stands : pool.locals thread = some pc)
    (writes : pc.writing = 1) : pool.shared.writing = true := by
  have weight : writeLocks (pool.locals thread) ≤ tally writeLocks pool.locals :=
    weight_le_tally thread
  have counted := coherent.writer
  have own : writeLocks (pool.locals thread) = 1 := by rw [stands]; exact writes
  by_contra free
  rw [if_neg free] at counted
  omega

omit [DecidableEq K] [DecidableEq Thread] in
/-- While somebody rehashes, nobody else holds the lock. -/
theorem excluded {other : Thread} (coherent : Coherent hash pool)
    (stands : pool.locals thread = some pc) (writes : pc.writing = 1) (different : other ≠ thread) :
    readLocks (pool.locals other) = 0 ∧ writeLocks (pool.locals other) = 0 := by
  have writing := coherent.rehashes stands writes
  have readers := coherent.readers
  rw [coherent.excludes writing] at readers
  have nobody := tally_eq_zero.mp (Nat.le_zero.mp readers) other
  refine ⟨nobody, ?_⟩
  have counted := coherent.writer
  rw [if_pos writing] at counted
  have own : writeLocks (pool.locals thread) = 1 := by rw [stands]; exact writes
  by_contra second
  have two : [thread, other].length ≤ tally writeLocks pool.locals := by
    refine length_le_tally (by simpa using different.symm) fun member listed => ?_
    rcases List.mem_pair.mp listed with rfl | rfl
    · exact own.ge
    · omega
  simp only [List.length_cons, List.length_nil] at two
  omega

end Coherent

/-- A thread begins a call or takes the next step of the one it is in. -/
theorem advance_eq_some {place : Option (Pc K V)} {choice : Choice (Call K V)}
    (advanced : advance hash map place choice = some (next, finish)) :
    (∃ call pc, place = none ∧ map.start call = some (next, pc) ∧ finish = some pc) ∨
      ∃ pc spurious after progress, place = some pc ∧
        resume hash map spurious pc = some (after, progress) ∧
          next = (after.settle progress).1 ∧ finish = (after.settle progress).2 := by
  cases place with
  | none =>
      cases choice with
      | call call =>
          simp only [advance, Option.map_eq_some_iff, Prod.mk.injEq] at advanced
          obtain ⟨begun, started, rfl, rfl⟩ := advanced
          exact .inl ⟨call, begun.2, rfl, started, rfl⟩
      | step spurious => contradiction
  | some pc =>
      cases choice with
      | call call => contradiction
      | step spurious =>
          simp only [advance, Option.map_eq_some_iff] at advanced
          obtain ⟨⟨after, progress⟩, resumed, settled⟩ := advanced
          change after.settle progress = (next, finish) at settled
          refine .inr ⟨pc, spurious, after, progress, rfl, resumed, ?_⟩
          rw [settled]
          exact ⟨rfl, rfl⟩

omit [DecidableEq K] in
theorem settle_fields (map : HashMap K V) (progress : Progress K V) :
    (map.settle progress).1.buckets = map.buckets ∧
      (map.settle progress).1.bucketCount = map.bucketCount ∧
      (map.settle progress).1.readers = map.readers ∧
      (map.settle progress).1.writing = map.writing ∧
      (map.settle progress).1.load = map.load := by
  cases progress with
  | running pc => exact ⟨rfl, rfl, rfl, rfl, rfl⟩
  | done outcome => cases outcome <;> exact ⟨rfl, rfl, rfl, rfl, rfl⟩

def Progress.place : Progress K V → Option (Pc K V)
  | .running pc => some pc
  | .done _ => none

omit [DecidableEq K] in
theorem settle_place (map : HashMap K V) (progress : Progress K V) :
    (map.settle progress).2 = progress.place := by
  cases progress with
  | running pc => rfl
  | done outcome => cases outcome <;> rfl

omit [DecidableEq K] in
theorem settle_locks (map : HashMap K V) (progress : Progress K V) :
    readLocks (map.settle progress).2 = progress.reading ∧
      writeLocks (map.settle progress).2 = progress.writing := by
  cases progress with
  | running pc => exact ⟨rfl, rfl⟩
  | done outcome => cases outcome <;> exact ⟨rfl, rfl⟩

omit [DecidableEq K] in
theorem settle_eq_some (settled : (map.settle progress).2 = some pc) : progress = .running pc := by
  cases progress with
  | running other =>
      cases settled
      rfl
  | done outcome => cases outcome <;> contradiction

omit [DecidableEq K] in
theorem rehashing_of_writing (writes : pc.writing = 1 → Rehashing map pc) : Rehashing map pc := by
  cases pc with
  | rehashLoad index fresh | rehashWait index fresh | rehashMove index fresh | rehashSwap fresh =>
      exact writes rfl
  | _ => trivial

namespace Coherent

omit [DecidableEq K] in
/-- The lock after a step of one thread. -/
theorem lockStep (coherent : Coherent hash pool) {finish : Option (Pc K V)}
    (readers : pool.shared.readers + readLocks finish ≤
      next.readers + readLocks (pool.locals thread))
    (writer : (if next.writing then 1 else 0) + writeLocks (pool.locals thread) =
      (if pool.shared.writing then 1 else 0) + writeLocks finish) :
    tally readLocks (Function.update pool.locals thread finish) ≤ next.readers ∧
      tally writeLocks (Function.update pool.locals thread finish) =
        if next.writing then 1 else 0 := by
  have before := coherent.readers
  have counted := coherent.writer
  have reads := tally_update readLocks pool.locals thread finish
  have writes := tally_update writeLocks pool.locals thread finish
  exact ⟨by omega, by omega⟩

theorem resume_keep (coherent : Coherent hash pool) (stands : pool.locals thread = some pc)
    (staying : ∀ fresh, pc ≠ .rehashSwap fresh)
    (resumed : resume hash pool.shared spurious pc = some (next, progress)) :
    Coherent hash { shared := (next.settle progress).1
                    locals := Function.update pool.locals thread (next.settle progress).2 } := by
  have backed := coherent.backed stands
  have keeps := resume_keeps backed staying resumed
  have locks := resume_locks (coherent.rehashes stands) resumed
  obtain ⟨bucketCount, guards, effect⟩ := keeps
  obtain ⟨buckets_eq, count_eq, readers_eq, writing_eq, _⟩ := settle_fields next progress
  obtain ⟨reads, writes⟩ := settle_locks next progress
  have ownReads : readLocks (pool.locals thread) = pc.reading := by rw [stands]; rfl
  have ownWrites : writeLocks (pool.locals thread) = pc.writing := by rw [stands]; rfl
  have lockStep :
      tally readLocks (Function.update pool.locals thread (next.settle progress).2) ≤
          (next.settle progress).1.readers ∧
        tally writeLocks (Function.update pool.locals thread (next.settle progress).2) =
          if (next.settle progress).1.writing then 1 else 0 := by
    refine coherent.lockStep ?_ ?_
    · rw [reads, readers_eq, ownReads]
      exact locks.readers
    · rw [writes, writing_eq, ownWrites]
      exact locks.writer
  refine ⟨?_, lockStep.1, ?_, lockStep.2, ?_, ?_, ?_, ?_⟩
  · simp only [count_eq, bucketCount]
    exact coherent.sized
  · simp only [writing_eq, readers_eq]
    exact locks.excludes coherent.excludes
  · obtain ⟨others, before, after⟩ := coherent.lawful_thread thread
    simp only [count_eq, bucketCount]
    rw [stands] at before
    refine after _ _ (Lawful.settle ?_)
    have lawful := before.effect ⟨bucketCount, guards, effect⟩
    exact lawful
  · intro index beyond
    simp only [count_eq, bucketCount, buckets_eq] at beyond ⊢
    generalize next.buckets = buckets at effect ⊢
    cases effect with
    | moves same => exact coherent.outside index beyond
    | touches within action before next =>
        rw [Function.update_of_ne (by omega)]
        exact coherent.outside index beyond
  · intro other pcOther standsOther
    by_cases same : other = thread
    · subst same
      simp only [Function.update_self] at standsOther
      have running := settle_eq_some standsOther
      have known := resume_known backed resumed
      rw [running] at known
      exact known
    · simp only [Function.update_of_ne same] at standsOther
      exact coherent.known other pcOther standsOther
  · intro other pcOther standsOther
    refine rehashing_of_writing fun writesOther => ?_
    by_cases same : other = thread
    · subst same
      simp only [Function.update_self] at standsOther
      have running := settle_eq_some standsOther
      subst running
      exact resume_rehashing coherent.sized (coherent.rehashing other pc stands) locks resumed
        writesOther
    · simp only [Function.update_of_ne same] at standsOther
      have free := coherent.excluded standsOther writesOther (Ne.symm same)
      rw [ownReads, ownWrites] at free
      have calm := resume_calm (coherent.rehashes standsOther writesOther) free.1 free.2 resumed
      exact (calm.settle progress).rehashing (coherent.rehashing other pcOther standsOther)

omit [DecidableEq K] in
/-- A call that holds the lock for nobody holds at most a reference. -/
theorem visiting_of_free (free : pc.reading = 0) {claim : Claim} {size : ℕ}
    (member : claim ∈ pc.claims hash size) : claim.1 = .visiting := by
  cases pc with
  | lowerLoad index reason =>
      cases reason with
      | guard =>
          simpa [Pc.claims, Lower.claims] using congrArg Prod.fst (List.mem_singleton.mp member)
      | _ => simp [Pc.reading] at free
  | lower index reason expected =>
      cases reason with
      | guard =>
          simpa [Pc.claims, Lower.claims] using congrArg Prod.fst (List.mem_singleton.mp member)
      | _ => simp [Pc.reading] at free
  | tryRead call | tryReadExchange call expected | tryWrite | tryWriteExchange
  | rehashLoad index fresh | rehashWait index fresh | rehashMove index fresh | rehashSwap fresh
  | unlockWrite => simp [Pc.claims] at member
  | _ => simp [Pc.reading] at free

omit [DecidableEq K] in
theorem claims_resize {size other : ℕ} (nothing : pc.claims hash size = []) :
    pc.claims hash other = [] := by
  cases pc with
  | insertCompare key value i claim => simp [Pc.claims] at nothing
  | removeCompare key i => simp [Pc.claims] at nothing
  | getCompare key contains i => simp [Pc.claims] at nothing
  | _ => exact nothing

omit [DecidableEq K] [DecidableEq Thread] in
/-- When a rehash has passed all buckets, no guard is alive and nobody holds a
claim. -/
theorem swap_unclaimed {fresh : ℕ → Bucket K V} (coherent : Coherent hash pool)
    (stands : pool.locals thread = some (.rehashSwap fresh)) :
    (∀ index, pool.shared.guards index = 0) ∧
      ∀ other, localClaims hash pool.shared.bucketCount (pool.locals other) = [] := by
  have standing : Scanned pool.shared pool.shared.bucketCount ∧ _ :=
    coherent.rehashing thread _ stands
  have readers := coherent.readers
  rw [coherent.excludes (coherent.rehashes stands rfl)] at readers
  have visits (role : Role) (index : ℕ) (other : role ≠ .visiting) :
      held (localClaims hash pool.shared.bucketCount) pool.locals (role, index) = 0 := by
    refine held_eq_zero.mpr fun owner member => ?_
    have free := tally_eq_zero.mp (Nat.le_zero.mp readers) owner
    cases standsOwner : pool.locals owner with
    | none => simp [standsOwner, localClaims] at member
    | some pc =>
        rw [standsOwner] at free member
        exact other (visiting_of_free free member)
  have idle (index : ℕ) : pool.shared.guards index = 0 ∧
      held (localClaims hash pool.shared.bucketCount) pool.locals (.visiting, index) = 0 := by
    refine (coherent.lawful index).idle (fun role => visits role index) ?_
    by_cases below : index < pool.shared.bucketCount
    · exact standing.1 index below
    · rw [coherent.outside index (by omega)]
      simp [emptyBucket]
  refine ⟨fun index => (idle index).1, fun other => List.eq_nil_iff_forall_not_mem.mpr ?_⟩
  intro claim
  obtain ⟨role, index⟩ := claim
  by_cases visiting : role = .visiting
  · subst visiting
    exact held_eq_zero.mp (idle index).2 other
  · exact held_eq_zero.mp (visits role index visiting) other

omit [DecidableEq K] in
theorem swap {fresh : ℕ → Bucket K V} (coherent : Coherent hash pool)
    (stands : pool.locals thread = some (.rehashSwap fresh)) :
    Coherent hash
      { shared := { pool.shared with
          buckets := fresh
          bucketCount := 2 * pool.shared.bucketCount }
        locals := Function.update pool.locals thread (some .unlockWrite) } := by
  obtain ⟨unguarded, unclaimed⟩ := coherent.swap_unclaimed stands
  obtain ⟨_, ready⟩ : Scanned pool.shared pool.shared.bucketCount ∧
      Fresh (2 * pool.shared.bucketCount) fresh := coherent.rehashing thread _ stands
  have claimless (index : ℕ) (role : Role) :
      held (localClaims hash (2 * pool.shared.bucketCount))
        (Function.update pool.locals thread (some .unlockWrite)) (role, index) = 0 := by
    refine held_eq_zero.mpr fun other => ?_
    by_cases same : other = thread
    · subst same
      simp [localClaims, Pc.claims]
    · rw [Function.update_of_ne same]
      have nothing := unclaimed other
      cases standsOther : pool.locals other with
      | none => simp [localClaims]
      | some pc =>
          rw [standsOther] at nothing
          simp [localClaims, claims_resize nothing]
  have lockStep :
      tally readLocks (Function.update pool.locals thread (some .unlockWrite)) ≤
          pool.shared.readers ∧
        tally writeLocks (Function.update pool.locals thread (some .unlockWrite)) =
          if pool.shared.writing then 1 else 0 := by
    refine coherent.lockStep ?_ ?_
    · rw [stands]
      exact Nat.le_refl _
    · rw [stands]
      rfl
  refine ⟨coherent.sized.double, lockStep.1, coherent.excludes, lockStep.2, ?_, ready.outside,
    ?_, ?_⟩
  · intro index
    simp only [claimless, unguarded]
    rcases ready.clean index with unused | ⟨entry, filled⟩
    · rw [unused]
      constructor <;> simp [emptyBucket]
    · rw [filled]
      constructor <;> simp
  · intro other pcOther standsOther
    by_cases same : other = thread
    · subst same
      simp only [Function.update_self, Option.some.injEq] at standsOther
      subst standsOther
      trivial
    · simp only [Function.update_of_ne same] at standsOther
      exact coherent.known other pcOther standsOther
  · intro other pcOther standsOther
    refine rehashing_of_writing fun writesOther => ?_
    by_cases same : other = thread
    · subst same
      simp only [Function.update_self, Option.some.injEq] at standsOther
      subst standsOther
      trivial
    · simp only [Function.update_of_ne same] at standsOther
      have free := coherent.excluded stands rfl same
      rw [standsOther] at free
      simp only [writeLocks] at free
      omega

omit [DecidableEq K] in
theorem start (coherent : Coherent hash pool) (outside : pool.locals thread = none)
    {call : Call K V} (started : pool.shared.start call = some (next, pc)) :
    Coherent hash { shared := next, locals := Function.update pool.locals thread (some pc) } := by
  have calm := Calm.start started
  obtain ⟨readers, writing, buckets⟩ : next.readers = pool.shared.readers ∧
      next.writing = pool.shared.writing ∧ next.buckets = pool.shared.buckets := by
    cases call with
    | drop index =>
        simp only [HashMap.start] at started
        split at started
        · cases started
          exact ⟨rfl, rfl, rfl⟩
        · contradiction
    | _ =>
        cases started
        exact ⟨rfl, rfl, rfl⟩
  obtain ⟨reads, writes, knows⟩ : pc.reading = 0 ∧ pc.writing = 0 ∧ Known pc := by
    cases call with
    | drop index =>
        simp only [HashMap.start] at started
        split at started
        · cases started
          exact ⟨rfl, rfl, trivial⟩
        · contradiction
    | _ =>
        cases started
        exact ⟨rfl, rfl, trivial⟩
  have lockStep :
      tally readLocks (Function.update pool.locals thread (some pc)) ≤ next.readers ∧
        tally writeLocks (Function.update pool.locals thread (some pc)) =
          if next.writing then 1 else 0 := by
    refine coherent.lockStep ?_ ?_
    · rw [readers, outside]
      simp [readLocks, reads]
    · rw [writing, outside]
      simp [writeLocks, writes]
  refine ⟨calm.bucketCount ▸ coherent.sized, lockStep.1, ?_, lockStep.2, ?_, ?_, ?_, ?_⟩
  · simp only [readers, writing]
    exact coherent.excludes
  · obtain ⟨others, before, after⟩ := coherent.lawful_thread thread
    rw [outside] at before
    have lawful : Lawful next others
        (localClaims hash pool.shared.bucketCount (some pc)) := before.start started
    simp only [calm.bucketCount]
    exact after next (some pc) lawful
  · simp only [calm.bucketCount, buckets]
    exact coherent.outside
  · intro other pcOther standsOther
    by_cases same : other = thread
    · subst same
      simp only [Function.update_self, Option.some.injEq] at standsOther
      exact standsOther ▸ knows
    · simp only [Function.update_of_ne same] at standsOther
      exact coherent.known other pcOther standsOther
  · intro other pcOther standsOther
    by_cases same : other = thread
    · subst same
      simp only [Function.update_self, Option.some.injEq] at standsOther
      subst standsOther
      exact rehashing_of_writing fun writesOther => by omega
    · simp only [Function.update_of_ne same] at standsOther
      exact calm.rehashing (coherent.rehashing other pcOther standsOther)

theorem step (coherent : Coherent hash pool) {choice : Choice (Call K V)}
    (advanced : advance hash pool.shared (pool.locals thread) choice = some (next, finish)) :
    Coherent hash { shared := next, locals := Function.update pool.locals thread finish } := by
  rcases advance_eq_some advanced with ⟨call, pc, stands, started, rfl⟩ |
    ⟨pc, spurious, after, progress, stands, resumed, rfl, rfl⟩
  · exact coherent.start stands started
  · by_cases swaps : ∃ fresh, pc = .rehashSwap fresh
    · obtain ⟨fresh, rfl⟩ := swaps
      cases resumed
      exact coherent.swap stands
    · exact coherent.resume_keep stands (fun fresh same => swaps ⟨fresh, same⟩) resumed

end Coherent

omit [DecidableEq K] [DecidableEq Thread] in
theorem coherent_unused : Coherent hash (unused Thread K V) where
  sized := WellSized.initial
  readers := by simp [tally, unused, readLocks]
  excludes := by simp [unused, create]
  writer := by simp [tally, unused, writeLocks, create]
  lawful index := by
    constructor <;> simp [unused, create, emptyBucket, held, tally, localClaims]
  outside _ _ := rfl
  known thread pc stands := by simp [unused] at stands
  rehashing thread pc stands := by simp [unused] at stands

theorem coherent_of_reachable
    {guard : Pool Thread (HashMap K V) (Option (Pc K V)) → Thread × Choice (Call K V) → Prop}
    (reachable : (machine Thread V hash).Reachable guard pool) : Coherent hash pool := by
  refine Program.invariant reachable ?_ ?_
  · intro first started
    cases started
    exact coherent_unused
  · intro pool thread choice shared finish coherent _ advanced
    exact coherent.step advanced

end Asco.Concurrency.HashMap
