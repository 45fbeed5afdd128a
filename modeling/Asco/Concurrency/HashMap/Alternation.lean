import Asco.Concurrency.HashMap.Accounting
import Asco.Concurrency.HashMap.Uniqueness

namespace Asco.Concurrency.HashMap

open Foundation

/-! # Insertions of one key

While the claims come in order, a key that an insertion has constructed stays in the
vector, or in the one that a rehash fills, until a removal has drained its bucket.  No
other insertion of the key comes to its construction before that.
-/

variable {K V : Type*} {hash : K → UInt64} {map next : HashMap K V} {pc : Pc K V}
  {progress : Progress K V} {spurious : Bool} {key : K} {index : ℕ} {others : Claim → ℕ}

/-- The key that the next step gives up: the removal gets the bucket for itself, and all
it has yet to do is to move the entry out and to return it. -/
def draining (map : HashMap K V) (spurious : Bool) : Pc K V → Option K
  | .removeDrain index expected =>
      if (map.buckets index).state = expected ∧ spurious = false then
        (map.buckets index).entry.map Prod.fst
      else none
  | _ => none

/-! ## What one step leaves of the keys -/

/-- Only a removal that drains the bucket takes the key away where the entry stays. -/
theorem Law.stores_after {bucket after : Bucket K V} {guards : ℕ} {roles : Role → ℕ}
    {lost gained : Option Role} (law : Law bucket guards (joined roles lost))
    (action : Action bucket lost gained after) (kept : after.entry = bucket.entry)
    (stores : Stores bucket key) :
    Stores after key ∨ lost = some .seizing ∧ gained = some .emptying := by
  obtain ⟨undrained, value, found⟩ := stores
  have remains : after.entry = some (key, value) := kept.trans found
  cases action with
  | lower =>
      refine .inl ⟨fun last => ?_, value, remains⟩
      simp only [BucketState.mk.injEq] at last
      obtain ⟨single, predestructing⟩ := last
      -- the removal that has seized the bucket holds a reference of its own
      have counted := law.counted
      have removed := law.removed
      have drained := law.drained
      simp [joined, predestructing] at counted removed drained
      omega
  | drain last => exact .inr ⟨rfl, rfl⟩
  | take present => contradiction
  | relocate filled present => contradiction
  | construct entry => exact .inl ⟨undrained, value, remains⟩
  | raise | seize | revert | bury | claimEmpty | claimTombstone | giveUp | publish =>
      exact .inl ⟨by simp, value, remains⟩

theorem Effect.stores_after {buckets : ℕ → Bucket K V}
    (effect : Effect hash map pc buckets progress)
    (lawful : Lawful map others (pc.claims hash map.bucketCount))
    (kept : (buckets index).entry = (map.buckets index).entry)
    (stores : Stores (map.buckets index) key) :
    Stores (buckets index) key ∨ ∃ rest,
      pc.claims hash map.bucketCount = (.seizing, index) :: rest ∧
        progress.claims hash map.bucketCount = (.emptying, index) :: rest := by
  have law := lawful index
  cases effect with
  | moves same => exact .inl stores
  | @touches _ touched lost gained after rest within action before next =>
      by_cases same : index = touched
      · subst same
        rw [before, count_joined] at law
        rw [Function.update_self] at kept ⊢
        rcases law.stores_after action kept stores with remains | ⟨rfl, rfl⟩
        · exact .inl remains
        · exact .inr ⟨rest, before, next⟩
      · rw [Function.update_of_ne same]
        exact .inl stores

variable [DecidableEq K]

/-- The exchange of a removal alone makes it the owner of a bucket. -/
theorem eq_removeDrain {rest : List Claim}
    (resumed : resume hash map spurious pc = some (next, progress))
    (seizes : pc.claims hash map.bucketCount = (.seizing, index) :: rest)
    (empties : progress.claims hash map.bucketCount = (.emptying, index) :: rest) :
    ∃ expected, pc = .removeDrain index expected ∧ (map.buckets index).state = expected ∧
      spurious = false := by
  cases pc with
  | removeDrain touched expected =>
      cases seizes
      simp only [resume] at resumed
      split at resumed <;> cases resumed
      · rename_i same
        exact ⟨expected, rfl, same⟩
      · cases empties
  | removeCompare other i =>
      simp only [resume, Option.map_eq_some_iff] at resumed
      obtain ⟨entry, _, compared⟩ := resumed
      split at compared <;> cases compared <;> cases empties
  | removeConfirm touched | removeDrainLoad touched =>
      simp only [resume] at resumed
      split at resumed <;> cases resumed <;> cases empties
  | lowerLoad touched reason =>
      cases resumed
      cases seizes.symm.trans empties
  | lower touched reason expected =>
      simp only [resume] at resumed
      split at resumed <;> cases resumed
      · have nothing : (map.lowered reason).claims hash map.bucketCount = _ :=
          lowered_claims reason touched map.bucketCount
        rw [empties] at nothing
        cases reason with
        | removeOther | removeReverted | removeProtected => cases nothing
        | _ => cases seizes
      · cases seizes.symm.trans empties
  | insertRaise other value i claim refcount => cases claim <;> cases seizes
  | unlockRead outcome => cases outcome <;> cases seizes
  | _ => cases seizes

/-- Where the entries stay, only a removal that drains its bucket takes a key away. -/
theorem resume_quiet_stores (backed : Backed hash map pc)
    (lawful : Lawful map others (pc.claims hash map.bucketCount))
    (quiet : pc.rearranges = false)
    (resumed : resume hash map spurious pc = some (next, progress))
    (undrained : draining map spurious pc ≠ some key)
    (stores : Stores (map.buckets index) key) : Stores (next.buckets index) key := by
  have staying (fresh : ℕ → Bucket K V) : pc ≠ .rehashSwap fresh := by
    rintro rfl
    contradiction
  have keeps := resume_keeps backed staying resumed
  have kept := resume_entries quiet resumed index
  rcases keeps.2.2.stores_after lawful kept stores with remains | ⟨rest, seizes, empties⟩
  · exact remains
  · obtain ⟨expected, rfl, same, exchanged⟩ := eq_removeDrain resumed seizes empties
    obtain ⟨_, value, found⟩ := stores
    refine absurd ?_ undrained
    rw [draining, if_pos ⟨same, exchanged⟩, found]
    rfl

/-- The vector that a rehash fills stores the key. -/
def Carries (key : K) (place : Option (Pc K V)) : Prop :=
  ∃ fresh index, place.bind Pc.fresh = some fresh ∧ Stores (fresh index) key

omit [DecidableEq K] in
/-- The moved entry is in the new vector, and what was there has stayed. -/
theorem place_stores {size : ℕ} {fresh moved : ℕ → Bucket K V} {entry : K × V}
    (ready : Fresh size fresh) (placed : place hash size fresh entry = some moved)
    (stores : entry.1 = key ∨ Stores (fresh index) key) : ∃ place, Stores (moved place) key := by
  obtain ⟨i, _, empty, _, rfl⟩ := place_eq_some placed
  rcases stores with rfl | stores
  · refine ⟨slot hash size entry.1 i, ?_⟩
    rw [Function.update_self]
    exact ⟨by simp, entry.2, rfl⟩
  · have elsewhere : index ≠ slot hash size entry.1 i := by
      rintro rfl
      rcases ready.clean (slot hash size entry.1 i) with unused | ⟨found, filled⟩
      · rw [unused] at stores
        exact unused_stores stores
      · rw [filled] at empty
        contradiction
    refine ⟨index, ?_⟩
    rw [Function.update_of_ne elsewhere]
    exact stores

/-- What a rehash has brought into the new vector stays there. -/
theorem resume_carries (standing : Rehashing map pc)
    (staying : ∀ buckets, pc ≠ .rehashSwap buckets)
    (resumed : resume hash map spurious pc = some (next, progress))
    (carries : Carries key (some pc)) : Carries key progress.place := by
  obtain ⟨fresh, index, fills, stores⟩ := carries
  cases pc with
  | rehashLoad touched buckets =>
      cases fills
      simp only [resume] at resumed
      split at resumed
      · split at resumed <;> cases resumed <;> exact ⟨fresh, index, rfl, stores⟩
      · cases resumed
        exact ⟨fresh, index, rfl, stores⟩
  | rehashWait touched buckets =>
      cases fills
      simp only [resume] at resumed
      split at resumed <;> cases resumed <;> exact ⟨fresh, index, rfl, stores⟩
  | rehashMove touched buckets =>
      cases fills
      obtain ⟨refilled, _⟩ : Refilled map touched fresh ∧ _ := standing
      simp only [resume, Option.map_eq_some_iff] at resumed
      obtain ⟨entry, _, placed⟩ := resumed
      split at placed
      · cases placed
        exact ⟨fresh, index, rfl, stores⟩
      · rename_i moved somewhere
        cases placed
        obtain ⟨place, there⟩ := place_stores refilled.ready somewhere (.inr stores)
        exact ⟨moved, place, rfl, there⟩
  | rehashSwap buckets => exact absurd rfl (staying buckets)
  | _ => contradiction

omit [DecidableEq K] in
/-- A bucket that has been drained stores no key. -/
theorem Law.drained_state {bucket : Bucket K V} {guards : ℕ} {roles : Role → ℕ}
    (law : Law bucket guards roles) (held : roles .emptying + roles .burying ≠ 0) :
    bucket.state = ⟨0, .predestructing⟩ := by
  have removed := law.removed
  have refcount := law.drained held
  have state : bucket.state.state = .predestructing := by
    by_contra other
    rw [if_neg other] at removed
    omega
  rw [← refcount, ← state]

/-- A key that the vector stores is stored there or in the new vector after the step. -/
theorem resume_stored (backed : Backed hash map pc)
    (lawful : Lawful map others (pc.claims hash map.bucketCount)) (standing : Rehashing map pc)
    (staying : ∀ fresh, pc ≠ .rehashSwap fresh)
    (resumed : resume hash map spurious pc = some (next, progress))
    (undrained : draining map spurious pc ≠ some key) (stores : Stores (map.buckets index) key) :
    Stores (next.buckets index) key ∨ Carries key progress.place := by
  cases pc with
  | insertConstruct other value claim =>
      cases resumed
      have unbuilt : (map.buckets claim).entry = none :=
        lawful.unbuilt (by simp [Pc.claims])
      have elsewhere : index ≠ claim := by
        rintro rfl
        obtain ⟨_, _, found⟩ := stores
        rw [unbuilt] at found
        contradiction
      rw [setEntry_of_ne elsewhere]
      exact .inl stores
  | removeTake touched =>
      simp only [resume, Option.map_eq_some_iff, Prod.mk.injEq] at resumed
      obtain ⟨_, _, rfl, _⟩ := resumed
      have drained : (map.buckets touched).state = ⟨0, .predestructing⟩ :=
        (lawful touched).drained_state (by simp [Pc.claims])
      have elsewhere : index ≠ touched := by
        rintro rfl
        exact stores.1 drained
      rw [setEntry_of_ne elsewhere]
      exact .inl stores
  | rehashMove touched fresh =>
      obtain ⟨refilled, _⟩ : Refilled map touched fresh ∧ _ := standing
      simp only [resume, Option.map_eq_some_iff] at resumed
      obtain ⟨entry, found, placed⟩ := resumed
      split at placed
      · cases placed
        exact .inl stores
      · rename_i moved somewhere
        cases placed
        by_cases same : index = touched
        · subst same
          obtain ⟨_, value, stored⟩ := stores
          rw [found] at stored
          cases stored
          have moves : key = key ∨ Stores (fresh index) key := .inl rfl
          obtain ⟨place, there⟩ := place_stores refilled.ready somewhere moves
          exact .inr ⟨moved, place, rfl, there⟩
        · rw [setState_of_ne same, setEntry_of_ne same]
          exact .inl stores
  | rehashSwap fresh => exact absurd rfl (staying fresh)
  | _ => exact .inl (resume_quiet_stores backed lawful rfl resumed undrained stores)

omit [DecidableEq K] in
theorem start_buckets {call : Call K V} (started : map.start call = some (next, pc)) :
    next.buckets = map.buckets := by
  cases call with
  | drop touched =>
      simp only [HashMap.start] at started
      split at started <;> cases started
      rfl
  | _ =>
      cases started
      rfl

/-! ## Until a removal drains the bucket -/

variable {Thread : Type*} [Fintype Thread] [DecidableEq Thread]
  {pool first last : Pool Thread (HashMap K V) (Option (Pc K V))} {thread : Thread}
  {finish : Option (Pc K V)} {choice : Choice (Call K V)} {value : V}

section

variable (pool : Pool Thread (HashMap K V) (Option (Pc K V))) (key : K)

/-- The map has the key, or a rehash has brought it into the new vector. -/
def InHand : Prop :=
  (∃ index, Stores (pool.shared.buckets index) key) ∨
    ∃ thread, Carries key (pool.locals thread)

/-- The step drains the bucket of the key for a removal. -/
def Drains (label : Thread × Choice (Call K V)) : Prop :=
  ∃ pc spurious, pool.locals label.1 = some pc ∧ label.2 = .step spurious ∧
    draining pool.shared spurious pc = some key

end

omit [DecidableEq K] in
theorem writes_of_carries {place : Option (Pc K V)} (carries : Carries key place) :
    ∃ pc, place = some pc ∧ pc.writing = 1 := by
  obtain ⟨fresh, _, fills, _⟩ := carries
  obtain ⟨pc, stands, fills⟩ := Option.bind_eq_some_iff.mp fills
  exact ⟨pc, stands, writing_of_fresh fills⟩

namespace InHand

omit [DecidableEq K] [Fintype Thread] in
theorem start {call : Call K V} (inHand : InHand pool key)
    (outside : pool.locals thread = none) (started : pool.shared.start call = some (next, pc)) :
    InHand ⟨next, Function.update pool.locals thread (some pc)⟩ key := by
  rcases inHand with ⟨index, stores⟩ | ⟨other, carries⟩
  · refine .inl ⟨index, ?_⟩
    rw [start_buckets started]
    exact stores
  · have own : other ≠ thread := by
      rintro rfl
      obtain ⟨_, stands, _⟩ := writes_of_carries carries
      rw [outside] at stands
      contradiction
    refine .inr ⟨other, ?_⟩
    simpa only [Function.update_of_ne own] using carries

omit [DecidableEq K] in
/-- When the vectors are exchanged, the old one has no key left. -/
theorem swap {fresh : ℕ → Bucket K V} (inHand : InHand pool key) (coherent : Coherent hash pool)
    (stands : pool.locals thread = some (.rehashSwap fresh)) :
    InHand
      { shared := { pool.shared with
          buckets := fresh
          bucketCount := 2 * pool.shared.bucketCount }
        locals := Function.update pool.locals thread (some .unlockWrite) } key := by
  rcases inHand with ⟨index, _, value, found⟩ | ⟨other, carries⟩
  · have vacant : (pool.shared.buckets index).entry = none := by
      by_cases below : index < pool.shared.bucketCount
      · obtain ⟨scanned, _⟩ : Scanned pool.shared pool.shared.bucketCount ∧ _ :=
          coherent.rehashing thread _ stands
        obtain ⟨_, unclaimed⟩ := coherent.swap_unclaimed stands
        refine (coherent.lawful index).vacant (fun role => ?_) (scanned index below)
        exact held_eq_zero.mpr fun other => by simp [unclaimed other]
      · rw [coherent.outside index (Nat.le_of_not_lt below)]
        rfl
    rw [vacant] at found
    contradiction
  · have own : other = thread := by
      by_contra different
      obtain ⟨pc, standsOther, writes⟩ := writes_of_carries carries
      have free := (coherent.excluded stands rfl different).2
      rw [standsOther] at free
      exact absurd (writes.symm.trans free) (by decide)
    subst own
    rw [stands] at carries
    obtain ⟨_, index, fills, stores⟩ := carries
    cases fills
    exact .inl ⟨index, stores⟩

theorem resume_keep (inHand : InHand pool key) (coherent : Coherent hash pool)
    (stands : pool.locals thread = some pc) (staying : ∀ fresh, pc ≠ .rehashSwap fresh)
    (undrained : ¬ Drains pool key (thread, .step spurious))
    (resumed : resume hash pool.shared spurious pc = some (next, progress)) :
    InHand ⟨(next.settle progress).1, Function.update pool.locals thread (next.settle progress).2⟩
      key := by
  have standing := coherent.rehashing thread pc stands
  obtain ⟨sameBuckets, _⟩ := settle_fields next progress
  have carried (carries : Carries key progress.place) :
      InHand ⟨(next.settle progress).1,
        Function.update pool.locals thread (next.settle progress).2⟩ key := by
    refine .inr ⟨thread, ?_⟩
    simpa only [Function.update_self, settle_place] using carries
  rcases inHand with ⟨index, stores⟩ | ⟨other, carries⟩
  · obtain ⟨others, lawful, _⟩ := coherent.lawful_thread thread
    rw [stands] at lawful
    have notDrained : draining pool.shared spurious pc ≠ some key := fun drains =>
      undrained ⟨pc, spurious, stands, rfl, drains⟩
    rcases resume_stored (coherent.backed stands) lawful standing staying resumed notDrained
      stores with remains | carries
    · refine .inl ⟨index, ?_⟩
      rw [sameBuckets]
      exact remains
    · exact carried carries
  · by_cases own : other = thread
    · subst own
      rw [stands] at carries
      exact carried (resume_carries standing staying resumed carries)
    · refine .inr ⟨other, ?_⟩
      simpa only [Function.update_of_ne own] using carries

theorem step (inHand : InHand pool key) (coherent : Coherent hash pool)
    (undrained : ¬ Drains pool key (thread, choice))
    (advanced : advance hash pool.shared (pool.locals thread) choice = some (next, finish)) :
    InHand ⟨next, Function.update pool.locals thread finish⟩ key := by
  rcases advance_cases advanced with ⟨call, pc, outside, started, rfl⟩ |
    ⟨fresh, stands, rfl, rfl⟩ |
    ⟨pc, spurious, after, progress, stands, rfl, staying, resumed, rfl, rfl⟩
  · exact inHand.start outside started
  · exact inHand.swap coherent stands
  · exact inHand.resume_keep coherent stands staying undrained resumed

end InHand

/-- An insertion brings its key into the map. -/
theorem InHand.constructed {claim : ℕ} (coherent : Coherent hash pool)
    (stands : pool.locals thread = some (.insertConstruct key value claim))
    (moved : (machine Thread V hash).move pool (thread, .step spurious) = some last) :
    InHand last key := by
  obtain ⟨shared, finish, advanced, rfl⟩ := Program.move_eq_some.mp moved
  have constructing := (coherent.constructing stands rfl).1
  rw [stands] at advanced
  cases advanced
  refine .inl ⟨claim, fun drained => ?_, value, by simp [setEntry]⟩
  simp only [setEntry, Function.update_self] at drained
  rw [drained] at constructing
  contradiction

omit [DecidableEq K] in
/-- With the key in the map no insertion is about to construct it once more. -/
theorem Ordered.not_constructing {claim : ℕ} (ordered : Ordered hash pool)
    (coherent : Coherent hash pool) (inHand : InHand pool key) :
    pool.locals thread ≠ some (.insertConstruct key value claim) := by
  intro stands
  have walks : (Pc.insertConstruct key value claim).walk pool.shared.bucketCount =
      some ⟨key, some claim, pool.shared.bucketCount⟩ := rfl
  rcases inHand with ⟨index, stores⟩ | ⟨other, carries⟩
  · have unbuilt := (coherent.constructing stands walks).2
    have belowClaim : claim < pool.shared.bucketCount :=
      (coherent.backed stands).within (.building, claim) (by simp [Pc.claims])
    obtain ⟨p, belowP, rfl⟩ := exists_slot coherent.sized hash key (coherent.lt_of_stores stores)
    obtain ⟨q, belowQ, visits⟩ := exists_slot coherent.sized hash key belowClaim
    have claimed {least : ℕ} (bound : least ≤ pool.shared.bucketCount) :
        Taken pool key (slot hash pool.shared.bucketCount key q) least := by
      rw [visits]
      exact .inr ⟨thread, _, _, stands, walks, bound⟩
    rcases Nat.lt_trichotomy p q with before | rfl | after
    · exact ordered.apart key p q before belowQ (.inl stores) (claimed (Nat.zero_le _))
    · obtain ⟨_, _, found⟩ := stores
      rw [visits, unbuilt] at found
      contradiction
    · exact ordered.apart key q p after belowP (claimed belowP) (.inl stores)
  · obtain ⟨pc, standsOther, writes⟩ := writes_of_carries carries
    by_cases own : thread = other
    · subst own
      rw [stands] at standsOther
      cases standsOther
      contradiction
    · have free := (coherent.excluded standsOther writes own).1
      rw [stands] at free
      contradiction

/-- A key that is in the map stays there along every run in which no removal drains its
bucket. -/
theorem inHand_of_run
    (reachable : (machine Thread V hash).Reachable (ClaimsInOrder hash) first)
    (run : (machine Thread V hash).Run
      (fun pool label => ClaimsInOrder hash pool label ∧ ¬ Drains pool key label) first last)
    (inHand : InHand first key) :
    (machine Thread V hash).Reachable (ClaimsInOrder hash) last ∧ InHand last key := by
  refine run.reachable_preserves (InHand · key) reachable (fun _ _ guarded => guarded.1) ?_ inHand
  rintro pool ⟨thread, choice⟩ next reached inHand ⟨_, undrained⟩ moved
  obtain ⟨shared, finish, advanced, rfl⟩ := Program.move_eq_some.mp moved
  exact inHand.step (coherent_of_reachable reached) undrained advanced

/-- No two filled buckets have one key.  And when an insertion constructs its entry, which
is what makes it return `true`, no other insertion of the key comes to do so before a
removal has drained the bucket of the key. -/
structure UniqueKeys (hash : K → UInt64) (pool : Pool Thread (HashMap K V) (Option (Pc K V))) :
    Prop where
  unique : ∀ key i j, Present (pool.shared.buckets i) key → Present (pool.shared.buckets j) key →
    i = j
  alternate : ∀ thread key value claim spurious first last,
    pool.locals thread = some (.insertConstruct key value claim) →
      (machine Thread V hash).move pool (thread, .step spurious) = some first →
        (machine Thread V hash).Run
          (fun pool label => ClaimsInOrder hash pool label ∧ ¬ Drains pool key label) first last →
            ∀ other held place, last.locals other ≠ some (.insertConstruct key held place)

/-- While the claims come in order, the keys are unique. -/
theorem uniqueKeys_of_claimsInOrder
    (reachable : (machine Thread V hash).Reachable (ClaimsInOrder hash) pool) :
    UniqueKeys hash pool := by
  constructor
  · intro key i j here there
    exact present_unique_of_reachable reachable here there
  · intro thread key value claim spurious first last stands moved run other held place
    have inOrder : ClaimsInOrder hash pool (thread, .step spurious) := by
      intro pc _ _ _ standsPc _ claims
      rw [stands] at standsPc
      cases standsPc
      contradiction
    obtain ⟨reachedLast, inHand⟩ := inHand_of_run (reachable.step inOrder moved) run
      (.constructed (coherent_of_reachable reachable) stands moved)
    exact (ordered_of_reachable reachedLast).not_constructing
      (coherent_of_reachable reachedLast) inHand

/-- Two insertions of 5 have both succeeded, and 5 has not been removed. -/
theorem keys_not_unique : ¬ ∀ pool : Pool (Fin 2) (HashMap ℕ ℕ) (Option (Pc ℕ ℕ)),
    (machine (Fin 2) ℕ UInt64.ofNat).Reachable Machine.free pool → ∀ key i j,
      Present (pool.shared.buckets i) key → Present (pool.shared.buckets j) key → i = j := by
  intro unique
  obtain ⟨pool, reachable, _, here, there⟩ := exists_equal_keys
  exact absurd (unique pool reachable 5 5 24 here there) (by decide)

/-- 69 is in the map, and an insertion of 5 that has passed it is about to construct. -/
theorem uniqueKeys_of_claimsInOrder_passing :
    ∃ pool : Pool (Fin 2) (HashMap ℕ ℕ) (Option (Pc ℕ ℕ)),
      (machine (Fin 2) ℕ UInt64.ofNat).Reachable (ClaimsInOrder UInt64.ofNat) pool ∧
        Present (pool.shared.buckets 5) 69 ∧
        pool.locals 1 = some (.insertConstruct 5 2 24) ∧ UniqueKeys UInt64.ofNat pool := by
  obtain ⟨pool, alone, present, stands⟩ :=
    Machine.reachable_of_exec (machine (Fin 2) ℕ UInt64.ofNat) InsertsAlone
      (unused (Fin 2) ℕ ℕ)
      (List.flatten
        [(0, .call (.tryInsert 69 1)) :: List.replicate 8 (0, .step false),
          (1, .call (.tryInsert 5 2)) :: List.replicate 9 (1, .step false)])
      (fun pool => Present (pool.shared.buckets 5) 69 ∧
        pool.locals 1 = some (.insertConstruct 5 2 24))
      rfl ⟨_, rfl, ⟨rfl, 1, rfl⟩, rfl⟩
  have reachable := inOrder_of_alone alone
  exact ⟨pool, reachable, present, stands, uniqueKeys_of_claimsInOrder reachable⟩

end Asco.Concurrency.HashMap
