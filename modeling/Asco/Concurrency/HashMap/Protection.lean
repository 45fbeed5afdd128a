import Asco.Concurrency.HashMap.Coherence

namespace Asco.Concurrency.HashMap

open Foundation

/-! # Guards protect their buckets -/

variable {K V : Type*} {Thread : Type*} [Fintype Thread] {hash : K → UInt64}
  {map next : HashMap K V} {pc : Pc K V} {progress : Progress K V} {spurious : Bool} {index : ℕ}
  {pool last : Pool Thread (HashMap K V) (Option (Pc K V))} {thread : Thread}

/-- The references that a call holds on the bucket. -/
def pinning (hash : K → UInt64) (size index : ℕ) (place : Option (Pc K V)) : ℕ :=
  (localClaims hash size place).count (.visiting, index) +
    (localClaims hash size place).count (.seizing, index)

theorem count_claim_le (index : ℕ) (claim : Claim) :
    [claim].count (.visiting, index) + [claim].count (.seizing, index) ≤ 1 := by
  obtain ⟨role, bucket⟩ := claim
  cases role <;> by_cases same : bucket = index <;> simp [same]

theorem count_insertClaims (index : ℕ) (claim : Option ℕ) :
    (insertClaims claim).count (.visiting, index) = 0 ∧
      (insertClaims claim).count (.seizing, index) = 0 := by
  cases claim with
  | none => exact ⟨rfl, rfl⟩
  | some claim => simp [insertClaims]

theorem count_visit_le (index bucket : ℕ) (claim : Option ℕ) :
    ((.visiting, bucket) :: insertClaims claim).count (.visiting, index) +
      ((.visiting, bucket) :: insertClaims claim).count (.seizing, index) ≤ 1 := by
  have built := count_insertClaims index claim
  have visited := count_claim_le index (.visiting, bucket)
  rw [List.count_cons, List.count_cons, built.1, built.2]
  rw [List.count_cons, List.count_cons] at visited
  exact visited

/-- A call refers to one bucket at a time. -/
theorem pinning_le_one (size index : ℕ) (place : Option (Pc K V)) :
    pinning hash size index place ≤ 1 := by
  cases place with
  | none => exact Nat.zero_le _
  | some pc =>
      cases pc with
      | unlockRead outcome =>
          cases outcome with
          | found bucket => exact count_claim_le index _
          | _ => exact Nat.zero_le _
      | insertRaise key value i claim refcount =>
          have built := count_insertClaims index claim
          exact (Nat.add_eq_zero_iff.mpr built).trans_le (Nat.zero_le 1)
      | insertCompare key value i claim => exact count_visit_le index _ claim
      | lowerLoad bucket reason | lower bucket reason expected =>
          cases reason with
          | insertCompared key value i claim same => exact count_visit_le index _ claim
          | _ => exact count_claim_le index _
      | insertCheck _ _ _ claim | insertGiveUp claim _ | insertConstruct _ _ claim
      | insertCount _ claim | insertPublish _ claim => exact count_claim_le index _
      | removeCompare key i | getCompare key contains i => exact count_claim_le index _
      | removeConfirm bucket | removeDrainLoad bucket | removeDrain bucket expected
      | removeTake bucket | removeCount bucket value | removeBury bucket value =>
          exact count_claim_le index _
      | _ => exact Nat.zero_le _

/-- The call is about to return a guard on the bucket, or is in its destructor
before the decrement. -/
def guarding (index : ℕ) : Option (Pc K V) → ℕ
  | some (.unlockRead (.found other)) | some (.lowerLoad other .guard)
  | some (.lower other .guard _) => if other = index then 1 else 0
  | _ => 0

/-- The guards on the bucket, from the step that obtains one to the decrement of
its destructor. -/
def liveGuards (pool : Pool Thread (HashMap K V) (Option (Pc K V))) (index : ℕ) : ℕ :=
  pool.shared.guards index + tally (guarding index) pool.locals

theorem guarding_le (index size : ℕ) (place : Option (Pc K V)) :
    guarding index place ≤ (localClaims hash size place).count (.visiting, index) := by
  cases place with
  | none => exact Nat.zero_le _
  | some pc =>
      cases pc with
      | unlockRead outcome =>
          cases outcome with
          | found other =>
              by_cases same : other = index <;>
                simp [guarding, localClaims, Pc.claims, Outcome.claims, same]
          | _ => exact Nat.zero_le _
      | lowerLoad other reason | lower other reason expected =>
          cases reason with
          | guard =>
              by_cases same : other = index <;>
                simp [guarding, localClaims, Pc.claims, Lower.claims, same]
          | _ => exact Nat.zero_le _
      | _ => exact Nat.zero_le _

/-- The key and the value of the bucket are there. -/
def Constructed (bucket : Bucket K V) : Prop :=
  (bucket.state.state = .filled ∨ bucket.state.state = .predestructing) ∧ bucket.entry.isSome

theorem Law.constructed {bucket : Bucket K V} {guards : ℕ} {roles : Role → ℕ}
    (law : Law bucket guards roles) (shared : 0 < bucket.state.refcount) : Constructed bucket := by
  have drained := law.drained
  have built := law.built
  have stored := law.stored
  have used : bucket.state.state = .filled ∨ bucket.state.state = .predestructing := by
    by_contra unused
    rw [not_or] at unused
    have unshared := law.unshared unused.1 unused.2
    omega
  have idle : ¬ bucket.state.state = .constructing := by
    rcases used with filled | predestructing
    · simp [filled]
    · simp [predestructing]
  have undrained : roles .emptying + roles .burying = 0 := by
    by_contra some
    have none := drained some
    omega
  rw [if_neg idle] at built
  rw [if_pos used] at stored
  refine ⟨used, ?_⟩
  by_contra absent
  rw [if_neg absent] at stored
  omega

/-- An entry that is referred to is left alone. -/
theorem Law.entry_eq {bucket after : Bucket K V} {guards : ℕ} {others : Role → ℕ}
    {lost gained : Option Role} (law : Law bucket guards (joined others lost))
    (shared : 0 < bucket.state.refcount) (action : Action bucket lost gained after) :
    after.entry = bucket.entry := by
  rcases action.entry_eq with same | rfl | rfl | ⟨filled, _⟩
  · exact same
  · have drained := law.drained
    have emptied : joined others (some .emptying) .emptying = others .emptying + 1 := rfl
    rw [emptied] at drained
    have none := drained (by omega)
    omega
  · have built := law.built
    have building : joined others (some .building) .building = others .building + 1 := rfl
    rw [building] at built
    have constructed := law.constructed shared
    rcases constructed.1 with filled | predestructing
    · simp [filled] at built
    · simp [predestructing] at built
  · simp [filled] at shared

theorem Lawful.entry_eq {others : Claim → ℕ}
    (lawful : Lawful map others (pc.claims hash map.bucketCount))
    (shared : 0 < (map.buckets index).state.refcount) (keeps : Keeps hash map pc next progress) :
    (next.buckets index).entry = (map.buckets index).entry := by
  obtain ⟨_, _, effect⟩ := keeps
  have law := lawful index
  generalize next.buckets = buckets at effect
  cases effect with
  | moves same => rfl
  | @touches _ touched lost gained after rest within action before after_ =>
      by_cases same : index = touched
      · subst same
        rw [before, count_joined] at law
        rw [Function.update_self]
        exact law.entry_eq shared action
      · rw [Function.update_of_ne same]

namespace Coherent

theorem counted (coherent : Coherent hash pool) (index : ℕ) :
    (pool.shared.buckets index).state.refcount = pool.shared.guards index +
      tally (pinning hash pool.shared.bucketCount index) pool.locals := by
  have counted := (coherent.lawful index).counted
  have split : tally (pinning hash pool.shared.bucketCount index) pool.locals =
      held (localClaims hash pool.shared.bucketCount) pool.locals (.visiting, index) +
        held (localClaims hash pool.shared.bucketCount) pool.locals (.seizing, index) :=
    Finset.sum_add_distrib
  omega

theorem liveGuards_le (coherent : Coherent hash pool) (index : ℕ) :
    liveGuards pool index ≤ (pool.shared.buckets index).state.refcount := by
  have counted := (coherent.lawful index).counted
  have fewer : tally (guarding index) pool.locals ≤
      held (localClaims hash pool.shared.bucketCount) pool.locals (.visiting, index) :=
    tally_mono fun place => guarding_le index pool.shared.bucketCount place
  rw [liveGuards]
  omega

theorem constructed (coherent : Coherent hash pool) (guarded : 0 < liveGuards pool index) :
    Constructed (pool.shared.buckets index) :=
  (coherent.lawful index).constructed (guarded.trans_le (coherent.liveGuards_le index))

variable [DecidableEq K] [DecidableEq Thread]

/-- A step while somebody refers to the entry. -/
theorem entry_shared (coherent : Coherent hash pool)
    (shared : 0 < (pool.shared.buckets index).state.refcount)
    {choice : Choice (Call K V)} {finish : Option (Pc K V)}
    (advanced : advance hash pool.shared (pool.locals thread) choice = some (next, finish)) :
    next.bucketCount = pool.shared.bucketCount ∧
      (next.buckets index).entry = (pool.shared.buckets index).entry := by
  rcases advance_eq_some advanced with ⟨call, pc, stands, started, rfl⟩ |
    ⟨pc, spurious, after, progress, stands, resumed, rfl, rfl⟩
  · have calm := Calm.start started
    exact ⟨calm.bucketCount, calm.entry index⟩
  · obtain ⟨buckets_eq, count_eq, _⟩ := settle_fields after progress
    rw [buckets_eq, count_eq]
    by_cases swaps : ∃ fresh, pc = .rehashSwap fresh
    · obtain ⟨fresh, rfl⟩ := swaps
      obtain ⟨unguarded, unclaimed⟩ := coherent.swap_unclaimed stands
      have counted := coherent.counted index
      have nobody : tally (pinning hash pool.shared.bucketCount index) pool.locals = 0 :=
        tally_eq_zero.mpr fun other => by simp [pinning, unclaimed]
      rw [unguarded, nobody] at counted
      omega
    · have keeps := resume_keeps (coherent.backed stands) (fun fresh same => swaps ⟨fresh, same⟩)
        resumed
      obtain ⟨others, before, _⟩ := coherent.lawful_thread thread
      rw [stands] at before
      exact ⟨keeps.1, Lawful.entry_eq before shared keeps⟩

end Coherent

/-- What the guards on a bucket are good for. -/
structure Guarded [DecidableEq K] [DecidableEq Thread] (hash : K → UInt64)
    (pool : Pool Thread (HashMap K V) (Option (Pc K V))) (index : ℕ) : Prop where
  counted : (pool.shared.buckets index).state.refcount = pool.shared.guards index +
    tally (pinning hash pool.shared.bucketCount index) pool.locals
  constructed : 0 < liveGuards pool index → Constructed (pool.shared.buckets index)
  /-- A guard is obtained on a bucket with the key that was asked for. -/
  obtained : ∀ key i spurious next,
    resume hash pool.shared spurious (.getCompare key false i) = some (next, leave (.found index)) →
      ∃ value, (pool.shared.buckets index).entry = some (key, value)
  /-- As long as a guard is alive, the bucket stays where it is with its entry. -/
  kept : ∀ last, (machine Thread V hash).Run (fun state _ => 0 < liveGuards state index) pool last →
    last.shared.bucketCount = pool.shared.bucketCount ∧
      (last.shared.buckets index).entry = (pool.shared.buckets index).entry

variable [DecidableEq K] [DecidableEq Thread]

theorem entry_of_run
    (reachable : (machine Thread V hash).Reachable Machine.free pool)
    (run : (machine Thread V hash).Run (fun state _ => 0 < liveGuards state index) pool last) :
    (machine Thread V hash).Reachable Machine.free last ∧
      last.shared.bucketCount = pool.shared.bucketCount ∧
        (last.shared.buckets index).entry = (pool.shared.buckets index).entry := by
  induction run with
  | refl => exact ⟨reachable, rfl, rfl⟩
  | @tail middle last label before guarded moved ih =>
      obtain ⟨reached, count, entry⟩ := ih
      refine ⟨reached.step trivial moved, ?_⟩
      obtain ⟨shared, finish, advanced, rfl⟩ := Program.move_eq_some.mp moved
      have coherent := coherent_of_reachable reached
      have stepped :=
        coherent.entry_shared (guarded.trans_le (coherent.liveGuards_le index)) advanced
      exact ⟨stepped.1.trans count, stepped.2.trans entry⟩

theorem guarded_of_reachable
    (reachable : (machine Thread V hash).Reachable Machine.free pool) (index : ℕ) :
    Guarded hash pool index := by
  have coherent := coherent_of_reachable reachable
  refine ⟨coherent.counted index, coherent.constructed, ?_, fun last run => ?_⟩
  · intro key i spurious next compared
    simp only [resume, Option.map_eq_some_iff] at compared
    obtain ⟨entry, found, same⟩ := compared
    split at same
    · rename_i equal
      cases same
      exact ⟨entry.2, by rw [found, ← equal]⟩
    · cases same
  · exact (entry_of_run reachable run).2

/-- The 61 bits of the count suffice as long as the guards and the threads are fewer. -/
theorem refcount_lt_of_reachable
    (reachable : (machine Thread V hash).Reachable Machine.free pool) (index : ℕ)
    (few : pool.shared.guards index + Fintype.card Thread < 2 ^ 61) :
    (pool.shared.buckets index).state.refcount < 2 ^ 61 := by
  have referring : tally (pinning hash pool.shared.bucketCount index) pool.locals ≤
      Fintype.card Thread := by
    calc tally (pinning hash pool.shared.bucketCount index) pool.locals
        ≤ ∑ _thread : Thread, 1 := Finset.sum_le_sum fun _ _ => pinning_le_one _ index _
      _ = Fintype.card Thread := by simp
  rw [(coherent_of_reachable reachable).counted index]
  exact (Nat.add_le_add_left referring _).trans_lt few

/-- A key is inserted, one thread keeps a guard on it, and another one tries to
remove it. -/
theorem guarded_of_reachable_protecting :
    ∃ pool : Pool (Fin 2) (HashMap ℕ ℕ) (Option (Pc ℕ ℕ)),
      (machine (Fin 2) ℕ UInt64.ofNat).Reachable Machine.free pool ∧
        (liveGuards pool 5 = 1 ∧
          pool.locals 1 = some (.unlockRead (.removeFailed .guardProtecting))) ∧
        Guarded UInt64.ofNat pool 5 := by
  obtain ⟨pool, reachable, standing⟩ :=
    Machine.reachable_of_exec (machine (Fin 2) ℕ UInt64.ofNat) Machine.free (unused (Fin 2) ℕ ℕ)
      (List.flatten
        [(0, .call (.tryInsert 5 7)) :: List.replicate 8 (0, .step false),
          (0, .call (.tryGet 5)) :: List.replicate 6 (0, .step false),
          (1, .call (.tryRemove 5)) :: List.replicate 10 (1, .step false)])
      (fun pool => liveGuards pool 5 = 1 ∧
        pool.locals 1 = some (.unlockRead (.removeFailed .guardProtecting)))
      rfl ⟨_, rfl, by decide, rfl⟩
  exact ⟨pool, reachable, standing, guarded_of_reachable reachable 5⟩

end Asco.Concurrency.HashMap
