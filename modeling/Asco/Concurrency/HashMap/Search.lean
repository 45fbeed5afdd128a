import Asco.Concurrency.HashMap.Paths

namespace Asco.Concurrency.HashMap

open Foundation

/-! # A search finds the key that is there

While its bucket is filled, or hidden for a moment by a removal that looks at
it, a key stays where it is, and a search that comes by cannot end before it.
-/

variable {K V : Type*} {hash : K → UInt64} {map next : HashMap K V} {pc : Pc K V}
  {progress : Progress K V} {spurious : Bool} {key : K} {i index : ℕ} {bucket : Bucket K V}
  {others : Claim → ℕ}

/-- The bucket is filled with the key. -/
def Present (bucket : Bucket K V) (key : K) : Prop :=
  bucket.state.state = .filled ∧ ∃ value, bucket.entry = some (key, value)

/-- The bucket of the key, which nobody has buried. -/
structure Intact (bucket : Bucket K V) (key : K) : Prop where
  used : bucket.state.state = .filled ∨ bucket.state.state = .predestructing
  same : ∀ entry, bucket.entry = some entry → entry.1 = key

theorem Present.intact (present : Present bucket key) : Intact bucket key := by
  obtain ⟨filled, value, found⟩ := present
  refine ⟨.inl filled, fun entry other => ?_⟩
  rw [found] at other
  cases other
  rfl

theorem Intact.setState {touched : ℕ} {state : BucketState}
    (intact : Intact (map.buckets index) key)
    (stays : touched = index → state.state = .filled ∨ state.state = .predestructing) :
    Intact ((map.setState touched state).buckets index) key := by
  by_cases here : index = touched
  · subst here
    exact ⟨by simpa using stays rfl, fun entry found => intact.same entry (by simpa using found)⟩
  · rw [setState_of_ne here]
    exact intact

variable [DecidableEq K]

/-- Only a burial and a rehash take a key away. -/
theorem resume_intact (lawful : Lawful map others (pc.claims hash map.bucketCount))
    (known : Known pc) (writes : pc.writing = 0) (buries : ∀ value, pc ≠ .removeBury index value)
    (resumed : resume hash map spurious pc = some (next, progress))
    (intact : Intact (map.buckets index) key) : Intact (next.buckets index) key := by
  have used := intact.used
  have elsewhere {touched : ℕ} (claimed : (.building, touched) ∈ pc.claims hash map.bucketCount ∨
      (.filling, touched) ∈ pc.claims hash map.bucketCount) : touched ≠ index := by
    intro here
    subst here
    simp [lawful.constructing claimed] at used
  cases pc with
  | rehashLoad touched fresh | rehashWait touched fresh | rehashMove touched fresh
  | rehashSwap fresh | unlockWrite => simp [Pc.writing] at writes
  | tryReadExchange call expected =>
      simp only [resume] at resumed
      split at resumed
      · simp only [Option.map_eq_some_iff, Prod.mk.injEq] at resumed
        obtain ⟨entered, _, rfl, rfl⟩ := resumed
        exact intact
      · cases resumed
        exact intact
  | insertExchange other value i =>
      simp only [resume] at resumed
      split at resumed
      · rename_i empty
        cases resumed
        refine intact.setState fun here => ?_
        rw [← here, empty] at used
        simp at used
      · split at resumed <;> cases resumed <;> exact intact
  | insertRaise other value i claim refcount =>
      simp only [resume] at resumed
      split at resumed
      · cases resumed
        exact intact.setState fun _ => .inl rfl
      · split at resumed <;> cases resumed <;> exact intact
  | insertClaim other value i expected =>
      simp only [resume] at resumed
      split at resumed
      · rename_i same
        cases resumed
        refine intact.setState fun here => ?_
        have tombstone : expected.state = .tombstone := known
        rw [← here, same.1, tombstone] at used
        simp at used
      · cases resumed
        exact intact
  | insertGiveUp claim failure | insertPublish other claim =>
      cases resumed
      exact intact.setState fun here => absurd here (elsewhere (by simp [Pc.claims]))
  | insertConstruct other value claim =>
      cases resumed
      have different : index ≠ claim := (elsewhere (by simp [Pc.claims])).symm
      simpa [setEntry, Function.update_of_ne different] using intact
  | removeExchange other i =>
      simp only [resume] at resumed
      split at resumed
      · cases resumed
        exact intact.setState fun _ => .inr rfl
      · split at resumed <;> cases resumed <;> exact intact
  | removeRaise other i refcount =>
      simp only [resume] at resumed
      split at resumed <;> cases resumed
      · exact intact.setState fun _ => .inr rfl
      · exact intact
  | removeDrain touched expected =>
      simp only [resume] at resumed
      split at resumed <;> cases resumed
      · exact intact.setState fun _ => .inr rfl
      · exact intact
  | removeTake touched =>
      simp only [resume, Option.map_eq_some_iff, Prod.mk.injEq] at resumed
      obtain ⟨taken, _, rfl, rfl⟩ := resumed
      refine ⟨?_, fun entry found => intact.same entry (setEntry_none found)⟩
      by_cases here : index = touched
      · subst here
        simpa [setEntry] using used
      · simpa [setEntry, Function.update_of_ne here] using used
  | removeBury touched value =>
      cases resumed
      refine intact.setState fun here => ?_
      subst here
      exact absurd rfl (buries value)
  | getRaise other contains i refcount =>
      simp only [resume] at resumed
      split at resumed <;> cases resumed
      · exact intact.setState fun _ => .inl rfl
      · exact intact
  | lower touched reason expected =>
      simp only [resume] at resumed
      split at resumed
      · rename_i same
        cases resumed
        refine intact.setState fun here => ?_
        rw [← here, same.1] at used
        cases reason with
        | removeOther other i | removeProtected => exact .inl rfl
        | _ => exact used
      · cases resumed
        exact intact
  | insertCompare other value i claim =>
      simp only [resume, Option.map_eq_some_iff, Prod.mk.injEq] at resumed
      obtain ⟨entry, _, rfl, rfl⟩ := resumed
      exact intact
  | removeCompare other i =>
      simp only [resume, Option.map_eq_some_iff] at resumed
      obtain ⟨entry, _, compared⟩ := resumed
      split at compared <;> cases compared <;> exact intact
  | getCompare other contains i =>
      simp only [resume, Option.map_eq_some_iff] at resumed
      obtain ⟨entry, _, compared⟩ := resumed
      split at compared
      · split at compared <;> cases compared <;> exact intact
      · cases compared
        exact intact
  | tryRead call | insertStart other value | insertTombstone other value i
  | insertCheck other value i claim | removeConfirm touched | removeDrainLoad touched
  | getLoad other contains i | tryWrite =>
      simp only [resume] at resumed
      split at resumed <;> cases resumed <;> exact intact
  | tryWriteExchange =>
      simp only [resume] at resumed
      split at resumed <;> cases resumed <;> exact intact
  | removeLoad other i =>
      simp only [resume] at resumed
      split at resumed
      · cases resumed
        exact intact
      · split at resumed <;> cases resumed <;> exact intact
  | unlockRead outcome | insertCount other claim | removeCount touched value
  | lowerLoad touched reason =>
      cases resumed
      exact intact

/-! ## On the way to a key -/

/-- The bucket lies on the path of the key, at position `i` or later, and a
search cannot end before it. -/
structure Ahead (hash : K → UInt64) (map : HashMap K V) (key : K) (index i : ℕ) : Prop where
  reached : ∃ j, i ≤ j ∧ j < map.bucketCount ∧ slot hash map.bucketCount key j = index ∧
    Passed hash map.bucketCount map.buckets key j
  intact : Intact (map.buckets index) key

/-- The call answers that the key is not there. -/
def Outcome.missing : Outcome V → Bool
  | .removeFailed .none | .contained false | .getFailed .none => true
  | _ => false

def Lower.Seeks (hash : K → UInt64) (map : HashMap K V) (key : K) (index : ℕ) : Lower K V → Prop
  | .removeOther other i | .getOther other _ i => other = key ∧ Ahead hash map key index (i + 1)
  | .removeReverted | .removeProtected | .contained => True
  | .insertCompared _ _ _ _ _ | .guard => False

/-- A search that has not missed the key in the bucket. -/
def Seeks (hash : K → UInt64) (map : HashMap K V) (key : K) (index : ℕ) : Option (Pc K V) → Prop
  | none => True
  | some pc =>
      match pc with
      | .getLoad other _ i | .getRaise other _ i _ | .getCompare other _ i
      | .removeExchange other i | .removeLoad other i | .removeRaise other i _
      | .removeCompare other i => other = key ∧ Ahead hash map key index i
      | .lowerLoad _ reason | .lower _ reason _ => reason.Seeks hash map key index
      | .removeConfirm _ | .removeDrainLoad _ | .removeDrain _ _ | .removeTake _
      | .removeCount _ _ | .removeBury _ _ => True
      | .unlockRead outcome => outcome.missing = false
      | _ => False

def Progress.Seeks (hash : K → UInt64) (map : HashMap K V) (key : K) (index : ℕ) :
    Progress K V → Prop
  | .running pc => HashMap.Seeks hash map key index (some pc)
  | .done _ => True

omit [DecidableEq K] in
theorem Ahead.succ (ahead : Ahead hash map key index i)
    (elsewhere : slot hash map.bucketCount key i ≠ index) :
    Ahead hash map key index (i + 1) := by
  obtain ⟨⟨j, later, below, visits, passed⟩, intact⟩ := ahead
  have different : i ≠ j := by
    intro same
    exact elsewhere (same ▸ visits)
  exact ⟨⟨j, by omega, below, visits, passed⟩, intact⟩

omit [DecidableEq K] in
/-- The search goes on at a bucket that is neither empty nor the one it looks for. -/
theorem Ahead.unused (ahead : Ahead hash map key index i)
    (state : (map.buckets (slot hash map.bucketCount key i)).state.state = .destructing ∨
      (map.buckets (slot hash map.bucketCount key i)).state.state = .tombstone) :
    Ahead hash map key index (i + 1) := by
  refine ahead.succ fun here => ?_
  have used := ahead.intact.used
  rw [← here] at used
  rcases state with other | other <;> simp [other] at used

omit [DecidableEq K] in
theorem Ahead.used (ahead : Ahead hash map key index i) :
    (map.buckets (slot hash map.bucketCount key i)).state.state ≠ .empty := by
  obtain ⟨⟨j, later, _, visits, passed⟩, intact⟩ := ahead
  rcases Nat.lt_or_eq_of_le later with before | here
  · exact passed i before
  · intro empty
    have used := intact.used
    rw [← visits, ← here, empty] at used
    simp at used

omit [DecidableEq K] in
theorem Ahead.other {entry : K × V} (ahead : Ahead hash map key index i)
    (found : (map.buckets (slot hash map.bucketCount key i)).entry = some entry)
    (different : entry.1 ≠ key) : Ahead hash map key index (i + 1) := by
  refine ahead.succ fun here => ?_
  rw [here] at found
  exact different (ahead.intact.same entry found)

omit [DecidableEq K] in
theorem Ahead.grows (ahead : Ahead hash map key index i) (grows : Grows map next)
    (intact : Intact (next.buckets index) key) : Ahead hash next key index i := by
  obtain ⟨j, later, below, visits, passed⟩ := ahead.reached
  refine ⟨⟨j, later, ?_, ?_, grows.passed passed⟩, intact⟩
  · rw [grows.bucketCount]
    exact below
  · rw [grows.bucketCount]
    exact visits

omit [DecidableEq K] in
theorem removeAt_seeks (ahead : Ahead hash next key index i)
    (same : next.bucketCount = map.bucketCount) :
    (map.removeAt key i).Seeks hash next key index := by
  obtain ⟨j, later, below, _⟩ := ahead.reached
  rw [removeAt, if_pos (by omega)]
  exact ⟨rfl, ahead⟩

omit [DecidableEq K] in
theorem getAt_seeks (contains : Bool) (ahead : Ahead hash next key index i)
    (same : next.bucketCount = map.bucketCount) :
    (map.getAt key contains i).Seeks hash next key index := by
  obtain ⟨j, later, below, _⟩ := ahead.reached
  rw [getAt, if_pos (by omega)]
  exact ⟨rfl, ahead⟩

/-- What a search does next, in a map that has become `next` meanwhile. -/
theorem resume_seeks (grows : Grows map next)
    (kept : ∀ i, Ahead hash map key index i → Ahead hash next key index i)
    (seeks : Seeks hash map key index (some pc))
    (resumed : resume hash map spurious pc = some (next, progress)) :
    progress.Seeks hash next key index := by
  have sized := grows.bucketCount
  cases pc with
  | unlockRead outcome =>
      cases resumed
      trivial
  | getLoad other contains i =>
      obtain ⟨same, ahead⟩ := seeks
      subst same
      simp only [resume] at resumed
      split at resumed
      · rename_i empty
        exact absurd empty ahead.used
      · cases resumed
        rfl
      · cases resumed
        rfl
      · rename_i destructing
        cases resumed
        exact getAt_seeks contains (ahead.unused (.inl destructing)) rfl
      · rename_i tombstone
        cases resumed
        exact getAt_seeks contains (ahead.unused (.inr tombstone)) rfl
      · cases resumed
        exact ⟨rfl, ahead⟩
  | getRaise other contains i refcount =>
      obtain ⟨same, ahead⟩ := seeks
      have after := kept i ahead
      simp only [resume] at resumed
      split at resumed <;> cases resumed
      · exact ⟨same, after⟩
      · exact ⟨same, ahead⟩
  | getCompare other contains i =>
      obtain ⟨same, ahead⟩ := seeks
      subst same
      simp only [resume, Option.map_eq_some_iff] at resumed
      obtain ⟨entry, found, compared⟩ := resumed
      split at compared
      · split at compared
        · cases compared
          trivial
        · cases compared
          rfl
      · rename_i different
        cases compared
        exact ⟨rfl, ahead.other found different⟩
  | removeExchange other i =>
      obtain ⟨same, ahead⟩ := seeks
      subst same
      have after := kept i ahead
      simp only [resume] at resumed
      split at resumed
      · cases resumed
        exact ⟨rfl, after⟩
      · split at resumed
        · cases resumed
          exact ⟨rfl, ahead⟩
        · rename_i empty
          exact absurd empty ahead.used
        · cases resumed
          rfl
        · cases resumed
          rfl
        · rename_i destructing
          cases resumed
          exact removeAt_seeks (ahead.unused (.inl destructing)) rfl
        · rename_i tombstone
          cases resumed
          exact removeAt_seeks (ahead.unused (.inr tombstone)) rfl
  | removeLoad other i =>
      simp only [resume] at resumed
      split at resumed
      · cases resumed
        rfl
      · split at resumed <;> cases resumed <;> exact seeks
  | removeRaise other i refcount =>
      obtain ⟨same, ahead⟩ := seeks
      have after := kept i ahead
      simp only [resume] at resumed
      split at resumed <;> cases resumed
      · exact ⟨same, after⟩
      · exact ⟨same, ahead⟩
  | removeCompare other i =>
      obtain ⟨same, ahead⟩ := seeks
      subst same
      simp only [resume, Option.map_eq_some_iff] at resumed
      obtain ⟨entry, found, compared⟩ := resumed
      split at compared
      · cases compared
        trivial
      · rename_i different
        cases compared
        exact ⟨rfl, ahead.other found different⟩
  | removeConfirm touched | removeDrainLoad touched | removeDrain touched expected =>
      simp only [resume] at resumed
      split at resumed <;> cases resumed <;> trivial
  | removeTake touched =>
      simp only [resume, Option.map_eq_some_iff, Prod.mk.injEq] at resumed
      obtain ⟨taken, _, rfl, rfl⟩ := resumed
      trivial
  | removeCount touched value =>
      cases resumed
      trivial
  | removeBury touched value =>
      cases resumed
      rfl
  | lowerLoad touched reason =>
      cases resumed
      exact seeks
  | lower touched reason expected =>
      simp only [resume] at resumed
      split at resumed
      · cases resumed
        cases reason with
        | removeOther other i =>
            obtain ⟨same, ahead⟩ := seeks
            subst same
            exact removeAt_seeks (kept _ ahead) sized
        | getOther other contains i =>
            obtain ⟨same, ahead⟩ := seeks
            subst same
            exact getAt_seeks contains (kept _ ahead) sized
        | removeReverted | removeProtected | contained => rfl
        | insertCompared other value i claim equal => exact seeks.elim
        | guard => exact seeks.elim
      · cases resumed
        exact seeks
  | _ => exact seeks.elim

omit [DecidableEq K] in
theorem Seeks.mono {place : Option (Pc K V)}
    (kept : ∀ i, Ahead hash map key index i → Ahead hash next key index i)
    (seeks : Seeks hash map key index place) : Seeks hash next key index place := by
  cases place with
  | none => trivial
  | some pc =>
      cases pc with
      | getLoad other contains i | getRaise other contains i refcount | getCompare other contains i
      | removeExchange other i | removeLoad other i | removeRaise other i refcount
      | removeCompare other i => exact ⟨seeks.1, kept i seeks.2⟩
      | lowerLoad touched reason | lower touched reason expected =>
          cases reason with
          | removeOther other i | getOther other contains i => exact ⟨seeks.1, kept _ seeks.2⟩
          | _ => exact seeks
      | _ => exact seeks

omit [DecidableEq K] in
theorem Seeks.reading (seeks : Seeks hash map key index (some pc)) : pc.reading = 1 := by
  cases pc with
  | lowerLoad touched reason | lower touched reason expected =>
      cases reason with
      | guard => exact seeks.elim
      | _ => rfl
  | tryRead call | tryReadExchange call expected | tryWrite | tryWriteExchange
  | rehashLoad touched fresh | rehashWait touched fresh | rehashMove touched fresh
  | rehashSwap fresh | unlockWrite => exact seeks.elim
  | _ => rfl

/-! ## The calls of one thread among those of the others -/

variable {Thread : Type*} [Fintype Thread] [DecidableEq Thread]
  {pool last : Pool Thread (HashMap K V) (Option (Pc K V))} {thread mover : Thread}
  {finish : Option (Pc K V)} {choice : Choice (Call K V)}

/-- The thread does not begin another call. -/
def InCall (thread : Thread) (label : Thread × Choice (Call K V)) : Prop :=
  label.1 = thread → ∃ spurious, label.2 = .step spurious

omit [DecidableEq K] [DecidableEq Thread] in
/-- While somebody reads, nobody rehashes. -/
theorem Coherent.writing_eq_zero (coherent : Coherent hash pool)
    (reads : readLocks (pool.locals thread) = 1) (stands : pool.locals mover = some pc) :
    pc.writing = 0 := by
  by_contra writes
  have single : pc.writing = 1 := by cases pc <;> simp [Pc.writing] at writes ⊢
  have rehashes := coherent.rehashes stands single
  have readers := coherent.readers
  rw [coherent.excludes rehashes] at readers
  have nobody := tally_eq_zero.mp (Nat.le_zero.mp readers) thread
  omega

/-- A step of another thread that does not bury the bucket. -/
theorem Coherent.ahead_step (coherent : Coherent hash pool)
    (reads : readLocks (pool.locals thread) = 1)
    (buries : ∀ value, pool.locals mover ≠ some (.removeBury index value))
    (advanced : advance hash pool.shared (pool.locals mover) choice = some (next, finish))
    (ahead : Ahead hash pool.shared key index i) : Ahead hash next key index i := by
  rcases advance_eq_some advanced with ⟨call, pc, stands, started, rfl⟩ |
    ⟨pc, spurious, after, progress, stands, resumed, rfl, rfl⟩
  · have calm := Calm.start started
    refine ahead.grows calm.grows ⟨?_, fun entry found => ?_⟩
    · rw [calm.state]
      exact ahead.intact.used
    · rw [calm.entry] at found
      exact ahead.intact.same entry found
  · obtain ⟨buckets_eq, _⟩ := settle_fields after progress
    have writes := coherent.writing_eq_zero reads stands
    have staying (fresh : ℕ → Bucket K V) : pc ≠ .rehashSwap fresh := by
      intro swaps
      rw [swaps] at writes
      exact absurd writes Nat.one_ne_zero
    have grows := (resume_keeps (coherent.backed stands) staying resumed).grows
    refine ahead.grows (grows.settle progress) ?_
    rw [buckets_eq]
    obtain ⟨others, before, _⟩ := coherent.lawful_thread mover
    rw [stands] at before
    refine resume_intact before (coherent.known mover pc stands) writes ?_ resumed ahead.intact
    intro value standing
    exact buries value (standing ▸ stands)

/-- A step of the search itself. -/
theorem Coherent.seeks_step (coherent : Coherent hash pool) {spurious : Bool}
    (seeks : Seeks hash pool.shared key index (pool.locals thread))
    (advanced : advance hash pool.shared (pool.locals thread) (.step spurious) =
      some (next, finish)) : Seeks hash next key index finish := by
  rcases advance_eq_some advanced with ⟨call, pc, stands, started, rfl⟩ |
    ⟨pc, weak, after, progress, stands, resumed, rfl, rfl⟩
  · rw [stands] at advanced
    contradiction
  · rw [stands] at seeks
    have reads : readLocks (pool.locals thread) = 1 := by
      rw [stands]
      exact seeks.reading
    have writes := coherent.writing_eq_zero reads stands
    have staying (fresh : ℕ → Bucket K V) : pc ≠ .rehashSwap fresh := by
      intro swaps
      rw [swaps] at writes
      exact absurd writes Nat.one_ne_zero
    have grows := (resume_keeps (coherent.backed stands) staying resumed).grows
    obtain ⟨others, before, _⟩ := coherent.lawful_thread thread
    rw [stands] at before
    have sought : progress.Seeks hash after key index := by
      by_cases buries : ∃ value, pc = .removeBury index value
      · obtain ⟨value, rfl⟩ := buries
        cases resumed
        rfl
      · refine resume_seeks grows (fun i ahead => ahead.grows grows ?_) seeks resumed
        refine resume_intact before (coherent.known thread pc stands) writes ?_ resumed ahead.intact
        exact fun value standing => buries ⟨value, standing⟩
    cases progress with
    | running pc => exact sought
    | done outcome => cases outcome <;> trivial

theorem Coherent.seeks_of_move (coherent : Coherent hash pool)
    {label : Thread × Choice (Call K V)} {after : Pool Thread (HashMap K V) (Option (Pc K V))}
    (seeks : Seeks hash pool.shared key index (pool.locals thread)) (inCall : InCall thread label)
    (buries : label.1 ≠ thread → ∀ value, pool.locals label.1 ≠ some (.removeBury index value))
    (moved : (machine Thread V hash).move pool label = some after) :
    Seeks hash after.shared key index (after.locals thread) := by
  obtain ⟨shared, finish, advanced, rfl⟩ := Program.move_eq_some.mp moved
  obtain ⟨mover, choice⟩ := label
  by_cases own : mover = thread
  · subst own
    obtain ⟨spurious, stepping⟩ := inCall rfl
    change choice = _ at stepping
    subst stepping
    simp only [Function.update_self]
    exact coherent.seeks_step seeks advanced
  · simp only [Function.update_of_ne (Ne.symm own)]
    cases stands : pool.locals thread with
    | none => trivial
    | some pc =>
        rw [stands] at seeks
        have reads : readLocks (pool.locals thread) = 1 := by
          rw [stands]
          exact seeks.reading
        exact seeks.mono fun i ahead => coherent.ahead_step reads (buries own) advanced ahead

/-! ## Insertions that repeat a key -/

def Lower.Differs (key : K) : Lower K V → Prop
  | .insertCompared other _ _ _ same => other = key ∧ same = false
  | _ => False

/-- An insertion of the key that has not met the key. -/
def Inserts (hash : K → UInt64) (map : HashMap K V) (key : K) : Option (Pc K V) → Prop
  | none => True
  | some pc =>
      match pc with
      | .tryRead call | .tryReadExchange call _ => ∃ value, call = .tryInsert key value
      | .insertStart other _ | .insertExchange other _ _ | .insertRaise other _ _ _ _
      | .insertTombstone other _ _ | .insertClaim other _ _ _ | .insertCheck other _ _ _ =>
          other = key
      | .insertCompare other _ i _ => other = key ∧ ∀ entry,
          (map.buckets (slot hash map.bucketCount key i)).entry = some entry → entry.1 ≠ key
      | .lowerLoad _ reason | .lower _ reason _ => reason.Differs key
      | .insertGiveUp _ failure => failure ≠ .keyRepeated
      | .insertConstruct _ _ _ | .insertCount _ _ | .insertPublish _ _ => True
      | .unlockRead outcome => outcome ≠ .insertFailed .keyRepeated
      | _ => False

def Progress.Inserts (hash : K → UInt64) (map : HashMap K V) (key : K) : Progress K V → Prop
  | .running pc => HashMap.Inserts hash map key (some pc)
  | .done _ => True

omit [DecidableEq K] in
theorem insertAt_inserts {value : V} (claim : Option ℕ) :
    (map.insertAt key value i claim).Inserts hash next key := by
  cases claim with
  | none =>
      simp only [insertAt]
      split
      · rfl
      · trivial
  | some claim =>
      simp only [insertAt]
      split
      · rfl
      · trivial

omit [DecidableEq K] in
theorem insertFail_inserts (claim : Option ℕ) :
    (insertFail .retry claim : Progress K V).Inserts hash map key := by
  cases claim with
  | none => simp [insertFail, leave, Progress.Inserts, Inserts]
  | some claim => simp [insertFail, Progress.Inserts, Inserts]

omit [DecidableEq K] in
theorem insertAgain_inserts {value : V} (claim : Option ℕ) :
    (insertAgain key value i claim).Inserts hash map key := by
  cases claim <;> rfl

/-- An insertion in a map without the key. -/
theorem resume_inserts (absent : ∀ index, ¬ Present (map.buckets index) key)
    (inserts : Inserts hash map key (some pc))
    (resumed : resume hash map spurious pc = some (next, progress)) :
    progress.Inserts hash next key := by
  cases pc with
  | tryRead call =>
      obtain ⟨value, rfl⟩ := inserts
      simp only [resume] at resumed
      split at resumed <;> cases resumed
      · trivial
      · exact ⟨value, rfl⟩
  | tryReadExchange call expected =>
      obtain ⟨value, rfl⟩ := inserts
      simp only [resume, enter, Option.map_some] at resumed
      split at resumed <;> cases resumed
      · rfl
      · exact ⟨value, rfl⟩
  | unlockRead outcome =>
      cases resumed
      trivial
  | insertStart other value =>
      cases inserts
      simp only [resume] at resumed
      split at resumed <;> cases resumed
      · simp [leave, Progress.Inserts, Inserts]
      · exact insertAt_inserts none
  | insertExchange other value i =>
      cases inserts
      simp only [resume] at resumed
      split at resumed
      · cases resumed
        trivial
      · split at resumed <;> cases resumed <;> simp [leave, Progress.Inserts, Inserts]
  | insertRaise other value i claim refcount =>
      cases inserts
      simp only [resume] at resumed
      split at resumed
      · rename_i filled
        cases resumed
        refine ⟨rfl, fun entry found same => ?_⟩
        simp only [setState_entry, setState_bucketCount] at found
        refine absent _ ⟨by rw [filled], entry.2, ?_⟩
        rw [found, ← same]
      · split at resumed <;> cases resumed
        · exact insertFail_inserts claim
        · exact insertAgain_inserts claim
  | insertCompare other value i claim =>
      obtain ⟨same, differs⟩ := inserts
      subst same
      simp only [resume, Option.map_eq_some_iff, Prod.mk.injEq] at resumed
      obtain ⟨entry, found, rfl, rfl⟩ := resumed
      exact ⟨rfl, beq_eq_false_iff_ne.mpr (differs entry found)⟩
  | insertTombstone other value i =>
      simp only [resume] at resumed
      split at resumed <;> cases resumed <;> exact inserts
  | insertClaim other value i expected =>
      cases inserts
      simp only [resume] at resumed
      split at resumed <;> cases resumed
      · exact insertAt_inserts _
      · rfl
  | insertCheck other value i claim =>
      cases inserts
      simp only [resume] at resumed
      split at resumed <;> cases resumed <;>
        first | exact insertAt_inserts _ | simp [Progress.Inserts, Inserts]
  | insertGiveUp claim failure =>
      cases resumed
      simpa [leave, Progress.Inserts, Inserts] using inserts
  | insertConstruct other value claim | insertCount other claim =>
      cases resumed
      trivial
  | insertPublish other claim =>
      cases resumed
      simp [leave, Progress.Inserts, Inserts]
  | lowerLoad touched reason =>
      cases resumed
      exact inserts
  | lower touched reason expected =>
      simp only [resume] at resumed
      split at resumed
      · cases resumed
        cases reason with
        | insertCompared other value i claim same =>
            obtain ⟨rfl, rfl⟩ := inserts
            exact insertAt_inserts claim
        | _ => exact inserts.elim
      · cases resumed
        exact inserts
  | _ => exact inserts.elim

omit [DecidableEq K] in
theorem Inserts.mono {place : Option (Pc K V)} (inserts : Inserts hash map key place)
    (kept : ∀ index, (.visiting, index) ∈ localClaims hash map.bucketCount place →
      next.bucketCount = map.bucketCount ∧ (next.buckets index).entry = (map.buckets index).entry) :
    Inserts hash next key place := by
  cases place with
  | none => trivial
  | some pc =>
      cases pc with
      | insertCompare other value i claim =>
          obtain ⟨same, differs⟩ := inserts
          subst same
          obtain ⟨sized, entry⟩ := kept (slot hash map.bucketCount other i)
            (by simp [localClaims, Pc.claims])
          refine ⟨rfl, fun found => ?_⟩
          rw [sized, entry]
          exact differs found
      | _ => exact inserts

theorem Coherent.inserts_of_move (coherent : Coherent hash pool)
    {label : Thread × Choice (Call K V)} {after : Pool Thread (HashMap K V) (Option (Pc K V))}
    (absent : ∀ index, ¬ Present (pool.shared.buckets index) key)
    (inserts : Inserts hash pool.shared key (pool.locals thread)) (inCall : InCall thread label)
    (moved : (machine Thread V hash).move pool label = some after) :
    Inserts hash after.shared key (after.locals thread) := by
  obtain ⟨shared, finish, advanced, rfl⟩ := Program.move_eq_some.mp moved
  obtain ⟨mover, choice⟩ := label
  by_cases own : mover = thread
  · subst own
    obtain ⟨spurious, stepping⟩ := inCall rfl
    change choice = _ at stepping
    subst stepping
    simp only [Function.update_self]
    rcases advance_eq_some advanced with ⟨call, pc, stands, _, _⟩ |
      ⟨pc, weak, after, progress, stands, resumed, rfl, rfl⟩
    · rw [stands] at advanced
      contradiction
    · rw [stands] at inserts
      have inserted := resume_inserts absent inserts resumed
      cases progress with
      | running pc => exact inserted
      | done outcome => cases outcome <;> trivial
  · simp only [Function.update_of_ne (Ne.symm own)]
    refine inserts.mono fun index visits => coherent.entry_shared ?_ advanced
    have counted := (coherent.lawful index).counted
    have positive := held_pos visits
    omega

/-! ## What the answers mean -/

/-- The call begins its probe for the key. -/
def BeginsSearch (key : K) : Pc K V → Prop
  | .getLoad other _ 0 | .removeExchange other 0 => other = key
  | _ => False

/-- What the calls of a thread may answer about a key. -/
structure Truthful (hash : K → UInt64) (pool : Pool Thread (HashMap K V) (Option (Pc K V)))
    (thread : Thread) (key : K) : Prop where
  /-- A key that is there when the probe begins, and whose bucket no other thread
  buries, is not reported missing. -/
  found : ∀ index pc last outcome, pool.locals thread = some pc → BeginsSearch key pc →
    Present (pool.shared.buckets index) key →
      (machine Thread V hash).Run (fun state label => InCall thread label ∧
        (label.1 ≠ thread → ∀ value, state.locals label.1 ≠ some (.removeBury index value)))
        pool last →
        last.locals thread = some (.unlockRead outcome) → outcome.missing = false
  /-- A key that is reported as repeated has been there during the call. -/
  repeated : ∀ value last, pool.locals thread = some (.tryRead (.tryInsert key value)) →
    (machine Thread V hash).Run (fun _ label => InCall thread label) pool last →
      last.locals thread = some (.unlockRead (.insertFailed .keyRepeated)) →
        ∃ middle, (machine Thread V hash).Run (fun _ label => InCall thread label) pool middle ∧
          (machine Thread V hash).Run (fun _ label => InCall thread label) middle last ∧
            ∃ index, Present (middle.shared.buckets index) key

theorem seeks_of_run (reachable : (machine Thread V hash).Reachable Machine.free pool)
    (seeks : Seeks hash pool.shared key index (pool.locals thread))
    (run : (machine Thread V hash).Run (fun state label => InCall thread label ∧
      (label.1 ≠ thread → ∀ value, state.locals label.1 ≠ some (.removeBury index value)))
      pool last) :
    Seeks hash last.shared key index (last.locals thread) := by
  refine (run.reachable_preserves
    (fun state => Seeks hash state.shared key index (state.locals thread)) reachable
    (fun _ _ _ => trivial) ?_ seeks).2
  intro state label next reached standing allowed moved
  exact (coherent_of_reachable reached).seeks_of_move standing allowed.1 allowed.2 moved

theorem inserts_of_run (reachable : (machine Thread V hash).Reachable Machine.free pool)
    (inserts : Inserts hash pool.shared key (pool.locals thread))
    (run : (machine Thread V hash).Run (fun state label => InCall thread label ∧
      ¬ ∃ index, Present (state.shared.buckets index) key) pool last) :
    Inserts hash last.shared key (last.locals thread) := by
  refine (run.reachable_preserves
    (fun state => Inserts hash state.shared key (state.locals thread)) reachable
    (fun _ _ _ => trivial) ?_ inserts).2
  intro state label next reached standing allowed moved
  have absent := not_exists.mp allowed.2
  exact (coherent_of_reachable reached).inserts_of_move absent standing allowed.1 moved

theorem truthful_of_reachable (reachable : (machine Thread V hash).Reachable Machine.free pool)
    (thread : Thread) (key : K) : Truthful hash pool thread key where
  found := by
    intro index pc last outcome stands begins present run answers
    have coherent := coherent_of_reachable reachable
    have within : index < pool.shared.bucketCount := by
      by_contra beyond
      have filled := present.1
      rw [coherent.outside index (by omega)] at filled
      cases filled
    obtain ⟨value, entry⟩ := present.2
    have leads := (searchable_of_reachable reachable).routed index (key, value) entry
    obtain ⟨i, below, visits, passed⟩ := leads.within coherent.sized within
    have ahead : Ahead hash pool.shared key index 0 :=
      ⟨⟨i, Nat.zero_le i, below, visits, passed⟩, present.intact⟩
    have seeks : Seeks hash pool.shared key index (pool.locals thread) := by
      rw [stands]
      cases pc with
      | getLoad other contains i =>
          cases i with
          | zero => exact ⟨begins, ahead⟩
          | succ i => exact begins.elim
      | removeExchange other i =>
          cases i with
          | zero => exact ⟨begins, ahead⟩
          | succ i => exact begins.elim
      | _ => exact begins.elim
    have sought := seeks_of_run reachable seeks run
    rw [answers] at sought
    exact sought
  repeated := by
    intro value last stands run answers
    rcases run.avoids fun state => ¬ ∃ index, Present (state.shared.buckets index) key
      with absent | ⟨middle, before, after, present⟩
    · have inserts : Inserts hash pool.shared key (pool.locals thread) := by
        rw [stands]
        exact ⟨value, rfl⟩
      have inserted := inserts_of_run reachable inserts absent
      rw [answers] at inserted
      exact absurd rfl inserted
    · exact ⟨middle, before, after, not_not.mp present⟩

/-- A key is inserted; one thread begins to look for it and another one to insert
it again. -/
theorem truthful_of_reachable_contending :
    ∃ pool : Pool (Fin 2) (HashMap ℕ ℕ) (Option (Pc ℕ ℕ)),
      (machine (Fin 2) ℕ UInt64.ofNat).Reachable Machine.free pool ∧
        ((pool.locals 0 = some (.getLoad 5 false 0) ∧
          pool.locals 1 = some (.tryRead (.tryInsert 5 8))) ∧
            Present (pool.shared.buckets 5) 5) ∧
        Truthful UInt64.ofNat pool 0 5 ∧ Truthful UInt64.ofNat pool 1 5 := by
  obtain ⟨pool, reachable, standing⟩ :=
    Machine.reachable_of_exec (machine (Fin 2) ℕ UInt64.ofNat) Machine.free (unused (Fin 2) ℕ ℕ)
      (List.flatten
        [(0, .call (.tryInsert 5 7)) :: List.replicate 8 (0, .step false),
          [(0, .call (.tryGet 5)), (0, .step false), (0, .step false),
            (1, .call (.tryInsert 5 8))]])
      (fun pool => (pool.locals 0 = some (.getLoad 5 false 0) ∧
        pool.locals 1 = some (.tryRead (.tryInsert 5 8))) ∧ Present (pool.shared.buckets 5) 5)
      rfl ⟨_, rfl, ⟨rfl, rfl⟩, rfl, 7, rfl⟩
  exact ⟨pool, reachable, standing, truthful_of_reachable reachable 0 5,
    truthful_of_reachable reachable 1 5⟩

end Asco.Concurrency.HashMap
