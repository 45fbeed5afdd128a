import Asco.Concurrency.HashMap.Paths

namespace Asco.Concurrency.HashMap

open Foundation

/-! # The buckets an insertion has before it -/

variable {K V : Type*} {hash : K → UInt64} {map next : HashMap K V} {pc : Pc K V}
  {progress : Progress K V} {spurious : Bool} {key : K} {value : V} {i index : ℕ}
  {others : Claim → ℕ}

/-- The bucket is filled with another key. -/
def Closed (bucket : Bucket K V) (key : K) : Prop :=
  bucket.state.state = .filled ∧ ∃ entry, bucket.entry = some entry ∧ entry.1 ≠ key

section

variable (hash : K → UInt64) (map : HashMap K V) (key : K) (i : ℕ)

/-- At position `i` or later an insertion of the key comes to a bucket that it
does not pass. -/
def Open : Prop :=
  ∃ j, i ≤ j ∧ j < map.bucketCount ∧ ¬ Closed (map.buckets (slot hash map.bucketCount key j)) key

/-- An insertion of the key has claimed no bucket and goes on at position `i`. -/
def Looks : Option (Pc K V) → Prop
  | some (.insertExchange other _ j) | some (.insertTombstone other _ j)
  | some (.insertClaim other _ j _) | some (.insertRaise other _ j none _) => other = key ∧ j = i
  | some (.insertCompare other _ j none) => (other = key ∧ j + 1 = i) ∧
      ∀ entry, (map.buckets (slot hash map.bucketCount key j)).entry = some entry → entry.1 ≠ key
  | some (.lowerLoad _ (.insertCompared other _ j none false))
  | some (.lower _ (.insertCompared other _ j none false) _) => other = key ∧ j + 1 = i
  | _ => False

end

/-- The bucket that the next step makes `filled`. -/
def fills : Option (Pc K V) → Option ℕ
  | some (.insertPublish _ claim) => some claim
  | some (.lower index (.removeOther _ _) _) | some (.lower index .removeProtected _) => some index
  | _ => none

theorem setState_filled {touched : ℕ} {state : BucketState}
    (filled : ((map.setState touched state).buckets index).state.state = .filled) :
    (map.buckets index).state.state = .filled ∨ touched = index ∧ state.state = .filled := by
  by_cases here : index = touched
  · subst here
    exact .inr ⟨rfl, by simpa using filled⟩
  · rw [setState_of_ne here] at filled
    exact .inl filled

/-- A filled bucket has an entry. -/
theorem Law.present {bucket : Bucket K V} {guards : ℕ} {roles : Role → ℕ}
    (law : Law bucket guards roles) (filled : bucket.state.state = .filled) :
    bucket.entry.isSome := by
  have removed := law.removed
  have stored := law.stored
  simp only [filled, reduceCtorEq, true_or, if_true, if_false] at removed stored
  by_contra vacant
  rw [if_neg vacant] at stored
  omega

variable [DecidableEq K]

/-- Only a publication and a removal that is taken back make a bucket `filled`. -/
theorem resume_filled (writes : pc.writing = 0)
    (resumed : resume hash map spurious pc = some (next, progress))
    (filled : (next.buckets index).state.state = .filled) :
    (map.buckets index).state.state = .filled ∨ fills (some pc) = some index := by
  cases pc with
  | rehashLoad touched fresh | rehashWait touched fresh | rehashMove touched fresh
  | rehashSwap fresh | unlockWrite => simp [Pc.writing] at writes
  | tryReadExchange call expected =>
      simp only [resume] at resumed
      split at resumed
      · simp only [Option.map_eq_some_iff, Prod.mk.injEq] at resumed
        obtain ⟨entered, _, rfl, rfl⟩ := resumed
        exact .inl filled
      · cases resumed
        exact .inl filled
  | insertExchange other value i =>
      simp only [resume] at resumed
      split at resumed
      · cases resumed
        exact (setState_filled filled).imp_right fun here => absurd here.2 (by simp)
      · split at resumed <;> cases resumed <;> exact .inl filled
  | insertRaise other value i claim refcount =>
      simp only [resume] at resumed
      split at resumed
      · rename_i before
        cases resumed
        rcases setState_filled filled with elsewhere | ⟨here, _⟩
        · exact .inl elsewhere
        · rw [← here, before]
          exact .inl rfl
      · split at resumed <;> cases resumed <;> exact .inl filled
  | insertClaim other value i expected =>
      simp only [resume] at resumed
      split at resumed <;> cases resumed
      · exact (setState_filled filled).imp_right fun here => absurd here.2 (by simp)
      · exact .inl filled
  | insertGiveUp claim failure =>
      cases resumed
      exact (setState_filled filled).imp_right fun here => absurd here.2 (by simp)
  | insertConstruct other value claim =>
      cases resumed
      refine .inl ?_
      by_cases here : index = claim
      · subst here
        simpa [setEntry] using filled
      · rwa [setEntry_of_ne here] at filled
  | insertPublish other claim =>
      cases resumed
      exact (setState_filled filled).imp_right fun here => congrArg some here.1
  | removeExchange other i =>
      simp only [resume] at resumed
      split at resumed
      · cases resumed
        exact (setState_filled filled).imp_right fun here => absurd here.2 (by simp)
      · split at resumed <;> cases resumed <;> exact .inl filled
  | removeRaise other i refcount | removeDrain touched expected =>
      simp only [resume] at resumed
      split at resumed <;> cases resumed
      · exact (setState_filled filled).imp_right fun here => absurd here.2 (by simp)
      · exact .inl filled
  | removeTake touched =>
      simp only [resume, Option.map_eq_some_iff, Prod.mk.injEq] at resumed
      obtain ⟨taken, _, rfl, rfl⟩ := resumed
      refine .inl ?_
      by_cases here : index = touched
      · subst here
        simpa [setEntry] using filled
      · rwa [setEntry_of_ne here] at filled
  | removeBury touched value =>
      cases resumed
      exact (setState_filled filled).imp_right fun here => absurd here.2 (by simp)
  | getRaise other contains i refcount =>
      simp only [resume] at resumed
      split at resumed
      · rename_i before
        cases resumed
        rcases setState_filled filled with elsewhere | ⟨here, _⟩
        · exact .inl elsewhere
        · rw [← here, before.1]
          exact .inl rfl
      · cases resumed
        exact .inl filled
  | lower touched reason expected =>
      simp only [resume] at resumed
      split at resumed
      · rename_i before
        cases resumed
        rcases setState_filled filled with elsewhere | ⟨here, state⟩
        · exact .inl elsewhere
        · cases reason with
          | removeOther other i | removeProtected => exact .inr (congrArg some here)
          | _ =>
              rw [← here, before.1]
              exact .inl state
      · cases resumed
        exact .inl filled
  | insertCompare other value i claim =>
      simp only [resume, Option.map_eq_some_iff, Prod.mk.injEq] at resumed
      obtain ⟨seen, _, rfl, rfl⟩ := resumed
      exact .inl filled
  | removeCompare other i =>
      simp only [resume, Option.map_eq_some_iff] at resumed
      obtain ⟨seen, _, compared⟩ := resumed
      split at compared <;> cases compared <;> exact .inl filled
  | getCompare other contains i =>
      simp only [resume, Option.map_eq_some_iff] at resumed
      obtain ⟨seen, _, compared⟩ := resumed
      split at compared
      · split at compared <;> cases compared <;> exact .inl filled
      · cases compared
        exact .inl filled
  | tryRead call | insertStart other value | insertTombstone other value i
  | insertCheck other value i claim | removeConfirm touched | removeDrainLoad touched
  | getLoad other contains i | tryWrite | tryWriteExchange =>
      simp only [resume] at resumed
      split at resumed <;> cases resumed <;> exact .inl filled
  | removeLoad other i =>
      simp only [resume] at resumed
      split at resumed
      · cases resumed
        exact .inl filled
      · split at resumed <;> cases resumed <;> exact .inl filled
  | unlockRead outcome | insertCount other claim | removeCount touched value
  | lowerLoad touched reason =>
      cases resumed
      exact .inl filled

/-- A bucket is closed by the step that fills it. -/
theorem resume_closed (lawful : Lawful map others (pc.claims hash map.bucketCount))
    (writes : pc.writing = 0) (resumed : resume hash map spurious pc = some (next, progress))
    (closed : Closed (next.buckets index) key) :
    Closed (map.buckets index) key ∨ fills (some pc) = some index ∧
      Closed ((map.setState index ⟨0, .filled⟩).buckets index) key := by
  obtain ⟨filled, entry, found, different⟩ := closed
  have filling := resume_filled writes resumed filled
  have before : (map.buckets index).entry = some entry := by
    by_cases constructs : ∃ other value claim, pc = .insertConstruct other value claim
    · obtain ⟨other, value, claim, rfl⟩ := constructs
      cases resumed
      by_cases here : index = claim
      · subst here
        have constructing := lawful.constructing (.inl (List.mem_cons_self))
        simp [setEntry, constructing] at filled
      · rwa [setEntry_of_ne here] at found
    · refine resume_entry ?_ ?_ resumed found
      · intro fresh swaps
        rw [swaps] at writes
        exact absurd writes Nat.one_ne_zero
      · exact fun other value claim same => constructs ⟨other, value, claim, same⟩
  rcases filling with already | fills
  · exact .inl ⟨already, entry, before, different⟩
  · exact .inr ⟨fills, by simp, entry, by simpa using before, different⟩

/-! ## The step of the insertion itself -/

/-- The call does not go on to look for a bucket without a claim. -/
def Progress.Claims : Progress K V → Prop
  | .running (.insertExchange _ _ _) | .running (.insertTombstone _ _ _)
  | .running (.insertClaim _ _ _ _) | .running (.insertRaise _ _ _ none _)
  | .running (.insertCompare _ _ _ none)
  | .running (.lowerLoad _ (.insertCompared _ _ _ none _))
  | .running (.lower _ (.insertCompared _ _ _ none _) _) => False
  | _ => True

omit [DecidableEq K] in
theorem Progress.Claims.not_looks (claims : progress.Claims) :
    ¬ Looks hash map key i progress.place := by
  cases progress with
  | done outcome => exact id
  | running pc =>
      cases pc with
      | insertExchange other value j => exact claims.elim
      | insertTombstone other value j => exact claims.elim
      | insertClaim other value j expected => exact claims.elim
      | insertRaise other value j claim refcount =>
          cases claim with
          | none => exact claims.elim
          | some claim => exact id
      | insertCompare other value j claim =>
          cases claim with
          | none => exact claims.elim
          | some claim => exact id
      | lowerLoad touched reason =>
          cases reason with
          | insertCompared other value j claim same =>
              cases claim with
              | none => exact claims.elim
              | some claim => exact id
          | _ => exact id
      | lower touched reason expected =>
          cases reason with
          | insertCompared other value j claim same =>
              cases claim with
              | none => exact claims.elim
              | some claim => exact id
          | _ => exact id
      | _ => exact id

section

variable {j : ℕ}

omit [DecidableEq K] in
theorem insertAt_some_claims (claim : ℕ) : (map.insertAt key value i (some claim)).Claims := by
  simp only [insertAt]
  split <;> trivial

omit [DecidableEq K] in
theorem insertFail_claims_all (failure : InsertFailed) (claim : Option ℕ) :
    (insertFail failure claim : Progress K V).Claims := by
  cases claim <;> trivial

omit [DecidableEq K] in
theorem removeAt_claims_all : (map.removeAt key i).Claims := by
  simp only [removeAt]
  split <;> trivial

omit [DecidableEq K] in
theorem getAt_claims_all (contains : Bool) : (map.getAt key contains i).Claims := by
  simp only [getAt]
  split <;> trivial

omit [DecidableEq K] in
theorem insertAt_none_looks {other : K}
    (looks : Looks hash next key i (map.insertAt other value j none).place) :
    other = key ∧ j = i := by
  simp only [insertAt] at looks
  split at looks
  · exact looks
  · exact looks.elim

end

/-- What an insertion without a claim still has before it. -/
theorem resume_looks
    (present : ∀ index, (map.buckets index).state.state = .filled →
      (map.buckets index).entry.isSome)
    (begins : ∀ other value, pc = .insertStart other value → 5 * map.load < 3 * map.bucketCount →
      Open hash map other 0)
    (spacious : ∀ key i, Looks hash map key i (some pc) → Open hash map key i)
    (resumed : resume hash map spurious pc = some (next, progress))
    (looks : Looks hash next key i progress.place) : Open hash map key i := by
  cases pc with
  | insertStart other value =>
      simp only [resume] at resumed
      split at resumed <;> cases resumed
      · exact looks.elim
      · rename_i room
        obtain ⟨rfl, rfl⟩ := insertAt_none_looks looks
        exact begins other value rfl (by omega)
  | insertExchange other value j =>
      have room := spacious other j ⟨rfl, rfl⟩
      simp only [resume] at resumed
      split at resumed
      · cases resumed
        exact looks.elim
      · split at resumed <;> cases resumed
        · exact looks.elim
        · exact looks.elim
        · exact looks.elim
        · obtain ⟨rfl, rfl⟩ := looks
          exact room
        · obtain ⟨rfl, rfl⟩ := looks
          exact room
        · obtain ⟨rfl, rfl⟩ := looks
          exact room
  | insertRaise other value j claim refcount =>
      simp only [resume] at resumed
      split at resumed
      · rename_i filled
        cases resumed
        cases claim with
        | some claim => exact looks.elim
        | none =>
            obtain ⟨⟨rfl, rfl⟩, differs⟩ := looks
            obtain ⟨k, later, below, notClosed⟩ := spacious other j ⟨rfl, rfl⟩
            refine ⟨k, ?_, below, notClosed⟩
            rcases Nat.lt_or_eq_of_le later with after | here
            · exact after
            · subst here
              have state : (map.buckets (slot hash map.bucketCount other j)).state.state =
                  .filled := by
                rw [filled]
              obtain ⟨entry, found⟩ := Option.isSome_iff_exists.mp (present _ state)
              have different := differs entry (by simpa using found)
              exact absurd ⟨state, entry, found, different⟩ notClosed
      · split at resumed <;> cases resumed
        · exact absurd looks (insertFail_claims_all .retry claim).not_looks
        · cases claim with
          | none =>
              obtain ⟨rfl, rfl⟩ := looks
              exact spacious other j ⟨rfl, rfl⟩
          | some claim => exact looks.elim
  | insertCompare other value j claim =>
      simp only [resume, Option.map_eq_some_iff, Prod.mk.injEq] at resumed
      obtain ⟨entry, found, rfl, rfl⟩ := resumed
      cases claim with
      | some claim => exact looks.elim
      | none =>
          cases same : (entry.1 == other) with
          | true =>
              rw [same] at looks
              exact looks.elim
          | false =>
              rw [same] at looks
              obtain ⟨rfl, rfl⟩ := looks
              refine spacious other (j + 1) ⟨⟨rfl, rfl⟩, fun seen again => ?_⟩
              rw [found] at again
              cases again
              exact beq_eq_false_iff_ne.mp same
  | insertTombstone other value j =>
      have room := spacious other j ⟨rfl, rfl⟩
      simp only [resume] at resumed
      split at resumed <;> cases resumed
      · obtain ⟨rfl, rfl⟩ := looks
        exact room
      · obtain ⟨rfl, rfl⟩ := looks
        exact room
  | insertClaim other value j expected =>
      have room := spacious other j ⟨rfl, rfl⟩
      simp only [resume] at resumed
      split at resumed <;> cases resumed
      · exact absurd looks (insertAt_some_claims _).not_looks
      · obtain ⟨rfl, rfl⟩ := looks
        exact room
  | insertCheck other value j claim =>
      simp only [resume] at resumed
      split at resumed <;> cases resumed
      · exact absurd looks (insertAt_some_claims claim).not_looks
      · exact looks.elim
      · exact looks.elim
      · exact looks.elim
      · exact looks.elim
      · exact looks.elim
  | lowerLoad touched reason =>
      cases resumed
      cases reason with
      | insertCompared other value j claim same =>
          cases claim with
          | some claim => exact looks.elim
          | none =>
              cases same with
              | true => exact looks.elim
              | false => exact spacious key i looks
      | _ => exact looks.elim
  | lower touched reason expected =>
      simp only [resume] at resumed
      split at resumed
      · cases resumed
        cases reason with
        | insertCompared other value j claim same =>
            cases same with
            | true => exact absurd looks (insertFail_claims_all .keyRepeated claim).not_looks
            | false =>
                cases claim with
                | none =>
                    obtain ⟨rfl, rfl⟩ := insertAt_none_looks looks
                    exact spacious other (j + 1) ⟨rfl, rfl⟩
                | some claim => exact absurd looks (insertAt_some_claims claim).not_looks
        | removeOther other j => exact absurd looks removeAt_claims_all.not_looks
        | getOther other contains j => exact absurd looks (getAt_claims_all contains).not_looks
        | _ => exact looks.elim
      · cases resumed
        cases reason with
        | insertCompared other value j claim same =>
            cases claim with
            | some claim => exact looks.elim
            | none =>
                cases same with
                | true => exact looks.elim
                | false => exact spacious key i looks
        | _ => exact looks.elim
  | tryReadExchange call expected =>
      simp only [resume] at resumed
      split at resumed
      · simp only [Option.map_eq_some_iff, Prod.mk.injEq] at resumed
        obtain ⟨entered, found, rfl, rfl⟩ := resumed
        cases call with
        | tryInsert other value =>
            cases found
            exact looks.elim
        | tryRemove other =>
            cases found
            exact absurd looks removeAt_claims_all.not_looks
        | tryGet other =>
            cases found
            exact absurd looks (getAt_claims_all false).not_looks
        | tryContains other =>
            cases found
            exact absurd looks (getAt_claims_all true).not_looks
        | tryRehash => contradiction
        | drop touched => contradiction
      · cases resumed
        exact looks.elim
  | removeExchange other j =>
      simp only [resume] at resumed
      split at resumed
      · cases resumed
        exact looks.elim
      · split at resumed <;> cases resumed
        · exact looks.elim
        · exact looks.elim
        · exact looks.elim
        · exact looks.elim
        · exact absurd looks removeAt_claims_all.not_looks
        · exact absurd looks removeAt_claims_all.not_looks
  | getLoad other contains j =>
      simp only [resume] at resumed
      split at resumed <;> cases resumed
      · exact looks.elim
      · exact looks.elim
      · exact looks.elim
      · exact absurd looks (getAt_claims_all contains).not_looks
      · exact absurd looks (getAt_claims_all contains).not_looks
      · exact looks.elim
  | removeLoad other j =>
      simp only [resume] at resumed
      split at resumed
      · cases resumed
        exact looks.elim
      · split at resumed <;> cases resumed <;> exact looks.elim
  | removeCompare other j =>
      simp only [resume, Option.map_eq_some_iff] at resumed
      obtain ⟨seen, _, compared⟩ := resumed
      split at compared <;> cases compared <;> exact looks.elim
  | getCompare other contains j =>
      simp only [resume, Option.map_eq_some_iff] at resumed
      obtain ⟨seen, _, compared⟩ := resumed
      split at compared
      · split at compared <;> cases compared <;> exact looks.elim
      · cases compared
        exact looks.elim
  | rehashLoad touched fresh =>
      simp only [resume] at resumed
      split at resumed
      · split at resumed <;> cases resumed <;> exact looks.elim
      · cases resumed
        exact looks.elim
  | rehashMove touched fresh =>
      simp only [resume, Option.map_eq_some_iff] at resumed
      obtain ⟨moved, _, placed⟩ := resumed
      split at placed <;> cases placed <;> exact looks.elim
  | removeTake touched =>
      simp only [resume, Option.map_eq_some_iff, Prod.mk.injEq] at resumed
      obtain ⟨taken, _, rfl, rfl⟩ := resumed
      exact looks.elim
  | tryRead call | removeRaise other j refcount | removeConfirm touched | removeDrainLoad touched
  | removeDrain touched expected | getRaise other contains j refcount | tryWrite
  | tryWriteExchange | rehashWait touched fresh =>
      simp only [resume] at resumed
      split at resumed <;> cases resumed <;> exact looks.elim
  | unlockRead outcome | insertGiveUp claim failure | insertConstruct other value claim
  | insertCount other claim | insertPublish other claim | removeCount touched value
  | removeBury touched value | rehashSwap fresh | unlockWrite =>
      cases resumed
      exact looks.elim

/-! ## The end of `do_insert` -/

/-- The call has not come to `std::unreachable()`. -/
def Progress.Returns : Progress K V → Prop
  | .done .unreachable | .running (.unlockRead .unreachable) => False
  | _ => True

omit [DecidableEq K] in
theorem insertAt_returns (claim : Option ℕ) (below : claim = none → i < map.bucketCount) :
    (map.insertAt key value i claim).Returns := by
  cases claim with
  | none =>
      rw [insertAt, if_pos (below rfl)]
      trivial
  | some claim =>
      simp only [insertAt]
      split <;> trivial

omit [DecidableEq K] in
theorem insertFail_returns (failure : InsertFailed) (claim : Option ℕ) :
    (insertFail failure claim : Progress K V).Returns := by
  cases claim <;> trivial

omit [DecidableEq K] in
theorem insertAgain_returns (claim : Option ℕ) : (insertAgain key value i claim).Returns := by
  cases claim <;> trivial

omit [DecidableEq K] in
theorem removeAt_returns : (map.removeAt key i).Returns := by
  simp only [removeAt]
  split <;> trivial

omit [DecidableEq K] in
theorem getNone_returns (contains : Bool) : (getNone contains : Progress K V).Returns := by
  cases contains <;> trivial

omit [DecidableEq K] in
theorem getAt_returns (contains : Bool) : (map.getAt key contains i).Returns := by
  simp only [getAt]
  split
  · trivial
  · exact getNone_returns contains

/-- A call that has a bucket left to visit does not come to the end. -/
theorem resume_returns (sized : WellSized map.bucketCount)
    (standing : (Progress.running pc).Returns)
    (spacious : ∀ key i, Looks hash map key i (some pc) → Open hash map key i)
    (resumed : resume hash map spurious pc = some (next, progress)) : progress.Returns := by
  cases pc with
  | unlockRead outcome =>
      cases resumed
      cases outcome with
      | unreachable => exact standing.elim
      | _ => trivial
  | tryRead call =>
      simp only [resume] at resumed
      split at resumed <;> cases resumed
      · cases call <;> trivial
      · trivial
  | tryReadExchange call expected =>
      simp only [resume] at resumed
      split at resumed
      · simp only [Option.map_eq_some_iff, Prod.mk.injEq] at resumed
        obtain ⟨entered, found, rfl, rfl⟩ := resumed
        cases call with
        | tryInsert other value =>
            cases found
            trivial
        | tryRemove other =>
            cases found
            exact removeAt_returns
        | tryGet other =>
            cases found
            exact getAt_returns false
        | tryContains other =>
            cases found
            exact getAt_returns true
        | tryRehash => contradiction
        | drop touched => contradiction
      · cases resumed
        trivial
  | insertStart other value =>
      simp only [resume] at resumed
      split at resumed <;> cases resumed
      · trivial
      · exact insertAt_returns none fun _ => sized.pos
  | insertExchange other value j =>
      simp only [resume] at resumed
      split at resumed
      · cases resumed
        trivial
      · split at resumed <;> cases resumed <;> trivial
  | insertRaise other value j claim refcount =>
      simp only [resume] at resumed
      split at resumed
      · cases resumed
        trivial
      · split at resumed <;> cases resumed
        · exact insertFail_returns .retry claim
        · exact insertAgain_returns claim
  | insertClaim other value j expected =>
      simp only [resume] at resumed
      split at resumed <;> cases resumed
      · exact insertAt_returns _ (by simp)
      · trivial
  | insertCheck other value j claim =>
      simp only [resume] at resumed
      split at resumed <;> cases resumed
      · exact insertAt_returns _ (by simp)
      · trivial
      · trivial
      · trivial
      · trivial
      · trivial
  | insertCompare other value j claim =>
      simp only [resume, Option.map_eq_some_iff, Prod.mk.injEq] at resumed
      obtain ⟨entry, _, rfl, rfl⟩ := resumed
      trivial
  | removeTake touched =>
      simp only [resume, Option.map_eq_some_iff, Prod.mk.injEq] at resumed
      obtain ⟨taken, _, rfl, rfl⟩ := resumed
      trivial
  | lower touched reason expected =>
      simp only [resume] at resumed
      split at resumed
      · cases resumed
        cases reason with
        | insertCompared other value j claim same =>
            cases same with
            | true => exact insertFail_returns .keyRepeated claim
            | false =>
                refine insertAt_returns claim fun unclaimed => ?_
                subst unclaimed
                obtain ⟨k, later, below, _⟩ := spacious other (j + 1) ⟨rfl, rfl⟩
                exact Nat.lt_of_le_of_lt later below
        | removeOther other j => exact removeAt_returns
        | getOther other contains j => exact getAt_returns contains
        | _ => trivial
      · cases resumed
        trivial
  | removeExchange other j =>
      simp only [resume] at resumed
      split at resumed
      · cases resumed
        trivial
      · split at resumed <;> cases resumed <;> first | exact removeAt_returns | trivial
  | getLoad other contains j =>
      simp only [resume] at resumed
      split at resumed <;> cases resumed <;>
        first | exact getAt_returns contains | exact getNone_returns contains | trivial
  | removeLoad other j =>
      simp only [resume] at resumed
      split at resumed
      · cases resumed
        trivial
      · split at resumed <;> cases resumed <;> trivial
  | removeCompare other j =>
      simp only [resume, Option.map_eq_some_iff] at resumed
      obtain ⟨seen, _, compared⟩ := resumed
      split at compared <;> cases compared <;> trivial
  | getCompare other contains j =>
      simp only [resume, Option.map_eq_some_iff] at resumed
      obtain ⟨seen, _, compared⟩ := resumed
      split at compared
      · split at compared <;> cases compared <;> trivial
      · cases compared
        trivial
  | rehashLoad touched fresh =>
      simp only [resume] at resumed
      split at resumed
      · split at resumed <;> cases resumed <;> trivial
      · cases resumed
        trivial
  | rehashMove touched fresh =>
      simp only [resume, Option.map_eq_some_iff] at resumed
      obtain ⟨moved, _, placed⟩ := resumed
      split at placed <;> cases placed <;> trivial
  | insertTombstone other value j | removeRaise other j refcount | removeConfirm touched
  | removeDrainLoad touched | removeDrain touched expected | getRaise other contains j refcount
  | tryWrite | tryWriteExchange | rehashWait touched fresh =>
      simp only [resume] at resumed
      split at resumed <;> cases resumed <;> trivial
  | insertGiveUp claim failure | insertConstruct other value claim
  | insertCount other claim | insertPublish other claim | removeCount touched value
  | removeBury touched value | lowerLoad touched reason | rehashSwap fresh | unlockWrite =>
      cases resumed
      trivial

/-! ## The steps of the others -/

omit [DecidableEq K] in
theorem Closed.setState {touched refcount : ℕ} (closed : Closed (map.buckets index) key) :
    Closed ((map.setState touched ⟨refcount, .filled⟩).buckets index) key := by
  obtain ⟨filled, entry, found, different⟩ := closed
  refine ⟨?_, entry, by simpa using found, different⟩
  by_cases here : index = touched
  · subst here
    simp
  · rw [setState_of_ne here]
    exact filled

/-- A call that goes on to look has filled no bucket. -/
theorem fills_of_looks (resumed : resume hash map spurious pc = some (next, progress))
    (looks : Looks hash next key i progress.place) : fills (some pc) = none ∧ pc.writing = 0 := by
  cases pc with
  | insertPublish other claim =>
      cases resumed
      exact looks.elim
  | lower touched reason expected =>
      cases reason with
      | removeOther other j =>
          simp only [resume] at resumed
          split at resumed <;> cases resumed
          · exact absurd looks removeAt_claims_all.not_looks
          · exact looks.elim
      | removeProtected =>
          simp only [resume] at resumed
          split at resumed <;> cases resumed <;> exact looks.elim
      | _ => exact ⟨rfl, rfl⟩
  | rehashLoad touched fresh =>
      simp only [resume] at resumed
      split at resumed
      · split at resumed <;> cases resumed <;> exact looks.elim
      · cases resumed
        exact looks.elim
  | rehashWait touched fresh =>
      simp only [resume] at resumed
      split at resumed <;> cases resumed <;> exact looks.elim
  | rehashMove touched fresh =>
      simp only [resume, Option.map_eq_some_iff] at resumed
      obtain ⟨moved, _, placed⟩ := resumed
      split at placed <;> cases placed <;> exact looks.elim
  | rehashSwap fresh | unlockWrite =>
      cases resumed
      exact looks.elim
  | _ => exact ⟨rfl, rfl⟩

omit [DecidableEq K] in
theorem Looks.reading (looks : Looks hash map key i (some pc)) : pc.reading = 1 := by
  cases pc with
  | lowerLoad touched reason | lower touched reason expected =>
      cases reason with
      | guard => exact looks.elim
      | _ => rfl
  | tryRead call | tryReadExchange call expected | tryWrite | tryWriteExchange
  | rehashLoad touched fresh | rehashWait touched fresh | rehashMove touched fresh
  | rehashSwap fresh | unlockWrite => exact looks.elim
  | _ => rfl

omit [DecidableEq K] in
/-- What another thread does changes nothing about where an insertion goes on. -/
theorem Looks.back {place : Option (Pc K V)} (looks : Looks hash next key i place)
    (kept : ∀ index, (.visiting, index) ∈ localClaims hash map.bucketCount place →
      next.bucketCount = map.bucketCount ∧ (next.buckets index).entry = (map.buckets index).entry) :
    Looks hash map key i place := by
  cases place with
  | none => exact looks.elim
  | some pc =>
      cases pc with
      | insertCompare other value j claim =>
          cases claim with
          | some claim => exact looks.elim
          | none =>
              obtain ⟨⟨rfl, rfl⟩, differs⟩ := looks
              obtain ⟨sized, entry⟩ := kept (slot hash map.bucketCount other j)
                (by simp [localClaims, Pc.claims])
              rw [sized, entry] at differs
              exact ⟨⟨rfl, rfl⟩, differs⟩
      | insertRaise other value j claim refcount =>
          cases claim with
          | some claim => exact looks.elim
          | none => exact looks
      | lowerLoad touched reason | lower touched reason expected =>
          cases reason with
          | insertCompared other value j claim same =>
              cases claim with
              | some claim => exact looks.elim
              | none =>
                  cases same with
                  | true => exact looks.elim
                  | false => exact looks
          | _ => exact looks.elim
      | _ => exact looks

omit [DecidableEq K] in
/-- A step whose filled bucket leaves room. -/
theorem Open.step (room : Open hash map key i) (sized : next.bucketCount = map.bucketCount)
    (leaves : ∀ index ∈ fills (some pc), Open hash (map.setState index ⟨0, .filled⟩) key i)
    (closes : ∀ index, Closed (next.buckets index) key → Closed (map.buckets index) key ∨
      fills (some pc) = some index ∧ Closed ((map.setState index ⟨0, .filled⟩).buckets index) key) :
    Open hash next key i := by
  cases filled : fills (some pc) with
  | none =>
      obtain ⟨j, later, below, free⟩ := room
      refine ⟨j, later, by omega, fun closed => ?_⟩
      rw [sized] at closed
      rcases closes _ closed with before | ⟨fills, _⟩
      · exact free before
      · rw [filled] at fills
        contradiction
  | some touched =>
      obtain ⟨j, later, below, free⟩ := leaves touched filled
      rw [setState_bucketCount] at below free
      refine ⟨j, later, by omega, fun closed => ?_⟩
      rw [sized] at closed
      rcases closes _ closed with before | ⟨fills, after⟩
      · exact free before.setState
      · rw [filled, Option.some.injEq] at fills
        rw [fills] at free
        exact free after

end Asco.Concurrency.HashMap
