import Mathlib.Data.Set.Function
import Asco.Concurrency.HashMap.Coherence

namespace Asco.Concurrency.HashMap

open Foundation

/-! # The order in which the buckets are visited

The loops of `do_insert`, `do_remove`, `do_get` and `do_rehash` go through the
buckets in one order, which depends on the key and on the number of buckets.
-/

/-- `(begindex + i * (step % size)) % size`, with `begindex` as `hash % size`.
The words wrap around. -/
def probeIndex (size hash step i : UInt64) : UInt64 :=
  (hash % size + i * (step % size)) % size

section

variable {size hash step i : UInt64}

theorem WellSized.dvd_words (sized : WellSized size.toNat) : size.toNat ∣ 2 ^ 64 := by
  obtain ⟨exponent, same⟩ := sized.eq_two_pow
  have bound := size.toNat_lt
  rw [same] at bound ⊢
  exact pow_dvd_pow 2 ((Nat.pow_lt_pow_iff_right (by omega)).mp bound).le

theorem probeIndex_toNat (sized : WellSized size.toNat) :
    (probeIndex size hash step i).toNat =
      probe (hash.toNat % size.toNat) (step.toNat % size.toNat) size.toNat i.toNat :=
  probe_word sized.dvd_words

theorem probeIndex_mapsTo (sized : WellSized size.toNat) :
    Set.MapsTo (probeIndex size hash step) {i | i < size} {index | index < size} := by
  intro i _
  have within : (probeIndex size hash step i).toNat < size.toNat := by
    rw [probeIndex_toNat sized]
    exact probe_lt sized.pos _
  exact UInt64.lt_iff_toNat_lt.mpr within

theorem probeIndex_injOn (sized : WellSized size.toNat) (odd : Odd step.toNat) :
    Set.InjOn (probeIndex size hash step) {i | i < size} := by
  intro i first j second same
  have words := congrArg UInt64.toNat same
  rw [probeIndex_toNat sized, probeIndex_toNat sized] at words
  exact UInt64.toNat_inj.mp (probe_injective (sized.coprime_of_odd odd)
    (UInt64.lt_iff_toNat_lt.mp first) (UInt64.lt_iff_toNat_lt.mp second) words)

theorem probeIndex_surjOn (sized : WellSized size.toNat) (odd : Odd step.toNat) :
    Set.SurjOn (probeIndex size hash step) {i | i < size} {index | index < size} := by
  intro index within
  obtain ⟨offset, below, visited⟩ : ∃ offset < size.toNat,
      probe (hash.toNat % size.toNat) (step.toNat % size.toNat) size.toNat offset = index.toNat :=
    exists_probe (sized.coprime_of_odd odd) (UInt64.lt_iff_toNat_lt.mp within)
  have word : (UInt64.ofNat offset).toNat = offset :=
    UInt64.toNat_ofNat_of_lt' (below.trans size.toNat_lt)
  refine ⟨.ofNat offset, UInt64.lt_iff_toNat_lt.mpr (word.symm ▸ below), ?_⟩
  rw [← UInt64.toNat_inj, probeIndex_toNat sized, word, visited]

end

/-! ## Where a loop stands -/

section

variable {K V : Type*}

/-- The key that a loop looks for, and its position. -/
def Lower.probing : Lower K V → Option (K × ℕ)
  | .insertCompared key _ i _ _ | .removeOther key i | .getOther key _ i => some (key, i)
  | .removeReverted | .removeProtected | .contained | .guard => none

def Pc.probing : Pc K V → Option (K × ℕ)
  | .insertExchange key _ i | .insertRaise key _ i _ _ | .insertCompare key _ i _
  | .insertTombstone key _ i | .insertClaim key _ i _ | .insertCheck key _ i _
  | .removeExchange key i | .removeLoad key i | .removeRaise key i _ | .removeCompare key i
  | .getLoad key _ i | .getRaise key _ i _ | .getCompare key _ i => some (key, i)
  | .lowerLoad _ next | .lower _ next _ => next.probing
  | _ => none

/-- The bucket whose reference count is lowered. -/
def Pc.lowers : Pc K V → Option ℕ
  | .lowerLoad index _ | .lower index _ _ => some index
  | _ => none

/-- A loop stands at a position below the number of buckets, and it has raised the
reference count of the bucket there. -/
def OnPath (hash : K → UInt64) (size : ℕ) (pc : Pc K V) : Prop :=
  ∀ key i, pc.probing = some (key, i) →
    i < size ∧ ∀ index, pc.lowers = some index → index = slot hash size key i

/-- A loop begins at the first position and goes on with the next one. -/
def Continues (before after : Option (K × ℕ)) : Prop :=
  ∀ key i, after = some (key, i) →
    match before with
    | none => i = 0
    | some (other, j) => key = other ∧ (i = j ∨ i = j + 1)

/-- Where a step leads to. -/
def Progress.Proceeds (hash : K → UInt64) (size : ℕ) (before : Option (K × ℕ)) :
    Progress K V → Prop
  | .running pc => OnPath hash size pc ∧ Continues before pc.probing
  | .done _ => True

variable {hash : K → UInt64} {map : HashMap K V} {pc : Pc K V} {key : K} {value : V} {i : ℕ}
  {before : Option (K × ℕ)}

theorem Progress.Proceeds.of_none (probes : pc.probing = none) :
    (Progress.running pc).Proceeds hash map.bucketCount before :=
  ⟨fun key i found => by simp [probes] at found, fun key i found => by simp [probes] at found⟩

theorem Progress.Proceeds.of_some (probes : pc.probing = some (key, i)) (lowers : pc.lowers = none)
    (below : i < map.bucketCount) (continues : Continues before (some (key, i))) :
    (Progress.running pc).Proceeds hash map.bucketCount before := by
  refine ⟨fun other j found => ?_, probes ▸ continues⟩
  cases probes.symm.trans found
  exact ⟨below, fun index found => by simp [lowers] at found⟩

theorem Progress.Proceeds.of_lowers (probes : pc.probing = some (key, i))
    (lowers : pc.lowers = some (slot hash map.bucketCount key i)) (below : i < map.bucketCount)
    (continues : Continues before (some (key, i))) :
    (Progress.running pc).Proceeds hash map.bucketCount before := by
  refine ⟨fun other j found => ?_, probes ▸ continues⟩
  cases probes.symm.trans found
  exact ⟨below, fun index found => Option.some.inj (found.symm.trans lowers)⟩

theorem continues_zero (key : K) : Continues none (some (key, 0)) := by
  intro other j found
  cases found
  rfl

theorem continues_refl (before : Option (K × ℕ)) : Continues before before := by
  rintro key i rfl
  exact ⟨rfl, .inl rfl⟩

theorem continues_next (key : K) (i : ℕ) : Continues (some (key, i)) (some (key, i + 1)) := by
  intro other j found
  cases found
  exact ⟨rfl, .inr rfl⟩

theorem insertAt_proceeds (claim : Option ℕ) (continues : Continues before (some (key, i))) :
    (map.insertAt key value i claim).Proceeds hash map.bucketCount before := by
  cases claim <;> simp only [insertAt] <;> split
  · rename_i below
    exact .of_some rfl rfl below continues
  · trivial
  · rename_i below
    exact .of_some rfl rfl below continues
  · exact .of_none rfl

theorem insertFail_proceeds (failure : InsertFailed) (claim : Option ℕ) :
    (insertFail failure claim : Progress K V).Proceeds hash map.bucketCount before := by
  cases claim <;> exact .of_none rfl

theorem insertAgain_proceeds (claim : Option ℕ) (below : i < map.bucketCount)
    (continues : Continues before (some (key, i))) :
    (insertAgain key value i claim).Proceeds hash map.bucketCount before := by
  cases claim <;> exact .of_some rfl rfl below continues

theorem removeAt_proceeds (continues : Continues before (some (key, i))) :
    (map.removeAt key i).Proceeds hash map.bucketCount before := by
  simp only [removeAt]
  split
  · rename_i below
    exact .of_some rfl rfl below continues
  · exact .of_none rfl

theorem getNone_proceeds (contains : Bool) :
    (getNone contains : Progress K V).Proceeds hash map.bucketCount before := .of_none rfl

theorem getAt_proceeds (contains : Bool) (continues : Continues before (some (key, i))) :
    (map.getAt key contains i).Proceeds hash map.bucketCount before := by
  simp only [getAt]
  split
  · rename_i below
    exact .of_some rfl rfl below continues
  · exact getNone_proceeds contains

variable [DecidableEq K] {next : HashMap K V} {progress : Progress K V} {spurious : Bool}

theorem resume_proceeds (onPath : OnPath hash map.bucketCount pc)
    (resumed : resume hash map spurious pc = some (next, progress)) :
    progress.Proceeds hash map.bucketCount pc.probing := by
  cases pc with
  | tryRead call =>
      simp only [resume] at resumed
      split at resumed <;> cases resumed
      · trivial
      · exact .of_none rfl
  | tryReadExchange call expected =>
      simp only [resume] at resumed
      split at resumed
      · simp only [Option.map_eq_some_iff, Prod.mk.injEq] at resumed
        obtain ⟨entered, found, rfl, rfl⟩ := resumed
        cases call with
        | tryInsert other value =>
            cases found
            exact .of_none rfl
        | tryRemove other =>
            cases found
            exact removeAt_proceeds (continues_zero other)
        | tryGet other =>
            cases found
            exact getAt_proceeds false (continues_zero other)
        | tryContains other =>
            cases found
            exact getAt_proceeds true (continues_zero other)
        | tryRehash => contradiction
        | drop touched => contradiction
      · cases resumed
        exact .of_none rfl
  | insertStart other value =>
      simp only [resume] at resumed
      split at resumed <;> cases resumed
      · exact .of_none rfl
      · exact insertAt_proceeds none (continues_zero other)
  | insertExchange other value j =>
      have below := (onPath other j rfl).1
      simp only [resume] at resumed
      split at resumed
      · cases resumed
        exact .of_none rfl
      · split at resumed <;> cases resumed <;>
          first
          | exact .of_none rfl
          | exact .of_some rfl rfl below (continues_refl _)
  | insertRaise other value j claim refcount =>
      have below := (onPath other j rfl).1
      simp only [resume] at resumed
      split at resumed
      · cases resumed
        exact .of_some rfl rfl below (continues_refl _)
      · split at resumed <;> cases resumed
        · exact insertFail_proceeds .retry claim
        · exact insertAgain_proceeds claim below (continues_refl _)
  | insertTombstone other value j =>
      have below := (onPath other j rfl).1
      simp only [resume] at resumed
      split at resumed <;> cases resumed <;> exact .of_some rfl rfl below (continues_refl _)
  | insertClaim other value j expected =>
      have below := (onPath other j rfl).1
      simp only [resume] at resumed
      split at resumed <;> cases resumed
      · exact insertAt_proceeds _ (continues_next other j)
      · exact .of_some rfl rfl below (continues_refl _)
  | insertCheck other value j claim =>
      have below := (onPath other j rfl).1
      simp only [resume] at resumed
      split at resumed <;> cases resumed <;>
        first
        | exact insertAt_proceeds _ (continues_next other j)
        | exact .of_none rfl
        | exact .of_some rfl rfl below (continues_refl _)
  | removeExchange other j =>
      have below := (onPath other j rfl).1
      simp only [resume] at resumed
      split at resumed
      · cases resumed
        exact .of_some rfl rfl below (continues_refl _)
      · split at resumed <;> cases resumed <;>
          first
          | exact removeAt_proceeds (continues_next other j)
          | exact .of_none rfl
          | exact .of_some rfl rfl below (continues_refl _)
  | removeLoad other j =>
      have below := (onPath other j rfl).1
      simp only [resume] at resumed
      split at resumed
      · cases resumed
        exact .of_none rfl
      · split at resumed <;> cases resumed <;>
          exact .of_some rfl rfl below (continues_refl _)
  | removeRaise other j refcount =>
      have below := (onPath other j rfl).1
      simp only [resume] at resumed
      split at resumed <;> cases resumed <;> exact .of_some rfl rfl below (continues_refl _)
  | getLoad other contains j =>
      have below := (onPath other j rfl).1
      simp only [resume] at resumed
      split at resumed <;> cases resumed <;>
        first
        | exact getAt_proceeds contains (continues_next other j)
        | exact .of_none rfl
        | exact .of_some rfl rfl below (continues_refl _)
  | getRaise other contains j refcount =>
      have below := (onPath other j rfl).1
      simp only [resume] at resumed
      split at resumed <;> cases resumed <;> exact .of_some rfl rfl below (continues_refl _)
  | insertCompare other value j claim =>
      have below := (onPath other j rfl).1
      simp only [resume, Option.map_eq_some_iff, Prod.mk.injEq] at resumed
      obtain ⟨entry, _, rfl, rfl⟩ := resumed
      exact .of_lowers rfl rfl below (continues_refl _)
  | removeCompare other j =>
      have below := (onPath other j rfl).1
      simp only [resume, Option.map_eq_some_iff] at resumed
      obtain ⟨entry, _, compared⟩ := resumed
      split at compared <;> cases compared
      · exact .of_none rfl
      · exact .of_lowers rfl rfl below (continues_refl _)
  | getCompare other contains j =>
      have below := (onPath other j rfl).1
      simp only [resume, Option.map_eq_some_iff] at resumed
      obtain ⟨entry, _, compared⟩ := resumed
      split at compared
      · split at compared <;> cases compared <;> exact .of_none rfl
      · cases compared
        exact .of_lowers rfl rfl below (continues_refl _)
  | lowerLoad touched reason =>
      cases resumed
      exact ⟨onPath, continues_refl _⟩
  | lower touched reason expected =>
      simp only [resume] at resumed
      split at resumed
      · cases resumed
        cases reason with
        | insertCompared other value j claim same =>
            cases same with
            | true => exact insertFail_proceeds .keyRepeated claim
            | false => exact insertAt_proceeds claim (continues_next other j)
        | removeOther other j => exact removeAt_proceeds (continues_next other j)
        | getOther other contains j => exact getAt_proceeds contains (continues_next other j)
        | removeReverted | removeProtected | contained => exact .of_none rfl
        | guard => trivial
      · cases resumed
        exact ⟨onPath, continues_refl _⟩
  | removeTake touched =>
      simp only [resume, Option.map_eq_some_iff, Prod.mk.injEq] at resumed
      obtain ⟨entry, _, rfl, rfl⟩ := resumed
      exact .of_none rfl
  | rehashLoad touched fresh =>
      simp only [resume] at resumed
      split at resumed
      · split at resumed <;> cases resumed <;> exact .of_none rfl
      · cases resumed
        exact .of_none rfl
  | rehashMove touched fresh =>
      simp only [resume, Option.map_eq_some_iff] at resumed
      obtain ⟨entry, _, placed⟩ := resumed
      split at placed <;> cases placed <;> exact .of_none rfl
  | removeConfirm touched | removeDrainLoad touched | removeDrain touched expected
  | rehashWait touched fresh =>
      simp only [resume] at resumed
      split at resumed <;> cases resumed <;> exact .of_none rfl
  | tryWrite | tryWriteExchange =>
      simp only [resume] at resumed
      split at resumed <;> cases resumed <;> first | exact .of_none rfl | trivial
  | unlockRead outcome | unlockWrite =>
      cases resumed
      trivial
  | insertGiveUp claim failure | insertConstruct other value claim | insertCount other claim
  | insertPublish other claim | removeCount touched value | removeBury touched value
  | rehashSwap fresh =>
      cases resumed
      exact .of_none rfl

/-! ## What a loop does at its position -/

/-- A loop changes only the bucket at its position. -/
theorem resume_elsewhere {index : ℕ} (onPath : OnPath hash map.bucketCount pc)
    (probes : pc.probing = some (key, i)) (different : index ≠ slot hash map.bucketCount key i)
    (resumed : resume hash map spurious pc = some (next, progress)) :
    next.buckets index = map.buckets index := by
  cases pc with
  | insertExchange other value j | removeExchange other j =>
      cases probes
      simp only [resume] at resumed
      split at resumed
      · cases resumed
        exact Function.update_of_ne different _ _
      · split at resumed <;> cases resumed <;> rfl
  | insertRaise other value j claim refcount =>
      cases probes
      simp only [resume] at resumed
      split at resumed
      · cases resumed
        exact Function.update_of_ne different _ _
      · split at resumed <;> cases resumed <;> rfl
  | insertClaim other value j expected | removeRaise other j refcount
  | getRaise other contains j refcount =>
      cases probes
      simp only [resume] at resumed
      split at resumed <;> cases resumed
      · exact Function.update_of_ne different _ _
      · rfl
  | lower touched reason expected =>
      have here := (onPath key i probes).2 touched rfl
      simp only [resume] at resumed
      split at resumed <;> cases resumed
      · exact Function.update_of_ne (here ▸ different) _ _
      · rfl
  | lowerLoad touched reason =>
      cases resumed
      rfl
  | insertTombstone other value j | insertCheck other value j claim | getLoad other contains j =>
      simp only [resume] at resumed
      split at resumed <;> cases resumed <;> rfl
  | removeLoad other j =>
      simp only [resume] at resumed
      split at resumed
      · cases resumed
        rfl
      · split at resumed <;> cases resumed <;> rfl
  | insertCompare other value j claim =>
      simp only [resume, Option.map_eq_some_iff, Prod.mk.injEq] at resumed
      obtain ⟨entry, _, rfl, rfl⟩ := resumed
      rfl
  | removeCompare other j =>
      simp only [resume, Option.map_eq_some_iff] at resumed
      obtain ⟨entry, _, compared⟩ := resumed
      split at compared <;> cases compared <;> rfl
  | getCompare other contains j =>
      simp only [resume, Option.map_eq_some_iff] at resumed
      obtain ⟨entry, _, compared⟩ := resumed
      split at compared
      · split at compared <;> cases compared <;> rfl
      · cases compared
        rfl
  | _ => contradiction

omit [DecidableEq K] in
theorem insertAt_congr {other : HashMap K V} (sameSize : other.bucketCount = map.bucketCount)
    (claim : Option ℕ) : other.insertAt key value i claim = map.insertAt key value i claim := by
  cases claim <;> simp only [insertAt, sameSize]

omit [DecidableEq K] in
theorem removeAt_congr {other : HashMap K V} (sameSize : other.bucketCount = map.bucketCount) :
    other.removeAt key i = map.removeAt key i := by
  simp only [removeAt, sameSize]

omit [DecidableEq K] in
theorem getAt_congr {other : HashMap K V} (sameSize : other.bucketCount = map.bucketCount)
    (contains : Bool) : other.getAt key contains i = map.getAt key contains i := by
  simp only [getAt, sameSize]

omit [DecidableEq K] in
theorem lowered_congr {other : HashMap K V} (sameSize : other.bucketCount = map.bucketCount)
    (reason : Lower K V) : other.lowered reason = map.lowered reason := by
  cases reason with
  | insertCompared key value i claim same =>
      cases same with
      | true => rfl
      | false => exact insertAt_congr sameSize claim
  | removeOther key i => exact removeAt_congr sameSize
  | getOther key contains i => exact getAt_congr sameSize contains
  | removeReverted | removeProtected | contained | guard => rfl

/-- How a loop goes on depends only on the bucket at its position. -/
theorem resume_congr {other : HashMap K V} (onPath : OnPath hash map.bucketCount pc)
    (probes : pc.probing = some (key, i)) (sameSize : other.bucketCount = map.bucketCount)
    (here : other.buckets (slot hash map.bucketCount key i) =
      map.buckets (slot hash map.bucketCount key i)) :
    (resume hash other spurious pc).map Prod.snd = (resume hash map spurious pc).map Prod.snd := by
  cases pc with
  | insertExchange other value j | removeExchange other j
  | insertRaise other value j claim refcount =>
      cases probes
      simp only [resume, sameSize, here, removeAt_congr sameSize]
      split
      · rfl
      · split <;> rfl
  | insertClaim other value j expected | removeRaise other j refcount
  | getRaise other contains j refcount | insertTombstone other value j
  | insertCheck other value j claim | getLoad other contains j =>
      cases probes
      simp only [resume, sameSize, here, insertAt_congr sameSize, getAt_congr sameSize]
      split <;> rfl
  | removeLoad other j =>
      cases probes
      simp only [resume, sameSize, here]
      split
      · rfl
      · split <;> rfl
  | lower touched reason expected =>
      have same := (onPath key i probes).2 touched rfl
      subst same
      simp only [resume, here, lowered_congr sameSize]
      split <;> rfl
  | lowerLoad touched reason =>
      have same := (onPath key i probes).2 touched rfl
      subst same
      simp only [resume, here, Option.map_some]
  | insertCompare other value j claim =>
      cases probes
      simp only [resume, sameSize, here, Option.map_map]
      rfl
  | removeCompare other j | getCompare other contains j =>
      cases probes
      simp only [resume, sameSize, here, Option.map_map]
      congr 1
      funext entry
      simp only [Function.comp]
      split
      · first | rfl | (split <;> rfl)
      · rfl
  | _ => contradiction

/-! ## Any number of threads -/

variable {Thread : Type*} [Fintype Thread] [DecidableEq Thread]
  {pool : Pool Thread (HashMap K V) (Option (Pc K V))} {thread : Thread}

omit [DecidableEq K] in
theorem reading_of_probing (probes : pc.probing = some (key, i)) : pc.reading = 1 := by
  cases pc with
  | lowerLoad touched reason | lower touched reason expected =>
      cases reason with
      | guard => contradiction
      | _ => rfl
  | _ => first | rfl | contradiction

omit [DecidableEq K] in
theorem onPath_of_none {size : ℕ} (probes : pc.probing = none) : OnPath hash size pc := by
  intro key i found
  rw [probes] at found
  contradiction

omit [DecidableEq K] in
theorem start_probing {call : Call K V} (started : map.start call = some (next, pc)) :
    pc.probing = none := by
  cases call with
  | drop index =>
      simp only [HashMap.start] at started
      split at started
      · cases started
        rfl
      · contradiction
  | _ =>
      cases started
      rfl

structure Orderly (hash : K → UInt64) (pool : Pool Thread (HashMap K V) (Option (Pc K V))) :
    Prop where
  coherent : Coherent hash pool
  onPaths : ∀ thread pc, pool.locals thread = some pc → OnPath hash pool.shared.bucketCount pc

theorem orderly_of_reachable (reachable : (machine Thread V hash).Reachable Machine.free pool) :
    Orderly hash pool := by
  refine Program.invariant reachable ?_ ?_
  · intro first started
    cases started
    exact ⟨coherent_unused, fun thread pc stands => by simp [unused] at stands⟩
  · intro pool mover choice shared finish orderly _ advanced
    obtain ⟨coherent, onPaths⟩ := orderly
    refine ⟨coherent.step advanced, fun thread pc stands => ?_⟩
    change OnPath hash shared.bucketCount pc
    change Function.update pool.locals mover finish thread = some pc at stands
    rcases advance_eq_some advanced with ⟨call, begun, outside, started, rfl⟩ |
      ⟨before, spurious, after, progress, stood, resumed, rfl, rfl⟩
    · by_cases own : thread = mover
      · subst own
        rw [Function.update_self, Option.some.injEq] at stands
        exact onPath_of_none (stands ▸ start_probing started)
      · rw [Function.update_of_ne own] at stands
        rw [(Calm.start started).bucketCount]
        exact onPaths thread pc stands
    · obtain ⟨_, sameSize, _, _, _⟩ := settle_fields after progress
      rw [sameSize]
      by_cases swaps : ∃ fresh, before = .rehashSwap fresh
      · obtain ⟨fresh, rfl⟩ := swaps
        by_cases own : thread = mover
        · subst own
          rw [Function.update_self, settle_place] at stands
          cases resumed
          cases stands
          exact onPath_of_none rfl
        · rw [Function.update_of_ne own] at stands
          refine onPath_of_none (Option.eq_none_iff_forall_not_mem.mpr fun probed probes => ?_)
          have reads := (coherent.excluded stood rfl own).1
          rw [stands, readLocks, reading_of_probing probes] at reads
          contradiction
      · have staying : ∀ fresh, before ≠ .rehashSwap fresh := fun fresh same => swaps ⟨fresh, same⟩
        rw [(resume_keeps (coherent.backed stood) staying resumed).1]
        by_cases own : thread = mover
        · subst own
          rw [Function.update_self, settle_place] at stands
          have proceeds := resume_proceeds (onPaths thread before stood) resumed
          cases progress with
          | running pc =>
              cases stands
              exact proceeds.1
          | done outcome => contradiction
        · rw [Function.update_of_ne own] at stands
          exact onPaths thread pc stands

/-- What a step of the loop at a position does with the bucket of that index. -/
structure WorksAt (hash : K → UInt64) (map : HashMap K V) (pc : Pc K V) (index : ℕ) : Prop where
  elsewhere : ∀ spurious next progress, resume hash map spurious pc = some (next, progress) →
    ∀ other, other ≠ index → next.buckets other = map.buckets other
  depends : ∀ other : HashMap K V, other.bucketCount = map.bucketCount →
    other.buckets index = map.buckets index → ∀ spurious,
      (resume hash other spurious pc).map Prod.snd = (resume hash map spurious pc).map Prod.snd

/-- The loops of the calls work, at a position, at the bucket that the key has there,
and go through the positions one after another. -/
structure SameOrder (hash : K → UInt64) (pool : Pool Thread (HashMap K V) (Option (Pc K V)))
    (size : UInt64) : Prop where
  works : ∀ thread pc key i, pool.locals thread = some pc → pc.probing = some (key, i) →
    i < size.toNat ∧ WorksAt hash pool.shared pc
      (probeIndex size (hash1 hash key) (hash2 hash key) (.ofNat i)).toNat
  continues : ∀ thread pc spurious next after, pool.locals thread = some pc →
    resume hash pool.shared spurious pc = some (next, .running after) →
      Continues pc.probing after.probing

/-- The loop of `do_rehash` over the new buckets comes to an empty one. -/
def FindsEmpty (hash : K → UInt64) (pool : Pool Thread (HashMap K V) (Option (Pc K V)))
    (size : UInt64) : Prop :=
  ∀ thread index fresh, pool.locals thread = some (.rehashMove index fresh) → ∀ entry : K × V,
    let visited := fun i => (probeIndex size (hash1 hash entry.1) (hash2 hash entry.1) i).toNat
    ∃ i < size, (fresh (visited i)).state.state = .empty ∧
      (∀ j < i, (fresh (visited j)).state.state ≠ .empty) ∧
        place hash size.toNat fresh entry =
          some (Function.update fresh (visited i) ⟨⟨0, .filled⟩, some entry⟩)

theorem sameOrder (reachable : (machine Thread V hash).Reachable Machine.free pool)
    {size : UInt64} (word : size.toNat = pool.shared.bucketCount) : SameOrder hash pool size := by
  have orderly := orderly_of_reachable reachable
  have sized : WellSized size.toNat := word ▸ orderly.coherent.sized
  constructor
  · intro thread pc key i stands probes
    have onPath := orderly.onPaths thread pc stands
    have below := word ▸ (onPath key i probes).1
    have index : (probeIndex size (hash1 hash key) (hash2 hash key) (.ofNat i)).toNat =
        slot hash pool.shared.bucketCount key i := by
      rw [probeIndex_toNat sized, UInt64.toNat_ofNat_of_lt' (below.trans size.toNat_lt), word]
      rfl
    rw [index]
    exact ⟨below, fun _ _ _ resumed _ different => resume_elsewhere onPath probes different resumed,
      fun _ sameSize here _ => resume_congr onPath probes sameSize here⟩
  · intro thread pc spurious next after stands resumed
    exact (resume_proceeds (orderly.onPaths thread pc stands) resumed).2

theorem findsEmpty (reachable : (machine Thread V hash).Reachable Machine.free pool)
    {size : UInt64} (word : size.toNat = 2 * pool.shared.bucketCount) :
    FindsEmpty hash pool size := by
  intro thread index fresh stands entry visited
  have coherent := coherent_of_reachable reachable
  have sized : WellSized size.toNat := word ▸ coherent.sized.double
  obtain ⟨refilled, below, _⟩ := coherent.rehashing thread _ stands
  have room : total size.toNat fresh < size.toNat := by
    have counted := refilled.counted
    rw [word]
    omega
  have visits (i : UInt64) : visited i = slot hash size.toNat entry.1 i.toNat :=
    probeIndex_toNat sized
  have found : (place hash size.toNat fresh entry).isSome :=
    place_isSome (word ▸ refilled.ready) sized room entry
  obtain ⟨moved, placed⟩ := Option.isSome_iff_exists.mp found
  obtain ⟨i, within, empty, first, rfl⟩ := place_eq_some placed
  have exact : (UInt64.ofNat i).toNat = i := UInt64.toNat_ofNat_of_lt' (within.trans size.toNat_lt)
  refine ⟨.ofNat i, UInt64.lt_iff_toNat_lt.mpr (exact.symm ▸ within), ?_, fun j earlier => ?_, ?_⟩
  · rw [visits, exact]
    exact empty
  · rw [visits]
    exact first j.toNat (exact ▸ UInt64.lt_iff_toNat_lt.mp earlier)
  · rw [visits, exact]
    exact placed

/-- The positions below the size lead to every bucket exactly once, whatever the hashes;
the loops of one key work at the buckets in this order, and a rehash finds an empty
bucket for every entry. -/
theorem visits_every_bucket_once (hash : K → UInt64) :
    (∀ size : UInt64, WellSized size.toNat → ∀ first second : UInt64, Odd second.toNat →
      Set.BijOn (probeIndex size first second) {i | i < size} {index | index < size}) ∧
    (∀ key, Odd (hash2 hash key).toNat) ∧
    ∀ pool, (machine Thread V hash).Reachable Machine.free pool → ∀ size : UInt64,
      (size.toNat = pool.shared.bucketCount → SameOrder hash pool size) ∧
      (size.toNat = 2 * pool.shared.bucketCount → FindsEmpty hash pool size) :=
  ⟨fun _ sized _ _ odd => ⟨probeIndex_mapsTo sized, probeIndex_injOn sized odd,
      probeIndex_surjOn sized odd⟩,
    hash2_odd hash, fun _ reachable _ => ⟨sameOrder reachable, findsEmpty reachable⟩⟩

/-- A map of 64 buckets is being rehashed, and the entry of one thread is about to be moved by
the other. -/
theorem visits_every_bucket_once_rehashing :
    ∃ pool : Pool (Fin 2) (HashMap ℕ ℕ) (Option (Pc ℕ ℕ)), ∃ fresh,
      (machine (Fin 2) ℕ UInt64.ofNat).Reachable Machine.free pool ∧
      pool.shared.bucketCount = 64 ∧ pool.locals 1 = some (.rehashMove 5 fresh) ∧
      Set.BijOn (probeIndex 64 40 7) {i | i < 64} {index | index < 64} ∧
      SameOrder UInt64.ofNat pool 64 ∧ FindsEmpty UInt64.ofNat pool 128 := by
  obtain ⟨pool, reachable, count, fresh, standing⟩ :=
    Machine.reachable_of_exec (machine (Fin 2) ℕ UInt64.ofNat) Machine.free (unused (Fin 2) ℕ ℕ)
      (List.flatten
        [(0, .call (.tryInsert 5 7)) :: List.replicate 8 (0, .step false),
          (1, .call .tryRehash) :: List.replicate 9 (1, .step false)])
      (fun pool => pool.shared.bucketCount = 64 ∧
        ∃ fresh, pool.locals 1 = some (.rehashMove 5 fresh))
      rfl ⟨_, rfl, rfl, _, rfl⟩
  obtain ⟨once, _, orders⟩ :=
    @visits_every_bucket_once ℕ ℕ inferInstance (Fin 2) _ _ UInt64.ofNat
  have order := orders pool reachable
  exact ⟨pool, fresh, reachable, count, standing,
    once 64 .initial 40 7 (by decide),
    (order 64).1 (by rw [count]; rfl), (order 128).2 (by rw [count]; rfl)⟩

end

end Asco.Concurrency.HashMap
