import Asco.Core.Time.HighResolutionTimer
import Asco.Foundation.Machine

namespace Asco.Core.Time.Collision

open Foundation TimerTree

/-! # Timers of one time point

`emplace` keeps the entry that it finds under an id, and `register_timer` returns
the id all the same.
-/

/-- `core::awake_token`, with the addresses it keeps. -/
structure AwakeToken where
  worker : UInt64
  domain : UInt64
  exec : UInt64
deriving DecidableEq

/-- `std::hash` of a `worker *`, an `execution_domain *` and an `execution_id`. -/
structure StdHash where
  worker : UInt64 → UInt64
  domain : UInt64 → UInt64
  exec : UInt64 → UInt64

/-- The hash of a pointer is the pointer. -/
def StdHash.address : StdHash := ⟨id, id, id⟩

def AwakeToken.hash (std : StdHash) (token : AwakeToken) : UInt64 :=
  let h1 := std.worker token.worker
  let h2 := std.domain token.domain
  let h3 := std.exec token.exec
  h1 ^^^ (h2 <<< 1) ^^^ (h3 <<< 2)

section

variable {Token : Type*} (hash : Token → UInt64)

/-- The result of `register_timer` and the tree it leaves. -/
def registerTimer (tree : TimerTree Token) (now timePoint : TimePoint) (token : Token) :
    Option TimerId × TimerTree Token :=
  if timePoint < now then (none, tree)
  else
    let id := timerId hash timePoint token
    (some id, tree.register id { timePoint, token })

/-- The critical sections of the lock of the tree. -/
inductive Section (Token : Type*) where
  | register (now timePoint : TimePoint) (token : Token)
  | cancel (id : TimerId)
  | visit (now : TimePoint)
  | prune

def enter (tree : TimerTree Token) : Section Token → TimerTree Token
  | .register now timePoint token => (registerTimer hash tree now timePoint token).2
  | .cancel id => tree.cancel id
  | .visit now => (tree.visit now).2
  | .prune => tree.prune

/-- The sections of any threads one after another. -/
def machine : Machine (TimerTree Token) (Section Token) where
  start tree := tree = .empty
  move tree entered := some (enter hash tree entered)

/-- The entry that `m_timer_tree` has under an id. -/
def entryAt (tree : TimerTree Token) (id : TimerId) : Option (TimerEntry Token) :=
  (tree.get? id.second).bind fun area => area.entries.get? id

/-- A timer is in the tree, which it leaves when it is fired or swept. -/
def Pends (tree : TimerTree Token) (entry : TimerEntry Token) : Prop :=
  ∃ id, entryAt tree id = some entry

/-- Every entry is in the area of its second and under the id of its time point and token. -/
def Keyed (tree : TimerTree Token) : Prop :=
  ∀ second area, (second, area) ∈ tree → ∀ id entry, (id, entry) ∈ area.entries →
    second = secFromEpoch entry.timePoint ∧ id = timerId hash entry.timePoint entry.token

variable {hash} {tree next : TimerTree Token} {id other : TimerId} {entry held : TimerEntry Token}
  {now timePoint : TimePoint} {token : Token}

@[simp] theorem timerId_second (timePoint : TimePoint) (token : Token) :
    (timerId hash timePoint token).second = secFromEpoch timePoint := by
  rw [TimerId.second, timerId, Int64.toInt64_toUInt64]

theorem timerId_inj {also : TimePoint} {second : Token} :
    timerId hash timePoint token = timerId hash also second ↔
      timePoint = also ∧ hash token = hash second := by
  rw [timerId, timerId, TimerId.mk.injEq]
  exact and_congr_left fun _ =>
    ⟨fun same => by simpa using congrArg UInt64.toInt64 same, congrArg Int64.toUInt64⟩

theorem entryAt_eq_some : entryAt tree id = some entry ↔
    ∃ area, (id.second, area) ∈ tree ∧ (id, entry) ∈ area.entries := by
  rw [entryAt, Option.bind_eq_some_iff]
  exact exists_congr fun area => and_congr OrderedMap.get?_eq_some OrderedMap.get?_eq_some

theorem entryAt_eq_none : entryAt tree id = none ↔
    ∀ held, (id, held) ∉ (areaAt tree id.second).entries := by
  rw [Option.eq_none_iff_forall_ne_some]
  refine forall_congr' fun held => not_congr ?_
  rw [entryAt_eq_some]
  refine ⟨fun found => ?_, fun member => ?_⟩
  · obtain ⟨area, there, member⟩ := found
    rw [areaAt_of_mem there]
    exact member
  · obtain ⟨area, there, _, member⟩ := mem_areaAt member
    exact ⟨area, there, member⟩

/-! ## The keys of the entries -/

theorem Keyed.entryAt (keyed : Keyed hash tree) (found : entryAt tree id = some entry) :
    id = timerId hash entry.timePoint entry.token := by
  obtain ⟨area, there, member⟩ := entryAt_eq_some.mp found
  exact (keyed _ area there id entry member).2

theorem Keyed.register (keyed : Keyed hash tree)
    (named : id = timerId hash entry.timePoint entry.token) :
    Keyed hash (TimerTree.register tree id entry) := by
  intro second area member other held there
  rw [mem_register] at member
  split at member
  · rename_i same
    subst member
    rcases mem_put there with fresh | there
    · cases fresh
      exact ⟨same, named⟩
    · obtain ⟨area, found, _, there⟩ := mem_areaAt there
      rw [same]
      exact keyed _ area found other held there
  · exact keyed second area member other held there

theorem Keyed.of_contained (keyed : Keyed hash tree)
    (contained : ∀ second area, (second, area) ∈ next → ∃ before, (second, before) ∈ tree ∧
      ∀ id entry, (id, entry) ∈ area.entries → (id, entry) ∈ before.entries) :
    Keyed hash next := by
  intro second area member other held there
  obtain ⟨before, found, kept⟩ := contained second area member
  exact keyed second before found other held (kept other held there)

theorem Keyed.enter (keyed : Keyed hash tree) (entered : Section Token) :
    Keyed hash (Collision.enter hash tree entered) := by
  cases entered with
  | register now timePoint token =>
      simp only [Collision.enter, registerTimer]
      split
      · exact keyed
      · exact keyed.register rfl
  | cancel id =>
      refine keyed.of_contained fun second area member => ?_
      obtain ⟨before, found, changed⟩ := mem_cancel.mp member
      refine ⟨before, found, fun other held there => ?_⟩
      rw [changed] at there
      split at there
      · exact there
      · exact there
  | visit now => exact keyed.of_contained fun _ _ => visit_contained
  | prune =>
      exact keyed.of_contained fun _ area member =>
        ⟨area, prune_contained member, fun _ _ there => there⟩

theorem keyed_of_reachable (reachable : (machine hash).Reachable Machine.free tree) :
    Keyed hash tree := by
  apply reachable.invariant
  · intro first started
    cases started
    intro second area member
    contradiction
  · intro tree entered next keyed _ moved
    cases moved
    exact keyed.enter entered

/-! ## What a registration leaves -/

/-- The id leads to the time point and the token alone. -/
theorem Keyed.entryAt_eq_none_iff (keyed : Keyed hash tree) :
    Collision.entryAt tree (timerId hash timePoint token) = none ↔
      ∀ other, Pends tree { timePoint, token := other } → hash other ≠ hash token := by
  refine ⟨fun absent other pends same => ?_, fun apart => ?_⟩
  · obtain ⟨id, found⟩ := pends
    have named : id = timerId hash timePoint token :=
      (keyed.entryAt found).trans (timerId_inj.mpr ⟨rfl, same⟩)
    rw [named, absent] at found
    contradiction
  · refine Option.eq_none_iff_forall_ne_some.mpr fun held found => ?_
    obtain ⟨sameTime, sameHash⟩ := timerId_inj.mp (keyed.entryAt found)
    have pends : Pends tree { timePoint, token := held.token } := ⟨_, by rw [found, sameTime]⟩
    exact apart held.token pends sameHash.symm

theorem entryAt_register (absent : entryAt tree (timerId hash timePoint token) = none) :
    entryAt (TimerTree.register tree (timerId hash timePoint token) { timePoint, token })
      (timerId hash timePoint token) = some { timePoint, token } := by
  rw [entryAt_eq_none, timerId_second] at absent
  refine entryAt_eq_some.mpr ⟨put (timerId hash timePoint token) { timePoint, token }
    (areaAt tree (secFromEpoch timePoint)), mem_register.mpr ?_, ?_⟩
  · rw [timerId_second, if_pos rfl]
  · exact (OrderedMap.mem_emplace absent).mpr (.inl rfl)

/-- A timer that is found under the id stays, and the new one is dropped. -/
theorem entryAt_register_of_some
    (found : entryAt tree (timerId hash timePoint token) = some held) :
    entryAt (TimerTree.register tree (timerId hash timePoint token) { timePoint, token })
      (timerId hash timePoint token) = some held := by
  obtain ⟨area, there, member⟩ := entryAt_eq_some.mp found
  rw [timerId_second] at there
  refine entryAt_eq_some.mpr ⟨put (timerId hash timePoint token) { timePoint, token } area,
    mem_register.mpr ?_, ?_⟩
  · rw [timerId_second, if_pos rfl, areaAt_of_mem there]
  · rw [put, OrderedMap.emplace_of_mem member]
    exact member

/-- A call that returns an id has made an entry of its own under that id. -/
structure Registered (tree next : TimerTree Token) (id : TimerId) (entry : TimerEntry Token) :
    Prop where
  fresh : entryAt tree id = none
  stored : entryAt next id = some entry

theorem registerTimer_eq_some
    (returned : registerTimer hash tree now timePoint token = (some id, next)) :
    id = timerId hash timePoint token ∧ next = TimerTree.register tree id { timePoint, token } := by
  rw [registerTimer] at returned
  split at returned
  · cases returned
  · cases returned
    exact ⟨rfl, rfl⟩

theorem Keyed.registered_iff (keyed : Keyed hash tree)
    (returned : registerTimer hash tree now timePoint token = (some id, next)) :
    Registered tree next id { timePoint, token } ↔
      ∀ other, Pends tree { timePoint, token := other } → hash other ≠ hash token := by
  obtain ⟨rfl, rfl⟩ := registerTimer_eq_some returned
  rw [← keyed.entryAt_eq_none_iff]
  exact ⟨Registered.fresh, fun absent => ⟨absent, entryAt_register absent⟩⟩

end

/-- A registered timer is stored under an id of its own as long as no token with the same
hash is pending for its time point, and two tokens share their ids at every time point when
their hashes agree. -/
theorem registered_iff_apart {std : StdHash} {tree next : TimerTree AwakeToken}
    {now timePoint : TimePoint} {token : AwakeToken} {id : TimerId}
    (reachable : (machine (AwakeToken.hash std)).Reachable Machine.free tree)
    (returned : registerTimer (AwakeToken.hash std) tree now timePoint token = (some id, next)) :
    (Registered tree next id { timePoint, token } ↔
      ∀ other, Pends tree { timePoint, token := other } → other.hash std ≠ token.hash std) ∧
    ∀ other : AwakeToken, timerId (AwakeToken.hash std) timePoint other = id ↔
      other.hash std = token.hash std := by
  refine ⟨(keyed_of_reachable reachable).registered_iff returned, fun other => ?_⟩
  rw [(registerTimer_eq_some returned).1, timerId_inj, and_iff_right rfl]

/-- An execution of a task, one of a domain nested in it, and one of another such domain. -/
def outer : AwakeToken := ⟨0x5000, 0x5100, 0x7f0000003000⟩

def inner : AwakeToken := ⟨0x5000, 0x7f0000003100, 0x7f0000004000⟩

def twin : AwakeToken := ⟨0x5000, 0x7f0000003500, 0x7f0000004200⟩

/-- The tree after `outer` has been registered. -/
def waiting : TimerTree AwakeToken :=
  enter (AwakeToken.hash .address) .empty (.register 0 5000000000 outer)

theorem waiting_reachable :
    (machine (AwakeToken.hash .address)).Reachable Machine.free waiting :=
  ⟨.empty, rfl, .tail (.refl _) trivial rfl⟩

theorem waiting_pends {entry : TimerEntry AwakeToken} (pends : Pends waiting entry) :
    entry = { timePoint := 5000000000, token := outer } := by
  obtain ⟨id, found⟩ := pends
  obtain ⟨area, there, member⟩ := entryAt_eq_some.mp found
  have registered := mem_register.mp (show (id.second, area) ∈ TimerTree.register .empty
    (timerId (AwakeToken.hash .address) 5000000000 outer)
      { timePoint := 5000000000, token := outer } from there)
  split at registered
  · subst registered
    rcases mem_put member with fresh | old
    · exact congrArg Prod.snd fresh
    · contradiction
  · contradiction

/-- Two executions of one worker wait for the same time point. -/
theorem registered_iff_apart_nested : ∃ next : TimerTree AwakeToken,
    registerTimer (AwakeToken.hash .address) waiting 0 5000000000 inner =
        (some (timerId (AwakeToken.hash .address) 5000000000 inner), next) ∧
      Registered waiting next (timerId (AwakeToken.hash .address) 5000000000 inner)
        { timePoint := 5000000000, token := inner } := by
  have returned : registerTimer (AwakeToken.hash .address) waiting 0 5000000000 inner =
      (some (timerId (AwakeToken.hash .address) 5000000000 inner), _) := rfl
  refine ⟨_, returned,
    (registered_iff_apart waiting_reachable returned).1.mpr fun other pends => ?_⟩
  rw [show other = outer from congrArg TimerEntry.token (waiting_pends pends)]
  decide

/-- The executions of two nested domains have one hash: `0x7f0000003100` and `0x7f0000003500`
differ in bit 10, `0x7f0000004000` and `0x7f0000004200` in bit 9.  The second registration
returns the id of the first one, and its timer is dropped. -/
theorem colliding_timer_dropped : ∃ tree next : TimerTree AwakeToken, ∃ id,
    (machine (AwakeToken.hash .address)).Reachable Machine.free tree ∧
      registerTimer (AwakeToken.hash .address) tree 0 5000000000 twin = (some id, next) ∧
      inner ≠ twin ∧ timerId (AwakeToken.hash .address) 5000000000 inner = id ∧
      entryAt next id = some { timePoint := 5000000000, token := inner } ∧
      ¬ Registered tree next id { timePoint := 5000000000, token := twin } := by
  have reachable : (machine (AwakeToken.hash .address)).Reachable Machine.free
      (enter (AwakeToken.hash .address) .empty (.register 0 5000000000 inner)) :=
    ⟨.empty, rfl, .tail (.refl _) trivial rfl⟩
  have found : entryAt (enter (AwakeToken.hash .address) .empty (.register 0 5000000000 inner))
      (timerId (AwakeToken.hash .address) 5000000000 twin) =
        some { timePoint := 5000000000, token := inner } := by rfl
  refine ⟨_, _, _, reachable, rfl, by decide, by decide, entryAt_register_of_some found, ?_⟩
  intro registered
  have absent := registered.fresh
  rw [found] at absent
  cases absent

end Asco.Core.Time.Collision
