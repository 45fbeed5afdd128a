import Asco.Core.Time.HighResolutionTimer
import Asco.Foundation.Machine

namespace Asco.Core.Time.Deadline

open Foundation TimerTree

/-! # The sleep of the timer daemon

A step is one critical section of the tree lock, one operation on the semaphore of the
daemon or one reading of the clock.
-/

/-- Where `run_once` stands; `sleeping` is inside `sleep_until_awake` or, with a deadline,
`sleep_until_awake_before`. -/
inductive Daemon where
  | start
  | visiting (now : TimePoint)
  | pruning
  | checking
  | computing
  | sleeping (deadline : Option TimePoint)
  | finished
deriving DecidableEq

/-- Where a call of another thread stands: `registering` has compared the time point with the
clock, and the last three have yet to call `awake()`. -/
inductive Place (Token : Type*) where
  | idle
  | registering (timePoint : TimePoint) (token : Token)
  | inserted
  | cancelled
  | joining
deriving DecidableEq

/-- `sem` counts the permits of `m_sem`. -/
structure State (Client Token : Type*) where
  clock : TimePoint
  tree : TimerTree Token
  sem : ℕ
  stopRequested : Bool
  daemon : Daemon
  clients : Client → Place Token

inductive Action (Token : Type*) where
  | register (timePoint : TimePoint) (token : Token)
  | cancel (id : TimerId)
  | join
  | step

/-- A deadline may pass, and `timeout` tells whether the daemon notices that or a permit. -/
inductive Label (Client Token : Type*) where
  | tick (now : TimePoint)
  | daemon (timeout : Bool)
  | client (client : Client) (action : Action Token)

variable {Client Token : Type*} [DecidableEq Client]

namespace State

def become (state : State Client Token) (client : Client) (place : Place Token) :
    State Client Token :=
  { state with clients := Function.update state.clients client place }

/-- `run_once`, and the test of the loop around it. -/
def daemonStep (state : State Client Token) (timeout : Bool) : Option (State Client Token) :=
  match state.daemon with
  | .start =>
      if state.stopRequested then some { state with daemon := .finished }
      else some { state with daemon := .visiting state.clock }
  | .visiting now =>
      some { state with tree := (visit state.tree now).2, daemon := .pruning }
  | .pruning => some { state with tree := prune state.tree, daemon := .checking }
  | .checking =>
      if state.stopRequested && state.tree.entries.isEmpty then
        some { state with daemon := .finished }
      else some { state with daemon := .computing }
  | .computing => some { state with daemon := .sleeping (nextTimePoint state.tree) }
  | .sleeping deadline =>
      if timeout then
        match deadline with
        | some timePoint =>
            if timePoint ≤ state.clock then some { state with daemon := .start } else none
        | none => none
      else if state.sem = 0 then none
      else some { state with sem := state.sem - 1, daemon := .start }
  | .finished => none

def clientStep (hash : Token → UInt64) (state : State Client Token) (client : Client) :
    Action Token → Option (State Client Token)
  | .register timePoint token =>
      match state.clients client with
      | .idle =>
          if timePoint < state.clock then some state
          else some (state.become client (.registering timePoint token))
      | _ => none
  | .cancel id =>
      match state.clients client with
      | .idle =>
          if state.tree.contains id.second then
            some ({ state with tree := TimerTree.cancel state.tree id }.become client .cancelled)
          else some state
      | _ => none
  | .join =>
      match state.clients client with
      | .idle => some ({ state with stopRequested := true }.become client .joining)
      | _ => none
  | .step =>
      match state.clients client with
      | .idle => none
      | .registering timePoint token =>
          some ({ state with
            tree := TimerTree.register state.tree (timerId hash timePoint token)
              { timePoint, token } }.become client .inserted)
      | .inserted | .cancelled | .joining =>
          some ({ state with sem := state.sem + 1 }.become client .idle)

def move (hash : Token → UInt64) (state : State Client Token) :
    Label Client Token → Option (State Client Token)
  | .tick now => if state.clock ≤ now then some { state with clock := now } else none
  | .daemon timeout => state.daemonStep timeout
  | .client client action => state.clientStep hash client action

end State

def fresh (Client Token : Type*) (clock : TimePoint) : State Client Token where
  clock := clock
  tree := .empty
  sem := 0
  stopRequested := false
  daemon := .start
  clients _ := .idle

def machine (hash : Token → UInt64) (Client : Type*) [DecidableEq Client] :
    Machine (State Client Token) (Label Client Token) where
  start state := ∃ clock, 0 ≤ clock ∧ state = fresh Client Token clock
  move := State.move hash

/-- The deadline is not later than any entry, and there is one if there is an entry. -/
def Covers (deadline : Option TimePoint) (tree : TimerTree Token) : Prop :=
  ∀ second area, (second, area) ∈ tree → ∀ id entry, (id, entry) ∈ area.entries →
    ∃ timePoint, deadline = some timePoint ∧ timePoint ≤ entry.timePoint

/-- A daemon that is blocked has a deadline that covers every entry, unless a registration has
yet to wake it. -/
def NeverOversleeps (state : State Client Token) : Prop :=
  ∀ deadline, state.daemon = .sleeping deadline → state.sem = 0 →
    (∀ client, state.clients client ≠ .inserted) → Covers deadline state.tree

/-! ## The invariant -/

def Occupied (tree : TimerTree Token) : Prop :=
  ∀ second area rest, tree.entries = (second, area) :: rest → area.entries.entries ≠ []

/-- From the pruning to the sleep the first area has an entry; while the daemon sleeps, a timer
before the deadline has a registration or a permit that wakes it. -/
structure Watched (state : State Client Token) : Prop where
  clock : 0 ≤ state.clock
  placed : Placed state.tree
  ahead : ∀ client timePoint token,
    state.clients client = .registering timePoint token → 0 ≤ timePoint
  occupied : state.daemon = .checking ∨ state.daemon = .computing → Occupied state.tree
  covered : ∀ deadline, state.daemon = .sleeping deadline →
    Covers deadline state.tree ∨ 0 < state.sem ∨ ∃ client, state.clients client = .inserted

section

variable {tree : TimerTree Token} {id : TimerId} {entry : TimerEntry Token}

theorem Occupied.register (occupied : Occupied tree) :
    Occupied (TimerTree.register tree id entry) := by
  intro second area rest starts
  have member : (second, area) ∈ TimerTree.register tree id entry := by
    rw [OrderedMap.mem_iff, starts]
    exact List.mem_cons_self
  have first := mem_register.mp member
  split at first
  · subst first
    exact OrderedMap.place_ne_nil
  · rename_i elsewhere
    cases before : tree.entries with
    | nil =>
        rw [OrderedMap.mem_iff, before] at first
        contradiction
    | cons head more =>
        obtain ⟨headSecond, headArea⟩ := head
        have headMember : (headSecond, headArea) ∈ tree := by
          rw [OrderedMap.mem_iff, before]
          exact List.mem_cons_self
        have below : headSecond ≤ second := OrderedMap.first_le before first
        have above : second ≤ headSecond := by
          by_cases same : headSecond = secFromEpoch entry.timePoint
          · have there : (headSecond, put id entry (areaAt tree (secFromEpoch entry.timePoint))) ∈
                TimerTree.register tree id entry := by
              rw [mem_register, if_pos same]
            exact OrderedMap.first_le starts there
          · have there : (headSecond, headArea) ∈ TimerTree.register tree id entry := by
              rw [mem_register, if_neg same]
              exact headMember
            exact OrderedMap.first_le starts there
        have same : second = headSecond := le_antisymm above below
        subst same
        rw [OrderedMap.mem_unique first headMember]
        exact occupied _ _ _ before

theorem Occupied.cancel (occupied : Occupied tree) : Occupied (TimerTree.cancel tree id) := by
  intro second area rest starts
  have listed : (TimerTree.cancel tree id).entries = tree.entries.map fun entry =>
    if entry.1 = id.second then (entry.1, mark id entry.2) else entry := rfl
  rw [listed] at starts
  cases before : tree.entries with
  | nil =>
      rw [before] at starts
      contradiction
  | cons head more =>
      rw [before, List.map_cons] at starts
      have same := (List.cons.inj starts).1
      have nonempty := occupied head.1 head.2 more before
      split at same
      · cases same
        exact nonempty
      · rw [same] at nonempty
        exact nonempty

theorem Covers.cancel {deadline : Option TimePoint} (covers : Covers deadline tree) :
    Covers deadline (TimerTree.cancel tree id) := by
  intro second area member other held there
  obtain ⟨before, found, changed⟩ := mem_cancel.mp member
  apply covers second before found other held
  rw [changed] at there
  split at there
  · exact there
  · exact there

theorem covers_nextTimePoint (placed : Placed tree) (occupied : Occupied tree) :
    Covers (nextTimePoint tree) tree := by
  intro second area member other held there
  exact nextTimePoint_le placed occupied member there

end

variable {hash : Token → UInt64} {state next : State Client Token} {client : Client}

omit [DecidableEq Client] in
theorem Watched.daemonStep (watched : Watched state) {timeout : Bool}
    (stepped : state.daemonStep timeout = some next) : Watched next := by
  have running (daemon : Daemon) (awake : ∀ deadline, daemon ≠ .sleeping deadline)
      (calm : daemon ≠ .checking ∧ daemon ≠ .computing) :
      Watched { state with daemon } :=
    { clock := watched.clock
      placed := watched.placed
      ahead := watched.ahead
      occupied := fun inside => absurd inside (not_or.mpr calm)
      covered := fun deadline sleeps => absurd sleeps (awake deadline) }
  cases standing : state.daemon with
  | start =>
      simp only [State.daemonStep, standing] at stepped
      split at stepped <;> cases stepped
      · apply running <;> simp
      · apply running <;> simp
  | visiting now =>
      simp only [State.daemonStep, standing] at stepped
      cases stepped
      exact
        { clock := watched.clock
          placed := watched.placed.visit
          ahead := watched.ahead
          occupied := fun inside => by simp at inside
          covered := fun deadline sleeps => by contradiction }
  | pruning =>
      simp only [State.daemonStep, standing] at stepped
      cases stepped
      exact
        { clock := watched.clock
          placed := watched.placed.prune
          ahead := watched.ahead
          occupied := fun _ _ _ _ starts => prune_first starts
          covered := fun deadline sleeps => by contradiction }
  | checking =>
      simp only [State.daemonStep, standing] at stepped
      split at stepped <;> cases stepped
      · apply running <;> simp
      · exact
          { clock := watched.clock
            placed := watched.placed
            ahead := watched.ahead
            occupied := fun _ => watched.occupied (.inl standing)
            covered := fun deadline sleeps => by contradiction }
  | computing =>
      simp only [State.daemonStep, standing] at stepped
      cases stepped
      exact
        { clock := watched.clock
          placed := watched.placed
          ahead := watched.ahead
          occupied := fun inside => by simp at inside
          covered := fun deadline sleeps => by
            cases sleeps
            exact .inl (covers_nextTimePoint watched.placed (watched.occupied (.inr standing))) }
  | sleeping deadline =>
      simp only [State.daemonStep, standing] at stepped
      split at stepped
      · split at stepped
        · split at stepped <;> cases stepped
          apply running <;> simp
        · contradiction
      · split at stepped <;> cases stepped
        exact
          { clock := watched.clock
            placed := watched.placed
            ahead := watched.ahead
            occupied := fun inside => by simp at inside
            covered := fun deadline sleeps => by contradiction }
  | finished => simp [State.daemonStep, standing] at stepped

theorem Watched.ahead_update (watched : Watched state) {place : Place Token}
    (calm : ∀ timePoint token, place = .registering timePoint token → 0 ≤ timePoint)
    (other : Client) (timePoint : TimePoint) (token : Token)
    (registering : Function.update state.clients client place other =
      .registering timePoint token) : 0 ≤ timePoint := by
  by_cases same : other = client
  · subst same
    rw [Function.update_self] at registering
    exact calm timePoint token registering
  · rw [Function.update_of_ne same] at registering
    exact watched.ahead other timePoint token registering

/-- A client moves to a place where it is not about to insert, and wakes the daemon if it was
about to. -/
theorem Watched.become (watched : Watched state) {place : Place Token} {sem : ℕ}
    {stopRequested : Bool} (calm : ∀ timePoint token, place = .registering timePoint token →
      0 ≤ timePoint)
    (wakes : state.clients client = .inserted → 0 < sem) (more : state.sem ≤ sem) :
    Watched ({ state with sem, stopRequested }.become client place) where
  clock := watched.clock
  placed := watched.placed
  ahead := watched.ahead_update calm
  occupied := watched.occupied
  covered deadline sleeps := by
    rcases watched.covered deadline sleeps with covers | permit | ⟨other, inserted⟩
    · exact .inl covers
    · exact .inr (.inl (Nat.lt_of_lt_of_le permit more))
    · by_cases same : other = client
      · subst same
        exact .inr (.inl (wakes inserted))
      · exact .inr (.inr ⟨other, (Function.update_of_ne same _ _).trans inserted⟩)

theorem Watched.insert (watched : Watched state) {timePoint : TimePoint} {token : Token}
    (standing : state.clients client = .registering timePoint token) :
    Watched ({ state with
      tree := TimerTree.register state.tree (timerId hash timePoint token)
        { timePoint, token } }.become client .inserted) where
  clock := watched.clock
  placed := watched.placed.register
    { second := rfl, seq := rfl, positive := watched.ahead client timePoint token standing }
  ahead := watched.ahead_update fun _ _ same => by contradiction
  occupied inside := (watched.occupied inside).register
  covered _ _ := .inr (.inr ⟨client, Function.update_self _ _ _⟩)

theorem Watched.cancel (watched : Watched state) {id : TimerId}
    (standing : state.clients client = .idle) :
    Watched ({ state with tree := TimerTree.cancel state.tree id }.become client .cancelled) where
  clock := watched.clock
  placed := watched.placed.cancel
  ahead := watched.ahead_update fun _ _ same => by contradiction
  occupied inside := (watched.occupied inside).cancel
  covered deadline sleeps := by
    rcases watched.covered deadline sleeps with covers | permit | ⟨other, inserted⟩
    · exact .inl covers.cancel
    · exact .inr (.inl permit)
    · have different : other ≠ client := by
        intro same
        rw [same, standing] at inserted
        contradiction
      exact .inr (.inr ⟨other, (Function.update_of_ne different _ _).trans inserted⟩)

theorem Watched.clientStep (watched : Watched state) {action : Action Token}
    (stepped : state.clientStep hash client action = some next) : Watched next := by
  cases action with
  | register timePoint token =>
      cases standing : state.clients client with
      | idle =>
          simp only [State.clientStep, standing] at stepped
          split at stepped
          · cases stepped
            exact watched
          · rename_i later
            cases stepped
            apply watched.become
            · intro other held same
              cases same
              exact Int64.le_trans watched.clock (Int64.not_lt.mp later)
            · simp [standing]
            · exact le_rfl
      | _ => simp [State.clientStep, standing] at stepped
  | cancel id =>
      cases standing : state.clients client with
      | idle =>
          simp only [State.clientStep, standing] at stepped
          split at stepped
          · cases stepped
            exact watched.cancel standing
          · cases stepped
            exact watched
      | _ => simp [State.clientStep, standing] at stepped
  | join =>
      cases standing : state.clients client with
      | idle =>
          simp only [State.clientStep, standing] at stepped
          cases stepped
          apply watched.become
          · simp
          · simp [standing]
          · exact le_rfl
      | _ => simp [State.clientStep, standing] at stepped
  | step =>
      cases standing : state.clients client with
      | idle => simp [State.clientStep, standing] at stepped
      | registering timePoint token =>
          simp only [State.clientStep, standing] at stepped
          cases stepped
          exact watched.insert standing
      | inserted | cancelled | joining =>
          simp only [State.clientStep, standing] at stepped
          cases stepped
          apply watched.become
          · simp
          · exact fun _ => Nat.succ_pos _
          · exact Nat.le_succ _

theorem Watched.move (watched : Watched state) {label : Label Client Token}
    (moved : state.move hash label = some next) : Watched next := by
  cases label with
  | tick now =>
      simp only [State.move] at moved
      split at moved
      · rename_i forward
        cases moved
        exact ⟨Int64.le_trans watched.clock forward, watched.placed, watched.ahead,
          watched.occupied, watched.covered⟩
      · contradiction
  | daemon timeout => exact watched.daemonStep moved
  | client client action => exact watched.clientStep moved

theorem watched_of_reachable {guard : State Client Token → Label Client Token → Prop}
    (reachable : (machine hash Client).Reachable guard state) : Watched state := by
  apply reachable.invariant
  · intro first started
    obtain ⟨clock, positive, rfl⟩ := started
    exact
      { clock := positive
        placed := fun _ _ member => by contradiction
        ahead := fun _ _ _ registering => by contradiction
        occupied := fun inside => by simp [fresh] at inside
        covered := fun _ sleeps => by contradiction }
  · intro state label next watched _ moved
    exact watched.move moved

theorem neverOversleeps_of_reachable {guard : State Client Token → Label Client Token → Prop}
    (reachable : (machine hash Client).Reachable guard state) : NeverOversleeps state := by
  intro deadline sleeps blocked awoken
  rcases (watched_of_reachable reachable).covered deadline sleeps with
    covers | permit | ⟨client, inserted⟩
  · exact covers
  · omega
  · exact absurd inserted (awoken client)

/-- A token that is its own hash. -/
def plain (token : Fin 2) : UInt64 := .ofNat token

/-- The daemon computes a deadline, an earlier timer is registered before it sleeps, and the
permit makes it compute again. -/
theorem neverOversleeps_of_reachable_earlier :
    ∃ state : State (Fin 2) (Fin 2),
      (machine plain (Fin 2)).Reachable Machine.free state ∧
        (state.daemon = .sleeping (some 5000000000) ∧ state.sem = 0 ∧
          ∀ client, state.clients client = .idle) ∧ NeverOversleeps state := by
  obtain ⟨state, reachable, sleeps⟩ :=
    Machine.reachable_of_any (machine plain (Fin 2)) Machine.free (fresh (Fin 2) (Fin 2) 0)
      (List.flatten
        [[.client 0 (.register 6500000000 0), .client 0 .step, .client 0 .step],
          List.replicate 4 (.daemon false),
          [.client 1 (.register 5000000000 1), .daemon false, .client 1 .step,
            .client 1 .step],
          List.replicate 12 (.daemon false)])
      (fun state => state.daemon = .sleeping (some 5000000000) ∧ state.sem = 0 ∧
        ∀ client, state.clients client = .idle)
      ⟨0, by decide, rfl⟩ (by decide +kernel)
  exact ⟨state, reachable, sleeps, neverOversleeps_of_reachable reachable⟩

end Asco.Core.Time.Deadline
