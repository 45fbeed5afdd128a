import Asco.Task.Select

namespace Asco.Task.Select

open Foundation Asco.Core.Task
open Asco.Core.Task.Executor (handleStacks alone_of_running attached_of_move gone_of_move
  halts_of_complete nodup_of_coherent pops_of_complete pushes_of_await requested_of_move
  restacks_of_move running_of_move stacked_of_running stops_of_move)
open Asco.Core.Task.ExecutionDomainProxy (Accounted)

/-! # One branch of a `select` wins

Nothing is resumed in the domain after a branch has won, so no other branch comes to
the exchange, and the loop at the end of `select_impl` is never reached.
-/

variable {n : ℕ} {Value : Fin n → Type*} {Exception Handle Source Outcome : Type*}

/-- What is on the stack of a branch, by where its `select_impl` is and whether the result
that it awaits is there. -/
def Staged (inner base : Handle) (stack : List Handle) : Pc → Bool → Prop
  | .start, _ | .awaiting, true | .won, _ | .returning, _ => stack = [base]
  | .awaiting, false => [inner, base] <:+ stack
  | .spinning, _ => False
  | .ended, _ => stack = []

/-- `select_impl` has won and has not returned. -/
def Pc.Decides (pc : Pc) : Prop := pc = .won ∨ pc = .returning

section

variable [DecidableEq Handle] [DecidableEq Source]

/-- One of the branches, with the result of its function and its future. -/
structure Branch (coroutines : Coroutines n Handle Source)
    (proxy : ExecutionDomainProxy.State (Fin n) Handle Source) (completeBranch : Option (Fin n))
    (i : Fin n) (pc : Pc) (result future : Option Outcome) : Prop where
  unentered : proxy.parent = .constructing → pc = .start
  staged : proxy.executor.Gone (coroutines.base i) ∨
    Staged (coroutines.inner i) (coroutines.base i) (proxy.stack coroutines.toBranches i) pc
      result.isSome
  unawaited : pc = .start → result = none
  decides : pc.Decides →
    proxy.executor.phase = .running (coroutines.base i) (coroutines.base i) ∧
      completeBranch = some i ∧ result.isSome
  unspun : pc ≠ .spinning
  wins : completeBranch = some i → pc.Decides ∨ pc = .ended
  ended : pc = .ended → completeBranch = some i ∧ future = result ∧ result.isSome
  returned : future.isSome → pc = .ended
  cancelled : pc = .returning ∨ pc = .ended → proxy.executor.requested coroutines.own = true
  finished : proxy.finished i = true → pc = .ended

/-- The domain is cancelled by the branch that has won, and nobody else runs after that. -/
structure Invariant (coroutines : Coroutines n Handle Source)
    (state : State n Value Exception Handle Source) : Prop where
  accounted : Accounted coroutines.toBranches state.proxy
  branch : ∀ i, Branch coroutines state.proxy state.completeBranch i (state.pcs i)
    (state.results i) (state.futures i)
  cancels : state.proxy.executor.requested coroutines.own = true →
    ∃ i, state.pcs i = .returning ∨ state.pcs i = .ended
  alone : ∀ id current, state.proxy.executor.phase = .running id current →
    state.proxy.executor.requested coroutines.own = true →
      ∃ i, id = coroutines.base i ∧ current = coroutines.base i ∧ state.pcs i = .returning

end

variable [DecidableEq Handle] [DecidableEq Source] {coroutines : Coroutines n Handle Source}
  {state next : State n Value Exception Handle Source}
  {executor after : Executor.State Handle Source}
  {proxy nextProxy : ExecutionDomainProxy.State (Fin n) Handle Source}
  {label : Executor.Label Handle Source} {i j : Fin n} {id current : Handle} {pc : Pc}
  {result future : Option Outcome} {completeBranch winner : Option (Fin n)}

omit [DecidableEq Source] in
theorem runs_iff {handle : Handle} : coroutines.runs state handle i = true ↔
    state.proxy.executor.phase = .running (coroutines.base i) handle := by
  unfold Coroutines.runs
  cases state.proxy.executor.phase with
  | running id current => simp
  | _ => simp

omit [DecidableEq Source] in
/-- An execution that runs is in the domain. -/
theorem not_gone (coherent : executor.Coherent) (running : executor.phase = .running id current) :
    ¬ executor.Gone id := by
  obtain ⟨ledger, coherent⟩ := coherent
  have present := coherent.placed.present id (by rw [running]; rfl)
  rintro (absent | ends)
  · simp [absent] at present
  · rw [running] at ends
    cases ends

/-- A step of the execution of one branch leaves the stacks of the others alone. -/
theorem stack_other (coherent : executor.Coherent)
    (running : executor.phase = .running (coroutines.base i) current)
    (plain : ∀ id sources, label ≠ .attach id sources) (moved : executor.move label = some after)
    (different : j ≠ i) :
    handleStacks after.executions (coroutines.base j) =
      handleStacks executor.executions (coroutines.base j) := by
  have apart : coroutines.base j ≠ coroutines.base i :=
    fun same => different (coroutines.distinct same)
  cases restacks_of_move coherent moved (coroutines.base j) with
  | keeps same => exact same
  | attaches attach => exact absurd attach (plain _ _)
  | pushes await runs | pops complete runs =>
      have same := running.symm.trans runs
      simp only [Executor.Phase.running.injEq] at same
      exact absurd same.1.symm apart
  | unwinds unwind cleaning => cases running.symm.trans cleaning

omit [DecidableEq Handle] [DecidableEq Source] in
/-- A coroutine above the base one runs while the awaited coroutine is on the stack. -/
theorem Staged.above {inner base : Handle} {stack : List Handle} {ready : Bool}
    (staged : Staged inner base stack pc ready) (top : stack.head? = some current)
    (other : base ≠ current) : pc = .awaiting ∧ ready = false ∧ [inner, base] <:+ stack := by
  cases pc with
  | awaiting =>
      cases ready with
      | false => exact ⟨rfl, rfl, staged⟩
      | true =>
          rw [show stack = [base] from staged] at top
          exact absurd (Option.some.inj top) other
  | start | won | returning =>
      rw [show stack = [base] from staged] at top
      exact absurd (Option.some.inj top) other
  | spinning => exact staged.elim
  | ended =>
      rw [show stack = [] from staged] at top
      cases top

/-! ## The branches that do not move -/

/-- What a step of another branch leaves to this one. -/
structure Aside (coroutines : Coroutines n Handle Source)
    (proxy next : ExecutionDomainProxy.State (Fin n) Handle Source) (j : Fin n) : Prop where
  parent : next.parent = proxy.parent
  gone : proxy.executor.Gone (coroutines.base j) → next.executor.Gone (coroutines.base j)
  stack : next.stack coroutines.toBranches j = proxy.stack coroutines.toBranches j
  requested : proxy.executor.requested coroutines.own = true →
    next.executor.requested coroutines.own = true
  finished : next.finished j = true → proxy.finished j = true

omit [DecidableEq Handle] [DecidableEq Source] in
theorem Aside.refl (proxy : ExecutionDomainProxy.State (Fin n) Handle Source) (j : Fin n) :
    Aside coroutines proxy proxy j :=
  ⟨rfl, id, rfl, id, id⟩

theorem Aside.of_step (coherent : proxy.executor.Coherent)
    (running : proxy.executor.phase = .running (coroutines.base i) current) (different : j ≠ i)
    (plain : ∀ id sources, label ≠ .attach id sources)
    (moved : coroutines.step proxy label = some nextProxy) :
    Aside coroutines proxy nextProxy j := by
  obtain ⟨executor, advanced, rfl⟩ := Option.map_eq_some_iff.mp moved
  refine ⟨rfl, gone_of_move advanced (plain _),
    stack_other coherent running plain advanced different,
    fun before => (requested_of_move advanced).mpr (.inl before), fun finished => ?_⟩
  simp only [Bool.or_eq_true] at finished
  refine finished.resolve_right fun ends => ?_
  unfold ExecutionDomainProxy.Branches.finishes at ends
  rw [running] at ends
  split at ends
  · rename_i found
    cases found
    simp only [Bool.and_eq_true, decide_eq_true_eq] at ends
    exact different (coroutines.distinct ends.1).symm
  · contradiction

omit [DecidableEq Handle] [DecidableEq Source] in
theorem Branch.other (branch : Branch coroutines proxy completeBranch j pc result future)
    (running : proxy.executor.phase = .running (coroutines.base i) current) (different : j ≠ i)
    (aside : Aside coroutines proxy nextProxy j)
    (won : winner = completeBranch ∨ completeBranch = none ∧ winner = some i) :
    Branch coroutines nextProxy winner j pc result future := by
  have same : winner = some j ↔ completeBranch = some j := by
    rcases won with rfl | ⟨rfl, rfl⟩
    · rfl
    · simp [Ne.symm different]
  refine
    { unentered := fun constructing => branch.unentered (aside.parent.symm.trans constructing)
      staged := branch.staged.imp aside.gone fun staged => by rwa [aside.stack]
      unawaited := branch.unawaited
      decides := fun decides => ?_
      unspun := branch.unspun
      wins := fun wins => branch.wins (same.mp wins)
      ended := fun ended => (branch.ended ended).imp_left same.mpr
      returned := branch.returned
      cancelled := fun settled => aside.requested (branch.cancelled settled)
      finished := fun finished => branch.finished (aside.finished finished) }
  have runs := running.symm.trans (branch.decides decides).1
  simp only [Executor.Phase.running.injEq] at runs
  exact absurd (coroutines.distinct runs.1).symm different

/-! ## The steps that `select_impl` takes no part in -/

/-- Such a step is not one of the labels of `select_impl`. -/
structure Foreign (coroutines : Coroutines n Handle Source)
    (proxy : ExecutionDomainProxy.State (Fin n) Handle Source)
    (label : Executor.Label Handle Source) : Prop where
  attaches : ∀ id sources, label = .attach id sources → proxy.parent = .constructing
  awaits : ∀ handle id current, label = .await handle →
    proxy.executor.phase = .running id current → id ≠ current
  suspends : ∀ id current, label = .suspend → proxy.executor.phase = .running id current →
    id ≠ current
  completes : ∀ id current, label = .complete → proxy.executor.phase = .running id current →
    id ≠ current ∧ ∀ i, id = coroutines.base i → current ≠ coroutines.inner i
  requests : label ≠ .requestCancel coroutines.own

theorem Branch.foreign (branch : Branch coroutines proxy completeBranch i pc result future)
    (coherent : proxy.executor.Coherent) (foreign : Foreign coroutines proxy label)
    (moved : coroutines.step proxy label = some nextProxy) :
    Branch coroutines nextProxy completeBranch i pc result future := by
  obtain ⟨executor, advanced, rfl⟩ := Option.map_eq_some_iff.mp moved
  refine
    { unentered := branch.unentered
      staged := ?_
      unawaited := branch.unawaited
      decides := fun decides => ?_
      unspun := branch.unspun
      wins := branch.wins
      ended := branch.ended
      returned := branch.returned
      cancelled := fun settled => (requested_of_move advanced).mpr (.inl (branch.cancelled settled))
      finished := fun finished => ?_ }
  · change executor.Gone _ ∨ Staged _ _ (handleStacks executor.executions (coroutines.base i)) _ _
    have attached (sources : List Source) (attach : label = .attach (coroutines.base i) sources) :
        Staged (coroutines.inner i) (coroutines.base i)
          (handleStacks executor.executions (coroutines.base i)) pc result.isSome := by
      subst attach
      obtain rfl := branch.unentered (foreign.attaches _ _ rfl)
      exact attached_of_move advanced
    rcases branch.staged with gone | staged
    · by_cases attach : ∃ sources, label = .attach (coroutines.base i) sources
      · obtain ⟨sources, attach⟩ := attach
        exact .inr (attached sources attach)
      · exact .inl (gone_of_move advanced (fun sources same => attach ⟨sources, same⟩) gone)
    · cases restacks_of_move coherent advanced (coroutines.base i) with
      | keeps same => exact .inr (same ▸ staged)
      | attaches attach => exact .inr (attached _ attach)
      | @pushes handle current await running pushed =>
          have top := (stacked_of_running coherent running).1
          obtain ⟨rfl, missing, below⟩ :=
            Staged.above staged top (foreign.awaits _ _ _ await running)
          rw [missing, pushed]
          exact .inr (below.trans (List.suffix_cons handle _))
      | @pops current complete running popped =>
          have top := (stacked_of_running coherent running).1
          obtain ⟨other, inner⟩ := foreign.completes _ _ complete running
          obtain ⟨rfl, missing, below⟩ := Staged.above staged top other
          rw [ExecutionDomainProxy.State.stack, popped] at below
          rcases List.suffix_cons_iff.mp below with same | suffix
          · exact absurd (List.cons.inj same).1.symm (inner i rfl)
          · rw [missing]
            exact .inr suffix
      | unwinds unwind cleaning =>
          subst unwind
          refine .inl (gone_of_move advanced (fun sources attach => ?_) (.inr ?_))
          · cases attach
          · rw [cleaning]
            rfl
  · obtain ⟨running, settled⟩ := branch.decides decides
    refine ⟨?_, settled⟩
    rcases stops_of_move advanced running with runs | ⟨handle, await⟩ | suspend | complete
    · exact runs
    · exact absurd rfl (foreign.awaits _ _ _ await running)
    · exact absurd rfl (foreign.suspends _ _ suspend running)
    · exact absurd rfl (foreign.completes _ _ complete running).1
  · simp only [Bool.or_eq_true] at finished
    refine finished.elim branch.finished fun ends => ?_
    unfold ExecutionDomainProxy.Branches.finishes at ends
    split at ends
    · rename_i id current running
      simp only [Bool.and_eq_true, decide_eq_true_eq] at ends
      exact absurd (ends.1.trans ends.2.symm) (foreign.completes _ _ rfl running).1
    · contradiction

theorem Invariant.foreign (invariant : Invariant coroutines state)
    (accounted : Accounted coroutines.toBranches proxy)
    (foreign : Foreign coroutines state.proxy label)
    (moved : coroutines.step state.proxy label = some proxy) :
    Invariant coroutines { state with proxy } := by
  have coherent := invariant.accounted.coherent
  refine ⟨accounted, fun i => (invariant.branch i).foreign coherent foreign moved, ?_, ?_⟩
  · obtain ⟨executor, advanced, rfl⟩ := Option.map_eq_some_iff.mp moved
    intro now
    exact invariant.cancels (((requested_of_move advanced).mp now).resolve_right foreign.requests)
  · obtain ⟨executor, advanced, rfl⟩ := Option.map_eq_some_iff.mp moved
    intro id current running now
    have before := ((requested_of_move advanced).mp now).resolve_right foreign.requests
    rcases running_of_move advanced running with ran | ⟨_, execution, present, unrequested⟩
    · exact invariant.alone id current ran before
    · have sources := (invariant.accounted.attached id execution present).2
      rw [Executor.State.cancelRequested, sources, List.any_eq_false] at unrequested
      exact absurd before (unrequested _ (by simp [ExecutionDomainProxy.Branches.sources]))

/-! ## The steps of `select_impl` -/

namespace Invariant

variable (invariant : Invariant coroutines state)

include invariant

theorem staged_of_running
    (running : state.proxy.executor.phase = .running (coroutines.base i) current) :
    Staged (coroutines.inner i) (coroutines.base i)
      (state.proxy.stack coroutines.toBranches i) (state.pcs i) (state.results i).isSome :=
  (invariant.branch i).staged.resolve_left (not_gone invariant.accounted.coherent running)

theorem entered_of_running (running : state.proxy.executor.phase = .running id current) :
    state.proxy.parent ≠ .constructing := by
  intro constructing
  have idle := (invariant.accounted.quiet constructing).1
  cases running.symm.trans idle

/-- Nothing has been cancelled while a coroutine runs, unless it is the one that has won. -/
theorem unrequested_of_running
    (running : state.proxy.executor.phase = .running (coroutines.base i) current)
    (before : state.pcs i ≠ .returning ∨ current ≠ coroutines.base i) :
    state.proxy.executor.requested coroutines.own ≠ true := by
  intro requested
  obtain ⟨other, same, base, returning⟩ := invariant.alone _ _ running requested
  obtain rfl := coroutines.distinct same
  exact before.elim (· returning) (· base)

/-- The result that `select_impl` reads after the await is there, and nobody has won. -/
theorem exchange_ready
    (running : state.proxy.executor.phase = .running (coroutines.base i) (coroutines.base i))
    (awaiting : state.pcs i = .awaiting) :
    (state.results i).isSome ∧ state.completeBranch = none := by
  constructor
  · have staged := invariant.staged_of_running running
    rw [awaiting, ExecutionDomainProxy.State.stack,
      alone_of_running invariant.accounted.coherent running] at staged
    by_contra missing
    rw [Bool.not_eq_true] at missing
    rw [missing] at staged
    have longer := List.IsSuffix.length_le staged
    simp at longer
  · refine Option.eq_none_iff_forall_not_mem.mpr fun winner won => ?_
    have quiet := invariant.unrequested_of_running running (.inl (by simp [awaiting]))
    have branch := invariant.branch winner
    rcases branch.wins won with decides | ended
    · have runs := running.symm.trans (branch.decides decides).1
      simp only [Executor.Phase.running.injEq] at runs
      obtain rfl := coroutines.distinct runs.1
      rcases decides with won | returning
      · cases awaiting.symm.trans won
      · cases awaiting.symm.trans returning
    · exact quiet (branch.cancelled (.inr ended))

theorem awaitFuture (accounted : Accounted coroutines.toBranches proxy)
    (running : state.proxy.executor.phase = .running (coroutines.base i) (coroutines.base i))
    (start : state.pcs i = .start)
    (moved : coroutines.step state.proxy (.await (coroutines.inner i)) = some proxy) :
    Invariant coroutines
      { state with proxy, pcs := Function.update state.pcs i .awaiting } := by
  have coherent := invariant.accounted.coherent
  have branch := invariant.branch i
  have quiet := invariant.unrequested_of_running running (.inl (by simp [start]))
  obtain ⟨executor, advanced, rfl⟩ := Option.map_eq_some_iff.mp moved
  have unrequested : executor.requested coroutines.own ≠ true := fun now =>
    ((requested_of_move advanced).mp now).elim quiet (by simp)
  refine ⟨accounted, fun j => ?_, fun now => absurd now unrequested,
    fun _ _ _ now => absurd now unrequested⟩
  by_cases own : j = i
  · subst own
    have pushed := pushes_of_await running advanced
    rw [alone_of_running coherent running] at pushed
    have missing := branch.unawaited start
    simp only [Function.update_self]
    refine
      { unentered := fun constructing => absurd constructing (invariant.entered_of_running running)
        staged := .inr ?_
        unawaited := by simp
        decides := fun decides => by simp [Pc.Decides] at decides
        unspun := by simp
        wins := fun won => by simpa [start, Pc.Decides] using branch.wins won
        ended := by simp
        returned := fun returned => by simpa [start] using branch.returned returned
        cancelled := fun settled => by simp at settled
        finished := fun finished => ?_ }
    · rw [missing, ExecutionDomainProxy.State.stack, pushed]
      exact List.suffix_refl _
    · have before := branch.finished (by
        simpa [ExecutionDomainProxy.Branches.finishes] using finished)
      cases start.symm.trans before
  · have aside := Aside.of_step coherent running own (fun _ _ => by simp) moved
    have moves := (invariant.branch j).other running own aside (.inl rfl)
    simpa only [Function.update_of_ne own] using moves

theorem endFuture (accounted : Accounted coroutines.toBranches proxy)
    (running : state.proxy.executor.phase = .running (coroutines.base i) (coroutines.inner i))
    (moved : coroutines.step state.proxy .complete = some proxy)
    (outcome : Except Exception (Value i)) :
    Invariant coroutines
      { state with proxy, results := Function.update state.results i (some outcome) } := by
  have coherent := invariant.accounted.coherent
  have branch := invariant.branch i
  have quiet := invariant.unrequested_of_running running (.inr (coroutines.different i))
  have top := (stacked_of_running coherent running).1
  obtain ⟨awaiting, missing, below⟩ :=
    (invariant.staged_of_running running).above top (coroutines.different i).symm
  obtain ⟨executor, advanced, rfl⟩ := Option.map_eq_some_iff.mp moved
  have unrequested : executor.requested coroutines.own ≠ true := fun now =>
    ((requested_of_move advanced).mp now).elim quiet (by simp)
  refine ⟨accounted, fun j => ?_, fun now => absurd now unrequested,
    fun _ _ _ now => absurd now unrequested⟩
  by_cases own : j = i
  · subst own
    have popped := pops_of_complete coherent running advanced
    simp only [Function.update_self]
    refine
      { unentered := fun constructing => absurd constructing (invariant.entered_of_running running)
        staged := .inr ?_
        unawaited := fun start => by cases awaiting.symm.trans start
        decides := fun decides => by simp [Pc.Decides, awaiting] at decides
        unspun := branch.unspun
        wins := branch.wins
        ended := fun ended => by cases awaiting.symm.trans ended
        returned := branch.returned
        cancelled := fun settled => by simp [awaiting] at settled
        finished := fun finished => ?_ }
    · rw [awaiting, Option.isSome_some]
      rw [ExecutionDomainProxy.State.stack, popped] at below
      rcases List.suffix_cons_iff.mp below with same | suffix
      · exact (List.cons.inj same).2.symm
      · have once := nodup_of_coherent coherent (coroutines.base j)
        rw [popped] at once
        exact absurd (suffix.subset List.mem_cons_self) (List.nodup_cons.mp once).1
    · exact branch.finished (by
        simpa [ExecutionDomainProxy.Branches.finishes, running, coroutines.different j]
          using finished)
  · have aside := Aside.of_step coherent running own (fun _ _ => by simp) moved
    have moves := (invariant.branch j).other running own aside (.inl rfl)
    simpa only [Function.update_of_ne own] using moves

theorem exchange
    (running : state.proxy.executor.phase = .running (coroutines.base i) (coroutines.base i))
    (awaiting : state.pcs i = .awaiting) :
    Invariant coroutines
      { state with completeBranch := some i, pcs := Function.update state.pcs i .won } := by
  have branch := invariant.branch i
  have quiet := invariant.unrequested_of_running running (.inl (by simp [awaiting]))
  obtain ⟨ready, vacant⟩ := invariant.exchange_ready running awaiting
  refine ⟨invariant.accounted, fun j => ?_, fun now => absurd now quiet,
    fun _ _ _ now => absurd now quiet⟩
  by_cases own : j = i
  · subst own
    have staged := invariant.staged_of_running running
    rw [awaiting, ready] at staged
    simp only [Function.update_self]
    refine
      { unentered := fun constructing => absurd constructing (invariant.entered_of_running running)
        staged := .inr staged
        unawaited := by simp
        decides := fun _ => ⟨running, rfl, ready⟩
        unspun := by simp
        wins := fun _ => .inl (.inl rfl)
        ended := by simp
        returned := fun returned => by simpa [awaiting] using branch.returned returned
        cancelled := fun settled => by simp at settled
        finished := fun finished => by simpa [awaiting] using branch.finished finished }
  · have moves := (invariant.branch j).other running own (.refl _ _) (.inr ⟨vacant, rfl⟩)
    simpa only [Function.update_of_ne own] using moves

theorem cancel (accounted : Accounted coroutines.toBranches proxy)
    (running : state.proxy.executor.phase = .running (coroutines.base i) (coroutines.base i))
    (won : state.pcs i = .won)
    (moved : coroutines.step state.proxy (.requestCancel coroutines.own) = some proxy) :
    Invariant coroutines
      { state with proxy, pcs := Function.update state.pcs i .returning } := by
  have coherent := invariant.accounted.coherent
  have branch := invariant.branch i
  obtain ⟨_, winner, ready⟩ := branch.decides (.inl won)
  have staged := invariant.staged_of_running running
  rw [won] at staged
  have others (j : Fin n) (own : j ≠ i) :=
    Aside.of_step coherent running own (fun _ _ => by simp) moved
  obtain ⟨executor, advanced, rfl⟩ := Option.map_eq_some_iff.mp moved
  cases advanced
  refine ⟨accounted, fun j => ?_, fun _ => ⟨i, .inl (Function.update_self ..)⟩,
    fun id current runs _ => ?_⟩
  · by_cases own : j = i
    · subst own
      simp only [Function.update_self]
      exact
        { unentered := fun constructing =>
            absurd constructing (invariant.entered_of_running running)
          staged := .inr staged
          unawaited := by simp
          decides := fun _ => ⟨running, winner, ready⟩
          unspun := by simp
          wins := fun _ => .inl (.inr rfl)
          ended := by simp
          returned := fun returned => by simpa [won] using branch.returned returned
          cancelled := fun _ => Function.update_self ..
          finished := fun finished => by
            have before := branch.finished (by
              simpa [ExecutionDomainProxy.Branches.finishes] using finished)
            cases won.symm.trans before }
    · have moves := (invariant.branch j).other running own (others j own) (.inl rfl)
      simpa only [Function.update_of_ne own] using moves
  · have same := running.symm.trans runs
    simp only [Executor.Phase.running.injEq] at same
    exact ⟨i, same.1.symm, same.2.symm, Function.update_self ..⟩

theorem coReturn (accounted : Accounted coroutines.toBranches proxy)
    (running : state.proxy.executor.phase = .running (coroutines.base i) (coroutines.base i))
    (returning : state.pcs i = .returning)
    (moved : coroutines.step state.proxy .complete = some proxy) :
    Invariant coroutines
      { state with
        proxy
        futures := Function.update state.futures i (state.results i)
        pcs := Function.update state.pcs i .ended } := by
  have coherent := invariant.accounted.coherent
  have branch := invariant.branch i
  obtain ⟨_, winner, ready⟩ := branch.decides (.inr returning)
  have requested := branch.cancelled (.inl returning)
  obtain ⟨executor, advanced, rfl⟩ := Option.map_eq_some_iff.mp moved
  refine ⟨accounted, fun j => ?_, fun _ => ⟨i, .inr (Function.update_self ..)⟩,
    fun id current runs => absurd runs (halts_of_complete advanced)⟩
  by_cases own : j = i
  · subst own
    have popped := pops_of_complete coherent running advanced
    rw [alone_of_running coherent running] at popped
    simp only [Function.update_self]
    exact
      { unentered := fun constructing => absurd constructing (invariant.entered_of_running running)
        staged := .inr (List.cons.inj popped).2.symm
        unawaited := by simp
        decides := fun decides => by simp [Pc.Decides] at decides
        unspun := by simp
        wins := fun _ => .inr rfl
        ended := fun _ => ⟨winner, rfl, ready⟩
        returned := fun _ => rfl
        cancelled := fun _ => (requested_of_move advanced).mpr (.inl requested)
        finished := fun _ => rfl }
  · have aside := Aside.of_step coherent running own (fun _ _ => by simp) moved
    have moves := (invariant.branch j).other running own aside (.inl rfl)
    simpa only [Function.update_of_ne own] using moves

/-- The coroutine that has the `select` is suspended, or resumed. -/
theorem reparent {parent : ExecutionDomainProxy.Parent}
    (accounted : Accounted coroutines.toBranches { state.proxy with parent })
    (entered : parent ≠ .constructing) :
    Invariant coroutines { state with proxy := { state.proxy with parent } } :=
  ⟨accounted, fun i =>
    { invariant.branch i with unentered := fun constructing => absurd constructing entered },
    invariant.cancels, invariant.alone⟩

end Invariant

/-- A step that the labels of `select_impl` do not name. -/
theorem foreign_of_permits (permitted : coroutines.permits state (.executor label) = true)
    (allowed : coroutines.toBranches.permits state.proxy label = true) :
    Foreign coroutines state.proxy label where
  attaches id sources attach := by
    subst attach
    cases allowed
  awaits handle id current await running := by
    subst await
    simp only [Coroutines.permits, running, Bool.and_eq_true, decide_eq_true_eq] at permitted
    exact permitted.1
  suspends id current suspend running := by
    subst suspend
    simpa only [Coroutines.permits, running, decide_eq_true_eq] using permitted
  completes id current complete running := by
    subst complete
    simpa only [Coroutines.permits, running, Bool.and_eq_true, decide_eq_true_eq] using permitted
  requests request := by
    subst request
    simp [ExecutionDomainProxy.Branches.permits] at allowed

theorem Invariant.move (invariant : Invariant coroutines state)
    {label : Label n Value Exception Handle Source}
    (moved : coroutines.move state label = some next) : Invariant coroutines next := by
  have accounted := invariant.accounted
  cases label with
  | proxy label =>
      obtain ⟨permitted, moved⟩ := Option.ite_none_right_eq_some.mp moved
      obtain ⟨proxy, advanced, rfl⟩ := Option.map_eq_some_iff.mp moved
      have after := accounted.move advanced
      cases label with
      | executor label =>
          obtain ⟨allowed, stepped⟩ := Option.ite_none_right_eq_some.mp advanced
          exact invariant.foreign after (foreign_of_permits permitted allowed) stepped
      | attach branch =>
          obtain ⟨constructing, stepped⟩ := Option.ite_none_right_eq_some.mp advanced
          have foreign : Foreign coroutines state.proxy
              (.attach (coroutines.base branch) coroutines.sources) :=
            ⟨fun _ _ _ => constructing, by simp, by simp, by simp, by simp⟩
          exact invariant.foreign after foreign stepped
      | suspend =>
          obtain ⟨_, entered⟩ := Option.ite_none_right_eq_some.mp advanced
          cases entered
          exact invariant.reparent after nofun
      | cancel => cases permitted
      | resume =>
          obtain ⟨_, entered⟩ := Option.ite_none_right_eq_some.mp advanced
          cases entered
          exact invariant.reparent after (by split <;> simp)
  | endFuture i outcome =>
      obtain ⟨runs, moved⟩ := Option.ite_none_right_eq_some.mp moved
      obtain ⟨proxy, stepped, rfl⟩ := Option.map_eq_some_iff.mp moved
      have after := accounted.goes (by simp) (by simp) stepped
      exact invariant.endFuture after (runs_iff.mp runs) stepped outcome
  | awaitFuture i =>
      obtain ⟨⟨runs, start⟩, moved⟩ := Option.ite_none_right_eq_some.mp moved
      obtain ⟨proxy, stepped, rfl⟩ := Option.map_eq_some_iff.mp moved
      have after := accounted.goes (by simp) (by simp) stepped
      exact invariant.awaitFuture after (runs_iff.mp runs) start stepped
  | exchange i =>
      obtain ⟨⟨runs, awaiting⟩, moved⟩ := Option.ite_none_right_eq_some.mp moved
      have running := runs_iff.mp runs
      rw [(invariant.exchange_ready running awaiting).2] at moved
      cases moved
      exact invariant.exchange running awaiting
  | cancel i =>
      obtain ⟨⟨runs, won⟩, moved⟩ := Option.ite_none_right_eq_some.mp moved
      obtain ⟨proxy, stepped, rfl⟩ := Option.map_eq_some_iff.mp moved
      exact invariant.cancel (accounted.move stepped) (runs_iff.mp runs) won stepped
  | coReturn i =>
      obtain ⟨⟨runs, returning⟩, moved⟩ := Option.ite_none_right_eq_some.mp moved
      obtain ⟨proxy, stepped, rfl⟩ := Option.map_eq_some_iff.mp moved
      have after := accounted.goes (by simp) (by simp) stepped
      exact invariant.coReturn after (runs_iff.mp runs) returning stepped
  | yield i =>
      obtain ⟨⟨_, spinning⟩, _⟩ := Option.ite_none_right_eq_some.mp moved
      exact absurd spinning (invariant.branch i).unspun

theorem invariant_of_reachable
    (reachable : (machine Value Exception coroutines).Reachable Machine.free state) :
    Invariant coroutines state := by
  refine reachable.invariant ?_ fun state label next invariant _ moved => invariant.move moved
  intro first started
  cases started
  refine ⟨.initial _, fun i => ?_, nofun, nofun⟩
  exact
    { unentered := fun _ => rfl
      staged := .inl (.inl rfl)
      unawaited := fun _ => rfl
      decides := fun decides => by simp [State.initial, Pc.Decides] at decides
      unspun := nofun
      wins := nofun
      ended := nofun
      returned := nofun
      cancelled := fun settled => by simp [State.initial] at settled
      finished := nofun }

/-! ## Every run -/

/-- `exchanges` is about a branch that comes to the exchange, and `answers` about the
coroutine that has awaited the `select`. -/
structure Decided (coroutines : Coroutines n Handle Source)
    (state : State n Value Exception Handle Source) : Prop where
  unspun : ∀ i, state.pcs i ≠ .spinning
  exchanges : ∀ i, coroutines.runs state (coroutines.base i) i = true → state.pcs i = .awaiting →
    (state.results i).isSome ∧ state.completeBranch = none
  alone : ∀ i id current, state.completeBranch = some i →
    state.proxy.executor.phase = .running id current →
      id = coroutines.base i ∧ current = coroutines.base i
  returned : ∀ i outcome, state.futures i = some outcome →
    state.completeBranch = some i ∧ state.results i = some outcome
  answers : 0 < n → state.proxy.parent = .resumed → ∃ i outcome,
    state.completeBranch = some i ∧ state.results i = some outcome ∧
      state.awaitResume = some ⟨i, outcome⟩

namespace Invariant

variable (invariant : Invariant coroutines state)

include invariant

theorem alone_of_winner (won : state.completeBranch = some i)
    (running : state.proxy.executor.phase = .running id current) :
    id = coroutines.base i ∧ current = coroutines.base i := by
  have decided (decides : (state.pcs i).Decides) :
      id = coroutines.base i ∧ current = coroutines.base i := by
    have same := running.symm.trans ((invariant.branch i).decides decides).1
    simpa only [Executor.Phase.running.injEq] using same
  rcases (invariant.branch i).wins won with decides | ended
  · exact decided decides
  · obtain ⟨other, _, _, returning⟩ :=
      invariant.alone id current running ((invariant.branch i).cancelled (.inr ended))
    have winner := ((invariant.branch other).decides (.inr returning)).2.1
    obtain rfl : i = other := Option.some.inj (won.symm.trans winner)
    exact decided (.inr returning)

theorem awaitResume_of_ended (ended : state.pcs i = .ended) :
    ∃ outcome, state.completeBranch = some i ∧ state.results i = some outcome ∧
      state.awaitResume = some ⟨i, outcome⟩ := by
  obtain ⟨won, same, ready⟩ := (invariant.branch i).ended ended
  obtain ⟨outcome, found⟩ := Option.isSome_iff_exists.mp ready
  refine ⟨outcome, won, found, ?_⟩
  simp [State.awaitResume, won, same, found]

/-- When the coroutine that has the `select` goes on, a branch has returned. -/
theorem ended_of_resumed (positive : 0 < n) (resumed : state.proxy.parent = .resumed) :
    ∃ i, state.pcs i = .ended := by
  rcases invariant.accounted.resumed resumed ⟨0, positive⟩ with finished | requested
  · exact ⟨_, (invariant.branch _).finished finished⟩
  · obtain ⟨i, returning | ended⟩ := invariant.cancels requested
    · have running := ((invariant.branch i).decides (.inr returning)).1
      have gone := invariant.accounted.empty (.inl resumed) (coroutines.base i)
      exact absurd (.inl gone) (not_gone invariant.accounted.coherent running)
    · exact ⟨i, ended⟩

theorem decided : Decided coroutines state where
  unspun i := (invariant.branch i).unspun
  exchanges i runs awaiting := invariant.exchange_ready (runs_iff.mp runs) awaiting
  alone i id current won running := invariant.alone_of_winner won running
  returned i outcome found := by
    have ended := (invariant.branch i).returned (by simp [found])
    obtain ⟨won, same, _⟩ := (invariant.branch i).ended ended
    exact ⟨won, same ▸ found⟩
  answers positive resumed := by
    obtain ⟨i, ended⟩ := invariant.ended_of_resumed positive resumed
    exact ⟨i, invariant.awaitResume_of_ended ended⟩

/-- The branch that has won and the result of its function stay. -/
theorem keeps (won : state.completeBranch = some i) {label : Label n Value Exception Handle Source}
    (moved : coroutines.move state label = some next) :
    next.completeBranch = some i ∧ next.results i = state.results i := by
  cases label with
  | exchange j =>
      obtain ⟨⟨runs, awaiting⟩, _⟩ := Option.ite_none_right_eq_some.mp moved
      have vacant := (invariant.exchange_ready (runs_iff.mp runs) awaiting).2
      cases won.symm.trans vacant
  | endFuture j outcome =>
      obtain ⟨runs, moved⟩ := Option.ite_none_right_eq_some.mp moved
      obtain ⟨proxy, _, rfl⟩ := Option.map_eq_some_iff.mp moved
      obtain ⟨owner, same⟩ := invariant.alone_of_winner won (runs_iff.mp runs)
      obtain rfl := coroutines.distinct owner
      exact absurd same (coroutines.different j)
  | proxy label =>
      obtain ⟨_, moved⟩ := Option.ite_none_right_eq_some.mp moved
      obtain ⟨proxy, _, rfl⟩ := Option.map_eq_some_iff.mp moved
      exact ⟨won, rfl⟩
  | awaitFuture j | cancel j | coReturn j | yield j =>
      obtain ⟨_, moved⟩ := Option.ite_none_right_eq_some.mp moved
      obtain ⟨proxy, _, rfl⟩ := Option.map_eq_some_iff.mp moved
      exact ⟨won, rfl⟩

end Invariant

/-- In every run at most one branch wins, and nothing runs in the domain from then on but
the coroutine of its `select_impl`. -/
theorem decided_of_reachable
    (reachable : (machine Value Exception coroutines).Reachable Machine.free state) :
    Decided coroutines state :=
  (invariant_of_reachable reachable).decided

/-- Whatever happens after a branch has won, the coroutine that has awaited the `select`
gets the index of the branch and what its function has ended with. -/
theorem awaitResume_of_run {last : State n Value Exception Handle Source}
    (reachable : (machine Value Exception coroutines).Reachable Machine.free state)
    (won : state.completeBranch = some i)
    (run : (machine Value Exception coroutines).Run Machine.free state last)
    (resumed : last.proxy.parent = .resumed) :
    ∃ outcome, state.results i = some outcome ∧ last.awaitResume = some ⟨i, outcome⟩ := by
  obtain ⟨reached, kept⟩ := run.reachable_preserves
    (fun later => later.completeBranch = some i ∧ later.results i = state.results i) reachable
    (fun _ _ _ => trivial) (fun middle label next reached kept _ moved => by
      obtain ⟨stays, same⟩ := (invariant_of_reachable reached).keeps kept.1 moved
      exact ⟨stays, same.trans kept.2⟩) ⟨won, rfl⟩
  obtain ⟨winner, outcome, wins, found, answered⟩ :=
    (decided_of_reachable reached).answers (Fin.pos i) resumed
  obtain rfl : i = winner := Option.some.inj (kept.1.symm.trans wins)
  exact ⟨outcome, kept.2 ▸ found, answered⟩

/-- Two branches whose coroutines are 0 and 1, and those of their functions 2 and 3. -/
def twoBranches : Coroutines 2 ℕ ℕ where
  base i := i
  distinct := Fin.val_injective
  outer := [8]
  own := 9
  apart := by decide
  inner i := 2 + i
  different i := by simp

/-- The label of a step of the executor of the domain. -/
def executes (label : Executor.Label ℕ ℕ) : Label 2 (fun _ => ℕ) Unit ℕ ℕ :=
  .proxy (.executor label)

/-- Both branches await their functions, and that of the first one ends. -/
def firstWins : List (Label 2 (fun _ => ℕ) Unit ℕ ℕ) :=
  [executes (.create 0), executes (.create 1), executes (.create 2), executes (.create 3),
    .proxy (.attach 0), .proxy (.attach 1), .proxy .suspend,
    executes (.execute 0), executes .test, .awaitFuture 0, executes .test,
    executes (.execute 1), executes .test, .awaitFuture 1, executes .test,
    executes (.execute 0), executes .test, .endFuture 0 (.ok 7), executes .destroy, executes .test,
    executes (.execute 0), executes .test, .exchange 0]

/-- The first branch returns, the second one is cleaned up, and the domain is empty. -/
def secondLoses : List (Label 2 (fun _ => ℕ) Unit ℕ ℕ) :=
  [.cancel 0, .coReturn 0, executes .destroy, executes .test, executes .invokeCallbacks,
    executes .unwind, executes .detach,
    executes (.execute 1), executes .test, executes .invokeCallbacks, executes .unwind,
    executes .destroy, executes .unwind, executes .destroy, executes .unwind, executes .detach,
    .proxy .resume]

theorem exists_won : ∃ state, (machine (fun _ => ℕ) Unit twoBranches).Reachable Machine.free state ∧
    state.completeBranch = some 0 ∧
      ∃ last,
        (machine (fun _ => ℕ) Unit twoBranches).exec Machine.free state secondLoses = some last ∧
        last.proxy.parent = .resumed :=
  Machine.reachable_of_exec (machine (fun _ => ℕ) Unit twoBranches) Machine.free
    (.initial _ Unit ℕ ℕ) firstWins
    (fun state => state.completeBranch = some 0 ∧
      ∃ last,
        (machine (fun _ => ℕ) Unit twoBranches).exec Machine.free state secondLoses = some last ∧
        last.proxy.parent = .resumed)
    rfl ⟨_, rfl, rfl, _, rfl, rfl⟩

theorem decided_of_reachable_won : ∃ state : State 2 (fun _ => ℕ) Unit ℕ ℕ,
    state.completeBranch = some 0 ∧ Decided twoBranches state := by
  obtain ⟨state, reachable, won, _⟩ := exists_won
  exact ⟨state, won, decided_of_reachable reachable⟩

theorem awaitResume_of_run_won : ∃ state last : State 2 (fun _ => ℕ) Unit ℕ ℕ,
    ∃ outcome, state.results 0 = some outcome ∧ last.awaitResume = some ⟨0, outcome⟩ := by
  obtain ⟨state, reachable, won, last, executed, resumed⟩ := exists_won
  exact ⟨state, last, awaitResume_of_run reachable won (Machine.exec_run executed) resumed⟩

end Asco.Task.Select
