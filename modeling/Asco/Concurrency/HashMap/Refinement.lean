import Asco.Concurrency.HashMap.Coherence
import Asco.Concurrency.HashMap.Represents

namespace Asco.Concurrency.HashMap

open Foundation

/-! # `hash_map` refines a finite map

A thread that is alone gets the answers of a finite map, whatever weak exchanges
fail without reason on the way.
-/

variable {K V : Type*} [DecidableEq K] {hash : K → UInt64} {map last : HashMap K V}
  {dictionary : Dictionary K V} {key : K} {value : V} {outcome : Outcome V} {index : ℕ}

/-! ## The requests -/

section

variable {session next : Session K V} {progress : Progress K V} {pc : Pc K V} {spurious : Bool}

/-- The thread comes to the end of its request. -/
inductive Serves (hash : K → UInt64) : Session K V → Session K V → Prop where
  | idle {session : Session K V} (rests : session.client = .idle) : Serves hash session session
  | call {session next last : Session K V} {pc : Pc K V} {map : HashMap K V} {outcome : Outcome V}
      (stands : session.client.pc? = some pc)
      (returns : Returns hash session.map (.running pc) map outcome)
      (returned : session.returned (map.settle (.done outcome)).1 outcome = some next)
      (rest : Serves hash next last) :
      Serves hash session last

theorem Returns.advance (returns : Returns hash map (.running pc) last outcome)
    {after : HashMap K V} (resumed : resume hash map false pc = some (after, progress)) :
    Returns hash after progress last outcome := by
  cases returns with
  | step alone rest =>
      rw [resumed] at alone
      cases alone
      exact rest

/-- A weak exchange that fails although the bucket is as expected is made again. -/
theorem Returns.resumed (known : Known pc) (returns : Returns hash map (.running pc) last outcome)
    {after : HashMap K V} (resumed : resume hash map spurious pc = some (after, progress)) :
    Returns hash after progress last outcome := by
  cases spurious with
  | false => exact returns.advance resumed
  | true =>
      cases pc with
      | tryReadExchange call expected =>
          by_cases free : map.writing = false ∧ map.readers = expected
          · obtain ⟨writing, rfl⟩ := free
            have fails : resume hash map true (.tryReadExchange call map.readers) =
                some (map, .running (.tryRead call)) := by simp [resume]
            rw [fails] at resumed
            cases resumed
            exact .step (by simp [resume, writing]) returns
          · exact returns.advance (by simpa [resume, free, ← and_assoc] using resumed)
      | insertClaim key value i expected =>
          by_cases same : (map.buckets (slot hash map.bucketCount key i)).state = expected
          · have fails : resume hash map true (.insertClaim key value i expected) =
                some (map, .running (.insertTombstone key value i)) := by simp [resume]
            rw [fails] at resumed
            cases resumed
            have tombstone : expected.state = .tombstone := known
            exact .step (by simp [resume, same, tombstone]) returns
          · exact returns.advance (by simpa [resume, same] using resumed)
      | removeRaise key i refcount =>
          by_cases same : (map.buckets (slot hash map.bucketCount key i)).state =
            ⟨refcount, .filled⟩
          · have fails : resume hash map true (.removeRaise key i refcount) =
                some (map, .running (.removeLoad key i)) := by simp [resume]
            rw [fails] at resumed
            cases resumed
            by_cases unshared : refcount = 0
            · subst unshared
              have seizes : resume hash map false (.removeRaise key i 0) =
                  some (map.setState (slot hash map.bucketCount key i) ⟨1, .predestructing⟩,
                    .running (.removeCompare key i)) := by simp [resume, same]
              have loads : resume hash map false (.removeLoad key i) =
                  some (map, .running (.removeExchange key i)) := by simp [resume, same]
              have exchanges : resume hash map false (.removeExchange key i) =
                  some (map.setState (slot hash map.bucketCount key i) ⟨1, .predestructing⟩,
                    .running (.removeCompare key i)) := by simp [resume, same]
              exact .step loads (.step exchanges (returns.advance seizes))
            · exact .step (by simp [resume, same, unshared]) returns
          · exact returns.advance (by simpa [resume, same] using resumed)
      | removeDrain index expected =>
          by_cases same : (map.buckets index).state = expected
          · have fails : resume hash map true (.removeDrain index expected) =
                some (map, .running (.removeDrainLoad index)) := by simp [resume]
            rw [fails] at resumed
            cases resumed
            have drained : ¬ 1 < expected.refcount := Nat.not_lt.mpr known
            exact .step (by simp [resume, same, drained]) returns
          · exact returns.advance (by simpa [resume, same] using resumed)
      | getRaise key contains i refcount =>
          by_cases same : (map.buckets (slot hash map.bucketCount key i)).state =
            ⟨refcount, .filled⟩
          · have fails : resume hash map true (.getRaise key contains i refcount) =
                some (map, .running (.getLoad key contains i)) := by simp [resume]
            rw [fails] at resumed
            cases resumed
            exact .step (by simp [resume, same]) returns
          · exact returns.advance (by simpa [resume, same] using resumed)
      | lower index reason expected =>
          by_cases same : (map.buckets index).state = expected
          · have fails : resume hash map true (.lower index reason expected) =
                some (map, .running (.lowerLoad index reason)) := by simp [resume]
            rw [fails] at resumed
            cases resumed
            exact .step (by simp [resume, same]) returns
          · exact returns.advance (by simpa [resume, same] using resumed)
      | _ => exact returns.advance resumed

omit [DecidableEq K] in
theorem goOn_returned (stands : session.client.pc? = some pc) (place : Pc K V) (map : HashMap K V) :
    (session.client.goOn place).pc? = some place ∧
      Session.returned { session with map, client := session.client.goOn place } =
        session.returned := by
  obtain ⟨_, client, _, _⟩ := session
  cases client with
  | idle => contradiction
  | _ => exact ⟨rfl, rfl⟩

theorem Serves.step {last : Session K V} (serves : Serves hash session last)
    (known : ∀ pc, session.client.pc? = some pc → Known pc)
    (stepped : session.step hash spurious = some next) : Serves hash next last := by
  obtain ⟨pc, stands, continues⟩ := Option.bind_eq_some_iff.mp stepped
  obtain ⟨⟨map, progress⟩, resumed, continues⟩ := Option.bind_eq_some_iff.mp continues
  cases serves with
  | idle rests =>
      rw [rests] at stands
      contradiction
  | @call _ served _ place final outcome there returns returned rest =>
      obtain rfl := Option.some.inj (there.symm.trans stands)
      have remaining := returns.resumed (known _ stands) resumed
      cases progress with
      | running pc =>
          cases continues
          obtain ⟨place, same⟩ := goOn_returned stands pc map
          exact .call place remaining (same ▸ returned) rest
      | done finished =>
          cases remaining
          obtain rfl := Option.some.inj (returned.symm.trans continues)
          exact rest

/-- No request begins and no exchange fails without reason. -/
def Undisturbed (_ : Session K V) (label : Session.Label K V) : Prop := label = .step false

theorem Returns.run {final : HashMap K V} (returns : Returns hash map progress final outcome) :
    ∀ (session : Session K V) (pc : Pc K V), progress = .running pc → session.map = map →
      session.client.pc? = some pc →
        session.returned (final.settle (.done outcome)).1 outcome = some next →
          (Session.machine V hash).Run Undisturbed session next := by
  induction returns with
  | done =>
      intro session pc running
      cases running
  | @step map after final pc progress outcome resumed rest ih =>
      intro session place running same stands returned
      cases running
      subst same
      have allowed : Undisturbed session (.step false) := rfl
      cases progress with
      | done finished =>
          cases rest
          have moved : (Session.machine V hash).move session (.step false) = some next := by
            simp only [Session.machine, Session.move, Session.step, stands, Option.bind_some,
              resumed]
            exact returned
          exact (Machine.Run.refl session).tail allowed moved
      | running pc =>
          obtain ⟨stays, returns⟩ := goOn_returned stands pc after
          have moved : (Session.machine V hash).move session (.step false) =
              some { session with map := after, client := session.client.goOn pc } := by
            simp only [Session.machine, Session.move, Session.step, stands, Option.bind_some,
              resumed]
          have remaining := ih _ pc rfl rfl stays (returns ▸ returned)
          exact ((Machine.Run.refl session).tail allowed moved).trans remaining

theorem Serves.run {last : Session K V} (serves : Serves hash session last) :
    (Session.machine V hash).Run Undisturbed session last ∧ last.client = .idle := by
  induction serves with
  | idle rests => exact ⟨.refl _, rests⟩
  | call stands returns returned _ ih =>
      obtain ⟨run, rests⟩ := ih
      exact ⟨(returns.run _ _ rfl rfl stands returned).trans run, rests⟩

/-! ## What is answered -/

/-- The thread has no request in progress, and the finite map has given the same answers. -/
structure Answered (hash : K → UInt64) (session : Session K V) : Prop where
  rests : session.client = .idle
  answers : session.answers = (Dictionary.serveAll session.requests).2
  represents : Represents hash session.map (Dictionary.serveAll session.requests).1

theorem answered_initial (hash : K → UInt64) : Answered hash (Session.initial K V) :=
  ⟨rfl, rfl, represents_create hash⟩

/-- The session after a request that leaves the map and has the answer. -/
def Session.served (session : Session K V) (request : Request K V) (map : HashMap K V)
    (answer : Answer V) : Session K V where
  map := map
  client := .idle
  requests := session.requests ++ [request]
  answers := session.answers ++ [answer]

theorem Answered.served (answered : Answered hash session) {request : Request K V}
    {after : Dictionary K V} {answer : Answer V}
    (serves : (Dictionary.serveAll session.requests).1.serve request = (after, answer))
    (represents : Represents hash map after) :
    Answered hash (session.served request map answer) where
  rests := rfl
  answers := by
    change session.answers ++ [answer] = (Dictionary.serveAll (session.requests ++ [request])).2
    rw [Dictionary.serveAll_concat, serves, answered.answers]
  represents := by
    change Represents hash map (Dictionary.serveAll (session.requests ++ [request])).1
    rw [Dictionary.serveAll_concat, serves]
    exact represents

omit [DecidableEq K] in
theorem start_drop (map : HashMap K V) (index : ℕ) :
    (map.settle (.done (.found index))).1.start (.drop index) =
      some (map, .lowerLoad index .guard) := by
  simp [settle, start]

/-- The guard is dropped. -/
theorem Returns.drop {entry : K × V} (holds : Holds (map.buckets index) entry) :
    Returns hash (map.setState index ⟨1, .filled⟩) (.running (.lowerLoad index .guard)) map
      .dropped := by
  have raised : ((map.setState index ⟨1, .filled⟩).buckets index).state = ⟨1, .filled⟩ := by simp
  refine .lower raised ?_
  rw [setState_setState]
  have same : map.setState index ⟨0, .filled⟩ = map := setState_self (congrArg Bucket.state holds)
  change Returns hash (map.setState index ⟨0, .filled⟩) (.done .dropped) map .dropped
  rw [same]
  exact .done

/-- The last call of an insertion. -/
theorem Represents.serves_insert {request : Request K V}
    (represents : Represents hash session.map dictionary)
    (inserts : request = .tryInsert key value ∨ request = .insert key value)
    (stands : session.client = .calling request (.tryRead (.tryInsert key value)))
    (room : ¬ dictionary.Full) :
    ∃ last, Serves hash session
        { session with
          map := last, client := .idle,
          answers := session.answers ++ [(dictionary.add key value).2] } ∧
      Represents hash last (dictionary.add key value).1 := by
  obtain ⟨last, outcome, returns, answer, outcomes, after⟩ := represents.tryInsert room key value
  have place : session.client.pc? = some (.tryRead (.tryInsert key value)) := by
    rw [stands]
    rfl
  refine ⟨last, .call place returns ?_ (.idle rfl), after⟩
  simp only [Session.returned, stands]
  rcases outcomes with rfl | rfl
  · rw [← Option.some.inj answer]
    rcases inserts with rfl | rfl <;> rfl
  · rw [← Option.some.inj answer]
    rcases inserts with rfl | rfl <;> rfl

/-- A guard that was returned is dropped. -/
theorem serves_found {request : Request K V} {pc : Pc K V}
    (stands : session.client = .calling request pc)
    (returns : Returns hash session.map (.running pc) (session.map.setState index ⟨1, .filled⟩)
      (.found index))
    (holds : Holds (session.map.buckets index) (key, value)) :
    Serves hash session
      { session with client := .idle, answers := session.answers ++ [.found value] } := by
  let dropping : Session K V :=
    { session with
      map := session.map.setState index ⟨1, .filled⟩
      client := .dropping (.lowerLoad index .guard)
      answers := session.answers ++ [.found value] }
  have place : session.client.pc? = some pc := by
    rw [stands]
    rfl
  have entry := congrArg Bucket.entry holds
  have plain : request.again (.found index) = false := by cases request <;> rfl
  have stored : ((session.map.setState index ⟨1, .filled⟩).settle
      (.done (.found index))).1.buckets index = ⟨⟨1, .filled⟩, some (key, value)⟩ := by
    simp [settle, entry]
  have finishes : session.returned ((session.map.setState index ⟨1, .filled⟩).settle
      (.done (.found index))).1 (.found index) = some dropping := by
    simp [Session.returned, stands, Session.finish, plain, Outcome.answer, stored, Session.begin,
      start_drop, dropping]
  have drops : dropping.returned session.map .dropped =
      some { session with client := .idle, answers := session.answers ++ [.found value] } := rfl
  exact .call place returns finishes (.call rfl (.drop holds) drops (.idle rfl))

/-- Every request is served, and its answer is the one of the finite map. -/
theorem Answered.request (answered : Answered hash session) {request : Request K V}
    (moved : session.move hash (.request request) = some next) :
    ∃ last, Serves hash next last ∧ Answered hash last := by
  have represents := answered.represents
  simp only [Session.move, answered.rests, Session.begin, Option.map_eq_some_iff] at moved
  obtain ⟨⟨map, pc⟩, starts, rfl⟩ := moved
  cases request with
  | tryInsert key value =>
      cases starts
      by_cases full : (Dictionary.serveAll session.requests).1.Full
      · exact ⟨_, .call rfl (represents.refused full key value) rfl (.idle rfl),
          answered.served (if_pos full) represents⟩
      · let asked : Session K V :=
          { session with
            client := .calling (.tryInsert key value) (.tryRead (.tryInsert key value))
            requests := session.requests ++ [.tryInsert key value] }
        have asking : Represents hash asked.map (Dictionary.serveAll session.requests).1 :=
          represents
        obtain ⟨last, serves, after⟩ := asking.serves_insert (.inl rfl) rfl full
        exact ⟨_, serves, answered.served (if_neg full) after⟩
  | insert key value =>
      cases starts
      by_cases full : (Dictionary.serveAll session.requests).1.Full
      · obtain ⟨rehashed, returns, after⟩ := represents.tryRehash
        let asked : Session K V :=
          { session with
            map := rehashed
            client := .calling (.insert key value) (.tryRead (.tryInsert key value))
            requests := session.requests ++ [.insert key value] }
        have asking : Represents hash asked.map (Dictionary.serveAll session.requests).1.doubled :=
          after
        have roomy : ¬ (Dictionary.serveAll session.requests).1.doubled.Full := by
          have few := represents.keys_le
          have positive := represents.sized.pos
          have size := represents.bucketCount
          simp only [Dictionary.Full, Dictionary.doubled]
          omega
        obtain ⟨last, serves, after⟩ := asking.serves_insert (.inr rfl) rfl roomy
        refine ⟨_, .call rfl (represents.refused full key value) rfl (.call rfl returns rfl serves),
          answered.served ?_ after⟩
        simp only [Dictionary.serve, if_pos full]
      · let asked : Session K V :=
          { session with
            client := .calling (.insert key value) (.tryRead (.tryInsert key value))
            requests := session.requests ++ [.insert key value] }
        have asking : Represents hash asked.map (Dictionary.serveAll session.requests).1 :=
          represents
        obtain ⟨last, serves, after⟩ := asking.serves_insert (.inr rfl) rfl full
        refine ⟨_, serves, answered.served ?_ after⟩
        simp only [Dictionary.serve, if_neg full]
  | tryRemove key | remove key =>
      cases starts
      rcases represents.tryRemove key with ⟨absent, returns⟩ | ⟨last, value, stored, returns, after⟩
      · exact ⟨_, .call rfl returns rfl (.idle rfl),
          answered.served (by simp only [Dictionary.serve, absent]) represents⟩
      · exact ⟨_, .call rfl returns rfl (.idle rfl),
          answered.served (by simp only [Dictionary.serve, stored]) after⟩
  | tryGet key | get key =>
      cases starts
      rcases represents.tryGet key with ⟨absent, returns⟩ | ⟨index, value, stored, holds, returns⟩
      · exact ⟨_, .call rfl returns rfl (.idle rfl),
          answered.served (by simp only [Dictionary.serve, absent]) represents⟩
      · exact ⟨_, serves_found rfl returns holds,
          answered.served (by simp only [Dictionary.serve, stored]) represents⟩
  | tryContains key | contains key =>
      cases starts
      exact ⟨_, .call rfl (represents.tryContains key) rfl (.idle rfl),
        answered.served rfl represents⟩
  | tryRehash =>
      cases starts
      obtain ⟨last, returns, after⟩ := represents.tryRehash
      exact ⟨_, .call rfl returns rfl (.idle rfl), answered.served rfl after⟩

/-! ## A session is a run of one thread -/

/-- The only thread stands at the place. -/
def alone (map : HashMap K V) (place : Option (Pc K V)) :
    Pool Unit (HashMap K V) (Option (Pc K V)) where
  shared := map
  locals _ := place

/-- A run of one thread comes here. -/
def Comes (hash : K → UInt64) (map : HashMap K V) (place : Option (Pc K V)) : Prop :=
  (machine Unit V hash).Reachable Machine.free (alone map place)

theorem Comes.advance {place finish : Option (Pc K V)} {choice : Choice (Call K V)}
    (comes : Comes hash map place)
    (advanced : HashMap.advance hash map place choice = some (last, finish)) :
    Comes hash last finish := by
  obtain ⟨first, started, run⟩ := comes
  have moved : (machine Unit V hash).move (alone map place) ((), choice) =
      some (alone last finish) := by
    refine Program.move_eq_some.mpr ⟨last, finish, advanced, ?_⟩
    have locals : (fun _ => finish) = Function.update (alone map place).locals () finish := by
      funext thread
      rw [Function.update_self]
    rw [alone, locals]
  exact ⟨first, started, run.tail trivial moved⟩

theorem Comes.begin {call : Call K V} {client : Pc K V → Client K V} (comes : Comes hash map none)
    (places : ∀ pc, (client pc).pc? = some pc)
    (begins : session.begin map call client = some next) :
    Comes hash next.map next.client.pc? := by
  obtain ⟨⟨begun, pc⟩, starts, rfl⟩ := Option.map_eq_some_iff.mp begins
  have advanced : HashMap.advance hash map none (.call call) = some (begun, some pc) := by
    simp [HashMap.advance, starts]
  have comes := comes.advance advanced
  rw [← places pc] at comes
  exact comes

theorem Comes.returned (comes : Comes hash map none)
    (returned : session.returned map outcome = some next) :
    Comes hash next.map next.client.pc? := by
  unfold Session.returned at returned
  cases found : session.client with
  | idle =>
      rw [found] at returned
      contradiction
  | calling request pc =>
      rw [found] at returned
      simp only [Session.finish] at returned
      split at returned
      · split at returned
        · exact comes.begin (fun _ => rfl) returned
        · exact comes.begin (fun _ => rfl) returned
      · obtain ⟨answer, _, continues⟩ := Option.bind_eq_some_iff.mp returned
        split at continues
        · exact comes.begin (fun _ => rfl) continues
        · cases continues
          exact comes
  | rehashing request pc =>
      rw [found] at returned
      exact comes.begin (fun _ => rfl) returned
  | dropping pc =>
      rw [found] at returned
      cases returned
      exact comes

theorem Comes.move {label : Session.Label K V} (comes : Comes hash session.map session.client.pc?)
    (moved : session.move hash label = some next) : Comes hash next.map next.client.pc? := by
  cases label with
  | request request =>
      simp only [Session.move] at moved
      split at moved
      · rename_i rests
        rw [rests] at comes
        exact comes.begin (fun _ => rfl) moved
      · contradiction
  | step spurious =>
      obtain ⟨pc, stands, continues⟩ := Option.bind_eq_some_iff.mp moved
      obtain ⟨⟨map, progress⟩, resumed, continues⟩ := Option.bind_eq_some_iff.mp continues
      rw [stands] at comes
      have advanced : HashMap.advance hash session.map (some pc) (.step spurious) =
          some (map.settle progress) := by
        simp [HashMap.advance, resumed]
      have comes : Comes hash (map.settle progress).1 (map.settle progress).2 :=
        comes.advance advanced
      rw [settle_place] at comes
      cases progress with
      | running after =>
          cases continues
          obtain ⟨stays, _⟩ := goOn_returned stands after map
          exact stays ▸ comes
      | done outcome => exact comes.returned continues

/-! ## Every run -/

/-- The request in progress will be answered as the finite map answers it. -/
structure Served (hash : K → UInt64) (session : Session K V) : Prop where
  comes : Comes hash session.map session.client.pc?
  serves : ∃ last, Serves hash session last ∧ Answered hash last

theorem served_initial (hash : K → UInt64) : Served hash (Session.initial K V) :=
  ⟨⟨_, rfl, .refl _⟩, _, .idle rfl, answered_initial hash⟩

theorem Serves.of_idle {last : Session K V} (rests : session.client = .idle)
    (serves : Serves hash session last) : last = session := by
  cases serves with
  | idle => rfl
  | call stands =>
      rw [rests] at stands
      contradiction

theorem Served.known (served : Served hash session) (stands : session.client.pc? = some pc) :
    Known pc := by
  have stands : (alone session.map session.client.pc?).locals () = some pc := stands
  exact ((coherent_of_reachable served.comes).backed stands).known

theorem Served.move {label : Session.Label K V} (served : Served hash session)
    (moved : session.move hash label = some next) : Served hash next := by
  obtain ⟨last, serves, answered⟩ := served.serves
  refine ⟨served.comes.move moved, ?_⟩
  cases label with
  | request request =>
      have rests : session.client = .idle := by
        simp only [Session.move] at moved
        split at moved
        · assumption
        · contradiction
      obtain rfl := serves.of_idle rests
      exact answered.request moved
  | step spurious =>
      exact ⟨last, serves.step (fun pc => served.known) moved, answered⟩

theorem served_of_reachable (reachable : (Session.machine V hash).Reachable Machine.free session) :
    Served hash session := by
  refine reachable.invariant ?_ ?_
  · intro first started
    cases started
    exact served_initial hash
  · intro session label next served _ moved
    exact served.move moved

/-- The session answers as the finite map.  It comes to the end of every request, without the
end of `do_insert` behind its loop, and between two requests the answers, the size and the
number of buckets are those of the finite map. -/
structure Faithful (hash : K → UInt64) (session : Session K V) : Prop where
  returns : ∃ last, (Session.machine V hash).Run Undisturbed session last ∧ last.client = .idle
  finds : ∀ request pc spurious map, session.client = .calling request pc →
    resume hash session.map spurious pc ≠ some (map, .done .unreachable)
  answers : session.client = .idle →
    session.answers = (Dictionary.serveAll session.requests).2
  size : session.client = .idle →
    session.map.load = (Dictionary.serveAll session.requests).1.entries.keys.card
  bucketCount : session.client = .idle →
    session.map.bucketCount = (Dictionary.serveAll session.requests).1.bucketCount

theorem Serves.finds {last : Session K V} {request : Request K V}
    (serves : Serves hash session last) (stands : session.client = .calling request pc)
    (known : Known pc) (resumed : resume hash session.map spurious pc = some (map, .done outcome)) :
    outcome ≠ .unreachable := by
  rintro rfl
  cases serves with
  | idle rests =>
      rw [rests] at stands
      contradiction
  | call there returns returned _ =>
      rw [stands] at there
      cases there
      cases returns.resumed known resumed
      have plain : request.again .unreachable = false := by cases request <;> rfl
      simp [Session.returned, stands, Session.finish, plain, Outcome.answer] at returned

theorem refines_finite_map
    (reachable : (Session.machine V hash).Reachable Machine.free session) :
    Faithful hash session := by
  have served := served_of_reachable reachable
  obtain ⟨last, serves, answered⟩ := served.serves
  refine ⟨⟨last, serves.run⟩, fun request pc spurious map stands resumed => ?_, fun rests => ?_,
    fun rests => ?_, fun rests => ?_⟩
  · have place : session.client.pc? = some pc := by
      rw [stands]
      rfl
    exact serves.finds stands (served.known place) resumed rfl
  · obtain rfl := serves.of_idle rests
    exact answered.answers
  · obtain rfl := serves.of_idle rests
    exact answered.represents.load
  · obtain rfl := serves.of_idle rests
    exact answered.represents.bucketCount

/-- A key is removed and put into its tombstone again. -/
theorem refines_finite_map_again :
    ∃ session : Session ℕ ℕ,
      (Session.machine ℕ UInt64.ofNat).Reachable Machine.free session ∧
        session.answers = [.inserted, .removed 7, .inserted] ∧ Faithful UInt64.ofNat session := by
  obtain ⟨session, reachable, answers⟩ :=
    Machine.reachable_of_exec (Session.machine ℕ UInt64.ofNat) Machine.free (Session.initial ℕ ℕ)
      (List.flatten
        [.request (.tryInsert 5 7) :: List.replicate 8 (.step false),
          .request (.remove 5) :: List.replicate 11 (.step false),
          .request (.insert 5 9) :: List.replicate 11 (.step false)])
      (fun session => session.answers = [.inserted, .removed 7, .inserted]) rfl ⟨_, rfl, rfl⟩
  exact ⟨session, reachable, answers, refines_finite_map reachable⟩

end

end Asco.Concurrency.HashMap
