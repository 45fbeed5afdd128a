import Mathlib.Data.Finmap
import Asco.Concurrency.HashMap

namespace Asco.Concurrency.HashMap

open Foundation

/-! # One thread: a finite map

A thread makes one request after another, and drops the guard it gets before it
makes the next one.  `insert`, `remove`, `get` and `contains` are loops around
the calls that may fail.
-/

inductive Request (K V : Type*) where
  | tryInsert (key : K) (value : V)
  | insert (key : K) (value : V)
  | tryRemove (key : K)
  | remove (key : K)
  | tryGet (key : K)
  | get (key : K)
  | tryContains (key : K)
  | contains (key : K)
  | tryRehash

/-- What a request returns.  A loop returns what the call has returned that ends it. -/
inductive Answer (V : Type*) where
  | inserted
  | insertFailed (failure : InsertFailed)
  | removed (value : V)
  | removeFailed (failure : RemoveFailed)
  | found (value : V)
  | contained (found : Bool)
  | getFailed (failure : GetFailed)
  | rehashed (done : Bool)

/-- Where the thread stands.  An `insert` that was refused calls `try_rehash`, and a guard that
was returned is dropped. -/
inductive Client (K V : Type*) where
  | idle
  | calling (request : Request K V) (pc : Pc K V)
  | rehashing (request : Request K V) (pc : Pc K V)
  | dropping (pc : Pc K V)

/-- The requests that have been made and what has been answered. -/
structure Session (K V : Type*) where
  map : HashMap K V
  client : Client K V
  requests : List (Request K V)
  answers : List (Answer V)

variable {K V : Type*}

def Request.call : Request K V → Call K V
  | .tryInsert key value | .insert key value => .tryInsert key value
  | .tryRemove key | .remove key => .tryRemove key
  | .tryGet key | .get key => .tryGet key
  | .tryContains key | .contains key => .tryContains key
  | .tryRehash => .tryRehash

/-- The loop of the request goes round. -/
def Request.again : Request K V → Outcome V → Bool
  | .insert _ _, .insertFailed failure => failure != .keyRepeated
  | .remove _, .removeFailed failure => failure != .none
  | .get _, .getFailed failure | .contains _, .getFailed failure => failure != .none
  | _, _ => false

/-- A guard gives access to the value of its bucket. -/
def Outcome.answer (map : HashMap K V) : Outcome V → Option (Answer V)
  | .inserted => some .inserted
  | .insertFailed failure => some (.insertFailed failure)
  | .removed value => some (.removed value)
  | .removeFailed failure => some (.removeFailed failure)
  | .found index => (map.buckets index).entry.map fun entry => .found entry.2
  | .contained present => some (.contained present)
  | .getFailed failure => some (.getFailed failure)
  | .rehashed done => some (.rehashed done)
  | .dropped | .unreachable => none

def Client.pc? : Client K V → Option (Pc K V)
  | .idle => none
  | .calling _ pc | .rehashing _ pc | .dropping pc => some pc

/-- The next place of the same call. -/
def Client.goOn : Client K V → Pc K V → Client K V
  | .idle, _ => .idle
  | .calling request _, pc => .calling request pc
  | .rehashing request _, pc => .rehashing request pc
  | .dropping _, pc => .dropping pc

namespace Session

def initial (K V : Type*) : Session K V where
  map := create K V
  client := .idle
  requests := []
  answers := []

/-- The call begins, after which the thread stands where `client` says. -/
def begin (session : Session K V) (map : HashMap K V) (call : Call K V)
    (client : Pc K V → Client K V) : Option (Session K V) :=
  (map.start call).map fun next => { session with map := next.1, client := client next.2 }

/-- A call of the request has returned. -/
def finish (session : Session K V) (request : Request K V) (map : HashMap K V)
    (outcome : Outcome V) : Option (Session K V) :=
  if request.again outcome then
    match outcome with
    | .insertFailed .rehashNeeded => session.begin map .tryRehash (.rehashing request)
    | _ => session.begin map request.call (.calling request)
  else
    (outcome.answer map).bind fun answer =>
      let answered := { session with answers := session.answers ++ [answer] }
      match outcome with
      | .found index => answered.begin map (.drop index) .dropping
      | _ => some { answered with map, client := .idle }

/-- What follows on the call that the thread is in. -/
def returned (session : Session K V) (map : HashMap K V) (outcome : Outcome V) :
    Option (Session K V) :=
  match session.client with
  | .idle => none
  | .calling request _ => session.finish request map outcome
  | .rehashing request _ => session.begin map request.call (.calling request)
  | .dropping _ => some { session with map, client := .idle }

variable [DecidableEq K]

def step (hash : K → UInt64) (spurious : Bool) (session : Session K V) : Option (Session K V) :=
  session.client.pc?.bind fun pc =>
    (resume hash session.map spurious pc).bind fun next =>
      match next.2 with
      | .running pc => some { session with map := next.1, client := session.client.goOn pc }
      | .done outcome => session.returned (next.1.settle (.done outcome)).1 outcome

inductive Label (K V : Type*) where
  | request (request : Request K V)
  | step (spurious : Bool)

def move (hash : K → UInt64) (session : Session K V) : Label K V → Option (Session K V)
  | .request request =>
      match session.client with
      | .idle =>
          { session with requests := session.requests ++ [request] }.begin session.map request.call
            (.calling request)
      | _ => none
  | .step spurious => session.step hash spurious

def machine (V : Type*) (hash : K → UInt64) : Machine (Session K V) (Label K V) where
  start session := session = initial K V
  move := move hash

end Session

/-! ## The finite map -/

/-- The keys with their values, and the number of buckets. -/
structure Dictionary (K V : Type*) where
  entries : Finmap fun _ : K => V
  bucketCount : ℕ

namespace Dictionary

def empty (K V : Type*) : Dictionary K V where
  entries := ∅
  bucketCount := initialCapacity

/-- The load factor of 0.6 is reached. -/
def Full (dictionary : Dictionary K V) : Prop :=
  3 * dictionary.bucketCount ≤ 5 * dictionary.entries.keys.card

instance (dictionary : Dictionary K V) : Decidable dictionary.Full := Nat.decLe ..

def doubled (dictionary : Dictionary K V) : Dictionary K V :=
  { dictionary with bucketCount := 2 * dictionary.bucketCount }

variable [DecidableEq K]

def add (dictionary : Dictionary K V) (key : K) (value : V) : Dictionary K V × Answer V :=
  if key ∈ dictionary.entries then (dictionary, .insertFailed .keyRepeated)
  else ({ dictionary with entries := dictionary.entries.insert key value }, .inserted)

def serve (dictionary : Dictionary K V) : Request K V → Dictionary K V × Answer V
  | .tryInsert key value =>
      if dictionary.Full then (dictionary, .insertFailed .rehashNeeded)
      else dictionary.add key value
  | .insert key value => (if dictionary.Full then dictionary.doubled else dictionary).add key value
  | .tryRemove key | .remove key =>
      match dictionary.entries.lookup key with
      | some value =>
          ({ dictionary with entries := dictionary.entries.erase key }, .removed value)
      | none => (dictionary, .removeFailed .none)
  | .tryGet key | .get key =>
      match dictionary.entries.lookup key with
      | some value => (dictionary, .found value)
      | none => (dictionary, .getFailed .none)
  | .tryContains key | .contains key => (dictionary, .contained (decide (key ∈ dictionary.entries)))
  | .tryRehash => (dictionary.doubled, .rehashed true)

/-- What is left and what is answered after the requests. -/
def serveAll (requests : List (Request K V)) : Dictionary K V × List (Answer V) :=
  requests.foldl
    (fun state request =>
      let next := state.1.serve request
      (next.1, state.2 ++ [next.2]))
    (empty K V, [])

@[simp] theorem serveAll_concat (requests : List (Request K V)) (request : Request K V) :
    serveAll (requests ++ [request]) =
      (((serveAll requests).1.serve request).1,
        (serveAll requests).2 ++ [((serveAll requests).1.serve request).2]) := by
  simp [serveAll, List.foldl_append]

end Dictionary

end Asco.Concurrency.HashMap
