import ItemStore.Store

/-!
# Clients

A client sends requests to a store and returns the answers. It is given as one function for each
kind of request, over the state of whatever stands behind it. A recording client notes each
request that goes through it, and can be told to fail at some of them.
-/

namespace ItemStore

/-- A request of any kind. -/
inductive Request where
  | put (r : PutItem)
  | get (r : GetItem)
  | query (r : Query)
  | scan (r : Scan)
deriving DecidableEq

/-- The functions that answer requests over a state, with failures of type `ε`. -/
structure Client (σ ε : Type) where
  putItem : PutItem → σ → Except ε ItemPut × σ
  getItem : GetItem → σ → Except ε ItemRead × σ
  query : Query → σ → Except ε PageRead × σ
  scan : Scan → σ → Except ε PageRead × σ

/-- The client of a store. -/
def Store.client : Client Store StoreError where
  putItem r s :=
    match s.putItem r with
    | .ok (answer, s) => (.ok answer, s)
    | .error e => (.error e, s)
  getItem r s := (s.getItem r, s)
  query r s := (s.query r, s)
  scan r s := (s.scan r, s)

/-- A state with the requests that have reached it, in order, and with the numbers of those
that are to fail, counted from one. -/
structure Recorded (σ : Type) where
  state : σ
  requests : List Request
  failing : List Nat
deriving DecidableEq

namespace Recorded

variable {σ ε α : Type}

/-- A state that no request has reached. -/
def start (state : σ) (failing : List Nat) : Recorded σ := ⟨state, [], failing⟩

/-- Note a request, and pass it on unless it is to fail. -/
def pass (failure : Nat → ε) (request : Request) (send : σ → Except ε α × σ) (r : Recorded σ) :
    Except ε α × Recorded σ :=
  let r := { r with requests := r.requests ++ [request] }
  let number := r.requests.length
  if r.failing.contains number then (.error (failure number), r)
  else
    let (answer, state) := send r.state
    (answer, { r with state := state })

end Recorded

namespace Client

variable {σ ε : Type}

/-- The client that notes each request and fails at some of them. -/
def recording (c : Client σ ε) (failure : Nat → ε) : Client (Recorded σ) ε where
  putItem r := Recorded.pass failure (.put r) (c.putItem r)
  getItem r := Recorded.pass failure (.get r) (c.getItem r)
  query r := Recorded.pass failure (.query r) (c.query r)
  scan r := Recorded.pass failure (.scan r) (c.scan r)

end Client

end ItemStore
