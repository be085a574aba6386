import ItemStore.Client
import ItemStore.Criteria
import ItemStore.Cursor
import ItemStore.Entity
import ItemStore.Settings

/-!
# Repositories

A repository gives access to one table through one entity. What is put is validated before it
reaches the store, and what is read is validated before it reaches the caller. A query and a
scan return a listing, which fetches one page at a time and ends at the first failure. The
criteria of a listing are compiled when it is made; if they cannot be, the failure is the only
thing that the listing reports, and no request is sent.
-/

namespace ItemStore

/-- Why a repository could not do what it was asked. -/
inductive RepositoryError (ε : Type) where
  /-- There is no item with the key. -/
  | notFound (table : String) (key : PrimaryKey)
  /-- A draft or a stored item is not valid. -/
  | schema (v : SchemaViolation)
  /-- The criteria could not be compiled. -/
  | condition (e : CompileError)
  /-- The client failed. -/
  | storage (e : ε)
deriving DecidableEq

namespace RepositoryError

variable {ε : Type}

/-- The message, given how failures of the client are shown. -/
def message (display : ε → String) : RepositoryError ε → String
  | notFound table key => "no item in table " ++ table ++ " for key " ++ key.display
  | schema v => v.message
  | condition e => e.message
  | storage e => display e

def isNotFound : RepositoryError ε → Bool
  | notFound .. => true
  | _ => false

/-- The violation, if validation failed. -/
def violation? : RepositoryError ε → Option SchemaViolation
  | schema v => some v
  | _ => none

/-- The client's failure, if the client failed. -/
def storage? : RepositoryError ε → Option ε
  | storage e => some e
  | _ => none

end RepositoryError

/-- What a query may ask for beside its criteria. -/
structure QueryOptions where
  /-- The index to query in place of the table. -/
  index : Option String := none
  /-- Criteria that the store applies to the matched items. -/
  filter : Option Criteria := none
  /-- The number of items in a page; without it the repository's own setting counts. -/
  pageSize : Option Nat := none
  /-- Ascending order of the sort key. -/
  forward : Bool := true
  /-- Strongly consistent reads; without it the repository's own setting counts. -/
  consistentRead : Option Bool := none
deriving DecidableEq

/-- What a scan may ask for. -/
structure ScanOptions where
  index : Option String := none
  filter : Option Criteria := none
  pageSize : Option Nat := none
deriving DecidableEq

/-- A request for one page of many. -/
inductive PageRequest where
  | query (r : Query)
  | scan (r : Scan)
deriving DecidableEq

namespace PageRequest

variable {σ ε : Type}

/-- The request for the page after a key. -/
def startingAfter (start : Option Item) : PageRequest → PageRequest
  | query r => query { r with startKey := start.getD [] }
  | scan r => scan { r with startKey := start.getD [] }

/-- Send the request. -/
def send (c : Client σ ε) : PageRequest → σ → Except ε PageRead × σ
  | query r => c.query r
  | scan r => c.scan r

/-- Fetch the page after a key. -/
def fetch (c : Client σ ε) (r : PageRequest) (start : Option Item) (s : σ) :
    Except (RepositoryError ε) Page × σ :=
  match (r.startingAfter start).send c s with
  | (.ok answer, s) => (.ok ⟨answer.items, answer.lastKey⟩, s)
  | (.error e, s) => (.error (.storage e), s)

end PageRequest

/-- A sequence of validated values that is fetched as it is read. -/
inductive Listing where
  /-- The criteria could not be compiled, which is still to be reported. -/
  | refused (e : CompileError)
  /-- Pages are fetched with the request. -/
  | pages (request : PageRequest) (cursor : Cursor)
  /-- Everything has been reported. -/
  | ended
deriving DecidableEq

/-- Access to a table through an entity. -/
structure Repository (Draft Out : Type) where
  table : String
  entity : Entity Draft Out
  settings : RepositorySettings := {}

namespace Repository

variable {Draft Out σ ε : Type}

/-- The largest page that a request can ask for. -/
def largestLimit : Nat := Nat.pow 2 31 - 1

/-- The page limit of a request. -/
def limit (r : Repository Draft Out) (pageSize : Option Nat) : Option Int :=
  (pageSize.or r.settings.pageSize).map fun n => (min n largestLimit : Nat)

/-- The consistency of a request. -/
def consistentRead (r : Repository Draft Out) (requested : Option Bool) : Option Bool :=
  requested.or (if r.settings.consistentRead then some true else none)

/-- The key of a validated value. -/
def keyOf (r : Repository Draft Out) (v : Out) : PrimaryKey := r.entity.key v

/-- Validate a draft and write it; the validated value is returned. Nothing is written when the
draft is not valid. -/
def put (r : Repository Draft Out) (c : Client σ ε) (fresh : String) (draft : Draft) (s : σ) :
    Except (RepositoryError ε) Out × σ :=
  match r.entity.validate fresh draft with
  | .error v => (.error (.schema v), s)
  | .ok out =>
      match r.entity.toItem out with
      | .error v => (.error (.schema v), s)
      | .ok item =>
          match c.putItem ⟨r.table, item⟩ s with
          | (.ok _, s) => (.ok out, s)
          | (.error e, s) => (.error (.storage e), s)

/-- Read the value with a key. -/
def get (r : Repository Draft Out) (c : Client σ ε) (key : PrimaryKey) (s : σ) :
    Except (RepositoryError ε) Out × σ :=
  match c.getItem ⟨r.table, key, r.consistentRead none⟩ s with
  | (.error e, s) => (.error (.storage e), s)
  | (.ok ⟨none⟩, s) => (.error (.notFound r.table key), s)
  | (.ok ⟨some item⟩, s) => ((r.entity.parse item).mapError .schema, s)

/-- Compile the criteria of a listing, the filter after the key, and join their values. -/
def compile (key filter : Option Criteria) :
    Except CompileError (BoundCondition × Option String) := do
  let key ← Criteria.compileOptional key
  let filter ← Criteria.compileOptional filter
  let merged ← key.mergeValues filter
  .ok (merged, filter.text?)

/-- List the values whose keys satisfy the criteria. -/
def query (r : Repository Draft Out) (key : Criteria) (o : QueryOptions) : Listing :=
  match compile (some key) o.filter with
  | .error e => .refused e
  | .ok (condition, filter) =>
      .pages (.query {
        table := r.table
        index := o.index
        keyCondition := condition.text
        filter := filter
        values := condition.values
        forward := some o.forward
        limit := r.limit o.pageSize
        startKey := []
        consistentRead := r.consistentRead o.consistentRead }) Cursor.start

/-- List all values of the table or of an index. -/
def scan (r : Repository Draft Out) (o : ScanOptions) : Listing :=
  match compile none o.filter with
  | .error e => .refused e
  | .ok (condition, filter) =>
      .pages (.scan {
        table := r.table
        index := o.index
        filter := filter
        values := condition.values
        limit := r.limit o.pageSize
        startKey := []
        consistentRead := r.consistentRead none }) Cursor.start

/-- Validate an item that was read. -/
def parse (r : Repository Draft Out) (item : Item) (s : σ) : Except (RepositoryError ε) Out × σ :=
  ((r.entity.parse item).mapError .schema, s)

end Repository

namespace Listing

variable {Draft Out σ ε : Type}

/-- The next report of a listing. The fuel bounds the steps of its cursor. -/
def next (r : Repository Draft Out) (c : Client σ ε) (fuel : Nat) :
    Listing → σ → Option (Event Out (RepositoryError ε)) × Listing × σ
  | refused e, s => (some (.failure (.condition e)), ended, s)
  | ended, s => (some .finished, ended, s)
  | pages request cursor, s =>
      let (event, cursor, s) := cursor.next (request.fetch c) r.parse fuel s
      (event, pages request cursor, s)

/-- All reports of a listing up to its end. The fuel bounds the steps of its cursor, and
`finishes` tells whether it is enough. -/
def drain (r : Repository Draft Out) (c : Client σ ε) (fuel : Nat) :
    Listing → σ → List (Event Out (RepositoryError ε)) × σ
  | refused e, s => ([.failure (.condition e)], s)
  | ended, s => ([], s)
  | pages request cursor, s =>
      let (events, _, s) := Cursor.drain (request.fetch c) r.parse fuel cursor s
      (events, s)

/-- Whether a listing comes to its end within the fuel, so that `drain` has all its reports. -/
def finishes (r : Repository Draft Out) (c : Client σ ε) (fuel : Nat) : Listing → σ → Bool
  | refused _, _ => true
  | ended, _ => true
  | pages request cursor, s =>
      (Cursor.drain (request.fetch c) r.parse fuel cursor s).2.1.closed

end Listing

/-- A listing over a store finishes within so many steps as long as nothing else changes the store:
a step yields an item, fetches a page or ends, and each page but the last one takes the listing
past at least one item. -/
def Store.enoughSteps (s : Store) : Nat := 2 * (s.itemTotal + 2)

end ItemStore
