import Kcaldav.Ical.Parse
import Kcaldav.Store.Session

/-! # Collections and resources

The collection and resource routines of `db.c`. A text that may be `NULL` when it
is bound is an `Option`; resource data is a buffer, of which the C string is
stored. The entity tag a routine generates is its last parameter.
-/
namespace Kcaldav
open CString

/-- The result of a load: less than zero, zero, or the thing loaded. -/
inductive Loaded (α : Type)
  | error
  | absent
  | found (a : α)

structure Coln where
  url : Bytes
  displayname : Option Bytes
  colour : Option Bytes
  description : Option Bytes
  ctag : Int
  id : Int
  deriving DecidableEq, Repr

def ColRow.coln (c : ColRow) : Coln where
  url := c.url
  displayname := some c.displayname
  colour := some c.colour
  description := some c.description
  ctag := c.ctag
  id := c.id

structure Res where
  data : Bytes
  ical : Ical
  etag : Bytes
  url : Bytes
  collection : Int
  id : Int

def ResRow.res (r : ResRow) (ical : Ical) : Res where
  data := r.data
  ical := ical
  etag := r.etag
  url := r.url
  collection := r.collection
  id := r.id

/-! ## Collections -/

def dbCollectionUpdateCtag (id : Int) : Sql Bool :=
  Fallible.orElse (do
    dbPrepare
    dbBind 1
    dbStep fun db => some (Sql.colUpdateCtag id db)
    return true) (pure false)

def dbCollectionNewById (url : Bytes) (id : Int) : Sql Int :=
  Fallible.orElse (do
    dbPrepare
    dbBind 2
    if ← dbStepConstrained (Sql.colInsert id url) then return 1 else return 0) (pure (-1))

def dbCollectionNew (url : Bytes) (prncpl : Int) : DbProg Int := routine (-1) (dbCollectionNewById url prncpl)

def dbCollectionGet (query : Db → Option ColRow) : DbProg (Loaded Coln) := routine .error do
  dbPrepare
  dbBind 2
  match ← dbQuery query with
  | none => return .absent
  | some c => return .found c.coln

def dbCollectionLoadid (id pid : Int) : DbProg (Loaded Coln) := dbCollectionGet (Sql.colGetId pid id)

def dbCollectionUpdate (c : Coln) : DbProg Bool := do
  let updated ← routine false do
    dbPrepare
    dbBind 4
    dbStep (Sql.colUpdate c.displayname c.colour c.description c.id)
    return true
  if updated then routine false (dbCollectionUpdateCtag c.id) else return false

def dbCollectionRemove (id : Int) : DbProg Bool := routine false do
  dbPrepare
  dbBind 1
  dbStep fun db => some (Sql.colRemove id db)
  return true

/-! ## Resources -/

variable (C : Libc)

/-- The rows handed to the callback, and whether the listing came to its end. -/
def dbResourcesLoop : Bool → List ResRow → Sql (List Res × Bool)
  | _, [] => Fallible.orElse (do
      sqlStep
      return ([], true)) (pure ([], false))
  | erange, r :: rs => Fallible.orElse (do
      sqlStep
      let parsed := icalParse C none erange r.data 0
      match parsed.1 with
      | none => Fallible.fail
      | some (ical, _) =>
        let rest ← dbResourcesLoop parsed.2.erange rs
        return (r.res ical :: rest.1, rest.2)) (pure ([], false))

def dbCollectionResources (colid : Int) : DbProg (List Res × Bool) := routine ([], false) do
  dbPrepare
  dbBind 1
  let s ← Fallible.gets id
  dbResourcesLoop C s.choice.erange (Sql.resIter colid s.db)

def dbResourceLoad (url : Bytes) (colid : Int) : Sql (Loaded Res) :=
  Fallible.orElse (do
    dbPrepare
    dbBind 2
    match ← dbQuery (Sql.resGet colid url) with
    | none => return .absent
    | some r =>
      let erange ← Fallible.gets fun s => s.choice.erange
      match (icalParse C none erange r.data 0).1 with
      | none => Fallible.fail
      | some (ical, _) => return .found (r.res ical)) (pure .error)

def dbResourceDelete (url tag : Bytes) (colid : Int) : DbProg Bool := routine false <| inTransaction false do
  dbPrepare
  dbBind 3
  match ← dbQuery (Sql.resGetEtag url colid tag) with
  | none =>
    dbTransRollback
    return true
  | some _ =>
    dbPrepare
    dbBind 3
    dbStep fun db => some (Sql.resRemoveEtag url colid tag db)
    if ← dbCollectionUpdateCtag colid then
      let _ ← dbTransCommit
      return true
    else Fallible.fail

def dbResourceRemove (url : Bytes) (colid : Int) : DbProg Bool := do
  let removed ← routine false do
    dbPrepare
    dbBind 2
    dbStep fun db => some (Sql.resRemove url colid db)
    return true
  if removed then routine false (dbCollectionUpdateCtag colid) else return false

def dbResourceNew (data url : Bytes) (colid : Int) (etag : Bytes) : DbProg Int := do
  let rc ← routine (-1 : Int) do
    dbPrepare
    dbBind 4
    if ← dbStepConstrained (Sql.resInsert (cstr data) url colid etag) then return 1 else return 0
  if rc > 0 then
    if ← routine false (dbCollectionUpdateCtag colid) then return 1 else return -1
  else return rc

def dbResourceUpdate (data url digest : Bytes) (colid : Int) (etag : Bytes) : DbProg Int :=
  routine (-1) <| inTransaction (-1) do
    match ← dbResourceLoad C url colid with
    | .error => Fallible.fail
    | .absent =>
      dbTransRollback
      return 0
    | .found res =>
      if res.etag ≠ digest then
        dbTransRollback
        return 0
      else
        dbPrepare
        dbBind 3
        dbStep fun db => some (Sql.resUpdate (cstr data) etag res.id db)
        if ← dbCollectionUpdateCtag colid then
          let _ ← dbTransCommit
          return 1
        else Fallible.fail

end Kcaldav
