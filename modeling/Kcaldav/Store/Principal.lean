import Kcaldav.Store.Collection

/-! # Principals and proxies

The principal and proxy routines of `db.c`. A principal is loaded with its
collections, with the principals it may act for and with those that may act for it.
-/
namespace Kcaldav
open CString

structure ProxyEntry where
  email : Bytes
  name : Bytes
  bits : Int
  proxy : Int
  id : Int
  deriving DecidableEq, Repr

structure Prncpl where
  name : Bytes
  hash : Bytes
  email : Bytes
  id : Int
  cols : List Coln
  proxies : List ProxyEntry
  rproxies : List ProxyEntry
  deriving DecidableEq, Repr

/-- The value of `sqlite3_column_int`: the low 32 bits. -/
def int32 (x : Int) : Int := x.bmod (2 ^ 32)

/-- Run a query for all its rows. -/
def dbIter {α : Type} (query : Db → List α) : DbProg (Option (List α)) := routine none do
  dbPrepare
  dbBind 1
  let rows ← Fallible.gets fun s => query s.db
  return some (← dbRows rows)

def reverseEntry (x : PrncplRow × ProxyRow) : ProxyEntry := ⟨x.1.email, x.1.name, x.2.bits, x.2.principal, x.2.id⟩
def forwardEntry (x : PrncplRow × ProxyRow) : ProxyEntry := ⟨x.1.email, x.1.name, x.2.bits, x.2.proxy, x.2.id⟩

/-- The row of a principal, once `statvfs` has answered too. -/
def dbPrncplGet (name : Bytes) : DbProg (Loaded PrncplRow) := routine .error do
  dbPrepare
  dbBind 1
  match ← dbQuery (Sql.prncplGet name) with
  | none => return .absent
  | some p =>
    sqlStep
    return .found p

def dbPrncplLoad (name : Bytes) : DbProg (Loaded Prncpl) := do
  match ← dbPrncplGet name with
  | .error => return .error
  | .absent => return .absent
  | .found p =>
    let pid := int32 p.id
    match ← dbIter (Sql.colIter pid) with
    | none => return .error
    | some cols =>
      match ← dbIter (Sql.proxyIter pid) with
      | none => return .error
      | some rproxies =>
        match ← dbIter (Sql.proxyIterPrncpl pid) with
        | none => return .error
        | some proxies =>
          return .found {
            name := name
            hash := p.hash
            email := p.email
            id := pid
            cols := cols.map ColRow.coln
            proxies := proxies.map forwardEntry
            rproxies := rproxies.map reverseEntry }

def dbPrncplNew (name hash email directory : Bytes) : DbProg Int := routine (-1) <| inTransaction (-1) do
  dbPrepare
  dbBind 3
  if ← dbStepConstrained (Sql.prncplInsert name hash email) then
    let lastid ← Fallible.gets fun s => s.db.principalSeq
    if (← dbCollectionNewById directory lastid) > 0 then
      let _ ← dbTransCommit
      return 1
    else Fallible.fail
  else
    dbTransRollback
    return 0

def dbPrncplUpdate (hash email : Bytes) (id : Int) : DbProg Int := routine (-1) do
  dbPrepare
  dbBind 3
  if ← dbStepConstrained (Sql.prncplUpdate hash email id) then return 1 else return 0

def dbPrncplIdentify (email : Bytes) : DbProg Int := routine (-1) do
  dbPrepare
  dbBind 1
  match ← dbQuery (Sql.prncplGetId email) with
  | none => return 0
  | some id => return id

def dbProxyRemove (p id : Int) : DbProg Bool := routine false do
  dbPrepare
  dbBind 2
  dbStep fun db => some (Sql.proxyRemove p id db)
  return true

def SQLITE_ERROR : Int := 1
def SQLITE_CONSTRAINT : Int := 19

/-- The `err` label of `db_proxy`: roll back and return `rc` as it stands, which a
failed step has set to its error code. -/
def dbProxyErr (rc : Int) : Sql Int := do
  dbTransRollback
  return rc

def dbProxyCommit : Sql Int := do
  if ← dbTransCommit then return 1 else return -1

def dbProxy (p id bits : Int) : DbProg Int := routine (-1) do
  if ← dbTransOpen then
    let bound ← Fallible.orElse (do
      dbPrepare
      dbBind 3
      return true) (pure false)
    if !bound then dbProxyErr (-1)
    else
      let rc ← Fallible.orElse (do
        let done ← dbStepConstrained (Sql.proxyInsert p id bits)
        return if done then 0 else SQLITE_CONSTRAINT) (pure SQLITE_ERROR)
      if rc = 0 then dbProxyCommit
      else if rc ≠ SQLITE_CONSTRAINT then dbProxyErr rc
      else
        let rebound ← Fallible.orElse (do
          dbPrepare
          dbBind 3
          return true) (pure false)
        if !rebound then dbProxyErr SQLITE_CONSTRAINT
        else
          let updated ← Fallible.orElse (do
            dbStep fun db => some (Sql.proxyUpdate bits p id db)
            return true) (pure false)
          if updated then dbProxyCommit else dbProxyErr SQLITE_ERROR
  else return -1

end Kcaldav
