import Kcaldav.Store.Session

/-! # Nonces

The nonce routines of `db.c` and the two-step check of `kcaldav.c` over them. The
random numbers of a call are given as the list of nonces it draws; a call that
uses them all up ends in its error path.
-/
namespace Kcaldav
open CString

def NONCEMAX : Nat := 1000

/-- The value of a 64-bit sum. -/
def int64 (x : Int) : Int := x.bmod (2 ^ 64)

inductive NonceErr
  | err | notfound | replay | ok
  deriving DecidableEq, Repr

def dbNonceDelete (nonce : Bytes) : DbProg Bool := routine false do
  dbPrepare
  dbBind 1
  dbStep fun db => some (Sql.nonceRemove nonce db)
  return true

def dbNonceValidate (nonce : Bytes) (count : Int) : Sql NonceErr :=
  Fallible.orElse (do
    dbPrepare
    dbBind 1
    match ← dbQuery (Sql.nonceGetCount nonce) with
    | some cmp => return if count < cmp then .replay else .ok
    | none => return .notfound) (pure .err)

def dbNonceUpdate (nonce : Bytes) (count : Int) : DbProg NonceErr := routine .err <| inTransaction .err do
  let er ← dbNonceValidate nonce count
  if er = .ok then
    dbPrepare
    dbBind 2
    dbStep fun db => some (Sql.nonceUpdate (int64 (count + 1)) nonce db)
    -- the result of the COMMIT is not looked at
    let _ ← dbTransCommit
    return .ok
  else
    dbTransRollback
    return er

/-- The insertion loop of `db_nonce_new`: draw until the nonce is a new one. -/
def dbNonceDraw : List Bytes → Sql Bytes
  | [] => Fallible.fail
  | nonce :: draws => do
    dbBind 1
    if ← dbStepConstrained (Sql.nonceInsert nonce) then return nonce else dbNonceDraw draws

/-- Make room in a full table. -/
def dbNonceCull : Sql Unit := do
  dbPrepare
  let rank ← Fallible.gets fun s => s.choice.rank
  dbStep fun db => some (Sql.nonceRemoveMulti rank db)

def dbNonceNew (draws : List Bytes) : DbProg (Option Bytes) := routine none <| inTransaction none do
  dbPrepare
  let count ← dbQuery fun db => db.nonce.length
  if count ≥ NONCEMAX then dbNonceCull else pure ()
  dbPrepare
  let nonce ← dbNonceDraw draws
  let _ ← dbTransCommit
  return some nonce

/-- What `nonce_validate` does about an unknown nonce. -/
def nonceRetry (draws : List Bytes) : DbProg Int := do
  match ← dbNonceNew draws with
  | none => return -2
  | some _ => return 0

def nonceValidate (nonce : Bytes) (count : Int) (draws : List Bytes) : DbProg Int := do
  match ← routine .err (dbNonceValidate nonce count) with
  | .err => return -2
  | .replay => return -1
  | .notfound => nonceRetry draws
  | .ok =>
    match ← dbNonceUpdate nonce count with
    | .err => return -2
    | .replay => return -1
    | .notfound => nonceRetry draws
    | .ok => return 1

end Kcaldav
