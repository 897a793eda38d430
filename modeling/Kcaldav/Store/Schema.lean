import Mathlib.Data.List.Nodup
import Kcaldav.Library.CString

/-! # The database

The tables of `kcaldav.sql` and the statements `db.c` runs on them, each a function
of the rows. A statement that violates a constraint has no result. Row identifiers
and counters are 64-bit integers in the source; here they are integers, since the
sequences that hand them out only count up from one.
-/
namespace Kcaldav
open CString

structure ResRow where
  collection : Int
  url : Bytes
  etag : Bytes
  data : Bytes
  id : Int
  deriving DecidableEq, Repr

structure ColRow where
  principal : Int
  url : Bytes
  displayname : Bytes
  colour : Bytes
  description : Bytes
  ctag : Int
  id : Int
  deriving DecidableEq, Repr

structure ProxyRow where
  principal : Int
  proxy : Int
  bits : Int
  id : Int
  deriving DecidableEq, Repr

structure NonceRow where
  nonce : Bytes
  count : Int
  id : Int
  deriving DecidableEq, Repr

structure PrncplRow where
  name : Bytes
  hash : Bytes
  email : Bytes
  id : Int
  deriving DecidableEq, Repr

/-- The tables, and the highest identifier each has ever given out. -/
structure Db where
  resource : List ResRow
  collection : List ColRow
  proxy : List ProxyRow
  nonce : List NonceRow
  principal : List PrncplRow
  resourceSeq : Int
  collectionSeq : Int
  proxySeq : Int
  nonceSeq : Int
  principalSeq : Int
  deriving DecidableEq, Repr

def Db.empty : Db := ⟨[], [], [], [], [], 0, 0, 0, 0, 0⟩

namespace Sql

/-! ## Collections -/

def colGet (principal : Int) (url : Bytes) (db : Db) : Option ColRow :=
  db.collection.find? fun c => c.principal = principal ∧ c.url = url

def colGetId (principal id : Int) (db : Db) : Option ColRow :=
  db.collection.find? fun c => c.principal = principal ∧ c.id = id

def colIter (principal : Int) (db : Db) : List ColRow :=
  db.collection.filter fun c => c.principal = principal

/-- A new collection has the defaults of the schema. -/
def newCol (principal : Int) (url : Bytes) (id : Int) : ColRow where
  principal := principal
  url := url
  displayname := ascii "Calendar"
  colour := ascii "#B90E28FF"
  description := []
  ctag := 1
  id := id

def colInsert (principal : Int) (url : Bytes) (db : Db) : Option Db :=
  if (colGet principal url db).isSome ∨ ∀ p ∈ db.principal, p.id ≠ principal then none
  else some { db with
    collection := db.collection ++ [newCol principal url (db.collectionSeq + 1)]
    collectionSeq := db.collectionSeq + 1 }

/-- The resources of the collection go with it. -/
def colRemove (id : Int) (db : Db) : Db :=
  { db with
    collection := db.collection.filter fun c => c.id ≠ id
    resource := db.resource.filter fun r => r.collection ≠ id }

/-- A `NULL` text violates the table's `NOT NULL`, if there is a row to set it in. -/
def colUpdate (displayname colour description : Option Bytes) (id : Int) (db : Db) : Option Db :=
  match displayname, colour, description with
  | some displayname, some colour, some description =>
    some { db with
      collection := db.collection.map fun c =>
        if c.id = id then { c with displayname := displayname, colour := colour, description := description } else c }
  | _, _, _ => if ∃ c ∈ db.collection, c.id = id then none else some db

def colUpdateCtag (id : Int) (db : Db) : Db :=
  { db with collection := db.collection.map fun c => if c.id = id then { c with ctag := c.ctag + 1 } else c }

/-! ## Nonces -/

def nonceGetCount (nonce : Bytes) (db : Db) : Option Int :=
  (db.nonce.find? fun n => n.nonce = nonce).map NonceRow.count

def nonceInsert (nonce : Bytes) (db : Db) : Option Db :=
  if ∃ n ∈ db.nonce, n.nonce = nonce then none
  else some { db with nonce := db.nonce ++ [⟨nonce, 0, db.nonceSeq + 1⟩], nonceSeq := db.nonceSeq + 1 }

def nonceRemove (nonce : Bytes) (db : Db) : Db :=
  { db with nonce := db.nonce.filter fun n => n.nonce ≠ nonce }

/-- The rows a `LIMIT` takes where rows come in the order of the ranks. -/
def limit (rank : Int → Nat) (k : Nat) (rows : List NonceRow) : List NonceRow :=
  (rows.mergeSort fun a b => rank a.id ≤ rank b.id).take k

def nonceRemoveMulti (rank : Int → Nat) (db : Db) : Db :=
  { db with nonce := db.nonce.filter fun n => n.id ∉ (limit rank 20 db.nonce).map NonceRow.id }

def nonceUpdate (count : Int) (nonce : Bytes) (db : Db) : Db :=
  { db with nonce := db.nonce.map fun n => if n.nonce = nonce then { n with count := count } else n }

/-! ## Principals and proxies -/

def prncplGet (name : Bytes) (db : Db) : Option PrncplRow := db.principal.find? fun p => p.name = name

def prncplGetId (email : Bytes) (db : Db) : Option Int :=
  (db.principal.find? fun p => p.email = email).map PrncplRow.id

def prncplInsert (name hash email : Bytes) (db : Db) : Option Db :=
  if ∃ p ∈ db.principal, p.name = name ∨ p.email = email then none
  else some { db with
    principal := db.principal ++ [⟨name, hash, email, db.principalSeq + 1⟩]
    principalSeq := db.principalSeq + 1 }

def prncplUpdate (hash email : Bytes) (id : Int) (db : Db) : Option Db :=
  if (∃ p ∈ db.principal, p.id = id) ∧ ∃ p ∈ db.principal, p.id ≠ id ∧ p.email = email then none
  else some { db with
    principal := db.principal.map fun p => if p.id = id then { p with hash := hash, email := email } else p }

def proxyInsert (principal proxy bits : Int) (db : Db) : Option Db :=
  if (∃ x ∈ db.proxy, x.principal = principal ∧ x.proxy = proxy) ∨ (∀ p ∈ db.principal, p.id ≠ principal) ∨
      ∀ p ∈ db.principal, p.id ≠ proxy then none
  else some { db with
    proxy := db.proxy ++ [⟨principal, proxy, bits, db.proxySeq + 1⟩]
    proxySeq := db.proxySeq + 1 }

/-- The principals who let `proxy` act for them, with the permission. -/
def proxyIter (proxy : Int) (db : Db) : List (PrncplRow × ProxyRow) :=
  (db.proxy.filter fun x => x.proxy = proxy).filterMap fun x =>
    (db.principal.find? fun p => p.id = x.principal).map fun p => (p, x)

/-- Those who may act for the principal. The statement asks for no order: here it is that of
insertion, where SQLite walks the unique index by the number of the proxy. -/
def proxyIterPrncpl (principal : Int) (db : Db) : List (PrncplRow × ProxyRow) :=
  (db.proxy.filter fun x => x.principal = principal).filterMap fun x =>
    (db.principal.find? fun p => p.id = x.proxy).map fun p => (p, x)

def proxyRemove (principal proxy : Int) (db : Db) : Db :=
  { db with proxy := db.proxy.filter fun x => ¬(x.principal = principal ∧ x.proxy = proxy) }

def proxyUpdate (bits principal proxy : Int) (db : Db) : Db :=
  { db with
    proxy := db.proxy.map fun x => if x.principal = principal ∧ x.proxy = proxy then { x with bits := bits } else x }

/-! ## Resources -/

def resGet (collection : Int) (url : Bytes) (db : Db) : Option ResRow :=
  db.resource.find? fun r => r.collection = collection ∧ r.url = url

def resGetEtag (url : Bytes) (collection : Int) (etag : Bytes) (db : Db) : Option ResRow :=
  db.resource.find? fun r => r.url = url ∧ r.collection = collection ∧ r.etag = etag

def resIter (collection : Int) (db : Db) : List ResRow := db.resource.filter fun r => r.collection = collection

def resInsert (data url : Bytes) (collection : Int) (etag : Bytes) (db : Db) : Option Db :=
  if (resGet collection url db).isSome ∨ ∀ c ∈ db.collection, c.id ≠ collection then none
  else some { db with
    resource := db.resource ++ [⟨collection, url, etag, data, db.resourceSeq + 1⟩]
    resourceSeq := db.resourceSeq + 1 }

def resRemove (url : Bytes) (collection : Int) (db : Db) : Db :=
  { db with resource := db.resource.filter fun r => ¬(r.url = url ∧ r.collection = collection) }

def resRemoveEtag (url : Bytes) (collection : Int) (etag : Bytes) (db : Db) : Db :=
  { db with resource := db.resource.filter fun r => ¬(r.url = url ∧ r.collection = collection ∧ r.etag = etag) }

def resUpdate (data etag : Bytes) (id : Int) (db : Db) : Db :=
  { db with resource := db.resource.map fun r => if r.id = id then { r with data := data, etag := etag } else r }

end Sql

/-- A principal with one empty calendar. -/
def Db.oneCalendar : Db where
  resource := []
  collection := [Sql.newCol 1 (ascii "calendar") 1]
  proxy := []
  nonce := []
  principal := [⟨ascii "joe", ascii "hash", ascii "joe@example.com", 1⟩]
  resourceSeq := 0
  collectionSeq := 1
  proxySeq := 0
  nonceSeq := 0
  principalSeq := 1

/-- The same with a resource in the calendar. -/
def Db.oneEvent : Db :=
  { Db.oneCalendar with
    resource := [⟨1, ascii "a.ics", ascii "1-1", ascii "BEGIN:VCALENDAR\nEND:VCALENDAR\n", 1⟩]
    resourceSeq := 1 }

end Kcaldav
