import Kcaldav.Server.Request

/-! # The administrator's tool

The way of `kcaldav.passwd` through its database: the checks of names, the principal
that is created or updated, and the resources that are added from files. What the
operator enters and what the files hold is given; every exit but the last has status 1.
-/
namespace Kcaldav
open CString

/-- Non-empty and free of what cannot stand in a path segment. -/
def checkSafeString (cp : Bytes) : Bool :=
  cp ≠ [] && cp ≠ ascii "." && cp ≠ ascii ".." && cp.all fun c => isAlnum c || c ∈ ascii ".-_~!$()*+,;=:@"

/-- A file named on the command line. It may be unreadable; `errno` and the tag are
those of the time at which it is added. -/
structure ImportFile where
  path : Bytes
  content : Option Bytes
  erange : Bool
  etag : Bytes

/-- The command line, and the hashes of the passwords that were entered. -/
structure Passwd where
  adduser : Bool
  -- the principal was named with `-u`
  altuser : Bool
  user : Bytes
  coln : Option Bytes
  email : Option Bytes
  -- the address made of the user and the host
  hostEmail : Bytes
  passwd : Bool
  dold : Bytes
  dnew : Bytes
  drep : Bytes
  -- the owner of the database, where it is checked, is the user
  owned : Bool
  argv : List ImportFile

/-- The file-name component of a path. -/
def ImportFile.uid (f : ImportFile) : Bytes :=
  match strrchr SLASH f.path with
  | none => f.path
  | some (_, uid) => uid

namespace Passwd
variable (a : Passwd)

/-- A new principal always gets a password. -/
def setsPasswd : Bool := a.adduser || a.passwd

def safe : Bool := a.coln.all checkSafeString && a.argv.all (fun f => checkSafeString f.uid) && checkSafeString a.user

def collection : Bytes := a.coln.getD (ascii "calendar")

end Passwd

variable (C : Libc)

/-- The text of a file that parses as a calendar; it may hold NULs. -/
def readWholeFile (f : ImportFile) : Option Bytes :=
  match f.content with
  | none => none
  | some p => (icalParse C (some (textOf f.path)) f.erange p 0).1.map fun _ => p

def importFiles (colid : Int) : List ImportFile → DbProg Int
  | [] => return 0
  | f :: fs =>
    match readWholeFile C f with
    | none => return 1
    | some res => do
      let rc ← dbResourceNew res f.uid colid f.etag
      if rc ≤ 0 then return 1 else importFiles colid fs

/-- Add the resources to the collection of the principal, who is loaded for it. -/
def importResources (a : Passwd) : DbProg Int := do
  match ← dbPrncplLoad a.user with
  | .error => return 1
  | .absent => return 1
  | .found p =>
    match p.cols.find? fun c => c.url = a.collection with
    | none => return 1
    | some col => importFiles C col.id a.argv

def addPrncpl (a : Passwd) : DbProg Int := do
  let c ← dbPrncplNew a.user a.dnew (a.email.getD a.hostEmail) a.collection
  return if c ≤ 0 then 1 else 0

/-- Set what was given of the principal. -/
def updatePrncpl (a : Passwd) (p : Prncpl) : DbProg Int :=
  if !a.altuser ∧ p.hash ≠ a.dold then return 1
  else do
    let c ← dbPrncplUpdate (if a.setsPasswd then a.dnew else p.hash) (a.email.getD p.email) p.id
    return if c ≤ 0 then 1 else 0

def changePrncpl (a : Passwd) : DbProg Int := do
  match ← dbPrncplLoad a.user with
  | .error => return 1
  | .absent => return 1
  | .found p =>
    match a.coln with
    | none => updatePrncpl a p
    | some coln => do
      -- one that exists already is not reported
      let c ← dbCollectionNew coln p.id
      if c < 0 then return 1 else updatePrncpl a p

def setPrncpl (a : Passwd) : DbProg Int := if a.adduser then addPrncpl a else changePrncpl a

/-- `main` of `kcaldav.passwd`: the exit status. -/
def passwdMain (a : Passwd) : DbProg Int :=
  if !a.safe then return 1
  else if a.setsPasswd ∧ a.dnew ≠ a.drep then return 1
  else if (a.adduser ∨ a.altuser) ∧ !a.owned then return 1
  else do
    let status ← setPrncpl a
    if status ≠ 0 then return 1
    else if a.argv = [] then return 0
    else importResources C a

end Kcaldav
