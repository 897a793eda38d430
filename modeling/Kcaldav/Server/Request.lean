import Kcaldav.Store.Principal

/-! # Requests and replies

What a handler is given of an HTTP request and what it answers, with the parsing
of paths and entity tags of `util.c`. Header values, paths and form texts are C
strings; only a body comes with its length.
-/
namespace Kcaldav
open CString

inductive Method
  | put | propfind | proppatch | post | get | report | delete | options | other | max
  deriving DecidableEq, Repr

inductive Mime
  | textCalendar | textXml | appXml | appJson | other
  deriving DecidableEq, Repr

inductive Page
  | delcoln | delproxy | index | logout | modproxy | newcoln | setcolnprops | setemail | setpass
  deriving DecidableEq, Repr

structure Body where
  ctype : Mime
  val : Bytes
  deriving DecidableEq, Repr

/-- The form fields that have passed their checks. -/
structure Fields where
  bits : Option Int
  body : Option Body
  colour : Option Bytes
  description : Option Bytes
  email : Option Bytes
  id : Option Int
  name : Option Bytes
  pass : Option Bytes
  path : Option Bytes

/-- Digest authorisation as it was sent, and the check of its hash. -/
structure Digest where
  authorised : Bool
  user : Bytes
  nonce : Bytes
  count : Int
  validatehash : Bytes → Int

structure Kreq where
  method : Method
  mime : Mime
  page : Option Page
  pname : Bytes
  fullpath : Bytes
  -- the absolute address of the script, of `khttp_urlabs`
  urlabs : Bytes
  auth : Option Digest
  fields : Fields
  ifHdr : Option Bytes
  ifMatch : Option Bytes
  ifNoneMatch : Option Bytes
  depth : Option Bytes
  -- `errno` is `ERANGE` when the body is parsed
  erange : Bool

/-- A request without authorisation, form fields and headers. -/
def Kreq.bare (method : Method) (fullpath : Bytes) : Kreq where
  method := method
  mime := .other
  page := none
  pname := []
  fullpath := fullpath
  urlabs := []
  auth := none
  fields := ⟨none, none, none, none, none, none, none, none, none⟩
  ifHdr := none
  ifMatch := none
  ifNoneMatch := none
  depth := none
  erange := false

/-! ## CalDAV bodies -/

inductive CalReqType
  | calmultiget | calquery | propertyupdate | propfind
  deriving DecidableEq, Repr

inductive CalPropType
  | calendarColor | calendarData | calendarDescription | calendarHomeSet | minDateTime | calendarProxyReadFor
  | calendarProxyWriteFor | calendarTimezone | calendarUserAddressSet | currentUserPrincipal
  | currentUserPrivilegeSet | displayname | getcontenttype | getctag | getetag | groupMemberSet | groupMembership
  | owner | principalUrl | quotaAvailableBytes | quotaUsedBytes | resourcetype | scheduleCalendarTransp
  | supportedCalendarComponentSet | supportedCalendarData | max
  deriving DecidableEq, Repr

structure CalProp where
  key : CalPropType
  name : Bytes
  xmlns : Bytes
  val : Option Bytes
  valid : Int
  deriving DecidableEq, Repr

structure Caldav where
  type : CalReqType
  props : List CalProp
  hrefs : List Bytes

/-! ## Replies -/

/-- A piece of a response body: a page, a calendar or an element of a multi-status. -/
inductive Item
  | index (p : Prncpl)
  | calendar (r : Res)
  | coln (c : Coln) (props : List CalProp)
  | res (c : Coln) (r : Res) (props : List CalProp)
  | prncpl (props : List CalProp)
  | proxy (collection : Bytes) (props : List CalProp)
  | href (href : Bytes) (status : Nat)
  | propstat (status : Nat) (props : List CalProp)

/-- No status where the request is dropped without a reply. -/
structure Reply where
  status : Option Nat
  location : Option Bytes
  etag : Option Bytes
  items : List Item

namespace Reply

def silent : Reply := ⟨none, none, none, []⟩

def send (status : Nat) (items : List Item) : Reply := ⟨some status, none, none, items⟩

def redirect (location : Bytes) : Reply := ⟨some 307, some location, none, []⟩

end Reply

def httpError (status : Nat) : Reply := .send status []

/-! ## The state of a request -/

/-- The part of the state that pages are served from. -/
structure Login where
  prncpl : Prncpl
  nonce : Bytes

structure State extends Login where
  rprncpl : Prncpl
  cfg : Option Coln
  proxy : Int
  principal : Bytes
  collection : Bytes
  resource : Bytes

def PROXY_READ : Int := 1
def PROXY_WRITE : Int := 2

/-! ## Paths -/

def parsehex (ch : UInt8) : UInt8 := if isDigit ch then ch - 48 else toLower ch - 97 + 10

/-- Bytes after a `%` that are not a pair of alphanumeric characters are left as they are. -/
def httpDecode : Bytes → Bytes
  | [] => []
  | c :: cs =>
    if c = 43 then SP :: httpDecode cs
    else if c ≠ 37 then c :: httpDecode cs
    else
      match cs with
      | a :: b :: ds =>
        if isAlnum a && isAlnum b then (parsehex a <<< 4 ||| parsehex b) :: httpDecode ds
        else c :: httpDecode (a :: b :: ds)
      | ds => c :: httpDecode ds

def SLASH : UInt8 := 47

/-- Principal, collection and resource of a path. -/
def httpPaths : Bytes → Option (Bytes × Bytes × Bytes)
  | [] => none
  | c :: path =>
    if c ≠ SLASH then none
    else
      match strchr SLASH path with
      | none => some (path, [], [])
      | some (principal, rest) =>
        match strrchr SLASH rest with
        | none => some (principal, [], cstr (httpDecode rest))
        | some (collection, resource) => some (principal, collection, cstr (httpDecode resource))

/-- Non-empty, not a directory of its own, and of characters that need no encoding in a path. -/
def httpSafeString (cp : Bytes) : Bool :=
  cp ≠ [] && cp ≠ ascii "." && cp ≠ ascii ".." && cp.all fun c => isAlnum c || c ∈ ascii ".-_~!$()*+,;=:@"

/-! ## Entity tags -/

def QUOTE : UInt8 := 34

/-- The tag of an `If-Match` or `If-None-Match` value, and whether it was quoted. -/
def httpEtagIfMatch (val : Bytes) : Option (Bytes × Bool) :=
  if val = [] then none
  else if val.length > 1 ∧ val.head? = some QUOTE ∧ val.getLast? = some QUOTE then
    if val.length = 2 then none else some (val.tail.dropLast, true)
  else some (val, false)

/-- The tag a handler goes on with: none also where the value is an unquoted star. -/
def etagDigest (val : Bytes) : Option Bytes :=
  match httpEtagIfMatch val with
  | none => none
  | some (digest, quoted) => if !quoted && digest = ascii "*" then none else some digest

end Kcaldav
