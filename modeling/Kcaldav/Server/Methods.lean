import Kcaldav.Server.Request

/-! # Methods on resources and collections

The handlers of `OPTIONS`, `PUT`, `GET`, `DELETE` and `PROPPATCH`. The parser of
CalDAV bodies is a parameter, and so is the entity tag that a `PUT` generates.
-/
namespace Kcaldav
open CString

def methodOptions : DbProg Reply := return httpError 200

section Put
variable (C : Libc)

/-- The body of a `PUT`, or the reply where it is not a calendar. -/
def req2ical (r : Kreq) : Except Reply Body :=
  match r.fields.body with
  | none => .error (httpError 400)
  | some body =>
    if body.ctype ≠ .textCalendar then .error (httpError 415)
    else
      match (icalParse C none r.erange body.val 0).1 with
      | none => .error .silent
      | some _ => .ok body

/-- The tag in an `If` header, which is in parentheses and square brackets. -/
def ifDigest (val : Bytes) : Option Bytes :=
  if val.length < 5 then none
  else if val.take 2 ≠ ascii "([" ∨ val.drop (val.length - 2) ≠ ascii "])" then none
  else some ((val.take (val.length - 2)).drop 2)

/-- The tag a `PUT` is conditional upon, where the condition is well-formed. -/
def putDigest (r : Kreq) : Option (Option Bytes) :=
  match r.ifHdr, r.ifMatch with
  | some val, _ => (ifDigest val).map some
  | none, some val => some (etagDigest val)
  | none, none => some none

def putStore (data url : Bytes) (digest : Option Bytes) (colid : Int) (etag : Bytes) : DbProg Int :=
  match digest with
  | none => dbResourceNew data url colid etag
  | some digest => dbResourceUpdate C data url digest colid etag

def putStatus (rc : Int) : Nat := if rc < 0 then 505 else if rc = 0 then 403 else 201

def methodPut (r : Kreq) (st : State) (etag : Bytes) : DbProg Reply :=
  match st.cfg with
  | none => return httpError 403
  | some cfg =>
    match req2ical C r with
    | .error reply => return reply
    | .ok body =>
      match putDigest r with
      | none => return httpError 400
      | some digest => do
        let rc ← putStore C body.val st.resource digest cfg.id etag
        return httpError (putStatus rc)

end Put

/-- The tag a `GET` or `DELETE` is conditional upon. -/
def headerDigest (hdr : Option Bytes) : Option Bytes :=
  match hdr with
  | none => none
  | some val => etagDigest val

def deleteStatus (rc : Bool) : Nat := if rc then 204 else 505

def methodDelete (r : Kreq) (st : State) : DbProg Reply :=
  match st.cfg with
  | none => return httpError 403
  | some cfg =>
    if st.resource ≠ [] then
      match headerDigest r.ifMatch with
      | some digest => do
        let rc ← dbResourceDelete st.resource digest cfg.id
        return httpError (deleteStatus rc)
      | none => do
        let rc ← dbResourceRemove st.resource cfg.id
        return httpError (deleteStatus rc)
    else do
      let rc ← dbCollectionRemove cfg.id
      return httpError (deleteStatus rc)

/-- Load a resource for a handler. -/
def loadResource (C : Libc) (url : Bytes) (colid : Int) : DbProg (Loaded Res) :=
  routine .error (dbResourceLoad C url colid)

def methodGet (C : Libc) (r : Kreq) (st : State) : DbProg Reply :=
  if st.resource = [] then return httpError 404
  else
    match st.cfg with
    | none => return httpError 403
    | some cfg => do
      match ← loadResource C st.resource cfg.id with
      | .error => return httpError 505
      | .absent => return httpError 404
      | .found p =>
        if headerDigest r.ifNoneMatch = some p.etag then return { httpError 304 with etag := some p.etag }
        else return { Reply.send 200 [.calendar p] with etag := some p.etag }

/-! ## Property updates -/

variable (caldavParse : Bytes → Option Caldav)

/-- The CalDAV body of a request, or the reply where it has none. -/
def req2caldav (r : Kreq) : Except Reply Caldav :=
  match r.fields.body with
  | none => .error (httpError 400)
  | some body =>
    if body.ctype ≠ .textXml ∧ body.ctype ≠ .appXml then .error (httpError 415)
    else
      match caldavParse body.val with
      | none => .error .silent
      | some dav => .ok dav

/-- The properties that can be set. -/
def accepted : CalPropType → Bool
  | .calendarColor | .calendarDescription | .displayname => true
  | _ => false

/-- Set one property, where it can be set and its value is valid. -/
def proppatchSet (cfg : Coln) (prop : CalProp) : Coln :=
  if prop.valid < 0 then cfg
  else
    match prop.key with
    | .displayname => { cfg with displayname := prop.val }
    | .calendarColor => { cfg with colour := prop.val }
    | .calendarDescription => { cfg with description := prop.val }
    | _ => cfg

theorem proppatchSet_id (cfg : Coln) (prop : CalProp) : (proppatchSet cfg prop).id = cfg.id := by
  unfold proppatchSet
  split
  · rfl
  · split <;> rfl

theorem foldl_proppatchSet_id (props : List CalProp) (cfg : Coln) : (props.foldl proppatchSet cfg).id = cfg.id := by
  induction props generalizing cfg with
  | nil => rfl
  | cons prop props ih => exact (ih _).trans (proppatchSet_id cfg prop)

/-- The replies of a property update: done, not understood, not valid. -/
def proppatchItems (props : List CalProp) : List Item :=
  let unknown := props.filter fun p => !accepted p.key
  let invalid := props.filter fun p => p.valid < 0
  [.propstat 200 []] ++ (if unknown = [] then [] else [.propstat 404 unknown]) ++
    (if invalid = [] then [] else [.propstat 409 invalid])

def methodProppatch (r : Kreq) (st : State) : DbProg Reply :=
  match st.cfg with
  | none => return httpError 403
  | some cfg =>
    match req2caldav caldavParse r with
    | .error reply => return reply
    | .ok dav =>
      if dav.type ≠ .propertyupdate then return httpError 415
      else if dav.props.any fun p => accepted p.key && decide (0 ≤ p.valid) then do
        -- the reply does not depend on whether the update fails
        let _ ← dbCollectionUpdate (dav.props.foldl proppatchSet cfg)
        return .send 207 (proppatchItems dav.props)
      else return .send 207 (proppatchItems dav.props)

end Kcaldav
