import Kcaldav.Server.Methods

/-! # Queries

The handlers of `PROPFIND` and `REPORT`. A reply lists the elements of its
multi-status; how an element and its properties are written out is left to the
reader of the reply.
-/
namespace Kcaldav
open CString

variable (C : Libc) (caldavParse : Bytes → Option Caldav)

/-- Look up the resource of an `href` among those of the requested principal. -/
def propfindResourceLookup (r : Kreq) (st : State) (href : Bytes) : DbProg (Loaded Res) :=
  if ¬r.pname <+: href then return .absent
  else
    match httpPaths (href.drop r.pname.length) with
    | none => return .absent
    | some (principal, collection, resource) =>
      if st.rprncpl.name ≠ principal then return .absent
      else
        match st.rprncpl.cols.find? fun c => c.url = collection with
        | none => return .absent
        | some c => loadResource C resource c.id

/-- The element for one `href`. -/
def propfindListItem (st : State) (dav : Caldav) (href : Bytes) : Loaded Res → List Item
  | .error => [.href href 505]
  | .absent => [.href href 403]
  | .found res =>
    match st.rprncpl.cols.find? fun c => res.collection = c.id with
    -- an assertion of the source: the lookup has found the collection
    | none => []
    | some c => [.res c res dav.props]

def propfindListLoop (r : Kreq) (st : State) (dav : Caldav) : List Bytes → DbProg (List Item)
  | [] => return []
  | href :: hrefs => do
    let res ← propfindResourceLookup C r st href
    let items ← propfindListLoop r st dav hrefs
    return propfindListItem st dav href res ++ items

def propfindList (r : Kreq) (st : State) (dav : Caldav) : DbProg (List Item) :=
  propfindListLoop C r st dav dav.hrefs

/-- The two collections in which the proxies of a principal are listed. -/
def proxyRead : Bytes := ascii "calendar-proxy-read"
def proxyWrite : Bytes := ascii "calendar-proxy-write"

def propfindDirectory (r : Kreq) (st : State) (dav : Caldav) : Option Coln → DbProg (List Item)
  | some c =>
    if r.depth = some (ascii "0") then return [.coln c dav.props]
    else do
      -- the result of the listing is not looked at
      let resources ← dbCollectionResources C c.id
      return .coln c dav.props :: resources.1.map fun res => .res c res dav.props
  | none =>
    if r.depth = some (ascii "0") then return [.prncpl dav.props]
    else return .prncpl dav.props :: .proxy proxyRead dav.props :: .proxy proxyWrite dav.props ::
      st.rprncpl.cols.map fun c => .coln c dav.props

def methodReport (r : Kreq) (st : State) : DbProg Reply :=
  match st.cfg with
  | none => return httpError 403
  | some cfg =>
    match req2caldav caldavParse r with
    | .error reply => return reply
    | .ok dav =>
      if dav.type ≠ .calmultiget ∧ dav.type ≠ .calquery then return httpError 415
      else if st.resource ≠ [] then do
        match ← loadResource C st.resource cfg.id with
        | .error => return httpError 505
        | .absent => return httpError 404
        | .found res => return .send 207 [.res cfg res dav.props]
      else if dav.type = .calmultiget then do
        let items ← propfindList C r st dav
        return .send 207 items
      else do
        let items ← propfindDirectory C r st dav (some cfg)
        return .send 207 items

def methodPropfind (r : Kreq) (st : State) : DbProg Reply :=
  match req2caldav caldavParse r with
  | .error reply => return reply
  | .ok dav =>
    if dav.type ≠ .propfind then return httpError 415
    else
      match st.cfg with
      | some cfg =>
        if st.resource ≠ [] then do
          match ← loadResource C st.resource cfg.id with
          | .error => return httpError 505
          | .absent => return httpError 404
          | .found res => return .send 207 [.res cfg res dav.props]
        else do
          let items ← propfindDirectory C r st dav (some cfg)
          return .send 207 items
      | none =>
        if st.resource ≠ [] then return httpError 403
        else if st.collection = proxyRead ∨ st.collection = proxyWrite then
          return .send 207 [.proxy st.collection dav.props]
        else do
          let items ← propfindDirectory C r st dav none
          return .send 207 items

end Kcaldav
