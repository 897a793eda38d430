import Kcaldav.Server.Request
import Kcaldav.Store.Nonce

/-! # Pages

The handlers of `dynamic.c`, which serve the browser. They act on the principal who
is logged in, never on the one in the path.
-/
namespace Kcaldav
open CString

/-- The status for a result that is negative on error and zero on refusal. -/
def pageStatus (rc : Int) : Nat := if rc < 0 then 500 else if rc = 0 then 400 else 200

variable (f : Fields) (st : Login)

def jsonSetpass : DbProg Reply :=
  match f.pass with
  | none => return httpError 400
  | some pass => do
    let rc ← dbPrncplUpdate pass st.prncpl.email st.prncpl.id
    return httpError (pageStatus rc)

def jsonDelcoln : DbProg Reply :=
  match f.id with
  | none => return httpError 400
  | some id => do
    match ← dbCollectionLoadid id st.prncpl.id with
    | .error => return httpError 500
    | .absent => return httpError 400
    | .found coln =>
      let _ ← dbCollectionRemove coln.id
      return httpError 200

/-- The properties that are given replace those of the collection. -/
def colnProps (coln : Coln) : Coln :=
  { coln with
    displayname := f.name.elim coln.displayname some
    colour := f.colour.elim coln.colour some
    description := f.description.elim coln.description some }

def jsonSetcolnprops : DbProg Reply :=
  match f.id with
  | none => return httpError 400
  | some id => do
    match ← dbCollectionLoadid id st.prncpl.id with
    | .error => return httpError 500
    | .absent => return httpError 400
    | .found coln =>
      -- the reply has been sent before the update
      let _ ← dbCollectionUpdate (colnProps f coln)
      return httpError 200

def jsonSetemail : DbProg Reply :=
  match f.email with
  | none => return httpError 400
  | some email => do
    let rc ← dbPrncplUpdate st.prncpl.hash email st.prncpl.id
    return httpError (pageStatus rc)

def jsonDelproxy : DbProg Reply :=
  match f.email with
  | none => return httpError 400
  | some email => do
    let id ← dbPrncplIdentify email
    if id < 0 then return httpError 500
    else if id = 0 then return httpError 400
    else
      let removed ← dbProxyRemove st.prncpl.id id
      return httpError (if removed then 200 else 500)

def jsonModproxy : DbProg Reply :=
  match f.email, f.bits with
  | some email, some bits => do
    let id ← dbPrncplIdentify email
    if id < 0 then return httpError 500
    else if id = 0 ∨ id = st.prncpl.id then return httpError 400
    else
      let rc ← dbProxy st.prncpl.id id bits
      return httpError (pageStatus rc)
  | _, _ => return httpError 400

def jsonNewcoln : DbProg Reply :=
  match f.path with
  | none => return httpError 400
  | some path => do
    let rc ← dbCollectionNew path st.prncpl.id
    return httpError (pageStatus rc)

def jsonLogout : DbProg Reply := do
  let _ ← dbNonceDelete st.nonce
  return httpError 200

def jsonIndex : DbProg Reply := return .send 200 [.index st.prncpl]

def pages : Page → DbProg Reply
  | .delcoln => jsonDelcoln f st
  | .delproxy => jsonDelproxy f st
  | .index => jsonIndex st
  | .logout => jsonLogout st
  | .modproxy => jsonModproxy f st
  | .newcoln => jsonNewcoln f st
  | .setcolnprops => jsonSetcolnprops f st
  | .setemail => jsonSetemail f st
  | .setpass => jsonSetpass f st

def methodJson (page : Option Page) : DbProg Reply :=
  match page with
  | none => return httpError 404
  | some page => pages f st page

end Kcaldav
