import Kcaldav.Server.Dynamic
import Kcaldav.Server.Propfind

/-! # Dispatch

The way of a request through `main` of `kcaldav.c`: authentication, the nonce, the
requested principal with the check of its proxies, the collection, and the handler.
The tag a `PUT` generates and the nonces drawn are parameters.
-/
namespace Kcaldav
open CString

variable (C : Libc) (caldavParse : Bytes → Option Caldav)

/-- Do the bits of a proxy allow the method? Writing implies reading. -/
def proxyAllows (method : Method) (bits : Int) : Bool :=
  match method with
  | .put | .proppatch | .delete => bits = PROXY_WRITE
  | _ => bits = PROXY_READ ∨ bits = PROXY_WRITE

/-- The requested principal with the permission to act for it, or the reply to one
who may not. -/
def loadRequested (method : Method) (principal : Bytes) (prncpl : Prncpl) : DbProg (Except Reply (Prncpl × Int)) :=
  if principal = prncpl.name then return .ok (prncpl, 0)
  else do
    match ← dbPrncplLoad principal with
    | .error => return .error (httpError 505)
    | .absent => return .error (httpError 401)
    | .found rprncpl =>
      match rprncpl.proxies.find? fun x => prncpl.id = x.proxy with
      | none => return .error (httpError 403)
      | some x =>
        -- the field is an `int`
        if proxyAllows method (int32 x.bits) then return .ok (rprncpl, int32 x.bits)
        else return .error (httpError 403)

/-- The requested collection, or the reply where there is none and the path does not
name one of the proxy collections. -/
def requestedCfg (collection : Bytes) (rprncpl : Prncpl) : Except Reply (Option Coln) :=
  if collection = [] then .ok none
  else
    match rprncpl.cols.find? fun c => c.url = collection with
    | some c => .ok (some c)
    | none => if collection = proxyRead ∨ collection = proxyWrite then .ok none else .error (httpError 404)

def handle (r : Kreq) (st : State) (etag : Bytes) : DbProg Reply :=
  match r.method with
  | .put => methodPut C r st etag
  | .propfind => methodPropfind C caldavParse r st
  | .proppatch => methodProppatch caldavParse r st
  | .post => return httpError (if st.resource = [] then 404 else 405)
  | .get => if st.resource = [] then return httpError 404 else methodGet C r st
  | .report => methodReport C caldavParse r st
  | .delete => methodDelete r st
  | _ => return httpError 405

/-- What follows once the client is known to be the principal. -/
def serve (r : Kreq) (path : Bytes × Bytes × Bytes) (login : Login) (etag : Bytes) : DbProg Reply :=
  if r.mime = .appJson ∧ (r.method = .get ∨ r.method = .post) then methodJson r.fields login r.page
  else if path.1 = [] then return .redirect (r.urlabs ++ [SLASH] ++ login.prncpl.name ++ [SLASH])
  else do
    match ← loadRequested r.method path.1 login.prncpl with
    | .error reply => return reply
    | .ok (rprncpl, proxy) =>
      match requestedCfg path.2.1 rprncpl with
      | .error reply => return reply
      | .ok cfg =>
        handle C caldavParse r
          { login with
            rprncpl := rprncpl
            cfg := cfg
            proxy := proxy
            principal := path.1
            collection := path.2.1
            resource := path.2.2 } etag

/-- Load the principal who has signed the request, and check the signature and the nonce. -/
def authenticate (auth : Digest) (draws : List Bytes) : DbProg (Except Reply Login) := do
  match ← dbPrncplLoad auth.user with
  | .error => return .error (httpError 505)
  | .absent => return .error (httpError 401)
  | .found prncpl =>
    if auth.validatehash prncpl.hash ≤ 0 then return .error (httpError 401)
    else
      let rc ← nonceValidate auth.nonce auth.count draws
      if rc < -1 then return .error (httpError 505)
      else if rc < 0 then return .error (httpError 403)
      else if rc = 0 then return .error (httpError 401)
      else return .ok ⟨prncpl, auth.nonce⟩

def main (r : Kreq) (etag : Bytes) (draws : List Bytes) : DbProg Reply :=
  match r.method with
  | .max => return httpError 405
  | .options => methodOptions
  | _ =>
    match r.auth with
    | none => return httpError 401
    | some auth =>
      if !auth.authorised then return httpError 401
      else if r.fullpath = [] then return .redirect (r.urlabs ++ [SLASH])
      else
        match httpPaths r.fullpath with
        | none => return .silent
        | some path => do
          match ← authenticate auth draws with
          | .error reply => return reply
          | .ok login => serve C caldavParse r path login etag

end Kcaldav
