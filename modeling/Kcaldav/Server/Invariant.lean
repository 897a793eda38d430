import Kcaldav.Server.Confinement
import Kcaldav.Server.Fields
import Kcaldav.Server.Passwd

/-! # Invariants of the store

A property of the database that each statement of a request keeps is kept by the
request, and so by any sequence of requests and of runs of `kcaldav.passwd`. What
a request writes of a collection it has loaded before, so that there is also a
property of the collections that are loaded.
-/
namespace Kcaldav
open CString

/-- The statements whose values do not come from the request keep the property of the
database, and the collections of a database that has it have the property of theirs,
with which they can be written back. -/
structure Kept (I : Db → Prop) (G : Coln → Prop) : Prop where
  nonce : ∀ db nonce seq, I db → I { db with nonce := nonce, nonceSeq := seq }
  principal : ∀ db principal seq, I db → I { db with principal := principal, principalSeq := seq }
  proxyRemove : ∀ p id db, I db → I (Sql.proxyRemove p id db)
  ctag : ∀ id db, I db → I (Sql.colUpdateCtag id db)
  colRemove : ∀ id db, I db → I (Sql.colRemove id db)
  colInsert : ∀ p url db db', I db → Sql.colInsert p url db = some db' → I db'
  resFilter : ∀ (keep : ResRow → Bool) db, I db → I { db with resource := db.resource.filter keep }
  resUpdate : ∀ data etag id db, I db → I (Sql.resUpdate data etag id db)
  loaded : ∀ db, I db → ∀ c ∈ db.collection, G c.coln
  colUpdate : ∀ (c : Coln) db db', G c → I db → Sql.colUpdate c.displayname c.colour c.description c.id db = some db' → I db'

/-- So do the statements with the values of the request. -/
structure Bears (I : Db → Prop) (G : Coln → Prop) (C : Libc) (caldavParse : Bytes → Option Caldav) (r : Kreq) : Prop where
  put : r.method = .put → putDigest r = some none → ∀ body, req2ical C r = .ok body →
    ∀ path, httpPaths r.fullpath = some path → path.2.1 ≠ [] →
    ∀ data colid etag db db', I db → Sql.resInsert data path.2.2 colid etag db = some db' → I db'
  props : ∀ body dav, r.fields.body = some body → caldavParse body.val = some dav → dav.type = .propertyupdate →
    ∀ c, G c → G (dav.props.foldl proppatchSet c)
  form : ∀ c, G c → G (colnProps r.fields c)
  proxy : ∀ bits, r.fields.bits = some bits → ∀ p id, id ≠ p →
    (∀ db db', I db → Sql.proxyInsert p id bits db = some db' → I db') ∧ ∀ db, I db → I (Sql.proxyUpdate bits p id db)

variable {I : Db → Prop} {G : Coln → Prop} {C : Libc} {caldavParse : Bytes → Option Caldav} {r : Kreq}

/-! ## Loading -/

theorem loadResource_keeps (url : Bytes) (colid : Int) : Prog.Ensures I (loadResource C url colid) fun _ => I :=
  KeepsDb.routine (dbResourceLoad_keeps C url colid)

theorem dbCollectionResources_keeps (colid : Int) : Prog.Ensures I (dbCollectionResources C colid) fun _ => I := by
  rw [dbCollectionResources_eq]
  exact Prog.Ensures.atom fun e db hdb => hdb

/-- A reply that ends the request. -/
theorem reply_keeps (reply : Reply) : Prog.Ensures I (Prog.ret reply : DbProg Reply) fun _ => I := Prog.Ensures.ret fun _ => id

section Kept
variable (h : Kept I G)
include h

theorem Kept.loadid (id pid : Int) : Prog.Ensures I (dbCollectionLoadid id pid) fun res db => res.Is G ∧ I db := by
  rw [dbCollectionLoadid, dbCollectionGet_eq]
  refine Prog.Ensures.atom fun e db hdb => ?_
  unfold query
  split
  · refine ⟨?_, hdb⟩
    dsimp only
    cases hget : Sql.colGetId pid id db with
    | none => trivial
    | some c => exact h.loaded db hdb c (List.mem_of_find?_eq_some hget)
  · exact ⟨trivial, hdb⟩

theorem Kept.prncplLoad (name : Bytes) :
    Prog.Ensures I (dbPrncplLoad name) fun res db => res.Is (fun p => ∀ c ∈ p.cols, G c) ∧ I db := by
  have hget : Prog.Ensures I (dbPrncplGet name) fun _ => I := by
    rw [dbPrncplGet_eq]
    exact Prog.Ensures.atom fun e db hdb => hdb
  have hcols (pid : Int) : Prog.Ensures I (dbIter (Sql.colIter pid)) fun cols db =>
      (∀ rows, cols = some rows → ∀ c ∈ rows, G c.coln) ∧ I db := by
    rw [dbIter_eq]
    refine Prog.Ensures.atom fun e db hdb => ⟨fun rows hrows c hc => ?_, hdb⟩
    dsimp only at hrows
    split at hrows
    · cases hrows
      exact h.loaded db hdb c (List.mem_of_mem_filter hc)
    · cases hrows
  refine Prog.Ensures.bind hget fun res => ?_
  rcases res with _ | _ | row
  · exact Prog.Ensures.ret fun _ hdb => ⟨trivial, hdb⟩
  · exact Prog.Ensures.ret fun _ hdb => ⟨trivial, hdb⟩
  refine Prog.Ensures.bind (hcols _) fun cols => Prog.Ensures.pure_pre fun hgood => ?_
  rcases cols with _ | cols
  · exact Prog.Ensures.ret fun _ hdb => ⟨trivial, hdb⟩
  refine Prog.Ensures.bind (dbIter_keeps _) fun rproxies => ?_
  rcases rproxies with _ | rproxies
  · exact Prog.Ensures.ret fun _ hdb => ⟨trivial, hdb⟩
  refine Prog.Ensures.bind (dbIter_keeps _) fun proxies => ?_
  rcases proxies with _ | proxies
  · exact Prog.Ensures.ret fun _ hdb => ⟨trivial, hdb⟩
  refine Prog.Ensures.ret fun _ hdb => ⟨fun c hc => ?_, hdb⟩
  obtain ⟨row', hrow', rfl⟩ := List.mem_map.mp hc
  exact hgood cols rfl row' hrow'

/-! ## Handlers of a collection -/

theorem Kept.methodPut {st : State} {etag : Bytes} (hput : putDigest r = some none → ∀ body, req2ical C r = .ok body → st.cfg ≠ none →
    ∀ data colid etag db db', I db → Sql.resInsert data st.resource colid etag db = some db' → I db') :
    Prog.Ensures I (methodPut C r st etag) fun _ => I := by
  unfold Kcaldav.methodPut
  cases hcfg : st.cfg with
  | none => exact reply_keeps _
  | some cfg =>
    dsimp only
    cases hreq : req2ical C r with
    | error reply => exact reply_keeps reply
    | ok body =>
      dsimp only
      cases hdigest : putDigest r with
      | none => exact reply_keeps _
      | some digest =>
        refine Prog.Ensures.bind (Q := fun _ => I) ?_ fun rc => reply_keeps _
        cases digest with
        | none => exact dbResourceNew_keeps (h.ctag cfg.id) (hput hdigest body hreq (hcfg ▸ nofun) _ _ _)
        | some digest => exact dbResourceUpdate_keeps (h.ctag cfg.id) (h.resUpdate _ _)

theorem Kept.methodDelete {st : State} : Prog.Ensures I (methodDelete r st) fun _ => I := by
  unfold Kcaldav.methodDelete
  cases st.cfg with
  | none => exact reply_keeps _
  | some cfg =>
    refine Prog.Ensures.ite (fun _ => ?_) fun _ => ?_
    · cases headerDigest r.ifMatch with
      | some digest =>
        exact Prog.Ensures.bind (dbResourceDelete_keeps (h.ctag cfg.id) (h.resFilter _)) fun rc => reply_keeps _
      | none => exact Prog.Ensures.bind (dbResourceRemove_keeps (h.ctag cfg.id) (h.resFilter _)) fun rc => reply_keeps _
    · exact Prog.Ensures.bind (dbCollectionRemove_keeps (h.colRemove cfg.id)) fun rc => reply_keeps _

omit h in
theorem methodGet_keeps {st : State} : Prog.Ensures I (methodGet C r st) fun _ => I := by
  refine Prog.Ensures.ite (fun _ => reply_keeps _) fun _ => ?_
  cases st.cfg with
  | none => exact reply_keeps _
  | some cfg =>
    refine Prog.Ensures.bind (loadResource_keeps _ _) fun res => ?_
    rcases res with _ | _ | p
    · exact reply_keeps _
    · exact reply_keeps _
    · exact Prog.Ensures.ite (fun _ => reply_keeps _) fun _ => reply_keeps _

theorem Kept.methodProppatch (hr : Bears I G C caldavParse r) {st : State} (hcfg : ∀ c, st.cfg = some c → G c) :
    Prog.Ensures I (methodProppatch caldavParse r st) fun _ => I := by
  unfold Kcaldav.methodProppatch
  cases hst : st.cfg with
  | none => exact reply_keeps _
  | some cfg =>
    dsimp only
    cases hreq : req2caldav caldavParse r with
    | error reply => exact reply_keeps reply
    | ok dav =>
      dsimp only
      split
      · exact reply_keeps _
      next htype =>
        refine Prog.Ensures.ite (fun _ => ?_) fun _ => reply_keeps _
        have hgood : G (dav.props.foldl proppatchSet cfg) := by
          unfold req2caldav at hreq
          split at hreq
          · cases hreq
          next body hbody =>
            split at hreq
            · cases hreq
            · split at hreq
              · cases hreq
              next hparse =>
                cases hreq
                exact hr.props body _ hbody hparse (not_not.mp htype) cfg (hcfg cfg hst)
        exact Prog.Ensures.bind (dbCollectionUpdate_keeps (h.ctag _) rfl fun db db' hdb hupd => h.colUpdate _ db db' hgood hdb hupd)
          fun _ => reply_keeps _

end Kept

/-! ## Queries -/

section Queries
variable {st : State}

theorem propfindResourceLookup_keeps (href : Bytes) : Prog.Ensures I (propfindResourceLookup C r st href) fun _ => I := by
  unfold propfindResourceLookup
  refine Prog.Ensures.ite (fun _ => Prog.Ensures.ret fun _ => id) fun _ => ?_
  split
  · exact Prog.Ensures.ret fun _ => id
  · refine Prog.Ensures.ite (fun _ => Prog.Ensures.ret fun _ => id) fun _ => ?_
    split
    · exact Prog.Ensures.ret fun _ => id
    · exact loadResource_keeps _ _

theorem propfindListLoop_keeps (dav : Caldav) (hrefs : List Bytes) :
    Prog.Ensures I (propfindListLoop C r st dav hrefs) fun _ => I := by
  induction hrefs with
  | nil => exact Prog.Ensures.ret fun _ => id
  | cons href hrefs ih =>
    refine Prog.Ensures.bind (propfindResourceLookup_keeps href) fun res => ?_
    exact Prog.Ensures.bind ih fun items => Prog.Ensures.ret fun _ => id

theorem propfindDirectory_keeps (dav : Caldav) (c : Option Coln) :
    Prog.Ensures I (propfindDirectory C r st dav c) fun _ => I := by
  unfold propfindDirectory
  split
  · refine Prog.Ensures.ite (fun _ => Prog.Ensures.ret fun _ => id) fun _ => ?_
    exact Prog.Ensures.bind (dbCollectionResources_keeps _) fun _ => Prog.Ensures.ret fun _ => id
  · exact Prog.Ensures.ite (fun _ => Prog.Ensures.ret fun _ => id) fun _ => Prog.Ensures.ret fun _ => id

/-- The query of one resource. -/
theorem queried_keeps {url : Bytes} {colid : Int} {reply : Res → Reply} : Prog.Ensures I (do
    match ← loadResource C url colid with
    | .error => return httpError 505
    | .absent => return httpError 404
    | .found res => return reply res) fun _ => I := by
  refine Prog.Ensures.bind (loadResource_keeps url colid) fun res => ?_
  rcases res with _ | _ | res <;> exact reply_keeps _

theorem methodReport_keeps : Prog.Ensures I (methodReport C caldavParse r st) fun _ => I := by
  unfold methodReport
  split
  · exact reply_keeps _
  · split
    · exact reply_keeps _
    · refine Prog.Ensures.ite (fun _ => reply_keeps _) fun _ => Prog.Ensures.ite (fun _ => queried_keeps) fun _ => ?_
      refine Prog.Ensures.ite (fun _ => ?_) fun _ => ?_
      · exact Prog.Ensures.bind (propfindListLoop_keeps _ _) fun items => reply_keeps _
      · exact Prog.Ensures.bind (propfindDirectory_keeps _ _) fun items => reply_keeps _

theorem methodPropfind_keeps : Prog.Ensures I (methodPropfind C caldavParse r st) fun _ => I := by
  unfold methodPropfind
  split
  · exact reply_keeps _
  · refine Prog.Ensures.ite (fun _ => reply_keeps _) fun _ => ?_
    split
    · refine Prog.Ensures.ite (fun _ => queried_keeps) fun _ => ?_
      exact Prog.Ensures.bind (propfindDirectory_keeps _ _) fun items => reply_keeps _
    · refine Prog.Ensures.ite (fun _ => reply_keeps _) fun _ => Prog.Ensures.ite (fun _ => reply_keeps _) fun _ => ?_
      exact Prog.Ensures.bind (propfindDirectory_keeps _ _) fun items => reply_keeps _

end Queries

/-! ## Pages -/

theorem Kept.pages (h : Kept I G) (hr : Bears I G C caldavParse r) (st : Login) (page : Page) :
    Prog.Ensures I (pages r.fields st page) fun _ => I := by
  have hprincipal : ∀ db principal, I db → I { db with principal := principal } :=
    fun db principal hdb => h.principal db principal db.principalSeq hdb
  cases page with
  | delcoln =>
    change Prog.Ensures I (jsonDelcoln r.fields st) _
    unfold jsonDelcoln
    split
    · exact reply_keeps _
    · refine Prog.Ensures.bind (h.loadid _ _) fun res => Prog.Ensures.pure_pre fun _ => ?_
      rcases res with _ | _ | coln
      · exact reply_keeps _
      · exact reply_keeps _
      · exact Prog.Ensures.bind (dbCollectionRemove_keeps (h.colRemove coln.id)) fun _ => reply_keeps _
  | delproxy =>
    change Prog.Ensures I (jsonDelproxy r.fields st) _
    unfold jsonDelproxy
    split
    · exact reply_keeps _
    · refine Prog.Ensures.bind (dbPrncplIdentify_keeps _) fun id => ?_
      refine Prog.Ensures.ite (fun _ => reply_keeps _) fun _ => Prog.Ensures.ite (fun _ => reply_keeps _) fun _ => ?_
      exact Prog.Ensures.bind (dbProxyRemove_keeps (h.proxyRemove _ _)) fun removed => reply_keeps _
  | index => exact reply_keeps _
  | logout =>
    exact Prog.Ensures.bind (dbNonceDelete_keeps (fun db nonce hdb => h.nonce db nonce db.nonceSeq hdb) _) fun _ => reply_keeps _
  | modproxy =>
    change Prog.Ensures I (jsonModproxy r.fields st) _
    unfold jsonModproxy
    split
    next email bits hemail hbits =>
      refine Prog.Ensures.bind (dbPrncplIdentify_keeps _) fun id => Prog.Ensures.ite (fun _ => reply_keeps _) fun _ => ?_
      refine Prog.Ensures.ite (fun _ => reply_keeps _) fun hid => ?_
      obtain ⟨hinsert, hupdate⟩ := hr.proxy bits hbits st.prncpl.id id fun heq => hid (Or.inr heq)
      exact Prog.Ensures.bind (dbProxy_keeps hinsert hupdate) fun rc => reply_keeps _
    · exact reply_keeps _
  | newcoln =>
    change Prog.Ensures I (jsonNewcoln r.fields st) _
    unfold jsonNewcoln
    split
    · exact reply_keeps _
    · exact Prog.Ensures.bind (dbCollectionNew_keeps (h.colInsert _ _)) fun rc => reply_keeps _
  | setcolnprops =>
    change Prog.Ensures I (jsonSetcolnprops r.fields st) _
    unfold jsonSetcolnprops
    split
    · exact reply_keeps _
    · refine Prog.Ensures.bind (h.loadid _ _) fun res => Prog.Ensures.pure_pre fun hgood => ?_
      rcases res with _ | _ | coln
      · exact reply_keeps _
      · exact reply_keeps _
      · refine Prog.Ensures.bind (dbCollectionUpdate_keeps (h.ctag _) rfl fun db db' hdb hupd => ?_) fun _ => reply_keeps _
        exact h.colUpdate _ db db' (hr.form coln hgood) hdb hupd
  | setemail =>
    change Prog.Ensures I (jsonSetemail r.fields st) _
    unfold jsonSetemail
    split
    · exact reply_keeps _
    · exact Prog.Ensures.bind (dbPrncplUpdate_keeps hprincipal _ _ _) fun rc => reply_keeps _
  | setpass =>
    change Prog.Ensures I (jsonSetpass r.fields st) _
    unfold jsonSetpass
    split
    · exact reply_keeps _
    · exact Prog.Ensures.bind (dbPrncplUpdate_keeps hprincipal _ _ _) fun rc => reply_keeps _

/-! ## Dispatch -/

theorem Kept.handle (h : Kept I G) (hr : Bears I G C caldavParse r) {path : Bytes × Bytes × Bytes}
    (hpath : httpPaths r.fullpath = some path) {st : State} (hcfg : ∀ c, st.cfg = some c → G c) (hcol : st.cfg ≠ none → path.2.1 ≠ [])
    (hres : st.resource = path.2.2) (etag : Bytes) : Prog.Ensures I (handle C caldavParse r st etag) fun _ => I := by
  unfold Kcaldav.handle
  cases hm : r.method with
  | put =>
    refine h.methodPut fun hdigest body hbody hsome => ?_
    rw [hres]
    exact hr.put hm hdigest body hbody path hpath (hcol hsome)
  | propfind => exact methodPropfind_keeps
  | proppatch => exact h.methodProppatch hr hcfg
  | post => exact reply_keeps _
  | get => exact Prog.Ensures.ite (fun _ => reply_keeps _) fun _ => methodGet_keeps
  | report => exact methodReport_keeps
  | delete => exact h.methodDelete
  | options => exact reply_keeps _
  | other => exact reply_keeps _
  | max => exact reply_keeps _

theorem Kept.loadRequested (h : Kept I G) (method : Method) (principal : Bytes) {p : Prncpl} (hp : ∀ c ∈ p.cols, G c) :
    Prog.Ensures I (loadRequested method principal p) fun res db => (∀ q, res = .ok q → ∀ c ∈ q.1.cols, G c) ∧ I db := by
  refine Prog.Ensures.ite (fun _ => Prog.Ensures.ret fun _ hdb => ⟨?_, hdb⟩) fun _ => ?_
  · rintro q ⟨⟩
    exact hp
  refine Prog.Ensures.bind (h.prncplLoad principal) fun res => Prog.Ensures.pure_pre fun hgood => ?_
  rcases res with _ | _ | q
  · exact Prog.Ensures.ret fun _ hdb => ⟨nofun, hdb⟩
  · exact Prog.Ensures.ret fun _ hdb => ⟨nofun, hdb⟩
  dsimp only
  split
  · exact Prog.Ensures.ret fun _ hdb => ⟨nofun, hdb⟩
  · refine Prog.Ensures.ite (fun _ => Prog.Ensures.ret fun _ hdb => ⟨?_, hdb⟩) fun _ => Prog.Ensures.ret fun _ hdb => ⟨nofun, hdb⟩
    rintro q' ⟨⟩
    exact hgood

theorem Kept.authenticate (h : Kept I G) (auth : Digest) (draws : List Bytes) :
    Prog.Ensures I (authenticate auth draws) fun res db => (∀ login, res = .ok login → ∀ c ∈ login.prncpl.cols, G c) ∧ I db := by
  have hend (reply : Reply) : Prog.Ensures I (Prog.ret (.error reply) : DbProg (Except Reply Login)) fun res db =>
      (∀ login, res = .ok login → ∀ c ∈ login.prncpl.cols, G c) ∧ I db := Prog.Ensures.ret fun _ hdb => ⟨nofun, hdb⟩
  refine Prog.Ensures.bind (h.prncplLoad auth.user) fun res => Prog.Ensures.pure_pre fun hgood => ?_
  rcases res with _ | _ | p
  · exact hend _
  · exact hend _
  refine Prog.Ensures.ite (fun _ => hend _) fun _ => ?_
  refine Prog.Ensures.bind (nonceValidate_keeps (fun db nonce hdb => h.nonce db nonce db.nonceSeq hdb) h.nonce _ _ draws) fun rc => ?_
  refine Prog.Ensures.ite (fun _ => hend _) fun _ => Prog.Ensures.ite (fun _ => hend _) fun _ => ?_
  refine Prog.Ensures.ite (fun _ => hend _) fun _ => Prog.Ensures.ret fun _ hdb => ⟨?_, hdb⟩
  rintro login ⟨⟩
  exact hgood

theorem Kept.serve (h : Kept I G) (hr : Bears I G C caldavParse r) {path : Bytes × Bytes × Bytes}
    (hpath : httpPaths r.fullpath = some path) {login : Login} (hlogin : ∀ c ∈ login.prncpl.cols, G c) (etag : Bytes) :
    Prog.Ensures I (serve C caldavParse r path login etag) fun _ => I := by
  refine Prog.Ensures.ite (fun _ => ?_) fun _ => Prog.Ensures.ite (fun _ => reply_keeps _) fun _ => ?_
  · unfold methodJson
    cases r.page with
    | none => exact reply_keeps _
    | some page => exact h.pages hr login page
  · refine Prog.Ensures.bind (h.loadRequested r.method path.1 hlogin) fun res => Prog.Ensures.pure_pre fun hres => ?_
    rcases res with reply | ⟨q, proxy⟩
    · exact reply_keeps _
    · have hgoes := requestedCfg_goes path.2.1 q
      dsimp only
      cases hreq : requestedCfg path.2.1 q with
      | error reply => exact reply_keeps reply
      | ok cfg =>
        rw [hreq] at hgoes
        have hcol : cfg ≠ none → path.2.1 ≠ [] := by
          intro hsome hnil
          unfold requestedCfg at hreq
          rw [if_pos hnil] at hreq
          cases hreq
          exact hsome rfl
        exact h.handle hr hpath (fun c hc => hres _ rfl c (hgoes c hc)) hcol rfl etag

/-- A request keeps what its statements keep. -/
theorem Kept.main (h : Kept I G) (hr : Bears I G C caldavParse r) (etag : Bytes) (draws : List Bytes) :
    Prog.Ensures I (main C caldavParse r etag draws) fun _ => I := by
  unfold Kcaldav.main
  split
  · exact reply_keeps _
  · exact reply_keeps _
  · split
    · exact reply_keeps _
    · refine Prog.Ensures.ite (fun _ => reply_keeps _) fun _ => Prog.Ensures.ite (fun _ => reply_keeps _) fun _ => ?_
      split
      · exact reply_keeps _
      next path hpath =>
        refine Prog.Ensures.bind (h.authenticate _ draws) fun res => Prog.Ensures.pure_pre fun hres => ?_
        cases res with
        | error reply => exact reply_keeps reply
        | ok login => exact h.serve hr hpath (hres login rfl) etag

/-! ## The administrator's tool -/

section Passwd
variable (hprincipal : ∀ db principal seq, I db → I { db with principal := principal, principalSeq := seq })
  (hcoln : ∀ p url db db', I db → Sql.colInsert p url db = some db' → I db') (hctag : ∀ id db, I db → I (Sql.colUpdateCtag id db))

include hprincipal

theorem updatePrncpl_keeps (a : Passwd) (p : Prncpl) : Prog.Ensures I (updatePrncpl a p) fun _ => I := by
  refine Prog.Ensures.ite (fun _ => Prog.Ensures.ret fun _ => id) fun _ => ?_
  refine Prog.Ensures.bind (dbPrncplUpdate_keeps (fun db principal hdb => ?_) _ _ _) fun c => Prog.Ensures.ret fun _ => id
  exact hprincipal db principal db.principalSeq hdb

include hcoln

theorem changePrncpl_keeps (a : Passwd) : Prog.Ensures I (changePrncpl a) fun _ => I := by
  refine Prog.Ensures.bind (dbPrncplLoad_keeps a.user) ?_
  rintro (_ | _ | p)
  · exact Prog.Ensures.ret fun _ => id
  · exact Prog.Ensures.ret fun _ => id
  · dsimp only
    cases a.coln with
    | none => exact updatePrncpl_keeps hprincipal a p
    | some coln =>
      refine Prog.Ensures.bind (dbCollectionNew_keeps (hcoln p.id coln)) fun c => Prog.Ensures.ite (fun _ => ?_) fun _ => ?_
      · exact Prog.Ensures.ret fun _ => id
      · exact updatePrncpl_keeps hprincipal a p

theorem setPrncpl_keeps (a : Passwd) : Prog.Ensures I (setPrncpl a) fun _ => I := by
  refine Prog.Ensures.ite (fun _ => ?_) fun _ => changePrncpl_keeps hprincipal hcoln a
  refine Prog.Ensures.bind (dbPrncplNew_keeps (fun db db' hdb hins => ?_) fun p => hcoln p _) fun c => Prog.Ensures.ret fun _ => id
  unfold Sql.prncplInsert at hins
  split at hins
  · cases hins
  · cases hins
    exact hprincipal db _ _ hdb

include hctag

omit hprincipal hcoln in
theorem importFiles_keeps (colid : Int) (fs : List ImportFile)
    (hfiles : ∀ f ∈ fs, ∀ res, readWholeFile C f = some res → ∀ db db', I db →
      Sql.resInsert (cstr res) f.uid colid f.etag db = some db' → I db') :
    Prog.Ensures I (importFiles C colid fs) fun _ => I := by
  induction fs with
  | nil => exact Prog.Ensures.ret fun _ => id
  | cons f fs ih =>
    unfold importFiles
    cases hread : readWholeFile C f with
    | none => exact Prog.Ensures.ret fun _ => id
    | some res =>
      refine Prog.Ensures.bind (dbResourceNew_keeps (hctag colid) (hfiles f List.mem_cons_self res hread)) fun rc => ?_
      refine Prog.Ensures.ite (fun _ => Prog.Ensures.ret fun _ => id) fun _ => ?_
      exact ih fun f' hf' => hfiles f' (List.mem_cons_of_mem f hf')

/-- The tool keeps what its statements keep. -/
theorem passwdMain_keeps (a : Passwd)
    (hfiles : ∀ f ∈ a.argv, checkSafeString f.uid → ∀ res, readWholeFile C f = some res → ∀ colid db db', I db →
      Sql.resInsert (cstr res) f.uid colid f.etag db = some db' → I db') :
    Prog.Ensures I (passwdMain C a) fun _ => I := by
  have hexit (status : Int) : Prog.Ensures I (Prog.ret status : DbProg Int) fun _ => I := Prog.Ensures.ret fun _ => id
  unfold passwdMain
  cases hsafe : a.safe with
  | false => exact hexit 1
  | true =>
    have huids : ∀ f ∈ a.argv, checkSafeString f.uid := by
      unfold Passwd.safe at hsafe
      simp only [Bool.and_eq_true, List.all_eq_true] at hsafe
      exact hsafe.1.2
    refine Prog.Ensures.ite (fun _ => hexit 1) fun _ => Prog.Ensures.ite (fun _ => hexit 1) fun _ => ?_
    refine Prog.Ensures.ite (fun _ => hexit 1) fun _ => Prog.Ensures.bind (setPrncpl_keeps hprincipal hcoln a) fun status => ?_
    refine Prog.Ensures.ite (fun _ => hexit 1) fun _ => Prog.Ensures.ite (fun _ => hexit 0) fun _ => ?_
    refine Prog.Ensures.bind (dbPrncplLoad_keeps a.user) ?_
    rintro (_ | _ | p)
    · exact hexit 1
    · exact hexit 1
    · dsimp only
      cases p.cols.find? fun c => c.url = a.collection with
      | none => exact hexit 1
      | some col => exact importFiles_keeps hctag col.id a.argv fun f hf res hread => hfiles f hf (huids f hf) res hread col.id

end Passwd

/-! ## Runs -/

/-- What happens to a store: a request, or a run of the administrator's tool. -/
inductive ServerStep
  | request (r : Kreq) (etag : Bytes) (draws : List Bytes)
  | passwd (a : Passwd)

def ServerStep.prog (C : Libc) (caldavParse : Bytes → Option Caldav) : ServerStep → DbProg Unit
  | .request r etag draws => do
    let _ ← main C caldavParse r.checked etag draws
    return ()
  | .passwd a => do
    let _ ← passwdMain C a
    return ()

/-- One step after the other. -/
def serverRun (C : Libc) (caldavParse : Bytes → Option Caldav) : List ServerStep → DbProg Unit
  | [] => return ()
  | s :: steps => do
    s.prog C caldavParse
    serverRun C caldavParse steps

theorem serverRun_keeps {steps : List ServerStep} (h : ∀ s ∈ steps, Prog.Ensures I (s.prog C caldavParse) fun _ => I) :
    Prog.Ensures I (serverRun C caldavParse steps) fun _ => I := by
  induction steps with
  | nil => exact Prog.Ensures.ret fun _ => id
  | cons s steps ih =>
    exact Prog.Ensures.bind (h s List.mem_cons_self) fun _ => ih fun s' hs' => h s' (List.mem_cons_of_mem s hs')

/-- The store that the steps leave. -/
def serverStore (C : Libc) (caldavParse : Bytes → Option Caldav) (steps : List ServerStep) (cs : ℕ → Choice) (db : Db) : Db :=
  ((serverRun C caldavParse steps).run cs db).2.1

theorem Kept.request (h : Kept I G) {r : Kreq} (hr : Bears I G C caldavParse r.checked) (etag : Bytes) (draws : List Bytes) :
    Prog.Ensures I ((ServerStep.request r etag draws).prog C caldavParse) fun _ => I :=
  Prog.Ensures.bind (h.main hr etag draws) fun _ => Prog.Ensures.ret fun _ => id

theorem Kept.passwd (h : Kept I G) (a : Passwd)
    (hfiles : ∀ f ∈ a.argv, checkSafeString f.uid → ∀ res, readWholeFile C f = some res → ∀ colid db db', I db →
      Sql.resInsert (cstr res) f.uid colid f.etag db = some db' → I db') :
    Prog.Ensures I ((ServerStep.passwd a).prog C caldavParse) fun _ => I :=
  Prog.Ensures.bind (passwdMain_keeps h.principal h.colInsert h.ctag a hfiles) fun _ => Prog.Ensures.ret fun _ => id

end Kcaldav
