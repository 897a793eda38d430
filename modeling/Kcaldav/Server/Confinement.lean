import Kcaldav.Server.Access

/-! # Every handler is confined

From the rows as they were when the request came in, every handler changes and shows
only what the rights of the principal allow. What is loaded before is related to those
rows; the last action of a handler is the only one that changes them.
-/
namespace Kcaldav
open CString

variable {C : Libc} {db₀ : Db}

/-! ## Loading -/

/-- A principal as it is loaded from its row. -/
def loadedPrncpl (name : Bytes) (row : PrncplRow) (db : Db) : Prncpl where
  name := name
  hash := row.hash
  email := row.email
  id := int32 row.id
  cols := (Sql.colIter (int32 row.id) db).map ColRow.coln
  proxies := (Sql.proxyIterPrncpl (int32 row.id) db).map forwardEntry
  rproxies := (Sql.proxyIter (int32 row.id) db).map reverseEntry

/-- What is found, if something is. -/
def Loaded.Is {α : Type} (P : α → Prop) : Loaded α → Prop
  | .found a => P a
  | .absent | .error => True

theorem dbPrncplGet_ensures (name : Bytes) :
    Prog.Ensures (SameRows db₀) (dbPrncplGet name) fun res db =>
      res.Is (fun row => Sql.prncplGet name db₀ = some row) ∧ SameRows db₀ db := by
  rw [dbPrncplGet_eq]
  refine Prog.Ensures.atom fun e db h => ⟨?_, h⟩
  have hget : Sql.prncplGet name db = Sql.prncplGet name db₀ := by
    unfold Sql.prncplGet
    rw [h.principal]
  unfold prncplFetched
  rw [hget]
  split
  · cases Sql.prncplGet name db₀ with
    | none => trivial
    | some row =>
      dsimp only
      split
      · exact rfl
      · trivial
  · trivial

theorem dbIter_ensures {α : Type} {q : Db → List α} (hq : ∀ db, SameRows db₀ db → q db = q db₀) :
    Prog.Ensures (SameRows db₀) (dbIter q) fun res db => (∀ rows, res = some rows → rows = q db₀) ∧ SameRows db₀ db := by
  rw [dbIter_eq]
  refine Prog.Ensures.atom fun e db h => ⟨?_, h⟩
  rintro rows hrows
  dsimp only at hrows
  split at hrows
  · cases hrows
    exact hq db h
  · cases hrows

theorem dbPrncplLoad_ensures (name : Bytes) :
    Prog.Ensures (SameRows db₀) (dbPrncplLoad name) fun res db =>
      res.Is (fun p => ∃ row, Sql.prncplGet name db₀ = some row ∧ p = loadedPrncpl name row db₀) ∧ SameRows db₀ db := by
  refine Prog.Ensures.bind (dbPrncplGet_ensures name) fun res => Prog.Ensures.pure_pre fun hrow => ?_
  cases res with
  | error => exact Prog.Ensures.ret fun _ h => ⟨trivial, h⟩
  | absent => exact Prog.Ensures.ret fun _ h => ⟨trivial, h⟩
  | found row =>
    have hcols : ∀ db, SameRows db₀ db → Sql.colIter (int32 row.id) db = Sql.colIter (int32 row.id) db₀ := by
      intro db h
      unfold Sql.colIter
      rw [h.collection]
    have hrproxies : ∀ db, SameRows db₀ db → Sql.proxyIter (int32 row.id) db = Sql.proxyIter (int32 row.id) db₀ := by
      intro db h
      unfold Sql.proxyIter
      rw [h.proxy, h.principal]
    have hproxies : ∀ db, SameRows db₀ db →
        Sql.proxyIterPrncpl (int32 row.id) db = Sql.proxyIterPrncpl (int32 row.id) db₀ := by
      intro db h
      unfold Sql.proxyIterPrncpl
      rw [h.proxy, h.principal]
    refine Prog.Ensures.bind (dbIter_ensures hcols) fun cols => Prog.Ensures.pure_pre fun hc => ?_
    rcases cols with _ | cols
    · exact Prog.Ensures.ret fun _ h => ⟨trivial, h⟩
    refine Prog.Ensures.bind (dbIter_ensures hrproxies) fun rproxies => Prog.Ensures.pure_pre fun hr => ?_
    rcases rproxies with _ | rproxies
    · exact Prog.Ensures.ret fun _ h => ⟨trivial, h⟩
    refine Prog.Ensures.bind (dbIter_ensures hproxies) fun proxies => Prog.Ensures.pure_pre fun hp => ?_
    rcases proxies with _ | proxies
    · exact Prog.Ensures.ret fun _ h => ⟨trivial, h⟩
    refine Prog.Ensures.ret fun _ h => ⟨⟨row, hrow, ?_⟩, h⟩
    rw [hc cols rfl, hr rproxies rfl, hp proxies rfl]
    rfl

/-- A resource of the collection as it is loaded from its row. -/
def FromRow (db : Db) (colid : Int) (r : Res) : Prop :=
  ∃ row ∈ db.resource, row.collection = colid ∧ ∃ ical, r = row.res ical

theorem loadResource_ensures (url : Bytes) (colid : Int) :
    Prog.Ensures (SameRows db₀) (loadResource C url colid) fun res db =>
      res.Is (FromRow db₀ colid) ∧ SameRows db₀ db := by
  rw [loadResource_eq]
  refine Prog.Ensures.atom fun e db h => ?_
  unfold query
  split
  · refine ⟨?_, h⟩
    dsimp only
    cases hres : resourceLoaded C url colid e.erange db with
    | error => trivial
    | absent => trivial
    | found res =>
      obtain ⟨row, ical, q, hget, -, rfl⟩ := resourceLoaded_found C hres
      obtain ⟨hmem, hcol, -⟩ := mem_of_resGet hget
      exact ⟨row, h.resource ▸ hmem, hcol, ical, rfl⟩
  · exact ⟨trivial, h⟩

theorem mem_listRows {rows : List ResRow} : ∀ {e : Choice} {erange : Bool} {r : Res},
    r ∈ (listRows C e erange rows).1 → ∃ row ∈ rows, ∃ ical, r = row.res ical := by
  induction rows with
  | nil => exact nofun
  | cons row rows ih =>
    intro e erange r hr
    unfold listRows at hr
    split at hr
    · split at hr
      · cases hr
      next ical q diag _ =>
        rcases List.mem_cons.mp hr with rfl | hr
        · exact ⟨row, List.mem_cons_self, ical, rfl⟩
        · obtain ⟨row', hmem, ical', rfl⟩ := ih hr
          exact ⟨row', List.mem_cons_of_mem row hmem, ical', rfl⟩
    · cases hr

theorem dbCollectionResources_ensures (colid : Int) :
    Prog.Ensures (SameRows db₀) (dbCollectionResources C colid) fun res db =>
      (∀ r ∈ res.1, FromRow db₀ colid r) ∧ SameRows db₀ db := by
  rw [dbCollectionResources_eq]
  refine Prog.Ensures.atom fun e db h => ⟨fun r hr => ?_, h⟩
  dsimp only at hr
  split at hr
  · obtain ⟨row, hrow, ical, rfl⟩ := mem_listRows hr
    obtain ⟨hmem, hcol⟩ := List.mem_filter.mp hrow
    exact ⟨row, h.resource ▸ hmem, of_decide_eq_true hcol, ical, rfl⟩
  · cases hr

/-! ## Handlers of a collection -/

/-- The state a handler is given: the requested principal with its collections, with
the right to do what the method does. -/
structure Admitted (R : Rights) (db : Db) (method : Method) (st : State) : Prop where
  cols : ∀ c ∈ st.rprncpl.cols, ∃ row ∈ db.collection, row.coln = c ∧ row.principal = st.rprncpl.id
  cfg : ∀ c, st.cfg = some c → c ∈ st.rprncpl.cols
  read : R.read st.rprncpl.id
  write : method = .put ∨ method = .proppatch ∨ method = .delete → R.write st.rprncpl.id

/-- From the rows as they are every run of the handler is confined. -/
def Serves (R : Rights) (db₀ : Db) (p : DbProg Reply) : Prop :=
  Prog.Ensures (SameRows db₀) p fun reply db => Confined R db₀ db reply.items

section Handlers
variable {R : Rights} {method : Method} {r : Kreq} {st : State} {cfg : Coln}

theorem shows_nil : ∀ i ∈ ([] : List Item), Shows R db₀ i := fun _ hi => absurd hi List.not_mem_nil

/-- A reply that says no more than its status. -/
theorem status_confined {db : Db} (h : SameRows db₀ db) (status : Nat) :
    Confined R db₀ db (httpError status).items := Confined.of_same h.store shows_nil

theorem Serves.mono {R S : Rights} {p : DbProg Reply} (h : Serves R db₀ p) (hRS : R.Within S) : Serves S db₀ p :=
  Prog.Ensures.post h fun _ _ hc => hc.mono hRS

theorem status_serves (status : Nat) : Serves R db₀ (Prog.ret (httpError status)) :=
  Prog.Ensures.ret fun _ h => status_confined h status

theorem Admitted.shows_coln (h : Admitted R db₀ method st) {c : Coln} (hc : c ∈ st.rprncpl.cols) : ShowsColn R db₀ c := by
  obtain ⟨row, hrow, rfl, howner⟩ := h.cols c hc
  exact ⟨row, hrow, rfl, howner ▸ h.read⟩

theorem Admitted.shows_res (h : Admitted R db₀ method st) {c : Coln} (hc : c ∈ st.rprncpl.cols) {res : Res}
    (hres : FromRow db₀ c.id res) : ShowsRes R db₀ res := by
  obtain ⟨row, hrow, rfl, howner⟩ := h.cols c hc
  obtain ⟨rrow, hrrow, hcol, ical, rfl⟩ := hres
  exact ⟨rrow, hrrow, ⟨ical, rfl⟩, row.principal, ⟨row, hrow, hcol.symm, rfl⟩, howner ▸ h.read⟩

/-- Touching the collection of the request is confined where the method may write. -/
theorem Admitted.touch (h : Admitted R db₀ method st) (hk : ColKeyed db₀) (hcfg : st.cfg = some cfg)
    (hmethod : method = .put ∨ method = .proppatch ∨ method = .delete) {db : Db} (ht : Touches cfg.id db₀ db)
    {items : List Item} (hitems : ∀ i ∈ items, Shows R db₀ i) : Confined R db₀ db items := by
  obtain ⟨row, hrow, rfl, howner⟩ := h.cols cfg (h.cfg cfg hcfg)
  exact ht.confined hk hrow rfl (howner ▸ h.write hmethod) hitems

theorem putStore_touches (hkeyed : Keyed db₀) (data url : Bytes) (digest : Option Bytes) (colid : Int) (etag : Bytes) :
    Prog.Ensures (SameRows db₀) (putStore C data url digest colid etag) fun _ db => Touches colid db₀ db := by
  cases digest with
  | none =>
    have hnew : Prog.Ensures (Touches colid db₀) (dbResourceNew data url colid etag) fun _ => Touches colid db₀ :=
      dbResourceNew_keeps (fun _ h => h.ctag) fun _ _ h hins => h.insert hins
    exact hnew.imp (fun _ h => Touches.of_same h.store) fun _ _ h => h
  | some digest =>
    unfold putStore
    dsimp only
    rw [dbResourceUpdate_eq]
    refine Prog.Ensures.atom fun e db h => ?_
    by_cases hdb : (resourceUpdate C data url digest colid etag e db).2 = db
    · rw [hdb]
      exact Touches.of_same h.store
    · obtain ⟨row, ical, hget, hload, htag, h13, hc⟩ := resourceUpdate_changed hdb
      obtain ⟨hmem, hcol, -⟩ := mem_of_resGet hget
      rw [resourceUpdate_replaced hload htag h13 hc]
      exact (Touches.replace h.store hkeyed (h.resource ▸ hmem) hcol _ _).ctag

theorem req2ical_error {reply : Reply} (h : req2ical C r = .error reply) : reply.items = [] := by
  unfold req2ical at h
  split at h
  · cases h
    rfl
  · split at h
    · cases h
      rfl
    · split at h <;> cases h
      rfl

theorem methodPut_serves (hkeyed : Keyed db₀) (hk : ColKeyed db₀) (h : Admitted R db₀ .put st) (etag : Bytes) :
    Serves R db₀ (methodPut C r st etag) := by
  unfold methodPut
  cases hcfg : st.cfg with
  | none => exact status_serves 403
  | some cfg =>
    cases hbody : req2ical C r with
    | error reply =>
      refine Prog.Ensures.ret fun db hdb => Confined.of_same hdb.store ?_
      rw [req2ical_error hbody]
      exact shows_nil
    | ok body =>
      cases putDigest r with
      | none => exact status_serves 400
      | some digest =>
        refine Prog.Ensures.bind (putStore_touches hkeyed _ _ _ _ _) fun rc => ?_
        exact Prog.Ensures.ret fun db ht => h.touch hk hcfg (Or.inl rfl) ht shows_nil

theorem methodDelete_serves (hk : ColKeyed db₀) (h : Admitted R db₀ .delete st) :
    Serves R db₀ (methodDelete r st) := by
  unfold methodDelete
  cases hcfg : st.cfg with
  | none => exact status_serves 403
  | some cfg =>
    have hend : ∀ {p : DbProg Bool}, Prog.Ensures (Touches cfg.id db₀) p (fun _ => Touches cfg.id db₀) →
        Serves R db₀ (p >>= fun rc => Prog.ret (httpError (deleteStatus rc))) := by
      intro p hp
      refine Prog.Ensures.bind (hp.imp (fun _ hs => Touches.of_same hs.store) fun _ _ ht => ht) fun rc => ?_
      exact Prog.Ensures.ret fun db ht => h.touch hk hcfg (Or.inr (Or.inr rfl)) ht shows_nil
    refine Prog.Ensures.ite (fun _ => ?_) fun _ => ?_
    · cases headerDigest r.ifMatch with
      | none => exact hend (dbResourceRemove_keeps (fun _ ht => ht.ctag) fun _ ht => ht.delete fun _ hne => by simp [hne])
      | some digest =>
        exact hend (dbResourceDelete_keeps (fun _ ht => ht.ctag) fun _ ht => ht.delete fun _ hne => by simp [hne])
    · exact hend (dbCollectionRemove_keeps fun _ ht => ht.remove)

theorem methodGet_serves (h : Admitted R db₀ method st) :
    Serves R db₀ (methodGet C r st) := by
  unfold methodGet
  refine Prog.Ensures.ite (fun _ => status_serves 404) fun _ => ?_
  cases hcfg : st.cfg with
  | none => exact status_serves 403
  | some cfg =>
    refine Prog.Ensures.bind (loadResource_ensures _ _) fun res => Prog.Ensures.pure_pre fun hres => ?_
    cases res with
    | error => exact status_serves 505
    | absent => exact status_serves 404
    | found p =>
      refine Prog.Ensures.ite (fun _ => Prog.Ensures.ret fun db hdb => Confined.of_same hdb.store shows_nil) fun _ => ?_
      refine Prog.Ensures.ret fun db hdb => Confined.of_same hdb.store fun i hi => ?_
      obtain rfl := List.mem_singleton.mp hi
      refine ⟨nofun, fun r hr => ?_⟩
      obtain rfl := List.mem_singleton.mp hr
      exact h.shows_res (h.cfg cfg hcfg) hres

variable {caldavParse : Bytes → Option Caldav}

theorem req2caldav_error {reply : Reply} (h : req2caldav caldavParse r = .error reply) : reply.items = [] := by
  unfold req2caldav at h
  split at h
  · cases h
    rfl
  · split at h
    · cases h
      rfl
    · split at h <;> cases h
      rfl

/-- A handler that goes on with a CalDAV body. -/
theorem req2caldav_serves {p : Caldav → DbProg Reply} (h : ∀ dav, Serves R db₀ (p dav)) :
    Serves R db₀ (match req2caldav caldavParse r with
      | .error reply => return reply
      | .ok dav => p dav) := by
  cases hdav : req2caldav caldavParse r with
  | ok dav => exact h dav
  | error reply =>
    refine Prog.Ensures.ret fun db hdb => Confined.of_same hdb.store ?_
    rw [req2caldav_error hdav]
    exact shows_nil

/-- An update of a collection touches no other. -/
theorem dbCollectionUpdate_touches (db₀ : Db) (c : Coln) :
    Prog.Ensures (Touches c.id db₀) (dbCollectionUpdate c) fun _ => Touches c.id db₀ :=
  dbCollectionUpdate_keeps (fun _ ht => ht.ctag) rfl fun _ _ ht hupd => ht.update hupd

theorem proppatchItems_shows (props : List CalProp) : ∀ i ∈ proppatchItems props, Shows R db₀ i := by
  intro i hi
  unfold proppatchItems at hi
  rcases List.mem_append.mp hi with hi | hi
  · rcases List.mem_append.mp hi with hi | hi
    · obtain rfl := List.mem_singleton.mp hi
      exact ⟨nofun, nofun⟩
    · split at hi
      · cases hi
      · obtain rfl := List.mem_singleton.mp hi
        exact ⟨nofun, nofun⟩
  · split at hi
    · cases hi
    · obtain rfl := List.mem_singleton.mp hi
      exact ⟨nofun, nofun⟩

theorem methodProppatch_serves (hk : ColKeyed db₀) (h : Admitted R db₀ .proppatch st) :
    Serves R db₀ (methodProppatch caldavParse r st) := by
  unfold methodProppatch
  cases hcfg : st.cfg with
  | none => exact status_serves 403
  | some cfg =>
    refine req2caldav_serves fun dav => Prog.Ensures.ite (fun _ => status_serves 415) fun _ => ?_
    refine Prog.Ensures.ite (fun _ => ?_) fun _ => ?_
    · have hid := foldl_proppatchSet_id dav.props cfg
      have hupd := dbCollectionUpdate_touches db₀ (dav.props.foldl proppatchSet cfg)
      rw [hid] at hupd
      refine Prog.Ensures.bind (hupd.imp (fun _ hs => Touches.of_same hs.store) fun _ _ ht => ht) fun _ => ?_
      exact Prog.Ensures.ret fun db ht => h.touch hk hcfg (Or.inr (Or.inl rfl)) ht (proppatchItems_shows dav.props)
    · exact Prog.Ensures.ret fun db hdb => Confined.of_same hdb.store (proppatchItems_shows dav.props)

/-! ## Queries -/

theorem shows_none {i : Item} (hc : i.colns = []) (hr : i.ress = []) : Shows R db₀ i := by
  constructor
  · rw [hc]
    exact nofun
  · rw [hr]
    exact nofun

theorem Admitted.shows_item_coln (h : Admitted R db₀ method st) {c : Coln} (hc : c ∈ st.rprncpl.cols)
    (props : List CalProp) : Shows R db₀ (.coln c props) := by
  refine ⟨fun c' hc' => ?_, nofun⟩
  obtain rfl := List.mem_singleton.mp hc'
  exact h.shows_coln hc

theorem Admitted.shows_item_res (h : Admitted R db₀ method st) {c : Coln} (hc : c ∈ st.rprncpl.cols) {res : Res}
    (hres : FromRow db₀ c.id res) (props : List CalProp) : Shows R db₀ (.res c res props) := by
  refine ⟨fun c' hc' => ?_, fun r' hr' => ?_⟩
  · obtain rfl := List.mem_singleton.mp hc'
    exact h.shows_coln hc
  · obtain rfl := List.mem_singleton.mp hr'
    exact h.shows_res hc hres

/-- Items that may all be shown, in a reply that leaves the rows alone. -/
def Lists (R : Rights) (db₀ : Db) (p : DbProg (List Item)) : Prop :=
  Prog.Ensures (SameRows db₀) p fun items db => (∀ i ∈ items, Shows R db₀ i) ∧ SameRows db₀ db

theorem Lists.serves {p : DbProg (List Item)} (h : Lists R db₀ p) (status : Nat) :
    Serves R db₀ (p >>= fun items => Prog.ret (.send status items)) :=
  Prog.Ensures.bind h fun _ => Prog.Ensures.pure_pre fun hitems =>
    Prog.Ensures.ret fun _ hdb => Confined.of_same hdb.store hitems

theorem propfindResourceLookup_ensures (href : Bytes) :
    Prog.Ensures (SameRows db₀) (propfindResourceLookup C r st href) fun res db =>
      res.Is (fun res => ∃ c ∈ st.rprncpl.cols, FromRow db₀ c.id res) ∧ SameRows db₀ db := by
  have habsent : Prog.Ensures (ε := Choice) (SameRows db₀) (Prog.ret (.absent : Loaded Res)) fun res db =>
      res.Is (fun res => ∃ c ∈ st.rprncpl.cols, FromRow db₀ c.id res) ∧ SameRows db₀ db :=
    Prog.Ensures.ret fun _ hdb => ⟨trivial, hdb⟩
  unfold propfindResourceLookup
  refine Prog.Ensures.ite (fun _ => habsent) fun _ => ?_
  split
  · exact habsent
  next principal collection resource _ =>
    refine Prog.Ensures.ite (fun _ => habsent) fun _ => ?_
    split
    · exact habsent
    next c hfind =>
      refine (loadResource_ensures resource c.id).post fun res db hres => ⟨?_, hres.2⟩
      cases res with
      | error => trivial
      | absent => trivial
      | found p => exact ⟨c, List.mem_of_find?_eq_some hfind, hres.1⟩

theorem Admitted.propfindListItem_shows (h : Admitted R db₀ method st) (dav : Caldav) (href : Bytes) {res : Loaded Res}
    (hres : res.Is fun res => ∃ c ∈ st.rprncpl.cols, FromRow db₀ c.id res) :
    ∀ i ∈ propfindListItem st dav href res, Shows R db₀ i := by
  intro i hi
  cases res with
  | error =>
    obtain rfl := List.mem_singleton.mp hi
    exact shows_none rfl rfl
  | absent =>
    obtain rfl := List.mem_singleton.mp hi
    exact shows_none rfl rfl
  | found p =>
    unfold propfindListItem at hi
    dsimp only at hi
    split at hi
    · cases hi
    next c hfind =>
      obtain rfl := List.mem_singleton.mp hi
      obtain ⟨c', -, row, hrow, hcol, ical, rfl⟩ := hres
      have hfound := List.find?_some hfind
      have hid : row.collection = c.id := of_decide_eq_true hfound
      exact h.shows_item_res (List.mem_of_find?_eq_some hfind) ⟨row, hrow, hid, ical, rfl⟩ dav.props

/-- Every `href` is looked up among the collections of the requested principal. -/
theorem Admitted.propfindListLoop_lists (h : Admitted R db₀ method st) (dav : Caldav) (hrefs : List Bytes) :
    Lists R db₀ (propfindListLoop C r st dav hrefs) := by
  induction hrefs with
  | nil => exact Prog.Ensures.ret fun _ hdb => ⟨shows_nil, hdb⟩
  | cons href hrefs ih =>
    refine Prog.Ensures.bind (propfindResourceLookup_ensures href) fun res => Prog.Ensures.pure_pre fun hres => ?_
    refine Prog.Ensures.bind ih fun items => Prog.Ensures.pure_pre fun hitems => ?_
    refine Prog.Ensures.ret fun _ hdb => ⟨fun i hi => ?_, hdb⟩
    rcases List.mem_append.mp hi with hi | hi
    · exact h.propfindListItem_shows dav href hres i hi
    · exact hitems i hi

theorem Admitted.propfindDirectory_lists (h : Admitted R db₀ method st) (dav : Caldav) {c : Option Coln}
    (hc : ∀ c' ∈ c, c' ∈ st.rprncpl.cols) : Lists R db₀ (propfindDirectory C r st dav c) := by
  cases c with
  | some c =>
    have hroot := h.shows_item_coln (hc c rfl) dav.props
    refine Prog.Ensures.ite (fun _ => ?_) fun _ => ?_
    · refine Prog.Ensures.ret fun _ hdb => ⟨fun i hi => ?_, hdb⟩
      obtain rfl := List.mem_singleton.mp hi
      exact hroot
    · refine Prog.Ensures.bind (dbCollectionResources_ensures c.id) fun res => Prog.Ensures.pure_pre fun hres => ?_
      refine Prog.Ensures.ret fun _ hdb => ⟨fun i hi => ?_, hdb⟩
      rcases List.mem_cons.mp hi with rfl | hi
      · exact hroot
      · obtain ⟨res', hres', rfl⟩ := List.mem_map.mp hi
        exact h.shows_item_res (hc c rfl) (hres res' hres') dav.props
  | none =>
    have hroot : Shows R db₀ (.prncpl dav.props) := shows_none rfl rfl
    refine Prog.Ensures.ite (fun _ => ?_) fun _ => ?_
    · refine Prog.Ensures.ret fun _ hdb => ⟨fun i hi => ?_, hdb⟩
      obtain rfl := List.mem_singleton.mp hi
      exact hroot
    · refine Prog.Ensures.ret fun _ hdb => ⟨fun i hi => ?_, hdb⟩
      rcases List.mem_cons.mp hi with rfl | hi
      · exact hroot
      rcases List.mem_cons.mp hi with rfl | hi
      · exact shows_none rfl rfl
      rcases List.mem_cons.mp hi with rfl | hi
      · exact shows_none rfl rfl
      · obtain ⟨c', hc', rfl⟩ := List.mem_map.mp hi
        exact h.shows_item_coln hc' dav.props

/-- A handler that shows one resource of the requested collection. -/
theorem Admitted.loadResource_serves (h : Admitted R db₀ method st) (hcfg : st.cfg = some cfg) (dav : Caldav) :
    Serves R db₀ (do
      match ← loadResource C st.resource cfg.id with
      | .error => return httpError 505
      | .absent => return httpError 404
      | .found res => return .send 207 [.res cfg res dav.props]) := by
  refine Prog.Ensures.bind (loadResource_ensures _ _) fun res => Prog.Ensures.pure_pre fun hres => ?_
  cases res with
  | error => exact status_serves 505
  | absent => exact status_serves 404
  | found p =>
    refine Prog.Ensures.ret fun db hdb => Confined.of_same hdb.store fun i hi => ?_
    obtain rfl := List.mem_singleton.mp hi
    exact h.shows_item_res (h.cfg cfg hcfg) hres dav.props

theorem methodReport_serves (h : Admitted R db₀ method st) : Serves R db₀ (methodReport C caldavParse r st) := by
  unfold methodReport
  cases hcfg : st.cfg with
  | none => exact status_serves 403
  | some cfg =>
    refine req2caldav_serves fun dav => Prog.Ensures.ite (fun _ => status_serves 415) fun _ => ?_
    refine Prog.Ensures.ite (fun _ => h.loadResource_serves hcfg dav) fun _ => Prog.Ensures.ite (fun _ => ?_) fun _ => ?_
    · exact (h.propfindListLoop_lists dav dav.hrefs).serves 207
    · refine (h.propfindDirectory_lists dav ?_).serves 207
      rintro _ ⟨⟩
      exact h.cfg cfg hcfg

theorem methodPropfind_serves (h : Admitted R db₀ method st) : Serves R db₀ (methodPropfind C caldavParse r st) := by
  refine req2caldav_serves fun dav => Prog.Ensures.ite (fun _ => status_serves 415) fun _ => ?_
  cases hcfg : st.cfg with
  | some cfg =>
    refine Prog.Ensures.ite (fun _ => h.loadResource_serves hcfg dav) fun _ => ?_
    refine (h.propfindDirectory_lists dav ?_).serves 207
    rintro _ ⟨⟩
    exact h.cfg cfg hcfg
  | none =>
    refine Prog.Ensures.ite (fun _ => status_serves 403) fun _ => Prog.Ensures.ite (fun _ => ?_) fun _ => ?_
    · refine Prog.Ensures.ret fun db hdb => Confined.of_same hdb.store fun i hi => ?_
      obtain rfl := List.mem_singleton.mp hi
      exact shows_none rfl rfl
    · refine (h.propfindDirectory_lists dav ?_).serves 207
      intro c hc
      cases hc

end Handlers

/-! ## Pages -/

/-- The principal who is logged in, with its collections and its rights. -/
structure LoggedIn (R : Rights) (db : Db) (p : Prncpl) : Prop where
  cols : ∀ c ∈ p.cols, ∃ row ∈ db.collection, row.coln = c ∧ row.principal = p.id
  read : R.read p.id
  write : R.write p.id

section Pages
variable {R : Rights} {f : Fields} {st : Login}

/-- A page that leaves the store alone and answers with a status. -/
theorem rc_serves {α : Type} {p : DbProg α} (hp : Prog.Ensures (SameStore db₀) p fun _ => SameStore db₀)
    (status : α → Nat) : Serves R db₀ (p >>= fun rc => Prog.ret (httpError (status rc))) :=
  Prog.Ensures.bind (hp.imp (fun _ h => h.store) fun _ _ h => h) fun _ =>
    Prog.Ensures.ret fun _ h => Confined.of_same h shows_nil

theorem dbCollectionLoadid_ensures (id pid : Int) :
    Prog.Ensures (SameRows db₀) (dbCollectionLoadid id pid) fun res db =>
      res.Is (fun c => ∃ row ∈ db₀.collection, row.coln = c ∧ row.principal = pid) ∧ SameRows db₀ db := by
  unfold dbCollectionLoadid
  rw [dbCollectionGet_eq]
  refine Prog.Ensures.atom fun e db h => ?_
  unfold query
  split
  · refine ⟨?_, h⟩
    dsimp only
    cases hget : Sql.colGetId pid id db with
    | none => trivial
    | some row =>
      have hfound : row.principal = pid ∧ row.id = id := by simpa using List.find?_some hget
      exact ⟨row, h.collection ▸ List.mem_of_find?_eq_some hget, rfl, hfound.1⟩
  · exact ⟨trivial, h⟩

/-- A page that changes a collection of the principal, chosen by its number. -/
theorem LoggedIn.loadid_serves (h : LoggedIn R db₀ st.prncpl) (hk : ColKeyed db₀) (id : Int)
    {g : Coln → DbProg Bool} (hg : ∀ c, Prog.Ensures (Touches c.id db₀) (g c) fun _ => Touches c.id db₀) :
    Serves R db₀ (do
      match ← dbCollectionLoadid id st.prncpl.id with
      | .error => return httpError 500
      | .absent => return httpError 400
      | .found coln =>
        let _ ← g coln
        return httpError 200) := by
  refine Prog.Ensures.bind (dbCollectionLoadid_ensures id st.prncpl.id) fun res => Prog.Ensures.pure_pre fun hres => ?_
  cases res with
  | error => exact status_serves 500
  | absent => exact status_serves 400
  | found c =>
    obtain ⟨row, hrow, rfl, howner⟩ := hres
    refine Prog.Ensures.bind ((hg row.coln).imp (fun _ hs => Touches.of_same hs.store) fun _ _ ht => ht) fun _ => ?_
    exact Prog.Ensures.ret fun _ ht => ht.confined hk hrow rfl (howner ▸ h.write) shows_nil

/-- At most a collection of the principal has been created. -/
structure Adds (pid : Int) (db₀ db : Db) : Prop where
  resource : db.resource = db₀.resource
  kept : ∀ c ∈ db₀.collection, c ∈ db.collection
  coln : ∀ c ∈ db.collection, c ∈ db₀.collection ∨ c.principal = pid

theorem Adds.insert {pid : Int} {url : Bytes} {db db' : Db} (h : Adds pid db₀ db)
    (hins : Sql.colInsert pid url db = some db') : Adds pid db₀ db' := by
  unfold Sql.colInsert at hins
  split at hins
  · cases hins
  · cases hins
    refine ⟨h.resource, fun c hc => List.mem_append_left _ (h.kept c hc), fun c hc => ?_⟩
    rcases List.mem_append.mp hc with hc | hc
    · exact h.coln c hc
    · obtain rfl := List.mem_singleton.mp hc
      exact Or.inr rfl

theorem LoggedIn.newcoln_serves (h : LoggedIn R db₀ st.prncpl) : Serves R db₀ (jsonNewcoln f st) := by
  unfold jsonNewcoln
  cases f.path with
  | none => exact status_serves 400
  | some path =>
    have hnew : Prog.Ensures (Adds st.prncpl.id db₀) (dbCollectionNew path st.prncpl.id) fun _ => Adds st.prncpl.id db₀ :=
      dbCollectionNew_keeps fun _ _ ha hins => ha.insert hins
    have hsame : ∀ db, SameRows db₀ db → Adds st.prncpl.id db₀ db := fun db hs =>
      ⟨hs.resource, fun c hc => hs.collection ▸ hc, fun c hc => Or.inl (hs.collection ▸ hc)⟩
    refine Prog.Ensures.bind (hnew.imp hsame fun _ _ ha => ha) fun rc => Prog.Ensures.ret fun db ha => ?_
    refine ⟨?_, ?_, nofun⟩
    · rintro c (⟨hold, hgone⟩ | ⟨hnew, hnow⟩)
      · exact absurd (ha.kept c hold) hgone
      · rw [(ha.coln c hnow).resolve_left hnew]
        exact h.write
    · intro r hr
      rw [ha.resource] at hr
      exact absurd hr not_changed

theorem dbPrncplIdentify_ensures (email : Bytes) :
    Prog.Ensures (SameRows db₀) (dbPrncplIdentify email) fun _ => SameRows db₀ := dbPrncplIdentify_keeps email

theorem LoggedIn.pages_serves (h : LoggedIn R db₀ st.prncpl) (hk : ColKeyed db₀) (page : Page) :
    Serves R db₀ (pages f st page) := by
  have hproxy : ∀ (db : Db) proxy seq, SameStore db₀ db → SameStore db₀ { db with proxy := proxy, proxySeq := seq } :=
    fun _ _ _ hs => hs
  have hprincipal : ∀ (db : Db) principal, SameStore db₀ db → SameStore db₀ { db with principal := principal } :=
    fun _ _ hs => hs
  cases page with
  | delcoln =>
    change Serves R db₀ (jsonDelcoln f st)
    unfold jsonDelcoln
    cases f.id with
    | none => exact status_serves 400
    | some id =>
      exact h.loadid_serves hk id (g := fun c => dbCollectionRemove c.id) fun c =>
        dbCollectionRemove_keeps fun _ ht => ht.remove
  | setcolnprops =>
    change Serves R db₀ (jsonSetcolnprops f st)
    unfold jsonSetcolnprops
    cases f.id with
    | none => exact status_serves 400
    | some id =>
      exact h.loadid_serves hk id (g := fun c => dbCollectionUpdate (colnProps f c)) fun c =>
        dbCollectionUpdate_touches db₀ (colnProps f c)
  | newcoln => exact h.newcoln_serves
  | setpass =>
    change Serves R db₀ (jsonSetpass f st)
    unfold jsonSetpass
    cases f.pass with
    | none => exact status_serves 400
    | some pass => exact rc_serves (dbPrncplUpdate_keeps hprincipal _ _ _) pageStatus
  | setemail =>
    change Serves R db₀ (jsonSetemail f st)
    unfold jsonSetemail
    cases f.email with
    | none => exact status_serves 400
    | some email => exact rc_serves (dbPrncplUpdate_keeps hprincipal _ _ _) pageStatus
  | logout =>
    exact rc_serves (dbNonceDelete_keeps (fun _ _ hs => hs) _) fun _ => 200
  | index =>
    refine Prog.Ensures.ret fun db hdb => Confined.of_same hdb.store fun i hi => ?_
    obtain rfl := List.mem_singleton.mp hi
    refine ⟨fun c hc => ?_, nofun⟩
    obtain ⟨row, hrow, rfl, howner⟩ := h.cols c hc
    exact ⟨row, hrow, rfl, howner ▸ h.read⟩
  | delproxy =>
    change Serves R db₀ (jsonDelproxy f st)
    unfold jsonDelproxy
    cases f.email with
    | none => exact status_serves 400
    | some email =>
      refine Prog.Ensures.bind (dbPrncplIdentify_ensures email) fun id => ?_
      refine Prog.Ensures.ite (fun _ => status_serves 500) fun _ => ?_
      refine Prog.Ensures.ite (fun _ => status_serves 400) fun _ => ?_
      exact rc_serves (dbProxyRemove_keeps fun db hs => hproxy db _ db.proxySeq hs) fun removed => if removed then 200 else 500
  | modproxy =>
    change Serves R db₀ (jsonModproxy f st)
    unfold jsonModproxy
    split
    · refine Prog.Ensures.bind (dbPrncplIdentify_ensures _) fun id => ?_
      refine Prog.Ensures.ite (fun _ => status_serves 500) fun _ => ?_
      refine Prog.Ensures.ite (fun _ => status_serves 400) fun _ => ?_
      exact rc_serves (dbProxy_keeps (proxyInsert_keeps hproxy) fun db hs => hproxy db _ db.proxySeq hs) pageStatus
    · exact status_serves 400

theorem LoggedIn.methodJson_serves (h : LoggedIn R db₀ st.prncpl) (hk : ColKeyed db₀) (page : Option Page) :
    Serves R db₀ (methodJson f st page) := by
  cases page with
  | none => exact status_serves 404
  | some page => exact h.pages_serves hk page

end Pages

/-! ## Dispatch -/

section Dispatch
variable {R : Rights} {r : Kreq} {caldavParse : Bytes → Option Caldav} {etag : Bytes}

theorem loadedPrncpl_cols {name : Bytes} {row : PrncplRow} : ∀ c ∈ (loadedPrncpl name row db₀).cols,
    ∃ crow ∈ db₀.collection, crow.coln = c ∧ crow.principal = (loadedPrncpl name row db₀).id := by
  intro c hc
  obtain ⟨crow, hcrow, rfl⟩ := List.mem_map.mp hc
  obtain ⟨hmem, howner⟩ := List.mem_filter.mp hcrow
  exact ⟨crow, hmem, rfl, of_decide_eq_true howner⟩

theorem loggedIn {R : Rights} {name : Bytes} {row : PrncplRow} (hread : R.read (int32 row.id))
    (hwrite : R.write (int32 row.id)) : LoggedIn R db₀ (loadedPrncpl name row db₀) where
  cols := loadedPrncpl_cols
  read := hread
  write := hwrite

/-- What a proxy entry stands for in the table. -/
theorem mem_proxies {name : Bytes} {row : PrncplRow} {x : ProxyEntry} (hx : x ∈ (loadedPrncpl name row db₀).proxies) :
    ∃ xrow ∈ db₀.proxy, xrow.principal = int32 row.id ∧ xrow.proxy = x.proxy ∧ xrow.bits = x.bits := by
  obtain ⟨⟨prow, xrow⟩, hpair, rfl⟩ := List.mem_map.mp hx
  obtain ⟨xrow', hxrow', heq⟩ := List.mem_filterMap.mp hpair
  obtain ⟨hmem, hprincipal⟩ := List.mem_filter.mp hxrow'
  cases hfind : db₀.principal.find? fun p => p.id = xrow'.proxy with
  | none =>
    rw [hfind] at heq
    cases heq
  | some prow' =>
    rw [hfind] at heq
    cases heq
    exact ⟨xrow, hmem, of_decide_eq_true hprincipal, rfl, rfl⟩

theorem proxyAllows_write {method : Method} {bits : Int} (h : proxyAllows method bits)
    (hmethod : method = .put ∨ method = .proppatch ∨ method = .delete) : bits = PROXY_WRITE := by
  rcases hmethod with rfl | rfl | rfl <;> exact of_decide_eq_true h

/-- The requested principal, of which the one logged in may do what the method does. -/
structure Granted (R : Rights) (db : Db) (method : Method) (p : Prncpl) : Prop where
  cols : ∀ c ∈ p.cols, ∃ row ∈ db.collection, row.coln = c ∧ row.principal = p.id
  read : R.read p.id
  write : method = .put ∨ method = .proppatch ∨ method = .delete → R.write p.id

/-- What an attempt that goes on has, and one that ends does not show. -/
def Goes {α : Type} (P : α → Prop) : Except Reply α → Prop
  | .ok a => P a
  | .error reply => reply.items = []

/-- Whoever is in the path, the client goes on with what it has been granted. -/
theorem loadRequested_ensures {name : Bytes} {row : PrncplRow} (principal : Bytes) (hpage : ¬r.Dynamic) :
    Prog.Ensures (SameRows db₀) (loadRequested r.method principal (loadedPrncpl name row db₀)) fun res db =>
      Goes (fun p => Granted (rights32 db₀ r principal name row.id) db₀ r.method p.1) res ∧ SameRows db₀ db := by
  refine Prog.Ensures.ite (fun hown => Prog.Ensures.ret fun _ h => ⟨?_, h⟩) fun hother => ?_
  · exact ⟨loadedPrncpl_cols, Or.inl ⟨Or.inr hown, rfl⟩, fun hmethod => Or.inl ⟨Or.inr ⟨hown, hmethod⟩, rfl⟩⟩
  refine Prog.Ensures.bind (dbPrncplLoad_ensures principal) fun res => Prog.Ensures.pure_pre fun hres => ?_
  cases res with
  | error => exact Prog.Ensures.ret fun _ h => ⟨rfl, h⟩
  | absent => exact Prog.Ensures.ret fun _ h => ⟨rfl, h⟩
  | found p =>
    obtain ⟨prow, hprow, rfl⟩ := hres
    dsimp only
    split
    · exact Prog.Ensures.ret fun _ h => ⟨rfl, h⟩
    next x hfind =>
      obtain ⟨xrow, hxrow, hprincipal, hproxy, hbits⟩ := mem_proxies (List.mem_of_find?_eq_some hfind)
      have hfound := List.find?_some hfind
      have hself : xrow.proxy = int32 row.id := hproxy.trans (of_decide_eq_true hfound).symm
      have hlends : xrow.Lends db₀ principal row.id (int32 prow.id) := ⟨prow, hprow, rfl, hxrow, hprincipal, hself⟩
      refine Prog.Ensures.ite (fun hallows => Prog.Ensures.ret fun _ h => ⟨?_, h⟩) fun _ =>
        Prog.Ensures.ret fun _ h => ⟨rfl, h⟩
      refine ⟨loadedPrncpl_cols, Or.inr ⟨hpage, hother, xrow, hlends⟩, fun hmethod => ?_⟩
      refine Or.inr ⟨hpage, hother, hmethod, xrow, hlends, ?_⟩
      rw [hbits]
      exact proxyAllows_write hallows hmethod

theorem requestedCfg_goes (collection : Bytes) (p : Prncpl) :
    Goes (fun cfg => ∀ c, cfg = some c → c ∈ p.cols) (requestedCfg collection p) := by
  unfold requestedCfg
  split
  · exact nofun
  · split
    next c hfind =>
      rintro _ ⟨⟩
      exact List.mem_of_find?_eq_some hfind
    · split
      · exact nofun
      · rfl

theorem handle_serves (hkeyed : Keyed db₀) (hk : ColKeyed db₀) {st : State} (h : Admitted R db₀ r.method st) :
    Serves R db₀ (handle C caldavParse r st etag) := by
  unfold handle
  cases hm : r.method with
  | put => exact methodPut_serves hkeyed hk (hm ▸ h) etag
  | propfind => exact methodPropfind_serves h
  | proppatch => exact methodProppatch_serves hk (hm ▸ h)
  | post => exact status_serves _
  | get => exact Prog.Ensures.ite (fun _ => status_serves 404) fun _ => methodGet_serves h
  | report => exact methodReport_serves h
  | delete => exact methodDelete_serves hk (hm ▸ h)
  | options => exact status_serves 405
  | other => exact status_serves 405
  | max => exact status_serves 405

/-- A reply that shows nothing. -/
theorem silent_serves {reply : Reply} (h : reply.items = []) : Serves R db₀ (Prog.ret reply) := by
  refine Prog.Ensures.ret fun db hdb => Confined.of_same hdb.store ?_
  rw [h]
  exact shows_nil

theorem serve_serves (hkeyed : Keyed db₀) (hk : ColKeyed db₀) (path : Bytes × Bytes × Bytes) (name : Bytes)
    (row : PrncplRow) {st : Login} (hst : st.prncpl = loadedPrncpl name row db₀) :
    Serves (rights32 db₀ r path.1 name row.id) db₀ (serve C caldavParse r path st etag) := by
  refine Prog.Ensures.ite (fun hpage => ?_) fun hpage => ?_
  · have hlogin : LoggedIn (rights32 db₀ r path.1 name row.id) db₀ (loadedPrncpl name row db₀) :=
      loggedIn (Or.inl ⟨Or.inl hpage, rfl⟩) (Or.inl ⟨Or.inl hpage, rfl⟩)
    exact (hst ▸ hlogin).methodJson_serves hk r.page
  refine Prog.Ensures.ite (fun _ => silent_serves rfl) fun _ => ?_
  rw [hst]
  refine Prog.Ensures.bind (loadRequested_ensures path.1 hpage) fun res => Prog.Ensures.pure_pre fun hres => ?_
  cases res with
  | error reply => exact silent_serves hres
  | ok p =>
    have hcfg := requestedCfg_goes path.2.1 p.1
    dsimp only
    cases hreq : requestedCfg path.2.1 p.1 with
    | error reply =>
      rw [hreq] at hcfg
      exact silent_serves hcfg
    | ok cfg =>
      rw [hreq] at hcfg
      exact handle_serves hkeyed hk ⟨hres.cols, hcfg, hres.read, hres.write⟩

theorem authenticate_ensures (auth : Digest) (draws : List Bytes) :
    Prog.Ensures (SameRows db₀) (authenticate auth draws) fun res db =>
      Goes (fun login => ∃ row, Sql.prncplGet auth.user db₀ = some row ∧
        login.prncpl = loadedPrncpl auth.user row db₀) res ∧ SameRows db₀ db := by
  have hnonce : ∀ (db : Db) nonce, SameRows db₀ db → SameRows db₀ { db with nonce := nonce } :=
    fun _ _ h => ⟨h.collection, h.resource, h.proxy, h.principal⟩
  have hseq : ∀ (db : Db) nonce seq, SameRows db₀ db → SameRows db₀ { db with nonce := nonce, nonceSeq := seq } :=
    fun _ _ _ h => ⟨h.collection, h.resource, h.proxy, h.principal⟩
  refine Prog.Ensures.bind (dbPrncplLoad_ensures auth.user) fun res => Prog.Ensures.pure_pre fun hres => ?_
  cases res with
  | error => exact Prog.Ensures.ret fun _ h => ⟨rfl, h⟩
  | absent => exact Prog.Ensures.ret fun _ h => ⟨rfl, h⟩
  | found p =>
    refine Prog.Ensures.ite (fun _ => Prog.Ensures.ret fun _ h => ⟨rfl, h⟩) fun _ => ?_
    refine Prog.Ensures.bind (nonceValidate_keeps hnonce hseq _ _ draws) fun rc => ?_
    refine Prog.Ensures.ite (fun _ => Prog.Ensures.ret fun _ h => ⟨rfl, h⟩) fun _ => ?_
    refine Prog.Ensures.ite (fun _ => Prog.Ensures.ret fun _ h => ⟨rfl, h⟩) fun _ => ?_
    refine Prog.Ensures.ite (fun _ => Prog.Ensures.ret fun _ h => ⟨rfl, h⟩) fun _ => ?_
    exact Prog.Ensures.ret fun _ h => ⟨hres, h⟩

/-- Every request is confined to rights that include those its answer goes by. -/
theorem main_serves (hkeyed : Keyed db₀) (hk : ColKeyed db₀) {auth : Digest} (hauth : r.auth = some auth)
    {row : PrncplRow} (hrow : Sql.prncplGet auth.user db₀ = some row)
    (hR : ∀ principal, r.Loads principal → (rights32 db₀ r principal auth.user row.id).Within R) (draws : List Bytes) :
    Serves R db₀ (main C caldavParse r etag draws) := by
  unfold main
  rw [hauth]
  dsimp only
  split
  · exact status_serves 405
  · exact status_serves 200
  next hmax hoptions =>
    refine Prog.Ensures.ite (fun _ => status_serves 401) fun hauthorised => ?_
    refine Prog.Ensures.ite (fun _ => silent_serves rfl) fun hpath => ?_
    split
    · exact silent_serves rfl
    next path hpaths =>
      refine Prog.Ensures.bind (authenticate_ensures auth draws) fun res => Prog.Ensures.pure_pre fun hres => ?_
      cases res with
      | error reply => exact silent_serves hres
      | ok login =>
        obtain ⟨row', hrow', hlogin⟩ := hres
        cases hrow.symm.trans hrow'
        have hloads : r.Loads path.1 :=
          ⟨hmax, hoptions, ⟨auth, hauth, by simpa using hauthorised⟩, hpath, path, hpaths, rfl⟩
        exact (serve_serves hkeyed hk path auth.user row hlogin).mono (hR path.1 hloads)

end Dispatch

/-! ## Access control -/

/-- Where the own number fits, and the permissions of the principal in the path, the
server goes by the rights of the table. -/
theorem rights32_within {db : Db} {r : Kreq} {principal user : Bytes} {a : Int} (ha : int32 a = a)
    (hbits : ∀ (x : ProxyRow) q, x.Lends db principal a q → int32 x.bits = PROXY_WRITE → x.bits = PROXY_WRITE) :
    (rights32 db r principal user a).Within (rights db a) := by
  constructor
  · rintro q (⟨-, rfl⟩ | ⟨-, -, x, -, -, -, hx, hprincipal, hproxy⟩)
    · exact Or.inl ha
    · exact Or.inr ⟨x, hx, hprincipal, hproxy.trans ha⟩
  · rintro q (⟨-, rfl⟩ | ⟨-, -, -, x, hlends, hwrite⟩)
    · exact Or.inl ha
    · have hbits := hbits x q hlends hwrite
      obtain ⟨-, -, -, hx, hprincipal, hproxy⟩ := hlends
      exact Or.inr ⟨x, hx, hprincipal, hproxy.trans ha, hbits⟩

/-- Whatever the request, what it changes is owned by someone for whom the principal
may write, and what it shows by someone for whom it may read, provided that, where the
request gets to `state_load`, the low 32 bits of the numbers that the answer goes by give
no right that the numbers do not. -/
theorem access_confined (C : Libc) (caldavParse : Bytes → Option Caldav) (r : Kreq) (etag : Bytes) (draws : List Bytes)
    (cs : ℕ → Choice) (db : Db) (auth : Digest) (row : PrncplRow) (hkeyed : Keyed db) (hk : ColKeyed db)
    (hauth : r.auth = some auth) (hrow : Sql.prncplGet auth.user db = some row)
    (hfit : ∀ principal, r.Loads principal → (rights32 db r principal auth.user row.id).Within (rights db row.id)) :
    Confined (rights db row.id) db ((main C caldavParse r etag draws).run cs db).2.1
      ((main C caldavParse r etag draws).run cs db).1.items :=
  main_serves hkeyed hk hauth hrow hfit draws cs db (SameRows.refl db)

/-- The calendar of `joe`, another principal with the given number, and a nonce. -/
def Db.twoPrincipals (id : Int) : Db :=
  { Db.oneEvent with
    principal := Db.oneEvent.principal ++ [⟨ascii "eve", ascii "hash", ascii "eve@example.com", id⟩]
    principalSeq := id
    nonce := [⟨ascii "A1", 0, 1⟩]
    nonceSeq := 1 }

/-- `eve` asks for the removal of the collection with number 1. -/
def delcolnByEve : Kreq :=
  { Kreq.bare .post (ascii "/delcoln") with
    mime := .appJson
    page := some .delcoln
    auth := some ⟨true, ascii "eve", ascii "A1", 1, fun _ => 1⟩
    fields := ⟨none, none, none, none, none, some 1, none, none, none⟩ }

theorem twoPrincipals_keyed (id : Int) : Keyed (.twoPrincipals id) := by
  refine ⟨fun r hr r' hr' _ => ?_, fun r hr => ?_⟩
  · rw [List.mem_singleton.mp hr, List.mem_singleton.mp hr']
  · rw [List.mem_singleton.mp hr]
    exact Int.le_refl 1

theorem twoPrincipals_colKeyed (id : Int) : ColKeyed (.twoPrincipals id) := by
  intro c hc c' hc' _
  rw [List.mem_singleton.mp hc, List.mem_singleton.mp hc']

/-- With a small number `eve` removes nothing of `joe`. -/
theorem access_confined_delcoln : Confined (rights (.twoPrincipals 2) 2) (.twoPrincipals 2)
    ((main .utc (fun _ => none) delcolnByEve [] []).run (fun _ => .calm) (.twoPrincipals 2)).2.1
    ((main .utc (fun _ => none) delcolnByEve [] []).run (fun _ => .calm) (.twoPrincipals 2)).1.items :=
  access_confined .utc (fun _ => none) delcolnByEve [] [] (fun _ => .calm) (.twoPrincipals 2)
    ⟨true, ascii "eve", ascii "A1", 1, fun _ => 1⟩ ⟨ascii "eve", ascii "hash", ascii "eve@example.com", 2⟩
    (twoPrincipals_keyed 2) (twoPrincipals_colKeyed 2) rfl (by decide +kernel)
    fun _ _ => rights32_within (by decide) fun _ _ ⟨_, _, _, hx, _⟩ => absurd hx List.not_mem_nil

/-- With the number 2³² + 1 the server takes `eve` for `joe`, whose number is 1. -/
theorem access_not_confined : ¬∀ (C : Libc) (caldavParse : Bytes → Option Caldav) (r : Kreq) (etag : Bytes)
    (draws : List Bytes) (cs : ℕ → Choice) (db : Db) (auth : Digest) (row : PrncplRow), Keyed db → ColKeyed db →
    r.auth = some auth → Sql.prncplGet auth.user db = some row →
    Confined (rights db row.id) db ((main C caldavParse r etag draws).run cs db).2.1
      ((main C caldavParse r etag draws).run cs db).1.items := by
  intro h
  have hconfined := h .utc (fun _ => none) delcolnByEve [] [] (fun _ => .calm) (.twoPrincipals (2 ^ 32 + 1))
    ⟨true, ascii "eve", ascii "A1", 1, fun _ => 1⟩ ⟨ascii "eve", ascii "hash", ascii "eve@example.com", 2 ^ 32 + 1⟩
    (twoPrincipals_keyed _) (twoPrincipals_colKeyed _) rfl (by decide +kernel)
  have hgone : ((main .utc (fun _ => none) delcolnByEve [] []).run (fun _ => .calm)
      (.twoPrincipals (2 ^ 32 + 1))).2.1.collection = [] := by decide +kernel
  have hwrite := hconfined.coln (Sql.newCol 1 (ascii "calendar") 1)
    (Or.inl ⟨List.mem_singleton_self _, by rw [hgone]; exact List.not_mem_nil⟩)
  rcases hwrite with hself | ⟨x, hx, -⟩
  · exact absurd hself (by decide)
  · cases hx

end Kcaldav
