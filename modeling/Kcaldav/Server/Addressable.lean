import Kcaldav.Server.Invariant
import Kcaldav.Store.History

/-! # Addressable resources

A resource is stored, loaded and removed under the last segment of a path, decoded. To
`GET` and `DELETE` a path without such a segment is that of the collection, which `PUT`
does not ask.
-/
namespace Kcaldav
open CString

variable {C : Libc} {caldavParse : Bytes → Option Caldav} {r : Kreq} {st : State} {etag : Bytes} {row : ResRow}
  {cs : ℕ → Choice} {db db' : Db}

/-! ## Requests on the path of a row -/

/-- The path is that of the row. -/
def OnPath (st : State) (row : ResRow) : Prop := st.resource = row.url ∧ ∃ cfg, st.cfg = some cfg ∧ cfg.id = row.collection

/-- The answer to a `GET` of a row, which the row's text may refuse. -/
def getReply (C : Libc) (r : Kreq) (row : ResRow) (e : Choice) : Reply :=
  match if e.quiet 4 then (icalParse C none e.erange row.data 0).1 else none with
  | none => httpError 505
  | some (ical, _) =>
    if headerDigest r.ifNoneMatch = some row.etag then { httpError 304 with etag := some row.etag }
    else { Reply.send 200 [.calendar (row.res ical)] with etag := some row.etag }

/-- A `DELETE` with a condition comes to a row: nothing but the row goes, and it goes where the
answer says so and the condition is met. -/
structure Removes (row : ResRow) (digest : Option Bytes) (e : Choice) (db db' : Db) (status : Option Nat) : Prop where
  others : ∀ x ∈ db.resource, x ≠ row → x ∈ db'.resource
  collections : db'.collection.map ColRow.id = db.collection.map ColRow.id
  gone : status = some 204 → (∀ tag, digest = some tag → tag = row.etag) → ¬e.commitFails → row ∉ db'.resource

/-- The row has a name, and requests on its path come to it. -/
structure Addressable (C : Libc) (caldavParse : Bytes → Option Caldav) (db : Db) (row : ResRow) : Prop where
  named : row.url ≠ []
  get : ∀ r st etag cs, r.method = .get → OnPath st row →
    ((handle C caldavParse r st etag).run cs db).1 = getReply C r row (cs 0)
  delete : ∀ r st etag cs, r.method = .delete → OnPath st row →
    Removes row (headerDigest r.ifMatch) (cs 0) db ((handle C caldavParse r st etag).run cs db).2.1
      ((handle C caldavParse r st etag).run cs db).1.status

theorem methodGet_run {cfg : Coln} (hcfg : st.cfg = some cfg) (hname : st.resource ≠ [])
    (hget : Sql.resGet cfg.id st.resource db = some row) : ((methodGet C r st).run cs db).1 = getReply C r row (cs 0) := by
  unfold methodGet getReply
  rw [if_neg hname, hcfg]
  dsimp only
  rw [loadResource_eq C, Prog.atom_bind, Prog.run_act]
  unfold query
  cases (cs 0).quiet 4 with
  | false => rfl
  | true =>
    rw [if_pos rfl, if_pos rfl]
    dsimp only
    rcases hparse : (icalParse C none (cs 0).erange row.data 0).1 with _ | ⟨ical, q⟩
    · have hload : resourceLoaded C st.resource cfg.id (cs 0).erange db = .error := by simp only [resourceLoaded, hget, hparse]
      rw [hload]
      rfl
    · have hload : resourceLoaded C st.resource cfg.id (cs 0).erange db = .found (row.res ical) := by
        simp only [resourceLoaded, hget, hparse]
      rw [hload]
      dsimp only [ResRow.res]
      by_cases hmatch : headerDigest r.ifNoneMatch = some row.etag
      · rw [if_pos hmatch, if_pos hmatch]
        rfl
      · rw [if_neg hmatch, if_neg hmatch]
        rfl

section Removes
variable {digest : Option Bytes} {e : Choice} {status : Option Nat}

theorem Removes.nothing (hstatus : status = some 204 → ∃ tag, digest = some tag ∧ (tag = row.etag → e.commitFails)) :
    Removes row digest e db db status where
  others _ hx _ := hx
  collections := rfl
  gone h204 hdigest hcommit := by
    obtain ⟨tag, htag, hfails⟩ := hstatus h204
    exact absurd (hfails (hdigest tag htag)) hcommit

/-- The rows but this one stay, and so do the collections. -/
theorem Removes.filter {keep : ResRow → Bool} (hkeep : ∀ x ∈ db.resource, x ≠ row → keep x)
    (hgone : status = some 204 → (∀ tag, digest = some tag → tag = row.etag) → keep row = false)
    (hres : db'.resource = db.resource.filter keep) (hcol : db'.collection.map ColRow.id = db.collection.map ColRow.id) :
    Removes row digest e db db' status where
  others x hx hne := hres ▸ List.mem_filter.mpr ⟨hx, hkeep x hx hne⟩
  collections := hcol
  gone h204 hdigest _ hmem := by
    rw [hres] at hmem
    have hkept := (List.mem_filter.mp hmem).2
    rw [hgone h204 hdigest] at hkept
    cases hkept

theorem colUpdateCtag_ids (id : Int) (db : Db) : (Sql.colUpdateCtag id db).collection.map ColRow.id = db.collection.map ColRow.id := by
  unfold Sql.colUpdateCtag
  rw [List.map_map]
  refine List.map_congr_left fun c _ => ?_
  dsimp only [Function.comp]
  split <;> rfl

end Removes

/-- A `DELETE` on the path of a row. -/
theorem methodDelete_removes {cfg : Coln} (hn : Named db) (hrow : row ∈ db.resource) (hname : row.url ≠ [])
    (hcfg : st.cfg = some cfg) (hid : cfg.id = row.collection) (hres : st.resource = row.url) :
    Removes row (headerDigest r.ifMatch) (cs 0) db ((methodDelete r st).run cs db).2.1 ((methodDelete r st).run cs db).1.status := by
  have hget : Sql.resGet cfg.id st.resource db = some row := by
    rw [hid, hres]
    exact resGet_of_mem hn hrow
  have hother : ∀ x ∈ db.resource, x ≠ row → ¬(x.url = st.resource ∧ x.collection = cfg.id) := by
    rintro x hx hne ⟨hurl, hcol⟩
    exact hne (hn x hx row hrow (hcol.trans hid) (hurl.trans hres))
  have hrun := methodDelete_run r cs db hcfg (hres ▸ hname)
  rw [Prod.ext_iff] at hrun
  obtain ⟨hstatus, hleft⟩ := hrun
  dsimp only at hstatus hleft
  rw [hstatus, hleft]
  cases hdigest : headerDigest r.ifMatch with
  | none =>
    dsimp only
    rw [dbResourceRemove_run]
    have hkeep : ∀ x ∈ db.resource, x ≠ row → decide ¬(x.url = st.resource ∧ x.collection = cfg.id) :=
      fun x hx hne => decide_eq_true (hother x hx hne)
    have hgone : (decide ¬(row.url = st.resource ∧ row.collection = cfg.id)) = false := by simp [hres, hid]
    split
    · split
      · exact Removes.filter hkeep (fun _ _ => hgone) rfl (colUpdateCtag_ids _ _)
      · exact Removes.filter hkeep (fun _ _ => hgone) rfl rfl
    · exact Removes.nothing nofun
  | some tag =>
    dsimp only
    have hkeep : ∀ x ∈ db.resource, x ≠ row → decide ¬(x.url = st.resource ∧ x.collection = cfg.id ∧ x.etag = tag) :=
      fun x hx hne => decide_eq_true fun hall => hother x hx hne ⟨hall.1, hall.2.1⟩
    unfold resourceDelete committed
    split
    · rw [resGetEtag_eq hn hget]
      split
      next hnone =>
        refine Removes.nothing fun _ => ⟨tag, rfl, fun htag => ?_⟩
        rw [if_pos htag.symm] at hnone
        cases hnone
      · split
        · dsimp only
          split
          next hfails => exact Removes.nothing fun _ => ⟨tag, rfl, fun _ => hfails⟩
          · refine Removes.filter hkeep (fun _ htag => ?_) rfl (colUpdateCtag_ids _ _)
            simp [hres, hid, htag tag rfl]
        · exact Removes.nothing nofun
    · exact Removes.nothing nofun

theorem addressable_of_named (hn : Named db) (hrow : row ∈ db.resource) (hname : row.url ≠ []) :
    Addressable C caldavParse db row where
  named := hname
  get r st etag cs hget hpath := by
    obtain ⟨hres, cfg, hcfg, hid⟩ := hpath
    have hst : st.resource ≠ [] := hres ▸ hname
    unfold handle
    rw [hget]
    dsimp only
    rw [if_neg hst]
    refine methodGet_run hcfg hst ?_
    rw [hid, hres]
    exact resGet_of_mem hn hrow
  delete r st etag cs hdelete hpath := by
    obtain ⟨hres, cfg, hcfg, hid⟩ := hpath
    unfold handle
    rw [hdelete]
    exact methodDelete_removes hn hrow hname hcfg hid hres

/-! ## Storing without a name -/

/-- Every resource has a name. -/
def UrlsNonempty (db : Db) : Prop := ∀ row ∈ db.resource, row.url ≠ []

theorem UrlsNonempty.resUpdate (h : UrlsNonempty db) (data etag : Bytes) (id : Int) : UrlsNonempty (Sql.resUpdate data etag id db) := by
  intro row hrow
  obtain ⟨row, hold, rfl⟩ := List.mem_map.mp hrow
  split <;> exact h row hold

theorem UrlsNonempty.resInsert_iff (h : UrlsNonempty db) {data url etag : Bytes} {colid : Int}
    (hins : Sql.resInsert data url colid etag db = some db') : UrlsNonempty db' ↔ url ≠ [] := by
  unfold UrlsNonempty
  rw [(resInsert_eq hins).1]
  constructor
  · intro hall
    exact hall ⟨colid, url, etag, data, db.resourceSeq + 1⟩ (List.mem_append_right _ (List.mem_singleton_self _))
  · intro hurl row hrow
    rcases List.mem_append.mp hrow with hrow | hrow
    · exact h row hrow
    · rw [List.mem_singleton.mp hrow]
      exact hurl

/-- A name that no resource has is refused only where there is no collection. -/
theorem UrlsNonempty.resInsert_none (h : UrlsNonempty db) (data etag : Bytes) (colid : Int) :
    Sql.resInsert data [] colid etag db = none ↔ ¬∃ c ∈ db.collection, c.id = colid := by
  have hfree : Sql.resGet colid [] db = none := by
    cases hget : Sql.resGet colid [] db with
    | none => rfl
    | some row =>
      obtain ⟨hrow, -, hurl⟩ := mem_of_resGet hget
      exact absurd hurl (h row hrow)
  rw [resInsert_eq_none, hfree]
  simp

/-- A `PUT` stores a resource under whatever name the path has, the empty one too. -/
theorem methodPut_named_iff (hurls : UrlsNonempty db) :
    UrlsNonempty ((methodPut C r st etag).run cs db).2.1 ↔
      ¬(st.resource = [] ∧ putDigest r = some none ∧ (cs 0).quiet 6 ∧ (∃ body, req2ical C r = .ok body) ∧
        ∃ cfg, st.cfg = some cfg ∧ ∃ c ∈ db.collection, c.id = cfg.id) := by
  cases hcfg : st.cfg with
  | none =>
    have hdb : ((methodPut C r st etag).run cs db).2.1 = db := by
      unfold methodPut
      rw [hcfg]
      rfl
    rw [hdb]
    exact iff_of_true hurls fun ⟨_, _, _, _, _, hsome, _⟩ => nomatch hsome
  | some cfg =>
    rw [methodPut_db C hcfg]
    cases req2ical C r with
    | error reply => exact iff_of_true hurls fun ⟨_, _, _, ⟨_, hbody⟩, _⟩ => nomatch hbody
    | ok body =>
      rcases putDigest r with _ | _ | tag
      · exact iff_of_true hurls fun ⟨_, hdigest, _⟩ => nomatch hdigest
      · dsimp only [putStore]
        rw [dbResourceNew_run]
        cases hquiet : (cs 0).quiet 6 with
        | false => exact iff_of_true hurls fun ⟨_, _, hq, _⟩ => nomatch hq
        | true =>
          cases hins : Sql.resInsert (cstr body.val) st.resource cfg.id etag db with
          | none =>
            refine iff_of_true hurls fun ⟨hres, _, _, _, cfg', hsome, hcol⟩ => ?_
            cases hsome
            rw [hres, hurls.resInsert_none] at hins
            exact hins hcol
          | some db' =>
            have hiff : UrlsNonempty db' ↔ ¬(st.resource = [] ∧ some none = some (none : Option Bytes) ∧ true = true ∧
                (∃ b, (.ok body : Except Reply Body) = .ok b) ∧ ∃ cfg', some cfg = some cfg' ∧ ∃ c ∈ db.collection, c.id = cfg'.id) := by
              rw [hurls.resInsert_iff hins]
              constructor
              · rintro hne ⟨hres, -⟩
                exact hne hres
              · intro hno hres
                refine hno ⟨hres, rfl, rfl, ⟨body, rfl⟩, cfg, rfl, ?_⟩
                by_contra hcol
                rw [hres, (hurls.resInsert_none _ _ _).mpr hcol] at hins
                cases hins
            cases (cs 1).quiet 3 <;> exact hiff
      · refine iff_of_true ?_ fun ⟨_, hdigest, _⟩ => nomatch hdigest
        exact dbResourceUpdate_keeps (fun _ h => h) (fun id db h => h.resUpdate _ _ id) cs db hurls

/-- A resource that a `PUT` makes is on the path of the `PUT`. -/
theorem methodPut_onPath (hrow : row ∈ ((methodPut C r st etag).run cs db).2.1.resource) (hnew : ∀ x ∈ db.resource, x.id ≠ row.id) :
    OnPath st row := by
  have hnot : row ∉ db.resource := fun hmem => hnew row hmem rfl
  cases hcfg : st.cfg with
  | none =>
    unfold methodPut at hrow
    rw [hcfg] at hrow
    exact absurd hrow hnot
  | some cfg =>
    rw [methodPut_db C hcfg] at hrow
    cases hreq : req2ical C r with
    | error reply =>
      rw [hreq] at hrow
      exact absurd hrow hnot
    | ok body =>
      rcases hdigest : putDigest r with _ | _ | tag
      · rw [hreq, hdigest] at hrow
        exact absurd hrow hnot
      · rw [hreq, hdigest] at hrow
        have hmade : Prog.Ensures (fun d => row ∈ d.resource → OnPath st row)
            (dbResourceNew body.val st.resource cfg.id etag) fun _ d => row ∈ d.resource → OnPath st row := by
          refine dbResourceNew_keeps (fun _ h => h) fun d d' hd hins hmem => ?_
          rw [(resInsert_eq hins).1] at hmem
          rcases List.mem_append.mp hmem with hmem | hmem
          · exact hd hmem
          · rw [List.mem_singleton.mp hmem]
            exact ⟨rfl, cfg, hcfg, rfl⟩
        exact hmade cs db (fun hmem => absurd hmem hnot) hrow
      · rw [hreq, hdigest] at hrow
        have hids : Prog.Ensures (fun d => ∀ x ∈ d.resource, x.id ≠ row.id)
            (dbResourceUpdate C body.val st.resource tag cfg.id etag) fun _ d => ∀ x ∈ d.resource, x.id ≠ row.id := by
          refine dbResourceUpdate_keeps (fun _ h => h) fun id d h x hx => ?_
          obtain ⟨y, hy, rfl⟩ := List.mem_map.mp hx
          split <;> exact h y hy
        exact absurd rfl (hids cs db hnew row hrow)

/-! ## Runs -/

/-- An unconditional `PUT` of a calendar into a collection has a name for it. -/
def ServerStep.PutsNamed (C : Libc) : ServerStep → Prop
  | .request r _ _ => r.method = .put → putDigest r = some none → ∀ body, req2ical C r = .ok body →
      ∀ path, httpPaths r.fullpath = some path → path.2.1 ≠ [] → path.2.2 ≠ []
  | .passwd _ => True

/-- Every resource has a name, which is its own in its collection. -/
structure AllNamed (db : Db) : Prop where
  unique : Named db
  named : UrlsNonempty db

namespace AllNamed

theorem fewer (h : AllNamed db) (hrows : ∀ row ∈ db'.resource, row ∈ db.resource) : AllNamed db' :=
  ⟨h.unique.fewer hrows, fun row hrow => h.named row (hrows row hrow)⟩

theorem congr (h : AllNamed db) (hrows : db'.resource = db.resource) : AllNamed db' := h.fewer fun _ hrow => hrows ▸ hrow

theorem resInsert (h : AllNamed db) {data url etag : Bytes} {colid : Int} (hurl : url ≠ [])
    (hins : Sql.resInsert data url colid etag db = some db') : AllNamed db' :=
  ⟨h.unique.resInsert hins, (h.named.resInsert_iff hins).mpr hurl⟩

theorem colInsert (h : AllNamed db) {p : Int} {url : Bytes} (hins : Sql.colInsert p url db = some db') : AllNamed db' := by
  unfold Sql.colInsert at hins
  split at hins
  · cases hins
  · cases hins
    exact h.congr rfl

theorem kept : Kept AllNamed fun _ => True where
  nonce _ _ _ h := h.congr rfl
  principal _ _ _ h := h.congr rfl
  proxyRemove _ _ _ h := h.congr rfl
  ctag _ _ h := h.congr rfl
  colRemove _ _ h := h.fewer fun _ hrow => List.mem_of_mem_filter hrow
  colInsert _ _ _ _ h hins := h.colInsert hins
  resFilter _ _ h := h.fewer fun _ hrow => List.mem_of_mem_filter hrow
  resUpdate data etag id _ h := ⟨h.unique.resUpdate data etag id, h.named.resUpdate data etag id⟩
  loaded _ _ _ _ := trivial
  colUpdate _ _ _ _ h hupd := by
    rcases colUpdate_cases hupd with rfl | ⟨_, _, _, _, rfl⟩
    · exact h
    · exact h.congr rfl

theorem bears {draws : List Bytes} (hput : (ServerStep.request r etag draws).PutsNamed C) : Bears AllNamed (fun _ => True) C caldavParse r.checked where
  put hm hdigest body hbody path hpath hcol _ _ _ _ _ h hins := h.resInsert (hput hm hdigest body hbody path hpath hcol) hins
  props _ _ _ _ _ _ _ := trivial
  form _ _ := trivial
  proxy _ _ _ _ _ := by
    refine ⟨fun db db' h hins => ?_, fun db h => h.congr rfl⟩
    unfold Sql.proxyInsert at hins
    split at hins
    · cases hins
    · cases hins
      exact h.congr rfl

end AllNamed

theorem serverRun_allNamed {steps : List ServerStep} (hsteps : ∀ s ∈ steps, s.PutsNamed C) :
    Prog.Ensures AllNamed (serverRun C caldavParse steps) fun _ => AllNamed := by
  refine serverRun_keeps fun s hs => ?_
  have hput := hsteps s hs
  cases s with
  | request r etag draws => exact AllNamed.kept.request (AllNamed.bears hput) etag draws
  | passwd a =>
    refine AllNamed.kept.passwd a fun f _ hsafe _ _ _ _ _ h hins => h.resInsert ?_ hins
    rintro hnil
    rw [hnil] at hsafe
    cases hsafe

/-- Where no `PUT` leaves out the name, the path of every resource is its own. -/
theorem serverRun_addressable (hunique : Named db) (hnamed : UrlsNonempty db) (steps : List ServerStep)
    (hsteps : ∀ s ∈ steps, s.PutsNamed C) (cs : ℕ → Choice) :
    ∀ row ∈ (serverStore C caldavParse steps cs db).resource,
      Addressable C caldavParse (serverStore C caldavParse steps cs db) row := by
  have hall : AllNamed (serverStore C caldavParse steps cs db) := serverRun_allNamed hsteps cs db ⟨hunique, hnamed⟩
  intro row hrow
  exact addressable_of_named hall.unique hrow (hall.named row hrow)

/-! ## A calendar without a name -/

/-- `joe` puts a calendar at the path. -/
def putByJoe (path : Bytes) : Kreq :=
  { Kreq.bare .put path with
    auth := some ⟨true, ascii "joe", ascii "A1", 1, fun _ => 1⟩
    fields := { (Kreq.bare .put path).fields with body := some ⟨.textCalendar, ascii "BEGIN:VCALENDAR\nEND:VCALENDAR\n"⟩ } }

/-- The store after that request. -/
def storeByJoe (path : Bytes) : Db :=
  serverStore .utc (fun _ => none) [.request (putByJoe path) (ascii "2-2") []] (fun _ => .calm) (.twoPrincipals 2)

theorem twoPrincipals_named : Named (.twoPrincipals 2) := by
  intro row hrow row' hrow' _ _
  rw [List.mem_singleton.mp hrow, List.mem_singleton.mp hrow']

theorem twoPrincipals_urlsNonempty : UrlsNonempty (.twoPrincipals 2) := by
  intro row hrow
  rw [List.mem_singleton.mp hrow]
  decide

/-- With a name it is addressable, and stored. -/
theorem serverRun_addressable_named :
    (∀ row ∈ (storeByJoe (ascii "/joe/calendar/b.ics")).resource,
      Addressable .utc (fun _ => none) (storeByJoe (ascii "/joe/calendar/b.ics")) row) ∧
    (storeByJoe (ascii "/joe/calendar/b.ics")).resource.map ResRow.url = [ascii "a.ics", ascii "b.ics"] := by
  refine ⟨serverRun_addressable twoPrincipals_named twoPrincipals_urlsNonempty
    [.request (putByJoe (ascii "/joe/calendar/b.ics")) (ascii "2-2") []] ?_ fun _ => .calm, by decide +kernel⟩
  intro s hs
  rw [List.mem_singleton.mp hs]
  intro _ _ _ _ path hpath _
  have hpath' : httpPaths (ascii "/joe/calendar/b.ics") = some path := hpath
  rw [show httpPaths (ascii "/joe/calendar/b.ics") = some (ascii "joe", ascii "calendar", ascii "b.ics") by decide +kernel] at hpath'
  cases hpath'
  decide +kernel

/-- At the path of the collection it is stored without one. -/
theorem serverRun_not_addressable :
    ¬∀ (C : Libc) (caldavParse : Bytes → Option Caldav) (db : Db), Named db → UrlsNonempty db →
      ∀ (steps : List ServerStep) (cs : ℕ → Choice), ∀ row ∈ (serverStore C caldavParse steps cs db).resource,
        Addressable C caldavParse (serverStore C caldavParse steps cs db) row := by
  intro h
  have hall := h .utc (fun _ => none) (.twoPrincipals 2) twoPrincipals_named twoPrincipals_urlsNonempty
    [.request (putByJoe (ascii "/joe/calendar/")) (ascii "2-2") []] fun _ => .calm
  have hurls : (storeByJoe (ascii "/joe/calendar/")).resource.map ResRow.url = [ascii "a.ics", []] := by decide +kernel
  have hmem : [] ∈ (storeByJoe (ascii "/joe/calendar/")).resource.map ResRow.url := by
    rw [hurls]
    exact List.mem_cons_of_mem _ (List.mem_singleton_self _)
  obtain ⟨row, hrow, hnil⟩ := List.mem_map.mp hmem
  exact (hall row hrow).named hnil

end Kcaldav
