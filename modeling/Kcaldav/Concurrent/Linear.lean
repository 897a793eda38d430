import Kcaldav.Concurrent.Asks

/-! # Requests and events

Every request, and every run of the administrator's tool, leaves the events that it may
leave, and its result vouches for a part of them, whatever other programs do in between.
-/
namespace Kcaldav
open CString

variable {firm : Prop} {C : Libc} {caldavParse : Bytes → Option Caldav} {r : Kreq} {etag : Bytes} {tr : List SpaceEvent}
  {P : Db → Prop} {ok : List SpaceEvent → Prop}

/-! ## Pages -/

section Pages
variable {st : Login} {user : Bytes}

theorem pageStatus_vouches (rc : Int) (evs : List SpaceEvent) :
    Vouches C caldavParse r etag firm evs (httpError (pageStatus rc)) := by
  refine vouches_status ?_ evs
  unfold pageStatus
  split
  · decide
  · split <;> decide

variable (hok : ok tr) (hP : (spaceDiscipline firm).Stable P) (huser : ∀ db, P db → IsPrncpl user st.prncpl.id db)
  (hpage : ∀ w, PageDoes r user st.nonce st.prncpl.account w → ok (tr ++ [w]))
include hok hP huser hpage

/-- Load a collection of the account and go on with it. -/
theorem loadid_traces {id : Int} {p : Coln → DbProg Reply} (h : ∀ (P' : Db → Prop) (c : Coln), (spaceDiscipline firm).Stable P' →
      (∀ db, P' db → IsCol (user, c.url) c.id db) →
      (spaceDiscipline firm).Traces ok tr P' (p c) fun tr' _ reply => Vouches C caldavParse r etag firm tr' reply) :
    (spaceDiscipline firm).Traces ok tr P (do
      match ← dbCollectionLoadid id st.prncpl.id with
      | .error => return httpError 500
      | .absent => return httpError 400
      | .found coln => p coln) fun tr' _ reply => Vouches C caldavParse r etag firm tr' reply := by
  refine .bind hok hP (dbCollectionLoadid_traces hok hP huser) ?_
  rintro tr' P' (_ | _ | c) - hP' ⟨rfl, rfl⟩
  · exact .ret (vouches_status (by decide) tr')
  · exact .ret (vouches_status (by decide) tr')
  · exact h _ c hP' fun db hp => hp.2 c rfl

theorem pages_traces (page : Page) (hrp : r.page = some page) : (spaceDiscipline firm).Traces ok tr P (pages r.fields st page)
    fun tr' _ reply => Vouches C caldavParse r etag firm tr' reply := by
  cases page with
  | delcoln =>
    change (spaceDiscipline firm).Traces ok tr P (jsonDelcoln r.fields st) _
    unfold jsonDelcoln
    split
    · exact .ret (vouches_status (by decide) tr)
    · refine loadid_traces hok hP huser hpage fun P' c hP' hcol => ?_
      exact .bind hok hP' (dbCollectionRemove_traces hok hP' hcol (hpage _ (.delcoln hrp))) fun tr' _ _ _ _ _ =>
        .ret (vouches_status (by decide) tr')
  | setcolnprops =>
    change (spaceDiscipline firm).Traces ok tr P (jsonSetcolnprops r.fields st) _
    unfold jsonSetcolnprops
    split
    · exact .ret (vouches_status (by decide) tr)
    · refine loadid_traces hok hP huser hpage fun P' c hP' hcol => ?_
      exact .bind hok hP' (dbCollectionUpdate_traces hok hP' hcol (c := colnProps r.fields c) rfl fun d hn hc hd =>
        hpage _ (.setcolnprops hrp ⟨hn, hc, hd⟩)) fun tr' _ _ _ _ _ => .ret (vouches_status (by decide) tr')
  | newcoln =>
    change (spaceDiscipline firm).Traces ok tr P (jsonNewcoln r.fields st) _
    unfold jsonNewcoln
    split
    · exact .ret (vouches_status (by decide) tr)
    next url hurl =>
      exact .bind hok hP (dbCollectionNew_traces hok hP huser (hpage _ (.newcoln hrp hurl))) fun tr' _ rc _ _ _ =>
        .ret (pageStatus_vouches rc tr')
  | setpass =>
    change (spaceDiscipline firm).Traces ok tr P (jsonSetpass r.fields st) _
    unfold jsonSetpass
    split
    · exact .ret (vouches_status (by decide) tr)
    next pass hpass =>
      exact .bind hok hP (dbPrncplUpdate_traces hok hP huser (hpage _ (.setpass hrp hpass))) fun tr' _ rc _ _ _ =>
        .ret (pageStatus_vouches rc tr')
  | setemail =>
    change (spaceDiscipline firm).Traces ok tr P (jsonSetemail r.fields st) _
    unfold jsonSetemail
    split
    · exact .ret (vouches_status (by decide) tr)
    next email hemail =>
      exact .bind hok hP (dbPrncplUpdate_traces hok hP huser (hpage _ (.setemail hrp hemail))) fun tr' _ rc _ _ _ =>
        .ret (pageStatus_vouches rc tr')
  | delproxy =>
    change (spaceDiscipline firm).Traces ok tr P (jsonDelproxy r.fields st) _
    unfold jsonDelproxy
    split
    · exact .ret (vouches_status (by decide) tr)
    · refine .bind hok hP (dbPrncplIdentify_traces hok hP _) ?_
      rintro tr' P' id hok' hP' ⟨rfl, other, hother⟩
      refine .ite (fun _ => .ret (vouches_status (by decide) tr')) fun hneg => ?_
      refine .ite (fun _ => .ret (vouches_status (by decide) tr')) fun hzero => ?_
      have hid : 0 < id := by omega
      refine .bind hok' hP' (dbProxyRemove_traces hok' hP' (fun db hp => huser db (hother db hp).1)
        (fun db hp => (hother db hp).2 hid) (hpage _ (.delproxy hrp))) fun tr'' _ removed _ _ _ => .ret (vouches_status ?_ tr'')
      split <;> decide
  | modproxy =>
    change (spaceDiscipline firm).Traces ok tr P (jsonModproxy r.fields st) _
    unfold jsonModproxy
    split
    next email bits _ hbits =>
      refine .bind hok hP (dbPrncplIdentify_traces hok hP _) ?_
      rintro tr' P' id hok' hP' ⟨rfl, other, hother⟩
      refine .ite (fun _ => .ret (vouches_status (by decide) tr')) fun hneg => ?_
      refine .ite (fun _ => .ret (vouches_status (by decide) tr')) fun hzero => ?_
      have hid : 0 < id := by omega
      exact .bind hok' hP' (dbProxy_traces hok' hP' (fun db hp => huser db (hother db hp).1) (fun db hp => (hother db hp).2 hid)
        (hpage _ (.modproxy hrp hbits))) fun tr'' _ rc _ _ _ => .ret (pageStatus_vouches rc tr'')
    · exact .ret (vouches_status (by decide) tr)
  | logout =>
    change (spaceDiscipline firm).Traces ok tr P (jsonLogout st) _
    rw [jsonLogout, dbNonceDelete_eq]
    refine .bind hok hP (statement_traces (Q := fun _ _ _ => True) hok hP trivial trivial fun db db' hi hp hdb => ?_) fun tr' _ _ _ _ _ =>
      .ret (vouches_status (by decide) tr')
    cases hdb
    exact Or.inr ⟨_, nonceRemove_moves hi st.nonce, hpage _ (.logout hrp), trivial⟩
  | index =>
    refine .ret (Reply.Plain.vouches ⟨fun i hi => ?_, rfl, by simp [Reply.send]⟩ tr)
    obtain rfl := List.mem_singleton.mp hi
    rfl

end Pages

/-! ## Dispatch -/

/-- The permission that is seen when the principals are loaded who may act for the requested one. -/
def grantSeen (method : Method) (owner user : Bytes) (id : Int) (proxies : List ProxyEntry) : Option SpaceEvent :=
  match proxies.find? fun x => id = x.proxy with
  | none => none
  | some x => if proxyAllows method (int32 x.bits) then some (.grant owner user (int32 x.bits)) else none

/-- A permission that is found is there. -/
theorem grantSeen_step {method : Method} {owner user : Bytes} {p id : Int} {w : SpaceEvent} {db : Db} (hi : Integral db)
    (howner : IsPrncpl owner p db) (huser : IsPrncpl user id db)
    (hw : grantSeen method owner user id ((Sql.proxyIterPrncpl p db).map forwardEntry) = some w) :
    Space.Step w db.space db.space ∧ ∃ bits, w = .grant owner user bits ∧ proxyAllows method bits := by
  unfold grantSeen at hw
  split at hw
  · cases hw
  next x hfind =>
    split at hw
    next hallows =>
      cases hw
      refine ⟨.sight trivial ?_, _, rfl, hallows⟩
      have hfound := List.find?_some hfind
      have hid : id = x.proxy := of_decide_eq_true hfound
      obtain ⟨y, hy, rfl⟩ := List.mem_map.mp (List.mem_of_find?_eq_some hfind)
      obtain ⟨row, hrow, hget⟩ := List.mem_filterMap.mp hy
      obtain ⟨hmem, hprincipal⟩ := List.mem_filter.mp hrow
      obtain ⟨q, -, rfl⟩ := Option.map_eq_some_iff.mp hget
      have hp : row.principal = p := of_decide_eq_true hprincipal
      have hpr : db.proxyGet p id = some row := hi.proxyGet_iff.mpr ⟨hmem, Prod.ext hp hid.symm⟩
      simp only [SpaceEvent.Enabled, Db.space, howner.prncplId hi, huser.prncplId hi, Option.bind_some, hpr, Option.map_some]
      rfl
    · cases hw

/-- The reply that ends a request before its handler is reached. -/
def EndsOr {α : Type} (P : α → Prop) : Except Reply α → Prop
  | .error reply => ∃ status, 400 ≤ status ∧ reply = httpError status
  | .ok a => P a

theorem plain_of_ends {reply : Reply} (h : ∃ status, 400 ≤ status ∧ reply = httpError status) : reply.Plain := by
  obtain ⟨status, hstatus, rfl⟩ := h
  exact plain_status (by omega)

theorem not_succeeds {status : Nat} (h : 300 < status) (hne : status ≠ 304) : ¬(httpError status).Succeeds := by
  rintro ⟨_, ⟨⟩, hlt | heq⟩
  · omega
  · exact hne heq

theorem loadRequested_traces {method : Method} {principal user : Bytes} {prncpl : Prncpl} (hok : ok tr)
    (hP : (spaceDiscipline firm).Stable P)
    (huser : ∀ db, P db → IsPrncpl user prncpl.id db ∧ ∀ c ∈ prncpl.cols, IsCol (user, c.url) c.id db) (hname : prncpl.name = user)
    (hgrant : principal ≠ user → ∀ bits, proxyAllows method bits → ok (tr ++ [.grant principal user bits])) :
    (spaceDiscipline firm).Traces ok tr P (loadRequested method principal prncpl) fun tr' P' => EndsOr fun q =>
      q.1.name = principal ∧ (∀ db, P' db → ∀ c ∈ q.1.cols, IsCol (principal, c.url) c.id db) ∧
        ((principal = user ∧ tr' = tr) ∨
          principal ≠ user ∧ ∃ bits, proxyAllows method bits ∧ tr' = tr ++ [.grant principal user bits]) := by
  unfold loadRequested
  refine .ite (fun heq => .ret ?_) fun hne => ?_
  · obtain rfl : principal = user := heq.trans hname
    exact ⟨hname, fun db hp => (huser db hp).2, Or.inl ⟨rfl, rfl⟩⟩
  have hne' : principal ≠ user := fun heq => hne (heq.trans hname.symm)
  refine .bind hok hP (dbPrncplLoad_traces hok hP principal (fun _ => none) (grantSeen method principal user prncpl.id)
    (fun _ _ _ _ _ _ h => nomatch h) ?_) ?_
  · intro db row w hi hp hprincipal hw
    obtain ⟨hstep, bits, rfl, hallows⟩ := grantSeen_step hi hprincipal (huser db hp).1 hw
    refine ⟨hstep, ?_⟩
    rw [Option.toList_none, List.append_nil]
    exact hgrant hne' bits hallows
  rintro tr' P' (_ | _ | p) - - hload
  · exact .ret ⟨_, by decide, rfl⟩
  · exact .ret ⟨_, by decide, rfl⟩
  obtain ⟨hpname, ⟨row, -, rfl⟩, hfacts⟩ := hload p rfl
  unfold grantSeen
  cases hfind : p.proxies.find? fun x => prncpl.id = x.proxy with
  | none =>
    simp only [hfind]
    exact .ret ⟨_, by decide, rfl⟩
  | some x =>
    simp only [hfind]
    refine .ite (fun hallows => .ret ?_) fun _ => .ret ⟨_, by decide, rfl⟩
    refine ⟨hpname, fun db hp => (hfacts db hp).2.2, Or.inr ⟨hne', int32 x.bits, hallows, ?_⟩⟩
    rw [if_pos hallows, Option.toList_none, List.append_nil, Option.toList_some]

theorem requestedCfg_ends (collection : Bytes) (p : Prncpl) :
    EndsOr (fun cfg => ∀ c, cfg = some c → c ∈ p.cols ∧ c.url = collection) (requestedCfg collection p) := by
  unfold requestedCfg
  split
  · exact nofun
  · split
    next c hfind =>
      rintro _ ⟨⟩
      have hfound := List.find?_some hfind
      exact ⟨List.mem_of_find?_eq_some hfind, of_decide_eq_true hfound⟩
    · split
      · exact nofun
      · exact ⟨_, by decide, rfl⟩

theorem serve_traces {auth : Digest} {login : Login}
    (hsum : ∀ evs, Performs C caldavParse r etag auth login.prncpl.account evs → ok (tr ++ evs))
    {path : Bytes × Bytes × Bytes} (hpath : httpPaths r.fullpath = some path) (hname : login.prncpl.name = auth.user)
    (hnonce : login.nonce = auth.nonce) (hP : (spaceDiscipline firm).Stable P)
    (huser : ∀ db, P db → IsPrncpl auth.user login.prncpl.id db ∧ ∀ c ∈ login.prncpl.cols, IsCol (auth.user, c.url) c.id db) :
    (spaceDiscipline firm).Traces ok tr P (serve C caldavParse r path login etag)
      fun tr' _ reply => Vouches C caldavParse r etag firm tr' reply := by
  have hok : ok tr := by
    have hnil := hsum [] .nothing
    rwa [List.append_nil] at hnil
  unfold serve
  refine .ite (fun hjson => ?_) fun _ => .ite (fun _ => .ret ?_) fun _ => ?_
  · unfold methodJson
    cases hpage : r.page with
    | none => exact .ret (vouches_status (by decide) _)
    | some page =>
      refine pages_traces hok hP (fun db hp => (huser db hp).1) (fun w hw => ?_) page hpage
      rw [hnonce] at hw
      exact hsum [w] (.page hjson hw)
  · exact Reply.Plain.vouches ⟨fun _ hi => absurd hi List.not_mem_nil, rfl, by simp [Reply.redirect]⟩ _
  · have hpath' : httpPaths r.fullpath = some (path.1, path.2.1, path.2.2) := hpath
    refine .bind hok hP (loadRequested_traces hok hP huser hname fun hne bits hbits =>
      hsum _ (.other hpath' hne hbits (Or.inr nofun))) ?_
    rintro tr' P' (reply | ⟨q, bits⟩) hok' hP' hres
    · exact .ret ((plain_of_ends hres).vouches tr')
    obtain ⟨hq, hcols, htr⟩ := hres
    have hgo : GoesOn ok C caldavParse r etag (path.1, path.2.1) path.2.2 tr' := by
      intro evs hevs
      rcases htr with ⟨huser, rfl⟩ | ⟨hne, b, hb, rfl⟩
      · rw [huser] at hpath' hevs
        exact hsum evs (.own hpath' hevs)
      · rw [List.append_assoc]
        exact hsum _ (.other hpath' hne hb hevs)
    have hcfg := requestedCfg_ends path.2.1 q
    dsimp only
    cases hreq : requestedCfg path.2.1 q with
    | error reply =>
      rw [hreq] at hcfg
      exact .ret ((plain_of_ends hcfg).vouches tr')
    | ok cfg =>
      rw [hreq] at hcfg
      exact handle_traces hgo hP' ⟨hq, rfl, hcols, hcfg⟩

theorem authenticate_traces {auth : Digest} (hauth : r.auth = some auth) (draws : List Bytes) (hP : (spaceDiscipline firm).Stable P) :
    (spaceDiscipline firm).Traces (Asks C caldavParse r etag draws firm) [] P (authenticate auth draws) fun tr' P' => EndsOr fun login =>
      login.prncpl.name = auth.user ∧ login.nonce = auth.nonce ∧
        (∃ adm, 0 < auth.validatehash login.prncpl.account.hash ∧ Admits firm auth adm ∧
          tr' = .record auth.user login.prncpl.account :: adm) ∧
        ∀ db, P' db → IsPrncpl auth.user login.prncpl.id db ∧ ∀ c ∈ login.prncpl.cols, IsCol (auth.user, c.url) c.id db := by
  let seen : PrncplRow → Option SpaceEvent := fun row =>
    if 0 < auth.validatehash row.account.hash then some (.record auth.user row.account) else none
  have hsigned {acc : Account} (hsig : 0 < auth.validatehash acc.hash) : Asks C caldavParse r etag draws firm [.record auth.user acc] :=
    .signed hauth hsig
  refine .bind .nothing hP (dbPrncplLoad_traces .nothing hP auth.user seen (fun _ => none) (fun db row w hi hp hget hw => ?_)
    fun _ _ _ _ _ _ h => nomatch h) ?_
  · unfold seen at hw
    split at hw
    next hsig =>
      cases hw
      refine ⟨.sight trivial ?_, hsigned hsig⟩
      simp only [SpaceEvent.Enabled, Db.space, hget, Option.map_some]
    next => cases hw
  rintro tr' P' (_ | _ | p) hok' hP' hload
  · exact .ret ⟨_, by decide, rfl⟩
  · exact .ret ⟨_, by decide, rfl⟩
  obtain ⟨hname, ⟨row, hacc, rfl⟩, hfacts⟩ := hload p rfl
  refine .ite (fun _ => .ret ⟨_, by decide, rfl⟩) fun hsig => ?_
  rw [not_le] at hsig
  replace hsig : 0 < auth.validatehash p.account.hash := hsig
  have htr : [] ++ (seen row).toList ++ (none : Option SpaceEvent).toList = [.record auth.user p.account] := by simp [seen, hacc, hsig]
  rw [htr] at hok' ⊢
  have haccept : Asks C caldavParse r etag draws firm (.record auth.user p.account :: ([.accept auth.nonce auth.count] ++ [])) :=
    .served hauth hsig (Or.inl rfl) .nothing
  have hchallenge : ∀ n ∈ draws, ∀ culled, Asks C caldavParse r etag draws firm ([.record auth.user p.account] ++ [.challenge n culled]) :=
    fun n hn culled => .challenged hauth hsig hn
  refine .bind hok' hP' (nonceValidate_traces hok' hP' _ _ _ haccept hchallenge) ?_
  rintro tr' P'' rc - - hrc
  refine .ite (fun _ => .ret ⟨_, by decide, rfl⟩) fun _ => .ite (fun _ => .ret ⟨_, by decide, rfl⟩) fun _ =>
    .ite (fun _ => .ret ⟨_, by decide, rfl⟩) fun _ => .ret ?_
  obtain ⟨rfl, htr'⟩ := hrc (by omega)
  refine ⟨hname, rfl, ?_, fun db hp => (hfacts db hp).2⟩
  rcases htr' with rfl | ⟨hnot, rfl⟩
  · exact ⟨_, hsig, Or.inl rfl, rfl⟩
  · exact ⟨[], hsig, Or.inr ⟨hnot, rfl⟩, rfl⟩

/-- A request leaves what it asks, and its reply vouches for what it shows. -/
theorem main_traces (draws : List Bytes) :
    (spaceDiscipline firm).Traces (Asks C caldavParse r etag draws firm) [] (fun _ => True) (main C caldavParse r etag draws)
      fun tr' _ reply => Answered C caldavParse r etag firm tr' reply := by
  have hrefused {status : Nat} {tr : List SpaceEvent} (h : 400 ≤ status) : Answered C caldavParse r etag firm tr (httpError status) :=
    ⟨vouches_status (by omega) tr, fun _ hsucceeds => absurd hsucceeds (not_succeeds (by omega) (by omega))⟩
  unfold main
  split
  · exact .ret (hrefused (by decide))
  next hm => exact .ret ⟨vouches_status (by decide) _, fun hne => absurd hm hne⟩
  · split
    next => exact .ret (hrefused (by decide))
    next auth hauth =>
      refine .ite (fun _ => .ret (hrefused (by decide))) fun _ => .ite (fun _ => .ret ⟨?_, ?_⟩) fun _ => ?_
      · exact Reply.Plain.vouches ⟨fun _ hi => absurd hi List.not_mem_nil, rfl, by simp [Reply.redirect]⟩ _
      · rintro - ⟨_, ⟨⟩, hlt | heq⟩
        · exact absurd hlt (by decide)
        · cases heq
      · split
        next => exact .ret ⟨plain_silent.vouches _, fun _ ⟨_, h, _⟩ => by cases h⟩
        next path hpath =>
          refine .bind .nothing .unit (authenticate_traces hauth draws .unit) ?_
          rintro tr' P' (reply | login) - hP' hres
          · obtain ⟨status, hstatus, rfl⟩ := hres
            exact .ret (hrefused hstatus)
          · obtain ⟨hname, hnonce, ⟨adm, hsig, hadm, rfl⟩, hfacts⟩ := hres
            refine (serve_traces (fun evs => .served hauth hsig hadm) hpath hname hnonce hP' hfacts).grows.post fun tr'' _ reply h =>
              ⟨h.2, fun _ _ hfirm => ⟨auth, hauth, h.1 (List.mem_cons_of_mem _ ?_)⟩⟩
            rcases hadm with rfl | ⟨hnot, -⟩
            · exact List.mem_cons_self
            · exact absurd hfirm hnot

/-! ## The administrator's tool -/

section Passwd

namespace Passwd

/-- The record with what was given. A password that was entered is there as its hash. -/
def updated (a : Passwd) (acc : Account) : Account where
  hash := if a.setsPasswd then a.dnew else acc.hash
  email := a.email.getD acc.email

/-- The account was named with `-u`, or its old password was entered. -/
def Entitled (a : Passwd) (acc : Account) : Prop := a.altuser ∨ acc.hash = a.dold

end Passwd

/-- The calendar that is named with `-d`, which is made before any password is compared. -/
def AdminMakes (a : Passwd) (evs : List SpaceEvent) : Prop := evs = [] ∨ ∃ url, a.coln = some url ∧ evs = [.mkcalendar (a.user, url)]

/-- What the tool may do before it adds resources. -/
inductive AdminSets (a : Passwd) : List SpaceEvent → Prop
  | nothing : AdminSets a []
  | add (h : a.adduser) : AdminSets a [.mkaccount a.user ⟨a.dnew, a.email.getD a.hostEmail⟩ a.collection]
  | loaded {acc : Account} {made : List SpaceEvent} (h : ¬a.adduser) (hmade : AdminMakes a made) :
    AdminSets a (.record a.user acc :: made)
  | changed {acc : Account} {made : List SpaceEvent} (h : ¬a.adduser) (hmade : AdminMakes a made) (hmay : a.Entitled acc) :
    AdminSets a (.record a.user acc :: (made ++ [.account a.user (a.updated acc)]))

/-- The account has been made, or its record has been changed. -/
def HasSet (a : Passwd) (evs : List SpaceEvent) : Prop :=
  if a.adduser then .mkaccount a.user ⟨a.dnew, a.email.getD a.hostEmail⟩ a.collection ∈ evs
  else ∃ acc, a.Entitled acc ∧ .record a.user acc ∈ evs ∧ .account a.user (a.updated acc) ∈ evs

variable (C) in
/-- The resources that are made of the files that can be read. -/
def imported (a : Passwd) (fs : List ImportFile) : List SpaceEvent :=
  fs.filterMap fun f => (readWholeFile C f).map fun res => .create (a.user, a.collection) f.uid ⟨f.etag, cstr res⟩

variable (C) in
/-- The events that a run of the tool may leave: of the files the first ones, in their order,
once the record has been changed. What names the account asks for the owner of the database. -/
inductive AdminAsks (a : Passwd) : List SpaceEvent → Prop
  | nothing : AdminAsks a []
  | run {pre : List SpaceEvent} {fs : List ImportFile} (howned : a.adduser ∨ a.altuser → a.owned) (hpre : AdminSets a pre)
    (hfs : fs <+: a.argv) (hread : ∀ f ∈ fs, (readWholeFile C f).isSome) (hset : fs ≠ [] → ¬a.adduser → HasSet a pre) :
    AdminAsks a (pre ++ imported C a fs)

variable (C) in
/-- Where the tool succeeds all of it is done. A `COMMIT` that fails leaves out a new account. -/
def AdminAnswers (firm : Prop) (a : Passwd) (evs : List SpaceEvent) (status : Int) : Prop :=
  status = 0 → ∃ pre, evs = pre ++ imported C a a.argv ∧ (∀ f ∈ a.argv, (readWholeFile C f).isSome) ∧
    (firm ∨ ¬a.adduser → HasSet a pre)

variable {a : Passwd} {pre evs : List SpaceEvent} {w : SpaceEvent}

theorem AdminSets.of_mem (h : AdminSets a pre) (hw : w ∈ pre) :
    (a.adduser ∧ w = .mkaccount a.user ⟨a.dnew, a.email.getD a.hostEmail⟩ a.collection) ∨ (∃ acc, w = .record a.user acc) ∨
      (¬a.adduser ∧ ∃ url, a.coln = some url ∧ w = .mkcalendar (a.user, url)) ∨
      ∃ acc, ¬a.adduser ∧ a.Entitled acc ∧ .record a.user acc ∈ pre ∧ w = .account a.user (a.updated acc) := by
  have made {made : List SpaceEvent} (hmade : AdminMakes a made) (hw : w ∈ made) : ∃ url, a.coln = some url ∧ w = .mkcalendar (a.user, url) := by
    rcases hmade with rfl | ⟨url, hc, rfl⟩
    · cases hw
    · exact ⟨url, hc, List.mem_singleton.mp hw⟩
  cases h with
  | nothing => cases hw
  | add h => exact Or.inl ⟨h, List.mem_singleton.mp hw⟩
  | @loaded acc evs h hmade =>
    rcases List.mem_cons.mp hw with rfl | hw
    · exact Or.inr (Or.inl ⟨acc, rfl⟩)
    · exact Or.inr (Or.inr (Or.inl ⟨h, made hmade hw⟩))
  | @changed acc evs h hmade hmay =>
    rcases List.mem_cons.mp hw with rfl | hw
    · exact Or.inr (Or.inl ⟨acc, rfl⟩)
    rcases List.mem_append.mp hw with hw | hw
    · exact Or.inr (Or.inr (Or.inl ⟨h, made hmade hw⟩))
    · exact Or.inr (Or.inr (Or.inr ⟨acc, h, hmay, List.mem_cons_self, List.mem_singleton.mp hw⟩))

/-- What a run of the tool has left, and what it has seen before. -/
theorem AdminAsks.of_mem (h : AdminAsks C a evs) (hw : w ∈ evs) : (a.adduser ∨ a.altuser → a.owned) ∧
    ((a.adduser ∧ w = .mkaccount a.user ⟨a.dnew, a.email.getD a.hostEmail⟩ a.collection) ∨ (∃ acc, w = .record a.user acc) ∨
      (¬a.adduser ∧ ∃ url, a.coln = some url ∧ w = .mkcalendar (a.user, url)) ∨
      (∃ acc, ¬a.adduser ∧ a.Entitled acc ∧ .record a.user acc ∈ evs ∧ w = .account a.user (a.updated acc)) ∨
      (∃ f ∈ a.argv, ∃ res, readWholeFile C f = some res ∧ w = .create (a.user, a.collection) f.uid ⟨f.etag, cstr res⟩) ∧
        (¬a.adduser → ∃ acc, a.Entitled acc ∧ .record a.user acc ∈ evs)) := by
  cases h with
  | nothing => cases hw
  | @run pre fs howned hpre hfs hread hset =>
    refine ⟨howned, ?_⟩
    rcases List.mem_append.mp hw with hw | hw
    · rcases hpre.of_mem hw with hadd | hrecord | hmade | ⟨acc, hnot, hmay, hrecord, rfl⟩
      · exact Or.inl hadd
      · exact Or.inr (Or.inl hrecord)
      · exact Or.inr (Or.inr (Or.inl hmade))
      · exact Or.inr (Or.inr (Or.inr (Or.inl ⟨acc, hnot, hmay, List.mem_append_left _ hrecord, rfl⟩)))
    · obtain ⟨f, hf, hsome⟩ := List.mem_filterMap.mp hw
      obtain ⟨res, hres, rfl⟩ := Option.map_eq_some_iff.mp hsome
      refine Or.inr (Or.inr (Or.inr (Or.inr ⟨⟨f, hfs.subset hf, res, hres, rfl⟩, fun hnot => ?_⟩)))
      have hdone := hset (List.ne_nil_of_mem hf) hnot
      rw [HasSet, if_neg hnot] at hdone
      obtain ⟨acc, hmay, hrecord, -⟩ := hdone
      exact ⟨acc, hmay, List.mem_append_left _ hrecord⟩

variable (howned : a.adduser ∨ a.altuser → a.owned)
include howned

theorem adminAsks_sets (h : AdminSets a pre) : AdminAsks C a pre := by
  have hrun := @AdminAsks.run C a pre [] howned h List.nil_prefix nofun nofun
  rwa [imported, List.filterMap_nil, List.append_nil] at hrun

theorem importFiles_traces (hpre : AdminSets a pre) (hset : firm ∨ ¬a.adduser → HasSet a pre) {colid : Int} (fs₀ fs : List ImportFile)
    (hargv : a.argv = fs₀ ++ fs) (hread : ∀ f ∈ fs₀, (readWholeFile C f).isSome) (hP : (spaceDiscipline firm).Stable P)
    (hcol : ∀ db, P db → IsCol (a.user, a.collection) colid db) :
    (spaceDiscipline firm).Traces (AdminAsks C a) (pre ++ imported C a fs₀) P (importFiles C colid fs)
      fun tr' _ status => AdminAnswers C firm a tr' status := by
  induction fs generalizing fs₀ P with
  | nil =>
    rw [List.append_nil] at hargv
    refine .ret fun _ => ⟨pre, by rw [hargv], ?_, hset⟩
    rwa [hargv]
  | cons f fs ih =>
    have hfail {evs : List SpaceEvent} : AdminAnswers C firm a evs 1 := fun h => absurd h (by decide)
    have hok : AdminAsks C a (pre ++ imported C a fs₀) :=
      .run howned hpre ⟨f :: fs, hargv.symm⟩ hread fun _ hnot => hset (Or.inr hnot)
    unfold importFiles
    cases hf : readWholeFile C f with
    | none => exact .ret hfail
    | some res =>
      have himported : imported C a fs₀ ++ [.create (a.user, a.collection) f.uid ⟨f.etag, cstr res⟩] = imported C a (fs₀ ++ [f]) := by
        simp [imported, hf]
      have hargv' : a.argv = (fs₀ ++ [f]) ++ fs := by simpa using hargv
      have hread' : ∀ g ∈ fs₀ ++ [f], (readWholeFile C g).isSome := by
        intro g hg
        rcases List.mem_append.mp hg with hg | hg
        · exact hread g hg
        · rw [List.mem_singleton.mp hg, hf]
          rfl
      have hw : AdminAsks C a (pre ++ imported C a fs₀ ++ [.create (a.user, a.collection) f.uid ⟨f.etag, cstr res⟩]) := by
        rw [List.append_assoc, himported]
        exact .run howned hpre ⟨fs, hargv'.symm⟩ hread' fun _ hnot => hset (Or.inr hnot)
      refine .bind hok hP (dbResourceNew_traces hok hP hcol hw) ?_
      rintro tr' P' rc - hP' ⟨rfl, hcases⟩
      refine .ite (fun _ => .ret hfail) fun hrc => ?_
      rcases hcases with ⟨-, hle⟩ | rfl
      · exact absurd hle hrc
      · rw [List.append_assoc, himported]
        exact ih (fs₀ ++ [f]) hargv' hread' hP' hcol

theorem importResources_traces (hpre : AdminSets a pre) (hset : firm ∨ ¬a.adduser → HasSet a pre) (hP : (spaceDiscipline firm).Stable P) :
    (spaceDiscipline firm).Traces (AdminAsks C a) pre P (importResources C a) fun tr' _ status => AdminAnswers C firm a tr' status := by
  have hfail {evs : List SpaceEvent} : AdminAnswers C firm a evs 1 := fun h => absurd h (by decide)
  have hok : AdminAsks C a pre := adminAsks_sets howned hpre
  refine .bind hok hP (dbPrncplLoad_unseen hok hP a.user) ?_
  rintro tr' P' (_ | _ | p) - hP' ⟨rfl, hload⟩
  · exact .ret hfail
  · exact .ret hfail
  dsimp only
  split
  next => exact .ret hfail
  next col hfind =>
    have hfound := List.find?_some hfind
    have hurl : col.url = a.collection := of_decide_eq_true hfound
    have hcol : ∀ db, P' db → IsCol (a.user, a.collection) col.id db := fun db hp =>
      hurl ▸ (hload p rfl db hp).2.2 col (List.mem_of_find?_eq_some hfind)
    have hfiles := importFiles_traces (C := C) howned hpre hset [] a.argv rfl nofun hP' hcol
    rwa [imported, List.filterMap_nil, List.append_nil] at hfiles

theorem updatePrncpl_traces {p : Prncpl} (hnot : ¬a.adduser) {made : List SpaceEvent} (hmade : AdminMakes a made)
    (hP : (spaceDiscipline firm).Stable P) (hp : ∀ db, P db → IsPrncpl a.user p.id db) :
    (spaceDiscipline firm).Traces (AdminAsks C a) (.record a.user p.account :: made) P (updatePrncpl a p) fun tr' _ status =>
      status = 0 → AdminSets a tr' ∧ HasSet a tr' := by
  have hok : AdminAsks C a (.record a.user p.account :: made) := adminAsks_sets howned (.loaded hnot hmade)
  unfold updatePrncpl
  refine .ite (fun _ => .ret fun h => absurd h (by decide)) fun hright => ?_
  have hmay : a.Entitled p.account := by
    rw [not_and, not_not] at hright
    cases halt : a.altuser with
    | true => exact Or.inl halt
    | false => exact Or.inr (hright (by rw [halt]; rfl))
  have hdone : AdminSets a (.record a.user p.account :: made ++ [.account a.user (a.updated p.account)]) := .changed hnot hmade hmay
  refine .bind hok hP (dbPrncplUpdate_traces hok hP hp (adminAsks_sets howned hdone)) ?_
  rintro tr' P' c - - ⟨-, ⟨rfl, hc⟩ | rfl⟩
  · exact .ret fun h => absurd h (by simp [hc])
  · refine .ret fun _ => ⟨hdone, ?_⟩
    rw [HasSet, if_neg hnot]
    exact ⟨p.account, hmay, List.mem_append_left _ List.mem_cons_self, List.mem_append_right _ List.mem_cons_self⟩

theorem changePrncpl_traces (hnot : ¬a.adduser) : (spaceDiscipline firm).Traces (AdminAsks C a) [] (fun _ => True) (changePrncpl a)
    fun tr' _ status => status = 0 → AdminSets a tr' ∧ HasSet a tr' := by
  have hrecord {acc : Account} {made : List SpaceEvent} (hmade : AdminMakes a made) : AdminAsks C a (.record a.user acc :: made) :=
    adminAsks_sets howned (.loaded hnot hmade)
  refine .bind .nothing .unit (dbPrncplLoad_traces .nothing .unit a.user (fun row => some (.record a.user row.account)) (fun _ => none)
    (fun db row w hi _ hget hw => ?_) fun _ _ _ _ _ _ h => nomatch h) ?_
  · cases hw
    refine ⟨.sight trivial ?_, hrecord (Or.inl rfl)⟩
    simp only [SpaceEvent.Enabled, Db.space, hget, Option.map_some]
  rintro tr' P' (_ | _ | p) - hP' hload
  · exact .ret fun h => absurd h (by decide)
  · exact .ret fun h => absurd h (by decide)
  obtain ⟨-, ⟨row, hacc, htr⟩, hfacts⟩ := hload p rfl
  obtain rfl : tr' = [.record a.user p.account] := by simpa [hacc] using htr
  have hp : ∀ db, P' db → IsPrncpl a.user p.id db := fun db hdb => (hfacts db hdb).2.1
  dsimp only
  cases hcoln : a.coln with
  | none => exact updatePrncpl_traces howned hnot (Or.inl rfl) hP' hp
  | some coln =>
    have hmade : AdminMakes a [.mkcalendar (a.user, coln)] := Or.inr ⟨coln, hcoln, rfl⟩
    have hok : AdminAsks C a [.record a.user p.account] := hrecord (Or.inl rfl)
    refine .bind hok hP' (dbCollectionNew_traces hok hP' hp (hrecord hmade)) ?_
    rintro tr' P'' c - hP'' ⟨rfl, hcases⟩
    refine .ite (fun _ => .ret fun h => absurd h (by decide)) fun _ => ?_
    rcases hcases with ⟨rfl, -⟩ | rfl
    · exact updatePrncpl_traces howned hnot (Or.inl rfl) hP'' hp
    · exact updatePrncpl_traces howned hnot hmade hP'' hp

theorem setPrncpl_traces : (spaceDiscipline firm).Traces (AdminAsks C a) [] (fun _ => True) (setPrncpl a) fun tr' _ status =>
    status = 0 → (firm ∨ ¬a.adduser → HasSet a tr') ∧ AdminSets a tr' := by
  unfold setPrncpl
  refine .ite (fun hadd => ?_) fun hnot => (changePrncpl_traces howned hnot).post fun _ _ _ h hstatus =>
    ⟨fun _ => (h hstatus).2, (h hstatus).1⟩
  have hdone := AdminSets.add hadd
  refine .bind .nothing .unit (dbPrncplNew_traces .nothing .unit (adminAsks_sets howned hdone)) ?_
  rintro tr' P' c - - ⟨-, ⟨rfl, hc⟩ | rfl⟩
  · refine .ret fun h => ⟨fun hfirm => absurd h ?_, .nothing⟩
    have hle := hc (hfirm.resolve_right fun hnot => hnot hadd)
    simp [hle]
  · refine .ret fun _ => ⟨fun _ => ?_, hdone⟩
    rw [HasSet, if_pos hadd]
    exact List.mem_cons_self

omit howned in
/-- A run of the tool leaves what it may, and its status says that all is done. -/
theorem passwdMain_traces : (spaceDiscipline firm).Traces (AdminAsks C a) [] (fun _ => True) (passwdMain C a) fun tr' _ status =>
    AdminAnswers C firm a tr' status := by
  have hfail {evs : List SpaceEvent} : AdminAnswers C firm a evs 1 := fun h => absurd h (by decide)
  unfold passwdMain
  refine .ite (fun _ => .ret hfail) fun _ => .ite (fun _ => .ret hfail) fun _ => .ite (fun _ => .ret hfail) fun howner => ?_
  have howned : a.adduser ∨ a.altuser → a.owned := by
    intro hnamed
    by_contra hnot
    exact howner ⟨hnamed, by simpa using hnot⟩
  refine .bind .nothing .unit (setPrncpl_traces howned) ?_
  rintro tr' P' status - hP' hset
  refine .ite (fun _ => .ret hfail) fun hstatus => ?_
  obtain ⟨hdone, hsets⟩ := hset (not_not.mp hstatus)
  refine .ite (fun hargv => .ret fun _ => ⟨tr', ?_, ?_, hdone⟩) fun _ => importResources_traces howned hsets hdone hP'
  · rw [hargv, imported, List.filterMap_nil, List.append_nil]
  · rw [hargv]
    exact nofun

end Passwd

end Kcaldav
