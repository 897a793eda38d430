import Kcaldav.Concurrent.Moves
import Kcaldav.Server.Invariant

/-! # What a request asks of the space

The events that a request may leave, and what a reply vouches for of those it has left: the
record of the one who has signed the request is seen first, then the count of its nonce is
accepted, then the permission to act for another is seen, and then there are the one change
that the method makes or the looks that it takes.
-/
namespace Kcaldav
open CString

/-- The resource as it is seen in the event. -/
def SpaceEvent.Shows (p : Res) : SpaceEvent → Prop
  | .look _ url e => url = p.url ∧ e = p.entry
  | .listing _ es => (p.url, p.entry) ∈ es
  | _ => False

/-- The texts of a collection are those of the display. -/
def Coln.Displays (c : Coln) (d : Display) : Prop :=
  c.displayname = some d.displayname ∧ c.colour = some d.colour ∧ c.description = some d.description

section Asks
variable (C : Libc) (caldavParse : Bytes → Option Caldav) (r : Kreq) (etag : Bytes)

/-- The change that the method makes of the calendar or of the resource in its path. -/
inductive Changes (cal : CalName) (url : Bytes) : SpaceEvent → Prop
  | create {body : Body} (hm : r.method = .put) (hbody : req2ical C r = .ok body) (hcond : putDigest r = some none) :
    Changes cal url (.create cal url ⟨etag, cstr body.val⟩)
  | replace {body : Body} {tag : Bytes} (hm : r.method = .put) (hbody : req2ical C r = .ok body)
    (hcond : putDigest r = some (some tag)) : Changes cal url (.replace cal url tag ⟨etag, cstr body.val⟩)
  | remove (hm : r.method = .delete) (hurl : url ≠ []) (hcond : headerDigest r.ifMatch = none) : Changes cal url (.remove cal url)
  | removeIf {tag : Bytes} (hm : r.method = .delete) (hurl : url ≠ []) (hcond : headerDigest r.ifMatch = some tag) :
    Changes cal url (.removeIf cal url tag)
  | rmcalendar (hm : r.method = .delete) (hurl : url = []) : Changes cal url (.rmcalendar cal)
  | display {dav : Caldav} {c : Coln} {d : Display} (hm : r.method = .proppatch) (hbody : req2caldav caldavParse r = .ok dav)
    (hd : (dav.props.foldl proppatchSet c).Displays d) : Changes cal url (.display cal d)

/-- A look that the method takes. -/
inductive Looks (cal : CalName) (url : Bytes) : SpaceEvent → Prop
  | look {e : Entry} (hm : r.method = .get ∨ r.method = .propfind ∨ r.method = .report) (hurl : url ≠ []) :
    Looks cal url (.look cal url e)
  | listing {es : List (Bytes × Entry)} (hm : r.method = .propfind ∨ r.method = .report) (hurl : url = []) :
    Looks cal url (.listing cal es)
  | href {dav : Caldav} {href c u : Bytes} {e : Entry} (hm : r.method = .report) (hbody : req2caldav caldavParse r = .ok dav)
    (hhref : href ∈ dav.hrefs) (hpath : httpPaths (href.drop r.pname.length) = some (cal.1, c, u)) :
    Looks cal url (.look (cal.1, c) u e)

/-- What the method leaves: one change or looks. -/
def Fulfils (cal : CalName) (url : Bytes) (evs : List SpaceEvent) : Prop :=
  (∃ w, evs = [w] ∧ Changes C caldavParse r etag cal url w) ∨ ∀ w ∈ evs, Looks caldavParse r cal url w

/-- What a page does for the account that is logged in, whose record has been loaded. -/
inductive PageDoes (user nonce : Bytes) (acc : Account) : SpaceEvent → Prop
  | delcoln {url : Bytes} (hp : r.page = some .delcoln) : PageDoes user nonce acc (.rmcalendar (user, url))
  | setcolnprops {url : Bytes} {c : Coln} {d : Display} (hp : r.page = some .setcolnprops) (hd : (colnProps r.fields c).Displays d) :
    PageDoes user nonce acc (.display (user, url) d)
  | newcoln {url : Bytes} (hp : r.page = some .newcoln) (hf : r.fields.path = some url) : PageDoes user nonce acc (.mkcalendar (user, url))
  | setpass {hash : Bytes} (hp : r.page = some .setpass) (hf : r.fields.pass = some hash) :
    PageDoes user nonce acc (.account user ⟨hash, acc.email⟩)
  | setemail {email : Bytes} (hp : r.page = some .setemail) (hf : r.fields.email = some email) :
    PageDoes user nonce acc (.account user ⟨acc.hash, email⟩)
  | modproxy {other : Bytes} {bits : Int} (hp : r.page = some .modproxy) (hf : r.fields.bits = some bits) :
    PageDoes user nonce acc (.delegate user other (int32 bits))
  | delproxy {other : Bytes} (hp : r.page = some .delproxy) : PageDoes user nonce acc (.undelegate user other)
  | logout (hp : r.page = some .logout) : PageDoes user nonce acc (.logout nonce)

/-- What a request leaves when it has been accepted. -/
inductive Performs (auth : Digest) (acc : Account) : List SpaceEvent → Prop
  | nothing : Performs auth acc []
  | page {w : SpaceEvent} (hjson : r.mime = .appJson ∧ (r.method = .get ∨ r.method = .post)) (hw : PageDoes r auth.user auth.nonce acc w) :
    Performs auth acc [w]
  | own {c url : Bytes} {evs : List SpaceEvent} (hpath : httpPaths r.fullpath = some (auth.user, c, url))
    (hevs : Fulfils C caldavParse r etag (auth.user, c) url evs) : Performs auth acc evs
  | other {q c url : Bytes} {bits : Int} {evs : List SpaceEvent} (hpath : httpPaths r.fullpath = some (q, c, url)) (hq : q ≠ auth.user)
    (hbits : proxyAllows r.method bits) (hevs : Fulfils C caldavParse r etag (q, c) url evs) :
    Performs auth acc (.grant q auth.user bits :: evs)

/-- The count of a request is accepted. It is entered where no `COMMIT` fails. -/
def Admits (firm : Prop) (auth : Digest) (evs : List SpaceEvent) : Prop :=
  evs = [.accept auth.nonce auth.count] ∨ ¬firm ∧ evs = []

variable (draws : List Bytes) (firm : Prop)

/-- The events that a request may leave. First the record of the account is seen that its
digest fits. -/
inductive Asks : List SpaceEvent → Prop
  | nothing : Asks []
  | signed {auth : Digest} {acc : Account} (hauth : r.auth = some auth) (hsig : 0 < auth.validatehash acc.hash) :
    Asks [.record auth.user acc]
  | challenged {auth : Digest} {acc : Account} {n : Bytes} {culled : List Bytes} (hauth : r.auth = some auth)
    (hsig : 0 < auth.validatehash acc.hash) (hn : n ∈ draws) : Asks [.record auth.user acc, .challenge n culled]
  | served {auth : Digest} {acc : Account} {adm evs : List SpaceEvent} (hauth : r.auth = some auth)
    (hsig : 0 < auth.validatehash acc.hash) (hadm : Admits firm auth adm) (hevs : Performs C caldavParse r etag auth acc evs) :
    Asks (.record auth.user acc :: (adm ++ evs))

/-- What some replies say of the events: a resource that is shown has been looked at, a tag
is that of a look, and a `PUT` that is answered with `201` has made its change, unless a
`COMMIT` may fail. Of other changes no reply says anything: a `DELETE` is answered with `204`
also where it has removed nothing. -/
structure Vouches (evs : List SpaceEvent) (reply : Reply) : Prop where
  shown : ∀ i ∈ reply.items, ∀ p ∈ i.ress, ∃ w ∈ evs, w.Shows p
  tagged : ∀ tag, reply.etag = some tag → ∃ cal url e, .look cal url e ∈ evs ∧ e.etag = tag
  stored : r.method = .put → reply.status = some 201 → firm → ∃ w ∈ evs, ∃ cal url, Changes C caldavParse r etag cal url w

/-- The request is answered with what it has asked for. -/
def Reply.Succeeds (reply : Reply) : Prop := ∃ status, reply.status = some status ∧ (status < 300 ∨ status = 304)

/-- Only a request whose count has been accepted succeeds. `OPTIONS` asks for nothing. -/
structure Answered (evs : List SpaceEvent) (reply : Reply) : Prop extends Vouches C caldavParse r etag firm evs reply where
  entitled : r.method ≠ .options → reply.Succeeds → firm → ∃ auth, r.auth = some auth ∧ .accept auth.nonce auth.count ∈ evs

end Asks

variable {firm : Prop} {C : Libc} {caldavParse : Bytes → Option Caldav} {r : Kreq} {etag : Bytes} {tr : List SpaceEvent}
  {P : Db → Prop} {ok : List SpaceEvent → Prop}

/-- Before anything else the record has been seen that the digest fits. -/
theorem Asks.of_mem {draws : List Bytes} {evs : List SpaceEvent} {w : SpaceEvent} (h : Asks C caldavParse r etag draws firm evs)
    (hw : w ∈ evs) : ∃ auth acc, r.auth = some auth ∧ 0 < auth.validatehash acc.hash ∧ .record auth.user acc ∈ evs ∧
      (w = .record auth.user acc ∨ (∃ n ∈ draws, ∃ culled, w = .challenge n culled) ∨ w = .accept auth.nonce auth.count ∨
        ∃ evs', Performs C caldavParse r etag auth acc evs' ∧ w ∈ evs' ∧ evs' ⊆ evs) := by
  cases h with
  | nothing => cases hw
  | @signed auth acc hauth hsig => exact ⟨auth, acc, hauth, hsig, List.mem_cons_self, Or.inl (List.mem_singleton.mp hw)⟩
  | @challenged auth acc n culled hauth hsig hn =>
    refine ⟨auth, acc, hauth, hsig, List.mem_cons_self, ?_⟩
    rcases List.mem_cons.mp hw with rfl | hw
    · exact Or.inl rfl
    · exact Or.inr (Or.inl ⟨n, hn, culled, List.mem_singleton.mp hw⟩)
  | @served auth acc adm evs hauth hsig hadm hevs =>
    refine ⟨auth, acc, hauth, hsig, List.mem_cons_self, ?_⟩
    rcases List.mem_cons.mp hw with rfl | hw
    · exact Or.inl rfl
    rcases List.mem_append.mp hw with hw | hw
    · rcases hadm with rfl | ⟨-, rfl⟩
      · exact Or.inr (Or.inr (Or.inl (List.mem_singleton.mp hw)))
      · cases hw
    · refine Or.inr (Or.inr (Or.inr ⟨evs, hevs, hw, fun w' hw' => ?_⟩))
      exact List.mem_cons_of_mem _ (List.mem_append_right _ hw')

/-- A reply that shows nothing and is not `201`. -/
structure Reply.Plain (reply : Reply) : Prop where
  items : ∀ i ∈ reply.items, i.ress = []
  etag : reply.etag = none
  status : reply.status ≠ some 201

theorem plain_status {status : Nat} (h : status ≠ 201) : (httpError status).Plain :=
  ⟨fun _ hi => absurd hi List.not_mem_nil, rfl, fun heq => h (Option.some.inj heq)⟩

theorem plain_silent : Reply.silent.Plain := ⟨fun _ hi => absurd hi List.not_mem_nil, rfl, by simp [Reply.silent]⟩

theorem plain_multi {items : List Item} (h : ∀ i ∈ items, i.ress = []) : (Reply.send 207 items).Plain :=
  ⟨h, rfl, by simp [Reply.send]⟩

theorem Reply.Plain.vouches {reply : Reply} (h : reply.Plain) (evs : List SpaceEvent) :
    Vouches C caldavParse r etag firm evs reply where
  shown i hi p hp := by
    rw [h.items i hi] at hp
    cases hp
  tagged tag htag := by
    rw [h.etag] at htag
    cases htag
  stored _ hstatus := absurd hstatus h.status

theorem vouches_status {status : Nat} (h : status ≠ 201) (evs : List SpaceEvent) :
    Vouches C caldavParse r etag firm evs (httpError status) := (plain_status h).vouches evs

theorem deleteStatus_vouches (rc : Bool) (evs : List SpaceEvent) :
    Vouches C caldavParse r etag firm evs (httpError (deleteStatus rc)) := by
  cases rc <;> exact vouches_status (by decide) evs

/-! ## Handlers -/

section Handlers
variable {st : State} {cal : CalName} {cfg : Coln}

/-- What a handler is given: the requested account with its calendars, and the calendar
of the path. -/
structure Given (P : Db → Prop) (st : State) (cal : CalName) (url : Bytes) : Prop where
  name : st.rprncpl.name = cal.1
  resource : st.resource = url
  cols : ∀ db, P db → ∀ c ∈ st.rprncpl.cols, IsCol (cal.1, c.url) c.id db
  cfg : ∀ c, st.cfg = some c → c ∈ st.rprncpl.cols ∧ c.url = cal.2

theorem Given.col {url : Bytes} (h : Given P st cal url) (hcfg : st.cfg = some cfg) (db : Db) (hp : P db) : IsCol cal cfg.id db := by
  obtain ⟨hmem, hurl⟩ := h.cfg cfg hcfg
  have hcol := h.cols db hp cfg hmem
  rwa [hurl] at hcol

/-- The trace goes on as the method may. -/
def GoesOn (ok : List SpaceEvent → Prop) (C : Libc) (caldavParse : Bytes → Option Caldav) (r : Kreq) (etag : Bytes) (cal : CalName)
    (url : Bytes) (tr : List SpaceEvent) : Prop := ∀ evs, Fulfils C caldavParse r etag cal url evs → ok (tr ++ evs)

variable {url : Bytes}

theorem GoesOn.nothing (h : GoesOn ok C caldavParse r etag cal url tr) : ok tr := by
  have hnil := h [] (Or.inr nofun)
  rwa [List.append_nil] at hnil

theorem GoesOn.change (h : GoesOn ok C caldavParse r etag cal url tr) {w : SpaceEvent} (hw : Changes C caldavParse r etag cal url w) :
    ok (tr ++ [w]) := h [w] (Or.inl ⟨w, rfl, hw⟩)

theorem GoesOn.look (h : GoesOn ok C caldavParse r etag cal url tr) {w : SpaceEvent} (hw : Looks caldavParse r cal url w) :
    ok (tr ++ [w]) := by
  refine h [w] (Or.inr fun w' hw' => ?_)
  obtain rfl := List.mem_singleton.mp hw'
  exact hw

variable (hgo : GoesOn ok C caldavParse r etag cal url tr) (hP : (spaceDiscipline firm).Stable P) (hst : Given P st cal url)
include hgo hP hst

theorem methodPut_traces (hm : r.method = .put) : (spaceDiscipline firm).Traces ok tr P (methodPut C r st etag)
    fun tr' _ reply => Vouches C caldavParse r etag firm tr' reply := by
  unfold methodPut
  cases hcfg : st.cfg with
  | none => exact .ret (vouches_status (by decide) tr)
  | some cfg =>
    dsimp only
    cases hbody : req2ical C r with
    | error reply =>
      refine .ret ?_
      unfold req2ical at hbody
      split at hbody
      · cases hbody
        exact vouches_status (by decide) tr
      · split at hbody
        · cases hbody
          exact vouches_status (by decide) tr
        · split at hbody <;> cases hbody
          exact plain_silent.vouches tr
    | ok body =>
      dsimp only
      cases hcond : putDigest r with
      | none => exact .ret (vouches_status (by decide) tr)
      | some digest =>
        -- the reply is `201` where the change has been made
        have hreply {w : SpaceEvent} (hw : Changes C caldavParse r etag cal url w) (tr' : List SpaceEvent) (P' : Db → Prop) (rc : Int)
            (hleft : Left tr w P (firm → rc ≤ 0) tr' P') : Vouches C caldavParse r etag firm tr' (httpError (putStatus rc)) := by
          refine ⟨fun i hi => absurd hi List.not_mem_nil, nofun, fun _ hstatus hfirm => ?_⟩
          rcases hleft.2 with ⟨-, hrc⟩ | rfl
          · have hle := hrc hfirm
            refine absurd (Option.some.inj hstatus) ?_
            unfold putStatus
            split
            · decide
            · rw [if_pos (by omega)]
              decide
          · exact ⟨w, List.mem_append_right _ List.mem_cons_self, cal, url, hw⟩
        cases digest with
        | none =>
          have hw : Changes C caldavParse r etag cal url (.create cal url ⟨etag, cstr body.val⟩) := .create hm hbody hcond
          refine .bind hgo.nothing hP (Q := fun tr' P' rc => Left tr (.create cal url ⟨etag, cstr body.val⟩) P (rc ≤ 0) tr' P') ?_ ?_
          · rw [hst.resource]
            exact dbResourceNew_traces hgo.nothing hP (hst.col hcfg) (hgo.change hw)
          · intro tr' P' rc _ _ hleft
            exact .ret (hreply hw tr' P' rc ⟨hleft.1, hleft.2.imp_left fun h => ⟨h.1, fun _ => h.2⟩⟩)
        | some digest =>
          have hw : Changes C caldavParse r etag cal url (.replace cal url digest ⟨etag, cstr body.val⟩) := .replace hm hbody hcond
          refine .bind hgo.nothing hP
            (Q := fun tr' P' rc => Left tr (.replace cal url digest ⟨etag, cstr body.val⟩) P (firm → rc ≤ 0) tr' P') ?_ ?_
          · rw [hst.resource]
            exact dbResourceUpdate_traces hgo.nothing hP (hst.col hcfg) C (hgo.change hw)
          · exact fun tr' P' rc _ _ hleft => .ret (hreply hw tr' P' rc hleft)

theorem methodDelete_traces (hm : r.method = .delete) : (spaceDiscipline firm).Traces ok tr P (methodDelete r st)
    fun tr' _ reply => Vouches C caldavParse r etag firm tr' reply := by
  unfold methodDelete
  cases hcfg : st.cfg with
  | none => exact .ret (vouches_status (by decide) tr)
  | some cfg =>
    rw [hst.resource]
    refine .ite (fun hurl => ?_) fun hurl => ?_
    · cases hcond : headerDigest r.ifMatch with
      | some digest =>
        exact .bind hgo.nothing hP (dbResourceDelete_traces hgo.nothing hP (hst.col hcfg) (hgo.change (.removeIf hm hurl hcond)))
          fun tr' P' rc _ _ _ => .ret (deleteStatus_vouches rc tr')
      | none =>
        exact .bind hgo.nothing hP (dbResourceRemove_traces hgo.nothing hP (hst.col hcfg) (hgo.change (.remove hm hurl hcond)))
          fun tr' P' rc _ _ _ => .ret (deleteStatus_vouches rc tr')
    · exact .bind hgo.nothing hP
        (dbCollectionRemove_traces hgo.nothing hP (hst.col hcfg) (hgo.change (.rmcalendar hm (not_not.mp hurl))))
        fun tr' P' rc _ _ _ => .ret (deleteStatus_vouches rc tr')

/-- Load the resource of the path and show it. -/
theorem queried_traces (hurl : st.resource ≠ []) (hm : r.method = .get ∨ r.method = .propfind ∨ r.method = .report)
    (hcfg : st.cfg = some cfg) {reply : Res → Reply} (hshown : ∀ p, ∀ i ∈ (reply p).items, ∀ q ∈ i.ress, q = p)
    (htag : ∀ p tag, (reply p).etag = some tag → tag = p.etag) :
    (spaceDiscipline firm).Traces ok tr P (do
      match ← loadResource C st.resource cfg.id with
      | .error => return httpError 505
      | .absent => return httpError 404
      | .found res => return reply res) fun tr' _ reply => Vouches C caldavParse r etag firm tr' reply := by
  rw [hst.resource] at hurl ⊢
  refine .bind hgo.nothing hP (loadResource_traces hgo.nothing hP (hst.col hcfg) C fun e => hgo.look (.look hm hurl)) ?_
  rintro tr' P' res - - ⟨-, hres⟩
  rcases hres with ⟨-, hno⟩ | ⟨p, rfl, rfl, -, rfl⟩
  · cases res with
    | error => exact .ret (vouches_status (by decide) tr')
    | absent => exact .ret (vouches_status (by decide) tr')
    | found p => exact absurd rfl (hno p)
  · have hmem : SpaceEvent.look cal p.url p.entry ∈ tr ++ [.look cal p.url p.entry] := List.mem_append_right _ List.mem_cons_self
    refine .ret ⟨fun i hi q hq => ?_, fun tag h => ?_, fun hput => ?_⟩
    · rw [hshown p i hi q hq]
      exact ⟨_, hmem, rfl, rfl⟩
    · exact ⟨cal, p.url, p.entry, hmem, (htag p tag h).symm⟩
    · rcases hm with hm | hm | hm <;> rw [hm] at hput <;> cases hput

theorem methodGet_traces (hm : r.method = .get) : (spaceDiscipline firm).Traces ok tr P (methodGet C r st)
    fun tr' _ reply => Vouches C caldavParse r etag firm tr' reply := by
  unfold methodGet
  refine .ite (fun _ => .ret (vouches_status (by decide) tr)) fun hurl => ?_
  cases hcfg : st.cfg with
  | none => exact .ret (vouches_status (by decide) tr)
  | some cfg =>
    have hif : ∀ p : Res, (if headerDigest r.ifNoneMatch = some p.etag then
        (Prog.ret { httpError 304 with etag := some p.etag } : DbProg Reply)
        else Prog.ret { Reply.send 200 [.calendar p] with etag := some p.etag }) =
        Prog.ret (if headerDigest r.ifNoneMatch = some p.etag then { httpError 304 with etag := some p.etag }
          else { Reply.send 200 [.calendar p] with etag := some p.etag }) := by
      intro p
      split <;> rfl
    simp only [Prog.pure_eq, hif]
    refine queried_traces hgo hP hst hurl (Or.inl hm) hcfg (fun p i hi q hq => ?_) fun p tag htag => ?_
    · split at hi
      · cases hi
      · obtain rfl := List.mem_singleton.mp hi
        exact List.mem_singleton.mp hq
    · split at htag <;> exact (Option.some.inj htag).symm

omit hgo hP hst in
theorem proppatchItems_ress {props : List CalProp} : ∀ i ∈ proppatchItems props, i.ress = [] := by
  intro i hi
  unfold proppatchItems at hi
  rcases List.mem_append.mp hi with hi | hi
  · rcases List.mem_append.mp hi with hi | hi
    · obtain rfl := List.mem_singleton.mp hi
      rfl
    · split at hi
      · cases hi
      · obtain rfl := List.mem_singleton.mp hi
        rfl
  · split at hi
    · cases hi
    · obtain rfl := List.mem_singleton.mp hi
      rfl

omit hgo hP hst in
/-- A handler that goes on with a CalDAV body. -/
theorem req2caldav_traces {p : Caldav → DbProg Reply} (h : ∀ dav, req2caldav caldavParse r = .ok dav →
      (spaceDiscipline firm).Traces ok tr P (p dav) fun tr' _ reply => Vouches C caldavParse r etag firm tr' reply) :
    (spaceDiscipline firm).Traces ok tr P (match req2caldav caldavParse r with
      | .error reply => return reply
      | .ok dav => p dav) fun tr' _ reply => Vouches C caldavParse r etag firm tr' reply := by
  cases hbody : req2caldav caldavParse r with
  | ok dav => exact h dav hbody
  | error reply =>
    refine .ret ?_
    unfold req2caldav at hbody
    split at hbody
    · cases hbody
      exact vouches_status (by decide) tr
    · split at hbody
      · cases hbody
        exact vouches_status (by decide) tr
      · split at hbody <;> cases hbody
        exact plain_silent.vouches tr

theorem methodProppatch_traces (hm : r.method = .proppatch) :
    (spaceDiscipline firm).Traces ok tr P (methodProppatch caldavParse r st)
      fun tr' _ reply => Vouches C caldavParse r etag firm tr' reply := by
  unfold methodProppatch
  cases hcfg : st.cfg with
  | none => exact .ret (vouches_status (by decide) tr)
  | some cfg =>
    refine req2caldav_traces fun dav hbody => .ite (fun _ => .ret (vouches_status (by decide) tr)) fun _ => ?_
    have hend : ∀ tr', Vouches C caldavParse r etag firm tr' (.send 207 (proppatchItems dav.props)) := fun tr' =>
      (plain_multi proppatchItems_ress).vouches tr'
    refine .ite (fun _ => ?_) fun _ => .ret (hend tr)
    refine .bind hgo.nothing hP (dbCollectionUpdate_traces hgo.nothing hP (hst.col hcfg) (foldl_proppatchSet_id dav.props cfg)
      fun d hn hc hd => hgo.change (.display hm hbody ⟨hn, hc, hd⟩)) fun tr' P' _ _ _ _ => .ret (hend tr')

/-! ## Queries -/

theorem propfindDirectory_traces (hurl : url = []) (hm : r.method = .propfind ∨ r.method = .report) (dav : Caldav)
    {cfg : Option Coln} (hcfg : cfg = st.cfg) {p : List Item → Reply} (hp : ∀ items, p items = .send 207 items) :
    (spaceDiscipline firm).Traces ok tr P (propfindDirectory C r st dav cfg >>= fun items => Prog.ret (p items))
      fun tr' _ reply => Vouches C caldavParse r etag firm tr' reply := by
  have hend {items : List Item} (hitems : ∀ i ∈ items, i.ress = []) (tr' : List SpaceEvent) :
      Vouches C caldavParse r etag firm tr' (p items) := by
    rw [hp]
    exact (plain_multi hitems).vouches tr'
  unfold propfindDirectory
  cases cfg with
  | some c =>
    dsimp only
    split
    · refine .ret (hend (fun i hi => ?_) tr)
      obtain rfl := List.mem_singleton.mp hi
      rfl
    · refine .bind hgo.nothing hP (.bind hgo.nothing hP
        (dbCollectionResources_traces hgo.nothing hP (hst.col hcfg.symm) C fun es => hgo.look (.listing hm hurl))
        fun tr' P' res _ _ h => .ret (Q := fun tr' _ items => Vouches C caldavParse r etag firm tr' (p items)) ?_)
        fun _ _ _ _ _ h => .ret h
      rcases h.2 with ⟨-, hnil⟩ | rfl
      · refine hend (fun i hi => ?_) tr'
        rw [hnil] at hi
        obtain rfl := List.mem_singleton.mp hi
        rfl
      · rw [hp]
        refine ⟨fun i hi q hq => ?_, nofun, fun hput => ?_⟩
        · rcases List.mem_cons.mp hi with rfl | hi
          · cases hq
          · obtain ⟨q', hq', rfl⟩ := List.mem_map.mp hi
            obtain rfl := List.mem_singleton.mp hq
            refine ⟨_, List.mem_append_right _ List.mem_cons_self, ?_⟩
            exact List.mem_map.mpr ⟨q, hq', rfl⟩
        · rcases hm with hm | hm <;> rw [hm] at hput <;> cases hput
  | none =>
    have hprncpl : ∀ i ∈ [Item.prncpl dav.props], i.ress = [] := by
      intro i hi
      obtain rfl := List.mem_singleton.mp hi
      rfl
    have hall : ∀ i ∈ Item.prncpl dav.props :: .proxy proxyRead dav.props :: .proxy proxyWrite dav.props ::
        st.rprncpl.cols.map fun c => Item.coln c dav.props, i.ress = [] := by
      intro i hi
      rcases List.mem_cons.mp hi with rfl | hi
      · rfl
      rcases List.mem_cons.mp hi with rfl | hi
      · rfl
      rcases List.mem_cons.mp hi with rfl | hi
      · rfl
      obtain ⟨c, -, rfl⟩ := List.mem_map.mp hi
      rfl
    dsimp only
    split
    · exact .ret (hend hprncpl tr)
    · exact .ret (hend hall tr)

omit hgo in
/-- What is looked up for one `href`. -/
theorem propfindResourceLookup_traces (hm : r.method = .report) {dav : Caldav} (hbody : req2caldav caldavParse r = .ok dav)
    {href : Bytes} (hhref : href ∈ dav.hrefs)
    (hlook : ∀ evs, (∀ w ∈ evs, Looks caldavParse r cal url w) → ok (tr ++ evs)) :
    (spaceDiscipline firm).Traces ok tr P (propfindResourceLookup C r st href) fun tr' P' res => P' = P ∧
      ((tr' = tr ∧ ∀ p, res ≠ .found p) ∨ ∃ p w, res = .found p ∧ Looks caldavParse r cal url w ∧ w.Shows p ∧ tr' = tr ++ [w]) := by
  have habsent : (spaceDiscipline firm).Traces ok tr P (Prog.ret (.absent : Loaded Res)) fun tr' P' res => P' = P ∧
      ((tr' = tr ∧ ∀ p, res ≠ .found p) ∨ ∃ p w, res = .found p ∧ Looks caldavParse r cal url w ∧ w.Shows p ∧ tr' = tr ++ [w]) :=
    .ret ⟨rfl, Or.inl ⟨rfl, nofun⟩⟩
  have hok : ok tr := by simpa using hlook [] nofun
  unfold propfindResourceLookup
  refine .ite (fun _ => habsent) fun _ => ?_
  split
  · exact habsent
  next principal collection resource hpath =>
    refine .ite (fun _ => habsent) fun hname => ?_
    split
    · exact habsent
    next c hfind =>
      have hprincipal : principal = cal.1 := (not_not.mp hname).symm.trans hst.name
      have hfound := List.find?_some hfind
      obtain rfl : c.url = collection := of_decide_eq_true hfound
      have hw : ∀ e, Looks caldavParse r cal url (.look (cal.1, c.url) resource e) := fun e =>
        .href hm hbody hhref (hprincipal ▸ hpath)
      refine (loadResource_traces hok hP (fun db hp => hst.cols db hp c (List.mem_of_find?_eq_some hfind)) C
        fun e => hlook [_] fun w hmem => List.mem_singleton.mp hmem ▸ hw e).post fun tr' P' res h => ?_
      obtain ⟨rfl, ⟨rfl, hno⟩ | ⟨p, rfl, hurl, -, rfl⟩⟩ := h
      · exact ⟨rfl, Or.inl ⟨rfl, hno⟩⟩
      · exact ⟨rfl, Or.inr ⟨p, _, rfl, hw p.entry, ⟨hurl.symm, rfl⟩, rfl⟩⟩

omit hgo hP hst in
theorem propfindListItem_shown {dav : Caldav} {href : Bytes} {res : Loaded Res} :
    ∀ i ∈ propfindListItem st dav href res, ∀ q ∈ i.ress, res = .found q := by
  intro i hi q hq
  cases res with
  | error =>
    obtain rfl := List.mem_singleton.mp hi
    cases hq
  | absent =>
    obtain rfl := List.mem_singleton.mp hi
    cases hq
  | found p =>
    unfold propfindListItem at hi
    dsimp only at hi
    split at hi
    · cases hi
    · obtain rfl := List.mem_singleton.mp hi
      rw [List.mem_singleton.mp hq]

omit hgo in
/-- Every `href` is one look, or none. -/
theorem propfindListLoop_traces (hm : r.method = .report) {dav : Caldav} (hbody : req2caldav caldavParse r = .ok dav)
    (hrefs : List Bytes) (hhrefs : ∀ href ∈ hrefs, href ∈ dav.hrefs)
    (hlook : ∀ evs, (∀ w ∈ evs, Looks caldavParse r cal url w) → ok (tr ++ evs)) :
    (spaceDiscipline firm).Traces ok tr P (propfindListLoop C r st dav hrefs) fun tr' _ items =>
      (∀ w ∈ tr, w ∈ tr') ∧ ∀ i ∈ items, ∀ q ∈ i.ress, ∃ w ∈ tr', w.Shows q := by
  induction hrefs generalizing tr P with
  | nil => exact .ret ⟨fun _ hw => hw, fun _ hi => absurd hi List.not_mem_nil⟩
  | cons href hrefs ih =>
    have hok : ok tr := by simpa using hlook [] nofun
    refine .bind hok hP (propfindResourceLookup_traces hP hst hm hbody (hhrefs href List.mem_cons_self) hlook) ?_
    rintro tr' P' res - hP' ⟨rfl, hres⟩
    have hrest : ∀ h ∈ hrefs, h ∈ dav.hrefs := fun h hh => hhrefs h (List.mem_cons_of_mem href hh)
    rcases hres with ⟨rfl, hno⟩ | ⟨p, w, rfl, hw, hshows, rfl⟩
    · refine .bind hok hP' (ih hP' hst hrest hlook) fun tr' _ items _ _ h => .ret ⟨h.1, fun i hi q hq => ?_⟩
      rcases List.mem_append.mp hi with hi | hi
      · exact absurd (propfindListItem_shown i hi q hq) (hno q)
      · exact h.2 i hi q hq
    · have hlook' : ∀ evs, (∀ w ∈ evs, Looks caldavParse r cal url w) → ok (tr ++ [w] ++ evs) := by
        intro evs hevs
        rw [List.append_assoc]
        refine hlook _ fun w' hw' => ?_
        rcases List.mem_cons.mp hw' with rfl | hw'
        · exact hw
        · exact hevs w' hw'
      refine .bind (by simpa using hlook' [] nofun) hP' (ih hP' hst hrest hlook') fun tr' _ items _ _ h =>
        .ret ⟨fun w' hw' => h.1 w' (List.mem_append_left _ hw'), fun i hi q hq => ?_⟩
      rcases List.mem_append.mp hi with hi | hi
      · obtain rfl := Loaded.found.inj (propfindListItem_shown i hi q hq)
        exact ⟨w, h.1 w (List.mem_append_right _ List.mem_cons_self), hshows⟩
      · exact h.2 i hi q hq

omit hgo hP hst in
theorem res_ress {c : Coln} {props : List CalProp} {p : Res} :
    ∀ i ∈ (Reply.send 207 [.res c p props]).items, ∀ q ∈ i.ress, q = p := by
  intro i hi q hq
  obtain rfl := List.mem_singleton.mp hi
  exact List.mem_singleton.mp hq

theorem methodReport_traces (hm : r.method = .report) : (spaceDiscipline firm).Traces ok tr P (methodReport C caldavParse r st)
    fun tr' _ reply => Vouches C caldavParse r etag firm tr' reply := by
  unfold methodReport
  cases hcfg : st.cfg with
  | none => exact .ret (vouches_status (by decide) tr)
  | some cfg =>
    refine req2caldav_traces fun dav hbody => .ite (fun _ => .ret (vouches_status (by decide) tr)) fun _ => .ite (fun hurl => ?_) fun hurl => ?_
    · exact queried_traces hgo hP hst hurl (Or.inr (Or.inr hm)) hcfg (fun _ => res_ress) nofun
    · refine .ite (fun _ => ?_) fun _ => ?_
      · refine .bind hgo.nothing hP (propfindListLoop_traces hP hst hm hbody dav.hrefs (fun _ h => h) fun evs hevs => hgo evs (Or.inr hevs)) ?_
        exact fun tr' _ items _ _ h => .ret ⟨h.2, nofun, fun hput => by rw [hm] at hput; cases hput⟩
      · exact propfindDirectory_traces hgo hP hst (hst.resource.symm.trans (not_not.mp hurl)) (Or.inr hm) dav hcfg.symm fun _ => rfl

theorem methodPropfind_traces (hm : r.method = .propfind) :
    (spaceDiscipline firm).Traces ok tr P (methodPropfind C caldavParse r st)
      fun tr' _ reply => Vouches C caldavParse r etag firm tr' reply := by
  refine req2caldav_traces fun dav hbody => .ite (fun _ => .ret (vouches_status (by decide) tr)) fun _ => ?_
  cases hcfg : st.cfg with
  | some cfg =>
    refine .ite (fun hurl => ?_) fun hurl => ?_
    · exact queried_traces hgo hP hst hurl (Or.inr (Or.inl hm)) hcfg (fun _ => res_ress) nofun
    · exact propfindDirectory_traces hgo hP hst (hst.resource.symm.trans (not_not.mp hurl)) (Or.inl hm) dav hcfg.symm fun _ => rfl
  | none =>
    refine .ite (fun _ => .ret (vouches_status (by decide) tr)) fun hurl => .ite (fun _ => .ret ?_) fun _ => ?_
    · refine (plain_multi fun i hi => ?_).vouches tr
      obtain rfl := List.mem_singleton.mp hi
      rfl
    · exact propfindDirectory_traces hgo hP hst (hst.resource.symm.trans (not_not.mp hurl)) (Or.inl hm) dav hcfg.symm fun _ => rfl

theorem handle_traces : (spaceDiscipline firm).Traces ok tr P (handle C caldavParse r st etag)
    fun tr' _ reply => Vouches C caldavParse r etag firm tr' reply := by
  unfold handle
  cases hm : r.method with
  | put => exact methodPut_traces hgo hP hst hm
  | propfind => exact methodPropfind_traces hgo hP hst hm
  | proppatch => exact methodProppatch_traces hgo hP hst hm
  | post =>
    refine .ret (vouches_status ?_ tr)
    split <;> decide
  | get => exact .ite (fun _ => .ret (vouches_status (by decide) tr)) fun _ => methodGet_traces hgo hP hst hm
  | report => exact methodReport_traces hgo hP hst hm
  | delete => exact methodDelete_traces hgo hP hst hm
  | options => exact .ret (vouches_status (by decide) tr)
  | other => exact .ret (vouches_status (by decide) tr)
  | max => exact .ret (vouches_status (by decide) tr)

end Handlers

end Kcaldav
