import Kcaldav.Concurrent.Sync
import Kcaldav.Server.Main

/-! # Changes of settings

A request for a new password, e-mail address or collection property loads the whole
row, and in a later statement writes all of it back with its own fields changed. Two
such requests keep each other's changes where one has written before the other loads.
-/
namespace Kcaldav
open CString

/-! ## Settings -/

inductive Setting
  | hash | email | displayname | colour | description
  deriving DecidableEq, Repr

/-- Texts of a row, or those of them that a request sets. -/
abbrev Settings := Setting → Option Bytes

/-- The settings with some of them replaced. -/
def overlay (e v : Settings) : Settings := fun s => (e s).or (v s)

theorem overlay_comm {e e' : Settings} (h : ∀ s, e s = none ∨ e' s = none) (v : Settings) :
    overlay e (overlay e' v) = overlay e' (overlay e v) := by
  funext s
  unfold overlay
  rcases h s with hs | hs <;> rw [hs] <;> simp

def PrncplRow.settings (p : PrncplRow) : Settings
  | .hash => some p.hash
  | .email => some p.email
  | _ => none

def Coln.settings (c : Coln) : Settings
  | .displayname => c.displayname
  | .colour => c.colour
  | .description => c.description
  | _ => none

/-- The row whose settings are changed. -/
inductive Target
  | prncpl (id : Int)
  | coln (id : Int)

def Target.settings : Target → Db → Settings
  | .prncpl id, db => fun s => (db.principal.find? fun p => p.id = id).bind fun p => p.settings s
  | .coln id, db => fun s => (db.collection.find? fun c => c.id = id).bind fun c => c.coln.settings s

/-! ## Requests -/

inductive SettingsCall
  | setpass (f : Fields)
  | setemail (f : Fields)
  | setcolnprops (f : Fields)
  | proppatch (r : Kreq)

namespace SettingsCall
variable (caldavParse : Bytes → Option Caldav) (name nonce url : Bytes)

/-- The request once the principal has been loaded; a property update is one of the
principal's own collection of the given name. -/
def handler (p : Prncpl) : SettingsCall → DbProg Reply
  | setpass f => jsonSetpass f ⟨p, nonce⟩
  | setemail f => jsonSetemail f ⟨p, nonce⟩
  | setcolnprops f => jsonSetcolnprops f ⟨p, nonce⟩
  | proppatch r =>
    match requestedCfg url p with
    | .error reply => return reply
    | .ok cfg =>
      methodProppatch caldavParse r
        { prncpl := p
          nonce := nonce
          rprncpl := p
          cfg := cfg
          proxy := 0
          principal := name
          collection := url
          resource := [] }

/-- Load the principal, then handle the request. -/
def prog (call : SettingsCall) : DbProg Reply := do
  match ← dbPrncplLoad name with
  | .error => return httpError 505
  | .absent => return httpError 401
  | .found p => call.handler caldavParse name nonce url p

/-- The number of the action that loads the row: loading a principal takes four. -/
def loadsAt : SettingsCall → ℕ
  | setpass _ | setemail _ => 0
  | proppatch _ => 1
  | setcolnprops _ => 4

/-- The number of the action that writes the row. -/
def writesAt : SettingsCall → ℕ
  | setpass _ | setemail _ | proppatch _ => 4
  | setcolnprops _ => 5

theorem loadsAt_lt (call : SettingsCall) : call.loadsAt < call.writesAt := by
  cases call <;> simp [loadsAt, writesAt]

end SettingsCall

/-- The properties that a form sets. -/
def fieldSettings (f : Fields) : Settings
  | .displayname => f.name
  | .colour => f.colour
  | .description => f.description
  | _ => none

/-- What one property of an update sets, where it can be set and its value is valid. -/
def propSettings (prop : CalProp) : Settings := fun s =>
  if prop.valid < 0 then none
  else
    match prop.key, s with
    | .displayname, .displayname => prop.val
    | .calendarColor, .colour => prop.val
    | .calendarDescription, .description => prop.val
    | _, _ => none

/-- What an update sets, a later property overriding an earlier one. -/
def propsSettings (props : List CalProp) : Settings := props.foldl (fun e prop => overlay (propSettings prop) e) fun _ => none

/-- The request is well-formed and sets these settings of the row. -/
inductive Sets (caldavParse : Bytes → Option Caldav) : SettingsCall → Target → Settings → Prop
  | setpass {f : Fields} {pass : Bytes} (id : Int) : f.pass = some pass →
      Sets caldavParse (.setpass f) (.prncpl id) fun s => if s = .hash then some pass else none
  | setemail {f : Fields} {email : Bytes} (id : Int) : f.email = some email →
      Sets caldavParse (.setemail f) (.prncpl id) fun s => if s = .email then some email else none
  | setcolnprops {f : Fields} {id : Int} : f.id = some id →
      Sets caldavParse (.setcolnprops f) (.coln id) (fieldSettings f)
  | proppatch {r : Kreq} {dav : Caldav} (id : Int) : req2caldav caldavParse r = .ok dav → dav.type = .propertyupdate →
      (dav.props.any fun p => accepted p.key && decide (0 ≤ p.valid)) →
      (∀ p ∈ dav.props, accepted p.key → 0 ≤ p.valid → p.val.isSome) →
      Sets caldavParse (.proppatch r) (.coln id) (propsSettings dav.props)

theorem proppatchSet_settings {prop : CalProp} (h : accepted prop.key → 0 ≤ prop.valid → prop.val.isSome) (c : Coln) :
    (proppatchSet c prop).settings = overlay (propSettings prop) c.settings := by
  funext s
  unfold proppatchSet overlay propSettings
  by_cases hv : prop.valid < 0
  · rw [if_pos hv, if_pos hv]
    rfl
  · rw [if_neg hv, if_neg hv]
    have hval := fun ha => Option.isSome_iff_exists.mp (h ha (Int.not_lt.mp hv))
    cases hk : prop.key <;> rw [hk] at hval <;> cases s <;> try rfl
    all_goals
      obtain ⟨b, hb⟩ := hval rfl
      rw [hb]
      rfl

/-- The properties of an update are set one by one. -/
theorem foldl_proppatchSet {props : List CalProp} (h : ∀ p ∈ props, accepted p.key → 0 ≤ p.valid → p.val.isSome)
    (c : Coln) :
    (props.foldl proppatchSet c).settings = overlay (propsSettings props) c.settings := by
  have along : ∀ (e : Settings) (d : Coln), d.settings = overlay e c.settings →
      (props.foldl proppatchSet d).settings =
        overlay (props.foldl (fun e prop => overlay (propSettings prop) e) e) c.settings := by
    induction props with
    | nil => exact fun e d hd => hd
    | cons prop props ih =>
      intro e d hd
      refine ih (fun p hp => h p (List.mem_cons_of_mem prop hp)) _ _ ?_
      rw [proppatchSet_settings (h prop List.mem_cons_self), hd]
      funext s
      exact (Option.or_assoc ..).symm
  exact along _ c (by funext s; rfl)

/-! ## The rows -/

/-- The name and the number that the requests use lead to the row of a principal. Its
address is one of those given, which nobody else has. -/
structure PrncplReady (name : Bytes) (id : Int) (F : Bytes → Prop) (db : Db) : Prop where
  row : ∃ p, Sql.prncplGet name db = some p ∧ (db.principal.find? fun q => q.id = id) = some p ∧ int32 p.id = id ∧
    F p.email
  free : ∀ q ∈ db.principal, q.id ≠ id → ¬F q.email

/-- The names and numbers that the requests use lead to one collection. -/
structure ColnReady (name url : Bytes) (pid id : Int) (db : Db) : Prop where
  named : url ≠ []
  prncpl : ∃ p, Sql.prncplGet name db = some p ∧ int32 p.id = pid
  row : ∃ c, Sql.colGetId pid id db = some c ∧ (db.collection.find? fun c => c.id = id) = some c ∧
    (Sql.colIter pid db).find? (fun c => c.url = url) = some c

/-- The row is where the requests look for it. -/
def Target.Ready (name url : Bytes) (pid : Int) (F : Bytes → Prop) : Target → Db → Prop
  | .prncpl id => PrncplReady name id F
  | .coln id => ColnReady name url pid id

theorem PrncplReady.settings {name : Bytes} {id : Int} {F : Bytes → Prop} {db : Db} (h : PrncplReady name id F db) :
    ∃ p, Sql.prncplGet name db = some p ∧ int32 p.id = id ∧ F p.email ∧
      (Target.prncpl id).settings db = p.settings := by
  obtain ⟨p, hname, hid, hint, hF⟩ := h.row
  refine ⟨p, hname, hint, hF, ?_⟩
  funext s
  rw [Target.settings, hid]
  rfl

theorem PrncplReady.update {name : Bytes} {id : Int} {F : Bytes → Prop} {db : Db} (h : PrncplReady name id F db)
    (hash : Bytes) {email : Bytes} (hF : F email) :
    ∃ db', Sql.prncplUpdate hash email id db = some db' ∧ PrncplReady name id F db' ∧
      (Target.prncpl id).settings db' = fun
        | .hash => some hash
        | .email => some email
        | _ => none := by
  obtain ⟨p, hname, hid, hint, -⟩ := h.row
  let g : PrncplRow → PrncplRow := fun q => if q.id = id then { q with hash := hash, email := email } else q
  have hgid : ∀ q, (g q).id = q.id := by
    intro q
    unfold g
    split <;> rfl
  have hgname : ∀ q, (g q).name = q.name := by
    intro q
    unfold g
    split <;> rfl
  have hgp : g p = { p with hash := hash, email := email } := if_pos (by simpa using List.find?_some hid)
  have hname' : Sql.prncplGet name { db with principal := db.principal.map g } = some (g p) := by
    unfold Sql.prncplGet at hname ⊢
    simp only [List.find?_map, Function.comp_def, hgname, hname]
    rfl
  have hid' : ((db.principal.map g).find? fun q => q.id = id) = some (g p) := by
    simp only [List.find?_map, Function.comp_def, hgid, hid]
    rfl
  refine ⟨{ db with principal := db.principal.map g }, ?_, ⟨⟨g p, hname', hid', ?_, ?_⟩, ?_⟩, ?_⟩
  · unfold Sql.prncplUpdate
    rw [if_neg]
    rintro ⟨-, q, hq, hne, heq⟩
    exact h.free q hq hne (heq ▸ hF)
  · rw [hgid]
    exact hint
  · rw [hgp]
    exact hF
  · intro q hq hne
    obtain ⟨q₀, hq₀, rfl⟩ := List.mem_map.mp hq
    rw [hgid] at hne
    have hsame : g q₀ = q₀ := if_neg hne
    rw [hsame]
    exact h.free q₀ hq₀ hne
  · funext s
    rw [Target.settings]
    dsimp only
    rw [hid', hgp]
    cases s <;> rfl

section
variable {name url : Bytes} {pid id : Int} {db : Db}

/-- A change of rows that leaves their keys alone. -/
theorem ColnReady.map (h : ColnReady name url pid id db) {g : ColRow → ColRow} (hid : ∀ c, (g c).id = c.id)
    (hprincipal : ∀ c, (g c).principal = c.principal) (hurl : ∀ c, (g c).url = c.url) :
    ColnReady name url pid id { db with collection := db.collection.map g } ∧
      ∃ c, (db.collection.find? fun c => c.id = id) = some c ∧
        (Target.coln id).settings { db with collection := db.collection.map g } = (g c).coln.settings := by
  obtain ⟨c, hget, hfind, hiter⟩ := h.row
  have hfind' : ((db.collection.map g).find? fun c => c.id = id) = some (g c) := by
    simp only [List.find?_map, Function.comp_def, hid, hfind]
    rfl
  refine ⟨⟨h.named, h.prncpl, g c, ?_, hfind', ?_⟩, c, hfind, ?_⟩
  · unfold Sql.colGetId at hget ⊢
    simp only [List.find?_map, Function.comp_def, hid, hprincipal, hget]
    rfl
  · unfold Sql.colIter at hiter ⊢
    simp only [List.filter_map, List.find?_map, Function.comp_def, hprincipal, hurl, hiter]
    rfl
  · funext s
    rw [Target.settings]
    dsimp only
    rw [hfind']
    rfl

theorem ColnReady.settings (h : ColnReady name url pid id db) : ∃ c, Sql.colGetId pid id db = some c ∧ c.id = id ∧
    (Sql.colIter pid db).find? (fun c => c.url = url) = some c ∧
    (Target.coln id).settings db = c.coln.settings := by
  obtain ⟨c, hget, hfind, hiter⟩ := h.row
  refine ⟨c, hget, by simpa using List.find?_some hfind, hiter, ?_⟩
  funext s
  rw [Target.settings, hfind]
  rfl

theorem ColnReady.ctag (h : ColnReady name url pid id db) : ColnReady name url pid id (Sql.colUpdateCtag id db) ∧
    (Target.coln id).settings (Sql.colUpdateCtag id db) = (Target.coln id).settings db := by
  obtain ⟨hready, c, hfind, hsettings⟩ := h.map (g := fun c => if c.id = id then { c with ctag := c.ctag + 1 } else c)
    (fun c => by split <;> rfl) (fun c => by split <;> rfl) (fun c => by split <;> rfl)
  refine ⟨hready, hsettings.trans ?_⟩
  funext s
  rw [Target.settings, hfind]
  dsimp only
  split <;> rfl

theorem ColnReady.update (h : ColnReady name url pid id db) {c : Coln} (hid : c.id = id) {dn colour description : Bytes}
    (hdn : c.displayname = some dn) (hcolour : c.colour = some colour) (hdescription : c.description = some description) :
    ∃ db', Sql.colUpdate c.displayname c.colour c.description c.id db = some db' ∧ ColnReady name url pid id db' ∧
      (Target.coln id).settings db' = c.settings := by
  obtain ⟨hready, row, hfind, hsettings⟩ := h.map
    (g := fun c => if c.id = id then { c with displayname := dn, colour := colour, description := description } else c)
    (fun c => by split <;> rfl) (fun c => by split <;> rfl) (fun c => by split <;> rfl)
  have hrow : row.id = id := by simpa using List.find?_some hfind
  refine ⟨_, by rw [hdn, hcolour, hdescription, hid]; rfl, hready, hsettings.trans ?_⟩
  funext s
  rw [if_pos hrow]
  cases s with
  | displayname => exact hdn.symm
  | colour => exact hcolour.symm
  | description => exact hdescription.symm
  | _ => rfl

end

/-! ## The requests follow their scripts -/

def SettingsCall.script (call : SettingsCall) (e : Settings) : Script Settings := ⟨call.loadsAt, call.writesAt, overlay e⟩

/-- The settings of a row, under choices without failing steps. -/
def Target.cell (target : Target) (name url : Bytes) (pid : Int) (F : Bytes → Prop) : Cell Choice Db Settings where
  allowed := Choice.Faultless
  inv := target.Ready name url pid F
  view := target.settings

section Scripts
variable {target : Target} {name url : Bytes} {pid : Int} {F : Bytes → Prop} {K : Script Settings} {n : ℕ} {c : Settings}

theorem dbIter_runs {α : Type} {q : Db → List α} {Q : ℕ → Settings → Option (List α) → Prop} (hwrite : n ≠ K.write)
    (h : ∀ db, target.Ready name url pid F db → Q (n + 1) (if n = K.load then target.settings db else c) (some (q db))) :
    (target.cell name url pid F).Runs K n c (dbIter q) Q := by
  rw [dbIter_eq]
  refine Cell.Runs.atom fun e db he hready => ⟨hready, (if_neg hwrite).symm, ?_⟩
  rw [he.1, if_pos rfl]
  exact h db hready

/-- Loading the principal: four actions, of which the first reads its row and the second
its collections. -/
theorem dbPrncplLoad_runs (hwrite : 4 ≤ K.write) (id : Int) {A : PrncplRow → Settings → Prop}
    {B : List ColRow → Settings → Prop}
    (hrow : ∀ db, target.Ready name url pid F db →
      ∃ p, Sql.prncplGet name db = some p ∧ int32 p.id = id ∧ A p (target.settings db))
    (hcols : ∀ db, target.Ready name url pid F db → B (Sql.colIter id db) (target.settings db)) :
    (target.cell name url pid F).Runs K 0 c (dbPrncplLoad name) fun n c r => n = 4 ∧ ∃ p, r = .found p ∧ p.id = id ∧
      (K.load = 0 → ∃ row, A row c ∧ p.hash = row.hash ∧ p.email = row.email) ∧
      (K.load = 1 → ∃ rows, B rows c ∧ p.cols = rows.map ColRow.coln) := by
  rw [dbPrncplLoad, dbPrncplGet_eq]
  refine Cell.Runs.bind (Q := fun n c r => n = 1 ∧ ∃ row, r = .found row ∧ int32 row.id = id ∧ (K.load = 0 → A row c))
    (Cell.Runs.atom fun e db he hready => ⟨hready, (if_neg (by omega)).symm, rfl, ?_⟩) ?_
  · obtain ⟨row, hget, hid, hA⟩ := hrow db hready
    refine ⟨row, ?_, hid, fun hload => ?_⟩
    · unfold prncplFetched
      rw [he.1 3, he.1 4, if_pos rfl, hget]
      rfl
    · rw [if_pos hload.symm]
      exact hA
  rintro n c _ ⟨rfl, row, rfl, rfl, hA⟩
  refine Cell.Runs.bind (Q := fun n c' r => n = 2 ∧ ∃ rows, r = some rows ∧ (K.load = 0 → c' = c) ∧ (K.load = 1 → B rows c'))
    (dbIter_runs (by omega) fun db hready => ⟨rfl, _, rfl, fun hload => ?_, fun hload => ?_⟩) ?_
  · rw [if_neg (by omega)]
  · rw [if_pos hload.symm]
    exact hcols db hready
  rintro n c' _ ⟨rfl, rows, rfl, hc', hB⟩
  refine Cell.Runs.bind (Q := fun n c₂ r => n = 3 ∧ r.isSome ∧ (K.load < 2 → c₂ = c'))
    (dbIter_runs (by omega) fun db _ => ⟨rfl, rfl, fun hload => if_neg (by omega)⟩) ?_
  rintro n c₂ (_ | rproxies) ⟨rfl, hsome, hc₂⟩
  · cases hsome
  refine Cell.Runs.bind (Q := fun n c₃ r => n = 4 ∧ r.isSome ∧ (K.load < 2 → c₃ = c₂))
    (dbIter_runs (by omega) fun db _ => ⟨rfl, rfl, fun hload => if_neg (by omega)⟩) ?_
  rintro n c₃ (_ | proxies) ⟨rfl, hsome, hc₃⟩
  · cases hsome
  refine Cell.Runs.ret ⟨rfl, _, rfl, rfl, fun hload => ⟨row, ?_, rfl, rfl⟩, fun hload => ⟨rows, ?_, rfl⟩⟩
  · rw [hc₃ (by omega), hc₂ (by omega), hc' hload]
    exact hA hload
  · rw [hc₃ (by omega), hc₂ (by omega)]
    exact hB hload

theorem dbPrncplUpdate_runs {id : Int} (hash : Bytes) {email : Bytes} (hF : F email) (hn : n = K.write)
    (hedit : K.edit c = fun
      | .hash => some hash
      | .email => some email
      | _ => none) :
    ((Target.prncpl id).cell name url pid F).Follows K n c (do
      let rc ← dbPrncplUpdate hash email id
      return httpError (pageStatus rc)) := by
  rw [dbPrncplUpdate_eq]
  refine Cell.Runs.bind (Q := fun n _ _ => K.write < n) (Cell.Runs.atom fun e db he hready => ?_)
    fun n _ _ hlt => Cell.Runs.ret hlt
  obtain ⟨db', hupd, hready', hview⟩ := PrncplReady.update hready hash hF
  rw [statement_faultless he, hupd, if_pos hn, hedit]
  exact ⟨hready', hview, hn ▸ Nat.lt_succ_self n⟩

theorem overlay_isSome {e v : Settings} {s : Setting} (h : (v s).isSome) : ∃ b, overlay e v s = some b := by
  unfold overlay
  cases e s with
  | none => exact Option.isSome_iff_exists.mp (by simpa using h)
  | some b => exact ⟨b, rfl⟩

theorem dbCollectionUpdate_runs {id : Int} {d : Coln} {row : ColRow} {e : Settings} (hid : d.id = id) (hn : n = K.write)
    (hd : d.settings = overlay e row.coln.settings) (hedit : K.edit c = d.settings) (reply : Reply) :
    ((Target.coln id).cell name url pid F).Follows K n c (do
      let _ ← dbCollectionUpdate d
      return reply) := by
  obtain ⟨dn, hdn⟩ := overlay_isSome (e := e) (v := row.coln.settings) (s := .displayname) rfl
  obtain ⟨colour, hcolour⟩ := overlay_isSome (e := e) (v := row.coln.settings) (s := .colour) rfl
  obtain ⟨description, hdescription⟩ := overlay_isSome (e := e) (v := row.coln.settings) (s := .description) rfl
  rw [← hd] at hdn hcolour hdescription
  rw [dbCollectionUpdate_eq]
  refine Cell.Runs.bind (Q := fun n _ _ => K.write < n) ?_ fun n _ _ hlt => Cell.Runs.ret hlt
  refine Cell.Runs.bind (Q := fun n _ _ => K.write < n) (Cell.Runs.atom fun e db he hready => ?_) ?_
  · obtain ⟨db', hupd, hready', hview⟩ := ColnReady.update hready hid hdn hcolour hdescription
    rw [statement_faultless he, hupd, if_pos hn, hedit]
    exact ⟨hready', hview, hn ▸ Nat.lt_succ_self n⟩
  · rintro n c updated hlt
    cases updated with
    | false => exact Cell.Runs.ret hlt
    | true =>
      refine Cell.Runs.atom fun e db he hready => ?_
      obtain ⟨hready', hview⟩ := ColnReady.ctag hready
      rw [statement_faultless he, hid, if_neg (Nat.ne_of_gt hlt)]
      exact ⟨hready', hview, Nat.lt_succ_of_lt hlt⟩

end Scripts

section Calls
variable {caldavParse : Bytes → Option Caldav} {name nonce url : Bytes} {pid : Int} {F : Bytes → Prop}
  {call : SettingsCall} {target : Target} {e c : Settings}

theorem SettingsCall.follows (h : Sets caldavParse call target e) (hF : ∀ email, e .email = some email → F email) :
    (target.cell name url pid F).Follows (call.script e) 0 c (call.prog caldavParse name nonce url) := by
  cases h with
  | @setpass f pass id hpass =>
    refine Cell.Runs.bind (dbPrncplLoad_runs (A := fun row c => c = row.settings ∧ F row.email) (B := fun _ _ => True)
      le_rfl id (fun db hready => ?_) fun _ _ => trivial) ?_
    · obtain ⟨row, hget, hint, hmail, hview⟩ := PrncplReady.settings hready
      exact ⟨row, hget, hint, hview, hmail⟩
    · rintro n c _ ⟨rfl, p, rfl, hid, hrow, -⟩
      obtain ⟨row, ⟨rfl, hmail⟩, -, hemail⟩ := hrow rfl
      dsimp only [SettingsCall.handler]
      rw [jsonSetpass, hpass]
      dsimp only
      rw [hid, hemail]
      refine dbPrncplUpdate_runs pass hmail rfl ?_
      funext s
      cases s <;> rfl
  | @setemail f email id hemail =>
    refine Cell.Runs.bind (dbPrncplLoad_runs (A := fun row c => c = row.settings) (B := fun _ _ => True)
      le_rfl id (fun db hready => ?_) fun _ _ => trivial) ?_
    · obtain ⟨row, hget, hint, -, hview⟩ := PrncplReady.settings hready
      exact ⟨row, hget, hint, hview⟩
    · rintro n c _ ⟨rfl, p, rfl, hid, hrow, -⟩
      obtain ⟨row, rfl, hhash, -⟩ := hrow rfl
      dsimp only [SettingsCall.handler]
      rw [jsonSetemail, hemail]
      dsimp only
      rw [hid, hhash]
      refine dbPrncplUpdate_runs row.hash (hF email rfl) rfl ?_
      funext s
      cases s <;> rfl
  | @setcolnprops f id hid =>
    refine Cell.Runs.bind (dbPrncplLoad_runs (A := fun _ _ => True) (B := fun _ _ => True)
      (Nat.le_succ 4) pid (fun db hready => ?_) fun _ _ => trivial) ?_
    · obtain ⟨row, hget, hint⟩ := hready.prncpl
      exact ⟨row, hget, hint, trivial⟩
    · rintro n c _ ⟨rfl, p, rfl, hpid, -, -⟩
      dsimp only [SettingsCall.handler]
      rw [jsonSetcolnprops, hid]
      dsimp only
      rw [dbCollectionLoadid, dbCollectionGet_eq, hpid]
      refine Cell.Runs.bind (Q := fun n c r => n = 5 ∧ ∃ row : ColRow, r = .found row.coln ∧ row.id = id ∧ c = row.coln.settings)
        (Cell.Runs.atom fun e db he hready => ?_) ?_
      · obtain ⟨row, hget, hrow, -, hview⟩ := ColnReady.settings hready
        rw [query, he.1, if_pos rfl, hget]
        exact ⟨hready, rfl, rfl, row, rfl, hrow, hview⟩
      · rintro n c _ ⟨rfl, row, rfl, hrow, rfl⟩
        have hset : (colnProps f row.coln).settings = overlay (fieldSettings f) row.coln.settings := by
          funext s
          unfold overlay
          cases s with
          | displayname => cases hf : f.name <;> simp [colnProps, Coln.settings, fieldSettings, hf]
          | colour => cases hf : f.colour <;> simp [colnProps, Coln.settings, fieldSettings, hf]
          | description => cases hf : f.description <;> simp [colnProps, Coln.settings, fieldSettings, hf]
          | _ => rfl
        exact dbCollectionUpdate_runs hrow rfl hset hset.symm _
  | @proppatch r dav id hdav htype hany hval =>
    refine Cell.Runs.bind (dbPrncplLoad_runs (A := fun _ _ => True)
      (B := fun rows c => url ≠ [] ∧ ∃ row, rows.find? (fun c => c.url = url) = some row ∧ row.id = id ∧ c = row.coln.settings)
      le_rfl pid (fun db hready => ?_) fun db hready => ?_) ?_
    · obtain ⟨row, hget, hint⟩ := hready.prncpl
      exact ⟨row, hget, hint, trivial⟩
    · obtain ⟨row, -, hrow, hfind, hview⟩ := ColnReady.settings hready
      exact ⟨hready.named, row, hfind, hrow, hview⟩
    · rintro n c _ ⟨rfl, p, rfl, -, -, hcols⟩
      obtain ⟨rows, ⟨hnamed, row, hfind, hrow, rfl⟩, hp⟩ := hcols rfl
      have hcfg : requestedCfg url p = .ok (some row.coln) := by
        have hcols : p.cols.find? (fun c => c.url = url) = some row.coln := by
          rw [hp, List.find?_map]
          exact congrArg (Option.map ColRow.coln) hfind
        rw [requestedCfg, if_neg hnamed, hcols]
      have hset := foldl_proppatchSet hval row.coln
      have hsame := foldl_proppatchSet_id dav.props row.coln
      dsimp only [SettingsCall.handler]
      rw [hcfg]
      dsimp only
      rw [methodProppatch]
      dsimp only
      rw [hdav]
      dsimp only
      rw [if_neg (not_not.mpr htype), if_pos hany]
      exact dbCollectionUpdate_runs (hsame.trans hrow) rfl hset hset.symm _

end Calls

/-! ## Runs -/

/-- Two requests of a principal at work on a database. -/
def settingsSys (caldavParse : Bytes → Option Caldav) (name nonce url : Bytes) (call : Bool → SettingsCall) (db : Db) :
    Sys Bool Choice Db Reply :=
  ⟨db, fun i => (call i).prog caldavParse name nonce url⟩

/-- One of the requests has written the row before the other loads it. -/
def OneAfterOther (call : Bool → SettingsCall) (sched : List (Bool × Choice)) : Prop :=
  ∃ i s t, sched = s ++ t ∧ (call i).writesAt < Cell.actions i s ∧ Cell.actions (!i) s ≤ (call !i).loadsAt

/-- Two requests that set different settings of a row, one after the other, have both
set them when they are over. -/
theorem settings_kept (caldavParse : Bytes → Option Caldav) (name nonce url : Bytes) (pid : Int)
    (call : Bool → SettingsCall) (target : Target) (edit : Bool → Settings)
    (hsets : ∀ i, Sets caldavParse (call i) target (edit i)) (hdiff : ∀ s, edit false s = none ∨ edit true s = none)
    (db : Db) (hready : target.Ready name url pid
      (fun email => target.settings db .email = some email ∨ ∃ i, edit i .email = some email) db)
    (sched : List (Bool × Choice)) (hcalm : ∀ x ∈ sched, x.2.Faultless)
    (hdone : ∀ i, ∃ a, ((settingsSys caldavParse name nonce url call db).exec sched).proc i = .ret a)
    (horder : OneAfterOther call sched) :
    target.settings ((settingsSys caldavParse name nonce url call db).exec sched).shared =
        overlay (edit true) (overlay (edit false) (target.settings db)) ∧
      target.settings ((settingsSys caldavParse name nonce url call db).exec sched).shared =
        overlay (edit false) (overlay (edit true) (target.settings db)) := by
  obtain ⟨i, s, t, rfl, hfirst, hthen⟩ := horder
  have hstart : (target.cell name url pid _).Tracked (fun i => (call i).script (edit i)) (fun _ => 0)
      (fun _ => target.settings db) (settingsSys caldavParse name nonce url call db) :=
    ⟨hready, fun i => SettingsCall.follows (hsets i) fun email he => Or.inr ⟨i, he⟩⟩
  obtain ⟨a, ha⟩ := hdone (!i)
  have hboth : target.settings ((settingsSys caldavParse name nonce url call db).exec (s ++ t)).shared =
      overlay (edit !i) (overlay (edit i) (target.settings db)) :=
    hstart.both (fun i => (call i).loadsAt_lt) (fun x hx => hcalm x (List.mem_append_left t hx))
      (fun x hx => hcalm x (List.mem_append_right s hx)) hfirst hthen ha
  have hcomm := overlay_comm hdiff (target.settings db)
  cases i with
  | false => exact ⟨hboth, hboth.trans hcomm.symm⟩
  | true => exact ⟨hboth.trans hcomm, hboth⟩

/-- A form without fields. -/
def Fields.none : Fields := ⟨.none, .none, .none, .none, .none, .none, .none, .none, .none⟩

/-- A new password, and a new e-mail address. -/
def passAndEmail (second : Bool) : SettingsCall :=
  if second then .setemail { Fields.none with email := some (ascii "joe@example.net") }
  else .setpass { Fields.none with pass := some (ascii "secret") }

def passAndEmailSettings (second : Bool) : Settings := fun s =>
  if second then if s = .email then some (ascii "joe@example.net") else none
  else if s = .hash then some (ascii "secret") else none

theorem passAndEmail_sets (i : Bool) :
    Sets (fun _ => none) (passAndEmail i) (.prncpl 1) (passAndEmailSettings i) := by
  cases i with
  | false => exact Sets.setpass 1 rfl
  | true => exact Sets.setemail 1 rfl

theorem passAndEmail_apart (s : Setting) : passAndEmailSettings false s = none ∨ passAndEmailSettings true s = none := by
  cases s <;> decide

theorem passAndEmail_ready : (Target.prncpl 1).Ready (ascii "joe") (ascii "calendar") 1
    (fun email => (Target.prncpl 1).settings .oneCalendar .email = some email ∨
      ∃ i, passAndEmailSettings i .email = some email) .oneCalendar := by
  refine ⟨⟨⟨ascii "joe", ascii "hash", ascii "joe@example.com", 1⟩, by decide +kernel, by decide +kernel, by decide, .inl ?_⟩, ?_⟩
  · decide +kernel
  · intro q hq hne
    exact absurd (congrArg PrncplRow.id (List.mem_singleton.mp hq)) hne

/-- The first request is over before the second begins. -/
def passThenEmail : List (Bool × Choice) := List.replicate 5 (false, .calm) ++ List.replicate 5 (true, .calm)

/-- Both load the row before either writes it. -/
def bothLoad : List (Bool × Choice) :=
  List.replicate 4 (false, .calm) ++ List.replicate 4 (true, .calm) ++ [(false, .calm), (true, .calm)]

/-- One after the other, both changes are there in the end. -/
theorem settings_kept_passThenEmail :
    (Target.prncpl 1).settings ((settingsSys (fun _ => none) (ascii "joe") [] (ascii "calendar") passAndEmail
        .oneCalendar).exec passThenEmail).shared =
      overlay (passAndEmailSettings true) (overlay (passAndEmailSettings false) ((Target.prncpl 1).settings .oneCalendar)) := by
  refine (settings_kept (fun _ => none) (ascii "joe") [] (ascii "calendar") 1 passAndEmail (.prncpl 1)
    passAndEmailSettings passAndEmail_sets passAndEmail_apart .oneCalendar passAndEmail_ready passThenEmail ?_ ?_ ?_).1
  · intro x hx
    rcases List.mem_append.mp hx with hx | hx <;> rw [List.eq_of_mem_replicate hx] <;> exact Choice.calm_faultless
  · have hdone : ∀ i, (((settingsSys (fun _ => none) (ascii "joe") [] (ascii "calendar") passAndEmail
        .oneCalendar).exec passThenEmail).proc i).value.isSome := by decide +kernel
    intro i
    obtain ⟨a, ha⟩ := Option.isSome_iff_exists.mp (hdone i)
    exact ⟨a, Prog.value_eq_some.mp ha⟩
  · exact ⟨false, _, _, rfl, by decide, by decide⟩

/-- Where both load the row before either writes it, the new password is lost: the
second request writes back the old one, although both answered that all was well. -/
theorem settings_not_kept : (∀ x ∈ bothLoad, x.2.Faultless) ∧
    (∀ i, ((((settingsSys (fun _ => none) (ascii "joe") [] (ascii "calendar") passAndEmail
      .oneCalendar).exec bothLoad).proc i).value.bind Reply.status) = some 200) ∧
    (Target.prncpl 1).settings ((settingsSys (fun _ => none) (ascii "joe") [] (ascii "calendar") passAndEmail
      .oneCalendar).exec bothLoad).shared .hash = some (ascii "hash") ∧
    (Target.prncpl 1).settings ((settingsSys (fun _ => none) (ascii "joe") [] (ascii "calendar") passAndEmail
        .oneCalendar).exec bothLoad).shared ≠
      overlay (passAndEmailSettings true) (overlay (passAndEmailSettings false) ((Target.prncpl 1).settings .oneCalendar)) := by
  have hhash : (Target.prncpl 1).settings ((settingsSys (fun _ => none) (ascii "joe") [] (ascii "calendar") passAndEmail
      .oneCalendar).exec bothLoad).shared .hash = some (ascii "hash") := by decide +kernel
  refine ⟨?_, by decide +kernel, hhash, fun heq => ?_⟩
  · intro x hx
    rcases List.mem_append.mp hx with hx | hx
    · rcases List.mem_append.mp hx with hx | hx <;> rw [List.eq_of_mem_replicate hx] <;> exact Choice.calm_faultless
    · have hcalm : x.2 = .calm := by
        rcases List.mem_cons.mp hx with rfl | hx
        · rfl
        · rw [List.mem_singleton.mp hx]
      rw [hcalm]
      exact Choice.calm_faultless
  · rw [heq] at hhash
    exact absurd hhash (by decide +kernel)

end Kcaldav
