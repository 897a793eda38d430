import Kcaldav.Caldav.Recorded
import Kcaldav.Server.Invariant
import Kcaldav.Store.History

/-! # Valid stores

The colours of the collections, their ctags, and the permissions in the table of proxies.
A colour comes from the schema, from a form or from a property update; in the last two it
has passed a check, and a collection that is written back was loaded with one that had.
-/
namespace Kcaldav
open CString Markup

/-! ## Property updates -/

/-- Every entry of the request is one that `propadd` makes. -/
def Entered (p : DavParse) : Prop :=
  ∀ c, p.p = some c → ∀ prop ∈ c.props, ∃ name key cp, prop = propEntry c.type name key cp

theorem Entered.congr {s t : DavParse} (h : Entered s) (hp : t.p = s.p) : Entered t := by
  unfold Entered
  rw [hp]
  exact h

theorem propadd_entered {s t : DavParse} (h : Entered s) {name : Bytes} {key : CalPropType} {cp : Bytes}
    (hadd : propadd s name key cp = .ok t) : Entered t := by
  unfold propadd at hadd
  split at hadd
  · cases hadd
  next c hp =>
    cases hadd
    rintro c' ⟨⟩ prop hprop
    rcases List.mem_append.mp hprop with hprop | hprop
    · exact h c hp prop hprop
    · exact ⟨name, key, cp, List.mem_singleton.mp hprop⟩

theorem caldavAlloc_entered {s t : DavParse} {type : CalReqType} (halloc : caldavAlloc s type = .ok t) : Entered t := by
  unfold caldavAlloc at halloc
  split at halloc
  · cases halloc
  · cases halloc
    rintro c ⟨⟩
    exact nofun

/-- A handler keeps to the entries of `propadd`. -/
theorem step_entered {s t : DavParse} {e : Event Bytes UInt8} (h : Entered s) (hstep : s.step e = .ok t) : Entered t := by
  have hset {buf : Buf} {handlers : Handlers} {dflt : Bool} (ht : .ok ⟨s.p, buf, handlers, dflt⟩ = (.ok t : Except Halt DavParse)) :
      Entered t := by
    cases ht
    exact h.congr rfl
  cases e with
  | text u =>
    rw [DavParse.step_text] at hstep
    exact hset hstep
  | start n =>
    cases hh : s.handlers with
    | none =>
      simp only [DavParse.step, hh] at hstep
      exact hset hstep
    | parse =>
      rw [DavParse.step_start_parse hh, DavParse.parseopen_eq] at hstep
      cases hn : role n <;> simp only [hn] at hstep
      case request type => exact caldavAlloc_entered hstep
      all_goals exact hset hstep
    | prop =>
      rw [DavParse.step_start_prop hh, DavParse.propopen_eq] at hstep
      cases hn : role n <;> simp only [hn] at hstep
      case known prop => exact hset hstep
      all_goals exact propadd_entered h hstep
  | close n =>
    cases hh : s.handlers with
    | none =>
      simp only [DavParse.step, hh] at hstep
      exact hset hstep
    | parse =>
      rw [DavParse.step_close_parse hh, DavParse.parseclose_eq] at hstep
      cases hn : role n <;> simp only [hn] at hstep
      case href =>
        split at hstep
        · exact hset hstep
        · split at hstep
          · cases hstep
          next c hp =>
            split at hstep
            · cases hstep
            · cases hstep
              rintro c' ⟨⟩
              exact h c hp
      all_goals exact hset hstep
    | prop =>
      rw [DavParse.step_close_prop hh, DavParse.propclose_eq] at hstep
      cases hn : role n <;> simp only [hn] at hstep
      case known prop =>
        cases hadd : propadd s n prop (cstr s.buf.buf) with
        | error m =>
          rw [hadd] at hstep
          cases hstep
        | ok q =>
          rw [hadd] at hstep
          cases hstep
          exact (propadd_entered h hadd).congr rfl
      all_goals exact hset hstep

/-- What `caldav_parse` makes of a body, where `expat` gives the events of a well-formed one. -/
def caldavOf (expat : Bytes → Option (List (Event Bytes UInt8))) (body : Bytes) : Option Caldav :=
  match expat body with
  | none => none
  | some es =>
    match Kcaldav.caldavParse es with
    | .ok p => p
    | .error _ => none

/-- The properties of a request come from `propadd`. -/
theorem caldavOf_entered {expat : Bytes → Option (List (Event Bytes UInt8))} {body : Bytes} {dav : Caldav}
    (h : caldavOf expat body = some dav) {prop : CalProp} (hprop : prop ∈ dav.props) :
    ∃ name key cp, prop = propEntry dav.type name key cp := by
  unfold caldavOf at h
  split at h
  · cases h
  next es _ =>
    split at h
    next p hparse =>
      have hinit : Entered DavParse.init := nofun
      unfold Kcaldav.caldavParse at hparse
      cases hrun : run DavParse.step es .init with
      | error m =>
        rw [hrun] at hparse
        cases hparse
      | ok t =>
        rw [hrun] at hparse
        cases hparse
        exact run_keeps (fun s e t hs hstep => step_entered hs hstep) hinit hrun dav h prop hprop
    · cases h

/-- A colour that is not invalid is one. -/
theorem caldavOf_colour {expat : Bytes → Option (List (Event Bytes UInt8))} {body : Bytes} {dav : Caldav}
    (h : caldavOf expat body = some dav) (htype : dav.type = .propertyupdate) {prop : CalProp} (hprop : prop ∈ dav.props)
    (hkey : prop.key = .calendarColor) (hvalid : 0 ≤ prop.valid) : ∃ v, prop.val = some v ∧ IsColour v := by
  obtain ⟨name, key, cp, rfl⟩ := caldavOf_entered h hprop
  rw [propEntry_key] at hkey
  subst hkey
  rw [htype] at hvalid ⊢
  unfold propEntry at hvalid ⊢
  by_cases hcp : propvalidRgb cp
  · exact ⟨cp, rfl, propvalidRgb_iff.mp hcp⟩
  · simp [propvalids, hcp] at hvalid

/-! ## The invariant -/

/-- The colours, the ctags and the permissions of a store. -/
structure ValidStore (db : Db) : Prop where
  colour : ∀ c ∈ db.collection, IsColour c.colour
  ctag : ∀ c ∈ db.collection, 1 ≤ c.ctag
  bits : ∀ x ∈ db.proxy, x.bits = PROXY_READ ∨ x.bits = PROXY_WRITE
  others : ∀ x ∈ db.proxy, x.principal ≠ x.proxy

/-- Collections have different identifiers, none above those given out. -/
structure ColSeq (db : Db) : Prop where
  keyed : ColKeyed db
  bounded : ∀ c ∈ db.collection, c.id ≤ db.collectionSeq

/-- A collection that was there has no smaller ctag now. -/
structure CtagsSince (db₀ db : Db) : Prop where
  seq : db₀.collectionSeq ≤ db.collectionSeq
  since : ∀ c₀ ∈ db₀.collection, ∀ c ∈ db.collection, c₀.id = c.id → c₀.ctag ≤ c.ctag

theorem CtagsSince.refl {db : Db} (h : ColKeyed db) : CtagsSince db db where
  seq := Int.le_refl _
  since c hc c' hc' hid := by
    rw [h c hc c' hc' hid]

/-- What is kept from a moment on. -/
structure ValidSince (db₀ db : Db) : Prop extends ValidStore db, ColSeq db, CtagsSince db₀ db

variable {db₀ db db' : Db}

namespace ValidSince

/-- The collections are not changed. -/
theorem proxies (h : ValidSince db₀ db) (hcol : db'.collection = db.collection) (hseq : db'.collectionSeq = db.collectionSeq)
    (hproxy : ∀ x ∈ db'.proxy, (x.bits = PROXY_READ ∨ x.bits = PROXY_WRITE) ∧ x.principal ≠ x.proxy) : ValidSince db₀ db' := by
  obtain ⟨⟨hcolour, htag, -, -⟩, ⟨hkeyed, hbounded⟩, ⟨hle, hsince⟩⟩ := h
  unfold ColKeyed at hkeyed
  rw [← hcol] at hcolour htag hkeyed hbounded hsince
  rw [← hseq] at hbounded hle
  exact ⟨⟨hcolour, htag, fun x hx => (hproxy x hx).1, fun x hx => (hproxy x hx).2⟩, ⟨hkeyed, hbounded⟩, ⟨hle, hsince⟩⟩

/-- Other tables are changed. -/
theorem congr (h : ValidSince db₀ db) (hcol : db'.collection = db.collection) (hseq : db'.collectionSeq = db.collectionSeq)
    (hproxy : db'.proxy = db.proxy) : ValidSince db₀ db' := by
  refine h.proxies hcol hseq fun x hx => ?_
  rw [hproxy] at hx
  exact ⟨h.bits x hx, h.others x hx⟩

/-- Collections are changed, and their ctags do not get smaller. -/
theorem map (h : ValidSince db₀ db) {g : ColRow → ColRow} (hid : ∀ c, (g c).id = c.id) (htag : ∀ c, c.ctag ≤ (g c).ctag)
    (hcolour : ∀ c, IsColour c.colour → IsColour (g c).colour) (hcol : db'.collection = db.collection.map g)
    (hseq : db'.collectionSeq = db.collectionSeq) (hproxy : db'.proxy = db.proxy) : ValidSince db₀ db' := by
  have hof : ∀ c ∈ db'.collection, ∃ b ∈ db.collection, g b = c := fun c hc => List.mem_map.mp (hcol ▸ hc)
  refine ⟨⟨?_, ?_, hproxy ▸ h.bits, hproxy ▸ h.others⟩, ⟨?_, ?_⟩, ⟨hseq ▸ h.seq, ?_⟩⟩
  · intro c hc
    obtain ⟨b, hb, rfl⟩ := hof c hc
    exact hcolour b (h.colour b hb)
  · intro c hc
    obtain ⟨b, hb, rfl⟩ := hof c hc
    exact (h.ctag b hb).trans (htag b)
  · intro c hc c' hc' heq
    obtain ⟨b, hb, rfl⟩ := hof c hc
    obtain ⟨b', hb', rfl⟩ := hof c' hc'
    rw [hid, hid] at heq
    rw [h.keyed b hb b' hb' heq]
  · intro c hc
    obtain ⟨b, hb, rfl⟩ := hof c hc
    rw [hid, hseq]
    exact h.bounded b hb
  · intro c₀ hc₀ c hc heq
    obtain ⟨b, hb, rfl⟩ := hof c hc
    rw [hid] at heq
    exact (h.since c₀ hc₀ b hb heq).trans (htag b)

theorem bump (h : ValidSince db₀ db) (id : Int) : ValidSince db₀ (Sql.colUpdateCtag id db) := by
  refine h.map (g := ColRow.bump id) (readdresses_bump id).id (fun c => ?_) (fun c hc => ?_) rfl rfl rfl
  · unfold ColRow.bump
    split
    · exact Int.le_of_lt (Int.lt_succ c.ctag)
    · exact Int.le_refl _
  · unfold ColRow.bump
    split <;> exact hc

/-- What is written back is a colour. -/
theorem colUpdate (h : ValidSince db₀ db) {displayname colour description : Option Bytes} {id : Int}
    (hcolour : ∀ b, colour = some b → IsColour b)
    (hupd : Sql.colUpdate displayname colour description id db = some db') : ValidSince db₀ db' := by
  rcases colUpdate_cases hupd with rfl | ⟨n, c, d, hc, rfl⟩
  · exact h
  · refine h.map (g := ColRow.setTexts id n c d) (readdresses_setTexts id n c d).id (fun row => ?_) (fun row hrow => ?_) rfl rfl rfl
    · unfold ColRow.setTexts
      split <;> exact Int.le_refl _
    · unfold ColRow.setTexts
      split
      · exact hcolour c hc
      · exact hrow

theorem colRemove (h : ValidSince db₀ db) (id : Int) : ValidSince db₀ (Sql.colRemove id db) := by
  have hof : ∀ c ∈ (Sql.colRemove id db).collection, c ∈ db.collection := fun c hc => List.mem_of_mem_filter hc
  exact ⟨⟨fun c hc => h.colour c (hof c hc), fun c hc => h.ctag c (hof c hc), h.bits, h.others⟩,
    ⟨fun c hc c' hc' => h.keyed c (hof c hc) c' (hof c' hc'), fun c hc => h.bounded c (hof c hc)⟩,
    ⟨h.seq, fun c₀ hc₀ c hc => h.since c₀ hc₀ c (hof c hc)⟩⟩

/-- A new collection has the default colour, a ctag of one and an identifier that has not been used. -/
theorem colInsert (h : ValidSince db₀ db) (h₀ : ∀ c₀ ∈ db₀.collection, c₀.id ≤ db₀.collectionSeq) {p : Int} {url : Bytes}
    (hins : Sql.colInsert p url db = some db') : ValidSince db₀ db' := by
  have hrows : db'.collection = db.collection ++ [Sql.newCol p url (db.collectionSeq + 1)] := (colInsert_eq hins).2.1
  have hrest : db'.collectionSeq = db.collectionSeq + 1 ∧ db'.proxy = db.proxy := by
    unfold Sql.colInsert at hins
    split at hins
    · cases hins
    · cases hins
      exact ⟨rfl, rfl⟩
  have hof : ∀ c ∈ db'.collection, c ∈ db.collection ∨ c = Sql.newCol p url (db.collectionSeq + 1) := by
    intro c hc
    rw [hrows, List.mem_append, List.mem_singleton] at hc
    exact hc
  have hnew : (Sql.newCol p url (db.collectionSeq + 1)).id = db.collectionSeq + 1 := rfl
  have hseq := h.seq
  refine ⟨⟨fun c hc => ?_, fun c hc => ?_, hrest.2 ▸ h.bits, hrest.2 ▸ h.others⟩, ⟨fun c hc c' hc' heq => ?_, fun c hc => ?_⟩,
    ⟨?_, fun c₀ hc₀ c hc heq => ?_⟩⟩
  · rcases hof c hc with hc | rfl
    · exact h.colour c hc
    · exact newCol_colour p url _
  · rcases hof c hc with hc | rfl
    · exact h.ctag c hc
    · exact Int.le_refl 1
  · rcases hof c hc with hc | rfl <;> rcases hof c' hc' with hc' | rfl
    · exact h.keyed c hc c' hc' heq
    · have hle := h.bounded c hc
      omega
    · have hle := h.bounded c' hc'
      omega
    · rfl
  · rw [hrest.1]
    rcases hof c hc with hc | rfl
    · have hle := h.bounded c hc
      omega
    · exact Int.le_refl _
  · rw [hrest.1]
    omega
  · rcases hof c hc with hc | rfl
    · exact h.since c₀ hc₀ c hc heq
    · have hle := h₀ c₀ hc₀
      omega

theorem resInsert (h : ValidSince db₀ db) {data url etag : Bytes} {colid : Int}
    (hins : Sql.resInsert data url colid etag db = some db') : ValidSince db₀ db' := by
  unfold Sql.resInsert at hins
  split at hins
  · cases hins
  · cases hins
    exact h.congr rfl rfl rfl

theorem proxyRemove (h : ValidSince db₀ db) (p id : Int) : ValidSince db₀ (Sql.proxyRemove p id db) := by
  refine h.proxies rfl rfl fun x hx => ?_
  have hof := List.mem_of_mem_filter hx
  exact ⟨h.bits x hof, h.others x hof⟩

theorem proxyInsert (h : ValidSince db₀ db) {p id bits : Int} (hbits : bits = PROXY_READ ∨ bits = PROXY_WRITE) (hne : id ≠ p)
    (hins : Sql.proxyInsert p id bits db = some db') : ValidSince db₀ db' := by
  unfold Sql.proxyInsert at hins
  split at hins
  · cases hins
  · cases hins
    refine h.proxies rfl rfl fun x hx => ?_
    rcases List.mem_append.mp hx with hx | hx
    · exact ⟨h.bits x hx, h.others x hx⟩
    · rw [List.mem_singleton.mp hx]
      exact ⟨hbits, hne.symm⟩

theorem proxyUpdate (h : ValidSince db₀ db) {p id bits : Int} (hbits : bits = PROXY_READ ∨ bits = PROXY_WRITE) :
    ValidSince db₀ (Sql.proxyUpdate bits p id db) := by
  refine h.proxies rfl rfl fun x hx => ?_
  obtain ⟨y, hy, rfl⟩ := List.mem_map.mp hx
  split
  · exact ⟨hbits, h.others y hy⟩
  · exact ⟨h.bits y hy, h.others y hy⟩

end ValidSince

/-! ## Requests -/

/-- A collection in memory has no text for its colour, or a colour. -/
def Coloured (c : Coln) : Prop := ∀ b, c.colour = some b → IsColour b

theorem proppatchSet_coloured {c : Coln} (h : Coloured c) {prop : CalProp}
    (hprop : prop.key = .calendarColor → 0 ≤ prop.valid → ∃ v, prop.val = some v ∧ IsColour v) : Coloured (proppatchSet c prop) := by
  unfold proppatchSet
  split
  · exact h
  next hvalid =>
    split
    · exact h
    next hkey =>
      intro b hb
      obtain ⟨v, hv, hcolour⟩ := hprop hkey (not_lt.mp hvalid)
      cases hv.symm.trans hb
      exact hcolour
    · exact h
    · exact h

theorem foldl_proppatchSet_coloured {props : List CalProp}
    (hprops : ∀ prop ∈ props, prop.key = .calendarColor → 0 ≤ prop.valid → ∃ v, prop.val = some v ∧ IsColour v) {c : Coln}
    (h : Coloured c) : Coloured (props.foldl proppatchSet c) := by
  induction props generalizing c with
  | nil => exact h
  | cons prop props ih =>
    refine ih (fun prop' hprop' => hprops prop' (List.mem_cons_of_mem prop hprop')) ?_
    exact proppatchSet_coloured h (hprops prop List.mem_cons_self)

/-- The form sets a colour that has passed the check. -/
theorem colnProps_coloured (f : Fields) {c : Coln} (h : Coloured c) : Coloured (colnProps f.checked c) := by
  intro b hb
  change (f.colour.filter kvalidColour).elim c.colour some = some b at hb
  cases hc : f.colour.filter kvalidColour with
  | none =>
    rw [hc] at hb
    exact h b hb
  | some v =>
    rw [hc] at hb
    cases hb
    exact kvalidColour_iff.mp (Option.filter_eq_some_iff.mp hc).2

theorem checked_bits {f : Fields} {bits : Int} (h : f.checked.bits = some bits) : bits = PROXY_READ ∨ bits = PROXY_WRITE := by
  have hvalid := (Option.filter_eq_some_iff.mp h).2
  simpa [kvalidProxyBits, PROXY_READ, PROXY_WRITE] using hvalid

theorem validSince_kept (h₀ : ∀ c ∈ db₀.collection, c.id ≤ db₀.collectionSeq) : Kept (ValidSince db₀) Coloured where
  nonce _ _ _ h := h.congr rfl rfl rfl
  principal _ _ _ h := h.congr rfl rfl rfl
  proxyRemove p id _ h := h.proxyRemove p id
  ctag id _ h := h.bump id
  colRemove id _ h := h.colRemove id
  colInsert _ _ _ _ h hins := h.colInsert h₀ hins
  resFilter _ _ h := h.congr rfl rfl rfl
  resUpdate _ _ _ _ h := h.congr rfl rfl rfl
  loaded _ h c hc b hb := by
    cases hb
    exact h.colour c hc
  colUpdate _ _ _ hc h hupd := h.colUpdate hc hupd

theorem validSince_bears (C : Libc) (expat : Bytes → Option (List (Event Bytes UInt8))) (r : Kreq) :
    Bears (ValidSince db₀) Coloured C (caldavOf expat) r.checked where
  put _ _ _ _ _ _ _ _ _ _ _ _ h hins := h.resInsert hins
  props _ _ _ hparse htype _ hc := foldl_proppatchSet_coloured (fun _ hprop => caldavOf_colour hparse htype hprop) hc
  form _ hc := colnProps_coloured r.fields hc
  proxy _ hbits _ _ hne :=
    ⟨fun _ _ h hins => h.proxyInsert (checked_bits hbits) hne hins, fun _ h => h.proxyUpdate (checked_bits hbits)⟩

/-! ## Runs -/

variable {C : Libc} {expat : Bytes → Option (List (Event Bytes UInt8))}

theorem serverRun_validSince (h₀ : ∀ c ∈ db₀.collection, c.id ≤ db₀.collectionSeq) (steps : List ServerStep) :
    Prog.Ensures (ValidSince db₀) (serverRun C (caldavOf expat) steps) fun _ => ValidSince db₀ := by
  refine serverRun_keeps fun s _ => ?_
  cases s with
  | request r etag draws => exact (validSince_kept h₀).request (validSince_bears C expat r) etag draws
  | passwd a => exact (validSince_kept h₀).passwd a fun _ _ _ _ _ _ _ _ h hins => h.resInsert hins

/-- A store that has just been made. -/
theorem validSince_empty : ValidSince .empty .empty where
  colour _ hc := absurd hc List.not_mem_nil
  ctag _ hc := absurd hc List.not_mem_nil
  bits _ hx := absurd hx List.not_mem_nil
  others _ hx := absurd hx List.not_mem_nil
  keyed _ hc := absurd hc List.not_mem_nil
  bounded _ hc := absurd hc List.not_mem_nil
  seq := Int.le_refl _
  since _ hc := absurd hc List.not_mem_nil

/-- Every store that comes of requests and of runs of the tool is valid, and no ctag in it gets
smaller as long as its collection is there. -/
theorem serverRun_valid (before between : List ServerStep) (cs cs' : ℕ → Choice) :
    ValidStore (serverStore C (caldavOf expat) before cs .empty) ∧
      ∀ c ∈ (serverStore C (caldavOf expat) before cs .empty).collection,
        ∀ c' ∈ (serverStore C (caldavOf expat) between cs' (serverStore C (caldavOf expat) before cs .empty)).collection,
          c.id = c'.id → c.ctag ≤ c'.ctag := by
  have hbefore : ValidSince .empty (serverStore C (caldavOf expat) before cs .empty) :=
    serverRun_validSince validSince_empty.bounded before cs .empty validSince_empty
  generalize serverStore C (caldavOf expat) before cs .empty = db at hbefore
  have hbetween : ValidSince db (serverStore C (caldavOf expat) between cs' db) :=
    serverRun_validSince hbefore.bounded between cs' db ⟨hbefore.toValidStore, hbefore.toColSeq, .refl hbefore.keyed⟩
  exact ⟨hbefore.toValidStore, hbetween.since⟩

end Kcaldav
