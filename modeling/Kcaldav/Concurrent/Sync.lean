import Kcaldav.Concurrent.LostUpdate

/-! # Synchronisation by ctag

Writers change the resources of a collection, in transactions or in separate
statements, while readers report the ctag and later list the resources. Every writer
changes before it increments, and every reader reads the ctag before it lists, so a
reader whose listing is out of date sees a ctag that is, or will be, too small. A
listing breaks off at a text that cannot be parsed; that is the one way in which it
can be wrong.
-/
namespace Kcaldav
open CString

variable (C : Libc)

/-! ## Listings -/

/-- The rows handed out by a listing in which no step fails. -/
def listing : Bool → List ResRow → List Res
  | _, [] => []
  | erange, r :: rs =>
    match icalParse C none erange r.data 0 with
    | (none, _) => []
    | (some (ical, _), diag) => r.res ical :: listing diag.erange rs

/-- Every text is accepted, each under the `errno` its predecessors leave. -/
def Readable : Bool → List ResRow → Prop
  | _, [] => True
  | erange, r :: rs =>
    (icalParse C none erange r.data 0).1.isSome ∧ Readable (icalParse C none erange r.data 0).2.erange rs

/-- No step fails. -/
def Choice.Faultless (e : Choice) : Prop := (∀ n, e.quiet n = true) ∧ e.commitFails = false

theorem Choice.Faultless.skip {e : Choice} (h : e.Faultless) (n : Nat) : (e.skip n).Faultless := by
  refine ⟨fun m => ?_, h.2⟩
  have hsum := h.1 (n + m)
  rw [Choice.quiet_add, h.1 n, Bool.true_and] at hsum
  exact hsum

theorem listRows_faultless {e : Choice} (h : e.Faultless) (erange : Bool) (rows : List ResRow) :
    (listRows C e erange rows).1 = listing C erange rows := by
  induction rows generalizing e erange with
  | nil => rfl
  | cons r rows ih =>
    rw [listRows, listing, h.1 1, if_pos rfl]
    rcases icalParse C none erange r.data 0 with ⟨_ | ⟨ical, q⟩, diag⟩
    · rfl
    · exact congrArg (List.cons (r.res ical)) (ih (h.skip 1) diag.erange)

/-- What a client sees of a resource. -/
def Res.view (r : Res) : Bytes × Bytes × Bytes := (r.url, r.etag, r.data)

def ResRow.view (r : ResRow) : Bytes × Bytes × Bytes := (r.url, r.etag, r.data)

/-- A listing is complete exactly where every text is accepted. -/
theorem listing_complete_iff (erange : Bool) (rows : List ResRow) :
    (listing C erange rows).map Res.view = rows.map ResRow.view ↔ Readable C erange rows := by
  induction rows generalizing erange with
  | nil => exact ⟨fun _ => trivial, fun _ => rfl⟩
  | cons r rows ih =>
    unfold listing Readable
    rcases icalParse C none erange r.data 0 with ⟨_ | ⟨ical, q⟩, diag⟩
    · constructor
      · intro h
        cases h
      · rintro ⟨h, -⟩
        cases h
    · constructor
      · intro h
        exact ⟨rfl, (ih diag.erange).mp (List.cons.inj h).2⟩
      · rintro ⟨-, h⟩
        exact congrArg (List.cons r.view) ((ih diag.erange).mpr h)

/-! ## Requests -/

/-- What a reader's `PROPFIND` reports. -/
inductive SyncResult
  | wrote
  | absent
  | listed (c : Coln) (resources : List Res)

/-- Load the principal, report its collection's ctag, list the resources. The result
of the listing is not looked at. -/
def propfindReader (name url : Bytes) : DbProg SyncResult := do
  match ← dbPrncplLoad name with
  | .found p =>
    match p.cols.find? fun c => c.url = url with
    | some c =>
      let resources ← dbCollectionResources C c.id
      return .listed c resources.1
    | none => return .absent
  | .absent => return .absent
  | .error => return .absent

inductive SyncCall
  | write (r : ResCall)
  | read (name url : Bytes)

def SyncCall.prog (colid : Int) : SyncCall → DbProg SyncResult
  | write r => do
    let _ ← r.prog C colid
    return .wrote
  | read name url => propfindReader C name url

/-- Where a request is. A writer may have changed resources and not yet the ctag; a
reader has loaded the collections, and then listed one of them. -/
inductive SyncStage
  | start
  | changed
  | done
  | loaded (cols : List Coln)
  | listed (c : Coln) (rows : List ResRow)

theorem SyncStage.start_ne_changed : SyncStage.start ≠ .changed := by
  intro h
  cases h

theorem SyncStage.done_ne_changed : SyncStage.done ≠ .changed := by
  intro h
  cases h

variable {ι : Type} (colid : Int) (call : ι → SyncCall)

/-- What one action of a request does to the database. -/
inductive SyncMove (i : ι) : SyncStage → Db → SyncStage → Db → Prop
  | look {db : Db} : SyncMove i .start db .start db
  | stop {db : Db} {l : SyncStage} : l ≠ .changed → SyncMove i l db .done db
  | load {db : Db} (pid : Int) : SyncMove i .start db (.loaded ((Sql.colIter pid db).map ColRow.coln)) db
  | pass {db : Db} {cols : List Coln} : SyncMove i (.loaded cols) db (.loaded cols) db
  | list {db : Db} {cols : List Coln} {c : Coln} : c ∈ cols →
      SyncMove i (.loaded cols) db (.listed c (Sql.resIter c.id db)) db
  | change {db db' : Db} {r : ResCall} : call i = .write r → db'.collection = db.collection →
      SyncMove i .start db .changed db'
  | bump {db : Db} : SyncMove i .changed db .done (Sql.colUpdateCtag colid db)
  | commit {db db' : Db} : db'.collection = db.collection → SyncMove i .start db .done (Sql.colUpdateCtag colid db')

/-- The requests as a protocol under which no step fails; `errno` as each request
finds it. -/
def syncProtocol (erange : ι → Bool) : Protocol ι Choice Db SyncResult SyncStage where
  allowed i e := e.Faultless ∧ e.erange = erange i
  move := SyncMove colid call
  ends i l
    | .wrote | .absent => l ≠ .changed
    | .listed c resources => ∃ rows, l = .listed c rows ∧ resources = listing C (erange i) rows

variable {colid call} {erange : ι → Bool} {i : ι}

theorem statement_faultless {α : Type} {e : Choice} (h : e.Faultless) (n : Nat) (err refused done : α)
    (f : Db → Option Db) (db : Db) :
    statement n err refused done f e db = match f db with
      | none => (refused, db)
      | some db' => (done, db') := by
  unfold statement
  exact if_pos (h.1 n)

theorem syncNew_follows {data url etag : Bytes} (h : call i = .write (.new data url etag)) :
    (syncProtocol C colid call erange).Follows i .start (SyncCall.prog C colid (.write (.new data url etag))) := by
  rw [SyncCall.prog, ResCall.prog, dbResourceNew_eq]
  intro e db he
  rw [statement_faultless he.1]
  cases hins : Sql.resInsert (cstr data) url colid etag db with
  | none => exact ⟨.done, .stop SyncStage.start_ne_changed, SyncStage.done_ne_changed⟩
  | some db₁ =>
    refine ⟨.changed, .change h (resInsert_collection hins), ?_⟩
    intro e' db' he'
    rw [statement_faultless he'.1]
    exact ⟨.done, .bump, SyncStage.done_ne_changed⟩

theorem syncRemove_follows {url : Bytes} (h : call i = .write (.remove url)) :
    (syncProtocol C colid call erange).Follows i .start (SyncCall.prog C colid (.write (.remove url))) := by
  rw [SyncCall.prog, ResCall.prog, dbResourceRemove_eq]
  intro e db he
  rw [statement_faultless he.1]
  refine ⟨.changed, .change h rfl, ?_⟩
  intro e' db' he'
  rw [statement_faultless he'.1]
  exact ⟨.done, .bump, SyncStage.done_ne_changed⟩

theorem syncUpdate_follows {data url digest etag : Bytes} :
    (syncProtocol C colid call erange).Follows i .start
      (SyncCall.prog C colid (.write (.update data url digest etag))) := by
  rw [SyncCall.prog, ResCall.prog, dbResourceUpdate_eq]
  intro e db he
  unfold resourceUpdate committed
  rw [he.1.1 5, he.1.1 13, he.1.2]
  rcases resourceLoaded C url colid e.erange db with _ | _ | res
  · exact ⟨.done, .stop SyncStage.start_ne_changed, SyncStage.done_ne_changed⟩
  · exact ⟨.done, .stop SyncStage.start_ne_changed, SyncStage.done_ne_changed⟩
  · by_cases htag : res.etag = digest
    · simp only [htag, ne_eq, not_true_eq_false, if_false, if_true, Bool.false_eq_true]
      exact ⟨.done, .commit rfl, SyncStage.done_ne_changed⟩
    · simp only [htag, ne_eq, not_false_eq_true, if_true]
      exact ⟨.done, .stop SyncStage.start_ne_changed, SyncStage.done_ne_changed⟩

theorem syncDelete_follows {url tag : Bytes} :
    (syncProtocol C colid call erange).Follows i .start (SyncCall.prog C colid (.write (.delete url tag))) := by
  rw [SyncCall.prog, ResCall.prog, dbResourceDelete_eq]
  intro e db he
  unfold resourceDelete committed
  rw [he.1.1 6, he.1.1 14, he.1.2]
  cases Sql.resGetEtag url colid tag db with
  | none => exact ⟨.done, .stop SyncStage.start_ne_changed, SyncStage.done_ne_changed⟩
  | some r => exact ⟨.done, .commit rfl, SyncStage.done_ne_changed⟩

theorem dbIter_does {α : Type} {q : Db → List α} {l : SyncStage} {Q : SyncStage → Option (List α) → Prop}
    (h : ∀ db, ∃ l', SyncMove colid call i l db l' db ∧ Q l' (some (q db))) :
    (syncProtocol C colid call erange).Does i l (dbIter q) Q := by
  rw [dbIter_eq]
  refine Protocol.Does.atom fun e db he => ?_
  rw [he.1.1, if_pos rfl]
  exact h db

/-- A reader that finds its principal has loaded the collections. -/
theorem dbPrncplLoad_does (name : Bytes) :
    (syncProtocol C colid call erange).Does i .start (dbPrncplLoad name) fun l r =>
      match r with
      | .found p => l = .loaded p.cols
      | .absent | .error => l = .done := by
  rw [dbPrncplLoad, dbPrncplGet_eq]
  refine Protocol.Does.bind (Q := fun l r => match r with
    | .found _ => l = .start
    | .absent | .error => l = .done) (Protocol.Does.atom fun e db he => ?_) ?_
  · unfold prncplFetched
    dsimp only
    rw [he.1.1 3, he.1.1 4, if_pos rfl]
    cases Sql.prncplGet name db with
    | none => exact ⟨.done, .stop nofun, rfl⟩
    | some p => exact ⟨.start, .look, rfl⟩
  · rintro l (_ | _ | p) hl
    · exact hl
    · exact hl
    · dsimp only at hl
      subst hl
      refine Protocol.Does.bind (Q := fun l r => ∃ cols, r = some cols ∧ l = .loaded (cols.map ColRow.coln))
        (dbIter_does C fun db => ⟨_, .load (int32 p.id), _, rfl, rfl⟩) ?_
      rintro l _ ⟨cols, rfl, rfl⟩
      refine Protocol.Does.bind (Q := fun l r => r.isSome ∧ l = .loaded (cols.map ColRow.coln))
        (dbIter_does C fun db => ⟨_, .pass, rfl, rfl⟩) ?_
      rintro l (_ | rproxies) ⟨hsome, rfl⟩
      · cases hsome
      refine Protocol.Does.bind (Q := fun l r => r.isSome ∧ l = .loaded (cols.map ColRow.coln))
        (dbIter_does C fun db => ⟨_, .pass, rfl, rfl⟩) ?_
      rintro l (_ | proxies) ⟨hsome, rfl⟩
      · cases hsome
      exact rfl

theorem syncRead_follows {name url : Bytes} :
    (syncProtocol C colid call erange).Follows i .start (SyncCall.prog C colid (.read name url)) := by
  refine Protocol.Does.bind (dbPrncplLoad_does C name) ?_
  rintro l (_ | _ | p) hl
  · obtain rfl := hl
    exact nofun
  · obtain rfl := hl
    exact nofun
  · obtain rfl := hl
    dsimp only
    cases hfind : p.cols.find? fun c => c.url = url with
    | none => exact nofun
    | some c =>
      dsimp only
      rw [dbCollectionResources_eq]
      intro e db he
      refine ⟨_, .list (List.mem_of_find?_eq_some hfind), _, rfl, ?_⟩
      dsimp only
      rw [he.1.1 2, if_pos rfl, he.2]
      exact listRows_faultless C (he.1.skip 2) (erange i) (Sql.resIter c.id db)

theorem syncCall_follows (i : ι) : (syncProtocol C colid call erange).Follows i .start ((call i).prog C colid) := by
  cases h : call i with
  | read name url => exact syncRead_follows C
  | write r =>
    cases r with
    | new data url etag => exact syncNew_follows C h
    | update data url digest etag => exact syncUpdate_follows C
    | delete url tag => exact syncDelete_follows C
    | remove url => exact syncRemove_follows C h

/-! ## The invariant -/

/-- The ctag of a collection. -/
def colCtag (colid : Int) (db : Db) : Option Int := (db.collection.find? fun c => c.id = colid).map ColRow.ctag

theorem colCtag_bump (db : Db) : colCtag colid (Sql.colUpdateCtag colid db) = (colCtag colid db).map (· + 1) := by
  have hid : (fun c : ColRow => decide ((if c.id = colid then { c with ctag := c.ctag + 1 } else c).id = colid)) =
      fun c => decide (c.id = colid) := by
    funext c
    split <;> rfl
  unfold colCtag Sql.colUpdateCtag
  dsimp only
  rw [List.find?_map, Function.comp_def, hid]
  cases hfind : db.collection.find? fun c => c.id = colid with
  | none => rfl
  | some c =>
    have hc : c.id = colid := by simpa using List.find?_some hfind
    simp [hc]

theorem colKeyed_bump {db : Db} (h : ColKeyed db) : ColKeyed (Sql.colUpdateCtag colid db) := by
  intro c hc c' hc' hid
  obtain ⟨b, hb, rfl⟩ := List.mem_map.mp hc
  obtain ⟨b', hb', rfl⟩ := List.mem_map.mp hc'
  have hsame : b.id = b'.id := by
    have hkeep : ∀ a : ColRow, (if a.id = colid then { a with ctag := a.ctag + 1 } else a).id = a.id := by
      intro a
      split <;> rfl
    rw [hkeep, hkeep] at hid
    exact hid
  rw [h b hb b' hb' hsame]

theorem colCtag_of_mem {db : Db} (h : ColKeyed db) {c : ColRow} (hc : c ∈ db.collection) (hid : c.id = colid) :
    colCtag colid db = some c.ctag := by
  unfold colCtag
  cases hfind : db.collection.find? fun c => c.id = colid with
  | none =>
    rw [List.find?_eq_none] at hfind
    exact absurd hid (by simpa using hfind c hc)
  | some c' =>
    have hid' : c'.id = colid := by simpa using List.find?_some hfind
    rw [h c' (List.mem_of_find?_eq_some hfind) c hc (hid'.trans hid.symm)]
    rfl

/-- The ctag is at least this. -/
def CtagFrom (colid v : Int) (db : Db) : Prop := ∃ now, colCtag colid db = some now ∧ v ≤ now

/-- What was listed is what there is, or the ctag is greater than reported, or a writer
is still to increment it. -/
structure SyncInv (colid : Int) (call : ι → SyncCall) (db : Db) (ls : ι → SyncStage) : Prop where
  keyed : ColKeyed db
  writes : ∀ j, ls j = .changed → ∃ r, call j = .write r
  loaded : ∀ i cols, ls i = .loaded cols → ∀ c ∈ cols, c.id = colid → CtagFrom colid c.ctag db
  listed : ∀ i c rows, ls i = .listed c rows → c.id = colid → CtagFrom colid c.ctag db ∧
    (colCtag colid db = some c.ctag → (∃ j, ls j = .changed) ∨ Sql.resIter colid db = rows)

theorem CtagFrom.bump {v : Int} {db : Db} (h : CtagFrom colid v db) : CtagFrom colid v (Sql.colUpdateCtag colid db) := by
  obtain ⟨now, hnow, hle⟩ := h
  exact ⟨now + 1, by rw [colCtag_bump, hnow]; rfl, by omega⟩

theorem CtagFrom.lt_bump {v : Int} {db : Db} (h : CtagFrom colid v db) :
    colCtag colid (Sql.colUpdateCtag colid db) ≠ some v := by
  obtain ⟨now, hnow, hle⟩ := h
  rw [colCtag_bump, hnow]
  intro hv
  have hlt : now + 1 = v := Option.some.inj hv
  omega

theorem colCtag_congr {db db' : Db} (h : db'.collection = db.collection) : colCtag colid db' = colCtag colid db := by
  rw [colCtag, h]
  rfl

section Step
variable [DecidableEq ι] {db db' : Db} {ls : ι → SyncStage} {l' : SyncStage}

theorem ColKeyed.congr (h : ColKeyed db) (hdb : db'.collection = db.collection) : ColKeyed db' := by
  unfold ColKeyed
  rw [hdb]
  exact h

omit [DecidableEq ι] in
theorem CtagFrom.congr {v : Int} (h : CtagFrom colid v db) (hdb : db'.collection = db.collection) :
    CtagFrom colid v db' := by
  obtain ⟨now, hnow, hle⟩ := h
  exact ⟨now, (colCtag_congr hdb).trans hnow, hle⟩

theorem update_ne {l : SyncStage} {j : ι} (h : Function.update ls i l' j = l) (hne : l' ≠ l) : j ≠ i ∧ ls j = l := by
  have hji : j ≠ i := by
    intro hji
    subst hji
    rw [Function.update_self] at h
    exact hne h
  rw [Function.update_of_ne hji] at h
  exact ⟨hji, h⟩

/-- After an increment no earlier report is up to date. -/
theorem SyncInv.bumped (h : SyncInv colid call db ls) (hdb : db'.collection = db.collection) :
    SyncInv colid call (Sql.colUpdateCtag colid db') (Function.update ls i .done) := by
  refine ⟨colKeyed_bump (h.keyed.congr hdb), fun j hj => h.writes j (update_ne hj nofun).2,
    fun j cols hj c hc hid => ?_, fun j c rows hj hid => ?_⟩
  · exact ((h.loaded j cols (update_ne hj nofun).2 c hc hid).congr hdb).bump
  · have hfrom := (h.listed j c rows (update_ne hj nofun).2 hid).1.congr hdb
    exact ⟨hfrom.bump, fun hsame => absurd hsame hfrom.lt_bump⟩

/-- A change of resources alone leaves its writer with the increment to make. -/
theorem SyncInv.changed (h : SyncInv colid call db ls) (hdb : db'.collection = db.collection) {r : ResCall}
    (hwrite : call i = .write r) : SyncInv colid call db' (Function.update ls i .changed) := by
  refine ⟨h.keyed.congr hdb, fun j hj => ?_, fun j cols hj c hc hid => ?_, fun j c rows hj hid => ?_⟩
  · by_cases hji : j = i
    · subst hji
      exact ⟨r, hwrite⟩
    · rw [Function.update_of_ne hji] at hj
      exact h.writes j hj
  · exact (h.loaded j cols (update_ne hj nofun).2 c hc hid).congr hdb
  · exact ⟨(h.listed j c rows (update_ne hj nofun).2 hid).1.congr hdb,
      fun _ => Or.inl ⟨i, Function.update_self ..⟩⟩

/-- A request that only reads keeps what holds of the others. -/
theorem SyncInv.reads (h : SyncInv colid call db ls) (hl : ls i ≠ .changed) (hl' : l' ≠ .changed)
    (hload : ∀ cols, l' = .loaded cols → ∀ c ∈ cols, c.id = colid → CtagFrom colid c.ctag db)
    (hlist : ∀ c rows, l' = .listed c rows → c.id = colid →
      CtagFrom colid c.ctag db ∧ Sql.resIter colid db = rows) :
    SyncInv colid call db (Function.update ls i l') := by
  refine ⟨h.keyed, fun j hj => h.writes j (update_ne hj hl').2, fun j cols hj => ?_, fun j c rows hj hid => ?_⟩
  · by_cases hji : j = i
    · subst hji
      rw [Function.update_self] at hj
      exact hload cols hj
    · rw [Function.update_of_ne hji] at hj
      exact h.loaded j cols hj
  · by_cases hji : j = i
    · subst hji
      rw [Function.update_self] at hj
      obtain ⟨hfrom, hrows⟩ := hlist c rows hj hid
      exact ⟨hfrom, fun _ => Or.inr hrows⟩
    · rw [Function.update_of_ne hji] at hj
      obtain ⟨hfrom, hrows⟩ := h.listed j c rows hj hid
      refine ⟨hfrom, fun hsame => (hrows hsame).imp_left ?_⟩
      rintro ⟨k, hk⟩
      have hki : k ≠ i := fun hki => hl (hki ▸ hk)
      exact ⟨k, by rwa [Function.update_of_ne hki]⟩

theorem SyncInv.move (h : SyncInv colid call db ls) (hm : SyncMove colid call i (ls i) db l' db') :
    SyncInv colid call db' (Function.update ls i l') := by
  generalize hl : ls i = l at hm
  cases hm with
  | look => exact h.reads (by rw [hl]; nofun) nofun nofun nofun
  | stop hne => exact h.reads (by rw [hl]; exact hne) nofun nofun nofun
  | load pid =>
    refine h.reads (by rw [hl]; nofun) nofun (fun cols hcols c hc hid => ?_) nofun
    cases hcols
    obtain ⟨row, hrow, rfl⟩ := List.mem_map.mp hc
    have hctag := colCtag_of_mem h.keyed (List.mem_of_mem_filter hrow) hid
    exact ⟨row.ctag, hctag, Int.le_refl row.ctag⟩
  | pass => exact h.reads (by rw [hl]; nofun) nofun (fun cols hcols => by cases hcols; exact h.loaded i _ hl) nofun
  | @list _ cols c hc =>
    refine h.reads (by rw [hl]; nofun) nofun nofun fun c' rows hlisted hid => ?_
    cases hlisted
    exact ⟨h.loaded i cols hl c hc hid, by rw [hid]⟩
  | change hwrite hdb => exact h.changed hdb hwrite
  | bump => exact h.bumped rfl
  | commit hdb => exact h.bumped hdb

end Step

/-! ## Runs -/

variable [DecidableEq ι]

/-- The requests at work on a database. -/
def syncSys (C : Libc) (colid : Int) (call : ι → SyncCall) (db : Db) : Sys ι Choice Db SyncResult :=
  ⟨db, fun i => (call i).prog C colid⟩

/-- A reader whose ctag is the final one, in a run without failing steps in which all
writers have come to their end, has listed the final resources exactly where all of
their texts are accepted. -/
theorem ctag_sync_iff (C : Libc) (colid : Int) (call : ι → SyncCall) (erange : ι → Bool) (db : Db)
    (hkeyed : ColKeyed db) (sched : List (ι × Choice))
    (hcalm : ∀ x ∈ sched, x.2.Faultless ∧ x.2.erange = erange x.1)
    (hdone : ∀ j r, call j = .write r → ∃ a, ((syncSys C colid call db).exec sched).proc j = .ret a)
    (i : ι) (c : Coln) (resources : List Res)
    (hread : ((syncSys C colid call db).exec sched).proc i = .ret (.listed c resources)) (hid : c.id = colid)
    (hctag : colCtag colid ((syncSys C colid call db).exec sched).shared = some c.ctag) :
    resources.map Res.view = (Sql.resIter colid ((syncSys C colid call db).exec sched).shared).map ResRow.view ↔
      Readable C (erange i) (Sql.resIter colid ((syncSys C colid call db).exec sched).shared) := by
  have hstart : (syncProtocol C colid call erange).Tracked (fun _ => .start) (syncSys C colid call db) :=
    syncCall_follows C
  have hinv : SyncInv colid call (syncSys C colid call db).shared fun _ => .start := ⟨hkeyed, nofun, nofun, nofun⟩
  have hmove : ∀ s ls i l' s', SyncInv colid call s ls → SyncMove colid call i (ls i) s l' s' →
      SyncInv colid call s' (Function.update ls i l') := fun _ _ _ _ _ h hm => h.move hm
  obtain ⟨ls, ht, hfinal⟩ := Protocol.Tracked.exec hmove sched hcalm hstart hinv
  have hends := ht i
  rw [hread] at hends
  obtain ⟨rows, hlisted, rfl⟩ := hends
  -- a writer that has come to its end has no increment left to make
  have hsettled : ¬∃ j, ls j = .changed := by
    rintro ⟨j, hj⟩
    obtain ⟨r, hwrite⟩ := hfinal.writes j hj
    obtain ⟨a, ha⟩ := hdone j r hwrite
    have hend := ht j
    rw [ha] at hend
    cases a with
    | wrote => exact hend hj
    | absent => exact hend hj
    | listed c' resources' =>
      obtain ⟨rows', hrows', _⟩ := hend
      rw [hj] at hrows'
      cases hrows'
  have hrows := ((hfinal.listed i c rows hlisted hid).2 hctag).resolve_left hsettled
  rw [hrows]
  exact listing_complete_iff C (erange i) rows

/-- A calendar without its `END`, up to the byte at which a C string ends. -/
def cutCalendar : Bytes :=
  ascii "BEGIN:VCALENDAR\nBEGIN:VEVENT\nUID:a" ++ NUL :: ascii "\nDTSTART:20240101T000000Z\nEND:VEVENT\nEND:VCALENDAR\n"

/-- One request stores a calendar, the other one lists the collection. -/
def storeAndList (data : Bytes) (second : Bool) : SyncCall :=
  if second then .read (ascii "joe") (ascii "calendar") else .write (.new data (ascii "a.ics") (ascii "1-1"))

def storeThenList : List (Bool × Choice) := List.replicate 2 (false, .calm) ++ List.replicate 5 (true, .calm)

theorem Choice.calm_faultless : Choice.calm.Faultless := ⟨quiet_calm, rfl⟩

theorem storeThenList_calm : ∀ x ∈ storeThenList, x.2.Faultless ∧ x.2.erange = false := by
  intro x hx
  rcases List.mem_append.mp hx with hx | hx <;> rw [List.eq_of_mem_replicate hx] <;>
    exact ⟨Choice.calm_faultless, rfl⟩

theorem oneCalendar_colKeyed : ColKeyed .oneCalendar := by
  unfold ColKeyed
  decide +kernel

theorem storeAndList_writer {data : Bytes} {S : Sys Bool Choice Db SyncResult} (h : (S.proc false).value.isSome) :
    ∀ j r, storeAndList data j = .write r → ∃ a, S.proc j = .ret a := by
  rintro (_ | _) r hr
  · obtain ⟨a, ha⟩ := Option.isSome_iff_exists.mp h
    exact ⟨a, Prog.value_eq_some.mp ha⟩
  · cases hr

/-- A reader that comes after the writer lists what was written. -/
theorem ctag_sync_iff_storeThenList : ∃ c resources,
    ((syncSys .utc 1 (storeAndList (ascii "BEGIN:VCALENDAR\nEND:VCALENDAR\n")) .oneCalendar).exec storeThenList).proc true =
      .ret (.listed c resources) ∧
    (resources.map Res.view = (Sql.resIter 1 ((syncSys .utc 1 (storeAndList (ascii "BEGIN:VCALENDAR\nEND:VCALENDAR\n"))
        .oneCalendar).exec storeThenList).shared).map ResRow.view ↔
      Readable .utc false (Sql.resIter 1 ((syncSys .utc 1 (storeAndList (ascii "BEGIN:VCALENDAR\nEND:VCALENDAR\n"))
        .oneCalendar).exec storeThenList).shared)) := by
  have hlisted : (((syncSys .utc 1 (storeAndList (ascii "BEGIN:VCALENDAR\nEND:VCALENDAR\n"))
      .oneCalendar).exec storeThenList).proc true).value.bind (fun
      | .listed c _ => some (c.id, c.ctag)
      | _ => none) = some (1, 2) := by decide +kernel
  have hwrote : (((syncSys .utc 1 (storeAndList (ascii "BEGIN:VCALENDAR\nEND:VCALENDAR\n"))
      .oneCalendar).exec storeThenList).proc false).value.isSome := by decide +kernel
  obtain ⟨a, ha, hres⟩ := Option.bind_eq_some_iff.mp hlisted
  cases a with
  | wrote => cases hres
  | absent => cases hres
  | listed c resources =>
    obtain ⟨hid, hctag⟩ : c.id = 1 ∧ c.ctag = 2 := by simpa using hres
    refine ⟨c, resources, Prog.value_eq_some.mp ha, ctag_sync_iff .utc 1 _ (fun _ => false) .oneCalendar
      oneCalendar_colKeyed storeThenList storeThenList_calm (storeAndList_writer hwrote) true c resources
      (Prog.value_eq_some.mp ha) hid ?_⟩
    rw [hctag]
    decide +kernel

/-- A reader gets no resources and the final ctag although there is a resource. -/
theorem ctag_not_sync :
    ¬∀ (ι : Type) [DecidableEq ι] (C : Libc) (colid : Int) (call : ι → SyncCall) (db : Db) (sched : List (ι × Choice)),
      ColKeyed db → (∀ x ∈ sched, x.2.Faultless) →
      (∀ j r, call j = .write r → ∃ a, ((syncSys C colid call db).exec sched).proc j = .ret a) →
      ∀ i c resources, ((syncSys C colid call db).exec sched).proc i = .ret (.listed c resources) → c.id = colid →
        colCtag colid ((syncSys C colid call db).exec sched).shared = some c.ctag →
        resources.map Res.view = (Sql.resIter colid ((syncSys C colid call db).exec sched).shared).map ResRow.view := by
  intro h
  have hlisted : (((syncSys .utc 1 (storeAndList cutCalendar) .oneCalendar).exec storeThenList).proc true).value.bind (fun
      | .listed c resources => some (c.id, c.ctag, resources.length)
      | _ => none) = some (1, 2, 0) := by decide +kernel
  have hwrote : (((syncSys .utc 1 (storeAndList cutCalendar) .oneCalendar).exec storeThenList).proc false).value.isSome := by
    decide +kernel
  obtain ⟨a, ha, hres⟩ := Option.bind_eq_some_iff.mp hlisted
  cases a with
  | wrote => cases hres
  | absent => cases hres
  | listed c resources =>
    obtain ⟨hid, hctag, rfl⟩ : c.id = 1 ∧ c.ctag = 2 ∧ resources = [] := by simpa using hres
    have hsame := h Bool .utc 1 (storeAndList cutCalendar) .oneCalendar storeThenList oneCalendar_colKeyed
      (fun x hx => (storeThenList_calm x hx).1) (storeAndList_writer hwrote) true c [] (Prog.value_eq_some.mp ha) hid ?_
    · exact absurd hsame (by decide +kernel)
    · rw [hctag]
      decide +kernel

end Kcaldav
