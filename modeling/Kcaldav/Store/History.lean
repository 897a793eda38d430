import Mathlib.Data.Int.Order.Basic
import Kcaldav.Concurrent.LostUpdate
import Kcaldav.Library.Version
import Kcaldav.Server.Precondition
import Kcaldav.Store.Frame

/-! # Histories of a collection

The operations that change what a collection holds or says of itself, one after the
other, each of them successful. The ctag counts the changes of a row. A row is deleted
with its count, and the collection that is created at its address starts again.
-/
namespace Kcaldav
open CString

variable (C : Libc)

/-- An operation on a collection or its resources, or the making of one. -/
inductive ColOp
  | resource (colid : Int) (call : ResCall)
  | props (c : Coln)
  | remove (id : Int)
  | create (url : Bytes) (prncpl : Int)
  | createPrncpl (name hash email directory : Bytes)

namespace ColOp

/-- The operation; what it returns is positive where it succeeds. -/
def prog : ColOp → DbProg Int
  | resource colid call => call.prog C colid
  | props c => do return if ← dbCollectionUpdate c then 1 else 0
  | remove id => do return if ← dbCollectionRemove id then 1 else 0
  | create url prncpl => dbCollectionNew url prncpl
  | createPrncpl name hash email directory => dbPrncplNew name hash email directory

/-- The operation makes a collection at an address that has none. -/
def Creates (db : Db) (pid : Int) (url : Bytes) (op : ColOp) : Prop :=
  Sql.colGet pid url db = none ∧
    match op with
    | create url' prncpl => url' = url ∧ prncpl = pid
    | createPrncpl _ _ _ directory => directory = url ∧ db.principalSeq + 1 = pid
    | _ => False

/-- The operation succeeds and leads from the one database to the other. -/
def Succeeds (op : ColOp) (db db' : Db) : Prop := ∃ cs, 0 < ((op.prog C).run cs db).1 ∧ ((op.prog C).run cs db).2.1 = db'

end ColOp

/-- What a collection says of itself and holds. -/
structure ColContent where
  displayname : Bytes
  colour : Bytes
  description : Bytes
  members : Set (Bytes × Bytes)

def ColRow.content (db : Db) (c : ColRow) : ColContent where
  displayname := c.displayname
  colour := c.colour
  description := c.description
  members := {x | ∃ r ∈ Sql.resIter c.id db, (r.url, r.etag) = x}

/-- The ctag that a collection reports, and its content. -/
def reported (pid : Int) (url : Bytes) (db : Db) : Option (Versioned Int ColContent) :=
  (Sql.colGet pid url db).map fun c => ⟨c.ctag, c.content db⟩

/-- Resources have different identifiers, and collections different addresses. -/
structure StoreKeyed (db : Db) : Prop where
  resource : Keyed db
  address : ∀ c ∈ db.collection, ∀ c' ∈ db.collection, c.principal = c'.principal → c.url = c'.url → c = c'

variable {C} {pid : Int} {url : Bytes} {db db' : Db}

/-! ## Rows and addresses -/

theorem colGet_iff (h : StoreKeyed db) {c : ColRow} :
    Sql.colGet pid url db = some c ↔ c ∈ db.collection ∧ c.principal = pid ∧ c.url = url := by
  unfold Sql.colGet
  constructor
  · intro hfind
    have hc : c.principal = pid ∧ c.url = url := by simpa using List.find?_some hfind
    exact ⟨List.mem_of_find?_eq_some hfind, hc⟩
  · rintro ⟨hc, hpid, hurl⟩
    cases hfind : db.collection.find? fun c => c.principal = pid ∧ c.url = url with
    | none => exact absurd (List.find?_eq_none.mp hfind c hc) (by simp [hpid, hurl])
    | some c' =>
      have hc' : c'.principal = pid ∧ c'.url = url := by simpa using List.find?_some hfind
      rw [h.address c' (List.mem_of_find?_eq_some hfind) c hc (hc'.1.trans hpid.symm) (hc'.2.trans hurl.symm)]

/-- A change of rows that leaves their addresses. -/
structure Readdresses (g : ColRow → ColRow) : Prop where
  principal : ∀ c, (g c).principal = c.principal
  url : ∀ c, (g c).url = c.url
  id : ∀ c, (g c).id = c.id

theorem StoreKeyed.map (h : StoreKeyed db) {g : ColRow → ColRow} (hg : Readdresses g) (hres : Keyed db')
    (hcol : db'.collection = db.collection.map g) : StoreKeyed db' := by
  refine ⟨hres, fun c hc c' hc' hpid hurl => ?_⟩
  rw [hcol] at hc hc'
  obtain ⟨b, hb, rfl⟩ := List.mem_map.mp hc
  obtain ⟨b', hb', rfl⟩ := List.mem_map.mp hc'
  rw [hg.principal, hg.principal] at hpid
  rw [hg.url, hg.url] at hurl
  rw [h.address b hb b' hb' hpid hurl]

theorem colGet_map {g : ColRow → ColRow} (hg : Readdresses g) (hcol : db'.collection = db.collection.map g) :
    Sql.colGet pid url db' = (Sql.colGet pid url db).map g := by
  unfold Sql.colGet
  rw [hcol, List.find?_map]
  simp only [Function.comp_def, hg.principal, hg.url]

/-! ## What the statements do -/

/-- One collection is changed, with its resources, and counts it. -/
theorem reported_map {colid : Int} {g : ColRow → ColRow} (hg : Readdresses g) (hcount : ∀ c, c.id = colid → c.ctag < (g c).ctag)
    (hrest : ∀ c, c.id ≠ colid → g c = c) (hcol : db'.collection = db.collection.map g)
    (hres : ∀ id, id ≠ colid → Sql.resIter id db' = Sql.resIter id db) :
    Versioned.Advances (reported pid url db) (reported pid url db') := by
  unfold reported
  rw [colGet_map hg hcol]
  intro y hy
  obtain ⟨c', hc', rfl⟩ := Option.map_eq_some_iff.mp hy
  obtain ⟨c, hc, rfl⟩ := Option.map_eq_some_iff.mp hc'
  refine ⟨_, Option.map_eq_some_iff.mpr ⟨c, hc, rfl⟩, ?_⟩
  by_cases hid : c.id = colid
  · exact Or.inr (hcount c hid)
  · rw [hrest c hid]
    unfold ColRow.content
    rw [hres c.id hid]
    exact Or.inl rfl

/-- The ctag of a collection counts a change. -/
def ColRow.bump (colid : Int) (c : ColRow) : ColRow := if c.id = colid then { c with ctag := c.ctag + 1 } else c

theorem readdresses_bump (colid : Int) : Readdresses (ColRow.bump colid) := by
  constructor <;> intro c <;> unfold ColRow.bump <;> split <;> rfl

/-- Resources of one collection are changed, and the collection counts it. -/
theorem reported_ctag {colid : Int} {db₁ : Db} (hcol : db₁.collection = db.collection)
    (hres : ∀ id, id ≠ colid → Sql.resIter id db₁ = Sql.resIter id db) :
    Versioned.Advances (reported pid url db) (reported pid url (Sql.colUpdateCtag colid db₁)) := by
  refine reported_map (readdresses_bump colid) (fun c hid => ?_) (fun c hid => if_neg hid) ?_ hres
  · rw [ColRow.bump, if_pos hid]
    exact Int.lt_succ c.ctag
  · rw [← hcol]
    rfl

theorem resIter_filter {colid id : Int} (hid : id ≠ colid) {keep : ResRow → Bool} (hkeep : ∀ r, r.collection ≠ colid → keep r) :
    Sql.resIter id { db with resource := db.resource.filter keep } = Sql.resIter id db := by
  unfold Sql.resIter
  rw [List.filter_filter]
  refine List.filter_congr fun r _ => ?_
  by_cases hr : r.collection = id
  · simp [hr, hkeep r (hr ▸ hid)]
  · simp [hr]

theorem resIter_resInsert {colid id : Int} (hid : id ≠ colid) {data url etag : Bytes}
    (hins : Sql.resInsert data url colid etag db = some db') : Sql.resIter id db' = Sql.resIter id db := by
  unfold Sql.resIter
  rw [(resInsert_eq hins).1, List.filter_append]
  simp [Ne.symm hid]

theorem resIter_resUpdate (hk : Keyed db) {r : ResRow} (hr : r ∈ db.resource) {id : Int} (hid : id ≠ r.collection)
    (data etag : Bytes) : Sql.resIter id (Sql.resUpdate data etag r.id db) = Sql.resIter id db := by
  have hcol : ∀ row : ResRow, (if row.id = r.id then { row with data := data, etag := etag } else row).collection = row.collection := by
    intro row
    split <;> rfl
  unfold Sql.resIter Sql.resUpdate
  dsimp only
  rw [List.filter_map]
  simp only [Function.comp_def, hcol]
  refine (List.map_congr_left fun row hrow => ?_).trans (List.map_id _)
  obtain ⟨hmem, hin⟩ := List.mem_filter.mp hrow
  refine if_neg fun hsame => hid ?_
  rw [← hk.unique row hmem r hr hsame]
  exact (of_decide_eq_true hin).symm

/-- A collection is removed with its resources. -/
theorem reported_remove {id : Int} (h : StoreKeyed db) (h' : StoreKeyed (Sql.colRemove id db)) :
    Versioned.Advances (reported pid url db) (reported pid url (Sql.colRemove id db)) := by
  intro y hy
  obtain ⟨c, hc, rfl⟩ := Option.map_eq_some_iff.mp hy
  obtain ⟨hmem, hat⟩ := (colGet_iff h').mp hc
  obtain ⟨hold, hid⟩ := List.mem_filter.mp hmem
  refine ⟨⟨c.ctag, c.content db⟩, Option.map_eq_some_iff.mpr ⟨c, (colGet_iff h).mpr ⟨hold, hat⟩, rfl⟩, Or.inl ?_⟩
  have hres : Sql.resIter c.id (Sql.colRemove id db) = Sql.resIter c.id db :=
    resIter_filter (of_decide_eq_true hid) fun r hr => decide_eq_true hr
  unfold ColRow.content
  rw [hres]

theorem colInsert_eq {pid' : Int} {url' : Bytes} (hins : Sql.colInsert pid' url' db = some db') :
    Sql.colGet pid' url' db = none ∧ db'.collection = db.collection ++ [Sql.newCol pid' url' (db.collectionSeq + 1)] ∧
      db'.resource = db.resource ∧ db'.resourceSeq = db.resourceSeq := by
  unfold Sql.colInsert at hins
  split at hins
  · cases hins
  next hfree =>
    cases hins
    exact ⟨by simpa using fun hsome => hfree (Or.inl hsome), rfl, rfl, rfl⟩

theorem colGet_append {new : ColRow} (hcol : db'.collection = db.collection ++ [new]) :
    Sql.colGet pid url db' = (Sql.colGet pid url db).or (if new.principal = pid ∧ new.url = url then some new else none) := by
  unfold Sql.colGet
  rw [hcol, List.find?_append, List.find?_singleton]
  simp only [decide_eq_true_eq]

/-- A collection is made elsewhere. -/
theorem reported_create {pid' : Int} {url' : Bytes} (hins : Sql.colInsert pid' url' db = some db')
    (hnot : ¬(Sql.colGet pid url db = none ∧ url' = url ∧ pid' = pid)) :
    Versioned.Advances (reported pid url db) (reported pid url db') := by
  obtain ⟨-, hcol, hres, -⟩ := colInsert_eq hins
  have hget : Sql.colGet pid url db' = Sql.colGet pid url db := by
    rw [colGet_append hcol]
    cases hold : Sql.colGet pid url db with
    | some c => rfl
    | none =>
      rw [Option.none_or]
      exact if_neg fun hat => hnot ⟨hold, hat.2, hat.1⟩
  have hcontent : ∀ c : ColRow, c.content db' = c.content db := by
    intro c
    unfold ColRow.content Sql.resIter
    rw [hres]
  unfold reported
  rw [hget]
  simp only [hcontent]
  exact Versioned.Advances.refl _

/-! ## The operations -/

theorem StoreKeyed.fewer (h : StoreKeyed db) (hcol : ∀ c ∈ db'.collection, c ∈ db.collection) (hres : Keyed db') : StoreKeyed db' :=
  ⟨hres, fun c hc c' hc' => h.address c (hcol c hc) c' (hcol c' hc')⟩

theorem StoreKeyed.ctag (h : StoreKeyed db) (colid : Int) : StoreKeyed (Sql.colUpdateCtag colid db) :=
  h.map (readdresses_bump colid) (h.resource.fewer (fun _ => id) rfl) rfl

theorem StoreKeyed.colInsert {pid' : Int} {url' : Bytes} (h : StoreKeyed db) (hins : Sql.colInsert pid' url' db = some db') :
    StoreKeyed db' := by
  obtain ⟨hnone, hcol, hres, hseq⟩ := colInsert_eq hins
  have hfree : ∀ c ∈ db.collection, ¬(c.principal = pid' ∧ c.url = url') := by
    intro c hc hat
    rw [(colGet_iff h).mpr ⟨hc, hat⟩] at hnone
    cases hnone
  refine ⟨h.resource.fewer (fun r hr => hres ▸ hr) hseq, fun c hc c' hc' hpid hurl => ?_⟩
  rw [hcol, List.mem_append, List.mem_singleton] at hc hc'
  rcases hc with hc | rfl <;> rcases hc' with hc' | rfl
  · exact h.address c hc c' hc' hpid hurl
  · exact absurd ⟨hpid, hurl⟩ (hfree c hc)
  · exact absurd ⟨hpid.symm, hurl.symm⟩ (hfree c' hc')
  · rfl

/-- The texts of a collection are set. -/
def ColRow.setTexts (id : Int) (displayname colour description : Bytes) (c : ColRow) : ColRow :=
  if c.id = id then { c with displayname := displayname, colour := colour, description := description } else c

theorem readdresses_setTexts (id : Int) (n c d : Bytes) : Readdresses (ColRow.setTexts id n c d) := by
  constructor <;> intro row <;> unfold ColRow.setTexts <;> split <;> rfl

theorem colUpdate_cases {displayname colour description : Option Bytes} {id : Int}
    (hupd : Sql.colUpdate displayname colour description id db = some db') :
    db' = db ∨ ∃ n c d, colour = some c ∧ db' = { db with collection := db.collection.map (ColRow.setTexts id n c d) } := by
  unfold Sql.colUpdate at hupd
  split at hupd
  next n c d =>
    cases hupd
    exact Or.inr ⟨n, c, d, rfl, rfl⟩
  · split at hupd
    · cases hupd
    · cases hupd
      exact Or.inl rfl

theorem StoreKeyed.colUpdate {displayname colour description : Option Bytes} {id : Int} (h : StoreKeyed db)
    (hupd : Sql.colUpdate displayname colour description id db = some db') : StoreKeyed db' := by
  rcases colUpdate_cases hupd with rfl | ⟨n, c, d, -, rfl⟩
  · exact h
  · exact h.map (readdresses_setTexts id n c d) (h.resource.fewer (fun _ hr => hr) rfl) rfl

theorem prncplInsert_eq {name hash email : Bytes} (hins : Sql.prncplInsert name hash email db = some db') :
    db'.collection = db.collection ∧ db'.resource = db.resource ∧ db'.resourceSeq = db.resourceSeq ∧
      db'.principalSeq = db.principalSeq + 1 := by
  unfold Sql.prncplInsert at hins
  split at hins
  · cases hins
  · cases hins
    exact ⟨rfl, rfl, rfl, rfl⟩

theorem StoreKeyed.prncplInsert {name hash email : Bytes} (h : StoreKeyed db)
    (hins : Sql.prncplInsert name hash email db = some db') : StoreKeyed db' := by
  obtain ⟨hcol, hres, hseq, -⟩ := prncplInsert_eq hins
  exact h.fewer (fun c hc => hcol ▸ hc) (h.resource.fewer (fun r hr => hres ▸ hr) hseq)

/-- An operation keeps the addresses, whether it succeeds or not. -/
theorem ColOp.storeKeyed (op : ColOp) : Prog.Ensures StoreKeyed (op.prog C) fun _ => StoreKeyed := by
  have hctag : ∀ colid db, StoreKeyed db → StoreKeyed (Sql.colUpdateCtag colid db) := fun colid _ h => h.ctag colid
  have hfilter : ∀ (keep : ResRow → Bool) db, StoreKeyed db → StoreKeyed { db with resource := db.resource.filter keep } :=
    fun keep _ h => h.fewer (fun _ => id) (h.resource.fewer (fun r hr => List.mem_of_mem_filter hr) rfl)
  have hend : ∀ {p : DbProg Bool}, Prog.Ensures StoreKeyed p (fun _ => StoreKeyed) →
      Prog.Ensures StoreKeyed (p >>= fun done => Prog.ret (if done then 1 else 0 : Int)) fun _ => StoreKeyed :=
    fun hp => Prog.Ensures.bind hp fun _ => Prog.Ensures.ret fun _ => id
  cases op with
  | resource colid call =>
    cases call with
    | new data url etag =>
      exact dbResourceNew_keeps (hctag colid) fun db db' h hins =>
        h.fewer (fun c hc => resInsert_collection hins ▸ hc) (h.resource.resInsert hins)
    | update data url digest etag =>
      exact dbResourceUpdate_keeps (hctag colid) fun id db h => h.fewer (fun _ hc => hc) (h.resource.resUpdate _ _ _)
    | delete url tag => exact hend (dbResourceDelete_keeps (hctag colid) (hfilter _))
    | remove url => exact hend (dbResourceRemove_keeps (hctag colid) (hfilter _))
  | props c => exact hend (dbCollectionUpdate_keeps (hctag c.id) rfl fun db db' h hupd => h.colUpdate hupd)
  | remove id =>
    exact hend (dbCollectionRemove_keeps fun db h =>
      h.fewer (fun c hc => List.mem_of_mem_filter hc) (h.resource.fewer (fun r hr => List.mem_of_mem_filter hr) rfl))
  | create url prncpl => exact dbCollectionNew_keeps fun db db' h hins => h.colInsert hins
  | createPrncpl name hash email directory =>
    exact dbPrncplNew_keeps (fun db db' h hins => h.prncplInsert hins) fun p db db' h hins => h.colInsert hins

/-- The texts are set, and the collection counts it. -/
theorem reported_colUpdate {displayname colour description : Option Bytes} {id : Int} {db₁ : Db}
    (hupd : Sql.colUpdate displayname colour description id db = some db₁) :
    Versioned.Advances (reported pid url db) (reported pid url (Sql.colUpdateCtag id db₁)) := by
  rcases colUpdate_cases hupd with rfl | ⟨n, c, d, -, rfl⟩
  · exact reported_ctag rfl fun _ _ => rfl
  · have hsets : ∀ row : ColRow, row.id = id → ColRow.setTexts id n c d row = { row with displayname := n, colour := c, description := d } :=
      fun row hid => if_pos hid
    have hboth : Readdresses fun row => ColRow.bump id (ColRow.setTexts id n c d row) := by
      have hb := readdresses_bump id
      have hs := readdresses_setTexts id n c d
      exact ⟨fun row => (hb.principal _).trans (hs.principal row), fun row => (hb.url _).trans (hs.url row),
        fun row => (hb.id _).trans (hs.id row)⟩
    have hmap : (db.collection.map (ColRow.setTexts id n c d)).map (ColRow.bump id) =
        db.collection.map fun row => ColRow.bump id (ColRow.setTexts id n c d row) := List.map_map
    refine reported_map hboth (fun row hid => ?_) (fun row (hid : row.id ≠ id) => ?_) hmap fun _ _ => rfl
    · rw [hsets row hid, ColRow.bump, if_pos hid]
      exact Int.lt_succ row.ctag
    · rw [ColRow.setTexts, if_neg hid, ColRow.bump, if_neg hid]

/-- What a routine without a number of its own returns. -/
theorem run_done (p : DbProg Bool) (cs : ℕ → Choice) (db : Db) :
    (p >>= fun done => Prog.ret (if done then 1 else 0 : Int)).run cs db = (if (p.run cs db).1 then 1 else 0, (p.run cs db).2) :=
  Prog.run_bind_ret p _ cs db

/-- A successful operation on resources of one collection. -/
theorem reported_resource (h : StoreKeyed db) {colid : Int} {call : ResCall} (hs : (ColOp.resource colid call).Succeeds C db db') :
    Versioned.Advances (reported pid url db) (reported pid url db') := by
  obtain ⟨cs, hpos, rfl⟩ := hs
  have hfilter : ∀ keep : ResRow → Bool, (∀ r, r.collection ≠ colid → keep r) → Versioned.Advances (reported pid url db)
      (reported pid url (Sql.colUpdateCtag colid { db with resource := db.resource.filter keep })) :=
    fun keep hkeep => reported_ctag rfl fun id hid => resIter_filter hid hkeep
  unfold ColOp.prog at hpos ⊢
  cases call with
  | new data url' etag =>
    dsimp only [ResCall.prog] at hpos ⊢
    rw [dbResourceNew_run] at hpos ⊢
    split at hpos
    next hquiet =>
      rw [if_pos hquiet]
      cases hins : Sql.resInsert (cstr data) url' colid etag db with
      | none => exact Versioned.Advances.refl _
      | some db₁ =>
        simp only [hins] at hpos ⊢
        split at hpos
        next hbump =>
          rw [if_pos hbump]
          exact reported_ctag (resInsert_collection hins) fun id hid => resIter_resInsert hid hins
        · simp at hpos
    · simp at hpos
  | update data url' digest etag =>
    dsimp only [ResCall.prog]
    rw [dbResourceUpdate_eq, Prog.run_atom]
    dsimp only
    by_cases hsame : (resourceUpdate C data url' digest colid etag (cs 0) db).2 = db
    · rw [hsame]
      exact Versioned.Advances.refl _
    · obtain ⟨row, ical, hget, hload, htag, h13, hc⟩ := resourceUpdate_changed hsame
      obtain ⟨hmem, hcol, -⟩ := mem_of_resGet hget
      rw [resourceUpdate_replaced hload htag h13 hc]
      exact reported_ctag rfl fun id hid => resIter_resUpdate h.resource hmem (hcol ▸ hid) _ _
  | delete url' tag =>
    have hrun : (ResCall.prog C colid (.delete url' tag)).run cs db = _ := run_done _ cs db
    dsimp only
    rw [hrun, dbResourceDelete_eq, Prog.run_atom]
    dsimp only
    unfold resourceDelete committed
    split
    · split
      · exact Versioned.Advances.refl _
      · split
        · dsimp only
          split
          · exact Versioned.Advances.refl _
          · exact hfilter _ fun r hr => by simp [hr]
        · exact Versioned.Advances.refl _
    · exact Versioned.Advances.refl _
  | remove url' =>
    have hrun : (ResCall.prog C colid (.remove url')).run cs db = _ := run_done _ cs db
    dsimp only at hpos ⊢
    rw [hrun, dbResourceRemove_run] at hpos ⊢
    split at hpos
    next hquiet =>
      rw [if_pos hquiet]
      split at hpos
      next hbump =>
        rw [if_pos hbump]
        exact hfilter _ fun r hr => by simp [hr]
      · simp at hpos
    · simp at hpos

theorem reported_congr (hcol : db'.collection = db.collection) (hres : db'.resource = db.resource) :
    reported pid url db' = reported pid url db := by
  unfold reported Sql.colGet ColRow.content Sql.resIter
  rw [hcol, hres]

/-- A successful operation counts what it changes, but for the making of a collection. -/
theorem ColOp.Succeeds.advances {op : ColOp} (h : StoreKeyed db) (hs : op.Succeeds C db db') (hnot : ¬op.Creates db pid url) :
    Versioned.Advances (reported pid url db) (reported pid url db') := by
  cases op with
  | resource colid call => exact reported_resource h hs
  | props c =>
    obtain ⟨cs, hpos, rfl⟩ := hs
    have hrun : ((ColOp.props c).prog C).run cs db = _ := run_done (dbCollectionUpdate c) cs db
    rw [hrun, dbCollectionUpdate_run] at hpos ⊢
    split at hpos
    next hquiet =>
      rw [if_pos hquiet]
      cases hupd : Sql.colUpdate c.displayname c.colour c.description c.id db with
      | none => exact Versioned.Advances.refl _
      | some db₁ =>
        simp only [hupd] at hpos ⊢
        split at hpos
        next hbump =>
          rw [if_pos hbump]
          exact reported_colUpdate hupd
        · simp at hpos
    · simp at hpos
  | remove id =>
    obtain ⟨cs, -, rfl⟩ := hs
    have hkeep := (ColOp.remove id).storeKeyed (C := C) cs db h
    have hrun : ((ColOp.remove id).prog C).run cs db = _ := run_done (dbCollectionRemove id) cs db
    rw [hrun, dbCollectionRemove_eq, Prog.run_atom] at hkeep ⊢
    rcases statement_cases 3 false false true (fun db => some (Sql.colRemove id db)) (cs 0) db
      with heq | ⟨hnone, -⟩ | ⟨db₁, hsome, heq⟩
    · rw [heq]
      exact Versioned.Advances.refl _
    · cases hnone
    · rw [heq] at hkeep ⊢
      cases hsome
      exact reported_remove h hkeep
  | create url' prncpl =>
    obtain ⟨cs, -, rfl⟩ := hs
    dsimp only [ColOp.prog]
    rw [dbCollectionNew_eq, Prog.run_atom]
    rcases statement_cases 4 (-1 : Int) 0 1 (Sql.colInsert prncpl url') (cs 0) db with heq | ⟨-, heq⟩ | ⟨db₁, hins, heq⟩
    · rw [heq]
      exact Versioned.Advances.refl _
    · rw [heq]
      exact Versioned.Advances.refl _
    · rw [heq]
      exact reported_create hins hnot
  | createPrncpl name hash email directory =>
    obtain ⟨cs, -, rfl⟩ := hs
    dsimp only [ColOp.prog]
    rw [dbPrncplNew_eq, Prog.run_atom]
    dsimp only
    unfold prncplNew
    split
    · cases hprncpl : Sql.prncplInsert name hash email db with
      | none => exact Versioned.Advances.refl _
      | some db₁ =>
        obtain ⟨hcol, hres, -, hseq⟩ := prncplInsert_eq hprncpl
        dsimp only
        split
        · cases hins : Sql.colInsert db₁.principalSeq directory db₁ with
          | none => exact Versioned.Advances.refl _
          | some db₂ =>
            dsimp only [committed]
            split
            · exact Versioned.Advances.refl _
            · rw [← reported_congr hcol hres]
              refine reported_create hins fun ⟨hnone, hurl, hpid⟩ => hnot ⟨?_, hurl, hseq ▸ hpid⟩
              unfold Sql.colGet at hnone ⊢
              rw [← hcol]
              exact hnone
        · exact Versioned.Advances.refl _
    · exact Versioned.Advances.refl _

/-! ## Runs -/

theorem ColOp.Succeeds.storeKeyed {op : ColOp} (h : StoreKeyed db) (hs : op.Succeeds C db db') : StoreKeyed db' := by
  obtain ⟨cs, -, rfl⟩ := hs
  exact op.storeKeyed cs db h

theorem StoreKeyed.run (h : StoreKeyed db) (hrun : Relation.ReflTransGen (fun a b => ∃ op : ColOp, op.Succeeds C a b) db db') :
    StoreKeyed db' := by
  induction hrun with
  | refl => exact h
  | tail _ hlast ih =>
    obtain ⟨op, hop⟩ := hlast
    exact hop.storeKeyed ih

/-- In a run of successful operations, in which none between two moments makes a collection at the address where
there has been one since the first, a ctag that is reported at both is that of the same content. -/
theorem ctag_names_content {db₀ : Db} (hkeyed : StoreKeyed db₀)
    (hbefore : Relation.ReflTransGen (fun a b => ∃ op : ColOp, op.Succeeds C a b) db₀ db)
    (hbetween : Relation.ReflTransGen (fun a b => ∃ op : ColOp, op.Succeeds C a b ∧ ¬op.Creates a pid url) db db')
    {c c' : ColRow} (hc : Sql.colGet pid url db = some c) (hc' : Sql.colGet pid url db' = some c') (htag : c.ctag = c'.ctag) :
    c.content db = c'.content db' := by
  have hrun := Versioned.Advances.run (reported pid url) (fun a b h ⟨op, hop, _⟩ => hop.storeKeyed h)
    (fun a b h ⟨op, hop, hnot⟩ => hop.advances h hnot) (hkeyed.run hbefore) hbetween
  have hsame := hrun.2.eq (x := ⟨c.ctag, c.content db⟩) (y := ⟨c'.ctag, c'.content db'⟩)
    (Option.map_eq_some_iff.mpr ⟨c, hc, rfl⟩) (Option.map_eq_some_iff.mpr ⟨c', hc', rfl⟩) htag
  exact congrArg Versioned.value hsame

/-- The database after an operation in which nothing fails. -/
def ColOp.calmly (op : ColOp) (db : Db) : Db := ((op.prog .utc).run (fun _ => .calm) db).2.1

/-- An event is put into the calendar of the collection. -/
def ColOp.putIn (colid : Int) (url : Bytes) : ColOp := .resource colid (.new (ascii "BEGIN:VCALENDAR\nEND:VCALENDAR\n") url (ascii "1-1"))

theorem oneCalendar_storeKeyed : StoreKeyed .oneCalendar where
  resource := ⟨nofun, nofun⟩
  address := by decide +kernel

/-- Another calendar does not change what the first one says. -/
theorem ctag_names_content_other :
    (Sql.newCol 1 (ascii "calendar") 1).content .oneCalendar =
      (Sql.newCol 1 (ascii "calendar") 1).content ((ColOp.create (ascii "work") 1).calmly .oneCalendar) := by
  have hbefore : Sql.colGet 1 (ascii "calendar") .oneCalendar = some (Sql.newCol 1 (ascii "calendar") 1) := by decide +kernel
  refine ctag_names_content (C := .utc) oneCalendar_storeKeyed .refl (.single ?_) hbefore (by decide +kernel) rfl
  exact ⟨.create (ascii "work") 1, ⟨_, by decide +kernel, rfl⟩, fun hnew => absurd hnew.2.1 (by decide +kernel)⟩

/-- A calendar with an event is removed, and one with another event takes its place with its ctag. -/
theorem ctag_names_two :
    ¬∀ (C : Libc) (db₀ db db' : Db) (pid : Int) (url : Bytes) (c c' : ColRow), StoreKeyed db₀ →
      Relation.ReflTransGen (fun a b => ∃ op : ColOp, op.Succeeds C a b) db₀ db →
      Relation.ReflTransGen (fun a b => ∃ op : ColOp, op.Succeeds C a b) db db' →
      Sql.colGet pid url db = some c → Sql.colGet pid url db' = some c' → c.ctag = c'.ctag → c.content db = c'.content db' := by
  intro h
  let first := (ColOp.putIn 1 (ascii "a.ics")).calmly .oneCalendar
  let removed := (ColOp.remove 1).calmly first
  let again := (ColOp.create (ascii "calendar") 1).calmly removed
  let second := (ColOp.putIn 2 (ascii "b.ics")).calmly again
  have hput : ∃ op : ColOp, op.Succeeds .utc .oneCalendar first := ⟨_, _, by decide +kernel, rfl⟩
  have hremove : ∃ op : ColOp, op.Succeeds .utc first removed := ⟨_, _, by decide +kernel, rfl⟩
  have hcreate : ∃ op : ColOp, op.Succeeds .utc removed again := ⟨_, _, by decide +kernel, rfl⟩
  have hputAgain : ∃ op : ColOp, op.Succeeds .utc again second := ⟨_, _, by decide +kernel, rfl⟩
  have hsame := h .utc .oneCalendar first second 1 (ascii "calendar") { Sql.newCol 1 (ascii "calendar") 1 with ctag := 2 }
    { Sql.newCol 1 (ascii "calendar") 2 with ctag := 2 } oneCalendar_storeKeyed (.single hput)
    (.tail (.tail (.single hremove) hcreate) hputAgain) (by decide +kernel) (by decide +kernel) rfl
  have hmember : (ascii "a.ics", ascii "1-1") ∈ (({ Sql.newCol 1 (ascii "calendar") 1 with ctag := 2 } : ColRow).content first).members :=
    ⟨⟨1, ascii "a.ics", ascii "1-1", ascii "BEGIN:VCALENDAR\nEND:VCALENDAR\n", 1⟩, by decide +kernel, rfl⟩
  rw [hsame] at hmember
  obtain ⟨r, hr, heq⟩ := hmember
  have hnone : ∀ r ∈ Sql.resIter 2 second, r.url ≠ ascii "a.ics" := by decide +kernel
  exact hnone r hr (congrArg Prod.fst heq)

end Kcaldav
