import Kcaldav.Store.Schema

/-! # Rows under the statements

The keys of the tables, and what each statement on resources does to the rows: to
all of them, and to the row of one name.
-/
namespace Kcaldav
open CString

/-- Rows have different identifiers, none above those handed out. -/
structure Keyed (db : Db) : Prop where
  unique : ∀ r ∈ db.resource, ∀ r' ∈ db.resource, r.id = r'.id → r = r'
  bounded : ∀ r ∈ db.resource, r.id ≤ db.resourceSeq

/-- Collections have different identifiers. -/
def ColKeyed (db : Db) : Prop := ∀ c ∈ db.collection, ∀ c' ∈ db.collection, c.id = c'.id → c = c'

variable {colid : Int} {db db' : Db}

/-! ## The rows of the table -/

theorem resInsert_eq {data url : Bytes} {etag : Bytes} (h : Sql.resInsert data url colid etag db = some db') :
    db'.resource = db.resource ++ [⟨colid, url, etag, data, db.resourceSeq + 1⟩] ∧
      db'.resourceSeq = db.resourceSeq + 1 := by
  unfold Sql.resInsert at h
  split at h
  · cases h
  · cases h
    exact ⟨rfl, rfl⟩

theorem resInsert_collection {data url : Bytes} {etag : Bytes}
    (h : Sql.resInsert data url colid etag db = some db') : db'.collection = db.collection := by
  unfold Sql.resInsert at h
  split at h
  · cases h
  · cases h
    rfl

/-- What is updated is one row, where rows have different identifiers. -/
theorem mem_resUpdate (hk : Keyed db) {r row : ResRow} (hr : r ∈ db.resource) {data etag : Bytes}
    (hrow : row ∈ (Sql.resUpdate data etag r.id db).resource) :
    (row ∈ db.resource ∧ row.id ≠ r.id) ∨ row = { r with data := data, etag := etag } := by
  obtain ⟨row', hmem, rfl⟩ := List.mem_map.mp hrow
  by_cases hid : row'.id = r.id
  · obtain rfl := hk.unique row' hmem r hr hid
    rw [if_pos rfl]
    exact Or.inr rfl
  · rw [if_neg hid]
    exact Or.inl ⟨hmem, hid⟩

/-- Fewer rows are keyed. -/
theorem Keyed.fewer (hk : Keyed db) (hrows : ∀ r ∈ db'.resource, r ∈ db.resource) (hseq : db'.resourceSeq = db.resourceSeq) :
    Keyed db' where
  unique r hr r' hr' hid := hk.unique r (hrows r hr) r' (hrows r' hr') hid
  bounded r hr := by
    rw [hseq]
    exact hk.bounded r (hrows r hr)

theorem Keyed.resInsert (hk : Keyed db) {data url etag : Bytes} (hins : Sql.resInsert data url colid etag db = some db') :
    Keyed db' := by
  obtain ⟨hrows, hseq⟩ := resInsert_eq hins
  constructor
  · intro r hr r' hr' hid
    rw [hrows, List.mem_append, List.mem_singleton] at hr hr'
    rcases hr with hr | rfl <;> rcases hr' with hr' | rfl
    · exact hk.unique r hr r' hr' hid
    · have hle := hk.bounded r hr
      dsimp only at hid
      omega
    · have hle := hk.bounded r' hr'
      dsimp only at hid
      omega
    · rfl
  · intro r hr
    rw [hrows, List.mem_append, List.mem_singleton] at hr
    rw [hseq]
    rcases hr with hr | rfl
    · have hle := hk.bounded r hr
      omega
    · exact Int.le_refl (db.resourceSeq + 1)

theorem Keyed.resUpdate (hk : Keyed db) (data etag : Bytes) (id : Int) : Keyed (Sql.resUpdate data etag id db) := by
  have hid : ∀ r : ResRow, (if r.id = id then { r with data := data, etag := etag } else r).id = r.id := by
    intro r
    split <;> rfl
  constructor
  · intro r hr r' hr' hsame
    obtain ⟨b, hb, rfl⟩ := List.mem_map.mp hr
    obtain ⟨b', hb', rfl⟩ := List.mem_map.mp hr'
    rw [hid, hid] at hsame
    rw [hk.unique b hb b' hb' hsame]
  · intro r hr
    obtain ⟨b, hb, rfl⟩ := List.mem_map.mp hr
    rw [hid]
    exact hk.bounded b hb

theorem mem_of_resGet {url : Bytes} {r : ResRow} (h : Sql.resGet colid url db = some r) :
    r ∈ db.resource ∧ r.collection = colid ∧ r.url = url := by
  have hp : r.collection = colid ∧ r.url = url := by simpa using List.find?_some h
  exact ⟨List.mem_of_find?_eq_some h, hp⟩

theorem mem_of_resGetEtag {url tag : Bytes} {r : ResRow} (h : Sql.resGetEtag url colid tag db = some r) :
    r ∈ db.resource ∧ r.url = url ∧ r.collection = colid ∧ r.etag = tag := by
  have hp : r.url = url ∧ r.collection = colid ∧ r.etag = tag := by simpa using List.find?_some h
  exact ⟨List.mem_of_find?_eq_some h, hp⟩

theorem mem_resRemoveEtag {url tag : Bytes} {r : ResRow} (h : r ∈ (Sql.resRemoveEtag url colid tag db).resource) :
    r ∈ db.resource ∧ ¬(r.url = url ∧ r.collection = colid ∧ r.etag = tag) := by
  unfold Sql.resRemoveEtag at h
  obtain ⟨hmem, hkeep⟩ := List.mem_filter.mp h
  exact ⟨hmem, of_decide_eq_true hkeep⟩

/-! ## The row of one name -/

theorem resGet_resInsert {data url etag : Bytes} (h : Sql.resInsert data url colid etag db = some db') :
    Sql.resGet colid url db = none ∧
      Sql.resGet colid url db' = some ⟨colid, url, etag, data, db.resourceSeq + 1⟩ := by
  have hrows := (resInsert_eq h).1
  have hnone : Sql.resGet colid url db = none := by
    unfold Sql.resInsert at h
    split at h
    · cases h
    next hfree => simpa using fun hs => hfree (Or.inl hs)
  refine ⟨hnone, ?_⟩
  unfold Sql.resGet at hnone ⊢
  rw [hrows, List.find?_append, hnone]
  simp

/-- A row is refused exactly where there is one of its name or no such collection. -/
theorem resInsert_eq_none (data : Bytes) {url : Bytes} (etag : Bytes) : Sql.resInsert data url colid etag db = none ↔
    (Sql.resGet colid url db).isSome ∨ ∀ c ∈ db.collection, c.id ≠ colid := by
  unfold Sql.resInsert
  split
  next h => simp [h]
  next h => simp [h]

theorem resGet_resUpdate {data url etag : Bytes} {r : ResRow} (h : Sql.resGet colid url db = some r) :
    Sql.resGet colid url (Sql.resUpdate data etag r.id db) = some { r with data := data, etag := etag } := by
  unfold Sql.resGet Sql.resUpdate at *
  have hsame : (fun x : ResRow => decide (x.collection = colid ∧ x.url = url)) ∘
      (fun x => if x.id = r.id then { x with data := data, etag := etag } else x) =
      fun x => decide (x.collection = colid ∧ x.url = url) := by
    funext x
    simp only [Function.comp_apply]
    split <;> rfl
  rw [List.find?_map, hsame, h, Option.map_some, if_pos rfl]

theorem resGet_resRemove (url : Bytes) : Sql.resGet colid url (Sql.resRemove url colid db) = none := by
  unfold Sql.resGet Sql.resRemove
  rw [List.find?_eq_none]
  intro r hr
  have hkeep := of_decide_eq_true (List.mem_filter.mp hr).2
  exact fun hname => hkeep (of_decide_eq_true hname).symm

/-- A row with another tag stays. -/
theorem resGet_resRemoveEtag_of_ne {url tag : Bytes} {r : ResRow} (h : Sql.resGet colid url db = some r)
    (hne : r.etag ≠ tag) : Sql.resGet colid url (Sql.resRemoveEtag url colid tag db) = some r := by
  unfold Sql.resGet Sql.resRemoveEtag at *
  obtain ⟨hname, before, after, hrows, hbefore⟩ := List.find?_eq_some_iff_append.mp h
  let keep : ResRow → Bool := fun r => ¬(r.url = url ∧ r.collection = colid ∧ r.etag = tag)
  have hkeep : keep r := by simp [keep, hne]
  have hrest : (db.resource.filter keep) = before.filter keep ++ r :: after.filter keep := by
    rw [hrows, List.filter_append, List.filter_cons_of_pos hkeep]
  exact List.find?_eq_some_iff_append.mpr
    ⟨hname, before.filter keep, after.filter keep, hrest, fun x hx => hbefore x (List.mem_filter.mp hx).1⟩

/-- The resources of a collection have different names. -/
def Named (db : Db) : Prop :=
  ∀ r ∈ db.resource, ∀ r' ∈ db.resource, r.collection = r'.collection → r.url = r'.url → r = r'

/-- With different names a row is found by name and tag where it is found by name and
has the tag. -/
theorem resGet_of_mem (hn : Named db) {r : ResRow} (hr : r ∈ db.resource) : Sql.resGet r.collection r.url db = some r := by
  cases hget : Sql.resGet r.collection r.url db with
  | none =>
    have hno := List.find?_eq_none.mp hget r hr
    exact absurd hno (by simp)
  | some r' =>
    obtain ⟨hmem, hcol, hurl⟩ := mem_of_resGet hget
    rw [hn r' hmem r hr hcol hurl]

theorem Named.fewer (hn : Named db) (hrows : ∀ r ∈ db'.resource, r ∈ db.resource) : Named db' :=
  fun r hr r' hr' => hn r (hrows r hr) r' (hrows r' hr')

theorem Named.resInsert (hn : Named db) {data url etag : Bytes} (hins : Sql.resInsert data url colid etag db = some db') :
    Named db' := by
  have hfree : ∀ r ∈ db.resource, r.collection = colid → r.url = url → False := by
    intro r hr hcol hurl
    have hget := resGet_of_mem hn hr
    rw [hcol, hurl, (resGet_resInsert hins).1] at hget
    cases hget
  intro r hr r' hr' hcol hurl
  rw [(resInsert_eq hins).1, List.mem_append, List.mem_singleton] at hr hr'
  rcases hr with hr | rfl <;> rcases hr' with hr' | rfl
  · exact hn r hr r' hr' hcol hurl
  · exact (hfree r hr hcol hurl).elim
  · exact (hfree r' hr' hcol.symm hurl.symm).elim
  · rfl

theorem Named.resUpdate (hn : Named db) (data etag : Bytes) (id : Int) : Named (Sql.resUpdate data etag id db) := by
  have hname : ∀ r : ResRow, (if r.id = id then { r with data := data, etag := etag } else r).collection = r.collection ∧
      (if r.id = id then { r with data := data, etag := etag } else r).url = r.url := by
    intro r
    split <;> exact ⟨rfl, rfl⟩
  intro r hr r' hr' hcol hurl
  obtain ⟨b, hb, rfl⟩ := List.mem_map.mp hr
  obtain ⟨b', hb', rfl⟩ := List.mem_map.mp hr'
  rw [(hname b).1, (hname b').1] at hcol
  rw [(hname b).2, (hname b').2] at hurl
  rw [hn b hb b' hb' hcol hurl]

theorem resGetEtag_eq (hn : Named db) {url tag : Bytes} {r : ResRow} (h : Sql.resGet colid url db = some r) :
    Sql.resGetEtag url colid tag db = if r.etag = tag then some r else none := by
  obtain ⟨hmem, hcol, hurl⟩ := mem_of_resGet h
  cases hget : Sql.resGetEtag url colid tag db with
  | none =>
    have hother := List.find?_eq_none.mp hget r hmem
    have hne : r.etag ≠ tag := fun htag => hother (decide_eq_true ⟨hurl, hcol, htag⟩)
    rw [if_neg hne]
  | some r' =>
    obtain ⟨hmem', hurl', hcol', htag⟩ := mem_of_resGetEtag hget
    obtain rfl := hn r hmem r' hmem' (hcol.trans hcol'.symm) (hurl.trans hurl'.symm)
    rw [if_pos htag]

theorem resGetEtag_of_none {url : Bytes} (tag : Bytes) (h : Sql.resGet colid url db = none) :
    Sql.resGetEtag url colid tag db = none := by
  cases hget : Sql.resGetEtag url colid tag db with
  | none => rfl
  | some r =>
    obtain ⟨hmem, hurl, hcol, -⟩ := mem_of_resGetEtag hget
    exact absurd (decide_eq_true ⟨hcol, hurl⟩) (List.find?_eq_none.mp h r hmem)

theorem resGet_resRemoveEtag (hn : Named db) {url tag : Bytes} {r : ResRow} (h : Sql.resGet colid url db = some r)
    (htag : r.etag = tag) : Sql.resGet colid url (Sql.resRemoveEtag url colid tag db) = none := by
  cases hget : Sql.resGet colid url (Sql.resRemoveEtag url colid tag db) with
  | none => rfl
  | some r' =>
    obtain ⟨hmem, hcol, hurl⟩ := mem_of_resGet h
    obtain ⟨hmem', hcol', hurl'⟩ := mem_of_resGet hget
    obtain ⟨hrow, hkeep⟩ := mem_resRemoveEtag hmem'
    obtain rfl := hn r hmem r' hrow (hcol.trans hcol'.symm) (hurl.trans hurl'.symm)
    exact absurd ⟨hurl, hcol, htag⟩ hkeep

end Kcaldav
