import Kcaldav.Server.Main
import Kcaldav.Server.Precondition
import Kcaldav.Store.Frame

/-! # Access control

Whose collections and resources a request can change or show. Rights are those of the
proxy table; a request of a principal is confined to the rows of principals it may
act for. The identifier of a principal is loaded as a 32-bit number and the
permission of a proxy is kept in one, so what the server goes by in its answer are
these numbers, and only those that the answer consults.
-/
namespace Kcaldav
open CString

/-! ## Rights -/

/-- The principals whose rows may be read, and whose may be written. -/
structure Rights where
  read : Int → Prop
  write : Int → Prop

/-- The rights of a principal. -/
def rights (db : Db) (a : Int) : Rights where
  read q := q = a ∨ ∃ x ∈ db.proxy, x.principal = q ∧ x.proxy = a
  write q := q = a ∨ ∃ x ∈ db.proxy, x.principal = q ∧ x.proxy = a ∧ x.bits = PROXY_WRITE

/-- Does the request get to `state_load`, with this principal in its path? -/
def Kreq.Loads (r : Kreq) (principal : Bytes) : Prop :=
  r.method ≠ .max ∧ r.method ≠ .options ∧ (∃ auth ∈ r.auth, auth.authorised) ∧ r.fullpath ≠ [] ∧
    ∃ path ∈ httpPaths r.fullpath, path.1 = principal

/-- Is it for a page, which acts on the principal who is logged in? -/
def Kreq.Dynamic (r : Kreq) : Prop := r.mime = .appJson ∧ (r.method = .get ∨ r.method = .post)

/-- Is it of a method for which the permission to write is asked? -/
def Kreq.NeedsWrite (r : Kreq) : Prop := r.method = .put ∨ r.method = .proppatch ∨ r.method = .delete

/-- The proxy row that makes the client, by the low 32 bits of its number, a proxy of the
principal in the path, by those of its own. -/
def ProxyRow.Lends (x : ProxyRow) (db : Db) (principal : Bytes) (a q : Int) : Prop :=
  ∃ row, Sql.prncplGet principal db = some row ∧ int32 row.id = q ∧ x ∈ db.proxy ∧ x.principal = q ∧ x.proxy = int32 a

/-- The rights that the answer to a request goes by, with this principal in its path. The
server keeps the low 32 bits of numbers and permissions. Pages and paths of one's own go
by the own number, all other paths by the proxy row of the principal that they name. -/
def rights32 (db : Db) (r : Kreq) (principal user : Bytes) (a : Int) : Rights where
  read q := ((r.Dynamic ∨ principal = user) ∧ q = int32 a) ∨
    (¬r.Dynamic ∧ principal ≠ user ∧ ∃ x : ProxyRow, x.Lends db principal a q)
  write q := ((r.Dynamic ∨ principal = user ∧ r.NeedsWrite) ∧ q = int32 a) ∨
    (¬r.Dynamic ∧ principal ≠ user ∧ r.NeedsWrite ∧ ∃ x : ProxyRow, x.Lends db principal a q ∧ int32 x.bits = PROXY_WRITE)

/-- Every right of the first is one of the second. -/
def Rights.Within (R S : Rights) : Prop := (∀ q, R.read q → S.read q) ∧ ∀ q, R.write q → S.write q

namespace Item

/-- The collections whose contents are shown. -/
def colns : Item → List Coln
  | index p => p.cols
  | coln c _ => [c]
  | res c _ _ => [c]
  | calendar _ | prncpl _ | proxy _ _ | href _ _ | propstat _ _ => []

/-- The resources whose contents are shown. -/
def ress : Item → List Res
  | calendar r => [r]
  | res _ r _ => [r]
  | index _ | coln _ _ | prncpl _ | proxy _ _ | href _ _ | propstat _ _ => []

end Item

/-- A row of a table is changed, created or deleted: it is in one table only. -/
def Changed {α : Type} (rows rows' : List α) (row : α) : Prop :=
  (row ∈ rows ∧ row ∉ rows') ∨ (row ∉ rows ∧ row ∈ rows')

/-- The owner of a resource is that of its collection. -/
def Owns (db : Db) (q : Int) (r : ResRow) : Prop := ∃ c ∈ db.collection, c.id = r.collection ∧ c.principal = q

def ShowsColn (R : Rights) (db : Db) (c : Coln) : Prop := ∃ row ∈ db.collection, row.coln = c ∧ R.read row.principal

def ShowsRes (R : Rights) (db : Db) (r : Res) : Prop :=
  ∃ row ∈ db.resource, (∃ ical, r = row.res ical) ∧ ∃ q, Owns db q row ∧ R.read q

/-- Whatever an item shows may be read. -/
def Shows (R : Rights) (db : Db) (i : Item) : Prop :=
  (∀ c ∈ i.colns, ShowsColn R db c) ∧ ∀ r ∈ i.ress, ShowsRes R db r

/-- What is changed is owned by someone with a right to write, what is shown by
someone with a right to read. -/
structure Confined (R : Rights) (db db' : Db) (items : List Item) : Prop where
  coln : ∀ c, Changed db.collection db'.collection c → R.write c.principal
  res : ∀ r, Changed db.resource db'.resource r → ∃ q, Owns db q r ∧ R.write q
  items : ∀ i ∈ items, Shows R db i

theorem Confined.mono {R S : Rights} {db db' : Db} {items : List Item} (hRS : R.Within S)
    (h : Confined R db db' items) : Confined S db db' items where
  coln c hc := hRS.2 _ (h.coln c hc)
  res r hr := by
    obtain ⟨q, howns, hq⟩ := h.res r hr
    exact ⟨q, howns, hRS.2 q hq⟩
  items i hi := by
    constructor
    · intro c hc
      obtain ⟨row, hrow, heq, hq⟩ := (h.items i hi).1 c hc
      exact ⟨row, hrow, heq, hRS.1 _ hq⟩
    · intro r hr
      obtain ⟨row, hrow, heq, q, howns, hq⟩ := (h.items i hi).2 r hr
      exact ⟨row, hrow, heq, q, howns, hRS.1 q hq⟩

/-! ## Rows left alone -/

/-- The collections, resources, proxies and principals are the same. -/
structure SameRows (db₀ db : Db) : Prop where
  collection : db.collection = db₀.collection
  resource : db.resource = db₀.resource
  proxy : db.proxy = db₀.proxy
  principal : db.principal = db₀.principal

theorem SameRows.refl (db : Db) : SameRows db db := ⟨rfl, rfl, rfl, rfl⟩

/-- The collections and resources are the same. -/
def SameStore (db₀ db : Db) : Prop := db.collection = db₀.collection ∧ db.resource = db₀.resource

theorem SameRows.store {db₀ db : Db} (h : SameRows db₀ db) : SameStore db₀ db := ⟨h.collection, h.resource⟩

theorem not_changed {α : Type} {rows : List α} {row : α} : ¬Changed rows rows row := by
  rintro (⟨h, hn⟩ | ⟨hn, h⟩) <;> exact hn h

/-- A reply that leaves the store alone. -/
theorem Confined.of_same {R : Rights} {db₀ db : Db} {items : List Item} (h : SameStore db₀ db)
    (hitems : ∀ i ∈ items, Shows R db₀ i) : Confined R db₀ db items where
  coln c hc := by
    rw [h.1] at hc
    exact absurd hc not_changed
  res r hr := by
    rw [h.2] at hr
    exact absurd hr not_changed
  items := hitems

/-! ## One collection touched -/

/-- Only the collection and its resources are changed, and it stays with its owner. -/
structure Touches (colid : Int) (db₀ db : Db) : Prop where
  others : ∀ c ∈ db₀.collection, c.id ≠ colid → c ∈ db.collection
  coln : ∀ c ∈ db.collection, c ∈ db₀.collection ∨
    ∃ c₀ ∈ db₀.collection, c₀.id = colid ∧ c.id = colid ∧ c.principal = c₀.principal
  kept : ∀ r ∈ db₀.resource, r.collection ≠ colid → r ∈ db.resource
  res : ∀ r ∈ db.resource, r ∈ db₀.resource ∨ r.collection = colid

namespace Touches
variable {colid : Int} {db₀ db : Db}

theorem of_same (h : SameStore db₀ db) : Touches colid db₀ db where
  others _ hc _ := h.1 ▸ hc
  coln _ hc := Or.inl (h.1 ▸ hc)
  kept _ hr _ := h.2 ▸ hr
  res _ hr := Or.inl (h.2 ▸ hr)

/-- A change of the collection's row that keeps its owner. -/
theorem map_coln (h : Touches colid db₀ db) {g : ColRow → ColRow} (hid : ∀ c, (g c).id = c.id)
    (hprincipal : ∀ c, (g c).principal = c.principal) {db' : Db}
    (hcol : db'.collection = db.collection.map fun c => if c.id = colid then g c else c)
    (hres : db'.resource = db.resource) : Touches colid db₀ db' where
  others c hc hne := by
    rw [hcol]
    exact List.mem_map.mpr ⟨c, h.others c hc hne, if_neg hne⟩
  coln c hc := by
    rw [hcol] at hc
    obtain ⟨c', hc', rfl⟩ := List.mem_map.mp hc
    by_cases hid' : c'.id = colid
    · rw [if_pos hid']
      refine Or.inr ?_
      rcases h.coln c' hc' with hold | ⟨c₀, hc₀, hid₀, -, howner⟩
      · exact ⟨c', hold, hid', (hid c').trans hid', hprincipal c'⟩
      · exact ⟨c₀, hc₀, hid₀, (hid c').trans hid', (hprincipal c').trans howner⟩
    · rw [if_neg hid']
      exact h.coln c' hc'
  kept r hr hne := hres ▸ h.kept r hr hne
  res r hr := h.res r (hres ▸ hr)

theorem ctag (h : Touches colid db₀ db) : Touches colid db₀ (Sql.colUpdateCtag colid db) :=
  h.map_coln (g := fun c => { c with ctag := c.ctag + 1 }) (fun _ => rfl) (fun _ => rfl) rfl rfl

theorem update {displayname colour description : Option Bytes} {db' : Db} (h : Touches colid db₀ db)
    (hupd : Sql.colUpdate displayname colour description colid db = some db') : Touches colid db₀ db' := by
  unfold Sql.colUpdate at hupd
  split at hupd
  next n c d =>
    cases hupd
    exact h.map_coln (g := fun x => { x with displayname := n, colour := c, description := d })
      (fun _ => rfl) (fun _ => rfl) rfl rfl
  · split at hupd
    · cases hupd
    · cases hupd
      exact h

theorem remove (h : Touches colid db₀ db) : Touches colid db₀ (Sql.colRemove colid db) where
  others c hc hne := List.mem_filter.mpr ⟨h.others c hc hne, decide_eq_true hne⟩
  coln c hc := h.coln c (List.mem_filter.mp hc).1
  kept r hr hne := List.mem_filter.mpr ⟨h.kept r hr hne, decide_eq_true hne⟩
  res r hr := h.res r (List.mem_filter.mp hr).1

theorem insert {data url etag : Bytes} {db' : Db} (h : Touches colid db₀ db)
    (hins : Sql.resInsert data url colid etag db = some db') : Touches colid db₀ db' := by
  have hrows := (resInsert_eq hins).1
  have hcol := resInsert_collection hins
  constructor
  · rw [hcol]
    exact h.others
  · rw [hcol]
    exact h.coln
  · intro r hr hne
    rw [hrows]
    exact List.mem_append_left _ (h.kept r hr hne)
  · intro r hr
    rw [hrows] at hr
    rcases List.mem_append.mp hr with hr | hr
    · exact h.res r hr
    · obtain rfl := List.mem_singleton.mp hr
      exact Or.inr rfl

/-- Resources of the collection are deleted. -/
theorem delete (h : Touches colid db₀ db) {keep : ResRow → Bool} (hkeep : ∀ r, r.collection ≠ colid → keep r) :
    Touches colid db₀ { db with resource := db.resource.filter keep } where
  others := h.others
  coln := h.coln
  kept r hr hne := List.mem_filter.mpr ⟨h.kept r hr hne, hkeep r hne⟩
  res r hr := h.res r (List.mem_filter.mp hr).1

/-- A resource of the collection is given new data. -/
theorem replace (h : SameStore db₀ db) (hk : Keyed db₀) {r : ResRow} (hr : r ∈ db₀.resource)
    (hcol : r.collection = colid) (data etag : Bytes) : Touches colid db₀ (Sql.resUpdate data etag r.id db) where
  others := (of_same h).others
  coln := (of_same h).coln
  kept row hrow hne := by
    refine List.mem_map.mpr ⟨row, h.2 ▸ hrow, if_neg fun hid => ?_⟩
    exact hne (hk.unique row hrow r hr hid ▸ hcol)
  res row hrow := by
    obtain ⟨row', hrow', rfl⟩ := List.mem_map.mp hrow
    rw [h.2] at hrow'
    by_cases hid : row'.id = r.id
    · obtain rfl := hk.unique row' hrow' r hr hid
      rw [if_pos rfl]
      exact Or.inr hcol
    · rw [if_neg hid]
      exact Or.inl hrow'

/-- Touching a collection of one's own, or of someone one may write for, is confined. -/
theorem confined (h : Touches colid db₀ db) (hk : ColKeyed db₀) {R : Rights} {row : ColRow} (hrow : row ∈ db₀.collection)
    (hid : row.id = colid) (hwrite : R.write row.principal) {items : List Item}
    (hitems : ∀ i ∈ items, Shows R db₀ i) : Confined R db₀ db items where
  coln c hc := by
    rcases hc with ⟨hold, hgone⟩ | ⟨hnew, hnow⟩
    · have hc : c.id = colid := by
        by_contra hne
        exact hgone (h.others c hold hne)
      obtain rfl := hk c hold row hrow (hc.trans hid.symm)
      exact hwrite
    · rcases h.coln c hnow with hold | ⟨c₀, hc₀, hid₀, -, howner⟩
      · exact absurd hold hnew
      · obtain rfl := hk c₀ hc₀ row hrow (hid₀.trans hid.symm)
        rw [howner]
        exact hwrite
  res r hr := by
    have hcol : r.collection = colid := by
      rcases hr with ⟨hold, hgone⟩ | ⟨hnew, hnow⟩
      · by_contra hne
        exact hgone (h.kept r hold hne)
      · exact (h.res r hnow).resolve_left hnew
    exact ⟨row.principal, ⟨row, hrow, hid.trans hcol.symm, rfl⟩, hwrite⟩
  items := hitems

end Touches

end Kcaldav
