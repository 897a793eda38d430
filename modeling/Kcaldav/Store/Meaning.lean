import Kcaldav.Store.Integrity
import Kcaldav.Store.Rows
import Kcaldav.Store.Space

/-! # What the tables mean

The space of calendars that a database stands for, and what each statement does to it:
where it changes something, one event. Addresses are resolved to identifiers by the
names of accounts and calendars, which no row changes once it is there.
-/
namespace Kcaldav
open CString

def PrncplRow.account (p : PrncplRow) : Account := ⟨p.hash, p.email⟩

def ColRow.display (c : ColRow) : Display := ⟨c.displayname, c.colour, c.description⟩

def ResRow.entry (r : ResRow) : Entry := ⟨r.etag, r.data⟩

namespace Db
variable (db : Db)

def prncplId (name : Bytes) : Option Int := (Sql.prncplGet name db).map PrncplRow.id

def colId (cal : CalName) : Option Int := (db.prncplId cal.1).bind fun p => (Sql.colGet p cal.2 db).map ColRow.id

/-- The row that lets the second act for the first. -/
def proxyGet (p v : Int) : Option ProxyRow := db.proxy.find? fun x => x.principal = p ∧ x.proxy = v

def space : Space where
  account name := (Sql.prncplGet name db).map PrncplRow.account
  calendar cal := (db.prncplId cal.1).bind fun p => (Sql.colGet p cal.2 db).map ColRow.display
  resource k := (db.colId k.1).bind fun c => (Sql.resGet c k.2 db).map ResRow.entry
  delegate k := (db.prncplId k.1).bind fun p => (db.prncplId k.2).bind fun v => (db.proxyGet p v).map fun x => int32 x.bits
  nonce n := Sql.nonceGetCount n db
  owned cal h hno := by
    unfold prncplId at h
    rw [Option.map_eq_none_iff] at hno
    rw [hno] at h
    exact h rfl
  filed cal url h hno := by
    have hcol : db.colId cal = none := by
      unfold colId
      cases hp : db.prncplId cal.1 with
      | none => rfl
      | some p =>
        rw [hp, Option.bind_some, Option.map_eq_none_iff] at hno
        rw [Option.bind_some, hno, Option.map_none]
    rw [hcol] at h
    exact h rfl

end Db

variable {db db' : Db}

/-! ## Addresses and identifiers -/

namespace Integral
variable (h : Integral db)
include h

theorem prncplGet_iff {name : Bytes} {p : PrncplRow} : Sql.prncplGet name db = some p ↔ p ∈ db.principal ∧ p.name = name :=
  h.prncplName.find?_eq_some fun _ => decide_eq_true_iff

theorem colGet_iff {p : Int} {url : Bytes} {c : ColRow} :
    Sql.colGet p url db = some c ↔ c ∈ db.collection ∧ (c.principal, c.url) = (p, url) :=
  h.colAddress.find?_eq_some fun _ => by rw [decide_eq_true_iff, Prod.mk.injEq]

theorem resGet_iff {c : Int} {url : Bytes} {r : ResRow} :
    Sql.resGet c url db = some r ↔ r ∈ db.resource ∧ (r.collection, r.url) = (c, url) :=
  h.resAddress.find?_eq_some fun _ => by rw [decide_eq_true_iff, Prod.mk.injEq]

theorem proxyGet_iff {p v : Int} {x : ProxyRow} :
    db.proxyGet p v = some x ↔ x ∈ db.proxy ∧ (x.principal, x.proxy) = (p, v) :=
  h.proxyPair.find?_eq_some fun _ => by rw [decide_eq_true_iff, Prod.mk.injEq]

theorem prncplId_iff {name : Bytes} {id : Int} :
    db.prncplId name = some id ↔ ∃ p ∈ db.principal, p.id = id ∧ p.name = name := by
  unfold Db.prncplId
  rw [Option.map_eq_some_iff]
  constructor
  · rintro ⟨p, hget, hid⟩
    obtain ⟨hp, hname⟩ := h.prncplGet_iff.mp hget
    exact ⟨p, hp, hid, hname⟩
  · rintro ⟨p, hp, hid, hname⟩
    exact ⟨p, h.prncplGet_iff.mpr ⟨hp, hname⟩, hid⟩

theorem prncplId_inj {name name' : Bytes} {id : Int} (hid : db.prncplId name = some id) (hid' : db.prncplId name' = some id) :
    name = name' := by
  obtain ⟨p, hp, rfl, rfl⟩ := h.prncplId_iff.mp hid
  obtain ⟨p', hp', hsame, rfl⟩ := h.prncplId_iff.mp hid'
  rw [h.prncplId.key p' hp' p hp hsame]

theorem colId_iff {cal : CalName} {id : Int} :
    db.colId cal = some id ↔ ∃ c ∈ db.collection, c.id = id ∧ c.url = cal.2 ∧ db.prncplId cal.1 = some c.principal := by
  unfold Db.colId
  rw [Option.bind_eq_some_iff]
  constructor
  · rintro ⟨p, hp, hget⟩
    obtain ⟨c, hc, hid⟩ := Option.map_eq_some_iff.mp hget
    obtain ⟨hmem, haddr⟩ := h.colGet_iff.mp hc
    obtain ⟨rfl, hurl⟩ := Prod.mk.injEq .. ▸ haddr
    exact ⟨c, hmem, hid, hurl, hp⟩
  · rintro ⟨c, hmem, hid, hurl, hp⟩
    refine ⟨c.principal, hp, Option.map_eq_some_iff.mpr ⟨c, h.colGet_iff.mpr ⟨hmem, ?_⟩, hid⟩⟩
    rw [hurl]

theorem colId_inj {cal cal' : CalName} {id : Int} (hid : db.colId cal = some id) (hid' : db.colId cal' = some id) :
    cal = cal' := by
  obtain ⟨c, hc, rfl, hurl, hp⟩ := h.colId_iff.mp hid
  obtain ⟨c', hc', hsame, hurl', hp'⟩ := h.colId_iff.mp hid'
  obtain rfl := h.colId.key c' hc' c hc hsame
  exact Prod.ext (h.prncplId_inj hp hp') (hurl.symm.trans hurl')

end Integral

/-! ## Tables that are alike -/

/-- A database in which nothing has changed that the space shows. -/
theorem space_congr (hp : db'.principal = db.principal) (hx : db'.proxy = db.proxy) (hn : db'.nonce = db.nonce)
    (hcol : ∀ p url, (Sql.colGet p url db').map (fun c => (c.id, c.display)) = (Sql.colGet p url db).map fun c => (c.id, c.display))
    (hres : ∀ c url, Sql.resGet c url db' = Sql.resGet c url db) : db'.space = db.space := by
  have hprncpl : ∀ n, Sql.prncplGet n db' = Sql.prncplGet n db := by
    intro n
    unfold Sql.prncplGet
    rw [hp]
  have hid : ∀ n, db'.prncplId n = db.prncplId n := fun n => congrArg _ (hprncpl n)
  have hcolid : ∀ p url, (Sql.colGet p url db').map ColRow.id = (Sql.colGet p url db).map ColRow.id := by
    intro p url
    have heq := congrArg (Option.map Prod.fst) (hcol p url)
    rwa [Option.map_map, Option.map_map] at heq
  have hcolshow : ∀ p url, (Sql.colGet p url db').map ColRow.display = (Sql.colGet p url db).map ColRow.display := by
    intro p url
    have heq := congrArg (Option.map Prod.snd) (hcol p url)
    rwa [Option.map_map, Option.map_map] at heq
  have hproxy : ∀ p v, db'.proxyGet p v = db.proxyGet p v := by
    intro p v
    unfold Db.proxyGet
    rw [hx]
  apply Space.ext
  · funext n
    simp only [Db.space, hprncpl]
  · funext cal
    simp only [Db.space, hid, hcolshow]
  · funext k
    simp only [Db.space, Db.colId, hid, hcolid, hres]
  · funext k
    simp only [Db.space, hid, hproxy]
  · funext n
    simp only [Db.space, Sql.nonceGetCount, hn]

theorem colGet_map_of_address {g : ColRow → ColRow} (hg : ∀ c, (g c).principal = c.principal ∧ (g c).url = c.url) (p : Int)
    (url : Bytes) : Sql.colGet p url { db with collection := db.collection.map g } = (Sql.colGet p url db).map g := by
  refine find?_map_of_same fun c => ?_
  rw [(hg c).1, (hg c).2]

/-- The tag of a collection is not seen. -/
theorem space_ctag (id : Int) (db : Db) : (Sql.colUpdateCtag id db).space = db.space := by
  refine space_congr rfl rfl rfl (fun p url => ?_) fun _ _ => rfl
  unfold Sql.colUpdateCtag
  rw [colGet_map_of_address (fun c => by split <;> exact ⟨rfl, rfl⟩), Option.map_map]
  congr 1
  funext c
  dsimp only [Function.comp]
  split <;> rfl

/-! ## Resources -/

section Resources
variable {cal : CalName} {cid : Int} {url : Bytes}

/-- A statement that sets the resource of one address. -/
theorem step_of_resource (w : SpaceEvent) (row : Option ResRow) (h : Integral db) (hcal : db.colId cal = some cid)
    (hp : db'.principal = db.principal) (hc : db'.collection = db.collection) (hx : db'.proxy = db.proxy) (hn : db'.nonce = db.nonce)
    (hres : ∀ c u, Sql.resGet c u db' = if c = cid ∧ u = url then row else Sql.resGet c u db) (hw : w.Enabled db.space)
    (haccount : ∀ n, w.setsAccount n = none) (hcalendar : ∀ k, w.setsCalendar k = none)
    (hresource : ∀ k, w.setsResource k = if k = (cal, url) then some (row.map ResRow.entry) else none)
    (hdelegate : ∀ k, w.setsDelegate k = none) (hnonce : ∀ k, w.setsNonce k = none) : Space.Step w db.space db'.space := by
  have hid : ∀ n, db'.prncplId n = db.prncplId n := by
    intro n
    unfold Db.prncplId Sql.prncplGet
    rw [hp]
  have hcolid : ∀ k, db'.colId k = db.colId k := by
    intro k
    unfold Db.colId Sql.colGet
    rw [hid, hc]
  refine ⟨hw, fun n => ?_, fun k => ?_, fun k => ?_, fun k => ?_, fun k => ?_⟩
  · rw [haccount]
    simp only [Db.space, Sql.prncplGet, hp, Option.getD_none]
  · rw [hcalendar]
    simp only [Db.space, Sql.colGet, hid, hc, Option.getD_none]
  · rw [hresource]
    obtain ⟨k, u⟩ := k
    simp only [Db.space, hcolid]
    by_cases hk : k = cal
    · subst hk
      rw [hcal, Option.bind_some, Option.bind_some, hres]
      by_cases hu : u = url
      · subst hu
        simp
      · simp [hu]
    · have hne : (k, u) ≠ (cal, url) := fun heq => hk (congrArg Prod.fst heq)
      rw [if_neg hne, Option.getD_none]
      cases hk' : db.colId k with
      | none => rfl
      | some c =>
        have hcne : c ≠ cid := by
          rintro rfl
          exact hk (h.colId_inj hk' hcal)
        rw [Option.bind_some, Option.bind_some, hres, if_neg fun heq => hcne heq.1]
  · rw [hdelegate]
    simp only [Db.space, Db.proxyGet, hid, hx, Option.getD_none]
  · rw [hnonce]
    simp only [Db.space, Sql.nonceGetCount, hn, Option.getD_none]

theorem space_resource (hcal : db.colId cal = some cid) (url : Bytes) :
    db.space.resource (cal, url) = (Sql.resGet cid url db).map ResRow.entry := by
  simp only [Db.space, hcal, Option.bind_some]

theorem space_calendar (hcal : db.colId cal = some cid) : db.space.calendar cal ≠ none := by
  intro hno
  unfold Db.colId at hcal
  cases hp : db.prncplId cal.1 with
  | none => simp [hp] at hcal
  | some p =>
    simp only [Db.space, hp, Option.bind_some, Option.map_eq_none_iff] at hno
    simp [hp, hno] at hcal

theorem space_resInsert (h : Integral db) (hcal : db.colId cal = some cid) {data etag : Bytes}
    (hins : Sql.resInsert data url cid etag db = some db') : Space.Step (.create cal url ⟨etag, data⟩) db.space db'.space := by
  obtain ⟨hnone, -⟩ := resGet_resInsert hins
  unfold Sql.resInsert at hins
  split at hins
  next => cases hins
  next hfree =>
    cases hins
    refine step_of_resource (.create cal url ⟨etag, data⟩) (some ⟨cid, url, etag, data, db.resourceSeq + 1⟩) h hcal rfl rfl rfl rfl
      (fun c u => ?_) ⟨space_calendar hcal, ?_⟩ (fun _ => rfl) (fun _ => rfl) (fun _ => rfl) (fun _ => rfl) fun _ => rfl
    · by_cases hcu : c = cid ∧ u = url
      · obtain ⟨rfl, rfl⟩ := hcu
        rw [if_pos ⟨rfl, rfl⟩]
        exact find?_append_of_true hnone (by simp)
      · rw [if_neg hcu]
        refine find?_append_of_false (decide_eq_false fun heq => hcu ⟨heq.1.symm, heq.2.symm⟩)
    · rw [space_resource hcal, hnone, Option.map_none]

theorem space_resUpdate (h : Integral db) (hcal : db.colId cal = some cid) {r : ResRow} (hr : Sql.resGet cid url db = some r)
    (data etag : Bytes) :
    Space.Step (.replace cal url r.etag ⟨etag, data⟩) db.space (Sql.resUpdate data etag r.id db).space := by
  refine step_of_resource (.replace cal url r.etag ⟨etag, data⟩) (some { r with data := data, etag := etag }) h hcal rfl rfl rfl rfl
    (fun c u => ?_) ⟨r.entry, ?_, rfl⟩ (fun _ => rfl) (fun _ => rfl) (fun _ => rfl) (fun _ => rfl) fun _ => rfl
  · by_cases hcu : c = cid ∧ u = url
    · obtain ⟨rfl, rfl⟩ := hcu
      rw [if_pos ⟨rfl, rfl⟩]
      exact resGet_resUpdate hr
    · rw [if_neg hcu]
      have hmap : Sql.resGet c u (Sql.resUpdate data etag r.id db) =
          (Sql.resGet c u db).map fun x => if x.id = r.id then { x with data := data, etag := etag } else x := by
        refine find?_map_of_same fun x => ?_
        split <;> rfl
      rw [hmap]
      cases hget : Sql.resGet c u db with
      | none => rfl
      | some x =>
        obtain ⟨hx, haddr⟩ := h.resGet_iff.mp hget
        obtain ⟨hmem, haddr'⟩ := h.resGet_iff.mp hr
        rw [Option.map_some, if_neg]
        intro hid
        obtain rfl := h.resId.key x hx r hmem hid
        rw [haddr, Prod.mk.injEq] at haddr'
        exact hcu haddr'
  · rw [space_resource hcal, hr, Option.map_some]

theorem resGet_filter (h : Integral db) (keep : ResRow → Bool) (c : Int) (u : Bytes) :
    Sql.resGet c u { db with resource := db.resource.filter keep } = (Sql.resGet c u db).filter keep :=
  h.resAddress.find?_filter (k := (c, u)) (fun _ => by rw [decide_eq_true_iff, Prod.mk.injEq]) keep

theorem resGet_filter_of_ne (h : Integral db) {keep : ResRow → Bool} (hkeep : ∀ r, keep r = false → r.url = url ∧ r.collection = cid)
    {c : Int} {u : Bytes} (hcu : ¬(c = cid ∧ u = url)) :
    Sql.resGet c u { db with resource := db.resource.filter keep } = Sql.resGet c u db := by
  rw [resGet_filter h]
  cases hget : Sql.resGet c u db with
  | none => rfl
  | some r =>
    obtain ⟨-, haddr⟩ := h.resGet_iff.mp hget
    rw [Prod.mk.injEq] at haddr
    cases hk : keep r with
    | true => exact Option.filter_some_pos hk
    | false =>
      obtain ⟨hurl, hcol⟩ := hkeep r hk
      exact absurd ⟨haddr.1.symm.trans hcol, haddr.2.symm.trans hurl⟩ hcu

theorem space_resRemove (h : Integral db) (hcal : db.colId cal = some cid) (url : Bytes) :
    Space.Step (.remove cal url) db.space (Sql.resRemove url cid db).space := by
  refine step_of_resource (.remove cal url) none h hcal rfl rfl rfl rfl (fun c u => ?_) (space_calendar hcal) (fun _ => rfl)
    (fun _ => rfl) (fun _ => rfl) (fun _ => rfl) fun _ => rfl
  by_cases hcu : c = cid ∧ u = url
  · obtain ⟨rfl, rfl⟩ := hcu
    rw [if_pos ⟨rfl, rfl⟩]
    exact resGet_resRemove u
  · rw [if_neg hcu]
    exact resGet_filter_of_ne h (fun r hk => not_not.mp (of_decide_eq_false hk)) hcu

theorem space_resRemoveEtag (h : Integral db) (hcal : db.colId cal = some cid) {tag : Bytes} {r : ResRow}
    (hr : Sql.resGetEtag url cid tag db = some r) :
    Space.Step (.removeIf cal url tag) db.space (Sql.resRemoveEtag url cid tag db).space := by
  obtain ⟨hmem, hurl, hcol, htag⟩ := mem_of_resGetEtag hr
  have hget : Sql.resGet cid url db = some r := h.resGet_iff.mpr ⟨hmem, Prod.ext hcol hurl⟩
  refine step_of_resource (.removeIf cal url tag) none h hcal rfl rfl rfl rfl (fun c u => ?_) ⟨r.entry, ?_, htag⟩ (fun _ => rfl)
    (fun _ => rfl) (fun _ => rfl) (fun _ => rfl) fun _ => rfl
  · by_cases hcu : c = cid ∧ u = url
    · obtain ⟨rfl, rfl⟩ := hcu
      rw [if_pos ⟨rfl, rfl⟩]
      refine (resGet_filter h _ c u).trans ?_
      rw [hget, Option.filter_some_neg]
      simp [hurl, hcol, htag]
    · rw [if_neg hcu]
      refine resGet_filter_of_ne h (fun r hk => ?_) hcu
      have hall := not_not.mp (of_decide_eq_false hk)
      exact ⟨hall.1, hall.2.1⟩
  · rw [space_resource hcal, hget, Option.map_some]

end Resources

/-! ## Collections -/

section Collections
variable {cal : CalName} {p cid : Int}

/-- A statement that sets the calendar of one address. -/
theorem step_of_collection (w : SpaceEvent) (row : Option ColRow) (h : Integral db) (hcal : db.prncplId cal.1 = some p)
    (hp : db'.principal = db.principal) (hx : db'.proxy = db.proxy) (hn : db'.nonce = db.nonce)
    (hcol : ∀ p' u, Sql.colGet p' u db' = if p' = p ∧ u = cal.2 then row else Sql.colGet p' u db) (hw : w.Enabled db.space)
    (haccount : ∀ n, w.setsAccount n = none)
    (hcalendar : ∀ k, w.setsCalendar k = if k = cal then some (row.map ColRow.display) else none)
    (hresource : ∀ k, db'.space.resource k = (w.setsResource k).getD (db.space.resource k))
    (hdelegate : ∀ k, w.setsDelegate k = none) (hnonce : ∀ k, w.setsNonce k = none) : Space.Step w db.space db'.space := by
  have hid : ∀ n, db'.prncplId n = db.prncplId n := by
    intro n
    unfold Db.prncplId Sql.prncplGet
    rw [hp]
  refine ⟨hw, fun n => ?_, fun k => ?_, hresource, fun k => ?_, fun k => ?_⟩
  · rw [haccount]
    simp only [Db.space, Sql.prncplGet, hp, Option.getD_none]
  · rw [hcalendar]
    simp only [Db.space, hid]
    by_cases hk : k = cal
    · subst hk
      rw [if_pos rfl, hcal, Option.bind_some, hcol, if_pos ⟨rfl, rfl⟩, Option.getD_some]
    · rw [if_neg hk, Option.getD_none]
      cases hk' : db.prncplId k.1 with
      | none => rfl
      | some p' =>
        rw [Option.bind_some, Option.bind_some, hcol, if_neg]
        rintro ⟨rfl, hurl⟩
        exact hk (Prod.ext (h.prncplId_inj hk' hcal) hurl)
  · rw [hdelegate]
    simp only [Db.space, Db.proxyGet, hid, hx, Option.getD_none]
  · rw [hnonce]
    simp only [Db.space, Sql.nonceGetCount, hn, Option.getD_none]

theorem space_account {name : Bytes} {id : Int} (h : db.prncplId name = some id) : db.space.account name ≠ none := by
  obtain ⟨p, hget, -⟩ := Option.map_eq_some_iff.mp h
  simp [Db.space, hget]

/-- A collection that has just been made has no resources. -/
theorem Integral.resGet_new (h : Integral db) (url : Bytes) : Sql.resGet (db.collectionSeq + 1) url db = none := by
  cases hget : Sql.resGet (db.collectionSeq + 1) url db with
  | none => rfl
  | some r =>
    obtain ⟨hr, haddr⟩ := h.resGet_iff.mp hget
    obtain ⟨c, hc, hid⟩ := h.resOwner r hr
    have hle := h.colId.le c hc
    rw [Prod.mk.injEq] at haddr
    rw [hid, haddr.1] at hle
    omega

theorem space_colInsert (h : Integral db) (hcal : db.prncplId cal.1 = some p) (hins : Sql.colInsert p cal.2 db = some db') :
    Space.Step (.mkcalendar cal) db.space db'.space := by
  unfold Sql.colInsert at hins
  split at hins
  next => cases hins
  next hfree =>
    cases hins
    have hnone : Sql.colGet p cal.2 db = none := Option.not_isSome_iff_eq_none.mp fun hs => hfree (Or.inl hs)
    have hcol : ∀ p' u, Sql.colGet p' u
        { db with collection := db.collection ++ [Sql.newCol p cal.2 (db.collectionSeq + 1)], collectionSeq := db.collectionSeq + 1 } =
        if p' = p ∧ u = cal.2 then some (Sql.newCol p cal.2 (db.collectionSeq + 1)) else Sql.colGet p' u db := by
      intro p' u
      by_cases hpu : p' = p ∧ u = cal.2
      · obtain ⟨rfl, rfl⟩ := hpu
        rw [if_pos ⟨rfl, rfl⟩]
        exact find?_append_of_true hnone (by simp [Sql.newCol])
      · rw [if_neg hpu]
        refine find?_append_of_false (decide_eq_false fun heq => hpu ⟨heq.1.symm, heq.2.symm⟩)
    refine step_of_collection (.mkcalendar cal) (some (Sql.newCol p cal.2 (db.collectionSeq + 1))) h hcal rfl rfl rfl hcol
      ⟨space_account hcal, ?_⟩ (fun _ => rfl) (fun _ => rfl) (fun k => ?_) (fun _ => rfl) fun _ => rfl
    · simp only [Db.space, hcal, Option.bind_some, hnone, Option.map_none]
    · obtain ⟨k, u⟩ := k
      change Option.bind ((db.prncplId k.1).bind _) _ = Option.bind ((db.prncplId k.1).bind _) _
      cases hk : db.prncplId k.1 with
      | none => rfl
      | some p' =>
        simp only [Option.bind_some, hcol]
        by_cases hpu : p' = p ∧ k.2 = cal.2
        · obtain ⟨rfl, hurl⟩ := hpu
          rw [if_pos ⟨rfl, hurl⟩, hurl, hnone]
          simp only [Option.map_some, Option.map_none, Option.bind_some, Option.bind_none]
          exact congrArg _ (h.resGet_new u)
        · rw [if_neg hpu]
          rfl

theorem colGet_colId (h : Integral db) (hcal : db.colId cal = some cid) :
    ∃ c, db.prncplId cal.1 = some c.principal ∧ Sql.colGet c.principal cal.2 db = some c ∧ c ∈ db.collection ∧ c.id = cid := by
  obtain ⟨c, hc, hid, hurl, hp⟩ := h.colId_iff.mp hcal
  exact ⟨c, hp, h.colGet_iff.mpr ⟨hc, by rw [hurl]⟩, hc, hid⟩

theorem space_colUpdate (h : Integral db) (hcal : db.colId cal = some cid) {displayname colour description : Option Bytes}
    (hupd : Sql.colUpdate displayname colour description cid db = some db') :
    ∃ d : Display, displayname = some d.displayname ∧ colour = some d.colour ∧ description = some d.description ∧
      Space.Step (.display cal d) db.space db'.space := by
  obtain ⟨c, hp, hget, hc, rfl⟩ := colGet_colId h hcal
  unfold Sql.colUpdate at hupd
  split at hupd
  next n o t =>
    cases hupd
    refine ⟨⟨n, o, t⟩, rfl, rfl, rfl, ?_⟩
    let g : ColRow → ColRow := fun x => if x.id = c.id then { x with displayname := n, colour := o, description := t } else x
    have haddr : ∀ x, (g x).principal = x.principal ∧ (g x).url = x.url := by
      intro x
      unfold g
      split <;> exact ⟨rfl, rfl⟩
    have hid : ∀ x, (g x).id = x.id := by
      intro x
      unfold g
      split <;> rfl
    have hmap : ∀ p' u, Sql.colGet p' u { db with collection := db.collection.map g } = (Sql.colGet p' u db).map g :=
      colGet_map_of_address haddr
    refine step_of_collection (.display cal ⟨n, o, t⟩) (some (g c)) h hp rfl rfl rfl (fun p' u => ?_) (space_calendar hcal)
      (fun _ => rfl) (fun k => ?_) (fun k => ?_) (fun _ => rfl) fun _ => rfl
    · refine (hmap p' u).trans ?_
      by_cases hpu : p' = c.principal ∧ u = cal.2
      · obtain ⟨rfl, rfl⟩ := hpu
        rw [if_pos ⟨rfl, rfl⟩, hget, Option.map_some]
      · rw [if_neg hpu]
        cases hx : Sql.colGet p' u db with
        | none => rfl
        | some x =>
          obtain ⟨hmem, hxaddr⟩ := h.colGet_iff.mp hx
          rw [Option.map_some]
          refine congrArg some (if_neg fun hsame => ?_)
          obtain rfl := h.colId.key x hmem c hc hsame
          have hcaddr := (h.colGet_iff.mp hget).2
          rw [hxaddr, Prod.mk.injEq] at hcaddr
          exact hpu hcaddr
    · simp [SpaceEvent.setsCalendar, g, ColRow.display]
    · have hcolid : ∀ p' u, (Sql.colGet p' u { db with collection := db.collection.map g }).map ColRow.id =
          (Sql.colGet p' u db).map ColRow.id := by
        intro p' u
        rw [hmap, Option.map_map]
        exact congrArg (Option.map · _) (funext hid)
      change Option.bind ((db.prncplId k.1.1).bind _) _ = Option.bind ((db.prncplId k.1.1).bind _) _
      simp only [g] at hcolid
      simp only [hcolid]
      rfl
  next =>
    split at hupd
    next => cases hupd
    next hno => exact absurd ⟨c, hc, rfl⟩ hno

theorem space_colRemove (h : Integral db) (hcal : db.colId cal = some cid) :
    Space.Step (.rmcalendar cal) db.space (Sql.colRemove cid db).space := by
  obtain ⟨c, hp, hget, hc, rfl⟩ := colGet_colId h hcal
  have hcol : ∀ p' u, Sql.colGet p' u (Sql.colRemove c.id db) =
      if p' = c.principal ∧ u = cal.2 then none else Sql.colGet p' u db := by
    intro p' u
    have hfilter : Sql.colGet p' u (Sql.colRemove c.id db) = (Sql.colGet p' u db).filter fun x => x.id ≠ c.id :=
      h.colAddress.find?_filter (k := (p', u)) (fun _ => by rw [decide_eq_true_iff, Prod.mk.injEq]) _
    rw [hfilter]
    by_cases hpu : p' = c.principal ∧ u = cal.2
    · obtain ⟨rfl, rfl⟩ := hpu
      rw [if_pos ⟨rfl, rfl⟩, hget]
      simp
    · rw [if_neg hpu]
      cases hx : Sql.colGet p' u db with
      | none => rfl
      | some x =>
        obtain ⟨hmem, hxaddr⟩ := h.colGet_iff.mp hx
        refine Option.filter_some_pos (decide_eq_true fun hsame => ?_)
        obtain rfl := h.colId.key x hmem c hc hsame
        have hcaddr := (h.colGet_iff.mp hget).2
        rw [hxaddr, Prod.mk.injEq] at hcaddr
        exact hpu hcaddr
  refine step_of_collection (.rmcalendar cal) none h hp rfl rfl rfl hcol (space_calendar hcal) (fun _ => rfl) (fun _ => rfl)
    (fun k => ?_) (fun _ => rfl) fun _ => rfl
  obtain ⟨k, u⟩ := k
  change Option.bind ((db.prncplId k.1).bind _) _ = _
  by_cases hk : k = cal
  · subst hk
    simp [hp, hcol, SpaceEvent.setsResource]
  · have hcolid : (db.prncplId k.1).bind (fun p' => (Sql.colGet p' k.2 (Sql.colRemove c.id db)).map ColRow.id) = db.colId k := by
      unfold Db.colId
      cases hk' : db.prncplId k.1 with
      | none => rfl
      | some p' =>
        rw [Option.bind_some, Option.bind_some, hcol, if_neg]
        rintro ⟨rfl, hurl⟩
        exact hk (Prod.ext (h.prncplId_inj hk' hp) hurl)
    rw [hcolid]
    simp only [SpaceEvent.setsResource, hk, if_false, Option.getD_none, Db.space]
    cases hk' : db.colId k with
    | none => rfl
    | some cid =>
      rw [Option.bind_some, Option.bind_some]
      have hne : cid ≠ c.id := by
        rintro rfl
        exact hk (h.colId_inj hk' hcal)
      have hfilter : Sql.resGet cid u (Sql.colRemove c.id db) = (Sql.resGet cid u db).filter fun r => r.collection ≠ c.id :=
        resGet_filter h _ cid u
      rw [hfilter]
      cases hr : Sql.resGet cid u db with
      | none => rfl
      | some r =>
        have haddr := (h.resGet_iff.mp hr).2
        rw [Prod.mk.injEq] at haddr
        rw [Option.filter_some_pos]
        simpa [haddr.1] using hne

/-- Of a collection that is not there nothing goes. -/
theorem colRemove_absent (h : Integral db) (hno : ∀ c ∈ db.collection, c.id ≠ cid) : Sql.colRemove cid db = db := by
  have hc : db.collection.filter (fun c => c.id ≠ cid) = db.collection :=
    List.filter_eq_self.mpr fun c hc => decide_eq_true (hno c hc)
  have hr : db.resource.filter (fun r => r.collection ≠ cid) = db.resource := by
    refine List.filter_eq_self.mpr fun r hr => decide_eq_true fun heq => ?_
    obtain ⟨c, hc, hid⟩ := h.resOwner r hr
    exact hno c hc (hid.trans heq)
  unfold Sql.colRemove
  rw [hc, hr]

theorem colUpdate_absent (hno : ∀ c ∈ db.collection, c.id ≠ cid) {displayname colour description : Option Bytes}
    (hupd : Sql.colUpdate displayname colour description cid db = some db') : db' = db := by
  unfold Sql.colUpdate at hupd
  split at hupd
  next n o t =>
    cases hupd
    have hsame : db.collection.map (fun c => if c.id = cid then { c with displayname := n, colour := o, description := t } else c) =
        db.collection := (List.map_congr_left fun c hc => if_neg (hno c hc)).trans (List.map_id' _)
    rw [hsame]
  next =>
    split at hupd
    next => cases hupd
    next =>
      cases hupd
      rfl

theorem resGet_absent (h : Integral db) (hno : ∀ c ∈ db.collection, c.id ≠ cid) (url : Bytes) : Sql.resGet cid url db = none := by
  cases hget : Sql.resGet cid url db with
  | none => rfl
  | some r =>
    obtain ⟨hr, haddr⟩ := h.resGet_iff.mp hget
    obtain ⟨c, hc, hid⟩ := h.resOwner r hr
    rw [Prod.mk.injEq] at haddr
    exact absurd (hid.trans haddr.1) (hno c hc)

theorem resFilter_absent (h : Integral db) (hno : ∀ c ∈ db.collection, c.id ≠ cid) {keep : ResRow → Bool}
    (hkeep : ∀ r, keep r = false → r.collection = cid) : { db with resource := db.resource.filter keep } = db := by
  have hr : db.resource.filter keep = db.resource := by
    refine List.filter_eq_self.mpr fun r hr => ?_
    cases hk : keep r with
    | true => rfl
    | false =>
      obtain ⟨c, hc, hid⟩ := h.resOwner r hr
      exact absurd (hid.trans (hkeep r hk)) (hno c hc)
  rw [hr]

end Collections

/-! ## Accounts -/

section Accounts
variable {name hash email : Bytes}

theorem prncplInsert_free (hins : Sql.prncplInsert name hash email db = some db') :
    (∀ p ∈ db.principal, p.name ≠ name ∧ p.email ≠ email) ∧
      db' = { db with
        principal := db.principal ++ [⟨name, hash, email, db.principalSeq + 1⟩]
        principalSeq := db.principalSeq + 1 } := by
  unfold Sql.prncplInsert at hins
  split at hins
  next => cases hins
  next hfree =>
    cases hins
    push Not at hfree
    exact ⟨hfree, rfl⟩

theorem prncplGet_insert (hins : Sql.prncplInsert name hash email db = some db') (n : Bytes) :
    Sql.prncplGet n db' = if n = name then some ⟨name, hash, email, db.principalSeq + 1⟩ else Sql.prncplGet n db := by
  obtain ⟨hfree, rfl⟩ := prncplInsert_free hins
  by_cases hn : n = name
  · subst hn
    rw [if_pos rfl]
    exact find?_append_of_true (List.find?_eq_none.mpr fun p hp => by simpa using (hfree p hp).1) (by simp)
  · rw [if_neg hn]
    exact find?_append_of_false (decide_eq_false (Ne.symm hn))

/-- A new account starts with nothing. -/
theorem space_prncplInsert (h : Integral db) (hins : Sql.prncplInsert name hash email db = some db') :
    db'.prncplId name = some (db.principalSeq + 1) ∧
      (∀ n, db'.space.account n = if n = name then some ⟨hash, email⟩ else db.space.account n) ∧
      db'.space.calendar = db.space.calendar ∧ db'.space.resource = db.space.resource ∧
      db'.space.delegate = db.space.delegate ∧ db'.space.nonce = db.space.nonce := by
  have hget := prncplGet_insert hins
  obtain ⟨hfree, rfl⟩ := prncplInsert_free hins
  have hid : ∀ n, Db.prncplId { db with
        principal := db.principal ++ [⟨name, hash, email, db.principalSeq + 1⟩]
        principalSeq := db.principalSeq + 1 } n = if n = name then some (db.principalSeq + 1) else db.prncplId n := by
    intro n
    unfold Db.prncplId
    rw [hget]
    split <;> rfl
  have hnew : db.prncplId name = none := by
    unfold Db.prncplId
    rw [Option.map_eq_none_iff]
    exact List.find?_eq_none.mpr fun p hp => by simpa using (hfree p hp).1
  have hcol (url : Bytes) : Sql.colGet (db.principalSeq + 1) url db = none := by
    cases hc : Sql.colGet (db.principalSeq + 1) url db with
    | none => rfl
    | some c =>
      obtain ⟨hmem, haddr⟩ := h.colGet_iff.mp hc
      obtain ⟨p, hp, howner⟩ := h.colOwner c hmem
      have hle := h.prncplId.le p hp
      rw [Prod.mk.injEq] at haddr
      omega
  have hproxy (p v : Int) (hpv : p = db.principalSeq + 1 ∨ v = db.principalSeq + 1) : db.proxyGet p v = none := by
    cases hx : db.proxyGet p v with
    | none => rfl
    | some x =>
      obtain ⟨hmem, haddr⟩ := h.proxyGet_iff.mp hx
      obtain ⟨o, ho, howner⟩ := h.proxyOwner x hmem
      obtain ⟨u, hu, huser⟩ := h.proxyUser x hmem
      have hole := h.prncplId.le o ho
      have hule := h.prncplId.le u hu
      rw [Prod.mk.injEq] at haddr
      omega
  refine ⟨(hid name).trans (if_pos rfl), fun n => ?_, funext fun k => ?_, funext fun k => ?_, funext fun k => ?_, rfl⟩
  · simp only [Db.space, hget]
    split <;> rfl
  · simp only [Db.space, hid]
    split
    next hk =>
      rw [hk, hnew, Option.bind_some, Option.bind_none, Option.map_eq_none_iff]
      exact hcol k.2
    next => rfl
  · simp only [Db.space, Db.colId, hid]
    split
    next hk =>
      rw [hk, hnew, Option.bind_some, Option.bind_none, Option.bind_none, Option.bind_eq_none_iff]
      intro c hc
      rw [Option.map_eq_some_iff] at hc
      obtain ⟨row, hrow, -⟩ := hc
      exact absurd ((hcol k.1.2).symm.trans hrow) (by simp)
    next => rfl
  · simp only [Db.space, hid]
    change Option.bind _ (fun p => Option.bind _ fun v => (db.proxyGet p v).map fun x => int32 x.bits) = _
    by_cases hk₁ : k.1 = name
    · rw [if_pos hk₁, hk₁, hnew, Option.bind_some, Option.bind_none, Option.bind_eq_none_iff]
      intro v _
      rw [hproxy _ v (Or.inl rfl), Option.map_none]
    · rw [if_neg hk₁]
      by_cases hk₂ : k.2 = name
      · rw [if_pos hk₂, hk₂, hnew]
        cases db.prncplId k.1 with
        | none => rfl
        | some p => simp [hproxy p _ (Or.inr rfl)]
      · rw [if_neg hk₂]

theorem emailFree_of {q : Bytes} (h : ∀ p ∈ db.principal, p.email = email → p.name = q) : db.space.EmailFree q email := by
  intro n a ha hemail
  obtain ⟨p, hget, rfl⟩ := Option.map_eq_some_iff.mp ha
  have hfound := List.find?_some hget
  have hname : p.name = n := of_decide_eq_true hfound
  rw [← hname]
  exact h p (List.mem_of_find?_eq_some hget) hemail

/-- An account is made with its first calendar. -/
theorem space_prncplNew (h : Integral db) {url : Bytes} {db₁ : Db} (hins : Sql.prncplInsert name hash email db = some db₁)
    (hcol : Sql.colInsert db₁.principalSeq url db₁ = some db') :
    Space.Step (.mkaccount name ⟨hash, email⟩ url) db.space db'.space := by
  obtain ⟨hid, haccount, hcalendar, hresource, hdelegate, hnonce⟩ := space_prncplInsert h hins
  have hfree := (prncplInsert_free hins).1
  have hseq : db₁.principalSeq = db.principalSeq + 1 := by rw [(prncplInsert_free hins).2]
  rw [← hseq] at hid
  have hstep : Space.Step (.mkcalendar (name, url)) db₁.space db'.space := space_colInsert (h.prncplInsert hins) hid hcol
  refine ⟨⟨?_, emailFree_of fun p hp hsame => absurd hsame (hfree p hp).2⟩, fun n => ?_, fun k => ?_, fun k => ?_, fun k => ?_, fun k => ?_⟩
  · rw [Db.space, Option.map_eq_none_iff]
    exact List.find?_eq_none.mpr fun p hp => by simpa using (hfree p hp).1
  · rw [hstep.account]
    change db₁.space.account n = _
    rw [haccount, SpaceEvent.setsAccount]
    split <;> rfl
  · rw [hstep.calendar, hcalendar]
    rfl
  · rw [hstep.resource, hresource]
    rfl
  · rw [hstep.delegate, hdelegate]
    rfl
  · rw [hstep.nonce, hnonce]
    rfl

theorem space_prncplUpdate (h : Integral db) {id : Int} (hid : db.prncplId name = some id)
    (hupd : Sql.prncplUpdate hash email id db = some db') : Space.Step (.account name ⟨hash, email⟩) db.space db'.space := by
  obtain ⟨row, hrow, rfl, rfl⟩ := h.prncplId_iff.mp hid
  unfold Sql.prncplUpdate at hupd
  split at hupd
  next => cases hupd
  next hfree =>
    cases hupd
    push Not at hfree
    let g : PrncplRow → PrncplRow := fun p => if p.id = row.id then { p with hash := hash, email := email } else p
    have hgname : ∀ p, (g p).name = p.name := by
      intro p
      unfold g
      split <;> rfl
    have hgid : ∀ p, (g p).id = p.id := by
      intro p
      unfold g
      split <;> rfl
    have hget : ∀ n, Sql.prncplGet n { db with principal := db.principal.map g } = (Sql.prncplGet n db).map g :=
      fun n => find?_map_of_same fun p => by rw [hgname]
    have hsame : ∀ n, Db.prncplId { db with principal := db.principal.map g } n = db.prncplId n := by
      intro n
      unfold Db.prncplId
      rw [hget, Option.map_map]
      exact congrArg (Option.map · _) (funext hgid)
    refine ⟨⟨space_account hid, emailFree_of fun p hp hemail => ?_⟩, fun n => ?_, fun k => ?_, fun k => ?_, fun k => ?_, fun _ => rfl⟩
    · by_contra hname
      refine hfree ⟨row, hrow, rfl⟩ p hp (fun hpid => hname ?_) hemail
      rw [h.prncplId.key p hp row hrow hpid]
    · change Option.map _ (Sql.prncplGet n { db with principal := db.principal.map g }) = _
      rw [hget, Option.map_map]
      simp only [SpaceEvent.setsAccount, Db.space]
      cases hn : Sql.prncplGet n db with
      | none =>
        rw [if_neg]
        · rfl
        · rintro rfl
          rw [(h.prncplGet_iff).mpr ⟨hrow, rfl⟩] at hn
          cases hn
      | some p =>
        obtain ⟨hp, rfl⟩ := h.prncplGet_iff.mp hn
        by_cases hpid : p.id = row.id
        · obtain rfl := h.prncplId.key p hp row hrow hpid
          simp [g, PrncplRow.account]
        · have hne : p.name ≠ row.name := fun hname => hpid (congrArg PrncplRow.id (h.prncplName p hp row hrow hname))
          simp [g, PrncplRow.account, hpid, hne]
    · change Option.bind (Db.prncplId { db with principal := db.principal.map g } k.1) _ = _
      rw [hsame]
      rfl
    · change Option.bind (Option.bind (Db.prncplId { db with principal := db.principal.map g } k.1.1) _) _ = _
      rw [hsame]
      rfl
    · change Option.bind (Db.prncplId { db with principal := db.principal.map g } k.1) (fun p =>
        Option.bind (Db.prncplId { db with principal := db.principal.map g } k.2) _) = _
      rw [hsame, hsame]
      rfl

/-! ## Proxies -/

variable {owner user : Bytes} {p v : Int}

/-- A statement that sets the permission of one account for another. -/
theorem step_of_proxy (w : SpaceEvent) (bits : Option Int) (h : Integral db) (howner : db.prncplId owner = some p)
    (huser : db.prncplId user = some v) (hp : db'.principal = db.principal) (hc : db'.collection = db.collection)
    (hr : db'.resource = db.resource) (hn : db'.nonce = db.nonce)
    (hx : ∀ p' v', (db'.proxyGet p' v').map (fun x => int32 x.bits) =
      if p' = p ∧ v' = v then bits else (db.proxyGet p' v').map fun x => int32 x.bits)
    (hw : w.Enabled db.space) (haccount : ∀ n, w.setsAccount n = none) (hcalendar : ∀ k, w.setsCalendar k = none)
    (hresource : ∀ k, w.setsResource k = none)
    (hdelegate : ∀ k, w.setsDelegate k = if k = (owner, user) then some bits else none) (hnonce : ∀ k, w.setsNonce k = none) :
    Space.Step w db.space db'.space := by
  have hid : ∀ n, db'.prncplId n = db.prncplId n := by
    intro n
    unfold Db.prncplId Sql.prncplGet
    rw [hp]
  refine ⟨hw, fun n => ?_, fun k => ?_, fun k => ?_, fun k => ?_, fun k => ?_⟩
  · rw [haccount]
    simp only [Db.space, Sql.prncplGet, hp, Option.getD_none]
  · rw [hcalendar]
    simp only [Db.space, Sql.colGet, hid, hc, Option.getD_none]
  · rw [hresource]
    simp only [Db.space, Db.colId, Sql.colGet, Sql.resGet, hid, hc, hr, Option.getD_none]
  · rw [hdelegate]
    simp only [Db.space, hid, hx]
    by_cases hk : k = (owner, user)
    · subst hk
      simp [howner, huser]
    · rw [if_neg hk, Option.getD_none]
      cases hk₁ : db.prncplId k.1 with
      | none => rfl
      | some p' =>
        cases hk₂ : db.prncplId k.2 with
        | none => rfl
        | some v' =>
          rw [Option.bind_some, Option.bind_some, Option.bind_some, Option.bind_some, if_neg]
          rintro ⟨rfl, rfl⟩
          exact hk (Prod.ext (h.prncplId_inj hk₁ howner) (h.prncplId_inj hk₂ huser))
  · rw [hnonce]
    simp only [Db.space, Sql.nonceGetCount, hn, Option.getD_none]

theorem space_proxyInsert (h : Integral db) (howner : db.prncplId owner = some p) (huser : db.prncplId user = some v) {bits : Int}
    (hins : Sql.proxyInsert p v bits db = some db') : Space.Step (.delegate owner user (int32 bits)) db.space db'.space := by
  unfold Sql.proxyInsert at hins
  split at hins
  next => cases hins
  next hfree =>
    cases hins
    push Not at hfree
    refine step_of_proxy (.delegate owner user (int32 bits)) (some (int32 bits)) h howner huser rfl rfl rfl rfl (fun p' v' => ?_)
      ⟨space_account howner, space_account huser⟩ (fun _ => rfl) (fun _ => rfl) (fun _ => rfl) (fun _ => rfl) fun _ => rfl
    by_cases hpv : p' = p ∧ v' = v
    · obtain ⟨rfl, rfl⟩ := hpv
      have hnone : db.proxyGet p' v' = none := List.find?_eq_none.mpr fun x hx => by simpa using hfree.1 x hx
      rw [if_pos ⟨rfl, rfl⟩]
      exact congrArg _ (find?_append_of_true hnone (by simp))
    · rw [if_neg hpv]
      refine congrArg _ (find?_append_of_false (decide_eq_false ?_))
      rintro ⟨rfl, rfl⟩
      exact hpv ⟨rfl, rfl⟩

theorem space_proxyUpdate (h : Integral db) (howner : db.prncplId owner = some p) (huser : db.prncplId user = some v) (bits : Int)
    (hrow : ∃ x ∈ db.proxy, x.principal = p ∧ x.proxy = v) :
    Space.Step (.delegate owner user (int32 bits)) db.space (Sql.proxyUpdate bits p v db).space := by
  obtain ⟨x, hx, rfl, rfl⟩ := hrow
  refine step_of_proxy (.delegate owner user (int32 bits)) (some (int32 bits)) h howner huser rfl rfl rfl rfl (fun p' v' => ?_)
    ⟨space_account howner, space_account huser⟩ (fun _ => rfl) (fun _ => rfl) (fun _ => rfl) (fun _ => rfl) fun _ => rfl
  have hmap : (Sql.proxyUpdate bits x.principal x.proxy db).proxyGet p' v' = (db.proxyGet p' v').map fun y =>
      if y.principal = x.principal ∧ y.proxy = x.proxy then { y with bits := bits } else y := by
    refine find?_map_of_same fun y => ?_
    split <;> rfl
  rw [hmap]
  by_cases hpv : p' = x.principal ∧ v' = x.proxy
  · obtain ⟨rfl, rfl⟩ := hpv
    rw [if_pos ⟨rfl, rfl⟩, h.proxyGet_iff.mpr ⟨hx, rfl⟩, Option.map_some, Option.map_some, if_pos ⟨rfl, rfl⟩]
  · rw [if_neg hpv]
    cases hy : db.proxyGet p' v' with
    | none => rfl
    | some y =>
      have haddr := (h.proxyGet_iff.mp hy).2
      rw [Prod.mk.injEq] at haddr
      rw [Option.map_some, if_neg (by rwa [haddr.1, haddr.2])]

theorem space_proxyRemove (h : Integral db) (howner : db.prncplId owner = some p) (huser : db.prncplId user = some v) :
    Space.Step (.undelegate owner user) db.space (Sql.proxyRemove p v db).space := by
  refine step_of_proxy (.undelegate owner user) none h howner huser rfl rfl rfl rfl (fun p' v' => ?_)
    ⟨space_account howner, space_account huser⟩ (fun _ => rfl) (fun _ => rfl) (fun _ => rfl) (fun _ => rfl) fun _ => rfl
  have hfilter : (Sql.proxyRemove p v db).proxyGet p' v' = (db.proxyGet p' v').filter fun x => ¬(x.principal = p ∧ x.proxy = v) :=
    h.proxyPair.find?_filter (k := (p', v')) (fun _ => by rw [decide_eq_true_iff, Prod.mk.injEq]) _
  rw [hfilter]
  cases hx : db.proxyGet p' v' with
  | none => simp
  | some x =>
    have haddr := (h.proxyGet_iff.mp hx).2
    rw [Prod.mk.injEq] at haddr
    obtain ⟨rfl, rfl⟩ := haddr
    by_cases hpv : x.principal = p ∧ x.proxy = v
    · rw [if_pos hpv, Option.filter_some_neg (by simp [hpv]), Option.map_none]
    · rw [if_neg hpv]
      exact congrArg _ (Option.filter_some_pos (decide_eq_true hpv))

end Accounts

/-! ## Nonces -/

section Nonces
variable {nonce : Bytes}

theorem Integral.nonceFind_iff (h : Integral db) {row : NonceRow} :
    (db.nonce.find? fun n => n.nonce = nonce) = some row ↔ row ∈ db.nonce ∧ row.nonce = nonce :=
  h.nonceKey.find?_eq_some fun _ => decide_eq_true_iff

/-- A statement that sets nonces. -/
theorem step_of_nonce (w : SpaceEvent) {rows : List NonceRow} {seq : Int} (hw : w.Enabled db.space) (haccount : ∀ n, w.setsAccount n = none)
    (hcalendar : ∀ k, w.setsCalendar k = none) (hresource : ∀ k, w.setsResource k = none) (hdelegate : ∀ k, w.setsDelegate k = none)
    (hnonce : ∀ k, (rows.find? fun n => n.nonce = k).map NonceRow.count = (w.setsNonce k).getD (Sql.nonceGetCount k db)) :
    Space.Step w db.space (Db.space { db with nonce := rows, nonceSeq := seq }) := by
  refine ⟨hw, fun n => ?_, fun k => ?_, fun k => ?_, fun k => ?_, hnonce⟩
  · rw [haccount]
    rfl
  · rw [hcalendar]
    rfl
  · rw [hresource]
    rfl
  · rw [hdelegate]
    rfl

theorem space_nonceUpdate (h : Integral db) {count next : Int} (hget : Sql.nonceGetCount nonce db = some next) (hle : next ≤ count) :
    Space.Step (.accept nonce count) db.space (Sql.nonceUpdate (int64 (count + 1)) nonce db).space := by
  refine step_of_nonce (.accept nonce count) ⟨next, hget, hle⟩ (fun _ => rfl) (fun _ => rfl) (fun _ => rfl) (fun _ => rfl) fun k => ?_
  rw [find?_map_of_same fun row => by split <;> rfl, SpaceEvent.setsNonce]
  by_cases hk : k = nonce
  · subst hk
    obtain ⟨row, hrow, rfl⟩ := Option.map_eq_some_iff.mp hget
    obtain ⟨-, hname⟩ := h.nonceFind_iff.mp hrow
    rw [if_pos rfl, hrow, Option.map_some, if_pos hname]
    rfl
  · rw [if_neg hk, Option.getD_none, Sql.nonceGetCount]
    cases hrow : db.nonce.find? fun n => n.nonce = k with
    | none => rfl
    | some row =>
      obtain ⟨-, rfl⟩ := h.nonceFind_iff.mp hrow
      rw [Option.map_some, if_neg hk]

theorem nonceFind_filter (h : Integral db) (keep : NonceRow → Bool) (k : Bytes) :
    ((db.nonce.filter keep).find? fun n => n.nonce = k) = (db.nonce.find? fun n => n.nonce = k).filter keep :=
  h.nonceKey.find?_filter (fun _ => decide_eq_true_iff) keep

theorem space_nonceRemove (h : Integral db) (nonce : Bytes) : Space.Step (.logout nonce) db.space (Sql.nonceRemove nonce db).space := by
  refine step_of_nonce (.logout nonce) trivial (fun _ => rfl) (fun _ => rfl) (fun _ => rfl) (fun _ => rfl) fun k => ?_
  rw [nonceFind_filter h, SpaceEvent.setsNonce, Sql.nonceGetCount]
  cases hrow : db.nonce.find? fun n => n.nonce = k with
  | none => split <;> rfl
  | some row =>
    obtain ⟨-, rfl⟩ := h.nonceFind_iff.mp hrow
    by_cases hk : row.nonce = nonce
    · rw [if_pos hk, Option.filter_some_neg (by simpa using hk)]
      rfl
    · rw [if_neg hk, Option.filter_some_pos (by simpa using hk)]
      rfl

theorem nonceFind_append (h : Integral db) (keep : NonceRow → Bool) (hnew : ∀ row ∈ db.nonce.filter keep, row.nonce ≠ nonce) (row : NonceRow)
    (hrow : row.nonce = nonce) (k : Bytes) : ((db.nonce.filter keep ++ [row]).find? fun n => n.nonce = k) =
      if k = nonce then some row else (db.nonce.find? fun n => n.nonce = k).filter keep := by
  split
  next hk =>
    refine find?_append_of_true (List.find?_eq_none.mpr fun x hx => ?_) (decide_eq_true (hrow.trans hk.symm))
    rw [hk]
    simpa using hnew x hx
  next hk =>
    refine Eq.trans (find?_append_of_false ?_) (nonceFind_filter h keep k)
    exact decide_eq_false fun heq => hk (heq.symm.trans hrow)

/-- Some nonces go, and one is made. -/
theorem space_nonceInsert (h : Integral db) (keep : NonceRow → Bool)
    (hins : Sql.nonceInsert nonce { db with nonce := db.nonce.filter keep } = some db') :
    Space.Step (.challenge nonce ((db.nonce.filter fun row => !keep row).map NonceRow.nonce)) db.space db'.space := by
  have hculled : ∀ k, k ∈ (db.nonce.filter fun row => !keep row).map NonceRow.nonce ↔
      ∃ row ∈ db.nonce, keep row = false ∧ row.nonce = k := by
    intro k
    simp [and_assoc]
  unfold Sql.nonceInsert at hins
  split at hins
  next => cases hins
  next hnew =>
    cases hins
    push Not at hnew
    refine step_of_nonce _ ?_ (fun _ => rfl) (fun _ => rfl) (fun _ => rfl) (fun _ => rfl) fun k => ?_
    · by_cases hold : ∃ row ∈ db.nonce, row.nonce = nonce
      · obtain ⟨row, hrow, hname⟩ := hold
        refine Or.inr ((hculled nonce).mpr ⟨row, hrow, ?_, hname⟩)
        by_contra hkeep
        exact hnew row (List.mem_filter.mpr ⟨hrow, Bool.not_eq_false _ ▸ hkeep⟩) hname
      · push Not at hold
        refine Or.inl (Option.map_eq_none_iff.mpr (List.find?_eq_none.mpr fun row hrow => ?_))
        simpa using hold row hrow
    · refine (congrArg _ (nonceFind_append h keep hnew ⟨nonce, 0, db.nonceSeq + 1⟩ rfl k)).trans ?_
      rw [SpaceEvent.setsNonce]
      by_cases hk : k = nonce
      · rw [if_pos hk, if_pos hk]
        rfl
      · rw [if_neg hk, if_neg hk, Sql.nonceGetCount]
        cases hrow : db.nonce.find? fun n => n.nonce = k with
        | none => split <;> rfl
        | some row =>
          obtain ⟨hmem, rfl⟩ := h.nonceFind_iff.mp hrow
          cases hkeep : keep row with
          | false =>
            rw [if_pos ((hculled row.nonce).mpr ⟨row, hmem, hkeep, rfl⟩), Option.filter_some_neg (by simp [hkeep])]
            rfl
          | true =>
            have hstays : row.nonce ∉ (db.nonce.filter fun row => !keep row).map NonceRow.nonce := by
              intro hgone
              obtain ⟨row', hmem', hkeep', hsame⟩ := (hculled row.nonce).mp hgone
              obtain rfl := h.nonceKey row' hmem' row hmem hsame
              rw [hkeep] at hkeep'
              cases hkeep'
            rw [if_neg hstays, Option.filter_some_pos hkeep]
            rfl

end Nonces

end Kcaldav
