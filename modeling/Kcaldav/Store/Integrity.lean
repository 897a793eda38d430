import Kcaldav.Library.Table
import Kcaldav.Store.Nonce
import Kcaldav.Store.Principal

/-! # The constraints of the schema

Keys, identifiers and references of the tables of `kcaldav.sql`. SQLite checks them when a
statement is run; here it is shown that every statement keeps them, those that are checked
for nothing as well: what goes takes with it what refers to it, and no identifier is given
out twice.
-/
namespace Kcaldav
open CString

/-- The database is as its schema says. -/
structure Integral (db : Db) : Prop where
  prncplId : Serial PrncplRow.id db.principal db.principalSeq
  prncplName : Key PrncplRow.name db.principal
  prncplEmail : Key PrncplRow.email db.principal
  colId : Serial ColRow.id db.collection db.collectionSeq
  colAddress : Key (fun c : ColRow => (c.principal, c.url)) db.collection
  colOwner : Refers ColRow.principal db.collection PrncplRow.id db.principal
  resId : Serial ResRow.id db.resource db.resourceSeq
  resAddress : Key (fun r : ResRow => (r.collection, r.url)) db.resource
  resOwner : Refers ResRow.collection db.resource ColRow.id db.collection
  proxyId : Serial ProxyRow.id db.proxy db.proxySeq
  proxyPair : Key (fun x : ProxyRow => (x.principal, x.proxy)) db.proxy
  proxyOwner : Refers ProxyRow.principal db.proxy PrncplRow.id db.principal
  proxyUser : Refers ProxyRow.proxy db.proxy PrncplRow.id db.principal
  nonceId : Serial NonceRow.id db.nonce db.nonceSeq
  nonceKey : Key NonceRow.nonce db.nonce

theorem integral_empty : Integral .empty where
  prncplId := .nil
  prncplName := .nil
  prncplEmail := .nil
  colId := .nil
  colAddress := .nil
  colOwner := .nil
  resId := .nil
  resAddress := .nil
  resOwner := .nil
  proxyId := .nil
  proxyPair := .nil
  proxyOwner := .nil
  proxyUser := .nil
  nonceId := .nil
  nonceKey := .nil

namespace Integral
variable {db db' : Db} (h : Integral db)
include h

/-! ## Principals -/

theorem prncplInsert {name hash email : Bytes} (hins : Sql.prncplInsert name hash email db = some db') : Integral db' := by
  unfold Sql.prncplInsert at hins
  split at hins
  next => cases hins
  next hfree =>
    cases hins
    push Not at hfree
    have hold : ∀ p ∈ db.principal, ∃ p' ∈ db.principal ++ [⟨name, hash, email, db.principalSeq + 1⟩], p'.id = p.id :=
      fun p hp => ⟨p, List.mem_append_left _ hp, rfl⟩
    exact { h with
      prncplId := h.prncplId.append rfl
      prncplName := h.prncplName.append fun p hp => (hfree p hp).1
      prncplEmail := h.prncplEmail.append fun p hp => (hfree p hp).2
      colOwner := h.colOwner.retarget hold
      proxyOwner := h.proxyOwner.retarget hold
      proxyUser := h.proxyUser.retarget hold }

theorem prncplUpdate {hash email : Bytes} {id : Int} (hupd : Sql.prncplUpdate hash email id db = some db') :
    Integral db' := by
  unfold Sql.prncplUpdate at hupd
  split at hupd
  next => cases hupd
  next hfree =>
    cases hupd
    let g : PrncplRow → PrncplRow := fun p => if p.id = id then { p with hash := hash, email := email } else p
    have hid (p : PrncplRow) : (g p).id = p.id := by unfold g; split <;> rfl
    have hname (p : PrncplRow) : (g p).name = p.name := by unfold g; split <;> rfl
    have hold : ∀ p ∈ db.principal, ∃ p' ∈ db.principal.map g, p'.id = p.id :=
      fun p hp => ⟨g p, List.mem_map_of_mem hp, hid p⟩
    -- two rows of one address: both are the row that is updated, or neither is
    have hemail : Key PrncplRow.email (db.principal.map g) := by
      intro x hx y hy hxy
      obtain ⟨p, hp, rfl⟩ := List.mem_map.mp hx
      obtain ⟨q, hq, rfl⟩ := List.mem_map.mp hy
      unfold g at hxy ⊢
      by_cases hpid : p.id = id <;> by_cases hqid : q.id = id
      · rw [h.prncplId.key p hp q hq (hpid.trans hqid.symm)]
      · simp only [hpid, hqid, if_true, if_false] at hxy
        exact absurd ⟨⟨p, hp, hpid⟩, q, hq, hqid, hxy.symm⟩ hfree
      · simp only [hpid, hqid, if_true, if_false] at hxy
        exact absurd ⟨⟨q, hq, hqid⟩, p, hp, hpid, hxy⟩ hfree
      · simp only [hpid, hqid, if_false] at hxy ⊢
        exact h.prncplEmail p hp q hq hxy
    exact { h with
      prncplId := h.prncplId.map hid
      prncplName := h.prncplName.map hname
      prncplEmail := hemail
      colOwner := h.colOwner.retarget hold
      proxyOwner := h.proxyOwner.retarget hold
      proxyUser := h.proxyUser.retarget hold }

/-! ## Proxies -/

theorem proxyInsert {p id bits : Int} (hins : Sql.proxyInsert p id bits db = some db') : Integral db' := by
  unfold Sql.proxyInsert at hins
  split at hins
  next => cases hins
  next hfree =>
    cases hins
    push Not at hfree
    obtain ⟨hnone, howner, huser⟩ := hfree
    exact { h with
      proxyId := h.proxyId.append rfl
      proxyPair := h.proxyPair.append fun x hx heq => hnone x hx (congrArg Prod.fst heq) (congrArg Prod.snd heq)
      proxyOwner := h.proxyOwner.append howner
      proxyUser := h.proxyUser.append huser }

theorem proxyUpdate (bits p id : Int) : Integral (Sql.proxyUpdate bits p id db) := by
  let g : ProxyRow → ProxyRow := fun x => if x.principal = p ∧ x.proxy = id then { x with bits := bits } else x
  have hid (x : ProxyRow) : (g x).id = x.id := by unfold g; split <;> rfl
  have hprincipal (x : ProxyRow) : (g x).principal = x.principal := by unfold g; split <;> rfl
  have hproxy (x : ProxyRow) : (g x).proxy = x.proxy := by unfold g; split <;> rfl
  exact { h with
    proxyId := h.proxyId.map hid
    proxyPair := h.proxyPair.map fun x => Prod.ext (hprincipal x) (hproxy x)
    proxyOwner := h.proxyOwner.map hprincipal
    proxyUser := h.proxyUser.map hproxy }

theorem proxyRemove (p id : Int) : Integral (Sql.proxyRemove p id db) := by
  have hfew : ∀ x ∈ (Sql.proxyRemove p id db).proxy, x ∈ db.proxy := fun x hx => List.mem_of_mem_filter hx
  exact { h with
    proxyId := h.proxyId.fewer hfew
    proxyPair := h.proxyPair.fewer hfew
    proxyOwner := h.proxyOwner.fewer hfew
    proxyUser := h.proxyUser.fewer hfew }

/-! ## Collections -/

theorem colInsert {p : Int} {url : Bytes} (hins : Sql.colInsert p url db = some db') : Integral db' := by
  unfold Sql.colInsert at hins
  split at hins
  next => cases hins
  next hfree =>
    cases hins
    push Not at hfree
    obtain ⟨hnone, owner⟩ := hfree
    have hold : ∀ c ∈ db.collection, ∃ c' ∈ db.collection ++ [Sql.newCol p url (db.collectionSeq + 1)], c'.id = c.id :=
      fun c hc => ⟨c, List.mem_append_left _ hc, rfl⟩
    have hfresh : ∀ c ∈ db.collection, (c.principal, c.url) ≠ (p, url) := by
      intro c hc heq
      have hno := List.find?_eq_none.mp (Option.not_isSome_iff_eq_none.mp hnone) c hc
      exact hno (decide_eq_true ⟨congrArg Prod.fst heq, congrArg Prod.snd heq⟩)
    exact { h with
      colId := h.colId.append rfl
      colAddress := h.colAddress.append hfresh
      colOwner := h.colOwner.append owner
      resOwner := h.resOwner.retarget hold }

/-- A change of rows that keeps what other tables and the keys go by. -/
theorem colMap {g : ColRow → ColRow} (hid : ∀ c, (g c).id = c.id) (hprincipal : ∀ c, (g c).principal = c.principal)
    (hurl : ∀ c, (g c).url = c.url) : Integral { db with collection := db.collection.map g } :=
  { h with
    colId := h.colId.map hid
    colAddress := h.colAddress.map fun c => Prod.ext (hprincipal c) (hurl c)
    colOwner := h.colOwner.map hprincipal
    resOwner := h.resOwner.retarget fun c hc => ⟨g c, List.mem_map_of_mem hc, hid c⟩ }

theorem colUpdateCtag (id : Int) : Integral (Sql.colUpdateCtag id db) := by
  apply h.colMap
  all_goals
    intro c
    split <;> rfl

theorem colUpdate {displayname colour description : Option Bytes} {id : Int}
    (hupd : Sql.colUpdate displayname colour description id db = some db') : Integral db' := by
  unfold Sql.colUpdate at hupd
  split at hupd
  · cases hupd
    apply h.colMap
    all_goals
      intro c
      split <;> rfl
  · split at hupd
    · cases hupd
    · cases hupd
      exact h

/-- The resources of the collection go with it. -/
theorem colRemove (id : Int) : Integral (Sql.colRemove id db) := by
  have hfew : ∀ c ∈ (Sql.colRemove id db).collection, c ∈ db.collection := fun c hc => List.mem_of_mem_filter hc
  have hfewRes : ∀ r ∈ (Sql.colRemove id db).resource, r ∈ db.resource := fun r hr => List.mem_of_mem_filter hr
  have howner : Refers ResRow.collection (Sql.colRemove id db).resource ColRow.id (Sql.colRemove id db).collection := by
    intro r hr
    obtain ⟨hmem, hne⟩ := List.mem_filter.mp hr
    obtain ⟨c, hc, hid⟩ := h.resOwner r hmem
    exact ⟨c, List.mem_filter.mpr ⟨hc, by simpa [hid] using hne⟩, hid⟩
  exact { h with
    colId := h.colId.fewer hfew
    colAddress := h.colAddress.fewer hfew
    colOwner := h.colOwner.fewer hfew
    resId := h.resId.fewer hfewRes
    resAddress := h.resAddress.fewer hfewRes
    resOwner := howner }

/-! ## Resources -/

theorem resInsert {data url etag : Bytes} {colid : Int} (hins : Sql.resInsert data url colid etag db = some db') :
    Integral db' := by
  unfold Sql.resInsert at hins
  split at hins
  next => cases hins
  next hfree =>
    cases hins
    push Not at hfree
    obtain ⟨hnone, hcol⟩ := hfree
    have hfresh : ∀ r ∈ db.resource, (r.collection, r.url) ≠ (colid, url) := by
      intro r hr heq
      have hno := List.find?_eq_none.mp (Option.not_isSome_iff_eq_none.mp hnone) r hr
      exact hno (decide_eq_true ⟨congrArg Prod.fst heq, congrArg Prod.snd heq⟩)
    exact { h with
      resId := h.resId.append rfl
      resAddress := h.resAddress.append hfresh
      resOwner := h.resOwner.append hcol }

theorem resFilter (keep : ResRow → Bool) : Integral { db with resource := db.resource.filter keep } :=
  { h with
    resId := h.resId.fewer fun _ hr => List.mem_of_mem_filter hr
    resAddress := h.resAddress.fewer fun _ hr => List.mem_of_mem_filter hr
    resOwner := h.resOwner.fewer fun _ hr => List.mem_of_mem_filter hr }

theorem resUpdate (data etag : Bytes) (id : Int) : Integral (Sql.resUpdate data etag id db) := by
  let g : ResRow → ResRow := fun r => if r.id = id then { r with data := data, etag := etag } else r
  have hid (r : ResRow) : (g r).id = r.id := by unfold g; split <;> rfl
  have hcol (r : ResRow) : (g r).collection = r.collection := by unfold g; split <;> rfl
  have hurl (r : ResRow) : (g r).url = r.url := by unfold g; split <;> rfl
  exact { h with
    resId := h.resId.map hid
    resAddress := h.resAddress.map fun r => Prod.ext (hcol r) (hurl r)
    resOwner := h.resOwner.map hcol }

/-! ## Nonces -/

theorem nonceFilter (keep : NonceRow → Bool) : Integral { db with nonce := db.nonce.filter keep } :=
  { h with
    nonceId := h.nonceId.fewer fun _ hn => List.mem_of_mem_filter hn
    nonceKey := h.nonceKey.fewer fun _ hn => List.mem_of_mem_filter hn }

theorem nonceInsert {nonce : Bytes} (hins : Sql.nonceInsert nonce db = some db') : Integral db' := by
  unfold Sql.nonceInsert at hins
  split at hins
  next => cases hins
  next hfree =>
    cases hins
    push Not at hfree
    exact { h with
      nonceId := h.nonceId.append rfl
      nonceKey := h.nonceKey.append hfree }

theorem nonceUpdate (count : Int) (nonce : Bytes) : Integral (Sql.nonceUpdate count nonce db) := by
  let g : NonceRow → NonceRow := fun n => if n.nonce = nonce then { n with count := count } else n
  have hid (n : NonceRow) : (g n).id = n.id := by unfold g; split <;> rfl
  have hnonce (n : NonceRow) : (g n).nonce = n.nonce := by unfold g; split <;> rfl
  exact { h with
    nonceId := h.nonceId.map hid
    nonceKey := h.nonceKey.map hnonce }

end Integral

end Kcaldav
