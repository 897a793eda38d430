import Kcaldav.Server.Confinement
import Kcaldav.Server.Multistatus

/-! # Views of the proxy table

Who may act for whom is shown from both sides: a principal is shown those that it acts
for, and the groups by which it does, and a proxy collection shows its members. The
groups and the members are those of the table. The two lists of principals acted for
are written for each other's permission.
-/
namespace Kcaldav
open CString Markup

/-- The addresses in what is written for a property. -/
def hrefsIn (f : Frag) : List Bytes := (f.children.filter fun e => e.1.elem = .davHref).map fun e => e.2.chars

/-- The addresses that are answered for the properties found. -/
def Response.hrefs (resp : Response) : List Bytes := (shownWith 200 resp.propstats).flatMap fun s => hrefsIn s.value

/-- A request for a property, by any name. -/
def askFor (key : CalPropType) (name xmlns : Bytes) : CalProp := ⟨key, name, xmlns, none, 0⟩

/-- Principals differ in name and identifier, and there is one permission of a principal for another. -/
structure ProxyKeyed (db : Db) : Prop where
  name : ∀ p ∈ db.principal, ∀ p' ∈ db.principal, p.name = p'.name → p = p'
  id : ∀ p ∈ db.principal, ∀ p' ∈ db.principal, p.id = p'.id → p = p'
  pair : ∀ x ∈ db.proxy, ∀ x' ∈ db.proxy, x.principal = x'.principal → x.proxy = x'.proxy → x = x'

/-- The table has the permission of `p` to act for `q`. -/
def Delegates (db : Db) (q p bits : Int) : Prop := ∃ x ∈ db.proxy, x.principal = q ∧ x.proxy = p ∧ x.bits = bits

section Hrefs
variable {α : Type}

@[simp] theorem hrefsIn_href (b : Bytes) (rest : Frag) : hrefsIn (kxmlHref b rest) = b :: hrefsIn rest := by
  simp [hrefsIn, kxmlHref, kxmlPuts, Content.children, Content.chars]

/-- A loop that writes an address for some members of a list. -/
theorem hrefsIn_foldr {f : α → Frag → Frag} {g : α → Option Bytes} (h : ∀ x rest, hrefsIn (f x rest) = (g x).toList ++ hrefsIn rest)
    (l : List α) : hrefsIn (l.foldr f .nil) = l.filterMap g := by
  induction l with
  | nil => rfl
  | cons x l ih =>
    rw [List.foldr_cons, h, ih, List.filterMap_cons]
    cases g x <;> rfl

end Hrefs

variable {q : Quota} {r : Kreq} {st : State} {db : Db}

theorem prncplHref_inj {a b : Bytes} : prncplHref r a = prncplHref r b ↔ a = b := by
  simp [prncplHref]

theorem hrefsIn_proxyReadFor : hrefsIn (principalCalendarProxyReadFor r st) =
    st.rprncpl.rproxies.filterMap fun x => if x.bits ≠ PROXY_WRITE then none else some (prncplHref r x.name) := by
  refine hrefsIn_foldr (fun x rest => ?_) _
  split <;> simp

theorem hrefsIn_proxyWriteFor : hrefsIn (principalCalendarProxyWriteFor r st) =
    st.rprncpl.rproxies.filterMap fun x => if x.bits ≠ PROXY_READ then none else some (prncplHref r x.name) := by
  refine hrefsIn_foldr (fun x rest => ?_) _
  split <;> simp

theorem hrefsIn_groupMembership : hrefsIn (principalGroupMembership r st) =
    st.rprncpl.rproxies.filterMap fun x =>
      if x.bits = PROXY_READ then some (prncplHref r x.name ++ ascii "calendar-proxy-read/")
      else if x.bits = PROXY_WRITE then some (prncplHref r x.name ++ ascii "calendar-proxy-write/")
      else none := by
  refine hrefsIn_foldr (fun x rest => ?_) _
  split
  · simp
  · split <;> simp

theorem hrefsIn_proxyMembers (bits : Int) : hrefsIn (proxyMembers r st bits) =
    st.rprncpl.proxies.filterMap fun x => if bits ≠ x.bits then none else some (prncplHref r x.name) := by
  refine hrefsIn_foldr (fun x rest => ?_) _
  split <;> simp

/-! ## Entries that are loaded -/

theorem find_prncpl (h : ProxyKeyed db) {p : PrncplRow} (hp : p ∈ db.principal) {id : Int} :
    db.principal.find? (fun p => p.id = id) = some p ↔ p.id = id := by
  constructor
  · intro hfind
    have hfound := List.find?_some hfind
    exact of_decide_eq_true hfound
  · intro hid
    cases hfind : db.principal.find? fun p => p.id = id with
    | none =>
      have hno := List.find?_eq_none.mp hfind p hp
      exact absurd (decide_eq_true hid) hno
    | some p' =>
      have hfound := List.find?_some hfind
      have hid' : p'.id = id := of_decide_eq_true hfound
      rw [h.id p' (List.mem_of_find?_eq_some hfind) p hp (hid'.trans hid.symm)]

/-- Who lets the principal act for them, by name. -/
theorem exists_rproxies (h : ProxyKeyed db) {p q : PrncplRow} (hq : q ∈ db.principal) (bits : Int) :
    (∃ x ∈ (loadedPrncpl p.name p db).rproxies, x.name = q.name ∧ x.bits = bits) ↔ Delegates db q.id (int32 p.id) bits := by
  unfold loadedPrncpl Sql.proxyIter
  constructor
  · rintro ⟨x, hx, hname, hbits⟩
    obtain ⟨⟨prow, xrow⟩, hpair, rfl⟩ := List.mem_map.mp hx
    obtain ⟨xrow', hxrow, heq⟩ := List.mem_filterMap.mp hpair
    obtain ⟨hmem, hproxy⟩ := List.mem_filter.mp hxrow
    obtain ⟨prow', hfind, heq⟩ := Option.map_eq_some_iff.mp heq
    cases heq
    have hprow := List.mem_of_find?_eq_some hfind
    obtain rfl := h.name prow hprow q hq hname
    exact ⟨xrow, hmem, ((find_prncpl h hprow).mp hfind).symm, of_decide_eq_true hproxy, hbits⟩
  · rintro ⟨xrow, hmem, hprincipal, hproxy, hbits⟩
    refine ⟨reverseEntry (q, xrow), List.mem_map_of_mem (List.mem_filterMap.mpr ⟨xrow, ?_, ?_⟩), rfl, hbits⟩
    · exact List.mem_filter.mpr ⟨hmem, decide_eq_true hproxy⟩
    · rw [(find_prncpl h hq).mpr hprincipal.symm]
      rfl

/-- Who may act for the principal, by name. -/
theorem exists_proxies (h : ProxyKeyed db) {p q : PrncplRow} (hp : p ∈ db.principal) (bits : Int) :
    (∃ x ∈ (loadedPrncpl q.name q db).proxies, x.name = p.name ∧ x.bits = bits) ↔ Delegates db (int32 q.id) p.id bits := by
  unfold loadedPrncpl Sql.proxyIterPrncpl
  constructor
  · rintro ⟨x, hx, hname, hbits⟩
    obtain ⟨⟨prow, xrow⟩, hpair, rfl⟩ := List.mem_map.mp hx
    obtain ⟨xrow', hxrow, heq⟩ := List.mem_filterMap.mp hpair
    obtain ⟨hmem, hprincipal⟩ := List.mem_filter.mp hxrow
    obtain ⟨prow', hfind, heq⟩ := Option.map_eq_some_iff.mp heq
    cases heq
    have hprow := List.mem_of_find?_eq_some hfind
    obtain rfl := h.name prow hprow p hp hname
    exact ⟨xrow, hmem, of_decide_eq_true hprincipal, ((find_prncpl h hprow).mp hfind).symm, hbits⟩
  · rintro ⟨xrow, hmem, hprincipal, hproxy, hbits⟩
    refine ⟨forwardEntry (p, xrow), List.mem_map_of_mem (List.mem_filterMap.mpr ⟨xrow, ?_, ?_⟩), rfl, hbits⟩
    · exact List.mem_filter.mpr ⟨hmem, decide_eq_true hprincipal⟩
    · rw [(find_prncpl h hp).mpr hproxy.symm]
      rfl

/-! ## The views -/

section Views
variable {name xmlns : Bytes}

theorem hrefs_prncpl {key : CalPropType} (hkey : key ≠ .max) {f : Frag} (hf : (properties q r st key).pgetfp = some f) :
    (propfindPrncpl q r st [askFor key name xmlns]).hrefs = hrefsIn f := by
  simp [Response.hrefs, propfindPrncpl, shownWith_found, askFor, hkey, hf]

theorem hrefs_proxy {proxy : Bytes} :
    (propfindProxy r st [askFor .groupMemberSet name xmlns] proxy).hrefs =
      hrefsIn (proxyMembers r st (if proxy = proxyWrite then PROXY_WRITE else PROXY_READ)) := by
  simp [Response.hrefs, propfindProxy, shownWith, askFor]

/-- The principals that are listed as those whom the principal may read, or write, for. -/
def ListsFor (q : Quota) (r : Kreq) (st : State) (key : CalPropType) (name xmlns who : Bytes) : Prop :=
  prncplHref r who ∈ (propfindPrncpl q r st [askFor key name xmlns]).hrefs

/-- The group of `who` is listed among those that the principal is in. -/
def ListsGroup (q : Quota) (r : Kreq) (st : State) (name xmlns who proxy : Bytes) : Prop :=
  prncplHref r who ++ proxy ++ [SLASH] ∈ (propfindPrncpl q r st [askFor .groupMembership name xmlns]).hrefs

/-- A principal is listed as a member of the proxy collection. -/
def ListsMember (r : Kreq) (st : State) (name xmlns who proxy : Bytes) : Prop :=
  prncplHref r who ∈ (propfindProxy r st [askFor .groupMemberSet name xmlns] proxy).hrefs

/-- The views of both sides and the table agree on whether `p` may act for `q`. -/
structure ViewsAgree (Q : Quota) (r : Kreq) (db : Db) (st st' : State) (name xmlns : Bytes) (p q : PrncplRow) : Prop where
  writeFor : ListsFor Q r st .calendarProxyWriteFor name xmlns q.name ↔ Delegates db q.id p.id PROXY_WRITE
  readFor : ListsFor Q r st .calendarProxyReadFor name xmlns q.name ↔ Delegates db q.id p.id PROXY_READ
  groupWrite : ListsGroup Q r st name xmlns q.name proxyWrite ↔ Delegates db q.id p.id PROXY_WRITE
  groupRead : ListsGroup Q r st name xmlns q.name proxyRead ↔ Delegates db q.id p.id PROXY_READ
  memberWrite : ListsMember r st' name xmlns p.name proxyWrite ↔ Delegates db q.id p.id PROXY_WRITE
  memberRead : ListsMember r st' name xmlns p.name proxyRead ↔ Delegates db q.id p.id PROXY_READ

variable {p who : PrncplRow} (h : ProxyKeyed db)
include h

theorem listsFor_write (hwho : who ∈ db.principal) (hst : st.rprncpl = loadedPrncpl p.name p db) :
    ListsFor q r st .calendarProxyWriteFor name xmlns who.name ↔ Delegates db who.id (int32 p.id) PROXY_READ := by
  rw [ListsFor, hrefs_prncpl (by simp) rfl, hrefsIn_proxyWriteFor, hst, ← exists_rproxies h hwho, List.mem_filterMap]
  refine exists_congr fun x => and_congr_right fun _ => ?_
  by_cases hb : x.bits = PROXY_READ <;> simp [hb, prncplHref_inj]

theorem listsFor_read (hwho : who ∈ db.principal) (hst : st.rprncpl = loadedPrncpl p.name p db) :
    ListsFor q r st .calendarProxyReadFor name xmlns who.name ↔ Delegates db who.id (int32 p.id) PROXY_WRITE := by
  rw [ListsFor, hrefs_prncpl (by simp) rfl, hrefsIn_proxyReadFor, hst, ← exists_rproxies h hwho, List.mem_filterMap]
  refine exists_congr fun x => and_congr_right fun _ => ?_
  by_cases hb : x.bits = PROXY_WRITE <;> simp [hb, prncplHref_inj]

omit h in
/-- The addresses of the two groups of two principals are never the same. -/
theorem group_ne (a b : Bytes) : prncplHref r a ++ ascii "calendar-proxy-read/" ≠ prncplHref r b ++ ascii "calendar-proxy-write/" := by
  intro heq
  have hlast (l s : Bytes) (hs : 4 ≤ s.reverse.length) : (l ++ s).reverse.take 4 = s.reverse.take 4 := by
    rw [List.reverse_append, List.take_append_of_le_length hs]
  have htake := congrArg (fun l : Bytes => l.reverse.take 4) heq
  rw [hlast _ _ (by decide +kernel), hlast _ _ (by decide +kernel)] at htake
  exact absurd htake (by decide +kernel)

omit h in
theorem mem_groupMembership {t : Bytes} : t ∈ hrefsIn (principalGroupMembership r st) ↔
    ∃ x ∈ st.rprncpl.rproxies, x.bits = PROXY_READ ∧ prncplHref r x.name ++ ascii "calendar-proxy-read/" = t ∨
      x.bits = PROXY_WRITE ∧ prncplHref r x.name ++ ascii "calendar-proxy-write/" = t := by
  rw [hrefsIn_groupMembership, List.mem_filterMap]
  refine exists_congr fun x => and_congr_right fun _ => ?_
  by_cases hr : x.bits = PROXY_READ
  · rw [if_pos hr, Option.some.injEq]
    simp [hr, show PROXY_READ ≠ PROXY_WRITE by decide]
  · by_cases hw : x.bits = PROXY_WRITE
    · simp [hw, show PROXY_WRITE ≠ PROXY_READ by decide]
    · simp [hr, hw]

theorem listsGroup_write (hwho : who ∈ db.principal) (hst : st.rprncpl = loadedPrncpl p.name p db) :
    ListsGroup q r st name xmlns who.name proxyWrite ↔ Delegates db who.id (int32 p.id) PROXY_WRITE := by
  have htext : prncplHref r who.name ++ proxyWrite ++ [SLASH] = prncplHref r who.name ++ ascii "calendar-proxy-write/" := by
    rw [List.append_assoc]
    exact congrArg _ (by decide +kernel)
  rw [ListsGroup, htext, hrefs_prncpl (by simp) rfl, mem_groupMembership, hst, ← exists_rproxies h hwho]
  refine exists_congr fun x => and_congr_right fun _ => ?_
  rw [List.append_left_inj, prncplHref_inj, and_comm (a := x.bits = PROXY_WRITE)]
  exact or_iff_right fun hread => group_ne x.name who.name hread.2

theorem listsGroup_read (hwho : who ∈ db.principal) (hst : st.rprncpl = loadedPrncpl p.name p db) :
    ListsGroup q r st name xmlns who.name proxyRead ↔ Delegates db who.id (int32 p.id) PROXY_READ := by
  have htext : prncplHref r who.name ++ proxyRead ++ [SLASH] = prncplHref r who.name ++ ascii "calendar-proxy-read/" := by
    rw [List.append_assoc]
    exact congrArg _ (by decide +kernel)
  rw [ListsGroup, htext, hrefs_prncpl (by simp) rfl, mem_groupMembership, hst, ← exists_rproxies h hwho]
  refine exists_congr fun x => and_congr_right fun _ => ?_
  rw [List.append_left_inj, prncplHref_inj, and_comm (a := x.bits = PROXY_READ)]
  exact or_iff_left fun hwrite => group_ne who.name x.name hwrite.2.symm

theorem listsMember_iff (hp : p ∈ db.principal) (hst : st.rprncpl = loadedPrncpl who.name who db) (proxy : Bytes) :
    ListsMember r st name xmlns p.name proxy ↔
      Delegates db (int32 who.id) p.id (if proxy = proxyWrite then PROXY_WRITE else PROXY_READ) := by
  rw [ListsMember, hrefs_proxy, hrefsIn_proxyMembers, hst, ← exists_proxies h hp, List.mem_filterMap]
  refine exists_congr fun x => and_congr_right fun _ => ?_
  generalize (if proxy = proxyWrite then PROXY_WRITE else PROXY_READ) = bits
  by_cases hb : bits = x.bits
  · simp [hb, prncplHref_inj]
  · simp [hb, Ne.symm hb]

end Views

/-- The views of two principals agree with each other and the table exactly where the one has given the
other neither permission, nor as the identifiers of the two are loaded. -/
theorem views_agree_iff (Q : Quota) (r : Kreq) (name xmlns : Bytes) {st st' : State} {p who : PrncplRow} (h : ProxyKeyed db)
    (hp : p ∈ db.principal) (hwho : who ∈ db.principal) (hst : st.rprncpl = loadedPrncpl p.name p db)
    (hst' : st'.rprncpl = loadedPrncpl who.name who db) :
    ViewsAgree Q r db st st' name xmlns p who ↔ ∀ bits, bits = PROXY_READ ∨ bits = PROXY_WRITE →
      ¬ Delegates db who.id p.id bits ∧ ¬ Delegates db who.id (int32 p.id) bits ∧ ¬ Delegates db (int32 who.id) p.id bits := by
  have hone {a b : Int} (hr : Delegates db a b PROXY_READ) (hw : Delegates db a b PROXY_WRITE) : False := by
    obtain ⟨x, hx, hxa, hxb, hxr⟩ := hr
    obtain ⟨x', hx', hxa', hxb', hxw⟩ := hw
    rw [h.pair x hx x' hx' (hxa.trans hxa'.symm) (hxb.trans hxb'.symm), hxw] at hxr
    exact absurd hxr (by decide)
  have hwriteMember : ListsMember r st' name xmlns p.name proxyWrite ↔ _ := listsMember_iff h hp hst' proxyWrite
  have hreadMember : ListsMember r st' name xmlns p.name proxyRead ↔ _ := listsMember_iff h hp hst' proxyRead
  rw [if_pos rfl] at hwriteMember
  rw [if_neg (by decide +kernel)] at hreadMember
  constructor
  · intro hviews
    have hwriteFor := (listsFor_write h hwho hst).symm.trans hviews.writeFor
    have hreadFor := (listsFor_read h hwho hst).symm.trans hviews.readFor
    have hgroupWrite := (listsGroup_write h hwho hst).symm.trans hviews.groupWrite
    have hgroupRead := (listsGroup_read h hwho hst).symm.trans hviews.groupRead
    have hmemberWrite := hwriteMember.symm.trans hviews.memberWrite
    have hmemberRead := hreadMember.symm.trans hviews.memberRead
    -- The group is of the permission and the list is of the other, and there is one permission.
    have hread : ¬ Delegates db who.id p.id PROXY_READ := fun hd => hone hd (hwriteFor.mp (hgroupRead.mpr hd))
    have hwrite : ¬ Delegates db who.id p.id PROXY_WRITE := fun hd => hone (hreadFor.mp (hgroupWrite.mpr hd)) hd
    rintro bits (rfl | rfl)
    · exact ⟨hread, mt hgroupRead.mp hread, mt hmemberRead.mp hread⟩
    · exact ⟨hwrite, mt hgroupWrite.mp hwrite, mt hmemberWrite.mp hwrite⟩
  · intro hnone
    obtain ⟨hread, hreadRow, hreadMem⟩ := hnone PROXY_READ (.inl rfl)
    obtain ⟨hwrite, hwriteRow, hwriteMem⟩ := hnone PROXY_WRITE (.inr rfl)
    constructor
    · exact iff_of_false (mt (listsFor_write h hwho hst).mp hreadRow) hwrite
    · exact iff_of_false (mt (listsFor_read h hwho hst).mp hwriteRow) hread
    · exact iff_of_false (mt (listsGroup_write h hwho hst).mp hwriteRow) hwrite
    · exact iff_of_false (mt (listsGroup_read h hwho hst).mp hreadRow) hread
    · exact iff_of_false (mt hwriteMember.mp hwriteMem) hwrite
    · exact iff_of_false (mt hreadMember.mp hreadMem) hread

/-- `joe` lets `eve` write. -/
def Db.delegated : Db :=
  { Db.twoPrincipals 2 with
    proxy := [⟨1, 2, PROXY_WRITE, 1⟩]
    proxySeq := 1 }

/-- The state of a request on a principal. -/
def State.onPrncpl (p : PrncplRow) (db : Db) : State := { State.atEvent with rprncpl := loadedPrncpl p.name p db }

/-- The row of a principal. -/
def Db.prncplRow (db : Db) (id : Int) : PrncplRow := (db.principal.find? fun p => p.id = id).getD ⟨[], [], [], id⟩

theorem delegated_keyed : ProxyKeyed .delegated where
  name := by decide +kernel
  id := by decide +kernel
  pair := by decide +kernel

/-- `eve` gave nothing, and all views of `joe` acting for `eve` say so. -/
theorem views_agree_iff_none :
    ViewsAgree ⟨0, 0⟩ (.bare .propfind []) .delegated (.onPrncpl (Db.delegated.prncplRow 1) .delegated)
      (.onPrncpl (Db.delegated.prncplRow 2) .delegated) [] [] (Db.delegated.prncplRow 1) (Db.delegated.prncplRow 2) := by
  refine (views_agree_iff _ _ _ _ delegated_keyed (by decide +kernel) (by decide +kernel) rfl rfl).mpr fun bits _ => ?_
  have hgiver : ∀ x ∈ Db.delegated.proxy, x.principal ≠ (Db.delegated.prncplRow 2).id ∧
      x.principal ≠ int32 (Db.delegated.prncplRow 2).id := by decide +kernel
  exact ⟨fun ⟨x, hx, hwho, _⟩ => (hgiver x hx).1 hwho, fun ⟨x, hx, hwho, _⟩ => (hgiver x hx).1 hwho,
    fun ⟨x, hx, hwho, _⟩ => (hgiver x hx).2 hwho⟩

/-- What `joe` lets `eve` do is shown to `eve` as a permission to read. -/
theorem views_disagree :
    ListsFor ⟨0, 0⟩ (.bare .propfind []) (.onPrncpl (Db.delegated.prncplRow 2) .delegated) .calendarProxyReadFor [] [] (ascii "joe") ∧
      ¬ ListsFor ⟨0, 0⟩ (.bare .propfind []) (.onPrncpl (Db.delegated.prncplRow 2) .delegated) .calendarProxyWriteFor [] [] (ascii "joe") ∧
      Delegates .delegated 1 2 PROXY_WRITE ∧ ¬ Delegates .delegated 1 2 PROXY_READ ∧
      ¬ ViewsAgree ⟨0, 0⟩ (.bare .propfind []) .delegated (.onPrncpl (Db.delegated.prncplRow 2) .delegated)
        (.onPrncpl (Db.delegated.prncplRow 1) .delegated) [] [] (Db.delegated.prncplRow 2) (Db.delegated.prncplRow 1) := by
  have hread : ListsFor ⟨0, 0⟩ (.bare .propfind []) (.onPrncpl (Db.delegated.prncplRow 2) .delegated)
      .calendarProxyReadFor [] [] (ascii "joe") := by
    unfold ListsFor
    decide +kernel
  have hwrite : ¬ ListsFor ⟨0, 0⟩ (.bare .propfind []) (.onPrncpl (Db.delegated.prncplRow 2) .delegated)
      .calendarProxyWriteFor [] [] (ascii "joe") := by
    unfold ListsFor
    decide +kernel
  have hgiven : Delegates .delegated 1 2 PROXY_WRITE := ⟨⟨1, 2, PROXY_WRITE, 1⟩, by decide, rfl, rfl, rfl⟩
  refine ⟨hread, hwrite, hgiven, ?_, fun hviews => hwrite (hviews.writeFor.mpr hgiven)⟩
  unfold Delegates
  decide

end Kcaldav
