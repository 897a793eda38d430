import Kcaldav.Server.Href
import Kcaldav.Server.Property

/-! # Answers to a query

The elements of a multi-status that `propfind.c` writes. Three loops of one form go
over the requested properties twice: for those that are found, and for those that are
not, if a property is unknown. A property that is known but is none of the thing that
was asked about is passed over both times.
-/
namespace Kcaldav
open CString Markup

/-- What is written for a property, or in the place of one. -/
structure Shown where
  prop : Option CalProp
  value : Frag
  deriving DecidableEq, Repr

structure Propstat where
  status : Nat
  shown : List Shown
  deriving DecidableEq, Repr

structure Response where
  href : Bytes
  propstats : List Propstat
  deriving DecidableEq, Repr

/-- The two loops over the properties, with what each is answered with if there is anything. -/
def propstats (value : CalPropType → Option Frag) (props : List CalProp) : List Propstat :=
  let found := props.filterMap fun p => if p.key = .max then none else (value p.key).map fun v => ⟨some p, v⟩
  let nf := props.any fun p => p.key = .max
  ⟨200, found⟩ ::
    if nf then [⟨404, (props.filter fun p => p.key = .max).map fun p => ⟨some p, .nil⟩⟩] else []

variable (q : Quota) (r : Kreq) (st : State) (props : List CalProp)

def propfindColn (c : Coln) : Response where
  href := prncplHref r st.rprncpl.name ++ c.url ++ if c.url ≠ [] then [SLASH] else []
  propstats := propstats (fun key => (properties q r st key).cgetfp.map (· c)) props

def propfindResource (c : Coln) (p : Res) : Response where
  href := resourceHref r st c p.url
  propstats := propstats (fun key => (properties q r st key).rgetfp.map fun f => f c p) props

def propfindPrncpl : Response where
  href := prncplHref r st.rprncpl.name
  propstats := propstats (fun key => (properties q r st key).pgetfp) props

/-- The members of a proxy collection of the requested principal. -/
def proxyMembers (bits : Int) : Frag :=
  st.rprncpl.proxies.foldr (fun x rest => if bits ≠ x.bits then rest else kxmlHref (prncplHref r x.name) rest) .nil

/-- The type of a proxy collection is written as it is, without the property around it. -/
def propfindProxy (proxy : Bytes) : Response where
  href := prncplHref r st.rprncpl.name ++ proxy ++ [SLASH]
  propstats :=
    let type := if proxy = proxyWrite then .caldavservProxyWrite else .caldavservProxyRead
    let bits := if proxy = proxyWrite then PROXY_WRITE else PROXY_READ
    let found := props.filterMap fun p =>
      if p.key = .resourcetype then some ⟨none, kxmlPushnull .davPrincipal (kxmlPushnull type .nil)⟩
      else if p.key ≠ .groupMemberSet then none
      else some ⟨some p, proxyMembers r st bits⟩
    let missing := props.filter fun p => ¬(p.key = .resourcetype ∨ p.key = .groupMemberSet)
    ⟨200, found⟩ :: if missing ≠ [] then [⟨404, missing.map fun p => ⟨some p, .nil⟩⟩] else []

/-- The element of a multi-status that stands for a thing asked about. -/
def Item.response : Item → Option Response
  | .coln c props => some (propfindColn q r st props c)
  | .res c p props => some (propfindResource q r st props c p)
  | .prncpl props => some (propfindPrncpl q r st props)
  | .proxy collection props => some (propfindProxy r st props collection)
  | .index _ | .calendar _ | .href _ _ | .propstat _ _ => none

/-- What a property is of the thing that an element stands for. -/
def Item.value : Item → CalPropType → Option Frag
  | .coln c _, key => (properties q r st key).cgetfp.map (· c)
  | .res c p _, key => (properties q r st key).rgetfp.map fun f => f c p
  | .prncpl _, key => (properties q r st key).pgetfp
  | .proxy collection _, key =>
    if key = .groupMemberSet then some (proxyMembers r st (if collection = proxyWrite then PROXY_WRITE else PROXY_READ)) else none
  | .index _, _ | .calendar _, _ | .href _ _, _ | .propstat _ _, _ => none

/-- The properties that an element was asked for. -/
def Item.asked : Item → List CalProp
  | .coln _ props | .res _ _ props | .prncpl props | .proxy _ props => props
  | .index _ | .calendar _ | .href _ _ | .propstat _ _ => []

/-! ## Answers -/

/-- What is written with a status. -/
def shownWith (status : Nat) (ps : List Propstat) : List Shown :=
  (ps.filter fun s => s.status = status).flatMap Propstat.shown

/-- The properties that are written with a status. -/
def listedWith (status : Nat) (ps : List Propstat) : List CalProp := (shownWith status ps).filterMap Shown.prop

/-- Every requested property is listed as often as it was requested, with either status but not with
both, and those that are found with their value. -/
structure AnswersAll (value : CalPropType → Option Frag) (props : List CalProp) (ps : List Propstat) : Prop where
  count : ∀ p, (listedWith 200 ps).count p + (listedWith 404 ps).count p = props.count p
  apart : ∀ p ∈ listedWith 200 ps, p ∉ listedWith 404 ps
  value : ∀ s ∈ shownWith 200 ps, ∃ p, s.prop = some p ∧ value p.key = some s.value

section Loops
variable (value : CalPropType → Option Frag)
omit q r st

theorem shownWith_found : shownWith 200 (propstats value props) =
    props.filterMap fun p => if p.key = .max then none else (value p.key).map fun v => ⟨some p, v⟩ := by
  unfold shownWith propstats
  dsimp only
  split <;> simp

theorem listedWith_found : listedWith 200 (propstats value props) =
    props.filter fun p => p.key ≠ .max ∧ (value p.key).isSome := by
  rw [listedWith, shownWith_found, List.filterMap_filterMap, ← List.filterMap_eq_filter]
  congr 1
  funext p
  by_cases hp : p.key = .max
  · simp [hp, Option.guard]
  · cases hv : value p.key <;> simp [hp, hv, Option.guard]

theorem listedWith_missing : listedWith 404 (propstats value props) = props.filter fun p => p.key = .max := by
  unfold listedWith shownWith propstats
  dsimp only
  by_cases h : props.any fun p => p.key = .max
  · rw [if_pos h]
    simp [List.filterMap_map]
  · rw [if_neg h]
    symm
    simpa using h

/-- All requested properties are answered exactly where each is unknown or one of the thing asked about. -/
theorem propstats_answers_iff :
    AnswersAll value props (propstats value props) ↔ ∀ p ∈ props, p.key = .max ∨ (value p.key).isSome := by
  constructor
  · intro h p hp
    by_contra hno
    rw [not_or] at hno
    have hcount := h.count p
    rw [listedWith_found, listedWith_missing, List.count_eq_zero.mpr, List.count_eq_zero.mpr] at hcount
    · exact absurd (List.count_pos_iff.mpr hp) (by omega)
    · simp [hno.1]
    · simp [hno.2]
  · intro h
    constructor
    · intro p
      by_cases hp : p ∈ props
      · rw [listedWith_found, listedWith_missing]
        by_cases hkey : p.key = .max
        · have hfound : p ∉ props.filter fun p => p.key ≠ .max ∧ (value p.key).isSome := by simp [hkey]
          rw [List.count_eq_zero.mpr hfound, List.count_filter (by simpa using hkey), Nat.zero_add]
        · have hsome := (h p hp).resolve_left hkey
          have hmissing : p ∉ props.filter fun p => p.key = .max := by simp [hkey]
          rw [List.count_filter (by simp [hkey, hsome]), List.count_eq_zero.mpr hmissing, Nat.add_zero]
      · rw [listedWith_found, listedWith_missing]
        have hfilter (f : CalProp → Bool) : (props.filter f).count p = 0 :=
          List.count_eq_zero.mpr fun hm => hp (List.mem_filter.mp hm).1
        rw [hfilter, hfilter, List.count_eq_zero.mpr hp]
    · intro p hfound hmissing
      rw [listedWith_found, List.mem_filter] at hfound
      rw [listedWith_missing, List.mem_filter] at hmissing
      simp_all
    · intro s hs
      rw [shownWith_found, List.mem_filterMap] at hs
      obtain ⟨p, -, hp⟩ := hs
      split at hp
      · cases hp
      · obtain ⟨v, hv, rfl⟩ := Option.map_eq_some_iff.mp hp
        exact ⟨p, rfl, hv⟩

end Loops

/-- A query is answered in full, of a collection, a resource or a principal, exactly where each property
asked for is unknown or has a getter for that kind of thing. -/
theorem propfind_answers_iff :
    (∀ c, AnswersAll (fun key => (properties q r st key).cgetfp.map (· c)) props (propfindColn q r st props c).propstats ↔
      ∀ p ∈ props, p.key = .max ∨ (properties q r st p.key).cgetfp.isSome) ∧
    (∀ c res, AnswersAll (fun key => (properties q r st key).rgetfp.map fun f => f c res) props
        (propfindResource q r st props c res).propstats ↔
      ∀ p ∈ props, p.key = .max ∨ (properties q r st p.key).rgetfp.isSome) ∧
    (AnswersAll (fun key => (properties q r st key).pgetfp) props (propfindPrncpl q r st props).propstats ↔
      ∀ p ∈ props, p.key = .max ∨ (properties q r st p.key).pgetfp.isSome) := by
  refine ⟨fun c => ?_, fun c res => ?_, ?_⟩
  · rw [propfindColn, propstats_answers_iff]
    simp
  · rw [propfindResource, propstats_answers_iff]
    simp
  · rw [propfindPrncpl, propstats_answers_iff]

/-- What is written for a property of a proxy collection, if anything. -/
def proxyShown (proxy : Bytes) (p : CalProp) : Option Shown :=
  if p.key = .resourcetype then
    some ⟨none, kxmlPushnull .davPrincipal
      (kxmlPushnull (if proxy = proxyWrite then .caldavservProxyWrite else .caldavservProxyRead) .nil)⟩
  else if p.key ≠ .groupMemberSet then none
  else some ⟨some p, proxyMembers r st (if proxy = proxyWrite then PROXY_WRITE else PROXY_READ)⟩

theorem shownWith_proxy (proxy : Bytes) :
    shownWith 200 (propfindProxy r st props proxy).propstats = props.filterMap (proxyShown r st proxy) := by
  change shownWith 200 (⟨200, props.filterMap (proxyShown r st proxy)⟩ ::
    if _ then [⟨404, List.map (fun p => ⟨some p, .nil⟩) _⟩] else []) = _
  unfold shownWith
  split <;> simp

theorem listedWith_proxy_found (proxy : Bytes) :
    listedWith 200 (propfindProxy r st props proxy).propstats = props.filter fun p => p.key = .groupMemberSet := by
  rw [listedWith, shownWith_proxy, List.filterMap_filterMap, ← List.filterMap_eq_filter]
  congr 1
  funext p
  unfold proxyShown
  by_cases htype : p.key = .resourcetype
  · simp [htype, Option.guard]
  · by_cases hmember : p.key = .groupMemberSet <;> simp [htype, hmember, Option.guard]

theorem listedWith_proxy_missing (proxy : Bytes) : listedWith 404 (propfindProxy r st props proxy).propstats =
    props.filter fun p => ¬(p.key = .resourcetype ∨ p.key = .groupMemberSet) := by
  change listedWith 404 (⟨200, props.filterMap (proxyShown r st proxy)⟩ ::
    if props.filter (fun p => ¬(p.key = .resourcetype ∨ p.key = .groupMemberSet)) ≠ [] then
      [⟨404, (props.filter fun p => ¬(p.key = .resourcetype ∨ p.key = .groupMemberSet)).map fun p => ⟨some p, .nil⟩⟩] else []) = _
  generalize props.filter (fun p => ¬(p.key = .resourcetype ∨ p.key = .groupMemberSet)) = missing
  unfold listedWith shownWith
  by_cases hmissing : missing = []
  · simp [hmissing]
  · simp [hmissing, List.filterMap_map]

/-- A proxy collection is answered in full where its type is not asked for. -/
theorem propfindProxy_answers_iff (proxy : Bytes) :
    AnswersAll ((Item.proxy proxy props).value q r st) props (propfindProxy r st props proxy).propstats ↔
      ∀ p ∈ props, p.key ≠ .resourcetype := by
  constructor
  · intro h p hp htype
    have hcount := h.count p
    rw [listedWith_proxy_found, listedWith_proxy_missing, List.count_eq_zero.mpr, List.count_eq_zero.mpr] at hcount
    · exact absurd (List.count_pos_iff.mpr hp) (by omega)
    · simp [htype]
    · simp [htype]
  · intro h
    constructor
    · intro p
      rw [listedWith_proxy_found, listedWith_proxy_missing]
      by_cases hp : p ∈ props
      · by_cases hmember : p.key = .groupMemberSet
        · have hmissing : p ∉ props.filter fun p => ¬(p.key = .resourcetype ∨ p.key = .groupMemberSet) := by simp [hmember]
          rw [List.count_filter (by simpa using hmember), List.count_eq_zero.mpr hmissing, Nat.add_zero]
        · have hfound : p ∉ props.filter fun p => p.key = .groupMemberSet := by simp [hmember]
          rw [List.count_eq_zero.mpr hfound, List.count_filter (by simp [hmember, h p hp]), Nat.zero_add]
      · have hfilter (f : CalProp → Bool) : (props.filter f).count p = 0 :=
          List.count_eq_zero.mpr fun hm => hp (List.mem_filter.mp hm).1
        rw [hfilter, hfilter, List.count_eq_zero.mpr hp]
    · intro p hfound hmissing
      rw [listedWith_proxy_found, List.mem_filter] at hfound
      rw [listedWith_proxy_missing, List.mem_filter] at hmissing
      simp_all
    · intro s hs
      rw [shownWith_proxy] at hs
      obtain ⟨p, hp, hshown⟩ := List.mem_filterMap.mp hs
      rw [proxyShown, if_neg (h p hp)] at hshown
      split at hshown
      · cases hshown
      next hmember =>
        cases hshown
        exact ⟨p, rfl, by rw [Item.value, if_pos (not_not.mp hmember)]⟩

/-- Every element of a multi-status answers all it was asked exactly where each property is
unknown or one of the thing; that of a proxy collection where its type is not asked for,
which is written without the property around it. -/
theorem Item.response_answers_iff {i : Item} {response : Response} (h : i.response q r st = some response) :
    AnswersAll (i.value q r st) i.asked response.propstats ↔ ∀ p ∈ i.asked,
      match i with
      | .proxy _ _ => p.key ≠ .resourcetype
      | _ => p.key = .max ∨ (i.value q r st p.key).isSome := by
  cases i with
  | coln c props =>
    cases h
    exact propstats_answers_iff props _
  | res c p props =>
    cases h
    exact propstats_answers_iff props _
  | prncpl props =>
    cases h
    exact propstats_answers_iff props _
  | proxy collection props =>
    cases h
    exact propfindProxy_answers_iff q r st props collection
  | index _ | calendar _ | href _ _ | propstat _ _ => cases h

/-- The entity tag is a property of resources. -/
def askEtag : CalProp := ⟨.getetag, ascii "getetag", ascii "DAV:", none, 0⟩

/-- A collection that is asked for an entity tag does not say that it has none. -/
theorem propfindColn_drops_getetag :
    (propfindColn ⟨0, 0⟩ (.bare .propfind []) .atEvent [askEtag] (Sql.newCol 1 (ascii "calendar") 1).coln).propstats = [⟨200, []⟩] ∧
      ¬ AnswersAll (fun key => (properties ⟨0, 0⟩ (.bare .propfind []) .atEvent key).cgetfp.map (· (Sql.newCol 1 (ascii "calendar") 1).coln))
        [askEtag] [⟨200, []⟩] :=
  ⟨by decide +kernel, fun h => absurd (h.count askEtag) (by decide +kernel)⟩

end Kcaldav
