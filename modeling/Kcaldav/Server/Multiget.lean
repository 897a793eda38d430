import Kcaldav.Server.Percent

/-! # Answers of a multiget

The `href` of an answer and the address that was asked for. An answer with a resource is
built from the names that are stored, as they are; any other repeats the address, encoded
and behind the name of the script.
-/
namespace Kcaldav
open CString

/-! ## Texts that decoding leaves alone -/

/-- No plus and no `%` with a pair of such characters. -/
structure Unescaped (p : UInt8 → Bool) (s : Bytes) : Prop where
  plus : 43 ∉ s
  pairs : AtPercents (fun rest => ¬Pair p rest) s

/-- A decoder that takes every `%` with a pair of such characters for an escape. -/
structure Decodes (p : UInt8 → Bool) (decode : Bytes → Bytes) : Prop where
  nil : decode [] = []
  plain : ∀ c s, c ≠ PERCENT → decode (c :: s) = unplus c :: decode s
  pair : ∀ a b s, p a && p b → ∃ x, decode (PERCENT :: a :: b :: s) = x :: decode s
  percent : ∀ s, ¬Pair p s → decode (PERCENT :: s) = PERCENT :: decode s

theorem percentDecode_decodes : Decodes isHex percentDecode where
  nil := rfl
  plain _ s hc := percentDecode_cons hc s
  pair a b s hab := ⟨hexByte a b, percentDecode_pair hab s⟩
  percent _ hs := percentDecode_percent hs

theorem httpDecode_decodes : Decodes isAlnum httpDecode where
  nil := rfl
  plain _ s hc := httpDecode_cons hc s
  pair a b s hab := ⟨parsehex a <<< 4 ||| parsehex b, httpDecode_pair hab s⟩
  percent _ hs := httpDecode_percent hs

namespace Decodes
variable {p : UInt8 → Bool} {decode : Bytes → Bytes}

theorem length_le (h : Decodes p decode) (s : Bytes) : (decode s).length ≤ s.length := by
  induction s using percentInduction p with
  | nil =>
    rw [h.nil]
  | plain c s hc ih =>
    rw [h.plain c s hc, List.length_cons, List.length_cons]
    omega
  | pair a b s hab ih =>
    obtain ⟨x, hx⟩ := h.pair a b s hab
    rw [hx]
    simp only [List.length_cons]
    omega
  | percent s hs ih =>
    rw [h.percent s hs, List.length_cons, List.length_cons]
    omega

/-- A text that does not get shorter has no escapes. -/
theorem of_length (h : Decodes p decode) {s : Bytes} (hlen : (decode s).length = s.length) :
    AtPercents (fun rest => ¬Pair p rest) s ∧ decode s = s.map unplus := by
  induction s using percentInduction p with
  | nil => exact ⟨atPercents_nil _, h.nil⟩
  | plain c s hc ih =>
    rw [h.plain c s hc, List.length_cons, List.length_cons] at hlen
    obtain ⟨hpairs, hmap⟩ := ih (by omega)
    rw [h.plain c s hc, hmap]
    exact ⟨atPercents_cons.mpr ⟨fun heq => absurd heq hc, hpairs⟩, rfl⟩
  | pair a b s hab ih =>
    have hle := h.length_le s
    obtain ⟨x, hx⟩ := h.pair a b s hab
    rw [hx] at hlen
    simp only [List.length_cons] at hlen
    omega
  | percent s hs ih =>
    rw [h.percent s hs, List.length_cons, List.length_cons] at hlen
    obtain ⟨hpairs, hmap⟩ := ih (by omega)
    rw [h.percent s hs, hmap]
    exact ⟨atPercents_cons.mpr ⟨fun _ => hs, hpairs⟩, rfl⟩

theorem of_unescaped (h : Decodes p decode) {s : Bytes} (hs : Unescaped p s) : decode s = s := by
  obtain ⟨hplus, hpairs⟩ := hs
  induction s using percentInduction p with
  | nil => exact h.nil
  | plain c s hc ih =>
    rw [List.mem_cons, not_or] at hplus
    rw [h.plain c s hc, ih hplus.2 hpairs.tail, unplus, if_neg (Ne.symm hplus.1)]
  | pair a b s hab ih => exact absurd (pair_cons_iff.mpr hab) hpairs.head
  | percent s hs ih =>
    rw [List.mem_cons, not_or] at hplus
    rw [h.percent s hs, ih hplus.2 hpairs.tail]

end Decodes

/-! ## Slashes -/

theorem unplus_eq_slash {c : UInt8} : unplus c = SLASH ↔ c = SLASH := by
  unfold unplus
  split
  next h =>
    rw [h]
    decide
  · exact Iff.rfl

theorem count_slash_cons (c : UInt8) (s : Bytes) : (unplus c :: s).count SLASH = (c :: s).count SLASH := by
  rw [List.count_cons, List.count_cons]
  simp only [beq_iff_eq, unplus_eq_slash]

theorem count_slash_pair {a b : UInt8} (h : isHex a && isHex b) (s : Bytes) :
    (PERCENT :: a :: b :: s).count SLASH = s.count SLASH ∧ (a :: b :: s).count SLASH = s.count SLASH ∧
    (b :: s).count SLASH = s.count SLASH := by
  obtain ⟨ha, hb⟩ := Bool.and_eq_true_iff.mp h
  have hne {c : UInt8} (hc : isHex c) : c ≠ SLASH := by
    rintro rfl
    exact absurd hc (by decide)
  rw [List.count_cons_of_ne (by decide), List.count_cons_of_ne (hne ha), List.count_cons_of_ne (hne hb)]
  exact ⟨rfl, rfl, rfl⟩

/-- Decoding does not take slashes away. -/
theorem count_slash_le (s : Bytes) : s.count SLASH ≤ (percentDecode s).count SLASH := by
  induction s using percentInduction isHex with
  | nil => exact le_rfl
  | plain c s hc ih =>
    rw [percentDecode_cons hc, count_slash_cons, List.count_cons, List.count_cons]
    omega
  | pair a b s hab ih =>
    rw [percentDecode_pair hab, (count_slash_pair hab s).1, List.count_cons]
    omega
  | percent s hs ih =>
    rw [percentDecode_percent hs, List.count_cons, List.count_cons]
    omega

/-- Nor does a text in front, although its end and the beginning of the other can be an escape. -/
theorem count_slash_append (p s : Bytes) : (percentDecode s).count SLASH ≤ (percentDecode (p ++ s)).count SLASH := by
  induction p using percentInduction isHex with
  | nil => exact le_rfl
  | plain c p hc ih =>
    rw [List.cons_append, percentDecode_cons hc, List.count_cons]
    omega
  | pair a b p hab ih =>
    rw [List.cons_append, List.cons_append, List.cons_append, percentDecode_pair hab, List.count_cons]
    omega
  | percent p hp ih =>
    rw [List.cons_append]
    by_cases hpair : Pair isHex (p ++ s)
    · obtain ⟨a, b, t, heq, ha, hb⟩ := hpair
      have hab : isHex a && isHex b := Bool.and_eq_true_iff.mpr ⟨ha, hb⟩
      have hne {c : UInt8} (hc : isHex c) : c ≠ PERCENT := (unplus_of_isAlnum (isAlnum_of_isHex hc)).1
      have hun {c : UInt8} (hc : isHex c) : unplus c = c := (unplus_of_isAlnum (isAlnum_of_isHex hc)).2
      rw [heq, percentDecode_pair hab, List.count_cons]
      match p with
      | [] =>
        obtain rfl : s = a :: b :: t := heq
        rw [percentDecode_cons (hne ha), percentDecode_cons (hne hb), hun ha, hun hb, (count_slash_pair hab _).2.1]
        omega
      | [x] =>
        obtain ⟨rfl, rfl⟩ := List.cons.inj heq
        rw [percentDecode_cons (hne hb), hun hb, (count_slash_pair hab _).2.2]
        omega
      | x :: y :: p =>
        cases heq
        exact absurd ⟨a, b, p, rfl, ha, hb⟩ hp
    · rw [percentDecode_percent hpair, List.count_cons]
      omega

/-- A path in front is never lost in decoding. -/
theorem percentDecode_append_ne {p : Bytes} (hp : p.head? = some SLASH) (s : Bytes) : percentDecode (p ++ s) ≠ percentDecode s := by
  intro h
  cases p with
  | nil => cases hp
  | cons c p =>
    obtain rfl : c = SLASH := Option.some.inj hp
    have hle := count_slash_append p s
    rw [List.cons_append, percentDecode_cons (by decide)] at h
    rw [← h, count_slash_cons, List.count_cons_self] at hle
    omega

/-! ## Addresses -/

/-- The collection and the name of the resource that an address leads to. -/
def located (r : Kreq) (st : State) (href : Bytes) : Option (Coln × Bytes) :=
  if r.pname <+: href then
    match httpPaths (href.drop r.pname.length) with
    | none => none
    | some (principal, collection, resource) =>
      if st.rprncpl.name = principal then (st.rprncpl.cols.find? fun c => c.url = collection).map fun c => (c, resource) else none
  else none

/-- Such an address, behind the name of the script, has three parts, and nothing in it is
encoded. In the last part, which is decoded, every pair of alphanumeric characters after a
`%` would be. -/
def PlainHref (pname href : Bytes) : Prop :=
  ∃ p q w, href = pname ++ SLASH :: (p ++ SLASH :: (q ++ SLASH :: w)) ∧ SLASH ∉ p ∧ SLASH ∉ w ∧
    Unescaped isHex href ∧ Unescaped isAlnum w

theorem httpPaths_cases {path p q a : Bytes} (h : httpPaths path = some (p, q, a)) :
    (path = SLASH :: p ∧ SLASH ∉ p) ∨ (∃ w, path = SLASH :: (p ++ SLASH :: w) ∧ SLASH ∉ p ∧ SLASH ∉ w) ∨
    ∃ w, path = SLASH :: (p ++ SLASH :: (q ++ SLASH :: w)) ∧ SLASH ∉ p ∧ SLASH ∉ w ∧ a = cstr (httpDecode w) := by
  cases path with
  | nil => cases h
  | cons c path =>
    rw [httpPaths] at h
    split at h
    · cases h
    next hc =>
      obtain rfl : c = SLASH := not_not.mp hc
      split at h
      next hnone =>
        cases h
        exact Or.inl ⟨rfl, strchr_eq_none.mp hnone⟩
      next principal rest hsome =>
        obtain ⟨rfl, hp⟩ := strchr_eq_some.mp hsome
        split at h
        next hnone =>
          cases h
          have hw : SLASH ∉ rest.reverse := strchr_eq_none.mp (Option.map_eq_none_iff.mp hnone)
          exact Or.inr (Or.inl ⟨rest, rfl, hp, fun hm => hw (List.mem_reverse.mpr hm)⟩)
        next collection w hlast =>
          obtain ⟨rfl, hw⟩ := strrchr_eq_some.mp hlast
          cases h
          exact Or.inr (Or.inr ⟨w, rfl, hp, hw, rfl⟩)

section
variable {r : Kreq} {st : State} {c : Coln} {href a : Bytes}

theorem located_cases (h : located r st href = some (c, a)) :
    c ∈ st.rprncpl.cols ∧ ∃ path, href = r.pname ++ path ∧ httpPaths path = some (st.rprncpl.name, c.url, a) := by
  unfold located at h
  split at h
  next hpre =>
    obtain ⟨path, rfl⟩ := hpre
    rw [List.drop_left] at h
    split at h
    · cases h
    next p q x hpath =>
      split at h
      next hname =>
        subst hname
        obtain ⟨d, hfind, hd⟩ := Option.map_eq_some_iff.mp h
        cases hd
        have hurl : c.url = q := by simpa using List.find?_some hfind
        exact ⟨List.mem_of_find?_eq_some hfind, path, rfl, hurl ▸ hpath⟩
      · cases h
  · cases h

theorem PlainHref.slashes {pname : Bytes} (h : PlainHref pname href) : pname.count SLASH + 3 ≤ href.count SLASH := by
  obtain ⟨p, q, w, rfl, -⟩ := h
  simp only [List.count_append, List.count_cons_self]
  omega

theorem resourceHref_slashes (r : Kreq) (st : State) (c : Coln) (a : Bytes) : r.pname.count SLASH + 3 ≤ (resourceHref r st c a).count SLASH := by
  unfold resourceHref
  simp only [List.count_append, List.count_cons_self]
  omega

/-- An address with too few parts is not given back, nor is it a plain one. -/
theorem not_given_back (h : href.count SLASH < r.pname.count SLASH + 3) :
    percentDecode (resourceHref r st c a) = href ↔ PlainHref r.pname href := by
  apply iff_of_false
  · rintro rfl
    have hle := count_slash_le (resourceHref r st c a)
    have hslashes := resourceHref_slashes r st c a
    omega
  · intro hl
    have hslashes := hl.slashes
    omega

theorem cstr_length_le (b : Bytes) : (cstr b).length ≤ b.length := (List.takeWhile_prefix _).length_le

theorem plus_notMem_unplus (s : Bytes) : 43 ∉ s.map unplus := by
  intro hm
  obtain ⟨c, -, hc⟩ := List.mem_map.mp hm
  unfold unplus at hc
  split at hc
  · exact absurd hc (by decide)
  next h => exact h hc

/-- The last part of an address that is given back is what it is decoded to. -/
theorem eq_of_given_back {pre w : Bytes}
    (h : percentDecode (pre ++ SLASH :: cstr (httpDecode w)) = pre ++ SLASH :: w) :
    Unescaped isHex (pre ++ SLASH :: w) ∧ Unescaped isAlnum w := by
  have hdecoded := cstr_length_le (httpDecode w)
  have hshort := httpDecode_decodes.length_le w
  have htext := percentDecode_decodes.length_le (pre ++ SLASH :: cstr (httpDecode w))
  have hlen : (pre ++ SLASH :: w).length = pre.length + (w.length + 1) := by
    rw [List.length_append, List.length_cons]
  rw [h, hlen, List.length_append, List.length_cons] at htext
  have hpre : cstr (httpDecode w) <+: httpDecode w := List.takeWhile_prefix _
  have hcstr : cstr (httpDecode w) = httpDecode w := hpre.eq_of_length_le (by omega)
  have hkept : (httpDecode w).length = w.length := by omega
  obtain ⟨hpairs, hmap⟩ := httpDecode_decodes.of_length hkept
  rw [hcstr, hmap] at h
  have hsame : (percentDecode (pre ++ SLASH :: w.map unplus)).length = (pre ++ SLASH :: w.map unplus).length := by
    rw [h]
    simp
  obtain ⟨hhex, htext⟩ := percentDecode_decodes.of_length hsame
  rw [h, List.map_append, List.map_cons] at htext
  obtain ⟨hfront, hback⟩ := List.append_inj htext (by simp)
  have hwplus : 43 ∉ w := by
    rw [(List.cons.inj hback).2]
    exact plus_notMem_unplus _
  rw [map_unplus.mpr hwplus] at hhex
  refine ⟨⟨?_, hhex⟩, hwplus, hpairs⟩
  rw [List.mem_append, List.mem_cons, not_or, not_or]
  exact ⟨map_unplus.mp hfront.symm, by decide, hwplus⟩

/-- What is built from the stored names is the address exactly where that is a plain one. -/
theorem percentDecode_resourceHref (hloc : located r st href = some (c, a)) (hnul : NUL ∉ href) :
    percentDecode (resourceHref r st c a) = href ↔ PlainHref r.pname href := by
  obtain ⟨-, path, rfl, hpath⟩ := located_cases hloc
  have few {s : Bytes} (hs : SLASH ∉ s) : s.count SLASH = 0 := List.count_eq_zero.mpr hs
  rcases httpPaths_cases hpath with ⟨rfl, hp⟩ | ⟨w, rfl, hp, hw⟩ | ⟨w, rfl, hp, hw, rfl⟩
  · apply not_given_back
    simp only [List.count_append, List.count_cons_self, few hp]
    omega
  · apply not_given_back
    simp only [List.count_append, List.count_cons_self, few hp, few hw]
    omega
  · have hsplit (t : Bytes) : r.pname ++ SLASH :: (st.rprncpl.name ++ SLASH :: (c.url ++ SLASH :: t)) =
        (r.pname ++ SLASH :: (st.rprncpl.name ++ SLASH :: c.url)) ++ SLASH :: t := by simp
    constructor
    · intro h
      unfold resourceHref at h
      rw [hsplit, hsplit] at h
      obtain ⟨htext, hlast⟩ := eq_of_given_back h
      rw [← hsplit] at htext
      exact ⟨_, _, w, rfl, hp, hw, htext, hlast⟩
    · rintro ⟨p, q, v, heq, hp', hv, htext, hlast⟩
      have hpath' := List.append_cancel_left heq
      have hparts : httpPaths (SLASH :: (st.rprncpl.name ++ SLASH :: (c.url ++ SLASH :: w))) = some (p, q, cstr (httpDecode v)) := by
        rw [hpath', httpPaths_join hp' q hv]
      rw [httpPaths_join hp _ hw] at hparts
      obtain ⟨rfl, rfl, -⟩ := by simpa using hparts
      have hwv : w = v := by simpa using hpath'
      subst hwv
      have hwnul : NUL ∉ w := by
        intro hm
        apply hnul
        simp [hm]
      unfold resourceHref
      rw [httpDecode_decodes.of_unescaped hlast, cstr_eq_self hwnul, percentDecode_decodes.of_unescaped htext]

end

/-! ## Answers -/

section
variable (C : Libc) (enc : Bytes → Bytes) (r : Kreq) (st : State)

/-- The text of the `href` of an answer, where `enc` encodes an address. -/
def responseHref : Item → Option Bytes
  | .res c res _ => some (resourceHref r st c res.url)
  | .href href _ => some (r.pname ++ enc href)
  | _ => none

/-- The resource of an address is stored, and a read that goes like this gets it. -/
def Fetched (db : Db) (e : Choice) (href : Bytes) : Prop :=
  ∃ c a row, located r st href = some (c, a) ∧ e.quiet 4 ∧ Sql.resGet c.id a db = some row ∧
    (icalParse C none e.erange row.data 0).1.isSome

/-- An address that can be read must be a plain one. For any other there must be no name of the script. -/
def Answerable (db : Db) (e : Choice) (href : Bytes) : Prop :=
  (Fetched C r st db e href → PlainHref r.pname href) ∧ (¬Fetched C r st db e href → r.pname = [])

/-- How often the database is read for these addresses. -/
def reads (hrefs : List Bytes) : Nat := (hrefs.filter fun href => (located r st href).isSome).length

/-- What is found under an address. -/
def looked (db : Db) (e : Choice) (href : Bytes) : Loaded Res :=
  match located r st href with
  | none => .absent
  | some (c, resource) => (query 4 .error (fun e db => resourceLoaded C resource c.id e.erange db) e db).1

theorem propfindResourceLookup_eq (href : Bytes) :
    propfindResourceLookup C r st href =
      match located r st href with
      | none => Prog.ret .absent
      | some (c, resource) => loadResource C resource c.id := by
  unfold propfindResourceLookup located
  by_cases hpre : r.pname <+: href
  · rw [if_neg (not_not.mpr hpre), if_pos hpre]
    cases httpPaths (href.drop r.pname.length) with
    | none => rfl
    | some parts =>
      obtain ⟨p, q, a⟩ := parts
      dsimp only
      by_cases hname : st.rprncpl.name = p
      · rw [if_neg (not_not.mpr hname), if_pos hname]
        cases st.rprncpl.cols.find? fun c => c.url = q <;> rfl
      · rw [if_pos hname, if_neg hname]
        rfl
  · rw [if_pos hpre, if_neg hpre]
    rfl

theorem propfindResourceLookup_run (href : Bytes) (cs : ℕ → Choice) (db : Db) :
    (propfindResourceLookup C r st href).run cs db =
      (looked C r st db (cs 0) href, db, fun n => cs (n + reads r st [href])) := by
  rw [propfindResourceLookup_eq]
  unfold looked reads
  cases hloc : located r st href with
  | none => simp [hloc]
  | some found =>
    obtain ⟨c, a⟩ := found
    dsimp only
    rw [loadResource_eq, Prog.run_atom]
    unfold query
    cases (cs 0).quiet 4 <;> simp [hloc]

variable {C enc r st} {db : Db} {e : Choice} {href : Bytes}

theorem looked_found {res : Res} (h : looked C r st db e href = .found res) :
    Fetched C r st db e href ∧ ∃ c, located r st href = some (c, res.url) ∧ res.collection = c.id := by
  unfold looked at h
  split at h
  · cases h
  next c a hloc =>
    unfold query at h
    split at h
    next hquiet =>
      obtain ⟨row, ical, q, hget, hparse, rfl⟩ := resourceLoaded_found C h
      obtain ⟨-, hcol, hurl⟩ := mem_of_resGet hget
      refine ⟨⟨c, a, row, hloc, hquiet, hget, ?_⟩, c, ?_, hcol⟩
      · rw [hparse]
        rfl
      · rw [hloc, ← hurl]
        rfl
    · cases h

theorem Fetched.looked (h : Fetched C r st db e href) : ∃ res, looked C r st db e href = .found res := by
  obtain ⟨c, a, row, hloc, hquiet, hget, hparse⟩ := h
  unfold Kcaldav.looked query resourceLoaded
  rw [hloc]
  dsimp only
  rw [if_pos hquiet, hget]
  dsimp only
  cases hical : (icalParse C none e.erange row.data 0).1 with
  | none =>
    rw [hical] at hparse
    cases hparse
  | some found =>
    obtain ⟨ical, q⟩ := found
    exact ⟨row.res ical, rfl⟩

/-- An answer that repeats the address gives it back only where the script has no name. -/
theorem repeated_iff (henc : ∀ b, NUL ∉ b → percentDecode (enc b) = b) (hpname : r.pname = [] ∨ r.pname.head? = some SLASH)
    (hnul : NUL ∉ href) : percentDecode (r.pname ++ enc href) = href ↔ r.pname = [] := by
  constructor
  · intro h
    apply hpname.resolve_right
    intro hslash
    apply percentDecode_append_ne hslash (enc href)
    rw [h, henc href hnul]
  · intro h
    rw [h, List.nil_append, henc href hnul]

/-- The answer to one address. -/
theorem propfindListItem_answers (db : Db) (e : Choice) (henc : ∀ b, NUL ∉ b → percentDecode (enc b) = b)
    (hpname : r.pname = [] ∨ r.pname.head? = some SLASH)
    (hnumbered : ∀ c ∈ st.rprncpl.cols, ∀ c' ∈ st.rprncpl.cols, c.id = c'.id → c = c') (dav : Caldav) (hnul : NUL ∉ href) :
    ∃ item, propfindListItem st dav href (looked C r st db e href) = [item] ∧
      ((responseHref enc r st item).map percentDecode = some href ↔ Answerable C r st db e href) := by
  have repeated {status : Nat} (habsent : ¬Fetched C r st db e href) :
      (responseHref enc r st (.href href status)).map percentDecode = some href ↔ Answerable C r st db e href := by
    rw [responseHref, Option.map_some, Option.some.injEq, repeated_iff henc hpname hnul]
    exact ⟨fun h => ⟨fun hs => absurd hs habsent, fun _ => h⟩, fun h => h.2 habsent⟩
  cases hlook : looked C r st db e href with
  | error =>
    refine ⟨.href href 505, rfl, repeated ?_⟩
    intro hs
    obtain ⟨res, hres⟩ := hs.looked
    rw [hlook] at hres
    cases hres
  | absent =>
    refine ⟨.href href 403, rfl, repeated ?_⟩
    intro hs
    obtain ⟨res, hres⟩ := hs.looked
    rw [hlook] at hres
    cases hres
  | found res =>
    obtain ⟨hs, c, hloc, hid⟩ := looked_found hlook
    have hfind : (st.rprncpl.cols.find? fun d => res.collection = d.id) = some c := by
      cases hfind : st.rprncpl.cols.find? fun d => res.collection = d.id with
      | none => simpa [hid] using List.find?_eq_none.mp hfind c (located_cases hloc).1
      | some d =>
        have hd : res.collection = d.id := by simpa using List.find?_some hfind
        rw [hnumbered d (List.mem_of_find?_eq_some hfind) c (located_cases hloc).1 (hd.symm.trans hid)]
    dsimp only [propfindListItem]
    rw [hfind]
    refine ⟨.res c res dav.props, rfl, ?_⟩
    rw [responseHref, Option.map_some, Option.some.injEq, percentDecode_resourceHref hloc hnul]
    exact ⟨fun h => ⟨fun _ => h, fun habsent => absurd hs habsent⟩, fun h => h.1 hs⟩

theorem reads_cons (href : Bytes) (hrefs : List Bytes) : reads r st (href :: hrefs) = reads r st [href] + reads r st hrefs := by
  unfold reads
  rw [← List.singleton_append, List.filter_append, List.length_append]

/-- What holds at every place of a list, from what is in front of it. -/
theorem forall_places_cons {α : Type} {P : List α → α → Prop} {a : α} {l : List α} :
    (∀ pre x post, a :: l = pre ++ x :: post → P pre x) ↔ P [] a ∧ ∀ pre x post, l = pre ++ x :: post → P (a :: pre) x := by
  constructor
  · intro h
    exact ⟨h [] a l rfl, fun pre x post heq => h (a :: pre) x post (by rw [heq, List.cons_append])⟩
  · rintro ⟨hhead, htail⟩ pre x post heq
    cases pre with
    | nil =>
      cases heq
      exact hhead
    | cons b pre =>
      cases heq
      exact htail pre x post rfl

/-- The answers of the loop, one for each address. -/
theorem propfindListLoop_answers (henc : ∀ b, NUL ∉ b → percentDecode (enc b) = b)
    (hpname : r.pname = [] ∨ r.pname.head? = some SLASH)
    (hnumbered : ∀ c ∈ st.rprncpl.cols, ∀ c' ∈ st.rprncpl.cols, c.id = c'.id → c = c') (dav : Caldav) {hrefs : List Bytes}
    (hnul : ∀ href ∈ hrefs, NUL ∉ href) (cs : ℕ → Choice) :
    ((propfindListLoop C r st dav hrefs).run cs db).1.length = hrefs.length ∧
    (((propfindListLoop C r st dav hrefs).run cs db).1.map (fun item => (responseHref enc r st item).map percentDecode) =
        hrefs.map some ↔
      ∀ pre href post, hrefs = pre ++ href :: post → Answerable C r st db (cs (reads r st pre)) href) := by
  induction hrefs generalizing cs with
  | nil => exact ⟨rfl, fun _ pre href post heq => by simp at heq, fun _ => rfl⟩
  | cons href hrefs ih =>
    rw [List.forall_mem_cons] at hnul
    obtain ⟨item, hitem, hanswer⟩ :=
      propfindListItem_answers (C := C) db (cs 0) henc hpname hnumbered dav hnul.1
    obtain ⟨hlen, hrest⟩ := ih hnul.2 fun n => cs (n + reads r st [href])
    rw [propfindListLoop, Prog.run_bind, propfindResourceLookup_run, Prog.run_bind]
    dsimp only
    rw [hitem]
    constructor
    · exact congrArg Nat.succ hlen
    · have hplaces (pre : List Bytes) : reads r st pre + reads r st [href] = reads r st (href :: pre) := by
        rw [reads_cons href pre, Nat.add_comm]
      simp only [hplaces] at hrest
      rw [forall_places_cons, ← hrest]
      exact List.cons_eq_cons.trans (and_congr_left fun _ => hanswer)

end

/-! ## The whole list -/

/-- A multiget is answered address by address, and the answers give the addresses back
exactly where each of those that can be read is a plain one and the script has no name
for the others. The name of a script is empty or a path, and collections have different
numbers. -/
theorem propfindList_names_iff (C : Libc) (enc : Bytes → Bytes) (r : Kreq) (st : State) (dav : Caldav) (cs : ℕ → Choice) (db : Db)
    (henc : ∀ b, NUL ∉ b → percentDecode (enc b) = b) (hpname : r.pname = [] ∨ r.pname.head? = some SLASH)
    (hnumbered : ∀ c ∈ st.rprncpl.cols, ∀ c' ∈ st.rprncpl.cols, c.id = c'.id → c = c') (hnul : ∀ href ∈ dav.hrefs, NUL ∉ href) :
    ((propfindList C r st dav).run cs db).1.length = dav.hrefs.length ∧
    (((propfindList C r st dav).run cs db).1.map (fun item => (responseHref enc r st item).map percentDecode) =
        dav.hrefs.map some ↔
      ∀ pre href post, dav.hrefs = pre ++ href :: post → Answerable C r st db (cs (reads r st pre)) href) :=
  propfindListLoop_answers henc hpname hnumbered dav hnul cs

def hexDigit (n : Nat) : UInt8 := if n < 10 then UInt8.ofNat (48 + n) else UInt8.ofNat (55 + n)

/-- The encoding of the library, with a plus for a space. -/
def khttpUrlencode (b : Bytes) : Bytes :=
  b.flatMap fun c =>
    if isAlnum c || c ∈ ascii "-_.~" then [c]
    else if c = SP then [43]
    else [PERCENT, hexDigit (c.toNat / 16), hexDigit (c.toNat % 16)]

theorem hexByte_hexDigit (c : UInt8) :
    (isHex (hexDigit (c.toNat / 16)) && isHex (hexDigit (c.toNat % 16))) = true ∧
      hexByte (hexDigit (c.toNat / 16)) (hexDigit (c.toNat % 16)) = c := by
  revert c
  apply forall_byte
  decide +kernel

theorem unreserved {c : UInt8} (h : (isAlnum c || c ∈ ascii "-_.~") = true) : c ≠ PERCENT ∧ unplus c = c := by
  revert c
  apply forall_byte
  decide +kernel

theorem percentDecode_khttpUrlencode (b : Bytes) : percentDecode (khttpUrlencode b) = b := by
  induction b with
  | nil => rfl
  | cons c b ih =>
    unfold khttpUrlencode at ih ⊢
    rw [List.flatMap_cons]
    split
    next h =>
      obtain ⟨hpct, hplus⟩ := unreserved h
      rw [List.singleton_append, percentDecode_cons hpct, hplus, ih]
    next h =>
      split
      next hsp =>
        rw [List.singleton_append, percentDecode_cons (by decide), ih, hsp]
        rfl
      next hsp =>
        obtain ⟨hhex, hbyte⟩ := hexByte_hexDigit c
        rw [List.cons_append, List.cons_append, List.singleton_append, percentDecode_pair hhex, hbyte, ih]

/-- A multiget of one address. -/
def multigetOf (href : Bytes) : Caldav := ⟨.calmultiget, [], [href]⟩

/-- The addresses of its answers, decoded. -/
def namesOf (href : Bytes) : List (Option Bytes) :=
  ((propfindList .utc reportAtEvent .atEvent (multigetOf href)).run (fun _ => .calm) .oneEvent).1.map
    fun item => (responseHref khttpUrlencode reportAtEvent .atEvent item).map percentDecode

theorem numbered_atEvent : ∀ c ∈ State.atEvent.rprncpl.cols, ∀ c' ∈ State.atEvent.rprncpl.cols, c.id = c'.id → c = c' := by
  intro c hc c' hc' _
  rw [List.mem_singleton.mp hc, List.mem_singleton.mp hc']

theorem propfindList_names_iff_event : namesOf (ascii "/kcaldav/joe/calendar/a.ics") = [some (ascii "/kcaldav/joe/calendar/a.ics")] := by
  have hpname : reportAtEvent.pname = [] ∨ reportAtEvent.pname.head? = some SLASH := Or.inr (by decide)
  have hnul : ∀ href ∈ (multigetOf (ascii "/kcaldav/joe/calendar/a.ics")).hrefs, NUL ∉ href := by
    intro href hmem
    rw [List.mem_singleton.mp hmem]
    decide
  have hnames := (propfindList_names_iff .utc khttpUrlencode reportAtEvent .atEvent (multigetOf (ascii "/kcaldav/joe/calendar/a.ics"))
    (fun _ => .calm) .oneEvent (fun b _ => percentDecode_khttpUrlencode b) hpname numbered_atEvent hnul).2
  have hstored : Fetched .utc reportAtEvent .atEvent .oneEvent .calm (ascii "/kcaldav/joe/calendar/a.ics") :=
    ⟨(Sql.newCol 1 (ascii "calendar") 1).coln, ascii "a.ics", _, by decide +kernel, Choice.quiet_calm 4, rfl, by decide +kernel⟩
  have hplain : PlainHref (ascii "/kcaldav") (ascii "/kcaldav/joe/calendar/a.ics") := by
    refine ⟨ascii "joe", ascii "calendar", ascii "a.ics", by decide, by decide, by decide, ⟨by decide, ?_⟩, by decide, ?_⟩
    · rintro pre rest heq
      have hmem : PERCENT ∈ ascii "/kcaldav/joe/calendar/a.ics" := by simp [heq]
      exact absurd hmem (by decide)
    · rintro pre rest heq
      have hmem : PERCENT ∈ ascii "a.ics" := by simp [heq]
      exact absurd hmem (by decide)
  apply hnames.mpr
  intro pre href post heq
  obtain rfl : href = ascii "/kcaldav/joe/calendar/a.ics" := by
    have hmem : href ∈ (multigetOf (ascii "/kcaldav/joe/calendar/a.ics")).hrefs := by simp [heq]
    exact List.mem_singleton.mp hmem
  exact ⟨fun _ => hplain, fun habsent => absurd hstored habsent⟩

/-- An address without a resource comes back with the name of the script twice, and one whose
name was decoded comes back as the name. -/
theorem not_names :
    namesOf (ascii "/kcaldav/joe/calendar/b.ics") = [some (ascii "/kcaldav/kcaldav/joe/calendar/b.ics")] ∧
    namesOf (ascii "/kcaldav/joe/calendar/%61.ics") = [some (ascii "/kcaldav/joe/calendar/a.ics")] ∧
    ¬∀ (C : Libc) (enc : Bytes → Bytes) (r : Kreq) (st : State) (dav : Caldav) (cs : ℕ → Choice) (db : Db),
      (∀ b, NUL ∉ b → percentDecode (enc b) = b) → (r.pname = [] ∨ r.pname.head? = some SLASH) →
      (∀ c ∈ st.rprncpl.cols, ∀ c' ∈ st.rprncpl.cols, c.id = c'.id → c = c') → (∀ href ∈ dav.hrefs, NUL ∉ href) →
      ((propfindList C r st dav).run cs db).1.length = dav.hrefs.length ∧
      ((propfindList C r st dav).run cs db).1.map (fun item => (responseHref enc r st item).map percentDecode) =
        dav.hrefs.map some := by
  have hmissing : namesOf (ascii "/kcaldav/joe/calendar/b.ics") = [some (ascii "/kcaldav/kcaldav/joe/calendar/b.ics")] := by
    decide +kernel
  have hdecoded : namesOf (ascii "/kcaldav/joe/calendar/%61.ics") = [some (ascii "/kcaldav/joe/calendar/a.ics")] := by decide +kernel
  refine ⟨hmissing, hdecoded, ?_⟩
  intro h
  have hnul : ∀ href ∈ (multigetOf (ascii "/kcaldav/joe/calendar/b.ics")).hrefs, NUL ∉ href := by
    intro href hmem
    rw [List.mem_singleton.mp hmem]
    decide
  have hsame : namesOf (ascii "/kcaldav/joe/calendar/b.ics") = [some (ascii "/kcaldav/joe/calendar/b.ics")] :=
    (h .utc khttpUrlencode reportAtEvent .atEvent (multigetOf (ascii "/kcaldav/joe/calendar/b.ics")) (fun _ => .calm) .oneEvent
      (fun b _ => percentDecode_khttpUrlencode b) (Or.inr (by decide)) numbered_atEvent hnul).2
  rw [hmissing] at hsame
  exact absurd hsame (by decide)

end Kcaldav
