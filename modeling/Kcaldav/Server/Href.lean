import Kcaldav.Server.Passwd
import Kcaldav.Server.Precondition
import Kcaldav.Server.Propfind

/-! # Addresses handed out

The `href` a multi-status gives a resource, and its way back: through the XML of the
next request, the decoding of the CalDAV parser and the splitting of the path, which
decodes the last segment once more. It comes back as it went out where no byte of it
means anything on the way.
-/
namespace Kcaldav
open CString

/-- The XML libraries, as far as an `href` goes through them: `putc` is what
`kxml_putc` writes for a byte, `content` what the default handler of the parser has
been given when an element with this content ends, nothing where the content is not
well-formed. Markup is written as references, `<` in any case, and of content without
tags the default handler is given the characters as they stand in the document. -/
structure Xml where
  putc : UInt8 → Bytes
  content : Bytes → Option Bytes
  putc_eq : ∀ c, putc c = [c] ∨
    c ∈ ([60, 62, 38, 34, 39] : Bytes) ∧ ∃ name, putc c = 38 :: (name ++ [59]) ∧ ∀ b ∈ name, isAlnum b ∨ b = 35
  putc_lt : putc 60 ≠ [60]
  content_raw : ∀ b t, 60 ∉ b → content b = some t → t = b

/-- What `kxml_puts` writes. -/
def Xml.puts (X : Xml) (b : Bytes) : Bytes := b.flatMap X.putc

/-- The text of the `href` that `propfind_resource` writes for a resource of a collection. -/
def resourceHref (r : Kreq) (st : State) (c : Coln) (url : Bytes) : Bytes :=
  r.pname ++ SLASH :: (st.rprncpl.name ++ SLASH :: (c.url ++ SLASH :: url))

/-- The path of a request for the resource. -/
def resourcePath (st : State) (c : Coln) (url : Bytes) : Bytes :=
  SLASH :: (st.rprncpl.name ++ SLASH :: (c.url ++ SLASH :: url))

/-! ## The CalDAV parser -/

/-- The decoding of `parseclose`, where a `%` must be followed by a pair of alphanumeric
characters. -/
def hrefDecode : Bytes → Option Bytes
  | [] => some []
  | c :: cs =>
    if c = 43 then (hrefDecode cs).map (SP :: ·)
    else if c ≠ 37 then (hrefDecode cs).map (c :: ·)
    else
      match cs with
      | a :: b :: ds =>
        if isAlnum a && isAlnum b then (hrefDecode ds).map ((parsehex a <<< 4 ||| parsehex b) :: ·) else none
      | _ => none

/-- The addresses of the request once an `href` element with this text has ended;
nothing where it is badly encoded, which ends the parse. -/
def parsecloseHref (hrefs : List Bytes) (buf : Bytes) : Option (List Bytes) :=
  if buf = [] then some hrefs else (hrefDecode (cstr buf)).map fun h => hrefs ++ [cstr h]

/-- The addresses of a request with one `href`, in which a text stands as it was written. -/
def Xml.hrefs (X : Xml) (text : Bytes) : Option (List Bytes) := (X.content (X.puts text)).bind (parsecloseHref [])

/-! ## Decoding -/

theorem httpDecode_length (b : Bytes) : (httpDecode b).length ≤ b.length := by
  fun_induction httpDecode b with
  | case1 => rfl
  | case2 cs ih => simpa using ih
  | case3 c cs hplus hpct ih => simpa using ih
  | case4 c hplus hpct a b ds hhex ih =>
    simp only [List.length_cons]
    omega
  | case5 c hplus hpct a b ds hhex ih => simpa using ih
  | case6 c hplus hpct cs hshort ih => simpa using ih

theorem httpDecode_plain {b : Bytes} (hplus : 43 ∉ b) (hpct : 37 ∉ b) : httpDecode b = b := by
  induction b with
  | nil => rfl
  | cons c cs ih =>
    simp only [List.mem_cons, not_or] at hplus hpct
    unfold httpDecode
    rw [if_neg (Ne.symm hplus.1), if_pos (Ne.symm hpct.1), ih hplus.2 hpct.2]

/-- A decoded text that is the text itself has no `+` and no encoding in it. -/
theorem not_plus_of_httpDecode {b : Bytes} (h : httpDecode b = b) : 43 ∉ b := by
  fun_induction httpDecode b with
  | case1 => simp
  | case2 cs ih => exact absurd (List.cons.inj h).1 (by decide)
  | case3 c cs hplus hpct ih => simpa [Ne.symm hplus] using ih (List.cons.inj h).2
  | case4 c hplus hpct a b ds hhex ih =>
    have hlen := congrArg List.length h
    have hds := httpDecode_length ds
    simp only [List.length_cons] at hlen
    omega
  | case5 c hplus hpct a b ds hhex ih => simpa [Ne.symm hplus] using ih (List.cons.inj h).2
  | case6 c hplus hpct cs hshort ih => simpa [Ne.symm hplus] using ih (List.cons.inj h).2

/-- A C string that is left of the decoding of itself has been decoded to itself. -/
theorem httpDecode_eq_of_cstr {b : Bytes} (h : cstr (httpDecode b) = b) : httpDecode b = b := by
  have hpre : cstr (httpDecode b) <+: httpDecode b := List.takeWhile_prefix _
  rw [h] at hpre
  exact (hpre.eq_of_length_le (httpDecode_length b)).symm

/-- What either decoder makes of a byte that is not a `%`. -/
def unplus (c : UInt8) : UInt8 := if c = 43 then SP else c

theorem hrefDecode_cons {c : UInt8} (h : c ≠ 37) (cs : Bytes) :
    hrefDecode (c :: cs) = (hrefDecode cs).map (unplus c :: ·) := by
  conv_lhs => unfold hrefDecode
  by_cases hc : c = 43
  · rw [if_pos hc]
    simp [unplus, hc]
  · rw [if_neg hc, if_pos h]
    simp [unplus, hc]

theorem hrefDecode_append {a : Bytes} (h : 37 ∉ a) (b : Bytes) :
    hrefDecode (a ++ b) = (hrefDecode b).map (a.map unplus ++ ·) := by
  induction a with
  | nil => simp
  | cons c a ih =>
    simp only [List.mem_cons, not_or] at h
    rw [List.cons_append, hrefDecode_cons (Ne.symm h.1), ih h.2, Option.map_map]
    rfl

theorem hrefDecode_plain {a : Bytes} (h : 37 ∉ a) : hrefDecode a = some (a.map unplus) := by
  have happ := hrefDecode_append h []
  rw [List.append_nil] at happ
  rw [happ]
  simp [hrefDecode]

theorem map_unplus {a : Bytes} : a.map unplus = a ↔ 43 ∉ a := by
  induction a with
  | nil => simp
  | cons c a ih =>
    rw [List.map_cons, List.cons.injEq, ih, List.mem_cons, not_or]
    refine and_congr_left fun _ => ?_
    unfold unplus
    constructor
    · rintro h rfl
      exact absurd h (by decide)
    · intro h
      rw [if_neg (Ne.symm h)]

theorem not_mem_unplus {a : Bytes} {y : UInt8} (hy : y ≠ SP) (h : y ∉ a) : y ∉ a.map unplus := by
  intro hm
  obtain ⟨c, hc, rfl⟩ := List.mem_map.mp hm
  unfold unplus at hy h
  split at hy
  · exact hy rfl
  next hplus =>
    rw [if_neg hplus] at h
    exact h hc

/-! ## Paths -/

theorem httpPaths_join {p w : Bytes} (hp : SLASH ∉ p) (q : Bytes) (hw : SLASH ∉ w) :
    httpPaths (SLASH :: (p ++ SLASH :: (q ++ SLASH :: w))) = some (p, q, cstr (httpDecode w)) := by
  rw [httpPaths, if_neg (by simp), strchr_append hp]
  dsimp only
  rw [strrchr_eq_some.mpr ⟨rfl, hw⟩]

/-- A path that is split where it was joined has a last segment without slashes. -/
theorem httpPaths_split {p q w a : Bytes} (hp : SLASH ∉ p)
    (h : httpPaths (SLASH :: (p ++ SLASH :: (q ++ SLASH :: w))) = some (p, q, a)) : SLASH ∉ w ∧ cstr (httpDecode w) = a := by
  rw [httpPaths, if_neg (by simp), strchr_append hp] at h
  dsimp only at h
  cases hlast : strrchr SLASH (q ++ SLASH :: w) with
  | none =>
    rw [hlast] at h
    cases h
    have hmem : SLASH ∈ ([] : Bytes) ++ SLASH :: w := by simp
    have hnot := strchr_eq_none.mp (Option.map_eq_none_iff.mp hlast)
    exact absurd (List.mem_reverse.mpr hmem) hnot
  | some r =>
    obtain ⟨b, v⟩ := r
    rw [hlast] at h
    cases h
    obtain ⟨heq, hv⟩ := strrchr_eq_some.mp hlast
    have hwv : w = v := by simpa using heq
    exact ⟨hwv ▸ hv, by rw [hwv]⟩

/-! ## References -/

namespace Xml
variable (X : Xml)

/-- The byte is not part of a reference, nor written as one. -/
def apart (y : UInt8) : Bool := !isAlnum y && !([35, 38, 59, 60, 62, 34, 39] : Bytes).contains y

theorem count_putc {y : UInt8} (hy : apart y) (c : UInt8) : (X.putc c).count y = [c].count y := by
  rcases X.putc_eq c with h | ⟨hc, name, h, hname⟩
  · rw [h]
  · have hin : y ∉ X.putc c := by
      rw [h]
      intro hm
      simp only [List.mem_cons, List.mem_append, List.not_mem_nil, or_false] at hm
      rcases hm with rfl | hm | rfl
      · exact absurd hy (by decide)
      · rcases hname y hm with ha | rfl
        · simp [apart, ha] at hy
        · exact absurd hy (by decide)
      · exact absurd hy (by decide)
    have hne : y ∉ [c] := by
      intro hm
      rw [List.mem_singleton] at hm
      subst hm
      simp only [List.mem_cons, List.not_mem_nil, or_false] at hc
      rcases hc with rfl | rfl | rfl | rfl | rfl <;> exact absurd hy (by decide)
    rw [List.count_eq_zero.mpr hin, List.count_eq_zero.mpr hne]

theorem count_puts {y : UInt8} (hy : apart y) (b : Bytes) : (X.puts b).count y = b.count y := by
  induction b with
  | nil => rfl
  | cons c b ih =>
    have happ : X.puts (c :: b) = X.putc c ++ X.puts b := rfl
    rw [happ, List.count_append, count_putc X hy, ih, ← List.count_append]
    rfl

theorem mem_puts {y : UInt8} (hy : apart y) {b : Bytes} : y ∈ X.puts b ↔ y ∈ b := by
  rw [← List.count_pos_iff, ← List.count_pos_iff, count_puts X hy]

@[simp] theorem puts_nil : X.puts [] = [] := rfl
@[simp] theorem puts_cons (c : UInt8) (b : Bytes) : X.puts (c :: b) = X.putc c ++ X.puts b := rfl
@[simp] theorem puts_append (a b : Bytes) : X.puts (a ++ b) = X.puts a ++ X.puts b := List.flatMap_append

theorem putc_of_apart {y : UInt8} (hy : apart y) : X.putc y = [y] := by
  rcases X.putc_eq y with h | ⟨hc, -⟩
  · exact h
  · simp only [List.mem_cons, List.not_mem_nil, or_false] at hc
    rcases hc with rfl | rfl | rfl | rfl | rfl <;> exact absurd hy (by decide)

/-- No tag is written. -/
theorem lt_not_mem_puts (b : Bytes) : 60 ∉ X.puts b := by
  intro hlt
  obtain ⟨c, -, hc⟩ := List.mem_flatMap.mp hlt
  rcases X.putc_eq c with h | ⟨-, name, h, hname⟩
  · rw [h, List.mem_singleton] at hc
    rw [← hc] at h
    exact X.putc_lt h
  · rw [h] at hc
    have hmem : (60 : UInt8) ∈ name := by simpa using hc
    exact absurd (hname 60 hmem) (by decide)

theorem puts_self {b : Bytes} (h : ∀ c ∈ b, X.putc c = [c]) : X.puts b = b := by
  induction b with
  | nil => rfl
  | cons c b ih =>
    rw [List.forall_mem_cons] at h
    rw [puts_cons, h.1, ih h.2]
    rfl

theorem length_le_puts (b : Bytes) : b.length ≤ (X.puts b).length := by
  induction b with
  | nil => rfl
  | cons c b ih =>
    rw [puts_cons, List.length_append, List.length_cons]
    rcases X.putc_eq c with h | ⟨-, name, h, -⟩
    · rw [h, List.length_singleton]
      omega
    · rw [h, List.length_cons]
      omega

/-- A text that is written no longer than it is is written as it is. -/
theorem putc_of_length {b : Bytes} (h : (X.puts b).length ≤ b.length) : ∀ c ∈ b, X.putc c = [c] := by
  induction b with
  | nil => simp
  | cons c b ih =>
    rw [puts_cons, List.length_append, List.length_cons] at h
    have hle := X.length_le_puts b
    rw [List.forall_mem_cons]
    rcases X.putc_eq c with hc | ⟨-, name, hc, -⟩
    · rw [hc, List.length_singleton] at h
      exact ⟨hc, ih (by omega)⟩
    · rw [hc] at h
      simp only [List.length_cons, List.length_append, List.length_nil] at h
      omega

/-- An alphanumeric character at the front stands for itself. -/
theorem puts_eq_cons {b t : Bytes} {a : UInt8} (ha : isAlnum a) (h : X.puts b = a :: t) : ∃ b', b = a :: b' ∧ X.puts b' = t := by
  cases b with
  | nil => cases h
  | cons c b =>
    rw [puts_cons] at h
    rcases X.putc_eq c with hc | ⟨-, name, hc, -⟩
    · rw [hc] at h
      cases h
      exact ⟨b, rfl, rfl⟩
    · rw [hc] at h
      cases h
      exact absurd ha (by decide)

theorem alnum_of_hrefDecode {b : Bytes} (h : (hrefDecode (37 :: X.puts b)).isSome) :
    ∃ x y b', b = x :: y :: b' ∧ isAlnum x && isAlnum y := by
  unfold hrefDecode at h
  rw [if_neg (by decide), if_neg (by decide)] at h
  split at h
  next x y ds heq =>
    split at h
    next hhex =>
      obtain ⟨hx, hy⟩ := Bool.and_eq_true_iff.mp hhex
      obtain ⟨b₁, rfl, hb₁⟩ := X.puts_eq_cons hx heq
      obtain ⟨b₂, rfl, -⟩ := X.puts_eq_cons hy hb₁
      exact ⟨x, y, b₂, rfl, hhex⟩
    · cases h
  · cases h

/-- What one decoder takes and the other leaves alone has no encodings in it. -/
theorem not_percent {b : Bytes} (hself : httpDecode b = b) (h : (hrefDecode (X.puts b)).isSome) : 37 ∉ b := by
  have percent {cs : Bytes} (h : (hrefDecode (X.puts (37 :: cs))).isSome) :
      ∃ x y ds, cs = x :: y :: ds ∧ isAlnum x && isAlnum y := by
    rw [puts_cons, X.putc_of_apart (by decide)] at h
    exact X.alnum_of_hrefDecode h
  fun_induction httpDecode b with
  | case1 => simp
  | case2 cs ih => exact absurd (List.cons.inj hself).1 (by decide)
  | case3 c cs hplus hpct ih =>
    have hc : 37 ∉ X.putc c := by
      rw [← List.count_eq_zero, X.count_putc (by decide), List.count_eq_zero]
      simpa using Ne.symm hpct
    rw [puts_cons, hrefDecode_append hc, Option.isSome_map] at h
    simpa [Ne.symm hpct] using ih (List.cons.inj hself).2 h
  | case4 c hplus hpct x y ds hhex ih =>
    have hlen := congrArg List.length hself
    have hds := httpDecode_length ds
    simp only [List.length_cons] at hlen
    omega
  | case5 c hplus hpct x y ds hhex ih =>
    obtain rfl : c = 37 := by simpa using hpct
    obtain ⟨x', y', ds', heq, hhex'⟩ := percent h
    cases heq
    exact absurd hhex' hhex
  | case6 c hplus hpct cs hshort ih =>
    obtain rfl : c = 37 := by simpa using hpct
    obtain ⟨x, y, ds, heq, -⟩ := percent h
    exact absurd heq (hshort x y ds)

end Xml

/-! ## The lookup -/

/-- The two loads are one only where the names and the collections are. -/
theorem loadResource_inj {C : Libc} {url url' : Bytes} {colid colid' : Int}
    (h : loadResource C url colid = loadResource C url' colid') : url = url' ∧ colid = colid' := by
  let db : Db := { Db.empty with resource := [⟨colid, url, [], [], 1⟩] }
  have loaded (u : Bytes) (id : Int) : ((loadResource C u id).run (fun _ => Choice.calm) db).1 = resourceLoaded C u id false db := by
    rw [loadResource_eq, Prog.run_atom, query, if_pos (Choice.quiet_calm 4)]
    rfl
  have hrun := congrArg (fun p => (Prog.run p (fun _ => Choice.calm) db).1) h
  rw [loaded, loaded] at hrun
  have hget : Sql.resGet colid url db = some ⟨colid, url, [], [], 1⟩ := by simp [Sql.resGet, db]
  have hfound : resourceLoaded C url colid false db ≠ .absent := by
    unfold resourceLoaded
    rw [hget]
    dsimp only
    split
    · intro habsent
      cases habsent
    · intro habsent
      cases habsent
  have hget' : Sql.resGet colid' url' db ≠ none := by
    intro hnone
    rw [hrun] at hfound
    unfold resourceLoaded at hfound
    rw [hnone] at hfound
    exact hfound rfl
  simp only [Sql.resGet, db, ne_eq, List.find?_eq_none, List.mem_singleton, forall_eq, decide_eq_true_eq, not_not] at hget'
  exact ⟨hget'.2, hget'.1⟩

theorem loadResource_ne_ret {C : Libc} {url : Bytes} {colid : Int} {a : Loaded Res} :
    (Prog.ret a : DbProg (Loaded Res)) ≠ loadResource C url colid := nofun

section
variable (C : Libc) (X : Xml) (r : Kreq) (st : State) (c : Coln) (url : Bytes)

/-- The `href` of a resource, sent back as it was written, is looked up as that resource
of its collection, and the path of the resource is split into its parts. -/
structure ComesBack : Prop where
  href : ∃ href, X.hrefs (resourceHref r st c url) = some [href] ∧
    propfindResourceLookup C r st href = loadResource C url c.id
  path : httpPaths (resourcePath st c url) = some (st.rprncpl.name, c.url, url)

/-- Nothing in the `href` means anything to the decoders, the splitter and XML. -/
structure Verbatim : Prop where
  name : 43 ∉ st.rprncpl.name
  coln : 43 ∉ c.url
  plus : 43 ∉ url
  percent : 37 ∉ url
  slash : SLASH ∉ url
  markup : ∀ b ∈ r.pname ++ url, X.putc b = [b]
  wellFormed : (X.content (resourceHref r st c url)).isSome

theorem httpSafeString_mem {cp : Bytes} (h : httpSafeString cp) {b : UInt8} (hb : b ∈ cp) :
    isAlnum b || b ∈ ascii ".-_~!$()*+,;=:@" := by
  unfold httpSafeString at h
  rw [Bool.and_eq_true, List.all_eq_true] at h
  exact h.2 b hb

/-- A safe name has no slash, no `%` and no NUL in it, and is no markup. -/
theorem httpSafeString_not_mem {cp : Bytes} (h : httpSafeString cp) {b : UInt8}
    (hb : (isAlnum b || b ∈ ascii ".-_~!$()*+,;=:@") = false) : b ∉ cp := by
  intro hm
  have hsafe := httpSafeString_mem h hm
  rw [hb] at hsafe
  exact Bool.false_ne_true hsafe

theorem Xml.puts_safe {cp : Bytes} (h : httpSafeString cp) : X.puts cp = cp := by
  refine X.puts_self fun b hb => ?_
  rcases X.putc_eq b with hself | ⟨hmarkup, -⟩
  · exact hself
  · simp only [List.mem_cons, List.not_mem_nil, or_false] at hmarkup
    have hsafe := httpSafeString_not_mem (b := b) h
    rcases hmarkup with rfl | rfl | rfl | rfl | rfl <;> exact absurd hb (hsafe (by decide))

end

/-- The collection is one of the requested principal, under a number and a name of its
own; names are safe, and the script's name is a C string that needs no encoding. -/
structure Addressed (r : Kreq) (st : State) (c : Coln) : Prop where
  pname : NUL ∉ r.pname ∧ 37 ∉ r.pname ∧ 43 ∉ r.pname
  name : httpSafeString st.rprncpl.name
  coln : httpSafeString c.url
  mem : c ∈ st.rprncpl.cols
  named : ∀ x ∈ st.rprncpl.cols, x.url = c.url → x = c
  numbered : ∀ x ∈ st.rprncpl.cols, x.id = c.id → x = c

section
variable {C : Libc} {X : Xml} {r : Kreq} {st : State} {c : Coln} {url : Bytes}

theorem propfindResourceLookup_at {n w : Bytes} (hn : SLASH ∉ n) (q : Bytes) (hw : SLASH ∉ w) :
    propfindResourceLookup C r st (r.pname ++ SLASH :: (n ++ SLASH :: (q ++ SLASH :: w))) =
      if st.rprncpl.name ≠ n then Prog.ret .absent
      else match st.rprncpl.cols.find? fun x => x.url = q with
        | none => Prog.ret .absent
        | some x => loadResource C (cstr (httpDecode w)) x.id := by
  unfold propfindResourceLookup
  rw [if_neg (not_not.mpr (List.prefix_append _ _)), List.drop_left, httpPaths_join hn q hw]
  rfl

theorem Addressed.find (h : Addressed r st c) : (st.rprncpl.cols.find? fun x => x.url = c.url) = some c := by
  cases hfind : st.rprncpl.cols.find? fun x => x.url = c.url with
  | none => simpa using List.find?_eq_none.mp hfind c h.mem
  | some x => rw [h.named x (List.mem_of_find?_eq_some hfind) (by simpa using List.find?_some hfind)]

theorem Addressed.slash (h : Addressed r st c) : SLASH ∉ st.rprncpl.name ∧ SLASH ∉ c.url :=
  ⟨httpSafeString_not_mem h.name (by decide), httpSafeString_not_mem h.coln (by decide)⟩

theorem Addressed.puts (h : Addressed r st c) (X : Xml) (url : Bytes) : X.puts (resourceHref r st c url) =
    X.puts r.pname ++ SLASH :: (st.rprncpl.name ++ SLASH :: (c.url ++ SLASH :: X.puts url)) := by
  have hslash : X.putc SLASH = [SLASH] := X.putc_of_apart (by decide)
  rw [resourceHref, X.puts_append, X.puts_cons, X.puts_append, X.puts_cons, X.puts_append, X.puts_cons, X.puts_safe h.name,
    X.puts_safe h.coln, hslash]
  rfl

/-- What the CalDAV parser makes of an `href` as it was written. -/
theorem Addressed.hrefDecode (h : Addressed r st c) (X : Xml) (url : Bytes) :
    hrefDecode (X.puts (resourceHref r st c url)) = (Kcaldav.hrefDecode (X.puts url)).map fun w =>
      X.puts r.pname ++ SLASH :: (st.rprncpl.name.map unplus ++ SLASH :: (c.url.map unplus ++ SLASH :: w)) := by
  have hpname : 37 ∉ X.puts r.pname := mt (X.mem_puts (by decide)).mp h.pname.2.1
  have hplus : (X.puts r.pname).map unplus = X.puts r.pname := map_unplus.mpr (mt (X.mem_puts (by decide)).mp h.pname.2.2)
  have hname : 37 ∉ st.rprncpl.name := httpSafeString_not_mem h.name (by decide)
  have hcoln : 37 ∉ c.url := httpSafeString_not_mem h.coln (by decide)
  have hslash : unplus SLASH = SLASH := by decide
  rw [h.puts, hrefDecode_append hpname, hrefDecode_cons (by decide), hrefDecode_append hname, hrefDecode_cons (by decide),
    hrefDecode_append hcoln, hrefDecode_cons (by decide), hplus, hslash]
  simp [Option.map_map, Function.comp_def]

theorem Addressed.not_nul (h : Addressed r st c) (hurl : NUL ∉ url) : NUL ∉ resourceHref r st c url := by
  have hname : NUL ∉ st.rprncpl.name := httpSafeString_not_mem h.name (by decide)
  have hcoln : NUL ∉ c.url := httpSafeString_not_mem h.coln (by decide)
  have hslash : NUL ≠ SLASH := by decide
  simp [resourceHref, h.pname.1, hname, hcoln, hurl, hslash]

/-- What is sent back as it was written reaches the handler as the parser decodes it. -/
theorem Addressed.hrefs_eq (h : Addressed r st c) (hurl : NUL ∉ url) {hs : List Bytes} :
    X.hrefs (resourceHref r st c url) = some hs ↔
      (X.content (X.puts (resourceHref r st c url))).isSome ∧ ∃ w, Kcaldav.hrefDecode (X.puts url) = some w ∧
        hs = [cstr (X.puts r.pname ++ SLASH :: (st.rprncpl.name.map unplus ++ SLASH :: (c.url.map unplus ++ SLASH :: w)))] := by
  have hnul : NUL ∉ X.puts (resourceHref r st c url) := mt (X.mem_puts (by decide)).mp (h.not_nul hurl)
  have hne : X.puts (resourceHref r st c url) ≠ [] := by
    rw [h.puts]
    simp
  have hclose : parsecloseHref [] (X.puts (resourceHref r st c url)) = some hs ↔ ∃ w, Kcaldav.hrefDecode (X.puts url) = some w ∧
      hs = [cstr (X.puts r.pname ++ SLASH :: (st.rprncpl.name.map unplus ++ SLASH :: (c.url.map unplus ++ SLASH :: w)))] := by
    rw [parsecloseHref, if_neg hne, cstr_eq_self hnul, h.hrefDecode, Option.map_map, Option.map_eq_some_iff]
    simp [eq_comm]
  unfold Xml.hrefs
  cases hcontent : X.content (X.puts (resourceHref r st c url)) with
  | none => simp
  | some t =>
    rw [X.content_raw _ _ (X.lt_not_mem_puts _) hcontent]
    simp [hclose]

theorem Verbatim.comesBack (h : Addressed r st c) (hurl : NUL ∉ url) (hv : Verbatim X r st c url) : ComesBack C X r st c url := by
  obtain ⟨hname, hcoln, hplus, hpct, hslash, hmarkup, hwell⟩ := hv
  have hpname : X.puts r.pname = r.pname := X.puts_self fun b hb => hmarkup b (List.mem_append_left _ hb)
  have hself : X.puts url = url := X.puts_self fun b hb => hmarkup b (List.mem_append_right _ hb)
  have hdecode : cstr (httpDecode url) = url := by rw [httpDecode_plain hplus hpct, cstr_eq_self hurl]
  refine ⟨⟨resourceHref r st c url, (h.hrefs_eq hurl).mpr ⟨?_, url, ?_, ?_⟩, ?_⟩, ?_⟩
  · rw [h.puts, hpname, hself]
    exact hwell
  · rw [hself, hrefDecode_plain hpct, map_unplus.mpr hplus]
  · rw [hpname, map_unplus.mpr hname, map_unplus.mpr hcoln]
    exact congrArg (fun b => [b]) (cstr_eq_self (h.not_nul hurl)).symm
  · rw [resourceHref, propfindResourceLookup_at h.slash.1 _ hslash, if_neg (not_not.mpr rfl), h.find, hdecode]
  · rw [resourcePath, httpPaths_join h.slash.1 _ hslash, hdecode]

/-- A script's name that is written longer than it is leaves no slash to go on with. -/
theorem markup_of_lookup {rest : Bytes} {colid : Int}
    (h : propfindResourceLookup C r st (X.puts r.pname ++ SLASH :: rest) = loadResource C url colid) :
    ∀ b ∈ r.pname, X.putc b = [b] := by
  unfold propfindResourceLookup at h
  split at h
  · exact absurd h loadResource_ne_ret
  next hpre =>
    obtain ⟨t, ht⟩ := List.prefix_of_prefix_length_le (not_not.mp hpre) (List.prefix_append _ _) (X.length_le_puts r.pname)
    cases t with
    | nil =>
      rw [List.append_nil] at ht
      exact X.putc_of_length (by rw [← ht])
    | cons a t =>
      have hcount := X.count_puts (y := SLASH) (by decide) r.pname
      rw [← ht, List.count_append, List.count_cons] at hcount
      have ha : a ≠ SLASH := by
        rintro rfl
        simp at hcount
      rw [← ht, List.append_assoc, List.drop_left, List.cons_append, httpPaths, if_pos ha] at h
      exact absurd h loadResource_ne_ret

theorem ComesBack.verbatim (h : Addressed r st c) (hurl : NUL ∉ url) (hback : ComesBack C X r st c url) :
    Verbatim X r st c url := by
  obtain ⟨⟨href, hhrefs, hlookup⟩, hpath⟩ := hback
  obtain ⟨hslash, hcstr⟩ := httpPaths_split h.slash.1 hpath
  have hself := httpDecode_eq_of_cstr hcstr
  have hplus := not_plus_of_httpDecode hself
  obtain ⟨hwell, w, hw, heq⟩ := (h.hrefs_eq hurl).mp hhrefs
  have hpct : 37 ∉ url := X.not_percent hself (by rw [hw]; rfl)
  have apart {y : UInt8} (hy : Xml.apart y) (h : y ∉ url) : y ∉ X.puts url := mt (X.mem_puts hy).mp h
  rw [hrefDecode_plain (apart (by decide) hpct), map_unplus.mpr (apart (by decide) hplus)] at hw
  cases hw
  have hnul : NUL ∉ X.puts r.pname ++
      SLASH :: (st.rprncpl.name.map unplus ++ SLASH :: (c.url.map unplus ++ SLASH :: X.puts url)) := by
    have hpname : NUL ∉ X.puts r.pname := mt (X.mem_puts (by decide)).mp h.pname.1
    have hname : NUL ∉ st.rprncpl.name.map unplus := not_mem_unplus (by decide) (httpSafeString_not_mem h.name (by decide))
    have hcoln : NUL ∉ c.url.map unplus := not_mem_unplus (by decide) (httpSafeString_not_mem h.coln (by decide))
    have hne : NUL ≠ SLASH := by decide
    simp only [List.mem_append, List.mem_cons, not_or]
    exact ⟨hpname, hne, hname, hne, hcoln, hne, apart (by decide) hurl⟩
  rw [cstr_eq_self hnul] at heq
  cases heq
  have hpname := markup_of_lookup hlookup
  have hnslash : SLASH ∉ st.rprncpl.name.map unplus := not_mem_unplus (by decide) h.slash.1
  rw [X.puts_self hpname, propfindResourceLookup_at hnslash _ (apart (by decide) hslash),
    httpDecode_plain (apart (by decide) hplus) (apart (by decide) hpct), cstr_eq_self (apart (by decide) hurl)] at hlookup
  split at hlookup
  · exact absurd hlookup loadResource_ne_ret
  next hname =>
    split at hlookup
    · exact absurd hlookup loadResource_ne_ret
    next x hx =>
      obtain ⟨hurls, hids⟩ := loadResource_inj hlookup
      obtain rfl := h.numbered x (List.mem_of_find?_eq_some hx) hids
      have hcoln : x.url = x.url.map unplus := by simpa using List.find?_some hx
      have hmarkup := X.putc_of_length (b := url) (by rw [hurls])
      refine ⟨map_unplus.mp (not_not.mp hname).symm, map_unplus.mp hcoln.symm, hplus, hpct, hslash, fun b hb => ?_, ?_⟩
      · rcases List.mem_append.mp hb with hb | hb
        · exact hpname b hb
        · exact hmarkup b hb
      · rw [h.puts, X.puts_self hpname, hurls] at hwell
        exact hwell

end

/-- The tool of the administrator admits the names the server does. -/
theorem checkSafeString_eq (cp : Bytes) : checkSafeString cp = httpSafeString cp := rfl

/-- Of what is in an imported name only a `+` can stand in the way. -/
theorem verbatim_iff_of_safe {X : Xml} {r : Kreq} {st : State} {c : Coln} {url : Bytes} (hurl : checkSafeString url) :
    Verbatim X r st c url ↔ 43 ∉ st.rprncpl.name ∧ 43 ∉ c.url ∧ 43 ∉ url ∧ (∀ b ∈ r.pname, X.putc b = [b]) ∧
      (X.content (resourceHref r st c url)).isSome := by
  rw [checkSafeString_eq] at hurl
  have hself := X.puts_safe hurl
  constructor
  · rintro ⟨hname, hcoln, hplus, -, -, hmarkup, hwell⟩
    exact ⟨hname, hcoln, hplus, fun b hb => hmarkup b (List.mem_append_left _ hb), hwell⟩
  · rintro ⟨hname, hcoln, hplus, hpname, hwell⟩
    refine ⟨hname, hcoln, hplus, httpSafeString_not_mem hurl (by decide), httpSafeString_not_mem hurl (by decide), ?_, hwell⟩
    intro b hb
    rcases List.mem_append.mp hb with hb | hb
    · exact hpname b hb
    · exact X.putc_of_length (by rw [hself]) b hb

/-- An `href` comes back to its resource exactly where it goes through as it is. -/
theorem href_comesBack_iff (C : Libc) (X : Xml) (r : Kreq) (st : State) (c : Coln) (url : Bytes)
    (h : Addressed r st c) (hurl : NUL ∉ url) : ComesBack C X r st c url ↔ Verbatim X r st c url :=
  ⟨fun hback => hback.verbatim h hurl, fun hv => hv.comesBack h hurl⟩

/-- The libraries on printable ASCII characters. -/
def Xml.printable : Xml where
  putc c :=
    if c = 60 then ascii "&lt;" else if c = 62 then ascii "&gt;" else if c = 38 then ascii "&amp;"
    else if c = 34 then ascii "&quot;" else [c]
  content b := if b.all fun c => SP ≤ c && c < 127 && c ≠ 60 && c ≠ 38 then some b else none
  putc_eq c := by
    split
    next h => exact .inr ⟨by simp [h], ascii "lt", rfl, by decide +kernel⟩
    split
    next h => exact .inr ⟨by simp [h], ascii "gt", rfl, by decide +kernel⟩
    split
    next h => exact .inr ⟨by simp [h], ascii "amp", rfl, by decide +kernel⟩
    split
    next h => exact .inr ⟨by simp [h], ascii "quot", rfl, by decide +kernel⟩
    · exact .inl rfl
  putc_lt := by decide
  content_raw b t _ h := by
    split at h
    · exact (Option.some.inj h).symm
    · cases h

/-- A report on the calendar of `joe`. -/
def reportAtEvent : Kreq := { Kreq.bare .report (ascii "/joe/calendar/") with pname := ascii "/kcaldav" }

theorem addressed_atEvent : Addressed reportAtEvent .atEvent (Sql.newCol 1 (ascii "calendar") 1).coln where
  pname := by decide
  name := by decide
  coln := by decide
  mem := by decide
  named := by decide
  numbered := by decide

theorem href_comesBack_iff_event :
    ComesBack .utc .printable reportAtEvent .atEvent (Sql.newCol 1 (ascii "calendar") 1).coln (ascii "a.ics") := by
  refine (href_comesBack_iff .utc .printable reportAtEvent .atEvent _ (ascii "a.ics") addressed_atEvent (by decide)).mpr ?_
  exact ⟨by decide +kernel, by decide +kernel, by decide +kernel, by decide +kernel, by decide +kernel, by decide +kernel, by decide +kernel⟩

/-- A `+` in a name that `kcaldav.passwd` takes comes back as a space, by either way. -/
theorem href_not_comesBack : checkSafeString (ascii "a+b.ics") ∧
    Xml.printable.hrefs (resourceHref reportAtEvent .atEvent (Sql.newCol 1 (ascii "calendar") 1).coln (ascii "a+b.ics")) =
      some [ascii "/kcaldav/joe/calendar/a b.ics"] ∧
    httpPaths (resourcePath .atEvent (Sql.newCol 1 (ascii "calendar") 1).coln (ascii "a+b.ics")) =
      some (ascii "joe", ascii "calendar", ascii "a b.ics") ∧
    ¬ComesBack .utc .printable reportAtEvent .atEvent (Sql.newCol 1 (ascii "calendar") 1).coln (ascii "a+b.ics") := by
  have hpath : httpPaths (resourcePath .atEvent (Sql.newCol 1 (ascii "calendar") 1).coln (ascii "a+b.ics")) =
      some (ascii "joe", ascii "calendar", ascii "a b.ics") := by decide +kernel
  refine ⟨by decide, by decide +kernel, hpath, fun hback => ?_⟩
  have hsplit := hback.path
  rw [hpath] at hsplit
  exact absurd hsplit (by decide +kernel)

end Kcaldav
