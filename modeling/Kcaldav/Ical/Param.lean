import Kcaldav.Ical.Run
import Kcaldav.Ical.Folding

/-! # Parameters

Content lines with parameters, quoted or not, against the line splitter, and the scan
for a time zone in the parameters of a date. The splitter knows of no quotes. The scan
strips them, looking at two bytes that are one when the parameter is short.
-/
namespace Kcaldav
open CString

/-! ## Content lines -/

/-- The value of a parameter: unquoted text or a quoted string. -/
inductive ParamText
  | plain (t : Bytes) (h : 34 ∉ t ∧ 44 ∉ t ∧ 58 ∉ t ∧ 59 ∉ t) (nul : NUL ∉ t)
  | quoted (t : Bytes) (h : 34 ∉ t) (nul : NUL ∉ t)

def ParamText.text : ParamText → Bytes
  | plain t _ _ => t
  | quoted t _ _ => 34 :: (t ++ [34])

structure LineParam where
  name : Bytes
  value : ParamText
  colon : 58 ∉ name
  semi : 59 ∉ name
  nul : NUL ∉ name

def LineParam.text (q : LineParam) : Bytes := q.name ++ 61 :: q.value.text

/-- A content line: a name, parameters and a value. -/
structure ContentLine where
  name : Bytes
  params : List LineParam
  value : Bytes
  colon : 58 ∉ name
  semi : 59 ∉ name
  nul : NUL ∉ name ∧ NUL ∉ value

namespace ContentLine

/-- What stands between the name and the first colon outside quotes. -/
def paramsText (c : ContentLine) : Bytes := c.params.flatMap fun q => 59 :: q.text

def text (c : ContentLine) : Bytes := c.name ++ (c.paramsText ++ 58 :: c.value)

def node (c : ContentLine) : IcalNode where
  name := c.name
  param := if c.params = [] then none else some ([59].intercalate (c.params.map LineParam.text))
  val := c.value

theorem paramsText_eq (c : ContentLine) : c.paramsText = paramText c.node.param := by
  unfold paramsText node
  have each (q : LineParam) (qs : List LineParam) : (q :: qs).flatMap (fun q => 59 :: q.text) =
      59 :: [59].intercalate ((q :: qs).map LineParam.text) := by
    induction qs generalizing q with
    | nil => simp
    | cons r qs ih =>
      rw [List.flatMap_cons, ih, List.map_cons, List.map_cons, List.map_cons, List.intercalate_cons_cons]
      simp
  cases hq : c.params with
  | nil => rfl
  | cons q qs => exact each q qs

theorem colon_mem_paramsText {c : ContentLine} : 58 ∈ c.paramsText ↔ ∃ q ∈ c.params, 58 ∈ q.value.text := by
  simp only [paramsText, List.mem_flatMap, LineParam.text, List.mem_cons, List.mem_append]
  refine exists_congr fun q => and_congr_right fun _ => ?_
  simp [q.colon]

/-- The line is split into its parts where no parameter value has a colon in it. -/
theorem splitLine_iff (c : ContentLine) : splitLine c.text = some c.node ↔ ∀ q ∈ c.params, 58 ∉ q.value.text := by
  have hiff : (∀ q ∈ c.params, 58 ∉ q.value.text) ↔ 58 ∉ c.paramsText := by
    rw [colon_mem_paramsText]
    push Not
    rfl
  rw [hiff]
  constructor
  · intro h hmem
    obtain ⟨pre, htext, hpre, -⟩ := splitLine_some h
    have hsame : (c.name ++ c.paramsText) ++ 58 :: c.value = pre ++ 58 :: c.value := by
      rw [List.append_assoc]
      exact htext
    rw [← List.append_cancel_right hsame] at hpre
    exact hpre (List.mem_append_right _ hmem)
  · intro h
    have hpre : 58 ∉ c.name ++ c.paramsText := fun hm => (List.mem_append.mp hm).elim c.colon h
    have hsplit : strchr 58 c.text = some (c.name ++ c.paramsText, c.value) := by
      rw [text, ← List.append_assoc]
      exact strchr_append hpre _
    rw [splitLine, hsplit, paramsText_eq, Option.map_some]
    unfold node
    cases hq : c.params with
    | nil =>
      simp only [↓reduceIte, paramText, List.append_nil]
      rw [strchr_eq_none.mpr c.semi]
    | cons q qs =>
      simp only [reduceCtorEq, ↓reduceIte, paramText]
      rw [strchr_append c.semi]

theorem nul_notMem (c : ContentLine) : NUL ∉ c.text := by
  have hvalue (q : LineParam) : NUL ∉ q.value.text := by
    cases q.value with
    | plain t _ nul => exact nul
    | quoted t _ nul =>
      have hquote : NUL ≠ 34 := by decide
      simp [ParamText.text, nul, hquote]
  simp only [text, paramsText, LineParam.text, List.mem_append, List.mem_flatMap, List.mem_cons]
  rintro (h | ⟨q, -, h | h | h | h⟩ | h | h)
  · exact c.nul.1 h
  · cases h
  · exact q.nul h
  · cases h
  · exact hvalue q h
  · cases h
  · exact c.nul.2 h

theorem text_ne_nil (c : ContentLine) : c.text ≠ [] := by
  unfold text
  simp

end ContentLine

variable {ρ : Type} [LineReader ρ]

theorem icalLine_read {p : IcalParse ρ} {l : RawLine} {src : ρ} (hr : LineReader.read p.src = some (l, src))
    (ht : l.text ≠ []) : (icalLine p).1 = splitLine (cstr l.text) := by
  have hbuf : (fillBuf p).buf = some (cstr l.text) := by
    simp only [fillBuf, hr, ht, ↓reduceIte]
  unfold icalLine
  dsimp only
  rw [hbuf]
  cases hs : splitLine (cstr l.text) with
  | none => simp only [hs]; rfl
  | some np => simp only [hs]

/-- `ical_line` finds the parts of a content line where no quoted value has a colon in it. -/
theorem icalLine_content_iff (c : ContentLine) {p : IcalParse ρ} {l : RawLine} {src : ρ}
    (hr : LineReader.read p.src = some (l, src)) (ht : l.text = c.text) :
    (icalLine p).1 = some c.node ↔ ∀ q ∈ c.params, 58 ∉ q.value.text := by
  rw [icalLine_read hr (ht ▸ c.text_ne_nil), ht, cstr_eq_self c.nul_notMem, c.splitLine_iff]

/-- `ATTENDEE;CN="a:b":mailto:c`. -/
def attendeeLine : ContentLine where
  name := ascii "ATTENDEE"
  params := [⟨ascii "CN", .quoted (ascii "a:b") (by decide +kernel) (by decide +kernel), by decide +kernel, by decide +kernel,
    by decide +kernel⟩]
  value := ascii "mailto:c"
  colon := by decide +kernel
  semi := by decide +kernel
  nul := by decide +kernel

/-- `DTSTART;TZID="A;B":20200101T120000`. -/
def zonedLine : ContentLine where
  name := ascii "DTSTART"
  params := [⟨ascii "TZID", .quoted (ascii "A;B") (by decide +kernel) (by decide +kernel), by decide +kernel, by decide +kernel,
    by decide +kernel⟩]
  value := ascii "20200101T120000"
  colon := by decide +kernel
  semi := by decide +kernel
  nul := by decide +kernel

theorem icalLine_content_zoned : (icalLine (IcalParse.start none false [RawLine.mk zonedLine.text 1])).1 = some zonedLine.node :=
  (icalLine_content_iff zonedLine (p := IcalParse.start none false [RawLine.mk zonedLine.text 1]) rfl rfl).mpr
    (by decide +kernel)

theorem icalLine_content_attendee : attendeeLine.text = ascii "ATTENDEE;CN=\"a:b\":mailto:c" ∧
    (icalLine (IcalParse.start none false [RawLine.mk attendeeLine.text 1])).1 =
      some ⟨ascii "ATTENDEE", some (ascii "CN=\"a"), ascii "b\":mailto:c"⟩ ∧
    (icalLine (IcalParse.start none false [RawLine.mk attendeeLine.text 1])).1 ≠ some attendeeLine.node := by
  refine ⟨by decide +kernel, by decide +kernel, by decide +kernel⟩

/-! ## The scan for a time zone -/

variable {C : Libc}

/-- The scan of `ical_tzdatetime` without a bound on its rounds. -/
def icalTzScan (dtret : IcalDateT) (tzstr : Option Bytes) : Bytes → Value (Option Bytes)
  | [] => pure tzstr
  | b :: bs => do
    let len := ((b :: bs).takeWhile (· ≠ 59)).length
    icalTzScan dtret (← icalTzParam dtret tzstr (b :: bs) len) ((b :: bs).drop (len + 1))
termination_by param => param.length
decreasing_by
  rw [List.length_drop]
  simp only [List.length_cons]
  omega

/-- Every round moves the cursor on, so the scan ends before the rounds do. -/
theorem icalTzParams_eq_scan {dtret : IcalDateT} {fuel : Nat} : ∀ {tzstr : Option Bytes} {param : Bytes},
    param.length ≤ fuel → icalTzParams dtret fuel tzstr param = icalTzScan dtret tzstr param := by
  induction fuel with
  | zero =>
    intro tzstr param h
    obtain rfl : param = [] := List.eq_nil_of_length_eq_zero (by omega)
    rw [icalTzParams, icalTzScan]
  | succ fuel ih =>
    intro tzstr param h
    cases param with
    | nil => rw [icalTzParams, icalTzScan]
    | cons b bs =>
      rw [icalTzParams, icalTzScan]
      refine congrArg _ (funext fun tz => ih ?_)
      rw [List.length_drop]
      simp only [List.length_cons] at h ⊢
      omega

/-- A `TZID` parameter with a value. -/
def isTzid (seg : Bytes) : Bool := 6 ≤ seg.length && strcaseEq (seg.take 5) (ascii "TZID=")

/-- A `VALUE` parameter that does not fit the date. -/
def mismatched (dtret : IcalDateT) (seg : Bytes) : Bool :=
  strcaseEq seg (ascii "VALUE=DATE-TIME") && dtret = .date || strcaseEq seg (ascii "VALUE=DATE") && dtret ≠ .date

theorem strcaseEq_length {a b : Bytes} (h : strcaseEq a b) : a.length = b.length := by
  have h := congrArg List.length (eq_of_beq h)
  simpa using h

theorem isTzid_of_value {seg t : Bytes} (h : strcaseEq seg t) (ht : strcaseEq (t.take 5) (ascii "TZID=") = false) :
    isTzid seg = false := by
  have hmap : seg.map toLower = t.map toLower := eq_of_beq h
  have htake : (seg.take 5).map toLower = (t.take 5).map toLower := by
    rw [List.map_take, List.map_take, hmap]
  unfold isTzid
  unfold strcaseEq at ht ⊢
  rw [htake, ht, Bool.and_false]

/-- A round looks at what is between two semicolons. -/
theorem icalTzParam_val (dtret : IcalDateT) (tzstr : Option Bytes) (start : Bytes) {len : Nat} (hlen : len ≤ start.length)
    (d : Diag) : (icalTzParam dtret tzstr start len d).1 =
      if mismatched dtret (start.take len) then none
      else if !isTzid (start.take len) then some tzstr
      else if dtret = .datetimeutc ∨ tzstr.isSome then none
      else some (some (icalUnquote start len)) := by
  have htake : (start.take len).length = len := by
    rw [List.length_take]
    omega
  unfold icalTzParam mismatched
  by_cases hdt : strcaseEq (start.take len) (ascii "VALUE=DATE-TIME")
  · obtain rfl : len = 15 := htake.symm.trans (strcaseEq_length hdt)
    have hdate : strcaseEq (start.take 15) (ascii "VALUE=DATE") = false := by
      by_contra h
      exact absurd ((strcaseEq_length (Bool.not_eq_false _ ▸ h)).symm.trans htake) (by decide +kernel)
    rw [if_neg (by decide), if_pos ⟨rfl, hdt⟩, isTzid_of_value hdt (by decide +kernel), hdate, hdt]
    by_cases hd : dtret = .date
    · rw [if_pos hd, if_pos (by simp [hd])]
      rfl
    · rw [if_neg hd, if_neg (by simp [hd])]
      rfl
  by_cases hdate : strcaseEq (start.take len) (ascii "VALUE=DATE")
  · obtain rfl : len = 10 := htake.symm.trans (strcaseEq_length hdate)
    rw [if_neg (by decide), if_neg (by simp), if_pos ⟨rfl, hdate⟩, isTzid_of_value hdate (by decide +kernel), hdate]
    by_cases hd : dtret = .date
    · rw [if_neg (by simp [hd]), if_neg (by simpa [hd] using hdt)]
      rfl
    · rw [if_pos hd, if_pos (by simp [hd])]
      rfl
  have hmismatch : ¬(strcaseEq (start.take len) (ascii "VALUE=DATE-TIME") && decide (dtret = .date) ||
      strcaseEq (start.take len) (ascii "VALUE=DATE") && decide (dtret ≠ .date)) = true := by
    simp [hdt, hdate]
  rw [if_neg hmismatch]
  have htzid : isTzid (start.take len) = (6 ≤ len && strcaseEq (start.take 5) (ascii "TZID=")) := by
    unfold isTzid
    rw [htake, List.take_take]
    by_cases h : 6 ≤ len
    · rw [Nat.min_eq_left (by omega)]
    · simp [h]
  by_cases hzero : len = 0
  · rw [if_pos hzero, htzid, hzero]
    rfl
  have hnot15 : ¬(len = 15 ∧ strcaseEq (start.take 15) (ascii "VALUE=DATE-TIME")) := by
    rintro ⟨rfl, h⟩
    exact hdt h
  have hnot10 : ¬(len = 10 ∧ strcaseEq (start.take 10) (ascii "VALUE=DATE")) := by
    rintro ⟨rfl, h⟩
    exact hdate h
  rw [if_neg hzero, if_neg hnot15, if_neg hnot10, htzid]
  by_cases hskip : len < 6 ∨ (!strcaseEq (start.take 5) (ascii "TZID=")) = true
  · rw [if_pos hskip, if_pos]
    · rfl
    · rcases hskip with h | h
      · simp [Nat.not_le.mpr h]
      · rw [Bool.not_eq_true'] at h
        simp [h]
  · have hfound : (6 ≤ len && strcaseEq (start.take 5) (ascii "TZID=")) = true := by
      simpa [not_or] using hskip
    rw [if_neg hskip, hfound, Bool.not_true, if_neg Bool.false_ne_true]
    by_cases hutc : dtret = .datetimeutc
    · rw [if_pos hutc, if_pos (.inl hutc)]
      rfl
    rw [if_neg hutc]
    by_cases hsome : tzstr.isSome
    · rw [if_pos hsome, if_pos (.inr hsome)]
      rfl
    · rw [if_neg hsome, if_neg fun h => h.elim hutc hsome]
      rfl

/-- Where the scan copies a value: `len` bytes at `start`, with no time zone so far. -/
inductive TzCopy (dtret : IcalDateT) : Option Bytes → Bytes → Bytes → Nat → Prop
  | here {b : UInt8} {bs : Bytes} {len : Nat} : len = ((b :: bs).takeWhile (· ≠ 59)).length →
    isTzid ((b :: bs).take len) → dtret ≠ .datetimeutc → TzCopy dtret none (b :: bs) (b :: bs) len
  | later {tzstr tz : Option Bytes} {b : UInt8} {bs start : Bytes} {n len : Nat} {d : Diag} :
    n = ((b :: bs).takeWhile (· ≠ 59)).length → (icalTzParam dtret tzstr (b :: bs) n d).1 = some tz →
    TzCopy dtret tz ((b :: bs).drop (n + 1)) start len → TzCopy dtret tzstr (b :: bs) start len

/-- The length handed to `strndup`, before it is a `size_t`. -/
def tzCopyLen (start : Bytes) (len : Nat) : Int :=
  if start[5]? = some 34 ∧ start[len - 1]? = some 34 then len - 2 - 5 else len - 5

/-- A value less one pair of quotes around it. -/
def unquoted (v : Bytes) : Bytes :=
  if 2 ≤ v.length ∧ v.head? = some 34 ∧ v.getLast? = some 34 then v.tail.dropLast else v

/-- The time zone the parameters name, and that they name no second one. -/
def TzstrRight (param : Bytes) (tzstr : Option Bytes) : Prop :=
  match (strsep 59 param).filter isTzid with
  | [] => tzstr = none
  | [seg] => tzstr = some (unquoted (seg.drop 5))
  | _ :: _ :: _ => False

/-- The first `TZID` is a lone quote, and the scan gets to it. -/
def HalfQuoted (dtret : IcalDateT) (param : Bytes) : Prop :=
  dtret ≠ .datetimeutc ∧ ∃ seg, (strsep 59 param).find? (fun s => isTzid s || mismatched dtret s) = some seg ∧
    isTzid seg ∧ seg.drop 5 = [34]

/-! ## Rounds and parameters -/

/-- The first token and those of what is left after it. -/
theorem strsep_step (c : UInt8) (s : Bytes) : ∃ rest, strsep c s = s.take (s.takeWhile (· ≠ c)).length :: rest ∧
    (rest = strsep c (s.drop ((s.takeWhile (· ≠ c)).length + 1)) ∨
      rest = [] ∧ s.drop ((s.takeWhile (· ≠ c)).length + 1) = []) := by
  cases hs : strchr c s with
  | none =>
    have hmem := strchr_eq_none.mp hs
    have hall : s.takeWhile (· ≠ c) = s := by
      rw [List.takeWhile_eq_self_iff]
      intro b hb
      simp only [ne_eq, decide_not, Bool.not_eq_true', decide_eq_false_iff_not]
      rintro rfl
      exact hmem hb
    refine ⟨[], ?_, .inr ⟨rfl, ?_⟩⟩
    · rw [hall, List.take_length, strsep_of_notMem hmem]
    · rw [hall, List.drop_eq_nil_iff]
      omega
  | some q =>
    obtain ⟨l, r⟩ := q
    obtain ⟨rfl, hmem⟩ := strchr_eq_some.mp hs
    have hall : (l ++ c :: r).takeWhile (· ≠ c) = l := by
      rw [List.takeWhile_append_of_pos, List.takeWhile_cons_of_neg (by simp), List.append_nil]
      intro b hb
      simp only [ne_eq, decide_not, Bool.not_eq_true', decide_eq_false_iff_not]
      rintro rfl
      exact hmem hb
    refine ⟨strsep c r, ?_, .inl ?_⟩
    · rw [hall, List.take_left, strsep_append hmem]
    · rw [hall, List.drop_append, List.drop_eq_nil_of_le (by omega), Nat.add_sub_cancel_left, List.nil_append, List.drop_one,
        List.tail_cons]

section
variable {dtret : IcalDateT} {tzstr tz : Option Bytes}

/-- Empty parameters count for nothing, so the rounds see what the tokens are. -/
theorem filter_strsep {P : Bytes → Bool} (hP : P [] = false) (s : Bytes) : (strsep 59 s).filter P =
    (if P (s.take (s.takeWhile (· ≠ 59)).length) then [s.take (s.takeWhile (· ≠ 59)).length] else []) ++
      (strsep 59 (s.drop ((s.takeWhile (· ≠ 59)).length + 1))).filter P := by
  obtain ⟨rest, hs, hrest⟩ := strsep_step 59 s
  rw [hs, List.filter_cons]
  have hsame : rest.filter P = (strsep 59 (s.drop ((s.takeWhile (· ≠ 59)).length + 1))).filter P := by
    rcases hrest with rfl | ⟨rfl, hnil⟩
    · rfl
    · rw [hnil, strsep, List.filter_cons_of_neg (by simp [hP])]
  rw [hsame]
  split <;> rfl

theorem find?_strsep {P : Bytes → Bool} (hP : P [] = false) (s : Bytes) : (strsep 59 s).find? P =
    if P (s.take (s.takeWhile (· ≠ 59)).length) then some (s.take (s.takeWhile (· ≠ 59)).length)
      else (strsep 59 (s.drop ((s.takeWhile (· ≠ 59)).length + 1))).find? P := by
  rw [← List.head?_filter, ← List.head?_filter, filter_strsep hP]
  split <;> rfl

theorem isTzid_nil : isTzid [] = false := rfl

theorem mismatched_nil (dtret : IcalDateT) : (isTzid [] || mismatched dtret []) = false := by
  have h1 : strcaseEq [] (ascii "VALUE=DATE-TIME") = false := by decide +kernel
  have h2 : strcaseEq [] (ascii "VALUE=DATE") = false := by decide +kernel
  simp only [isTzid_nil, mismatched, h1, h2, Bool.false_and, Bool.or_self]

theorem takeWhile_length_le (s : Bytes) : (s.takeWhile (· ≠ 59)).length ≤ s.length :=
  (List.takeWhile_sublist _).length_le

/-- What one round that goes on leaves. -/
theorem icalTzParam_some {start : Bytes} {len : Nat} (hlen : len ≤ start.length) {d : Diag}
    (h : (icalTzParam dtret tzstr start len d).1 = some tz) : mismatched dtret (start.take len) = false ∧
      (isTzid (start.take len) = false ∧ tz = tzstr ∨
        isTzid (start.take len) ∧ dtret ≠ .datetimeutc ∧ tzstr = none ∧ tz = some (icalUnquote start len)) := by
  rw [icalTzParam_val dtret tzstr start hlen] at h
  split at h
  · cases h
  next hm =>
    refine ⟨by simpa using hm, ?_⟩
    split at h
    next ht =>
      cases h
      exact .inl ⟨by simpa using ht, rfl⟩
    next ht =>
      split at h
      · cases h
      next hstop =>
        cases h
        obtain ⟨hutc, hnone⟩ := not_or.mp hstop
        exact .inr ⟨by simpa using ht, hutc, by simpa using hnone, rfl⟩

/-- A scan that succeeds has kept what it had, or copied the one value there is. -/
theorem icalTzScan_some (n : Nat) : ∀ {tzstr : Option Bytes} {param : Bytes} {d d' : Diag}, param.length ≤ n →
    icalTzScan dtret tzstr param d = (some tz, d') → (strsep 59 param).filter isTzid = [] ∧ tz = tzstr ∨
      tzstr = none ∧ ∃ start len, TzCopy dtret none param start len ∧
        (strsep 59 param).filter isTzid = [start.take len] ∧ tz = some (icalUnquote start len) := by
  induction n with
  | zero =>
    intro tzstr param d d' hn h
    obtain rfl : param = [] := List.eq_nil_of_length_eq_zero (by omega)
    rw [icalTzScan] at h
    cases h
    exact .inl ⟨rfl, rfl⟩
  | succ n ih =>
    intro tzstr param d d' hn h
    cases param with
    | nil =>
      rw [icalTzScan] at h
      cases h
      exact .inl ⟨rfl, rfl⟩
    | cons b bs =>
      rw [icalTzScan] at h
      obtain ⟨tz₁, d₁, hround, hgo⟩ := Fallible.bind_eq_some.mp h
      have hshort : ((b :: bs).drop (((b :: bs).takeWhile (· ≠ 59)).length + 1)).length ≤ n := by
        rw [List.length_drop]
        simp only [List.length_cons] at hn ⊢
        omega
      have hval : (icalTzParam dtret tzstr (b :: bs) ((b :: bs).takeWhile (· ≠ 59)).length d).1 = some tz₁ := by
        rw [hround]
      rw [filter_strsep isTzid_nil]
      rcases icalTzParam_some (takeWhile_length_le _) hval with ⟨-, ⟨ht, rfl⟩ | ⟨ht, hutc, rfl, rfl⟩⟩
      · rw [ht, if_neg Bool.false_ne_true, List.nil_append]
        rcases ih hshort hgo with ⟨hnil, hsame⟩ | ⟨hnone, start, len, hcopy, hone, hsome⟩
        · exact .inl ⟨hnil, hsame⟩
        · subst hnone
          exact .inr ⟨rfl, start, len, .later rfl hval hcopy, hone, hsome⟩
      · rcases ih hshort hgo with ⟨hnil, hsome⟩ | ⟨hnone, -⟩
        · exact .inr ⟨rfl, _, _, .here rfl ht hutc, by rw [if_pos ht, hnil, List.append_nil], hsome⟩
        · cases hnone

/-- The scan copies at the first `TZID`, and only where no mismatch comes before it. -/
theorem TzCopy.found {param start : Bytes} {len : Nat} (h : TzCopy dtret tzstr param start len) :
    tzstr = none ∧ dtret ≠ .datetimeutc ∧ len ≤ start.length ∧ start.length ≤ param.length ∧ isTzid (start.take len) ∧
      (strsep 59 param).find? (fun s => isTzid s || mismatched dtret s) = some (start.take len) := by
  induction h with
  | here hlen ht hutc =>
    subst hlen
    refine ⟨rfl, hutc, takeWhile_length_le _, le_rfl, ht, ?_⟩
    rw [find?_strsep (mismatched_nil dtret), if_pos (by rw [ht, Bool.true_or])]
  | later hn hround _ ih =>
    subst hn
    obtain ⟨rfl, hutc, hlen, hstart, ht, hfind⟩ := ih
    rcases icalTzParam_some (takeWhile_length_le _) hround with ⟨hm, ⟨hfirst, rfl⟩ | ⟨-, -, -, hcopied⟩⟩
    · refine ⟨rfl, hutc, hlen, hstart.trans ?_, ht, ?_⟩
      · rw [List.length_drop]
        exact Nat.sub_le _ _
      · rw [find?_strsep (mismatched_nil dtret), if_neg (by rw [hfirst, hm]; decide), hfind]
    · cases hcopied

/-- The scan gets to the first `TZID` where no mismatch comes before it. -/
theorem tzCopy_of_find (hutc : dtret ≠ .datetimeutc) {seg : Bytes} (ht : isTzid seg) (n : Nat) : ∀ {param : Bytes},
    param.length ≤ n → (strsep 59 param).find? (fun s => isTzid s || mismatched dtret s) = some seg →
      ∃ start len, TzCopy dtret none param start len ∧ start.take len = seg := by
  induction n with
  | zero =>
    intro param hn h
    obtain rfl : param = [] := List.eq_nil_of_length_eq_zero (by omega)
    rw [strsep, List.find?_cons_of_neg (by rw [mismatched_nil]; decide)] at h
    cases h
  | succ n ih =>
    intro param hn h
    cases param with
    | nil =>
      rw [strsep, List.find?_cons_of_neg (by rw [mismatched_nil]; decide)] at h
      cases h
    | cons b bs =>
      rw [find?_strsep (mismatched_nil dtret)] at h
      split at h
      next hfirst =>
        cases h
        exact ⟨_, _, .here rfl ht hutc, rfl⟩
      next hfirst =>
        simp only [Bool.or_eq_true, not_or, Bool.not_eq_true] at hfirst
        have hround : (icalTzParam dtret none (b :: bs) ((b :: bs).takeWhile (· ≠ 59)).length ⟨"", 0, none, false⟩).1 =
            some none := by
          rw [icalTzParam_val dtret none _ (takeWhile_length_le _), hfirst.2, hfirst.1]
          rfl
        obtain ⟨start, len, hcopy, hseg⟩ := ih (by
          rw [List.length_drop]
          simp only [List.length_cons] at hn ⊢
          omega) h
        exact ⟨start, len, .later rfl hround hcopy, hseg⟩

end

/-! ## The copy -/

/-- A `TZID` parameter and what follows it: the five bytes of its name, a value, the rest. -/
theorem tzid_split {start : Bytes} {len : Nat} (hlen : len ≤ start.length) (ht : isTzid (start.take len)) :
    ∃ t v r : Bytes, start = t ++ (v ++ r) ∧ t.length = 5 ∧ v ≠ [] ∧ len = 5 + v.length ∧ (start.take len).drop 5 = v := by
  unfold isTzid at ht
  simp only [Bool.and_eq_true, decide_eq_true_eq, List.length_take] at ht
  refine ⟨start.take 5, (start.take len).drop 5, start.drop len, ?_, ?_, ?_, ?_, rfl⟩
  · rw [← List.append_assoc]
    have hfive : start.take 5 = (start.take len).take 5 := by
      rw [List.take_take, Nat.min_eq_left (by omega)]
    rw [hfive, List.take_append_drop, List.take_append_drop]
  · rw [List.length_take]
    omega
  · intro h
    have hnil := congrArg List.length h
    simp only [List.length_drop, List.length_take, List.length_nil] at hnil
    omega
  · simp only [List.length_drop, List.length_take]
    omega

section
variable {t v r : Bytes} (hfive : t.length = 5)
include hfive

theorem tzid_first {a : UInt8} {w : Bytes} : (t ++ (a :: w ++ r))[5]? = some a := by
  rw [List.getElem?_append_right (by omega), hfive]
  rfl

theorem tzid_last {w : Bytes} {z : UInt8} : (t ++ (w ++ [z] ++ r))[5 + (w ++ [z]).length - 1]? = some z := by
  rw [List.getElem?_append_right (by simp only [List.length_append, List.length_singleton]; omega), List.append_assoc,
    List.getElem?_append_right (by simp only [List.length_append, List.length_singleton]; omega)]
  simp only [List.length_append, List.length_singleton, hfive]
  rw [show 5 + (w.length + 1) - 1 - 5 - w.length = 0 by omega]
  rfl

/-- The length goes below zero for a lone quote only. -/
theorem tzCopyLen_neg (hv : v ≠ []) : tzCopyLen (t ++ (v ++ r)) (5 + v.length) < 0 ↔ v = [34] := by
  obtain ⟨w, z, rfl⟩ : ∃ w z, v = w ++ [z] := ⟨v.dropLast, v.getLast hv, (List.dropLast_concat_getLast hv).symm⟩
  unfold tzCopyLen
  rw [tzid_last hfive]
  cases w with
  | nil =>
    have hfirst := tzid_first (r := r) (a := z) (w := []) hfive
    rw [List.nil_append, hfirst]
    by_cases hz : z = 34
    · simp [hz]
    · simp [hz]
  | cons a w =>
    constructor
    · intro h
      split at h
      · simp only [List.length_append, List.length_cons, List.length_nil] at h
        omega
      · simp only [List.length_append, List.length_cons, List.length_nil] at h
        omega
    · intro h
      have hlen := congrArg List.length h
      simp at hlen

/-- Any other value is copied without one pair of quotes. -/
theorem icalUnquote_eq (hv : v ≠ []) (hquote : v ≠ [34]) (hlen : 5 + v.length < 2 ^ 64) :
    icalUnquote (t ++ (v ++ r)) (5 + v.length) = unquoted v := by
  obtain ⟨w, z, rfl⟩ : ∃ w z, v = w ++ [z] := ⟨v.dropLast, v.getLast hv, (List.dropLast_concat_getLast hv).symm⟩
  unfold icalUnquote unquoted
  rw [tzid_last hfive, List.getLast?_concat]
  have hplain : ((t ++ (w ++ [z] ++ r)).drop 5).take (5 + (w ++ [z]).length - 5) = w ++ [z] := by
    rw [List.drop_append, hfive, List.drop_eq_nil_of_le (by omega), Nat.sub_self, List.nil_append, List.drop_zero,
      Nat.add_sub_cancel_left, List.take_left]
  cases w with
  | nil =>
    have hz : z ≠ 34 := by
      rintro rfl
      exact hquote rfl
    rw [if_neg (by simp [hz]), if_neg (by simp), hplain]
  | cons a w =>
    have hfirst := tzid_first (r := r) (a := a) (w := w ++ [z]) hfive
    rw [List.cons_append, hfirst, ← List.cons_append, List.cons_append, List.head?_cons]
    by_cases hboth : a = 34 ∧ z = 34
    · obtain ⟨rfl, rfl⟩ := hboth
      rw [if_pos ⟨rfl, rfl⟩, if_pos ⟨by simp, rfl, rfl⟩]
      have hn : (5 + (34 :: (w ++ [34])).length + 2 ^ 64 - 2 - 5) % 2 ^ 64 = w.length := by
        simp only [List.length_cons, List.length_append, List.length_nil] at hlen ⊢
        omega
      rw [hn, List.drop_append, hfive, List.drop_eq_nil_of_le (by omega), List.nil_append, List.cons_append,
        List.drop_succ_cons, List.drop_zero, List.append_assoc, List.take_left, List.tail_cons, List.dropLast_concat]
    · have hnot : ¬(some a = some (34 : UInt8) ∧ some z = some (34 : UInt8)) := by simpa using hboth
      rw [if_neg hnot, if_neg fun h => hnot h.2]
      exact hplain

end

/-- Every length the scan copies is a length unless the first `TZID` is a lone quote. -/
theorem tzCopy_nonneg_iff {dtret : IcalDateT} {param : Bytes} :
    (∀ start len, TzCopy dtret none param start len → 0 ≤ tzCopyLen start len) ↔ ¬HalfQuoted dtret param := by
  constructor
  · rintro hlen ⟨hutc, seg, hfind, ht, hquote⟩
    obtain ⟨start, len, hcopy, rfl⟩ := tzCopy_of_find hutc ht param.length le_rfl hfind
    have hnonneg := hlen start len hcopy
    obtain ⟨-, -, hle, -, -, -⟩ := hcopy.found
    obtain ⟨t, v, r, rfl, hfive, hv, rfl, hdrop⟩ := tzid_split hle ht
    have hneg := (tzCopyLen_neg (r := r) hfive hv).mpr (hdrop.symm.trans hquote)
    omega
  · intro hnot start len hcopy
    obtain ⟨-, hutc, hle, -, ht, hfind⟩ := hcopy.found
    obtain ⟨t, v, r, rfl, hfive, hv, rfl, hdrop⟩ := tzid_split hle ht
    have hquote : v ≠ [34] := fun h => hnot ⟨hutc, _, hfind, ht, hdrop.trans h⟩
    exact Int.not_lt.mp fun hneg => hquote ((tzCopyLen_neg hfive hv).mp hneg)

/-- What is copied is the value less its quotes where the length is one. -/
theorem TzCopy.unquote {dtret : IcalDateT} {param start : Bytes} {len : Nat} (h : TzCopy dtret none param start len)
    (hparam : param.length < 2 ^ 64) (hnonneg : 0 ≤ tzCopyLen start len) :
    icalUnquote start len = unquoted ((start.take len).drop 5) := by
  obtain ⟨-, -, hle, hstart, ht, -⟩ := h.found
  obtain ⟨t, v, r, rfl, hfive, hv, rfl, hdrop⟩ := tzid_split hle ht
  rw [hdrop]
  refine icalUnquote_eq hfive hv (fun hquote => ?_) (by omega)
  have hneg := (tzCopyLen_neg (r := r) hfive hv).mpr hquote
  omega

theorem icalTzdatetime_some {np : IcalNode} {param : Bytes} (hparam : np.param = some param) {d d' : Diag} {t : IcalTime}
    {tm : IcalTm} (hdate : (icalDatetime C np.val d).1 = some tm) (h : icalTzdatetime C np d = (some t, d')) :
    ∃ d₁, icalTzParams tm.type param.length none param d₁ = (some t.tzstr, d') := by
  unfold icalTzdatetime at h
  obtain ⟨tm₁, d₁, hd₁, h⟩ := Fallible.bind_eq_some.mp h
  rw [hd₁] at hdate
  cases hdate
  simp only [hparam] at h
  obtain ⟨tz, d₂, hscan, h⟩ := Fallible.bind_eq_some.mp h
  cases h
  exact ⟨d₁, hscan⟩

/-- The scan ends, copies inside its parameter and finds the time zone, unless it copies a lone quote. -/
theorem icalTzdatetime_inside_iff {np : IcalNode} {param : Bytes} (hparam : np.param = some param)
    (hsize : param.length < 2 ^ 64) {d : Diag} {tm : IcalTm} (hdate : (icalDatetime C np.val d).1 = some tm) :
    ((∀ fuel tz, param.length ≤ fuel → icalTzParams tm.type fuel tz param = icalTzScan tm.type tz param) ∧
      (∀ start len, TzCopy tm.type none param start len → 0 ≤ tzCopyLen start len) ∧
      ∀ t d', icalTzdatetime C np d = (some t, d') → TzstrRight param t.tzstr) ↔ ¬HalfQuoted tm.type param := by
  constructor
  · rintro ⟨-, hlen, -⟩
    exact tzCopy_nonneg_iff.mp hlen
  · intro hnot
    have hlen := tzCopy_nonneg_iff.mpr hnot
    refine ⟨fun fuel tz h => icalTzParams_eq_scan h, hlen, fun t d' h => ?_⟩
    obtain ⟨d₁, hscan⟩ := icalTzdatetime_some hparam hdate h
    rw [icalTzParams_eq_scan le_rfl] at hscan
    unfold TzstrRight
    rcases icalTzScan_some param.length le_rfl hscan with ⟨hnil, htz⟩ | ⟨-, start, len, hcopy, hone, htz⟩
    · rw [hnil]
      exact htz
    · rw [hone, htz, hcopy.unquote hsize (hlen start len hcopy)]

/-- `DTSTART;VALUE=DATE-TIME;TZID="Europe/Malta":20200101T120000`. -/
theorem icalTzdatetime_inside_malta :
    TzstrRight (ascii "VALUE=DATE-TIME;TZID=\"Europe/Malta\"") (some (ascii "Europe/Malta")) := by
  have hnot : ¬HalfQuoted .datetime (ascii "VALUE=DATE-TIME;TZID=\"Europe/Malta\"") := by
    rintro ⟨-, seg, hfind, -, hquote⟩
    have hseg : (strsep 59 (ascii "VALUE=DATE-TIME;TZID=\"Europe/Malta\"")).find?
        (fun s => isTzid s || mismatched .datetime s) = some (ascii "TZID=\"Europe/Malta\"") := by decide +kernel
    obtain rfl := Option.some.inj (hfind.symm.trans hseg)
    exact absurd hquote (by decide +kernel)
  have hread : (icalTzdatetime Libc.utc ⟨ascii "DTSTART", some (ascii "VALUE=DATE-TIME;TZID=\"Europe/Malta\""),
      ascii "20200101T120000"⟩ ⟨"", 1, none, false⟩).1 =
        some ⟨none, ⟨1577880000, .datetime⟩, some (ascii "Europe/Malta")⟩ := by decide +kernel
  have hdate : (icalDatetime Libc.utc (ascii "20200101T120000") ⟨"", 1, none, false⟩).1 = some ⟨1577880000, .datetime⟩ := by
    decide +kernel
  have hparam : (⟨ascii "DTSTART", some (ascii "VALUE=DATE-TIME;TZID=\"Europe/Malta\""), ascii "20200101T120000"⟩ :
      IcalNode).param = some (ascii "VALUE=DATE-TIME;TZID=\"Europe/Malta\"") := rfl
  exact ((icalTzdatetime_inside_iff hparam (by decide +kernel) hdate).mpr hnot).2.2 _ _ (Prod.ext hread rfl)

/-- `DTSTART;TZID=":20200101T120000`: the length is minus one, and the value that is copied is empty. -/
theorem icalTzdatetime_inside_quote : TzCopy .datetime none (ascii "TZID=\"") (ascii "TZID=\"") 6 ∧
    tzCopyLen (ascii "TZID=\"") 6 = -1 ∧
    (icalTzdatetime Libc.utc ⟨ascii "DTSTART", some (ascii "TZID=\""), ascii "20200101T120000"⟩ ⟨"", 1, none, false⟩).1 =
      some ⟨none, ⟨1577880000, .datetime⟩, some []⟩ ∧
    ¬TzstrRight (ascii "TZID=\"") (some []) := by
  refine ⟨.here (by decide +kernel) (by decide +kernel) (by decide), by decide +kernel, by decide +kernel, ?_⟩
  have hone : (strsep 59 (ascii "TZID=\"")).filter isTzid = [ascii "TZID=\""] := by decide +kernel
  unfold TzstrRight
  rw [hone]
  decide +kernel

end Kcaldav
