import Kcaldav.Ical.Lossless
import Kcaldav.Ical.Machine

/-! # What is reported

`ical_err` keeps the first message, and whoever calls it returns zero: all but the
scan of a duration, which leaves its loop where a number is turned away and calls the
duration good if the text ends there. A parse that fails has left a message, and one
that succeeds has left none unless a duration slipped through.
-/
namespace Kcaldav
open CString Fallible LineReader

variable {C : Libc} {α β : Type}

/-! ## Failures -/

/-- A failure leaves a message. -/
def Reports (x : Value α) : Prop := Leaves (fun d => d.er.isSome) x

namespace Reports

theorem pure (a : α) : Reports (pure a : Value α) := Leaves.pure a

theorem bind {x : Value α} {f : α → Value β} (hx : Reports x) (hf : ∀ a, Reports (f a)) : Reports (x >>= f) :=
  Leaves.bind hx hf

theorem ite {c : Prop} [Decidable c] {x y : Value α} (hx : Reports x) (hy : Reports y) : Reports (if c then x else y) :=
  Leaves.ite hx hy

theorem icalFailAt (line : Nat) (msg : String) : Reports (icalFailAt line msg : Value α) := by
  intro d d' h
  cases h
  rfl

theorem icalFail (msg : String) : Reports (icalFail msg : Value α) := by
  intro d d' h
  cases h
  rfl

theorem orReport (x : Value α) (msg : String) : Reports (orReport x msg) := Leaves.orElse x (icalFail msg)

end Reports

theorem icalNumber_reports (r : Converted α) (extreme inBounds : α → Bool) (msg : String) :
    Reports (icalNumber C r extreme inBounds msg) := by
  refine .bind ?_ fun errno => .ite (.icalFail msg) (.ite (.icalFail msg) (.ite (.icalFail msg) (.pure _)))
  intro d d' h
  cases h

theorem icalDatetime_reports (cp : Bytes) : Reports (icalDatetime C cp) := by
  unfold icalDatetime
  dsimp only
  split
  · exact .icalFail _
  · exact .pure _

theorem icalTzParams_reports (dtret : IcalDateT) (fuel : Nat) (tzstr : Option Bytes) (start : Bytes) :
    Reports (icalTzParams dtret fuel tzstr start) := by
  have param (tzstr : Option Bytes) (start : Bytes) (len : Nat) : Reports (icalTzParam dtret tzstr start len) := by
    unfold icalTzParam
    exact .ite (.pure _) (.ite (.ite (.icalFail _) (.pure _)) (.ite (.ite (.icalFail _) (.pure _))
      (.ite (.pure _) (.ite (.icalFail _) (.ite (.icalFail _) (.pure _))))))
  induction fuel generalizing tzstr start with
  | zero =>
    cases start with
    | nil => exact .pure _
    | cons b bs => exact .pure _
  | succ fuel ih =>
    cases start with
    | nil => exact .pure _
    | cons b bs => exact .bind (param _ _ _) fun a => ih a _

theorem icalTzdatetime_reports (np : IcalNode) : Reports (icalTzdatetime C np) := by
  refine .bind (icalDatetime_reports np.val) fun time => ?_
  cases np.param with
  | none => exact .pure _
  | some param => exact .bind (icalTzParams_reports _ _ _ _) fun tzstr => .pure _

theorem icalRruleParams_reports (ps : List Bytes) (vp : IcalRrule) : Reports (icalRruleParams C vp ps) := by
  induction ps generalizing vp with
  | nil => exact .pure vp
  | cons p ps ih =>
    unfold icalRruleParams
    split
    · exact .icalFail _
    · exact .bind (.orReport _ _) ih

theorem icalRrule_reports (vp : IcalRrule) (cp : Bytes) : Reports (icalRrule C vp cp) :=
  .bind (icalRruleParams_reports _ _) fun _ => .ite (.icalFail _) (.pure _)

/-- The scan itself never fails. -/
theorem icalDuration_reports (val : Bytes) : Reports (icalDuration C val) := by
  unfold icalDuration
  split
  · refine .ite (.icalFail _) (.bind ?_ fun r => .ite (.pure _) (.icalFail _))
    intro d d' h
    obtain ⟨v, front, cp, e, t, hloop, -⟩ := icalDurationLoop_extends (C := C) _ _ _ _ d
    rw [hloop] at h
    cases h
  · exact .icalFail _

theorem icalUtcOffs_reports (cp : Bytes) : Reports (icalUtcOffs cp) := by
  unfold icalUtcOffs
  exact .ite (.icalFail _) (.ite (.icalFail _) (.ite (.icalFail _) (.ite (.icalFail _) (.ite (.icalFail _)
    (.ite (.icalFail _) (.pure _))))))

theorem icalString_reports (cp : Bytes) : Reports (icalString cp) := .ite (.icalFail _) (.pure _)

theorem icalTzField_reports (np : IcalNode) (z : IcalTz) : Reports (icalTzField C np z) := by
  unfold icalTzField
  exact .ite (.bind (.orReport _ _) fun _ => .pure _) (.ite (.bind (icalUtcOffs_reports _) fun _ => .pure _)
    (.ite (.bind (icalUtcOffs_reports _) fun _ => .pure _) (.ite (.bind (icalRrule_reports _ _) fun _ => .pure _) (.pure _))))

theorem icalCompField_reports (np : IcalNode) (c : IcalComp) : Reports (icalCompField C np c) := by
  unfold icalCompField
  refine .ite ?_ (.ite ?_ (.ite ?_ (.ite ?_ (.ite ?_ (.ite ?_ (.ite ?_ (.ite ?_ (.ite ?_ (.pure _)))))))))
  · exact .bind (icalString_reports _) fun _ => .pure _
  · exact .bind (.orReport _ _) fun _ => .pure _
  · exact .bind (.orReport _ _) fun _ => .pure _
  · exact .bind (.orReport _ _) fun _ => .pure _
  · exact .bind (icalTzdatetime_reports _) fun _ => .pure _
  · exact .bind (icalTzdatetime_reports _) fun _ => .pure _
  · exact .bind (icalDuration_reports _) fun _ => .pure _
  · exact .bind (icalString_reports _) fun _ => .pure _
  · exact .bind (icalRrule_reports _ _) fun _ => .pure _

theorem icalTzCheck_reports (z : IcalTz) : Reports (icalTzCheck z) := .ite (.icalFail _) (.pure _)

theorem icalCompCheck_reports (line : Nat) (c : IcalComp) : Reports (icalCompCheck line c) := by
  refine .ite (.icalFail _) ?_
  split
  · exact .ite (.icalFailAt _ _) (.ite (.icalFailAt _ _) (.pure _))
  · exact .ite (.icalFailAt _ _) (.pure _)
  · exact .pure _

theorem icalPostparseTypes_reports (zones : List IcalComp) (ts : List IcalType) (i : Ical) :
    Reports (icalPostparseTypes zones ts i) := by
  have tz (tm : IcalTime) : Reports (icalPostparseTz zones tm) := by
    unfold icalPostparseTz
    split
    · exact .pure _
    · split
      · exact .pure _
      · exact .icalFailAt _ _
  have comps (cs : List IcalComp) : Reports (icalPostparseComps zones cs) := by
    induction cs with
    | nil => exact .pure _
    | cons c cs ih => exact .bind (tz _) fun _ => .bind (tz _) fun _ => .bind ih fun _ => .pure _
  induction ts generalizing i with
  | nil => exact .pure _
  | cons t ts ih => exact .bind (comps _) fun _ => ih _

/-! ## A failed parse -/

section
variable {ρ : Type} [LineReader ρ]

/-- A message has been left. -/
def IcalParse.Told (p : IcalParse ρ) : Prop := p.diag.er.isSome

omit [LineReader ρ] in
theorem value_told {x : Value α} (hx : Reports x) : Leaves (σ := IcalParse ρ) IcalParse.Told (value x) :=
  Leaves.zoom (fun _ _ => rfl) hx

theorem icalNext_told : Leaves (σ := IcalParse ρ) IcalParse.Told icalNext := by
  refine Leaves.bind ?_ fun np => Leaves.bind (fun p p' h => by cases h) fun _ => Leaves.pure np
  intro p p' h
  unfold icalLine at h
  dsimp only at h
  split at h
  · exact value_told (.icalFail _) _ _ h
  · split at h
    · exact value_told (.icalFail _) _ _ h
    · cases h

theorem icalNext_size {p p' : IcalParse ρ} {np : IcalNode} (h : icalNext p = (some np, p')) : size p'.src ≤ size p.src := by
  obtain ⟨buf, -, -, rfl⟩ := icalNext_fill.mp h
  unfold fillBuf
  cases hr : read p.src with
  | none => exact le_rfl
  | some q => exact (size_read hr).le

theorem icalParsetzLoop_told {type : IcalTzType} (fuel : Nat) : ∀ {z : IcalTz} {p p' : IcalParse ρ}, size p.src < fuel →
    icalParsetzLoop C type fuel z p = (none, p') → p'.Told := by
  induction fuel with
  | zero =>
    intro z p p' hf h
    omega
  | succ fuel ih =>
    intro z p p' hf h
    simp only [icalParsetzLoop, icalMore_bind] at h
    split at h
    next hmore =>
      rcases bind_eq_none.mp h with h | ⟨np, p₁, hnext, h⟩
      · exact icalNext_told _ _ h
      have hsize : size p₁.src < size p.src := next_size ⟨hmore, hnext⟩
      split at h
      · split at h
        · cases h
        · exact ih (by omega) h
      · rcases bind_eq_none.mp h with h | ⟨z', p₂, hfield, h⟩
        · exact value_told (icalTzField_reports _ _) _ _ h
        · have hsrc := Valued.src hfield
          exact ih (by rw [hsrc]; omega) h
    · cases h

theorem icalParsetz_told {type : IcalTzType} {fuel : Nat} {p p' : IcalParse ρ} (hf : size p.src < fuel)
    (h : icalParsetz C fuel type p = (none, p')) : p'.Told := by
  simp only [icalParsetz, gets_bind] at h
  split at h
  · exact value_told (.icalFail _) _ _ h
  · rcases bind_eq_none.mp h with h | ⟨z, p₁, -, h⟩
    · exact icalParsetzLoop_told fuel hf h
    rcases bind_eq_none.mp h with h | ⟨u, p₂, -, h⟩
    · exact value_told (icalTzCheck_reports _) _ _ h
    · cases h

omit [LineReader ρ] in
theorem icalParsecompWith_told {loop : CompRef → Parse ρ Unit} {type : IcalType} {p p' : IcalParse ρ}
    (hloop : ∀ q, loop (newComp type p) (enterComp type p) = (none, q) → q.Told)
    (h : icalParsecompWith loop type p = (none, p')) : p'.Told := by
  simp only [icalParsecompWith, modifyIcal, gets_bind, modify_bind] at h
  rcases bind_eq_none.mp h with h | ⟨u, q, -, h⟩
  · exact hloop _ h
  · exact value_told (icalCompCheck_reports _ _) _ _ h

theorem icalParsecompLoop_told (fuel : Nat) : ∀ {c : CompRef} {p p' : IcalParse ρ}, size p.src < fuel →
    icalParsecompLoop C fuel c p = (none, p') → p'.Told := by
  induction fuel with
  | zero =>
    intro c p p' hf h
    omega
  | succ fuel ih =>
    intro c p p' hf h
    simp only [icalParsecompLoop, icalMore_bind] at h
    split at h
    next hmore =>
      rcases bind_eq_none.mp h with h | ⟨np, p₁, hnext, h⟩
      · exact icalNext_told _ _ h
      have hsize : size p₁.src < size p.src := next_size ⟨hmore, hnext⟩
      have hsize₁ : size p₁.src < fuel := by omega
      unfold icalCompNode at h
      split at h
      · cases ht : icalTypeOf np.val with
        | some tt =>
          rw [ht] at h
          rcases bind_eq_none.mp h with h | ⟨u, p₃, hcomp, h⟩
          · exact icalParsecompWith_told (fun q hq => ih (p := enterComp tt p₁) hsize₁ hq) h
          · obtain ⟨p₂, hloop, hcheck⟩ := icalParsecompWith_some.mp hcomp
            have henter : size p₂.src ≤ size (enterComp tt p₁).src := (compRun_of_loop hloop).size_le
            exact ih (by rw [hcheck.src]; exact henter.trans_lt hsize₁) h
        | none =>
          cases htz : icalTzTypeOf np.val with
          | some tz =>
            rw [ht, htz] at h
            rcases bind_eq_none.mp h with h | ⟨u, p₂, hzone, h⟩
            · exact icalParsetz_told hsize₁ h
            · exact ih ((tzBlock_of_parsetz hzone).size_le.trans_lt hsize₁) h
          | none =>
            rw [ht, htz] at h
            exact ih hsize₁ h
      · split at h
        · split at h
          · cases h
          · exact ih hsize₁ h
        · rcases bind_eq_none.mp h with h | ⟨u, p₂, hline, h⟩
          · simp only [icalCompLine, gets_bind] at h
            rcases bind_eq_none.mp h with h | ⟨r, q, -, h⟩
            · exact value_told (icalCompField_reports _ _) _ _ h
            · cases h
          · exact ih (by rw [icalCompLine_src hline]; exact hsize₁) h
    · cases h

/-- Whatever makes a parse fail has left a message. -/
theorem icalParse_message {file : Option String} {erange : Bool} {cp : Bytes} {pos : Nat}
    (h : (icalParse C file erange cp pos).1 = none) : (icalParse C file erange cp pos).2.er.isSome := by
  rcases hrun : icalParseFrom C file erange (cp.drop pos) with ⟨_ | u, p'⟩
  · suffices htold : p'.Told by
      unfold icalParse
      rw [hrun]
      exact htold
    unfold icalParseFrom icalParseCalendar at hrun
    rcases bind_eq_none.mp hrun with h | ⟨np, p₁, hnext, h⟩
    · exact icalNext_told _ _ h
    have hsize : size p₁.src ≤ size (cp.drop pos) := icalNext_size hnext
    split at h
    · exact value_told (.icalFail _) _ _ h
    split at h
    · exact value_told (.icalFail _) _ _ h
    rcases bind_eq_none.mp h with h | ⟨u, p₂, -, h⟩
    · exact icalParsecompWith_told
        (fun q hq => icalParsecompLoop_told (p := enterComp .vcalendar p₁) _ (Nat.lt_succ_of_le hsize) hq) h
    · simp only [icalPostparse, gets_bind] at h
      rcases bind_eq_none.mp h with h | ⟨i, q, -, h⟩
      · exact value_told (icalPostparseTypes_reports _ _ _) _ _ h
      · cases h
  · unfold icalParse at h
    rw [hrun] at h
    cases h

end

/-! ## Numbers of a duration -/

/-- `strtoul` turns the digits before a designator away. -/
def numberRejected (C : Libc) (erange : Bool) (digits : Bytes) : Bool :=
  digits = [] || ULONG_MAX < decimal digits || (decimal digits = ULONG_MAX && C.errnoAt erange)

def isDesignator (type : UInt8) : Bool := (icalDurationSet .zero type 0).isSome

/-- The text is good as far as its last designator, and the number before that one is
turned away; `digits` have been read since the designator before. -/
def durationSlipsFrom (C : Libc) : Bool → Bytes → Bytes → Bool
  | _, _, [] => false
  | erange, digits, c :: cp =>
    if isDigit c then durationSlipsFrom C erange (digits ++ [c]) cp
    else if c = 84 ∧ digits = [] then durationSlipsFrom C erange [] cp
    else if !isDesignator c then false
    else if numberRejected C erange digits then cp.isEmpty
    else durationSlipsFrom C (C.errnoAt erange) [] cp

def durationSlips (C : Libc) (erange : Bool) (val : Bytes) : Bool := durationSlipsFrom C erange [] (durationText val)

theorem strtoul_digits {ds : Bytes} (h : ds.all isDigit) : strtoul ds =
    if ds = [] then ⟨0, false, [], false⟩
    else if ULONG_MAX < decimal ds then ⟨ULONG_MAX, true, [], true⟩ else ⟨decimal ds, true, [], false⟩ := by
  by_cases hnil : ds = []
  · subst hnil
    rfl
  · have hds : Numeric ds := ⟨hnil, List.all_eq_true.mp h⟩
    have htext := (Literal.ofDigits ds hds).strtoul_text
    rw [(Literal.bare_ofDigits ds hds).word] at htext
    rw [if_neg hnil]
    exact htext

theorem icalUlong_digits {ds : Bytes} (h : ds.all isDigit) (d : Diag) :
    (icalUlong C ds 0 ULONG_MAX d).1 = (if numberRejected C d.erange ds then none else some (decimal ds)) ∧
      (icalUlong C ds 0 ULONG_MAX d).2.erange = (C.errnoAt d.erange || decide (ULONG_MAX < decimal ds)) := by
  obtain ⟨hval, herange⟩ := icalNumber_apply (C := C) (strtoul ds) (fun v => v = ULONG_MAX)
    (fun v => 0 ≤ v && v ≤ ULONG_MAX) "bad unsigned long" d
  unfold icalUlong
  rw [hval, herange, strtoul_digits h]
  unfold numberRejected
  by_cases hnil : ds = []
  · subst hnil
    exact ⟨rfl, rfl⟩
  · by_cases hbig : ULONG_MAX < decimal ds
    · simp [hnil, hbig]
    · have hle : decimal ds ≤ ULONG_MAX := by omega
      by_cases hmax : decimal ds = ULONG_MAX
      · cases he : C.errnoAt d.erange <;> simp [hnil, hmax]
      · simp [hnil, hbig, hle, hmax]

/-! ## Successes -/

/-- A success leaves the messages alone. -/
def Quiet (x : Value α) : Prop := ∀ d a d', x d = (some a, d') → d'.er = d.er

theorem icalNumber_quiet (r : Converted α) (extreme inBounds : α → Bool) (msg : String) :
    Quiet (icalNumber C r extreme inBounds msg) := by
  intro d a d' h
  obtain ⟨errno, e, hconv, h⟩ := bind_eq_some.mp h
  cases hconv
  split at h
  · cases h
  split at h
  · cases h
  split at h
  · cases h
  · cases h
    rfl

/-- What number conversions keep, everything built of them keeps. -/
theorem Uniform.quiet {x : Value α} (hx : Uniform C x) : Quiet x := by
  intro d a d' h
  obtain ⟨_, _, -, -, -, her⟩ := hx (fun d₁ d₂ => d₁ = d₂ ∧ d₁.er = d.er) (fun r extreme inBounds msg d₁ d₂ b e hd hb =>
    ⟨b, e, hd.1 ▸ hb, rfl, rfl, (icalNumber_quiet r extreme inBounds msg d₁ b e hb).trans hd.2⟩) d d a d' ⟨rfl, rfl⟩ h
  exact her

theorem durationSlipsFrom_digits {ds : Bytes} (h : ds.all isDigit) (erange : Bool) (digits cp : Bytes) :
    durationSlipsFrom C erange digits (ds ++ cp) = durationSlipsFrom C erange (digits ++ ds) cp := by
  induction ds generalizing digits with
  | nil => rw [List.append_nil, List.nil_append]
  | cons c ds ih =>
    rw [List.all_cons, Bool.and_eq_true] at h
    rw [List.cons_append, durationSlipsFrom, if_pos h.1, ih h.2, List.append_assoc]
    rfl

/-- A scan that reaches the end of the text has left a message where a number slipped. -/
theorem icalDurationLoop_er (fuel : Nat) : ∀ {v v' : IcalDur} {front front' cp : Bytes} {d d' : Diag}, cp.length ≤ fuel →
    icalDurationLoop C fuel v front cp d = (some (v', front', []), d') →
    (d'.er.isSome ↔ d.er.isSome ∨ durationSlipsFrom C d.erange [] cp) := by
  have silent {d : Diag} {slips : Bool} (h : slips = false) : d.er.isSome ↔ d.er.isSome ∨ slips := by
    rw [h]
    simp
  induction fuel with
  | zero =>
    intro v v' front front' cp d d' hf h
    obtain rfl := List.length_eq_zero_iff.mp (Nat.le_zero.mp hf)
    cases h
    exact silent rfl
  | succ fuel ih =>
    intro v v' front front' cp d d' hf h
    rcases scan_cases cp with rfl | ⟨cp, rfl⟩ | hds | ⟨ds, c, cp, hds, hc, hmark, rfl⟩
    · cases h
      exact silent rfl
    · have hskip : durationSlipsFrom C d.erange [] (84 :: cp) = durationSlipsFrom C d.erange [] cp := rfl
      rw [scan_mark] at h
      split at h
      · cases h
      · rw [hskip]
        exact ih (Nat.le_of_succ_le_succ hf) h
    · have hslips := durationSlipsFrom_digits (C := C) (List.all_eq_true.mpr hds.2) d.erange [] []
      rw [List.append_nil] at hslips
      rw [scan_digits hds] at h
      cases h
      exact silent hslips
    · have hall : ds.all isDigit := List.all_eq_true.mpr hds
      have htype : ¬(c = 84 ∧ ds = []) := fun hboth => hmark hboth.1 hboth.2
      have hlen : cp.length ≤ fuel := by
        rw [List.length_append, List.length_cons] at hf
        omega
      rw [durationSlipsFrom_digits hall, List.nil_append, durationSlipsFrom, if_neg hc, if_neg htype]
      rw [scan_byte hds hc hmark] at h
      have hsome := icalDurationSet_isSome v .zero c 0 0
      cases hset : icalDurationSet v c 0 with
      | none =>
        rw [hset] at h hsome
        cases h
        rw [if_pos (by rw [isDesignator, ← hsome]; rfl)]
        exact silent rfl
      | some w =>
        rw [hset] at h hsome
        rw [if_neg (by rw [isDesignator, ← hsome]; simp)]
        dsimp only at h
        obtain ⟨hval, herange⟩ := icalUlong_digits (C := C) hall d
        rcases hnum : icalUlong C ds 0 ULONG_MAX d with ⟨_ | n, d₁⟩
        · rw [hnum] at h hval
          cases h
          have htold : d'.er.isSome := icalNumber_reports _ _ _ _ _ _ hnum
          split at hval
          next hrejected =>
            rw [if_pos hrejected]
            exact iff_of_true htold (.inr rfl)
          · cases hval
        · rw [hnum] at h hval herange
          have hquiet : d₁.er = d.er := icalNumber_quiet _ _ _ _ _ _ _ hnum
          split at hval
          · cases hval
          next hread =>
            rw [if_neg hread, ih hlen h, hquiet, herange]
            have hmax : ¬ULONG_MAX < decimal ds := by
              intro hbig
              exact hread (by simp [numberRejected, hbig])
            rw [decide_eq_false hmax, Bool.or_false]

theorem icalDuration_er {val : Bytes} {d d' : Diag} {r : IcalDur × Bytes} (h : icalDuration C val d = (some r, d')) :
    d'.er.isSome ↔ d.er.isSome ∨ durationSlips C d.erange val := by
  unfold icalDuration at h
  split at h
  · dsimp only at h
    split at h
    · cases h
    · obtain ⟨⟨v, front, cp'⟩, e, hloop, h⟩ := bind_eq_some.mp h
      dsimp only at h
      split at h
      next hnil =>
        subst hnil
        cases h
        exact icalDurationLoop_er _ le_rfl hloop
      · cases h
  · cases h

theorem icalCompField_er {np : IcalNode} {c : IcalComp} {d d' : Diag} {r : IcalComp × Bytes}
    (h : icalCompField C np c d = (some r, d')) :
    d'.er.isSome ↔ d.er.isSome ∨ strcaseEq np.name (ascii "duration") ∧ durationSlips C d.erange np.val := by
  have quiet {β : Type} {x : Value β} (hx : Uniform C x) {f : β → IcalComp × Bytes}
      (h : (x >>= fun a => pure (f a)) d = (some r, d')) (hname : strcaseEq np.name (ascii "duration") = false) :
      d'.er.isSome ↔ d.er.isSome ∨ strcaseEq np.name (ascii "duration") ∧ durationSlips C d.erange np.val := by
    obtain ⟨a, e, hrun, h⟩ := bind_eq_some.mp h
    cases h
    rw [hx.quiet d a _ hrun, hname]
    simp
  unfold icalCompField at h
  rcases ite_cases h with ⟨hname, h⟩ | ⟨-, h⟩
  · exact quiet (icalString_uniform _) h (strcaseEq_ne hname (by decide))
  rcases ite_cases h with ⟨hname, h⟩ | ⟨-, h⟩
  · exact quiet (icalUtcdatetime_uniform _) h (strcaseEq_ne hname (by decide))
  rcases ite_cases h with ⟨hname, h⟩ | ⟨-, h⟩
  · exact quiet (icalUtcdatetime_uniform _) h (strcaseEq_ne hname (by decide))
  rcases ite_cases h with ⟨hname, h⟩ | ⟨-, h⟩
  · exact quiet (icalUtcdatetime_uniform _) h (strcaseEq_ne hname (by decide))
  rcases ite_cases h with ⟨hname, h⟩ | ⟨-, h⟩
  · exact quiet (icalTzdatetime_uniform _) h (strcaseEq_ne hname (by decide))
  rcases ite_cases h with ⟨hname, h⟩ | ⟨-, h⟩
  · exact quiet (icalTzdatetime_uniform _) h (strcaseEq_ne hname (by decide))
  rcases ite_cases h with ⟨hname, h⟩ | ⟨hduration, h⟩
  · obtain ⟨⟨v, buf⟩, e, hrun, h⟩ := bind_eq_some.mp h
    cases h
    rw [icalDuration_er hrun]
    simp [hname]
  · have hname : strcaseEq np.name (ascii "duration") = false := by simpa using hduration
    rcases ite_cases h with ⟨-, h⟩ | ⟨-, h⟩
    · exact quiet (icalString_uniform _) h hname
    rcases ite_cases h with ⟨-, h⟩ | ⟨-, h⟩
    · exact quiet (icalRrule_uniform _ _) h hname
    · cases h
      rw [hname]
      simp

/-! ## An accepted file -/

/-- The line is a `DURATION` of the innermost component, and slips. -/
def Machine.slips (C : Libc) (m : Machine) (np : IcalNode) : Bool :=
  m.block.isNone && strcaseEq np.name (ascii "duration") && durationSlips C m.erange np.val

/-- One of the lines up to where nothing is open slips. -/
def Machine.slipped (C : Libc) : Machine → List Bytes → Bool
  | _, [] => false
  | m, l :: ls => !m.finished && (lineNode l).any fun np =>
      m.slips C np || (m.line C np).any fun m => slipped C m ls

def icalSlipped (C : Libc) (erange : Bool) : List Bytes → Bool
  | [] => false
  | l :: ls => (lineNode l).any fun np => (Machine.start np erange).slipped C ls

theorem Machine.Takes.er {np : IcalNode} {m m' : Machine} (h : Machine.Takes C np m m') {d : Diag} (hd : d.erange = m.erange) :
    (m.lineDiag C np d).er.isSome ↔ d.er.isSome ∨ m.slips C np := by
  have silent {b : Bool} (hb : b = false) : d.er.isSome ↔ d.er.isSome ∨ b := by
    rw [hb]
    simp
  have begin {c : CompRef} {cs : List CompRef} {i : Ical} {e : Bool} (hbegin : np.isBegin) :
      (Machine.lineDiag C ⟨c :: cs, none, i, e⟩ np d).er.isSome ↔ d.er.isSome ∨ Machine.slips C ⟨c :: cs, none, i, e⟩ np := by
    have hname : strcaseEq np.name (ascii "duration") = false := by
      rw [IcalNode.isBegin, strcaseEq_comm] at hbegin
      exact strcaseEq_ne hbegin (by decide)
    rw [Machine.lineDiag_comp, if_pos (by rw [hbegin, Bool.true_or])]
    exact silent (by simp [Machine.slips, hname])
  have ends {c : CompRef} {cs : List CompRef} {i : Ical} {e : Bool} (hend : np.isEnd) :
      (Machine.lineDiag C ⟨c :: cs, none, i, e⟩ np d).er.isSome ↔ d.er.isSome ∨ Machine.slips C ⟨c :: cs, none, i, e⟩ np := by
    have hname : strcaseEq np.name (ascii "duration") = false := by
      rw [IcalNode.isEnd, strcaseEq_comm] at hend
      exact strcaseEq_ne hend (by decide)
    rw [Machine.lineDiag_comp, if_pos (by rw [hend, Bool.or_true])]
    exact silent (by simp [Machine.slips, hname])
  cases h with
  | endBlock hend =>
    rw [Machine.lineDiag_block, if_pos hend]
    exact silent rfl
  | skipBlock hend =>
    rw [Machine.lineDiag_block, if_pos hend]
    exact silent rfl
  | @fieldBlock _ _ _ _ e _ hend hunder =>
    rw [← show d.erange = e from hd] at hunder
    obtain ⟨d', hfield, -⟩ := (under_eq_some (icalTzField_plain np _)).mp hunder
    rw [Machine.lineDiag_block, if_neg hend, hfield, (icalTzField_uniform np _).quiet _ _ _ hfield]
    exact silent rfl
  | beginComp hbegin => exact begin hbegin
  | beginBlock hbegin => exact begin hbegin
  | unknown hbegin => exact begin hbegin
  | endComp _ hend => exact ends hend
  | skip _ hend => exact ends hend
  | @field _ _ _ e _ _ _ hbegin hend hunder =>
    rw [← show d.erange = e from hd] at hunder
    obtain ⟨d', hfield, -⟩ := (under_eq_some (icalCompField_plain np _)).mp hunder
    rw [Machine.lineDiag_comp, if_neg (by simp [hbegin, hend]), hfield, icalCompField_er hfield, hd]
    simp [Machine.slips]

section
variable {ρ : Type} [LineReader ρ]

/-- A parse that goes where the machine runs has a message in the end if it had one, or
if a line slipped. -/
theorem rest_er (ls : List RawLine) : ∀ {m m' : Machine} {p : IcalParse ρ} {i : Ical} {rest : List Bytes}, m.At p →
    lines p.src = ls → m.run C (ls.map RawLine.text) = some (m', rest) → m'.close = some i →
    ∃ p', Rest C m.opened m.block p p' ∧ p'.ical = i ∧ (p'.Told ↔ p.Told ∨ m.slipped C (ls.map RawLine.text)) := by
  induction ls with
  | nil =>
    intro m m' p i rest hat hls hrun hclose
    have hr := lines_nil.mp hls
    cases hrun
    obtain ⟨p', h, hi⟩ := (rest_close hat hr).mpr hclose
    refine ⟨p', h, hi, ?_⟩
    have hdiag : p'.diag = p.diag := by
      cases hb : m.block with
      | none =>
        rw [hb] at h
        rw [((rest_eof hr).mp h).1]
      | some z =>
        rw [hb] at h
        rw [((rest_block_eof hr).mp h).2.1]
    rw [IcalParse.Told, hdiag]
    simp [Machine.slipped, IcalParse.Told]
  | cons l ls ih =>
    intro m m' p i rest hat hls hrun hclose
    obtain ⟨src, hr, hls'⟩ := lines_cons hls
    rw [List.map_cons, Machine.run] at hrun
    by_cases hfin : m.finished
    · rw [if_pos hfin] at hrun
      cases hrun
      rw [Machine.close_finished hfin] at hclose
      cases hclose
      obtain ⟨hopened, hblock⟩ := Machine.finished_iff.mp hfin
      rw [hopened, hblock]
      exact ⟨p, .done p, hat.ical, by simp [Machine.slipped, hfin]⟩
    · rw [if_neg hfin] at hrun
      obtain ⟨m₁, hstep, hrun⟩ := Option.bind_eq_some_iff.mp hrun
      obtain ⟨np, hnode, hline⟩ := Option.bind_eq_some_iff.mp hstep
      have htakes := (Machine.line_eq_some C).mp hline
      obtain ⟨p₁, hat₁, hsrc, hdiag, hback⟩ := Rest.of_takes hat hr hnode htakes
      obtain ⟨p', h, hi, htold⟩ := ih hat₁ (hsrc ▸ hls') hrun hclose
      have hline_er : p₁.Told ↔ p.Told ∨ m.slips C np := by
        rw [IcalParse.Told, hdiag]
        exact htakes.er hat.erange
      refine ⟨p', hback p' h, hi, ?_⟩
      rw [htold, hline_er, or_assoc]
      simp [Machine.slipped, hfin, hnode, hline]

omit [LineReader ρ] in
theorem icalPostparse_told {p p' : IcalParse ρ} (h : icalPostparse p = (some (), p')) : p'.Told ↔ p.Told := by
  obtain ⟨i, d, hi, rfl⟩ := icalPostparse_some h
  obtain ⟨-, -, -, -, her⟩ := icalPostparseTypes_constant (D := fun d _ => d.er = p.diag.er) _ _ _ p.diag p.diag i d rfl hi
  rw [IcalParse.Told, her]
  rfl

/-- An accepted file leaves a message where one of its durations slipped. -/
theorem icalParseFrom_told {file : Option String} {erange : Bool} {src : ρ} {p' : IcalParse ρ}
    (h : icalParseFrom C file erange src = (some (), p')) :
    p'.Told ↔ icalSlipped C erange ((lines src).map RawLine.text) := by
  have hmachine := icalParseFrom_machine.mp ⟨p', h, rfl, rfl⟩
  cases hls : lines src with
  | nil =>
    rw [hls] at hmachine
    cases hmachine
  | cons l ls =>
    obtain ⟨src', hr, hls'⟩ := lines_cons hls
    have hstart := IcalParse.stale_start file erange src
    have hread : read (IcalParse.start file erange src).src = some (l, src') := hr
    rw [hls, List.map_cons, icalMachine] at hmachine
    obtain ⟨np, hnode, hmachine⟩ := Option.bind_eq_some_iff.mp hmachine
    rw [Option.ite_none_right_eq_some, Bool.and_eq_true] at hmachine
    obtain ⟨⟨hbegin, hcal⟩, hmachine⟩ := hmachine
    obtain ⟨⟨m', rest⟩, hrun, hmachine⟩ := Option.bind_eq_some_iff.mp hmachine
    obtain ⟨i, hi, -⟩ := Option.map_eq_some_iff.mp hmachine
    obtain ⟨j, hclose, hlink⟩ := Option.bind_eq_some_iff.mp hi
    obtain ⟨p₁, hnext⟩ := (next_lineNode hstart hread).mpr hnode
    have hsrc : p₁.src = src' := next_src hread hnext
    obtain ⟨p₂, hrest, rfl, htold⟩ := rest_er (C := C) ls (start_at hnext) ((congrArg lines hsrc).trans hls') hrun hclose
    obtain ⟨q, hpost, -⟩ := icalLink_iff.mp hlink
    have hcomp : newComp .vcalendar p₁ = ⟨.vcalendar, 0⟩ := by
      obtain ⟨l', src₁, -, -, -, rfl⟩ := (next_iff hstart).mp hnext
      rfl
    cases hrest with
    | comp hcrun hcomplete hdone =>
      cases hdone
      rw [← hcomp] at hcrun hcomplete
      have hparse := icalParseFrom_iff.mpr (.intro hnext hbegin hcal hcrun (hcomplete.valued _ _) hpost)
      rw [h] at hparse
      cases hparse
      have hclear : ¬(enterComp .vcalendar p₁).Told := by
        obtain ⟨l', src₁, -, -, -, rfl⟩ := (next_iff hstart).mp hnext
        exact Bool.false_ne_true
      rw [icalPostparse_told hpost, htold]
      simp [hclear, icalSlipped, hnode]

end

/-- The lines are a calendar's, and one of its durations slips. -/
def icalSlips (C : Libc) (erange : Bool) (ls : List Bytes) : Bool :=
  (icalMachine C erange ls).isSome && icalSlipped C erange ls

/-- The parser returns nothing exactly where it leaves a message, save for the files in
which a duration slips through. -/
theorem icalParse_reports_iff (C : Libc) (file : Option String) (erange : Bool) (cp : Bytes) (pos : Nat) :
    ((icalParse C file erange cp pos).1 = none ↔ (icalParse C file erange cp pos).2.er.isSome) ↔
      ¬icalSlips C erange (unfoldLines (cp.drop pos)) := by
  rcases hrun : icalParseFrom C file erange (cp.drop pos) with ⟨_ | u, p'⟩
  · have hnone : (icalParse C file erange cp pos).1 = none := by
      unfold icalParse
      rw [hrun]
      rfl
    have hmachine : icalMachine C erange (unfoldLines (cp.drop pos)) = none := by
      have hical := icalParse_ical (C := C) file erange cp pos
      rw [hnone] at hical
      exact Option.map_eq_none_iff.mp hical.symm
    refine iff_of_true (iff_of_true hnone (icalParse_message hnone)) ?_
    rw [icalSlips, hmachine]
    exact Bool.false_ne_true
  · have hsome : icalParse C file erange cp pos = (some (p'.ical, cp.length - p'.src.length), p'.diag) := by
      unfold icalParse
      rw [hrun]
      rfl
    have hmachine := icalParseFrom_machine.mp ⟨p', hrun, rfl, rfl⟩
    have htold := icalParseFrom_told hrun
    rw [hsome, icalSlips, show icalMachine C erange (unfoldLines (cp.drop pos)) = _ from hmachine, Option.isSome_some,
      Bool.true_and, unfoldLines, ← htold]
    simp [IcalParse.Told]

/-- A duration without a number is taken, and leaves a message. -/
theorem icalParse_not_reported :
    let r := icalParse .utc none false (ascii "BEGIN:VCALENDAR\nDURATION:PD\nEND:VCALENDAR\n") 0
    r.2.er = some "<buffer>:2: bad unsigned long" ∧ ¬(r.1 = none ↔ r.2.er.isSome) := by
  have hrun : (icalParse .utc none false (ascii "BEGIN:VCALENDAR\nDURATION:PD\nEND:VCALENDAR\n") 0).1.isSome ∧
      (icalParse .utc none false (ascii "BEGIN:VCALENDAR\nDURATION:PD\nEND:VCALENDAR\n") 0).2.er =
        some "<buffer>:2: bad unsigned long" := by decide +kernel
  refine ⟨hrun.2, fun h => ?_⟩
  rw [hrun.2] at h
  rw [h.mpr rfl] at hrun
  exact Bool.false_ne_true hrun.1

end Kcaldav
