import Kcaldav.Ical.Date
import Kcaldav.Ical.Permute

/-! # Events without a start

`ical_parsecomp` takes the start of an event to be missing where its time is zero: where
no line sets it, and also where the last line that does stands for the epoch. What the
lines of a component set is followed through the components nested in it, which leave it
alone.
-/
namespace Kcaldav
open CString Fallible LineReader

variable {C : Libc} {ρ : Type} [LineReader ρ]

/-! ## The epoch -/

/-- The instant a date or date-time stands for, taken as UTC. -/
def utcInstant (cp : Bytes) : Option Int := (datetimeFields cp).map fun r => Libc.utc.mktime r.1

/-- Fields that a calendar and a clock can show. -/
structure Tm.InRange (tm : Tm) : Prop where
  mon : 0 ≤ tm.mon ∧ tm.mon < 12
  mday : 1 ≤ tm.mday ∧ tm.mday ≤ 31
  hour : 0 ≤ tm.hour ∧ tm.hour < 24
  min : 0 ≤ tm.min ∧ tm.min < 60
  sec : 0 ≤ tm.sec ∧ tm.sec < 60

/-- Day zero is in the fifth of the periods of 400 years, and in its 370th. -/
theorem era_year {y doy : Int}
    (h : y / 400 * 146097 + (y - y / 400 * 400) * 365 + (y - y / 400 * 400) / 4 - (y - y / 400 * 400) / 100 + doy - 719468 = 0)
    (hdoy : 0 ≤ doy ∧ doy ≤ 367) :
    y = 1969 ∧ doy = 306 := by
  have hera : y / 400 = 4 := by omega
  rw [hera] at h
  have hyear : y = 1969 := by omega
  subst hyear
  omega

theorem daysFromCivil_eq_zero {year mon mday : Int} (hmon : 1 ≤ mon ∧ mon ≤ 12) (hmday : 1 ≤ mday ∧ mday ≤ 31) :
    daysFromCivil year mon mday = 0 ↔ year = 1970 ∧ mon = 1 ∧ mday = 1 := by
  unfold daysFromCivil
  dsimp only
  rw [Int.fdiv_eq_ediv_of_nonneg _ (by omega)]
  constructor
  · intro h
    obtain ⟨hyear, hdoy⟩ := era_year h (by omega)
    omega
  · rintro ⟨rfl, rfl, rfl⟩
    decide

/-- In range only the first second of 1970 is the instant zero. -/
theorem utc_mktime_eq_zero {tm : Tm} (h : tm.InRange) : Libc.utc.mktime tm = 0 ↔ tm = ⟨70, 0, 1, 0, 0, 0⟩ := by
  obtain ⟨year, mon, mday, hour, min, sec⟩ := tm
  obtain ⟨hmon, hmday, hhour, hmin, hsec⟩ := h
  dsimp only at hmon hmday hhour hmin hsec
  have hcarry : mon.fdiv 12 = 0 := by
    rw [Int.fdiv_eq_ediv_of_nonneg _ (by omega)]
    omega
  have hmonth : mon.fmod 12 = mon := by
    rw [Int.fmod_eq_emod_of_nonneg _ (by omega)]
    omega
  have hdays : daysFromCivil (year + 1900) (mon + 1) mday = 0 ↔ year + 1900 = 1970 ∧ mon + 1 = 1 ∧ mday = 1 :=
    daysFromCivil_eq_zero (by omega) hmday
  change daysFromCivil (year + 1900 + mon.fdiv 12) (mon.fmod 12 + 1) mday * 86400 + hour * 3600 + min * 60 + sec = 0 ↔ _
  rw [hcarry, hmonth, add_zero]
  constructor
  · intro hzero
    obtain ⟨hyear, hmon1, hmday1⟩ := hdays.mp (by omega)
    simp only [Tm.mk.injEq]
    omega
  · intro heq
    cases heq
    decide

/-- Of the values in range only the epoch itself stands for the instant zero. -/
theorem utcInstant_eq_zero {cp : Bytes} {r : Tm × IcalDateT} (hr : datetimeFields cp = some r) (h : r.1.InRange) :
    utcInstant cp = some 0 ↔ r.1 = ⟨70, 0, 1, 0, 0, 0⟩ := by
  rw [utcInstant, hr, Option.map_some, Option.some.injEq]
  exact utc_mktime_eq_zero h

/-! ## What nested components leave alone -/

omit [LineReader ρ] in
/-- A new component is none of those that are there. -/
theorem ne_newComp {c : CompRef} {type : IcalType} {p : IcalParse ρ} (hc : (p.ical.comp? c).isSome) : newComp type p ≠ c := by
  rintro rfl
  simp [newComp, Ical.comp?] at hc

omit [LineReader ρ] in
theorem enterComp_comp? {c : CompRef} {type : IcalType} {p : IcalParse ρ} (hc : (p.ical.comp? c).isSome) :
    (enterComp type p).ical.comp? c = p.ical.comp? c :=
  (Ical.comp?_alloc type p.ical c).trans (if_neg (ne_newComp hc).symm)

omit [LineReader ρ] in
theorem Valued.comp? {α : Type} {x : Value α} {p p' : IcalParse ρ} {a : α} (h : Valued x p a p') (c : CompRef) :
    p'.ical.comp? c = p.ical.comp? c := by
  obtain ⟨d, -, rfl⟩ := valued_iff.mp h
  rfl

theorem TzBlock.comp? {tz : IcalTzType} {p p' : IcalParse ρ} (h : TzBlock C tz p p') {c : CompRef} (hc : c.type ≠ .vtimezone) :
    p'.ical.comp? c = p.ical.comp? c := by
  obtain ⟨z, p₁, p₂, -, hrun, hcheck, rfl⟩ := h
  have hzone : c ≠ ⟨.vtimezone, (p.ical.comps .vtimezone).length - 1⟩ := by
    rintro rfl
    exact hc rfl
  calc (addTz (p.ical.comps .vtimezone).length z p₂.ical).comp? c
    _ = p₂.ical.comp? c := (Ical.comp?_modifyComp _ _ _ c).trans (if_neg hzone)
    _ = p₁.ical.comp? c := hcheck.comp? c
    _ = p.ical.comp? c := comp?_congr hrun.comps c

section
variable {c d : CompRef} {p p₁ p' : IcalParse ρ}

/-- A round leaves a component alone whose property it does not read. -/
theorem CompRound.comp? {N : CompRef → IcalParse ρ → IcalParse ρ → Prop}
    (hN : ∀ d p p', N d p p' → d ≠ c → (p.ical.comp? c).isSome → p'.ical.comp? c = p.ical.comp? c)
    (h : CompRound C N d p p₁) (hown : d ≠ c ∨ ∃ np q, Next p np q ∧ (np.isBegin ∨ np.isEnd)) (htype : c.type ≠ .vtimezone)
    (hc : (p.ical.comp? c).isSome) : p₁.ical.comp? c = p.ical.comp? c := by
  cases h with
  | skip hnext => exact comp?_congr hnext.comps c
  | unknown hnext => exact comp?_congr hnext.comps c
  | zone hnext _ _ _ hzone => exact (hzone.comp? htype).trans (comp?_congr hnext.comps c)
  | @nested q₁ q₂ _ _ tt hnext _ _ hnested hcheck =>
    have hq := comp?_congr hnext.comps c
    have hc₁ : (q₁.ical.comp? c).isSome := by
      rw [hq]
      exact hc
    have henter : (enterComp tt q₁).ical.comp? c = q₁.ical.comp? c := enterComp_comp? hc₁
    have hc₂ : ((enterComp tt q₁).ical.comp? c).isSome := by
      rw [henter]
      exact hc₁
    rw [hcheck.comp? c, hN _ _ _ hnested (ne_newComp hc₁) hc₂, henter, hq]
  | field hnext hbegin hend hline =>
    have hne : d ≠ c := by
      rcases hown with hne | ⟨np', q, hnext', hmark⟩
      · exact hne
      · have heq := hnext.2.symm.trans hnext'.2
        cases heq
        exact absurd hmark (not_or.mpr ⟨hbegin, hend⟩)
    obtain ⟨x, val, diag, -, rfl⟩ := icalCompLine_iff.mp hline
    exact ((Ical.comp?_modifyComp d _ _ c).trans (if_neg hne.symm)).trans (comp?_congr hnext.comps c)

/-- The loop of another component leaves one alone that is there. -/
theorem CompRun.comp? (h : CompRun C d p p') (hd : d ≠ c) (htype : c.type ≠ .vtimezone) (hc : (p.ical.comp? c).isSome) :
    p'.ical.comp? c = p.ical.comp? c := by
  induction h using CompRun.roundInduction with
  | eof => rfl
  | stop d p p' np hnext => exact comp?_congr hnext.comps c
  | round d p p₁ p' hround _ _ ih =>
    have hfirst := hround.comp? (fun _ _ _ hN hne hc => hN.2 hne hc) (.inl hd) htype hc
    have hc₁ : (p₁.ical.comp? c).isSome := by
      rw [hfirst]
      exact hc
    exact (ih hd hc₁).trans hfirst

end

/-! ## What a line sets -/

def IcalNode.isUid (np : IcalNode) : Bool := strcaseEq np.name (ascii "uid")
def IcalNode.isStart (np : IcalNode) : Bool := strcaseEq np.name (ascii "dtstart")

theorem icalTzdatetime_time {np : IcalNode} {t : IcalTime} {d d' : Diag} (h : icalTzdatetime C np d = (some t, d')) :
    ∃ r, datetimeFields np.val = some r ∧ t.time = ⟨C.mktime r.1, r.2⟩ := by
  unfold icalTzdatetime at h
  obtain ⟨time, d₁, htime, h⟩ := bind_eq_some.mp h
  have hval := icalDatetime_val (C := C) np.val d
  rw [htime] at hval
  obtain ⟨r, hr, rfl⟩ := Option.map_eq_some_iff.mp hval.symm
  refine ⟨r, hr, ?_⟩
  cases hparam : np.param with
  | none =>
    rw [hparam] at h
    cases h
    rfl
  | some param =>
    rw [hparam] at h
    obtain ⟨tzstr, d₂, -, h⟩ := bind_eq_some.mp h
    cases h
    rfl

section
variable {np : IcalNode} {x y : IcalComp} {val : Bytes} {d d' : Diag}

/-- A line sets at most the field it names. -/
theorem field_value (h : icalCompField C np x d = (some (y, val), d')) :
    ∃ v, (∀ w ∈ v, strcaseEq np.name w.name) ∧ (compFields C).put x v = y := by
  rw [icalCompField_eq] at h
  obtain ⟨⟨v, buf⟩, d₁, hv, h⟩ := bind_eq_some.mp h
  cases h
  exact ⟨v, compValue_named C np x.rrule _ _ _ hv, rfl⟩

theorem field_type (h : icalCompField C np x d = (some (y, val), d')) : y.type = x.type := by
  obtain ⟨v, -, rfl⟩ := field_value h
  cases v with
  | none => rfl
  | some w => cases w <;> rfl

theorem field_uid (h : icalCompField C np x d = (some (y, val), d')) : y.uid.isSome ↔ x.uid.isSome ∨ np.isUid := by
  by_cases huid : np.isUid
  · have hname : strcaseEq np.name (ascii "uid") := huid
    unfold icalCompField at h
    rw [if_pos hname] at h
    obtain ⟨v, d₁, -, h⟩ := bind_eq_some.mp h
    cases h
    simp [huid]
  · obtain ⟨v, hnamed, rfl⟩ := field_value h
    have hsame : ((compFields C).put x v).uid = x.uid := by
      cases v with
      | none => rfl
      | some w =>
        cases w with
        | uid => exact absurd (hnamed _ rfl) huid
        | _ => rfl
    rw [hsame]
    simp [huid]

theorem field_other (h : icalCompField C np x d = (some (y, val), d')) (hstart : ¬np.isStart) : y.dtstart = x.dtstart := by
  obtain ⟨v, hnamed, rfl⟩ := field_value h
  cases v with
  | none => rfl
  | some w =>
    cases w with
    | dtstart => exact absurd (hnamed _ rfl) hstart
    | _ => rfl

theorem field_start (h : icalCompField C np x d = (some (y, val), d')) (hstart : np.isStart) :
    ∃ r, datetimeFields np.val = some r ∧ y.dtstart.time = ⟨C.mktime r.1, r.2⟩ := by
  have hname : strcaseEq np.name (ascii "dtstart") := hstart
  have hother (b : Bytes) (hb : strcaseEq (ascii "dtstart") b = false) : ¬strcaseEq np.name b := by
    rw [strcaseEq_comm] at hname
    rw [strcaseEq_left hname, hb]
    decide
  unfold icalCompField at h
  rw [if_neg (hother (ascii "uid") (by decide)), if_neg (hother (ascii "created") (by decide)),
    if_neg (hother (ascii "last-modified") (by decide)), if_neg (hother (ascii "dtstamp") (by decide)), if_pos hname] at h
  obtain ⟨t, d₁, ht, h⟩ := bind_eq_some.mp h
  cases h
  exact icalTzdatetime_time ht

end

/-! ## What the lines of a component set -/

/-- The last line that sets the start. -/
def lastStart (ns : List IcalNode) : Option IcalNode := (ns.filter IcalNode.isStart).getLast?

theorem lastStart_cons_start {np : IcalNode} (h : np.isStart) (ns : List IcalNode) :
    lastStart (np :: ns) = some ((lastStart ns).getD np) := by
  unfold lastStart
  rw [List.filter_cons_of_pos h, List.getLast?_cons]

theorem lastStart_cons_other {np : IcalNode} (h : ¬np.isStart) (ns : List IcalNode) : lastStart (np :: ns) = lastStart ns := by
  unfold lastStart
  rw [List.filter_cons_of_neg h]

theorem lastStart_isSome (ns : List IcalNode) : (lastStart ns).isSome ↔ ∃ np ∈ ns, np.isStart := by
  unfold lastStart
  rw [Option.isSome_iff_ne_none, ne_eq, List.getLast?_eq_none_iff, List.filter_eq_nil_iff]
  push Not
  rfl

variable (C) in
/-- What property lines, one after the other, make of a record. -/
inductive Makes : IcalComp → List IcalNode → IcalComp → Prop
  | nil {x : IcalComp} : Makes x [] x
  | cons {x y z : IcalComp} {np : IcalNode} {ns : List IcalNode} {val : Bytes} {d d' : Diag} :
    icalCompField C np x d = (some (y, val), d') → Makes y ns z → Makes x (np :: ns) z

section
variable {x y : IcalComp} {ns : List IcalNode}

theorem Makes.type (h : Makes C x ns y) : y.type = x.type := by
  induction h with
  | nil => rfl
  | cons hfield _ ih => exact ih.trans (field_type hfield)

theorem Makes.uid (h : Makes C x ns y) : y.uid.isSome ↔ x.uid.isSome ∨ ∃ np ∈ ns, np.isUid := by
  induction h with
  | nil => simp
  | cons hfield _ ih =>
    rw [ih, field_uid hfield, or_assoc]
    simp only [List.mem_cons, exists_eq_or_imp]

/-- The start is that of the last line that sets it. -/
theorem Makes.start (h : Makes C x ns y) : (lastStart ns = none → y.dtstart = x.dtstart) ∧
    ∀ np, lastStart ns = some np → ∃ r, datetimeFields np.val = some r ∧ y.dtstart.time = ⟨C.mktime r.1, r.2⟩ := by
  induction h with
  | nil =>
    refine ⟨fun _ => rfl, fun np hnp => ?_⟩
    cases hnp
  | @cons x y z np ns val d d' hfield hmakes ih =>
    by_cases hstart : np.isStart
    · rw [lastStart_cons_start hstart]
      refine ⟨fun hnone => absurd hnone (Option.some_ne_none _), fun np' hnp' => ?_⟩
      cases hlast : lastStart ns with
      | none =>
        rw [hlast] at hnp'
        cases hnp'
        rw [ih.1 hlast]
        exact field_start hfield hstart
      | some np'' =>
        rw [hlast] at hnp'
        cases hnp'
        exact ih.2 _ hlast
    · rw [lastStart_cons_other hstart]
      exact ⟨fun hnone => (ih.1 hnone).trans (field_other hfield hstart), ih.2⟩

end

/-! ## A component's own lines -/

variable (C) in
/-- A run of a component, and the property lines that are its own: those of the components
and blocks in it are not. -/
inductive OwnRun (c : CompRef) : List IcalNode → IcalParse ρ → IcalParse ρ → Prop
  | eof {p : IcalParse ρ} : read p.src = none → OwnRun c [] p p
  | stop {p p' : IcalParse ρ} {np : IcalNode} :
    Next p np p' → ¬np.isBegin → np.isEnd → strcaseEq c.type.name np.val → OwnRun c [] p p'
  | aside {ns : List IcalNode} {p q p₁ p' : IcalParse ρ} {np : IcalNode} :
    Next p np q → np.isBegin ∨ np.isEnd → CompRound C (CompRun C) c p p₁ → OwnRun c ns p₁ p' → OwnRun c ns p p'
  | field {ns : List IcalNode} {p p₁ p₂ p' : IcalParse ρ} {np : IcalNode} :
    Next p np p₁ → ¬np.isBegin → ¬np.isEnd → icalCompLine C c np p₁ = (some (), p₂) → OwnRun c ns p₂ p' →
    OwnRun c (np :: ns) p p'

section
variable {c : CompRef} {p p' : IcalParse ρ}

/-- Every run has its own lines. -/
theorem ownRun_iff : (∃ ns, OwnRun C c ns p p') ↔ CompRun C c p p' := by
  constructor
  · rintro ⟨ns, h⟩
    induction h with
    | eof hr => exact .eof hr
    | stop hnext hbegin hend hval => exact .stop hnext hbegin hend hval
    | aside _ _ hround _ ih => exact .round hround ih
    | field hnext hbegin hend hline _ ih => exact .field hnext hbegin hend hline ih
  · intro h
    induction h with
    | eof hr => exact ⟨[], .eof hr⟩
    | stop hnext hbegin hend hval => exact ⟨[], .stop hnext hbegin hend hval⟩
    | skip hnext hbegin hend hval _ ih =>
      obtain ⟨ns, hns⟩ := ih
      exact ⟨ns, .aside hnext (.inr hend) (.skip hnext hbegin hend hval) hns⟩
    | unknown hnext hbegin ht htz _ ih =>
      obtain ⟨ns, hns⟩ := ih
      exact ⟨ns, .aside hnext (.inl hbegin) (.unknown hnext hbegin ht htz) hns⟩
    | zone hnext hbegin ht htz hzone _ ih =>
      obtain ⟨ns, hns⟩ := ih
      exact ⟨ns, .aside hnext (.inl hbegin) (.zone hnext hbegin ht htz hzone) hns⟩
    | nested hnext hbegin ht hnested hcheck _ _ ih =>
      obtain ⟨ns, hns⟩ := ih
      exact ⟨ns, .aside hnext (.inl hbegin) (.nested hnext hbegin ht hnested hcheck) hns⟩
    | field hnext hbegin hend hline _ ih =>
      obtain ⟨ns, hns⟩ := ih
      exact ⟨_, .field hnext hbegin hend hline hns⟩

/-- The record at the end is what its own lines make of the one at the start. -/
theorem OwnRun.makes {ns : List IcalNode} (h : OwnRun C c ns p p') (htype : c.type ≠ .vtimezone) :
    ∀ {x : IcalComp}, p.ical.comp? c = some x → ∃ y, p'.ical.comp? c = some y ∧ Makes C x ns y := by
  induction h with
  | eof => exact fun hx => ⟨_, hx, .nil⟩
  | stop hnext => exact fun hx => ⟨_, (comp?_congr hnext.comps c).trans hx, .nil⟩
  | @aside ns p q p₁ p' np hnext hmark hround _ ih =>
    intro x hx
    have hc : (p.ical.comp? c).isSome := by
      rw [hx]
      rfl
    have hsame := hround.comp? (fun _ _ _ hN hne => hN.comp? hne htype) (.inr ⟨np, q, hnext, hmark⟩) htype hc
    exact ih (hsame.trans hx)
  | @field ns p p₁ p₂ p' np hnext _ _ hline _ ih =>
    intro x hx
    have hx₁ : p₁.ical.comp? c = some x := (comp?_congr hnext.comps c).trans hx
    obtain ⟨y, val, d, hfield, rfl⟩ := icalCompLine_iff.mp hline
    rw [compAt_eq hx₁] at hfield
    have hy : (p₁.ical.modifyComp c fun _ => y).comp? c = some y := by
      rw [Ical.comp?_modifyComp, if_pos rfl, hx₁]
      rfl
    obtain ⟨z, hz, hmakes⟩ := ih hy
    exact ⟨z, hz, .cons hfield hmakes⟩

end

/-- Property lines that are valid one after the other are such a run. -/
theorem ownRun_body (hC : ∀ e, C.errnoAt e = false) {ls : List RawLine} (hls : ∀ l ∈ ls, PropertyLine l) {c : CompRef} {r : ρ}
    (hr : EndsAt c.type.name r) {x : IcalComp} : ∀ {p : IcalParse ρ}, Reads p.src ls r → (p.ical.comp? c).isSome →
    (compFields C).run (compAt c p.ical) (lineNodes ls) = some x →
    ∃ p', OwnRun C c (lineNodes ls) p p' ∧ compAt c p'.ical = x := by
  induction ls with
  | nil =>
    intro p hreads hc hrun
    cases hreads
    cases hrun
    rcases hr with h | ⟨l, r', np, hr, hnode, hend, hval⟩
    · exact ⟨p, .eof h, rfl⟩
    · obtain ⟨p', hnext, -, hcomps⟩ := next_line hr hnode
      have hmore : Next p np p' := ⟨by rw [hr, Option.isSome_some], hnext⟩
      exact ⟨p', .stop hmore (fun hbegin => begin_not_end hbegin hend) hend hval, compAt_congr hcomps c⟩
  | cons l ls ih =>
    intro p hreads hc hrun
    cases hreads with
    | cons hread hreads =>
      obtain ⟨np, hnode, hbegin, hend⟩ := (hls l List.mem_cons_self).node
      obtain ⟨p₁, hnext, rfl, hcomps⟩ := next_line hread hnode
      have hmore : Next p np p₁ := ⟨by rw [hread, Option.isSome_some], hnext⟩
      rw [lineNodes_cons hnode, LineFields.run_cons, ← compAt_congr hcomps] at hrun
      rcases compLine_sets hC c np p₁ with ⟨hstep, -⟩ | ⟨y, q, hstep, hline, hsrc, hq⟩
      · rw [hstep] at hrun
        cases hrun
      · rw [hstep, Option.bind_some] at hrun
        have hc₁ : (p₁.ical.comp? c).isSome := by
          rw [comp?_congr hcomps]
          exact hc
        have hc₂ : (q.ical.comp? c).isSome := by
          rw [comp?_congr hq, Ical.comp?_modifyComp, if_pos rfl, Option.isSome_map]
          exact hc₁
        have hy : compAt c q.ical = y := (compAt_congr hq c).trans (compAt_modifyComp hc₁ y)
        obtain ⟨p', hown, hx⟩ := ih (fun l' hl' => hls l' (List.mem_cons_of_mem l hl')) (hsrc ▸ hreads) hc₂ (hy ▸ hrun)
        rw [lineNodes_cons hnode]
        exact ⟨p', .field hmore hbegin hend hline hown, hx⟩

/-! ## Events -/

/-- The end of the rule has the format that the start asks for. -/
def IcalComp.UntilFits (c : IcalComp) : Prop :=
  c.rrule.set → c.rrule.until_.type ≠ .unset → c.dtstart.time.type ≠ .unset →
    c.rrule.until_.type = if c.dtstart.tzstr.isSome then .datetimeutc else c.dtstart.time.type

instance (c : IcalComp) : Decidable c.UntilFits := inferInstanceAs (Decidable (_ → _))

/-- An event with a name is complete where its time is not zero. -/
theorem event_complete_iff {c : IcalComp} (htype : c.type = .vevent) (huid : c.uid.isSome) (hfits : c.UntilFits) :
    c.Complete ↔ c.dtstart.time.tm ≠ 0 := by
  constructor
  · intro hcomplete
    exact (hcomplete.checked.event htype).2
  · intro htm line
    have huntil : ¬(c.rrule.set ∧ c.rrule.until_.type ≠ .unset ∧ c.dtstart.time.type ≠ .unset ∧
        c.rrule.until_.type ≠ (if c.dtstart.tzstr.isSome then .datetimeutc else c.dtstart.time.type)) :=
      fun h => h.2.2.2 (hfits h.1 h.2.1 h.2.2.1)
    have hnone : ¬c.uid.isNone := by
      rw [Option.isNone_iff_eq_none, ← ne_eq, ← Option.isSome_iff_ne_none]
      exact huid
    unfold icalCompCheck
    rw [if_neg huntil, htype]
    dsimp only
    rw [if_neg hnone, if_neg htm]

/-- After its loop a component is accepted where its record is complete. -/
theorem parsecomp_isSome {type : IcalType} {p p₂ : IcalParse ρ} (hrun : CompRun C (newComp type p) (enterComp type p) p₂)
    {fuel : Nat} (hfuel : size p.src < fuel) :
    (icalParsecomp C fuel type p).1.isSome ↔ (compAt (newComp type p) p₂.ical).Complete := by
  have hloop := loop_of_compRun hrun fuel hfuel
  constructor
  · intro hsome
    obtain ⟨u, hu⟩ := Option.isSome_iff_exists.mp hsome
    obtain ⟨q, hq, hcheck⟩ := icalParsecompWith_some.mp (Prod.ext hu rfl : icalParsecomp C fuel type p = (some (), _))
    have heq := hq.symm.trans hloop
    cases heq
    exact hcheck.complete.1
  · intro hcomplete
    have haccepted : icalParsecomp C fuel type p = (some (), p₂) :=
      icalParsecompWith_some.mpr ⟨p₂, hloop, hcomplete.valued _ _⟩
    rw [haccepted]
    rfl

/-- With `mktime` in UTC, an event with a name and valid lines is accepted exactly where it
has a start, if and only if the last of its starts is not the epoch. -/
theorem icalParsecomp_start_iff (hmktime : C.mktime = Libc.utc.mktime) {p p₂ : IcalParse ρ} {ns : List IcalNode}
    (hrun : OwnRun C (newComp .vevent p) ns (enterComp .vevent p) p₂) (huid : ∃ np ∈ ns, np.isUid)
    (hfits : (compAt (newComp .vevent p) p₂.ical).UntilFits) {fuel : Nat} (hfuel : size p.src < fuel) :
    ((icalParsecomp C fuel .vevent p).1.isSome ↔ ∃ np ∈ ns, np.isStart) ↔
      ∀ np ∈ lastStart ns, utcInstant np.val ≠ some 0 := by
  have hnew : (enterComp .vevent p).ical.comp? (newComp .vevent p) = some (.new .vevent) :=
    (Ical.comp?_alloc .vevent p.ical (newComp .vevent p)).trans (if_pos rfl)
  have hvevent : (newComp .vevent p).type ≠ .vtimezone := by
    intro h
    cases h
  obtain ⟨y, hy, hmakes⟩ := hrun.makes hvevent hnew
  rw [compAt_eq hy] at hfits
  have hcomplete := event_complete_iff hmakes.type (hmakes.uid.mpr (.inr huid)) hfits
  rw [parsecomp_isSome (ownRun_iff.mp ⟨ns, hrun⟩) hfuel, compAt_eq hy, hcomplete, ← lastStart_isSome]
  obtain ⟨hnone, hsome⟩ := hmakes.start
  cases hlast : lastStart ns with
  | none =>
    have htm : y.dtstart.time.tm = 0 := by
      rw [hnone hlast]
      rfl
    simp [htm]
  | some np =>
    obtain ⟨r, hr, htime⟩ := hsome np hlast
    have hinstant : utcInstant np.val = some y.dtstart.time.tm := by
      rw [utcInstant, hr, htime, hmktime]
      rfl
    simp [hinstant]

/-- An event with a name and the start given. -/
def startedLines (start : String) : List RawLine := ["UID:a", "DTSTART:" ++ start].map fun s => ⟨ascii s, 1⟩

theorem reads_all (ls : List RawLine) : Reads ls ls [] := by
  induction ls with
  | nil => exact .nil _
  | cons l ls ih => exact .cons rfl ih

/-- The lines of an event that ends with its source. -/
theorem ownRun_lines {ls : List RawLine} (hls : ∀ l ∈ ls, PropertyLine l) {x : IcalComp}
    (hrun : (compFields .utcClear).run (.new .vevent) (lineNodes ls) = some x) :
    ∃ p₂, OwnRun .utcClear (newComp .vevent (.start none false ls)) (lineNodes ls) (enterComp .vevent (.start none false ls)) p₂ ∧
      compAt (newComp .vevent (.start none false ls)) p₂.ical = x :=
  ownRun_body (fun _ => rfl) hls (.inl rfl) (reads_all ls) rfl hrun

theorem icalParsecomp_start_2020 :
    ((icalParsecomp .utcClear 3 .vevent (.start none false (startedLines "20200101T120000Z"))).1.isSome ↔
      ∃ np ∈ lineNodes (startedLines "20200101T120000Z"), np.isStart) ↔
    ∀ np ∈ lastStart (lineNodes (startedLines "20200101T120000Z")), utcInstant np.val ≠ some 0 := by
  have hls : ∀ l ∈ startedLines "20200101T120000Z", PropertyLine l := by decide +kernel
  have hsome : (((compFields .utcClear).run (.new .vevent) (lineNodes (startedLines "20200101T120000Z"))).any
      fun x => decide x.UntilFits) = true := by
    decide +kernel
  have huid : ∃ np ∈ lineNodes (startedLines "20200101T120000Z"), np.isUid := by decide +kernel
  obtain ⟨x, hrun, hfits⟩ := (Option.any_eq_true _ _).mp hsome
  obtain ⟨p₂, hown, rfl⟩ := ownRun_lines hls hrun
  have hmktime : Libc.utcClear.mktime = Libc.utc.mktime := rfl
  have hsize : size (IcalParse.start none false (startedLines "20200101T120000Z")).src < 3 := by decide
  exact icalParsecomp_start_iff hmktime hown huid (of_decide_eq_true hfits) hsize

/-- The least date-time that `collection_min_date_time` names is refused as a start. -/
theorem icalParsecomp_start_epoch :
    (∃ p₂, OwnRun .utcClear (newComp .vevent (.start none false (startedLines "19700101T000000Z")))
        (lineNodes (startedLines "19700101T000000Z")) (enterComp .vevent (.start none false (startedLines "19700101T000000Z"))) p₂ ∧
      (compAt (newComp .vevent (.start none false (startedLines "19700101T000000Z"))) p₂.ical).UntilFits) ∧
    (∃ np ∈ lineNodes (startedLines "19700101T000000Z"), np.isUid) ∧
    (∃ np ∈ lineNodes (startedLines "19700101T000000Z"), np.isStart) ∧
    (icalParsecomp .utcClear 3 .vevent (.start none false (startedLines "19700101T000000Z"))).1 = none := by
  have hls : ∀ l ∈ startedLines "19700101T000000Z", PropertyLine l := by decide +kernel
  have hsome : (((compFields .utcClear).run (.new .vevent) (lineNodes (startedLines "19700101T000000Z"))).any
      fun x => decide x.UntilFits && !decide x.Complete) = true := by
    decide +kernel
  obtain ⟨x, hrun, hx⟩ := (Option.any_eq_true _ _).mp hsome
  simp only [Bool.and_eq_true, Bool.not_eq_true', decide_eq_false_iff_not, decide_eq_true_eq] at hx
  obtain ⟨hfits, hcomplete⟩ := hx
  obtain ⟨p₂, hown, rfl⟩ := ownRun_lines hls hrun
  refine ⟨⟨p₂, hown, hfits⟩, by decide +kernel, by decide +kernel, ?_⟩
  have hsize : size (IcalParse.start none false (startedLines "19700101T000000Z")).src < 3 := by decide
  have hrefused := (parsecomp_isSome (ownRun_iff.mp ⟨_, hown⟩) hsize).not.mpr hcomplete
  rwa [Bool.not_eq_true, Option.isSome_eq_false_iff, Option.isNone_iff_eq_none] at hrefused

end Kcaldav
