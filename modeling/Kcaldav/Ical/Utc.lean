import Kcaldav.Ical.Date
import Kcaldav.Ical.Lossless
import Kcaldav.Ical.Rrule
import Kcaldav.Library.Inverse
import Mathlib.Order.SuccPred.LinearLocallyFinite
import Mathlib.Order.Monotone.Basic

/-! # UTC stamps

The number of seconds that a date and time in UTC stands for, and what a stamp becomes in
a process with a time zone: `ical_datetime` hands the fields to `mktime`, which takes them
for the local time.
-/
namespace Kcaldav
open CString Fallible Inverse

variable {C : Libc}

/-! ## Seconds since the epoch -/

def leapYear (year : Int) : Bool := year % 4 = 0 && (year % 100 ≠ 0 || year % 400 = 0)

/-- Days of a year before one of its months. Months count from zero. -/
def monthStart (leap : Bool) (mon : Int) : Int :=
  [0, 31, 59, 90, 120, 151, 181, 212, 243, 273, 304, 334].getD mon.toNat 0 + if 2 ≤ mon ∧ leap then 1 else 0

def monthLength (leap : Bool) (mon : Int) : Int :=
  if mon = 1 then (if leap then 29 else 28) else if mon = 3 ∨ mon = 5 ∨ mon = 8 ∨ mon = 10 then 30 else 31

def Tm.yday (tm : Tm) : Int := monthStart (leapYear (tm.year + 1900)) tm.mon + tm.mday - 1

/-- The expression of the standard. Division rounds down, so it counts the days of the
calendar also before 1970. -/
def secondsSinceEpoch (tm : Tm) : Int :=
  tm.sec + tm.min * 60 + tm.hour * 3600 + tm.yday * 86400 + (tm.year - 70) * 31536000 + (tm.year - 69) / 4 * 86400 -
    (tm.year - 1) / 100 * 86400 + (tm.year + 299) / 400 * 86400

/-- A date of the calendar and a time of the day, which may be in a leap second. -/
structure Tm.Valid (tm : Tm) : Prop where
  mon : 0 ≤ tm.mon ∧ tm.mon < 12
  mday : 1 ≤ tm.mday ∧ tm.mday ≤ monthLength (leapYear (tm.year + 1900)) tm.mon
  hour : 0 ≤ tm.hour ∧ tm.hour < 24
  min : 0 ≤ tm.min ∧ tm.min < 60
  sec : 0 ≤ tm.sec ∧ tm.sec ≤ 60

theorem leapYear_iff {year : Int} : leapYear year ↔ year % 4 = 0 ∧ (year % 100 ≠ 0 ∨ year % 400 = 0) := by
  simp [leapYear]

def leapDay (year : Int) : Int := if leapYear year then 1 else 0

/-- Days of the years before one, from 1970 on. -/
def yearStart (year : Int) : Int := (year - 1970) * 365 + (year - 1969) / 4 - (year - 1901) / 100 + (year - 1601) / 400

theorem leapDay_eq (year : Int) : leapDay year = year / 4 - (year - 1) / 4 - (year / 100 - (year - 1) / 100) + (year / 400 - (year - 1) / 400) := by
  unfold leapDay
  by_cases h : leapYear year
  · rw [if_pos h]
    rw [leapYear_iff] at h
    omega
  · rw [if_neg h]
    rw [leapYear_iff] at h
    omega

theorem yearStart_succ (year : Int) : yearStart (year + 1) = yearStart year + 365 + leapDay year := by
  rw [leapDay_eq]
  unfold yearStart
  omega

theorem secondsSinceEpoch_eq (tm : Tm) : secondsSinceEpoch tm =
    (yearStart (tm.year + 1900) + tm.yday) * 86400 + (tm.hour * 3600 + tm.min * 60 + tm.sec) := by
  have hquarters : tm.year + 1900 - 1969 = tm.year - 69 := by omega
  have hcenturies : tm.year + 1900 - 1901 = tm.year - 1 := by omega
  have heras : tm.year + 1900 - 1601 = tm.year + 299 := by omega
  unfold secondsSinceEpoch yearStart
  rw [hquarters, hcenturies, heras]
  omega

/-- The periods of 400 years add up. -/
theorem era_days (y : Int) : y / 400 * 146097 + (y - y / 400 * 400) * 365 + (y - y / 400 * 400) / 4 - (y - y / 400 * 400) / 100 =
    y * 365 + y / 4 - y / 100 + y / 400 := by
  omega

/-- Days from the first of March, and those of the calendar year. -/
theorem monthStart_march {leap : Bool} {mon : Int} (hmon : 0 ≤ mon ∧ mon < 12) :
    monthStart leap mon =
      if mon + 1 ≤ 2 then (153 * (mon + 1 + 9) + 2) / 5 - 306 else (153 * (mon + 1 - 3) + 2) / 5 + 59 + if leap then 1 else 0 := by
  have hall : ∀ (leap : Bool) (m : Fin 12), monthStart leap m =
      if (m : Int) + 1 ≤ 2 then (153 * ((m : Int) + 1 + 9) + 2) / 5 - 306
      else (153 * ((m : Int) + 1 - 3) + 2) / 5 + 59 + if leap then 1 else 0 := by decide
  obtain ⟨m, rfl⟩ := Int.eq_ofNat_of_zero_le hmon.1
  exact hall leap ⟨m, by omega⟩

theorem daysFromCivil_eq {year mon mday : Int} (hmon : 0 ≤ mon ∧ mon < 12) :
    daysFromCivil year (mon + 1) mday = yearStart year + monthStart (leapYear year) mon + mday - 1 := by
  have hleap := leapDay_eq year
  rw [monthStart_march hmon]
  unfold daysFromCivil yearStart
  unfold leapDay at hleap
  dsimp only
  rw [Int.fdiv_eq_ediv_of_nonneg _ (by omega), era_days]
  by_cases h : mon + 1 ≤ 2
  · rw [if_pos h, if_neg (by omega), if_pos h]
    omega
  · rw [if_neg h, if_pos (by omega), if_neg h, hleap]
    omega

/-- The library in UTC counts as the standard has it. -/
theorem utc_mktime_eq {tm : Tm} (hmon : 0 ≤ tm.mon ∧ tm.mon < 12) : Libc.utc.mktime tm = secondsSinceEpoch tm := by
  have hcarry : tm.mon.fdiv 12 = 0 := by
    rw [Int.fdiv_eq_ediv_of_nonneg _ (by omega)]
    omega
  have hmonth : tm.mon.fmod 12 = tm.mon := by
    rw [Int.fmod_eq_emod_of_nonneg _ (by omega)]
    omega
  change daysFromCivil (tm.year + 1900 + tm.mon.fdiv 12) (tm.mon.fmod 12 + 1) tm.mday * 86400 + tm.hour * 3600 + tm.min * 60 + tm.sec = _
  rw [hcarry, hmonth, add_zero, daysFromCivil_eq hmon, secondsSinceEpoch_eq]
  unfold Tm.yday
  omega

/-! ## The order of stamps -/

/-- An earlier date, or the same and an earlier time. -/
def Tm.Earlier (tm tm' : Tm) : Prop :=
  [tm.year, tm.mon, tm.mday, tm.hour, tm.min, tm.sec] < [tm'.year, tm'.mon, tm'.mday, tm'.hour, tm'.min, tm'.sec]

theorem yearStart_lt {year year' : Int} (h : year < year') : yearStart year + 365 + leapDay year ≤ yearStart year' := by
  have hmono : Monotone yearStart := by
    apply monotone_int_of_le_succ
    intro y
    have hleap : 0 ≤ leapDay y := by
      unfold leapDay
      split <;> decide
    rw [yearStart_succ]
    omega
  rw [← yearStart_succ]
  exact hmono h

theorem monthStart_lt (leap : Bool) {mon mon' : Int} (h : 0 ≤ mon) (h' : mon' < 12) (hlt : mon < mon') :
    monthStart leap mon + monthLength leap mon ≤ monthStart leap mon' := by
  have hall : ∀ (leap : Bool) (m m' : Fin 12), m < m' → monthStart leap m + monthLength leap m ≤ monthStart leap m' := by decide
  obtain ⟨m, rfl⟩ := Int.eq_ofNat_of_zero_le h
  obtain ⟨m', rfl⟩ := Int.eq_ofNat_of_zero_le (h.trans hlt.le)
  exact hall leap ⟨m, by omega⟩ ⟨m', by omega⟩ (Fin.mk_lt_mk.mpr (by omega))

theorem Tm.Valid.yday {tm : Tm} (h : tm.Valid) : 0 ≤ tm.yday ∧ tm.yday < 365 + leapDay (tm.year + 1900) := by
  have hall : ∀ (leap : Bool) (m : Fin 12),
      0 ≤ monthStart leap m ∧ monthStart leap m + monthLength leap m ≤ 365 + if leap then 1 else 0 := by decide
  obtain ⟨⟨hmon, hmon'⟩, hmday, -⟩ := h
  obtain ⟨m, hm⟩ := Int.eq_ofNat_of_zero_le hmon
  have hbounds := hall (leapYear (tm.year + 1900)) ⟨m, by omega⟩
  unfold Tm.yday leapDay
  rw [hm] at hmday ⊢
  dsimp only at hbounds
  omega

/-- A later stamp stands for a larger number, except for the second after a leap second. -/
theorem secondsSinceEpoch_lt {tm tm' : Tm} (h : tm.Valid) (h' : tm'.Valid) (hsec : tm.sec < 60) (hlt : tm.Earlier tm') :
    secondsSinceEpoch tm < secondsSinceEpoch tm' := by
  have hyday := h.yday
  have hyday' := h'.yday
  obtain ⟨⟨hmon, -⟩, hmday, hhour, hmin, hs⟩ := h
  obtain ⟨⟨-, hmon'⟩, hmday', hhour', hmin', hs'⟩ := h'
  rw [secondsSinceEpoch_eq, secondsSinceEpoch_eq]
  unfold Tm.Earlier at hlt
  simp only [List.cons_lt_cons_iff, List.lt_irrefl, or_false, and_false] at hlt
  rcases hlt with hyear | ⟨hyear, hlt⟩
  · have hyears : yearStart (tm.year + 1900) + 365 + leapDay (tm.year + 1900) ≤ yearStart (tm'.year + 1900) := by
      apply yearStart_lt
      omega
    omega
  · unfold Tm.yday at hyday hyday' ⊢
    rw [hyear] at hmday ⊢
    rcases hlt with hlt | ⟨heq, hlt⟩
    · have hmonths := monthStart_lt (leapYear (tm'.year + 1900)) hmon hmon' hlt
      omega
    · rw [heq]
      omega

/-! ## Time zones -/

/-- The seconds that standard time is ahead of UTC at an instant. `ical_datetime` leaves
`tm_isdst` zero, so `mktime` takes all fields for standard time. -/
structure Zone where
  offset : Int → Int

/-- What the standard-time clock of the zone shows, as the number of the same date and time
in UTC. -/
def Zone.clock (Z : Zone) (t : Int) : Int := t + Z.offset t

/-- `mktime` is the inverse of the standard-time clock of a zone, on the second that its
fields add up to. -/
def Libc.InZone (C : Libc) (Z : Zone) : Prop :=
  ∃ g, IsInverse Z.clock g ∧ ∀ tm : Tm, tm.Valid → C.mktime tm = g (secondsSinceEpoch tm)

/-- A library with a given inverse. -/
def Libc.ofInverse (g : Int → Int) : Libc where
  mktime tm := g (secondsSinceEpoch tm)
  errnoAt e := e
  errnoAt_false := rfl

theorem Libc.ofInverse_inZone {g : Int → Int} {Z : Zone} (h : IsInverse Z.clock g) : (Libc.ofInverse g).InZone Z :=
  ⟨g, h, fun _ _ => rfl⟩

section
variable {Z Z' : Zone} {tm tm' : Tm}

/-- What all libraries of a zone make of a date and time. -/
theorem mktime_eq_iff (h : tm.Valid) {a : Int} :
    (∀ C : Libc, C.InZone Z → C.mktime tm = a) ↔ ∀ t, Z.clock t = secondsSinceEpoch tm ↔ t = a := by
  rw [← forall_apply_eq_iff]
  constructor
  · exact fun hC g hg => hC (.ofInverse g) (Libc.ofInverse_inZone hg)
  · rintro hg C ⟨g, hinv, hC⟩
    rw [hC tm h]
    exact hg g hinv

theorem mktime_eq_mktime_iff (h : tm.Valid) :
    (∀ C C' : Libc, C.InZone Z → C'.InZone Z' → C.mktime tm = C'.mktime tm) ↔
      ∃ a, (∀ t, Z.clock t = secondsSinceEpoch tm ↔ t = a) ∧ ∀ t, Z'.clock t = secondsSinceEpoch tm ↔ t = a := by
  rw [← forall_apply_eq_apply_iff]
  constructor
  · exact fun hC g g' hg hg' => hC (.ofInverse g) (.ofInverse g') (Libc.ofInverse_inZone hg) (Libc.ofInverse_inZone hg')
  · rintro hg C C' ⟨g, hinv, hC⟩ ⟨g', hinv', hC'⟩
    rw [hC tm h, hC' tm h]
    exact hg g g' hinv hinv'

theorem mktime_lt_iff (h : tm.Valid) (h' : tm'.Valid) :
    (∀ C : Libc, C.InZone Z → C.mktime tm < C.mktime tm') ↔
      (∃ t, Z.clock t = secondsSinceEpoch tm) ∧ (∃ t, Z.clock t = secondsSinceEpoch tm') ∧
        ∀ t t', Z.clock t = secondsSinceEpoch tm → Z.clock t' = secondsSinceEpoch tm' → t < t' := by
  rw [← forall_apply_lt_iff]
  constructor
  · exact fun hC g hg => hC (.ofInverse g) (Libc.ofInverse_inZone hg)
  · rintro hg C ⟨g, hinv, hC⟩
    rw [hC tm h, hC tm' h']
    exact hg g hinv

end

/-! ## Stamps -/

/-- A valid date and time in UTC, as text. -/
def UtcText (cp : Bytes) (tm : Tm) : Prop := ∃ day clock, cp = (DateText.datetimeutc day clock).text ∧
  tm = (DateText.datetimeutc day clock).tm ∧ tm.Valid

/-- The properties of a component that hold a stamp. -/
inductive UtcField
  | created | lastmod | dtstamp | dtstart

namespace UtcField

def name : UtcField → Bytes
  | created => ascii "created"
  | lastmod => ascii "last-modified"
  | dtstamp => ascii "dtstamp"
  | dtstart => ascii "dtstart"

def time : UtcField → IcalComp → IcalTm
  | created, c => c.created
  | lastmod, c => c.lastmod
  | dtstamp, c => c.dtstamp
  | dtstart, c => c.dtstart.time

end UtcField

/-- What the text becomes in a process: in one of the properties, or as the end of a recurrence rule. -/
inductive Stamps (C : Libc) (cp : Bytes) : IcalTm → Prop
  | field (f : UtcField) {np : IcalNode} {c c' : IcalComp} {buf : Bytes} {d : Diag} : strcaseEq np.name f.name → np.val = cp →
    (icalCompField C np c d).1 = some (c', buf) → Stamps C cp (f.time c')
  | until {vp vp' : IcalRrule} {d : Diag} : (icalRruleParam C vp (ascii "UNTIL") cp d).1 = some vp' → Stamps C cp vp'.until_

section
variable {cp : Bytes} {tm : Tm}

theorem UtcText.icalDatetime (h : UtcText cp tm) (d : Diag) : (icalDatetime C cp d).1 = some ⟨C.mktime tm, .datetimeutc⟩ := by
  obtain ⟨day, clock, rfl, rfl, -⟩ := h
  rw [icalDatetime_val, datetimeFields_text]
  rfl

theorem UtcText.icalUtcdatetime (h : UtcText cp tm) {d d' : Diag} {v : IcalTm}
    (hrun : icalUtcdatetime C cp d = (some v, d')) : v = ⟨C.mktime tm, .datetimeutc⟩ := by
  have hdate : Kcaldav.icalDatetime C cp d = (some ⟨C.mktime tm, .datetimeutc⟩, (Kcaldav.icalDatetime C cp d).2) :=
    Prod.ext (h.icalDatetime d) rfl
  have hval := congrArg Prod.fst hrun
  rw [Kcaldav.icalUtcdatetime, orReport_val, bind_of_some hdate] at hval
  exact (Option.some.inj hval).symm

theorem UtcText.icalTzdatetime (h : UtcText cp tm) {np : IcalNode} (hval : np.val = cp) {d d' : Diag} {t : IcalTime}
    (hrun : icalTzdatetime C np d = (some t, d')) : t.time = ⟨C.mktime tm, .datetimeutc⟩ := by
  unfold Kcaldav.icalTzdatetime at hrun
  obtain ⟨v, d₁, hv, hrun⟩ := bind_eq_some.mp hrun
  have htime : v = ⟨C.mktime tm, .datetimeutc⟩ := by
    have hdate := h.icalDatetime (C := C) d
    rw [← hval, hv] at hdate
    exact Option.some.inj hdate
  rw [← htime]
  cases hparam : np.param with
  | none =>
    simp only [hparam] at hrun
    cases hrun
    rfl
  | some param =>
    simp only [hparam] at hrun
    obtain ⟨tz, d₂, -, hrun⟩ := bind_eq_some.mp hrun
    cases hrun
    rfl

/-- The property is set by the parser of its value. -/
theorem UtcField.icalCompField (f : UtcField) {np : IcalNode} (hname : strcaseEq np.name f.name) {c c' : IcalComp} {buf : Bytes}
    {d d' : Diag} (hrun : icalCompField C np c d = (some (c', buf), d')) :
    (∃ d₁, icalUtcdatetime C np.val d = (some (f.time c'), d₁)) ∨ ∃ t d₁, icalTzdatetime C np d = (some t, d₁) ∧ f.time c' = t.time := by
  have other {b : Bytes} (hb : strcaseEq f.name b = false) : ¬strcaseEq np.name b := by
    rw [strcaseEq_ne hname hb]
    decide
  unfold Kcaldav.icalCompField at hrun
  cases f with
  | created =>
    have hset : strcaseEq np.name (ascii "created") := hname
    rw [if_neg (other (by decide)), if_pos hset] at hrun
    obtain ⟨v, d₁, hv, hrun⟩ := bind_eq_some.mp hrun
    cases hrun
    exact Or.inl ⟨_, hv⟩
  | lastmod =>
    have hset : strcaseEq np.name (ascii "last-modified") := hname
    rw [if_neg (other (by decide)), if_neg (other (by decide)), if_pos hset] at hrun
    obtain ⟨v, d₁, hv, hrun⟩ := bind_eq_some.mp hrun
    cases hrun
    exact Or.inl ⟨_, hv⟩
  | dtstamp =>
    have hset : strcaseEq np.name (ascii "dtstamp") := hname
    rw [if_neg (other (by decide)), if_neg (other (by decide)), if_neg (other (by decide)), if_pos hset] at hrun
    obtain ⟨v, d₁, hv, hrun⟩ := bind_eq_some.mp hrun
    cases hrun
    exact Or.inl ⟨_, hv⟩
  | dtstart =>
    have hset : strcaseEq np.name (ascii "dtstart") := hname
    rw [if_neg (other (by decide)), if_neg (other (by decide)), if_neg (other (by decide)), if_neg (other (by decide)),
      if_pos hset] at hrun
    obtain ⟨t, d₁, ht, hrun⟩ := bind_eq_some.mp hrun
    cases hrun
    exact Or.inr ⟨t, _, ht, rfl⟩

/-- Wherever a stamp stands, it becomes what `mktime` makes of its fields. -/
theorem UtcText.stamps_iff (h : UtcText cp tm) {v : IcalTm} : Stamps C cp v ↔ v = ⟨C.mktime tm, .datetimeutc⟩ := by
  have huntil (vp : IcalRrule) (d : Diag) :
      (icalRruleParam C vp (ascii "UNTIL") cp d).1 = some { vp with until_ := ⟨C.mktime tm, .datetimeutc⟩ } := by
    rw [icalRruleParam_until, h.icalDatetime, Option.map_some]
  constructor
  · rintro (⟨f, hname, hval, hrun⟩ | hrun)
    · rcases f.icalCompField hname (Prod.ext hrun rfl) with ⟨d₁, hv⟩ | ⟨t, d₁, ht, heq⟩
      · rw [hval] at hv
        exact h.icalUtcdatetime hv
      · rw [heq]
        exact h.icalTzdatetime hval ht
    · rw [huntil] at hrun
      cases hrun
      rfl
  · rintro rfl
    exact .until (huntil .zero ⟨"", 0, none, false⟩)

end

/-! ## Processes -/

/-- What a UTC stamp becomes in processes of two zones. It is the number it stands for
exactly where the standard-time clock shows that at this instant and at no other; it is the
same in both exactly where these clocks show it at one instant, and the same one; and it is
below another stamp exactly where the clock shows each of them, and only in this order. -/
theorem utc_stamp_iff (Z Z' : Zone) (cp cp' : Bytes) (tm tm' : Tm) (h : UtcText cp tm) (h' : UtcText cp' tm') :
    ((∀ C : Libc, C.InZone Z → ∀ d, (icalDatetime C cp d).1 = some ⟨secondsSinceEpoch tm, .datetimeutc⟩) ↔
      ∀ t, Z.clock t = secondsSinceEpoch tm ↔ t = secondsSinceEpoch tm) ∧
    ((∀ C C' : Libc, C.InZone Z → C'.InZone Z' → ∀ v v', Stamps C cp v → Stamps C' cp v' → v = v') ↔
      ∃ t, (∀ s, Z.clock s = secondsSinceEpoch tm ↔ s = t) ∧ ∀ s, Z'.clock s = secondsSinceEpoch tm ↔ s = t) ∧
    ((∀ C : Libc, C.InZone Z → ∀ v v', Stamps C cp v → Stamps C cp' v' → v.tm < v'.tm) ↔
      (∃ t, Z.clock t = secondsSinceEpoch tm) ∧ (∃ t, Z.clock t = secondsSinceEpoch tm') ∧
        ∀ t t', Z.clock t = secondsSinceEpoch tm → Z.clock t' = secondsSinceEpoch tm' → t < t') := by
  obtain ⟨-, -, -, -, hvalid⟩ := id h
  obtain ⟨-, -, -, -, hvalid'⟩ := id h'
  refine ⟨?_, ?_, ?_⟩
  · rw [← mktime_eq_iff hvalid]
    constructor
    · intro hC C hzone
      have hval := hC C hzone ⟨"", 0, none, false⟩
      rw [h.icalDatetime] at hval
      exact congrArg IcalTm.tm (Option.some.inj hval)
    · intro hC C hzone d
      rw [h.icalDatetime, hC C hzone]
  · rw [← mktime_eq_mktime_iff hvalid]
    constructor
    · intro hC C C' hzone hzone'
      exact congrArg IcalTm.tm (hC C C' hzone hzone' _ _ (h.stamps_iff.mpr rfl) (h.stamps_iff.mpr rfl))
    · intro hC C C' hzone hzone' v v' hv hv'
      rw [h.stamps_iff.mp hv, h.stamps_iff.mp hv', hC C C' hzone hzone']
  · rw [← mktime_lt_iff hvalid hvalid']
    constructor
    · intro hC C hzone
      exact hC C hzone _ _ (h.stamps_iff.mpr rfl) (h'.stamps_iff.mpr rfl)
    · intro hC C hzone v v' hv hv'
      rw [h.stamps_iff.mp hv, h'.stamps_iff.mp hv']
      exact hC C hzone

def Zone.utc : Zone := ⟨fun _ => 0⟩

theorem utc_clock (t : Int) : Zone.utc.clock t = t := add_zero t

theorem Libc.utc_inZone : Libc.utc.InZone .utc := ⟨id, fun _ => utc_clock _, fun _ h => utc_mktime_eq h.mon⟩

/-- In UTC a stamp becomes the number it stands for, so later stamps get larger ones. -/
theorem utc_process {C : Libc} (hC : C.InZone .utc) {cp cp' : Bytes} {tm tm' : Tm} (h : UtcText cp tm) (h' : UtcText cp' tm')
    {v v' : IcalTm} (hv : Stamps C cp v) (hv' : Stamps C cp' v') :
    v.tm = secondsSinceEpoch tm ∧ (tm.sec < 60 → tm.Earlier tm' → v.tm < v'.tm) := by
  have hsecs {x : Tm} (hx : x.Valid) : C.mktime x = secondsSinceEpoch x := by
    apply (mktime_eq_iff hx).mpr _ C hC
    intro t
    rw [utc_clock]
  obtain ⟨-, -, -, -, hvalid⟩ := id h
  obtain ⟨-, -, -, -, hvalid'⟩ := id h'
  rw [h.stamps_iff.mp hv, h'.stamps_iff.mp hv']
  dsimp only
  rw [hsecs hvalid, hsecs hvalid']
  exact ⟨rfl, fun hsec hlt => secondsSinceEpoch_lt hvalid hvalid' hsec hlt⟩

/-- A second after the noon of the first day of 2020. -/
def noonText (sec : Fixed 2) : DateText :=
  .datetimeutc ⟨⟨ascii "2020", by decide +kernel, rfl⟩, ⟨ascii "01", by decide +kernel, rfl⟩, ⟨ascii "01", by decide +kernel, rfl⟩⟩
    ⟨⟨ascii "12", by decide +kernel, rfl⟩, ⟨ascii "00", by decide +kernel, rfl⟩, sec⟩

theorem noon : UtcText (ascii "20200101T120000Z") ⟨120, 0, 1, 12, 0, 0⟩ := by
  have htext : ascii "20200101T120000Z" = (noonText ⟨ascii "00", by decide +kernel, rfl⟩).text := by decide +kernel
  exact ⟨_, _, htext, by decide, by decide, by decide, by decide, by decide, by decide⟩

theorem afterNoon : UtcText (ascii "20200101T120001Z") ⟨120, 0, 1, 12, 0, 1⟩ := by
  have htext : ascii "20200101T120001Z" = (noonText ⟨ascii "01", by decide +kernel, rfl⟩).text := by decide +kernel
  exact ⟨_, _, htext, by decide, by decide, by decide, by decide, by decide, by decide⟩

theorem utc_stamp_iff_noon :
    (∀ C : Libc, C.InZone .utc → ∀ d, (icalDatetime C (ascii "20200101T120000Z") d).1 = some ⟨1577880000, .datetimeutc⟩) ∧
    (∀ C C' : Libc, C.InZone .utc → C'.InZone .utc → ∀ v v', Stamps C (ascii "20200101T120000Z") v →
      Stamps C' (ascii "20200101T120000Z") v' → v = v') ∧
    ∀ C : Libc, C.InZone .utc → ∀ v v', Stamps C (ascii "20200101T120000Z") v → Stamps C (ascii "20200101T120001Z") v' →
      v.tm < v'.tm := by
  obtain ⟨hvalue, hsame, horder⟩ := utc_stamp_iff .utc .utc (ascii "20200101T120000Z") (ascii "20200101T120001Z")
    ⟨120, 0, 1, 12, 0, 0⟩ ⟨120, 0, 1, 12, 0, 1⟩ noon afterNoon
  have hclock : ∀ t, Zone.utc.clock t = secondsSinceEpoch ⟨120, 0, 1, 12, 0, 0⟩ ↔ t = secondsSinceEpoch ⟨120, 0, 1, 12, 0, 0⟩ := by
    intro t
    rw [utc_clock]
  refine ⟨?_, hsame.mpr ⟨_, hclock, hclock⟩, horder.mpr ⟨⟨_, utc_clock _⟩, ⟨_, utc_clock _⟩, ?_⟩⟩
  · have hseconds : secondsSinceEpoch ⟨120, 0, 1, 12, 0, 0⟩ = 1577880000 := by decide
    rw [← hseconds]
    exact hvalue.mpr hclock
  · intro t t' ht ht'
    rw [utc_clock] at ht ht'
    rw [ht, ht']
    decide

/-- A zone that is one hour ahead of UTC. -/
def Zone.ahead : Zone := ⟨fun _ => 3600⟩

/-- A library in that zone. -/
def Libc.ahead : Libc := .ofInverse fun s => s - 3600

theorem Libc.ahead_inZone : Libc.ahead.InZone .ahead := by
  apply Libc.ofInverse_inZone
  intro t
  unfold Zone.clock Zone.ahead
  dsimp only
  omega

/-- There the noon is taken for one hour earlier, while it is noon in a process in UTC. -/
theorem not_utc_stamp : (icalDatetime .ahead (ascii "20200101T120000Z") ⟨"", 0, none, false⟩).1 = some ⟨1577876400, .datetimeutc⟩ ∧
    (icalDatetime .utc (ascii "20200101T120000Z") ⟨"", 0, none, false⟩).1 = some ⟨1577880000, .datetimeutc⟩ ∧
    ¬∀ (Z : Zone) (C : Libc) (cp : Bytes) (tm : Tm), C.InZone Z → UtcText cp tm →
      ∀ d, (icalDatetime C cp d).1 = some ⟨secondsSinceEpoch tm, .datetimeutc⟩ := by
  have hahead : (icalDatetime .ahead (ascii "20200101T120000Z") ⟨"", 0, none, false⟩).1 = some ⟨1577876400, .datetimeutc⟩ := by
    decide +kernel
  refine ⟨hahead, by decide +kernel, ?_⟩
  intro h
  have hvalue := h .ahead .ahead (ascii "20200101T120000Z") ⟨120, 0, 1, 12, 0, 0⟩ Libc.ahead_inZone noon ⟨"", 0, none, false⟩
  rw [hahead] at hvalue
  exact absurd hvalue (by decide)

end Kcaldav
