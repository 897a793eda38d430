import Kcaldav.Ical.Number

/-! # Dates

The three formats of a date and what `ical_datetime` reads for one. It measures the
string and hands it to `sscanf`, whose conversions skip white space, take a sign and
stop early, so what it accepts is a sequence of literals, not of digit groups.
-/
namespace Kcaldav
open CString Fallible

variable {C : Libc}

/-! ## The formats -/

structure DayText where
  yr : Fixed 4
  mon : Fixed 2
  day : Fixed 2

structure ClockText where
  hr : Fixed 2
  min : Fixed 2
  sec : Fixed 2

inductive DateText
  | date (d : DayText)
  | datetime (d : DayText) (t : ClockText)
  | datetimeutc (d : DayText) (t : ClockText)

def DayText.text (d : DayText) : Bytes := d.yr.text ++ (d.mon.text ++ d.day.text)

def ClockText.text (t : ClockText) : Bytes := t.hr.text ++ (t.min.text ++ t.sec.text)

namespace DateText

def text : DateText → Bytes
  | date d => d.text
  | datetime d t => d.text ++ 84 :: t.text
  | datetimeutc d t => d.text ++ 84 :: (t.text ++ [90])

def type : DateText → IcalDateT
  | date _ => .date
  | datetime _ _ => .datetime
  | datetimeutc _ _ => .datetimeutc

/-- The values of the digit groups, as `struct tm` counts them. -/
def tm : DateText → Tm
  | date d => ⟨d.yr.value - 1900, d.mon.value - 1, d.day.value, 0, 0, 0⟩
  | datetime d t | datetimeutc d t => ⟨d.yr.value - 1900, d.mon.value - 1, d.day.value, t.hr.value, t.min.value, t.sec.value⟩

end DateText

/-! ## What is read -/

/-- A string `ical_datetime` gets through, with the widths and the literals of its fields. -/
inductive DateRead : Bytes → IcalDateT → List (Nat × Literal) → Prop
  | date {cp rest : Bytes} {yr mon day : Literal} : cp.length = 8 → Scans [(4, yr), (2, mon), (2, day)] cp rest →
    DateRead cp .date [(4, yr), (2, mon), (2, day)]
  | datetime {cp mid rest : Bytes} {yr mon day hr min sec : Literal} : cp.length = 15 →
    Scans [(4, yr), (2, mon), (2, day)] cp (84 :: mid) → Scans [(2, hr), (2, min), (2, sec)] mid rest →
    DateRead cp .datetime [(4, yr), (2, mon), (2, day), (2, hr), (2, min), (2, sec)]
  | datetimeutc {cp mid rest : Bytes} {yr mon day hr min sec : Literal} : cp.length = 16 →
    Scans [(4, yr), (2, mon), (2, day)] cp (84 :: mid) → Scans [(2, hr), (2, min), (2, sec)] mid (90 :: rest) →
    DateRead cp .datetimeutc [(4, yr), (2, mon), (2, day), (2, hr), (2, min), (2, sec)]

/-- The fields handed to the time conversion. -/
def readTm : List (Nat × Literal) → Tm
  | [(_, yr), (_, mon), (_, day)] => tmOf yr.word32 mon.word32 day.word32 0 0 0
  | [(_, yr), (_, mon), (_, day), (_, hr), (_, min), (_, sec)] =>
    tmOf yr.word32 mon.word32 day.word32 hr.word32 min.word32 sec.word32
  | _ => tmOf 0 0 0 0 0 0

/-- The scan of one group of three fields. -/
theorem scans_three {w : Nat} {s rest : Bytes} {a b c : BitVec 32} :
    (∃ s₁ s₂, scanUInt w s = some (a, s₁) ∧ scanUInt 2 s₁ = some (b, s₂) ∧ scanUInt 2 s₂ = some (c, rest)) ↔
      ∃ l m n : Literal, Scans [(w, l), (2, m), (2, n)] s rest ∧ a = l.word32 ∧ b = m.word32 ∧ c = n.word32 := by
  constructor
  · rintro ⟨s₁, s₂, ha, hb, hc⟩
    obtain ⟨l, hl, hlf, rfl⟩ := scanUInt_eq_some.mp ha
    obtain ⟨m, hm, hmf, rfl⟩ := scanUInt_eq_some.mp hb
    obtain ⟨n, hn, hnf, rfl⟩ := scanUInt_eq_some.mp hc
    exact ⟨l, m, n, ⟨s₁, hl, hlf, s₂, hm, hmf, rest, hn, hnf, rfl⟩, rfl, rfl, rfl⟩
  · rintro ⟨l, m, n, ⟨s₁, hl, hlf, s₂, hm, hmf, s₃, hn, hnf, rfl⟩, rfl, rfl, rfl⟩
    exact ⟨s₁, s₂, scanUInt_eq_some.mpr ⟨l, hl, hlf, rfl⟩, scanUInt_eq_some.mpr ⟨m, hm, hmf, rfl⟩,
      scanUInt_eq_some.mpr ⟨n, hn, hnf, rfl⟩⟩

/-- The fields and the format `ical_datetime` finds. -/
def datetimeFields (cp : Bytes) : Option (Tm × IcalDateT) :=
  if cp.length = 16 then icalDatetimeDatetimeUtc cp
  else if cp.length = 15 then icalDatetimeDatetime cp
  else if cp.length = 8 then icalDatetimeDate cp
  else none

theorem icalDatetime_eq (cp : Bytes) : icalDatetime C cp = match datetimeFields cp with
    | none => icalFail "bad date/date-time"
    | some (tmm, dt) => pure ⟨C.mktime tmm, dt⟩ := rfl

theorem icalDatetime_val (cp : Bytes) (d : Diag) :
    (icalDatetime C cp d).1 = (datetimeFields cp).map fun r => ⟨C.mktime r.1, r.2⟩ := by
  rw [icalDatetime_eq]
  cases datetimeFields cp <;> rfl

theorem icalDatetime_steady (cp : Bytes) : Steady (conv C) (icalDatetime C cp) := by
  rw [icalDatetime_eq]
  split
  · exact .of_none fun _ => rfl
  · exact .pure _

/-- The date and time of one of the readers, conversion by conversion. -/
theorem icalDatetimeDate_eq_some {cp : Bytes} {tm : Tm} {dt : IcalDateT} : icalDatetimeDate cp = some (tm, dt) ↔
    ∃ yr mon day s₁ s₂ s₃, scanUInt 4 cp = some (yr, s₁) ∧ scanUInt 2 s₁ = some (mon, s₂) ∧
      scanUInt 2 s₂ = some (day, s₃) ∧ tm = tmOf yr mon day 0 0 0 ∧ dt = .date := by
  unfold icalDatetimeDate
  simp only [bind, Option.bind_eq_some_iff, Prod.exists, pure, Option.some.injEq, Prod.mk.injEq]
  constructor
  · rintro ⟨yr, s₁, h₁, mon, s₂, h₂, day, s₃, h₃, rfl, rfl⟩
    exact ⟨yr, mon, day, s₁, s₂, s₃, h₁, h₂, h₃, rfl, rfl⟩
  · rintro ⟨yr, mon, day, s₁, s₂, s₃, h₁, h₂, h₃, rfl, rfl⟩
    exact ⟨yr, s₁, h₁, mon, s₂, h₂, day, s₃, h₃, rfl, rfl⟩

theorem scanChar_eq_some {s rest : Bytes} {c : UInt8} : scanChar s = some (c, rest) ↔ s = c :: rest := by
  cases s with
  | nil => simp [scanChar]
  | cons a s => simp [scanChar]

theorem icalDatetimeDatetime_eq_some {cp : Bytes} {tm : Tm} {dt : IcalDateT} :
    icalDatetimeDatetime cp = some (tm, dt) ↔ ∃ yr mon day s₁ s₂ mid hr min sec t₁ t₂ rest,
      scanUInt 4 cp = some (yr, s₁) ∧ scanUInt 2 s₁ = some (mon, s₂) ∧ scanUInt 2 s₂ = some (day, 84 :: mid) ∧
      scanUInt 2 mid = some (hr, t₁) ∧ scanUInt 2 t₁ = some (min, t₂) ∧ scanUInt 2 t₂ = some (sec, rest) ∧
      tm = tmOf yr mon day hr min sec ∧ dt = .datetime := by
  unfold icalDatetimeDatetime
  simp only [bind, Option.bind_eq_some_iff, Prod.exists, scanChar_eq_some]
  constructor
  · rintro ⟨yr, s₁, h₁, mon, s₂, h₂, day, _, h₃, t, mid, rfl, hr, t₁, h₄, min, t₂, h₅, sec, rest, h₆, h⟩
    split at h
    next ht =>
      cases h
      exact ⟨yr, mon, day, s₁, s₂, mid, hr, min, sec, t₁, t₂, rest, h₁, h₂, ht ▸ h₃, h₄, h₅, h₆, rfl, rfl⟩
    · cases h
  · rintro ⟨yr, mon, day, s₁, s₂, mid, hr, min, sec, t₁, t₂, rest, h₁, h₂, h₃, h₄, h₅, h₆, rfl, rfl⟩
    exact ⟨yr, s₁, h₁, mon, s₂, h₂, day, _, h₃, 84, mid, rfl, hr, t₁, h₄, min, t₂, h₅, sec, rest, h₆, rfl⟩

theorem icalDatetimeDatetimeUtc_eq_some {cp : Bytes} {tm : Tm} {dt : IcalDateT} :
    icalDatetimeDatetimeUtc cp = some (tm, dt) ↔ ∃ yr mon day s₁ s₂ mid hr min sec t₁ t₂ rest,
      scanUInt 4 cp = some (yr, s₁) ∧ scanUInt 2 s₁ = some (mon, s₂) ∧ scanUInt 2 s₂ = some (day, 84 :: mid) ∧
      scanUInt 2 mid = some (hr, t₁) ∧ scanUInt 2 t₁ = some (min, t₂) ∧ scanUInt 2 t₂ = some (sec, 90 :: rest) ∧
      tm = tmOf yr mon day hr min sec ∧ dt = .datetimeutc := by
  unfold icalDatetimeDatetimeUtc
  simp only [bind, Option.bind_eq_some_iff, Prod.exists, scanChar_eq_some]
  constructor
  · rintro ⟨yr, s₁, h₁, mon, s₂, h₂, day, _, h₃, t, mid, rfl, hr, t₁, h₄, min, t₂, h₅, sec, _, h₆, z, rest, rfl, h⟩
    split at h
    next ht =>
      obtain ⟨rfl, rfl⟩ := ht
      cases h
      exact ⟨yr, mon, day, s₁, s₂, mid, hr, min, sec, t₁, t₂, rest, h₁, h₂, h₃, h₄, h₅, h₆, rfl, rfl⟩
    · cases h
  · rintro ⟨yr, mon, day, s₁, s₂, mid, hr, min, sec, t₁, t₂, rest, h₁, h₂, h₃, h₄, h₅, h₆, rfl, rfl⟩
    exact ⟨yr, s₁, h₁, mon, s₂, h₂, day, _, h₃, 84, mid, rfl, hr, t₁, h₄, min, t₂, h₅, sec, _, h₆, 90, rest, rfl, rfl⟩

/-- A string is read exactly where it is a sequence of literals, and these give the fields. -/
theorem datetimeFields_eq_some {cp : Bytes} {tm : Tm} {dt : IcalDateT} :
    datetimeFields cp = some (tm, dt) ↔ ∃ ls, DateRead cp dt ls ∧ tm = readTm ls := by
  unfold datetimeFields
  constructor
  · intro h
    split at h
    next hlen =>
      obtain ⟨yr, mon, day, s₁, s₂, mid, hr, min, sec, t₁, t₂, rest, h₁, h₂, h₃, h₄, h₅, h₆, rfl, rfl⟩ :=
        icalDatetimeDatetimeUtc_eq_some.mp h
      obtain ⟨ly, lm, ld, hday, rfl, rfl, rfl⟩ := scans_three.mp ⟨s₁, s₂, h₁, h₂, h₃⟩
      obtain ⟨lh, ln, ls, hclock, rfl, rfl, rfl⟩ := scans_three.mp ⟨t₁, t₂, h₄, h₅, h₆⟩
      exact ⟨_, .datetimeutc hlen hday hclock, rfl⟩
    split at h
    next hlen =>
      obtain ⟨yr, mon, day, s₁, s₂, mid, hr, min, sec, t₁, t₂, rest, h₁, h₂, h₃, h₄, h₅, h₆, rfl, rfl⟩ :=
        icalDatetimeDatetime_eq_some.mp h
      obtain ⟨ly, lm, ld, hday, rfl, rfl, rfl⟩ := scans_three.mp ⟨s₁, s₂, h₁, h₂, h₃⟩
      obtain ⟨lh, ln, ls, hclock, rfl, rfl, rfl⟩ := scans_three.mp ⟨t₁, t₂, h₄, h₅, h₆⟩
      exact ⟨_, .datetime hlen hday hclock, rfl⟩
    split at h
    next hlen =>
      obtain ⟨yr, mon, day, s₁, s₂, s₃, h₁, h₂, h₃, rfl, rfl⟩ := icalDatetimeDate_eq_some.mp h
      obtain ⟨ly, lm, ld, hday, rfl, rfl, rfl⟩ := scans_three.mp ⟨s₁, s₂, h₁, h₂, h₃⟩
      exact ⟨_, .date hlen hday, rfl⟩
    · cases h
  · rintro ⟨ls, hread, rfl⟩
    cases hread with
    | date hlen hday =>
      obtain ⟨s₁, s₂, h₁, h₂, h₃⟩ := scans_three.mpr ⟨_, _, _, hday, rfl, rfl, rfl⟩
      rw [if_neg (by omega), if_neg (by omega), if_pos hlen]
      exact icalDatetimeDate_eq_some.mpr ⟨_, _, _, s₁, s₂, _, h₁, h₂, h₃, rfl, rfl⟩
    | datetime hlen hday hclock =>
      obtain ⟨s₁, s₂, h₁, h₂, h₃⟩ := scans_three.mpr ⟨_, _, _, hday, rfl, rfl, rfl⟩
      obtain ⟨t₁, t₂, h₄, h₅, h₆⟩ := scans_three.mpr ⟨_, _, _, hclock, rfl, rfl, rfl⟩
      rw [if_neg (by omega), if_pos hlen]
      exact icalDatetimeDatetime_eq_some.mpr ⟨_, _, _, s₁, s₂, _, _, _, _, t₁, t₂, _, h₁, h₂, h₃, h₄, h₅, h₆, rfl, rfl⟩
    | datetimeutc hlen hday hclock =>
      obtain ⟨s₁, s₂, h₁, h₂, h₃⟩ := scans_three.mpr ⟨_, _, _, hday, rfl, rfl, rfl⟩
      obtain ⟨t₁, t₂, h₄, h₅, h₆⟩ := scans_three.mpr ⟨_, _, _, hclock, rfl, rfl, rfl⟩
      rw [if_pos hlen]
      exact icalDatetimeDatetimeUtc_eq_some.mpr ⟨_, _, _, s₁, s₂, _, _, _, _, t₁, t₂, _, h₁, h₂, h₃, h₄, h₅, h₆, rfl, rfl⟩

/-! ## The formats are read -/

theorem DayText.length_text (d : DayText) : d.text.length = 8 := by
  simp only [DayText.text, List.length_append, Fixed.length]

theorem ClockText.length_text (t : ClockText) : t.text.length = 6 := by
  simp only [ClockText.text, List.length_append, Fixed.length]

theorem DayText.scans_iff {d : DayText} {yr mon day : Literal} {s rest : Bytes} :
    Scans [(4, yr), (2, mon), (2, day)] (d.text ++ s) rest ↔ (yr.Full 4 ∧ mon.Full 2 ∧ day.Full 2) ∧
      (yr.digits = d.yr.text ∧ mon.digits = d.mon.text ∧ day.digits = d.day.text) ∧ s = rest := by
  rw [DayText.text, List.append_assoc, List.append_assoc, scans_fixed (by decide), scans_fixed (by decide),
    scans_fixed (by decide)]
  simp only [Scans]
  grind

theorem ClockText.scans_iff {t : ClockText} {hr min sec : Literal} {s rest : Bytes} :
    Scans [(2, hr), (2, min), (2, sec)] (t.text ++ s) rest ↔ (hr.Full 2 ∧ min.Full 2 ∧ sec.Full 2) ∧
      (hr.digits = t.hr.text ∧ min.digits = t.min.text ∧ sec.digits = t.sec.text) ∧ s = rest := by
  rw [ClockText.text, List.append_assoc, List.append_assoc, scans_fixed (by decide), scans_fixed (by decide),
    scans_fixed (by decide)]
  simp only [Scans]
  grind

theorem toInt_ofNat_sub {n k : Nat} (hn : n < 10000) (hk : k < 10000) :
    (BitVec.ofNat 32 n - BitVec.ofNat 32 k).toInt = (n : Int) - k := by
  rw [BitVec.toInt_sub, BitVec.toInt_ofNat', BitVec.toInt_ofNat']
  simp only [Int.bmod_def]
  omega

/-- Values of so few digits come through 32 bits. -/
theorem tmOf_ofNat {yr mon day hr min sec : Nat} (hyr : yr < 10 ^ 4) (hmon : mon < 10 ^ 2) (hday : day < 10 ^ 2)
    (hhr : hr < 10 ^ 2) (hmin : min < 10 ^ 2) (hsec : sec < 10 ^ 2) :
    tmOf (.ofNat 32 yr) (.ofNat 32 mon) (.ofNat 32 day) (.ofNat 32 hr) (.ofNat 32 min) (.ofNat 32 sec) =
      ⟨yr - 1900, mon - 1, day, hr, min, sec⟩ := by
  have small {n : Nat} (hn : n < 10 ^ 2) : (BitVec.ofNat 32 n).toInt = n := by
    have h := toInt_ofNat_sub (n := n) (k := 0) (by omega) (by omega)
    simpa using h
  unfold tmOf
  rw [small hday, small hhr, small hmin, small hsec, toInt_ofNat_sub (by omega) (by omega),
    toInt_ofNat_sub (by omega) (by omega)]
  rfl

theorem Fixed.word32 {w : Nat} {f : Fixed w} {l : Literal} (h : l.Full w) (hd : l.digits = f.text) :
    l.word32 = .ofNat 32 f.value := by
  rw [h.word32, hd]
  rfl

theorem readTm_day {d : DayText} {yr mon day : Literal} (hfull : yr.Full 4 ∧ mon.Full 2 ∧ day.Full 2)
    (hdigits : yr.digits = d.yr.text ∧ mon.digits = d.mon.text ∧ day.digits = d.day.text) :
    readTm [(4, yr), (2, mon), (2, day)] = (DateText.date d).tm := by
  rw [readTm, Fixed.word32 hfull.1 hdigits.1, Fixed.word32 hfull.2.1 hdigits.2.1, Fixed.word32 hfull.2.2 hdigits.2.2]
  exact tmOf_ofNat d.yr.value_lt d.mon.value_lt d.day.value_lt (by decide) (by decide) (by decide)

theorem readTm_clock {d : DayText} {t : ClockText} {yr mon day hr min sec : Literal}
    (hday : yr.Full 4 ∧ mon.Full 2 ∧ day.Full 2) (hclock : hr.Full 2 ∧ min.Full 2 ∧ sec.Full 2)
    (hdays : yr.digits = d.yr.text ∧ mon.digits = d.mon.text ∧ day.digits = d.day.text)
    (hclocks : hr.digits = t.hr.text ∧ min.digits = t.min.text ∧ sec.digits = t.sec.text) :
    readTm [(4, yr), (2, mon), (2, day), (2, hr), (2, min), (2, sec)] = (DateText.datetime d t).tm := by
  rw [readTm, Fixed.word32 hday.1 hdays.1, Fixed.word32 hday.2.1 hdays.2.1, Fixed.word32 hday.2.2 hdays.2.2,
    Fixed.word32 hclock.1 hclocks.1, Fixed.word32 hclock.2.1 hclocks.2.1, Fixed.word32 hclock.2.2 hclocks.2.2]
  exact tmOf_ofNat d.yr.value_lt d.mon.value_lt d.day.value_lt t.hr.value_lt t.min.value_lt t.sec.value_lt

namespace DateText

theorem length_text (t : DateText) : t.text.length = match t.type with
    | .date => 8
    | .datetime => 15
    | _ => 16 := by
  cases t with
  | date d => exact d.length_text
  | datetime d t => simp only [text, type, List.length_append, List.length_cons, d.length_text, t.length_text]
  | datetimeutc d t =>
    simp only [text, type, List.length_append, List.length_cons, List.length_nil, d.length_text, t.length_text]

/-- What is read of a string in one of the formats. -/
theorem of_read {t : DateText} {dt : IcalDateT} {ls : List (Nat × Literal)} (h : DateRead t.text dt ls) :
    dt = t.type ∧ readTm ls = t.tm ∧ ∀ p ∈ ls, p.2.Full p.1 := by
  have hlength := t.length_text
  cases t with
  | date d =>
    cases h with
    | date hlen hday =>
      rw [text, ← List.append_nil d.text, DayText.scans_iff] at hday
      obtain ⟨hfull, hdigits, -⟩ := hday
      exact ⟨rfl, readTm_day hfull hdigits, by simpa using hfull⟩
    | datetime hlen => exact absurd (hlen.symm.trans hlength) (by simp [type])
    | datetimeutc hlen => exact absurd (hlen.symm.trans hlength) (by simp [type])
  | datetime d t =>
    cases h with
    | date hlen => exact absurd (hlen.symm.trans hlength) (by simp [type])
    | datetime hlen hday hclock =>
      rw [text, DayText.scans_iff] at hday
      obtain ⟨hfull, hdigits, hmid⟩ := hday
      rw [← (List.cons.inj hmid).2, ← List.append_nil t.text, ClockText.scans_iff] at hclock
      obtain ⟨hfull', hdigits', -⟩ := hclock
      exact ⟨rfl, readTm_clock hfull hfull' hdigits hdigits', by simp [hfull, hfull']⟩
    | datetimeutc hlen => exact absurd (hlen.symm.trans hlength) (by simp [type])
  | datetimeutc d t =>
    cases h with
    | date hlen => exact absurd (hlen.symm.trans hlength) (by simp [type])
    | datetime hlen => exact absurd (hlen.symm.trans hlength) (by simp [type])
    | datetimeutc hlen hday hclock =>
      rw [text, DayText.scans_iff] at hday
      obtain ⟨hfull, hdigits, hmid⟩ := hday
      rw [← (List.cons.inj hmid).2, ClockText.scans_iff] at hclock
      obtain ⟨hfull', hdigits', -⟩ := hclock
      exact ⟨rfl, readTm_clock hfull hfull' hdigits hdigits', by simp [hfull, hfull']⟩

/-- Every string in one of the formats is read. -/
theorem read (t : DateText) : ∃ ls, DateRead t.text t.type ls := by
  have hlength := t.length_text
  have day (d : DayText) (s : Bytes) : Scans [(4, .ofDigits _ (d.yr.numeric (by decide))),
      (2, .ofDigits _ (d.mon.numeric (by decide))), (2, .ofDigits _ (d.day.numeric (by decide)))] (d.text ++ s) s :=
    DayText.scans_iff.mpr ⟨⟨⟨Literal.bare_ofDigits _ _, d.yr.length⟩, ⟨Literal.bare_ofDigits _ _, d.mon.length⟩,
      ⟨Literal.bare_ofDigits _ _, d.day.length⟩⟩, ⟨rfl, rfl, rfl⟩, rfl⟩
  have clock (t : ClockText) (s : Bytes) : Scans [(2, .ofDigits _ (t.hr.numeric (by decide))),
      (2, .ofDigits _ (t.min.numeric (by decide))), (2, .ofDigits _ (t.sec.numeric (by decide)))] (t.text ++ s) s :=
    ClockText.scans_iff.mpr ⟨⟨⟨Literal.bare_ofDigits _ _, t.hr.length⟩, ⟨Literal.bare_ofDigits _ _, t.min.length⟩,
      ⟨Literal.bare_ofDigits _ _, t.sec.length⟩⟩, ⟨rfl, rfl, rfl⟩, rfl⟩
  cases t with
  | date d => exact ⟨_, .date hlength (by simpa [text] using day d [])⟩
  | datetime d t => exact ⟨_, .datetime hlength (day d _) (by simpa using clock t [])⟩
  | datetimeutc d t => exact ⟨_, .datetimeutc hlength (day d _) (clock t [90])⟩

/-- What is read in full digit groups is in one of the formats. -/
theorem of_full {cp : Bytes} {dt : IcalDateT} {ls : List (Nat × Literal)} (h : DateRead cp dt ls)
    (hfull : ∀ p ∈ ls, p.2.Full p.1) : ∃ t : DateText, t.text = cp ∧ t.type = dt := by
  -- a full group is its digits, and the length leaves nothing after the last of them
  have three {w : Nat} {l m n : Literal} {s rest : Bytes} (hl : l.Full w) (hm : m.Full 2) (hn : n.Full 2)
      (hs : Scans [(w, l), (2, m), (2, n)] s rest) : s = (l.digits ++ (m.digits ++ n.digits)) ++ rest := by
    obtain ⟨s₁, rfl, -, s₂, rfl, -, s₃, rfl, -, rfl⟩ := hs
    rw [hl.1.text_eq, hm.1.text_eq, hn.1.text_eq, List.append_assoc, List.append_assoc]
  cases h with
  | @date rest yr mon day hlen hday =>
    simp only [List.mem_cons, List.not_mem_nil, or_false, forall_eq_or_imp, forall_eq] at hfull
    obtain ⟨hy, hm, hd⟩ := hfull
    have hcp := three hy hm hd hday
    have hrest := congrArg List.length hcp
    simp only [hlen, List.length_append, hy.2, hm.2, hd.2] at hrest
    refine ⟨.date ⟨hy.fixed, hm.fixed, hd.fixed⟩, ?_, rfl⟩
    obtain rfl : rest = [] := List.eq_nil_of_length_eq_zero (by omega)
    rw [hcp, List.append_nil]
    rfl
  | @datetime mid rest yr mon day hr min sec hlen hday hclock =>
    simp only [List.mem_cons, List.not_mem_nil, or_false, forall_eq_or_imp, forall_eq] at hfull
    obtain ⟨hy, hm, hd, hh, hn, hs⟩ := hfull
    have hcp := three hy hm hd hday
    have hmid := three hh hn hs hclock
    rw [hmid] at hcp
    have hrest := congrArg List.length hcp
    simp only [hlen, List.length_append, List.length_cons, hy.2, hm.2, hd.2, hh.2, hn.2, hs.2] at hrest
    refine ⟨.datetime ⟨hy.fixed, hm.fixed, hd.fixed⟩ ⟨hh.fixed, hn.fixed, hs.fixed⟩, ?_, rfl⟩
    obtain rfl : rest = [] := List.eq_nil_of_length_eq_zero (by omega)
    rw [hcp, List.append_nil]
    rfl
  | @datetimeutc mid rest yr mon day hr min sec hlen hday hclock =>
    simp only [List.mem_cons, List.not_mem_nil, or_false, forall_eq_or_imp, forall_eq] at hfull
    obtain ⟨hy, hm, hd, hh, hn, hs⟩ := hfull
    have hcp := three hy hm hd hday
    have hmid := three hh hn hs hclock
    rw [hmid] at hcp
    have hrest := congrArg List.length hcp
    simp only [hlen, List.length_append, List.length_cons, hy.2, hm.2, hd.2, hh.2, hn.2, hs.2] at hrest
    refine ⟨.datetimeutc ⟨hy.fixed, hm.fixed, hd.fixed⟩ ⟨hh.fixed, hn.fixed, hs.fixed⟩, ?_, rfl⟩
    obtain rfl : rest = [] := List.eq_nil_of_length_eq_zero (by omega)
    rw [hcp]
    rfl

end DateText

/-! ## Exactness -/

/-- `ical_datetime` takes the three formats and nothing else, and hands their digit
groups to the time conversion. -/
def DateExact (cp : Bytes) : Prop := ∀ (C : Libc) (d : Diag) (v : IcalTm),
  (icalDatetime C cp d).1 = some v ↔ ∃ t : DateText, t.text = cp ∧ v = ⟨C.mktime t.tm, t.type⟩

theorem datetimeFields_text (t : DateText) : datetimeFields t.text = some (t.tm, t.type) := by
  obtain ⟨ls, hread⟩ := t.read
  obtain ⟨-, htm, -⟩ := DateText.of_read hread
  exact datetimeFields_eq_some.mpr ⟨ls, hread, htm.symm⟩

theorem dateExact_iff (cp : Bytes) : DateExact cp ↔ ∀ dt ls, DateRead cp dt ls → ∀ p ∈ ls, p.2.Full p.1 := by
  constructor
  · intro h dt ls hread
    have hsome : (icalDatetime .utc cp ⟨"", 0, none, false⟩).1 = some ⟨Libc.utc.mktime (readTm ls), dt⟩ := by
      rw [icalDatetime_val, datetimeFields_eq_some.mpr ⟨ls, hread, rfl⟩]
      rfl
    obtain ⟨t, rfl, -⟩ := (h _ _ _).mp hsome
    exact (DateText.of_read hread).2.2
  · intro h C d v
    rw [icalDatetime_val]
    constructor
    · intro hv
      obtain ⟨⟨tm, dt⟩, hfields, rfl⟩ := Option.map_eq_some_iff.mp hv
      obtain ⟨ls, hread, rfl⟩ := datetimeFields_eq_some.mp hfields
      obtain ⟨t, rfl, rfl⟩ := DateText.of_full hread (h dt ls hread)
      exact ⟨t, rfl, by rw [(DateText.of_read hread).2.1]⟩
    · rintro ⟨t, rfl, rfl⟩
      rw [datetimeFields_text]
      rfl

theorem dateExact_blanks : ¬DateExact (ascii "2020 1 1") := by
  intro h
  have hsome : (icalDatetime .utc (ascii "2020 1 1") ⟨"", 0, none, false⟩).1 = some ⟨1577836800, .date⟩ := by
    decide +kernel
  obtain ⟨t, ht, hv⟩ := (h _ _ _).mp hsome
  cases t with
  | date d =>
    have hmem : (32 : UInt8) ∈ d.text := by
      rw [show d.text = ascii "2020 1 1" from ht]
      decide +kernel
    have hdigit : ∀ b ∈ d.text, isDigit b := by
      intro b hb
      simp only [DayText.text, List.mem_append] at hb
      rcases hb with hb | hb | hb
      · exact d.yr.digits b hb
      · exact d.mon.digits b hb
      · exact d.day.digits b hb
    exact absurd (hdigit 32 hmem) (by decide)
  | datetime d t => exact absurd (congrArg IcalTm.type hv) (by simp [DateText.type])
  | datetimeutc d t => exact absurd (congrArg IcalTm.type hv) (by simp [DateText.type])

end Kcaldav
