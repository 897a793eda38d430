import Kcaldav.Library.Numeral
import Kcaldav.Ical.Errno

/-! # Numbers

What `ical_ulong` and `ical_long` accept, under any `errno`. They hand the string to
the standard library, so blanks and a sign in front of the digits pass, and a minus
sign turns an unsigned number over.
-/
namespace Kcaldav
open CString Fallible

variable {C : Libc} {α β : Type}

/-- `errno` as the next conversion finds it. -/
def conv (C : Libc) (d : Diag) : Bool := C.errnoAt d.erange

theorem Libc.errnoAt_idem (C : Libc) (e : Bool) : C.errnoAt (C.errnoAt e) = C.errnoAt e := by
  cases e with
  | false => rw [C.errnoAt_false, C.errnoAt_false]
  | true =>
    cases h : C.errnoAt true with
    | false => exact C.errnoAt_false
    | true => exact h

/-- What the checks of `icalNumber` let through. -/
def numberOf (r : Converted α) (extreme inBounds : α → Bool) (e : Bool) : Option α :=
  if r.moved && r.rest.isEmpty && !(extreme r.value && (e || r.erange)) && inBounds r.value then some r.value else none

theorem icalNumber_val (r : Converted α) (extreme inBounds : α → Bool) (msg : String) (d : Diag) :
    (icalNumber C r extreme inBounds msg d).1 = numberOf r extreme inBounds (conv C d) :=
  (icalNumber_apply r extreme inBounds msg d).1

/-- A number that was out of range is an extreme one, so a success leaves `errno` alone. -/
theorem icalNumber_steady {r : Converted α} {extreme : α → Bool} (h : r.erange → extreme r.value)
    (inBounds : α → Bool) (msg : String) : Steady (conv C) (icalNumber C r extreme inBounds msg) := by
  intro d t hdt
  refine ⟨?_, fun hs => ?_⟩
  · rw [icalNumber_val, icalNumber_val, hdt]
  · rw [icalNumber_val] at hs
    unfold conv
    rw [(icalNumber_apply r extreme inBounds msg d).2]
    obtain hr : r.erange = false := by
      by_contra hr
      rw [Bool.not_eq_false] at hr
      unfold numberOf at hs
      rw [hr, h hr] at hs
      simp at hs
    rw [hr, Bool.or_false]
    exact C.errnoAt_idem d.erange

/-! ## Unsigned numbers -/

theorem strtoul_erange {s : Bytes} (h : (strtoul s).erange) : (strtoul s).value = ULONG_MAX := by
  unfold strtoul at h ⊢
  dsimp only at h ⊢
  split at h
  · cases h
  split at h
  · rw [if_neg ‹_›, if_pos ‹_›]
  · split at h <;> cases h

theorem icalUlong_steady (cp : Bytes) (min max : Nat) : Steady (conv C) (icalUlong C cp min max) :=
  icalNumber_steady (fun h => by simpa using strtoul_erange h) _ _

/-- The literal is a number `ical_ulong` takes under this `errno`. -/
structure UlongLiteral (l : Literal) (min max : Nat) (e : Bool) : Prop where
  fits : decimal l.digits ≤ ULONG_MAX
  lower : min ≤ l.word
  upper : l.word ≤ max
  stale : ¬(l.word = ULONG_MAX ∧ e)

theorem icalUlong_eq_some {cp : Bytes} {min max n : Nat} {d : Diag} : (icalUlong C cp min max d).1 = some n ↔
    ∃ l : Literal, l.text = cp ∧ l.word = n ∧ UlongLiteral l min max (conv C d) := by
  unfold icalUlong
  rw [icalNumber_val]
  unfold numberOf
  constructor
  · intro h
    split at h
    next hok =>
      simp only [Bool.and_eq_true, List.isEmpty_iff, Bool.not_eq_true', decide_eq_true_eq] at hok
      obtain ⟨⟨⟨hmoved, hrest⟩, hext⟩, hlo, hhi⟩ := hok
      obtain ⟨l, rfl⟩ := strtoul_all hmoved hrest
      rw [l.strtoul_text] at h hext hlo hhi
      by_cases hbig : ULONG_MAX < decimal l.digits
      · rw [if_pos hbig] at hext
        simp at hext
      · rw [if_neg hbig] at h hext hlo hhi
        refine ⟨l, rfl, Option.some.inj h, Nat.le_of_not_lt hbig, hlo, hhi, ?_⟩
        rintro ⟨hmax, he⟩
        simp [hmax, he] at hext
    · cases h
  · rintro ⟨l, rfl, rfl, hfits, hlo, hhi, hstale⟩
    rw [l.strtoul_text, if_neg (Nat.not_lt.mpr hfits), if_pos]
    simp only [Bool.and_eq_true, List.isEmpty_nil, Bool.or_false, Bool.not_eq_true', Bool.and_eq_false_iff,
      decide_eq_true_eq, decide_eq_false_iff_not, true_and]
    refine ⟨?_, hlo, hhi⟩
    by_cases hmax : l.word = ULONG_MAX
    · right
      simpa [hmax] using hstale
    · exact .inl hmax

/-- A string of digits and nothing else is a number with its decimal value. -/
theorem icalUlong_numeric {cp : Bytes} (h : Numeric cp) {min max n : Nat} (hmax : max ≤ ULONG_MAX) {d : Diag} :
    (icalUlong C cp min max d).1 = some n ↔
      decimal cp = n ∧ min ≤ n ∧ n ≤ max ∧ ¬(n = ULONG_MAX ∧ conv C d) := by
  rw [icalUlong_eq_some]
  constructor
  · rintro ⟨l, rfl, rfl, hl⟩
    have hbare := Literal.bare_of_numeric h
    have hword : l.word = decimal l.text := hbare.word.trans (congrArg decimal hbare.text_eq.symm)
    exact ⟨hword.symm, hl.lower, hl.upper, hl.stale⟩
  · rintro ⟨rfl, hlo, hhi, hstale⟩
    exact ⟨.ofDigits cp h, rfl, rfl, hhi.trans hmax, hlo, hhi, hstale⟩

/-- `ical_ulong` takes digits with a value within the bounds, and gives that value. -/
def UlongExact (C : Libc) (cp : Bytes) (min max : Nat) (d : Diag) : Prop :=
  ∀ n, (icalUlong C cp min max d).1 = some n ↔ Numeric cp ∧ decimal cp = n ∧ min ≤ n ∧ n ≤ max

/-- The string has blanks or a sign in front of its digits, and what the library makes
of it is within the bounds. -/
def PaddedInBounds (cp : Bytes) (min max : Nat) (e : Bool) : Prop :=
  ∃ l : Literal, l.text = cp ∧ ¬l.Bare ∧ UlongLiteral l min max e

/-- The string is the greatest number, within the bounds, and `errno` is stale. -/
def StaleMax (cp : Bytes) (min max : Nat) (e : Bool) : Prop :=
  Numeric cp ∧ decimal cp = ULONG_MAX ∧ min ≤ ULONG_MAX ∧ ULONG_MAX ≤ max ∧ e

theorem ulongExact_iff {cp : Bytes} {min max : Nat} (hmax : max ≤ ULONG_MAX) (d : Diag) :
    UlongExact C cp min max d ↔ ¬PaddedInBounds cp min max (conv C d) ∧ ¬StaleMax cp min max (conv C d) := by
  constructor
  · intro h
    constructor
    · rintro ⟨l, rfl, hbare, hl⟩
      obtain ⟨hnum, -⟩ := (h l.word).mp (icalUlong_eq_some.mpr ⟨l, rfl, rfl, hl⟩)
      exact hbare (Literal.bare_of_numeric hnum)
    · rintro ⟨hnum, hval, hlo, hhi, he⟩
      have hsome := (h ULONG_MAX).mpr ⟨hnum, hval, hlo, hhi⟩
      exact ((icalUlong_numeric hnum hmax).mp hsome).2.2.2 ⟨rfl, he⟩
  · rintro ⟨hpad, hstale⟩ n
    constructor
    · intro h
      obtain ⟨l, rfl, rfl, hl⟩ := icalUlong_eq_some.mp h
      obtain hbare : l.Bare := by
        by_contra hbare
        exact hpad ⟨l, rfl, hbare, hl⟩
      have hword : decimal l.text = l.word := (congrArg decimal hbare.text_eq).trans hbare.word.symm
      exact ⟨Literal.bare_iff.mp hbare, hword, hl.lower, hl.upper⟩
    · rintro ⟨hnum, rfl, hlo, hhi⟩
      refine (icalUlong_numeric hnum hmax).mpr ⟨rfl, hlo, hhi, ?_⟩
      rintro ⟨hval, he⟩
      exact hstale ⟨hnum, hval, hval ▸ hlo, hval ▸ hhi, he⟩

/-! ## Signed numbers -/

theorem strtol_erange {s : Bytes} (h : (strtol s).erange) : (strtol s).value = LONG_MAX ∨ (strtol s).value = LONG_MIN := by
  unfold strtol at h ⊢
  dsimp only at h ⊢
  generalize (if (numeral s.length s).neg then _ else _ : Int) = v at h ⊢
  split at h
  · cases h
  rw [if_neg ‹_›]
  split at h
  · rw [if_pos ‹_›]
    exact .inl rfl
  rw [if_neg ‹_›]
  split at h
  · rw [if_pos ‹_›]
    exact .inr rfl
  · cases h

theorem icalLong_steady (cp : Bytes) (min max : Int) : Steady (conv C) (icalLong C cp min max) :=
  icalNumber_steady (fun h => by simpa using strtol_erange h) _ _

/-- Within bounds short of the extremes `errno` is not looked at. -/
theorem icalLong_eq_some {cp : Bytes} {min max n : Int} (hmin : LONG_MIN < min) (hmax : max < LONG_MAX) {d : Diag} :
    (icalLong C cp min max d).1 = some n ↔ ∃ l : Literal, l.text = cp ∧ l.int = n ∧ min ≤ n ∧ n ≤ max := by
  unfold icalLong
  rw [icalNumber_val]
  unfold numberOf
  constructor
  · intro h
    split at h
    next hok =>
      simp only [Bool.and_eq_true, List.isEmpty_iff, Bool.not_eq_true', decide_eq_true_eq] at hok
      obtain ⟨⟨⟨hmoved, hrest⟩, hext⟩, hlo, hhi⟩ := hok
      obtain ⟨l, rfl⟩ := strtol_all hmoved hrest
      rw [l.strtol_text] at h hext hlo hhi
      by_cases hbig : LONG_MAX < l.int
      · rw [if_pos hbig] at hext
        simp at hext
      by_cases hsmall : l.int < LONG_MIN
      · rw [if_neg hbig, if_pos hsmall] at hext
        simp at hext
      · rw [if_neg hbig, if_neg hsmall] at h hlo hhi
        obtain rfl : l.int = n := Option.some.inj h
        exact ⟨l, rfl, rfl, hlo, hhi⟩
    · cases h
  · rintro ⟨l, rfl, rfl, hlo, hhi⟩
    have hbig : ¬LONG_MAX < l.int := by omega
    have hsmall : ¬l.int < LONG_MIN := by omega
    rw [l.strtol_text, if_neg hbig, if_neg hsmall, if_pos]
    simp only [Bool.and_eq_true, List.isEmpty_nil, Bool.or_false, Bool.not_eq_true', Bool.and_eq_false_iff,
      Bool.or_eq_false_iff, decide_eq_true_eq, decide_eq_false_iff_not, true_and]
    exact ⟨.inl ⟨by omega, by omega⟩, hlo, hhi⟩

end Kcaldav
