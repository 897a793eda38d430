import Kcaldav.Ical.Duration
import Kcaldav.Ical.Number

/-! # Durations as they are written

The `dur-value` of the grammar that `ical_duration` names, and what its scan takes
instead. The scan looks for the sign after the `P`, knows no order of the components and
tests at its end only that no byte is left: digits without a designator pass there, and
so does a last byte that ends no number.
-/
namespace Kcaldav
open CString Fallible

/-! ## The grammar -/

/-- A component of a duration. -/
inductive Designator
  | week | day | hour | min | sec
  deriving DecidableEq, Repr

def Designator.code : Designator → UInt8
  | week => 87
  | day => 68
  | hour => 72
  | min => 77
  | sec => 83

abbrev Digits := { ds : Bytes // Numeric ds }

/-- A number with its designator, or the `T` in front of the time. -/
inductive DurItem
  | mark
  | part (digits : Digits) (type : Designator)

def DurItem.text : DurItem → Bytes
  | mark => [84]
  | part digits type => digits.1 ++ [type.code]

/-- `dur-time` -/
inductive DurTime
  | hour (h : Digits) (rest : Option (Digits × Option Digits))
  | minute (m : Digits) (rest : Option Digits)
  | second (s : Digits)

def DurTime.items : DurTime → List DurItem
  | hour h none => [.part h .hour]
  | hour h (some (m, none)) => [.part h .hour, .part m .min]
  | hour h (some (m, some s)) => [.part h .hour, .part m .min, .part s .sec]
  | minute m none => [.part m .min]
  | minute m (some s) => [.part m .min, .part s .sec]
  | second s => [.part s .sec]

/-- A `dur-value` after the `P`. -/
inductive DurValue
  | week (w : Digits)
  | date (d : Digits) (time : Option DurTime)
  | time (t : DurTime)

def DurValue.items : DurValue → List DurItem
  | week w => [.part w .week]
  | date d none => [.part d .day]
  | date d (some t) => .part d .day :: .mark :: t.items
  | time t => .mark :: t.items

/-- `dur-value` -/
structure DurText where
  sign : Sign
  value : DurValue

def itemsText (is : List DurItem) : Bytes := is.flatMap DurItem.text

def DurText.text (t : DurText) : Bytes := t.sign.text ++ 80 :: itemsText t.value.items

/-- The number written for a component, zero if there is none. -/
def written (type : Designator) : List DurItem → Nat
  | [] => 0
  | .mark :: is => written type is
  | .part digits u :: is => if u = type then decimal digits.1 else written type is

def DurText.dur (t : DurText) : IcalDur where
  sign := if t.sign = .minus then -1 else 1
  day := written .day t.value.items
  week := written .week t.value.items
  hour := written .hour t.value.items
  min := written .min t.value.items
  sec := written .sec t.value.items

/-- `ical_duration` takes the string exactly if it is a duration, and gives the values written. -/
def DurationExact (C : Libc) (cp : Bytes) (d : Diag) : Prop :=
  ∀ v, (icalDuration C cp d).1.map Prod.fst = some v ↔ ∃ t : DurText, t.text = cp ∧ t.dur = v

/-! ## What the scan takes -/

/-- A number `ical_ulong` takes under this `errno`. -/
def NumberFits (e : Bool) (n : Nat) : Prop := n ≤ ULONG_MAX ∧ ¬(n = ULONG_MAX ∧ e)

/-- Digits and their designator, with a number that can be converted. -/
def PartFits (e : Bool) (ds : Bytes) (c : UInt8) : Prop :=
  (∃ type : Designator, type.code = c) ∧ Numeric ds ∧ NumberFits e (decimal ds)

/-- What the scan takes for the components: parts and `T`s in any order, and at the end
digits alone, or a byte that neither is one nor ends a part, whatever digits are before it. -/
inductive Loose (e : Bool) : Bytes → Prop
  | done : Loose e []
  | digits {ds : Bytes} : Numeric ds → Loose e ds
  | last {ds : Bytes} {c : UInt8} : (∀ b ∈ ds, isDigit b) → ¬isDigit c → (c = 84 → ds ≠ []) → ¬PartFits e ds c →
    Loose e (ds ++ [c])
  | mark {cp : Bytes} : cp ≠ [] → Loose e cp → Loose e (84 :: cp)
  | part {ds cp : Bytes} {c : UInt8} : PartFits e ds c → Loose e cp → Loose e (ds ++ c :: cp)

/-! ## Designators -/

namespace Designator

theorem code_inj {t u : Designator} (h : t.code = u.code) : t = u := by
  cases t <;> cases u <;> first | rfl | exact absurd h (by decide)

theorem not_digit (t : Designator) : ¬isDigit t.code := by cases t <;> decide

theorem ne_mark (t : Designator) : t.code ≠ 84 := by cases t <;> decide

end Designator

/-- The duration with a component. -/
def IcalDur.put (v : IcalDur) (n : Nat) : Designator → IcalDur
  | .week => { v with week := n }
  | .day => { v with day := n }
  | .hour => { v with hour := n }
  | .min => { v with min := n }
  | .sec => { v with sec := n }

theorem icalDurationSet_code (v : IcalDur) (t : Designator) (n : Nat) : icalDurationSet v t.code n = some (v.put n t) := by
  cases t <;> rfl

theorem icalDurationSet_other {c : UInt8} (h : ¬∃ t : Designator, t.code = c) (v : IcalDur) (n : Nat) :
    icalDurationSet v c n = none := by
  have hday : c ≠ 68 := fun heq => h ⟨.day, heq.symm⟩
  have hweek : c ≠ 87 := fun heq => h ⟨.week, heq.symm⟩
  have hhour : c ≠ 72 := fun heq => h ⟨.hour, heq.symm⟩
  have hmin : c ≠ 77 := fun heq => h ⟨.min, heq.symm⟩
  have hsec : c ≠ 83 := fun heq => h ⟨.sec, heq.symm⟩
  unfold icalDurationSet
  rw [if_neg hday, if_neg hweek, if_neg hhour, if_neg hmin, if_neg hsec]

theorem ulong_digits {C : Libc} {ds : Bytes} (hds : ∀ b ∈ ds, isDigit b) {d : Diag} {n : Nat} :
    (icalUlong C ds 0 ULONG_MAX d).1 = some n ↔ Numeric ds ∧ NumberFits (conv C d) (decimal ds) ∧ n = decimal ds := by
  by_cases hnil : ds = []
  · subst hnil
    have hnumeric : ¬Numeric ([] : Bytes) := fun h => h.1 rfl
    simp only [hnumeric, false_and, iff_false]
    intro h
    obtain ⟨l, htext, -⟩ := icalUlong_eq_some.mp h
    have hdigits : l.digits = [] := by
      unfold Literal.text at htext
      simp only [List.append_eq_nil_iff] at htext
      exact htext.2.2
    exact l.numeric.1 hdigits
  · have hnumeric : Numeric ds := ⟨hnil, hds⟩
    rw [icalUlong_numeric hnumeric le_rfl]
    unfold NumberFits
    constructor
    · rintro ⟨rfl, -, hmax, hstale⟩
      exact ⟨hnumeric, ⟨hmax, hstale⟩, rfl⟩
    · rintro ⟨-, ⟨hmax, hstale⟩, rfl⟩
      exact ⟨rfl, Nat.zero_le _, hmax, hstale⟩

/-! ## The rounds of the scan -/

section
variable {C : Libc} {fuel : Nat} {v : IcalDur} {front : Bytes} {d : Diag}

/-- A part whose number can be converted sets its component. -/
theorem scan_part {ds : Bytes} {t : Designator} (h : PartFits (conv C d) ds t.code) (cp : Bytes) :
    ∃ d', conv C d' = conv C d ∧ icalDurationLoop C (fuel + 1) v front (ds ++ t.code :: cp) d =
      icalDurationLoop C fuel (v.put (decimal ds) t) (front ++ ds ++ [NUL]) cp d' := by
  obtain ⟨-, hds, hfits⟩ := h
  have hval := (ulong_digits hds.2).mpr ⟨hds, hfits, rfl⟩
  rcases hrun : icalUlong C ds 0 ULONG_MAX d with ⟨r, d'⟩
  rw [hrun] at hval
  cases hval
  refine ⟨d', ?_, ?_⟩
  · have hsteady := icalUlong_steady (C := C) ds 0 ULONG_MAX d d rfl
    rw [hrun] at hsteady
    exact hsteady.2 rfl
  · rw [scan_byte hds.2 t.not_digit fun h => absurd h t.ne_mark, icalDurationSet_code, hrun]
    dsimp only
    rw [icalDurationSet_code]
    rfl

/-- After any other byte the scan ends. -/
theorem scan_stop {ds : Bytes} (hds : ∀ b ∈ ds, isDigit b) {c : UInt8} (hc : ¬isDigit c) (hmark : c = 84 → ds ≠ [])
    (h : ¬PartFits (conv C d) ds c) (cp : Bytes) : ∃ v' d', (v' = v ∨ ∃ t, v' = v.put 0 t) ∧
      icalDurationLoop C (fuel + 1) v front (ds ++ c :: cp) d = (some (v', front ++ ds ++ [NUL], cp), d') := by
  rw [scan_byte hds hc hmark]
  by_cases htype : ∃ t : Designator, t.code = c
  · obtain ⟨t, rfl⟩ := htype
    have hval : (icalUlong C ds 0 ULONG_MAX d).1 = none := by
      apply Option.eq_none_iff_forall_ne_some.mpr
      intro n hn
      obtain ⟨hnumeric, hfits, -⟩ := (ulong_digits hds).mp hn
      exact h ⟨⟨t, rfl⟩, hnumeric, hfits⟩
    rcases hrun : icalUlong C ds 0 ULONG_MAX d with ⟨r, d'⟩
    rw [hrun] at hval
    cases hval
    refine ⟨v.put 0 t, d', .inr ⟨t, rfl⟩, ?_⟩
    rw [icalDurationSet_code]
    rfl
  · refine ⟨v, d, .inl rfl, ?_⟩
    rw [icalDurationSet_other htype]

end

/-! ## What is accepted -/

def IcalDur.get (v : IcalDur) : Designator → Nat
  | .week => v.week
  | .day => v.day
  | .hour => v.hour
  | .min => v.min
  | .sec => v.sec

/-- Every component can be converted. -/
def IcalDur.Fits (e : Bool) (v : IcalDur) : Prop := ∀ t, NumberFits e (v.get t)

theorem IcalDur.get_put (v : IcalDur) (n : Nat) (t u : Designator) : (v.put n t).get u = if u = t then n else v.get u := by
  cases t <;> cases u <;> rfl

theorem numberFits_zero (e : Bool) : NumberFits e 0 := ⟨Nat.zero_le _, fun h => absurd h.1 (by decide)⟩

theorem IcalDur.Fits.put {e : Bool} {v : IcalDur} (h : v.Fits e) {n : Nat} (hn : NumberFits e n) (t : Designator) :
    (v.put n t).Fits e := by
  intro u
  rw [IcalDur.get_put]
  split
  · exact hn
  · exact h u

section
variable {C : Libc}

/-- A scan to the end of the string: it is of the loose form, and the components can be converted. -/
theorem loose_of_scan (fuel : Nat) : ∀ {v v' : IcalDur} {front front' cp : Bytes} {d d' : Diag}, cp.length ≤ fuel →
    icalDurationLoop C fuel v front cp d = (some (v', front', []), d') →
    Loose (conv C d) cp ∧ (v.Fits (conv C d) → v'.Fits (conv C d)) := by
  induction fuel with
  | zero =>
    intro v v' front front' cp d d' hf h
    obtain rfl := List.length_eq_zero_iff.mp (Nat.le_zero.mp hf)
    cases h
    exact ⟨.done, id⟩
  | succ fuel ih =>
    intro v v' front front' cp d d' hf h
    rcases scan_cases cp with rfl | ⟨cp', rfl⟩ | hds | ⟨ds, c, cp', hds, hc, hmark, rfl⟩
    · cases h
      exact ⟨.done, id⟩
    · rw [scan_mark] at h
      split at h
      · cases h
      next hne =>
        obtain ⟨hloose, hfits⟩ := ih (Nat.le_of_succ_le_succ hf) h
        exact ⟨.mark hne hloose, hfits⟩
    · rw [scan_digits hds] at h
      cases h
      exact ⟨.digits hds, id⟩
    · by_cases hpart : PartFits (conv C d) ds c
      · obtain ⟨t, rfl⟩ := hpart.1
        obtain ⟨d₁, hconv, hgo⟩ := scan_part (C := C) (d := d) hpart cp'
        rw [hgo] at h
        have hlen : cp'.length ≤ fuel := by
          rw [List.length_append, List.length_cons] at hf
          omega
        have hrest := ih hlen h
        rw [hconv] at hrest
        exact ⟨.part hpart hrest.1, fun hv => hrest.2 (hv.put hpart.2.2 t)⟩
      · obtain ⟨w, d₁, hw, hstop⟩ := scan_stop (C := C) (d := d) hds hc hmark hpart cp'
        rw [hstop] at h
        cases h
        refine ⟨.last hds hc hmark hpart, fun hv => ?_⟩
        rcases hw with rfl | ⟨t, rfl⟩
        · exact hv
        · exact hv.put (numberFits_zero _) t

/-- A string of the loose form is scanned to its end. -/
theorem scan_of_loose {e : Bool} {cp : Bytes} (h : Loose e cp) : ∀ {fuel : Nat} (v : IcalDur) (front : Bytes) {d : Diag},
    cp.length ≤ fuel → conv C d = e → ∃ v' front' d', icalDurationLoop C fuel v front cp d = (some (v', front', []), d') := by
  induction h with
  | done =>
    intro fuel v front d _ _
    cases fuel <;> exact ⟨v, front, d, rfl⟩
  | @digits ds hds =>
    intro fuel v front d hf _
    obtain ⟨fuel, rfl⟩ : ∃ k, fuel = k + 1 := Nat.exists_eq_add_one.mpr (Nat.lt_of_lt_of_le (List.length_pos_iff.mpr hds.1) hf)
    exact ⟨v, _, d, scan_digits hds⟩
  | @last ds c hds hc hmark hpart =>
    intro fuel v front d hf he
    subst he
    obtain ⟨fuel, rfl⟩ : ∃ k, fuel = k + 1 := Nat.exists_eq_add_one.mpr (Nat.lt_of_lt_of_le (by simp) hf)
    obtain ⟨v', d', -, hstop⟩ := scan_stop (C := C) (d := d) hds hc hmark hpart []
    exact ⟨v', _, d', hstop⟩
  | @mark cp hne _ ih =>
    intro fuel v front d hf he
    obtain ⟨fuel, rfl⟩ : ∃ k, fuel = k + 1 := Nat.exists_eq_add_one.mpr (Nat.lt_of_lt_of_le (by simp) hf)
    rw [scan_mark, if_neg hne]
    exact ih v _ (Nat.le_of_succ_le_succ hf) he
  | @part ds cp c hpart _ ih =>
    intro fuel v front d hf he
    subst he
    obtain ⟨t, rfl⟩ := hpart.1
    rw [List.length_append, List.length_cons] at hf
    obtain ⟨fuel, rfl⟩ : ∃ k, fuel = k + 1 := Nat.exists_eq_add_one.mpr (by omega)
    obtain ⟨d₁, hconv, hgo⟩ := scan_part (C := C) (d := d) hpart cp
    rw [hgo]
    exact ih _ _ (by omega) hconv

/-- The components with those of an item. -/
def IcalDur.putItem (v : IcalDur) : DurItem → IcalDur
  | .mark => v
  | .part digits t => v.put (decimal digits.1) t

/-- Items with numbers that can be converted are scanned one by one. -/
theorem scan_items {e : Bool} {is : List DurItem} : ∀ {fuel : Nat} (v : IcalDur) (front : Bytes) {d : Diag}, conv C d = e →
    (∀ digits t, .part digits t ∈ is → NumberFits e (decimal digits.1)) → is.getLast? ≠ some .mark →
    (itemsText is).length ≤ fuel →
    ∃ front' d', icalDurationLoop C fuel v front (itemsText is) d = (some (is.foldl IcalDur.putItem v, front', []), d') := by
  induction is with
  | nil =>
    intro fuel v front d _ _ _ _
    cases fuel <;> exact ⟨front, d, rfl⟩
  | cons i is ih =>
    intro fuel v front d he hfits hlast hf
    have htail (digits : Digits) (t : Designator) (h : .part digits t ∈ is) : NumberFits e (decimal digits.1) :=
      hfits digits t (List.mem_cons_of_mem i h)
    have hlast' : is.getLast? ≠ some .mark := by
      cases is with
      | nil => simp
      | cons j js => rwa [List.getLast?_cons_cons] at hlast
    cases i with
    | mark =>
      have hne : itemsText is ≠ [] := by
        cases is with
        | nil => exact absurd rfl hlast
        | cons j js => cases j <;> simp [itemsText, DurItem.text]
      have htext : itemsText (.mark :: is) = 84 :: itemsText is := rfl
      rw [htext, List.length_cons] at hf
      obtain ⟨fuel, rfl⟩ : ∃ k, fuel = k + 1 := Nat.exists_eq_add_one.mpr (by omega)
      rw [htext, scan_mark, if_neg hne]
      exact ih v _ he htail hlast' (by omega)
    | part digits t =>
      subst he
      have htext : itemsText (.part digits t :: is) = digits.1 ++ t.code :: itemsText is := by
        simp [itemsText, DurItem.text]
      rw [htext, List.length_append, List.length_cons] at hf
      obtain ⟨fuel, rfl⟩ : ∃ k, fuel = k + 1 := Nat.exists_eq_add_one.mpr (by omega)
      have hpart : PartFits (conv C d) digits.1 t.code := ⟨⟨t, rfl⟩, digits.2, hfits digits t List.mem_cons_self⟩
      obtain ⟨d₁, hconv, hgo⟩ := scan_part (C := C) (d := d) hpart (itemsText is)
      rw [htext, hgo]
      exact ih _ _ hconv htail hlast' (by omega)

end

/-! ## Strings of the grammar -/

theorem digits_split {ds ds' : Bytes} (hds : ∀ b ∈ ds, isDigit b) (hds' : ∀ b ∈ ds', isDigit b) {c c' : UInt8} (hc : ¬isDigit c)
    (hc' : ¬isDigit c') {cp cp' : Bytes} (h : ds ++ c :: cp = ds' ++ c' :: cp') : ds = ds' ∧ c = c' ∧ cp = cp' := by
  have htake := congrArg (List.takeWhile isDigit) h
  rw [takeWhile_isDigit hds hc, takeWhile_isDigit hds' hc'] at htake
  subst htake
  have hrest := List.append_cancel_left h
  exact ⟨rfl, List.cons.inj hrest⟩

theorem mark_not_digits {ds cp cp' : Bytes} (hds : Numeric ds) : 84 :: cp ≠ ds ++ cp' := by
  intro h
  cases ds with
  | nil => exact hds.1 rfl
  | cons b bs =>
    cases h
    exact absurd (hds.2 84 List.mem_cons_self) (by decide)

/-- Items begin with no sign. -/
theorem itemsText_head {is : List DurItem} (h : is ≠ []) : ∃ b bs, itemsText is = b :: bs ∧ b ≠ 43 ∧ b ≠ 45 := by
  obtain ⟨i, is, rfl⟩ := List.exists_cons_of_ne_nil h
  cases i with
  | mark => exact ⟨84, itemsText is, rfl, by decide, by decide⟩
  | part digits t =>
    obtain ⟨b, bs, hb⟩ := List.exists_cons_of_ne_nil digits.2.1
    have hdigit : isDigit b := digits.2.2 b (hb ▸ List.mem_cons_self)
    refine ⟨b, bs ++ t.code :: itemsText is, ?_, isDigit_not_sign hdigit⟩
    simp [itemsText, DurItem.text, hb]

theorem itemsText_not_digits {is : List DurItem} (h : is ≠ []) : ∃ b ∈ itemsText is, ¬isDigit b := by
  obtain ⟨i, is, rfl⟩ := List.exists_cons_of_ne_nil h
  cases i with
  | mark => exact ⟨84, List.mem_cons_self, by decide⟩
  | part digits t => exact ⟨t.code, by simp [itemsText, DurItem.text], t.not_digit⟩

theorem icalDurationSign_other {b : UInt8} (hplus : b ≠ 43) (hminus : b ≠ 45) (bs : Bytes) :
    icalDurationSign (b :: bs) = (1, [80], b :: bs) := by
  unfold icalDurationSign
  split
  next heq => exact absurd (List.cons.inj heq).1 hminus
  next heq => exact absurd (List.cons.inj heq).1 hplus
  next => rfl

/-- A string has the items it has in one way. -/
theorem itemsText_inj {is : List DurItem} : ∀ {js : List DurItem}, itemsText is = itemsText js → is = js := by
  have cons_ne (i : DurItem) (is : List DurItem) : itemsText (i :: is) ≠ [] := by
    cases i <;> simp [itemsText, DurItem.text]
  have part_text (digits : Digits) (t : Designator) (is : List DurItem) :
      itemsText (.part digits t :: is) = digits.1 ++ t.code :: itemsText is := by
    simp [itemsText, DurItem.text]
  induction is with
  | nil =>
    intro js h
    cases js with
    | nil => rfl
    | cons j js => exact absurd h.symm (cons_ne j js)
  | cons i is ih =>
    intro js h
    cases js with
    | nil => exact absurd h (cons_ne i is)
    | cons j js =>
      cases i with
      | mark =>
        cases j with
        | mark => rw [ih (List.cons.inj h).2]
        | part digits t =>
          rw [part_text] at h
          exact absurd h (mark_not_digits digits.2)
      | part digits t =>
        cases j with
        | mark =>
          rw [part_text] at h
          exact absurd h.symm (mark_not_digits digits.2)
        | part digits' t' =>
          rw [part_text, part_text] at h
          obtain ⟨hdigits, hcode, htext⟩ := digits_split digits.2.2 digits'.2.2 t.not_digit t'.not_digit h
          rw [Subtype.ext hdigits, Designator.code_inj hcode, ih htext]

/-- Items of a duration: some, a `T` never at the end, and each component once. -/
structure ItemsSound (is : List DurItem) : Prop where
  ne_nil : is ≠ []
  last : is.getLast? ≠ some .mark
  once : ∀ digits t, .part digits t ∈ is → written t is = decimal digits.1

theorem DurValue.items_sound (x : DurValue) : ItemsSound x.items := by
  rcases x with w | ⟨d, _ | (⟨h, _ | ⟨m, _ | s⟩⟩ | ⟨m, _ | s⟩ | s)⟩ | (⟨h, _ | ⟨m, _ | s⟩⟩ | ⟨m, _ | s⟩ | s) <;>
    refine ⟨List.cons_ne_nil _ _, by simp [items, DurTime.items], fun digits t h => ?_⟩ <;>
    simp only [items, DurTime.items, List.mem_cons, List.not_mem_nil, or_false, reduceCtorEq, false_or, DurItem.part.injEq] at h <;>
    grind [items, DurTime.items, written]

namespace DurText

theorem get_dur (t : DurText) (u : Designator) : t.dur.get u = written u t.value.items := by cases u <;> rfl

theorem dur_eq (t : DurText) :
    t.value.items.foldl IcalDur.putItem { IcalDur.zero with sign := if t.sign = .minus then -1 else 1 } = t.dur := by
  obtain ⟨sign, x⟩ := t
  rcases x with w | ⟨d, _ | (⟨h, _ | ⟨m, _ | s⟩⟩ | ⟨m, _ | s⟩ | s)⟩ | (⟨h, _ | ⟨m, _ | s⟩⟩ | ⟨m, _ | s⟩ | s) <;> rfl

/-- A string is one duration at most. -/
theorem text_dur {t t' : DurText} (h : t.text = t'.text) : t.dur = t'.dur := by
  obtain ⟨sign, x⟩ := t
  obtain ⟨sign', x'⟩ := t'
  have hboth : sign = sign' ∧ itemsText x.items = itemsText x'.items := by
    cases sign <;> cases sign' <;> simp_all [text, Sign.text]
  obtain ⟨rfl, htext⟩ := hboth
  have hitems := itemsText_inj htext
  unfold dur
  dsimp only
  rw [hitems]

end DurText

/-! ## Durations -/

section
variable {C : Libc} {cp : Bytes} {d : Diag}

/-- The scan of what comes after the sign. -/
theorem icalDuration_val {v : IcalDur} : (icalDuration C cp d).1.map Prod.fst = some v ↔
    durationText cp ≠ [] ∧ ∃ cp' front d', cp = 80 :: cp' ∧ icalDurationLoop C (durationText cp).length
      { IcalDur.zero with sign := (icalDurationSign cp').1 } (icalDurationSign cp').2.1 (durationText cp) d = (some (v, front, []), d') := by
  unfold icalDuration
  split
  next cp' =>
    rcases hs : icalDurationSign cp' with ⟨sign, front, text⟩
    have htext : durationText (80 :: cp') = text := by rw [durationText, hs]
    rw [htext]
    dsimp only
    split
    next hnil =>
      subst hnil
      constructor
      · intro h
        cases h
      · rintro ⟨hne, -⟩
        exact absurd rfl hne
    next hne =>
      obtain ⟨w, front', rest, d', t, hloop, -⟩ := icalDurationLoop_extends (C := C) text.length
        { IcalDur.zero with sign := sign } front text d
      rw [bind_of_some hloop]
      dsimp only
      constructor
      · intro h
        split at h
        next hrest =>
          subst hrest
          cases h
          exact ⟨hne, cp', front', d', rfl, by rw [hs]; exact hloop⟩
        next => cases h
      · rintro ⟨-, cp'', front'', d'', heq, hloop'⟩
        cases heq
        rw [hs] at hloop'
        have hsame := hloop.symm.trans hloop'
        cases hsame
        rw [if_pos rfl]
        rfl
  next hother =>
    constructor
    · intro h
      cases h
    · rintro ⟨-, cp', -, -, rfl, -⟩
      exact absurd rfl (hother cp')

/-- `ical_duration` takes the strings of the loose form, and gives components that can be converted. -/
theorem icalDuration_loose : (∃ v, (icalDuration C cp d).1.map Prod.fst = some v) ↔
    durationText cp ≠ [] ∧ Loose (conv C d) (durationText cp) := by
  constructor
  · rintro ⟨v, h⟩
    obtain ⟨hne, cp', front, d', -, hloop⟩ := icalDuration_val.mp h
    exact ⟨hne, (loose_of_scan _ le_rfl hloop).1⟩
  · rintro ⟨hne, hloose⟩
    obtain ⟨cp', rfl⟩ : ∃ cp', cp = 80 :: cp' := by
      unfold durationText at hne
      split at hne
      next cp' => exact ⟨cp', rfl⟩
      next => exact absurd rfl hne
    obtain ⟨v, front, d', hloop⟩ := scan_of_loose (C := C) (d := d) hloose
      { IcalDur.zero with sign := (icalDurationSign cp').1 } (icalDurationSign cp').2.1 le_rfl rfl
    exact ⟨v, icalDuration_val.mpr ⟨hne, cp', front, d', rfl, hloop⟩⟩

theorem icalDuration_fits {v : IcalDur} (h : (icalDuration C cp d).1.map Prod.fst = some v) : v.Fits (conv C d) := by
  obtain ⟨-, cp', front, d', -, hloop⟩ := icalDuration_val.mp h
  refine (loose_of_scan _ le_rfl hloop).2 fun t => ?_
  cases t <;> exact numberFits_zero _

/-- A duration without a sign whose numbers can be converted is taken as written. -/
theorem icalDuration_written {t : DurText} (hsign : t.sign = .unsigned) (hfits : t.dur.Fits (conv C d)) :
    (icalDuration C t.text d).1.map Prod.fst = some t.dur := by
  have htext : t.text = 80 :: itemsText t.value.items := by
    rw [DurText.text, hsign]
    rfl
  obtain ⟨b, bs, hhead, hplus, hminus⟩ := itemsText_head t.value.items_sound.ne_nil
  have hnosign : icalDurationSign (itemsText t.value.items) = (1, [80], itemsText t.value.items) := by
    rw [hhead]
    exact icalDurationSign_other hplus hminus bs
  have hitems (digits : Digits) (u : Designator) (h : .part digits u ∈ t.value.items) :
      NumberFits (conv C d) (decimal digits.1) := by
    rw [← t.value.items_sound.once digits u h, ← t.get_dur]
    exact hfits u
  have hdur : t.value.items.foldl IcalDur.putItem { IcalDur.zero with sign := 1 } = t.dur := by
    rw [← t.dur_eq, hsign]
    rfl
  obtain ⟨front, d', hloop⟩ := scan_items (C := C) { IcalDur.zero with sign := 1 } [80] rfl hitems
    t.value.items_sound.last le_rfl
  rw [hdur] at hloop
  have hdtext : durationText t.text = itemsText t.value.items := by rw [htext, durationText, hnosign]
  refine icalDuration_val.mpr ⟨by rw [hdtext, hhead]; exact List.cons_ne_nil _ _, _, front, d', htext, ?_⟩
  rw [hdtext, hnosign]
  exact hloop

/-- `ical_duration` is exact on the durations without a sign whose numbers can be converted, and on the
strings that are neither a duration nor of the loose form. -/
theorem icalDuration_exact_iff (cp : Bytes) (d : Diag) : DurationExact C cp d ↔
    (∃ t : DurText, t.text = cp ∧ t.sign = .unsigned ∧ t.dur.Fits (conv C d)) ∨
      (¬∃ t : DurText, t.text = cp) ∧ ¬(durationText cp ≠ [] ∧ Loose (conv C d) (durationText cp)) := by
  constructor
  · intro h
    by_cases htext : ∃ t : DurText, t.text = cp
    · obtain ⟨t, rfl⟩ := htext
      have hval := (h t.dur).mpr ⟨t, rfl, rfl⟩
      refine .inl ⟨t, rfl, ?_, icalDuration_fits hval⟩
      obtain ⟨-, cp', -, -, heq, -⟩ := icalDuration_val.mp hval
      cases hsign : t.sign with
      | unsigned => rfl
      | plus =>
        rw [DurText.text, hsign] at heq
        exact absurd heq (by simp [Sign.text])
      | minus =>
        rw [DurText.text, hsign] at heq
        exact absurd heq (by simp [Sign.text])
    · refine .inr ⟨htext, fun hloose => htext ?_⟩
      obtain ⟨v, hv⟩ := icalDuration_loose.mpr hloose
      obtain ⟨t, ht, -⟩ := (h v).mp hv
      exact ⟨t, ht⟩
  · rintro (⟨t, rfl, hsign, hfits⟩ | ⟨htext, hloose⟩) v
    · have hval := icalDuration_written hsign hfits
      rw [hval, Option.some.injEq]
      constructor
      · rintro rfl
        exact ⟨t, rfl, rfl⟩
      · rintro ⟨t', ht', rfl⟩
        exact (DurText.text_dur ht').symm
    · constructor
      · exact fun hv => absurd (icalDuration_loose.mp ⟨v, hv⟩) hloose
      · rintro ⟨t, ht, -⟩
        exact absurd ⟨t, ht⟩ htext

end

/-- A number without a designator passes for a duration of nothing. -/
theorem icalDuration_exact_bare : ¬DurationExact .utc (ascii "P1") ⟨"", 0, none, false⟩ := by
  intro h
  have hval : (icalDuration .utc (ascii "P1") ⟨"", 0, none, false⟩).1.map Prod.fst = some ⟨1, 0, 0, 0, 0, 0⟩ := by decide +kernel
  obtain ⟨t, ht, -⟩ := (h _).mp hval
  have htext : t.sign.text ++ 80 :: itemsText t.value.items = [80, 49] := ht
  have hitems : itemsText t.value.items = [49] := by
    cases hsign : t.sign <;> simp_all [Sign.text]
  obtain ⟨b, hb, hdigit⟩ := itemsText_not_digits t.value.items_sound.ne_nil
  rw [hitems, List.mem_singleton] at hb
  subst hb
  exact hdigit (by decide)

end Kcaldav
