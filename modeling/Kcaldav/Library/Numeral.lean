import Kcaldav.Library.CString
import Mathlib.Data.List.Induction

/-! # Numbers as the standard library spells them

`strtoul`, `strtol` and the conversions of `sscanf` skip white space and take a sign
in front of the digits. A literal is such a spelling taken apart: a conversion
succeeds exactly on the literals and on nothing else, so what a caller of it accepts
is read off the literals.
-/
namespace CString

inductive Sign
  | unsigned | plus | minus
  deriving DecidableEq, Repr

def Sign.text : Sign → Bytes
  | unsigned => []
  | plus => [43]
  | minus => [45]

/-- A non-empty string of digits. -/
def Numeric (s : Bytes) : Prop := s ≠ [] ∧ ∀ b ∈ s, isDigit b

instance (s : Bytes) : Decidable (Numeric s) := inferInstanceAs (Decidable (_ ∧ _))

structure Literal where
  blanks : Bytes
  sign : Sign
  digits : Bytes
  space : ∀ b ∈ blanks, isSpace b
  numeric : Numeric digits

namespace Literal

def text (l : Literal) : Bytes := l.blanks ++ (l.sign.text ++ l.digits)

/-- The literal is its digits. -/
def Bare (l : Literal) : Prop := l.blanks = [] ∧ l.sign = .unsigned

/-- The part of the literal a field width counts. -/
def width (l : Literal) : Nat := l.sign.text.length + l.digits.length

/-- The literal is all a conversion of the given width takes from `text ++ rest`. -/
def Fits (w : Nat) (l : Literal) (rest : Bytes) : Prop :=
  l.width ≤ w ∧ (l.width = w ∨ ∀ b ∈ rest.head?, ¬isDigit b)

/-- The literal of a digit string. -/
def ofDigits (s : Bytes) (h : Numeric s) : Literal := ⟨[], .unsigned, s, fun _ hb => absurd hb List.not_mem_nil, h⟩

@[simp] theorem text_ofDigits (s : Bytes) (h : Numeric s) : (ofDigits s h).text = s := rfl

theorem bare_ofDigits (s : Bytes) (h : Numeric s) : (ofDigits s h).Bare := ⟨rfl, rfl⟩

theorem Bare.text_eq {l : Literal} (h : l.Bare) : l.text = l.digits := by
  rw [text, h.1, h.2]
  rfl

end Literal

/-! ## Scanning -/

theorem isDigit_not_space {b : UInt8} (h : isDigit b) : isSpace b = false := by
  unfold isDigit at h
  unfold isSpace
  simp only [Bool.and_eq_true, decide_eq_true_eq, UInt8.le_iff_toNat_le, UInt8.reduceToNat] at h
  simp only [Bool.or_eq_false_iff, decide_eq_false_iff_not, Bool.and_eq_false_iff, UInt8.le_iff_toNat_le, UInt8.reduceToNat]
  refine ⟨?_, .inr (by omega)⟩
  rintro rfl
  exact absurd h (by decide)

theorem isDigit_not_sign {b : UInt8} (h : isDigit b) : b ≠ 43 ∧ b ≠ 45 := by
  constructor <;> rintro rfl <;> cases h

namespace Literal

/-- A literal of digits alone is bare. -/
theorem bare_of_numeric {l : Literal} (h : Numeric l.text) : l.Bare := by
  constructor
  · cases hb : l.blanks with
    | nil => rfl
    | cons b bs =>
      have hspace : isSpace b := l.space b (hb ▸ List.mem_cons_self)
      have hdigit : isDigit b := h.2 b (by rw [text, hb]; exact List.mem_cons_self)
      rw [isDigit_not_space hdigit] at hspace
      cases hspace
  · have hsign : ∀ b ∈ l.sign.text, isDigit b := fun b hb =>
      h.2 b (List.mem_append_right _ (List.mem_append_left _ hb))
    cases hs : l.sign with
    | unsigned => rfl
    | plus => exact absurd (hsign 43 (by rw [hs]; exact List.mem_cons_self)) (by decide)
    | minus => exact absurd (hsign 45 (by rw [hs]; exact List.mem_cons_self)) (by decide)

theorem bare_iff {l : Literal} : l.Bare ↔ Numeric l.text :=
  ⟨fun h => h.text_eq ▸ l.numeric, bare_of_numeric⟩

end Literal

/-- The digits a conversion of width `w` takes are all of them, where the width or a
non-digit ends them. -/
theorem takeWhile_digits {w : Nat} {ds rest : Bytes} (hds : ∀ b ∈ ds, isDigit b) (hle : ds.length ≤ w)
    (hend : ds.length = w ∨ ∀ b ∈ rest.head?, ¬isDigit b) : ((ds ++ rest).take w).takeWhile isDigit = ds := by
  rw [List.take_append, List.take_of_length_le hle, List.takeWhile_append_of_pos hds]
  rcases hend with heq | hend
  · rw [heq, Nat.sub_self, List.take_zero, List.takeWhile_nil, List.append_nil]
  · cases rest with
    | nil => rw [List.take_nil, List.takeWhile_nil, List.append_nil]
    | cons b rest =>
      have hb : isDigit b = false := by simpa using hend b rfl
      cases w - ds.length with
      | zero => rw [List.take_zero, List.takeWhile_nil, List.append_nil]
      | succ k => rw [List.take_succ_cons, List.takeWhile_cons_of_neg (by simp [hb]), List.append_nil]

/-- The digits taken end at the width or at a non-digit. -/
theorem takeWhile_digits_end (w : Nat) (t : Bytes) :
    ((t.take w).takeWhile isDigit).length = w ∨
      ∀ b ∈ (t.drop ((t.take w).takeWhile isDigit).length).head?, ¬isDigit b := by
  induction w generalizing t with
  | zero => exact .inl rfl
  | succ w ih =>
    cases t with
    | nil =>
      right
      intro b hb
      cases hb
    | cons a t =>
      rw [List.take_succ_cons]
      cases ha : isDigit a with
      | true =>
        rw [List.takeWhile_cons_of_pos ha, List.length_cons, List.drop_succ_cons]
        rcases ih t with h | h
        · exact .inl (congrArg _ h)
        · exact .inr h
      | false =>
        rw [List.takeWhile_cons_of_neg (by simp [ha])]
        right
        intro b hb
        cases hb
        simp [ha]

namespace Literal

theorem dropWhile_text (l : Literal) (rest : Bytes) :
    (l.text ++ rest).dropWhile isSpace = l.sign.text ++ (l.digits ++ rest) := by
  obtain ⟨d, ds, hd⟩ := List.exists_cons_of_ne_nil l.numeric.1
  have hspace : isSpace d = false := isDigit_not_space (l.numeric.2 d (hd ▸ List.mem_cons_self))
  rw [text, List.append_assoc, List.append_assoc, List.dropWhile_append_of_pos l.space, hd]
  cases l.sign with
  | unsigned => exact List.dropWhile_cons_of_neg (by simp [hspace])
  | plus => rfl
  | minus => rfl

/-- A conversion takes the whole of a literal that fits it. -/
theorem numeral_text {w : Nat} {l : Literal} {rest : Bytes} (h : l.Fits w rest) :
    numeral w (l.text ++ rest) = ⟨l.sign = .minus, l.digits, rest⟩ := by
  obtain ⟨d, ds, hd⟩ := List.exists_cons_of_ne_nil l.numeric.1
  obtain ⟨hplus, hminus⟩ := isDigit_not_sign (l.numeric.2 d (hd ▸ List.mem_cons_self))
  obtain ⟨hle, hend⟩ := h
  unfold numeral
  rw [dropWhile_text]
  unfold width at hle hend
  cases hs : l.sign with
  | unsigned =>
    rw [hs] at hle hend
    simp only [Sign.text, List.length_nil, Nat.zero_add] at hle hend
    have htake := takeWhile_digits l.numeric.2 hle hend
    simp only [Sign.text, List.nil_append]
    split
    next heq =>
      rw [hd] at heq
      cases heq
      exact absurd rfl hminus
    next heq =>
      rw [hd] at heq
      cases heq
      exact absurd rfl hplus
    next => rw [htake, List.drop_left]; rfl
  | plus =>
    rw [hs] at hle hend
    simp only [Sign.text, List.length_singleton] at hle hend
    obtain ⟨w, rfl⟩ : ∃ k, w = k + 1 := ⟨w - 1, by omega⟩
    have htake := takeWhile_digits (w := w) l.numeric.2 (by omega) (hend.imp_left fun h => by omega)
    simp only [Sign.text, List.singleton_append]
    rw [htake, List.drop_left]
    rfl
  | minus =>
    rw [hs] at hle hend
    simp only [Sign.text, List.length_singleton] at hle hend
    obtain ⟨w, rfl⟩ : ∃ k, w = k + 1 := ⟨w - 1, by omega⟩
    have htake := takeWhile_digits (w := w) l.numeric.2 (by omega) (hend.imp_left fun h => by omega)
    simp only [Sign.text, List.singleton_append]
    rw [htake, List.drop_left]
    rfl

/-- What a conversion takes is a literal that fits it. -/
theorem of_numeral {w : Nat} {s : Bytes} (h : (numeral w s).digits ≠ []) : ∃ (l : Literal) (rest : Bytes),
    s = l.text ++ rest ∧ l.Fits w rest := by
  -- the three readings differ in the sign alone
  have read (sign : Sign) (k : Nat) (t : Bytes) (hs : s.dropWhile isSpace = sign.text ++ t)
      (hk : sign.text.length + k = w) (hne : (t.take k).takeWhile isDigit ≠ []) :
      ∃ (l : Literal) (rest : Bytes), s = l.text ++ rest ∧ l.Fits w rest := by
    let ds := (t.take k).takeWhile isDigit
    have hlen : ds.length ≤ k := (List.takeWhile_sublist _).length_le.trans (List.length_take_le _ _)
    have hsplit : t = ds ++ t.drop ds.length := by
      have hpre : ds <+: t := (List.takeWhile_prefix _).trans (List.take_prefix k t)
      obtain ⟨u, hu⟩ := hpre
      rw [← hu, List.drop_left]
    refine ⟨⟨s.takeWhile isSpace, sign, ds, fun b hb => List.mem_takeWhile_imp hb, hne, fun b hb => List.mem_takeWhile_imp hb⟩,
      t.drop ds.length, ?_, ?_, ?_⟩
    · rw [text]
      dsimp only
      rw [List.append_assoc, List.append_assoc, ← hsplit, ← hs, List.takeWhile_append_dropWhile]
    · dsimp only [width]
      omega
    · rcases takeWhile_digits_end k t with hw | hend
      · left
        dsimp only [width]
        change ds.length = k at hw
        omega
      · exact .inr hend
  unfold numeral at h
  dsimp only at h
  split at h
  next t k heq => exact read .minus k t heq (by simp [Sign.text]; omega) h
  next t k heq => exact read .plus k t heq (by simp [Sign.text]; omega) h
  next => exact read .unsigned _ _ rfl (by simp [Sign.text]) h

end Literal

/-! ## Conversions -/

namespace Literal

/-- The value of the literal in a 64-bit word. -/
def word (l : Literal) : Nat :=
  if l.sign = .minus then (2 ^ 64 - decimal l.digits) % 2 ^ 64 else decimal l.digits

/-- The value of the literal. -/
def int (l : Literal) : Int := if l.sign = .minus then -decimal l.digits else decimal l.digits

/-- The value of the literal in a 32-bit word. -/
def word32 (l : Literal) : BitVec 32 :=
  if l.sign = .minus then -BitVec.ofNat 32 (decimal l.digits) else BitVec.ofNat 32 (decimal l.digits)

theorem Bare.word {l : Literal} (h : l.Bare) : l.word = decimal l.digits := by
  rw [Literal.word, h.2]
  rfl

theorem fits_length (l : Literal) (rest : Bytes) (h : ∀ b ∈ rest.head?, ¬isDigit b) :
    l.Fits (l.text ++ rest).length rest := by
  refine ⟨?_, .inr h⟩
  simp only [width, text, List.length_append]
  omega

/-- The text has one reading. -/
theorem int_congr {l l' : Literal} (h : l.text = l'.text) : l.int = l'.int := by
  have hl := numeral_text (l.fits_length [] (by simp))
  have hl' := numeral_text (l'.fits_length [] (by simp))
  rw [List.append_nil, h] at hl
  rw [List.append_nil, hl] at hl'
  simp only [Numeral.mk.injEq, decide_eq_decide] at hl'
  obtain ⟨hsign, hdigits, -⟩ := hl'
  unfold int
  rw [hdigits]
  by_cases hs : l.sign = .minus
  · rw [if_pos hs, if_pos (hsign.mp hs)]
  · rw [if_neg hs, if_neg fun h => hs (hsign.mpr h)]

theorem strtoul_text (l : Literal) : strtoul l.text =
    if ULONG_MAX < decimal l.digits then ⟨ULONG_MAX, true, [], true⟩ else ⟨l.word, true, [], false⟩ := by
  have h : numeral l.text.length l.text = ⟨l.sign = .minus, l.digits, []⟩ := by
    have hfits := l.fits_length [] (by simp)
    rw [List.append_nil] at hfits
    simpa using numeral_text hfits
  unfold strtoul
  rw [h]
  simp only [l.numeric.1, ↓reduceIte]
  split
  · rfl
  · rw [word]
    cases l.sign <;> rfl

theorem strtol_text (l : Literal) : strtol l.text =
    if LONG_MAX < l.int then ⟨LONG_MAX, true, [], true⟩
    else if l.int < LONG_MIN then ⟨LONG_MIN, true, [], true⟩ else ⟨l.int, true, [], false⟩ := by
  have h : numeral l.text.length l.text = ⟨l.sign = .minus, l.digits, []⟩ := by
    have hfits := l.fits_length [] (by simp)
    rw [List.append_nil] at hfits
    simpa using numeral_text hfits
  unfold strtol
  rw [h]
  simp only [l.numeric.1, ↓reduceIte]
  rw [int]
  cases l.sign <;> rfl

end Literal

/-- A string with a number in it and nothing after that is a literal. -/
theorem numeral_all {s : Bytes} (hd : (numeral s.length s).digits ≠ []) (hrest : (numeral s.length s).rest = []) :
    ∃ l : Literal, l.text = s := by
  obtain ⟨l, rest, hs, hfits⟩ := Literal.of_numeral hd
  have hnum := Literal.numeral_text hfits
  rw [← hs] at hnum
  rw [hnum] at hrest
  obtain rfl : rest = [] := hrest
  exact ⟨l, by rw [hs, List.append_nil]⟩

/-- `strtoul` uses up literals only. -/
theorem strtoul_all {s : Bytes} (hmoved : (strtoul s).moved) (hrest : (strtoul s).rest = []) :
    ∃ l : Literal, l.text = s := by
  unfold strtoul at hmoved hrest
  dsimp only at hmoved hrest
  by_cases hd : (numeral s.length s).digits = []
  · rw [if_pos hd] at hmoved
    cases hmoved
  · rw [if_neg hd] at hrest
    refine numeral_all hd ?_
    split at hrest
    · exact hrest
    · split at hrest <;> exact hrest

theorem strtol_all {s : Bytes} (hmoved : (strtol s).moved) (hrest : (strtol s).rest = []) :
    ∃ l : Literal, l.text = s := by
  unfold strtol at hmoved hrest
  dsimp only at hmoved hrest
  by_cases hd : (numeral s.length s).digits = []
  · rw [if_pos hd] at hmoved
    cases hmoved
  · rw [if_neg hd] at hrest
    refine numeral_all hd ?_
    generalize (if (numeral s.length s).neg then _ else _ : Int) = v at hrest
    split at hrest
    · exact hrest
    · split at hrest <;> exact hrest

/-- A `scanf` conversion reads the literals that fit its width. -/
theorem scanUInt_eq_some {w : Nat} {s rest : Bytes} {v : BitVec 32} :
    scanUInt w s = some (v, rest) ↔ ∃ l : Literal, s = l.text ++ rest ∧ l.Fits w rest ∧ v = l.word32 := by
  have value (l : Literal) : (if (⟨l.sign = .minus, l.digits, rest⟩ : Numeral).neg then -BitVec.ofNat 32 (decimal l.digits)
      else BitVec.ofNat 32 (decimal l.digits)) = l.word32 := by
    rw [Literal.word32]
    cases l.sign <;> rfl
  unfold scanUInt
  dsimp only
  constructor
  · intro h
    by_cases hd : (numeral w s).digits = []
    · rw [if_pos hd] at h
      cases h
    · rw [if_neg hd] at h
      obtain ⟨l, rest', hs, hfits⟩ := Literal.of_numeral hd
      have hnum := Literal.numeral_text hfits
      rw [← hs] at hnum
      rw [hnum] at h
      obtain ⟨hv, hr⟩ := Prod.mk.injEq _ _ _ _ ▸ Option.some.inj h
      dsimp only at hr
      subst hr
      exact ⟨l, hs, hfits, hv.symm.trans (value l)⟩
  · rintro ⟨l, rfl, hfits, rfl⟩
    rw [Literal.numeral_text hfits, if_neg l.numeric.1, ← value l]

/-! ## Fields of a fixed width -/

theorem decimal_append_singleton (ds : Bytes) (b : UInt8) : decimal (ds ++ [b]) = 10 * decimal ds + (b.toNat - 48) := by
  rw [decimal, List.foldl_append]
  rfl

theorem isDigit_val {b : UInt8} (h : isDigit b) : b.toNat - 48 < 10 := by
  unfold isDigit at h
  simp only [Bool.and_eq_true, decide_eq_true_eq, UInt8.le_iff_toNat_le, UInt8.reduceToNat] at h
  omega

theorem decimal_lt {ds : Bytes} (h : ∀ b ∈ ds, isDigit b) : decimal ds < 10 ^ ds.length := by
  induction ds using List.reverseRecOn with
  | nil => exact Nat.one_pos
  | append_singleton ds b ih =>
    have hds := ih fun a ha => h a (List.mem_append_left _ ha)
    have hb := isDigit_val (h b (List.mem_append_right _ (List.mem_singleton_self b)))
    rw [decimal_append_singleton, List.length_append, List.length_singleton, Nat.pow_succ]
    omega

/-- Exactly `w` digits. -/
structure Fixed (w : Nat) where
  text : Bytes
  digits : ∀ b ∈ text, isDigit b
  length : text.length = w

namespace Fixed
variable {w : Nat}

def value (f : Fixed w) : Nat := decimal f.text

theorem value_lt (f : Fixed w) : f.value < 10 ^ w := by
  have h := decimal_lt f.digits
  rw [f.length] at h
  exact h

theorem numeric (f : Fixed w) (hw : 0 < w) : Numeric f.text := by
  refine ⟨fun h => ?_, f.digits⟩
  have hlen := f.length
  rw [h] at hlen
  exact absurd hlen (Nat.ne_of_lt hw)

end Fixed

/-- A literal of exactly `w` digits and nothing else. -/
def Literal.Full (w : Nat) (l : Literal) : Prop := l.Bare ∧ l.digits.length = w

def Literal.Full.fixed {w : Nat} {l : Literal} (h : l.Full w) : Fixed w := ⟨l.digits, l.numeric.2, h.2⟩

/-- Before a field of the width, a conversion takes that field. -/
theorem Literal.full_of_fixed {w : Nat} (hw : 0 < w) {f : Fixed w} {l : Literal} {s rest : Bytes}
    (h : f.text ++ s = l.text ++ rest) (hfits : l.Fits w rest) : l.Full w ∧ l.digits = f.text ∧ rest = s := by
  have hfull : (ofDigits f.text (f.numeric hw)).Fits w s :=
    ⟨by simp [width, ofDigits, Sign.text, f.length], .inl (by simp [width, ofDigits, Sign.text, f.length])⟩
  have hself := numeral_text hfull
  rw [text_ofDigits, h, numeral_text hfits] at hself
  simp only [Numeral.mk.injEq] at hself
  obtain ⟨-, hdigits, rfl⟩ := hself
  have htext : f.text = l.text := List.append_cancel_right h
  refine ⟨⟨bare_of_numeric (htext ▸ f.numeric hw), ?_⟩, hdigits, rfl⟩
  rw [hdigits]
  exact f.length

theorem Literal.Full.word32 {w : Nat} {l : Literal} (h : l.Full w) : l.word32 = BitVec.ofNat 32 (decimal l.digits) := by
  rw [Literal.word32, h.1.2]
  rfl

/-- Conversions one after another: each literal fits its width. -/
def Scans : List (Nat × Literal) → Bytes → Bytes → Prop
  | [], s, rest => s = rest
  | (w, l) :: ps, s, rest => ∃ mid, s = l.text ++ mid ∧ l.Fits w mid ∧ Scans ps mid rest

/-- A field of the width comes first: the first conversion takes it. -/
theorem scans_fixed {w : Nat} (hw : 0 < w) {f : Fixed w} {l : Literal} {ps : List (Nat × Literal)} {s rest : Bytes} :
    Scans ((w, l) :: ps) (f.text ++ s) rest ↔ l.Full w ∧ l.digits = f.text ∧ Scans ps s rest := by
  constructor
  · rintro ⟨mid, heq, hfits, hrest⟩
    obtain ⟨hfull, hdigits, rfl⟩ := Literal.full_of_fixed hw heq hfits
    exact ⟨hfull, hdigits, hrest⟩
  · rintro ⟨hfull, hdigits, hrest⟩
    have hwidth : l.width = w := by
      rw [Literal.width, hfull.1.2, hfull.2]
      exact Nat.zero_add w
    exact ⟨s, by rw [hfull.1.text_eq, hdigits], ⟨hwidth.le, .inl hwidth⟩, hrest⟩

end CString
