import Mathlib.Algebra.Group.Int.Defs
import Mathlib.Algebra.Group.Nat.Defs
import Mathlib.Data.List.TakeWhile
import Mathlib.Tactic.Common

/-! # Byte buffers and C strings

A buffer is a list of bytes. A C string is what a routine sees of a buffer when
it is given only its start: the bytes before the first NUL. The character
classes are those of the C locale, the number conversions are those of the
standard library on a 64-bit machine.
-/
namespace CString

abbrev Bytes := List UInt8

/-- The bytes of an ASCII text. -/
def ascii (s : String) : Bytes := s.toList.map Char.toUInt8

abbrev NUL : UInt8 := 0
abbrev HTAB : UInt8 := 9
abbrev LF : UInt8 := 10
abbrev CR : UInt8 := 13
abbrev SP : UInt8 := 32

/-- The C string at the start of a buffer. -/
def cstr (b : Bytes) : Bytes := b.takeWhile (· ≠ NUL)

/-- `strchr` as its callers use it: the bytes before the first occurrence of
`c` and the bytes after it. -/
def strchr (c : UInt8) : Bytes → Option (Bytes × Bytes)
  | [] => none
  | b :: bs => if b = c then some ([], bs) else (strchr c bs).map fun p => (b :: p.1, p.2)

/-- `strrchr` in the same form, for the last occurrence. -/
def strrchr (c : UInt8) (b : Bytes) : Option (Bytes × Bytes) :=
  (strchr c b.reverse).map fun p => (p.2.reverse, p.1.reverse)

/-- The tokens successive `strsep` calls return for one separator. -/
def strsep (c : UInt8) : Bytes → List Bytes
  | [] => [[]]
  | b :: bs =>
    if b = c then [] :: strsep c bs
    else match strsep c bs with
      | [] => [[b]]
      | t :: ts => (b :: t) :: ts

def isDigit (b : UInt8) : Bool := 48 ≤ b && b ≤ 57
def isUpper (b : UInt8) : Bool := 65 ≤ b && b ≤ 90
def isLower (b : UInt8) : Bool := 97 ≤ b && b ≤ 122
def isAlnum (b : UInt8) : Bool := isDigit b || isUpper b || isLower b
def isSpace (b : UInt8) : Bool := b = SP || (9 ≤ b && b ≤ 13)
def toLower (b : UInt8) : UInt8 := if isUpper b then b + 32 else b

/-- `strcasecmp(a, b) == 0`. -/
def strcaseEq (a b : Bytes) : Bool := a.map toLower == b.map toLower

/-! ## Number conversions -/

/-- The value of a digit string. -/
def decimal (ds : Bytes) : Nat := ds.foldl (fun n d => 10 * n + (d.toNat - 48)) 0

/-- What a number conversion reads: an optional sign and the digits after it.
The digits are empty where there is nothing to convert. -/
structure Numeral where
  neg : Bool
  digits : Bytes
  rest : Bytes
  deriving DecidableEq, Repr

/-- Skip white space, then read at most `width` characters of sign and digits. -/
def numeral (width : Nat) (s : Bytes) : Numeral :=
  let s := s.dropWhile isSpace
  match s, width with
  | 45 :: t, w + 1 => ⟨true, (t.take w).takeWhile isDigit, t.drop ((t.take w).takeWhile isDigit).length⟩
  | 43 :: t, w + 1 => ⟨false, (t.take w).takeWhile isDigit, t.drop ((t.take w).takeWhile isDigit).length⟩
  | t, w => ⟨false, (t.take w).takeWhile isDigit, t.drop ((t.take w).takeWhile isDigit).length⟩

def ULONG_MAX : Nat := 2 ^ 64 - 1
def LONG_MAX : Int := 2 ^ 63 - 1
def LONG_MIN : Int := -2 ^ 63

/-- The result of `strtoul` or `strtol` in base 10: the value, whether the end
pointer moved, what it points at, and whether the value was out of range. -/
structure Converted (α : Type) where
  value : α
  moved : Bool
  rest : Bytes
  erange : Bool
  deriving DecidableEq, Repr

def strtoul (s : Bytes) : Converted Nat :=
  let n := numeral s.length s
  if n.digits = [] then ⟨0, false, s, false⟩
  else if ULONG_MAX < decimal n.digits then ⟨ULONG_MAX, true, n.rest, true⟩
  else if n.neg then ⟨(2 ^ 64 - decimal n.digits) % 2 ^ 64, true, n.rest, false⟩
  else ⟨decimal n.digits, true, n.rest, false⟩

def strtol (s : Bytes) : Converted Int :=
  let n := numeral s.length s
  if n.digits = [] then ⟨0, false, s, false⟩
  else
    let v : Int := if n.neg then -decimal n.digits else decimal n.digits
    if LONG_MAX < v then ⟨LONG_MAX, true, n.rest, true⟩
    else if v < LONG_MIN then ⟨LONG_MIN, true, n.rest, true⟩
    else ⟨v, true, n.rest, false⟩

/-- The `%<width>u` conversion of `sscanf`: the value modulo the word size and
the input after it, or nothing on a matching failure. -/
def scanUInt (width : Nat) (s : Bytes) : Option (BitVec 32 × Bytes) :=
  let n := numeral width s
  if n.digits = [] then none
  else some (if n.neg then -BitVec.ofNat 32 (decimal n.digits) else BitVec.ofNat 32 (decimal n.digits), n.rest)

/-- The `%c` conversion: one character, white space included. -/
def scanChar : Bytes → Option (UInt8 × Bytes)
  | [] => none
  | c :: s => some (c, s)

/-! ## Laws -/

theorem cstr_eq_self {b : Bytes} (h : NUL ∉ b) : cstr b = b := by
  rw [cstr, List.takeWhile_eq_self_iff]
  intro a ha
  simp only [decide_eq_true_eq]
  rintro rfl
  exact h ha

@[simp] theorem nul_notMem_cstr (b : Bytes) : NUL ∉ cstr b := by
  intro h
  simpa using List.mem_takeWhile_imp h

@[simp] theorem cstr_cstr (b : Bytes) : cstr (cstr b) = cstr b := cstr_eq_self (nul_notMem_cstr b)

@[simp] theorem cstr_nil : cstr [] = [] := rfl

theorem cstr_append_nul {b : Bytes} (h : NUL ∉ b) (t : Bytes) : cstr (b ++ NUL :: t) = b := by
  rw [cstr, List.takeWhile_append_of_pos]
  · simp
  · intro a ha
    simp only [decide_eq_true_eq]
    rintro rfl
    exact h ha

theorem strchr_eq_some {c : UInt8} {b l r : Bytes} :
    strchr c b = some (l, r) ↔ b = l ++ c :: r ∧ c ∉ l := by
  induction b generalizing l r with
  | nil => simp [strchr]
  | cons a b ih =>
    by_cases ha : a = c
    · subst ha
      rcases l with _ | ⟨d, l⟩
      · simp [strchr]
      · simp only [strchr, ↓reduceIte, Option.some.injEq, Prod.mk.injEq]
        constructor
        · rintro ⟨h, -⟩
          cases h
        · rintro ⟨h, hn⟩
          cases h
          simp at hn
    · rcases l with _ | ⟨d, l⟩
      · simp [strchr, ha]
      · simp only [strchr, ha, ↓reduceIte, Option.map_eq_some_iff, Prod.mk.injEq]
        constructor
        · rintro ⟨⟨l', r'⟩, h, hl, hr⟩
          cases hl
          cases hr
          obtain ⟨rfl, hn⟩ := ih.mp h
          exact ⟨rfl, by simp [hn, Ne.symm ha]⟩
        · rintro ⟨h, hn⟩
          cases h
          exact ⟨(l, r), ih.mpr ⟨rfl, fun hc => hn (List.mem_cons_of_mem _ hc)⟩, rfl, rfl⟩

theorem strchr_append {c : UInt8} {l : Bytes} (h : c ∉ l) (r : Bytes) :
    strchr c (l ++ c :: r) = some (l, r) := strchr_eq_some.mpr ⟨rfl, h⟩

theorem strrchr_eq_some {c : UInt8} {b l r : Bytes} : strrchr c b = some (l, r) ↔ b = l ++ c :: r ∧ c ∉ r := by
  unfold strrchr
  constructor
  · intro h
    obtain ⟨⟨s, t⟩, hst, heq⟩ := Option.map_eq_some_iff.mp h
    cases heq
    obtain ⟨hb, hs⟩ := strchr_eq_some.mp hst
    refine ⟨?_, by simpa using hs⟩
    rw [← List.reverse_reverse b, hb]
    simp
  · rintro ⟨rfl, hr⟩
    refine Option.map_eq_some_iff.mpr ⟨(r.reverse, l.reverse), strchr_eq_some.mpr ⟨by simp, by simpa using hr⟩, ?_⟩
    simp

theorem strchr_eq_none {c : UInt8} {b : Bytes} : strchr c b = none ↔ c ∉ b := by
  induction b with
  | nil => simp [strchr]
  | cons a b ih =>
    by_cases ha : a = c
    · simp [strchr, ha]
    · simp [strchr, ha, ih, Ne.symm ha]

theorem strsep_append {c : UInt8} {l : Bytes} (h : c ∉ l) (r : Bytes) : strsep c (l ++ c :: r) = l :: strsep c r := by
  induction l with
  | nil => simp [strsep]
  | cons a l ih =>
    have ha : a ≠ c := fun e => h (e ▸ List.mem_cons_self)
    rw [List.cons_append, strsep, if_neg ha, ih fun hm => h (List.mem_cons_of_mem a hm)]

theorem strsep_of_notMem {c : UInt8} {l : Bytes} (h : c ∉ l) : strsep c l = [l] := by
  induction l with
  | nil => rfl
  | cons a l ih =>
    have ha : a ≠ c := fun e => h (e ▸ List.mem_cons_self)
    rw [strsep, if_neg ha, ih fun hm => h (List.mem_cons_of_mem a hm)]

/-- Tokens without the separator are read back from their text. -/
theorem strsep_intercalate {c : UInt8} {ts : List Bytes} (hts : ts ≠ []) (h : ∀ t ∈ ts, c ∉ t) :
    strsep c ([c].intercalate ts) = ts := by
  induction ts with
  | nil => exact absurd rfl hts
  | cons t ts ih =>
    have ht : c ∉ t := h t List.mem_cons_self
    cases ts with
    | nil => simpa using strsep_of_notMem ht
    | cons u us =>
      rw [List.intercalate_cons_cons, List.append_assoc, List.singleton_append, strsep_append ht,
        ih (List.cons_ne_nil u us) fun v hv => h v (List.mem_cons_of_mem t hv)]

end CString
