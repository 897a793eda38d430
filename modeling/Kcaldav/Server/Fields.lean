import Kcaldav.Caldav.Parse

/-! # Form fields

The checks of form fields that `kcaldav.c` hands to the form parser; a handler is given
the fields that pass. The two checks of colours, here and in the parser of CalDAV, accept
the same texts.
-/
namespace Kcaldav
open CString

/-- A C string that is not empty. -/
def kvalidStringne (val : Bytes) : Bool := val ≠ [] && NUL ∉ val

def kvalidName (val : Bytes) : Bool := kvalidStringne val && val.length < 1024

def kvalidDescription (val : Bytes) : Bool := kvalidStringne val && val.length < 4096

def kvalidPath (val : Bytes) : Bool := kvalidStringne val && val.length ≤ 256 && httpSafeString val

def kvalidColour (val : Bytes) : Bool :=
  kvalidStringne val && (val.length = 7 || val.length = 9) && val.head? = some 35 &&
    val.tail.all fun c => isDigit c || isHexAlpha c

/-- A digest in lower case. -/
def kvalidHash (val : Bytes) : Bool :=
  kvalidStringne val && val.length = 32 && val.all fun c => isDigit c || (97 ≤ c && c ≤ 102)

/-- The number has been parsed as an unsigned one. -/
def kvalidProxyBits (i : Int) : Bool := i = 1 || i = 2

/-- The fields that pass. An address and an identifier have been checked by the form parser, and a body
is parsed by the handler again. -/
def Fields.checked (f : Fields) : Fields :=
  { f with
    bits := f.bits.filter kvalidProxyBits
    colour := f.colour.filter kvalidColour
    description := f.description.filter kvalidDescription
    name := f.name.filter kvalidName
    pass := f.pass.filter kvalidHash
    path := f.path.filter kvalidPath }

/-- The request as it comes to the handlers. -/
def Kreq.checked (r : Kreq) : Kreq := { r with fields := r.fields.checked }

/-! ## Colours -/

/-- `#` and six or eight hexadecimal digits. -/
def IsColour (b : Bytes) : Prop :=
  ∃ ds, b = 35 :: ds ∧ (ds.length = 6 ∨ ds.length = 8) ∧ ∀ d ∈ ds, isDigit d ∨ isHexAlpha d

theorem propvalidRgb_iff {b : Bytes} : propvalidRgb b ↔ IsColour b := by
  unfold propvalidRgb IsColour
  cases b with
  | nil => simp
  | cons c ds =>
    constructor
    · intro h
      simp only [Bool.and_eq_true, Bool.or_eq_true, decide_eq_true_eq, List.length_cons, List.head?_cons, Option.some.injEq,
        List.tail_cons, List.all_eq_true] at h
      obtain ⟨⟨hlen, rfl⟩, hds⟩ := h
      exact ⟨ds, rfl, by omega, hds⟩
    · rintro ⟨ds', heq, hlen, hds⟩
      cases heq
      simp only [Bool.and_eq_true, Bool.or_eq_true, decide_eq_true_eq, List.length_cons, List.head?_cons, List.tail_cons,
        List.all_eq_true]
      exact ⟨⟨by omega, trivial⟩, hds⟩

/-- No byte of a colour ends a C string. -/
theorem IsColour.stringne {b : Bytes} (h : IsColour b) : kvalidStringne b := by
  obtain ⟨ds, rfl, -, hds⟩ := h
  have hnul : NUL ∉ ds := by
    intro hmem
    exact absurd (hds NUL hmem) (by decide)
  simp [kvalidStringne, hnul, show NUL ≠ 35 by decide]

theorem kvalidColour_iff {b : Bytes} : kvalidColour b ↔ IsColour b := by
  have hsplit : kvalidColour b = (kvalidStringne b && propvalidRgb b) := by
    unfold kvalidColour propvalidRgb
    simp only [Bool.and_assoc]
  rw [hsplit, Bool.and_eq_true, propvalidRgb_iff]
  exact ⟨And.right, fun h => ⟨h.stringne, h⟩⟩

/-- The default of the schema passes the checks. -/
theorem newCol_colour (principal : Int) (url : Bytes) (id : Int) : IsColour (Sql.newCol principal url id).colour :=
  propvalidRgb_iff.mp (by decide +kernel : propvalidRgb (ascii "#B90E28FF"))

end Kcaldav
