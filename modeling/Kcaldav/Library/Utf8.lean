import Kcaldav.Library.CString

/-! # Well-formed UTF-8

Bytes are well-formed where they are the encodings of some characters one after the
other. Text is taken apart one character at a time.
-/
namespace CString

/-- The encodings of some characters, one after the other. -/
def Utf8 (b : Bytes) : Prop := ∃ cs : List Char, b = cs.flatMap String.utf8EncodeChar

namespace Utf8

theorem nil : Utf8 [] := ⟨[], rfl⟩

theorem char (c : Char) : Utf8 (String.utf8EncodeChar c) := ⟨[c], by simp⟩

theorem append {a b : Bytes} (ha : Utf8 a) (hb : Utf8 b) : Utf8 (a ++ b) := by
  obtain ⟨cs, rfl⟩ := ha
  obtain ⟨ds, rfl⟩ := hb
  exact ⟨cs ++ ds, List.flatMap_append.symm⟩

/-- Text that is not empty begins with a character, and the rest is text. -/
theorem exists_char {b : Bytes} (h : Utf8 b) (hb : b ≠ []) :
    ∃ c rest, b = String.utf8EncodeChar c ++ rest ∧ Utf8 rest := by
  obtain ⟨cs, rfl⟩ := h
  cases cs with
  | nil => exact absurd rfl hb
  | cons c cs => exact ⟨c, _, List.flatMap_cons, cs, rfl⟩

theorem space : Utf8 [SP] := char ' '
theorem semicolon : Utf8 [59] := char ';'
theorem colon : Utf8 [58] := char ':'

end Utf8

end CString
