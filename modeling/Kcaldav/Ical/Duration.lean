import Kcaldav.Ical.Parse
import Kcaldav.Library.Numeral

/-! # The duration parser's buffer

`ical_duration` ends each number with a NUL in the buffer it was given, which is
the node's own value. What is left of it is a prefix, and the whole text only
where no byte follows the last digits.
-/
namespace Kcaldav
open CString

variable {C : Libc}

/-- No byte of the duration text is overwritten: nothing follows the last digits. -/
def plainText (cp : Bytes) : Bool := (cp.dropWhile (· = 84)).all isDigit

/-- The text after the sign. -/
def durationText : Bytes → Bytes
  | 80 :: cp => (icalDurationSign cp).2.2
  | _ => []

def plainDuration (val : Bytes) : Bool := plainText (durationText val)

/-! ## The rounds of the scan -/

section
variable {fuel : Nat} {v : IcalDur} {front : Bytes} {d : Diag}

theorem icalDurationLoop_nil (fuel : Nat) (v : IcalDur) (front : Bytes) :
    icalDurationLoop C fuel v front [] = pure (v, front, []) := by
  cases fuel <;> rfl

theorem scan_mark (cp : Bytes) : icalDurationLoop C (fuel + 1) v front (84 :: cp) d =
    if cp = [] then (some (v, front, [84]), d) else icalDurationLoop C fuel v (front ++ [84]) cp d := by
  conv_lhs => unfold icalDurationLoop
  rw [if_pos rfl]
  split
  next hcp =>
    subst hcp
    rfl
  next => rfl

theorem takeWhile_isDigit {ds : Bytes} (hds : ∀ b ∈ ds, isDigit b) {c : UInt8} (hc : ¬isDigit c) (cp : Bytes) :
    (ds ++ c :: cp).takeWhile isDigit = ds := by
  rw [List.takeWhile_append_of_pos hds, List.takeWhile_cons_of_neg hc, List.append_nil]

theorem scan_digits {ds : Bytes} (hds : Numeric ds) :
    icalDurationLoop C (fuel + 1) v front ds d = (some (v, front ++ ds, []), d) := by
  obtain ⟨hne, hall⟩ := hds
  obtain ⟨c, cp, rfl⟩ := List.exists_cons_of_ne_nil hne
  have hc : c ≠ 84 := by
    rintro rfl
    exact absurd (hall 84 List.mem_cons_self) (by decide)
  have hself : (c :: cp).takeWhile isDigit = c :: cp := List.takeWhile_eq_self_iff.mpr hall
  unfold icalDurationLoop
  rw [if_neg hc]
  dsimp only
  rw [hself, List.drop_length]
  rfl

/-- A byte after digits, or one that is no `T`, does not make the string begin with one. -/
theorem byte_head {ds : Bytes} (hds : ∀ b ∈ ds, isDigit b) {c : UInt8} (hmark : c = 84 → ds ≠ []) (cp : Bytes) :
    ∃ b bs, ds ++ c :: cp = b :: bs ∧ b ≠ 84 := by
  cases ds with
  | nil => exact ⟨c, cp, rfl, fun h => hmark h rfl⟩
  | cons b bs =>
    refine ⟨b, bs ++ c :: cp, rfl, ?_⟩
    rintro rfl
    exact absurd (hds 84 List.mem_cons_self) (by decide)

/-- Digits and the byte after them. -/
theorem scan_byte {ds : Bytes} (hds : ∀ b ∈ ds, isDigit b) {c : UInt8} (hc : ¬isDigit c) (hmark : c = 84 → ds ≠ []) (cp : Bytes) :
    icalDurationLoop C (fuel + 1) v front (ds ++ c :: cp) d = match icalDurationSet v c 0 with
      | none => (some (v, front ++ ds ++ [NUL], cp), d)
      | some _ => match icalUlong C ds 0 ULONG_MAX d with
        | (some n, d) => icalDurationLoop C fuel ((icalDurationSet v c n).getD v) (front ++ ds ++ [NUL]) cp d
        | (none, d) => (some ((icalDurationSet v c 0).getD v, front ++ ds ++ [NUL], cp), d) := by
  obtain ⟨b, bs, hb, hne⟩ := byte_head hds hmark cp
  have htake := takeWhile_isDigit hds hc cp
  have hdrop : (ds ++ c :: cp).drop ds.length = c :: cp := List.drop_left
  rw [hb] at htake hdrop ⊢
  conv_lhs => unfold icalDurationLoop
  rw [if_neg hne]
  dsimp only
  rw [htake, hdrop]
  dsimp only
  cases icalDurationSet v c 0 with
  | none => rfl
  | some w => rfl

end

/-- A string is empty, begins with a `T`, is digits, or has a byte after its digits that is not a digit. -/
theorem scan_cases (cp : Bytes) : cp = [] ∨ (∃ cp', cp = 84 :: cp') ∨ Numeric cp ∨
    ∃ ds c cp', (∀ b ∈ ds, isDigit b) ∧ ¬isDigit c ∧ (c = 84 → ds ≠ []) ∧ cp = ds ++ c :: cp' := by
  have hsplit := List.takeWhile_append_dropWhile (p := isDigit) (l := cp)
  have hds : ∀ b ∈ cp.takeWhile isDigit, isDigit b := fun b hb => List.mem_takeWhile_imp hb
  cases hrest : cp.dropWhile isDigit with
  | nil =>
    rw [hrest, List.append_nil] at hsplit
    by_cases hnil : cp = []
    · exact .inl hnil
    · exact .inr (.inr (.inl ⟨hnil, hsplit ▸ hds⟩))
  | cons c cp' =>
    have hc : ¬isDigit c := by
      have hhead := List.head?_dropWhile_not isDigit cp
      rw [hrest] at hhead
      simpa using hhead
    rw [hrest] at hsplit
    by_cases hmark : c = 84 ∧ cp.takeWhile isDigit = []
    · obtain ⟨rfl, hnil⟩ := hmark
      rw [hnil] at hsplit
      exact .inr (.inl ⟨cp', hsplit.symm⟩)
    · exact .inr (.inr (.inr ⟨_, c, cp', hds, hc, fun h hnil => hmark ⟨h, hnil⟩, hsplit.symm⟩))

/-! ## The buffer -/

theorem plainText_mark (cp : Bytes) : plainText (84 :: cp) = plainText cp := by
  unfold plainText
  rw [List.dropWhile_cons_of_pos (by decide)]

theorem plainText_digits {ds : Bytes} (hds : ∀ b ∈ ds, isDigit b) : plainText ds := by
  unfold plainText
  rw [List.all_eq_true]
  exact fun b hb => hds b ((List.dropWhile_sublist _).mem hb)

theorem plainText_byte {ds : Bytes} (hds : ∀ b ∈ ds, isDigit b) {c : UInt8} (hc : ¬isDigit c) (hmark : c = 84 → ds ≠ [])
    (cp : Bytes) : ¬plainText (ds ++ c :: cp) := by
  obtain ⟨b, bs, hb, hne⟩ := byte_head hds hmark cp
  unfold plainText
  rw [hb, List.dropWhile_cons_of_neg (by simpa using hne), ← hb, List.all_eq_true]
  exact fun h => hc (h c (by simp))

theorem icalDurationLoop_extends (fuel : Nat) : ∀ v front cp d, ∃ v' front' cp' d' t,
    icalDurationLoop C fuel v front cp d = (some (v', front', cp'), d') ∧ front' ++ cp' = front ++ t := by
  induction fuel with
  | zero =>
    intro v front cp d
    exact ⟨v, front, cp, d, cp, rfl, rfl⟩
  | succ fuel ih =>
    intro v front cp d
    rcases scan_cases cp with rfl | ⟨cp, rfl⟩ | hds | ⟨ds, c, cp, hds, hc, hmark, rfl⟩
    · exact ⟨v, front, [], d, [], rfl, rfl⟩
    · rw [scan_mark]
      split
      · exact ⟨v, front, _, d, _, rfl, rfl⟩
      · obtain ⟨v', front', cp', d', t, h, ht⟩ := ih v (front ++ [84]) cp d
        exact ⟨v', front', cp', d', [84] ++ t, h, by rw [ht, List.append_assoc]⟩
    · exact ⟨v, _, [], d, cp, scan_digits hds, List.append_nil _⟩
    · rw [scan_byte hds hc hmark]
      cases icalDurationSet v c 0 with
      | none => exact ⟨v, _, cp, d, ds ++ NUL :: cp, rfl, by simp⟩
      | some w =>
        dsimp only
        rcases icalUlong C ds 0 ULONG_MAX d with ⟨_ | n, d'⟩
        · exact ⟨_, _, cp, d', ds ++ NUL :: cp, rfl, by simp⟩
        · obtain ⟨v', front', cp', d'', t, h, ht⟩ := ih ((icalDurationSet v c n).getD v) (front ++ ds ++ [NUL]) cp d'
          exact ⟨v', front', cp', d'', ds ++ NUL :: t, h, by rw [ht]; simp⟩

/-- The buffer after the loop: as it was where the text is plain, and cut short by
a NUL inside the text where it is not. -/
theorem icalDurationLoop_buffer (fuel : Nat) : ∀ v front cp d, cp.length ≤ fuel →
    ∃ v' front' cp' d', icalDurationLoop C fuel v front cp d = (some (v', front', cp'), d') ∧
      (plainText cp → front' ++ cp' = front ++ cp) ∧
      (¬plainText cp → ∃ a c b t, cp = a ++ c :: b ∧ front' ++ cp' = front ++ (a ++ NUL :: t)) := by
  induction fuel with
  | zero =>
    intro v front cp d hf
    obtain rfl := List.length_eq_zero_iff.mp (Nat.le_zero.mp hf)
    exact ⟨v, front, [], d, rfl, fun _ => rfl, fun h => absurd rfl h⟩
  | succ fuel ih =>
    intro v front cp d hf
    rcases scan_cases cp with rfl | ⟨cp, rfl⟩ | hds | ⟨ds, c, cp, hds, hc, hmark, rfl⟩
    · exact ⟨v, front, [], d, rfl, fun _ => rfl, fun h => absurd rfl h⟩
    · rw [scan_mark, plainText_mark]
      split
      next hnil =>
        subst hnil
        exact ⟨v, front, _, d, rfl, fun _ => rfl, fun h => absurd rfl h⟩
      next =>
        obtain ⟨v', front', cp', d', h, hplain, hcut⟩ := ih v (front ++ [84]) cp d (Nat.le_of_succ_le_succ hf)
        refine ⟨v', front', cp', d', h, fun hp => by rw [hplain hp]; simp, fun hp => ?_⟩
        obtain ⟨a, e, b, t, rfl, ht⟩ := hcut hp
        exact ⟨84 :: a, e, b, t, rfl, by rw [ht]; simp⟩
    · exact ⟨v, _, [], d, scan_digits hds, fun _ => List.append_nil _, fun h => absurd (plainText_digits hds.2) h⟩
    · -- the byte after the digits is overwritten, and nothing before it
      obtain ⟨v', front', cp', d', t, h, ht⟩ : ∃ v' front' cp' d' t,
          icalDurationLoop C (fuel + 1) v front (ds ++ c :: cp) d = (some (v', front', cp'), d') ∧
            front' ++ cp' = front ++ (ds ++ NUL :: t) := by
        rw [scan_byte hds hc hmark]
        cases icalDurationSet v c 0 with
        | none => exact ⟨v, _, cp, d, cp, rfl, by simp⟩
        | some w =>
          dsimp only
          rcases icalUlong C ds 0 ULONG_MAX d with ⟨_ | n, d'⟩
          · exact ⟨_, _, cp, d', cp, rfl, by simp⟩
          · obtain ⟨v', front', cp', d'', t, h, ht⟩ := icalDurationLoop_extends (C := C) fuel
              ((icalDurationSet v c n).getD v) (front ++ ds ++ [NUL]) cp d'
            exact ⟨v', front', cp', d'', t, h, by rw [ht]; simp⟩
      exact ⟨v', front', cp', d', h, fun hp => absurd hp (plainText_byte hds hc hmark cp),
        fun _ => ⟨ds, c, cp, t, rfl, ht⟩⟩

theorem icalDurationSign_append (cp : Bytes) : (icalDurationSign cp).2.1 ++ (icalDurationSign cp).2.2 = 80 :: cp := by
  unfold icalDurationSign
  split <;> rfl

/-- The C string an accepted duration leaves: a prefix of it, and all of it exactly
where the duration is plain. -/
theorem icalDuration_buffer {val buf : Bytes} {v : IcalDur} {d d' : Diag} (hn : NUL ∉ val)
    (h : icalDuration C val d = (some (v, buf), d')) :
    cstr buf <+: val ∧ (cstr buf = val ↔ plainDuration val) := by
  unfold icalDuration at h
  split at h
  next cp =>
    rcases hs : icalDurationSign cp with ⟨sign, front, text⟩
    have happ : front ++ text = 80 :: cp := by
      have := icalDurationSign_append cp
      rwa [hs] at this
    have htext : durationText (80 :: cp) = text := by rw [durationText, hs]
    rw [plainDuration, htext, ← happ]
    rw [← happ] at hn
    simp only [hs] at h
    split at h
    · cases h
    obtain ⟨w, front', cp', e, hloop, hplain, hcut⟩ := icalDurationLoop_buffer (C := C) text.length
      { IcalDur.zero with sign := sign } front text d le_rfl
    rw [Fallible.bind_of_some hloop] at h
    dsimp only at h
    split at h
    · cases h
      by_cases hp : plainText text
      · rw [hplain hp, cstr_eq_self hn]
        exact ⟨List.prefix_rfl, iff_of_true rfl hp⟩
      · obtain ⟨a, c, b, t, rfl, ht⟩ := hcut hp
        rw [← List.append_assoc] at hn ⊢
        have hfa : NUL ∉ front ++ a := fun hm => hn (List.mem_append_left _ hm)
        rw [ht, ← List.append_assoc, cstr_append_nul hfa]
        refine ⟨List.prefix_append _ _, iff_of_false (fun heq => ?_) hp⟩
        have hlen := congrArg List.length heq
        simp at hlen
    · cases h
  · cases h

end Kcaldav
