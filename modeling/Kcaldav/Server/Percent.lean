import Kcaldav.Server.Href

/-! # Percent-encoding

The decoding that both decoders stand for, with hexadecimal digits, and where the two
differ from it. Each of them asks for a pair of alphanumeric characters only.
-/
namespace Kcaldav
open CString

abbrev PERCENT : UInt8 := 37

/-! ## Specification -/

def isHex (b : UInt8) : Bool := isDigit b || (65 ≤ b && b ≤ 70) || (97 ≤ b && b ≤ 102)

/-- The value of a hexadecimal digit, of either case. -/
def hexValue (b : UInt8) : Nat := if isDigit b then b.toNat - 48 else if isUpper b then b.toNat - 55 else b.toNat - 87

def hexByte (a b : UInt8) : UInt8 := UInt8.ofNat (16 * hexValue a + hexValue b)

/-- A string begins with a pair of such characters. -/
def Pair (p : UInt8 → Bool) (s : Bytes) : Prop := ∃ a b t, s = a :: b :: t ∧ p a ∧ p b

/-- A string begins with a pair that stands for NUL. -/
def NulPair (s : Bytes) : Prop := ∃ a b t, s = a :: b :: t ∧ hexByte a b = NUL

/-- Every escape is replaced by its byte and every plus by a space. A `%` that is not part
of an escape stands for itself. -/
def percentDecode : Bytes → Bytes
  | [] => []
  | c :: cs =>
    if c = 43 then SP :: percentDecode cs
    else if c ≠ PERCENT then c :: percentDecode cs
    else
      match cs with
      | a :: b :: ds =>
        if isHex a && isHex b then hexByte a b :: percentDecode ds
        else c :: percentDecode (a :: b :: ds)
      | ds => c :: percentDecode ds

/-- What holds after every `%` of a string. -/
def AtPercents (P : Bytes → Prop) (s : Bytes) : Prop := ∀ pre rest, s = pre ++ PERCENT :: rest → P rest

/-- Both decoders treat the string as specified. -/
structure Decoded (s : Bytes) : Prop where
  escaped : AtPercents (fun rest => Pair isHex rest ∧ ¬NulPair rest) s →
    (hrefDecode s).map cstr = some (percentDecode s) ∧ cstr (httpDecode s) = percentDecode s
  rejected : ¬AtPercents (Pair isHex) s → hrefDecode s = none
  kept : ∀ pre rest, s = pre ++ PERCENT :: rest → ¬Pair isHex rest →
    httpDecode s = httpDecode pre ++ PERCENT :: httpDecode rest

/-! ## Digits -/

/-- What holds of all 256 values holds of a byte. -/
theorem forall_byte {P : UInt8 → Prop} (h : ∀ i : Fin 256, P (UInt8.ofNat i)) (b : UInt8) : P b := by
  rw [← UInt8.ofNat_toNat (x := b)]
  exact h ⟨b.toNat, b.toNat_lt⟩

theorem isAlnum_of_isHex {b : UInt8} : isHex b → isAlnum b :=
  forall_byte (P := fun b => isHex b → isAlnum b) (by decide +kernel) b

theorem hexValue_lt {b : UInt8} : isHex b → hexValue b < 16 :=
  forall_byte (P := fun b => isHex b → hexValue b < 16) (by decide +kernel) b

theorem parsehex_eq {b : UInt8} : isHex b → parsehex b = UInt8.ofNat (hexValue b) :=
  forall_byte (P := fun b => isHex b → parsehex b = UInt8.ofNat (hexValue b)) (by decide +kernel) b

/-- The helper computes the byte of a pair of digits. -/
theorem parsehex_pair {a b : UInt8} (ha : isHex a) (hb : isHex b) : parsehex a <<< 4 ||| parsehex b = hexByte a b := by
  have hall : ∀ x < 16, ∀ y < 16, UInt8.ofNat x <<< 4 ||| UInt8.ofNat y = UInt8.ofNat (16 * x + y) := by decide
  rw [parsehex_eq ha, parsehex_eq hb]
  exact hall _ (hexValue_lt ha) _ (hexValue_lt hb)

theorem Pair.alnum {s : Bytes} (h : Pair isHex s) : Pair isAlnum s := by
  obtain ⟨a, b, t, rfl, ha, hb⟩ := h
  exact ⟨a, b, t, rfl, isAlnum_of_isHex ha, isAlnum_of_isHex hb⟩

theorem pair_cons_iff {p : UInt8 → Bool} {a b : UInt8} {t : Bytes} : Pair p (a :: b :: t) ↔ (p a && p b) = true := by
  rw [Bool.and_eq_true]
  constructor
  · rintro ⟨a', b', t', heq, ha, hb⟩
    cases heq
    exact ⟨ha, hb⟩
  · rintro ⟨ha, hb⟩
    exact ⟨a, b, t, rfl, ha, hb⟩

theorem AtPercents.tail {P : Bytes → Prop} {c : UInt8} {s : Bytes} (h : AtPercents P (c :: s)) : AtPercents P s := by
  intro pre rest heq
  apply h (c :: pre) rest
  rw [heq]
  rfl

theorem AtPercents.head {P : Bytes → Prop} {s : Bytes} (h : AtPercents P (PERCENT :: s)) : P s := h [] s rfl

theorem atPercents_nil (P : Bytes → Prop) : AtPercents P [] := by
  intro pre rest heq
  simp at heq

theorem atPercents_cons {P : Bytes → Prop} {c : UInt8} {s : Bytes} :
    AtPercents P (c :: s) ↔ (c = PERCENT → P s) ∧ AtPercents P s := by
  constructor
  · intro h
    refine ⟨?_, h.tail⟩
    rintro rfl
    exact h.head
  · rintro ⟨hc, hs⟩ pre rest heq
    cases pre with
    | nil =>
      cases heq
      exact hc rfl
    | cons d pre =>
      cases heq
      exact hs pre rest rfl

/-! ## The decoders -/

theorem percentDecode_cons {c : UInt8} (h : c ≠ PERCENT) (s : Bytes) : percentDecode (c :: s) = unplus c :: percentDecode s := by
  conv_lhs => unfold percentDecode
  by_cases hc : c = 43
  · rw [if_pos hc, unplus, if_pos hc]
  · rw [if_neg hc, if_pos h, unplus, if_neg hc]

theorem percentDecode_pair {a b : UInt8} (h : isHex a && isHex b) (s : Bytes) :
    percentDecode (PERCENT :: a :: b :: s) = hexByte a b :: percentDecode s := by
  rw [percentDecode, if_neg (by decide), if_neg (by decide), if_pos h]

theorem percentDecode_percent {s : Bytes} (h : ¬Pair isHex s) : percentDecode (PERCENT :: s) = PERCENT :: percentDecode s := by
  conv_lhs => unfold percentDecode
  rw [if_neg (by decide), if_neg (by decide)]
  split
  next a b ds =>
    rw [pair_cons_iff] at h
    rw [if_neg h]
  · rfl

theorem httpDecode_cons {c : UInt8} (h : c ≠ PERCENT) (s : Bytes) : httpDecode (c :: s) = unplus c :: httpDecode s := by
  conv_lhs => unfold httpDecode
  by_cases hc : c = 43
  · rw [if_pos hc, unplus, if_pos hc]
  · rw [if_neg hc, if_pos h, unplus, if_neg hc]

theorem httpDecode_pair {a b : UInt8} (h : isAlnum a && isAlnum b) (s : Bytes) :
    httpDecode (PERCENT :: a :: b :: s) = (parsehex a <<< 4 ||| parsehex b) :: httpDecode s := by
  rw [httpDecode, if_neg (by decide), if_neg (by decide), if_pos h]

theorem httpDecode_percent {s : Bytes} (h : ¬Pair isAlnum s) : httpDecode (PERCENT :: s) = PERCENT :: httpDecode s := by
  conv_lhs => unfold httpDecode
  rw [if_neg (by decide), if_neg (by decide)]
  split
  next a b ds =>
    rw [pair_cons_iff] at h
    rw [if_neg h]
  · rfl

theorem hrefDecode_pair {a b : UInt8} (h : isAlnum a && isAlnum b) (s : Bytes) :
    hrefDecode (PERCENT :: a :: b :: s) = (hrefDecode s).map ((parsehex a <<< 4 ||| parsehex b) :: ·) := by
  rw [hrefDecode, if_neg (by decide), if_neg (by decide), if_pos h]

theorem hrefDecode_percent {s : Bytes} (h : ¬Pair isAlnum s) : hrefDecode (PERCENT :: s) = none := by
  conv_lhs => unfold hrefDecode
  rw [if_neg (by decide), if_neg (by decide)]
  split
  next a b ds =>
    rw [pair_cons_iff] at h
    rw [if_neg h]
  · rfl

/-- A string is read from the front: a byte that is not a `%`, a `%` with a pair of such
characters, or a `%` without one. -/
theorem percentInduction (p : UInt8 → Bool) {P : Bytes → Prop} (nil : P [])
    (plain : ∀ c s, c ≠ PERCENT → P s → P (c :: s)) (pair : ∀ a b s, p a && p b → P s → P (PERCENT :: a :: b :: s))
    (percent : ∀ s, ¬Pair p s → P s → P (PERCENT :: s)) (s : Bytes) : P s := by
  induction hlen : s.length using Nat.strong_induction_on generalizing s with
  | _ n ih =>
    subst hlen
    cases s with
    | nil => exact nil
    | cons c s =>
      by_cases hc : c = PERCENT
      · subst hc
        by_cases hpair : Pair p s
        · obtain ⟨a, b, t, rfl, ha, hb⟩ := hpair
          apply pair a b t (Bool.and_eq_true_iff.mpr ⟨ha, hb⟩)
          apply ih t.length _ t rfl
          simp only [List.length_cons]
          omega
        · exact percent s hpair (ih s.length (Nat.lt_succ_self _) s rfl)
      · exact plain c s hc (ih s.length (Nat.lt_succ_self _) s rfl)

theorem unplus_of_isAlnum {c : UInt8} (h : isAlnum c) : c ≠ PERCENT ∧ unplus c = c := by
  constructor
  · rintro rfl
    exact absurd h (by decide)
  · apply if_neg
    rintro rfl
    exact absurd h (by decide)

/-- The characters of an escape are no `%`. -/
theorem atPercents_pair {P : Bytes → Prop} {a b : UInt8} {s : Bytes} (hab : isAlnum a && isAlnum b)
    (h : P (a :: b :: s) ∧ AtPercents P s) : AtPercents P (PERCENT :: a :: b :: s) := by
  obtain ⟨ha, hb⟩ := Bool.and_eq_true_iff.mp hab
  obtain ⟨hpair, hs⟩ := h
  rw [atPercents_cons, atPercents_cons, atPercents_cons]
  exact ⟨fun _ => hpair, fun heq => absurd heq (unplus_of_isAlnum ha).1, fun heq => absurd heq (unplus_of_isAlnum hb).1, hs⟩

theorem not_pair_append {s : Bytes} (h : ¬Pair isAlnum s) (rest : Bytes) : ¬Pair isAlnum (s ++ PERCENT :: rest) := by
  rintro ⟨a, b, t, heq, ha, hb⟩
  match s with
  | [] =>
    cases heq
    exact absurd ha (by decide)
  | [x] =>
    cases heq
    exact absurd hb (by decide)
  | x :: y :: s =>
    cases heq
    exact h ⟨a, b, s, rfl, ha, hb⟩

/-- A `%` is never part of an escape before it. -/
theorem httpDecode_append (pre rest : Bytes) : httpDecode (pre ++ PERCENT :: rest) = httpDecode pre ++ httpDecode (PERCENT :: rest) := by
  induction pre using percentInduction isAlnum with
  | nil => rfl
  | plain c s hc ih => rw [List.cons_append, httpDecode_cons hc, httpDecode_cons hc, ih, List.cons_append]
  | pair a b s hab ih =>
    rw [List.cons_append, List.cons_append, List.cons_append, httpDecode_pair hab, httpDecode_pair hab, ih, List.cons_append]
  | percent s hs ih =>
    rw [List.cons_append, httpDecode_percent (not_pair_append hs rest), httpDecode_percent hs, ih, List.cons_append]

/-- The alphanumeric characters after every `%` are hexadecimal digits if they are a pair. -/
def HexOnly (s : Bytes) : Prop := AtPercents (fun rest => Pair isAlnum rest → Pair isHex rest) s

theorem HexOnly.pair {a b : UInt8} {s : Bytes} (h : HexOnly (PERCENT :: a :: b :: s)) (hab : isAlnum a && isAlnum b) :
    (isHex a && isHex b) ∧ HexOnly s :=
  ⟨pair_cons_iff.mp (h.head (pair_cons_iff.mpr hab)), h.tail.tail.tail⟩

theorem httpDecode_eq {s : Bytes} (h : HexOnly s) : httpDecode s = percentDecode s := by
  induction s using percentInduction isAlnum with
  | nil => rfl
  | plain c s hc ih => rw [httpDecode_cons hc, percentDecode_cons hc, ih h.tail]
  | pair a b s hab ih =>
    obtain ⟨hhex, htail⟩ := h.pair hab
    obtain ⟨ha, hb⟩ := Bool.and_eq_true_iff.mp hhex
    rw [httpDecode_pair hab, percentDecode_pair hhex, parsehex_pair ha hb, ih htail]
  | percent s hs ih => rw [httpDecode_percent hs, percentDecode_percent fun hp => hs hp.alnum, ih h.tail]

theorem hrefDecode_eq_some {s : Bytes} (h : AtPercents (Pair isHex) s) : hrefDecode s = some (percentDecode s) := by
  induction s using percentInduction isHex with
  | nil => rfl
  | plain c s hc ih => rw [hrefDecode_cons hc, percentDecode_cons hc, ih h.tail, Option.map_some]
  | pair a b s hab ih =>
    obtain ⟨ha, hb⟩ := Bool.and_eq_true_iff.mp hab
    rw [hrefDecode_pair (by rw [isAlnum_of_isHex ha, isAlnum_of_isHex hb]; rfl), percentDecode_pair hab, parsehex_pair ha hb,
      ih h.tail.tail.tail, Option.map_some]
  | percent s hs ih => exact absurd h.head hs

theorem hrefDecode_eq_none {s : Bytes} (h : HexOnly s) (hbad : ¬AtPercents (Pair isHex) s) : hrefDecode s = none := by
  induction s using percentInduction isAlnum with
  | nil => exact absurd (atPercents_nil _) hbad
  | plain c s hc ih =>
    have htail : ¬AtPercents (Pair isHex) s := fun hs => hbad (atPercents_cons.mpr ⟨fun heq => absurd heq hc, hs⟩)
    rw [hrefDecode_cons hc, ih h.tail htail, Option.map_none]
  | pair a b s hab ih =>
    obtain ⟨hhex, htail⟩ := h.pair hab
    have hs : ¬AtPercents (Pair isHex) s := fun hs => hbad (atPercents_pair hab ⟨pair_cons_iff.mpr hhex, hs⟩)
    rw [hrefDecode_pair hab, ih htail hs, Option.map_none]
  | percent s hs ih => exact hrefDecode_percent hs

theorem nul_notMem_percentDecode {s : Bytes} (h : AtPercents (fun rest => Pair isHex rest → ¬NulPair rest) s) (hnul : NUL ∉ s) :
    NUL ∉ percentDecode s := by
  induction s using percentInduction isHex with
  | nil => exact hnul
  | plain c s hc ih =>
    rw [List.mem_cons, not_or] at hnul
    rw [percentDecode_cons hc, List.mem_cons, not_or]
    refine ⟨?_, ih h.tail hnul.2⟩
    unfold unplus
    split
    · decide
    · exact hnul.1
  | pair a b s hab ih =>
    simp only [List.mem_cons, not_or] at hnul
    rw [percentDecode_pair hab, List.mem_cons, not_or]
    exact ⟨fun heq => h.head (pair_cons_iff.mpr hab) ⟨a, b, s, rfl, heq.symm⟩, ih h.tail.tail.tail hnul.2.2.2⟩
  | percent s hs ih =>
    rw [List.mem_cons, not_or] at hnul
    rw [percentDecode_percent hs, List.mem_cons, not_or]
    exact ⟨by decide, ih h.tail hnul.2⟩

theorem AtPercents.imp {P Q : Bytes → Prop} {s : Bytes} (h : AtPercents P s) (hpq : ∀ rest, P rest → Q rest) :
    AtPercents Q s := fun pre rest heq => hpq rest (h pre rest heq)

/-- A pair that is no pair of digits is decoded all the same. -/
theorem Decoded.hexOnly {s : Bytes} (h : Decoded s) : HexOnly s := by
  rintro pre rest rfl ⟨a, b, t, rfl, ha, hb⟩
  by_contra hhex
  have hkept := h.kept pre _ rfl hhex
  rw [httpDecode_append, httpDecode_pair (by rw [ha, hb]; rfl), httpDecode_cons (unplus_of_isAlnum ha).1,
    httpDecode_cons (unplus_of_isAlnum hb).1] at hkept
  have hlen := congrArg List.length hkept
  simp only [List.length_append, List.length_cons] at hlen
  omega

/-- Both decoders are as specified exactly where no escape has other alphanumeric characters. -/
theorem decoded_iff (s : Bytes) (h : NUL ∉ s) : Decoded s ↔ HexOnly s := by
  refine ⟨fun hd => hd.hexOnly, fun hs => ⟨fun hesc => ?_, hrefDecode_eq_none hs, fun pre rest heq hp => ?_⟩⟩
  · have hnul := nul_notMem_percentDecode (hesc.imp fun _ hr _ => hr.2) h
    rw [hrefDecode_eq_some (hesc.imp fun _ hr => hr.1), httpDecode_eq hs, Option.map_some, cstr_eq_self hnul]
    exact ⟨rfl, rfl⟩
  · subst heq
    rw [httpDecode_append, httpDecode_percent fun ha => hp (hs pre rest rfl ha)]

theorem decoded_escape : Decoded (ascii "a%2fb+c") := by
  refine (decoded_iff (ascii "a%2fb+c") (by decide)).mpr ?_
  unfold HexOnly
  have htext : ascii "a%2fb+c" = [97, PERCENT, 50, 102, 98, 43, 99] := by decide
  rw [htext]
  simp only [atPercents_cons, pair_cons_iff]
  refine ⟨by decide, fun _ _ => by decide, ?_⟩
  simp [atPercents_nil, PERCENT]

/-- A pair of letters that are no digits stands for a byte in both. -/
theorem not_decoded : hrefDecode (ascii "%zz") = some (ascii "3") ∧ httpDecode (ascii "%zz") = ascii "3" ∧
    ¬Decoded (ascii "%zz") := by
  have hhref : hrefDecode (ascii "%zz") = some (ascii "3") := by decide
  refine ⟨hhref, by decide, fun h => ?_⟩
  have hnone := h.rejected fun hp => by
    obtain ⟨a, b, t, heq, ha, -⟩ := hp [] (ascii "zz") (by decide)
    have ha' : a = 122 := (List.cons.inj heq).1.symm
    rw [ha'] at ha
    exact absurd ha (by decide)
  rw [hhref] at hnone
  cases hnone

/-! ## Resources of a path -/

/-- The string begins with an escape that is decoded to NUL. -/
def BlotsOut (s : Bytes) : Prop :=
  ∃ a b t, s = PERCENT :: a :: b :: t ∧ (isAlnum a && isAlnum b) ∧ parsehex a <<< 4 ||| parsehex b = NUL

theorem cstr_cons_eq_nil {b : UInt8} {s : Bytes} : cstr (b :: s) = [] ↔ b = NUL := by
  simp [cstr]

/-- A name is decoded to nothing only by a NUL in front. -/
theorem cstr_httpDecode_eq_nil {s : Bytes} (hne : s ≠ []) (hnul : NUL ∉ s) : cstr (httpDecode s) = [] ↔ BlotsOut s := by
  cases s using percentInduction isAlnum with
  | nil => exact absurd rfl hne
  | plain c s hc ih =>
    rw [httpDecode_cons hc, cstr_cons_eq_nil]
    refine iff_of_false ?_ ?_
    · unfold unplus
      split
      · decide
      · rintro rfl
        exact hnul List.mem_cons_self
    · rintro ⟨a, b, t, heq, -⟩
      exact hc (List.cons.inj heq).1
  | pair a b s hab ih =>
    rw [httpDecode_pair hab, cstr_cons_eq_nil]
    constructor
    · exact fun h => ⟨a, b, s, rfl, hab, h⟩
    · rintro ⟨a', b', t, heq, -, h⟩
      cases heq
      exact h
  | percent s hs ih =>
    rw [httpDecode_percent hs, cstr_cons_eq_nil]
    refine iff_of_false (by decide) ?_
    rintro ⟨a, b, t, heq, hab, -⟩
    cases heq
    exact hs (pair_cons_iff.mpr hab)

/-- What the decoding of a name has to leave as it is: other pairs and NULs. -/
def Faithful (s : Bytes) : Prop := AtPercents (fun rest => Pair isAlnum rest → Pair isHex rest ∧ ¬NulPair rest) s

theorem Faithful.hexOnly {s : Bytes} (h : Faithful s) : HexOnly s := h.imp fun _ hr hp => (hr hp).1

/-- The pair of an escape with other characters, decoded as specified. -/
theorem percentDecode_other {a b : UInt8} (ha : isAlnum a) (hb : isAlnum b) (h : ¬(isHex a && isHex b)) (s : Bytes) :
    percentDecode (PERCENT :: a :: b :: s) = PERCENT :: a :: b :: percentDecode s := by
  obtain ⟨ha', hua⟩ := unplus_of_isAlnum ha
  obtain ⟨hb', hub⟩ := unplus_of_isAlnum hb
  rw [percentDecode_percent (by rwa [pair_cons_iff]), percentDecode_cons ha', percentDecode_cons hb', hua, hub]

theorem length_httpDecode_le (s : Bytes) : (httpDecode s).length ≤ (percentDecode s).length := by
  induction s using percentInduction isAlnum with
  | nil => exact le_rfl
  | plain c s hc ih =>
    rw [httpDecode_cons hc, percentDecode_cons hc, List.length_cons, List.length_cons]
    omega
  | pair a b s hab ih =>
    obtain ⟨ha, hb⟩ := Bool.and_eq_true_iff.mp hab
    rw [httpDecode_pair hab]
    by_cases hhex : isHex a && isHex b
    · rw [percentDecode_pair hhex, List.length_cons, List.length_cons]
      omega
    · rw [percentDecode_other ha hb hhex]
      simp only [List.length_cons]
      omega
  | percent s hs ih =>
    rw [httpDecode_percent hs, percentDecode_percent fun hp => hs hp.alnum, List.length_cons, List.length_cons]
    omega

/-- What comes out as specified has hexadecimal digits only. -/
theorem hexOnly_of_httpDecode {s : Bytes} (h : httpDecode s = percentDecode s) : HexOnly s := by
  induction s using percentInduction isAlnum with
  | nil => exact atPercents_nil _
  | plain c s hc ih =>
    rw [httpDecode_cons hc, percentDecode_cons hc] at h
    exact atPercents_cons.mpr ⟨fun heq => absurd heq hc, ih (List.cons.inj h).2⟩
  | pair a b s hab ih =>
    obtain ⟨ha, hb⟩ := Bool.and_eq_true_iff.mp hab
    by_cases hhex : isHex a && isHex b
    · rw [httpDecode_pair hab, percentDecode_pair hhex] at h
      exact atPercents_pair hab ⟨fun _ => pair_cons_iff.mpr hhex, ih (List.cons.inj h).2⟩
    · have hle := length_httpDecode_le s
      rw [httpDecode_pair hab, percentDecode_other ha hb hhex] at h
      have hlen := congrArg List.length h
      simp only [List.length_cons] at hlen
      omega
  | percent s hs ih =>
    rw [httpDecode_percent hs, percentDecode_percent fun hp => hs hp.alnum] at h
    exact atPercents_cons.mpr ⟨fun _ hp => absurd hp hs, ih (List.cons.inj h).2⟩

/-- The C string is the decoding exactly where nothing is decoded otherwise or cut off. -/
theorem cstr_httpDecode_iff {s : Bytes} (hnul : NUL ∉ s) : cstr (httpDecode s) = percentDecode s ↔ Faithful s := by
  constructor
  · intro h
    have hpre : cstr (httpDecode s) <+: httpDecode s := List.takeWhile_prefix _
    have hself : cstr (httpDecode s) = httpDecode s :=
      hpre.eq_of_length_le (by
        rw [h]
        exact length_httpDecode_le s)
    have hs : HexOnly s := hexOnly_of_httpDecode (hself.symm.trans h)
    rintro pre rest rfl hp
    have hhex := hs pre rest rfl hp
    refine ⟨hhex, ?_⟩
    rintro ⟨a, b, t, rfl, hzero⟩
    have hab := pair_cons_iff.mp hhex
    obtain ⟨ha, hb⟩ := Bool.and_eq_true_iff.mp hab
    apply nul_notMem_cstr (httpDecode (pre ++ PERCENT :: a :: b :: t))
    rw [hself, httpDecode_append, httpDecode_pair (pair_cons_iff.mp hp), parsehex_pair ha hb, hzero]
    simp
  · intro h
    have hnot : AtPercents (fun rest => Pair isHex rest → ¬NulPair rest) s := h.imp fun _ hr hp => (hr hp.alnum).2
    rw [httpDecode_eq h.hexOnly, cstr_eq_self (nul_notMem_percentDecode hnot hnul)]

/-- A segment below a collection names the resource of that name. -/
def NamesResource (p c s : Bytes) : Prop :=
  ∃ r, httpPaths (SLASH :: (p ++ SLASH :: (c ++ SLASH :: s))) = some (p, c, r) ∧ r ≠ [] ∧ r = percentDecode s

theorem percentDecode_ne_nil {s : Bytes} (h : s ≠ []) : percentDecode s ≠ [] := by
  cases s using percentInduction isHex with
  | nil => exact absurd rfl h
  | plain b s hb ih => simp [percentDecode_cons hb]
  | pair a b s hab ih => simp [percentDecode_pair hab]
  | percent s hs ih => simp [percentDecode_percent hs]

theorem httpPaths_eq_none (path : Bytes) : httpPaths path = none ↔ path.head? ≠ some SLASH := by
  cases path with
  | nil => simp [httpPaths]
  | cons b path =>
    rw [httpPaths, List.head?_cons]
    by_cases hb : b = SLASH
    · rw [if_neg (not_not.mpr hb)]
      refine iff_of_false ?_ (by simp [hb])
      split
      · simp
      · split <;> simp
    · rw [if_pos hb]
      exact iff_of_true rfl fun h => hb (Option.some.inj h)

/-- A segment below a collection names the resource of that name exactly where its decoding
is faithful, and stands for the collection where it begins with a NUL. Only a path without a
leading slash is not split. -/
theorem httpPaths_resource_iff (p c s : Bytes) (hp : SLASH ∉ p) (hs : SLASH ∉ s) (hne : s ≠ []) (hnul : NUL ∉ s) :
    (NamesResource p c s ↔ Faithful s) ∧
    (httpPaths (SLASH :: (p ++ SLASH :: (c ++ SLASH :: s))) = some (p, c, []) ↔ BlotsOut s) ∧
    ∀ path, httpPaths path = none ↔ path.head? ≠ some SLASH := by
  unfold NamesResource
  rw [httpPaths_join hp c hs, ← cstr_httpDecode_iff hnul, ← cstr_httpDecode_eq_nil hne hnul]
  refine ⟨⟨?_, fun h => ⟨_, rfl, ?_, h⟩⟩, by simp, httpPaths_eq_none⟩
  · rintro ⟨r, hr, -, hdecode⟩
    cases hr
    exact hdecode
  · rw [h]
    exact percentDecode_ne_nil hne

theorem httpPaths_resource_escape : NamesResource (ascii "joe") (ascii "calendar") (ascii "a%20b.ics") := by
  have hp : SLASH ∉ ascii "joe" := by decide
  have hs : SLASH ∉ ascii "a%20b.ics" := by decide
  have hne : ascii "a%20b.ics" ≠ [] := by decide
  have hnul : NUL ∉ ascii "a%20b.ics" := by decide
  have hfaithful : Faithful (ascii "a%20b.ics") := by
    have htext : ascii "a%20b.ics" = [97, PERCENT, 50, 48, 98, 46, 105, 99, 115] := by decide
    have hpair : ¬NulPair [50, 48, 98, 46, 105, 99, 115] := by
      rintro ⟨a, b, t, heq, hzero⟩
      cases heq
      exact absurd hzero (by decide)
    unfold Faithful
    rw [htext]
    simp only [atPercents_cons, pair_cons_iff]
    refine ⟨fun h => absurd h (by decide), fun _ _ => ⟨by decide, hpair⟩, ?_⟩
    simp [atPercents_nil, PERCENT]
  exact (httpPaths_resource_iff (ascii "joe") (ascii "calendar") (ascii "a%20b.ics") hp hs hne hnul).1.mpr hfaithful

/-- What is named by a NUL is taken for the collection. -/
theorem not_namesResource : httpPaths (ascii "/joe/calendar/%00") = some (ascii "joe", ascii "calendar", []) ∧
    httpPaths (ascii "/joe/calendar/%00") = httpPaths (ascii "/joe/calendar/") ∧
    ¬NamesResource (ascii "joe") (ascii "calendar") (ascii "%00") := by
  have hpath : httpPaths (ascii "/joe/calendar/%00") = some (ascii "joe", ascii "calendar", []) := by
    decide +kernel
  have htext : ascii "/joe/calendar/%00" = SLASH :: (ascii "joe" ++ SLASH :: (ascii "calendar" ++ SLASH :: ascii "%00")) := by
    decide
  have hcoln : httpPaths (ascii "/joe/calendar/") = some (ascii "joe", ascii "calendar", []) := by
    decide +kernel
  refine ⟨hpath, hpath.trans hcoln.symm, ?_⟩
  rintro ⟨r, hr, hne, -⟩
  rw [← htext, hpath, Option.some.injEq, Prod.mk.injEq, Prod.mk.injEq] at hr
  exact hne hr.2.2.symm

end Kcaldav
