import Kcaldav.Ical.Rrule

/-! # The grammar of recurrence rules

The RECUR values of RFC 2445, section 4.3.10, which `ical_rrule_param` cites: numbers of
a bounded number of digits within the bounds of their part, week days with a signed
ordinal, parts in any order with no key twice, a frequency among them.
-/
namespace Kcaldav
open CString Fallible

/-! ## Values -/

/-- At most `w` digits, with a value within bounds. -/
structure RecurNum (w lo hi : Nat) where
  text : Bytes
  numeric : Numeric text
  short : text.length ≤ w
  lower : lo ≤ decimal text
  upper : decimal text ≤ hi

/-- A number from one on, with an optional sign. -/
structure SignedNum (w hi : Nat) where
  sign : Sign
  num : RecurNum w 1 hi

namespace SignedNum
variable {w hi : Nat}

def text (n : SignedNum w hi) : Bytes := n.sign.text ++ n.num.text

def value (n : SignedNum w hi) : Int := if n.sign = .minus then -decimal n.num.text else decimal n.num.text

end SignedNum

structure WeekdayNum where
  ord : Option (SignedNum 2 53)
  wkday : IcalWkday

namespace WeekdayNum

def text (w : WeekdayNum) : Bytes := w.ord.elim [] SignedNum.text ++ w.wkday.name

def value (w : WeekdayNum) : IcalWk := ⟨w.ord.elim 0 SignedNum.value, w.wkday⟩

end WeekdayNum

/-- The bounds of the grammar. -/
def UlongKey.least : UlongKey → Nat
  | bymonth => 1
  | byhour | byminute | bysecond => 0

def UlongKey.most : UlongKey → Nat
  | byhour => 23
  | byminute | bysecond => 59
  | bymonth => 12

def LongKey.most : LongKey → Nat
  | bymonthday => 31
  | byweekno => 53
  | bysetpos | byyearday => 366

def LongKey.width : LongKey → Nat
  | bymonthday | byweekno => 2
  | bysetpos | byyearday => 3

/-! ## Parts and rules -/

inductive RruleKey
  | freq | «until» | counts (k : CountKey) | byday | ulongs (k : UlongKey) | longs (k : LongKey) | wkst
  deriving DecidableEq, Repr

def RruleKey.text : RruleKey → Bytes
  | freq => ascii "FREQ"
  | «until» => ascii "UNTIL"
  | counts k => k.text
  | byday => ascii "BYDAY"
  | ulongs k => k.text
  | longs k => k.text
  | wkst => ascii "WKST"

/-- What a record holds under a key. -/
inductive RruleEntry
  | freq (f : Option IcalFreq) | time (t : IcalTm) | count (n : Nat) | days (ws : List IcalWk)
  | ulongs (ns : List Nat) | longs (ns : List Int) | wkday (w : Option IcalWkday)

def RruleKey.entry : RruleKey → IcalRrule → RruleEntry
  | freq, vp => .freq vp.freq
  | «until», vp => .time vp.until_
  | counts k, vp => .count (k.get vp)
  | byday, vp => .days vp.bwkd
  | ulongs k, vp => .ulongs (k.get vp)
  | longs k, vp => .longs (k.get vp)
  | wkst, vp => .wkday vp.wkst

inductive RecurPart
  | freq (f : IcalFreq)
  | «until» (t : DateText)
  | counts (k : CountKey) (text : Bytes) (numeric : Numeric text)
  | byday (w : WeekdayNum) (ws : List WeekdayNum)
  | ulongs (k : UlongKey) (n : RecurNum 2 k.least k.most) (ns : List (RecurNum 2 k.least k.most))
  | longs (k : LongKey) (n : SignedNum k.width k.most) (ns : List (SignedNum k.width k.most))
  | wkst (w : IcalWkday)

namespace RecurPart

def key : RecurPart → RruleKey
  | freq _ => .freq
  | «until» _ => .until
  | counts k _ _ => .counts k
  | byday _ _ => .byday
  | ulongs k _ _ => .ulongs k
  | longs k _ _ => .longs k
  | wkst _ => .wkst

def value : RecurPart → Bytes
  | freq f => f.name
  | «until» t => t.text
  | counts _ text _ => text
  | byday w ws => [44].intercalate ((w :: ws).map WeekdayNum.text)
  | ulongs _ n ns => [44].intercalate ((n :: ns).map RecurNum.text)
  | longs _ n ns => [44].intercalate ((n :: ns).map SignedNum.text)
  | wkst w => w.name

def text (p : RecurPart) : Bytes := p.key.text ++ 61 :: p.value

/-- The values the part lists, in their order. -/
def entry (C : Libc) : RecurPart → RruleEntry
  | freq f => .freq (some f)
  | «until» t => .time ⟨C.mktime t.tm, t.type⟩
  | counts _ text _ => .count (decimal text)
  | byday w ws => .days ((w :: ws).map WeekdayNum.value)
  | ulongs _ n ns => .ulongs ((n :: ns).map fun m => decimal m.text)
  | longs _ n ns => .longs ((n :: ns).map SignedNum.value)
  | wkst w => .wkday (some w)

/-- The part is one `ical_rrule_param` takes: no second zero, no day or week counted from
the end but in `BYSETPOS`, no number beyond the machine's. -/
def Sound (e : Bool) : RecurPart → Prop
  | counts _ text _ => decimal text ≤ ULONG_MAX ∧ ¬(decimal text = ULONG_MAX ∧ e)
  | ulongs k n ns => k = .bysecond → ∀ m ∈ n :: ns, decimal m.text ≠ 0
  | longs k n ns => k ≠ .bysetpos → ∀ m ∈ n :: ns, m.sign ≠ .minus
  | _ => True

/-- The record with the values of the part in it. -/
def set (C : Libc) (p : RecurPart) (vp : IcalRrule) : IcalRrule :=
  match p with
  | freq f => { vp with freq := some f }
  | «until» t => { vp with until_ := ⟨C.mktime t.tm, t.type⟩ }
  | counts k text _ => k.put (decimal text) vp
  | byday w ws => { vp with bwkd := vp.bwkd ++ (w :: ws).map WeekdayNum.value }
  | ulongs k n ns => k.put (k.get vp ++ (n :: ns).map fun m => decimal m.text) vp
  | longs k n ns => k.put (k.get vp ++ (n :: ns).map SignedNum.value) vp
  | wkst w => { vp with wkst := some w }

end RecurPart

/-- A RECUR value. -/
structure Recur where
  parts : List RecurPart
  distinct : (parts.map RecurPart.key).Nodup
  freq : ∃ f, RecurPart.freq f ∈ parts

def Recur.text (r : Recur) : Bytes := [59].intercalate (r.parts.map RecurPart.text)

/-- The record holds exactly the listed values, and nothing under the other keys. -/
structure Recur.Held (C : Libc) (r : Recur) (vp : IcalRrule) : Prop where
  set : vp.set = true
  entry : ∀ k : RruleKey, k.entry vp = ((r.parts.find? fun p => p.key = k).map (RecurPart.entry C)).getD (k.entry .zero)

variable {C : Libc} {α β : Type}

/-! ## The bytes of a rule -/

/-- The bytes of a single value. -/
def plainByte (b : UInt8) : Bool := isDigit b || isUpper b || b = 43 || b = 45

theorem isDigit_plain {b : UInt8} (h : isDigit b) : plainByte b := by
  rw [plainByte, h]
  rfl

theorem Sign.plain (s : Sign) : ∀ b ∈ s.text, plainByte b := by
  intro b hb
  cases s with
  | unsigned => cases hb
  | plus =>
    rw [List.mem_singleton.mp hb]
    decide
  | minus =>
    rw [List.mem_singleton.mp hb]
    decide

theorem RecurNum.plain {w lo hi : Nat} (n : RecurNum w lo hi) : ∀ b ∈ n.text, plainByte b :=
  fun b hb => isDigit_plain (n.numeric.2 b hb)

theorem SignedNum.plain {w hi : Nat} (n : SignedNum w hi) : ∀ b ∈ n.text, plainByte b := by
  intro b hb
  rcases List.mem_append.mp hb with hb | hb
  · exact Sign.plain n.sign b hb
  · exact n.num.plain b hb

theorem IcalWkday.plain (w : IcalWkday) : ∀ b ∈ w.name, plainByte b := by
  cases w <;> decide +kernel

theorem IcalFreq.plain (f : IcalFreq) : ∀ b ∈ f.name, plainByte b := by
  cases f <;> decide +kernel

theorem WeekdayNum.plain (w : WeekdayNum) : ∀ b ∈ w.text, plainByte b := by
  intro b hb
  rcases List.mem_append.mp hb with hb | hb
  · cases ho : w.ord with
    | none =>
      rw [ho] at hb
      cases hb
    | some n =>
      rw [ho] at hb
      exact n.plain b hb
  · exact w.wkday.plain b hb

theorem DateText.plain (t : DateText) : ∀ b ∈ t.text, plainByte b := by
  have fixed {w : Nat} (f : Fixed w) : ∀ b ∈ f.text, plainByte b := fun b hb => isDigit_plain (f.digits b hb)
  have day (d : DayText) : ∀ b ∈ d.text, plainByte b := by
    intro b hb
    simp only [DayText.text, List.mem_append] at hb
    rcases hb with hb | hb | hb
    · exact fixed _ b hb
    · exact fixed _ b hb
    · exact fixed _ b hb
  have clock (t : ClockText) : ∀ b ∈ t.text, plainByte b := by
    intro b hb
    simp only [ClockText.text, List.mem_append] at hb
    rcases hb with hb | hb | hb
    · exact fixed _ b hb
    · exact fixed _ b hb
    · exact fixed _ b hb
  intro b hb
  cases t with
  | date d => exact day d b hb
  | datetime d t =>
    rcases List.mem_append.mp hb with hb | hb
    · exact day d b hb
    rcases List.mem_cons.mp hb with rfl | hb
    · decide
    · exact clock t b hb
  | datetimeutc d t =>
    rcases List.mem_append.mp hb with hb | hb
    · exact day d b hb
    rcases List.mem_cons.mp hb with rfl | hb
    · decide
    rcases List.mem_append.mp hb with hb | hb
    · exact clock t b hb
    · rw [List.mem_singleton.mp hb]
      decide

theorem mem_intercalate {c b : UInt8} {ts : List Bytes} (h : b ∈ [c].intercalate ts) : b = c ∨ ∃ t ∈ ts, b ∈ t := by
  induction ts with
  | nil => cases h
  | cons t ts ih =>
    cases ts with
    | nil => exact .inr ⟨t, List.mem_cons_self, by simpa using h⟩
    | cons u us =>
      rw [List.intercalate_cons_cons, List.append_assoc] at h
      rcases List.mem_append.mp h with h | h
      · exact .inr ⟨t, List.mem_cons_self, h⟩
      rcases List.mem_cons.mp h with rfl | h
      · exact .inl rfl
      rcases ih h with h | ⟨v, hv, hb⟩
      · exact .inl h
      · exact .inr ⟨v, List.mem_cons_of_mem _ hv, hb⟩

theorem RruleKey.notMem_text (k : RruleKey) : 59 ∉ k.text ∧ 61 ∉ k.text := by
  cases k with
  | counts k => cases k <;> decide +kernel
  | ulongs k => cases k <;> decide +kernel
  | longs k => cases k <;> decide +kernel
  | freq | «until» | byday | wkst => decide +kernel

/-- No byte of a value ends the part. -/
theorem RecurPart.semi_notMem (p : RecurPart) : 59 ∉ p.text := by
  have plain {t : Bytes} (ht : ∀ b ∈ t, plainByte b) : 59 ∉ t := fun h => absurd (ht 59 h) (by decide)
  have list {γ : Type} {text : γ → Bytes} (ht : ∀ n, ∀ b ∈ text n, plainByte b) (ns : List γ) :
      59 ∉ [44].intercalate (ns.map text) := by
    intro h
    rcases mem_intercalate h with h | ⟨t, hmem, h⟩
    · cases h
    · obtain ⟨n, -, rfl⟩ := List.mem_map.mp hmem
      exact plain (ht n) h
  have hvalue : 59 ∉ p.value := by
    cases p with
    | freq f => exact plain f.plain
    | «until» t => exact plain t.plain
    | counts k text h => exact plain fun b hb => isDigit_plain (h.2 b hb)
    | byday w ws => exact list WeekdayNum.plain _
    | ulongs k n ns => exact list RecurNum.plain _
    | longs k n ns => exact list SignedNum.plain _
    | wkst w => exact plain w.plain
  intro h
  rcases List.mem_append.mp h with h | h
  · exact p.key.notMem_text.1 h
  rcases List.mem_cons.mp h with h | h
  · cases h
  · exact hvalue h

theorem RecurPart.strchr_text (p : RecurPart) : strchr 61 p.text = some (p.key.text, p.value) :=
  strchr_append p.key.notMem_text.2 _

theorem Recur.strsep_text (r : Recur) : strsep 59 r.text = r.parts.map RecurPart.text := by
  refine strsep_intercalate ?_ ?_
  · obtain ⟨f, hf⟩ := r.freq
    exact List.ne_nil_of_mem (List.mem_map_of_mem hf)
  · intro t ht
    obtain ⟨p, -, rfl⟩ := List.mem_map.mp ht
    exact p.semi_notMem

/-! ## Single values -/

theorem IcalWkday.find?_name (w : IcalWkday) : IcalWkday.all.find? (fun v => v.name = w.name) = some w := by
  cases w <;> decide +kernel

theorem icalWkday_name (w : IcalWkday) : icalWkday w.name = pure w := by
  rw [icalWkday, w.find?_name]

theorem IcalWkday.name_cons (w : IcalWkday) : ∃ x y, w.name = [x, y] ∧ isDigit x = false := by
  cases w
  all_goals exact ⟨_, _, rfl, by decide +kernel⟩

/-- The digits after the sign. -/
def wkDigits (sign : Int) : Bytes → Int × Bytes
  | a :: b :: t =>
    if isDigit a && isDigit b then (sign * (10 * (a.toNat - 48) + (b.toNat - 48) : Nat), t)
    else if isDigit a then (sign * (a.toNat - 48 : Nat), b :: t)
    else (0, a :: b :: t)
  | [a] => if isDigit a then (sign * (a.toNat - 48 : Nat), []) else (0, [a])
  | [] => (0, [])

/-- The sign, and what is after it. -/
def wkSign : Bytes → Int × Bytes
  | 45 :: t => (-1, t)
  | 43 :: t => (1, t)
  | t => (1, t)

theorem icalWkNumber_eq (cp : Bytes) : icalWkNumber cp = wkDigits (wkSign cp).1 (wkSign cp).2 := by
  have digits (s : Int) (cp : Bytes) : (match cp with
      | a :: b :: t =>
        if isDigit a && isDigit b then (s * (10 * (a.toNat - 48) + (b.toNat - 48) : Nat), t)
        else if isDigit a then (s * (a.toNat - 48 : Nat), b :: t)
        else (0, cp)
      | [a] => if isDigit a then (s * (a.toNat - 48 : Nat), []) else (0, cp)
      | [] => (0, [])) = wkDigits s cp := by
    unfold wkDigits
    split <;> rfl
  exact digits _ _

theorem wkSign_text (sign : Sign) {a : UInt8} (ha : isDigit a) (t : Bytes) :
    wkSign (sign.text ++ a :: t) = (if sign = .minus then -1 else 1, a :: t) := by
  obtain ⟨hplus, hminus⟩ := isDigit_not_sign ha
  cases sign with
  | unsigned =>
    simp only [Sign.text, List.nil_append]
    unfold wkSign
    split
    next h => exact absurd (List.cons.inj h).1 hminus
    next h => exact absurd (List.cons.inj h).1 hplus
    next => rfl
  | plus => rfl
  | minus => rfl

/-- The sign and the one or two digits in front of a week day. -/
theorem icalWkNumber_text (w : WeekdayNum) : icalWkNumber w.text = (w.value.wk, w.wkday.name) := by
  obtain ⟨ord, wkday⟩ := w
  obtain ⟨x, y, hname, hx⟩ := wkday.name_cons
  unfold WeekdayNum.text WeekdayNum.value
  dsimp only
  cases ord with
  | none =>
    cases wkday <;> decide +kernel
  | some n =>
    obtain ⟨sign, text, hnum, hshort, hlower, hupper⟩ := n
    dsimp only [Option.elim, SignedNum.text, SignedNum.value]
    rw [hname, List.append_assoc]
    match text, hnum, hshort with
    | [a], hnum, _ =>
      have ha : isDigit a := hnum.2 a List.mem_cons_self
      rw [List.singleton_append, icalWkNumber_eq, wkSign_text sign ha]
      simp only [wkDigits, ha, hx, Bool.and_false, Bool.false_eq_true, ↓reduceIte]
      cases sign <;> simp [decimal]
    | [a, b], hnum, _ =>
      have ha : isDigit a := hnum.2 a List.mem_cons_self
      have hb : isDigit b := hnum.2 b (List.mem_cons_of_mem _ List.mem_cons_self)
      rw [List.cons_append, icalWkNumber_eq, wkSign_text sign ha]
      simp only [wkDigits, ha, hb, Bool.and_self, List.singleton_append, ↓reduceIte]
      cases sign <;> simp [decimal]
    | [], hnum, _ => exact absurd rfl hnum.1

theorem icalWk_text (w : WeekdayNum) : icalWk w.text = pure w.value := by
  rw [icalWk, icalWkNumber_text]
  dsimp only
  rw [icalWkday_name]
  rfl

section
variable {d : Diag}

theorem UlongKey.icalUlong_text (k : UlongKey) (m : RecurNum 2 k.least k.most) (n : Nat) :
    (icalUlong C m.text k.min k.max d).1 = some n ↔ (k = .bysecond → decimal m.text ≠ 0) ∧ n = decimal m.text := by
  have hlower := m.lower
  have hupper := m.upper
  have hmax := k.max_lt
  rw [icalUlong_numeric m.numeric hmax.le]
  cases k with
  | bysecond =>
    simp only [UlongKey.min, UlongKey.max, UlongKey.least, UlongKey.most] at hlower hupper hmax ⊢
    constructor
    · rintro ⟨rfl, hlo, -⟩
      exact ⟨fun _ => Nat.one_le_iff_ne_zero.mp hlo, rfl⟩
    · rintro ⟨hne, rfl⟩
      exact ⟨rfl, Nat.one_le_iff_ne_zero.mpr (hne trivial), hupper, fun h => absurd h.1 (by omega)⟩
  | byhour | byminute | bymonth =>
    simp only [UlongKey.min, UlongKey.max, UlongKey.least, UlongKey.most, reduceCtorEq, false_implies, true_and] at hlower hupper hmax ⊢
    constructor
    · rintro ⟨rfl, -⟩
      rfl
    · rintro rfl
      exact ⟨rfl, hlower, hupper, fun h => absurd h.1 (by omega)⟩

theorem SignedNum.literal_text {w hi : Nat} (m : SignedNum w hi) {l : Literal} (h : l.text = m.text) : l.int = m.value := by
  have hself : l.text = Literal.text ⟨[], m.sign, m.num.text, fun _ hb => absurd hb List.not_mem_nil, m.num.numeric⟩ := h
  exact Literal.int_congr hself

theorem LongKey.icalLong_text (k : LongKey) (m : SignedNum k.width k.most) (n : Int) :
    (icalLong C m.text k.min k.max d).1 = some n ↔ (k ≠ .bysetpos → m.sign ≠ .minus) ∧ n = m.value := by
  have hlower := m.num.lower
  have hupper := m.num.upper
  have hvalue : m.value = if m.sign = .minus then -(decimal m.num.text : Int) else decimal m.num.text := rfl
  rw [icalLong_eq_some (by cases k <;> decide) (by cases k <;> decide)]
  have hiff : (∃ l : Literal, l.text = m.text ∧ l.int = n ∧ k.min ≤ n ∧ n ≤ k.max) ↔
      (k.min ≤ m.value ∧ m.value ≤ k.max) ∧ n = m.value := by
    constructor
    · rintro ⟨l, hl, rfl, hlo, hhi⟩
      rw [m.literal_text hl] at hlo hhi ⊢
      exact ⟨⟨hlo, hhi⟩, rfl⟩
    · rintro ⟨⟨hlo, hhi⟩, rfl⟩
      exact ⟨⟨[], m.sign, m.num.text, fun _ hb => absurd hb List.not_mem_nil, m.num.numeric⟩, rfl, rfl, hlo, hhi⟩
  rw [hiff]
  refine and_congr_left fun _ => ?_
  clear hiff
  generalize m.value = v, m.sign = sign, decimal m.num.text = x at hvalue hlower hupper ⊢
  subst hvalue
  cases k with
  | bysetpos =>
    simp only [LongKey.min, LongKey.max, LongKey.most, ne_eq, not_true_eq_false, false_implies, iff_true] at hupper ⊢
    split <;> omega
  | bymonthday | byweekno | byyearday =>
    simp only [LongKey.min, LongKey.max, LongKey.most, ne_eq, reduceCtorEq, not_false_eq_true, forall_const] at hupper ⊢
    split
    next hs => simp only [hs, not_true_eq_false, iff_false]; omega
    next hs => simp only [hs, not_false_eq_true, iff_true]; omega

end

/-! ## Parts -/

/-- A list whose elements are values in a grammar. -/
theorem icalList_text {γ : Type} {one : Bytes → Value α} (hone : ∀ tok, Steady (conv C) (one tok)) {text : γ → Bytes}
    {ok : γ → Prop} {value : γ → α} {d : Diag} (hsep : ∀ m, ∀ b ∈ text m, plainByte b)
    (hval : ∀ m n, (one (text m) d).1 = some n ↔ ok m ∧ n = value m) {v vs : List α} (m : γ) (ms : List γ) :
    (icalList one v (strsep 44 ([44].intercalate ((m :: ms).map text))) d).1 = some vs ↔
      (∀ n ∈ m :: ms, ok n) ∧ vs = v ++ (m :: ms).map value := by
  have each (ns : List γ) : ∀ ws, List.Forall₂ (fun tok w => (one tok d).1 = some w) (ns.map text) ws ↔
      (∀ n ∈ ns, ok n) ∧ ws = ns.map value := by
    induction ns with
    | nil => simp
    | cons n ns ih =>
      intro ws
      rw [List.map_cons, List.forall₂_cons_left_iff]
      constructor
      · rintro ⟨w, us, hw, hus, rfl⟩
        obtain ⟨hok, rfl⟩ := (hval n w).mp hw
        obtain ⟨hoks, rfl⟩ := (ih us).mp hus
        exact ⟨List.forall_mem_cons.mpr ⟨hok, hoks⟩, rfl⟩
      · rintro ⟨hok, rfl⟩
        obtain ⟨hn, hns⟩ := List.forall_mem_cons.mp hok
        exact ⟨value n, ns.map value, (hval n _).mpr ⟨hn, rfl⟩, (ih _).mpr ⟨hns, rfl⟩, rfl⟩
  rw [strsep_intercalate (by simp), icalList_eq_some hone]
  · constructor
    · rintro ⟨ws, rfl, hws⟩
      obtain ⟨hok, rfl⟩ := (each _ ws).mp hws
      exact ⟨hok, rfl⟩
    · rintro ⟨hok, rfl⟩
      exact ⟨_, rfl, (each _ _).mpr ⟨hok, rfl⟩⟩
  · intro t ht
    obtain ⟨n, -, rfl⟩ := List.mem_map.mp ht
    exact fun h => absurd (hsep n 44 h) (by decide)

theorem option_map_eq {γ : Type} {o : Option γ} {f : γ → α} {P : Prop} {a : γ} (h : ∀ c, o = some c ↔ P ∧ c = a) {b : α} :
    o.map f = some b ↔ P ∧ b = f a := by
  rw [Option.map_eq_some_iff]
  constructor
  · rintro ⟨c, hc, rfl⟩
    obtain ⟨hp, rfl⟩ := (h c).mp hc
    exact ⟨hp, rfl⟩
  · rintro ⟨hp, rfl⟩
    exact ⟨a, (h a).mpr ⟨hp, rfl⟩, rfl⟩

/-- What `ical_rrule_param` makes of a part. -/
theorem RecurPart.set_iff (p : RecurPart) {d : Diag} {vp vp' : IcalRrule} :
    RruleSet C d vp p.key.text p.value vp' ↔ p.Sound (conv C d) ∧ vp' = p.set C vp := by
  rw [← icalRruleParam_eq_some]
  have always {γ : Type} {o : Option γ} {a : γ} (h : o = some a) : ∀ c, o = some c ↔ True ∧ c = a := by
    rintro c
    rw [h]
    simp [eq_comm]
  cases p with
  | freq f => exact (icalRruleParam_freq vp _ d).symm ▸ option_map_eq (always f.find?_name)
  | «until» t =>
    have hval : (icalDatetime C t.text d).1 = some ⟨C.mktime t.tm, t.type⟩ := by
      rw [icalDatetime_val, datetimeFields_text]
      rfl
    exact (icalRruleParam_until vp _ d).symm ▸ option_map_eq (always hval)
  | counts k text h =>
    refine (icalRruleParam_counts vp _ d k).symm ▸ option_map_eq fun n => ?_
    rw [value, icalUlong_numeric h le_rfl]
    constructor
    · rintro ⟨rfl, -, hmax, hstale⟩
      exact ⟨⟨hmax, hstale⟩, rfl⟩
    · rintro ⟨⟨hmax, hstale⟩, rfl⟩
      exact ⟨rfl, Nat.zero_le _, hmax, hstale⟩
  | byday w ws =>
    have hone (m : WeekdayNum) (n : IcalWk) : (icalWk m.text d).1 = some n ↔ True ∧ n = m.value := by
      rw [icalWk_text]
      simp [eq_comm]
    refine (icalRruleParam_byday vp _ d).symm ▸ option_map_eq fun vs => ?_
    refine (icalList_text (C := C) icalWk_steady WeekdayNum.plain hone w ws).trans ?_
    simp [Sound]
  | ulongs k n ns =>
    refine (icalRruleParam_ulongs vp _ d k).symm ▸ option_map_eq fun vs => ?_
    refine (icalList_text (fun tok => icalUlong_steady tok k.min k.max) RecurNum.plain (k.icalUlong_text) n ns).trans ?_
    exact and_congr_left fun _ => ⟨fun h hk m hm => h m hm hk, fun h m hm hk => h hk m hm⟩
  | longs k n ns =>
    refine (icalRruleParam_longs vp _ d k).symm ▸ option_map_eq fun vs => ?_
    refine (icalList_text (fun tok => icalLong_steady tok k.min k.max) SignedNum.plain (k.icalLong_text) n ns).trans ?_
    exact and_congr_left fun _ => ⟨fun h hk m hm => h m hm hk, fun h m hm hk => h hk m hm⟩
  | wkst w =>
    have hval : (icalWkday w.name d).1 = some w := by
      rw [icalWkday_name]
      rfl
    exact (icalRruleParam_wkst vp _ d).symm ▸ option_map_eq (always hval)

/-! ## Rules -/

/-- A rule is accepted where each of its parts is sound. -/
theorem recurParts_run {d : Diag} {ps : List RecurPart} {vp vp' : IcalRrule} :
    RruleRun C d vp (ps.map RecurPart.text) vp' ↔
      (∀ p ∈ ps, p.Sound (conv C d)) ∧ vp' = ps.foldl (fun vp p => p.set C vp) vp := by
  induction ps generalizing vp with
  | nil =>
    constructor
    · intro h
      cases h
      exact ⟨fun p hp => absurd hp List.not_mem_nil, rfl⟩
    · rintro ⟨-, rfl⟩
      exact .nil _
  | cons p ps ih =>
    rw [List.map_cons, List.forall_mem_cons, List.foldl_cons]
    constructor
    · intro h
      cases h with
      | cons hp hset hrun =>
        cases p.strchr_text.symm.trans hp
        obtain ⟨hsound, rfl⟩ := p.set_iff.mp hset
        obtain ⟨hsounds, rfl⟩ := ih.mp hrun
        exact ⟨⟨hsound, hsounds⟩, rfl⟩
    · rintro ⟨⟨hsound, hsounds⟩, rfl⟩
      exact .cons p.strchr_text (p.set_iff.mpr ⟨hsound, rfl⟩) (ih.mpr ⟨hsounds, rfl⟩)

/-- A part goes under its key and leaves the others. -/
theorem RecurPart.entry_set (p : RecurPart) {vp : IcalRrule} (h : p.key.entry vp = p.key.entry .zero) (k : RruleKey) :
    k.entry (p.set C vp) = if p.key = k then p.entry C else k.entry vp := by
  by_cases hk : p.key = k
  · subst hk
    rw [if_pos rfl]
    cases p with
    | byday w ws =>
      have hnil : vp.bwkd = [] := RruleEntry.days.inj h
      simp only [set, key, RruleKey.entry, entry, hnil, List.nil_append]
    | ulongs k n ns =>
      have hnil : k.get vp = [] := (RruleEntry.ulongs.inj h).trans (by cases k <;> rfl)
      simp only [set, key, RruleKey.entry, entry, hnil, List.nil_append]
      cases k <;> rfl
    | longs k n ns =>
      have hnil : k.get vp = [] := (RruleEntry.longs.inj h).trans (by cases k <;> rfl)
      simp only [set, key, RruleKey.entry, entry, hnil, List.nil_append]
      cases k <;> rfl
    | counts k => cases k <;> rfl
    | freq | «until» | wkst => rfl
  · rw [if_neg hk]
    cases p with
    | counts j => cases j <;> rcases k with _ | _ | (_ | _) | _ | (_ | _ | _ | _) | (_ | _ | _ | _) | _ <;> first | rfl | exact absurd rfl hk
    | ulongs j => cases j <;> rcases k with _ | _ | (_ | _) | _ | (_ | _ | _ | _) | (_ | _ | _ | _) | _ <;> first | rfl | exact absurd rfl hk
    | longs j => cases j <;> rcases k with _ | _ | (_ | _) | _ | (_ | _ | _ | _) | (_ | _ | _ | _) | _ <;> first | rfl | exact absurd rfl hk
    | freq | «until» | byday | wkst => rcases k with _ | _ | (_ | _) | _ | (_ | _ | _ | _) | (_ | _ | _ | _) | _ <;> first | rfl | exact absurd rfl hk

theorem RecurPart.set_set (p : RecurPart) (vp : IcalRrule) : (p.set C vp).set = vp.set := by
  cases p with
  | counts k => cases k <;> rfl
  | ulongs k => cases k <;> rfl
  | longs k => cases k <;> rfl
  | freq | «until» | byday | wkst => rfl

theorem RruleKey.entry_mark (k : RruleKey) (vp : IcalRrule) : k.entry { vp with set := true } = k.entry vp := by
  cases k with
  | counts k => cases k <;> rfl
  | ulongs k => cases k <;> rfl
  | longs k => cases k <;> rfl
  | freq | «until» | byday | wkst => rfl

/-- With no key twice each key holds what its part lists. -/
theorem recurParts_entry {ps : List RecurPart} (hps : (ps.map RecurPart.key).Nodup) {vp : IcalRrule}
    (h : ∀ p ∈ ps, p.key.entry vp = p.key.entry .zero) (k : RruleKey) :
    k.entry (ps.foldl (fun vp p => p.set C vp) vp) =
      ((ps.find? fun p => p.key = k).map (RecurPart.entry C)).getD (k.entry vp) := by
  induction ps generalizing vp with
  | nil => rfl
  | cons p ps ih =>
    obtain ⟨hp, hps⟩ := List.nodup_cons.mp hps
    obtain ⟨hfirst, hrest⟩ := List.forall_mem_cons.mp h
    rw [List.foldl_cons, ih hps fun q hq => ?_]
    · rw [p.entry_set hfirst]
      by_cases hk : p.key = k
      · subst hk
        have hnone : ps.find? (fun q => q.key = p.key) = none := by
          rw [List.find?_eq_none]
          intro q hq hqp
          exact hp (List.mem_map.mpr ⟨q, hq, by simpa using hqp⟩)
        rw [hnone, List.find?_cons_of_pos (by simp), if_pos rfl]
        rfl
      · rw [List.find?_cons_of_neg (by simp [hk]), if_neg hk]
    · have hne : p.key ≠ q.key := fun he => hp (List.mem_map.mpr ⟨q, hq, he.symm⟩)
      rw [p.entry_set hfirst, if_neg hne]
      exact hrest q hq

theorem recurParts_set (ps : List RecurPart) (vp : IcalRrule) :
    (ps.foldl (fun vp p => p.set C vp) vp).set = vp.set := by
  induction ps generalizing vp with
  | nil => rfl
  | cons p ps ih => rw [List.foldl_cons, ih, p.set_set]

/-- A RECUR value is accepted, with what it lists, where its parts are sound. -/
theorem icalRrule_recur_iff (C : Libc) (r : Recur) (d : Diag) :
    (∃ vp, (icalRrule C .zero r.text d).1 = some vp ∧ r.Held C vp) ↔ ∀ p ∈ r.parts, p.Sound (conv C d) := by
  constructor
  · rintro ⟨vp, h, -⟩
    obtain ⟨hrun, -⟩ := icalRrule_eq_some.mp h
    rw [r.strsep_text] at hrun
    exact (recurParts_run.mp hrun).1
  · intro hsound
    let vp := r.parts.foldl (fun vp p => p.set C vp) { IcalRrule.zero with set := true }
    have hentry (k : RruleKey) : k.entry vp =
        ((r.parts.find? fun p => p.key = k).map (RecurPart.entry C)).getD (k.entry .zero) := by
      rw [recurParts_entry r.distinct fun p _ => p.key.entry_mark _, k.entry_mark]
    have hfreq : vp.freq.isSome := by
      obtain ⟨f, hf⟩ := r.freq
      have hget := hentry .freq
      cases hfind : r.parts.find? fun p => p.key = .freq with
      | none =>
        have hne := List.find?_eq_none.mp hfind _ hf
        exact absurd rfl (show ¬(RecurPart.freq f).key = .freq by simpa using hne)
      | some p =>
        rw [hfind] at hget
        have hkey : p.key = .freq := by simpa using List.find?_some hfind
        cases p with
        | freq g =>
          have hg : vp.freq = some g := RruleEntry.freq.inj hget
          rw [hg]
          rfl
        | counts | ulongs | longs | «until» | byday | wkst => cases hkey
    refine ⟨vp, icalRrule_eq_some.mpr ⟨?_, hfreq⟩, recurParts_set _ _, hentry⟩
    rw [r.strsep_text]
    exact recurParts_run.mpr ⟨hsound, rfl⟩

/-- Every full minute. -/
def fullMinutes : Recur where
  parts := [.freq .minutely, .ulongs .bysecond ⟨ascii "0", by decide +kernel, by decide +kernel, by decide +kernel, by decide +kernel⟩ []]
  distinct := by decide
  freq := ⟨.minutely, List.mem_cons_self⟩

theorem icalRrule_fullMinutes : fullMinutes.text = ascii "FREQ=MINUTELY;BYSECOND=0" ∧
    ¬∃ vp, (icalRrule .utc .zero fullMinutes.text ⟨"", 1, none, false⟩).1 = some vp ∧ fullMinutes.Held .utc vp := by
  have htext : fullMinutes.text = ascii "FREQ=MINUTELY;BYSECOND=0" := by
    decide +kernel
  refine ⟨htext, ?_⟩
  rintro ⟨vp, h, -⟩
  have hnone : (icalRrule .utc .zero (ascii "FREQ=MINUTELY;BYSECOND=0") ⟨"", 1, none, false⟩).1 = none := by
    decide +kernel
  rw [htext, hnone] at h
  cases h

end Kcaldav
