import Kcaldav.Ical.Date
import Mathlib.Data.List.Forall2

/-! # Recurrence rules

What one parameter of a recurrence rule does to the record, and what a whole rule
does. No conversion that succeeds touches `errno`, so every parameter is read under
the `errno` the rule was given.
-/
namespace Kcaldav
open CString Fallible

variable {C : Libc} {α β : Type}

/-! ## The parameters with numbers -/

/-- The parameters with one unsigned number. -/
inductive CountKey
  | count | interval
  deriving DecidableEq, Repr

namespace CountKey

def text : CountKey → Bytes
  | count => ascii "COUNT"
  | interval => ascii "INTERVAL"

def get : CountKey → IcalRrule → Nat
  | count => IcalRrule.count
  | interval => IcalRrule.interval

def put : CountKey → Nat → IcalRrule → IcalRrule
  | count, v, vp => { vp with count := v }
  | interval, v, vp => { vp with interval := v }

end CountKey

/-- The parameters with a list of unsigned numbers. -/
inductive UlongKey
  | byhour | byminute | bymonth | bysecond
  deriving DecidableEq, Repr

namespace UlongKey

def text : UlongKey → Bytes
  | byhour => ascii "BYHOUR"
  | byminute => ascii "BYMINUTE"
  | bymonth => ascii "BYMONTH"
  | bysecond => ascii "BYSECOND"

/-- The bounds `ical_rrule_param` sets. -/
def min : UlongKey → Nat
  | byhour | byminute => 0
  | bymonth | bysecond => 1

def max : UlongKey → Nat
  | byhour => 23
  | byminute | bysecond => 59
  | bymonth => 12

def get : UlongKey → IcalRrule → List Nat
  | byhour => IcalRrule.bhr
  | byminute => IcalRrule.bmin
  | bymonth => IcalRrule.bmon
  | bysecond => IcalRrule.bsec

def put : UlongKey → List Nat → IcalRrule → IcalRrule
  | byhour, v, vp => { vp with bhr := v }
  | byminute, v, vp => { vp with bmin := v }
  | bymonth, v, vp => { vp with bmon := v }
  | bysecond, v, vp => { vp with bsec := v }

theorem max_lt (k : UlongKey) : k.max < ULONG_MAX := by
  cases k <;> decide

end UlongKey

/-- The parameters with a list of signed numbers. -/
inductive LongKey
  | bymonthday | bysetpos | byweekno | byyearday
  deriving DecidableEq, Repr

namespace LongKey

def text : LongKey → Bytes
  | bymonthday => ascii "BYMONTHDAY"
  | bysetpos => ascii "BYSETPOS"
  | byweekno => ascii "BYWEEKNO"
  | byyearday => ascii "BYYEARDAY"

def min : LongKey → Int
  | bysetpos => -366
  | bymonthday | byweekno | byyearday => 1

def max : LongKey → Int
  | bymonthday => 31
  | byweekno => 53
  | bysetpos | byyearday => 366

def get : LongKey → IcalRrule → List Int
  | bymonthday => IcalRrule.bmnd
  | bysetpos => IcalRrule.bsp
  | byweekno => IcalRrule.bwkn
  | byyearday => IcalRrule.byrd

def put : LongKey → List Int → IcalRrule → IcalRrule
  | bymonthday, v, vp => { vp with bmnd := v }
  | bysetpos, v, vp => { vp with bsp := v }
  | byweekno, v, vp => { vp with bwkn := v }
  | byyearday, v, vp => { vp with byrd := v }

end LongKey

theorem icalList_steady {ω : Type} {obs : Diag → ω} {one : Bytes → Value α} (h : ∀ tok, Steady obs (one tok))
    (toks : List Bytes) (v : List α) : Steady obs (icalList one v toks) := by
  induction toks generalizing v with
  | nil => exact .pure v
  | cons tok toks ih => exact .bind (h tok) fun a => ih (v ++ [a])

/-- The elements of a list are read one by one, each under the same `errno`. -/
theorem icalList_eq_some {one : Bytes → Value α} (h : ∀ tok, Steady (conv C) (one tok)) {d : Diag} {toks : List Bytes}
    {v vs : List α} : (icalList one v toks d).1 = some vs ↔
      ∃ ws, vs = v ++ ws ∧ List.Forall₂ (fun tok w => (one tok d).1 = some w) toks ws := by
  induction toks generalizing v with
  | nil =>
    constructor
    · intro h
      cases h
      exact ⟨[], (List.append_nil _).symm, .nil⟩
    · rintro ⟨ws, rfl, hws⟩
      cases hws
      rw [List.append_nil]
      rfl
  | cons tok toks ih =>
    rw [icalList, Steady.bind_val (h tok) (fun a => icalList_steady h toks _) rfl, Option.bind_eq_some_iff]
    constructor
    · rintro ⟨a, ha, hrest⟩
      obtain ⟨ws, rfl, hws⟩ := ih.mp hrest
      exact ⟨a :: ws, by simp, .cons ha hws⟩
    · rintro ⟨ws, rfl, hws⟩
      cases hws with
      | @cons _ a _ ws ha hws => exact ⟨a, ha, ih.mpr ⟨ws, by simp, hws⟩⟩

/-! ## One parameter -/

theorem orReport_val {x : Value α} (msg : String) (d : Diag) : (orReport x msg d).1 = (x d).1 :=
  Steady.orElse_val (fun _ => rfl) d

/-- A value parser whose result goes into the record. -/
theorem orReport_field (x : Value β) (f : β → α) (msg : String) (d : Diag) :
    (orReport (do return f (← x)) msg d).1 = (x d).1.map f := by
  rw [orReport_val, bind_apply]
  rcases x d with ⟨_ | b, d'⟩ <;> rfl

theorem orReport_steady {ω : Type} {obs : Diag → ω} {x : Value α} (hx : Steady obs x) (msg : String) :
    Steady obs (orReport x msg) := .orElse hx fun _ => rfl

theorem icalWkday_steady (cp : Bytes) : Steady (conv C) (icalWkday cp) := by
  unfold icalWkday
  split
  · exact .of_none fun _ => rfl
  · exact .pure _

theorem icalWk_steady (cp : Bytes) : Steady (conv C) (icalWk cp) := .bind (icalWkday_steady _) fun _ => .pure _

theorem icalRruleParam_steady (vp : IcalRrule) (key v : Bytes) : Steady (conv C) (icalRruleParam C vp key v) := by
  have field {β : Type} {x : Value β} (hx : Steady (conv C) x) {f : β → IcalRrule} {msg : String} :
      Steady (conv C) (orReport (x >>= fun a => pure (f a)) msg) := orReport_steady (.bind hx fun _ => .pure _) msg
  have ulongs (l : List Nat) (min max : Nat) : Steady (conv C) (icalLulong C l v min max) :=
    icalList_steady (fun tok => icalUlong_steady tok min max) _ _
  have longs (l : List Int) (min max : Int) : Steady (conv C) (icalLlong C l v min max) :=
    icalList_steady (fun tok => icalLong_steady tok min max) _ _
  refine orReport_steady ?_ _
  unfold icalRruleParamInner
  refine .ite ?_ (.ite ?_ (.ite ?_ (.ite ?_ (.ite ?_ (.ite ?_ (.ite ?_ (.ite ?_ (.ite ?_ (.ite ?_ (.ite ?_
    (.ite ?_ (.ite ?_ (.ite ?_ (.of_none fun _ => rfl))))))))))))))
  · split
    · exact .pure _
    · exact .of_none fun _ => rfl
  · exact field (icalDatetime_steady v)
  · exact field (icalUlong_steady v _ _)
  · exact field (icalUlong_steady v _ _)
  · exact field (icalList_steady icalWk_steady _ _)
  · exact field (ulongs _ _ _)
  · exact field (ulongs _ _ _)
  · exact field (longs _ _ _)
  · exact field (ulongs _ _ _)
  · exact field (ulongs _ _ _)
  · exact field (longs _ _ _)
  · exact field (longs _ _ _)
  · exact field (longs _ _ _)
  · exact field (icalWkday_steady v)

variable (C)

/-- What a parameter that is accepted does to the record, in a state of the diagnostics. -/
inductive RruleSet (d : Diag) (vp : IcalRrule) : Bytes → Bytes → IcalRrule → Prop
  | freq (f : IcalFreq) : RruleSet d vp (ascii "FREQ") f.name { vp with freq := some f }
  | until {v : Bytes} {t : IcalTm} : (icalDatetime C v d).1 = some t →
    RruleSet d vp (ascii "UNTIL") v { vp with until_ := t }
  | counts (k : CountKey) {v : Bytes} {n : Nat} : (icalUlong C v 0 ULONG_MAX d).1 = some n →
    RruleSet d vp k.text v (k.put n vp)
  | byday {v : Bytes} {ws : List IcalWk} : (icalWklist vp.bwkd v d).1 = some ws →
    RruleSet d vp (ascii "BYDAY") v { vp with bwkd := ws }
  | ulongs (k : UlongKey) {v : Bytes} {ns : List Nat} : (icalLulong C (k.get vp) v k.min k.max d).1 = some ns →
    RruleSet d vp k.text v (k.put ns vp)
  | longs (k : LongKey) {v : Bytes} {ns : List Int} : (icalLlong C (k.get vp) v k.min k.max d).1 = some ns →
    RruleSet d vp k.text v (k.put ns vp)
  | wkst {v : Bytes} {w : IcalWkday} : (icalWkday v d).1 = some w →
    RruleSet d vp (ascii "WKST") v { vp with wkst := some w }

variable {C}

theorem icalRruleParam_set {d : Diag} {vp vp' : IcalRrule} {key v : Bytes}
    (h : (icalRruleParam C vp key v d).1 = some vp') : RruleSet C d vp key v vp' := by
  have field {β : Type} {x : Value β} {f : β → IcalRrule} {msg : String}
      (hx : (orReport (do return f (← x)) msg d).1 = some vp') : ∃ a, (x d).1 = some a ∧ f a = vp' := by
    rwa [orReport_field, Option.map_eq_some_iff] at hx
  rw [icalRruleParam, orReport_val] at h
  unfold icalRruleParamInner at h
  by_cases hfreq : key = ascii "FREQ"
  · subst hfreq
    rw [if_pos rfl] at h
    cases hf : IcalFreq.all.find? fun f => f.name = v with
    | none =>
      rw [hf] at h
      cases h
    | some f =>
      rw [hf] at h
      have hname : f.name = v := by simpa using List.find?_some hf
      cases h
      exact hname ▸ .freq f
  rw [if_neg hfreq] at h
  by_cases huntil : key = ascii "UNTIL"
  · rw [if_pos huntil] at h
    obtain ⟨a, ha, rfl⟩ := field h
    exact huntil ▸ .until ha
  rw [if_neg huntil] at h
  by_cases hcount : key = ascii "COUNT"
  · rw [if_pos hcount] at h
    obtain ⟨a, ha, rfl⟩ := field h
    exact hcount ▸ .counts .count ha
  rw [if_neg hcount] at h
  by_cases hinterval : key = ascii "INTERVAL"
  · rw [if_pos hinterval] at h
    obtain ⟨a, ha, rfl⟩ := field h
    exact hinterval ▸ .counts .interval ha
  rw [if_neg hinterval] at h
  by_cases hbyday : key = ascii "BYDAY"
  · rw [if_pos hbyday] at h
    obtain ⟨a, ha, rfl⟩ := field h
    exact hbyday ▸ .byday ha
  rw [if_neg hbyday] at h
  by_cases hbyhour : key = ascii "BYHOUR"
  · rw [if_pos hbyhour] at h
    obtain ⟨a, ha, rfl⟩ := field h
    exact hbyhour ▸ .ulongs .byhour ha
  rw [if_neg hbyhour] at h
  by_cases hbyminute : key = ascii "BYMINUTE"
  · rw [if_pos hbyminute] at h
    obtain ⟨a, ha, rfl⟩ := field h
    exact hbyminute ▸ .ulongs .byminute ha
  rw [if_neg hbyminute] at h
  by_cases hbymonthday : key = ascii "BYMONTHDAY"
  · rw [if_pos hbymonthday] at h
    obtain ⟨a, ha, rfl⟩ := field h
    exact hbymonthday ▸ .longs .bymonthday ha
  rw [if_neg hbymonthday] at h
  by_cases hbymonth : key = ascii "BYMONTH"
  · rw [if_pos hbymonth] at h
    obtain ⟨a, ha, rfl⟩ := field h
    exact hbymonth ▸ .ulongs .bymonth ha
  rw [if_neg hbymonth] at h
  by_cases hbysecond : key = ascii "BYSECOND"
  · rw [if_pos hbysecond] at h
    obtain ⟨a, ha, rfl⟩ := field h
    exact hbysecond ▸ .ulongs .bysecond ha
  rw [if_neg hbysecond] at h
  by_cases hbysetpos : key = ascii "BYSETPOS"
  · rw [if_pos hbysetpos] at h
    obtain ⟨a, ha, rfl⟩ := field h
    exact hbysetpos ▸ .longs .bysetpos ha
  rw [if_neg hbysetpos] at h
  by_cases hbyweekno : key = ascii "BYWEEKNO"
  · rw [if_pos hbyweekno] at h
    obtain ⟨a, ha, rfl⟩ := field h
    exact hbyweekno ▸ .longs .byweekno ha
  rw [if_neg hbyweekno] at h
  by_cases hbyyearday : key = ascii "BYYEARDAY"
  · rw [if_pos hbyyearday] at h
    obtain ⟨a, ha, rfl⟩ := field h
    exact hbyyearday ▸ .longs .byyearday ha
  rw [if_neg hbyyearday] at h
  by_cases hwkst : key = ascii "WKST"
  · rw [if_pos hwkst] at h
    obtain ⟨a, ha, rfl⟩ := field h
    exact hwkst ▸ .wkst ha
  rw [if_neg hwkst] at h
  cases h

section
variable (vp : IcalRrule) (v : Bytes) (d : Diag)

theorem icalRruleParam_freq : (icalRruleParam C vp (ascii "FREQ") v d).1 =
    (IcalFreq.all.find? fun f => f.name = v).map fun f => { vp with freq := some f } := by
  rw [icalRruleParam, orReport_val]
  unfold icalRruleParamInner
  rw [if_pos rfl]
  cases IcalFreq.all.find? fun f => f.name = v <;> rfl

theorem icalRruleParam_until : (icalRruleParam C vp (ascii "UNTIL") v d).1 =
    (icalDatetime C v d).1.map fun t => { vp with until_ := t } := by
  rw [icalRruleParam, orReport_val]
  unfold icalRruleParamInner
  rw [if_neg (by decide +kernel), if_pos rfl, orReport_field]

theorem icalRruleParam_counts (k : CountKey) : (icalRruleParam C vp k.text v d).1 =
    (icalUlong C v 0 ULONG_MAX d).1.map fun n => k.put n vp := by
  rw [icalRruleParam, orReport_val]
  unfold icalRruleParamInner
  cases k
  all_goals
    repeat rw [if_neg (by decide +kernel)]
    rw [if_pos (by decide +kernel), orReport_field]
    rfl

theorem icalRruleParam_byday : (icalRruleParam C vp (ascii "BYDAY") v d).1 =
    (icalWklist vp.bwkd v d).1.map fun ws => { vp with bwkd := ws } := by
  rw [icalRruleParam, orReport_val]
  unfold icalRruleParamInner
  repeat rw [if_neg (by decide +kernel)]
  rw [if_pos rfl, orReport_field]

theorem icalRruleParam_ulongs (k : UlongKey) : (icalRruleParam C vp k.text v d).1 =
    (icalLulong C (k.get vp) v k.min k.max d).1.map fun ns => k.put ns vp := by
  rw [icalRruleParam, orReport_val]
  unfold icalRruleParamInner
  cases k
  all_goals
    repeat rw [if_neg (by decide +kernel)]
    rw [if_pos (by decide +kernel), orReport_field]
    rfl

theorem icalRruleParam_longs (k : LongKey) : (icalRruleParam C vp k.text v d).1 =
    (icalLlong C (k.get vp) v k.min k.max d).1.map fun ns => k.put ns vp := by
  rw [icalRruleParam, orReport_val]
  unfold icalRruleParamInner
  cases k
  all_goals
    repeat rw [if_neg (by decide +kernel)]
    rw [if_pos (by decide +kernel), orReport_field]
    rfl

theorem icalRruleParam_wkst : (icalRruleParam C vp (ascii "WKST") v d).1 =
    (icalWkday v d).1.map fun w => { vp with wkst := some w } := by
  rw [icalRruleParam, orReport_val]
  unfold icalRruleParamInner
  repeat rw [if_neg (by decide +kernel)]
  rw [if_pos rfl, orReport_field]

end

theorem IcalFreq.find?_name (f : IcalFreq) : IcalFreq.all.find? (fun g => g.name = f.name) = some f := by
  cases f <;> decide +kernel

theorem icalRruleParam_of_set {d : Diag} {vp vp' : IcalRrule} {key v : Bytes} (h : RruleSet C d vp key v vp') :
    (icalRruleParam C vp key v d).1 = some vp' := by
  cases h with
  | freq f => rw [icalRruleParam_freq, IcalFreq.find?_name, Option.map_some]
  | «until» h => rw [icalRruleParam_until, h, Option.map_some]
  | counts k h => rw [icalRruleParam_counts, h, Option.map_some]
  | byday h => rw [icalRruleParam_byday, h, Option.map_some]
  | ulongs k h => rw [icalRruleParam_ulongs, h, Option.map_some]
  | longs k h => rw [icalRruleParam_longs, h, Option.map_some]
  | wkst h => rw [icalRruleParam_wkst, h, Option.map_some]

theorem icalRruleParam_eq_some {d : Diag} {vp vp' : IcalRrule} {key v : Bytes} :
    (icalRruleParam C vp key v d).1 = some vp' ↔ RruleSet C d vp key v vp' :=
  ⟨icalRruleParam_set, icalRruleParam_of_set⟩

/-! ## Whole rules -/

variable (C)

/-- The parameters of a rule, accepted one after another. -/
inductive RruleRun (d : Diag) : IcalRrule → List Bytes → IcalRrule → Prop
  | nil (vp : IcalRrule) : RruleRun d vp [] vp
  | cons {vp vp₁ vp' : IcalRrule} {p key v : Bytes} {ps : List Bytes} : strchr 61 p = some (key, v) →
    RruleSet C d vp key v vp₁ → RruleRun d vp₁ ps vp' → RruleRun d vp (p :: ps) vp'

variable {C}

theorem icalRruleParams_steady (ps : List Bytes) (vp : IcalRrule) : Steady (conv C) (icalRruleParams C vp ps) := by
  induction ps generalizing vp with
  | nil => exact .pure vp
  | cons p ps ih =>
    unfold icalRruleParams
    split
    · exact .of_none fun _ => rfl
    · exact .bind (icalRruleParam_steady vp _ _) ih

theorem icalRruleParams_eq_some {d : Diag} {ps : List Bytes} {vp vp' : IcalRrule} :
    (icalRruleParams C vp ps d).1 = some vp' ↔ RruleRun C d vp ps vp' := by
  induction ps generalizing vp with
  | nil =>
    constructor
    · intro h
      cases h
      exact .nil _
    · intro h
      cases h
      rfl
  | cons p ps ih =>
    unfold icalRruleParams
    cases hp : strchr 61 p with
    | none =>
      constructor
      · intro h
        cases h
      · intro h
        cases h with
        | cons hp' => cases hp.symm.trans hp'
    | some q =>
      obtain ⟨key, v⟩ := q
      dsimp only
      rw [Steady.bind_val (icalRruleParam_steady vp key v) (fun a => icalRruleParams_steady ps a) rfl, Option.bind_eq_some_iff]
      constructor
      · rintro ⟨vp₁, hset, hrun⟩
        exact .cons hp (icalRruleParam_eq_some.mp hset) (ih.mp hrun)
      · intro h
        cases h with
        | cons hp' hset hrun =>
          cases hp.symm.trans hp'
          exact ⟨_, icalRruleParam_eq_some.mpr hset, ih.mpr hrun⟩

theorem icalRrule_eq_some {d : Diag} {vp vp' : IcalRrule} {cp : Bytes} : (icalRrule C vp cp d).1 = some vp' ↔
    RruleRun C d { vp with set := true } (strsep 59 cp) vp' ∧ vp'.freq.isSome := by
  have last (w : IcalRrule) : Steady (conv C) (if w.freq.isNone then icalFail "missing \"FREQ\"" else pure w : Value IcalRrule) :=
    .ite (.of_none fun _ => rfl) (.pure w)
  rw [icalRrule, Steady.bind_val (icalRruleParams_steady _ _) last rfl, Option.bind_eq_some_iff]
  constructor
  · rintro ⟨w, hrun, h⟩
    split at h
    · cases h
    next hfreq =>
      cases h
      exact ⟨icalRruleParams_eq_some.mp hrun, by simpa [Option.isSome_iff_ne_none] using hfreq⟩
  · rintro ⟨hrun, hfreq⟩
    refine ⟨vp', icalRruleParams_eq_some.mpr hrun, ?_⟩
    rw [if_neg (by simpa [Option.isSome_iff_ne_none] using hfreq)]
    rfl

/-! ## The numbers of a rule -/

/-- The values of the parameters with the given key. -/
def rruleTexts (key : Bytes) (ps : List Bytes) : List Bytes :=
  ps.filterMap fun p => (strchr 61 p).bind fun q => if q.1 = key then some q.2 else none

def UlongKey.tokens (k : UlongKey) (ps : List Bytes) : List Bytes := (rruleTexts k.text ps).flatMap (strsep 44)

/-- The unsigned numbers of a rule as they are written. -/
def rruleNumbers (ps : List Bytes) : List Bytes :=
  [UlongKey.byhour, .byminute, .bymonth, .bysecond].flatMap (·.tokens ps) ++
    [CountKey.count, .interval].flatMap fun k => rruleTexts k.text ps

theorem rruleTexts_cons {p key v : Bytes} (hp : strchr 61 p = some (key, v)) (key' : Bytes) (ps : List Bytes) :
    rruleTexts key' (p :: ps) = if key = key' then v :: rruleTexts key' ps else rruleTexts key' ps := by
  unfold rruleTexts
  rw [List.filterMap_cons, hp]
  split <;> simp_all

/-- A list grows by the numbers of its own parameter only. -/
theorem RruleSet.ulongs_get {d : Diag} {vp vp' : IcalRrule} {key v : Bytes} (h : RruleSet C d vp key v vp')
    (k : UlongKey) : if key = k.text
      then ∃ ns, k.get vp' = k.get vp ++ ns ∧
        List.Forall₂ (fun tok n => (icalUlong C tok k.min k.max d).1 = some n) (strsep 44 v) ns
      else k.get vp' = k.get vp := by
  cases h with
  | ulongs j h =>
    by_cases hjk : j = k
    · subst hjk
      rw [if_pos rfl]
      obtain ⟨ns, rfl, hns⟩ := (icalList_eq_some fun tok => icalUlong_steady tok j.min j.max).mp h
      exact ⟨ns, by cases j <;> rfl, hns⟩
    · rw [if_neg (by cases j <;> cases k <;> first | exact absurd rfl hjk | decide +kernel)]
      cases j <;> cases k <;> first | exact absurd rfl hjk | rfl
  | counts j h =>
    rw [if_neg (by cases j <;> cases k <;> decide +kernel)]
    cases j <;> cases k <;> rfl
  | longs j h =>
    rw [if_neg (by cases j <;> cases k <;> decide +kernel)]
    cases j <;> cases k <;> rfl
  | freq | «until» | byday | wkst =>
    rw [if_neg (by cases k <;> decide +kernel)]
    cases k <;> rfl

theorem RruleSet.count_get {d : Diag} {vp vp' : IcalRrule} {key v : Bytes} (h : RruleSet C d vp key v vp')
    (k : CountKey) : if key = k.text then (icalUlong C v 0 ULONG_MAX d).1 = some (k.get vp')
      else k.get vp' = k.get vp := by
  cases h with
  | counts j h =>
    by_cases hjk : j = k
    · subst hjk
      rw [if_pos rfl, h]
      cases j <;> rfl
    · rw [if_neg (by cases j <;> cases k <;> first | exact absurd rfl hjk | decide +kernel)]
      cases j <;> cases k <;> first | exact absurd rfl hjk | rfl
  | ulongs j h =>
    rw [if_neg (by cases j <;> cases k <;> decide +kernel)]
    cases j <;> cases k <;> rfl
  | longs j h =>
    rw [if_neg (by cases j <;> cases k <;> decide +kernel)]
    cases j <;> cases k <;> rfl
  | freq | «until» | byday | wkst =>
    rw [if_neg (by cases k <;> decide +kernel)]
    cases k <;> rfl

theorem RruleRun.ulongs_get {d : Diag} {vp vp' : IcalRrule} {ps : List Bytes} (h : RruleRun C d vp ps vp') (k : UlongKey) :
    ∃ ns, k.get vp' = k.get vp ++ ns ∧
      List.Forall₂ (fun tok n => (icalUlong C tok k.min k.max d).1 = some n) (k.tokens ps) ns := by
  induction h with
  | nil vp => exact ⟨[], (List.append_nil _).symm, .nil⟩
  | @cons vp vp₁ vp' p key v ps hp hset _ ih =>
    obtain ⟨ns, hget, hns⟩ := ih
    have hstep := hset.ulongs_get k
    rw [UlongKey.tokens, rruleTexts_cons hp]
    split at hstep
    next hkey =>
      obtain ⟨ms, hms, hfirst⟩ := hstep
      refine ⟨ms ++ ns, by rw [hget, hms, List.append_assoc], ?_⟩
      rw [if_pos hkey, List.flatMap_cons]
      exact List.rel_append hfirst hns
    next hkey =>
      rw [if_neg hkey]
      exact ⟨ns, by rw [hget, hstep], hns⟩

theorem RruleRun.count_get {d : Diag} {vp vp' : IcalRrule} {ps : List Bytes} (h : RruleRun C d vp ps vp') (k : CountKey) :
    ∃ ns, k.get vp' = ns.getLastD (k.get vp) ∧
      List.Forall₂ (fun tok n => (icalUlong C tok 0 ULONG_MAX d).1 = some n) (rruleTexts k.text ps) ns := by
  induction h with
  | nil vp => exact ⟨[], rfl, .nil⟩
  | @cons vp vp₁ vp' p key v ps hp hset _ ih =>
    obtain ⟨ns, hget, hns⟩ := ih
    have hstep := hset.count_get k
    rw [rruleTexts_cons hp]
    split at hstep
    next hkey =>
      rw [if_pos hkey]
      exact ⟨k.get vp₁ :: ns, by rw [hget]; cases ns <;> rfl, .cons hstep hns⟩
    next hkey =>
      rw [if_neg hkey]
      exact ⟨ns, by rw [hget, hstep], hns⟩

/-- A number is the decimal value of what is written for it. -/
structure RruleMeant (ps : List Bytes) (vp : IcalRrule) : Prop where
  numeric : ∀ tok ∈ rruleNumbers ps, Numeric tok
  ulongs : ∀ k : UlongKey, k.get vp = (k.tokens ps).map decimal
  counts : ∀ k : CountKey, k.get vp = ((rruleTexts k.text ps).map decimal).getLastD 0

theorem mem_rruleNumbers {ps : List Bytes} {tok : Bytes} : tok ∈ rruleNumbers ps ↔
    (∃ k : UlongKey, tok ∈ k.tokens ps) ∨ ∃ k : CountKey, tok ∈ rruleTexts k.text ps := by
  unfold rruleNumbers
  rw [List.mem_append, List.mem_flatMap, List.mem_flatMap]
  refine or_congr (exists_congr fun k => and_iff_right ?_) (exists_congr fun k => and_iff_right ?_)
  · cases k <;> decide
  · cases k <;> decide

theorem forall₂_left {R : α → β → Prop} {as : List α} {bs : List β} (h : List.Forall₂ R as bs) {a : α} (ha : a ∈ as) :
    ∃ b, R a b := by
  induction h with
  | nil => cases ha
  | cons hab _ ih =>
    rcases List.mem_cons.mp ha with rfl | ha
    · exact ⟨_, hab⟩
    · exact ih ha

/-- Digits that are accepted one by one are their values. -/
theorem forall₂_decimal {min max : Nat} (hmax : max ≤ ULONG_MAX) {d : Diag} {toks : List Bytes} {ns : List Nat}
    (h : List.Forall₂ (fun tok n => (icalUlong C tok min max d).1 = some n) toks ns) (hnum : ∀ tok ∈ toks, Numeric tok) :
    ns = toks.map decimal := by
  induction h with
  | nil => rfl
  | @cons tok n toks ns hn _ ih =>
    obtain ⟨hval, -⟩ := (icalUlong_numeric (hnum tok List.mem_cons_self) hmax).mp hn
    rw [List.map_cons, hval, ih fun t ht => hnum t (List.mem_cons_of_mem _ ht)]

theorem rruleMeant_iff {cp : Bytes} {d : Diag} {vp : IcalRrule} (h : (icalRrule C .zero cp d).1 = some vp) :
    RruleMeant (strsep 59 cp) vp ↔ ∀ tok ∈ rruleNumbers (strsep 59 cp), ∀ l : Literal, l.text = tok → l.Bare := by
  obtain ⟨hrun, -⟩ := icalRrule_eq_some.mp h
  constructor
  · rintro hmeant tok htok l rfl
    exact Literal.bare_of_numeric (hmeant.numeric _ htok)
  · intro hbare
    have numeric {min max : Nat} {tok : Bytes} {n : Nat} (htok : tok ∈ rruleNumbers (strsep 59 cp))
        (hn : (icalUlong C tok min max d).1 = some n) : Numeric tok := by
      obtain ⟨l, rfl, -, -⟩ := icalUlong_eq_some.mp hn
      exact Literal.bare_iff.mp (hbare _ htok l rfl)
    have all {min max : Nat} {toks : List Bytes} {ns : List Nat} (hsub : ∀ tok ∈ toks, tok ∈ rruleNumbers (strsep 59 cp))
        (hns : List.Forall₂ (fun tok n => (icalUlong C tok min max d).1 = some n) toks ns) : ∀ tok ∈ toks, Numeric tok := by
      intro tok htok
      obtain ⟨n, hn⟩ := forall₂_left hns htok
      exact numeric (hsub tok htok) hn
    refine ⟨?_, ?_, ?_⟩
    · intro tok htok
      rcases mem_rruleNumbers.mp htok with ⟨k, hk⟩ | ⟨k, hk⟩
      · obtain ⟨ns, -, hns⟩ := hrun.ulongs_get k
        exact all (fun t ht => mem_rruleNumbers.mpr (.inl ⟨k, ht⟩)) hns tok hk
      · obtain ⟨ns, -, hns⟩ := hrun.count_get k
        exact all (fun t ht => mem_rruleNumbers.mpr (.inr ⟨k, ht⟩)) hns tok hk
    · intro k
      obtain ⟨ns, hget, hns⟩ := hrun.ulongs_get k
      rw [hget, forall₂_decimal k.max_lt.le hns (all (fun t ht => mem_rruleNumbers.mpr (.inl ⟨k, ht⟩)) hns)]
      cases k <;> rfl
    · intro k
      obtain ⟨ns, hget, hns⟩ := hrun.count_get k
      rw [hget, forall₂_decimal le_rfl hns (all (fun t ht => mem_rruleNumbers.mpr (.inr ⟨k, ht⟩)) hns)]
      cases k <;> rfl

/-- `ical_ulong` is exact but for blanks, signs and a stale `errno`, and of an accepted
rule every number is the value of its digits unless blanks or a sign precede them. -/
theorem icalUlong_meant_iff (C : Libc) :
    (∀ (cp : Bytes) (min max : Nat) (d : Diag), min ≤ max → max ≤ ULONG_MAX →
      (UlongExact C cp min max d ↔ ¬PaddedInBounds cp min max (conv C d) ∧ ¬StaleMax cp min max (conv C d))) ∧
    ∀ (cp : Bytes) (d : Diag) (vp : IcalRrule), (icalRrule C .zero cp d).1 = some vp →
      (RruleMeant (strsep 59 cp) vp ↔ ∀ tok ∈ rruleNumbers (strsep 59 cp), ∀ l : Literal, l.text = tok → l.Bare) :=
  ⟨fun _ _ _ d _ hmax => ulongExact_iff hmax d, fun _ _ _ h => rruleMeant_iff h⟩

theorem icalUlong_meant_hour : UlongExact .utc (ascii "05") 0 23 ⟨"", 1, none, false⟩ ∧
    ∃ vp, (icalRrule .utc .zero (ascii "FREQ=DAILY;COUNT=3;BYHOUR=05,6") ⟨"", 1, none, false⟩).1 = some vp ∧
      RruleMeant (strsep 59 (ascii "FREQ=DAILY;COUNT=3;BYHOUR=05,6")) vp := by
  constructor
  · refine ((icalUlong_meant_iff .utc).1 (ascii "05") 0 23 ⟨"", 1, none, false⟩ (by decide) (by decide)).mpr ⟨?_, ?_⟩
    · rintro ⟨l, hl, hbare, -⟩
      exact hbare (Literal.bare_of_numeric (hl ▸ by decide +kernel))
    · rintro ⟨-, hval, -⟩
      exact absurd hval (by decide +kernel)
  · refine ⟨{ IcalRrule.zero with set := true, freq := some .daily, count := 3, bhr := [5, 6] }, by decide +kernel, ?_⟩
    refine ((icalUlong_meant_iff .utc).2 (ascii "FREQ=DAILY;COUNT=3;BYHOUR=05,6") ⟨"", 1, none, false⟩ _ (by decide +kernel)).mpr ?_
    have hnumbers : ∀ tok ∈ rruleNumbers (strsep 59 (ascii "FREQ=DAILY;COUNT=3;BYHOUR=05,6")), Numeric tok := by
      decide +kernel
    rintro tok htok l rfl
    exact Literal.bare_of_numeric (hnumbers _ htok)

/-- Below zero an hour wraps: this one is taken for five. -/
theorem ulongExact_negative : ¬UlongExact .utc (ascii "-18446744073709551611") 0 23 ⟨"", 1, none, false⟩ := by
  intro h
  have hsome : (icalUlong .utc (ascii "-18446744073709551611") 0 23 ⟨"", 1, none, false⟩).1 = some 5 := by
    decide +kernel
  exact absurd ((h 5).mp hsome).1 (by decide +kernel)

end Kcaldav
