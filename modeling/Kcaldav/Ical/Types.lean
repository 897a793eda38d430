import Kcaldav.Library.CString

/-! # The parsed calendar

The enumerations and records of `libkcaldav.h`. Linked lists and counted arrays
are lists; a `char *` that may be `NULL` is an `Option`. A time zone link is the
index of the component in the chain of `VTIMEZONE` components.
-/
namespace Kcaldav
open CString

inductive IcalType
  | vcalendar | vevent | vtodo | vjournal | vfreebusy | vtimezone | valarm
  deriving DecidableEq, Repr

namespace IcalType

def all : List IcalType := [vcalendar, vevent, vtodo, vjournal, vfreebusy, vtimezone, valarm]

def code : IcalType → Nat
  | vcalendar => 0 | vevent => 1 | vtodo => 2 | vjournal => 3
  | vfreebusy => 4 | vtimezone => 5 | valarm => 6

def name : IcalType → Bytes
  | vcalendar => ascii "VCALENDAR"
  | vevent => ascii "VEVENT"
  | vtodo => ascii "VTODO"
  | vjournal => ascii "VJOURNAL"
  | vfreebusy => ascii "VFREEBUSY"
  | vtimezone => ascii "VTIMEZONE"
  | valarm => ascii "VALARM"

end IcalType

inductive IcalTzType
  | daylight | standard
  deriving DecidableEq, Repr

namespace IcalTzType

def all : List IcalTzType := [daylight, standard]

def name : IcalTzType → Bytes
  | daylight => ascii "DAYLIGHT"
  | standard => ascii "STANDARD"

end IcalTzType

inductive IcalFreq
  | secondly | minutely | hourly | daily | weekly | monthly | yearly
  deriving DecidableEq, Repr

namespace IcalFreq

def all : List IcalFreq := [secondly, minutely, hourly, daily, weekly, monthly, yearly]

def name : IcalFreq → Bytes
  | secondly => ascii "SECONDLY"
  | minutely => ascii "MINUTELY"
  | hourly => ascii "HOURLY"
  | daily => ascii "DAILY"
  | weekly => ascii "WEEKLY"
  | monthly => ascii "MONTHLY"
  | yearly => ascii "YEARLY"

end IcalFreq

inductive IcalWkday
  | sun | mon | tues | wed | thur | fri | sat
  deriving DecidableEq, Repr

namespace IcalWkday

def all : List IcalWkday := [sun, mon, tues, wed, thur, fri, sat]

def name : IcalWkday → Bytes
  | sun => ascii "SU"
  | mon => ascii "MO"
  | tues => ascii "TU"
  | wed => ascii "WE"
  | thur => ascii "TH"
  | fri => ascii "FR"
  | sat => ascii "SA"

end IcalWkday

structure IcalNode where
  name : Bytes
  param : Option Bytes
  val : Bytes
  deriving DecidableEq, Repr

structure IcalWk where
  wk : Int
  wkday : IcalWkday
  deriving DecidableEq, Repr

inductive IcalDateT
  | unset | datetimeutc | datetime | date
  deriving DecidableEq, Repr

structure IcalTm where
  tm : Int
  type : IcalDateT
  deriving DecidableEq, Repr

def IcalTm.zero : IcalTm := ⟨0, .unset⟩

structure IcalDur where
  sign : Int
  day : Nat
  week : Nat
  hour : Nat
  min : Nat
  sec : Nat
  deriving DecidableEq, Repr

def IcalDur.zero : IcalDur := ⟨0, 0, 0, 0, 0, 0⟩

structure IcalRrule where
  set : Bool
  freq : Option IcalFreq
  until_ : IcalTm
  count : Nat
  interval : Nat
  bhr : List Nat
  bmin : List Nat
  bmnd : List Int
  bmon : List Nat
  bsec : List Nat
  bsp : List Int
  bwkd : List IcalWk
  bwkn : List Int
  byrd : List Int
  wkst : Option IcalWkday
  deriving DecidableEq, Repr

def IcalRrule.zero : IcalRrule where
  set := false
  freq := none
  until_ := .zero
  count := 0
  interval := 0
  bhr := []
  bmin := []
  bmnd := []
  bmon := []
  bsec := []
  bsp := []
  bwkd := []
  bwkn := []
  byrd := []
  wkst := none

structure IcalTz where
  type : IcalTzType
  tzfrom : Int
  tzto : Int
  dtstart : IcalTm
  rrule : IcalRrule
  deriving DecidableEq, Repr

def IcalTz.new (type : IcalTzType) : IcalTz := ⟨type, 0, 0, .zero, .zero⟩

structure IcalTime where
  tz : Option Nat
  time : IcalTm
  tzstr : Option Bytes
  deriving DecidableEq, Repr

def IcalTime.zero : IcalTime := ⟨none, .zero, none⟩

structure IcalComp where
  type : IcalType
  created : IcalTm
  lastmod : IcalTm
  dtstamp : IcalTm
  rrule : IcalRrule
  dtstart : IcalTime
  dtend : IcalTime
  duration : IcalDur
  tzs : List IcalTz
  uid : Option Bytes
  tzid : Option Bytes
  deriving DecidableEq, Repr

/-- A freshly allocated component: every field but the type is zero. -/
def IcalComp.new (type : IcalType) : IcalComp where
  type := type
  created := .zero
  lastmod := .zero
  dtstamp := .zero
  rrule := .zero
  dtstart := .zero
  dtend := .zero
  duration := .zero
  tzs := []
  uid := none
  tzid := none

structure Ical where
  bits : Nat
  first : List IcalNode
  comps : IcalType → List IcalComp

def Ical.empty : Ical := ⟨0, [], fun _ => []⟩

/-- Where a component sits: its type's chain and its place in it. -/
structure CompRef where
  type : IcalType
  idx : Nat
  deriving DecidableEq, Repr

namespace Ical

def alloc (type : IcalType) (p : Ical) : Ical :=
  { p with
    bits := p.bits ||| 1 <<< type.code
    comps := fun t => if t = type then p.comps t ++ [.new type] else p.comps t }

def comp? (c : CompRef) (p : Ical) : Option IcalComp := (p.comps c.type)[c.idx]?

def modifyComp (c : CompRef) (f : IcalComp → IcalComp) (p : Ical) : Ical :=
  { p with comps := fun t => if t = c.type then (p.comps t).modify c.idx f else p.comps t }

theorem comp?_alloc (type : IcalType) (p : Ical) (d : CompRef) :
    (p.alloc type).comp? d = if d = ⟨type, (p.comps type).length⟩ then some (.new type) else p.comp? d := by
  obtain ⟨t, k⟩ := d
  unfold comp? alloc
  by_cases ht : t = type
  · subst ht
    by_cases hk : k = (p.comps t).length
    · simp [hk]
    · rcases Nat.lt_or_gt_of_ne hk with hlt | hgt
      · simp [hk, List.getElem?_append_left hlt]
      · have hlen : (p.comps t ++ [IcalComp.new t]).length ≤ k := by
          rw [List.length_append, List.length_singleton]
          omega
        simp only [↓reduceIte, CompRef.mk.injEq, hk, and_false]
        rw [List.getElem?_eq_none hlen, List.getElem?_eq_none hgt.le]
  · simp [ht]

theorem comp?_modifyComp (c : CompRef) (f : IcalComp → IcalComp) (p : Ical) (d : CompRef) :
    (p.modifyComp c f).comp? d = if d = c then (p.comp? c).map f else p.comp? d := by
  obtain ⟨t, k⟩ := d
  obtain ⟨u, j⟩ := c
  unfold comp? modifyComp
  by_cases ht : t = u
  · subst ht
    by_cases hk : k = j
    · subst hk
      simp
    · simp [hk, Ne.symm hk]
  · simp [ht]

@[simp] theorem alloc_first (type : IcalType) (p : Ical) : (p.alloc type).first = p.first := rfl
@[simp] theorem modifyComp_first (c : CompRef) (f : IcalComp → IcalComp) (p : Ical) :
    (p.modifyComp c f).first = p.first := rfl

end Ical

end Kcaldav
