import Kcaldav.Library.Fallible
import Kcaldav.Ical.Types

/-! # Property values

The value parsers of `ical.c`. They read the file name and the line number of
the parse, record the first error message and see `errno`; nothing else of the
parse is in their reach, so they run over `Diag` alone. A parser that is handed
the node's own buffer returns what it leaves there.
-/
namespace Kcaldav
open CString

/-- `struct tm`, as far as the parsers fill it. -/
structure Tm where
  year : Int
  mon : Int
  mday : Int
  hour : Int
  min : Int
  sec : Int
  deriving DecidableEq, Repr

/-- The C library under the parser. `errnoAt` is what is left of an `ERANGE` in
`errno` when the next number conversion reads it: the calls in between may
overwrite it, and none of them sets it. -/
structure Libc where
  mktime : Tm → Int
  errnoAt : Bool → Bool
  errnoAt_false : errnoAt false = false

/-- Days since the epoch of a day in the proleptic Gregorian calendar. -/
def daysFromCivil (year mon mday : Int) : Int :=
  let y := if mon ≤ 2 then year - 1 else year
  let era := y.fdiv 400
  let yoe := y - era * 400
  let doy := (153 * (if mon > 2 then mon - 3 else mon + 9) + 2) / 5 + mday - 1
  era * 146097 + yoe * 365 + yoe / 4 - yoe / 100 + doy - 719468

/-- A C library in UTC that leaves `errno` alone. -/
def Libc.utc : Libc where
  mktime tm :=
    daysFromCivil (tm.year + 1900 + tm.mon.fdiv 12) (tm.mon.fmod 12 + 1) tm.mday * 86400 +
      tm.hour * 3600 + tm.min * 60 + tm.sec
  errnoAt e := e
  errnoAt_false := rfl

/-- The diagnostic part of the parse state. `erange` says that `errno` is `ERANGE`. -/
structure Diag where
  file : String
  line : Nat
  er : Option String
  erange : Bool
  deriving DecidableEq, Repr

abbrev Value (α : Type) := Fallible Diag α

namespace Diag

/-- The text of `ical_err`. -/
def message (d : Diag) (line : Nat) (msg : String) : String :=
  if line > 0 then d.file ++ ":" ++ toString line ++ ": " ++ msg else d.file ++ ": " ++ msg

end Diag

/-- `ical_err` at a given line: the first message stays. -/
def icalErrAt (line : Nat) (msg : String) : Value Unit := Fallible.modify fun d =>
  { d with er := some (d.er.getD (d.message line msg)) }

def icalErr (msg : String) : Value Unit := fun d => icalErrAt d.line msg d

/-- Report an error and return zero. -/
def icalFail {α : Type} (msg : String) : Value α := do
  icalErr msg
  Fallible.fail

def icalFailAt {α : Type} (line : Nat) (msg : String) : Value α := do
  icalErrAt line msg
  Fallible.fail

/-- Report an error where the called parser returned zero, and return zero too. -/
def orReport {α : Type} (x : Value α) (msg : String) : Value α :=
  x.orElse (icalFail msg)

variable (C : Libc)

/-! ## Dates -/

def tmOf (yr mon day hr min sec : BitVec 32) : Tm where
  year := (yr - 1900#32).toInt
  mon := (mon - 1#32).toInt
  mday := day.toInt
  hour := hr.toInt
  min := min.toInt
  sec := sec.toInt

def icalDatetimeDate (cp : Bytes) : Option (Tm × IcalDateT) := do
  let (yr, cp) ← scanUInt 4 cp
  let (mon, cp) ← scanUInt 2 cp
  let (day, _) ← scanUInt 2 cp
  return (tmOf yr mon day 0 0 0, .date)

def icalDatetimeDatetimeUtc (cp : Bytes) : Option (Tm × IcalDateT) := do
  let (yr, cp) ← scanUInt 4 cp
  let (mon, cp) ← scanUInt 2 cp
  let (day, cp) ← scanUInt 2 cp
  let (t, cp) ← scanChar cp
  let (hr, cp) ← scanUInt 2 cp
  let (min, cp) ← scanUInt 2 cp
  let (sec, cp) ← scanUInt 2 cp
  let (z, _) ← scanChar cp
  if t = 84 ∧ z = 90 then return (tmOf yr mon day hr min sec, .datetimeutc) else none

def icalDatetimeDatetime (cp : Bytes) : Option (Tm × IcalDateT) := do
  let (yr, cp) ← scanUInt 4 cp
  let (mon, cp) ← scanUInt 2 cp
  let (day, cp) ← scanUInt 2 cp
  let (t, cp) ← scanChar cp
  let (hr, cp) ← scanUInt 2 cp
  let (min, cp) ← scanUInt 2 cp
  let (sec, _) ← scanUInt 2 cp
  if t = 84 then return (tmOf yr mon day hr min sec, .datetime) else none

def icalDatetime (cp : Bytes) : Value IcalTm :=
  let rc :=
    if cp.length = 16 then icalDatetimeDatetimeUtc cp
    else if cp.length = 15 then icalDatetimeDatetime cp
    else if cp.length = 8 then icalDatetimeDate cp
    else none
  match rc with
  | none => icalFail "bad date/date-time"
  | some (tmm, dt) => pure ⟨C.mktime tmm, dt⟩

/-- The value of the `TZID` parameter of `len` bytes at `start`, less one pair of
quotes. The quotes are tested at the first byte of the value and the last byte of
the parameter; where these are one byte, `size_t` wraps and the copy runs on to the
end of the string. -/
def icalUnquote (start : Bytes) (len : Nat) : Bytes :=
  if start[5]? = some 34 ∧ start[len - 1]? = some 34 then
    (start.drop 6).take ((len + 2 ^ 64 - 2 - 5) % 2 ^ 64)
  else (start.drop 5).take (len - 5)

/-- One statement of the parameter scan of `ical_tzdatetime`: `len` bytes at `start`. -/
def icalTzParam (dtret : IcalDateT) (tzstr : Option Bytes) (start : Bytes) (len : Nat) :
    Value (Option Bytes) :=
  if len = 0 then pure tzstr
  else if len = 15 ∧ strcaseEq (start.take 15) (ascii "VALUE=DATE-TIME") then
    if dtret = .date then icalFail "expected date-time but found date" else pure tzstr
  else if len = 10 ∧ strcaseEq (start.take 10) (ascii "VALUE=DATE") then
    if dtret ≠ .date then icalFail "expected datebut found date-time" else pure tzstr
  else if len < 6 ∨ !strcaseEq (start.take 5) (ascii "TZID=") then pure tzstr
  else if dtret = .datetimeutc then
    icalFail "TZID is incompatible with UTC designator in date-time"
  else if tzstr.isSome then icalFail "duplicate TZID"
  else pure (some (icalUnquote start len))

/-- The scan itself; every round but the last moves past a separator, so the length
of the parameters bounds the rounds. -/
def icalTzParams (dtret : IcalDateT) : Nat → Option Bytes → Bytes → Value (Option Bytes)
  | _, tzstr, [] => pure tzstr
  | 0, tzstr, _ :: _ => pure tzstr
  | fuel + 1, tzstr, b :: bs => do
    let len := ((b :: bs).takeWhile (· ≠ 59)).length
    icalTzParams dtret fuel (← icalTzParam dtret tzstr (b :: bs) len) ((b :: bs).drop (len + 1))

def icalTzdatetime (np : IcalNode) : Value IcalTime := do
  let time ← icalDatetime C np.val
  match np.param with
  | none => return ⟨none, time, none⟩
  | some param => return ⟨none, time, ← icalTzParams time.type param.length none param⟩

def icalLocaldatetime (cp : Bytes) : Value IcalTm :=
  orReport (do
    let v ← icalDatetime C cp
    Fallible.ensure (v.type = .datetime)
    return v) "bad local date-time"

def icalUtcdatetime (cp : Bytes) : Value IcalTm :=
  orReport (do
    let v ← icalDatetime C cp
    Fallible.ensure (v.type = .datetimeutc)
    return v) "bad UTC date-time"

/-! ## Numbers -/

/-- Leave `errno` as a conversion leaves it, and read it back. -/
def convErrno (erange : Bool) : Value Bool := fun d =>
  let e := C.errnoAt d.erange || erange
  (some e, { d with erange := e })

/-- The checks `ical_long` and `ical_ulong` share: the whole string is a number, no
extreme value with `ERANGE` in `errno`, and within the bounds. -/
def icalNumber {α : Type} (r : Converted α) (extreme inBounds : α → Bool) (msg : String) : Value α := do
  let errno ← convErrno C r.erange
  if !r.moved || !r.rest.isEmpty then icalFail msg
  else if extreme r.value && errno then icalFail msg
  else if !inBounds r.value then icalFail msg
  else return r.value

def icalLong (cp : Bytes) (min max : Int) : Value Int :=
  icalNumber C (strtol cp) (fun v => v = LONG_MAX || v = LONG_MIN) (fun v => min ≤ v && v ≤ max) "bad long"

def icalUlong (cp : Bytes) (min max : Nat) : Value Nat :=
  icalNumber C (strtoul cp) (fun v => v = ULONG_MAX) (fun v => min ≤ v && v ≤ max) "bad unsigned long"

/-- A comma-separated list, element after element. -/
def icalList {α : Type} (one : Bytes → Value α) : List α → List Bytes → Value (List α)
  | v, [] => pure v
  | v, tok :: toks => do icalList one (v ++ [← one tok]) toks

def icalLlong (v : List Int) (cp : Bytes) (min max : Int) : Value (List Int) :=
  icalList (fun tok => icalLong C tok min max) v (strsep 44 cp)

def icalLulong (v : List Nat) (cp : Bytes) (min max : Nat) : Value (List Nat) :=
  icalList (fun tok => icalUlong C tok min max) v (strsep 44 cp)

/-! ## Week days -/

def icalWkday (cp : Bytes) : Value IcalWkday :=
  match IcalWkday.all.find? fun w => w.name = cp with
  | none => icalFail "unknown weekday"
  | some w => pure w

/-- The optional sign and the one or two digits in front of a week day. -/
def icalWkNumber (cp : Bytes) : Int × Bytes :=
  let (sign, cp) : Int × Bytes := match cp with
    | 45 :: t => (-1, t)
    | 43 :: t => (1, t)
    | t => (1, t)
  match cp with
  | a :: b :: t =>
    if isDigit a && isDigit b then (sign * (10 * (a.toNat - 48) + (b.toNat - 48) : Nat), t)
    else if isDigit a then (sign * (a.toNat - 48 : Nat), b :: t)
    else (0, cp)
  | [a] => if isDigit a then (sign * (a.toNat - 48 : Nat), []) else (0, cp)
  | [] => (0, [])

def icalWk (cp : Bytes) : Value IcalWk := do
  return ⟨(icalWkNumber cp).1, ← icalWkday (icalWkNumber cp).2⟩

def icalWklist (v : List IcalWk) (cp : Bytes) : Value (List IcalWk) :=
  icalList icalWk v (strsep 44 cp)

/-! ## Recurrence rules -/

/-- One parameter of a recurrence rule, before the message every failing
parameter ends with. -/
def icalRruleParamInner (vp : IcalRrule) (key v : Bytes) : Value IcalRrule :=
  if key = ascii "FREQ" then
    match IcalFreq.all.find? fun f => f.name = v with
    | some f => pure { vp with freq := some f }
    | none => icalFail "malformed \"FREQ\""
  else if key = ascii "UNTIL" then
    orReport (do return { vp with until_ := ← icalDatetime C v }) "malformed \"UNTIL\""
  else if key = ascii "COUNT" then
    orReport (do return { vp with count := ← icalUlong C v 0 ULONG_MAX }) "malformed \"COUNT\""
  else if key = ascii "INTERVAL" then
    orReport (do return { vp with interval := ← icalUlong C v 0 ULONG_MAX }) "malformed \"INTERVAL\""
  else if key = ascii "BYDAY" then
    orReport (do return { vp with bwkd := ← icalWklist vp.bwkd v }) "malformed \"BYDAY\""
  else if key = ascii "BYHOUR" then
    orReport (do return { vp with bhr := ← icalLulong C vp.bhr v 0 23 }) "malformed \"BYHOUR\""
  else if key = ascii "BYMINUTE" then
    orReport (do return { vp with bmin := ← icalLulong C vp.bmin v 0 59 }) "malformed \"BYMINUTE\""
  else if key = ascii "BYMONTHDAY" then
    orReport (do return { vp with bmnd := ← icalLlong C vp.bmnd v 1 31 }) "malformed \"BYMONTHDAY\""
  else if key = ascii "BYMONTH" then
    orReport (do return { vp with bmon := ← icalLulong C vp.bmon v 1 12 }) "malformed \"BYMONTH\""
  else if key = ascii "BYSECOND" then
    orReport (do return { vp with bsec := ← icalLulong C vp.bsec v 1 59 }) "malformed \"BYSECOND\""
  else if key = ascii "BYSETPOS" then
    orReport (do return { vp with bsp := ← icalLlong C vp.bsp v (-366) 366 }) "malformed \"BYSETPOS\""
  else if key = ascii "BYWEEKNO" then
    orReport (do return { vp with bwkn := ← icalLlong C vp.bwkn v 1 53 }) "malformed \"BYWEEKNO\""
  else if key = ascii "BYYEARDAY" then
    orReport (do return { vp with byrd := ← icalLlong C vp.byrd v 1 366 }) "malformed \"BYYEARDAY\""
  else if key = ascii "WKST" then
    orReport (do return { vp with wkst := some (← icalWkday v) }) "malformed \"WKST\""
  else icalFail "unknown property"

def icalRruleParam (vp : IcalRrule) (key v : Bytes) : Value IcalRrule :=
  orReport (icalRruleParamInner C vp key v) "malformed \"RRULE\""

def icalRruleParams : IcalRrule → List Bytes → Value IcalRrule
  | vp, [] => pure vp
  | vp, p :: ps =>
    match strchr 61 p with
    | none => icalFail "bad \"RRULE\" syntax"
    | some (key, v) => do icalRruleParams (← icalRruleParam C vp key v) ps

def icalRrule (vp : IcalRrule) (cp : Bytes) : Value IcalRrule := do
  let vp ← icalRruleParams C { vp with set := true } (strsep 59 cp)
  if vp.freq.isNone then icalFail "missing \"FREQ\"" else return vp

/-! ## Durations -/

/-- What one designator assigns. -/
def icalDurationSet (v : IcalDur) (type : UInt8) (n : Nat) : Option IcalDur :=
  if type = 68 then some { v with day := n }
  else if type = 87 then some { v with week := n }
  else if type = 72 then some { v with hour := n }
  else if type = 77 then some { v with min := n }
  else if type = 83 then some { v with sec := n }
  else none

/-- The scan of `ical_duration`: `front` is the buffer before the cursor, with
the bytes already overwritten, `cp` the bytes from the cursor on. The result is
the buffer and the cursor when the loop ends, and the fields set so far. -/
def icalDurationLoop : Nat → IcalDur → Bytes → Bytes → Value (IcalDur × Bytes × Bytes)
  | 0, v, front, cp => pure (v, front, cp)
  | _ + 1, v, front, [] => pure (v, front, [])
  | fuel + 1, v, front, c :: cp =>
    if c = 84 then
      if cp = [] then pure (v, front, c :: cp)
      else icalDurationLoop fuel v (front ++ [c]) cp
    else
      let digits := (c :: cp).takeWhile isDigit
      match (c :: cp).drop digits.length with
      | [] => pure (v, front ++ digits, [])
      | type :: rest =>
        -- the designator is overwritten before the number is converted
        let front := front ++ digits ++ [NUL]
        match icalDurationSet v type 0 with
        | none => pure (v, front, rest)
        | some _ => fun d =>
          match icalUlong C digits 0 ULONG_MAX d with
          | (some n, d) => icalDurationLoop fuel ((icalDurationSet v type n).getD v) front rest d
          | (none, d) => (some ((icalDurationSet v type 0).getD v, front, rest), d)

/-- The sign after the `P`: its value, the bytes passed with it and those after it. -/
def icalDurationSign : Bytes → Int × Bytes × Bytes
  | 45 :: cp => (-1, [80, 45], cp)
  | 43 :: cp => (1, [80, 43], cp)
  | cp => (1, [80], cp)

/-- The duration, and the bytes `ical_duration` leaves in the node's buffer. -/
def icalDuration (val : Bytes) : Value (IcalDur × Bytes) :=
  match val with
  | 80 :: cp =>
    let (sign, front, cp) := icalDurationSign cp
    if cp = [] then icalFail "empty duration"
    else do
      let (v, front, cp) ← icalDurationLoop C cp.length { IcalDur.zero with sign := sign } front cp
      if cp = [] then return (v, front ++ cp) else icalFail "bad duration"
  | _ => icalFail "bad duration"

/-! ## Offsets and strings -/

def icalUtcOffs (cp : Bytes) : Value Int :=
  if cp.length ≠ 5 ∧ cp.length ≠ 7 then icalFail "bad UTC-offset size"
  else if !(cp.drop 1).all isDigit then icalFail "non-digit UTC-offset character"
  else if cp.head? ≠ some 45 ∧ cp.head? ≠ some 43 then icalFail "bad UTC-offset sign extension"
  else
    let digit i : Int := ((cp.getD i 48).toNat : Int) - 48
    let hour := 10 * digit 1 + digit 2
    let min := 10 * digit 3 + digit 4
    let sec := if cp.length = 7 then 10 * digit 5 + digit 6 else 0
    if hour ≥ 24 then icalFail ("bad hour: " ++ toString hour)
    else if min ≥ 60 then icalFail ("bad minute: " ++ toString min)
    else if sec ≥ 60 then icalFail ("bad second: " ++ toString sec)
    else
      let v := sec + min * 60 + hour * 3600
      pure (if cp.head? = some 45 then -v else v)

def icalString (cp : Bytes) : Value Bytes :=
  if cp = [] then icalFail "zero-length string" else pure cp

end Kcaldav
