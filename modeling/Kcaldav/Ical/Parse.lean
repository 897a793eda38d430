import Kcaldav.Ical.Line
import Kcaldav.Ical.Value

/-! # The calendar parser

`ical_parse` and the two loops under it. Both loops, and the nested components of
the first, read from one source of lines and append to one queue of nodes.
-/
namespace Kcaldav
open CString

/-- The parse state. `buf` is the line buffer as a C string, which an empty line
leaves as it was. -/
structure IcalParse (ρ : Type) where
  src : ρ
  buf : Option Bytes
  diag : Diag
  ical : Ical

abbrev Parse (ρ α : Type) := Fallible (IcalParse ρ) α

variable (C : Libc) {ρ : Type} [LineReader ρ]

/-- Run a value parser within the parse. -/
def value {α : Type} (x : Value α) : Parse ρ α :=
  Fallible.zoom IcalParse.diag (fun d p => { p with diag := d }) x

def modifyIcal (f : Ical → Ical) : Parse ρ Unit := Fallible.modify fun p => { p with ical := f p.ical }

/-! ## Lines and nodes -/

/-- There are bytes left to read. -/
def icalMore : Parse ρ Bool := Fallible.gets fun p => (LineReader.read p.src).isSome

/-- Split the line at the first colon, and what is before it at the first semicolon. -/
def splitLine (buf : Bytes) : Option IcalNode :=
  (strchr 58 buf).map fun (name, val) =>
    match strchr 59 name with
    | none => ⟨name, none, val⟩
    | some (name, param) => ⟨name, some param, val⟩

def IcalNode.isBegin (np : IcalNode) : Bool := strcaseEq (ascii "BEGIN") np.name
def IcalNode.isEnd (np : IcalNode) : Bool := strcaseEq (ascii "END") np.name

/-- The state once a line has been copied to the line buffer. -/
def fillBuf (p : IcalParse ρ) : IcalParse ρ :=
  match LineReader.read p.src with
  | none => p
  | some (l, src) =>
    { p with
      src := src
      buf := if l.text = [] then p.buf else some (cstr l.text)
      diag := { p.diag with line := p.diag.line + l.phys } }

def icalLine : Parse ρ IcalNode := fun p =>
  let p := fillBuf p
  match p.buf with
  | none => value (icalFail "empty line") p
  | some buf =>
    match splitLine buf with
    | none => value (icalFail "no value for line") p
    | some np => (some np, { p with buf := some np.name })

def icalnodeAlloc (np : IcalNode) : Parse ρ Unit :=
  modifyIcal fun i => { i with first := i.first ++ [np] }

/-- The value of the last node, after a parser has written into it. -/
def icalnodeVal (val : Bytes) : Parse ρ Unit :=
  modifyIcal fun i => { i with first := i.first.modifyLast fun np => { np with val := val } }

/-- `ical_line` and `icalnode_alloc`, as every loop calls them. -/
def icalNext : Parse ρ IcalNode := do
  let np ← icalLine
  icalnodeAlloc np
  return np

/-! ## Time zone components -/

def icalTzField (np : IcalNode) (c : IcalTz) : Value IcalTz :=
  if strcaseEq np.name (ascii "dtstart") then
    do return { c with dtstart := ← icalLocaldatetime C np.val }
  else if strcaseEq np.name (ascii "tzoffsetfrom") then
    do return { c with tzfrom := ← icalUtcOffs np.val }
  else if strcaseEq np.name (ascii "tzoffsetto") then
    do return { c with tzto := ← icalUtcOffs np.val }
  else if strcaseEq np.name (ascii "rrule") then
    do return { c with rrule := ← icalRrule C c.rrule np.val }
  else return c

def icalTzCheck (c : IcalTz) : Value Unit :=
  if c.rrule.set ∧ c.rrule.until_.type ≠ .unset ∧ c.dtstart.type ≠ .unset ∧
      c.rrule.until_.type ≠ c.dtstart.type ∧
      c.rrule.until_.type ≠ (if c.tzto ≠ 0 ∨ c.tzfrom ≠ 0 then .datetimeutc else c.dtstart.type) then
    icalFail "\"RRULE\" \"UNTIL\" not inheriting sub-component time-zone format"
  else pure ()

def icalParsetzLoop (type : IcalTzType) : Nat → IcalTz → Parse ρ IcalTz
  | 0, _ => Fallible.fail
  | fuel + 1, c => do
    if ← icalMore then
      let np ← icalNext
      if np.isEnd then
        if strcaseEq type.name np.val then return c else icalParsetzLoop type fuel c
      else
        let c ← value (icalTzField C np c)
        icalParsetzLoop type fuel c
    else return c

/-- Append to the list of the last of the given number of time zones. -/
def addTz (zones : Nat) (c : IcalTz) : Ical → Ical :=
  Ical.modifyComp ⟨.vtimezone, zones - 1⟩ fun z => { z with tzs := z.tzs ++ [c] }

def icalParsetz (fuel : Nat) (type : IcalTzType) : Parse ρ Unit := do
  let zones ← Fallible.gets fun p => p.ical.comps .vtimezone
  if zones = [] then value (icalFail "repeat \"TIMEZONE\"")
  else
    let c ← icalParsetzLoop C type fuel (.new type)
    value (icalTzCheck c)
    modifyIcal (addTz zones.length c)

/-! ## Components -/

/-- One property of a component: the component with it, and the bytes the value
parser leaves in the node's buffer. -/
def icalCompField (np : IcalNode) (c : IcalComp) : Value (IcalComp × Bytes) :=
  if strcaseEq np.name (ascii "uid") then
    do return ({ c with uid := some (← icalString np.val) }, np.val)
  else if strcaseEq np.name (ascii "created") then
    do return ({ c with created := ← icalUtcdatetime C np.val }, np.val)
  else if strcaseEq np.name (ascii "last-modified") then
    do return ({ c with lastmod := ← icalUtcdatetime C np.val }, np.val)
  else if strcaseEq np.name (ascii "dtstamp") then
    do return ({ c with dtstamp := ← icalUtcdatetime C np.val }, np.val)
  else if strcaseEq np.name (ascii "dtstart") then
    do return ({ c with dtstart := ← icalTzdatetime C np }, np.val)
  else if strcaseEq np.name (ascii "dtend") then
    do return ({ c with dtend := ← icalTzdatetime C np }, np.val)
  else if strcaseEq np.name (ascii "duration") then
    do
      let (v, buf) ← icalDuration C np.val
      return ({ c with duration := v }, cstr buf)
  else if strcaseEq np.name (ascii "tzid") then
    do return ({ c with tzid := some (← icalString np.val) }, np.val)
  else if strcaseEq np.name (ascii "rrule") then
    do return ({ c with rrule := ← icalRrule C c.rrule np.val }, np.val)
  else return (c, np.val)

/-- The checks at the end of a component that began at the given line. -/
def icalCompCheck (line : Nat) (c : IcalComp) : Value Unit :=
  if c.rrule.set ∧ c.rrule.until_.type ≠ .unset ∧ c.dtstart.time.type ≠ .unset ∧
      c.rrule.until_.type ≠ (if c.dtstart.tzstr.isSome then .datetimeutc else c.dtstart.time.type) then
    icalFail "\"RRULE\" \"UNTIL\" not inheriting component time-zone format"
  else match c.type with
    | .vevent =>
      if c.uid.isNone then icalFailAt line "missing \"UID\""
      else if c.dtstart.time.tm = 0 then icalFailAt line "missing \"DTSTART\""
      else pure ()
    | .vtimezone => if c.tzid.isNone then icalFailAt line "missing \"TZID\"" else pure ()
    | _ => pure ()

/-- The component a reference stands for; the loops only use references to
components they have allocated. -/
def compAt (c : CompRef) (i : Ical) : IcalComp := (i.comp? c).getD (.new c.type)

def icalCompLine (c : CompRef) (np : IcalNode) : Parse ρ Unit := do
  let comp ← Fallible.gets fun p => compAt c p.ical
  let (comp, val) ← value (icalCompField C np comp)
  modifyIcal (Ical.modifyComp c fun _ => comp)
  icalnodeVal val

/-- `ical_parsecomp` around the loop over the lines of the component. -/
def icalParsecompWith (loop : CompRef → Parse ρ Unit) (type : IcalType) : Parse ρ Unit := do
  let c ← Fallible.gets fun p => CompRef.mk type (p.ical.comps type).length
  modifyIcal (Ical.alloc type)
  let line ← Fallible.gets fun p => p.diag.line
  loop c
  let comp ← Fallible.gets fun p => compAt c p.ical
  value (icalCompCheck line comp)

def icalTypeOf (val : Bytes) : Option IcalType := IcalType.all.find? fun t => strcaseEq t.name val
def icalTzTypeOf (val : Bytes) : Option IcalTzType := IcalTzType.all.find? fun t => strcaseEq t.name val

/-- One line of a component; `loop` goes on with the lines after it. -/
def icalCompNode (loop : CompRef → Parse ρ Unit) (fuel : Nat) (c : CompRef) (np : IcalNode) : Parse ρ Unit :=
  if np.isBegin then
    match icalTypeOf np.val, icalTzTypeOf np.val with
    | some tt, _ => do
      icalParsecompWith loop tt
      loop c
    | none, some tz => do
      icalParsetz C fuel tz
      loop c
    | none, none => loop c
  else if np.isEnd then
    if strcaseEq c.type.name np.val then pure () else loop c
  else do
    icalCompLine C c np
    loop c

def icalParsecompLoop : Nat → CompRef → Parse ρ Unit
  | 0, _ => Fallible.fail
  | fuel + 1, c => do
    if ← icalMore then
      let np ← icalNext
      icalCompNode C (icalParsecompLoop fuel) fuel c np
    else return ()

def icalParsecomp (fuel : Nat) (type : IcalType) : Parse ρ Unit :=
  icalParsecompWith (icalParsecompLoop C fuel) type

/-! ## Whole files -/

/-- Bytes as they stand in a message. -/
def textOf (b : Bytes) : String := String.ofList (b.map fun c => Char.ofNat c.toNat)

def icalPostparseTz (zones : List IcalComp) (tm : IcalTime) : Value IcalTime :=
  match tm.tzstr with
  | none => pure tm
  | some tzstr =>
    match zones.findIdx? fun z => strcaseEq (z.tzid.getD []) tzstr with
    | some i => pure { tm with tz := some i }
    | none => icalFailAt 0 ("timezone \"" ++ textOf tzstr ++ "\" not found")

def icalPostparseComps (zones : List IcalComp) : List IcalComp → Value (List IcalComp)
  | [] => pure []
  | c :: cs => do
    let dtstart ← icalPostparseTz zones c.dtstart
    let dtend ← icalPostparseTz zones c.dtend
    return { c with dtstart := dtstart, dtend := dtend } :: (← icalPostparseComps zones cs)

def icalPostparseTypes (zones : List IcalComp) : List IcalType → Ical → Value Ical
  | [], p => pure p
  | t :: ts, p => do
    let cs ← icalPostparseComps zones (p.comps t)
    icalPostparseTypes zones ts { p with comps := fun u => if u = t then cs else p.comps u }

def icalPostparse : Parse ρ Unit := do
  let i ← Fallible.gets IcalParse.ical
  let i ← value (icalPostparseTypes (i.comps .vtimezone) IcalType.all i)
  modifyIcal fun _ => i

/-- The body of `ical_parse`. -/
def icalParseCalendar (fuel : Nat) : Parse ρ Unit := do
  let np ← icalNext
  if !strcaseEq np.name (ascii "BEGIN") then value (icalFail "first statement not \"BEGIN\"")
  else if !strcaseEq np.val (ascii "VCALENDAR") then value (icalFail "first component not \"VCALENDAR\"")
  else
    icalParsecomp C fuel .vcalendar
    icalPostparse

def IcalParse.start (file : Option String) (erange : Bool) (src : ρ) : IcalParse ρ where
  src := src
  buf := none
  diag := ⟨file.getD "<buffer>", 0, none, erange⟩
  ical := .empty

/-- Parse from any source of lines. -/
def icalParseFrom (file : Option String) (erange : Bool) (src : ρ) : Option Unit × IcalParse ρ :=
  icalParseCalendar C (LineReader.size src + 1) (.start file erange src)

/-- `ical_parse` from an offset of a buffer: the calendar and the offset it ends at,
and the error message and `errno` after it. -/
def icalParse (file : Option String) (erange : Bool) (cp : Bytes) (pos : Nat) : Option (Ical × Nat) × Diag :=
  let r := icalParseFrom C file erange (cp.drop pos)
  (r.1.map fun _ => (r.2.ical, cp.length - r.2.src.length), r.2.diag)

end Kcaldav
