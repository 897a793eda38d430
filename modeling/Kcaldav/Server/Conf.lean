import Kcaldav.Library.Buffer
import Kcaldav.Library.Numeral

/-! # The configuration file

`conf.c`: the lines of the file, the stripping of comments and white space, which
edits the line in place, and the settings.
-/
namespace Kcaldav
open CString

abbrev HASH : UInt8 := 35
abbrev EQUALS : UInt8 := 61
abbrev BACKSLASH : UInt8 := 92

structure Conf where
  logfile : Option Bytes
  verbose : Int
  deriving DecidableEq, Repr

/-- What becomes of opening the file: no name is configured or there is no such file,
`fopen` fails, or there is content to read. The content comes with whether reading or
closing it fails. -/
inductive ConfFile
  | absent
  | failed
  | opened (content : Bytes) (error : Bool)
  deriving DecidableEq, Repr

/-! ## Lines -/

/-- What the calls of `getline` return, the newline of a line included. -/
def getlines : Bytes → List Bytes
  | [] => []
  | b :: s =>
    if b = LF then [LF] :: getlines s
    else match getlines s with
      | [] => [[b]]
      | line :: lines => (b :: line) :: lines

/-- Strip everything after the first hash without a backslash. A hash with one is moved
over it; neither the length nor the index changes then. -/
def confHash : Nat → Nat → Bytes → Nat → Option (Bytes × Nat)
  | 0, _, _, _ => none
  | fuel + 1, i, line, linelen =>
    if byteAt line i = NUL then some (line, linelen)
    else if byteAt line i ≠ HASH then confHash fuel (i + 1) line linelen
    else if i = 0 ∨ byteAt line (i - 1) ≠ BACKSLASH then some (line.set i NUL, i)
    else confHash fuel i (memmove line (i - 1) i (linelen - i)) linelen

/-- A line when comment and trailing white space have been stripped: the buffer and its length. -/
def confStrip (line : Bytes) : Option (Bytes × Nat) :=
  (confHash (2 * line.length + 1) 0 (line ++ [NUL]) line.length).map fun p => stripTrailing p.1 p.2

/-! ## Settings -/

/-- Results of `conf_parse_keyval`: -1, 0 and 1. -/
inductive Keyval
  | failure
  | nothing
  | pair (key val : Bytes)
  deriving DecidableEq, Repr

def confParseKeyval (buf : Bytes) : Keyval :=
  match strchr EQUALS (buf.dropWhile isSpace) with
  | none => .failure
  | some ([], _) => .failure
  | some (k :: key, val) =>
    if val.dropWhile isSpace = [] then .nothing
    else .pair (k :: key.rdropWhile isSpace) (val.dropWhile isSpace)

inductive Errval
  | invalid | tooSmall | tooLarge
  deriving DecidableEq, Repr

def strtonum (numstr : Bytes) (minval maxval : Int) : Int × Option Errval :=
  if minval > maxval then (0, some .invalid)
  else
    let ll := strtol numstr
    if !ll.moved || ll.rest ≠ [] then (0, some .invalid)
    else if (ll.value = LONG_MIN && ll.erange) || ll.value < minval then (0, some .tooSmall)
    else if (ll.value = LONG_MAX && ll.erange) || ll.value > maxval then (0, some .tooLarge)
    else (ll.value, none)

/-- A key and its value, and whether the loop goes on. -/
def confSet (conf : Conf) (key val : Bytes) : Conf × Bool :=
  if key = ascii "logfile" then ({ conf with logfile := some val }, true)
  else if key = ascii "debug" then
    let n := strtonum val 0 10
    ({ conf with verbose := n.1 }, n.2 = none)
  else (conf, false)

/-- What is done with a stripped line of this length. -/
def confLine (conf : Conf) (text : Bytes) (linelen : Nat) : Conf × Bool :=
  if linelen = 0 then (conf, true)
  else match confParseKeyval text with
    | .failure => (conf, false)
    | .nothing => (conf, true)
    | .pair key val => confSet conf key val

def confLoop : Conf → List Bytes → Option Conf
  | conf, [] => some conf
  | conf, line :: lines =>
    (confStrip line).bind fun p =>
      let r := confLine conf (cstr p.1) p.2
      if r.2 then confLoop r.1 lines else some r.1

/-- The return code and the configuration; nothing where a loop has not ended. -/
def confRead : ConfFile → Option (Int × Conf)
  | .absent => some (1, ⟨none, 0⟩)
  | .failed => some (-1, ⟨none, 0⟩)
  | .opened content error =>
    (confLoop ⟨none, 0⟩ (getlines content)).map fun conf => (if error then 0 else 1, conf)

/-! ## Specification -/

/-- The rest of a line up to its first hash without a backslash in front of it. -/
def uncommented (prev : UInt8) : Bytes → Bytes
  | [] => []
  | c :: s => if c = HASH ∧ prev ≠ BACKSLASH then [] else c :: uncommented c s

/-- Every hash with a backslash in front of it replaces the two. -/
def unescaped : Bytes → Bytes
  | [] => []
  | [c] => [c]
  | c :: d :: s => if c = BACKSLASH ∧ d = HASH then HASH :: unescaped s else c :: unescaped (d :: s)

/-- What is to be passed on of a line. -/
def stripped (line : Bytes) : Bytes := (unescaped (uncommented NUL line)).rdropWhile isSpace

end Kcaldav
