import Kcaldav.Library.Markup
import Kcaldav.Server.Href

/-! # The CalDAV parser

`caldav.c` as the handlers that expat calls for a document. The names of elements are
those of a namespace-aware parser, with the namespace and a colon in front; text is
what the default handler is given.
-/
namespace Kcaldav
open CString Markup

inductive CalElem
  | calendarColor | calendarData | calendarDescription | calendarHomeSet | minDateTime | calendarMultiget
  | calendarProxyReadFor | calendarProxyWriteFor | calendarQuery | calendarTimezone | calendarUserAddressSet
  | currentUserPrincipal | currentUserPrivilegeSet | displayname | getcontenttype | getctag | getetag
  | groupMemberSet | groupMembership | href | owner | principalUrl | prop | propertyupdate | propfind
  | quotaAvailableBytes | quotaUsedBytes | resourcetype | scheduleCalendarTransp
  | supportedCalendarComponentSet | supportedCalendarData | max
  deriving DecidableEq, Repr

def calprops : CalElem → CalPropType
  | .calendarColor => .calendarColor
  | .calendarData => .calendarData
  | .calendarDescription => .calendarDescription
  | .calendarHomeSet => .calendarHomeSet
  | .minDateTime => .minDateTime
  | .calendarMultiget => .max
  | .calendarProxyReadFor => .calendarProxyReadFor
  | .calendarProxyWriteFor => .calendarProxyWriteFor
  | .calendarQuery => .max
  | .calendarTimezone => .calendarTimezone
  | .calendarUserAddressSet => .calendarUserAddressSet
  | .currentUserPrincipal => .currentUserPrincipal
  | .currentUserPrivilegeSet => .currentUserPrivilegeSet
  | .displayname => .displayname
  | .getcontenttype => .getcontenttype
  | .getctag => .getctag
  | .getetag => .getetag
  | .groupMemberSet => .groupMemberSet
  | .groupMembership => .groupMembership
  | .href => .max
  | .owner => .owner
  | .principalUrl => .principalUrl
  | .prop => .max
  | .propertyupdate => .max
  | .propfind => .max
  | .quotaAvailableBytes => .quotaAvailableBytes
  | .quotaUsedBytes => .quotaUsedBytes
  | .resourcetype => .resourcetype
  | .scheduleCalendarTransp => .scheduleCalendarTransp
  | .supportedCalendarComponentSet => .supportedCalendarComponentSet
  | .supportedCalendarData => .supportedCalendarData
  | .max => .max

def APPLENS : Bytes := ascii "http://apple.com/ns/ical/:"
def CALDAVNS : Bytes := ascii "urn:ietf:params:xml:ns:caldav:"
def DAVNS : Bytes := ascii "DAV::"
def CALSERVNS : Bytes := ascii "http://calendarserver.org/ns/:"

def calelems : List (CalElem × Bytes) :=
  [(.calendarColor, APPLENS ++ ascii "calendar-color"),
    (.calendarData, CALDAVNS ++ ascii "calendar-data"),
    (.calendarDescription, CALDAVNS ++ ascii "calendar-description"),
    (.calendarHomeSet, CALDAVNS ++ ascii "calendar-home-set"),
    (.minDateTime, CALDAVNS ++ ascii "min-date-time"),
    (.calendarMultiget, CALDAVNS ++ ascii "calendar-multiget"),
    (.calendarProxyReadFor, CALSERVNS ++ ascii "calendar-proxy-read-for"),
    (.calendarProxyWriteFor, CALSERVNS ++ ascii "calendar-proxy-write-for"),
    (.calendarQuery, CALDAVNS ++ ascii "calendar-query"),
    (.calendarTimezone, CALDAVNS ++ ascii "calendar-timezone"),
    (.calendarUserAddressSet, CALDAVNS ++ ascii "calendar-user-address-set"),
    (.currentUserPrincipal, DAVNS ++ ascii "current-user-principal"),
    (.currentUserPrivilegeSet, DAVNS ++ ascii "current-user-privilege-set"),
    (.displayname, DAVNS ++ ascii "displayname"),
    (.getcontenttype, DAVNS ++ ascii "getcontenttype"),
    (.getctag, CALSERVNS ++ ascii "getctag"),
    (.getetag, DAVNS ++ ascii "getetag"),
    (.groupMemberSet, DAVNS ++ ascii "group-member-set"),
    (.groupMembership, DAVNS ++ ascii "group-membership"),
    (.href, DAVNS ++ ascii "href"),
    (.owner, DAVNS ++ ascii "owner"),
    (.principalUrl, DAVNS ++ ascii "principal-URL"),
    (.prop, DAVNS ++ ascii "prop"),
    (.propertyupdate, DAVNS ++ ascii "propertyupdate"),
    (.propfind, DAVNS ++ ascii "propfind"),
    (.quotaAvailableBytes, DAVNS ++ ascii "quota-available-bytes"),
    (.quotaUsedBytes, DAVNS ++ ascii "quota-used-bytes"),
    (.resourcetype, DAVNS ++ ascii "resourcetype"),
    (.scheduleCalendarTransp, CALDAVNS ++ ascii "schedule-calendar-transp"),
    (.supportedCalendarComponentSet, CALDAVNS ++ ascii "supported-calendar-component-set"),
    (.supportedCalendarData, CALDAVNS ++ ascii "supported-calendar-data")]

def calelemFind (name : Bytes) : CalElem :=
  match calelems.find? fun p => p.2 = name with
  | some p => p.1
  | none => .max

/-- A growing buffer, without the spare room at its end. -/
structure Buf where
  buf : Bytes
  sz : Nat
  sz_le : sz ≤ buf.length
  deriving DecidableEq, Repr

def bufappend (p : Buf) (s : Bytes) : Buf :=
  if s.length = 0 then p
  else
    { buf := p.buf.take p.sz ++ (s ++ NUL :: p.buf.drop (p.sz + s.length + 1))
      sz := p.sz + s.length
      sz_le := by
        have hle := p.sz_le
        simp only [List.length_append, List.length_take]
        omega }

/-- The buffer where its length alone is set back. -/
def Buf.reset (p : Buf) : Buf := ⟨p.buf, 0, Nat.zero_le _⟩

/-- Which pair of element handlers is set. -/
inductive Handlers
  | parse | prop | none
  deriving DecidableEq, Repr

structure DavParse where
  p : Option Caldav
  buf : Buf
  handlers : Handlers
  -- whether `parsebuffer` is the default handler
  dflt : Bool

/-- How a handler ends a parse: with an error, or by reading through a null pointer. -/
inductive Halt
  | stopped (er : Bytes)
  | fault
  deriving DecidableEq, Repr

def caldavErr {α : Type} (er : String) : Except Halt α := .error (.stopped (ascii er))

def isHexAlpha (c : UInt8) : Bool := 97 ≤ c && c ≤ 102 || 65 ≤ c && c ≤ 70

def propvalidRgb (cp : Bytes) : Bool :=
  (cp.length = 7 || cp.length = 9) && cp.head? = some 35 && cp.tail.all fun c => isDigit c || isHexAlpha c

def propvalids : CalPropType → Option (Bytes → Bool)
  | .calendarColor => some propvalidRgb
  | _ => none

/-- The name and the namespace of a property: without a colon, everything is namespace. -/
def propName (name : Bytes) : Bytes × Bytes :=
  match strrchr 58 name with
  | some (xmlns, name) => (xmlns, name)
  | none => (name, [])

/-- The entry of a property in a request of a type. -/
def propEntry (type : CalReqType) (name : Bytes) (prop : CalPropType) (cp : Bytes) : CalProp :=
  let entry : CalProp := ⟨prop, (propName name).2, (propName name).1, none, 0⟩
  if prop = .max then entry
  else if type ≠ .propertyupdate then entry
  else
    match propvalids prop with
    | none => { entry with val := some cp }
    | some valid => { entry with val := some cp, valid := if valid cp then 1 else -1 }

def propadd (p : DavParse) (name : Bytes) (prop : CalPropType) (cp : Bytes) : Except Halt DavParse :=
  match p.p with
  | none => caldavErr "property list in unknown request"
  | some c => .ok { p with p := some { c with props := c.props ++ [propEntry c.type name prop cp] } }

def caldavAlloc (p : DavParse) (type : CalReqType) : Except Halt DavParse :=
  match p.p with
  | some _ => caldavErr "request type already exists"
  | none => .ok { p with p := some ⟨type, [], []⟩ }

def parseclose (p : DavParse) (s : Bytes) : Except Halt DavParse :=
  match calelemFind s with
  | .calendarMultiget => .ok { p with dflt := false, handlers := .none }
  | .calendarQuery => .ok { p with dflt := false, handlers := .none }
  | .propertyupdate => .ok { p with dflt := false, handlers := .none }
  | .propfind => .ok { p with dflt := false, handlers := .none }
  | .href =>
    if p.buf.sz = 0 then .ok p
    else
      match p.p with
      | none => .error .fault
      | some c =>
        match hrefDecode (cstr p.buf.buf) with
        | none => caldavErr "bad percent-encoding"
        | some href => .ok { p with p := some { c with hrefs := c.hrefs ++ [cstr href] }, dflt := false }
  | _ => .ok p

def propclose (p : DavParse) (s : Bytes) : Except Halt DavParse :=
  match calelemFind s with
  | .max => .ok p
  | .prop => .ok { p with handlers := .parse }
  | elem =>
    if calprops elem = .max then .ok p
    else do
      let p ← propadd p s (calprops elem) (cstr p.buf.buf)
      return { p with dflt := false }

def parsebuffer (p : DavParse) (s : Bytes) : DavParse :=
  if s.length = 0 then p else { p with buf := bufappend p.buf s }

def propopen (p : DavParse) (s : Bytes) : Except Halt DavParse :=
  match calelemFind s with
  | .max => propadd p s .max []
  | elem =>
    if calprops elem = .max then propadd p s .max []
    else .ok { p with buf := p.buf.reset, dflt := true }

def parseopen (p : DavParse) (s : Bytes) : Except Halt DavParse :=
  match calelemFind s with
  | .calendarQuery => caldavAlloc p .calquery
  | .calendarMultiget => caldavAlloc p .calmultiget
  | .propertyupdate => caldavAlloc p .propertyupdate
  | .propfind => caldavAlloc p .propfind
  | .href => .ok { p with buf := p.buf.reset, dflt := true }
  | .prop => .ok { p with handlers := .prop }
  | _ => .ok p

/-- One call of expat into the handlers that are set. -/
def DavParse.step (p : DavParse) : Event Bytes UInt8 → Except Halt DavParse
  | .start s =>
    match p.handlers with
    | .parse => parseopen p s
    | .prop => propopen p s
    | .none => .ok p
  | .text t => .ok (if p.dflt then parsebuffer p t else p)
  | .close s =>
    match p.handlers with
    | .parse => parseclose p s
    | .prop => propclose p s
    | .none => .ok p

def DavParse.init : DavParse := ⟨none, bufappend ⟨[], 0, le_rfl⟩ [SP], .parse, false⟩

/-- The request of a well-formed document, from the events of it. -/
def caldavParse (es : List (Event Bytes UInt8)) : Except Halt (Option Caldav) :=
  (run DavParse.step es .init).map (·.p)

/-! ## What a handler looks at in a name -/

/-- What the name of an element means to the handlers. -/
inductive Role
  | request (type : CalReqType)
  | href
  | prop
  | known (prop : CalPropType)
  | other
  deriving DecidableEq, Repr

def role (name : Bytes) : Role :=
  match calelemFind name with
  | .calendarQuery => .request .calquery
  | .calendarMultiget => .request .calmultiget
  | .propertyupdate => .request .propertyupdate
  | .propfind => .request .propfind
  | .href => .href
  | .prop => .prop
  | elem => if calprops elem = .max then .other else .known (calprops elem)

namespace DavParse
variable (p : DavParse) (n : Bytes)

theorem parseopen_eq :
    parseopen p n = match role n with
      | .request type => caldavAlloc p type
      | .href => .ok { p with buf := p.buf.reset, dflt := true }
      | .prop => .ok { p with handlers := .prop }
      | _ => .ok p := by
  unfold parseopen role
  cases calelemFind n <;> rfl

theorem parseclose_eq :
    parseclose p n = match role n with
      | .request _ => .ok { p with dflt := false, handlers := .none }
      | .href =>
        if p.buf.sz = 0 then .ok p
        else
          match p.p with
          | none => .error .fault
          | some c =>
            match hrefDecode (cstr p.buf.buf) with
            | none => caldavErr "bad percent-encoding"
            | some href => .ok { p with p := some { c with hrefs := c.hrefs ++ [cstr href] }, dflt := false }
      | _ => .ok p := by
  unfold parseclose role
  cases calelemFind n <;> rfl

theorem propopen_eq :
    propopen p n = match role n with
      | .known _ => .ok { p with buf := p.buf.reset, dflt := true }
      | _ => propadd p n .max [] := by
  unfold propopen role
  cases calelemFind n <;> rfl

theorem propclose_eq :
    propclose p n = match role n with
      | .prop => .ok { p with handlers := .parse }
      | .known prop => (propadd p n prop (cstr p.buf.buf)).map fun q => { q with dflt := false }
      | _ => .ok p := by
  unfold propclose role
  cases calelemFind n <;> rfl

end DavParse

/-- The key of a property is one of the table. -/
theorem role_known {n : Bytes} {prop : CalPropType} (h : role n = .known prop) : prop ≠ .max := by
  unfold role at h
  split at h <;> first | cases h | skip
  next elem _ _ _ _ _ _ =>
    split at h
    · cases h
    next hne =>
      cases h
      exact hne

end Kcaldav
