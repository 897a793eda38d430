import Kcaldav.Ical.Print
import Kcaldav.Library.Markup
import Kcaldav.Server.Request

/-! # Properties

The table of `property.c`: for every property what is written for it of a collection, a
resource and a principal, if anything. What is written is markup, in which text has
still to be escaped.
-/
namespace Kcaldav
open CString Markup

inductive XmlElem
  | caldavCalendar | caldavCalendarData | caldavComp | caldavOpaque | caldavservProxyRead | caldavservProxyWrite
  | davBind | davCollection | davHref | davPrincipal | davPrivilege | davRead | davReadCurrentUserPrivilegeSet
  | davUnbind | davWrite
  deriving DecidableEq, Repr

structure XmlTag where
  elem : XmlElem
  atts : List (Bytes × Bytes)
  deriving DecidableEq, Repr

abbrev Frag := Content XmlTag UInt8

def kxmlPuts (b : Bytes) : Frag := .text b .nil

def kxmlPushnull (e : XmlElem) (rest : Frag) : Frag := .elem ⟨e, []⟩ .nil rest

def kxmlHref (b : Bytes) (rest : Frag) : Frag := .elem ⟨.davHref, []⟩ (kxmlPuts b) rest

def kxmlPrivilege (e : XmlElem) (rest : Frag) : Frag := .elem ⟨.davPrivilege, []⟩ (kxmlPushnull e .nil) rest

/-- The address of a principal. -/
def prncplHref (r : Kreq) (name : Bytes) : Bytes := r.pname ++ SLASH :: (name ++ [SLASH])

/-- What `statvfs` has said of the file system of the database. -/
structure Quota where
  avail : UInt64
  used : UInt64

variable (q : Quota) (r : Kreq) (st : State) (c : Coln) (p : Res)

/-! ## Collections

The texts of a collection that has been loaded are there. -/

def collectionCalendarColour : Frag := kxmlPuts (c.colour.getD [])

def collectionCalendarDescription : Frag := kxmlPuts (c.description.getD [])

def collectionDisplayname : Frag := kxmlPuts (c.displayname.getD [])

def collectionGetctag : Frag := kxmlPuts (ascii (toString c.ctag))

def collectionMinDateTime : Frag := kxmlPuts (ascii "19700101T000000Z")

def collectionCalendarTimezone : Frag :=
  kxmlPuts (["BEGIN:VCALENDAR\r\n", "PRODID:-//BSD.lv Project/kcaldav 0.2.5//EN\r\n", "VERSION:2.0\r\n", "BEGIN:VTIMEZONE\r\n",
    "TZID:GMT\r\n", "BEGIN:STANDARD\r\n", "DTSTART:19700101T000000\r\n", "TZOFFSETTO:+0000\r\n", "TZOFFSETFROM:+0000\r\n",
    "END:STANDARD\r\n", "END:VTIMEZONE\r\n", "END:VCALENDAR\r\n"].flatMap ascii)

/-- The two principals are one object where their names are the same. -/
def collectionCurrentUserPrivilegeSet : Frag :=
  kxmlPrivilege .davReadCurrentUserPrivilegeSet <|
    if st.prncpl.name = st.rprncpl.name ∨ st.proxy = PROXY_WRITE then
      kxmlPrivilege .davRead (kxmlPrivilege .davWrite (kxmlPrivilege .davBind (kxmlPrivilege .davUnbind .nil)))
    else if st.proxy = PROXY_READ then kxmlPrivilege .davRead .nil
    else .nil

def collectionOwner : Frag := kxmlHref (prncplHref r st.rprncpl.name) .nil

def collectionQuotaAvailableBytes : Frag := kxmlPuts (ascii (toString q.avail.toNat))

def collectionQuotaUsedBytes : Frag := kxmlPuts (ascii (toString q.used.toNat))

def collectionResourcetype : Frag := kxmlPushnull .davCollection (kxmlPushnull .caldavCalendar .nil)

def collectionScheduleCalendarTransp : Frag := kxmlPushnull .caldavOpaque .nil

def collectionSupportedCalendarComponentSet : Frag :=
  ["VCALENDAR", "VEVENT", "VTODO", "VJOURNAL", "VFREEBUSY", "VTIMEZONE", "VALARM"].foldr
    (fun type rest => .elem ⟨.caldavComp, [(ascii "name", ascii type)]⟩ .nil rest) .nil

def collectionSupportedCalendarData : Frag :=
  .elem ⟨.caldavCalendarData, [(ascii "content-type", ascii "text/calendar"), (ascii "version", ascii "2.0")]⟩ .nil .nil

def collectionGetcontenttype : Frag := kxmlPuts (ascii "httpd/unix-directory")

/-! ## Principals -/

def principalCalendarHomeSet : Frag := kxmlHref (prncplHref r st.rprncpl.name) .nil

def principalCalendarProxyReadFor : Frag :=
  st.rprncpl.rproxies.foldr (fun x rest => if x.bits ≠ PROXY_WRITE then rest else kxmlHref (prncplHref r x.name) rest) .nil

def principalCalendarProxyWriteFor : Frag :=
  st.rprncpl.rproxies.foldr (fun x rest => if x.bits ≠ PROXY_READ then rest else kxmlHref (prncplHref r x.name) rest) .nil

def principalCalendarUserAddressSet : Frag := kxmlHref (ascii "mailto:" ++ st.rprncpl.email) .nil

def principalCurrentUserPrincipal : Frag := kxmlHref (prncplHref r st.prncpl.name) .nil

def principalPrincipalUrl : Frag := kxmlHref (prncplHref r st.rprncpl.name) .nil

def principalGroupMembership : Frag :=
  st.rprncpl.rproxies.foldr (fun x rest =>
    if x.bits = PROXY_READ then kxmlHref (prncplHref r x.name ++ ascii "calendar-proxy-read/") rest
    else if x.bits = PROXY_WRITE then kxmlHref (prncplHref r x.name ++ ascii "calendar-proxy-write/") rest
    else rest) .nil

def principalResourcetype : Frag := kxmlPushnull .davPrincipal (kxmlPushnull .davCollection .nil)

def principalGetcontenttype : Frag := kxmlPuts (ascii "httpd/unix-directory")

/-! ## Resources -/

def resourceCalendarData : Frag := kxmlPuts (icalPrint p.ical)

def resourceGetetag : Frag := kxmlPuts p.etag

def resourceGetcontenttype : Frag := kxmlPuts (ascii "text/calendar")

def resourceResourcetype : Frag := .nil

/-! ## The table -/

/-- What is written for a property, of each kind of thing that has it. -/
structure Property where
  cgetfp : Option (Coln → Frag)
  rgetfp : Option (Coln → Res → Frag)
  pgetfp : Option Frag

/-- A property that all have, routed through to the principal. -/
def Property.ofPrincipal (f : Frag) : Property := ⟨some fun _ => f, some fun _ _ => f, some f⟩

/-- A property of a collection, routed through to it from its resources. -/
def Property.ofCollection (f : Frag) : Property := ⟨some fun _ => f, some fun _ _ => f, none⟩

def properties : CalPropType → Property
  | .calendarColor => ⟨some collectionCalendarColour, none, none⟩
  | .calendarData => ⟨none, some fun _ p => resourceCalendarData p, none⟩
  | .calendarDescription => ⟨some collectionCalendarDescription, none, none⟩
  | .calendarHomeSet => .ofPrincipal (principalCalendarHomeSet r st)
  | .minDateTime => ⟨some fun _ => collectionMinDateTime, none, none⟩
  | .calendarProxyReadFor => ⟨none, none, some (principalCalendarProxyReadFor r st)⟩
  | .calendarProxyWriteFor => ⟨none, none, some (principalCalendarProxyWriteFor r st)⟩
  | .calendarTimezone => ⟨some fun _ => collectionCalendarTimezone, none, none⟩
  | .calendarUserAddressSet => .ofPrincipal (principalCalendarUserAddressSet st)
  | .currentUserPrincipal => .ofPrincipal (principalCurrentUserPrincipal r st)
  | .currentUserPrivilegeSet => .ofCollection (collectionCurrentUserPrivilegeSet st)
  | .displayname => ⟨some collectionDisplayname, none, none⟩
  | .getcontenttype =>
    ⟨some fun _ => collectionGetcontenttype, some fun _ _ => resourceGetcontenttype, some principalGetcontenttype⟩
  | .getctag => ⟨some collectionGetctag, none, none⟩
  | .getetag => ⟨none, some fun _ p => resourceGetetag p, none⟩
  | .groupMemberSet => ⟨none, none, none⟩
  | .groupMembership => ⟨none, none, some (principalGroupMembership r st)⟩
  | .owner => .ofCollection (collectionOwner r st)
  | .principalUrl => .ofPrincipal (principalPrincipalUrl r st)
  | .quotaAvailableBytes => .ofCollection (collectionQuotaAvailableBytes q)
  | .quotaUsedBytes => .ofCollection (collectionQuotaUsedBytes q)
  | .resourcetype => ⟨some fun _ => collectionResourcetype, some fun _ _ => resourceResourcetype, some principalResourcetype⟩
  | .scheduleCalendarTransp => ⟨some fun _ => collectionScheduleCalendarTransp, none, none⟩
  | .supportedCalendarComponentSet => ⟨some fun _ => collectionSupportedCalendarComponentSet, none, none⟩
  | .supportedCalendarData => ⟨some fun _ => collectionSupportedCalendarData, none, none⟩
  -- behind the end of the table
  | .max => ⟨none, none, none⟩

end Kcaldav
