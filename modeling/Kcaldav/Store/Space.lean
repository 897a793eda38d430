import Kcaldav.Library.CString

/-! # The space of calendars

What the store is for, without its tables. There are accounts, their calendars, the
resources in them, and who may act for whom, each under an address made of names, and the
nonces that requests are signed with. An event is what is seen or done of it at one moment.
The record of an account is its password hash and its address.
-/
namespace Kcaldav
open CString

structure Account where
  hash : Bytes
  email : Bytes
  deriving DecidableEq, Repr

structure Display where
  displayname : Bytes
  colour : Bytes
  description : Bytes
  deriving DecidableEq, Repr

/-- A resource: its entity tag and its text. -/
structure Entry where
  etag : Bytes
  data : Bytes
  deriving DecidableEq, Repr

/-- A calendar is named by the account it belongs to and its own name. -/
abbrev CalName := Bytes × Bytes

/-- A calendar has an account and a resource a calendar. The ctag of a calendar is left out:
most changes add to it in a statement of its own, after the one that is the event. -/
@[ext]
structure Space where
  account : Bytes → Option Account
  calendar : CalName → Option Display
  resource : CalName × Bytes → Option Entry
  -- the permission of the second to act for the first
  delegate : Bytes × Bytes → Option Int
  -- the count from which a nonce may be used
  nonce : Bytes → Option Int
  owned : ∀ cal, calendar cal ≠ none → account cal.1 ≠ none
  filed : ∀ cal url, resource (cal, url) ≠ none → calendar cal ≠ none

inductive SpaceEvent
  -- what is seen
  | record (name : Bytes) (a : Account)
  | grant (owner user : Bytes) (bits : Int)
  | look (cal : CalName) (url : Bytes) (e : Entry)
  | listing (cal : CalName) (es : List (Bytes × Entry))
  -- what is done
  | create (cal : CalName) (url : Bytes) (e : Entry)
  | replace (cal : CalName) (url tag : Bytes) (e : Entry)
  | remove (cal : CalName) (url : Bytes)
  | removeIf (cal : CalName) (url tag : Bytes)
  | mkcalendar (cal : CalName)
  | rmcalendar (cal : CalName)
  | display (cal : CalName) (d : Display)
  | mkaccount (name : Bytes) (a : Account) (url : Bytes)
  | account (name : Bytes) (a : Account)
  | delegate (owner user : Bytes) (bits : Int)
  | undelegate (owner user : Bytes)
  -- what is done of the nonces
  | accept (nonce : Bytes) (count : Int)
  | challenge (nonce : Bytes) (culled : List Bytes)
  | logout (nonce : Bytes)

/-- A calendar that has just been made. -/
def Display.initial : Display := ⟨ascii "Calendar", ascii "#B90E28FF", []⟩

/-- No account but that of the name has the address. -/
def Space.EmailFree (s : Space) (name email : Bytes) : Prop := ∀ n a, s.account n = some a → a.email = email → n = name

namespace SpaceEvent

/-- What is seen is there, and what is done can be done. -/
def Enabled (s : Space) : SpaceEvent → Prop
  | record name a => s.account name = some a
  | grant owner user bits => s.delegate (owner, user) = some bits
  | look cal url e => s.resource (cal, url) = some e
  | listing cal es => ∀ x ∈ es, s.resource (cal, x.1) = some x.2
  | create cal url _ => s.calendar cal ≠ none ∧ s.resource (cal, url) = none
  | replace cal url tag _ => ∃ e, s.resource (cal, url) = some e ∧ e.etag = tag
  | remove cal _ => s.calendar cal ≠ none
  | removeIf cal url tag => ∃ e, s.resource (cal, url) = some e ∧ e.etag = tag
  | mkcalendar cal => s.account cal.1 ≠ none ∧ s.calendar cal = none
  | rmcalendar cal => s.calendar cal ≠ none
  | display cal _ => s.calendar cal ≠ none
  | mkaccount name a _ => s.account name = none ∧ s.EmailFree name a.email
  | account name a => s.account name ≠ none ∧ s.EmailFree name a.email
  | delegate owner user _ => s.account owner ≠ none ∧ s.account user ≠ none
  | undelegate owner user => s.account owner ≠ none ∧ s.account user ≠ none
  | accept nonce count => ∃ next, s.nonce nonce = some next ∧ next ≤ count
  | challenge nonce culled => s.nonce nonce = none ∨ nonce ∈ culled
  | logout _ => True

/-! What an event sets, and to what. -/

def setsAccount (n : Bytes) : SpaceEvent → Option (Option Account)
  | mkaccount name a _ | account name a => if n = name then some (some a) else none
  | _ => none

def setsCalendar (k : CalName) : SpaceEvent → Option (Option Display)
  | mkcalendar cal => if k = cal then some (some .initial) else none
  | mkaccount name _ url => if k = (name, url) then some (some .initial) else none
  | rmcalendar cal => if k = cal then some none else none
  | display cal d => if k = cal then some (some d) else none
  | _ => none

def setsResource (k : CalName × Bytes) : SpaceEvent → Option (Option Entry)
  | create cal url e | replace cal url _ e => if k = (cal, url) then some (some e) else none
  | remove cal url | removeIf cal url _ => if k = (cal, url) then some none else none
  | rmcalendar cal => if k.1 = cal then some none else none
  | _ => none

def setsDelegate (k : Bytes × Bytes) : SpaceEvent → Option (Option Int)
  | delegate owner user bits => if k = (owner, user) then some (some bits) else none
  | undelegate owner user => if k = (owner, user) then some none else none
  | _ => none

def setsNonce (k : Bytes) : SpaceEvent → Option (Option Int)
  -- the sum of the source wraps around
  | accept nonce count => if k = nonce then some (some ((count + 1).bmod (2 ^ 64))) else none
  | challenge nonce culled => if k = nonce then some (some 0) else if k ∈ culled then some none else none
  | logout nonce => if k = nonce then some none else none
  | _ => none

/-- The account whose things are seen or done. A nonce is nobody's. -/
def owner : SpaceEvent → Option Bytes
  | record name _ => name
  | grant owner _ _ => owner
  | look cal _ _ | listing cal _ | create cal _ _ | replace cal _ _ _ | remove cal _ | removeIf cal _ _ => cal.1
  | mkcalendar cal | rmcalendar cal | display cal _ => cal.1
  | mkaccount name _ _ | account name _ => name
  | delegate owner _ _ | undelegate owner _ => owner
  | accept _ _ | challenge _ _ | logout _ => none

/-- The entry is put under the name. -/
def Writes (k : CalName × Bytes) (e : Entry) : SpaceEvent → Prop
  | create cal url e' | replace cal url _ e' => k = (cal, url) ∧ e = e'
  | _ => False

/-- Something is seen and nothing is done. -/
def IsSight : SpaceEvent → Prop
  | record _ _ | grant _ _ _ | look _ _ _ | listing _ _ => True
  | _ => False

end SpaceEvent

/-- An event happens: what it does not set stays as it is. -/
structure Space.Step (w : SpaceEvent) (s s' : Space) : Prop where
  enabled : w.Enabled s
  account : ∀ n, s'.account n = (w.setsAccount n).getD (s.account n)
  calendar : ∀ k, s'.calendar k = (w.setsCalendar k).getD (s.calendar k)
  resource : ∀ k, s'.resource k = (w.setsResource k).getD (s.resource k)
  delegate : ∀ k, s'.delegate k = (w.setsDelegate k).getD (s.delegate k)
  nonce : ∀ k, s'.nonce k = (w.setsNonce k).getD (s.nonce k)

/-! ## What belongs to one account -/

/-- All that belongs to the account is the same, but for the ctags of its calendars, which
the space does not have. -/
structure Space.SameFor (q : Bytes) (s s' : Space) : Prop where
  account : s'.account q = s.account q
  calendar : ∀ url, s'.calendar (q, url) = s.calendar (q, url)
  resource : ∀ url name, s'.resource ((q, url), name) = s.resource ((q, url), name)
  delegate : ∀ user, s'.delegate (q, user) = s.delegate (q, user)

namespace Space
variable {q : Bytes} {s s' s'' : Space} {w : SpaceEvent}

theorem SameFor.refl (q : Bytes) (s : Space) : SameFor q s s := ⟨rfl, fun _ => rfl, fun _ _ => rfl, fun _ => rfl⟩

theorem SameFor.trans (h : SameFor q s s') (h' : SameFor q s' s'') : SameFor q s s'' where
  account := h'.account.trans h.account
  calendar url := (h'.calendar url).trans (h.calendar url)
  resource url name := (h'.resource url name).trans (h.resource url name)
  delegate user := (h'.delegate user).trans (h.delegate user)

theorem Step.sight (hw : w.IsSight) (h : w.Enabled s) : Step w s s := by
  refine ⟨h, fun n => ?_, fun k => ?_, fun k => ?_, fun k => ?_, fun k => ?_⟩
  all_goals cases w <;> first | rfl | exact hw.elim

theorem Step.eq_of_isSight (h : Step w s s') (hw : w.IsSight) : s' = s := by
  ext1
  · funext n
    rw [h.account]
    cases w <;> first | rfl | exact hw.elim
  · funext k
    rw [h.calendar]
    cases w <;> first | rfl | exact hw.elim
  · funext k
    rw [h.resource]
    cases w <;> first | rfl | exact hw.elim
  · funext k
    rw [h.delegate]
    cases w <;> first | rfl | exact hw.elim
  · funext k
    rw [h.nonce]
    cases w <;> first | rfl | exact hw.elim

/-- An event is about one account. -/
theorem Step.sameFor (h : Step w s s') (hq : w.owner ≠ some q) : SameFor q s s' := by
  have hne : some q ≠ w.owner := Ne.symm hq
  constructor
  · rw [h.account]
    cases w <;> simp_all [SpaceEvent.setsAccount, SpaceEvent.owner]
  · intro url
    rw [h.calendar]
    cases w <;> simp_all [SpaceEvent.setsCalendar, SpaceEvent.owner, Prod.ext_iff]
  · intro url name
    rw [h.resource]
    cases w <;> simp_all [SpaceEvent.setsResource, SpaceEvent.owner, Prod.ext_iff]
  · intro user
    rw [h.delegate]
    cases w <;> simp_all [SpaceEvent.setsDelegate, SpaceEvent.owner, Prod.ext_iff]

end Space

end Kcaldav
