import Kcaldav.Caldav.Recorded

/-! # Values of properties

One buffer serves all elements. The start of a property sets its length back and leaves
what stands in it, and the end of a property reads a C string from it; so a property
without text is given the text of an element before it.
-/
namespace Kcaldav
open CString Markup

/-- Every known property in a `prop` has only text in it. -/
def KnownTextOnly (inside : Bool) : Content Bytes UInt8 → Prop
  | .nil => True
  | .text _ rest => KnownTextOnly inside rest
  | .elem n inner rest =>
    (inside → Known n → inner.TextOnly) ∧ KnownTextOnly (inside || role n = .prop) inner ∧ KnownTextOnly inside rest

instance decidableKnownTextOnly : (inside : Bool) → (d : Content Bytes UInt8) → Decidable (KnownTextOnly inside d)
  | _, .nil => isTrue trivial
  | inside, .text _ rest => decidableKnownTextOnly inside rest
  | inside, .elem n inner rest =>
    have := decidableKnownTextOnly (inside || role n = .prop) inner
    have := decidableKnownTextOnly inside rest
    inferInstanceAs (Decidable (_ ∧ _ ∧ _))

/-- The known properties that a request records. -/
def knownRecorded (inner : Content Bytes UInt8) : List (Bytes × Content Bytes UInt8) :=
  (recorded .parse inner).filter fun e => Known e.1

/-- A property of the name with this value, and nothing said of its validity. -/
def CalProp.named (p : CalProp) : CalPropType × Bytes × Bytes × Option Bytes := (p.key, p.xmlns, p.name, p.val)

theorem textOnly_of_recorded {d : Content Bytes UInt8} {m : Handlers} {inside : Bool} (hm : m = .prop → inside)
    (h : KnownTextOnly inside d) : ∀ e ∈ recorded m d, Known e.1 → e.2.TextOnly := by
  induction d generalizing m inside with
  | nil => simp [recorded]
  | text _ rest ih => exact ih hm h
  | elem n inner rest ihInner ihRest =>
    obtain ⟨hn, hinner, hrest⟩ := h
    intro e he hk
    have hopen : m.opening n = .prop → (inside || role n = .prop) := by
      unfold Handlers.opening
      split
      next hrole => simp [hrole]
      next m' _ _ =>
        intro h'
        rw [hm h', Bool.true_or]
    rw [recorded, List.mem_append, List.mem_append, List.mem_append] at he
    rcases he with ((he | he) | he) | he
    · split at he
      next hu =>
        rw [List.mem_singleton.mp he] at hk
        exact absurd hk hu.2
      · cases he
    · exact ihInner hopen hinner e he hk
    · split at he
      next hu =>
        rw [List.mem_singleton.mp he]
        exact hn (hm (Handlers.prop_of_opening hu.2.ne_prop (Handlers.prop_of_after hu.1))) hu.2
      · cases he
    · refine ihRest ?_ hrest e he hk
      intro hclose
      obtain ⟨hafter, hne⟩ := Handlers.prop_of_closing hclose
      exact hm (Handlers.prop_of_opening hne (Handlers.prop_of_after hafter))

/-- The value of every known property is the text of its element exactly where all these elements
have some text. -/
theorem caldavParse_values {d inner : Content Bytes UInt8} {c : Caldav} (hx : NUL ∉ d.chars)
    (hreq : request d = some (.propertyupdate, inner)) (htext : KnownTextOnly false inner)
    (h : caldavParse d.events = .ok (some c)) :
    (c.props.filter (·.key ≠ .max)).map CalProp.named =
      (knownRecorded inner).map (fun e => (propKey e.1, (propName e.1).1, (propName e.1).2, some e.2.chars)) ↔
    ∀ e ∈ knownRecorded inner, e.2.chars ≠ [] := by
  obtain ⟨inner', hreq', hes⟩ := caldavParse_recorded hx h
  rw [hreq, Option.some.injEq, Prod.mk.injEq] at hreq'
  obtain ⟨htype, rfl⟩ := hreq'
  rw [← htype] at hes
  have hknown : List.Forall₂ (Records .propertyupdate) (knownRecorded inner) (c.props.filter (·.key ≠ .max)) := by
    refine List.rel_filter ?_ hes
    intro e p hep
    simp [hep.key, propKey_eq_max]
  refine map_eq_map_iff hknown ?_
  intro e he p hep
  obtain ⟨hmem, hk⟩ := List.mem_filter.mp he
  have hk : Known e.1 := by simpa using hk
  obtain ⟨v, hv, hsome, hnone⟩ := hep.val hk rfl (textOnly_of_recorded (by simp) htext e hmem hk)
  have hname : (p.xmlns, p.name) = propName e.1 := hep.name
  rw [CalProp.named, hep.key, hv, ← hname]
  simp only [Prod.mk.injEq, Option.some.injEq, true_and]
  constructor
  · rintro rfl hnil
    exact hnone hnil hnil
  · exact hsome

/-- What stands in a request that sets the property. -/
def settingOf (n : Bytes) (value : Content Bytes UInt8) : Content Bytes UInt8 :=
  .elem (ascii "DAV::set") (.elem (ascii "DAV::prop") (.elem n value .nil) .nil) .nil

/-- A description and a shorter name after it, which the parser is given in two pieces. -/
def describedAndNamed : Content Bytes UInt8 :=
  .elem (ascii "DAV::set") (.elem (ascii "DAV::prop")
    (.elem (ascii "urn:ietf:params:xml:ns:caldav:calendar-description") (.text (ascii "Meetings and travel") .nil)
      (.elem (ascii "DAV::displayname") (.text (ascii "Wo") (.text (ascii "rk") .nil)) .nil)) .nil) .nil

theorem caldavParse_values_displayname :
    [((.calendarDescription, ascii "urn:ietf:params:xml:ns:caldav", ascii "calendar-description", some (ascii "Meetings and travel")) :
        CalPropType × Bytes × Bytes × Option Bytes),
      (.displayname, ascii "DAV:", ascii "displayname", some (ascii "Work"))] =
      (knownRecorded describedAndNamed).map fun e => (propKey e.1, (propName e.1).1, (propName e.1).2, some e.2.chars) :=
  (caldavParse_values (d := .elem (ascii "DAV::propertyupdate") describedAndNamed .nil)
    (c := ⟨.propertyupdate,
      [⟨.calendarDescription, ascii "calendar-description", ascii "urn:ietf:params:xml:ns:caldav", some (ascii "Meetings and travel"), 0⟩,
        ⟨.displayname, ascii "displayname", ascii "DAV:", some (ascii "Work"), 0⟩], []⟩)
    (by decide +kernel) rfl (by decide +kernel) rfl).mpr (by decide +kernel)

/-- A display name that is cleared is set to the space that the buffer starts with. -/
theorem caldavParse_value_stale :
    caldavParse (Content.elem (ascii "DAV::propertyupdate") (settingOf (ascii "DAV::displayname") .nil) .nil).events =
      .ok (some ⟨.propertyupdate, [⟨.displayname, ascii "displayname", ascii "DAV:", some (ascii " "), 0⟩], []⟩) := by
  rfl

end Kcaldav
