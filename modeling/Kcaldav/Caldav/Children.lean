import Kcaldav.Caldav.Recorded

/-! # Properties and what stands in them

A request is meant to list the children of its `prop` elements. The handlers keep no
count of what is open: an element inside a property is taken for a property, and a
`prop` that ends there ends the properties. So the list is that of the children where
these have no elements in them.
-/
namespace Kcaldav
open CString Markup

/-- The contents of the `prop` elements of a request, without those inside of others. -/
def propsOf : Content Bytes UInt8 → List (Content Bytes UInt8)
  | .nil => []
  | .text _ rest => propsOf rest
  | .elem n inner rest => (if role n = .prop then [inner] else propsOf inner) ++ propsOf rest

/-- The namespace of an element, empty where it has none, and its local name. -/
def qname (n : Bytes) : Bytes × Bytes :=
  match strrchr 58 n with
  | some (xmlns, name) => (xmlns, name)
  | none => ([], n)

/-- Key, namespace and name of a property. -/
def CalProp.ident (p : CalProp) : CalPropType × Bytes × Bytes := (p.key, p.xmlns, p.name)

/-! ## Places -/

/-- The contents of the elements of a `prop`, each with the events before it. -/
def childPlaces (past : List (Event Bytes UInt8)) : Content Bytes UInt8 → List (List (Event Bytes UInt8) × Content Bytes UInt8)
  | .nil => []
  | .text t rest => childPlaces (past ++ [.text t]) rest
  | .elem n inner rest =>
    (past ++ [.start n], inner) :: childPlaces (past ++ .start n :: (inner.events ++ [.close n])) rest

/-- The contents of the properties of a request, each with the events before it. -/
def propPlaces (past : List (Event Bytes UInt8)) : Content Bytes UInt8 → List (List (Event Bytes UInt8) × Content Bytes UInt8)
  | .nil => []
  | .text t rest => propPlaces (past ++ [.text t]) rest
  | .elem n inner rest =>
    (if role n = .prop then childPlaces (past ++ [.start n]) inner else propPlaces (past ++ [.start n]) inner) ++
      propPlaces (past ++ .start n :: (inner.events ++ [.close n])) rest

/-- What stands in a property neither adds to the request nor ends anything. -/
def QuietAt (q : List (Event Bytes UInt8) × Content Bytes UInt8) : Prop :=
  ∀ s t, run DavParse.step q.1 .init = .ok s → run DavParse.step q.2.events s = .ok t →
    t.p = s.p ∧ t.handlers = s.handlers

/-- The request of a document lists the children of its `prop` elements, and nothing deeper counts. -/
structure ListsChildren (d inner : Content Bytes UInt8) (c : Caldav) : Prop where
  entries : c.props.map CalProp.ident = ((propsOf inner).flatMap Content.children).map fun e => (propKey e.1, qname e.1)
  quiet : ∀ pre r type post, d.events = pre ++ .start r :: (inner.events ++ .close r :: post) → role r = .request type →
    ¬ Opened pre → ∀ q ∈ propPlaces (pre ++ [.start r]) inner, QuietAt q

/-- In the content of a `prop` no element has elements in it, and a further `prop` is the last one. -/
structure FlatProp (k : Content Bytes UInt8) : Prop where
  textOnly : ∀ e ∈ k.children, e.2.TextOnly
  last : ∀ e ∈ k.children.dropLast, role e.1 ≠ .prop

instance (k : Content Bytes UInt8) : Decidable (FlatProp k) :=
  decidable_of_iff ((∀ e ∈ k.children, e.2.TextOnly) ∧ ∀ e ∈ k.children.dropLast, role e.1 ≠ .prop)
    ⟨fun h => ⟨h.1, h.2⟩, fun h => ⟨h.textOnly, h.last⟩⟩

/-- The properties of a request have no elements in them and a namespace, and a `prop` that is one
of them is the last of its siblings. -/
def FlatProps (inner : Content Bytes UInt8) : Prop :=
  ∀ k ∈ propsOf inner, FlatProp k ∧ ∀ e ∈ k.children, 58 ∈ e.1 ∨ e.1 = []

instance (inner : Content Bytes UInt8) : Decidable (FlatProps inner) :=
  inferInstanceAs (Decidable (∀ k ∈ propsOf inner, FlatProp k ∧ ∀ e ∈ k.children, 58 ∈ e.1 ∨ e.1 = []))

/-! ## Steps in a request -/

/-- A request is there, and the buffer is in order. -/
structure InRequest (s : DavParse) : Prop where
  present : ∃ c, s.p = some c
  text : s.buf.Text

section Request
variable {s t : DavParse} {d inner rest : Content Bytes UInt8} {n : Bytes}

theorem InRequest.run (hs : InRequest s) (hx : NUL ∉ d.chars) (h : run DavParse.step d.events s = .ok t) :
    InRequest t ∧ t.handlers = s.handlers.after d := by
  obtain ⟨c, hp⟩ := hs.present
  obtain ⟨hm, hb, es, -, ⟨c', hp', -, -⟩⟩ := run_recorded d hp hx hs.text h
  exact ⟨⟨⟨c', hp'⟩, hb⟩, hm⟩

theorem InRequest.text_step (hs : InRequest s) {u : Bytes} (hu : NUL ∉ u) (h : s.step (.text u) = .ok t) :
    InRequest t ∧ t.handlers = s.handlers := by
  rw [DavParse.step_text] at h
  cases h
  exact ⟨⟨hs.present, hs.text.keep hu s.dflt⟩, rfl⟩

/-- Content that leaves the request as it is records nothing. -/
theorem InRequest.recorded_nil (hs : InRequest s) (hx : NUL ∉ d.chars) (h : Markup.run DavParse.step d.events s = .ok t)
    (hp : t.p = s.p) : recorded s.handlers d = [] := by
  obtain ⟨c, hc⟩ := hs.present
  obtain ⟨-, -, es, hes, ⟨c', hc', -, hprops⟩⟩ := run_recorded d hc hx hs.text h
  rw [hp, hc] at hc'
  cases hc'
  rw [List.self_eq_append_right] at hprops
  rw [hprops] at hes
  exact List.forall₂_nil_right_iff.mp hes

/-- The states on the way through an element of a request. -/
theorem InRequest.elem (hs : InRequest s) (hx : NUL ∉ inner.chars)
    (h : Markup.run DavParse.step (Content.elem n inner rest).events s = .ok t) :
    ∃ s₁ s₂ s₃, (s.step (.start n) = .ok s₁ ∧ InRequest s₁ ∧ s₁.handlers = s.handlers.opening n) ∧
      Markup.run DavParse.step inner.events s₁ = .ok s₂ ∧
      (s₂.step (.close n) = .ok s₃ ∧ InRequest s₃ ∧ s₃.handlers = ((s.handlers.opening n).after inner).closing n) ∧
      Markup.run DavParse.step rest.events s₃ = .ok t := by
  obtain ⟨s₁, s₂, s₃, hstart, hinner, hclose, hrest⟩ := run_elem_ok.mp h
  obtain ⟨c, hp⟩ := hs.present
  obtain ⟨hm₁, hbuf₁, ⟨c₁, hp₁, -, -⟩, -⟩ := DavParse.start_request hp hstart
  have hs₁ : InRequest s₁ := ⟨⟨c₁, hp₁⟩, hs.text.start hbuf₁⟩
  obtain ⟨hs₂, hm₂⟩ := hs₁.run hx hinner
  obtain ⟨c₂, hp₂⟩ := hs₂.present
  obtain ⟨hm₃, hbuf₃, ⟨c₃, hp₃, -, -⟩⟩ := DavParse.close_request hp₂ hclose
  refine ⟨s₁, s₂, s₃, ⟨hstart, hs₁, hm₁⟩, hinner, ⟨hclose, ⟨⟨c₃, hp₃⟩, ?_⟩, ?_⟩, hrest⟩
  · rw [hbuf₃]
    exact hs₂.text
  · rw [hm₃, hm₂, hm₁]

end Request

/-! ## Counting -/

theorem after_textOnly {d : Content Bytes UInt8} (h : d.TextOnly) (m : Handlers) : m.after d = m := by
  induction d with
  | nil => rfl
  | text _ rest ih => exact ih h
  | elem n inner rest => exact absurd h (List.cons_ne_nil _ _)

theorem recorded_textOnly {d : Content Bytes UInt8} (h : d.TextOnly) (m : Handlers) : recorded m d = [] := by
  induction d with
  | nil => rfl
  | text _ rest ih => exact ih h
  | elem n inner rest => exact absurd h (List.cons_ne_nil _ _)

/-- Where properties are read every element records something. -/
theorem textOnly_of_recorded_nil {d : Content Bytes UInt8} (h : recorded .prop d = []) : d.TextOnly := by
  induction d with
  | nil => rfl
  | text _ rest ih => exact ih h
  | elem n inner rest ihInner _ =>
    rw [recorded, List.append_eq_nil_iff, List.append_eq_nil_iff, List.append_eq_nil_iff] at h
    obtain ⟨⟨⟨hfirst, hinner⟩, hlast⟩, -⟩ := h
    have hk : Known n := by
      by_contra hk
      rw [if_pos ⟨rfl, hk⟩] at hfirst
      cases hfirst
    have hafter : (Handlers.prop.opening n).after inner = .prop := after_textOnly (ihInner hinner) _
    rw [if_pos ⟨hafter, hk⟩] at hlast
    cases hlast

/-- An element without elements in it records itself once where properties are read. -/
theorem recorded_prop_elem {n : Bytes} {inner : Content Bytes UInt8} (h : inner.TextOnly) (rest : Content Bytes UInt8) :
    recorded .prop (.elem n inner rest) = (n, inner) :: recorded (Handlers.prop.closing n) rest := by
  have hafter : (Handlers.prop.opening n).after inner = .prop := after_textOnly h _
  have hinner : recorded (Handlers.prop.opening n) inner = [] := recorded_textOnly h _
  rw [recorded, hafter, hinner]
  by_cases hk : Known n <;> simp [hk]

theorem run_past {past es : List (Event Bytes UInt8)} {r s t : DavParse} (hpast : run DavParse.step past r = .ok s)
    (h : run DavParse.step es s = .ok t) : run DavParse.step (past ++ es) r = .ok t := run_append_ok.mpr ⟨s, hpast, h⟩

theorem run_one {e : Event Bytes UInt8} {s t : DavParse} (h : s.step e = .ok t) : run DavParse.step [e] s = .ok t :=
  run_cons_ok.mpr ⟨t, h, rfl⟩

theorem run_whole {n : Bytes} {inner : Content Bytes UInt8} {s s₁ s₂ s₃ : DavParse} (hstart : s.step (.start n) = .ok s₁)
    (hinner : run DavParse.step inner.events s₁ = .ok s₂) (hclose : s₂.step (.close n) = .ok s₃) :
    run DavParse.step (.start n :: (inner.events ++ [.close n])) s = .ok s₃ :=
  run_cons_ok.mpr ⟨s₁, hstart, run_append_ok.mpr ⟨s₂, hinner, run_one hclose⟩⟩

/-- Of the children of a `prop` whose contents are quiet at most each records itself, and where
all do they have no elements in them and properties are read up to the last one. -/
theorem recorded_children {k : Content Bytes UInt8} {past : List (Event Bytes UInt8)} {s t : DavParse} (hs : InRequest s)
    (hx : NUL ∉ k.chars) (hpast : run DavParse.step past .init = .ok s) (h : run DavParse.step k.events s = .ok t)
    (hquiet : ∀ q ∈ childPlaces past k, QuietAt q) :
    (recorded s.handlers k).length ≤ k.children.length ∧
      ((recorded s.handlers k).length = k.children.length → (s.handlers = .prop → FlatProp k) ∧ (s.handlers ≠ .prop → k.children = [])) := by
  induction k generalizing past s t with
  | nil => exact ⟨le_rfl, fun _ => ⟨fun _ => ⟨by simp [Content.children], by simp [Content.children]⟩, fun _ => rfl⟩⟩
  | text u rest ih =>
    rw [Content.chars, List.mem_append, not_or] at hx
    obtain ⟨s', hstep, hrest⟩ := run_cons_ok.mp h
    obtain ⟨hs', hm⟩ := hs.text_step hx.1 hstep
    rw [← hm]
    obtain ⟨hle, heq⟩ := ih hs' hx.2 (run_past hpast (run_one hstep)) hrest hquiet
    refine ⟨hle, fun h' => ?_⟩
    obtain ⟨hflat, hnil⟩ := heq h'
    exact ⟨fun hp => ⟨(hflat hp).textOnly, (hflat hp).last⟩, hnil⟩
  | elem n inner rest _ ih =>
    rw [Content.chars, List.mem_append, not_or] at hx
    obtain ⟨s₁, s₂, s₃, ⟨hstart, hs₁, hm₁⟩, hinner, ⟨hclose, hs₃, hm₃⟩, hrest⟩ := hs.elem hx.1 h
    rw [childPlaces, List.forall_mem_cons] at hquiet
    obtain ⟨hp, -⟩ := hquiet.1 s₁ s₂ (run_past hpast (run_one hstart)) hinner
    have hnil := hs₁.recorded_nil hx.1 hinner hp
    obtain ⟨hle, heq⟩ := ih hs₃ hx.2 (run_past hpast (run_whole hstart hinner hclose)) hrest hquiet.2
    rw [Content.children, List.length_cons]
    by_cases hm : s.handlers = .prop
    · rw [hm₁, hm] at hnil
      have htext := textOnly_of_recorded_nil hnil
      rw [hm, after_textOnly htext] at hm₃
      rw [hm, recorded_prop_elem htext, List.length_cons]
      change s₃.handlers = Handlers.prop.closing n at hm₃
      rw [← hm₃]
      refine ⟨Nat.succ_le_succ hle, fun h' => ⟨fun _ => ?_, fun h'' => absurd rfl h''⟩⟩
      obtain ⟨hflat, hempty⟩ := heq (Nat.succ.inj h')
      by_cases hn : role n = .prop
      · have hrestNil := hempty (by simp [hm₃, Handlers.closing, hn])
        exact ⟨by simp [Content.children, hrestNil, htext], by simp [Content.children, hrestNil]⟩
      · obtain ⟨htexts, hlast⟩ := hflat (hm₃.trans (Handlers.prop_closing hn))
        refine ⟨List.forall_mem_cons.mpr ⟨htext, htexts⟩, ?_⟩
        rw [Content.children]
        cases hc : rest.children with
        | nil => simp
        | cons a l =>
          rw [List.dropLast_cons_of_ne_nil (List.cons_ne_nil a l), List.forall_mem_cons, ← hc]
          exact ⟨hn, hlast⟩
    · have hafter : ¬ ((s.handlers.opening n).after inner = .prop ∧ Known n) := by
        rintro ⟨hafter, hk⟩
        exact hm (Handlers.prop_of_opening hk.ne_prop (Handlers.prop_of_after hafter))
      rw [hm₁] at hnil
      rw [recorded, hnil, if_neg (fun h' => hm h'.1), if_neg hafter, ← hm₃, List.nil_append, List.nil_append, List.nil_append]
      exact ⟨Nat.le_succ_of_le hle, fun h' => absurd h' (by omega)⟩

/-- Outside of the `prop` elements of a request nothing is recorded, so where the contents of all
properties are quiet no more is recorded than there are, and where as many are they are flat. -/
theorem recorded_props {d : Content Bytes UInt8} {past : List (Event Bytes UInt8)} {s t : DavParse} (hs : InRequest s)
    (hm : s.handlers ≠ .prop) (hx : NUL ∉ d.chars) (hpast : run DavParse.step past .init = .ok s)
    (h : run DavParse.step d.events s = .ok t) (hquiet : ∀ q ∈ propPlaces past d, QuietAt q) :
    (recorded s.handlers d).length ≤ ((propsOf d).flatMap Content.children).length ∧
      ((recorded s.handlers d).length = ((propsOf d).flatMap Content.children).length → ∀ k ∈ propsOf d, FlatProp k) := by
  induction d generalizing past s t with
  | nil => exact ⟨le_rfl, by simp [propsOf]⟩
  | text u rest ih =>
    rw [Content.chars, List.mem_append, not_or] at hx
    obtain ⟨s', hstep, hrest⟩ := run_cons_ok.mp h
    obtain ⟨hs', hm'⟩ := hs.text_step hx.1 hstep
    rw [← hm']
    exact ih hs' (by rwa [hm']) hx.2 (run_past hpast (run_one hstep)) hrest hquiet
  | elem n inner rest ihInner ihRest =>
    rw [Content.chars, List.mem_append, not_or] at hx
    obtain ⟨s₁, s₂, s₃, ⟨hstart, hs₁, hm₁⟩, hinner, ⟨hclose, hs₃, hm₃⟩, hrest⟩ := hs.elem hx.1 h
    rw [propPlaces, List.forall_mem_append] at hquiet
    have hm₃' : s₃.handlers ≠ .prop := by
      intro h'
      rw [hm₃] at h'
      obtain ⟨hafter, hne⟩ := Handlers.prop_of_closing h'
      exact hm (Handlers.prop_of_opening hne (Handlers.prop_of_after hafter))
    have hafter : ¬ ((s.handlers.opening n).after inner = .prop ∧ Known n) := by
      rintro ⟨hafter, hk⟩
      exact hm (Handlers.prop_of_opening hk.ne_prop (Handlers.prop_of_after hafter))
    obtain ⟨hle₃, heq₃⟩ := ihRest hs₃ hm₃' hx.2 (run_past hpast (run_whole hstart hinner hclose)) hrest hquiet.2
    rw [recorded, if_neg (fun h' => hm h'.1), if_neg hafter, ← hm₃, ← hm₁, List.nil_append, List.append_nil, propsOf,
      List.flatMap_append, List.length_append, List.length_append, List.forall_mem_append]
    by_cases hn : role n = .prop
    · rw [if_pos hn] at hquiet
      simp only [if_pos hn, List.flatMap_singleton, List.forall_mem_singleton]
      obtain ⟨hle, heq⟩ := recorded_children hs₁ hx.1 (run_past hpast (run_one hstart)) hinner hquiet.1
      refine ⟨Nat.add_le_add hle hle₃, fun h' => ⟨?_, heq₃ (by omega)⟩⟩
      obtain ⟨hflat, hnil⟩ := heq (by omega)
      by_cases hp : s₁.handlers = .prop
      · exact hflat hp
      · exact ⟨by simp [hnil hp], by simp [hnil hp]⟩
    · rw [if_neg hn] at hquiet
      simp only [if_neg hn]
      have hm₁' : s₁.handlers ≠ .prop := by
        rw [hm₁]
        exact fun h' => hm (Handlers.prop_of_opening hn h')
      obtain ⟨hle, heq⟩ := ihInner hs₁ hm₁' hx.1 (run_past hpast (run_one hstart)) hinner hquiet.1
      exact ⟨Nat.add_le_add hle hle₃, fun h' => ⟨heq (by omega), heq₃ (by omega)⟩⟩

/-! ## Flat requests -/

theorem recorded_flat {k : Content Bytes UInt8} (h : FlatProp k) :
    recorded .prop k = k.children ∧ (Handlers.prop.after k = .prop ∨ Handlers.prop.after k = .parse) := by
  induction k with
  | nil => exact ⟨rfl, .inl rfl⟩
  | text _ rest ih => exact ih ⟨h.textOnly, h.last⟩
  | elem n inner rest _ ih =>
    obtain ⟨htext, hrest⟩ := List.forall_mem_cons.mp h.textOnly
    have hafter : (Handlers.prop.opening n).after inner = .prop := after_textOnly htext _
    rw [recorded_prop_elem htext, Handlers.after, hafter, Content.children]
    cases hc : rest.children with
    | nil =>
      rw [recorded_textOnly hc, after_textOnly hc]
      refine ⟨rfl, ?_⟩
      by_cases hn : role n = .prop
      · exact .inr (by simp [Handlers.closing, hn])
      · exact .inl (Handlers.prop_closing hn)
    | cons a l =>
      have hlast := h.last
      rw [Content.children, hc, List.dropLast_cons_of_ne_nil (List.cons_ne_nil a l), List.forall_mem_cons, ← hc] at hlast
      rw [Handlers.prop_closing hlast.1, ← hc]
      obtain ⟨heq, hm⟩ := ih ⟨hrest, hlast.2⟩
      exact ⟨congrArg _ heq, hm⟩

/-- A second request is refused. -/
theorem InRequest.not_request {s t : DavParse} {n : Bytes} (hs : InRequest s) (hm : s.handlers = .parse)
    (h : s.step (.start n) = .ok t) (type : CalReqType) : role n ≠ .request type := by
  intro hn
  obtain ⟨c, hp⟩ := hs.present
  rw [DavParse.step_start_parse hm, DavParse.parseopen_eq, hn] at h
  dsimp only at h
  rw [caldavAlloc, hp] at h
  cases h

theorem recorded_flatProps {d : Content Bytes UInt8} {s t : DavParse} (hs : InRequest s) (hm : s.handlers = .parse)
    (hx : NUL ∉ d.chars) (h : run DavParse.step d.events s = .ok t) (hflat : ∀ k ∈ propsOf d, FlatProp k) :
    recorded .parse d = (propsOf d).flatMap Content.children ∧ t.handlers = .parse := by
  induction d generalizing s t with
  | nil =>
    cases h
    exact ⟨rfl, hm⟩
  | text u rest ih =>
    rw [Content.chars, List.mem_append, not_or] at hx
    obtain ⟨s', hstep, hrest⟩ := run_cons_ok.mp h
    obtain ⟨hs', hm'⟩ := hs.text_step hx.1 hstep
    exact ih hs' (hm'.trans hm) hx.2 hrest hflat
  | elem n inner rest ihInner ihRest =>
    rw [Content.chars, List.mem_append, not_or] at hx
    obtain ⟨s₁, s₂, s₃, ⟨hstart, hs₁, hm₁⟩, hinner, ⟨hclose, hs₃, hm₃⟩, hrest⟩ := hs.elem hx.1 h
    rw [propsOf, List.forall_mem_append] at hflat
    rw [hm] at hm₁ hm₃
    have hreq := hs.not_request hm hstart
    have hafter : ¬ ((Handlers.parse.opening n).after inner = .prop ∧ Known n) := by
      rintro ⟨hafter, hk⟩
      cases Handlers.prop_of_opening hk.ne_prop (Handlers.prop_of_after hafter)
    rw [recorded, if_neg (fun h' => by cases h'.1), if_neg hafter, List.nil_append, List.append_nil, propsOf, List.flatMap_append,
      ← hm₃]
    by_cases hn : role n = .prop
    · have hopen : Handlers.parse.opening n = .prop := by simp [Handlers.opening, hn]
      rw [if_pos hn, List.forall_mem_singleton] at hflat
      obtain ⟨heq, hmode⟩ := recorded_flat hflat.1
      have hparse : s₃.handlers = .parse := by
        rw [hm₃, hopen]
        rcases hmode with h' | h' <;> simp [h', Handlers.closing, hn]
      obtain ⟨heqRest, ht⟩ := ihRest hs₃ hparse hx.2 hrest hflat.2
      rw [if_pos hn, List.flatMap_singleton, hparse, hopen, heq, heqRest]
      exact ⟨rfl, ht⟩
    · have hopen : Handlers.parse.opening n = .parse := Handlers.parse_opening hn
      rw [if_neg hn] at hflat
      rw [hopen] at hm₁
      obtain ⟨heq, hs₂⟩ := ihInner hs₁ hm₁ hx.1 hinner hflat.1
      have hparse : s₃.handlers = .parse := by
        have hafter' := (hs₁.run hx.1 hinner).2
        rw [hs₂, hm₁] at hafter'
        rw [hm₃, hopen, ← hafter', Handlers.parse_closing hreq]
      obtain ⟨heqRest, ht⟩ := ihRest hs₃ hparse hx.2 hrest hflat.2
      rw [if_neg hn, hparse, hopen, heq, heqRest]
      exact ⟨rfl, ht⟩

theorem mem_childPlaces {past : List (Event Bytes UInt8)} {k : Content Bytes UInt8}
    {q : List (Event Bytes UInt8) × Content Bytes UInt8} (h : q ∈ childPlaces past k) : ∃ e ∈ k.children, e.2 = q.2 := by
  induction k generalizing past with
  | nil => cases h
  | text _ rest ih => exact ih h
  | elem n inner rest _ ih =>
    rw [childPlaces, List.mem_cons] at h
    rcases h with rfl | h
    · exact ⟨(n, inner), List.mem_cons_self, rfl⟩
    · obtain ⟨e, he, heq⟩ := ih h
      exact ⟨e, List.mem_cons_of_mem _ he, heq⟩

theorem mem_propPlaces {past : List (Event Bytes UInt8)} {d : Content Bytes UInt8}
    {q : List (Event Bytes UInt8) × Content Bytes UInt8} (h : q ∈ propPlaces past d) :
    ∃ k ∈ propsOf d, ∃ e ∈ k.children, e.2 = q.2 := by
  induction d generalizing past with
  | nil => cases h
  | text _ rest ih => exact ih h
  | elem n inner rest ihInner ihRest =>
    rw [propPlaces, List.mem_append] at h
    rcases h with h | h
    · by_cases hn : role n = .prop
      · rw [if_pos hn] at h
        exact ⟨inner, by simp [propsOf, hn], mem_childPlaces h⟩
      · rw [if_neg hn] at h
        obtain ⟨k, hk, he⟩ := ihInner h
        exact ⟨k, by simp [propsOf, hn, hk], he⟩
    · obtain ⟨k, hk, he⟩ := ihRest h
      exact ⟨k, List.mem_append_right _ hk, he⟩

/-! ## The start of the request -/

theorem not_opened_of_request {d : Content Bytes UInt8} (h : request d = none) : ¬ Opened d.events := by
  induction d with
  | nil => simp [Opened]
  | text _ rest ih => simpa [Opened] using ih h
  | elem n inner rest ihInner ihRest =>
    have hn (type : CalReqType) : role n ≠ .request type := by
      intro hn
      rw [request, hn] at h
      cases h
    have hor : request inner = none ∧ request rest = none := by
      rw [request] at h
      split at h
      next type hrole => exact absurd hrole (hn type)
      · cases hi : request inner with
        | none =>
          rw [hi] at h
          exact ⟨rfl, h⟩
        | some r =>
          rw [hi] at h
          cases h
    rintro ⟨m, type, hm, hrole⟩
    rw [Content.events_elem, List.mem_cons, List.mem_append, List.mem_cons] at hm
    rcases hm with hm | hm | hm | hm
    · cases hm
      exact hn type hrole
    · exact ihInner hor.1 ⟨m, type, hm, hrole⟩
    · cases hm
    · exact ihRest hor.2 ⟨m, type, hm, hrole⟩

/-- The first request stands in the events of its document, with none before it. -/
theorem events_of_request {d inner : Content Bytes UInt8} {type : CalReqType} (h : request d = some (type, inner)) :
    ∃ pre r post, d.events = pre ++ .start r :: (inner.events ++ .close r :: post) ∧ role r = .request type ∧ ¬ Opened pre := by
  induction d with
  | nil => cases h
  | text t rest ih =>
    obtain ⟨pre, r, post, heq, hr, hno⟩ := ih h
    exact ⟨.text t :: pre, r, post, by rw [Content.events_text, heq]; rfl, hr, by simpa [Opened] using hno⟩
  | elem n i rest ihInner ihRest =>
    by_cases hreq : ∃ type, role n = .request type
    · obtain ⟨type', hn⟩ := hreq
      rw [request, hn] at h
      cases h
      exact ⟨[], n, rest.events, rfl, hn, by simp [Opened]⟩
    · have hn (type : CalReqType) : role n ≠ .request type := fun hn => hreq ⟨type, hn⟩
      have hd : request (.elem n i rest) = (request i).orElse fun _ => request rest := by
        rw [request]
        split
        next type' hrole => exact absurd hrole (hn type')
        · rfl
      rw [hd] at h
      cases hi : request i with
      | some p =>
        rw [hi] at h
        obtain ⟨pre, r, post, heq, hr, hno⟩ := ihInner (hi.trans h)
        refine ⟨.start n :: pre, r, post ++ .close n :: rest.events, ?_, hr, ?_⟩
        · rw [Content.events_elem, heq]
          simp
        · rintro ⟨m, type', hm, hrole⟩
          rcases List.mem_cons.mp hm with hm | hm
          · cases hm
            exact hn type' hrole
          · exact hno ⟨m, type', hm, hrole⟩
      | none =>
        rw [hi] at h
        obtain ⟨pre, r, post, heq, hr, hno⟩ := ihRest h
        refine ⟨.start n :: (i.events ++ .close n :: pre), r, post, ?_, hr, ?_⟩
        · rw [Content.events_elem, heq]
          simp
        · rintro ⟨m, type', hm, hrole⟩
          rw [List.mem_cons, List.mem_append, List.mem_cons] at hm
          rcases hm with hm | hm | hm | hm
          · cases hm
            exact hn type' hrole
          · exact not_opened_of_request hi ⟨m, type', hm, hrole⟩
          · cases hm
          · exact hno ⟨m, type', hm, hrole⟩

theorem nul_notMem_chars {d : Content Bytes UInt8} : NUL ∉ d.chars ↔ ∀ u, .text u ∈ d.events → NUL ∉ u := by
  induction d with
  | nil => simp [Content.chars]
  | text t rest ih => simp [Content.chars, ih]
  | elem n inner rest ihInner ihRest =>
    rw [Content.chars, List.mem_append, not_or, ihInner, ihRest, Content.events_elem]
    simp only [List.mem_cons, List.mem_append, reduceCtorEq, false_or]
    exact ⟨fun h u hu => hu.elim (h.1 u) (h.2 u), fun h => ⟨fun u hu => h u (.inl hu), fun u hu => h u (.inr hu)⟩⟩

/-- A tag that starts no request leaves none, and the buffer as it is but for its length. -/
theorem step_not_opened {e : Event Bytes UInt8} {s t : DavParse} (he : e.isTag) (hno : ¬ Opened [e]) (hp : s.p = none)
    (h : s.step e = .ok t) : t.p = none ∧ (t.buf = s.buf ∨ t.buf = s.buf.reset) := by
  cases e with
  | text u => cases he
  | start n =>
    cases hh : s.handlers with
    | none =>
      simp only [DavParse.step, hh] at h
      cases h
      exact ⟨hp, .inl rfl⟩
    | parse =>
      obtain ⟨hp', -, hb⟩ := DavParse.start_absent hp hh (fun type hn => hno ⟨n, type, List.mem_singleton_self _, hn⟩) h
      exact ⟨hp', hb⟩
    | prop =>
      rw [DavParse.step_start_prop hh, DavParse.propopen_eq] at h
      cases hn : role n <;> simp only [hn] at h
      case known prop =>
        cases h
        exact ⟨hp, .inr rfl⟩
      all_goals
        rw [DavParse.propadd_none hp] at h
        cases h
  | close n =>
    cases hh : s.handlers with
    | none =>
      simp only [DavParse.step, hh] at h
      cases h
      exact ⟨hp, .inl rfl⟩
    | parse =>
      rw [DavParse.step_close_parse hh, DavParse.parseclose_eq] at h
      cases hn : role n <;> simp only [hn] at h
      case href =>
        rw [hp] at h
        split at h
        · cases h
          exact ⟨hp, .inl rfl⟩
        · cases h
      all_goals
        cases h
        exact ⟨hp, .inl rfl⟩
    | prop =>
      rw [DavParse.step_close_prop hh, DavParse.propclose_eq] at h
      cases hn : role n <;> simp only [hn] at h
      case known prop =>
        rw [DavParse.propadd_none hp] at h
        cases h
      all_goals
        cases h
        exact ⟨hp, .inl rfl⟩

/-- Events that start no request leave none, and keep the buffer in order. -/
theorem run_not_opened {es : List (Event Bytes UInt8)} {s t : DavParse} (hno : ¬ Opened es) (hx : ∀ u, .text u ∈ es → NUL ∉ u)
    (hp : s.p = none) (hb : s.buf.Text) (h : run DavParse.step es s = .ok t) : t.p = none ∧ t.buf.Text := by
  induction es generalizing s with
  | nil =>
    cases h
    exact ⟨hp, hb⟩
  | cons e es ih =>
    obtain ⟨s', hstep, hrun⟩ := run_cons_ok.mp h
    have hno' : ¬ Opened es := fun ⟨m, type, hm, hrole⟩ => hno ⟨m, type, List.mem_cons_of_mem _ hm, hrole⟩
    have hs' : s'.p = none ∧ s'.buf.Text := by
      cases he : e.isTag with
      | false =>
        cases e with
        | text u =>
          rw [DavParse.step_text] at hstep
          cases hstep
          exact ⟨hp, hb.keep (hx u List.mem_cons_self) s.dflt⟩
        | start n => cases he
        | close n => cases he
      | true =>
        have hone : ¬ Opened [e] := fun ⟨m, type, hm, hrole⟩ => hno ⟨m, type, by simp_all, hrole⟩
        obtain ⟨hp', hbuf⟩ := step_not_opened he hone hp hstep
        exact ⟨hp', hb.start hbuf⟩
    exact ih hno' (fun u hu => hx u (List.mem_cons_of_mem _ hu)) hs'.1 hs'.2 hrun

/-- The parser at the start of the content of the request, in an accepted document. -/
theorem run_to_request {d inner : Content Bytes UInt8} {pre post : List (Event Bytes UInt8)} {r : Bytes} {type : CalReqType}
    {c : Caldav} (hx : NUL ∉ d.chars) (heq : d.events = pre ++ .start r :: (inner.events ++ .close r :: post))
    (hr : role r = .request type) (hno : ¬ Opened pre) (h : caldavParse d.events = .ok (some c)) :
    ∃ s t, run DavParse.step (pre ++ [.start r]) .init = .ok s ∧ InRequest s ∧ s.handlers = .parse ∧
      run DavParse.step inner.events s = .ok t := by
  obtain ⟨u, hrun, hu⟩ : ∃ u, run DavParse.step d.events .init = .ok u ∧ u.p = some c := by
    unfold caldavParse at h
    cases hrun : run DavParse.step d.events .init with
    | error er =>
      rw [hrun] at h
      cases h
    | ok u =>
      rw [hrun] at h
      exact ⟨u, rfl, Except.ok.inj h⟩
  rw [heq] at hrun
  obtain ⟨s₀, hpre, hrun⟩ := run_append_ok.mp hrun
  obtain ⟨s, hstart, hrun⟩ := run_cons_ok.mp hrun
  obtain ⟨t, hinner, hrest⟩ := run_append_ok.mp hrun
  have htexts (b : Bytes) (hb : .text b ∈ pre) : NUL ∉ b :=
    nul_notMem_chars.mp hx b (by rw [heq]; exact List.mem_append_left _ hb)
  obtain ⟨hp, hb⟩ := run_not_opened hno htexts rfl Buf.text_init hpre
  have hh : s₀.handlers = .parse := by
    cases hh : s₀.handlers with
    | parse => rfl
    | prop =>
      rw [DavParse.step_start_prop hh, DavParse.propopen_eq, hr] at hstart
      dsimp only at hstart
      rw [DavParse.propadd_none hp] at hstart
      cases hstart
    | none =>
      have hrun' : run DavParse.step (.start r :: (inner.events ++ .close r :: post)) s₀ = .ok u :=
        run_cons_ok.mpr ⟨s, hstart, run_append_ok.mpr ⟨t, hinner, hrest⟩⟩
      rw [(DavParse.run_finished hh hrun').1, hp] at hu
      cases hu
  have hs := DavParse.start_first hp hh hr hstart
  refine ⟨s, t, run_past hpre (run_one hstart), ?_, ?_, hinner⟩
  · rw [hs]
    exact ⟨⟨_, rfl⟩, hb⟩
  · rw [hs]
    exact hh

theorem propName_eq_qname {n : Bytes} : propName n = qname n ↔ 58 ∈ n ∨ n = [] := by
  unfold propName qname
  cases h : strrchr 58 n with
  | none =>
    have hno : 58 ∉ n := by
      have hn := strchr_eq_none.mp (Option.map_eq_none_iff.mp h)
      simpa using hn
    simp [hno]
  | some p =>
    obtain ⟨rfl, -⟩ := strrchr_eq_some.mp h
    simp

/-- A request lists the children of its `prop` elements, and what stands in these counts for nothing,
exactly where no child has elements in it, each has a namespace and a `prop` among them is the last. -/
theorem caldavParse_lists_iff {d inner : Content Bytes UInt8} {type : CalReqType} {c : Caldav} (hx : NUL ∉ d.chars)
    (hreq : request d = some (type, inner)) (h : caldavParse d.events = .ok (some c)) :
    ListsChildren d inner c ↔ FlatProps inner := by
  obtain ⟨inner', hreq', hes⟩ := caldavParse_recorded hx h
  rw [hreq, Option.some.injEq, Prod.mk.injEq] at hreq'
  obtain ⟨-, rfl⟩ := hreq'
  obtain ⟨pre, r, post, heq, hr, hno⟩ := events_of_request hreq
  obtain ⟨s, t, hpast, hs, hm, hrun⟩ := run_to_request hx heq hr hno h
  have hxi : NUL ∉ inner.chars := by
    rw [nul_notMem_chars]
    intro u hu
    refine nul_notMem_chars.mp hx u ?_
    rw [heq]
    exact List.mem_append_right _ (List.mem_cons_of_mem _ (List.mem_append_left _ hu))
  -- the entries are those recorded, whatever they are
  have hident : c.props.map CalProp.ident = (recorded .parse inner).map fun e => (propKey e.1, propName e.1) := by
    refine (map_eq_map_iff (P := fun _ => True) hes ?_).mpr fun _ _ => trivial
    intro e _ p hep
    rw [CalProp.ident, hep.key, hep.name]
    exact iff_of_true rfl trivial
  have hnames : ((propsOf inner).flatMap Content.children).map (fun e => (propKey e.1, propName e.1)) =
      ((propsOf inner).flatMap Content.children).map (fun e => (propKey e.1, qname e.1)) ↔
      ∀ k ∈ propsOf inner, ∀ e ∈ k.children, 58 ∈ e.1 ∨ e.1 = [] := by
    simp only [List.map_inj_left, Prod.mk.injEq, true_and, propName_eq_qname, List.mem_flatMap]
    exact ⟨fun h k hk e he => h e ⟨k, hk, he⟩, fun h e ⟨k, hk, he⟩ => h k hk e he⟩
  constructor
  · intro hlists
    have hlen : (recorded s.handlers inner).length = ((propsOf inner).flatMap Content.children).length := by
      have hentries := congrArg List.length (hident.symm.trans hlists.entries)
      rw [List.length_map, List.length_map] at hentries
      rw [hm]
      exact hentries
    have hflat := (recorded_props hs (by simp [hm]) hxi hpast hrun (hlists.quiet pre r type post heq hr hno)).2 hlen
    have hrec := (recorded_flatProps hs hm hxi hrun hflat).1
    have hentries := hlists.entries
    rw [hident, hrec, hnames] at hentries
    exact fun k hk => ⟨hflat k hk, hentries k hk⟩
  · intro hflat
    have hrec := (recorded_flatProps hs hm hxi hrun fun k hk => (hflat k hk).1).1
    constructor
    · rw [hident, hrec, hnames]
      exact fun k hk => (hflat k hk).2
    · intro pre' r' type' post' _ _ _ q hq s' t' _ hrun'
      obtain ⟨k, hk, e, he, heq'⟩ := mem_propPlaces hq
      have htext := (hflat k hk).1.textOnly e he
      rw [heq'] at htext
      rw [DavParse.run_textOnly htext hrun']
      exact ⟨rfl, rfl⟩

/-- What stands in a request for a known and an unknown property. -/
def twoProperties : Content Bytes UInt8 :=
  .elem (ascii "DAV::prop") (.elem (ascii "DAV::getetag") .nil (.elem (ascii "DAV::lockdiscovery") (.text (ascii "none") .nil) .nil)) .nil

theorem caldavParse_lists_two :
    ListsChildren (.elem (ascii "DAV::propfind") twoProperties .nil) twoProperties
      ⟨.propfind, [⟨.getetag, ascii "getetag", ascii "DAV:", none, 0⟩, ⟨.max, ascii "lockdiscovery", ascii "DAV:", none, 0⟩], []⟩ :=
  (caldavParse_lists_iff (by decide +kernel) rfl rfl).mpr (by decide +kernel)

/-- The properties of the query among the regression tests, without white space. -/
def simpleQuery : Content Bytes UInt8 :=
  .elem (ascii "DAV::prop")
    (.elem (ascii "DAV::getetag") .nil
      (.elem (ascii "urn:ietf:params:xml:ns:caldav:calendar-data")
        (.elem (ascii "urn:ietf:params:xml:ns:caldav:comp")
          (.elem (ascii "urn:ietf:params:xml:ns:caldav:prop") .nil
            (.elem (ascii "urn:ietf:params:xml:ns:caldav:comp")
              (.elem (ascii "urn:ietf:params:xml:ns:caldav:prop") .nil .nil) .nil)) .nil) .nil))
    .nil

/-- What stands in the calendar data of that query is listed as well. -/
theorem caldavParse_not_lists :
    ∃ c, caldavParse (Content.elem (ascii "urn:ietf:params:xml:ns:caldav:calendar-query") simpleQuery .nil).events = .ok (some c) ∧
      ¬ ListsChildren (.elem (ascii "urn:ietf:params:xml:ns:caldav:calendar-query") simpleQuery .nil) simpleQuery c :=
  ⟨_, rfl, fun h => absurd h.entries (by decide +kernel)⟩

end Kcaldav
