import Kcaldav.Caldav.Absent

/-! # What becomes of the elements of a document

The handlers are swapped at the tags of `prop` elements, wherever these stand, and taken
away where a request ends. From that alone follows which elements of a request become
entries of it, and in which order; the value of an entry is the text of its element
where the element has any.
-/
namespace Kcaldav
open CString Markup

namespace Handlers

/-- The handlers behind a start tag of an element that is not refused. -/
def opening (m : Handlers) (n : Bytes) : Handlers :=
  match m, role n with
  | .parse, .prop => .prop
  | m, _ => m

/-- The handlers behind an end tag. -/
def closing (m : Handlers) (n : Bytes) : Handlers :=
  match m, role n with
  | .prop, .prop => .parse
  | .parse, .request _ => .none
  | m, _ => m

/-- The handlers behind some content. -/
def after (m : Handlers) : Content Bytes UInt8 → Handlers
  | .nil => m
  | .text _ rest => after m rest
  | .elem n inner rest => after ((after (m.opening n) inner).closing n) rest

end Handlers

def Known (n : Bytes) : Prop := ∃ prop, role n = .known prop

/-- The key of a property of this name. -/
def propKey (n : Bytes) : CalPropType :=
  match role n with
  | .known prop => prop
  | _ => .max

instance (n : Bytes) : Decidable (Known n) :=
  match h : role n with
  | .known prop => isTrue ⟨prop, h⟩
  | .request _ => isFalse fun ⟨_, h'⟩ => by simp [h] at h'
  | .href => isFalse fun ⟨_, h'⟩ => by simp [h] at h'
  | .prop => isFalse fun ⟨_, h'⟩ => by simp [h] at h'
  | .other => isFalse fun ⟨_, h'⟩ => by simp [h] at h'

/-- The elements that become entries of a request, in this order, with what stands in
them: unknown ones where they start, known ones where they end. -/
def recorded (m : Handlers) : Content Bytes UInt8 → List (Bytes × Content Bytes UInt8)
  | .nil => []
  | .text _ rest => recorded m rest
  | .elem n inner rest =>
    let m' := (m.opening n).after inner
    (if m = .prop ∧ ¬ Known n then [(n, inner)] else []) ++ recorded (m.opening n) inner ++
      (if m' = .prop ∧ Known n then [(n, inner)] else []) ++ recorded (m'.closing n) rest

/-- The first request of a document. -/
def request : Content Bytes UInt8 → Option (CalReqType × Content Bytes UInt8)
  | .nil => none
  | .text _ rest => request rest
  | .elem n inner rest =>
    match role n with
    | .request type => some (type, inner)
    | _ => (request inner).orElse fun _ => request rest

/-! ## The buffer -/

/-- A C string stands in the buffer that is not empty, and up to the length of it
where the length has not been set back. -/
structure Buf.Text (b : Buf) : Prop where
  ne_nil : cstr b.buf ≠ []
  upTo : b.sz ≠ 0 → cstr b.buf = b.buf.take b.sz

theorem Buf.Text.reset {b : Buf} (h : b.Text) : b.reset.Text := ⟨h.ne_nil, fun h' => absurd rfl h'⟩

theorem Buf.Text.append {b : Buf} (h : b.Text) {s : Bytes} (hs : NUL ∉ s) : (bufappend b s).Text := by
  by_cases hne : s = []
  · subst hne
    exact h
  have htake : NUL ∉ b.buf.take b.sz := by
    by_cases hsz : b.sz = 0
    · simp [hsz]
    · rw [← h.upTo hsz]
      exact nul_notMem_cstr b.buf
  have hcstr : cstr (bufappend b s).buf = b.buf.take b.sz ++ s := by
    have hnul : NUL ∉ b.buf.take b.sz ++ s := by
      rw [List.mem_append]
      exact fun h' => h'.elim htake hs
    rw [bufappend_buf hne, ← List.append_assoc, cstr_append_nul hnul]
  constructor
  · rw [hcstr]
    exact fun h' => hne (List.append_eq_nil_iff.mp h').2
  · intro _
    rw [hcstr, bufappend_take]

/-- A text is kept where the default handler is there. -/
theorem Buf.Text.keep {b : Buf} (h : b.Text) {u : Bytes} (hu : NUL ∉ u) (dflt : Bool) :
    (if dflt then bufappend b u else b).Text := by
  split
  · exact h.append hu
  · exact h

/-- A start tag leaves the buffer, or sets it back. -/
theorem Buf.Text.start {b b' : Buf} (h : b.Text) (hbuf : b' = b ∨ b' = b.reset) : b'.Text := by
  rcases hbuf with rfl | rfl
  · exact h
  · exact h.reset

theorem Buf.text_init : DavParse.init.buf.Text := ⟨by decide, fun _ => rfl⟩

/-- What is read of a buffer that has been set back and then written: the text itself, or
what stood there before. -/
theorem Buf.cstr_reset {b : Buf} (h : b.Text) {s : Bytes} (hs : NUL ∉ s) :
    (s ≠ [] → cstr (bufappend b.reset s).buf = s) ∧ (s = [] → cstr (bufappend b.reset s).buf = cstr b.buf) := by
  constructor
  · intro hne
    have hsz : (bufappend b.reset s).sz ≠ 0 := by
      rw [bufappend_sz]
      exact fun h' => hne (List.length_eq_zero_iff.mp (by omega))
    rw [(h.reset.append hs).upTo hsz, bufappend_take]
    rfl
  · rintro rfl
    rfl

/-! ## One tag of a request -/

@[simp] theorem propEntry_key (type : CalReqType) (n : Bytes) (prop : CalPropType) (cp : Bytes) :
    (propEntry type n prop cp).key = prop := by
  unfold propEntry
  dsimp only
  split
  · rfl
  · split
    · rfl
    · split <;> rfl

@[simp] theorem propEntry_name (type : CalReqType) (n : Bytes) (prop : CalPropType) (cp : Bytes) :
    ((propEntry type n prop cp).xmlns, (propEntry type n prop cp).name) = propName n := by
  unfold propEntry
  dsimp only
  split
  · rfl
  · split
    · rfl
    · split <;> rfl

theorem propEntry_val {n : Bytes} {prop : CalPropType} (h : prop ≠ .max) (cp : Bytes) :
    (propEntry .propertyupdate n prop cp).val = some cp := by
  unfold propEntry
  dsimp only
  rw [if_neg h, if_neg (by simp)]
  split <;> rfl

theorem propKey_known {n : Bytes} {prop : CalPropType} (h : role n = .known prop) : propKey n = prop := by
  rw [propKey, h]

theorem propKey_unknown {n : Bytes} (h : ¬ Known n) : propKey n = .max := by
  unfold propKey
  split
  next prop hrole => exact absurd ⟨prop, hrole⟩ h
  · rfl

theorem propKey_eq_max {n : Bytes} : propKey n = .max ↔ ¬ Known n := by
  refine ⟨?_, propKey_unknown⟩
  rintro h ⟨prop, hrole⟩
  rw [propKey_known hrole] at h
  exact role_known hrole h

/-- A request with some more entries is there. -/
structure Grown (c : Caldav) (es : List CalProp) (s : DavParse) : Prop where
  grown : ∃ c', s.p = some c' ∧ c'.type = c.type ∧ c'.props = c.props ++ es

namespace DavParse
variable {s t : DavParse} {c : Caldav} {n : Bytes}

theorem grown_self (hp : s.p = some c) : Grown c [] s := ⟨c, hp, rfl, (List.append_nil _).symm⟩

theorem grown_propadd (hp : s.p = some c) {prop : CalPropType} {cp : Bytes} (h : propadd s n prop cp = .ok t) :
    t = { s with p := some { c with props := c.props ++ [propEntry c.type n prop cp] } } ∧
      Grown c [propEntry c.type n prop cp] t := by
  rw [propadd, hp] at h
  cases h
  exact ⟨rfl, ⟨_, rfl, rfl, rfl⟩⟩

/-- What a start tag does in a request. -/
theorem start_request (hp : s.p = some c) (h : s.step (.start n) = .ok t) :
    t.handlers = s.handlers.opening n ∧ (t.buf = s.buf ∨ t.buf = s.buf.reset) ∧
      Grown c (if s.handlers = .prop ∧ ¬ Known n then [propEntry c.type n .max []] else []) t ∧
      (s.handlers = .prop → Known n → t = { s with buf := s.buf.reset, dflt := true }) := by
  cases hh : s.handlers with
  | none =>
    simp only [step, hh] at h
    cases h
    exact ⟨hh.trans rfl, .inl rfl, by simpa using grown_self hp, fun h' => by simp at h'⟩
  | parse =>
    rw [step_start_parse hh, parseopen_eq] at h
    rw [if_neg (fun h' => by simp at h')]
    cases hn : role n <;> simp only [hn] at h
    case request =>
      rw [caldavAlloc, hp] at h
      cases h
    all_goals
      cases h
      refine ⟨by simp [Handlers.opening, hn, hh], ?_, grown_self hp, fun h' => by simp at h'⟩
      first | exact .inl rfl | exact .inr rfl
  | prop =>
    rw [step_start_prop hh, propopen_eq] at h
    by_cases hk : Known n
    · obtain ⟨prop, hn⟩ := hk
      simp only [hn] at h
      cases h
      refine ⟨hh.trans rfl, .inr rfl, ?_, fun _ _ => by rw [hh]⟩
      rw [if_neg (fun h' => h'.2 ⟨prop, hn⟩)]
      exact grown_self hp
    · have hadd : propadd s n .max [] = .ok t := by
        cases hn : role n <;> simp only [hn] at h <;> first | exact h | exact absurd ⟨_, hn⟩ hk
      obtain ⟨rfl, hgrown⟩ := grown_propadd hp hadd
      refine ⟨hh.trans rfl, .inl rfl, ?_, fun _ hk' => absurd hk' hk⟩
      rw [if_pos ⟨rfl, hk⟩]
      exact hgrown

/-- What an end tag does in a request. -/
theorem close_request (hp : s.p = some c) (h : s.step (.close n) = .ok t) :
    t.handlers = s.handlers.closing n ∧ t.buf = s.buf ∧
      Grown c (if s.handlers = .prop ∧ Known n then [propEntry c.type n (propKey n) (cstr s.buf.buf)] else []) t := by
  cases hh : s.handlers with
  | none =>
    simp only [step, hh] at h
    cases h
    exact ⟨hh.trans rfl, rfl, by simpa using grown_self hp⟩
  | parse =>
    rw [step_close_parse hh, parseclose_eq] at h
    rw [if_neg (fun h' => by simp at h')]
    cases hn : role n <;> simp only [hn] at h
    case href =>
      split at h
      · cases h
        exact ⟨by simp [Handlers.closing, hn, hh], rfl, grown_self hp⟩
      · rw [hp] at h
        dsimp only at h
        split at h
        · cases h
        · cases h
          exact ⟨by simp [Handlers.closing, hn, hh], rfl, ⟨_, rfl, rfl, (List.append_nil _).symm⟩⟩
    all_goals
      cases h
      exact ⟨by simp [Handlers.closing, hn, hh], rfl, grown_self hp⟩
  | prop =>
    rw [step_close_prop hh, propclose_eq] at h
    by_cases hk : Known n
    · obtain ⟨prop, hn⟩ := hk
      simp only [hn] at h
      rw [if_pos ⟨rfl, prop, hn⟩, propKey_known hn]
      rw [propadd, hp] at h
      cases h
      exact ⟨by simp [Handlers.closing, hn, hh], rfl, ⟨_, rfl, rfl, rfl⟩⟩
    · rw [if_neg (fun h' => hk h'.2)]
      cases hn : role n <;> simp only [hn] at h
      case known prop => exact absurd ⟨prop, hn⟩ hk
      all_goals
        cases h
        exact ⟨by simp [Handlers.closing, hn, hh], rfl, grown_self hp⟩

/-- Text and nothing else is written to the buffer as one piece. -/
theorem run_textOnly {d : Content Bytes UInt8} (hd : d.TextOnly) (h : run step d.events s = .ok t) :
    t = { s with buf := if s.dflt then bufappend s.buf d.chars else s.buf } := by
  induction d generalizing s with
  | nil =>
    cases h
    simp [Content.chars]
  | text u rest ih =>
    rw [Content.events_text, run_cons, step_text] at h
    rw [ih hd h]
    cases hdf : s.dflt <;> simp [Content.chars, bufappend_append]
  | elem n inner rest => exact absurd hd (List.cons_ne_nil _ _)

end DavParse

/-! ## Runs -/

theorem Handlers.prop_of_opening {m : Handlers} {n : Bytes} (hn : role n ≠ .prop) (h : m.opening n = .prop) : m = .prop := by
  unfold opening at h
  split at h
  next hn' => exact absurd hn' hn
  · exact h

theorem Handlers.prop_of_closing {m : Handlers} {n : Bytes} (h : m.closing n = .prop) : m = .prop ∧ role n ≠ .prop := by
  unfold closing at h
  split at h
  · cases h
  · cases h
  next m' _ hne _ => exact ⟨h, fun hn => hne h hn⟩

theorem Handlers.prop_closing {n : Bytes} (hn : role n ≠ .prop) : Handlers.prop.closing n = .prop := by
  cases h : role n
  case prop => exact absurd h hn
  all_goals simp [closing, h]

theorem Handlers.parse_opening {n : Bytes} (hn : role n ≠ .prop) : Handlers.parse.opening n = .parse := by
  cases h : role n
  case prop => exact absurd h hn
  all_goals simp [opening, h]

theorem Handlers.parse_closing {n : Bytes} (hn : ∀ type, role n ≠ .request type) : Handlers.parse.closing n = .parse := by
  cases h : role n
  case request type => exact absurd h (hn type)
  all_goals simp [closing, h]

theorem Handlers.prop_of_after {m : Handlers} {d : Content Bytes UInt8} (h : m.after d = .prop) : m = .prop := by
  induction d generalizing m with
  | nil => exact h
  | text _ rest ih => exact ih h
  | elem n inner rest ihInner ihRest =>
    obtain ⟨hafter, hn⟩ := prop_of_closing (ihRest h)
    exact prop_of_opening hn (ihInner hafter)

theorem Known.ne_prop {n : Bytes} (h : Known n) : role n ≠ .prop := by
  obtain ⟨prop, hn⟩ := h
  rw [hn]
  exact fun h' => by cases h'

/-- The entry is that of the element: its name, and its value where it is a known one that is
set and has only text in it. -/
structure Records (type : CalReqType) (e : Bytes × Content Bytes UInt8) (p : CalProp) : Prop where
  key : p.key = propKey e.1
  name : (p.xmlns, p.name) = propName e.1
  val : Known e.1 → type = .propertyupdate → e.2.TextOnly →
    ∃ v, p.val = some v ∧ (e.2.chars ≠ [] → v = e.2.chars) ∧ (e.2.chars = [] → v ≠ [])

theorem Grown.trans {c c' : Caldav} {es es' : List CalProp} {s : DavParse} (htype : c'.type = c.type)
    (hprops : c'.props = c.props ++ es) (h : Grown c' es' s) : Grown c (es ++ es') s := by
  obtain ⟨c'', hp, ht, hprops'⟩ := h.grown
  refine ⟨c'', hp, ht.trans htype, ?_⟩
  rw [hprops', hprops, List.append_assoc]

/-- The entries that the content of a request adds to it, and what it leaves of the parser. -/
theorem run_recorded (d : Content Bytes UInt8) {s t : DavParse} {c : Caldav} (hp : s.p = some c) (hx : NUL ∉ d.chars)
    (hb : s.buf.Text) (h : run DavParse.step d.events s = .ok t) :
    t.handlers = s.handlers.after d ∧ t.buf.Text ∧
      ∃ es, List.Forall₂ (Records c.type) (recorded s.handlers d) es ∧ Grown c es t := by
  induction d generalizing s t c with
  | nil =>
    cases h
    exact ⟨rfl, hb, [], .nil, DavParse.grown_self hp⟩
  | text u rest ih =>
    rw [Content.chars, List.mem_append, not_or] at hx
    rw [Content.events_text, run_cons, DavParse.step_text] at h
    exact ih (s := { s with buf := if s.dflt then bufappend s.buf u else s.buf }) hp hx.2 (hb.keep hx.1 s.dflt) h
  | elem n inner rest ihInner ihRest =>
    rw [Content.chars, List.mem_append, not_or] at hx
    obtain ⟨s₁, s₂, s₃, hstart, hinner, hclose, hrest⟩ := run_elem_ok.mp h
    obtain ⟨hm₁, hbuf₁, ⟨c₁, hp₁, htype₁, hprops₁⟩, hknown⟩ := DavParse.start_request hp hstart
    have hb₁ := hb.start hbuf₁
    obtain ⟨hm₂, hb₂, es₂, hes₂, ⟨c₂, hp₂, htype₂, hprops₂⟩⟩ := ihInner hp₁ hx.1 hb₁ hinner
    obtain ⟨hm₃, hbuf₃, ⟨c₃, hp₃, htype₃, hprops₃⟩⟩ := DavParse.close_request hp₂ hclose
    rw [hm₁] at hm₂ hes₂
    rw [hm₂] at hm₃ hprops₃
    have hb₃ : s₃.buf.Text := by
      rw [hbuf₃]
      exact hb₂
    obtain ⟨hm₄, hb₄, es₄, hes₄, hgrown⟩ := ihRest hp₃ hx.2 hb₃ hrest
    rw [hm₃] at hm₄ hes₄
    refine ⟨hm₄, hb₄, ?_⟩
    rw [htype₁] at hes₂
    rw [htype₃, htype₂, htype₁] at hes₄
    have hfirst : List.Forall₂ (Records c.type) (if s.handlers = .prop ∧ ¬ Known n then [(n, inner)] else [])
        (if s.handlers = .prop ∧ ¬ Known n then [propEntry c.type n .max []] else []) := by
      split
      next hk =>
        refine .cons ⟨?_, propEntry_name .., fun hk' => absurd hk' hk.2⟩ .nil
        rw [propEntry_key, propKey_unknown hk.2]
      · exact .nil
    have hlast : List.Forall₂ (Records c.type) (if (s.handlers.opening n).after inner = .prop ∧ Known n then [(n, inner)] else [])
        (if (s.handlers.opening n).after inner = .prop ∧ Known n then [propEntry c₂.type n (propKey n) (cstr s₂.buf.buf)] else []) := by
      split
      next hk =>
        refine .cons ⟨propEntry_key .., propEntry_name .., ?_⟩ .nil
        intro hkn hset htext
        have hprop := Handlers.prop_of_opening hkn.ne_prop (Handlers.prop_of_after hk.1)
        rw [hknown hprop hkn] at hinner
        have hbuf : s₂.buf = bufappend s.buf.reset inner.chars := by rw [DavParse.run_textOnly htext hinner, if_pos rfl]
        refine ⟨cstr s₂.buf.buf, ?_, ?_, ?_⟩
        · rw [htype₂, htype₁, hset]
          exact propEntry_val (fun hmax => propKey_eq_max.mp hmax hkn) _
        · rw [hbuf]
          exact (Buf.cstr_reset hb hx.1).1
        · intro hnil
          rw [hbuf, (Buf.cstr_reset hb hx.1).2 hnil]
          exact hb.ne_nil
      · exact .nil
    refine ⟨_, List.rel_append (List.rel_append (List.rel_append hfirst hes₂) hlast) hes₄, ?_⟩
    simp only [List.append_assoc]
    exact .trans htype₁ hprops₁ (.trans htype₂ hprops₂ (.trans htype₃ hprops₃ hgrown))

/-! ## Documents -/

/-- Two lists are one under two maps exactly where their members are, if members at one place
are so exactly on a condition. -/
theorem map_eq_map_iff {α β γ : Type} {R : α → β → Prop} {f : α → γ} {g : β → γ} {P : α → Prop} {l : List α} {l' : List β}
    (h : List.Forall₂ R l l') (hR : ∀ a ∈ l, ∀ b, R a b → (g b = f a ↔ P a)) : l'.map g = l.map f ↔ ∀ a ∈ l, P a := by
  induction h with
  | nil => simp
  | @cons a b l l' hab _ ih =>
    rw [List.map_cons, List.map_cons, List.cons.injEq, List.forall_mem_cons, hR a List.mem_cons_self b hab,
      ih fun a ha => hR a (List.mem_cons_of_mem _ ha)]

theorem request_textOnly {d : Content Bytes UInt8} (h : d.TextOnly) : request d = none := by
  induction d with
  | nil => rfl
  | text _ rest ih => exact ih h
  | elem n inner rest => exact absurd h (List.cons_ne_nil _ _)

namespace DavParse
variable {s t : DavParse} {n : Bytes}

/-- Once the handlers are taken away the request is what it is. -/
theorem run_finished {es : List (Event Bytes UInt8)} (hh : s.handlers = .none) (h : run step es s = .ok t) :
    t.p = s.p ∧ t.handlers = .none := by
  refine run_keeps (P := fun u => u.p = s.p ∧ u.handlers = .none) ?_ ⟨rfl, hh⟩ h
  rintro u e v ⟨hp, hn⟩ hstep
  cases e with
  | text b =>
    rw [step_text] at hstep
    cases hstep
    exact ⟨hp, hn⟩
  | start n =>
    simp only [step, hn] at hstep
    cases hstep
    exact ⟨hp, hn⟩
  | close n =>
    simp only [step, hn] at hstep
    cases hstep
    exact ⟨hp, hn⟩

/-- A property that ends where there is no request ends the parse. -/
theorem textOnly_absent {d : Content Bytes UInt8} (hp : s.p = none) (hh : s.handlers = .prop)
    (h : run step d.events s = .ok t) : d.TextOnly := by
  induction d generalizing s t with
  | nil => rfl
  | text u rest ih =>
    rw [Content.events_text, run_cons, step_text] at h
    exact ih (s := { s with buf := if s.dflt then bufappend s.buf u else s.buf }) hp hh h
  | elem n inner rest ihInner _ =>
    obtain ⟨s₁, s₂, s₃, hstart, hinner, hclose, -⟩ := run_elem_ok.mp h
    rw [step_start_prop hh, propopen_eq] at hstart
    by_cases hk : Known n
    · obtain ⟨prop, hn⟩ := hk
      simp only [hn] at hstart
      cases hstart
      have htext := ihInner (s := { s with buf := s.buf.reset, dflt := true }) hp hh hinner
      have hs₂ := run_textOnly htext hinner
      have hp₂ : s₂.p = none := by rw [hs₂]; exact hp
      have hh₂ : s₂.handlers = .prop := by rw [hs₂]; exact hh
      rw [step_close_prop hh₂, propclose_eq, hn] at hclose
      dsimp only at hclose
      rw [propadd_none hp₂] at hclose
      cases hclose
    · have hadd : propadd s n .max [] = .ok s₁ := by
        cases hn : role n <;> simp only [hn] at hstart <;> first | exact hstart | exact absurd ⟨_, hn⟩ hk
      rw [propadd_none hp] at hadd
      cases hadd

/-- The start of the first request makes it. -/
theorem start_first {type : CalReqType} (hp : s.p = none) (hh : s.handlers = .parse) (hn : role n = .request type)
    (h : s.step (.start n) = .ok t) : t = { s with p := some ⟨type, [], []⟩ } := by
  rw [step_start_parse hh, parseopen_eq, hn] at h
  dsimp only at h
  rw [caldavAlloc, hp] at h
  cases h
  rfl

/-- What an element that is not a request does where there is none. -/
theorem start_absent (hp : s.p = none) (hh : s.handlers = .parse) (hn : ∀ type, role n ≠ .request type)
    (h : s.step (.start n) = .ok t) : t.p = none ∧ t.handlers = Handlers.parse.opening n ∧ (t.buf = s.buf ∨ t.buf = s.buf.reset) := by
  rw [step_start_parse hh, parseopen_eq] at h
  cases hr : role n <;> simp only [hr] at h
  case request type => exact absurd hr (hn type)
  all_goals
    cases h
    refine ⟨hp, by simp [Handlers.opening, hr, hh], ?_⟩
    first | exact .inl rfl | exact .inr rfl

theorem close_absent (hp : s.p = none) (hh : s.handlers = Handlers.parse.opening n) (hn : ∀ type, role n ≠ .request type)
    (h : s.step (.close n) = .ok t) : t.p = none ∧ t.handlers = .parse ∧ t.buf = s.buf := by
  cases hr : role n
  case request type => exact absurd hr (hn type)
  case prop =>
    have hprop : s.handlers = .prop := by simp [hh, Handlers.opening, hr]
    rw [step_close_prop hprop, propclose_eq, hr] at h
    cases h
    exact ⟨hp, rfl, rfl⟩
  all_goals
    have hparse : s.handlers = .parse := by simp [hh, Handlers.opening, hr]
    rw [step_close_parse hparse, parseclose_eq, hr] at h
  case href =>
    dsimp only at h
    split at h
    · cases h
      exact ⟨hp, hparse, rfl⟩
    · rw [hp] at h
      cases h
  all_goals
    cases h
    exact ⟨hp, hparse, rfl⟩

end DavParse

/-- A request with these entries has been read. -/
structure Finished (type : CalReqType) (inner : Content Bytes UInt8) (s : DavParse) : Prop where
  handlers : s.handlers = .none
  entries : ∃ c, s.p = some c ∧ c.type = type ∧ List.Forall₂ (Records type) (recorded .parse inner) c.props

/-- What is left of the parser behind some content in which the request, if any, is the one given. -/
def Outcome (s : DavParse) : Option (CalReqType × Content Bytes UInt8) → Prop
  | none => s.p = none ∧ s.handlers = .parse ∧ s.buf.Text
  | some (type, inner) => Finished type inner s

theorem run_request {type : CalReqType} {n : Bytes} {inner : Content Bytes UInt8} {s s₁ s₂ t : DavParse} (hn : role n = .request type)
    (hp : s.p = none) (hh : s.handlers = .parse) (hx : NUL ∉ inner.chars) (hb : s.buf.Text) (hstart : s.step (.start n) = .ok s₁)
    (hinner : run DavParse.step inner.events s₁ = .ok s₂) (hclose : s₂.step (.close n) = .ok t) : Finished type inner t := by
  obtain rfl := DavParse.start_first hp hh hn hstart
  obtain ⟨hm, -, es, hes, ⟨c, hp₂, htype, hprops⟩⟩ := run_recorded (s := { s with p := some ⟨type, [], []⟩ }) inner rfl hx hb hinner
  dsimp only at hm hes htype hprops
  rw [hh] at hm hes
  rw [List.nil_append] at hprops
  obtain ⟨hm₃, -, ⟨c', hp₃, htype', hprops'⟩⟩ := DavParse.close_request hp₂ hclose
  have hne : s₂.handlers ≠ .prop := by
    rw [hm]
    intro h
    cases Handlers.prop_of_after h
  rw [if_neg (fun h => hne h.1), List.append_nil] at hprops'
  refine ⟨?_, c', hp₃, htype'.trans htype, ?_⟩
  · rw [hm₃]
    cases h : s₂.handlers with
    | prop => exact absurd h hne
    | parse => simp [Handlers.closing, hn]
    | none => simp [Handlers.closing]
  · rw [hprops', hprops]
    exact hes

theorem run_outcome (d : Content Bytes UInt8) {s t : DavParse} (hp : s.p = none) (hh : s.handlers = .parse) (hx : NUL ∉ d.chars)
    (hb : s.buf.Text) (h : run DavParse.step d.events s = .ok t) : Outcome t (request d) := by
  induction d generalizing s t with
  | nil =>
    cases h
    exact ⟨hp, hh, hb⟩
  | text u rest ih =>
    rw [Content.chars, List.mem_append, not_or] at hx
    rw [Content.events_text, run_cons, DavParse.step_text] at h
    exact ih (s := { s with buf := if s.dflt then bufappend s.buf u else s.buf }) hp hh hx.2 (hb.keep hx.1 s.dflt) h
  | elem n inner rest ihInner ihRest =>
    rw [Content.chars, List.mem_append, not_or] at hx
    obtain ⟨s₁, s₂, s₃, hstart, hinner, hclose, hrest⟩ := run_elem_ok.mp h
    -- behind a request nothing is read any more
    have finished {type : CalReqType} {d' : Content Bytes UInt8} (hf : Finished type d' s₃) : Finished type d' t := by
      obtain ⟨hp', hh'⟩ := DavParse.run_finished hf.handlers hrest
      exact ⟨hh', by rw [hp']; exact hf.entries⟩
    cases hn : role n with
    | request type =>
      rw [request, hn]
      exact finished (run_request hn hp hh hx.1 hb hstart hinner hclose)
    | _ =>
      have hreq (type : CalReqType) : role n ≠ .request type := by simp [hn]
      have hd : request (.elem n inner rest) = (request inner).orElse fun _ => request rest := by rw [request, hn]
      rw [hd]
      obtain ⟨hp₁, hh₁, hbuf₁⟩ := DavParse.start_absent hp hh hreq hstart
      have hb₁ := hb.start hbuf₁
      -- where the content of the element holds no request, the rest may
      have onward (hnone : request inner = none) (hp₂ : s₂.p = none) (hh₂ : s₂.handlers = Handlers.parse.opening n)
          (hb₂ : s₂.buf.Text) : Outcome t ((request inner).orElse fun _ => request rest) := by
        obtain ⟨hp₃, hh₃, hbuf₃⟩ := DavParse.close_absent hp₂ hh₂ hreq hclose
        rw [hnone]
        refine ihRest hp₃ hh₃ hx.2 ?_ hrest
        rw [hbuf₃]
        exact hb₂
      by_cases hprop : role n = .prop
      · have hh₁' : s₁.handlers = .prop := by simp [hh₁, Handlers.opening, hprop]
        have htext := DavParse.textOnly_absent hp₁ hh₁' hinner
        have hs₂ := DavParse.run_textOnly htext hinner
        refine onward (request_textOnly htext) (by rw [hs₂]; exact hp₁) (by rw [hs₂]; exact hh₁) ?_
        rw [hs₂]
        exact hb₁.keep hx.1 s₁.dflt
      · have hopen : Handlers.parse.opening n = .parse := Handlers.parse_opening hprop
        have houtcome := ihInner hp₁ (hh₁.trans hopen) hx.1 hb₁ hinner
        cases hr : request inner with
        | none =>
          rw [hr] at houtcome
          rw [← hr]
          exact onward hr houtcome.1 (houtcome.2.1.trans hopen.symm) houtcome.2.2
        | some r =>
          rw [hr] at houtcome
          have hf : Finished r.1 r.2 s₃ := by
            have hrun : run DavParse.step [.close n] s₂ = .ok s₃ := run_cons_ok.mpr ⟨s₃, hclose, rfl⟩
            obtain ⟨hp₃, hh₃⟩ := DavParse.run_finished houtcome.handlers hrun
            exact ⟨hh₃, by rw [hp₃]; exact houtcome.entries⟩
          exact finished hf

/-- The request of an accepted document is the first one in it, with the entries its elements give. -/
theorem caldavParse_recorded {d : Content Bytes UInt8} {c : Caldav} (hx : NUL ∉ d.chars)
    (h : caldavParse d.events = .ok (some c)) :
    ∃ inner, request d = some (c.type, inner) ∧ List.Forall₂ (Records c.type) (recorded .parse inner) c.props := by
  unfold caldavParse at h
  cases hrun : run DavParse.step d.events .init with
  | error er =>
    rw [hrun] at h
    cases h
  | ok t =>
    rw [hrun] at h
    have hp : t.p = some c := Except.ok.inj h
    have hout := run_outcome d rfl rfl hx Buf.text_init hrun
    cases hr : request d with
    | none =>
      rw [hr] at hout
      rw [hout.1] at hp
      cases hp
    | some r =>
      rw [hr] at hout
      obtain ⟨c', hp', htype, hes⟩ := hout.entries
      rw [hp] at hp'
      cases hp'
      exact ⟨r.2, by rw [htype], by rw [htype]; exact hes⟩

end Kcaldav
