import Kcaldav.Caldav.Chunks

/-! # The request that is not there

The request is allocated where an element of one of four names starts. A property is
added to it only where it is there; an address is added without a look. So an address
that ends early, before a request has started, is added to nothing.
-/
namespace Kcaldav
open CString Markup

/-- The text since the last start of an `href`. -/
def hrefText (es : List (Event Bytes UInt8)) : Option Bytes :=
  es.foldl (fun text e =>
    match e with
    | .start n => if role n = .href then some [] else text
    | .text t => text.map (· ++ t)
    | .close _ => text) none

/-- A request has started. -/
def Opened (es : List (Event Bytes UInt8)) : Prop := ∃ n type, .start n ∈ es ∧ role n = .request type

/-- A `prop` has had an element in it. -/
def Branched (es : List (Event Bytes UInt8)) : Prop :=
  ∃ n m, role n = .prop ∧ [.start n, .start m] <:+: tags es

/-- An `href` ends with text behind the start of the last one, where neither a request has
started nor a `prop` has had an element in it. -/
structure EndsEarly (past : List (Event Bytes UInt8)) (n : Bytes) : Prop where
  href : role n = .href
  text : ∃ t, hrefText past = some t ∧ t ≠ []
  opened : ¬ Opened past
  branched : ¬ Branched past

def EarlyHref (es : List (Event Bytes UInt8)) : Prop :=
  ∃ pre n post, es = pre ++ .close n :: post ∧ EndsEarly pre n

/-! ## The events read so far -/

section Past
variable {past : List (Event Bytes UInt8)} {n : Bytes} {t : Bytes}

@[simp] theorem hrefText_start :
    hrefText (past ++ [.start n]) = if role n = .href then some [] else hrefText past := by
  simp [hrefText]

@[simp] theorem hrefText_text : hrefText (past ++ [.text t]) = (hrefText past).map (· ++ t) := by
  simp [hrefText]

@[simp] theorem hrefText_close : hrefText (past ++ [.close n]) = hrefText past := by
  simp [hrefText]

theorem opened_append {es : List (Event Bytes UInt8)} (h : Opened past) : Opened (past ++ es) := by
  obtain ⟨n, type, hn, hrole⟩ := h
  exact ⟨n, type, List.mem_append_left _ hn, hrole⟩

@[simp] theorem opened_start : Opened (past ++ [.start n]) ↔ Opened past ∨ ∃ type, role n = .request type := by
  constructor
  · rintro ⟨m, type, hm, hrole⟩
    rw [List.mem_append, List.mem_singleton] at hm
    rcases hm with hm | hm
    · exact .inl ⟨m, type, hm, hrole⟩
    · cases hm
      exact .inr ⟨type, hrole⟩
  · rintro (h | ⟨type, hrole⟩)
    · exact opened_append h
    · exact ⟨n, type, by simp, hrole⟩

@[simp] theorem opened_text : Opened (past ++ [.text t]) ↔ Opened past := by
  simp [Opened]

@[simp] theorem opened_close : Opened (past ++ [.close n]) ↔ Opened past := by
  simp [Opened]

theorem tags_append (es es' : List (Event Bytes UInt8)) : tags (es ++ es') = tags es ++ tags es' :=
  List.filter_append es es'

theorem branched_append {es : List (Event Bytes UInt8)} (h : Branched past) : Branched (past ++ es) := by
  obtain ⟨n, m, hrole, hin⟩ := h
  refine ⟨n, m, hrole, ?_⟩
  rw [tags_append]
  exact hin.trans (List.prefix_append _ _).isInfix

/-- The last tag is the start of a `prop`. -/
def AtProp (es : List (Event Bytes UInt8)) : Prop := ∃ n, role n = .prop ∧ [.start n] <:+ tags es

theorem infix_tag {l : List (Event Bytes UInt8)} {x y e : Event Bytes UInt8} :
    [x, y] <:+: l ++ [e] ↔ [x, y] <:+: l ∨ [x] <:+ l ∧ y = e := by
  rw [List.infix_concat_iff, List.suffix_concat_iff, or_comm]
  refine or_congr_right ⟨?_, ?_⟩
  · rintro (h | ⟨t, h, hsuf⟩)
    · cases h
    · rcases t with _ | ⟨z, _ | ⟨w, t⟩⟩
      · cases h
      · cases h
        exact ⟨hsuf, rfl⟩
      · simp at h
  · rintro ⟨hsuf, rfl⟩
    exact .inr ⟨[x], rfl, hsuf⟩

@[simp] theorem branched_start : Branched (past ++ [.start n]) ↔ Branched past ∨ AtProp past := by
  unfold Branched AtProp
  rw [tags_append]
  change (∃ m k, _ ∧ _ <:+: tags past ++ [.start n]) ↔ _
  simp only [infix_tag, Event.start.injEq]
  constructor
  · rintro ⟨m, k, hrole, hin | ⟨hsuf, -⟩⟩
    · exact .inl ⟨m, k, hrole, hin⟩
    · exact .inr ⟨m, hrole, hsuf⟩
  · rintro (⟨m, k, hrole, hin⟩ | ⟨m, hrole, hsuf⟩)
    · exact ⟨m, k, hrole, .inl hin⟩
    · exact ⟨m, n, hrole, .inr ⟨hsuf, rfl⟩⟩

@[simp] theorem branched_text : Branched (past ++ [.text t]) ↔ Branched past := by
  simp [Branched, tags, Event.isTag]

@[simp] theorem branched_close : Branched (past ++ [.close n]) ↔ Branched past := by
  unfold Branched
  rw [tags_append]
  change (∃ m k, _ ∧ _ <:+: tags past ++ [.close n]) ↔ _
  simp [infix_tag]

@[simp] theorem atProp_start : AtProp (past ++ [.start n]) ↔ role n = .prop := by
  unfold AtProp
  rw [tags_append]
  change (∃ m, _ ∧ _ <:+ tags past ++ [.start n]) ↔ _
  simp

@[simp] theorem atProp_text : AtProp (past ++ [.text t]) ↔ AtProp past := by
  simp [AtProp, tags, Event.isTag]

@[simp] theorem not_atProp_close : ¬ AtProp (past ++ [.close n]) := by
  unfold AtProp
  rw [tags_append]
  change ¬ ∃ m, _ ∧ _ <:+ tags past ++ [.close n]
  simp

/-- An `href` ends early in events that are read behind others. -/
def EarlyFrom (past es : List (Event Bytes UInt8)) : Prop :=
  ∃ pre n post, es = pre ++ .close n :: post ∧ EndsEarly (past ++ pre) n

theorem earlyFrom_cons {e : Event Bytes UInt8} {es : List (Event Bytes UInt8)} :
    EarlyFrom past (e :: es) ↔ (∃ n, e = .close n ∧ EndsEarly past n) ∨ EarlyFrom (past ++ [e]) es := by
  constructor
  · rintro ⟨pre, n, post, heq, hends⟩
    cases pre with
    | nil =>
      cases heq
      rw [List.append_nil] at hends
      exact .inl ⟨n, rfl, hends⟩
    | cons e' pre =>
      cases heq
      rw [← List.singleton_append, ← List.append_assoc] at hends
      exact .inr ⟨pre, n, post, rfl, hends⟩
  · rintro (⟨n, rfl, hends⟩ | ⟨pre, n, post, rfl, hends⟩)
    · exact ⟨[], n, es, rfl, by rwa [List.append_nil]⟩
    · refine ⟨e :: pre, n, post, rfl, ?_⟩
      rwa [← List.singleton_append, ← List.append_assoc]

theorem not_earlyFrom (h : Opened past ∨ Branched past) (es : List (Event Bytes UInt8)) : ¬ EarlyFrom past es := by
  rintro ⟨pre, n, post, -, hends⟩
  rcases h with h | h
  · exact hends.opened (opened_append h)
  · exact hends.branched (branched_append h)

end Past

/-! ## One step -/

namespace DavParse
variable {s t : DavParse} {n : Bytes}

@[simp] theorem propadd_none {prop : CalPropType} {cp : Bytes} (h : s.p = none) :
    propadd s n prop cp = caldavErr "property list in unknown request" := by
  rw [propadd, h]

theorem step_start_parse (h : s.handlers = .parse) : s.step (.start n) = parseopen s n := by
  simp only [step, h]

theorem step_close_parse (h : s.handlers = .parse) : s.step (.close n) = parseclose s n := by
  simp only [step, h]

theorem step_start_prop (h : s.handlers = .prop) : s.step (.start n) = propopen s n := by
  simp only [step, h]

theorem step_close_prop (h : s.handlers = .prop) : s.step (.close n) = propclose s n := by
  simp only [step, h]

/-- The handler has read through no null pointer, and left a request. -/
def Present (r : Except Halt DavParse) : Prop := r ≠ .error .fault ∧ ∀ t, r = .ok t → t.p ≠ none

@[simp] theorem present_ok : Present (.ok t) ↔ t.p ≠ none := by
  simp [Present]

@[simp] theorem present_err (er : String) : Present (caldavErr er) := by
  simp [Present, caldavErr]

theorem present_propadd (h : s.p ≠ none) (prop : CalPropType) (cp : Bytes) : Present (propadd s n prop cp) := by
  obtain ⟨c, hc⟩ := Option.ne_none_iff_exists'.mp h
  simp [propadd, hc]

/-- A request that has been allocated stays, and no handler reads past it. -/
theorem step_present (h : s.p ≠ none) (e : Event Bytes UInt8) : Present (s.step e) := by
  obtain ⟨c, hc⟩ := Option.ne_none_iff_exists'.mp h
  cases e with
  | text t =>
    rw [step_text]
    simpa using h
  | start n =>
    cases hh : s.handlers with
    | none => simpa [step, hh] using h
    | parse =>
      rw [step_start_parse hh, parseopen_eq]
      cases role n <;> simp [caldavAlloc, hc]
    | prop =>
      rw [step_start_prop hh, propopen_eq]
      cases role n
      case known prop => simpa using h
      all_goals exact present_propadd h .max []
  | close n =>
    cases hh : s.handlers with
    | none => simpa [step, hh] using h
    | parse =>
      rw [step_close_parse hh, parseclose_eq]
      cases role n
      case href =>
        dsimp only
        split
        · simpa using h
        · rw [hc]
          cases hrefDecode (cstr s.buf.buf) <;> simp
      all_goals simpa using h
    | prop =>
      rw [step_close_prop hh, propclose_eq]
      cases role n
      case known prop => simp [propadd, hc, Except.map]
      all_goals simpa using h

theorem run_present (h : s.p ≠ none) (es : List (Event Bytes UInt8)) : run step es s ≠ .error .fault :=
  run_ne_error (P := fun s => s.p ≠ none) (fun _ e t hs ht => (step_present hs e).2 t ht)
    (fun _ e hs => (step_present hs e).1) h

theorem stops_absent (hp : s.p = none) (prop : CalPropType) (cp : Bytes) (es : List (Event Bytes UInt8)) :
    (propadd s n prop cp >>= run step es) ≠ .error .fault := by
  rw [propadd_none hp]
  intro h
  cases h

/-- Where a property has started and there is no request, the parse ends with an error
before the handlers are swapped. -/
theorem run_absent {k : Bytes} {prop : CalPropType} (hk : role k = .known prop) {d : Content Bytes UInt8}
    {tail : List (Event Bytes UInt8)} (hp : s.p = none) (hh : s.handlers = .prop) :
    run step (d.events ++ .close k :: tail) s ≠ .error .fault := by
  induction d generalizing s k prop tail with
  | nil =>
    rw [Content.events_nil, List.nil_append, run_cons, step_close_prop hh, propclose_eq, hk]
    dsimp only
    rw [propadd_none hp]
    intro h
    cases h
  | text t rest ih =>
    rw [Content.events_text, List.cons_append, run_cons, step_text]
    exact ih hk hp hh
  | elem m inner rest ihInner _ =>
    rw [Content.events_elem_append, run_cons, step_start_prop hh, propopen_eq]
    cases hm : role m
    case known prop' => exact ihInner hm hp hh
    all_goals exact stops_absent hp .max [] _

end DavParse

/-! ## Before the request -/

/-- The state of the parser where no request has started and nothing else has ended the parse. -/
structure Before (past : List (Event Bytes UInt8)) (s : DavParse) : Prop where
  absent : s.p = none
  opened : ¬ Opened past
  branched : ¬ Branched past
  text : ∀ t, hrefText past = some t → s.dflt = true ∧ s.buf.sz = t.length

/-- A run ends in a null pointer exactly where an `href` ends early. -/
def Meets (past : List (Event Bytes UInt8)) (s : DavParse) (es : List (Event Bytes UInt8)) : Prop :=
  run DavParse.step es s = .error .fault ↔ EarlyFrom past es

section Before
variable {past tail : List (Event Bytes UInt8)} {s : DavParse} {n : Bytes}

theorem meets_of_ne {es : List (Event Bytes UInt8)} (hrun : run DavParse.step es s ≠ .error .fault)
    (hpast : ¬ EarlyFrom past es) : Meets past s es := iff_of_false hrun hpast

/-- A step that is not the end of an `href` leaves the question to the events after it. -/
theorem meets_cons {e : Event Bytes UInt8} {t : DavParse} {es : List (Event Bytes UInt8)} (hstep : s.step e = .ok t)
    (hends : ∀ n, e = .close n → ¬ EndsEarly past n) (h : Meets (past ++ [e]) t es) : Meets past s (e :: es) := by
  have hnow : ¬ ∃ n, e = .close n ∧ EndsEarly past n := by
    rintro ⟨n, he, hn⟩
    exact hends n he hn
  unfold Meets
  rw [earlyFrom_cons, or_iff_right hnow, run_cons, hstep]
  exact h

theorem before_text (h : Before past s) (t : Bytes) :
    Before (past ++ [.text t]) { s with buf := if s.dflt then bufappend s.buf t else s.buf } := by
  refine ⟨h.absent, by simpa using h.opened, by simpa using h.branched, ?_⟩
  intro u hu
  rw [hrefText_text, Option.map_eq_some_iff] at hu
  obtain ⟨v, hv, rfl⟩ := hu
  obtain ⟨hd, hsz⟩ := h.text v hv
  refine ⟨hd, ?_⟩
  dsimp only
  rw [hd, if_pos rfl, bufappend_sz, hsz, List.length_append]

/-- The handlers of a document are set, and the last tag is not the start of a `prop`. -/
structure Reading (past : List (Event Bytes UInt8)) (s : DavParse) : Prop extends Before past s where
  handlers : s.handlers = .parse
  atProp : ¬ AtProp past

/-- After some events, and after any others with an `href` open if these have one, the run of
what follows ends in a null pointer exactly where an `href` ends early. -/
def Onward (past : List (Event Bytes UInt8)) (tail : List (Event Bytes UInt8)) : Prop :=
  ∀ past' s', Reading past' s' → ((hrefText past).isSome → (hrefText past').isSome) → Meets past' s' tail

theorem Onward.mono {past' : List (Event Bytes UInt8)} (h : Onward past tail)
    (hle : (hrefText past).isSome → (hrefText past').isSome) : Onward past' tail :=
  fun q s' hread hsome => h q s' hread fun ht => hsome (hle ht)

theorem Onward.text (h : Onward past tail) (t : Bytes) : Onward (past ++ [.text t]) tail :=
  h.mono fun ht => by simpa using ht

theorem Onward.start (h : Onward past tail) (n : Bytes) : Onward (past ++ [.start n]) tail := by
  refine h.mono fun ht => ?_
  rw [hrefText_start]
  split
  · rfl
  · exact ht

theorem meets_start_absent {es : List (Event Bytes UInt8)} (hat : AtProp past)
    (hrun : run DavParse.step (.start n :: es) s ≠ .error .fault) : Meets past s (.start n :: es) := by
  refine meets_of_ne hrun ?_
  rw [earlyFrom_cons]
  rintro (⟨m, h, -⟩ | h)
  · cases h
  · exact not_earlyFrom (.inr (branched_start.mpr (.inr hat))) es h

/-- The content of a `prop`: text, or an element that the parse does not get past. -/
theorem meets_prop (d : Content Bytes UInt8) {k : Bytes} (hk : role k = .prop) (h : Before past s) (hh : s.handlers = .prop)
    (hat : AtProp past) (hrest : Onward past tail) : Meets past s (d.events ++ .close k :: tail) := by
  induction d generalizing past s with
  | nil =>
    have hstep : s.step (.close k) = .ok { s with handlers := .parse } := by
      rw [DavParse.step_close_prop hh, DavParse.propclose_eq, hk]
    refine meets_cons hstep ?_ (hrest _ _ ⟨⟨h.absent, by simpa using h.opened, by simpa using h.branched, ?_⟩, rfl, ?_⟩ ?_)
    · intro n he hends
      cases he
      rw [hends.href] at hk
      cases hk
    · simpa using h.text
    · exact not_atProp_close
    · simp
  | text t rest ih =>
    refine meets_cons (s.step_text t) (fun n he => by cases he) (ih (before_text h t) hh (atProp_text.mpr hat) (hrest.text t))
  | elem m inner rest ihInner _ =>
    rw [Content.events_elem_append]
    refine meets_start_absent hat ?_
    rw [run_cons, DavParse.step_start_prop hh, DavParse.propopen_eq]
    cases hm : role m
    case known prop => exact DavParse.run_absent hm h.absent hh
    all_goals exact DavParse.stops_absent h.absent .max [] _

theorem Reading.close (h : Reading past s) (n : Bytes) : Reading (past ++ [.close n]) s where
  absent := h.absent
  opened := by simpa using h.opened
  branched := by simpa using h.branched
  text := by simpa using h.text
  handlers := h.handlers
  atProp := not_atProp_close

/-- The end of an element that is not an address, where no request has started. -/
theorem meets_close (hstep : ∀ s', Reading past s' → s'.step (.close n) = .ok s') (hn : role n ≠ .href)
    (h : Reading past s) (hrest : Meets (past ++ [.close n]) s tail) : Meets past s (.close n :: tail) := by
  refine meets_cons (hstep s h) ?_ hrest
  intro m he hends
  cases he
  exact hn hends.href

/-- The end of an address: with text since the start of the last one there is nothing to add it to. -/
theorem meets_href (hn : role n = .href) (h : Reading past s) (hsome : (hrefText past).isSome)
    (hrest : Meets (past ++ [.close n]) s tail) : Meets past s (.close n :: tail) := by
  obtain ⟨t, ht⟩ := Option.isSome_iff_exists.mp hsome
  obtain ⟨-, hsz⟩ := h.text t ht
  have hstep : s.step (.close n) = if s.buf.sz = 0 then .ok s else .error .fault := by
    rw [DavParse.step_close_parse h.handlers, DavParse.parseclose_eq, hn]
    dsimp only
    rw [h.absent]
  cases t with
  | nil =>
    rw [hsz, List.length_nil, if_pos rfl] at hstep
    refine meets_cons hstep ?_ hrest
    intro m _ hends
    obtain ⟨u, hu, hne⟩ := hends.text
    rw [ht] at hu
    cases hu
    exact hne rfl
  | cons b t =>
    rw [hsz, List.length_cons, if_neg (Nat.succ_ne_zero _)] at hstep
    refine iff_of_true ?_ ?_
    · rw [run_cons, hstep]
      rfl
    · exact earlyFrom_cons.mpr (.inl ⟨n, rfl, hn, ⟨b :: t, ht, List.cons_ne_nil b t⟩, h.opened, h.branched⟩)

/-- The content of an element outside of any `prop`, where no request has started. -/
theorem meets_content (d : Content Bytes UInt8) (h : Reading past s) (hrest : Onward past tail) :
    Meets past s (d.events ++ tail) := by
  induction d generalizing past s tail with
  | nil => exact hrest past s h id
  | text t rest ih =>
    refine meets_cons (s.step_text t) (fun n he => by cases he) (ih ⟨before_text h.toBefore t, h.handlers, ?_⟩ (hrest.text t))
    simpa using h.atProp
  | elem n inner rest ihInner ihRest =>
    rw [Content.events_elem_append]
    have hstart := (DavParse.step_start_parse (n := n) h.handlers).trans (DavParse.parseopen_eq s n)
    have hclose (past' : List (Event Bytes UInt8)) (s' : DavParse) (hr : Reading past' s') :=
      (DavParse.step_close_parse (n := n) hr.handlers).trans (DavParse.parseclose_eq s' n)
    -- what follows on the element, wherever its content leads
    have hafter : Onward (past ++ [.start n]) (rest.events ++ tail) := by
      intro past' s' hread hsome
      exact ihRest hread ((hrest.start n).mono hsome)
    have plain (hstart : s.step (.start n) = .ok s) (hclose : ∀ past' s', Reading past' s' → s'.step (.close n) = .ok s')
        (hhref : role n ≠ .href) (hprop : role n ≠ .prop) (hreq : ∀ type, role n ≠ .request type) :
        Meets past s (.start n :: (inner.events ++ .close n :: (rest.events ++ tail))) := by
      refine meets_cons hstart (fun m he => by cases he) (ihInner ⟨⟨h.absent, ?_, ?_, ?_⟩, h.handlers, ?_⟩ ?_)
      · simpa [hreq] using h.opened
      · simpa using ⟨h.branched, h.atProp⟩
      · simpa [hhref] using h.text
      · simpa using hprop
      · intro past' s' hread hsome
        exact meets_close (hclose past') hhref hread (hafter _ s' (hread.close n) (by simpa using hsome))
    cases hn : role n with
    | request type =>
      simp only [hn, caldavAlloc, h.absent] at hstart
      refine meets_of_ne ?_ ?_
      · rw [run_cons, hstart]
        exact DavParse.run_present (by simp) _
      · rw [earlyFrom_cons]
        rintro (⟨m, he, -⟩ | hearly)
        · cases he
        · exact not_earlyFrom (.inl (opened_start.mpr (.inr ⟨type, hn⟩))) _ hearly
    | href =>
      simp only [hn] at hstart
      refine meets_cons hstart (fun m he => by cases he) (ihInner ⟨⟨h.absent, ?_, ?_, ?_⟩, h.handlers, ?_⟩ ?_)
      · simpa [hn] using h.opened
      · simpa [hn] using ⟨h.branched, h.atProp⟩
      · simp [hn, Buf.reset]
      · simp [hn]
      · intro past' s' hread hsome
        exact meets_href hn hread (hsome (by simp [hn])) (hafter _ s' (hread.close n) (by simpa using hsome))
    | prop =>
      simp only [hn] at hstart
      refine meets_cons hstart (fun m he => by cases he) (meets_prop inner hn ⟨h.absent, ?_, ?_, ?_⟩ rfl ?_ hafter)
      · simpa [hn] using h.opened
      · simpa [hn] using ⟨h.branched, h.atProp⟩
      · simpa [hn] using h.text
      · simp [hn]
    | known prop =>
      simp only [hn] at hstart hclose
      refine plain hstart hclose ?_ ?_ ?_ <;> simp [hn]
    | other =>
      simp only [hn] at hstart hclose
      refine plain hstart hclose ?_ ?_ ?_ <;> simp [hn]

end Before

theorem Reading.init : Reading [] .init where
  absent := rfl
  opened := by simp [Opened]
  branched := by simp [Branched, tags]
  text := by simp [hrefText]
  handlers := rfl
  atProp := by simp [AtProp, tags]

theorem run_fault_iff (d : Content Bytes UInt8) : run DavParse.step d.events .init = .error .fault ↔ EarlyHref d.events := by
  have hempty : Onward [] [] := by
    intro past s _ _
    refine meets_of_ne (by simp) ?_
    rintro ⟨pre, n, post, h, -⟩
    simp at h
  have h := meets_content d .init hempty
  rw [List.append_nil] at h
  exact h

/-- The handlers read and extend a request only where it has been allocated, exactly where no `href`
ends with text before a request has started. -/
theorem caldavParse_allocated (d : Content Bytes UInt8) : caldavParse d.events ≠ .error .fault ↔ ¬ EarlyHref d.events := by
  rw [← run_fault_iff, caldavParse]
  cases run DavParse.step d.events .init <;> simp [Except.map]

/-- An address for a document element. -/
theorem caldavParse_not_allocated :
    caldavParse (Content.elem (ascii "DAV::href") (.text (ascii "/joe/") .nil) .nil).events = .error .fault := by
  rfl

end Kcaldav
