import Mathlib.Data.List.ModifyLast
import Kcaldav.Ical.Adequacy
import Kcaldav.Ical.Duration

/-! # What printing keeps of a calendar

Every line of an accepted calendar is one node, and a node prints as its line
unless the duration parser has written into it. `durationsKept` is the test on
the lines of a file: outside `DAYLIGHT` and `STANDARD` blocks, where durations
are not parsed, every duration is made of time marks and digits alone.
-/
namespace Kcaldav
open CString LineReader

variable {C : Libc}

/-! ## Nodes and lines -/

def IcalNode.isDuration (np : IcalNode) : Bool := strcaseEq np.name (ascii "duration")

theorem strcaseEq_ne {a b c : Bytes} (h : strcaseEq a b) (hbc : strcaseEq b c = false) : strcaseEq a c = false := by
  unfold strcaseEq at *
  rw [beq_iff_eq] at h
  rw [h]
  exact hbc

/-- The node's value once the property is parsed. -/
theorem icalCompField_val {np : IcalNode} {c c' : IcalComp} {val : Bytes} {d d' : Diag} (hn : NUL ∉ np.val)
    (h : icalCompField C np c d = (some (c', val), d')) :
    val <+: np.val ∧ (val = np.val ↔ (np.isDuration → plainDuration np.val)) := by
  unfold icalCompField at h
  by_cases hdur : np.isDuration
  · have other : ∀ t, strcaseEq (ascii "duration") t = false → strcaseEq np.name t = false :=
      fun t => strcaseEq_ne hdur
    rw [IcalNode.isDuration] at hdur
    simp only [other (ascii "uid") rfl, other (ascii "created") rfl, other (ascii "last-modified") rfl,
      other (ascii "dtstamp") rfl, other (ascii "dtstart") rfl, other (ascii "dtend") rfl, hdur, ↓reduceIte,
      Bool.false_eq_true] at h
    obtain ⟨⟨v, buf⟩, e, hv, h⟩ := Fallible.bind_eq_some.mp h
    cases h
    obtain ⟨hpre, hiff⟩ := icalDuration_buffer hn hv
    exact ⟨hpre, hiff.trans ⟨fun hp _ => hp, fun hp => hp hdur⟩⟩
  · have same {β : Type} {x : Value β} {f : β → IcalComp}
        (h : (x >>= fun a => pure (f a, np.val)) d = (some (c', val), d')) : val = np.val := by
      obtain ⟨a, e, -, h⟩ := Fallible.bind_eq_some.mp h
      cases h
      rfl
    have hval : val = np.val := by
      rw [IcalNode.isDuration] at hdur
      rcases Fallible.ite_cases h with ⟨-, h⟩ | ⟨-, h⟩
      · exact same h
      rcases Fallible.ite_cases h with ⟨-, h⟩ | ⟨-, h⟩
      · exact same h
      rcases Fallible.ite_cases h with ⟨-, h⟩ | ⟨-, h⟩
      · exact same h
      rcases Fallible.ite_cases h with ⟨-, h⟩ | ⟨-, h⟩
      · exact same h
      rcases Fallible.ite_cases h with ⟨-, h⟩ | ⟨-, h⟩
      · exact same h
      rcases Fallible.ite_cases h with ⟨-, h⟩ | ⟨-, h⟩
      · exact same h
      rcases Fallible.ite_cases h with ⟨hname, -⟩ | ⟨-, h⟩
      · exact absurd hname hdur
      rcases Fallible.ite_cases h with ⟨-, h⟩ | ⟨-, h⟩
      · exact same h
      rcases Fallible.ite_cases h with ⟨-, h⟩ | ⟨-, h⟩
      · exact same h
      cases h
      rfl
    exact ⟨hval ▸ List.prefix_rfl, iff_of_true hval fun h => absurd h hdur⟩

/-- Where the lines of a file stand: in components, or in a `DAYLIGHT` or `STANDARD` block. -/
def lineMode (m : Option IcalTzType) (l : Bytes) : Option IcalTzType :=
  match splitLine l with
  | none => m
  | some np =>
    match m with
    | none => if np.isBegin ∧ icalTypeOf np.val = none then icalTzTypeOf np.val else none
    | some tz => if np.isEnd && strcaseEq tz.name np.val then none else some tz

/-- No parser writes into the value of the line. -/
def lineKept (m : Option IcalTzType) (l : Bytes) : Bool :=
  match m, splitLine l with
  | none, some np => np.isBegin || np.isEnd || !np.isDuration || plainDuration np.val
  | _, _ => true

/-- The test over the lines of a file. -/
def durationsKept : Option IcalTzType → List Bytes → Bool
  | _, [] => true
  | m, l :: ls => lineKept m l && durationsKept (lineMode m l) ls

/-- The nodes a run has stored for the lines it has read, and where it then stands. -/
inductive Stored : Option IcalTzType → List Bytes → List IcalNode → Option IcalTzType → Prop
  | nil (m : Option IcalTzType) : Stored m [] [] m
  | cons {m m' : Option IcalTzType} {l : Bytes} {ls : List Bytes} {n : IcalNode} {ns : List IcalNode} :
    n.text <+: l → (n.text = l ↔ lineKept m l) → Stored (lineMode m l) ls ns m' →
    Stored m (l :: ls) (n :: ns) m'

namespace Stored

theorem append {m m' m'' : Option IcalTzType} {ls ls' : List Bytes} {ns ns' : List IcalNode}
    (h : Stored m ls ns m') (h' : Stored m' ls' ns' m'') : Stored m (ls ++ ls') (ns ++ ns') m'' := by
  induction h with
  | nil => exact h'
  | cons hpre hiff _ ih => exact .cons hpre hiff (ih h')

/-- The nodes print as the lines exactly where the test holds. -/
theorem texts_iff {m m' : Option IcalTzType} {ls : List Bytes} {ns : List IcalNode} (h : Stored m ls ns m') :
    ns.map IcalNode.text = ls ↔ durationsKept m ls := by
  induction h with
  | nil => simp [durationsKept]
  | cons _ hiff _ ih => simp [durationsKept, hiff, ih]

theorem text_prefix {m m' : Option IcalTzType} {ls : List Bytes} {ns : List IcalNode} (h : Stored m ls ns m') :
    ∀ n ∈ ns, ∃ l ∈ ls, n.text <+: l := by
  induction h with
  | nil => simp
  | cons hpre _ _ ih =>
    intro n hn
    rcases List.mem_cons.mp hn with rfl | hn
    · exact ⟨_, List.mem_cons_self, hpre⟩
    · obtain ⟨l, hl, hp⟩ := ih n hn
      exact ⟨l, List.mem_cons_of_mem _ hl, hp⟩

end Stored

/-! ## Runs -/

variable {ρ : Type} [LineReader ρ]

/-- A run from the first state to the second has stored every line it has read. -/
def Copied (m : Option IcalTzType) (p : IcalParse ρ) (m' : Option IcalTzType) (p' : IcalParse ρ) : Prop :=
  p'.Stale ∧ ∃ ls ns, Reads p.src ls p'.src ∧ p'.ical.first = p.ical.first ++ ns ∧
    Stored m (ls.map RawLine.text) ns m'

/-- No line left to read holds a NUL. -/
def NulFree (p : IcalParse ρ) : Prop := ∀ l ∈ lines p.src, NUL ∉ l.text

namespace Copied

theorem refl {m : Option IcalTzType} {p : IcalParse ρ} (hs : p.Stale) : Copied m p m p :=
  ⟨hs, [], [], .nil _, by simp, .nil m⟩

theorem trans {m m' m'' : Option IcalTzType} {p p' p'' : IcalParse ρ} (h : Copied m p m' p')
    (h' : Copied m' p' m'' p'') : Copied m p m'' p'' := by
  obtain ⟨-, ls, ns, hr, hf, hst⟩ := h
  obtain ⟨hs, ls', ns', hr', hf', hst'⟩ := h'
  refine ⟨hs, ls ++ ls', ns ++ ns', hr.append hr', by rw [hf', hf, List.append_assoc], ?_⟩
  rw [List.map_append]
  exact hst.append hst'

theorem nulFree {m m' : Option IcalTzType} {p p' : IcalParse ρ} (h : Copied m p m' p') (hn : NulFree p) :
    NulFree p' := by
  obtain ⟨-, ls, ns, hr, -, -⟩ := h
  intro l hl
  exact hn l (by rw [hr.lines]; exact List.mem_append_right _ hl)

/-- A line whose node is left alone. -/
theorem next {m : Option IcalTzType} {p p' : IcalParse ρ} {np : IcalNode} (h : Next p np p') (hs : p.Stale)
    (hn : NulFree p) : ∃ l, splitLine l = some np ∧ (lineKept m l → Copied m p (lineMode m l) p') := by
  obtain ⟨l, src, hr, -, hsplit, rfl⟩ := (next_iff hs).mp h
  have hnul : NUL ∉ l.text := hn l (by rw [lines_of_some hr]; exact List.mem_cons_self)
  rw [cstr_eq_self hnul] at hsplit
  refine ⟨l.text, hsplit, fun hk => ⟨?_, [l], [np], .one hr, rfl, ?_⟩⟩
  · intro b hb
    cases hb
    exact splitLine_name hsplit
  · have htext := splitLine_text hsplit
    exact .cons (htext ▸ List.prefix_rfl) (iff_of_true htext hk) (.nil _)

end Copied

theorem next_more {p p' : IcalParse ρ} {np : IcalNode} (h : Next p np p') : ¬read p.src = none := by
  intro hr
  have hmore := h.1
  rw [hr] at hmore
  cases hmore

theorem Valued.copied {α : Type} {x : Value α} {m : Option IcalTzType} {p p' : IcalParse ρ} {a : α}
    (h : Valued x p a p') (hs : p.Stale) : Copied m p m p' := by
  obtain ⟨d, -, rfl⟩ := valued_iff.mp h
  exact ⟨hs, [], [], .nil _, by simp, .nil m⟩

/-- A property line of a component, with what the value parser left of it. -/
theorem icalCompLine_copied {c : CompRef} {np : IcalNode} {p p₁ p₂ : IcalParse ρ} (h : Next p np p₁)
    (hbegin : ¬np.isBegin) (hend : ¬np.isEnd) (hline : icalCompLine C c np p₁ = (some (), p₂)) (hs : p.Stale)
    (hn : NulFree p) : Copied none p none p₂ := by
  obtain ⟨comp, val, d, hv, rfl⟩ := icalCompLine_iff.mp hline
  obtain ⟨l, src, hr, -, hsplit, rfl⟩ := (next_iff hs).mp h
  have hnul : NUL ∉ l.text := hn l (by rw [lines_of_some hr]; exact List.mem_cons_self)
  rw [cstr_eq_self hnul] at hsplit
  have htext := splitLine_text hsplit
  have hnval : NUL ∉ np.val := fun hm => hnul (by rw [← htext, IcalNode.text]; simp [hm])
  obtain ⟨hpre, hiff⟩ := icalCompField_val hnval hv
  refine ⟨?_, [l], [{ np with val := val }], .one hr, ?_, .cons ?_ ?_ ?_⟩
  · intro b hb
    cases hb
    exact splitLine_name hsplit
  · simp [nextState, List.modifyLast_concat]
  · rw [← htext]
    unfold IcalNode.text
    exact (List.prefix_append_right_inj _).mpr ((List.prefix_append_right_inj _).mpr
      (List.cons_prefix_cons.mpr ⟨rfl, hpre⟩))
  · have htexts : IcalNode.text { np with val := val } = l.text ↔ val = np.val := by
      rw [← htext]
      simp [IcalNode.text]
    have hkept : lineKept none l.text = (!np.isDuration || plainDuration np.val) := by
      simp [lineKept, hsplit, hbegin, hend]
    rw [htexts, hiff, hkept]
    cases np.isDuration <;> simp
  · rw [lineMode, hsplit]
    simp [hbegin]
    exact .nil _

/-- A run that starts in the given mode and ends among components or at the end of the source. -/
def Ends (m : Option IcalTzType) (p p' : IcalParse ρ) : Prop :=
  ∃ m', (m' = none ∨ read p'.src = none) ∧ Copied m p m' p'

theorem Ends.prepend {m m' : Option IcalTzType} {p p₁ p' : IcalParse ρ} (h : Copied m p m' p₁)
    (h' : Ends m' p₁ p') : Ends m p p' := by
  obtain ⟨m'', hm, hc⟩ := h'
  exact ⟨m'', hm, h.trans hc⟩

theorem TzRun.copied {type : IcalTzType} {c c' : IcalTz} {p p' : IcalParse ρ} (h : TzRun C type c p c' p') :
    p.Stale → NulFree p → Ends (some type) p p' := by
  induction h with
  | eof hr => exact fun hs _ => ⟨some type, Or.inr hr, .refl hs⟩
  | stop hnext hend hval =>
    intro hs hn
    obtain ⟨l, hsplit, hc⟩ := Copied.next (m := some type) hnext hs hn
    exact ⟨lineMode (some type) l, Or.inl (by simp [lineMode, hsplit, hend, hval]), hc (by simp [lineKept])⟩
  | skip hnext hend hval _ ih =>
    intro hs hn
    obtain ⟨l, hsplit, hc⟩ := Copied.next (m := some type) hnext hs hn
    have hmode : lineMode (some type) l = some type := by simp [lineMode, hsplit, hval]
    have hc := hmode ▸ hc (by simp [lineKept])
    exact .prepend hc (ih hc.1 (hc.nulFree hn))
  | field hnext hend hv _ ih =>
    intro hs hn
    obtain ⟨l, hsplit, hc⟩ := Copied.next (m := some type) hnext hs hn
    have hmode : lineMode (some type) l = some type := by simp [lineMode, hsplit, hend]
    have hc := hmode ▸ hc (by simp [lineKept])
    have hc := hc.trans (hv.copied hc.1)
    exact .prepend hc (ih hc.1 (hc.nulFree hn))

theorem TzBlock.copied {type : IcalTzType} {p p' : IcalParse ρ} (h : TzBlock C type p p') (hs : p.Stale)
    (hn : NulFree p) : Ends (some type) p p' := by
  obtain ⟨c, p₁, p₂, -, hrun, hcheck, rfl⟩ := h
  obtain ⟨m, hm, hc⟩ := hrun.copied hs hn
  obtain ⟨hs₂, hc⟩ := hc.trans (hcheck.copied hc.1)
  exact ⟨m, by rwa [← hcheck.src] at hm, hs₂, hc⟩

theorem CompRun.copied {c : CompRef} {p p' : IcalParse ρ} (h : CompRun C c p p') :
    ∀ m, (m = none ∨ read p.src = none) → p.Stale → NulFree p → Ends m p p' := by
  -- only a loop at the end of the source starts within a block
  have among {m : Option IcalTzType} {p p₁ : IcalParse ρ} {np : IcalNode} (hnext : Next p np p₁)
      (hm : m = none ∨ read p.src = none) : m = none := hm.resolve_right (next_more hnext)
  induction h with
  | eof hr => exact fun m _ hs _ => ⟨m, Or.inr hr, .refl hs⟩
  | stop hnext hbegin hend hval =>
    intro m hm hs hn
    obtain rfl := among hnext hm
    obtain ⟨l, hsplit, hc⟩ := Copied.next (m := none) hnext hs hn
    exact ⟨lineMode none l, Or.inl (by simp [lineMode, hsplit, hbegin]), hc (by simp [lineKept, hsplit, hend])⟩
  | skip hnext hbegin hend hval _ ih =>
    intro m hm hs hn
    obtain rfl := among hnext hm
    obtain ⟨l, hsplit, hc⟩ := Copied.next (m := none) hnext hs hn
    have hc := hc (by simp [lineKept, hsplit, hend])
    exact .prepend hc (ih _ (Or.inl (by simp [lineMode, hsplit, hbegin])) hc.1 (hc.nulFree hn))
  | unknown hnext hbegin ht htz _ ih =>
    intro m hm hs hn
    obtain rfl := among hnext hm
    obtain ⟨l, hsplit, hc⟩ := Copied.next (m := none) hnext hs hn
    have hc := hc (by simp [lineKept, hsplit, hbegin])
    exact .prepend hc (ih _ (Or.inl (by simp [lineMode, hsplit, htz])) hc.1 (hc.nulFree hn))
  | @zone c p p₁ p₂ p' np tz hnext hbegin ht htz hzone _ ih =>
    intro m hm hs hn
    obtain rfl := among hnext hm
    obtain ⟨l, hsplit, hc⟩ := Copied.next (m := none) hnext hs hn
    have hmode : lineMode none l = some tz := by simp only [lineMode, hsplit, hbegin, ht, and_self, ↓reduceIte, htz]
    have hc := hmode ▸ hc (by simp [lineKept, hsplit, hbegin])
    obtain ⟨m', hm', hc'⟩ := hzone.copied hc.1 (hc.nulFree hn)
    have hc := hc.trans hc'
    exact .prepend hc (ih m' hm' hc.1 (hc.nulFree hn))
  | nested hnext hbegin ht _ hcheck _ ihn ih =>
    intro m hm hs hn
    obtain rfl := among hnext hm
    obtain ⟨l, hsplit, hc⟩ := Copied.next (m := none) hnext hs hn
    have hmode : lineMode none l = none := by simp [lineMode, hsplit, ht]
    have hc := hmode ▸ hc (by simp [lineKept, hsplit, hbegin])
    obtain ⟨m', hm', hs', hc'⟩ := ihn none (Or.inl rfl) hc.1 (hc.nulFree hn)
    have hc := (hc.trans ⟨hs', hc'⟩).trans (hcheck.copied hs')
    exact .prepend hc (ih m' (by rwa [hcheck.src]) hc.1 (hc.nulFree hn))
  | field hnext hbegin hend hline _ ih =>
    intro m hm hs hn
    obtain rfl := among hnext hm
    have hc := icalCompLine_copied hnext hbegin hend hline hs hn
    exact .prepend hc (ih none (Or.inl rfl) hc.1 (hc.nulFree hn))

/-! ## Whole files -/

theorem icalPostparseTypes_first {zones : List IcalComp} {ts : List IcalType} {i i' : Ical} {d d' : Diag}
    (h : icalPostparseTypes zones ts i d = (some i', d')) : i'.first = i.first := by
  induction ts generalizing i d with
  | nil =>
    cases h
    rfl
  | cons t ts ih =>
    obtain ⟨cs, e, -, h⟩ := Fallible.bind_eq_some.mp h
    have hfirst := ih h
    exact hfirst

theorem icalTypeOf_vcalendar {val : Bytes} (h : strcaseEq val (ascii "VCALENDAR")) :
    icalTypeOf val = some .vcalendar := by
  rw [strcaseEq_comm] at h
  simp [icalTypeOf, IcalType.all, IcalType.name, h]

theorem Accepted.copied {p p' : IcalParse ρ} (h : Accepted C p p') (hs : p.Stale) (hn : NulFree p) :
    Ends none p p' := by
  obtain ⟨hnext, hbegin, hcal, hrun, hcheck, hpost⟩ := h
  obtain ⟨i, d, hi, rfl⟩ := icalPostparse_some hpost
  obtain ⟨l, hsplit, hc⟩ := Copied.next (m := none) hnext hs hn
  have hmode : lineMode none l = none := by simp [lineMode, hsplit, icalTypeOf_vcalendar hcal]
  have hc := hmode ▸ hc (by simp [lineKept, hsplit, hbegin])
  obtain ⟨m, hm, hs', hc'⟩ := hrun.copied none (Or.inl rfl) hc.1 (hc.nulFree hn)
  obtain ⟨hs, ls, ns, hreads, hfirst, hst⟩ := (hc.trans ⟨hs', hc'⟩).trans (hcheck.copied hs')
  exact ⟨m, by rwa [← hcheck.src] at hm, hs, ls, ns, hreads, (icalPostparseTypes_first hi).trans hfirst, hst⟩

/-- An accepted buffer and the nodes stored for it. -/
theorem icalParse_stored {file : Option String} {erange : Bool} {b : Bytes} {ic : Ical} {q : Nat} (hb : NUL ∉ b)
    (h : (icalParse C file erange b 0).1 = some (ic, q)) :
    ∃ m, Stored none (unfoldLines (b.take q)) ic.first m := by
  obtain ⟨p', ls, hacc, rfl, hreads, htake⟩ := icalParse_some h
  have hnul : NulFree (IcalParse.start file erange b) := fun l hl hm => hb (mem_lines hl hm).1
  obtain ⟨m, -, -, ls', ns, hreads', hfirst, hst⟩ := hacc.copied (IcalParse.stale_start _ _ _) hnul
  have hls : ls = ls' := by
    have hlines := hreads.lines.symm.trans hreads'.lines
    exact List.append_cancel_right hlines
  refine ⟨m, ?_⟩
  rw [htake, hls, hfirst]
  exact hst

/-- Printing an accepted calendar gives back its lines exactly where every duration
among them is plain. -/
theorem icalPrint_lossless_iff (file : Option String) (erange : Bool) (b : Bytes) (ic : Ical) (q : Nat)
    (hb : NUL ∉ b) (h : (icalParse C file erange b 0).1 = some (ic, q))
    (hc : ∀ l ∈ unfoldLines (b.take q), ¬Continues l) :
    unfoldLines (icalPrint ic) = unfoldLines (b.take q) ↔ durationsKept none (unfoldLines (b.take q)) := by
  obtain ⟨m, hst⟩ := icalParse_stored hb h
  have htexts : ∀ n ∈ ic.first, LF ∉ n.text ∧ ¬Continues n.text := by
    intro n hn
    obtain ⟨l, hl, t, ht⟩ := hst.text_prefix n hn
    have hlf : LF ∉ l := lf_notMem_unfoldLines hl
    refine ⟨fun hm => hlf (ht ▸ List.mem_append_left t hm), fun hcont => hc l hl ?_⟩
    rw [← ht]
    cases htext : n.text with
    | nil => exact absurd htext n.text_ne_nil
    | cons c s =>
      rw [htext] at hcont
      simpa using hcont
  rw [icalPrint, unfoldLines_print htexts]
  exact hst.texts_iff

theorem icalPrint_lossless_plain : ∃ ic q,
    (icalParse .utc none false (ascii "BEGIN:VCALENDAR\nDURATION:PT15\nEND:VCALENDAR\n") 0).1 = some (ic, q) ∧
      (unfoldLines (icalPrint ic) = unfoldLines ((ascii "BEGIN:VCALENDAR\nDURATION:PT15\nEND:VCALENDAR\n").take q) ↔
        durationsKept none (unfoldLines ((ascii "BEGIN:VCALENDAR\nDURATION:PT15\nEND:VCALENDAR\n").take q))) := by
  have hsome : (icalParse .utc none false (ascii "BEGIN:VCALENDAR\nDURATION:PT15\nEND:VCALENDAR\n") 0).1.map
      Prod.snd = some 44 := by decide +kernel
  obtain ⟨⟨ic, q⟩, hic, hq⟩ := Option.map_eq_some_iff.mp hsome
  cases hq
  exact ⟨ic, 44, hic, icalPrint_lossless_iff none false _ ic 44 (by decide +kernel) hic (by decide +kernel)⟩

/-- The designator of a duration is lost between upload and download. -/
theorem icalPrint_not_lossless : ¬∀ (C : Libc) (file : Option String) (erange : Bool) (b : Bytes) (ic : Ical) (q : Nat),
    NUL ∉ b → (icalParse C file erange b 0).1 = some (ic, q) → (∀ l ∈ unfoldLines (b.take q), ¬Continues l) →
    unfoldLines (icalPrint ic) = unfoldLines (b.take q) := by
  intro h
  have hsome : (icalParse .utc none false (ascii "BEGIN:VCALENDAR\nDURATION:P1D\nEND:VCALENDAR\n") 0).1.map
      (fun r => (icalPrint r.1, r.2)) = some (ascii "BEGIN:VCALENDAR\r\nDURATION:P1\r\nEND:VCALENDAR\r\n", 43) := by
    decide +kernel
  obtain ⟨⟨ic, q⟩, hic, hq⟩ := Option.map_eq_some_iff.mp hsome
  obtain ⟨hprint, rfl⟩ := Prod.mk.inj hq
  have hlines := h .utc none false _ ic 43 (by decide +kernel) hic (by decide +kernel)
  rw [hprint] at hlines
  exact absurd hlines (by decide +kernel)

end Kcaldav
