import Kcaldav.Ical.Above
import Kcaldav.Ical.Layout
import Kcaldav.Ical.Scope
import Kcaldav.Ical.Wellformed

/-! # Blocks of unknown components

A block of a component the parser does not know, put between two lines of a component. It
makes no difference anywhere exactly where no line in it begins a known component or a
time zone block and none is a property the loop of a component looks for.
-/
namespace Kcaldav
open CString Fallible LineReader

/-- The lines of an unknown component, from its `BEGIN` to the `END` that closes it. -/
def unknownBlock : List Bytes → Bool
  | [] => false
  | l :: ls =>
    (lineNode l).any fun np =>
      np.isBegin && (icalTypeOf np.val).isNone && (icalTzTypeOf np.val).isNone && nestedWithin [np.val] ls

/-- No line begins anything the parser knows or is a property it looks for. -/
def foreignLines (ls : List Bytes) : Bool := ls.all fun l => (lineNode l).all foreign

/-- The lines leave a component open, and no time zone block in it. -/
def InComponent (C : Libc) (erange : Bool) : List Bytes → Prop
  | [] => False
  | l :: ls => ∃ np m, lineNode l = some np ∧ (Machine.start np erange).run C ls = some (m, []) ∧ m.opened ≠ [] ∧ m.block = none

variable {C : Libc}

/-! ## The same components -/

/-- The machines differ in the nodes at most. -/
def Machine.Alike (m n : Machine) : Prop := m.Above (fun _ => []) [] n

namespace Machine

theorem alike_iff {m n : Machine} : m.Alike n ↔
    m.opened = n.opened ∧ m.block = n.block ∧ m.ical.comps = n.ical.comps ∧ m.erange = n.erange := by
  have habove : n.opened.map (CompRef.above fun _ => []) ++ [] = n.opened := by
    rw [List.append_nil]
    refine List.map_id'' (fun c => ?_) _
    simp [CompRef.above]
  constructor
  · intro h
    exact ⟨h.opened.trans habove, h.block, funext h.ical, h.erange⟩
  · rintro ⟨hopened, hblock, hcomps, he⟩
    exact ⟨hopened.trans habove.symm, hblock, fun t => congrFun hcomps t, he, fun _ => .inl rfl⟩

theorem run_done {m : Machine} {ls : List Bytes} (h : m.finished ∨ ls = []) : m.run C ls = some (m, ls) := by
  cases ls with
  | nil => rfl
  | cons l ls => exact if_pos (h.resolve_right (List.cons_ne_nil _ _))

theorem run_end {ls rest : List Bytes} {m m' : Machine} (h : m.run C ls = some (m', rest)) : m'.finished ∨ rest = [] := by
  obtain ⟨-, -, -, hend⟩ := @Machine.run_induction C (fun _ _ => True) (fun _ _ _ => trivial) _ _ [] _ _ trivial h
  exact hend

theorem run_append {ls more : List Bytes} : ∀ {m m' : Machine}, m.run C ls = some (m', []) → m.run C (ls ++ more) = m'.run C more := by
  induction ls with
  | nil =>
    intro m m' h
    cases h
    rfl
  | cons l ls ih =>
    intro m m' h
    rw [Machine.run] at h
    rw [List.cons_append, Machine.run]
    split at h
    · cases h
    next hopen =>
      obtain ⟨m₁, hline, hrun⟩ := Option.bind_eq_some_iff.mp h
      rw [if_neg hopen, hline, Option.bind_some, ih hrun]

theorem Alike.run {m n : Machine} (h : m.Alike n) (ls : List Bytes) :
    Option.Rel (fun r q => r.1.Alike q.1 ∧ r.2 = q.2) (m.run C ls) (n.run C ls) := by
  obtain ⟨hnone, hsome⟩ := Machine.Above.run (C := C) h (.inl rfl)
  cases hn : n.run C ls with
  | none =>
    rw [hnone hn]
    exact .none
  | some q =>
    obtain ⟨n', rest⟩ := q
    obtain ⟨m', habove, hm⟩ := hsome n' rest hn
    have hfin : m'.finished ∨ rest = [] := by
      obtain ⟨hopened, hblock, -, -⟩ := alike_iff.mp habove
      have hend := run_end hn
      rwa [Machine.finished_iff, ← hopened, ← hblock, ← Machine.finished_iff] at hend
    rw [hm, run_done hfin]
    exact .some ⟨habove, rfl⟩

theorem Alike.close {m n : Machine} (h : m.Alike n) : Option.Rel (fun i j => i.comps = j.comps) m.close n.close := by
  obtain ⟨cs, b, i, e⟩ := m
  obtain ⟨cs', b', j, e'⟩ := n
  obtain ⟨hopened, hblock, hcomps, -⟩ := alike_iff.mp h
  cases hopened
  cases hblock
  dsimp only at hcomps
  have hadd (n : Nat) (z : IcalTz) : (addTz n z i).comps = (addTz n z j).comps := by
    simp only [addTz, Ical.modifyComp, hcomps]
  unfold Machine.close
  cases b with
  | none =>
    simp only [compAt_congr hcomps]
    split
    · exact .some hcomps
    · exact .none
  | some z =>
    simp only [hcomps, compAt_congr (hadd _ z)]
    split
    · exact .some (hadd _ z)
    · exact .none

end Machine

/-- Linking sees the components alone. -/
theorem icalLink_comps {i j : Ical} (h : i.comps = j.comps) :
    (icalLink i).map Ical.comps = (icalLink j).map Ical.comps := by
  have carry {i j : Ical} (h : i.comps = j.comps) (cs : IcalType → List IcalComp)
      (hi : (icalLink i).map Ical.comps = some cs) : (icalLink j).map Ical.comps = some cs := by
    obtain ⟨k, hk, rfl⟩ := Option.map_eq_some_iff.mp hi
    obtain ⟨hfound, rfl⟩ := icalLink_eq_some.mp hk
    refine Option.map_eq_some_iff.mpr ⟨j.link, icalLink_eq_some.mpr ⟨?_, rfl⟩, ?_⟩
    · unfold Ical.Found at hfound ⊢
      rwa [← h]
    · rw [Ical.link, Ical.link, h]
  apply Option.ext
  intro cs
  exact ⟨carry h cs, carry h.symm cs⟩

/-- What comes of a run is the same for machines alike. -/
theorem Machine.Alike.result {m n : Machine} (h : m.Alike n) (ls : List Bytes) :
    ((m.run C ls).bind fun r => (r.1.close.bind icalLink).map Ical.comps) =
      (n.run C ls).bind fun r => (r.1.close.bind icalLink).map Ical.comps := by
  rcases rel_cases (h.run (C := C) ls) with ⟨hm, hn⟩ | ⟨r, q, hm, hn, halike, -⟩
  · rw [hm, hn]
  · rw [hm, hn, Option.bind_some, Option.bind_some]
    rcases rel_cases halike.close with ⟨hi, hj⟩ | ⟨i, j, hi, hj, hcomps⟩
    · rw [hi, hj]
    · rw [hi, hj, Option.bind_some, Option.bind_some, icalLink_comps hcomps]

theorem icalMachine_comps {erange : Bool} {l : Bytes} {np : IcalNode} (hnode : lineNode l = some np) (ls : List Bytes) :
    (icalMachine C erange (l :: ls)).map (fun r => r.1.comps) =
      if np.isBegin && strcaseEq np.val (ascii "VCALENDAR") then
        ((Machine.start np erange).run C ls).bind fun r => (r.1.close.bind icalLink).map Ical.comps
      else none := by
  rw [icalMachine, hnode, Option.bind_some]
  split
  · rw [Option.map_bind]
    refine Option.bind_congr fun r _ => ?_
    rw [Function.comp_apply, Option.map_map]
    rfl
  · rfl

/-! ## Foreign lines -/

/-- Within unknown components a foreign line closes none that is known, and the lines after
it are within unknown components, or there are none. -/
theorem nestedWithin_foreign {names : List Bytes} {l : Bytes} {ls : List Bytes} (h : nestedWithin names (l :: ls))
    (hnames : ∀ n ∈ names, icalTypeOf n = none ∧ icalTzTypeOf n = none) : ∃ np, lineNode l = some np ∧ (foreign np →
      (np.isEnd → ∀ t : IcalType, ¬strcaseEq t.name np.val) ∧
      (ls = [] ∨ ∃ names', nestedWithin names' ls ∧ ∀ n ∈ names', icalTypeOf n = none ∧ icalTzTypeOf n = none)) := by
  obtain ⟨np, hnode, hcases⟩ := nestedWithin_cons h
  refine ⟨np, hnode, fun hforeign => ?_⟩
  rcases hcases with ⟨hbegin, hrest⟩ | ⟨hbegin, hend, name, outer, rfl, hval, hrest⟩ | ⟨hbegin, hend, hrest⟩
  · refine ⟨fun hend => absurd hend (begin_not_end hbegin), .inr ⟨np.val :: names, hrest, List.forall_mem_cons.mpr ⟨?_, hnames⟩⟩⟩
    simpa [foreign, hbegin] using hforeign
  · obtain ⟨hunknown, houter⟩ := List.forall_mem_cons.mp hnames
    refine ⟨fun _ => (not_named hunknown.1 hunknown.2 hval).1, ?_⟩
    exact hrest.imp (fun h => h.2) fun h => ⟨outer, h.2, houter⟩
  · exact ⟨fun h => absurd h hend, .inr ⟨names, hrest, hnames⟩⟩

/-- The lines of an unknown component only add nodes. -/
theorem Machine.run_foreign {ls : List Bytes} (more : List Bytes) : ∀ {names : List Bytes} {m : Machine},
    nestedWithin names ls → (∀ n ∈ names, icalTypeOf n = none ∧ icalTzTypeOf n = none) → foreignLines ls →
    m.opened ≠ [] → m.block = none → ∃ m' : Machine, m'.Alike m ∧ m.run C (ls ++ more) = m'.run C more := by
  induction ls with
  | nil =>
    intro names m hnested
    cases names <;> cases hnested
  | cons l ls ih =>
    intro names m hnested hnames hforeign hopened hblock
    obtain ⟨_ | ⟨c, cs⟩, b, i, e⟩ := m
    · exact absurd rfl hopened
    cases hblock
    rw [foreignLines, List.all_cons, Bool.and_eq_true] at hforeign
    obtain ⟨np, hnode, hnext⟩ := nestedWithin_foreign hnested hnames
    rw [hnode, Option.all_some] at hforeign
    obtain ⟨hend, hrest⟩ := hnext hforeign.1
    have hline := Machine.line_foreign (C := C) hforeign.1 hend c cs i e
    have hpushed : Machine.Alike ⟨c :: cs, none, i.push np, e⟩ ⟨c :: cs, none, i, e⟩ :=
      Machine.alike_iff.mpr ⟨rfl, rfl, rfl, rfl⟩
    have hopen : ¬(⟨c :: cs, none, i, e⟩ : Machine).finished := by simp [Machine.finished]
    rw [List.cons_append, Machine.run, if_neg hopen, hnode, Option.bind_some, hline, Option.bind_some]
    rcases hrest with rfl | ⟨names', hnested, hnames⟩
    · exact ⟨_, hpushed, rfl⟩
    · obtain ⟨m', halike, hrun⟩ := @ih names' ⟨c :: cs, none, i.push np, e⟩ hnested hnames hforeign.2 hopened rfl
      obtain ⟨ho, hb, hi, he⟩ := Machine.alike_iff.mp halike
      exact ⟨m', Machine.alike_iff.mpr ⟨ho, hb, hi, he⟩, hrun⟩

theorem nestedWithin_unknown {U : List Bytes} (hU : unknownBlock U) : nestedWithin [] U := by
  cases U with
  | nil => cases hU
  | cons u us =>
    rw [unknownBlock, Option.any_eq_true] at hU
    obtain ⟨np, hnode, h⟩ := hU
    simp only [Bool.and_eq_true] at h
    obtain ⟨⟨⟨hbegin, -⟩, -⟩, hnested⟩ := h
    rw [nestedWithin, hnode]
    dsimp only
    rwa [if_pos hbegin]

/-- Foreign lines between two lines of a component make no difference. -/
theorem icalMachine_insert {erange : Bool} {pre U : List Bytes} (post : List Bytes) (hU : unknownBlock U) (hf : foreignLines U)
    (hpre : InComponent C erange pre) : (icalMachine C erange (pre ++ U ++ post)).map (fun r => r.1.comps) =
      (icalMachine C erange (pre ++ post)).map fun r => r.1.comps := by
  cases pre with
  | nil => exact hpre.elim
  | cons l ls =>
    obtain ⟨np, m, hnode, hrun, hopened, hblock⟩ := hpre
    obtain ⟨m', halike, hU⟩ := Machine.run_foreign (C := C) post (nestedWithin_unknown hU) (by simp) hf hopened hblock
    rw [List.cons_append, List.cons_append, List.cons_append, icalMachine_comps hnode, icalMachine_comps hnode, List.append_assoc, Machine.run_append hrun,
      Machine.run_append hrun, hU, halike.result]

/-! ## Where any other line shows -/

/-- A property has been set. -/
def IcalComp.Touched (c : IcalComp) : Prop :=
  c.uid.isSome ∨ c.created.type ≠ .unset ∨ c.lastmod.type ≠ .unset ∨ c.dtstamp.type ≠ .unset ∨ c.dtstart.time.type ≠ .unset ∨
    c.dtend.time.type ≠ .unset ∨ c.duration.sign ≠ 0 ∨ c.tzid.isSome ∨ c.rrule.freq.isSome

theorem icalUtcdatetime_type (cp : Bytes) : Returns (fun v => v.type ≠ .unset) (icalUtcdatetime C cp) := by
  refine .orElse (.bind (icalDatetime_type cp) fun v hv => ?_) (.of_none fun _ => rfl)
  exact .bind (.any _) fun _ _ => .pure hv

theorem icalTzdatetime_type (np : IcalNode) : Returns (fun v => v.time.type ≠ .unset) (icalTzdatetime C np) := by
  refine .bind (icalDatetime_type np.val) fun time htime => ?_
  cases np.param with
  | none => exact .pure htime
  | some param => exact .bind (.any _) fun _ _ => .pure htime

theorem icalRrule_freq (vp : IcalRrule) (cp : Bytes) : Returns (fun r => r.freq.isSome) (icalRrule C vp cp) := by
  refine .bind (.any _) fun r _ => .ite (fun _ => .of_none fun _ => rfl) fun h => .pure ?_
  rwa [Option.isNone_iff_eq_none, ← ne_eq, Option.ne_none_iff_isSome] at h

theorem icalDurationLoop_sign (fuel : Nat) : ∀ (v : IcalDur) (front cp : Bytes),
    Returns (fun r => r.1.sign = v.sign) (icalDurationLoop C fuel v front cp) := by
  have setSign {v w : IcalDur} {type : UInt8} {n : Nat} (h : icalDurationSet v type n = some w) : w.sign = v.sign := by
    unfold icalDurationSet at h
    repeat' split at h
    all_goals cases h <;> rfl
  have getSign (v : IcalDur) (type : UInt8) (n : Nat) : ((icalDurationSet v type n).getD v).sign = v.sign := by
    cases h : icalDurationSet v type n with
    | none => rfl
    | some w => exact setSign h
  induction fuel with
  | zero => exact fun v front cp => .pure rfl
  | succ fuel ih =>
    intro v front cp
    cases cp with
    | nil => exact .pure rfl
    | cons c cp =>
      unfold icalDurationLoop
      refine .ite (fun _ => .ite (fun _ => .pure rfl) fun _ => ih _ _ _) fun _ => ?_
      dsimp only
      split
      · exact .pure rfl
      · split
        · exact .pure rfl
        · intro d r d' h
          dsimp only at h
          split at h
          · exact (ih _ _ _ _ _ _ h).trans (getSign _ _ _)
          · cases h
            exact getSign _ _ _

theorem icalDuration_sign (val : Bytes) : Returns (fun r => r.1.sign ≠ 0) (icalDuration C val) := by
  unfold icalDuration
  split
  next cp =>
    have hsign : (icalDurationSign cp).1 ≠ 0 := by
      unfold icalDurationSign
      split <;> simp
    refine .ite (fun _ => .of_none fun _ => rfl) fun _ => .bind (icalDurationLoop_sign _ _ _ _) fun r hr => ?_
    refine .ite (fun _ => .pure ?_) fun _ => .of_none fun _ => rfl
    rw [hr]
    exact hsign
  · exact .of_none fun _ => rfl

/-- A property of a component's loop sets a field, and no property clears one. -/
theorem icalCompField_touched (np : IcalNode) (c : IcalComp) :
    Returns (fun r => compProperties.any (strcaseEq np.name) ∨ c.Touched → r.1.Touched) (icalCompField C np c) := by
  unfold icalCompField
  refine .ite (fun _ => ?_) fun h₁ => .ite (fun _ => ?_) fun h₂ => .ite (fun _ => ?_) fun h₃ => .ite (fun _ => ?_) fun h₄ =>
    .ite (fun _ => ?_) fun h₅ => .ite (fun _ => ?_) fun h₆ => .ite (fun _ => ?_) fun h₇ => .ite (fun _ => ?_) fun h₈ =>
    .ite (fun _ => ?_) fun h₉ => .pure fun h => ?_
  · exact .bind (.any _) fun v _ => .pure fun _ => .inl rfl
  · exact .bind (icalUtcdatetime_type _) fun v hv => .pure fun _ => .inr (.inl hv)
  · exact .bind (icalUtcdatetime_type _) fun v hv => .pure fun _ => .inr (.inr (.inl hv))
  · exact .bind (icalUtcdatetime_type _) fun v hv => .pure fun _ => .inr (.inr (.inr (.inl hv)))
  · exact .bind (icalTzdatetime_type np) fun v hv => .pure fun _ => .inr (.inr (.inr (.inr (.inl hv))))
  · exact .bind (icalTzdatetime_type np) fun v hv => .pure fun _ => .inr (.inr (.inr (.inr (.inr (.inl hv)))))
  · exact .bind (icalDuration_sign _) fun v hv => .pure fun _ => .inr (.inr (.inr (.inr (.inr (.inr (.inl hv))))))
  · exact .bind (.any _) fun v _ => .pure fun _ => .inr (.inr (.inr (.inr (.inr (.inr (.inr (.inl rfl)))))))
  · exact .bind (icalRrule_freq _ _) fun v hv => .pure fun _ => .inr (.inr (.inr (.inr (.inr (.inr (.inr (.inr hv)))))))
  · refine h.resolve_left ?_
    simp [compProperties, h₁, h₂, h₃, h₄, h₅, h₆, h₇, h₈, h₉]

/-- Nothing but a calendar with no property set. -/
structure Ical.Bare (i : Ical) : Prop where
  length : ∀ t, (i.comps t).length ≤ if t = .vcalendar then 1 else 0
  untouched : ∀ d c, i.comp? d = some c → ¬c.Touched

section
variable {np : IcalNode} {m m' : Machine}

theorem Machine.Takes.touched (h : Machine.Takes C np m m') {d : CompRef} {c : IcalComp} (hc : m.ical.comp? d = some c)
    (htouched : c.Touched) : ∃ c', m'.ical.comp? d = some c' ∧ c'.Touched := by
  cases h with
  | endBlock =>
    rw [addTz, Ical.comp?_modifyComp]
    split
    next heq =>
      subst heq
      exact ⟨_, congrArg (Option.map _) hc, htouched⟩
    · exact ⟨c, hc, htouched⟩
  | @field c₀ cs i e e' comp val hbegin hend hunder =>
    rw [Ical.comp?_write]
    split
    next heq =>
      subst heq
      refine ⟨comp, congrArg (Option.map _) hc, ?_⟩
      rw [compAt_eq hc] at hunder
      exact under_returns (icalCompField_touched np c) hunder (.inr htouched)
    · exact ⟨c, hc, htouched⟩
  | @beginComp c₀ cs i e tt =>
    refine ⟨c, ?_, htouched⟩
    rw [Ical.comp?_alloc, if_neg]
    · exact hc
    · rintro rfl
      have hnone : i.comp? ⟨tt, (i.comps tt).length⟩ = none := List.getElem?_eq_none le_rfl
      cases hnone.symm.trans hc
  | skipBlock => exact ⟨c, hc, htouched⟩
  | fieldBlock => exact ⟨c, hc, htouched⟩
  | beginBlock => exact ⟨c, hc, htouched⟩
  | unknown => exact ⟨c, hc, htouched⟩
  | endComp => exact ⟨c, hc, htouched⟩
  | skip => exact ⟨c, hc, htouched⟩

theorem Machine.Takes.bare (h : Machine.Takes C np m m') (hbare : m'.ical.Bare) : m.ical.Bare where
  length t := (h.length_le t).trans (hbare.length t)
  untouched d c hc htouched := by
    obtain ⟨c', hc', htouched'⟩ := h.touched hc htouched
    exact hbare.untouched d c' hc' htouched'

theorem Machine.run_bare {ls rest : List Bytes} (h : m.run C ls = some (m', rest)) (hbare : m'.ical.Bare) : m.ical.Bare := by
  obtain ⟨-, -, hback, -⟩ := @Machine.run_induction C (fun _ n => n.ical.Bare → m.ical.Bare)
    (fun _ htakes hback hbare => hback (htakes.bare hbare)) _ _ [] _ _ (fun hm => hm) h
  exact hback hbare

/-- A line in a bare calendar that leaves it bare is foreign. -/
theorem Machine.Takes.foreign {i : Ical} {e : Bool} (h : Machine.Takes C np ⟨[⟨.vcalendar, 0⟩], none, i, e⟩ m')
    (hcal : (i.comp? ⟨.vcalendar, 0⟩).isSome) (hzone : i.comps .vtimezone = []) (hbare : m'.ical.Bare) : foreign np := by
  by_cases hend : np.isEnd
  · by_cases hbegin : np.isBegin
    · exact absurd hend (begin_not_end hbegin)
    · simp [Kcaldav.foreign, hbegin, hend]
  cases h with
  | @beginComp _ _ _ _ tt hbegin ht =>
    -- one component more than there can be
    have hlen := hbare.length tt
    simp only [Ical.alloc, Ical.push_comps, ↓reduceIte, List.length_append, List.length_singleton] at hlen
    split at hlen
    next htt =>
      subst htt
      have hpos : 0 < (i.comps .vcalendar).length := by simpa [Ical.comp?] using hcal
      omega
    · omega
  | beginBlock hbegin ht htz hne => exact absurd hzone hne
  | unknown hbegin ht htz => simp [Kcaldav.foreign, hbegin, ht, htz]
  | endComp _ he => exact absurd he hend
  | skip _ he => exact absurd he hend
  | @field _ _ _ _ e' comp val hbegin _ hunder =>
    by_contra hforeign
    have hproperty : compProperties.any (strcaseEq np.name) := by simpa [Kcaldav.foreign, hbegin, hend] using hforeign
    obtain ⟨c, hc⟩ := Option.isSome_iff_exists.mp hcal
    have hset : (Ical.write ⟨.vcalendar, 0⟩ comp val (i.push np)).comp? ⟨.vcalendar, 0⟩ = some comp := by
      rw [Ical.comp?_write, if_pos rfl]
      exact congrArg (Option.map _) hc
    exact hbare.untouched _ comp hset (under_returns (icalCompField_touched np _) hunder (.inl hproperty))

/-- The lines of an unknown component that leave the calendar bare are foreign. -/
theorem foreignLines_of_bare {ls : List Bytes} (more : List Bytes) : ∀ {names rest : List Bytes} {i : Ical} {e : Bool},
    nestedWithin names ls → (∀ n ∈ names, icalTypeOf n = none ∧ icalTzTypeOf n = none) → (i.comp? ⟨.vcalendar, 0⟩).isSome →
    i.comps .vtimezone = [] → Machine.run C ⟨[⟨.vcalendar, 0⟩], none, i, e⟩ (ls ++ more) = some (m', rest) → m'.ical.Bare →
    foreignLines ls := by
  induction ls with
  | nil =>
    intro names rest i e hnested
    cases names <;> cases hnested
  | cons l ls ih =>
    intro names rest i e hnested hnames hcal hzone hrun hbare
    obtain ⟨np, hnode, hnext⟩ := nestedWithin_foreign hnested hnames
    rw [List.cons_append, Machine.run, if_neg (by simp [Machine.finished]), hnode, Option.bind_some] at hrun
    obtain ⟨m₁, hline, hrun⟩ := Option.bind_eq_some_iff.mp hrun
    have htakes := (Machine.line_eq_some C).mp hline
    have hforeign := htakes.foreign hcal hzone (Machine.run_bare hrun hbare)
    rw [foreignLines, List.all_cons, hnode, Option.all_some, hforeign, Bool.true_and]
    obtain ⟨hend, hrest⟩ := hnext hforeign
    rw [Machine.line_foreign hforeign hend] at hline
    cases hline
    rcases hrest with rfl | ⟨names', hnested, hnames⟩
    · rfl
    · exact @ih names' rest (i.push np) e hnested hnames hcal hzone hrun hbare

end

theorem IcalComp.link_touched (zones : List IcalComp) (c : IcalComp) : (c.link zones).Touched ↔ c.Touched := by
  simp [Touched, link]

theorem Ical.bare_link {i : Ical} : i.link.Bare ↔ i.Bare := by
  have hlength (t : IcalType) : (i.link.comps t).length = (i.comps t).length := by
    rw [Ical.link_comps, List.length_map]
  have hlinked (d : CompRef) : i.link.comp? d = (i.comp? d).map (IcalComp.link (i.comps .vtimezone)) := by
    rw [Ical.comp?, Ical.link_comps, List.getElem?_map]
    rfl
  constructor
  · intro h
    refine ⟨fun t => (hlength t).ge.trans (h.length t), fun d c hc htouched => ?_⟩
    have hlink := (hlinked d).trans (congrArg (Option.map _) hc)
    exact h.untouched d _ hlink ((IcalComp.link_touched _ c).mpr htouched)
  · intro h
    refine ⟨fun t => (hlength t).le.trans (h.length t), fun d c hc htouched => ?_⟩
    obtain ⟨c₀, hc₀, rfl⟩ := Option.map_eq_some_iff.mp ((hlinked d).symm.trans hc)
    exact h.untouched d c₀ hc₀ ((IcalComp.link_touched _ c₀).mp htouched)

theorem Ical.bare_of_addTz {n : Nat} {z : IcalTz} {i : Ical} (h : (addTz n z i).Bare) : i.Bare where
  length t := by
    have hlen := h.length t
    rwa [addTz, Ical.modifyComp_length] at hlen
  untouched d c hc htouched := by
    by_cases hd : d = ⟨.vtimezone, n - 1⟩
    · refine h.untouched d { c with tzs := c.tzs ++ [z] } ?_ htouched
      rw [addTz, Ical.comp?_modifyComp, if_pos hd, ← hd, hc]
      rfl
    · refine h.untouched d c ?_ htouched
      rwa [addTz, Ical.comp?_modifyComp, if_neg hd]

theorem Machine.close_bare {m : Machine} {i : Ical} (h : m.close = some i) (hbare : i.Bare) : m.ical.Bare := by
  unfold Machine.close at h
  split at h
  · obtain ⟨-, heq⟩ := Option.ite_none_right_eq_some.mp h
    cases heq
    exact hbare
  · obtain ⟨-, heq⟩ := Option.ite_none_right_eq_some.mp h
    cases heq
    exact Ical.bare_of_addTz hbare

theorem lineNode_calendar : lineNode (ascii "BEGIN:VCALENDAR") = some ⟨ascii "BEGIN", none, ascii "VCALENDAR"⟩ := by decide

/-- The empty calendar. -/
theorem icalMachine_empty (erange : Bool) : ∃ i,
    icalMachine C erange [ascii "BEGIN:VCALENDAR", ascii "END:VCALENDAR"] = some (i, []) ∧ i.Bare := by
  let i : Ical := ((Ical.empty.push ⟨ascii "BEGIN", none, ascii "VCALENDAR"⟩).alloc .vcalendar).push ⟨ascii "END", none, ascii "VCALENDAR"⟩
  have hcomp (d : CompRef) : i.comp? d = if d = ⟨.vcalendar, 0⟩ then some (.new .vcalendar) else none := Ical.comp?_alloc _ _ d
  have hline : (Machine.start ⟨ascii "BEGIN", none, ascii "VCALENDAR"⟩ erange).line C ⟨ascii "END", none, ascii "VCALENDAR"⟩ =
      some ⟨[], none, i, erange⟩ :=
    (Machine.line_eq_some C).mpr (.endComp (by decide) (by decide) (by decide) fun _ => rfl)
  have hrun : (Machine.start ⟨ascii "BEGIN", none, ascii "VCALENDAR"⟩ erange).run C [ascii "END:VCALENDAR"] =
      some (⟨[], none, i, erange⟩, []) := by
    have hnode : lineNode (ascii "END:VCALENDAR") = some ⟨ascii "END", none, ascii "VCALENDAR"⟩ := by decide
    rw [Machine.run, if_neg (by simp [Machine.finished, Machine.start]), hnode, Option.bind_some, hline]
    rfl
  have hnew {d : CompRef} {c : IcalComp} (hc : i.comp? d = some c) : c = .new .vcalendar := by
    rw [hcomp] at hc
    obtain ⟨-, heq⟩ := Option.ite_none_right_eq_some.mp hc
    exact (Option.some.inj heq).symm
  have hfound : i.Found := by
    intro t c hc
    obtain ⟨k, hk⟩ := Ical.mem_comps_iff.mp hc
    rw [hnew hk]
    exact ⟨by simp [IcalTime.Found, IcalComp.new, IcalTime.zero], by simp [IcalTime.Found, IcalComp.new, IcalTime.zero]⟩
  refine ⟨i.link, ?_, Ical.bare_link.mpr ⟨fun t => ?_, fun d c hc => ?_⟩⟩
  · rw [icalMachine, lineNode_calendar, Option.bind_some, if_pos (by decide), hrun, Option.bind_some,
      Machine.close_finished (by rfl), Option.bind_some, icalLink_eq_some.mpr ⟨hfound, rfl⟩]
    rfl
  · cases t <;> decide
  · rw [hnew hc]
    simp [IcalComp.Touched, IcalComp.new, IcalTm.zero, IcalTime.zero, IcalDur.zero, IcalRrule.zero]

theorem exists_layout (ls : List Bytes) : ∃ b, Layout ls b := by
  induction ls with
  | nil => exact ⟨[], .nil⟩
  | cons l ls ih =>
    obtain ⟨b, hb⟩ := ih
    exact ⟨_, .cons (Folded.refl l) .lf hb⟩

/-- Lines that make no difference between the two lines of the empty calendar are foreign. -/
theorem foreignLines_of_insert {erange : Bool} {U : List Bytes} (hU : unknownBlock U)
    (h : (icalMachine C erange (ascii "BEGIN:VCALENDAR" :: (U ++ [ascii "END:VCALENDAR"]))).map (fun r => r.1.comps) =
      (icalMachine C erange [ascii "BEGIN:VCALENDAR", ascii "END:VCALENDAR"]).map fun r => r.1.comps) : foreignLines U := by
  obtain ⟨i, hi, hbare⟩ := @icalMachine_empty C erange
  rw [hi] at h
  obtain ⟨⟨j, rest⟩, hj, hcomps⟩ := Option.map_eq_some_iff.mp h
  have hjbare : j.Bare := by
    dsimp only at hcomps
    refine ⟨fun t => hcomps ▸ hbare.length t, fun d c hc => hbare.untouched d c ?_⟩
    rwa [Ical.comp?, hcomps] at hc
  rw [icalMachine, lineNode_calendar, Option.bind_some, if_pos (by decide)] at hj
  obtain ⟨⟨m, rest'⟩, hrun, hj⟩ := Option.bind_eq_some_iff.mp hj
  obtain ⟨k, hk, heq⟩ := Option.map_eq_some_iff.mp hj
  cases heq
  obtain ⟨i', hclose, hlink⟩ := Option.bind_eq_some_iff.mp hk
  obtain ⟨-, rfl⟩ := icalLink_eq_some.mp hlink
  exact foreignLines_of_bare _ (nestedWithin_unknown hU) (by simp) rfl rfl hrun (Machine.close_bare hclose (Ical.bare_link.mp hjbare))

/-! ## The parser -/

theorem icalParse_comps (file : Option String) (erange : Bool) (b : Bytes) :
    (icalParse C file erange b 0).1.map (fun r => r.1.comps) = (icalMachine C erange (unfoldLines b)).map fun r => r.1.comps := by
  have hical := congrArg (Option.map Ical.comps) (icalParse_ical (C := C) file erange b 0)
  rw [List.drop_zero, Option.map_map, Option.map_map] at hical
  exact hical

/-- A block of an unknown component, put between two lines of a component of any buffer,
changes neither whether the buffer is accepted nor a component. -/
def Transparent (C : Libc) (U : List Bytes) : Prop :=
  ∀ (file : Option String) (erange : Bool) (pre post : List Bytes) (b b' : Bytes), InComponent C erange pre →
    unfoldLines b = pre ++ post → unfoldLines b' = pre ++ U ++ post →
    (icalParse C file erange b' 0).1.map (fun r => r.1.comps) = (icalParse C file erange b 0).1.map fun r => r.1.comps

/-- The parser's calendar is the scoped parse's where no line makes a difference, and a
block of an unknown component is transparent exactly where its lines are foreign. -/
theorem icalParse_scoped (C : Libc) :
    (∀ (file : Option String) (erange : Bool) (b : Bytes) (ls rest : List Bytes), unfoldLines b = ls ++ rest → nestedByName ls →
      icalFollows ls → (icalParse C file erange b 0).1.map Prod.fst = icalScoped C erange ls) ∧
    ∀ U : List Bytes, unknownBlock U → (∀ l ∈ U, LogicalLine l) → (Transparent C U ↔ foreignLines U) := by
  refine ⟨fun file erange b ls rest hb hnested hall => ?_, fun U hU hlines => ⟨fun h => ?_, fun h => ?_⟩⟩
  · rw [icalParse_ical, List.drop_zero, hb]
    exact icalMachine_scoped rest hnested hall
  · have hbegin : LogicalLine (ascii "BEGIN:VCALENDAR") := by decide
    have hend : LogicalLine (ascii "END:VCALENDAR") := by decide
    obtain ⟨b, hb⟩ := exists_layout [ascii "BEGIN:VCALENDAR", ascii "END:VCALENDAR"]
    obtain ⟨b', hb'⟩ := exists_layout (ascii "BEGIN:VCALENDAR" :: (U ++ [ascii "END:VCALENDAR"]))
    have hlines' : ∀ l ∈ U ++ [ascii "END:VCALENDAR"], LogicalLine l :=
      List.forall_mem_append.mpr ⟨hlines, List.forall_mem_singleton.mpr hend⟩
    have hunfold := hb.unfoldLines (List.forall_mem_cons.mpr ⟨hbegin, List.forall_mem_singleton.mpr hend⟩)
    have hunfold' := hb'.unfoldLines (List.forall_mem_cons.mpr ⟨hbegin, hlines'⟩)
    have hopen : InComponent C false [ascii "BEGIN:VCALENDAR"] := ⟨_, _, lineNode_calendar, rfl, by simp [Machine.start], rfl⟩
    have hsame := h none false [ascii "BEGIN:VCALENDAR"] [ascii "END:VCALENDAR"] b b' hopen hunfold hunfold'
    rw [icalParse_comps, icalParse_comps, hunfold, hunfold'] at hsame
    exact foreignLines_of_insert hU hsame
  · intro file erange pre post b b' hpre hb hb'
    rw [icalParse_comps, icalParse_comps, hb, hb']
    exact icalMachine_insert post hU h hpre

def venueText : Bytes := ascii "BEGIN:VCALENDAR\nBEGIN:X-VVENUE\nX-CITY:Vancouver\nEND:X-VVENUE\nBEGIN:VEVENT\nUID:a\nDTSTART:20200101\nEND:VEVENT\nEND:VCALENDAR\n"

/-- A venue in a calendar with an event, and the venue put anywhere. -/
theorem icalParse_scoped_venue :
    (∃ i stop, (icalParse .utc none false venueText 0).1 = some (i, stop) ∧ icalScoped .utc false (unfoldLines venueText) = some i) ∧
      Transparent .utc [ascii "BEGIN:X-VVENUE", ascii "X-CITY:Vancouver", ascii "END:X-VVENUE"] := by
  constructor
  · have haccepted : (icalParse .utc none false venueText 0).1.map Prod.snd = some 122 := by decide +kernel
    obtain ⟨⟨i, stop⟩, h, -⟩ := Option.map_eq_some_iff.mp haccepted
    have hscoped := (icalParse_scoped .utc).1 none false venueText (unfoldLines venueText) [] (List.append_nil _).symm
      (by decide +kernel) (by decide +kernel)
    exact ⟨i, stop, h, hscoped.symm.trans (congrArg (Option.map Prod.fst) h)⟩
  · exact ((icalParse_scoped .utc).2 _ (by decide +kernel) (by decide)).mpr (by decide +kernel)

/-- A `UID` within an unknown component of an event, and a block within a to-do. -/
def innerUidText : Bytes := ascii "BEGIN:VCALENDAR\nBEGIN:VEVENT\nUID:a\nDTSTART:20200101\nBEGIN:X-A\nUID:b\nEND:X-A\nEND:VEVENT\nEND:VCALENDAR\n"
def strayBlockText : Bytes := ascii "BEGIN:VCALENDAR\nBEGIN:VTIMEZONE\nTZID:a\nEND:VTIMEZONE\nBEGIN:VTODO\nBEGIN:STANDARD\nDTSTART:20200101T000000\nTZOFFSETFROM:+0100\nTZOFFSETTO:+0200\nEND:STANDARD\nEND:VTODO\nEND:VCALENDAR\n"

/-- The `UID` of the unknown component becomes the event's, and the block goes to the time
zone before the to-do. -/
theorem icalParse_not_scoped :
    (nestedByName (unfoldLines innerUidText) ∧
      (icalParse .utc none false innerUidText 0).1.map (fun r => (r.1.comps .vevent).map IcalComp.uid) = some [some (ascii "b")] ∧
      (icalScoped .utc false (unfoldLines innerUidText)).map (fun i => (i.comps .vevent).map IcalComp.uid) = some [some (ascii "a")]) ∧
    nestedByName (unfoldLines strayBlockText) ∧
      (icalParse .utc none false strayBlockText 0).1.map (fun r => (r.1.comps .vtimezone).map fun c => c.tzs.length) = some [1] ∧
      (icalScoped .utc false (unfoldLines strayBlockText)).map (fun i => (i.comps .vtimezone).map fun c => c.tzs.length) = some [0] := by
  decide +kernel

end Kcaldav
