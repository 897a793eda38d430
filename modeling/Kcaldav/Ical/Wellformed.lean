import Kcaldav.Ical.Register

/-! # Accepted calendars are well formed

What the consumers of a parsed calendar rely on: the bits and the chains agree, the
components are of their chain's type and in the order of their `BEGIN` lines, and the
fields the checks and the value parsers promise are there. The machine keeps an
invariant line by line; what is still open is not complete yet, all else is.
-/
namespace Kcaldav
open CString Fallible

variable {C : Libc}

/-! ## Values -/

theorem icalString_ne_nil (cp : Bytes) : Returns (· ≠ []) (icalString cp) := by
  unfold icalString
  refine .ite (fun _ => .of_none fun _ => rfl) fun h => .pure ?_
  simpa using h

theorem icalDatetime_type (cp : Bytes) : Returns (fun v => v.type ≠ .unset) (icalDatetime C cp) := by
  unfold icalDatetime
  dsimp only
  split
  · exact .of_none fun _ => rfl
  next tmm dt hrc =>
    refine .pure ?_
    have utc {p : Tm × IcalDateT} (h : icalDatetimeDatetimeUtc cp = some p) : p.2 ≠ .unset := by
      unfold icalDatetimeDatetimeUtc at h
      simp only [Option.bind_eq_bind, Option.bind_eq_some_iff] at h
      obtain ⟨_, -, _, -, _, -, _, -, _, -, _, -, _, -, _, -, h⟩ := h
      split at h
      · cases h
        simp
      · cases h
    have datetime {p : Tm × IcalDateT} (h : icalDatetimeDatetime cp = some p) : p.2 ≠ .unset := by
      unfold icalDatetimeDatetime at h
      simp only [Option.bind_eq_bind, Option.bind_eq_some_iff] at h
      obtain ⟨_, -, _, -, _, -, _, -, _, -, _, -, _, -, h⟩ := h
      split at h
      · cases h
        simp
      · cases h
    have date {p : Tm × IcalDateT} (h : icalDatetimeDate cp = some p) : p.2 ≠ .unset := by
      unfold icalDatetimeDate at h
      simp only [Option.bind_eq_bind, Option.bind_eq_some_iff] at h
      obtain ⟨_, -, _, -, _, -, h⟩ := h
      cases h
      simp
    split at hrc
    · exact utc hrc
    · split at hrc
      · exact datetime hrc
      · split at hrc
        · exact date hrc
        · cases hrc

/-- A date as it is before the time zones are linked. -/
structure IcalTime.Sound (tm : IcalTime) : Prop where
  tz : tm.tz = none
  utc : tm.tzstr.isSome → tm.time.type ≠ .datetimeutc
  unset : tm.time.type = .unset → tm.time.tm = 0

theorem icalTzParam_utc {dtret : IcalDateT} {tzstr : Option Bytes} (h : tzstr.isSome → dtret ≠ .datetimeutc)
    (start : Bytes) (len : Nat) : Returns (fun r => r.isSome → dtret ≠ .datetimeutc) (icalTzParam dtret tzstr start len) := by
  have fails {msg : String} : Returns (fun r : Option Bytes => r.isSome → dtret ≠ .datetimeutc) (icalFail msg) :=
    .of_none fun _ => rfl
  unfold icalTzParam
  refine .ite (fun _ => .pure h) fun _ => .ite (fun _ => .ite (fun _ => fails) fun _ => .pure h) fun _ =>
    .ite (fun _ => .ite (fun _ => fails) fun _ => .pure h) fun _ => .ite (fun _ => .pure h) fun _ =>
    .ite (fun _ => fails) fun hutc => .ite (fun _ => fails) fun _ => .pure fun _ => hutc

theorem icalTzParams_utc {dtret : IcalDateT} (fuel : Nat) : ∀ {tzstr : Option Bytes} (start : Bytes),
    (tzstr.isSome → dtret ≠ .datetimeutc) →
    Returns (fun r => r.isSome → dtret ≠ .datetimeutc) (icalTzParams dtret fuel tzstr start) := by
  induction fuel with
  | zero =>
    intro tzstr start h
    cases start with
    | nil => exact .pure h
    | cons b bs => exact .pure h
  | succ fuel ih =>
    intro tzstr start h
    cases start with
    | nil => exact .pure h
    | cons b bs => exact .bind (icalTzParam_utc h _ _) fun a ha => ih _ ha

theorem icalTzdatetime_sound (np : IcalNode) : Returns IcalTime.Sound (icalTzdatetime C np) := by
  refine .bind (icalDatetime_type np.val) fun time htime => ?_
  cases np.param with
  | none => exact .pure ⟨rfl, by simp, fun h => absurd h htime⟩
  | some param =>
    refine .bind (icalTzParams_utc _ _ (by simp)) fun tzstr htz => ?_
    exact .pure ⟨rfl, htz, fun h => absurd h htime⟩

def IcalRrule.Sound (r : IcalRrule) : Prop := r.set → r.freq.isSome

theorem icalRrule_sound (vp : IcalRrule) (cp : Bytes) : Returns IcalRrule.Sound (icalRrule C vp cp) := by
  refine .bind (.any _) fun r _ => .ite (fun _ => .of_none fun _ => rfl) fun h => .pure fun _ => ?_
  cases hfreq : r.freq with
  | none => simp [hfreq] at h
  | some _ => rfl

/-! ## Components -/

/-- What a component keeps from line to line. -/
structure IcalComp.Sound (t : IcalType) (c : IcalComp) : Prop where
  type : c.type = t
  uid : c.uid ≠ some []
  tzid : c.tzid ≠ some []
  dtstart : c.dtstart.Sound
  dtend : c.dtend.Sound
  rrule : c.rrule.Sound
  tzs : ∀ z ∈ c.tzs, z.rrule.Sound

theorem IcalComp.sound_new (t : IcalType) : (IcalComp.new t).Sound t where
  type := rfl
  uid := by simp [new]
  tzid := by simp [new]
  dtstart := ⟨rfl, by simp [new, IcalTime.zero], fun _ => rfl⟩
  dtend := ⟨rfl, by simp [new, IcalTime.zero], fun _ => rfl⟩
  rrule := by simp [new, IcalRrule.Sound, IcalRrule.zero]
  tzs := by simp [new]

theorem icalCompField_sound {t : IcalType} {c : IcalComp} (h : c.Sound t) (np : IcalNode) :
    Returns (fun r => r.1.Sound t) (icalCompField C np c) := by
  unfold icalCompField
  refine .ite (fun _ => ?_) fun _ => .ite (fun _ => ?_) fun _ => .ite (fun _ => ?_) fun _ => .ite (fun _ => ?_) fun _ =>
    .ite (fun _ => ?_) fun _ => .ite (fun _ => ?_) fun _ => .ite (fun _ => ?_) fun _ => .ite (fun _ => ?_) fun _ =>
    .ite (fun _ => ?_) fun _ => .pure h
  · exact .bind (icalString_ne_nil _) fun v hv => .pure { h with uid := by simpa using hv }
  · exact .bind (.any _) fun _ _ => .pure { h with }
  · exact .bind (.any _) fun _ _ => .pure { h with }
  · exact .bind (.any _) fun _ _ => .pure { h with }
  · exact .bind (icalTzdatetime_sound np) fun _ hv => .pure { h with dtstart := hv }
  · exact .bind (icalTzdatetime_sound np) fun _ hv => .pure { h with dtend := hv }
  · exact .bind (.any _) fun _ _ => .pure { h with }
  · exact .bind (icalString_ne_nil _) fun v hv => .pure { h with tzid := by simpa using hv }
  · exact .bind (icalRrule_sound _ _) fun _ hv => .pure { h with rrule := hv }

theorem icalTzField_sound {z : IcalTz} (h : z.rrule.Sound) (np : IcalNode) :
    Returns (fun z' => z'.rrule.Sound) (icalTzField C np z) := by
  unfold icalTzField
  refine .ite (fun _ => ?_) fun _ => .ite (fun _ => ?_) fun _ => .ite (fun _ => ?_) fun _ => .ite (fun _ => ?_) fun _ => .pure h
  · exact .bind (.any _) fun _ _ => .pure h
  · exact .bind (.any _) fun _ _ => .pure h
  · exact .bind (.any _) fun _ _ => .pure h
  · exact .bind (icalRrule_sound _ _) fun _ hv => .pure hv

/-- What the checks at the end of a component let pass. -/
structure IcalComp.Checked (c : IcalComp) : Prop where
  until_ : c.rrule.set → c.rrule.until_.type ≠ .unset → c.dtstart.time.type ≠ .unset →
    c.rrule.until_.type = if c.dtstart.tzstr.isSome then .datetimeutc else c.dtstart.time.type
  event : c.type = .vevent → c.uid.isSome ∧ c.dtstart.time.tm ≠ 0
  timezone : c.type = .vtimezone → c.tzid.isSome

theorem IcalComp.Complete.checked {c : IcalComp} (h : c.Complete) : c.Checked := by
  have failed {x : Value Unit} (hx : ∀ d, (x d).1 = none) (heq : x = pure ()) : False := by
    have hnone := hx ⟨"", 0, none, false⟩
    rw [heq] at hnone
    cases hnone
  have hcheck := h 0
  unfold icalCompCheck at hcheck
  by_cases huntil : c.rrule.set ∧ c.rrule.until_.type ≠ .unset ∧ c.dtstart.time.type ≠ .unset ∧
      c.rrule.until_.type ≠ (if c.dtstart.tzstr.isSome then .datetimeutc else c.dtstart.time.type)
  · rw [if_pos huntil] at hcheck
    exact (failed (fun _ => rfl) hcheck).elim
  · rw [if_neg huntil] at hcheck
    simp only [not_and, ne_eq, Decidable.not_not] at huntil
    refine ⟨huntil, fun ht => ?_, fun ht => ?_⟩
    · rw [ht] at hcheck
      dsimp only at hcheck
      split at hcheck
      · exact (failed (fun _ => rfl) hcheck).elim
      next huid =>
        split at hcheck
        · exact (failed (fun _ => rfl) hcheck).elim
        next htm => exact ⟨by simpa [Option.isSome_iff_ne_none] using huid, htm⟩
    · rw [ht] at hcheck
      dsimp only at hcheck
      split at hcheck
      · exact (failed (fun _ => rfl) hcheck).elim
      next htzid => simpa [Option.isSome_iff_ne_none] using htzid

/-- The blocks of a time zone play no part in its checks. -/
theorem IcalComp.complete_tzs {c : IcalComp} (tzs : List IcalTz) : ({ c with tzs := tzs } : IcalComp).Complete ↔ c.Complete :=
  Iff.rfl

/-! ## The machine -/

/-- The invariant. What is not open is complete. -/
structure Machine.Sound (m : Machine) : Prop where
  comp : ∀ d c, m.ical.comp? d = some c → c.Sound d.type ∧ (d ∉ m.opened → c.Complete)
  opened : ∀ d ∈ m.opened, (m.ical.comp? d).isSome
  block : ∀ z ∈ m.block, z.rrule.Sound
  bits : ∀ t, m.ical.bits.testBit t.code ↔ m.ical.comps t ≠ []
  calendar : m.ical.comps .vcalendar ≠ []

theorem IcalType.code_inj {t u : IcalType} (h : t.code = u.code) : t = u := by
  cases t <;> cases u <;> first | rfl | cases h

theorem Ical.alloc_bits {i : Ical} (h : ∀ t, i.bits.testBit t.code ↔ i.comps t ≠ []) (type t : IcalType) :
    (i.alloc type).bits.testBit t.code ↔ (i.alloc type).comps t ≠ [] := by
  unfold alloc
  rw [Nat.testBit_or, Bool.or_eq_true, h, Nat.one_shiftLeft, Nat.testBit_two_pow]
  by_cases ht : t = type
  · simp [ht]
  · have hcode : type.code ≠ t.code := fun hc => ht (IcalType.code_inj hc).symm
    simp [ht, hcode]

theorem Ical.modifyComp_ne_nil {c : CompRef} {f : IcalComp → IcalComp} {i : Ical} {t : IcalType} :
    (i.modifyComp c f).comps t ≠ [] ↔ i.comps t ≠ [] := by
  unfold modifyComp
  dsimp only
  split
  · simp [List.modify_eq_nil_iff]
  · exact Iff.rfl

theorem Machine.Sound.opened_eq {m : Machine} (h : m.Sound) {d : CompRef} (hd : d ∈ m.opened) :
    m.ical.comp? d = some (compAt d m.ical) := by
  obtain ⟨x, hx⟩ := Option.isSome_iff_exists.mp (h.opened d hd)
  rw [compAt_eq hx, hx]

/-- The end of a block appends it to a time zone. -/
theorem Machine.Sound.closeBlock {cs : List CompRef} {z : IcalTz} {i : Ical} {e : Bool} (h : (⟨cs, some z, i, e⟩ : Machine).Sound) :
    (⟨cs, none, addTz (i.comps .vtimezone).length z i, e⟩ : Machine).Sound := by
  have hzone (d : CompRef) : (addTz (i.comps .vtimezone).length z i).comp? d =
      if d = ⟨.vtimezone, (i.comps .vtimezone).length - 1⟩ then
        (i.comp? ⟨.vtimezone, (i.comps .vtimezone).length - 1⟩).map fun c => { c with tzs := c.tzs ++ [z] }
      else i.comp? d := Ical.comp?_modifyComp _ _ _ _
  refine ⟨fun d c hc => ?_, fun d hd => ?_, by simp, fun t => ?_, ?_⟩
  · dsimp only at hc
    rw [hzone] at hc
    split at hc
    next heq =>
      obtain ⟨x, hx, rfl⟩ := Option.map_eq_some_iff.mp hc
      obtain ⟨hsound, hcomplete⟩ := h.comp _ x hx
      have htzs : ∀ y ∈ x.tzs ++ [z], y.rrule.Sound := by
        intro y hy
        rcases List.mem_append.mp hy with hy | hy
        · exact hsound.tzs y hy
        · exact List.mem_singleton.mp hy ▸ h.block z rfl
      rw [heq]
      exact ⟨{ hsound with tzs := htzs }, fun ho => (IcalComp.complete_tzs _).mpr (hcomplete ho)⟩
    · exact h.comp d c hc
  · dsimp only
    rw [hzone]
    split
    next heq =>
      rw [Option.isSome_map, ← heq]
      exact h.opened d hd
    · exact h.opened d hd
  · exact (h.bits t).trans Ical.modifyComp_ne_nil.symm
  · exact Ical.modifyComp_ne_nil.mpr h.calendar

section
variable {np : IcalNode} {m m' : Machine}

theorem Machine.Takes.sound (htakes : Machine.Takes C np m m') (h : m.Sound) : m'.Sound := by
  cases htakes with
  | @endBlock cs z i e hend hval hz =>
    have hpush : (⟨cs, some z, i.push np, e⟩ : Machine).Sound := ⟨h.comp, h.opened, h.block, h.bits, h.calendar⟩
    exact hpush.closeBlock
  | skipBlock => exact ⟨h.comp, h.opened, h.block, h.bits, h.calendar⟩
  | fieldBlock _ hunder =>
    refine ⟨h.comp, h.opened, fun z' hz' => ?_, h.bits, h.calendar⟩
    cases hz'
    exact under_returns (icalTzField_sound (h.block _ rfl) np) hunder
  | @beginComp c cs i e tt hbegin ht =>
    have halloc (d : CompRef) : ((i.push np).alloc tt).comp? d =
        if d = ⟨tt, (i.comps tt).length⟩ then some (.new tt) else i.comp? d := Ical.comp?_alloc tt (i.push np) d
    refine ⟨fun d x hx => ?_, fun d hd => ?_, by simp, fun t => ?_, ?_⟩
    · dsimp only at hx
      rw [halloc] at hx
      split at hx
      next heq =>
        cases hx
        rw [heq]
        exact ⟨IcalComp.sound_new tt, fun ho => absurd List.mem_cons_self ho⟩
      · obtain ⟨hsound, hcomplete⟩ := h.comp d x hx
        exact ⟨hsound, fun ho => hcomplete fun hm => ho (List.mem_cons_of_mem _ hm)⟩
    · dsimp only
      rw [halloc]
      split
      · rfl
      next hne => exact h.opened d ((List.mem_cons.mp hd).resolve_left hne)
    · exact Ical.alloc_bits h.bits tt t
    · have hcal := h.calendar
      simp only [Ical.alloc]
      split
      · simp
      · exact hcal
  | beginBlock =>
    refine ⟨h.comp, h.opened, fun z hz => ?_, h.bits, h.calendar⟩
    cases hz
    intro hset
    cases hset
  | unknown => exact ⟨h.comp, h.opened, h.block, h.bits, h.calendar⟩
  | @endComp c cs i e hbegin hend hval hcomplete =>
    refine ⟨fun d x hx => ?_, fun d hd => h.opened d (List.mem_cons_of_mem _ hd), h.block, h.bits, h.calendar⟩
    obtain ⟨hsound, hclosed⟩ := h.comp d x hx
    refine ⟨hsound, fun ho => ?_⟩
    by_cases hdc : d = c
    · subst hdc
      have hx' : i.comp? d = some x := hx
      rwa [compAt_eq hx'] at hcomplete
    · exact hclosed fun hm => ho ((List.mem_cons.mp hm).resolve_left hdc)
  | skip => exact ⟨h.comp, h.opened, h.block, h.bits, h.calendar⟩
  | @field c cs i e e' comp val hbegin hend hunder =>
    have hc := h.opened_eq List.mem_cons_self
    have hwrite (d : CompRef) : ((i.push np).write c comp val).comp? d = if d = c then (i.comp? c).map fun _ => comp else i.comp? d :=
      Ical.comp?_modifyComp _ _ _ _
    refine ⟨fun d x hx => ?_, fun d hd => ?_, h.block, fun t => ?_, ?_⟩
    · dsimp only at hx
      rw [hwrite] at hx
      split at hx
      next heq =>
        obtain ⟨y, -, rfl⟩ := Option.map_eq_some_iff.mp hx
        rw [heq]
        exact ⟨under_returns (icalCompField_sound (h.comp c _ hc).1 np) hunder, fun ho => absurd List.mem_cons_self ho⟩
      · exact h.comp d x hx
    · dsimp only
      rw [hwrite]
      split
      · rw [Option.isSome_map]
        exact h.opened c List.mem_cons_self
      · exact h.opened d hd
    · exact (h.bits t).trans Ical.modifyComp_ne_nil.symm
    · exact Ical.modifyComp_ne_nil.mpr h.calendar

end

theorem Machine.sound_start (np : IcalNode) (erange : Bool) : (Machine.start np erange).Sound := by
  have hstart (d : CompRef) : (Machine.start np erange).ical.comp? d = if d = ⟨.vcalendar, 0⟩ then some (.new .vcalendar) else none :=
    Ical.comp?_alloc _ _ _
  have hbits (t : IcalType) : (Ical.empty.push np).bits.testBit t.code ↔ (Ical.empty.push np).comps t ≠ [] := by
    simp [Ical.push, Ical.empty]
  refine ⟨fun d x hx => ?_, fun d hd => ?_, by simp [start], Ical.alloc_bits hbits _, by simp [start, Ical.alloc]⟩
  · rw [hstart] at hx
    split at hx
    next heq =>
      cases hx
      rw [heq]
      exact ⟨IcalComp.sound_new _, fun ho => absurd List.mem_cons_self ho⟩
    · cases hx
  · rw [hstart, if_pos (List.mem_singleton.mp hd)]
    rfl

theorem Machine.Sound.run {m m' : Machine} {ls rest : List Bytes} (h : m.Sound) (hrun : m.run C ls = some (m', rest)) : m'.Sound := by
  obtain ⟨-, -, hsound, -⟩ := @Machine.run_induction C (fun _ m => m.Sound) (fun _ htakes h => htakes.sound h) _ _ [] _ _ h hrun
  exact hsound

/-- What is closed at the end is sound and complete. -/
theorem Machine.Sound.close {m : Machine} {i : Ical} (h : m.Sound) (hclose : m.close = some i) :
    (∀ d c, i.comp? d = some c → c.Sound d.type ∧ c.Complete) ∧ (∀ t, i.bits.testBit t.code ↔ i.comps t ≠ []) ∧
      i.comps .vcalendar ≠ [] := by
  have finish {m : Machine} (h : m.Sound) (hopen : ∀ d ∈ m.opened, (compAt d m.ical).Complete) (d : CompRef) (c : IcalComp)
      (hc : m.ical.comp? d = some c) : c.Sound d.type ∧ c.Complete := by
    obtain ⟨hsound, hclosed⟩ := h.comp d c hc
    by_cases hd : d ∈ m.opened
    · have hcomplete := hopen d hd
      rw [compAt_eq hc] at hcomplete
      exact ⟨hsound, hcomplete⟩
    · exact ⟨hsound, hclosed hd⟩
  obtain ⟨cs, block, i', e⟩ := m
  unfold Machine.close at hclose
  cases block with
  | none =>
    obtain ⟨hopen, heq⟩ := Option.ite_none_right_eq_some.mp hclose
    cases heq
    exact ⟨finish h hopen, h.bits, h.calendar⟩
  | some z =>
    obtain ⟨⟨-, hopen⟩, heq⟩ := Option.ite_none_right_eq_some.mp hclose
    cases heq
    have hblock := h.closeBlock
    exact ⟨finish hblock hopen, hblock.bits, hblock.calendar⟩

/-! ## Whole files -/

/-- A date with a time zone name is linked to the first time zone of that name and is not
in UTC; one without is not linked. -/
structure IcalTime.Linked (zones : List IcalComp) (tm : IcalTime) : Prop where
  first : ∀ tzstr ∈ tm.tzstr, ∃ k z, tm.tz = some k ∧ zones[k]? = some z ∧ strcaseEq (z.tzid.getD []) tzstr ∧
    ∀ j z', j < k → zones[j]? = some z' → ¬strcaseEq (z'.tzid.getD []) tzstr
  utc : tm.tzstr.isSome → tm.time.type ≠ .datetimeutc
  none : tm.tzstr = none → tm.tz = none

structure Ical.Wellformed (i : Ical) : Prop where
  bits : ∀ t, i.bits.testBit t.code ↔ i.comps t ≠ []
  calendar : i.bits.testBit IcalType.vcalendar.code
  type : ∀ t, ∀ c ∈ i.comps t, c.type = t
  event : ∀ c ∈ i.comps .vevent, (∃ uid, c.uid = some uid ∧ uid ≠ []) ∧ c.dtstart.time.type ≠ .unset ∧ c.dtstart.time.tm ≠ 0
  timezone : ∀ c ∈ i.comps .vtimezone, ∃ tzid, c.tzid = some tzid ∧ tzid ≠ []
  linked : ∀ t, ∀ c ∈ i.comps t, c.dtstart.Linked (i.comps .vtimezone) ∧ c.dtend.Linked (i.comps .vtimezone)
  freq : ∀ t, ∀ c ∈ i.comps t, (c.rrule.set → c.rrule.freq.isSome) ∧ ∀ z ∈ c.tzs, z.rrule.set → z.rrule.freq.isSome
  until_ : ∀ t, ∀ c ∈ i.comps t, c.rrule.set → c.rrule.until_.type ≠ .unset → c.dtstart.time.type ≠ .unset →
    c.rrule.until_.type = if c.dtstart.tz.isSome then .datetimeutc else c.dtstart.time.type

theorem IcalTime.Sound.linked {zones : List IcalComp} {tm : IcalTime} (h : tm.Sound) (hfound : tm.Found zones) :
    (tm.link zones).Linked (zones.map (IcalComp.link zones)) := by
  refine ⟨fun tzstr htz => ?_, fun htz => ?_, fun htz => ?_⟩
  · rw [link_tzstr] at htz
    obtain ⟨k, hk⟩ := Option.isSome_iff_exists.mp (hfound tzstr htz)
    have hlink : (tm.link zones).tz = some k := by
      unfold IcalTime.link
      rw [Option.mem_def.mp htz]
      exact hk
    obtain ⟨hlt, hmatch, hfirst⟩ := List.findIdx?_eq_some_iff_getElem.mp hk
    refine ⟨k, zones[k].link zones, hlink, by simp [hlt], hmatch, fun j z' hj hz' => ?_⟩
    rw [List.getElem?_map, List.getElem?_eq_getElem (hj.trans hlt)] at hz'
    cases hz'
    exact hfirst j hj
  · rw [link_tzstr] at htz
    rw [link_time]
    exact h.utc htz
  · rw [link_tzstr] at htz
    unfold IcalTime.link
    rw [htz]
    exact h.tz

theorem IcalTime.link_tz_isSome {zones : List IcalComp} {tm : IcalTime} (h : tm.Sound) (hfound : tm.Found zones) :
    (tm.link zones).tz.isSome = tm.tzstr.isSome := by
  unfold IcalTime.link
  cases htz : tm.tzstr with
  | none => simp [h.tz]
  | some tzstr => exact hfound tzstr htz

theorem Ical.mem_comps_iff {i : Ical} {t : IcalType} {c : IcalComp} : c ∈ i.comps t ↔ ∃ k, i.comp? ⟨t, k⟩ = some c := by
  rw [List.mem_iff_getElem?]
  rfl

theorem IcalComp.Sound.linked {zones : List IcalComp} {t : IcalType} {c : IcalComp} (h : c.Sound t) (hfound : c.Found zones) :
    (c.link zones).dtstart.Linked (zones.map (IcalComp.link zones)) ∧ (c.link zones).dtend.Linked (zones.map (IcalComp.link zones)) :=
  ⟨h.dtstart.linked hfound.dtstart, h.dtend.linked hfound.dtend⟩

/-- Sound and complete components whose time zones are found make a well formed calendar. -/
theorem Ical.link_wellformed {i : Ical} (hcomp : ∀ t, ∀ c ∈ i.comps t, c.Sound t ∧ c.Complete)
    (hbits : ∀ t, i.bits.testBit t.code ↔ i.comps t ≠ []) (hcal : i.comps .vcalendar ≠ []) (hfound : i.Found) :
    i.link.Wellformed := by
  have linked {t : IcalType} {P : IcalComp → Prop}
      (h : ∀ c ∈ i.comps t, c.Sound t → c.Checked → c.Found (i.comps .vtimezone) → P (c.link (i.comps .vtimezone))) :
      ∀ c ∈ i.link.comps t, P c := by
    intro c hc
    obtain ⟨x, hx, rfl⟩ := List.mem_map.mp hc
    obtain ⟨hsound, hcomplete⟩ := hcomp t x hx
    exact h x hx hsound hcomplete.checked (hfound t x hx)
  refine ⟨fun t => ?_, (hbits _).mpr hcal, fun t => linked fun x _ hsound _ _ => hsound.type, ?_, ?_, fun t => ?_, fun t => ?_, fun t => ?_⟩
  · rw [Ical.link_comps, ne_eq, List.map_eq_nil_iff]
    exact hbits t
  · refine linked fun x _ hsound hchecked _ => ?_
    obtain ⟨huid, htm⟩ := hchecked.event hsound.type
    obtain ⟨uid, huid⟩ := Option.isSome_iff_exists.mp huid
    have hne : uid ≠ [] := fun hnil => hsound.uid (hnil ▸ huid)
    simp only [IcalComp.link, IcalTime.link_time]
    exact ⟨⟨uid, huid, hne⟩, fun hunset => htm (hsound.dtstart.unset hunset), htm⟩
  · refine linked fun x _ hsound hchecked _ => ?_
    obtain ⟨tzid, htzid⟩ := Option.isSome_iff_exists.mp (hchecked.timezone hsound.type)
    exact ⟨tzid, htzid, fun hnil => hsound.tzid (hnil ▸ htzid)⟩
  · exact linked fun x _ hsound _ hfound => hsound.linked hfound
  · exact linked fun x _ hsound _ _ => ⟨hsound.rrule, hsound.tzs⟩
  · refine linked fun x _ hsound hchecked hfound => ?_
    simp only [IcalComp.link, IcalTime.link_time, IcalTime.link_tz_isSome hsound.dtstart hfound.dtstart]
    exact hchecked.until_

/-- Every accepted calendar is well formed, and each chain holds the components of its type
in the order of their `BEGIN` lines, each filled by its own lines. -/
theorem icalParse_wellformed (C : Libc) (file : Option String) (erange : Bool) (cp : Bytes) (pos : Nat) (i : Ical) (stop : Nat)
    (h : (icalParse C file erange cp pos).1 = some (i, stop)) :
    i.Wellformed ∧ ∃ begun, icalBegun C erange (unfoldLines (cp.drop pos)) = some begun ∧ i.InOrder begun := by
  have hmachine : (icalMachine C erange (unfoldLines (cp.drop pos))).map Prod.fst = some i := by
    rw [← icalParse_ical file, h]
    rfl
  clear h
  obtain ⟨⟨j, rest⟩, hm, rfl⟩ := Option.map_eq_some_iff.mp hmachine
  clear hmachine
  cases hls : unfoldLines (cp.drop pos) with
  | nil =>
    rw [hls] at hm
    cases hm
  | cons l ls =>
    rw [hls, icalMachine] at hm
    obtain ⟨np, hnode, hm⟩ := Option.bind_eq_some_iff.mp hm
    obtain ⟨-, hm⟩ := Option.ite_none_right_eq_some.mp hm
    obtain ⟨⟨m, rest'⟩, hrun, hm⟩ := Option.bind_eq_some_iff.mp hm
    obtain ⟨j', hj, heq⟩ := Option.map_eq_some_iff.mp hm
    cases heq
    obtain ⟨i, hclose, hlink⟩ := Option.bind_eq_some_iff.mp hj
    obtain ⟨hfound, rfl⟩ := icalLink_eq_some.mp hlink
    obtain ⟨g, hg, hregistered⟩ := (Machine.registered_start np erange).run hrun
    have hchains := hregistered.close hclose
    obtain ⟨hcomp, hbits, hcal⟩ := ((Machine.sound_start np erange).run hrun).close hclose
    constructor
    · refine Ical.link_wellformed (fun t c hc => ?_) hbits hcal hfound
      obtain ⟨k, hk⟩ := Ical.mem_comps_iff.mp hc
      exact hcomp ⟨t, k⟩ c hk
    · refine ⟨g.close, by rw [icalBegun, hg, Option.map_some], fun t => ?_⟩
      rw [Ical.link_comps, hchains, hchains]

/-- An event within another and one after it, and a time zone that is named before it is there. -/
def nestedEvents : Bytes := ascii ("BEGIN:VCALENDAR\n" ++
  "BEGIN:VEVENT\nUID:a\nDTSTART;TZID=X:20200101T000000\n" ++
  "BEGIN:VEVENT\nUID:b\nDTSTART:20200102\nRRULE:FREQ=DAILY\nEND:VEVENT\nSUMMARY:outer\nEND:VEVENT\n" ++
  "BEGIN:VTIMEZONE\nTZID:x\nEND:VTIMEZONE\n" ++
  "BEGIN:VEVENT\nUID:c\nDTSTART:20200103\nEND:VEVENT\nEND:VCALENDAR\n")

/-- The outer event comes first, although it is the inner one that ends first. -/
theorem icalParse_wellformed_nested : ∃ i stop, (icalParse .utc none false nestedEvents 0).1 = some (i, stop) ∧ i.Wellformed ∧
    (∃ begun, icalBegun .utc false (unfoldLines (nestedEvents.drop 0)) = some begun ∧ i.InOrder begun) ∧
    (i.comps .vevent).map IcalComp.uid = [some (ascii "a"), some (ascii "b"), some (ascii "c")] := by
  have haccepted : (icalParse .utc none false nestedEvents 0).1.isSome := by decide +kernel
  obtain ⟨⟨i, stop⟩, h⟩ := Option.isSome_iff_exists.mp haccepted
  obtain ⟨hwellformed, begun, hbegun, horder⟩ := icalParse_wellformed .utc none false nestedEvents 0 i stop h
  refine ⟨i, stop, h, hwellformed, ⟨begun, hbegun, horder⟩, ?_⟩
  have huids : (icalBegun .utc false (unfoldLines (nestedEvents.drop 0))).map (fun cs => (cs.filter (·.type = .vevent)).map IcalComp.uid) =
      some [some (ascii "a"), some (ascii "b"), some (ascii "c")] := by decide +kernel
  rw [hbegun, Option.map_some, Option.some.injEq] at huids
  rw [horder, List.map_map]
  exact huids

end Kcaldav
