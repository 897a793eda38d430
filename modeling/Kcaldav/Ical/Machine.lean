import Kcaldav.Ical.Open

/-! # The parser as a machine

A file seen line by line. What the nested calls of the parser keep on their stacks is
a list of open components and perhaps a time zone block; a line opens, closes or fills
one of them, and what is open where the lines end is closed there. The parser accepts
a file exactly where the machine accepts its unfolded lines, with the same calendar.
-/
namespace Kcaldav
open CString Fallible LineReader

/-! ## The machine -/

/-- The node of an unfolded line. -/
def lineNode (l : Bytes) : Option IcalNode := if l = [] then none else splitLine (cstr l)

theorem IcalComp.complete_iff (c : IcalComp) : (icalCompCheck 0 c ⟨"", 0, none, false⟩).1.isSome ↔ c.Complete := by
  constructor
  · intro h
    obtain ⟨u, hu⟩ := Option.isSome_iff_exists.mp h
    exact ((icalCompCheck_tests c).pass 0 (Prod.ext hu rfl)).1
  · intro h
    rw [h 0]
    rfl

theorem IcalTz.complete_iff (c : IcalTz) : (icalTzCheck c ⟨"", 0, none, false⟩).1.isSome ↔ c.Complete := by
  constructor
  · intro h
    obtain ⟨u, hu⟩ := Option.isSome_iff_exists.mp h
    exact ((icalTzCheck_tests c).pass 0 (Prod.ext hu rfl)).1 0
  · intro h
    rw [show icalTzCheck c = pure () from h]
    rfl

instance (c : IcalComp) : Decidable c.Complete := decidable_of_iff _ c.complete_iff
instance (c : IcalTz) : Decidable c.Complete := decidable_of_iff _ c.complete_iff

theorem compAt_eq {c : CompRef} {i : Ical} {x : IcalComp} (h : i.comp? c = some x) : compAt c i = x := by
  rw [compAt, h]
  rfl

theorem comp?_congr {i j : Ical} (h : i.comps = j.comps) (c : CompRef) : i.comp? c = j.comp? c := by
  unfold Ical.comp?
  rw [h]

theorem compAt_congr {i j : Ical} (h : i.comps = j.comps) (c : CompRef) : compAt c i = compAt c j := by
  unfold compAt
  rw [comp?_congr h]

/-- Writing a component back unchanged. -/
theorem modifyComp_self (c : CompRef) (i : Ical) : (i.modifyComp c fun _ => compAt c i).comps = i.comps := by
  funext t
  apply List.ext_getElem?
  intro k
  refine (Ical.comp?_modifyComp c _ _ ⟨t, k⟩).trans ?_
  split
  next heq =>
    subst heq
    cases hc : i.comp? ⟨t, k⟩ with
    | none => exact hc.symm
    | some x =>
      rw [compAt_eq hc]
      exact hc.symm
  · rfl

namespace Ical

def push (np : IcalNode) (i : Ical) : Ical := { i with first := i.first ++ [np] }

/-- A component with a property set, and the bytes the value parser left in the node. -/
def write (c : CompRef) (comp : IcalComp) (val : Bytes) (i : Ical) : Ical :=
  { i.modifyComp c fun _ => comp with first := i.first.modifyLast fun np => { np with val := val } }

theorem comp?_write (c : CompRef) (comp : IcalComp) (val : Bytes) (i : Ical) (d : CompRef) :
    (i.write c comp val).comp? d = if d = c then (i.comp? c).map fun _ => comp else i.comp? d :=
  comp?_modifyComp c _ i d

@[simp] theorem push_comps (np : IcalNode) (i : Ical) : (i.push np).comps = i.comps := rfl

end Ical

/-- The calendar so far and what is open in it, innermost first. -/
structure Machine where
  opened : List CompRef
  block : Option IcalTz
  ical : Ical
  erange : Bool

variable (C : Libc)

namespace Machine

/-- A line within a time zone block. -/
def blockLine (z : IcalTz) (np : IcalNode) (m : Machine) : Option Machine :=
  if np.isEnd then
    if strcaseEq z.type.name np.val then
      if z.Complete then
        some { m with block := none, ical := addTz (m.ical.comps .vtimezone).length z m.ical }
      else none
    else some m
  else (under (icalTzField C np z) m.erange).map fun r => { m with block := some r.1, erange := r.2 }

/-- A line of the innermost component. -/
def compLine (c : CompRef) (cs : List CompRef) (np : IcalNode) (m : Machine) : Option Machine :=
  if np.isBegin then
    match icalTypeOf np.val, icalTzTypeOf np.val with
    | some tt, _ =>
      some { m with opened := ⟨tt, (m.ical.comps tt).length⟩ :: c :: cs, ical := m.ical.alloc tt }
    | none, some tz => if m.ical.comps .vtimezone = [] then none else some { m with block := some (.new tz) }
    | none, none => some m
  else if np.isEnd then
    if strcaseEq c.type.name np.val then
      if (compAt c m.ical).Complete then some { m with opened := cs } else none
    else some m
  else (under (icalCompField C np (compAt c m.ical)) m.erange).map fun r =>
    { m with ical := m.ical.write c r.1.1 r.1.2, erange := r.2 }

def line (m : Machine) (np : IcalNode) : Option Machine :=
  match m.block, m.opened with
  | some z, _ => blockLine C z np { m with ical := m.ical.push np }
  | none, c :: cs => compLine C c cs np { m with ical := m.ical.push np }
  | none, [] => none

/-- The diagnostics once the value parser of the line has run over them. -/
def lineDiag (m : Machine) (np : IcalNode) (d : Diag) : Diag :=
  match m.block, m.opened with
  | some z, _ => if np.isEnd then d else (icalTzField C np z d).2
  | none, c :: _ => if np.isBegin || np.isEnd then d else (icalCompField C np (compAt c m.ical) d).2
  | none, [] => d

theorem lineDiag_block (cs : List CompRef) (z : IcalTz) (i : Ical) (e : Bool) (np : IcalNode) (d : Diag) :
    lineDiag C ⟨cs, some z, i, e⟩ np d = if np.isEnd then d else (icalTzField C np z d).2 := rfl

theorem lineDiag_comp (c : CompRef) (cs : List CompRef) (i : Ical) (e : Bool) (np : IcalNode) (d : Diag) :
    lineDiag C ⟨c :: cs, none, i, e⟩ np d =
      if np.isBegin || np.isEnd then d else (icalCompField C np (compAt c i) d).2 := rfl

/-- Nothing is open. -/
def finished (m : Machine) : Bool := m.opened.isEmpty && m.block.isNone

/-- Read lines until nothing is open or there are none left. -/
def run : Machine → List Bytes → Option (Machine × List Bytes)
  | m, [] => some (m, [])
  | m, l :: ls =>
    if m.finished then some (m, l :: ls)
    else ((lineNode l).bind (m.line C)).bind fun m => run m ls

/-- What is open is closed where it stands. -/
def close (m : Machine) : Option Ical :=
  match m.block with
  | none => if ∀ c ∈ m.opened, (compAt c m.ical).Complete then some m.ical else none
  | some z =>
    let i := addTz (m.ical.comps .vtimezone).length z m.ical
    if z.Complete ∧ ∀ c ∈ m.opened, (compAt c i).Complete then some i else none

/-- The calendar has been opened. -/
def start (np : IcalNode) (erange : Bool) : Machine where
  opened := [⟨.vcalendar, 0⟩]
  block := none
  ical := (Ical.empty.push np).alloc .vcalendar
  erange := erange

end Machine

/-- The time zones are found and linked. -/
def icalLink (i : Ical) : Option Ical :=
  (under (icalPostparseTypes (i.comps .vtimezone) IcalType.all i) false).map Prod.fst

/-- A whole file: the calendar, and the lines after it. -/
def icalMachine (erange : Bool) : List Bytes → Option (Ical × List Bytes)
  | [] => none
  | l :: ls =>
    (lineNode l).bind fun np =>
      if np.isBegin && strcaseEq np.val (ascii "VCALENDAR") then
        ((Machine.start np erange).run C ls).bind fun r => (r.1.close.bind icalLink).map fun i => (i, r.2)
      else none

/-! ## What a line can do -/

/-- The lines a machine takes, one constructor for each way it takes them. -/
inductive Machine.Takes (np : IcalNode) : Machine → Machine → Prop
  | endBlock {cs : List CompRef} {z : IcalTz} {i : Ical} {e : Bool} : np.isEnd → strcaseEq z.type.name np.val → z.Complete →
    Takes np ⟨cs, some z, i, e⟩ ⟨cs, none, addTz (i.comps .vtimezone).length z (i.push np), e⟩
  | skipBlock {cs : List CompRef} {z : IcalTz} {i : Ical} {e : Bool} : np.isEnd → ¬strcaseEq z.type.name np.val →
    Takes np ⟨cs, some z, i, e⟩ ⟨cs, some z, i.push np, e⟩
  | fieldBlock {cs : List CompRef} {z z' : IcalTz} {i : Ical} {e e' : Bool} : ¬np.isEnd →
    under (icalTzField C np z) e = some (z', e') → Takes np ⟨cs, some z, i, e⟩ ⟨cs, some z', i.push np, e'⟩
  | beginComp {c : CompRef} {cs : List CompRef} {i : Ical} {e : Bool} {tt : IcalType} : np.isBegin →
    icalTypeOf np.val = some tt →
    Takes np ⟨c :: cs, none, i, e⟩ ⟨⟨tt, (i.comps tt).length⟩ :: c :: cs, none, (i.push np).alloc tt, e⟩
  | beginBlock {c : CompRef} {cs : List CompRef} {i : Ical} {e : Bool} {tz : IcalTzType} : np.isBegin →
    icalTypeOf np.val = none → icalTzTypeOf np.val = some tz → i.comps .vtimezone ≠ [] →
    Takes np ⟨c :: cs, none, i, e⟩ ⟨c :: cs, some (.new tz), i.push np, e⟩
  | unknown {c : CompRef} {cs : List CompRef} {i : Ical} {e : Bool} : np.isBegin → icalTypeOf np.val = none →
    icalTzTypeOf np.val = none → Takes np ⟨c :: cs, none, i, e⟩ ⟨c :: cs, none, i.push np, e⟩
  | endComp {c : CompRef} {cs : List CompRef} {i : Ical} {e : Bool} : ¬np.isBegin → np.isEnd →
    strcaseEq c.type.name np.val → (compAt c i).Complete → Takes np ⟨c :: cs, none, i, e⟩ ⟨cs, none, i.push np, e⟩
  | skip {c : CompRef} {cs : List CompRef} {i : Ical} {e : Bool} : ¬np.isBegin → np.isEnd →
    ¬strcaseEq c.type.name np.val → Takes np ⟨c :: cs, none, i, e⟩ ⟨c :: cs, none, i.push np, e⟩
  | field {c : CompRef} {cs : List CompRef} {i : Ical} {e e' : Bool} {comp : IcalComp} {val : Bytes} : ¬np.isBegin →
    ¬np.isEnd → under (icalCompField C np (compAt c i)) e = some ((comp, val), e') →
    Takes np ⟨c :: cs, none, i, e⟩ ⟨c :: cs, none, (i.push np).write c comp val, e'⟩

theorem Machine.line_eq_some {np : IcalNode} {m m' : Machine} : m.line C np = some m' ↔ Machine.Takes C np m m' := by
  obtain ⟨opened, block, i, e⟩ := m
  constructor
  · intro h
    cases block with
    | some z =>
      unfold Machine.line Machine.blockLine at h
      dsimp only at h
      split at h
      next hend =>
        split at h
        next hval =>
          split at h
          next hz =>
            cases h
            exact .endBlock hend hval hz
          · cases h
        next hval =>
          cases h
          exact .skipBlock hend hval
      next hend =>
        obtain ⟨⟨z', e'⟩, hunder, heq⟩ := Option.map_eq_some_iff.mp h
        cases heq
        exact .fieldBlock hend hunder
    | none =>
      cases opened with
      | nil => cases h
      | cons c cs =>
        unfold Machine.line Machine.compLine at h
        dsimp only at h
        split at h
        next hbegin =>
          cases ht : icalTypeOf np.val with
          | some tt =>
            rw [ht] at h
            cases h
            exact .beginComp hbegin ht
          | none =>
            cases htz : icalTzTypeOf np.val with
            | some tz =>
              rw [ht, htz] at h
              dsimp only at h
              split at h
              · cases h
              next hne =>
                cases h
                exact .beginBlock hbegin ht htz hne
            | none =>
              rw [ht, htz] at h
              cases h
              exact .unknown hbegin ht htz
        next hbegin =>
          split at h
          next hend =>
            split at h
            next hval =>
              split at h
              next hcomplete =>
                cases h
                exact .endComp hbegin hend hval hcomplete
              · cases h
            next hval =>
              cases h
              exact .skip hbegin hend hval
          next hend =>
            obtain ⟨⟨⟨comp, val⟩, e'⟩, hunder, heq⟩ := Option.map_eq_some_iff.mp h
            cases heq
            exact .field hbegin hend hunder
  · intro h
    cases h with
    | endBlock hend hval hz => exact (if_pos hend).trans ((if_pos hval).trans (if_pos hz))
    | skipBlock hend hval => exact (if_pos hend).trans (if_neg hval)
    | fieldBlock hend hunder =>
      refine (if_neg hend).trans ?_
      rw [hunder]
      rfl
    | beginComp hbegin ht =>
      refine (if_pos hbegin).trans ?_
      rw [ht]
      rfl
    | beginBlock hbegin ht htz hne =>
      refine (if_pos hbegin).trans ?_
      rw [ht, htz]
      exact if_neg hne
    | unknown hbegin ht htz =>
      refine (if_pos hbegin).trans ?_
      rw [ht, htz]
    | endComp hbegin hend hval hcomplete =>
      exact (if_neg hbegin).trans ((if_pos hend).trans ((if_pos hval).trans (if_pos hcomplete)))
    | skip hbegin hend hval => exact (if_neg hbegin).trans ((if_pos hend).trans (if_neg hval))
    | field hbegin hend hunder =>
      refine (if_neg hbegin).trans ((if_neg hend).trans ?_)
      exact congrArg (Option.map _) hunder

/-- What every line keeps, a run keeps; `P` also sees the lines read. -/
theorem Machine.run_induction {P : List Bytes → Machine → Prop}
    (step : ∀ {ls : List Bytes} {l : Bytes} {np : IcalNode} {m m' : Machine}, lineNode l = some np → Machine.Takes C np m m' →
      P ls m → P (ls ++ [l]) m') {ls rest : List Bytes} : ∀ {pre : List Bytes} {m m' : Machine}, P pre m →
      m.run C ls = some (m', rest) → ∃ used, ls = used ++ rest ∧ P (pre ++ used) m' ∧ (m'.finished ∨ rest = []) := by
  induction ls with
  | nil =>
    intro pre m m' hm h
    cases h
    exact ⟨[], rfl, by simpa using hm, .inr rfl⟩
  | cons l ls ih =>
    intro pre m m' hm h
    rw [Machine.run] at h
    split at h
    next hfin =>
      cases h
      exact ⟨[], rfl, by simpa using hm, .inl hfin⟩
    · obtain ⟨m₁, hstep, hrun⟩ := Option.bind_eq_some_iff.mp h
      obtain ⟨np, hnode, hline⟩ := Option.bind_eq_some_iff.mp hstep
      obtain ⟨used, hused, hm', hfin⟩ := ih (step hnode ((Machine.line_eq_some C).mp hline) hm) hrun
      exact ⟨l :: used, by rw [hused, List.cons_append], by simpa using hm', hfin⟩

/-! ## The rest of a parse -/

variable {C} {ρ : Type} [LineReader ρ]

/-- What is left of a parse with these components and this block open. -/
inductive Rest (C : Libc) : List CompRef → Option IcalTz → IcalParse ρ → IcalParse ρ → Prop
  | done (p : IcalParse ρ) : Rest C [] none p p
  | comp {c : CompRef} {cs : List CompRef} {p p₁ p' : IcalParse ρ} :
    CompRun C c p p₁ → (compAt c p₁.ical).Complete → Rest C cs none p₁ p' → Rest C (c :: cs) none p p'
  | block {cs : List CompRef} {z z' : IcalTz} {p p₁ p' : IcalParse ρ} :
    TzRun C z.type z p z' p₁ → z'.Complete →
    Rest C cs none { p₁ with ical := addTz (p₁.ical.comps .vtimezone).length z' p₁.ical } p' → Rest C cs (some z) p p'

theorem icalTzField_type {np : IcalNode} {z z' : IcalTz} {d d' : Diag} (h : icalTzField C np z d = (some z', d')) :
    z'.type = z.type := by
  have same {β : Type} {x : Value β} {f : β → IcalTz} (h : (x >>= fun a => pure (f a)) d = (some z', d'))
      (hf : ∀ a, (f a).type = z.type) : z'.type = z.type := by
    obtain ⟨a, e, -, h⟩ := bind_eq_some.mp h
    cases h
    exact hf a
  unfold icalTzField at h
  repeat' split at h
  · exact same h fun _ => rfl
  · exact same h fun _ => rfl
  · exact same h fun _ => rfl
  · exact same h fun _ => rfl
  · cases h
    rfl

theorem Next.comps {p p₁ : IcalParse ρ} {np : IcalNode} (h : Next p np p₁) : p₁.ical.comps = p.ical.comps := by
  obtain ⟨buf, -, -, rfl⟩ := icalNext_fill.mp h.2
  unfold fillBuf
  split <;> rfl

/-- Lines of a block add nodes and no components. -/
theorem TzRun.comps {type : IcalTzType} {z z' : IcalTz} {p p' : IcalParse ρ} (h : TzRun C type z p z' p') :
    p'.ical.comps = p.ical.comps := by
  induction h with
  | eof => rfl
  | stop hnext => exact hnext.comps
  | skip hnext _ _ _ ih => exact ih.trans hnext.comps
  | field hnext _ hv _ ih =>
    obtain ⟨d, -, rfl⟩ := valued_iff.mp hv
    have hcomps := hnext.comps
    exact ih.trans hcomps

/-- The machine stands where the parse does. -/
structure Machine.At (m : Machine) (p : IcalParse ρ) : Prop where
  stale : p.Stale
  ical : p.ical = m.ical
  erange : p.diag.erange = m.erange

section
variable {m : Machine} {p p' : IcalParse ρ}

theorem next_lineNode (hs : p.Stale) {l : RawLine} {src : ρ} (hr : read p.src = some (l, src)) {np : IcalNode} :
    (∃ p₁, Next p np p₁) ↔ lineNode l.text = some np := by
  unfold lineNode
  constructor
  · rintro ⟨p₁, hnext⟩
    obtain ⟨l', src', hr', hne, hsplit, -⟩ := (next_iff hs).mp hnext
    rw [hr] at hr'
    cases hr'
    rwa [if_neg hne]
  · intro h
    split at h
    · cases h
    next hne => exact ⟨_, (next_iff hs).mpr ⟨l, src, hr, hne, h, rfl⟩⟩

/-- A line leads both on to the node appended. -/
theorem Machine.At.next (h : m.At p) {np : IcalNode} {p₁ : IcalParse ρ} (hnext : Next p np p₁) :
    ({ m with ical := m.ical.push np } : Machine).At p₁ := by
  obtain ⟨l, src, -, -, hsplit, rfl⟩ := (next_iff h.stale).mp hnext
  refine ⟨fun b hb => ?_, ?_, h.erange⟩
  · cases hb
    exact splitLine_name hsplit
  · unfold nextState Ical.push
    rw [h.ical]

theorem next_src {l : RawLine} {src : ρ} {np : IcalNode} {p₁ : IcalParse ρ} (hr : read p.src = some (l, src))
    (hnext : Next p np p₁) : p₁.src = src := by
  obtain ⟨l', hr'⟩ := next_reads hnext
  rw [hr] at hr'
  cases hr'
  rfl

end

/-! ## One line -/

theorem icalTzField_plain (np : IcalNode) (z : IcalTz) : Plain (icalTzField C np z) :=
  (icalTzField_uniform np z).same sameErrno_conv

theorem icalCompField_same {D : Diag → Diag → Prop} (hD : SameConv C D) (np : IcalNode) (c : IcalComp) :
    Simulates D Eq (icalCompField C np c) (icalCompField C np c) := by
  have set {α : Type} {x : Value α} (hx : Simulates D Eq x x) {f : α → IcalComp × Bytes} :
      Simulates D Eq (x >>= fun a => pure (f a)) (x >>= fun a => pure (f a)) :=
    .bind hx fun a b hab => .pure (congrArg f hab)
  unfold icalCompField
  refine .ite ?_ (.ite ?_ (.ite ?_ (.ite ?_ (.ite ?_ (.ite ?_ (.ite ?_ (.ite ?_ (.ite ?_ (.pure rfl)))))))))
  · exact set ((icalString_uniform _).same hD)
  · exact set ((icalUtcdatetime_uniform _).same hD)
  · exact set ((icalUtcdatetime_uniform _).same hD)
  · exact set ((icalUtcdatetime_uniform _).same hD)
  · exact set ((icalTzdatetime_uniform _).same hD)
  · exact set ((icalTzdatetime_uniform _).same hD)
  · refine .bind (icalDuration_same hD _) ?_
    rintro ⟨v, buf⟩ _ rfl
    exact .pure rfl
  · exact set ((icalString_uniform _).same hD)
  · exact set ((icalRrule_uniform _ _).same hD)

theorem icalCompField_plain (np : IcalNode) (c : IcalComp) : Plain (icalCompField C np c) :=
  icalCompField_same sameErrno_conv np c

section
variable {c : CompRef} {cs : List CompRef} {z : IcalTz} {i : Ical} {e : Bool} {p p' : IcalParse ρ} {l : RawLine} {src : ρ}

/-- A line of a component leads the parse where it leads the machine. -/
theorem Rest.comp_line (h : Rest C (c :: cs) none p p') (hat : Machine.At ⟨c :: cs, none, i, e⟩ p)
    (hr : read p.src = some (l, src)) : ∃ np m p₁, lineNode l.text = some np ∧
      Machine.compLine C c cs np ⟨c :: cs, none, i.push np, e⟩ = some m ∧ m.At p₁ ∧ p₁.src = src ∧
      Rest C m.opened m.block p₁ p' := by
  have node {np : IcalNode} {p₁ : IcalParse ρ} (hnext : Next p np p₁) : lineNode l.text = some np :=
    (next_lineNode hat.stale hr).mp ⟨p₁, hnext⟩
  cases h with
  | @comp _ _ _ p₂ _ hrun hcomplete hrest =>
    cases hrun with
    | eof heof =>
      rw [hr] at heof
      cases heof
    | @stop _ _ _ np hnext hbegin hend hval =>
      have hat' := hat.next hnext
      rw [hat'.ical] at hcomplete
      refine ⟨np, ⟨cs, none, i.push np, e⟩, p₂, node hnext, ?_, ⟨hat'.stale, hat'.ical, hat'.erange⟩, next_src hr hnext, hrest⟩
      rw [Machine.compLine, if_neg hbegin, if_pos hend, if_pos hval, if_pos hcomplete]
    | @skip _ _ p₁ _ np hnext hbegin hend hval hrun =>
      refine ⟨np, _, p₁, node hnext, ?_, hat.next hnext, next_src hr hnext, .comp hrun hcomplete hrest⟩
      rw [Machine.compLine, if_neg hbegin, if_pos hend, if_neg hval]
    | @unknown _ _ p₁ _ np hnext hbegin ht htz hrun =>
      refine ⟨np, _, p₁, node hnext, ?_, hat.next hnext, next_src hr hnext, .comp hrun hcomplete hrest⟩
      rw [Machine.compLine, if_pos hbegin, ht, htz]
    | @zone _ _ p₁ p₃ _ np tz hnext hbegin ht htz hzone hrun =>
      have hat' := hat.next hnext
      obtain ⟨z', q₁, q₂, hne, hzrun, hcheck, rfl⟩ := hzone
      obtain ⟨hz, rfl⟩ := hcheck.tzComplete
      rw [← hzrun.comps] at hrun
      refine ⟨np, ⟨c :: cs, some (.new tz), i.push np, e⟩, p₁, node hnext, ?_, ⟨hat'.stale, hat'.ical, hat'.erange⟩,
        next_src hr hnext, .block hzrun hz (.comp hrun hcomplete hrest)⟩
      rw [hat'.ical] at hne
      rw [Machine.compLine, if_pos hbegin, ht, htz]
      exact if_neg hne
    | @nested _ _ p₁ q q' _ np tt hnext hbegin ht hnested hcheck hrun =>
      have hat' := hat.next hnext
      have hsrc := next_src hr hnext
      obtain ⟨hc, rfl⟩ := hcheck.complete
      refine ⟨np, ⟨newComp tt p₁ :: c :: cs, none, (i.push np).alloc tt, e⟩, enterComp tt p₁, node hnext, ?_,
        ⟨hat'.stale, congrArg (Ical.alloc tt) hat'.ical, hat'.erange⟩, hsrc,
        .comp hnested hc (.comp hrun hcomplete hrest)⟩
      rw [Machine.compLine, if_pos hbegin, ht, newComp, hat'.ical]
    | @field _ _ p₁ p₃ _ np hnext hbegin hend hline hrun =>
      have hat' := hat.next hnext
      have hsrc := next_src hr hnext
      obtain ⟨comp, val, d, hfield, rfl⟩ := icalCompLine_iff.mp hline
      have hunder := (under_eq_some (icalCompField_plain np _)).mpr ⟨d, hfield, rfl⟩
      rw [hat'.ical, hat'.erange] at hunder
      refine ⟨np, ⟨c :: cs, none, (i.push np).write c comp val, d.erange⟩,
        { p₁ with diag := d, ical := p₁.ical.write c comp val }, node hnext, ?_, ⟨hat'.stale, ?_, rfl⟩, hsrc,
        .comp hrun hcomplete hrest⟩
      · rw [Machine.compLine, if_neg hbegin, if_neg hend, hunder]
        rfl
      · exact congrArg (Ical.write c comp val) hat'.ical

/-- A line of a block leads the parse where it leads the machine. -/
theorem Rest.block_line (h : Rest C cs (some z) p p') (hat : Machine.At ⟨cs, some z, i, e⟩ p)
    (hr : read p.src = some (l, src)) : ∃ np m p₁, lineNode l.text = some np ∧
      Machine.blockLine C z np ⟨cs, some z, i.push np, e⟩ = some m ∧ m.At p₁ ∧ p₁.src = src ∧
      Rest C m.opened m.block p₁ p' := by
  have node {np : IcalNode} {p₁ : IcalParse ρ} (hnext : Next p np p₁) : lineNode l.text = some np :=
    (next_lineNode hat.stale hr).mp ⟨p₁, hnext⟩
  cases h with
  | @block _ _ z' _ p₂ _ hrun hz hrest =>
    cases hrun with
    | eof heof =>
      rw [hr] at heof
      cases heof
    | @stop _ _ _ np hnext hend hval =>
      have hat' := hat.next hnext
      have hsrc := next_src hr hnext
      rw [hat'.ical] at hrest
      refine ⟨np, ⟨cs, none, addTz ((i.push np).comps .vtimezone).length z (i.push np), e⟩,
        { p₂ with ical := addTz ((i.push np).comps .vtimezone).length z (i.push np) }, node hnext, ?_,
        ⟨hat'.stale, rfl, hat'.erange⟩, hsrc, hrest⟩
      rw [Machine.blockLine, if_pos hend, if_pos hval, if_pos hz]
    | @skip _ _ _ p₁ _ np hnext hend hval hrun =>
      refine ⟨np, _, p₁, node hnext, ?_, hat.next hnext, next_src hr hnext, .block hrun hz hrest⟩
      rw [Machine.blockLine, if_pos hend, if_neg hval]
    | @field _ z₁ _ _ p₁ p₃ _ np hnext hend hv hrun =>
      have hat' := hat.next hnext
      have hsrc := next_src hr hnext
      obtain ⟨d, hfield, rfl⟩ := valued_iff.mp hv
      have hunder := (under_eq_some (icalTzField_plain np z)).mpr ⟨d, hfield, rfl⟩
      rw [hat'.erange] at hunder
      rw [← icalTzField_type hfield] at hrun
      refine ⟨np, ⟨cs, some z₁, i.push np, d.erange⟩, { p₁ with diag := d }, node hnext, ?_,
        ⟨hat'.stale, hat'.ical, rfl⟩, hsrc, .block hrun hz hrest⟩
      rw [Machine.blockLine, if_neg hend, hunder]
      rfl

theorem next_diag (hat : p.Stale) (hr : read p.src = some (l, src)) {np : IcalNode} {p₁ : IcalParse ρ} (hnext : Next p np p₁) :
    p₁.diag = { p.diag with line := p.diag.line + l.phys } := by
  obtain ⟨l', src', hr', -, -, rfl⟩ := (next_iff hat).mp hnext
  rw [hr] at hr'
  cases hr'
  rfl

/-- A line the machine takes leads the parse to where it leads the machine. -/
theorem Rest.of_takes {np : IcalNode} {m m₁ : Machine} (hat : m.At p) (hr : read p.src = some (l, src))
    (hnode : lineNode l.text = some np) (htakes : Machine.Takes C np m m₁) : ∃ p₁, m₁.At p₁ ∧ p₁.src = src ∧
      p₁.diag = m.lineDiag C np { p.diag with line := p.diag.line + l.phys } ∧
      ∀ p', Rest C m₁.opened m₁.block p₁ p' → Rest C m.opened m.block p p' := by
  obtain ⟨p₁, hnext⟩ := (next_lineNode hat.stale hr).mpr hnode
  have hat' := hat.next hnext
  have hsrc := next_src hr hnext
  rw [← next_diag hat.stale hr hnext]
  cases htakes with
  | @endBlock cs z i e hend hval hz =>
    refine ⟨{ p₁ with ical := addTz ((i.push np).comps .vtimezone).length z (i.push np) },
      ⟨hat'.stale, rfl, hat'.erange⟩, hsrc, (if_pos hend).symm, fun p' h => .block (.stop hnext hend hval) hz ?_⟩
    rw [hat'.ical]
    exact h
  | skipBlock hend hval =>
    refine ⟨p₁, hat', hsrc, (if_pos hend).symm, fun p' h => ?_⟩
    cases h with
    | block hrun hz hrest => exact .block (.skip hnext hend hval hrun) hz hrest
  | @fieldBlock cs z z' i e e' hend hunder =>
    rw [show e = p₁.diag.erange from hat'.erange.symm] at hunder
    obtain ⟨d, hfield, hd⟩ := (under_eq_some (icalTzField_plain np z)).mp hunder
    refine ⟨{ p₁ with diag := d }, ⟨hat'.stale, hat'.ical, hd⟩, hsrc, ?_, fun p' h => ?_⟩
    · exact ((if_neg hend).trans (congrArg Prod.snd hfield)).symm
    · cases h with
      | block hrun hz hrest =>
        rw [icalTzField_type hfield] at hrun
        exact .block (.field hnext hend (valued_iff.mpr ⟨d, hfield, rfl⟩) hrun) hz hrest
  | @beginComp c cs i e tt hbegin ht =>
    refine ⟨enterComp tt p₁, ⟨hat'.stale, congrArg (Ical.alloc tt) hat'.ical, hat'.erange⟩, hsrc, ?_, fun p' h => ?_⟩
    · exact (if_pos (by rw [hbegin, Bool.true_or])).symm
    · have hnew : newComp tt p₁ = ⟨tt, (i.comps tt).length⟩ := by
        rw [newComp, hat'.ical]
        rfl
      dsimp only at h
      rw [← hnew] at h
      cases h with
      | comp hnested hc h =>
        cases h with
        | comp hrun hcomplete hrest =>
          exact .comp (.nested hnext hbegin ht hnested (hc.valued _ _) hrun) hcomplete hrest
  | @beginBlock c cs i e tz hbegin ht htz hne =>
    refine ⟨p₁, ⟨hat'.stale, hat'.ical, hat'.erange⟩, hsrc, (if_pos (by rw [hbegin, Bool.true_or])).symm, fun p' h => ?_⟩
    have hzones : p₁.ical.comps .vtimezone ≠ [] := by
      rw [hat'.ical]
      exact hne
    cases h with
    | block hzrun hz h =>
      cases h with
      | comp hrun hcomplete hrest =>
        rw [hzrun.comps] at hrun
        exact .comp (.zone hnext hbegin ht htz ⟨_, _, _, hzones, hzrun, hz.valued _, rfl⟩ hrun) hcomplete hrest
  | unknown hbegin ht htz =>
    refine ⟨p₁, hat', hsrc, (if_pos (by rw [hbegin, Bool.true_or])).symm, fun p' h => ?_⟩
    cases h with
    | comp hrun hcomplete hrest => exact .comp (.unknown hnext hbegin ht htz hrun) hcomplete hrest
  | @endComp c cs i e hbegin hend hval hcomplete =>
    refine ⟨p₁, ⟨hat'.stale, hat'.ical, hat'.erange⟩, hsrc, (if_pos (by rw [hend, Bool.or_true])).symm, fun p' h => ?_⟩
    have hcomplete' : (compAt c p₁.ical).Complete := by
      rw [hat'.ical]
      exact hcomplete
    exact .comp (.stop hnext hbegin hend hval) hcomplete' h
  | skip hbegin hend hval =>
    refine ⟨p₁, hat', hsrc, (if_pos (by rw [hend, Bool.or_true])).symm, fun p' h => ?_⟩
    cases h with
    | comp hrun hcomplete hrest => exact .comp (.skip hnext hbegin hend hval hrun) hcomplete hrest
  | @field c cs i e e' comp val hbegin hend hunder =>
    have hcomp : compAt c p₁.ical = compAt c i := by
      rw [hat'.ical]
      rfl
    rw [show e = p₁.diag.erange from hat'.erange.symm] at hunder
    obtain ⟨d, hfield, hd⟩ := (under_eq_some (icalCompField_plain np _)).mp hunder
    refine ⟨{ p₁ with diag := d, ical := p₁.ical.write c comp val },
      ⟨hat'.stale, congrArg (Ical.write c comp val) hat'.ical, hd⟩, hsrc, ?_, fun p' h => ?_⟩
    · exact ((if_neg (by simp [hbegin, hend])).trans (congrArg Prod.snd hfield)).symm
    · rw [← hcomp] at hfield
      cases h with
      | comp hrun hcomplete hrest =>
        exact .comp (.field hnext hbegin hend (icalCompLine_iff.mpr ⟨comp, val, d, hfield, rfl⟩) hrun) hcomplete hrest

end

section
variable {m : Machine} {p p' : IcalParse ρ} {l : RawLine} {src : ρ}

theorem Machine.finished_iff : m.finished ↔ m.opened = [] ∧ m.block = none := by
  simp [Machine.finished]

theorem Machine.close_finished (h : m.finished) : m.close = some m.ical := by
  obtain ⟨hopened, hblock⟩ := finished_iff.mp h
  unfold Machine.close
  rw [hblock, hopened]
  exact if_pos (by simp)

theorem Rest.line (h : Rest C m.opened m.block p p') (hat : m.At p) (hopen : ¬m.finished)
    (hr : read p.src = some (l, src)) : ∃ np m₁ p₁, lineNode l.text = some np ∧ m.line C np = some m₁ ∧ m₁.At p₁ ∧
      p₁.src = src ∧ Rest C m₁.opened m₁.block p₁ p' := by
  obtain ⟨opened, block, i, e⟩ := m
  cases block with
  | some z => exact h.block_line hat hr
  | none =>
    cases opened with
    | nil => exact absurd (Machine.finished_iff.mpr ⟨rfl, rfl⟩) hopen
    | cons c cs => exact h.comp_line hat hr

theorem Rest.of_line {np : IcalNode} {m₁ : Machine} (hat : m.At p) (hr : read p.src = some (l, src))
    (hnode : lineNode l.text = some np) (hline : m.line C np = some m₁) :
    ∃ p₁, m₁.At p₁ ∧ p₁.src = src ∧ ∀ p', Rest C m₁.opened m₁.block p₁ p' → Rest C m.opened m.block p p' := by
  obtain ⟨p₁, hat₁, hsrc, -, hback⟩ := Rest.of_takes hat hr hnode ((Machine.line_eq_some C).mp hline)
  exact ⟨p₁, hat₁, hsrc, hback⟩

end

/-! ## The end of the lines -/

section
variable {cs : List CompRef} {z : Option IcalTz} {m : Machine} {p p' : IcalParse ρ}

theorem CompRun.of_eof {c : CompRef} (hr : read p.src = none) (h : CompRun C c p p') : p' = p :=
  h.unique (.eof hr)

theorem rest_eof (hr : read p.src = none) : Rest C cs none p p' ↔ p' = p ∧ ∀ c ∈ cs, (compAt c p.ical).Complete := by
  induction cs with
  | nil =>
    constructor
    · rintro ⟨⟩
      exact ⟨rfl, by simp⟩
    · rintro ⟨rfl, -⟩
      exact .done p'
  | cons c cs ih =>
    rw [List.forall_mem_cons]
    constructor
    · intro h
      cases h with
      | comp hrun hcomplete hrest =>
        obtain rfl := hrun.of_eof hr
        obtain ⟨rfl, hcs⟩ := ih.mp hrest
        exact ⟨rfl, hcomplete, hcs⟩
    · rintro ⟨rfl, hcomplete, hcs⟩
      exact .comp (.eof hr) hcomplete (ih.mpr ⟨rfl, hcs⟩)

theorem rest_block_eof {z : IcalTz} (hr : read p.src = none) : Rest C cs (some z) p p' ↔
    z.Complete ∧ p' = { p with ical := addTz (p.ical.comps .vtimezone).length z p.ical } ∧
      ∀ c ∈ cs, (compAt c (addTz (p.ical.comps .vtimezone).length z p.ical)).Complete := by
  have hend : Rest C cs none { p with ical := addTz (p.ical.comps .vtimezone).length z p.ical } p' ↔ _ := rest_eof hr
  constructor
  · intro h
    cases h with
    | block hrun hz hrest =>
      obtain ⟨rfl, rfl⟩ := hrun.unique (.eof hr)
      exact ⟨hz, hend.mp hrest⟩
  · rintro ⟨hz, hcs⟩
    exact .block (.eof hr) hz (hend.mpr hcs)

/-- Where the lines end, the parse closes what the machine closes. -/
theorem rest_close (hat : m.At p) (hr : read p.src = none) {i : Ical} :
    (∃ p', Rest C m.opened m.block p p' ∧ p'.ical = i) ↔ m.close = some i := by
  obtain ⟨opened, block, ical, e⟩ := m
  obtain rfl : p.ical = ical := hat.ical
  unfold Machine.close
  cases block with
  | none =>
    simp only [rest_eof hr, Option.ite_none_right_eq_some, Option.some.injEq]
    constructor
    · rintro ⟨_, ⟨rfl, hcs⟩, rfl⟩
      exact ⟨hcs, rfl⟩
    · rintro ⟨hcs, rfl⟩
      exact ⟨p, ⟨rfl, hcs⟩, rfl⟩
  | some z =>
    simp only [rest_block_eof hr, Option.ite_none_right_eq_some, Option.some.injEq]
    constructor
    · rintro ⟨_, ⟨hz, rfl, hcs⟩, rfl⟩
      exact ⟨⟨hz, hcs⟩, rfl⟩
    · rintro ⟨⟨hz, hcs⟩, rfl⟩
      exact ⟨_, ⟨hz, rfl, hcs⟩, rfl⟩

theorem lines_cons {r : ρ} {l : RawLine} {ls : List RawLine} (h : lines r = l :: ls) :
    ∃ src, read r = some (l, src) ∧ lines src = ls := by
  cases hr : read r with
  | none =>
    rw [lines_of_none hr] at h
    cases h
  | some q =>
    rw [lines_of_some hr] at h
    cases h
    exact ⟨q.2, rfl, rfl⟩

theorem lines_nil {r : ρ} : lines r = [] ↔ read r = none := by
  cases hr : read r with
  | none => simp [lines_of_none hr]
  | some q => simp [lines_of_some hr]

/-- The rest of a parse is a run of the machine over the lines left. -/
theorem rest_iff_run (ls : List RawLine) : ∀ {m : Machine} {p : IcalParse ρ} {i : Ical} {rest : List Bytes}, m.At p →
    lines p.src = ls →
    ((∃ p', Rest C m.opened m.block p p' ∧ p'.ical = i ∧ (lines p'.src).map RawLine.text = rest) ↔
      ∃ m', m.run C (ls.map RawLine.text) = some (m', rest) ∧ m'.close = some i) := by
  induction ls with
  | nil =>
    intro m p i rest hat hls
    have hr := lines_nil.mp hls
    have hsrc : ∀ p', Rest C m.opened m.block p p' → p'.src = p.src := by
      intro p' h
      cases hb : m.block with
      | none =>
        rw [hb] at h
        rw [((rest_eof hr).mp h).1]
      | some z =>
        rw [hb] at h
        rw [((rest_block_eof hr).mp h).2.1]
    rw [List.map_nil, Machine.run]
    constructor
    · rintro ⟨p', h, hi, hrest⟩
      rw [hsrc p' h, hls] at hrest
      exact ⟨m, by rw [← hrest]; rfl, (rest_close hat hr).mp ⟨p', h, hi⟩⟩
    · rintro ⟨m', hm, hi⟩
      cases hm
      obtain ⟨p', h, hi⟩ := (rest_close hat hr).mpr hi
      exact ⟨p', h, hi, by rw [hsrc p' h, hls]; rfl⟩
  | cons l ls ih =>
    intro m p i rest hat hls
    obtain ⟨src, hr, hls'⟩ := lines_cons hls
    rw [List.map_cons, Machine.run]
    by_cases hfin : m.finished
    · obtain ⟨hopened, hblock⟩ := Machine.finished_iff.mp hfin
      rw [if_pos hfin, hopened, hblock]
      have hclose := Machine.close_finished hfin
      constructor
      · rintro ⟨p', h, rfl, rfl⟩
        cases h
        exact ⟨m, by rw [hls]; rfl, hclose.trans (congrArg some hat.ical.symm)⟩
      · rintro ⟨m', hm, hi⟩
        cases hm
        rw [hclose] at hi
        cases hi
        exact ⟨p, .done p, hat.ical, by rw [hls]; rfl⟩
    · rw [if_neg hfin]
      constructor
      · rintro ⟨p', h, hi, hrest⟩
        obtain ⟨np, m₁, p₁, hnode, hline, hat₁, hsrc, h⟩ := h.line hat hfin hr
        obtain ⟨m', hrun, hclose⟩ := (ih hat₁ (hsrc ▸ hls')).mp ⟨p', h, hi, hrest⟩
        exact ⟨m', by rw [hnode, Option.bind_some, hline, Option.bind_some, hrun], hclose⟩
      · rintro ⟨m', hrun, hclose⟩
        obtain ⟨m₁, hstep, hrun⟩ := Option.bind_eq_some_iff.mp hrun
        obtain ⟨np, hnode, hline⟩ := Option.bind_eq_some_iff.mp hstep
        obtain ⟨p₁, hat₁, hsrc, hback⟩ := Rest.of_line hat hr hnode hline
        obtain ⟨p', h, hi, hrest⟩ := (ih hat₁ (hsrc ▸ hls')).mpr ⟨m', hrun, hclose⟩
        exact ⟨p', hback p' h, hi, hrest⟩

end

/-! ## Whole files -/

/-- Nothing of the diagnostics matters to the time zone links. -/
theorem icalPostparseTypes_constant {D : Diag → Diag → Prop} (zones : List IcalComp) (ts : List IcalType) (i : Ical) :
    Simulates D Eq (icalPostparseTypes zones ts i) (icalPostparseTypes zones ts i) := by
  have tz (tm : IcalTime) : Simulates D Eq (icalPostparseTz zones tm) (icalPostparseTz zones tm) := by
    unfold icalPostparseTz
    split
    · exact .pure rfl
    · split
      · exact .pure rfl
      · exact .of_none _ fun _ => rfl
  have comps (cs : List IcalComp) : Simulates D Eq (icalPostparseComps zones cs) (icalPostparseComps zones cs) := by
    induction cs with
    | nil => exact .pure rfl
    | cons c cs ih =>
      refine .bind (tz _) fun dtstart _ he => .bind (tz _) fun dtend _ he' => .bind ih fun ds _ hds => .pure ?_
      rw [he, he', hds]
  induction ts generalizing i with
  | nil => exact .pure rfl
  | cons t ts ih => exact .bind (comps _) fun _ _ h => h ▸ ih _

omit [LineReader ρ] in
theorem icalLink_iff {p : IcalParse ρ} {i : Ical} :
    icalLink p.ical = some i ↔ ∃ p', icalPostparse p = (some (), p') ∧ p'.ical = i ∧ p'.src = p.src := by
  unfold icalLink
  constructor
  · intro h
    obtain ⟨⟨j, e⟩, hunder, rfl⟩ := Option.map_eq_some_iff.mp h
    obtain ⟨d, hd, -⟩ := (under_eq_some (d := ⟨"", 0, none, false⟩) (icalPostparseTypes_constant _ _ _)).mp hunder
    obtain ⟨_, d', hd', rfl, -⟩ := icalPostparseTypes_constant (D := fun _ _ => True) _ _ _ _ p.diag j d trivial hd
    refine ⟨{ p with diag := d', ical := j }, ?_, rfl, rfl⟩
    simp only [icalPostparse, gets_bind]
    exact bind_eq_some.mpr ⟨j, _, valued_iff.mpr ⟨d', hd', rfl⟩, rfl⟩
  · rintro ⟨p', hpost, rfl, -⟩
    obtain ⟨j, d, hj, rfl⟩ := icalPostparse_some hpost
    obtain ⟨_, d', hd', rfl, -⟩ := icalPostparseTypes_constant (D := fun _ _ => True) _ _ _ _ ⟨"", 0, none, false⟩ j d
      trivial hj
    exact Option.map_eq_some_iff.mpr ⟨(j, d'.erange), (under_eq_some (d := ⟨"", 0, none, false⟩)
      (icalPostparseTypes_constant _ _ _)).mpr ⟨d', hd', rfl⟩, rfl⟩

theorem start_at {file : Option String} {erange : Bool} {src : ρ} {np : IcalNode} {p₁ : IcalParse ρ}
    (hnext : Next (.start file erange src) np p₁) : (Machine.start np erange).At (enterComp .vcalendar p₁) := by
  have hat : Machine.At ⟨[], none, .empty, erange⟩ (IcalParse.start file erange src) :=
    ⟨IcalParse.stale_start _ _ _, rfl, rfl⟩
  have hat' := hat.next hnext
  exact ⟨hat'.stale, congrArg (Ical.alloc .vcalendar) hat'.ical, hat'.erange⟩

/-- The parser accepts what the machine accepts, with the same calendar and the same
lines after it. -/
theorem icalParseFrom_machine {file : Option String} {erange : Bool} {src : ρ} {i : Ical} {rest : List Bytes} :
    (∃ p', icalParseFrom C file erange src = (some (), p') ∧ p'.ical = i ∧ (lines p'.src).map RawLine.text = rest) ↔
      icalMachine C erange ((lines src).map RawLine.text) = some (i, rest) := by
  cases hls : lines src with
  | nil =>
    have hr := lines_nil.mp hls
    constructor
    · rintro ⟨p', h, -⟩
      obtain ⟨hnext⟩ := icalParseFrom_iff.mp h
      obtain ⟨l, hr'⟩ := next_reads hnext
      have hr₀ : read src = some (l, _) := hr'
      rw [hr] at hr₀
      cases hr₀
    · intro h
      cases h
  | cons l ls =>
    obtain ⟨src', hr, rfl⟩ := lines_cons hls
    have hstart := IcalParse.stale_start file erange src
    have hread : read (IcalParse.start file erange src).src = some (l, src') := hr
    have within {np : IcalNode} {p₁ : IcalParse ρ} (hnext : Next (.start file erange src) np p₁) {j : Ical} :
        (∃ p', Rest C [⟨.vcalendar, 0⟩] none (enterComp .vcalendar p₁) p' ∧ p'.ical = j ∧
          (lines p'.src).map RawLine.text = rest) ↔
        ∃ m', (Machine.start np erange).run C ((lines src').map RawLine.text) = some (m', rest) ∧ m'.close = some j := by
      have hsrc : p₁.src = src' := next_src hread hnext
      exact rest_iff_run (lines src') (start_at hnext) (congrArg lines hsrc)
    have hcomp {np : IcalNode} {p₁ : IcalParse ρ} (hnext : Next (.start file erange src) np p₁) :
        newComp .vcalendar p₁ = ⟨.vcalendar, 0⟩ := by
      obtain ⟨l', src₁, -, -, -, rfl⟩ := (next_iff hstart).mp hnext
      rfl
    rw [List.map_cons, icalMachine]
    constructor
    · rintro ⟨p', h, rfl, rfl⟩
      obtain @⟨np, p₁, p₂, p₃, hnext, hbegin, hcal, hrun, hcheck, hpost⟩ := icalParseFrom_iff.mp h
      have hnode := (next_lineNode hstart hread).mp ⟨p₁, hnext⟩
      obtain ⟨hcomplete, rfl⟩ := hcheck.complete
      obtain ⟨i, d, -, hp'⟩ := icalPostparse_some hpost
      have hlink := icalLink_iff.mpr ⟨p', hpost, rfl, by rw [hp']⟩
      rw [hcomp hnext] at hrun hcomplete
      obtain ⟨m', hm, hclose⟩ := (within hnext).mp ⟨p₃, .comp hrun hcomplete (.done p₃), rfl, by rw [hp']⟩
      have htest : (np.isBegin && strcaseEq np.val (ascii "VCALENDAR")) = true := by
        rw [Bool.and_eq_true]
        exact ⟨hbegin, hcal⟩
      rw [hnode, Option.bind_some, if_pos htest, hm, Option.bind_some, hclose, Option.bind_some, hlink]
      rfl
    · intro h
      obtain ⟨np, hnode, h⟩ := Option.bind_eq_some_iff.mp h
      rw [Option.ite_none_right_eq_some, Bool.and_eq_true] at h
      obtain ⟨⟨hbegin, hcal⟩, h⟩ := h
      obtain ⟨⟨m', rest'⟩, hm, h⟩ := Option.bind_eq_some_iff.mp h
      obtain ⟨i', hi', heq⟩ := Option.map_eq_some_iff.mp h
      cases heq
      obtain ⟨j, hclose, hlink⟩ := Option.bind_eq_some_iff.mp hi'
      obtain ⟨p₁, hnext⟩ := (next_lineNode hstart hread).mpr hnode
      obtain ⟨p₂, hrest, rfl, hlines⟩ := (within hnext).mpr ⟨m', hm, hclose⟩
      obtain ⟨p', hpost, hi, hsrc⟩ := icalLink_iff.mp hlink
      cases hrest with
      | comp hrun hcomplete hdone =>
        cases hdone
        rw [← hcomp hnext] at hrun hcomplete
        exact ⟨p', icalParseFrom_iff.mpr (.intro hnext hbegin hcal hrun (hcomplete.valued _ _) hpost), hi,
          by rw [hsrc]; exact hlines⟩

/-- The calendar of a buffer is the one the machine makes of its unfolded lines. -/
theorem icalParse_ical (file : Option String) (erange : Bool) (cp : Bytes) (pos : Nat) :
    (icalParse C file erange cp pos).1.map Prod.fst = (icalMachine C erange (unfoldLines (cp.drop pos))).map Prod.fst := by
  have parsed (i : Ical) : (icalParse C file erange cp pos).1.map Prod.fst = some i ↔
      ∃ p', icalParseFrom C file erange (cp.drop pos) = (some (), p') ∧ p'.ical = i := by
    unfold icalParse
    rcases icalParseFrom C file erange (cp.drop pos) with ⟨_ | u, p'⟩
    · simp
    · simp
  have made (i : Ical) : (icalMachine C erange (unfoldLines (cp.drop pos))).map Prod.fst = some i ↔
      ∃ p', icalParseFrom C file erange (cp.drop pos) = (some (), p') ∧ p'.ical = i := by
    constructor
    · intro h
      obtain ⟨⟨j, rest⟩, hm, rfl⟩ := Option.map_eq_some_iff.mp h
      obtain ⟨p', hp, hi, -⟩ := icalParseFrom_machine.mpr hm
      exact ⟨p', hp, hi⟩
    · rintro ⟨p', hp, hi⟩
      have hm := icalParseFrom_machine.mp ⟨p', hp, hi, rfl⟩
      exact Option.map_eq_some_iff.mpr ⟨_, hm, rfl⟩
  apply Option.ext
  intro i
  rw [parsed, made]

/-! ## Under a clear `errno` -/

section
variable (hC : ∀ e, C.errnoAt e = false)
include hC

theorem under_clear {α : Type} {x : Value α} (hx : ∀ D, SameConv C D → Simulates D Eq x x) (e e' : Bool) :
    (under x e).map Prod.fst = (under x e').map Prod.fst := by
  have carry (e e' : Bool) (a : α) (h : (under x e).map Prod.fst = some a) : (under x e').map Prod.fst = some a := by
    obtain ⟨⟨b, k⟩, hunder, rfl⟩ := Option.map_eq_some_iff.mp h
    have hplain := hx SameErrno sameErrno_conv
    obtain ⟨d, hd, -⟩ := (under_eq_some (d := ⟨"", 0, none, e⟩) hplain).mp hunder
    obtain ⟨_, d', hd', rfl, -⟩ := hx _ (clear_conv hC) _ ⟨"", 0, none, e'⟩ b d trivial hd
    exact Option.map_eq_some_iff.mpr ⟨(b, d'.erange), (under_eq_some (d := ⟨"", 0, none, e'⟩) hplain).mpr ⟨d', hd', rfl⟩, rfl⟩
  apply Option.ext
  intro a
  exact ⟨carry e e' a, carry e' e a⟩

theorem Machine.line_clear (m : Machine) (e : Bool) (np : IcalNode) :
    (({ m with erange := e } : Machine).line C np).map (fun m => { m with erange := false }) =
      (m.line C np).map fun m => { m with erange := false } := by
  have written {α : Type} {x : Value α} (hx : ∀ D, SameConv C D → Simulates D Eq x x) {f g : α × Bool → Machine}
      (hfg : ∀ a k k', ({ f (a, k) with erange := false } : Machine) = { g (a, k') with erange := false }) (e' : Bool) :
      ((under x e).map f).map (fun m => { m with erange := false }) =
        ((under x e').map g).map fun m => { m with erange := false } := by
    have hclear := under_clear hC hx e e'
    cases h : under x e' with
    | none =>
      rw [h] at hclear
      rw [Option.map_eq_none_iff.mp hclear]
      rfl
    | some r =>
      rw [h] at hclear
      obtain ⟨⟨a, k⟩, h₁, rfl⟩ := Option.map_eq_some_iff.mp hclear
      rw [h₁]
      exact congrArg some (hfg r.1 k r.2)
  obtain ⟨opened, block, i, e'⟩ := m
  cases block with
  | some z =>
    simp only [Machine.line, Machine.blockLine]
    split
    · split
      · split <;> rfl
      · rfl
    · exact written (fun D hD => (icalTzField_uniform np z).same hD) (fun _ _ _ => rfl) e'
  | none =>
    cases opened with
    | nil => rfl
    | cons c cs =>
      simp only [Machine.line, Machine.compLine]
      split
      · split
        · rfl
        · split <;> rfl
        · rfl
      · split
        · split
          · split <;> rfl
          · rfl
        · exact written (fun D hD => icalCompField_same hD np _) (fun _ _ _ => rfl) e'

theorem Machine.run_clear (ls : List Bytes) : ∀ (m : Machine) (e : Bool),
    (({ m with erange := e } : Machine).run C ls).map (fun r => (r.1.close, r.2)) = (m.run C ls).map fun r => (r.1.close, r.2) := by
  induction ls with
  | nil => exact fun m e => rfl
  | cons l ls ih =>
    intro m e
    rw [Machine.run, Machine.run]
    change Option.map _ (if m.finished then _ else _) = _
    split
    · rfl
    · cases lineNode l with
      | none => rfl
      | some np =>
        have hline := Machine.line_clear hC m e np
        simp only [Option.bind_some]
        cases h : m.line C np with
        | none =>
          rw [h] at hline
          rw [Option.map_eq_none_iff.mp hline]
        | some m₁ =>
          rw [h] at hline
          obtain ⟨m₂, h₂, heq⟩ := Option.map_eq_some_iff.mp hline
          have hm₂ : m₂ = { m₁ with erange := m₂.erange } := by
            obtain ⟨_, _, _, _⟩ := m₂
            cases heq
            rfl
          rw [h₂, hm₂]
          exact ih m₁ m₂.erange

/-- Where `errno` is clear at every conversion, it does not matter what it was. -/
theorem icalMachine_clear (e e' : Bool) (ls : List Bytes) : icalMachine C e ls = icalMachine C e' ls := by
  cases ls with
  | nil => rfl
  | cons l ls =>
    have made (o : Option (Machine × List Bytes)) : (o.bind fun r => (r.1.close.bind icalLink).map fun i => (i, r.2)) =
        (o.map fun r => (r.1.close, r.2)).bind fun r => (r.1.bind icalLink).map fun i => (i, r.2) := by
      cases o <;> rfl
    rw [icalMachine, icalMachine]
    refine Option.bind_congr fun np _ => ?_
    split
    · rw [made, made, ← Machine.run_clear hC ls (.start np e') e]
      rfl
    · rfl

end

end Kcaldav
