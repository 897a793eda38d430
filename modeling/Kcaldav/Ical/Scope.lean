import Kcaldav.Ical.Above
import Kcaldav.Ical.Nesting
import Mathlib.Data.List.ModifyLast

/-! # Properties and their components

A parse in which every line belongs to the innermost `BEGIN` and `END` around it: a
property of an unknown component sets nothing, and a time zone's blocks are the ones
directly within it. The parser passes over the `BEGIN` of an unknown component and goes
on with the enclosing one, and appends every block to the last time zone; it agrees with
the scoped parse as long as no line makes that difference matter.
-/
namespace Kcaldav
open CString LineReader

/-! ## The scoped parse -/

/-- What an open `BEGIN` line stands for. -/
inductive Frame
  | comp (c : CompRef)
  | block (zone : CompRef) (z : IcalTz)
  | unknown

/-- The calendar so far and the open `BEGIN` lines, innermost first. -/
structure Scoped where
  frames : List Frame
  ical : Ical
  erange : Bool

variable (C : Libc)

namespace Scoped

def beginLine (np : IcalNode) (s : Scoped) : Scoped :=
  match icalTypeOf np.val, icalTzTypeOf np.val, s.frames with
  | some tt, _, fs => { s with frames := .comp ⟨tt, (s.ical.comps tt).length⟩ :: fs, ical := s.ical.alloc tt }
  | none, some tz, .comp c :: fs =>
    if c.type = .vtimezone then { s with frames := .block c (.new tz) :: .comp c :: fs }
    else { s with frames := .unknown :: .comp c :: fs }
  | none, _, fs => { s with frames := .unknown :: fs }

def endLine (s : Scoped) : Option Scoped :=
  match s.frames with
  | [] => none
  | .comp c :: fs => if (compAt c s.ical).Complete then some { s with frames := fs } else none
  | .block zone z :: fs =>
    if z.Complete then
      some { s with frames := fs, ical := s.ical.modifyComp zone fun c => { c with tzs := c.tzs ++ [z] } }
    else none
  | .unknown :: fs => some { s with frames := fs }

def propertyLine (np : IcalNode) (s : Scoped) : Option Scoped :=
  match s.frames with
  | [] => none
  | .comp c :: _ => (under (icalCompField C np (compAt c s.ical)) s.erange).map fun r =>
    { s with ical := s.ical.write c r.1.1 r.1.2, erange := r.2 }
  | .block zone z :: fs => (under (icalTzField C np z) s.erange).map fun r =>
    { s with frames := .block zone r.1 :: fs, erange := r.2 }
  | .unknown :: _ => some s

def line (s : Scoped) (np : IcalNode) : Option Scoped :=
  let s := { s with ical := s.ical.push np }
  if np.isBegin then some (s.beginLine np) else if np.isEnd then s.endLine else s.propertyLine C np

def run (s : Scoped) : List Bytes → Option Scoped
  | [] => some s
  | l :: ls => ((lineNode l).bind (s.line C)).bind fun s => run s ls

def start (np : IcalNode) (erange : Bool) : Scoped where
  frames := [.comp ⟨.vcalendar, 0⟩]
  ical := (Ical.empty.push np).alloc .vcalendar
  erange := erange

end Scoped

/-- The calendar of lines that run from `BEGIN:VCALENDAR` to the `END` that closes it. -/
def icalScoped (erange : Bool) : List Bytes → Option Ical
  | [] => none
  | l :: ls => (lineNode l).bind fun np => ((Scoped.start np erange).run C ls).bind fun s => icalLink s.ical

/-! ## Where the parser follows it -/

/-- The property names a component's loop looks for. -/
def compProperties : List Bytes :=
  ["uid", "created", "last-modified", "dtstamp", "dtstart", "dtend", "duration", "tzid", "rrule"].map ascii

/-- Those a time zone block's loop looks for. -/
def tzProperties : List Bytes := ["dtstart", "tzoffsetfrom", "tzoffsetto", "rrule"].map ascii

/-- The line begins nothing the parser knows, and is no property it looks for. -/
def foreign (np : IcalNode) : Bool :=
  if np.isBegin then (icalTypeOf np.val).isNone && (icalTzTypeOf np.val).isNone
  else np.isEnd || !compProperties.any (strcaseEq np.name)

/-- What is open, without its values: a time zone by its place among them. -/
inductive Level
  | comp
  | zone (k : Nat)
  | block
  | unknown
  deriving DecidableEq, Repr

def Level.isBlock : Level → Bool
  | .block => true
  | _ => false

/-- The levels after a line, and the number of time zones begun. -/
def nextLevels (np : IcalNode) (levels : List Level) (zones : Nat) : List Level × Nat :=
  if np.isBegin then
    match icalTypeOf np.val, icalTzTypeOf np.val, levels with
    | some .vtimezone, _, levels => (.zone zones :: levels, zones + 1)
    | some _, _, levels => (.comp :: levels, zones)
    | none, some _, .zone k :: levels => (.block :: .zone k :: levels, zones)
    | none, _, levels => (.unknown :: levels, zones)
  else if np.isEnd then (levels.tail, zones)
  else (levels, zones)

/-- The line does not make a difference between the scoped parse and the parser's: no
known component begins within a block, a block begins directly within the last time
zone, and a property of an unknown component is none that is looked for there. -/
def follows (np : IcalNode) (levels : List Level) (zones : Nat) : Bool :=
  if np.isBegin then
    match icalTypeOf np.val, icalTzTypeOf np.val, levels with
    | some _, _, levels => !levels.any Level.isBlock
    | none, some _, .zone k :: _ => k + 1 = zones
    | none, some _, _ => false
    | none, none, _ => true
  else if np.isEnd then true
  else
    match levels with
    | .unknown :: levels => !(if levels.any Level.isBlock then tzProperties else compProperties).any (strcaseEq np.name)
    | _ => true

/-- No line makes a difference, with these levels open. -/
def followsAll : List Level → Nat → List Bytes → Bool
  | _, _, [] => true
  | levels, zones, l :: ls =>
    (lineNode l).all fun np =>
      follows np levels zones && followsAll (nextLevels np levels zones).1 (nextLevels np levels zones).2 ls

/-- No line after the first makes a difference. -/
def icalFollows (ls : List Bytes) : Bool := followsAll [.comp] 0 ls.tail

def Frame.level : Frame → Level
  | .comp ⟨.vtimezone, k⟩ => .zone k
  | .comp _ => .comp
  | .block _ _ => .block
  | .unknown => .unknown

namespace Scoped

def levels (s : Scoped) : List Level := s.frames.map Frame.level

def zones (s : Scoped) : Nat := (s.ical.comps .vtimezone).length

end Scoped

/-! ## Both side by side -/

variable {C}

/-- The open `BEGIN` lines by name, and what they are to the scoped parse and to the
parser: the components open and the block in them. -/
inductive Shape : List Bytes → List Frame → List CompRef → Option (CompRef × IcalTz) → Prop
  | nil : Shape [] [] [] none
  | comp {n : Bytes} {ns : List Bytes} {c : CompRef} {fs : List Frame} {cs : List CompRef} : strcaseEq c.type.name n →
    Shape ns fs cs none → Shape (n :: ns) (.comp c :: fs) (c :: cs) none
  | block {n : Bytes} {ns : List Bytes} {zone : CompRef} {z : IcalTz} {fs : List Frame} {cs : List CompRef} :
    strcaseEq z.type.name n → Shape ns fs cs none → cs ≠ [] → Shape (n :: ns) (.block zone z :: fs) cs (some (zone, z))
  | unknown {n : Bytes} {ns : List Bytes} {fs : List Frame} {cs : List CompRef} {b : Option (CompRef × IcalTz)} :
    icalTypeOf n = none → icalTzTypeOf n = none → Shape ns fs cs b → cs ≠ [] → Shape (n :: ns) (.unknown :: fs) cs b

theorem Shape.inBlock {ns : List Bytes} {fs : List Frame} {cs : List CompRef} {b : Option (CompRef × IcalTz)}
    (h : Shape ns fs cs b) : (fs.map Frame.level).any Level.isBlock = b.isSome := by
  induction h with
  | nil => rfl
  | @comp n ns c fs cs _ _ ih =>
    have hlevel : (Frame.comp c).level.isBlock = false := by
      obtain ⟨t, k⟩ := c
      cases t <;> rfl
    rw [List.map_cons, List.any_cons, hlevel, Bool.false_or, ih]
  | block => rfl
  | unknown _ _ _ _ ih => simpa [Frame.level, Level.isBlock] using ih

/-- Where a line is open, a component is. -/
theorem Shape.open {ns : List Bytes} {fs : List Frame} {cs : List CompRef} {b : Option (CompRef × IcalTz)}
    (h : Shape ns fs cs b) (hns : ns ≠ []) : cs ≠ [] := by
  cases h with
  | nil => exact absurd rfl hns
  | comp => exact List.cons_ne_nil _ _
  | block _ _ hcs => exact hcs
  | unknown _ _ _ hcs => exact hcs

theorem Shape.closed {fs : List Frame} {cs : List CompRef} {b : Option (CompRef × IcalTz)} (h : Shape [] fs cs b) :
    cs = [] ∧ b = none := by
  cases h with
  | nil => exact ⟨rfl, rfl⟩

/-- A known component begins where there is no block. -/
theorem Shape.no_block {ns : List Bytes} {fs : List Frame} {cs : List CompRef} {b : Option (CompRef × IcalTz)}
    (h : Shape ns fs cs b) (hfs : (fs.map Frame.level).any Level.isBlock = false) : b = none := by
  rw [h.inBlock] at hfs
  cases b with
  | none => rfl
  | some _ => cases hfs

structure Scoped.Matches (ns : List Bytes) (s : Scoped) (m : Machine) : Prop where
  shape : ∃ b, Shape ns s.frames m.opened b ∧ m.block = b.map Prod.snd ∧
    ∀ p ∈ b, p.1 = ⟨.vtimezone, (s.ical.comps .vtimezone).length - 1⟩
  ical : s.ical = m.ical
  erange : s.erange = m.erange

theorem icalCompField_other {np : IcalNode} (h : compProperties.any (strcaseEq np.name) = false) (c : IcalComp) :
    icalCompField C np c = pure (c, np.val) := by
  simp only [compProperties, List.map_cons, List.map_nil, List.any_cons, List.any_nil, Bool.or_false, Bool.or_eq_false_iff] at h
  simp [icalCompField, h]

theorem icalTzField_other {np : IcalNode} (h : tzProperties.any (strcaseEq np.name) = false) (z : IcalTz) :
    icalTzField C np z = pure z := by
  simp only [tzProperties, List.map_cons, List.map_nil, List.any_cons, List.any_nil, Bool.or_false, Bool.or_eq_false_iff] at h
  simp [icalTzField, h]

/-- Writing a component and the node's value back unchanged. -/
theorem Ical.write_self (c : CompRef) (np : IcalNode) (i : Ical) :
    (i.push np).write c (compAt c (i.push np)) np.val = i.push np := by
  have hfirst : ((i.push np).write c (compAt c (i.push np)) np.val).first = (i.push np).first := List.modifyLast_concat _ _ _
  have hcomps : ((i.push np).write c (compAt c (i.push np)) np.val).comps = (i.push np).comps :=
    modifyComp_self c (i.push np)
  unfold Ical.write at hfirst hcomps ⊢
  dsimp only at hfirst hcomps ⊢
  rw [hfirst, hcomps]
  rfl

/-- A component's loop only appends the line. -/
theorem Machine.line_foreign {np : IcalNode} (hf : foreign np) (hend : np.isEnd → ∀ t : IcalType, ¬strcaseEq t.name np.val)
    (c : CompRef) (cs : List CompRef) (i : Ical) (e : Bool) :
    Machine.line C ⟨c :: cs, none, i, e⟩ np = some ⟨c :: cs, none, i.push np, e⟩ := by
  by_cases hb : np.isBegin
  · rw [foreign, if_pos hb, Bool.and_eq_true, Option.isNone_iff_eq_none, Option.isNone_iff_eq_none] at hf
    exact (Machine.line_eq_some C).mpr (.unknown hb hf.1 hf.2)
  · by_cases he : np.isEnd
    · exact (Machine.line_eq_some C).mpr (.skip hb he (hend he c.type))
    · rw [foreign, if_neg hb, Bool.or_eq_true, or_iff_right he, Bool.not_eq_true'] at hf
      have hfield : under (icalCompField C np (compAt c i)) e = some ((compAt c i, np.val), e) := by
        rw [icalCompField_other hf]
        rfl
      have hwrite : Machine.line C ⟨c :: cs, none, i, e⟩ np = _ := (Machine.line_eq_some C).mpr (.field hb he hfield)
      exact hwrite.trans (congrArg (fun i => some (⟨c :: cs, none, i, e⟩ : Machine)) (Ical.write_self c np i))

theorem icalTypeOf_name {val : Bytes} {t : IcalType} (h : icalTypeOf val = some t) : strcaseEq t.name val := by
  have hfind := List.find?_some h
  simpa using hfind

theorem icalTzTypeOf_name {val : Bytes} {t : IcalTzType} (h : icalTzTypeOf val = some t) : strcaseEq t.name val := by
  have hfind := List.find?_some h
  simpa using hfind

theorem strcaseEq_trans {a b c : Bytes} (h : strcaseEq a b) (h' : strcaseEq b c) : strcaseEq a c := by
  simp only [strcaseEq, beq_iff_eq] at *
  exact h.trans h'

/-- No component has the name of an unknown one, and no block. -/
theorem not_named {n val : Bytes} (ht : icalTypeOf n = none) (htz : icalTzTypeOf n = none) (h : strcaseEq n val) :
    (∀ t : IcalType, ¬strcaseEq t.name val) ∧ ∀ t : IcalTzType, ¬strcaseEq t.name val := by
  have hback : strcaseEq val n := by
    rw [strcaseEq_comm]
    exact h
  constructor
  · intro t hname
    have hnone := List.find?_eq_none.mp ht t (IcalType.mem_all t)
    exact hnone (strcaseEq_trans hname hback)
  · intro t hname
    have hall : t ∈ IcalTzType.all := by cases t <;> decide
    have hnone := List.find?_eq_none.mp htz t hall
    exact hnone (strcaseEq_trans hname hback)

theorem strcaseEq_left {a b : Bytes} (h : strcaseEq a b) (c : Bytes) : strcaseEq b c = strcaseEq a c := by
  simp only [strcaseEq, beq_iff_eq] at *
  rw [h]

theorem begin_not_end {np : IcalNode} (h : np.isBegin) : ¬np.isEnd := by
  rw [IcalNode.isEnd, strcaseEq_comm, strcaseEq_left h]
  decide

theorem begin_other {np : IcalNode} (h : np.isBegin) : tzProperties.any (strcaseEq np.name) = false := by
  rw [funext (strcaseEq_left h)]
  decide

section
variable {ns : List Bytes} {s : Scoped} {m : Machine} {np : IcalNode}

/-- Two states that match are one calendar with its open lines, seen by name and by the parser. -/
theorem Scoped.Matches.states (h : Scoped.Matches ns s m) : ∃ fs cs b i e, Shape ns fs cs b ∧
    (∀ p ∈ b, p.1 = ⟨.vtimezone, (i.comps .vtimezone).length - 1⟩) ∧ s = ⟨fs, i, e⟩ ∧ m = ⟨cs, b.map Prod.snd, i, e⟩ := by
  obtain ⟨fs, i, e⟩ := s
  obtain ⟨cs, block, i', e'⟩ := m
  obtain ⟨⟨b, hshape, rfl, hlast⟩, hi, he⟩ := h
  cases hi
  cases he
  exact ⟨fs, cs, b, i, e, hshape, hlast, rfl, rfl⟩

theorem Scoped.Matches.beginLine (h : Scoped.Matches ns s m) (hns : ns ≠ []) (hbegin : np.isBegin) (hfollows : follows np s.levels s.zones) :
    Option.Rel (Scoped.Matches (np.val :: ns)) (s.line C np) (m.line C np) := by
  obtain ⟨fs, cs, b, i, e, hshape, hlast, rfl, rfl⟩ := h.states
  have hcs : cs ≠ [] := hshape.open hns
  have hscoped : Scoped.line C ⟨fs, i, e⟩ np = some (Scoped.beginLine np ⟨fs, i.push np, e⟩) := if_pos hbegin
  rw [hscoped]
  unfold follows at hfollows
  rw [if_pos hbegin] at hfollows
  unfold Scoped.beginLine
  cases ht : icalTypeOf np.val with
  | some tt =>
    rw [ht] at hfollows
    obtain rfl := hshape.no_block (by simpa [Scoped.levels] using hfollows)
    obtain ⟨c, cs, rfl⟩ := List.exists_cons_of_ne_nil hcs
    have hline : Machine.line C ⟨c :: cs, none, i, e⟩ np = _ := (Machine.line_eq_some C).mpr (.beginComp hbegin ht)
    rw [show Option.map Prod.snd (none : Option (CompRef × IcalTz)) = none from rfl, hline]
    exact .some ⟨⟨none, .comp (icalTypeOf_name ht) hshape, rfl, by simp⟩, rfl, rfl⟩
  | none =>
    cases htz : icalTzTypeOf np.val with
    | some tz =>
      rw [ht, htz] at hfollows
      cases hshape with
      | nil => exact absurd rfl hns
      | @comp _ _ c fs cs hname hshape =>
        obtain ⟨htype, hidx⟩ : c.type = .vtimezone ∧ c.idx + 1 = (i.comps .vtimezone).length := by
          obtain ⟨t, k⟩ := c
          cases t with
          | vtimezone => exact ⟨rfl, of_decide_eq_true hfollows⟩
          | _ => cases hfollows
        have hne : i.comps .vtimezone ≠ [] := by
          intro hnil
          rw [hnil] at hidx
          cases hidx
        have hc : c = ⟨.vtimezone, (i.comps .vtimezone).length - 1⟩ := by
          rw [← hidx, ← htype]
          rfl
        have hline : Machine.line C ⟨c :: cs, none, i, e⟩ np = _ :=
          (Machine.line_eq_some C).mpr (.beginBlock hbegin ht htz hne)
        rw [show Option.map Prod.snd (none : Option (CompRef × IcalTz)) = none from rfl, hline]
        dsimp only
        rw [if_pos htype]
        refine .some ⟨⟨some (c, .new tz), .block (icalTzTypeOf_name htz) (.comp hname hshape) (by simp), rfl, ?_⟩, rfl, rfl⟩
        rintro p ⟨⟩
        exact hc
      | block => cases hfollows
      | unknown => cases hfollows
    | none =>
      have hunknown := hshape.unknown ht htz hcs
      have hline : Machine.line C ⟨cs, b.map Prod.snd, i, e⟩ np = some ⟨cs, b.map Prod.snd, i.push np, e⟩ := by
        cases b with
        | some p =>
          refine (Machine.line_eq_some C).mpr (.fieldBlock (begin_not_end hbegin) ?_)
          rw [icalTzField_other (begin_other hbegin)]
          rfl
        | none =>
          obtain ⟨c, cs, rfl⟩ := List.exists_cons_of_ne_nil hcs
          have hforeign : foreign np := by simp [foreign, hbegin, ht, htz]
          exact Machine.line_foreign hforeign (fun hend => absurd hend (begin_not_end hbegin)) c cs i e
      rw [hline]
      cases fs with
      | nil => exact .some ⟨⟨b, hunknown, rfl, hlast⟩, rfl, rfl⟩
      | cons f fs => exact .some ⟨⟨b, hunknown, rfl, hlast⟩, rfl, rfl⟩

theorem Scoped.Matches.endLine {n : Bytes} (h : Scoped.Matches (n :: ns) s m) (hbegin : ¬np.isBegin) (hend : np.isEnd)
    (hval : strcaseEq n np.val) : Option.Rel (Scoped.Matches ns) (s.line C np) (m.line C np) := by
  obtain ⟨fs, cs, b, i, e, hshape, hlast, rfl, rfl⟩ := h.states
  have hscoped : Scoped.line C ⟨fs, i, e⟩ np = Scoped.endLine ⟨fs, i.push np, e⟩ := (if_neg hbegin).trans (if_pos hend)
  rw [hscoped]
  cases hshape with
  | @comp _ _ c fs cs hname hshape =>
    have hmachine : Machine.line C ⟨c :: cs, none, i, e⟩ np =
        if (compAt c (i.push np)).Complete then some ⟨cs, none, i.push np, e⟩ else none :=
      (if_neg hbegin).trans ((if_pos hend).trans (if_pos (strcaseEq_trans hname hval)))
    refine hmachine ▸ ?_
    unfold Scoped.endLine
    dsimp only
    split
    · exact .some ⟨⟨none, hshape, rfl, by simp⟩, rfl, rfl⟩
    · exact .none
  | @block _ _ zone z fs cs hname hshape hcs =>
    have hmachine : Machine.line C ⟨cs, some z, i, e⟩ np =
        if z.Complete then some ⟨cs, none, addTz (i.comps .vtimezone).length z (i.push np), e⟩ else none :=
      (if_pos hend).trans (if_pos (strcaseEq_trans hname hval))
    refine hmachine ▸ ?_
    unfold Scoped.endLine
    dsimp only
    split
    · rw [show zone = _ from hlast (zone, z) rfl]
      exact .some ⟨⟨none, hshape, rfl, by simp⟩, rfl, rfl⟩
    · exact .none
  | unknown ht htz hshape hcs =>
    obtain ⟨hcomp, hblock⟩ := not_named ht htz hval
    have hmachine : Machine.line C ⟨cs, b.map Prod.snd, i, e⟩ np = some ⟨cs, b.map Prod.snd, i.push np, e⟩ := by
      cases b with
      | some p => exact (if_pos hend).trans (if_neg (hblock _))
      | none =>
        obtain ⟨c, cs, rfl⟩ := List.exists_cons_of_ne_nil hcs
        have hforeign : foreign np := by simp [foreign, hbegin, hend]
        exact Machine.line_foreign hforeign (fun _ => hcomp) c cs i e
    rw [hmachine]
    exact .some ⟨⟨b, hshape, rfl, hlast⟩, rfl, rfl⟩

theorem Scoped.Matches.propertyLine (h : Scoped.Matches ns s m) (hns : ns ≠ []) (hbegin : ¬np.isBegin) (hend : ¬np.isEnd)
    (hfollows : follows np s.levels s.zones) : Option.Rel (Scoped.Matches ns) (s.line C np) (m.line C np) := by
  obtain ⟨fs, cs, b, i, e, hshape, hlast, rfl, rfl⟩ := h.states
  have hscoped : Scoped.line C ⟨fs, i, e⟩ np = Scoped.propertyLine C np ⟨fs, i.push np, e⟩ :=
    (if_neg hbegin).trans (if_neg hend)
  have written {α : Type} {x : Option (α × Bool)} {f : α × Bool → Scoped} {g : α × Bool → Machine}
      (hfg : ∀ r, x = some r → Scoped.Matches ns (f r) (g r)) : Option.Rel (Scoped.Matches ns) (x.map f) (x.map g) := by
    cases x with
    | none => exact .none
    | some r => exact .some (hfg r rfl)
  rw [hscoped]
  unfold follows at hfollows
  rw [if_neg hbegin, if_neg hend] at hfollows
  cases hshape with
  | nil => exact absurd rfl hns
  | @comp _ _ c fs cs hname hshape =>
    have hmachine : Machine.line C ⟨c :: cs, none, i, e⟩ np = (under (icalCompField C np (compAt c (i.push np))) e).map fun r =>
        ⟨c :: cs, none, (i.push np).write c r.1.1 r.1.2, r.2⟩ := (if_neg hbegin).trans (if_neg hend)
    refine hmachine ▸ written fun r _ => ?_
    exact ⟨⟨none, .comp hname hshape, rfl, by simp⟩, rfl, rfl⟩
  | @block _ _ zone z fs cs hname hshape hcs =>
    have hmachine : Machine.line C ⟨cs, some z, i, e⟩ np = (under (icalTzField C np z) e).map fun r =>
        ⟨cs, some r.1, i.push np, r.2⟩ := if_neg hend
    refine hmachine ▸ written fun r hunder => ?_
    obtain ⟨d, hd, -⟩ := (under_eq_some (d := ⟨"", 0, none, e⟩) (icalTzField_plain np z)).mp hunder
    have htype : r.1.type = z.type := icalTzField_type hd
    refine ⟨⟨some (zone, r.1), .block (htype ▸ hname) hshape hcs, rfl, ?_⟩, rfl, rfl⟩
    rintro p ⟨⟩
    exact hlast (zone, z) rfl
  | @unknown _ _ fs cs b ht htz hshape hcs =>
    have hfollows : (!(if (fs.map Frame.level).any Level.isBlock then tzProperties else compProperties).any
      (strcaseEq np.name)) = true := hfollows
    rw [hshape.inBlock, Bool.not_eq_true'] at hfollows
    have hmachine : Machine.line C ⟨cs, b.map Prod.snd, i, e⟩ np = some ⟨cs, b.map Prod.snd, i.push np, e⟩ := by
      cases b with
      | some p =>
        have hother : tzProperties.any (strcaseEq np.name) = false := hfollows
        refine (Machine.line_eq_some C).mpr (.fieldBlock hend ?_)
        rw [icalTzField_other hother]
        rfl
      | none =>
        have hother : compProperties.any (strcaseEq np.name) = false := hfollows
        obtain ⟨c, cs, rfl⟩ := List.exists_cons_of_ne_nil hcs
        have hforeign : foreign np := by simp [foreign, hbegin, hother]
        exact Machine.line_foreign hforeign (fun h => absurd h hend) c cs i e
    rw [hmachine]
    exact .some ⟨⟨b, .unknown ht htz hshape hcs, rfl, hlast⟩, rfl, rfl⟩

/-- The levels are those of the lines. -/
theorem Scoped.line_levels {s' : Scoped} (h : s.line C np = some s') : s'.levels = (nextLevels np s.levels s.zones).1 ∧
    s'.zones = (nextLevels np s.levels s.zones).2 := by
  obtain ⟨fs, i, e⟩ := s
  unfold Scoped.line at h
  unfold nextLevels
  dsimp only at h
  split at h
  next hbegin =>
    rw [if_pos hbegin]
    cases h
    unfold Scoped.beginLine
    cases ht : icalTypeOf np.val with
    | some tt =>
      have hzones : (((i.push np).alloc tt).comps .vtimezone).length =
          if tt = .vtimezone then (i.comps .vtimezone).length + 1 else (i.comps .vtimezone).length := by
        simp only [Ical.alloc, Ical.push_comps, eq_comm]
        split
        · rw [List.length_append, List.length_singleton]
        · rfl
      refine ⟨?_, hzones.trans ?_⟩
      · cases tt <;> rfl
      · cases tt <;> rfl
    | none =>
      cases htz : icalTzTypeOf np.val with
      | none =>
        cases fs with
        | nil => exact ⟨rfl, rfl⟩
        | cons f fs => exact ⟨rfl, rfl⟩
      | some tz =>
        cases fs with
        | nil => exact ⟨rfl, rfl⟩
        | cons f fs =>
          cases f with
          | comp c =>
            obtain ⟨t, k⟩ := c
            cases t <;> exact ⟨rfl, rfl⟩
          | block => exact ⟨rfl, rfl⟩
          | unknown => exact ⟨rfl, rfl⟩
  next hbegin =>
    rw [if_neg hbegin]
    split at h
    next hend =>
      rw [if_pos hend]
      unfold Scoped.endLine at h
      dsimp only at h
      cases fs with
      | nil => cases h
      | cons f fs =>
        cases f with
        | comp c =>
          obtain ⟨-, heq⟩ := Option.ite_none_right_eq_some.mp h
          cases heq
          exact ⟨rfl, rfl⟩
        | block zone z =>
          obtain ⟨-, heq⟩ := Option.ite_none_right_eq_some.mp h
          cases heq
          exact ⟨rfl, Ical.modifyComp_length _ _ _ _⟩
        | unknown =>
          cases h
          exact ⟨rfl, rfl⟩
    next hend =>
      rw [if_neg hend]
      unfold Scoped.propertyLine at h
      dsimp only at h
      cases fs with
      | nil => cases h
      | cons f fs =>
        cases f with
        | comp c =>
          obtain ⟨r, -, rfl⟩ := Option.map_eq_some_iff.mp h
          exact ⟨rfl, Ical.modifyComp_length _ _ _ _⟩
        | block zone z =>
          obtain ⟨r, -, rfl⟩ := Option.map_eq_some_iff.mp h
          exact ⟨rfl, rfl⟩
        | unknown =>
          cases h
          exact ⟨rfl, rfl⟩

/-- A whole run beside the parser's, which goes no further than the line that closes the
first. -/
theorem Scoped.run_matches {ls : List Bytes} (rest : List Bytes) : ∀ {ns : List Bytes} {s : Scoped} {m : Machine},
    Scoped.Matches ns s m → nestedWithin ns ls → followsAll s.levels s.zones ls → ns ≠ [] →
    Option.Rel (fun s' r => r.1.opened = [] ∧ r.1.block = none ∧ s'.ical = r.1.ical ∧ r.2 = rest) (s.run C ls)
      (m.run C (ls ++ rest)) := by
  induction ls with
  | nil =>
    intro ns s m _ hnested
    cases hnested
  | cons l ls ih =>
    intro ns s m h hnested hall hns
    have hopen : ¬m.finished := by
      obtain ⟨b, hshape, -⟩ := h.shape
      intro hfin
      exact hshape.open hns (Machine.finished_iff.mp hfin).1
    obtain ⟨np, hnode, hcases⟩ := nestedWithin_cons hnested
    rw [followsAll, hnode, Option.all_some, Bool.and_eq_true] at hall
    obtain ⟨hfollows, hall⟩ := hall
    rw [Scoped.run, List.cons_append, Machine.run, if_neg hopen, hnode, Option.bind_some, Option.bind_some]
    -- the lines after this one, from related states
    have goOn {ns' : List Bytes} (hline : Option.Rel (Scoped.Matches ns') (s.line C np) (m.line C np)) (hns' : ns' ≠ [])
        (hnested : nestedWithin ns' ls) : Option.Rel (fun s' r => r.1.opened = [] ∧ r.1.block = none ∧
          s'.ical = r.1.ical ∧ r.2 = rest) ((s.line C np).bind fun s => s.run C ls)
        ((m.line C np).bind fun m => m.run C (ls ++ rest)) := by
      rcases rel_cases hline with ⟨hs, hm⟩ | ⟨s', m', hs, hm, hmatches⟩
      · rw [hs, hm]
        exact .none
      · rw [hs, hm]
        obtain ⟨hlevels, hzones⟩ := Scoped.line_levels hs
        rw [← hlevels, ← hzones] at hall
        exact ih hmatches hnested hall hns'
    rcases hcases with ⟨hbegin, hrest⟩ | ⟨hbegin, hend, n, outer, rfl, hval, hrest⟩ | ⟨hbegin, hend, hrest⟩
    · exact goOn (h.beginLine hns hbegin hfollows) (List.cons_ne_nil _ _) hrest
    · rcases hrest with ⟨rfl, rfl⟩ | ⟨houter, hrest⟩
      · rcases rel_cases (h.endLine (C := C) hbegin hend hval) with ⟨hs, hm⟩ | ⟨s', m', hs, hm, hmatches⟩
        · rw [hs, hm]
          exact .none
        · obtain ⟨b, hshape, hblock, -⟩ := hmatches.shape
          obtain ⟨hopened, rfl⟩ := hshape.closed
          have hrun : m'.run C ([] ++ rest) = some (m', rest) := by
            cases rest with
            | nil => rfl
            | cons l rest => exact if_pos (Machine.finished_iff.mpr ⟨hopened, hblock⟩)
          rw [hs, hm, Option.bind_some, Option.bind_some, hrun]
          exact .some ⟨hopened, hblock, hmatches.ical, rfl⟩
      · exact goOn (h.endLine hbegin hend hval) houter hrest
    · exact goOn (h.propertyLine hns hbegin hend hfollows) hns hrest

end

/-- The parser's calendar is the scoped parse's. -/
theorem icalMachine_scoped {erange : Bool} {ls : List Bytes} (rest : List Bytes) (hnested : nestedByName ls)
    (hall : icalFollows ls) : (icalMachine C erange (ls ++ rest)).map Prod.fst = icalScoped C erange ls := by
  cases ls with
  | nil => cases hnested
  | cons l ls =>
    rw [nestedByName, Option.any_eq_true] at hnested
    obtain ⟨np, hnode, hnested⟩ := hnested
    simp only [Bool.and_eq_true] at hnested
    obtain ⟨⟨hbegin, hcal⟩, hnested⟩ := hnested
    have htest : (np.isBegin && strcaseEq np.val (ascii "VCALENDAR")) = true := by
      rw [Bool.and_eq_true]
      exact ⟨hbegin, hcal⟩
    have hname : strcaseEq IcalType.vcalendar.name np.val := by
      rw [strcaseEq_comm]
      exact hcal
    have hstart : Scoped.Matches [np.val] (.start np erange) (.start np erange) :=
      ⟨⟨none, .comp hname .nil, rfl, by simp⟩, rfl, rfl⟩
    rw [List.cons_append, icalMachine, icalScoped, hnode, Option.bind_some, Option.bind_some, if_pos htest]
    rcases rel_cases (Scoped.run_matches rest hstart hnested hall (List.cons_ne_nil _ _)) with
      ⟨hs, hm⟩ | ⟨s', ⟨m', rest'⟩, hs, hm, hopened, hblock, hical, -⟩
    · rw [hs, hm]
      rfl
    · have hclose := Machine.close_finished (Machine.finished_iff.mpr ⟨hopened, hblock⟩)
      rw [hs, hm, Option.bind_some, Option.bind_some, hclose, Option.bind_some, hical, Option.map_map]
      exact Option.map_id'

end Kcaldav
