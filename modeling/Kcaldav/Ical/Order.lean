import Kcaldav.Ical.Unknown
import Mathlib.Data.List.Pairwise

/-! # The order of the components

A calendar of complete blocks: events, to-dos, journals and free-busy components with
alarms in them, and time zones with their blocks. What a block adds to the calendar
depends on the block alone, so the blocks may stand in any order; the time zones are
found by name when all are there.
-/
namespace Kcaldav
open CString LineReader

/-! ## Blocks -/

/-- A line that neither begins nor ends anything. -/
def plainLine (l : Bytes) : Bool := (lineNode l).all fun np => !np.isBegin && !np.isEnd

def beginsLine (name l : Bytes) : Bool := (lineNode l).any fun np => np.isBegin && strcaseEq name np.val

def endsLine (name l : Bytes) : Bool := (lineNode l).any fun np => np.isEnd && strcaseEq name np.val

/-- Plain lines and inner blocks. -/
inductive BodyLines (inner : List Bytes → Prop) : List Bytes → Prop
  | nil : BodyLines inner []
  | line {l : Bytes} {ls : List Bytes} : plainLine l → BodyLines inner ls → BodyLines inner (l :: ls)
  | block {as bs : List Bytes} : inner as → BodyLines inner bs → BodyLines inner (as ++ bs)

/-- A block of the name, from its `BEGIN` to its `END`. -/
inductive NamedBlock (name : Bytes) (inner : List Bytes → Prop) : List Bytes → Prop
  | intro {b e : Bytes} {ls : List Bytes} : beginsLine name b → BodyLines inner ls → endsLine name e →
    NamedBlock name inner (b :: (ls ++ [e]))

def AlarmBlock : List Bytes → Prop := NamedBlock IcalType.valarm.name fun _ => False

def RuleBlock (ls : List Bytes) : Prop := ∃ tz : IcalTzType, NamedBlock tz.name (fun _ => False) ls

/-- A complete block of a calendar. -/
inductive TopBlock : List Bytes → Prop
  | comp {t : IcalType} {ls : List Bytes} : t ∈ [.vevent, .vtodo, .vjournal, .vfreebusy] → NamedBlock t.name AlarmBlock ls →
    TopBlock ls
  | zone {ls : List Bytes} : NamedBlock IcalType.vtimezone.name RuleBlock ls → TopBlock ls

/-! ## Names -/

theorem icalTypeOf_congr {a b : Bytes} (h : strcaseEq a b) : icalTypeOf a = icalTypeOf b := by
  unfold icalTypeOf
  congr 1
  funext u
  rw [strcaseEq_comm, strcaseEq_comm u.name, strcaseEq_left h]

theorem icalTzTypeOf_congr {a b : Bytes} (h : strcaseEq a b) : icalTzTypeOf a = icalTzTypeOf b := by
  unfold icalTzTypeOf
  congr 1
  funext u
  rw [strcaseEq_comm, strcaseEq_comm u.name, strcaseEq_left h]

theorem icalTypeOf_self {t : IcalType} {val : Bytes} (h : strcaseEq t.name val) : icalTypeOf val = some t := by
  rw [← icalTypeOf_congr h]
  cases t <;> decide

theorem icalTzTypeOf_comp {t : IcalType} {val : Bytes} (h : strcaseEq t.name val) : icalTzTypeOf val = none := by
  rw [← icalTzTypeOf_congr h]
  cases t <;> decide

theorem icalTypeOf_tz {tz : IcalTzType} {val : Bytes} (h : strcaseEq tz.name val) :
    icalTypeOf val = none ∧ icalTzTypeOf val = some tz := by
  rw [← icalTypeOf_congr h, ← icalTzTypeOf_congr h]
  cases tz <;> decide

/-! ## What is open, by type -/

variable {C : Libc}

/-- The components open and the block in them, by type. -/
def Machine.shape (m : Machine) : List IcalType × Option IcalTzType := (m.opened.map CompRef.type, m.block.map IcalTz.type)

/-- From one shape the lines lead to the other or are rejected, whatever comes after them. -/
def Leads (C : Libc) (s s' : List IcalType × Option IcalTzType) (ls : List Bytes) : Prop :=
  ∀ (m : Machine) (more : List Bytes), m.shape = s →
    m.run C (ls ++ more) = none ∨ ∃ m' : Machine, m'.shape = s' ∧ m.run C (ls ++ more) = m'.run C more

theorem Machine.finished_shape {m : Machine} : m.finished ↔ m.shape = ([], none) := by
  rw [Machine.finished_iff, shape, Prod.mk.injEq, List.map_eq_nil_iff, Option.map_eq_none_iff]

namespace Leads

variable {s s' s'' : List IcalType × Option IcalTzType}

theorem nil : Leads C s s [] := fun m _ hm => .inr ⟨m, hm, rfl⟩

theorem append {as bs : List Bytes} (h : Leads C s s' as) (h' : Leads C s' s'' bs) : Leads C s s'' (as ++ bs) := by
  intro m more hm
  rw [List.append_assoc]
  rcases h m (bs ++ more) hm with hnone | ⟨m₁, hm₁, hrun⟩
  · exact .inl hnone
  · rw [hrun]
    exact h' m₁ more hm₁

theorem line {l : Bytes} (hs : s ≠ ([], none)) (h : ∀ (np : IcalNode) (m m' : Machine), lineNode l = some np → m.shape = s →
    Machine.Takes C np m m' → m'.shape = s') : Leads C s s' [l] := by
  intro m more hm
  have hopen : ¬m.finished := by
    rw [Machine.finished_shape, hm]
    exact hs
  rw [List.singleton_append, Machine.run, if_neg hopen]
  cases hnode : lineNode l with
  | none => exact .inl rfl
  | some np =>
    rw [Option.bind_some]
    cases hline : m.line C np with
    | none => exact .inl rfl
    | some m' => exact .inr ⟨m', h np m m' hnode hm ((Machine.line_eq_some C).mp hline), rfl⟩

theorem plain {l : Bytes} (hs : s ≠ ([], none)) (hl : plainLine l) : Leads C s s [l] := by
  refine line hs fun np m m' hnode hm htakes => ?_
  subst hm
  rw [plainLine, hnode, Option.all_some, Bool.and_eq_true, Bool.not_eq_true', Bool.not_eq_true'] at hl
  obtain ⟨hbegin, hend⟩ := hl
  cases htakes with
  | endBlock h => rw [hend] at h; cases h
  | skipBlock h => rw [hend] at h; cases h
  | @fieldBlock cs z z' i e e' _ hunder =>
    obtain ⟨d, hd, -⟩ := (under_eq_some (d := ⟨"", 0, none, e⟩) (icalTzField_plain np z)).mp hunder
    rw [Machine.shape, Machine.shape, Option.map_some, Option.map_some, icalTzField_type hd]
  | beginComp h => rw [hbegin] at h; cases h
  | beginBlock h => rw [hbegin] at h; cases h
  | unknown h => rw [hbegin] at h; cases h
  | endComp _ h => rw [hend] at h; cases h
  | skip _ h => rw [hend] at h; cases h
  | field => rfl

theorem beginComp {ts : List IcalType} {t : IcalType} {l : Bytes} (hts : ts ≠ []) (hl : beginsLine t.name l) :
    Leads C (ts, none) (t :: ts, none) [l] := by
  refine line (by simp [hts]) fun np m m' hnode hm htakes => ?_
  rw [beginsLine, hnode, Option.any_some, Bool.and_eq_true] at hl
  obtain ⟨hbegin, hname⟩ := hl
  have htype := icalTypeOf_self hname
  obtain ⟨opened, block, i, e⟩ := m
  obtain ⟨hopened, hblock⟩ := Prod.mk.inj hm
  obtain rfl : block = none := Option.map_eq_none_iff.mp hblock
  cases htakes with
  | beginComp _ ht =>
    rw [htype] at ht
    cases ht
    exact Prod.ext (congrArg (t :: ·) hopened) rfl
  | beginBlock _ ht => rw [htype] at ht; cases ht
  | unknown _ ht => rw [htype] at ht; cases ht
  | endComp h => exact absurd hbegin h
  | skip h => exact absurd hbegin h
  | field h => exact absurd hbegin h

theorem beginBlock {ts : List IcalType} {tz : IcalTzType} {l : Bytes} (hts : ts ≠ []) (hl : beginsLine tz.name l) :
    Leads C (ts, none) (ts, some tz) [l] := by
  refine line (by simp [hts]) fun np m m' hnode hm htakes => ?_
  rw [beginsLine, hnode, Option.any_some, Bool.and_eq_true] at hl
  obtain ⟨hbegin, hname⟩ := hl
  obtain ⟨htype, htz⟩ := icalTypeOf_tz hname
  obtain ⟨opened, block, i, e⟩ := m
  obtain ⟨hopened, hblock⟩ := Prod.mk.inj hm
  obtain rfl : block = none := Option.map_eq_none_iff.mp hblock
  cases htakes with
  | beginComp _ ht => rw [htype] at ht; cases ht
  | beginBlock _ _ ht =>
    rw [htz] at ht
    cases ht
    exact Prod.ext hopened rfl
  | unknown _ _ ht => rw [htz] at ht; cases ht
  | endComp h => exact absurd hbegin h
  | skip h => exact absurd hbegin h
  | field h => exact absurd hbegin h

theorem endComp {ts : List IcalType} {t : IcalType} {l : Bytes} (hl : endsLine t.name l) :
    Leads C (t :: ts, none) (ts, none) [l] := by
  refine line (by simp) fun np m m' hnode hm htakes => ?_
  rw [endsLine, hnode, Option.any_some, Bool.and_eq_true] at hl
  obtain ⟨hend, hname⟩ := hl
  obtain ⟨opened, block, i, e⟩ := m
  obtain ⟨hopened, hblock⟩ := Prod.mk.inj hm
  obtain rfl : block = none := Option.map_eq_none_iff.mp hblock
  cases htakes with
  | beginComp h => exact absurd hend (begin_not_end h)
  | beginBlock h => exact absurd hend (begin_not_end h)
  | unknown h => exact absurd hend (begin_not_end h)
  | endComp =>
    obtain ⟨-, hcs⟩ := List.cons.inj hopened
    exact Prod.ext hcs rfl
  | skip _ _ h =>
    obtain ⟨htype, -⟩ := List.cons.inj hopened
    rw [htype] at h
    exact absurd hname h
  | field _ h => exact absurd hend h

theorem endBlock {ts : List IcalType} {tz : IcalTzType} {l : Bytes} (hl : endsLine tz.name l) :
    Leads C (ts, some tz) (ts, none) [l] := by
  refine line (by simp) fun np m m' hnode hm htakes => ?_
  rw [endsLine, hnode, Option.any_some, Bool.and_eq_true] at hl
  obtain ⟨hend, hname⟩ := hl
  obtain ⟨opened, block, i, e⟩ := m
  obtain ⟨hopened, hblock⟩ := Prod.mk.inj hm
  obtain ⟨z, rfl, rfl⟩ := Option.map_eq_some_iff.mp hblock
  cases htakes with
  | endBlock => exact Prod.ext hopened rfl
  | skipBlock _ h => exact absurd hname h
  | fieldBlock h => exact absurd hend h

theorem body {inner : List Bytes → Prop} (hs : s ≠ ([], none)) (hinner : ∀ as, inner as → Leads C s s as) {ls : List Bytes}
    (h : BodyLines inner ls) : Leads C s s ls := by
  induction h with
  | nil => exact nil
  | line hl _ ih => exact (plain hs hl).append ih
  | block has _ ih => exact (hinner _ has).append ih

theorem alarm {t : IcalType} {ls : List Bytes} (h : AlarmBlock ls) : Leads C ([t], none) ([t], none) ls := by
  cases h with
  | @intro b e ls hb hls he =>
    have hbody : Leads C ([.valarm, t], none) ([.valarm, t], none) ls := body (by simp) (by simp) hls
    exact (beginComp (by simp) hb).append (hbody.append (endComp he))

theorem rule {t : IcalType} {ls : List Bytes} (h : RuleBlock ls) : Leads C ([t], none) ([t], none) ls := by
  obtain ⟨tz, h⟩ := h
  cases h with
  | @intro b e ls hb hls he =>
    have hbody : Leads C ([t], some tz) ([t], some tz) ls := body (by simp) (by simp) hls
    exact (beginBlock (by simp) hb).append (hbody.append (endBlock he))

end Leads

/-! ## One block -/

/-- The line begins no time zone block. -/
def ruleless (l : Bytes) : Prop := ∀ np ∈ lineNode l, np.isBegin → icalTzTypeOf np.val = none

theorem ruleless_plain {l : Bytes} (h : plainLine l) : ruleless l := by
  intro np hnode hbegin
  rw [plainLine, hnode, Option.all_some, hbegin] at h
  cases h

theorem ruleless_begins {t : IcalType} {l : Bytes} (h : beginsLine t.name l) : ruleless l := by
  intro np hnode _
  rw [beginsLine, hnode, Option.any_some, Bool.and_eq_true] at h
  exact icalTzTypeOf_comp h.2

theorem ruleless_ends {name l : Bytes} (h : endsLine name l) : ruleless l := by
  intro np hnode hbegin
  rw [endsLine, hnode, Option.any_some, Bool.and_eq_true] at h
  exact absurd h.1 (begin_not_end hbegin)

theorem BodyLines.ruleless {inner : List Bytes → Prop} (hinner : ∀ as, inner as → ∀ l ∈ as, ruleless l) {ls : List Bytes}
    (h : BodyLines inner ls) : ∀ l ∈ ls, ruleless l := by
  induction h with
  | nil => simp
  | line hl _ ih => exact List.forall_mem_cons.mpr ⟨ruleless_plain hl, ih⟩
  | block has _ ih => exact List.forall_mem_append.mpr ⟨hinner _ has, ih⟩

theorem AlarmBlock.ruleless {ls : List Bytes} (h : AlarmBlock ls) : ∀ l ∈ ls, ruleless l := by
  cases h with
  | intro hb hls he =>
    refine List.forall_mem_cons.mpr ⟨ruleless_begins hb, List.forall_mem_append.mpr ⟨hls.ruleless (by simp), ?_⟩⟩
    exact List.forall_mem_singleton.mpr (ruleless_ends he)

/-- The type of a block's component, and what the lines after its `BEGIN` do. -/
theorem TopBlock.leads {b : Bytes} {ls : List Bytes} (h : TopBlock (b :: ls)) : ∃ t, beginsLine t.name b ∧
    Leads C ([t], none) ([], none) ls ∧ (t = .vtimezone ∨ ∀ l ∈ ls, ruleless l) := by
  cases h with
  | @comp t _ ht hblock =>
    cases hblock with
    | intro hb hls he =>
      refine ⟨t, hb, (Leads.body (by simp) (fun _ => Leads.alarm) hls).append (Leads.endComp he), .inr ?_⟩
      refine List.forall_mem_append.mpr ⟨hls.ruleless fun _ => AlarmBlock.ruleless, ?_⟩
      exact List.forall_mem_singleton.mpr (ruleless_ends he)
  | zone hblock =>
    cases hblock with
    | intro hb hls he => exact ⟨_, hb, (Leads.body (by simp) (fun _ => Leads.rule) hls).append (Leads.endComp he), .inl rfl⟩

/-- A component has been opened in an empty calendar. -/
def Machine.alone (t : IcalType) (np : IcalNode) (erange : Bool) : Machine where
  opened := [⟨t, 0⟩]
  block := none
  ical := (Ical.empty.push np).alloc t
  erange := erange

/-- The components of a block by itself. -/
def icalBlock (C : Libc) : List Bytes → Option (IcalType → List IcalComp)
  | [] => none
  | l :: ls =>
    (lineNode l).bind fun np => (icalTypeOf np.val).bind fun t =>
      ((Machine.alone t np false).run C ls).map fun r => r.1.ical.comps

namespace Machine

theorem run_append_none {ls : List Bytes} (more : List Bytes) : ∀ {m : Machine}, m.run C ls = none → m.run C (ls ++ more) = none := by
  induction ls with
  | nil => exact fun h => by cases h
  | cons l ls ih =>
    intro m h
    rw [Machine.run] at h
    rw [List.cons_append, Machine.run]
    split at h
    · cases h
    next hopen =>
      rw [if_neg hopen]
      cases hline : (lineNode l).bind (m.line C) with
      | none => rfl
      | some m' =>
        rw [hline, Option.bind_some] at h
        exact ih h

/-- What lines that close everything do, whatever comes after them. -/
theorem run_closed {s : List IcalType × Option IcalTzType} {ls : List Bytes} (hleads : Leads C s ([], none) ls) {m : Machine}
    (hm : m.shape = s) : m.run C ls = none ∨ ∃ m' : Machine, m'.finished ∧ m.run C ls = some (m', []) := by
  have h := hleads m [] hm
  rw [List.append_nil] at h
  refine h.imp_right ?_
  rintro ⟨m', hshape, hrun⟩
  have hfin := finished_shape.mpr hshape
  exact ⟨m', hfin, hrun.trans (run_done (.inl hfin))⟩

/-- With a clear `errno` the block alone does the same from any. -/
theorem alone_clear (hC : ∀ e, C.errnoAt e = false) {t : IcalType} {np : IcalNode} {ls : List Bytes}
    (hleads : Leads C ([t], none) ([], none) ls) (e : Bool) :
    (alone t np false).run C ls = none ∧ (alone t np e).run C ls = none ∨ ∃ m m' : Machine, m.finished ∧ m'.finished ∧
      m.ical = m'.ical ∧ (alone t np false).run C ls = some (m, []) ∧ (alone t np e).run C ls = some (m', []) := by
  have hclear : ((alone t np e).run C ls).map (fun r => (r.1.close, r.2)) =
      ((alone t np false).run C ls).map fun r => (r.1.close, r.2) := Machine.run_clear hC ls (alone t np false) e
  rcases run_closed hleads (m := alone t np false) rfl with hm | ⟨m, hfin, hm⟩
  · rw [hm, Option.map_none, Option.map_eq_none_iff] at hclear
    exact .inl ⟨hm, hclear⟩
  · rcases run_closed hleads (m := alone t np e) rfl with hm' | ⟨m', hfin', hm'⟩
    · rw [hm, hm'] at hclear
      cases hclear
    · rw [hm, hm', Option.map_some, Option.map_some, close_finished hfin, close_finished hfin'] at hclear
      have hical := Option.some.inj (Prod.mk.inj (Option.some.inj hclear)).1
      exact .inr ⟨m, m', hfin, hfin', hical.symm, hm, hm'⟩

end Machine

def blockRecords (C : Libc) (b : List Bytes) (t : IcalType) : List IcalComp := ((icalBlock C b).getD fun _ => []) t

section
variable (hC : ∀ e, C.errnoAt e = false)
include hC

/-- A block within a component: rejected where it is rejected alone, and its components
are added to those before it. -/
theorem run_block {b : List Bytes} (hb : TopBlock b) {m : Machine} {c : CompRef} {cs : List CompRef} (hopened : m.opened = c :: cs)
    (hblock : m.block = none) (more : List Bytes) : icalBlock C b = none ∧ m.run C (b ++ more) = none ∨
      (icalBlock C b).isSome ∧ ∃ m' : Machine, m'.opened = c :: cs ∧ m'.block = none ∧
        (∀ t, m'.ical.comps t = m.ical.comps t ++ blockRecords C b t) ∧ m.run C (b ++ more) = m'.run C more := by
  obtain ⟨_, _, i, e⟩ := m
  cases hopened
  cases hblock
  cases b with
  | nil =>
    cases hb with
    | comp _ h => cases h
    | zone h => cases h
  | cons l ls =>
    obtain ⟨t, hl, hleads, hrules⟩ := @TopBlock.leads C l ls hb
    rw [beginsLine, Option.any_eq_true] at hl
    obtain ⟨np, hnode, hl⟩ := hl
    obtain ⟨hbegin, hname⟩ := Bool.and_eq_true_iff.mp hl
    have ht := icalTypeOf_self hname
    have hline : (⟨c :: cs, none, i, e⟩ : Machine).line C np = _ := (Machine.line_eq_some C).mpr (.beginComp hbegin ht)
    have hrun (ls : List Bytes) : (⟨c :: cs, none, i, e⟩ : Machine).run C (l :: ls) =
        (⟨⟨t, (i.comps t).length⟩ :: c :: cs, none, (i.push np).alloc t, e⟩ : Machine).run C ls := by
      rw [Machine.run, if_neg (by simp [Machine.finished]), hnode, Option.bind_some, hline, Option.bind_some]
    have habove : (⟨⟨t, (i.comps t).length⟩ :: c :: cs, none, (i.push np).alloc t, e⟩ : Machine).Above i.comps (c :: cs)
        (.alone t np e) := by
      have hical : (i.push np).Above i.comps (Ical.empty.push np) := fun t => (List.append_nil _).symm
      exact ⟨rfl, rfl, hical.alloc t, rfl, by simp [Machine.alone]⟩
    have hzones : (Machine.alone t np e).OwnZones i.comps ls := by
      rcases hrules with rfl | hrules
      · exact .inr (.inl (by simp [Machine.alone, Ical.alloc]))
      · exact .inr (.inr hrules)
    have hicalBlock : icalBlock C (l :: ls) = ((Machine.alone t np false).run C ls).map fun r => r.1.ical.comps := by
      rw [icalBlock, hnode, Option.bind_some, ht, Option.bind_some]
    obtain ⟨hnone, hsome⟩ := habove.run (C := C) hzones
    rw [List.cons_append, hrun]
    rcases Machine.alone_clear hC hleads e with ⟨hm, hm'⟩ | ⟨n, n', -, hfin, hical, hm, hm'⟩
    · rw [hm] at hicalBlock
      exact .inl ⟨hicalBlock, Machine.run_append_none more (hnone hm')⟩
    · rw [hm] at hicalBlock
      obtain ⟨m', hm₁, hrun⟩ := hsome n' [] hm'
      obtain ⟨hopened, hblock⟩ := Machine.finished_iff.mp hfin
      refine .inr ⟨by rw [hicalBlock]; rfl, m', ?_, hm₁.block.trans hblock, fun t => ?_, Machine.run_append hrun⟩
      · rw [hm₁.opened, hopened]
        rfl
      · rw [hm₁.ical t, blockRecords, hicalBlock, ← hical]
        rfl

/-- The blocks of a body, one after the other. -/
theorem run_blocks {c : CompRef} {cs : List CompRef} (more : List Bytes) {bs : List (List Bytes)} : (∀ b ∈ bs, TopBlock b) →
    ∀ {m : Machine}, m.opened = c :: cs → m.block = none →
      (¬∀ b ∈ bs, (icalBlock C b).isSome) ∧ m.run C (bs.flatten ++ more) = none ∨
      (∀ b ∈ bs, (icalBlock C b).isSome) ∧ ∃ m' : Machine, m'.opened = c :: cs ∧ m'.block = none ∧
        (∀ t, m'.ical.comps t = m.ical.comps t ++ bs.flatMap fun b => blockRecords C b t) ∧
        m.run C (bs.flatten ++ more) = m'.run C more := by
  induction bs with
  | nil =>
    intro _ m hopened hblock
    exact .inr ⟨by simp, m, hopened, hblock, by simp, rfl⟩
  | cons b bs ih =>
    intro hbs m hopened hblock
    obtain ⟨hb, hbs⟩ := List.forall_mem_cons.mp hbs
    rw [List.flatten_cons, List.append_assoc, List.forall_mem_cons]
    rcases run_block hC hb hopened hblock (bs.flatten ++ more) with ⟨hnone, hrun⟩ | ⟨hsome, m₁, hopened₁, hblock₁, hcomps, hrun⟩
    · refine .inl ⟨fun h => ?_, hrun⟩
      rw [hnone] at h
      cases h.1
    · rw [hrun]
      rcases ih hbs hopened₁ hblock₁ with ⟨hnone, hrest⟩ | ⟨hall, m', hopened', hblock', hcomps', hrest⟩
      · exact .inl ⟨fun h => hnone h.2, hrest⟩
      · refine .inr ⟨⟨hsome, hall⟩, m', hopened', hblock', fun t => ?_, hrest⟩
        rw [hcomps', hcomps, List.append_assoc, List.flatMap_cons]

end

/-! ## Whole calendars -/

/-- The calendar is open, and nothing else has begun. -/
structure Machine.Heading (m : Machine) : Prop where
  opened : m.opened = [⟨.vcalendar, 0⟩]
  block : m.block = none
  calendar : (m.ical.comp? ⟨.vcalendar, 0⟩).isSome
  others : ∀ t ≠ .vcalendar, m.ical.comps t = []

/-- The plain lines at the start of a calendar. -/
theorem run_heading {hs : List Bytes} (hhs : ∀ l ∈ hs, plainLine l) : ∀ {m : Machine}, m.Heading →
    m.run C hs = none ∨ ∃ m' : Machine, m'.Heading ∧ m.run C hs = some (m', []) := by
  induction hs with
  | nil => exact fun {m} hm => .inr ⟨m, hm, rfl⟩
  | cons l hs ih =>
    intro m hm
    obtain ⟨hl, hhs⟩ := List.forall_mem_cons.mp hhs
    have hopen : ¬m.finished := by
      intro hfin
      obtain ⟨hnil, -⟩ := Machine.finished_iff.mp hfin
      cases hm.opened.symm.trans hnil
    rw [Machine.run, if_neg hopen]
    cases hnode : lineNode l with
    | none => exact .inl rfl
    | some np =>
      rw [plainLine, hnode, Option.all_some, Bool.and_eq_true, Bool.not_eq_true', Bool.not_eq_true'] at hl
      rw [Option.bind_some]
      cases hline : m.line C np with
      | none => exact .inl rfl
      | some m₁ =>
        refine ih hhs ?_
        obtain ⟨opened, block, i, e⟩ := m
        obtain ⟨hopened, hblock, hcal, hothers⟩ := hm
        cases hopened
        cases hblock
        cases (Machine.line_eq_some C).mp hline with
        | beginComp h => rw [hl.1] at h; cases h
        | beginBlock h => rw [hl.1] at h; cases h
        | unknown h => rw [hl.1] at h; cases h
        | endComp _ h => rw [hl.2] at h; cases h
        | skip _ h => rw [hl.2] at h; cases h
        | field =>
          refine ⟨rfl, rfl, ?_, fun t ht => (if_neg ht).trans (hothers t ht)⟩
          rw [Ical.comp?_write, if_pos rfl, Option.isSome_map]
          exact hcal

/-- The line that ends the calendar. -/
theorem run_ending {l : Bytes} (hl : endsLine IcalType.vcalendar.name l) (rest : List Bytes) {m : Machine}
    (hopened : m.opened = [⟨.vcalendar, 0⟩]) (hblock : m.block = none) :
    ¬(compAt ⟨.vcalendar, 0⟩ m.ical).Complete ∧ m.run C (l :: rest) = none ∨
      (compAt ⟨.vcalendar, 0⟩ m.ical).Complete ∧ ∃ m' : Machine, m'.finished ∧ m'.ical.comps = m.ical.comps ∧
        m.run C (l :: rest) = some (m', rest) := by
  obtain ⟨_, _, i, e⟩ := m
  cases hopened
  cases hblock
  rw [endsLine, Option.any_eq_true] at hl
  obtain ⟨np, hnode, hl⟩ := hl
  obtain ⟨hend, hname⟩ := Bool.and_eq_true_iff.mp hl
  have hbegin : ¬np.isBegin := fun h => begin_not_end h hend
  rw [Machine.run, if_neg (by simp [Machine.finished]), hnode, Option.bind_some]
  by_cases hcomplete : (compAt ⟨.vcalendar, 0⟩ i).Complete
  · have hline : (⟨[⟨.vcalendar, 0⟩], none, i, e⟩ : Machine).line C np = _ :=
      (Machine.line_eq_some C).mpr (.endComp hbegin hend hname hcomplete)
    rw [hline, Option.bind_some]
    exact .inr ⟨hcomplete, ⟨[], none, i.push np, e⟩, rfl, rfl, Machine.run_done (.inl rfl)⟩
  · refine .inl ⟨hcomplete, ?_⟩
    have hline : (⟨[⟨.vcalendar, 0⟩], none, i, e⟩ : Machine).line C np = none :=
      (if_neg hbegin).trans ((if_pos hend).trans ((if_pos hname).trans (if_neg hcomplete)))
    rw [hline]
    rfl

/-- Components after it leave a component where it is. -/
theorem compAt_append {i j : Ical} {r : IcalType → List IcalComp} (h : ∀ t, i.comps t = j.comps t ++ r t) {c : CompRef}
    (hc : (j.comp? c).isSome) : compAt c i = compAt c j := by
  have hlt : c.idx < (j.comps c.type).length := by simpa [Ical.comp?] using hc
  rw [compAt, compAt, Ical.comp?, Ical.comp?, h, List.getElem?_append_left hlt]

/-- A calendar of blocks before its time zones are linked. -/
def blocksIcal (C : Libc) (head : IcalType → List IcalComp) (bs : List (List Bytes)) : Ical :=
  ⟨0, [], fun t => head t ++ bs.flatMap fun b => blockRecords C b t⟩

/-- A calendar of blocks is accepted where its heading is and every block alone is, and
every time zone is found; its components are the heading's and those of each block alone. -/
theorem icalMachine_blocks (hC : ∀ e, C.errnoAt e = false) (erange : Bool) {l e : Bytes} {hs : List Bytes}
    (hl : beginsLine IcalType.vcalendar.name l) (hhs : ∀ h ∈ hs, plainLine h) (he : endsLine IcalType.vcalendar.name e) :
    ∃ heading : Option (IcalType → List IcalComp), (∀ head ∈ heading, ∀ t ≠ .vcalendar, head t = []) ∧
      ∀ (bs : List (List Bytes)) (rest : List Bytes), (∀ b ∈ bs, TopBlock b) → ∀ cs,
        (icalMachine C erange (l :: (hs ++ (bs.flatten ++ e :: rest)))).map (fun r => r.1.comps) = some cs ↔
          ∃ head ∈ heading, (∀ b ∈ bs, (icalBlock C b).isSome) ∧ (∀ t, ∀ c ∈ (blocksIcal C head bs).comps t, c.Sound t) ∧
            (blocksIcal C head bs).Found ∧ cs = (blocksIcal C head bs).link.comps := by
  rw [beginsLine, Option.any_eq_true] at hl
  obtain ⟨np, hnode, hl⟩ := hl
  obtain ⟨hbegin, hname⟩ := Bool.and_eq_true_iff.mp hl
  have htest : (np.isBegin && strcaseEq np.val (ascii "VCALENDAR")) = true := by
    rw [strcaseEq_comm, Bool.and_eq_true]
    exact ⟨hbegin, hname⟩
  have hstart : (Machine.start np erange).Heading := ⟨rfl, rfl, rfl, fun t ht => if_neg ht⟩
  rcases run_heading (C := C) hhs hstart with hnone | ⟨m₀, hm₀, hrun⟩
  · refine ⟨none, by simp, fun bs rest _ cs => ?_⟩
    rw [icalMachine_comps hnode, if_pos htest, Machine.run_append_none _ hnone]
    simp
  by_cases hcomplete : (compAt ⟨.vcalendar, 0⟩ m₀.ical).Complete
  · refine ⟨some m₀.ical.comps, by rintro _ ⟨⟩; exact hm₀.others, fun bs rest hbs cs => ?_⟩
    rw [icalMachine_comps hnode, if_pos htest, Machine.run_append hrun]
    rcases run_blocks hC (e :: rest) hbs hm₀.opened hm₀.block with ⟨hnone, hrej⟩ | ⟨hall, m', hopened, hblock, hcomps, hblocks⟩
    · rw [hrej]
      constructor
      · rintro ⟨⟩
      · rintro ⟨-, -, hall, -⟩
        exact absurd hall hnone
    · have hcal := compAt_append hcomps hm₀.calendar
      rcases run_ending (C := C) he rest hopened hblock with ⟨hn, -⟩ | ⟨-, m'', hfin, hsame, hend⟩
      · rw [hcal] at hn
        exact absurd hcomplete hn
      · have hlinked : m''.ical.comps = (blocksIcal C m₀.ical.comps bs).comps := hsame.trans (funext hcomps)
        rw [hblocks, hend, Option.bind_some, Machine.close_finished hfin, Option.bind_some, icalLink_comps hlinked,
          Option.map_eq_some_iff]
        have hsound : m''.Sound := by
          have hwhole : (Machine.start np erange).run C (hs ++ (bs.flatten ++ e :: rest)) = some (m'', rest) := by
            rw [Machine.run_append hrun, hblocks, hend]
          exact (Machine.sound_start np erange).run hwhole
        constructor
        · rintro ⟨j, hj, rfl⟩
          obtain ⟨hfound, rfl⟩ := icalLink_eq_some.mp hj
          refine ⟨_, rfl, hall, fun t c hc => ?_, hfound, rfl⟩
          rw [← hlinked] at hc
          obtain ⟨k, hk⟩ := Ical.mem_comps_iff.mp hc
          exact (hsound.comp _ c hk).1
        · rintro ⟨_, ⟨⟩, -, -, hfound, rfl⟩
          exact ⟨_, icalLink_eq_some.mpr ⟨hfound, rfl⟩, rfl⟩
  · refine ⟨none, by simp, fun bs rest hbs cs => ?_⟩
    rw [icalMachine_comps hnode, if_pos htest, Machine.run_append hrun]
    have hrejected : m₀.run C (bs.flatten ++ e :: rest) = none := by
      rcases run_blocks hC (e :: rest) hbs hm₀.opened hm₀.block with ⟨-, hrej⟩ | ⟨-, m', hopened, hblock, hcomps, hblocks⟩
      · exact hrej
      · rcases run_ending (C := C) he rest hopened hblock with ⟨-, hend⟩ | ⟨hc, -⟩
        · rw [hblocks, hend]
        · rw [compAt_append hcomps hm₀.calendar] at hc
          exact absurd hc hcomplete
    rw [hrejected]
    simp

/-! ## Permutations -/

/-- Where at most one element passes, the first that passes does not depend on the order. -/
theorem find?_perm {α : Type} {p : α → Bool} {xs ys : List α} (h : xs.Perm ys)
    (hone : ∀ x ∈ xs, ∀ y ∈ xs, p x → p y → x = y) : xs.find? p = ys.find? p := by
  cases hx : xs.find? p with
  | none =>
    rw [List.find?_eq_none] at hx
    exact (List.find?_eq_none.mpr fun y hy => hx y (h.mem_iff.mpr hy)).symm
  | some x =>
    have hpx := List.find?_some hx
    have hmem := List.mem_of_find?_eq_some hx
    cases hy : ys.find? p with
    | none => exact absurd hpx (List.find?_eq_none.mp hy x (h.mem_iff.mp hmem))
    | some y =>
      have hymem := h.mem_iff.mpr (List.mem_of_find?_eq_some hy)
      rw [hone x hmem y hymem hpx (List.find?_some hy)]

theorem blocksIcal_perm {head : IcalType → List IcalComp} {bs bs' : List (List Bytes)} (h : bs.Perm bs') (t : IcalType) :
    ((blocksIcal C head bs).comps t).Perm ((blocksIcal C head bs').comps t) :=
  (h.flatMap_right _).append_left _

theorem findZone_isSome {zones : List IcalComp} {tzstr : Bytes} :
    (findZone zones tzstr).isSome ↔ ∃ z ∈ zones, strcaseEq (z.tzid.getD []) tzstr := by
  rw [findZone, List.findIdx?_isSome, List.any_eq_true]

theorem IcalTime.Found.perm {zones zones' : List IcalComp} (h : zones.Perm zones') {tm : IcalTime} (hfound : tm.Found zones) :
    tm.Found zones' := by
  intro tzstr htz
  obtain ⟨z, hz, hname⟩ := findZone_isSome.mp (hfound tzstr htz)
  exact findZone_isSome.mpr ⟨z, h.mem_iff.mp hz, hname⟩

theorem Ical.Found.perm {i j : Ical} (h : ∀ t, (i.comps t).Perm (j.comps t)) (hfound : i.Found) : j.Found := by
  intro t c hc
  have hboth := hfound t c ((h t).mem_iff.mpr hc)
  exact ⟨hboth.dtstart.perm (h _), hboth.dtend.perm (h _)⟩

/-! ## Bound components -/

/-- The component without its links. -/
def IcalComp.unlinked (c : IcalComp) : IcalComp :=
  { c with dtstart := { c.dtstart with tz := none }, dtend := { c.dtend with tz := none } }

/-- A component's record, and the time zone records its dates are bound to. -/
structure BoundComp where
  comp : IcalComp
  dtstart : Option IcalComp
  dtend : Option IcalComp
  deriving DecidableEq, Repr

/-- The time zone a date is bound to. -/
def Ical.zoneOf (i : Ical) (tm : IcalTime) : Option IcalComp :=
  (tm.tz.bind fun k => (i.comps .vtimezone)[k]?).map IcalComp.unlinked

def Ical.bound (i : Ical) (t : IcalType) : List BoundComp :=
  (i.comps t).map fun c => ⟨c.unlinked, i.zoneOf c.dtstart, i.zoneOf c.dtend⟩

/-- The time zone of a date's name. -/
def namedZone (zones : List IcalComp) (tm : IcalTime) : Option IcalComp :=
  (tm.tzstr.bind fun tzstr => zones.find? fun z => strcaseEq (z.tzid.getD []) tzstr).map IcalComp.unlinked

theorem IcalComp.unlinked_link (zones : List IcalComp) (c : IcalComp) : (c.link zones).unlinked = c.unlinked := by
  simp [unlinked, link]

/-- Linking binds a date to the first time zone of its name. -/
theorem Ical.zoneOf_link {i : Ical} {tm : IcalTime} (h : tm.tz = none) :
    i.link.zoneOf (tm.link (i.comps .vtimezone)) = namedZone (i.comps .vtimezone) tm := by
  unfold zoneOf namedZone IcalTime.link
  cases htz : tm.tzstr with
  | none =>
    dsimp only
    rw [h]
    rfl
  | some tzstr =>
    have hget (k : Nat) : (i.link.comps .vtimezone)[k]? = ((i.comps .vtimezone)[k]?).map (IcalComp.link (i.comps .vtimezone)) := by
      rw [Ical.link_comps, List.getElem?_map]
    dsimp only
    rw [Option.bind_some, List.find?_eq_bind_findIdx?_getElem?, findZone, Option.map_bind, Option.map_bind]
    refine Option.bind_congr fun k _ => ?_
    rw [Function.comp_apply, Function.comp_apply, hget, Option.map_map]
    exact congrArg (fun f => Option.map f _) (funext (IcalComp.unlinked_link _))

/-- A component with its dates bound to the time zones of their names. -/
def bindComp (zones : List IcalComp) (c : IcalComp) : BoundComp := ⟨c.unlinked, namedZone zones c.dtstart, namedZone zones c.dtend⟩

theorem Ical.bound_congr {i j : Ical} (h : i.comps = j.comps) (t : IcalType) : i.bound t = j.bound t := by
  simp only [bound, zoneOf, h]

theorem Ical.bound_link {i : Ical} (h : ∀ t, ∀ c ∈ i.comps t, c.Sound t) (t : IcalType) :
    i.link.bound t = (i.comps t).map (bindComp (i.comps .vtimezone)) := by
  rw [bound, link_comps, List.map_map]
  refine List.map_congr_left fun c hc => ?_
  have hsound := h t c hc
  rw [Function.comp_apply, bindComp, IcalComp.unlinked_link]
  exact congrArg₂ (BoundComp.mk c.unlinked) (zoneOf_link hsound.dtstart.tz) (zoneOf_link hsound.dtend.tz)

/-- The time zones of the blocks. -/
def blockZones (C : Libc) (bs : List (List Bytes)) : List IcalComp := bs.flatMap fun b => blockRecords C b .vtimezone

/-- Time zones of different names. -/
def OtherTzid (z z' : IcalComp) : Prop := ¬strcaseEq (z.tzid.getD []) (z'.tzid.getD [])

instance : Std.Symm OtherTzid where
  symm z z' h := by
    rw [OtherTzid, strcaseEq_comm]
    exact h

/-- With distinct names the time zone of a name does not depend on the order. -/
theorem namedZone_perm {bs bs' : List (List Bytes)} (h : bs.Perm bs')
    (hzones : (blockZones C bs).Pairwise OtherTzid) (tm : IcalTime) :
    namedZone (blockZones C bs') tm = namedZone (blockZones C bs) tm := by
  unfold namedZone
  congr 1
  refine Option.bind_congr fun tzstr _ => (find?_perm (h.flatMap_right _) fun z hz z' hz' hname hname' => ?_).symm
  by_contra hne
  rw [strcaseEq_comm] at hname'
  exact hzones.forall hz hz' hne (strcaseEq_trans hname hname')

/-- The components of a block by itself, with their dates bound. -/
def boundRecords (C : Libc) (zones : List IcalComp) (b : List Bytes) (t : IcalType) : List BoundComp :=
  (blockRecords C b t).map (bindComp zones)

/-- The blocks of a calendar in any order: both calendars are accepted or neither, and then
each has the bound components of its blocks, which do not depend on the order. -/
theorem icalParse_perm (C : Libc) (hC : ∀ e, C.errnoAt e = false) (file : Option String) (erange : Bool) (l e : Bytes)
    (hs rest : List Bytes) (bs bs' : List (List Bytes)) (b b' : Bytes) (hl : beginsLine IcalType.vcalendar.name l)
    (hhs : ∀ h ∈ hs, plainLine h) (hbs : ∀ x ∈ bs, TopBlock x) (he : endsLine IcalType.vcalendar.name e) (hperm : bs.Perm bs')
    (hzones : (blockZones C bs).Pairwise OtherTzid) (hb : unfoldLines b = l :: (hs ++ (bs.flatten ++ e :: rest)))
    (hb' : unfoldLines b' = l :: (hs ++ (bs'.flatten ++ e :: rest))) :
    ((icalParse C file erange b 0).1.isSome ↔ (icalParse C file erange b' 0).1.isSome) ∧
    ∀ i n i' n', (icalParse C file erange b 0).1 = some (i, n) → (icalParse C file erange b' 0).1 = some (i', n') →
      ∃ cal : IcalType → List BoundComp, (∀ t ≠ .vcalendar, cal t = []) ∧ ∀ t,
        i.bound t = cal t ++ bs.flatMap (fun x => boundRecords C (blockZones C bs) x t) ∧
        i'.bound t = cal t ++ bs'.flatMap (fun x => boundRecords C (blockZones C bs) x t) := by
  obtain ⟨heading, hcal, hmade⟩ := icalMachine_blocks hC erange hl hhs he
  have hbs' : ∀ x ∈ bs', TopBlock x := fun x hx => hbs x (hperm.mem_iff.mpr hx)
  have made := hmade bs rest hbs
  have made' := hmade bs' rest hbs'
  rw [← hb, ← icalParse_comps] at made
  rw [← hb', ← icalParse_comps] at made'
  have hcomps (head : IcalType → List IcalComp) (t : IcalType) :
      ((blocksIcal C head bs).comps t).Perm ((blocksIcal C head bs').comps t) := blocksIcal_perm hperm t
  have accepted (o : Option (Ical × Nat)) : o.isSome ↔ ∃ cs, o.map (fun r => r.1.comps) = some cs := by
    cases o <;> simp
  constructor
  · rw [accepted, accepted (icalParse C file erange b' 0).1]
    constructor
    · rintro ⟨cs, hcs⟩
      obtain ⟨head, hhead, hall, hsound, hfound, -⟩ := (made cs).mp hcs
      exact ⟨_, (made' _).mpr ⟨head, hhead, fun x hx => hall x (hperm.mem_iff.mpr hx),
        fun t c hc => hsound t c ((hcomps head t).mem_iff.mpr hc), hfound.perm (hcomps head), rfl⟩⟩
    · rintro ⟨cs, hcs⟩
      obtain ⟨head, hhead, hall, hsound, hfound, -⟩ := (made' cs).mp hcs
      exact ⟨_, (made _).mpr ⟨head, hhead, fun x hx => hall x (hperm.mem_iff.mp hx),
        fun t c hc => hsound t c ((hcomps head t).mem_iff.mp hc), hfound.perm fun t => (hcomps head t).symm, rfl⟩⟩
  · intro i n i' n' hi hi'
    obtain ⟨head, hhead, -, hsound, -, hcs⟩ := (made i.comps).mp (by rw [hi]; rfl)
    obtain ⟨head', hhead', -, hsound', -, hcs'⟩ := (made' i'.comps).mp (by rw [hi']; rfl)
    obtain rfl : head = head' := Option.some.inj (hhead.symm.trans hhead')
    have bound {i : Ical} {bs : List (List Bytes)} (hsound : ∀ t, ∀ c ∈ (blocksIcal C head bs).comps t, c.Sound t)
        (hcs : i.comps = (blocksIcal C head bs).link.comps) (t : IcalType) : i.bound t =
          (head t).map (bindComp (blockZones C bs)) ++ bs.flatMap fun x => boundRecords C (blockZones C bs) x t := by
      have hzones : (blocksIcal C head bs).comps .vtimezone = blockZones C bs := by
        change head .vtimezone ++ blockZones C bs = _
        rw [hcal head hhead .vtimezone (by decide), List.nil_append]
      rw [Ical.bound_congr hcs, Ical.bound_link hsound, hzones]
      exact (List.map_append ..).trans (congrArg (_ ++ ·) (List.map_flatMap ..))
    have hsame : bindComp (blockZones C bs') = bindComp (blockZones C bs) := by
      funext c
      rw [bindComp, bindComp, namedZone_perm hperm hzones, namedZone_perm hperm hzones]
    refine ⟨fun t => (head t).map (bindComp (blockZones C bs)), fun t ht => ?_, fun t => ⟨bound hsound hcs t, ?_⟩⟩
    · dsimp only
      rw [hcal head hhead t ht, List.map_nil]
    · rw [bound hsound' hcs' t, hsame]
      simp only [boundRecords, hsame]

def eventBlock : List Bytes := ["BEGIN:VEVENT", "UID:a", "DTSTART;TZID=Z:20200101T120000", "END:VEVENT"].map ascii
def zoneBlock : List Bytes := ["BEGIN:VTIMEZONE", "TZID:z", "BEGIN:STANDARD", "DTSTART:20191001T000000", "TZOFFSETFROM:+0200",
  "TZOFFSETTO:+0100", "END:STANDARD", "END:VTIMEZONE"].map ascii

def Libc.utcClear : Libc := { Libc.utc with errnoAt := fun _ => false, errnoAt_false := rfl }

def calendarText (bs : List (List Bytes)) : Bytes :=
  ([ascii "BEGIN:VCALENDAR", ascii "VERSION:2.0"] ++ bs.flatten ++ [ascii "END:VCALENDAR"]).flatMap fun l => l ++ [LF]

theorem eventBlock_top : TopBlock eventBlock := by
  have hbody : BodyLines AlarmBlock (["UID:a", "DTSTART;TZID=Z:20200101T120000"].map ascii) :=
    .line (by decide) (.line (by decide) .nil)
  exact .comp (t := .vevent) (by decide) (.intro (by decide) hbody (by decide))

theorem zoneBlock_top : TopBlock zoneBlock := by
  have hrule : BodyLines (fun _ => False) (["DTSTART:20191001T000000", "TZOFFSETFROM:+0200", "TZOFFSETTO:+0100"].map ascii) :=
    .line (by decide) (.line (by decide) (.line (by decide) .nil))
  have hstandard : RuleBlock (["BEGIN:STANDARD", "DTSTART:20191001T000000", "TZOFFSETFROM:+0200", "TZOFFSETTO:+0100", "END:STANDARD"].map ascii) :=
    ⟨.standard, .intro (by decide) hrule (by decide)⟩
  have hbody : BodyLines RuleBlock (["TZID:z", "BEGIN:STANDARD", "DTSTART:20191001T000000", "TZOFFSETFROM:+0200", "TZOFFSETTO:+0100",
      "END:STANDARD"].map ascii) := .line (by decide) (.block hstandard .nil)
  exact .zone (.intro (by decide) hbody (by decide))

/-- An event before its time zone and after it. -/
theorem icalParse_perm_forward : (icalParse .utcClear none false (calendarText [eventBlock, zoneBlock]) 0).1.isSome ∧
    (icalParse .utcClear none false (calendarText [zoneBlock, eventBlock]) 0).1.isSome := by
  have haccepted : (icalParse .utcClear none false (calendarText [eventBlock, zoneBlock]) 0).1.isSome := by decide +kernel
  have hblocks : ∀ x ∈ [eventBlock, zoneBlock], TopBlock x :=
    List.forall_mem_cons.mpr ⟨eventBlock_top, List.forall_mem_singleton.mpr zoneBlock_top⟩
  have hzones : (blockZones .utcClear [eventBlock, zoneBlock]).Pairwise OtherTzid := by
    have hone : (blockZones .utcClear [eventBlock, zoneBlock]).length = 1 := by decide +kernel
    obtain ⟨z, hz⟩ := List.length_eq_one_iff.mp hone
    rw [hz]
    exact List.pairwise_singleton _ _
  have hsame := icalParse_perm .utcClear (fun _ => rfl) none false (ascii "BEGIN:VCALENDAR") (ascii "END:VCALENDAR")
    [ascii "VERSION:2.0"] [] [eventBlock, zoneBlock] [zoneBlock, eventBlock] (calendarText [eventBlock, zoneBlock])
    (calendarText [zoneBlock, eventBlock]) (by decide) (by decide) hblocks (by decide) (.swap _ _ _) hzones
    (by decide +kernel) (by decide +kernel)
  exact ⟨haccepted, hsame.1.mp haccepted⟩

end Kcaldav
