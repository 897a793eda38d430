import Kcaldav.Ical.Scope
import Kcaldav.Ical.Wellformed

/-! # What one line sets

A property line names one field of the record it stands in, and what it sets there does
not depend on the others; only a rule is read over the one that is there. Lines of
different names therefore set their fields in any order, for components and for the
blocks of a time zone alike.
-/
namespace Kcaldav
open CString Fallible

/-! ## Records with named fields -/

/-- A record of type `R` with fields that lines set: what a line sets, if its value is valid, and how. -/
structure LineFields (R V : Type) where
  value : IcalNode → IcalRrule → Option (Option V)
  name : V → Bytes
  set : R → V → R
  rrule : R → IcalRrule
  named : ∀ np vp v, value np vp = some (some v) → strcaseEq np.name (name v)
  steady : ∀ np vp vp', ¬strcaseEq np.name (ascii "rrule") → value np vp = value np vp'
  set_comm : ∀ c v w, name v ≠ name w → set (set c v) w = set (set c w) v
  set_rrule : ∀ c v, ¬strcaseEq (name v) (ascii "rrule") → rrule (set c v) = rrule c

namespace LineFields
variable {R V : Type} (F : LineFields R V)

/-- The record with what a line sets. -/
def put (c : R) (v : Option V) : R := v.elim c (F.set c)

def step (c : R) (np : IcalNode) : Option R := (F.value np (F.rrule c)).map (F.put c)

/-- The record after a number of lines. -/
def run (c : R) (ns : List IcalNode) : Option R := ns.foldlM F.step c

variable {F} {np np' : IcalNode} {c : R}

@[simp] theorem run_nil : F.run c [] = some c := rfl
theorem run_cons (ns : List IcalNode) : F.run c (np :: ns) = (F.step c np).bind fun c => F.run c ns := List.foldlM_cons

theorem not_named_alike (h : ¬strcaseEq np.name np'.name) {a b : Bytes} (ha : strcaseEq np.name a) (hb : strcaseEq np'.name b) :
    ¬strcaseEq a b := by
  intro hab
  rw [strcaseEq_comm] at hb
  exact h (strcaseEq_trans (strcaseEq_trans ha hab) hb)

/-- What another line sets does not change the value of a line. -/
theorem value_put (h : ¬strcaseEq np.name np'.name) {v : Option V} (hv : F.value np (F.rrule c) = some v) :
    F.value np' (F.rrule (F.put c v)) = F.value np' (F.rrule c) := by
  cases v with
  | none => rfl
  | some v =>
    by_cases hrrule : strcaseEq np'.name (ascii "rrule")
    · exact congrArg _ (F.set_rrule c v (not_named_alike h (F.named np _ v hv) hrrule))
    · exact F.steady np' _ _ hrrule

theorem put_comm (h : ¬strcaseEq np.name np'.name) {v w : Option V} (hv : F.value np (F.rrule c) = some v)
    (hw : F.value np' (F.rrule c) = some w) : F.put (F.put c v) w = F.put (F.put c w) v := by
  cases v with
  | none => rfl
  | some v =>
    cases w with
    | none => rfl
    | some w =>
      refine F.set_comm c v w fun hname => ?_
      have halike := not_named_alike h (F.named np _ v hv) (F.named np' _ w hw)
      rw [hname] at halike
      exact halike (strcaseEq_refl _)

/-- Lines of different names set their fields in either order. -/
theorem step_comm (h : ¬strcaseEq np.name np'.name) (c : R) :
    (F.step c np).bind (F.step · np') = (F.step c np').bind (F.step · np) := by
  have h' : ¬strcaseEq np'.name np.name := by
    rw [strcaseEq_comm]
    exact h
  unfold step
  cases hv : F.value np (F.rrule c) with
  | none =>
    cases hw : F.value np' (F.rrule c) with
    | none => rfl
    | some w =>
      rw [Option.map_none, Option.bind_none, Option.map_some, Option.bind_some, value_put h' hw, hv]
      rfl
  | some v =>
    cases hw : F.value np' (F.rrule c) with
    | none =>
      rw [Option.map_none, Option.bind_none, Option.map_some, Option.bind_some, value_put h hv, hw]
      rfl
    | some w =>
      rw [Option.map_some, Option.bind_some, value_put h hv, hw, Option.map_some, Option.map_some, Option.bind_some,
        value_put h' hw, hv]
      exact congrArg some (put_comm h hv hw)

/-- Lines of different names may stand in any order. -/
theorem run_perm {ns ns' : List IcalNode} (h : ns.Perm ns') (hne : ns.Pairwise fun a b => ¬strcaseEq a.name b.name) (c : R) :
    F.run c ns = F.run c ns' := by
  induction h generalizing c with
  | nil => rfl
  | cons np _ ih =>
    rw [run_cons, run_cons]
    exact congrArg _ (funext fun c => ih hne.of_cons c)
  | swap a b ns =>
    have hab : ¬strcaseEq b.name a.name := List.rel_of_pairwise_cons hne List.mem_cons_self
    simp only [run_cons]
    rw [← Option.bind_assoc, ← Option.bind_assoc, step_comm hab]
  | trans hperm _ ih ih' =>
    rw [ih hne, ih' ((hperm.pairwise_iff fun {a b} hab => ?_).mp hne)]
    rw [strcaseEq_comm]
    exact hab

end LineFields

/-! ## Components -/

/-- What a line sets of a component. -/
inductive CompValue
  | uid (v : Bytes)
  | created (v : IcalTm)
  | lastmod (v : IcalTm)
  | dtstamp (v : IcalTm)
  | dtstart (v : IcalTime)
  | dtend (v : IcalTime)
  | duration (v : IcalDur)
  | tzid (v : Bytes)
  | rrule (v : IcalRrule)

namespace CompValue

def name : CompValue → Bytes
  | uid _ => ascii "uid"
  | created _ => ascii "created"
  | lastmod _ => ascii "last-modified"
  | dtstamp _ => ascii "dtstamp"
  | dtstart _ => ascii "dtstart"
  | dtend _ => ascii "dtend"
  | duration _ => ascii "duration"
  | tzid _ => ascii "tzid"
  | rrule _ => ascii "rrule"

def set (c : IcalComp) : CompValue → IcalComp
  | uid v => { c with uid := some v }
  | created v => { c with created := v }
  | lastmod v => { c with lastmod := v }
  | dtstamp v => { c with dtstamp := v }
  | dtstart v => { c with dtstart := v }
  | dtend v => { c with dtend := v }
  | duration v => { c with duration := v }
  | tzid v => { c with tzid := some v }
  | rrule v => { c with rrule := v }

theorem set_comm (c : IcalComp) (v w : CompValue) (h : v.name ≠ w.name) : set (set c v) w = set (set c w) v := by
  cases v <;> cases w <;> first | rfl | exact absurd rfl h

theorem set_rrule (c : IcalComp) (v : CompValue) (h : ¬strcaseEq v.name (ascii "rrule")) : (set c v).rrule = c.rrule := by
  cases v <;> first | rfl | exact absurd (strcaseEq_refl _) h

end CompValue

variable (C : Libc)

/-- `icalCompField` without the component, and the bytes it leaves in the node's buffer. -/
def compValue (np : IcalNode) (vp : IcalRrule) : Value (Option CompValue × Bytes) :=
  if strcaseEq np.name (ascii "uid") then
    do return (some (.uid (← icalString np.val)), np.val)
  else if strcaseEq np.name (ascii "created") then
    do return (some (.created (← icalUtcdatetime C np.val)), np.val)
  else if strcaseEq np.name (ascii "last-modified") then
    do return (some (.lastmod (← icalUtcdatetime C np.val)), np.val)
  else if strcaseEq np.name (ascii "dtstamp") then
    do return (some (.dtstamp (← icalUtcdatetime C np.val)), np.val)
  else if strcaseEq np.name (ascii "dtstart") then
    do return (some (.dtstart (← icalTzdatetime C np)), np.val)
  else if strcaseEq np.name (ascii "dtend") then
    do return (some (.dtend (← icalTzdatetime C np)), np.val)
  else if strcaseEq np.name (ascii "duration") then
    do
      let (v, buf) ← icalDuration C np.val
      return (some (.duration v), cstr buf)
  else if strcaseEq np.name (ascii "tzid") then
    do return (some (.tzid (← icalString np.val)), np.val)
  else if strcaseEq np.name (ascii "rrule") then
    do return (some (.rrule (← icalRrule C vp np.val)), np.val)
  else return (none, np.val)

/-- A test in front of two computations is one in front of their continuations. -/
theorem ite_bind {α β : Type} {p : Prop} [Decidable p] {x y : Value α} {f : α → Value β} {x' y' : Value β}
    (hx : x' = x >>= f) (hy : y' = y >>= f) : (if p then x' else y') = (if p then x else y) >>= f := by
  by_cases h : p
  · rw [if_pos h, if_pos h, hx]
  · rw [if_neg h, if_neg h, hy]

theorem icalCompField_eq (np : IcalNode) (c : IcalComp) :
    icalCompField C np c = compValue C np c.rrule >>= fun r => pure (r.1.elim c (CompValue.set c), r.2) := by
  unfold icalCompField compValue
  repeat' apply ite_bind
  all_goals first
    | rw [bind_assoc]
      rfl
    | rfl

theorem compValue_named (np : IcalNode) (vp : IcalRrule) :
    Returns (fun r => ∀ v ∈ r.1, strcaseEq np.name v.name) (compValue C np vp) := by
  have set {α : Type} (x : Value α) {f : α → CompValue × Bytes} (hf : ∀ a, strcaseEq np.name (f a).1.name) :
      Returns (fun r => ∀ v ∈ r.1, strcaseEq np.name v.name) (x >>= fun a => pure (some (f a).1, (f a).2)) := by
    refine .bind (.any x) fun a _ => .pure ?_
    rintro v ⟨⟩
    exact hf a
  unfold compValue
  refine .ite (fun h => ?_) fun _ => .ite (fun h => ?_) fun _ => .ite (fun h => ?_) fun _ => .ite (fun h => ?_) fun _ => ?_
  · exact set (icalString np.val) (f := fun v => (.uid v, np.val)) fun _ => h
  · exact set (icalUtcdatetime C np.val) (f := fun v => (.created v, np.val)) fun _ => h
  · exact set (icalUtcdatetime C np.val) (f := fun v => (.lastmod v, np.val)) fun _ => h
  · exact set (icalUtcdatetime C np.val) (f := fun v => (.dtstamp v, np.val)) fun _ => h
  refine .ite (fun h => ?_) fun _ => .ite (fun h => ?_) fun _ => .ite (fun h => ?_) fun _ => .ite (fun h => ?_) fun _ => ?_
  · exact set (icalTzdatetime C np) (f := fun v => (.dtstart v, np.val)) fun _ => h
  · exact set (icalTzdatetime C np) (f := fun v => (.dtend v, np.val)) fun _ => h
  · exact set (icalDuration C np.val) (f := fun r => (.duration r.1, cstr r.2)) fun _ => h
  · exact set (icalString np.val) (f := fun v => (.tzid v, np.val)) fun _ => h
  refine .ite (fun h => ?_) fun _ => .pure (by simp)
  exact set (icalRrule C vp np.val) (f := fun v => (.rrule v, np.val)) fun _ => h

theorem compValue_steady {np : IcalNode} (h : ¬strcaseEq np.name (ascii "rrule")) (vp vp' : IcalRrule) :
    compValue C np vp = compValue C np vp' := by
  unfold compValue
  rw [if_neg h, if_neg h]

def compFields : LineFields IcalComp CompValue where
  value np vp := (under (compValue C np vp) false).map fun r => r.1.1
  name := CompValue.name
  set := CompValue.set
  rrule := IcalComp.rrule
  named np vp v h := by
    obtain ⟨⟨⟨w, buf⟩, e⟩, hunder, rfl⟩ := Option.map_eq_some_iff.mp h
    exact under_returns (compValue_named C np vp) hunder v rfl
  steady np vp vp' h := by rw [compValue_steady C h vp vp']
  set_comm := CompValue.set_comm
  set_rrule := CompValue.set_rrule

/-! ## Blocks of a time zone -/

/-- What a line sets of a block. -/
inductive TzValue
  | dtstart (v : IcalTm)
  | tzfrom (v : Int)
  | tzto (v : Int)
  | rrule (v : IcalRrule)

namespace TzValue

def name : TzValue → Bytes
  | dtstart _ => ascii "dtstart"
  | tzfrom _ => ascii "tzoffsetfrom"
  | tzto _ => ascii "tzoffsetto"
  | rrule _ => ascii "rrule"

def set (c : IcalTz) : TzValue → IcalTz
  | dtstart v => { c with dtstart := v }
  | tzfrom v => { c with tzfrom := v }
  | tzto v => { c with tzto := v }
  | rrule v => { c with rrule := v }

theorem set_comm (c : IcalTz) (v w : TzValue) (h : v.name ≠ w.name) : set (set c v) w = set (set c w) v := by
  cases v <;> cases w <;> first | rfl | exact absurd rfl h

theorem set_rrule (c : IcalTz) (v : TzValue) (h : ¬strcaseEq v.name (ascii "rrule")) : (set c v).rrule = c.rrule := by
  cases v <;> first | rfl | exact absurd (strcaseEq_refl _) h

end TzValue

/-- `icalTzField` without the block. -/
def tzValue (np : IcalNode) (vp : IcalRrule) : Value (Option TzValue) :=
  if strcaseEq np.name (ascii "dtstart") then
    do return some (.dtstart (← icalLocaldatetime C np.val))
  else if strcaseEq np.name (ascii "tzoffsetfrom") then
    do return some (.tzfrom (← icalUtcOffs np.val))
  else if strcaseEq np.name (ascii "tzoffsetto") then
    do return some (.tzto (← icalUtcOffs np.val))
  else if strcaseEq np.name (ascii "rrule") then
    do return some (.rrule (← icalRrule C vp np.val))
  else return none

theorem icalTzField_eq (np : IcalNode) (c : IcalTz) :
    icalTzField C np c = tzValue C np c.rrule >>= fun v => pure (v.elim c (TzValue.set c)) := by
  unfold icalTzField tzValue
  repeat' apply ite_bind
  all_goals first
    | rw [bind_assoc]
      rfl
    | rfl

theorem tzValue_named (np : IcalNode) (vp : IcalRrule) :
    Returns (fun v => ∀ w ∈ v, strcaseEq np.name w.name) (tzValue C np vp) := by
  have set {α : Type} (x : Value α) {f : α → TzValue} (hf : ∀ a, strcaseEq np.name (f a).name) :
      Returns (fun v => ∀ w ∈ v, strcaseEq np.name w.name) (x >>= fun a => pure (some (f a))) := by
    refine .bind (.any x) fun a _ => .pure ?_
    rintro v ⟨⟩
    exact hf a
  unfold tzValue
  refine .ite (fun h => ?_) fun _ => .ite (fun h => ?_) fun _ => .ite (fun h => ?_) fun _ => .ite (fun h => ?_) fun _ => ?_
  · exact set (icalLocaldatetime C np.val) (f := .dtstart) fun _ => h
  · exact set (icalUtcOffs np.val) (f := .tzfrom) fun _ => h
  · exact set (icalUtcOffs np.val) (f := .tzto) fun _ => h
  · exact set (icalRrule C vp np.val) (f := .rrule) fun _ => h
  · exact .pure (by simp)

theorem tzValue_steady {np : IcalNode} (h : ¬strcaseEq np.name (ascii "rrule")) (vp vp' : IcalRrule) :
    tzValue C np vp = tzValue C np vp' := by
  unfold tzValue
  rw [if_neg h, if_neg h]

def tzFields : LineFields IcalTz TzValue where
  value np vp := (under (tzValue C np vp) false).map Prod.fst
  name := TzValue.name
  set := TzValue.set
  rrule := IcalTz.rrule
  named np vp v h := by
    obtain ⟨⟨w, e⟩, hunder, rfl⟩ := Option.map_eq_some_iff.mp h
    exact under_returns (tzValue_named C np vp) hunder v rfl
  steady np vp vp' h := by rw [tzValue_steady C h vp vp']
  set_comm := TzValue.set_comm
  set_rrule := TzValue.set_rrule

end Kcaldav
