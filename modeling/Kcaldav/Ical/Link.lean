import Kcaldav.Ical.Machine

/-! # Time zone links

What `ical_postparse` makes of a parsed calendar: every date with a time zone name gets
the first time zone component of that name, and where there is none the calendar is
rejected.
-/
namespace Kcaldav
open CString Fallible

/-- The first time zone component of a name. -/
def findZone (zones : List IcalComp) (tzstr : Bytes) : Option Nat :=
  zones.findIdx? fun z => strcaseEq (z.tzid.getD []) tzstr

namespace IcalTime

def link (zones : List IcalComp) (tm : IcalTime) : IcalTime :=
  match tm.tzstr with
  | none => tm
  | some tzstr => { tm with tz := findZone zones tzstr }

def Found (zones : List IcalComp) (tm : IcalTime) : Prop := ∀ tzstr ∈ tm.tzstr, (findZone zones tzstr).isSome

@[simp] theorem link_tzstr (zones : List IcalComp) (tm : IcalTime) : (tm.link zones).tzstr = tm.tzstr := by
  unfold link
  split <;> rfl

@[simp] theorem link_time (zones : List IcalComp) (tm : IcalTime) : (tm.link zones).time = tm.time := by
  unfold link
  split <;> rfl

end IcalTime

namespace IcalComp

def link (zones : List IcalComp) (c : IcalComp) : IcalComp :=
  { c with dtstart := c.dtstart.link zones, dtend := c.dtend.link zones }

structure Found (zones : List IcalComp) (c : IcalComp) : Prop where
  dtstart : c.dtstart.Found zones
  dtend : c.dtend.Found zones

end IcalComp

namespace Ical

def link (i : Ical) : Ical := { i with comps := fun t => (i.comps t).map (IcalComp.link (i.comps .vtimezone)) }

def Found (i : Ical) : Prop := ∀ t, ∀ c ∈ i.comps t, c.Found (i.comps .vtimezone)

theorem link_comps (i : Ical) (t : IcalType) : i.link.comps t = (i.comps t).map (IcalComp.link (i.comps .vtimezone)) := rfl

end Ical

section
variable {zones : List IcalComp} {d d' : Diag}

theorem icalPostparseTz_eq_some {tm tm' : IcalTime} :
    icalPostparseTz zones tm d = (some tm', d') ↔ tm.Found zones ∧ tm' = tm.link zones ∧ d' = d := by
  unfold icalPostparseTz IcalTime.Found IcalTime.link findZone
  cases htz : tm.tzstr with
  | none =>
    constructor
    · rintro ⟨⟩
      exact ⟨by simp, rfl, rfl⟩
    · rintro ⟨-, rfl, rfl⟩
      rfl
  | some tzstr =>
    cases hfind : zones.findIdx? fun z => strcaseEq (z.tzid.getD []) tzstr with
    | none =>
      constructor
      · intro h
        simp only [hfind] at h
        cases h
      · rintro ⟨hfound, -, -⟩
        have hzone := hfound tzstr rfl
        rw [hfind] at hzone
        cases hzone
    | some k =>
      simp only [hfind]
      constructor
      · rintro ⟨⟩
        refine ⟨?_, rfl, rfl⟩
        rintro _ ⟨⟩
        rw [hfind]
        rfl
      · rintro ⟨-, rfl, rfl⟩
        rfl

theorem icalPostparseComps_eq_some {cs : List IcalComp} : ∀ {d d' : Diag} {cs' : List IcalComp},
    icalPostparseComps zones cs d = (some cs', d') ↔
      (∀ c ∈ cs, c.Found zones) ∧ cs' = cs.map (IcalComp.link zones) ∧ d' = d := by
  induction cs with
  | nil => simp [icalPostparseComps, eq_comm]
  | cons c cs ih =>
    intro d d' cs'
    rw [icalPostparseComps, List.forall_mem_cons, List.map_cons]
    constructor
    · intro h
      obtain ⟨dtstart, d₁, hstart, hrest⟩ := bind_eq_some.mp h
      obtain ⟨dtend, d₂, hend, hrest⟩ := bind_eq_some.mp hrest
      obtain ⟨ds, d₃, hcs, hpure⟩ := bind_eq_some.mp hrest
      obtain ⟨hfound, rfl, rfl⟩ := icalPostparseTz_eq_some.mp hstart
      obtain ⟨hfound', rfl, rfl⟩ := icalPostparseTz_eq_some.mp hend
      obtain ⟨hall, rfl, rfl⟩ := ih.mp hcs
      cases hpure
      exact ⟨⟨⟨hfound, hfound'⟩, hall⟩, rfl, rfl⟩
    · rintro ⟨⟨⟨hfound, hfound'⟩, hall⟩, rfl, rfl⟩
      have hstart := (icalPostparseTz_eq_some (d := d')).mpr ⟨hfound, rfl, rfl⟩
      have hend := (icalPostparseTz_eq_some (d := d')).mpr ⟨hfound', rfl, rfl⟩
      have hcs := (ih (d := d')).mpr ⟨hall, rfl, rfl⟩
      exact bind_eq_some.mpr ⟨_, d', hstart, bind_eq_some.mpr ⟨_, d', hend, bind_eq_some.mpr ⟨_, d', hcs, rfl⟩⟩⟩

theorem icalPostparseTypes_eq_some {ts : List IcalType} (hts : ts.Nodup) : ∀ {i j : Ical} {d d' : Diag},
    icalPostparseTypes zones ts i d = (some j, d') ↔ (∀ t ∈ ts, ∀ c ∈ i.comps t, c.Found zones) ∧
      j = { i with comps := fun t => if t ∈ ts then (i.comps t).map (IcalComp.link zones) else i.comps t } ∧ d' = d := by
  induction ts with
  | nil =>
    intro i j d d'
    constructor
    · rintro ⟨⟩
      exact ⟨by simp, by simp, rfl⟩
    · rintro ⟨-, rfl, rfl⟩
      simp [icalPostparseTypes]
  | cons t ts ih =>
    intro i j d d'
    obtain ⟨ht, hts⟩ := List.nodup_cons.mp hts
    have other {u : IcalType} (hu : u ∈ ts) : u ≠ t := fun h => ht (h ▸ hu)
    have linked : (fun u => if u ∈ ts then
        (if u = t then (i.comps t).map (IcalComp.link zones) else i.comps u).map (IcalComp.link zones)
          else if u = t then (i.comps t).map (IcalComp.link zones) else i.comps u) =
        fun u => if u ∈ t :: ts then (i.comps u).map (IcalComp.link zones) else i.comps u := by
      funext u
      by_cases hu : u ∈ ts
      · simp [hu, other hu]
      · by_cases hut : u = t
        · simp [hut, ht]
        · simp [hu, hut]
    rw [icalPostparseTypes, List.forall_mem_cons, ← linked]
    constructor
    · intro h
      obtain ⟨cs, d₁, hcs, hrest⟩ := bind_eq_some.mp h
      obtain ⟨hfound, rfl, rfl⟩ := icalPostparseComps_eq_some.mp hcs
      obtain ⟨hall, rfl, rfl⟩ := (ih hts).mp hrest
      refine ⟨⟨hfound, fun u hu c hc => hall u hu c ?_⟩, rfl, rfl⟩
      simpa [other hu] using hc
    · rintro ⟨⟨hfound, hall⟩, rfl, rfl⟩
      have hcs := (icalPostparseComps_eq_some (d := d')).mpr ⟨hfound, rfl, rfl⟩
      refine bind_eq_some.mpr ⟨_, d', hcs, (ih hts).mpr ⟨fun u hu c hc => hall u hu c ?_, rfl, rfl⟩⟩
      simpa [other hu] using hc

end

theorem IcalType.mem_all (t : IcalType) : t ∈ IcalType.all := by
  cases t <;> decide

/-- Linking finds every time zone, or rejects the calendar. -/
theorem icalLink_eq_some {i j : Ical} : icalLink i = some j ↔ i.Found ∧ j = i.link := by
  have htypes {d d' : Diag} : icalPostparseTypes (i.comps .vtimezone) IcalType.all i d = (some j, d') ↔
      i.Found ∧ j = i.link ∧ d' = d := by
    have hnodup : IcalType.all.Nodup := by decide
    simpa [IcalType.mem_all, Ical.Found, Ical.link] using icalPostparseTypes_eq_some hnodup
  unfold icalLink under
  constructor
  · intro h
    rcases hrun : icalPostparseTypes (i.comps .vtimezone) IcalType.all i ⟨"", 0, none, false⟩ with ⟨_ | j', d'⟩
    · rw [hrun] at h
      cases h
    · rw [hrun] at h
      cases h
      obtain ⟨hfound, hj, -⟩ := htypes.mp hrun
      exact ⟨hfound, hj⟩
  · rintro ⟨hfound, hj⟩
    rw [htypes.mpr ⟨hfound, hj, rfl⟩]
    rfl

end Kcaldav
