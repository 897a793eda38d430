import Kcaldav.Ical.Link

/-! # Runs above other components

What a run does to the components it begins does not depend on what was in the calendar
before it, nor on what is open around it: the same lines do the same above other
components. Only a time zone block looks below, where the run has begun no time zone.
-/
namespace Kcaldav
open CString LineReader

/-- Two related results: neither, or both. -/
theorem rel_cases {α β : Type} {R : α → β → Prop} {x : Option α} {y : Option β} (h : Option.Rel R x y) :
    x = none ∧ y = none ∨ ∃ a b, x = some a ∧ y = some b ∧ R a b := by
  cases h with
  | none => exact .inl ⟨rfl, rfl⟩
  | some hab => exact .inr ⟨_, _, rfl, rfl, hab⟩

variable {base : IcalType → List IcalComp}

/-- The place of a component above others. -/
def CompRef.above (base : IcalType → List IcalComp) (c : CompRef) : CompRef := ⟨c.type, (base c.type).length + c.idx⟩

def Ical.Above (base : IcalType → List IcalComp) (i j : Ical) : Prop := ∀ t, i.comps t = base t ++ j.comps t

namespace Ical.Above

variable {i j : Ical}

theorem alloc (h : i.Above base j) (type : IcalType) : (i.alloc type).Above base (j.alloc type) := by
  intro t
  simp only [Ical.alloc]
  split
  · rw [h t, List.append_assoc]
  · exact h t

theorem modifyComp (h : i.Above base j) (c : CompRef) (f : IcalComp → IcalComp) :
    (i.modifyComp (c.above base) f).Above base (j.modifyComp c f) := by
  intro t
  change (if t = c.type then (i.comps t).modify ((base c.type).length + c.idx) f else i.comps t) =
    base t ++ if t = c.type then (j.comps t).modify c.idx f else j.comps t
  by_cases ht : t = c.type
  · rw [if_pos ht, if_pos ht, h t, ← ht]
    apply List.ext_getElem?
    intro k
    by_cases hk : k < (base t).length
    · have hne : (base t).length + c.idx ≠ k := by omega
      rw [List.getElem?_modify, List.getElem?_append_left hk, List.getElem?_append_left hk]
      simp only [hne, ↓reduceIte, id_map']
    · have hidx : (base t).length + c.idx = k ↔ c.idx = k - (base t).length := by omega
      rw [List.getElem?_modify, List.getElem?_append_right (by omega), List.getElem?_append_right (by omega), List.getElem?_modify]
      simp only [hidx]
  · rw [if_neg ht, if_neg ht, h t]

theorem write (h : i.Above base j) (c : CompRef) (comp : IcalComp) (val : Bytes) :
    (i.write (c.above base) comp val).Above base (j.write c comp val) := h.modifyComp c _

theorem compAt (h : i.Above base j) (c : CompRef) : compAt (c.above base) i = compAt c j := by
  have hget : i.comp? (c.above base) = j.comp? c := by
    unfold Ical.comp? CompRef.above
    rw [h c.type, List.getElem?_append_right (Nat.le_add_right _ _), Nat.add_sub_cancel_left]
  rw [Kcaldav.compAt, Kcaldav.compAt, hget]
  rfl

theorem next (h : i.Above base j) (type : IcalType) :
    (⟨type, (i.comps type).length⟩ : CompRef) = (⟨type, (j.comps type).length⟩ : CompRef).above base := by
  rw [h type, List.length_append]
  rfl

/-- The last time zone is one of the run's own, or there are none below. -/
theorem addTz (h : i.Above base j) (hz : base .vtimezone = [] ∨ j.comps .vtimezone ≠ []) (z : IcalTz) :
    (addTz (i.comps .vtimezone).length z i).Above base (addTz (j.comps .vtimezone).length z j) := by
  have hlast : (⟨.vtimezone, (i.comps .vtimezone).length - 1⟩ : CompRef) =
      (⟨.vtimezone, (j.comps .vtimezone).length - 1⟩ : CompRef).above base := by
    rw [h .vtimezone, List.length_append, CompRef.above, CompRef.mk.injEq]
    refine ⟨rfl, ?_⟩
    rcases hz with hnil | hne
    · simp [hnil]
    · have hpos := List.length_pos_iff.mpr hne
      dsimp only
      omega
  unfold Kcaldav.addTz
  rw [hlast]
  exact h.modifyComp _ _

end Ical.Above

/-- The same run, above the components `base` and with `outer` open around it. -/
structure Machine.Above (base : IcalType → List IcalComp) (outer : List CompRef) (m n : Machine) : Prop where
  opened : m.opened = n.opened.map (CompRef.above base) ++ outer
  block : m.block = n.block
  ical : m.ical.Above base n.ical
  erange : m.erange = n.erange
  zone : n.block.isSome → base .vtimezone = [] ∨ n.ical.comps .vtimezone ≠ []

section
variable {C : Libc} {outer : List CompRef} {m n : Machine} {np : IcalNode}

theorem Machine.Above.line (h : m.Above base outer n) (hopen : outer = [] ∨ ¬n.finished)
    (hz : base .vtimezone = [] ∨ n.ical.comps .vtimezone ≠ [] ∨ (np.isBegin → icalTzTypeOf np.val = none)) :
    Option.Rel (Machine.Above base outer) (m.line C np) (n.line C np) := by
  obtain ⟨cs, b, i, e⟩ := m
  obtain ⟨ds, b', j, e'⟩ := n
  obtain ⟨hopened, hblock, hij, he, hzone⟩ := h
  cases hopened
  cases hblock
  cases he
  have hpush : (i.push np).Above base (j.push np) := hij
  have written {α : Type} {x : Option (α × Bool)} {f g : α × Bool → Machine} (hfg : ∀ r, (f r).Above base outer (g r)) :
      Option.Rel (Machine.Above base outer) (x.map f) (x.map g) := by
    cases x with
    | none => exact .none
    | some r => exact .some (hfg r)
  cases b with
  | some z =>
    simp only [Machine.line, Machine.blockLine]
    split
    · split
      · split
        · exact .some ⟨rfl, rfl, hpush.addTz (hzone rfl) z, rfl, by simp⟩
        · exact .none
      · exact .some ⟨rfl, rfl, hpush, rfl, hzone⟩
    · exact written fun r => ⟨rfl, rfl, hpush, rfl, fun _ => hzone rfl⟩
  | none =>
    cases ds with
    | nil =>
      obtain rfl : outer = [] := hopen.resolve_right (fun h => h rfl)
      exact .none
    | cons d ds =>
      change Option.Rel _ (Machine.compLine C (d.above base) (ds.map (CompRef.above base) ++ outer) np ⟨_, none, i.push np, e⟩)
        (Machine.compLine C d ds np ⟨d :: ds, none, j.push np, e⟩)
      unfold Machine.compLine
      rw [hpush.compAt d]
      split
      next hbegin =>
        split
        · refine .some ⟨?_, rfl, hpush.alloc _, rfl, by simp⟩
          rw [hpush.next _]
          rfl
        next htz =>
          have hzones : base .vtimezone = [] ∨ j.comps .vtimezone ≠ [] := by
            rcases hz with hnil | hne | hno
            · exact .inl hnil
            · exact .inr hne
            · rw [hno hbegin] at htz
              cases htz
          have hnone : (i.push np).comps .vtimezone = [] ↔ (j.push np).comps .vtimezone = [] := by
            rw [hpush .vtimezone, List.append_eq_nil_iff]
            rcases hzones with hnil | hne
            · exact ⟨fun h => h.2, fun h => ⟨hnil, h⟩⟩
            · exact ⟨fun h => absurd h.2 hne, fun h => absurd h hne⟩
          simp only [hnone]
          split
          · exact .none
          · exact .some ⟨rfl, rfl, hpush, rfl, fun _ => hzones⟩
        · exact .some ⟨rfl, rfl, hpush, rfl, by simp⟩
      · split
        · have htype : (d.above base).type = d.type := rfl
          rw [htype]
          split
          · split
            · exact .some ⟨rfl, rfl, hpush, rfl, by simp⟩
            · exact .none
          · exact .some ⟨rfl, rfl, hpush, rfl, by simp⟩
        · exact written fun r => ⟨rfl, rfl, hpush.write d _ _, rfl, by simp⟩

/-! ## Whole runs -/

theorem Ical.modifyComp_length (c : CompRef) (f : IcalComp → IcalComp) (i : Ical) (t : IcalType) :
    ((i.modifyComp c f).comps t).length = (i.comps t).length := by
  simp only [Ical.modifyComp]
  split
  · rw [List.length_modify]
  · rfl

/-- Components are only added. -/
theorem Machine.Takes.length_le (h : Machine.Takes C np m n) (t : IcalType) : (m.ical.comps t).length ≤ (n.ical.comps t).length := by
  cases h with
  | endBlock => exact (Ical.modifyComp_length _ _ _ t).ge
  | field => exact (Ical.modifyComp_length _ _ _ t).ge
  | @beginComp c cs i e tt =>
    simp only [Ical.alloc, Ical.push_comps]
    split
    · rw [List.length_append]
      exact Nat.le_add_right _ _
    · exact le_rfl
  | skipBlock => exact le_rfl
  | fieldBlock => exact le_rfl
  | beginBlock => exact le_rfl
  | unknown => exact le_rfl
  | endComp => exact le_rfl
  | skip => exact le_rfl

/-- The time zone blocks the lines begin go to a time zone of the run. -/
def Machine.OwnZones (base : IcalType → List IcalComp) (n : Machine) (ls : List Bytes) : Prop :=
  base .vtimezone = [] ∨ n.ical.comps .vtimezone ≠ [] ∨ ∀ l ∈ ls, ∀ np ∈ lineNode l, np.isBegin → icalTzTypeOf np.val = none

theorem Machine.OwnZones.next {l : Bytes} {ls : List Bytes} {n' : Machine} (h : n.OwnZones base (l :: ls))
    (htakes : Machine.Takes C np n n') : n'.OwnZones base ls := by
  rcases h with hnil | hne | hno
  · exact .inl hnil
  · have hpos := List.length_pos_iff.mpr hne
    exact .inr (.inl (List.length_pos_iff.mp (hpos.trans_le (htakes.length_le _))))
  · exact .inr (.inr fun l hl => hno l (List.mem_cons_of_mem _ hl))

/-- A run above other components fails where it fails alone, and goes on where it ends. -/
theorem Machine.Above.run {ls : List Bytes} : ∀ {m n : Machine}, m.Above base outer n → n.OwnZones base ls →
    (n.run C ls = none → m.run C ls = none) ∧ ∀ n' rest, n.run C ls = some (n', rest) →
      ∃ m' : Machine, m'.Above base outer n' ∧ m.run C ls = m'.run C rest := by
  induction ls with
  | nil =>
    intro m n h _
    refine ⟨fun hn => (by cases hn), fun n' rest hn => ?_⟩
    cases hn
    exact ⟨m, h, rfl⟩
  | cons l ls ih =>
    intro m n h hzones
    rw [Machine.run]
    split
    next hfin =>
      refine ⟨fun hn => (by cases hn), fun n' rest hn => ?_⟩
      cases hn
      exact ⟨m, h, rfl⟩
    next hopen =>
      have hopen' : ¬m.finished := by
        intro hfin
        obtain ⟨hopened, hblock⟩ := Machine.finished_iff.mp hfin
        rw [h.opened, List.append_eq_nil_iff, List.map_eq_nil_iff] at hopened
        exact hopen (Machine.finished_iff.mpr ⟨hopened.1, h.block ▸ hblock⟩)
      rw [Machine.run, if_neg hopen']
      cases hnode : lineNode l with
      | none => exact ⟨fun _ => rfl, fun n' rest hn => by cases hn⟩
      | some np =>
        have hz : base .vtimezone = [] ∨ n.ical.comps .vtimezone ≠ [] ∨ (np.isBegin → icalTzTypeOf np.val = none) :=
          hzones.imp_right (Or.imp_right fun hno => hno l List.mem_cons_self np hnode)
        simp only [Option.bind_some]
        rcases rel_cases (h.line (C := C) (.inr hopen) hz) with ⟨hm, hn⟩ | ⟨m₁, n₁, hm, hn, habove⟩
        · rw [hm, hn]
          exact ⟨fun _ => rfl, fun n' rest hnone => by cases hnone⟩
        · rw [hm, hn]
          exact ih habove (hzones.next ((Machine.line_eq_some C).mp hn))

end

end Kcaldav
