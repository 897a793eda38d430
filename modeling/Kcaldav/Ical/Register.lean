import Kcaldav.Ical.Link

/-! # The order of the `BEGIN` lines

A file read into one list of components: each has its place there from its `BEGIN` line
on, whatever its type, and a property line fills the one that was opened last and is not
closed. Each chain of the parser is the part of the list that is of its type.
-/
namespace Kcaldav
open CString Fallible

/-! ## Lists by kind -/

section Kinds
variable {α : Type} {l : List α} {k : ℕ} {a : α}

theorem split_at (h : l[k]? = some a) : ∃ l₁ l₂, l = l₁ ++ a :: l₂ ∧ l₁.length = k := by
  obtain ⟨hk, rfl⟩ := List.getElem?_eq_some_iff.mp h
  refine ⟨l.take k, l.drop (k + 1), ?_, List.length_take_of_le hk.le⟩
  rw [List.getElem_cons_drop, List.take_append_drop]

/-- An element is found among those of its kind after the ones before it. -/
theorem getElem?_filter (p : α → Bool) (h : l[k]? = some a) (ha : p a) : (l.filter p)[(l.take k).countP p]? = some a := by
  obtain ⟨l₁, l₂, rfl, rfl⟩ := split_at h
  rw [List.take_left, List.countP_eq_length_filter, List.filter_append, List.filter_cons_of_pos ha]
  rw [List.getElem?_append_right le_rfl, Nat.sub_self, List.getElem?_cons_zero]

theorem modify_append_cons (l₁ l₂ : List α) (a : α) (f : α → α) : (l₁ ++ a :: l₂).modify l₁.length f = l₁ ++ f a :: l₂ := by
  induction l₁ with
  | nil => rfl
  | cons b l₁ ih => exact congrArg (List.cons b) ih

/-- An element is replaced among those of its kind. -/
theorem filter_set (p : α → Bool) (h : l[k]? = some a) {b : α} (hb : p b = p a) :
    (l.set k b).filter p = if p a then (l.filter p).modify ((l.take k).countP p) fun _ => b else l.filter p := by
  obtain ⟨l₁, l₂, rfl, rfl⟩ := split_at h
  rw [List.set_append_right _ _ le_rfl, Nat.sub_self, List.set_cons_zero, List.take_left, List.countP_eq_length_filter,
    List.filter_append, List.filter_append, List.filter_cons, List.filter_cons, hb]
  split
  · rw [modify_append_cons]
  · rfl

end Kinds

/-! ## The list -/

/-- The components whose `BEGIN` lines have been read, in the order of these lines, and the
places of those that are open, innermost first. -/
structure Register where
  begun : List IcalComp
  opened : List ℕ
  block : Option IcalTz
  erange : Bool

/-- A block goes to the time zone that was begun last. -/
def fileBlock (z : IcalTz) : List IcalComp → List IcalComp
  | [] => []
  | c :: cs =>
    if c.type = .vtimezone ∧ ∀ d ∈ cs, d.type ≠ .vtimezone then { c with tzs := c.tzs ++ [z] } :: cs
    else c :: fileBlock z cs

variable (C : Libc)

namespace Register

def comp (g : Register) (k : ℕ) : IcalComp := g.begun[k]?.getD (.new .vcalendar)

/-- A line, without the checks at the end of a component. -/
def line (g : Register) (np : IcalNode) : Option Register :=
  match g.block, g.opened with
  | some z, _ =>
    if np.isEnd then some (if strcaseEq z.type.name np.val then { g with begun := fileBlock z g.begun, block := none } else g)
    else (under (icalTzField C np z) g.erange).map fun r => { g with block := some r.1, erange := r.2 }
  | none, k :: ks =>
    if np.isBegin then
      match icalTypeOf np.val, icalTzTypeOf np.val with
      | some type, _ => some { g with begun := g.begun ++ [.new type], opened := g.begun.length :: k :: ks }
      | none, some tz => some { g with block := some (.new tz) }
      | none, none => some g
    else if np.isEnd then some (if strcaseEq (g.comp k).type.name np.val then { g with opened := ks } else g)
    else (under (icalCompField C np (g.comp k)) g.erange).map fun r => { g with begun := g.begun.set k r.1.1, erange := r.2 }
  | none, [] => none

/-- Read lines until nothing is open or there are none left. -/
def run : Register → List Bytes → Option Register
  | g, [] => some g
  | g, l :: ls =>
    if g.opened = [] ∧ g.block = none then some g
    else ((lineNode l).bind (g.line C)).bind fun g => run g ls

def close (g : Register) : List IcalComp :=
  match g.block with
  | none => g.begun
  | some z => fileBlock z g.begun

/-- The calendar has been opened. -/
def start (erange : Bool) : Register where
  begun := [.new .vcalendar]
  opened := [0]
  block := none
  erange := erange

end Register

/-- The components of a file in the order of their `BEGIN` lines. -/
def icalBegun (erange : Bool) : List Bytes → Option (List IcalComp)
  | [] => none
  | _ :: ls => ((Register.start erange).run C ls).map Register.close

variable {C}

/-- Each chain holds the components of its type in the order of their `BEGIN` lines, with
their time zones linked. -/
def Ical.InOrder (begun : List IcalComp) (i : Ical) : Prop :=
  ∀ t, i.comps t = (begun.filter (·.type = t)).map (IcalComp.link (begun.filter (·.type = .vtimezone)))

/-! ## Places -/

/-- Where the component at a place sits in its chain. -/
def chainRef (types : List IcalType) (k : ℕ) : CompRef where
  type := types[k]?.getD .vcalendar
  idx := (types.take k).count (types[k]?.getD .vcalendar)

theorem chainRef_append {types : List IcalType} {k : ℕ} (hk : k < types.length) (rest : List IcalType) :
    chainRef (types ++ rest) k = chainRef types k := by
  unfold chainRef
  rw [List.getElem?_append_left hk, List.take_append_of_le_length hk.le]

theorem chainRef_length (types : List IcalType) (t : IcalType) : chainRef (types ++ [t]) types.length = ⟨t, types.count t⟩ := by
  unfold chainRef
  rw [List.getElem?_concat_length, Option.getD_some, List.take_left]

theorem count_types (cs : List IcalComp) (t : IcalType) : (cs.map IcalComp.type).count t = cs.countP (·.type = t) := by
  rw [List.count_eq_countP, List.countP_map]
  refine List.countP_congr fun c _ => ?_
  simp

theorem fileBlock_types (z : IcalTz) (cs : List IcalComp) : (fileBlock z cs).map IcalComp.type = cs.map IcalComp.type := by
  induction cs with
  | nil => rfl
  | cons c cs ih =>
    unfold fileBlock
    split
    · rfl
    · rw [List.map_cons, List.map_cons, ih]

/-- The last of the time zones gets the block. -/
theorem filter_fileBlock (z : IcalTz) (cs : List IcalComp) (t : IcalType) : (fileBlock z cs).filter (·.type = t) =
    if t = .vtimezone then
      (cs.filter (·.type = t)).modify ((cs.filter (·.type = .vtimezone)).length - 1) fun c => { c with tzs := c.tzs ++ [z] }
    else cs.filter (·.type = t) := by
  induction cs with
  | nil => simp [fileBlock]
  | cons c cs ih =>
    unfold fileBlock
    split
    next h =>
      obtain ⟨hc, hlast⟩ := h
      have hnone : cs.filter (·.type = .vtimezone) = [] := by
        rw [List.filter_eq_nil_iff]
        exact fun d hd => by simpa using hlast d hd
      split
      next ht =>
        subst ht
        simp [hc, hnone]
      next ht =>
        have hne : ¬IcalType.vtimezone = t := fun heq => ht heq.symm
        simp [hc, hne]
    next h =>
      rw [List.filter_cons, List.filter_cons, ih]
      by_cases hc : c.type = .vtimezone
      · -- there is one after it
        have hpos : 0 < (cs.filter (·.type = .vtimezone)).length := by
          refine List.length_pos_iff.mpr fun hnone => ?_
          rw [List.filter_eq_nil_iff] at hnone
          exact h ⟨hc, fun d hd => by simpa using hnone d hd⟩
        obtain ⟨n, hn⟩ := Nat.exists_eq_add_of_lt hpos
        by_cases ht : t = .vtimezone
        · subst ht
          simp [hc, hn]
        · have hne : ¬IcalType.vtimezone = t := fun heq => ht heq.symm
          simp [hc, ht, hne]
      · by_cases ht : t = .vtimezone
        · subst ht
          simp [hc]
        · simp [ht]

/-! ## The parser beside the list -/

theorem icalCompField_type (np : IcalNode) (c : IcalComp) : Returns (fun r => r.1.type = c.type) (icalCompField C np c) := by
  unfold icalCompField
  refine .ite (fun _ => ?_) fun _ => .ite (fun _ => ?_) fun _ => .ite (fun _ => ?_) fun _ => .ite (fun _ => ?_) fun _ =>
    .ite (fun _ => ?_) fun _ => .ite (fun _ => ?_) fun _ => .ite (fun _ => ?_) fun _ => .ite (fun _ => ?_) fun _ =>
    .ite (fun _ => ?_) fun _ => .pure rfl
  all_goals exact .bind (.any _) fun _ _ => .pure rfl

theorem under_returns {α : Type} {P : α → Prop} {x : Value α} (hx : Returns P x) {e e' : Bool} {a : α}
    (h : under x e = some (a, e')) : P a := by
  unfold under at h
  rcases hrun : x ⟨"", 0, none, e⟩ with ⟨_ | b, d⟩
  · rw [hrun] at h
    cases h
  · rw [hrun] at h
    cases h
    exact hx _ _ _ hrun

/-- The chains are the parts of the list, and the same components are open. -/
structure Machine.Registered (m : Machine) (g : Register) : Prop where
  chains : ∀ t, m.ical.comps t = g.begun.filter (·.type = t)
  opened : m.opened = g.opened.map (chainRef (g.begun.map IcalComp.type))
  places : ∀ k ∈ g.opened, k < g.begun.length
  block : m.block = g.block
  erange : m.erange = g.erange

theorem Register.getElem?_begun {g : Register} {k : ℕ} (hk : k < g.begun.length) : g.begun[k]? = some (g.comp k) := by
  unfold comp
  rw [List.getElem?_eq_getElem hk, Option.getD_some]

theorem Register.chainRef_begun {g : Register} {k : ℕ} (hk : k < g.begun.length) : chainRef (g.begun.map IcalComp.type) k =
    ⟨(g.comp k).type, (g.begun.take k).countP (·.type = (g.comp k).type)⟩ := by
  have htype : (g.begun.map IcalComp.type)[k]?.getD .vcalendar = (g.comp k).type := by
    rw [List.getElem?_map, getElem?_begun hk, Option.map_some, Option.getD_some]
  unfold chainRef
  rw [htype, ← List.map_take, count_types]

/-- A chain has the component of a place where its reference says. -/
theorem Register.comp?_chainRef {g : Register} {i : Ical} (hchains : ∀ t, i.comps t = g.begun.filter (·.type = t)) {k : ℕ}
    (hk : k < g.begun.length) : i.comp? (chainRef (g.begun.map IcalComp.type) k) = some (g.comp k) := by
  unfold Ical.comp?
  rw [hchains, chainRef_begun hk]
  exact getElem?_filter _ (getElem?_begun hk) (decide_eq_true rfl)

section
variable {np : IcalNode} {m m' : Machine} {g : Register}

/-- What is open is the component at a place. -/
theorem Machine.Registered.innermost {c : CompRef} {cs : List CompRef} {block : Option IcalTz} {i : Ical} {e : Bool}
    (h : (⟨c :: cs, block, i, e⟩ : Machine).Registered g) : ∃ k ks, g.opened = k :: ks ∧
      c = chainRef (g.begun.map IcalComp.type) k ∧ cs = ks.map (chainRef (g.begun.map IcalComp.type)) ∧
      compAt c i = g.comp k ∧ c.type = (g.comp k).type := by
  obtain ⟨k, ks, hopened, hc, hcs⟩ := List.map_eq_cons_iff.mp h.opened.symm
  have hk := h.places k (hopened ▸ List.mem_cons_self)
  exact ⟨k, ks, hopened, hc.symm, hcs.symm, by rw [← hc, compAt_eq (Register.comp?_chainRef h.chains hk)],
    by rw [← hc, Register.chainRef_begun hk]⟩

/-- The list is extended, and what is open is as before. -/
theorem Machine.Registered.begin {c : CompRef} {cs : List CompRef} {i : Ical} {e : Bool}
    (h : (⟨c :: cs, none, i, e⟩ : Machine).Registered g) (type : IcalType) :
    (⟨⟨type, (i.comps type).length⟩ :: c :: cs, none, i.alloc type, e⟩ : Machine).Registered
      { g with begun := g.begun ++ [.new type], opened := g.begun.length :: g.opened } := by
  refine ⟨fun t => ?_, ?_, fun k hk => ?_, h.block, h.erange⟩
  · rw [List.filter_append, ← h.chains]
    by_cases ht : t = type
    · simp [Ical.alloc, IcalComp.new, ht]
    · have hne : ¬type = t := fun heq => ht heq.symm
      simp [Ical.alloc, IcalComp.new, ht, hne]
  · have hnew : chainRef ((g.begun ++ [IcalComp.new type]).map IcalComp.type) g.begun.length = ⟨type, (i.comps type).length⟩ := by
      have hlen : g.begun.length = (g.begun.map IcalComp.type).length := (List.length_map _).symm
      rw [List.map_append, List.map_singleton, hlen, show (IcalComp.new type).type = type from rfl, chainRef_length, count_types,
        List.countP_eq_length_filter, h.chains]
    have hopened : c :: cs = g.opened.map (chainRef (g.begun.map IcalComp.type)) := h.opened
    dsimp only
    rw [List.map_cons, hnew, hopened]
    congr 1
    refine List.map_congr_left fun k hk => ?_
    rw [List.map_append]
    exact (chainRef_append (by rw [List.length_map]; exact h.places k hk) _).symm
  · dsimp only at hk ⊢
    rw [List.length_append, List.length_singleton]
    rcases List.mem_cons.mp hk with rfl | hk
    · exact Nat.lt_succ_self _
    · exact Nat.lt_succ_of_lt (h.places k hk)

/-- A component is filled where it is. -/
theorem Machine.Registered.fill {opened : List CompRef} {block : Option IcalTz} {i : Ical} {e e' : Bool}
    (h : (⟨opened, block, i, e⟩ : Machine).Registered g) {k : ℕ} (hk : k < g.begun.length) {c : CompRef}
    (hc : c = chainRef (g.begun.map IcalComp.type) k) {comp : IcalComp} (htype : comp.type = (g.comp k).type) (val : Bytes) :
    (⟨opened, block, i.write c comp val, e'⟩ : Machine).Registered
      { g with begun := g.begun.set k comp, erange := e' } := by
  have hcomp : g.begun[k]? = some (g.comp k) := Register.getElem?_begun hk
  have htypes : (g.begun.set k comp).map IcalComp.type = g.begun.map IcalComp.type := by
    have hsame : g.begun[k] = g.comp k := Option.some.inj ((List.getElem?_eq_getElem hk).symm.trans hcomp)
    rw [List.map_set, htype, ← List.map_set, ← hsame, List.set_getElem_self]
  refine ⟨fun t => ?_, ?_, fun j hj => ?_, h.block, rfl⟩
  · dsimp only
    rw [filter_set (fun c => decide (c.type = t)) hcomp (by rw [htype]), ← h.chains]
    rw [hc, Register.chainRef_begun hk]
    unfold Ical.write Ical.modifyComp
    dsimp only
    by_cases ht : (g.comp k).type = t
    · subst ht
      rw [if_pos rfl, if_pos (decide_eq_true rfl)]
    · rw [if_neg (Ne.symm ht), if_neg (by simpa using ht)]
  · dsimp only
    rw [htypes]
    exact h.opened
  · dsimp only
    rw [List.length_set]
    exact h.places j hj

theorem Machine.Registered.closeBlock {opened : List CompRef} {z : IcalTz} {i : Ical} {e : Bool}
    (h : (⟨opened, some z, i, e⟩ : Machine).Registered g) :
    (⟨opened, none, addTz (i.comps .vtimezone).length z i, e⟩ : Machine).Registered
      { g with begun := fileBlock z g.begun, block := none } := by
  refine ⟨fun t => ?_, ?_, fun k hk => ?_, rfl, h.erange⟩
  · dsimp only
    rw [filter_fileBlock, ← h.chains, ← h.chains]
    rfl
  · dsimp only
    rw [fileBlock_types]
    exact h.opened
  · have hlen := congrArg List.length (fileBlock_types z g.begun)
    rw [List.length_map, List.length_map] at hlen
    dsimp only
    rw [hlen]
    exact h.places k hk

theorem Machine.Takes.registered (htakes : Machine.Takes C np m m') (h : m.Registered g) :
    ∃ g', g.line C np = some g' ∧ m'.Registered g' := by
  have hpush {opened : List CompRef} {block : Option IcalTz} {i : Ical} {e : Bool}
      (h : (⟨opened, block, i, e⟩ : Machine).Registered g) : (⟨opened, block, i.push np, e⟩ : Machine).Registered g :=
    ⟨h.chains, h.opened, h.places, h.block, h.erange⟩
  obtain ⟨begun, opened, block, erange⟩ := g
  obtain rfl : m.block = block := h.block
  obtain rfl : m.erange = erange := h.erange
  unfold Register.line
  cases htakes with
  | @endBlock cs z i e hend hval hz =>
    dsimp only
    rw [if_pos hend, if_pos hval]
    exact ⟨_, rfl, (hpush h).closeBlock⟩
  | skipBlock hend hval =>
    dsimp only
    rw [if_pos hend, if_neg hval]
    exact ⟨_, rfl, hpush h⟩
  | fieldBlock hend hunder =>
    dsimp only
    rw [if_neg hend, hunder]
    exact ⟨_, rfl, h.chains, h.opened, h.places, rfl, rfl⟩
  | @beginComp c cs i e tt hbegin ht =>
    obtain ⟨k, ks, rfl, -⟩ := h.innermost
    dsimp only
    rw [if_pos hbegin, ht]
    exact ⟨_, rfl, (hpush h).begin tt⟩
  | beginBlock hbegin ht htz hne =>
    obtain ⟨k, ks, rfl, -⟩ := h.innermost
    dsimp only
    rw [if_pos hbegin, ht, htz]
    exact ⟨_, rfl, h.chains, h.opened, h.places, rfl, rfl⟩
  | unknown hbegin ht htz =>
    obtain ⟨k, ks, rfl, -⟩ := h.innermost
    dsimp only
    rw [if_pos hbegin, ht, htz]
    exact ⟨_, rfl, hpush h⟩
  | @endComp c cs i e hbegin hend hval hcomplete =>
    obtain ⟨k, ks, rfl, -, hcs, -, htype⟩ := h.innermost
    dsimp only
    rw [if_neg hbegin, if_pos hend, ← htype, if_pos hval]
    exact ⟨_, rfl, h.chains, hcs, fun j hj => h.places j (List.mem_cons_of_mem k hj), rfl, rfl⟩
  | skip hbegin hend hval =>
    obtain ⟨k, ks, rfl, -, -, -, htype⟩ := h.innermost
    dsimp only
    rw [if_neg hbegin, if_pos hend, ← htype, if_neg hval]
    exact ⟨_, rfl, hpush h⟩
  | @field c cs i e e' comp val hbegin hend hunder =>
    obtain ⟨k, ks, rfl, hc, -, hcomp, -⟩ := h.innermost
    rw [hcomp] at hunder
    have htype := under_returns (icalCompField_type np _) hunder
    dsimp only
    rw [if_neg hbegin, if_neg hend, hunder]
    exact ⟨_, rfl, (hpush h).fill (h.places k List.mem_cons_self) hc htype val⟩

theorem Machine.Registered.finished (h : m.Registered g) : m.finished ↔ g.opened = [] ∧ g.block = none := by
  rw [Machine.finished_iff, h.opened, h.block, List.map_eq_nil_iff]

theorem Machine.Registered.run {ls rest : List Bytes} : ∀ {m m' : Machine} {g : Register}, m.Registered g →
    m.run C ls = some (m', rest) → ∃ g', g.run C ls = some g' ∧ m'.Registered g' := by
  induction ls with
  | nil =>
    intro m m' g h hrun
    cases hrun
    exact ⟨g, rfl, h⟩
  | cons l ls ih =>
    intro m m' g h hrun
    rw [Machine.run] at hrun
    rw [Register.run]
    split at hrun
    next hfin =>
      cases hrun
      exact ⟨g, if_pos (h.finished.mp hfin), h⟩
    next hfin =>
      obtain ⟨m₁, hstep, hrun⟩ := Option.bind_eq_some_iff.mp hrun
      obtain ⟨np, hnode, hline⟩ := Option.bind_eq_some_iff.mp hstep
      obtain ⟨g₁, hline', h₁⟩ := ((Machine.line_eq_some C).mp hline).registered h
      rw [if_neg fun hfin' => hfin (h.finished.mpr hfin'), hnode, Option.bind_some, hline', Option.bind_some]
      exact ih h₁ hrun

theorem Machine.Registered.close {i : Ical} (h : m.Registered g) (hclose : m.close = some i) (t : IcalType) :
    i.comps t = g.close.filter (·.type = t) := by
  obtain ⟨opened, block, i', e⟩ := m
  have hblock := h.block
  unfold Machine.close at hclose
  unfold Register.close
  cases block with
  | none =>
    obtain ⟨-, heq⟩ := Option.ite_none_right_eq_some.mp hclose
    cases heq
    rw [← hblock]
    exact h.chains t
  | some z =>
    obtain ⟨-, heq⟩ := Option.ite_none_right_eq_some.mp hclose
    cases heq
    rw [← hblock]
    exact h.closeBlock.chains t

end

theorem Machine.registered_start (np : IcalNode) (erange : Bool) : (Machine.start np erange).Registered (.start erange) := by
  refine ⟨fun t => ?_, rfl, by simp [Register.start], rfl, rfl⟩
  cases t <;> rfl

end Kcaldav
