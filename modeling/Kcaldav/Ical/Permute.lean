import Kcaldav.Ical.Field
import Kcaldav.Ical.Order

/-! # The order of the lines

A component or a time zone block whose body is property lines of different names: what the
two loops make of it is the record its lines set, checked once at the end, so that the
lines may stand in any order. No line is checked against another before the end.
-/
namespace Kcaldav
open CString Fallible LineReader

variable {C : Libc} {ρ : Type} [LineReader ρ]

/-! ## Bodies -/

/-- A line that neither begins nor ends a component. -/
def PropertyLine (l : RawLine) : Prop := (lineNode l.text).any fun np => !np.isBegin && !np.isEnd

instance (l : RawLine) : Decidable (PropertyLine l) := inferInstanceAs (Decidable (_ = true))

theorem PropertyLine.node {l : RawLine} (h : PropertyLine l) : ∃ np, lineNode l.text = some np ∧ ¬np.isBegin ∧ ¬np.isEnd := by
  obtain ⟨np, hnode, hplain⟩ := (Option.any_eq_true _ _).mp h
  simp only [Bool.and_eq_true, Bool.not_eq_true'] at hplain
  refine ⟨np, hnode, ?_, ?_⟩
  · rw [hplain.1]
    decide
  · rw [hplain.2]
    decide

def lineNodes (ls : List RawLine) : List IcalNode := ls.filterMap fun l => lineNode l.text

/-- The source is at its end, or at the line that ends what has the name. -/
def EndsAt (name : Bytes) (r : ρ) : Prop :=
  read r = none ∨ ∃ l r' np, read r = some (l, r') ∧ lineNode l.text = some np ∧ np.isEnd ∧ strcaseEq name np.val

/-- The components that are there after a success. -/
def compsAfter {α : Type} (x : Option α × IcalParse ρ) : Option (IcalType → List IcalComp) := x.1.map fun _ => x.2.ical.comps

theorem next_line {p : IcalParse ρ} {l : RawLine} {src : ρ} (hr : read p.src = some (l, src)) {np : IcalNode}
    (hnode : lineNode l.text = some np) :
    ∃ p', icalNext p = (some np, p') ∧ p'.src = src ∧ p'.ical.comps = p.ical.comps := by
  unfold lineNode at hnode
  split at hnode
  · cases hnode
  next hne =>
    have hfill : fillBuf p = { p with
        src := src
        buf := some (cstr l.text)
        diag := { p.diag with line := p.diag.line + l.phys } } := by
      simp only [fillBuf, hr, hne, ↓reduceIte]
    refine ⟨_, icalNext_fill.mpr ⟨cstr l.text, ?_, hnode, rfl⟩, ?_, ?_⟩
    · rw [hfill]
    · rw [hfill]
    · rw [hfill]

theorem lineNodes_cons {l : RawLine} {np : IcalNode} (h : lineNode l.text = some np) (ls : List RawLine) :
    lineNodes (l :: ls) = np :: lineNodes ls := by
  unfold lineNodes
  rw [List.filterMap_cons, h]

/-! ## Under a clear `errno` -/

section
variable (hC : ∀ e, C.errnoAt e = false)
include hC

theorem clear_val {α : Type} {x : Value α} (hx : ∀ D, SameConv C D → Simulates D Eq x x) (d d' : Diag) : (x d).1 = (x d').1 := by
  have carry (d d' : Diag) (a : α) (h : (x d).1 = some a) : (x d').1 = some a := by
    obtain ⟨_, t', ht', rfl, -⟩ := hx _ (clear_conv hC) d d' a (x d).2 trivial (Prod.ext h rfl)
    rw [ht']
  apply Option.ext
  intro a
  exact ⟨carry d d' a, carry d' d a⟩

theorem compFields_step (np : IcalNode) (c : IcalComp) (d : Diag) :
    (icalCompField C np c d).1.map Prod.fst = (compFields C).step c np := by
  rw [clear_val hC (fun D hD => icalCompField_same hD np c) d ⟨"", 0, none, false⟩, icalCompField_eq]
  have hstep : (compFields C).step c np =
      ((under (compValue C np c.rrule) false).map fun r => r.1.1).map ((compFields C).put c) := rfl
  rw [hstep, under, bind_apply]
  rcases compValue C np c.rrule ⟨"", 0, none, false⟩ with ⟨_ | ⟨v, buf⟩, d'⟩ <;> rfl

theorem tzFields_step (np : IcalNode) (c : IcalTz) (d : Diag) : (icalTzField C np c d).1 = (tzFields C).step c np := by
  rw [clear_val hC (fun D hD => (icalTzField_uniform np c).same hD) d ⟨"", 0, none, false⟩, icalTzField_eq]
  have hstep : (tzFields C).step c np = ((under (tzValue C np c.rrule) false).map Prod.fst).map ((tzFields C).put c) := rfl
  rw [hstep, under, bind_apply]
  rcases tzValue C np c.rrule ⟨"", 0, none, false⟩ with ⟨_ | v, d'⟩ <;> rfl

end

/-! ## The two loops -/

theorem compAt_modifyComp {c : CompRef} {i : Ical} (h : (i.comp? c).isSome) (x : IcalComp) :
    compAt c (i.modifyComp c fun _ => x) = x := by
  obtain ⟨y, hy⟩ := Option.isSome_iff_exists.mp h
  apply compAt_eq
  rw [Ical.comp?_modifyComp, if_pos rfl, hy]
  rfl

theorem modifyComp_modifyComp (c : CompRef) (x y : IcalComp) (i : Ical) :
    ((i.modifyComp c fun _ => x).modifyComp c fun _ => y).comps = (i.modifyComp c fun _ => y).comps := by
  funext t
  apply List.ext_getElem?
  intro k
  refine (Ical.comp?_modifyComp c _ _ ⟨t, k⟩).trans (Eq.trans ?_ (Ical.comp?_modifyComp c _ _ ⟨t, k⟩).symm)
  rw [Ical.comp?_modifyComp, Ical.comp?_modifyComp, if_pos rfl]
  split
  · cases i.comp? c <;> rfl
  · rfl

theorem modifyComp_congr {i j : Ical} (h : i.comps = j.comps) (c : CompRef) (f : IcalComp → IcalComp) :
    (i.modifyComp c f).comps = (j.modifyComp c f).comps := by
  unfold Ical.modifyComp
  rw [h]

omit [LineReader ρ] in
/-- One line of a component leaves the others and sets its field. -/
theorem compLine_sets (hC : ∀ e, C.errnoAt e = false) (c : CompRef) (np : IcalNode) (p : IcalParse ρ) :
    ((compFields C).step (compAt c p.ical) np = none ∧ ∃ q, icalCompLine C c np p = (none, q)) ∨
    ∃ x q, (compFields C).step (compAt c p.ical) np = some x ∧ icalCompLine C c np p = (some (), q) ∧ q.src = p.src ∧
      q.ical.comps = (p.ical.modifyComp c fun _ => x).comps := by
  have hstep := compFields_step hC np (compAt c p.ical) p.diag
  rcases hfield : icalCompField C np (compAt c p.ical) p.diag with ⟨_ | ⟨x, val⟩, d⟩
  · rw [hfield] at hstep
    refine .inl ⟨hstep.symm, (icalCompLine C c np p).2, Prod.ext ?_ rfl⟩
    cases hline : (icalCompLine C c np p).1 with
    | none => rfl
    | some u =>
      obtain ⟨x, val, d', h, -⟩ := icalCompLine_iff.mp (Prod.ext hline rfl)
      rw [hfield] at h
      cases h
  · rw [hfield] at hstep
    exact .inr ⟨x, _, hstep.symm, icalCompLine_iff.mpr ⟨x, val, d, hfield, rfl⟩, rfl, rfl⟩

/-- Where the source ends, so does the loop. -/
theorem loop_ends {c : CompRef} {p : IcalParse ρ} (h : EndsAt c.type.name p.src) (fuel : Nat) :
    compsAfter (icalParsecompLoop C (fuel + 1) c p) = some p.ical.comps := by
  rw [icalParsecompLoop, icalMore_bind]
  rcases h with h | ⟨l, r', np, hr, hnode, hend, hval⟩
  · rw [h]
    rfl
  · have hbegin : ¬np.isBegin := fun hbegin => begin_not_end hbegin hend
    obtain ⟨p', hnext, -, hcomps⟩ := next_line hr hnode
    rw [hr, Option.isSome_some, if_pos rfl, bind_of_some hnext, icalCompNode, if_neg hbegin, if_pos hend, if_pos hval]
    exact congrArg some hcomps

/-- The loop of a component over property lines. -/
theorem loop_body (hC : ∀ e, C.errnoAt e = false) {ls : List RawLine} (hls : ∀ l ∈ ls, PropertyLine l) {c : CompRef} {r : ρ}
    (hr : EndsAt c.type.name r) : ∀ (fuel : Nat) {p : IcalParse ρ}, Reads p.src ls r → (p.ical.comp? c).isSome →
    compsAfter (icalParsecompLoop C fuel c p) =
      if ls.length < fuel then
        ((compFields C).run (compAt c p.ical) (lineNodes ls)).map fun x => (p.ical.modifyComp c fun _ => x).comps
      else none := by
  induction ls with
  | nil =>
    intro fuel p hreads hc
    cases hreads
    cases fuel with
    | zero => rfl
    | succ fuel =>
      rw [loop_ends hr, if_pos (by simp)]
      exact congrArg some (modifyComp_self c p.ical).symm
  | cons l ls ih =>
    intro fuel p hreads hc
    cases hreads with
    | cons hread hreads =>
      cases fuel with
      | zero => rfl
      | succ fuel =>
        obtain ⟨np, hnode, hbegin, hend⟩ := (hls l List.mem_cons_self).node
        obtain ⟨p₁, hnext, rfl, hcomps⟩ := next_line hread hnode
        rw [icalParsecompLoop, icalMore_bind, hread, Option.isSome_some, if_pos rfl, bind_of_some hnext, icalCompNode,
          if_neg hbegin, if_neg hend, lineNodes_cons hnode, LineFields.run_cons, ← compAt_congr hcomps]
        rcases compLine_sets hC c np p₁ with ⟨hstep, q, hline⟩ | ⟨x, q, hstep, hline, hsrc, hq⟩
        · rw [hstep, bind_of_none hline]
          exact (ite_self _).symm
        · have hmod : q.ical.comps = (p.ical.modifyComp c fun _ => x).comps := hq.trans (modifyComp_congr hcomps c _)
          have hsome : (q.ical.comp? c).isSome := by
            unfold Ical.comp?
            rw [hmod]
            change ((p.ical.modifyComp c fun _ => x).comp? c).isSome
            rw [Ical.comp?_modifyComp, if_pos rfl, Option.isSome_map]
            exact hc
          rw [bind_of_some hline, ih (fun l' hl' => hls l' (List.mem_cons_of_mem l hl')) fuel (hsrc ▸ hreads) hsome,
            compAt_congr hmod, compAt_modifyComp hc, hstep, Option.bind_some]
          have hlen : ls.length < fuel ↔ (l :: ls).length < fuel + 1 := by simp
          have hmap : (fun y => (q.ical.modifyComp c fun _ => y).comps) = fun y => (p.ical.modifyComp c fun _ => y).comps :=
            funext fun y => (modifyComp_congr hmod c _).trans (modifyComp_modifyComp c x y p.ical)
          rw [hmap, if_congr hlen rfl rfl]

omit [LineReader ρ] in
/-- A check that does not succeed fails. -/
theorem value_none {x : Value Unit} {p : IcalParse ρ} (h : ∀ q, ¬Valued x p () q) : (value x p).1 = none := by
  cases hval : (value x p).1 with
  | none => rfl
  | some u =>
    have hvalued : Valued x p () (value x p).2 := Prod.ext hval rfl
    exact absurd hvalued (h _)

omit [LineReader ρ] in
/-- After a loop that succeeds the record is checked. -/
theorem compsAfter_parsecomp {loop : CompRef → Parse ρ Unit} {type : IcalType} {p : IcalParse ρ} :
    compsAfter (icalParsecompWith loop type p) =
      match loop (newComp type p) (enterComp type p) with
      | (some _, q) => if (compAt (newComp type p) q.ical).Complete then some q.ical.comps else none
      | (none, _) => none := by
  have hwith : icalParsecompWith loop type p = (loop (newComp type p) >>= fun _ =>
      Fallible.gets (fun q => compAt (newComp type p) q.ical) >>= fun comp =>
        value (icalCompCheck p.diag.line comp)) (enterComp type p) := rfl
  rw [hwith, bind_apply]
  rcases loop (newComp type p) (enterComp type p) with ⟨_ | _, q⟩
  · rfl
  · dsimp only
    rw [gets_bind]
    by_cases hc : (compAt (newComp type p) q.ical).Complete
    · rw [if_pos hc, hc p.diag.line]
      rfl
    · have hnone : (value (icalCompCheck p.diag.line (compAt (newComp type p) q.ical)) q).1 = none :=
        value_none fun q' h => hc h.complete.1
      rw [if_neg hc, compsAfter, hnone]
      rfl

/-- A component of property lines: the record they set, if it passes the checks at the end. -/
theorem icalParsecomp_body (hC : ∀ e, C.errnoAt e = false) {ls : List RawLine} (hls : ∀ l ∈ ls, PropertyLine l) {type : IcalType}
    {r : ρ} (hr : EndsAt type.name r) {p : IcalParse ρ} (hreads : Reads p.src ls r) (fuel : Nat) :
    compsAfter (icalParsecomp C fuel type p) =
      if ls.length < fuel then
        ((compFields C).run (.new type) (lineNodes ls)).bind fun x =>
          if x.Complete then some ((p.ical.alloc type).modifyComp (newComp type p) fun _ => x).comps else none
      else none := by
  have hnew : (enterComp type p).ical.comp? (newComp type p) = some (.new type) :=
    (Ical.comp?_alloc type p.ical (newComp type p)).trans (if_pos rfl)
  have hsome : ((enterComp type p).ical.comp? (newComp type p)).isSome := by
    rw [hnew]
    rfl
  have hloop := loop_body hC hls (c := newComp type p) hr fuel (p := enterComp type p) hreads hsome
  rw [compAt_eq hnew] at hloop
  rw [icalParsecomp, compsAfter_parsecomp]
  rcases hq : icalParsecompLoop C fuel (newComp type p) (enterComp type p) with ⟨_ | _, q⟩
  · rw [hq] at hloop
    by_cases hlt : ls.length < fuel
    · rw [if_pos hlt] at hloop ⊢
      rw [Option.map_eq_none_iff.mp hloop.symm]
      rfl
    · rw [if_neg hlt]
  · rw [hq] at hloop
    by_cases hlt : ls.length < fuel
    · rw [if_pos hlt] at hloop ⊢
      obtain ⟨x, hrun, hcomps⟩ := Option.map_eq_some_iff.mp hloop.symm
      have hq' : q.ical.comps = ((enterComp type p).ical.modifyComp (newComp type p) fun _ => x).comps := hcomps.symm
      dsimp only
      rw [hrun, Option.bind_some, compAt_congr hq', compAt_modifyComp hsome, hq']
      rfl
    · rw [if_neg hlt] at hloop
      cases hloop

/-! ## Blocks -/

/-- The loop of a block over property lines; it leaves the components alone. -/
theorem tzLoop_body (hC : ∀ e, C.errnoAt e = false) {ls : List RawLine} (hls : ∀ l ∈ ls, PropertyLine l) {type : IcalTzType}
    {r : ρ} (hr : EndsAt type.name r) : ∀ (fuel : Nat) {z : IcalTz} {p : IcalParse ρ}, Reads p.src ls r →
    ∃ q, q.ical.comps = p.ical.comps ∧ icalParsetzLoop C type fuel z p =
      (if ls.length < fuel then (tzFields C).run z (lineNodes ls) else none, q) := by
  induction ls with
  | nil =>
    intro fuel z p hreads
    cases hreads
    cases fuel with
    | zero => exact ⟨p, rfl, rfl⟩
    | succ fuel =>
      rw [icalParsetzLoop, icalMore_bind]
      rcases hr with h | ⟨l, r', np, hread, hnode, hend, hval⟩
      · rw [h]
        exact ⟨p, rfl, rfl⟩
      · obtain ⟨p', hnext, -, hcomps⟩ := next_line hread hnode
        rw [hread, Option.isSome_some, if_pos rfl, bind_of_some hnext, if_pos hend, if_pos hval]
        exact ⟨p', hcomps, rfl⟩
  | cons l ls ih =>
    intro fuel z p hreads
    cases hreads with
    | cons hread hreads =>
      cases fuel with
      | zero => exact ⟨p, rfl, rfl⟩
      | succ fuel =>
        obtain ⟨np, hnode, -, hend⟩ := (hls l List.mem_cons_self).node
        obtain ⟨p₁, hnext, rfl, hcomps⟩ := next_line hread hnode
        have hstep := tzFields_step hC np z p₁.diag
        rw [icalParsetzLoop, icalMore_bind, hread, Option.isSome_some, if_pos rfl, bind_of_some hnext, if_neg hend,
          lineNodes_cons hnode, LineFields.run_cons, ← hstep]
        have hlen : ls.length < fuel ↔ (l :: ls).length < fuel + 1 := by simp
        rw [if_congr hlen.symm rfl rfl]
        rcases hfield : icalTzField C np z p₁.diag with ⟨_ | z', d⟩
        · have hnone : value (icalTzField C np z) p₁ = (none, { p₁ with diag := d }) := by
            unfold value Fallible.zoom
            rw [hfield]
          rw [bind_of_none hnone]
          refine ⟨{ p₁ with diag := d }, hcomps, Prod.ext ?_ rfl⟩
          exact (ite_self _).symm
        · have hvalue : value (icalTzField C np z) p₁ = (some z', { p₁ with diag := d }) := valued_iff.mpr ⟨d, hfield, rfl⟩
          obtain ⟨q, hq, hrun⟩ := ih (fun l' hl' => hls l' (List.mem_cons_of_mem l hl')) fuel (z := z')
            (p := { p₁ with diag := d }) hreads
          rw [bind_of_some hvalue, hrun]
          exact ⟨q, hq.trans hcomps, rfl⟩

/-- A block of property lines: the record they set, if it passes the check at the end. -/
theorem icalParsetz_body (hC : ∀ e, C.errnoAt e = false) {ls : List RawLine} (hls : ∀ l ∈ ls, PropertyLine l)
    {type : IcalTzType} {r : ρ} (hr : EndsAt type.name r) {p : IcalParse ρ} (hreads : Reads p.src ls r) (fuel : Nat) :
    compsAfter (icalParsetz C fuel type p) =
      if p.ical.comps .vtimezone ≠ [] ∧ ls.length < fuel then
        ((tzFields C).run (.new type) (lineNodes ls)).bind fun z =>
          if z.Complete then some (addTz (p.ical.comps .vtimezone).length z p.ical).comps else none
      else none := by
  rw [icalParsetz, gets_bind]
  by_cases hzones : p.ical.comps .vtimezone = []
  · rw [if_pos hzones, if_neg fun h => h.1 hzones]
    rfl
  obtain ⟨q, hq, hloop⟩ := tzLoop_body hC hls hr fuel (z := .new type) hreads
  rw [if_neg hzones]
  by_cases hlt : ls.length < fuel
  · rw [if_pos hlt] at hloop
    rw [if_pos ⟨hzones, hlt⟩]
    cases hrun : (tzFields C).run (.new type) (lineNodes ls) with
    | none =>
      rw [hrun] at hloop
      rw [bind_of_none hloop]
      rfl
    | some z =>
      rw [hrun] at hloop
      rw [bind_of_some hloop, Option.bind_some]
      by_cases hz : z.Complete
      · rw [if_pos hz, bind_of_some (hz.valued q)]
        exact congrArg some (modifyComp_congr hq _ _)
      · have hnone := value_none (p := q) fun q' h => hz h.tzComplete.1
        rw [if_neg hz, bind_of_none (Prod.ext hnone rfl)]
        rfl
  · rw [if_neg hlt] at hloop
    rw [if_neg fun h => hlt h.2, bind_of_none hloop]
    rfl

/-! ## Permutations -/

/-- Property lines of different names, in whatever order, make the same component or block, or none. -/
theorem icalParse_body_perm (hC : ∀ e, C.errnoAt e = false) {ls ls' : List RawLine} (hperm : ls.Perm ls')
    (hls : ∀ l ∈ ls, PropertyLine l) (hne : (lineNodes ls).Pairwise fun a b => ¬strcaseEq a.name b.name) {p p' : IcalParse ρ}
    (hcomps : p'.ical.comps = p.ical.comps) {r r' : ρ} (hreads : Reads p.src ls r) (hreads' : Reads p'.src ls' r')
    {fuel fuel' : Nat} (hfuel : ls.length < fuel) (hfuel' : ls.length < fuel') :
    (∀ type : IcalType, EndsAt type.name r → EndsAt type.name r' →
      compsAfter (icalParsecomp C fuel type p) = compsAfter (icalParsecomp C fuel' type p')) ∧
    ∀ type : IcalTzType, EndsAt type.name r → EndsAt type.name r' →
      compsAfter (icalParsetz C fuel type p) = compsAfter (icalParsetz C fuel' type p') := by
  have hls' : ∀ l ∈ ls', PropertyLine l := fun l hl => hls l (hperm.mem_iff.mpr hl)
  have hnodes : (lineNodes ls).Perm (lineNodes ls') := hperm.filterMap _
  have hlen : ls'.length < fuel' := hperm.length_eq ▸ hfuel'
  constructor
  · intro type hr hr'
    have hnew : newComp type p' = newComp type p := by
      unfold newComp
      rw [hcomps]
    have halloc : (p'.ical.alloc type).comps = (p.ical.alloc type).comps := by
      unfold Ical.alloc
      rw [hcomps]
    rw [icalParsecomp_body hC hls hr hreads, icalParsecomp_body hC hls' hr' hreads', if_pos hfuel, if_pos hlen,
      LineFields.run_perm hnodes hne, hnew]
    refine congrArg _ (funext fun x => ?_)
    rw [modifyComp_congr halloc]
  · intro type hr hr'
    rw [icalParsetz_body hC hls hr hreads, icalParsetz_body hC hls' hr' hreads', hcomps,
      LineFields.run_perm hnodes hne]
    by_cases hzones : p.ical.comps .vtimezone = []
    · rw [if_neg fun h => h.1 hzones, if_neg fun h => h.1 hzones]
    · rw [if_pos ⟨hzones, hfuel⟩, if_pos ⟨hzones, hlen⟩]
      refine congrArg _ (funext fun z => ?_)
      rw [addTz, modifyComp_congr hcomps]

/-- A rule with an end, a start and a name. -/
def weeklyLines : List RawLine :=
  ["RRULE:FREQ=WEEKLY;UNTIL=20200201T120000Z", "DTSTART:20200101T120000Z", "UID:a"].map fun s => ⟨ascii s, 1⟩

def endLines : List RawLine := [⟨ascii "END:VEVENT", 1⟩]

theorem reads_end (ls : List RawLine) : Reads (ls ++ endLines) ls endLines := by
  induction ls with
  | nil => exact .nil _
  | cons l ls ih => exact .cons rfl ih

theorem endsAt_end : EndsAt IcalType.vevent.name endLines :=
  .inr ⟨⟨ascii "END:VEVENT", 1⟩, [], ⟨ascii "END", none, ascii "VEVENT"⟩, rfl, by decide +kernel, by decide +kernel, by decide +kernel⟩

/-- The rule may come first or last. -/
theorem icalParse_body_perm_until :
    compsAfter (icalParsecomp .utcClear 5 .vevent (.start none false (weeklyLines ++ endLines))) =
      compsAfter (icalParsecomp .utcClear 5 .vevent (.start none false (weeklyLines.reverse ++ endLines))) := by
  have hperm : weeklyLines.Perm weeklyLines.reverse := (List.reverse_perm weeklyLines).symm
  have hls : ∀ l ∈ weeklyLines, PropertyLine l := by decide +kernel
  have hne : (lineNodes weeklyLines).Pairwise fun a b => ¬strcaseEq a.name b.name := by decide +kernel
  have hcomps : (IcalParse.start none false (weeklyLines.reverse ++ endLines)).ical.comps =
      (IcalParse.start none false (weeklyLines ++ endLines)).ical.comps := rfl
  have hreads : Reads (IcalParse.start none false (weeklyLines ++ endLines)).src weeklyLines endLines := reads_end _
  have hreads' : Reads (IcalParse.start none false (weeklyLines.reverse ++ endLines)).src weeklyLines.reverse endLines :=
    reads_end _
  have hlen : weeklyLines.length < 5 := by decide
  exact (icalParse_body_perm (C := .utcClear) (fun _ => rfl) hperm hls hne hcomps hreads hreads' hlen hlen).1 .vevent
    endsAt_end endsAt_end

end Kcaldav
