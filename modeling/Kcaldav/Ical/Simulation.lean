import Kcaldav.Ical.Adequacy
import Kcaldav.Ical.Errno

/-! # Runs over two sources

An accepted run over one source of lines is matched by one over another, as long
as the lines the first run reads have nodes alike in the second and `errno` is
clearer there. Only what the checks look at is carried along: the components
without their durations.
-/
namespace Kcaldav
open CString Fallible LineReader

variable {C : Libc}

/-! ## Components without durations -/

def IcalComp.undated (c : IcalComp) : IcalComp := { c with duration := .zero }

def Ical.undated (i : Ical) (t : IcalType) : List IcalComp := (i.comps t).map IcalComp.undated

theorem undated_eq {c₁ c₂ : IcalComp} (h : c₁.undated = c₂.undated) : ∃ v, c₂ = { c₁ with duration := v } := by
  refine ⟨c₂.duration, ?_⟩
  cases c₁
  cases c₂
  simp only [IcalComp.undated, IcalComp.mk.injEq] at h ⊢
  simp [h]

theorem compAt_undated (c : CompRef) {i₁ i₂ : Ical} (h : i₁.undated = i₂.undated) :
    (compAt c i₁).undated = (compAt c i₂).undated := by
  have hlist := congrArg (fun l => l[c.idx]?) (congrFun h c.type)
  simp only [Ical.undated, List.getElem?_map] at hlist
  unfold compAt Ical.comp?
  cases h₁ : (i₁.comps c.type)[c.idx]? <;> cases h₂ : (i₂.comps c.type)[c.idx]? <;> simp [h₁, h₂] at hlist ⊢
  exact hlist

theorem alloc_undated (type : IcalType) (i : Ical) :
    (i.alloc type).undated = fun t => if t = type then i.undated t ++ [.new type] else i.undated t := by
  funext t
  unfold Ical.undated Ical.alloc
  dsimp only
  split
  · rw [List.map_append]
    rfl
  · rfl

theorem modifyComp_undated (c : CompRef) {f g : IcalComp → IcalComp} (h : ∀ z, (f z).undated = g z.undated)
    (i : Ical) :
    (i.modifyComp c f).undated = fun t => if t = c.type then (i.undated t).modify c.idx g else i.undated t := by
  funext t
  unfold Ical.undated Ical.modifyComp
  dsimp only
  split
  · apply List.ext_getElem?
    intro j
    rw [List.getElem?_map, List.getElem?_modify, List.getElem?_modify, List.getElem?_map]
    cases (i.comps t)[j]? with
    | none => rfl
    | some z =>
      by_cases hj : c.idx = j
      · simp [hj, h]
      · simp [hj]
  · rfl

theorem addTz_undated (zones : Nat) (c : IcalTz) (i : Ical) :
    (addTz zones c i).undated = fun t => if t = .vtimezone then
      (i.undated t).modify (zones - 1) fun z => { z with tzs := z.tzs ++ [c] } else i.undated t :=
  modifyComp_undated ⟨.vtimezone, zones - 1⟩ (g := fun z => { z with tzs := z.tzs ++ [c] }) (fun _ => rfl) i

theorem undated_length {i₁ i₂ : Ical} (h : i₁.undated = i₂.undated) (t : IcalType) :
    (i₁.comps t).length = (i₂.comps t).length := by
  simpa [Ical.undated] using congrArg List.length (congrFun h t)

/-! ## The parts of the loops -/

theorem icalTzField_uniform (np : IcalNode) (c : IcalTz) : Uniform C (icalTzField C np c) := by
  unfold icalTzField
  refine .ite ?_ (.ite ?_ (.ite ?_ (.ite ?_ (.pure _))))
  · exact .bind (icalLocaldatetime_uniform _) fun _ => .pure _
  · exact .bind (icalUtcOffs_uniform _) fun _ => .pure _
  · exact .bind (icalUtcOffs_uniform _) fun _ => .pure _
  · exact .bind (icalRrule_uniform _ _) fun _ => .pure _

theorem icalTzCheck_uniform (c : IcalTz) : Uniform C (icalTzCheck c) := .ite (.icalFail _) (.pure _)

theorem icalCompCheck_simulates (l₁ l₂ : Nat) {c₁ c₂ : IcalComp} (h : c₁.undated = c₂.undated) :
    Simulates Clearer Eq (icalCompCheck l₁ c₁) (icalCompCheck l₂ c₂) := by
  obtain ⟨v, rfl⟩ := undated_eq h
  have fails (l : Nat) (msg : String) (y : Value Unit) : Simulates Clearer Eq (icalFailAt l msg : Value Unit) y :=
    .of_none _ fun _ => rfl
  unfold icalCompCheck
  dsimp only
  refine .ite (.of_none _ fun _ => rfl) ?_
  cases c₁.type with
  | vevent => exact .ite (fails _ _ _) (.ite (fails _ _ _) (.pure rfl))
  | vtimezone => exact .ite (fails _ _ _) (.pure rfl)
  | _ => exact .pure rfl

theorem icalCompField_simulates (np : IcalNode) {c₁ c₂ : IcalComp} (h : c₁.undated = c₂.undated) :
    Simulates Clearer (fun r₁ r₂ => r₁.1.undated = r₂.1.undated ∧ r₁.2 = r₂.2) (icalCompField C np c₁)
      (icalCompField C np c₂) := by
  obtain ⟨v, rfl⟩ := undated_eq h
  have set {α : Type} {x : Value α} (hx : Uniform C x) {f g : α → IcalComp} (hfg : ∀ a, (f a).undated = (g a).undated) :
      Simulates Clearer (fun r₁ r₂ => r₁.1.undated = r₂.1.undated ∧ r₁.2 = r₂.2)
        (x >>= fun a => pure (f a, np.val)) (x >>= fun a => pure (g a, np.val)) :=
    .bind hx.tame fun a b hab => .pure ⟨hab ▸ hfg a, rfl⟩
  unfold icalCompField
  refine .ite ?_ (.ite ?_ (.ite ?_ (.ite ?_ (.ite ?_ (.ite ?_ (.ite ?_ (.ite ?_ (.ite ?_ (.pure ⟨h, rfl⟩)))))))))
  · exact set (icalString_uniform _) fun _ => rfl
  · exact set (icalUtcdatetime_uniform _) fun _ => rfl
  · exact set (icalUtcdatetime_uniform _) fun _ => rfl
  · exact set (icalUtcdatetime_uniform _) fun _ => rfl
  · exact set (icalTzdatetime_uniform _) fun _ => rfl
  · exact set (icalTzdatetime_uniform _) fun _ => rfl
  · exact .bind (icalDuration_clearer _) fun r₁ r₂ hr => .pure ⟨rfl, congrArg cstr hr⟩
  · exact set (icalString_uniform _) fun _ => rfl
  · exact set (icalRrule_uniform _ _) fun _ => rfl

/-! ## Runs -/

variable {ρ₁ ρ₂ : Type} [LineReader ρ₁] [LineReader ρ₂]

/-- The second source answers like the first, down to the size at which the first
run stops reading. -/
structure Answers (R : ρ₁ → ρ₂ → Prop) (stop : Nat) : Prop where
  line {r₁ r₁' : ρ₁} {r₂ : ρ₂} {l : RawLine} {np : IcalNode} : R r₁ r₂ → stop < size r₁ →
    read r₁ = some (l, r₁') → splitLine (cstr l.text) = some np →
    ∃ l₂ r₂', read r₂ = some (l₂, r₂') ∧ l₂.text ≠ [] ∧ splitLine (cstr l₂.text) = some np ∧ R r₁' r₂'
  eof {r₁ : ρ₁} {r₂ : ρ₂} : R r₁ r₂ → read r₁ = none → read r₂ = none

structure Sim (R : ρ₁ → ρ₂ → Prop) (p₁ : IcalParse ρ₁) (p₂ : IcalParse ρ₂) : Prop where
  src : R p₁.src p₂.src
  stale₁ : p₁.Stale
  stale₂ : p₂.Stale
  clearer : Clearer p₁.diag p₂.diag
  undated : p₁.ical.undated = p₂.ical.undated

variable {R : ρ₁ → ρ₂ → Prop} {stop : Nat}

omit [LineReader ρ₁] [LineReader ρ₂] in
theorem Valued.sim {α β : Type} {S : α → β → Prop} {x : Value α} {y : Value β} (hxy : Simulates Clearer S x y)
    {p₁ p₁' : IcalParse ρ₁} {p₂ : IcalParse ρ₂} {a : α} (h : Valued x p₁ a p₁') (hs : Sim R p₁ p₂) :
    ∃ b p₂', Valued y p₂ b p₂' ∧ S a b ∧ Sim R p₁' p₂' := by
  obtain ⟨d₁, hx, rfl⟩ := valued_iff.mp h
  obtain ⟨b, d₂, hy, hab, hd⟩ := hxy _ _ a d₁ hs.clearer hx
  exact ⟨b, _, valued_iff.mpr ⟨d₂, hy, rfl⟩, hab, hs.src, hs.stale₁, hs.stale₂, hd, hs.undated⟩

omit [LineReader ρ₁] [LineReader ρ₂] in
theorem Sim.enter {p₁ : IcalParse ρ₁} {p₂ : IcalParse ρ₂} (hs : Sim R p₁ p₂) {tt : IcalType} :
    Sim R (enterComp tt p₁) (enterComp tt p₂) :=
  ⟨hs.src, hs.stale₁, hs.stale₂, hs.clearer, by simp only [enterComp, alloc_undated, hs.undated]⟩

theorem Next.sim (hR : Answers R stop) {p₁ p₁' : IcalParse ρ₁} {p₂ : IcalParse ρ₂} {np : IcalNode}
    (h : Next p₁ np p₁') (hs : Sim R p₁ p₂) (hstop : stop ≤ size p₁'.src) :
    ∃ p₂', Next p₂ np p₂' ∧ Sim R p₁' p₂' := by
  have hsize := hstop.trans_lt (next_size h)
  obtain ⟨l, src, hr, hne, hsplit, rfl⟩ := (next_iff hs.stale₁).mp h
  obtain ⟨l₂, src₂, hr₂, hne₂, hsplit₂, hR'⟩ := hR.line hs.src hsize hr hsplit
  have stale {ρ : Type} {p : IcalParse ρ} {l : RawLine} {src : ρ} : (nextState p l src np).Stale := by
    intro b hb
    cases hb
    exact splitLine_name hsplit
  exact ⟨_, (next_iff hs.stale₂).mpr ⟨l₂, src₂, hr₂, hne₂, hsplit₂, rfl⟩, hR', stale, stale, hs.clearer, hs.undated⟩

theorem TzRun.sim (hR : Answers R stop) {type : IcalTzType} {c c' : IcalTz} {p₁ p₁' : IcalParse ρ₁}
    (h : TzRun C type c p₁ c' p₁') : ∀ p₂ : IcalParse ρ₂, Sim R p₁ p₂ → stop ≤ size p₁'.src →
      ∃ p₂', TzRun C type c p₂ c' p₂' ∧ Sim R p₁' p₂' := by
  induction h with
  | eof hr => exact fun p₂ hs _ => ⟨p₂, .eof (hR.eof hs.src hr), hs⟩
  | stop hnext hend hval =>
    intro p₂ hs hstop
    obtain ⟨q, hnext₂, hs⟩ := hnext.sim hR hs hstop
    exact ⟨q, .stop hnext₂ hend hval, hs⟩
  | skip hnext hend hval hrun ih =>
    intro p₂ hs hstop
    obtain ⟨q, hnext₂, hs⟩ := hnext.sim hR hs (hstop.trans hrun.size_le)
    obtain ⟨p₂', hrun₂, hs⟩ := ih q hs hstop
    exact ⟨p₂', .skip hnext₂ hend hval hrun₂, hs⟩
  | field hnext hend hv hrun ih =>
    intro p₂ hs hstop
    obtain ⟨q, hnext₂, hs⟩ := hnext.sim hR hs (hstop.trans (hv.src ▸ hrun.size_le))
    obtain ⟨c₁, q₁, hv₂, rfl, hs⟩ := hv.sim (icalTzField_uniform _ _).tame hs
    obtain ⟨p₂', hrun₂, hs⟩ := ih q₁ hs hstop
    exact ⟨p₂', .field hnext₂ hend hv₂ hrun₂, hs⟩

theorem TzBlock.sim (hR : Answers R stop) {type : IcalTzType} {p₁ p₁' : IcalParse ρ₁} {p₂ : IcalParse ρ₂}
    (h : TzBlock C type p₁ p₁') (hs : Sim R p₁ p₂) (hstop : stop ≤ size p₁'.src) :
    ∃ p₂', TzBlock C type p₂ p₂' ∧ Sim R p₁' p₂' := by
  obtain ⟨c, q₁, q₁', hz, hrun, hcheck, rfl⟩ := h
  have hlen := undated_length hs.undated .vtimezone
  obtain ⟨q₂, hrun₂, hs'⟩ := hrun.sim hR p₂ hs (hcheck.src ▸ hstop)
  obtain ⟨u, q₂', hcheck₂, -, hs'⟩ := hcheck.sim (icalTzCheck_uniform (C := C) c).tame hs'
  refine ⟨_, ⟨c, q₂, q₂', fun hnil => hz ?_, hrun₂, hcheck₂, rfl⟩, hs'.src, hs'.stale₁, hs'.stale₂, hs'.clearer, ?_⟩
  · rw [hnil] at hlen
    exact List.length_eq_zero_iff.mp hlen
  · dsimp only
    rw [hlen, addTz_undated, addTz_undated, hs'.undated]

omit [LineReader ρ₁] [LineReader ρ₂] in
theorem icalCompLine_sim {c : CompRef} {np : IcalNode} {p₁ p₁' : IcalParse ρ₁} {p₂ : IcalParse ρ₂}
    (h : icalCompLine C c np p₁ = (some (), p₁')) (hs : Sim R p₁ p₂) :
    ∃ p₂', icalCompLine C c np p₂ = (some (), p₂') ∧ Sim R p₁' p₂' := by
  obtain ⟨comp, val, d, hv, rfl⟩ := icalCompLine_iff.mp h
  obtain ⟨⟨comp₂, val₂⟩, d₂, hv₂, ⟨hcomp, hval⟩, hd⟩ :=
    icalCompField_simulates np (compAt_undated c hs.undated) _ _ _ d hs.clearer hv
  refine ⟨_, icalCompLine_iff.mpr ⟨comp₂, val₂, d₂, hv₂, rfl⟩, hs.src, hs.stale₁, hs.stale₂, hd, ?_⟩
  have h₁ := modifyComp_undated c (f := fun _ => comp) (g := fun _ => comp.undated) (fun _ => rfl) p₁.ical
  have h₂ := modifyComp_undated c (f := fun _ => comp₂) (g := fun _ => comp.undated) (fun _ => hcomp.symm) p₂.ical
  rw [hs.undated] at h₁
  exact h₁.trans h₂.symm

theorem CompRound.sim (hR : Answers R stop) {N₁ : CompRef → IcalParse ρ₁ → IcalParse ρ₁ → Prop}
    {N₂ : CompRef → IcalParse ρ₂ → IcalParse ρ₂ → Prop}
    (hsize : ∀ c p p', N₁ c p p' → size p'.src ≤ size p.src)
    (hN : ∀ c p p', N₁ c p p' → ∀ q, Sim R p q → stop ≤ size p'.src → ∃ q', N₂ c q q' ∧ Sim R p' q')
    {c : CompRef} {p p₁ : IcalParse ρ₁} (h : CompRound C N₁ c p p₁) {q : IcalParse ρ₂} (hs : Sim R p q)
    (hstop : stop ≤ size p₁.src) : ∃ q₁, CompRound C N₂ c q q₁ ∧ Sim R p₁ q₁ := by
  cases h with
  | skip hnext hbegin hend hval =>
    obtain ⟨q₁, hnext₂, hs⟩ := hnext.sim hR hs hstop
    exact ⟨q₁, .skip hnext₂ hbegin hend hval, hs⟩
  | unknown hnext hbegin ht htz =>
    obtain ⟨q₁, hnext₂, hs⟩ := hnext.sim hR hs hstop
    exact ⟨q₁, .unknown hnext₂ hbegin ht htz, hs⟩
  | zone hnext hbegin ht htz hzone =>
    obtain ⟨q₁, hnext₂, hs⟩ := hnext.sim hR hs (hstop.trans hzone.size_le)
    obtain ⟨q₂, hzone₂, hs⟩ := hzone.sim hR hs hstop
    exact ⟨q₂, .zone hnext₂ hbegin ht htz hzone₂, hs⟩
  | @nested p₁ p₂ _ _ tt hnext hbegin ht hnested hcheck =>
    have hstop' : stop ≤ size p₂.src := hcheck.src ▸ hstop
    have henter : size p₂.src ≤ size (enterComp tt p₁).src := hsize _ _ _ hnested
    obtain ⟨q₁, hnext₂, hs⟩ := hnext.sim hR hs (hstop'.trans henter)
    have hnew : newComp tt q₁ = newComp tt p₁ := by
      rw [newComp, newComp, undated_length hs.undated]
    obtain ⟨q₂, hnested₂, hs⟩ := hN _ _ _ hnested _ hs.enter hstop'
    obtain ⟨u, q₃, hcheck₂, -, hs⟩ := hcheck.sim
      (icalCompCheck_simulates _ q₁.diag.line (compAt_undated (newComp tt p₁) hs.undated)) hs
    rw [← hnew] at hnested₂ hcheck₂
    exact ⟨q₃, .nested hnext₂ hbegin ht hnested₂ hcheck₂, hs⟩
  | field hnext hbegin hend hline =>
    obtain ⟨q₁, hnext₂, hs⟩ := hnext.sim hR hs (icalCompLine_src hline ▸ hstop)
    obtain ⟨q₂, hline₂, hs⟩ := icalCompLine_sim hline hs
    exact ⟨q₂, .field hnext₂ hbegin hend hline₂, hs⟩

theorem CompRun.sim (hR : Answers R stop) {c : CompRef} {p₁ p₁' : IcalParse ρ₁} (h : CompRun C c p₁ p₁') :
    ∀ p₂ : IcalParse ρ₂, Sim R p₁ p₂ → stop ≤ size p₁'.src → ∃ p₂', CompRun C c p₂ p₂' ∧ Sim R p₁' p₂' := by
  induction h using CompRun.roundInduction with
  | eof c p hr => exact fun q hs _ => ⟨q, .eof (hR.eof hs.src hr), hs⟩
  | stop c p p' np hnext hbegin hend hval =>
    intro q hs hstop
    obtain ⟨q', hnext₂, hs⟩ := hnext.sim hR hs hstop
    exact ⟨q', .stop hnext₂ hbegin hend hval, hs⟩
  | round c p p₁ p' hround hrun _ ih =>
    intro q hs hstop
    obtain ⟨q₁, hround₂, hs⟩ := hround.sim hR (fun _ _ _ hN => hN.1.size_le) (fun _ _ _ hN => hN.2) hs
      (hstop.trans hrun.size_le)
    obtain ⟨q', hrun₂, hs⟩ := ih q₁ hs hstop
    exact ⟨q', .round hround₂ hrun₂, hs⟩

/-! ## Whole files -/

section
variable {D : Diag → Diag → Prop}

theorem icalPostparseTz_simulates {z₁ z₂ : List IcalComp} (h : z₁.map IcalComp.undated = z₂.map IcalComp.undated)
    (tm : IcalTime) : Simulates D Eq (icalPostparseTz z₁ tm) (icalPostparseTz z₂ tm) := by
  unfold icalPostparseTz
  cases tm.tzstr with
  | none => exact .pure rfl
  | some tzstr =>
    have hfind (z : List IcalComp) : z.findIdx? (fun z => strcaseEq (z.tzid.getD []) tzstr) =
        (z.map IcalComp.undated).findIdx? fun z => strcaseEq (z.tzid.getD []) tzstr := by
      rw [List.findIdx?_map]
      rfl
    dsimp only
    rw [hfind z₁, h, ← hfind z₂]
    cases z₂.findIdx? fun z => strcaseEq (z.tzid.getD []) tzstr with
    | none => exact .of_none _ fun _ => rfl
    | some i => exact .pure rfl

theorem icalPostparseComps_simulates {z₁ z₂ : List IcalComp}
    (h : z₁.map IcalComp.undated = z₂.map IcalComp.undated) (cs₁ : List IcalComp) : ∀ cs₂ : List IcalComp,
      cs₁.map IcalComp.undated = cs₂.map IcalComp.undated →
      Simulates D (fun cs₁ cs₂ => cs₁.map IcalComp.undated = cs₂.map IcalComp.undated)
        (icalPostparseComps z₁ cs₁) (icalPostparseComps z₂ cs₂) := by
  induction cs₁ with
  | nil =>
    intro cs₂ hcs
    obtain rfl := List.map_eq_nil_iff.mp hcs.symm
    exact .pure rfl
  | cons c₁ cs₁ ih =>
    intro cs₂ hcs
    cases cs₂ with
    | nil => cases hcs
    | cons c₂ cs₂ =>
      rw [List.map_cons, List.map_cons] at hcs
      obtain ⟨hc, htail⟩ := List.cons.inj hcs
      obtain ⟨v, rfl⟩ := undated_eq hc
      refine .bind (icalPostparseTz_simulates h c₁.dtstart) fun dtstart _ he => ?_
      subst he
      refine .bind (icalPostparseTz_simulates h c₁.dtend) fun dtend _ he => ?_
      subst he
      refine .bind (ih cs₂ htail) fun ds₁ ds₂ hds => .pure ?_
      rw [List.map_cons, List.map_cons, hds]
      rfl

theorem icalPostparseTypes_simulates {z₁ z₂ : List IcalComp}
    (h : z₁.map IcalComp.undated = z₂.map IcalComp.undated) (ts : List IcalType) : ∀ {i₁ i₂ : Ical},
      i₁.undated = i₂.undated →
      Simulates D (fun i₁ i₂ => i₁.undated = i₂.undated) (icalPostparseTypes z₁ ts i₁)
        (icalPostparseTypes z₂ ts i₂) := by
  induction ts with
  | nil => exact fun hi => .pure hi
  | cons t ts ih =>
    intro i₁ i₂ hi
    refine .bind (icalPostparseComps_simulates h _ _ (congrFun hi t)) fun cs₁ cs₂ hcs => ih ?_
    funext u
    have hu := congrFun hi u
    unfold Ical.undated at hu ⊢
    dsimp only
    split
    · exact hcs
    · exact hu

end

omit [LineReader ρ₁] [LineReader ρ₂] in
/-- Whether the time zones are found depends on the components alone. -/
theorem icalPostparse_undated {p : IcalParse ρ₁} {q : IcalParse ρ₂} (hu : p.ical.undated = q.ical.undated)
    (h : ∃ p', icalPostparse p = (some (), p')) : ∃ q', icalPostparse q = (some (), q') := by
  obtain ⟨p', hp⟩ := h
  obtain ⟨i, d, hi, rfl⟩ := icalPostparse_some hp
  obtain ⟨j, e, hj, -, -⟩ := icalPostparseTypes_simulates (D := fun _ _ => True) (congrFun hu .vtimezone)
    IcalType.all hu p.diag q.diag i d trivial hi
  refine ⟨{ q with diag := e, ical := j }, ?_⟩
  simp only [icalPostparse, gets_bind]
  exact bind_eq_some.mpr ⟨j, _, valued_iff.mpr ⟨e, hj, rfl⟩, rfl⟩

/-- Acceptance carries over to a source that answers alike. -/
theorem Accepted.sim (hR : Answers R stop) {p₁ p₁' : IcalParse ρ₁} {p₂ : IcalParse ρ₂} (h : Accepted C p₁ p₁')
    (hs : Sim R p₁ p₂) (hstop : stop ≤ size p₁'.src) : ∃ p₂', Accepted C p₂ p₂' := by
  obtain @⟨np, q₁, q₂, q₃, hnext, hbegin, hcal, hrun, hcheck, hpost⟩ := h
  obtain ⟨i, d, hi, rfl⟩ := icalPostparse_some hpost
  have hstop : stop ≤ size q₂.src := hcheck.src ▸ hstop
  obtain ⟨r₁, hnext₂, hs⟩ := hnext.sim hR hs (hstop.trans hrun.size_le)
  have hnew : newComp .vcalendar r₁ = newComp .vcalendar q₁ := by
    rw [newComp, newComp, undated_length hs.undated]
  obtain ⟨r₂, hrun₂, hs⟩ := hrun.sim hR (enterComp .vcalendar r₁) hs.enter hstop
  obtain ⟨u, r₃, hcheck₂, -, hs⟩ := hcheck.sim
    (icalCompCheck_simulates _ r₁.diag.line (compAt_undated (newComp .vcalendar q₁) hs.undated)) hs
  rw [← hnew] at hrun₂ hcheck₂
  obtain ⟨p₂', hpost₂⟩ := icalPostparse_undated hs.undated ⟨_, hpost⟩
  exact ⟨p₂', .intro hnext₂ hbegin hcal hrun₂ hcheck₂ hpost₂⟩

end Kcaldav
