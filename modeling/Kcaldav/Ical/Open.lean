import Kcaldav.Ical.Simulation

/-! # Calendars that break off

Both loops also end where the lines do, so a calendar that breaks off within components
is accepted exactly where these pass the checks at their end as they stand. A run up to
a point of its source shows what is open there; every run has one for each point it
passes, and a run that ends at the end of the source is the one up to there, closed.
-/
namespace Kcaldav
open CString Fallible LineReader

variable {C : Libc} {ρ : Type} [LineReader ρ]

/-! ## Checks -/

/-- A check fails or does nothing, and which of them does not depend on the line. -/
def Tests (x : Nat → Value Unit) : Prop := (∀ line d, (x line d).1 = none) ∨ ∀ line, x line = pure ()

theorem Tests.ite {c : Prop} [Decidable c] {x y : Nat → Value Unit} (hx : Tests x) (hy : Tests y) :
    Tests fun line => if c then x line else y line := by
  by_cases hc : c
  · simpa only [if_pos hc] using hx
  · simpa only [if_neg hc] using hy

theorem Tests.pass {x : Nat → Value Unit} (hx : Tests x) (line : Nat) {d d' : Diag}
    (h : x line d = (some (), d')) : (∀ line, x line = pure ()) ∧ d' = d := by
  rcases hx with hx | hx
  · have hnone := hx line d
    rw [h] at hnone
    cases hnone
  · rw [hx] at h
    cases h
    exact ⟨hx, rfl⟩

theorem icalCompCheck_tests (c : IcalComp) : Tests fun line => icalCompCheck line c := by
  have fails (msg : String) : Tests fun line => icalFailAt line msg := .inl fun _ _ => rfl
  have passes : Tests fun _ => pure () := .inr fun _ => rfl
  unfold icalCompCheck
  refine .ite (.inl fun _ _ => rfl) ?_
  cases c.type with
  | vevent => exact .ite (fails _) (.ite (fails _) passes)
  | vtimezone => exact .ite (fails _) passes
  | _ => exact passes

theorem icalTzCheck_tests (c : IcalTz) : Tests fun _ => icalTzCheck c :=
  .ite (.inl fun _ _ => rfl) (.inr fun _ => rfl)

/-- The component passes the checks at its end. -/
def IcalComp.Complete (c : IcalComp) : Prop := ∀ line, icalCompCheck line c = pure ()

def IcalTz.Complete (c : IcalTz) : Prop := icalTzCheck c = pure ()

omit [LineReader ρ] in
theorem IcalComp.Complete.valued {c : IcalComp} (h : c.Complete) (line : Nat) (p : IcalParse ρ) :
    Valued (icalCompCheck line c) p () p := valued_iff.mpr ⟨p.diag, congrFun (h line) p.diag, rfl⟩

omit [LineReader ρ] in
theorem Valued.complete {c : IcalComp} {line : Nat} {p p' : IcalParse ρ}
    (h : Valued (icalCompCheck line c) p () p') : c.Complete ∧ p' = p := by
  obtain ⟨d, hd, rfl⟩ := valued_iff.mp h
  obtain ⟨hc, rfl⟩ := (icalCompCheck_tests c).pass line hd
  exact ⟨hc, rfl⟩

omit [LineReader ρ] in
theorem IcalTz.Complete.valued {c : IcalTz} (h : c.Complete) (p : IcalParse ρ) : Valued (icalTzCheck c) p () p :=
  valued_iff.mpr ⟨p.diag, congrFun h p.diag, rfl⟩

omit [LineReader ρ] in
theorem Valued.tzComplete {c : IcalTz} {p p' : IcalParse ρ} (h : Valued (icalTzCheck c) p () p') :
    c.Complete ∧ p' = p := by
  obtain ⟨d, hd, rfl⟩ := valued_iff.mp h
  obtain ⟨hc, rfl⟩ := (icalTzCheck_tests c).pass 0 hd
  exact ⟨hc 0, rfl⟩

/-- Durations are not looked at. -/
theorem IcalComp.Complete.undated {c₁ c₂ : IcalComp} (h : c₁.Complete) (hu : c₁.undated = c₂.undated) : c₂.Complete := by
  obtain ⟨v, rfl⟩ := undated_eq hu
  exact h

/-! ## Runs up to a point -/

section
variable (C) (stop : ρ → Prop)

/-- A time zone block, up to a point of the source. -/
inductive TzAt (type : IcalTzType) : IcalTz → IcalParse ρ → IcalTz → IcalParse ρ → Prop
  | here {c : IcalTz} {p : IcalParse ρ} : stop p.src → TzAt type c p c p
  | skip {c c' : IcalTz} {p p₁ p' : IcalParse ρ} {np : IcalNode} :
    Next p np p₁ → np.isEnd → ¬strcaseEq type.name np.val → TzAt type c p₁ c' p' → TzAt type c p c' p'
  | field {c c₁ c' : IcalTz} {p p₁ p₂ p' : IcalParse ρ} {np : IcalNode} :
    Next p np p₁ → ¬np.isEnd → Valued (icalTzField C np c) p₁ c₁ p₂ → TzAt type c₁ p₂ c' p' →
    TzAt type c p c' p'

/-- The loop of a component, up to a point of the source: the components open there,
the outermost first, and the time zone block, which is entered as it stands. -/
inductive CompAt : CompRef → IcalParse ρ → List CompRef → Option IcalTz → IcalParse ρ → Prop
  | here {c : CompRef} {p : IcalParse ρ} : stop p.src → CompAt c p [c] none p
  | round {c : CompRef} {p p₁ p' : IcalParse ρ} {cs : List CompRef} {z : Option IcalTz} :
    CompRound C (CompRun C) c p p₁ → CompAt c p₁ cs z p' → CompAt c p cs z p'
  | zone {c : CompRef} {p p₁ p₂ : IcalParse ρ} {np : IcalNode} {tz : IcalTzType} {z : IcalTz} :
    Next p np p₁ → np.isBegin → icalTypeOf np.val = none → icalTzTypeOf np.val = some tz →
    p₁.ical.comps .vtimezone ≠ [] → TzAt C stop tz (.new tz) p₁ z p₂ →
    CompAt c p [c] (some z) { p₂ with ical := addTz (p₁.ical.comps .vtimezone).length z p₂.ical }
  | nested {c : CompRef} {p p₁ p' : IcalParse ρ} {np : IcalNode} {tt : IcalType} {cs : List CompRef}
      {z : Option IcalTz} :
    Next p np p₁ → np.isBegin → icalTypeOf np.val = some tt → CompAt (newComp tt p₁) (enterComp tt p₁) cs z p' →
    CompAt c p (c :: cs) z p'

end

variable {stop : ρ → Prop}

theorem TzAt.stopped {type : IcalTzType} {c c' : IcalTz} {p p' : IcalParse ρ} (h : TzAt C stop type c p c' p') :
    stop p'.src := by
  induction h with
  | here hstop => exact hstop
  | skip _ _ _ _ ih => exact ih
  | field _ _ _ _ ih => exact ih

theorem CompAt.stopped {c : CompRef} {p p' : IcalParse ρ} {cs : List CompRef} {z : Option IcalTz}
    (h : CompAt C stop c p cs z p') : stop p'.src := by
  induction h with
  | here hstop => exact hstop
  | round _ _ ih => exact ih
  | zone _ _ _ _ _ htz => exact htz.stopped
  | nested _ _ _ _ ih => exact ih

theorem TzAt.size_le {n : Nat} (hsize : ∀ r, stop r → n ≤ size r) {type : IcalTzType} {c c' : IcalTz}
    {p p' : IcalParse ρ} (h : TzAt C stop type c p c' p') : n ≤ size p.src := by
  induction h with
  | here hstop => exact hsize _ hstop
  | skip hnext _ _ _ ih => exact ih.trans (next_size hnext).le
  | field hnext _ hv _ ih => exact ih.trans (hv.src ▸ (next_size hnext).le)

theorem CompAt.size_le {n : Nat} (hsize : ∀ r, stop r → n ≤ size r) {c : CompRef} {p p' : IcalParse ρ}
    {cs : List CompRef} {z : Option IcalTz} (h : CompAt C stop c p cs z p') : n ≤ size p.src := by
  induction h with
  | here hstop => exact hsize _ hstop
  | round hround _ ih => exact ih.trans (hround.size_lt fun _ _ _ hN => hN.size_le).le
  | zone hnext _ _ _ _ hat => exact (hat.size_le hsize).trans (next_size hnext).le
  | nested hnext _ _ _ ih =>
    have hsize := next_size hnext
    exact ih.trans hsize.le

/-- The component itself is the outermost of those open. -/
theorem CompAt.outermost {c : CompRef} {p p' : IcalParse ρ} {cs : List CompRef} {z : Option IcalTz}
    (h : CompAt C stop c p cs z p') : cs = c :: cs.tail := by
  induction h with
  | here => rfl
  | round _ _ ih => exact ih
  | zone => rfl
  | nested => rfl

/-! ## At the end of the source -/

/-- There is nothing left to read. -/
def Ended (r : ρ) : Prop := read r = none

theorem TzAt.run {type : IcalTzType} {c c' : IcalTz} {p p' : IcalParse ρ} (h : TzAt C Ended type c p c' p') :
    TzRun C type c p c' p' := by
  induction h with
  | here hend => exact .eof hend
  | skip hnext hend hval _ ih => exact .skip hnext hend hval ih
  | field hnext hend hv _ ih => exact .field hnext hend hv ih

/-- What is open is closed where it stands. -/
theorem CompAt.run {c : CompRef} {p p' : IcalParse ρ} {cs : List CompRef} {z : Option IcalTz}
    (h : CompAt C Ended c p cs z p') (hcs : ∀ o ∈ cs.tail, (compAt o p'.ical).Complete)
    (hz : ∀ t ∈ z, t.Complete) : CompRun C c p p' := by
  induction h with
  | here hend => exact .eof hend
  | round hround _ ih => exact .round hround (ih hcs hz)
  | zone hnext hbegin ht htz hne hat =>
    exact .zone hnext hbegin ht htz ⟨_, _, _, hne, hat.run, (hz _ rfl).valued _, rfl⟩ (.eof hat.stopped)
  | nested hnext hbegin ht hat ih =>
    have hnested := ih (fun o ho => hcs o (List.mem_of_mem_tail ho)) hz
    have hcheck := hcs _ (hat.outermost ▸ List.mem_cons_self)
    exact .nested hnext hbegin ht hnested (hcheck.valued _ _) (.eof hat.stopped)

theorem TzRun.unique {type : IcalTzType} {c c' c'' : IcalTz} {p p' p'' : IcalParse ρ}
    (h : TzRun C type c p c' p') (h' : TzRun C type c p c'' p'') : c' = c'' ∧ p' = p'' := by
  have hloop := loop_of_tzRun h (size p.src + 1) (Nat.lt_succ_self _)
  rw [loop_of_tzRun h' (size p.src + 1) (Nat.lt_succ_self _)] at hloop
  cases hloop
  exact ⟨rfl, rfl⟩

theorem CompRun.unique {c : CompRef} {p p' p'' : IcalParse ρ} (h : CompRun C c p p') (h' : CompRun C c p p'') :
    p' = p'' := by
  have hloop := loop_of_compRun h (size p.src + 1) (Nat.lt_succ_self _)
  rw [loop_of_compRun h' (size p.src + 1) (Nat.lt_succ_self _)] at hloop
  cases hloop
  rfl

/-- A run goes on from each of its rounds. -/
theorem CompRun.after {c : CompRef} {p p₁ p' : IcalParse ρ} (h : CompRun C c p p')
    (hround : CompRound C (CompRun C) c p p₁) : CompRun C c p₁ p' := by
  have hloop := loop_of_compRun h (size p.src + 1) (Nat.lt_succ_self _)
  rw [loop_of_round (fun _ _ _ hN => loop_of_compRun hN) hround le_rfl] at hloop
  exact compRun_of_loop hloop

/-- A run through a source is the one up to its end, closed there. -/
theorem CompAt.run_unique {c : CompRef} {p q : IcalParse ρ} {cs : List CompRef} {z : Option IcalTz}
    (h : CompAt C Ended c p cs z q) : ∀ p', CompRun C c p p' →
      p' = q ∧ (∀ o ∈ cs.tail, (compAt o q.ical).Complete) ∧ ∀ t ∈ z, t.Complete := by
  induction h with
  | here hend => exact fun p' hrun => ⟨hrun.unique (.eof hend), by simp, by simp⟩
  | round hround _ ih => exact fun p' hrun => ih p' (hrun.after hround)
  | @zone c p p₁ p₂ np tz z hnext hbegin ht htz hne hat =>
    intro p' hrun
    have hloop := loop_of_compRun hrun (size p.src + 1) (Nat.lt_succ_self _)
    rw [loop_of_next hnext, icalCompNode, if_pos hbegin, ht, htz] at hloop
    obtain ⟨u, q, hparse, hloop⟩ := bind_eq_some.mp hloop
    obtain ⟨z', q₁, q₂, -, hzone, hcheck, rfl⟩ := tzBlock_of_parsetz hparse
    obtain ⟨rfl, rfl⟩ := hzone.unique hat.run
    obtain ⟨hz, rfl⟩ := hcheck.tzComplete
    refine ⟨(compRun_of_loop hloop).unique (.eof hat.stopped), by simp, ?_⟩
    rintro t ⟨⟩
    exact hz
  | @nested c p p₁ q np tt cs z hnext hbegin ht hat ih =>
    intro p' hrun
    have hloop := loop_of_compRun hrun (size p.src + 1) (Nat.lt_succ_self _)
    rw [loop_of_next hnext, icalCompNode, if_pos hbegin, ht] at hloop
    obtain ⟨u, q₃, hcomp, hloop⟩ := bind_eq_some.mp hloop
    obtain ⟨q₂, hnested, hcheck⟩ := icalParsecompWith_some.mp hcomp
    obtain ⟨rfl, hcs, hz⟩ := ih q₂ (compRun_of_loop hnested)
    obtain ⟨hcomplete, rfl⟩ := hcheck.complete
    refine ⟨(compRun_of_loop hloop).unique (.eof hat.stopped), fun o ho => ?_, hz⟩
    rw [List.tail_cons, hat.outermost] at ho
    rcases List.mem_cons.mp ho with rfl | ho
    · exact hcomplete
    · exact hcs o ho

/-! ## Points a run passes -/

section
variable {r : ρ} {ls : List RawLine}

theorem Next.passes {p p₁ : IcalParse ρ} {np : IcalNode} (h : Next p np p₁) (hr : Reads p.src ls r) :
    p.src = r ∨ ∃ ls, Reads p₁.src ls r := by
  obtain ⟨l, hread⟩ := next_reads h
  cases hr with
  | nil => exact .inl rfl
  | cons hread' hrest =>
    rw [hread] at hread'
    cases hread'
    exact .inr ⟨_, hrest⟩

theorem TzRun.passes {type : IcalTzType} {c c' : IcalTz} {p p' : IcalParse ρ} (h : TzRun C type c p c' p')
    (hr : Reads p.src ls r) (hlt : size p'.src < size r) : ∃ z q, TzAt C (· = r) type c p z q := by
  induction h generalizing ls with
  | eof => exact absurd hr.size_le (Nat.not_le.mpr hlt)
  | stop hnext =>
    rcases hnext.passes hr with hhere | ⟨ls, hr⟩
    · exact ⟨_, _, .here hhere⟩
    · exact absurd hr.size_le (Nat.not_le.mpr hlt)
  | skip hnext hend hval _ ih =>
    rcases hnext.passes hr with hhere | ⟨ls, hr⟩
    · exact ⟨_, _, .here hhere⟩
    · obtain ⟨z, q, hat⟩ := ih hr hlt
      exact ⟨z, q, .skip hnext hend hval hat⟩
  | field hnext hend hv _ ih =>
    rcases hnext.passes hr with hhere | ⟨ls, hr⟩
    · exact ⟨_, _, .here hhere⟩
    · obtain ⟨z, q, hat⟩ := ih (hv.src ▸ hr) hlt
      exact ⟨z, q, .field hnext hend hv hat⟩

theorem CompRound.passes {N : CompRef → IcalParse ρ → IcalParse ρ → Prop}
    (hN : ∀ c p p', N c p p' → ∀ ls, Reads p.src ls r → size p'.src < size r →
      ∃ cs z q, CompAt C (· = r) c p cs z q)
    {c : CompRef} {p p₁ : IcalParse ρ} (h : CompRound C N c p p₁) (hr : Reads p.src ls r)
    (hlt : size p₁.src < size r) : ∃ cs z q, CompAt C (· = r) c p cs z q := by
  cases h with
  | skip hnext =>
    rcases hnext.passes hr with hhere | ⟨ls, hr⟩
    · exact ⟨_, _, _, .here hhere⟩
    · exact absurd hr.size_le (Nat.not_le.mpr hlt)
  | unknown hnext =>
    rcases hnext.passes hr with hhere | ⟨ls, hr⟩
    · exact ⟨_, _, _, .here hhere⟩
    · exact absurd hr.size_le (Nat.not_le.mpr hlt)
  | zone hnext hbegin ht htz hzone =>
    rcases hnext.passes hr with hhere | ⟨ls, hr⟩
    · exact ⟨_, _, _, .here hhere⟩
    · obtain ⟨z', q₁, q₂, hne, hrun, hcheck, rfl⟩ := hzone
      obtain ⟨z, q, hat⟩ := hrun.passes hr (hcheck.src ▸ hlt)
      exact ⟨_, _, _, .zone hnext hbegin ht htz hne hat⟩
  | nested hnext hbegin ht hnested hcheck =>
    rcases hnext.passes hr with hhere | ⟨ls, hr⟩
    · exact ⟨_, _, _, .here hhere⟩
    · obtain ⟨cs, z, q, hat⟩ := hN _ _ _ hnested ls hr (hcheck.src ▸ hlt)
      exact ⟨_, _, _, .nested hnext hbegin ht hat⟩
  | field hnext _ _ hline =>
    rcases hnext.passes hr with hhere | ⟨ls, hr⟩
    · exact ⟨_, _, _, .here hhere⟩
    · exact absurd hr.size_le (Nat.not_le.mpr (icalCompLine_src hline ▸ hlt))

/-- A run is at each point of the source that it passes with some components open. -/
theorem CompRun.passes {c : CompRef} {p p' : IcalParse ρ} (h : CompRun C c p p') :
    ∀ ls, Reads p.src ls r → size p'.src < size r → ∃ cs z q, CompAt C (· = r) c p cs z q := by
  induction h using CompRun.roundInduction with
  | eof => exact fun ls hr hlt => absurd hr.size_le (Nat.not_le.mpr hlt)
  | stop c p p' np hnext =>
    intro ls hr hlt
    rcases hnext.passes hr with hhere | ⟨ls, hr⟩
    · exact ⟨_, _, _, .here hhere⟩
    · exact absurd hr.size_le (Nat.not_le.mpr hlt)
  | round c p p₁ p' hround hrun _ ih =>
    intro ls hr hlt
    have hround' : CompRound C (CompRun C) c p p₁ := hround.mono fun _ _ _ hN => hN.1
    by_cases hle : size r ≤ size p₁.src
    · obtain ⟨ms, hms⟩ := hround'.reads fun _ _ _ hN => hN.reads
      obtain ⟨ks, hks⟩ := hr.between hms hle
      obtain ⟨cs, z, q, hat⟩ := ih ks hks hlt
      exact ⟨cs, z, q, .round hround' hat⟩
    · exact hround.passes (fun _ _ _ hN => hN.2) hr (Nat.not_le.mp hle)

end

/-! ## Over another source -/

section
variable {ρ₁ ρ₂ : Type} [LineReader ρ₁] [LineReader ρ₂] {R : ρ₁ → ρ₂ → Prop} {size₁ : Nat} {S₁ : ρ₁ → Prop}
  {S₂ : ρ₂ → Prop} (hR : Answers R size₁) (hS : ∀ r₁ r₂, R r₁ r₂ → S₁ r₁ → S₂ r₂) (hsize : ∀ r, S₁ r → size₁ ≤ size r)
include hR hS hsize

theorem TzAt.sim {type : IcalTzType} {c c' : IcalTz} {p p' : IcalParse ρ₁} (h : TzAt C S₁ type c p c' p') :
    ∀ q : IcalParse ρ₂, Sim R p q → ∃ q', TzAt C S₂ type c q c' q' ∧ Sim R p' q' := by
  induction h with
  | here hstop => exact fun q hs => ⟨q, .here (hS _ _ hs.src hstop), hs⟩
  | skip hnext hend hval hat ih =>
    intro q hs
    obtain ⟨q₁, hnext₂, hs⟩ := hnext.sim hR hs (hat.size_le hsize)
    obtain ⟨q', hat₂, hs⟩ := ih q₁ hs
    exact ⟨q', .skip hnext₂ hend hval hat₂, hs⟩
  | field hnext hend hv hat ih =>
    intro q hs
    obtain ⟨q₁, hnext₂, hs⟩ := hnext.sim hR hs (hv.src ▸ hat.size_le hsize)
    obtain ⟨c₁, q₂, hv₂, rfl, hs⟩ := hv.sim (icalTzField_uniform _ _).tame hs
    obtain ⟨q', hat₂, hs⟩ := ih q₂ hs
    exact ⟨q', .field hnext₂ hend hv₂ hat₂, hs⟩

theorem CompAt.sim {c : CompRef} {p p' : IcalParse ρ₁} {cs : List CompRef} {z : Option IcalTz}
    (h : CompAt C S₁ c p cs z p') :
    ∀ q : IcalParse ρ₂, Sim R p q → ∃ q', CompAt C S₂ c q cs z q' ∧ Sim R p' q' := by
  induction h with
  | here hstop => exact fun q hs => ⟨q, .here (hS _ _ hs.src hstop), hs⟩
  | round hround hat ih =>
    intro q hs
    obtain ⟨q₁, hround₂, hs⟩ := hround.sim hR (fun _ _ _ hN => hN.size_le) (fun _ _ _ hN => hN.sim hR) hs
      (hat.size_le hsize)
    obtain ⟨q', hat₂, hs⟩ := ih q₁ hs
    exact ⟨q', .round hround₂ hat₂, hs⟩
  | zone hnext hbegin ht htz hne hat =>
    intro q hs
    obtain ⟨q₁, hnext₂, hs⟩ := hnext.sim hR hs (hat.size_le hsize)
    have hlen := undated_length hs.undated .vtimezone
    obtain ⟨q₂, hat₂, hs⟩ := hat.sim hR hS hsize q₁ hs
    have hne₂ : q₁.ical.comps .vtimezone ≠ [] := by
      intro hnil
      rw [hnil] at hlen
      exact hne (List.length_eq_zero_iff.mp hlen)
    refine ⟨_, .zone hnext₂ hbegin ht htz hne₂ hat₂, hs.src, hs.stale₁, hs.stale₂, hs.clearer, ?_⟩
    dsimp only
    rw [hlen, addTz_undated, addTz_undated, hs.undated]
  | @nested c p p₁ p' np tt cs z hnext hbegin ht hat ih =>
    intro q hs
    obtain ⟨q₁, hnext₂, hs⟩ := hnext.sim hR hs (hat.size_le hsize)
    have hnew : newComp tt q₁ = newComp tt p₁ := by
      rw [newComp, newComp, undated_length hs.undated]
    obtain ⟨q', hat₂, hs⟩ := ih _ hs.enter
    rw [← hnew] at hat₂
    exact ⟨q', .nested hnext₂ hbegin ht hat₂, hs⟩

end

/-! ## Whole files -/

/-- The parse of a file has come to a point within its calendar. -/
inductive OpenAt (C : Libc) (stop : ρ → Prop) (p : IcalParse ρ) (cs : List CompRef) (z : Option IcalTz)
    (q : IcalParse ρ) : Prop
  | intro {np : IcalNode} {p₁ : IcalParse ρ} (next : Next p np p₁) (begin : np.isBegin)
    (calendar : strcaseEq np.val (ascii "VCALENDAR"))
    (within : CompAt C stop (newComp .vcalendar p₁) (enterComp .vcalendar p₁) cs z q)

/-- What is open is complete, and the time zones are there. -/
structure CanEnd (cs : List CompRef) (z : Option IcalTz) (q : IcalParse ρ) : Prop where
  comps : ∀ o ∈ cs, (compAt o q.ical).Complete
  block : ∀ t ∈ z, t.Complete
  zones : ∃ q', icalPostparse q = (some (), q')

/-- A file that breaks off is accepted exactly where it can end there. -/
theorem accepted_iff_canEnd {p q : IcalParse ρ} {cs : List CompRef} {z : Option IcalTz}
    (h : OpenAt C Ended p cs z q) : (∃ p', Accepted C p p') ↔ CanEnd cs z q := by
  obtain @⟨np, p₁, hnext, hbegin, hcal, hat⟩ := h
  constructor
  · rintro ⟨p', hnext', -, -, hrun, hcheck, hpost⟩
    have hread := hnext.2
    rw [hnext'.2] at hread
    cases hread
    obtain ⟨rfl, hcs, hz⟩ := hat.run_unique _ hrun
    obtain ⟨hcomplete, rfl⟩ := hcheck.complete
    refine ⟨fun o ho => ?_, hz, p', hpost⟩
    rw [hat.outermost] at ho
    rcases List.mem_cons.mp ho with rfl | ho
    · exact hcomplete
    · exact hcs o ho
  · rintro ⟨hcs, hz, q', hpost⟩
    have hrun := hat.run (fun o ho => hcs o (List.mem_of_mem_tail ho)) hz
    have hcomplete := hcs _ (hat.outermost ▸ List.mem_cons_self)
    exact ⟨q', .intro hnext hbegin hcal hrun (hcomplete.valued _ _) hpost⟩

/-- An accepted file is open at every point before its end but the first. -/
theorem Accepted.passes {p p' : IcalParse ρ} (h : Accepted C p p') {r : ρ} {ls : List RawLine}
    (hr : Reads p.src ls r) (hls : ls ≠ []) (hlt : size p'.src < size r) : ∃ cs z q, OpenAt C (· = r) p cs z q := by
  obtain @⟨np, p₁, p₂, p₃, hnext, hbegin, hcal, hrun, hcheck, hpost⟩ := h
  obtain ⟨i, d, -, rfl⟩ := icalPostparse_some hpost
  rcases hnext.passes hr with hhere | ⟨ls', hr'⟩
  · exact absurd (hr.size_lt hls) (by rw [hhere]; exact lt_irrefl _)
  · obtain ⟨cs, z, q, hat⟩ := hrun.passes ls' hr' (hcheck.src ▸ hlt)
    exact ⟨cs, z, q, .intro hnext hbegin hcal hat⟩

section
variable {ρ₁ ρ₂ : Type} [LineReader ρ₁] [LineReader ρ₂] {R : ρ₁ → ρ₂ → Prop} {p : IcalParse ρ₁} {q : IcalParse ρ₂}
  {cs : List CompRef} {z : Option IcalTz}

theorem OpenAt.sim {n : Nat} {S₁ : ρ₁ → Prop} {S₂ : ρ₂ → Prop} (hR : Answers R n)
    (hS : ∀ r₁ r₂, R r₁ r₂ → S₁ r₁ → S₂ r₂) (hsize : ∀ r, S₁ r → n ≤ size r) {p' : IcalParse ρ₁}
    (h : OpenAt C S₁ p cs z p') (hs : Sim R p q) : ∃ q', OpenAt C S₂ q cs z q' ∧ Sim R p' q' := by
  obtain @⟨np, p₁, hnext, hbegin, hcal, hat⟩ := h
  obtain ⟨q₁, hnext₂, hs⟩ := hnext.sim hR hs (hat.size_le hsize)
  have hnew : newComp .vcalendar q₁ = newComp .vcalendar p₁ := by
    rw [newComp, newComp, undated_length hs.undated]
  obtain ⟨q', hat₂, hs⟩ := hat.sim hR hS hsize _ hs.enter
  rw [← hnew] at hat₂
  exact ⟨q', .intro hnext₂ hbegin hcal hat₂, hs⟩

omit [LineReader ρ₁] [LineReader ρ₂] in
theorem CanEnd.sim (h : CanEnd cs z p) (hu : p.ical.undated = q.ical.undated) : CanEnd cs z q :=
  ⟨fun o ho => (h.comps o ho).undated (compAt_undated o hu), h.block, icalPostparse_undated hu h.zones⟩

end

end Kcaldav
