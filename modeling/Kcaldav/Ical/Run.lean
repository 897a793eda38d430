import Kcaldav.Ical.Parse
import Kcaldav.Ical.Print

/-! # Accepted runs

The successful runs of the two parse loops as derivations, without fuel: one
constructor for each way a round can go. A loop succeeds exactly where there is
a derivation, so a property of accepted calendars is an induction over them.
-/
namespace Kcaldav
open CString

variable {C : Libc} {ρ : Type} [LineReader ρ]

/-- A line has been read and its node appended. -/
def Next (p : IcalParse ρ) (np : IcalNode) (p' : IcalParse ρ) : Prop :=
  (LineReader.read p.src).isSome ∧ icalNext p = (some np, p')

/-- A value parser has succeeded. -/
def Valued {α : Type} (x : Value α) (p : IcalParse ρ) (a : α) (p' : IcalParse ρ) : Prop :=
  value x p = (some a, p')

/-! ## Lines -/

omit [LineReader ρ] in
theorem valued_iff {α : Type} {x : Value α} {p p' : IcalParse ρ} {a : α} :
    Valued x p a p' ↔ ∃ d, x p.diag = (some a, d) ∧ p' = { p with diag := d } := by
  unfold Valued value Fallible.zoom
  rcases hx : x p.diag with ⟨o, d⟩
  constructor
  · intro h
    cases h
    exact ⟨d, rfl, rfl⟩
  · rintro ⟨d', h, rfl⟩
    cases h
    rfl

omit [LineReader ρ] in
theorem Valued.src {α : Type} {x : Value α} {p p' : IcalParse ρ} {a : α} (h : Valued x p a p') :
    p'.src = p.src := by
  obtain ⟨d, -, rfl⟩ := valued_iff.mp h
  rfl

/-- The line buffer holds a name, so a line that leaves it alone has no value. -/
def IcalParse.Stale (p : IcalParse ρ) : Prop := ∀ b ∈ p.buf, splitLine b = none

theorem splitLine_some {b : Bytes} {np : IcalNode} (h : splitLine b = some np) :
    ∃ pre, b = pre ++ 58 :: np.val ∧ 58 ∉ pre ∧ pre = np.name ++ paramText np.param ∧ 59 ∉ np.name := by
  obtain ⟨⟨pre, val⟩, hcolon, hnp⟩ := Option.map_eq_some_iff.mp h
  obtain ⟨hb, hpre⟩ := strchr_eq_some.mp hcolon
  cases hsemi : strchr 59 pre with
  | none =>
    simp only [hsemi] at hnp
    subst hnp
    exact ⟨pre, hb, hpre, by simp [paramText], strchr_eq_none.mp hsemi⟩
  | some q =>
    obtain ⟨name, param⟩ := q
    obtain ⟨heq, hname⟩ := strchr_eq_some.mp hsemi
    simp only [hsemi] at hnp
    subst hnp
    exact ⟨pre, hb, hpre, heq, hname⟩

theorem splitLine_name {b : Bytes} {np : IcalNode} (h : splitLine b = some np) : splitLine np.name = none := by
  obtain ⟨pre, -, hpre, heq, -⟩ := splitLine_some h
  have hname : 58 ∉ np.name := fun hm => hpre (heq ▸ List.mem_append_left _ hm)
  rw [splitLine, strchr_eq_none.mpr hname]
  rfl

/-- A node prints as the line it was split from. -/
theorem splitLine_text {b : Bytes} {np : IcalNode} (h : splitLine b = some np) : np.text = b := by
  obtain ⟨pre, hb, -, heq, -⟩ := splitLine_some h
  rw [IcalNode.text, hb, heq, List.append_assoc]

/-- The state after a line with a node in it. -/
def nextState (p : IcalParse ρ) (l : RawLine) (src : ρ) (np : IcalNode) : IcalParse ρ where
  src := src
  buf := some np.name
  diag := { p.diag with line := p.diag.line + l.phys }
  ical := { p.ical with first := p.ical.first ++ [np] }

/-- What `icalLine` does with the filled buffer. -/
theorem icalNext_fill {p p' : IcalParse ρ} {np : IcalNode} :
    icalNext p = (some np, p') ↔ ∃ buf, (fillBuf p).buf = some buf ∧ splitLine buf = some np ∧
      p' = { fillBuf p with
        buf := some np.name
        ical := { (fillBuf p).ical with first := (fillBuf p).ical.first ++ [np] } } := by
  have hline : ∀ q, icalLine p = (some np, q) ↔ ∃ buf, (fillBuf p).buf = some buf ∧
      splitLine buf = some np ∧ q = { fillBuf p with buf := some np.name } := by
    intro q
    unfold icalLine
    dsimp only
    cases hbuf : (fillBuf p).buf with
    | none => simp [value, Fallible.zoom, icalFail, icalErr, Fallible.bind_apply, icalErrAt]
    | some buf =>
      cases hsplit : splitLine buf with
      | none => simp [hsplit, value, Fallible.zoom, icalFail, icalErr, Fallible.bind_apply, icalErrAt]
      | some np' =>
        simp only [hsplit, Prod.mk.injEq, Option.some.injEq, exists_eq_left']
        constructor
        · rintro ⟨rfl, rfl⟩
          exact ⟨rfl, rfl⟩
        · rintro ⟨rfl, rfl⟩
          exact ⟨rfl, rfl⟩
  unfold icalNext
  constructor
  · intro h
    obtain ⟨np', q, hl, h⟩ := Fallible.bind_eq_some.mp h
    cases h
    obtain ⟨buf, hbuf, hsplit, rfl⟩ := (hline q).mp hl
    exact ⟨buf, hbuf, hsplit, rfl⟩
  · rintro ⟨buf, hbuf, hsplit, rfl⟩
    exact Fallible.bind_eq_some.mpr ⟨np, _, (hline _).mpr ⟨buf, hbuf, hsplit, rfl⟩, rfl⟩

theorem next_iff {p p' : IcalParse ρ} {np : IcalNode} (hs : p.Stale) :
    Next p np p' ↔ ∃ l src, LineReader.read p.src = some (l, src) ∧ l.text ≠ [] ∧
      splitLine (cstr l.text) = some np ∧ p' = nextState p l src np := by
  unfold Next
  rw [icalNext_fill]
  cases hr : LineReader.read p.src with
  | none => simp
  | some q =>
    obtain ⟨l, src⟩ := q
    have hfill : fillBuf p = { p with
        src := src
        buf := if l.text = [] then p.buf else some (cstr l.text)
        diag := { p.diag with line := p.diag.line + l.phys } } := by
      simp only [fillBuf, hr]
    rw [hfill]
    by_cases ht : l.text = []
    · simp only [ht, ↓reduceIte]
      constructor
      · rintro ⟨-, buf, hbuf, hsplit, -⟩
        rw [hs buf hbuf] at hsplit
        cases hsplit
      · rintro ⟨l', src', h, hne, -⟩
        cases h
        exact absurd ht hne
    · simp only [ht, ↓reduceIte, Option.some.injEq, exists_eq_left', Option.isSome_some, true_and]
      constructor
      · rintro ⟨hsplit, rfl⟩
        exact ⟨l, src, rfl, ht, hsplit, rfl⟩
      · rintro ⟨l', src', h, -, hsplit, rfl⟩
        cases h
        exact ⟨hsplit, rfl⟩

variable (C)

inductive TzRun (type : IcalTzType) : IcalTz → IcalParse ρ → IcalTz → IcalParse ρ → Prop
  | eof {c : IcalTz} {p : IcalParse ρ} : LineReader.read p.src = none → TzRun type c p c p
  | stop {c : IcalTz} {p p' : IcalParse ρ} {np : IcalNode} :
    Next p np p' → np.isEnd → strcaseEq type.name np.val → TzRun type c p c p'
  | skip {c c' : IcalTz} {p p₁ p' : IcalParse ρ} {np : IcalNode} :
    Next p np p₁ → np.isEnd → ¬strcaseEq type.name np.val → TzRun type c p₁ c' p' → TzRun type c p c' p'
  | field {c c₁ c' : IcalTz} {p p₁ p₂ p' : IcalParse ρ} {np : IcalNode} :
    Next p np p₁ → ¬np.isEnd → Valued (icalTzField C np c) p₁ c₁ p₂ → TzRun type c₁ p₂ c' p' →
    TzRun type c p c' p'

/-- A whole `DAYLIGHT` or `STANDARD` block, as `ical_parsetz` parses it. -/
def TzBlock (type : IcalTzType) (p p' : IcalParse ρ) : Prop :=
  ∃ c p₁ p₂, p.ical.comps .vtimezone ≠ [] ∧ TzRun C type (.new type) p c p₁ ∧
    Valued (icalTzCheck c) p₁ () p₂ ∧
    p' = { p₂ with ical := addTz (p.ical.comps .vtimezone).length c p₂.ical }

/-- The reference of the next component of a type. -/
def newComp (type : IcalType) (p : IcalParse ρ) : CompRef := ⟨type, (p.ical.comps type).length⟩

/-- The state in which the loop of a new component starts. -/
def enterComp (type : IcalType) (p : IcalParse ρ) : IcalParse ρ := { p with ical := p.ical.alloc type }

inductive CompRun : CompRef → IcalParse ρ → IcalParse ρ → Prop
  | eof {c : CompRef} {p : IcalParse ρ} : LineReader.read p.src = none → CompRun c p p
  | stop {c : CompRef} {p p' : IcalParse ρ} {np : IcalNode} :
    Next p np p' → ¬np.isBegin → np.isEnd → strcaseEq c.type.name np.val → CompRun c p p'
  | skip {c : CompRef} {p p₁ p' : IcalParse ρ} {np : IcalNode} :
    Next p np p₁ → ¬np.isBegin → np.isEnd → ¬strcaseEq c.type.name np.val → CompRun c p₁ p' → CompRun c p p'
  | unknown {c : CompRef} {p p₁ p' : IcalParse ρ} {np : IcalNode} :
    Next p np p₁ → np.isBegin → icalTypeOf np.val = none → icalTzTypeOf np.val = none →
    CompRun c p₁ p' → CompRun c p p'
  | zone {c : CompRef} {p p₁ p₂ p' : IcalParse ρ} {np : IcalNode} {tz : IcalTzType} :
    Next p np p₁ → np.isBegin → icalTypeOf np.val = none → icalTzTypeOf np.val = some tz →
    TzBlock C tz p₁ p₂ → CompRun c p₂ p' → CompRun c p p'
  | nested {c : CompRef} {p p₁ p₂ p₃ p' : IcalParse ρ} {np : IcalNode} {tt : IcalType} :
    Next p np p₁ → np.isBegin → icalTypeOf np.val = some tt →
    CompRun (newComp tt p₁) (enterComp tt p₁) p₂ →
    Valued (icalCompCheck p₁.diag.line (compAt (newComp tt p₁) p₂.ical)) p₂ () p₃ →
    CompRun c p₃ p' → CompRun c p p'
  | field {c : CompRef} {p p₁ p₂ p' : IcalParse ρ} {np : IcalNode} :
    Next p np p₁ → ¬np.isBegin → ¬np.isEnd → icalCompLine C c np p₁ = (some (), p₂) →
    CompRun c p₂ p' → CompRun c p p'

/-- One round of the loop of a component; `N` stands for the loops of the components
in it. -/
inductive CompRound (N : CompRef → IcalParse ρ → IcalParse ρ → Prop) : CompRef → IcalParse ρ → IcalParse ρ → Prop
  | skip {c : CompRef} {p p₁ : IcalParse ρ} {np : IcalNode} :
    Next p np p₁ → ¬np.isBegin → np.isEnd → ¬strcaseEq c.type.name np.val → CompRound N c p p₁
  | unknown {c : CompRef} {p p₁ : IcalParse ρ} {np : IcalNode} :
    Next p np p₁ → np.isBegin → icalTypeOf np.val = none → icalTzTypeOf np.val = none → CompRound N c p p₁
  | zone {c : CompRef} {p p₁ p₂ : IcalParse ρ} {np : IcalNode} {tz : IcalTzType} :
    Next p np p₁ → np.isBegin → icalTypeOf np.val = none → icalTzTypeOf np.val = some tz →
    TzBlock C tz p₁ p₂ → CompRound N c p p₂
  | nested {c : CompRef} {p p₁ p₂ p₃ : IcalParse ρ} {np : IcalNode} {tt : IcalType} :
    Next p np p₁ → np.isBegin → icalTypeOf np.val = some tt → N (newComp tt p₁) (enterComp tt p₁) p₂ →
    Valued (icalCompCheck p₁.diag.line (compAt (newComp tt p₁) p₂.ical)) p₂ () p₃ → CompRound N c p p₃
  | field {c : CompRef} {p p₁ p₂ : IcalParse ρ} {np : IcalNode} :
    Next p np p₁ → ¬np.isBegin → ¬np.isEnd → icalCompLine C c np p₁ = (some (), p₂) → CompRound N c p p₂

variable {C}

theorem CompRun.round {c : CompRef} {p p₁ p' : IcalParse ρ} (h : CompRound C (CompRun C) c p p₁)
    (hrun : CompRun C c p₁ p') : CompRun C c p p' := by
  cases h with
  | skip hnext hbegin hend hval => exact .skip hnext hbegin hend hval hrun
  | unknown hnext hbegin ht htz => exact .unknown hnext hbegin ht htz hrun
  | zone hnext hbegin ht htz hzone => exact .zone hnext hbegin ht htz hzone hrun
  | nested hnext hbegin ht hnested hcheck => exact .nested hnext hbegin ht hnested hcheck hrun
  | field hnext hbegin hend hline => exact .field hnext hbegin hend hline hrun

/-- Induction along a run, round by round. -/
theorem CompRun.roundInduction {motive : (c : CompRef) → (p p' : IcalParse ρ) → CompRun C c p p' → Prop}
    (eof : ∀ c p (hr : LineReader.read p.src = none), motive c p p (.eof hr))
    (stop : ∀ c p p' np (hnext : Next p np p') (hbegin : ¬np.isBegin) (hend : np.isEnd)
      (hval : strcaseEq c.type.name np.val), motive c p p' (.stop hnext hbegin hend hval))
    (round : ∀ c p p₁ p' (_ : CompRound C (fun c p p' => ∃ h, motive c p p' h) c p p₁)
      (hrun : CompRun C c p₁ p') (h : CompRun C c p p'), motive c p₁ p' hrun → motive c p p' h)
    {c : CompRef} {p p' : IcalParse ρ} (h : CompRun C c p p') : motive c p p' h := by
  induction h with
  | eof hr => exact eof _ _ hr
  | stop hnext hbegin hend hval => exact stop _ _ _ _ hnext hbegin hend hval
  | skip hnext hbegin hend hval hrun ih => exact round _ _ _ _ (.skip hnext hbegin hend hval) hrun _ ih
  | unknown hnext hbegin ht htz hrun ih => exact round _ _ _ _ (.unknown hnext hbegin ht htz) hrun _ ih
  | zone hnext hbegin ht htz hzone hrun ih => exact round _ _ _ _ (.zone hnext hbegin ht htz hzone) hrun _ ih
  | nested hnext hbegin ht hnested hcheck hrun ihn ih =>
    exact round _ _ _ _ (.nested hnext hbegin ht ⟨hnested, ihn⟩ hcheck) hrun _ ih
  | field hnext hbegin hend hline hrun ih => exact round _ _ _ _ (.field hnext hbegin hend hline) hrun _ ih

theorem CompRound.mono {N N' : CompRef → IcalParse ρ → IcalParse ρ → Prop} (hN : ∀ c p p', N c p p' → N' c p p')
    {c : CompRef} {p p' : IcalParse ρ} (h : CompRound C N c p p') : CompRound C N' c p p' := by
  cases h with
  | skip hnext hbegin hend hval => exact .skip hnext hbegin hend hval
  | unknown hnext hbegin ht htz => exact .unknown hnext hbegin ht htz
  | zone hnext hbegin ht htz hzone => exact .zone hnext hbegin ht htz hzone
  | nested hnext hbegin ht hnested hcheck => exact .nested hnext hbegin ht (hN _ _ _ hnested) hcheck
  | field hnext hbegin hend hline => exact .field hnext hbegin hend hline

omit [LineReader ρ] in
theorem icalCompLine_iff {c : CompRef} {np : IcalNode} {p p' : IcalParse ρ} :
    icalCompLine C c np p = (some (), p') ↔ ∃ comp val d,
      icalCompField C np (compAt c p.ical) p.diag = (some (comp, val), d) ∧
      p' = { p with
        diag := d
        ical := { p.ical.modifyComp c fun _ => comp with
          first := p.ical.first.modifyLast fun np => { np with val := val } } } := by
  simp only [icalCompLine, Fallible.gets_bind]
  constructor
  · intro h
    obtain ⟨⟨comp, val⟩, q, hv, h⟩ := Fallible.bind_eq_some.mp h
    obtain ⟨d, hd, rfl⟩ := valued_iff.mp hv
    cases h
    exact ⟨comp, val, d, hd, rfl⟩
  · rintro ⟨comp, val, d, hd, rfl⟩
    exact Fallible.bind_eq_some.mpr ⟨(comp, val), _, valued_iff.mpr ⟨d, hd, rfl⟩, rfl⟩

/-! ## From the loops to the derivations -/

@[simp] theorem icalMore_bind {α : Type} (f : Bool → Parse ρ α) (p : IcalParse ρ) :
    (icalMore >>= f) p = f (LineReader.read p.src).isSome p := rfl

theorem tzRun_of_loop {type : IcalTzType} {fuel : Nat} {c c' : IcalTz} {p p' : IcalParse ρ}
    (h : icalParsetzLoop C type fuel c p = (some c', p')) : TzRun C type c p c' p' := by
  induction fuel generalizing c p with
  | zero => cases h
  | succ fuel ih =>
    simp only [icalParsetzLoop, icalMore_bind] at h
    split at h
    next hmore =>
      obtain ⟨np, p₁, hnext, h⟩ := Fallible.bind_eq_some.mp h
      have hnext : Next p np p₁ := ⟨hmore, hnext⟩
      split at h
      next hend =>
        split at h
        next hval =>
          cases h
          exact .stop hnext hend hval
        next hval => exact .skip hnext hend hval (ih h)
      next hend =>
        obtain ⟨c₁, p₂, hfield, h⟩ := Fallible.bind_eq_some.mp h
        exact .field hnext hend hfield (ih h)
    next hmore =>
      cases h
      exact .eof (by simpa using hmore)

theorem tzBlock_of_parsetz {fuel : Nat} {type : IcalTzType} {p p' : IcalParse ρ}
    (h : icalParsetz C fuel type p = (some (), p')) : TzBlock C type p p' := by
  simp only [icalParsetz, Fallible.gets_bind] at h
  split at h
  next hz => cases h
  next hz =>
    obtain ⟨c, p₁, hloop, h⟩ := Fallible.bind_eq_some.mp h
    obtain ⟨u, p₂, hcheck, h⟩ := Fallible.bind_eq_some.mp h
    cases h
    exact ⟨c, p₁, p₂, hz, tzRun_of_loop hloop, hcheck, rfl⟩

omit [LineReader ρ] in
theorem icalParsecompWith_some {loop : CompRef → Parse ρ Unit} {type : IcalType} {p p' : IcalParse ρ} :
    icalParsecompWith loop type p = (some (), p') ↔
      ∃ p₂, loop (newComp type p) (enterComp type p) = (some (), p₂) ∧
        Valued (icalCompCheck p.diag.line (compAt (newComp type p) p₂.ical)) p₂ () p' := by
  simp only [icalParsecompWith, modifyIcal, Fallible.gets_bind, Fallible.modify_bind]
  constructor
  · intro h
    obtain ⟨u, p₂, hloop, h⟩ := Fallible.bind_eq_some.mp h
    exact ⟨p₂, hloop, h⟩
  · rintro ⟨p₂, hloop, h⟩
    exact Fallible.bind_eq_some.mpr ⟨(), p₂, hloop, h⟩

theorem compRun_of_loop {fuel : Nat} {c : CompRef} {p p' : IcalParse ρ}
    (h : icalParsecompLoop C fuel c p = (some (), p')) : CompRun C c p p' := by
  induction fuel generalizing c p p' with
  | zero => cases h
  | succ fuel ih =>
    simp only [icalParsecompLoop, icalMore_bind] at h
    split at h
    next hmore =>
      obtain ⟨np, p₁, hnext, h⟩ := Fallible.bind_eq_some.mp h
      have hnext : Next p np p₁ := ⟨hmore, hnext⟩
      unfold icalCompNode at h
      split at h
      next hbegin =>
        cases ht : icalTypeOf np.val with
        | some tt =>
          simp only [ht] at h
          obtain ⟨u, p₃, hcomp, h⟩ := Fallible.bind_eq_some.mp h
          obtain ⟨p₂, hloop, hcheck⟩ := icalParsecompWith_some.mp hcomp
          exact .nested hnext hbegin ht (ih hloop) hcheck (ih h)
        | none =>
          cases htz : icalTzTypeOf np.val with
          | some tz =>
            simp only [ht, htz] at h
            obtain ⟨u, p₂, hzone, h⟩ := Fallible.bind_eq_some.mp h
            exact .zone hnext hbegin ht htz (tzBlock_of_parsetz hzone) (ih h)
          | none =>
            simp only [ht, htz] at h
            exact .unknown hnext hbegin ht htz (ih h)
      next hbegin =>
        split at h
        next hend =>
          split at h
          next hval =>
            cases h
            exact .stop hnext hbegin hend hval
          next hval => exact .skip hnext hbegin hend hval (ih h)
        next hend =>
          obtain ⟨u, p₂, hfield, h⟩ := Fallible.bind_eq_some.mp h
          exact .field hnext hbegin hend hfield (ih h)
    next hmore =>
      cases h
      exact .eof (by simpa using hmore)

end Kcaldav
