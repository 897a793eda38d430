import Kcaldav.Ical.Run

/-! # Fuel and whole files

Every round of a loop reads a line, so fuel beyond the size of the source is
never used up: a derivation is a run of the loop. A calendar is accepted exactly
where its first line opens it, the component after it has a derivation, and the
time zones are found.
-/
namespace Kcaldav
open CString

variable {C : Libc} {ρ : Type} [LineReader ρ]

theorem next_reads {p p' : IcalParse ρ} {np : IcalNode} (h : Next p np p') :
    ∃ l, LineReader.read p.src = some (l, p'.src) := by
  obtain ⟨hmore, hnext⟩ := h
  obtain ⟨⟨l, src⟩, hr⟩ := Option.isSome_iff_exists.mp hmore
  obtain ⟨buf, -, -, rfl⟩ := icalNext_fill.mp hnext
  exact ⟨l, by simp only [fillBuf, hr]⟩

theorem next_size {p p' : IcalParse ρ} {np : IcalNode} (h : Next p np p') :
    LineReader.size p'.src < LineReader.size p.src := by
  obtain ⟨l, hr⟩ := next_reads h
  exact LineReader.size_read hr

theorem Next.then_reads {p p₁ : IcalParse ρ} {np : IcalNode} {src : ρ} (h : Next p np p₁)
    (hls : ∃ ls, LineReader.Reads p₁.src ls src) : ∃ ls, LineReader.Reads p.src ls src := by
  obtain ⟨l, hr⟩ := next_reads h
  obtain ⟨ls, hls⟩ := hls
  exact ⟨l :: ls, .cons hr hls⟩

theorem TzRun.reads {type : IcalTzType} {c c' : IcalTz} {p p' : IcalParse ρ} (h : TzRun C type c p c' p') :
    ∃ ls, LineReader.Reads p.src ls p'.src := by
  induction h with
  | eof => exact ⟨[], .nil _⟩
  | stop hnext => exact hnext.then_reads ⟨[], .nil _⟩
  | skip hnext _ _ _ ih => exact hnext.then_reads ih
  | field hnext _ hv _ ih => exact hnext.then_reads (hv.src ▸ ih)

theorem TzBlock.reads {type : IcalTzType} {p p' : IcalParse ρ} (h : TzBlock C type p p') :
    ∃ ls, LineReader.Reads p.src ls p'.src := by
  obtain ⟨c, p₁, p₂, -, hrun, hcheck, rfl⟩ := h
  exact hcheck.src ▸ hrun.reads

omit [LineReader ρ] in
theorem icalCompLine_src {c : CompRef} {np : IcalNode} {p p' : IcalParse ρ}
    (h : icalCompLine C c np p = (some (), p')) : p'.src = p.src := by
  obtain ⟨comp, val, d, -, rfl⟩ := icalCompLine_iff.mp h
  rfl

theorem CompRound.reads {N : CompRef → IcalParse ρ → IcalParse ρ → Prop}
    (hN : ∀ c p p', N c p p' → ∃ ls, LineReader.Reads p.src ls p'.src) {c : CompRef} {p p' : IcalParse ρ}
    (h : CompRound C N c p p') : ∃ ls, LineReader.Reads p.src ls p'.src := by
  cases h with
  | skip hnext => exact hnext.then_reads ⟨[], .nil _⟩
  | unknown hnext => exact hnext.then_reads ⟨[], .nil _⟩
  | zone hnext _ _ _ hzone => exact hnext.then_reads hzone.reads
  | nested hnext _ _ hnested hcheck =>
    obtain ⟨ls, hls⟩ := hN _ _ _ hnested
    exact hnext.then_reads ⟨ls, hcheck.src ▸ hls⟩
  | field hnext _ _ hline => exact hnext.then_reads ⟨[], icalCompLine_src hline ▸ .nil _⟩

theorem CompRun.reads {c : CompRef} {p p' : IcalParse ρ} (h : CompRun C c p p') :
    ∃ ls, LineReader.Reads p.src ls p'.src := by
  induction h using CompRun.roundInduction with
  | eof => exact ⟨[], .nil _⟩
  | stop _ _ _ _ hnext => exact hnext.then_reads ⟨[], .nil _⟩
  | round _ _ _ _ hround _ _ ih =>
    obtain ⟨ls, hls⟩ := hround.reads fun _ _ _ hN => hN.2
    obtain ⟨ls', hls'⟩ := ih
    exact ⟨ls ++ ls', hls.append hls'⟩

theorem TzRun.size_le {type : IcalTzType} {c c' : IcalTz} {p p' : IcalParse ρ} (h : TzRun C type c p c' p') :
    LineReader.size p'.src ≤ LineReader.size p.src :=
  h.reads.elim fun _ hls => hls.size_le

theorem TzBlock.size_le {type : IcalTzType} {p p' : IcalParse ρ} (h : TzBlock C type p p') :
    LineReader.size p'.src ≤ LineReader.size p.src :=
  h.reads.elim fun _ hls => hls.size_le

theorem CompRun.size_le {c : CompRef} {p p' : IcalParse ρ} (h : CompRun C c p p') :
    LineReader.size p'.src ≤ LineReader.size p.src :=
  h.reads.elim fun _ hls => hls.size_le

theorem loop_of_tzRun {type : IcalTzType} {c c' : IcalTz} {p p' : IcalParse ρ} (h : TzRun C type c p c' p') :
    ∀ fuel, LineReader.size p.src < fuel → icalParsetzLoop C type fuel c p = (some c', p') := by
  induction h with
  | eof hr =>
    intro fuel hf
    obtain ⟨fuel, rfl⟩ : ∃ k, fuel = k + 1 := ⟨fuel - 1, by omega⟩
    simp [icalParsetzLoop, hr]
  | stop hnext hend hval =>
    intro fuel hf
    obtain ⟨fuel, rfl⟩ : ∃ k, fuel = k + 1 := ⟨fuel - 1, by omega⟩
    simp only [icalParsetzLoop, icalMore_bind, hnext.1, ↓reduceIte]
    rw [Fallible.bind_of_some hnext.2]
    simp [hend, hval]
  | skip hnext hend hval _ ih =>
    intro fuel hf
    obtain ⟨fuel, rfl⟩ : ∃ k, fuel = k + 1 := ⟨fuel - 1, by omega⟩
    have hsize := next_size hnext
    simp only [icalParsetzLoop, icalMore_bind, hnext.1, ↓reduceIte]
    rw [Fallible.bind_of_some hnext.2]
    simpa [hend, hval] using ih fuel (by omega)
  | field hnext hend hv _ ih =>
    intro fuel hf
    obtain ⟨fuel, rfl⟩ : ∃ k, fuel = k + 1 := ⟨fuel - 1, by omega⟩
    have hsize := next_size hnext
    rw [← hv.src] at hsize
    simp only [icalParsetzLoop, icalMore_bind, hnext.1, ↓reduceIte]
    rw [Fallible.bind_of_some hnext.2]
    simp only [hend, ↓reduceIte, Bool.false_eq_true]
    rw [Fallible.bind_of_some hv]
    exact ih fuel (by omega)

theorem parsetz_of_tzBlock {type : IcalTzType} {p p' : IcalParse ρ} (h : TzBlock C type p p') {fuel : Nat}
    (hf : LineReader.size p.src < fuel) : icalParsetz C fuel type p = (some (), p') := by
  obtain ⟨c, p₁, p₂, hz, hrun, hcheck, rfl⟩ := h
  simp only [icalParsetz, Fallible.gets_bind, hz, ↓reduceIte]
  rw [Fallible.bind_of_some (loop_of_tzRun hrun fuel hf), Fallible.bind_of_some hcheck]
  rfl

theorem loop_of_next {fuel : Nat} {c : CompRef} {p p₁ : IcalParse ρ} {np : IcalNode} (hnext : Next p np p₁) :
    icalParsecompLoop C (fuel + 1) c p = icalCompNode C (icalParsecompLoop C fuel) fuel c np p₁ := by
  simp only [icalParsecompLoop, icalMore_bind, hnext.1, ↓reduceIte]
  rw [Fallible.bind_of_some hnext.2]

/-- A round leaves the loop with what is left of its fuel. -/
theorem loop_of_round {N : CompRef → IcalParse ρ → IcalParse ρ → Prop}
    (hN : ∀ c p p', N c p p' → ∀ fuel, LineReader.size p.src < fuel → icalParsecompLoop C fuel c p = (some (), p'))
    {c : CompRef} {p p₁ : IcalParse ρ} (h : CompRound C N c p p₁) {fuel : Nat} (hf : LineReader.size p.src ≤ fuel) :
    icalParsecompLoop C (fuel + 1) c p = icalParsecompLoop C fuel c p₁ := by
  cases h with
  | skip hnext hbegin hend hval =>
    rw [loop_of_next hnext, icalCompNode, if_neg hbegin, if_pos hend, if_neg hval]
  | unknown hnext hbegin ht htz => rw [loop_of_next hnext, icalCompNode, if_pos hbegin, ht, htz]
  | zone hnext hbegin ht htz hzone =>
    have hsize := next_size hnext
    rw [loop_of_next hnext, icalCompNode, if_pos hbegin, ht, htz]
    exact Fallible.bind_of_some (parsetz_of_tzBlock hzone (by omega))
  | @nested p₁ p₂ _ _ tt hnext hbegin ht hnested hcheck =>
    have hsize := next_size hnext
    have henter : LineReader.size (enterComp tt p₁).src < fuel := hsize.trans_le hf
    rw [loop_of_next hnext, icalCompNode, if_pos hbegin, ht]
    exact Fallible.bind_of_some (icalParsecompWith_some.mpr ⟨_, hN _ _ _ hnested fuel henter, hcheck⟩)
  | field hnext hbegin hend hline =>
    rw [loop_of_next hnext, icalCompNode, if_neg hbegin, if_neg hend]
    exact Fallible.bind_of_some hline

theorem CompRound.size_lt {N : CompRef → IcalParse ρ → IcalParse ρ → Prop}
    (hN : ∀ c p p', N c p p' → LineReader.size p'.src ≤ LineReader.size p.src) {c : CompRef} {p p₁ : IcalParse ρ}
    (h : CompRound C N c p p₁) : LineReader.size p₁.src < LineReader.size p.src := by
  cases h with
  | skip hnext => exact next_size hnext
  | unknown hnext => exact next_size hnext
  | zone hnext _ _ _ hzone => exact hzone.size_le.trans_lt (next_size hnext)
  | @nested p₁ p₂ _ _ tt hnext _ _ hnested hcheck =>
    have henter : LineReader.size p₂.src ≤ LineReader.size (enterComp tt p₁).src := hN _ _ _ hnested
    have hsize := next_size hnext
    rw [hcheck.src]
    exact henter.trans_lt hsize
  | field hnext _ _ hline => exact icalCompLine_src hline ▸ next_size hnext

theorem loop_of_compRun {c : CompRef} {p p' : IcalParse ρ} (h : CompRun C c p p') :
    ∀ fuel, LineReader.size p.src < fuel → icalParsecompLoop C fuel c p = (some (), p') := by
  induction h using CompRun.roundInduction with
  | eof c p hr =>
    intro fuel hf
    obtain ⟨fuel, rfl⟩ : ∃ k, fuel = k + 1 := ⟨fuel - 1, by omega⟩
    simp [icalParsecompLoop, hr]
  | stop c p p' np hnext hbegin hend hval =>
    intro fuel hf
    obtain ⟨fuel, rfl⟩ : ∃ k, fuel = k + 1 := ⟨fuel - 1, by omega⟩
    rw [loop_of_next hnext, icalCompNode, if_neg hbegin, if_pos hend, if_pos hval]
    rfl
  | round c p p₁ p' hround hrun _ ih =>
    intro fuel hf
    obtain ⟨fuel, rfl⟩ : ∃ k, fuel = k + 1 := ⟨fuel - 1, by omega⟩
    have hsize := hround.size_lt fun _ _ _ hN => hN.1.size_le
    rw [loop_of_round (fun _ _ _ hN => hN.2) hround (by omega)]
    exact ih fuel (by omega)

/-! ## Whole files -/

theorem strcaseEq_comm (a b : Bytes) : strcaseEq a b = strcaseEq b a := by
  unfold strcaseEq
  exact Bool.beq_comm

omit [LineReader ρ] in
theorem IcalParse.stale_start (file : Option String) (erange : Bool) (src : ρ) :
    (IcalParse.start file erange src).Stale := by
  intro b hb
  cases hb

omit [LineReader ρ] in
/-- `ical_postparse` replaces the components and nothing else of the calendar. -/
theorem icalPostparse_some {p p' : IcalParse ρ} (h : icalPostparse p = (some (), p')) :
    ∃ i d, icalPostparseTypes (p.ical.comps .vtimezone) IcalType.all p.ical p.diag = (some i, d) ∧
      p' = { p with diag := d, ical := i } := by
  simp only [icalPostparse, Fallible.gets_bind] at h
  obtain ⟨i, q, hv, h⟩ := Fallible.bind_eq_some.mp h
  obtain ⟨d, hd, rfl⟩ := valued_iff.mp hv
  cases h
  exact ⟨i, d, hd, rfl⟩

/-- What an accepted file goes through. -/
inductive Accepted (C : Libc) (p p' : IcalParse ρ) : Prop
  | intro {np : IcalNode} {p₁ p₂ p₃ : IcalParse ρ} (next : Next p np p₁) (begin : np.isBegin)
    (calendar : strcaseEq np.val (ascii "VCALENDAR"))
    (run : CompRun C (newComp .vcalendar p₁) (enterComp .vcalendar p₁) p₂)
    (check : Valued (icalCompCheck p₁.diag.line (compAt (newComp .vcalendar p₁) p₂.ical)) p₂ () p₃)
    (postparse : icalPostparse p₃ = (some (), p'))

theorem icalParseFrom_iff {file : Option String} {erange : Bool} {src : ρ} {p' : IcalParse ρ} :
    icalParseFrom C file erange src = (some (), p') ↔ Accepted C (.start file erange src) p' := by
  unfold icalParseFrom icalParseCalendar
  constructor
  · intro h
    obtain ⟨np, p₁, hnext, h⟩ := Fallible.bind_eq_some.mp h
    split at h
    · cases h
    next hbegin =>
    split at h
    · cases h
    next hcal =>
    obtain ⟨u, p₃, hcomp, hpost⟩ := Fallible.bind_eq_some.mp h
    obtain ⟨p₂, hloop, hcheck⟩ := icalParsecompWith_some.mp hcomp
    have hmore : (LineReader.read src).isSome := by
      cases hr : LineReader.read src with
      | some _ => rfl
      | none =>
        obtain ⟨buf, hbuf, -, -⟩ := icalNext_fill.mp hnext
        simp only [fillBuf, IcalParse.start, hr] at hbuf
        cases hbuf
    refine .intro ⟨hmore, hnext⟩ ?_ (by simpa using hcal) (compRun_of_loop hloop) hcheck hpost
    simpa [IcalNode.isBegin, strcaseEq_comm] using hbegin
  · rintro ⟨hnext, hbegin, hcal, hrun, hcheck, hpost⟩
    rw [Fallible.bind_of_some hnext.2]
    rw [IcalNode.isBegin, strcaseEq_comm] at hbegin
    have hsize := next_size hnext
    have hloop := loop_of_compRun hrun (LineReader.size src + 1) (hsize.trans (Nat.lt_succ_self _))
    have hcomp := icalParsecompWith_some.mpr ⟨_, hloop, hcheck⟩
    simp only [hbegin, hcal, Bool.not_true, Bool.false_eq_true, ↓reduceIte]
    rw [icalParsecomp, Fallible.bind_of_some hcomp]
    exact hpost

theorem Accepted.reads {p p' : IcalParse ρ} (h : Accepted C p p') : ∃ ls, LineReader.Reads p.src ls p'.src := by
  obtain ⟨hnext, -, -, hrun, hcheck, hpost⟩ := h
  obtain ⟨i, d, -, rfl⟩ := icalPostparse_some hpost
  exact hnext.then_reads (hcheck.src ▸ hrun.reads)

/-- An accepted buffer: the run over it and the lines it has read. -/
theorem icalParse_some {file : Option String} {erange : Bool} {b : Bytes} {ic : Ical} {q : Nat}
    (h : (icalParse C file erange b 0).1 = some (ic, q)) :
    ∃ p' ls, Accepted C (.start file erange b) p' ∧ p'.ical = ic ∧ LineReader.Reads b ls p'.src ∧
      unfoldLines (b.take q) = ls.map RawLine.text := by
  simp only [icalParse, List.drop_zero] at h
  obtain ⟨u, hrun, heq⟩ := Option.map_eq_some_iff.mp h
  rcases hp : icalParseFrom C file erange b with ⟨o, p'⟩
  rw [hp] at hrun heq
  cases heq
  cases hrun
  have hacc := icalParseFrom_iff.mp hp
  obtain ⟨ls, hreads⟩ := hacc.reads
  obtain ⟨raw, hraw, hlines⟩ := reads_bytes hreads
  have htake : b.take (b.length - p'.src.length) = raw := by
    change b = raw ++ p'.src at hraw
    rw [hraw]
    simp
  exact ⟨p', ls, hacc, rfl, hreads, by rw [htake, unfoldLines, hlines]⟩

end Kcaldav
