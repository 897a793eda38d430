import Kcaldav.Ical.Machine

/-! # Calendars one after the other

A calendar delimits itself: where the parser stops before the end of a buffer it does
not depend on what comes next, and where it starts it does not depend on what came
before. A caller that parses on from where the last calendar ended obtains each of them
as if it stood alone.
-/
namespace Kcaldav
open CString LineReader

/-! ## The reader -/

theorem continues_append {b : Bytes} (hb : b ≠ []) (x : Bytes) : Continues (b ++ x) ↔ Continues b := by
  cases b with
  | nil => exact absurd rfl hb
  | cons c b => simp

/-- A scan that leaves bytes behind leaves none that would continue the line, and leaves
behind any such bytes in their place. -/
theorem lineScan_apart (b : Bytes) : ∀ buf n, (lineScan buf n b).2 ≠ [] → ¬Continues (lineScan buf n b).2 ∧
    ∃ raw, raw ≠ [] ∧ b = raw ++ (lineScan buf n b).2 ∧
      ∀ x, ¬Continues x → lineScan buf n (raw ++ x) = ((lineScan buf n b).1, x) := by
  induction b using scanInduction with
  | nil =>
    intro buf n hne
    exact absurd rfl hne
  | last b hb h =>
    intro buf n hne
    rw [lineScan_last hb h] at hne
    exact absurd rfl hne
  | line seg rest h hc =>
    intro buf n _
    rw [lineScan_line h hc]
    refine ⟨hc, seg ++ [LF], by simp, by simp, fun x hx => ?_⟩
    rw [List.append_assoc, List.singleton_append, lineScan_line h hx]
  | fold seg c rest h hc ih =>
    intro buf n hne
    rw [lineScan_fold h hc] at hne
    obtain ⟨hcont, raw, -, hraw, hx⟩ := ih (buf ++ stripCr seg) (n + 1) hne
    rw [lineScan_fold h hc]
    refine ⟨hcont, seg ++ LF :: c :: raw, by simp, by simpa using hraw, fun x hnx => ?_⟩
    rw [List.append_assoc, List.cons_append, List.cons_append, lineScan_fold h hc]
    exact hx x hnx

theorem read_apart {b r : Bytes} {l : RawLine} (h : read b = some (l, r)) (hr : r ≠ []) : ¬Continues r ∧
    ∃ raw, raw ≠ [] ∧ b = raw ++ r ∧ ∀ x, ¬Continues x → read (raw ++ x) = some (l, x) := by
  obtain ⟨hb, hscan⟩ := read_eq_some.mp h
  have hapart := lineScan_apart b [] 0
  rw [hscan] at hapart
  obtain ⟨hc, raw, hne, hraw, hx⟩ := hapart hr
  refine ⟨hc, raw, hne, hraw, fun x hnx => read_eq_some.mpr ⟨?_, hx x hnx⟩⟩
  simp [hne]

/-- Lines that leave bytes behind are read alike before any bytes that do not continue
the last of them. -/
theorem reads_apart {b r : Bytes} {ls : List RawLine} (h : Reads b ls r) (hls : ls ≠ []) (hr : r ≠ []) :
    ¬Continues r ∧ ∃ raw, b = raw ++ r ∧ ∀ x, ¬Continues x → Reads (raw ++ x) ls x := by
  induction h with
  | nil => exact absurd rfl hls
  | @cons b r' r l ls hread hreads ih =>
    have hr' : r' ≠ [] := by
      cases hreads with
      | nil => exact hr
      | cons hread' _ =>
        rintro rfl
        cases hread'
    obtain ⟨hc, raw, hne, hraw, hx⟩ := read_apart hread hr'
    by_cases hls' : ls = []
    · subst hls'
      cases hreads
      exact ⟨hc, raw, hraw, fun x hnx => .one (hx x hnx)⟩
    · obtain ⟨hcr, more, hmore, hxs⟩ := ih hls' hr
      refine ⟨hcr, raw ++ more, by rw [hraw, hmore, List.append_assoc], fun x hnx => ?_⟩
      have hstart : ¬Continues (more ++ x) := by
        by_cases hm : more = []
        · simpa [hm] using hnx
        · rw [hmore, continues_append hm] at hc
          rwa [continues_append hm]
      rw [List.append_assoc]
      exact .cons (hx _ hstart) (hxs x hnx)

/-- As many lines of a source lead to one point of it. -/
theorem reads_unique {ρ : Type} [LineReader ρ] {r a b : ρ} {ls ms : List RawLine} (h : Reads r ls a) (h' : Reads r ms b)
    (hlen : ls.length = ms.length) : a = b := by
  induction h generalizing ms with
  | nil =>
    cases h' with
    | nil => rfl
    | cons => cases hlen
  | cons hread _ ih =>
    cases h' with
    | nil => cases hlen
    | cons hread' h' =>
      rw [hread] at hread'
      cases hread'
      exact ih h' (Nat.succ.inj hlen)

/-! ## The machine -/

section
variable {C : Libc}

theorem Machine.run_length {ls rest : List Bytes} : ∀ {m m' : Machine}, m.run C ls = some (m', rest) →
    rest.length ≤ ls.length := by
  induction ls with
  | nil =>
    intro m m' h
    cases h
    exact le_rfl
  | cons l ls ih =>
    intro m m' h
    rw [Machine.run] at h
    split at h
    · cases h
      exact le_rfl
    · obtain ⟨m₁, -, h⟩ := Option.bind_eq_some_iff.mp h
      have hlen := ih h
      simp only [List.length_cons]
      omega

/-- A run that leaves lines behind leaves behind any others in their place. -/
theorem Machine.run_apart {as bs : List Bytes} (hbs : bs ≠ []) : ∀ {m m' : Machine}, m.run C (as ++ bs) = some (m', bs) →
    ∀ cs, m.run C (as ++ cs) = some (m', cs) := by
  induction as with
  | nil =>
    intro m m' h cs
    obtain ⟨l, bs, rfl⟩ := List.exists_cons_of_ne_nil hbs
    rw [List.nil_append, Machine.run] at h
    split at h
    next hfin =>
      cases h
      cases cs with
      | nil => rfl
      | cons => exact if_pos hfin
    · obtain ⟨m₁, -, h⟩ := Option.bind_eq_some_iff.mp h
      have hlen := Machine.run_length h
      simp only [List.length_cons] at hlen
      omega
  | cons a as ih =>
    intro m m' h cs
    rw [List.cons_append, Machine.run] at h
    split at h
    · have hlen := congrArg (fun r => r.map fun r => r.2.length) h
      simp at hlen
      omega
    next hfin =>
      obtain ⟨m₁, hline, h⟩ := Option.bind_eq_some_iff.mp h
      rw [List.cons_append, Machine.run, if_neg hfin, hline]
      exact ih h cs

theorem icalMachine_length {erange : Bool} {ls rest : List Bytes} {i : Ical}
    (h : icalMachine C erange ls = some (i, rest)) : rest.length < ls.length := by
  cases ls with
  | nil => cases h
  | cons l ls =>
    obtain ⟨np, -, h⟩ := Option.bind_eq_some_iff.mp h
    split at h
    · obtain ⟨⟨m, ms⟩, hrun, h⟩ := Option.bind_eq_some_iff.mp h
      obtain ⟨j, -, heq⟩ := Option.map_eq_some_iff.mp h
      cases heq
      exact Nat.lt_succ_of_le (Machine.run_length hrun)
    · cases h

theorem icalMachine_apart {erange : Bool} {as bs : List Bytes} (hbs : bs ≠ []) {i : Ical}
    (h : icalMachine C erange (as ++ bs) = some (i, bs)) (cs : List Bytes) :
    icalMachine C erange (as ++ cs) = some (i, cs) := by
  cases as with
  | nil => exact absurd (icalMachine_length h) (lt_irrefl _)
  | cons a as =>
    rw [List.cons_append, icalMachine] at h ⊢
    obtain ⟨np, hnode, h⟩ := Option.bind_eq_some_iff.mp h
    rw [hnode, Option.bind_some]
    split at h
    next hbegin =>
      obtain ⟨⟨m, rest⟩, hrun, h⟩ := Option.bind_eq_some_iff.mp h
      obtain ⟨j, hlink, heq⟩ := Option.map_eq_some_iff.mp h
      cases heq
      rw [if_pos hbegin, Machine.run_apart hbs hrun cs, Option.bind_some, hlink]
      rfl
    · cases h

end

/-! ## The parser -/

section
variable (C : Libc) (file : Option String) (erange : Bool)

theorem icalParse_eq_some {cp : Bytes} {pos : Nat} {i : Ical} {stop : Nat} :
    (icalParse C file erange cp pos).1 = some (i, stop) ↔ ∃ p', icalParseFrom C file erange (cp.drop pos) = (some (), p') ∧
      p'.ical = i ∧ cp.length - p'.src.length = stop := by
  unfold icalParse
  rcases icalParseFrom C file erange (cp.drop pos) with ⟨_ | u, p'⟩
  · simp
  · simp

/-- An accepted buffer splits where the parser stops. -/
theorem icalParse_splits {b : Bytes} {i : Ical} {stop : Nat} (h : (icalParse C file erange b 0).1 = some (i, stop)) :
    ∃ raw rest ls, b = raw ++ rest ∧ stop = raw.length ∧ Reads b ls rest ∧
      icalMachine C erange (unfoldLines b) = some (i, unfoldLines rest) := by
  obtain ⟨p', hp, rfl, rfl⟩ := (icalParse_eq_some C file erange).mp h
  rw [List.drop_zero] at hp
  obtain ⟨ls, hreads⟩ := (icalParseFrom_iff.mp hp).reads
  obtain ⟨raw, hraw, -⟩ := reads_bytes hreads
  have hb : b = raw ++ p'.src := hraw
  refine ⟨raw, p'.src, ls, hb, ?_, hreads, icalParseFrom_machine.mp ⟨p', hp, rfl, rfl⟩⟩
  rw [hb, List.length_append]
  omega

/-- What the machine accepts with these lines read, the parser accepts and stops there. -/
theorem icalParse_of_machine {raw rest : Bytes} {ls : List RawLine} {i : Ical} (hreads : Reads (raw ++ rest) ls rest)
    (h : icalMachine C erange (unfoldLines (raw ++ rest)) = some (i, unfoldLines rest)) :
    (icalParse C file erange (raw ++ rest) 0).1 = some (i, raw.length) := by
  obtain ⟨p', hp, hi, hlines⟩ := icalParseFrom_machine.mpr h
  obtain ⟨ms, hms⟩ := (icalParseFrom_iff.mp hp).reads
  have hreads' : Reads (raw ++ rest) ms p'.src := hms
  have hlen := congrArg List.length (hreads.lines.symm.trans hreads'.lines)
  have htail := congrArg List.length hlines
  simp only [List.length_append, List.length_map, unfoldLines] at hlen htail
  have hsrc : rest = p'.src := reads_unique hreads hreads' (by omega)
  refine (icalParse_eq_some C file erange).mpr ⟨p', hp, hi, ?_⟩
  rw [← hsrc, List.length_append]
  omega

/-- A parse that stops before the end of a buffer does not depend on what is there. -/
theorem icalParse_apart {u v : Bytes} (hv : v ≠ []) {i : Ical} (h : (icalParse C file erange (u ++ v) 0).1 = some (i, u.length)) :
    ¬Continues v ∧ ∀ x, ¬Continues x → (icalParse C file erange (u ++ x) 0).1 = some (i, u.length) := by
  obtain ⟨raw, rest, ls, hb, hstop, hreads, hm⟩ := icalParse_splits C file erange h
  obtain ⟨rfl, rfl⟩ := List.append_inj hb hstop
  have hbs : unfoldLines v ≠ [] := by
    intro hnil
    exact hv (read_eq_none.mp (lines_nil.mp (List.map_eq_nil_iff.mp hnil)))
  have lines_of {x : Bytes} (hx : Reads (u ++ x) ls x) : unfoldLines (u ++ x) = ls.map RawLine.text ++ unfoldLines x := by
    rw [unfoldLines, hx.lines, List.map_append]
    rfl
  rw [lines_of hreads] at hm
  have hls : ls ≠ [] := by
    rintro rfl
    exact absurd (icalMachine_length hm) (lt_irrefl _)
  obtain ⟨hc, raw, hraw, hx⟩ := reads_apart hreads hls hv
  obtain rfl := List.append_cancel_right hraw
  refine ⟨hc, fun x hnx => icalParse_of_machine C file erange (hx x hnx) ?_⟩
  rw [lines_of (hx x hnx)]
  exact icalMachine_apart hbs hm _

/-- Where `errno` is clear at every conversion, it does not matter what it was. -/
theorem icalParse_clear (hC : ∀ e, C.errnoAt e = false) (e : Bool) {b : Bytes} {r : Ical × Nat}
    (h : (icalParse C file erange b 0).1 = some r) : (icalParse C file e b 0).1 = some r := by
  obtain ⟨raw, rest, ls, rfl, hstop, hreads, hm⟩ := icalParse_splits C file erange h
  rw [icalMachine_clear hC erange e] at hm
  rw [icalParse_of_machine C file e hreads hm, ← hstop]

/-- What is before the start does not matter. -/
theorem icalParse_shift (w x : Bytes) : icalParse C file erange (w ++ x) w.length =
    ((icalParse C file erange x 0).1.map fun r => (r.1, w.length + r.2), (icalParse C file erange x 0).2) := by
  unfold icalParse
  rw [List.drop_left, List.drop_zero]
  rcases hp : icalParseFrom C file erange x with ⟨_ | u, p'⟩
  · rfl
  · obtain ⟨ls, hreads⟩ := (icalParseFrom_iff.mp hp).reads
    have hsize : p'.src.length ≤ x.length := hreads.size_le
    have hstop : (w ++ x).length - p'.src.length = w.length + (x.length - p'.src.length) := by
      rw [List.length_append]
      omega
    simp only [Option.map_some, hstop]

end

/-! ## A caller's loop -/

/-- One call of the loop: where it started, the `errno` it found and what it returned. -/
structure Parsed where
  start : Nat
  erange : Bool
  result : Option (Ical × Nat)

/-- The bytes a call has read, which are all that are left where it failed. -/
def Parsed.piece (cp : Bytes) (r : Parsed) : Bytes :=
  match r.result with
  | some (_, stop) => (cp.take stop).drop r.start
  | none => cp.drop r.start

/-- The offset after the white space at an offset. -/
def skipSpace (cp : Bytes) (rsz : Nat) : Nat := rsz + ((cp.drop rsz).takeWhile isSpace).length

/-- The loop of `main` over a mapped file: calendar after calendar, until one fails. -/
def icalParseLoop (C : Libc) (file : Option String) (cp : Bytes) : Nat → Nat → Bool → List Parsed
  | 0, _, _ => []
  | fuel + 1, rsz, erange =>
    if rsz < cp.length then
      let r := icalParse C file erange cp rsz
      ⟨rsz, erange, r.1⟩ :: match r.1 with
        | some (_, stop) => icalParseLoop C file cp fuel (skipSpace cp stop) r.2.erange
        | none => []
    else []

def icalParseAll (C : Libc) (file : Option String) (erange : Bool) (cp : Bytes) : List Parsed :=
  icalParseLoop C file cp cp.length 0 erange

section
variable {C : Libc} {file : Option String} {erange : Bool} {cp : Bytes}

/-- A call within the buffer returns what it returns on the bytes from its start on. -/
theorem icalParse_at {pos : Nat} (h : pos ≤ cp.length) : icalParse C file erange cp pos =
    ((icalParse C file erange (cp.drop pos) 0).1.map fun r => (r.1, pos + r.2), (icalParse C file erange (cp.drop pos) 0).2) := by
  have hshift := icalParse_shift C file erange (cp.take pos) (cp.drop pos)
  rwa [List.take_append_drop, List.length_take, Nat.min_eq_left h] at hshift

/-- Every call that succeeds moves on within the buffer. -/
theorem icalParse_progress {pos stop : Nat} {i : Ical} (hpos : pos ≤ cp.length)
    (h : (icalParse C file erange cp pos).1 = some (i, stop)) : pos < stop ∧ stop ≤ cp.length := by
  rw [icalParse_at hpos] at h
  obtain ⟨⟨j, n⟩, hn, heq⟩ := Option.map_eq_some_iff.mp h
  cases heq
  obtain ⟨raw, rest, ls, hb, rfl, hreads, hm⟩ := icalParse_splits C file erange hn
  have hlen := congrArg List.length hb
  simp only [List.length_drop, List.length_append] at hlen
  have hraw : raw ≠ [] := by
    rintro rfl
    rw [hb] at hm
    exact absurd (icalMachine_length hm) (lt_irrefl _)
  have hpos' := List.length_pos_iff.mpr hraw
  omega

/-- The loop does not run out of fuel: any more gives the same calls. -/
theorem icalParseLoop_fuel {fuel : Nat} : ∀ {rsz : Nat} {erange : Bool}, cp.length - rsz ≤ fuel →
    icalParseLoop C file cp fuel rsz erange = icalParseLoop C file cp (cp.length - rsz) rsz erange := by
  induction fuel using Nat.strong_induction_on with
  | _ fuel ih =>
    intro rsz erange hfuel
    by_cases hrsz : rsz < cp.length
    · obtain ⟨fuel, rfl⟩ : ∃ k, fuel = k + 1 := ⟨fuel - 1, by omega⟩
      obtain ⟨n, hn⟩ : ∃ k, cp.length - rsz = k + 1 := ⟨cp.length - rsz - 1, by omega⟩
      rw [hn, icalParseLoop, icalParseLoop, if_pos hrsz, if_pos hrsz]
      rcases hparse : (icalParse C file erange cp rsz).1 with _ | ⟨i, stop⟩
      · simp only [hparse]
      · obtain ⟨hlt, -⟩ := icalParse_progress hrsz.le hparse
        have hskip : stop ≤ skipSpace cp stop := Nat.le_add_right _ _
        simp only [hparse]
        rw [ih fuel (by omega) (by omega), ih n (by omega) (by omega)]
    · rw [Nat.sub_eq_zero_of_le (by omega)]
      cases fuel with
      | zero => rfl
      | succ fuel => simp only [icalParseLoop, hrsz, ↓reduceIte]

/-- A call of the loop returns what parsing the bytes it has read alone returns. -/
theorem icalParse_piece {pos : Nat} (hpos : pos ≤ cp.length) :
    (icalParse C file erange (Parsed.piece cp ⟨pos, erange, (icalParse C file erange cp pos).1⟩) 0).1 =
      (icalParse C file erange cp pos).1.map fun q => (q.1, q.2 - pos) := by
  have hat : (icalParse C file erange cp pos).1 =
      (icalParse C file erange (cp.drop pos) 0).1.map fun r => (r.1, pos + r.2) := congrArg Prod.fst (icalParse_at hpos)
  rcases hparse : (icalParse C file erange (cp.drop pos) 0).1 with _ | ⟨i, n⟩
  · rw [hparse] at hat
    simp only [Option.map_none] at hat
    rw [hat]
    exact hparse
  · rw [hparse] at hat
    simp only [Option.map_some] at hat
    rw [hat]
    obtain ⟨raw, rest, ls, hb, rfl, -, -⟩ := icalParse_splits C file erange hparse
    have hpiece : (cp.take (pos + raw.length)).drop pos = raw := by
      rw [List.drop_take, hb, Nat.add_sub_cancel_left, List.take_left]
    have halone : (icalParse C file erange raw 0).1 = some (i, raw.length) := by
      rw [hb] at hparse
      by_cases hrest : rest = []
      · rwa [hrest, List.append_nil] at hparse
      · have hnil := (icalParse_apart C file erange hrest hparse).2 [] not_continues_nil
        rwa [List.append_nil] at hnil
    simp only [Parsed.piece, hpiece, halone, Option.map_some, Nat.add_sub_cancel_left]

theorem icalParseLoop_alone {fuel : Nat} : ∀ {rsz : Nat} {erange : Bool}, ∀ r ∈ icalParseLoop C file cp fuel rsz erange,
    (icalParse C file r.erange (r.piece cp) 0).1 = r.result.map fun q => (q.1, q.2 - r.start) := by
  induction fuel with
  | zero => simp [icalParseLoop]
  | succ fuel ih =>
    intro rsz erange r hr
    rw [icalParseLoop] at hr
    split at hr
    next hrsz =>
      rcases List.mem_cons.mp hr with rfl | hr
      · exact icalParse_piece hrsz.le
      · split at hr
        · exact ih r hr
        · cases hr
    · cases hr

end

/-- Where the parser stops before the end of a buffer the rest does not matter, where it
starts what is before does not, and a loop over a file gives each calendar in it as
parsing that calendar alone does: from the same `errno`, or from any where `errno` is
clear at every conversion. -/
theorem icalParse_selfDelimiting (C : Libc) (file : Option String) (erange : Bool) :
    (∀ (u v : Bytes) (c : UInt8) (i : Ical), (icalParse C file erange (u ++ [c] ++ v) 0).1 = some (i, u.length) →
      (∀ v' : Bytes, (icalParse C file erange (u ++ [c] ++ v') 0).1 = some (i, u.length)) ∧
        (icalParse C file erange u 0).1 = some (i, u.length)) ∧
    (∀ w x : Bytes, icalParse C file erange (w ++ x) w.length =
      ((icalParse C file erange x 0).1.map fun r => (r.1, w.length + r.2), (icalParse C file erange x 0).2)) ∧
    ∀ cp : Bytes, (∀ fuel, cp.length ≤ fuel → icalParseLoop C file cp fuel 0 erange = icalParseAll C file erange cp) ∧
      ∀ r ∈ icalParseAll C file erange cp, ∀ e, e = r.erange ∨ (∀ e, C.errnoAt e = false) →
        (icalParse C file e (r.piece cp) 0).1 = r.result.map fun q => (q.1, q.2 - r.start) := by
  refine ⟨fun u v c i h => ?_, icalParse_shift C file erange, fun cp => ⟨fun fuel hfuel => ?_, fun r hr e he => ?_⟩⟩
  · rw [List.append_assoc, List.singleton_append] at h
    obtain ⟨hc, hx⟩ := icalParse_apart C file erange (List.cons_ne_nil c v) h
    rw [continues_cons] at hc
    constructor
    · intro v'
      rw [List.append_assoc, List.singleton_append]
      exact hx (c :: v') (by rwa [continues_cons])
    · simpa using hx [] not_continues_nil
  · exact icalParseLoop_fuel hfuel
  · have halone := icalParseLoop_alone r hr
    rcases he with rfl | hC
    · exact halone
    · rw [← halone]
      apply Option.ext
      intro q
      exact ⟨icalParse_clear C file e hC r.erange, icalParse_clear C file r.erange hC e⟩

/-- Of two calendars in a row the first is read alike before a third, and alone; the loop
reads both. -/
theorem icalParse_selfDelimiting_two :
    (∃ i, (icalParse .utc none false (ascii "BEGIN:VCALENDAR\nEND:VCALENDAR\n" ++ [66] ++ ascii "EGIN:VCALENDAR\n") 0).1 = some (i, 30) ∧
      (icalParse .utc none false (ascii "BEGIN:VCALENDAR\nEND:VCALENDAR\n" ++ [66] ++ ascii "AD") 0).1 = some (i, 30) ∧
      (icalParse .utc none false (ascii "BEGIN:VCALENDAR\nEND:VCALENDAR\n") 0).1 = some (i, 30)) ∧
    (icalParseAll .utc none false (ascii "BEGIN:VCALENDAR\nEND:VCALENDAR\n\nBEGIN:VCALENDAR\n")).length = 2 ∧
    ∀ r ∈ icalParseAll .utc none false (ascii "BEGIN:VCALENDAR\nEND:VCALENDAR\n\nBEGIN:VCALENDAR\n"),
      (icalParse .utc none r.erange (r.piece (ascii "BEGIN:VCALENDAR\nEND:VCALENDAR\n\nBEGIN:VCALENDAR\n")) 0).1 =
        r.result.map fun q => (q.1, q.2 - r.start) := by
  obtain ⟨happart, -, hloop⟩ := icalParse_selfDelimiting .utc none false
  refine ⟨?_, by decide +kernel, fun r hr => (hloop _).2 r hr r.erange (.inl rfl)⟩
  have hstop : (icalParse .utc none false (ascii "BEGIN:VCALENDAR\nEND:VCALENDAR\n" ++ [66] ++ ascii "EGIN:VCALENDAR\n") 0).1.map
      Prod.snd = some 30 := by decide +kernel
  obtain ⟨⟨i, n⟩, hi, rfl⟩ := Option.map_eq_some_iff.mp hstop
  obtain ⟨happart, halone⟩ := happart (ascii "BEGIN:VCALENDAR\nEND:VCALENDAR\n") (ascii "EGIN:VCALENDAR\n") 66 i hi
  exact ⟨i, hi, happart (ascii "AD"), halone⟩

end Kcaldav
