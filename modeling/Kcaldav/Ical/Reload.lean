import Kcaldav.Ical.Open

/-! # Parsing the stored text

A calendar is checked as a buffer with a length and stored as a C string. The scan
of the C string reads the same lines up to the first that holds a NUL, and that
one up to the NUL. So the stored text is accepted exactly where no line but the last
that the check has read holds a NUL, or the calendar can end with the first that does.
-/
namespace Kcaldav
open CString LineReader

variable {C : Libc}

/-! ## C strings of parts of a buffer -/

theorem cstr_initial (b : Bytes) : cstr b <+: b := List.takeWhile_prefix _

theorem cstr_append_of_notMem {a : Bytes} (h : NUL ∉ a) (b : Bytes) : cstr (a ++ b) = a ++ cstr b := by
  unfold cstr
  rw [List.takeWhile_append_of_pos]
  intro y hy
  simp only [decide_eq_true_eq]
  rintro rfl
  exact h hy

theorem cstr_append_of_mem {a : Bytes} (h : NUL ∈ a) (b : Bytes) : cstr (a ++ b) = cstr a := by
  induction a with
  | nil => cases h
  | cons y a ih =>
    by_cases hy : y = NUL
    · simp [cstr, hy]
    · have ha : NUL ∈ a := (List.mem_cons.mp h).resolve_left (Ne.symm hy)
      simpa [cstr, hy] using ih ha

theorem cstr_cons {c : UInt8} (h : c ≠ NUL) (b : Bytes) : cstr (c :: b) = c :: cstr b :=
  cstr_append_of_notMem (a := [c]) (by simpa using h.symm) b

theorem isFold_ne_nul {c : UInt8} (h : isFold c) : c ≠ NUL := by
  rintro rfl
  cases h

theorem stripCr_or (seg : Bytes) : stripCr seg = seg ∨ seg = stripCr seg ++ [CR] := by
  unfold stripCr
  split
  next h =>
    obtain ⟨init, rfl⟩ := List.getLast?_eq_some_iff.mp h
    exact Or.inr (by rw [List.dropLast_concat])
  · exact Or.inl rfl

theorem nul_mem_stripCr {seg : Bytes} : NUL ∈ stripCr seg ↔ NUL ∈ seg := by
  rcases stripCr_or seg with h | h
  · rw [h]
  · nth_rewrite 2 [h]
    rw [List.mem_append]
    exact ⟨Or.inl, fun hm => hm.resolve_right (by decide)⟩

theorem cstr_stripCr {seg : Bytes} (h : NUL ∈ seg) : cstr (stripCr seg) = cstr seg := by
  rcases stripCr_or seg with hs | hs
  · rw [hs]
  · nth_rewrite 2 [hs]
    exact (cstr_append_of_mem (nul_mem_stripCr.mpr h) _).symm

theorem not_continues_cstr {b : Bytes} (h : ¬Continues b) : ¬Continues (cstr b) := by
  cases b with
  | nil => exact h
  | cons c b =>
    by_cases hc : c = NUL
    · simp [cstr, hc]
    · rw [cstr_cons hc]
      simpa using h

/-! ## Scanning the C string -/

theorem lineScan_buf (b : Bytes) : ∀ buf n, buf <+: (lineScan buf n b).1.text := by
  induction b using scanInduction with
  | nil => exact fun buf n => List.prefix_rfl
  | last b hb h =>
    intro buf n
    rw [lineScan_last hb h]
    exact List.prefix_append _ _
  | line seg rest h hc =>
    intro buf n
    rw [lineScan_line h hc]
    exact List.prefix_append _ _
  | fold seg c rest h hc ih =>
    intro buf n
    rw [lineScan_fold h hc]
    exact (List.prefix_append _ _).trans (ih _ _)

/-- A line without a NUL is read alike. -/
theorem lineScan_cstr (b : Bytes) : ∀ buf n, NUL ∉ (lineScan buf n b).1.text →
    lineScan buf n (cstr b) = ((lineScan buf n b).1, cstr (lineScan buf n b).2) := by
  induction b using scanInduction with
  | nil => exact fun buf n _ => rfl
  | last b hb h =>
    intro buf n hn
    rw [lineScan_last hb h] at hn ⊢
    rw [cstr_eq_self fun hm => hn (List.mem_append_right _ hm), lineScan_last hb h]
    rfl
  | line seg rest h hc =>
    intro buf n hn
    rw [lineScan_line h hc] at hn ⊢
    have hseg : NUL ∉ seg := fun hm => hn (List.mem_append_right _ (nul_mem_stripCr.mpr hm))
    rw [cstr_append_of_notMem hseg, cstr_cons (by decide), lineScan_line h (not_continues_cstr hc)]
  | fold seg c rest h hc ih =>
    intro buf n hn
    rw [lineScan_fold h hc] at hn ⊢
    have hbuf : NUL ∉ buf ++ stripCr seg := fun hm => hn ((lineScan_buf rest _ _).subset hm)
    have hseg : NUL ∉ seg := fun hm => hbuf (List.mem_append_right _ (nul_mem_stripCr.mpr hm))
    rw [cstr_append_of_notMem hseg, cstr_cons (by decide), cstr_cons (isFold_ne_nul hc), lineScan_fold h hc]
    exact ih _ _ hn

/-- A line with a NUL is the last of the C string, and read up to the NUL. -/
theorem lineScan_cstr_nul (b : Bytes) : ∀ buf n, NUL ∉ buf → NUL ∈ (lineScan buf n b).1.text →
    (lineScan buf n (cstr b)).1.text = cstr (lineScan buf n b).1.text ∧ (lineScan buf n (cstr b)).2 = [] := by
  have cut {seg : Bytes} (h : LF ∉ seg) (buf : Bytes) (n : Nat) :
      (lineScan buf n (cstr seg)).1.text = buf ++ cstr seg ∧ (lineScan buf n (cstr seg)).2 = [] := by
    by_cases hnil : cstr seg = []
    · simp [hnil]
    · rw [lineScan_last hnil fun hm => h ((cstr_initial seg).subset hm)]
      exact ⟨rfl, rfl⟩
  induction b using scanInduction with
  | nil => exact fun buf n hbuf hn => absurd hn hbuf
  | last b hb h =>
    intro buf n hbuf hn
    rw [lineScan_last hb h, cstr_append_of_notMem hbuf]
    exact cut h buf n
  | line seg rest h hc =>
    intro buf n hbuf hn
    rw [lineScan_line h hc] at hn ⊢
    have hseg := nul_mem_stripCr.mp ((List.mem_append.mp hn).resolve_left hbuf)
    rw [cstr_append_of_mem hseg, cstr_append_of_notMem hbuf, cstr_stripCr hseg]
    exact cut h buf n
  | fold seg c rest h hc ih =>
    intro buf n hbuf hn
    by_cases hseg : NUL ∈ seg
    · obtain ⟨t, ht⟩ := lineScan_buf rest (buf ++ stripCr seg) (n + 1)
      rw [lineScan_fold h hc, ← ht, cstr_append_of_mem hseg, List.append_assoc, cstr_append_of_notMem hbuf,
        cstr_append_of_mem (nul_mem_stripCr.mpr hseg), cstr_stripCr hseg]
      exact cut h buf n
    · have hbuf' : NUL ∉ buf ++ stripCr seg := fun hm =>
        (List.mem_append.mp hm).elim hbuf fun hm => hseg (nul_mem_stripCr.mp hm)
      rw [lineScan_fold h hc] at hn ⊢
      rw [cstr_append_of_notMem hseg, cstr_cons (by decide), cstr_cons (isFold_ne_nul hc), lineScan_fold h hc]
      exact ih _ _ hbuf' hn

/-! ## The check and the load -/

/-- The first buffer is about to be read up to `r`, through lines of which only the
last may hold a NUL, and must where the text is `cut`, and the second is its C string;
or both reads are over. -/
def Truncated (cut : Prop) (r r₁ r₂ : Bytes) : Prop :=
  (∃ ls, Reads r₁ ls r ∧ (∀ l ∈ ls.dropLast, NUL ∉ l.text) ∧ (cut → ∃ l ∈ ls, NUL ∈ l.text) ∧ r₂ = cstr r₁) ∨
    (r₁ = r ∧ r₂ = [])

theorem read_cstr {b r : Bytes} {l : RawLine} (h : read b = some (l, r)) (hne : l.text ≠ []) (hn : NUL ∉ l.text) :
    read (cstr b) = some (l, cstr r) := by
  obtain ⟨-, hscan⟩ := read_eq_some.mp h
  have hc := lineScan_cstr b [] 0
  rw [hscan] at hc
  refine read_eq_some.mpr ⟨fun hnil => hne ?_, hc hn⟩
  have htext := congrArg (fun r => r.1.text) (hc hn)
  rw [hnil] at htext
  exact htext.symm

theorem read_cstr_nul {b r : Bytes} {l : RawLine} (h : read b = some (l, r)) (hne : cstr l.text ≠ [])
    (hn : NUL ∈ l.text) : ∃ l', read (cstr b) = some (l', []) ∧ l'.text = cstr l.text := by
  obtain ⟨-, hscan⟩ := read_eq_some.mp h
  have hc := lineScan_cstr_nul b [] 0 (by simp)
  rw [hscan] at hc
  obtain ⟨htext, hrest⟩ := hc hn
  refine ⟨(lineScan [] 0 (cstr b)).1, read_eq_some.mpr ⟨fun hnil => ?_, Prod.ext rfl hrest⟩, htext⟩
  rw [hnil] at htext
  exact hne htext.symm

theorem truncated_answers (cut : Prop) (r : Bytes) : Answers (Truncated cut r) (size r) where
  line := by
    rintro r₁ r₁' r₂ l np hR hsize hr hsplit
    have hcne : cstr l.text ≠ [] := by
      intro hnil
      rw [hnil] at hsplit
      cases hsplit
    have hne : l.text ≠ [] := by
      intro hnil
      rw [hnil] at hsplit
      cases hsplit
    rcases hR with ⟨ls, hreads, hls, hcut, rfl⟩ | ⟨rfl, -⟩
    · cases hreads with
      | nil => exact absurd hsize (lt_irrefl _)
      | @cons _ r' _ l' ls' hr' hreads' =>
        rw [hr] at hr'
        cases hr'
        by_cases hn : NUL ∈ l.text
        · -- the line is the last one
          have hlast : ls' = [] := by
            by_contra hls'
            exact hls l (by rw [List.dropLast_cons_of_ne_nil hls']; exact List.mem_cons_self) hn
          subst hlast
          cases hreads'
          obtain ⟨l₂, hr₂, htext⟩ := read_cstr_nul hr hcne hn
          exact ⟨l₂, [], hr₂, htext ▸ hcne, by rw [htext, cstr_cstr]; exact hsplit, .inr ⟨rfl, rfl⟩⟩
        · refine ⟨l, cstr r₁', read_cstr hr hne hn, hne, hsplit, .inl ⟨ls', hreads', fun m hm => hls m ?_, ?_, rfl⟩⟩
          · cases ls' with
            | nil => cases hm
            | cons m' ls' => exact List.mem_cons_of_mem l hm
          · intro hc
            obtain ⟨m, hm, hnul⟩ := hcut hc
            rcases List.mem_cons.mp hm with rfl | hm
            · exact absurd hnul hn
            · exact ⟨m, hm, hnul⟩
    · exact absurd hsize (lt_irrefl _)
  eof := by
    rintro r₁ r₂ hR hr
    rw [read_eq_none] at hr ⊢
    rcases hR with ⟨-, -, -, -, rfl⟩ | ⟨-, rfl⟩
    · rw [hr]
      rfl
    · rfl

theorem truncated_ended (r r₁ r₂ : Bytes) (h : Truncated True r r₁ r₂) (hr : r₁ = r) : Ended r₂ := by
  subst hr
  rcases h with ⟨ls, hreads, -, hcut, -⟩ | ⟨-, rfl⟩
  · obtain ⟨l, hl, -⟩ := hcut trivial
    exact absurd (hreads.size_lt (List.ne_nil_of_mem hl)) (lt_irrefl _)
  · rfl

/-- `r` is what follows the first line that holds a NUL. -/
def FirstNul (b r : Bytes) : Prop :=
  ∃ ls l, Reads b (ls ++ [l]) r ∧ (∀ m ∈ ls, NUL ∉ m.text) ∧ NUL ∈ l.text

theorem FirstNul.truncated {b r : Bytes} (h : FirstNul b r) : Truncated True r b (cstr b) := by
  obtain ⟨ls, l, hreads, hls, hl⟩ := h
  refine .inl ⟨ls ++ [l], hreads, fun m hm => hls m ?_, fun _ => ⟨l, by simp, hl⟩, rfl⟩
  rwa [List.dropLast_concat] at hm

/-- A list in which an element but the last has a property splits at the first that does. -/
theorem exists_first {α : Type} {P : α → Prop} [DecidablePred P] {ls : List α} (h : ∃ l ∈ ls.dropLast, P l) :
    ∃ pre l post, ls = (pre ++ [l]) ++ post ∧ (∀ m ∈ pre, ¬P m) ∧ P l ∧ post ≠ [] := by
  obtain ⟨x, hx, hPx⟩ := h
  have hsome : (ls.find? fun l => P l).isSome :=
    List.find?_isSome.mpr ⟨x, List.dropLast_subset ls hx, decide_eq_true hPx⟩
  obtain ⟨l, hl⟩ := Option.isSome_iff_exists.mp hsome
  obtain ⟨hPl, pre, post, rfl, hpre⟩ := List.find?_eq_some_iff_append.mp hl
  have hpre : ∀ m ∈ pre, ¬P m := fun m hm => by simpa using hpre m hm
  refine ⟨pre, l, post, by simp, hpre, of_decide_eq_true hPl, ?_⟩
  rintro rfl
  rw [List.dropLast_concat] at hx
  exact hpre x hx hPx

/-- The calendar in a buffer ends before the first NUL, in the line that holds it, or
can end with that line. -/
def EndsByNul (C : Libc) (file : Option String) (erange : Bool) (b : Bytes) (q : Nat) : Prop :=
  (∀ l ∈ (unfoldLines (b.take q)).dropLast, NUL ∉ l) ∨
    ∃ r cs z p, FirstNul b r ∧ OpenAt C (· = r) (.start file erange b) cs z p ∧ CanEnd cs z p

section
variable {file file' : Option String} {erange : Bool} {b : Bytes} {ic : Ical} {q : Nat}

omit C in
theorem truncated_sim {cut : Prop} {r : Bytes} (h : Truncated cut r b (cstr b)) :
    Sim (Truncated cut r) (IcalParse.start file erange b) (IcalParse.start file' erange (cstr b)) :=
  ⟨h, IcalParse.stale_start _ _ _, IcalParse.stale_start _ _ _, id, rfl⟩

theorem isSome_iff_accepted : (icalParse C file erange b 0).1.isSome ↔ ∃ p', Accepted C (.start file erange b) p' := by
  simp only [icalParse, List.drop_zero, Option.isSome_map]
  constructor
  · intro h
    rcases hp : icalParseFrom C file erange b with ⟨_ | u, p'⟩
    · rw [hp] at h
      cases h
    · exact ⟨p', icalParseFrom_iff.mp hp⟩
  · rintro ⟨p', h⟩
    rw [icalParseFrom_iff.mpr h]
    rfl

/-- A calendar that passes the check is accepted again as the C string it is stored as
exactly where it ends before the first NUL or can end there. -/
theorem icalParse_cstr_iff (h : (icalParse C file erange b 0).1 = some (ic, q)) :
    (icalParse C file' erange (cstr b) 0).1.isSome ↔ EndsByNul C file erange b q := by
  obtain ⟨p', ls, hacc, -, hreads, htake⟩ := icalParse_some h
  have hlines : (∀ l ∈ (unfoldLines (b.take q)).dropLast, NUL ∉ l) ↔ ∀ l ∈ ls.dropLast, NUL ∉ l.text := by
    rw [htake, ← List.map_dropLast, List.forall_mem_map]
  rw [isSome_iff_accepted, EndsByNul, hlines]
  have hcut {r : Bytes} {cs : List CompRef} {z : Option IcalTz} {p : IcalParse Bytes} (hnul : FirstNul b r)
      (hopen : OpenAt C (· = r) (.start file erange b) cs z p) :
      (∃ p', Accepted C (.start file' erange (cstr b)) p') ↔ CanEnd cs z p := by
    obtain ⟨p₂, hopen₂, hs⟩ := hopen.sim (truncated_answers True r) (truncated_ended r)
      (fun r' hr' => hr' ▸ le_rfl) (truncated_sim hnul.truncated)
    exact (accepted_iff_canEnd hopen₂).trans ⟨fun hend => hend.sim hs.undated.symm, fun hend => hend.sim hs.undated⟩
  constructor
  · intro hacc'
    by_cases hnul : ∀ l ∈ ls.dropLast, NUL ∉ l.text
    · exact .inl hnul
    · push Not at hnul
      obtain ⟨pre, l, post, rfl, hpre, hl, hpost⟩ := exists_first hnul
      obtain ⟨r, hpre', hpost'⟩ := hreads.split
      obtain ⟨cs, z, p, hopen⟩ := hacc.passes hpre' (by simp) (hpost'.size_lt hpost)
      have hfirst : FirstNul b r := ⟨pre, l, hpre', hpre, hl⟩
      exact .inr ⟨r, cs, z, p, hfirst, hopen, (hcut hfirst hopen).mp hacc'⟩
  · rintro (hnul | ⟨r, cs, z, p, hfirst, hopen, hend⟩)
    · exact hacc.sim (truncated_answers False p'.src) (truncated_sim (.inl ⟨ls, hreads, hnul, nofun, rfl⟩)) le_rfl
    · exact (hcut hfirst hopen).mpr hend

/-- What is accepted under a stale `errno` is accepted under any. -/
theorem icalParse_clearer (h : (icalParse C file true b 0).1.isSome) : (icalParse C file' erange b 0).1.isSome := by
  obtain ⟨p', hacc⟩ := isSome_iff_accepted.mp h
  have hR : Answers (Eq (α := Bytes)) 0 := ⟨fun hr _ hread hsplit => ?_, fun hr hread => hr ▸ hread⟩
  · exact isSome_iff_accepted.mpr (hacc.sim hR
      ⟨rfl, IcalParse.stale_start _ _ _, IcalParse.stale_start _ _ _, fun _ => rfl, rfl⟩ (Nat.zero_le _))
  · subst hr
    refine ⟨_, _, hread, ?_, hsplit, rfl⟩
    intro hnil
    rw [hnil] at hsplit
    cases hsplit

end

end Kcaldav
