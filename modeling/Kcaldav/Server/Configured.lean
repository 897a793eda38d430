import Kcaldav.Server.Comment

/-! # Well-formed configuration files

What `conf_read` makes of a file and what it is meant to accept. Lines end the read
where they are malformed but the return code does not tell.
-/
namespace Kcaldav
open CString

/-! ## Specification -/

/-- White space at both ends left out. -/
def trim (b : Bytes) : Bytes := (b.dropWhile isSpace).rdropWhile isSpace

/-- The keyword and the value of a line, around its first equal sign. -/
def setting (line : Bytes) : Option (Bytes × Bytes) :=
  (strchr EQUALS (stripped line)).map fun p => (trim p.1, trim p.2)

abbrev LOGFILE : Bytes := ascii "logfile"
abbrev DEBUG : Bytes := ascii "debug"

/-- The text is a decimal integer. -/
def IsInteger (v : Bytes) (n : Int) : Prop := ∃ l : Literal, l.blanks = [] ∧ l.text = v ∧ l.int = n

/-- The line is empty, or it has a log file or a level of debugging. -/
inductive WellFormedLine (line : Bytes) : Prop
  | empty (h : stripped line = [])
  | logfile (v : Bytes) (h : setting line = some (LOGFILE, v))
  | debug (v : Bytes) (n : Int) (h : setting line = some (DEBUG, v)) (hv : IsInteger v n) (hle : 0 ≤ n) (hge : n ≤ 10)

def WellFormed (content : Bytes) : Prop := ∀ line ∈ getlines content, WellFormedLine line

/-- The value of the line when it has this keyword and a value. -/
def valueOf (key line : Bytes) : Option Bytes :=
  (setting line).bind fun p => if p.1 = key ∧ p.2 ≠ [] then some p.2 else none

/-- The value of the last line that has this keyword and a value. -/
def lastValue (key : Bytes) (lines : List Bytes) : Option Bytes := (lines.filterMap (valueOf key)).getLast?

/-- A value that is there has been assigned, in its reading `R`; without one the old value stands. -/
def Assigned {α : Type} (R : Bytes → α → Prop) (old : α) (v : Option Bytes) (new : α) : Prop :=
  match v with
  | none => new = old
  | some v => R v new

/-- The file is accepted exactly when it is well-formed, with its last settings. -/
def Accepts (content : Bytes) : Prop := ∃ rc conf, confRead (.opened content false) = some (rc, conf) ∧
  (rc = 1 ↔ WellFormed content) ∧ (rc = 0 ↔ ¬WellFormed content) ∧
  (rc = 1 → conf.logfile = lastValue LOGFILE (getlines content) ∧
    Assigned IsInteger 0 (lastValue DEBUG (getlines content)) conf.verbose)

/-! ## Lines with NULs -/

theorem uncommented_append (prev : UInt8) (s t : Bytes) : uncommented prev (s ++ t) =
    if uncommented prev s = s then s ++ uncommented ((prev :: s).getLast (List.cons_ne_nil prev s)) t else uncommented prev s := by
  induction s generalizing prev with
  | nil => simp [uncommented]
  | cons c s ih =>
    rw [List.cons_append]
    by_cases h : c = HASH ∧ prev ≠ BACKSLASH
    · rw [uncommented, if_pos h, uncommented, if_pos h, if_neg (List.cons_ne_nil _ _).symm]
    · rw [uncommented, if_neg h, uncommented, if_neg h, ih]
      simp only [List.cons.injEq, true_and, List.getLast_cons_cons]
      split <;> rfl

theorem unescaped_append {d : UInt8} (hd : d ≠ HASH) (s t : Bytes) : unescaped (s ++ d :: t) = unescaped s ++ unescaped (d :: t) := by
  fun_induction unescaped s with
  | case1 => rfl
  | case2 c => exact unescaped_cons hd c t
  | case3 c e s h ih =>
    rw [List.cons_append, List.cons_append, unescaped, if_pos h, ih]
    rfl
  | case4 c e s h ih =>
    rw [List.cons_append, List.cons_append, unescaped, if_neg h, ← List.cons_append, ih]
    rfl

theorem rdropWhile_append_cons {d : UInt8} (hd : ¬isSpace d) (s t : Bytes) :
    (s ++ d :: t).rdropWhile isSpace = s ++ d :: t.rdropWhile isSpace := by
  induction t using List.reverseRecOn with
  | nil => exact List.rdropWhile_concat_neg _ _ _ hd
  | append_singleton t c ih =>
    rw [← List.cons_append, ← List.append_assoc]
    by_cases hc : isSpace c
    · rw [List.rdropWhile_concat_pos _ _ _ hc, List.rdropWhile_concat_pos _ _ _ hc, ih]
    · rw [List.rdropWhile_concat_neg _ _ _ hc, List.rdropWhile_concat_neg _ _ _ hc]
      simp

/-- What the handling of a line has left when its text is parsed. -/
structure Ready (line buf : Bytes) (linelen : Nat) : Prop where
  strip : confStrip line = some (buf, linelen)
  text : cstr buf = cstr (stripped line)
  empty : linelen = 0 ↔ stripped line = []

theorem ready_of_nul {line : Bytes} (h : NUL ∈ line) : ∃ buf linelen, Ready line buf linelen := by
  obtain ⟨s, v, rfl, hs⟩ : ∃ s v, line = s ++ NUL :: v ∧ NUL ∉ s := by
    cases hsplit : strchr NUL line with
    | none => exact absurd h (strchr_eq_none.mp hsplit)
    | some p => exact ⟨p.1, p.2, strchr_eq_some.mp hsplit⟩
  have hspec := uncommented_append NUL s (NUL :: v)
  obtain ⟨w, m, hrun, hwhole, hcut⟩ := confHash_nul_eq hs v
  by_cases h : uncommented NUL s = s
  · rw [if_pos h, uncommented_plain (by decide)] at hspec
    obtain ⟨w', m', hstrip, hlt⟩ := stripTrailing_nul (hwhole h) w
    have hnul : NUL ∉ unescaped s := fun hm => hs (mem_of_unescaped hm)
    have htext : stripped (s ++ NUL :: v) = unescaped s ++ NUL :: (unescaped (uncommented NUL v)).rdropWhile isSpace := by
      rw [stripped, hspec, unescaped_append (by decide), unescaped_plain (by decide), rdropWhile_append_cons (by decide)]
    refine ⟨unescaped s ++ NUL :: w', m', ?_, ?_, ?_⟩
    · rw [confStrip, hrun, h]
      exact congrArg some hstrip
    · rw [htext, cstr_append_nul hnul, cstr_append_nul hnul]
    · rw [htext]
      exact iff_of_false (by omega) (by simp)
  · rw [if_neg h] at hspec
    obtain ⟨w', hstrip⟩ := stripTrailing_text (unescaped (uncommented NUL s)) w
    have hnul : NUL ∉ (unescaped (uncommented NUL s)).rdropWhile isSpace := fun hm =>
      hs (mem_of_uncommented (mem_of_unescaped ((List.rdropWhile_prefix isSpace _).subset hm)))
    have htext : stripped (s ++ NUL :: v) = (unescaped (uncommented NUL s)).rdropWhile isSpace := by
      rw [stripped, hspec]
    refine ⟨(unescaped (uncommented NUL s)).rdropWhile isSpace ++ NUL :: w',
      ((unescaped (uncommented NUL s)).rdropWhile isSpace).length, ?_, ?_, ?_⟩
    · rw [confStrip, hrun, hcut h]
      exact congrArg some hstrip
    · rw [htext, cstr_append_nul hnul, cstr_eq_self hnul]
    · rw [htext]
      exact List.length_eq_zero_iff

/-- A line is ready as specified unless its last byte is noticed twice. -/
theorem ready_of_not_doubled {line : Bytes} (h : ¬Doubled line) : ∃ buf linelen, Ready line buf linelen := by
  by_cases hnul : NUL ∈ line
  · exact ready_of_nul hnul
  · obtain ⟨buf, hbuf, htext⟩ := (passesOn_iff hnul _).mpr ((stripped_leftover_iff line).mpr h)
    refine ⟨buf, _, hbuf, ?_, List.length_eq_zero_iff⟩
    rw [← htext, cstr_cstr]

/-- The handling of a line always ends. -/
theorem confStrip_isSome (line : Bytes) : ∃ p, confStrip line = some p := by
  by_cases hnul : NUL ∈ line
  · obtain ⟨buf, n, h⟩ := ready_of_nul hnul
    exact ⟨_, h.strip⟩
  · obtain ⟨buf, h, -⟩ := (passesOn_iff hnul _).mpr rfl
    exact ⟨_, h⟩

/-! ## One line -/

theorem setting_eq_some {line key v : Bytes} (h : setting line = some (key, v)) :
    ∃ a b, stripped line = a ++ EQUALS :: b ∧ EQUALS ∉ a ∧ trim a = key ∧ trim b = v := by
  obtain ⟨⟨a, b⟩, hsplit, heq⟩ := Option.map_eq_some_iff.mp h
  obtain ⟨htext, ha⟩ := strchr_eq_some.mp hsplit
  cases heq
  exact ⟨a, b, htext, ha, rfl, rfl⟩

theorem mem_rdropWhile {c : UInt8} {b : Bytes} (h : c ∈ b) (hc : ¬isSpace c) : c ∈ b.rdropWhile isSpace := by
  rw [← List.rdropWhile_append_rtakeWhile (p := isSpace) (l := b)] at h
  rcases List.mem_append.mp h with h | h
  · exact h
  · exact absurd (List.mem_rtakeWhile_imp h) hc

theorem mem_of_trim {c : UInt8} {b : Bytes} (h : c ∈ b) (hc : ¬isSpace c) : c ∈ trim b := by
  apply mem_rdropWhile _ hc
  rw [← List.takeWhile_append_dropWhile (p := isSpace) (l := b)] at h
  rcases List.mem_append.mp h with h | h
  · exact absurd (List.mem_takeWhile_imp h) hc
  · exact h

/-- What is in the text of a line and not in its keyword is in the value. -/
theorem mem_value {line key v : Bytes} (hs : setting line = some (key, v)) {b : UInt8} (hb : b ∈ stripped line)
    (hspace : ¬isSpace b) (hequals : b ≠ EQUALS) (hkey : b ∉ key) : b ∈ v := by
  obtain ⟨a, c, heq, ha, hakey, hcv⟩ := setting_eq_some hs
  rw [heq] at hb
  rcases List.mem_append.mp hb with hm | hm
  · exact absurd (hakey ▸ mem_of_trim hm hspace) hkey
  · rcases List.mem_cons.mp hm with hm | hm
    · exact absurd hm hequals
    · exact hcv ▸ mem_of_trim hm hspace

/-- The value of a stripped text has nothing to be stripped at its end. -/
theorem trim_value {line a b : Bytes} (h : stripped line = a ++ EQUALS :: b) : trim b = b.dropWhile isSpace := by
  have hb : b.rdropWhile isSpace = b := by
    have hstrip : (stripped line).rdropWhile isSpace = stripped line := List.rdropWhile_idempotent _ _
    rw [h, rdropWhile_append_cons (by decide)] at hstrip
    simpa using hstrip
  unfold trim
  rw [List.rdropWhile_eq_self_iff] at hb ⊢
  intro hne
  have hbne : b ≠ [] := by
    rintro rfl
    exact hne rfl
  rw [(List.dropWhile_suffix isSpace).getLast hne]
  exact hb hbne

/-- Parsing splits a text with a keyword at its first equal sign. -/
theorem confParseKeyval_eq {a key : Bytes} (ha : EQUALS ∉ a) (hkey : trim a = key) (hne : key ≠ []) (b : Bytes) :
    confParseKeyval (a ++ EQUALS :: b) =
      if b.dropWhile isSpace = [] then .nothing else .pair key (b.dropWhile isSpace) := by
  cases hk : a.dropWhile isSpace with
  | nil =>
    rw [trim, hk] at hkey
    exact absurd hkey.symm hne
  | cons k ks =>
    have hspace : isSpace k = false := by
      have hhead := List.head_dropWhile_not isSpace (l := a) (by rw [hk]; exact List.cons_ne_nil k ks)
      simpa [hk] using hhead
    have hdrop : (a ++ EQUALS :: b).dropWhile isSpace = (k :: ks) ++ EQUALS :: b := by
      rw [List.dropWhile_append, hk]
      rfl
    have hnot : EQUALS ∉ k :: ks := fun hm => ha ((List.dropWhile_sublist isSpace).subset (hk ▸ hm))
    have hkeys : k :: ks.rdropWhile isSpace = key := by
      have hsplit := rdropWhile_append_cons (d := k) (by simp [hspace]) [] ks
      rw [← hkey, trim, hk]
      exact hsplit.symm
    rw [confParseKeyval, hdrop, strchr_append hnot]
    dsimp only
    rw [hkeys]

theorem strtonum_literal {l : Literal} (hle : 0 ≤ l.int) (hge : l.int ≤ 10) : strtonum l.text 0 10 = (l.int, none) := by
  have hmax : ¬LONG_MAX < l.int := by
    unfold LONG_MAX
    omega
  have hmin : ¬l.int < LONG_MIN := by
    unfold LONG_MIN
    omega
  unfold strtonum
  rw [l.strtol_text, if_neg hmax, if_neg hmin]
  simp [Int.not_lt.mpr hle, Int.not_lt.mpr hge]

theorem IsInteger.notMem {v : Bytes} {n : Int} (h : IsInteger v n) {b : UInt8} (hdigit : ¬isDigit b) (hsign : b ∉ [43, 45]) :
    b ∉ v := by
  obtain ⟨l, hblanks, rfl, -⟩ := h
  intro hm
  rw [Literal.text, hblanks, List.nil_append] at hm
  rcases List.mem_append.mp hm with hm | hm
  · apply hsign
    cases hs : l.sign with
    | unsigned =>
      rw [hs] at hm
      cases hm
    | plus =>
      rw [hs] at hm
      exact List.mem_cons.mpr (.inl (List.mem_singleton.mp hm))
    | minus =>
      rw [hs] at hm
      exact List.mem_cons_of_mem _ hm
  · exact hdigit (l.numeric.2 b hm)

theorem valueOf_eq {line key v : Bytes} (h : setting line = some (key, v)) (k : Bytes) :
    valueOf k line = if key = k ∧ v ≠ [] then some v else none := by
  rw [valueOf, h]
  rfl

theorem valueOf_of_empty {line : Bytes} (h : stripped line = []) (k : Bytes) : valueOf k line = none := by
  rw [valueOf, setting, h]
  rfl

/-- The reading of a log file: a C string. -/
def IsLogfile (v : Bytes) (new : Option Bytes) : Prop := NUL ∉ v → new = some v

/-- A line with a keyword, when it is parsed. -/
theorem confLine_setting {line buf key v : Bytes} {n : Nat} (h : Ready line buf n) (hs : setting line = some (key, v))
    (hkey : NUL ∉ key) (hne : key ≠ []) : ∃ w, (NUL ∉ v → w = v) ∧ ∀ conf,
      confLine conf (cstr buf) n = if w = [] then (conf, true) else confSet conf key w := by
  obtain ⟨a, b, htext, ha, hakey, hbv⟩ := setting_eq_some hs
  have hn : n ≠ 0 := by
    rw [Ne, h.empty, htext]
    simp
  have hnul : NUL ∉ a ++ [EQUALS] := by
    intro hm
    rcases List.mem_append.mp hm with hm | hm
    · exact hkey (hakey ▸ mem_of_trim hm (by decide))
    · exact absurd (List.mem_singleton.mp hm) (by decide)
  have hcstr : cstr buf = a ++ EQUALS :: cstr b := by
    rw [h.text, htext, List.append_cons, cstr, List.takeWhile_append_of_pos]
    · simp [cstr]
    · intro c hc
      simp only [ne_eq, decide_not, Bool.not_eq_eq_eq_not, Bool.not_true, decide_eq_false_iff_not]
      rintro rfl
      exact hnul hc
  refine ⟨(cstr b).dropWhile isSpace, fun hv => ?_, fun conf => ?_⟩
  · have hb : NUL ∉ b := fun hm => hv (hbv ▸ mem_of_trim hm (by decide))
    rw [cstr_eq_self hb, ← trim_value htext, hbv]
  · rw [confLine, if_neg hn, hcstr, confParseKeyval_eq ha hakey hne]
    by_cases hempty : (cstr b).dropWhile isSpace = []
    · rw [if_pos hempty, if_pos hempty]
    · rw [if_neg hempty, if_neg hempty]

/-- What a well-formed line does to the configuration. -/
theorem confLine_ready {line buf : Bytes} {n : Nat} (h : Ready line buf n) (hw : WellFormedLine line) (conf : Conf) :
    ∃ conf', confLine conf (cstr buf) n = (conf', true) ∧
      Assigned IsLogfile conf.logfile (valueOf LOGFILE line) conf'.logfile ∧
      Assigned IsInteger conf.verbose (valueOf DEBUG line) conf'.verbose := by
  cases hw with
  | empty hempty =>
    rw [valueOf_of_empty hempty, valueOf_of_empty hempty]
    exact ⟨conf, by rw [confLine, if_pos (h.empty.mpr hempty)], rfl, rfl⟩
  | logfile v hv =>
    obtain ⟨w, hw, hline⟩ := confLine_setting h hv (by decide) (by decide)
    have hdebug : valueOf DEBUG line = none := by
      rw [valueOf_eq hv, if_neg fun h => absurd h.1 (by decide)]
    rw [hline, hdebug]
    by_cases hempty : v = []
    · have hlog : valueOf LOGFILE line = none := by
        rw [valueOf_eq hv, if_neg fun h => h.2 hempty]
      have hwempty : w = [] := by
        rw [hw (by simp [hempty]), hempty]
      rw [hlog, if_pos hwempty]
      exact ⟨conf, rfl, rfl, rfl⟩
    · have hlog : valueOf LOGFILE line = some v := by
        rw [valueOf_eq hv, if_pos ⟨rfl, hempty⟩]
      rw [hlog]
      by_cases hwempty : w = []
      · rw [if_pos hwempty]
        refine ⟨conf, rfl, fun hnul => ?_, rfl⟩
        exact absurd ((hw hnul).symm.trans hwempty) hempty
      · rw [if_neg hwempty]
        exact ⟨{ conf with logfile := some w }, rfl, fun hnul => congrArg some (hw hnul), rfl⟩
  | debug v m hv hint hle hge =>
    obtain ⟨w, hw, hline⟩ := confLine_setting h hv (by decide) (by decide)
    obtain rfl : w = v := hw (hint.notMem (by decide) (by decide))
    obtain ⟨l, hblanks, rfl, rfl⟩ := hint
    have hne : l.text ≠ [] := by
      simp [Literal.text, l.numeric.1]
    have hlog : valueOf LOGFILE line = none := by
      rw [valueOf_eq hv, if_neg fun h => absurd h.1 (by decide)]
    have hdebug : valueOf DEBUG line = some l.text := by
      rw [valueOf_eq hv, if_pos ⟨rfl, hne⟩]
    rw [hline, hdebug, hlog, if_neg hne, confSet, if_neg (by decide), if_pos rfl, strtonum_literal hle hge]
    exact ⟨{ conf with verbose := l.int }, rfl, rfl, l, hblanks, rfl, rfl⟩

/-! ## The whole file -/

theorem lastValue_append (key : Bytes) (a b : List Bytes) : lastValue key (a ++ b) = (lastValue key b).or (lastValue key a) := by
  unfold lastValue
  rw [List.filterMap_append, List.getLast?_append]

theorem lastValue_singleton (key line : Bytes) : lastValue key [line] = valueOf key line := by
  unfold lastValue
  rw [List.filterMap_cons]
  cases valueOf key line <;> rfl

theorem lastValue_cons (key line : Bytes) (lines : List Bytes) :
    lastValue key (line :: lines) = (lastValue key lines).or (valueOf key line) := by
  rw [← List.singleton_append, lastValue_append, lastValue_singleton]

theorem Assigned.trans {α : Type} {R : Bytes → α → Prop} {a b c : α} {v w : Option Bytes} (h : Assigned R a v b)
    (h' : Assigned R b w c) : Assigned R a (w.or v) c := by
  cases w with
  | none =>
    obtain rfl : c = b := h'
    exact h
  | some w => exact h'

/-- Well-formed lines are gone through to the end. -/
theorem confLoop_ready (lines : List Bytes) (h : ∀ line ∈ lines, WellFormedLine line ∧ ∃ buf n, Ready line buf n)
    (conf : Conf) : ∃ conf', (∀ rest, confLoop conf (lines ++ rest) = confLoop conf' rest) ∧
      Assigned IsLogfile conf.logfile (lastValue LOGFILE lines) conf'.logfile ∧
      Assigned IsInteger conf.verbose (lastValue DEBUG lines) conf'.verbose := by
  induction lines generalizing conf with
  | nil => exact ⟨conf, fun rest => rfl, rfl, rfl⟩
  | cons line lines ih =>
    rw [List.forall_mem_cons] at h
    obtain ⟨⟨hw, buf, n, hready⟩, hlines⟩ := h
    obtain ⟨mid, hline, hlog, hdebug⟩ := confLine_ready hready hw conf
    obtain ⟨conf', hloop, hlog', hdebug'⟩ := ih hlines mid
    rw [lastValue_cons, lastValue_cons]
    refine ⟨conf', fun rest => ?_, hlog.trans hlog', hdebug.trans hdebug'⟩
    rw [← hloop, List.cons_append, confLoop, hready.strip, Option.bind_some]
    dsimp only
    rw [hline]
    rfl

/-- Every line but the last has its newline. -/
theorem getlines_dropLast (content : Bytes) : ∀ line ∈ (getlines content).dropLast, line.getLast? = some LF := by
  induction content with
  | nil =>
    intro line hm
    cases hm
  | cons b s ih =>
    intro line hm
    rw [getlines] at hm
    split at hm
    · cases hs : getlines s with
      | nil =>
        rw [hs] at hm
        cases hm
      | cons l ls =>
        rw [hs, List.dropLast_cons_cons] at hm
        rcases List.mem_cons.mp hm with rfl | hm
        · rfl
        · exact ih line (hs ▸ hm)
    · cases hs : getlines s with
      | nil =>
        rw [hs] at hm
        cases hm
      | cons l ls =>
        rw [hs] at hm ih
        cases ls with
        | nil => cases hm
        | cons l' ls =>
          rw [List.dropLast_cons_cons] at hm ih
          rcases List.mem_cons.mp hm with rfl | hm
          · have hl := ih l List.mem_cons_self
            simp [List.getLast?_cons, hl]
          · exact ih line (List.mem_cons_of_mem l hm)

theorem notMem_of_confParseKeyval {buf key val : Bytes} {b : UInt8} (h : confParseKeyval buf = .pair key val) (hb : b ∉ buf) :
    b ∉ val := by
  unfold confParseKeyval at h
  split at h
  · cases h
  · cases h
  next k ks rest hsplit =>
    split at h
    · cases h
    · cases h
      intro hm
      have hrest : b ∈ buf.dropWhile isSpace := by
        rw [(strchr_eq_some.mp hsplit).1]
        exact List.mem_append_right _ (List.mem_cons_of_mem _ ((List.dropWhile_sublist isSpace).subset hm))
      exact hb ((List.dropWhile_sublist isSpace).subset hrest)

/-- No line makes a log file that is not a C string. -/
theorem confLine_cstring {conf : Conf} (h : ∀ v ∈ conf.logfile, NUL ∉ v) {text : Bytes} (htext : NUL ∉ text) (n : Nat) :
    ∀ v ∈ (confLine conf text n).1.logfile, NUL ∉ v := by
  unfold confLine
  split
  · exact h
  · split
    · exact h
    · exact h
    next key val hpair =>
      have hval := notMem_of_confParseKeyval hpair htext
      unfold confSet
      split
      · intro v hv
        cases hv
        exact hval
      · split <;> exact h

/-- Reading ends, and the log file is a C string then. -/
theorem confLoop_total (lines : List Bytes) (conf : Conf) (h : ∀ v ∈ conf.logfile, NUL ∉ v) :
    ∃ conf', confLoop conf lines = some conf' ∧ ∀ v ∈ conf'.logfile, NUL ∉ v := by
  induction lines generalizing conf with
  | nil => exact ⟨conf, rfl, h⟩
  | cons line lines ih =>
    obtain ⟨p, hp⟩ := confStrip_isSome line
    have hline := confLine_cstring h (nul_notMem_cstr p.1) p.2
    rw [confLoop, hp, Option.bind_some]
    dsimp only
    split
    · exact ih _ hline
    · exact ⟨_, rfl, hline⟩

theorem mem_unescaped {b : UInt8} (hb : b ≠ BACKSLASH) {s : Bytes} (h : b ∈ s) : b ∈ unescaped s := by
  fun_induction unescaped s with
  | case1 => exact h
  | case2 => exact h
  | case3 c d s hcd ih =>
    rcases List.mem_cons.mp h with heq | h
    · exact absurd (heq.trans hcd.1) hb
    rcases List.mem_cons.mp h with heq | h
    · exact List.mem_cons.mpr (.inl (heq.trans hcd.2))
    · exact List.mem_cons_of_mem _ (ih h)
  | case4 c d s hcd ih =>
    rcases List.mem_cons.mp h with rfl | h
    · exact List.mem_cons_self
    · exact List.mem_cons_of_mem c (ih h)

theorem Doubled.mem_stripped {line : Bytes} (h : Doubled line) {b : UInt8} (hb : b ≠ BACKSLASH) (hspace : ¬isSpace b)
    (hm : b ∈ line) : b ∈ stripped line := by
  apply mem_rdropWhile _ hspace
  rw [h.uncommented]
  exact mem_unescaped hb hm

/-- A well-formed line with a character that no other setting has in it sets the log file. -/
theorem WellFormedLine.logfile_of_mem {line : Bytes} (h : WellFormedLine line) {b : UInt8} (hb : b ∈ stripped line)
    (hspace : ¬isSpace b) (hequals : b ≠ EQUALS) (hlog : b ∉ LOGFILE) (hdebug : b ∉ DEBUG) (hdigit : ¬isDigit b)
    (hsign : b ∉ [43, 45]) : ∃ v, setting line = some (LOGFILE, v) ∧ b ∈ v := by
  cases h with
  | empty h =>
    rw [h] at hb
    cases hb
  | logfile v hs => exact ⟨v, hs, mem_value hs hb hspace hequals hlog⟩
  | debug v n hs hint => exact absurd (mem_value hs hb hspace hequals hdebug) (hint.notMem hdigit hsign)

/-- The log file of a line whose last byte is noticed twice is too long. -/
theorem confLine_doubled {line : Bytes} (hd : Doubled line) (hnul : NUL ∉ line) (hw : WellFormedLine line) :
    ∃ buf n v w, confStrip line = some (buf, n) ∧ valueOf LOGFILE line = some v ∧ w ≠ v ∧
      ∀ conf, confLine conf (cstr buf) n = ({ conf with logfile := some w }, true) := by
  obtain ⟨c, hlast⟩ : ∃ c, line.getLast? = some c := by
    cases hline : line.getLast? with
    | none =>
      rw [List.getLast?_eq_none_iff] at hline
      subst hline
      exact absurd hd.escaped (by decide)
    | some c => exact ⟨c, rfl⟩
  obtain ⟨hhash, hspace⟩ := hd.ends c hlast
  have hleft : leftover line = List.replicate (escapes line) c := by
    rw [leftover, hlast]
    exact if_pos ⟨hd.uncommented, hhash⟩
  obtain ⟨k, hk⟩ : ∃ k, escapes line = k + 1 := by
    have hpos := (escapes_pos_iff line).mpr hd.escaped
    exact ⟨escapes line - 1, by omega⟩
  obtain ⟨t, ht⟩ : ∃ t, unescaped line = t ++ [c] := by
    have hget := unescaped_getLast? line
    rw [hlast] at hget
    exact List.getLast?_eq_some_iff.mp hget
  have hspec : stripped line = unescaped line := by
    rw [stripped, hd.uncommented, ht, List.rdropWhile_concat_neg _ _ _ hspace]
  have htext : (unescaped (uncommented NUL line) ++ leftover line).rdropWhile isSpace =
      unescaped line ++ List.replicate (k + 1) c := by
    rw [hd.uncommented, hleft, hk, List.replicate_succ', ← List.append_assoc, List.rdropWhile_concat_neg _ _ _ hspace]
  obtain ⟨buf, hstrip, hcstr⟩ := (passesOn_iff hnul _).mpr htext
  -- the hash is in the value of a log file
  have hmem : HASH ∈ stripped line := hd.mem_stripped (by decide) (by decide) (hd.escaped.subset (by decide))
  obtain ⟨v, hs, hhashv⟩ := hw.logfile_of_mem hmem (by decide) (by decide) (by decide) (by decide) (by decide) (by decide)
  have hv := List.ne_nil_of_mem hhashv
  obtain ⟨a, b, heq, ha, hakey, hbv⟩ := setting_eq_some hs
  have hdrop : b.dropWhile isSpace = v := by
    rw [← trim_value heq, hbv]
  have hlong : (b ++ List.replicate (k + 1) c).dropWhile isSpace = v ++ List.replicate (k + 1) c := by
    rw [List.dropWhile_append, hdrop, if_neg (by simp [hv])]
  refine ⟨buf, _, v, v ++ List.replicate (k + 1) c, hstrip, ?_, by simp, fun conf => ?_⟩
  · rw [valueOf_eq hs, if_pos ⟨rfl, hv⟩]
  · rw [hcstr, ← hspec, heq, List.append_assoc, List.cons_append, confLine, if_neg (by simp),
      confParseKeyval_eq ha hakey (by decide), hlong, if_neg (by simp)]
    rfl

/-- The last log file is a C string, and no line has its last byte noticed twice. -/
structure Intact (content : Bytes) : Prop where
  cstring : ∀ v ∈ lastValue LOGFILE (getlines content), NUL ∉ v
  lines : ∀ line ∈ getlines content, ¬Doubled line

theorem Intact.of_accepts {content : Bytes} {conf : Conf} (hw : WellFormed content)
    (hloop : confLoop ⟨none, 0⟩ (getlines content) = some conf) (hcstr : ∀ v ∈ conf.logfile, NUL ∉ v)
    (hlog : conf.logfile = lastValue LOGFILE (getlines content)) : Intact content := by
  have hcstring : ∀ v ∈ lastValue LOGFILE (getlines content), NUL ∉ v := hlog ▸ hcstr
  refine ⟨hcstring, fun line hline hd => ?_⟩
  have hnewline : ∀ l ∈ (getlines content).dropLast, ¬Doubled l := fun l hl hd =>
    (hd.ends LF (getlines_dropLast content l hl)).2 (by decide)
  -- a line without its newline is the last one
  obtain ⟨lines, hlines⟩ : ∃ lines, getlines content = lines ++ [line] ∧ ∀ l ∈ lines, ¬Doubled l := by
    have hne := List.ne_nil_of_mem hline
    have hsplit := List.dropLast_append_getLast hne
    rw [← hsplit] at hline
    rcases List.mem_append.mp hline with hm | hm
    · exact absurd hd (hnewline line hm)
    · rw [List.mem_singleton.mp hm]
      exact ⟨_, hsplit.symm, hnewline⟩
  obtain ⟨hsplit, hlines⟩ := hlines
  unfold WellFormed at hw
  rw [hsplit] at hw hloop hlog hcstring
  rw [lastValue_append, lastValue_singleton] at hlog hcstring
  have hline := hw line (by simp)
  by_cases hnul : NUL ∈ line
  · have hmem := hd.mem_stripped (by decide) (by decide) hnul
    obtain ⟨v, hs, hv⟩ := hline.logfile_of_mem hmem (by decide) (by decide) (by decide) (by decide) (by decide) (by decide)
    rw [valueOf_eq hs, if_pos ⟨rfl, List.ne_nil_of_mem hv⟩] at hcstring
    exact hcstring v rfl hv
  · obtain ⟨buf, n, v, w, hstrip, hvalue, hne, hset⟩ := confLine_doubled hd hnul hline
    obtain ⟨mid, hmid, -⟩ := confLoop_ready lines
      (fun l hl => ⟨hw l (List.mem_append_left _ hl), ready_of_not_doubled (hlines l hl)⟩) ⟨none, 0⟩
    rw [hmid, confLoop, hstrip, Option.bind_some, hset] at hloop
    cases hloop
    rw [hvalue] at hlog
    exact hne (Option.some.inj hlog)

/-- The return code tells of a file only that it could be read. Well-formed files get their
settings unless the last log file comes out cut off or too long. -/
theorem confRead_accepts_iff (content : Bytes) : Accepts content ↔ WellFormed content ∧ Intact content := by
  obtain ⟨conf, hloop, hcstr⟩ := confLoop_total (getlines content) ⟨none, 0⟩ (by simp)
  have hread : confRead (.opened content false) = some (1, conf) := by
    rw [confRead, hloop]
    rfl
  constructor
  · rintro ⟨rc, conf', hrun, hone, -, hset⟩
    rw [hread] at hrun
    cases hrun
    have hw := hone.mp rfl
    exact ⟨hw, .of_accepts hw hloop hcstr (hset rfl).1⟩
  · rintro ⟨hw, hintact⟩
    obtain ⟨conf', hrun, hlog, hdebug⟩ := confLoop_ready (getlines content)
      (fun line hline => ⟨hw line hline, ready_of_not_doubled (hintact.lines line hline)⟩) ⟨none, 0⟩
    have hend := hrun []
    rw [List.append_nil, hloop] at hend
    cases hend
    refine ⟨1, conf, hread, iff_of_true rfl hw, iff_of_false (by decide) (not_not.mpr hw), fun _ => ⟨?_, hdebug⟩⟩
    have hcstring := hintact.cstring
    cases hvalue : lastValue LOGFILE (getlines content) with
    | none =>
      rw [hvalue] at hlog
      exact hlog
    | some v =>
      rw [hvalue] at hlog
      exact hlog (hcstring v hvalue)

/-- A line without an equal sign is an error that goes unnoticed, and so are the lines after it. -/
theorem confRead_not_accepts : confRead (.opened (ascii "nonsense\nlogfile=/logs/kcaldav.log\n") false) = some (1, ⟨none, 0⟩) ∧
    ¬WellFormed (ascii "nonsense\nlogfile=/logs/kcaldav.log\n") ∧
    ¬Accepts (ascii "nonsense\nlogfile=/logs/kcaldav.log\n") := by
  have hread : confRead (.opened (ascii "nonsense\nlogfile=/logs/kcaldav.log\n") false) = some (1, ⟨none, 0⟩) := by
    decide +kernel
  have hw : ¬WellFormed (ascii "nonsense\nlogfile=/logs/kcaldav.log\n") := by
    intro h
    have hnone : setting (ascii "nonsense\n") = none := by decide
    cases h (ascii "nonsense\n") (by decide +kernel) with
    | empty h => exact absurd h (by decide)
    | logfile v h => rw [hnone] at h; cases h
    | debug v n h => rw [hnone] at h; cases h
  refine ⟨hread, hw, ?_⟩
  rintro ⟨rc, conf, hrun, hone, -⟩
  rw [hread] at hrun
  cases hrun
  exact hw (hone.mp rfl)

end Kcaldav
