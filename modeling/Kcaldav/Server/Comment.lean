import Kcaldav.Server.Conf

/-! # Comments and escaped hashes

What the loop over the hashes of a line leaves of it. The move over a backslash takes
the bytes of the line with it but not the NUL behind them, so that the last byte of the
line stands there twice; white space and a hash at the end hide that.
-/
namespace Kcaldav
open CString

/-! ## One step of the loop -/

section
variable (fuel linelen : Nat) (out : Bytes) {prev : UInt8}

theorem confHash_nul (w : Bytes) :
    confHash (fuel + 1) out.length (out ++ NUL :: w) linelen = some (out ++ NUL :: w, linelen) := by
  rw [confHash, byteAt_append, if_pos rfl]

theorem confHash_plain {c : UInt8} (hnul : c ≠ NUL) (hhash : c ≠ HASH) (w : Bytes) :
    confHash (fuel + 1) out.length (out ++ c :: w) linelen =
      confHash fuel (out ++ [c]).length ((out ++ [c]) ++ w) linelen := by
  rw [confHash, byteAt_append, if_neg hnul, if_pos hhash]
  simp

theorem byteAt_before (c : UInt8) (w : Bytes) :
    byteAt ((out ++ [prev]) ++ c :: w) ((out ++ [prev]).length - 1) = prev := by
  have hlen : (out ++ [prev]).length - 1 = out.length := by simp
  rw [hlen, List.append_assoc, List.singleton_append, byteAt_append]

theorem confHash_cut (hprev : prev ≠ BACKSLASH) (w : Bytes) :
    confHash (fuel + 1) (out ++ [prev]).length ((out ++ [prev]) ++ HASH :: w) linelen =
      some ((out ++ [prev]) ++ NUL :: w, (out ++ [prev]).length) := by
  have hset : ((out ++ [prev]) ++ HASH :: w).set (out ++ [prev]).length NUL = (out ++ [prev]) ++ NUL :: w := by
    simp
  have hbefore : byteAt ((out ++ [prev]) ++ HASH :: w) ((out ++ [prev]).length - 1) ≠ BACKSLASH := by
    rw [byteAt_before]
    exact hprev
  rw [confHash, byteAt_append, if_neg (by decide), if_neg (not_not.mpr rfl), if_pos (.inr hbefore), hset]

/-- A hash is moved over its backslash and the bytes after it follow. -/
theorem confHash_shift {x : Bytes} (hlen : linelen = (out ++ [BACKSLASH]).length + (x.length + 1)) :
    confHash (fuel + 1) (out ++ [BACKSLASH]).length ((out ++ [BACKSLASH]) ++ HASH :: (x ++ [NUL])) linelen =
      confHash fuel (out ++ [HASH]).length
        ((out ++ [HASH]) ++ (x ++ [(HASH :: x).getLast (List.cons_ne_nil HASH x), NUL])) linelen := by
  have hindex : ¬((out ++ [BACKSLASH]).length = 0 ∨
      byteAt ((out ++ [BACKSLASH]) ++ HASH :: (x ++ [NUL])) ((out ++ [BACKSLASH]).length - 1) ≠ BACKSLASH) := by
    rw [byteAt_before]
    simp
  have hdst : (out ++ [BACKSLASH]).length - 1 = out.length := by simp
  have hsrc : (out ++ [BACKSLASH]).length = out.length + 1 := by simp
  have hcount : linelen - (out ++ [BACKSLASH]).length = x.length + 1 := by omega
  have hmove := memmove_left out BACKSLASH HASH x
  rw [confHash, byteAt_append, if_neg (by decide), if_neg (not_not.mpr rfl), if_neg hindex, hdst, hcount, hsrc,
    List.append_assoc, List.singleton_append, hmove]
  simp

end

/-! ## The whole line -/

@[simp] theorem unescaped_nil : unescaped [] = [] := rfl
@[simp] theorem unescaped_singleton (c : UInt8) : unescaped [c] = [c] := rfl

theorem unescaped_escape (s : Bytes) : unescaped (BACKSLASH :: HASH :: s) = HASH :: unescaped s := by
  simp [unescaped]

theorem unescaped_cons {d : UInt8} (hd : d ≠ HASH) (c : UInt8) (s : Bytes) :
    unescaped (c :: d :: s) = c :: unescaped (d :: s) := by
  rw [unescaped, if_neg fun h => hd h.2]

theorem unescaped_plain {c : UInt8} (hc : c ≠ BACKSLASH) (s : Bytes) : unescaped (c :: s) = c :: unescaped s := by
  cases s with
  | nil => rfl
  | cons d s => rw [unescaped, if_neg fun h => hc h.1]

theorem unescaped_length (s : Bytes) : (unescaped s).length ≤ s.length := by
  fun_induction unescaped s with
  | case1 => rfl
  | case2 => rfl
  | case3 c d s h ih =>
    simp only [List.length_cons]
    omega
  | case4 c d s h ih =>
    simp only [List.length_cons] at ih ⊢
    omega

theorem uncommented_plain {c : UInt8} (hc : c ≠ HASH) (prev : UInt8) (s : Bytes) :
    uncommented prev (c :: s) = c :: uncommented c s := by
  rw [uncommented, if_neg fun h => hc h.1]

theorem uncommented_cut {prev : UInt8} (hprev : prev ≠ BACKSLASH) (s : Bytes) : uncommented prev (HASH :: s) = [] := by
  rw [uncommented, if_pos ⟨rfl, hprev⟩]

theorem uncommented_escape (s : Bytes) : uncommented BACKSLASH (HASH :: s) = HASH :: uncommented HASH s := by
  rw [uncommented, if_neg fun h => h.2 rfl]

/-- How many hashes lose a backslash. -/
def escapes (s : Bytes) : Nat := s.length - (unescaped s).length

theorem escapes_cons {d : UInt8} (hd : d ≠ HASH) (c : UInt8) (s : Bytes) : escapes (c :: d :: s) = escapes (d :: s) := by
  simp [escapes, unescaped_cons hd]

theorem escapes_escape (s : Bytes) : escapes (BACKSLASH :: HASH :: s) = escapes (HASH :: s) + 1 := by
  have hle := unescaped_length s
  simp only [escapes, unescaped_escape, unescaped_plain (c := HASH) (by decide), List.length_cons]
  omega

/-- The loop from the second byte of a line on. It cuts the text at a hash, or comes to the
end of `s`, where it finds what was there before and a copy of the last byte for every move. -/
theorem confHash_walk {c : UInt8} {s : Bytes} (hs : NUL ∉ s) (out : Bytes) (prev : UInt8) (x : Bytes) (fuel : Nat)
    (hlast : ((prev :: s) ++ x).getLast (by simp) = c)
    (hfuel : 2 * (s.length + x.length) + (if prev = BACKSLASH then 1 else 0) < fuel) :
    let linelen := out.length + 1 + s.length + x.length
    let text := out ++ unescaped (prev :: uncommented prev s)
    let run := confHash fuel (out ++ [prev]).length ((out ++ [prev]) ++ (s ++ (x ++ [NUL]))) linelen
    (uncommented prev s = s → ∃ n, x.length + escapes (prev :: s) < n ∧
      run = confHash n text.length (text ++ (x ++ (List.replicate (escapes (prev :: s)) c ++ [NUL]))) linelen) ∧
    (uncommented prev s ≠ s → ∃ w, run = some (text ++ NUL :: w, text.length)) := by
  dsimp only
  induction s generalizing out prev x fuel with
  | nil =>
    constructor
    · intro _
      exact ⟨fuel, by simp [escapes]; omega, by simp [uncommented, escapes]⟩
    · intro h
      exact absurd rfl h
  | cons d t ih =>
    obtain ⟨hd, ht⟩ : d ≠ NUL ∧ NUL ∉ t := by simpa [eq_comm] using hs
    obtain ⟨n, rfl⟩ : ∃ n, fuel = n + 1 := ⟨fuel - 1, by omega⟩
    rw [List.length_cons] at hfuel ⊢
    rw [List.cons_append]
    by_cases hhash : d = HASH
    · subst hhash
      by_cases hprev : prev = BACKSLASH
      · -- the hash takes the place of its backslash, and a copy of the last byte comes in
        subst hprev
        have hlast' : (HASH :: (t ++ x)).getLast (List.cons_ne_nil _ _) = c := by simpa using hlast
        obtain ⟨hend, hcut⟩ := ih ht out HASH (x ++ [c]) n (by simp) (by
          rw [if_pos rfl] at hfuel
          rw [if_neg (by decide), List.length_append, List.length_singleton]
          omega)
        have hlen : out.length + 1 + (t.length + 1) + x.length = (out ++ [BACKSLASH]).length + ((t ++ x).length + 1) := by
          simp only [List.length_append, List.length_singleton]
          omega
        have hbuf : t ++ x ++ [c, NUL] = t ++ (x ++ [c] ++ [NUL]) := by simp
        have hsum : out.length + 1 + (t.length + 1) + x.length = out.length + 1 + t.length + (x ++ [c]).length := by
          rw [List.length_append, List.length_singleton]
          omega
        have hshift := confHash_shift n _ out hlen
        rw [hlast', hbuf, List.append_assoc t, hsum] at hshift
        rw [uncommented_escape, unescaped_escape, ← unescaped_plain (c := HASH) (by decide), hsum, hshift, escapes_escape]
        refine ⟨fun h => ?_, fun h => ?_⟩
        · obtain ⟨m, hm, hrun⟩ := hend (List.cons.inj h).2
          rw [List.length_append, List.length_singleton] at hm
          refine ⟨m, by omega, hrun.trans ?_⟩
          rw [List.replicate_succ]
          simp
        · exact hcut fun heq => h (congrArg _ heq)
      · have hcut := confHash_cut n (out.length + 1 + (t.length + 1) + x.length) out hprev
          (t ++ (x ++ [NUL]))
        rw [uncommented_cut hprev]
        refine ⟨fun h => absurd h (List.cons_ne_nil _ _).symm, fun _ => ⟨t ++ (x ++ [NUL]), ?_⟩⟩
        exact hcut
    · obtain ⟨hend, hcut⟩ := ih ht (out ++ [prev]) d x n (by simpa using hlast) (by
        split at hfuel <;> split <;> omega)
      have hplain := confHash_plain n (out.length + 1 + (t.length + 1) + x.length) (out ++ [prev])
        hd hhash (t ++ (x ++ [NUL]))
      have hsum : (out ++ [prev]).length + 1 + t.length + x.length = out.length + 1 + (t.length + 1) + x.length := by
        simp only [List.length_append, List.length_singleton]
        omega
      have htext : out ++ unescaped (prev :: d :: uncommented d t) = (out ++ [prev]) ++ unescaped (d :: uncommented d t) := by
        rw [unescaped_cons hhash]
        simp
      rw [hsum] at hend hcut
      rw [uncommented_plain hhash, hplain, htext, escapes_cons hhash]
      exact ⟨fun h => hend (List.cons.inj h).2, fun h => hcut fun heq => h (congrArg _ heq)⟩

/-- Copies of the last byte are gone over when they are no hashes. -/
theorem confHash_copies {c : UInt8} (hnul : c ≠ NUL) (hhash : c ≠ HASH) (linelen : Nat) {k fuel : Nat} (hfuel : k < fuel)
    (out : Bytes) : confHash fuel out.length (out ++ (List.replicate k c ++ [NUL])) linelen =
      some (out ++ (List.replicate k c ++ [NUL]), linelen) := by
  induction k generalizing fuel out with
  | zero =>
    obtain ⟨n, rfl⟩ : ∃ n, fuel = n + 1 := ⟨fuel - 1, by omega⟩
    apply confHash_nul
  | succ k ih =>
    obtain ⟨n, rfl⟩ : ∃ n, fuel = n + 1 := ⟨fuel - 1, by omega⟩
    rw [List.replicate_succ, List.cons_append, confHash_plain _ _ _ hnul hhash, ih (by omega)]
    simp

/-- The loop from the start of the line on. -/
theorem confHash_start {s : Bytes} (hs : NUL ∉ s) {x : Bytes} {c : UInt8} (hlast : (s ++ x).getLast? = some c) :
    let linelen := (s ++ x).length
    let text := unescaped (uncommented NUL s)
    let run := confHash (2 * linelen + 1) 0 (s ++ x ++ [NUL]) linelen
    (uncommented NUL s = s → ∃ n, x.length + escapes s < n ∧
      run = confHash n text.length (text ++ (x ++ (List.replicate (escapes s) c ++ [NUL]))) linelen) ∧
    (uncommented NUL s ≠ s → ∃ w, run = some (text ++ NUL :: w, text.length)) := by
  dsimp only
  cases s with
  | nil =>
    refine ⟨fun _ => ⟨2 * x.length + 1, ?_, by simp [uncommented, escapes]⟩, fun h => absurd rfl h⟩
    simp [escapes]
    omega
  | cons a s =>
    obtain ⟨ha, hs⟩ : a ≠ NUL ∧ NUL ∉ s := by simpa [eq_comm] using hs
    by_cases hhash : a = HASH
    · subst hhash
      rw [uncommented_cut (by decide)]
      refine ⟨fun h => absurd h (List.cons_ne_nil _ _).symm, fun _ => ⟨s ++ x ++ [NUL], ?_⟩⟩
      simp [confHash, byteAt, ha]
    · have hlen : ((a :: s) ++ x).length = s.length + x.length + 1 := by
        simp only [List.cons_append, List.length_cons, List.length_append]
      have hget : ((a :: s) ++ x).getLast (by simp) = c := by
        rw [List.getLast?_eq_some_getLast (by simp)] at hlast
        exact Option.some.inj hlast
      obtain ⟨hend, hcut⟩ := confHash_walk hs [] a x (2 * (s.length + x.length + 1)) hget (by split <;> omega)
      have hfirst := confHash_plain (2 * (s.length + x.length + 1)) (s.length + x.length + 1) []
        ha hhash (s ++ x ++ [NUL])
      have hsum : ([] : Bytes).length + 1 + s.length + x.length = s.length + x.length + 1 := by
        rw [List.length_nil]
        omega
      rw [hsum, List.nil_append, ← List.append_assoc s] at hend hcut
      rw [List.length_nil, List.nil_append, List.nil_append] at hfirst
      rw [uncommented_plain hhash, hlen, List.cons_append, List.cons_append, hfirst]
      exact ⟨fun h => hend (List.cons.inj h).2, fun h => hcut fun heq => h (congrArg _ heq)⟩

theorem unescaped_getLast? (s : Bytes) : (unescaped s).getLast? = s.getLast? := by
  fun_induction unescaped s with
  | case1 => rfl
  | case2 => rfl
  | case3 c d s h ih =>
    obtain ⟨rfl, rfl⟩ := h
    simp [List.getLast?_cons, ih]
  | case4 c d s h ih => simp [List.getLast?_cons, ih]

/-- The copies of the last byte at the end of a line that has been gone through. -/
def leftover (line : Bytes) : Bytes :=
  match line.getLast? with
  | none => []
  | some c => if uncommented NUL line = line ∧ c ≠ HASH then List.replicate (escapes line) c else []

/-- The loop on a line without NULs. -/
theorem confHash_eq {line : Bytes} (h : NUL ∉ line) :
    ∃ w, confHash (2 * line.length + 1) 0 (line ++ [NUL]) line.length =
      let text := unescaped (uncommented NUL line) ++ leftover line
      some (text ++ NUL :: w, text.length) := by
  dsimp only
  cases hlast : line.getLast? with
  | none =>
    rw [List.getLast?_eq_none_iff] at hlast
    subst hlast
    exact ⟨[], by simp [confHash, byteAt, uncommented, leftover]⟩
  | some c =>
    have hstart := confHash_start h (x := []) (by simpa using hlast)
    dsimp only at hstart
    rw [List.append_nil] at hstart
    obtain ⟨hend, hcut⟩ := hstart
    unfold leftover
    rw [hlast]
    dsimp only
    by_cases hwhole : uncommented NUL line = line
    · obtain ⟨n, hn, hrun⟩ := hend hwhole
      have hlen : line.length = (unescaped line).length + escapes line := by
        have hle := unescaped_length line
        unfold escapes
        omega
      rw [hrun, hwhole]
      by_cases hhash : c = HASH
      · -- the text ends in a hash, and the first copy is cut off as a comment
        subst hhash
        obtain ⟨m, rfl⟩ : ∃ m, n = m + 1 := ⟨n - 1, by omega⟩
        obtain ⟨t, ht⟩ : ∃ t, unescaped line = t ++ [HASH] := by
          have hget := unescaped_getLast? line
          rw [hlast] at hget
          exact List.getLast?_eq_some_iff.mp hget
        rw [ht] at hlen
        rw [ht, if_neg fun h => h.2 rfl, List.append_nil, List.nil_append]
        cases hk : escapes line with
        | zero =>
          rw [hlen, hk]
          exact ⟨[], confHash_nul _ _ _ []⟩
        | succ k => exact ⟨List.replicate k HASH ++ [NUL], confHash_cut _ _ _ (by decide) _⟩
      · have hnul : c ≠ NUL := fun hc => h (hc ▸ List.mem_of_getLast? hlast)
        rw [List.length_nil, Nat.zero_add] at hn
        rw [if_pos ⟨rfl, hhash⟩, List.nil_append, confHash_copies hnul hhash _ hn, List.length_append,
          List.length_replicate, ← hlen]
        exact ⟨[], by simp⟩
    · obtain ⟨w, hw⟩ := hcut hwhole
      rw [hw, if_neg fun h => hwhole h.1, List.append_nil]
      exact ⟨w, rfl⟩

/-- The loop on a line with a NUL in it. -/
theorem confHash_nul_eq {s : Bytes} (hs : NUL ∉ s) (v : Bytes) : ∃ w m,
    confHash (2 * (s ++ NUL :: v).length + 1) 0 (s ++ NUL :: v ++ [NUL]) (s ++ NUL :: v).length =
      some (unescaped (uncommented NUL s) ++ NUL :: w, m) ∧
    (uncommented NUL s = s → (unescaped s).length < m) ∧
    (uncommented NUL s ≠ s → m = (unescaped (uncommented NUL s)).length) := by
  obtain ⟨hend, hcut⟩ := confHash_start hs (x := NUL :: v) (List.getLast?_eq_some_getLast (by simp))
  by_cases hwhole : uncommented NUL s = s
  · obtain ⟨n, hn, hrun⟩ := hend hwhole
    obtain ⟨m, rfl⟩ : ∃ m, n = m + 1 := ⟨n - 1, by omega⟩
    refine ⟨_, _, hrun.trans (confHash_nul _ _ _ _), fun _ => ?_, fun h => absurd hwhole h⟩
    have hle := unescaped_length s
    rw [List.length_append, List.length_cons]
    omega
  · obtain ⟨w, hw⟩ := hcut hwhole
    exact ⟨w, _, hw, fun h => absurd h hwhole, fun _ => rfl⟩

/-! ## What is passed on -/

theorem mem_of_uncommented {b prev : UInt8} {s : Bytes} (h : b ∈ uncommented prev s) : b ∈ s := by
  induction s generalizing prev with
  | nil => exact h
  | cons c s ih =>
    rw [uncommented] at h
    split at h
    · cases h
    · rcases List.mem_cons.mp h with rfl | hb
      · exact List.mem_cons_self
      · exact List.mem_cons_of_mem c (ih hb)

theorem mem_of_unescaped {b : UInt8} {s : Bytes} (h : b ∈ unescaped s) : b ∈ s := by
  fun_induction unescaped s with
  | case1 => exact h
  | case2 => exact h
  | case3 c d s hcd ih =>
    rcases List.mem_cons.mp h with rfl | hb
    · exact List.mem_cons_of_mem c (List.mem_cons.mpr (.inl hcd.2.symm))
    · exact List.mem_cons_of_mem c (List.mem_cons_of_mem d (ih hb))
  | case4 c d s hcd ih =>
    rcases List.mem_cons.mp h with rfl | hb
    · exact List.mem_cons_self
    · exact List.mem_cons_of_mem c (ih hb)

/-- The loop leaves no NUL in the text. -/
theorem nul_notMem_text {line : Bytes} (h : NUL ∉ line) : NUL ∉ unescaped (uncommented NUL line) ++ leftover line := by
  intro hm
  rcases List.mem_append.mp hm with hm | hm
  · exact h (mem_of_uncommented (mem_of_unescaped hm))
  · unfold leftover at hm
    split at hm
    · cases hm
    next c hc =>
      split at hm
      · rw [List.eq_of_mem_replicate hm] at h
        exact h (List.mem_of_getLast? hc)
      · cases hm

/-- `conf_read` passes a text on: the line is that C string then, of that length. -/
def PassesOn (line text : Bytes) : Prop := ∃ buf, confStrip line = some (buf, text.length) ∧ cstr buf = text

/-- What is passed on of a line. -/
theorem passesOn_iff {line : Bytes} (h : NUL ∉ line) (text : Bytes) : PassesOn line text ↔
    (unescaped (uncommented NUL line) ++ leftover line).rdropWhile isSpace = text := by
  obtain ⟨w, hw⟩ := confHash_eq h
  obtain ⟨w', hw'⟩ := stripTrailing_text (unescaped (uncommented NUL line) ++ leftover line) w
  have hnul : NUL ∉ (unescaped (uncommented NUL line) ++ leftover line).rdropWhile isSpace := fun hm =>
    nul_notMem_text h ((List.rdropWhile_prefix isSpace _).subset hm)
  have hcstr := cstr_append_nul hnul w'
  have hstrip : confStrip line = some ((unescaped (uncommented NUL line) ++ leftover line).rdropWhile isSpace ++ NUL :: w',
      ((unescaped (uncommented NUL line) ++ leftover line).rdropWhile isSpace).length) := by
    rw [confStrip, hw]
    exact congrArg some hw'
  constructor
  · rintro ⟨buf, hbuf, htext⟩
    rw [hstrip, Option.some.injEq, Prod.mk.injEq] at hbuf
    obtain ⟨rfl, -⟩ := hbuf
    rw [← htext, hcstr]
  · intro htext
    rw [htext] at hstrip hcstr
    exact ⟨_, hstrip, hcstr⟩

theorem rdropWhile_copies {c : UInt8} (hc : isSpace c) (text : Bytes) (k : Nat) :
    (text ++ List.replicate k c).rdropWhile isSpace = text.rdropWhile isSpace := by
  induction k with
  | zero => simp
  | succ k ih => rw [List.replicate_succ', ← List.append_assoc, List.rdropWhile_concat_pos _ _ _ hc, ih]

/-- Copies of the last byte go unnoticed where there are none or they are white space. -/
theorem rdropWhile_copies_iff (c : UInt8) (text : Bytes) (k : Nat) :
    (text ++ List.replicate k c).rdropWhile isSpace = text.rdropWhile isSpace ↔ k = 0 ∨ isSpace c := by
  constructor
  · intro h
    by_contra hne
    simp only [not_or] at hne
    obtain ⟨n, rfl⟩ : ∃ n, k = n + 1 := ⟨k - 1, by omega⟩
    rw [List.replicate_succ', ← List.append_assoc, List.rdropWhile_concat_neg _ _ _ hne.2] at h
    have hle := (List.rdropWhile_prefix isSpace text).length_le
    have hlen := congrArg List.length h
    simp only [List.length_append, List.length_singleton] at hlen
    omega
  · rintro (rfl | hc)
    · simp
    · exact rdropWhile_copies hc text k

theorem escapes_pos_iff (s : Bytes) : 0 < escapes s ↔ [BACKSLASH, HASH] <:+: s := by
  unfold escapes
  fun_induction unescaped s with
  | case1 => simp
  | case2 c => simp [List.infix_cons_iff]
  | case3 c d s h ih =>
    have hle := unescaped_length s
    obtain ⟨rfl, rfl⟩ := h
    constructor
    · exact fun _ => (List.prefix_append [BACKSLASH, HASH] s).isInfix
    · intro _
      simp only [List.length_cons]
      omega
  | case4 c d s h ih =>
    rw [List.infix_cons_iff, ← ih]
    have hpre : ¬[BACKSLASH, HASH] <+: c :: d :: s := by
      rintro ⟨t, ht⟩
      simp only [List.cons_append, List.nil_append, List.cons.injEq] at ht
      exact h ⟨ht.1.symm, ht.2.1.symm⟩
    simp only [List.length_cons, hpre, false_or]
    omega

/-- The last byte of the line is noticed twice: the line has a hash, with a backslash in
front of it like every other, and ends in neither white space nor a hash. -/
structure Doubled (line : Bytes) : Prop where
  escaped : [BACKSLASH, HASH] <:+: line
  uncommented : uncommented NUL line = line
  ends : ∀ c ∈ line.getLast?, c ≠ HASH ∧ ¬isSpace c

theorem stripped_leftover_iff (line : Bytes) :
    (unescaped (uncommented NUL line) ++ leftover line).rdropWhile isSpace = stripped line ↔ ¬Doubled line := by
  unfold stripped leftover
  cases hlast : line.getLast? with
  | none =>
    rw [List.getLast?_eq_none_iff] at hlast
    subst hlast
    exact iff_of_true (by simp) fun h => by simpa using h.escaped
  | some c =>
    dsimp only
    by_cases hwhole : uncommented NUL line = line ∧ c ≠ HASH
    · rw [if_pos hwhole, rdropWhile_copies_iff]
      constructor
      · rintro (hzero | hspace) h
        · have hpos := (escapes_pos_iff line).mpr h.escaped
          omega
        · exact (h.ends c hlast).2 hspace
      · intro h
        by_contra hne
        rw [not_or] at hne
        refine h ⟨(escapes_pos_iff line).mp (by omega), hwhole.1, ?_⟩
        intro d hd
        rw [hlast] at hd
        cases hd
        exact ⟨hwhole.2, hne.2⟩
    · rw [if_neg hwhole, List.append_nil]
      exact iff_of_true rfl fun h => hwhole ⟨h.uncommented, (h.ends c hlast).1⟩

/-- A line is passed on as specified unless its last byte is noticed twice. -/
theorem passesOn_stripped_iff (line : Bytes) (h : NUL ∉ line) : PassesOn line (stripped line) ↔ ¬Doubled line := by
  rw [passesOn_iff h, stripped_leftover_iff]

/-- A comment hides what is left at the end of the line. -/
theorem passesOn_stripped_comment : PassesOn (ascii "logfile=a\\#bc#d") (stripped (ascii "logfile=a\\#bc#d")) := by
  refine (passesOn_stripped_iff (ascii "logfile=a\\#bc#d") (by decide)).mpr fun h => ?_
  exact absurd h.uncommented (by decide)

/-- Without a newline, `c` is there twice. -/
theorem passesOn_not_stripped : PassesOn (ascii "logfile=a\\#bc") (ascii "logfile=a#bcc") ∧
    stripped (ascii "logfile=a\\#bc") = ascii "logfile=a#bc" ∧
    ¬PassesOn (ascii "logfile=a\\#bc") (stripped (ascii "logfile=a\\#bc")) := by
  have hstrip : confStrip (ascii "logfile=a\\#bc") = some (ascii "logfile=a#bcc" ++ [NUL], 13) := by decide +kernel
  refine ⟨⟨_, hstrip, by decide⟩, by decide, ?_⟩
  rintro ⟨buf, hbuf, htext⟩
  rw [hstrip] at hbuf
  cases hbuf

end Kcaldav
