import Kcaldav.Ical.Machine

/-! # Physical layouts

The ways to write a sequence of logical lines into a buffer: each line ends with a line
feed, alone or after a carriage return, and is broken anywhere by a line break and one
space or tab. The reader gives the logical lines back from each of them, so what the
parser makes of a buffer does not depend on its layout.
-/
namespace Kcaldav
open CString LineReader

inductive LineBreak : Bytes → Prop
  | lf : LineBreak [LF]
  | crlf : LineBreak [CR, LF]

/-- One line with continuations. -/
inductive Folded : Bytes → Bytes → Prop
  | nil : Folded [] []
  | byte {l out : Bytes} (x : UInt8) : Folded l out → Folded (x :: l) (x :: out)
  | fold {l out brk : Bytes} {c : UInt8} : LineBreak brk → isFold c → Folded l out → Folded l (brk ++ c :: out)

/-- A buffer with the lines in it; the last line break may be missing. -/
inductive Layout : List Bytes → Bytes → Prop
  | nil : Layout [] []
  | last {l out : Bytes} : Folded l out → Layout [l] out
  | cons {l out brk b : Bytes} {ls : List Bytes} :
    Folded l out → LineBreak brk → Layout ls b → Layout (l :: ls) (out ++ brk ++ b)

structure LogicalLine (l : Bytes) : Prop where
  colon : 58 ∈ l
  cr : CR ∉ l
  lf : LF ∉ l
  nul : NUL ∉ l
  start : ¬Continues l

theorem logicalLine_iff {l : Bytes} : LogicalLine l ↔ 58 ∈ l ∧ CR ∉ l ∧ LF ∉ l ∧ NUL ∉ l ∧ ¬Continues l := by
  constructor
  · intro h
    exact ⟨h.colon, h.cr, h.lf, h.nul, h.start⟩
  · rintro ⟨hcolon, hcr, hlf, hnul, hstart⟩
    exact ⟨hcolon, hcr, hlf, hnul, hstart⟩

instance (l : Bytes) : Decidable (LogicalLine l) := decidable_of_iff' _ logicalLine_iff

theorem Folded.refl (l : Bytes) : Folded l l := by
  induction l with
  | nil => exact .nil
  | cons x l ih => exact .byte x ih

theorem Folded.append {l l' out out' : Bytes} (h : Folded l out) (h' : Folded l' out') :
    Folded (l ++ l') (out ++ out') := by
  induction h with
  | nil => exact h'
  | byte x _ ih => exact .byte x ih
  | fold hbrk hc _ ih =>
    rw [List.append_assoc]
    exact .fold hbrk hc ih

/-! ## The lines of a layout -/

/-- Before its line feed a line break has only what `stripCr` drops. -/
theorem LineBreak.strip {brk : Bytes} (h : LineBreak brk) {pre : Bytes} (hcr : CR ∉ pre) (hlf : LF ∉ pre) :
    ∃ seg, (∀ x, pre ++ (brk ++ x) = seg ++ LF :: x) ∧ LF ∉ seg ∧ stripCr seg = pre := by
  cases h with
  | lf =>
    have hlast : pre.getLast? ≠ some CR := fun h => hcr (List.mem_of_getLast? h)
    exact ⟨pre, fun _ => rfl, hlf, if_neg hlast⟩
  | crlf =>
    refine ⟨pre ++ [CR], fun x => by simp, by simp [hlf, LF, CR], ?_⟩
    rw [stripCr, if_pos (by simp), List.dropLast_concat]

theorem LineBreak.not_continues {brk : Bytes} (h : LineBreak brk) (x : Bytes) : ¬Continues (brk ++ x) := by
  cases h <;> simp [isFold, CR, LF, SP, HTAB]

theorem Folded.not_continues {l out : Bytes} (h : Folded l out) (hl : l ≠ []) (hstart : ¬Continues l) (x : Bytes) :
    ¬Continues (out ++ x) := by
  cases h with
  | nil => exact absurd rfl hl
  | byte y _ => simpa using hstart
  | fold hbrk _ _ =>
    rw [List.append_assoc]
    exact hbrk.not_continues _

theorem Layout.not_continues {ls : List Bytes} {b : Bytes} (h : Layout ls b) (hls : ∀ l ∈ ls, LogicalLine l) :
    ¬Continues b := by
  have line {l out : Bytes} (hl : LogicalLine l) (h : Folded l out) (x : Bytes) : ¬Continues (out ++ x) :=
    h.not_continues (List.ne_nil_of_mem hl.colon) hl.start x
  cases h with
  | nil => exact not_continues_nil
  | @last l out hout => simpa using line (hls l (by simp)) hout []
  | @cons l out brk b ls hout _ _ =>
    rw [List.append_assoc]
    exact line (hls l (by simp)) hout _

section
variable {l out : Bytes}

/-- A line is read through its continuations; `pre` is what has been scanned of the
segment it is in. -/
theorem Folded.scan (h : Folded l out) {brk rest : Bytes} (hbrk : LineBreak brk) (hrest : ¬Continues rest) :
    ∀ buf n pre, CR ∉ pre ++ l → LF ∉ pre ++ l →
      ∃ k, lineScan buf n (pre ++ (out ++ (brk ++ rest))) = (⟨buf ++ (pre ++ l), k⟩, rest) := by
  induction h with
  | nil =>
    intro buf n pre hcr hlf
    rw [List.append_nil] at hcr hlf
    obtain ⟨seg, hseg, hlf, hstrip⟩ := hbrk.strip hcr hlf
    refine ⟨n + 1, ?_⟩
    rw [List.nil_append, hseg, lineScan_line hlf hrest, hstrip, List.append_nil]
  | byte x _ ih =>
    intro buf n pre hcr hlf
    have hscan := ih buf n (pre ++ [x]) (by simpa using hcr) (by simpa using hlf)
    simpa using hscan
  | @fold l out brk' c hbrk' hc _ ih =>
    intro buf n pre hcr hlf
    simp only [List.mem_append, not_or] at hcr hlf
    obtain ⟨seg, hseg, hlf', hstrip⟩ := hbrk'.strip hcr.1 hlf.1
    obtain ⟨k, hk⟩ := ih (buf ++ pre) (n + 1) [] hcr.2 hlf.2
    refine ⟨k, ?_⟩
    rw [List.append_assoc, hseg, List.cons_append, lineScan_fold hlf' hc, hstrip]
    simpa using hk

theorem Folded.scan_last (h : Folded l out) : ∀ buf n pre, CR ∉ pre ++ l → LF ∉ pre ++ l →
    ∃ k, lineScan buf n (pre ++ out) = (⟨buf ++ (pre ++ l), k⟩, []) := by
  induction h with
  | nil =>
    intro buf n pre _ hlf
    rw [List.append_nil] at hlf ⊢
    by_cases hpre : pre = []
    · subst hpre
      exact ⟨n, by simp⟩
    · exact ⟨n + 1, lineScan_last hpre hlf buf n⟩
  | byte x _ ih =>
    intro buf n pre hcr hlf
    have hscan := ih buf n (pre ++ [x]) (by simpa using hcr) (by simpa using hlf)
    simpa using hscan
  | @fold l out brk c hbrk hc _ ih =>
    intro buf n pre hcr hlf
    simp only [List.mem_append, not_or] at hcr hlf
    obtain ⟨seg, hseg, hlf', hstrip⟩ := hbrk.strip hcr.1 hlf.1
    obtain ⟨k, hk⟩ := ih (buf ++ pre) (n + 1) [] hcr.2 hlf.2
    refine ⟨k, ?_⟩
    rw [hseg, lineScan_fold hlf' hc, hstrip]
    simpa using hk

/-- What a scan finds is read. -/
theorem read_of_scan {b rest : Bytes} {k : Nat} (hl : l ≠ []) (h : lineScan [] 0 b = (⟨l, k⟩, rest)) :
    read b = some (⟨l, k⟩, rest) := by
  refine read_eq_some.mpr ⟨fun hb => ?_, h⟩
  rw [hb, lineScan_nil] at h
  cases h
  exact hl rfl

end

theorem Layout.unfoldLines {ls : List Bytes} {b : Bytes} (h : Layout ls b) (hls : ∀ l ∈ ls, LogicalLine l) :
    unfoldLines b = ls := by
  induction h with
  | nil => exact unfoldLines_nil
  | @last l out hout =>
    have hl := hls l (by simp)
    obtain ⟨k, hscan⟩ := hout.scan_last [] 0 [] hl.cr hl.lf
    have hread := read_of_scan (List.ne_nil_of_mem hl.colon) hscan
    rw [List.nil_append] at hread
    rw [unfoldLines_of_read hread, unfoldLines_nil]
  | @cons l out brk b ls hout hbrk hrest ih =>
    have hl := hls l (by simp)
    have hls' : ∀ l ∈ ls, LogicalLine l := fun l hm => hls l (by simp [hm])
    obtain ⟨k, hscan⟩ := hout.scan hbrk (hrest.not_continues hls') [] 0 [] hl.cr hl.lf
    have hread := read_of_scan (List.ne_nil_of_mem hl.colon) hscan
    rw [List.nil_append, ← List.append_assoc] at hread
    rw [unfoldLines_of_read hread, ih hls']

/-! ## The parser over two layouts -/

/-- Two layouts of the same logical lines are both rejected, or both accepted with the
same nodes, bits and components. -/
theorem icalParse_layout (C : Libc) (file : Option String) (erange : Bool) {ls : List Bytes}
    (hls : ∀ l ∈ ls, LogicalLine l) {b₁ b₂ : Bytes} (h₁ : Layout ls b₁) (h₂ : Layout ls b₂) :
    (icalParse C file erange b₁ 0).1.map Prod.fst = (icalParse C file erange b₂ 0).1.map Prod.fst := by
  rw [icalParse_ical, icalParse_ical, List.drop_zero, List.drop_zero, h₁.unfoldLines hls, h₂.unfoldLines hls]

/-- Line feeds alone, and carriage returns with a fold at the start and within a line. -/
theorem icalParse_layout_crlf :
    ((icalParse .utc none false (ascii "BEGIN:VCALENDAR\nEND:VCALENDAR\n") 0).1.map Prod.fst =
      (icalParse .utc none false (ascii "\r\n BEGIN:VCAL\r\n\tENDAR\r\nEND:VCALENDAR") 0).1.map Prod.fst) ∧
    (icalParse .utc none false (ascii "BEGIN:VCALENDAR\nEND:VCALENDAR\n") 0).1.isSome := by
  have hls : ∀ l ∈ [ascii "BEGIN:VCALENDAR", ascii "END:VCALENDAR"], LogicalLine l := by decide
  have hend := Folded.refl (ascii "END:VCALENDAR")
  have hbegin : Folded (ascii "BEGIN:VCALENDAR") ([CR, LF] ++ SP :: (ascii "BEGIN:VCAL" ++ ([CR, LF] ++ HTAB :: ascii "ENDAR"))) :=
    .fold .crlf rfl ((Folded.refl (ascii "BEGIN:VCAL")).append (.fold .crlf rfl (Folded.refl (ascii "ENDAR"))))
  refine ⟨icalParse_layout .utc none false hls ?_ ?_, by decide +kernel⟩
  · exact .cons (Folded.refl (ascii "BEGIN:VCALENDAR")) .lf (.cons hend .lf .nil)
  · exact .cons hbegin .crlf (.last hend)

end Kcaldav
