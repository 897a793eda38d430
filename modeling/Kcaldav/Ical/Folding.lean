import Kcaldav.Ical.Adequacy
import Kcaldav.Library.Utf8

/-! # Folded lines

What is printed is read back line by line as it was, and the physical lines of what is
printed are short and are text where the nodes are. The column the printer keeps is the
length of the physical line it is in.
-/
namespace Kcaldav
open CString

/-! ## Reading back -/

/-- `ical_line` until the end of the input. -/
def icalLines {ρ : Type} [LineReader ρ] : Nat → Parse ρ (List IcalNode)
  | 0 => Fallible.fail
  | fuel + 1 => do
    if ← icalMore then
      let np ← icalLine
      return np :: (← icalLines fuel)
    else return []

/-- The name ends at the first colon or semicolon, the parameters at the first colon, and
the line at the first line feed. -/
structure IcalNode.Printable (n : IcalNode) : Prop where
  name : 58 ∉ n.name ∧ 59 ∉ n.name ∧ LF ∉ n.name ∧ NUL ∉ n.name
  start : ¬Continues n.name
  param : ∀ p ∈ n.param, 58 ∉ p ∧ LF ∉ p ∧ NUL ∉ p
  val : LF ∉ n.val ∧ NUL ∉ n.val

theorem splitLine_of_text {n : IcalNode} (hcolon : 58 ∉ n.name) (hsemi : 59 ∉ n.name) (hparam : ∀ p ∈ n.param, 58 ∉ p) :
    splitLine n.text = some n := by
  rcases n with ⟨name, param, val⟩
  dsimp only at hcolon hsemi hparam
  cases param with
  | none =>
    have htext : IcalNode.text ⟨name, none, val⟩ = name ++ 58 :: val := by simp [IcalNode.text, paramText]
    rw [splitLine, htext, strchr_append hcolon]
    simp only [Option.map_some, strchr_eq_none.mpr hsemi]
  | some p =>
    have htext : IcalNode.text ⟨name, some p, val⟩ = (name ++ 59 :: p) ++ 58 :: val := by
      simp [IcalNode.text, paramText]
    have hpre : 58 ∉ name ++ 59 :: p := by simp [hcolon, hparam p rfl]
    rw [splitLine, htext, strchr_append hpre]
    simp only [Option.map_some, strchr_append hsemi]

namespace IcalNode.Printable
variable {n : IcalNode}

theorem notMem_text (h : n.Printable) {c : UInt8} (hc : c = LF ∨ c = NUL) : c ∉ n.text := by
  have hname : c ∉ n.name := by
    rcases hc with rfl | rfl
    · exact h.name.2.2.1
    · exact h.name.2.2.2
  have hval : c ∉ n.val := by
    rcases hc with rfl | rfl
    · exact h.val.1
    · exact h.val.2
  have hparam : ∀ p ∈ n.param, c ∉ p := by
    intro p hp
    rcases hc with rfl | rfl
    · exact (h.param p hp).2.1
    · exact (h.param p hp).2.2
  have h58 : c ≠ 58 := by rcases hc with rfl | rfl <;> decide
  have h59 : c ≠ 59 := by rcases hc with rfl | rfl <;> decide
  cases hp : n.param with
  | none => simp [IcalNode.text, paramText, hp, hname, hval, h58]
  | some p => simp [IcalNode.text, paramText, hp, hname, hval, h58, h59, hparam p hp]

theorem not_continues (h : n.Printable) : ¬Continues n.text := by
  cases hname : n.name with
  | nil =>
    cases hp : n.param with
    | none =>
      simp only [IcalNode.text, hname, hp, paramText, List.nil_append, continues_cons]
      decide
    | some p =>
      simp only [IcalNode.text, hname, hp, paramText, List.nil_append, List.cons_append, continues_cons]
      decide
  | cons c cs =>
    have hstart := h.start
    rw [hname, continues_cons] at hstart
    rwa [IcalNode.text, hname, List.cons_append, continues_cons]

theorem split (h : n.Printable) : splitLine n.text = some n :=
  splitLine_of_text h.name.1 h.name.2.1 fun p hp => (h.param p hp).1

end IcalNode.Printable

theorem icalLine_of_read {ρ : Type} [LineReader ρ] {p : IcalParse ρ} {l : RawLine} {src : ρ} {n : IcalNode}
    (hr : LineReader.read p.src = some (l, src)) (hne : l.text ≠ []) (hsplit : splitLine (cstr l.text) = some n) :
    ∃ p', icalLine p = (some n, p') ∧ p'.src = src := by
  refine ⟨{ p with
    src := src
    buf := some n.name
    diag := { p.diag with line := p.diag.line + l.phys } }, ?_, rfl⟩
  unfold icalLine fillBuf
  rw [hr]
  simp only [hne, ↓reduceIte, hsplit]

/-- What is printed of any nodes that can be told apart in a line is read back, line by
line, as the same nodes. -/
theorem icalLines_print (file : Option String) (erange : Bool) (ns : List IcalNode) (h : ∀ n ∈ ns, n.Printable) :
    ∃ p', icalLines ((ns.flatMap icalnodePrint).length + 1) (.start file erange (ns.flatMap icalnodePrint)) =
      (some ns, p') ∧ p'.src = [] := by
  suffices hall : ∀ (p : IcalParse Bytes) (fuel : Nat), p.src = ns.flatMap icalnodePrint → p.src.length < fuel →
      ∃ p', icalLines fuel p = (some ns, p') ∧ p'.src = [] from hall _ _ rfl (Nat.lt_succ_self _)
  induction ns with
  | nil =>
    intro p fuel hsrc hf
    obtain ⟨fuel, rfl⟩ : ∃ k, fuel = k + 1 := ⟨fuel - 1, by omega⟩
    have hread : LineReader.read p.src = none := read_eq_none.mpr hsrc
    exact ⟨p, by simp [icalLines, hread], hsrc⟩
  | cons n ns ih =>
    intro p fuel hsrc hf
    obtain ⟨fuel, rfl⟩ : ∃ k, fuel = k + 1 := ⟨fuel - 1, by omega⟩
    have hn := h n List.mem_cons_self
    have hns : ∀ m ∈ ns, m.Printable := fun m hm => h m (List.mem_cons_of_mem n hm)
    have hrest : ¬Continues (ns.flatMap icalnodePrint) := icalPrint_not_continues fun m hm =>
      ⟨(hns m hm).notMem_text (Or.inl rfl), (hns m hm).not_continues⟩
    obtain ⟨l, hread, htext⟩ := read_icalnodePrint (hn.notMem_text (Or.inl rfl)) hrest
    rw [← List.flatMap_cons, ← hsrc] at hread
    have hcstr : cstr l.text = n.text := by rw [htext, cstr_eq_self (hn.notMem_text (Or.inr rfl))]
    obtain ⟨p₁, hline, hsrc₁⟩ := icalLine_of_read hread (htext ▸ n.text_ne_nil) (hcstr ▸ hn.split)
    have hsize : (ns.flatMap icalnodePrint).length < p.src.length := LineReader.size_read hread
    obtain ⟨p', hlines, hend⟩ := ih hns p₁ fuel hsrc₁ (by rw [hsrc₁]; omega)
    refine ⟨p', ?_, hend⟩
    simp only [icalLines, icalMore_bind, hread, Option.isSome_some, ↓reduceIte]
    rw [Fallible.bind_of_some hline, Fallible.bind_of_some hlines]
    rfl

/-- The witness's nodes: an empty parameter, none, and a value longer than a line. -/
def foldedNodes : List IcalNode :=
  [⟨ascii "A", some [], ascii " x"⟩, ⟨ascii "B", none, List.replicate 80 CR⟩]

theorem icalLines_print_folded : ∃ p', icalLines ((foldedNodes.flatMap icalnodePrint).length + 1)
    (.start none false (foldedNodes.flatMap icalnodePrint)) = (some foldedNodes, p') ∧ p'.src = [] := by
  refine icalLines_print none false foldedNodes fun n hn => ?_
  rcases List.mem_cons.mp hn with rfl | hn
  · exact ⟨by decide, by decide, by decide, by decide⟩
  · rw [List.mem_singleton.mp hn]
    exact ⟨by decide, by decide, by decide, by decide⟩

/-! ## Physical lines -/

/-- The physical lines of what is printed, without the line breaks. -/
def physicalLines (b : Bytes) : List Bytes := (strsep LF b).map stripCr

theorem physicalLines_append {l : Bytes} (h : LF ∉ l) (r : Bytes) :
    physicalLines (l ++ CR :: LF :: r) = l :: physicalLines r := by
  have hcr : LF ∉ l ++ [CR] := fun hm => (List.mem_append.mp hm).elim h (by decide)
  have hsplit : l ++ CR :: LF :: r = (l ++ [CR]) ++ LF :: r := by simp
  rw [physicalLines, hsplit, strsep_append hcr, List.map_cons, FoldsTo.stripCr_concat]
  rfl

/-- `Wraps P line out line'`: writing `out` behind the physical line `line` ends in the
physical line `line'`, and `P` holds of the lines completed on the way. -/
inductive Wraps (P : Bytes → Prop) : Bytes → Bytes → Bytes → Prop
  | nil (line : Bytes) : Wraps P line [] line
  | byte {line line' out : Bytes} {c : UInt8} : c ≠ LF → Wraps P (line ++ [c]) out line' → Wraps P line (c :: out) line'
  | fold {line line' out : Bytes} : P line → Wraps P [SP] out line' → Wraps P line (CR :: LF :: SP :: out) line'

namespace Wraps
variable {P : Bytes → Prop}

theorem append {a b c o₁ o₂ : Bytes} (h : Wraps P a o₁ b) (h' : Wraps P b o₂ c) : Wraps P a (o₁ ++ o₂) c := by
  induction h with
  | nil => exact h'
  | byte hc _ ih => exact .byte hc (ih h')
  | fold hp _ ih => exact .fold hp (ih h')

theorem self {s : Bytes} (h : LF ∉ s) : ∀ line, Wraps P line s (line ++ s) := by
  induction s with
  | nil =>
    intro line
    rw [List.append_nil]
    exact .nil line
  | cons c s ih =>
    intro line
    have hs := ih (fun hm => h (List.mem_cons_of_mem c hm)) (line ++ [c])
    rw [List.append_assoc, List.singleton_append] at hs
    exact .byte (fun e => h (e ▸ List.mem_cons_self)) hs

theorem physicalLines {line line' out : Bytes} (h : Wraps P line out line') (rest : Bytes) :
    LF ∉ line → P line' → (∀ l ∈ physicalLines rest, P l) →
      ∀ l ∈ physicalLines (line ++ (out ++ CR :: LF :: rest)), P l := by
  induction h with
  | nil line =>
    intro hlf hp hrest l hl
    rw [List.nil_append, physicalLines_append hlf] at hl
    rcases List.mem_cons.mp hl with rfl | hl
    · exact hp
    · exact hrest l hl
  | @byte line line' out c hc _ ih =>
    intro hlf hp hrest
    have hnext := ih (by simp [hlf, hc.symm]) hp hrest
    rwa [List.append_assoc, List.singleton_append] at hnext
  | @fold line line' out hline _ ih =>
    intro hlf hp hrest l hl
    rw [List.cons_append, List.cons_append, physicalLines_append hlf] at hl
    rcases List.mem_cons.mp hl with rfl | hl
    · exact hline
    · exact ih (by decide) hp hrest l hl

end Wraps

/-! ## Characters -/

theorem charLen_le_four (c : Bytes) : charLen c ≤ 4 := by
  unfold charLen
  dsimp only
  repeat' split
  all_goals decide

/-- A character is not longer than what is left of the text: its last byte is not the
NUL after it. -/
theorem charLen_le_length {c : Bytes} (hc : c ≠ []) : charLen c ≤ c.length := by
  have hpos := List.length_pos_iff.mpr hc
  have inside {lo hi : UInt8} {i : Nat} (h : inRange lo hi (c.getD i NUL)) (hlo : 0 < lo) : i < c.length := by
    by_contra hi
    have hnul : c.getD i NUL = NUL := by simp [List.getD, List.getElem?_eq_none (Nat.not_lt.mp hi)]
    rw [hnul, inRange, Bool.and_eq_true] at h
    exact absurd (of_decide_eq_true h.1) (UInt8.not_le.mpr hlo)
  unfold charLen
  dsimp only
  split
  · exact hpos
  split
  next h2 =>
    simp only [Bool.and_eq_true] at h2
    exact inside h2.2 (by decide)
  split
  next h3 =>
    simp only [Bool.or_eq_true, Bool.and_eq_true] at h3
    rcases h3 with (h | h) | h
    all_goals exact inside h.2 (by decide)
  split
  next h4 =>
    simp only [Bool.or_eq_true, Bool.and_eq_true] at h4
    rcases h4 with (h | h) | h
    all_goals exact inside h.2 (by decide)
  · exact hpos

/-- The printer keeps the bytes of a character together. -/
theorem charLen_utf8 (c : Char) (rest : Bytes) :
    charLen (String.utf8EncodeChar c ++ rest) = (String.utf8EncodeChar c).length := by
  have hvalid : c.val.toNat < 0xd800 ∨ 0xdfff < c.val.toNat ∧ c.val.toNat < 0x110000 := c.valid
  fun_cases String.utf8EncodeChar c
  all_goals
    simp only [charLen, List.cons_append, List.nil_append, List.getD_cons_zero, List.getD_cons_succ, inRange,
      UInt8.le_iff_toNat_le, ← UInt8.toNat_inj, UInt8.toNat_ofNat', UInt8.reduceToNat, Bool.and_eq_true,
      Bool.or_eq_true, decide_eq_true_eq, List.length_cons, List.length_nil]
  · split
    · rfl
    · rw [if_neg, if_neg, if_neg]
      all_goals omega
  · rw [if_neg, if_pos] <;> omega
  · rw [if_neg, if_neg, if_pos] <;> omega
  · rw [if_neg, if_neg, if_neg, if_pos] <;> omega

/-! ## The column -/

/-- `T` is kept by the text left to print and `Q` by the physical line, character after
character. -/
structure Carries (T Q : Bytes → Prop) : Prop where
  space : Q [SP]
  step {line s : Bytes} : s ≠ [] → T s → Q line → Q (line ++ s.take (charLen s)) ∧ T (s.drop (charLen s))

/-- A physical line of what is printed. -/
def Short (Q : Bytes → Prop) (line : Bytes) : Prop := line.length ≤ 74 ∧ Q line

section
variable {T Q : Bytes → Prop}

theorem icalnodePuts_wraps (hTQ : Carries T Q) (fuel : Nat) {s : Bytes} (hf : s.length ≤ fuel) (hlf : LF ∉ s)
    (hs : T s) : ∀ line, Short Q line → ∃ line', Wraps (Short Q) line (icalnodePuts fuel s line.length).1 line' ∧
      line'.length = (icalnodePuts fuel s line.length).2 ∧ Short Q line' := by
  induction fuel generalizing s with
  | zero =>
    obtain rfl := List.length_eq_zero_iff.mp (Nat.le_zero.mp hf)
    exact fun line hline => ⟨line, .nil line, rfl, hline⟩
  | succ fuel ih =>
    cases s with
    | nil => exact fun line hline => ⟨line, .nil line, rfl, hline⟩
    | cons b bs =>
      intro line hline
      unfold icalnodePuts
      dsimp only
      set n := charLen (b :: bs) with hn
      have hpos : 0 < n := charLen_pos _
      have hfour : n ≤ 4 := charLen_le_four _
      have htake : ((b :: bs).take n).length = n := by
        rw [List.length_take]
        exact Nat.min_eq_left (charLen_le_length (List.cons_ne_nil b bs))
      have hself : ∀ line, Wraps (Short Q) line ((b :: bs).take n) (line ++ (b :: bs).take n) :=
        Wraps.self fun hm => hlf (List.mem_of_mem_take hm)
      have hlen : ((b :: bs).drop n).length ≤ fuel := by
        rw [List.length_drop]
        simp only [List.length_cons] at hf ⊢
        omega
      -- the line the character goes to
      obtain ⟨at', out, hfold, hat, hQ, hroom⟩ : ∃ at' out, (if line.length + n ≥ 74 then ([CR, LF, SP], 1)
          else ([], line.length) : Bytes × Nat) = (out, at'.length) ∧ Wraps (Short Q) line out at' ∧ Q at' ∧
            at'.length + n ≤ 74 := by
        split
        · exact ⟨[SP], [CR, LF, SP], rfl, .fold hline (.nil _), hTQ.space, by simp only [List.length_singleton]; omega⟩
        · exact ⟨line, [], rfl, .nil line, hline.2, by omega⟩
      obtain ⟨hQ', hT'⟩ := hTQ.step (List.cons_ne_nil b bs) hs hQ
      have hat' : (at' ++ (b :: bs).take n).length = at'.length + n := by rw [List.length_append, htake]
      obtain ⟨line', hwraps, hcol, hshort⟩ := ih hlen (fun hm => hlf (List.mem_of_mem_drop hm)) hT'
        (at' ++ (b :: bs).take n) ⟨by omega, hQ'⟩
      rw [hat'] at hwraps hcol
      rw [hfold]
      exact ⟨line', (hat.append (hself at')).append hwraps, hcol, hshort⟩

theorem icalnodePutchar_wraps {c : UInt8} (hc : c ≠ LF) (hSP : Q [SP]) (hQ : ∀ line, Q line → Q (line ++ [c])) (line : Bytes)
    (hline : Short Q line) : ∃ line', Wraps (Short Q) line (icalnodePutchar c line.length).1 line' ∧
      line'.length = (icalnodePutchar c line.length).2 ∧ Short Q line' := by
  unfold icalnodePutchar
  split
  · exact ⟨[SP, c], .fold hline (.byte hc (.nil _)), rfl, by simp, hQ [SP] hSP⟩
  next hcol =>
    have hroom := hline.1
    exact ⟨line ++ [c], .byte hc (.nil _), by simp, by rw [List.length_append, List.length_singleton]; omega,
      hQ line hline.2⟩

theorem icalnodeParam_wraps (hTQ : Carries T Q) (hchar : ∀ c ∈ [58, 59], ∀ line, Q line → Q (line ++ [c])) {param : Option Bytes}
    (hlf : LF ∉ paramText param) (hT : ∀ p ∈ param, T p) (line : Bytes) (hline : Short Q line) :
    ∃ line', Wraps (Short Q) line (icalnodeParam param line.length).1 line' ∧
      line'.length = (icalnodeParam param line.length).2 ∧ Short Q line' := by
  cases param with
  | none => exact ⟨line, .nil line, rfl, hline⟩
  | some p =>
    have hp : LF ∉ p := fun hm => hlf (List.mem_cons_of_mem _ hm)
    obtain ⟨line₁, hw₁, hcol₁, hs₁⟩ := icalnodePutchar_wraps (by decide) hTQ.space (hchar 59 (by simp)) line hline
    obtain ⟨line₂, hw₂, hcol₂, hs₂⟩ := icalnodePuts_wraps hTQ p.length le_rfl hp (hT p rfl) line₁ hs₁
    rw [hcol₁] at hw₂ hcol₂
    exact ⟨line₂, hw₁.append hw₂, hcol₂, hs₂⟩

/-- A printed node is made of short physical lines. -/
theorem icalnodePrint_wraps (hTQ : Carries T Q) (hnil : Q []) (hchar : ∀ c ∈ [58, 59], ∀ line, Q line → Q (line ++ [c]))
    {n : IcalNode} (hlf : LF ∉ n.text) (hname : T n.name) (hparam : ∀ p ∈ n.param, T p) (hval : T n.val) :
    ∃ out line, icalnodePrint n = out ++ [CR, LF] ∧ Wraps (Short Q) [] out line ∧ Short Q line := by
  have hlname : LF ∉ n.name := fun hm => hlf (by simp [IcalNode.text, hm])
  have hlparam : LF ∉ paramText n.param := fun hm => hlf (by simp [IcalNode.text, hm])
  have hlval : LF ∉ n.val := fun hm => hlf (by simp [IcalNode.text, hm])
  obtain ⟨l₁, hw₁, hcol₁, hs₁⟩ := icalnodePuts_wraps hTQ n.name.length le_rfl hlname hname [] ⟨by simp, hnil⟩
  obtain ⟨l₂, hw₂, hcol₂, hs₂⟩ := icalnodeParam_wraps hTQ hchar hlparam hparam l₁ hs₁
  obtain ⟨l₃, hw₃, hcol₃, hs₃⟩ := icalnodePutchar_wraps (by decide) hTQ.space (hchar 58 (by simp)) l₂ hs₂
  obtain ⟨l₄, hw₄, -, hs₄⟩ := icalnodePuts_wraps hTQ n.val.length le_rfl hlval hval l₃ hs₃
  rw [hcol₁] at hw₂ hcol₂
  rw [hcol₂] at hw₃ hcol₃
  rw [hcol₃] at hw₄
  exact ⟨_, l₄, rfl, hw₁.append (hw₂.append (hw₃.append hw₄)), hs₄⟩

/-- What is printed of a list of nodes is made of short physical lines. -/
theorem physicalLines_print (hTQ : Carries T Q) (hnil : Q []) (hchar : ∀ c ∈ [58, 59], ∀ line, Q line → Q (line ++ [c]))
    {ns : List IcalNode} (h : ∀ n ∈ ns, LF ∉ n.text ∧ T n.name ∧ (∀ p ∈ n.param, T p) ∧ T n.val) :
    ∀ l ∈ physicalLines (ns.flatMap icalnodePrint), Short Q l := by
  induction ns with
  | nil =>
    intro l hl
    rw [List.mem_singleton.mp hl]
    exact ⟨by decide, hnil⟩
  | cons n ns ih =>
    obtain ⟨hlf, hname, hparam, hval⟩ := h n List.mem_cons_self
    obtain ⟨out, line, hprint, hwraps, hline⟩ := icalnodePrint_wraps hTQ hnil hchar hlf hname hparam hval
    have hrest := ih fun m hm => h m (List.mem_cons_of_mem n hm)
    have hlines := hwraps.physicalLines (ns.flatMap icalnodePrint) (by simp) hline hrest
    rwa [List.flatMap_cons, hprint, List.append_assoc]

end

theorem carries_any : Carries (fun _ => True) fun _ => True := ⟨trivial, fun _ _ _ => ⟨trivial, trivial⟩⟩

theorem carries_utf8 : Carries Utf8 Utf8 := by
  refine ⟨Utf8.space, fun {line s} hne hs hline => ?_⟩
  obtain ⟨c, rest, rfl, hrest⟩ := hs.exists_char hne
  rw [charLen_utf8, List.take_left, List.drop_left]
  exact ⟨hline.append (Utf8.char c), hrest⟩

theorem utf8_separators : ∀ c ∈ [58, 59], ∀ line, Utf8 line → Utf8 (line ++ [c]) := by
  intro c hc line hline
  rcases List.mem_cons.mp hc with rfl | hc
  · exact hline.append Utf8.colon
  · rw [List.mem_singleton.mp hc]
    exact hline.append Utf8.semicolon

/-- Every physical line that is printed has at most 74 bytes, and where the texts of the
nodes are well-formed UTF-8 so is every one of them. -/
theorem icalPrint_physicalLines (ns : List IcalNode)
    (h : ∀ n ∈ ns, LF ∉ n.name ∧ (∀ p ∈ n.param, LF ∉ p) ∧ LF ∉ n.val) :
    (∀ l ∈ physicalLines (ns.flatMap icalnodePrint), l.length ≤ 74) ∧
    ((∀ n ∈ ns, Utf8 n.name ∧ (∀ p ∈ n.param, Utf8 p) ∧ Utf8 n.val) →
      ∀ l ∈ physicalLines (ns.flatMap icalnodePrint), Utf8 l) := by
  have htext : ∀ n ∈ ns, LF ∉ n.text := by
    intro n hn
    obtain ⟨hname, hparam, hval⟩ := h n hn
    have h58 : LF ≠ 58 := by decide
    have h59 : LF ≠ 59 := by decide
    cases hp : n.param with
    | none => simp [IcalNode.text, paramText, hp, hname, hval, h58]
    | some p => simp [IcalNode.text, paramText, hp, hname, hval, h58, h59, hparam p hp]
  constructor
  · intro l hl
    exact (physicalLines_print carries_any trivial (fun _ _ _ _ => trivial)
      (fun n hn => ⟨htext n hn, trivial, fun _ _ => trivial, trivial⟩) l hl).1
  · intro hutf8 l hl
    exact (physicalLines_print carries_utf8 Utf8.nil utf8_separators (fun n hn => ⟨htext n hn, hutf8 n hn⟩) l hl).2

/-- A value of fifty characters of two bytes each. -/
def accented : List IcalNode := [⟨ascii "SUMMARY", none, (List.replicate 50 'é').flatMap String.utf8EncodeChar⟩]

theorem icalPrint_physicalLines_accented : (∀ l ∈ physicalLines (accented.flatMap icalnodePrint), l.length ≤ 74) ∧
    ∀ l ∈ physicalLines (accented.flatMap icalnodePrint), Utf8 l := by
  have hlf : ∀ n ∈ accented, LF ∉ n.name ∧ (∀ p ∈ n.param, LF ∉ p) ∧ LF ∉ n.val := by
    intro n hn
    rw [List.mem_singleton.mp hn]
    exact ⟨by decide, by simp, by decide⟩
  refine (icalPrint_physicalLines accented hlf).imp_right fun h => h fun n hn => ?_
  rw [List.mem_singleton.mp hn]
  exact ⟨⟨"SUMMARY".toList, by decide⟩, by simp, _, rfl⟩

end Kcaldav
