import Kcaldav.Ical.Line
import Kcaldav.Ical.Types

/-! # Printing calendars

`ical_print` and the folding under it. The texts of a node are C strings, so the
end of a list stands for the NUL after it. The laws say that a printed node
unfolds to the line it was made of, whatever the columns were.
-/
namespace Kcaldav
open CString

/-! ## The printer -/

def icalnodePutchar (c : UInt8) (col : Nat) : Bytes × Nat :=
  if col = 74 then ([CR, LF, SP, c], 2) else ([c], col + 1)

def inRange (lo hi c : UInt8) : Bool := lo ≤ c && c ≤ hi

/-- How many bytes `icalnode_puts` keeps together: printable ASCII, the sequences
of two, three and four bytes of UTF-8, or else a single invalid byte. -/
def charLen (c : Bytes) : Nat :=
  let at' i := c.getD i NUL
  let tail i := inRange 0x80 0xBF (at' i)
  if at' 0 = 0x09 || at' 0 = 0x0A || at' 0 = 0x0D || inRange 0x20 0x7E (at' 0) then 1
  else if inRange 0xC2 0xDF (at' 0) && tail 1 then 2
  else if at' 0 = 0xE0 && inRange 0xA0 0xBF (at' 1) && tail 2 ||
      (inRange 0xE1 0xEC (at' 0) || at' 0 = 0xEE || at' 0 = 0xEF) && tail 1 && tail 2 ||
      at' 0 = 0xED && inRange 0x80 0x9F (at' 1) && tail 2 then 3
  else if at' 0 = 0xF0 && inRange 0x90 0xBF (at' 1) && tail 2 && tail 3 ||
      inRange 0xF1 0xF3 (at' 0) && tail 1 && tail 2 && tail 3 ||
      at' 0 = 0xF4 && inRange 0x80 0x8F (at' 1) && tail 2 && tail 3 then 4
  else 1

/-- Print a string; its length bounds the characters in it. -/
def icalnodePuts : Nat → Bytes → Nat → Bytes × Nat
  | _, [], col => ([], col)
  | 0, _ :: _, col => ([], col)
  | fuel + 1, b :: bs, col =>
    let n := charLen (b :: bs)
    let fold : Bytes × Nat := if col + n ≥ 74 then ([CR, LF, SP], 1) else ([], col)
    let r := icalnodePuts fuel ((b :: bs).drop n) (fold.2 + n)
    (fold.1 ++ (b :: bs).take n ++ r.1, r.2)

def icalnodeParam (param : Option Bytes) (col : Nat) : Bytes × Nat :=
  match param with
  | none => ([], col)
  | some param =>
    let semi := icalnodePutchar 59 col
    let r := icalnodePuts param.length param semi.2
    (semi.1 ++ r.1, r.2)

def icalnodePrint (p : IcalNode) : Bytes :=
  let name := icalnodePuts p.name.length p.name 0
  let param := icalnodeParam p.param name.2
  let colon := icalnodePutchar 58 param.2
  let val := icalnodePuts p.val.length p.val colon.2
  name.1 ++ (param.1 ++ (colon.1 ++ val.1)) ++ [CR, LF]

def icalPrint (p : Ical) : Bytes := p.first.flatMap icalnodePrint

def paramText : Option Bytes → Bytes
  | none => []
  | some param => 59 :: param

/-- The line a node stands for. -/
def IcalNode.text (p : IcalNode) : Bytes := p.name ++ (paramText p.param ++ 58 :: p.val)

/-! ## Folded text -/

/-- `FoldsTo out s`: the bytes `out` are the bytes `s` with continuations put in. -/
inductive FoldsTo : Bytes → Bytes → Prop
  | nil : FoldsTo [] []
  | byte {c : UInt8} {out s : Bytes} : c ≠ LF → FoldsTo out s → FoldsTo (c :: out) (c :: s)
  | fold {out s : Bytes} : FoldsTo out s → FoldsTo (CR :: LF :: SP :: out) s

namespace FoldsTo

theorem append {o₁ o₂ s₁ s₂ : Bytes} (h₁ : FoldsTo o₁ s₁) (h₂ : FoldsTo o₂ s₂) :
    FoldsTo (o₁ ++ o₂) (s₁ ++ s₂) := by
  induction h₁ with
  | nil => exact h₂
  | byte hc _ ih => exact .byte hc ih
  | fold _ ih => exact .fold ih

theorem self {s : Bytes} (h : LF ∉ s) : FoldsTo s s := by
  induction s with
  | nil => exact .nil
  | cons c s ih =>
    have hc : c ≠ LF := fun e => h (e ▸ List.mem_cons_self)
    exact .byte hc (ih fun hm => h (List.mem_cons_of_mem c hm))

theorem stripCr_concat (seg : Bytes) : stripCr (seg ++ [CR]) = seg := by
  simp [stripCr]

/-- Text written with continuations and ended by a line break is read back as one line. -/
theorem lineScan {out s : Bytes} (h : FoldsTo out s) {rest : Bytes} (hr : ¬Continues rest) :
    ∀ seg buf n, LF ∉ seg → ∃ k, lineScan buf n (seg ++ (out ++ CR :: LF :: rest)) =
      (⟨buf ++ (seg ++ s), n + k + 1⟩, rest) := by
  have noLf {seg : Bytes} (hs : LF ∉ seg) {c : UInt8} (hc : c ≠ LF) : LF ∉ seg ++ [c] := by
    simp [hs, hc.symm]
  induction h with
  | nil =>
    intro seg buf n hs
    have hcr := lineScan_line (noLf hs (c := CR) (by decide)) hr buf n
    rw [stripCr_concat] at hcr
    exact ⟨0, by simpa using hcr⟩
  | @byte c out s hc _ ih =>
    intro seg buf n hs
    obtain ⟨k, hk⟩ := ih (seg ++ [c]) buf n (noLf hs hc)
    exact ⟨k, by simpa using hk⟩
  | @fold out s _ ih =>
    intro seg buf n hs
    obtain ⟨k, hk⟩ := ih [] (buf ++ seg) (n + 1) (by simp)
    have hsplit : seg ++ (CR :: LF :: SP :: out ++ CR :: LF :: rest) =
        (seg ++ [CR]) ++ LF :: SP :: (out ++ CR :: LF :: rest) := by simp
    have hcount : n + (k + 1) + 1 = n + 1 + k + 1 := by omega
    refine ⟨k + 1, ?_⟩
    rw [hsplit, lineScan_fold (noLf hs (by decide)) (show isFold SP from rfl), stripCr_concat, hcount]
    simpa using hk

end FoldsTo

theorem charLen_pos (c : Bytes) : 0 < charLen c := by
  unfold charLen
  dsimp only
  repeat' split
  all_goals decide

theorem icalnodePuts_folds (fuel : Nat) {s : Bytes} (hf : s.length ≤ fuel) (h : LF ∉ s) (col : Nat) :
    FoldsTo (icalnodePuts fuel s col).1 s := by
  induction fuel generalizing s col with
  | zero =>
    obtain rfl := List.length_eq_zero_iff.mp (Nat.le_zero.mp hf)
    exact .nil
  | succ fuel ih =>
    cases s with
    | nil => exact .nil
    | cons b bs =>
      unfold icalnodePuts
      dsimp only
      set n := charLen (b :: bs) with hn
      have hpos : 0 < n := charLen_pos _
      have hsplit := List.take_append_drop n (b :: bs)
      have htake : FoldsTo ((b :: bs).take n) ((b :: bs).take n) :=
        .self fun hm => h (List.mem_of_mem_take hm)
      have hlen : ((b :: bs).drop n).length ≤ fuel := by
        rw [List.length_drop]
        simp only [List.length_cons] at hf ⊢
        omega
      have hdrop := fun col => ih hlen (fun hm => h (List.mem_of_mem_drop hm)) col
      nth_rewrite 3 [← hsplit]
      refine .append ?_ (hdrop _)
      split
      · exact .fold htake
      · exact htake

theorem icalnodePutchar_folds {c : UInt8} (h : c ≠ LF) (col : Nat) :
    FoldsTo (icalnodePutchar c col).1 [c] := by
  unfold icalnodePutchar
  split
  · exact .fold (.byte h .nil)
  · exact .byte h .nil

theorem icalnodeParam_folds {param : Option Bytes} (h : LF ∉ paramText param) (col : Nat) :
    FoldsTo (icalnodeParam param col).1 (paramText param) := by
  cases param with
  | none => exact .nil
  | some param =>
    have hparam : LF ∉ param := fun hm => h (List.mem_cons_of_mem _ hm)
    exact .append (icalnodePutchar_folds (by decide) _) (icalnodePuts_folds _ le_rfl hparam _)

/-- A printed node is its line, folded, and a line break. -/
theorem icalnodePrint_folds {p : IcalNode} (h : LF ∉ p.text) :
    ∃ out, FoldsTo out p.text ∧ icalnodePrint p = out ++ [CR, LF] := by
  have hname : LF ∉ p.name := fun hm => h (by simp [IcalNode.text, hm])
  have hparam : LF ∉ paramText p.param := fun hm => h (by simp [IcalNode.text, hm])
  have hval : LF ∉ p.val := fun hm => h (by simp [IcalNode.text, hm])
  refine ⟨_, ?_, rfl⟩
  have hcolon := icalnodePutchar_folds (c := 58) (by decide) (icalnodeParam p.param (icalnodePuts
    p.name.length p.name 0).2).2
  exact .append (icalnodePuts_folds _ le_rfl hname _)
    (.append (icalnodeParam_folds hparam _) (.append hcolon (icalnodePuts_folds _ le_rfl hval _)))

theorem read_icalnodePrint {p : IcalNode} (h : LF ∉ p.text) {rest : Bytes} (hr : ¬Continues rest) :
    ∃ l, LineReader.read (icalnodePrint p ++ rest) = some (l, rest) ∧ l.text = p.text := by
  obtain ⟨out, hout, hp⟩ := icalnodePrint_folds h
  obtain ⟨k, hk⟩ := hout.lineScan hr [] [] 0 (by simp)
  refine ⟨⟨p.text, 0 + k + 1⟩, read_eq_some.mpr ⟨by simp [hp], ?_⟩, rfl⟩
  rw [hp, List.append_assoc]
  simpa using hk

theorem IcalNode.text_ne_nil (p : IcalNode) : p.text ≠ [] := by
  simp [text]

theorem FoldsTo.not_continues {out s : Bytes} (h : FoldsTo out s) (hs : s ≠ []) (hc : ¬Continues s)
    (rest : Bytes) : ¬Continues (out ++ rest) := by
  cases h with
  | nil => exact absurd rfl hs
  | byte _ _ => simpa using hc
  | fold _ =>
    rw [List.cons_append, continues_cons]
    decide

theorem icalPrint_not_continues {ns : List IcalNode}
    (h : ∀ n ∈ ns, LF ∉ n.text ∧ ¬Continues n.text) : ¬Continues (ns.flatMap icalnodePrint) := by
  cases ns with
  | nil => exact not_continues_nil
  | cons n ns =>
    obtain ⟨hlf, hc⟩ := h n List.mem_cons_self
    obtain ⟨out, hout, hp⟩ := icalnodePrint_folds hlf
    rw [List.flatMap_cons, hp, List.append_assoc]
    exact hout.not_continues n.text_ne_nil hc _

/-- What is printed unfolds to the lines of the nodes. -/
theorem unfoldLines_print {ns : List IcalNode} (h : ∀ n ∈ ns, LF ∉ n.text ∧ ¬Continues n.text) :
    unfoldLines (ns.flatMap icalnodePrint) = ns.map IcalNode.text := by
  induction ns with
  | nil => rfl
  | cons n ns ih =>
    have htail := fun m hm => h m (List.mem_cons_of_mem n hm)
    obtain ⟨l, hread, htext⟩ := read_icalnodePrint (h n List.mem_cons_self).1
      (icalPrint_not_continues htail)
    rw [List.flatMap_cons, unfoldLines_of_read hread, htext, ih htail]
    rfl

end Kcaldav
