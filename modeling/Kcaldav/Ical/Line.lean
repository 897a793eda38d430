import Kcaldav.Library.CString

/-! # Logical lines

The line reader of `ical_line`: segments up to a line feed, with one carriage
return dropped, joined while the next byte is a space or a tab. A parse reads its
lines from a `LineReader`; the file buffer is one, and so is a list of lines
already unfolded.
-/
namespace Kcaldav
open CString

/-- One unfolded line and the number of physical lines it was read from. -/
structure RawLine where
  text : Bytes
  phys : Nat
  deriving DecidableEq, Repr

/-- A source of logical lines, whose `size` bounds the lines left in it. -/
class LineReader (ρ : Type) where
  read : ρ → Option (RawLine × ρ)
  size : ρ → Nat
  size_read {r r' : ρ} {l : RawLine} : read r = some (l, r') → size r' < size r

namespace LineReader
variable {ρ : Type} [LineReader ρ]

def linesFrom : Nat → ρ → List RawLine
  | 0, _ => []
  | fuel + 1, r =>
    match read r with
    | none => []
    | some (l, r') => l :: linesFrom fuel r'

/-- All the lines of a source. -/
def lines (r : ρ) : List RawLine := linesFrom (size r) r

theorem linesFrom_eq (fuel : Nat) (r : ρ) (h : size r ≤ fuel) : linesFrom fuel r = lines r := by
  induction fuel using Nat.strong_induction_on generalizing r with
  | _ fuel ih =>
    unfold lines
    cases hr : read r with
    | none => cases fuel <;> cases hs : size r <;> simp [linesFrom, hr]
    | some p =>
      obtain ⟨l, r'⟩ := p
      have hlt := size_read hr
      obtain ⟨fuel, rfl⟩ : ∃ k, fuel = k + 1 := ⟨fuel - 1, by omega⟩
      obtain ⟨n, hn⟩ : ∃ k, size r = k + 1 := ⟨size r - 1, by omega⟩
      simp only [hn, linesFrom, hr]
      rw [ih fuel (Nat.lt_succ_self _) r' (by omega), ih n (by omega) r' (by omega)]

theorem lines_of_none {r : ρ} (h : read r = none) : lines r = [] := by
  cases hs : size r <;> simp [lines, linesFrom, hs, h]

theorem lines_of_some {r r' : ρ} {l : RawLine} (h : read r = some (l, r')) : lines r = l :: lines r' := by
  have hlt := size_read h
  rw [← linesFrom_eq (size r + 1) r (by omega), linesFrom, h]
  exact congrArg _ (linesFrom_eq _ _ (by omega))

/-- Reading the lines `ls` leads from the first source to the second. -/
inductive Reads : ρ → List RawLine → ρ → Prop
  | nil (r : ρ) : Reads r [] r
  | cons {r r' r'' : ρ} {l : RawLine} {ls : List RawLine} :
    read r = some (l, r') → Reads r' ls r'' → Reads r (l :: ls) r''

namespace Reads

theorem one {r r' : ρ} {l : RawLine} (h : read r = some (l, r')) : Reads r [l] r' := .cons h (.nil r')

theorem append {r r' r'' : ρ} {ls ms : List RawLine} (h : Reads r ls r') (h' : Reads r' ms r'') :
    Reads r (ls ++ ms) r'' := by
  induction h with
  | nil => exact h'
  | cons hr _ ih => exact .cons hr (ih h')

theorem lines {r r' : ρ} {ls : List RawLine} (h : Reads r ls r') :
    LineReader.lines r = ls ++ LineReader.lines r' := by
  induction h with
  | nil => rfl
  | cons hr _ ih => rw [lines_of_some hr, ih, List.cons_append]

theorem size_le {r r' : ρ} {ls : List RawLine} (h : Reads r ls r') : size r' ≤ size r := by
  induction h with
  | nil => exact le_rfl
  | cons hr _ ih => exact ih.trans (size_read hr).le

theorem split {r r'' : ρ} {ls ms : List RawLine} (h : Reads r (ls ++ ms) r'') : ∃ r', Reads r ls r' ∧ Reads r' ms r'' := by
  induction ls generalizing r with
  | nil => exact ⟨r, .nil r, h⟩
  | cons l ls ih =>
    cases h with
    | cons hr h =>
      obtain ⟨r', hls, hms⟩ := ih h
      exact ⟨r', .cons hr hls, hms⟩

theorem size_lt {r r' : ρ} {ls : List RawLine} (h : Reads r ls r') (hls : ls ≠ []) : size r' < size r := by
  cases h with
  | nil => exact absurd rfl hls
  | cons hr h => exact h.size_le.trans_lt (size_read hr)

/-- Of two points on the way through a source the one with less left comes later. -/
theorem between {r a b : ρ} {ls ms : List RawLine} (h : Reads r ls a) (h' : Reads r ms b) (hle : size a ≤ size b) :
    ∃ ks, Reads b ks a := by
  induction h' generalizing ls with
  | nil => exact ⟨ls, h⟩
  | cons hr _ ih =>
    cases h with
    | nil =>
      rename_i hb
      exact absurd (hle.trans hb.size_le) (Nat.not_le.mpr (size_read hr))
    | cons hr' h =>
      rw [hr] at hr'
      cases hr'
      exact ih h hle

end Reads

end LineReader

instance : LineReader (List RawLine) where
  read
    | [] => none
    | l :: ls => some (l, ls)
  size := List.length
  size_read := by
    rintro (_ | ⟨m, ls⟩) r' l h
    · cases h
    · cases h
      exact Nat.lt_succ_self _

@[simp] theorem read_nil : LineReader.read ([] : List RawLine) = none := rfl
@[simp] theorem read_cons (l : RawLine) (ls : List RawLine) : LineReader.read (l :: ls) = some (l, ls) := rfl

/-! ## The file buffer -/

/-- A segment without the carriage return before its line feed. -/
def stripCr (seg : Bytes) : Bytes := if seg.getLast? = some CR then seg.dropLast else seg

def isFold (c : UInt8) : Bool := c = SP || c = HTAB

/-- The rest of the buffer begins with a continuation. -/
def Continues (b : Bytes) : Prop := ∃ c ∈ b.head?, isFold c

instance (b : Bytes) : Decidable (Continues b) :=
  decidable_of_iff (b.head?.any isFold = true) (by simp [Continues, Option.any_eq_true])

@[simp] theorem not_continues_nil : ¬Continues [] := by simp [Continues]
@[simp] theorem continues_cons (c : UInt8) (b : Bytes) : Continues (c :: b) ↔ isFold c := by
  simp [Continues]

/-- The scan loop of `ical_line`: `buf` is what has been copied, `n` the number of
physical lines passed, and the rest of the buffer is left behind. -/
def icalLineScan : Nat → Bytes → Nat → Bytes → RawLine × Bytes
  | 0, buf, n, rest => (⟨buf, n⟩, rest)
  | fuel + 1, buf, n, rest =>
    if rest = [] then (⟨buf, n⟩, [])
    else match strchr LF rest with
      | none => (⟨buf ++ rest, n + 1⟩, [])
      | some (seg, rest) =>
        if rest = [] ∨ Continues rest then icalLineScan fuel (buf ++ stripCr seg) (n + 1) (rest.drop 1)
        else (⟨buf ++ stripCr seg, n + 1⟩, rest)

/-- The scan with the fuel it needs. -/
def lineScan (buf : Bytes) (n : Nat) (rest : Bytes) : RawLine × Bytes :=
  icalLineScan rest.length buf n rest

theorem icalLineScan_eq (fuel : Nat) (buf : Bytes) (n : Nat) (rest : Bytes) (h : rest.length ≤ fuel) :
    icalLineScan fuel buf n rest = lineScan buf n rest := by
  unfold lineScan
  induction fuel using Nat.strong_induction_on generalizing buf n rest with
  | _ fuel ih =>
    by_cases hr : rest = []
    · subst hr
      cases fuel <;> simp [icalLineScan]
    have hpos := List.length_pos_iff.mpr hr
    obtain ⟨fuel, rfl⟩ : ∃ k, fuel = k + 1 := ⟨fuel - 1, by omega⟩
    obtain ⟨m, hm⟩ : ∃ k, rest.length = k + 1 := ⟨rest.length - 1, by omega⟩
    simp only [hm, icalLineScan, hr, ↓reduceIte]
    cases hc : strchr LF rest with
    | none => rfl
    | some p =>
      obtain ⟨seg, tl⟩ := p
      have hlen : rest.length = seg.length + tl.length + 1 := by
        rw [(strchr_eq_some.mp hc).1]
        simp only [List.length_append, List.length_cons]
        omega
      dsimp only
      split
      · rw [ih fuel (Nat.lt_succ_self _) _ _ _ (by rw [List.length_drop]; omega),
          ih m (by omega) _ _ _ (by rw [List.length_drop]; omega)]
      · rfl

@[simp] theorem lineScan_nil (buf : Bytes) (n : Nat) : lineScan buf n [] = (⟨buf, n⟩, []) := rfl

theorem lineScan_last {rest : Bytes} (hr : rest ≠ []) (h : LF ∉ rest) (buf : Bytes) (n : Nat) :
    lineScan buf n rest = (⟨buf ++ rest, n + 1⟩, []) := by
  rw [← icalLineScan_eq (rest.length + 1) buf n rest (by omega), icalLineScan, if_neg hr,
    strchr_eq_none.mpr h]

theorem lineScan_line {seg rest : Bytes} (h : LF ∉ seg) (hc : ¬Continues rest) (buf : Bytes) (n : Nat) :
    lineScan buf n (seg ++ LF :: rest) = (⟨buf ++ stripCr seg, n + 1⟩, rest) := by
  rw [← icalLineScan_eq ((seg ++ LF :: rest).length + 1) buf n _ (by omega), icalLineScan,
    if_neg (by simp), strchr_append h]
  dsimp only
  by_cases hr : rest = []
  · subst hr
    rw [if_pos (Or.inl rfl), List.drop_nil, icalLineScan_eq _ _ _ _ (by simp), lineScan_nil]
  · rw [if_neg (by simp [hr, hc])]

theorem lineScan_fold {seg rest : Bytes} {c : UInt8} (h : LF ∉ seg) (hc : isFold c) (buf : Bytes) (n : Nat) :
    lineScan buf n (seg ++ LF :: c :: rest) = lineScan (buf ++ stripCr seg) (n + 1) rest := by
  rw [← icalLineScan_eq ((seg ++ LF :: c :: rest).length + 1) buf n _ (by omega), icalLineScan,
    if_neg (by simp), strchr_append h]
  dsimp only
  rw [if_pos (Or.inr ⟨c, by simp, hc⟩)]
  exact icalLineScan_eq _ _ _ _ (by simp; omega)

/-- Induction along the scan: no line feed left, a segment that ends the line, a
segment that is continued. -/
theorem scanInduction {P : Bytes → Prop} (nil : P []) (last : ∀ b, b ≠ [] → LF ∉ b → P b)
    (line : ∀ seg rest, LF ∉ seg → ¬Continues rest → P (seg ++ LF :: rest))
    (fold : ∀ seg c rest, LF ∉ seg → isFold c → P rest → P (seg ++ LF :: c :: rest)) (b : Bytes) : P b := by
  induction hn : b.length using Nat.strong_induction_on generalizing b with
  | _ n ih =>
    cases hc : strchr LF b with
    | none =>
      by_cases hb : b = []
      · exact hb ▸ nil
      · exact last b hb (strchr_eq_none.mp hc)
    | some p =>
      obtain ⟨seg, rest⟩ := p
      obtain ⟨rfl, hseg⟩ := strchr_eq_some.mp hc
      by_cases hcont : Continues rest
      · cases rest with
        | nil => exact absurd hcont not_continues_nil
        | cons c rest =>
          refine fold seg c rest hseg ((continues_cons c rest).mp hcont) (ih _ ?_ rest rfl)
          simp only [List.length_append, List.length_cons] at hn
          omega
      · exact line seg rest hseg hcont

theorem lineScan_length (b : Bytes) : ∀ buf n, (lineScan buf n b).2.length ≤ b.length - 1 := by
  induction b using scanInduction with
  | nil => simp
  | last b hb h => simp [lineScan_last hb h]
  | line seg rest h hc => simp [lineScan_line h hc]
  | fold seg c rest h hc ih =>
    intro buf n
    have hrest := ih (buf ++ stripCr seg) (n + 1)
    rw [lineScan_fold h hc]
    simp only [List.length_append, List.length_cons]
    omega

instance : LineReader Bytes where
  read b := if b = [] then none else some (lineScan [] 0 b)
  size := List.length
  size_read := by
    intro b b' l h
    split at h
    · cases h
    next hb =>
      have hpos := List.length_pos_iff.mpr hb
      have hlen := lineScan_length b [] 0
      rw [Option.some.inj h] at hlen
      dsimp only at hlen ⊢
      omega

theorem read_eq_none {b : Bytes} : LineReader.read b = none ↔ b = [] := by
  simp [LineReader.read]

theorem read_eq_some {b r : Bytes} {l : RawLine} :
    LineReader.read b = some (l, r) ↔ b ≠ [] ∧ lineScan [] 0 b = (l, r) := by
  simp [LineReader.read]

/-- The unfolded lines of a buffer. -/
def unfoldLines (b : Bytes) : List Bytes := (LineReader.lines b).map RawLine.text

theorem unfoldLines_nil : unfoldLines [] = [] := rfl

theorem unfoldLines_of_read {b r : Bytes} {l : RawLine} (h : LineReader.read b = some (l, r)) :
    unfoldLines b = l.text :: unfoldLines r := by
  rw [unfoldLines, LineReader.lines_of_some h]
  rfl

/-! ## What a scan reads -/

theorem mem_stripCr {seg : Bytes} {y : UInt8} (h : y ∈ stripCr seg) : y ∈ seg := by
  unfold stripCr at h
  split at h
  · exact List.dropLast_subset seg h
  · exact h

/-- A scan reads a prefix of the buffer, and reads it alike whenever what follows
starts as the rest does. -/
theorem lineScan_prefix (b : Bytes) : ∀ buf n, ∃ raw, b = raw ++ (lineScan buf n b).2 ∧
    ∀ x, x <+: (lineScan buf n b).2 → lineScan buf n (raw ++ x) = ((lineScan buf n b).1, x) := by
  induction b using scanInduction with
  | nil =>
    intro buf n
    refine ⟨[], by simp, fun x hx => ?_⟩
    obtain rfl := List.prefix_nil.mp hx
    simp
  | last b hb h =>
    intro buf n
    rw [lineScan_last hb h]
    refine ⟨b, by simp, fun x hx => ?_⟩
    obtain rfl := List.prefix_nil.mp hx
    rw [List.append_nil, lineScan_last hb h]
  | line seg rest h hc =>
    intro buf n
    rw [lineScan_line h hc]
    refine ⟨seg ++ [LF], by simp, fun x hx => ?_⟩
    have hx' : ¬Continues x := by
      obtain ⟨t, rfl⟩ := hx
      cases x with
      | nil => exact not_continues_nil
      | cons c x => simpa using hc
    rw [List.append_assoc, List.singleton_append, lineScan_line h hx']
  | fold seg c rest h hc ih =>
    intro buf n
    obtain ⟨raw, hraw, hx⟩ := ih (buf ++ stripCr seg) (n + 1)
    rw [lineScan_fold h hc]
    refine ⟨seg ++ LF :: c :: raw, by simpa using hraw, fun x hpre => ?_⟩
    rw [List.append_assoc, List.cons_append, List.cons_append, lineScan_fold h hc]
    exact hx x hpre

/-- The bytes of a line come from the buffer, and none of them is a line feed. -/
theorem lineScan_mem (b : Bytes) : ∀ buf n y, y ∈ (lineScan buf n b).1.text → y ∈ buf ∨ y ∈ b ∧ y ≠ LF := by
  have ne_lf {seg : Bytes} (h : LF ∉ seg) {y : UInt8} (hy : y ∈ seg) : y ≠ LF := fun e => h (e ▸ hy)
  induction b using scanInduction with
  | nil => simp
  | last b hb h =>
    intro buf n y hy
    rw [lineScan_last hb h] at hy
    exact (List.mem_append.mp hy).imp_right fun hm => ⟨hm, ne_lf h hm⟩
  | line seg rest h hc =>
    intro buf n y hy
    rw [lineScan_line h hc] at hy
    exact (List.mem_append.mp hy).imp_right fun hm =>
      ⟨List.mem_append_left _ (mem_stripCr hm), ne_lf h (mem_stripCr hm)⟩
  | fold seg c rest h hc ih =>
    intro buf n y hy
    rw [lineScan_fold h hc] at hy
    rcases ih _ _ y hy with hm | ⟨hm, hn⟩
    · exact (List.mem_append.mp hm).imp_right fun hm =>
        ⟨List.mem_append_left _ (mem_stripCr hm), ne_lf h (mem_stripCr hm)⟩
    · exact Or.inr ⟨by simp [hm], hn⟩

/-- The bytes read through are a buffer of their own with the same lines. -/
theorem reads_bytes {b r : Bytes} {ls : List RawLine} (h : LineReader.Reads b ls r) :
    ∃ raw, b = raw ++ r ∧ LineReader.lines raw = ls := by
  induction h with
  | nil r => exact ⟨[], by simp, LineReader.lines_of_none (read_eq_none.mpr rfl)⟩
  | @cons b r' r l ls hr _ ih =>
    obtain ⟨hb, hscan⟩ := read_eq_some.mp hr
    obtain ⟨raw, hraw, hlike⟩ := lineScan_prefix b [] 0
    obtain ⟨more, rfl, hmore⟩ := ih
    rw [hscan] at hraw hlike
    have hread : LineReader.read (raw ++ more) = some (l, more) := by
      refine read_eq_some.mpr ⟨fun hnil => ?_, hlike more (List.prefix_append more r)⟩
      obtain ⟨rfl, rfl⟩ := List.append_eq_nil_iff.mp hnil
      have hlen := LineReader.size_read hr
      rw [hraw] at hlen
      exact lt_irrefl _ hlen
    refine ⟨raw ++ more, by rw [hraw, List.append_assoc], ?_⟩
    rw [LineReader.lines_of_some hread, hmore]

theorem mem_lines {b : Bytes} {l : RawLine} (h : l ∈ LineReader.lines b) {y : UInt8} (hy : y ∈ l.text) :
    y ∈ b ∧ y ≠ LF := by
  induction hn : b.length using Nat.strong_induction_on generalizing b with
  | _ n ih =>
    cases hr : LineReader.read b with
    | none => simp [LineReader.lines_of_none hr] at h
    | some p =>
      obtain ⟨m, r⟩ := p
      obtain ⟨-, hscan⟩ := read_eq_some.mp hr
      rw [LineReader.lines_of_some hr] at h
      rcases List.mem_cons.mp h with rfl | h
      · have hmem := lineScan_mem b [] 0 y
        rw [hscan] at hmem
        exact (hmem hy).resolve_left (List.not_mem_nil)
      · obtain ⟨hyr, hlf⟩ := ih r.length (hn ▸ LineReader.size_read hr) h rfl
        obtain ⟨raw, hraw, -⟩ := lineScan_prefix b [] 0
        rw [hscan] at hraw
        exact ⟨hraw ▸ List.mem_append_right raw hyr, hlf⟩

theorem lf_notMem_unfoldLines {b l : Bytes} (h : l ∈ unfoldLines b) : LF ∉ l := by
  obtain ⟨m, hm, rfl⟩ := List.mem_map.mp h
  exact fun hy => (mem_lines hm hy).2 rfl

end Kcaldav
