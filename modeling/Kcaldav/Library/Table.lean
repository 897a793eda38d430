import Mathlib.Data.Int.Order.Basic
import Mathlib.Data.List.Basic

/-! # Tables

Rows in a list with the constraints a schema puts on them: a key that no two rows
share, a column that refers to the rows of another table, and identifiers that count
up. The first part says how a change of rows keeps a constraint, the second what a look
for the row with a key finds after it.
-/
variable {α β κ : Type}

/-- No two rows have the same key. -/
def Key (f : α → κ) (rows : List α) : Prop := ∀ a ∈ rows, ∀ b ∈ rows, f a = f b → a = b

/-- Every row refers to a row of the other table. -/
def Refers (f : α → κ) (rows : List α) (g : β → κ) (targets : List β) : Prop := ∀ a ∈ rows, ∃ b ∈ targets, g b = f a

/-- Identifiers are a key, count from one and have been given out. -/
structure Serial (f : α → Int) (rows : List α) (seq : Int) : Prop where
  nonneg : 0 ≤ seq
  key : Key f rows
  pos : ∀ a ∈ rows, 0 < f a
  le : ∀ a ∈ rows, f a ≤ seq

instance [DecidableEq α] [DecidableEq κ] (f : α → κ) (rows : List α) : Decidable (Key f rows) :=
  inferInstanceAs (Decidable (∀ a ∈ rows, ∀ b ∈ rows, f a = f b → a = b))

instance [DecidableEq κ] (f : α → κ) (rows : List α) (g : β → κ) (targets : List β) : Decidable (Refers f rows g targets) :=
  inferInstanceAs (Decidable (∀ a ∈ rows, ∃ b ∈ targets, g b = f a))

instance [DecidableEq α] (f : α → Int) (rows : List α) (seq : Int) : Decidable (Serial f rows seq) :=
  decidable_of_iff (0 ≤ seq ∧ Key f rows ∧ (∀ a ∈ rows, 0 < f a) ∧ ∀ a ∈ rows, f a ≤ seq)
    ⟨fun h => ⟨h.1, h.2.1, h.2.2.1, h.2.2.2⟩, fun h => ⟨h.nonneg, h.key, h.pos, h.le⟩⟩

/-! ## Constraints that are kept -/

namespace Key
variable {f : α → κ} {rows rows' : List α} {a : α}

theorem nil : Key f [] := fun _ h => absurd h List.not_mem_nil

theorem fewer (h : Key f rows) (hrows : ∀ a ∈ rows', a ∈ rows) : Key f rows' :=
  fun a ha b hb => h a (hrows a ha) b (hrows b hb)

theorem append (h : Key f rows) (hnew : ∀ b ∈ rows, f b ≠ f a) : Key f (rows ++ [a]) := by
  intro x hx y hy hxy
  rw [List.mem_append, List.mem_singleton] at hx hy
  rcases hx with hx | rfl <;> rcases hy with hy | rfl
  · exact h x hx y hy hxy
  · exact absurd hxy (hnew x hx)
  · exact absurd hxy.symm (hnew y hy)
  · rfl

theorem map (h : Key f rows) {g : α → α} (hg : ∀ a, f (g a) = f a) : Key f (rows.map g) := by
  intro x hx y hy hxy
  obtain ⟨x', hx', rfl⟩ := List.mem_map.mp hx
  obtain ⟨y', hy', rfl⟩ := List.mem_map.mp hy
  rw [hg, hg] at hxy
  rw [h x' hx' y' hy' hxy]

end Key

namespace Refers
variable {f : α → κ} {rows rows' : List α} {g : β → κ} {targets targets' : List β} {a : α}

theorem nil : Refers f [] g targets := fun _ h => absurd h List.not_mem_nil

theorem fewer (h : Refers f rows g targets) (hrows : ∀ a ∈ rows', a ∈ rows) : Refers f rows' g targets :=
  fun a ha => h a (hrows a ha)

theorem append (h : Refers f rows g targets) (hnew : ∃ b ∈ targets, g b = f a) : Refers f (rows ++ [a]) g targets := by
  intro x hx
  rw [List.mem_append, List.mem_singleton] at hx
  rcases hx with hx | rfl
  · exact h x hx
  · exact hnew

theorem map (h : Refers f rows g targets) {m : α → α} (hm : ∀ a, f (m a) = f a) : Refers f (rows.map m) g targets := by
  intro x hx
  obtain ⟨x', hx', rfl⟩ := List.mem_map.mp hx
  rw [hm]
  exact h x' hx'

/-- The other table keeps its keys. -/
theorem retarget (h : Refers f rows g targets) (hkeys : ∀ b ∈ targets, ∃ b' ∈ targets', g b' = g b) :
    Refers f rows g targets' := by
  intro a ha
  obtain ⟨b, hb, hab⟩ := h a ha
  obtain ⟨b', hb', hbb⟩ := hkeys b hb
  exact ⟨b', hb', hbb.trans hab⟩

end Refers

namespace Serial
variable {f : α → Int} {rows rows' : List α} {seq : Int} {a : α}

theorem nil : Serial f ([] : List α) 0 :=
  ⟨le_rfl, Key.nil, fun _ h => absurd h List.not_mem_nil, fun _ h => absurd h List.not_mem_nil⟩

theorem fewer (h : Serial f rows seq) (hrows : ∀ a ∈ rows', a ∈ rows) : Serial f rows' seq :=
  ⟨h.nonneg, h.key.fewer hrows, fun a ha => h.pos a (hrows a ha), fun a ha => h.le a (hrows a ha)⟩

/-- A new row has the next identifier. -/
theorem append (h : Serial f rows seq) (ha : f a = seq + 1) : Serial f (rows ++ [a]) (seq + 1) := by
  have hseq := h.nonneg
  refine ⟨by omega, h.key.append fun b hb => ?_, fun b hb => ?_, fun b hb => ?_⟩
  · have hle := h.le b hb
    omega
  · rw [List.mem_append, List.mem_singleton] at hb
    rcases hb with hb | rfl
    · exact h.pos b hb
    · omega
  · rw [List.mem_append, List.mem_singleton] at hb
    rcases hb with hb | rfl
    · have hle := h.le b hb
      omega
    · omega

theorem map (h : Serial f rows seq) {g : α → α} (hg : ∀ a, f (g a) = f a) : Serial f (rows.map g) seq := by
  refine ⟨h.nonneg, h.key.map hg, fun b hb => ?_, fun b hb => ?_⟩
  all_goals
    obtain ⟨b', hb', rfl⟩ := List.mem_map.mp hb
    rw [hg]
  · exact h.pos b' hb'
  · exact h.le b' hb'

end Serial

/-! ## The row with a key -/

section Find
variable {rows : List α} {p : α → Bool} {a : α}

theorem find?_append_of_false (h : p a = false) : (rows ++ [a]).find? p = rows.find? p := by
  rw [List.find?_append, List.find?_singleton, h]
  simp

theorem find?_append_of_true (hnone : rows.find? p = none) (h : p a) : (rows ++ [a]).find? p = some a := by
  rw [List.find?_append, hnone, List.find?_singleton, h]
  simp

theorem find?_map_of_same {g : α → α} (hg : ∀ a, p (g a) = p a) : (rows.map g).find? p = (rows.find? p).map g := by
  rw [List.find?_map]
  congr 2
  exact funext hg

variable {f : α → κ} {k : κ}

/-- With a key, the row that is found is the one that has it. -/
theorem Key.find?_eq_some (h : Key f rows) (hp : ∀ a, p a ↔ f a = k) : rows.find? p = some a ↔ a ∈ rows ∧ f a = k := by
  constructor
  · intro hfind
    exact ⟨List.mem_of_find?_eq_some hfind, (hp a).mp (List.find?_some hfind)⟩
  · rintro ⟨ha, hk⟩
    cases hfind : rows.find? p with
    | none => exact absurd ((hp a).mpr hk) (List.find?_eq_none.mp hfind a ha)
    | some b =>
      have hb := (hp b).mp (List.find?_some hfind)
      rw [h b (List.mem_of_find?_eq_some hfind) a ha (hb.trans hk.symm)]

/-- With a key, a selection of rows has the row if it was there and is selected. -/
theorem Key.find?_filter (h : Key f rows) (hp : ∀ a, p a ↔ f a = k) (q : α → Bool) :
    (rows.filter q).find? p = (rows.find? p).filter q := by
  have hfew : Key f (rows.filter q) := h.fewer fun a ha => List.mem_of_mem_filter ha
  refine Option.ext fun a => ?_
  rw [hfew.find?_eq_some hp, Option.filter_eq_some_iff, h.find?_eq_some hp, List.mem_filter]
  tauto

end Find
