import Mathlib.Data.Nat.Basic
import Mathlib.Logic.Function.Basic
import Mathlib.Logic.Nontrivial.Basic
import Mathlib.Order.Basic

/-! # Inverses of functions that have none

A function that is neither one-to-one nor onto has many inverses, each of them choosing
a place where a value is taken and being free where it is not. What holds of the choice
of every inverse is a fact about the function.
-/
namespace Inverse

variable {α β : Type*} {f f' : α → β} {g : β → α} {a : α} {b b' : β}

/-- Where a value is taken, `g` gives a place of it. -/
def IsInverse (f : α → β) (g : β → α) : Prop := ∀ a, f (g (f a)) = f a

theorem IsInverse.apply (h : IsInverse f g) (ha : f a = b) : f (g b) = b := by
  rw [← ha]
  exact h a

theorem isInverse_invFun [Nonempty α] (f : α → β) : IsInverse f (Function.invFun f) := fun a => Function.invFun_eq ⟨a, rfl⟩

/-- The choice at one value can be changed. -/
theorem IsInverse.update [DecidableEq β] (h : IsInverse f g) (ha : (∃ x, f x = b) → f a = b) :
    IsInverse f (Function.update g b a) := by
  intro x
  by_cases hx : f x = b
  · rw [hx, Function.update_self]
    exact ha ⟨x, hx⟩
  · rw [Function.update_of_ne hx]
    exact h x

/-- There is an inverse with a given choice. -/
theorem exists_isInverse [Nonempty α] (ha : (∃ x, f x = b) → f a = b) : ∃ g, IsInverse f g ∧ g b = a := by
  classical
  exact ⟨Function.update (Function.invFun f) b a, (isInverse_invFun f).update ha, Function.update_self ..⟩

/-- Every inverse chooses the one place that there is. -/
theorem forall_apply_eq_iff [Nontrivial α] : (∀ g, IsInverse f g → g b = a) ↔ ∀ x, f x = b ↔ x = a := by
  constructor
  · intro h x
    have htaken : ∃ y, f y = b := by
      by_contra hnone
      obtain ⟨c, hc⟩ := exists_ne a
      obtain ⟨g, hg, hgb⟩ := exists_isInverse (f := f) (a := c) fun hy => absurd hy hnone
      exact hc (hgb.symm.trans (h g hg))
    constructor
    · intro hx
      obtain ⟨g, hg, hgb⟩ := exists_isInverse (f := f) (a := x) fun _ => hx
      exact hgb.symm.trans (h g hg)
    · rintro rfl
      obtain ⟨y, hy⟩ := htaken
      have hinv := isInverse_invFun f
      rw [← h _ hinv]
      exact hinv.apply hy
  · intro h g hg
    exact (h (g b)).mp (hg.apply ((h a).mpr rfl))

/-- Every two inverses agree on the one place that both functions have. -/
theorem forall_apply_eq_apply_iff [Nontrivial α] :
    (∀ g g', IsInverse f g → IsInverse f' g' → g b = g' b) ↔ ∃ a, (∀ x, f x = b ↔ x = a) ∧ ∀ x, f' x = b ↔ x = a := by
  constructor
  · intro h
    have hleft : ∀ g, IsInverse f g → g b = Function.invFun f' b := fun g hg => h g _ hg (isInverse_invFun f')
    have hright : ∀ g', IsInverse f' g' → g' b = Function.invFun f' b := by
      intro g' hg'
      rw [← h _ g' (isInverse_invFun f) hg']
      exact hleft _ (isInverse_invFun f)
    exact ⟨Function.invFun f' b, forall_apply_eq_iff.mp hleft, forall_apply_eq_iff.mp hright⟩
  · rintro ⟨a, ha, ha'⟩ g g' hg hg'
    rw [forall_apply_eq_iff.mpr ha g hg, forall_apply_eq_iff.mpr ha' g' hg']

/-- Every inverse keeps the order of two values that are taken, where all places of one are
below those of the other. -/
theorem forall_apply_lt_iff [Preorder α] [Nonempty α] :
    (∀ g, IsInverse f g → g b < g b') ↔
      (∃ x, f x = b) ∧ (∃ x, f x = b') ∧ ∀ x x', f x = b → f x' = b' → x < x' := by
  classical
  constructor
  · intro h
    have hinv := isInverse_invFun f
    have hne : b ≠ b' := by
      rintro rfl
      exact lt_irrefl _ (h _ hinv)
    refine ⟨?_, ?_, ?_⟩
    · by_contra hnone
      have hlt := h _ (hinv.update (b := b) (a := Function.invFun f b') fun hy => absurd hy hnone)
      rw [Function.update_self, Function.update_of_ne hne.symm] at hlt
      exact lt_irrefl _ hlt
    · by_contra hnone
      have hlt := h _ (hinv.update (b := b') (a := Function.invFun f b) fun hy => absurd hy hnone)
      rw [Function.update_self, Function.update_of_ne hne] at hlt
      exact lt_irrefl _ hlt
    · intro x x' hx hx'
      have hlt := h _ ((hinv.update fun _ => hx).update fun _ => hx')
      rwa [Function.update_self, Function.update_of_ne hne, Function.update_self] at hlt
  · rintro ⟨⟨x, hx⟩, ⟨x', hx'⟩, hlt⟩ g hg
    exact hlt _ _ (hg.apply hx) (hg.apply hx')

end Inverse
