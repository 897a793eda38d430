import Mathlib.Order.Basic
import Mathlib.Logic.Relation

/-! # Versions

A thing that may come and go is seen with a version. Where every step that changes it
gives it a greater version, and none brings it back once it is gone, a version names
what was seen: two sightings of one version are the same.
-/

/-- What is seen, and its version. -/
@[ext]
structure Versioned (N V : Type*) where
  version : N
  value : V

namespace Versioned
variable {N V σ : Type*}

/-- What is seen later was there before, as it is or with a smaller version. -/
def Advances [LT N] (o o' : Option (Versioned N V)) : Prop := ∀ y ∈ o', ∃ x ∈ o, x = y ∨ x.version < y.version

theorem Advances.refl [LT N] (o : Option (Versioned N V)) : Advances o o := fun y hy => ⟨y, hy, Or.inl rfl⟩

variable [Preorder N]

theorem Advances.trans {o o' o'' : Option (Versioned N V)} (h : Advances o o') (h' : Advances o' o'') : Advances o o'' := by
  intro z hz
  obtain ⟨y, hy, hyz⟩ := h' z hz
  obtain ⟨x, hx, hxy⟩ := h y hy
  refine ⟨x, hx, ?_⟩
  rcases hyz with rfl | hyz
  · exact hxy
  · rcases hxy with rfl | hxy
    · exact Or.inr hyz
    · exact Or.inr (hxy.trans hyz)

/-- A version that is seen twice is of the same value. -/
theorem Advances.eq {o o' : Option (Versioned N V)} (h : Advances o o') {x y : Versioned N V} (hx : x ∈ o) (hy : y ∈ o')
    (hversion : x.version = y.version) : x = y := by
  obtain ⟨x', hx', hxy⟩ := h y hy
  obtain rfl := Option.mem_unique hx hx'
  exact hxy.resolve_right (hversion ▸ lt_irrefl _)

/-- What each step of a run does, in states that have an invariant, a run does. -/
theorem Advances.run (see : σ → Option (Versioned N V)) {step : σ → σ → Prop} {Inv : σ → Prop}
    (hinv : ∀ s s', Inv s → step s s' → Inv s') (hstep : ∀ s s', Inv s → step s s' → Advances (see s) (see s'))
    {s s' : σ} (hs : Inv s) (hrun : Relation.ReflTransGen step s s') : Inv s' ∧ Advances (see s) (see s') := by
  induction hrun with
  | refl => exact ⟨hs, Advances.refl _⟩
  | tail _ hlast ih => exact ⟨hinv _ _ ih.1 hlast, ih.2.trans (hstep _ _ ih.1 hlast)⟩

end Versioned
