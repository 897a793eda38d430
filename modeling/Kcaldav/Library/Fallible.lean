import Mathlib.Tactic.Common

/-! # State computations that may fail

A computation reads and writes a state and either returns a value or fails. A
failure keeps the state reached, so effects made before it stay visible. The
rules below take a successful or failed run apart at every sequencing point;
`Keeps` carries a reflexive and transitive relation between the first and the
last state through a whole computation, `Returns` what is known of the values on
the way to the value returned.
-/

/-- A computation over `σ` that returns an `α` or fails. -/
def Fallible (σ α : Type) : Type := σ → Option α × σ

namespace Fallible
variable {σ τ α β : Type}

def done (a : α) : Fallible σ α := fun s => (some a, s)

def fail : Fallible σ α := fun s => (none, s)

def andThen (x : Fallible σ α) (f : α → Fallible σ β) : Fallible σ β := fun s =>
  match x s with
  | (some a, t) => f a t
  | (none, t) => (none, t)

instance : Monad (Fallible σ) where
  pure := done
  bind := andThen

def gets (f : σ → α) : Fallible σ α := fun s => (some (f s), s)

def modify (f : σ → σ) : Fallible σ Unit := fun s => (some (), f s)

/-- Continue only where the test holds. -/
def ensure (b : Bool) : Fallible σ Unit := if b then done () else fail

/-- The handler takes over at the state in which the computation failed. -/
def orElse (x : Fallible σ α) (h : Fallible σ α) : Fallible σ α := fun s =>
  match x s with
  | (some a, t) => (some a, t)
  | (none, t) => h t

/-- Run a computation on a component of a larger state. -/
def zoom (get : τ → σ) (set : σ → τ → τ) (x : Fallible σ α) : Fallible τ α := fun t =>
  ((x (get t)).1, set (x (get t)).2 t)

@[simp] theorem pure_apply (a : α) (s : σ) : (pure a : Fallible σ α) s = (some a, s) := rfl
@[simp] theorem done_apply (a : α) (s : σ) : (done a : Fallible σ α) s = (some a, s) := rfl
@[simp] theorem fail_apply (s : σ) : (fail : Fallible σ α) s = (none, s) := rfl
@[simp] theorem gets_apply (f : σ → α) (s : σ) : gets f s = (some (f s), s) := rfl
@[simp] theorem modify_apply (f : σ → σ) (s : σ) : modify f s = (some (), f s) := rfl

theorem bind_apply (x : Fallible σ α) (f : α → Fallible σ β) (s : σ) :
    (x >>= f) s = match x s with
      | (some a, t) => f a t
      | (none, t) => (none, t) := rfl

theorem bind_of_some {x : Fallible σ α} {f : α → Fallible σ β} {s t : σ} {a : α}
    (h : x s = (some a, t)) : (x >>= f) s = f a t := by
  rw [bind_apply, h]

theorem bind_of_none {x : Fallible σ α} {f : α → Fallible σ β} {s t : σ}
    (h : x s = (none, t)) : (x >>= f) s = (none, t) := by
  rw [bind_apply, h]

/-- A sequence succeeds exactly when both parts do. -/
theorem bind_eq_some {x : Fallible σ α} {f : α → Fallible σ β} {s u : σ} {b : β} :
    (x >>= f) s = (some b, u) ↔ ∃ a t, x s = (some a, t) ∧ f a t = (some b, u) := by
  rw [bind_apply]
  rcases hx : x s with ⟨_ | a, t⟩
  · simp
  · constructor
    · intro h
      exact ⟨a, t, rfl, h⟩
    · rintro ⟨a', t', h, h'⟩
      cases h
      exact h'

/-- A sequence fails where its first part does, or where the second does after it. -/
theorem bind_eq_none {x : Fallible σ α} {f : α → Fallible σ β} {s u : σ} :
    (x >>= f) s = (none, u) ↔ x s = (none, u) ∨ ∃ a t, x s = (some a, t) ∧ f a t = (none, u) := by
  rw [bind_apply]
  rcases hx : x s with ⟨_ | a, t⟩
  · simp
  · constructor
    · intro h
      exact .inr ⟨a, t, rfl, h⟩
    · rintro (h | ⟨a', t', h, h'⟩)
      · cases h
      · cases h
        exact h'

theorem bind_assoc {γ : Type} (x : Fallible σ α) (f : α → Fallible σ β) (g : β → Fallible σ γ) :
    (x >>= f) >>= g = x >>= fun a => f a >>= g := by
  funext s
  rw [bind_apply, bind_apply, bind_apply]
  rcases x s with ⟨_ | a, t⟩ <;> rfl

/-- A run of a choice is a run of one of its branches. -/
theorem ite_cases {c : Prop} [Decidable c] {x y : Fallible σ α} {s : σ} {r : Option α × σ} (h : (if c then x else y) s = r) :
    c ∧ x s = r ∨ ¬c ∧ y s = r := by
  by_cases hc : c
  · rw [if_pos hc] at h
    exact .inl ⟨hc, h⟩
  · rw [if_neg hc] at h
    exact .inr ⟨hc, h⟩

@[simp] theorem pure_bind' (a : α) (f : α → Fallible σ β) (s : σ) : (pure a >>= f) s = f a s := rfl
@[simp] theorem modify_bind (g : σ → σ) (f : Unit → Fallible σ β) (s : σ) :
    (modify g >>= f) s = f () (g s) := rfl
@[simp] theorem gets_bind (g : σ → α) (f : α → Fallible σ β) (s : σ) :
    (gets g >>= f) s = f (g s) s := rfl
@[simp] theorem fail_bind (f : α → Fallible σ β) (s : σ) : (fail >>= f) s = (none, s) := rfl

@[simp] theorem ensure_apply (b : Bool) (s : σ) :
    ensure b s = (if b then some () else none, s) := by
  cases b <;> rfl

/-! ## Relations kept by every run -/

/-- Every run, successful or not, relates its first state to its last one. -/
def Keeps (R : σ → σ → Prop) (x : Fallible σ α) : Prop := ∀ s, R s (x s).2

theorem Keeps.pure {R : σ → σ → Prop} (hr : ∀ s, R s s) (a : α) :
    Keeps R (pure a : Fallible σ α) := fun s => hr s

theorem Keeps.fail {R : σ → σ → Prop} (hr : ∀ s, R s s) : Keeps R (fail : Fallible σ α) :=
  fun s => hr s

theorem Keeps.bind {R : σ → σ → Prop} (ht : ∀ s t u, R s t → R t u → R s u)
    {x : Fallible σ α} {f : α → Fallible σ β} (hx : Keeps R x) (hf : ∀ a, Keeps R (f a)) :
    Keeps R (x >>= f) := by
  intro s
  have h := hx s
  rw [bind_apply]
  rcases hxs : x s with ⟨_ | a, t⟩
  · rw [hxs] at h
    exact h
  · rw [hxs] at h
    exact ht _ _ _ h (hf a t)

/-! ## What successful runs return -/

/-- Whatever the state, a value returned satisfies `P`. -/
def Returns (P : α → Prop) (x : Fallible σ α) : Prop := ∀ s a t, x s = (some a, t) → P a

namespace Returns
variable {P : α → Prop} {Q : β → Prop}

theorem pure {a : α} (h : P a) : Returns P (pure a : Fallible σ α) := by
  intro s a' t hx
  cases hx
  exact h

theorem of_none {x : Fallible σ α} (h : ∀ s, (x s).1 = none) : Returns P x := by
  intro s a t hx
  have hn := h s
  rw [hx] at hn
  cases hn

theorem bind {x : Fallible σ α} {f : α → Fallible σ β} (hx : Returns P x) (hf : ∀ a, P a → Returns Q (f a)) :
    Returns Q (x >>= f) := by
  intro s b u h
  obtain ⟨a, t, hxs, hfs⟩ := bind_eq_some.mp h
  exact hf a (hx s a t hxs) t b u hfs

theorem any (x : Fallible σ α) : Returns (fun _ => True) x := fun _ _ _ _ => trivial

theorem orElse {x h : Fallible σ α} (hx : Returns P x) (hh : Returns P h) : Returns P (x.orElse h) := by
  intro s a t hxs
  unfold Fallible.orElse at hxs
  rcases hx' : x s with ⟨_ | a', s'⟩
  · rw [hx'] at hxs
    exact hh s' a t hxs
  · rw [hx'] at hxs
    cases hxs
    exact hx s a t hx'

theorem ite {c : Prop} [Decidable c] {x y : Fallible σ α} (hx : c → Returns P x) (hy : ¬c → Returns P y) :
    Returns P (if c then x else y) := by
  split
  next h => exact hx h
  next h => exact hy h

end Returns

/-! ## What failed runs leave -/

/-- A run that fails ends in a state with `P`. -/
def Leaves (P : σ → Prop) (x : Fallible σ α) : Prop := ∀ s t, x s = (none, t) → P t

namespace Leaves
variable {P : σ → Prop}

theorem pure (a : α) : Leaves P (pure a : Fallible σ α) := by
  intro s t h
  cases h

theorem bind {x : Fallible σ α} {f : α → Fallible σ β} (hx : Leaves P x) (hf : ∀ a, Leaves P (f a)) : Leaves P (x >>= f) := by
  intro s u h
  rcases bind_eq_none.mp h with h | ⟨a, t, -, h⟩
  · exact hx s u h
  · exact hf a t u h

/-- Only the handler can fail for good. -/
theorem orElse {h : Fallible σ α} (x : Fallible σ α) (hh : Leaves P h) : Leaves P (x.orElse h) := by
  intro s u hs
  unfold Fallible.orElse at hs
  rcases hx : x s with ⟨_ | a, t⟩
  · rw [hx] at hs
    exact hh t u hs
  · rw [hx] at hs
    cases hs

theorem ite {c : Prop} [Decidable c] {x y : Fallible σ α} (hx : Leaves P x) (hy : Leaves P y) :
    Leaves P (if c then x else y) := by
  split
  · exact hx
  · exact hy

theorem zoom {get : τ → σ} {set : σ → τ → τ} (hset : ∀ s t, get (set s t) = s) {x : Fallible σ α} (hx : Leaves P x) :
    Leaves (fun t => P (get t)) (Fallible.zoom get set x) := by
  intro t u h
  rcases hrun : x (get t) with ⟨o, s⟩
  unfold Fallible.zoom at h
  rw [hrun] at h
  cases h
  dsimp only
  rw [hset]
  exact hx _ _ hrun

end Leaves

/-! ## Successful runs compared -/

variable {γ δ : Type}

/-- Every success of `x` is matched by one of `y`, with related values, from related
states to related states. -/
def Simulates (R : σ → τ → Prop) (S : α → β → Prop) (x : Fallible σ α) (y : Fallible τ β) : Prop :=
  ∀ s t a s', R s t → x s = (some a, s') → ∃ b t', y t = (some b, t') ∧ S a b ∧ R s' t'

namespace Simulates
variable {R : σ → τ → Prop} {S : α → β → Prop} {T : γ → δ → Prop}

theorem pure {a : α} {b : β} (h : S a b) : Simulates R S (pure a) (pure b) := by
  intro s t a' s' hr hx
  cases hx
  exact ⟨b, t, rfl, h, hr⟩

theorem bind {x : Fallible σ α} {y : Fallible τ β} {f : α → Fallible σ γ} {g : β → Fallible τ δ}
    (hx : Simulates R S x y) (hf : ∀ a b, S a b → Simulates R T (f a) (g b)) :
    Simulates R T (x >>= f) (y >>= g) := by
  intro s t c s'' hr h
  obtain ⟨a, s', hxs, hfs⟩ := bind_eq_some.mp h
  obtain ⟨b, t', hyt, hs, hr'⟩ := hx s t a s' hr hxs
  obtain ⟨e, t'', hgt, hc, hr''⟩ := hf a b hs s' t' c s'' hr' hfs
  exact ⟨e, t'', bind_eq_some.mpr ⟨b, t', hyt, hgt⟩, hc, hr''⟩

theorem of_none {x : Fallible σ α} (y : Fallible τ β) (h : ∀ s, (x s).1 = none) : Simulates R S x y := by
  intro s t a s' _ hx
  have hn := h s
  rw [hx] at hn
  cases hn

theorem orElse {x h : Fallible σ α} {y k : Fallible τ β} (hx : Simulates R S x y) (hh : ∀ s, (h s).1 = none) :
    Simulates R S (x.orElse h) (y.orElse k) := by
  intro s t a s'' hr hxs
  unfold Fallible.orElse at hxs
  rcases hx' : x s with ⟨_ | a', s'⟩
  · rw [hx'] at hxs
    have hn := hh s'
    dsimp only at hxs
    rw [hxs] at hn
    cases hn
  · rw [hx'] at hxs
    cases hxs
    obtain ⟨b, t', hy, hs, hr'⟩ := hx s t a s'' hr hx'
    exact ⟨b, t', by rw [Fallible.orElse, hy], hs, hr'⟩

theorem ite {c : Prop} [Decidable c] {x x' : Fallible σ α} {y y' : Fallible τ β} (h : Simulates R S x y)
    (h' : Simulates R S x' y') : Simulates R S (if c then x else x') (if c then y else y') := by
  split
  · exact h
  · exact h'

end Simulates

/-! ## Runs that look at one thing of the state -/

variable {ω : Type}

/-- The value depends on what `obs` sees of the state, and a success leaves that as it was. -/
def Steady (obs : σ → ω) (x : Fallible σ α) : Prop :=
  ∀ s t, obs s = obs t → (x s).1 = (x t).1 ∧ ((x s).1.isSome → obs (x s).2 = obs s)

namespace Steady
variable {obs : σ → ω}

theorem pure (a : α) : Steady obs (pure a : Fallible σ α) := fun _ _ _ => ⟨rfl, fun _ => rfl⟩

theorem of_none {x : Fallible σ α} (h : ∀ s, (x s).1 = none) : Steady obs x := by
  intro s t _
  refine ⟨(h s).trans (h t).symm, fun hs => ?_⟩
  rw [h s] at hs
  cases hs

/-- A sequence, seen from any state that looks the same. -/
theorem bind_val {x : Fallible σ α} (hx : Steady obs x) {f : α → Fallible σ β} (hf : ∀ a, Steady obs (f a)) {s t : σ}
    (hst : obs s = obs t) : ((x >>= f) s).1 = (x t).1.bind fun a => (f a t).1 := by
  obtain ⟨hval, hkeep⟩ := hx s t hst
  rw [bind_apply]
  rcases hxs : x s with ⟨_ | a, s'⟩
  · rw [hxs] at hval
    rw [← hval]
    rfl
  · rw [hxs] at hval hkeep
    rw [← hval]
    exact (hf a s' t ((hkeep rfl).trans hst)).1

theorem bind {x : Fallible σ α} (hx : Steady obs x) {f : α → Fallible σ β} (hf : ∀ a, Steady obs (f a)) :
    Steady obs (x >>= f) := by
  intro s t hst
  refine ⟨(bind_val hx hf hst).trans (bind_val hx hf rfl).symm, fun hs => ?_⟩
  obtain ⟨-, hkeep⟩ := hx s s rfl
  rw [bind_apply] at hs ⊢
  rcases hxs : x s with ⟨_ | a, s'⟩
  · rw [hxs] at hs
    cases hs
  · rw [hxs] at hs hkeep
    exact ((hf a s' s' rfl).2 hs).trans (hkeep rfl)

theorem orElse_val {x h : Fallible σ α} (hh : ∀ s, (h s).1 = none) (s : σ) : ((x.orElse h) s).1 = (x s).1 := by
  unfold Fallible.orElse
  rcases x s with ⟨_ | a, s'⟩
  · exact hh s'
  · rfl

/-- A handler that fails changes no success. -/
theorem orElse {x h : Fallible σ α} (hx : Steady obs x) (hh : ∀ s, (h s).1 = none) : Steady obs (x.orElse h) := by
  intro s t hst
  rw [orElse_val hh, orElse_val hh]
  obtain ⟨hval, hkeep⟩ := hx s t hst
  refine ⟨hval, fun hs => ?_⟩
  unfold Fallible.orElse
  rcases hxs : x s with ⟨_ | a, s'⟩
  · rw [hxs] at hs
    cases hs
  · rw [hxs] at hkeep
    exact hkeep rfl

theorem ite {c : Prop} [Decidable c] {x y : Fallible σ α} (hx : Steady obs x) (hy : Steady obs y) :
    Steady obs (if c then x else y) := by
  split
  · exact hx
  · exact hy

end Steady

end Fallible
