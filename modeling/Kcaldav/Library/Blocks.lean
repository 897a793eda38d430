import Mathlib.Data.List.Flatten
import Mathlib.Tactic.Common

/-! # Streams taken in blocks

A step is run over the blocks of a message that comes in pieces of any size. What has been
absorbed of a message is the state its whole blocks lead to and the part of a block that
is left; both are the same however the message is cut.
-/
variable {α σ : Type} (f : σ → List α → σ) (n : ℕ)

/-- The message is whole blocks, which lead to the state, and a rest that is shorter than a block. -/
structure Absorbed (s₀ : σ) (msg : List α) (s : σ) (rest : List α) : Prop where
  short : rest.length < n
  blocks : ∃ bs : List (List α), (∀ b ∈ bs, b.length = n) ∧ msg = bs.flatten ++ rest ∧ s = bs.foldl f s₀

/-- Take blocks from the front as long as there is a whole one, at most as many as given. -/
def takeBlocks : ℕ → σ → List α → σ × List α
  | 0, s, msg => (s, msg)
  | fuel + 1, s, msg => if n ≤ msg.length then takeBlocks fuel (f s (msg.take n)) (msg.drop n) else (s, msg)

/-- With enough of them, what is left is no block. -/
theorem takeBlocks_short {n : ℕ} (hn : 0 < n) (s : σ) {msg : List α} {fuel : ℕ} (hfuel : msg.length ≤ fuel) :
    (takeBlocks f n fuel s msg).2.length < n := by
  induction fuel generalizing s msg with
  | zero =>
    obtain rfl := List.length_eq_zero_iff.mp (Nat.le_zero.mp hfuel)
    exact hn
  | succ fuel ih =>
    unfold takeBlocks
    split
    next hle => exact ih _ (by rw [List.length_drop]; omega)
    next hlt => exact Nat.lt_of_not_le hlt

theorem length_flatten_of_block {n : ℕ} (bs : List (List α)) (hbs : ∀ b ∈ bs, b.length = n) : bs.flatten.length = bs.length * n := by
  induction bs with
  | nil => rw [List.flatten_nil, List.length_nil, List.length_nil, Nat.zero_mul]
  | cons b bs ih =>
    rw [List.flatten_cons, List.length_append, hbs b List.mem_cons_self, ih fun c hc => hbs c (List.mem_cons_of_mem b hc),
      List.length_cons, Nat.succ_mul, Nat.add_comm]

namespace Absorbed
variable {f n} {s₀ s s' : σ} {msg rest rest' x : List α}

theorem nil (hn : 0 < n) (s₀ : σ) : Absorbed f n s₀ [] s₀ [] := ⟨hn, [], nofun, rfl, rfl⟩

theorem length (h : Absorbed f n s₀ msg s rest) : rest.length = msg.length % n := by
  obtain ⟨hshort, bs, hbs, rfl, -⟩ := h
  rw [List.length_append, length_flatten_of_block bs hbs, Nat.mul_add_mod_self_right, Nat.mod_eq_of_lt hshort]

/-- What is left grows as long as it is no block. -/
theorem more (h : Absorbed f n s₀ msg s rest) (hx : (rest ++ x).length < n) : Absorbed f n s₀ (msg ++ x) s (rest ++ x) := by
  obtain ⟨-, bs, hbs, rfl, rfl⟩ := h
  exact ⟨hx, bs, hbs, List.append_assoc .., rfl⟩

/-- A block that is full is taken. -/
theorem block (h : Absorbed f n s₀ msg s rest) (hn : 0 < n) (hx : (rest ++ x).length = n) :
    Absorbed f n s₀ (msg ++ x) (f s (rest ++ x)) [] := by
  obtain ⟨-, bs, hbs, rfl, rfl⟩ := h
  refine ⟨hn, bs ++ [rest ++ x], fun b hb => ?_, by simp, by simp⟩
  rcases List.mem_append.mp hb with hb | hb
  · exact hbs b hb
  · rwa [List.mem_singleton.mp hb]

/-- What is absorbed of a message is its own. -/
theorem unique (h : Absorbed f n s₀ msg s rest) (h' : Absorbed f n s₀ msg s' rest') : s = s' ∧ rest = rest' := by
  obtain ⟨hshort, bs, hbs, hmsg, rfl⟩ := h
  obtain ⟨hshort', bs', hbs', hmsg', rfl⟩ := h'
  induction bs generalizing s₀ msg bs' with
  | nil =>
    cases bs' with
    | nil => exact ⟨rfl, by simpa using hmsg.symm.trans hmsg'⟩
    | cons b' bs' =>
      -- the message would be shorter than its first block
      have hlen := congrArg List.length (hmsg.symm.trans hmsg')
      have hb' := hbs' b' List.mem_cons_self
      simp at hlen
      omega
  | cons b bs ih =>
    have hb := hbs b List.mem_cons_self
    cases bs' with
    | nil =>
      have hlen := congrArg List.length (hmsg.symm.trans hmsg')
      simp at hlen
      omega
    | cons b' bs' =>
      have hb' := hbs' b' List.mem_cons_self
      have heq := hmsg.symm.trans hmsg'
      rw [List.flatten_cons, List.flatten_cons, List.append_assoc, List.append_assoc] at heq
      obtain ⟨rfl, hrest⟩ := List.append_inj heq (hb.trans hb'.symm)
      exact ih (fun c hc => hbs c (List.mem_cons_of_mem b hc)) rfl bs' (fun c hc => hbs' c (List.mem_cons_of_mem b hc)) hrest

/-- Where nothing is left of the message, what follows is taken in blocks. -/
theorem taken (h : Absorbed f n s₀ msg s []) (hn : 0 < n) (x : List α) {fuel : ℕ} (hfuel : x.length ≤ fuel) :
    Absorbed f n s₀ (msg ++ x) (takeBlocks f n fuel s x).1 (takeBlocks f n fuel s x).2 := by
  induction fuel generalizing msg s x with
  | zero =>
    obtain rfl := List.length_eq_zero_iff.mp (Nat.le_zero.mp hfuel)
    rwa [List.append_nil]
  | succ fuel ih =>
    unfold takeBlocks
    split
    next hle =>
      have hfirst : Absorbed f n s₀ (msg ++ x.take n) (f s (x.take n)) [] :=
        h.block hn (by rw [List.nil_append, List.length_take, Nat.min_eq_left hle])
      have hrest := ih hfirst (x.drop n) (by rw [List.length_drop]; omega)
      rwa [List.append_assoc, List.take_append_drop] at hrest
    next hlt => exact h.more (Nat.lt_of_not_le hlt)

end Absorbed
