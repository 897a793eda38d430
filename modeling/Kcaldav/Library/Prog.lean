import Mathlib.Logic.Function.Basic
import Mathlib.Tactic.Common

/-! # Programs over a shared state

A program is a sequence of atomic actions on a shared state, each of which also
depends on a choice of its surroundings. A program alone is run to its end under a
sequence of choices; several programs are interleaved, action by action, under a
schedule. To prove something of every interleaving, each program is shown to
follow a protocol: local states, the moves between them with what a move does to
the shared state, and the results allowed at the end. An invariant of the moves is
then an invariant of every interleaving.
-/

/-- A program that returns an `α`. -/
inductive Prog (ε σ α : Type) : Type 1
  | ret (a : α) : Prog ε σ α
  | act {β : Type} (f : ε → σ → β × σ) (k : β → Prog ε σ α) : Prog ε σ α

namespace Prog
variable {ε σ α β γ : Type}

def andThen : Prog ε σ α → (α → Prog ε σ β) → Prog ε σ β
  | ret a, g => g a
  | act f k, g => act f fun b => (k b).andThen g

instance : Monad (Prog ε σ) where
  pure := ret
  bind := andThen

/-- One atomic action. -/
def atom (f : ε → σ → α × σ) : Prog ε σ α := act f ret

@[simp] theorem pure_eq (a : α) : (pure a : Prog ε σ α) = ret a := rfl
@[simp] theorem ret_bind (a : α) (g : α → Prog ε σ β) : (ret a >>= g) = g a := rfl
@[simp] theorem atom_bind (f : ε → σ → α × σ) (g : α → Prog ε σ β) : (atom f >>= g) = act f g := rfl
@[simp] theorem act_bind {β : Type} (f : ε → σ → β × σ) (k : β → Prog ε σ α) (g : α → Prog ε σ γ) :
    (act f k >>= g) = act f fun b => k b >>= g := rfl

/-- The result of a program that has ended. -/
def value : Prog ε σ α → Option α
  | ret a => some a
  | act _ _ => none

theorem value_eq_some {p : Prog ε σ α} {a : α} : p.value = some a ↔ p = ret a := by
  cases p with
  | ret b => simp [value]
  | act f k => simp [value]

/-! ## One program alone -/

/-- Run to the end: the result, the state reached and the choices left. -/
def run : Prog ε σ α → (ℕ → ε) → σ → α × σ × (ℕ → ε)
  | ret a, cs, s => (a, s, cs)
  | act f k, cs, s => (k (f (cs 0) s).1).run (fun n => cs (n + 1)) (f (cs 0) s).2

@[simp] theorem run_ret (a : α) (cs : ℕ → ε) (s : σ) : (ret a : Prog ε σ α).run cs s = (a, s, cs) := rfl
@[simp] theorem run_act {β : Type} (f : ε → σ → β × σ) (k : β → Prog ε σ α) (cs : ℕ → ε) (s : σ) :
    (act f k).run cs s = (k (f (cs 0) s).1).run (fun n => cs (n + 1)) (f (cs 0) s).2 := rfl
@[simp] theorem run_atom (f : ε → σ → α × σ) (cs : ℕ → ε) (s : σ) :
    (atom f).run cs s = ((f (cs 0) s).1, (f (cs 0) s).2, fun n => cs (n + 1)) := rfl

theorem run_bind (p : Prog ε σ α) (g : α → Prog ε σ β) (cs : ℕ → ε) (s : σ) :
    (p >>= g).run cs s = (g (p.run cs s).1).run (p.run cs s).2.2 (p.run cs s).2.1 := by
  induction p generalizing cs s with
  | ret a => rfl
  | act f k ih =>
    change (act f fun b => k b >>= g).run cs s = _
    rw [run_act, run_act]
    exact ih _ _ _

theorem run_bind_ret (p : Prog ε σ α) (g : α → β) (cs : ℕ → ε) (s : σ) :
    (p >>= fun a => ret (g a)).run cs s = (g (p.run cs s).1, (p.run cs s).2) := by
  rw [run_bind, run_ret]

/-! ## Preconditions and postconditions -/

/-- Every run from a state as required ends with a result and a state as promised. -/
def Ensures (P : σ → Prop) (p : Prog ε σ α) (Q : α → σ → Prop) : Prop :=
  ∀ cs s, P s → Q (p.run cs s).1 (p.run cs s).2.1

namespace Ensures
variable {P : σ → Prop} {p : Prog ε σ α} {Q : α → σ → Prop} {R : β → σ → Prop}

theorem ret {a : α} (h : ∀ s, P s → Q a s) : Ensures P (Prog.ret a : Prog ε σ α) Q := fun _ s hs => h s hs

theorem atom {f : ε → σ → α × σ} (h : ∀ e s, P s → Q (f e s).1 (f e s).2) : Ensures P (Prog.atom f) Q :=
  fun cs s hs => h (cs 0) s hs

/-- The rule of sequencing. -/
theorem bind {g : α → Prog ε σ β} (hp : Ensures P p Q) (hg : ∀ a, Ensures (Q a) (g a) R) : Ensures P (p >>= g) R := by
  intro cs s hs
  rw [run_bind]
  exact hg _ _ _ (hp cs s hs)

/-- The rule of consequence. -/
theorem imp {P' : σ → Prop} {Q' : α → σ → Prop} (hp : Ensures P p Q) (hpre : ∀ s, P' s → P s)
    (hpost : ∀ a s, Q a s → Q' a s) : Ensures P' p Q' := fun cs s hs => hpost _ _ (hp cs s (hpre s hs))

theorem post {Q' : α → σ → Prop} (hp : Ensures P p Q) (hpost : ∀ a s, Q a s → Q' a s) : Ensures P p Q' :=
  hp.imp (fun _ hs => hs) hpost

/-- What a result implies whatever the state may be assumed in the rest. -/
theorem pure_pre {φ : Prop} (h : φ → Ensures P p Q) : Ensures (fun s => φ ∧ P s) p Q :=
  fun cs s hs => h hs.1 cs s hs.2

theorem ite {c : Prop} [Decidable c] {q : Prog ε σ α} (hp : c → Ensures P p Q) (hq : ¬c → Ensures P q Q) :
    Ensures P (if c then p else q) Q := by
  split
  next hc => exact hp hc
  next hc => exact hq hc

end Ensures

end Prog

/-! ## Interleavings -/

/-- Programs that share a state. -/
structure Sys (ι ε σ α : Type) where
  shared : σ
  proc : ι → Prog ε σ α

namespace Sys
variable {ι ε σ α : Type} [DecidableEq ι]

/-- One action of one program; a program that has ended stays as it is. -/
def step (S : Sys ι ε σ α) (x : ι × ε) : Sys ι ε σ α :=
  match S.proc x.1 with
  | .ret _ => S
  | .act f k =>
    { shared := (f x.2 S.shared).2, proc := Function.update S.proc x.1 (k (f x.2 S.shared).1) }

/-- The state after a schedule. -/
def exec (S : Sys ι ε σ α) (sched : List (ι × ε)) : Sys ι ε σ α := sched.foldl step S

@[simp] theorem exec_nil (S : Sys ι ε σ α) : S.exec [] = S := rfl
@[simp] theorem exec_cons (S : Sys ι ε σ α) (x : ι × ε) (sched : List (ι × ε)) :
    S.exec (x :: sched) = (S.step x).exec sched := rfl

theorem exec_append (S : Sys ι ε σ α) (s t : List (ι × ε)) : S.exec (s ++ t) = (S.exec s).exec t :=
  List.foldl_append

theorem step_of_ret {S : Sys ι ε σ α} {x : ι × ε} {a : α} (h : S.proc x.1 = .ret a) : S.step x = S := by
  simp only [step, h]

theorem step_of_act {S : Sys ι ε σ α} {x : ι × ε} {β : Type} {f : ε → σ → β × σ} {k : β → Prog ε σ α}
    (h : S.proc x.1 = .act f k) :
    S.step x = { shared := (f x.2 S.shared).2, proc := Function.update S.proc x.1 (k (f x.2 S.shared).1) } := by
  simp only [step, h]

/-- The result of the program that an action ends, if it ends one. -/
def result (S : Sys ι ε σ α) (x : ι × ε) : Option α :=
  match S.proc x.1 with
  | .ret _ => none
  | .act f k =>
    match k (f x.2 S.shared).1 with
    | .ret a => some a
    | .act _ _ => none

/-- The programs that end with a result as given, in the order in which they do. -/
def endings (p : α → Bool) (S : Sys ι ε σ α) : List (ι × ε) → List ι
  | [] => []
  | x :: sched => if (S.result x).any p then x.1 :: (S.step x).endings p sched else (S.step x).endings p sched

theorem proc_of_result {S : Sys ι ε σ α} {x : ι × ε} {a : α} (h : S.result x = some a) :
    (S.step x).proc x.1 = .ret a := by
  cases hp : S.proc x.1 with
  | ret b =>
    rw [result, hp] at h
    cases h
  | act f k =>
    simp only [result, hp] at h
    rw [step_of_act hp]
    dsimp only
    rw [Function.update_self]
    cases hk : k (f x.2 S.shared).1 with
    | ret b =>
      rw [hk] at h
      cases h
      rfl
    | act g m =>
      rw [hk] at h
      cases h

omit [DecidableEq ι] in
/-- A program that has ended takes no action any more. -/
theorem result_of_ret {S : Sys ι ε σ α} {x : ι × ε} {a : α} (h : S.proc x.1 = .ret a) : S.result x = none := by
  simp only [result, h]

end Sys

/-! ## Protocols -/

/-- What programs over a shared state may do: the choices they are run under, the
moves from local state to local state, and the results at the end. -/
structure Protocol (ι ε σ α L : Type) where
  allowed : ι → ε → Prop
  move : ι → L → σ → L → σ → Prop
  ends : ι → L → α → Prop

namespace Protocol
variable {ι ε σ α L : Type} (P : Protocol ι ε σ α L)

/-- From a local state every way on through the program is made of moves, and leads to
a local state and a result as given. -/
def Does {β : Type} (i : ι) (l : L) : Prog ε σ β → (L → β → Prop) → Prop
  | .ret b, Q => Q l b
  | .act f k, Q => ∀ e s, P.allowed i e → ∃ l', P.move i l s l' (f e s).2 ∧ Does i l' (k (f e s).1) Q

/-- The program is at a local state, and every way on is a move of the protocol. -/
def Follows (i : ι) (l : L) (p : Prog ε σ α) : Prop := P.Does i l p (P.ends i)

/-- Every program is at its local state. -/
def Tracked (ls : ι → L) (S : Sys ι ε σ α) : Prop := ∀ i, P.Follows i (ls i) (S.proc i)

variable {P} {β γ : Type} {i : ι} {l : L}

theorem Does.ret {b : β} {Q : L → β → Prop} (h : Q l b) : P.Does i l (.ret b) Q := h

theorem Does.atom {f : ε → σ → β × σ} {Q : L → β → Prop}
    (h : ∀ e s, P.allowed i e → ∃ l', P.move i l s l' (f e s).2 ∧ Q l' (f e s).1) : P.Does i l (Prog.atom f) Q := h

/-- The rule of sequencing. -/
theorem Does.bind {p : Prog ε σ β} {g : β → Prog ε σ γ} {Q : L → β → Prop} {R : L → γ → Prop}
    (hp : P.Does i l p Q) (hg : ∀ l b, Q l b → P.Does i l (g b) R) : P.Does i l (p >>= g) R := by
  induction p generalizing l with
  | ret b => exact hg l b hp
  | act f k ih =>
    intro e s he
    obtain ⟨l', hmove, hk⟩ := hp e s he
    exact ⟨l', hmove, ih _ hk⟩

variable [DecidableEq ι]

/-- One action of an interleaving is no action or a move. -/
theorem Tracked.step {ls : ι → L} {S : Sys ι ε σ α} (h : P.Tracked ls S) (x : ι × ε) (hx : P.allowed x.1 x.2) :
    (S.step x = S ∧ S.result x = none) ∨ ∃ l', P.move x.1 (ls x.1) S.shared l' (S.step x).shared ∧
      P.Tracked (Function.update ls x.1 l') (S.step x) := by
  have hi := h x.1
  cases hp : S.proc x.1 with
  | ret a => exact Or.inl ⟨Sys.step_of_ret hp, Sys.result_of_ret hp⟩
  | act f k =>
    rw [hp] at hi
    obtain ⟨l', hmove, hfollows⟩ := hi x.2 S.shared hx
    rw [Sys.step_of_act hp]
    refine Or.inr ⟨l', hmove, fun j => ?_⟩
    by_cases hj : j = x.1
    · subst hj
      simp only [Function.update_self]
      exact hfollows
    · simpa [hj] using h j

/-- An invariant of the moves holds after every schedule of allowed choices. -/
theorem Tracked.exec {Inv : σ → (ι → L) → Prop}
    (hmove : ∀ s ls i l' s', Inv s ls → P.move i (ls i) s l' s' → Inv s' (Function.update ls i l'))
    (sched : List (ι × ε)) (hsched : ∀ x ∈ sched, P.allowed x.1 x.2) {ls : ι → L} {S : Sys ι ε σ α}
    (h : P.Tracked ls S) (hinv : Inv S.shared ls) :
    ∃ ls', P.Tracked ls' (S.exec sched) ∧ Inv (S.exec sched).shared ls' := by
  induction sched generalizing ls S with
  | nil => exact ⟨ls, h, hinv⟩
  | cons x sched ih =>
    have htail := fun y hy => hsched y (List.mem_cons_of_mem x hy)
    rcases h.step x (hsched x List.mem_cons_self) with ⟨hstay, -⟩ | ⟨l', hm, htracked⟩
    · rw [Sys.exec_cons, hstay]
      exact ih htail h hinv
    · rw [Sys.exec_cons]
      exact ih htail htracked (hmove _ _ _ _ _ hinv hm)

/-- The order of endings: where each new ending is related to all that came before,
as its local state shows, all endings are related in their order. -/
theorem Tracked.endings {Inv : σ → (ι → L) → Prop} (Good : L → Prop) {R : ι → ι → Prop} {p : α → Bool}
    (hmove : ∀ s ls i l' s', Inv s ls → P.move i (ls i) s l' s' → Inv s' (Function.update ls i l'))
    (hkeep : ∀ i l s l' s', P.move i l s l' s' → Good l → Good l')
    (hend : ∀ s ls i l' s' a, Inv s ls → P.move i (ls i) s l' s' → P.ends i l' a → p a →
      Good l' ∧ ∀ j, Good (ls j) → R j i)
    (sched : List (ι × ε)) (hsched : ∀ x ∈ sched, P.allowed x.1 x.2) {ls : ι → L} {S : Sys ι ε σ α}
    (h : P.Tracked ls S) (hinv : Inv S.shared ls) :
    (S.endings p sched).Pairwise R ∧ ∀ i, Good (ls i) → ∀ j ∈ S.endings p sched, R i j := by
  induction sched generalizing ls S with
  | nil => exact ⟨List.Pairwise.nil, fun _ _ _ hj => nomatch hj⟩
  | cons x sched ih =>
    have htail := fun y hy => hsched y (List.mem_cons_of_mem x hy)
    unfold Sys.endings
    rcases h.step x (hsched x List.mem_cons_self) with ⟨hstay, hnone⟩ | ⟨l', hm, htracked⟩
    · rw [hstay, hnone]
      exact ih htail h hinv
    · obtain ⟨hpair, hlater⟩ := ih htail htracked (hmove _ _ _ _ _ hinv hm)
      have hgood : ∀ i, Good (ls i) → Good (Function.update ls x.1 l' i) := by
        intro i hi
        by_cases hix : i = x.1
        · subst hix
          rw [Function.update_self]
          exact hkeep _ _ _ _ _ hm hi
        · rwa [Function.update_of_ne hix]
      split
      next hany =>
        obtain ⟨a, hres, ha⟩ : ∃ a, S.result x = some a ∧ p a := by
          cases hr : S.result x with
          | none => simp [hr] at hany
          | some a => exact ⟨a, rfl, by simpa [hr] using hany⟩
        have hends := htracked x.1
        rw [Sys.proc_of_result hres, Function.update_self] at hends
        obtain ⟨hnew, hbefore⟩ := hend _ _ _ _ _ a hinv hm hends ha
        refine ⟨List.pairwise_cons.mpr ⟨fun j hj => ?_, hpair⟩, fun i hi j hj => ?_⟩
        · exact hlater x.1 (by rwa [Function.update_self]) j hj
        · rcases List.mem_cons.mp hj with rfl | hj
          · exact hbefore i hi
          · exact hlater i (hgood i hi) j hj
      · exact ⟨hpair, fun i hi => hlater i (hgood i hi)⟩

end Protocol

/-! ## Load, then write

Programs that load a value at one of their actions and write it back, edited, at a
later one. Where one has written before the other loads, both edits take effect.
-/

/-- A value in the shared state, with the invariant under which it is there and the
choices under which programs work on it. -/
structure Cell (ε σ V : Type) where
  allowed : ε → Prop
  inv : σ → Prop
  view : σ → V

/-- The action at which a program loads the value, the one at which it writes it back,
and what it makes of it in between. -/
structure Script (V : Type) where
  load : ℕ
  write : ℕ
  edit : V → V

namespace Cell
variable {ε σ V α β : Type}

/-- After `n` actions, with the value `c` at hand, the program keeps to the script. -/
def Runs (A : Cell ε σ V) (K : Script V) : ℕ → V → Prog ε σ α → (ℕ → V → α → Prop) → Prop
  | n, c, .ret a, Q => Q n c a
  | n, c, .act f k, Q => ∀ e s, A.allowed e → A.inv s → A.inv (f e s).2 ∧
      A.view (f e s).2 = (if n = K.write then K.edit c else A.view s) ∧
      A.Runs K (n + 1) (if n = K.load then A.view s else c) (k (f e s).1) Q

variable {A : Cell ε σ V} {K : Script V} {n : ℕ} {c : V}

theorem Runs.ret {a : α} {Q : ℕ → V → α → Prop} (h : Q n c a) : A.Runs K n c (.ret a) Q := h

theorem Runs.atom {f : ε → σ → α × σ} {Q : ℕ → V → α → Prop}
    (h : ∀ e s, A.allowed e → A.inv s → A.inv (f e s).2 ∧
      A.view (f e s).2 = (if n = K.write then K.edit c else A.view s) ∧
      Q (n + 1) (if n = K.load then A.view s else c) (f e s).1) : A.Runs K n c (Prog.atom f) Q := h

/-- The rule of sequencing. -/
theorem Runs.bind {p : Prog ε σ α} {g : α → Prog ε σ β} {Q : ℕ → V → α → Prop} {R : ℕ → V → β → Prop}
    (hp : A.Runs K n c p Q) (hg : ∀ n c a, Q n c a → A.Runs K n c (g a) R) : A.Runs K n c (p >>= g) R := by
  induction p generalizing n c with
  | ret a => exact hg n c a hp
  | act f k ih =>
    intro e s he hs
    obtain ⟨hinv, hview, hk⟩ := hp e s he hs
    exact ⟨hinv, hview, ih _ hk⟩

/-- The program keeps to the script to its end, at which it has written. -/
def Follows (A : Cell ε σ V) (K : Script V) (n : ℕ) (c : V) (p : Prog ε σ α) : Prop :=
  A.Runs K n c p fun n _ _ => K.write < n

variable {ι : Type} [DecidableEq ι]

/-- The number of actions of a program in a schedule. -/
def actions (i : ι) (sched : List (ι × ε)) : ℕ := (sched.map Prod.fst).count i

theorem actions_cons (i : ι) (x : ι × ε) (sched : List (ι × ε)) :
    actions i (x :: sched) = (if x.1 = i then 1 else 0) + actions i sched := by
  unfold actions
  rw [List.map_cons, List.count_cons, Nat.add_comm]
  simp

/-- The invariant holds and each program is where its script says. -/
structure Tracked (A : Cell ε σ V) (K : ι → Script V) (n : ι → ℕ) (c : ι → V) (S : Sys ι ε σ α) : Prop where
  inv : A.inv S.shared
  follows : ∀ i, A.Follows (K i) (n i) (c i) (S.proc i)

variable {K : ι → Script V} {n : ι → ℕ} {c : ι → V} {S : Sys ι ε σ α}

/-- One action of an interleaving, as the script of its program has it. -/
theorem Tracked.step (h : A.Tracked K n c S) {x : ι × ε} (hx : A.allowed x.2) :
    ∃ c', A.Tracked K (fun i => (if x.1 = i then 1 else 0) + n i) c' (S.step x) ∧
      (∀ i, x.1 ≠ i → c' i = c i) ∧
      (n x.1 ≤ (K x.1).write → c' x.1 = if n x.1 = (K x.1).load then A.view S.shared else c x.1) ∧
      A.view (S.step x).shared = if n x.1 = (K x.1).write then (K x.1).edit (c x.1) else A.view S.shared := by
  have hi := h.follows x.1
  cases hp : S.proc x.1 with
  | ret a =>
    rw [hp] at hi
    have hlt : (K x.1).write < n x.1 := hi
    rw [Sys.step_of_ret hp]
    refine ⟨c, ⟨h.inv, fun j => ?_⟩, fun _ _ => rfl, fun hle => absurd hlt (Nat.not_lt.mpr hle), ?_⟩
    · by_cases hj : x.1 = j
      · subst hj
        rw [if_pos rfl, hp]
        exact Nat.lt_add_left 1 hlt
      · rw [if_neg hj, Nat.zero_add]
        exact h.follows j
    · rw [if_neg (Nat.ne_of_gt hlt)]
  | act f k =>
    rw [hp] at hi
    obtain ⟨hinv, hview, hk⟩ := hi x.2 S.shared hx h.inv
    rw [Sys.step_of_act hp]
    refine ⟨Function.update c x.1 _, ⟨hinv, fun j => ?_⟩, fun j hj => Function.update_of_ne (Ne.symm hj) _ _,
      fun _ => Function.update_self .., hview⟩
    by_cases hj : x.1 = j
    · subst hj
      simp only [if_pos, Function.update_self]
      rw [Nat.add_comm]
      exact hk
    · simp only [if_neg hj, Nat.zero_add, Function.update_of_ne (Ne.symm hj)]
      exact h.follows j

/-- Through a schedule in which no other program writes, the value is as it was until the
program writes it, and then as edited. -/
theorem Tracked.alone {k : ι} {v : V} (hload : (K k).load < (K k).write) (sched : List (ι × ε))
    (hallowed : ∀ x ∈ sched, A.allowed x.2) {n : ι → ℕ} {c : ι → V} {S : Sys ι ε σ α} (h : A.Tracked K n c S)
    (hquiet : ∀ o, o ≠ k → n o + actions o sched ≤ (K o).write ∨ (K o).write < n o)
    (hview : A.view S.shared = if (K k).write < n k then (K k).edit v else v)
    (hcopy : (K k).load < n k → n k ≤ (K k).write → c k = v) :
    ∃ c', A.Tracked K (fun i => n i + actions i sched) c' (S.exec sched) ∧
      A.view (S.exec sched).shared = if (K k).write < n k + actions k sched then (K k).edit v else v := by
  induction sched generalizing n c S with
  | nil => exact ⟨c, h, hview⟩
  | cons x sched ih =>
    obtain ⟨c', h', hother, hself, hview'⟩ := h.step (hallowed x List.mem_cons_self)
    have hcount : ∀ i, (if x.1 = i then 1 else 0) + n i + actions i sched = n i + actions i (x :: sched) := by
      intro i
      rw [actions_cons]
      omega
    simp only [← hcount]
    rw [Sys.exec_cons]
    refine ih (fun y hy => hallowed y (List.mem_cons_of_mem x hy)) h' (fun o ho => ?_) ?_ ?_
    · rw [hcount]
      exact (hquiet o ho).imp_right fun hlt => Nat.lt_add_left _ hlt
    · rw [hview']
      by_cases hx : x.1 = k
      · subst hx
        rw [if_pos rfl]
        split
        next heq => rw [hcopy (by omega) (by omega), if_pos (by omega)]
        next hne =>
          rw [hview]
          by_cases hlt : (K x.1).write < n x.1
          · rw [if_pos hlt, if_pos (by omega)]
          · rw [if_neg hlt, if_neg (by omega)]
      · have hne : n x.1 ≠ (K x.1).write := by
          have hone : actions x.1 (x :: sched) = 1 + actions x.1 sched := by rw [actions_cons, if_pos rfl]
          rcases hquiet x.1 hx with hq | hq <;> omega
        rw [if_neg hne, hview, if_neg hx, Nat.zero_add]
    · intro hlt hle
      by_cases hx : x.1 = k
      · subst hx
        rw [if_pos rfl] at hlt hle
        rw [hself (by omega)]
        split
        next heq => rw [hview, if_neg (by omega)]
        next hne => exact hcopy (by omega) (by omega)
      · rw [if_neg hx, Nat.zero_add] at hlt hle
        rw [hother k hx]
        exact hcopy hlt hle

/-- Of two programs one has written before the other loads: both edits take effect. -/
theorem Tracked.both {K : Bool → Script V} {c : Bool → V} {S : Sys Bool ε σ α} (h : A.Tracked K (fun _ => 0) c S)
    (hload : ∀ i, (K i).load < (K i).write) {i : Bool} {s t : List (Bool × ε)} (hs : ∀ x ∈ s, A.allowed x.2)
    (ht : ∀ x ∈ t, A.allowed x.2) (hfirst : (K i).write < actions i s) (hthen : actions (!i) s ≤ (K !i).load)
    {a : α} (hdone : (S.exec (s ++ t)).proc (!i) = .ret a) :
    A.view (S.exec (s ++ t)).shared = (K !i).edit ((K i).edit (A.view S.shared)) := by
  have hnot : ∀ o k : Bool, o ≠ k → o = !k := by decide
  have hlater := hload (!i)
  have hquiet₁ : ∀ o, o ≠ i → 0 + actions o s ≤ (K o).write ∨ (K o).write < 0 := by
    intro o ho
    obtain rfl := hnot o i ho
    exact Or.inl (by omega)
  obtain ⟨c₁, h₁, hview₁⟩ := Tracked.alone (k := i) (v := A.view S.shared) (hload i) s hs h hquiet₁ rfl
    fun hlt => absurd hlt (Nat.not_lt_zero _)
  simp only [Nat.zero_add] at h₁ hview₁
  rw [if_pos hfirst] at hview₁
  have hquiet₂ : ∀ o, o ≠ !i → actions o s + actions o t ≤ (K o).write ∨ (K o).write < actions o s := by
    intro o ho
    obtain rfl := hnot o (!i) ho
    rw [Bool.not_not]
    exact Or.inr hfirst
  obtain ⟨c₂, h₂, hview₂⟩ := Tracked.alone (k := !i) (v := (K i).edit (A.view S.shared)) hlater t ht h₁ hquiet₂
    (by rw [if_neg (by omega)]; exact hview₁) fun hlt => absurd hthen (Nat.not_le.mpr hlt)
  rw [Sys.exec_append] at hdone ⊢
  have hend := h₂.follows (!i)
  rw [hdone] at hend
  have hwrote : (K !i).write < actions (!i) s + actions (!i) t := hend
  rw [hview₂, if_pos hwrote]

end Cell
