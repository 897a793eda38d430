import Kcaldav.Library.Prog

/-! # Interleavings and the traces they leave

Programs over a shared state, of which some actions are visible as events. What may
happen to the state is said once, by a relation between the states before and after an
action; a fact about the state that no such action changes can be learnt by a program at
one of its actions and used at a later one. A program is followed with the events it has
left so far and with the facts it has learnt. From this, each action of an interleaving is
marked with the event that it is, and what a program has left by then is as it may be.
-/

/-- What is known of every action: the choices it is taken under, what is assumed of the
states, their invariant, and what it does to the state, with its event if it is visible. -/
structure Discipline (ε σ ω : Type) where
  allowed : ε → Prop
  assume : σ → Prop
  inv : σ → Prop
  step : Option ω → σ → σ → Prop
  step_refl : ∀ s, step none s s
  inv_step : ∀ {w s s'}, inv s → step w s s' → inv s'

/-- What holds along a list, counted up to its length, holds of any beginning of it. -/
theorem forall_take {α : Type} {p : List α → Prop} {l : List α} (h : ∀ n < l.length + 1, p (l.take n)) (n : ℕ) : p (l.take n) := by
  rcases Nat.lt_or_ge n (l.length + 1) with hlt | hge
  · exact h n hlt
  · have hall := h l.length (Nat.lt_succ_self _)
    rwa [List.take_length, ← List.take_of_length_le (Nat.le_of_succ_le hge)] at hall

/-! ## Events of a kind -/

/-- There is one of a kind at most. -/
def Once {ω : Type} (p : ω → Prop) (evs : List ω) : Prop := evs.Pairwise fun w w' => ¬(p w ∧ p w')

namespace Once
variable {ω : Type} {p : ω → Prop} {w : ω} {evs : List ω}

theorem nil : Once p [] := List.Pairwise.nil

theorem cons_of_not (hw : ¬p w) (h : Once p evs) : Once p (w :: evs) := List.pairwise_cons.mpr ⟨fun _ _ hboth => hw hboth.1, h⟩

theorem append_of_not {evs' : List ω} (hevs : ∀ w ∈ evs, ¬p w) (h : Once p evs') : Once p (evs ++ evs') := by
  induction evs with
  | nil => exact h
  | cons w evs ih => exact (ih fun w' hw' => hevs w' (List.mem_cons_of_mem w hw')).cons_of_not (hevs w List.mem_cons_self)

theorem of_none (h : ∀ w ∈ evs, ¬p w) : Once p evs := by
  have hall := append_of_not h (nil (p := p))
  rwa [List.append_nil] at hall

theorem singleton (p : ω → Prop) (w : ω) : Once p [w] := List.pairwise_singleton _ w

end Once

namespace Discipline
variable {ι ε σ ω α β γ : Type} (D : Discipline ε σ ω)

/-- A fact that no action changes. -/
def Stable (P : σ → Prop) : Prop := ∀ w s s', D.inv s → D.step w s s' → P s → P s'

/-- From a trace and a stable fact, every way on through the program is made of steps, its
traces are as `ok` says, and it leads to a trace, a fact and a result as given. -/
def Traces (ok : List ω → Prop) : List ω → (σ → Prop) → Prog ε σ β → (List ω → (σ → Prop) → β → Prop) → Prop
  | tr, P, .ret b, Q => Q tr P b
  | tr, P, .act f k, Q => ∀ e s, D.allowed e → D.assume s → D.inv s → P s →
      ∃ w P', D.step w s (f e s).2 ∧ D.Stable P' ∧ P' (f e s).2 ∧ ok (tr ++ w.toList) ∧
        Traces ok (tr ++ w.toList) P' (k (f e s).1) Q

variable {D}

namespace Stable

theorem unit : D.Stable fun _ => True := fun _ _ _ _ _ _ => trivial

theorem const (φ : Prop) : D.Stable fun _ => φ := fun _ _ _ _ _ h => h

theorem and {P P' : σ → Prop} (h : D.Stable P) (h' : D.Stable P') : D.Stable fun s => P s ∧ P' s :=
  fun w s s' hs hstep hp => ⟨h w s s' hs hstep hp.1, h' w s s' hs hstep hp.2⟩

theorem imp {φ : Prop} {P : σ → Prop} (h : φ → D.Stable P) : D.Stable fun s => φ → P s :=
  fun w s s' hs hstep hp hφ => h hφ w s s' hs hstep (hp hφ)

theorem all {κ : Type*} {P : κ → σ → Prop} (h : ∀ x, D.Stable (P x)) : D.Stable fun s => ∀ x, P x s :=
  fun w s s' hs hstep hp x => h x w s s' hs hstep (hp x)

end Stable

/-! ## Rules for programs -/

namespace Traces
variable {ok : List ω → Prop} {tr : List ω} {P : σ → Prop} {Q : List ω → (σ → Prop) → β → Prop}

theorem ret {b : β} (h : Q tr P b) : D.Traces ok tr P (.ret b) Q := h

/-- The rule of consequence. -/
theorem post {p : Prog ε σ β} {Q' : List ω → (σ → Prop) → β → Prop} (hp : D.Traces ok tr P p Q)
    (hQ : ∀ tr P b, Q tr P b → Q' tr P b) : D.Traces ok tr P p Q' := by
  induction p generalizing tr P with
  | ret b => exact hQ tr P b hp
  | act f k ih =>
    intro e s he ha hs hP
    obtain ⟨w, P', hstep, hstable, hP', hok, hk⟩ := hp e s he ha hs hP
    exact ⟨w, P', hstep, hstable, hP', hok, ih _ hk⟩

/-- Traces that are as the program makes them are so at its end. -/
theorem mono {ok' : List ω → Prop} {p : Prog ε σ β} (hp : D.Traces ok tr P p Q) (hok : ok tr) (h : ∀ t, ok t → ok' t) :
    D.Traces ok' tr P p fun tr P b => ok tr ∧ Q tr P b := by
  induction p generalizing tr P with
  | ret b => exact ⟨hok, hp⟩
  | act f k ih =>
    intro e s he ha hs hPs
    obtain ⟨w, P', hstep, hstable, hP', hok', hk⟩ := hp e s he ha hs hPs
    exact ⟨w, P', hstep, hstable, hP', h _ hok', ih _ hk hok'⟩

/-- What a program has left it has left. -/
theorem grows {p : Prog ε σ β} (hp : D.Traces ok tr P p Q) : D.Traces ok tr P p fun tr' P' b => tr ⊆ tr' ∧ Q tr' P' b := by
  induction p generalizing tr P with
  | ret b => exact ⟨fun _ h => h, hp⟩
  | act f k ih =>
    intro e s he ha hs hPs
    obtain ⟨w, P', hstep, hstable, hP', hok, hk⟩ := hp e s he ha hs hPs
    refine ⟨w, P', hstep, hstable, hP', hok, (ih _ hk).post fun tr' P'' b h => ⟨fun w' hw' => ?_, h.2⟩⟩
    exact h.1 (List.mem_append_left _ hw')

/-- The rule of sequencing. Between the two programs the trace is as it may be, and what
has been learnt is stable. -/
theorem bind {p : Prog ε σ β} {g : β → Prog ε σ γ} {R : List ω → (σ → Prop) → γ → Prop} (hok : ok tr) (hP : D.Stable P)
    (hp : D.Traces ok tr P p Q) (hg : ∀ tr P b, ok tr → D.Stable P → Q tr P b → D.Traces ok tr P (g b) R) :
    D.Traces ok tr P (p >>= g) R := by
  induction p generalizing tr P with
  | ret b => exact hg tr P b hok hP hp
  | act f k ih =>
    intro e s he ha hs hPs
    obtain ⟨w, P', hstep, hstable, hP', hok', hk⟩ := hp e s he ha hs hPs
    exact ⟨w, P', hstep, hstable, hP', hok', ih _ hok' hstable hk⟩

theorem atom {f : ε → σ → β × σ} (h : ∀ e s, D.allowed e → D.assume s → D.inv s → P s →
      ∃ w P', D.step w s (f e s).2 ∧ D.Stable P' ∧ P' (f e s).2 ∧ ok (tr ++ w.toList) ∧ Q (tr ++ w.toList) P' (f e s).1) :
    D.Traces ok tr P (.atom f) Q := h

/-- An action that is not visible, and what is learnt from its result. -/
theorem silent {f : ε → σ → β × σ} (hok : ok tr) (hP : D.Stable P) {F : β → σ → Prop} (hF : ∀ b, D.Stable (F b))
    (h : ∀ e s, D.allowed e → D.assume s → D.inv s → P s → D.step none s (f e s).2 ∧ F (f e s).1 (f e s).2)
    (hQ : ∀ b, Q tr (fun s => P s ∧ F b s) b) : D.Traces ok tr P (.atom f) Q := by
  intro e s he ha hs hPs
  obtain ⟨hstep, hfact⟩ := h e s he ha hs hPs
  refine ⟨none, fun s' => P s' ∧ F (f e s).1 s', hstep, hP.and (hF _), ⟨hP none s _ hs hstep hPs, hfact⟩, ?_, ?_⟩
  · rwa [Option.toList_none, List.append_nil]
  · rw [Option.toList_none, List.append_nil]
    exact hQ _

/-- An action that may be visible. -/
theorem visible {f : ε → σ → β × σ} (hok : ok tr) (hP : D.Stable P)
    (h : ∀ e s, D.allowed e → D.assume s → D.inv s → P s →
      (D.step none s (f e s).2 ∧ Q tr P (f e s).1) ∨
      ∃ w, D.step (some w) s (f e s).2 ∧ ok (tr ++ [w]) ∧ Q (tr ++ [w]) P (f e s).1) : D.Traces ok tr P (.atom f) Q := by
  refine atom fun e s he ha hs hPs => ?_
  rcases h e s he ha hs hPs with ⟨hstep, hQ⟩ | ⟨w, hstep, hokw, hQ⟩
  · refine ⟨none, P, hstep, hP, hP none s _ hs hstep hPs, ?_⟩
    rw [Option.toList_none, List.append_nil]
    exact ⟨hok, hQ⟩
  · exact ⟨some w, P, hstep, hP, hP (some w) s _ hs hstep hPs, hokw, hQ⟩

/-- An action that is not visible, of which nothing is learnt. -/
theorem quiet {f : ε → σ → β × σ} (hok : ok tr) (hP : D.Stable P)
    (h : ∀ e s, D.allowed e → D.assume s → D.inv s → P s → D.step none s (f e s).2) (hQ : ∀ b, Q tr P b) :
    D.Traces ok tr P (.atom f) Q :=
  visible hok hP fun e s he ha hs hPs => Or.inl ⟨h e s he ha hs hPs, hQ _⟩

theorem ite {c : Prop} [Decidable c] {p q : Prog ε σ β} (hp : c → D.Traces ok tr P p Q) (hq : ¬c → D.Traces ok tr P q Q) :
    D.Traces ok tr P (if c then p else q) Q := by
  split
  next hc => exact hp hc
  next hc => exact hq hc

end Traces

/-! ## Interleavings -/

variable (D) in
/-- A program is followed from a trace and from a fact, which holds. -/
structure Follows (ok : List ω → Prop) (Q : List ω → (σ → Prop) → α → Prop) (s : σ) (tr : List ω) (P : σ → Prop)
    (p : Prog ε σ α) : Prop where
  stable : D.Stable P
  holds : P s
  accepted : ok tr
  traces : D.Traces ok tr P p Q

variable {ok : ι → List ω → Prop} {Q : ι → List ω → (σ → Prop) → α → Prop} {past : ι → List ω} {P : ι → σ → Prop}
  {S : Sys ι ε σ α}

variable (D ok Q) in
/-- Every program is followed. -/
structure Tracked (past : ι → List ω) (P : ι → σ → Prop) (S : Sys ι ε σ α) : Prop where
  inv : D.inv S.shared
  follows : ∀ i, D.Follows (ok i) (Q i) S.shared (past i) (P i) (S.proc i)

/-- What a program that has ended has left, and its result. -/
theorem Tracked.ended (h : D.Tracked ok Q past P S) {i : ι} {a : α} (hret : S.proc i = .ret a) : Q i (past i) (P i) a := by
  have hi := (h.follows i).traces
  rwa [hret] at hi

variable [DecidableEq ι]

/-- One action of an interleaving is a step, which is silent where the program has ended;
the others are followed as before. -/
theorem Tracked.step (h : D.Tracked ok Q past P S) {x : ι × ε} (hx : D.allowed x.2) (ha : D.assume S.shared) :
    ∃ w P', D.step w S.shared (S.step x).shared ∧ (∀ a, S.proc x.1 = .ret a → w = none) ∧
      D.Tracked ok Q (Function.update past x.1 (past x.1 ++ w.toList)) P' (S.step x) := by
  have hi := (h.follows x.1).traces
  cases hp : S.proc x.1 with
  | ret a =>
    rw [Sys.step_of_ret hp]
    refine ⟨none, P, D.step_refl _, fun _ _ => rfl, ?_⟩
    rwa [Option.toList_none, List.append_nil, Function.update_eq_self]
  | act f k =>
    rw [hp] at hi
    obtain ⟨w, P', hstep, hstable, hP', hok, hk⟩ := hi x.2 S.shared hx ha h.inv (h.follows x.1).holds
    rw [Sys.step_of_act hp]
    refine ⟨w, Function.update P x.1 P', hstep, nofun, D.inv_step h.inv hstep, fun j => ?_⟩
    by_cases hj : j = x.1
    · subst hj
      simp only [Function.update_self]
      exact ⟨hstable, hP', hok, hk⟩
    · simp only [Function.update_of_ne hj]
      have hold := h.follows j
      exact ⟨hold.stable, hold.stable _ _ _ h.inv hstep hold.holds, hold.accepted, hold.traces⟩

/-- The events of one program among the first actions of a schedule, each of which leaves
the event that it is marked with. -/
def marksOf (sched : List (ι × ε)) (mark : ℕ → Option ω) (i : ι) (n : ℕ) : List ω :=
  (List.range n).filterMap fun k => if (sched[k]?).map Prod.fst = some i then mark k else none

section Marks
variable {sched : List (ι × ε)} {mark : ℕ → Option ω} {i : ι} {n : ℕ} {w : ω}

@[simp] theorem marksOf_zero : marksOf sched mark i 0 = [] := rfl

theorem mem_marksOf : w ∈ marksOf sched mark i n ↔ ∃ k < n, (∃ e, sched[k]? = some (i, e)) ∧ mark k = some w := by
  unfold marksOf
  rw [List.mem_filterMap]
  refine exists_congr fun k => ?_
  rw [List.mem_range]
  refine and_congr_right fun _ => ?_
  split
  next h =>
    obtain ⟨⟨j, e⟩, hk, rfl⟩ := Option.map_eq_some_iff.mp h
    exact ⟨fun hw => ⟨⟨e, hk⟩, hw⟩, fun hw => hw.2⟩
  next h =>
    refine ⟨nofun, fun ⟨⟨e, hk⟩, _⟩ => absurd ?_ h⟩
    rw [hk]
    rfl

/-- The events of a program stand in the order of its actions. -/
theorem rel_of_marksOf {R : ω → ω → Prop} (h : (marksOf sched mark i n).Pairwise R) {k k' : ℕ} (hlt : k < k') (hk' : k' < n)
    {e e' : ε} (hi : sched[k]? = some (i, e)) (hi' : sched[k']? = some (i, e')) {w' : ω} (hw : mark k = some w)
    (hw' : mark k' = some w') : R w w' := by
  unfold marksOf at h
  rw [List.pairwise_filterMap] at h
  have hrel := List.pairwise_iff_getElem.mp h k k' (by rw [List.length_range]; omega) (by rwa [List.length_range]) hlt
  rw [List.getElem_range, List.getElem_range] at hrel
  exact hrel w (by rw [hi]; exact (if_pos rfl).trans hw) w' (by rw [hi']; exact (if_pos rfl).trans hw')

/-- Of the actions of a program there is one at most that is an event of the kind. -/
theorem eq_of_once {p : ω → Prop} (h : Once p (marksOf sched mark i n)) {k k' : ℕ} (hk : k < n) (hk' : k' < n) {e e' : ε}
    (hi : sched[k]? = some (i, e)) (hi' : sched[k']? = some (i, e')) {w' : ω} (hw : mark k = some w) (hw' : mark k' = some w')
    (hp : p w) (hp' : p w') : k = k' := by
  rcases Nat.lt_trichotomy k k' with hlt | heq | hlt
  · exact absurd ⟨hp, hp'⟩ (rel_of_marksOf h hlt hk' hi hi' hw hw')
  · exact heq
  · exact absurd ⟨hp', hp⟩ (rel_of_marksOf h hlt hk hi' hi hw' hw)

/-- The first action comes before those of the rest. -/
theorem marksOf_cons (x : ι × ε) (mark : ℕ → Option ω) :
    marksOf (x :: sched) mark i (n + 1) =
      (if x.1 = i then mark 0 else none).toList ++ marksOf sched (fun k => mark (k + 1)) i n := by
  unfold marksOf
  rw [List.range_succ_eq_map, List.filterMap_cons, List.filterMap_map]
  simp only [List.getElem?_cons_zero, Option.map_some, Option.some.injEq]
  split
  next h => rw [h]; rfl
  next w h => rw [h]; rfl

end Marks

/-- Of an interleaving every action can be marked with the event that it is: each program
has at any time left events that it may leave, and none when it has ended. -/
theorem Tracked.marks (sched : List (ι × ε)) (hsched : ∀ x ∈ sched, D.allowed x.2) (h : D.Tracked ok Q past P S)
    (ha : ∀ n, D.assume (S.exec (sched.take n)).shared) :
    ∃ mark : ℕ → Option ω, (∀ n x, sched[n]? = some x →
        D.step (mark n) (S.exec (sched.take n)).shared (S.exec (sched.take (n + 1))).shared ∧
          ∀ a, (S.exec (sched.take n)).proc x.1 = .ret a → mark n = none) ∧
      ∀ n ≤ sched.length, ∃ P', D.Tracked ok Q (fun i => past i ++ marksOf sched mark i n) P' (S.exec (sched.take n)) := by
  induction sched generalizing past P S with
  | nil =>
    refine ⟨fun _ => none, nofun, fun n hn => ⟨P, ?_⟩⟩
    obtain rfl := Nat.le_zero.mp hn
    simpa using h
  | cons x sched ih =>
    obtain ⟨w, P', hstep, hended, htracked⟩ := h.step (hsched x List.mem_cons_self) (ha 0)
    obtain ⟨mark, hmark, hafter⟩ := ih (fun y hy => hsched y (List.mem_cons_of_mem x hy)) htracked fun n => ha (n + 1)
    refine ⟨fun n => Nat.casesOn n w mark, fun n y hy => ?_, fun n hn => ?_⟩
    · cases n with
      | zero =>
        obtain rfl : x = y := Option.some.inj hy
        exact ⟨hstep, hended⟩
      | succ n => exact hmark n y hy
    · cases n with
      | zero =>
        refine ⟨P, ?_⟩
        simpa using h
      | succ n =>
        obtain ⟨P'', hn'⟩ := hafter n (Nat.le_of_succ_le_succ hn)
        refine ⟨P'', ?_⟩
        have hpast : (fun i => Function.update past x.1 (past x.1 ++ w.toList) i ++ marksOf sched mark i n) =
            fun i => past i ++ marksOf (x :: sched) (fun n => Nat.casesOn n w mark) i (n + 1) := by
          funext i
          rw [marksOf_cons]
          by_cases hi : i = x.1
          · subst hi
            rw [Function.update_self, if_pos rfl, List.append_assoc]
            rfl
          · rw [Function.update_of_ne hi, if_neg (Ne.symm hi)]
            rfl
        rwa [hpast] at hn'

/-! ## What a sequence of states holds -/

end Discipline
