import Kcaldav.Ical.Duration

/-! # Values and a stale error number

The number parsers read `errno` without clearing it, so a stale `ERANGE` can turn
a value away; a clear one cannot. Every value parser that succeeds under some
`errno` succeeds with the same value under a clearer one, the duration parser with
the same buffer.
-/
namespace Kcaldav
open CString Fallible

variable {C : Libc} {α β : Type}

/-- Success carries over between any two states under which number conversions do. -/
def Uniform (C : Libc) (x : Value α) : Prop := ∀ D : Diag → Diag → Prop,
  (∀ {β : Type} (r : Converted β) (extreme inBounds : β → Bool) (msg : String),
    Simulates D Eq (icalNumber C r extreme inBounds msg) (icalNumber C r extreme inBounds msg)) → Simulates D Eq x x

namespace Uniform

theorem pure (a : α) : Uniform C (pure a : Value α) := fun _ _ => Simulates.pure rfl

theorem bind {x : Value α} {f : α → Value β} (hx : Uniform C x) (hf : ∀ a, Uniform C (f a)) : Uniform C (x >>= f) :=
  fun D hD => Simulates.bind (hx D hD) fun a _ h => h ▸ hf a D hD

theorem icalFail_none (msg : String) (d : Diag) : (icalFail msg d : Option α × Diag).1 = none := rfl

theorem icalFail (msg : String) : Uniform C (icalFail msg : Value α) :=
  fun _ _ => Simulates.of_none _ (icalFail_none msg)

theorem orReport {x : Value α} (hx : Uniform C x) (msg : String) : Uniform C (orReport x msg) :=
  fun D hD => Simulates.orElse (hx D hD) (icalFail_none msg)

theorem ensure (b : Bool) : Uniform C (Fallible.ensure b) := by
  cases b
  · exact fun _ _ => Simulates.of_none _ fun _ => rfl
  · exact pure ()

theorem ite {c : Prop} [Decidable c] {x y : Value α} (hx : Uniform C x) (hy : Uniform C y) :
    Uniform C (if c then x else y) := fun D hD => Simulates.ite (hx D hD) (hy D hD)

end Uniform

theorem icalNumber_uniform (r : Converted α) (extreme inBounds : α → Bool) (msg : String) :
    Uniform C (icalNumber C r extreme inBounds msg) := fun _ hD => hD r extreme inBounds msg

/-- The second `errno` is `ERANGE` only where the first is. -/
def Clearer (d₁ d₂ : Diag) : Prop := d₂.erange → d₁.erange

/-- Success carries over to a clearer `errno`, with the same value. -/
def Tame (x : Value α) : Prop := Simulates Clearer Eq x x

/-! ## Numbers -/

theorem convErrno_clearer {d₁ d₂ : Diag} (h : Clearer d₁ d₂) (e : Bool) :
    (C.errnoAt d₂.erange || e) → (C.errnoAt d₁.erange || e) := by
  unfold Clearer at h
  cases h₂ : d₂.erange with
  | false =>
    rw [C.errnoAt_false]
    cases e <;> simp
  | true =>
    rw [h h₂]
    exact id

theorem icalNumber_apply (r : Converted α) (extreme inBounds : α → Bool) (msg : String) (d : Diag) :
    ((icalNumber C r extreme inBounds msg d).1 =
      if r.moved && r.rest.isEmpty && !(extreme r.value && (C.errnoAt d.erange || r.erange)) && inBounds r.value
        then some r.value else none) ∧
    (icalNumber C r extreme inBounds msg d).2.erange = (C.errnoAt d.erange || r.erange) := by
  unfold icalNumber
  rw [Fallible.bind_apply]
  simp only [convErrno]
  cases r.moved <;> cases r.rest.isEmpty <;>
    cases extreme r.value && (C.errnoAt d.erange || r.erange) <;> cases inBounds r.value <;> exact ⟨rfl, rfl⟩

theorem icalNumber_clearer (r : Converted α) (extreme inBounds : α → Bool) (msg : String) {d₁ d₂ : Diag}
    (h : Clearer d₁ d₂) : Clearer (icalNumber C r extreme inBounds msg d₁).2
      (icalNumber C r extreme inBounds msg d₂).2 := by
  unfold Clearer
  rw [(icalNumber_apply r extreme inBounds msg d₁).2, (icalNumber_apply r extreme inBounds msg d₂).2]
  exact convErrno_clearer h r.erange

theorem icalNumber_tame (r : Converted α) (extreme inBounds : α → Bool) (msg : String) :
    Tame (icalNumber C r extreme inBounds msg) := by
  intro d₁ d₂ a d₁' h hx
  have hc := icalNumber_clearer (C := C) r extreme inBounds msg h
  have h₁ := (icalNumber_apply (C := C) r extreme inBounds msg d₁).1
  have h₂ := (icalNumber_apply (C := C) r extreme inBounds msg d₂).1
  have he := convErrno_clearer (C := C) h r.erange
  rw [hx] at h₁ hc
  refine ⟨a, (icalNumber C r extreme inBounds msg d₂).2, Prod.ext ?_ rfl, rfl, hc⟩
  rw [h₂]
  dsimp only at h₁ ⊢
  split at h₁
  next hok =>
    rw [if_pos, ← h₁]
    simp only [Bool.and_eq_true, Bool.not_eq_true'] at hok ⊢
    obtain ⟨⟨⟨hmoved, hrest⟩, hext⟩, hbounds⟩ := hok
    refine ⟨⟨⟨hmoved, hrest⟩, ?_⟩, hbounds⟩
    cases he₂ : C.errnoAt d₂.erange || r.erange with
    | false => exact Bool.and_false _
    | true =>
      rw [he he₂] at hext
      exact hext
  · cases h₁

theorem Uniform.tame {x : Value α} (h : Uniform C x) : Tame x := h Clearer icalNumber_tame

theorem icalUlong_clearer (cp : Bytes) (min max : Nat) {d₁ d₂ : Diag} (h : Clearer d₁ d₂) :
    Clearer (icalUlong C cp min max d₁).2 (icalUlong C cp min max d₂).2 :=
  icalNumber_clearer _ _ _ _ h

theorem icalList_uniform {one : Bytes → Value α} (h : ∀ tok, Uniform C (one tok)) (toks : List Bytes) (v : List α) :
    Uniform C (icalList one v toks) := by
  induction toks generalizing v with
  | nil => exact .pure v
  | cons tok toks ih => exact .bind (h tok) fun a => ih (v ++ [a])

theorem icalUlong_uniform (cp : Bytes) (min max : Nat) : Uniform C (icalUlong C cp min max) :=
  icalNumber_uniform _ _ _ _

theorem icalLlong_uniform (v : List Int) (cp : Bytes) (min max : Int) : Uniform C (icalLlong C v cp min max) :=
  icalList_uniform (fun _ => icalNumber_uniform _ _ _ _) _ v

theorem icalLulong_uniform (v : List Nat) (cp : Bytes) (min max : Nat) : Uniform C (icalLulong C v cp min max) :=
  icalList_uniform (fun _ => icalNumber_uniform _ _ _ _) _ v

/-! ## Dates -/

theorem icalDatetime_uniform (cp : Bytes) : Uniform C (icalDatetime C cp) := by
  unfold icalDatetime
  dsimp only
  split
  · exact .icalFail _
  · exact .pure _

theorem icalTzParam_uniform (dtret : IcalDateT) (tzstr : Option Bytes) (start : Bytes) (len : Nat) :
    Uniform C (icalTzParam dtret tzstr start len) := by
  unfold icalTzParam
  exact .ite (.pure _) (.ite (.ite (.icalFail _) (.pure _)) (.ite (.ite (.icalFail _) (.pure _))
    (.ite (.pure _) (.ite (.icalFail _) (.ite (.icalFail _) (.pure _))))))

theorem icalTzParams_uniform (dtret : IcalDateT) (fuel : Nat) (tzstr : Option Bytes) (start : Bytes) :
    Uniform C (icalTzParams dtret fuel tzstr start) := by
  induction fuel generalizing tzstr start with
  | zero =>
    cases start with
    | nil => exact .pure _
    | cons b bs => exact .pure _
  | succ fuel ih =>
    cases start with
    | nil => exact .pure _
    | cons b bs => exact .bind (icalTzParam_uniform _ _ _ _) fun a => ih a _

theorem icalTzdatetime_uniform (np : IcalNode) : Uniform C (icalTzdatetime C np) := by
  refine .bind (icalDatetime_uniform np.val) fun time => ?_
  cases np.param with
  | none => exact .pure _
  | some param => exact .bind (icalTzParams_uniform _ _ _ _) fun tzstr => .pure _

theorem icalLocaldatetime_uniform (cp : Bytes) : Uniform C (icalLocaldatetime C cp) :=
  .orReport (.bind (icalDatetime_uniform cp) fun _ => .bind (.ensure _) fun _ => .pure _) _

theorem icalUtcdatetime_uniform (cp : Bytes) : Uniform C (icalUtcdatetime C cp) :=
  .orReport (.bind (icalDatetime_uniform cp) fun _ => .bind (.ensure _) fun _ => .pure _) _

/-! ## Recurrence rules -/

theorem icalWkday_uniform (cp : Bytes) : Uniform C (icalWkday cp) := by
  unfold icalWkday
  split
  · exact .icalFail _
  · exact .pure _

theorem icalWk_uniform (cp : Bytes) : Uniform C (icalWk cp) :=
  .bind (icalWkday_uniform _) fun _ => .pure _

theorem icalRruleParam_uniform (vp : IcalRrule) (key v : Bytes) : Uniform C (icalRruleParam C vp key v) := by
  have field {β : Type} {x : Value β} (hx : Uniform C x) {f : β → IcalRrule} {msg : String} :
      Uniform C (orReport (x >>= fun a => pure (f a)) msg) := .orReport (.bind hx fun _ => .pure _) msg
  refine .orReport ?_ _
  unfold icalRruleParamInner
  refine .ite ?_ (.ite ?_ (.ite ?_ (.ite ?_ (.ite ?_ (.ite ?_ (.ite ?_ (.ite ?_ (.ite ?_ (.ite ?_ (.ite ?_
    (.ite ?_ (.ite ?_ (.ite ?_ (.icalFail _))))))))))))))
  · split
    · exact .pure _
    · exact .icalFail _
  · exact field (icalDatetime_uniform v)
  · exact field (icalUlong_uniform v _ _)
  · exact field (icalUlong_uniform v _ _)
  · exact field (icalList_uniform icalWk_uniform _ _)
  · exact field (icalLulong_uniform _ v _ _)
  · exact field (icalLulong_uniform _ v _ _)
  · exact field (icalLlong_uniform _ v _ _)
  · exact field (icalLulong_uniform _ v _ _)
  · exact field (icalLulong_uniform _ v _ _)
  · exact field (icalLlong_uniform _ v _ _)
  · exact field (icalLlong_uniform _ v _ _)
  · exact field (icalLlong_uniform _ v _ _)
  · exact field (icalWkday_uniform v)

theorem icalRruleParams_uniform (ps : List Bytes) (vp : IcalRrule) : Uniform C (icalRruleParams C vp ps) := by
  induction ps generalizing vp with
  | nil => exact .pure vp
  | cons p ps ih =>
    unfold icalRruleParams
    split
    · exact .icalFail _
    · exact .bind (icalRruleParam_uniform vp _ _) ih

theorem icalRrule_uniform (vp : IcalRrule) (cp : Bytes) : Uniform C (icalRrule C vp cp) :=
  .bind (icalRruleParams_uniform _ _) fun _ => .ite (.icalFail _) (.pure _)

/-! ## Offsets and strings -/

theorem icalUtcOffs_uniform (cp : Bytes) : Uniform C (icalUtcOffs cp) := by
  unfold icalUtcOffs
  exact .ite (.icalFail _) (.ite (.icalFail _) (.ite (.icalFail _) (.ite (.icalFail _) (.ite (.icalFail _)
    (.ite (.icalFail _) (.pure _))))))

theorem icalString_uniform (cp : Bytes) : Uniform C (icalString cp) :=
  .ite (.icalFail _) (.pure _)

/-! ## Durations -/

theorem icalDurationSet_isSome (v w : IcalDur) (type : UInt8) (n k : Nat) :
    (icalDurationSet v type n).isSome = (icalDurationSet w type k).isSome := by
  unfold icalDurationSet
  repeat' split
  all_goals rfl

/-- A scan that reaches the end reaches it with the same buffer under a clearer
`errno`, which may only let it go on past a number it stopped at. -/
theorem icalDurationLoop_clearer (fuel : Nat) : ∀ v w front cp d₁ d₂ v' front' d₁', Clearer d₁ d₂ →
    icalDurationLoop C fuel v front cp d₁ = (some (v', front', []), d₁') →
    ∃ w' d₂', icalDurationLoop C fuel w front cp d₂ = (some (w', front', []), d₂') ∧ Clearer d₁' d₂' := by
  induction fuel with
  | zero =>
    intro v w front cp d₁ d₂ v' front' d₁' hd h
    cases h
    exact ⟨w, d₂, rfl, hd⟩
  | succ fuel ih =>
    intro v w front cp d₁ d₂ v' front' d₁' hd h
    rcases scan_cases cp with rfl | ⟨cp, rfl⟩ | hds | ⟨ds, c, cp, hds, hc, hmark, rfl⟩
    · cases h
      exact ⟨w, d₂, rfl, hd⟩
    · rw [scan_mark] at h ⊢
      split at h
      · cases h
      next hne =>
        rw [if_neg hne]
        exact ih v w _ _ d₁ d₂ v' front' d₁' hd h
    · rw [scan_digits hds] at h ⊢
      cases h
      exact ⟨w, d₂, rfl, hd⟩
    · rw [scan_byte hds hc hmark] at h ⊢
      have hsome := icalDurationSet_isSome v w c 0 0
      cases hv : icalDurationSet v c 0 with
      | none =>
        obtain hw : icalDurationSet w c 0 = none := by simpa [hv] using hsome
        rw [hv] at h
        rw [hw]
        cases h
        exact ⟨w, d₂, rfl, hd⟩
      | some v₀ =>
        obtain ⟨w₀, hw⟩ : ∃ w₀, icalDurationSet w c 0 = some w₀ := by
          simpa [hv, Option.isSome_iff_exists] using hsome.symm
        rw [hv] at h
        rw [hw]
        dsimp only at h ⊢
        have hclear := icalUlong_clearer (C := C) ds 0 ULONG_MAX hd
        rcases h₁ : icalUlong C ds 0 ULONG_MAX d₁ with ⟨_ | n, e₁⟩
        · rw [h₁] at h hclear
          cases h
          rcases h₂ : icalUlong C ds 0 ULONG_MAX d₂ with ⟨_ | k, e₂⟩
          · rw [h₂] at hclear
            exact ⟨_, e₂, rfl, hclear⟩
          · rw [h₂] at hclear
            exact ⟨_, e₂, congrFun (icalDurationLoop_nil fuel _ _) e₂, hclear⟩
        · obtain ⟨k, e₂, h₂, rfl, hd'⟩ := (icalUlong_uniform _ _ _).tame d₁ d₂ n e₁ hd h₁
          rw [h₁] at h
          rw [h₂]
          exact ih _ _ _ _ e₁ e₂ v' front' d₁' hd' h

/-- Durations under a clearer `errno` leave the same buffer. -/
theorem icalDuration_clearer (val : Bytes) :
    Simulates Clearer (fun r₁ r₂ => r₁.2 = r₂.2) (icalDuration C val) (icalDuration C val) := by
  intro d₁ d₂ r d₁' hd h
  unfold icalDuration at h ⊢
  split at h
  next cp =>
    dsimp only at h ⊢
    split at h
    · cases h
    next hne =>
      rw [if_neg hne]
      obtain ⟨⟨v, front', cp'⟩, e₁, hloop, h⟩ := Fallible.bind_eq_some.mp h
      dsimp only at h
      split at h
      next hnil =>
        subst hnil
        cases h
        obtain ⟨w, e₂, hloop₂, hd'⟩ := icalDurationLoop_clearer (C := C) _ _
          { IcalDur.zero with sign := (icalDurationSign cp).1 } _ _ d₁ d₂ v front' _ hd hloop
        exact ⟨(w, front' ++ []), e₂, Fallible.bind_eq_some.mpr ⟨_, e₂, hloop₂, rfl⟩, rfl, hd'⟩
      · cases h
  · cases h

/-! ## The same error number -/

/-- Two states between which number conversions cannot tell, and stay unable to. -/
structure SameConv (C : Libc) (D : Diag → Diag → Prop) : Prop where
  errno {d₁ d₂ : Diag} : D d₁ d₂ → C.errnoAt d₁.erange = C.errnoAt d₂.erange
  keep {d₁ d₂ : Diag} : d₁.erange = d₂.erange → D d₁ d₂

theorem icalNumber_same {D : Diag → Diag → Prop} (hD : SameConv C D) (r : Converted α) (extreme inBounds : α → Bool)
    (msg : String) {d₁ d₂ : Diag} (h : D d₁ d₂) :
    (icalNumber C r extreme inBounds msg d₁).1 = (icalNumber C r extreme inBounds msg d₂).1 ∧
      D (icalNumber C r extreme inBounds msg d₁).2 (icalNumber C r extreme inBounds msg d₂).2 := by
  have h₁ := icalNumber_apply (C := C) r extreme inBounds msg d₁
  have h₂ := icalNumber_apply (C := C) r extreme inBounds msg d₂
  rw [← hD.errno h] at h₂
  exact ⟨h₁.1.trans h₂.1.symm, hD.keep (h₁.2.trans h₂.2.symm)⟩

theorem Uniform.same {D : Diag → Diag → Prop} (hD : SameConv C D) {x : Value α} (h : Uniform C x) : Simulates D Eq x x := by
  refine h D fun r extreme inBounds msg => ?_
  intro d₁ d₂ a d₁' hd hx
  obtain ⟨hval, hd'⟩ := icalNumber_same hD r extreme inBounds msg hd
  rw [hx] at hval hd'
  exact ⟨a, (icalNumber C r extreme inBounds msg d₂).2, Prod.ext hval.symm rfl, rfl, hd'⟩

theorem icalDurationLoop_same {D : Diag → Diag → Prop} (hD : SameConv C D) (fuel : Nat) : ∀ v front cp,
    Simulates D Eq (icalDurationLoop C fuel v front cp) (icalDurationLoop C fuel v front cp) := by
  induction fuel with
  | zero => exact fun v front cp => Simulates.pure rfl
  | succ fuel ih =>
    intro v front cp
    cases cp with
    | nil => exact Simulates.pure rfl
    | cons c cp =>
      unfold icalDurationLoop
      refine Simulates.ite (Simulates.ite (Simulates.pure rfl) (ih _ _ _)) ?_
      dsimp only
      split
      · exact Simulates.pure rfl
      · split
        · exact Simulates.pure rfl
        · intro d₁ d₂ a d₁' hd h
          obtain ⟨hval, hd'⟩ := icalNumber_same hD (strtoul ((c :: cp).takeWhile isDigit)) (fun v => v = ULONG_MAX)
            (fun v => 0 ≤ v && v ≤ ULONG_MAX) "bad unsigned long" hd
          change (icalUlong C _ _ _ d₁).1 = (icalUlong C _ _ _ d₂).1 at hval
          change D (icalUlong C _ _ _ d₁).2 (icalUlong C _ _ _ d₂).2 at hd'
          rcases h₁ : icalUlong C ((c :: cp).takeWhile isDigit) 0 ULONG_MAX d₁ with ⟨o, e₁⟩
          rcases h₂ : icalUlong C ((c :: cp).takeWhile isDigit) 0 ULONG_MAX d₂ with ⟨o', e₂⟩
          rw [h₁, h₂] at hval hd'
          obtain rfl : o = o' := hval
          dsimp only at h
          rw [h₁] at h
          dsimp only
          rw [h₂]
          cases o with
          | none =>
            cases h
            exact ⟨_, e₂, rfl, rfl, hd'⟩
          | some n => exact ih _ _ _ e₁ e₂ a d₁' hd' h

theorem icalDuration_same {D : Diag → Diag → Prop} (hD : SameConv C D) (val : Bytes) :
    Simulates D Eq (icalDuration C val) (icalDuration C val) := by
  have fails {β : Type} (msg : String) (y : Value β) : Simulates D Eq (icalFail msg : Value β) y := .of_none _ fun _ => rfl
  unfold icalDuration
  split
  · dsimp only
    refine Simulates.ite (fails _ _) ?_
    refine Simulates.bind (icalDurationLoop_same hD _ _ _ _) ?_
    rintro ⟨v, front, cp⟩ _ rfl
    exact Simulates.ite (Simulates.pure rfl) (fails _ _)
  · exact fails _ _

/-- Values and `errno` after them are the same from the same `errno`. -/
def SameErrno (d₁ d₂ : Diag) : Prop := d₁.erange = d₂.erange

theorem sameErrno_conv : SameConv C SameErrno := ⟨fun h => congrArg C.errnoAt h, id⟩

/-- Where `errno` is clear at every conversion, nothing of the diagnostics matters. -/
theorem clear_conv (hC : ∀ e, C.errnoAt e = false) : SameConv C fun _ _ => True :=
  ⟨fun _ => (hC _).trans (hC _).symm, fun _ => trivial⟩

/-- Of the diagnostics only `errno` matters to the value. -/
def Plain (x : Value α) : Prop := Simulates SameErrno Eq x x

/-- What a value parser returns under an `errno`, and the `errno` after it. -/
def under (x : Value α) (e : Bool) : Option (α × Bool) :=
  match x ⟨"", 0, none, e⟩ with
  | (some a, d) => some (a, d.erange)
  | (none, _) => none

theorem under_eq_some {x : Value α} (hx : Plain x) {d : Diag} {a : α} {e : Bool} :
    under x d.erange = some (a, e) ↔ ∃ d', x d = (some a, d') ∧ d'.erange = e := by
  unfold under
  constructor
  · intro h
    rcases hrun : x ⟨"", 0, none, d.erange⟩ with ⟨_ | b, d₁⟩
    · rw [hrun] at h
      cases h
    · rw [hrun] at h
      cases h
      obtain ⟨_, d', hd', rfl, he⟩ := hx ⟨"", 0, none, d.erange⟩ d a d₁ rfl hrun
      exact ⟨d', hd', he.symm⟩
  · rintro ⟨d', hd', rfl⟩
    obtain ⟨_, d₁, hrun, rfl, he⟩ := hx d ⟨"", 0, none, d.erange⟩ a d' rfl hd'
    rw [hrun]
    dsimp only
    rw [show d'.erange = d₁.erange from he]

end Kcaldav
