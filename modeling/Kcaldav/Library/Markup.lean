import Mathlib.Tactic.Common

/-! # Markup as a stream of events

A document with named elements and text in them, and the stream of events an
event-driven parser makes of it. A handler is a step function that may stop. Text
arrives in chunks that are cut anywhere; a handler that takes two chunks as it takes
them joined, and nothing for an empty one, does not depend on the cuts.
-/
namespace Markup
variable {ν β σ ε : Type}

inductive Event (ν β : Type)
  | start (name : ν)
  | text (t : List β)
  | close (name : ν)
  deriving DecidableEq, Repr

def Event.isTag : Event ν β → Bool
  | text _ => false
  | _ => true

/-- The tags of a stream without the text between them. -/
def tags (es : List (Event ν β)) : List (Event ν β) := es.filter Event.isTag

/-- What stands in an element, from left to right. -/
inductive Content (ν β : Type)
  | nil
  | text (t : List β) (rest : Content ν β)
  | elem (name : ν) (inner rest : Content ν β)
  deriving DecidableEq, Repr

namespace Content

def events : Content ν β → List (Event ν β)
  | nil => []
  | text t rest => .text t :: rest.events
  | elem n inner rest => .start n :: (inner.events ++ .close n :: rest.events)

/-- The text of an element without its markup. -/
def chars : Content ν β → List β
  | nil => []
  | text t rest => t ++ rest.chars
  | elem _ inner rest => inner.chars ++ rest.chars

/-- The elements of a content, with what stands in each. -/
def children : Content ν β → List (ν × Content ν β)
  | nil => []
  | text _ rest => rest.children
  | elem n inner rest => (n, inner) :: rest.children

def TextOnly (d : Content ν β) : Prop := d.children = []

instance (d : Content ν β) : Decidable d.TextOnly :=
  match h : d.children with
  | [] => isTrue h
  | p :: ps => isFalse fun h' => List.cons_ne_nil p ps (h.symm.trans h')

@[simp] theorem events_nil : (nil : Content ν β).events = [] := rfl
@[simp] theorem events_text (t : List β) (rest : Content ν β) : (text t rest).events = .text t :: rest.events := rfl
@[simp] theorem events_elem (n : ν) (inner rest : Content ν β) :
    (elem n inner rest).events = .start n :: (inner.events ++ .close n :: rest.events) := rfl

theorem events_elem_append (n : ν) (inner rest : Content ν β) (tail : List (Event ν β)) :
    (elem n inner rest).events ++ tail = .start n :: (inner.events ++ .close n :: (rest.events ++ tail)) := by
  rw [events_elem, List.cons_append, List.append_assoc, List.cons_append]

end Content

/-! ## Runs -/

def run (step : σ → Event ν β → Except ε σ) : List (Event ν β) → σ → Except ε σ
  | [], s => .ok s
  | e :: es, s => step s e >>= run step es

section Runs
variable {step : σ → Event ν β → Except ε σ} {s t u : σ} {er : ε} {e : Event ν β} {es es' : List (Event ν β)}

@[simp] theorem run_nil (s : σ) : run step [] s = .ok s := rfl
@[simp] theorem run_cons (e : Event ν β) (es : List (Event ν β)) (s : σ) :
    run step (e :: es) s = step s e >>= run step es := rfl

theorem run_append (es es' : List (Event ν β)) (s : σ) :
    run step (es ++ es') s = run step es s >>= run step es' := by
  induction es generalizing s with
  | nil => rfl
  | cons e es ih =>
    rw [List.cons_append, run_cons, run_cons, bind_assoc]
    exact bind_congr fun t => ih t

theorem bind_ok {x : Except ε σ} {f : σ → Except ε σ} : (x >>= f) = .ok u ↔ ∃ t, x = .ok t ∧ f t = .ok u := by
  cases x with
  | error er => simp [bind, Except.bind]
  | ok t => simp [bind, Except.bind]

theorem bind_error {x : Except ε σ} {f : σ → Except ε σ} :
    (x >>= f) = .error er ↔ x = .error er ∨ ∃ t, x = .ok t ∧ f t = .error er := by
  cases x with
  | error er' => simp [bind, Except.bind]
  | ok t => simp [bind, Except.bind]

theorem run_cons_ok : run step (e :: es) s = .ok u ↔ ∃ t, step s e = .ok t ∧ run step es t = .ok u := by
  rw [run_cons, bind_ok]

theorem run_append_ok :
    run step (es ++ es') s = .ok u ↔ ∃ t, run step es s = .ok t ∧ run step es' t = .ok u := by
  rw [run_append, bind_ok]

theorem run_cons_error :
    run step (e :: es) s = .error er ↔ step s e = .error er ∨ ∃ t, step s e = .ok t ∧ run step es t = .error er := by
  rw [run_cons, bind_error]

/-- A run over an element: its start, its content, its end, and what follows it. -/
theorem run_elem_ok {n : ν} {inner rest : Content ν β} :
    run step (Content.elem n inner rest).events s = .ok u ↔
      ∃ t v w, step s (.start n) = .ok t ∧ run step inner.events t = .ok v ∧ step v (.close n) = .ok w ∧
        run step rest.events w = .ok u := by
  rw [Content.events_elem, run_cons_ok]
  constructor
  · rintro ⟨t, ht, h⟩
    obtain ⟨v, hv, h⟩ := run_append_ok.mp h
    obtain ⟨w, hw, h⟩ := run_cons_ok.mp h
    exact ⟨t, v, w, ht, hv, hw, h⟩
  · rintro ⟨t, v, w, ht, hv, hw, h⟩
    exact ⟨t, ht, run_append_ok.mpr ⟨v, hv, run_cons_ok.mpr ⟨w, hw, h⟩⟩⟩

/-- What every step keeps holds after a run. -/
theorem run_keeps {P : σ → Prop} (hstep : ∀ s e t, P s → step s e = .ok t → P t) (hs : P s) (h : run step es s = .ok u) :
    P u := by
  induction es generalizing s with
  | nil =>
    cases h
    exact hs
  | cons e es ih =>
    obtain ⟨t, ht, h⟩ := run_cons_ok.mp h
    exact ih (hstep s e t hs ht) h

/-- What no step fails with where something holds that every step keeps, no run fails with. -/
theorem run_ne_error {P : σ → Prop} (hstep : ∀ s e t, P s → step s e = .ok t → P t)
    (hne : ∀ s e, P s → step s e ≠ .error er) (hs : P s) : run step es s ≠ .error er := by
  induction es generalizing s with
  | nil => exact fun h => by cases h
  | cons e es ih =>
    intro h
    rcases run_cons_error.mp h with h | ⟨t, ht, h⟩
    · exact hne s e hs h
    · exact ih (hstep s e t hs ht) h

end Runs

/-! ## Chunks -/

/-- The text before the first tag, and every tag with the text up to the next one. -/
def gaps : List (Event ν β) → List β × List (Event ν β × List β)
  | [] => ([], [])
  | .text t :: es => (t ++ (gaps es).1, (gaps es).2)
  | .start n :: es => ([], (.start n, (gaps es).1) :: (gaps es).2)
  | .close n :: es => ([], (.close n, (gaps es).1) :: (gaps es).2)

/-- The same tags and the same text between them, cut in different places. -/
def Rechunked (es es' : List (Event ν β)) : Prop := gaps es = gaps es'

/-- The stream with one chunk in every gap. -/
def joined (g : List β × List (Event ν β × List β)) : List (Event ν β) :=
  .text g.1 :: g.2.flatMap fun p => [p.1, .text p.2]

section Chunks
variable {step : σ → Event ν β → Except ε σ} (hnil : ∀ s, step s (.text []) = .ok s)
  (happ : ∀ s a b, (step s (.text a) >>= fun t => step t (.text b)) = step s (.text (a ++ b)))
include hnil happ

/-- A run is the run over the joined stream. -/
theorem run_joined (es : List (Event ν β)) (s : σ) : run step es s = run step (joined (gaps es)) s := by
  have tag (e : Event ν β) (es : List (Event ν β)) (s : σ) (ih : ∀ s, run step es s = run step (joined (gaps es)) s) :
      run step (e :: es) s = run step (joined ([], (e, (gaps es).1) :: (gaps es).2)) s := by
    change _ = step s (.text []) >>= fun t => run step (e :: joined (gaps es)) t
    rw [hnil, run_cons]
    exact bind_congr fun t => ih t
  induction es generalizing s with
  | nil =>
    change Except.ok s = step s (.text []) >>= fun t => .ok t
    rw [hnil]
    rfl
  | cons e es ih =>
    cases e with
    | start n => exact tag _ es s ih
    | close n => exact tag _ es s ih
    | text t =>
      have htail (u : σ) : run step (joined (t ++ (gaps es).1, (gaps es).2)) u =
          step u (.text (t ++ (gaps es).1)) >>= run step ((gaps es).2.flatMap fun p => [p.1, .text p.2]) := rfl
      rw [run_cons]
      change _ = run step (joined (t ++ (gaps es).1, (gaps es).2)) s
      rw [htail, ← happ, bind_assoc]
      exact bind_congr fun u => ih u

/-- Where chunks are cut makes no difference to a handler that joins them. -/
theorem run_rechunked {es es' : List (Event ν β)} (h : Rechunked es es') (s : σ) : run step es s = run step es' s := by
  rw [run_joined hnil happ es, run_joined hnil happ es', h]

end Chunks

end Markup
