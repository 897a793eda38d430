import Kcaldav.Ical.Reload
import Kcaldav.Concurrent.Sync
import Kcaldav.Server.Invariant

/-! # What is stored can be loaded

Resources come into the store by `PUT` requests and from the files of `kcaldav.passwd`.
Both check a text over its length and store it as a C string. A store filled with texts
that end by their first NUL, or can end there, can always be loaded and listed.
-/
namespace Kcaldav
open CString

variable (C : Libc)

/-- Every stored text is accepted by the parser, whatever `errno` was. -/
def Reloads (db : Db) : Prop := ∀ r ∈ db.resource, ∀ erange, (icalParse C none erange r.data 0).1.isSome

/-- Where no step fails, every resource that is there is loaded, and every collection is
listed in full. -/
structure Legible (db : Db) : Prop where
  loaded : ∀ (cs : ℕ → Choice) (url : Bytes) (colid : Int), (cs 0).Faultless → (Sql.resGet colid url db).isSome →
    ∃ res, ((loadResource C url colid).run cs db).1 = .found res
  listed : ∀ (cs : ℕ → Choice) (colid : Int), (cs 0).Faultless →
    ((dbCollectionResources C colid).run cs db).1.1.map Res.view = (Sql.resIter colid db).map ResRow.view

/-- The text is accepted under a stale `errno` too, and its C string still ends as a
calendar can end. -/
def Storable (b : Bytes) : Prop := ∃ ic q, (icalParse C none true b 0).1 = some (ic, q) ∧ EndsByNul C none true b q

variable {C}

theorem Storable.reloads {b : Bytes} (h : Storable C b) (erange : Bool) :
    (icalParse C none erange (cstr b) 0).1.isSome := by
  obtain ⟨ic, q, hacc, hends⟩ := h
  have hstale : (icalParse C none true (cstr b) 0).1.isSome := (icalParse_cstr_iff hacc).mpr hends
  exact icalParse_clearer hstale

/-! ## Loads and listings -/

theorem Reloads.readable {db : Db} (h : Reloads C db) (colid : Int) (erange : Bool) :
    Readable C erange (Sql.resIter colid db) := by
  have hrows : ∀ rows : List ResRow, (∀ r ∈ rows, r ∈ db.resource) → ∀ erange, Readable C erange rows := by
    intro rows
    induction rows with
    | nil => exact fun _ _ => trivial
    | cons r rows ih =>
      intro hrows erange
      have hr := h r (hrows r List.mem_cons_self) erange
      exact ⟨hr, ih (fun r' hr' => hrows r' (List.mem_cons_of_mem r hr')) _⟩
  exact hrows _ (fun r hr => List.mem_of_mem_filter hr) erange

theorem Reloads.loaded {db : Db} (h : Reloads C db) (url : Bytes) (colid : Int) (erange : Bool) :
    (Sql.resGet colid url db).isSome → ∃ res, resourceLoaded C url colid erange db = .found res := by
  intro hsome
  obtain ⟨r, hr⟩ := Option.isSome_iff_exists.mp hsome
  obtain ⟨⟨ical, q⟩, hp⟩ := Option.isSome_iff_exists.mp (h r (mem_of_resGet hr).1 erange)
  refine ⟨r.res ical, ?_⟩
  rw [resourceLoaded, hr]
  dsimp only
  rw [hp]

theorem Reloads.legible {db : Db} (h : Reloads C db) : Legible C db where
  loaded cs url colid hquiet hsome := by
    rw [loadResource_eq, Prog.run_atom]
    unfold query
    dsimp only
    rw [if_pos (hquiet.1 4)]
    exact h.loaded url colid (cs 0).erange hsome
  listed cs colid hquiet := by
    rw [dbCollectionResources_eq, Prog.run_atom]
    dsimp only
    rw [if_pos (hquiet.1 2), listRows_faultless C (hquiet.skip 2)]
    exact (listing_complete_iff C _ _).mpr (h.readable colid _)

/-! ## Statements -/

theorem Reloads.resInsert {data url etag : Bytes} {colid : Int} (hdata : Storable C data) (db db' : Db)
    (h : Reloads C db) (hins : Sql.resInsert (cstr data) url colid etag db = some db') : Reloads C db' := by
  intro r hr
  rw [(resInsert_eq hins).1] at hr
  rcases List.mem_append.mp hr with hr | hr
  · exact h r hr
  · obtain rfl := List.mem_singleton.mp hr
    exact hdata.reloads

theorem Reloads.resUpdate {data etag : Bytes} (hdata : Storable C data) (id : Int) (db : Db) (h : Reloads C db) :
    Reloads C (Sql.resUpdate (cstr data) etag id db) := by
  intro r hr
  obtain ⟨r₀, hr₀, rfl⟩ := List.mem_map.mp hr
  split
  · exact hdata.reloads
  · exact h r₀ hr₀

theorem Reloads.ctag (colid : Int) (db : Db) (h : Reloads C db) : Reloads C (Sql.colUpdateCtag colid db) := h

theorem Reloads.colInsert {url : Bytes} (p : Int) (db db' : Db) (h : Reloads C db)
    (hins : Sql.colInsert p url db = some db') : Reloads C db' := by
  unfold Sql.colInsert at hins
  split at hins
  · cases hins
  · cases hins
    exact h

/-! ## Requests and imports -/

theorem dbResourceNew_reloads {data : Bytes} (hdata : Storable C data) (url etag : Bytes) (colid : Int) :
    Prog.Ensures (Reloads C) (dbResourceNew data url colid etag) fun _ => Reloads C :=
  dbResourceNew_keeps (Reloads.ctag colid) (Reloads.resInsert hdata)

theorem methodPut_reloads {r : Kreq} (hbody : ∀ body, req2ical C r = .ok body → Storable C body.val) (st : State)
    (etag : Bytes) : Prog.Ensures (Reloads C) (methodPut C r st etag) fun _ => Reloads C := by
  unfold methodPut
  cases st.cfg with
  | none => exact Prog.Ensures.ret fun _ => id
  | some cfg =>
    dsimp only
    cases hreq : req2ical C r with
    | error reply => exact Prog.Ensures.ret fun _ => id
    | ok body =>
      have hdata := hbody body hreq
      dsimp only
      cases putDigest r with
      | none => exact Prog.Ensures.ret fun _ => id
      | some digest =>
        refine Prog.Ensures.bind (Q := fun _ => Reloads C) ?_ fun rc => Prog.Ensures.ret fun _ => id
        cases digest with
        | none => exact dbResourceNew_reloads hdata _ _ _
        | some digest => exact dbResourceUpdate_keeps (Reloads.ctag cfg.id) (Reloads.resUpdate hdata)

theorem passwdMain_reloads {a : Passwd}
    (hfiles : ∀ f ∈ a.argv, ∀ res, readWholeFile C f = some res → Storable C res) :
    Prog.Ensures (Reloads C) (passwdMain C a) fun _ => Reloads C :=
  passwdMain_keeps (fun _ _ _ => id) (fun p _ => Reloads.colInsert p) Reloads.ctag a fun f hf _ res hread _ =>
    Reloads.resInsert (hfiles f hf res hread)

/-! ## Runs -/

/-- What brings resources into the store. -/
inductive StoreStep
  | put (r : Kreq) (st : State) (etag : Bytes)
  | passwd (a : Passwd)

def StoreStep.prog (C : Libc) : StoreStep → DbProg Unit
  | .put r st etag => do
    let _ ← methodPut C r st etag
    return ()
  | .passwd a => do
    let _ ← passwdMain C a
    return ()

/-- Every text that passes the check of the step is storable. -/
def StoreStep.Storable (C : Libc) : StoreStep → Prop
  | .put r _ _ => ∀ body, req2ical C r = .ok body → Kcaldav.Storable C body.val
  | .passwd a => ∀ f ∈ a.argv, ∀ res, readWholeFile C f = some res → Kcaldav.Storable C res

/-- One step after the other. -/
def storeRun (C : Libc) : List StoreStep → DbProg Unit
  | [] => return ()
  | s :: steps => do
    s.prog C
    storeRun C steps

theorem StoreStep.reloads {s : StoreStep} (h : s.Storable C) :
    Prog.Ensures (Reloads C) (s.prog C) fun _ => Reloads C := by
  cases s with
  | put r st etag => exact Prog.Ensures.bind (methodPut_reloads h st etag) fun _ => Prog.Ensures.ret fun _ => id
  | passwd a => exact Prog.Ensures.bind (passwdMain_reloads h) fun _ => Prog.Ensures.ret fun _ => id

theorem storeRun_reloads (steps : List StoreStep) (h : ∀ s ∈ steps, s.Storable C) :
    Prog.Ensures (Reloads C) (storeRun C steps) fun _ => Reloads C := by
  induction steps with
  | nil => exact Prog.Ensures.ret fun _ => id
  | cons s steps ih =>
    refine Prog.Ensures.bind (StoreStep.reloads (h s List.mem_cons_self)) fun _ => ?_
    exact ih fun s' hs' => h s' (List.mem_cons_of_mem s hs')

/-- A store filled from the empty one with storable texts alone can be loaded again. -/
theorem stored_reloads (C : Libc) (steps : List StoreStep) (h : ∀ s ∈ steps, s.Storable C) (cs : ℕ → Choice) (db : Db)
    (hempty : db.resource = []) :
    Reloads C ((storeRun C steps).run cs db).2.1 ∧ Legible C ((storeRun C steps).run cs db).2.1 := by
  have hstart : Reloads C db := by
    unfold Reloads
    rw [hempty]
    exact nofun
  have hreloads : Reloads C ((storeRun C steps).run cs db).2.1 := storeRun_reloads steps h cs db hstart
  exact ⟨hreloads, hreloads.legible⟩

/-- Put a text as `a.ics` into the calendar. -/
def putEvent (data : Bytes) : Kreq :=
  { Kreq.bare .put (ascii "/joe/calendar/a.ics") with
    fields := { (Kreq.bare .put []).fields with body := some ⟨.textCalendar, data⟩ } }

def putEventStep (data : Bytes) : StoreStep := .put (putEvent data) .atEvent (ascii "1-1")

theorem putEvent_storable {C : Libc} {data : Bytes} (h : Storable C data) : (putEventStep data).Storable C := by
  intro body hreq
  have hbody : (putEvent data).fields.body = some ⟨.textCalendar, data⟩ := rfl
  unfold req2ical at hreq
  rw [hbody] at hreq
  simp only [ne_eq, not_true_eq_false, if_false] at hreq
  split at hreq
  · cases hreq
  · cases hreq
    exact h

/-- A calendar with bytes after a NUL behind its end. -/
def trailedCalendar : Bytes := ascii "BEGIN:VCALENDAR\nEND:VCALENDAR" ++ [NUL] ++ ascii "a\n"

theorem stored_reloads_trailed :
    Reloads .utc ((storeRun .utc [putEventStep trailedCalendar]).run (fun _ => .calm) .oneCalendar).2.1 ∧
    Legible .utc ((storeRun .utc [putEventStep trailedCalendar]).run (fun _ => .calm) .oneCalendar).2.1 := by
  refine stored_reloads .utc [putEventStep trailedCalendar] (fun s hs => ?_) (fun _ => .calm) .oneCalendar rfl
  obtain rfl := List.mem_singleton.mp hs
  refine putEvent_storable ?_
  have hsome : (icalParse .utc none true trailedCalendar 0).1.isSome := by decide +kernel
  obtain ⟨⟨ic, q⟩, hq⟩ := Option.isSome_iff_exists.mp hsome
  have hend : (icalParse .utc none true trailedCalendar 0).1.map Prod.snd = some trailedCalendar.length := by
    decide +kernel
  rw [hq] at hend
  cases hend
  refine ⟨ic, _, hq, .inl ?_⟩
  decide +kernel

/-- A text that breaks off within an event is stored, and cannot be loaded. -/
theorem stored_not_reloads :
    ¬∀ (C : Libc) (steps : List StoreStep) (cs : ℕ → Choice) (db : Db), db.resource = [] →
      ∀ r ∈ ((storeRun C steps).run cs db).2.1.resource, (icalParse C none false r.data 0).1.isSome := by
  intro h
  have hall := h .utc [putEventStep cutCalendar] (fun _ => .calm) .oneCalendar rfl
  have hsome : (((storeRun .utc [putEventStep cutCalendar]).run (fun _ => .calm) .oneCalendar).2.1.resource.any
      fun r => (icalParse .utc none false r.data 0).1.isNone) = true := by decide +kernel
  obtain ⟨r, hr, hnone⟩ := List.any_eq_true.mp hsome
  have hload := hall r hr
  rw [Option.isNone_iff_eq_none] at hnone
  rw [hnone] at hload
  cases hload

end Kcaldav
