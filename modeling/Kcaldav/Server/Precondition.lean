import Kcaldav.Server.Methods
import Kcaldav.Store.Outcome
import Kcaldav.Store.Rows

/-! # Preconditions of `PUT` and `DELETE`

What a `PUT` or `DELETE` of a resource does to the row of that name, for every
`If-Match` header. A value that is not a tag leaves the handlers without a tag to
compare, as if there were no condition at all.
-/
namespace Kcaldav
open CString

/-! ## Tags in header values -/

/-- The value names the tag, bare or in quotes. -/
def Denotes (h etag : Bytes) : Prop := h = etag ∨ h = QUOTE :: (etag ++ [QUOTE])

instance (h etag : Bytes) : Decidable (Denotes h etag) := inferInstanceAs (Decidable (_ ∨ _))

theorem httpEtagIfMatch_denotes {h etag : Bytes} {quoted : Bool} (heq : httpEtagIfMatch h = some (etag, quoted)) :
    Denotes h etag := by
  unfold httpEtagIfMatch at heq
  split at heq
  · cases heq
  · split at heq
    next hquoted =>
      split at heq
      · cases heq
      · cases heq
        obtain ⟨hlong, hhead, hlast⟩ := hquoted
        obtain ⟨tail, rfl⟩ := List.head?_eq_some_iff.mp hhead
        have htail : tail ≠ [] := by
          rintro rfl
          simp at hlong
        have hend : tail.getLast htail = QUOTE := by
          rw [List.getLast?_cons, List.getLast?_eq_some_getLast htail] at hlast
          simpa using hlast
        refine Or.inr (congrArg _ ?_)
        rw [List.tail_cons, ← hend, List.dropLast_append_getLast]
    · cases heq
      exact Or.inl rfl

theorem httpEtagIfMatch_bare {h etag : Bytes} (heq : httpEtagIfMatch h = some (etag, false)) : h = etag := by
  unfold httpEtagIfMatch at heq
  split at heq
  · cases heq
  · split at heq
    · split at heq <;> cases heq
    · cases heq
      rfl

/-- The values that are not a tag. -/
def Blank (h : Bytes) : Prop := h = [] ∨ h = [QUOTE, QUOTE]

theorem httpEtagIfMatch_none {h : Bytes} : httpEtagIfMatch h = none ↔ Blank h := by
  unfold httpEtagIfMatch Blank
  constructor
  · intro hnone
    by_cases hempty : h = []
    · exact Or.inl hempty
    · rw [if_neg hempty] at hnone
      split at hnone
      next hquoted =>
        by_cases hlen : h.length = 2
        · obtain ⟨a, b, rfl⟩ := List.length_eq_two.mp hlen
          simp at hquoted
          exact Or.inr (by rw [hquoted.1, hquoted.2])
        · rw [if_neg hlen] at hnone
          cases hnone
      · cases hnone
  · rintro (rfl | rfl)
    · rfl
    · decide

theorem etagDigest_none {h : Bytes} : etagDigest h = none ↔ Blank h ∨ h = ascii "*" := by
  constructor
  · intro hnone
    unfold etagDigest at hnone
    rcases hread : httpEtagIfMatch h with _ | ⟨digest, quoted⟩
    · exact Or.inl (httpEtagIfMatch_none.mp hread)
    · simp only [hread] at hnone
      split at hnone
      next hstar =>
        obtain ⟨hbare, rfl⟩ : quoted = false ∧ digest = ascii "*" := by simpa using hstar
        subst hbare
        exact Or.inr (httpEtagIfMatch_bare hread)
      · cases hnone
  · rintro (hblank | rfl)
    · rw [etagDigest, httpEtagIfMatch_none.mpr hblank]
    · decide

theorem etagDigest_denotes {h etag : Bytes} (heq : etagDigest h = some etag) : Denotes h etag := by
  unfold etagDigest at heq
  rcases hread : httpEtagIfMatch h with _ | ⟨digest, quoted⟩
  · rw [hread] at heq
    cases heq
  · simp only [hread] at heq
    split at heq
    · cases heq
    · cases heq
      exact httpEtagIfMatch_denotes hread

/-! ## What the handlers leave -/

section Handlers
variable (C : Libc) {r : Kreq} {st : State} {cfg : Coln} {etag : Bytes} {cs : ℕ → Choice} {db : Db}

theorem loadResource_eq (url : Bytes) (colid : Int) :
    loadResource C url colid = Prog.atom (query 4 .error fun e => resourceLoaded C url colid e.erange) := by
  refine congrArg Prog.atom ?_
  funext e db
  rw [dbResourceLoad_apply, query]
  cases e.quiet 4 with
  | false =>
    change (Loaded.error, (Session.stuck 4 ⟨db, db, e⟩).db) = _
    rw [stuck_db]
    rfl
  | true => rfl

theorem methodPut_db (hcfg : st.cfg = some cfg) :
    ((methodPut C r st etag).run cs db).2.1 =
      match req2ical C r, putDigest r with
      | .ok body, some digest => ((putStore C body.val st.resource digest cfg.id etag).run cs db).2.1
      | _, _ => db := by
  unfold methodPut
  rw [hcfg]
  dsimp only
  cases req2ical C r with
  | error reply => rfl
  | ok body =>
    cases putDigest r with
    | none => rfl
    | some digest =>
      have hrun := Prog.run_bind_ret (putStore C body.val st.resource digest cfg.id etag)
        (fun rc => httpError (putStatus rc)) cs db
      exact congrArg (fun x : Reply × Db × (ℕ → Choice) => x.2.1) hrun

/-- What a `DELETE` of a resource answers and leaves. -/
theorem methodDelete_run (r : Kreq) (cs : ℕ → Choice) (db : Db) (hcfg : st.cfg = some cfg) (hname : st.resource ≠ []) :
    (((methodDelete r st).run cs db).1.status, ((methodDelete r st).run cs db).2.1) =
      match headerDigest r.ifMatch with
      | some digest =>
        let out := resourceDelete st.resource digest cfg.id (cs 0) db
        (some (deleteStatus out.1), out.2)
      | none =>
        let out := (dbResourceRemove st.resource cfg.id).run cs db
        (some (deleteStatus out.1), out.2.1) := by
  unfold methodDelete
  rw [hcfg]
  dsimp only
  rw [if_pos hname]
  cases headerDigest r.ifMatch with
  | none =>
    have hrun := Prog.run_bind_ret (dbResourceRemove st.resource cfg.id)
      (fun rc => httpError (deleteStatus rc)) cs db
    exact congrArg (fun x : Reply × Db × (ℕ → Choice) => (x.1.status, x.2.1)) hrun
  | some digest =>
    have hrun := Prog.run_bind_ret (dbResourceDelete st.resource digest cfg.id)
      (fun rc => httpError (deleteStatus rc)) cs db
    rw [dbResourceDelete_eq] at hrun
    dsimp only
    rw [dbResourceDelete_eq]
    exact congrArg (fun x : Reply × Db × (ℕ → Choice) => (x.1.status, x.2.1)) hrun

end Handlers

/-! ## The row a request is about -/

section Rows
variable {C : Libc} {data url digest etag h : Bytes} {colid : Int} {cs : ℕ → Choice} {db : Db}

/-- The condition of `If-Match: h` on the row of the resource. -/
def Matches (h : Bytes) (row : Option ResRow) : Prop := ∃ r, row = some r ∧ (h = ascii "*" ∨ Denotes h r.etag)

/-- An unconditional store changes the row exactly by creating it. -/
theorem putStore_new_iff :
    (Sql.resGet colid url ((putStore C data url none colid etag).run cs db).2.1 ≠ Sql.resGet colid url db →
      Matches h (Sql.resGet colid url db)) ↔
    ((cs 0).quiet 6 → (Sql.resGet colid url db).isSome ∨ ∀ c ∈ db.collection, c.id ≠ colid) := by
  unfold putStore
  rw [dbResourceNew_run, ← resInsert_eq_none (cstr data) etag]
  by_cases hq : (cs 0).quiet 6
  · rw [if_pos hq]
    cases hins : Sql.resInsert (cstr data) url colid etag db with
    | none => simp
    | some db' =>
      obtain ⟨hbefore, hafter⟩ := resGet_resInsert hins
      have hrow : ∀ b : Bool, Sql.resGet colid url (if b then ((1 : Int), Sql.colUpdateCtag colid db', fun n => cs (n + 2))
          else (-1, db', fun n => cs (n + 2))).2.1 = Sql.resGet colid url db' := by
        intro b
        cases b <;> rfl
      dsimp only
      rw [hrow, hbefore, hafter]
      constructor
      · intro hmatch
        obtain ⟨r, hr, -⟩ := hmatch nofun
        cases hr
      · intro hnone
        cases hnone hq
  · simp [hq]

/-- A conditional store has replaced a row by something new. -/
def Replaces (C : Libc) (data url digest : Bytes) (colid : Int) (etag : Bytes) (e : Choice) (db : Db) : Prop :=
  ∃ res, resourceLoaded C url colid e.erange db = .found res ∧ res.etag = digest ∧ e.quiet 13 ∧ ¬e.commitFails ∧
    ¬(res.data = cstr data ∧ res.etag = etag)

theorem resourceUpdate_replaced {e : Choice} {r : ResRow} {ical : Ical}
    (hload : resourceLoaded C url colid e.erange db = .found (r.res ical)) (htag : r.etag = digest)
    (h13 : e.quiet 13) (hc : ¬e.commitFails) :
    (resourceUpdate C data url digest colid etag e db).2 =
      Sql.colUpdateCtag colid (Sql.resUpdate (cstr data) etag r.id db) := by
  have h5 : e.quiet 5 := Choice.quiet_mono (by omega) h13
  have hsame : ¬(r.res ical).etag ≠ digest := not_not_intro htag
  unfold resourceUpdate
  rw [if_pos h5, hload]
  dsimp only
  rw [if_neg hsame, if_pos h13]
  exact if_neg hc

theorem resourceUpdate_changed {e : Choice} (hne : (resourceUpdate C data url digest colid etag e db).2 ≠ db) :
    ∃ r ical, Sql.resGet colid url db = some r ∧ resourceLoaded C url colid e.erange db = .found (r.res ical) ∧
      r.etag = digest ∧ e.quiet 13 ∧ ¬e.commitFails := by
  unfold resourceUpdate at hne
  split at hne
  · split at hne
    · exact absurd rfl hne
    · exact absurd rfl hne
    next res hload =>
      obtain ⟨r, ical, q, hget, -, rfl⟩ := resourceLoaded_found C hload
      split at hne
      · exact absurd rfl hne
      next htag =>
        split at hne
        next h13 =>
          have hc : ¬e.commitFails := fun hc => hne (if_pos hc)
          exact ⟨r, ical, hget, hload, not_not.mp htag, h13, hc⟩
        · exact absurd rfl hne
  · exact absurd rfl hne

theorem putStore_update_iff :
    Sql.resGet colid url ((putStore C data url (some digest) colid etag).run cs db).2.1 ≠ Sql.resGet colid url db ↔
      Replaces C data url digest colid etag (cs 0) db := by
  have hrun : ((putStore C data url (some digest) colid etag).run cs db).2.1 =
      (resourceUpdate C data url digest colid etag (cs 0) db).2 := by
    rw [putStore, dbResourceUpdate_eq]
    rfl
  have hafter : ∀ {r : ResRow}, Sql.resGet colid url db = some r →
      Sql.resGet colid url (Sql.colUpdateCtag colid (Sql.resUpdate (cstr data) etag r.id db)) =
        some { r with data := cstr data, etag := etag } := fun hget => resGet_resUpdate hget
  have hsame : ∀ r : ResRow, { r with data := cstr data, etag := etag } = r ↔ r.data = cstr data ∧ r.etag = etag := by
    intro r
    rw [ResRow.mk.injEq]
    simp [eq_comm, and_comm]
  rw [hrun]
  constructor
  · intro hne
    obtain ⟨r, ical, hget, hload, htag, h13, hc⟩ := resourceUpdate_changed fun hdb => hne (by rw [hdb])
    rw [resourceUpdate_replaced hload htag h13 hc, hafter hget, hget] at hne
    refine ⟨r.res ical, hload, htag, h13, hc, fun hold => ?_⟩
    exact hne (congrArg some ((hsame r).mpr hold))
  · rintro ⟨res, hload, htag, h13, hc, hnew⟩
    obtain ⟨r, ical, q, hget, -, rfl⟩ := resourceLoaded_found C hload
    rw [resourceUpdate_replaced hload htag h13 hc, hafter hget, hget]
    exact fun hold => hnew ((hsame r).mp (Option.some.inj hold))

theorem putStore_update_matches_iff :
    (Sql.resGet colid url ((putStore C data url (some digest) colid etag).run cs db).2.1 ≠ Sql.resGet colid url db →
      Matches h (Sql.resGet colid url db)) ↔
    (Replaces C data url digest colid etag (cs 0) db → h = ascii "*" ∨ Denotes h digest) := by
  rw [putStore_update_iff]
  refine forall_congr' fun hrep => ?_
  obtain ⟨res, hload, rfl, -⟩ := hrep
  obtain ⟨r, ical, q, hget, -, rfl⟩ := resourceLoaded_found C hload
  rw [hget]
  constructor
  · rintro ⟨r', hr', hmatch⟩
    cases hr'
    exact hmatch
  · intro hmatch
    exact ⟨r, rfl, hmatch⟩

/-- A conditional delete changes the row only where it has the tag given. -/
theorem resourceDelete_changed {e : Choice}
    (hne : Sql.resGet colid url (resourceDelete url digest colid e db).2 ≠ Sql.resGet colid url db) :
    ∃ r, Sql.resGet colid url db = some r ∧ r.etag = digest := by
  cases hrow : Sql.resGet colid url db with
  | none =>
    have hget := resGetEtag_of_none digest hrow
    unfold resourceDelete at hne
    rw [hget] at hne
    split at hne <;> exact absurd rfl hne
  | some r =>
    refine ⟨r, rfl, ?_⟩
    by_contra htag
    have hstay := resGet_resRemoveEtag_of_ne hrow htag
    apply hne
    unfold resourceDelete
    split
    · split
      · rfl
      · split
        · unfold committed
          split
          · rfl
          · exact hstay.trans hrow.symm
        · rfl
    · rfl

theorem dbResourceRemove_row :
    Sql.resGet colid url ((dbResourceRemove url colid).run cs db).2.1 =
      if (cs 0).quiet 4 then none else Sql.resGet colid url db := by
  rw [dbResourceRemove_run]
  by_cases h4 : (cs 0).quiet 4
  · rw [if_pos h4, if_pos h4]
    split <;> exact resGet_resRemove url
  · rw [if_neg h4, if_neg h4]

end Rows

/-! ## `If-Match` -/

/-- The methods that are to keep to `If-Match`; a `PUT` with the tag it generates. -/
inductive Conditional
  | put (etag : Bytes)
  | delete

namespace Conditional
variable (C : Libc) (r : Kreq) (st : State)

def prog : Conditional → DbProg Reply
  | put etag => methodPut C r st etag
  | delete => methodDelete r st

/-- When `If-Match: h` is kept to. A `PUT` with an `If` header compares only the tag
in that one; else a value that is not a tag must not meet a store or a removal that
takes effect, and neither must a star a resource that does not exist. -/
def Honours (cfg : Coln) (h : Bytes) (cs : ℕ → Choice) (db : Db) : Conditional → Prop
  | put etag => ∀ body, req2ical C r = .ok body →
    match r.ifHdr with
    | some val => ∀ digest, ifDigest val = some digest →
      Replaces C body.val st.resource digest cfg.id etag (cs 0) db → h = ascii "*" ∨ Denotes h digest
    | none => Blank h ∨ h = ascii "*" → (cs 0).quiet 6 →
      (Sql.resGet cfg.id st.resource db).isSome ∨ ∀ c ∈ db.collection, c.id ≠ cfg.id
  | delete => Blank h → (cs 0).quiet 4 → ∀ row, Sql.resGet cfg.id st.resource db = some row → Denotes h row.etag

variable {C r st} {cfg : Coln} {h : Bytes} {cs : ℕ → Choice} {db : Db}

theorem put_honours_iff (hcfg : st.cfg = some cfg) (hh : r.ifMatch = some h) (etag : Bytes) :
    (Sql.resGet cfg.id st.resource ((methodPut C r st etag).run cs db).2.1 ≠ Sql.resGet cfg.id st.resource db →
      Matches h (Sql.resGet cfg.id st.resource db)) ↔ (put etag).Honours C r st cfg h cs db := by
  rw [methodPut_db C hcfg]
  unfold Honours
  cases hbody : req2ical C r with
  | error reply => simp
  | ok body =>
    have hall : ∀ P : Body → Prop, (∀ b, (Except.ok body : Except Reply Body) = .ok b → P b) ↔ P body := by
      intro P
      constructor
      · exact fun hP => hP body rfl
      · rintro hP b hb
        cases hb
        exact hP
    refine Iff.trans ?_ (hall _).symm
    cases hif : r.ifHdr with
    | some val =>
      have hput : putDigest r = (ifDigest val).map some := by rw [putDigest, hif]
      rw [hput]
      dsimp only
      cases hval : ifDigest val with
      | none => simp
      | some digest =>
        refine putStore_update_matches_iff.trans ?_
        constructor
        · rintro hkeep _ ⟨⟩
          exact hkeep
        · exact fun hkeep => hkeep digest rfl
    | none =>
      have hput : putDigest r = some (etagDigest h) := by rw [putDigest, hif, hh]
      rw [hput]
      dsimp only
      cases hdigest : etagDigest h with
      | none =>
        have hblank := etagDigest_none.mp hdigest
        refine putStore_new_iff.trans ?_
        constructor
        · exact fun hkeep _ => hkeep
        · exact fun hkeep => hkeep hblank
      | some digest =>
        have htag : ¬(Blank h ∨ h = ascii "*") := fun hblank => by
          rw [etagDigest_none.mpr hblank] at hdigest
          cases hdigest
        constructor
        · exact fun _ hblank => absurd hblank htag
        · intro _
          exact putStore_update_matches_iff.mpr fun _ => Or.inr (etagDigest_denotes hdigest)

theorem delete_honours_iff (hcfg : st.cfg = some cfg) (hname : st.resource ≠ []) (hh : r.ifMatch = some h) :
    (Sql.resGet cfg.id st.resource ((methodDelete r st).run cs db).2.1 ≠ Sql.resGet cfg.id st.resource db →
      Matches h (Sql.resGet cfg.id st.resource db)) ↔ delete.Honours C r st cfg h cs db := by
  have hrun := congrArg Prod.snd (methodDelete_run r cs db hcfg hname)
  have hdigest : headerDigest r.ifMatch = etagDigest h := by rw [hh, headerDigest]
  rw [hdigest] at hrun
  dsimp only at hrun
  rw [hrun]
  unfold Honours
  cases heq : etagDigest h with
  | some digest =>
    have htag : ¬Blank h := fun hblank => by
      rw [etagDigest_none.mpr (Or.inl hblank)] at heq
      cases heq
    constructor
    · exact fun _ hblank => absurd hblank htag
    · intro _ hne
      obtain ⟨row, hrow, rfl⟩ := resourceDelete_changed hne
      exact ⟨row, hrow, Or.inr (etagDigest_denotes heq)⟩
  | none =>
    dsimp only
    rw [dbResourceRemove_row]
    constructor
    · intro hkeep hblank h4 row hrow
      rw [if_pos h4, hrow] at hkeep
      obtain ⟨row', hrow', hstar | hdenotes⟩ := hkeep nofun
      · rcases hblank with rfl | rfl <;> exact absurd hstar (by decide)
      · cases hrow'
        exact hdenotes
    · intro hkeep hne
      by_cases h4 : (cs 0).quiet 4
      · cases hrow : Sql.resGet cfg.id st.resource db with
        | none =>
          rw [if_pos h4, hrow] at hne
          exact absurd rfl hne
        | some row =>
          refine ⟨row, rfl, ?_⟩
          rcases etagDigest_none.mp heq with hblank | hstar
          · exact Or.inr (hkeep hblank h4 row hrow)
          · exact Or.inl hstar
      · rw [if_neg h4] at hne
        exact absurd rfl hne

end Conditional

/-- A `PUT` or `DELETE` with `If-Match` changes the named resource only where it exists
and has the tag, exactly where the condition is kept to. -/
theorem ifMatch_honoured_iff (C : Libc) (m : Conditional) (r : Kreq) (st : State) (cfg : Coln) (h : Bytes)
    (cs : ℕ → Choice) (db : Db) (hcfg : st.cfg = some cfg) (hname : st.resource ≠ []) (hh : r.ifMatch = some h) :
    (Sql.resGet cfg.id st.resource ((m.prog C r st).run cs db).2.1 ≠ Sql.resGet cfg.id st.resource db →
      Matches h (Sql.resGet cfg.id st.resource db)) ↔ m.Honours C r st cfg h cs db := by
  cases m with
  | put etag => exact Conditional.put_honours_iff hcfg hh etag
  | delete => exact Conditional.delete_honours_iff hcfg hname hh

/-- The state of a request of `joe` on the resource of the calendar. -/
def State.atEvent : State :=
  let joe : Prncpl := ⟨ascii "joe", ascii "hash", ascii "joe@example.com", 1, [(Sql.newCol 1 (ascii "calendar") 1).coln], [], []⟩
  { prncpl := joe
    nonce := []
    rprncpl := joe
    cfg := some (Sql.newCol 1 (ascii "calendar") 1).coln
    proxy := 0
    principal := ascii "joe"
    collection := ascii "calendar"
    resource := ascii "a.ics" }

def deleteIf (h : Bytes) : Kreq := { Kreq.bare .delete (ascii "/joe/calendar/a.ics") with ifMatch := some h }

/-- With an old tag nothing is deleted. -/
theorem ifMatch_honoured_iff_stale :
    Sql.resGet 1 (ascii "a.ics") ((Conditional.delete.prog .utc (deleteIf (ascii "2-2")) .atEvent).run
      (fun _ => .calm) .oneEvent).2.1 = Sql.resGet 1 (ascii "a.ics") .oneEvent := by
  have htag : ¬Blank (ascii "2-2") := by
    rintro (h | h) <;> exact absurd h (by decide)
  by_contra hchanged
  obtain ⟨row, hrow, hmatch⟩ := (ifMatch_honoured_iff .utc .delete (deleteIf (ascii "2-2")) .atEvent _ (ascii "2-2")
    (fun _ => .calm) .oneEvent rfl (by decide) rfl).mpr (fun hblank => absurd hblank htag) hchanged
  have hone : Sql.resGet 1 (ascii "a.ics") .oneEvent =
      some ⟨1, ascii "a.ics", ascii "1-1", ascii "BEGIN:VCALENDAR\nEND:VCALENDAR\n", 1⟩ := by decide +kernel
  cases hone.symm.trans hrow
  exact absurd hmatch (by decide)

/-- A pair of quotes with nothing between them deletes whatever is there. -/
theorem ifMatch_not_honoured : ¬∀ (C : Libc) (m : Conditional) (r : Kreq) (st : State) (cfg : Coln) (h : Bytes)
    (cs : ℕ → Choice) (db : Db), st.cfg = some cfg → st.resource ≠ [] → r.ifMatch = some h →
    Sql.resGet cfg.id st.resource ((m.prog C r st).run cs db).2.1 ≠ Sql.resGet cfg.id st.resource db →
      Matches h (Sql.resGet cfg.id st.resource db) := by
  intro h
  have hchanged : Sql.resGet 1 (ascii "a.ics") ((Conditional.delete.prog .utc (deleteIf [QUOTE, QUOTE]) .atEvent).run
      (fun _ => .calm) .oneEvent).2.1 ≠ Sql.resGet 1 (ascii "a.ics") .oneEvent := by decide +kernel
  obtain ⟨row, hrow, hmatch⟩ := h .utc .delete (deleteIf [QUOTE, QUOTE]) .atEvent _ [QUOTE, QUOTE] (fun _ => .calm)
    .oneEvent rfl (by decide) rfl hchanged
  have hone : Sql.resGet 1 (ascii "a.ics") .oneEvent =
      some ⟨1, ascii "a.ics", ascii "1-1", ascii "BEGIN:VCALENDAR\nEND:VCALENDAR\n", 1⟩ := by decide +kernel
  cases hone.symm.trans hrow
  exact absurd hmatch (by decide)

/-! ## The reply of a `DELETE` -/

section Delete
variable {url digest : Bytes} {colid : Int} {e : Choice} {cs : ℕ → Choice} {db : Db}

/-- The answer is that of a removal exactly where the row is gone. -/
def Truthful (status : Option Nat) (before after : Option ResRow) : Prop :=
  (status = some 204 → after = none) ∧ (status ≠ some 204 → after = before)

theorem truthful_deleteStatus (rc : Bool) (before after : Option ResRow) :
    Truthful (some (deleteStatus rc)) before after ↔ if rc then after = none else after = before := by
  unfold Truthful
  cases rc <;> simp [deleteStatus]

theorem resourceDelete_truthful_iff (hn : Named db) :
    Truthful (some (deleteStatus (resourceDelete url digest colid e db).1)) (Sql.resGet colid url db)
      (Sql.resGet colid url (resourceDelete url digest colid e db).2) ↔
    (e.quiet 6 → ∀ row, Sql.resGet colid url db = some row →
      row.etag = digest ∧ (e.quiet 14 → ¬e.commitFails)) := by
  rw [truthful_deleteStatus]
  unfold resourceDelete
  by_cases h6 : e.quiet 6
  · rw [if_pos h6]
    cases hrow : Sql.resGet colid url db with
    | none =>
      rw [resGetEtag_of_none _ hrow]
      simp [hrow]
    | some row =>
      rw [resGetEtag_eq hn hrow]
      by_cases htag : row.etag = digest
      · rw [if_pos htag]
        dsimp only
        by_cases h14 : e.quiet 14
        · rw [if_pos h14]
          by_cases hc : e.commitFails
          · simp [committed, hc, hrow, h6, h14]
          · have hgone : Sql.resGet colid url
                (Sql.colUpdateCtag colid (Sql.resRemoveEtag url colid digest db)) = none :=
              resGet_resRemoveEtag hn hrow htag
            simp [committed, hc, hgone, htag]
        · simp [h14, hrow, htag]
      · rw [if_neg htag]
        simp [hrow, h6, htag]
  · simp [h6]

theorem dbResourceRemove_truthful_iff :
    Truthful (some (deleteStatus ((dbResourceRemove url colid).run cs db).1)) (Sql.resGet colid url db)
      (Sql.resGet colid url ((dbResourceRemove url colid).run cs db).2.1) ↔
    ((cs 0).quiet 4 → (Sql.resGet colid url db).isSome → (cs 1).quiet 3) := by
  rw [truthful_deleteStatus, dbResourceRemove_row, dbResourceRemove_run]
  by_cases h4 : (cs 0).quiet 4
  · by_cases h3 : (cs 1).quiet 3
    · simp [h4, h3]
    · cases hrow : Sql.resGet colid url db with
      | none => simp [h4, h3]
      | some row => simp [h4, h3]
  · simp [h4]

end Delete

/-- A `DELETE` answered with 204 has removed the resource and any other has left it,
exactly where a tag that is given is that of the row, if there is one, and does not
meet a transaction that is undone, and where a removal without a tag is not followed
by a failure to count up the ctag. -/
theorem delete_truthful_iff (r : Kreq) (st : State) (cfg : Coln) (cs : ℕ → Choice) (db : Db) (hn : Named db)
    (hcfg : st.cfg = some cfg) (hname : st.resource ≠ []) :
    Truthful ((methodDelete r st).run cs db).1.status (Sql.resGet cfg.id st.resource db)
      (Sql.resGet cfg.id st.resource ((methodDelete r st).run cs db).2.1) ↔
    match headerDigest r.ifMatch with
    | some digest => (cs 0).quiet 6 → ∀ row, Sql.resGet cfg.id st.resource db = some row →
      row.etag = digest ∧ ((cs 0).quiet 14 → ¬(cs 0).commitFails)
    | none => (cs 0).quiet 4 → (Sql.resGet cfg.id st.resource db).isSome → (cs 1).quiet 3 := by
  have hrun := methodDelete_run r cs db hcfg hname
  cases hdigest : headerDigest r.ifMatch with
  | some digest =>
    rw [hdigest] at hrun
    obtain ⟨hstatus, hdb⟩ := Prod.mk.inj hrun
    rw [hstatus, hdb]
    exact resourceDelete_truthful_iff hn
  | none =>
    rw [hdigest] at hrun
    obtain ⟨hstatus, hdb⟩ := Prod.mk.inj hrun
    rw [hstatus, hdb]
    exact dbResourceRemove_truthful_iff

theorem oneEvent_named : Named .oneEvent := by
  intro r hr r' hr' _ _
  rw [List.mem_singleton.mp hr, List.mem_singleton.mp hr']

/-- With the tag of the resource. -/
theorem delete_truthful_iff_current :
    Truthful ((methodDelete (deleteIf (ascii "1-1")) .atEvent).run (fun _ => .calm) .oneEvent).1.status
      (Sql.resGet 1 (ascii "a.ics") .oneEvent)
      (Sql.resGet 1 (ascii "a.ics")
        ((methodDelete (deleteIf (ascii "1-1")) .atEvent).run (fun _ => .calm) .oneEvent).2.1) := by
  refine (delete_truthful_iff (deleteIf (ascii "1-1")) .atEvent _ (fun _ => .calm) .oneEvent oneEvent_named rfl
    (by decide)).mpr ?_
  intro _ row hrow
  have hone : Sql.resGet 1 (ascii "a.ics") .oneEvent =
      some ⟨1, ascii "a.ics", ascii "1-1", ascii "BEGIN:VCALENDAR\nEND:VCALENDAR\n", 1⟩ := by decide +kernel
  cases hone.symm.trans hrow
  exact ⟨rfl, fun _ => Bool.false_ne_true⟩

/-- With an old tag the answer is 204 and the resource stays. -/
theorem delete_not_truthful : ¬∀ (r : Kreq) (st : State) (cfg : Coln) (cs : ℕ → Choice) (db : Db), Named db →
    st.cfg = some cfg → st.resource ≠ [] →
    Truthful ((methodDelete r st).run cs db).1.status (Sql.resGet cfg.id st.resource db)
      (Sql.resGet cfg.id st.resource ((methodDelete r st).run cs db).2.1) := by
  intro h
  have htruth := h (deleteIf (ascii "2-2")) .atEvent _ (fun _ => .calm) .oneEvent oneEvent_named rfl (by decide)
  have hgone := htruth.1 (by decide +kernel)
  exact absurd hgone (by decide +kernel)

end Kcaldav
