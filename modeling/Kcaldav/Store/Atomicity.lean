import Kcaldav.Store.Outcome

/-! # All or nothing

A routine that changes rows is to change all of them and say so, or none and say
that. Three routines make their change in a statement of its own and increment the
ctag in a second one; the others do all in one transaction and do not look at what
`COMMIT` returns. Each is all-or-nothing exactly where its last step, the second
statement or the `COMMIT`, does not fail after a change.
-/
namespace Kcaldav
open CString

/-- A call of a routine that changes rows. -/
inductive Mutator
  | resourceNew (data url : Bytes) (colid : Int) (etag : Bytes)
  | resourceRemove (url : Bytes) (colid : Int)
  | resourceUpdate (data url digest : Bytes) (colid : Int) (etag : Bytes)
  | resourceDelete (url tag : Bytes) (colid : Int)
  | collectionUpdate (c : Coln)
  | prncplNew (name hash email directory : Bytes)
  | nonceNew (draws : List Bytes)
  | nonceUpdate (nonce : Bytes) (count : Int)

namespace Mutator
variable (C : Libc)

/-- Make the call: does it return a success? -/
def call : Mutator → DbProg Bool
  | resourceNew data url colid etag => do return (← dbResourceNew data url colid etag) > 0
  | resourceRemove url colid => dbResourceRemove url colid
  | resourceUpdate data url digest colid etag => do return (← dbResourceUpdate C data url digest colid etag) > 0
  | resourceDelete url tag colid => dbResourceDelete url tag colid
  | collectionUpdate c => dbCollectionUpdate c
  | prncplNew name hash email directory => do return (← dbPrncplNew name hash email directory) > 0
  | nonceNew draws => do return (← dbNonceNew draws).isSome
  | nonceUpdate nonce count => do return (← dbNonceUpdate nonce count) = .ok

/-- Does the call return a success, and what database does it leave? -/
def outcome (m : Mutator) (cs : ℕ → Choice) (db : Db) : Bool × Db :=
  let r := (m.call C).run cs db
  (r.1, r.2.1)

/-- All the row changes of a successful call, from the first database to the second. -/
def Done : Mutator → Choice → Db → Db → Prop
  | resourceNew data url colid etag, _, db, db' =>
    ∃ db₁, Sql.resInsert (cstr data) url colid etag db = some db₁ ∧ db' = Sql.colUpdateCtag colid db₁
  | resourceRemove url colid, _, db, db' => db' = Sql.colUpdateCtag colid (Sql.resRemove url colid db)
  | resourceUpdate data url digest colid etag, _, db, db' =>
    ∃ r, Sql.resGet colid url db = some r ∧ r.etag = digest ∧
      db' = Sql.colUpdateCtag colid (Sql.resUpdate (cstr data) etag r.id db)
  | resourceDelete url tag colid, _, db, db' =>
    db' = if (Sql.resGetEtag url colid tag db).isSome then
      Sql.colUpdateCtag colid (Sql.resRemoveEtag url colid tag db) else db
  | collectionUpdate c, _, db, db' =>
    ∃ db₁, Sql.colUpdate c.displayname c.colour c.description c.id db = some db₁ ∧
      db' = Sql.colUpdateCtag c.id db₁
  | prncplNew name hash email directory, _, db, db' =>
    ∃ db₁, Sql.prncplInsert name hash email db = some db₁ ∧
      Sql.colInsert db₁.principalSeq directory db₁ = some db'
  | nonceNew draws, e, db, db' => ∃ nonce ∈ draws, Sql.nonceInsert nonce (nonceRoom e db).2 = some db'
  | nonceUpdate nonce count, _, db, db' =>
    nonceCheck nonce count db = .ok ∧ db' = Sql.nonceUpdate (int64 (count + 1)) nonce db

/-- A success has made all the changes; any other result goes with the database as
it was. -/
def AllOrNothing (m : Mutator) (cs : ℕ → Choice) (db : Db) : Prop :=
  if (m.outcome C cs db).1 then m.Done (cs 0) db (m.outcome C cs db).2 else (m.outcome C cs db).2 = db

/-! ## When a call is all-or-nothing -/

/-- The database when only the last step is to come, if the call gets there. -/
def reached : Mutator → Choice → Db → Option Db
  | resourceNew data url colid etag, e, db => if e.quiet 6 then Sql.resInsert (cstr data) url colid etag db else none
  | resourceRemove url colid, e, db => if e.quiet 4 then some (Sql.resRemove url colid db) else none
  | resourceUpdate data url digest colid etag, e, db =>
    match resourceLoaded C url colid e.erange db with
    | .found res =>
      if e.quiet 13 ∧ res.etag = digest then
        some (Sql.colUpdateCtag colid (Sql.resUpdate (cstr data) etag res.id db))
      else none
    | _ => none
  | resourceDelete url tag colid, e, db =>
    if e.quiet 14 ∧ (Sql.resGetEtag url colid tag db).isSome then
      some (Sql.colUpdateCtag colid (Sql.resRemoveEtag url colid tag db))
    else none
  | collectionUpdate c, e, db =>
    if e.quiet 6 then Sql.colUpdate c.displayname c.colour c.description c.id db else none
  | prncplNew name hash email directory, e, db =>
    if e.quiet 10 then
      (Sql.prncplInsert name hash email db).bind fun db₁ => Sql.colInsert db₁.principalSeq directory db₁
    else none
  | nonceNew draws, e, db =>
    if e.quiet ((nonceRoom e db).1 + 1) then
      (drawNonce draws (e.skip ((nonceRoom e db).1 + 1)) (nonceRoom e db).2).map Prod.snd
    else none
  | nonceUpdate nonce count, e, db =>
    if e.quiet 8 ∧ nonceCheck nonce count db = .ok then some (Sql.nonceUpdate (int64 (count + 1)) nonce db) else none

/-- The last step of the call does not fail: the statement for the ctag where that
is one of its own, else the `COMMIT`. -/
def Closes : Mutator → (ℕ → Choice) → Prop
  | resourceNew .., cs | resourceRemove .., cs | collectionUpdate .., cs => (cs 1).quiet 3
  | resourceUpdate .., cs | resourceDelete .., cs | prncplNew .., cs | nonceNew .., cs | nonceUpdate .., cs =>
    ¬(cs 0).commitFails

/-! Two shapes of a call: a change followed by a statement for the ctag, and a
transaction. -/

section Shapes
variable {r : Bool × Db} {db : Db} {reach : Option Db} {Done : Db → Prop}

theorem allOrNothing_statements (closes : Bool) (bump : Db → Db)
    (hr : r = match reach with
      | none => (false, db)
      | some db₁ => if closes then (true, bump db₁) else (false, db₁))
    (hdone : ∀ db₁, reach = some db₁ → Done (bump db₁)) :
    (if r.1 then Done r.2 else r.2 = db) ↔ ∀ db₁, reach = some db₁ → db₁ ≠ db → closes := by
  cases hreach : reach with
  | none =>
    rw [hreach] at hr
    rw [hr]
    constructor
    · intro _ db₁ h
      cases h
    · intro _
      exact rfl
  | some db₁ =>
    rw [hreach] at hr
    cases closes with
    | true =>
      rw [hr]
      constructor
      · intro _ _ _ _
        rfl
      · intro _
        exact hdone db₁ hreach
    | false =>
      rw [hr]
      constructor
      · intro h db₂ hdb hne
        cases hdb
        exact absurd h hne
      · intro h
        by_contra hne
        exact Bool.false_ne_true (h db₁ rfl hne)

theorem allOrNothing_transaction (idle fails : Bool)
    (hr : r = match reach with
      | none => (idle, db)
      | some db' => (true, if fails then db else db'))
    (hidle : reach = none → idle = true → Done db) (hdone : ∀ db', reach = some db' → Done db')
    (hback : ∀ db', reach = some db' → Done db → db' = db) :
    (if r.1 then Done r.2 else r.2 = db) ↔ ∀ db', reach = some db' → db' ≠ db → ¬fails := by
  cases hreach : reach with
  | none =>
    rw [hreach] at hr
    rw [hr]
    constructor
    · intro _ db' h
      cases h
    · intro _
      cases hi : idle with
      | false => exact rfl
      | true => exact hidle hreach hi
  | some db' =>
    rw [hreach] at hr
    rw [hr]
    cases fails with
    | true =>
      constructor
      · intro h db₂ hdb hne
        cases hdb
        exact absurd (hback db' hreach h) hne
      · intro h
        have hsame : db' = db := by
          by_contra hne
          exact h db' rfl hne rfl
        exact hsame ▸ hdone db' hreach
    | false =>
      constructor
      · intro _ _ _ _
        exact Bool.false_ne_true
      · intro _
        exact hdone db' hreach

end Shapes

theorem run_change (n : Nat) (f : Db → Option Db) (colid : Int) (cs : ℕ → Choice) (db : Db) :
    (fun r : Bool × Db × (ℕ → Choice) => (r.1, r.2.1)) ((do
      let done ← Prog.atom (statement n false false true f)
      if done then Prog.atom (statement 3 false false true fun db => some (Sql.colUpdateCtag colid db))
      else return false : DbProg Bool).run cs db) =
    match (if (cs 0).quiet n then f db else none) with
    | none => (false, db)
    | some db₁ => if (cs 1).quiet 3 then (true, Sql.colUpdateCtag colid db₁) else (false, db₁) := by
  rw [Prog.atom_bind, Prog.run_act]
  unfold statement
  cases (cs 0).quiet n with
  | false => rfl
  | true =>
    cases f db with
    | none => rfl
    | some db₁ =>
      dsimp only
      cases hq : (cs 1).quiet 3 <;> simp [hq]

/-- The last step, if the call gets there with a change, does not fail. -/
def Safe (m : Mutator) (cs : ℕ → Choice) (db : Db) : Prop :=
  ∀ db', m.reached C (cs 0) db = some db' → db' ≠ db → m.Closes cs

variable (cs : ℕ → Choice) (db : Db)

theorem resourceNew_iff (data url : Bytes) (colid : Int) (etag : Bytes) :
    (resourceNew data url colid etag).AllOrNothing C cs db ↔ (resourceNew data url colid etag).Safe C cs db := by
  unfold AllOrNothing Safe
  refine allOrNothing_statements ((cs 1).quiet 3) (Sql.colUpdateCtag colid) ?_ fun db₁ h => ?_
  · rw [reached, outcome, call]
    simp only [Prog.run_bind, dbResourceNew_run]
    cases (cs 0).quiet 6 with
    | false => rfl
    | true =>
      cases Sql.resInsert (cstr data) url colid etag db with
      | none => rfl
      | some db₁ => cases (cs 1).quiet 3 <;> rfl
  · rw [reached] at h
    split at h
    · exact ⟨db₁, h, rfl⟩
    · cases h

theorem resourceRemove_iff (url : Bytes) (colid : Int) :
    (resourceRemove url colid).AllOrNothing C cs db ↔ (resourceRemove url colid).Safe C cs db := by
  unfold AllOrNothing Safe
  refine allOrNothing_statements ((cs 1).quiet 3) (Sql.colUpdateCtag colid) ?_ fun db₁ h => ?_
  · rw [reached, outcome, call, dbResourceRemove_eq]
    exact run_change 4 _ colid cs db
  · rw [reached] at h
    split at h
    · cases h
      rfl
    · cases h

theorem collectionUpdate_iff (c : Coln) :
    (collectionUpdate c).AllOrNothing C cs db ↔ (collectionUpdate c).Safe C cs db := by
  unfold AllOrNothing Safe
  refine allOrNothing_statements ((cs 1).quiet 3) (Sql.colUpdateCtag c.id) ?_ fun db₁ h => ?_
  · rw [reached, ← run_change, outcome, call, dbCollectionUpdate_eq]
  · rw [reached] at h
    split at h
    · exact ⟨db₁, h, rfl⟩
    · cases h

theorem reached_resourceUpdate {data url digest : Bytes} {colid : Int} {etag : Bytes} {e : Choice} {db' : Db}
    (h : (resourceUpdate data url digest colid etag).reached C e db = some db') :
    ∃ r, Sql.resGet colid url db = some r ∧ r.etag = digest ∧
      db' = Sql.colUpdateCtag colid (Sql.resUpdate (cstr data) etag r.id db) := by
  rw [reached] at h
  rcases hload : resourceLoaded C url colid e.erange db with _ | _ | res
  · rw [hload] at h
    cases h
  · rw [hload] at h
    cases h
  · simp only [hload] at h
    obtain ⟨r, ical, q, hget, _, hres⟩ := resourceLoaded_found C hload
    split at h
    next htag =>
      cases h
      rw [hres] at htag ⊢
      exact ⟨r, hget, htag.2, rfl⟩
    · cases h

theorem resourceUpdate_iff (data url digest : Bytes) (colid : Int) (etag : Bytes) :
    (resourceUpdate data url digest colid etag).AllOrNothing C cs db ↔
      (resourceUpdate data url digest colid etag).Safe C cs db := by
  unfold AllOrNothing Safe
  refine allOrNothing_transaction false (cs 0).commitFails ?_ (fun _ h => nomatch h) (fun db' h => ?_)
    fun db' h hdone => ?_
  · rw [reached, outcome, call, dbResourceUpdate_eq, Prog.atom_bind, Prog.run_act]
    have h5 : (cs 0).quiet 13 → (cs 0).quiet 5 := Choice.quiet_mono (by omega)
    unfold Kcaldav.resourceUpdate
    cases h13 : (cs 0).quiet 13 with
    | false =>
      cases (cs 0).quiet 5 with
      | false => rcases resourceLoaded C url colid (cs 0).erange db with _ | _ | res <;> simp
      | true =>
        rcases resourceLoaded C url colid (cs 0).erange db with _ | _ | res
        · rfl
        · rfl
        · by_cases htag : res.etag = digest <;> simp [htag]
    | true =>
      rw [h5 h13]
      rcases resourceLoaded C url colid (cs 0).erange db with _ | _ | res
      · rfl
      · rfl
      · by_cases htag : res.etag = digest <;> simp [htag, committed]
  · exact reached_resourceUpdate C db h
  · obtain ⟨r, hget, _, hdb⟩ := reached_resourceUpdate C db h
    obtain ⟨r', hget', _, hsame⟩ := hdone
    obtain rfl : r = r' := Option.some.inj (hget.symm.trans hget')
    exact hdb.trans hsame.symm

theorem resourceDelete_iff (url tag : Bytes) (colid : Int) :
    (resourceDelete url tag colid).AllOrNothing C cs db ↔ (resourceDelete url tag colid).Safe C cs db := by
  have h6 : (cs 0).quiet 14 → (cs 0).quiet 6 := Choice.quiet_mono (by omega)
  unfold AllOrNothing Safe
  refine allOrNothing_transaction ((cs 0).quiet 6 && (Sql.resGetEtag url colid tag db).isNone) (cs 0).commitFails ?_
    (fun hnone hidle => ?_) (fun db' h => ?_) fun db' h hdone => ?_
  · rw [reached, outcome, call, dbResourceDelete_eq, Prog.run_atom]
    unfold Kcaldav.resourceDelete
    cases h14 : (cs 0).quiet 14 with
    | false => cases (cs 0).quiet 6 <;> cases Sql.resGetEtag url colid tag db <;> simp
    | true => cases Sql.resGetEtag url colid tag db <;> simp [h6 h14, committed]
  · rw [Bool.and_eq_true, Option.isNone_iff_eq_none] at hidle
    rw [Done, hidle.2]
    rfl
  · rw [reached] at h
    split at h
    next hget =>
      cases h
      rw [Done, if_pos hget.2]
    · cases h
  · rw [reached] at h
    split at h
    next hget =>
      cases h
      rw [Done, if_pos hget.2] at hdone
      exact hdone.symm
    · cases h

theorem prncplNew_iff (name hash email directory : Bytes) :
    (prncplNew name hash email directory).AllOrNothing C cs db ↔
      (prncplNew name hash email directory).Safe C cs db := by
  have h6 : (cs 0).quiet 10 → (cs 0).quiet 6 := Choice.quiet_mono (by omega)
  unfold AllOrNothing Safe
  refine allOrNothing_transaction false (cs 0).commitFails ?_ (fun _ h => nomatch h) (fun db' h => ?_)
    fun db' h hdone => ?_
  · rw [reached, outcome, call, dbPrncplNew_eq, Prog.atom_bind, Prog.run_act]
    unfold Kcaldav.prncplNew
    cases h10 : (cs 0).quiet 10 with
    | false => cases (cs 0).quiet 6 <;> cases Sql.prncplInsert name hash email db <;> simp
    | true =>
      rw [h6 h10]
      cases Sql.prncplInsert name hash email db with
      | none => rfl
      | some db₁ => cases hcol : Sql.colInsert db₁.principalSeq directory db₁ <;> simp [hcol, committed]
  · rw [reached] at h
    split at h
    · exact Option.bind_eq_some_iff.mp h
    · cases h
  · rw [reached] at h
    split at h
    · obtain ⟨db₁, hins, hcol⟩ := Option.bind_eq_some_iff.mp h
      obtain ⟨db₂, hins', hcol'⟩ := hdone
      obtain rfl : db₁ = db₂ := Option.some.inj (hins.symm.trans hins')
      exact Option.some.inj (hcol.symm.trans hcol')
    · cases h

theorem nonceNew_iff (draws : List Bytes) :
    (nonceNew draws).AllOrNothing C cs db ↔ (nonceNew draws).Safe C cs db := by
  unfold AllOrNothing Safe
  refine allOrNothing_transaction false (cs 0).commitFails ?_ (fun _ h => nomatch h) (fun db' h => ?_)
    fun db' h hdone => ?_
  · rw [reached, outcome, call, dbNonceNew_eq, Prog.atom_bind, Prog.run_act]
    unfold Kcaldav.nonceNew
    dsimp only
    cases (cs 0).quiet ((nonceRoom (cs 0) db).1 + 1) with
    | false => rfl
    | true =>
      rcases drawNonce draws _ (nonceRoom (cs 0) db).2 with _ | ⟨nonce, db'⟩
      · rfl
      · rfl
  · rw [reached] at h
    split at h
    · obtain ⟨⟨nonce, db₁⟩, hdraw, rfl⟩ := Option.map_eq_some_iff.mp h
      exact ⟨nonce, drawNonce_some hdraw⟩
    · cases h
  · -- the sequence of identifiers shows that the call has done something
    obtain ⟨nonce, _, hins⟩ := hdone
    obtain ⟨-, -, hseq⟩ := nonceInsert_eq hins
    rw [nonceRoom_seq] at hseq
    omega

theorem nonceUpdate_iff (nonce : Bytes) (count : Int) :
    (nonceUpdate nonce count).AllOrNothing C cs db ↔ (nonceUpdate nonce count).Safe C cs db := by
  unfold AllOrNothing Safe
  refine allOrNothing_transaction false (cs 0).commitFails ?_ (fun _ h => nomatch h) (fun db' h => ?_)
    fun db' h hdone => ?_
  · rw [reached, outcome, call, dbNonceUpdate_eq, Prog.atom_bind, Prog.run_act]
    have h4 : (cs 0).quiet 8 → (cs 0).quiet 4 := Choice.quiet_mono (by omega)
    unfold Kcaldav.nonceUpdate
    by_cases hok : nonceCheck nonce count db = .ok
    · cases h8 : (cs 0).quiet 8 with
      | false => cases (cs 0).quiet 4 <;> simp [hok]
      | true => simp [h4 h8, hok, committed]
    · cases (cs 0).quiet 4 <;> simp [hok]
  · rw [reached] at h
    split at h
    next hok =>
      cases h
      exact ⟨hok.2, rfl⟩
    · cases h
  · rw [reached] at h
    split at h
    · cases h
      exact hdone.2.symm
    · cases h

end Mutator

/-- A call is all-or-nothing exactly where its last step, if it gets there with a
change, does not fail. -/
theorem mutator_allOrNothing_iff (C : Libc) (m : Mutator) (cs : ℕ → Choice) (db : Db) :
    m.AllOrNothing C cs db ↔ m.Safe C cs db := by
  cases m with
  | resourceNew data url colid etag => exact Mutator.resourceNew_iff C cs db data url colid etag
  | resourceRemove url colid => exact Mutator.resourceRemove_iff C cs db url colid
  | resourceUpdate data url digest colid etag => exact Mutator.resourceUpdate_iff C cs db data url digest colid etag
  | resourceDelete url tag colid => exact Mutator.resourceDelete_iff C cs db url tag colid
  | collectionUpdate c => exact Mutator.collectionUpdate_iff C cs db c
  | prncplNew name hash email directory => exact Mutator.prncplNew_iff C cs db name hash email directory
  | nonceNew draws => exact Mutator.nonceNew_iff C cs db draws
  | nonceUpdate nonce count => exact Mutator.nonceUpdate_iff C cs db nonce count

/-- A resource is created although the call reports an error, because the ctag could
not be incremented. -/
theorem resourceNew_not_allOrNothing :
    ¬∀ (C : Libc) (m : Mutator) (cs : ℕ → Choice) (db : Db), m.AllOrNothing C cs db := by
  intro h
  have hnew := h .utc (.resourceNew (ascii "data") (ascii "a.ics") 1 (ascii "1-1"))
    (fun n => if n = 0 then .calm else { Choice.calm with faults := [true] }) .oneCalendar
  have hfailed : (Mutator.outcome .utc (.resourceNew (ascii "data") (ascii "a.ics") 1 (ascii "1-1"))
      (fun n => if n = 0 then .calm else { Choice.calm with faults := [true] }) .oneCalendar).1 = false := by
    decide +kernel
  unfold Mutator.AllOrNothing at hnew
  rw [hfailed] at hnew
  exact absurd (congrArg Db.resourceSeq hnew) (by decide +kernel)

end Kcaldav
