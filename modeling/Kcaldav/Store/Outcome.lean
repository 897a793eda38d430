import Kcaldav.Store.Principal
import Kcaldav.Store.Nonce

/-! # What one action of a routine does

Each routine as a sequence of atomic actions, every one of them given in closed
form: which steps must be quiet for it to take effect, what it returns and what
database it leaves. All later results about routines rest on these equations and
do not look into the routines again.
-/
namespace Kcaldav
open CString

variable {α : Type}

/-- A statement of `n` SQL steps outside a transaction, with what is returned when
a step fails, when the statement is refused and when it is done. -/
def statement (n : Nat) (err refused done : α) (f : Db → Option Db) (e : Choice) (db : Db) : α × Db :=
  if e.quiet n then
    match f db with
    | none => (refused, db)
    | some db' => (done, db')
  else (err, db)

theorem statement_cases (n : Nat) (err refused done : α) (f : Db → Option Db) (e : Choice) (db : Db) :
    statement n err refused done f e db = (err, db) ∨
    (f db = none ∧ statement n err refused done f e db = (refused, db)) ∨
    ∃ db', f db = some db' ∧ statement n err refused done f e db = (done, db') := by
  unfold statement
  split
  · cases hf : f db with
    | none => exact Or.inr (Or.inl ⟨rfl, rfl⟩)
    | some db' => exact Or.inr (Or.inr ⟨db', rfl, rfl⟩)
  · exact Or.inl rfl

/-- A transaction that has come to its `COMMIT`. -/
def committed (done : α) (e : Choice) (db db' : Db) : α × Db := (done, if e.commitFails then db else db')

theorem routine_statementConstrained (n : Nat) (f : Db → Option Db) (err refused done : α) :
    routine err (do
      dbPrepare
      dbBind n
      if ← dbStepConstrained f then return done else return refused) =
    Prog.atom (statement (n + 2) err refused done f) := by
  refine congrArg Prog.atom ?_
  funext e db
  rw [statementConstrained_bind, statement]
  cases e.quiet (n + 2) with
  | false =>
    change (err, (Session.stuck (n + 2) ⟨db, db, e⟩).db) = _
    rw [stuck_db]
    rfl
  | true => cases f db <;> rfl

theorem routine_statement (n : Nat) (f : Db → Option Db) (err done : α) :
    routine err (do
      dbPrepare
      dbBind n
      dbStep f
      return done) =
    Prog.atom (statement (n + 2) err err done f) := by
  refine congrArg Prog.atom ?_
  funext e db
  rw [statement_bind, statement]
  cases e.quiet (n + 2) with
  | false =>
    change (err, (Session.stuck (n + 2) ⟨db, db, e⟩).db) = _
    rw [stuck_db]
    rfl
  | true => cases f db <;> rfl

/-- A query of `n` SQL steps changes nothing. -/
def query (n : Nat) (err : α) (f : Choice → Db → α) (e : Choice) (db : Db) : α × Db :=
  if e.quiet n then (f e db, db) else (err, db)

/-! ## Transactions

What a run from `BEGIN` on leaves: the value returned with the database, or the
value of the `err` label with the database as it was saved. -/

def settle (err : α) (r : Option α × Session) : α × Db :=
  match r with
  | (some a, t) => (a, t.db)
  | (none, t) => (err, t.saved)

theorem routine_inTransaction (err : α) (body : Sql α) :
    routine err (inTransaction err body) =
      Prog.atom fun e db => if e.quiet 1 then settle err (body ⟨db, db, e.skip 1⟩) else (err, db) := by
  refine congrArg Prog.atom ?_
  funext e db
  rw [inTransaction_apply]
  cases e.quiet 1 with
  | false => rfl
  | true =>
    change (_ : α × Db) = settle err (body ⟨db, db, e.skip 1⟩)
    have hs : { (Session.skip 1 ⟨db, db, e⟩) with saved := db } = (⟨db, db, e.skip 1⟩ : Session) := rfl
    rw [if_pos rfl, hs]
    rcases body ⟨db, db, e.skip 1⟩ with ⟨_ | a, t⟩ <;> rfl

section Settle
variable {β : Type} (err : α) (n : Nat) (s : Session)

theorem settle_statementConstrained (g : Db → Option Db) (f : Bool → Sql α) :
    settle err ((dbPrepare >>= fun _ => dbBind n >>= fun _ => dbStepConstrained g >>= f) s) =
      if s.choice.quiet (n + 2) then
        match g s.db with
        | none => settle err (f false (s.skip (n + 2)))
        | some db => settle err (f true { s.skip (n + 2) with db := db })
      else (err, s.saved) := by
  rw [statementConstrained_bind]
  cases s.choice.quiet (n + 2) with
  | false => exact congrArg (Prod.mk err) (stuck_saved (n + 2) s)
  | true => cases g s.db <;> rfl

theorem settle_statement (g : Db → Option Db) (f : Unit → Sql α) :
    settle err ((dbPrepare >>= fun _ => dbBind n >>= fun _ => dbStep g >>= f) s) =
      if s.choice.quiet (n + 2) then
        match g s.db with
        | none => (err, s.saved)
        | some db => settle err (f () { s.skip (n + 2) with db := db })
      else (err, s.saved) := by
  rw [statement_bind]
  cases s.choice.quiet (n + 2) with
  | false => exact congrArg (Prod.mk err) (stuck_saved (n + 2) s)
  | true => cases g s.db <;> rfl

theorem settle_statementQuery (g : Db → β) (f : β → Sql α) :
    settle err ((dbPrepare >>= fun _ => dbBind n >>= fun _ => dbQuery g >>= f) s) =
      if s.choice.quiet (n + 2) then settle err (f (g s.db) (s.skip (n + 2))) else (err, s.saved) := by
  rw [statementQuery_bind]
  cases s.choice.quiet (n + 2) with
  | false => exact congrArg (Prod.mk err) (stuck_saved (n + 2) s)
  | true => rfl

theorem settle_commit (a : α) :
    settle err ((dbTransCommit >>= fun _ => pure a) s) = committed a s.choice s.saved s.db := by
  unfold dbTransCommit committed
  change (a, (if s.choice.commitFails then { s with db := s.saved } else s).db) = _
  cases s.choice.commitFails <;> rfl

end Settle

/-! ## The ctag -/

theorem dbCollectionUpdateCtag_apply (id : Int) (s : Session) :
    dbCollectionUpdateCtag id s =
      if s.choice.quiet 3 then (some true, { s.skip 3 with db := Sql.colUpdateCtag id s.db })
      else (some false, s.stuck 3) := by
  rw [dbCollectionUpdateCtag, orElse_pure, statement_bind]
  cases s.choice.quiet 3 <;> rfl

theorem routine_dbCollectionUpdateCtag (id : Int) :
    routine false (dbCollectionUpdateCtag id) =
      Prog.atom (statement 3 false false true fun db => some (Sql.colUpdateCtag id db)) := by
  refine congrArg Prog.atom ?_
  funext e db
  rw [dbCollectionUpdateCtag_apply, statement]
  cases e.quiet 3 with
  | false =>
    change (false, (Session.stuck 3 ⟨db, db, e⟩).db) = _
    rw [stuck_db]
    rfl
  | true => rfl

/-- The last steps of a transaction on a resource: the change, the ctag, `COMMIT`. -/
theorem settle_change (err done : α) (n : Nat) (f : Db → Db) (colid : Int) (s : Session) :
    settle err ((do
      dbPrepare
      dbBind n
      dbStep fun db => some (f db)
      if ← dbCollectionUpdateCtag colid then
        let _ ← dbTransCommit
        return done
      else Fallible.fail) s) =
    if s.choice.quiet (n + 5) then committed done s.choice s.saved (Sql.colUpdateCtag colid (f s.db))
    else (err, s.saved) := by
  rw [settle_statement, Choice.quiet_add (n + 2) 3]
  cases hn : s.choice.quiet (n + 2) with
  | false => rfl
  | true =>
    have htag := dbCollectionUpdateCtag_apply colid { s.skip (n + 2) with db := f s.db }
    rw [if_pos rfl, Bool.true_and]
    cases h3 : (s.choice.skip (n + 2)).quiet 3 with
    | false =>
      have hfail := htag.trans (if_neg (by simp [h3]))
      refine (congrArg (settle err) (Fallible.bind_of_some hfail)).trans ?_
      exact congrArg (Prod.mk err) (stuck_saved 3 _)
    | true =>
      have hdone := htag.trans (if_pos h3)
      refine (congrArg (settle err) (Fallible.bind_of_some hdone)).trans ?_
      exact settle_commit err _ done

/-! ## Collections -/

theorem dbCollectionUpdate_eq (c : Coln) :
    dbCollectionUpdate c = do
      let updated ← Prog.atom (statement 6 false false true (Sql.colUpdate c.displayname c.colour c.description c.id))
      if updated then Prog.atom (statement 3 false false true fun db => some (Sql.colUpdateCtag c.id db))
      else return false := by
  rw [dbCollectionUpdate, routine_statement, routine_dbCollectionUpdateCtag]

theorem dbCollectionUpdate_run (c : Coln) (cs : ℕ → Choice) (db : Db) :
    (dbCollectionUpdate c).run cs db =
      if (cs 0).quiet 6 then
        match Sql.colUpdate c.displayname c.colour c.description c.id db with
        | none => (false, db, fun n => cs (n + 1))
        | some db₁ =>
          if (cs 1).quiet 3 then (true, Sql.colUpdateCtag c.id db₁, fun n => cs (n + 2))
          else (false, db₁, fun n => cs (n + 2))
      else (false, db, fun n => cs (n + 1)) := by
  rw [dbCollectionUpdate_eq, Prog.atom_bind, Prog.run_act]
  unfold statement
  cases (cs 0).quiet 6 with
  | false => rfl
  | true =>
    cases Sql.colUpdate c.displayname c.colour c.description c.id db with
    | none => rfl
    | some db₁ =>
      dsimp only
      cases hq : (cs 1).quiet 3 <;> simp [hq]

theorem dbCollectionRemove_eq (id : Int) :
    dbCollectionRemove id = Prog.atom (statement 3 false false true fun db => some (Sql.colRemove id db)) :=
  routine_statement 1 _ false true

theorem dbCollectionGet_eq (q : Db → Option ColRow) :
    dbCollectionGet q = Prog.atom (query 4 .error fun _ db =>
      match q db with
      | none => .absent
      | some c => .found c.coln) := by
  refine congrArg Prog.atom ?_
  funext e db
  rw [statementQuery_bind, query]
  cases e.quiet 4 with
  | false =>
    change (Loaded.error, (Session.stuck 4 ⟨db, db, e⟩).db) = _
    rw [stuck_db]
    rfl
  | true => cases q db <;> rfl

/-! ## Resources -/

variable (C : Libc)

/-- What a load finds. -/
def resourceLoaded (url : Bytes) (colid : Int) (erange : Bool) (db : Db) : Loaded Res :=
  match Sql.resGet colid url db with
  | none => .absent
  | some r =>
    match (icalParse C none erange r.data 0).1 with
    | none => .error
    | some (ical, _) => .found (r.res ical)

theorem dbResourceLoad_apply (url : Bytes) (colid : Int) (s : Session) :
    dbResourceLoad C url colid s =
      if s.choice.quiet 4 then (some (resourceLoaded C url colid s.choice.erange s.db), s.skip 4)
      else (some .error, s.stuck 4) := by
  rw [dbResourceLoad, orElse_pure, statementQuery_bind]
  cases s.choice.quiet 4 with
  | false => rfl
  | true =>
    rw [if_pos rfl, if_pos rfl, resourceLoaded]
    cases Sql.resGet colid url s.db with
    | none => rfl
    | some r =>
      dsimp only
      rw [Fallible.gets_bind, Session.skip_choice, Choice.skip_erange]
      rcases (icalParse C none s.choice.erange r.data 0).1 with _ | ⟨ical, q⟩ <;> rfl

/-- What a load finds is a row that can be parsed. -/
theorem resourceLoaded_found {url : Bytes} {colid : Int} {erange : Bool} {db : Db} {res : Res}
    (h : resourceLoaded C url colid erange db = .found res) :
    ∃ r ical q, Sql.resGet colid url db = some r ∧ (icalParse C none erange r.data 0).1 = some (ical, q) ∧
      res = r.res ical := by
  unfold resourceLoaded at h
  cases hget : Sql.resGet colid url db with
  | none =>
    rw [hget] at h
    cases h
  | some r =>
    simp only [hget] at h
    rcases hparse : (icalParse C none erange r.data 0).1 with _ | ⟨ical, q⟩
    · simp only [hparse] at h
      cases h
    · simp only [hparse] at h
      cases h
      exact ⟨r, ical, q, rfl, hparse, rfl⟩

def resourceUpdate (data url digest : Bytes) (colid : Int) (etag : Bytes) (e : Choice) (db : Db) : Int × Db :=
  if e.quiet 5 then
    match resourceLoaded C url colid e.erange db with
    | .error => (-1, db)
    | .absent => (0, db)
    | .found res =>
      if res.etag ≠ digest then (0, db)
      else if e.quiet 13 then committed 1 e db (Sql.colUpdateCtag colid (Sql.resUpdate (cstr data) etag res.id db))
      else (-1, db)
  else (-1, db)

theorem dbResourceUpdate_eq (data url digest : Bytes) (colid : Int) (etag : Bytes) :
    dbResourceUpdate C data url digest colid etag = Prog.atom (resourceUpdate C data url digest colid etag) := by
  rw [dbResourceUpdate, routine_inTransaction]
  refine congrArg Prog.atom ?_
  funext e db
  have hload := dbResourceLoad_apply C url colid ⟨db, db, e.skip 1⟩
  rw [resourceUpdate, Choice.quiet_add 1 4]
  cases h1 : e.quiet 1 with
  | false => rfl
  | true =>
    rw [if_pos rfl, Bool.true_and]
    cases h4 : (e.skip 1).quiet 4 with
    | false =>
      have herror := hload.trans (if_neg (by simp [h4]))
      refine (congrArg (settle (-1)) (Fallible.bind_of_some herror)).trans ?_
      exact congrArg (Prod.mk (-1)) (stuck_saved 4 _)
    | true =>
      have hfound := hload.trans (if_pos h4)
      refine (congrArg (settle (-1)) (Fallible.bind_of_some hfound)).trans ?_
      rw [show (⟨db, db, e.skip 1⟩ : Session).choice.erange = e.erange from rfl]
      cases resourceLoaded C url colid e.erange db with
      | error => rfl
      | absent => rfl
      | found res =>
        have hquiet : e.quiet 13 = ((e.skip 1).skip 4).quiet 8 := by
          rw [Choice.quiet_add 1 12, Choice.quiet_add 4 8, h1, h4, Bool.true_and, Bool.true_and]
        by_cases htag : res.etag = digest
        · simp only [htag, ne_eq, not_true_eq_false, if_false, if_true, hquiet]
          exact settle_change (-1) 1 3 (Sql.resUpdate (cstr data) etag res.id) colid ⟨db, db, (e.skip 1).skip 4⟩
        · simp only [htag, ne_eq, not_false_eq_true, if_true]
          rfl

def resourceDelete (url tag : Bytes) (colid : Int) (e : Choice) (db : Db) : Bool × Db :=
  if e.quiet 6 then
    match Sql.resGetEtag url colid tag db with
    | none => (true, db)
    | some _ =>
      if e.quiet 14 then committed true e db (Sql.colUpdateCtag colid (Sql.resRemoveEtag url colid tag db))
      else (false, db)
  else (false, db)

theorem dbResourceDelete_eq (url tag : Bytes) (colid : Int) :
    dbResourceDelete url tag colid = Prog.atom (resourceDelete url tag colid) := by
  rw [dbResourceDelete, routine_inTransaction]
  refine congrArg Prog.atom ?_
  funext e db
  rw [settle_statementQuery, resourceDelete, Choice.quiet_add 1 5]
  cases h1 : e.quiet 1 with
  | false => rfl
  | true =>
    rw [if_pos rfl, Bool.true_and]
    cases h5 : (e.skip 1).quiet 5 with
    | false => rfl
    | true =>
      have hquiet : e.quiet 14 = ((e.skip 1).skip 5).quiet 8 := by
        rw [Choice.quiet_add 1 13, Choice.quiet_add 5 8, h1, h5, Bool.true_and, Bool.true_and]
      rw [if_pos rfl, if_pos rfl]
      dsimp only
      cases Sql.resGetEtag url colid tag db with
      | none => rfl
      | some r =>
        dsimp only
        rw [hquiet]
        exact settle_change false true 3 (Sql.resRemoveEtag url colid tag) colid ⟨db, db, (e.skip 1).skip 5⟩

theorem dbResourceRemove_eq (url : Bytes) (colid : Int) :
    dbResourceRemove url colid = do
      let removed ← Prog.atom (statement 4 false false true fun db => some (Sql.resRemove url colid db))
      if removed then Prog.atom (statement 3 false false true fun db => some (Sql.colUpdateCtag colid db))
      else return false := by
  rw [dbResourceRemove, routine_statement, routine_dbCollectionUpdateCtag]

theorem dbResourceRemove_run (url : Bytes) (colid : Int) (cs : ℕ → Choice) (db : Db) :
    (dbResourceRemove url colid).run cs db =
      if (cs 0).quiet 4 then
        if (cs 1).quiet 3 then
          (true, Sql.colUpdateCtag colid (Sql.resRemove url colid db), fun n => cs (n + 2))
        else (false, Sql.resRemove url colid db, fun n => cs (n + 2))
      else (false, db, fun n => cs (n + 1)) := by
  rw [dbResourceRemove_eq, Prog.atom_bind, Prog.run_act]
  unfold statement
  cases (cs 0).quiet 4 with
  | false => rfl
  | true => cases hq : (cs 1).quiet 3 <;> simp [hq]

theorem dbResourceNew_eq (data url : Bytes) (colid : Int) (etag : Bytes) :
    dbResourceNew data url colid etag = do
      let rc ← Prog.atom (statement 6 (-1 : Int) 0 1 (Sql.resInsert (cstr data) url colid etag))
      if rc > 0 then
        if ← Prog.atom (statement 3 false false true fun db => some (Sql.colUpdateCtag colid db)) then return 1
        else return -1
      else return rc := by
  rw [dbResourceNew, routine_statementConstrained, routine_dbCollectionUpdateCtag]

theorem dbResourceNew_run (data url : Bytes) (colid : Int) (etag : Bytes) (cs : ℕ → Choice) (db : Db) :
    (dbResourceNew data url colid etag).run cs db =
      if (cs 0).quiet 6 then
        match Sql.resInsert (cstr data) url colid etag db with
        | none => (0, db, fun n => cs (n + 1))
        | some db₁ =>
          if (cs 1).quiet 3 then (1, Sql.colUpdateCtag colid db₁, fun n => cs (n + 2))
          else (-1, db₁, fun n => cs (n + 2))
      else (-1, db, fun n => cs (n + 1)) := by
  rw [dbResourceNew_eq, Prog.atom_bind, Prog.run_act]
  unfold statement
  cases (cs 0).quiet 6 with
  | false => rfl
  | true =>
    cases Sql.resInsert (cstr data) url colid etag db with
    | none => rfl
    | some db₁ =>
      dsimp only
      cases hq : (cs 1).quiet 3 <;> simp [hq]

/-! ## Nonces -/

/-- How the stored count answers to a count. -/
def nonceCheck (nonce : Bytes) (count : Int) (db : Db) : NonceErr :=
  match Sql.nonceGetCount nonce db with
  | some cmp => if count < cmp then .replay else .ok
  | none => .notfound

theorem dbNonceValidate_apply (nonce : Bytes) (count : Int) (s : Session) :
    dbNonceValidate nonce count s =
      if s.choice.quiet 3 then (some (nonceCheck nonce count s.db), s.skip 3) else (some .err, s.stuck 3) := by
  rw [dbNonceValidate, orElse_pure, statementQuery_bind]
  cases s.choice.quiet 3 with
  | false => rfl
  | true =>
    rw [if_pos rfl, if_pos rfl, nonceCheck]
    cases Sql.nonceGetCount nonce s.db with
    | none => rfl
    | some cmp => by_cases h : count < cmp <;> simp [h]

theorem routine_dbNonceValidate (nonce : Bytes) (count : Int) :
    routine .err (dbNonceValidate nonce count) = Prog.atom (query 3 .err fun _ => nonceCheck nonce count) := by
  refine congrArg Prog.atom ?_
  funext e db
  rw [dbNonceValidate_apply, query]
  cases e.quiet 3 with
  | false =>
    change (NonceErr.err, (Session.stuck 3 ⟨db, db, e⟩).db) = _
    rw [stuck_db]
    rfl
  | true => rfl

theorem dbNonceDelete_eq (nonce : Bytes) :
    dbNonceDelete nonce = Prog.atom (statement 3 false false true fun db => some (Sql.nonceRemove nonce db)) :=
  routine_statement 1 _ false true

def nonceUpdate (nonce : Bytes) (count : Int) (e : Choice) (db : Db) : NonceErr × Db :=
  if e.quiet 4 then
    if nonceCheck nonce count db = .ok then
      if e.quiet 8 then committed .ok e db (Sql.nonceUpdate (int64 (count + 1)) nonce db)
      else (.err, db)
    else (nonceCheck nonce count db, db)
  else (.err, db)

theorem dbNonceUpdate_eq (nonce : Bytes) (count : Int) :
    dbNonceUpdate nonce count = Prog.atom (nonceUpdate nonce count) := by
  rw [dbNonceUpdate, routine_inTransaction]
  refine congrArg Prog.atom ?_
  funext e db
  have hcheck := dbNonceValidate_apply nonce count ⟨db, db, e.skip 1⟩
  rw [nonceUpdate, Choice.quiet_add 1 3]
  cases h1 : e.quiet 1 with
  | false => rfl
  | true =>
    rw [if_pos rfl, Bool.true_and]
    cases h3 : (e.skip 1).quiet 3 with
    | false =>
      have herr := hcheck.trans (if_neg (by simp [h3]))
      refine (congrArg (settle NonceErr.err) (Fallible.bind_of_some herr)).trans ?_
      exact congrArg (Prod.mk NonceErr.err) (stuck_saved 3 _)
    | true =>
      have hanswer := hcheck.trans (if_pos h3)
      refine (congrArg (settle NonceErr.err) (Fallible.bind_of_some hanswer)).trans ?_
      rw [if_pos rfl]
      by_cases hok : nonceCheck nonce count db = .ok
      · have hquiet : e.quiet 8 = ((e.skip 1).skip 3).quiet 4 := by
          rw [Choice.quiet_add 1 7, Choice.quiet_add 3 4, h1, h3, Bool.true_and, Bool.true_and]
        rw [if_pos hok, if_pos hok, hquiet, settle_statement, Session.skip_choice]
        cases ((e.skip 1).skip 3).quiet 4 with
        | false => rfl
        | true => exact settle_commit NonceErr.err _ NonceErr.ok
      · rw [if_neg hok, if_neg hok]
        rfl

/-- The first nonce drawn that is a new one, and the database with it. -/
def drawNonce : List Bytes → Choice → Db → Option (Bytes × Db)
  | [], _, _ => none
  | nonce :: draws, e, db =>
    if e.quiet 2 then
      match Sql.nonceInsert nonce db with
      | none => drawNonce draws (e.skip 2) db
      | some db' => some (nonce, db')
    else none

theorem drawNonce_some {draws : List Bytes} {e : Choice} {db db' : Db} {nonce : Bytes}
    (h : drawNonce draws e db = some (nonce, db')) : nonce ∈ draws ∧ Sql.nonceInsert nonce db = some db' := by
  induction draws generalizing e with
  | nil => cases h
  | cons n draws ih =>
    unfold drawNonce at h
    split at h
    · cases hins : Sql.nonceInsert n db with
      | none =>
        rw [hins] at h
        exact (ih h).imp_left (List.mem_cons_of_mem n)
      | some db₁ =>
        rw [hins] at h
        cases h
        exact ⟨List.mem_cons_self, hins⟩
    · cases h

theorem settle_dbNonceDraw (draws : List Bytes) (s : Session) :
    settle none ((do
      let nonce ← dbNonceDraw draws
      let _ ← dbTransCommit
      return some nonce) s) =
    match drawNonce draws s.choice s.db with
    | none => (none, s.saved)
    | some (nonce, db) => committed (some nonce) s.choice s.saved db := by
  induction draws generalizing s with
  | nil => rfl
  | cons nonce draws ih =>
    unfold dbNonceDraw drawNonce
    rw [Fallible.bind_assoc, Fallible.bind_apply, dbBind_apply, Choice.quiet_add 1 1]
    cases h1 : s.choice.quiet 1 with
    | false => exact congrArg (Prod.mk none) (stuck_saved 1 s)
    | true =>
      rw [if_pos rfl, Bool.true_and]
      dsimp only
      rw [Fallible.bind_assoc, stepConstrained_bind, Session.skip_choice]
      cases h2 : (s.choice.skip 1).quiet 1 with
      | false => rfl
      | true =>
        rw [if_pos rfl, if_pos rfl, Session.skip_db]
        cases Sql.nonceInsert nonce s.db with
        | none =>
          refine (ih ((s.skip 1).skip 1)).trans ?_
          simp only [Session.skip_choice, Choice.skip_skip, Session.skip_db, Session.skip_saved]
          rfl
        | some db => exact settle_commit none { (s.skip 1).skip 1 with db := db } (some nonce)

/-- The table a nonce is drawn for, and how many steps that took. -/
def nonceRoom (e : Choice) (db : Db) : Nat × Db :=
  if db.nonce.length ≥ NONCEMAX then (5, Sql.nonceRemoveMulti e.rank db) else (3, db)

theorem nonceRoom_seq (e : Choice) (db : Db) : (nonceRoom e db).2.nonceSeq = db.nonceSeq := by
  unfold nonceRoom
  split <;> rfl

theorem nonceInsert_eq {nonce : Bytes} {db db' : Db} (h : Sql.nonceInsert nonce db = some db') :
    (∀ row ∈ db.nonce, row.nonce ≠ nonce) ∧ db'.nonce = db.nonce ++ [⟨nonce, 0, db.nonceSeq + 1⟩] ∧
      db'.nonceSeq = db.nonceSeq + 1 := by
  unfold Sql.nonceInsert at h
  split at h
  · cases h
  next hnew =>
    cases h
    exact ⟨fun row hrow heq => hnew ⟨row, hrow, heq⟩, rfl, rfl⟩

def nonceNew (draws : List Bytes) (e : Choice) (db : Db) : Option Bytes × Db :=
  let room := nonceRoom e db
  if e.quiet (room.1 + 1) then
    match drawNonce draws (e.skip (room.1 + 1)) room.2 with
    | none => (none, db)
    | some (nonce, db') => committed (some nonce) e db db'
  else (none, db)

theorem settle_prepare_dbNonceDraw (draws : List Bytes) (s : Session) :
    settle none ((do
      dbPrepare
      let nonce ← dbNonceDraw draws
      let _ ← dbTransCommit
      return some nonce) s) =
    if s.choice.quiet 1 then
      match drawNonce draws (s.choice.skip 1) s.db with
      | none => (none, s.saved)
      | some (nonce, db) => committed (some nonce) s.choice s.saved db
    else (none, s.saved) := by
  rw [Fallible.bind_apply, dbPrepare, sqlStep_apply]
  cases s.choice.quiet 1 with
  | false => rfl
  | true => exact settle_dbNonceDraw draws (s.skip 1)

theorem settle_dbNonceCull (f : Unit → Sql (Option Bytes)) (s : Session) :
    settle none ((dbNonceCull >>= f) s) =
      if s.choice.quiet 2 then
        settle none (f () { s.skip 2 with db := Sql.nonceRemoveMulti s.choice.rank s.db })
      else (none, s.saved) := by
  rw [dbNonceCull, Fallible.bind_assoc, Fallible.bind_apply, dbPrepare, sqlStep_apply, Choice.quiet_add 1 1]
  cases s.choice.quiet 1 with
  | false => rfl
  | true =>
    rw [if_pos rfl, Bool.true_and]
    dsimp only
    rw [Fallible.bind_assoc, Fallible.gets_bind, step_bind, Session.skip_skip, Session.skip_choice, Session.skip_db]
    cases (s.choice.skip 1).quiet 1 <;> rfl

theorem dbNonceNew_eq (draws : List Bytes) : dbNonceNew draws = Prog.atom (nonceNew draws) := by
  rw [dbNonceNew, routine_inTransaction]
  refine congrArg Prog.atom ?_
  funext e db
  have hquery := fun f => settle_statementQuery none 0 (⟨db, db, e.skip 1⟩ : Session)
    (fun db => db.nonce.length) (f : Nat → Sql (Option Bytes))
  refine (congrArg (fun x => if e.quiet 1 then x else (none, db)) (hquery _)).trans ?_
  have hnext : ∀ x : Sql (Option Bytes),
      settle none (x (Session.skip 2 ⟨db, db, e.skip 1⟩)) = settle none (x ⟨db, db, e.skip 3⟩) := by
    intro x
    simp [Session.skip]
  unfold nonceNew nonceRoom
  by_cases hfull : db.nonce.length ≥ NONCEMAX
  · have hquiet : e.quiet 6 = (e.quiet 1 && ((e.skip 1).quiet 2 && ((e.skip 3).quiet 2 && (e.skip 5).quiet 1))) := by
      rw [Choice.quiet_add 1 5, Choice.quiet_add 2 3, Choice.quiet_add 2 1, Choice.skip_skip, Choice.skip_skip]
    have hcull := fun f => settle_dbNonceCull f ⟨db, db, e.skip 3⟩
    have hdraw := settle_prepare_dbNonceDraw draws ⟨Sql.nonceRemoveMulti e.rank db, db, e.skip 5⟩
    simp only [hfull, if_true]
    rw [hquiet]
    cases e.quiet 1 with
    | false => rfl
    | true =>
      cases (e.skip 1).quiet 2 with
      | false => rfl
      | true =>
        rw [if_pos rfl, Bool.true_and, Bool.true_and]
        refine (hnext _).trans ((hcull _).trans ?_)
        cases (e.skip 3).quiet 2 with
        | false => rfl
        | true =>
          rw [if_pos rfl, Bool.true_and]
          have hs : { (Session.skip 2 ⟨db, db, e.skip 3⟩) with db := Sql.nonceRemoveMulti e.rank db } =
            (⟨Sql.nonceRemoveMulti e.rank db, db, e.skip 5⟩ : Session) := by simp [Session.skip]
          refine (congrArg (fun s => settle none (Bind.bind dbPrepare (fun _ => _) s)) hs).trans (hdraw.trans ?_)
          rw [Choice.skip_skip]
          rfl
  · have hquiet : e.quiet 4 = (e.quiet 1 && ((e.skip 1).quiet 2 && (e.skip 3).quiet 1)) := by
      rw [Choice.quiet_add 1 3, Choice.quiet_add 2 1, Choice.skip_skip]
    have hdraw := settle_prepare_dbNonceDraw draws ⟨db, db, e.skip 3⟩
    simp only [hfull, if_false]
    rw [hquiet]
    cases e.quiet 1 with
    | false => rfl
    | true =>
      cases h2 : (e.skip 1).quiet 2 with
      | false => rfl
      | true =>
        rw [if_pos rfl, Bool.true_and, Bool.true_and]
        refine (hnext _).trans (hdraw.trans ?_)
        rw [Choice.skip_skip]
        rfl

/-! ## Principals -/

theorem dbCollectionNewById_apply (url : Bytes) (id : Int) (s : Session) :
    dbCollectionNewById url id s =
      if s.choice.quiet 4 then
        match Sql.colInsert id url s.db with
        | none => (some (0 : Int), s.skip 4)
        | some db => (some 1, { s.skip 4 with db := db })
      else (some (-1), s.stuck 4) := by
  rw [dbCollectionNewById, orElse_pure, statementConstrained_bind]
  cases s.choice.quiet 4 with
  | false => rfl
  | true => cases Sql.colInsert id url s.db <;> rfl

theorem dbCollectionNew_eq (url : Bytes) (prncpl : Int) :
    dbCollectionNew url prncpl = Prog.atom (statement 4 (-1 : Int) 0 1 (Sql.colInsert prncpl url)) := by
  refine congrArg Prog.atom ?_
  funext e db
  rw [dbCollectionNewById_apply, statement]
  cases e.quiet 4 with
  | false =>
    change ((-1 : Int), (Session.stuck 4 ⟨db, db, e⟩).db) = _
    rw [stuck_db]
    rfl
  | true => cases Sql.colInsert prncpl url db <;> rfl

def prncplNew (name hash email directory : Bytes) (e : Choice) (db : Db) : Int × Db :=
  if e.quiet 6 then
    match Sql.prncplInsert name hash email db with
    | none => (0, db)
    | some db₁ =>
      if e.quiet 10 then
        match Sql.colInsert db₁.principalSeq directory db₁ with
        | none => (-1, db)
        | some db₂ => committed 1 e db db₂
      else (-1, db)
  else (-1, db)

theorem dbPrncplNew_eq (name hash email directory : Bytes) :
    dbPrncplNew name hash email directory = Prog.atom (prncplNew name hash email directory) := by
  rw [dbPrncplNew, routine_inTransaction]
  refine congrArg Prog.atom ?_
  funext e db
  rw [settle_statementConstrained, prncplNew, Choice.quiet_add 1 5]
  cases h1 : e.quiet 1 with
  | false => rfl
  | true =>
    rw [if_pos rfl, Bool.true_and]
    cases h5 : (e.skip 1).quiet 5 with
    | false => rfl
    | true =>
      have hquiet : e.quiet 10 = ((e.skip 1).skip 5).quiet 4 := by
        rw [Choice.quiet_add 1 9, Choice.quiet_add 5 4, h1, h5, Bool.true_and, Bool.true_and]
      rw [if_pos rfl, if_pos rfl]
      dsimp only
      cases Sql.prncplInsert name hash email db with
      | none => rfl
      | some db₁ =>
        have hcol := dbCollectionNewById_apply directory db₁.principalSeq ⟨db₁, db, (e.skip 1).skip 5⟩
        dsimp only
        rw [hquiet]
        cases h4 : ((e.skip 1).skip 5).quiet 4 with
        | false =>
          have hfail := hcol.trans (if_neg (by simpa using h4))
          refine (congrArg (settle (-1)) (Fallible.bind_of_some hfail)).trans ?_
          exact congrArg (Prod.mk (-1)) (stuck_saved 4 _)
        | true =>
          have hdone := hcol.trans (if_pos h4)
          rw [if_pos rfl]
          cases hins : Sql.colInsert db₁.principalSeq directory db₁ with
          | none =>
            simp only [hins] at hdone
            exact congrArg (settle (-1)) (Fallible.bind_of_some hdone)
          | some db₂ =>
            simp only [hins] at hdone
            refine (congrArg (settle (-1)) (Fallible.bind_of_some hdone)).trans ?_
            exact settle_commit (-1) _ 1

theorem dbPrncplUpdate_eq (hash email : Bytes) (id : Int) :
    dbPrncplUpdate hash email id = Prog.atom (statement 5 (-1) 0 1 (Sql.prncplUpdate hash email id)) :=
  routine_statementConstrained 3 _ (-1) 0 1

/-! ## Loading -/

theorem dbRows_apply {β : Type} (rows : List β) (s : Session) :
    dbRows rows s =
      if s.choice.quiet (rows.length + 1) then (some rows, s.skip (rows.length + 1))
      else (none, s.stuck (rows.length + 1)) := by
  induction rows generalizing s with
  | nil =>
    rw [dbRows, Fallible.bind_apply, sqlStep_apply, List.length_nil, Nat.zero_add, Session.stuck_one]
    cases s.choice.quiet 1 <;> rfl
  | cons r rows ih =>
    rw [dbRows, Fallible.bind_apply, sqlStep_apply, List.length_cons, Nat.add_comm _ 1, Choice.quiet_add,
      Session.stuck_add]
    cases h1 : s.choice.quiet 1 with
    | false =>
      rw [Session.stuck_one]
      rfl
    | true =>
      have hrest := ih (s.skip 1)
      rw [Session.skip_choice, Session.skip_skip] at hrest
      rw [if_pos rfl, Bool.true_and, if_pos rfl]
      dsimp only
      rw [Fallible.bind_apply, hrest]
      cases (s.choice.skip 1).quiet (rows.length + 1) <;> rfl

theorem dbIter_eq {β : Type} (q : Db → List β) :
    dbIter q = Prog.atom fun e db => (if e.quiet ((q db).length + 3) then some (q db) else none, db) := by
  refine congrArg Prog.atom ?_
  funext e db
  have hquiet : e.quiet ((q db).length + 3) = (e.quiet 2 && (e.skip 2).quiet ((q db).length + 1)) := by
    rw [← Choice.quiet_add, Nat.add_left_comm]
  rw [prepare_bind, hquiet]
  cases e.quiet 2 with
  | false => exact congrArg (Prod.mk none) (stuck_db 2 _)
  | true =>
    have hrows := dbRows_apply (q db) (Session.skip 2 ⟨db, db, e⟩)
    rw [if_pos rfl, Fallible.gets_bind, Session.skip_db, Bool.true_and, Fallible.bind_apply, hrows, Session.skip_choice]
    cases (e.skip 2).quiet ((q db).length + 1) with
    | false => exact congrArg (Prod.mk none) (stuck_db ((q db).length + 1) _)
    | true => rfl

def prncplFetched (name : Bytes) (e : Choice) (db : Db) : Loaded PrncplRow :=
  if e.quiet 3 then
    match Sql.prncplGet name db with
    | none => .absent
    | some p => if e.quiet 4 then .found p else .error
  else .error

theorem dbPrncplGet_eq (name : Bytes) :
    dbPrncplGet name = Prog.atom fun e db => (prncplFetched name e db, db) := by
  refine congrArg Prog.atom ?_
  funext e db
  rw [statementQuery_bind, prncplFetched, Choice.quiet_add 3 1]
  cases e.quiet 3 with
  | false => exact congrArg (Prod.mk Loaded.error) (stuck_db 3 _)
  | true =>
    rw [if_pos rfl, if_pos rfl, Bool.true_and]
    dsimp only
    cases Sql.prncplGet name db with
    | none => rfl
    | some p =>
      dsimp only
      rw [Fallible.bind_apply, sqlStep_apply, Session.skip_choice]
      cases (e.skip 3).quiet 1 <;> rfl

/-- The rows a listing hands out, and whether it came to its end. -/
def listRows : Choice → Bool → List ResRow → List Res × Bool
  | e, _, [] => ([], e.quiet 1)
  | e, erange, r :: rs =>
    if e.quiet 1 then
      match icalParse C none erange r.data 0 with
      | (none, _) => ([], false)
      | (some (ical, _), diag) =>
        (r.res ical :: (listRows (e.skip 1) diag.erange rs).1, (listRows (e.skip 1) diag.erange rs).2)
    else ([], false)

theorem dbResourcesLoop_apply (erange : Bool) (rows : List ResRow) (s : Session) :
    ∃ t, dbResourcesLoop C erange rows s = (some (listRows C s.choice erange rows), t) ∧ t.db = s.db := by
  induction rows generalizing erange s with
  | nil =>
    rw [dbResourcesLoop, orElse_pure, Fallible.bind_apply, sqlStep_apply, listRows]
    cases s.choice.quiet 1 <;> exact ⟨s.skip 1, rfl, rfl⟩
  | cons r rows ih =>
    rw [dbResourcesLoop, orElse_pure, Fallible.bind_apply, sqlStep_apply, listRows]
    cases s.choice.quiet 1 with
    | false => exact ⟨s.skip 1, rfl, rfl⟩
    | true =>
      rw [if_pos rfl]
      dsimp only
      rcases hparse : icalParse C none erange r.data 0 with ⟨_ | ⟨ical, q⟩, diag⟩
      · exact ⟨s.skip 1, rfl, rfl⟩
      · obtain ⟨t, ht, hdb⟩ := ih diag.erange (s.skip 1)
        refine ⟨t, ?_, hdb⟩
        dsimp only
        rw [Fallible.bind_of_some ht]
        rfl

theorem dbCollectionResources_eq (colid : Int) :
    dbCollectionResources C colid = Prog.atom fun e db =>
      (if e.quiet 2 then listRows C (e.skip 2) e.erange (Sql.resIter colid db) else ([], false), db) := by
  refine congrArg Prog.atom ?_
  funext e db
  rw [prepare_bind]
  cases e.quiet 2 with
  | false => exact congrArg (Prod.mk ([], false)) (stuck_db 2 _)
  | true =>
    obtain ⟨t, ht, hdb⟩ := dbResourcesLoop_apply C e.erange (Sql.resIter colid db) (Session.skip 2 ⟨db, db, e⟩)
    rw [if_pos rfl, Fallible.gets_bind]
    exact Prod.ext (congrArg (fun r => r.1.getD ([], false)) ht) ((congrArg (fun r => r.2.db) ht).trans hdb)

end Kcaldav
