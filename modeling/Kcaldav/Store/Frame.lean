import Kcaldav.Store.Nonce
import Kcaldav.Store.Principal

/-! # What routines leave alone

A property of the database that each statement of a routine keeps is kept by the
routine, whichever of its steps fail: a rollback goes back to a database that had it
too.
-/
namespace Kcaldav
open CString

variable {α β : Type} {I : Db → Prop}

/-- The property holds of the database as the connection sees it and as it was when
the transaction was opened. -/
def Session.Has (I : Db → Prop) (s : Session) : Prop := I s.db ∧ I s.saved

/-- A routine keeps a property of the database. -/
def KeepsDb (I : Db → Prop) (x : Sql α) : Prop := Fallible.Keeps (fun s t => s.Has I → t.Has I) x

namespace KeepsDb

theorem pure (a : α) : KeepsDb I (Pure.pure a : Sql α) := Fallible.Keeps.pure (fun _ => id) a

theorem fail : KeepsDb I (Fallible.fail : Sql α) := Fallible.Keeps.fail fun _ => id

theorem bind {x : Sql α} {f : α → Sql β} (hx : KeepsDb I x) (hf : ∀ a, KeepsDb I (f a)) : KeepsDb I (x >>= f) :=
  Fallible.Keeps.bind (fun _ _ _ h h' hs => h' (h hs)) hx hf

theorem orElse {x h : Sql α} (hx : KeepsDb I x) (hh : KeepsDb I h) : KeepsDb I (x.orElse h) := by
  intro s hs
  have hkeep := hx s hs
  unfold Fallible.orElse
  rcases hxs : x s with ⟨_ | a, t⟩
  · rw [hxs] at hkeep
    exact hh t hkeep
  · rw [hxs] at hkeep
    exact hkeep

theorem ite {c : Prop} [Decidable c] {x y : Sql α} (hx : KeepsDb I x) (hy : KeepsDb I y) :
    KeepsDb I (if c then x else y) := by
  split
  · exact hx
  · exact hy

theorem gets (f : Session → α) : KeepsDb I (Fallible.gets f) := fun _ hs => hs

theorem sqlStep : KeepsDb I sqlStep := by
  intro s hs
  rw [sqlStep_apply]
  exact hs

theorem dbBind (n : Nat) : KeepsDb I (dbBind n) := by
  induction n with
  | zero => exact pure ()
  | succ n ih => exact bind sqlStep fun _ => ih

theorem dbStepConstrained {f : Db → Option Db} (h : ∀ db db', I db → f db = some db' → I db') :
    KeepsDb I (dbStepConstrained f) := by
  refine bind sqlStep fun _ => ?_
  intro s hs
  cases hf : f s.db with
  | none =>
    simp only [hf]
    exact hs
  | some db =>
    simp only [hf]
    exact ⟨h s.db db hs.1 hf, hs.2⟩

theorem dbStep {f : Db → Option Db} (h : ∀ db db', I db → f db = some db' → I db') : KeepsDb I (dbStep f) := by
  refine bind (dbStepConstrained h) fun done => ?_
  intro s hs
  rw [Fallible.ensure_apply]
  exact hs

theorem dbQuery (f : Db → α) : KeepsDb I (dbQuery f) := bind sqlStep fun _ => gets _

theorem dbTransOpen : KeepsDb I dbTransOpen := by
  intro s hs
  rw [dbTransOpen_apply]
  split
  · exact ⟨hs.1, hs.1⟩
  · exact hs

theorem dbTransRollback : KeepsDb I dbTransRollback := fun _ hs => ⟨hs.2, hs.2⟩

theorem dbTransCommit : KeepsDb I dbTransCommit := by
  intro s hs
  unfold Kcaldav.dbTransCommit
  dsimp only
  split
  · exact ⟨hs.2, hs.2⟩
  · exact hs

theorem inTransaction {err : α} {body : Sql α} (h : KeepsDb I body) : KeepsDb I (inTransaction err body) := by
  refine bind dbTransOpen fun opened => ite (orElse h ?_) (pure err)
  exact bind dbTransRollback fun _ => pure err

/-- A statement that keeps the property, with what follows it. -/
theorem statement {f : Db → Option Db} {k : Unit → Sql α} (n : Nat) (h : ∀ db db', I db → f db = some db' → I db')
    (hk : KeepsDb I (k ())) : KeepsDb I (dbPrepare >>= fun _ => Kcaldav.dbBind n >>= fun _ => Kcaldav.dbStep f >>= k) :=
  bind sqlStep fun _ => bind (dbBind n) fun _ => bind (dbStep h) fun _ => hk

theorem statementConstrained {f : Db → Option Db} {k : Bool → Sql α} (n : Nat)
    (h : ∀ db db', I db → f db = some db' → I db') (hk : ∀ done, KeepsDb I (k done)) :
    KeepsDb I (dbPrepare >>= fun _ => Kcaldav.dbBind n >>= fun _ => Kcaldav.dbStepConstrained f >>= k) :=
  bind sqlStep fun _ => bind (dbBind n) fun _ => bind (dbStepConstrained h) hk

theorem statementQuery {f : Db → β} {k : β → Sql α} (n : Nat) (hk : ∀ b, KeepsDb I (k b)) :
    KeepsDb I (dbPrepare >>= fun _ => Kcaldav.dbBind n >>= fun _ => Kcaldav.dbQuery f >>= k) :=
  bind sqlStep fun _ => bind (dbBind n) fun _ => bind (dbQuery f) hk

theorem routine {err : α} {body : Sql α} (h : KeepsDb I body) :
    Prog.Ensures I (routine err body) fun _ => I :=
  Prog.Ensures.atom fun e db hdb => (h ⟨db, db, e⟩ ⟨hdb, hdb⟩).1

/-- A statement that always has a result. -/
theorem total {g : Db → Db} (h : ∀ db, I db → I (g db)) : ∀ db db', I db → some (g db) = some db' → I db' := by
  rintro db _ hdb ⟨⟩
  exact h db hdb

end KeepsDb

/-! ## Nonces -/

section Nonces
variable (hnonce : ∀ db nonce, I db → I { db with nonce := nonce })
  (hseq : ∀ db nonce seq, I db → I { db with nonce := nonce, nonceSeq := seq })
include hnonce

theorem dbNonceDelete_keeps (nonce : Bytes) : Prog.Ensures I (dbNonceDelete nonce) fun _ => I :=
  KeepsDb.routine (KeepsDb.statement 1 (KeepsDb.total fun db h => hnonce db _ h) (KeepsDb.pure true))

omit hnonce in
theorem dbNonceValidate_keeps (nonce : Bytes) (count : Int) : KeepsDb I (dbNonceValidate nonce count) := by
  refine KeepsDb.orElse (KeepsDb.statementQuery 1 fun cmp => ?_) (KeepsDb.pure _)
  cases cmp with
  | none => exact KeepsDb.pure _
  | some cmp =>
    dsimp only
    split <;> exact KeepsDb.pure _

theorem dbNonceUpdate_keeps (nonce : Bytes) (count : Int) :
    Prog.Ensures I (dbNonceUpdate nonce count) fun _ => I := by
  refine KeepsDb.routine (KeepsDb.inTransaction (KeepsDb.bind (dbNonceValidate_keeps nonce count) fun er => ?_))
  split
  · refine KeepsDb.statement 2 (KeepsDb.total fun db h => hnonce db _ h) ?_
    exact KeepsDb.bind KeepsDb.dbTransCommit fun _ => KeepsDb.pure _
  · exact KeepsDb.bind KeepsDb.dbTransRollback fun _ => KeepsDb.pure _

include hseq

omit hnonce in
theorem dbNonceDraw_keeps (draws : List Bytes) : KeepsDb I (dbNonceDraw draws) := by
  induction draws with
  | nil => exact KeepsDb.fail
  | cons nonce draws ih =>
    refine KeepsDb.bind (KeepsDb.dbBind 1) fun _ => KeepsDb.bind (KeepsDb.dbStepConstrained ?_) fun done => ?_
    · intro db db' hdb hins
      unfold Sql.nonceInsert at hins
      split at hins
      · cases hins
      · cases hins
        exact hseq db _ _ hdb
    · exact KeepsDb.ite (KeepsDb.pure _) ih

theorem dbNonceNew_keeps (draws : List Bytes) : Prog.Ensures I (dbNonceNew draws) fun _ => I := by
  refine KeepsDb.routine (KeepsDb.inTransaction (KeepsDb.bind KeepsDb.sqlStep fun _ => ?_))
  have hdraw : KeepsDb I (do
      dbPrepare
      let nonce ← dbNonceDraw draws
      let _ ← dbTransCommit
      return some nonce) := by
    refine KeepsDb.bind KeepsDb.sqlStep fun _ => KeepsDb.bind (dbNonceDraw_keeps hseq draws) fun nonce => ?_
    exact KeepsDb.bind KeepsDb.dbTransCommit fun _ => KeepsDb.pure _
  have hcull : KeepsDb I dbNonceCull := by
    refine KeepsDb.bind KeepsDb.sqlStep fun _ => KeepsDb.bind (KeepsDb.gets _) fun rank => ?_
    exact KeepsDb.dbStep (KeepsDb.total fun db h => hnonce db _ h)
  exact KeepsDb.bind (KeepsDb.dbQuery _) fun count => KeepsDb.ite (KeepsDb.bind hcull fun _ => hdraw) hdraw

theorem nonceRetry_keeps (draws : List Bytes) : Prog.Ensures I (nonceRetry draws) fun _ => I := by
  refine Prog.Ensures.bind (dbNonceNew_keeps hnonce hseq draws) ?_
  rintro (_ | nonce) <;> exact Prog.Ensures.ret fun _ => id

theorem nonceValidate_keeps (nonce : Bytes) (count : Int) (draws : List Bytes) :
    Prog.Ensures I (nonceValidate nonce count draws) fun _ => I := by
  refine Prog.Ensures.bind (KeepsDb.routine (dbNonceValidate_keeps nonce count)) fun er => ?_
  cases er with
  | err => exact Prog.Ensures.ret fun _ => id
  | replay => exact Prog.Ensures.ret fun _ => id
  | notfound => exact nonceRetry_keeps hnonce hseq draws
  | ok =>
    refine Prog.Ensures.bind (dbNonceUpdate_keeps hnonce nonce count) fun er => ?_
    cases er with
    | err => exact Prog.Ensures.ret fun _ => id
    | replay => exact Prog.Ensures.ret fun _ => id
    | notfound => exact nonceRetry_keeps hnonce hseq draws
    | ok => exact Prog.Ensures.ret fun _ => id

end Nonces

/-! ## Principals and proxies -/

theorem dbPrncplUpdate_keeps (h : ∀ db principal, I db → I { db with principal := principal }) (hash email : Bytes)
    (id : Int) : Prog.Ensures I (dbPrncplUpdate hash email id) fun _ => I := by
  refine KeepsDb.routine (KeepsDb.statementConstrained 3 (fun db db' hdb hupd => ?_) fun done => ?_)
  · unfold Sql.prncplUpdate at hupd
    split at hupd
    · cases hupd
    · cases hupd
      exact h db _ hdb
  · split <;> exact KeepsDb.pure _

theorem dbPrncplIdentify_keeps (email : Bytes) : Prog.Ensures I (dbPrncplIdentify email) fun _ => I := by
  refine KeepsDb.routine (KeepsDb.statementQuery 1 fun id => ?_)
  cases id <;> exact KeepsDb.pure _

theorem dbRows_keeps (rows : List α) : KeepsDb I (dbRows rows) := by
  induction rows with
  | nil => exact KeepsDb.bind KeepsDb.sqlStep fun _ => KeepsDb.pure []
  | cons a rows ih => exact KeepsDb.bind KeepsDb.sqlStep fun _ => KeepsDb.bind ih fun _ => KeepsDb.pure _

theorem dbIter_keeps (query : Db → List α) : Prog.Ensures I (dbIter query) fun _ => I := by
  refine KeepsDb.routine (KeepsDb.bind KeepsDb.sqlStep fun _ => KeepsDb.bind (KeepsDb.dbBind 1) fun _ => ?_)
  exact KeepsDb.bind (KeepsDb.gets _) fun rows => KeepsDb.bind (dbRows_keeps rows) fun _ => KeepsDb.pure _

theorem dbPrncplLoad_keeps (name : Bytes) : Prog.Ensures I (dbPrncplLoad name) fun _ => I := by
  have hget : Prog.Ensures I (dbPrncplGet name) fun _ => I := by
    refine KeepsDb.routine (KeepsDb.statementQuery 1 fun row => ?_)
    cases row with
    | none => exact KeepsDb.pure _
    | some row => exact KeepsDb.bind KeepsDb.sqlStep fun _ => KeepsDb.pure _
  refine Prog.Ensures.bind hget ?_
  rintro (_ | _ | row)
  · exact Prog.Ensures.ret fun _ => id
  · exact Prog.Ensures.ret fun _ => id
  · refine Prog.Ensures.bind (dbIter_keeps _) ?_
    rintro (_ | cols)
    · exact Prog.Ensures.ret fun _ => id
    refine Prog.Ensures.bind (dbIter_keeps _) ?_
    rintro (_ | rproxies)
    · exact Prog.Ensures.ret fun _ => id
    refine Prog.Ensures.bind (dbIter_keeps _) ?_
    rintro (_ | proxies) <;> exact Prog.Ensures.ret fun _ => id

theorem dbProxyRemove_keeps {p id : Int} (h : ∀ db, I db → I (Sql.proxyRemove p id db)) :
    Prog.Ensures I (dbProxyRemove p id) fun _ => I :=
  KeepsDb.routine (KeepsDb.statement 2 (KeepsDb.total h) (KeepsDb.pure true))

theorem dbProxyCommit_keeps : KeepsDb I dbProxyCommit := by
  refine KeepsDb.bind KeepsDb.dbTransCommit fun done => ?_
  split <;> exact KeepsDb.pure _

theorem dbProxyErr_keeps (rc : Int) : KeepsDb I (dbProxyErr rc) :=
  KeepsDb.bind KeepsDb.dbTransRollback fun _ => KeepsDb.pure rc

theorem dbProxy_keeps {p id bits : Int} (hinsert : ∀ db db', I db → Sql.proxyInsert p id bits db = some db' → I db')
    (hupdate : ∀ db, I db → I (Sql.proxyUpdate bits p id db)) : Prog.Ensures I (dbProxy p id bits) fun _ => I := by
  have hbound : KeepsDb I (Fallible.orElse (do
      dbPrepare
      dbBind 3
      return true) (pure false)) :=
    KeepsDb.orElse (KeepsDb.bind KeepsDb.sqlStep fun _ => KeepsDb.bind (KeepsDb.dbBind 3) fun _ => KeepsDb.pure true)
      (KeepsDb.pure false)
  refine KeepsDb.routine (KeepsDb.bind KeepsDb.dbTransOpen fun opened => ?_)
  refine KeepsDb.ite (KeepsDb.bind hbound fun bound => ?_) (KeepsDb.pure _)
  refine KeepsDb.ite (dbProxyErr_keeps _) (KeepsDb.bind (KeepsDb.orElse ?_ (KeepsDb.pure _)) fun rc => ?_)
  · exact KeepsDb.bind (KeepsDb.dbStepConstrained hinsert) fun done => KeepsDb.pure _
  · refine KeepsDb.ite dbProxyCommit_keeps (KeepsDb.ite (dbProxyErr_keeps rc) (KeepsDb.bind hbound fun rebound => ?_))
    refine KeepsDb.ite (dbProxyErr_keeps _) (KeepsDb.bind (KeepsDb.orElse ?_ (KeepsDb.pure _)) fun updated => ?_)
    · exact KeepsDb.bind (KeepsDb.dbStep (KeepsDb.total hupdate)) fun _ => KeepsDb.pure true
    · exact KeepsDb.ite dbProxyCommit_keeps (dbProxyErr_keeps _)

/-- A property of other tables has nothing to do with the proxies. -/
theorem proxyInsert_keeps (h : ∀ db proxy seq, I db → I { db with proxy := proxy, proxySeq := seq }) {p id bits : Int}
    (db db' : Db) (hdb : I db) (hins : Sql.proxyInsert p id bits db = some db') : I db' := by
  unfold Sql.proxyInsert at hins
  split at hins
  · cases hins
  · cases hins
    exact h db _ _ hdb

/-! ## Collections and resources -/

theorem dbCollectionNewById_keeps {url : Bytes} {p : Int}
    (h : ∀ db db', I db → Sql.colInsert p url db = some db' → I db') : KeepsDb I (dbCollectionNewById url p) := by
  refine KeepsDb.orElse (KeepsDb.statementConstrained 2 h fun done => ?_) (KeepsDb.pure _)
  split <;> exact KeepsDb.pure _

theorem dbCollectionNew_keeps {url : Bytes} {p : Int}
    (h : ∀ db db', I db → Sql.colInsert p url db = some db' → I db') :
    Prog.Ensures I (dbCollectionNew url p) fun _ => I := KeepsDb.routine (dbCollectionNewById_keeps h)

theorem dbPrncplNew_keeps {name hash email directory : Bytes}
    (hprncpl : ∀ db db', I db → Sql.prncplInsert name hash email db = some db' → I db')
    (hcoln : ∀ p db db', I db → Sql.colInsert p directory db = some db' → I db') :
    Prog.Ensures I (dbPrncplNew name hash email directory) fun _ => I := by
  refine KeepsDb.routine (KeepsDb.inTransaction (KeepsDb.statementConstrained 3 hprncpl fun done => KeepsDb.ite ?_ ?_))
  · refine KeepsDb.bind (KeepsDb.gets _) fun lastid => KeepsDb.bind (dbCollectionNewById_keeps (hcoln lastid)) fun rc => ?_
    exact KeepsDb.ite (KeepsDb.bind KeepsDb.dbTransCommit fun _ => KeepsDb.pure _) KeepsDb.fail
  · exact KeepsDb.bind KeepsDb.dbTransRollback fun _ => KeepsDb.pure _

theorem dbCollectionRemove_keeps {id : Int} (h : ∀ db, I db → I (Sql.colRemove id db)) :
    Prog.Ensures I (dbCollectionRemove id) fun _ => I :=
  KeepsDb.routine (KeepsDb.statement 1 (KeepsDb.total h) (KeepsDb.pure true))

section Ctag
variable {colid : Int} (hctag : ∀ db, I db → I (Sql.colUpdateCtag colid db))
include hctag

theorem dbCollectionUpdateCtag_keeps : KeepsDb I (dbCollectionUpdateCtag colid) :=
  KeepsDb.orElse (KeepsDb.statement 1 (KeepsDb.total hctag) (KeepsDb.pure true)) (KeepsDb.pure false)

/-- A statement followed by the statement for the ctag. -/
theorem withCtag_keeps {body : Sql Bool} (hbody : KeepsDb I body) :
    Prog.Ensures I (do
      let done ← routine false body
      if done then routine false (dbCollectionUpdateCtag colid) else return false) fun _ => I := by
  refine Prog.Ensures.bind (KeepsDb.routine hbody) fun done => Prog.Ensures.ite (fun _ => ?_) fun _ => ?_
  · exact KeepsDb.routine (dbCollectionUpdateCtag_keeps hctag)
  · exact Prog.Ensures.ret fun _ => id

theorem dbCollectionUpdate_keeps {c : Coln} (hid : c.id = colid)
    (h : ∀ db db', I db → Sql.colUpdate c.displayname c.colour c.description c.id db = some db' → I db') :
    Prog.Ensures I (dbCollectionUpdate c) fun _ => I := by
  subst hid
  exact withCtag_keeps hctag (KeepsDb.statement 4 h (KeepsDb.pure true))

theorem dbResourceRemove_keeps {url : Bytes} (h : ∀ db, I db → I (Sql.resRemove url colid db)) :
    Prog.Ensures I (dbResourceRemove url colid) fun _ => I :=
  withCtag_keeps hctag (KeepsDb.statement 2 (KeepsDb.total h) (KeepsDb.pure true))

theorem dbResourceDelete_keeps {url tag : Bytes} (h : ∀ db, I db → I (Sql.resRemoveEtag url colid tag db)) :
    Prog.Ensures I (dbResourceDelete url tag colid) fun _ => I := by
  refine KeepsDb.routine (KeepsDb.inTransaction (KeepsDb.statementQuery 3 fun row => ?_))
  cases row with
  | none => exact KeepsDb.bind KeepsDb.dbTransRollback fun _ => KeepsDb.pure true
  | some row =>
    refine KeepsDb.statement 3 (KeepsDb.total h) (KeepsDb.bind (dbCollectionUpdateCtag_keeps hctag) fun done => ?_)
    exact KeepsDb.ite (KeepsDb.bind KeepsDb.dbTransCommit fun _ => KeepsDb.pure true) KeepsDb.fail

theorem dbResourceNew_keeps {data url etag : Bytes}
    (h : ∀ db db', I db → Sql.resInsert (cstr data) url colid etag db = some db' → I db') :
    Prog.Ensures I (dbResourceNew data url colid etag) fun _ => I := by
  refine Prog.Ensures.bind (KeepsDb.routine (KeepsDb.statementConstrained 4 h fun done => ?_)) fun rc => ?_
  · split <;> exact KeepsDb.pure _
  · refine Prog.Ensures.ite (fun _ => ?_) fun _ => Prog.Ensures.ret fun _ => id
    refine Prog.Ensures.bind (KeepsDb.routine (dbCollectionUpdateCtag_keeps hctag)) fun done => ?_
    exact Prog.Ensures.ite (fun _ => Prog.Ensures.ret fun _ => id) fun _ => Prog.Ensures.ret fun _ => id

omit hctag in
theorem dbResourceLoad_keeps (C : Libc) (url : Bytes) (colid : Int) : KeepsDb I (dbResourceLoad C url colid) := by
  refine KeepsDb.orElse (KeepsDb.statementQuery 2 fun row => ?_) (KeepsDb.pure _)
  cases row with
  | none => exact KeepsDb.pure _
  | some row =>
    refine KeepsDb.bind (KeepsDb.gets _) fun erange => ?_
    cases (icalParse C none erange row.data 0).1 with
    | none => exact KeepsDb.fail
    | some ical => exact KeepsDb.pure _

theorem dbResourceUpdate_keeps {C : Libc} {data url digest etag : Bytes}
    (h : ∀ id db, I db → I (Sql.resUpdate (cstr data) etag id db)) :
    Prog.Ensures I (dbResourceUpdate C data url digest colid etag) fun _ => I := by
  refine KeepsDb.routine (KeepsDb.inTransaction (KeepsDb.bind (dbResourceLoad_keeps C url colid) ?_))
  rintro (_ | _ | res)
  · exact KeepsDb.fail
  · exact KeepsDb.bind KeepsDb.dbTransRollback fun _ => KeepsDb.pure _
  · refine KeepsDb.ite (KeepsDb.bind KeepsDb.dbTransRollback fun _ => KeepsDb.pure _) ?_
    refine KeepsDb.statement 3 (KeepsDb.total (h res.id)) ?_
    refine KeepsDb.bind (dbCollectionUpdateCtag_keeps hctag) fun done => ?_
    exact KeepsDb.ite (KeepsDb.bind KeepsDb.dbTransCommit fun _ => KeepsDb.pure _) KeepsDb.fail

end Ctag

end Kcaldav
