import Kcaldav.Library.Fallible
import Kcaldav.Library.Prog
import Kcaldav.Store.Schema

/-! # Statements and transactions

How `db.c` runs SQL. Preparing, binding and stepping a statement and opening a
transaction may each fail; which of them do is part of the choice a piece of the
program is run under, and so is whether a `COMMIT` fails, which undoes the
transaction. A statement outside a transaction is one atomic action, and so is a
whole transaction, which holds the database's write lock from its start.
-/
namespace Kcaldav
open CString

/-- What the surroundings decide about one atomic action: which of its SQL steps
fail, in their order, whether its `COMMIT` does, the order in which rows come out
of a `LIMIT`, and whether `errno` is `ERANGE` when it starts. -/
structure Choice where
  faults : List Bool
  commitFails : Bool
  rank : Int → Nat
  erange : Bool

/-- Nothing fails. -/
def Choice.calm : Choice := ⟨[], false, fun i => i.toNat, false⟩

/-- A connection at work: the database as it sees it, the database as it was when
the transaction was opened, and what is left of the choice. -/
structure Session where
  db : Db
  saved : Db
  choice : Choice

/-- A routine on a connection; failing is `goto err`. -/
abbrev Sql (α : Type) := Fallible Session α

/-- A program on the shared database. -/
abbrev DbProg (α : Type) := Prog Choice Db α

namespace Session

def takeFault (s : Session) : Session := { s with choice := { s.choice with faults := s.choice.faults.tail } }

/-- The next SQL step fails. -/
def faulty (s : Session) : Bool := s.choice.faults.headD false

end Session

/-! ## Steps -/

/-- One SQL step that may fail. -/
def sqlStep : Sql Unit := fun s => (if s.faulty then none else some (), s.takeFault)

def dbPrepare : Sql Unit := sqlStep

/-- Bind a number of parameters. -/
def dbBind : Nat → Sql Unit
  | 0 => Fallible.done ()
  | n + 1 => do
    sqlStep
    dbBind n

/-- Step a statement that changes rows; false where it violates a constraint. -/
def dbStepConstrained (f : Db → Option Db) : Sql Bool := do
  sqlStep
  fun s => match f s.db with
    | none => (some false, s)
    | some db => (some true, { s with db := db })

/-- Step a statement that changes rows, a violated constraint being an error. -/
def dbStep (f : Db → Option Db) : Sql Unit := do
  let done ← dbStepConstrained f
  Fallible.ensure done

/-- Step a query for its first row. -/
def dbQuery {α : Type} (f : Db → α) : Sql α := do
  sqlStep
  Fallible.gets fun s => f s.db

/-- Step through the rows of a query. -/
def dbRows {α : Type} : List α → Sql (List α)
  | [] => do
    sqlStep
    return []
  | a :: as => do
    sqlStep
    return a :: (← dbRows as)

/-! ## Transactions -/

def dbTransOpen : Sql Bool := fun s =>
  (some !s.faulty, if s.faulty then s.takeFault else { s.takeFault with saved := s.db })

def dbTransRollback : Sql Unit := Fallible.modify fun s => { s with db := s.saved }

def dbTransCommit : Sql Bool := fun s =>
  (some !s.choice.commitFails, if s.choice.commitFails then { s with db := s.saved } else s)

/-- The part of a routine after `BEGIN` and before its `err` label, and what it
returns there. -/
def inTransaction {α : Type} (err : α) (body : Sql α) : Sql α := do
  if ← dbTransOpen then
    body.orElse do
      dbTransRollback
      return err
  else return err

/-! ## Routines as programs -/

/-- Run a routine as one atomic action, with the value of its `err` label. -/
def routine {α : Type} (err : α) (body : Sql α) : DbProg α := Prog.atom fun e db =>
  let r := body ⟨db, db, e⟩
  (r.1.getD err, r.2.db)

/-! ## How a routine goes

`quiet n` says that none of the next `n` SQL steps fails. A statement whose steps
are quiet takes effect; otherwise the routine goes to its `err` label with the
database as it was. -/

namespace Choice

def quiet (n : Nat) (e : Choice) : Bool := (e.faults.take n).all (!·)

def skip (n : Nat) (e : Choice) : Choice := { e with faults := e.faults.drop n }

@[simp] theorem quiet_zero (e : Choice) : e.quiet 0 := rfl
@[simp] theorem skip_zero (e : Choice) : e.skip 0 = e := rfl
@[simp] theorem skip_commitFails (n : Nat) (e : Choice) : (e.skip n).commitFails = e.commitFails := rfl
@[simp] theorem skip_rank (n : Nat) (e : Choice) : (e.skip n).rank = e.rank := rfl
@[simp] theorem skip_erange (n : Nat) (e : Choice) : (e.skip n).erange = e.erange := rfl

@[simp] theorem skip_skip (n m : Nat) (e : Choice) : (e.skip n).skip m = e.skip (n + m) := by
  simp [skip, List.drop_drop]

theorem quiet_add (n m : Nat) (e : Choice) : e.quiet (n + m) = (e.quiet n && (e.skip n).quiet m) := by
  simp [quiet, skip, List.take_add]

theorem quiet_mono {n m : Nat} {e : Choice} (h : n ≤ m) (hq : e.quiet m) : e.quiet n := by
  obtain ⟨k, rfl⟩ := Nat.exists_eq_add_of_le h
  rw [quiet_add, Bool.and_eq_true] at hq
  exact hq.1

@[simp] theorem quiet_calm (n : Nat) : calm.quiet n := by simp [quiet, calm]

end Choice

namespace Session

def skip (n : Nat) (s : Session) : Session := { s with choice := s.choice.skip n }

@[simp] theorem skip_zero (s : Session) : s.skip 0 = s := rfl
@[simp] theorem skip_db (n : Nat) (s : Session) : (s.skip n).db = s.db := rfl
@[simp] theorem skip_saved (n : Nat) (s : Session) : (s.skip n).saved = s.saved := rfl
@[simp] theorem skip_choice (n : Nat) (s : Session) : (s.skip n).choice = s.choice.skip n := rfl

@[simp] theorem skip_skip (n m : Nat) (s : Session) : (s.skip n).skip m = s.skip (n + m) := by
  simp [skip]

theorem takeFault_eq (s : Session) : s.takeFault = s.skip 1 := by
  simp [takeFault, skip, Choice.skip]

theorem faulty_eq (s : Session) : s.faulty = !s.choice.quiet 1 := by
  unfold faulty Choice.quiet
  cases s.choice.faults <;> simp

/-- The session in which one of the next `n` steps has failed. -/
def stuck (n : Nat) (s : Session) : Session := (dbBind n s).2

end Session

theorem sqlStep_apply (s : Session) : sqlStep s = (if s.choice.quiet 1 then some () else none, s.skip 1) := by
  unfold sqlStep
  rw [Session.faulty_eq, Session.takeFault_eq]
  cases s.choice.quiet 1 <;> rfl

theorem dbBind_apply (n : Nat) (s : Session) :
    dbBind n s = if s.choice.quiet n then (some (), s.skip n) else (none, s.stuck n) := by
  unfold Session.stuck
  induction n generalizing s with
  | zero => rfl
  | succ n ih =>
    unfold dbBind
    rw [Fallible.bind_apply, sqlStep_apply, Nat.add_comm n 1, Choice.quiet_add]
    cases s.choice.quiet 1 with
    | false => rfl
    | true =>
      change dbBind n (s.skip 1) = _
      rw [ih, Session.skip_choice, Session.skip_skip, Bool.true_and]
      cases (s.choice.skip 1).quiet n <;> rfl

theorem stuck_frame (n : Nat) (s : Session) :
    (s.stuck n).db = s.db ∧ (s.stuck n).saved = s.saved ∧ (s.stuck n).choice.commitFails = s.choice.commitFails := by
  unfold Session.stuck
  induction n generalizing s with
  | zero => exact ⟨rfl, rfl, rfl⟩
  | succ n ih =>
    unfold dbBind
    rw [Fallible.bind_apply, sqlStep_apply]
    cases s.choice.quiet 1 with
    | false => exact ⟨rfl, rfl, rfl⟩
    | true => exact ih (s.skip 1)

@[simp] theorem stuck_db (n : Nat) (s : Session) : (s.stuck n).db = s.db := (stuck_frame n s).1
@[simp] theorem stuck_saved (n : Nat) (s : Session) : (s.stuck n).saved = s.saved := (stuck_frame n s).2.1

theorem Session.stuck_one (s : Session) : s.stuck 1 = s.skip 1 := by
  unfold stuck dbBind
  rw [Fallible.bind_apply, sqlStep_apply]
  cases s.choice.quiet 1 <;> rfl

theorem dbBind_add (n m : Nat) : dbBind (m + n) = dbBind n >>= fun _ => dbBind m := by
  induction n with
  | zero => rfl
  | succ n ih =>
    rw [Nat.add_succ, dbBind, dbBind, ih, Fallible.bind_assoc]

theorem Session.stuck_add (n m : Nat) (s : Session) :
    s.stuck (n + m) = if s.choice.quiet n then (s.skip n).stuck m else s.stuck n := by
  have h : s.stuck (n + m) = ((dbBind n >>= fun _ => dbBind m) s).2 := by
    rw [← dbBind_add, Nat.add_comm]
    rfl
  rw [h, Fallible.bind_apply, dbBind_apply]
  cases s.choice.quiet n <;> rfl

variable {α β : Type}

/-- Preparing a statement and binding its parameters. -/
theorem prepare_bind (n : Nat) (f : Unit → Sql α) (s : Session) :
    (dbPrepare >>= fun _ => dbBind n >>= f) s =
      if s.choice.quiet (n + 1) then f () (s.skip (n + 1)) else (none, s.stuck (n + 1)) := by
  have h : (dbPrepare >>= fun _ => dbBind n >>= f) = (dbBind (n + 1) >>= f) := by
    rw [dbBind, Fallible.bind_assoc]
    rfl
  rw [h, Fallible.bind_apply, dbBind_apply]
  cases s.choice.quiet (n + 1) <;> rfl

theorem dbStepConstrained_apply (g : Db → Option Db) (s : Session) :
    dbStepConstrained g s =
      if s.choice.quiet 1 then
        match g s.db with
        | none => (some false, s.skip 1)
        | some db => (some true, { s.skip 1 with db := db })
      else (none, s.skip 1) := by
  have h := sqlStep_apply s
  unfold dbStepConstrained
  cases hq : s.choice.quiet 1 with
  | false =>
    rw [hq] at h
    exact Fallible.bind_of_none h
  | true =>
    rw [hq] at h
    exact Fallible.bind_of_some h

theorem stepConstrained_bind (g : Db → Option Db) (f : Bool → Sql α) (s : Session) :
    (dbStepConstrained g >>= f) s =
      if s.choice.quiet 1 then
        match g s.db with
        | none => f false (s.skip 1)
        | some db => f true { s.skip 1 with db := db }
      else (none, s.skip 1) := by
  rw [Fallible.bind_apply, dbStepConstrained_apply]
  cases s.choice.quiet 1 with
  | false => rfl
  | true => cases g s.db <;> rfl

theorem step_bind (g : Db → Option Db) (f : Unit → Sql α) (s : Session) :
    (dbStep g >>= f) s =
      if s.choice.quiet 1 then
        match g s.db with
        | none => (none, s.skip 1)
        | some db => f () { s.skip 1 with db := db }
      else (none, s.skip 1) := by
  rw [dbStep, Fallible.bind_assoc, stepConstrained_bind]
  cases s.choice.quiet 1 with
  | false => rfl
  | true => cases g s.db <;> rfl

theorem query_bind (g : Db → β) (f : β → Sql α) (s : Session) :
    (dbQuery g >>= f) s = if s.choice.quiet 1 then f (g s.db) (s.skip 1) else (none, s.skip 1) := by
  rw [dbQuery, Fallible.bind_assoc, Fallible.bind_apply, sqlStep_apply]
  cases s.choice.quiet 1 <;> rfl

/-! A statement is prepared, bound and stepped; it fails where one of its steps does. -/

theorem statementConstrained_bind (n : Nat) (g : Db → Option Db) (f : Bool → Sql α) (s : Session) :
    (dbPrepare >>= fun _ => dbBind n >>= fun _ => dbStepConstrained g >>= f) s =
      if s.choice.quiet (n + 2) then
        match g s.db with
        | none => f false (s.skip (n + 2))
        | some db => f true { s.skip (n + 2) with db := db }
      else (none, s.stuck (n + 2)) := by
  rw [prepare_bind, Choice.quiet_add (n + 1) 1, Session.stuck_add (n + 1) 1]
  cases s.choice.quiet (n + 1) with
  | false => rfl
  | true =>
    rw [if_pos rfl, stepConstrained_bind, Session.stuck_one, Bool.true_and, if_pos rfl, Session.skip_skip]
    rfl

theorem statement_bind (n : Nat) (g : Db → Option Db) (f : Unit → Sql α) (s : Session) :
    (dbPrepare >>= fun _ => dbBind n >>= fun _ => dbStep g >>= f) s =
      if s.choice.quiet (n + 2) then
        match g s.db with
        | none => (none, s.skip (n + 2))
        | some db => f () { s.skip (n + 2) with db := db }
      else (none, s.stuck (n + 2)) := by
  have h : (dbStep g >>= f) = dbStepConstrained g >>= fun done => Fallible.ensure done >>= f :=
    Fallible.bind_assoc _ _ _
  rw [h, statementConstrained_bind]
  cases g s.db <;> rfl

theorem statementQuery_bind (n : Nat) (g : Db → β) (f : β → Sql α) (s : Session) :
    (dbPrepare >>= fun _ => dbBind n >>= fun _ => dbQuery g >>= f) s =
      if s.choice.quiet (n + 2) then f (g s.db) (s.skip (n + 2)) else (none, s.stuck (n + 2)) := by
  rw [prepare_bind, Choice.quiet_add (n + 1) 1, Session.stuck_add (n + 1) 1]
  cases s.choice.quiet (n + 1) with
  | false => rfl
  | true =>
    rw [if_pos rfl, query_bind, Session.stuck_one, Bool.true_and, if_pos rfl, Session.skip_skip]
    rfl

theorem orElse_pure (x : Sql α) (a : α) (s : Session) :
    (x.orElse (pure a)) s = (some ((x s).1.getD a), (x s).2) := by
  unfold Fallible.orElse
  rcases x s with ⟨_ | b, t⟩ <;> rfl

theorem dbTransOpen_apply (s : Session) :
    dbTransOpen s = if s.choice.quiet 1 then (some true, { s.skip 1 with saved := s.db }) else (some false, s.skip 1) := by
  unfold dbTransOpen
  rw [Session.faulty_eq, Session.takeFault_eq]
  cases s.choice.quiet 1 <;> rfl

/-- A transaction: nothing where it cannot be opened, and the database as it was
where the body goes to its `err` label. -/
theorem inTransaction_apply (err : α) (body : Sql α) (s : Session) :
    inTransaction err body s =
      if s.choice.quiet 1 then
        match body { s.skip 1 with saved := s.db } with
        | (some a, t) => (some a, t)
        | (none, t) => (some err, { t with db := t.saved })
      else (some err, s.skip 1) := by
  rw [inTransaction, Fallible.bind_apply, dbTransOpen_apply]
  cases s.choice.quiet 1 with
  | false => rfl
  | true =>
    change Fallible.orElse body _ { s.skip 1 with saved := s.db } = _
    unfold Fallible.orElse
    rcases body { s.skip 1 with saved := s.db } with ⟨_ | a, t⟩ <;> rfl

end Kcaldav
