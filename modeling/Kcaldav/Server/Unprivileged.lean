import Kcaldav.Server.Confinement
import Kcaldav.Server.Passwd

/-! # The tool without the password

A run of `kcaldav.passwd` by somebody who is neither adding a principal nor naming one,
and who enters a wrong password. The collection of `-d` is created before the password
is compared; this is all such a run can do, and when it does it is said exactly.
-/
namespace Kcaldav
open CString

variable {C : Libc} {a : Passwd} {cs : ℕ → Choice} {db : Db} {row : PrncplRow} {name coln : Bytes}

/-! ## Loading -/

/-- No step of the load of a principal fails. -/
structure PrncplLoads (cs : ℕ → Choice) (row : PrncplRow) (db : Db) : Prop where
  get : (cs 0).quiet 4
  cols : (cs 1).quiet ((Sql.colIter (int32 row.id) db).length + 3)
  rproxies : (cs 2).quiet ((Sql.proxyIter (int32 row.id) db).length + 3)
  proxies : (cs 3).quiet ((Sql.proxyIterPrncpl (int32 row.id) db).length + 3)

theorem dbIter_run {α : Type} (q : Db → List α) (cs : ℕ → Choice) (db : Db) : (dbIter q).run cs db =
    (if (cs 0).quiet ((q db).length + 3) then some (q db) else none, db, fun n => cs (n + 1)) := by
  rw [dbIter_eq, Prog.run_atom]

theorem dbPrncplLoad_run_db (name : Bytes) (cs : ℕ → Choice) (db : Db) : ((dbPrncplLoad name).run cs db).2.1 = db :=
  dbPrncplLoad_keeps (I := (· = db)) name cs db rfl

/-- A load that no step fails finds the principal. -/
theorem dbPrncplLoad_run (hget : Sql.prncplGet name db = some row) (h : PrncplLoads cs row db) :
    (dbPrncplLoad name).run cs db = (.found (loadedPrncpl name row db), db, fun n => cs (n + 4)) := by
  have hfetched : prncplFetched name (cs 0) db = .found row := by
    unfold prncplFetched
    rw [if_pos (Choice.quiet_mono (by decide) h.get), hget]
    exact if_pos h.get
  unfold dbPrncplLoad
  rw [dbPrncplGet_eq, Prog.atom_bind, Prog.run_act, hfetched]
  dsimp only
  rw [Prog.run_bind, dbIter_run, if_pos h.cols]
  dsimp only
  rw [Prog.run_bind, dbIter_run, if_pos h.rproxies]
  dsimp only
  rw [Prog.run_bind, dbIter_run, if_pos h.proxies]
  rfl

/-- A load goes on only with the rows of a query. -/
theorem dbIter_found {α β : Type} {q : Db → List α} {k : Option (List α) → DbProg (Loaded β)} {p : β}
    (h : ((dbIter q >>= k).run cs db).1 = .found p) (hnone : k none = return .error) :
    (cs 0).quiet ((q db).length + 3) ∧ ((k (some (q db))).run (fun n => cs (n + 1)) db).1 = .found p := by
  rw [Prog.run_bind, dbIter_run] at h
  by_cases hquiet : (cs 0).quiet ((q db).length + 3)
  · rw [if_pos hquiet] at h
    exact ⟨hquiet, h⟩
  · rw [if_neg hquiet, hnone] at h
    cases h

theorem prncplFetched_found {e : Choice} (h : prncplFetched name e db = .found row) :
    Sql.prncplGet name db = some row ∧ e.quiet 4 := by
  unfold prncplFetched at h
  split at h
  · split at h
    · cases h
    next hget =>
      split at h
      next hquiet =>
        cases h
        exact ⟨hget, hquiet⟩
      next => cases h
  · cases h

/-- Only such a load does. -/
theorem dbPrncplLoad_found {p : Prncpl} (h : ((dbPrncplLoad name).run cs db).1 = .found p) :
    ∃ row, Sql.prncplGet name db = some row ∧ PrncplLoads cs row db := by
  unfold dbPrncplLoad at h
  rw [dbPrncplGet_eq, Prog.atom_bind, Prog.run_act] at h
  cases hfetched : prncplFetched name (cs 0) db with
  | error =>
    rw [hfetched] at h
    cases h
  | absent =>
    rw [hfetched] at h
    cases h
  | found row =>
    obtain ⟨hget, hquiet⟩ := prncplFetched_found hfetched
    rw [hfetched] at h
    dsimp only at h
    obtain ⟨hcols, h⟩ := dbIter_found h rfl
    obtain ⟨hrproxies, h⟩ := dbIter_found h rfl
    obtain ⟨hproxies, -⟩ := dbIter_found h rfl
    exact ⟨row, hget, hquiet, hcols, hrproxies, hproxies⟩

/-! ## The principal -/

/-- With a wrong password nothing is set. -/
theorem updatePrncpl_wrong (halt : a.altuser = false) {p : Prncpl} (hwrong : p.hash ≠ a.dold) :
    updatePrncpl a p = Prog.ret 1 := by
  unfold updatePrncpl
  rw [halt, if_pos ⟨rfl, hwrong⟩]
  rfl

/-- The collection of `-d` is new, the principal is there for it, and no step fails on the way to its row. -/
structure Passwd.AddsColn (a : Passwd) (cs : ℕ → Choice) (db : Db) (row : PrncplRow) (coln : Bytes) : Prop where
  given : a.coln = some coln
  found : Sql.prncplGet a.user db = some row
  loads : PrncplLoads cs row db
  quiet : (cs 4).quiet 4
  absent : Sql.colGet (int32 row.id) coln db = none
  owner : ∃ q ∈ db.principal, q.id = int32 row.id

theorem colInsert_ne {id : Int} {db' : Db} (h : Sql.colInsert id coln db = some db') : db' ≠ db := by
  unfold Sql.colInsert at h
  split at h
  · cases h
  · cases h
    intro heq
    have hseq := congrArg Db.collectionSeq heq
    dsimp only at hseq
    omega

theorem colInsert_isSome {id : Int} : (Sql.colInsert id coln db).isSome ↔
    Sql.colGet id coln db = none ∧ ∃ q ∈ db.principal, q.id = id := by
  unfold Sql.colInsert
  split
  next h => simpa [or_iff_not_imp_left, Option.isSome_iff_ne_none] using h
  next h => simpa [Option.isSome_iff_ne_none] using h

/-- The status is 1, and the database is as it was unless the collection is added. -/
theorem changePrncpl_wrong (cs : ℕ → Choice) (halt : a.altuser = false)
    (hwrong : ∀ row, Sql.prncplGet a.user db = some row → row.hash ≠ a.dold) :
    ((changePrncpl a).run cs db).1 = 1 ∧
      (((changePrncpl a).run cs db).2.1 = db ↔ ¬∃ row coln, a.AddsColn cs db row coln) := by
  unfold changePrncpl
  rw [Prog.run_bind]
  have hdb := dbPrncplLoad_run_db a.user cs db
  by_cases hload : ∃ row, Sql.prncplGet a.user db = some row ∧ PrncplLoads cs row db
  · obtain ⟨row, hget, hloads⟩ := hload
    rw [dbPrncplLoad_run hget hloads]
    dsimp only
    have hhash : (loadedPrncpl a.user row db).hash ≠ a.dold := hwrong row hget
    cases hcoln : a.coln with
    | none =>
      rw [updatePrncpl_wrong halt hhash]
      refine ⟨rfl, iff_of_true rfl ?_⟩
      rintro ⟨row, coln, hadds⟩
      rw [hadds.given] at hcoln
      cases hcoln
    | some coln =>
      dsimp only
      rw [updatePrncpl_wrong halt hhash, dbCollectionNew_eq, Prog.atom_bind, Prog.run_act]
      simp only [Prog.pure_eq, ite_self, Prog.run_ret]
      refine ⟨trivial, ?_⟩
      have hadds : (∃ row coln, a.AddsColn cs db row coln) ↔
          (cs 4).quiet 4 ∧ (Sql.colInsert (int32 row.id) coln db).isSome := by
        rw [colInsert_isSome]
        constructor
        · rintro ⟨row', coln', hadds⟩
          obtain rfl := Option.some.inj (hget.symm.trans hadds.found)
          obtain rfl := Option.some.inj (hcoln.symm.trans hadds.given)
          exact ⟨hadds.quiet, hadds.absent, hadds.owner⟩
        · rintro ⟨hquiet, habsent, howner⟩
          exact ⟨row, coln, hcoln, hget, hloads, hquiet, habsent, howner⟩
      change (statement 4 (-1) 0 1 (Sql.colInsert (int32 row.id) coln) (cs 4) db).2 = db ↔ _
      rw [hadds]
      unfold statement
      cases (cs 4).quiet 4 with
      | false => exact iff_of_true rfl fun h => Bool.false_ne_true h.1
      | true =>
        rw [if_pos rfl]
        cases hins : Sql.colInsert (int32 row.id) coln db with
        | none => exact iff_of_true rfl fun h => Bool.false_ne_true h.2
        | some db' => exact iff_of_false (colInsert_ne hins) fun h => h ⟨rfl, rfl⟩
  · have hnot : ¬∃ row coln, a.AddsColn cs db row coln := fun ⟨row, coln, hadds⟩ => hload ⟨row, hadds.found, hadds.loads⟩
    cases hres : ((dbPrncplLoad a.user).run cs db).1 with
    | error => exact ⟨rfl, iff_of_true hdb hnot⟩
    | absent => exact ⟨rfl, iff_of_true hdb hnot⟩
    | found p => exact absurd (dbPrncplLoad_found hres) hload

/-- The run gets past the checks that come before the database. -/
def Passwd.Opens (a : Passwd) : Prop := a.safe ∧ (a.passwd → a.dnew = a.drep)

/-- Without privileges and without the password the database is as it was, unless the run adds a collection. -/
theorem passwdMain_unprivileged_iff (C : Libc) (hadd : a.adduser = false) (halt : a.altuser = false) (cs : ℕ → Choice)
    (db : Db) (hwrong : ∀ row, Sql.prncplGet a.user db = some row → row.hash ≠ a.dold) :
    ((passwdMain C a).run cs db).2.1 = db ↔ ¬(a.Opens ∧ ∃ row coln, a.AddsColn cs db row coln) := by
  unfold passwdMain Passwd.Opens
  cases hsafe : a.safe with
  | false => exact iff_of_true rfl fun h => Bool.false_ne_true h.1.1
  | true =>
    have hsets : a.setsPasswd = a.passwd := by
      unfold Passwd.setsPasswd
      rw [hadd, Bool.false_or]
    rw [Bool.not_true, if_neg Bool.false_ne_true, hsets]
    by_cases hrep : a.passwd ∧ a.dnew ≠ a.drep
    · rw [if_pos hrep]
      exact iff_of_true rfl fun h => hrep.2 (h.1.2 hrep.1)
    · have hopens : true = true ∧ (a.passwd → a.dnew = a.drep) := ⟨rfl, fun h => not_not.mp fun hne => hrep ⟨h, hne⟩⟩
      rw [if_neg hrep, if_neg (by simp [hadd, halt]), and_iff_right hopens]
      unfold setPrncpl
      rw [hadd, if_neg Bool.false_ne_true, Prog.run_bind]
      obtain ⟨hstatus, hdb⟩ := changePrncpl_wrong cs halt hwrong
      rw [hstatus, if_pos (by decide)]
      exact hdb

/-- `joe` enters a wrong password for a new address. -/
def wrongByJoe : Passwd where
  adduser := false
  altuser := false
  user := ascii "joe"
  coln := none
  email := some (ascii "joe@example.org")
  hostEmail := []
  passwd := false
  dold := ascii "other"
  dnew := []
  drep := []
  owned := true
  argv := []

theorem passwdMain_unprivileged_joe : ((passwdMain Libc.utc wrongByJoe).run (fun _ => .calm) .oneCalendar).2.1 = .oneCalendar := by
  refine (passwdMain_unprivileged_iff Libc.utc rfl rfl _ _ ?_).mpr ?_
  · intro row hrow
    cases hrow
    decide +kernel
  · rintro ⟨-, row, coln, hadds⟩
    cases hadds.given

/-- With `-d work` he has added a collection. -/
theorem passwdMain_unprivileged_work :
    (Sql.prncplGet (ascii "joe") .oneCalendar).map PrncplRow.hash = some (ascii "hash") ∧ wrongByJoe.dold = ascii "other" ∧
    ((passwdMain Libc.utc { wrongByJoe with coln := some (ascii "work") }).run (fun _ => .calm) .oneCalendar).1 = 1 ∧
    ((passwdMain Libc.utc { wrongByJoe with coln := some (ascii "work") }).run (fun _ => .calm) .oneCalendar).2.1 =
      { Db.oneCalendar with
        collection := Db.oneCalendar.collection ++ [Sql.newCol 1 (ascii "work") 2]
        collectionSeq := 2 } ∧
    ((passwdMain Libc.utc { wrongByJoe with coln := some (ascii "work") }).run (fun _ => .calm) .oneCalendar).2.1 ≠
      .oneCalendar := by
  refine ⟨by decide +kernel, rfl, by decide +kernel, by decide +kernel, by decide +kernel⟩

end Kcaldav
