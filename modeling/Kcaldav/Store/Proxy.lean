import Kcaldav.Store.Outcome
import Kcaldav.Store.Frame

/-! # Making a proxy

The table of proxies under its constraints, what `db_proxy` leaves of it in closed
form, and what the sign of its result says. One constraint code stands for a row
that is there and for a principal that is not, so the result never says the second.
-/
namespace Kcaldav
open CString

/-! ## The table -/

def Db.HasPrncpl (db : Db) (id : Int) : Prop := ∃ q ∈ db.principal, q.id = id

instance (db : Db) (id : Int) : Decidable (db.HasPrncpl id) := inferInstanceAs (Decidable (∃ q ∈ db.principal, q.id = id))

/-- The row that lets `id` act for `p`. -/
def ProxyRow.For (p id : Int) (x : ProxyRow) : Prop := x.principal = p ∧ x.proxy = id

instance (p id : Int) (x : ProxyRow) : Decidable (x.For p id) := inferInstanceAs (Decidable (x.principal = p ∧ x.proxy = id))

/-- The constraints of the table. -/
structure ProxyTable (db : Db) : Prop where
  unique : db.proxy.Pairwise fun x y => ¬y.For x.principal x.proxy
  principal : ∀ x ∈ db.proxy, db.HasPrncpl x.principal
  proxy : ∀ x ∈ db.proxy, db.HasPrncpl x.proxy

variable {p id bits : Int} {db db' : Db}

theorem proxyInsert_eq_none : Sql.proxyInsert p id bits db = none ↔
    (∃ x ∈ db.proxy, x.For p id) ∨ ¬db.HasPrncpl p ∨ ¬db.HasPrncpl id := by
  unfold Sql.proxyInsert Db.HasPrncpl ProxyRow.For
  push Not
  split
  next h => simpa using h
  next h => simpa using h

theorem proxyInsert_eq_some : Sql.proxyInsert p id bits db = some db' ↔
    (¬∃ x ∈ db.proxy, x.For p id) ∧ db.HasPrncpl p ∧ db.HasPrncpl id ∧
      db' = { db with proxy := db.proxy ++ [⟨p, id, bits, db.proxySeq + 1⟩], proxySeq := db.proxySeq + 1 } := by
  constructor
  · intro h
    have hsome : Sql.proxyInsert p id bits db ≠ none := by
      rw [h]
      exact Option.some_ne_none db'
    rw [Ne, proxyInsert_eq_none] at hsome
    push Not at hsome
    refine ⟨?_, hsome.2.1, hsome.2.2, ?_⟩
    · push Not
      exact hsome.1
    · unfold Sql.proxyInsert at h
      split at h
      · cases h
      · exact (Option.some.inj h).symm
  · rintro ⟨hrow, hp, hid, rfl⟩
    unfold Sql.proxyInsert
    rw [if_neg]
    rintro (h | h | h)
    · exact hrow h
    · obtain ⟨q, hq, rfl⟩ := hp
      exact h q hq rfl
    · obtain ⟨q, hq, rfl⟩ := hid
      exact h q hq rfl

/-- There is one row for two principals. -/
theorem ProxyTable.filter_eq (h : ProxyTable db) {x : ProxyRow} (hx : x ∈ db.proxy) (hfor : x.For p id) :
    db.proxy.filter (·.For p id) = [x] := by
  have hrows := h.unique.filter fun y => decide (y.For p id)
  have hmem : x ∈ db.proxy.filter (·.For p id) := List.mem_filter.mpr ⟨hx, decide_eq_true hfor⟩
  have hall : ∀ y ∈ db.proxy.filter (·.For p id), y.For p id := fun y hy => of_decide_eq_true (List.mem_filter.mp hy).2
  revert hrows hmem hall
  generalize db.proxy.filter (·.For p id) = rows
  intro hrows hmem hall
  match rows, hrows, hmem, hall with
  | [y], _, hmem, _ => rw [List.mem_singleton.mp hmem]
  | y :: z :: rest, hrows, _, hall =>
    have hy : y.For p id := hall y List.mem_cons_self
    have hz : z.For p id := hall z (List.mem_cons_of_mem y List.mem_cons_self)
    have hne := List.rel_of_pairwise_cons hrows (List.mem_cons_self (a := z) (l := rest))
    rw [hy.1, hy.2] at hne
    exact absurd hz hne

/-- One row lets `id` act for `p`, with the permission; the others are as they were. -/
def ProxyMade (p id bits : Int) (db db' : Db) : Prop :=
  (∃ x, db'.proxy.filter (·.For p id) = [x] ∧ x.bits = bits) ∧
    db'.proxy.filter (¬·.For p id) = db.proxy.filter (¬·.For p id)

theorem filter_for_eq_nil (hrow : ¬∃ x ∈ db.proxy, x.For p id) : db.proxy.filter (·.For p id) = [] := by
  rw [List.filter_eq_nil_iff]
  intro x hx
  simp only [decide_eq_true_eq]
  exact fun hfor => hrow ⟨x, hx, hfor⟩

theorem proxyInsert_made (h : Sql.proxyInsert p id bits db = some db') : ProxyMade p id bits db db' := by
  obtain ⟨hrow, -, -, rfl⟩ := proxyInsert_eq_some.mp h
  have hnew : ProxyRow.For p id ⟨p, id, bits, db.proxySeq + 1⟩ := ⟨rfl, rfl⟩
  refine ⟨⟨⟨p, id, bits, db.proxySeq + 1⟩, ?_, rfl⟩, ?_⟩
  · rw [List.filter_append, filter_for_eq_nil hrow, List.nil_append]
    exact List.filter_cons_of_pos (decide_eq_true hnew)
  · rw [List.filter_append, List.filter_cons_of_neg (by simp [hnew])]
    exact List.append_nil _

theorem proxyUpdate_for (x : ProxyRow) :
    (if x.principal = p ∧ x.proxy = id then { x with bits := bits } else x).For p id ↔ x.For p id := by
  split
  · exact Iff.rfl
  · exact Iff.rfl

/-- The permission of a row that is there is set. -/
theorem proxyUpdate_made (h : ProxyTable db) (hrow : ∃ x ∈ db.proxy, x.For p id) :
    ProxyMade p id bits db (Sql.proxyUpdate bits p id db) := by
  obtain ⟨x, hx, hfor⟩ := hrow
  unfold ProxyMade Sql.proxyUpdate
  dsimp only
  refine ⟨⟨{ x with bits := bits }, ?_, rfl⟩, ?_⟩
  · rw [List.filter_map, List.filter_congr (q := fun y => decide (y.For p id)), h.filter_eq hx hfor]
    · exact congrArg (fun y => [y]) (if_pos hfor)
    · intro y _
      exact decide_eq_decide.mpr (proxyUpdate_for y)
  · rw [List.filter_map, List.filter_congr (q := fun y => decide ¬y.For p id)]
    · refine (List.map_congr_left fun y hy => if_neg ?_).trans (List.map_id' _)
      exact of_decide_eq_true (List.mem_filter.mp hy).2
    · intro y _
      exact decide_eq_decide.mpr (not_congr (proxyUpdate_for y))

/-- Where there is none nothing is. -/
theorem proxyUpdate_eq_self (hrow : ¬∃ x ∈ db.proxy, x.For p id) : Sql.proxyUpdate bits p id db = db := by
  have hrows : (Sql.proxyUpdate bits p id db).proxy = db.proxy := by
    refine (List.map_congr_left fun x hx => if_neg ?_).trans (List.map_id' _)
    exact fun hfor => hrow ⟨x, hx, hfor⟩
  unfold Sql.proxyUpdate at hrows ⊢
  dsimp only at hrows
  rw [hrows]

theorem not_proxyMade (hrow : ¬∃ x ∈ db.proxy, x.For p id) : ¬ProxyMade p id bits db db := by
  rintro ⟨⟨x, hx, -⟩, -⟩
  rw [filter_for_eq_nil hrow] at hx
  cases hx

theorem ProxyTable.proxyInsert (h : ProxyTable db) (hins : Sql.proxyInsert p id bits db = some db') : ProxyTable db' := by
  obtain ⟨hrow, hp, hid, rfl⟩ := proxyInsert_eq_some.mp hins
  refine ⟨?_, ?_, ?_⟩
  · rw [List.pairwise_append]
    refine ⟨h.unique, List.pairwise_singleton _ _, ?_⟩
    rintro x hx y hy ⟨hprincipal, hproxy⟩
    rw [List.mem_singleton.mp hy] at hprincipal hproxy
    exact hrow ⟨x, hx, hprincipal.symm, hproxy.symm⟩
  · intro x hx
    rcases List.mem_append.mp hx with hx | hx
    · exact h.principal x hx
    · rw [List.mem_singleton.mp hx]
      exact hp
  · intro x hx
    rcases List.mem_append.mp hx with hx | hx
    · exact h.proxy x hx
    · rw [List.mem_singleton.mp hx]
      exact hid

theorem ProxyTable.proxyUpdate (h : ProxyTable db) : ProxyTable (Sql.proxyUpdate bits p id db) := by
  have hsame (x : ProxyRow) : ∃ b, (if x.principal = p ∧ x.proxy = id then { x with bits := bits } else x) = { x with bits := b } := by
    split
    · exact ⟨bits, rfl⟩
    · exact ⟨x.bits, rfl⟩
  refine ⟨?_, ?_, ?_⟩
  · unfold Sql.proxyUpdate
    rw [List.pairwise_map]
    refine h.unique.imp fun {x y} hne => ?_
    obtain ⟨b, hx⟩ := hsame x
    obtain ⟨c, hy⟩ := hsame y
    rw [hx, hy]
    exact hne
  · intro x hx
    obtain ⟨y, hy, rfl⟩ := List.mem_map.mp hx
    obtain ⟨b, hb⟩ := hsame y
    rw [hb]
    exact h.principal y hy
  · intro x hx
    obtain ⟨y, hy, rfl⟩ := List.mem_map.mp hx
    obtain ⟨b, hb⟩ := hsame y
    rw [hb]
    exact h.proxy y hy

/-! ## The routine -/

/-- What `db_proxy` returns and leaves, step by step. -/
def proxyOutcome (p id bits : Int) (e : Choice) (db : Db) : Int × Db :=
  if !e.quiet 5 then (-1, db)
  else if !e.quiet 6 then (SQLITE_ERROR, db)
  else
    match Sql.proxyInsert p id bits db with
    | some db' => if e.commitFails then (-1, db) else (1, db')
    | none =>
      if !e.quiet 10 then (SQLITE_CONSTRAINT, db)
      else if !e.quiet 11 then (SQLITE_ERROR, db)
      else if e.commitFails then (-1, db) else (1, Sql.proxyUpdate bits p id db)

/-- Preparing and binding where a failure is a result. -/
theorem bound_bind {α : Type} (n : Nat) (f : Bool → Sql α) (s : Session) :
    (Fallible.orElse (do
      dbPrepare
      dbBind n
      return true) (pure false) >>= f) s =
    if s.choice.quiet (n + 1) then f true (s.skip (n + 1)) else f false (s.stuck (n + 1)) := by
  rw [Fallible.bind_apply, orElse_pure, prepare_bind]
  cases s.choice.quiet (n + 1) <;> rfl

theorem dbProxyCommit_apply (s : Session) :
    dbProxyCommit s = if s.choice.commitFails then (some (-1), { s with db := s.saved }) else (some 1, s) := by
  unfold dbProxyCommit
  rw [Fallible.bind_apply]
  unfold dbTransCommit
  cases s.choice.commitFails <;> rfl

/-- The result of a routine whose `err` label gives minus one. -/
def proxyResult (r : Option Int × Session) : Int × Db := (r.1.getD (-1), r.2.db)

theorem proxyResult_commit (s : Session) :
    proxyResult (dbProxyCommit s) = if s.choice.commitFails then (-1, s.saved) else (1, s.db) := by
  rw [dbProxyCommit_apply]
  cases s.choice.commitFails <;> rfl

/-- From the second statement on. -/
theorem proxyResult_update (s : Session) :
    proxyResult ((do
      let rebound ← Fallible.orElse (do
        dbPrepare
        dbBind 3
        return true) (pure false)
      if !rebound then dbProxyErr SQLITE_CONSTRAINT
      else
        let updated ← Fallible.orElse (do
          dbStep fun db => some (Sql.proxyUpdate bits p id db)
          return true) (pure false)
        if updated then dbProxyCommit else dbProxyErr SQLITE_ERROR) s) =
    if !s.choice.quiet 4 then (SQLITE_CONSTRAINT, s.saved)
    else if !s.choice.quiet 5 then (SQLITE_ERROR, s.saved)
    else if s.choice.commitFails then (-1, s.saved) else (1, Sql.proxyUpdate bits p id s.db) := by
  rw [bound_bind, Choice.quiet_add 4 1]
  cases s.choice.quiet 4 with
  | false => exact congrArg (Prod.mk SQLITE_CONSTRAINT) (stuck_saved 4 s)
  | true =>
    rw [if_pos rfl, Bool.not_true, if_neg Bool.false_ne_true, Fallible.bind_apply, orElse_pure, step_bind,
      Session.skip_choice, Bool.true_and]
    cases (s.choice.skip 4).quiet 1 with
    | false => rfl
    | true => exact proxyResult_commit { (s.skip 4).skip 1 with db := Sql.proxyUpdate bits p id s.db }

/-- From the first statement's step on. -/
theorem proxyResult_insert (s : Session) (k : Sql Int) :
    proxyResult ((do
      let rc ← Fallible.orElse (do
        let done ← dbStepConstrained (Sql.proxyInsert p id bits)
        return if done then 0 else SQLITE_CONSTRAINT) (pure SQLITE_ERROR)
      if rc = 0 then dbProxyCommit
      else if rc ≠ SQLITE_CONSTRAINT then dbProxyErr rc
      else k) s) =
    if !s.choice.quiet 1 then (SQLITE_ERROR, s.saved)
    else
      match Sql.proxyInsert p id bits s.db with
      | some db' => if s.choice.commitFails then (-1, s.saved) else (1, db')
      | none => proxyResult (k (s.skip 1)) := by
  rw [Fallible.bind_apply, orElse_pure, stepConstrained_bind]
  cases s.choice.quiet 1 with
  | false => rfl
  | true =>
    rw [if_pos rfl]
    cases Sql.proxyInsert p id bits s.db with
    | none => rfl
    | some db' => exact proxyResult_commit { s.skip 1 with db := db' }

theorem dbProxy_eq (p id bits : Int) : dbProxy p id bits = Prog.atom (proxyOutcome p id bits) := by
  refine congrArg Prog.atom ?_
  funext e db
  unfold proxyOutcome
  rw [Choice.quiet_add 1 4, Choice.quiet_add 5 1, Choice.quiet_add 6 4, Choice.quiet_add 6 5, Choice.quiet_add 5 1,
    Choice.quiet_add 1 4]
  change proxyResult _ = _
  rw [Fallible.bind_apply, dbTransOpen_apply]
  cases e.quiet 1 with
  | false => rfl
  | true =>
    rw [if_pos rfl]
    dsimp only
    rw [if_pos rfl, bound_bind, Session.skip_choice, Bool.true_and]
    cases (e.skip 1).quiet 4 with
    | false => exact congrArg (Prod.mk (-1)) (stuck_saved 4 ⟨db, db, e.skip 1⟩)
    | true =>
      rw [if_pos rfl, Bool.not_true, if_neg Bool.false_ne_true, proxyResult_insert, Bool.true_and]
      simp only [Session.skip_choice, Choice.skip_skip, Session.skip_skip, Session.skip_db, Nat.reduceAdd]
      rw [if_neg Bool.false_ne_true]
      cases (e.skip 5).quiet 1 with
      | false => rfl
      | true =>
        cases Sql.proxyInsert p id bits db with
        | some db' => rfl
        | none =>
          simp only [Bool.true_and, Bool.not_true, Bool.false_eq_true, if_false]
          rw [proxyResult_update, Session.skip_choice, Choice.skip_skip]
          rfl

/-! ## The sign of the result -/

/-- A step of the run fails: of those it takes if none does, or its `COMMIT`. -/
def ProxyFails (p id bits : Int) (e : Choice) (db : Db) : Prop :=
  e.quiet (if (Sql.proxyInsert p id bits db).isSome then 6 else 11) = false ∨ e.commitFails

/-- What the sign of a result stands for: the row is made, there is no such principal, the system fails. -/
structure ProxyContract (p id bits : Int) (fails : Prop) (db : Db) (r : Int × Db) : Prop where
  made : 0 < r.1 ↔ ¬fails ∧ ProxyMade p id bits db r.2
  absent : r.1 = 0 ↔ ¬fails ∧ ¬db.HasPrncpl id ∧ r.2 = db
  failed : r.1 < 0 ↔ fails ∧ r.2 = db

section Signs
variable {fails : Prop} {rc : Int}

theorem ProxyContract.of_fails (h : fails) : ProxyContract p id bits fails db (rc, db) ↔ rc < 0 := by
  constructor
  · intro hc
    exact hc.failed.mpr ⟨h, rfl⟩
  · intro hneg
    refine ⟨iff_of_false ?_ fun hmade => hmade.1 h, iff_of_false ?_ fun habsent => habsent.1 h, iff_of_true hneg ⟨h, rfl⟩⟩
    · exact Int.not_lt.mpr (Int.le_of_lt hneg)
    · exact Int.ne_of_lt hneg

theorem ProxyContract.of_done (h : ¬fails) (hid : ProxyMade p id bits db db' → db.HasPrncpl id) :
    ProxyContract p id bits fails db (1, db') ↔ ProxyMade p id bits db db' := by
  have hpos : (0 : Int) < 1 := by decide
  constructor
  · intro hc
    exact (hc.made.mp hpos).2
  · intro hmade
    refine ⟨iff_of_true hpos ⟨h, hmade⟩, iff_of_false (Int.ne_of_gt hpos) ?_, iff_of_false ?_ fun hfailed => h hfailed.1⟩
    · exact fun habsent => habsent.2.1 (hid hmade)
    · exact Int.not_lt.mpr (Int.le_of_lt hpos)

end Signs

/-- The run comes to its `COMMIT`. -/
def ProxyQuiet (p id bits : Int) (e : Choice) (db : Db) : Prop :=
  e.quiet (if (Sql.proxyInsert p id bits db).isSome then 6 else 11) = true

theorem proxyFails_of_quiet {e : Choice} {n : Nat} (hq : e.quiet n = false)
    (hn : n ≤ if (Sql.proxyInsert p id bits db).isSome then 6 else 11) :
    ProxyFails p id bits e db ∧ ¬ProxyQuiet p id bits e db := by
  have hfalse : e.quiet (if (Sql.proxyInsert p id bits db).isSome then 6 else 11) = false := by
    rw [Bool.eq_false_iff] at hq ⊢
    exact fun h => hq (Choice.quiet_mono hn h)
  refine ⟨.inl hfalse, fun h => ?_⟩
  rw [ProxyQuiet, hfalse] at h
  cases h

/-- With a row there are both principals. -/
theorem hasPrncpl_of_row (hdb : ProxyTable db) (h : ∃ x ∈ db.proxy, x.For p id) : db.HasPrncpl p ∧ db.HasPrncpl id := by
  obtain ⟨x, hx, rfl, rfl⟩ := h
  exact ⟨hdb.principal x hx, hdb.proxy x hx⟩

theorem ProxyContract.commit {e : Choice} (hquiet : ProxyQuiet p id bits e db)
    (hmade : ProxyMade p id bits db db' ↔ db.HasPrncpl p ∧ db.HasPrncpl id) :
    ProxyContract p id bits (ProxyFails p id bits e db) db (if e.commitFails then (-1, db) else (1, db')) ↔
      e.commitFails ∨ db.HasPrncpl p ∧ db.HasPrncpl id := by
  cases hc : e.commitFails with
  | true =>
    rw [if_pos rfl, ProxyContract.of_fails (.inr hc)]
    exact iff_of_true (by decide) (.inl rfl)
  | false =>
    have hfails : ¬ProxyFails p id bits e db := by
      rintro (h | h)
      · exact absurd (hquiet.symm.trans h) (by decide)
      · exact absurd (hc.symm.trans h) (by decide)
    rw [if_neg Bool.false_ne_true, ProxyContract.of_done hfails fun h => (hmade.mp h).2, hmade,
      or_iff_right Bool.false_ne_true]

theorem proxyOutcome_contract_iff (hdb : ProxyTable db) (p id bits : Int) (e : Choice) :
    ProxyContract p id bits (ProxyFails p id bits e db) db (proxyOutcome p id bits e db) ↔
    e.quiet 5 = false ∨
      ProxyQuiet p id bits e db ∧ (e.commitFails ∨ db.HasPrncpl p ∧ db.HasPrncpl id) := by
  have hleast : ∀ n, n ≤ 6 → n ≤ if (Sql.proxyInsert p id bits db).isSome then 6 else 11 := by
    intro n hn
    split <;> omega
  unfold proxyOutcome
  cases h5 : e.quiet 5 with
  | false =>
    rw [Bool.not_false, if_pos rfl, ProxyContract.of_fails (proxyFails_of_quiet h5 (hleast 5 (by omega))).1]
    exact iff_of_true (by decide) (.inl rfl)
  | true =>
    have hfive : ¬(true = false) := by decide
    rw [or_iff_right hfive, Bool.not_true, if_neg Bool.false_ne_true]
    cases h6 : e.quiet 6 with
    | false =>
      obtain ⟨hfails, hquiet⟩ := proxyFails_of_quiet h6 (hleast 6 le_rfl)
      rw [Bool.not_false, if_pos rfl, ProxyContract.of_fails hfails]
      exact iff_of_false (by decide) fun h => hquiet h.1
    | true =>
      rw [Bool.not_true, if_neg Bool.false_ne_true]
      cases hins : Sql.proxyInsert p id bits db with
      | some db' =>
        have hquiet : ProxyQuiet p id bits e db := by
          rw [ProxyQuiet, hins]
          exact h6
        obtain ⟨-, hp, hid, -⟩ := proxyInsert_eq_some.mp hins
        rw [ProxyContract.commit hquiet (iff_of_true (proxyInsert_made hins) ⟨hp, hid⟩), and_iff_right hquiet]
      | none =>
        have hsteps : (if (Sql.proxyInsert p id bits db).isSome then 6 else 11) = 11 := by
          rw [hins]
          rfl
        have hleast : ∀ n, n ≤ 11 → n ≤ if (Sql.proxyInsert p id bits db).isSome then 6 else 11 := by
          rw [hsteps]
          exact fun n hn => hn
        cases h10 : e.quiet 10 with
        | false =>
          obtain ⟨hfails, hquiet⟩ := proxyFails_of_quiet h10 (hleast 10 (by omega))
          rw [Bool.not_false, if_pos rfl, ProxyContract.of_fails hfails]
          exact iff_of_false (by decide) fun h => hquiet h.1
        | true =>
          rw [Bool.not_true, if_neg Bool.false_ne_true]
          cases h11 : e.quiet 11 with
          | false =>
            obtain ⟨hfails, hquiet⟩ := proxyFails_of_quiet h11 (hleast 11 le_rfl)
            rw [Bool.not_false, if_pos rfl, ProxyContract.of_fails hfails]
            exact iff_of_false (by decide) fun h => hquiet h.1
          | true =>
            have hquiet : ProxyQuiet p id bits e db := by
              rw [ProxyQuiet, hsteps]
              exact h11
            rw [Bool.not_true, if_neg Bool.false_ne_true, ProxyContract.commit hquiet, and_iff_right hquiet]
            by_cases hrow : ∃ x ∈ db.proxy, x.For p id
            · exact iff_of_true (proxyUpdate_made hdb hrow) (hasPrncpl_of_row hdb hrow)
            · rw [proxyUpdate_eq_self hrow]
              refine iff_of_false (not_proxyMade hrow) ?_
              rintro ⟨hp, hid⟩
              rcases proxyInsert_eq_none.mp hins with h | h | h
              · exact hrow h
              · exact h hp
              · exact h hid

/-- `db_proxy` keeps to its signs where a step fails before the first statement is run or
at `COMMIT`, and where none does and there are both principals. -/
theorem dbProxy_contract_iff (hdb : ProxyTable db) (p id bits : Int) (cs : ℕ → Choice) :
    ProxyContract p id bits (ProxyFails p id bits (cs 0) db) db
      (((dbProxy p id bits).run cs db).1, ((dbProxy p id bits).run cs db).2.1) ↔
    (cs 0).quiet 5 = false ∨
      ProxyQuiet p id bits (cs 0) db ∧ ((cs 0).commitFails ∨ db.HasPrncpl p ∧ db.HasPrncpl id) := by
  rw [dbProxy_eq, Prog.run_atom]
  exact proxyOutcome_contract_iff hdb p id bits (cs 0)

/-- The constraints hold after it whatever fails. -/
theorem dbProxy_table (p id bits : Int) : Prog.Ensures ProxyTable (dbProxy p id bits) fun _ => ProxyTable :=
  dbProxy_keeps (fun _ _ h hins => h.proxyInsert hins) fun _ h => h.proxyUpdate

/-- Two principals without proxies. -/
def Db.withEve : Db :=
  { Db.oneCalendar with
    principal := Db.oneCalendar.principal ++ [⟨ascii "eve", ascii "hash", ascii "eve@example.com", 2⟩]
    principalSeq := 2 }

theorem withEve_proxyTable : ProxyTable .withEve := ⟨.nil, by decide, by decide⟩

theorem dbProxy_contract_made : ProxyContract 1 2 2 (ProxyFails 1 2 2 .calm .withEve) .withEve
    (((dbProxy 1 2 2).run (fun _ => .calm) .withEve).1, ((dbProxy 1 2 2).run (fun _ => .calm) .withEve).2.1) :=
  (dbProxy_contract_iff withEve_proxyTable 1 2 2 fun _ => .calm).mpr
    (.inr ⟨Choice.quiet_calm _, .inr ⟨by decide +kernel, by decide +kernel⟩⟩)

/-- There is no principal 7, and `db_proxy` says that it made a row. -/
theorem dbProxy_contract_absent : (dbProxy 1 7 2).run (fun _ => .calm) .withEve = (1, .withEve, fun _ => .calm) ∧
    ¬Db.withEve.HasPrncpl 7 ∧ ¬ProxyMade 1 7 2 .withEve .withEve := by
  refine ⟨rfl, by decide, not_proxyMade (by decide)⟩

end Kcaldav
