import Mathlib.Data.List.Nodup
import Kcaldav.Store.Outcome

/-! # Replay protection

Any number of requests check, update, create and delete nonces in an arbitrary
interleaving of their database visits. What carries the proof is a fact about each
accepted count: its nonce is never drawn again and every row that still holds the
nonce has a greater count.
-/
namespace Kcaldav
open CString

/-- What a request does about nonces. -/
inductive NonceCall
  | validate (nonce : Bytes) (count : Int) (draws : List Bytes)
  | create (draws : List Bytes)
  | delete (nonce : Bytes)

namespace NonceCall

def draws : NonceCall → List Bytes
  | validate _ _ draws | create draws => draws
  | delete _ => []

/-- The nonce and the count a request asks to have accepted. -/
def claim : NonceCall → Option (Bytes × Int)
  | validate nonce count _ => some (nonce, count)
  | create _ | delete _ => none

def prog : NonceCall → DbProg Int
  | validate nonce count draws => nonceValidate nonce count draws
  | create draws => nonceRetry draws
  | delete nonce => do
    let _ ← dbNonceDelete nonce
    return 0

end NonceCall

/-- Where a request is: under way, ended without an acceptance, or accepted. -/
inductive NonceStage
  | running | over | accepted
  deriving DecidableEq

variable {ι : Type} (call : ι → NonceCall)

/-- What one action of a request does to the table. -/
inductive NonceMove : ι → NonceStage → Db → NonceStage → Db → Prop
  | look {i : ι} {db : Db} {l : NonceStage} : l ≠ .accepted → NonceMove i .running db l db
  | insert {i : ι} {db db' : Db} {e : Choice} {nonce : Bytes} : nonce ∈ (call i).draws →
      Sql.nonceInsert nonce (nonceRoom e db).2 = some db' → NonceMove i .running db .over db'
  | remove {i : ι} {db : Db} {l : NonceStage} (nonce : Bytes) : l ≠ .accepted →
      NonceMove i .running db l (Sql.nonceRemove nonce db)
  | accept {i : ι} {db : Db} {nonce : Bytes} {count : Int} : (call i).claim = some (nonce, count) →
      nonceCheck nonce count db = .ok →
      NonceMove i .running db .accepted (Sql.nonceUpdate (int64 (count + 1)) nonce db)

/-- The requests as a protocol, under surroundings in which no `COMMIT` fails. -/
def nonceProtocol : Protocol ι Choice Db Int NonceStage where
  allowed _ e := ¬e.commitFails
  move := NonceMove call
  ends _ l a := a = 1 ↔ l = .accepted

theorem nonceNew_cases (draws : List Bytes) {e : Choice} (he : ¬e.commitFails) (db : Db) :
    nonceNew draws e db = (none, db) ∨ ∃ nonce ∈ draws, ∃ db',
      Sql.nonceInsert nonce (nonceRoom e db).2 = some db' ∧ nonceNew draws e db = (some nonce, db') := by
  unfold nonceNew
  dsimp only
  split
  · rcases hdraw : drawNonce draws (e.skip ((nonceRoom e db).1 + 1)) (nonceRoom e db).2 with _ | ⟨nonce, db'⟩
    · exact Or.inl rfl
    · obtain ⟨hmem, hins⟩ := drawNonce_some hdraw
      refine Or.inr ⟨nonce, hmem, db', hins, ?_⟩
      dsimp only
      rw [committed, if_neg he]
  · exact Or.inl rfl

theorem nonceUpdate_cases (nonce : Bytes) (count : Int) {e : Choice} (he : ¬e.commitFails) (db : Db) :
    (nonceCheck nonce count db = .ok ∧
      nonceUpdate nonce count e db = (.ok, Sql.nonceUpdate (int64 (count + 1)) nonce db)) ∨
    ∃ er, er ≠ .ok ∧ nonceUpdate nonce count e db = (er, db) := by
  unfold nonceUpdate
  split
  · by_cases hok : nonceCheck nonce count db = .ok
    · rw [if_pos hok]
      split
      · refine Or.inl ⟨hok, ?_⟩
        rw [committed, if_neg he]
      · exact Or.inr ⟨.err, nofun, rfl⟩
    · rw [if_neg hok]
      exact Or.inr ⟨_, hok, rfl⟩
  · exact Or.inr ⟨.err, nofun, rfl⟩

theorem nonceRetry_follows {i : ι} {draws : List Bytes} (h : draws = (call i).draws) :
    (nonceProtocol call).Follows i .running (nonceRetry draws) := by
  rw [nonceRetry, dbNonceNew_eq, Prog.atom_bind]
  intro e db he
  rcases nonceNew_cases draws he db with hnone | ⟨nonce, hmem, db', hins, hsome⟩
  · rw [hnone]
    refine ⟨.over, .look nofun, ?_⟩
    exact ⟨fun h => absurd h (by decide), nofun⟩
  · rw [hsome]
    refine ⟨.over, .insert (h ▸ hmem) hins, ?_⟩
    exact ⟨fun h => absurd h (by decide), nofun⟩

theorem nonceValidate_follows {i : ι} {nonce : Bytes} {count : Int} {draws : List Bytes}
    (h : call i = .validate nonce count draws) :
    (nonceProtocol call).Follows i .running (nonceValidate nonce count draws) := by
  have hdraws : draws = (call i).draws := by rw [h]; rfl
  have hclaim : (call i).claim = some (nonce, count) := by rw [h]; rfl
  have hover : ∀ a : Int, a ≠ 1 → (nonceProtocol call).Follows i .over (.ret a) :=
    fun a ha => ⟨fun h => absurd h ha, nofun⟩
  rw [nonceValidate, routine_dbNonceValidate, dbNonceUpdate_eq, Prog.atom_bind]
  intro e db _
  have hsame : (query 3 NonceErr.err (fun _ => nonceCheck nonce count) e db).2 = db := by
    unfold query
    split <;> rfl
  rw [hsame]
  cases (query 3 NonceErr.err (fun _ => nonceCheck nonce count) e db).1 with
  | err => exact ⟨.over, .look nofun, hover (-2) (by decide)⟩
  | replay => exact ⟨.over, .look nofun, hover (-1) (by decide)⟩
  | notfound => exact ⟨.running, .look nofun, nonceRetry_follows call hdraws⟩
  | ok =>
    refine ⟨.running, .look nofun, ?_⟩
    intro e' db' he'
    rcases nonceUpdate_cases nonce count he' db' with ⟨hok, heq⟩ | ⟨er, hne, heq⟩
    · rw [heq]
      exact ⟨.accepted, .accept hclaim hok, fun _ => rfl, fun _ => rfl⟩
    · rw [heq]
      cases er with
      | err => exact ⟨.over, .look nofun, hover (-2) (by decide)⟩
      | replay => exact ⟨.over, .look nofun, hover (-1) (by decide)⟩
      | notfound => exact ⟨.running, .look nofun, nonceRetry_follows call hdraws⟩
      | ok => exact absurd rfl hne

theorem nonceCall_follows (i : ι) : (nonceProtocol call).Follows i .running (call i).prog := by
  cases h : call i with
  | validate nonce count draws => exact nonceValidate_follows call h
  | create draws => exact nonceRetry_follows call (by rw [h]; rfl)
  | delete nonce =>
    rw [NonceCall.prog, dbNonceDelete_eq, Prog.atom_bind]
    intro e db _
    unfold statement
    split
    · exact ⟨.over, .remove nonce nofun, fun h => absurd h (by decide), nofun⟩
    · exact ⟨.over, .look nofun, fun h => absurd h (by decide), nofun⟩

/-! ## The invariant -/

/-- No request still under way will draw the nonce. -/
def Spent (ls : ι → NonceStage) (nonce : Bytes) : Prop := ∀ i, ls i = .running → nonce ∉ (call i).draws

/-- The nonce is spent, and the counts of its rows have the property. -/
def Counted (P : Int → Prop) (nonce : Bytes) (db : Db) (ls : ι → NonceStage) : Prop :=
  Spent call ls nonce ∧ ∀ row ∈ db.nonce, row.nonce = nonce → P row.count

variable {call}

theorem mem_nonceRoom {e : Choice} {db : Db} {row : NonceRow} (h : row ∈ (nonceRoom e db).2.nonce) : row ∈ db.nonce := by
  unfold nonceRoom at h
  split at h
  · exact List.mem_of_mem_filter h
  · exact h

theorem mem_nonceInsert {nonce : Bytes} {db db' : Db} (h : Sql.nonceInsert nonce db = some db') {row : NonceRow}
    (hrow : row ∈ db'.nonce) : row ∈ db.nonce ∨ row.nonce = nonce := by
  unfold Sql.nonceInsert at h
  split at h
  · cases h
  · cases h
    rcases List.mem_append.mp hrow with hrow | hrow
    · exact Or.inl hrow
    · rw [List.mem_singleton.mp hrow]
      exact Or.inr rfl

theorem mem_nonceUpdate {count : Int} {nonce : Bytes} {db : Db} {row : NonceRow}
    (hrow : row ∈ (Sql.nonceUpdate count nonce db).nonce) :
    (row ∈ db.nonce ∧ row.nonce ≠ nonce) ∨ (row.nonce = nonce ∧ row.count = count) := by
  obtain ⟨row', hmem, rfl⟩ := List.mem_map.mp hrow
  by_cases hn : row'.nonce = nonce
  · rw [if_pos hn]
    exact Or.inr ⟨hn, rfl⟩
  · rw [if_neg hn]
    exact Or.inl ⟨hmem, hn⟩

/-- A nonce passes the check where a row holds it with a count that is not greater. -/
theorem nonceCheck_ok {nonce : Bytes} {count : Int} {db : Db} (h : nonceCheck nonce count db = .ok) :
    ∃ row ∈ db.nonce, row.nonce = nonce ∧ row.count ≤ count := by
  unfold nonceCheck Sql.nonceGetCount at h
  cases hfind : db.nonce.find? fun n => n.nonce = nonce with
  | none =>
    rw [hfind] at h
    cases h
  | some row =>
    rw [hfind] at h
    dsimp only [Option.map] at h
    split at h
    · cases h
    next hle => exact ⟨row, List.mem_of_find?_eq_some hfind, by simpa using List.find?_some hfind, by omega⟩

variable [DecidableEq ι] {db db' : Db} {ls : ι → NonceStage} {i : ι} {l' : NonceStage} {nonce : Bytes}

omit [DecidableEq ι] in
/-- Only a request under way moves. -/
theorem NonceMove.running {l : NonceStage} (h : NonceMove call i l db l' db') : l = .running := by
  cases h <;> rfl

omit [DecidableEq ι] in
/-- An acceptance has passed the check. -/
theorem NonceMove.checked {l : NonceStage} (h : NonceMove call i l db .accepted db') :
    ∃ nonce count, (call i).claim = some (nonce, count) ∧ nonceCheck nonce count db = .ok := by
  cases h with
  | look hl => exact absurd rfl hl
  | remove _ hl => exact absurd rfl hl
  | accept hclaim hok => exact ⟨_, _, hclaim, hok⟩

theorem Spent.move (h : Spent call ls nonce) (hm : NonceMove call i (ls i) db l' db') :
    Spent call (Function.update ls i l') nonce := by
  intro j hj
  by_cases hji : j = i
  · subst hji
    exact h j hm.running
  · rw [Function.update_of_ne hji] at hj
    exact h j hj

/-- What the assumptions say of the counts: a request's count is a 64-bit integer
that is not the greatest one. -/
def CountsFit (call : ι → NonceCall) : Prop :=
  ∀ i nonce count, (call i).claim = some (nonce, count) → -2 ^ 63 ≤ count ∧ count < 2 ^ 63 - 1

omit [DecidableEq ι] in
theorem CountsFit.int64_succ (hfit : CountsFit call) {count : Int} (h : (call i).claim = some (nonce, count)) :
    int64 (count + 1) = count + 1 := by
  obtain ⟨hlo, hhi⟩ := hfit i nonce count h
  unfold int64
  exact Int.bmod_eq_of_le (by omega) (by omega)

/-- A property that passes on to greater counts is kept by every action. -/
theorem Counted.move {P : Int → Prop} (hP : ∀ a b, a ≤ b → P a → P b) (hfit : CountsFit call)
    (h : Counted call P nonce db ls) (hm : NonceMove call i (ls i) db l' db') :
    Counted call P nonce db' (Function.update ls i l') := by
  refine ⟨h.1.move hm, fun row hrow hn => ?_⟩
  have hrunning := hm.running
  generalize ls i = l at hm
  cases hm with
  | look _ => exact h.2 row hrow hn
  | @insert _ _ _ drawn hdraw hins =>
    rcases mem_nonceInsert hins hrow with hold | hnew
    · exact h.2 row (mem_nonceRoom hold) hn
    · have hspent := h.1 i hrunning
      rw [← hn, hnew] at hspent
      exact absurd hdraw hspent
  | remove _ _ => exact h.2 row (List.mem_of_mem_filter hrow) hn
  | @accept _ nonce' count hclaim hok =>
    rcases mem_nonceUpdate hrow with ⟨hold, _⟩ | ⟨hsame, hcount⟩
    · exact h.2 row hold hn
    · obtain ⟨row', hmem, hn', hle⟩ := nonceCheck_ok hok
      rw [hcount, hfit.int64_succ hclaim]
      exact hP _ _ (by omega) (h.2 row' hmem (by rw [hn', ← hsame, hn]))

/-- The stored nonces are spent; the counts stored for an accepted nonce exceed the
accepted count; no two requests with one nonce and one count are accepted. -/
structure ReplayInv (call : ι → NonceCall) (db : Db) (ls : ι → NonceStage) : Prop where
  spent : ∀ row ∈ db.nonce, Spent call ls row.nonce
  counted : ∀ i nonce count, ls i = .accepted → (call i).claim = some (nonce, count) →
    Counted call (fun c => count < c) nonce db ls
  distinct : ∀ i j nonce count, ls i = .accepted → ls j = .accepted → (call i).claim = some (nonce, count) →
    (call j).claim = some (nonce, count) → i = j

omit [DecidableEq ι] in
/-- A request that passes the check has a greater count than every accepted one. -/
theorem ReplayInv.lt_of_ok (h : ReplayInv call db ls) {j : ι} {count count' : Int} (hj : ls j = .accepted)
    (hclaim : (call j).claim = some (nonce, count)) (hok : nonceCheck nonce count' db = .ok) : count < count' := by
  obtain ⟨row, hmem, hn, hle⟩ := nonceCheck_ok hok
  have hlt := (h.counted j nonce count hj hclaim).2 row hmem hn
  omega

theorem ReplayInv.move (hfit : CountsFit call)
    (hfresh : ∀ i j, i ≠ j → ∀ n ∈ (call i).draws, n ∉ (call j).draws)
    (h : ReplayInv call db ls) (hm : NonceMove call i (ls i) db l' db') :
    ReplayInv call db' (Function.update ls i l') := by
  have hup : ∀ c : Int, ∀ a b, a ≤ b → c < a → c < b := fun c a b hab hca => by omega
  have hbefore : ∀ j, j ≠ i → ∀ nonce count, Function.update ls i l' j = .accepted →
      (call j).claim = some (nonce, count) →
      Counted call (fun c => count < c) nonce db' (Function.update ls i l') := by
    intro j hji nonce count hj hclaim
    rw [Function.update_of_ne hji] at hj
    exact (h.counted j nonce count hj hclaim).move (hup count) hfit hm
  have hspent : ∀ row ∈ db.nonce, Spent call (Function.update ls i l') row.nonce :=
    fun row hrow => (h.spent row hrow).move hm
  -- an action that does not accept leaves the accepted requests as they are
  have hrest : l' ≠ .accepted → (∀ row ∈ db'.nonce, Spent call (Function.update ls i l') row.nonce) →
      ReplayInv call db' (Function.update ls i l') := by
    intro hl' hspent'
    have hne : ∀ j, Function.update ls i l' j = .accepted → j ≠ i := by
      intro j hj hji
      subst hji
      rw [Function.update_self] at hj
      exact hl' hj
    refine ⟨hspent', fun j nonce count hj hclaim => hbefore j (hne j hj) nonce count hj hclaim, ?_⟩
    intro j k nonce count hj hk hcj hck
    have hji := hne j hj
    have hki := hne k hk
    rw [Function.update_of_ne hji] at hj
    rw [Function.update_of_ne hki] at hk
    exact h.distinct j k nonce count hj hk hcj hck
  have hrunning := hm.running
  generalize hl : ls i = l at hm
  cases hm with
  | look hl' => exact hrest hl' hspent
  | @insert _ _ _ drawn hdraw hins =>
    refine hrest nofun fun row hrow => ?_
    rcases mem_nonceInsert hins hrow with hold | hnew
    · exact hspent row (mem_nonceRoom hold)
    · intro j hj
      have hji : i ≠ j := by
        intro hij
        subst hij
        rw [Function.update_self] at hj
        cases hj
      rw [hnew]
      exact hfresh i j hji drawn hdraw
  | remove nonce hl' => exact hrest hl' fun row hrow => hspent row (List.mem_of_mem_filter hrow)
  | @accept _ nonce' count hclaim hok =>
    obtain ⟨row', hmem', hn', _⟩ := nonceCheck_ok hok
    have hcounted : Counted call (fun c => count < c) nonce' (Sql.nonceUpdate (int64 (count + 1)) nonce' db)
        (Function.update ls i .accepted) := by
      refine ⟨hn' ▸ hspent row' hmem', fun row hrow hn => ?_⟩
      rcases mem_nonceUpdate hrow with ⟨_, hne⟩ | ⟨_, hcount⟩
      · exact absurd hn hne
      · rw [hcount, hfit.int64_succ hclaim]
        exact Int.lt_succ count
    have hnew : ∀ j nonce c, j ≠ i → Function.update ls i .accepted j = .accepted →
        (call j).claim = some (nonce, c) → (call i).claim = some (nonce, c) → False := by
      intro j nonce c hji hj hcj hci
      rw [Function.update_of_ne hji] at hj
      obtain ⟨rfl, rfl⟩ : nonce' = nonce ∧ count = c := by
        rw [hclaim] at hci
        exact Prod.mk.inj (Option.some.inj hci)
      exact absurd (h.lt_of_ok hj hcj hok) (Int.lt_irrefl count)
    refine ⟨fun row hrow => ?_, fun j nonce c hj hcj => ?_, fun j k nonce c hj hk hcj hck => ?_⟩
    · rcases mem_nonceUpdate hrow with ⟨hold, _⟩ | ⟨hsame, _⟩
      · exact hspent row hold
      · rw [hsame]
        exact hcounted.1
    · by_cases hji : j = i
      · subst hji
        rw [hclaim] at hcj
        cases hcj
        exact hcounted
      · exact hbefore j hji nonce c hj hcj
    · by_cases hji : j = i
      · by_cases hki : k = i
        · rw [hji, hki]
        · subst hji
          exact (hnew k nonce c hki hk hck hcj).elim
      · by_cases hki : k = i
        · subst hki
          exact (hnew j nonce c hji hj hcj hck).elim
        · rw [Function.update_of_ne hji] at hj
          rw [Function.update_of_ne hki] at hk
          exact h.distinct j k nonce c hj hk hcj hck

/-! ## Runs -/

/-- The requests at work on a database. -/
def nonceSys (call : ι → NonceCall) (db : Db) : Sys ι Choice Db Int := ⟨db, fun i => (call i).prog⟩

/-- The nonces and counts accepted under a schedule, in the order of the commits. -/
def acceptances (call : ι → NonceCall) (S : Sys ι Choice Db Int) (sched : List (ι × Choice)) : List (Bytes × Int) :=
  (S.endings (fun a => a = 1) sched).filterMap fun i => (call i).claim

section Runs
variable {S : Sys ι Choice Db Int} {sched : List (ι × Choice)}

/-- The invariant holds after every schedule. -/
theorem ReplayInv.exec (hfit : CountsFit call) (hfresh : ∀ i j, i ≠ j → ∀ n ∈ (call i).draws, n ∉ (call j).draws)
    (hsched : ∀ x ∈ sched, ¬x.2.commitFails) (ht : (nonceProtocol call).Tracked ls S)
    (h : ReplayInv call S.shared ls) :
    ∃ ls', (nonceProtocol call).Tracked ls' (S.exec sched) ∧ ReplayInv call (S.exec sched).shared ls' :=
  Protocol.Tracked.exec (fun _ _ _ _ _ hinv hm => hinv.move hfit hfresh hm) sched hsched ht h

omit [DecidableEq ι] in
theorem ends_accepted {i : ι} {l : NonceStage} {a : Int} (h : (nonceProtocol call).ends i l a)
    (ha : decide (a = 1) = true) : l = .accepted := h.mp (of_decide_eq_true ha)

/-- Counts are accepted in increasing order. -/
theorem ReplayInv.increasing (hfit : CountsFit call)
    (hfresh : ∀ i j, i ≠ j → ∀ n ∈ (call i).draws, n ∉ (call j).draws)
    (hsched : ∀ x ∈ sched, ¬x.2.commitFails) (ht : (nonceProtocol call).Tracked ls S)
    (h : ReplayInv call S.shared ls) :
    (acceptances call S sched).Pairwise fun a b => a.1 = b.1 → a.2 < b.2 := by
  have hpair : (S.endings (fun a => a = 1) sched).Pairwise fun i j => ∀ a b,
      (call i).claim = some a → (call j).claim = some b → a.1 = b.1 → a.2 < b.2 := by
    refine (Protocol.Tracked.endings (fun l => l = .accepted)
      (fun _ _ _ _ _ hinv hm => hinv.move hfit hfresh hm) ?_ ?_ sched hsched ht h).1
    · intro i l s l' s' hm hl
      rw [hm.running] at hl
      cases hl
    · intro s ls i l' s' a hinv hm hends ha
      obtain rfl := ends_accepted hends ha
      obtain ⟨nonce, count, hclaim, hok⟩ := hm.checked
      refine ⟨rfl, fun j hj a b hcj hci hab => ?_⟩
      rw [hclaim] at hci
      obtain rfl := Option.some.inj hci
      exact hinv.lt_of_ok hj (hcj.trans (congrArg some (Prod.ext hab rfl))) hok
  exact hpair.filterMap _ fun i j hij a ha b hb => hij a b ha hb

/-- A spent nonce that no row holds is not accepted again. -/
theorem Counted.not_accepted (hfit : CountsFit call) (hsched : ∀ x ∈ sched, ¬x.2.commitFails)
    (ht : (nonceProtocol call).Tracked ls S) (h : Counted call (fun _ => False) nonce S.shared ls) :
    ∀ a ∈ acceptances call S sched, a.1 ≠ nonce := by
  have hmove : ∀ s ls i l' s', Counted call (fun _ => False) nonce s ls → NonceMove call i (ls i) s l' s' →
      Counted call (fun _ => False) nonce s' (Function.update ls i l') :=
    fun _ _ _ _ _ hinv hm => hinv.move (fun _ _ _ hfalse => hfalse) hfit hm
  have hnever : ∀ i ∈ S.endings (fun a => a = 1) sched, ∀ a, (call i).claim = some a → a.1 ≠ nonce := by
    intro i hi
    refine (Protocol.Tracked.endings (fun _ => True) (R := fun _ i => ∀ a, (call i).claim = some a → a.1 ≠ nonce)
      hmove (fun _ _ _ _ _ _ _ => trivial) ?_ sched hsched ht h).2 i trivial i hi
    intro s ls i l' s' a hinv hm hends ha
    obtain rfl := ends_accepted hends ha
    obtain ⟨nonce', count, hclaim, hok⟩ := hm.checked
    obtain ⟨row, hmem, hn, _⟩ := nonceCheck_ok hok
    refine ⟨trivial, fun _ _ b hb hsame => ?_⟩
    rw [hclaim] at hb
    obtain rfl := Option.some.inj hb
    exact hinv.2 row hmem (hn.trans hsame)
  intro a ha
  obtain ⟨i, hi, hclaim⟩ := List.mem_filterMap.mp ha
  exact hnever i hi a hclaim

end Runs

/-- Under every interleaving of requests on a database: no two requests with one nonce
and one count are accepted, the counts accepted for a nonce increase, and a nonce that
was there and is gone is not accepted again. -/
theorem nonce_replay_safe (call : ι → NonceCall) (db : Db) (sched : List (ι × Choice))
    (hcommit : ∀ x ∈ sched, ¬x.2.commitFails)
    (hfresh : ∀ i j, i ≠ j → ∀ n ∈ (call i).draws, n ∉ (call j).draws)
    (hnew : ∀ i, ∀ n ∈ (call i).draws, ∀ row ∈ db.nonce, row.nonce ≠ n) (hfit : CountsFit call) :
    (∀ i j nonce count, (call i).claim = some (nonce, count) → (call j).claim = some (nonce, count) →
      ((nonceSys call db).exec sched).proc i = .ret 1 → ((nonceSys call db).exec sched).proc j = .ret 1 → i = j) ∧
    ((acceptances call (nonceSys call db) sched).Pairwise fun a b => a.1 = b.1 → a.2 < b.2) ∧
    ∀ before between after nonce, sched = before ++ between ++ after →
      (∃ row ∈ ((nonceSys call db).exec before).shared.nonce, row.nonce = nonce) →
      (∀ row ∈ ((nonceSys call db).exec (before ++ between)).shared.nonce, row.nonce ≠ nonce) →
      ∀ a ∈ acceptances call ((nonceSys call db).exec (before ++ between)) after, a.1 ≠ nonce := by
  have hstart : (nonceProtocol call).Tracked (fun _ => .running) (nonceSys call db) := nonceCall_follows call
  have hinv : ReplayInv call (nonceSys call db).shared fun _ => .running :=
    ⟨fun row hrow i _ hdraw => hnew i row.nonce hdraw row hrow rfl, nofun, nofun⟩
  refine ⟨?_, hinv.increasing hfit hfresh hcommit hstart, ?_⟩
  · intro i j nonce count hci hcj hi hj
    obtain ⟨ls', htracked, hinv'⟩ := ReplayInv.exec hfit hfresh hcommit hstart hinv
    have haccepted : ∀ k, ((nonceSys call db).exec sched).proc k = .ret 1 → ls' k = .accepted := by
      intro k hk
      have hends := htracked k
      rw [hk] at hends
      exact hends.mp rfl
    exact hinv'.distinct i j nonce count (haccepted i hi) (haccepted j hj) hci hcj
  · rintro before between after nonce rfl ⟨row, hrow, hn⟩ hgone
    have hbefore : ∀ x ∈ before, ¬x.2.commitFails := fun x hx => hcommit x (by simp [hx])
    have hbetween : ∀ x ∈ between, ¬x.2.commitFails := fun x hx => hcommit x (by simp [hx])
    have hafter : ∀ x ∈ after, ¬x.2.commitFails := fun x hx => hcommit x (by simp [hx])
    obtain ⟨ls₁, ht₁, hinv₁⟩ := ReplayInv.exec hfit hfresh hbefore hstart hinv
    have hspent : Spent call ls₁ nonce := hn ▸ hinv₁.spent row hrow
    have hmove : ∀ s ls i l' s', (fun _ ls => Spent call ls nonce) s ls → NonceMove call i (ls i) s l' s' →
        (fun (_ : Db) ls => Spent call ls nonce) s' (Function.update ls i l') := fun _ _ _ _ _ h hm => h.move hm
    obtain ⟨ls₂, ht₂, hspent₂⟩ := Protocol.Tracked.exec hmove between hbetween ht₁ hspent
    rw [Sys.exec_append] at hgone ⊢
    exact Counted.not_accepted hfit hafter ht₂ ⟨hspent₂, hgone⟩

/-- Two requests with the same nonce and count. -/
def racing (second : Bool) : NonceCall := .validate (ascii "A1") 1 [if second then ascii "B2" else ascii "C3"]

/-- Of two requests that both pass the first check, one is accepted. -/
theorem nonce_replay_safe_racing :
    acceptances racing (nonceSys racing { Db.empty with nonce := [⟨ascii "A1", 0, 1⟩] })
      [(false, .calm), (true, .calm), (true, .calm), (false, .calm)] = [(ascii "A1", 1)] ∧
    (acceptances racing (nonceSys racing { Db.empty with nonce := [⟨ascii "A1", 0, 1⟩] })
      [(false, .calm), (true, .calm), (true, .calm), (false, .calm)]).Pairwise fun a b => a.1 = b.1 → a.2 < b.2 := by
  refine ⟨by decide +kernel, (nonce_replay_safe racing _ _ ?_ ?_ ?_ ?_).2.1⟩
  · simp [Choice.calm]
  · decide +kernel
  · decide +kernel
  · intro i nonce count h
    obtain ⟨rfl, rfl⟩ : ascii "A1" = nonce ∧ 1 = count := Prod.mk.inj (Option.some.inj h)
    decide

end Kcaldav
