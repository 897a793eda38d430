import Kcaldav.Library.Trace
import Kcaldav.Server.Confinement
import Kcaldav.Server.Precondition
import Kcaldav.Store.Meaning
import Kcaldav.Store.Proxy

/-! # Routines and events

Every routine of `db.c` is at most one event of the space of calendars, whatever fails on
its way and whatever other programs do between its actions. Identifiers that have been
loaded stay good: that of an account for ever, and that of a collection names the same
calendar as long as there is a collection with it.
-/
namespace Kcaldav
open CString

/-- What no action does: it gives no name or identifier a new meaning. -/
structure Evolves (db db' : Db) : Prop where
  integral : Integral db → Integral db'
  principal : ∀ p ∈ db.principal, ∃ p' ∈ db'.principal, p'.id = p.id ∧ p'.name = p.name
  collectionSeq : db.collectionSeq ≤ db'.collectionSeq
  collection : ∀ c ∈ db'.collection, c.id ≤ db.collectionSeq →
    ∃ c₀ ∈ db.collection, c₀.id = c.id ∧ c₀.principal = c.principal ∧ c₀.url = c.url

namespace Evolves
variable {db db' db'' : Db}

theorem trans (h : Evolves db db') (h' : Evolves db' db'') : Evolves db db'' where
  integral hi := h'.integral (h.integral hi)
  principal p hp := by
    obtain ⟨p', hp', hid, hname⟩ := h.principal p hp
    obtain ⟨p'', hp'', hid', hname'⟩ := h'.principal p' hp'
    exact ⟨p'', hp'', hid'.trans hid, hname'.trans hname⟩
  collectionSeq := h.collectionSeq.trans h'.collectionSeq
  collection c hc hle := by
    obtain ⟨c', hc', hid, hp, hurl⟩ := h'.collection c hc (hle.trans h.collectionSeq)
    obtain ⟨c₀, hc₀, hid₀, hp₀, hurl₀⟩ := h.collection c' hc' (hid ▸ hle)
    exact ⟨c₀, hc₀, hid₀.trans hid, hp₀.trans hp, hurl₀.trans hurl⟩

/-- Neither principals nor collections change. -/
theorem of_same (hi : Integral db → Integral db') (hp : db'.principal = db.principal) (hc : db'.collection = db.collection)
    (hseq : db'.collectionSeq = db.collectionSeq) : Evolves db db' where
  integral := hi
  principal p h := ⟨p, hp ▸ h, rfl, rfl⟩
  collectionSeq := hseq ▸ le_rfl
  collection c h _ := ⟨c, hc ▸ h, rfl, rfl, rfl⟩

theorem refl (db : Db) : Evolves db db := of_same id rfl rfl rfl

/-- Collections change in what nothing goes by. -/
theorem of_map {g : ColRow → ColRow} (hid : ∀ c, (g c).id = c.id) (hp : ∀ c, (g c).principal = c.principal)
    (hurl : ∀ c, (g c).url = c.url) : Evolves db { db with collection := db.collection.map g } where
  integral hi := hi.colMap hid hp hurl
  principal p h := ⟨p, h, rfl, rfl⟩
  collectionSeq := le_rfl
  collection c h _ := by
    obtain ⟨c₀, hc₀, rfl⟩ := List.mem_map.mp h
    exact ⟨c₀, hc₀, (hid c₀).symm, (hp c₀).symm, (hurl c₀).symm⟩

theorem ctag (id : Int) (db : Db) : Evolves db (Sql.colUpdateCtag id db) := by
  apply of_map
  all_goals
    intro c
    split <;> rfl

theorem colUpdate {displayname colour description : Option Bytes} {id : Int}
    (hupd : Sql.colUpdate displayname colour description id db = some db') : Evolves db db' := by
  unfold Sql.colUpdate at hupd
  split at hupd
  · cases hupd
    apply of_map
    all_goals
      intro c
      split <;> rfl
  · split at hupd
    · cases hupd
    · cases hupd
      exact refl db

theorem colRemove (id : Int) (db : Db) : Evolves db (Sql.colRemove id db) where
  integral hi := hi.colRemove id
  principal p h := ⟨p, h, rfl, rfl⟩
  collectionSeq := le_rfl
  collection c h _ := ⟨c, List.mem_of_mem_filter h, rfl, rfl, rfl⟩

theorem colInsert {p : Int} {url : Bytes} (hins : Sql.colInsert p url db = some db') : Evolves db db' where
  integral hi := hi.colInsert hins
  principal p h := by
    unfold Sql.colInsert at hins
    split at hins
    · cases hins
    · cases hins
      exact ⟨p, h, rfl, rfl⟩
  collectionSeq := by
    unfold Sql.colInsert at hins
    split at hins
    · cases hins
    · cases hins
      exact Int.le.intro 1 rfl
  collection c h hle := by
    unfold Sql.colInsert at hins
    split at hins
    · cases hins
    · cases hins
      rcases List.mem_append.mp h with h | h
      · exact ⟨c, h, rfl, rfl, rfl⟩
      · obtain rfl := List.mem_singleton.mp h
        exact absurd hle (Int.not_le.mpr (Int.lt_succ db.collectionSeq))

theorem resInsert {data url etag : Bytes} {cid : Int} (hins : Sql.resInsert data url cid etag db = some db') : Evolves db db' := by
  have hi : Integral db → Integral db' := fun h => h.resInsert hins
  unfold Sql.resInsert at hins
  split at hins
  · cases hins
  · cases hins
    exact of_same hi rfl rfl rfl

theorem prncplInsert {name hash email : Bytes} (hins : Sql.prncplInsert name hash email db = some db') : Evolves db db' where
  integral hi := hi.prncplInsert hins
  principal p h := by
    obtain ⟨-, rfl⟩ := prncplInsert_free hins
    exact ⟨p, List.mem_append_left _ h, rfl, rfl⟩
  collectionSeq := by
    obtain ⟨-, rfl⟩ := prncplInsert_free hins
    exact le_rfl
  collection c h _ := by
    obtain ⟨-, rfl⟩ := prncplInsert_free hins
    exact ⟨c, h, rfl, rfl, rfl⟩

theorem prncplUpdate {hash email : Bytes} {id : Int} (hupd : Sql.prncplUpdate hash email id db = some db') : Evolves db db' := by
  have hi : Integral db → Integral db' := fun h => h.prncplUpdate hupd
  unfold Sql.prncplUpdate at hupd
  split at hupd
  · cases hupd
  · cases hupd
    refine ⟨hi, fun p hp => ⟨_, List.mem_map_of_mem hp, ?_, ?_⟩, le_rfl, fun c hc _ => ⟨c, hc, rfl, rfl, rfl⟩⟩
    all_goals split <;> rfl

end Evolves

/-- An action that evolves the store and is, or is not, an event. -/
def Moves (w : Option SpaceEvent) (db db' : Db) : Prop :=
  Evolves db db' ∧ w.elim (db'.space = db.space) fun w => Space.Step w db.space db'.space

namespace Moves
variable {db db' db'' : Db} {w : Option SpaceEvent}

theorem refl (db : Db) : Moves none db db := ⟨.refl db, rfl⟩

/-- What follows an event and is none itself. -/
theorem then_silent (h : Moves w db db') (h' : Moves none db' db'') : Moves w db db'' := by
  refine ⟨h.1.trans h'.1, ?_⟩
  have heq : db''.space = db'.space := h'.2
  cases w with
  | none => exact heq.trans h.2
  | some w =>
    change Space.Step w db.space db''.space
    rw [heq]
    exact h.2

theorem ctag (id : Int) (db : Db) : Moves none db (Sql.colUpdateCtag id db) := ⟨.ctag id db, space_ctag id db⟩

end Moves

/-- The discipline of all programs on the store. Where it is firm no `COMMIT` fails.
Identifiers of principals are given to the queries as an `int`. -/
def spaceDiscipline (firm : Prop) : Discipline Choice Db SpaceEvent where
  allowed e := firm → e.commitFails = false
  assume db := db.principalSeq < 2 ^ 31
  inv := Integral
  step := Moves
  step_refl := Moves.refl
  inv_step hi h := h.1.integral hi

/-! ## Identifiers that stay good -/

section Facts
variable {firm : Prop} {db : Db} {name : Bytes} {pid : Int} {cal : CalName} {cid : Int}

/-- The identifier is that of the account. -/
def IsPrncpl (name : Bytes) (pid : Int) (db : Db) : Prop := ∃ p ∈ db.principal, p.id = pid ∧ p.name = name

/-- The identifier has been given to the calendar, and to no other. -/
def IsCol (cal : CalName) (cid : Int) (db : Db) : Prop :=
  cid ≤ db.collectionSeq ∧ ∃ pid, IsPrncpl cal.1 pid db ∧ ∀ c ∈ db.collection, c.id = cid → c.principal = pid ∧ c.url = cal.2

theorem isPrncpl_stable (name : Bytes) (pid : Int) : (spaceDiscipline firm).Stable (IsPrncpl name pid) := by
  rintro w db db' hi ⟨hev, -⟩ ⟨p, hp, hid, hname⟩
  obtain ⟨p', hp', hid', hname'⟩ := hev.principal p hp
  exact ⟨p', hp', hid'.trans hid, hname'.trans hname⟩

theorem isCol_stable (cal : CalName) (cid : Int) : (spaceDiscipline firm).Stable (IsCol cal cid) := by
  rintro w db db' hi hmove ⟨hle, pid, hpid, hrows⟩
  refine ⟨hle.trans hmove.1.collectionSeq, pid, @isPrncpl_stable firm _ _ w db db' hi hmove hpid, ?_⟩
  intro c hc hid
  obtain ⟨c₀, hc₀, hid₀, hp₀, hurl₀⟩ := hmove.1.collection c hc (hid ▸ hle)
  rw [← hp₀, ← hurl₀]
  exact hrows c₀ hc₀ (hid₀.trans hid)

theorem IsPrncpl.prncplId (h : IsPrncpl name pid db) (hi : Integral db) : db.prncplId name = some pid := hi.prncplId_iff.mpr h

/-- The collection is the calendar, or it is gone. -/
theorem IsCol.cases (h : IsCol cal cid db) (hi : Integral db) : db.colId cal = some cid ∨ ∀ c ∈ db.collection, c.id ≠ cid := by
  obtain ⟨-, pid, hpid, hrows⟩ := h
  by_cases hex : ∃ c ∈ db.collection, c.id = cid
  · obtain ⟨c, hc, hid⟩ := hex
    obtain ⟨hp, hurl⟩ := hrows c hc hid
    exact Or.inl (hi.colId_iff.mpr ⟨c, hc, hid, hurl, hp ▸ hpid.prncplId hi⟩)
  · push Not at hex
    exact Or.inr hex

/-- A row is that of its calendar for as long as it is there. -/
theorem isCol_of_mem (hi : Integral db) {c : ColRow} (hc : c ∈ db.collection) (hp : IsPrncpl name c.principal db) :
    IsCol (name, c.url) c.id db := by
  refine ⟨hi.colId.le c hc, c.principal, hp, fun c' hc' hid => ?_⟩
  rw [hi.colId.key c' hc' c hc hid]
  exact ⟨rfl, rfl⟩

/-- What a query is asked for is what it looks for. -/
theorem int32_of_principal (hi : Integral db) (ha : db.principalSeq < 2 ^ 31) {p : PrncplRow} (hp : p ∈ db.principal) :
    int32 p.id = p.id := by
  have hpos := hi.prncplId.pos p hp
  have hle := hi.prncplId.le p hp
  unfold int32
  rw [Int.bmod_def]
  omega

end Facts

/-! ## Nonces -/

section Nonces
variable {db : Db} {nonce : Bytes}

theorem nonceRemove_moves (hi : Integral db) (nonce : Bytes) : Moves (some (.logout nonce)) db (Sql.nonceRemove nonce db) :=
  ⟨.of_same (fun hi => hi.nonceFilter _) rfl rfl rfl, space_nonceRemove hi nonce⟩

/-- A count is accepted and entered, or nothing happens. -/
theorem nonceUpdate_moves (hi : Integral db) (nonce : Bytes) (count : Int) (e : Choice) :
    (Moves none db (nonceUpdate nonce count e db).2 ∧ ((nonceUpdate nonce count e db).1 = .ok → e.commitFails)) ∨
      ((nonceUpdate nonce count e db).1 = .ok ∧ Moves (some (.accept nonce count)) db (nonceUpdate nonce count e db).2) := by
  have hidle {er : NonceErr} (her : er ≠ .ok) : Moves none db db ∧ (er = .ok → e.commitFails) := ⟨.refl db, fun h => absurd h her⟩
  unfold nonceUpdate
  split
  · split
    next hok =>
      split
      · unfold committed
        cases hfails : e.commitFails with
        | true => exact Or.inl ⟨.refl db, fun _ => rfl⟩
        | false =>
          obtain ⟨next, hget, hle⟩ : ∃ next, Sql.nonceGetCount nonce db = some next ∧ next ≤ count := by
            unfold nonceCheck at hok
            split at hok
            next next hget => exact ⟨next, hget, by simpa using hok⟩
            next => cases hok
          exact Or.inr ⟨rfl, .of_same (fun hi => hi.nonceUpdate _ _) rfl rfl rfl, space_nonceUpdate hi hget hle⟩
      · exact Or.inl (hidle nofun)
    next hnot => exact Or.inl (hidle hnot)
  · exact Or.inl (hidle nofun)

theorem nonceRoom_filter (e : Choice) (db : Db) :
    ∃ keep : NonceRow → Bool, (nonceRoom e db).2 = { db with nonce := db.nonce.filter keep } := by
  unfold nonceRoom
  split
  · exact ⟨_, rfl⟩
  · exact ⟨fun _ => true, by rw [List.filter_true]⟩

/-- A nonce is made that has been drawn, or nothing happens. -/
theorem nonceNew_moves (hi : Integral db) (draws : List Bytes) (e : Choice) : Moves none db (nonceNew draws e db).2 ∨
    ∃ n ∈ draws, ∃ culled, Moves (some (.challenge n culled)) db (nonceNew draws e db).2 := by
  unfold nonceNew
  dsimp only
  split
  · split
    next => exact Or.inl (.refl db)
    next nonce db' hdraw =>
      obtain ⟨hmem, hins⟩ := drawNonce_some hdraw
      unfold committed
      cases e.commitFails with
      | true => exact Or.inl (.refl db)
      | false =>
        obtain ⟨keep, hroom⟩ := nonceRoom_filter e db
        rw [hroom] at hins
        refine Or.inr ⟨nonce, hmem, _, ?_, space_nonceInsert hi keep hins⟩
        have hintegral : Integral db → Integral db' := fun h => (h.nonceFilter keep).nonceInsert hins
        unfold Sql.nonceInsert at hins
        split at hins
        · cases hins
        · cases hins
          exact .of_same hintegral rfl rfl rfl
  · exact Or.inl (.refl db)

end Nonces

/-! ## Actions that are no events -/

theorem dbPrncplIdentify_eq (email : Bytes) :
    dbPrncplIdentify email = Prog.atom (query 3 (-1) fun _ db => (Sql.prncplGetId email db).getD 0) := by
  refine congrArg Prog.atom ?_
  funext e db
  rw [statementQuery_bind, query]
  cases e.quiet 3 with
  | false =>
    change (-1, (Session.stuck 3 ⟨db, db, e⟩).db) = _
    rw [stuck_db]
    rfl
  | true => cases Sql.prncplGetId email db <;> rfl

def Res.entry (r : Res) : Entry := ⟨r.etag, r.data⟩

/-! ## Statements and queries -/

section Routines
variable {firm : Prop} {α β : Type} {ok : List SpaceEvent → Prop} {tr : List SpaceEvent} {P : Db → Prop}
  {Q : List SpaceEvent → (Db → Prop) → α → Prop}

theorem statement_traces {n : Nat} {err refused done : α} {f : Db → Option Db} (hok : ok tr) (hP : (spaceDiscipline firm).Stable P)
    (herr : Q tr P err) (hrefused : Q tr P refused)
    (hdone : ∀ db db', Integral db → P db → f db = some db' →
      (Moves none db db' ∧ Q tr P done) ∨ ∃ w, Moves (some w) db db' ∧ ok (tr ++ [w]) ∧ Q (tr ++ [w]) P done) :
    (spaceDiscipline firm).Traces ok tr P (.atom (statement n err refused done f)) Q := by
  refine .visible hok hP fun e db he ha hi hp => ?_
  rcases statement_cases n err refused done f e db with h | ⟨-, h⟩ | ⟨db', hf, h⟩
  · rw [h]
    exact Or.inl ⟨.refl db, herr⟩
  · rw [h]
    exact Or.inl ⟨.refl db, hrefused⟩
  · rw [h]
    exact hdone db db' hi hp hf

/-- A query changes nothing; what its result says stays true. -/
theorem query_traces {n : Nat} {err : α} {f : Choice → Db → α} (hok : ok tr) (hP : (spaceDiscipline firm).Stable P)
    {F : α → Db → Prop} (hF : ∀ a, (spaceDiscipline firm).Stable (F a)) (herr : ∀ db, F err db)
    (hfound : ∀ e db, Integral db → P db → F (f e db) db) :
    (spaceDiscipline firm).Traces ok tr P (.atom (query n err f)) fun tr' P' a => tr' = tr ∧ P' = fun db => P db ∧ F a db := by
  refine .silent hok hP hF (fun e db he ha hi hp => ?_) fun a => ⟨rfl, rfl⟩
  unfold query
  split
  · exact ⟨.refl db, hfound e db hi hp⟩
  · exact ⟨.refl db, herr db⟩

theorem ctag_traces (hok : ok tr) (hP : (spaceDiscipline firm).Stable P) (cid : Int) (hQ : ∀ b, Q tr P b) {a b c : α} :
    (spaceDiscipline firm).Traces ok tr P (.atom (statement 3 a b c fun db => some (Sql.colUpdateCtag cid db))) Q := by
  refine statement_traces hok hP (hQ a) (hQ b) fun db db' hi hp hdb => ?_
  cases hdb
  exact Or.inl ⟨.ctag cid db, hQ c⟩

/-- What a routine leaves of its event: nothing where it has failed in the given sense. -/
def Left (tr : List SpaceEvent) (w : SpaceEvent) (P : Db → Prop) (failed : Prop) (tr' : List SpaceEvent) (P' : Db → Prop) : Prop :=
  P' = P ∧ ((tr' = tr ∧ failed) ∨ tr' = tr ++ [w])

theorem Left.nothing {w : SpaceEvent} {failed : Prop} (h : failed) : Left tr w P failed tr P := ⟨rfl, Or.inl ⟨rfl, h⟩⟩

theorem Left.event {w : SpaceEvent} {failed : Prop} : Left tr w P failed (tr ++ [w]) P := ⟨rfl, Or.inr rfl⟩

variable (hok : ok tr) (hP : (spaceDiscipline firm).Stable P)
include hok hP

/-! ## Resources -/

section Resources
variable {cal : CalName} {cid : Int} (hcol : ∀ db, P db → IsCol cal cid db)
include hcol

theorem dbResourceNew_traces {data url etag : Bytes} (hw : ok (tr ++ [.create cal url ⟨etag, cstr data⟩])) :
    (spaceDiscipline firm).Traces ok tr P (dbResourceNew data url cid etag)
      fun tr' P' rc => Left tr (.create cal url ⟨etag, cstr data⟩) P (rc ≤ 0) tr' P' := by
  rw [dbResourceNew_eq]
  refine .bind (Q := fun tr' P' rc => Left tr (.create cal url ⟨etag, cstr data⟩) P (rc ≤ 0) tr' P') hok hP ?_ ?_
  · refine statement_traces hok hP (.nothing (by decide)) (.nothing le_rfl) fun db db' hi hp hins => ?_
    rcases (hcol db hp).cases hi with hcal | hgone
    · exact Or.inr ⟨_, ⟨.resInsert hins, space_resInsert hi hcal hins⟩, hw, .event⟩
    · rw [(resInsert_eq_none (cstr data) etag).mpr (Or.inr hgone)] at hins
      cases hins
  · rintro tr' P' rc hok' hP' ⟨rfl, hcases⟩
    refine .ite (fun hrc => ?_) fun hrc => .ret ⟨rfl, hcases.imp_left fun h => ⟨h.1, not_lt.mp hrc⟩⟩
    have hevent : tr' = tr ++ [.create cal url ⟨etag, cstr data⟩] := by
      rcases hcases with ⟨-, hle⟩ | h
      · exact absurd hrc (not_lt.mpr hle)
      · exact h
    refine .bind hok' hP' (ctag_traces (Q := fun tr'' P'' _ => tr'' = tr' ∧ P'' = P') hok' hP' cid fun _ => ⟨rfl, rfl⟩) ?_
    rintro tr'' P'' done - - ⟨rfl, rfl⟩
    cases done <;> exact .ret ⟨rfl, Or.inr hevent⟩

/-- A statement on the resources and the statement for the ctag. -/
theorem change_traces {n : Nat} {w : SpaceEvent} (hw : ok (tr ++ [w])) {f : Db → Option Db}
    (hdone : ∀ db db', Integral db → P db → f db = some db' → Moves none db db' ∨ Moves (some w) db db') :
    (spaceDiscipline firm).Traces ok tr P (do
      let done ← Prog.atom (statement n false false true f)
      if done then Prog.atom (statement 3 false false true fun db => some (Sql.colUpdateCtag cid db)) else return false)
      fun tr' P' _ => Left tr w P True tr' P' := by
  refine .bind (Q := fun tr' P' _ => Left tr w P True tr' P') hok hP ?_ ?_
  · refine statement_traces hok hP (.nothing trivial) (.nothing trivial) fun db db' hi hp hf => ?_
    rcases hdone db db' hi hp hf with hm | hm
    · exact Or.inl ⟨hm, .nothing trivial⟩
    · exact Or.inr ⟨w, hm, hw, .event⟩
  · rintro tr' P' done hok' hP' ⟨rfl, hcases⟩
    exact .ite (fun _ => ctag_traces hok' hP' cid fun _ => ⟨rfl, hcases⟩) fun _ => .ret ⟨rfl, hcases⟩

theorem dbResourceRemove_traces {url : Bytes} (hw : ok (tr ++ [.remove cal url])) :
    (spaceDiscipline firm).Traces ok tr P (dbResourceRemove url cid) fun tr' P' _ => Left tr (.remove cal url) P True tr' P' := by
  rw [dbResourceRemove_eq]
  refine change_traces hok hP hcol hw fun db db' hi hp hdb => ?_
  cases hdb
  rcases (hcol db hp).cases hi with hcal | hgone
  · exact Or.inr ⟨.of_same (fun hi => hi.resFilter _) rfl rfl rfl, space_resRemove hi hcal url⟩
  · have hsame : Sql.resRemove url cid db = db := resFilter_absent hi hgone fun r hr => (not_not.mp (of_decide_eq_false hr)).2
    rw [hsame]
    exact Or.inl (.refl db)

theorem dbCollectionUpdate_traces {c : Coln} (hid : c.id = cid)
    (hw : ∀ d : Display, c.displayname = some d.displayname → c.colour = some d.colour → c.description = some d.description →
      ok (tr ++ [.display cal d])) :
    (spaceDiscipline firm).Traces ok tr P (dbCollectionUpdate c) fun _ P' _ => P' = P := by
  subst hid
  rw [dbCollectionUpdate_eq]
  refine .bind (Q := fun _ P' _ => P' = P) hok hP ?_ ?_
  · refine statement_traces hok hP rfl rfl fun db db' hi hp hupd => ?_
    rcases (hcol db hp).cases hi with hcal | hgone
    · obtain ⟨d, hn, hc, hd, hstep⟩ := space_colUpdate hi hcal hupd
      exact Or.inr ⟨.display cal d, ⟨.colUpdate hupd, hstep⟩, hw d hn hc hd, rfl⟩
    · rw [colUpdate_absent hgone hupd]
      exact Or.inl ⟨.refl db, rfl⟩
  · rintro tr' P' done hok' hP' rfl
    exact .ite (fun _ => ctag_traces hok' hP' c.id fun _ => rfl) fun _ => .ret rfl

theorem dbResourceUpdate_traces (C : Libc) {data url digest etag : Bytes} (hw : ok (tr ++ [.replace cal url digest ⟨etag, cstr data⟩])) :
    (spaceDiscipline firm).Traces ok tr P (dbResourceUpdate C data url digest cid etag)
      fun tr' P' rc => Left tr (.replace cal url digest ⟨etag, cstr data⟩) P (firm → rc ≤ 0) tr' P' := by
  rw [dbResourceUpdate_eq]
  refine .visible hok hP fun e db he ha hi hp => ?_
  have hidle {rc : Int} (hrc : rc ≤ 0) : Moves none db db ∧
      Left tr (.replace cal url digest ⟨etag, cstr data⟩) P (firm → rc ≤ 0) tr P := ⟨.refl db, .nothing fun _ => hrc⟩
  have hfailed := hidle (show (-1 : Int) ≤ 0 by decide)
  unfold resourceUpdate
  split
  · split
    next => exact Or.inl hfailed
    next => exact Or.inl (hidle le_rfl)
    next res hload =>
      obtain ⟨r, ical, q, hget, -, rfl⟩ := resourceLoaded_found C hload
      split
      next => exact Or.inl (hidle le_rfl)
      next htag =>
        split
        next =>
          have hcal : db.colId cal = some cid := by
            rcases (hcol db hp).cases hi with hcal | hgone
            · exact hcal
            · rw [resGet_absent hi hgone] at hget
              cases hget
          obtain rfl : r.etag = digest := not_not.mp htag
          have hm : Moves (some (.replace cal url r.etag ⟨etag, cstr data⟩)) db
              (Sql.colUpdateCtag cid (Sql.resUpdate (cstr data) etag r.id db)) :=
            Moves.then_silent ⟨.of_same (fun hi => hi.resUpdate _ _ _) rfl rfl rfl, space_resUpdate hi hcal hget _ _⟩ (.ctag cid _)
          unfold committed
          cases hfails : e.commitFails with
          | true => exact Or.inl ⟨.refl db, .nothing fun hfirm => absurd (he hfirm) (by simp [hfails])⟩
          | false => exact Or.inr ⟨_, hm, hw, .event⟩
        next => exact Or.inl hfailed
  · exact Or.inl hfailed

theorem dbResourceDelete_traces {url tag : Bytes} (hw : ok (tr ++ [.removeIf cal url tag])) :
    (spaceDiscipline firm).Traces ok tr P (dbResourceDelete url tag cid) fun tr' P' _ => Left tr (.removeIf cal url tag) P True tr' P' := by
  rw [dbResourceDelete_eq]
  refine .visible hok hP fun e db he ha hi hp => ?_
  unfold resourceDelete
  split
  · split
    next => exact Or.inl ⟨.refl db, .nothing trivial⟩
    next r hget =>
      split
      next =>
        have hcal : db.colId cal = some cid := by
          rcases (hcol db hp).cases hi with hcal | hgone
          · exact hcal
          · obtain ⟨hmem, -, hcol', -⟩ := mem_of_resGetEtag hget
            obtain ⟨c, hc, hid⟩ := hi.resOwner r hmem
            exact absurd (hid.trans hcol') (hgone c hc)
        have hm : Moves (some (.removeIf cal url tag)) db (Sql.colUpdateCtag cid (Sql.resRemoveEtag url cid tag db)) :=
          Moves.then_silent ⟨.of_same (fun hi => hi.resFilter _) rfl rfl rfl, space_resRemoveEtag hi hcal hget⟩ (.ctag cid _)
        unfold committed
        cases e.commitFails with
        | true => exact Or.inl ⟨.refl db, .nothing trivial⟩
        | false => exact Or.inr ⟨_, hm, hw, .event⟩
      next => exact Or.inl ⟨.refl db, .nothing trivial⟩
  · exact Or.inl ⟨.refl db, .nothing trivial⟩

theorem dbCollectionRemove_traces (hw : ok (tr ++ [.rmcalendar cal])) :
    (spaceDiscipline firm).Traces ok tr P (dbCollectionRemove cid) fun tr' P' _ => Left tr (.rmcalendar cal) P True tr' P' := by
  rw [dbCollectionRemove_eq]
  refine statement_traces hok hP (.nothing trivial) (.nothing trivial) fun db db' hi hp hdb => ?_
  cases hdb
  rcases (hcol db hp).cases hi with hcal | hgone
  · exact Or.inr ⟨_, ⟨.colRemove cid db, space_colRemove hi hcal⟩, hw, .event⟩
  · rw [colRemove_absent hi hgone]
    exact Or.inl ⟨.refl db, .nothing trivial⟩

/-- What is found of a resource is there. -/
theorem loadResource_traces (C : Libc) {url : Bytes} (hw : ∀ e, ok (tr ++ [.look cal url e])) :
    (spaceDiscipline firm).Traces ok tr P (loadResource C url cid) fun tr' P' res => P' = P ∧
      (tr' = tr ∧ (∀ p, res ≠ .found p) ∨
        ∃ p, res = .found p ∧ p.url = url ∧ p.collection = cid ∧ tr' = tr ++ [.look cal url p.entry]) := by
  rw [loadResource_eq]
  refine .visible hok hP fun e db he ha hi hp => ?_
  unfold query
  split
  · dsimp only
    cases hload : resourceLoaded C url cid e.erange db with
    | error => exact Or.inl ⟨.refl db, rfl, Or.inl ⟨rfl, nofun⟩⟩
    | absent => exact Or.inl ⟨.refl db, rfl, Or.inl ⟨rfl, nofun⟩⟩
    | found res =>
      obtain ⟨r, ical, q, hget, -, rfl⟩ := resourceLoaded_found C hload
      obtain ⟨-, hcid, hurl⟩ := mem_of_resGet hget
      rcases (hcol db hp).cases hi with hcal | hgone
      · refine Or.inr ⟨.look cal url r.entry, ⟨.refl db, ?_⟩, hw _, rfl, Or.inr ⟨_, rfl, hurl, hcid, rfl⟩⟩
        refine .sight trivial ?_
        change db.space.resource (cal, url) = some r.entry
        rw [space_resource hcal, hget, Option.map_some]
      · rw [resGet_absent hi hgone] at hget
        cases hget
  · exact Or.inl ⟨.refl db, rfl, Or.inl ⟨rfl, nofun⟩⟩

/-- What is listed is there. -/
theorem dbCollectionResources_traces (C : Libc) (hw : ∀ es, ok (tr ++ [.listing cal es])) :
    (spaceDiscipline firm).Traces ok tr P (dbCollectionResources C cid) fun tr' P' res => P' = P ∧
      (tr' = tr ∧ res.1 = [] ∨ tr' = tr ++ [.listing cal (res.1.map fun r => (r.url, r.entry))]) := by
  rw [dbCollectionResources_eq]
  refine .visible hok hP fun e db he ha hi hp => ?_
  let rows := if e.quiet 2 then listRows C (e.skip 2) e.erange (Sql.resIter cid db) else ([], false)
  have hrows : ∀ r ∈ rows.1, ∃ row ∈ db.resource, row.collection = cid ∧ ∃ ical, r = row.res ical := by
    intro r hr
    unfold rows at hr
    split at hr
    · obtain ⟨row, hrow, ical, rfl⟩ := mem_listRows hr
      obtain ⟨hmem, hcid⟩ := List.mem_filter.mp hrow
      exact ⟨row, hmem, of_decide_eq_true hcid, ical, rfl⟩
    · cases hr
  rcases (hcol db hp).cases hi with hcal | hgone
  · refine Or.inr ⟨.listing cal (rows.1.map fun r => (r.url, r.entry)), ⟨.refl db, ?_⟩, hw _, rfl, Or.inr rfl⟩
    refine .sight trivial fun x hx => ?_
    obtain ⟨r, hr, rfl⟩ := List.mem_map.mp hx
    obtain ⟨row, hmem, hcid, ical, rfl⟩ := hrows r hr
    change db.space.resource (cal, row.url) = some row.entry
    rw [space_resource hcal, hi.resGet_iff.mpr ⟨hmem, by rw [hcid]⟩, Option.map_some]
  · refine Or.inl ⟨.refl db, rfl, Or.inl ⟨rfl, ?_⟩⟩
    refine List.eq_nil_iff_forall_not_mem.mpr fun r hr => ?_
    obtain ⟨row, hmem, hcid, -⟩ := hrows r hr
    obtain ⟨c, hc, hid⟩ := hi.resOwner row hmem
    exact hgone c hc (hid.trans hcid)

end Resources

/-! ## Accounts and their calendars -/

section Accounts
variable {name : Bytes} {pid : Int}

theorem dbCollectionNew_traces {url : Bytes} (hname : ∀ db, P db → IsPrncpl name pid db) (hw : ok (tr ++ [.mkcalendar (name, url)])) :
    (spaceDiscipline firm).Traces ok tr P (dbCollectionNew url pid)
      fun tr' P' rc => Left tr (.mkcalendar (name, url)) P (rc ≤ 0) tr' P' := by
  rw [dbCollectionNew_eq]
  refine statement_traces hok hP (.nothing (by decide)) (.nothing le_rfl) fun db db' hi hp hins => ?_
  have hstep : Space.Step (.mkcalendar (name, url)) db.space db'.space := space_colInsert hi ((hname db hp).prncplId hi) hins
  exact Or.inr ⟨_, ⟨.colInsert hins, hstep⟩, hw, .event⟩

theorem dbPrncplNew_traces {hash email directory : Bytes} (hw : ok (tr ++ [.mkaccount name ⟨hash, email⟩ directory])) :
    (spaceDiscipline firm).Traces ok tr P (dbPrncplNew name hash email directory)
      fun tr' P' rc => Left tr (.mkaccount name ⟨hash, email⟩ directory) P (firm → rc ≤ 0) tr' P' := by
  rw [dbPrncplNew_eq]
  refine .visible hok hP fun e db he ha hi hp => ?_
  have hidle {rc : Int} (hrc : rc ≤ 0) : Moves none db db ∧
      Left tr (.mkaccount name ⟨hash, email⟩ directory) P (firm → rc ≤ 0) tr P := ⟨.refl db, .nothing fun _ => hrc⟩
  have hfailed := hidle (show (-1 : Int) ≤ 0 by decide)
  unfold prncplNew
  split
  · split
    next => exact Or.inl (hidle le_rfl)
    next db₁ hins =>
      split
      · split
        next => exact Or.inl hfailed
        next db₂ hcol =>
          have hm : Moves (some (.mkaccount name ⟨hash, email⟩ directory)) db db₂ :=
            ⟨(Evolves.prncplInsert hins).trans (.colInsert hcol), space_prncplNew hi hins hcol⟩
          unfold committed
          cases hfails : e.commitFails with
          | true => exact Or.inl ⟨.refl db, .nothing fun hfirm => absurd (he hfirm) (by simp [hfails])⟩
          | false => exact Or.inr ⟨_, hm, hw, .event⟩
      · exact Or.inl hfailed
  · exact Or.inl hfailed

theorem dbPrncplUpdate_traces {hash email : Bytes} (hname : ∀ db, P db → IsPrncpl name pid db)
    (hw : ok (tr ++ [.account name ⟨hash, email⟩])) :
    (spaceDiscipline firm).Traces ok tr P (dbPrncplUpdate hash email pid)
      fun tr' P' rc => Left tr (.account name ⟨hash, email⟩) P (rc ≤ 0) tr' P' := by
  rw [dbPrncplUpdate_eq]
  refine statement_traces hok hP (.nothing (by decide)) (.nothing le_rfl) fun db db' hi hp hupd => ?_
  exact Or.inr ⟨_, ⟨.prncplUpdate hupd, space_prncplUpdate hi ((hname db hp).prncplId hi) hupd⟩, hw, .event⟩

variable {user : Bytes} {id : Int}

theorem dbProxyRemove_traces (hname : ∀ db, P db → IsPrncpl name pid db) (huser : ∀ db, P db → IsPrncpl user id db)
    (hw : ok (tr ++ [.undelegate name user])) :
    (spaceDiscipline firm).Traces ok tr P (dbProxyRemove pid id) fun _ P' _ => P' = P := by
  rw [dbProxyRemove, routine_statement]
  refine statement_traces hok hP rfl rfl fun db db' hi hp hdb => ?_
  cases hdb
  refine Or.inr ⟨_, ⟨.of_same (fun hi => hi.proxyRemove pid id) rfl rfl rfl, ?_⟩, hw, rfl⟩
  exact space_proxyRemove hi ((hname db hp).prncplId hi) ((huser db hp).prncplId hi)

theorem dbProxy_traces {bits : Int} (hname : ∀ db, P db → IsPrncpl name pid db) (huser : ∀ db, P db → IsPrncpl user id db)
    (hw : ok (tr ++ [.delegate name user (int32 bits)])) :
    (spaceDiscipline firm).Traces ok tr P (dbProxy pid id bits) fun _ P' _ => P' = P := by
  rw [dbProxy_eq]
  refine .visible hok hP fun e db he ha hi hp => ?_
  have howner := (hname db hp).prncplId hi
  have hproxy := (huser db hp).prncplId hi
  have hidle : Moves none db db ∧ P = P := ⟨.refl db, rfl⟩
  unfold proxyOutcome
  split
  · exact Or.inl hidle
  split
  · exact Or.inl hidle
  split
  next db' hins =>
    split
    · exact Or.inl hidle
    · refine Or.inr ⟨_, ⟨.of_same (fun hi => hi.proxyInsert hins) ?_ ?_ ?_, space_proxyInsert hi howner hproxy hins⟩, hw, rfl⟩
      all_goals
        obtain ⟨-, -, -, rfl⟩ := proxyInsert_eq_some.mp hins
        rfl
  next hnone =>
    split
    · exact Or.inl hidle
    split
    · exact Or.inl hidle
    split
    · exact Or.inl hidle
    · have hrow : ∃ x ∈ db.proxy, x.principal = pid ∧ x.proxy = id := by
        rcases proxyInsert_eq_none.mp hnone with hrow | hno | hno
        · exact hrow
        · obtain ⟨p, hmem, hid, -⟩ := hname db hp
          exact absurd ⟨p, hmem, hid⟩ hno
        · obtain ⟨p, hmem, hid, -⟩ := huser db hp
          exact absurd ⟨p, hmem, hid⟩ hno
      exact Or.inr ⟨_, ⟨.of_same (fun hi => hi.proxyUpdate bits pid id) rfl rfl rfl, space_proxyUpdate hi howner hproxy bits hrow⟩,
        hw, rfl⟩

end Accounts

/-! ## Loading -/

section Loading
variable {name : Bytes} {pid : Int}

theorem dbCollectionLoadid_traces {id : Int} (hname : ∀ db, P db → IsPrncpl name pid db) :
    (spaceDiscipline firm).Traces ok tr P (dbCollectionLoadid id pid) fun tr' P' res => tr' = tr ∧
      P' = fun db => P db ∧ ∀ c, res = .found c → IsCol (name, c.url) c.id db := by
  rw [dbCollectionLoadid, dbCollectionGet_eq]
  refine query_traces hok hP (fun res => .all fun c => .imp fun _ => isCol_stable _ _) nofun fun e db hi hp c hc => ?_
  split at hc
  next => cases hc
  next row hget =>
    cases hc
    have hfound := List.find?_some hget
    obtain ⟨rfl, -⟩ : row.principal = pid ∧ row.id = id := of_decide_eq_true hfound
    exact isCol_of_mem hi (List.mem_of_find?_eq_some hget) (hname db hp)

theorem dbPrncplIdentify_traces (email : Bytes) :
    (spaceDiscipline firm).Traces ok tr P (dbPrncplIdentify email) fun tr' P' id => tr' = tr ∧
      ∃ user, ∀ db, P' db → P db ∧ (0 < id → IsPrncpl user id db) := by
  rw [dbPrncplIdentify_eq]
  refine .atom fun e db he ha hi hp => ?_
  have hidle {id : Int} (hid : id ≤ 0) : ∃ w P', Moves w db db ∧ (spaceDiscipline firm).Stable P' ∧ P' db ∧ ok (tr ++ w.toList) ∧
      tr ++ w.toList = tr ∧ ∃ user, ∀ db, P' db → P db ∧ (0 < id → IsPrncpl user id db) := by
    refine ⟨none, P, .refl db, hP, hp, ?_, List.append_nil tr, [], fun _ h => ⟨h, fun hpos => absurd hpos (not_lt.mpr hid)⟩⟩
    rwa [Option.toList_none, List.append_nil]
  unfold query
  split
  · dsimp only
    unfold Sql.prncplGetId
    cases hget : db.principal.find? fun p => p.email = email with
    | none => exact hidle le_rfl
    | some p =>
      refine ⟨none, fun db => P db ∧ IsPrncpl p.name p.id db, .refl db, hP.and (isPrncpl_stable _ _),
        ⟨hp, p, List.mem_of_find?_eq_some hget, rfl, rfl⟩, ?_, List.append_nil tr, p.name, fun _ h => ⟨h.1, fun _ => h.2⟩⟩
      rwa [Option.toList_none, List.append_nil]
  · exact hidle (show (-1 : Int) ≤ 0 by decide)

theorem nonceRetry_traces (draws : List Bytes) (hw : ∀ n ∈ draws, ∀ culled, ok (tr ++ [.challenge n culled])) :
    (spaceDiscipline firm).Traces ok tr P (nonceRetry draws) fun _ _ rc => rc ≤ 0 := by
  rw [nonceRetry, dbNonceNew_eq]
  refine .bind (Q := fun _ _ _ => True) hok hP (.visible hok hP fun e db he ha hi hp => ?_) fun tr' P' nonce _ _ _ => ?_
  · rcases nonceNew_moves hi draws e with hm | ⟨n, hn, culled, hm⟩
    · exact Or.inl ⟨hm, trivial⟩
    · exact Or.inr ⟨_, hm, hw n hn culled, trivial⟩
  · cases nonce
    · exact .ret (show (-2 : Int) ≤ 0 by decide)
    · exact .ret le_rfl

/-- A request goes on when its count has been accepted. Where a `COMMIT` may fail, the count
may not have been entered. -/
theorem nonceValidate_traces (nonce : Bytes) (count : Int) (draws : List Bytes) (haccept : ok (tr ++ [.accept nonce count]))
    (hw : ∀ n ∈ draws, ∀ culled, ok (tr ++ [.challenge n culled])) :
    (spaceDiscipline firm).Traces ok tr P (nonceValidate nonce count draws) fun tr' P' rc =>
      0 < rc → P' = P ∧ (tr' = tr ++ [.accept nonce count] ∨ ¬firm ∧ tr' = tr) := by
  have hends {tr' : List SpaceEvent} {P' : Db → Prop} {rc : Int} (hrc : rc ≤ 0) :
      0 < rc → P' = P ∧ (tr' = tr ++ [.accept nonce count] ∨ ¬firm ∧ tr' = tr) := fun h => absurd h (not_lt.mpr hrc)
  have hfailed : (-2 : Int) ≤ 0 := by decide
  have hreplay : (-1 : Int) ≤ 0 := by decide
  rw [nonceValidate, routine_dbNonceValidate, dbNonceUpdate_eq]
  refine .bind (Q := fun tr' P' _ => tr' = tr ∧ P' = P) hok hP (.quiet hok hP (fun e db _ _ _ _ => ?_) fun _ => ⟨rfl, rfl⟩) ?_
  · unfold query
    split <;> exact Moves.refl db
  rintro tr' P' er hok' hP' ⟨rfl, rfl⟩
  cases er with
  | err => exact .ret (hends hfailed)
  | replay => exact .ret (hends hreplay)
  | notfound => exact (nonceRetry_traces hok' hP' draws hw).post fun _ _ _ => hends
  | ok =>
    refine .bind (Q := fun tr'' P'' er => P'' = P' ∧ (er = .ok → tr'' = tr' ++ [.accept nonce count] ∨ ¬firm ∧ tr'' = tr') ∧
        (er ≠ .ok → tr'' = tr')) hok' hP' (.visible hok' hP' fun e db he ha hi hp => ?_) ?_
    · rcases nonceUpdate_moves hi nonce count e with ⟨hm, hfails⟩ | ⟨hdone, hm⟩
      · refine Or.inl ⟨hm, rfl, fun h => Or.inr ⟨fun hfirm => ?_, rfl⟩, fun _ => rfl⟩
        rw [he hfirm] at hfails
        cases hfails h
      · exact Or.inr ⟨_, hm, haccept, rfl, fun _ => Or.inl rfl, fun hnot => absurd hdone hnot⟩
    rintro tr'' P'' er hok'' hP'' ⟨rfl, hadmitted, hsame⟩
    cases er with
    | err => exact .ret (hends hfailed)
    | replay => exact .ret (hends hreplay)
    | notfound =>
      obtain rfl := hsame nofun
      exact (nonceRetry_traces hok' hP' draws hw).post fun _ _ _ => hends
    | ok => exact .ret fun _ => ⟨rfl, hadmitted rfl⟩

theorem dbIter_traces {β : Type} {q : Db → List β} {F : List β → Db → Prop} (hF : ∀ rows, (spaceDiscipline firm).Stable (F rows))
    (hq : ∀ db, db.principalSeq < 2 ^ 31 → Integral db → P db → F (q db) db) :
    (spaceDiscipline firm).Traces ok tr P (dbIter q) fun tr' P' res => tr' = tr ∧
      P' = fun db => P db ∧ ∀ rows, res = some rows → F rows db := by
  rw [dbIter_eq]
  refine .silent hok hP (F := fun res db => ∀ rows, res = some rows → F rows db) (fun res => .all fun rows => .imp fun _ => hF rows)
    (fun e db he ha hi hp => ⟨.refl db, fun rows hrows => ?_⟩) fun res => ⟨rfl, rfl⟩
  dsimp only at hrows
  split at hrows
  · cases hrows
    exact hq db ha hi hp
  · cases hrows

def Prncpl.account (p : Prncpl) : Account := ⟨p.hash, p.email⟩

/-- Load a principal. Of the row and of the permissions of others something may be seen. -/
theorem dbPrncplLoad_traces (name : Bytes) (seen : PrncplRow → Option SpaceEvent) (granted : List ProxyEntry → Option SpaceEvent)
    (hseen : ∀ db row w, Integral db → P db → Sql.prncplGet name db = some row → seen row = some w →
      Space.Step w db.space db.space ∧ ok (tr ++ [w]))
    (hgranted : ∀ db row w, Integral db → P db → IsPrncpl name row.id db →
      granted ((Sql.proxyIterPrncpl row.id db).map forwardEntry) = some w →
        Space.Step w db.space db.space ∧ ok (tr ++ (seen row).toList ++ [w])) :
    (spaceDiscipline firm).Traces ok tr P (dbPrncplLoad name) fun tr' P' res => ∀ p, res = .found p →
      p.name = name ∧ (∃ row, row.account = p.account ∧ tr' = tr ++ (seen row).toList ++ (granted p.proxies).toList) ∧
        ∀ db, P' db → P db ∧ IsPrncpl name p.id db ∧ ∀ c ∈ p.cols, IsCol (name, c.url) c.id db := by
  rw [dbPrncplLoad, dbPrncplGet_eq]
  refine .bind (Q := fun tr' P' res => ∀ row, res = .found row → tr' = tr ++ (seen row).toList ∧
    P' = fun db => P db ∧ IsPrncpl name row.id db ∧ int32 row.id = row.id) hok hP ?_ ?_
  · refine .atom fun e db he ha hi hp => ?_
    unfold prncplFetched
    have hidle : ∀ res : Loaded PrncplRow, (∀ row, res ≠ .found row) → ∃ w P', Moves w db db ∧ (spaceDiscipline firm).Stable P' ∧ P' db ∧
        ok (tr ++ w.toList) ∧ ∀ row, res = .found row → tr ++ w.toList = tr ++ (seen row).toList ∧
          P' = fun db => P db ∧ IsPrncpl name row.id db ∧ int32 row.id = row.id := by
      intro res hres
      refine ⟨none, P, .refl db, hP, hp, ?_, fun row hrow => absurd hrow (hres row)⟩
      rwa [Option.toList_none, List.append_nil]
    split
    · split
      next => exact hidle _ nofun
      next row hget =>
        split
        · obtain ⟨hmem, hrow⟩ := hi.prncplGet_iff.mp hget
          refine ⟨seen row, fun db => P db ∧ IsPrncpl name row.id db ∧ int32 row.id = row.id, ?_,
            hP.and ((isPrncpl_stable _ _).and (.const _)), ⟨hp, ⟨row, hmem, rfl, hrow⟩, int32_of_principal hi ha hmem⟩, ?_, ?_⟩
          · cases hw : seen row with
            | none => exact .refl db
            | some w => exact ⟨.refl db, (hseen db row w hi hp hget hw).1⟩
          · cases hw : seen row with
            | none => rwa [Option.toList_none, List.append_nil]
            | some w => exact (hseen db row w hi hp hget hw).2
          · rintro row' ⟨⟩
            exact ⟨rfl, rfl⟩
        · exact hidle _ nofun
    · exact hidle _ nofun
  rintro tr' P' (_ | _ | row) hok' hP' h
  · exact .ret nofun
  · exact .ret nofun
  obtain ⟨rfl, rfl⟩ := h row rfl
  refine .bind hok' hP' (dbIter_traces hok' hP' (F := fun rows db => ∀ c ∈ rows, IsCol (name, c.url) c.id db)
    (fun rows => .all fun c => .imp fun _ => isCol_stable _ _) fun db ha hi hp c hc => ?_) ?_
  · obtain ⟨hmem, hprincipal⟩ := List.mem_filter.mp hc
    have hpid : c.principal = row.id := (of_decide_eq_true hprincipal).trans hp.2.2
    exact isCol_of_mem hi hmem (hpid ▸ hp.2.1)
  rintro tr' P' cols hok₁ hP₁ ⟨rfl, rfl⟩
  rcases cols with _ | cols
  · exact .ret nofun
  refine .bind hok₁ hP₁ (dbIter_traces hok₁ hP₁ (F := fun _ _ => True) (fun _ => .unit) fun _ _ _ _ => trivial) ?_
  rintro tr' P' rproxies hok₂ hP₂ ⟨rfl, rfl⟩
  rcases rproxies with _ | rproxies
  · exact .ret nofun
  rw [dbIter_eq]
  refine .bind (Q := fun tr' P' res => ∀ rows, res = some rows →
      tr' = tr ++ (seen row).toList ++ (granted (rows.map forwardEntry)).toList ∧ ∀ db, P' db →
        P db ∧ IsPrncpl name row.id db ∧ int32 row.id = row.id ∧ ∀ c ∈ cols, IsCol (name, c.url) c.id db)
    hok₂ hP₂ (.atom fun e db he ha hi hp => ?_) ?_
  · dsimp only
    split
    · refine ⟨granted ((Sql.proxyIterPrncpl (int32 row.id) db).map forwardEntry), _, ?_, hP₂, hp, ?_, ?_⟩
      · cases hw : granted ((Sql.proxyIterPrncpl (int32 row.id) db).map forwardEntry) with
        | none => exact .refl db
        | some w =>
          rw [hp.1.1.2.2] at hw
          exact ⟨.refl db, (hgranted db row w hi hp.1.1.1 hp.1.1.2.1 hw).1⟩
      · cases hw : granted ((Sql.proxyIterPrncpl (int32 row.id) db).map forwardEntry) with
        | none => rwa [Option.toList_none, List.append_nil]
        | some w =>
          rw [hp.1.1.2.2] at hw
          exact (hgranted db row w hi hp.1.1.1 hp.1.1.2.1 hw).2
      · rintro rows ⟨⟩
        exact ⟨rfl, fun db hdb => ⟨hdb.1.1.1, hdb.1.1.2.1, hdb.1.1.2.2, hdb.1.2 cols rfl⟩⟩
    · refine ⟨none, _, .refl db, hP₂, hp, ?_, nofun⟩
      rwa [Option.toList_none, List.append_nil]
  rintro tr' P' (_ | proxies) hok₃ hP₃ h
  · exact .ret nofun
  obtain ⟨rfl, hfacts⟩ := h proxies rfl
  refine .ret ?_
  rintro p ⟨⟩
  refine ⟨rfl, ⟨row, rfl, rfl⟩, fun db hdb => ?_⟩
  obtain ⟨hp, hid, hint, hcols⟩ := hfacts db hdb
  refine ⟨hp, ?_, fun c hc => ?_⟩
  · dsimp only
    rwa [hint]
  · obtain ⟨row', hrow', rfl⟩ := List.mem_map.mp hc
    exact hcols row' hrow'

/-- Load a principal, of whom nothing is seen. -/
theorem dbPrncplLoad_unseen (name : Bytes) : (spaceDiscipline firm).Traces ok tr P (dbPrncplLoad name) fun tr' P' res => tr' = tr ∧
    ∀ p, res = .found p → ∀ db, P' db → P db ∧ IsPrncpl name p.id db ∧ ∀ c ∈ p.cols, IsCol (name, c.url) c.id db := by
  have hload := @dbPrncplLoad_traces firm (fun t => t = tr) tr P rfl hP name (fun _ => none) (fun _ => none)
    (fun _ _ _ _ _ _ h => nomatch h) fun _ _ _ _ _ _ h => nomatch h
  refine (hload.mono rfl ?_).post ?_
  · rintro t rfl
    exact hok
  · exact fun tr' P' res h => ⟨h.1, fun p hp => (h.2 p hp).2.2⟩

end Loading

end Routines

end Kcaldav
