import Mathlib.Data.List.Perm.Subperm
import Kcaldav.Concurrent.Replay

/-! # The table of nonces

Processes create, update and delete nonces for whoever asks, so what bounds the table is
the routine that adds a row: it makes room in a full one first. A full table loses at
most twenty rows to that, any twenty, and no other change to the table adds a row.
-/
namespace Kcaldav
open CString

/-- A nonce has one row, and so has an identifier; no identifier is above those given out. -/
structure NonceKeyed (db : Db) : Prop where
  nonce : (db.nonce.map NonceRow.nonce).Nodup
  id : (db.nonce.map NonceRow.id).Nodup
  seq : ∀ row ∈ db.nonce, row.id ≤ db.nonceSeq

/-- The table of nonces as it always is. -/
structure NonceTable (db : Db) : Prop extends NonceKeyed db where
  bound : db.nonce.length ≤ NONCEMAX

/-- A process whose visits to the database create, update and delete nonces. -/
inductive NonceUser {α : Type} : DbProg α → Prop
  | ret (a : α) : NonceUser (.ret a)
  | create (draws : List Bytes) {k : Option Bytes → DbProg α} : (∀ o, NonceUser (k o)) → NonceUser (dbNonceNew draws >>= k)
  | update (nonce : Bytes) (count : Int) {k : NonceErr → DbProg α} : (∀ er, NonceUser (k er)) →
      NonceUser (dbNonceUpdate nonce count >>= k)
  | delete (nonce : Bytes) {k : Bool → DbProg α} : (∀ b, NonceUser (k b)) → NonceUser (dbNonceDelete nonce >>= k)

/-- What one visit does to the table. -/
inductive TableMove (db : Db) : Db → Prop
  | look : TableMove db db
  | insert {e : Choice} {nonce : Bytes} {db' : Db} : Sql.nonceInsert nonce (nonceRoom e db).2 = some db' → TableMove db db'
  | remove (nonce : Bytes) : TableMove db (Sql.nonceRemove nonce db)
  | update (nonce : Bytes) (count : Int) : TableMove db (Sql.nonceUpdate count nonce db)

/-- A nonce has been created: it is there, unused, no other row is new or changed, and at most
twenty are gone, none where there was room. -/
structure NonceCreated (nonce : Bytes) (db db' : Db) : Prop where
  unused : ∃ row ∈ db'.nonce, row.nonce = nonce ∧ row.count = 0
  others : ∀ row ∈ db'.nonce, row.nonce ≠ nonce → row ∈ db.nonce
  roomy : db.nonce.length < NONCEMAX → ∀ row ∈ db.nonce, row ∈ db'.nonce
  culled : (db.nonce.filter fun row => row ∉ db'.nonce).length ≤ 20

/-- What a call of `db_nonce_new` is to do. -/
def NonceCreation : Option Bytes → Db → Db → Prop
  | some nonce, db, db' => NonceCreated nonce db db'
  | none, db, db' => db' = db

variable {db db' : Db} {nonce : Bytes} {e : Choice}

/-! ## Making room -/

theorem length_limit (rank : Int → Nat) (k : Nat) (rows : List NonceRow) :
    (Sql.limit rank k rows).length = min k rows.length := by
  simp [Sql.limit]

theorem mem_of_mem_limit {rank : Int → Nat} {k : Nat} {rows : List NonceRow} {row : NonceRow}
    (h : row ∈ Sql.limit rank k rows) : row ∈ rows :=
  (List.mergeSort_perm _ _).mem_iff.mp (List.mem_of_mem_take h)

/-- Something goes from a table that is not empty. -/
theorem length_nonceRemoveMulti (rank : Int → Nat) (h : db.nonce ≠ []) :
    (Sql.nonceRemoveMulti rank db).nonce.length < db.nonce.length := by
  have hpos : 0 < (Sql.limit rank 20 db.nonce).length := by
    have hlen := List.length_pos_iff.mpr h
    rw [length_limit]
    omega
  obtain ⟨row, hrow⟩ := List.exists_mem_of_length_pos hpos
  refine List.length_filter_lt_length_iff_exists.mpr ⟨row, mem_of_mem_limit hrow, ?_⟩
  simpa using ⟨row, hrow, rfl⟩

/-- At most twenty rows go. -/
theorem NonceKeyed.length_gone (h : NonceKeyed db) (rank : Int → Nat) :
    (db.nonce.filter fun row => row ∉ (Sql.nonceRemoveMulti rank db).nonce).length ≤ 20 := by
  have hsub : (db.nonce.filter fun row => row ∉ (Sql.nonceRemoveMulti rank db).nonce).map NonceRow.id ⊆
      (Sql.limit rank 20 db.nonce).map NonceRow.id := by
    intro id hid
    obtain ⟨row, hrow, rfl⟩ := List.mem_map.mp hid
    obtain ⟨hmem, hgone⟩ := List.mem_filter.mp hrow
    by_contra hnot
    exact of_decide_eq_true hgone (List.mem_filter.mpr ⟨hmem, decide_eq_true hnot⟩)
  have hnodup : ((db.nonce.filter fun row => row ∉ (Sql.nonceRemoveMulti rank db).nonce).map NonceRow.id).Nodup :=
    h.id.sublist (List.filter_sublist.map NonceRow.id)
  have hle := (List.subperm_of_subset hnodup hsub).length_le
  rw [List.length_map, List.length_map, length_limit] at hle
  omega

theorem nonceRoom_sublist (e : Choice) (db : Db) : (nonceRoom e db).2.nonce.Sublist db.nonce := by
  unfold nonceRoom
  split
  · exact List.filter_sublist
  · exact List.Sublist.refl _

theorem nonceRoom_of_lt (h : db.nonce.length < NONCEMAX) : (nonceRoom e db).2 = db := by
  rw [nonceRoom, if_neg (Nat.not_le.mpr h)]

/-- There is room for a row. -/
theorem NonceTable.length_nonceRoom (h : NonceTable db) (e : Choice) : (nonceRoom e db).2.nonce.length < NONCEMAX := by
  by_cases hfull : db.nonce.length < NONCEMAX
  · rw [nonceRoom_of_lt hfull]
    exact hfull
  · have hne : db.nonce ≠ [] := by
      rintro hnil
      rw [hnil] at hfull
      exact hfull (by decide)
    have hless := length_nonceRemoveMulti e.rank hne
    rw [nonceRoom, if_pos (Nat.not_lt.mp hfull)]
    exact lt_of_lt_of_le hless h.bound

/-! ## The keys and the bound -/

/-- Fewer rows have the keys of the table. -/
theorem NonceKeyed.sublist (h : NonceKeyed db) (hrows : db'.nonce.Sublist db.nonce) (hseq : db'.nonceSeq = db.nonceSeq) :
    NonceKeyed db' where
  nonce := h.nonce.sublist (hrows.map _)
  id := h.id.sublist (hrows.map _)
  seq row hrow := by
    rw [hseq]
    exact h.seq row (hrows.subset hrow)

theorem NonceKeyed.nonceInsert (h : NonceKeyed db) (hins : Sql.nonceInsert nonce db = some db') : NonceKeyed db' := by
  obtain ⟨hnew, hrows, hseq⟩ := nonceInsert_eq hins
  constructor
  · rw [hrows, List.map_append, List.map_singleton]
    refine h.nonce.append (List.nodup_singleton _) (List.disjoint_singleton.mpr fun hmem => ?_)
    obtain ⟨row, hrow, heq⟩ := List.mem_map.mp hmem
    exact hnew row hrow heq
  · rw [hrows, List.map_append, List.map_singleton]
    refine h.id.append (List.nodup_singleton _) (List.disjoint_singleton.mpr fun hmem => ?_)
    obtain ⟨row, hrow, heq⟩ := List.mem_map.mp hmem
    have hle := h.seq row hrow
    dsimp only at heq
    omega
  · intro row hrow
    rw [hrows] at hrow
    rw [hseq]
    rcases List.mem_append.mp hrow with hold | hadded
    · have hle := h.seq row hold
      omega
    · obtain rfl := List.mem_singleton.mp hadded
      exact Int.le_refl _

theorem NonceKeyed.nonceUpdate (h : NonceKeyed db) (nonce : Bytes) (count : Int) :
    NonceKeyed (Sql.nonceUpdate count nonce db) := by
  have hsame {β : Type} (f : NonceRow → β) (hf : ∀ row : NonceRow, f { row with count := count } = f row) :
      (Sql.nonceUpdate count nonce db).nonce.map f = db.nonce.map f := by
    unfold Sql.nonceUpdate
    rw [List.map_map]
    refine List.map_congr_left fun row _ => ?_
    rw [Function.comp_apply]
    split
    · exact hf row
    · rfl
  constructor
  · rw [hsame _ fun _ => rfl]
    exact h.nonce
  · rw [hsame _ fun _ => rfl]
    exact h.id
  · intro row hrow
    have hid : row.id ∈ db.nonce.map NonceRow.id := by
      rw [← hsame _ fun _ => rfl]
      exact List.mem_map_of_mem hrow
    obtain ⟨row', hrow', heq⟩ := List.mem_map.mp hid
    rw [← heq]
    exact h.seq row' hrow'

/-- Every visit leaves the table as it always is. -/
theorem NonceTable.move (h : NonceTable db) (hm : TableMove db db') : NonceTable db' := by
  cases hm with
  | look => exact h
  | @insert e nonce _ hins =>
    have hroom := h.toNonceKeyed.sublist (nonceRoom_sublist e db) (nonceRoom_seq e db)
    refine ⟨hroom.nonceInsert hins, ?_⟩
    rw [(nonceInsert_eq hins).2.1, List.length_append]
    exact h.length_nonceRoom e
  | remove nonce =>
    have hrows : (Sql.nonceRemove nonce db).nonce.Sublist db.nonce := List.filter_sublist
    exact ⟨h.toNonceKeyed.sublist hrows rfl, hrows.length_le.trans h.bound⟩
  | update nonce count =>
    refine ⟨h.toNonceKeyed.nonceUpdate nonce count, ?_⟩
    unfold Sql.nonceUpdate
    rw [List.length_map]
    exact h.bound

/-! ## The visits -/

/-- The processes as a protocol, under surroundings in which no `COMMIT` fails. -/
def tableProtocol (ι α : Type) : Protocol ι Choice Db α Unit where
  allowed _ e := ¬e.commitFails
  move _ _ db _ db' := TableMove db db'
  ends _ _ _ := True

theorem NonceUser.follows {ι α : Type} {p : DbProg α} (h : NonceUser p) (i : ι) : (tableProtocol ι α).Follows i () p := by
  induction h with
  | ret a => exact trivial
  | create draws _ ih =>
    rw [dbNonceNew_eq, Prog.atom_bind]
    intro e db he
    refine ⟨(), ?_, ih _⟩
    rcases nonceNew_cases draws he db with hnone | ⟨nonce, -, db', hins, hsome⟩
    · rw [hnone]
      exact .look
    · rw [hsome]
      exact .insert hins
  | update nonce count _ ih =>
    rw [dbNonceUpdate_eq, Prog.atom_bind]
    intro e db he
    refine ⟨(), ?_, ih _⟩
    rcases nonceUpdate_cases nonce count he db with ⟨-, hok⟩ | ⟨er, -, herr⟩
    · rw [hok]
      exact .update nonce _
    · rw [herr]
      exact .look
  | delete nonce _ ih =>
    rw [dbNonceDelete_eq, Prog.atom_bind]
    intro e db _
    refine ⟨(), ?_, ih _⟩
    unfold statement
    split
    · exact .remove nonce
    · exact .look

/-- What a call does to the table, whatever is culled. -/
theorem NonceTable.nonceNew (h : NonceTable db) (draws : List Bytes) (he : ¬e.commitFails) :
    NonceCreation (nonceNew draws e db).1 db (nonceNew draws e db).2 := by
  rcases nonceNew_cases draws he db with hnone | ⟨nonce, -, db', hins, hsome⟩
  · rw [hnone]
    exact rfl
  rw [hsome]
  obtain ⟨-, hrows, -⟩ := nonceInsert_eq hins
  have hkept : ∀ row ∈ (nonceRoom e db).2.nonce, row ∈ db'.nonce := by
    intro row hrow
    rw [hrows]
    exact List.mem_append_left _ hrow
  constructor
  · refine ⟨⟨nonce, 0, (nonceRoom e db).2.nonceSeq + 1⟩, ?_, rfl, rfl⟩
    rw [hrows]
    exact List.mem_append_right _ (List.mem_singleton_self _)
  · intro row hrow hne
    rcases mem_nonceInsert hins hrow with hold | hnew
    · exact mem_nonceRoom hold
    · exact absurd hnew hne
  · intro hlt row hrow
    refine hkept row ?_
    rw [nonceRoom_of_lt hlt]
    exact hrow
  · have hgone : (db.nonce.filter fun row => row ∉ (nonceRoom e db).2.nonce).length ≤ 20 := by
      unfold nonceRoom
      split
      · exact h.toNonceKeyed.length_gone e.rank
      · have hnone : (db.nonce.filter fun row => row ∉ db.nonce) = [] :=
          List.filter_eq_nil_iff.mpr fun row hrow hnot => (of_decide_eq_true hnot : row ∉ db.nonce) hrow
        rw [hnone]
        exact Nat.zero_le 20
    refine (List.monotone_filter_right _ fun row hrow => ?_).length_le.trans hgone
    exact decide_eq_true (mt (hkept row) (of_decide_eq_true hrow))

/-- Under every interleaving of processes the table never holds more rows than it may, nor two of one nonce;
and wherever in it a process creates a nonce, the nonce is there and unused, no other row is changed, and no
more than twenty rows are culled, from a full table only, or nothing changes. -/
theorem nonce_table_safe {ι α : Type} [DecidableEq ι] {procs : ι → DbProg α} (huser : ∀ i, NonceUser (procs i))
    (hkeyed : NonceKeyed db) (hbound : db.nonce.length ≤ NONCEMAX) (sched : List (ι × Choice))
    (hcommit : ∀ x ∈ sched, ¬x.2.commitFails) :
    (Sys.exec ⟨db, procs⟩ sched).shared.nonce.length ≤ NONCEMAX ∧
    ((Sys.exec ⟨db, procs⟩ sched).shared.nonce.map NonceRow.nonce).Nodup ∧
    ∀ (i : ι) (e : Choice) (draws : List Bytes) (k : Option Bytes → DbProg α), ¬e.commitFails →
      (Sys.exec ⟨db, procs⟩ sched).proc i = (dbNonceNew draws >>= k) →
      ∃ o, ((Sys.exec ⟨db, procs⟩ sched).step (i, e)).proc i = k o ∧
        NonceCreation o (Sys.exec ⟨db, procs⟩ sched).shared ((Sys.exec ⟨db, procs⟩ sched).step (i, e)).shared := by
  have htracked : (tableProtocol ι α).Tracked (fun _ => ()) ⟨db, procs⟩ := fun i => (huser i).follows i
  have hmove : ∀ s ls i l' s', (fun (db : Db) (_ : ι → Unit) => NonceTable db) s ls → (tableProtocol ι α).move i (ls i) s l' s' →
      (fun (db : Db) (_ : ι → Unit) => NonceTable db) s' (Function.update ls i l') := fun _ _ _ _ _ h hm => h.move hm
  obtain ⟨-, -, htable⟩ := Protocol.Tracked.exec hmove sched hcommit htracked ⟨hkeyed, hbound⟩
  refine ⟨htable.bound, htable.nonce, fun i e draws k he hproc => ?_⟩
  rw [dbNonceNew_eq, Prog.atom_bind] at hproc
  refine ⟨(nonceNew draws e (Sys.exec ⟨db, procs⟩ sched).shared).1, ?_, ?_⟩
  · rw [Sys.step_of_act hproc]
    exact Function.update_self ..
  · rw [Sys.step_of_act hproc]
    exact htable.nonceNew draws he

/-- Each of two processes asks for a nonce, and the second takes it back. -/
def creating : Bool → DbProg Unit
  | false => dbNonceNew [ascii "B2"] >>= fun _ => .ret ()
  | true => dbNonceNew [ascii "C3"] >>= fun o => dbNonceDelete (o.getD []) >>= fun _ => .ret ()

/-- Both nonces are there after the first two visits. -/
theorem nonce_table_safe_creating :
    (Sys.exec ⟨{ Db.empty with nonce := [⟨ascii "A1", 0, 1⟩], nonceSeq := 1 }, creating⟩
      [(false, .calm), (true, .calm)]).shared.nonce.length = 3 ∧
    (Sys.exec ⟨{ Db.empty with nonce := [⟨ascii "A1", 0, 1⟩], nonceSeq := 1 }, creating⟩
      [(false, .calm), (true, .calm)]).shared.nonce.length ≤ NONCEMAX := by
  refine ⟨by decide +kernel, (nonce_table_safe (fun b => ?_) ?_ ?_ _ ?_).1⟩
  · cases b with
    | false => exact .create _ fun _ => .ret ()
    | true => exact .create _ fun _ => .delete _ fun _ => .ret ()
  · exact ⟨by decide +kernel, by decide, by decide⟩
  · decide
  · simp [Choice.calm]

end Kcaldav
