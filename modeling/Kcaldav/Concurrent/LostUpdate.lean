import Kcaldav.Store.Outcome
import Kcaldav.Store.Rows

/-! # No lost update

Clients create, update, delete and remove the resources of one collection, in an
arbitrary interleaving. Each entity tag is assigned once, together with the data it
stands for; that is what makes the comparison of tags in an update or a conditional
delete decide about the data.
-/
namespace Kcaldav
open CString

/-- A client's call, with the entity tag it generates where it does. -/
inductive ResCall
  | new (data url etag : Bytes)
  | update (data url digest etag : Bytes)
  | delete (url tag : Bytes)
  | remove (url : Bytes)

namespace ResCall

/-- The tag on which the call is conditional. -/
def presents : ResCall → Option Bytes
  | update _ _ digest _ => some digest
  | delete _ tag => some tag
  | new .. | remove _ => none

/-- The tag the call generates, and the data it stands for. -/
def assigns : ResCall → Option (Bytes × Bytes)
  | new data _ etag | update data _ _ etag => some (etag, cstr data)
  | delete .. | remove _ => none

def prog (C : Libc) (colid : Int) : ResCall → DbProg Int
  | new data url etag => dbResourceNew data url colid etag
  | update data url digest etag => dbResourceUpdate C data url digest colid etag
  | delete url tag => do return if ← dbResourceDelete url tag colid then 1 else 0
  | remove url => do return if ← dbResourceRemove url colid then 1 else 0

end ResCall

/-- Whether a call may still assign its tag. -/
inductive ResStage
  | pending | assigned | over
  deriving DecidableEq

variable {ι : Type} (C : Libc) (colid : Int) (call : ι → ResCall)

/-- What one action of a call does to the database. -/
inductive ResMove (i : ι) : ResStage → Db → ResStage → Db → Prop
  | idle {db : Db} {l : ResStage} : ResMove i l db .over db
  | bump {db : Db} {l : ResStage} : (call i).presents = none → ResMove i l db .over (Sql.colUpdateCtag colid db)
  | new {data url etag : Bytes} {db db' : Db} : call i = .new data url etag →
      Sql.resInsert (cstr data) url colid etag db = some db' → ResMove i .pending db .assigned db'
  | update {data url digest etag : Bytes} {db : Db} {r : ResRow} : call i = .update data url digest etag →
      Sql.resGet colid url db = some r → r.etag = digest →
      ResMove i .pending db .assigned (Sql.colUpdateCtag colid (Sql.resUpdate (cstr data) etag r.id db))
  | delete {url tag : Bytes} {db : Db} : call i = .delete url tag → (Sql.resGetEtag url colid tag db).isSome →
      ResMove i .pending db .over (Sql.colUpdateCtag colid (Sql.resRemoveEtag url colid tag db))
  | remove {url : Bytes} {db : Db} : call i = .remove url → ResMove i .pending db .over (Sql.resRemove url colid db)

/-- The calls as a protocol; an assignment is not reported by a zero. -/
def resProtocol : Protocol ι Choice Db Int ResStage where
  allowed _ _ := True
  move := ResMove colid call
  ends _ l a := l = .assigned → a ≠ 0

variable {call}

/-- The count of a change is the end of a call that presents no tag. -/
theorem resBump_does {i : ι} {l : ResStage} (h : (call i).presents = none) :
    (resProtocol colid call).Does i l (Prog.atom (statement 3 false false true fun db => some (Sql.colUpdateCtag colid db)))
      fun l' _ => l' = .over := by
  refine Protocol.Does.atom fun e db _ => ⟨.over, ?_, rfl⟩
  rcases statement_cases 3 false false true (fun db => some (Sql.colUpdateCtag colid db)) e db
    with heq | ⟨hsome, _⟩ | ⟨db', hbump, heq⟩
  · rw [heq]
    exact .idle
  · cases hsome
  · rw [heq]
    cases hbump
    exact .bump h

theorem resNew_follows {i : ι} {data url etag : Bytes} (h : call i = .new data url etag) :
    (resProtocol colid call).Follows i .pending (dbResourceNew data url colid etag) := by
  have hnone : (call i).presents = none := by rw [h]; rfl
  rw [dbResourceNew_eq]
  refine Protocol.Does.bind (Q := fun l rc => rc > 0 ∧ l = .assigned ∨ ¬rc > 0 ∧ l = .over) ?_ ?_
  · refine Protocol.Does.atom fun e db _ => ?_
    rcases statement_cases 6 (-1 : Int) 0 1 (Sql.resInsert (cstr data) url colid etag) e db
      with heq | ⟨_, heq⟩ | ⟨db₁, hins, heq⟩
    · rw [heq]
      exact ⟨.over, .idle, .inr ⟨by simp, rfl⟩⟩
    · rw [heq]
      exact ⟨.over, .idle, .inr ⟨by simp, rfl⟩⟩
    · rw [heq]
      exact ⟨.assigned, .new h hins, .inl ⟨by simp, rfl⟩⟩
  · rintro l rc (⟨hpos, rfl⟩ | ⟨hneg, rfl⟩)
    · rw [if_pos hpos]
      refine Protocol.Does.bind (resBump_does colid hnone) fun l done hover => ?_
      subst hover
      split <;> exact Protocol.Does.ret nofun
    · rw [if_neg hneg]
      exact Protocol.Does.ret nofun

theorem resUpdate_follows {i : ι} {data url digest etag : Bytes} (h : call i = .update data url digest etag) :
    (resProtocol colid call).Follows i .pending (dbResourceUpdate C data url digest colid etag) := by
  rw [dbResourceUpdate_eq]
  intro e db _
  unfold resourceUpdate
  split
  · rcases hload : resourceLoaded C url colid e.erange db with _ | _ | res
    · exact ⟨.over, .idle, nofun⟩
    · exact ⟨.over, .idle, nofun⟩
    · obtain ⟨r, ical, q, hget, _, rfl⟩ := resourceLoaded_found C hload
      dsimp only
      split
      · exact ⟨.over, .idle, nofun⟩
      next htag =>
        split
        · unfold committed
          split
          · exact ⟨.over, .idle, nofun⟩
          · exact ⟨.assigned, .update h hget (not_not.mp htag), fun _ => Int.one_ne_zero⟩
        · exact ⟨.over, .idle, nofun⟩
  · exact ⟨.over, .idle, nofun⟩

theorem resDelete_follows {i : ι} {url tag : Bytes} (h : call i = .delete url tag) :
    (resProtocol colid call).Follows i .pending (ResCall.prog C colid (.delete url tag)) := by
  rw [ResCall.prog, dbResourceDelete_eq]
  intro e db _
  unfold resourceDelete
  split
  · cases hget : Sql.resGetEtag url colid tag db with
    | none => exact ⟨.over, .idle, nofun⟩
    | some r =>
      dsimp only
      split
      · unfold committed
        split
        · exact ⟨.over, .idle, nofun⟩
        · exact ⟨.over, .delete h (by rw [hget]; rfl), nofun⟩
      · exact ⟨.over, .idle, nofun⟩
  · exact ⟨.over, .idle, nofun⟩

theorem resRemove_follows {i : ι} {url : Bytes} (h : call i = .remove url) :
    (resProtocol colid call).Follows i .pending (ResCall.prog C colid (.remove url)) := by
  have hnone : (call i).presents = none := by rw [h]; rfl
  rw [ResCall.prog, dbResourceRemove_eq]
  refine Protocol.Does.bind (Q := fun l _ => l = .over) ?_ fun l done hover => ?_
  · refine Protocol.Does.bind (Q := fun l _ => l = .over) ?_ fun l removed hover => ?_
    · refine Protocol.Does.atom fun e db _ => ?_
      rcases statement_cases 4 false false true (fun db => some (Sql.resRemove url colid db)) e db
        with heq | ⟨hsome, _⟩ | ⟨db₁, hdrop, heq⟩
      · rw [heq]
        exact ⟨.over, .idle, rfl⟩
      · cases hsome
      · rw [heq]
        cases hdrop
        exact ⟨.over, .remove h, rfl⟩
    · subst hover
      split
      · exact resBump_does colid hnone
      · exact Protocol.Does.ret rfl
  · subst hover
    split <;> exact Protocol.Does.ret nofun

theorem resCall_follows (i : ι) : (resProtocol colid call).Follows i .pending ((call i).prog C colid) := by
  cases h : call i with
  | new data url etag => exact resNew_follows colid h
  | update data url digest etag => exact resUpdate_follows C colid h
  | delete url tag => exact resDelete_follows C colid h
  | remove url => exact resRemove_follows C colid h

/-! ## What the moves keep -/

variable {colid} {db db' : Db}

section Moves
variable {i : ι} {l l' : ResStage}

theorem ResMove.settled (h : ResMove colid call i l db l' db') : l' ≠ .pending := by
  cases h <;> nofun

theorem ResMove.keyed (hk : Keyed db) (h : ResMove colid call i l db l' db') : Keyed db' := by
  cases h with
  | idle => exact hk
  | bump _ => exact ⟨hk.unique, hk.bounded⟩
  | new _ hins => exact hk.resInsert hins
  | update _ _ _ => exact (hk.resUpdate _ _ _).fewer (fun _ => id) rfl
  | delete _ _ => exact hk.fewer (fun r hr => (mem_resRemoveEtag hr).1) rfl
  | remove _ => exact hk.fewer (fun r hr => List.mem_of_mem_filter hr) rfl

/-- An action brings in at most one row, with the tag and the data its call assigns. -/
theorem ResMove.grows (hk : Keyed db) (h : ResMove colid call i l db l' db') :
    (∀ r ∈ db'.resource, r ∈ db.resource) ∨
    (l = .pending ∧ ∃ n, n.collection = colid ∧ (call i).assigns = some (n.etag, n.data) ∧
      ∀ r ∈ db'.resource, r ∈ db.resource ∨ r = n) := by
  cases h with
  | idle => exact Or.inl fun r hr => hr
  | bump _ => exact Or.inl fun r hr => hr
  | @new data url etag _ _ hcall hins =>
    refine Or.inr ⟨rfl, ⟨colid, url, etag, cstr data, db.resourceSeq + 1⟩, rfl, by rw [hcall]; rfl, fun r hr => ?_⟩
    rw [(resInsert_eq hins).1, List.mem_append, List.mem_singleton] at hr
    exact hr
  | @update data url digest etag _ r₀ hcall hget _ =>
    obtain ⟨hr₀, hcol, _⟩ := mem_of_resGet hget
    refine Or.inr ⟨rfl, { r₀ with data := cstr data, etag := etag }, hcol, by rw [hcall]; rfl, fun r hr => ?_⟩
    exact (mem_resUpdate hk hr₀ hr).imp_left And.left
  | delete _ _ => exact Or.inl fun r hr => (mem_resRemoveEtag hr).1
  | remove _ => exact Or.inl fun r hr => List.mem_of_mem_filter hr

end Moves

/-! ## The invariant -/

variable (colid call)

/-- The tag stands for the data: they were stored together at the start or are
assigned together by a call. -/
def StandsFor (db₀ : Db) (etag data : Bytes) : Prop :=
  (∃ r ∈ db₀.resource, r.collection = colid ∧ r.etag = etag ∧ r.data = data) ∨
  ∃ i, (call i).assigns = some (etag, data)

/-- Every tag is fresh: no two calls generate one tag, none generates a stored one,
and the stored ones are different. -/
structure FreshTags (db₀ : Db) : Prop where
  calls : ∀ i j etag data data', (call i).assigns = some (etag, data) → (call j).assigns = some (etag, data') → i = j
  stored : ∀ i etag data, (call i).assigns = some (etag, data) → ∀ r ∈ db₀.resource, r.collection = colid → r.etag ≠ etag
  rows : ∀ r ∈ db₀.resource, ∀ r' ∈ db₀.resource, r.collection = colid → r'.collection = colid →
    r.etag = r'.etag → r = r'

/-- No call that may still assign a tag assigns this one. -/
def TagSpent (ls : ι → ResStage) (etag : Bytes) : Prop :=
  ∀ i, ls i = .pending → ∀ data, (call i).assigns ≠ some (etag, data)

/-- The rows of the collection have different tags, all spent, each standing for the
row's data. -/
structure ResInv (db₀ db : Db) (ls : ι → ResStage) : Prop where
  keyed : Keyed db
  tags : ∀ r ∈ db.resource, ∀ r' ∈ db.resource, r.collection = colid → r'.collection = colid → r.etag = r'.etag → r = r'
  spent : ∀ r ∈ db.resource, r.collection = colid → TagSpent call ls r.etag
  standsFor : ∀ r ∈ db.resource, r.collection = colid → StandsFor colid call db₀ r.etag r.data

variable {colid call} {db₀ : Db}

/-- A tag stands for one text only. -/
theorem FreshTags.functional (hf : FreshTags colid call db₀) {etag data data' : Bytes}
    (h : StandsFor colid call db₀ etag data) (h' : StandsFor colid call db₀ etag data') : data = data' := by
  rcases h with ⟨r, hr, hcol, rfl, rfl⟩ | ⟨i, hi⟩ <;> rcases h' with ⟨r', hr', hcol', htag, rfl⟩ | ⟨j, hj⟩
  · rw [hf.rows r hr r' hr' hcol hcol' htag.symm]
  · exact absurd rfl (hf.stored j _ _ hj r hr hcol)
  · exact absurd htag (hf.stored i _ _ hi r' hr' hcol')
  · obtain rfl := hf.calls i j _ _ _ hi hj
    exact (Prod.mk.inj (Option.some.inj (hi.symm.trans hj))).2

section Step
variable [DecidableEq ι] {ls : ι → ResStage} {i : ι} {l' : ResStage} {tag : Bytes}

theorem TagSpent.move (h : TagSpent call ls tag) (hm : ResMove colid call i (ls i) db l' db') :
    TagSpent call (Function.update ls i l') tag := by
  intro j hj
  by_cases hji : j = i
  · subst hji
    rw [Function.update_self] at hj
    exact absurd hj hm.settled
  · rw [Function.update_of_ne hji] at hj
    exact h j hj

theorem ResInv.move (hf : FreshTags colid call db₀) (h : ResInv colid call db₀ db ls)
    (hm : ResMove colid call i (ls i) db l' db') : ResInv colid call db₀ db' (Function.update ls i l') := by
  have hkeyed := hm.keyed h.keyed
  rcases hm.grows h.keyed with hold | ⟨hpending, n, hcol, hassigns, hnew⟩
  · exact ⟨hkeyed, fun r hr r' hr' => h.tags r (hold r hr) r' (hold r' hr'),
      fun r hr hc => (h.spent r (hold r hr) hc).move hm, fun r hr hc => h.standsFor r (hold r hr) hc⟩
  · have hother : ∀ r ∈ db.resource, r.collection = colid → r.etag ≠ n.etag := by
      intro r hr hc htag
      exact h.spent r hr hc i hpending n.data (htag ▸ hassigns)
    refine ⟨hkeyed, fun r hr r' hr' hc hc' htag => ?_, fun r hr hc => ?_, fun r hr hc => ?_⟩
    · rcases hnew r hr with hr | rfl <;> rcases hnew r' hr' with hr' | rfl
      · exact h.tags r hr r' hr' hc hc' htag
      · exact absurd htag (hother r hr hc)
      · exact absurd htag.symm (hother r' hr' hc')
      · rfl
    · rcases hnew r hr with hr | rfl
      · exact (h.spent r hr hc).move hm
      · intro j hj data hdata
        have hji : j ≠ i := by
          intro hji
          subst hji
          rw [Function.update_self] at hj
          exact hm.settled hj
        exact hji (hf.calls j i _ _ _ hdata hassigns)
    · rcases hnew r hr with hr | rfl
      · exact h.standsFor r hr hc
      · exact Or.inr ⟨i, hassigns⟩

/-- A spent tag that no row of the collection has. -/
def TagGone (colid : Int) (call : ι → ResCall) (tag : Bytes) (db : Db) (ls : ι → ResStage) : Prop :=
  Keyed db ∧ TagSpent call ls tag ∧ ∀ r ∈ db.resource, r.collection = colid → r.etag ≠ tag

theorem TagGone.move (h : TagGone colid call tag db ls) (hm : ResMove colid call i (ls i) db l' db') :
    TagGone colid call tag db' (Function.update ls i l') := by
  obtain ⟨hkeyed, hspent, hgone⟩ := h
  refine ⟨hm.keyed hkeyed, hspent.move hm, fun r hr hc htag => ?_⟩
  rcases hm.grows hkeyed with hold | ⟨hpending, n, _, hassigns, hnew⟩
  · exact hgone r (hold r hr) hc htag
  · rcases hnew r hr with hr | rfl
    · exact hgone r hr hc htag
    · exact hspent i hpending r.data (htag ▸ hassigns)

omit [DecidableEq ι] in
/-- A call that is conditional on a tag changes nothing where no row has the tag. -/
theorem TagGone.unchanged (h : TagGone colid call tag db ls) (hp : (call i).presents = some tag)
    (hm : ResMove colid call i (ls i) db l' db') : db' = db := by
  generalize ls i = l at hm
  cases hm with
  | idle => rfl
  | bump hnone =>
    rw [hnone] at hp
    cases hp
  | new hcall _ =>
    rw [hcall] at hp
    cases hp
  | @update _ _ _ _ _ r hcall hget htag =>
    rw [hcall] at hp
    obtain ⟨hr, hcol, _⟩ := mem_of_resGet hget
    exact absurd (htag.trans (Option.some.inj hp)) (h.2.2 r hr hcol)
  | delete hcall hget =>
    rw [hcall] at hp
    obtain ⟨r, hr⟩ := Option.isSome_iff_exists.mp hget
    obtain ⟨hmem, _, hcol, htag⟩ := mem_of_resGetEtag hr
    exact absurd (htag.trans (Option.some.inj hp)) (h.2.2 r hmem hcol)
  | remove hcall =>
    rw [hcall] at hp
    cases hp

/-- A call that is conditional on a tag and changes the store has used the tag up. -/
theorem ResInv.gone (h : ResInv colid call db₀ db ls) (hp : (call i).presents = some tag)
    (hm : ResMove colid call i (ls i) db l' db') (hne : db' ≠ db) :
    TagGone colid call tag db' (Function.update ls i l') := by
  have hkeyed := hm.keyed h.keyed
  have hspent : ∀ r ∈ db.resource, r.collection = colid → TagSpent call (Function.update ls i l') r.etag :=
    fun r hr hc => (h.spent r hr hc).move hm
  have hpending : ls i = .pending → TagSpent call ls tag → ∀ data, (call i).assigns ≠ some (tag, data) :=
    fun hl hs => hs i hl
  generalize ls i = l at hm hpending
  cases hm with
  | idle => exact absurd rfl hne
  | bump hnone =>
    rw [hnone] at hp
    cases hp
  | new hcall _ =>
    rw [hcall] at hp
    cases hp
  | @update data url digest etag _ r hcall hget htag =>
    rw [hcall] at hp
    obtain rfl : digest = tag := Option.some.inj hp
    obtain ⟨hr, hcol, _⟩ := mem_of_resGet hget
    have hused : TagSpent call ls digest := htag ▸ h.spent r hr hcol
    refine ⟨hkeyed, htag ▸ hspent r hr hcol, fun row hrow hc hrowtag => ?_⟩
    rcases mem_resUpdate h.keyed hr hrow with ⟨hold, hid⟩ | rfl
    · exact hid (congrArg ResRow.id (h.tags row hold r hr hc hcol (hrowtag.trans htag.symm)))
    · refine hpending rfl hused (cstr data) ?_
      rw [hcall, ← hrowtag]
      rfl
  | @delete url tag' _ hcall hget =>
    rw [hcall] at hp
    obtain rfl : tag' = tag := Option.some.inj hp
    obtain ⟨r, hr⟩ := Option.isSome_iff_exists.mp hget
    obtain ⟨hmem, hurl, hcol, htag⟩ := mem_of_resGetEtag hr
    refine ⟨hkeyed, htag ▸ hspent r hmem hcol, fun row hrow hc hrowtag => ?_⟩
    obtain ⟨hold, hkeep⟩ := mem_resRemoveEtag hrow
    obtain rfl := h.tags row hold r hmem hc hcol (hrowtag.trans htag.symm)
    exact hkeep ⟨hurl, hc, hrowtag⟩
  | remove hcall =>
    rw [hcall] at hp
    cases hp

end Step

section Effects
variable {i : ι} {l l' : ResStage}

/-- A row is replaced in place only by an update that presents the row's tag. -/
theorem ResMove.replaced (hk : Keyed db) (hm : ResMove colid call i l db l' db') {r r' : ResRow}
    (hr : r ∈ db.resource) (hr' : r' ∈ db'.resource) (hid : r'.id = r.id) (hne : r' ≠ r) :
    ∃ data url digest etag, call i = .update data url digest etag ∧ digest = r.etag ∧ r.collection = colid := by
  cases hm with
  | idle => exact absurd (hk.unique r' hr' r hr hid) hne
  | bump _ => exact absurd (hk.unique r' hr' r hr hid) hne
  | new _ hins =>
    rw [(resInsert_eq hins).1, List.mem_append, List.mem_singleton] at hr'
    rcases hr' with hr' | rfl
    · exact absurd (hk.unique r' hr' r hr hid) hne
    · have hle := hk.bounded r hr
      dsimp only at hid
      omega
  | @update data url digest etag _ r₀ hcall hget htag =>
    obtain ⟨hr₀, hcol, _⟩ := mem_of_resGet hget
    rcases mem_resUpdate hk hr₀ hr' with ⟨hold, _⟩ | rfl
    · exact absurd (hk.unique r' hold r hr hid) hne
    · obtain rfl := hk.unique r₀ hr₀ r hr hid
      exact ⟨data, url, digest, etag, hcall, htag.symm, hcol⟩
  | delete _ _ => exact absurd (hk.unique r' (mem_resRemoveEtag hr').1 r hr hid) hne
  | remove _ => exact absurd (hk.unique r' (List.mem_of_mem_filter hr') r hr hid) hne

/-- A creation keeps every row. -/
theorem ResMove.kept (hm : ResMove colid call i l db l' db') {data url etag : Bytes} (hcall : call i = .new data url etag)
    {r : ResRow} (hr : r ∈ db.resource) : r ∈ db'.resource := by
  cases hm with
  | idle => exact hr
  | bump _ => exact hr
  | new _ hins =>
    rw [(resInsert_eq hins).1]
    exact List.mem_append_left _ hr
  | update hcall' _ _ =>
    rw [hcall] at hcall'
    cases hcall'
  | delete hcall' _ =>
    rw [hcall] at hcall'
    cases hcall'
  | remove hcall' =>
    rw [hcall] at hcall'
    cases hcall'

/-- An update that assigns nothing changes nothing. -/
theorem ResMove.refused (hm : ResMove colid call i l db l' db') {data url digest etag : Bytes}
    (hcall : call i = .update data url digest etag) (hl' : l' ≠ .assigned) : db' = db := by
  cases hm with
  | idle => rfl
  | bump hnone =>
    rw [hcall] at hnone
    cases hnone
  | new _ _ => exact absurd rfl hl'
  | update _ _ _ => exact absurd rfl hl'
  | delete hcall' _ =>
    rw [hcall] at hcall'
    cases hcall'
  | remove hcall' =>
    rw [hcall] at hcall'
    cases hcall'

end Effects

/-! ## Runs -/

variable [DecidableEq ι]

/-- The clients at work on a database. -/
def resSys (C : Libc) (colid : Int) (call : ι → ResCall) (db : Db) : Sys ι Choice Db Int :=
  ⟨db, fun i => (call i).prog C colid⟩

/-- The invariant holds in every state that a schedule leads to. -/
theorem resInv_exec (hk : Keyed db₀) (hf : FreshTags colid call db₀) (sched : List (ι × Choice)) :
    ∃ ls, (resProtocol colid call).Tracked ls ((resSys C colid call db₀).exec sched) ∧
      ResInv colid call db₀ ((resSys C colid call db₀).exec sched).shared ls := by
  have hstart : (resProtocol colid call).Tracked (fun _ => .pending) (resSys C colid call db₀) :=
    resCall_follows C colid
  have hinv : ResInv colid call db₀ db₀ fun _ => .pending :=
    ⟨hk, hf.rows, fun r hr hc i _ data hassigns => hf.stored i r.etag data hassigns r hr hc rfl,
      fun r hr hc => Or.inl ⟨r, hr, hc, rfl, rfl⟩⟩
  have hmove : ∀ s ls i l' s', ResInv colid call db₀ s ls → ResMove colid call i (ls i) s l' s' →
      ResInv colid call db₀ s' (Function.update ls i l') := fun _ _ _ _ _ h hm => h.move hf hm
  exact Protocol.Tracked.exec hmove sched (fun _ _ => trivial) hstart hinv

/-- A tag that is gone stays gone, and calls that present it change nothing. -/
theorem tagGone_exec {S : Sys ι Choice Db Int} {ls : ι → ResStage} {tag : Bytes}
    (ht : (resProtocol colid call).Tracked ls S) (h : TagGone colid call tag S.shared ls) (between : List (ι × Choice))
    (y : ι × Choice) (hp : (call y.1).presents = some tag) :
    ((S.exec between).step y).shared = (S.exec between).shared := by
  have hmove : ∀ s ls i l' s', TagGone colid call tag s ls → ResMove colid call i (ls i) s l' s' →
      TagGone colid call tag s' (Function.update ls i l') := fun _ _ _ _ _ h hm => h.move hm
  obtain ⟨ls', ht', hgone⟩ := Protocol.Tracked.exec hmove between (fun _ _ => trivial) ht h
  rcases ht'.step y trivial with ⟨hstay, _⟩ | ⟨l', hm, _⟩
  · rw [hstay]
  · exact hgone.unchanged hp hm

/-- Under every interleaving of calls on a collection, and for each action of it: a row
is replaced in place only by an update that presents a tag under which no other data
than the row's was ever stored; once a call that presents a tag has changed the store,
no other one does; a creation keeps every row; an update that returns zero changes
nothing. -/
theorem resource_no_lost_update (C : Libc) (colid : Int) (call : ι → ResCall) (db : Db) (hkeyed : Keyed db)
    (hfresh : FreshTags colid call db) (before : List (ι × Choice)) (x : ι × Choice) (S T : Sys ι Choice Db Int)
    (hS : S = (resSys C colid call db).exec before) (hT : T = S.step x) :
    (∀ r ∈ S.shared.resource, ∀ r' ∈ T.shared.resource, r'.id = r.id → r' ≠ r →
      ∃ data url digest etag, call x.1 = .update data url digest etag ∧ digest = r.etag ∧ r.collection = colid ∧
        ∀ earlier, earlier <+: before → ∀ r₀ ∈ ((resSys C colid call db).exec earlier).shared.resource,
          r₀.collection = colid → r₀.etag = digest → r₀.data = r.data) ∧
    (∀ tag, (call x.1).presents = some tag → T.shared ≠ S.shared →
      ∀ between y, (call y.1).presents = some tag →
        ((T.exec between).step y).shared = (T.exec between).shared) ∧
    (∀ data url etag, call x.1 = .new data url etag → ∀ r ∈ S.shared.resource, r ∈ T.shared.resource) ∧
    (∀ data url digest etag, call x.1 = .update data url digest etag → S.result x = some 0 →
      T.shared = S.shared) := by
  subst hS hT
  obtain ⟨ls, ht, hinv⟩ := resInv_exec (C := C) hkeyed hfresh before
  rcases ht.step x trivial with ⟨hstay, hnone⟩ | ⟨l', hm, ht'⟩
  · rw [hstay]
    refine ⟨fun r hr r' hr' hid hne => ?_, fun _ _ hne => absurd rfl hne, fun _ _ _ _ r hr => hr, fun _ _ _ _ _ _ => rfl⟩
    exact absurd (hinv.keyed.unique r' hr' r hr hid) hne
  · refine ⟨fun r hr r' hr' hid hne => ?_, fun tag hp hne between y hy => ?_, fun data url etag hcall r hr => ?_,
      fun data url digest etag hcall hres => ?_⟩
    · obtain ⟨data, url, digest, etag, hcall, rfl, hcol⟩ := hm.replaced hinv.keyed hr hr' hid hne
      refine ⟨data, url, r.etag, etag, hcall, rfl, hcol, fun earlier _ r₀ hr₀ hc₀ htag => ?_⟩
      obtain ⟨_, _, hinv₀⟩ := resInv_exec (C := C) hkeyed hfresh earlier
      exact hfresh.functional (htag ▸ hinv₀.standsFor r₀ hr₀ hc₀) (hinv.standsFor r hr hcol)
    · exact tagGone_exec ht' (hinv.gone hp hm hne) between y hy
    · exact hm.kept hcall hr
    · refine hm.refused hcall fun hl' => ?_
      have hends := ht' x.1
      rw [Sys.proc_of_result hres, Function.update_self] at hends
      exact hends hl' rfl

/-- An update and a delete of the same version. -/
def rivals (second : Bool) : ResCall :=
  if second then .delete (ascii "a.ics") (ascii "1-1")
  else .update (ascii "BEGIN:VCALENDAR\nEND:VCALENDAR\n") (ascii "a.ics") (ascii "1-1") (ascii "2-2")

/-- The calendar they both change. -/
def Db.oneResource : Db :=
  { Db.empty with resource := [⟨1, ascii "a.ics", ascii "1-1", ascii "BEGIN:VCALENDAR\nEND:VCALENDAR\n", 1⟩], resourceSeq := 1 }

/-- After the update the delete changes nothing. -/
theorem resource_no_lost_update_rivals :
    (((((resSys .utc 1 rivals .oneResource).exec []).step (false, .calm)).exec []).step (true, .calm)).shared =
      ((((resSys .utc 1 rivals .oneResource).exec []).step (false, .calm)).exec []).shared := by
  have hkeyed : Keyed .oneResource := ⟨by decide +kernel, by decide +kernel⟩
  have hfresh : FreshTags 1 rivals .oneResource := by
    refine ⟨?_, ?_, by decide +kernel⟩
    · rintro (_ | _) (_ | _) etag data data' hi hj
      · rfl
      · cases hj
      · cases hi
      · rfl
    · rintro (_ | _) etag data hi r hr _ rfl
      · obtain rfl := List.mem_singleton.mp hr
        exact absurd (Prod.mk.inj (Option.some.inj hi)).1 (by decide +kernel)
      · cases hi
  exact (resource_no_lost_update .utc 1 rivals .oneResource hkeyed hfresh [] (false, .calm) _ _ rfl rfl).2.1
    (ascii "1-1") rfl (by decide +kernel) [] (true, .calm) rfl

end Kcaldav
