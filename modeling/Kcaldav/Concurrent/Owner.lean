import Kcaldav.Library.Trace

/-! # The owner of the database

`db_owner_check_or_set` creates the schema in a new file and enters who has done so, or
checks who has. It takes several statements, without a transaction, and any number of
processes may be at it. That there is one owner all the same rests on the script of the
schema: its first table can be created once.
-/
namespace Kcaldav
open Discipline

/-- The tables of `kcaldav.sql`. -/
inductive TableName
  | resource | collection | proxy | nonce | principal | database
  deriving DecidableEq, Repr

/-- The tables in the order of the script. -/
def db_sql : List TableName := [.resource, .collection, .proxy, .nonce, .principal, .database]

/-- What has been created of a file, and the rows that name an owner. -/
structure DbFile where
  tables : List TableName
  owners : List Int
  deriving DecidableEq, Repr

namespace DbFile

/-- Prepare a statement on the table of owners, which fails where there is none. -/
def prepare (fails : Bool) (f : DbFile) : Bool × DbFile := (!fails && .database ∈ f.tables, f)

/-- Step through the owners for the first one. -/
def ownerGet (fails : Bool) (f : DbFile) : Option Int × DbFile := (if fails then none else f.owners.head?, f)

/-- A statement of the script that sets a `PRAGMA`. -/
def pragma (fails : Bool) (f : DbFile) : Bool × DbFile := (!fails, f)

/-- Create a table, which fails where there is one of its name. -/
def create (t : TableName) (fails : Bool) (f : DbFile) : Bool × DbFile :=
  if fails || t ∈ f.tables then (false, f) else (true, { f with tables := f.tables ++ [t] })

def bindint (fails : Bool) (f : DbFile) : Bool × DbFile := (!fails, f)

def ownerInsert (id : Int) (fails : Bool) (f : DbFile) : Bool × DbFile :=
  if fails then (false, f) else (true, { f with owners := f.owners ++ [id] })

end DbFile

/-- A program on the file; of every statement it is left open whether it fails. A script
that finds the file busy is run again from its start, and fails at the first table where
it has got that far. -/
abbrev FileProg (α : Type) := Prog Bool DbFile α

def createTables : List TableName → FileProg Bool
  | [] => return true
  | t :: ts => do
    if ← Prog.atom (DbFile.create t) then createTables ts else return false

/-- Run the script of the schema. -/
def dbExecSchema : FileProg Bool := do
  if ← Prog.atom DbFile.pragma then
    if ← Prog.atom DbFile.pragma then createTables db_sql else return false
  else return false

def dbOwnerCheckOrSet (id : Int) : FileProg Int := do
  if ← Prog.atom DbFile.prepare then
    match ← Prog.atom DbFile.ownerGet with
    | none => return -1
    | some oid => return if id = 0 ∨ oid = id then 1 else 0
  else if ← dbExecSchema then
    if ← Prog.atom DbFile.prepare then
      if ← Prog.atom DbFile.bindint then
        if ← Prog.atom (DbFile.ownerInsert id) then return 1 else return -1
      else return -1
    else return -1
  else return -1

/-! ## What a process leaves -/

/-- The first table is created, or an owner is entered. -/
inductive OwnerEvent
  | create
  | insert (id : Int)
  deriving DecidableEq

/-- Tables and owners stay; the first table is new when it is created. -/
def OwnerMoves (w : Option OwnerEvent) (f f' : DbFile) : Prop :=
  (∀ t ∈ f.tables, t ∈ f'.tables) ∧
    match w with
    | none => f'.owners = f.owners
    | some .create => .resource ∉ f.tables ∧ .resource ∈ f'.tables ∧ f'.owners = f.owners
    | some (.insert id) => f'.owners = f.owners ++ [id]

def ownerDiscipline : Discipline Bool DbFile OwnerEvent where
  allowed _ := True
  assume _ := True
  inv _ := True
  step := OwnerMoves
  step_refl _ := ⟨fun _ h => h, rfl⟩
  inv_step _ _ := trivial

/-- A process enters an owner only if it has created the first table. -/
def OwnerAsks (tr : List OwnerEvent) : Prop := tr = [] ∨ tr = [.create] ∨ ∃ id, tr = [.create, .insert id]

/-- Where a process succeeds, its user is the owner or the superuser. -/
def OwnerAnswers (id : Int) (P : DbFile → Prop) (rc : Int) : Prop := 0 < rc → id = 0 ∨ ∀ f, P f → id ∈ f.owners

theorem owner_stable (id : Int) : ownerDiscipline.Stable fun f => id ∈ f.owners := by
  rintro w f f' - ⟨-, hmove⟩ hid
  cases w with
  | none =>
    rw [show f'.owners = f.owners from hmove]
    exact hid
  | some w =>
    cases w with
    | create =>
      obtain ⟨-, -, howners⟩ := hmove
      rwa [howners]
    | insert id' =>
      rw [show f'.owners = f.owners ++ [id'] from hmove]
      exact List.mem_append_left _ hid

variable {P : DbFile → Prop} {tr : List OwnerEvent}

/-- An action that leaves the file as it is. -/
theorem look_traces {α : Type} {f : Bool → DbFile → α × DbFile} (hf : ∀ e s, (f e s).2 = s) (htr : OwnerAsks tr)
    (hP : ownerDiscipline.Stable P) : ownerDiscipline.Traces OwnerAsks tr P (.atom f) fun tr' P' _ => tr' = tr ∧ P' = P :=
  .quiet htr hP (fun e s _ _ _ _ => by rw [hf]; exact ownerDiscipline.step_refl s) fun _ => ⟨rfl, rfl⟩

/-- Further tables are no event. -/
theorem createTables_traces (ts : List TableName) (htr : OwnerAsks tr) (hP : ownerDiscipline.Stable P)
    (hts : .resource ∉ ts) : ownerDiscipline.Traces OwnerAsks tr P (createTables ts) fun tr' _ _ => tr' = tr := by
  induction ts generalizing P with
  | nil => exact .ret rfl
  | cons t ts ih =>
    have hcreate : ownerDiscipline.Traces OwnerAsks tr P (.atom (DbFile.create t)) fun tr' _ _ => tr' = tr := by
      refine .quiet htr hP (fun e s _ _ _ _ => ?_) fun _ => rfl
      unfold DbFile.create
      split
      · exact ownerDiscipline.step_refl s
      · exact ⟨fun t' ht' => List.mem_append_left _ ht', rfl⟩
    refine .bind htr hP hcreate ?_
    rintro tr' P' done - hP' rfl
    exact .ite (fun _ => ih hP' fun h => hts (List.mem_cons_of_mem t h)) fun _ => .ret rfl

/-- The script is at most one event, and is done only with it. -/
theorem dbExecSchema_traces (hP : ownerDiscipline.Stable P) : ownerDiscipline.Traces OwnerAsks [] P dbExecSchema
    fun tr' _ done => (done = true ∧ tr' = [.create]) ∨ (done = false ∧ OwnerAsks tr') := by
  have hnone : OwnerAsks [] := Or.inl rfl
  have hfail {tr : List OwnerEvent} {P : DbFile → Prop} (htr : OwnerAsks tr) : ownerDiscipline.Traces OwnerAsks tr P (Prog.ret false)
      fun tr' _ done => (done = true ∧ tr' = [.create]) ∨ (done = false ∧ OwnerAsks tr') := .ret (Or.inr ⟨rfl, htr⟩)
  refine .bind hnone hP (look_traces (fun _ _ => rfl) hnone hP) ?_
  rintro tr' P' _ - hP' ⟨rfl, -⟩
  refine .ite (fun _ => ?_) fun _ => hfail hnone
  refine .bind hnone hP' (look_traces (fun _ _ => rfl) hnone hP') ?_
  rintro tr' P'' _ - hP'' ⟨rfl, -⟩
  refine .ite (fun _ => ?_) fun _ => hfail hnone
  -- the first table decides
  have hfirst : ownerDiscipline.Traces OwnerAsks [] P'' (.atom (DbFile.create .resource))
      fun tr' _ done => (done = true ∧ tr' = [.create]) ∨ (done = false ∧ tr' = []) := by
    refine .visible hnone hP'' fun e s _ _ _ _ => ?_
    unfold DbFile.create
    split
    next => exact Or.inl ⟨ownerDiscipline.step_refl s, Or.inr ⟨rfl, rfl⟩⟩
    next hnew =>
      rw [Bool.or_eq_true, not_or, decide_eq_true_eq] at hnew
      refine Or.inr ⟨.create, ⟨fun t ht => List.mem_append_left _ ht, hnew.2, ?_, rfl⟩, Or.inr (Or.inl rfl), Or.inl ⟨rfl, rfl⟩⟩
      exact List.mem_append_right _ (List.mem_singleton_self _)
  refine .bind hnone hP'' hfirst ?_
  rintro tr' P₃ done htr' hP₃ (⟨rfl, rfl⟩ | ⟨rfl, rfl⟩)
  · refine (createTables_traces _ htr' hP₃ (by decide)).post ?_
    rintro tr'' P₄ done rfl
    cases done with
    | true => exact Or.inl ⟨rfl, rfl⟩
    | false => exact Or.inr ⟨rfl, htr'⟩
  · exact hfail hnone

theorem dbOwnerCheckOrSet_traces (id : Int) : ownerDiscipline.Traces OwnerAsks [] (fun _ => True) (dbOwnerCheckOrSet id)
    fun _ P rc => OwnerAnswers id P rc := by
  have hnone : OwnerAsks [] := Or.inl rfl
  have hfail {tr : List OwnerEvent} {P : DbFile → Prop} {rc : Int} (hrc : rc ≤ 0) : ownerDiscipline.Traces OwnerAsks tr P (Prog.ret rc)
      fun _ P rc => OwnerAnswers id P rc := .ret fun h => absurd h (Int.not_lt.mpr hrc)
  refine .bind hnone .unit (look_traces (fun _ _ => rfl) hnone .unit) ?_
  rintro tr P prepared - hP ⟨rfl, -⟩
  refine .ite (fun _ => ?_) fun _ => ?_
  -- there is a schema: the owner is looked up
  · refine .bind hnone hP (.silent hnone hP (F := fun oid f => ∀ x, oid = some x → x ∈ f.owners) (fun oid => ?_)
      (fun e s _ _ _ _ => ⟨ownerDiscipline.step_refl s, ?_⟩) (Q := fun tr' P' oid => ∀ f, P' f → ∀ x, oid = some x → x ∈ f.owners)
      fun oid f hf => hf.2) ?_
    · exact .all fun x => .imp fun _ => owner_stable x
    · intro x hx
      unfold DbFile.ownerGet at hx
      dsimp only at hx
      split at hx
      · cases hx
      · exact List.mem_of_head? hx
    · rintro tr' P' (_ | oid) - - hfact
      · exact hfail (by decide)
      · refine .ret fun hpos => ?_
        split at hpos
        next hid =>
          rcases hid with hroot | rfl
          · exact Or.inl hroot
          · exact Or.inr fun f hf => hfact f hf oid rfl
        next => cases hpos
  -- there is none, and it is created
  · refine .bind hnone hP (dbExecSchema_traces hP) ?_
    rintro tr P' done htr hP' (⟨rfl, rfl⟩ | ⟨rfl, -⟩)
    · refine .bind htr hP' (look_traces (fun _ _ => rfl) htr hP') ?_
      rintro tr' P'' prepared - hP'' ⟨rfl, -⟩
      refine .ite (fun _ => ?_) fun _ => hfail (by decide)
      refine .bind htr hP'' (look_traces (fun _ _ => rfl) htr hP'') ?_
      rintro tr' P₃ bound - hP₃ ⟨rfl, -⟩
      refine .ite (fun _ => ?_) fun _ => hfail (by decide)
      refine .bind htr hP₃ (.atom (Q := fun _ P done => done = true → ∀ f, P f → id ∈ f.owners) fun e s _ _ _ _ => ?_) ?_
      · cases e with
        | true =>
          refine ⟨none, fun _ => True, ownerDiscipline.step_refl s, .unit, trivial, ?_, nofun⟩
          rwa [Option.toList_none, List.append_nil]
        | false =>
          refine ⟨some (.insert id), fun f => id ∈ f.owners, ⟨fun _ h => h, rfl⟩, owner_stable id, ?_, ?_, fun _ f hf => hf⟩
          · exact List.mem_append_right _ (List.mem_singleton_self id)
          · exact Or.inr (Or.inr ⟨id, rfl⟩)
      · rintro tr' P₄ done - - hdone
        exact .ite (fun h => .ret fun _ => Or.inr (hdone h)) fun _ => hfail (by decide)
    · exact hfail (by decide)

/-! ## Any number of processes -/

section Processes
variable {ι : Type} [DecidableEq ι]

/-- What is known of processes that check or set the owner of a file. -/
structure OwnerRun (S : Sys ι Bool DbFile Int) (sched : List (ι × Bool)) (mark : ℕ → Option OwnerEvent) : Prop where
  moves : ∀ n x, sched[n]? = some x → OwnerMoves (mark n) (S.exec (sched.take n)).shared (S.exec (sched.take (n + 1))).shared
  asks : ∀ n ≤ sched.length, ∀ i, OwnerAsks (marksOf sched mark i n)

namespace OwnerRun
variable {S : Sys ι Bool DbFile Int} {sched : List (ι × Bool)} {mark : ℕ → Option OwnerEvent} (h : OwnerRun S sched mark) {m n : ℕ}
include h

theorem tables (hmn : m ≤ n) (hn : n ≤ sched.length) {t : TableName} (ht : t ∈ (S.exec (sched.take m)).shared.tables) :
    t ∈ (S.exec (sched.take n)).shared.tables := by
  induction hmn with
  | refl => exact ht
  | @step n hmn ih => exact (h.moves n _ (List.getElem?_eq_getElem hn)).1 t (ih (Nat.le_of_succ_le hn))

/-- The first table is created when it is not there. -/
theorem not_created (hn : n < sched.length) (hcreate : mark n = some .create) : .resource ∉ (S.exec (sched.take n)).shared.tables := by
  have hmove := h.moves n _ (List.getElem?_eq_getElem hn)
  rw [hcreate] at hmove
  exact hmove.2.1

theorem created (hn : n < sched.length) (hcreate : mark n = some .create) : .resource ∈ (S.exec (sched.take (n + 1))).shared.tables := by
  have hmove := h.moves n _ (List.getElem?_eq_getElem hn)
  rw [hcreate] at hmove
  exact hmove.2.2.1

theorem create_once (hm : m < sched.length) (hn : n < sched.length) (hcreate : mark m = some .create) (hcreate' : mark n = some .create) :
    m = n := by
  have hnot {m n : ℕ} (hm : m < sched.length) (hn : n < sched.length) (hcreate : mark m = some .create) (hcreate' : mark n = some .create) :
      ¬m < n := fun hlt => h.not_created hn hcreate' (h.tables hlt (Nat.le_of_lt hn) (h.created hm hcreate))
  have hmn := hnot hm hn hcreate hcreate'
  have hnm := hnot hn hm hcreate' hcreate
  omega

/-- Who enters an owner has created the first table. -/
theorem creator {i : ι} {e : Bool} {id : Int} (hn : sched[n]? = some (i, e)) (hinsert : mark n = some (.insert id)) :
    ∃ k < n, mark k = some .create ∧ ∃ e, sched[k]? = some (i, e) := by
  have hlen : n < sched.length := (List.getElem?_eq_some_iff.mp hn).1
  have hmem : .insert id ∈ marksOf sched mark i (n + 1) := mem_marksOf.mpr ⟨n, Nat.lt_succ_self n, ⟨e, hn⟩, hinsert⟩
  have hfirst : .create ∈ marksOf sched mark i (n + 1) := by
    rcases h.asks (n + 1) hlen i with hnil | hone | ⟨id', hboth⟩
    · rw [hnil] at hmem
      cases hmem
    · rw [hone]
      exact List.mem_cons_self
    · rw [hboth]
      exact List.mem_cons_self
  obtain ⟨k, hk, hacts, hcreate⟩ := mem_marksOf.mp hfirst
  refine ⟨k, Nat.lt_of_le_of_ne (Nat.le_of_lt_succ hk) ?_, hcreate, hacts⟩
  rintro rfl
  rw [hcreate] at hinsert
  cases hinsert

theorem insert_once {i j : ι} {e e' : Bool} {id id' : Int} (hm : sched[m]? = some (i, e)) (hn : sched[n]? = some (j, e'))
    (hinsert : mark m = some (.insert id)) (hinsert' : mark n = some (.insert id')) : m = n := by
  -- both have created the first table, so both are one process
  obtain ⟨k, -, hcreate, ⟨c, hacts⟩⟩ := h.creator hm hinsert
  obtain ⟨k', -, hcreate', ⟨c', hacts'⟩⟩ := h.creator hn hinsert'
  obtain rfl := h.create_once (List.getElem?_eq_some_iff.mp hacts).1 (List.getElem?_eq_some_iff.mp hacts').1 hcreate hcreate'
  obtain rfl : i = j := congrArg Prod.fst (Option.some.inj (hacts.symm.trans hacts'))
  have honce : Once (fun w => ∃ id, w = .insert id) (marksOf sched mark i sched.length) := by
    rcases h.asks _ (Nat.le_refl _) i with hnil | hone | ⟨id, hboth⟩
    · rw [hnil]
      exact .nil
    · rw [hone]
      exact .singleton _ _
    · rw [hboth]
      exact (Once.singleton _ _).cons_of_not (by simp)
  exact eq_of_once honce (List.getElem?_eq_some_iff.mp hm).1 (List.getElem?_eq_some_iff.mp hn).1 hm hn hinsert hinsert'
    ⟨id, rfl⟩ ⟨id', rfl⟩

end OwnerRun

end Processes

/-- There is one owner at most, and none in a file without tables. -/
structure DbFile.Owned (f : DbFile) : Prop where
  one : f.owners.length ≤ 1
  made : f.owners ≠ [] → .resource ∈ f.tables

/-- There is one owner at most at any time, who was there before or has been entered. -/
theorem OwnerRun.owned {ι : Type} [DecidableEq ι] {S : Sys ι Bool DbFile Int} {sched : List (ι × Bool)} {mark : ℕ → Option OwnerEvent}
    (h : OwnerRun S sched mark) (hf : S.shared.Owned) {n : ℕ} (hn : n ≤ sched.length) : (S.exec (sched.take n)).shared.Owned ∧
      ((S.exec (sched.take n)).shared.owners ≠ [] → .resource ∈ S.shared.tables ∨ ∃ m < n, ∃ id, mark m = some (.insert id)) := by
  induction n with
  | zero => exact ⟨hf, fun hsome => Or.inl (hf.made hsome)⟩
  | succ n ih =>
    obtain ⟨⟨hone, hmade⟩, hwhence⟩ := ih (Nat.le_of_succ_le hn)
    have hacts := List.getElem?_eq_getElem (show n < sched.length from hn)
    obtain ⟨htables, hmove⟩ := h.moves n _ hacts
    have hsame (howners : (S.exec (sched.take (n + 1))).shared.owners = (S.exec (sched.take n)).shared.owners) :
        (S.exec (sched.take (n + 1))).shared.Owned ∧ ((S.exec (sched.take (n + 1))).shared.owners ≠ [] →
          .resource ∈ S.shared.tables ∨ ∃ m < n + 1, ∃ id, mark m = some (.insert id)) := by
      rw [howners]
      refine ⟨⟨howners ▸ hone, fun hsome => htables _ (hmade (howners ▸ hsome))⟩, fun hsome => ?_⟩
      exact (hwhence hsome).imp_right fun ⟨m, hm, hinsert⟩ => ⟨m, Nat.lt_succ_of_lt hm, hinsert⟩
    cases hw : mark n with
    | none =>
      rw [hw] at hmove
      exact hsame hmove
    | some w =>
      rw [hw] at hmove
      cases w with
      | create => exact hsame hmove.2.2
      | insert id =>
        have howners : (S.exec (sched.take (n + 1))).shared.owners = (S.exec (sched.take n)).shared.owners ++ [id] := hmove
        obtain ⟨k, hkn, hcreate, -⟩ := h.creator hacts hw
        have hk : k < sched.length := Nat.lt_of_lt_of_le hkn (Nat.le_of_succ_le hn)
        have hnew : .resource ∉ S.shared.tables := fun hold =>
          h.not_created hk hcreate (h.tables (m := 0) (Nat.zero_le k) (Nat.le_of_lt hk) hold)
        have hnone : (S.exec (sched.take n)).shared.owners = [] := by
          by_contra hsome
          rcases hwhence hsome with hold | ⟨m, hm, id', hinsert⟩
          · exact hnew hold
          · have hsched : m < sched.length := by omega
            have heq := h.insert_once (List.getElem?_eq_getElem hsched) hacts hinsert hw
            omega
        rw [hnone, List.nil_append] at howners
        have htable := h.tables (Nat.succ_le_succ (Nat.le_of_lt hkn)) hn (h.created hk hcreate)
        exact ⟨⟨by simp [howners], fun _ => htable⟩, fun _ => Or.inr ⟨n, Nat.lt_succ_self n, id, hw⟩⟩

/-- Processes that check or set the owner of one file. -/
def ownerSys {ι : Type} (ids : ι → Int) (f : DbFile) : Sys ι Bool DbFile Int where
  shared := f
  proc i := dbOwnerCheckOrSet (ids i)

/-- However processes that check or set the owner are interleaved, and whatever fails, there
is one owner at most, and all that succeed are its, but for the superuser's. -/
theorem owner_agreement {ι : Type} [DecidableEq ι] (ids : ι → Int) (f : DbFile) (hf : f.Owned) (sched : List (ι × Bool)) :
    ((ownerSys ids f).exec sched).shared.Owned ∧
    ∀ i rc, ((ownerSys ids f).exec sched).proc i = .ret rc → 0 < rc → ids i ≠ 0 →
      ((ownerSys ids f).exec sched).shared.owners = [ids i] := by
  have htracked : ownerDiscipline.Tracked (fun _ => OwnerAsks) (fun i _ P rc => OwnerAnswers (ids i) P rc) (fun _ : ι => [])
      (fun _ _ => True) (ownerSys ids f) :=
    ⟨trivial, fun i => ⟨.unit, trivial, Or.inl rfl, dbOwnerCheckOrSet_traces (ids i)⟩⟩
  obtain ⟨mark, hmark, hend⟩ := htracked.marks sched (fun _ _ => trivial) fun _ => trivial
  have hrun : OwnerRun (ownerSys ids f) sched mark := by
    refine ⟨fun n x hn => (hmark n x hn).1, fun n hn i => ?_⟩
    obtain ⟨P, h⟩ := hend n hn
    exact (h.follows i).accepted
  obtain ⟨P, hlast⟩ := hend sched.length (Nat.le_refl _)
  have howned := (hrun.owned hf (n := sched.length) (Nat.le_refl _)).1
  rw [List.take_length] at hlast howned
  refine ⟨howned, fun i rc hi hpos hid => ?_⟩
  have hmem : ids i ∈ ((ownerSys ids f).exec sched).shared.owners :=
    (hlast.ended hi hpos).resolve_left hid _ (hlast.follows i).holds
  obtain ⟨x, hx⟩ := List.length_eq_one_iff.mp (Nat.le_antisymm howned.one (List.length_pos_of_mem hmem))
  rw [hx] at hmem ⊢
  rw [List.mem_singleton.mp hmem]

/-- A file that is new. -/
def DbFile.new : DbFile := ⟨[], []⟩

/-- Two users at a new file: the first makes it, and the second comes before it is done. -/
def twoUsers : List (Bool × Bool) :=
  List.replicate 5 (true, false) ++ List.replicate 4 (false, false) ++ List.replicate 7 (true, false)

theorem owner_agreement_two : ((ownerSys (fun b : Bool => if b then 1000 else 1001) .new).exec twoUsers).shared.owners = [1000] :=
  (owner_agreement (fun b : Bool => if b then 1000 else 1001) .new ⟨by decide, by decide⟩ twoUsers).2 true 1
    (Prog.value_eq_some.mp (by decide +kernel)) (by decide) (by decide)

end Kcaldav
