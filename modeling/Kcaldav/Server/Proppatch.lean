import Kcaldav.Server.Valid

/-! # What a property update leaves

The loop of `method_proppatch` over the properties of the request, with its branch that
aborts, and the row of the collection after the update.
-/
namespace Kcaldav
open CString Markup

/-! ## The loop -/

/-- The property is one that can be set, and its value is not invalid. -/
def settable (prop : CalProp) : Bool := accepted prop.key && decide (0 ≤ prop.valid)

/-- The switch over the properties that can be set; nothing where it aborts. -/
def proppatchSwitch (cfg : Coln) (prop : CalProp) : Option Coln :=
  match prop.key with
  | .displayname => some { cfg with displayname := prop.val }
  | .calendarColor => some { cfg with colour := prop.val }
  | .calendarDescription => some { cfg with description := prop.val }
  | _ => none

/-- The loop over the properties, which also counts those that are set. -/
def proppatchLoop : List CalProp → Coln → Nat → Option (Coln × Nat)
  | [], cfg, df => some (cfg, df)
  | prop :: props, cfg, df =>
    if !accepted prop.key then proppatchLoop props cfg df
    else if prop.valid < 0 then proppatchLoop props cfg df
    else (proppatchSwitch cfg prop).bind fun cfg => proppatchLoop props cfg (df + 1)

theorem proppatchSet_of_not_settable {prop : CalProp} (h : ¬settable prop) (cfg : Coln) : proppatchSet cfg prop = cfg := by
  unfold settable at h
  unfold proppatchSet
  split
  · rfl
  next hvalid =>
    have hkey : accepted prop.key = false := by simpa [not_lt.mp hvalid] using h
    cases hk : prop.key <;> rw [hk] at hkey <;> first | rfl | cases hkey

theorem proppatchSwitch_eq {prop : CalProp} (h : settable prop) (cfg : Coln) :
    proppatchSwitch cfg prop = some (proppatchSet cfg prop) := by
  obtain ⟨hkey, hvalid⟩ := Bool.and_eq_true_iff.mp h
  have hnonneg : ¬prop.valid < 0 := not_lt.mpr (of_decide_eq_true hvalid)
  unfold proppatchSwitch proppatchSet
  rw [if_neg hnonneg]
  cases hk : prop.key <;> rw [hk] at hkey <;> first | rfl | cases hkey

/-- The loop never aborts. -/
theorem proppatchLoop_eq (props : List CalProp) (cfg : Coln) (df : Nat) :
    proppatchLoop props cfg df = some (props.foldl proppatchSet cfg, df + (props.filter settable).length) := by
  induction props generalizing cfg df with
  | nil => rfl
  | cons prop props ih =>
    rw [proppatchLoop, List.foldl_cons]
    by_cases hset : settable prop
    · obtain ⟨hkey, hvalid⟩ := Bool.and_eq_true_iff.mp hset
      have hnonneg : ¬prop.valid < 0 := not_lt.mpr (of_decide_eq_true hvalid)
      rw [hkey, if_neg (by decide), if_neg hnonneg, proppatchSwitch_eq hset, Option.bind_some, ih, List.filter_cons_of_pos hset,
        List.length_cons, Nat.add_right_comm, Nat.add_assoc]
    · rw [proppatchSet_of_not_settable hset, List.filter_cons_of_neg hset, ← ih]
      split
      · rfl
      next hkey =>
        have haccepted : accepted prop.key = true := by simpa using hkey
        have hinvalid : prop.valid < 0 := by simpa [settable, haccepted] using hset
        rw [if_pos hinvalid]

/-! ## The last values -/

/-- A field that some steps of a loop set has the value of the last of them. -/
theorem foldl_last {α β γ : Type} (f : α → β → α) (g : α → γ) (p : β → Bool) (v : β → γ)
    (h : ∀ a b, g (f a b) = if p b then v b else g a) (bs : List β) (a : α) :
    g (bs.foldl f a) = ((bs.filter p).getLast?.map v).getD (g a) := by
  induction bs generalizing a with
  | nil => rfl
  | cons b bs ih =>
    rw [List.foldl_cons, ih, h]
    by_cases hb : p b
    · rw [if_pos hb, List.filter_cons_of_pos hb, List.getLast?_cons]
      cases (bs.filter p).getLast? <;> rfl
    · rw [if_neg hb, List.filter_cons_of_neg hb]

/-- The property has the key and a value that is not invalid. -/
def setsKey (key : CalPropType) (prop : CalProp) : Bool := decide (prop.key = key) && decide (0 ≤ prop.valid)

/-- The value of the last property with the key and a value that is not invalid. -/
def lastVal (key : CalPropType) (props : List CalProp) : Option Bytes :=
  (props.filter (setsKey key)).getLast?.bind CalProp.val

/-- What a row is to be after the update. -/
def patched (props : List CalProp) (row : ColRow) : ColRow :=
  { row with
    displayname := (lastVal .displayname props).getD row.displayname
    colour := (lastVal .calendarColor props).getD row.colour
    description := (lastVal .calendarDescription props).getD row.description
    ctag := if props.any settable then row.ctag + 1 else row.ctag }

/-- What can be set has a value. -/
def HasVals (props : List CalProp) : Prop := ∀ prop ∈ props, settable prop → prop.val.isSome

theorem setsKey_settable {key : CalPropType} (hkey : accepted key) {prop : CalProp} (h : setsKey key prop) : settable prop := by
  obtain ⟨hk, hvalid⟩ := Bool.and_eq_true_iff.mp h
  unfold settable
  rw [of_decide_eq_true hk, hkey, hvalid]
  rfl

section
variable {g : Coln → Option Bytes} {key : CalPropType}

/-- The field of a key after the loop. -/
theorem foldl_proppatchSet_last (hkey : accepted key)
    (hset : ∀ cfg prop, g (proppatchSet cfg prop) = if setsKey key prop then prop.val else g cfg) {props : List CalProp}
    (hval : HasVals props) {cfg : Coln} {old : Bytes} (hold : g cfg = some old) :
    g (props.foldl proppatchSet cfg) = some ((lastVal key props).getD old) := by
  rw [foldl_last proppatchSet g (setsKey key) CalProp.val hset, hold]
  unfold lastVal
  cases hlast : (props.filter (setsKey key)).getLast? with
  | none => rfl
  | some prop =>
    obtain ⟨hprop, hsets⟩ := List.mem_filter.mp (List.mem_of_getLast? hlast)
    obtain ⟨v, hv⟩ := Option.isSome_iff_exists.mp (hval prop hprop (setsKey_settable hkey hsets))
    rw [Option.map_some, Option.getD_some, Option.bind_some, hv, Option.getD_some]

end

theorem displayname_proppatchSet (cfg : Coln) (prop : CalProp) :
    (proppatchSet cfg prop).displayname = if setsKey .displayname prop then prop.val else cfg.displayname := by
  unfold proppatchSet setsKey
  by_cases hvalid : prop.valid < 0
  · simp [hvalid, not_le.mpr hvalid]
  · cases hk : prop.key <;> simp [hvalid, not_lt.mp hvalid]

theorem colour_proppatchSet (cfg : Coln) (prop : CalProp) :
    (proppatchSet cfg prop).colour = if setsKey .calendarColor prop then prop.val else cfg.colour := by
  unfold proppatchSet setsKey
  by_cases hvalid : prop.valid < 0
  · simp [hvalid, not_le.mpr hvalid]
  · cases hk : prop.key <;> simp [hvalid, not_lt.mp hvalid]

theorem description_proppatchSet (cfg : Coln) (prop : CalProp) :
    (proppatchSet cfg prop).description = if setsKey .calendarDescription prop then prop.val else cfg.description := by
  unfold proppatchSet setsKey
  by_cases hvalid : prop.valid < 0
  · simp [hvalid, not_le.mpr hvalid]
  · cases hk : prop.key <;> simp [hvalid, not_lt.mp hvalid]

/-! ## The row -/

theorem hasVals_of_caldavOf {expat : Bytes → Option (List (Event Bytes UInt8))} {body : Bytes} {dav : Caldav}
    (h : caldavOf expat body = some dav) (htype : dav.type = .propertyupdate) : HasVals dav.props := by
  intro prop hprop hset
  obtain ⟨name, key, cp, rfl⟩ := caldavOf_entered h hprop
  rw [htype] at hset ⊢
  have hkey : key ≠ .max := by
    rintro rfl
    cases hset
  rw [propEntry_val hkey]
  rfl

theorem caldavParse_of_req2caldav {caldavParse : Bytes → Option Caldav} {r : Kreq} {dav : Caldav}
    (h : req2caldav caldavParse r = .ok dav) : ∃ body, caldavParse body = some dav := by
  unfold req2caldav at h
  split at h
  · cases h
  next body _ =>
    split at h
    · cases h
    · split at h
      · cases h
      next hparse =>
        cases h
        exact ⟨body.val, hparse⟩

/-- Without a property that can be set nothing changes. -/
theorem patched_of_none {props : List CalProp} (h : ¬props.any settable) (row : ColRow) : patched props row = row := by
  have hnone {key : CalPropType} (hkey : accepted key) : lastVal key props = none := by
    have hempty : props.filter (setsKey key) = [] := by
      apply List.filter_eq_nil_iff.mpr
      exact fun prop hprop hsets => h (List.any_eq_true.mpr ⟨prop, hprop, setsKey_settable hkey hsets⟩)
    unfold lastVal
    rw [hempty]
    rfl
  unfold patched
  rw [hnone rfl, hnone rfl, hnone rfl, if_neg h]
  rfl

/-- The fields of the row that is written. -/
theorem foldl_proppatchSet_fields {props : List CalProp} (hval : HasVals props) (row : ColRow) :
    (props.foldl proppatchSet row.coln).displayname = some (patched props row).displayname ∧
    (props.foldl proppatchSet row.coln).colour = some (patched props row).colour ∧
    (props.foldl proppatchSet row.coln).description = some (patched props row).description :=
  ⟨foldl_proppatchSet_last (g := Coln.displayname) rfl displayname_proppatchSet hval rfl,
    foldl_proppatchSet_last (g := Coln.colour) rfl colour_proppatchSet hval rfl,
    foldl_proppatchSet_last (g := Coln.description) rfl description_proppatchSet hval rfl⟩

/-- The database after the update of a row. -/
def Db.patch (props : List CalProp) (row : ColRow) (db : Db) : Db :=
  { db with collection := db.collection.map fun c => if c = row then patched props row else c }

theorem patch_of_none {props : List CalProp} (h : ¬props.any settable) (row : ColRow) (db : Db) : db.patch props row = db := by
  unfold Db.patch
  have hsame : (fun c : ColRow => if c = row then patched props row else c) = id := by
    funext c
    rw [patched_of_none h]
    exact ite_eq_right_iff.mpr Eq.symm
  rw [hsame, List.map_id]

/-- The two statements of the update at the rows of a table. -/
theorem map_bump_setTexts {props : List CalProp} (hany : props.any settable) {row : ColRow} {rows : List ColRow} (hrow : row ∈ rows)
    (hkeyed : ∀ c ∈ rows, ∀ c' ∈ rows, c.id = c'.id → c = c') :
    (rows.map (ColRow.setTexts row.id (patched props row).displayname (patched props row).colour (patched props row).description)).map
        (ColRow.bump row.id) =
      rows.map fun c => if c = row then patched props row else c := by
  rw [List.map_map]
  apply List.map_congr_left
  intro c hc
  unfold ColRow.bump ColRow.setTexts
  by_cases h : c.id = row.id
  · obtain rfl : c = row := hkeyed c hc row hrow h
    simp [patched, hany]
  · have hne : c ≠ row := by
      rintro rfl
      exact h rfl
    simp [h, hne]

/-- Both statements of the update, where they succeed. -/
theorem dbCollectionUpdate_patch {props : List CalProp} (hval : HasVals props) (hany : props.any settable) {row : ColRow} {db : Db}
    (hrow : row ∈ db.collection) (hkeyed : ColKeyed db) {cs : ℕ → Choice} (hquiet : ∀ i n, (cs i).quiet n) :
    ((dbCollectionUpdate (props.foldl proppatchSet row.coln)).run cs db).2.1 = db.patch props row := by
  obtain ⟨hname, hcolour, hdescription⟩ := foldl_proppatchSet_fields hval row
  have hid : (props.foldl proppatchSet row.coln).id = row.id := foldl_proppatchSet_id props row.coln
  rw [dbCollectionUpdate_run, if_pos (hquiet 0 6), hname, hcolour, hdescription, hid]
  dsimp only [Sql.colUpdate]
  rw [if_pos (hquiet 1 3)]
  exact congrArg (fun rows => { db with collection := rows }) (map_bump_setTexts hany hrow hkeyed)

/-! ## The request -/

/-- A property update makes of a row what the last settings of its request say. The loop over
the properties does not abort, and what it leaves to write has all its fields. -/
theorem methodProppatch_last (expat : Bytes → Option (List (Event Bytes UInt8))) (r : Kreq) (st : State) (dav : Caldav)
    (cs : ℕ → Choice) (db : Db) (row : ColRow) (hrow : row ∈ db.collection) (hkeyed : ColKeyed db) (hcfg : st.cfg = some row.coln)
    (hreq : req2caldav (caldavOf expat) r = .ok dav) (htype : dav.type = .propertyupdate) (hquiet : ∀ i n, (cs i).quiet n) :
    (∃ cfg df, proppatchLoop dav.props row.coln 0 = some (cfg, df) ∧ (df ≠ 0 ↔ dav.props.any settable) ∧
      cfg.displayname.isSome ∧ cfg.colour.isSome ∧ cfg.description.isSome) ∧
    ((methodProppatch (caldavOf expat) r st).run cs db).2.1 =
      { db with collection := db.collection.map fun c => if c = row then patched dav.props row else c } := by
  obtain ⟨body, hparse⟩ := caldavParse_of_req2caldav hreq
  have hval : HasVals dav.props := hasVals_of_caldavOf hparse htype
  refine ⟨⟨dav.props.foldl proppatchSet row.coln, _, proppatchLoop_eq dav.props row.coln 0, ?_, ?_⟩, ?_⟩
  · rw [Nat.zero_add, ne_eq, List.length_eq_zero_iff, List.filter_eq_nil_iff, List.any_eq_true]
    push Not
    exact Iff.rfl
  · obtain ⟨hname, hcolour, hdescription⟩ := foldl_proppatchSet_fields hval row
    rw [hname, hcolour, hdescription]
    exact ⟨rfl, rfl, rfl⟩
  · unfold methodProppatch
    rw [hcfg]
    dsimp only
    rw [hreq]
    dsimp only
    rw [if_neg (not_not.mpr htype)]
    split
    next hany =>
      rw [Prog.run_bind]
      exact dbCollectionUpdate_patch hval hany hrow hkeyed hquiet
    next hany => exact (patch_of_none hany row db).symm

/-- A name for the calendar, and a colour that is none. -/
def nameAndColour : List (Event Bytes UInt8) :=
  [.start (ascii "DAV::propertyupdate"), .start (ascii "DAV::set"), .start (ascii "DAV::prop"),
    .start (ascii "DAV::displayname"), .text (ascii "Work"), .close (ascii "DAV::displayname"),
    .start (ascii "http://apple.com/ns/ical/:calendar-color"), .text (ascii "red"), .close (ascii "http://apple.com/ns/ical/:calendar-color"),
    .close (ascii "DAV::prop"), .close (ascii "DAV::set"), .close (ascii "DAV::propertyupdate")]

/-- The document that these are the events of. -/
def nameAndColourText : Bytes :=
  ascii "<D:propertyupdate xmlns:D=\"DAV:\" xmlns:A=\"http://apple.com/ns/ical/\"><D:set><D:prop>" ++
    ascii "<D:displayname>Work</D:displayname><A:calendar-color>red</A:calendar-color>" ++
    ascii "</D:prop></D:set></D:propertyupdate>"

def updateByJoe : Kreq :=
  { Kreq.bare .proppatch (ascii "/joe/calendar/") with
    fields := { (Kreq.bare .proppatch []).fields with body := some ⟨.textXml, nameAndColourText⟩ } }

/-- What is read of it. -/
def namedAndNot : Caldav :=
  ⟨.propertyupdate,
    [⟨.displayname, ascii "displayname", ascii "DAV:", some (ascii "Work"), 0⟩,
      ⟨.calendarColor, ascii "calendar-color", ascii "http://apple.com/ns/ical/", some (ascii "red"), -1⟩], []⟩

theorem methodProppatch_last_named :
    (∃ cfg df, proppatchLoop namedAndNot.props (Sql.newCol 1 (ascii "calendar") 1).coln 0 = some (cfg, df) ∧
      (df ≠ 0 ↔ namedAndNot.props.any settable) ∧ cfg.displayname.isSome ∧ cfg.colour.isSome ∧ cfg.description.isSome) ∧
    ((methodProppatch (caldavOf fun _ => some nameAndColour) updateByJoe .atEvent).run (fun _ => .calm) .oneCalendar).2.1 =
      { Db.oneCalendar with
        collection := [{ Sql.newCol 1 (ascii "calendar") 1 with displayname := ascii "Work", ctag := 2 }] } := by
  have hreq : req2caldav (caldavOf fun _ => some nameAndColour) updateByJoe = .ok namedAndNot := rfl
  have hrow : Sql.newCol 1 (ascii "calendar") 1 ∈ Db.oneCalendar.collection := List.mem_singleton_self _
  have hkeyed : ColKeyed .oneCalendar := by
    intro c hc c' hc' _
    rw [List.mem_singleton.mp hc, List.mem_singleton.mp hc']
  obtain ⟨hloop, hlast⟩ := methodProppatch_last (fun _ => some nameAndColour) updateByJoe .atEvent namedAndNot (fun _ => .calm)
    .oneCalendar (Sql.newCol 1 (ascii "calendar") 1) hrow hkeyed rfl hreq rfl fun _ n => Choice.quiet_calm n
  refine ⟨hloop, hlast.trans ?_⟩
  decide +kernel

end Kcaldav
