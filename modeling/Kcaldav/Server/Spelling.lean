import Kcaldav.Server.Precondition

/-! # Spellings of a condition

A `PUT` is made conditional upon a tag by an `If` or an `If-Match` header, each with the
tag in quotes or without. Only `If-Match` has its quotes taken off.
-/
namespace Kcaldav
open CString

def quoted (e : Bytes) : Bytes := QUOTE :: (e ++ [QUOTE])

theorem quoted_ne (e : Bytes) : e ≠ quoted e := by
  intro h
  have hlen := congrArg List.length h
  simp only [quoted, List.length_cons, List.length_append, List.length_nil] at hlen
  omega

inductive Spelling
  | ifQuoted | ifBare | matchQuoted | matchBare
  deriving DecidableEq, Repr

namespace Spelling

/-- The request with the condition upon the tag `e`. -/
def request (e : Bytes) (r : Kreq) : Spelling → Kreq
  | ifQuoted => { r with ifHdr := some (ascii "([" ++ (quoted e ++ ascii "])")), ifMatch := none }
  | ifBare => { r with ifHdr := some (ascii "([" ++ (e ++ ascii "])")), ifMatch := none }
  | matchQuoted => { r with ifHdr := none, ifMatch := some (quoted e) }
  | matchBare => { r with ifHdr := none, ifMatch := some e }

/-- The tag that is compared. -/
def digest (e : Bytes) : Spelling → Bytes
  | ifQuoted => quoted e
  | _ => e

theorem ifDigest_brackets {t : Bytes} (h : t ≠ []) : ifDigest (ascii "([" ++ (t ++ ascii "])")) = some t := by
  have hopen : ascii "([" = [40, 91] := by decide
  have hclose : ascii "])" = [93, 41] := by decide
  have hpos := List.length_pos_iff.mpr h
  have hlen : (ascii "([" ++ (t ++ ascii "])")).length - 2 = (ascii "([" ++ t).length := by
    rw [hopen, hclose]
    simp only [List.length_append, List.length_cons, List.length_nil]
    omega
  have hlong : ¬(ascii "([" ++ (t ++ ascii "])")).length < 5 := by
    rw [hopen, hclose]
    simp only [List.length_append, List.length_cons, List.length_nil]
    omega
  have htake : (ascii "([" ++ (t ++ ascii "])")).take 2 = ascii "([" := by
    rw [hopen]
    rfl
  rw [ifDigest, if_neg hlong, hlen, htake, ← List.append_assoc, List.drop_left, List.take_left, if_neg (by simp), hopen]
  rfl

/-- The four conditions upon a tag that is not empty. -/
theorem putDigest_request {e : Bytes} (he : ∀ b ∈ e, isDigit b ∨ b = 45) (hne : e ≠ []) (r : Kreq) (s : Spelling) :
    putDigest (s.request e r) = some (some (s.digest e)) := by
  have hquote : QUOTE ∉ e := fun hm => by
    rcases he QUOTE hm with h | h <;> exact absurd h (by decide)
  have hstar : e ≠ ascii "*" := by
    rintro rfl
    rcases he 42 (by decide) with h | h <;> exact absurd h (by decide)
  cases s with
  | ifQuoted =>
    have hread : ifDigest (ascii "([" ++ (quoted e ++ ascii "])")) = some (quoted e) := ifDigest_brackets (List.cons_ne_nil _ _)
    rw [putDigest, request]
    dsimp only
    rw [hread]
    rfl
  | ifBare =>
    have hread : ifDigest (ascii "([" ++ (e ++ ascii "])")) = some e := ifDigest_brackets hne
    rw [putDigest, request]
    dsimp only
    rw [hread]
    rfl
  | matchQuoted =>
    have hread : httpEtagIfMatch (quoted e) = some (e, true) := by
      have hlong : (quoted e).length > 1 ∧ (quoted e).head? = some QUOTE ∧ (quoted e).getLast? = some QUOTE := by
        refine ⟨?_, rfl, ?_⟩
        · simp only [quoted, List.length_cons, List.length_append]
          omega
        · simp [quoted, List.getLast?_cons]
      have htwo : (quoted e).length ≠ 2 := by
        have hpos := List.length_pos_iff.mpr hne
        simp only [quoted, List.length_cons, List.length_append, List.length_nil]
        omega
      have hcons : quoted e ≠ [] := List.cons_ne_nil _ _
      rw [httpEtagIfMatch, if_neg hcons, if_pos hlong, if_neg htwo, quoted, List.tail_cons,
        List.dropLast_concat]
    rw [putDigest, request]
    dsimp only
    rw [etagDigest, hread]
    rfl
  | matchBare =>
    have hread : httpEtagIfMatch e = some (e, false) := by
      rw [httpEtagIfMatch, if_neg hne, if_neg]
      rintro ⟨-, hhead, -⟩
      exact hquote (List.mem_of_head? hhead)
    rw [putDigest, request]
    dsimp only
    rw [etagDigest, hread]
    simp [hstar, digest]

/-- Reply and store after a `PUT` with the condition. -/
def outcome (C : Libc) (r : Kreq) (st : State) (etag e : Bytes) (cs : ℕ → Choice) (db : Db) (s : Spelling) : Reply × Db :=
  let out := (methodPut C (s.request e r) st etag).run cs db
  (out.1, out.2.1)

end Spelling

section
variable {C : Libc} {r : Kreq} {st : State} {cfg : Coln} {etag e : Bytes} {cs : ℕ → Choice} {db : Db} {body : Body}

theorem req2ical_request (e : Bytes) (s : Spelling) : req2ical C (s.request e r) = req2ical C r := by
  cases s <;> rfl

theorem outcome_run (hcfg : st.cfg = some cfg) (hbody : req2ical C r = .ok body) (s : Spelling) :
    s.outcome C r st etag e cs db =
      match putDigest (s.request e r) with
      | none => (httpError 400, db)
      | some digest =>
        let out := (putStore C body.val st.resource digest cfg.id etag).run cs db
        (httpError (putStatus out.1), out.2.1) := by
  unfold Spelling.outcome methodPut
  rw [hcfg, req2ical_request, hbody]
  dsimp only
  cases putDigest (s.request e r) with
  | none => rfl
  | some digest =>
    have hrun := Prog.run_bind_ret (putStore C body.val st.resource digest cfg.id etag)
      (fun rc => httpError (putStatus rc)) cs db
    exact congrArg (fun x : Reply × Db × (ℕ → Choice) => (x.1, x.2.1)) hrun

/-- The resource can be loaded and has the tag, as it is or with the quotes. -/
def Tagged (C : Libc) (st : State) (cfg : Coln) (e : Bytes) (choice : Choice) (db : Db) : Prop :=
  choice.quiet 5 ∧ ∃ res, resourceLoaded C st.resource cfg.id choice.erange db = .found res ∧
    (res.etag = e ∨ res.etag = quoted e)

theorem outcome_eq (hcfg : st.cfg = some cfg) (hbody : req2ical C r = .ok body) (he : ∀ b ∈ e, isDigit b ∨ b = 45)
    (hne : e ≠ []) (s : Spelling) : s.outcome C r st etag e cs db =
      let out := resourceUpdate C body.val st.resource (s.digest e) cfg.id etag (cs 0) db
      (httpError (putStatus out.1), out.2) := by
  rw [outcome_run hcfg hbody, Spelling.putDigest_request he hne]
  dsimp only
  rw [putStore, dbResourceUpdate_eq]
  rfl

theorem httpError_inj {a b : Nat} (h : httpError a = httpError b) : a = b := Option.some.inj (congrArg Reply.status h)

/-- A tag that the resource has is told from every other. -/
theorem resourceUpdate_tells {choice : Choice} {data url d d' : Bytes} {colid : Int} {res : Res} (hquiet : choice.quiet 5)
    (hload : resourceLoaded C url colid choice.erange db = .found res) (htag : res.etag = d) (hne : d ≠ d') :
    putStatus (resourceUpdate C data url d colid etag choice db).1 ≠
      putStatus (resourceUpdate C data url d' colid etag choice db).1 := by
  subst htag
  unfold resourceUpdate
  rw [if_pos hquiet, if_pos hquiet, hload]
  dsimp only
  rw [if_neg (not_not.mpr rfl), if_pos hne]
  split
  · exact (by decide : putStatus 1 ≠ putStatus 0)
  · exact (by decide : putStatus (-1) ≠ putStatus 0)

/-- Tags that the resource does not have are not told apart. -/
theorem resourceUpdate_same {choice : Choice} {url d d' : Bytes} {colid : Int} (data etag : Bytes)
    (h : choice.quiet 5 → ∀ res, resourceLoaded C url colid choice.erange db = .found res → res.etag ≠ d ∧ res.etag ≠ d') :
    resourceUpdate C data url d colid etag choice db = resourceUpdate C data url d' colid etag choice db := by
  unfold resourceUpdate
  by_cases hquiet : choice.quiet 5
  · rw [if_pos hquiet, if_pos hquiet]
    cases hload : resourceLoaded C url colid choice.erange db with
    | error => rfl
    | absent => rfl
    | found res =>
      obtain ⟨hd, hd'⟩ := h hquiet res hload
      dsimp only
      rw [if_pos hd, if_pos hd']
  · rw [if_neg hquiet, if_neg hquiet]

theorem putStatus_ne_400 (rc : Int) : putStatus rc ≠ 400 := by
  unfold putStatus
  split
  · decide
  · split <;> decide

/-- Without a tag the spellings differ in what is malformed. -/
theorem outcome_nil (hcfg : st.cfg = some cfg) (hbody : req2ical C r = .ok body) (etag : Bytes) (cs : ℕ → Choice) (db : Db) :
    Spelling.ifBare.outcome C r st etag [] cs db ≠ Spelling.matchBare.outcome C r st etag [] cs db := by
  intro h
  have hmalformed : putDigest (Spelling.ifBare.request [] r) = none := by
    have hread : ifDigest (ascii "([" ++ (([] : Bytes) ++ ascii "])")) = none := by decide
    rw [putDigest, Spelling.request]
    dsimp only
    rw [hread]
    rfl
  have hcreated : putDigest (Spelling.matchBare.request [] r) = some none := rfl
  rw [outcome_run hcfg hbody, outcome_run hcfg hbody, hmalformed, hcreated] at h
  exact putStatus_ne_400 _ (httpError_inj (congrArg Prod.fst h)).symm

end

/-- The spellings of a condition agree exactly where there is no calendar, or where the tag
is not empty and the resource does not have it. -/
theorem spellings_agree_iff (C : Libc) (r : Kreq) (st : State) (body : Body) (etag e : Bytes) (cs : ℕ → Choice) (db : Db)
    (hbody : req2ical C r = .ok body) (he : ∀ b ∈ e, isDigit b ∨ b = 45) :
    (∀ s s' : Spelling, s.outcome C r st etag e cs db = s'.outcome C r st etag e cs db) ↔
      ∀ cfg, st.cfg = some cfg → e ≠ [] ∧ ¬Tagged C st cfg e (cs 0) db := by
  cases hcfg : st.cfg with
  | none =>
    refine iff_of_true (fun s s' => ?_) (by simp)
    simp only [Spelling.outcome, methodPut, hcfg]
  | some cfg =>
    constructor
    · rintro h _ ⟨⟩
      have hne : e ≠ [] := by
        rintro rfl
        exact outcome_nil hcfg hbody etag cs db (h .ifBare .matchBare)
      refine ⟨hne, ?_⟩
      rintro ⟨hquiet, res, hload, htag⟩
      have hsame := h .ifQuoted .ifBare
      rw [outcome_eq hcfg hbody he hne, outcome_eq hcfg hbody he hne] at hsame
      have hstatus := httpError_inj (congrArg Prod.fst hsame)
      rcases htag with htag | htag
      · exact resourceUpdate_tells hquiet hload htag (quoted_ne e) hstatus.symm
      · exact resourceUpdate_tells hquiet hload htag (quoted_ne e).symm hstatus
    · intro h s s'
      obtain ⟨hne, hnot⟩ := h cfg rfl
      have hother (t : Spelling) : (cs 0).quiet 5 → ∀ res, resourceLoaded C st.resource cfg.id (cs 0).erange db = .found res →
          res.etag ≠ t.digest e := by
        intro hquiet res hload htag
        apply hnot
        refine ⟨hquiet, res, hload, ?_⟩
        cases t with
        | ifQuoted => exact .inr htag
        | ifBare => exact .inl htag
        | matchQuoted => exact .inl htag
        | matchBare => exact .inl htag
      have hsame := resourceUpdate_same body.val etag fun hquiet res hload => ⟨hother s hquiet res hload, hother s' hquiet res hload⟩
      rw [outcome_eq hcfg hbody he hne, outcome_eq hcfg hbody he hne, hsame]

/-- A calendar to be stored as the resource of the calendar of `joe`. -/
def putAtEvent : Kreq :=
  let r := Kreq.bare .put (ascii "/joe/calendar/a.ics")
  { r with fields := { r.fields with body := some ⟨.textCalendar, ascii "BEGIN:VCALENDAR\nEND:VCALENDAR\n"⟩ } }

theorem req2ical_putAtEvent : req2ical .utc putAtEvent = .ok ⟨.textCalendar, ascii "BEGIN:VCALENDAR\nEND:VCALENDAR\n"⟩ := by
  have hparse : (icalParse Libc.utc none false (ascii "BEGIN:VCALENDAR\nEND:VCALENDAR\n") 0).1.isSome := by decide +kernel
  obtain ⟨p, hp⟩ := Option.isSome_iff_exists.mp hparse
  unfold req2ical
  have hbody : putAtEvent.fields.body = some ⟨.textCalendar, ascii "BEGIN:VCALENDAR\nEND:VCALENDAR\n"⟩ := rfl
  have herange : putAtEvent.erange = false := rfl
  rw [hbody, herange]
  dsimp only
  rw [if_neg (not_not.mpr rfl), hp]

/-- With an old tag nothing is stored, in quotes or not. -/
theorem spellings_agree_stale :
    Spelling.ifQuoted.outcome .utc putAtEvent .atEvent (ascii "2-2") (ascii "9-9") (fun _ => .calm) .oneEvent =
      Spelling.matchBare.outcome .utc putAtEvent .atEvent (ascii "2-2") (ascii "9-9") (fun _ => .calm) .oneEvent := by
  have he : ∀ b ∈ ascii "9-9", isDigit b ∨ b = 45 := by decide +kernel
  have hcond : ∀ cfg, State.atEvent.cfg = some cfg →
      ascii "9-9" ≠ [] ∧ ¬Tagged .utc .atEvent cfg (ascii "9-9") .calm .oneEvent := by
    rintro _ ⟨⟩
    refine ⟨by decide, ?_⟩
    rintro ⟨-, res, hload, htag⟩
    obtain ⟨row, ical, q, hrow, -, rfl⟩ := resourceLoaded_found .utc hload
    have hone : Sql.resGet 1 (ascii "a.ics") .oneEvent =
        some ⟨1, ascii "a.ics", ascii "1-1", ascii "BEGIN:VCALENDAR\nEND:VCALENDAR\n", 1⟩ := by decide +kernel
    cases hone.symm.trans hrow
    have hother : ¬(ascii "1-1" = ascii "9-9" ∨ ascii "1-1" = quoted (ascii "9-9")) := by decide
    exact hother htag
  exact (spellings_agree_iff .utc putAtEvent .atEvent _ (ascii "2-2") (ascii "9-9") (fun _ => .calm) .oneEvent
    req2ical_putAtEvent he).mpr hcond .ifQuoted .matchBare

/-- With the tag of the resource, `If` and quotes are refused for ever. -/
theorem spellings_disagree :
    (Spelling.ifQuoted.outcome .utc putAtEvent .atEvent (ascii "2-2") (ascii "1-1") (fun _ => .calm) .oneEvent).1.status = some 403 ∧
    (Spelling.matchQuoted.outcome .utc putAtEvent .atEvent (ascii "2-2") (ascii "1-1") (fun _ => .calm) .oneEvent).1.status =
      some 201 ∧
    ¬∀ s s' : Spelling, s.outcome .utc putAtEvent .atEvent (ascii "2-2") (ascii "1-1") (fun _ => .calm) .oneEvent =
      s'.outcome .utc putAtEvent .atEvent (ascii "2-2") (ascii "1-1") (fun _ => .calm) .oneEvent := by
  have hrefused : (Spelling.ifQuoted.outcome .utc putAtEvent .atEvent (ascii "2-2") (ascii "1-1") (fun _ => .calm)
      .oneEvent).1.status = some 403 := by decide +kernel
  have hstored : (Spelling.matchQuoted.outcome .utc putAtEvent .atEvent (ascii "2-2") (ascii "1-1") (fun _ => .calm)
      .oneEvent).1.status = some 201 := by decide +kernel
  refine ⟨hrefused, hstored, fun h => ?_⟩
  have hstatus := congrArg (fun out : Reply × Db => out.1.status) (h .ifQuoted .matchQuoted)
  rw [hrefused, hstored] at hstatus
  exact absurd hstatus (by decide)

end Kcaldav
