import Kcaldav.Concurrent.Provenance

/-! # What happens once

But for the ctags of their calendars, a request changes what belongs to accounts at one of
its actions at most. A nonce is drawn
once, and each count of it is accepted once, so that a request that is sent again is not
served again, and one whose user has logged out is not served any more.
-/
namespace Kcaldav
open CString Discipline

variable {firm : Prop} {C : Libc} {caldavParse : Bytes → Option Caldav} {r : Kreq} {etag : Bytes} {draws : List Bytes} {cal : CalName}
  {url : Bytes} {auth : Digest} {w : SpaceEvent} {evs : List SpaceEvent}

/-! ## One change -/

/-- Something that belongs to an account is done. -/
def SpaceEvent.IsDeed (w : SpaceEvent) : Prop := w.owner ≠ none ∧ ¬w.IsSight

theorem Fulfils.deed_once (h : Fulfils C caldavParse r etag cal url evs) : Once SpaceEvent.IsDeed evs := by
  rcases h with ⟨w, rfl, -⟩ | hlooks
  · exact .singleton _ w
  · exact .of_none fun w hw hdeed => hdeed.2 (hlooks w hw).isSight

theorem Performs.deed_once {acc : Account} (h : Performs C caldavParse r etag auth acc evs) : Once SpaceEvent.IsDeed evs := by
  cases h with
  | nothing => exact .nil
  | @page w hjson hw => exact .singleton _ w
  | own hpath hevs => exact hevs.deed_once
  | other hpath hq hbits hevs => exact hevs.deed_once.cons_of_not fun hdeed => hdeed.2 trivial

theorem Admits.not_deed {adm : List SpaceEvent} (h : Admits firm auth adm) : ∀ w ∈ adm, ¬w.IsDeed := by
  intro w hw
  rcases h with rfl | ⟨-, rfl⟩
  · rw [List.mem_singleton.mp hw]
    exact fun hdeed => hdeed.1 rfl
  · cases hw

theorem Asks.deed_once (h : Asks C caldavParse r etag draws firm evs) : Once SpaceEvent.IsDeed evs := by
  cases h with
  | nothing => exact .nil
  | signed hauth hsig => exact .singleton _ _
  | challenged hauth hsig hn => exact (Once.singleton _ _).cons_of_not fun hdeed => hdeed.2 trivial
  | served hauth hsig hadm hevs => exact (hevs.deed_once.append_of_not hadm.not_deed).cons_of_not fun hdeed => hdeed.2 trivial

/-- Only an accepted request does something. -/
theorem Asks.of_deed (h : Asks C caldavParse r etag draws firm evs) (hw : w ∈ evs) (hdeed : w.IsDeed) :
    ∃ auth acc adm evs', r.auth = some auth ∧ Admits firm auth adm ∧ Performs C caldavParse r etag auth acc evs' ∧ w ∈ evs' ∧
      evs = .record auth.user acc :: (adm ++ evs') := by
  cases h with
  | nothing => cases hw
  | signed hauth hsig =>
    rw [List.mem_singleton.mp hw] at hdeed
    exact absurd trivial hdeed.2
  | challenged hauth hsig hn =>
    rcases List.mem_cons.mp hw with rfl | hw
    · exact absurd trivial hdeed.2
    · rw [List.mem_singleton.mp hw] at hdeed
      exact absurd rfl hdeed.1
  | @served auth acc adm evs hauth hsig hadm hevs =>
    refine ⟨auth, acc, adm, evs, hauth, hadm, hevs, ?_, rfl⟩
    rcases List.mem_cons.mp hw with rfl | hw
    · exact absurd trivial hdeed.2
    · exact (List.mem_append.mp hw).resolve_left fun haccept => hadm.not_deed w haccept hdeed

/-- The requests that change something. -/
def Kreq.Writes (r : Kreq) : Prop :=
  (r.method = .put ∨ r.method = .delete ∨ r.method = .proppatch) ∨ r.mime = .appJson ∧ (r.method = .get ∨ r.method = .post)

theorem Fulfils.writes (h : Fulfils C caldavParse r etag cal url evs) (hw : w ∈ evs) (hdeed : w.IsDeed) : r.Writes := by
  rcases h with ⟨w', rfl, hchange⟩ | hlooks
  · cases hchange with
    | create hm | replace hm => exact Or.inl (Or.inl hm)
    | remove hm | removeIf hm | rmcalendar hm => exact Or.inl (Or.inr (Or.inl hm))
    | display hm => exact Or.inl (Or.inr (Or.inr hm))
  · exact absurd (hlooks w hw).isSight hdeed.2

theorem Asks.writes_of_deed (h : Asks C caldavParse r etag draws firm evs) (hw : w ∈ evs) (hdeed : w.IsDeed) : r.Writes := by
  obtain ⟨auth, acc, adm, evs', -, -, hevs, hw', -⟩ := h.of_deed hw hdeed
  cases hevs with
  | nothing => cases hw'
  | page hjson hpage => exact Or.inr hjson
  | own hpath hevs => exact hevs.writes hw' hdeed
  | other hpath hq hbits hevs =>
    rcases List.mem_cons.mp hw' with rfl | hw'
    · exact absurd trivial hdeed.2
    · exact hevs.writes hw' hdeed

/-- In any interleaving, a request changes what belongs to accounts, but for the ctags of
their calendars, at one of its actions at most, and only if its method or its page is one
that changes something. -/
theorem server_atomic {ι : Type} [DecidableEq ι] (C : Libc) (caldavParse : Bytes → Option Caldav) (steps : ι → ServerStep) (db : Db)
    (hdb : Integral db) (sched : List (ι × Choice))
    (hseq : ∀ n, ((serverSys C caldavParse steps db).exec (sched.take n)).shared.principalSeq < 2 ^ 31) (i : ι) (r : Kreq)
    (etag : Bytes) (draws : List Bytes) (hi : steps i = .request r etag draws) (n : ℕ) (e : Choice) (hn : sched[n]? = some (i, e)) (q : Bytes)
    (hchanged : ¬Space.SameFor q ((serverSys C caldavParse steps db).exec (sched.take n)).shared.space
      ((serverSys C caldavParse steps db).exec (sched.take (n + 1))).shared.space) :
    r.Writes ∧ ∀ m e', sched[m]? = some (i, e') → m ≠ n → ∀ q',
      Space.SameFor q' ((serverSys C caldavParse steps db).exec (sched.take m)).shared.space
        ((serverSys C caldavParse steps db).exec (sched.take (m + 1))).shared.space := by
  obtain ⟨mark, h⟩ := linear False hdb sched nofun hseq
  have hdeed {m : ℕ} {e : Choice} {q : Bytes} (hm : sched[m]? = some (i, e))
      (hchanged : ¬Space.SameFor q ((serverSys C caldavParse steps db).exec (sched.take m)).shared.space
        ((serverSys C caldavParse steps db).exec (sched.take (m + 1))).shared.space) : ∃ w, mark m = some w ∧ w.IsDeed := by
    obtain ⟨w, hw, howner, hsight⟩ := changed_by h hm hchanged
    exact ⟨w, hw, by simp [howner], hsight⟩
  obtain ⟨w, hw, hwdeed⟩ := hdeed hn hchanged
  have hlen : n < sched.length := (List.getElem?_eq_some_iff.mp hn).1
  have hleaves := h.leaves sched.length le_rfl i
  rw [hi] at hleaves
  refine ⟨hleaves.writes_of_deed (mem_marksOf.mpr ⟨n, hlen, ⟨e, hn⟩, hw⟩) hwdeed, fun m e' hm hne q' => ?_⟩
  by_contra hchanged'
  obtain ⟨w', hw', hwdeed'⟩ := hdeed hm hchanged'
  exact hne (eq_of_once hleaves.deed_once (List.getElem?_eq_some_iff.mp hm).1 hlen hm hn hw' hw hwdeed' hwdeed)

/-- The removal that `eve` asks for is one action, and the one before it changes nothing. -/
theorem server_atomic_delete : Space.SameFor (ascii "joe")
    ((eveAlone true PROXY_WRITE).exec ((List.replicate 11 ((), Choice.calm)).take 9)).shared.space
    ((eveAlone true PROXY_WRITE).exec ((List.replicate 11 ((), Choice.calm)).take (9 + 1))).shared.space :=
  (server_atomic .utc (fun _ => none) (fun _ : Unit => eveAtWork true) (.lent PROXY_WRITE) (lent_integral _ (Or.inr rfl))
    (List.replicate 11 ((), .calm)) eveAlone_seq () _ _ _ rfl 10 .calm (by simp) (ascii "joe") eveAlone_changes).2 9 .calm (by simp)
    (by decide) (ascii "joe")

/-! ## Nonces -/

namespace ServerStep

/-- The nonces that a step draws. -/
def nonces : ServerStep → List Bytes
  | .request _ _ draws => draws
  | .passwd _ => []

/-- The nonce and the count that a request is signed with. -/
def claim : ServerStep → Option (Bytes × Int)
  | .request r _ _ => r.checked.auth.map fun auth => (auth.nonce, auth.count)
  | .passwd _ => none

end ServerStep

/-- What a request does after its count has been accepted is about an account, or it is the logout. -/
theorem Performs.owned {acc : Account} (h : Performs C caldavParse r etag auth acc evs) (hw : w ∈ evs) : (∃ q, w.owner = some q) ∨ ∃ n, w = .logout n := by
  cases h with
  | nothing => cases hw
  | page hjson hpage =>
    obtain rfl := List.mem_singleton.mp hw
    cases hpage with
    | logout => exact Or.inr ⟨_, rfl⟩
    | _ => exact Or.inl ⟨_, rfl⟩
  | own hpath hevs => exact Or.inl ⟨_, hevs.owner w hw⟩
  | other hpath hq hbits hevs =>
    rcases List.mem_cons.mp hw with rfl | hw
    · exact Or.inl ⟨_, rfl⟩
    · exact Or.inl ⟨_, hevs.owner w hw⟩

/-- An event of the nonces: a step enters one that it has drawn, and accepts the count that
it is signed with. -/
inductive ServerStep.OfNonce (s : ServerStep) : SpaceEvent → Prop
  | accept {nonce : Bytes} {count : Int} (h : s.claim = some (nonce, count)) : OfNonce s (.accept nonce count)
  | challenge {nonce : Bytes} {culled : List Bytes} (h : nonce ∈ s.nonces) : OfNonce s (.challenge nonce culled)
  | logout {nonce : Bytes} : OfNonce s (.logout nonce)

theorem ServerStep.Leaves.ofNonce {s : ServerStep} (h : s.Leaves C caldavParse firm evs) (hw : w ∈ evs) (hnone : w.owner = none) :
    s.OfNonce w := by
  cases s with
  | request r etag draws =>
    obtain ⟨auth, acc, hauth, -, -, rfl | ⟨n, hn, _, rfl⟩ | rfl | ⟨evs', hevs, hw', -⟩⟩ := Asks.of_mem h hw
    · cases hnone
    · exact .challenge hn
    · exact .accept (by rw [ServerStep.claim, hauth, Option.map_some])
    · rcases hevs.owned hw' with ⟨q, hq⟩ | ⟨n, rfl⟩
      · cases hq.symm.trans hnone
      · exact .logout
  | passwd a => cases (AdminAsks.owner h w hw).symm.trans hnone

/-- A nonce is entered. -/
def SpaceEvent.IsChallenge (w : SpaceEvent) : Prop := ∃ nonce culled, w = .challenge nonce culled

theorem ServerStep.Leaves.challenge_once {s : ServerStep} (h : s.Leaves C caldavParse firm evs) : Once SpaceEvent.IsChallenge evs := by
  have hrecord {user : Bytes} {acc : Account} : ¬(SpaceEvent.record user acc).IsChallenge := fun ⟨_, _, h⟩ => nomatch h
  cases s with
  | request r etag draws =>
    cases (show Asks C caldavParse r.checked etag draws firm evs from h) with
    | nothing => exact .nil
    | signed hauth hsig => exact .singleton _ _
    | challenged hauth hsig hn => exact (Once.singleton _ _).cons_of_not hrecord
    | served hauth hsig hadm hevs =>
      refine Once.cons_of_not hrecord (.append_of_not ?_ (.of_none ?_))
      · rintro w hw ⟨n, culled, rfl⟩
        rcases hadm with rfl | ⟨-, rfl⟩ <;> simp at hw
      · rintro w hw ⟨n, culled, rfl⟩
        rcases hevs.owned hw with ⟨q, hq⟩ | ⟨n, hn⟩
        · cases hq
        · cases hn
  | passwd a =>
    refine .of_none ?_
    rintro w hw ⟨n, culled, rfl⟩
    cases AdminAsks.owner h _ hw

/-- Nonces are drawn once, and none that the store has, and the counts are 64-bit integers
that are not the greatest one. -/
structure Unrepeated {ι : Type} (steps : ι → ServerStep) (s : Space) : Prop where
  disjoint : ∀ i j n, n ∈ (steps i).nonces → n ∈ (steps j).nonces → i = j
  unused : ∀ i, ∀ n ∈ (steps i).nonces, s.nonce n = none
  fit : ∀ i n count, (steps i).claim = some (n, count) → -2 ^ 63 ≤ count ∧ count < 2 ^ 63 - 1

section Nonces
variable {ι : Type} [DecidableEq ι] {steps : ι → ServerStep} {db : Db} {sched : List (ι × Choice)} {mark : ℕ → Option SpaceEvent}
  {nonce : Bytes} {m n : ℕ}

/-- What an event may be for a nonce. -/
theorem Space.Step.nonce_cases {s s' : Space} (h : Space.Step w s s') (nonce : Bytes) :
    s'.nonce nonce = s.nonce nonce ∨
    (∃ count, w = .accept nonce count ∧ ∃ next ≤ count, s.nonce nonce = some next ∧
      s'.nonce nonce = some ((count + 1).bmod (2 ^ 64))) ∨
    (∃ culled, w = .challenge nonce culled) ∨ s'.nonce nonce = none := by
  have hset := h.nonce nonce
  have henabled := h.enabled
  cases w with
  | accept x count =>
    by_cases hx : nonce = x
    · subst hx
      rw [SpaceEvent.setsNonce, if_pos rfl, Option.getD_some] at hset
      obtain ⟨next, hnext, hle⟩ := henabled
      exact Or.inr (Or.inl ⟨count, rfl, next, hle, hnext, hset⟩)
    · rw [SpaceEvent.setsNonce, if_neg hx, Option.getD_none] at hset
      exact Or.inl hset
  | challenge x culled =>
    by_cases hx : nonce = x
    · exact Or.inr (Or.inr (Or.inl ⟨culled, by rw [hx]⟩))
    · rw [SpaceEvent.setsNonce, if_neg hx] at hset
      split at hset
      · exact Or.inr (Or.inr (Or.inr hset))
      · exact Or.inl hset
  | logout x =>
    by_cases hx : nonce = x
    · rw [SpaceEvent.setsNonce, if_pos hx, Option.getD_some] at hset
      exact Or.inr (Or.inr (Or.inr hset))
    · rw [SpaceEvent.setsNonce, if_neg hx, Option.getD_none] at hset
      exact Or.inl hset
  | _ => exact Or.inl hset

/-- The nonces when so many actions have been taken. -/
abbrev nonceAt (C : Libc) (caldavParse : Bytes → Option Caldav) (steps : ι → ServerStep) (db : Db) (sched : List (ι × Choice)) (n : ℕ)
    (nonce : Bytes) : Option Int := ((serverSys C caldavParse steps db).exec (sched.take n)).shared.space.nonce nonce

/-- What an action may be for a nonce. -/
theorem Linear.nonce_cases (h : Linear C caldavParse firm steps db sched mark) (hn : n < sched.length) (nonce : Bytes) :
    nonceAt C caldavParse steps db sched (n + 1) nonce = nonceAt C caldavParse steps db sched n nonce ∨
    (∃ count, mark n = some (.accept nonce count) ∧ ∃ next ≤ count, nonceAt C caldavParse steps db sched n nonce = some next ∧
      nonceAt C caldavParse steps db sched (n + 1) nonce = some ((count + 1).bmod (2 ^ 64))) ∨
    (∃ culled, mark n = some (.challenge nonce culled)) ∨ nonceAt C caldavParse steps db sched (n + 1) nonce = none := by
  have hacts := List.getElem?_eq_getElem hn
  cases hw : mark n with
  | none =>
    have hhappens := h.happens n _ _ hacts
    rw [hw] at hhappens
    exact Or.inl (congrArg (fun s => s.nonce nonce) hhappens)
  | some w =>
    rcases (h.step hacts hw).nonce_cases nonce with hsame | ⟨count, rfl, haccept⟩ | ⟨culled, rfl⟩ | hgone
    · exact Or.inl hsame
    · exact Or.inr (Or.inl ⟨count, rfl, haccept⟩)
    · exact Or.inr (Or.inr (Or.inl ⟨culled, rfl⟩))
    · exact Or.inr (Or.inr (Or.inr hgone))

theorem Linear.ofNonce (h : Linear C caldavParse firm steps db sched mark) {i : ι} {e : Choice} (hn : sched[n]? = some (i, e))
    (hw : mark n = some w) (hnone : w.owner = none) : (steps i).OfNonce w :=
  (h.leaves (n + 1) (List.getElem?_eq_some_iff.mp hn).1 i).ofNonce (mem_marksOf.mpr ⟨n, Nat.lt_succ_self n, ⟨e, hn⟩, hw⟩) hnone

/-- A nonce that is there has been there from the start, or has been entered. -/
theorem Linear.nonce_source (h : Linear C caldavParse firm steps db sched mark) (hn : n ≤ sched.length)
    (hthere : nonceAt C caldavParse steps db sched n nonce ≠ none) :
    db.space.nonce nonce ≠ none ∨ ∃ k < n, ∃ culled, mark k = some (.challenge nonce culled) := by
  induction n with
  | zero => exact Or.inl hthere
  | succ n ih =>
    have hbefore (hthere : nonceAt C caldavParse steps db sched n nonce ≠ none) :
        db.space.nonce nonce ≠ none ∨ ∃ k < n + 1, ∃ culled, mark k = some (.challenge nonce culled) :=
      (ih (Nat.le_of_succ_le hn) hthere).imp_right fun ⟨k, hk, hentered⟩ => ⟨k, Nat.lt_succ_of_lt hk, hentered⟩
    rcases h.nonce_cases hn nonce with hsame | ⟨_, -, next, -, hnext, -⟩ | ⟨culled, hw⟩ | hgone
    · exact hbefore (hsame ▸ hthere)
    · exact hbefore (by simp [hnext])
    · exact Or.inr ⟨n, Nat.lt_succ_self n, culled, hw⟩
    · exact absurd hgone hthere

variable (hun : Unrepeated steps db.space)
include hun

/-- The count that is entered is the next one. -/
theorem Linear.admitted_succ (h : Linear C caldavParse firm steps db sched mark) {count : Int} (hn : n < sched.length)
    (hw : mark n = some (.accept nonce count)) : (count + 1).bmod (2 ^ 64) = count + 1 := by
  cases h.ofNonce (List.getElem?_eq_getElem hn) hw rfl with
  | accept hclaim =>
    obtain ⟨hlo, hhi⟩ := hun.fit _ nonce count hclaim
    exact Int.bmod_eq_of_le (by omega) (by omega)

/-- A nonce that has been there is not entered any more. -/
theorem Linear.not_entered (h : Linear C caldavParse firm steps db sched mark)
    (hthere : nonceAt C caldavParse steps db sched m nonce ≠ none) (hmn : m ≤ n) (hn : n < sched.length) (culled : List Bytes) :
    mark n ≠ some (.challenge nonce culled) := by
  intro hw
  have hdrawn {k : ℕ} {culled : List Bytes} (hk : k < sched.length) (hw : mark k = some (.challenge nonce culled)) :
      nonce ∈ (steps sched[k].1).nonces := by
    cases h.ofNonce (List.getElem?_eq_getElem hk) hw rfl with
    | challenge hmem => exact hmem
  rcases h.nonce_source (by omega) hthere with hold | ⟨k, hk, culled', hw'⟩
  · exact hold (hun.unused _ nonce (hdrawn hn hw))
  · -- one step has entered it twice
    have hlen : k < sched.length := by omega
    have heq := hun.disjoint _ _ nonce (hdrawn hlen hw') (hdrawn hn hw)
    have hacts : sched[k]? = some (sched[n].1, sched[k].2) := by
      rw [← heq]
      exact List.getElem?_eq_getElem hlen
    have hsame := eq_of_once (h.leaves sched.length le_rfl _).challenge_once hlen hn hacts (List.getElem?_eq_getElem hn) hw' hw
      ⟨nonce, culled', rfl⟩ ⟨nonce, culled, rfl⟩
    omega

/-- The count of a nonce does not go back. -/
theorem Linear.count_le (h : Linear C caldavParse firm steps db sched mark) {a b : Int} (hmn : m ≤ n) (hn : n ≤ sched.length)
    (ha : nonceAt C caldavParse steps db sched m nonce = some a) (hb : nonceAt C caldavParse steps db sched n nonce = some b) : a ≤ b := by
  induction hmn generalizing b with
  | refl => exact (Option.some.inj (ha.symm.trans hb)).le
  | @step n hmn ih =>
    rcases h.nonce_cases hn nonce with hsame | ⟨count, hw, next, hle, hnext, hset⟩ | ⟨culled, hw⟩ | hgone
    · exact ih (Nat.le_of_succ_le hn) (hsame.symm.trans hb)
    · have hold := ih (Nat.le_of_succ_le hn) hnext
      rw [hset, h.admitted_succ hun hn hw] at hb
      cases hb
      omega
    · exact absurd hw (h.not_entered hun (by simp [ha]) hmn hn culled)
    · cases hgone.symm.trans hb

/-- The counts of a nonce are accepted in their order. -/
theorem Linear.accept_lt (h : Linear C caldavParse firm steps db sched mark) {count count' : Int} (hmn : m < n) (hn : n < sched.length)
    (hw : mark m = some (.accept nonce count)) (hw' : mark n = some (.accept nonce count')) : count < count' := by
  have hm : m < sched.length := hmn.trans hn
  obtain ⟨next, hnext, hle⟩ := (h.step (List.getElem?_eq_getElem hn) hw').enabled
  have hset := (h.step (List.getElem?_eq_getElem hm) hw).nonce nonce
  rw [SpaceEvent.setsNonce, if_pos rfl, Option.getD_some, h.admitted_succ hun hm hw] at hset
  have hup := h.count_le hun hmn hn.le hset hnext
  omega

/-- A nonce that is gone is not there any more. -/
theorem Linear.gone (h : Linear C caldavParse firm steps db sched mark) {k : ℕ}
    (hthere : nonceAt C caldavParse steps db sched m nonce ≠ none) (hmk : m ≤ k)
    (hgone : nonceAt C caldavParse steps db sched k nonce = none) (hkn : k ≤ n) (hn : n ≤ sched.length) :
    nonceAt C caldavParse steps db sched n nonce = none := by
  induction hkn with
  | refl => exact hgone
  | @step n hkn ih =>
    have hbefore := ih (Nat.le_of_succ_le hn)
    rcases h.nonce_cases hn nonce with hsame | ⟨_, -, next, -, hnext, -⟩ | ⟨culled, hw⟩ | hgone'
    · exact hsame.trans hbefore
    · cases hbefore.symm.trans hnext
    · exact absurd hw (h.not_entered hun hthere (hmk.trans hkn) hn culled)
    · exact hgone'

end Nonces

/-! ## Requests that are sent again -/

section Effects
variable {ι : Type} [DecidableEq ι]

/-- A step changes what belongs to an account, but for the ctags of its calendars, or it is a
request other than `OPTIONS` that succeeds. -/
def TookEffect (C : Libc) (caldavParse : Bytes → Option Caldav) (steps : ι → ServerStep) (db : Db) (sched : List (ι × Choice))
    (i : ι) : Prop :=
  (∃ n e q, sched[n]? = some (i, e) ∧ ¬Space.SameFor q ((serverSys C caldavParse steps db).exec (sched.take n)).shared.space
    ((serverSys C caldavParse steps db).exec (sched.take (n + 1))).shared.space) ∨
  ∃ r etag draws reply, steps i = .request r etag draws ∧ r.method ≠ .options ∧
    ((serverSys C caldavParse steps db).exec sched).proc i = .ret (.reply reply) ∧ reply.Succeeds

/-- A request has an effect after its count has been accepted. -/
theorem TookEffect.admitted {steps : ι → ServerStep} {db : Db} {sched : List (ι × Choice)} {mark : ℕ → Option SpaceEvent} {i : ι}
    {nonce : Bytes} {count : Int} (h : TookEffect C caldavParse steps db sched i) (hlinear : Linear C caldavParse True steps db sched mark)
    (hclaim : (steps i).claim = some (nonce, count)) :
    ∃ n < sched.length, (∃ e, sched[n]? = some (i, e)) ∧ mark n = some (.accept nonce count) := by
  have hleaves := hlinear.leaves sched.length le_rfl i
  suffices hmem : ∃ auth : Digest, (steps i).claim = some (auth.nonce, auth.count) ∧
      SpaceEvent.accept auth.nonce auth.count ∈ marksOf sched mark i sched.length by
    obtain ⟨auth, hclaim', hmem⟩ := hmem
    cases hclaim.symm.trans hclaim'
    exact mem_marksOf.mp hmem
  cases hi : steps i with
  | passwd a =>
    rw [hi] at hclaim
    cases hclaim
  | request r etag draws =>
    rw [hi] at hleaves
    have hsigned {auth : Digest} (hauth : r.checked.auth = some auth) :
        (ServerStep.request r etag draws).claim = some (auth.nonce, auth.count) := by
      rw [ServerStep.claim, hauth, Option.map_some]
    rcases h with ⟨n, e, q, hn, hchanged⟩ | ⟨r', etag', draws', reply, hi', hm, hend, hsucceeds⟩
    · obtain ⟨w, hw, howner, hsight⟩ := changed_by hlinear hn hchanged
      have hdeed : w.IsDeed := ⟨by simp [howner], hsight⟩
      have hmem := mem_marksOf.mpr ⟨n, (List.getElem?_eq_some_iff.mp hn).1, ⟨e, hn⟩, hw⟩
      obtain ⟨auth, acc, adm, evs, hauth, hadm, -, -, hevs⟩ := Asks.of_deed hleaves hmem hdeed
      refine ⟨auth, hsigned hauth, ?_⟩
      rw [hevs]
      rcases hadm with rfl | ⟨hnot, -⟩
      · exact List.mem_cons_of_mem _ List.mem_cons_self
      · exact absurd trivial hnot
    · cases hi.symm.trans hi'
      rw [← List.take_length (l := sched)] at hend
      have htells := hlinear.tells sched.length le_rfl i _ hend
      rw [hi] at htells
      obtain ⟨auth, hauth, hmem⟩ := Answered.entitled htells hm hsucceeds trivial
      exact ⟨auth, hsigned hauth, hmem⟩

/-- In any interleaving, of two requests that are signed with the same nonce and count one
at most has an effect. -/
theorem server_served_once (C : Libc) (caldavParse : Bytes → Option Caldav) (steps : ι → ServerStep) (db : Db) (hdb : Integral db)
    (hun : Unrepeated steps db.space) (sched : List (ι × Choice)) (hcalm : ∀ x ∈ sched, x.2.commitFails = false)
    (hseq : ∀ n, ((serverSys C caldavParse steps db).exec (sched.take n)).shared.principalSeq < 2 ^ 31) (nonce : Bytes) (count : Int)
    (i j : ι) (hi : (steps i).claim = some (nonce, count)) (hj : (steps j).claim = some (nonce, count))
    (heffect : TookEffect C caldavParse steps db sched i) (heffect' : TookEffect C caldavParse steps db sched j) : i = j := by
  obtain ⟨mark, h⟩ := linear True hdb sched (fun _ => hcalm) hseq
  obtain ⟨m, hm, ⟨e, hacts⟩, hw⟩ := heffect.admitted h hi
  obtain ⟨n, hn, ⟨e', hacts'⟩, hw'⟩ := heffect'.admitted h hj
  obtain rfl : m = n := by
    rcases Nat.lt_trichotomy m n with hlt | heq | hlt
    · exact absurd (h.accept_lt hun hlt hn hw hw') (lt_irrefl _)
    · exact heq
    · exact absurd (h.accept_lt hun hlt hm hw' hw) (lt_irrefl _)
  exact congrArg Prod.fst (Option.some.inj (hacts.symm.trans hacts'))

/-- `joe` asks for a resource, with the first count of a nonce. -/
def getFirst : Bool → ServerStep := fun _ =>
  .request { Kreq.bare .get (ascii "/joe/calendar/a.ics") with auth := some ⟨true, ascii "joe", ascii "A1", 1, fun _ => 1⟩ } [] []

abbrev getFirstSys : Sys Bool Choice Db Answer := serverSys .utc (fun _ => none) getFirst (.twoPrincipals 2)

theorem getFirst_seq : ∀ n, (getFirstSys.exec ((alternating 16).take n)).shared.principalSeq < 2 ^ 31 :=
  forall_take (p := fun s => (getFirstSys.exec s).shared.principalSeq < 2 ^ 31) (by decide +kernel)

theorem alternating_calm (n : ℕ) : ∀ x ∈ alternating n, x.2.commitFails = false := by
  intro x hx
  obtain ⟨k, -, rfl⟩ := List.mem_map.mp hx
  rfl

theorem getFirst_unrepeated : Unrepeated getFirst (Db.twoPrincipals 2).space := by
  refine ⟨fun _ _ _ hn => absurd hn List.not_mem_nil, fun _ _ hn => absurd hn List.not_mem_nil, fun i n count h => ?_⟩
  obtain ⟨-, rfl⟩ : ascii "A1" = n ∧ 1 = count := Prod.mk.inj (Option.some.inj h)
  decide

/-- The same request twice, action by action: one is served, and the other is not. -/
theorem server_served_once_get : TookEffect .utc (fun _ => none) getFirst (.twoPrincipals 2) (alternating 16) true ∧
    ¬TookEffect .utc (fun _ => none) getFirst (.twoPrincipals 2) (alternating 16) false := by
  have hget : replied (fun reply => reply.status = some 200) ((getFirstSys.exec (alternating 16)).proc true) := by decide +kernel
  obtain ⟨reply, hend, hstatus⟩ := exists_of_replied hget
  unfold getFirstSys at hend
  have hserved : TookEffect .utc (fun _ => none) getFirst (.twoPrincipals 2) (alternating 16) true :=
    Or.inr ⟨_, _, _, reply, rfl, by decide, hend, 200, of_decide_eq_true hstatus, Or.inl (by decide)⟩
  refine ⟨hserved, fun hagain => ?_⟩
  have hsame := server_served_once .utc (fun _ => none) getFirst (.twoPrincipals 2) twoPrincipals_integral getFirst_unrepeated
    (alternating 16) (alternating_calm 16) getFirst_seq (ascii "A1") 1 true false rfl rfl hserved hagain
  cases hsame

/-- A request that begins when its nonce, which was there, is gone, has no effect. -/
theorem server_logged_out (C : Libc) (caldavParse : Bytes → Option Caldav) (steps : ι → ServerStep) (db : Db) (hdb : Integral db)
    (hun : Unrepeated steps db.space) (sched : List (ι × Choice)) (hcalm : ∀ x ∈ sched, x.2.commitFails = false)
    (hseq : ∀ n, ((serverSys C caldavParse steps db).exec (sched.take n)).shared.principalSeq < 2 ^ 31) (nonce : Bytes) (m k : ℕ)
    (hmk : m ≤ k) (hthere : ((serverSys C caldavParse steps db).exec (sched.take m)).shared.space.nonce nonce ≠ none)
    (hgone : ((serverSys C caldavParse steps db).exec (sched.take k)).shared.space.nonce nonce = none) (i : ι)
    (hbegins : ∀ x ∈ sched.take k, x.1 ≠ i) (count : Int) (hi : (steps i).claim = some (nonce, count)) :
    ¬TookEffect C caldavParse steps db sched i := by
  intro heffect
  obtain ⟨mark, h⟩ := linear True hdb sched (fun _ => hcalm) hseq
  obtain ⟨n, hn, ⟨e, hacts⟩, hw⟩ := heffect.admitted h hi
  have hkn : k ≤ n := by
    by_contra hlt
    refine hbegins (i, e) (List.mem_of_getElem? (i := n) ?_) rfl
    rwa [List.getElem?_take_of_lt (not_le.mp hlt)]
  obtain ⟨next, hnext, -⟩ := (h.step hacts hw).enabled
  cases (h.gone hun hthere hmk hgone hkn hn.le).symm.trans hnext

/-- `joe` logs out, or asks for a resource afterwards. -/
def logoutThenGet (asks : Bool) : ServerStep :=
  if asks then
    .request { Kreq.bare .get (ascii "/joe/calendar/a.ics") with auth := some ⟨true, ascii "joe", ascii "A1", 2, fun _ => 1⟩ } [] []
  else
    .request { Kreq.bare .get (ascii "/logout") with
      auth := some ⟨true, ascii "joe", ascii "A1", 1, fun _ => 1⟩
      mime := .appJson
      page := some .logout } [] []

abbrev logoutSys : Sys Bool Choice Db Answer := serverSys .utc (fun _ => none) logoutThenGet (.twoPrincipals 2)

/-- The actions of the logout, and then those of the `GET`. -/
def logoutGet : List (Bool × Choice) := List.replicate 7 (false, .calm) ++ List.replicate 6 (true, .calm)

theorem logoutGet_calm : ∀ x ∈ logoutGet, x.2.commitFails = false := by
  intro x hx
  rcases List.mem_append.mp hx with hx | hx <;> rw [List.eq_of_mem_replicate hx] <;> rfl

theorem logoutThenGet_seq : ∀ n, (logoutSys.exec (logoutGet.take n)).shared.principalSeq < 2 ^ 31 :=
  forall_take (p := fun s => (logoutSys.exec s).shared.principalSeq < 2 ^ 31) (by decide +kernel)

theorem logoutThenGet_unrepeated : Unrepeated logoutThenGet (Db.twoPrincipals 2).space := by
  have hnone : ∀ i, (logoutThenGet i).nonces = [] := by decide
  refine ⟨fun i j n hn => ?_, fun i n hn => ?_, fun i n count h => ?_⟩
  · rw [hnone] at hn
    cases hn
  · rw [hnone] at hn
    cases hn
  · cases i <;> cases h <;> decide

/-- The nonce is gone when the logout has ended. -/
theorem server_logged_out_get : ¬TookEffect .utc (fun _ => none) logoutThenGet (.twoPrincipals 2) logoutGet true :=
  server_logged_out .utc (fun _ => none) logoutThenGet (.twoPrincipals 2) twoPrincipals_integral logoutThenGet_unrepeated logoutGet
    logoutGet_calm logoutThenGet_seq (ascii "A1") 0 7 (by decide) (by decide +kernel) (by decide +kernel) true
    (fun x hx => by rw [List.eq_of_mem_replicate (n := 7) hx]; decide) 2 rfl

end Effects

end Kcaldav
