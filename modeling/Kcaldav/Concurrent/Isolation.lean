import Kcaldav.Concurrent.Linearizable

/-! # Who reaches what

Of what belongs to an account, but for the ctags of its calendars, nothing changes but by
a step that has seen the password of the account, or of one that may write for it at the
time, or that the owner of the database takes. Only a calendar is made by the tool before it
looks at the password. An account that takes no part and has let nobody write finds its
things as it left them, whatever the others do and in whatever order. What a reply shows was
there while the request was served, in a calendar of the one whose password the request has
or of one who lets him read.
-/
namespace Kcaldav
open CString Discipline

variable {firm : Prop} {C : Libc} {caldavParse : Bytes → Option Caldav} {r : Kreq} {etag q url : Bytes} {cal : CalName}
  {w : SpaceEvent} {evs : List SpaceEvent}

/-! ## Whose events a step leaves -/

theorem Changes.owner (h : Changes C caldavParse r etag cal url w) : w.owner = some cal.1 := by cases h <;> rfl

theorem Looks.owner (h : Looks caldavParse r cal url w) : w.owner = some cal.1 := by cases h <;> rfl

theorem Looks.isSight (h : Looks caldavParse r cal url w) : w.IsSight := by cases h <;> trivial

theorem Fulfils.owner (h : Fulfils C caldavParse r etag cal url evs) : ∀ w ∈ evs, w.owner = some cal.1 := by
  intro w hw
  rcases h with ⟨w', rfl, hchange⟩ | hlooks
  · rw [List.mem_singleton.mp hw, hchange.owner]
  · exact (hlooks w hw).owner

theorem PageDoes.owner {user nonce : Bytes} {acc : Account} (h : PageDoes r user nonce acc w) (howner : w.owner = some q) : q = user := by
  cases h <;> cases howner <;> rfl

/-- A method that changes something is let through to those who may write. -/
theorem Changes.write {bits : Int} (h : Changes C caldavParse r etag cal url w) (hbits : proxyAllows r.method bits) :
    bits = PROXY_WRITE := by
  unfold proxyAllows at hbits
  cases h <;> simp_all

/-- What a request leaves of another account: permission is seen first. -/
theorem Performs.other_account {auth : Digest} {acc : Account} (h : Performs C caldavParse r etag auth acc evs) (hq : auth.user ≠ q)
    (hw : w ∈ evs) (howner : w.owner = some q) :
    ∃ bits, .grant q auth.user bits ∈ evs ∧ (bits = PROXY_READ ∨ bits = PROXY_WRITE) ∧ (w.IsSight ∨ bits = PROXY_WRITE) := by
  cases h with
  | nothing => cases hw
  | page hjson hpage =>
    obtain rfl := List.mem_singleton.mp hw
    exact absurd (hpage.owner howner).symm hq
  | own hpath hevs => exact absurd (Option.some.inj ((hevs.owner w hw).symm.trans howner)) hq
  | @other q' c url bits evs hpath hne hbits hevs =>
    have hallowed : bits = PROXY_READ ∨ bits = PROXY_WRITE := by
      unfold proxyAllows at hbits
      split at hbits <;> simp_all
    rcases List.mem_cons.mp hw with rfl | hw
    · obtain rfl : q' = q := Option.some.inj howner
      exact ⟨bits, List.mem_cons_self, hallowed, Or.inl trivial⟩
    · obtain rfl : q' = q := Option.some.inj ((hevs.owner w hw).symm.trans howner)
      refine ⟨bits, List.mem_cons_self, hallowed, ?_⟩
      rcases hevs with ⟨w', rfl, hchange⟩ | hlooks
      · exact Or.inr (hchange.write hbits)
      · exact Or.inl (hlooks w hw).isSight

/-- A request that sees or does something of an account has seen the record that its digest
fits, and a permission if that is of another account. -/
theorem Asks.entitled {draws : List Bytes} (h : Asks C caldavParse r etag draws firm evs) (hw : w ∈ evs) (howner : w.owner = some q) :
    ∃ auth acc, r.auth = some auth ∧ 0 < auth.validatehash acc.hash ∧ .record auth.user acc ∈ evs ∧ (auth.user = q ∨
      ∃ bits, .grant q auth.user bits ∈ evs ∧ (bits = PROXY_READ ∨ bits = PROXY_WRITE) ∧ (w.IsSight ∨ bits = PROXY_WRITE)) := by
  obtain ⟨auth, acc, hauth, hsig, hrecord, hcases⟩ := h.of_mem hw
  refine ⟨auth, acc, hauth, hsig, hrecord, ?_⟩
  rcases hcases with rfl | ⟨n, -, culled, rfl⟩ | rfl | ⟨evs', hevs, hw', hsub⟩
  · exact Or.inl (Option.some.inj howner)
  · cases howner
  · cases howner
  · by_cases hq : auth.user = q
    · exact Or.inl hq
    · obtain ⟨bits, hgrant, hbits⟩ := hevs.other_account hq hw' howner
      exact Or.inr ⟨bits, hsub hgrant, hbits⟩

theorem AdminAsks.owner {a : Passwd} (h : AdminAsks C a evs) : ∀ w ∈ evs, w.owner = some a.user := by
  intro w hw
  obtain ⟨-, ⟨-, rfl⟩ | ⟨_, rfl⟩ | ⟨-, _, -, rfl⟩ | ⟨_, -, -, -, rfl⟩ | ⟨⟨f, hf, res, hres, rfl⟩, -⟩⟩ := h.of_mem hw
  all_goals rfl

/-- The tool does something for the owner of the database, or for one whose old password has
been entered, but for the calendar that it makes before it compares the password. -/
theorem AdminAsks.entitled {a : Passwd} (h : AdminAsks C a evs) (hw : w ∈ evs) (hsight : ¬w.IsSight) :
    ((a.adduser ∨ a.altuser) ∧ a.owned) ∨ (∃ acc, .record a.user acc ∈ evs ∧ acc.hash = a.dold) ∨
      ∃ url, a.coln = some url ∧ w = .mkcalendar (a.user, url) := by
  obtain ⟨howned, hcases⟩ := h.of_mem hw
  by_cases hnamed : a.adduser ∨ a.altuser
  · exact Or.inl ⟨hnamed, howned hnamed⟩
  obtain ⟨hadd, halt⟩ := not_or.mp hnamed
  rcases hcases with ⟨hadd', -⟩ | ⟨acc, rfl⟩ | ⟨-, hmade⟩ | ⟨acc, -, hmay, hrecord, -⟩ | ⟨-, hset⟩
  · exact absurd hadd' hadd
  · exact absurd trivial hsight
  · exact Or.inr (Or.inr hmade)
  · exact Or.inr (Or.inl ⟨acc, hrecord, hmay.resolve_left halt⟩)
  · obtain ⟨acc, hmay, hrecord⟩ := hset hadd
    exact Or.inr (Or.inl ⟨acc, hrecord, hmay.resolve_left halt⟩)

/-! ## Interleavings -/

section Interleaving
variable {ι : Type} [DecidableEq ι] {steps : ι → ServerStep} {db : Db} {sched : List (ι × Choice)}

/-- Where an action changes what belongs to an account, it is an event of that account. -/
theorem changed_by {mark : ℕ → Option SpaceEvent} (h : Linear C caldavParse firm steps db sched mark) {n : ℕ} {i : ι} {e : Choice}
    (hn : sched[n]? = some (i, e))
    (hchanged : ¬Space.SameFor q ((serverSys C caldavParse steps db).exec (sched.take n)).shared.space
      ((serverSys C caldavParse steps db).exec (sched.take (n + 1))).shared.space) :
    ∃ w, mark n = some w ∧ w.owner = some q ∧ ¬w.IsSight := by
  have hhappens := h.happens n i e hn
  cases hw : mark n with
  | none =>
    rw [hw] at hhappens
    exact absurd (show Space.SameFor q _ _ from hhappens ▸ .refl q _) hchanged
  | some w =>
    have hstep := h.step hn hw
    refine ⟨w, rfl, ?_, fun hsight => hchanged ?_⟩
    · by_contra howner
      exact hchanged (hstep.sameFor howner)
    · rw [hstep.eq_of_isSight hsight]
      exact .refl q _

section
variable (C caldavParse steps db sched)

/-- At an earlier action of the step the space was so. -/
def SeenBy (i : ι) (n : ℕ) (p : Space → Prop) : Prop :=
  ∃ m < n, (∃ e, sched[m]? = some (i, e)) ∧ p ((serverSys C caldavParse steps db).exec (sched.take m)).shared.space

/-- The step is a request with a digest of the user that fits the hash in his record, as it
was at an earlier action of the request. -/
def SignedBy (i : ι) (n : ℕ) (user : Bytes) : Prop :=
  ∃ r etag draws auth, steps i = .request r etag draws ∧ r.checked.auth = some auth ∧ auth.user = user ∧
    SeenBy C caldavParse steps db sched i n fun s => ∃ acc, s.account user = some acc ∧ 0 < auth.validatehash acc.hash

/-- By what right the next action of a step, the one of that number, is one for the account. -/
inductive ActsFor (i : ι) (n : ℕ) (q : Bytes) : Prop
  | signed (h : SignedBy C caldavParse steps db sched i n q)
  -- the owner of the database, who names the account with `-u` or adds it with `-C`
  | owner {a : Passwd} (hi : steps i = .passwd a) (hq : a.user = q) (hnamed : a.adduser ∨ a.altuser) (howned : a.owned)
  -- a run of the tool in which the old password was entered
  | entered {a : Passwd} (hi : steps i = .passwd a) (hq : a.user = q)
    (hold : SeenBy C caldavParse steps db sched i n fun s => ∃ acc, s.account q = some acc ∧ acc.hash = a.dold)
  -- the calendar that the tool makes whatever password was entered
  | made {a : Passwd} {url : Bytes} (hi : steps i = .passwd a) (hq : a.user = q) (hcoln : a.coln = some url)
    (hstep : Space.Step (.mkcalendar (q, url)) ((serverSys C caldavParse steps db).exec (sched.take n)).shared.space
      ((serverSys C caldavParse steps db).exec (sched.take (n + 1))).shared.space)

end

/-- What the step has left before an action has been seen by it. -/
theorem Linear.seenBy {mark : ℕ → Option SpaceEvent} (h : Linear C caldavParse firm steps db sched mark) {n : ℕ} {i : ι} {e : Choice}
    (hn : sched[n]? = some (i, e)) (hw : mark n = some w) {w' : SpaceEvent} (hw' : w' ∈ marksOf sched mark i (n + 1)) (hne : w' ≠ w) :
    SeenBy C caldavParse steps db sched i n w'.Enabled := by
  obtain ⟨m, hm, ⟨e', he'⟩, hmark⟩ := mem_marksOf.mp hw'
  refine ⟨m, ?_, ⟨e', he'⟩, (h.step he' hmark).enabled⟩
  rcases Nat.lt_or_eq_of_le (Nat.le_of_lt_succ hm) with hlt | rfl
  · exact hlt
  · exact absurd (Option.some.inj (hmark.symm.trans hw)) hne

/-- What is done of an account is done by right. -/
theorem Linear.entitled {mark : ℕ → Option SpaceEvent} (h : Linear C caldavParse firm steps db sched mark) {n : ℕ} {i : ι} {e : Choice}
    (hn : sched[n]? = some (i, e)) (hw : mark n = some w) (howner : w.owner = some q) (hsight : ¬w.IsSight) :
    ActsFor C caldavParse steps db sched i n q ∨ ∃ user, user ≠ q ∧ SignedBy C caldavParse steps db sched i n user ∧
      SeenBy C caldavParse steps db sched i n fun s => s.delegate (q, user) = some PROXY_WRITE := by
  have hlen : n + 1 ≤ sched.length := (List.getElem?_eq_some_iff.mp hn).1
  have hmem : w ∈ marksOf sched mark i (n + 1) := mem_marksOf.mpr ⟨n, Nat.lt_succ_self n, ⟨e, hn⟩, hw⟩
  have hleaves := h.leaves (n + 1) hlen i
  have hseen {w' : SpaceEvent} (hw' : w' ∈ marksOf sched mark i (n + 1)) (hsight' : w'.IsSight) :
      SeenBy C caldavParse steps db sched i n w'.Enabled := h.seenBy hn hw hw' fun heq => hsight (heq ▸ hsight')
  cases hi : steps i with
  | request r etag draws =>
    rw [hi] at hleaves
    obtain ⟨auth, acc, hauth, hsig, hrecord, hright⟩ := Asks.entitled hleaves hmem howner
    have hsigned : SignedBy C caldavParse steps db sched i n auth.user := by
      obtain ⟨m, hm, hacts, henabled⟩ := hseen hrecord trivial
      exact ⟨r, etag, draws, auth, hi, hauth, rfl, m, hm, hacts, acc, henabled, hsig⟩
    by_cases hq : auth.user = q
    · exact Or.inl (.signed (hq ▸ hsigned))
    · obtain ⟨bits, hgrant, -, hbits⟩ := hright.resolve_left hq
      obtain rfl := hbits.resolve_left hsight
      exact Or.inr ⟨auth.user, hq, hsigned, hseen hgrant trivial⟩
  | passwd a =>
    rw [hi] at hleaves
    have hq : a.user = q := Option.some.inj ((AdminAsks.owner hleaves w hmem).symm.trans howner)
    rcases AdminAsks.entitled hleaves hmem hsight with ⟨hnamed, howned⟩ | ⟨acc, hrecord, hold⟩ | ⟨url, hcoln, rfl⟩
    · exact Or.inl (.owner hi hq hnamed howned)
    · obtain ⟨m, hm, hacts, henabled⟩ := hseen hrecord trivial
      exact Or.inl (.entered hi hq ⟨m, hm, hacts, acc, hq ▸ henabled, hold⟩)
    · exact Or.inl (.made hi hq hcoln (hq ▸ h.step hn hw))

/-- Whoever changes what belongs to an account has a right to. -/
theorem written_by (hdb : Integral db) (hseq : ∀ n, ((serverSys C caldavParse steps db).exec (sched.take n)).shared.principalSeq < 2 ^ 31)
    {n : ℕ} {i : ι} {e : Choice} (hn : sched[n]? = some (i, e))
    (hchanged : ¬Space.SameFor q ((serverSys C caldavParse steps db).exec (sched.take n)).shared.space
      ((serverSys C caldavParse steps db).exec (sched.take (n + 1))).shared.space) :
    ActsFor C caldavParse steps db sched i n q ∨ ∃ user, user ≠ q ∧ SignedBy C caldavParse steps db sched i n user ∧
      SeenBy C caldavParse steps db sched i n fun s => s.delegate (q, user) = some PROXY_WRITE := by
  obtain ⟨mark, h⟩ := linear False hdb sched nofun hseq
  obtain ⟨w, hw, howner, hsight⟩ := changed_by h hn hchanged
  exact h.entitled hn hw howner hsight

end Interleaving

/-! ## A reader and a writer -/

/-- `joe` lets `eve` do what the bits say. -/
def Db.lent (bits : Int) : Db :=
  { Db.twoPrincipals 2 with
    proxy := [⟨1, 2, bits, 1⟩]
    proxySeq := 1 }

/-- `eve` removes the resource in the calendar of `joe`, or asks for it. -/
def eveAtWork (removes : Bool) : ServerStep :=
  .request { Kreq.bare (if removes then .delete else .get) (ascii "/joe/calendar/a.ics") with
    auth := some ⟨true, ascii "eve", ascii "A1", 1, fun _ => 1⟩ } [] []

abbrev eveAlone (removes : Bool) (bits : Int) : Sys Unit Choice Db Answer :=
  serverSys .utc (fun _ => none) (fun _ => eveAtWork removes) (.lent bits)

theorem lent_integral (bits : Int) (h : bits = PROXY_READ ∨ bits = PROXY_WRITE) : Integral (.lent bits) := by
  rcases h with rfl | rfl <;> constructor <;> decide +kernel

/-- In any interleaving, a step that changes what belongs to an account, but for the ctags of
its calendars, acts for it or is a request with the password of one whom the account lets
write when the request looks. -/
theorem server_written {ι : Type} [DecidableEq ι] (C : Libc) (caldavParse : Bytes → Option Caldav) (steps : ι → ServerStep) (db : Db)
    (hdb : Integral db) (sched : List (ι × Choice))
    (hseq : ∀ n, ((serverSys C caldavParse steps db).exec (sched.take n)).shared.principalSeq < 2 ^ 31) (n : ℕ) (i : ι) (e : Choice)
    (hn : sched[n]? = some (i, e)) (q : Bytes)
    (hchanged : ¬Space.SameFor q ((serverSys C caldavParse steps db).exec (sched.take n)).shared.space
      ((serverSys C caldavParse steps db).exec (sched.take (n + 1))).shared.space) :
    ActsFor C caldavParse steps db sched i n q ∨ ∃ user, user ≠ q ∧ SignedBy C caldavParse steps db sched i n user ∧
      SeenBy C caldavParse steps db sched i n fun s => s.delegate (q, user) = some PROXY_WRITE :=
  written_by hdb hseq hn hchanged

theorem eveAlone_seq : ∀ n, ((eveAlone true PROXY_WRITE).exec ((List.replicate 11 ((), Choice.calm)).take n)).shared.principalSeq < 2 ^ 31 :=
  forall_take (p := fun s => ((eveAlone true PROXY_WRITE).exec s).shared.principalSeq < 2 ^ 31) (by decide +kernel)

theorem eveAlone_changes : ¬Space.SameFor (ascii "joe")
    ((eveAlone true PROXY_WRITE).exec ((List.replicate 11 ((), Choice.calm)).take 10)).shared.space
    ((eveAlone true PROXY_WRITE).exec ((List.replicate 11 ((), Choice.calm)).take (10 + 1))).shared.space := by
  have hgone : ((eveAlone true PROXY_WRITE).exec ((List.replicate 11 ((), Choice.calm)).take (10 + 1))).shared.space.resource
      ((ascii "joe", ascii "calendar"), ascii "a.ics") = none := by decide +kernel
  have hthere : ((eveAlone true PROXY_WRITE).exec ((List.replicate 11 ((), Choice.calm)).take 10)).shared.space.resource
      ((ascii "joe", ascii "calendar"), ascii "a.ics") ≠ none := by decide +kernel
  exact fun hsame => hthere ((hsame.resource (ascii "calendar") (ascii "a.ics")).symm.trans hgone)

/-- The removal is the eleventh action of the request, which has seen that the digest is that
of `eve` and that she may write. -/
theorem server_written_delete : ∃ user, user ≠ ascii "joe" ∧
    SignedBy .utc (fun _ => none) (fun _ : Unit => eveAtWork true) (.lent PROXY_WRITE) (List.replicate 11 ((), .calm)) () 10 user ∧
    SeenBy .utc (fun _ => none) (fun _ : Unit => eveAtWork true) (.lent PROXY_WRITE) (List.replicate 11 ((), .calm)) () 10
      fun s => s.delegate (ascii "joe", user) = some PROXY_WRITE := by
  refine (server_written .utc (fun _ => none) (fun _ : Unit => eveAtWork true) (.lent PROXY_WRITE) (lent_integral _ (Or.inr rfl))
    (List.replicate 11 ((), .calm)) eveAlone_seq 10 () .calm (by simp) (ascii "joe") eveAlone_changes).resolve_left fun hjoe => ?_
  cases hjoe with
  | signed h =>
    obtain ⟨r, etag, draws, auth, hi, hauth, huser, -⟩ := h
    cases hi
    obtain rfl := Option.some.inj hauth
    exact absurd huser (by decide)
  | owner hi => cases hi
  | entered hi => cases hi
  | made hi => cases hi

/-- The account takes no part. No digest that names it fits its password, the owner of the
database does not run the tool on it, and it does not run the tool itself with its password
or with a calendar to make. Whom it lets write does not sign any request either. -/
structure Bystander {ι : Type} [DecidableEq ι] (C : Libc) (caldavParse : Bytes → Option Caldav) (steps : ι → ServerStep) (db : Db)
    (sched : List (ι × Choice)) (q : Bytes) : Prop where
  signed : ∀ i r etag draws auth, steps i = .request r etag draws → r.checked.auth = some auth → auth.user = q →
    ∀ acc, db.space.account q = some acc → ¬0 < auth.validatehash acc.hash
  lent : ∀ i r etag draws auth, steps i = .request r etag draws → r.checked.auth = some auth →
    db.space.delegate (q, auth.user) = some PROXY_WRITE → ∀ n acc,
      ((serverSys C caldavParse steps db).exec (sched.take n)).shared.space.account auth.user = some acc → ¬0 < auth.validatehash acc.hash
  owner : ∀ i a, steps i = .passwd a → a.user = q → a.adduser ∨ a.altuser → ¬a.owned
  tool : ∀ i a, steps i = .passwd a → a.user = q → a.coln = none ∧ ∀ acc, db.space.account q = some acc → acc.hash ≠ a.dold

/-- What belongs to an account that takes no part, and that lets none of those write who
do, is at the end of any interleaving as it was, but for the ctags of its calendars. -/
theorem server_isolation {ι : Type} [DecidableEq ι] (C : Libc) (caldavParse : Bytes → Option Caldav) (steps : ι → ServerStep) (db : Db)
    (hdb : Integral db) (sched : List (ι × Choice))
    (hseq : ∀ n, ((serverSys C caldavParse steps db).exec (sched.take n)).shared.principalSeq < 2 ^ 31) (q : Bytes)
    (hbystander : Bystander C caldavParse steps db sched q) :
    Space.SameFor q db.space ((serverSys C caldavParse steps db).exec sched).shared.space := by
  have hall : ∀ n, ∀ m ≤ n, Space.SameFor q db.space ((serverSys C caldavParse steps db).exec (sched.take m)).shared.space := by
    intro n
    induction n with
    | zero =>
      intro m hm
      obtain rfl := Nat.le_zero.mp hm
      exact .refl q _
    | succ n ih =>
      intro m hm
      rcases Nat.lt_or_eq_of_le hm with hlt | rfl
      · exact ih m (Nat.le_of_lt_succ hlt)
      cases hn : sched[n]? with
      | none =>
        -- the schedule has ended before
        have hlen : sched.length ≤ n := List.getElem?_eq_none_iff.mp hn
        have hsame := ih n le_rfl
        rwa [List.take_of_length_le hlen, ← List.take_of_length_le (Nat.le_succ_of_le hlen)] at hsame
      | some x =>
        refine (ih n le_rfl).trans ?_
        by_contra hchanged
        rcases written_by hdb hseq hn hchanged with hacts | ⟨user, -, hsigned, k, hk, -, hdelegate⟩
        · cases hacts with
          | signed h =>
            obtain ⟨r, etag, draws, auth, hi, hauth, huser, k, hk, -, acc, hacc, hsig⟩ := h
            rw [(ih k hk.le).account] at hacc
            exact hbystander.signed x.1 r etag draws auth hi hauth huser acc hacc hsig
          | owner hi hq hnamed howned => exact hbystander.owner x.1 _ hi hq hnamed howned
          | entered hi hq hold =>
            obtain ⟨k, hk, -, acc, hacc, hhash⟩ := hold
            rw [(ih k hk.le).account] at hacc
            exact (hbystander.tool x.1 _ hi hq).2 acc hacc hhash
          | made hi hq hcoln =>
            rw [(hbystander.tool x.1 _ hi hq).1] at hcoln
            cases hcoln
        · obtain ⟨r, etag, draws, auth, hi, hauth, rfl, l, -, -, acc, hacc, hsig⟩ := hsigned
          rw [(ih k hk.le).delegate] at hdelegate
          exact hbystander.lent x.1 r etag draws auth hi hauth hdelegate l acc hacc hsig
  have hend := hall sched.length sched.length le_rfl
  rwa [List.take_length] at hend

/-- One action of each request after the other. -/
def alternating (n : ℕ) : List (Bool × Choice) := (List.range n).map fun k => (k % 2 = 0, Choice.calm)

/-- `eve` removes the resource, or another one does in the name of `joe` without his password. -/
def othersAtWork (forged : Bool) : ServerStep :=
  if forged then
    .request { Kreq.bare .delete (ascii "/joe/calendar/a.ics") with auth := some ⟨true, ascii "joe", ascii "A1", 1, fun _ => 0⟩ } [] []
  else eveAtWork true

abbrev othersSys : Sys Bool Choice Db Answer := serverSys .utc (fun _ => none) othersAtWork (.lent PROXY_READ)

theorem othersAtWork_seq : ∀ n, (othersSys.exec ((alternating 24).take n)).shared.principalSeq < 2 ^ 31 :=
  forall_take (p := fun s => (othersSys.exec s).shared.principalSeq < 2 ^ 31) (by decide +kernel)

/-- As a reader `eve` removes nothing of `joe`, and nobody does who has no password of him. -/
theorem server_isolation_reader : Space.SameFor (ascii "joe") (Db.lent PROXY_READ).space (othersSys.exec (alternating 24)).shared.space := by
  have hjoe : (Db.lent PROXY_READ).space.delegate (ascii "joe", ascii "joe") ≠ some PROXY_WRITE := by decide +kernel
  have heve : (Db.lent PROXY_READ).space.delegate (ascii "joe", ascii "eve") ≠ some PROXY_WRITE := by decide +kernel
  refine server_isolation .utc (fun _ => none) othersAtWork (.lent PROXY_READ) (lent_integral _ (Or.inl rfl)) (alternating 24)
    othersAtWork_seq (ascii "joe") ⟨fun i r etag draws auth hi hauth huser acc _ => ?_, fun i r etag draws auth hi hauth hlent => ?_,
      fun i a hi => ?_, fun i a hi => ?_⟩
  · cases i <;> cases hi <;> obtain rfl := Option.some.inj hauth
    · exact absurd huser (by decide)
    · exact lt_irrefl 0
  · cases i <;> cases hi <;> obtain rfl := Option.some.inj hauth
    · exact absurd hlent heve
    · exact absurd hlent hjoe
  · cases i <;> cases hi
  · cases i <;> cases hi

/-- In any interleaving, a request whose reply shows a resource has a digest that fits the
password of its user, and the resource was in the store while the request was served, in a
calendar of the user or of one who lets him read. -/
theorem server_shown {ι : Type} [DecidableEq ι] (C : Libc) (caldavParse : Bytes → Option Caldav) (steps : ι → ServerStep) (db : Db)
    (hdb : Integral db) (sched : List (ι × Choice))
    (hseq : ∀ n, ((serverSys C caldavParse steps db).exec (sched.take n)).shared.principalSeq < 2 ^ 31) (i : ι) (reply : Reply)
    (hend : ((serverSys C caldavParse steps db).exec sched).proc i = .ret (.reply reply)) (x : Item) (hx : x ∈ reply.items) (p : Res)
    (hp : p ∈ x.ress) :
    ∃ user cal, SignedBy C caldavParse steps db sched i sched.length user ∧
      SeenBy C caldavParse steps db sched i sched.length (fun s => s.resource (cal, p.url) = some p.entry) ∧
      (user = cal.1 ∨ SeenBy C caldavParse steps db sched i sched.length fun s =>
        ∃ bits, (bits = PROXY_READ ∨ bits = PROXY_WRITE) ∧ s.delegate (cal.1, user) = some bits) := by
  obtain ⟨mark, h⟩ := linear False hdb sched nofun hseq
  rw [← List.take_length (l := sched)] at hend
  have htells := h.tells sched.length le_rfl i _ hend
  have hleaves := h.leaves sched.length le_rfl i
  cases hi : steps i with
  | passwd a =>
    rw [hi] at htells
    exact htells.elim
  | request r etag draws =>
    rw [hi] at htells hleaves
    obtain ⟨w, hw, hshows⟩ := (Answered.toVouches htells).shown x hx p hp
    obtain ⟨n, hn, hacts, henabled⟩ := h.enabled hw
    obtain ⟨cal, howner, hlook⟩ : ∃ cal, w.owner = some cal.1 ∧
        SeenBy C caldavParse steps db sched i sched.length fun s => s.resource (cal, p.url) = some p.entry := by
      cases w with
      | look cal url e =>
        obtain ⟨rfl, rfl⟩ := hshows
        exact ⟨cal, rfl, n, hn, hacts, henabled⟩
      | listing cal es => exact ⟨cal, rfl, n, hn, hacts, henabled _ hshows⟩
      | _ => exact hshows.elim
    obtain ⟨auth, acc, hauth, hsig, hrecord, hright⟩ := Asks.entitled hleaves hw howner
    obtain ⟨m, hm, hacts', hthere⟩ := h.enabled hrecord
    refine ⟨auth.user, cal, ⟨r, etag, draws, auth, hi, hauth, rfl, m, hm, hacts', acc, hthere, hsig⟩, hlook, hright.imp_right ?_⟩
    rintro ⟨bits, hgrant, hbits, -⟩
    obtain ⟨l, hl, hacts'', hlent⟩ := h.enabled hgrant
    exact ⟨l, hl, hacts'', bits, hbits, hlent⟩

/-- `joe` asks for the resource in his calendar. -/
def getByJoe : ServerStep :=
  .request { Kreq.bare .get (ascii "/joe/calendar/a.ics") with auth := some ⟨true, ascii "joe", ascii "A1", 1, fun _ => 1⟩ } [] []

abbrev joeAlone : Sys Unit Choice Db Answer := serverSys .utc (fun _ => none) (fun _ => getByJoe) (.lent PROXY_READ)

theorem joeAlone_seq : ∀ n, (joeAlone.exec ((List.replicate 7 ((), Choice.calm)).take n)).shared.principalSeq < 2 ^ 31 :=
  forall_take (p := fun s => (joeAlone.exec s).shared.principalSeq < 2 ^ 31) (by decide +kernel)

/-- The resource that `joe` is shown is his, and it is there. -/
theorem server_shown_own : ∃ reply, (joeAlone.exec (List.replicate 7 ((), .calm))).proc () = .ret (.reply reply) ∧
    ∃ x ∈ reply.items, ∃ p ∈ x.ress, ∃ user cal,
      SignedBy .utc (fun _ => none) (fun _ : Unit => getByJoe) (.lent PROXY_READ) (List.replicate 7 ((), .calm)) () 7 user ∧
      SeenBy .utc (fun _ => none) (fun _ : Unit => getByJoe) (.lent PROXY_READ) (List.replicate 7 ((), .calm)) () 7
        (fun s => s.resource (cal, p.url) = some p.entry) ∧
      (user = cal.1 ∨ SeenBy .utc (fun _ => none) (fun _ : Unit => getByJoe) (.lent PROXY_READ) (List.replicate 7 ((), .calm)) () 7
        fun s => ∃ bits, (bits = PROXY_READ ∨ bits = PROXY_WRITE) ∧ s.delegate (cal.1, user) = some bits) := by
  have hreplied : replied (fun reply => reply.items.any fun x => x.ress.length = 1)
      ((joeAlone.exec (List.replicate 7 ((), .calm))).proc ()) := by decide +kernel
  obtain ⟨reply, hend, hshows⟩ := exists_of_replied hreplied
  obtain ⟨x, hx, hlen⟩ := List.any_eq_true.mp hshows
  obtain ⟨p, hp⟩ := List.length_eq_one_iff.mp (of_decide_eq_true hlen)
  have hmem : p ∈ x.ress := hp ▸ List.mem_singleton_self p
  refine ⟨reply, hend, x, hx, p, hmem, ?_⟩
  unfold joeAlone at hend
  exact server_shown .utc (fun _ => none) (fun _ : Unit => getByJoe) (.lent PROXY_READ) (lent_integral _ (Or.inl rfl))
    (List.replicate 7 ((), .calm)) joeAlone_seq () reply hend x hx p hmem

/-! ## What is never lent -/

/-- The record of the account and the permissions that it gives are the same, and it has no
new calendar. -/
structure Space.SameRights (q : Bytes) (s s' : Space) : Prop where
  account : s'.account q = s.account q
  delegate : ∀ user, s'.delegate (q, user) = s.delegate (q, user)
  calendar : ∀ url, s.calendar (q, url) = none → s'.calendar (q, url) = none

/-- An account is changed itself, it lets somebody act for it, or it has a new calendar. -/
def SpaceEvent.IsRight : SpaceEvent → Prop
  | .mkaccount _ _ _ | .account _ _ | .delegate _ _ _ | .undelegate _ _ | .mkcalendar _ => True
  | _ => False

theorem Space.Step.sameRights {s s' : Space} (h : Space.Step w s s') (hright : ¬w.IsRight) : Space.SameRights q s s' := by
  refine ⟨?_, fun user => ?_, fun url hnone => ?_⟩
  · rw [h.account]
    cases w <;> first | rfl | exact absurd trivial hright
  · rw [h.delegate]
    cases w <;> first | rfl | exact absurd trivial hright
  · have henabled := h.enabled
    rw [h.calendar]
    cases w with
    | mkcalendar _ | mkaccount _ _ _ => exact absurd trivial hright
    | rmcalendar cal =>
      rw [SpaceEvent.setsCalendar]
      split
      · rfl
      · exact hnone
    | display cal d =>
      -- only a calendar that is there is displayed
      have hne : (q, url) ≠ cal := fun heq => henabled (heq ▸ hnone)
      rwa [SpaceEvent.setsCalendar, if_neg hne]
    | _ => exact hnone

theorem Fulfils.not_right (h : Fulfils C caldavParse r etag cal url evs) (hw : w ∈ evs) : ¬w.IsRight := by
  rcases h with ⟨w', rfl, hchange⟩ | hlooks
  · obtain rfl := List.mem_singleton.mp hw
    cases hchange <;> exact id
  · cases hlooks w hw <;> exact id

/-- Rights are a matter of the account whose digest the request has. -/
theorem Asks.right {draws : List Bytes} (h : Asks C caldavParse r etag draws firm evs) (hw : w ∈ evs) (hright : w.IsRight)
    (howner : w.owner = some q) : ∃ auth, r.auth = some auth ∧ auth.user = q := by
  obtain ⟨auth, acc, hauth, -, -, rfl | ⟨_, -, _, rfl⟩ | rfl | ⟨evs', hevs, hw', -⟩⟩ := h.of_mem hw
  · exact hright.elim
  · exact hright.elim
  · exact hright.elim
  refine ⟨auth, hauth, ?_⟩
  cases hevs with
  | nothing => cases hw'
  | page hjson hpage =>
    obtain rfl := List.mem_singleton.mp hw'
    exact (hpage.owner howner).symm
  | own hpath hevs => exact absurd hright (hevs.not_right hw')
  | other hpath hq hbits hevs =>
    rcases List.mem_cons.mp hw' with rfl | hw'
    · exact hright.elim
    · exact absurd hright (hevs.not_right hw')

/-- In any interleaving, a step that changes the record of an account or its permissions, or
makes a calendar of it, acts for the account, whomever that lets write. -/
theorem server_no_escalation {ι : Type} [DecidableEq ι] (C : Libc) (caldavParse : Bytes → Option Caldav) (steps : ι → ServerStep) (db : Db)
    (hdb : Integral db) (sched : List (ι × Choice))
    (hseq : ∀ n, ((serverSys C caldavParse steps db).exec (sched.take n)).shared.principalSeq < 2 ^ 31) (n : ℕ) (i : ι) (e : Choice)
    (hn : sched[n]? = some (i, e)) (q : Bytes)
    (hchanged : ¬Space.SameRights q ((serverSys C caldavParse steps db).exec (sched.take n)).shared.space
      ((serverSys C caldavParse steps db).exec (sched.take (n + 1))).shared.space) : ActsFor C caldavParse steps db sched i n q := by
  obtain ⟨mark, h⟩ := linear False hdb sched nofun hseq
  have hdiffers : ¬Space.SameFor q ((serverSys C caldavParse steps db).exec (sched.take n)).shared.space
      ((serverSys C caldavParse steps db).exec (sched.take (n + 1))).shared.space :=
    fun hsame => hchanged ⟨hsame.account, hsame.delegate, fun url hnone => (hsame.calendar url).trans hnone⟩
  obtain ⟨w, hw, howner, hsight⟩ := changed_by h hn hdiffers
  have hright : w.IsRight := by
    by_contra hnot
    exact hchanged ((h.step hn hw).sameRights hnot)
  rcases h.entitled hn hw howner hsight with hacts | ⟨user, hne, ⟨r, etag, draws, auth, hi, hauth, rfl, -⟩, -⟩
  · exact hacts
  · -- a permission does not reach that far
    have hleaves := h.leaves (n + 1) (List.getElem?_eq_some_iff.mp hn).1 i
    rw [hi] at hleaves
    obtain ⟨auth', hauth', hq⟩ := Asks.right hleaves (mem_marksOf.mpr ⟨n, Nat.lt_succ_self n, ⟨e, hn⟩, hw⟩) hright howner
    obtain rfl := Option.some.inj (hauth.symm.trans hauth')
    exact absurd hq hne

/-- `joe` makes a calendar. -/
def newcolnByJoe : ServerStep :=
  .request { Kreq.bare .post (ascii "/newcoln") with
    mime := .appJson
    page := some .newcoln
    auth := some ⟨true, ascii "joe", ascii "A1", 1, fun _ => 1⟩
    fields := { (Kreq.bare .post (ascii "/newcoln")).fields with path := some (ascii "work") } } [] []

abbrev joeAtWork : Sys Unit Choice Db Answer := serverSys .utc (fun _ => none) (fun _ => newcolnByJoe) (.lent PROXY_WRITE)

theorem joeAtWork_seq : ∀ n, (joeAtWork.exec ((List.replicate 7 ((), Choice.calm)).take n)).shared.principalSeq < 2 ^ 31 :=
  forall_take (p := fun s => (joeAtWork.exec s).shared.principalSeq < 2 ^ 31) (by decide +kernel)

theorem joeAtWork_changes : ¬Space.SameRights (ascii "joe") (joeAtWork.exec ((List.replicate 7 ((), Choice.calm)).take 6)).shared.space
    (joeAtWork.exec ((List.replicate 7 ((), Choice.calm)).take (6 + 1))).shared.space := by
  intro hsame
  have hbefore : (joeAtWork.exec ((List.replicate 7 ((), Choice.calm)).take 6)).shared.space.calendar (ascii "joe", ascii "work") = none := by
    decide +kernel
  have hafter : (joeAtWork.exec ((List.replicate 7 ((), Choice.calm)).take (6 + 1))).shared.space.calendar
      (ascii "joe", ascii "work") ≠ none := by decide +kernel
  exact hafter (hsame.calendar (ascii "work") hbefore)

/-- The calendar that is new after the seventh action is made by `joe`, whose digest has been checked. -/
theorem server_no_escalation_newcoln :
    SignedBy .utc (fun _ => none) (fun _ : Unit => newcolnByJoe) (.lent PROXY_WRITE) (List.replicate 7 ((), .calm)) () 6 (ascii "joe") := by
  have hacts := server_no_escalation .utc (fun _ => none) (fun _ : Unit => newcolnByJoe) (.lent PROXY_WRITE) (lent_integral _ (Or.inr rfl))
    (List.replicate 7 ((), .calm)) joeAtWork_seq 6 () .calm (by simp) (ascii "joe") joeAtWork_changes
  cases hacts with
  | signed h => exact h
  | owner hi => cases hi
  | entered hi => cases hi
  | made hi => cases hi

end Kcaldav
