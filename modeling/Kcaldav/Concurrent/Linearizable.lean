import Kcaldav.Concurrent.Linear
import Kcaldav.Server.Addressable

/-! # Interleavings of the server

Any number of requests and runs of the administrator's tool, interleaved action by action
under any schedule and any faults, are one run of the space of calendars: each action is
one event or none. A step leaves only what it may, while it runs, and its end vouches for
a part of it. What the space does in such runs is then a matter of the events alone.
-/
namespace Kcaldav
open CString Discipline

/-- The end of a step: the reply of a request or the status of the tool. -/
inductive Answer
  | reply (reply : Reply)
  | exit (status : Int)

section System
variable (C : Libc) (caldavParse : Bytes → Option Caldav)

namespace ServerStep

def answer : ServerStep → DbProg Answer
  | .request r etag draws => do
    let reply ← main C caldavParse r.checked etag draws
    return .reply reply
  | .passwd a => do
    let status ← passwdMain C a
    return .exit status

/-- The events that the step may leave. -/
def Leaves (firm : Prop) : ServerStep → List SpaceEvent → Prop
  | .request r etag draws => Asks C caldavParse r.checked etag draws firm
  | .passwd a => AdminAsks C a

/-- What its end vouches for of the events it has left. -/
def Tells (firm : Prop) : ServerStep → List SpaceEvent → Answer → Prop
  | .request r etag _, evs, .reply reply => Answered C caldavParse r.checked etag firm evs reply
  | .passwd a, evs, .exit status => AdminAnswers C firm a evs status
  | _, _, _ => False

end ServerStep

/-- Steps on one store. -/
def serverSys {ι : Type} (steps : ι → ServerStep) (db : Db) : Sys ι Choice Db Answer where
  shared := db
  proc i := (steps i).answer C caldavParse

end System

variable {C : Libc} {caldavParse : Bytes → Option Caldav} {firm : Prop} {ι : Type} {steps : ι → ServerStep} {db : Db}

theorem answer_traces (s : ServerStep) : (spaceDiscipline firm).Traces (s.Leaves C caldavParse firm) [] (fun _ => True)
    (s.answer C caldavParse) fun tr _ a => s.Tells C caldavParse firm tr a := by
  cases s with
  | request r etag draws =>
    exact .bind .nothing .unit (main_traces draws) fun tr _ reply _ _ h => .ret h
  | passwd a => exact .bind .nothing .unit passwdMain_traces fun tr _ status _ _ h => .ret h

/-- Every step is followed from its start. -/
theorem serverSys_tracked (hdb : Integral db) :
    (spaceDiscipline firm).Tracked (fun i => (steps i).Leaves C caldavParse firm) (fun i tr _ a => (steps i).Tells C caldavParse firm tr a)
      (fun _ => []) (fun _ _ => True) (serverSys C caldavParse steps db) where
  inv := hdb
  follows i :=
    { stable := .unit
      holds := trivial
      accepted := by
        cases steps i with
        | request r etag draws => exact .nothing
        | passwd a => exact .nothing
      traces := answer_traces _ }

/-- What an action is that is marked with an event, or with none. -/
def Space.Happens : Option SpaceEvent → Space → Space → Prop
  | none, s, s' => s' = s
  | some w, s, s' => Space.Step w s s'

theorem Moves.happens {w : Option SpaceEvent} {db db' : Db} (h : Moves w db db') : Space.Happens w db.space db'.space := by
  cases w with
  | none => exact h.2
  | some w => exact h.2

variable [DecidableEq ι]

/-- What is known of an interleaving of which each action is marked with its event. -/
structure Linear (C : Libc) (caldavParse : Bytes → Option Caldav) (firm : Prop) (steps : ι → ServerStep) (db : Db)
    (sched : List (ι × Choice)) (mark : ℕ → Option SpaceEvent) : Prop where
  happens : ∀ n i e, sched[n]? = some (i, e) → Space.Happens (mark n) ((serverSys C caldavParse steps db).exec (sched.take n)).shared.space
    ((serverSys C caldavParse steps db).exec (sched.take (n + 1))).shared.space
  ended : ∀ n i e a, sched[n]? = some (i, e) → ((serverSys C caldavParse steps db).exec (sched.take n)).proc i = .ret a → mark n = none
  integral : ∀ n ≤ sched.length, Integral ((serverSys C caldavParse steps db).exec (sched.take n)).shared
  leaves : ∀ n ≤ sched.length, ∀ i, (steps i).Leaves C caldavParse firm (marksOf sched mark i n)
  tells : ∀ n ≤ sched.length, ∀ i a, ((serverSys C caldavParse steps db).exec (sched.take n)).proc i = .ret a →
    (steps i).Tells C caldavParse firm (marksOf sched mark i n) a

variable (firm) in
theorem linear (hdb : Integral db) (sched : List (ι × Choice)) (hfirm : firm → ∀ x ∈ sched, x.2.commitFails = false)
    (hseq : ∀ n, ((serverSys C caldavParse steps db).exec (sched.take n)).shared.principalSeq < 2 ^ 31) :
    ∃ mark, Linear C caldavParse firm steps db sched mark := by
  obtain ⟨mark, hmark, htracked⟩ :=
    (@serverSys_tracked C caldavParse firm ι steps db hdb).marks sched (fun x hx hf => hfirm hf x hx) hseq
  refine ⟨mark, fun n i e hn => (hmark n _ hn).1.happens, fun n i e a hn => (hmark n _ hn).2 a, fun n hn => ?_, fun n hn i => ?_,
    fun n hn i a ha => ?_⟩
  · obtain ⟨P, h⟩ := htracked n hn
    exact h.inv
  · obtain ⟨P, h⟩ := htracked n hn
    exact (h.follows i).accepted
  · obtain ⟨P, h⟩ := htracked n hn
    exact h.ended ha

namespace Linear
variable {sched : List (ι × Choice)} {mark : ℕ → Option SpaceEvent} {n : ℕ} {i : ι} {e : Choice} {w : SpaceEvent}

theorem step (h : Linear C caldavParse firm steps db sched mark) (hn : sched[n]? = some (i, e)) (hw : mark n = some w) :
    Space.Step w ((serverSys C caldavParse steps db).exec (sched.take n)).shared.space
      ((serverSys C caldavParse steps db).exec (sched.take (n + 1))).shared.space := by
  have hstep := h.happens n i e hn
  rwa [hw] at hstep

/-- What a step has left could happen at one of its actions. -/
theorem enabled (h : Linear C caldavParse firm steps db sched mark) (hw : w ∈ marksOf sched mark i n) :
    ∃ m < n, (∃ e, sched[m]? = some (i, e)) ∧ w.Enabled ((serverSys C caldavParse steps db).exec (sched.take m)).shared.space := by
  obtain ⟨m, hm, ⟨e, he⟩, hmark⟩ := mem_marksOf.mp hw
  exact ⟨m, hm, ⟨e, he⟩, (h.step he hmark).enabled⟩

end Linear

/-- The request has ended with a reply as given. -/
def replied (p : Reply → Bool) : DbProg Answer → Bool
  | .ret (.reply reply) => p reply
  | _ => false

theorem exists_of_replied {p : Reply → Bool} {x : DbProg Answer} (h : replied p x) : ∃ reply, x = .ret (.reply reply) ∧ p reply := by
  unfold replied at h
  split at h
  next reply => exact ⟨reply, rfl, h⟩
  next => cases h

/-- The tool adding an account. -/
def Passwd.adding (user : Bytes) : Passwd where
  adduser := true
  altuser := true
  user := user
  coln := none
  email := none
  hostEmail := user ++ ascii "@example.com"
  passwd := true
  dold := []
  dnew := ascii "hash"
  drep := ascii "hash"
  owned := true
  argv := []

/-- The tool adds an account, and `joe` puts a resource. -/
def putAndAdd (adds : Bool) : ServerStep :=
  if adds then .passwd (.adding (ascii "ann")) else .request (putByJoe (ascii "/joe/calendar/b.ics")) (ascii "2-2") []

abbrev putAndAddSys : Sys Bool Choice Db Answer := serverSys .utc (fun _ => none) putAndAdd (.twoPrincipals 2)

/-- The account is added while the `PUT` is served. -/
def addWithin : List (Bool × Choice) := List.replicate 4 (false, .calm) ++ [(true, .calm)] ++ List.replicate 4 (false, .calm)

theorem twoPrincipals_integral : Integral (.twoPrincipals 2) := by
  constructor <;> decide +kernel

theorem putAndAdd_seq : ∀ n, (putAndAddSys.exec (addWithin.take n)).shared.principalSeq < 2 ^ 31 :=
  forall_take (p := fun s => (putAndAddSys.exec s).shared.principalSeq < 2 ^ 31) (by decide +kernel)

/-- However steps are interleaved and whatever fails, the keys, the identifiers and the
references of all tables are as the schema says. -/
theorem server_integral (C : Libc) (caldavParse : Bytes → Option Caldav) (steps : ι → ServerStep) (db : Db) (hdb : Integral db)
    (sched : List (ι × Choice)) (hseq : ∀ n, ((serverSys C caldavParse steps db).exec (sched.take n)).shared.principalSeq < 2 ^ 31) :
    Integral ((serverSys C caldavParse steps db).exec sched).shared := by
  obtain ⟨mark, h⟩ := linear False hdb sched nofun hseq
  have hend := h.integral sched.length le_rfl
  rwa [List.take_length] at hend

theorem server_integral_put : Integral (putAndAddSys.exec addWithin).shared :=
  server_integral .utc (fun _ => none) putAndAdd (.twoPrincipals 2) twoPrincipals_integral addWithin putAndAdd_seq

end Kcaldav
