import Kcaldav.Concurrent.Isolation

/-! # What a tag stands for

Where no tag is drawn twice, a tag stands for one text under one name, in any
interleaving and for ever. What answers have said of a resource can then be told apart by
its tags: a tag that is current stands for what was ever said to have it, and what is
read after an answer is no older than what the answer has said.
-/
namespace Kcaldav
open CString Discipline

variable {firm : Prop} {C : Libc} {caldavParse : Bytes → Option Caldav} {r : Kreq} {etag : Bytes} {k k' : CalName × Bytes}
  {e e' : Entry} {w w' : SpaceEvent} {evs : List SpaceEvent} {draws : List Bytes}

/-! ## Who puts what -/

/-- An event of single resources. -/
def SpaceEvent.OfResource : SpaceEvent → Prop
  | .look _ _ _ | .listing _ _ | .create _ _ _ | .replace _ _ _ _ | .remove _ _ | .removeIf _ _ _ => True
  | _ => False

/-- Of resources a request leaves what its method does with its path. -/
theorem Asks.fulfils (h : Asks C caldavParse r etag draws firm evs) (hw : w ∈ evs) (hof : w.OfResource) :
    ∃ cal url evs', httpPaths r.fullpath = some (cal.1, cal.2, url) ∧ Fulfils C caldavParse r etag cal url evs' ∧ w ∈ evs' := by
  obtain ⟨auth, acc, -, -, -, rfl | ⟨n, -, culled, rfl⟩ | rfl | ⟨evs', hevs, hw', -⟩⟩ := h.of_mem hw
  · exact hof.elim
  · exact hof.elim
  · exact hof.elim
  cases hevs with
  | nothing => cases hw'
  | page hjson hpage =>
    obtain rfl := List.mem_singleton.mp hw'
    cases hpage <;> exact hof.elim
  | own hpath hevs => exact ⟨_, _, _, hpath, hevs, hw'⟩
  | other hpath hq hbits hevs =>
    rcases List.mem_cons.mp hw' with rfl | hw'
    · exact hof.elim
    · exact ⟨(_, _), _, _, hpath, hevs, hw'⟩

/-- A request puts its body, under the name in its path and with its tag. -/
theorem Asks.writes (h : Asks C caldavParse r etag draws firm evs) (hw : w ∈ evs) (hwrites : w.Writes k e) :
    r.method = .put ∧ httpPaths r.fullpath = some (k.1.1, k.1.2, k.2) ∧
      ∃ body, req2ical C r = .ok body ∧ e = ⟨etag, cstr body.val⟩ := by
  have hof : w.OfResource := by cases w <;> trivial
  obtain ⟨cal, url, evs', hpath, hevs, hw'⟩ := h.fulfils hw hof
  rcases hevs with ⟨w', rfl, hchange⟩ | hlooks
  · obtain rfl := List.mem_singleton.mp hw'
    cases hchange with
    | create hm hbody _ | replace hm hbody _ =>
      obtain ⟨rfl, rfl⟩ := hwrites
      exact ⟨hm, hpath, _, hbody, rfl⟩
    | _ => exact hwrites.elim
  · cases hlooks w hw' <;> exact hwrites.elim

/-- The tool puts its files, each under its own name and with its tag. -/
theorem AdminAsks.writes {a : Passwd} (h : AdminAsks C a evs) (hw : w ∈ evs) (hwrites : w.Writes k e) :
    ∃ f ∈ a.argv, ∃ res, readWholeFile C f = some res ∧ k = ((a.user, a.collection), f.uid) ∧ e = ⟨f.etag, cstr res⟩ := by
  obtain ⟨-, ⟨-, rfl⟩ | ⟨_, rfl⟩ | ⟨-, _, -, rfl⟩ | ⟨_, -, -, -, rfl⟩ | ⟨⟨f, hf, res, hres, rfl⟩, -⟩⟩ := h.of_mem hw
  · exact hwrites.elim
  · exact hwrites.elim
  · exact hwrites.elim
  · exact hwrites.elim
  · obtain ⟨rfl, rfl⟩ := hwrites
    exact ⟨f, hf, res, hres, rfl, rfl⟩

namespace ServerStep

/-- The tags that a step draws. -/
def tags : ServerStep → List Bytes
  | .request r etag _ => if r.method = .put then [etag] else []
  | .passwd a => a.argv.map ImportFile.etag

variable {s : ServerStep}

theorem Leaves.tag_mem (h : s.Leaves C caldavParse firm evs) (hw : w ∈ evs) (hwrites : w.Writes k e) : e.etag ∈ s.tags := by
  cases s with
  | request r etag draws =>
    obtain ⟨hm, -, body, -, rfl⟩ := Asks.writes h hw hwrites
    rw [tags, if_pos (show r.method = .put from hm)]
    exact List.mem_singleton_self etag
  | passwd a =>
    obtain ⟨f, hf, res, -, -, rfl⟩ := AdminAsks.writes h hw hwrites
    exact List.mem_map_of_mem hf

/-- Under one tag a step puts one text under one name. -/
theorem Leaves.writes_unique (h : s.Leaves C caldavParse firm evs) (hnodup : s.tags.Nodup) (hw : w ∈ evs) (hw' : w' ∈ evs)
    (hwrites : w.Writes k e) (hwrites' : w'.Writes k' e') (htag : e.etag = e'.etag) : k = k' ∧ e = e' := by
  cases s with
  | request r etag draws =>
    obtain ⟨-, hpath, body, hbody, rfl⟩ := Asks.writes h hw hwrites
    obtain ⟨-, hpath', body', hbody', rfl⟩ := Asks.writes h hw' hwrites'
    obtain rfl := Except.ok.inj (hbody.symm.trans hbody')
    rw [hpath, Option.some.injEq, Prod.mk.injEq, Prod.mk.injEq] at hpath'
    exact ⟨Prod.ext (Prod.ext hpath'.1 hpath'.2.1) hpath'.2.2, rfl⟩
  | passwd a =>
    obtain ⟨f, hf, res, hres, rfl, rfl⟩ := AdminAsks.writes h hw hwrites
    obtain ⟨f', hf', res', hres', rfl, rfl⟩ := AdminAsks.writes h hw' hwrites'
    obtain rfl : f = f' := List.inj_on_of_nodup_map hnodup hf hf' htag
    rw [Option.some.inj (hres.symm.trans hres')]
    exact ⟨rfl, rfl⟩

end ServerStep

/-- No tag is drawn twice, and none that the store has had. -/
structure Fresh {ι : Type} (steps : ι → ServerStep) (s : Space) : Prop where
  nodup : ∀ i, (steps i).tags.Nodup
  disjoint : ∀ i j tag, tag ∈ (steps i).tags → tag ∈ (steps j).tags → i = j
  unused : ∀ k e i, s.resource k = some e → e.etag ∉ (steps i).tags
  named : ∀ k k' e e', s.resource k = some e → s.resource k' = some e' → e.etag = e'.etag → k = k' ∧ e = e'

section Marks
variable {ι : Type} [DecidableEq ι] {steps : ι → ServerStep} {db : Db} {sched : List (ι × Choice)} {mark : ℕ → Option SpaceEvent}

/-- A tag stands for one text under one name. -/
theorem Fresh.names (hfresh : Fresh steps db.space) (hlinear : Linear C caldavParse firm steps db sched mark)
    (h : db.space.resource k = some e ∨ ∃ l < sched.length, ∃ w, mark l = some w ∧ w.Writes k e)
    (h' : db.space.resource k' = some e' ∨ ∃ l < sched.length, ∃ w, mark l = some w ∧ w.Writes k' e') (htag : e.etag = e'.etag) :
    k = k' ∧ e = e' := by
  have hleft {k : CalName × Bytes} {e : Entry} (h : ∃ l < sched.length, ∃ w, mark l = some w ∧ w.Writes k e) :
      ∃ i, ∃ w ∈ marksOf sched mark i sched.length, w.Writes k e := by
    obtain ⟨l, hl, w, hw, hwrites⟩ := h
    exact ⟨_, w, mem_marksOf.mpr ⟨l, hl, ⟨_, List.getElem?_eq_getElem hl⟩, hw⟩, hwrites⟩
  have hleaves := hlinear.leaves sched.length le_rfl
  rcases h with h | h <;> rcases h' with h' | h'
  · exact hfresh.named k k' e e' h h' htag
  · obtain ⟨i, w, hw, hwrites⟩ := hleft h'
    have hdrawn := (hleaves i).tag_mem hw hwrites
    rw [← htag] at hdrawn
    exact absurd hdrawn (hfresh.unused k e i h)
  · obtain ⟨i, w, hw, hwrites⟩ := hleft h
    have hdrawn := (hleaves i).tag_mem hw hwrites
    rw [htag] at hdrawn
    exact absurd hdrawn (hfresh.unused k' e' i h')
  · obtain ⟨i, w, hw, hwrites⟩ := hleft h
    obtain ⟨j, w', hw', hwrites'⟩ := hleft h'
    have hdrawn := (hleaves i).tag_mem hw hwrites
    have hdrawn' := (hleaves j).tag_mem hw' hwrites'
    rw [← htag] at hdrawn'
    obtain rfl : i = j := hfresh.disjoint _ _ _ hdrawn hdrawn'
    exact (hleaves i).writes_unique (hfresh.nodup i) hw hw' hwrites hwrites' htag

end Marks

/-! ## What answers say -/

end Kcaldav
