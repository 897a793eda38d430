import Kcaldav.Ical.Delimited

/-! # The nesting of an accepted calendar

Which lines close which. A component or a time zone block is closed by the first `END`
line of its own name at its level; an `END` of another name, a `BEGIN` of an unknown one
and a `BEGIN` within a block open and close nothing. The lines the parser consumes are
nested in this way up to the `END:VCALENDAR` of the first line, or break off where the
input does.
-/
namespace Kcaldav
open CString LineReader

/-! ## What the parser accepts -/

/-- The lines of a time zone block after its `BEGIN`. -/
inductive BlockLines (type : IcalTzType) : List Bytes → Prop
  | close {l : Bytes} {np : IcalNode} : lineNode l = some np → np.isEnd → strcaseEq type.name np.val → BlockLines type [l]
  | line {l : Bytes} {ls : List Bytes} {np : IcalNode} : lineNode l = some np → ¬(np.isEnd ∧ strcaseEq type.name np.val) →
    BlockLines type ls → BlockLines type (l :: ls)

/-- The lines of a component after its `BEGIN`. -/
inductive CompLines : IcalType → List Bytes → Prop
  | close {t : IcalType} {l : Bytes} {np : IcalNode} : lineNode l = some np → ¬np.isBegin → np.isEnd →
    strcaseEq t.name np.val → CompLines t [l]
  | line {t : IcalType} {l : Bytes} {ls : List Bytes} {np : IcalNode} : lineNode l = some np → ¬np.isBegin →
    ¬(np.isEnd ∧ strcaseEq t.name np.val) → CompLines t ls → CompLines t (l :: ls)
  | unknown {t : IcalType} {l : Bytes} {ls : List Bytes} {np : IcalNode} : lineNode l = some np → np.isBegin →
    icalTypeOf np.val = none → icalTzTypeOf np.val = none → CompLines t ls → CompLines t (l :: ls)
  | comp {t tt : IcalType} {l : Bytes} {inner ls : List Bytes} {np : IcalNode} : lineNode l = some np → np.isBegin →
    icalTypeOf np.val = some tt → CompLines tt inner → CompLines t ls → CompLines t (l :: (inner ++ ls))
  | block {t : IcalType} {tz : IcalTzType} {l : Bytes} {inner ls : List Bytes} {np : IcalNode} : lineNode l = some np →
    np.isBegin → icalTypeOf np.val = none → icalTzTypeOf np.val = some tz → BlockLines tz inner → CompLines t ls →
    CompLines t (l :: (inner ++ ls))

/-- A calendar from its `BEGIN:VCALENDAR` to the `END:VCALENDAR` that closes it. -/
inductive CalendarLines : List Bytes → Prop
  | intro {l : Bytes} {ls : List Bytes} {np : IcalNode} : lineNode l = some np → np.isBegin →
    strcaseEq np.val (ascii "VCALENDAR") → CompLines .vcalendar ls → CalendarLines (l :: ls)

/-! ## What is open -/

/-- Lines that close all that is open, innermost first. -/
inductive Closes : List CompRef → Option IcalTz → List Bytes → Prop
  | done : Closes [] none []
  | comp {c : CompRef} {cs : List CompRef} {as bs : List Bytes} : CompLines c.type as → Closes cs none bs →
    Closes (c :: cs) none (as ++ bs)
  | block {cs : List CompRef} {z : IcalTz} {as bs : List Bytes} : BlockLines z.type as → Closes cs none bs →
    Closes cs (some z) (as ++ bs)

/-- The lines read so far become a calendar with any that close what is open. -/
def Within (ls : List Bytes) (m : Machine) : Prop := ∀ tail, Closes m.opened m.block tail → CalendarLines (ls ++ tail)

section
variable {C : Libc}

/-- A line that is taken and what closes the rest close all. -/
theorem Machine.Takes.closes {l : Bytes} {np : IcalNode} {m m' : Machine} (hnode : lineNode l = some np)
    (htakes : Machine.Takes C np m m') {tail : List Bytes} (h : Closes m'.opened m'.block tail) :
    Closes m.opened m.block (l :: tail) := by
  have line {c : CompRef} {cs : List CompRef} (h : Closes (c :: cs) none tail)
      (hl : ∀ ls, CompLines c.type ls → CompLines c.type (l :: ls)) : Closes (c :: cs) none (l :: tail) := by
    cases h with
    | comp hcomp hcs => exact .comp (hl _ hcomp) hcs
  have inBlock {cs : List CompRef} {z z' : IcalTz} (htype : z'.type = z.type) (h : Closes cs (some z') tail)
      (hl : ¬(np.isEnd ∧ strcaseEq z.type.name np.val)) : Closes cs (some z) (l :: tail) := by
    cases h with
    | block hz hcs => exact .block (.line hnode hl (htype ▸ hz)) hcs
  cases htakes with
  | endBlock hend hval _ => exact .block (.close hnode hend hval) h
  | skipBlock _ hval => exact inBlock rfl h fun hend => hval hend.2
  | @fieldBlock cs z z' i e e' hend hunder =>
    obtain ⟨d, hd, -⟩ := (under_eq_some (d := ⟨"", 0, none, e⟩) (icalTzField_plain np z)).mp hunder
    exact inBlock (icalTzField_type hd) h fun hclose => hend hclose.1
  | beginComp hbegin ht =>
    cases h with
    | @comp _ _ as _ hinner hrest =>
      cases hrest with
      | @comp _ _ bs ds hcomp hcs =>
        have hlines := CompLines.comp hnode hbegin ht hinner hcomp
        rw [← List.append_assoc]
        exact .comp hlines hcs
  | beginBlock hbegin ht htz =>
    cases h with
    | @block _ _ as _ hinner hrest =>
      cases hrest with
      | @comp _ _ bs ds hcomp hcs =>
        have hlines := CompLines.block hnode hbegin ht htz hinner hcomp
        rw [← List.append_assoc]
        exact .comp hlines hcs
  | unknown hbegin ht htz => exact line h fun _ => .unknown hnode hbegin ht htz
  | endComp hbegin hend hval _ => exact .comp (.close hnode hbegin hend hval) h
  | skip hbegin _ hval => exact line h fun _ => .line hnode hbegin fun hclose => hval hclose.2
  | field hbegin hend _ => exact line h fun _ => .line hnode hbegin fun hclose => hend hclose.1

theorem Within.step {ls : List Bytes} {l : Bytes} {np : IcalNode} {m m' : Machine} (hnode : lineNode l = some np)
    (htakes : Machine.Takes C np m m') (h : Within ls m) : Within (ls ++ [l]) m' := by
  intro tail htail
  have hcal := h (l :: tail) (htakes.closes hnode htail)
  rwa [List.append_assoc, List.singleton_append]

end

/-! ## Closing what is open -/

theorem lineNode_end (t : IcalType) : lineNode (ascii "END:" ++ t.name) = some ⟨ascii "END", none, t.name⟩ := by
  cases t <;> decide

theorem lineNode_tzEnd (t : IcalTzType) : lineNode (ascii "END:" ++ t.name) = some ⟨ascii "END", none, t.name⟩ := by
  cases t <;> decide

theorem end_name : ¬strcaseEq (ascii "BEGIN") (ascii "END") ∧ strcaseEq (ascii "END") (ascii "END") := by decide

theorem strcaseEq_refl (b : Bytes) : strcaseEq b b := by
  simp [strcaseEq]

theorem closes_comps (cs : List CompRef) : ∃ tail, Closes cs none tail := by
  induction cs with
  | nil => exact ⟨[], .done⟩
  | cons c cs ih =>
    obtain ⟨tail, htail⟩ := ih
    exact ⟨_, .comp (.close (lineNode_end c.type) end_name.1 end_name.2 (strcaseEq_refl _)) htail⟩

/-- What is open can be closed. -/
theorem exists_closes (m : Machine) : ∃ tail, Closes m.opened m.block tail := by
  obtain ⟨tail, htail⟩ := closes_comps m.opened
  cases m.block with
  | none => exact ⟨tail, htail⟩
  | some z => exact ⟨_, .block (.close (lineNode_tzEnd z.type) end_name.2 (strcaseEq_refl _)) htail⟩

/-! ## Whole files -/

/-- What the machine reads of a file is a calendar, or the beginning of one that ends
with the file. -/
theorem icalMachine_nested {C : Libc} {erange : Bool} {ls rest : List Bytes} {i : Ical}
    (h : icalMachine C erange ls = some (i, rest)) : ∃ used, ls = used ++ rest ∧
      (CalendarLines used ∨ rest = [] ∧ ∃ more, CalendarLines (used ++ more)) := by
  cases ls with
  | nil => cases h
  | cons l ls =>
    rw [icalMachine] at h
    obtain ⟨np, hnode, h⟩ := Option.bind_eq_some_iff.mp h
    rw [Option.ite_none_right_eq_some, Bool.and_eq_true] at h
    obtain ⟨⟨hbegin, hcal⟩, h⟩ := h
    obtain ⟨⟨m, rest'⟩, hrun, h⟩ := Option.bind_eq_some_iff.mp h
    obtain ⟨j, -, heq⟩ := Option.map_eq_some_iff.mp h
    cases heq
    have hstart : Within [l] (Machine.start np erange) := by
      intro tail htail
      cases htail with
      | comp hcomp hdone =>
        cases hdone
        rw [List.append_nil]
        exact .intro hnode hbegin hcal hcomp
    obtain ⟨used, hused, hwithin, hfin⟩ := Machine.run_induction C Within.step hstart hrun
    refine ⟨l :: used, by rw [hused, List.cons_append], ?_⟩
    rcases hfin with hfin | hrest
    · obtain ⟨hopened, hblock⟩ := Machine.finished_iff.mp hfin
      have hclosed : Closes m.opened m.block [] := by
        rw [hopened, hblock]
        exact .done
      have hlines := hwithin [] hclosed
      rw [List.append_nil] at hlines
      exact .inl hlines
    · obtain ⟨more, hmore⟩ := exists_closes m
      exact .inr ⟨hrest, more, hwithin more hmore⟩

/-- The lines an accepted buffer's parse consumes are nested: they run from the
`BEGIN:VCALENDAR` to the `END:VCALENDAR` that closes it, or are the beginning of such
lines and the buffer ends with them. -/
theorem icalParse_nested (C : Libc) (file : Option String) (erange : Bool) (b : Bytes) (i : Ical) (stop : Nat)
    (h : (icalParse C file erange b 0).1 = some (i, stop)) : CalendarLines (unfoldLines (b.take stop)) ∨
      stop = b.length ∧ ∃ more, CalendarLines (unfoldLines (b.take stop) ++ more) := by
  obtain ⟨raw, rest, ls, rfl, rfl, hreads, hm⟩ := icalParse_splits C file erange h
  obtain ⟨raw', hraw, hlines⟩ := reads_bytes hreads
  obtain rfl := List.append_cancel_right hraw
  obtain ⟨used, hused, hnested⟩ := icalMachine_nested hm
  have hall : unfoldLines (raw ++ rest) = ls.map RawLine.text ++ unfoldLines rest := by
    rw [unfoldLines, hreads.lines, List.map_append]
    rfl
  have hread : unfoldLines raw = used := by
    rw [unfoldLines, hlines]
    exact List.append_cancel_right (hall.symm.trans hused)
  rw [List.take_left, hread]
  rcases hnested with hclosed | ⟨hrest, hopen⟩
  · exact .inl hclosed
  · have hnil : rest = [] := read_eq_none.mp (lines_nil.mp (List.map_eq_nil_iff.mp hrest))
    exact .inr ⟨by simp [hnil], hopen⟩

/-- A calendar with an unknown component in it. -/
theorem icalParse_nested_unknown : ∃ i stop,
    (icalParse .utc none false (ascii "BEGIN:VCALENDAR\nBEGIN:X-A\nEND:X-A\nEND:VCALENDAR\n\n") 0).1 = some (i, stop) ∧
    CalendarLines (unfoldLines ((ascii "BEGIN:VCALENDAR\nBEGIN:X-A\nEND:X-A\nEND:VCALENDAR\n\n").take stop)) := by
  have haccepted : (icalParse .utc none false (ascii "BEGIN:VCALENDAR\nBEGIN:X-A\nEND:X-A\nEND:VCALENDAR\n\n") 0).1.map Prod.snd =
      some 48 := by decide +kernel
  obtain ⟨⟨i, stop⟩, h, rfl⟩ := Option.map_eq_some_iff.mp haccepted
  refine ⟨i, 48, h, (icalParse_nested .utc none false _ i 48 h).resolve_right ?_⟩
  rintro ⟨hstop, -⟩
  revert hstop
  decide

/-! ## Nesting by name -/

/-- The `BEGIN` and `END` lines match by name, whatever the name, with these open; the
last line closes the outermost. -/
def nestedWithin : List Bytes → List Bytes → Bool
  | _, [] => false
  | names, l :: ls =>
    match lineNode l with
    | none => false
    | some np =>
      if np.isBegin then nestedWithin (np.val :: names) ls
      else if np.isEnd then
        match names with
        | [] => false
        | [name] => strcaseEq name np.val && ls.isEmpty
        | name :: outer :: names => strcaseEq name np.val && nestedWithin (outer :: names) ls
      else nestedWithin names ls

/-- A line of nested lines opens one, closes the innermost, or neither. -/
theorem nestedWithin_cons {names : List Bytes} {l : Bytes} {ls : List Bytes} (h : nestedWithin names (l :: ls)) :
    ∃ np, lineNode l = some np ∧ (np.isBegin ∧ nestedWithin (np.val :: names) ls ∨
      ¬np.isBegin ∧ np.isEnd ∧ (∃ name outer, names = name :: outer ∧ strcaseEq name np.val ∧
        (outer = [] ∧ ls = [] ∨ outer ≠ [] ∧ nestedWithin outer ls)) ∨
      ¬np.isBegin ∧ ¬np.isEnd ∧ nestedWithin names ls) := by
  rw [nestedWithin] at h
  cases hnode : lineNode l with
  | none =>
    rw [hnode] at h
    cases h
  | some np =>
    rw [hnode] at h
    dsimp only at h
    refine ⟨np, rfl, ?_⟩
    split at h
    next hbegin => exact .inl ⟨hbegin, h⟩
    next hbegin =>
      split at h
      next hend =>
        refine .inr (.inl ⟨hbegin, hend, ?_⟩)
        cases names with
        | nil => cases h
        | cons name outer =>
          cases outer with
          | nil =>
            obtain ⟨hval, hls⟩ := Bool.and_eq_true_iff.mp h
            exact ⟨name, [], rfl, hval, .inl ⟨rfl, List.isEmpty_iff.mp hls⟩⟩
          | cons outer names =>
            obtain ⟨hval, hls⟩ := Bool.and_eq_true_iff.mp h
            exact ⟨name, outer :: names, rfl, hval, .inr ⟨List.cons_ne_nil _ _, hls⟩⟩
      next hend => exact .inr (.inr ⟨hbegin, hend, h⟩)

/-- The lines run from `BEGIN:VCALENDAR` to the `END` that closes it, and all within match. -/
def nestedByName : List Bytes → Bool
  | [] => false
  | l :: ls => (lineNode l).any fun np => np.isBegin && strcaseEq np.val (ascii "VCALENDAR") && nestedWithin [np.val] ls

/-- A calendar cut off within a component is accepted, and so is one with an `END` of
another component's name. -/
theorem icalParse_not_nestedByName :
    (∃ i stop, (icalParse .utc none false (ascii "BEGIN:VCALENDAR\nBEGIN:VTODO\n") 0).1 = some (i, stop) ∧
      ¬nestedByName (unfoldLines ((ascii "BEGIN:VCALENDAR\nBEGIN:VTODO\n").take stop))) ∧
    ∃ i stop, (icalParse .utc none false (ascii "BEGIN:VCALENDAR\nBEGIN:VTODO\nEND:VJOURNAL\nEND:VTODO\nEND:VCALENDAR\n")
        0).1 = some (i, stop) ∧
      ¬nestedByName (unfoldLines ((ascii "BEGIN:VCALENDAR\nBEGIN:VTODO\nEND:VJOURNAL\nEND:VTODO\nEND:VCALENDAR\n").take stop)) := by
  have accepted {b : Bytes} {n : Nat} (h : (icalParse .utc none false b 0).1.map Prod.snd = some n)
      (hnested : ¬nestedByName (unfoldLines (b.take n))) : ∃ i stop, (icalParse .utc none false b 0).1 = some (i, stop) ∧
      ¬nestedByName (unfoldLines (b.take stop)) := by
    obtain ⟨⟨i, stop⟩, hparse, rfl⟩ := Option.map_eq_some_iff.mp h
    exact ⟨i, stop, hparse, hnested⟩
  constructor
  · exact accepted (n := 28) (by decide +kernel) (by decide +kernel)
  · exact accepted (n := 65) (by decide +kernel) (by decide +kernel)

end Kcaldav
