import Mathlib
import TestCost.Proofs.Code.Labels
import TestCost.Proofs.Method.Operands
import TestCost.Proofs.Splitting.Method

/-!
# Which line a statement stands at

A line table says where the code of a source line starts. Its entries come in
any order, in any number of tables, and can start at the same offset. What an
instruction adds stands at the line of the nearest entry at or before it
(`LineFor`), and a method starts at the line of its first entry (`FirstLine`).

Decoding does not search the table. A listing has a line in front of each
instruction that an entry starts at, and decoding keeps the last line that it
has met. That is the same because offsets increase along a listing: the last
line met is the one for the greatest start so far. It takes entries that start
where instructions do; any other entry would never be met.

## Main results

* `BodyState.lines_run` — the line that decoding has come to, and the first one.
* `Listing.lineFor_getLastD` — the last line met is that of the nearest entry.
* `BodyState.traced_run` — where the operations of a body come from.
* `Method.lines_follow_table` — lines of operations, statements and methods.
-/

namespace TestCost

/-! ## Line tables -/

/-- The line for an offset: that of the entry with the greatest start which is
not behind the offset, the last one of those with the same start, and `0`
without such an entry. -/
inductive LineFor (entries : List LineEntry) (offset : Nat) : Nat → Prop where
  | entry {front rest : List LineEntry} {e : LineEntry} :
      entries = front ++ e :: rest →
      e.start ≤ offset → (∀ f ∈ front, f.start ≤ offset → f.start ≤ e.start) →
      (∀ f ∈ rest, f.start ≤ offset → f.start < e.start) →
        LineFor entries offset e.line
  | none : (∀ e ∈ entries, offset < e.start) → LineFor entries offset 0

/-- The line that a table starts with: that of the entry with the smallest
start, the last one of those with the same start, and `0` without entries. -/
inductive FirstLine (entries : List LineEntry) : Nat → Prop where
  | entry {front rest : List LineEntry} {e : LineEntry} :
      entries = front ++ e :: rest →
      (∀ f ∈ front, e.start ≤ f.start) → (∀ f ∈ rest, e.start < f.start) →
      FirstLine entries e.line
  | none : entries = [] → FirstLine entries 0

namespace Listing

variable {lines : List LineEntry} {offset line : Nat} {offsets : List Nat}

theorem exists_of_lineAt? (h : lineAt? lines offset = some line) :
    ∃ front e rest, lines = front ++ e :: rest ∧ e.start = offset ∧
      e.line = line ∧
      ∀ f ∈ rest, f.start ≠ offset := by
  obtain ⟨e, hfind, hline⟩ := Option.map_eq_some_iff.1 h
  obtain ⟨hstart, rest, front, hsplit, hrest⟩ :=
    List.find?_eq_some_iff_append.1 hfind
  refine ⟨front.reverse, e, rest.reverse, ?_, by simpa using hstart, hline, ?_⟩
  · rw [← List.reverse_reverse lines, hsplit]
    simp
  · intro f hf
    simpa using hrest f (List.mem_reverse.1 hf)

theorem start_ne_of_lineAt? (h : lineAt? lines offset = none) {e : LineEntry}
    (he : e ∈ lines) :
    e.start ≠ offset := by
  have hfind := List.find?_eq_none.1 (Option.map_eq_none_iff.1 h)
  simpa using hfind e (List.mem_reverse.2 he)

/-- The last line met on the way to an offset is the line for that offset. The
last offset is the greatest one: its line counts, or there is none for it. -/
theorem lineFor_getLastD (hincreasing : offsets.Pairwise (· < ·))
    (hpassed : ∀ o ∈ offsets, o ≤ offset)
    (hstarts : ∀ e ∈ lines, e.start ≤ offset → e.start ∈ offsets) :
    LineFor lines offset ((offsets.filterMap (lineAt? lines)).getLastD 0) := by
  induction offsets using List.reverseRecOn with
  | nil =>
      apply LineFor.none
      intro e he
      by_contra hle
      exact List.not_mem_nil (hstarts e he (by omega))
  | append_singleton offsets last ih =>
      obtain ⟨hbefore, _, hlast⟩ := List.pairwise_append.1 hincreasing
      have hle : ∀ e ∈ lines, e.start ≤ offset → e.start ≤ last := by
        intro e he hoffset
        rcases List.mem_append.1 (hstarts e he hoffset) with hmem | hmem
        · exact (hlast _ hmem last List.mem_cons_self).le
        · exact (List.mem_singleton.1 hmem).le
      cases hline : lineAt? lines last with
      | some line =>
          obtain ⟨front, e, rest, rfl, rfl, rfl, hrest⟩ :=
            exists_of_lineAt? hline
          have hnearest : LineFor (front ++ e :: rest) offset e.line := by
            refine .entry rfl (hpassed _ (by simp)) ?_ ?_
            · intro f hf hoffset
              exact hle f (by simp [hf]) hoffset
            · intro f hf hoffset
              exact lt_of_le_of_ne (hle f (by simp [hf]) hoffset) (hrest f hf)
          simpa [List.filterMap_append, hline] using hnearest
      | none =>
          have hrest := ih hbefore (fun o ho => hpassed o (by simp [ho])) (by
            intro e he hoffset
            rcases List.mem_append.1 (hstarts e he hoffset) with hmem | hmem
            · exact hmem
            · exact absurd (List.mem_singleton.1 hmem)
                (start_ne_of_lineAt? hline he))
          simpa [List.filterMap_append, hline] using hrest

/-- The first line met is the line that the table starts with. -/
theorem firstLine_head? (hincreasing : offsets.Pairwise (· < ·))
    (hstarts : ∀ e ∈ lines, e.start ∈ offsets) :
    FirstLine lines ((offsets.filterMap (lineAt? lines)).head?.getD 0) := by
  induction offsets with
  | nil =>
      apply FirstLine.none
      rw [List.eq_nil_iff_forall_not_mem]
      intro e he
      exact List.not_mem_nil (hstarts e he)
  | cons first offsets ih =>
      obtain ⟨hfirst, hrest⟩ := List.pairwise_cons.1 hincreasing
      have hle : ∀ e ∈ lines, first ≤ e.start := by
        intro e he
        rcases List.mem_cons.1 (hstarts e he) with hmem | hmem
        · exact hmem.ge
        · exact (hfirst _ hmem).le
      cases hline : lineAt? lines first with
      | some line =>
          obtain ⟨front, e, rest, rfl, rfl, rfl, hlater⟩ :=
            exists_of_lineAt? hline
          rw [List.filterMap_cons_some hline]
          refine .entry rfl (fun f hf => hle f (by simp [hf])) ?_
          intro f hf
          exact lt_of_le_of_ne (hle f (by simp [hf])) (hlater f hf).symm
      | none =>
          rw [List.filterMap_cons_none hline]
          apply ih hrest
          intro e he
          exact (List.mem_cons.1 (hstarts e he)).resolve_left
            (start_ne_of_lineAt? hline he)

end Listing

/-! ## Lines of a listing -/

/-- The line that an event gives. -/
def CodeEvent.line? : CodeEvent → Option Nat
  | .line n => some n
  | .label _ | .instruction _ => none

namespace Listing

variable {labels : List Label} {lines : List LineEntry}
  {instructions : List Instruction}

/-- What comes in front of an instruction gives its line, if it has one. -/
theorem exists_marks (labels : List Label) (lines : List LineEntry)
    (i : Instruction) :
    ∃ marks, eventsOf labels lines i = marks ++ [.instruction i] ∧
      (∀ j, .instruction j ∉ marks) ∧
      marks.filterMap CodeEvent.line? = (lineAt? lines i.offset).toList := by
  refine ⟨_, rfl, ?_, ?_⟩
  · intro j hj
    rcases List.mem_append.1 hj with hj | hj
    · split at hj <;> simp at hj
    · simp at hj
  · rw [List.filterMap_append]
    split <;> cases lineAt? lines i.offset <;> rfl

theorem filterMap_lineAt?_cons (lines : List LineEntry) (offset : Nat)
    (offsets : List Nat) :
    (offset :: offsets).filterMap (lineAt? lines) =
      (lineAt? lines offset).toList ++ offsets.filterMap (lineAt? lines) := by
  rw [List.filterMap_cons]
  cases lineAt? lines offset <;> rfl

theorem filterMap_line?_events (labels : List Label) (lines : List LineEntry)
    (instructions : List Instruction) :
    (instructions.flatMap (eventsOf labels lines)).filterMap CodeEvent.line? =
      (instructions.map Instruction.offset).filterMap (lineAt? lines) := by
  induction instructions with
  | nil => rfl
  | cons i instructions ih =>
      obtain ⟨marks, hmarks, _, hline⟩ := exists_marks labels lines i
      rw [List.flatMap_cons, hmarks, List.filterMap_append,
        List.filterMap_append, hline, ih, List.map_cons, filterMap_lineAt?_cons]
      exact congrArg (· ++ _) (List.append_nil _)

/-- An instruction behind marks is the next one, or comes behind the next one.
-/
theorem cases_of_marks {marks tail before after : List CodeEvent}
    {i j : Instruction} (hquiet : ∀ j, .instruction j ∉ marks)
    (h : marks ++ .instruction j :: tail = before ++ .instruction i :: after) :
    (before = marks ∧ i = j) ∨
      ∃ between, before = marks ++ .instruction j :: between ∧
      tail = between ++ .instruction i :: after := by
  induction marks generalizing before with
  | nil =>
      cases before with
      | nil =>
          exact .inl ⟨rfl, (CodeEvent.instruction.inj (List.cons.inj h).1).symm⟩
      | cons e between =>
          obtain ⟨rfl, htail⟩ := List.cons.inj h
          exact .inr ⟨between, rfl, htail⟩
  | cons mark marks ih =>
      cases before with
      | nil =>
          obtain ⟨rfl, _⟩ := List.cons.inj h
          exact absurd List.mem_cons_self (hquiet i)
      | cons e before =>
          obtain ⟨rfl, hrest⟩ := List.cons.inj h
          rcases ih
            (fun j hj => hquiet j (List.mem_cons_of_mem _ hj)) hrest with
            ⟨rfl, rfl⟩ | ⟨between, rfl, htail⟩
          · exact .inl ⟨rfl, rfl⟩
          · exact .inr ⟨between, rfl, htail⟩

/-- In front of an instruction there are the lines for the instructions up to
it. -/
theorem exists_passed_of_events {before after : List CodeEvent}
    {i : Instruction} (h : instructions.flatMap (eventsOf labels lines) =
      before ++ .instruction i :: after) :
    ∃ passed rest, instructions = passed ++ i :: rest ∧
      before.filterMap CodeEvent.line? =
        ((passed ++ [i]).map Instruction.offset).filterMap (lineAt? lines) := by
  induction instructions generalizing before with
  | nil => simp at h
  | cons j instructions ih =>
      obtain ⟨marks, hmarks, hquiet, hline⟩ := exists_marks labels lines j
      rw [List.flatMap_cons, hmarks, List.append_assoc,
        List.singleton_append] at h
      rcases cases_of_marks hquiet h with ⟨rfl, rfl⟩ | ⟨between, rfl, htail⟩
      · refine ⟨[], instructions, rfl, ?_⟩
        rw [hline, List.nil_append, List.map_singleton, filterMap_lineAt?_cons]
        exact (List.append_nil _).symm
      · obtain ⟨passed, rest, rfl, hpassed⟩ := ih htail
        refine ⟨j :: passed, rest, rfl, ?_⟩
        rw [List.filterMap_append, hline, List.cons_append, List.map_cons,
          filterMap_lineAt?_cons, ← hpassed]
        rfl

/-- When decoding has come to an instruction, the last line met is the line for
it. -/
theorem lineFor_passed {passed rest : List Instruction} {i : Instruction}
    (hincreasing : ((passed ++ i :: rest).map Instruction.offset).Pairwise
      (· < ·))
    (hstarts : ∀ e ∈ lines, ∃ j ∈ passed ++ i :: rest, j.offset = e.start) :
    LineFor lines i.offset
      ((((passed ++ [i]).map Instruction.offset).filterMap
        (lineAt? lines)).getLastD 0) := by
  rw [List.append_cons, List.map_append] at hincreasing
  obtain ⟨hpassed, _, hrest⟩ := List.pairwise_append.1 hincreasing
  apply lineFor_getLastD hpassed
  · intro o ho
    rw [List.map_append] at hpassed ho
    rcases List.mem_append.1 ho with ho | ho
    · exact ((List.pairwise_append.1 hpassed).2.2 o ho _ List.mem_cons_self).le
    · exact (List.mem_singleton.1 ho).le
  · intro e he hle
    obtain ⟨j, hj, hstart⟩ := hstarts e he
    rw [List.append_cons] at hj
    rw [← hstart] at hle ⊢
    rcases List.mem_append.1 hj with hj | hj
    · exact List.mem_map_of_mem hj
    · have hlt := hrest i.offset (by simp) j.offset (List.mem_map_of_mem hj)
      omega

end Listing

/-! ## Lines of a body -/

namespace BodyState

variable {s t : BodyState} {listing : Listing} {slots : Slots} {i : Instruction}
  {op : StackOp}

/-- Only a line changes the line that decoding has come to. -/
theorem line_step {event : CodeEvent} (h : s.step event = .ok t) :
    t.line = event.line?.getD s.line ∧ t.startingLine =
      s.startingLine.or event.line? := by
  cases event with
  | label l =>
      obtain rfl := Except.ok.inj h
      exact ⟨rfl, Option.or_none.symm⟩
  | line n =>
      obtain rfl := Except.ok.inj h
      exact ⟨rfl, rfl⟩
  | instruction i =>
      have hi := mapError_eq_ok_iff.1 h
      rw [instruction_eq] at hi
      obtain ⟨d, _, rfl⟩ := map_eq_ok_iff.1 hi
      exact ⟨rfl, Option.or_none.symm⟩

theorem lines_foldlM {events : List CodeEvent}
    (h : events.foldlM step s = .ok t) :
    t.line = (events.filterMap CodeEvent.line?).getLastD s.line ∧
      t.startingLine =
        s.startingLine.or (events.filterMap CodeEvent.line?).head? := by
  induction events generalizing s with
  | nil =>
      obtain rfl := Except.ok.inj h
      exact ⟨rfl, Option.or_none.symm⟩
  | cons event events ih =>
      rw [List.foldlM_cons] at h
      obtain ⟨mid, hmid, h⟩ := exists_of_bind_eq_ok h
      obtain ⟨hline, hstart⟩ := ih h
      obtain ⟨hmidLine, hmidStart⟩ := line_step hmid
      rw [hline, hstart, hmidLine, hmidStart, List.filterMap_cons]
      cases event.line? with
      | none => exact ⟨rfl, by rw [Option.or_none]⟩
      | some n =>
          exact ⟨(List.getLastD_cons ..).symm, by cases s.startingLine <;> rfl⟩

theorem line_handlers (ranges : List HandlerRange) (s : BodyState) :
    (ranges.foldl handler s).line = s.line ∧
      (ranges.foldl handler s).startingLine = s.startingLine := by
  induction ranges generalizing s with
  | nil => exact ⟨rfl, rfl⟩
  | cons range ranges ih => exact ih (s.handler range)

/-- Decoding keeps the last line that it has met, and the first one. -/
theorem lines_run (h : run { slots } listing = .ok t) :
    t.line = (listing.events.filterMap CodeEvent.line?).getLastD 0 ∧
      t.startingLine = (listing.events.filterMap CodeEvent.line?).head? := by
  obtain ⟨hline, hstart⟩ := lines_foldlM h
  obtain ⟨hfirst, hnone⟩ := line_handlers listing.handlers { slots }
  rw [hline, hstart, hfirst, hnone]
  exact ⟨rfl, Option.none_or⟩

/-! ## Where operations come from -/

/-- The operation is one of those that are added for the instruction, when
decoding comes to it behind a first part of the listing. -/
def AddedFor (slots : Slots) (listing : Listing) (i : Instruction)
    (op : StackOp) : Prop :=
  ∃ before after s t added, listing.events = before ++ .instruction i :: after ∧
    run { slots } { listing with events := before } = .ok s ∧
      s.instruction i = .ok t ∧
    t.events.toList = s.events.toList ++ added ∧
      op ∈ added.flatMap FlowEvent.ops

/-- What is added for an instruction stands at the line that decoding has come
to. -/
theorem line_of_mem_added {added : List FlowEvent} (h : s.instruction i = .ok t)
    (hadded : t.events.toList = s.events.toList ++ added)
    (hop : op ∈ added.flatMap FlowEvent.ops) : op.line = s.line := by
  obtain ⟨effects, _, added', hadded', hops⟩ := exists_means h
  obtain rfl := List.append_cancel_left (hadded.symm.trans hadded')
  rw [hops] at hop
  obtain ⟨effect, _, rfl⟩ := List.mem_map.1 hop
  rfl

/-- The operation is added for an instruction, or loads what a handler catches.
-/
def Traced (slots : Slots) (listing : Listing) (op : StackOp) : Prop :=
  (∃ i, AddedFor slots listing i op) ∨ ∃ value, op.effect = loadReference value

theorem adds_handlers
    {P : StackOp → Prop} (h : ∀ line value, P ⟨line, loadReference value⟩)
    (ranges : List HandlerRange) (s : BodyState) :
    Adds P s (ranges.foldl handler s) := by
  induction ranges generalizing s with
  | nil => exact adds_of_events rfl
  | cons range ranges ih =>
      have hrange : Adds P s (s.handler range) := by
        refine (adds_of_events rfl).trans (adds_add ?_)
        intro op hop
        rw [List.mem_singleton.1 hop]
        exact h _ _
      exact hrange.trans (ih _)

theorem traced_run (h : run { slots } listing = .ok t) :
    Adds (Traced slots listing) { slots } t := by
  refine foldlM_keeps_behind (P := Adds (Traced slots listing) { slots }) ?_
    (adds_handlers (fun _ value => .inr ⟨value, rfl⟩) _ _) h
  intro before event after s t hevents hbefore hs hstep
  refine hs.trans ?_
  cases event with
  | label l =>
      obtain rfl := Except.ok.inj hstep
      exact adds_add (by simp [FlowEvent.ops])
  | line n =>
      obtain rfl := Except.ok.inj hstep
      exact adds_of_events rfl
  | instruction i =>
      have hi := mapError_eq_ok_iff.1 hstep
      obtain ⟨_, _, added, hadded, _⟩ := exists_means hi
      refine ⟨added, hadded, ?_⟩
      intro e he op hop
      exact .inl ⟨i, before, after, s, t, added, hevents, hbefore, hi, hadded,
        List.mem_flatMap.2 ⟨e, he, hop⟩⟩

/-- Where the operations of a graph come from. -/
theorem traced_graph (h : run { slots } listing = .ok t) {b : BlockId}
    (hop : op ∈ (t.graph.block b).ops) : Traced slots listing op := by
  obtain ⟨added, hadded, hops⟩ := traced_run h
  refine FlowGraph.ops_ofEvents ?_ hop
  intro e he
  rw [hadded] at he
  exact hops e he

end BodyState

/-! ## Methods -/

/-- A statement stands at the line of its operation. -/
theorem StackOp.line_of_statement? {op : StackOp} {input : List Variable}
    {s : Statement} (h : op.statement? input = some (some s)) :
    s.line = op.line := by
  obtain ⟨line, effect⟩ := op
  cases effect with
  | store target =>
      obtain ⟨_, _, h⟩ := Option.bind_eq_some_iff.1 h
      obtain rfl := Option.some.inj (Option.some.inj h)
      rfl
  | putField f =>
      simp only [StackOp.statement?, StackEffect.statement?] at h
      split at h
      · obtain ⟨_, _, h⟩ := Option.bind_eq_some_iff.1 h
        obtain rfl := Option.some.inj (Option.some.inj h)
        rfl
      · obtain ⟨_, _, h⟩ := Option.bind_eq_some_iff.1 h
        obtain ⟨_, _, h⟩ := Option.bind_eq_some_iff.1 h
        obtain rfl := Option.some.inj (Option.some.inj h)
        rfl
  | arrayStore type =>
      obtain ⟨_, _, h⟩ := Option.bind_eq_some_iff.1 h
      obtain ⟨_, _, h⟩ := Option.bind_eq_some_iff.1 h
      obtain ⟨_, _, h⟩ := Option.bind_eq_some_iff.1 h
      obtain rfl := Option.some.inj (Option.some.inj h)
      rfl
  | invoke target =>
      simp only [StackOp.statement?, StackEffect.statement?] at h
      split at h
      · obtain ⟨_, _, h⟩ := Option.bind_eq_some_iff.1 h
        obtain rfl := Option.some.inj (Option.some.inj h)
        rfl
      · obtain ⟨_, _, h⟩ := Option.bind_eq_some_iff.1 h
        obtain ⟨_, _, h⟩ := Option.bind_eq_some_iff.1 h
        obtain rfl := Option.some.inj (Option.some.inj h)
        rfl
  | _ => cases h

namespace Listing

variable {pool : Pool} {body : CodeBody} {listing : Listing} {slots : Slots}

/-- The entries of the line tables start where instructions of the listing do.
-/
def StartsAtInstructions (entries : List LineEntry) (listing : Listing) :
    Prop :=
  ∀ e ∈ entries, ∃ i, .instruction i ∈ listing.events ∧ i.offset = e.start

/-- What is added for an instruction stands at the line for its offset. -/
theorem lineFor_of_addedFor (hread : read pool body = .ok listing)
    (hstarts : StartsAtInstructions (lineEntries body.tables) listing)
    {i : Instruction} {op : StackOp}
    (h : BodyState.AddedFor slots listing i op) :
    LineFor (lineEntries body.tables) i.offset op.line := by
  obtain ⟨before, after, s, t, added, hsplit, hrun, hi, hadded, hop⟩ := h
  obtain ⟨instructions, _, _, hinstructions, _, _, _, hevents, _⟩ :=
    exists_of_read hread
  obtain ⟨passed, rest, rfl, hlines⟩ :=
    exists_passed_of_events (hevents.symm.trans hsplit)
  rw [BodyState.line_of_mem_added hi hadded hop,
    (BodyState.lines_run hrun).1, hlines]
  apply lineFor_passed (Code.offsets_of_readInstructions hinstructions).2
  intro e he
  obtain ⟨j, hj, hstart⟩ := hstarts e he
  rw [hevents, instruction_mem_events_iff] at hj
  exact ⟨j, hj, hstart⟩

/-- A body starts at the first line of its table. -/
theorem firstLine_of_run (hread : read pool body = .ok listing)
    (hstarts : StartsAtInstructions (lineEntries body.tables) listing)
    {decoded : BodyState}
    (hrun : BodyState.run { slots } listing = .ok decoded) :
    FirstLine (lineEntries body.tables) (decoded.startingLine.getD 0) := by
  obtain ⟨instructions, _, _, hinstructions, _, _, _, hevents, _⟩ :=
    exists_of_read hread
  rw [(BodyState.lines_run hrun).2, hevents, filterMap_line?_events]
  apply firstLine_head? (Code.offsets_of_readInstructions hinstructions).2
  intro e he
  obtain ⟨i, hi, hstart⟩ := hstarts e he
  rw [hevents, instruction_mem_events_iff] at hi
  exact hstart ▸ List.mem_map_of_mem hi

end Listing

namespace Method

variable {pool : Pool} {body : CodeBody} {listing : Listing}
  {header : MethodHeader} {m : Method}

/-- Lines are those of the table: of the operations that are added for an
instruction, of the statements that these stand for with any operands, of the
statements that are added at a position of the graph, all of which stem from an
instruction, and of the method. -/
structure FollowsLines (entries : List LineEntry) (slots : Slots)
    (listing : Listing) (decoded : BodyState) (m : Method) : Prop where
  operation : ∀ i op, BodyState.AddedFor slots listing i op →
    LineFor entries i.offset op.line ∧
      ∀ input s, op.statement? input = some (some s) →
        LineFor entries i.offset s.line
  statements : m.statements =
    decoded.graph.order.flatMap decoded.graph.emittedBy
  statement : ∀ b k op, (decoded.graph.block b).ops[k]? = some op →
    ∀ s ∈ decoded.graph.emittedAt b k, ∃ i,
      BodyState.AddedFor slots listing i op ∧
      (∃ input, op.statement? input = some (some s)) ∧
        LineFor entries i.offset s.line
  start : FirstLine entries m.startingLine

/-- **Lines follow the line tables.** In a method that is read and decoded, with
line tables whose entries start where instructions do, everything that is added
for an instruction stands at the line of the nearest entry that is not behind
it, and the method starts at the line of its first entry. -/
theorem lines_follow_table (hread : Listing.read pool body = .ok listing)
    (hdecode : decode header (some listing) = .ok m) (hstarts :
      Listing.StartsAtInstructions (Listing.lineEntries body.tables) listing) :
    ∃ type decoded, BodyState.typeOf header.descriptor = .ok type ∧
      BodyState.run
        { slots := (parametersOf header type listing.names).1 } listing =
        .ok decoded ∧
      FollowsLines (Listing.lineEntries body.tables)
        (parametersOf header type listing.names).1 listing decoded m := by
  obtain ⟨type, decoded, statements, htype, hrun, hstatements, rfl⟩ :=
    decode_eq_ok_iff.1 hdecode
  obtain ⟨x, hx, rfl⟩ := FlowGraph.exists_execute hstatements
  have hline : ∀ i op, BodyState.AddedFor
      (parametersOf header type listing.names).1 listing i op →
      LineFor (Listing.lineEntries body.tables) i.offset op.line :=
    fun _ _ => Listing.lineFor_of_addedFor hread hstarts
  refine ⟨type, decoded, htype, hrun, ?_, FlowGraph.statements_eq_flatMap hx,
    ?_, Listing.firstLine_of_run hread hstarts hrun⟩
  · intro i op hop
    refine ⟨hline i op hop, ?_⟩
    intro input s hs
    exact StackOp.line_of_statement? hs ▸ hline i op hop
  · intro b k op hk s hs
    have hb : b ∈ decoded.graph.order := by
      by_contra hb
      have hnone : decoded.graph.emittedAt b k = [] :=
        FlowGraph.emittedAt_eq_nil (FlowGraph.wellFormed_ofEvents _) hx hb k
      rw [hnone] at hs
      cases hs
    obtain ⟨input, hinput, _⟩ :=
      FlowGraph.exists_statement?_of_mem_emittedAt hx hb hk hs
    rcases BodyState.traced_graph hrun (List.mem_of_getElem? hk) with ⟨i, hop⟩ |
      ⟨value, hvalue⟩
    · exact ⟨i, hop, ⟨input, hinput⟩,
        StackOp.line_of_statement? hinput ▸ hline i op hop⟩
    · rw [StackOp.statement?, hvalue] at hinput
      cases hinput

end Method

namespace UnsortedLines

open Encoding

/-- Two stores that are protected, and a handler that drops what it catches. No
line covers the first constant, the tables are out of order, and two entries
start at the second store. -/
def body : CodeBody where
  code := #[0x03, 0x3b, 0x04, 0x3b, 0xb1, 0x57, 0xb1]
  handlers := [⟨0, 4, 5, 0⟩]
  tables := [.lines [⟨3, 9⟩, ⟨1, 5⟩], .locals [], .lines [⟨3, 7⟩]]

def instructions : List Instruction :=
  [⟨0, 0x03, .none⟩, ⟨1, 0x36, .slot 0⟩, ⟨2, 0x04, .none⟩, ⟨3, 0x36, .slot 0⟩,
    ⟨4, 0xb1, .none⟩, ⟨5, 0x57, .none⟩, ⟨6, 0xb1, .none⟩]

def listing : Listing where
  events := [.label 0, .instruction ⟨0, 0x03, .none⟩, .line 5,
    .instruction ⟨1, 0x36, .slot 0⟩,
    .instruction ⟨2, 0x04, .none⟩, .line 7, .instruction ⟨3, 0x36, .slot 0⟩,
    .instruction ⟨4, 0xb1, .none⟩, .label 5, .instruction ⟨5, 0x57, .none⟩,
    .instruction ⟨6, 0xb1, .none⟩]
  handlers := [⟨0, 4, 5, none⟩]

theorem layout_lines : Layout #[] 0 instructions body.code.toList := by
  have hfirst : Written #[] ⟨0, 0x03, .none⟩ (bigEndian 1 0x03) :=
    .plain (by decide)
  have hstore : Written #[] ⟨1, 0x36 + 0, .slot 0⟩
      (bigEndian 1 (0x3b + 4 * 0 + 0)) := .shortStore (by decide) (by decide)
  have hsecond : Written #[] ⟨2, 0x04, .none⟩ (bigEndian 1 0x04) :=
    .plain (by decide)
  have hagain : Written #[] ⟨3, 0x36 + 0, .slot 0⟩
      (bigEndian 1 (0x3b + 4 * 0 + 0)) := .shortStore (by decide) (by decide)
  have hreturn : Written #[] ⟨4, 0xb1, .none⟩ (bigEndian 1 0xb1) :=
    .plain (by decide)
  have hpop : Written #[] ⟨5, 0x57, .none⟩ (bigEndian 1 0x57) :=
    .plain (by decide)
  have hleave : Written #[] ⟨6, 0xb1, .none⟩ (bigEndian 1 0xb1) :=
    .plain (by decide)
  exact .cons hfirst (.cons hstore (.cons hsecond (.cons hagain (.cons hreturn
    (.cons hpop (.cons hleave (.nil 7)))))))

theorem readInstructions_lines :
    Code.readInstructions #[] body.code 0 = .ok instructions := by
  apply Code.readInstructions_of_layout layout_lines
    (List.nil_append _).symm rfl (by decide)
  unfold instructions
  simp [Operand.targets]

def header : MethodHeader where
  owner := "p.A"
  name := "run"
  descriptor := "()V"
  visibility := .publicAccess
  isStatic := true

def kept : Variable := .localVar ⟨"p.A.run()V", 0, "local_0", .int⟩

def method : Method where
  toMethodHeader := header
  receiver := none
  parameters := []
  locals := [kept]
  complexity := 1
  startingLine := 5
  statements :=
    [.assign 5 kept (.constant ⟨"0", .int⟩),
      .assign 7 kept (.constant ⟨"1", .int⟩)]

/-- The line of the second store is that of the entry that is listed last. -/
theorem lines_followed :
    Listing.read #[] body = .ok listing ∧
      Method.decode header (some listing) = .ok method ∧
      ∃ type decoded, BodyState.typeOf header.descriptor = .ok type ∧
        BodyState.run
          { slots := (Method.parametersOf header type listing.names).1 }
          listing =
          .ok decoded ∧
        Method.FollowsLines (Listing.lineEntries body.tables)
          (Method.parametersOf header type listing.names).1 listing decoded
            method := by
  have hread : Listing.read #[] body = .ok listing :=
    Listing.read_of_parts readInstructions_lines rfl rfl rfl
  have hdecode : Method.decode header (some listing) = .ok method := by cbv
  have hstarts : Listing.StartsAtInstructions (Listing.lineEntries body.tables)
      listing := by
    simp [Listing.StartsAtInstructions, Listing.lineEntries, body, listing]
  exact ⟨hread, hdecode, Method.lines_follow_table hread hdecode hstarts⟩

end UnsortedLines

end TestCost
