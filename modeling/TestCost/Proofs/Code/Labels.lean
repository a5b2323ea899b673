import Mathlib
import TestCost.Proofs.Code.RoundTrip

/-!
# Labels of a listing

Control can be sent to four kinds of offsets: targets of jumps and of switches,
starts of protected ranges, and handlers. A listing has a label for each of
them and for nothing else. Whoever works on a listing relies on that: a jump to
a label that is missing leads nowhere, and code behind a label that is placed
twice belongs to two places.

All instructions are read before the first label is placed. So it does not
matter for a label whether the jumps to it come before it or after it, or how
many there are: the labels are a selection of the offsets at which instructions
start, and these increase.

## Main results

* `Code.offsets_of_readInstructions` — offsets increase.
* `Listing.filterMap_label?_events` — labels are a selection of them.
* `Listing.followed_of_suffix` — the instruction behind a label.
* `listing_well_labelled` — the labels of a listing, and what happens to a
  target inside of an instruction.
-/

namespace TestCost

/-- The label that an event places. -/
def CodeEvent.label? : CodeEvent → Option Label
  | .label l => some l
  | .line _ | .instruction _ => none

namespace Code

/-- Instructions are read in the order of their offsets, from the first one on.
-/
theorem offsets_of_readInstructions {pool : Pool} {code : Bytes} {offset : Nat}
    {instructions : List Instruction}
    (h : readInstructions pool code offset = .ok instructions) :
    (∀ i ∈ instructions, offset ≤ i.offset) ∧
      (instructions.map Instruction.offset).Pairwise (· < ·) := by
  fun_induction readInstructions pool code offset generalizing instructions with
  | case1 offset hlt fault hfault => cases h
  | case2 offset hlt first stop hread ih =>
      obtain ⟨rest, hrest, rfl⟩ := map_eq_ok_iff.1 h
      obtain ⟨hbehind, hincreasing⟩ := ih hrest
      have hlength := readInstruction_length_pos hread
      obtain ⟨_, _, _, _, _, _, hfirst, _⟩ := exists_of_readInstruction hread
      constructor
      · intro i hi
        rcases List.mem_cons.1 hi with rfl | hi
        · omega
        · have := hbehind i hi
          omega
      · rw [List.map_cons, List.pairwise_cons]
        refine ⟨?_, hincreasing⟩
        intro o ho
        obtain ⟨i, hi, rfl⟩ := List.mem_map.1 ho
        have := hbehind i hi
        omega
  | case3 offset hle =>
      obtain rfl := Except.ok.inj h
      simp

end Code

namespace Listing

/-- Control can be sent to the offset: by a jump or a switch, or because a
protected range starts there, or is handled there. -/
def IsTarget (instructions : List Instruction) (entries : List HandlerEntry)
    (l : Label) : Prop :=
  (∃ i ∈ instructions, l ∈ i.operand.targets) ∨
    ∃ entry ∈ entries, l = entry.start ∨ l = entry.handler

/-- No instruction starts at the offset. -/
def IsStray (instructions : List Instruction) (l : Label) : Prop :=
  ∀ i ∈ instructions, i.offset ≠ l

/-- The events place a label at every target and nowhere else, once and in
order, each in front of the instruction that it is the offset of. -/
structure WellLabelled (isTarget : Label → Prop) (events : List CodeEvent) :
    Prop where
  label_iff : ∀ l, .label l ∈ events ↔ isTarget l
  increasing : (events.filterMap CodeEvent.label?).Pairwise (· < ·)
  followed : ∀ before l after, events = before ++ .label l :: after →
    ∃ lines i rest, after = lines ++ .instruction i :: rest ∧ i.offset = l ∧
      lines.length ≤ 1 ∧
      ∀ e ∈ lines, ∃ line, e = .line line
  ordered : ((events.filterMap CodeEvent.instruction?).map
    Instruction.offset).Pairwise (· < ·)

variable {pool : Pool} {labels : List Label} {lines : List LineEntry}

/-! ## Events of instructions -/

theorem filterMap_label?_eventsOf (labels : List Label) (lines : List LineEntry)
    (i : Instruction) :
    (eventsOf labels lines i).filterMap CodeEvent.label? =
      if labels.contains i.offset then [i.offset] else [] := by
  have hlines : ((lineAt? lines i.offset).map CodeEvent.line).toList.filterMap
      CodeEvent.label? = [] := by
    cases lineAt? lines i.offset <;> rfl
  rw [eventsOf, List.filterMap_append, List.filterMap_append, hlines]
  split <;> rfl

/-- The labels of a listing are offsets of its instructions. -/
theorem filterMap_label?_events (labels : List Label) (lines : List LineEntry)
    (instructions : List Instruction) :
    (instructions.flatMap (eventsOf labels lines)).filterMap CodeEvent.label? =
      (instructions.map Instruction.offset).filter fun o =>
        labels.contains o := by
  induction instructions with
  | nil => rfl
  | cons i instructions ih =>
      rw [List.flatMap_cons, List.filterMap_append, filterMap_label?_eventsOf,
        ih, List.map_cons, List.filter_cons]
      split <;> rfl

theorem label_mem_events_iff {instructions : List Instruction} {l : Label} :
    .label l ∈ instructions.flatMap (eventsOf labels lines) ↔
      l ∈ labels ∧ ¬ IsStray instructions l := by
  have hmem : .label l ∈ instructions.flatMap (eventsOf labels lines) ↔
      l ∈ (instructions.flatMap (eventsOf labels lines)).filterMap
        CodeEvent.label? := by
    rw [List.mem_filterMap]
    constructor
    · intro h
      exact ⟨_, h, rfl⟩
    · rintro ⟨e, he, hl⟩
      cases e with
      | label l' => exact Option.some.inj hl ▸ he
      | line _ | instruction _ => cases hl
  rw [hmem, filterMap_label?_events, List.mem_filter, List.mem_map,
    List.contains_iff_mem]
  simp only [IsStray, ne_eq, not_forall, not_not, exists_prop]
  exact and_comm

/-- A suffix that begins with a label does not begin among events without one.
-/
theorem suffix_of_unlabelled {front rest after : List CodeEvent} {l : Label}
    (hfront : ∀ e ∈ front, e.label? = none)
    (h : .label l :: after <:+ front ++ rest) :
    .label l :: after <:+ rest := by
  induction front with
  | nil => exact h
  | cons e front ih =>
      rw [List.forall_mem_cons] at hfront
      rcases List.suffix_cons_iff.1 h with heq | h
      · rw [← (List.cons.inj heq).1] at hfront
        exact absurd hfront.1 (Option.some_ne_none l)
      · exact ih hfront.2 h

/-- Behind a label comes the instruction at that offset, with at most a line in
between. The label is the one of the first instruction, or a label of the
others. -/
theorem followed_of_suffix
    {instructions : List Instruction} {l : Label} {after : List CodeEvent}
    (h : .label l :: after <:+ instructions.flatMap (eventsOf labels lines)) :
    ∃ between i rest, after = between ++ .instruction i :: rest ∧ i.offset = l ∧
      between.length ≤ 1 ∧ ∀ e ∈ between, ∃ line, e = .line line := by
  induction instructions with
  | nil => simp at h
  | cons i instructions ih =>
      let between := ((lineAt? lines i.offset).map CodeEvent.line).toList
      have hlines : ∀ e ∈ between, ∃ line, e = .line line := by
        intro e he
        obtain ⟨line, _, rfl⟩ :=
          Option.map_eq_some_iff.1 (Option.mem_toList.1 he)
        exact ⟨line, rfl⟩
      have hquiet : ∀ e ∈ between ++ [.instruction i], e.label? = none := by
        intro e he
        rcases List.mem_append.1 he with he | he
        · obtain ⟨line, rfl⟩ := hlines e he
          rfl
        · rw [List.mem_singleton.1 he]
          rfl
      rw [List.flatMap_cons, eventsOf, List.append_assoc,
        List.append_assoc] at h
      split at h
      · rcases List.suffix_cons_iff.1 h with heq | h
        · obtain ⟨hl, rfl⟩ := List.cons.inj heq
          have hlength : between.length ≤ 1 := by
            rw [Option.length_toList]
            split <;> simp
          exact ⟨between, i, _, rfl, (CodeEvent.label.inj hl).symm,
            hlength, hlines⟩
        · exact ih (suffix_of_unlabelled hquiet (List.append_assoc .. ▸ h))
      · exact ih (suffix_of_unlabelled hquiet (List.append_assoc .. ▸ h))

/-! ## Targets -/

theorem readHandler_offsets {entry : HandlerEntry} {range : HandlerRange}
    (h : readHandler pool entry = .ok range) :
    range.start = entry.start ∧ range.handler = entry.handler := by
  rw [readHandler] at h
  split at h
  · obtain rfl := Except.ok.inj h
    exact ⟨rfl, rfl⟩
  · obtain ⟨catchType, _, h⟩ := exists_of_bind_eq_ok h
    obtain rfl := Except.ok.inj h
    exact ⟨rfl, rfl⟩

theorem mem_handlers_iff
    {entries : List HandlerEntry} {handlers : List HandlerRange}
    (h : entries.mapM (readHandler pool) = .ok handlers) (l : Label) :
    l ∈ handlers.flatMap (fun r => [r.start, r.handler]) ↔
      ∃ entry ∈ entries, l = entry.start ∨ l = entry.handler := by
  induction entries generalizing handlers with
  | nil =>
      obtain rfl := Except.ok.inj h
      simp
  | cons entry entries ih =>
      obtain ⟨first, rest, hfirst, hrest, rfl⟩ := mapM_eq_ok_cons_iff.1 h
      obtain ⟨hstart, hhandler⟩ := readHandler_offsets hfirst
      rw [List.flatMap_cons, List.mem_append, ih hrest, hstart, hhandler]
      simp

theorem mem_labels_iff {instructions : List Instruction}
    {entries : List HandlerEntry} {handlers : List HandlerRange}
    (h : entries.mapM (readHandler pool) = .ok handlers) (l : Label) :
    l ∈ Listing.labels instructions handlers ↔
      IsTarget instructions entries l := by
  rw [Listing.labels, List.mem_append, List.mem_flatMap, mem_handlers_iff h]
  rfl

theorem mem_strays_iff {instructions : List Instruction} {l : Label} :
    l ∈ labels.filter
      (fun l => !(instructions.map Instruction.offset).contains l) ↔
      l ∈ labels ∧ IsStray instructions l := by
  rw [List.mem_filter]
  simp [IsStray]

theorem not_stray_of_strayLabel? {instructions : List Instruction}
    (h : strayLabel? instructions labels = none) {l : Label} (hl : l ∈ labels) :
    ¬ IsStray instructions l := by
  intro hstray
  have hnil := List.min?_eq_none_iff.1 h
  exact List.ne_nil_of_mem (mem_strays_iff.2 ⟨hl, hstray⟩) hnil

/-- The smallest label that no instruction starts at is found if there is one.
-/
theorem exists_strayLabel? {instructions : List Instruction} {l : Label}
    (hl : l ∈ labels) (hstray : IsStray instructions l) :
    ∃ least, strayLabel? instructions labels = some least ∧ least ∈ labels ∧
      IsStray instructions least ∧ ∀ l' ∈ labels,
        IsStray instructions l' → least ≤ l' := by
  cases h : strayLabel? instructions labels with
  | none => exact absurd hstray (not_stray_of_strayLabel? h hl)
  | some least =>
      obtain ⟨hmem, hleast⟩ := List.min?_eq_some_iff.1 h
      obtain ⟨hlabel, hnone⟩ := mem_strays_iff.1 hmem
      refine ⟨least, rfl, hlabel, hnone, ?_⟩
      intro l' hl' hstray'
      exact hleast l' (mem_strays_iff.2 ⟨hl', hstray'⟩)

theorem read_of_strayLabel? {body : CodeBody}
    {instructions : List Instruction} {handlers : List HandlerRange} {l : Label}
    (hinstructions : Code.readInstructions pool body.code 0 = .ok instructions)
    (hhandlers : body.handlers.mapM (readHandler pool) = .ok handlers)
    (h : strayLabel? instructions (Listing.labels instructions handlers) =
      some l) :
    read pool body = .error (.malformed l .strayLabel) := by
  simp only [read, bind, Except.bind, hinstructions, hhandlers, h]
  rfl

end Listing

open Listing in
/-- **Listings are well labelled.** A listing has a label for every target and
for nothing else, each once, in order, and in front of its instruction; and its
instructions come in the order of their offsets. If all instructions can be
read, and all classes that handlers catch, but a target is not the start of an
instruction, then the code is refused, and the smallest such target is named. -/
theorem listing_well_labelled (pool : Pool) (body : CodeBody) :
    (∀ listing, Listing.read pool body = .ok listing →
      WellLabelled
        (IsTarget (listing.events.filterMap CodeEvent.instruction?)
          body.handlers) listing.events) ∧
      ∀ instructions handlers,
        Code.readInstructions pool body.code 0 = .ok instructions →
        body.handlers.mapM (readHandler pool) = .ok handlers →
        (∃ l, IsTarget instructions body.handlers l ∧ IsStray instructions l) →
        ∃ l, IsTarget instructions body.handlers l ∧ IsStray instructions l ∧
          (∀ l', IsTarget instructions body.handlers l' →
            IsStray instructions l' → l ≤ l') ∧
          Listing.read pool body = .error (.malformed l .strayLabel) := by
  constructor
  · intro listing h
    obtain ⟨instructions, handlers, _, hinstructions, hhandlers, hstray, _,
      hevents, _⟩ := exists_of_read h
    obtain ⟨_, hincreasing⟩ := Code.offsets_of_readInstructions hinstructions
    rw [hevents, filterMap_events]
    refine ⟨?_, ?_, ?_, ?_⟩
    · intro l
      rw [label_mem_events_iff, ← mem_labels_iff hhandlers]
      exact and_iff_left_of_imp (not_stray_of_strayLabel? hstray)
    · rw [filterMap_label?_events]
      exact hincreasing.filter _
    · intro before l after hsplit
      exact followed_of_suffix ⟨before, hsplit.symm⟩
    · rw [filterMap_events]
      exact hincreasing
  · rintro instructions handlers hinstructions hhandlers ⟨l, htarget, hstray⟩
    obtain ⟨least, hfound, hlabel, hnone, hleast⟩ :=
      exists_strayLabel? ((mem_labels_iff hhandlers l).2 htarget) hstray
    refine ⟨least, (mem_labels_iff hhandlers least).1 hlabel, hnone, ?_,
      read_of_strayLabel? hinstructions hhandlers hfound⟩
    intro l' htarget' hstray'
    exact hleast l' ((mem_labels_iff hhandlers l').2 htarget') hstray'

namespace ProtectedLoop

open Encoding Listing

/-- A loop whose jump back is protected; the handler stands where the jump out
of the loop leads to. -/
def body : CodeBody where
  code := #[0x03, 0x99, 0x00, 0x06, 0xa7, 0xff, 0xfc, 0xb1]
  handlers := [⟨4, 7, 7, 0⟩]
  tables := [.lines [⟨0, 5⟩, ⟨7, 6⟩]]

/-- The same loop, protected from within its jumps on. -/
def shifted : CodeBody :=
  { body with handlers := [⟨5, 7, 7, 0⟩, ⟨2, 7, 7, 0⟩] }

def instructions : List Instruction :=
  [⟨0, 0x03, .none⟩, ⟨1, 0x99, .jump 7⟩, ⟨4, 0xa7, .jump 0⟩, ⟨7, 0xb1, .none⟩]

def listing : Listing where
  events := [.label 0, .line 5, .instruction ⟨0, 0x03, .none⟩,
    .instruction ⟨1, 0x99, .jump 7⟩,
    .label 4, .instruction ⟨4, 0xa7, .jump 0⟩, .label 7, .line 6,
      .instruction ⟨7, 0xb1, .none⟩]
  handlers := [⟨4, 7, 7, none⟩]

theorem layout_code : Layout #[] 0 instructions body.code.toList := by
  have hconstant : Written #[] ⟨0, 0x03, .none⟩ (bigEndian 1 0x03) :=
    .plain (by decide)
  have hexit : Written #[] ⟨1, 0x99, .jump 7⟩ (bigEndian 1 0x99 ++
      jumpBytes 2 1 7) := .nearJump (by decide) (by unfold Reaches; decide)
  have hback : Written #[] ⟨4, 0xa7, .jump 0⟩ (bigEndian 1 0xa7 ++
      jumpBytes 2 4 0) := .nearJump (by decide) (by unfold Reaches; decide)
  have hreturn : Written #[] ⟨7, 0xb1, .none⟩ (bigEndian 1 0xb1) :=
    .plain (by decide)
  exact .cons hconstant (.cons hexit (.cons hback (.cons hreturn (.nil 8))))

theorem readInstructions_code :
    Code.readInstructions #[] body.code 0 = .ok instructions := by
  apply Code.readInstructions_of_layout layout_code
    (List.nil_append _).symm rfl (by decide)
  unfold instructions
  simp [Operand.targets, body]

theorem well_labelled :
    Listing.read #[] body = .ok listing ∧
      WellLabelled (IsTarget instructions body.handlers) listing.events ∧
      ∃ l, IsTarget instructions shifted.handlers l ∧ IsStray instructions l ∧
        (∀ l', IsTarget instructions shifted.handlers l' →
          IsStray instructions l' → l ≤ l') ∧
        Listing.read #[] shifted = .error (.malformed l .strayLabel) := by
  have hread : Listing.read #[] body = .ok listing :=
    read_of_parts readInstructions_code rfl rfl rfl
  have hstray : IsStray instructions 5 := by
    simp [IsStray, instructions]
  exact ⟨hread, (listing_well_labelled #[] body).1 listing hread,
    (listing_well_labelled #[] shifted).2 instructions _ readInstructions_code
    rfl ⟨5, .inr ⟨⟨5, 7, 7, 0⟩, by simp [shifted], .inl rfl⟩, hstray⟩⟩

end ProtectedLoop

end TestCost
