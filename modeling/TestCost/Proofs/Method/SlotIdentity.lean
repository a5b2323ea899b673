import Mathlib
import TestCost.Proofs.Method.Scoping

/-!
# Which variable an access means

Code without debug names tells variables apart by slot and kind. The decoder
keeps for each slot the variable that it served last and compares kinds. What it
answers is described here by the accesses that came before, in program order: an
access gives what the last access of its slot gave, or the parameter that starts
at the slot if there was none, as long as the kinds agree on the stack, and a
new local otherwise.

The invariant (`Slots.Remembers`) ties the slots to that history. Variables are
numbered in the order in which they are made, so one that is made now differs
from all before it, and for the same reason no variable ever serves two slots.

## Main results

* `Method.lookup_placed_iff` — parameters start where the slots of those before
  them end.
* `Slots.Remembers.access`, `Slots.remembers_trace` — an access, and then a
  sequence of them, keeps slots and history in agreement.
* `BodyState.slots_step`, `BodyState.slots_run` — decoding accesses slots as its
  loads, stores and increments say, and not otherwise.
* `Method.access_by_history` — the variable that an access means.
-/

namespace TestCost

/-- An access of a slot: the kind it is made with and the offset it is made at.
-/
structure SlotUse where
  slot : Nat
  type : ValueType
  offset : Nat

/-- The slot that an instruction loads, stores or increments. -/
def Instruction.slotUse? (i : Instruction) : Option SlotUse :=
  match Meaning.ofOpcode? i.opcode, i.operand with
  | some (.loadSlot type), .slot slot => some ⟨slot, type, i.offset⟩
  | some (.storeSlot type), .slot slot => some ⟨slot, type, i.offset⟩
  | some .increment, .increment slot _ => some ⟨slot, .int, i.offset⟩
  | _, _ => none

/-- What an instruction that accesses a slot does with the variable there. -/
def Instruction.slotEffects (i : Instruction) (v : Variable) :
    List StackEffect :=
  match Meaning.ofOpcode? i.opcode with
  | some (.loadSlot _) => [.load v]
  | some (.storeSlot _) => [.store v]
  | _ => []

def CodeEvent.slotUse? : CodeEvent → Option SlotUse
  | instruction i => i.slotUse?
  | label _ | line _ => none

/-! ## Parameters -/

/-- Where values of these kinds start that are kept one behind the other from a
slot on. -/
def firstSlots (slot : Nat) : List ValueType → List Nat
  | [] => []
  | t :: types => slot :: firstSlots (slot + t.slots) types

theorem getElem?_firstSlots (slot : Nat) (types : List ValueType) (i : Nat) :
    (firstSlots slot types)[i]? =
      if i < types.length then
        some (slot + total ((types.take i).map ValueType.slots))
      else none := by
  induction types generalizing slot i with
  | nil => rfl
  | cons t types ih =>
      cases i with
      | zero => simp [firstSlots]
      | succ i => simp [firstSlots, ih, Nat.add_assoc]

theorem length_firstSlots (slot : Nat) (types : List ValueType) :
    (firstSlots slot types).length = types.length := by
  induction types generalizing slot with
  | nil => rfl
  | cons t types ih => exact congrArg (· + 1) (ih _)

theorem le_of_mem_firstSlots {slot first : Nat} {types : List ValueType}
    (h : first ∈ firstSlots slot types) : slot ≤ first := by
  induction types generalizing slot with
  | nil => cases h
  | cons t types ih =>
      rcases List.mem_cons.1 h with rfl | h
      · exact Nat.le_refl _
      · exact Nat.le_trans (Nat.le_add_right _ _) (ih h)

/-- Values that take slots start at different ones. -/
theorem nodup_firstSlots {types : List ValueType}
    (hvoid : ∀ t ∈ types, t ≠ .void) (slot : Nat) :
    (firstSlots slot types).Nodup := by
  induction types generalizing slot with
  | nil => exact List.nodup_nil
  | cons t types ih =>
      have hslots := ValueType.slots_pos (hvoid t List.mem_cons_self)
      refine List.nodup_cons.2
        ⟨?_, ih (fun u hu => hvoid u (List.mem_cons_of_mem _ hu)) _⟩
      intro hmem
      have hle := le_of_mem_firstSlots hmem
      omega

/-- Under distinct keys an entry is found exactly if it is there. -/
theorem lookup_eq_some_iff_mem {entries : List (Nat × Variable)}
    (h : (entries.map Prod.fst).Nodup) {key : Nat} {v : Variable} :
    entries.lookup key = some v ↔ (key, v) ∈ entries := by
  rw [List.lookup_eq_some_iff]
  constructor
  · rintro ⟨before, after, rfl, _⟩
    exact List.mem_append_right _ List.mem_cons_self
  · intro hmem
    obtain ⟨before, after, rfl⟩ := List.append_of_mem hmem
    refine ⟨before, after, rfl, ?_⟩
    intro entry hentry
    rw [List.map_append, List.map_cons] at h
    have hne := (List.nodup_append.1 h).2.2 _ (List.mem_map_of_mem hentry) _
      List.mem_cons_self
    exact bne_iff_ne.2 hne.symm

theorem mem_zip_firstSlots_iff {types : List ValueType} {held : List Variable}
    (h : held.length = types.length) (slot first : Nat) (v : Variable) :
    (first, v) ∈ (firstSlots slot types).zip held ↔
      ∃ i, held[i]? = some v ∧
        first = slot + total ((types.take i).map ValueType.slots) := by
  rw [List.mem_iff_getElem?]
  constructor
  · rintro ⟨i, hi⟩
    obtain ⟨hfirst, hv⟩ := List.getElem?_zip_eq_some.1 hi
    rw [getElem?_firstSlots] at hfirst
    split at hfirst
    · exact ⟨i, hv, (Option.some.inj hfirst).symm⟩
    · cases hfirst
  · rintro ⟨i, hv, rfl⟩
    have hlt := (List.getElem?_eq_some_iff.1 hv).1
    exact ⟨i, List.getElem?_zip_eq_some.2
      ⟨by rw [getElem?_firstSlots, if_pos (h ▸ hlt)], hv⟩⟩

/-! ## Slots and what they served -/

namespace Slots

variable {past : List (Nat × Variable)} {s : Slots}

/-- The slots agree with what they served in the past: each still holds what it
served last, every variable has a number of its own, and none served two slots.
-/
structure Remembers (past : List (Nat × Variable)) (s : Slots) : Prop where
  current : ∀ slot, s.current.lookup slot = past.reverse.lookup slot
  numbered : ∀ entry ∈ past, ∃ l : LocalVariable,
    (entry.2 = .parameter l ∨ entry.2 = .localVar l) ∧ l.ordinal < s.count
  apart : ∀ entry ∈ past, ∀ other ∈ past, entry.2 = other.2 → entry.1 = other.1

theorem remembers_empty (scope : String) (names : List DebugName) :
    Remembers [] { scope, names } :=
  ⟨fun _ => rfl, by simp, by simp⟩

/-- A variable that gets the next number is none of those before it. -/
theorem Remembers.beq_eq_false (h : s.Remembers past)
    {l : LocalVariable} (hl : l.ordinal = s.count) {v : Variable}
    (hv : v = .parameter l ∨ v = .localVar l) :
    ∀ entry ∈ past, (entry.2 == v) = false := by
  intro entry hentry
  obtain ⟨k, hk, hlt⟩ := h.numbered entry hentry
  have hne : k ≠ l := by
    rintro rfl
    omega
  rw [Bool.eq_false_iff, ne_eq, Variable.beq_iff]
  rcases hk with hk | hk <;> rcases hv with rfl | rfl <;>
    simp [hk, Variable.identity, hne]

theorem Remembers.same_iff (h : s.Remembers past) {entry : Nat × Variable}
    (hentry : entry ∈ past) (v : Variable) :
    (entry.2 == v) = true ↔ entry.2 = v := by
  obtain ⟨l, hl, _⟩ := h.numbered entry hentry
  rw [Variable.beq_iff]
  rcases hl with hl | hl <;> cases v <;> simp [hl, Variable.identity]

/-- A slot serves a variable that gets the next number. -/
theorem Remembers.serve (h : s.Remembers past)
    (slot : Nat) {l : LocalVariable} (hl : l.ordinal = s.count) {v : Variable}
    (hv : v = .parameter l ∨ v = .localVar l) :
    (s.serve slot v).Remembers (past ++ [(slot, v)]) := by
  have hnew := h.beq_eq_false hl hv
  refine ⟨fun other => ?_, ?_, ?_⟩
  · show ((slot, v) :: s.current).lookup other = _
    rw [List.reverse_append, List.reverse_singleton, List.singleton_append,
      List.lookup_cons, List.lookup_cons, h.current]
  · intro entry hentry
    rcases List.mem_append.1 hentry with hentry | hentry
    · obtain ⟨k, hk, hlt⟩ := h.numbered entry hentry
      exact ⟨k, hk, Nat.lt_succ_of_lt hlt⟩
    · obtain rfl := List.mem_singleton.1 hentry
      exact ⟨l, hv, hl ▸ Nat.lt_succ_self _⟩
  · intro entry hentry other hother heq
    rcases List.mem_append.1 hentry with hentry | hentry <;>
      rcases List.mem_append.1 hother with hother | hother
    · exact h.apart entry hentry other hother heq
    · obtain rfl := List.mem_singleton.1 hother
      exact absurd (hnew entry hentry) (by simp [heq])
    · obtain rfl := List.mem_singleton.1 hentry
      exact absurd (hnew other hother) (by simp [← heq])
    · rw [List.mem_singleton.1 hentry, List.mem_singleton.1 hother]

/-- A slot serves again what it served last. -/
theorem Remembers.again (h : s.Remembers past) {slot : Nat} {v : Variable}
    (hv : s.current.lookup slot = some v) :
    s.Remembers (past ++ [(slot, v)]) := by
  have hmem : (slot, v) ∈ past := by
    rw [h.current] at hv
    obtain ⟨before, after, heq, _⟩ := List.lookup_eq_some_iff.1 hv
    exact List.mem_reverse.1 (heq ▸ List.mem_append_right _ List.mem_cons_self)
  have hsubset : past ++ [(slot, v)] ⊆ past := List.append_subset.2
    ⟨List.Subset.refl _, List.cons_subset.2 ⟨hmem, List.nil_subset _⟩⟩
  refine ⟨fun other => ?_, fun entry hentry =>
    h.numbered entry (hsubset hentry), fun entry hentry other hother =>
    h.apart entry (hsubset hentry) other (hsubset hother)⟩
  rw [List.reverse_append, List.reverse_singleton, List.singleton_append,
    List.lookup_cons, ← h.current]
  split
  · next heq =>
    obtain rfl := beq_iff_eq.1 heq
    exact hv
  · rfl

theorem Remembers.addParameters (h : s.Remembers past) (slot rank : Nat)
    (types : List ValueType) :
    (s.addParameters slot rank types).1.Remembers
      (past ++
        (firstSlots slot types).zip (s.addParameters slot rank types).2) := by
  induction types generalizing s past slot rank with
  | nil => simpa [firstSlots, Slots.addParameters] using h
  | cons t types ih =>
      have hfirst :
          (s.parameter slot t ("param_" ++ toString rank)).1.Remembers (past ++
          [(slot, (s.parameter slot t ("param_" ++ toString rank)).2)]) :=
        h.serve slot rfl (.inl rfl)
      have hrest := ih hfirst (slot + t.slots) (rank + 1)
      rw [List.append_assoc] at hrest
      exact hrest

theorem names_addParameters (s : Slots) (slot rank : Nat)
    (types : List ValueType) :
    (s.addParameters slot rank types).1.names = s.names := by
  induction types generalizing s slot rank with
  | nil => rfl
  | cons t types ih => exact ih _ (slot + t.slots) (rank + 1)

theorem length_addParameters (s : Slots) (slot rank : Nat)
    (types : List ValueType) :
    (s.addParameters slot rank types).2.length = types.length := by
  induction types generalizing s slot rank with
  | nil => rfl
  | cons t types ih => exact congrArg (· + 1) (ih _ (slot + t.slots) (rank + 1))

/-! ## Accesses -/

/-- Without debug names, a slot goes on serving what it holds exactly if the
kinds agree. -/
theorem access_cases (hnames : s.names = []) (slot : Nat) (type : ValueType)
    (offset : Nat) :
    (∃ v, s.current.lookup slot = some v ∧ v.kind = type.stackKind ∧
      s.access slot type offset = (s, v)) ∨
    ((∀ v, s.current.lookup slot = some v → v.kind ≠ type.stackKind) ∧
      ∃ l : LocalVariable, l.ordinal = s.count ∧ l.type = type ∧
        s.access slot type offset =
          ({ s.serve slot (.localVar l) with
             locals := s.locals ++ [.localVar l] }, .localVar l)) := by
  have hname : DebugName.name? s.names slot offset = none := by rw [hnames]; rfl
  have hreused : s.reused? slot type none =
      (s.current.lookup slot).filter fun v => v.kind == type.stackKind := by
    simp [reused?, Variable.kind]
  unfold Slots.access
  dsimp only
  rw [hname, hreused]
  cases hkept : (s.current.lookup slot).filter fun v =>
    v.kind == type.stackKind with
  | some v =>
      obtain ⟨hv, hkind⟩ := Option.filter_eq_some_iff.1 hkept
      exact .inl ⟨v, hv, by simpa using hkind, rfl⟩
  | none =>
      refine .inr ⟨fun v hv hkind => ?_, _, rfl, rfl, rfl⟩
      exact Option.filter_eq_none_iff.1 hkept v hv (by simpa using hkind)

theorem Remembers.access (h : s.Remembers past) (hnames : s.names = [])
    (slot : Nat) (type : ValueType) (offset : Nat) :
    (s.access slot type offset).1.Remembers
      (past ++ [(slot, (s.access slot type offset).2)]) ∧
      (s.access slot type offset).1.names = [] := by
  rcases access_cases hnames slot type offset with ⟨v, hv, _, heq⟩ |
    ⟨_, l, hl, _, heq⟩
  · rw [heq]
    exact ⟨h.again hv, hnames⟩
  · have hserve := h.serve slot hl (.inr rfl)
    rw [heq]
    exact ⟨⟨hserve.current, hserve.numbered, hserve.apart⟩, hnames⟩

/-- Slots that are accessed one after the other, with what each access gave. -/
def trace (s : Slots) : List SlotUse → Slots × List (Nat × Variable)
  | [] => (s, [])
  | u :: uses =>
    let accessed := s.access u.slot u.type u.offset
    ((accessed.1.trace uses).1,
      (u.slot, accessed.2) :: (accessed.1.trace uses).2)

theorem trace_append (s : Slots) (uses more : List SlotUse) :
    s.trace (uses ++ more) =
      (((s.trace uses).1.trace more).1,
        (s.trace uses).2 ++ ((s.trace uses).1.trace more).2) := by
  induction uses generalizing s with
  | nil => rfl
  | cons u uses ih =>
      rw [List.cons_append, trace, ih]
      rfl

theorem remembers_trace (h : s.Remembers past) (hnames : s.names = [])
    (uses : List SlotUse) :
    (s.trace uses).1.Remembers (past ++ (s.trace uses).2) ∧
      (s.trace uses).1.names = [] := by
  induction uses generalizing s past with
  | nil => exact ⟨by simpa [trace] using h, hnames⟩
  | cons u uses ih =>
      obtain ⟨hnext, hnames'⟩ := h.access hnames u.slot u.type u.offset
      have hrest := ih hnext hnames'
      rwa [List.append_assoc] at hrest

end Slots

/-! ## The parameters of a method -/

namespace Method

variable {header : MethodHeader} {type : MethodType} {names : List DebugName}

/-- Receiver and parameters, each with the slot that it starts at. -/
def placed (header : MethodHeader) (type : MethodType)
    (names : List DebugName) :
    List (Nat × Variable) :=
  (parametersOf header type names).2.1.toList.map (fun v => (0, v)) ++
    (firstSlots (if header.isStatic then 0 else 1) type.parameters).zip
      (parametersOf header type names).2.2

theorem remembers_parametersOf (header : MethodHeader) (type : MethodType)
    (names : List DebugName) :
    (parametersOf header type names).1.Remembers (placed header type names) ∧
      (parametersOf header type names).1.names = names ∧
      (parametersOf header type names).2.2.length = type.parameters.length := by
  have hempty := Slots.remembers_empty header.fullName names
  unfold placed parametersOf
  dsimp only
  cases header.isStatic with
  | true =>
      exact ⟨hempty.addParameters 0 0 type.parameters,
        Slots.names_addParameters _ _ _ _, Slots.length_addParameters _ _ _ _⟩
  | false =>
      have hreceiver := hempty.serve
        (v := .parameter (Slots.fresh { scope := header.fullName, names }
        ((DebugName.name? names 0 0).getD "this") .reference)) 0 rfl (.inl rfl)
      exact ⟨hreceiver.addParameters 1 0 type.parameters,
        Slots.names_addParameters _ _ _ _, Slots.length_addParameters _ _ _ _⟩

/-- The variable is the receiver, or a parameter, and starts at this slot:
behind the receiver and the parameters before it. -/
def StartsAt (header : MethodHeader) (type : MethodType) (slot : Nat)
    (v : Variable) : Prop :=
  (parametersOf header type []).2.1 = some v ∧ slot = 0 ∨
  ∃ i, (parametersOf header type []).2.2[i]? = some v ∧
    slot = (if header.isStatic then 0 else 1) +
      total ((type.parameters.take i).map ValueType.slots)

theorem mem_placed_iff {slot : Nat} {v : Variable} :
    (slot, v) ∈ placed header type [] ↔ StartsAt header type slot v := by
  rw [placed, List.mem_append, mem_zip_firstSlots_iff
    (remembers_parametersOf header type []).2.2, StartsAt]
  refine or_congr ?_ Iff.rfl
  cases (parametersOf header type []).2.1 <;> simp [eq_comm, and_comm]

/-- The receiver takes slot 0, and no parameter does with it. -/
theorem nodup_placed (hvoid : ∀ t ∈ type.parameters, t ≠ .void) :
    ((placed header type names).map Prod.fst).Nodup := by
  have hlength := (remembers_parametersOf header type names).2.2
  rw [placed, List.map_append,
    List.map_fst_zip (by rw [length_firstSlots, hlength])]
  unfold parametersOf
  cases header.isStatic with
  | true => simpa using nodup_firstSlots hvoid 0
  | false =>
      refine List.nodup_cons.2 ⟨?_, nodup_firstSlots hvoid 1⟩
      intro hmem
      have hle : 1 ≤ 0 := le_of_mem_firstSlots hmem
      omega

/-- What a slot holds before any access: the parameter that starts there. -/
theorem lookup_placed_iff (hvoid : ∀ t ∈ type.parameters, t ≠ .void)
    {slot : Nat} {v : Variable} :
    (placed header type []).reverse.lookup slot = some v ↔
      StartsAt header type slot v := by
  have hnodup : ((placed header type []).reverse.map Prod.fst).Nodup := by
    rw [List.map_reverse]
    exact List.nodup_reverse.2 (nodup_placed hvoid)
  rw [lookup_eq_some_iff_mem hnodup, List.mem_reverse, mem_placed_iff]

/-- The variable that the accesses so far, the latest last, leave in a slot:
what the last one of the slot gave, or the parameter that starts there if there
was none. -/
def Leaves (header : MethodHeader) (type : MethodType)
    (history : List (Nat × Variable)) (slot : Nat) (v : Variable) : Prop :=
  history.reverse.lookup slot = some v ∨
    history.reverse.lookup slot = none ∧ StartsAt header type slot v

theorem lookup_iff_leaves (hvoid : ∀ t ∈ type.parameters, t ≠ .void)
    {history : List (Nat × Variable)} {s : Slots}
    (h : s.Remembers (placed header type [] ++ history)) (slot : Nat)
    (v : Variable) :
    s.current.lookup slot = some v ↔ Leaves header type history slot v := by
  rw [h.current, List.reverse_append, List.lookup_append, Leaves,
    ← lookup_placed_iff hvoid]
  cases history.reverse.lookup slot <;> simp

end Method

/-! ## Decoding -/

namespace BodyState

variable {s t : BodyState}

/-- An instruction that accesses a slot is decoded to an operation on the
variable there. -/
theorem instruction_of_slotUse? {i : Instruction} {u : SlotUse}
    (h : i.slotUse? = some u) :
    ∃ t, s.instruction i = .ok t ∧
      t.slots = (s.slots.access u.slot u.type u.offset).1 ∧
      t.effects = s.effects ++
        i.slotEffects (s.slots.access u.slot u.type u.offset).2 := by
  unfold Instruction.slotUse? at h
  split at h
  · next type slot hm hoperand =>
    obtain rfl := Option.some.inj h
    have hload : s.instruction i =
        .ok ({ s with slots := (s.slots.access slot type i.offset).1
        }.addEffect (.load (s.slots.access slot type i.offset).2)) := by
      simp only [instruction, hm, hoperand]
    refine ⟨_, hload, rfl, ?_⟩
    simp only [Instruction.slotEffects, hm]
    exact (performs_addEffect _ _).effects_eq
  · next type slot hm hoperand =>
    obtain rfl := Option.some.inj h
    have hstore : s.instruction i =
        .ok ({ s with slots := (s.slots.access slot type i.offset).1
        }.addEffect (.store (s.slots.access slot type i.offset).2)) := by
      simp only [instruction, hm, hoperand]
    refine ⟨_, hstore, rfl, ?_⟩
    simp only [Instruction.slotEffects, hm]
    exact (performs_addEffect _ _).effects_eq
  · next slot amount hm hoperand =>
    obtain rfl := Option.some.inj h
    have hincrement : s.instruction i =
        .ok { s with slots := (s.slots.access slot .int i.offset).1 } := by
      simp only [instruction, hm, hoperand]
    refine ⟨_, hincrement, rfl, ?_⟩
    simp [Instruction.slotEffects, hm, effects]
  · cases h

/-- Any other instruction leaves the slots alone. -/
theorem Means.slots_eq {slots slots' : Slots} {i : Instruction}
    {effects : List StackEffect} (h : Means slots i slots' effects)
    (huse : i.slotUse? = none) : slots' = slots := by
  cases h with
  | load _ _ hm hoperand | store _ _ hm hoperand | increment _ hm hoperand =>
      simp [Instruction.slotUse?, hm, hoperand] at huse
  | _ => rfl

theorem slots_step {event : CodeEvent} (h : s.step event = .ok t) :
    t.slots = (s.slots.trace event.slotUse?.toList).1 := by
  cases event with
  | label label =>
      obtain rfl := Except.ok.inj h
      rfl
  | line line =>
      obtain rfl := Except.ok.inj h
      rfl
  | instruction i =>
      have hi := mapError_eq_ok_iff.1 h
      cases huse : i.slotUse? with
      | none =>
          obtain ⟨_, hmeans, _⟩ := exists_means hi
          rw [hmeans.slots_eq huse, CodeEvent.slotUse?, huse]
          rfl
      | some u =>
          obtain ⟨t', ht', hslots, _⟩ := instruction_of_slotUse? (s := s) huse
          obtain rfl : t' = t := Except.ok.inj (ht'.symm.trans hi)
          rw [hslots, CodeEvent.slotUse?, huse]
          rfl

theorem slots_handlers (s : BodyState) (ranges : List HandlerRange) :
    (ranges.foldl handler s).slots = s.slots := by
  induction ranges generalizing s with
  | nil => rfl
  | cons range ranges ih => exact ih (s.handler range)

/-- Decoding accesses the slots that its events name, in their order. -/
theorem slots_run {listing : Listing} (h : s.run listing = .ok t) :
    t.slots =
      (s.slots.trace (listing.events.filterMap CodeEvent.slotUse?)).1 := by
  have hevents : ∀ (events : List CodeEvent) {s : BodyState},
      events.foldlM step s = .ok t →
      t.slots = (s.slots.trace (events.filterMap CodeEvent.slotUse?)).1 := by
    intro events
    induction events with
    | nil =>
        intro s h
        obtain rfl := Except.ok.inj h
        rfl
    | cons event events ih =>
        intro s h
        obtain ⟨u, hu, hrest⟩ := exists_of_bind_eq_ok h
        have huses : (event :: events).filterMap CodeEvent.slotUse? =
            event.slotUse?.toList ++ events.filterMap CodeEvent.slotUse? := by
          rw [List.filterMap_cons]
          cases event.slotUse? <;> rfl
        rw [ih hrest, slots_step hu, huses, Slots.trace_append]
  rw [hevents listing.events h, slots_handlers]

end BodyState

/-! ## The variable that an access means -/

namespace Method

variable {header : MethodHeader} {type : MethodType}

/-- The accesses of code without debug names, in program order, each with the
slot and the variable that it gives. -/
def accesses (header : MethodHeader) (type : MethodType)
    (events : List CodeEvent) :
    List (Nat × Variable) :=
  ((parametersOf header type []).1.trace
    (events.filterMap CodeEvent.slotUse?)).2

/-- An access gives a variable, by the accesses before it and the parameters;
the locals of the method are these before it and after it. -/
structure Gives (header : MethodHeader) (type : MethodType)
    (history : List (Nat × Variable)) (u : SlotUse) (v : Variable)
    (before after : List Variable) : Prop where
  kept : ∀ w, Leaves header type history u.slot w → w.kind = u.type.stackKind →
    v = w ∧ after = before
  made :
    (∀ w, Leaves header type history u.slot w → w.kind ≠ u.type.stackKind) →
    (∃ l, v = .localVar l) ∧ (∀ entry ∈ history, (entry.2 == v) = false) ∧
      after = before ++ [v]
  kind : v.kind = u.type.stackKind
  apart : ∀ entry ∈ history, entry.1 ≠ u.slot → (entry.2 == v) = false

theorem gives_access (hvoid : ∀ t ∈ type.parameters, t ≠ .void)
    {history : List (Nat × Variable)} {s : Slots}
    (h : s.Remembers (placed header type [] ++ history)) (hnames : s.names = [])
    (u : SlotUse) :
    Gives header type history u (s.access u.slot u.type u.offset).2 s.locals
      (s.access u.slot u.type u.offset).1.locals := by
  have hleaves := lookup_iff_leaves hvoid h u.slot
  have hapart : ∀ entry ∈ history, entry.1 ≠ u.slot →
      (entry.2 == (s.access u.slot u.type u.offset).2) = false := by
    intro entry hentry hne
    have hafter := (h.access hnames u.slot u.type u.offset).1
    have hmem :=
      List.mem_append_left [(u.slot, (s.access u.slot u.type u.offset).2)]
      (List.mem_append_right (placed header type []) hentry)
    rw [Bool.eq_false_iff, ne_eq, hafter.same_iff hmem]
    exact fun heq => hne
      (hafter.apart _ hmem _ (List.mem_append_right _ List.mem_cons_self) heq)
  rcases Slots.access_cases hnames u.slot u.type u.offset with
    ⟨v, hv, hkind, heq⟩ | ⟨hother, l, hl, htype, heq⟩
  · rw [heq] at hapart ⊢
    refine ⟨fun w hw _ => ?_, fun hnone =>
      absurd hkind (hnone v ((hleaves v).1 hv)), hkind, hapart⟩
    exact ⟨Option.some.inj (hv.symm.trans ((hleaves w).2 hw)), rfl⟩
  · rw [heq] at hapart ⊢
    refine ⟨fun w hw hkind => absurd hkind (hother w ((hleaves w).2 hw)),
      fun _ => ?_, ?_, hapart⟩
    · exact ⟨⟨l, rfl⟩, fun entry hentry => h.beq_eq_false hl (.inr rfl) entry
        (List.mem_append_right _ hentry), rfl⟩
    · exact congrArg ValueType.stackKind htype

/-- Wherever decoding of code without debug names has come to, an access of a
slot is decoded. It gives the variable of the access of the slot before it, or
the receiver or parameter that starts at the slot if there was none, as long as
that variable has the kind asked for on the stack. Otherwise it gives a local
that no access before it gave, which joins the locals of the method. Different
slots never give the same variable. -/
theorem access_by_history (hvoid : ∀ t ∈ type.parameters, t ≠ .void)
    {events : List CodeEvent} {handlers : List HandlerRange} {s : BodyState}
    (hrun : BodyState.run { slots := (parametersOf header type []).1 }
      { events, handlers } = .ok s) {i : Instruction} {u : SlotUse}
    (hi : i.slotUse? = some u) :
    ∃ t v, s.step (.instruction i) = .ok t ∧
      t.effects = s.effects ++ i.slotEffects v ∧
      accesses header type (events ++ [.instruction i]) =
        accesses header type events ++ [(u.slot, v)] ∧
      Gives header type (accesses header type events) u v s.slots.locals
        t.slots.locals := by
  obtain ⟨hplaced, hnames, _⟩ := remembers_parametersOf header type []
  obtain ⟨hremembers, hnames'⟩ :=
    Slots.remembers_trace hplaced hnames (events.filterMap CodeEvent.slotUse?)
  rw [← BodyState.slots_run hrun] at hremembers hnames'
  obtain ⟨t, ht, hslots, heffects⟩ :=
    BodyState.instruction_of_slotUse? (s := s) hi
  refine ⟨t, _, mapError_eq_ok_iff.2 ht, heffects, ?_, ?_⟩
  · have huses : (events ++ [CodeEvent.instruction i]).filterMap
        CodeEvent.slotUse? = events.filterMap CodeEvent.slotUse? ++ [u] := by
      rw [List.filterMap_append]
      simp [CodeEvent.slotUse?, hi]
    rw [accesses, huses, Slots.trace_append, ← BodyState.slots_run hrun]
    rfl
  · rw [hslots]
    exact gives_access hvoid hremembers hnames' u

end Method

namespace WideParameters

/-- A method whose first parameter takes two slots. -/
def header : MethodHeader where
  owner := "p.A"
  name := "scale"
  descriptor := "(JB)V"
  visibility := .publicAccess
  isStatic := false

def type : MethodType where
  parameters := [.long, .byte]
  result := .void

/-- The byte is read as an integer, and a float takes the place of the long. -/
def events : List CodeEvent :=
  [.instruction ⟨0, 21, .slot 3⟩, .instruction ⟨1, 56, .slot 1⟩]

/-- The slot of the long is read as a long again. -/
def reading : Instruction := ⟨2, 22, .slot 1⟩

/-- What the slot of the long holds then. -/
def taken : Variable := .localVar ⟨"p.A.scale(JB)V", 3, "local_1", .float⟩

/-- The long is not there any more, and it is a new local that is read. -/
theorem reading_makes_local :
    ∃ s t v, BodyState.run { slots := (Method.parametersOf header type []).1 }
      { events } = .ok s ∧
      s.step (.instruction reading) = .ok t ∧
        t.effects = s.effects ++ [.load v] ∧
      (taken == v) = false ∧ t.slots.locals = s.slots.locals ++ [v] := by
  have hvoid : ∀ t ∈ type.parameters, t ≠ .void := by decide
  have haccesses : (1, taken) ∈ Method.accesses header type events ∧
      (Method.accesses header type events).reverse.lookup 1 = some taken := by
    have heq : Method.accesses header type events = [(3,
        .parameter ⟨"p.A.scale(JB)V", 2, "param_1", .byte⟩), (1, taken)] := by
      cbv
    rw [heq]
    exact ⟨by simp, rfl⟩
  obtain ⟨s, hrun⟩ : ∃ s, BodyState.run
    { slots := (Method.parametersOf header type []).1 } { events } = .ok s :=
    ⟨_, rfl⟩
  obtain ⟨t, v, ht, heffects, _, hgives⟩ :=
    Method.access_by_history hvoid hrun (i := reading) rfl
  have hother : ∀ w,
      Method.Leaves header type (Method.accesses header type events) 1 w →
      w.kind ≠ ValueType.long.stackKind := by
    rintro w (hw | ⟨hnone, _⟩)
    · obtain rfl := Option.some.inj (haccesses.2.symm.trans hw)
      decide
    · exact absurd (haccesses.2.symm.trans hnone) (by simp)
  obtain ⟨_, hnew, hlocals⟩ := hgives.made hother
  exact ⟨s, t, v, hrun, ht, heffects, hnew _ haccesses.1, hlocals⟩

end WideParameters

end TestCost
