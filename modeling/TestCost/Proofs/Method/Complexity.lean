import Mathlib
import TestCost.Proofs.Code.Labels
import TestCost.Proofs.Flow.Branching
import TestCost.Proofs.Method
import TestCost.Proofs.Method.Additions

/-!
# Complexity and branching

The complexity of a method is counted while its instructions are decoded, and
its graph is built from the events of the same instructions. Neither looks at
the other. A graph drops an edge that a block has already, and builds blocks for
code that nothing leads to; complexity knows neither blocks nor edges. Still
both count the same: a jump that may be passed is a way besides going on, and
one edge more than a block needs.

They part only where several cases of a switch lead to the same place. Each case
counts, and the graph has one edge for all of them. A table switch leaves out
the cases that go where the default goes, a lookup switch does not.

## Main results

* `BodyState.Added.extraWays_le` — the ways of an instruction and those of its
  events.
* `BodyState.Decoded.placed_eq` — a listing and its events place the same
  labels.
* `complexity_counts_branching` — complexity and the graph of a method.
-/

namespace TestCost

/-- The cases of a switch other than the default lead to different labels, and a
lookup switch has no case that leads to the default. -/
def Instruction.SwitchesApart (i : Instruction) : Prop :=
  ∀ default cases, i.operand = .switch default cases →
    (cases.filter (· ≠ default)).Nodup ∧ (i.opcode = 0xab → default ∉ cases)

/-- The protected ranges whose handlers are for one class of exceptions. -/
def Listing.typedHandlers (listing : Listing) : List HandlerRange :=
  listing.handlers.filter fun range => range.catchType.isSome

namespace BodyState

variable {i : Instruction} {code : List CodeEvent} {events : List FlowEvent}
  {ways : Nat}

/-! ## One instruction -/

theorem filter_bne (default : Label) (cases : List Label) :
    cases.filter (· != default) = cases.filter (· ≠ default) := by
  apply List.filter_congr
  intro l _
  by_cases hl : l = default <;> simp [hl]

theorem total_switch (o : StackOp) (default : Label) (cases : List Label) :
    total ([.op o, .switch default cases].map FlowEvent.extraWays) =
      (cases.filter (· ≠ default)).dedup.length := by
  simp [FlowEvent.extraWays]

/-- Without subroutines, an instruction counts at least the ways of its events,
and exactly these if it tells its cases apart. -/
theorem Added.extraWays_le (h : Added i events ways) (hi : i.opcode ≠ 0xa8) :
    total (events.map FlowEvent.extraWays) ≤ ways ∧
      (i.SwitchesApart → total (events.map FlowEvent.extraWays) = ways) := by
  cases h with
  | nothing | op _ | branch _ _ | jump _ => exact ⟨Nat.le_refl _, fun _ => rfl⟩
  | subroutine _ hopcode _ => exact absurd hopcode hi
  | @tableSwitch o default cases _ hoperand =>
      rw [total_switch, filter_bne]
      refine ⟨(List.dedup_sublist _).length_le, ?_⟩
      intro hapart
      obtain ⟨hnodup, _⟩ := hapart default cases hoperand
      rw [hnodup.dedup]
  | @lookupSwitch o default cases hopcode hoperand =>
      rw [total_switch]
      refine ⟨Nat.le_trans (List.dedup_sublist _).length_le
        (List.length_filter_le _ cases), ?_⟩
      intro hapart
      obtain ⟨hnodup, hdefault⟩ := hapart default cases hoperand
      have hall : cases.filter (· ≠ default) = cases := by
        rw [List.filter_eq_self]
        intro l hl
        simpa using fun heq : l = default => hdefault hopcode (heq ▸ hl)
      rw [hnodup.dedup, hall]

theorem Added.placed_eq (h : Added i events ways) :
    events.filterMap FlowEvent.placed? = [] := by
  cases h <;> rfl

/-! ## All instructions -/

theorem Decoded.placed_eq (h : Decoded code events ways) :
    events.filterMap FlowEvent.placed? = code.filterMap CodeEvent.label? := by
  induction h with
  | nil => rfl
  | label l _ ih => exact congrArg (l :: ·) ih
  | line _ _ ih => exact ih
  | instruction hadded _ ih =>
      rw [List.filterMap_append, hadded.placed_eq, ih]
      rfl

theorem Decoded.extraWays_le (h : Decoded code events ways)
    (hcode : ∀ i, .instruction i ∈ code → i.opcode ≠ 0xa8) :
    total (events.map FlowEvent.extraWays) ≤ ways ∧
      ((∀ i, .instruction i ∈ code → i.SwitchesApart) →
        total (events.map FlowEvent.extraWays) = ways) := by
  induction h with
  | nil => exact ⟨Nat.le_refl _, fun _ => rfl⟩
  | label l _ ih =>
      obtain ⟨hle, heq⟩ := ih fun i hi => hcode i (List.mem_cons_of_mem _ hi)
      rw [List.map_cons, total_cons, FlowEvent.extraWays, Nat.zero_add]
      exact ⟨hle, fun hapart => heq fun i hi =>
        hapart i (List.mem_cons_of_mem _ hi)⟩
  | line _ _ ih =>
      obtain ⟨hle, heq⟩ := ih fun i hi => hcode i (List.mem_cons_of_mem _ hi)
      exact ⟨hle, fun hapart => heq fun i hi =>
        hapart i (List.mem_cons_of_mem _ hi)⟩
  | instruction hadded _ ih =>
      obtain ⟨hle, heq⟩ := ih fun i hi => hcode i (List.mem_cons_of_mem _ hi)
      obtain ⟨hfirst, hfirst'⟩ :=
        hadded.extraWays_le (hcode _ List.mem_cons_self)
      rw [List.map_append, total_append]
      refine ⟨Nat.add_le_add hfirst hle, ?_⟩
      intro hapart
      rw [hfirst' (hapart _ List.mem_cons_self),
        heq fun i hi => hapart i (List.mem_cons_of_mem _ hi)]

/-- Protected ranges place no label and add no way. -/
theorem quiet_protections (ranges : List HandlerRange) :
    (ranges.map protection).filterMap FlowEvent.placed? = [] ∧
      total ((ranges.map protection).map FlowEvent.extraWays) = 0 := by
  induction ranges with
  | nil => exact ⟨rfl, rfl⟩
  | cons range ranges ih =>
      refine ⟨ih.1, ?_⟩
      rw [List.map_cons, List.map_cons, total_cons, ih.2]
      rfl

end BodyState

theorem Method.complexity_of_decode
    {header : MethodHeader} {listing : Option Listing} {m : Method}
    (h : decode header listing = .ok m) :
    ∃ type body, BodyState.typeOf header.descriptor = .ok type ∧
      BodyState.run
        { slots := (parametersOf header type (listing.getD {}).names).1 }
        (listing.getD {}) = .ok body ∧ m.complexity = body.complexity := by
  obtain ⟨type, htype, h⟩ := exists_of_bind_eq_ok h
  obtain ⟨body, hbody, h⟩ := exists_of_bind_eq_ok h
  obtain ⟨statements, hstatements, h⟩ := exists_of_bind_eq_ok h
  obtain rfl := Except.ok.inj h
  exact ⟨type, body, mapError_eq_ok_iff.1 htype,
    mapError_eq_ok_iff.1 hbody, rfl⟩

/-- **Complexity counts branching.** Decode a method without subroutines whose
listing places no label twice. Its complexity is at least one, and one for every
handler for one class of exceptions, and the ways out of the blocks of its graph
besides the first of each block; it is no more than that if every switch tells
its cases apart. -/
theorem complexity_counts_branching
    {header : MethodHeader} {listing : Option Listing} {m : Method}
    (h : Method.decode header listing = .ok m)
    (honce : ((listing.getD {}).events.filterMap CodeEvent.label?).Nodup)
    (hsubroutines : ∀ i, .instruction i ∈ (listing.getD {}).events →
      i.opcode ≠ 0xa8) :
    ∃ type body, BodyState.typeOf header.descriptor = .ok type ∧
      BodyState.run
        { slots := (Method.parametersOf header type (listing.getD {}).names).1 }
        (listing.getD {}) = .ok body ∧
      1 + (listing.getD {}).typedHandlers.length + body.graph.extraWays ≤
        m.complexity ∧
      ((∀ i, .instruction i ∈ (listing.getD {}).events → i.SwitchesApart) →
        1 + (listing.getD {}).typedHandlers.length + body.graph.extraWays =
          m.complexity) := by
  obtain ⟨type, body, htype, hrun, hcomplexity⟩ := Method.complexity_of_decode h
  obtain ⟨added, ways, hdecoded, hgains⟩ := BodyState.exists_of_run hrun
  obtain ⟨hquiet, hnone⟩ :=
    BodyState.quiet_protections (listing.getD {}).handlers
  have hevents : body.events.toList = (listing.getD {}).handlers.map
      BodyState.protection ++ added := hgains.events
  have hcount : m.complexity = 1 + ((listing.getD {}).typedHandlers.length +
      ways) := hcomplexity.trans hgains.complexity
  have hplaced : FlowEvent.PlacedOnce body.events.toList := by
    rw [FlowEvent.PlacedOnce, hevents, List.filterMap_append, hquiet,
      hdecoded.placed_eq]
    exact honce
  have hgraph :
      body.graph.extraWays = total (added.map FlowEvent.extraWays) := by
    rw [BodyState.graph, FlowGraph.extraWays_ofEvents hplaced, hevents,
      List.map_append, total_append, hnone, Nat.zero_add]
  obtain ⟨hle, heq⟩ := hdecoded.extraWays_le hsubroutines
  refine ⟨type, body, htype, hrun, by omega, ?_⟩
  intro hapart
  have := heq hapart
  omega

namespace Dispatch

/-- A method of a class `p.A` with a switch, a jump, and a range with two
handlers. -/
def header : MethodHeader where
  owner := "p.A"
  name := "run"
  descriptor := "(I)V"
  visibility := .publicAccess
  isStatic := true

def listing (cases : List Label) : Listing where
  events :=
    [.instruction ⟨0, 0x15, .slot 0⟩, .instruction ⟨1, 0xaa, .switch 40 cases⟩,
    .label 30, .instruction ⟨30, 0x15, .slot 0⟩,
      .instruction ⟨31, 0x99, .jump 40⟩,
    .label 35, .instruction ⟨35, 0x00, .none⟩, .label 40,
      .instruction ⟨40, 0xb1, .none⟩,
    .label 41, .instruction ⟨41, 0xbf, .none⟩]
  handlers := [⟨30, 40, 41, some "p.E"⟩, ⟨30, 40, 41, none⟩]

def method : Method where
  toMethodHeader := header
  receiver := none
  parameters := [.parameter ⟨"p.A.run(I)V", 0, "param_0", .int⟩]
  locals := []
  complexity := 5
  startingLine := 0
  statements := []

theorem complexity_counts_dispatch :
    (Method.decode header (some (listing [30, 30, 40])) = .ok method ∧
      ∃ type body, BodyState.typeOf header.descriptor = .ok type ∧
        BodyState.run { slots := (Method.parametersOf header type []).1 }
          (listing [30, 30, 40]) = .ok body ∧
        1 + (listing [30, 30, 40]).typedHandlers.length + body.graph.extraWays ≤
          method.complexity) ∧
    (Method.decode header (some (listing [30, 35, 40])) = .ok method ∧
      ∃ type body, BodyState.typeOf header.descriptor = .ok type ∧
        BodyState.run { slots := (Method.parametersOf header type []).1 }
          (listing [30, 35, 40]) = .ok body ∧
        1 + (listing [30, 35, 40]).typedHandlers.length + body.graph.extraWays =
          method.complexity) := by
  have hshared :
      Method.decode header (some (listing [30, 30, 40])) = .ok method := by
    cbv
  have hapart :
      Method.decode header (some (listing [30, 35, 40])) = .ok method := by
    cbv
  constructor
  · obtain ⟨type, body, htype, hrun, hle, _⟩ :=
      complexity_counts_branching hshared (by decide) (by simp [listing])
    exact ⟨hshared, type, body, htype, hrun, hle⟩
  · obtain ⟨type, body, htype, hrun, _, heq⟩ :=
      complexity_counts_branching hapart (by decide) (by simp [listing])
    refine ⟨hapart, type, body, htype, hrun, heq ?_⟩
    simp [listing, Instruction.SwitchesApart]

end Dispatch

end TestCost
