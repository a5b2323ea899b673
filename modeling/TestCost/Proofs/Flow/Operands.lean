import TestCost.Proofs.Flow.Depth

/-!
# Operands by position

An effect is given the operands that it takes as a list, and finds each of them
by its position: the values that it puts back are copies of some, and a
statement names some. The number of operands is one table over the effects
(`StackEffect.operands`), the positions are another. This module says where the
two agree.

Putting values back only ever looks at operands that are there. A statement
misses one exactly if the last value that it names takes no slot: a field of
kind `void` that is written, or a call whose last parameter is of kind `void`.
A `void` parameter in front of another one finds the operand of that other one
in its place, so nothing is missed then.

## Main results

* `StackEffect.results?_eq` — all values put back are there to be copied.
* `StackEffect.statement?_eq_none_iff` — which effects miss an operand.
* `FlowGraph.exists_omits_of_statements` — execution misses an operand only at
  an operation with such an effect.
-/

namespace TestCost

namespace StackEffect

/-- The values put back, each operand looked up at its position: `none` when
there is no operand at one of the positions. -/
def results? (effect : StackEffect) (input : List Variable) :
    Option (List Variable) :=
  match effect with
  | load v => some v.onStack
  | transform _ result => some ((result.map Variable.onStack).getD [])
  | getField f => some (Variable.field f).onStack
  | arrayLoad element =>
    if element.isReference then do
      let array ← input[0]?
      return [array]
    else some (Variable.constant (.unknown element)).onStack
  | invoke target =>
    some (Variable.constant (.unknown target.type.result)).onStack
  | duplicate skipped => do
    let top ← input[skipped]?
    return top :: input
  | duplicatePair skipped => do
    let lower ← input[skipped]?
    let upper ← input[skipped + 1]?
    return lower :: upper :: input
  | swap => do
    let lower ← input[0]?
    let upper ← input[1]?
    return [upper, lower]
  | store _ | putField _ | arrayStore _ | pop _ | leave _ | raise => some []

/-- The last value that the statement names takes no slot. -/
def OmitsOperand : StackEffect → Prop
  | store v => v.type = .void
  | putField f => f.type = .void
  | arrayStore element => element = .void
  | invoke target => target.type.parameters.getLast? = some .void
  | load _ | transform _ _ | getField _ | arrayLoad _ | duplicate _
  | duplicatePair _ | swap
  | pop _ | leave _ | raise => False

/-- All operands that the effect puts back are there. -/
theorem results?_eq (effect : StackEffect) {input : List Variable}
    (h : input.length = effect.operands) :
    effect.results? input = some (effect.results input) := by
  cases effect with
  | arrayLoad element =>
      obtain ⟨array, index, rfl⟩ := List.length_eq_two.1 h
      cases element <;> rfl
  | duplicate skipped =>
      simp only [operands] at h
      have htop : skipped < input.length := by omega
      have hlast : input.drop (input.length - 1) = [input[skipped]] := by
        rw [show input.length - 1 = skipped by omega,
          List.drop_eq_getElem_cons htop, List.drop_eq_nil_of_le (by omega)]
      simp [results?, results, List.getElem?_eq_getElem htop, hlast]
  | duplicatePair skipped =>
      simp only [operands] at h
      have hlower : skipped < input.length := by omega
      have hupper : skipped + 1 < input.length := by omega
      have hlast : input.drop (input.length - 2) =
          [input[skipped], input[skipped + 1]] := by
        rw [show input.length - 2 = skipped by omega,
          List.drop_eq_getElem_cons hlower, List.drop_eq_getElem_cons hupper,
          List.drop_eq_nil_of_le (by omega)]
      simp [results?, results, List.getElem?_eq_getElem hlower,
        List.getElem?_eq_getElem hupper, hlast]
  | swap =>
      obtain ⟨lower, upper, rfl⟩ := List.length_eq_two.1 h
      rfl
  | load _ | transform _ _ | getField _ | invoke _ | store _ | putField _
  | arrayStore _ | pop _
  | leave _ | raise => rfl

theorem getElem?_eq_none_of_slots (input : List Variable) (position : Nat)
    (t : ValueType) (h : input.length = position + t.slots) :
    input[position]? = none ↔ t = .void := by
  rw [List.getElem?_eq_none_iff, ← ValueType.slots_eq_zero_iff]
  omega

theorem bind_pure_eq_none_iff {α β : Type} {x : Option α} {f : α → β} :
    (do let a ← x; pure (f a)) = none ↔ x = none := by
  cases x with
  | none => simp
  | some a => simp

/-- Arguments are missed exactly if the last parameter takes no slot. -/
theorem arguments_eq_none_iff (input : List Variable)
    (types : List ValueType) (position : Nat)
    (h : input.length = position + total (types.map ValueType.slots)) :
    arguments input position types = none ↔ types.getLast? = some .void := by
  induction types generalizing position with
  | nil => simp [arguments]
  | cons t types ih =>
      rw [List.map_cons, total_cons] at h
      cases types with
      | nil =>
          rw [List.getLast?_singleton, Option.some.injEq,
            ← getElem?_eq_none_of_slots input position t h]
          exact bind_pure_eq_none_iff
      | cons u types =>
          have hrest := ih (position + t.slots) (by omega)
          rw [List.getLast?_cons_cons, ← hrest]
          constructor
          · intro hnone
            by_contra hsome
            obtain ⟨rest, hrest⟩ := Option.ne_none_iff_exists'.1 hsome
            obtain ⟨next, hnext, _⟩ := Option.bind_eq_some_iff.1 hrest
            have hlt : position < input.length := by
              have := (List.getElem?_eq_some_iff.1 hnext).1
              omega
            rw [arguments, List.getElem?_eq_getElem hlt, hrest] at hnone
            cases hnone
          · intro hnone
            rw [arguments, hnone]
            simp

/-- Which effects miss an operand of their statement when they have all the
operands that they take. -/
theorem statement?_eq_none_iff (effect : StackEffect) (line : Nat)
    {input : List Variable} (h : input.length = effect.operands) :
    effect.statement? line input = none ↔ effect.OmitsOperand := by
  cases effect with
  | store v =>
      have hvalue :=
        getElem?_eq_none_of_slots input 0 v.type (h.trans (Nat.zero_add _).symm)
      exact bind_pure_eq_none_iff.trans hvalue
  | putField f =>
      simp only [operands] at h
      simp only [statement?, OmitsOperand]
      cases hstatic : f.isStatic with
      | true =>
          rw [hstatic, if_pos rfl] at h
          rw [if_pos rfl, ← getElem?_eq_none_of_slots input 0 f.type (by omega)]
          exact bind_pure_eq_none_iff
      | false =>
          rw [hstatic, if_neg Bool.false_ne_true] at h
          have hreceiver : 0 < input.length := by omega
          rw [if_neg Bool.false_ne_true, List.getElem?_eq_getElem hreceiver,
            ← getElem?_eq_none_of_slots input 1 f.type (by omega)]
          exact bind_pure_eq_none_iff
  | arrayStore element =>
      simp only [operands] at h
      have harray : 0 < input.length := by omega
      have hindex : 1 < input.length := by omega
      simp only [statement?, OmitsOperand]
      rw [List.getElem?_eq_getElem harray, List.getElem?_eq_getElem hindex,
        ← getElem?_eq_none_of_slots input 2 element h]
      exact bind_pure_eq_none_iff
  | invoke target =>
      simp only [operands, MethodType.parameterSlots] at h
      simp only [statement?, OmitsOperand]
      cases hstatic : target.isStatic with
      | true =>
          rw [hstatic, if_pos rfl] at h
          rw [if_pos rfl,
            ← arguments_eq_none_iff input target.type.parameters 0 h]
          exact bind_pure_eq_none_iff
      | false =>
          rw [hstatic, if_neg Bool.false_ne_true] at h
          have hreceiver : 0 < input.length := by omega
          rw [if_neg Bool.false_ne_true, List.getElem?_eq_getElem hreceiver,
            ← arguments_eq_none_iff input target.type.parameters 1 h]
          exact bind_pure_eq_none_iff
  | load _ | transform _ _ | getField _ | arrayLoad _ | duplicate _
  | duplicatePair _ | swap
  | pop _ | leave _ | raise => simp [statement?, OmitsOperand]

end StackEffect

namespace StackFamily

variable {κ α : Type} [BEq α]

theorem length_of_mem_foldl_addRoute
    {count : Nat} (extra found : List (StackRoute α))
    (hextra : ∀ r ∈ extra, r.values.length = count)
    (hfound : ∀ r ∈ found, r.values.length = count) :
    ∀ r ∈ extra.foldl addRoute found, r.values.length = count := by
  induction extra generalizing found with
  | nil => exact hfound
  | cons route extra ih =>
      apply ih _ fun r hr => hextra r (List.mem_cons_of_mem _ hr)
      exact forall_addRoute hfound (hextra route List.mem_cons_self) fun r hr =>
        hr

/-- Routes are as long as asked for. -/
theorem length_of_mem_routes (s : StackFamily κ α)
    (key : κ) (count : Nat) (ids : List EntryId) {found : List (StackRoute α)}
    (h : s.routes key count ids = .ok found) :
    ∀ r ∈ found, r.values.length = count := by
  induction count generalizing ids found with
  | zero =>
      rw [routes_zero] at h
      obtain rfl := Except.ok.inj h
      simp
  | succ count ih =>
      rw [routes_succ] at h
      refine foldlM_keeps (P := fun found =>
        ∀ r ∈ found, r.values.length = count + 1) ?_ (by simp) h
      intro known id more hknown hextend
      unfold extend at hextend
      split at hextend
      · cases hextend
      · next e _ =>
        split at hextend
        · cases hextend
        · obtain ⟨lower, hlower, rfl⟩ := map_eq_ok_iff.1 hextend
          refine length_of_mem_foldl_addRoute _ known ?_ hknown
          intro r hr
          obtain ⟨r', hr', rfl⟩ := List.mem_map.1 hr
          simp [above, ih e.below hlower r' hr']

theorem length_of_mem_pop [BEq κ] {s t : StackFamily κ α}
    {key : κ} {count : Nat} {f : List α → List α} {taken : List (List α)}
    (h : s.pop key count f = .ok (taken, t)) :
    ∀ w ∈ taken, w.length = count := by
  obtain ⟨ids, _, h⟩ := exists_of_bind_eq_ok h
  obtain ⟨found, hfound, h⟩ := exists_of_bind_eq_ok h
  have htaken := (Prod.mk.inj (Except.ok.inj h)).1
  intro w hw
  rw [← htaken] at hw
  obtain ⟨r, hr, rfl⟩ := List.mem_map.1 hw
  exact s.length_of_mem_routes key count ids hfound r hr

end StackFamily

namespace FlowGraph

variable {g : FlowGraph} {line : Nat}

theorem omits_of_runOp {x : Execution} {here : Place} {op : StackOp}
    (h : x.runOp here op = .error (.missingOperand line)) :
    op.effect.OmitsOperand := by
  cases hpop : x.family.pop here op.operands op.results with
  | error fault =>
      rw [runOp_error hpop] at h
      cases h
  | ok result =>
      obtain ⟨taken, t⟩ := result
      rw [runOp_eq hpop] at h
      cases hemit : taken.mapM (Execution.emit op) with
      | ok found =>
          rw [hemit] at h
          cases h
      | error fault =>
          rw [hemit] at h
          obtain rfl := Except.error.inj h
          obtain ⟨top, htop, hfault⟩ := mapM_emit_error hemit
          rcases emit_error hfault with ⟨hnone, _⟩ | ⟨v, hv⟩
          · exact (op.effect.statement?_eq_none_iff op.line
              (StackFamily.length_of_mem_pop hpop top htop)).1 hnone
          · cases hv

theorem enter_ne_missingOperand (x : Execution) (b : BlockId) :
    x.enter b ≠ .error (.missingOperand line) := by
  intro h
  simp only [Execution.enter, List.partition_eq_filter_filter] at h
  split at h
  · cases h
  · rcases eq_error_of_bind_eq_error h with hjoin | ⟨_, hdone⟩
    · obtain ⟨_, _, hstack⟩ := mapError_eq_error_iff.1 hjoin
      cases hstack
    · cases hdone

theorem leave_ne_missingOperand (x : Execution) (b : BlockId)
    (successors : List Edge) :
    x.leave b successors ≠ .error (.missingOperand line) := by
  intro h
  simp only [Execution.leave, List.partition_eq_filter_filter] at h
  split at h
  · rcases eq_error_of_bind_eq_error h with hremove | ⟨_, hdone⟩
    · obtain ⟨_, _, hstack⟩ := mapError_eq_error_iff.1 hremove
      cases hstack
    · cases hdone
  · split at h
    · cases h
    · cases h

/-- Execution misses an operand only at an operation that omits one. -/
theorem exists_omits_of_statements
    (h : g.statements = .error (.missingOperand line)) :
    ∃ b, ∃ op ∈ (g.block b).ops, op.effect.OmitsOperand := by
  unfold statements at h
  cases hx : g.execute with
  | ok x =>
      rw [hx] at h
      cases h
  | error fault =>
      rw [hx] at h
      obtain rfl := Except.error.inj h
      obtain ⟨b, _, x, hblock⟩ := exists_of_foldlM_eq_error hx
      rcases eq_error_of_bind_eq_error hblock with henter | ⟨y, hrest⟩
      · exact absurd henter (enter_ne_missingOperand x b)
      · rcases eq_error_of_bind_eq_error hrest with hops | ⟨z, hleave⟩
        · obtain ⟨op, hop, w, hfail⟩ := exists_of_foldlM_eq_error hops
          exact ⟨b, op, hop, omits_of_runOp hfail⟩
        · exact absurd hleave (leave_ne_missingOperand z b _)

end FlowGraph

end TestCost
