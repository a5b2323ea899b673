import TestCost.StackEffect

/-!
# The size of a stack effect

An effect takes a fixed number of slots and puts back a fixed number of
slots, whatever the values in them are. So the depth of an operand stack
depends on the effects that ran and not on the way control came, and a
depth can be given to every position of a flow graph once and for all.

The values put back come from two sources: the operands, and the variables
that the effect itself names.

## Main results

* `length_results` — the number of slots that come back.
* `mem_results` — where the values that come back are from.
* `statement?_isSome` — an effect that moves no void value finds all the
  operands that its statement names.
-/

namespace TestCost

/-- The kind that the value of a variable has on the stack. -/
def Variable.kind (v : Variable) : ValueType := v.type.stackKind

theorem ValueType.slots_pos {t : ValueType} (h : t ≠ .void) : 0 < t.slots :=
  Nat.pos_of_ne_zero fun hzero => h ((ValueType.slots_eq_zero_iff t).1 hzero)

theorem Variable.length_onStack (v : Variable) :
    v.onStack.length = v.type.slots :=
  List.length_replicate

theorem Variable.eq_of_mem_onStack {v w : Variable} (h : w ∈ v.onStack) :
    w = v :=
  List.eq_of_mem_replicate h

namespace StackEffect

/-- Number of slots put back. -/
def produced : StackEffect → Nat
  | load v => v.type.slots
  | transform _ result => (result.map fun v => v.type.slots).getD 0
  | getField f => f.type.slots
  | arrayLoad element => if element.isReference then 1 else element.slots
  | invoke target => target.type.result.slots
  | duplicate skipped => 2 + skipped
  | duplicatePair skipped => 4 + skipped
  | swap => 2
  | store _ | putField _ | arrayStore _ | pop _ | leave _ | raise => 0

/-- Variables of its own that the effect puts on the stack. -/
def pushed : StackEffect → List Variable
  | load v => [v]
  | transform _ result => result.toList
  | getField f => [.field f]
  | arrayLoad element => [.constant (.unknown element)]
  | invoke target => [.constant (.unknown target.type.result)]
  | _ => []

theorem length_results (effect : StackEffect) {input : List Variable}
    (h : input.length = effect.operands) :
    (effect.results input).length = effect.produced := by
  cases effect with
  | load v => exact v.length_onStack
  | transform _ result =>
      cases result with
      | none => rfl
      | some v => exact v.length_onStack
  | getField f => exact (Variable.field f).length_onStack
  | arrayLoad element =>
      simp only [operands] at h
      simp only [results, produced]
      split
      · rw [List.length_take, h]
        rfl
      · exact Variable.length_onStack _
  | invoke target => exact Variable.length_onStack _
  | duplicate skipped =>
      simp only [results, produced, operands, List.length_append,
        List.length_drop] at h ⊢
      omega
  | duplicatePair skipped =>
      simp only [results, produced, operands, List.length_append,
        List.length_drop] at h ⊢
      omega
  | swap => simpa [results, produced, operands] using h
  | store _ => rfl
  | putField _ => rfl
  | arrayStore _ => rfl
  | pop _ => rfl
  | leave _ => rfl
  | raise => rfl

theorem mem_results (effect : StackEffect) {input : List Variable}
    {v : Variable} (h : v ∈ effect.results input) :
    v ∈ input ∨ v ∈ effect.pushed := by
  cases effect with
  | load w => exact .inr (List.mem_singleton.2 (Variable.eq_of_mem_onStack h))
  | transform _ result =>
      cases result with
      | none => simp [results] at h
      | some w =>
          exact .inr (List.mem_singleton.2 (Variable.eq_of_mem_onStack h))
  | getField f =>
      exact .inr (List.mem_singleton.2 (Variable.eq_of_mem_onStack h))
  | arrayLoad element =>
      simp only [results] at h
      split at h
      · exact .inl (List.mem_of_mem_take h)
      · exact .inr (List.mem_singleton.2 (Variable.eq_of_mem_onStack h))
  | invoke target =>
      exact .inr (List.mem_singleton.2 (Variable.eq_of_mem_onStack h))
  | duplicate _ | duplicatePair _ =>
      rcases List.mem_append.1 h with htop | hinput
      · exact .inl (List.mem_of_mem_drop htop)
      · exact .inl hinput
  | swap => exact .inl (List.mem_reverse.1 h)
  | store _ | putField _ | arrayStore _ | pop _ | leave _ | raise =>
      simp [results] at h

/-- Whatever the effect stores or passes on takes a slot. -/
def MovesNoVoid : StackEffect → Prop
  | store v => v.type ≠ .void
  | putField f => f.type ≠ .void
  | arrayStore element => element ≠ .void
  | invoke target => ∀ t ∈ target.type.parameters, t ≠ .void
  | _ => True

theorem arguments_isSome (input : List Variable) (types : List ValueType)
    (htypes : ∀ t ∈ types, t ≠ .void) (position : Nat)
    (h : position + total (types.map ValueType.slots) ≤ input.length) :
    (arguments input position types).isSome := by
  induction types generalizing position with
  | nil => rfl
  | cons t types ih =>
      rw [List.map_cons, total_cons] at h
      have hslots := ValueType.slots_pos (htypes t List.mem_cons_self)
      have hrest := ih (fun u hu => htypes u (List.mem_cons_of_mem _ hu))
        (position + t.slots) (by omega)
      obtain ⟨rest, hrest⟩ := Option.isSome_iff_exists.1 hrest
      have hposition : position < input.length := by omega
      simp [arguments, hrest, List.getElem?_eq_getElem hposition]

theorem statement?_isSome (effect : StackEffect) (hvoid : effect.MovesNoVoid)
    (line : Nat) {input : List Variable} (h : input.length = effect.operands) :
    (effect.statement? line input).isSome := by
  cases effect with
  | store v =>
      have hslots := ValueType.slots_pos hvoid
      have hfirst : 0 < input.length := by rw [h]; exact hslots
      simp [statement?, List.getElem?_eq_getElem hfirst]
  | putField f =>
      have hslots := ValueType.slots_pos hvoid
      simp only [operands] at h
      cases hstatic : f.isStatic with
      | true =>
          have hfirst : 0 < input.length := by omega
          simp [statement?, hstatic, List.getElem?_eq_getElem hfirst]
      | false =>
          simp only [hstatic, Bool.false_eq_true, if_false] at h
          have hfirst : 0 < input.length := by omega
          have hsecond : 1 < input.length := by omega
          simp [statement?, hstatic, List.getElem?_eq_getElem hfirst,
            List.getElem?_eq_getElem hsecond]
  | arrayStore element =>
      have hslots := ValueType.slots_pos hvoid
      simp only [operands] at h
      have hfirst : 0 < input.length := by omega
      have hsecond : 1 < input.length := by omega
      have hthird : 2 < input.length := by omega
      simp [statement?, List.getElem?_eq_getElem hfirst,
        List.getElem?_eq_getElem hsecond, List.getElem?_eq_getElem hthird]
  | invoke target =>
      simp only [operands, MethodType.parameterSlots] at h
      cases hstatic : target.isStatic with
      | true =>
          simp only [hstatic, if_true] at h
          obtain ⟨found, hfound⟩ := Option.isSome_iff_exists.1
            (arguments_isSome input target.type.parameters hvoid 0 (by omega))
          simp [statement?, hstatic, hfound]
      | false =>
          simp only [hstatic, Bool.false_eq_true, if_false] at h
          have hfirst : 0 < input.length := by omega
          obtain ⟨found, hfound⟩ := Option.isSome_iff_exists.1
            (arguments_isSome input target.type.parameters hvoid 1 (by omega))
          simp [statement?, hstatic, hfound, List.getElem?_eq_getElem hfirst]
  | load _ | transform _ _ | getField _ | arrayLoad _ | duplicate _
  | duplicatePair _ | swap
  | pop _ | leave _ | raise => rfl

end StackEffect

theorem StackOp.statement?_store {op : StackOp}
    {v value : Variable} {input : List Variable} (h : op.effect = .store v)
    (hvalue : input.head? = some value) :
    op.statement? input = some (some (.assign op.line v value)) := by
  obtain ⟨rest, rfl⟩ := List.head?_eq_some_iff.1 hvalue
  rw [StackOp.statement?, h]
  rfl

theorem StackOp.exists_of_statement?_putField
    {op : StackOp} {f : Field} {receiver : Variable} {input : List Variable}
    {found : Option Statement} (h : op.effect = .putField f)
    (hstatic : f.isStatic = false) (hreceiver : input.head? = some receiver)
    (hfound : op.statement? input = some found) :
    ∃ value, found = some (.putField op.line (some receiver) f value) := by
  obtain ⟨rest, rfl⟩ := List.head?_eq_some_iff.1 hreceiver
  rw [StackOp.statement?, h, StackEffect.statement?, hstatic] at hfound
  obtain ⟨value, _, hvalue⟩ := Option.bind_eq_some_iff.1 hfound
  exact ⟨value, (Option.some.inj hvalue).symm⟩

end TestCost
