import TestCost.Proofs.StackEffect
import TestCost.Proofs.StackFamily.Operations

/-!
# Calls and the stack

Before a call its receiver and its arguments are pushed one after the other, and
a wide one takes two slots. The call then has to tell from the kinds of its
parameters alone which slots hold which argument: a parameter is found where the
slots of those before it end. As the kinds of the values are those of the
parameters, up to what the stack does not tell apart, the two counts agree at
every position.

`StackOp.runOn?` runs an operation on one plain stack. A family of stacks that
share their entries runs it on all of its stacks at once.

## Main results

* `StackEffect.arguments_flatMap` — arguments are found among the slots they
  take.
* `StackOp.pop_runOn?` — a family runs an operation as each of its stacks does.
* `StackOp.foldlM_loads` — what loads leave on a stack.
* `invocation_recovers_arguments` — a call has the receiver and the arguments
  that were pushed for it, and leaves its result in their place.
-/

namespace TestCost

theorem ValueType.slots_eq_of_stackKind_eq {t u : ValueType}
    (h : t.stackKind = u.stackKind) :
    t.slots = u.slots := by
  rw [← slots_stackKind t, h, slots_stackKind]

/-! ## What a call is made with -/

/-- The call can be made with this receiver and these arguments. -/
structure CallTarget.Accepts (target : CallTarget) (receiver : Option Variable)
    (arguments : List Variable) : Prop where
  receiver : receiver.map Variable.kind = if target.isStatic then none
    else some .reference
  arguments : arguments.map Variable.kind =
    target.type.parameters.map ValueType.stackKind

/-- Receiver and arguments as they lie on the stack. -/
def CallTarget.stacked (receiver : Option Variable)
    (arguments : List Variable) : List Variable :=
  receiver.toList ++ arguments.flatMap Variable.onStack

/-- The call at a source line. -/
def CallTarget.op (target : CallTarget) (line : Nat) : StackOp :=
  { line, effect := .invoke target }

/-- The call at a source line, with the variables it is made on. -/
def CallTarget.invocation (target : CallTarget) (line : Nat)
    (receiver : Option Variable) (arguments : List Variable) : Invocation where
  line
  owner := target.owner
  name := target.name
  descriptor := target.descriptor
  receiver
  arguments

theorem Variable.length_flatMap_onStack
    {values : List Variable} {types : List ValueType}
    (h : values.map Variable.kind = types.map ValueType.stackKind) :
    (values.flatMap Variable.onStack).length =
      total (types.map ValueType.slots) := by
  induction types generalizing values with
  | nil =>
      obtain rfl := List.map_eq_nil_iff.1 h
      rfl
  | cons t types ih =>
      obtain ⟨v, rest, rfl, hv, hrest⟩ := List.map_eq_cons_iff.1 h
      rw [List.flatMap_cons, List.length_append, List.map_cons, total_cons,
        ih hrest, v.length_onStack, ValueType.slots_eq_of_stackKind_eq hv]

/-- Each parameter is found at the first slot of its argument. The slots in
front are those of the receiver and of the parameters already found. -/
theorem StackEffect.arguments_flatMap
    {values : List Variable} {types : List ValueType}
    (h : values.map Variable.kind = types.map ValueType.stackKind)
    (hvoid : ∀ t ∈ types, t ≠ .void) (front : List Variable) :
    arguments (front ++ values.flatMap Variable.onStack) front.length types =
      some values := by
  induction types generalizing values front with
  | nil =>
      obtain rfl := List.map_eq_nil_iff.1 h
      rfl
  | cons t types ih =>
      obtain ⟨v, rest, rfl, hv, hrest⟩ := List.map_eq_cons_iff.1 h
      have hslots : v.type.slots = t.slots :=
        ValueType.slots_eq_of_stackKind_eq hv
      have hpos : 0 < v.onStack.length := by
        rw [v.length_onStack, hslots]
        exact ValueType.slots_pos (hvoid t List.mem_cons_self)
      have hfirst : (front ++
          (v :: rest).flatMap Variable.onStack)[front.length]? = some v := by
        rw [List.flatMap_cons, List.getElem?_append_right (Nat.le_refl _),
          Nat.sub_self, List.getElem?_append_left hpos,
          List.getElem?_eq_getElem hpos]
        exact congrArg some (Variable.eq_of_mem_onStack (List.getElem_mem hpos))
      have hothers := ih hrest (fun u hu => hvoid u (List.mem_cons_of_mem _ hu))
        (front ++ v.onStack)
      rw [List.length_append, v.length_onStack, hslots, List.append_assoc,
        ← List.flatMap_cons] at hothers
      rw [arguments, hfirst, hothers]
      rfl

/-! ## One stack -/

namespace StackOp

/-- A stack after the operation, which finds its operands at the top and leaves
its results there. -/
def runOn? (stack : List Variable) (op : StackOp) : Option (List Variable) :=
  if op.operands ≤ stack.length then
    some (stack.take (stack.length - op.operands) ++
      op.results (stack.drop (stack.length - op.operands)))
  else none

theorem runOn?_append {op : StackOp} {upper : List Variable}
    (h : upper.length = op.operands) (lower : List Variable) :
    runOn? (lower ++ upper) op = some (lower ++ op.results upper) := by
  have hbelow : (lower ++ upper).length - op.operands = lower.length := by
    rw [List.length_append, h, Nat.add_sub_cancel]
  have hle : op.operands ≤ (lower ++ upper).length := by
    rw [List.length_append, h]
    exact Nat.le_add_left _ _
  rw [runOn?, if_pos hle, hbelow, List.take_left, List.drop_left]

theorem runOn?_eq_some_iff {op : StackOp} {stack after : List Variable} :
    runOn? stack op = some after ↔ ∃ lower upper, lower ++ upper = stack ∧
      upper.length = op.operands ∧ after = lower ++ op.results upper := by
  constructor
  · intro h
    rw [runOn?] at h
    split at h
    next hle =>
      refine ⟨_, _, List.take_append_drop (stack.length - op.operands) stack,
        ?_, (Option.some.inj h).symm⟩
      rw [List.length_drop]
      omega
    next => cases h
  · rintro ⟨lower, upper, rfl, hupper, rfl⟩
    exact runOn?_append hupper lower

/-- A family holds stacks of one length under a key, so they all have room for
the operation or none has. -/
theorem pop_runOn? {κ : Type} [BEq κ] [LawfulBEq κ] {s : StackFamily κ Variable}
    (hs : s.Sound) (hf : s.Faithful) {key : κ} {before : Set (List Variable)}
    (h : s.view key = some before) (op : StackOp) :
    (∃ taken t, s.pop key op.operands op.results = .ok (taken, t) ∧
      t.view key =
        some {after | ∃ stack ∈ before, runOn? stack op = some after} ∧
      ∀ stack ∈ before, runOn? stack op ≠ none) ∨
    ∃ fault, s.pop key op.operands op.results = .error fault ∧
      ∀ stack ∈ before, runOn? stack op = none := by
  obtain ⟨n, hn⟩ := hs.exists_uniform h
  by_cases hle : op.operands ≤ n
  · obtain ⟨taken, t, after, hpop, hpopped⟩ :=
      StackFamily.popped_pop hs h hn hle op.results
    refine .inl ⟨taken, t, hpop, ?_, ?_⟩
    · rw [hpopped.view_self, hpopped.after_eq hf]
      congr 1
      ext w
      simp only [Set.mem_ofPred_eq, runOn?_eq_some_iff]
      constructor
      · rintro ⟨lower, upper, hmem, hupper, hw⟩
        exact ⟨_, hmem, lower, upper, rfl, hupper, hw⟩
      · rintro ⟨_, hmem, lower, upper, rfl, hupper, hw⟩
        exact ⟨lower, upper, hmem, hupper, hw⟩
    · intro stack hstack
      rw [runOn?, if_pos (by rwa [hn.2 stack hstack])]
      exact Option.some_ne_none _
  · obtain ⟨requested, hpop⟩ :=
      StackFamily.pop_underflow hs h hn (Nat.lt_of_not_le hle) op.results
    refine .inr ⟨_, hpop, ?_⟩
    intro stack hstack
    rw [runOn?, if_neg (by rwa [hn.2 stack hstack])]

/-- Loads leave their values on the stack, the last one at the top. -/
theorem foldlM_loads {values : List Variable} {loads : List StackOp}
    (h : loads.map StackOp.effect = values.map .load) (stack : List Variable) :
    loads.foldlM runOn? stack =
      some (stack ++ values.flatMap Variable.onStack) := by
  induction values generalizing loads stack with
  | nil =>
      obtain rfl := List.map_eq_nil_iff.1 h
      simp
  | cons v values ih =>
      obtain ⟨load, rest, rfl, hload, hrest⟩ := List.map_eq_cons_iff.1 h
      have hfirst : runOn? stack load = some (stack ++ v.onStack) := by
        have hnone : ([] : List Variable).length = load.operands := by
          rw [operands, hload]
          rfl
        have hrun := runOn?_append hnone stack
        rwa [List.append_nil, results, hload] at hrun
      rw [List.foldlM_cons, hfirst]
      show rest.foldlM runOn? (stack ++ v.onStack) = _
      rw [ih hrest, List.flatMap_cons, List.append_assoc]

end StackOp

/-! ## The call -/

section Call

variable {line : Nat} {target : CallTarget} {receiver : Option Variable}
  {arguments : List Variable}

theorem CallTarget.Accepts.length_stacked
    (h : target.Accepts receiver arguments) :
    (stacked receiver arguments).length = (target.op line).operands := by
  have hreceiver : receiver.toList.length = if target.isStatic then 0
      else 1 := by
    have hkind := h.receiver
    cases hstatic : target.isStatic <;> cases receiver <;> simp_all
  rw [stacked, List.length_append, hreceiver,
    Variable.length_flatMap_onStack h.arguments]
  rfl

/-- A receiver takes one slot, as any reference. -/
theorem CallTarget.Accepts.flatMap_onStack
    (h : target.Accepts receiver arguments) :
    (receiver.toList ++ arguments).flatMap Variable.onStack =
      stacked receiver arguments := by
  have hreceiver :
      receiver.toList.flatMap Variable.onStack = receiver.toList := by
    have hkind := h.receiver
    cases receiver with
    | none => rfl
    | some v =>
        have hreference : v.type.stackKind = ValueType.reference.stackKind := by
          cases hstatic : target.isStatic <;>
            simp_all [Variable.kind, ValueType.stackKind]
        have hone : v.type.slots = 1 :=
          ValueType.slots_eq_of_stackKind_eq hreference
        simp [Variable.onStack, hone]
  rw [stacked, List.flatMap_append, hreceiver]

theorem CallTarget.Accepts.statement? (h : target.Accepts receiver arguments)
    (hvoid : ∀ t ∈ target.type.parameters, t ≠ .void) :
    (target.op line).statement? (stacked receiver arguments) =
      some (some (.invoke (target.invocation line receiver arguments))) := by
  have hfound := StackEffect.arguments_flatMap h.arguments hvoid receiver.toList
  have hkind := h.receiver
  unfold StackOp.statement? StackEffect.statement? op
  cases hstatic : target.isStatic with
  | true =>
      obtain rfl : receiver = none := by simpa [hstatic] using hkind
      dsimp only
      rw [if_pos hstatic, stacked,
        show StackEffect.arguments _ 0 _ = _ from hfound]
      rfl
  | false =>
      obtain ⟨v, rfl⟩ : ∃ v, receiver = some v := by
        cases receiver with
        | none => simp [hstatic] at hkind
        | some v => exact ⟨v, rfl⟩
      dsimp only
      rw [if_neg (by simp [hstatic]), stacked,
        show StackEffect.arguments _ 1 _ = _ from hfound]
      rfl

/-- **A call recovers its arguments.** Let a receiver, unless the method is
static, and arguments of the kinds of the parameters lie on a stack, none of
them void. They take as many slots as the call takes off, and the call stands
for the invocation on that receiver with those arguments. On any stack, loading
them one after the other and making the call leaves what lay below, with the
slots of the result above it. -/
theorem invocation_recovers_arguments (h : target.Accepts receiver arguments)
    (hvoid : ∀ t ∈ target.type.parameters, t ≠ .void) (line : Nat) :
    (CallTarget.stacked receiver arguments).length = (target.op line).operands ∧
    (target.op line).statement? (CallTarget.stacked receiver arguments) =
      some (some (.invoke (target.invocation line receiver arguments))) ∧
    ∀ (stack : List Variable) (loads : List StackOp),
      loads.map StackOp.effect = (receiver.toList ++ arguments).map .load →
      loads.foldlM StackOp.runOn? stack =
        some (stack ++ CallTarget.stacked receiver arguments) ∧
      (loads ++ [target.op line]).foldlM StackOp.runOn? stack =
        some (stack ++ List.replicate target.type.result.slots
          (.constant (.unknown target.type.result))) := by
  refine ⟨h.length_stacked, h.statement? hvoid, ?_⟩
  intro stack loads hloads
  have hpushed := StackOp.foldlM_loads hloads stack
  rw [h.flatMap_onStack] at hpushed
  refine ⟨hpushed, ?_⟩
  rw [List.foldlM_append, hpushed]
  show List.foldlM StackOp.runOn?
    (stack ++ CallTarget.stacked receiver arguments) [_] = _
  rw [List.foldlM_cons, StackOp.runOn?_append h.length_stacked]
  rfl

end Call

namespace MixedWidths

/-- A call with wide parameters in front of and between narrow ones. -/
def target : CallTarget where
  owner := "p.B"
  name := "put"
  descriptor := "(JBDLp/C;)J"
  isStatic := false
  type := { parameters := [.long, .byte, .double, .reference], result := .long }

def receiver : Variable := .parameter ⟨"p.A.run(J)V", 0, "this", .reference⟩

def count : Variable := .parameter ⟨"p.A.run(J)V", 1, "count", .long⟩

/-- What is passed for a `byte` is an `int` on the stack. -/
def small : Variable := .constant { value := "7", type := .int }

def ratio : Variable := .constant (.unknown .double)

def kept : Variable := .localVar ⟨"p.A.run(J)V", 2, "local_3", .reference⟩

def loads : List StackOp :=
  [⟨3, .load receiver⟩, ⟨3, .load count⟩, ⟨4, .load small⟩, ⟨4, .load ratio⟩,
    ⟨5, .load kept⟩]

theorem put_recovers_arguments :
    target.Accepts (some receiver) [count, small, ratio, kept] ∧
      CallTarget.stacked (some receiver) [count, small, ratio, kept] =
        [receiver, count, count, small, ratio, ratio, kept] ∧
      (target.op 6).statement? [receiver, count, count, small, ratio,
        ratio, kept] =
        some (some (.invoke
          (target.invocation 6 (some receiver) [count, small, ratio, kept]))) ∧
      (loads ++ [target.op 6]).foldlM StackOp.runOn? [kept] =
        some [kept, .constant (.unknown .long),
          .constant (.unknown .long)] := by
  have haccepts : target.Accepts (some receiver) [count, small, ratio, kept] :=
    ⟨rfl, rfl⟩
  obtain ⟨_, hstatement, hstack⟩ :=
    invocation_recovers_arguments haccepts (by decide) 6
  exact ⟨haccepts, rfl, hstatement, (hstack [kept] loads rfl).2⟩

end MixedWidths

end TestCost
