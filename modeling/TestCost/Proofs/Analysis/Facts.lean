import TestCost.Proofs.Analysis.Step

/-!
# How facts about variables change

An analysis knows two facts about variables, and statements move them along
assignments. The lemmas here say for every variable what it is known for
after each of the steps, as an equation. A variable that a step does not write
to is known for the same as before (`SameFacts`).

## Main results

* `isInjectable_assign`, `isGlobal_assign` — what an assignment does.
* `sameFacts_assign`, `sameFacts_passArguments` — which variables it leaves
  alone.
-/

namespace TestCost

namespace Analysis

variable {a b c : Analysis} {u : Variable}

/-- Remembering a variable adds its mentions: any that is known already is as
good as it. -/
theorem contains_remember (known : List Variable) (u v : Variable) :
    (remember known v).contains u = (known.contains u || u == v) := by
  unfold remember
  split
  · next hknown =>
    cases heq : u == v with
    | false => rw [Bool.or_false]
    | true =>
        obtain ⟨w, hw, hvw⟩ := List.contains_iff_exists_mem_beq.1 hknown
        rw [Bool.or_true, List.contains_iff_exists_mem_beq]
        exact ⟨w, hw, BEq.trans heq hvw⟩
  · rw [List.contains_cons, Bool.or_comm]

theorem isInjectable_setInjectable (a : Analysis) (v u : Variable) :
    (a.setInjectable v).isInjectable u = (a.isInjectable u || u == v) :=
  contains_remember a.injectables u v

theorem isGlobal_setGlobal (a : Analysis) (v u : Variable) :
    (a.setGlobal v).isGlobal u = (a.isGlobal u || u == v) := by
  show (u.isStatic || (remember a.globals v).contains u) = _
  rw [contains_remember, ← Bool.or_assoc]
  rfl

theorem isInjectable_assign (a : Analysis) (target source u : Variable) :
    (a.assign target source).isInjectable u =
      (a.isInjectable u || (a.isInjectable source && u == target)) := by
  have hglobal : ∀ (x : Analysis) (v : Variable),
      (x.setGlobal v).isInjectable u = x.isInjectable u :=
    fun _ _ => rfl
  unfold assign
  dsimp only
  rw [apply_ite (isInjectable · u), hglobal, ite_self]
  cases a.isInjectable source with
  | true => exact isInjectable_setInjectable a target u
  | false => simp

theorem isGlobal_assign (a : Analysis) (target source u : Variable) :
    (a.assign target source).isGlobal u =
      (a.isGlobal u ||
        ((target.isStatic || a.isGlobal source) && u == target)) := by
  unfold assign
  dsimp only
  cases target.isStatic || a.isGlobal source with
  | true =>
      rw [if_pos rfl, isGlobal_setGlobal]
      split <;> rfl
  | false =>
      rw [if_neg (by simp)]
      simp only [Bool.false_and, Bool.or_false]
      split <;> rfl

/-! ## Variables that a step leaves alone -/

/-- The variable is known for the same in both states. -/
structure SameFacts (u : Variable) (a b : Analysis) : Prop where
  injectable : b.isInjectable u = a.isInjectable u
  global : b.isGlobal u = a.isGlobal u

theorem SameFacts.trans (h : SameFacts u a b) (h' : SameFacts u b c) :
    SameFacts u a c :=
  ⟨h'.injectable.trans h.injectable, h'.global.trans h.global⟩

theorem SameFacts.foldl {α : Type} {f : Analysis → α → Analysis} {xs : List α}
    (h : ∀ a, ∀ x ∈ xs, SameFacts u a (f a x)) (a : Analysis) :
    SameFacts u a (xs.foldl f a) := by
  induction xs generalizing a with
  | nil => exact ⟨rfl, rfl⟩
  | cons x xs ih =>
      exact (h a x List.mem_cons_self).trans
        (ih (fun b y hy => h b y (List.mem_cons_of_mem _ hy)) (f a x))

theorem sameFacts_of_eq (hinjectables : b.injectables = a.injectables)
    (hglobals : b.globals = a.globals) : SameFacts u a b := by
  constructor
  · rw [isInjectable, isInjectable, hinjectables]
  · rw [isGlobal, isGlobal, hglobals]

theorem sameFacts_setInjectable (a : Analysis) {v : Variable}
    (h : (u == v) = false) :
    SameFacts u a (a.setInjectable v) :=
  ⟨by rw [isInjectable_setInjectable, h, Bool.or_false], rfl⟩

theorem sameFacts_setGlobal (a : Analysis) {v : Variable}
    (h : (u == v) = false) :
    SameFacts u a (a.setGlobal v) :=
  ⟨rfl, by rw [isGlobal_setGlobal, h, Bool.or_false]⟩

theorem sameFacts_assign (a : Analysis) {target : Variable}
    (h : (u == target) = false) (source : Variable) :
    SameFacts u a (a.assign target source) := by
  constructor
  · rw [isInjectable_assign, h, Bool.and_false, Bool.or_false]
  · rw [isGlobal_assign, h, Bool.and_false, Bool.or_false]

theorem sameFacts_putField (a : Analysis)
    (writer : NodeId) (line : Nat) (receiver : Option Variable) {target : Field}
    (h : (u == .field target) = false) (value : Variable) :
    SameFacts u a (a.putField writer line receiver target value) := by
  have hassign := sameFacts_assign a h value
  unfold putField
  dsimp only
  split
  · have htouch : SameFacts u (a.assign (.field target) value)
        ((a.assign (.field target) value).touch writer line (.field target)) :=
      sameFacts_of_eq rfl rfl
    exact (hassign.trans htouch).trans (sameFacts_setGlobal _ h)
  · exact hassign

/-- Writing an element says of the array what is known of the value. -/
theorem sameFacts_putElement (a : Analysis) (writer : NodeId) (line : Nat)
    (array value : Variable) :
    SameFacts u (a.assign array value)
      (a.putElement writer line array value) := by
  unfold putElement
  dsimp only
  split
  · exact sameFacts_of_eq rfl rfl
  · exact ⟨rfl, rfl⟩

theorem sameFacts_setMethodInjectable (a : Analysis) {m : Method}
    (h : ∀ v ∈ m.receiver.toList ++ m.parameters, (u == v) = false) :
    SameFacts u a (a.setMethodInjectable m) :=
  .foldl (fun a v hv => sameFacts_setInjectable a (h v hv)) a

theorem sameFacts_passArguments
    (a : Analysis) {callee : Method} (call : Invocation)
    (hparameters : ∀ v ∈ callee.parameters, (u == v) = false)
    (hreceiver : ∀ v, callee.receiver = some v → (u == v) = false) :
    SameFacts u a (a.passArguments callee call) := by
  have harguments : SameFacts u a ((callee.parameters.zip call.arguments).foldl
      (fun a p => a.assign p.1 p.2) a) := .foldl (fun a p hp =>
    sameFacts_assign a (hparameters p.1 (List.of_mem_zip hp).1) p.2) a
  unfold passArguments
  dsimp only
  split
  · next p v hp hv =>
    exact harguments.trans (sameFacts_assign _ (hreceiver p hp) v)
  · exact harguments

theorem sameFacts_asked (a : Analysis) (call : Invocation) :
    SameFacts u a (a.asked call) := by
  unfold asked
  split
  · exact ⟨rfl, rfl⟩
  · exact sameFacts_of_eq rfl rfl

theorem sameFacts_reportMissing (a : Analysis) (owner : String)
    (fault : LoadFault) :
    SameFacts u a (a.reportMissing owner fault) := by
  unfold reportMissing
  dsimp only
  split
  · exact ⟨rfl, rfl⟩
  · exact sameFacts_of_eq rfl rfl

theorem sameFacts_enqueue (a : Analysis) (c : ClassModel) (m : Method) :
    SameFacts u a (a.enqueue c m).1 := by
  unfold enqueue
  split
  · exact ⟨rfl, rfl⟩
  · exact sameFacts_of_eq rfl rfl

/-- A call moves facts only into the receiver and the parameters of the
method that it is charged for. -/
theorem sameFacts_invoke (a : Analysis) (caller : NodeId) (call : Invocation)
    (h : ∀ c m, a.charged? call = some (c, m) → (∀ v ∈ m.parameters, (u == v) =
      false) ∧ ∀ v, m.receiver = some v → (u == v) = false) :
    SameFacts u a (a.invoke caller call) := by
  have hasked := a.sameFacts_asked call (u := u)
  rcases a.invoke_cases caller call with
    ⟨fault, _, _, heq⟩ | ⟨c, m, _, hcharged, heq⟩ | ⟨_, _, heq⟩
  · rw [heq]
    exact hasked.trans (sameFacts_reportMissing _ _ _)
  · obtain ⟨hparameters, hreceiver⟩ := h c m hcharged
    rw [heq]
    have hpassed := hasked.trans
      (sameFacts_passArguments _ call hparameters hreceiver)
    exact (hpassed.trans (sameFacts_enqueue _ c m)).trans
      (sameFacts_of_eq rfl rfl)
  · rw [heq]
    exact hasked

end Analysis

end TestCost
