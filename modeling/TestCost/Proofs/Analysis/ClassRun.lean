import TestCost.Analysis.Class
import TestCost.Proofs.Analysis.History

/-!
# The run of a class

The cost of a class is computed by operations that the class itself
determines: what a test can decide about, the visits in the order in which
they are made, and then the calls of the constructor. `ClassRun` is the
history of these operations, so that what holds of histories can be said of
the computation as a whole.

## Main results

* `Analysis.visitClass_eq` — visiting a class is performing operations.
* `Repository.exists_classRun` — every cost that is computed comes from a run.
-/

namespace TestCost

namespace ClassModel

/-- What a test can decide about, as operations. -/
def preparation (c : ClassModel) : List Operation :=
  (c.fields.filter fun f => !f.isPrivate).map
    (fun f => .setInjectable (.field f)) ++
    (c.methods.filter fun m => !m.isPrivate).map .setMethodInjectable

/-- The methods of a class in the order in which they are visited. -/
def visitOrder (c : ClassModel) : List Method :=
  c.methods.filter (fun m => m.isStaticInitializer) ++
    c.preferredConstructor?.toList ++
    (c.methods.filter fun m => Text.startsWith m.name "set") ++ c.methods ++
    c.preferredConstructor?.toList

/-- A fold that keeps what it has or takes the next one ends with one of them.
-/
theorem mem_of_foldl_eq_some {f : Option Method → Method → Option Method}
    (hf : ∀ best m, f best m = best ∨ f best m = some m) {methods : List Method}
    {best : Option Method} {m : Method} (h : methods.foldl f best = some m) :
    best = some m ∨ m ∈ methods := by
  induction methods generalizing best with
  | nil => exact .inl h
  | cons n methods ih =>
      rcases ih h with hnext | hmem
      · rcases hf best n with hkept | htaken
        · exact .inl (hkept.symm.trans hnext)
        · obtain rfl := Option.some.inj (htaken.symm.trans hnext)
          exact .inr List.mem_cons_self
      · exact .inr (List.mem_cons_of_mem _ hmem)

theorem mem_methods_of_preferredConstructor? {c : ClassModel} {m : Method}
    (h : c.preferredConstructor? = some m) : m ∈ c.methods := by
  unfold preferredConstructor? at h
  have hmem := mem_of_foldl_eq_some (fun best m => ?_) h
  · rcases hmem with hnone | hmem
    · cases hnone
    · exact List.mem_of_mem_filter hmem
  · cases best with
    | none => exact .inr rfl
    | some b =>
        dsimp only
        split
        · exact .inr rfl
        · exact .inl rfl

theorem visitOrder_subset (c : ClassModel) : c.visitOrder ⊆ c.methods := by
  intro m hm
  simp only [visitOrder, List.mem_append, List.mem_filter,
    Option.mem_toList] at hm
  rcases hm with (((hm | hm) | hm) | hm) | hm
  · exact hm.1
  · exact mem_methods_of_preferredConstructor? hm
  · exact hm.1
  · exact hm
  · exact mem_methods_of_preferredConstructor? hm

end ClassModel

/-- The operation is one that computing the cost of a class performs. -/
inductive Operation.Of (c : ClassModel) : Operation → Prop where
  | field {f : Field} : f ∈ c.fields → Of c (.setInjectable (.field f))
  | method {m : Method} : m ∈ c.methods → Of c (.setMethodInjectable m)
  | visit {m : Method} : m ∈ c.methods → Of c (.visit c m)
  | call (caller : NodeId) (line : Nat) (callee : NodeId) :
      Of c (.addCall caller line callee)

/-- The operations record calls and do nothing else. -/
def OnlyCalls (ops : List Operation) : Prop :=
  ∀ op ∈ ops, ∃ caller line callee, op = .addCall caller line callee

/-- The turns that computing the cost of a class leads to, and the state at
the end. -/
def ClassRun (r : Repository) (w : Whitelist) (c : ClassModel)
    (turns : List Turn) (a : Analysis) :
    Prop :=
  ∃ calls, OnlyCalls calls ∧
    Analysis.Performed { repository := r, whitelist := w, className := c.name }
      (c.preparation ++ c.visitOrder.map (.visit c) ++ calls) turns a

namespace Analysis

theorem ofClass_eq (r : Repository) (w : Whitelist) (c : ClassModel) :
    ofClass r w c =
      c.preparation.foldl perform
        { repository := r, whitelist := w, className := c.name } := by
  unfold ofClass ClassModel.preparation
  rw [List.foldl_append, List.foldl_map, List.foldl_map]
  rfl

theorem visitAll_eq (c : ClassModel) (a : Analysis) (methods : List Method) :
    (visitAll c a methods).1 = (methods.map (.visit c)).foldl perform a := by
  induction methods generalizing a with
  | nil => rfl
  | cons m methods ih => exact ih (a.visit c m).1

theorem chargeConstruction_eq (a : Analysis) (c : ClassModel)
    (constructor : Method) (ids : List NodeId) :
    ∃ calls, OnlyCalls calls ∧ a.chargeConstruction c constructor ids =
      calls.foldl perform (a.visit c constructor).1 := by
  unfold chargeConstruction
  generalize a.visit c constructor = visited
  obtain ⟨b, callee⟩ := visited
  refine ⟨(c.methods.zip ids).filterMap fun entry =>
    if entry.1.canOverride then
      some (.addCall entry.2 constructor.startingLine callee)
    else none, ?_, ?_⟩
  · intro op hop
    obtain ⟨entry, _, hentry⟩ := List.mem_filterMap.1 hop
    split at hentry
    · exact ⟨_, _, _, (Option.some.inj hentry).symm⟩
    · cases hentry
  · rw [List.foldl_filterMap]
    dsimp only
    congr 1
    funext b entry
    by_cases hoverride : entry.1.canOverride
    · simp [hoverride, perform, begin]
    · simp [hoverride]

theorem visitClass_eq (a : Analysis) (c : ClassModel) :
    ∃ calls, OnlyCalls calls ∧ (a.visitClass c).1 =
      calls.foldl perform ((c.visitOrder.map (.visit c)).foldl perform a) := by
  have hfirst := visitAll_eq c a (c.methods.filter (fun m =>
    m.isStaticInitializer) ++ c.preferredConstructor?.toList ++
    c.methods.filter fun m => Text.startsWith m.name "set")
  unfold visitClass ClassModel.visitOrder
  simp only [List.map_append, List.foldl_append] at hfirst ⊢
  rw [← hfirst]
  generalize visitAll c a (c.methods.filter (fun m => m.isStaticInitializer) ++
    c.preferredConstructor?.toList ++ c.methods.filter fun m =>
    Text.startsWith m.name "set") = first
  rw [← visitAll_eq c first.1 c.methods]
  generalize visitAll c first.1 c.methods = second
  cases c.preferredConstructor? with
  | none => exact ⟨[], by simp [OnlyCalls], rfl⟩
  | some constructor =>
      obtain ⟨calls, hcalls, heq⟩ :=
        chargeConstruction_eq second.1 c constructor second.2
      refine ⟨calls, hcalls, ?_⟩
      dsimp only
      rw [heq, Option.toList_some, List.map_cons, List.map_nil, List.foldl_cons,
        List.foldl_nil, perform]

end Analysis

theorem of_operations {c : ClassModel}
    {calls : List Operation} (hcalls : OnlyCalls calls) {op : Operation}
    (hop : op ∈ c.preparation ++ c.visitOrder.map (.visit c) ++ calls) :
    op.Of c := by
  rcases List.mem_append.1 hop with hop | hop
  · rcases List.mem_append.1 hop with hop | hop
    · rcases List.mem_append.1 hop with hop | hop
      · obtain ⟨f, hf, rfl⟩ := List.mem_map.1 hop
        exact .field (List.mem_of_mem_filter hf)
      · obtain ⟨m, hm, rfl⟩ := List.mem_map.1 hop
        exact .method (List.mem_of_mem_filter hm)
    · obtain ⟨m, hm, rfl⟩ := List.mem_map.1 hop
      exact .visit (c.visitOrder_subset hm)
  · obtain ⟨caller, line, callee, rfl⟩ := hcalls op hop
    exact .call caller line callee

/-- What every step keeps holds at the end of a run, and at all its moments. -/
theorem Preserves.classRun {H : History → Analysis → Prop}
    {r : Repository} {w : Whitelist} {c : ClassModel}
    {turns : List Turn} {a : Analysis} (hH : Preserves (Operation.Of c) H)
    (hstart : H {} { repository := r, whitelist := w, className := c.name })
    (hrun : ClassRun r w c turns a) :
    (∃ past : History, past.moments = turns.flatMap Turn.moments ∧ H past a) ∧
      ∀ before x after, turns.flatMap Turn.moments = before ++ x :: after →
        ∃ past : History, past.moments = before ∧ H past x.state := by
  obtain ⟨calls, hcalls, hperformed⟩ := hrun
  have hsampled := hH.sampled.performed hperformed (fun _ =>
    of_operations hcalls) (show Preserves.Sampled H {} _ from ⟨hstart, by simp⟩)
  simp only [List.nil_append] at hsampled
  exact ⟨⟨_, rfl, hsampled.1⟩, hsampled.2⟩

namespace Repository

theorem classCost_of_get {r found : Repository} {name : String} {c : ClassModel}
    (h : r.get name = (found, .ok c)) (w : Whitelist) :
    r.classCost w name =
      let visited := (Analysis.ofClass found w c).visitClass c
      let cost := visited.1.finish visited.2
      (visited.1.repository.note
        (.computedCost cost.name cost.totalComplexity cost.totalGlobals),
        .ok cost) := by
  unfold classCost
  rw [h]

/-- A cost that is computed is that of a class of the source, and comes from
the run of that class. -/
theorem exists_classRun {r r' : Repository}
    (hfaithful : r.Faithful) {w : Whitelist} {name : String} {cost : ClassCost}
    (h : r.classCost w name = (r', .ok cost)) :
    ∃ c turns a ids, r.source.load (ClassName.dotted name) = .ok c ∧
      ClassRun (r.get name).1 w c turns a ∧ cost = a.finish ids ∧
      r' = a.repository.note
        (.computedCost cost.name cost.totalComplexity cost.totalGlobals) ∧
          r'.Faithful := by
  have hload := hfaithful.get_eq name
  have hnext := hfaithful.get name
  rcases hget : r.get name with ⟨found, fault | c⟩
  · unfold classCost at h
    rw [hget] at h
    cases h
  · rw [hget] at hload hnext
    rw [classCost_of_get hget] at h
    obtain ⟨calls, hcalls, hvisit⟩ :=
      Analysis.visitClass_eq (Analysis.ofClass found w c) c
    generalize (Analysis.ofClass found w c).visitClass c = visited at h hvisit
    obtain ⟨rfl, hcost⟩ := Prod.mk.inj h
    obtain ⟨turns, hturns, _, hend⟩ := Analysis.exists_performed
      (a := { repository := found, whitelist := w, className := c.name }) hnext
      rfl (c.preparation ++ c.visitOrder.map (.visit c) ++ calls)
    rw [List.foldl_append, List.foldl_append, ← Analysis.ofClass_eq, ← hvisit]
      at hturns hend
    obtain rfl := Except.ok.inj hcost
    exact ⟨c, turns, visited.1, visited.2, hload.symm, ⟨calls, hcalls, hturns⟩,
      rfl, rfl, hend.note _⟩

end Repository

end TestCost
