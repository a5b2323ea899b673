import TestCost.Proofs.Cost.Reachability

/-!
# What recording changes

An analysis builds its cost graph by adding nodes and by recording calls and
writes at nodes that are there. The nodes stay in the order in which the
methods were met, so the list of their full names (`CostGraph.names`) tells
which methods have one, and only adding a node changes it.

## Main results

* `names_add`, `names_addCall`, `names_addTouch` — what happens to the names.
* `touches_add`, `touches_addCall`, `touches_addTouch` — what happens to the
  writes that are recorded at a node.
* `calls_add`, `calls_addCall`, `calls_addTouch` — and to the calls.
-/

namespace TestCost

namespace CostGraph

/-- The full names of the methods that have a node, in the order of nodes. -/
def names (g : CostGraph) : List String :=
  g.nodes.toList.map MethodCost.fullName

variable (g : CostGraph)

theorem find?_eq_none_iff {name : String} :
    g.find? name = none ↔ name ∉ g.names := by
  simp [find?, names, Array.findIdx?_eq_none_iff]

theorem find?_isSome_iff {name : String} :
    (g.find? name).isSome ↔ name ∈ g.names := by
  rw [← Option.ne_none_iff_isSome, ne_eq, find?_eq_none_iff, not_not]

theorem lt_of_find? {name : String} {id : NodeId} (h : g.find? name = some id) :
    id < g.nodes.size := by
  obtain ⟨hlt, _⟩ := Array.findIdx?_eq_some_iff_getElem.1 h
  exact hlt

/-! ## Adding a node -/

theorem add_of_mem {m : Method} (h : m.fullName ∈ g.names) :
    (g.add m).1 = g := by
  obtain ⟨id, hid⟩ := Option.isSome_iff_exists.1 (g.find?_isSome_iff.2 h)
  simp [add, hid]

theorem add_of_not_mem {m : Method} (h : m.fullName ∉ g.names) :
    g.add m =
      ({ nodes := g.nodes.push
          { owner := m.owner, signature := m.signature
            startingLine := m.startingLine, ownComplexity := m.ownCost } },
      g.nodes.size) := by
  simp [add, g.find?_eq_none_iff.2 h]

theorem names_add (m : Method) :
    (g.add m).1.names = if m.fullName ∈ g.names then g.names
      else g.names ++ [m.fullName] := by
  by_cases h : m.fullName ∈ g.names
  · rw [if_pos h, g.add_of_mem h]
  · rw [if_neg h, g.add_of_not_mem h]
    simp [names]
    rfl

/-- A method has its node where `add` says. -/
theorem add_snd_lt (m : Method) : (g.add m).2 < (g.add m).1.nodes.size := by
  by_cases h : m.fullName ∈ g.names
  · obtain ⟨id, hid⟩ := Option.isSome_iff_exists.1 (g.find?_isSome_iff.2 h)
    simp [add, hid, g.lt_of_find? hid]
  · simp [g.add_of_not_mem h]

theorem lt_size_add {id : NodeId} (h : id < g.nodes.size) (m : Method) :
    id < (g.add m).1.nodes.size := by
  by_cases hm : m.fullName ∈ g.names
  · rw [g.add_of_mem hm]
    exact h
  · rw [g.add_of_not_mem hm, Array.size_push]
    exact Nat.lt_succ_of_lt h

theorem node_add (m : Method) (id : NodeId) :
    (g.add m).1.node id =
      if m.fullName ∉ g.names ∧ id = g.nodes.size then
        { owner := m.owner, signature := m.signature
          startingLine := m.startingLine, ownComplexity := m.ownCost }
      else g.node id := by
  by_cases h : m.fullName ∈ g.names
  · rw [g.add_of_mem h, if_neg (fun hnew => hnew.1 h)]
  · rw [g.add_of_not_mem h]
    unfold node
    simp only [Array.getD_eq_getD_getElem?, Array.getElem?_push, h,
      not_false_eq_true, true_and]
    split
    · rfl
    · rfl

theorem touches_add (m : Method) (id : NodeId) :
    ((g.add m).1.node id).touches = (g.node id).touches := by
  rw [g.node_add]
  split
  · next hnew =>
    rw [hnew.2, g.node_of_le (Nat.le_refl _)]
    rfl
  · rfl

theorem calls_add (m : Method) (id : NodeId) :
    ((g.add m).1.node id).calls = (g.node id).calls := by
  rw [g.node_add]
  split
  · next hnew =>
    rw [hnew.2, g.node_of_le (Nat.le_refl _)]
    rfl
  · rfl

/-- The node of a method has its name. -/
theorem getElem?_names_add (m : Method) :
    (g.add m).1.names[(g.add m).2]? = some m.fullName := by
  by_cases h : m.fullName ∈ g.names
  · obtain ⟨id, hid⟩ := Option.isSome_iff_exists.1 (g.find?_isSome_iff.2 h)
    obtain ⟨hlt, hname, _⟩ := Array.findIdx?_eq_some_iff_getElem.1 hid
    have hname' : g.nodes[id].fullName = m.fullName := by simpa using hname
    simp [add, hid, names, hlt, hname']
  · rw [g.add_of_not_mem h]
    simp [names]
    rfl

/-! ## Records at a node -/

/-- A change at one node that a view does not see leaves the view of all nodes.
-/
theorem map_modify {α : Type} {view : MethodCost → α}
    {f : MethodCost → MethodCost} (h : ∀ m, view (f m) = view m) (id : NodeId) :
    (g.nodes.modify id f).toList.map view = g.nodes.toList.map view := by
  have hview : view ∘ f = view := funext h
  apply List.ext_getElem?
  intro i
  simp only [List.getElem?_map, Array.getElem?_toList, Array.getElem?_modify]
  split
  · rw [Option.map_map, hview]
  · rfl

@[simp] theorem names_addCall (caller : NodeId) (line : Nat) (callee : NodeId) :
    (g.addCall caller line callee).names = g.names := by
  apply map_modify
  intro m
  rfl

@[simp] theorem names_addTouch (writer : NodeId) (line : Nat)
    (target : Variable) :
    (g.addTouch writer line target).names = g.names := by
  apply map_modify
  intro m
  rfl

theorem node_modify (f : MethodCost → MethodCost) (id n : NodeId) :
    node { nodes := g.nodes.modify id f } n =
      if n = id ∧ n < g.nodes.size then f (g.node n) else g.node n := by
  unfold node
  simp only [Array.getD_eq_getD_getElem?, Array.getElem?_modify]
  by_cases hlt : n < g.nodes.size
  · rw [Array.getElem?_eq_getElem hlt]
    by_cases hid : n = id
    · rw [if_pos hid.symm, if_pos ⟨hid, hlt⟩]
      rfl
    · rw [if_neg (Ne.symm hid), if_neg (fun hnode => hid hnode.1)]
  · rw [Array.getElem?_eq_none (Nat.le_of_not_lt hlt)]
    simp [hlt]

@[simp] theorem touches_addCall (caller : NodeId) (line : Nat)
    (callee id : NodeId) :
    ((g.addCall caller line callee).node id).touches = (g.node id).touches := by
  rw [addCall, node_modify]
  split <;> rfl

@[simp] theorem calls_addTouch (writer : NodeId) (line : Nat)
    (target : Variable) (id : NodeId) :
    ((g.addTouch writer line target).node id).calls = (g.node id).calls := by
  rw [addTouch, node_modify]
  split <;> rfl

theorem touches_addTouch {writer : NodeId} (h : writer < g.nodes.size)
    (line : Nat) (target : Variable) (id : NodeId) :
    ((g.addTouch writer line target).node id).touches =
      (g.node id).touches ++ if id = writer then
        [{ line, target := target.text }] else [] := by
  rw [addTouch, node_modify]
  by_cases hid : id = writer
  · rw [if_pos ⟨hid, hid ▸ h⟩, if_pos hid]
  · rw [if_neg (fun hnode => hid hnode.1), if_neg hid, List.append_nil]

/-- A call is recorded at its caller, if the caller has a node. -/
theorem calls_addCall (caller : NodeId) (line : Nat) (callee id : NodeId) :
    ((g.addCall caller line callee).node id).calls =
      (g.node id).calls ++ if id = caller ∧ id < g.nodes.size then
        [⟨line, callee⟩] else [] := by
  rw [addCall, node_modify]
  split
  · rfl
  · rw [List.append_nil]

end CostGraph

end TestCost
