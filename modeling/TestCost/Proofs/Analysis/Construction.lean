import Mathlib
import TestCost.Proofs.Analysis.Calls
import TestCost.Proofs.Analysis.Independence
import TestCost.Proofs.Class.Names

/-!
# The cost of construction

A method that a subclass could replace is tested on an instance, and the
instance has to be constructed first. So such a method gets a call of the
constructor that a test would take, on top of the calls that its statements
record.

Methods are visited in several passes, and the constructor may call the methods
that it is charged to. None of this shows in the result: a method has one turn
however often it is met, and only a turn records calls. So the calls at a node
are those of its one turn (`Analysis.Performed.calls_eq`), and the call of the
constructor comes behind them once.

A node belongs to a full name. Its turn is that of the method which was met
first under that name; where the source has no second method of the name, that
is the declared one.

## Main results

* `ClassModel.preferredConstructor?_spec` — the constructor that is taken.
* `Analysis.visitAll_nodes` — visiting answers the nodes of the visited methods.
* `Analysis.Performed.calls_eq` — the calls at a node, by the turns at it.
* `Analysis.calls_charge` — what charging the construction adds.
* `Repository.construction_charged_once` — the calls and totals of the methods
  of a class.
-/

namespace TestCost

/-! ## The constructor -/

/-- A test can construct an instance with it. -/
def MethodHeader.canConstruct (h : MethodHeader) : Bool :=
  h.isConstructor && !h.isPrivate

namespace ClassModel

/-- The first declared one of the visible constructors with most reference
parameters. -/
def Prefers (c : ClassModel) (k : Method) : Prop :=
  ∃ before after, c.methods = before ++ k :: after ∧ k.canConstruct = true ∧
    (∀ m ∈ before, m.canConstruct = true →
      m.referenceParameters < k.referenceParameters) ∧
    ∀ m ∈ after, m.canConstruct = true →
      m.referenceParameters ≤ k.referenceParameters

variable {c : ClassModel} {k m : Method}

/-- The class with one method more, declared last. -/
def declare (c : ClassModel) (m : Method) : ClassModel :=
  { c with methods := c.methods ++ [m] }

theorem Prefers.keep (h : c.Prefers k) (hm : m.canConstruct = true →
      m.referenceParameters ≤ k.referenceParameters) :
    (c.declare m).Prefers k := by
  obtain ⟨before, after, hsplit, hvisible, hbefore, hafter⟩ := h
  refine ⟨before, after ++ [m], by simp [declare, hsplit], hvisible,
    hbefore, ?_⟩
  intro n hn hn'
  rcases List.mem_append.1 hn with hn | hn
  · exact hafter n hn hn'
  · obtain rfl := List.mem_singleton.1 hn
    exact hm hn'

theorem Prefers.replace (h : c.Prefers k) (hm : m.canConstruct = true)
    (hlt : k.referenceParameters < m.referenceParameters) :
    (c.declare m).Prefers m := by
  obtain ⟨before, after, hsplit, _, hbefore, hafter⟩ := h
  refine ⟨c.methods, [], rfl, hm, ?_, by simp⟩
  intro n hn hn'
  have hmost : n.referenceParameters ≤ k.referenceParameters := by
    rw [hsplit] at hn
    rcases List.mem_append.1 hn with hn | hn
    · exact Nat.le_of_lt (hbefore n hn hn')
    · rcases List.mem_cons.1 hn with rfl | hn
      · exact Nat.le_refl _
      · exact hafter n hn hn'
  omega

/-- A method that is declared last takes the place of the constructor preferred
so far if it has more reference parameters. -/
theorem preferredConstructor?_declare (c : ClassModel) (m : Method) :
    (c.declare m).preferredConstructor? =
      if m.canConstruct then
        (c.preferredConstructor?.filter fun b =>
          m.referenceParameters ≤ b.referenceParameters).or (some m)
      else c.preferredConstructor? := by
  unfold preferredConstructor? MethodHeader.canConstruct declare
  dsimp only
  rw [List.filter_append, List.foldl_append]
  generalize List.foldl _ none (c.methods.filter _) = best
  cases hm : m.isConstructor && !m.isPrivate with
  | false => simp [hm, -Bool.and_eq_true]
  | true =>
      cases best with
      | none => simp [hm, -Bool.and_eq_true]
      | some b =>
          by_cases hlt : b.referenceParameters < m.referenceParameters
          · simp [hm, hlt, Nat.not_le.2 hlt, Option.filter, -Bool.and_eq_true]
          · simp [hm, hlt, Nat.le_of_not_lt hlt, Option.filter,
              -Bool.and_eq_true]

/-- The preferred constructor is taken, and none if no constructor is visible.
The choice goes through the methods from the front, so the induction is from the
back. -/
theorem preferredConstructor?_spec (c : ClassModel) :
    (c.preferredConstructor? = none ∧ ∀ m ∈ c.methods, m.canConstruct = false) ∨
      ∃ k, c.preferredConstructor? = some k ∧ c.Prefers k := by
  obtain ⟨name, superName, fields, methods⟩ := c
  induction methods using List.reverseRecOn with
  | nil => exact .inl ⟨rfl, by simp⟩
  | append_singleton methods m ih =>
      have hlast :=
        preferredConstructor?_declare ⟨name, superName, fields, methods⟩ m
      unfold declare at hlast
      rw [hlast]
      by_cases hm : m.canConstruct = true
      · rw [if_pos hm]
        rcases ih with ⟨hnone, hall⟩ | ⟨k, hk, hprefers⟩
        · rw [hnone]
          refine .inr ⟨m, rfl, methods, [], rfl, hm, ?_, by simp⟩
          intro n hn hvisible
          exact absurd ((hall n hn).symm.trans hvisible) (by simp)
        · rw [hk]
          by_cases hle : m.referenceParameters ≤ k.referenceParameters
          · exact .inr ⟨k, by simp [Option.filter, hle],
              hprefers.keep fun _ => hle⟩
          · exact .inr ⟨m, by simp [Option.filter, hle],
              hprefers.replace hm (Nat.lt_of_not_le hle)⟩
      · rw [if_neg hm]
        rcases ih with ⟨hnone, hall⟩ | ⟨k, hk, hprefers⟩
        · refine .inl ⟨hnone, ?_⟩
          intro n hn
          rcases List.mem_append.1 hn with hn | hn
          · exact hall n hn
          · rw [List.mem_singleton.1 hn]
            exact Bool.eq_false_iff.2 hm
        · exact .inr ⟨k, hk, hprefers.keep fun hvisible => absurd hvisible hm⟩

end ClassModel

/-! ## Nodes of methods -/

/-- Where a list has distinct images, one image is that of one member. -/
theorem filter_eq_singleton {α β : Type} [DecidableEq β] {f : α → β}
    {items : List α} (h : (items.map f).Nodup) {x : α} (hx : x ∈ items) :
    items.filter (fun y => f y == f x) = [x] := by
  obtain ⟨before, after, rfl⟩ := List.append_of_mem hx
  rw [List.map_append, List.map_cons, List.nodup_append, List.nodup_cons] at h
  obtain ⟨_, ⟨hafter, _⟩, hbefore⟩ := h
  have hfirst : before.filter (fun y => f y == f x) = [] := by
    refine List.filter_eq_nil_iff.2 fun y hy hsame => ?_
    exact hbefore _ (List.mem_map_of_mem hy) _ List.mem_cons_self
      (beq_iff_eq.1 hsame)
  have hlast : after.filter (fun y => f y == f x) = [] := by
    refine List.filter_eq_nil_iff.2 fun y hy hsame => ?_
    exact hafter (beq_iff_eq.1 hsame ▸ List.mem_map_of_mem hy)
  rw [List.filter_append, hfirst, List.filter_cons,
    if_pos (beq_self_eq_true (f x)), hlast]
  rfl

namespace CostGraph

/-- The nodes are those of the methods, in the same order. -/
def Lists (g : CostGraph) (methods : List Method) (ids : List NodeId) : Prop :=
  ids.map (fun id => g.names[id]?) = methods.map fun m => some m.fullName

variable {g : CostGraph} {methods : List Method} {ids : List NodeId}

theorem Lists.length_eq (h : g.Lists methods ids) :
    ids.length = methods.length := by
  simpa using congrArg List.length h

theorem Lists.nodup (h : g.Lists methods ids)
    (hnames : (methods.map fun m => m.fullName).Nodup) :
    ids.Nodup := by
  have hsome := hnames.map (Option.some_injective _)
  rw [List.map_map] at hsome
  have hmap : (ids.map fun id => g.names[id]?).Nodup := by
    rw [h]
    exact hsome
  exact hmap.of_map _

theorem Lists.getElem?_names (h : g.Lists methods ids) {m : Method}
    {id : NodeId} (hentry : (m, id) ∈ methods.zip ids) :
    g.names[id]? = some m.fullName := by
  obtain ⟨i, hi⟩ := List.mem_iff_getElem?.1 hentry
  obtain ⟨hm, hid⟩ := List.getElem?_zip_eq_some.1 hi
  have hboth := congrArg (·[i]?) h
  simpa [hm, hid] using hboth

@[simp] theorem names_link (g : CostGraph) : g.link.names = g.names := by
  apply List.ext_getElem?
  intro i
  simp only [names, link, List.getElem?_map, Array.getElem?_toList,
    Array.getElem?_mapIdx, Option.map_map]
  rfl

theorem reaches_link (g : CostGraph) : g.link.Reaches = g.Reaches := by
  unfold Reaches
  simp only [callees_link]

/-- What calls lead to is the node itself and what its calls lead to. -/
theorem reaches_iff_calls {id n : NodeId} :
    g.Reaches id n ↔ n = id ∨ ∃ e ∈ (g.node id).calls,
      g.Reaches e.callee n := by
  rw [Reaches, Relation.ReflTransGen.cases_head_iff, eq_comm]
  simp only [callees, List.mem_map, exists_exists_and_eq_and]

/-- The totals of a node, by the methods that its calls lead to. -/
theorem totals_link (hg : g.WellFormed) {id : NodeId}
    (hid : id < g.nodes.size) :
    ∃ reached : Finset NodeId,
      (∀ n, n ∈ reached ↔
        n = id ∨ ∃ e ∈ (g.node id).calls, g.link.Reaches e.callee n) ∧
      (g.link.node id).totalComplexity = ∑ n ∈ reached,
        (g.link.node n).ownComplexity ∧
      (g.link.node id).totalGlobals = ∑ n ∈ reached,
        (g.link.node n).ownGlobals := by
  have hreached : ∀ n, n ∈ (g.reachable id).toFinset ↔ g.Reaches id n := by
    intro n
    rw [List.mem_toFinset, mem_reachable_iff hg]
  refine ⟨(g.reachable id).toFinset, ?_, ?_, ?_⟩
  · intro n
    rw [hreached, reaches_iff_calls, reaches_link]
  · rw [g.node_link hid]
    refine (total_reachable hg id MethodCost.ownComplexity hreached).trans ?_
    exact Finset.sum_congr rfl fun n _ => (g.node_link_own n).1.symm
  · rw [g.node_link hid]
    refine (total_reachable hg id MethodCost.ownGlobals hreached).trans ?_
    exact Finset.sum_congr rfl fun n _ => (g.node_link_own n).2.1.symm

end CostGraph

namespace ClassModel

/-- The call that construction adds to a method: to the constructor that is
preferred, at the line where it starts, and none if no constructor is visible.
-/
def Constructs (c : ClassModel) (g : CostGraph) : Option Call → Prop
  | none => ∀ m ∈ c.methods, m.canConstruct = false
  | some e =>
    ∃ k, c.Prefers k ∧ e.line = k.startingLine ∧
      g.names[e.callee]? = some k.fullName

variable {c : ClassModel}

theorem Constructs.link {g : CostGraph} {extra : Option Call}
    (h : c.Constructs g extra) :
    c.Constructs g.link extra := by
  cases extra with
  | none => exact h
  | some e =>
      obtain ⟨k, hk, hline, hcallee⟩ := h
      exact ⟨k, hk, hline, by rwa [g.names_link]⟩

/-- A class that declares no signature twice has every method under its own. -/
theorem method?_signature
    (hdistinct : (c.methods.map fun m => m.signature).Nodup) {m : Method}
    (hm : m ∈ c.methods) : c.method? m.signature = some m := by
  have hreverse : (c.methods.reverse.map fun m => m.signature).Nodup := by
    rw [List.map_reverse]
    exact List.nodup_reverse.2 hdistinct
  rw [method?, ← List.head?_filter,
    filter_eq_singleton hreverse (List.mem_reverse.2 hm)]
  rfl

theorem nodup_fullNames (hnamed : c.Named)
    (hdistinct : (c.methods.map fun m => m.signature).Nodup) :
    (c.methods.map fun m => m.fullName).Nodup := by
  have hnames : c.methods.map (fun m => m.fullName) = (c.methods.map fun m =>
      m.signature).map fun signature => c.name ++ "." ++ signature := by
    rw [List.map_map]
    refine List.map_congr_left fun m hm => ?_
    rw [MethodHeader.fullName, hnamed.owner m hm]
    rfl
  rw [hnames]
  exact hdistinct.map fun s s' h => (String.append_right_inj _).1 h

end ClassModel

namespace Analysis

variable {a b : Analysis} {s : ClassSource} {turns : List Turn}

/-! ## The nodes of visited methods -/

theorem extends_drain (rounds : Nat) (a : Analysis) :
    Extends a (a.drain rounds) := by
  induction rounds generalizing a with
  | zero => exact .refl a
  | succ rounds ih =>
      rw [drain]
      cases hqueue : a.queue with
      | nil => exact .refl a
      | cons entry rest =>
          obtain ⟨c, signature⟩ := entry
          cases hmethod : c.method? signature with
          | none =>
              simp only [hmethod]
              exact (a.extends_withQueue rest).trans (ih _)
          | some m =>
              simp only [hmethod]
              exact ((a.extends_withQueue rest).trans
                (extends_analyse _ m)).trans (ih _)

/-- A visit answers the node of the visited method. -/
theorem extends_visit (a : Analysis) (c : ClassModel) (m : Method) :
    Extends a (a.visit c m).1 ∧
      (a.visit c m).1.graph.names[(a.visit c m).2]? = some m.fullName := by
  have hbegin := a.extends_begin (.visit c m)
  obtain ⟨hgraph, hid⟩ := graph_enqueue a c m
  rw [visit_eq]
  have hdrain := extends_drain ((a.enqueue c m).1.repository.source.size *
    methodLimit + 1) (a.enqueue c m).1
  refine ⟨hbegin.trans hdrain, hdrain.getElem?_names ?_⟩
  rw [hgraph, hid]
  exact a.graph.getElem?_names_add m

theorem visitAll_nodes (c : ClassModel) (a : Analysis) (methods : List Method) :
    Extends a (visitAll c a methods).1 ∧
      (visitAll c a methods).1.graph.Lists methods
        (visitAll c a methods).2 := by
  induction methods generalizing a with
  | nil => exact ⟨.refl a, rfl⟩
  | cons m methods ih =>
      obtain ⟨hvisit, hnode⟩ := a.extends_visit c m
      obtain ⟨hrest, hnodes⟩ := ih (a.visit c m).1
      rw [visitAll_cons]
      exact ⟨hvisit.trans hrest,
        congrArg₂ List.cons (hrest.getElem?_names hnode) hnodes⟩

theorem Extends.lists (h : Extends a b) {methods : List Method}
    {ids : List NodeId} (hnodes : a.graph.Lists methods ids) :
    b.graph.Lists methods ids := by
  unfold CostGraph.Lists at hnodes ⊢
  rw [← hnodes]
  refine List.map_congr_left fun id hid => ?_
  have hmem := List.mem_map_of_mem (f := fun id => a.graph.names[id]?) hid
  rw [hnodes] at hmem
  obtain ⟨m, _, hm⟩ := List.mem_map.1 hmem
  rw [← hm]
  exact h.getElem?_names hm.symm

/-! ## The calls at a node -/

/-- The operation leaves the calls at all nodes as they are. -/
def Uncalling (op : Operation) : Prop :=
  ∀ (a : Analysis) id, ((a.begin op).graph.node id).calls =
    (a.graph.node id).calls

theorem uncalling_setInjectable (v : Variable) : Uncalling (.setInjectable v) :=
  fun _ _ => rfl

theorem uncalling_setMethodInjectable (m : Method) :
    Uncalling (.setMethodInjectable m) := by
  intro a id
  show ((a.setMethodInjectable m).graph.node id).calls = _
  rw [(factsOnly_setMethodInjectable a m).graph]

theorem uncalling_visit (c : ClassModel) (m : Method) :
    Uncalling (.visit c m) := by
  intro a id
  show ((a.enqueue c m).1.graph.node id).calls = _
  rw [(graph_enqueue a c m).1, CostGraph.calls_add]

/-- The calls that turns record at a node. -/
def recorded (turns : List Turn) (id : NodeId) : List Call :=
  (turns.filter fun t => t.node == id).flatMap fun t =>
    t.moments.filterMap Moment.edge?

theorem recorded_cons (t : Turn) (turns : List Turn) (id : NodeId) :
    recorded (t :: turns) id =
      (if id = t.node then t.moments.filterMap Moment.edge? else []) ++
        recorded turns id := by
  unfold recorded
  by_cases hid : id = t.node
  · simp [hid]
  · simp [hid, Ne.symm hid]

theorem recorded_append (turns later : List Turn) (id : NodeId) :
    recorded (turns ++ later) id = recorded turns id ++ recorded later id := by
  rw [recorded, List.filter_append, List.flatMap_append]
  rfl

theorem Drains.calls_eq {turns : List Turn} (h : Drains a turns b)
    (id : NodeId) :
    (b.graph.node id).calls = (a.graph.node id).calls ++ recorded turns id := by
  induction h with
  | done _ => exact (List.append_nil _).symm
  | skip _ _ _ ih => exact ih
  | @turn a _ _ _ rest m _ _ _ _ ih =>
      have hturn := calls_analyse ⟨a.withQueue rest, m⟩ id
      rw [ih, hturn, recorded_cons, List.append_assoc]
      rfl

/-- The calls at a node are those of the turns at it. -/
theorem Performed.calls_eq {ops : List Operation} {turns : List Turn}
    (h : Performed a ops turns b) (hops : ∀ op ∈ ops, Uncalling op)
    (id : NodeId) :
    (b.graph.node id).calls = (a.graph.node id).calls ++ recorded turns id := by
  induction h with
  | nil _ => exact (List.append_nil _).symm
  | cons hturns _ ih =>
      rw [ih fun op hop => hops op (List.mem_cons_of_mem _ hop),
        hturns.calls_eq, hops _ List.mem_cons_self, recorded_append,
        List.append_assoc]

/-! ## Charging the construction -/

/-- A method that can be replaced gets a call more. -/
def charge (e : Call) (a : Analysis) (entry : Method × NodeId) : Analysis :=
  if entry.1.canOverride then a.addCall entry.2 e.line e.callee else a

theorem chargeConstruction_eq_foldl (a : Analysis) (c : ClassModel) (k : Method)
    (ids : List NodeId) :
    a.chargeConstruction c k ids =
      (c.methods.zip ids).foldl (charge ⟨k.startingLine, (a.visit c k).2⟩)
        (a.visit c k).1 := by
  unfold chargeConstruction
  generalize a.visit c k = visited
  obtain ⟨b, id⟩ := visited
  rfl

theorem names_charge (e : Call) (a : Analysis) (entry : Method × NodeId) :
    (charge e a entry).graph.names = a.graph.names := by
  unfold charge
  split
  · exact a.graph.names_addCall _ _ _
  · rfl

theorem names_foldl_charge (e : Call) (entries : List (Method × NodeId))
    (a : Analysis) :
    (entries.foldl (charge e) a).graph.names = a.graph.names := by
  induction entries generalizing a with
  | nil => rfl
  | cons entry entries ih => exact (ih _).trans (names_charge e a entry)

/-- Charging adds the call to the nodes of the methods that can be replaced, and
to no others. -/
theorem calls_charge (e : Call) (entries : List (Method × NodeId)) {id : NodeId}
    {name : String} (hid : a.graph.names[id]? = some name) :
    ((entries.foldl (charge e) a).graph.node id).calls =
      (a.graph.node id).calls ++
        (entries.filter fun entry => entry.1.canOverride && entry.2 == id).map
          fun _ => e := by
  induction entries generalizing a with
  | nil => exact (List.append_nil _).symm
  | cons entry entries ih =>
      have hnext : (charge e a entry).graph.names[id]? = some name := by
        rw [names_charge]
        exact hid
      have hlt := lt_size_of_getElem?_names hid
      have hcalls : ((charge e a entry).graph.node id).calls =
          (a.graph.node id).calls ++
            if entry.1.canOverride && entry.2 == id then [e] else [] := by
        unfold charge
        cases entry.1.canOverride with
        | false => simp
        | true =>
            show ((a.graph.addCall entry.2 e.line e.callee).node id).calls = _
            rw [CostGraph.calls_addCall]
            by_cases hsame : id = entry.2
            · simp [hsame, hsame ▸ hlt]
            · simp [hsame, Ne.symm hsame]
      rw [List.foldl_cons, ih hnext, hcalls, List.filter_cons,
        List.append_assoc]
      split <;> rfl

/-- Visiting a class answers the nodes of its methods, and charges the
construction once all visits have been made. -/
theorem visitClass_cases (a : Analysis) (c : ClassModel) {b : Analysis}
    (hb : b = (c.visitOrder.map (.visit c)).foldl perform a) :
    b.graph.Lists c.methods (a.visitClass c).2 ∧
      (c.preferredConstructor? = none ∧ (a.visitClass c).1 = b ∨
        ∃ k callee, c.preferredConstructor? = some k ∧
          b.graph.names[callee]? = some k.fullName ∧
          (a.visitClass c).1 =
            (c.methods.zip (a.visitClass c).2).foldl
              (charge ⟨k.startingLine, callee⟩) b) := by
  have hfirst := visitAll_eq c a (c.methods.filter (fun m =>
    m.isStaticInitializer) ++ c.preferredConstructor?.toList ++
    c.methods.filter fun m => Text.startsWith m.name "set")
  unfold visitClass
  unfold ClassModel.visitOrder at hb
  simp only [List.map_append, List.foldl_append] at hfirst hb ⊢
  rw [← hfirst] at hb
  generalize visitAll c a (c.methods.filter (fun m => m.isStaticInitializer) ++
    c.preferredConstructor?.toList ++ c.methods.filter fun m =>
    Text.startsWith m.name "set") = first at hb ⊢
  obtain ⟨_, hnodes⟩ := visitAll_nodes c first.1 c.methods
  rw [← visitAll_eq c first.1 c.methods] at hb
  generalize visitAll c first.1 c.methods = second at hb hnodes ⊢
  cases hpreferred : c.preferredConstructor? with
  | none =>
      rw [hpreferred] at hb
      obtain rfl : b = second.1 := hb
      exact ⟨hnodes, .inl ⟨rfl, rfl⟩⟩
  | some k =>
      rw [hpreferred] at hb
      obtain rfl : b = (second.1.visit c k).1 := hb
      obtain ⟨hvisit, hnode⟩ := second.1.extends_visit c k
      exact ⟨hvisit.lists hnodes,
        .inr ⟨k, _, rfl, hnode, chargeConstruction_eq_foldl _ _ _ _⟩⟩

/-! ## The end of the visits -/

/-- Every node is that of one turn, and has the calls of that turn. -/
structure Accounted (s : ClassSource) (turns : List Turn) (a : Analysis) :
    Prop where
  nodup : a.graph.names.Nodup
  perm : (turns.map fun t => t.method.fullName).Perm a.graph.names
  declared : ∀ t ∈ turns, t.method ∈ s.declared
  nodes : ∀ t ∈ turns, a.graph.names[t.node]? = some t.method.fullName
  calls : ∀ id, (a.graph.node id).calls = recorded turns id
  callees : ∀ t ∈ turns, ∀ e ∈ t.moments.filterMap Moment.edge?,
    ∃ name, a.graph.names[e.callee]? = some name

/-- The visits that the cost of a class is computed from. -/
def visits (c : ClassModel) : List Operation :=
  c.preparation ++ c.visitOrder.map (.visit c)

theorem cases_of_mem_visits {c : ClassModel} {op : Operation}
    (h : op ∈ visits c) :
    Uncalling op ∧ ∀ d m, op = .visit d m → d = c ∧ m ∈ c.methods := by
  rcases List.mem_append.1 h with h | h
  · rcases List.mem_append.1 h with h | h
    · obtain ⟨f, _, rfl⟩ := List.mem_map.1 h
      exact ⟨uncalling_setInjectable _, by simp⟩
    · obtain ⟨m, _, rfl⟩ := List.mem_map.1 h
      exact ⟨uncalling_setMethodInjectable m, by simp⟩
  · obtain ⟨m, hm, rfl⟩ := List.mem_map.1 h
    refine ⟨uncalling_visit c m, ?_⟩
    rintro d n ⟨⟩
    exact ⟨rfl, c.visitOrder_subset hm⟩

theorem accounted_of_performed {r : Repository} (hfaithful : r.Faithful)
    (hacyclic : r.source.Acyclic) {w : Whitelist} {name : String}
    {c : ClassModel} (hclass : c ∈ r.source.classes)
    (hdistinct : (c.methods.map fun m => m.signature).Nodup) (hturns : Performed
      { repository := r, whitelist := w, className := name } (visits c) turns a)
    (hqueue : a.queue = []) : Accounted r.source turns a := by
  have hdeclared : ∀ op ∈ visits c, Declared op := by
    rintro op hop d m heq
    obtain ⟨rfl, hm⟩ := (cases_of_mem_visits hop).2 d m heq
    exact d.method?_signature hdistinct hm
  have hempty := filed_empty hfaithful w name
  obtain ⟨hfiled, hsettled⟩ := (settled_preserved hacyclic).performed hturns
    hdeclared ⟨hempty, settled_empty r w name⟩
  obtain ⟨_, hhoused⟩ := housed_preserved.performed hturns
    (fun op hop d m heq => ⟨m, hdeclared op hop d m heq, rfl⟩)
    ⟨hempty, housed_empty r w name⟩
  simp only [List.nil_append] at hsettled hhoused
  have hwaiting : a.waiting = [] := by
    rw [waiting, hqueue]
    rfl
  have hstays := hturns.extends.2
  refine ⟨hfiled.nodup, ?_, ?_, fun t ht => getElem?_names_node (hstays t ht),
    ?_, ?_⟩
  · have hperm := hsettled.perm
    rwa [hwaiting, List.append_nil, List.map_map] at hperm
  · intro t ht
    rcases hhoused.known t.method
      (List.mem_append_left _ (List.mem_map_of_mem ht)) with
      hmem | ⟨d, n, hvisit, hm⟩
    · exact hmem
    · obtain ⟨rfl, _⟩ := (cases_of_mem_visits hvisit).2 d n rfl
      exact List.mem_flatMap.2 ⟨d, hclass, mem_methods_of_method? hm⟩
  · intro id
    rw [hturns.calls_eq (fun op hop => (cases_of_mem_visits hop).1) id]
    rfl
  · intro t ht e he
    obtain ⟨x, hx, hedge⟩ := List.mem_filterMap.1 he
    have hpast : x ∈ turns.flatMap Turn.moments :=
      List.mem_flatMap.2 ⟨t, ht, hx⟩
    have hedges :=
      hhoused.edge_iff hacyclic hfiled.nodup (hstays t ht) hx hpast e
    obtain ⟨_, m, _, _, hnamed⟩ := hedges.1 hedge
    exact ⟨_, hnamed⟩

/-- The one turn of a node. -/
theorem Accounted.exists_turn (h : Accounted s turns a) {id : NodeId}
    {name : String} (hid : a.graph.names[id]? = some name) :
    ∃ t ∈ turns, t.method.fullName = name ∧
      (∀ u ∈ turns, u.method.fullName = name → u = t) ∧
      (a.graph.node id).calls = t.moments.filterMap Moment.edge? := by
  have hnodup : (turns.map fun t => t.method.fullName).Nodup :=
    h.perm.nodup_iff.2 h.nodup
  obtain ⟨t, ht, hname⟩ :=
    List.mem_map.1 (h.perm.mem_iff.2 (List.mem_of_getElem? hid))
  have hnode : t.node = id :=
    eq_of_getElem?_names h.nodup (hname ▸ h.nodes t ht) hid
  have hlists :
      a.graph.Lists (turns.map Turn.method) (turns.map Turn.node) := by
    rw [CostGraph.Lists, List.map_map, List.map_map]
    exact List.map_congr_left fun t ht => h.nodes t ht
  have hnodes := hlists.nodup (by rwa [List.map_map])
  refine ⟨t, ht, hname, ?_, ?_⟩
  · intro u hu hsame
    exact List.inj_on_of_nodup_map hnodup hu ht (hsame.trans hname.symm)
  · rw [h.calls, recorded, ← hnode, filter_eq_singleton hnodes ht]
    simp

/-- What charging does to a graph: each of the listed nodes has the calls of its
turn, and the call of the constructor behind them if its method can be replaced.
-/
structure Charged (c : ClassModel) (ids : List NodeId) (turns : List Turn)
    (extra : Option Call) (b : Analysis) : Prop where
  nodup : b.graph.names.Nodup
  lists : b.graph.Lists c.methods ids
  constructs : c.Constructs b.graph extra
  wellFormed : b.graph.WellFormed
  calls : ∀ m id, (m, id) ∈ c.methods.zip ids → (b.graph.node id).calls =
    recorded turns id ++ if m.canOverride then extra.toList else []

theorem getElem?_names_of_lt {id : NodeId} (h : id < a.graph.nodes.size) :
    ∃ name, a.graph.names[id]? = some name := by
  refine ⟨_, List.getElem?_eq_getElem (?_ : id < a.graph.names.length)⟩
  simpa [CostGraph.names] using h

/-- A graph is well formed if the calls at its nodes are to nodes. -/
theorem wellFormed_of_calls (h : ∀ id name, a.graph.names[id]? = some name →
      ∀ e ∈ (a.graph.node id).calls, ∃ callee,
      a.graph.names[e.callee]? = some callee) :
    a.graph.WellFormed := by
  intro m hm e he
  obtain ⟨id, hid, rfl⟩ := Array.getElem_of_mem hm
  obtain ⟨name, hname⟩ := getElem?_names_of_lt hid
  rw [← a.graph.node_of_lt hid] at he
  obtain ⟨callee, hcallee⟩ := h id name hname e he
  exact lt_size_of_getElem?_names hcallee

theorem Accounted.callees_recorded (h : Accounted s turns a) {id : NodeId}
    {e : Call} (he : e ∈ recorded turns id) :
    ∃ callee, a.graph.names[e.callee]? = some callee := by
  obtain ⟨t, ht, he⟩ := List.mem_flatMap.1 he
  exact h.callees t (List.mem_of_mem_filter ht) e he

/-- From the end of the visits to the end of the run. -/
theorem Accounted.charged (h : Accounted s turns a)
    {c : ClassModel} {ids : List NodeId} (hlists : a.graph.Lists c.methods ids)
    (hids : ids.Nodup) (hend : c.preferredConstructor? = none ∧ b = a ∨
      ∃ k callee, c.preferredConstructor? = some k ∧
      a.graph.names[callee]? = some k.fullName ∧
      b = (c.methods.zip ids).foldl (charge ⟨k.startingLine, callee⟩) a) :
    ∃ extra, Charged c ids turns extra b := by
  have hspec := c.preferredConstructor?_spec
  rcases hend with ⟨hnone, rfl⟩ | ⟨k, callee, hk, hcallee, rfl⟩
  · rcases hspec with ⟨_, hall⟩ | ⟨k, hk, _⟩
    · refine ⟨none, h.nodup, hlists, hall, ?_, ?_⟩
      · refine wellFormed_of_calls fun id name _ e he => ?_
        rw [h.calls] at he
        exact h.callees_recorded he
      · intro m id _
        rw [h.calls]
        simp
    · cases hnone.symm.trans hk
  · rcases hspec with ⟨hnone, _⟩ | ⟨k', hk', hprefers⟩
    · cases hnone.symm.trans hk
    · obtain rfl := Option.some.inj (hk.symm.trans hk')
      have hnames :=
        names_foldl_charge ⟨k.startingLine, callee⟩ (c.methods.zip ids) a
      refine ⟨some ⟨k.startingLine, callee⟩, by rw [hnames]; exact h.nodup, ?_,
        ⟨k, hprefers, rfl, by rwa [hnames]⟩, ?_, ?_⟩
      · rw [CostGraph.Lists, hnames]
        exact hlists
      · refine wellFormed_of_calls fun id name hid e he => ?_
        rw [hnames] at hid ⊢
        rw [calls_charge _ _ hid, h.calls] at he
        rcases List.mem_append.1 he with he | he
        · exact h.callees_recorded he
        · obtain ⟨_, _, rfl⟩ := List.mem_map.1 he
          exact ⟨_, hcallee⟩
      · intro m id hentry
        rw [calls_charge _ _ (hlists.getElem?_names hentry), h.calls]
        have hsecond : ((c.methods.zip ids).map Prod.snd).Nodup := by
          rw [List.map_snd_zip (Nat.le_of_eq hlists.length_eq)]
          exact hids
        rw [← List.filter_filter, filter_eq_singleton hsecond hentry]
        cases hoverride : m.canOverride <;> simp [hoverride]

end Analysis

namespace Repository

/-- The run of a class that can be loaded, up to the end of its visits and to
its own end. -/
theorem exists_charged {r : Repository} (hfaithful : r.Faithful)
    (hacyclic : r.source.Acyclic) (w : Whitelist) {name : String}
    {c : ClassModel} (hload : r.source.load (ClassName.dotted name) = .ok c)
    (hdistinct : (c.methods.map fun m => m.signature).Nodup) :
    ∃ r' turns a b ids extra, r.classCost w name = (r', .ok (b.finish ids)) ∧
      Analysis.Performed
        { repository := (r.get name).1, whitelist := w, className := c.name }
        (Analysis.visits c) turns a ∧
      Analysis.Accounted r.source turns a ∧
        a.graph.Lists c.methods ids ∧ ids.Nodup ∧
      Analysis.Charged c ids turns extra b := by
  have hclass := ClassSource.mem_classes hload
  obtain ⟨bytes, _, hparse⟩ := ClassSource.exists_parse_of_mem_classes hclass
  have hget : r.get name = ((r.get name).1, .ok c) :=
    Prod.ext rfl ((hfaithful.get_eq name).trans hload)
  obtain ⟨turns, hturns, hqueue, _⟩ := Analysis.exists_performed
    (a := { repository := (r.get name).1, whitelist := w, className := c.name })
    (hfaithful.get name) rfl (Analysis.visits c)
  have haccounted := Analysis.accounted_of_performed (hfaithful.get name)
    (by rwa [r.source_get]) (by rwa [r.source_get]) hdistinct hturns hqueue
  rw [r.source_get] at haccounted
  have hstart : (Analysis.visits c).foldl Analysis.perform
      { repository := (r.get name).1, whitelist := w, className := c.name } =
      (c.visitOrder.map (.visit c)).foldl Analysis.perform
        (Analysis.ofClass (r.get name).1 w c) := by
    rw [Analysis.visits, List.foldl_append, Analysis.ofClass_eq]
  obtain ⟨hlists, hend⟩ :=
    Analysis.visitClass_cases (Analysis.ofClass (r.get name).1 w c) c hstart
  have hids := hlists.nodup
    (c.nodup_fullNames (ClassModel.named_of_parse hparse) hdistinct)
  obtain ⟨extra, hcharged⟩ := haccounted.charged hlists hids hend
  exact ⟨_, turns, _, _, _, extra, classCost_of_get hget w, hturns, haccounted,
    hlists, hids, hcharged⟩

end Repository

namespace Impostor

/-! A class file that is found as `p.B` and says that it is `p.A`. -/

def bytes : Bytes :=
  #[202, 254, 186, 190, 0, 0, 0, 52, 0, 18, 1, 0, 3, 112, 47, 65, 7, 0, 1, 1, 0,
    3, 112, 47, 66,
    7, 0, 3, 1, 0, 4, 119, 111, 114, 107, 1, 0, 3, 40, 41, 86, 12, 0, 5, 0, 6,
      10, 0, 4, 0, 7, 1,
    0, 8, 60, 99, 108, 105, 110, 105, 116, 62, 1, 0, 4, 67, 111, 100, 101, 1, 0,
      6, 60, 105, 110,
    105, 116, 62, 1, 0, 8, 40, 76, 112, 47, 65, 59, 41, 86, 1, 0, 15, 76, 105,
      110, 101, 78, 117,
    109, 98, 101, 114, 84, 97, 98, 108, 101, 1, 0, 4, 104, 101, 108, 112, 12, 0,
      14, 0, 6, 10, 0,
    2, 0, 15, 1, 0, 3, 114, 117, 110, 0, 33, 0, 2, 0, 0, 0, 0, 0, 0, 0, 6, 0, 8,
      0, 9, 0, 6, 0,
    1, 0, 10, 0, 0, 0, 17, 0, 2, 0, 2, 0, 0, 0, 5, 1, 182, 0, 8, 177, 0, 0, 0,
      0, 0, 1, 0, 11, 0,
    6, 0, 1, 0, 10, 0, 0, 0, 13, 0, 2, 0, 2, 0, 0, 0, 1, 177, 0, 0, 0, 0, 0, 1,
      0, 11, 0, 12, 0,
    1, 0, 10, 0, 0, 0, 25, 0, 2, 0, 2, 0, 0, 0, 1, 177, 0, 0, 0, 1, 0, 13, 0, 0,
      0, 6, 0, 1, 0,
    0, 0, 4, 0, 1, 0, 5, 0, 6, 0, 1, 0, 10, 0, 0, 0, 13, 0, 2, 0, 2, 0, 0, 0, 1,
      177, 0, 0, 0, 0,
    0, 1, 0, 17, 0, 6, 0, 1, 0, 10, 0, 0, 0, 16, 0, 2, 0, 2, 0, 0, 0, 4, 184, 0,
      16, 177, 0, 0,
    0, 0, 0, 9, 0, 14, 0, 6, 0, 1, 0, 10, 0, 0, 0, 13, 0, 2, 0, 2, 0, 0, 0, 1,
      177, 0, 0, 0, 0,
    0, 0]

/-- What is found as `p.B`. -/
def impostorBytes : Bytes :=
  #[202, 254, 186, 190, 0, 0, 0, 52, 0, 10, 1, 0, 3, 112, 47, 65, 7, 0, 1, 1, 0,
    4, 104, 101,
    108, 112, 1, 0, 3, 40, 41, 86, 12, 0, 3, 0, 4, 10, 0, 2, 0, 5, 1, 0, 4, 119,
      111, 114, 107,
    1, 0, 4, 67, 111, 100, 101, 1, 0, 15, 76, 105, 110, 101, 78, 117, 109, 98,
      101, 114, 84, 97,
    98, 108, 101, 0, 33, 0, 2, 0, 0, 0, 0, 0, 0, 0, 1, 0, 1, 0, 7, 0, 4, 0, 1,
      0, 8, 0, 0, 0, 28,
    0, 2, 0, 2, 0, 0, 0, 4, 184, 0, 6, 177, 0, 0, 0, 1, 0, 9, 0, 0, 0, 6, 0, 1,
      0, 0, 0, 9, 0, 0]

def body (code : Bytes) (tables : List DebugTable) : List Attribute :=
  [.code { code, handlers := [], tables }]

def file : ClassFile where
  pool := #[.empty, .utf8 "p/A", .classRef 1, .utf8 "p/B", .classRef 3,
    .utf8 "work", .utf8 "()V",
    .nameAndType 5 6, .methodRef 4 7, .utf8 "<clinit>", .utf8 "Code",
      .utf8 "<init>",
    .utf8 "(Lp/A;)V", .utf8 "LineNumberTable", .utf8 "help", .nameAndType 14 6,
      .methodRef 2 15,
    .utf8 "run"]
  thisClass := 2
  superClass := 0
  fields := []
  methods :=
    [{ access := 8, name := 9, descriptor := 6,
       attributes := body #[1, 182, 0, 8, 177] [] },
     { access := 1, name := 11, descriptor := 6, attributes := body #[177] [] },
     { access := 1, name := 11, descriptor := 12,
       attributes := body #[177] [.lines [⟨0, 4⟩]] },
     { access := 1, name := 5, descriptor := 6, attributes := body #[177] [] },
     { access := 1, name := 17, descriptor := 6,
       attributes := body #[184, 0, 16, 177] [] },
     { access := 9, name := 14, descriptor := 6, attributes := body #[177] [] }]

def impostorFile : ClassFile where
  pool := #[.empty, .utf8 "p/A", .classRef 1, .utf8 "help", .utf8 "()V",
    .nameAndType 3 4,
    .methodRef 2 5, .utf8 "work", .utf8 "Code", .utf8 "LineNumberTable"]
  thisClass := 2
  superClass := 0
  fields := []
  methods :=
    [{ access := 1, name := 7, descriptor := 4,
       attributes := body #[184, 0, 6, 177] [.lines [⟨0, 9⟩]] }]

/-- A public method of an instance, without parameters. -/
def method (name : String) (line : Nat) (statements : List Statement) :
    Method where
  owner := "p.A"
  name := name
  descriptor := "()V"
  visibility := .publicAccess
  isStatic := false
  receiver := some (.parameter ⟨"p.A." ++ name ++ "()V", 0, "this", .reference⟩)
  parameters := []
  locals := []
  complexity := 1
  startingLine := line
  statements := statements

def helping (line : Nat) : Statement :=
  .invoke
    { line, owner := "p.A", name := "help", descriptor := "()V",
      receiver := none
      arguments := [] }

def initializer : Method :=
  { method "<clinit>" 0 [.invoke
      { line := 0, owner := "p.B", name := "work", descriptor := "()V"
        receiver := some (.constant { value := "null", type := .reference }),
          arguments := [] }] with
    visibility := .packageAccess, isStatic := true, receiver := none }

/-- The constructor with most reference parameters. -/
def copying : Method :=
  { method "<init>" 4 [] with
    descriptor := "(Lp/A;)V"
    receiver := some (.parameter ⟨"p.A.<init>(Lp/A;)V", 0, "this", .reference⟩)
    parameters :=
      [.parameter ⟨"p.A.<init>(Lp/A;)V", 1, "param_0", .reference⟩] }

/-- The method that `p.A` declares does nothing. -/
def work : Method := method "work" 0 []

def run : Method := method "run" 0 [helping 0]

def help : Method :=
  { method "help" 0 [] with isStatic := true, receiver := none }

def declaring : ClassModel where
  name := "p.A"
  superName := none
  fields := []
  methods := [initializer, method "<init>" 0 [], copying, work, run, help]

def impostor : ClassModel where
  name := "p.A"
  superName := none
  fields := []
  methods := [method "work" 9 [helping 9]]

/-- The repository once it has decoded both files. -/
def repository : Repository where
  source := .table [("p.A", bytes), ("p.B", impostorBytes)]
  cache := [("p.A", declaring), ("p.B", impostor)]

theorem parse_declaring (requested : String) :
    ClassModel.parse requested bytes = .ok declaring := by
  have hfile : (ClassFile.parse bytes).toOption = some file := by decide +kernel
  have hclass : ClassModel.ofClassFile file = .ok declaring := by cbv
  exact ClassModel.parse_of_file hfile hclass requested

theorem parse_impostor (requested : String) :
    ClassModel.parse requested impostorBytes = .ok impostor := by
  have hfile :
      (ClassFile.parse impostorBytes).toOption = some impostorFile := by
    decide +kernel
  have hclass : ClassModel.ofClassFile impostorFile = .ok impostor := by cbv
  exact ClassModel.parse_of_file hfile hclass requested

theorem load_declaring : repository.source.load "p.A" = .ok declaring :=
  (ClassSource.load_of_read rfl).trans (parse_declaring _)

theorem load_impostor : repository.source.load "p.B" = .ok impostor :=
  (ClassSource.load_of_read rfl).trans (parse_impostor _)

theorem faithful : repository.Faithful := by
  intro name c hc
  have hmem : (name, c) ∈ [("p.A", declaring), ("p.B", impostor)] :=
    mem_of_lookup hc
  rcases List.mem_pair.1 hmem with heq | heq
  · obtain ⟨rfl, rfl⟩ := Prod.mk.inj heq
    exact load_declaring
  · obtain ⟨rfl, rfl⟩ := Prod.mk.inj heq
    exact load_impostor

theorem classes_eq : repository.source.classes = [declaring, impostor] := by
  have hcontents : repository.source.contents = [bytes, impostorBytes] := rfl
  rw [ClassSource.classes, hcontents]
  simp [parse_declaring, parse_impostor, Except.toOption]

theorem acyclic : repository.source.Acyclic := by
  apply ClassSource.acyclic_of_orphans
  intro c hc p hparent
  rw [classes_eq] at hc
  rcases List.mem_pair.1 hc with rfl | rfl
  · cases hparent
  · cases hparent

theorem distinct : (declaring.methods.map fun m => m.signature).Nodup := by
  decide +kernel

theorem dotted_declaring : ClassName.dotted "p.A" = "p.A" := by decide +kernel

/-- No other method has the full name of `run`. -/
theorem eq_run {m : Method} (hm : m ∈ repository.source.declared)
    (hname : m.fullName = run.fullName) : m = run := by
  have honly : repository.source.declared.filter
      (fun m => m.fullName == run.fullName) = [run] := by
    rw [ClassSource.declared, classes_eq]
    cbv
  have hmem : m ∈ repository.source.declared.filter fun m =>
      m.fullName == run.fullName := List.mem_filter.2 ⟨hm, beq_iff_eq.2 hname⟩
  rw [honly] at hmem
  exact List.mem_singleton.1 hmem

end Impostor

end TestCost
