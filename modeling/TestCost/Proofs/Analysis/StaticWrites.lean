import TestCost.Proofs.Analysis.History
import TestCost.Proofs.Method

/-!
# Records of static writes

A write to a static field touches global state whatever else is known, so the
records that it leaves depend on the code alone. There is one for each
statement that the instruction stands for, and that is not one for each
instruction: symbolic execution answers a statement for every distinct list of
operands that paths bring. A value that is chosen between two constants before
it is written costs two records. Lists of values are told apart up to the owner
and the name of a field, so the count is that of the lists themselves where
fields agree in the graph (`FlowGraph.FieldsAgree`).

## Main results

* `FlowGraph.staticTouches_statements` — the static writes among the
  statements of a graph, position by position.
* `FlowGraph.exists_operandLists_of_staticWrite` — how many there are at one
  position.
* `Analysis.touches_analyse` — what an analysis records at a method.
* `static_writes_recorded_by_operands` — the records of the static writes of a
  method that was decoded.
-/

namespace TestCost

/-! ## Static writes as instructions and as statements -/

/-- The record that a static write leaves, whatever it writes. -/
def StackOp.staticTouch? (op : StackOp) : Option Touch :=
  match op.effect with
  | .putField f =>
    if f.isStatic then
      some { line := op.line, target := (Variable.field f).text } else none
  | _ => none

/-- The record that a write without a receiver leaves. -/
def Statement.staticTouch? : Statement → Option Touch
  | .putField line none target _ =>
    some { line, target := (Variable.field target).text }
  | _ => none

/-- An instruction and its statements leave the same record. -/
theorem StackOp.staticTouch?_of_statement?
    {op : StackOp} {input : List Variable} {s : Statement}
    (h : op.statement? input = some (some s)) :
    s.staticTouch? = op.staticTouch? := by
  obtain ⟨line, effect⟩ := op
  cases effect with
  | putField f =>
      simp only [statement?, StackEffect.statement?] at h
      cases hstatic : f.isStatic with
      | true =>
          simp only [hstatic, if_true] at h
          obtain ⟨value, _, h⟩ := Option.bind_eq_some_iff.1 h
          obtain rfl := Option.some.inj (Option.some.inj h)
          simp [staticTouch?, Statement.staticTouch?, hstatic]
      | false =>
          simp only [hstatic, Bool.false_eq_true, if_false] at h
          obtain ⟨receiver, _, h⟩ := Option.bind_eq_some_iff.1 h
          obtain ⟨value, _, h⟩ := Option.bind_eq_some_iff.1 h
          obtain rfl := Option.some.inj (Option.some.inj h)
          simp [staticTouch?, Statement.staticTouch?, hstatic]
  | store v =>
      obtain ⟨value, _, h⟩ := Option.bind_eq_some_iff.1 h
      obtain rfl := Option.some.inj (Option.some.inj h)
      rfl
  | arrayStore element =>
      obtain ⟨array, _, h⟩ := Option.bind_eq_some_iff.1 h
      obtain ⟨index, _, h⟩ := Option.bind_eq_some_iff.1 h
      obtain ⟨value, _, h⟩ := Option.bind_eq_some_iff.1 h
      obtain rfl := Option.some.inj (Option.some.inj h)
      rfl
  | invoke target =>
      simp only [statement?, StackEffect.statement?] at h
      split at h
      · obtain ⟨found, _, h⟩ := Option.bind_eq_some_iff.1 h
        obtain rfl := Option.some.inj (Option.some.inj h)
        rfl
      · obtain ⟨receiver, _, h⟩ := Option.bind_eq_some_iff.1 h
        obtain ⟨found, _, h⟩ := Option.bind_eq_some_iff.1 h
        obtain rfl := Option.some.inj (Option.some.inj h)
        rfl
  | load | transform | getField | arrayLoad | duplicate | duplicatePair | swap
  | pop | leave
  | raise => cases h

/-- A static write stands for a statement on every list of operands. -/
theorem StackOp.isSome_of_staticTouch? {op : StackOp} {touch : Touch}
    (htouch : op.staticTouch? = some touch) {input : List Variable}
    {s : Option Statement} (h : op.statement? input = some s) : s.isSome := by
  obtain ⟨line, effect⟩ := op
  cases effect with
  | putField f =>
      cases hstatic : f.isStatic with
      | true =>
          simp only [statement?, StackEffect.statement?, hstatic, if_true] at h
          obtain ⟨value, _, h⟩ := Option.bind_eq_some_iff.1 h
          obtain rfl := Option.some.inj h
          rfl
      | false => simp [staticTouch?, hstatic] at htouch
  | load | store | transform | getField | arrayLoad | arrayStore | invoke
  | duplicate
  | duplicatePair | swap | pop | leave | raise => cases htouch

/-! ## Static writes of a graph -/

/-- A static write in a block, with the record that it leaves. -/
structure StaticWrite where
  block : BlockId
  index : Nat
  touch : Touch

namespace FlowGraph

/-- The static writes of the blocks that run, in the order in which they run. -/
def staticWrites (g : FlowGraph) : List StaticWrite :=
  g.order.flatMap fun b => (List.range (g.block b).ops.length).flatMap fun i =>
    (((g.block b).ops[i]?.bind StackOp.staticTouch?).map
      (StaticWrite.mk b i)).toList

variable {g : FlowGraph}

theorem mem_staticWrites_iff (hg : g.WellFormed) (w : StaticWrite) :
    w ∈ g.staticWrites ↔ g.Reachable w.block ∧
      ∃ op, (g.block w.block).ops[w.index]? = some op ∧ op.staticTouch? =
        some w.touch := by
  obtain ⟨b, i, touch⟩ := w
  simp only [staticWrites, List.mem_flatMap, List.mem_range, Option.mem_toList,
    Option.map_eq_some_iff, Option.bind_eq_some_iff, StaticWrite.mk.injEq,
    g.mem_order_iff hg]
  constructor
  · rintro ⟨b', hb, i', _, touch', ⟨op, hop, htouch⟩, rfl, rfl, rfl⟩
    exact ⟨hb, op, hop, htouch⟩
  · rintro ⟨hb, op, hop, htouch⟩
    exact ⟨b, hb, i, (List.getElem?_eq_some_iff.1 hop).1, touch,
      ⟨op, hop, htouch⟩, rfl, rfl, rfl⟩

theorem nodup_staticWrites (g : FlowGraph) : g.staticWrites.Nodup := by
  have hmem : ∀ {b i} {w : StaticWrite},
      w ∈ (((g.block b).ops[i]?.bind StackOp.staticTouch?).map
        (StaticWrite.mk b i)).toList →
        w.block = b ∧ w.index = i := by
    intro b i w hw
    obtain ⟨touch, _, rfl⟩ := Option.map_eq_some_iff.1 (Option.mem_toList.1 hw)
    exact ⟨rfl, rfl⟩
  refine List.nodup_flatMap.2 ⟨?_, ?_⟩
  · intro b _
    refine List.nodup_flatMap.2 ⟨fun i _ => ?_, ?_⟩
    · cases ((g.block b).ops[i]?.bind StackOp.staticTouch?).map
        (StaticWrite.mk b i) <;> simp
    · refine List.nodup_range.imp fun {i j} hne => ?_
      intro w hi hj
      exact hne ((hmem hi).2.symm.trans (hmem hj).2)
  · refine g.nodup_order.imp fun {a b} hne => ?_
    intro w ha hb
    obtain ⟨i, _, hi⟩ := List.mem_flatMap.1 ha
    obtain ⟨j, _, hj⟩ := List.mem_flatMap.1 hb
    exact hne ((hmem hi).1.symm.trans (hmem hj).1)

theorem staticTouches_emittedAt {x : Execution} (hx : g.execute = .ok x)
    {b : BlockId} (hb : b ∈ g.order) {i : Nat} {op : StackOp}
    (hop : (g.block b).ops[i]? = some op) :
    (g.emittedAt b i).filterMap Statement.staticTouch? =
      ((op.staticTouch?.map (StaticWrite.mk b i)).toList).flatMap fun w =>
        List.replicate (g.emittedAt w.block w.index).length w.touch := by
  have hconst : (g.emittedAt b i).filterMap Statement.staticTouch? =
      (g.emittedAt b i).filterMap fun _ => op.staticTouch? := by
    apply List.filterMap_congr
    intro s hs
    obtain ⟨input, hinput, _⟩ := exists_statement?_of_mem_emittedAt hx hb hop hs
    exact StackOp.staticTouch?_of_statement? hinput
  rw [hconst]
  cases op.staticTouch? with
  | none => simp
  | some touch => simp [List.map_const']

theorem staticTouches_statements {answer : List Statement}
    (h : g.statements = .ok answer) :
    answer.filterMap Statement.staticTouch? = g.staticWrites.flatMap fun w =>
      List.replicate (g.emittedAt w.block w.index).length w.touch := by
  obtain ⟨x, hx, rfl⟩ := exists_execute h
  rw [statements_eq_flatMap hx, List.filterMap_flatMap, staticWrites,
    List.flatMap_assoc]
  apply List.flatMap_congr
  intro b hb
  rw [emittedBy, List.filterMap_flatMap, List.flatMap_assoc]
  apply List.flatMap_congr
  intro i hi
  have hop := List.getElem?_eq_getElem (List.mem_range.1 hi)
  rw [staticTouches_emittedAt hx hb hop, hop]
  rfl

/-- A static write that runs stands for a statement for each distinct list of
operands that paths bring, and there is one at least. -/
theorem exists_operandLists_of_staticWrite {x : Execution}
    (hx : g.execute = .ok x) {b : BlockId} (hb : b ∈ g.order) {i : Nat}
    {op : StackOp} (hop : (g.block b).ops[i]? = some op) {touch : Touch}
    (htouch : op.staticTouch? = some touch) :
    ∃ tops, tops ≠ [] ∧ (g.emittedAt b i).length = tops.length ∧
      (g.FieldsAgree → g.OperandLists b i op tops) := by
  obtain ⟨ran, rest, horder⟩ := List.append_of_mem hb
  obtain ⟨y, z, hy, hz, hran⟩ := exists_ran hx horder hop
  obtain ⟨tops, found, hfound, hadded, htops, hne, _⟩ := hran.statements
  have hforall := forall₂_of_mapM_eq_some hfound
  have hsome : ∀ s ∈ found, s.isSome := by
    intro s hs
    obtain ⟨j, hj, rfl⟩ := List.mem_iff_getElem.1 hs
    have hstatement := hforall.get (hforall.length_eq ▸ hj) hj
    exact StackOp.isSome_of_staticTouch? htouch hstatement
  refine ⟨tops, hne, ?_, htops⟩
  rw [emittedAt_eq hy hz hadded, hforall.length_eq]
  exact List.filterMap_length_eq_length.2 hsome

end FlowGraph

/-! ## What an analysis records -/

/-- The record that a statement adds at its node. -/
def Moment.touch? (x : Moment) : Option Touch :=
  match x.statement with
  | .putField line receiver target value =>
    if receiver.all (x.state.assign (.field target) value).isGlobal then
      some { line, target := (Variable.field target).text }
    else none
  | .putElement line array _ value =>
    if (x.state.assign array value).isGlobal array then
      some { line, target := array.text }
    else none
  | .assign _ _ _ | .invoke _ => none

/-- A static write is recorded whatever is known of the variables. -/
theorem Moment.touch?_of_staticTouch? {x : Moment} {touch : Touch}
    (h : x.statement.staticTouch? = some touch) : x.touch? = some touch := by
  obtain ⟨a, node, statement⟩ := x
  cases statement with
  | putField line receiver target value =>
      cases receiver with
      | none => exact h
      | some receiver => cases h
  | assign | putElement | invoke => cases h

namespace Analysis

variable {a b : Analysis}

/-- Calls record no writes. -/
theorem touches_invoke (a : Analysis) (caller : NodeId) (call : Invocation)
    (id : NodeId) :
    ((a.invoke caller call).graph.node id).touches =
      (a.graph.node id).touches := by
  rw [graph_invoke]
  cases a.charged? call with
  | none => rfl
  | some entry =>
      exact (CostGraph.touches_addCall _ _ _ _ id).trans
        (a.graph.touches_add entry.2 id)

/-- A statement records at its own node, and at no other. -/
theorem touches_apply {node : NodeId} (hnode : node < a.graph.nodes.size)
    (s : Statement) (id : NodeId) :
    ((apply node a s).graph.node id).touches =
      (a.graph.node id).touches ++ if id = node then
        (Moment.touch? ⟨a, node, s⟩).toList else [] := by
  cases s with
  | assign line target value =>
      show ((a.assign target value).graph.node id).touches = _
      rw [(factsOnly_assign a target value).graph]
      simp [Moment.touch?]
  | invoke call =>
      show ((a.invoke node call).graph.node id).touches = _
      rw [touches_invoke]
      simp [Moment.touch?]
  | putField line receiver target value =>
      show ((a.putField node line receiver target value).graph.node
        id).touches = _
      rw [graph_putField]
      unfold Moment.touch?
      dsimp only
      split
      · exact a.graph.touches_addTouch hnode line (.field target) id
      · simp
  | putElement line array index value =>
      show ((a.putElement node line array value).graph.node id).touches = _
      rw [graph_putElement]
      unfold Moment.touch?
      dsimp only
      split
      · exact a.graph.touches_addTouch hnode line array id
      · simp

theorem touches_foldl {node : NodeId} (hnode : node < a.graph.nodes.size)
    (statements : List Statement) (id : NodeId) :
    ((statements.foldl (apply node) a).graph.node id).touches =
      (a.graph.node id).touches ++
        if id = node then (moments node a statements).filterMap Moment.touch?
          else [] := by
  induction statements generalizing a with
  | nil => simp [moments]
  | cons s statements ih =>
      rw [List.foldl_cons, ih ((grows_apply node a s).lt_size hnode),
        touches_apply hnode, moments, List.append_assoc]
      congr 1
      split
      · cases hs : Moment.touch? ⟨a, node, s⟩ <;> simp [hs]
      · rfl

/-- Analysing a method records what its statements record, at its node. -/
theorem touches_analyse (a : Analysis) (m : Method) (id : NodeId) :
    ((a.analyse m).graph.node id).touches =
      (a.graph.node id).touches ++
        if id = (a.graph.add m).2 then
          (Turn.moments ⟨a, m⟩).filterMap Moment.touch? else [] := by
  rw [analyse_eq, touches_foldl (a.graph.add_snd_lt m), Turn.moments]
  congr 1
  exact a.graph.touches_add m id

end Analysis

/-- The records that a turn adds for its static writes. -/
def Turn.staticTouches (t : Turn) : List Touch :=
  (t.moments.filter fun x => x.statement.staticTouch?.isSome).filterMap
    Moment.touch?

theorem Turn.staticTouches_eq (t : Turn) :
    t.staticTouches = t.method.statements.filterMap Statement.staticTouch? := by
  have hstatements := Analysis.map_statement_moments
    (t.state.graph.add t.method).2 (t.state.opened t.method) t.method.statements
  rw [← hstatements, List.filterMap_map, staticTouches, List.filterMap_filter]
  apply List.filterMap_congr
  intro x _
  cases htouch : x.statement.staticTouch? with
  | none => simp [htouch]
  | some touch => simp [htouch, Moment.touch?_of_staticTouch? htouch]

/-- Where every entry counts at least once, the counts add up to the number of
entries only if each of them is one. -/
theorem length_flatMap_replicate {α β : Type} {entries : List α}
    {count : α → Nat} (h : ∀ e ∈ entries, 0 < count e) (value : α → β) :
    entries.length ≤
      (entries.flatMap fun e => List.replicate (count e) (value e)).length ∧
      ((entries.flatMap fun e => List.replicate (count e) (value e)).length =
        entries.length ↔
        ∀ e ∈ entries, count e = 1) := by
  induction entries with
  | nil => simp
  | cons e entries ih =>
      obtain ⟨hle, hiff⟩ := ih fun e he => h e (List.mem_cons_of_mem _ he)
      have hpos := h e List.mem_cons_self
      rw [List.flatMap_cons, List.length_append, List.length_replicate,
        List.length_cons, List.forall_mem_cons, ← hiff]
      omega

/-- Of a method that was decoded: its static writes are recorded at its node,
each at its line and at least once, so the records are no fewer than the writes.
If fields agree in its graph, a write is recorded once for every distinct list
of operands that paths bring, so the records are as many as the writes exactly
if every write has a single list. -/
theorem static_writes_recorded_by_operands {header : MethodHeader}
    {listing : Option Listing} {m : Method}
    (h : Method.decode header listing = .ok m) (a : Analysis) :
    ∃ type body, BodyState.typeOf header.descriptor = .ok type ∧
      BodyState.run
        { slots := (Method.parametersOf header type (listing.getD {}).names).1 }
        (listing.getD {}) = .ok body ∧
      (∀ id, ((a.analyse m).graph.node id).touches =
        (a.graph.node id).touches ++ if id = (a.graph.add m).2 then
          (Turn.moments ⟨a, m⟩).filterMap Moment.touch? else []) ∧
      Turn.staticTouches ⟨a, m⟩ = body.graph.staticWrites.flatMap (fun w =>
        List.replicate (body.graph.emittedAt w.block w.index).length w.touch) ∧
      body.graph.staticWrites.Nodup ∧
      (∀ w, w ∈ body.graph.staticWrites ↔ body.graph.Reachable w.block ∧ ∃ op,
        (body.graph.block w.block).ops[w.index]? = some op ∧
          op.staticTouch? = some w.touch) ∧
      (∀ w ∈ body.graph.staticWrites, ∀ op,
        (body.graph.block w.block).ops[w.index]? = some op →
        ∃ tops, tops ≠ [] ∧ (body.graph.emittedAt w.block w.index).length =
          tops.length ∧
          (body.graph.FieldsAgree →
            body.graph.OperandLists w.block w.index op tops)) ∧
      body.graph.staticWrites.length ≤ (Turn.staticTouches ⟨a, m⟩).length ∧
      ((Turn.staticTouches ⟨a, m⟩).length = body.graph.staticWrites.length ↔
        ∀ w ∈ body.graph.staticWrites,
          (body.graph.emittedAt w.block w.index).length = 1) := by
  obtain ⟨type, body, htype, hrun, hstatements, _⟩ := Method.exists_of_decode h
  obtain ⟨x, hx, _⟩ := FlowGraph.exists_execute hstatements
  have hg : body.graph.WellFormed := FlowGraph.wellFormed_ofEvents _
  have htouches : Turn.staticTouches ⟨a, m⟩ = _ := (Turn.staticTouches_eq ⟨a,
    m⟩).trans (FlowGraph.staticTouches_statements hstatements)
  have hlists : ∀ w ∈ body.graph.staticWrites, ∀ op,
      (body.graph.block w.block).ops[w.index]? = some op →
      ∃ tops, tops ≠ [] ∧ (body.graph.emittedAt w.block w.index).length =
        tops.length ∧
        (body.graph.FieldsAgree →
          body.graph.OperandLists w.block w.index op tops) := by
    intro w hw op hop
    obtain ⟨hreachable, op', hop', htouch⟩ :=
      (FlowGraph.mem_staticWrites_iff hg w).1 hw
    obtain rfl := Option.some.inj (hop.symm.trans hop')
    exact FlowGraph.exists_operandLists_of_staticWrite hx
      ((body.graph.mem_order_iff hg w.block).2 hreachable) hop htouch
  have hpos : ∀ w ∈ body.graph.staticWrites,
      0 < (body.graph.emittedAt w.block w.index).length := by
    intro w hw
    obtain ⟨_, op, hop, _⟩ := (FlowGraph.mem_staticWrites_iff hg w).1 hw
    obtain ⟨tops, hne, hlength, _⟩ := hlists w hw op hop
    rw [hlength]
    exact List.length_pos_of_ne_nil hne
  have hcount := length_flatMap_replicate hpos StaticWrite.touch
  rw [← htouches] at hcount
  exact ⟨type, body, htype, hrun, a.touches_analyse m,
    htouches, body.graph.nodup_staticWrites, FlowGraph.mem_staticWrites_iff hg,
    hlists, hcount⟩

namespace Choice

/-- A method that writes one of two constants to a static field, at line 1. -/
def header : MethodHeader where
  owner := "p.A"
  name := "run"
  descriptor := "(I)V"
  visibility := .publicAccess
  isStatic := true

def listing : Listing where
  events :=
    [.line 1, .instruction ⟨0, 21, .slot 0⟩, .instruction ⟨1, 158, .jump 8⟩,
     .instruction ⟨4, 4, .none⟩, .instruction ⟨5, 167, .jump 9⟩,
     .label 8, .instruction ⟨8, 5, .none⟩,
     .label 9, .instruction ⟨9, 179, .field ⟨"p.A", "X", "I"⟩⟩,
       .instruction ⟨12, 177, .none⟩]

def target : Field :=
  { owner := "p.A", name := "X", type := .int, isStatic := true,
    isPrivate := false }

def run : Method where
  toMethodHeader := header
  receiver := none
  parameters :=
    [.parameter { scope := "p.A.run(I)V", ordinal := 0, name := "param_0",
                  type := .int }]
  locals := []
  complexity := 2
  startingLine := 1
  statements :=
    [.putField 1 none target (.constant { value := "1", type := .int }),
     .putField 1 none target (.constant { value := "2", type := .int })]

/-- The body as it is decoded. -/
def body : Except (Nat × CodeFault) BodyState :=
  BodyState.run
    { slots := (Method.parametersOf header ⟨[.int], .void⟩ []).1 } listing

/-- An analysis that has met nothing. -/
def start : Analysis where
  repository := { source := .table [] }
  whitelist := .standard
  className := "p.A"

theorem decode_run : Method.decode header (some listing) = .ok run := by cbv

theorem typeOf_header :
    BodyState.typeOf header.descriptor = .ok ⟨[.int], .void⟩ := by cbv

theorem run_recorded_by_operands :
    Method.decode header (some listing) = .ok run ∧ ∃ b, body = .ok b ∧
      Turn.staticTouches ⟨start, run⟩ = b.graph.staticWrites.flatMap (fun w =>
        List.replicate (b.graph.emittedAt w.block w.index).length w.touch) ∧
      ((Turn.staticTouches ⟨start, run⟩).length = b.graph.staticWrites.length ↔
        ∀ w ∈ b.graph.staticWrites,
          (b.graph.emittedAt w.block w.index).length = 1) := by
  obtain ⟨type, b, htype, hrun, _, htouches, _, _, _, _, hcount⟩ :=
    static_writes_recorded_by_operands decode_run start
  obtain rfl := Except.ok.inj (typeOf_header.symm.trans htype)
  exact ⟨decode_run, b, hrun, htouches, hcount⟩

/-- There is one static write in the code, and two records of it. -/
theorem one_write_recorded_twice :
    Method.decode header (some listing) = .ok run ∧
      body.map (fun b => b.graph.staticWrites) =
        .ok [⟨3, 0, { line := 1, target := "p.A.X" }⟩] ∧
      (start.analyse run).graph.nodes.map MethodCost.touches =
        #[[{ line := 1, target := "p.A.X" },
          { line := 1, target := "p.A.X" }]] :=
  ⟨decode_run, by cbv, by decide +kernel⟩

end Choice

end TestCost
