import TestCost.Proofs.Analysis.Once

/-!
# Calls that a test cannot intercept

A test can step in between a call and its callee only by passing in a receiver
that overrides the method. Any other call is charged to its caller: it becomes
an edge of the cost graph, in the order of statements and at its line, and the
callee is analysed before the visit that met the call comes back. What was
recorded stays recorded (`Extends`), so at the end the caller costs at least
what the callee costs.

Whether a call can be intercepted is decided with what is known when its caller
has its turn. `Unavoidable` says it of that moment, without bounds on the walk
up the superclasses.

## Main results

* `calls_analyse` — the calls that analysing a method records.
* `Housed` — every node is that of a method which has had its turn or waits.
* `unavoidable_calls_charged` — of every run and every method that has its turn
  in it.
-/

namespace TestCost

/-- The edge that a statement adds to the cost graph. -/
def Moment.edge? (x : Moment) : Option Call :=
  match x.statement with
  | .invoke call =>
    (x.state.charged? call).map fun entry =>
      ⟨call.line, (x.state.graph.add entry.2).2⟩
  | _ => none

/-- The node that a method has in its turn. -/
def Turn.node (t : Turn) : NodeId := (t.state.graph.add t.method).2

/-- The statement is a call that counts and resolves to `m`, and a test cannot
step in: `m` cannot be overridden, or no receiver is injectable. -/
structure Unavoidable (s : ClassSource) (w : Whitelist) (x : Moment)
    (call : Invocation) (m : Method) : Prop where
  statement : x.statement = .invoke call
  unlisted : w.covers call.owner = false
  notArray : Text.startsWith call.owner "[" = false
  resolved : ∃ names c,
    s.Walk w call.signature call.owner names (.ok (some c)) ∧
    c.method? call.signature = some m
  fixed : m.isStatic = true ∨ m.isPrivate = true ∨ m.isConstructor = true ∨
    ∀ v, call.receiver = some v → x.state.isInjectable v = false

namespace Analysis

variable {a b c : Analysis}

/-! ## What calls record -/

theorem calls_apply {node : NodeId} (hnode : node < a.graph.nodes.size)
    (s : Statement) (id : NodeId) :
    ((apply node a s).graph.node id).calls =
      (a.graph.node id).calls ++ if id = node then
        (Moment.edge? ⟨a, node, s⟩).toList else [] := by
  cases s with
  | assign line target value =>
      show ((a.assign target value).graph.node id).calls = _
      rw [(factsOnly_assign a target value).graph]
      simp [Moment.edge?]
  | putField line receiver target value =>
      show ((a.putField node line receiver target value).graph.node id).calls =
        _
      rw [graph_putField]
      split <;> simp [Moment.edge?]
  | putElement line array index value =>
      show ((a.putElement node line array value).graph.node id).calls = _
      rw [graph_putElement]
      split <;> simp [Moment.edge?]
  | invoke call =>
      show ((a.invoke node call).graph.node id).calls = _
      rw [graph_invoke]
      unfold Moment.edge?
      dsimp only
      cases a.charged? call with
      | none => simp
      | some entry =>
          have hsize := a.graph.lt_size_add hnode entry.2
          show ((((a.graph.add entry.2).1.addCall node call.line _).node
            id).calls) = _
          rw [CostGraph.calls_addCall, CostGraph.calls_add]
          by_cases hid : id = node
          · rw [if_pos ⟨hid, hid ▸ hsize⟩, if_pos hid]
            rfl
          · rw [if_neg (fun hboth => hid hboth.1), if_neg hid]

theorem calls_foldl {node : NodeId} (hnode : node < a.graph.nodes.size)
    (statements : List Statement) (id : NodeId) :
    ((statements.foldl (apply node) a).graph.node id).calls =
      (a.graph.node id).calls ++
        if id = node then (moments node a statements).filterMap Moment.edge?
          else [] := by
  induction statements generalizing a with
  | nil => simp [moments]
  | cons s statements ih =>
      rw [List.foldl_cons, ih ((grows_apply node a s).lt_size hnode),
        calls_apply hnode, moments, List.append_assoc]
      congr 1
      split
      · cases hs : Moment.edge? ⟨a, node, s⟩ <;> simp [hs]
      · rfl

/-- Analysing a method records the calls of its statements, at its node. -/
theorem calls_analyse (t : Turn) (id : NodeId) :
    ((t.state.analyse t.method).graph.node id).calls =
      (t.state.graph.node id).calls ++
        if id = t.node then t.moments.filterMap Moment.edge? else [] := by
  rw [analyse_eq, calls_foldl (t.state.graph.add_snd_lt t.method), Turn.moments]
  congr 1
  exact t.state.graph.calls_add t.method id

/-! ## Records stay -/

/-- The second state has all nodes and calls of the first one, in their places.
-/
structure Extends (a b : Analysis) : Prop where
  names : a.graph.names <+: b.graph.names
  calls : ∀ id, (a.graph.node id).calls <+: (b.graph.node id).calls

theorem Extends.refl (a : Analysis) : Extends a a :=
  ⟨List.prefix_rfl, fun _ => List.prefix_rfl⟩

theorem Extends.trans (h : Extends a b) (h' : Extends b c) : Extends a c :=
  ⟨h.names.trans h'.names, fun id => (h.calls id).trans (h'.calls id)⟩

theorem Extends.getElem?_names (h : Extends a b) {id : NodeId} {name : String}
    (hid : a.graph.names[id]? = some name) :
    b.graph.names[id]? = some name := by
  obtain ⟨more, hmore⟩ := h.names
  have hlt := (List.getElem?_eq_some_iff.1 hid).1
  rw [← hmore, List.getElem?_append_left hlt]
  exact hid

theorem Grows.extends {new : List (ClassModel × Method)} (h : Grows a new b)
    (hcalls : ∀ id, (a.graph.node id).calls <+: (b.graph.node id).calls) :
    Extends a b :=
  ⟨⟨_, h.names.symm⟩, hcalls⟩

theorem extends_withQueue (a : Analysis) (queue : List (ClassModel × String)) :
    Extends a (a.withQueue queue) :=
  ⟨List.prefix_rfl, fun _ => List.prefix_rfl⟩

theorem extends_begin (a : Analysis) (op : Operation) :
    Extends a (a.begin op) := by
  refine (a.grows_begin op).extends fun id => ?_
  cases op with
  | setInjectable v => exact List.prefix_rfl
  | setMethodInjectable m =>
      show _ <+: ((a.setMethodInjectable m).graph.node id).calls
      rw [(factsOnly_setMethodInjectable a m).graph]
  | assign target source =>
      show _ <+: ((a.assign target source).graph.node id).calls
      rw [(factsOnly_assign a target source).graph]
  | putField writer line receiver target value =>
      show _ <+:
        ((a.putField writer line receiver target value).graph.node id).calls
      rw [graph_putField]
      split <;> simp
  | putElement writer line array value =>
      show _ <+: ((a.putElement writer line array value).graph.node id).calls
      rw [graph_putElement]
      split <;> simp
  | addCall caller line callee =>
      show _ <+: ((a.graph.addCall caller line callee).node id).calls
      rw [CostGraph.calls_addCall]
      exact List.prefix_append _ _
  | visit c m =>
      show _ <+: ((a.enqueue c m).1.graph.node id).calls
      rw [(graph_enqueue a c m).1, CostGraph.calls_add]

theorem extends_opened (a : Analysis) (m : Method) :
    Extends a (a.opened m) := by
  constructor
  · show _ <+: (a.graph.add m).1.names
    rw [a.graph.names_add]
    split
    · exact List.prefix_rfl
    · exact List.prefix_append _ _
  · intro id
    show _ <+: ((a.graph.add m).1.node id).calls
    rw [a.graph.calls_add]

theorem extends_apply {node : NodeId} (hnode : node < a.graph.nodes.size)
    (s : Statement) :
    Extends a (apply node a s) := by
  refine (grows_apply node a s).extends fun id => ?_
  rw [calls_apply hnode]
  exact List.prefix_append _ _

theorem extends_foldl {node : NodeId} (hnode : node < a.graph.nodes.size)
    (statements : List Statement) :
    Extends a (statements.foldl (apply node) a) := by
  induction statements generalizing a with
  | nil => exact .refl a
  | cons s statements ih =>
      exact (extends_apply hnode s).trans
        (ih ((grows_apply node a s).lt_size hnode))

theorem extends_analyse (a : Analysis) (m : Method) :
    Extends a (a.analyse m) := by
  rw [analyse_eq]
  exact (a.extends_opened m).trans
    (extends_foldl (a.graph.add_snd_lt m) m.statements)

theorem Drains.extends {turns : List Turn} (h : Drains a turns b) :
    Extends a b ∧ ∀ t ∈ turns, Extends (t.state.analyse t.method) b := by
  induction h with
  | @done a _ => exact ⟨.refl a, by simp⟩
  | skip _ _ _ ih => exact ⟨(extends_withQueue _ _).trans ih.1, ih.2⟩
  | @turn a _ _ _ rest m _ _ _ _ ih =>
      have hanalysed :=
        (a.extends_withQueue rest).trans ((a.withQueue rest).extends_analyse m)
      refine ⟨hanalysed.trans ih.1, ?_⟩
      intro t ht
      rcases List.mem_cons.1 ht with rfl | ht
      · exact ih.1
      · exact ih.2 t ht

theorem Performed.extends {ops : List Operation} {turns : List Turn}
    (h : Performed a ops turns b) :
    Extends a b ∧ ∀ t ∈ turns, Extends (t.state.analyse t.method) b := by
  induction h with
  | nil a => exact ⟨.refl a, by simp⟩
  | cons hturns _ ih =>
      have hfirst := hturns.extends
      refine ⟨((extends_begin _ _).trans hfirst.1).trans ih.1, ?_⟩
      intro t ht
      rcases List.mem_append.1 ht with ht | ht
      · exact (hfirst.2 t ht).trans ih.1
      · exact ih.2 t ht

/-- A moment of a turn is at the node of the turn, and what it records is there
when the turn ends. -/
theorem extends_of_mem_moments {node : NodeId}
    (hnode : node < a.graph.nodes.size) {statements : List Statement}
    {x : Moment} (hx : x ∈ moments node a statements) :
    x.node = node ∧
      Extends (apply node x.state x.statement)
        (statements.foldl (apply node) a) := by
  induction statements generalizing a with
  | nil => simp [moments] at hx
  | cons s statements ih =>
      have hsize := (grows_apply node a s).lt_size hnode
      rcases List.mem_cons.1 hx with rfl | hx
      · exact ⟨rfl, extends_foldl hsize statements⟩
      · exact ih hsize hx

/-! ## Nodes and methods -/

/-- A method of the source, or one that a visit leads to. -/
def Known (s : ClassSource) (ops : List Operation) (m : Method) : Prop :=
  m ∈ s.declared ∨ ∃ c n, .visit c n ∈ ops ∧ c.method? n.signature = some m

theorem Known.mono {s : ClassSource} {ops more : List Operation} {m : Method}
    (h : Known s ops m) (hsub : ops ⊆ more) : Known s more m := by
  rcases h with hdeclared | ⟨c, n, hvisit, hm⟩
  · exact .inl hdeclared
  · exact .inr ⟨c, n, hsub hvisit, hm⟩

/-- A class has a method under the signature of the visited one, of the same
full name. -/
def Visitable (op : Operation) : Prop :=
  ∀ c m, op = .visit c m →
    ∃ n, c.method? m.signature = some n ∧ n.fullName = m.fullName

/-- The statement is about to be applied over the source, and the method that
it is charged for has a node by now. -/
structure Entered (s : ClassSource) (w : Whitelist) (names : List String)
    (x : Moment) : Prop extends Over s w x.state where
  charged : ∀ c m, x.state.chargedBy? x.statement = some (c, m) →
    m ∈ s.declared ∧ m.fullName ∈ names

/-- The nodes are those of methods that have had their turn and of methods that
wait. -/
structure Housed (s : ClassSource) (w : Whitelist) (past : History)
    (a : Analysis) : Prop where
  housed : ∀ name, name ∈ a.graph.names ↔
    ∃ m ∈ past.turns.map Turn.method ++ a.waiting, m.fullName = name
  known : ∀ m ∈ past.turns.map Turn.method ++ a.waiting,
    Known s past.operations m
  entered : ∀ x ∈ past.moments, Entered s w a.graph.names x

variable {s : ClassSource} {w : Whitelist} {past next : History}

theorem housed_empty (r : Repository) (w : Whitelist) (name : String) :
    Housed r.source w {}
      { repository := r, whitelist := w, className := name } where
  housed name := by simp [CostGraph.names, waiting]
  known := by simp [waiting]
  entered := by simp

theorem names_subset {new : List (ClassModel × Method)} (h : Grows a new b) :
    a.graph.names ⊆ b.graph.names := by
  rw [h.names]
  exact List.subset_append_left _ _

theorem Entered.mono {names more : List String} {x : Moment}
    (h : Entered s w names x) (hsub : names ⊆ more) : Entered s w more x :=
  ⟨h.toOver, fun c m hm => ⟨(h.charged c m hm).1, hsub (h.charged c m hm).2⟩⟩

/-- A method is met: if it has no node it comes in, and waits under its name. -/
theorem Housed.grow (h : Housed s w past a)
    {met : Option (ClassModel × Method)} (hgrows : Grows a (a.fresh met) b)
    (hmet : ∀ c m, met = some (c, m) → ∃ n, c.method? m.signature = some n ∧
      n.fullName = m.fullName ∧ Known s next.operations n)
    (hturns : next.turns = past.turns)
    (hops : past.operations ⊆ next.operations)
    (hentered : ∀ x ∈ next.moments, Entered s w b.graph.names x) :
    Housed s w next b := by
  rcases a.fresh_cases met with ⟨hnone, _⟩ | ⟨c, m, hone, hmet', hnew⟩
  · rw [hnone] at hgrows
    have hnames : b.graph.names = a.graph.names := by simpa using hgrows.names
    have hqueue : b.queue = a.queue := by simpa using hgrows.queue
    have hwaiting : b.waiting = a.waiting := by rw [waiting, waiting, hqueue]
    refine ⟨?_, ?_, hentered⟩
    · rw [hnames, hturns, hwaiting]
      exact h.housed
    · rw [hturns, hwaiting]
      exact fun n hn => (h.known n hn).mono hops
  · rw [hone] at hgrows
    obtain ⟨n, hn, hname, hknown⟩ := hmet c m hmet'
    have hnames : b.graph.names = a.graph.names ++ [m.fullName] := hgrows.names
    have hqueue : b.queue = (c, m.signature) :: a.queue := hgrows.queue
    have hwaiting : b.waiting = n :: a.waiting := by simp [waiting, hqueue, hn]
    refine ⟨?_, ?_, hentered⟩
    · intro name
      rw [hnames, hturns, hwaiting, List.mem_append, h.housed,
        List.mem_singleton, ← hname]
      simp only [List.mem_append, List.mem_cons]
      grind
    · rw [hturns, hwaiting]
      intro k hk
      rcases List.mem_cons.1 (List.perm_middle.mem_iff.1 hk) with rfl | hk
      · exact hknown
      · exact (h.known k hk).mono hops

theorem Housed.turn (h : Housed s w past a) {c : ClassModel}
    {signature : String} {rest : List (ClassModel × String)} {m : Method}
    (hqueue : a.queue = (c, signature) :: rest)
    (hm : c.method? signature = some m) :
    Housed s w { past with turns := past.turns ++ [⟨a.withQueue rest, m⟩] }
      ((a.withQueue rest).opened m) := by
  have hlist := turns_append_waiting hqueue hm past.turns
  have hnode : m.fullName ∈ a.graph.names := by
    refine (h.housed _).2 ⟨m, ?_, rfl⟩
    rw [waiting_cons hqueue hm]
    simp
  have hnames : ((a.withQueue rest).opened m).graph.names = a.graph.names :=
    names_opened hnode
  refine ⟨?_, ?_, hnames ▸ h.entered⟩
  · rw [hnames]
    show ∀ name, name ∈ a.graph.names ↔
      ∃ n ∈ (past.turns ++ [(⟨a.withQueue rest, m⟩ : Turn)]).map Turn.method ++
        (a.withQueue rest).waiting, n.fullName = name
    rw [hlist]
    exact h.housed
  · show ∀ n ∈ (past.turns ++ [(⟨a.withQueue rest, m⟩ : Turn)]).map
      Turn.method ++ (a.withQueue rest).waiting, Known s past.operations n
    rw [hlist]
    exact h.known

theorem housed_preserved :
    Preserves Visitable fun past a => Filed s w a ∧ Housed s w past a := by
  refine (filed_preserved ?_).and ?_
  · intro c m hop
    obtain ⟨n, hn, _⟩ := hop c m rfl
    rw [hn]
    rfl
  constructor
  case operation =>
    intro past a op hop _ h
    have hgrows := a.grows_begin op
    refine h.grow hgrows ?_ rfl (List.subset_append_left _ _)
      fun x hx => (h.entered x hx).mono (names_subset hgrows)
    intro c m hvisited
    obtain rfl := Operation.eq_visit_of_visited? hvisited
    obtain ⟨n, hn, hname⟩ := hop c m rfl
    have hmem : Operation.visit c m ∈ past.operations ++ [.visit c m] :=
      List.mem_append_right _ (List.mem_singleton_self _)
    exact ⟨n, hn, hname, .inr ⟨c, m, hmem, hn⟩⟩
  case skip =>
    intro past a c signature rest hfiled _ hqueue hnone
    exact absurd hnone (hfiled.method?_ne_none hqueue)
  case turn =>
    intro past a c signature rest m _ h hqueue hm
    exact h.turn hqueue hm
  case moment =>
    intro past t x hfiled h _ _
    have hgrows := grows_apply x.node x.state x.statement
    have hdeclared : ∀ c m, x.state.chargedBy? x.statement = some (c, m) →
        c.method? m.signature = some m ∧ m ∈ s.declared := by
      intro c m hcharged
      obtain ⟨hclass, hmethod, hdeclares⟩ :=
        declared_of_chargedBy? hfiled.faithful hcharged
      rw [hfiled.source] at hclass
      exact ⟨hdeclares, List.mem_flatMap.2 ⟨c, hclass, hmethod⟩⟩
    refine h.grow hgrows ?_ rfl (List.Subset.refl _) ?_
    · intro c m hcharged
      obtain ⟨hdeclares, hmem⟩ := hdeclared c m hcharged
      exact ⟨m, hdeclares, rfl, .inl hmem⟩
    · intro y hy
      rcases List.mem_append.1 hy with hy | hy
      · exact (h.entered y hy).mono (names_subset hgrows)
      · obtain rfl := List.mem_singleton.1 hy
        refine ⟨hfiled.toOver, ?_⟩
        intro c m hcharged
        refine ⟨(hdeclared c m hcharged).2, ?_⟩
        rcases y.state.fresh_cases (y.state.chargedBy? y.statement) with
          ⟨_, hknown⟩ | ⟨d, n, hone, hmet, _⟩
        · exact names_subset hgrows (hknown c m hcharged)
        · obtain ⟨rfl, rfl⟩ :=
            Prod.mk.inj (Option.some.inj (hmet.symm.trans hcharged))
          rw [hgrows.names, hone]
          simp

/-! ## Charged calls -/

theorem unavoidable_iff (hacyclic : s.Acyclic) {names : List String}
    {x : Moment} (h : Entered s w names x) {call : Invocation} {m : Method} :
    Unavoidable s w x call m ↔
      x.statement = .invoke call ∧ ∃ c,
        x.state.charged? call = some (c, m) := by
  have hcharges : ∀ c, x.state.Charges call c m ↔
      x.state.charged? call = some (c, m) :=
    fun c => charges_iff (h.source ▸ hacyclic) h.faithful
  have hcounts : x.state.ignores call.owner = false ↔
      w.covers call.owner = false ∧ Text.startsWith call.owner "[" = false := by
    rw [ignores, h.whitelist, Bool.or_eq_false_iff]
  have hfixed : (m.canOverride && x.state.hasInjectableReceiver call) = false ↔
      m.isStatic = true ∨ m.isPrivate = true ∨ m.isConstructor = true ∨
        ∀ v, call.receiver = some v → x.state.isInjectable v = false := by
    unfold MethodHeader.canOverride hasInjectableReceiver
    cases call.receiver with
    | none => simp
    | some v =>
        cases m.isStatic <;> cases m.isPrivate <;>
          cases m.isConstructor <;> simp
  constructor
  · rintro ⟨hstatement, hunlisted, hplain, ⟨asked, c, hwalk, hm⟩, hcannot⟩
    refine ⟨hstatement, c, (hcharges c).1 ⟨hcounts.2 ⟨hunlisted, hplain⟩,
      ⟨asked, ?_⟩, hm, hfixed.2 hcannot⟩⟩
    rw [h.source, h.whitelist]
    exact hwalk
  · rintro ⟨hstatement, c, hcharged⟩
    obtain ⟨hcount, ⟨asked, hwalk⟩, hm, hcannot⟩ := (hcharges c).2 hcharged
    rw [h.source, h.whitelist] at hwalk
    exact ⟨hstatement, (hcounts.1 hcount).1, (hcounts.1 hcount).2,
      ⟨asked, c, hwalk, hm⟩, hfixed.1 hcannot⟩

theorem edge?_eq_some_iff (hacyclic : s.Acyclic) {names : List String}
    {x : Moment} (h : Entered s w names x) {e : Call} :
    x.edge? = some e ↔ ∃ call m, Unavoidable s w x call m ∧ e.line = call.line ∧
      e.callee = (x.state.graph.add m).2 := by
  have hunavoidable : ∀ call m, Unavoidable s w x call m ↔
      x.statement = .invoke call ∧ ∃ c, x.state.charged? call = some (c, m) :=
    fun call m => unavoidable_iff hacyclic h
  simp only [hunavoidable]
  obtain ⟨line, callee⟩ := e
  unfold Moment.edge?
  cases hstatement : x.statement with
  | invoke call =>
      simp only [Option.map_eq_some_iff, Prod.exists, Call.mk.injEq,
        Statement.invoke.injEq]
      grind
  | assign | putField | putElement => simp

/-- The callee of a call that is charged has the node that the edge names. -/
theorem getElem?_names_apply {x : Moment} {call : Invocation}
    {c : ClassModel} {m : Method} (hstatement : x.statement = .invoke call)
    (hcharged : x.state.charged? call = some (c, m)) :
    (apply x.node x.state x.statement).graph.names[(x.state.graph.add m).2]? =
      some m.fullName := by
  rw [hstatement]
  show (x.state.invoke x.node call).graph.names[(x.state.graph.add m).2]? = _
  rw [graph_invoke, hcharged]
  show ((x.state.graph.add m).1.addCall x.node call.line
    _).names[(x.state.graph.add m).2]? = _
  rw [CostGraph.names_addCall]
  exact x.state.graph.getElem?_names_add m

theorem eq_of_getElem?_names (h : a.graph.names.Nodup)
    {i j : NodeId} {name : String} (hi : a.graph.names[i]? = some name)
    (hj : a.graph.names[j]? = some name) : i = j := by
  obtain ⟨hi', hname⟩ := List.getElem?_eq_some_iff.1 hi
  obtain ⟨hj', hname'⟩ := List.getElem?_eq_some_iff.1 hj
  exact (h.getElem_inj_iff).1 (hname.trans hname'.symm)

theorem lt_size_of_getElem?_names {id : NodeId} {name : String}
    (h : a.graph.names[id]? = some name) : id < a.graph.nodes.size := by
  have hlt := (List.getElem?_eq_some_iff.1 h).1
  simpa [CostGraph.names] using hlt

/-! ## What is left of a turn -/

theorem getElem?_names_node {t : Turn}
    (hstays : Extends (t.state.analyse t.method) a) :
    a.graph.names[t.node]? = some t.method.fullName := by
  have hopened : (t.state.opened t.method).graph.names[t.node]? =
      some t.method.fullName := t.state.graph.getElem?_names_add t.method
  have hanalysed := extends_foldl (a := t.state.opened t.method)
    (t.state.graph.add_snd_lt t.method) t.method.statements
  rw [analyse_eq] at hstays
  exact (hanalysed.trans hstays).getElem?_names hopened

/-- The edges of a turn are those of its unavoidable calls, by the names of
nodes. -/
theorem Housed.edge_iff (hacyclic : s.Acyclic)
    (h : Housed s w past a) (hnodup : a.graph.names.Nodup)
    {t : Turn} (hstays : Extends (t.state.analyse t.method) a) {x : Moment}
    (hx : x ∈ t.moments) (hpast : x ∈ past.moments) (e : Call) :
    x.edge? = some e ↔ ∃ call m, Unavoidable s w x call m ∧ e.line = call.line ∧
      a.graph.names[e.callee]? = some m.fullName := by
  have hentered := h.entered x hpast
  have hcallee : ∀ call m, Unavoidable s w x call m →
      a.graph.names[(x.state.graph.add m).2]? = some m.fullName := by
    intro call m hcall
    obtain ⟨hstatement, c, hcharged⟩ :=
      (unavoidable_iff hacyclic hentered).1 hcall
    have hnamed := getElem?_names_apply hstatement hcharged
    obtain ⟨hnode, hmoment⟩ :=
      extends_of_mem_moments (t.state.graph.add_snd_lt t.method) hx
    rw [analyse_eq] at hstays
    rw [hnode] at hnamed
    exact (hmoment.trans hstays).getElem?_names hnamed
  rw [edge?_eq_some_iff hacyclic hentered]
  constructor
  · rintro ⟨call, m, hcall, hline, heq⟩
    exact ⟨call, m, hcall, hline, heq ▸ hcallee call m hcall⟩
  · rintro ⟨call, m, hcall, hline, hnamed⟩
    exact ⟨call, m, hcall, hline,
      eq_of_getElem?_names hnodup hnamed (hcallee call m hcall)⟩

theorem Housed.totals_le (hacyclic : s.Acyclic)
    (h : Housed s w past a) (hnodup : a.graph.names.Nodup)
    {t : Turn} (hstays : Extends (t.state.analyse t.method) a)
    (hpast : t.moments ⊆ past.moments) {e : Call}
    (he : e ∈ t.moments.filterMap Moment.edge?) :
    (a.graph.link.node e.callee).totalComplexity ≤
      (a.graph.link.node t.node).totalComplexity ∧
      (a.graph.link.node e.callee).totalGlobals ≤
        (a.graph.link.node t.node).totalGlobals := by
  obtain ⟨x, hx, hedge⟩ := List.mem_filterMap.1 he
  obtain ⟨call, m, _, _, hnamed⟩ :=
    (h.edge_iff hacyclic hnodup hstays hx (hpast hx) e).1 hedge
  have hrecorded : e ∈ (a.graph.node t.node).calls := by
    apply (hstays.calls t.node).subset
    rw [calls_analyse, if_pos rfl]
    exact List.mem_append_right _ he
  exact CostGraph.totals_le_of_call
    (lt_size_of_getElem?_names (getElem?_names_node hstays))
    (lt_size_of_getElem?_names hnamed) (List.mem_map_of_mem hrecorded)

/-- When nothing waits, the callee of an unavoidable call has had its turn. -/
theorem Housed.exists_turn (hacyclic : s.Acyclic) (h : Housed s w past a)
    (hqueue : a.queue = []) {x : Moment} (hx : x ∈ past.moments)
    {call : Invocation} {m : Method} (hcall : Unavoidable s w x call m) :
    ∃ t ∈ past.turns, t.method.fullName = m.fullName ∧
      Known s past.operations t.method ∧
      m ∈ s.declared := by
  have hentered := h.entered x hx
  obtain ⟨hstatement, c, hcharged⟩ :=
    (unavoidable_iff hacyclic hentered).1 hcall
  have hmet : x.state.chargedBy? x.statement = some (c, m) := by
    rw [hstatement]
    exact hcharged
  obtain ⟨hdeclared, hnode⟩ := hentered.charged c m hmet
  have hwaiting : a.waiting = [] := by
    rw [waiting, hqueue]
    rfl
  have hhoused := h.housed m.fullName
  have hknown := h.known
  rw [hwaiting, List.append_nil] at hhoused hknown
  obtain ⟨n, hn, hname⟩ := hhoused.1 hnode
  obtain ⟨t, ht, rfl⟩ := List.mem_map.1 hn
  exact ⟨t, ht, hname, hknown _ hn, hdeclared⟩

/-- **Calls that a test cannot intercept are charged, and no others.** Whatever
is asked of a new analysis over a source where no class is its own ancestor, a
method in its turn records one edge for each of its calls that is unavoidable at
its moment, in order and at its line, to the node of the method that the call
resolves to. That method has its turn before the operation ends in which the
call was met. When costs are linked, both totals of the caller are at least
those of the callee. -/
theorem unavoidable_calls_charged {r : Repository}
    (hfaithful : r.Faithful) (hacyclic : r.source.Acyclic) (w : Whitelist)
    (name : String) (ops : List Operation) (hvisits : ∀ c m, .visit c m ∈ ops →
      ∃ n, c.method? m.signature = some n ∧ n.fullName = m.fullName) :
    ∃ start turns a,
      start = { repository := r, whitelist := w, className := name } ∧
      a = ops.foldl perform start ∧ Performed start ops turns a ∧
      (∀ t ∈ turns,
        t.moments.map Moment.statement = t.method.statements ∧
        a.graph.names[t.node]? = some t.method.fullName ∧
        (∀ id, ((t.state.analyse t.method).graph.node id).calls =
          (t.state.graph.node id).calls ++
            if id = t.node then t.moments.filterMap Moment.edge? else []) ∧
        ∀ x ∈ t.moments, ∀ e, x.edge? = some e ↔
          ∃ call m, Unavoidable r.source w x call m ∧ e.line = call.line ∧
            a.graph.names[e.callee]? = some m.fullName) ∧
      (∀ before op after, ops = before ++ op :: after →
        ∃ earlier during later, turns = earlier ++ during ++ later ∧
          Performed start before earlier (before.foldl perform start) ∧
          Drains ((before.foldl perform start).begin op) during
            ((before.foldl perform start).perform op) ∧
          Performed ((before.foldl perform start).perform op) after later a ∧
          ∀ x ∈ during.flatMap Turn.moments, ∀ call m,
            Unavoidable r.source w x call m →
            ∃ t ∈ earlier ++ during, t.method.fullName = m.fullName ∧
              ((∀ k n, Known r.source ops k → Known r.source ops n →
                k.fullName = n.fullName →
                k = n) → t.method = m)) ∧
      ∀ ids, ∀ t ∈ turns, ∀ e ∈ t.moments.filterMap Moment.edge?,
        ((a.finish ids).graph.node e.callee).totalComplexity ≤
            ((a.finish ids).graph.node t.node).totalComplexity ∧
          ((a.finish ids).graph.node e.callee).totalGlobals ≤
            ((a.finish ids).graph.node t.node).totalGlobals := by
  have hexists := exists_performed (a :=
    { repository := r, whitelist := w, className := name }) hfaithful rfl ops
  have hempty : Filed r.source w _ ∧ Housed r.source w {} _ :=
    ⟨filed_empty hfaithful w name, housed_empty r w name⟩
  generalize hstart :
    ({ repository := r, whitelist := w, className := name } : Analysis) =
    start at hexists hempty
  have hfaithful' : start.repository.Faithful := hstart ▸ hfaithful
  have hqueue : start.queue = [] := by rw [← hstart]
  have hvisitable : ∀ op ∈ ops, Visitable op := fun op hop c m heq =>
    hvisits c m (heq ▸ hop)
  obtain ⟨turns, hturns, hdone, _⟩ := hexists
  have hstays := hturns.extends.2
  obtain ⟨hfiled, hhoused⟩ :=
    housed_preserved.performed hturns hvisitable hempty
  simp only [List.nil_append] at hhoused
  have hpast : ∀ t ∈ turns, t.moments ⊆ turns.flatMap Turn.moments :=
    fun t ht x hx => List.mem_flatMap.2 ⟨t, ht, hx⟩
  refine ⟨start, turns, _, rfl, rfl, hturns, ?_, ?_, ?_⟩
  · intro t ht
    exact ⟨map_statement_moments _ _ _,
      getElem?_names_node (hstays t ht), calls_analyse t, fun x hx =>
      hhoused.edge_iff hacyclic hfiled.nodup (hstays t ht) hx (hpast t ht hx)⟩
  · rintro before op after rfl
    obtain ⟨earlier, during, later, hsplit, hearlier, hduring, hlater⟩ :=
      exists_turns_of_operation hfaithful' hqueue before op after hturns
    refine ⟨earlier, during, later, hsplit, hearlier, hduring, hlater, ?_⟩
    obtain ⟨_, hupTo⟩ := housed_preserved.performed
      (hearlier.append (.cons hduring (.nil _)))
      (fun o ho => hvisitable o (by simp at ho ⊢; tauto)) hempty
    simp only [List.nil_append, List.append_nil] at hupTo
    intro x hx call m hcall
    have hmem : x ∈ (earlier ++ during).flatMap Turn.moments := by
      rw [List.flatMap_append]
      exact List.mem_append_right _ hx
    obtain ⟨t, ht, hname, hknown, hdeclared⟩ :=
      hupTo.exists_turn hacyclic hduring.queue_eq_nil hmem hcall
    refine ⟨t, ht, hname, fun hapart =>
      hapart _ _ (hknown.mono ?_) (.inl hdeclared) hname⟩
    exact List.append_subset.2 ⟨by simp, by simp⟩
  · intro ids t ht e he
    exact hhoused.totals_le hacyclic hfiled.nodup (hstays t ht) (hpast t ht) he

/-! ## Two methods that call each other -/

/-- The method that `ringRun` calls, and which calls it. -/
def ringStep : Method :=
  { ringRun with
    name := "step"
    statements :=
      [.invoke
        { line := 0, owner := "p.A", name := "run", descriptor := "()V"
          receiver := none, arguments := [] }] }

def ringClass : ClassModel where
  name := "p.A"
  superName := none
  fields := []
  methods := [ringRun, ringStep]

/-- What the class file says, before the code is decoded. -/
def ringContents : ClassFile where
  pool := #[.empty, .utf8 "p/A", .classRef 1, .utf8 "step", .utf8 "()V",
    .nameAndType 3 4,
    .methodRef 2 5, .utf8 "run", .utf8 "Code", .nameAndType 7 4, .methodRef 2 9]
  thisClass := 2
  superClass := 0
  fields := []
  methods :=
    [{ access := 9, name := 7, descriptor := 4
       attributes :=
         [.code { code := #[184, 0, 6, 177], handlers := [], tables := [] }] },
     { access := 9, name := 3, descriptor := 4
       attributes :=
         [.code { code := #[184, 0, 10, 177], handlers := [], tables := [] }] }]

/-- The repository once it has decoded the class. -/
def ringRepository : Repository :=
  { ringStart.repository with cache := [("p.A", ringClass)] }

theorem faithful_ringRepository : ringRepository.Faithful := by
  have hread : ringRepository.source.read "p.A" = .ok (some ringFile) := rfl
  have hcontents : (ClassFile.parse ringFile).toOption = some ringContents := by
    decide +kernel
  have hclass : ClassModel.ofClassFile ringContents = .ok ringClass := by cbv
  intro name c hc
  obtain ⟨rfl, rfl⟩ := Prod.mk.inj (List.mem_singleton.1 (mem_of_lookup hc))
  exact (ClassSource.load_of_read hread).trans
    (ClassModel.parse_of_file hcontents hclass "p.A")

theorem ring_calls_charged :
    ringRepository.source.Acyclic ∧ ∃ start turns a,
      start = { repository := ringRepository, whitelist := .standard,
                className := "p.A" } ∧
      a = perform start (.visit ringClass ringRun) ∧
      Performed start [.visit ringClass ringRun] turns a ∧
      a.graph.nodes.map MethodCost.calls = #[[⟨0, 1⟩], [⟨0, 0⟩]] ∧
      (∀ t ∈ turns, ∀ x ∈ t.moments, ∀ e, x.edge? = some e ↔
        ∃ call m, Unavoidable ringRepository.source .standard x call m ∧
          e.line = call.line ∧
          a.graph.names[e.callee]? = some m.fullName) ∧
      ∀ x ∈ turns.flatMap Turn.moments, ∀ call m,
        Unavoidable ringRepository.source .standard x call m →
          ∃ t ∈ turns, t.method.fullName = m.fullName := by
  have hvisits : ∀ c m, .visit c m ∈ [Operation.visit ringClass ringRun] →
      ∃ n, c.method? m.signature = some n ∧ n.fullName = m.fullName := by
    intro c m hvisit
    obtain ⟨rfl, rfl⟩ := Operation.visit.inj (List.mem_singleton.1 hvisit)
    exact ⟨ringRun, rfl, rfl⟩
  obtain ⟨start, turns, a, hstart, ha, hturns, hedges, hanalysed, _⟩ :=
    unavoidable_calls_charged faithful_ringRepository ring_acyclic .standard
    "p.A" [.visit ringClass ringRun] hvisits
  refine ⟨ring_acyclic, start, turns, a, hstart, ha, hturns, ?_,
    fun t ht => (hedges t ht).2.2.2, ?_⟩
  · rw [ha, hstart]
    decide +kernel
  · obtain ⟨earlier, during, later, hsplit, hearlier, _, hlater, hcallees⟩ :=
      hanalysed [] _ [] rfl
    obtain rfl : earlier = [] := by cases hearlier; rfl
    obtain rfl : later = [] := by cases hlater; rfl
    obtain rfl : turns = during := by simpa using hsplit
    intro x hx call m hcall
    obtain ⟨t, ht, hname, _⟩ := hcallees x hx call m hcall
    exact ⟨t, ht, hname⟩

end Analysis

end TestCost
