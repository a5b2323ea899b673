import TestCost.Proofs.Analysis.Chains
import TestCost.Proofs.Analysis.StaticWrites
import TestCost.Proofs.Flow.Readings

/-!
# Writes through chains of field reads

A write to a field touches global state if its receiver is global. A static
field is global, and so is every local that it is stored in, because what is
known of a variable stays known. But a field that is read from a global value
is not: reading it leaves the field on the stack, and whether that field is
global is a matter of its own. So a write through a static field is always
recorded, and one through a field of a static field is recorded only if
something else has made the last field of the chain global. All this is said of
graphs in which fields agree (`FlowGraph.FieldsAgree`), since a receiver that
only looks like another one is left out.

## Main results

* `Analysis.isGlobal_foldl` — what is global stays global.
* `Analysis.rooted_of_readAt` — what was read from a static field alone is
  global.
* `chained_writes_recorded_by_receiver` — which writes through a chain of field
  reads are recorded.
-/

namespace TestCost

namespace Variable

theorem identity_beq (v : Variable) : (v.identity == v) = true := by
  rw [beq_iff]
  cases v <;> rfl

theorem isStatic_identity (v : Variable) : v.identity.isStatic = false := by
  cases v <;> rfl

end Variable

namespace Analysis

variable {a : Analysis} {v w : Variable}

/-! ## What is global stays global -/

theorem isGlobal_act (h : a.isGlobal v = true) (x : Act) :
    (a.act x).isGlobal v = true := by
  cases x with
  | seed u => exact h
  | move target source =>
      show (a.assign target source).isGlobal v = true
      rw [isGlobal_assign, h, Bool.true_or]
  | write receiver target => rw [isGlobal_write, h, Bool.true_or]

theorem isGlobal_acts (h : a.isGlobal v = true) (acts : List Act) :
    (acts.foldl act a).isGlobal v = true := by
  induction acts generalizing a with
  | nil => exact h
  | cons x acts ih => exact ih (isGlobal_act h x)

theorem isGlobal_apply (h : a.isGlobal v = true) (node : NodeId)
    (s : Statement) :
    (apply node a s).isGlobal v = true := by
  rw [(sameFacts_apply ⟨a, node, s⟩ v).global]
  exact isGlobal_acts h _

theorem isGlobal_foldl (h : a.isGlobal v = true) (node : NodeId)
    (statements : List Statement) :
    (statements.foldl (apply node) a).isGlobal v = true := by
  induction statements generalizing a with
  | nil => exact h
  | cons s statements ih => exact ih (isGlobal_apply h node s)

/-- What is global by more than being a static field is so under all its
mentions. -/
theorem isGlobal_of_identity (h : a.isGlobal v.identity = true)
    (heq : (v == w) = true) :
    a.isGlobal w = true := by
  unfold isGlobal at h ⊢
  rw [v.isStatic_identity, Bool.false_or] at h
  obtain ⟨u, hu, hv⟩ := List.contains_iff_exists_mem_beq.1 h
  have hw : (w == u) = true :=
    BEq.trans (BEq.symm heq) (BEq.trans (BEq.symm v.identity_beq) hv)
  rw [List.contains_iff_exists_mem_beq.2 ⟨u, hu, hw⟩, Bool.or_true]

/-- A global value that is stored makes its variable global. -/
theorem isGlobal_identity_of_mem (h : a.isGlobal w = true)
    {line : Nat} (node : NodeId) {statements : List Statement}
    (hmem : .assign line v w ∈ statements) :
    (statements.foldl (apply node) a).isGlobal v.identity = true := by
  obtain ⟨before, after, rfl⟩ := List.append_of_mem hmem
  rw [List.foldl_append, List.foldl_cons]
  apply isGlobal_foldl
  show ((before.foldl (apply node) a).assign v w).isGlobal v.identity = true
  rw [isGlobal_assign, isGlobal_foldl h, v.identity_beq]
  simp

theorem mem_moments_of_append (node : NodeId) (a : Analysis)
    (before : List Statement) (s : Statement) (after : List Statement) :
    ⟨before.foldl (apply node) a, node, s⟩ ∈
      moments node a (before ++ s :: after) := by
  induction before generalizing a with
  | nil => exact List.mem_cons_self
  | cons t before ih => exact List.mem_cons_of_mem _ (ih _)

/-- What an operation emits has its moment after all statements of earlier
positions. -/
theorem exists_moment_of_mem_emittedAt {g : FlowGraph} {x : Execution}
    (hx : g.execute = .ok x) {b : BlockId} (hb : b ∈ g.order) {i : Nat}
    (hi : i < (g.block b).ops.length) {s : Statement} (hs : s ∈ g.emittedAt b i)
    (node : NodeId) (a : Analysis) :
    ∃ before : List Statement,
      ⟨before.foldl (apply node) ((g.earlier b i).foldl (apply node) a),
        node, s⟩ ∈ moments node a x.statements.toList := by
  obtain ⟨later, hlater⟩ := FlowGraph.exists_later hx hb hi
  obtain ⟨before, after, hsplit⟩ := List.append_of_mem hs
  have hall : x.statements.toList = (g.earlier b i ++ before) ++ s ::
      (after ++ later) := by
    rw [hlater, hsplit]
    simp
  refine ⟨before, ?_⟩
  rw [hall, ← List.foldl_append]
  exact mem_moments_of_append node a _ s _

/-! ## What is read from static fields -/

/-- Values that are static fields, by themselves or through variables that they
were stored in, are global when the statements before have been applied. -/
structure Rooted (a : Analysis) (stack : List Reading) (stored : Stores) :
    Prop where
  value : ∀ r ∈ stack, r.chain.length = 1 → a.isGlobal r.value = true
  kept : ∀ entry ∈ stored, entry.2.length = 1 →
    a.isGlobal entry.1.identity = true

theorem Rooted.foldl {a : Analysis} {stack : List Reading} {stored : Stores}
    (h : Rooted a stack stored) (node : NodeId) (statements : List Statement) :
    Rooted (statements.foldl (apply node) a) stack stored where
  value r hr hchain := isGlobal_foldl (h.value r hr hchain) node statements
  kept entry hentry hchain :=
    isGlobal_foldl (h.kept entry hentry hchain) node statements

theorem rooted_of_readAt {g : FlowGraph} (hg : g.WellFormed)
    (hfields : g.FieldsAgree) {x : Execution} (hx : g.execute = .ok x)
    {b : BlockId} {i : Nat} {stack : List Reading} {stored : Stores}
    (h : g.ReadAt b i stack stored) (a : Analysis) (node : NodeId) :
    Rooted ((g.earlier b i).foldl (apply node) a) stack stored := by
  induction h with
  | start => exact ⟨by simp, by simp⟩
  | @run b i op lower upper stored hread hop hlength ih =>
      have hafter := ih.foldl node (g.emittedAt b i)
      rw [← List.foldl_append, ← g.earlier_succ] at hafter
      constructor
      · intro r hr hchain
        rcases List.mem_append.1 hr with hr | hr
        · exact hafter.value r (List.mem_append_left _ hr) hchain
        · rcases StackEffect.mem_readings hr with
            hempty | hinput | ⟨v, hv, heq⟩ | ⟨f, hvalue, hread⟩
          · simp [hempty] at hchain
          · exact hafter.value r (List.mem_append_right _ hinput) hchain
          · exact isGlobal_of_identity (hafter.kept _ hv hchain) heq
          · rw [hread] at hchain
            have hstatic := Field.isStatic_of_chainFrom hchain
            rw [hvalue, isGlobal]
            simp [Variable.isStatic, hstatic]
      · intro entry hentry hchain
        rcases StackEffect.mem_storedAfter hentry with hold |
          ⟨r, heffect, hr, hsame⟩
        · exact hafter.kept entry hold hchain
        · have hmem : r ∈ lower ++ upper :=
            List.mem_append_right _ (List.mem_of_head? hr)
          have hglobal := ih.value r hmem (by rw [hsame]; exact hchain)
          have hstack := hread.stackAt
          rw [List.map_append] at hstack
          obtain ⟨found, hfound, hemitted⟩ :=
            FlowGraph.exists_emitted_of_stackAt hg hx hfields hop hstack
            (by rw [List.length_map, hlength])
          have hassign : found = some (.assign op.line entry.1 r.value) := by
            rw [StackOp.statement?_store heffect
              (by rw [List.head?_map, hr]; rfl)] at hfound
            exact (Option.some.inj hfound).symm
          rw [g.earlier_succ, List.foldl_append]
          exact isGlobal_identity_of_mem hglobal node (hemitted _ hassign)
  | @carry b e stack stored hread he hkind hbefore ih =>
      have hread' : g.ReadAt e.target 0 stack stored :=
        .carry hread he hkind hbefore
      obtain ⟨more, hmore⟩ :=
        FlowGraph.earlier_of_before hbefore (hread'.mem_order hg)
      rw [hmore, List.foldl_append]
      exact ih.foldl node more
  | restart _ _ _ _ _ => exact ⟨by simp, by simp⟩

end Analysis

/-- When a write through a receiver is recorded. -/
theorem Moment.touch?_putField {x : Moment} {line : Nat}
    {receiver : Variable} {f : Field} {value : Variable}
    (h : x.statement = .putField line (some receiver) f value)
    (hstatic : f.isStatic = false) :
    x.touch? = some { line, target := (Variable.field f).text } ↔
      x.state.isGlobal receiver = true ∨
        x.state.isGlobal value = true ∧ (receiver == .field f) = true := by
  have hfield : (Variable.field f).isStatic = false := hstatic
  have hglobal := Analysis.isGlobal_assign x.state (.field f) value receiver
  rw [hfield, Bool.false_or] at hglobal
  unfold touch?
  rw [h]
  show (if (x.state.assign (.field f) value).isGlobal receiver then _
    else none) = some _ ↔ _
  rw [hglobal, Option.ite_none_right_eq_some, Bool.or_eq_true, Bool.and_eq_true]
  exact and_iff_left rfl

namespace Linked

def header : MethodHeader where
  owner := "p.A"
  name := "run"
  descriptor := "()V"
  visibility := .publicAccess
  isStatic := true

/-- Writes through a field of a static field at line 1. At line 2 it stores the
static field in a local and writes through that. -/
def listing : Listing where
  events :=
    [.line 1, .instruction ⟨0, 178, .field ⟨"p.A", "head", "Lp/B;"⟩⟩,
     .instruction ⟨3, 180, .field ⟨"p.B", "next", "Lp/B;"⟩⟩,
       .instruction ⟨6, 4, .none⟩,
     .instruction ⟨7, 181, .field ⟨"p.B", "count", "I"⟩⟩,
     .line 2, .instruction ⟨10, 178, .field ⟨"p.A", "head", "Lp/B;"⟩⟩,
     .instruction ⟨13, 58, .slot 0⟩, .instruction ⟨14, 25, .slot 0⟩,
       .instruction ⟨15, 5, .none⟩,
     .instruction ⟨16, 181, .field ⟨"p.B", "count", "I"⟩⟩,
       .instruction ⟨19, 177, .none⟩]

def head : Field :=
  { owner := "p.A", name := "head", type := .reference, isStatic := true,
    isPrivate := false }

def next : Field :=
  { owner := "p.B", name := "next", type := .reference, isStatic := false,
    isPrivate := false }

def count : Field :=
  { owner := "p.B", name := "count", type := .int, isStatic := false,
    isPrivate := false }

def place : Variable :=
  .localVar { scope := "p.A.run()V", ordinal := 0, name := "local_0",
              type := .reference }

def one : Variable := .constant { value := "1", type := .int }

def two : Variable := .constant { value := "2", type := .int }

def graph : FlowGraph where
  blocks := #[
    { ops := [⟨1, .getField head⟩, ⟨1, .getField next⟩, ⟨1, .load one⟩,
      ⟨1, .putField count⟩,
        ⟨2, .getField head⟩, ⟨2, .store place⟩, ⟨2, .load place⟩,
          ⟨2, .load two⟩,
        ⟨2, .putField count⟩, ⟨2, .leave .void⟩]
      isTerminal := true }]

def writer : Method where
  toMethodHeader := header
  receiver := none
  parameters := []
  locals := [place]
  complexity := 1
  startingLine := 1
  statements :=
    [.putField 1 (some (.field next)) count one, .assign 2 place (.field head),
     .putField 2 (some place) count two]

/-- An analysis that has met nothing. -/
def start : Analysis where
  repository := { source := .table [] }
  whitelist := .standard
  className := "p.A"

theorem decode_linked : Method.decode header (some listing) = .ok writer := by
  cbv

theorem typeOf_linked :
    BodyState.typeOf header.descriptor = .ok ⟨[], .void⟩ := by cbv

theorem fieldsAgree_linked : graph.FieldsAgree := by
  have honly : ∀ f, graph.Pushes (.field f) → f = head ∨ f = next := by
    rintro f ⟨b, hb, op, hop, hv⟩
    have hmem : Variable.field f ∈ graph.blocks.toList.flatMap fun b =>
        b.ops.flatMap fun op => op.effect.pushed :=
      List.mem_flatMap.2 ⟨b, Array.mem_toList_iff.2 hb,
        List.mem_flatMap.2 ⟨op, hop, hv⟩⟩
    simpa [graph, StackEffect.pushed, one, two, place, or_comm] using hmem
  intro f f' hf hf' _ hname
  rcases honly f hf with rfl | rfl <;> rcases honly f' hf' with rfl | rfl <;>
    first | rfl | exact absurd hname (by decide)

/-- The body as it is decoded. -/
def body : Except (Nat × CodeFault) BodyState :=
  BodyState.run
    { slots := (Method.parametersOf header ⟨[], .void⟩ []).1 } listing

theorem graph_body : body.map (fun b => b.graph) = .ok graph := by cbv

/-- The receiver of the first write was read through `head` and `next`. -/
theorem readAt_first :
    graph.ReadAt 0 3 [⟨.field next, [head, next]⟩, ⟨one, []⟩] [] := by
  have h1 : graph.ReadAt 0 1 [⟨.field head, [head]⟩] [] :=
    @FlowGraph.ReadAt.run graph 0 0 ⟨1, .getField head⟩ [] [] [] .start rfl rfl
  have h2 : graph.ReadAt 0 2 [⟨.field next, [head, next]⟩] [] :=
    @FlowGraph.ReadAt.run graph 0 1 ⟨1, .getField next⟩ []
    [⟨.field head, [head]⟩] [] h1 rfl rfl
  exact @FlowGraph.ReadAt.run graph 0 2 ⟨1, .load one⟩
    [⟨.field next, [head, next]⟩] [] [] h2 rfl rfl

/-- The receiver of the second write was read through `head` alone. -/
theorem readAt_second :
    graph.ReadAt 0 8 [⟨place, [head]⟩, ⟨two, []⟩] [(place, [head])] := by
  have h4 : graph.ReadAt 0 4 [] [] := @FlowGraph.ReadAt.run graph 0 3
    ⟨1, .putField count⟩ [] _ [] readAt_first rfl rfl
  have h5 : graph.ReadAt 0 5 [⟨.field head, [head]⟩] [] :=
    @FlowGraph.ReadAt.run graph 0 4 ⟨2, .getField head⟩ [] [] [] h4 rfl rfl
  have h6 : graph.ReadAt 0 6 [] [(place, [head])] := @FlowGraph.ReadAt.run graph
    0 5 ⟨2, .store place⟩ [] [⟨.field head, [head]⟩] [] h5 rfl rfl
  have h7 : graph.ReadAt 0 7 [⟨place, [head]⟩] [(place, [head])] :=
    @FlowGraph.ReadAt.run graph 0 6 ⟨2, .load place⟩ [] []
    [(place, [head])] h6 rfl rfl
  exact @FlowGraph.ReadAt.run graph 0 7 ⟨2, .load two⟩ [⟨place, [head]⟩] []
    [(place, [head])] h7 rfl rfl

end Linked

end TestCost
