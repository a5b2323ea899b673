import Mathlib
import TestCost.Proofs.Flow.Run

/-!
# The statements of a method

Which statements symbolic execution answers, read off the run itself.
`emittedAt g b i` is what the run adds to its answer at operation `i` of
block `b`; the answer is those of all positions one after the other, block by
block in the order of blocks. What is added at a position is known from the
stacks of paths: the statement for each distinct list of operands that some
path brings, once.

## Main results

* `statements_eq_flatMap` — the answer is what was added at the positions.
* `earlier_of_before`, `exists_later` — the order in which it was added.
* `statements_follow_paths` — the answer in terms of paths.
-/

namespace TestCost

theorem forall₂_of_mapM_eq_some {α β : Type} {f : α → Option β} {xs : List α}
    {ys : List β} (h : xs.mapM f = some ys) :
    List.Forall₂ (fun x y => f x = some y) xs ys := by
  induction xs generalizing ys with
  | nil =>
      obtain rfl := Option.some.inj h
      exact .nil
  | cons x xs ih =>
      rw [List.mapM_cons] at h
      obtain ⟨y, hy, h⟩ := Option.bind_eq_some_iff.1 h
      obtain ⟨rest, hrest, h⟩ := Option.bind_eq_some_iff.1 h
      obtain rfl := Option.some.inj h
      exact .cons hy (ih hrest)

namespace FlowGraph

/-- The statements that operation `i` of block `b` adds to the answer. -/
def emittedAt (g : FlowGraph) (b : BlockId) (i : Nat) : List Statement :=
  match g.upTo b i, g.upTo b (i + 1) with
  | .ok x, .ok y => y.statements.toList.drop x.statements.size
  | _, _ => []

/-- The statements that a block adds to the answer. -/
def emittedBy (g : FlowGraph) (b : BlockId) : List Statement :=
  (List.range (g.block b).ops.length).flatMap (g.emittedAt b)

variable {g : FlowGraph}

/-! ## What is added at a position -/

theorem emittedAt_eq
    {b : BlockId} {i : Nat} {y z : Execution} (hy : g.upTo b i = .ok y)
    (hz : g.upTo b (i + 1) = .ok z) {added : List Statement}
    (hadded : z.statements.toList = y.statements.toList ++ added) :
    g.emittedAt b i = added := by
  unfold emittedAt
  rw [hy, hz]
  show z.statements.toList.drop y.statements.size = added
  rw [hadded, ← Array.length_toList, List.drop_left]

theorem statements_enter {x y : Execution} {b : BlockId}
    (h : x.enter b = .ok y) :
    y.statements = x.statements := by
  simp only [Execution.enter, List.partition_eq_filter_filter] at h
  split at h
  · obtain rfl := Except.ok.inj h
    rfl
  · obtain ⟨family, _, hy⟩ := exists_of_bind_eq_ok h
    obtain rfl := Except.ok.inj hy
    rfl

theorem statements_leave {x y : Execution} {b : BlockId}
    {successors : List Edge} (h : x.leave b successors = .ok y) :
    y.statements = x.statements := by
  simp only [Execution.leave, List.partition_eq_filter_filter] at h
  split at h
  · obtain ⟨family, _, hy⟩ := exists_of_bind_eq_ok h
    obtain rfl := Except.ok.inj hy
    rfl
  · split at h
    · obtain rfl := Except.ok.inj h
      rfl
    · exact absurd h (by simp [bind, Except.bind])

/-- What the first operations of a block add. -/
theorem statements_upTo {ran rest : List BlockId} {b : BlockId}
    {x first : Execution} (hx : g.execute = .ok x)
    (horder : g.order = ran ++ b :: rest) (hfirst : g.upTo b 0 = .ok first)
    {i : Nat} (hi : i ≤ (g.block b).ops.length) {y : Execution}
    (hy : g.upTo b i = .ok y) :
    y.statements.toList =
      first.statements.toList ++ (List.range i).flatMap (g.emittedAt b) := by
  induction i generalizing y with
  | zero =>
      obtain rfl := Except.ok.inj (hfirst.symm.trans hy)
      simp
  | succ i ih =>
      have hop : (g.block b).ops[i]? = some (g.block b).ops[i] :=
        List.getElem?_eq_getElem hi
      obtain ⟨u, v, hu, hv, hran⟩ := exists_ran hx horder hop
      obtain rfl := Except.ok.inj (hv.symm.trans hy)
      obtain ⟨tops, found, _, hadded, _⟩ := hran.statements
      rw [List.range_succ, List.flatMap_append, ← List.append_assoc, ← ih
        (Nat.le_of_lt hi) hu, List.flatMap_singleton, emittedAt_eq hu hv hadded]
      exact hadded

/-- What a first part of the order adds. -/
theorem statements_ran {x : Execution} (hx : g.execute = .ok x)
    {ran rest : List BlockId} (horder : g.order = ran ++ rest) {y : Execution}
    (hy : ran.foldlM (Execution.runBlock g) Execution.start = .ok y) :
    y.statements.toList = ran.flatMap g.emittedBy := by
  have hfold : Yields (ran.foldlM (Execution.runBlock g) Execution.start)
      (fun y =>
      ran.foldlM (Execution.runBlock g) Execution.start = .ok y ∧
        y.statements.toList = ran.flatMap g.emittedBy) fun _ => True := by
    refine Yields.foldlM
      (fun ran y => ran.foldlM (Execution.runBlock g) Execution.start = .ok y ∧
      y.statements.toList = ran.flatMap g.emittedBy) ran ?_ ⟨rfl, rfl⟩
    intro before b after u hran hu
    have hnext : g.order = before ++ b :: (after ++ rest) := by
      rw [horder, hran, List.append_assoc, List.cons_append]
    cases hv : u.runBlock g b with
    | error fault => trivial
    | ok v =>
        obtain ⟨first, last, hfirst, hlast, hleave⟩ := exists_of_runBlock_ok hv
        have hupTo := upTo_eq (takeWhile_order hnext) hu.1 hfirst
        have hzero : g.upTo b 0 = .ok first := hupTo 0
        have hend : g.upTo b (g.block b).ops.length = .ok last := by
          rw [hupTo, List.take_length, hlast]
        have hadded := statements_upTo hx hnext hzero (Nat.le_refl _) hend
        constructor
        · rw [List.foldlM_append, hu.1]
          show [b].foldlM (Execution.runBlock g) u = _
          rw [List.foldlM_cons, hv]
          rfl
        · rw [statements_leave hleave, hadded, statements_enter hfirst, hu.2,
            List.flatMap_append, List.flatMap_singleton]
          rfl
  exact (hfold.of_eq_ok hy).2

theorem statements_eq_flatMap {x : Execution} (hx : g.execute = .ok x) :
    x.statements.toList = g.order.flatMap g.emittedBy :=
  statements_ran hx (List.append_nil _).symm hx

/-- A block that control cannot reach adds nothing: no stacks come to it. -/
theorem emittedAt_eq_nil (hg : g.WellFormed) {x : Execution}
    (hx : g.execute = .ok x) {b : BlockId} (hb : b ∉ g.order) (i : Nat) :
    g.emittedAt b i = [] := by
  have hbetween := (yields_execute g).of_eq_ok hx
  have hpending : x.pending.filter (Place.leadsTo b) = [] := by
    rw [List.filter_eq_nil_iff]
    intro p hp
    exact absurd ((hbetween.pending_iff p).1 hp) (not_waiting_order hg p)
  have hwhile : g.order.takeWhile (· != b) = g.order := by
    simpa using takeWhile_ne_append hb []
  obtain ⟨y, henter, hfamily⟩ : ∃ y, x.enter b = .ok y ∧ y.family = x.family :=
    ⟨_, enter_of_none hpending, rfl⟩
  have hupTo := upTo_eq hwhile hx henter
  cases hops : (g.block b).ops with
  | nil =>
      have hsame : ∀ j, g.upTo b j = .ok y := by
        intro j
        rw [hupTo, hops, List.take_nil]
        rfl
      exact emittedAt_eq (hsame i) (hsame (i + 1)) (List.append_nil _).symm
  | cons op ops =>
      have hnone : y.family.view (.block b) = none := by
        rw [hfamily]
        exact hbetween.view_eq_none hg (.block b)
      have hpop := StackFamily.pop_keyNotFound hnone op.operands op.results
      have herror := hupTo (i + 1)
      rw [hops, List.take_succ_cons, List.foldlM_cons,
        runOp_error hpop] at herror
      unfold emittedAt
      rw [herror]
      cases g.upTo b i with
      | ok z => rfl
      | error fault => rfl

/-- What is added at a position, in terms of the paths that come to it. -/
theorem emittedAt_of_ran {ran rest : List BlockId} {b : BlockId} {x : Execution}
    (hx : g.execute = .ok x) (horder : g.order = ran ++ b :: rest)
    (hfields : g.FieldsAgree) {i : Nat} {op : StackOp}
    (hop : (g.block b).ops[i]? = some op) :
    (∀ stack, g.StackAt b i stack → op.operands ≤ stack.length) ∧
      ∃ tops found, g.OperandLists b i op tops ∧
        tops.mapM op.statement? = some found ∧
        g.emittedAt b i = found.filterMap id := by
  obtain ⟨y, z, hy, hz, hran⟩ := exists_ran hx horder hop
  obtain ⟨n, hn, hpaths⟩ := hran.depth
  obtain ⟨tops, found, hfound, hadded, htops, _⟩ := hran.statements
  constructor
  · intro stack hstack
    rw [hpaths.2 stack hstack]
    exact hn
  · exact ⟨tops, found, htops hfields, hfound, emittedAt_eq hy hz hadded⟩

/-- What is added at a position are statements of the operation there, about
operands that operations of the graph put on the stack. -/
theorem exists_statement?_of_mem_emittedAt {x : Execution}
    (hx : g.execute = .ok x) {b : BlockId} (hb : b ∈ g.order) {i : Nat}
    {op : StackOp} (hop : (g.block b).ops[i]? = some op) {s : Statement}
    (hs : s ∈ g.emittedAt b i) :
    ∃ input, op.statement? input = some (some s) ∧ ∀ v ∈ input, g.Pushes v := by
  obtain ⟨ran, rest, horder⟩ := List.append_of_mem hb
  obtain ⟨y, z, hy, hz, hran⟩ := exists_ran hx horder hop
  obtain ⟨tops, found, hfound, hadded, _, _, hpushed⟩ := hran.statements
  rw [emittedAt_eq hy hz hadded] at hs
  obtain ⟨emitted, hemitted, rfl⟩ := List.mem_filterMap.1 hs
  obtain ⟨j, hj⟩ := List.mem_iff_getElem?.1 hemitted
  have hforall := forall₂_of_mapM_eq_some hfound
  obtain ⟨hjlt, hget⟩ := List.getElem?_eq_some_iff.1 hj
  have hstatement := hforall.get (hforall.length_eq ▸ hjlt) hjlt
  simp only [List.get_eq_getElem, hget] at hstatement
  exact ⟨_, hstatement, hpushed _ (List.getElem_mem _)⟩

/-- Behind every statement there is an operation of the graph. -/
theorem exists_op_of_mem_statements {answer : List Statement}
    (h : g.statements = .ok answer) {s : Statement} (hs : s ∈ answer) :
    ∃ b op input, op ∈ (g.block b).ops ∧ op.statement? input = some (some s) ∧
      ∀ v ∈ input, g.Pushes v := by
  obtain ⟨x, hx, rfl⟩ := exists_execute h
  rw [statements_eq_flatMap hx] at hs
  obtain ⟨b, hb, hs⟩ := List.mem_flatMap.1 hs
  obtain ⟨i, hi, hs⟩ := List.mem_flatMap.1 hs
  have hop := List.getElem?_eq_getElem (List.mem_range.1 hi)
  obtain ⟨input, hstatement, hpushed⟩ :=
    exists_statement?_of_mem_emittedAt hx hb hop hs
  exact ⟨b, _, input, List.mem_of_getElem? hop, hstatement, hpushed⟩

/-- The operands that a path brings stand for a statement that is added, or for
none. -/
theorem exists_emitted_of_stackAt (hg : g.WellFormed) {x : Execution}
    (hx : g.execute = .ok x) (hfields : g.FieldsAgree) {b : BlockId}
    {i : Nat} {op : StackOp} (hop : (g.block b).ops[i]? = some op)
    {lower upper : List Variable} (hstack : g.StackAt b i (lower ++ upper))
    (hlength : upper.length = op.operands) :
    ∃ found, op.statement? upper = some found ∧ ∀ s,
      found = some s → s ∈ g.emittedAt b i := by
  obtain ⟨ran, rest, horder⟩ :=
    List.append_of_mem ((g.mem_order_iff hg b).2 hstack.reachable)
  obtain ⟨_, tops, all, htops, hall, hemitted⟩ :=
    emittedAt_of_ran hx horder hfields hop
  have hupper : upper ∈ tops := (htops.mem_iff upper).2 ⟨hlength, lower, hstack⟩
  obtain ⟨j, hj, rfl⟩ := List.mem_iff_getElem.1 hupper
  have hforall := forall₂_of_mapM_eq_some hall
  have hj' : j < all.length := hforall.length_eq ▸ hj
  refine ⟨all[j], hforall.get hj hj', ?_⟩
  intro s hs
  rw [hemitted]
  exact List.mem_filterMap.2 ⟨all[j], List.getElem_mem hj', hs⟩

/-! ## What comes before a position -/

/-- The statements that are added before operation `i` of block `b` runs. -/
def earlier (g : FlowGraph) (b : BlockId) (i : Nat) : List Statement :=
  (g.order.takeWhile (· != b)).flatMap g.emittedBy ++
    (List.range i).flatMap (g.emittedAt b)

theorem earlier_succ (g : FlowGraph) (b : BlockId) (i : Nat) :
    g.earlier b (i + 1) = g.earlier b i ++ g.emittedAt b i := by
  rw [earlier, earlier, List.range_succ, List.flatMap_append,
    List.flatMap_singleton, List.append_assoc]

/-- What a block adds comes before what later blocks add. -/
theorem earlier_of_before {a b : BlockId} (h : g.Before a b)
    (hb : b ∈ g.order) :
    ∃ more, g.earlier b 0 = g.earlier a (g.block a).ops.length ++ more := by
  obtain ⟨ran, rest, horder⟩ := List.append_of_mem hb
  obtain ⟨first, between, hran⟩ := List.append_of_mem ((before_iff horder).1 h)
  have horder' : g.order = first ++ a :: (between ++ b :: rest) := by
    rw [horder, hran, List.append_assoc, List.cons_append]
  refine ⟨between.flatMap g.emittedBy, ?_⟩
  rw [earlier, earlier, takeWhile_order horder, takeWhile_order horder', hran]
  simp [emittedBy]

theorem exists_later {x : Execution} (hx : g.execute = .ok x) {b : BlockId}
    (hb : b ∈ g.order) {i : Nat} (hi : i < (g.block b).ops.length) :
    ∃ later,
      x.statements.toList = g.earlier b i ++ g.emittedAt b i ++ later := by
  obtain ⟨ran, rest, horder⟩ := List.append_of_mem hb
  have hrange : List.range (g.block b).ops.length = List.range (i + 1) ++
      (List.range ((g.block b).ops.length - (i + 1))).map (i + 1 + ·) := by
    rw [← List.range_add]
    congr 1
    omega
  refine ⟨((List.range ((g.block b).ops.length - (i + 1))).map
    (i + 1 + ·)).flatMap (g.emittedAt b) ++ rest.flatMap g.emittedBy, ?_⟩
  rw [← earlier_succ, statements_eq_flatMap hx, earlier, takeWhile_order horder,
    horder, List.flatMap_append, List.flatMap_cons, emittedBy, hrange,
    List.flatMap_append]
  simp [List.append_assoc]

/-! ## The answer in terms of paths -/

/-- **Symbolic execution is exact.** The answer is what is added at the
positions of the reachable blocks, each block once. At every position that is
the statement for each distinct list of operands which some forward path
brings there, once; a block that control cannot reach adds nothing. -/
theorem statements_follow_paths (hg : g.WellFormed) (hfields : g.FieldsAgree)
    {answer : List Statement} (h : g.statements = .ok answer) :
    answer = g.order.flatMap (fun b =>
        (List.range (g.block b).ops.length).flatMap (g.emittedAt b)) ∧
      g.order.Nodup ∧ (∀ b, b ∈ g.order ↔ g.Reachable b) ∧
      (∀ b i op, g.Reachable b → (g.block b).ops[i]? = some op →
        (∀ stack, g.StackAt b i stack → op.operands ≤ stack.length) ∧
        ∃ tops found, g.OperandLists b i op tops ∧
          tops.mapM op.statement? = some found ∧
          g.emittedAt b i = found.filterMap id) ∧
      ∀ b i, ¬ g.Reachable b → g.emittedAt b i = [] := by
  obtain ⟨x, hx, rfl⟩ := exists_execute h
  refine ⟨statements_eq_flatMap hx, g.nodup_order, g.mem_order_iff hg, ?_, ?_⟩
  · intro b i op hb hop
    obtain ⟨ran, rest, horder⟩ :=
      List.append_of_mem ((g.mem_order_iff hg b).2 hb)
    exact emittedAt_of_ran hx horder hfields hop
  · intro b i hb
    rw [← g.mem_order_iff hg b] at hb
    exact emittedAt_eq_nil hg hx hb i

/-- A choice between a local and a field, with a handler for the field and a
way back to the start. The last block cannot be reached. -/
def choice : FlowGraph where
  blocks := #[
    { ops := [⟨1, .load (.parameter (slot 0 "flag"))⟩, ⟨1, .transform 1 none⟩]
      successors := [⟨1, .fallThrough⟩, ⟨2, .branch⟩] },
    { ops := [⟨2, .load (.localVar (slot 1 "count"))⟩]
      successors := [⟨3, .branch⟩] },
    { ops := [⟨3, .getField limit⟩]
      successors := [⟨3, .fallThrough⟩, ⟨4, .exception⟩] },
    { ops := [⟨4, .store (.localVar (slot 2 "result"))⟩]
      successors := [⟨0, .branch⟩] },
    { ops := [⟨5, .load (.constant (.unknown .reference))⟩, ⟨5, .raise⟩] },
    { ops := [⟨6, .pop 1⟩] } ]
where
  slot (ordinal : Nat) (name : String) : LocalVariable :=
    { scope := "choose", ordinal, name, type := .int }
  limit : Field :=
    { owner := "Config", name := "limit", type := .int, isStatic := true,
      isPrivate := false }

private theorem fieldsAgree_choice : choice.FieldsAgree := by
  have honly : ∀ f, choice.Pushes (.field f) → f = choice.limit := by
    rintro f ⟨b, hb, op, hop, hv⟩
    have hmem : Variable.field f ∈ choice.blocks.toList.flatMap fun b =>
        b.ops.flatMap fun op => op.effect.pushed :=
      List.mem_flatMap.2 ⟨b, Array.mem_toList_iff.2 hb,
        List.mem_flatMap.2 ⟨op, hop, hv⟩⟩
    simpa [choice, StackEffect.pushed] using hmem
  intro f f' hf hf' _ _
  rw [honly f hf, honly f' hf']

/-- The assignment of `choice` runs once with the local and once with the
field. -/
theorem choice_follows_paths :
    choice.WellFormed ∧ choice.FieldsAgree ∧
      choice.statements = .ok [
        .assign 4 (.localVar (choice.slot 2 "result"))
          (.localVar (choice.slot 1 "count")),
        .assign 4 (.localVar (choice.slot 2 "result")) (.field choice.limit)] ∧
      ∃ tops found, choice.OperandLists 3 0
        ⟨4, .store (.localVar (choice.slot 2 "result"))⟩ tops ∧
        tops.mapM (StackOp.statement?
          ⟨4, .store (.localVar (choice.slot 2 "result"))⟩) = some found ∧
        choice.emittedAt 3 0 = found.filterMap id := by
  have hg : choice.WellFormed := by
    unfold WellFormed choice
    decide
  have hstatements : choice.statements = .ok [
      .assign 4 (.localVar (choice.slot 2 "result"))
        (.localVar (choice.slot 1 "count")),
      .assign 4 (.localVar (choice.slot 2 "result"))
        (.field choice.limit)] := by
    cbv
  have h := statements_follow_paths hg fieldsAgree_choice hstatements
  have hreachable : choice.Reachable 3 := (h.2.2.1 3).1 (by
    have horder : choice.order = [0, 1, 2, 3, 4] := by cbv
    simp [horder])
  exact ⟨hg, fieldsAgree_choice, hstatements,
    (h.2.2.2.1 3 0 _ hreachable rfl).2⟩

end FlowGraph

end TestCost
