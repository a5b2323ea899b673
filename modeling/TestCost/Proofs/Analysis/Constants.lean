import TestCost.Proofs.Analysis.ClassRun
import TestCost.Proofs.Analysis.Facts
import TestCost.Proofs.Method

/-!
# What becomes of constants

A constant is no place that holds values: methods do not assign to it, pass
nothing into it, and a field is none. There is one way in which something can
become known of it all the same. Writing an element says of the array what is
known of the value, and the array may be a constant: a fresh array, or the
result of a call, is the unknown constant of its kind, and all unknown
constants of a kind are one. So storing an injectable value in one fresh array
makes all results that are not tracked injectable.

## Main results

* `learnt_preserved` — a constant learns by element writes into it, and by
  nothing else.
* `constants_learn_by_elements` — of a run, at every moment and at its end.
-/

namespace TestCost

/-- An element of the constant was written, with a value of which the fact was
known. -/
def StoredInto (fact : Analysis → Variable → Bool) (past : List Moment)
    (k : Constant) : Prop :=
  ∃ y ∈ past, ∃ line index value, y.statement =
    .putElement line (.constant k) index value ∧
    fact y.state value = true

theorem Variable.IsPlace.constant_beq {v : Variable} (h : v.IsPlace)
    (k : Constant) :
    (Variable.constant k == v) = false := by
  rw [← Bool.not_eq_true, Variable.beq_iff]
  cases v with
  | constant c => exact absurd rfl (h c)
  | parameter | localVar | field => simp [Variable.identity]

theorem Variable.constant_beq_iff {v : Variable} {k : Constant} :
    (Variable.constant k == v) = true ↔ v = .constant k := by
  rw [Variable.beq_iff]
  cases v <;> simp [Variable.identity, eq_comm]

/-- The methods of a source let values flow into places only. -/
theorem ClassSource.placed_of_mem_classes {s : ClassSource} {c : ClassModel}
    (hc : c ∈ s.classes) {m : Method} (hm : m ∈ c.methods) : m.Placed := by
  obtain ⟨bytes, _, hparse⟩ := exists_parse_of_mem_classes hc
  obtain ⟨pool, entry, hload⟩ := ClassModel.exists_method_of_parse hparse hm
  obtain ⟨header, listing, _, hdecode, _⟩ :=
    ClassModel.exists_decode_of_loadMethod hload
  exact Method.placed_of_decode hdecode

namespace Analysis

variable {a b : Analysis}

/-- What is known of constants, and that only methods with places are met. -/
structure Learnt (past : History) (a : Analysis) : Prop where
  turns : ∀ t ∈ past.turns, t.method.Placed
  queue : ∀ entry ∈ a.queue, ∀ m ∈ entry.1.methods, m.Placed
  injectable : ∀ k, a.isInjectable (.constant k) = true ↔
    StoredInto isInjectable past.moments k
  global : ∀ k, a.isGlobal (.constant k) = true ↔
    StoredInto isGlobal past.moments k

variable {past next : History}

theorem learnt_empty (r : Repository) (w : Whitelist) (name : String) :
    Learnt {} { repository := r, whitelist := w, className := name } where
  turns := by simp
  queue := by simp
  injectable := by simp [isInjectable, StoredInto]
  global := by simp [isGlobal, Variable.isStatic, StoredInto]

theorem storedInto_append_of_ne {fact : Analysis → Variable → Bool}
    {moments : List Moment} {x : Moment} {k : Constant} (h : ∀ line index value,
      x.statement ≠ .putElement line (.constant k) index value) :
    StoredInto fact (moments ++ [x]) k ↔ StoredInto fact moments k := by
  simp only [StoredInto, List.mem_append, List.mem_singleton, or_and_right,
    exists_or, exists_eq_left, h, false_and, exists_false, or_false]

theorem storedInto_append_putElement
    {fact : Analysis → Variable → Bool} {moments : List Moment}
    {x : Moment} {line : Nat} {array index value : Variable}
    (h : x.statement = .putElement line array index value) (k : Constant) :
    StoredInto fact (moments ++ [x]) k ↔
      StoredInto fact moments k ∨
        (fact x.state value = true ∧ array = .constant k) := by
  simp only [StoredInto, List.mem_append, List.mem_singleton, or_and_right,
    exists_or, exists_eq_left, h, Statement.putElement.injEq]
  grind

/-- A step that leaves constants alone. -/
theorem Learnt.step (h : Learnt past a) {met : Option (ClassModel × Method)}
    (hgrows : Grows a (a.fresh met) b)
    (hmet : ∀ c m, met = some (c, m) → ∀ n ∈ c.methods, n.Placed)
    (hsame : ∀ k, SameFacts (.constant k) a b)
    (hturns : next.turns = past.turns) (hmoments : ∀ fact k,
      StoredInto fact next.moments k ↔ StoredInto fact past.moments k) :
    Learnt next b where
  turns := hturns ▸ h.turns
  queue :=
    hgrows.forall_queue (P := fun c => ∀ m ∈ c.methods, m.Placed) hmet h.queue
  injectable k := by rw [(hsame k).injectable, h.injectable, hmoments]
  global k := by rw [(hsame k).global, h.global, hmoments]

theorem placed_of_charged? (hfaithful : a.repository.Faithful)
    {statement : Statement} {c : ClassModel} {m : Method}
    (hcharged : a.chargedBy? statement = some (c, m)) :
    ∀ n ∈ c.methods, n.Placed := by
  obtain ⟨hclass, _, _⟩ := declared_of_chargedBy? hfaithful hcharged
  exact fun n hn => ClassSource.placed_of_mem_classes hclass hn

/-- Only writing an element can say something of a constant. -/
theorem sameFacts_apply_constant (hfaithful : a.repository.Faithful)
    (node : NodeId) {s : Statement} (hplaced : ∀ line target value,
      s = .assign line target value → target.IsPlace)
    (hother : ∀ line array index value, s ≠ .putElement line array index value)
    (k : Constant) :
    SameFacts (.constant k) a (Analysis.apply node a s) := by
  cases s with
  | assign line target value =>
      exact sameFacts_assign a
        ((hplaced line target value rfl).constant_beq k) value
  | putField line receiver target value =>
      exact sameFacts_putField _ _ _ _
        ((Variable.isPlace_field target).constant_beq k) value
  | putElement line array index value =>
      exact absurd rfl (hother line array index value)
  | invoke call =>
      apply sameFacts_invoke
      intro c m hcharged
      obtain ⟨_, _, hmethod, _⟩ := charged?_eq_some hcharged
      have hby : a.chargedBy? (.invoke call) = some (c, m) := hcharged
      have hm :=
        placed_of_charged? hfaithful hby m (mem_methods_of_method? hmethod)
      exact ⟨fun v hv => (hm.parameters v hv).constant_beq k,
        fun v hv => (hm.receiver v hv).constant_beq k⟩

theorem Learnt.apply {x : Moment} (h : Learnt past x.state)
    (hfaithful : x.state.repository.Faithful) (hplaced : ∀ line target value,
      x.statement = .assign line target value → target.IsPlace) :
    Learnt { past with moments := past.moments ++ [x] }
      (apply x.node x.state x.statement) := by
  have hgrows := grows_apply x.node x.state x.statement
  have hmet : ∀ c m, x.state.chargedBy? x.statement = some (c, m) →
      ∀ n ∈ c.methods, n.Placed :=
    fun _ _ => placed_of_charged? hfaithful
  by_cases hput : ∃ line array index value, x.statement =
    .putElement line array index value
  · obtain ⟨line, array, index, value, hput⟩ := hput
    have hsame : ∀ k, SameFacts (.constant k) (x.state.assign array value)
        (Analysis.apply x.node x.state x.statement) := by
      rw [hput]
      exact fun k => sameFacts_putElement _ _ _ _ _
    refine ⟨h.turns, hgrows.forall_queue (P := fun c =>
      ∀ m ∈ c.methods, m.Placed) hmet h.queue, ?_, ?_⟩
    · intro k
      rw [storedInto_append_putElement hput, (hsame k).injectable,
        isInjectable_assign, Bool.or_eq_true, Bool.and_eq_true, h.injectable,
        Variable.constant_beq_iff]
    · intro k
      rw [storedInto_append_putElement hput, (hsame k).global, isGlobal_assign,
        Bool.or_eq_true, Bool.and_eq_true, h.global, Variable.constant_beq_iff]
      apply or_congr_right
      constructor
      · rintro ⟨hfact, rfl⟩
        exact ⟨by simpa [Variable.isStatic] using hfact, rfl⟩
      · rintro ⟨hfact, rfl⟩
        exact ⟨by simp [hfact], rfl⟩
  · have hother : ∀ line array index value,
        x.statement ≠ .putElement line array index value :=
      fun line array index value heq => hput ⟨line, array, index, value, heq⟩
    exact h.step hgrows hmet
      (sameFacts_apply_constant hfaithful x.node hplaced hother) rfl fun _ k =>
      storedInto_append_of_ne fun line => hother line (.constant k)

theorem Learnt.begin {c : ClassModel} (hc : ∀ m ∈ c.methods, m.Placed)
    {op : Operation} (hop : op.Of c) (h : Learnt past a) :
    Learnt { past with operations := past.operations ++ [op] }
      (a.begin op) := by
  have hgrows := a.grows_begin op
  have hmet : ∀ d m, op.visited? = some (d, m) → ∀ n ∈ d.methods, n.Placed := by
    intro d m hvisited
    cases hop with
    | field | method | call => cases hvisited
    | visit =>
        obtain ⟨rfl, _⟩ := Prod.mk.inj (Option.some.inj hvisited)
        exact hc
  have hsame : ∀ k, SameFacts (.constant k) a (a.begin op) := by
    intro k
    cases hop with
    | field hf =>
        exact sameFacts_setInjectable a
          ((Variable.isPlace_field _).constant_beq k)
    | @method m hm =>
        apply sameFacts_setMethodInjectable
        intro v hv
        rcases List.mem_append.1 hv with hv | hv
        · exact ((hc m hm).receiver v (Option.mem_toList.1 hv)).constant_beq k
        · exact ((hc m hm).parameters v hv).constant_beq k
    | @visit m hm => exact sameFacts_enqueue a c m
    | call caller line callee =>
        have hcall : SameFacts (.constant k) a (a.addCall caller line callee) :=
          sameFacts_of_eq rfl rfl
        exact hcall
  exact h.step hgrows hmet hsame rfl fun _ _ => Iff.rfl

theorem learnt_preserved {s : ClassSource} {w : Whitelist} {c : ClassModel}
    (hc : ∀ m ∈ c.methods, m.Placed) :
    Preserves (Operation.Of c) fun past a => Over s w a ∧ Learnt past a := by
  refine over_preserved.and ?_
  constructor
  case operation =>
    intro past a op hop _ h
    exact h.begin hc hop
  case skip =>
    intro past a d signature rest _ h hqueue _
    exact { h with queue := forall_mem_rest hqueue h.queue }
  case turn =>
    intro past a d signature rest m _ h hqueue hm
    refine { h with queue := forall_mem_rest hqueue h.queue, turns := ?_ }
    intro t ht
    rcases List.mem_append.1 ht with ht | ht
    · exact h.turns t ht
    · have hwaits : (d, signature) ∈ a.queue := by
        rw [hqueue]
        exact List.mem_cons_self
      rw [List.mem_singleton.1 ht]
      exact h.queue (d, signature) hwaits m (mem_methods_of_method? hm)
  case moment =>
    intro past t x hover h ht hstatement
    apply h.apply hover.faithful
    intro line target value heq
    exact (h.turns t ht).targets line target value (heq ▸ hstatement)

end Analysis

/-- Of the run behind a cost: at every moment, and at the end, a constant is
injectable exactly if an injectable value has been written into an element of
it before, and likewise for global. -/
theorem constants_learn_by_elements {r r' : Repository}
    (hfaithful : r.Faithful) {w : Whitelist} {name : String} {cost : ClassCost}
    (h : r.classCost w name = (r', .ok cost)) :
    ∃ c turns a ids, r.source.load (ClassName.dotted name) = .ok c ∧
      ClassRun (r.get name).1 w c turns a ∧ cost = a.finish ids ∧
      (∀ before x after,
        turns.flatMap Turn.moments = before ++ x :: after → ∀ k,
        (x.state.isInjectable (.constant k) = true ↔
          StoredInto Analysis.isInjectable before k) ∧
        (x.state.isGlobal (.constant k) = true ↔
          StoredInto Analysis.isGlobal before k)) ∧
      ∀ k, (a.isInjectable (.constant k) = true ↔
          StoredInto Analysis.isInjectable (turns.flatMap Turn.moments) k) ∧
        (a.isGlobal (.constant k) = true ↔
          StoredInto Analysis.isGlobal (turns.flatMap Turn.moments) k) := by
  obtain ⟨c, turns, a, ids, hload, hrun, hcost, _⟩ :=
    Repository.exists_classRun hfaithful h
  have hplaced : ∀ m ∈ c.methods, m.Placed := fun m hm =>
    ClassSource.placed_of_mem_classes (ClassSource.mem_classes hload) hm
  obtain ⟨⟨past, hpast, _, hend⟩, hmoments⟩ :=
    (Analysis.learnt_preserved (w := w) hplaced).classRun
      ⟨Analysis.over_empty (hfaithful.get name) w c.name,
        Analysis.learnt_empty _ w c.name⟩ hrun
  refine ⟨c, turns, a, ids, hload, hrun, hcost, ?_, ?_⟩
  · intro before x after hsplit k
    obtain ⟨earlier, rfl, _, hx⟩ := hmoments before x after hsplit
    exact ⟨hx.injectable k, hx.global k⟩
  · rw [← hpast]
    exact fun k => ⟨hend.injectable k, hend.global k⟩

namespace FreshArray

/-- `p.A`, whose static method `run` puts its parameter into a fresh array. -/
def bytes : Bytes :=
  #[202, 254, 186, 190, 0, 0, 0, 52, 0, 6, 1, 0, 3, 112, 47, 65, 7, 0, 1, 1, 0,
    3, 114, 117, 110,
    1, 0, 8, 40, 76, 112, 47, 65, 59, 41, 86, 1, 0, 4, 67, 111, 100, 101, 0, 33,
      0, 2, 0, 0, 0, 0,
    0, 0, 0, 1, 0, 9, 0, 3, 0, 4, 0, 1, 0, 5, 0, 0, 0, 20, 0, 8, 0, 8, 0, 0, 0,
      8, 4, 189, 0, 2,
    3, 42, 83, 177, 0, 0, 0, 0, 0, 0]

def repository : Repository := { source := .table [("p.A", bytes)] }

def file : ClassFile where
  pool := #[.empty, .utf8 "p/A", .classRef 1, .utf8 "run", .utf8 "(Lp/A;)V",
    .utf8 "Code"]
  thisClass := 2
  superClass := 0
  fields := []
  methods :=
    [{ access := 9, name := 3, descriptor := 4
       attributes :=
        [.code { code := #[4, 189, 0, 2, 3, 42, 83, 177], handlers := [],
                 tables := [] }] }]

def argument : Variable :=
  .parameter { scope := "p.A.run(Lp/A;)V", ordinal := 0, name := "param_0",
               type := .reference }

def storing : ClassModel where
  name := "p.A"
  superName := none
  fields := []
  methods :=
    [{ owner := "p.A", name := "run", descriptor := "(Lp/A;)V",
       visibility := .publicAccess
       isStatic := true, receiver := none, parameters := [argument], locals :=
         [], complexity := 1
       startingLine := 0
       statements :=
        [.putElement 0 (.constant (.unknown .reference))
          (.constant { value := "0", type := .int })
          argument] }]

/-- The repository once it has decoded the class. -/
def loaded : Repository :=
  { repository with cache := [("p.A", storing)] }.note (.decodedClass "p.A" 1)

theorem dotted_storing : ClassName.dotted "p.A" = "p.A" := by decide +kernel

theorem load_storing :
    repository.source.load (ClassName.dotted "p.A") = .ok storing := by
  have hread : repository.source.read "p.A" = .ok (some bytes) := rfl
  have hfile : (ClassFile.parse bytes).toOption = some file := by decide +kernel
  have hclass : ClassModel.ofClassFile file = .ok storing := by cbv
  rw [dotted_storing, ClassSource.load_of_read hread]
  exact ClassModel.parse_of_file hfile hclass "p.A"

theorem get_storing : repository.get "p.A" = (loaded, .ok storing) := by
  rw [Repository.get_of_load rfl load_storing, dotted_storing]
  rfl

theorem storing_learns : repository.Faithful ∧
    ∃ r' cost, repository.classCost .standard "p.A" = (r', .ok cost) ∧
      ∃ turns a ids,
        ClassRun (repository.get "p.A").1 .standard storing turns a ∧
        cost = a.finish ids ∧ ∀ k, a.isInjectable (.constant k) = true ↔
          StoredInto Analysis.isInjectable (turns.flatMap Turn.moments) k := by
  have hfaithful : repository.Faithful := Repository.faithful_empty _ #[]
  have hcost := Repository.classCost_of_get get_storing .standard
  generalize (Analysis.ofClass loaded .standard storing).visitClass storing =
    visited at hcost
  obtain ⟨c, turns, a, ids, hload, hrun, hfinish, _, hend⟩ :=
    constants_learn_by_elements hfaithful hcost
  obtain rfl := Except.ok.inj (load_storing.symm.trans hload)
  exact ⟨hfaithful, _, _, hcost, turns, a, ids, hrun, hfinish,
    fun k => (hend k).1⟩

/-- At the end of the run, what is unknown is injectable. -/
theorem unknown_injectable : repository.get "p.A" = (loaded, .ok storing) ∧
    ((Analysis.ofClass loaded .standard storing).visitClass
      storing).1.isInjectable
      (.constant (.unknown .reference)) = true :=
  ⟨get_storing, by decide +kernel⟩

end FreshArray

end TestCost
