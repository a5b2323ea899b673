import TestCost.Proofs.Analysis.Step

/-!
# Histories of an analysis

An analysis is told what a test can decide about, what flows where and which
methods to visit (`Operation`). A visit takes the waiting methods one after the
other, and each of them in its turn has its statements applied.

`Performed` describes this without a bound on the number of turns: the turns
that a list of operations leads to, with the state in which each of them begins.
The states in which single statements begin follow from that (`Turn.moments`).
That `visit` never runs out of rounds is a matter of counting: a method that
comes in has left the methods of the source that have no node, so those and
the waiting ones together only become fewer, by one for each turn.

Invariants of an analysis speak of a state and of what has happened before it.
`Preserves` collects what has to be shown of such an invariant, one property
for each kind of step. All of them need to know the source (`Over`), which is
shown once; the others are shown beside it (`Preserves.and`).

## Main results

* `exists_performed` — what operations do is a history that has come to its
  end.
* `exists_turns_of_operation` — the turns that one of the operations leads to.
* `Preserves.performed`, `Preserves.sampled` — an invariant holds at the end
  of a history and at every moment of it.
* `over_preserved` — an analysis stays with its source and its whitelist.
-/

namespace TestCost

/-- A statement about to be applied: the state, and the node that it counts
for. -/
structure Moment where
  state : Analysis
  node : NodeId
  statement : Statement

/-- A method about to be analysed: the state, in which the method no longer
waits. -/
structure Turn where
  state : Analysis
  method : Method

/-- What can be asked of an analysis. -/
inductive Operation where
  | setInjectable (v : Variable)
  | setMethodInjectable (m : Method)
  | assign (target source : Variable)
  | putField (writer : NodeId) (line : Nat) (receiver : Option Variable)
      (target : Field)
      (value : Variable)
  | putElement (writer : NodeId) (line : Nat) (array value : Variable)
  | addCall (caller : NodeId) (line : Nat) (callee : NodeId)
  | visit (c : ClassModel) (m : Method)

/-- The method that an operation visits, with its class. -/
def Operation.visited? : Operation → Option (ClassModel × Method)
  | visit c m => some (c, m)
  | _ => none

theorem Operation.eq_visit_of_visited? {op : Operation} {c : ClassModel}
    {m : Method} (h : op.visited? = some (c, m)) : op = .visit c m := by
  cases op with
  | visit d n =>
      obtain ⟨rfl, rfl⟩ := Prod.mk.inj (Option.some.inj h)
      rfl
  | setInjectable | setMethodInjectable | assign | putField | putElement
  | addCall =>
      cases h

namespace Analysis

variable {a b : Analysis}

/-- The state with another queue. -/
def withQueue (a : Analysis) (queue : List (ClassModel × String)) : Analysis :=
  { a with queue }

/-- The state that the first statement of a method meets. -/
def opened (a : Analysis) (m : Method) : Analysis :=
  { a with graph := (a.graph.add m).1 }.note
    (.analysingMethod m.fullName m.locals.length)

theorem analyse_eq (a : Analysis) (m : Method) :
    a.analyse m = m.statements.foldl (apply (a.graph.add m).2) (a.opened m) :=
  rfl

/-- The moments of statements that are applied one after the other. -/
def moments (node : NodeId) : Analysis → List Statement → List Moment
  | _, [] => []
  | a, s :: statements =>
    ⟨a, node, s⟩ :: moments node (apply node a s) statements

theorem map_statement_moments (node : NodeId) (a : Analysis)
    (statements : List Statement) :
    (moments node a statements).map Moment.statement = statements := by
  induction statements generalizing a with
  | nil => rfl
  | cons s statements ih => rw [moments, List.map_cons, ih]

/-- What an operation does before any method is analysed. -/
def begin (a : Analysis) : Operation → Analysis
  | .setInjectable v => a.setInjectable v
  | .setMethodInjectable m => a.setMethodInjectable m
  | .assign target source => a.assign target source
  | .putField writer line receiver target value =>
    a.putField writer line receiver target value
  | .putElement writer line array value => a.putElement writer line array value
  | .addCall caller line callee => a.addCall caller line callee
  | .visit c m => (a.enqueue c m).1

/-- What an operation does. -/
def perform (a : Analysis) : Operation → Analysis
  | .visit c m => (a.visit c m).1
  | op => a.begin op

/-- The waiting methods are analysed until none waits. -/
inductive Drains : Analysis → List Turn → Analysis → Prop where
  | done {a : Analysis} : a.queue = [] → Drains a [] a
  | skip {a b : Analysis} {c : ClassModel} {signature : String}
      {rest : List (ClassModel × String)}
      {turns : List Turn} :
      a.queue = (c, signature) :: rest → c.method? signature = none →
      Drains (a.withQueue rest) turns b → Drains a turns b
  | turn {a b : Analysis} {c : ClassModel} {signature : String}
      {rest : List (ClassModel × String)}
      {m : Method} {turns : List Turn} :
      a.queue = (c, signature) :: rest → c.method? signature = some m →
      Drains ((a.withQueue rest).analyse m) turns b →
      Drains a (⟨a.withQueue rest, m⟩ :: turns) b

/-- Operations are performed one after the other, each to its end. -/
inductive Performed :
    Analysis → List Operation → List Turn → Analysis → Prop where
  | nil (a : Analysis) : Performed a [] [] a
  | cons {a b c : Analysis} {op : Operation} {ops : List Operation}
      {turns rest : List Turn} :
      Drains (a.begin op) turns b → Performed b ops rest c →
      Performed a (op :: ops) (turns ++ rest) c

end Analysis

/-- The moments of a turn. -/
def Turn.moments (t : Turn) : List Moment :=
  Analysis.moments (t.state.graph.add t.method).2 (t.state.opened t.method)
    t.method.statements

namespace Analysis

variable {a b : Analysis}

/-! ## Every visit comes to its end -/

theorem grows_begin (a : Analysis) (op : Operation) :
    Grows a (a.fresh op.visited?) (a.begin op) := by
  cases op with
  | setInjectable v => exact (factsOnly_setInjectable a v).grows
  | setMethodInjectable m => exact (factsOnly_setMethodInjectable a m).grows
  | assign target source => exact (factsOnly_assign a target source).grows
  | putField writer line receiver target value =>
      exact grows_putField a writer line receiver target value
  | putElement writer line array value =>
      exact grows_putElement a writer line array value
  | addCall caller line callee => exact grows_addCall a caller line callee
  | visit c m => exact grows_enqueue a c m

theorem faithful_opened (h : a.repository.Faithful) (m : Method) :
    (a.opened m).repository.Faithful := h.note _

theorem names_opened {m : Method} (h : m.fullName ∈ a.graph.names) :
    (a.opened m).graph.names = a.graph.names := by
  show (a.graph.add m).1.names = _
  rw [a.graph.add_of_mem h]

/-- The full names of methods of the source that have no node. -/
def unmetNames (a : Analysis) : Finset String :=
  (a.repository.source.declared.map fun m => m.fullName).toFinset \
    a.graph.names.toFinset

/-- An upper bound for the number of turns to come. -/
def room (a : Analysis) : Nat := a.unmetNames.card + a.queue.length

theorem card_unmetNames_le (a : Analysis) :
    a.unmetNames.card ≤ a.repository.source.size * methodLimit := by
  calc a.unmetNames.card
      ≤ (a.repository.source.declared.map fun m => m.fullName).toFinset.card :=
        Finset.card_le_card Finset.sdiff_subset
    _ ≤ (a.repository.source.declared.map fun m => m.fullName).length :=
      List.toFinset_card_le _
    _ = a.repository.source.declared.length := List.length_map _
    _ ≤ a.repository.source.size * methodLimit :=
      a.repository.source.length_declared_le

theorem Grows.room_eq (h : Grows a [] b) : b.room = a.room := by
  have hnames := h.names
  have hqueue := h.queue
  simp only [List.map_nil, List.append_nil, List.nil_append] at hnames hqueue
  rw [room, room, unmetNames, unmetNames, h.source, hnames, hqueue]

theorem Grows.room_le {c : ClassModel} {m : Method}
    (h : Grows a [(c, m)] b) (hdeclared : m ∈ a.repository.source.declared)
    (hnew : m.fullName ∉ a.graph.names) :
    b.room ≤ a.room := by
  have hless : b.unmetNames ⊂ a.unmetNames := by
    rw [unmetNames, unmetNames, h.source, h.names]
    refine Finset.ssubset_iff_subset_ne.2 ⟨?_, ?_⟩
    · intro name hname
      simp only [Finset.mem_sdiff, List.mem_toFinset, List.mem_append,
        not_or] at hname ⊢
      exact ⟨hname.1, hname.2.1⟩
    · intro heq
      have hmem := congrArg (m.fullName ∈ ·) heq
      simp [hnew] at hmem
      exact hmem m hdeclared rfl
  have hcard := Finset.card_lt_card hless
  rw [room, room, h.queue]
  simp only [List.map_cons, List.map_nil, List.length_append, List.length_cons,
    List.length_nil]
  omega

theorem room_apply_le (hfaithful : a.repository.Faithful) (node : NodeId)
    (s : Statement) :
    (apply node a s).room ≤ a.room := by
  have hgrows := grows_apply node a s
  rcases a.fresh_cases (a.chargedBy? s) with ⟨hnone, _⟩ |
    ⟨c, m, hone, hcharged, hnew⟩
  · rw [hnone] at hgrows
    exact Nat.le_of_eq hgrows.room_eq
  · rw [hone] at hgrows
    obtain ⟨hclass, hmethod, _⟩ := declared_of_chargedBy? hfaithful hcharged
    exact hgrows.room_le (List.mem_flatMap.2 ⟨c, hclass, hmethod⟩) hnew

theorem room_foldl_le (hfaithful : a.repository.Faithful) (node : NodeId)
    (statements : List Statement) :
    (statements.foldl (apply node) a).repository.Faithful ∧
      (statements.foldl (apply node) a).room ≤ a.room := by
  induction statements generalizing a with
  | nil => exact ⟨hfaithful, Nat.le_refl _⟩
  | cons s statements ih =>
      obtain ⟨hrest, hle⟩ := ih ((grows_apply node a s).faithful hfaithful)
      exact ⟨hrest, Nat.le_trans hle (room_apply_le hfaithful node s)⟩

theorem room_opened_le (a : Analysis) (m : Method) :
    (a.opened m).room ≤ a.room := by
  have hsub : (a.opened m).unmetNames ⊆ a.unmetNames := by
    apply Finset.sdiff_subset_sdiff (Finset.Subset.refl _)
    intro name hname
    rw [List.mem_toFinset] at hname ⊢
    show name ∈ (a.graph.add m).1.names
    rw [a.graph.names_add]
    split
    · exact hname
    · exact List.mem_append_left _ hname
  exact Nat.add_le_add_right (Finset.card_le_card hsub) _

theorem drains_drain (hfaithful : a.repository.Faithful) {rounds : Nat}
    (h : a.room ≤ rounds) :
    (a.drain rounds).repository.Faithful ∧ ∃ turns,
      Drains a turns (a.drain rounds) := by
  induction rounds generalizing a with
  | zero =>
      have hqueue : a.queue.length = 0 := by
        unfold room at h
        omega
      exact ⟨hfaithful, [], .done (List.eq_nil_of_length_eq_zero hqueue)⟩
  | succ rounds ih =>
      rw [drain]
      cases hqueue : a.queue with
      | nil => exact ⟨hfaithful, [], .done hqueue⟩
      | cons entry rest =>
          obtain ⟨c, signature⟩ := entry
          have hroom : (a.withQueue rest).room < a.room := by
            show a.unmetNames.card + rest.length <
              a.unmetNames.card + a.queue.length
            rw [hqueue, List.length_cons]
            omega
          cases hmethod : c.method? signature with
          | none =>
              obtain ⟨hrest, turns, hturns⟩ :=
                ih (a := a.withQueue rest) hfaithful (by omega)
              simp only [hmethod]
              exact ⟨hrest, turns, .skip hqueue hmethod hturns⟩
          | some m =>
              have hopened := room_opened_le (a.withQueue rest) m
              obtain ⟨hfaithful', hle⟩ := room_foldl_le
                (faithful_opened (a := a.withQueue rest) hfaithful m)
                ((a.withQueue rest).graph.add m).2 m.statements
              rw [← analyse_eq] at hfaithful' hle
              obtain ⟨hrest, turns, hturns⟩ := ih hfaithful' (by omega)
              simp only [hmethod]
              exact ⟨hrest, _, .turn hqueue hmethod hturns⟩

theorem Drains.queue_eq_nil {turns : List Turn} (h : Drains a turns b) :
    b.queue = [] := by
  induction h with
  | done hqueue => exact hqueue
  | skip _ _ _ ih => exact ih
  | turn _ _ _ ih => exact ih

theorem drains_perform (hfaithful : a.repository.Faithful)
    (hqueue : a.queue = []) (op : Operation) :
    (a.perform op).repository.Faithful ∧ ∃ turns,
      Drains (a.begin op) turns (a.perform op) := by
  have hgrows := a.grows_begin op
  cases op with
  | visit c m =>
      apply drains_drain (hgrows.faithful hfaithful)
      have hlength : (a.begin (.visit c m)).queue.length ≤ 1 := by
        rw [hgrows.queue, hqueue, List.append_nil, List.length_map]
        rcases a.fresh_cases (some (c, m)) with ⟨hnone, _⟩ | ⟨d, n, hone, _⟩
        · exact Nat.le_trans (Nat.le_of_eq (congrArg List.length hnone))
            (Nat.zero_le 1)
        · exact Nat.le_of_eq (congrArg List.length hone)
      have hcard := (a.begin (.visit c m)).card_unmetNames_le
      calc (a.begin (.visit c m)).room
          = (a.begin (.visit c m)).unmetNames.card +
              (a.begin (.visit c m)).queue.length := rfl
        _ ≤ (a.begin (.visit c m)).repository.source.size *
              methodLimit + 1 := by omega
  | setInjectable | setMethodInjectable | assign | putField | putElement
  | addCall =>
      exact ⟨hgrows.faithful hfaithful, [], .done (hgrows.queue.trans hqueue)⟩

theorem exists_performed (hfaithful : a.repository.Faithful)
    (hqueue : a.queue = []) (ops : List Operation) :
    ∃ turns, Performed a ops turns (ops.foldl perform a) ∧
      (ops.foldl perform a).queue = [] ∧
      (ops.foldl perform a).repository.Faithful := by
  induction ops generalizing a with
  | nil => exact ⟨[], .nil a, hqueue, hfaithful⟩
  | cons op ops ih =>
      obtain ⟨hnext, turns, hturns⟩ := drains_perform hfaithful hqueue op
      obtain ⟨rest, hrest, hend⟩ := ih hnext hturns.queue_eq_nil
      exact ⟨turns ++ rest, .cons hturns hrest, hend⟩

/-! ## A history is determined by its beginning -/

theorem Drains.unique {b' : Analysis} {turns turns' : List Turn}
    (h : Drains a turns b) (h' : Drains a turns' b') :
    turns = turns' ∧ b = b' := by
  induction h generalizing turns' with
  | done hqueue =>
      cases h' with
      | done _ => exact ⟨rfl, rfl⟩
      | skip hqueue' _ _ | turn hqueue' _ _ => cases hqueue.symm.trans hqueue'
  | skip hqueue hnone _ ih =>
      cases h' with
      | done hqueue' => cases hqueue.symm.trans hqueue'
      | skip hqueue' _ hrest =>
          obtain ⟨⟨rfl, rfl⟩, rfl⟩ := List.cons.inj (hqueue.symm.trans hqueue')
          exact ih hrest
      | turn hqueue' hmethod _ =>
          obtain ⟨⟨rfl, rfl⟩, rfl⟩ := List.cons.inj (hqueue.symm.trans hqueue')
          cases hnone.symm.trans hmethod
  | turn hqueue hmethod _ ih =>
      cases h' with
      | done hqueue' => cases hqueue.symm.trans hqueue'
      | skip hqueue' hnone _ =>
          obtain ⟨⟨rfl, rfl⟩, rfl⟩ := List.cons.inj (hqueue.symm.trans hqueue')
          cases hnone.symm.trans hmethod
      | turn hqueue' hmethod' hrest =>
          obtain ⟨⟨rfl, rfl⟩, rfl⟩ := List.cons.inj (hqueue.symm.trans hqueue')
          obtain rfl := Option.some.inj (hmethod.symm.trans hmethod')
          obtain ⟨rfl, rfl⟩ := ih hrest
          exact ⟨rfl, rfl⟩

theorem Performed.unique {b' : Analysis} {ops : List Operation}
    {turns turns' : List Turn} (h : Performed a ops turns b)
    (h' : Performed a ops turns' b') : turns = turns' ∧ b = b' := by
  induction h generalizing turns' with
  | nil _ =>
      cases h' with
      | nil _ => exact ⟨rfl, rfl⟩
  | cons hturns _ ih =>
      cases h' with
      | cons hturns' hrest' =>
          obtain ⟨rfl, rfl⟩ := hturns.unique hturns'
          obtain ⟨rfl, rfl⟩ := ih hrest'
          exact ⟨rfl, rfl⟩

theorem Performed.append {c : Analysis} {ops more : List Operation}
    {turns later : List Turn} (h : Performed a ops turns b)
    (h' : Performed b more later c) :
    Performed a (ops ++ more) (turns ++ later) c := by
  induction h with
  | nil _ => exact h'
  | cons hturns _ ih =>
      rw [List.append_assoc]
      exact .cons hturns (ih h')

/-- The turns of one operation among others, with those before it and those
after it. -/
theorem exists_turns_of_operation (hfaithful : a.repository.Faithful)
    (hqueue : a.queue = []) (before : List Operation)
    (op : Operation) (after : List Operation) {turns : List Turn}
    (h : Performed a (before ++ op :: after) turns b) :
    ∃ earlier during later, turns = earlier ++ during ++ later ∧
      Performed a before earlier (before.foldl perform a) ∧
      Drains ((before.foldl perform a).begin op) during
        ((before.foldl perform a).perform op) ∧
      Performed ((before.foldl perform a).perform op) after later b := by
  obtain ⟨earlier, hearlier, hqueue', hfaithful'⟩ :=
    exists_performed hfaithful hqueue before
  obtain ⟨hnext, during, hduring⟩ := drains_perform hfaithful' hqueue' op
  obtain ⟨later, hlater, _⟩ := exists_performed hnext hduring.queue_eq_nil after
  obtain ⟨rfl, rfl⟩ := h.unique (hearlier.append (.cons hduring hlater))
  exact ⟨earlier, during, later, (List.append_assoc ..).symm, hearlier,
    hduring, hlater⟩

end Analysis

/-! ## Invariants -/

/-- What has happened so far. -/
structure History where
  operations : List Operation := []
  turns : List Turn := []
  moments : List Moment := []

/-- Every step of a history keeps the invariant, as long as all operations are
allowed ones. -/
structure Preserves (allowed : Operation → Prop)
    (H : History → Analysis → Prop) : Prop where
  operation {past : History} {a : Analysis} {op : Operation} : allowed op →
    H past a →
    H { past with operations := past.operations ++ [op] } (a.begin op)
  skip {past : History} {a : Analysis} {c : ClassModel} {signature : String}
    {rest : List (ClassModel × String)} : H past a →
    a.queue = (c, signature) :: rest → c.method? signature = none →
      H past (a.withQueue rest)
  turn {past : History} {a : Analysis} {c : ClassModel} {signature : String}
    {rest : List (ClassModel × String)} {m : Method} : H past a →
    a.queue = (c, signature) :: rest → c.method? signature = some m →
    H { past with turns := past.turns ++ [⟨a.withQueue rest, m⟩] }
      ((a.withQueue rest).opened m)
  moment {past : History} {t : Turn} {x : Moment} : H past x.state →
    t ∈ past.turns →
    x.statement ∈ t.method.statements →
    H { past with moments := past.moments ++ [x] }
      (Analysis.apply x.node x.state x.statement)

namespace Preserves

variable {allowed : Operation → Prop} {H : History → Analysis → Prop}
  {a b : Analysis}

theorem moments (hH : Preserves allowed H) {past : History}
    (h : H past a) {t : Turn} (ht : t ∈ past.turns) (node : NodeId)
    {statements : List Statement} (hsub : statements ⊆ t.method.statements) :
    H { past with
        moments := past.moments ++ Analysis.moments node a statements }
      (statements.foldl (Analysis.apply node) a) := by
  induction statements generalizing past a with
  | nil => simpa [Analysis.moments] using h
  | cons s statements ih =>
      have hfirst :=
        hH.moment (x := ⟨a, node, s⟩) h ht (hsub List.mem_cons_self)
      have hrest := ih hfirst ht (List.subset_of_cons_subset hsub)
      simpa [Analysis.moments, List.append_assoc] using hrest

theorem drains (hH : Preserves allowed H) {turns : List Turn}
    (hturns : Analysis.Drains a turns b) {past : History} (h : H past a) :
    H { past with
        turns := past.turns ++ turns
        moments := past.moments ++ turns.flatMap Turn.moments } b := by
  induction hturns generalizing past with
  | done _ => simpa using h
  | skip hqueue hmethod _ ih => exact ih (hH.skip h hqueue hmethod)
  | @turn a _ _ _ rest m _ hqueue hmethod _ ih =>
      have hopened := hH.turn h hqueue hmethod
      have hanalysed :=
        hH.moments hopened (List.mem_append_right _ List.mem_cons_self)
        ((a.withQueue rest).graph.add m).2 (List.Subset.refl _)
      have hrest := ih hanalysed
      simpa [Turn.moments, List.append_assoc] using hrest

theorem performed (hH : Preserves allowed H) {ops : List Operation}
    {turns : List Turn} (hperformed : Analysis.Performed a ops turns b)
    (hallowed : ∀ op ∈ ops, allowed op) {past : History} (h : H past a) :
    H { operations := past.operations ++ ops
        turns := past.turns ++ turns
        moments := past.moments ++ turns.flatMap Turn.moments } b := by
  induction hperformed generalizing past with
  | nil _ => simpa using h
  | cons hturns _ ih =>
      have hbegun := hH.operation (hallowed _ List.mem_cons_self) h
      have hdrained := hH.drains hturns hbegun
      have hrest :=
        ih (fun op hop => hallowed op (List.mem_cons_of_mem _ hop)) hdrained
      simpa [List.append_assoc] using hrest

/-- An invariant holds at every moment so far, of what came before it. -/
def Sampled (H : History → Analysis → Prop) (past : History) (a : Analysis) :
    Prop :=
  H past a ∧ ∀ before x after, past.moments = before ++ x :: after →
    ∃ earlier : History, earlier.moments = before ∧ H earlier x.state

theorem sampled (hH : Preserves allowed H) : Preserves allowed (Sampled H) where
  operation hallowed h := ⟨hH.operation hallowed h.1, h.2⟩
  skip h hqueue hmethod := ⟨hH.skip h.1 hqueue hmethod, h.2⟩
  turn h hqueue hmethod := ⟨hH.turn h.1 hqueue hmethod, h.2⟩
  moment {past t x} h ht hstatement := by
    refine ⟨hH.moment h.1 ht hstatement, ?_⟩
    intro before y after hsplit
    rcases List.eq_nil_or_concat after with rfl | ⟨after, last, rfl⟩
    · obtain ⟨rfl, heq⟩ := List.append_inj' hsplit rfl
      obtain rfl := List.singleton_inj.1 heq
      exact ⟨past, rfl, h.1⟩
    · have hsplit' :
          past.moments ++ [x] = (before ++ y :: after) ++ [last] := by
        simpa using hsplit
      obtain ⟨heq, _⟩ := List.append_inj' hsplit' rfl
      exact h.2 before y after heq

/-- Every step of a history keeps `K`, given that `H` holds. -/
structure Beside (allowed : Operation → Prop)
    (H K : History → Analysis → Prop) : Prop where
  operation {past : History} {a : Analysis} {op : Operation} :
    allowed op → H past a → K past a →
    K { past with operations := past.operations ++ [op] } (a.begin op)
  skip {past : History} {a : Analysis} {c : ClassModel} {signature : String}
    {rest : List (ClassModel × String)} : H past a → K past a →
    a.queue = (c, signature) :: rest → c.method? signature = none →
    K past (a.withQueue rest)
  turn {past : History} {a : Analysis} {c : ClassModel} {signature : String}
    {rest : List (ClassModel × String)} {m : Method} : H past a → K past a →
    a.queue = (c, signature) :: rest → c.method? signature = some m →
    K { past with turns := past.turns ++ [⟨a.withQueue rest, m⟩] }
      ((a.withQueue rest).opened m)
  moment {past : History} {t : Turn} {x : Moment} : H past x.state →
    K past x.state → t ∈ past.turns → x.statement ∈ t.method.statements →
    K { past with moments := past.moments ++ [x] }
      (Analysis.apply x.node x.state x.statement)

/-- An invariant that rests on another one is shown on top of it. -/
theorem and (hH : Preserves allowed H) {K : History → Analysis → Prop}
    (hK : Beside allowed H K) :
    Preserves allowed fun past a => H past a ∧ K past a where
  operation hop h := ⟨hH.operation hop h.1, hK.operation hop h.1 h.2⟩
  skip h hqueue hnone :=
    ⟨hH.skip h.1 hqueue hnone, hK.skip h.1 h.2 hqueue hnone⟩
  turn h hqueue hm := ⟨hH.turn h.1 hqueue hm, hK.turn h.1 h.2 hqueue hm⟩
  moment h ht hstatement :=
    ⟨hH.moment h.1 ht hstatement, hK.moment h.1 h.2 ht hstatement⟩

end Preserves

/-! ## The source of an analysis -/

namespace Analysis

/-- The analysis works over the source, with the whitelist, and its cache holds
only what the source gives. The invariants of a run rest on this one. -/
structure Over (s : ClassSource) (w : Whitelist) (a : Analysis) : Prop where
  source : a.repository.source = s
  faithful : a.repository.Faithful
  whitelist : a.whitelist = w

variable {s : ClassSource} {w : Whitelist} {a b : Analysis}

theorem over_empty {r : Repository} (hfaithful : r.Faithful) (w : Whitelist)
    (name : String) :
    Over r.source w { repository := r, whitelist := w, className := name } :=
  ⟨rfl, hfaithful, rfl⟩

theorem Over.grows (h : Over s w a) {new : List (ClassModel × Method)}
    (hgrows : Grows a new b) : Over s w b :=
  ⟨hgrows.source.trans h.source, hgrows.faithful h.faithful,
    hgrows.whitelist.trans h.whitelist⟩

theorem Over.opened (h : Over s w a) (queue : List (ClassModel × String))
    (m : Method) : Over s w ((a.withQueue queue).opened m) :=
  ⟨h.source, h.faithful.note _, h.whitelist⟩

theorem over_preserved {allowed : Operation → Prop} :
    Preserves allowed fun _ => Over s w where
  operation {_ a op} _ h := h.grows (a.grows_begin op)
  skip h _ _ := ⟨h.source, h.faithful, h.whitelist⟩
  turn {_ _ _ _ rest m} h _ _ := h.opened rest m
  moment {_ _ x} h _ _ := h.grows (grows_apply x.node x.state x.statement)

/-- What holds of all that waits holds of what waits behind the first. -/
theorem forall_mem_rest {entry : ClassModel × String}
    {rest : List (ClassModel × String)} {P : ClassModel × String → Prop}
    (hqueue : a.queue = entry :: rest) (h : ∀ e ∈ a.queue, P e) :
    ∀ e ∈ rest, P e := by
  rw [hqueue, List.forall_mem_cons] at h
  exact h.2

end Analysis

end TestCost
