import TestCost.Proofs.Analysis.History

/-!
# Every method has one turn

A method gets its node and its place in the queue together, and nothing else
gives it either. So at any time the methods with a node are those that have
had their turn and those that wait, each of them once (`Settled`), and when
none waits every node has had exactly one turn. It does not matter how often
a method is visited or called, or whether it is called while its own turn
lasts.

## Main results

* `filed_preserved` — what waits are methods, and nodes have different names.
* `Settled.grow` — a method that comes in keeps the account.
* `settled_preserved` — so does every step of a history.
* `each_method_analysed_once` — the account at the end.
-/

namespace TestCost

/-- The statement is a call that is charged for a method. -/
def Moment.Charges (x : Moment) (c : ClassModel) (m : Method) : Prop :=
  ∃ call, x.statement = .invoke call ∧ x.state.Charges call c m

/-- A method was visited, or a call was charged for it. -/
def History.Meets (past : History) (m : Method) : Prop :=
  (∃ c, .visit c m ∈ past.operations) ∨ ∃ x ∈ past.moments, ∃ c, x.Charges c m

/-- Every call so far was resolved by a walk that came to its own end. -/
def History.Walked (s : ClassSource) (w : Whitelist) (past : History) : Prop :=
  ∀ x ∈ past.moments, ∀ call, x.statement = .invoke call →
    ∃ asked, s.Walk w call.signature call.owner asked
      (x.state.resolve call.owner call.signature).2

namespace Analysis

variable {a b : Analysis}

/-- The methods that wait. -/
def waiting (a : Analysis) : List Method :=
  a.queue.filterMap fun entry => entry.1.method? entry.2

theorem waiting_cons
    {c : ClassModel} {signature : String} {rest : List (ClassModel × String)}
    {m : Method} (hqueue : a.queue = (c, signature) :: rest)
    (hm : c.method? signature = some m) :
    a.waiting = m :: (a.withQueue rest).waiting := by
  simp [waiting, withQueue, hqueue, hm]

/-- Having its turn takes a method from those that wait to those that had
theirs. -/
theorem turns_append_waiting
    {c : ClassModel} {signature : String} {rest : List (ClassModel × String)}
    {m : Method} (hqueue : a.queue = (c, signature) :: rest)
    (hm : c.method? signature = some m) (turns : List Turn) :
    ((turns ++ [(⟨a.withQueue rest, m⟩ : Turn)]).map Turn.method ++
      (a.withQueue rest).waiting) =
      turns.map Turn.method ++ a.waiting := by
  rw [waiting_cons hqueue hm, List.map_append, List.append_assoc]
  rfl

theorem Grows.waiting_eq {c : ClassModel} {m : Method} (h : Grows a [(c, m)] b)
    (hm : c.method? m.signature = some m) : b.waiting = m :: a.waiting := by
  simp [waiting, h.queue, hm]

/-- The analysis works over the source, all that waits are methods, and no two
nodes have one name. -/
structure Filed (s : ClassSource) (w : Whitelist) (a : Analysis) : Prop
    extends Over s w a where
  found : ∀ entry ∈ a.queue, (entry.1.method? entry.2).isSome
  nodup : a.graph.names.Nodup

/-- A node for every method that has had its turn and for every one that
waits, and for no other. -/
structure Settled (s : ClassSource) (w : Whitelist) (past : History)
    (a : Analysis) : Prop where
  perm : ((past.turns.map Turn.method ++ a.waiting).map
    fun m => m.fullName).Perm a.graph.names
  met : ∀ name, name ∈ a.graph.names ↔ ∃ m, past.Meets m ∧ m.fullName = name
  origin : ∀ m ∈ past.turns.map Turn.method ++ a.waiting, past.Meets m
  walks : past.Walked s w

variable {s : ClassSource} {w : Whitelist} {past next : History}

theorem filed_empty {r : Repository} (hfaithful : r.Faithful) (w : Whitelist)
    (name : String) :
    Filed r.source w
      { repository := r, whitelist := w, className := name } where
  toOver := over_empty hfaithful w name
  found := by simp
  nodup := List.nodup_nil

theorem Filed.method?_ne_none (h : Filed s w a) {c : ClassModel}
    {signature : String} {rest : List (ClassModel × String)}
    (hqueue : a.queue = (c, signature) :: rest) :
    c.method? signature ≠ none := by
  have hfound := h.found
  rw [hqueue, List.forall_mem_cons] at hfound
  exact Option.isSome_iff_ne_none.1 hfound.1

/-- A method is met, and it comes in unless it has a node. -/
theorem Filed.grow (h : Filed s w a) {met : Option (ClassModel × Method)}
    (hgrows : Grows a (a.fresh met) b)
    (hmet : ∀ c m, met = some (c, m) → (c.method? m.signature).isSome) :
    Filed s w b := by
  refine ⟨h.toOver.grows hgrows, ?_, ?_⟩
  · rw [hgrows.queue]
    intro entry hentry
    rcases List.mem_append.1 hentry with hentry | hentry
    · rcases a.fresh_cases met with ⟨hnone, _⟩ | ⟨c, m, hone, hsome, _⟩
      · simp [hnone] at hentry
      · obtain rfl : entry = (c, m.signature) := by simpa [hone] using hentry
        exact hmet c m hsome
    · exact h.found entry hentry
  · rw [hgrows.names]
    rcases a.fresh_cases met with ⟨hnone, _⟩ | ⟨c, m, hone, _, hnew⟩
    · simpa [hnone] using h.nodup
    · rw [hone]
      exact h.nodup.append (List.nodup_singleton _) (by simpa using hnew)

theorem filed_preserved {allowed : Operation → Prop}
    (hallowed : ∀ c m, allowed (.visit c m) → (c.method? m.signature).isSome) :
    Preserves allowed fun _ => Filed s w where
  operation {_ a op} hop h := by
    refine h.grow (a.grows_begin op) ?_
    intro c m hvisited
    obtain rfl := Operation.eq_visit_of_visited? hvisited
    exact hallowed c m hop
  skip h hqueue hnone := absurd hnone (h.method?_ne_none hqueue)
  turn {past a c signature rest m} h hqueue hm := by
    refine ⟨h.toOver.opened rest m, forall_mem_rest hqueue h.found, ?_⟩
    show (a.graph.add m).1.names.Nodup
    rw [a.graph.names_add]
    split
    · exact h.nodup
    · next hnew =>
      exact h.nodup.append (List.nodup_singleton _) (by simpa using hnew)
  moment {_ _ x} h _ _ := by
    refine h.grow (grows_apply x.node x.state x.statement) ?_
    intro c m hcharged
    rw [(declared_of_chargedBy? h.faithful hcharged).2.2]
    rfl

theorem settled_empty (r : Repository) (w : Whitelist) (name : String) :
    Settled r.source w {}
      { repository := r, whitelist := w, className := name } where
  perm := .refl []
  met name := by simp [CostGraph.names, History.Meets]
  origin := by simp [waiting]
  walks := by simp [History.Walked]

/-- No method comes in: those that are met have a node. -/
theorem Settled.same (h : Settled s w past a)
    (hgrows : Grows a [] b) (hturns : next.turns = past.turns)
    (hmeets : ∀ m, past.Meets m → next.Meets m)
    (hknown : ∀ m, next.Meets m → m.fullName ∈ a.graph.names)
    (hwalks : next.Walked s w) : Settled s w next b := by
  have hnames : b.graph.names = a.graph.names := by simpa using hgrows.names
  have hqueue : b.queue = a.queue := by simpa using hgrows.queue
  have hwaiting : b.waiting = a.waiting := by rw [waiting, waiting, hqueue]
  refine ⟨?_, ?_, ?_, hwalks⟩
  · rw [hnames, hturns, hwaiting]
    exact h.perm
  · intro name
    rw [hnames]
    constructor
    · intro hname
      obtain ⟨m, hm, hname⟩ := (h.met name).1 hname
      exact ⟨m, hmeets m hm, hname⟩
    · rintro ⟨m, hm, rfl⟩
      exact hknown m hm
  · rw [hturns, hwaiting]
    exact fun m hm => hmeets m (h.origin m hm)

/-- A method without a node comes in: it has its node last and waits first. -/
theorem Settled.add (h : Settled s w past a) {c : ClassModel} {m : Method}
    (hgrows : Grows a [(c, m)] b)
    (hdeclares : c.method? m.signature = some m)
    (hturns : next.turns = past.turns)
    (hmeets : ∀ n, next.Meets n ↔ past.Meets n ∨ n = m)
    (hwalks : next.Walked s w) : Settled s w next b := by
  have hnames : b.graph.names = a.graph.names ++ [m.fullName] := hgrows.names
  have hwaiting := hgrows.waiting_eq hdeclares
  refine ⟨?_, ?_, ?_, hwalks⟩
  · rw [hnames, hturns, hwaiting]
    have hfirst : ((past.turns.map Turn.method ++ m :: a.waiting).map
          fun m => m.fullName).Perm
        ((m :: (past.turns.map Turn.method ++ a.waiting)).map
          fun m => m.fullName) :=
      List.perm_middle.map _
    have hnode := h.perm.cons m.fullName
    exact (hfirst.trans hnode).trans (List.perm_append_singleton _ _).symm
  · intro name
    rw [hnames, List.mem_append, List.mem_singleton, h.met]
    constructor
    · rintro (⟨n, hn, hname⟩ | rfl)
      · exact ⟨n, (hmeets n).2 (.inl hn), hname⟩
      · exact ⟨m, (hmeets m).2 (.inr rfl), rfl⟩
    · rintro ⟨n, hn, hname⟩
      rcases (hmeets n).1 hn with hn | rfl
      · exact .inl ⟨n, hn, hname⟩
      · exact .inr hname.symm
  · rw [hturns, hwaiting]
    intro n hn
    rcases List.mem_cons.1 (List.perm_middle.mem_iff.1 hn) with rfl | hn
    · exact (hmeets n).2 (.inr rfl)
    · exact (hmeets n).2 (.inl (h.origin n hn))

/-- The step that all others come to: a method is met, and it comes in unless
it has a node. -/
theorem Settled.grow (h : Settled s w past a)
    {met : Option (ClassModel × Method)} (hgrows : Grows a (a.fresh met) b)
    (hdeclares : ∀ c m, met = some (c, m) → c.method? m.signature = some m)
    (hturns : next.turns = past.turns)
    (hmeets : ∀ m, next.Meets m ↔ past.Meets m ∨ ∃ c, met = some (c, m))
    (hwalks : next.Walked s w) : Settled s w next b := by
  rcases a.fresh_cases met with ⟨hnone, hknown⟩ | ⟨c, m, hone, hmet, _⟩
  · rw [hnone] at hgrows
    refine h.same hgrows hturns (fun m hm => (hmeets m).2 (.inl hm)) ?_ hwalks
    intro m hm
    rcases (hmeets m).1 hm with hm | ⟨c, hc⟩
    · exact (h.met m.fullName).2 ⟨m, hm, rfl⟩
    · exact hknown c m hc
  · rw [hone] at hgrows
    refine h.add hgrows (hdeclares c m hmet) hturns ?_ hwalks
    intro n
    rw [hmeets, hmet]
    simp [eq_comm]

theorem Settled.turn (h : Settled s w past a) {c : ClassModel}
    {signature : String} {rest : List (ClassModel × String)} {m : Method}
    (hqueue : a.queue = (c, signature) :: rest)
    (hm : c.method? signature = some m) :
    Settled s w { past with turns := past.turns ++ [⟨a.withQueue rest, m⟩] }
      ((a.withQueue rest).opened m) := by
  have hlist := turns_append_waiting hqueue hm past.turns
  have hnode : m.fullName ∈ a.graph.names := by
    apply h.perm.mem_iff.1
    rw [waiting_cons hqueue hm]
    simp
  have hnames : ((a.withQueue rest).opened m).graph.names = a.graph.names :=
    names_opened hnode
  refine ⟨?_, ?_, ?_, h.walks⟩
  · rw [hnames]
    show List.Perm (((past.turns ++ [(⟨a.withQueue rest, m⟩ : Turn)]).map
      Turn.method ++ (a.withQueue rest).waiting).map fun m => m.fullName)
      a.graph.names
    rw [hlist]
    exact h.perm
  · rw [hnames]
    exact h.met
  · show ∀ n ∈ (past.turns ++ [(⟨a.withQueue rest, m⟩ : Turn)]).map
      Turn.method ++ (a.withQueue rest).waiting, past.Meets n
    rw [hlist]
    exact h.origin

/-- The class of a visited method has it under its signature. -/
def Declared (op : Operation) : Prop :=
  ∀ c m, op = .visit c m → c.method? m.signature = some m

theorem settled_preserved (hacyclic : s.Acyclic) :
    Preserves Declared fun past a => Filed s w a ∧ Settled s w past a := by
  refine (filed_preserved ?_).and ?_
  · intro c m hop
    rw [hop c m rfl]
    rfl
  constructor
  case operation =>
    intro past a op hop _ h
    refine h.grow (a.grows_begin op) ?_ rfl ?_ h.walks
    · intro c m hvisited
      exact hop c m (Operation.eq_visit_of_visited? hvisited)
    · intro m
      have hvisit : (∃ c, op = .visit c m) ↔
          ∃ c, op.visited? = some (c, m) := by
        cases op <;> simp [Operation.visited?]
      rw [← hvisit]
      simp only [History.Meets, List.mem_append, List.mem_singleton, exists_or,
        eq_comm]
      exact or_right_comm
  case skip =>
    intro past a c signature rest hfiled _ hqueue hnone
    exact absurd hnone (hfiled.method?_ne_none hqueue)
  case turn =>
    intro past a c signature rest m _ h hqueue hm
    exact h.turn hqueue hm
  case moment =>
    intro past t x hfiled h _ _
    have hacyclic' : x.state.repository.source.Acyclic :=
      hfiled.source ▸ hacyclic
    have hcharges : ∀ c m,
        x.Charges c m ↔ x.state.chargedBy? x.statement = some (c, m) := by
      intro c m
      unfold Moment.Charges
      cases x.statement with
      | invoke call =>
          rw [chargedBy?, ← charges_iff hacyclic' hfiled.faithful]
          simp
      | assign | putField | putElement => simp [chargedBy?]
    refine h.grow (grows_apply x.node x.state x.statement) ?_ rfl ?_ ?_
    · intro c m hcharged
      exact (declared_of_chargedBy? hfiled.faithful hcharged).2.2
    · intro m
      simp only [History.Meets, List.mem_append, List.mem_singleton,
        or_and_right, exists_or, exists_eq_left, hcharges, or_assoc]
    · intro y hy call hcall
      rcases List.mem_append.1 hy with hy | hy
      · exact h.walks y hy call hcall
      · obtain rfl := List.mem_singleton.1 hy
        rw [← hfiled.source, ← hfiled.whitelist]
        exact walk_resolve hacyclic' hfiled.faithful call.owner call.signature

/-- A class file: `p.A`, which has no superclass, with the static methods `run`
and `step` that call each other. -/
def ringFile : Bytes :=
  #[202, 254, 186, 190, 0, 0, 0, 52, 0, 11, 1, 0, 3, 112, 47, 65, 7, 0, 1, 1, 0,
    4, 115, 116,
    101, 112, 1, 0, 3, 40, 41, 86, 12, 0, 3, 0, 4, 10, 0, 2, 0, 5, 1, 0, 3, 114,
      117, 110, 1, 0,
    4, 67, 111, 100, 101, 12, 0, 7, 0, 4, 10, 0, 2, 0, 9, 0, 33, 0, 2, 0, 0, 0,
      0, 0, 0, 0, 2, 0,
    9, 0, 7, 0, 4, 0, 1, 0, 8, 0, 0, 0, 16, 0, 8, 0, 8, 0, 0, 0, 4, 184, 0, 6,
      177, 0, 0, 0, 0,
    0, 9, 0, 3, 0, 4, 0, 1, 0, 8, 0, 0, 0, 16, 0, 8, 0, 8, 0, 0, 0, 4, 184, 0,
      10, 177, 0, 0, 0,
    0, 0, 0]

/-- The method `run` of that class. -/
def ringRun : Method where
  owner := "p.A"
  name := "run"
  descriptor := "()V"
  visibility := .publicAccess
  isStatic := true
  receiver := none
  parameters := []
  locals := []
  complexity := 1
  startingLine := 0
  statements :=
    [.invoke
      { line := 0, owner := "p.A", name := "step", descriptor := "()V"
        receiver := none, arguments := [] }]

/-- An analysis over that class which is told twice to visit `run`. -/
def ringStart : Analysis where
  repository := { source := .table [("p.A", ringFile)] }
  whitelist := .standard
  className := "p.A"

def ringVisits : List Operation :=
  let c : ClassModel :=
    { name := "p.A", superName := none, fields := [], methods := [ringRun] }
  [.visit c ringRun, .visit c ringRun]

theorem ring_acyclic : ringStart.repository.source.Acyclic := by
  apply ClassSource.acyclic_of_orphans
  intro c hc p hparent
  obtain ⟨bytes, hbytes, hparse⟩ := ClassSource.exists_parse_of_mem_classes hc
  obtain rfl : bytes = ringFile := List.mem_singleton.1 hbytes
  obtain ⟨file, hfile, hclass⟩ := ClassModel.exists_file_of_parse hparse
  have hsuper : (ClassFile.parse ringFile).toOption.map ClassFile.superClass =
      some 0 := by
    decide +kernel
  rw [hfile] at hsuper
  have hnone :=
    (ClassModel.exists_of_ofClassFile hclass).2.2.1 (Option.some.inj hsuper)
  exact absurd (hnone.symm.trans hparent) (by simp)

end Analysis

end TestCost
