import TestCost.Proofs.Analysis.Missing
import TestCost.Proofs.Cost.Ranking

/-!
# Costs do not depend on what was computed before

All classes of a run are analysed over one repository, which keeps what it has
decoded for one class when it comes to the next. What it keeps is what its
source gives, so it only saves time. To prove this, two analyses are run next to
each other: they agree but for their repositories, and both repositories are
faithful to one source (`Alike`). No step can tell them apart. Most steps do not
look at the repository at all (`Detached`); those that do ask it for classes,
and both give the same answer.

So the cost of a class is a function of the source (`ClassSource.cost`), and a
report is the sorted list of what that function gives.

## Main results

* `Analysis.Alike.invoke`, `Analysis.Alike.visit`, `Analysis.Alike.visitClass` —
  the two analyses stay alike and give the same nodes.
* `Repository.Faithful.classCost_eq` — costs over a repository are those of its
  source.
* `costs_independent_of_history` — of any repository that was asked for classes
  and costs before, and of what is reported from it.
-/

namespace TestCost

namespace Analysis

variable {s : ClassSource} {a b : Analysis}

/-- The state over another repository. -/
def withRepository (a : Analysis) (r : Repository) : Analysis :=
  { a with repository := r }

/-- The step does not look at the repository. -/
def Detached (f : Analysis → Analysis) : Prop :=
  ∀ a r, f (a.withRepository r) = (f a).withRepository r

/-- The states agree but for their repositories, which are faithful to one
source. -/
inductive Alike (s : ClassSource) : Analysis → Analysis → Prop where
  | mk {a : Analysis} {r : Repository} : a.repository.source = s →
      r.source = s →
      a.repository.Faithful → r.Faithful → Alike s a (a.withRepository r)

/-! ## Steps that do not look at the repository -/

theorem Detached.repository {f : Analysis → Analysis} (hf : Detached f)
    (a : Analysis) :
    (f a).repository = a.repository := by
  have hself : f a = (f a).withRepository a.repository := hf a a.repository
  rw [hself]
  rfl

theorem Detached.foldl {α : Type} {f : Analysis → α → Analysis}
    (hf : ∀ x, Detached (f · x)) (xs : List α) : Detached (xs.foldl f) := by
  intro a r
  induction xs generalizing a with
  | nil => rfl
  | cons x xs ih =>
      show xs.foldl f (f (a.withRepository r) x) =
        (xs.foldl f (f a x)).withRepository r
      rw [show f (a.withRepository r) x =
        (f a x).withRepository r from hf x a r]
      exact ih (f a x)

theorem detached_setInjectable (v : Variable) : Detached (·.setInjectable v) :=
  fun _ _ => rfl

theorem detached_setGlobal (v : Variable) : Detached (·.setGlobal v) :=
  fun _ _ => rfl

theorem detached_touch (writer : NodeId) (line : Nat) (target : Variable) :
    Detached (·.touch writer line target) := fun _ _ => rfl

theorem detached_addCall (caller : NodeId) (line : Nat) (callee : NodeId) :
    Detached (·.addCall caller line callee) := fun _ _ => rfl

theorem Detached.ite {t : Analysis → Bool} {f g : Analysis → Analysis}
    (ht : ∀ a r, t (a.withRepository r) = t a) (hf : Detached f)
    (hg : Detached g) :
    Detached fun a => if t a then f a else g a := by
  intro a r
  dsimp only
  rw [ht a r]
  split
  · exact hf a r
  · exact hg a r

theorem Detached.comp {f g : Analysis → Analysis} (hg : Detached g)
    (hf : Detached f) :
    Detached fun a => g (f a) := by
  intro a r
  dsimp only
  rw [hf a r, hg (f a) r]

theorem detached_assign (target source : Variable) :
    Detached (·.assign target source) := by
  intro a r
  have hinjected := Detached.ite (t := (·.isInjectable source)) (g := id)
    (fun _ _ => rfl) (detached_setInjectable target) (fun _ _ => rfl) a r
  have hglobal : (a.withRepository r).isGlobal source = a.isGlobal source := rfl
  unfold assign
  dsimp only at hinjected ⊢
  rw [hglobal]
  split
  · exact congrArg (·.setGlobal target) hinjected
  · exact hinjected

theorem detached_setMethodInjectable (m : Method) :
    Detached (·.setMethodInjectable m) :=
  .foldl detached_setInjectable _

theorem detached_putField (writer : NodeId) (line : Nat)
    (receiver : Option Variable) (target : Field) (value : Variable) :
    Detached (·.putField writer line receiver target value) :=
  (Detached.ite (t := fun a => receiver.all a.isGlobal) (fun _ _ =>
    rfl) ((detached_setGlobal (.field target)).comp (detached_touch writer line
    (.field target))) (g := id) (fun _ _ => rfl)).comp
    (detached_assign (.field target) value)

theorem detached_putElement (writer : NodeId) (line : Nat)
    (array value : Variable) :
    Detached (·.putElement writer line array value) :=
  (Detached.ite (t := (·.isGlobal array)) (fun _ _ =>
    rfl) (detached_touch writer line array) (g := id) (fun _ _ => rfl)).comp
    (detached_assign array value)

theorem detached_passArguments (callee : Method) (call : Invocation) :
    Detached (·.passArguments callee call) := by
  have harguments : Detached ((callee.parameters.zip call.arguments).foldl
      fun a p => a.assign p.1 p.2) :=
    .foldl (fun (p : Variable × Variable) => detached_assign p.1 p.2) _
  intro a r
  unfold passArguments
  dsimp only
  split
  · next p v _ _ => exact (detached_assign p v).comp harguments a r
  · exact harguments a r

theorem enqueue_withRepository (a : Analysis) (r : Repository) (c : ClassModel)
    (m : Method) :
    (a.withRepository r).enqueue c m =
      ((a.enqueue c m).1.withRepository r, (a.enqueue c m).2) := by
  have hfind : (a.withRepository r).graph.find? m.fullName =
      a.graph.find? m.fullName := rfl
  unfold enqueue
  rw [hfind]
  cases a.graph.find? m.fullName with
  | some id => rfl
  | none => rfl

/-! ## Two analyses next to each other -/

theorem Alike.source (h : Alike s a b) :
    a.repository.source = s ∧ b.repository.source = s := by
  obtain ⟨ha, hr, _, _⟩ := h
  exact ⟨ha, hr⟩

theorem Alike.faithful (h : Alike s a b) :
    a.repository.Faithful ∧ b.repository.Faithful := by
  obtain ⟨_, _, hfaithful, hfaithful'⟩ := h
  exact ⟨hfaithful, hfaithful'⟩

theorem Alike.detached (h : Alike s a b) {f : Analysis → Analysis}
    (hf : Detached f) :
    Alike s (f a) (f b) := by
  obtain ⟨ha, hr, hfaithful, hfaithful'⟩ := h
  rw [hf]
  exact .mk (by rwa [hf.repository]) hr (by rwa [hf.repository]) hfaithful'

theorem Alike.enqueue (h : Alike s a b) (c : ClassModel) (m : Method) :
    Alike s (a.enqueue c m).1 (b.enqueue c m).1 ∧ (b.enqueue c m).2 =
      (a.enqueue c m).2 := by
  constructor
  · exact h.detached (f := fun a => (a.enqueue c m).1) fun a r =>
      congrArg Prod.fst (enqueue_withRepository a r c m)
  · obtain ⟨_, _, _, _⟩ := h
    rw [enqueue_withRepository]

/-- Faithful repositories over one source resolve a call alike. -/
theorem resolveWithin_eq_of_source {w : Whitelist}
    {signature : String} {r r' : Repository} (h : r.Faithful) (h' : r'.Faithful)
    (hsource : r'.source = r.source) (steps : Nat) (name : String) :
    (resolveWithin w signature steps r' name).2 =
      (resolveWithin w signature steps r name).2 := by
  induction steps generalizing r r' name with
  | zero => rfl
  | succ steps ih =>
      have hanswer : (r'.get name).2 = (r.get name).2 := by
        rw [h.get_eq, h'.get_eq, hsource]
      have hnext := ih (h.get name) (h'.get name)
        (by rw [Repository.source_get, Repository.source_get, hsource])
      rw [resolveWithin, resolveWithin]
      rcases hget : r.get name with ⟨next, fault | c⟩ <;>
        rcases hget' : r'.get name with ⟨next', fault' | c'⟩ <;>
        rw [hget, hget'] at hanswer
      · rw [Except.error.inj hanswer]
      · cases hanswer
      · cases hanswer
      · obtain rfl := Except.ok.inj hanswer
        rw [hget, hget'] at hnext
        dsimp only
        split
        · rfl
        · split
          · rfl
          · split
            · rfl
            · exact hnext _

theorem Alike.resolve (h : Alike s a b) (owner signature : String) :
    Alike s (a.resolve owner signature).1 (b.resolve owner signature).1 ∧
      (b.resolve owner signature).2 = (a.resolve owner signature).2 := by
  obtain ⟨rfl, hr, hfaithful, hfaithful'⟩ := h
  next r =>
  refine ⟨?_, ?_⟩
  · exact .mk (a := (a.resolve owner signature).1)
      (source_resolve a owner signature) ((source_resolve (a.withRepository r)
      owner signature).trans hr) (faithful_resolve hfaithful owner signature)
      (faithful_resolve (a := a.withRepository r) hfaithful' owner signature)
  · have hsize : (a.withRepository r).repository.source.size =
        a.repository.source.size := congrArg ClassSource.size hr
    rw [resolve_eq, resolve_eq, hsize]
    exact resolveWithin_eq_of_source hfaithful hfaithful' hr _ owner

theorem Alike.reportMissing (h : Alike s a b) (owner : String)
    (fault : LoadFault) :
    Alike s (a.reportMissing owner fault) (b.reportMissing owner fault) := by
  have hmissing : b.missing = a.missing := by
    obtain ⟨_, _, _, _⟩ := h
    rfl
  have hname : b.className = a.className := by
    obtain ⟨_, _, _, _⟩ := h
    rfl
  unfold Analysis.reportMissing
  dsimp only
  rw [hmissing, hname]
  split
  · exact h
  · obtain ⟨ha, hr, hfaithful, hfaithful'⟩ := h
    exact .mk (a := { a.note _ with missing := a.missing ++ [_] }) ha hr
      (hfaithful.note _) (hfaithful'.note _)

/-! ## Calls -/

theorem Alike.asked (h : Alike s a b) (call : Invocation) :
    Alike s (a.asked call) (b.asked call) := by
  have hresolve := (h.resolve call.owner call.signature).1
  have hignores : b.ignores call.owner = a.ignores call.owner := by
    obtain ⟨_, _, _, _⟩ := h
    rfl
  unfold Analysis.asked
  rw [hignores]
  split
  · exact h
  · exact hresolve

theorem Alike.fault?_eq (h : Alike s a b) (call : Invocation) :
    b.fault? call = a.fault? call := by
  have hresolve := (h.resolve call.owner call.signature).2
  have hignores : b.ignores call.owner = a.ignores call.owner := by
    obtain ⟨_, _, _, _⟩ := h
    rfl
  unfold fault?
  rw [hignores, hresolve]

theorem Alike.charged?_eq (h : Alike s a b) (call : Invocation) :
    b.charged? call = a.charged? call := by
  have hresolve := (h.resolve call.owner call.signature).2
  have hignores : b.ignores call.owner = a.ignores call.owner := by
    obtain ⟨_, _, _, _⟩ := h
    rfl
  have hreceiver :
      b.hasInjectableReceiver call = a.hasInjectableReceiver call := by
    obtain ⟨_, _, _, _⟩ := h
    rfl
  unfold charged?
  rw [hignores, hresolve, hreceiver]

/-- What a call does follows from whether it fails and what it charges. -/
theorem invoke_of_fault? {caller : NodeId} {call : Invocation}
    {fault : LoadFault} (h : a.fault? call = some fault) :
    a.invoke caller call = (a.asked call).reportMissing call.owner fault := by
  rcases a.invoke_cases caller call with ⟨fault', h', _, heq⟩ |
    ⟨_, _, h', _⟩ | ⟨h', _⟩
  · rw [heq, Option.some.inj (h.symm.trans h')]
  · simp [h] at h'
  · simp [h] at h'

theorem invoke_of_charged? {caller : NodeId} {call : Invocation}
    {c : ClassModel} {m : Method} (h : a.charged? call = some (c, m)) :
    a.invoke caller call =
      (((a.asked call).passArguments m call).enqueue c m).1.addCall
        caller call.line
        (((a.asked call).passArguments m call).enqueue c m).2 := by
  rcases a.invoke_cases caller call with ⟨_, _, h', _⟩ |
    ⟨c', m', _, h', heq⟩ | ⟨_, h', _⟩
  · simp [h] at h'
  · obtain ⟨rfl, rfl⟩ := Prod.mk.inj (Option.some.inj (h.symm.trans h'))
    exact heq
  · simp [h] at h'

theorem invoke_of_neither {caller : NodeId} {call : Invocation}
    (hfault : a.fault? call = none) (hcharged : a.charged? call = none) :
    a.invoke caller call = a.asked call := by
  rcases a.invoke_cases caller call with ⟨_, h', _⟩ |
    ⟨_, _, _, h', _⟩ | ⟨_, _, heq⟩
  · simp [hfault] at h'
  · simp [hcharged] at h'
  · exact heq

theorem Alike.invoke (h : Alike s a b) (caller : NodeId) (call : Invocation) :
    Alike s (a.invoke caller call) (b.invoke caller call) := by
  have hasked := h.asked call
  have hfault := h.fault?_eq call
  have hcharged := h.charged?_eq call
  rcases a.invoke_cases caller call with
    ⟨fault, hfails, _, heq⟩ | ⟨c, m, hfails, hcharges, heq⟩ |
      ⟨hfails, hcharges, heq⟩
  · rw [heq, invoke_of_fault? (hfault.trans hfails)]
    exact hasked.reportMissing call.owner fault
  · have hpassed := hasked.detached (detached_passArguments m call)
    obtain ⟨hadded, hid⟩ := hpassed.enqueue c m
    rw [heq, invoke_of_charged? (hcharged.trans hcharges), hid]
    exact hadded.detached (detached_addCall caller call.line _)
  · rw [heq, invoke_of_neither (hfault.trans hfails) (hcharged.trans hcharges)]
    exact hasked

theorem Alike.apply (h : Alike s a b) (node : NodeId) (statement : Statement) :
    Alike s (Analysis.apply node a statement)
      (Analysis.apply node b statement) := by
  cases statement with
  | assign line target value => exact h.detached (detached_assign target value)
  | putField line receiver target value =>
      exact h.detached (detached_putField node line receiver target value)
  | putElement line array index value =>
      exact h.detached (detached_putElement node line array value)
  | invoke call => exact h.invoke node call

/-! ## Visits -/

theorem Alike.analyse (h : Alike s a b) (m : Method) :
    Alike s (a.analyse m) (b.analyse m) := by
  have hfold : ∀ (statements : List Statement) {a b : Analysis} (node : NodeId),
      Alike s a b →
      Alike s (statements.foldl (Analysis.apply node) a)
        (statements.foldl (Analysis.apply node) b) := by
    intro statements
    induction statements with
    | nil => exact fun _ h => h
    | cons statement statements ih =>
        exact fun node h => ih node (h.apply node statement)
  have hopened : Alike s (a.opened m) (b.opened m) := by
    obtain ⟨ha, hr, hfaithful, hfaithful'⟩ := h
    exact .mk (a := a.opened m) ha hr (hfaithful.note _) (hfaithful'.note _)
  have hnode : (b.graph.add m).2 = (a.graph.add m).2 := by
    obtain ⟨_, _, _, _⟩ := h
    rfl
  rw [analyse_eq, analyse_eq, hnode]
  exact hfold m.statements _ hopened

theorem Alike.drain (h : Alike s a b) (rounds : Nat) :
    Alike s (a.drain rounds) (b.drain rounds) := by
  induction rounds generalizing a b with
  | zero => exact h
  | succ rounds ih =>
      have hqueue : b.queue = a.queue := by
        obtain ⟨_, _, _, _⟩ := h
        rfl
      rw [Analysis.drain, Analysis.drain, hqueue]
      split
      · exact h
      · next c signature rest _ =>
        have hrest : Alike s (a.withQueue rest) (b.withQueue rest) :=
          h.detached (f := (·.withQueue rest)) fun _ _ => rfl
        dsimp only
        split
        · exact ih hrest
        · next m _ => exact ih (hrest.analyse m)

theorem visit_eq (a : Analysis) (c : ClassModel) (m : Method) :
    a.visit c m =
      ((a.enqueue c m).1.drain ((a.enqueue c m).1.repository.source.size *
        methodLimit + 1),
        (a.enqueue c m).2) := by
  unfold Analysis.visit
  rcases a.enqueue c m with ⟨b, id⟩
  rfl

theorem visitAll_cons (a : Analysis) (c : ClassModel) (m : Method)
    (methods : List Method) :
    visitAll c a (m :: methods) =
      ((visitAll c (a.visit c m).1 methods).1,
        (a.visit c m).2 :: (visitAll c (a.visit c m).1 methods).2) := by
  refine (visitAll.eq_2 c a m methods).trans ?_
  generalize a.visit c m = visited
  obtain ⟨b, id⟩ := visited
  rfl

theorem Alike.visit (h : Alike s a b) (c : ClassModel) (m : Method) :
    Alike s (a.visit c m).1 (b.visit c m).1 ∧ (b.visit c m).2 =
      (a.visit c m).2 := by
  obtain ⟨hadded, hid⟩ := h.enqueue c m
  have hsource : (b.enqueue c m).1.repository.source =
      (a.enqueue c m).1.repository.source :=
    hadded.source.2.trans hadded.source.1.symm
  rw [visit_eq, visit_eq, hsource]
  exact ⟨hadded.drain _, hid⟩

theorem Alike.visitAll (h : Alike s a b) (c : ClassModel)
    (methods : List Method) :
    Alike s (Analysis.visitAll c a methods).1
      (Analysis.visitAll c b methods).1 ∧
      (Analysis.visitAll c b methods).2 =
        (Analysis.visitAll c a methods).2 := by
  induction methods generalizing a b with
  | nil => exact ⟨h, rfl⟩
  | cons m methods ih =>
      obtain ⟨hvisit, hid⟩ := h.visit c m
      obtain ⟨hrest, hids⟩ := ih hvisit
      rw [visitAll_cons, visitAll_cons, hid, hids]
      exact ⟨hrest, rfl⟩

theorem Alike.chargeConstruction (h : Alike s a b) (c : ClassModel)
    (constructor : Method) (ids : List NodeId) :
    Alike s (a.chargeConstruction c constructor ids)
      (b.chargeConstruction c constructor ids) := by
  obtain ⟨hvisit, hid⟩ := h.visit c constructor
  unfold Analysis.chargeConstruction
  generalize a.visit c constructor = visited at hvisit hid ⊢
  generalize b.visit c constructor = visited' at hvisit hid ⊢
  obtain ⟨a, callee⟩ := visited
  obtain ⟨b, callee'⟩ := visited'
  obtain rfl : callee' = callee := hid
  have hcall : ∀ entry : Method × NodeId, Detached fun a =>
      if entry.1.canOverride then
        a.addCall entry.2 constructor.startingLine callee' else a :=
    fun entry => .ite (t := fun _ => entry.1.canOverride) (g := id) (fun _ _ =>
      rfl) (detached_addCall entry.2 constructor.startingLine callee')
      (fun _ _ => rfl)
  exact hvisit.detached (.foldl hcall (c.methods.zip ids))

theorem Alike.visitClass (h : Alike s a b) (c : ClassModel) :
    Alike s (a.visitClass c).1 (b.visitClass c).1 ∧ (b.visitClass c).2 =
      (a.visitClass c).2 := by
  unfold Analysis.visitClass
  dsimp only
  obtain ⟨hfirst, _⟩ := h.visitAll c (c.methods.filter (fun m =>
    m.isStaticInitializer) ++ c.preferredConstructor?.toList ++
    c.methods.filter fun m => Text.startsWith m.name "set")
  obtain ⟨hall, hids⟩ := hfirst.visitAll c c.methods
  rw [hids]
  split
  · exact ⟨hall.chargeConstruction c _ _, rfl⟩
  · exact ⟨hall, rfl⟩

theorem alike_ofClass {r r' : Repository} (h : r.Faithful) (h' : r'.Faithful)
    (hsource : r'.source = r.source) (w : Whitelist) (c : ClassModel) :
    Alike r.source (ofClass r w c) (ofClass r' w c) := by
  have hstart :
      Alike r.source { repository := r, whitelist := w, className := c.name }
      { repository := r', whitelist := w, className := c.name } :=
    .mk (a := { repository := r, whitelist := w, className := c.name }) rfl
    hsource h h'
  exact (hstart.detached (.foldl (fun f => detached_setInjectable (.field f))
    _)).detached (.foldl detached_setMethodInjectable _)

theorem className_preserved (allowed : Operation → Prop) (name : String) :
    Preserves allowed fun _ a => a.className = name where
  operation {_ a op} _ h := (a.grows_begin op).className.trans h
  skip h _ _ := h
  turn h _ _ := h
  moment {_ _ x} h _ _ :=
    (grows_apply x.node x.state x.statement).className.trans h

/-- States that are alike give one result. -/
theorem Alike.finish_eq (h : Alike s a b) (ids : List NodeId) :
    b.finish ids = a.finish ids := by
  obtain ⟨_, _, _, _⟩ := h
  rfl

end Analysis

/-- The cost of a class over a repository that has kept nothing. -/
def ClassSource.cost (s : ClassSource) (w : Whitelist) (name : String) :
    Except LoadFault ClassCost :=
  (Repository.classCost { source := s } w name).2

/-- The costs of the classes that can be loaded, in the order of names. -/
def ClassSource.costs (s : ClassSource) (w : Whitelist) (names : List String) :
    List ClassCost :=
  names.filterMap fun name => (s.cost w name).toOption

/-- What can be asked of a repository. -/
inductive Request where
  | load (name : String)
  | cost (w : Whitelist) (name : String)

namespace Repository

variable {r r' : Repository}

/-- The repository after a request. -/
def serve (r : Repository) : Request → Repository
  | .load name => (r.get name).1
  | .cost w name => (r.classCost w name).1

/-- A class that cannot be loaded leaves the repository as it was. -/
theorem get_of_error {name : String} {fault : LoadFault}
    (h : (r.get name).2 = .error fault) :
    (r.get name).1 = r := by
  unfold get at h ⊢
  dsimp only at h ⊢
  split
  · rfl
  · split
    · rfl
    · next hnew _ _ hdecode =>
      rw [hnew] at h
      dsimp only at h
      rw [hdecode] at h
      cases h

theorem classCost_of_error {name : String} {fault : LoadFault}
    (h : (r.get name).2 = .error fault) (w : Whitelist) :
    r.classCost w name = (r, .error fault) := by
  have hsame := get_of_error h
  unfold classCost
  rcases hget : r.get name with ⟨found, answer⟩
  rw [hget] at h hsame
  obtain rfl : answer = .error fault := h
  obtain rfl : found = r := hsame
  rfl

theorem classCost_eq_of_source (h : r.Faithful) (h' : r'.Faithful)
    (hsource : r'.source = r.source) (w : Whitelist) (name : String) :
    (r'.classCost w name).2 = (r.classCost w name).2 := by
  have hanswer : (r'.get name).2 = (r.get name).2 := by
    rw [h.get_eq, h'.get_eq, hsource]
  cases hload : (r.get name).2 with
  | error fault =>
      rw [classCost_of_error hload, classCost_of_error (hanswer.trans hload)]
  | ok c =>
      have hget : r.get name = ((r.get name).1, .ok c) := Prod.ext rfl hload
      have hget' : r'.get name = ((r'.get name).1, .ok c) :=
        Prod.ext rfl (hanswer.trans hload)
      have hnext : (r'.get name).1.source = (r.get name).1.source := by
        rw [source_get, source_get, hsource]
      obtain ⟨halike, hids⟩ := (Analysis.alike_ofClass (h.get name)
        (h'.get name) hnext w c).visitClass c
      rw [classCost_of_get hget, classCost_of_get hget']
      generalize (Analysis.ofClass (r.get name).1 w c).visitClass c =
        visited at halike hids ⊢
      generalize (Analysis.ofClass (r'.get name).1 w c).visitClass c =
        visited' at halike hids ⊢
      dsimp only
      rw [hids, halike.finish_eq]

theorem Faithful.classCost_eq (h : r.Faithful) (w : Whitelist) (name : String) :
    (r.classCost w name).2 = r.source.cost w name :=
  classCost_eq_of_source (faithful_empty r.source #[]) h rfl w name

/-- Computing a cost leaves a faithful repository over the same source. -/
theorem Faithful.classCost (h : r.Faithful) (w : Whitelist) (name : String) :
    (r.classCost w name).1.Faithful ∧ (r.classCost w name).1.source =
      r.source := by
  cases hload : (r.get name).2 with
  | error fault =>
      rw [classCost_of_error hload]
      exact ⟨h, rfl⟩
  | ok c =>
      have hget : r.get name = ((r.get name).1, .ok c) := Prod.ext rfl hload
      obtain ⟨halike, _⟩ :=
        (Analysis.alike_ofClass (h.get name) (h.get name) rfl w c).visitClass c
      rw [classCost_of_get hget]
      generalize (Analysis.ofClass (r.get name).1 w c).visitClass c =
        visited at halike ⊢
      exact ⟨halike.faithful.1.note _,
        halike.source.1.trans (r.source_get name)⟩

theorem Faithful.serve (h : r.Faithful) (request : Request) :
    (r.serve request).Faithful ∧ (r.serve request).source = r.source := by
  cases request with
  | load name => exact ⟨h.get name, r.source_get name⟩
  | cost w name => exact h.classCost w name

theorem Faithful.foldl_serve (h : r.Faithful) (requests : List Request) :
    (requests.foldl Repository.serve r).Faithful ∧
      (requests.foldl Repository.serve r).source = r.source := by
  induction requests generalizing r with
  | nil => exact ⟨h, rfl⟩
  | cons request requests ih =>
      obtain ⟨hserved, hsource⟩ := h.serve request
      obtain ⟨hrest, hrest'⟩ := ih hserved
      exact ⟨hrest, hrest'.trans hsource⟩

end Repository

/-! ## Reports -/

theorem ClassSource.costs_cons_of_error {s : ClassSource} {w : Whitelist}
    {name : String} {fault : LoadFault} (h : s.cost w name = .error fault)
    (names : List String) :
    s.costs w (name :: names) = s.costs w names := by
  simp [costs, h, Except.toOption]

theorem ClassSource.costs_cons_of_ok {s : ClassSource} {w : Whitelist}
    {name : String} {cost : ClassCost} (h : s.cost w name = .ok cost)
    (names : List String) :
    s.costs w (name :: names) = cost :: s.costs w names := by
  simp [costs, h, Except.toOption]

theorem ClassSource.costs_append (s : ClassSource) (w : Whitelist)
    (names others : List String) :
    s.costs w (names ++ others) = s.costs w names ++ s.costs w others :=
  List.filterMap_append

theorem Repository.Faithful.classCosts_eq {r : Repository} (h : r.Faithful)
    (w : Whitelist) (names : List String) :
    (r.classCosts w names).2 = r.source.costs w names := by
  induction names generalizing r with
  | nil => rfl
  | cons name names ih =>
      have hcost := h.classCost_eq w name
      obtain ⟨hfaithful, hsource⟩ := h.classCost w name
      unfold Repository.classCosts
      rcases hcomputed : r.classCost w name with ⟨next, fault | cost⟩
      · rw [hcomputed] at hcost hfaithful hsource
        have hrest := ih (hfaithful.note (.skippedClass name fault))
        rw [ClassSource.costs_cons_of_error hcost.symm, ← hsource]
        exact hrest
      · rw [hcomputed] at hcost hfaithful hsource
        rw [ClassSource.costs_cons_of_ok hcost.symm, ← hsource, ← ih hfaithful]

namespace ClassSource

/-- The cost of a class fails as loading the class fails, and else has the name
that the class has. -/
theorem cost_cases (s : ClassSource) (w : Whitelist) (name : String) :
    (∃ fault, s.load (ClassName.dotted name) = .error fault ∧
      s.cost w name = .error fault) ∨
      ∃ c cost, s.load (ClassName.dotted name) = .ok c ∧
        s.cost w name = .ok cost ∧
        cost.name = c.name := by
  have hfaithful := Repository.faithful_empty s #[]
  have hanswer := hfaithful.get_eq name
  cases hload : s.load (ClassName.dotted name) with
  | error fault =>
      refine .inl ⟨fault, rfl, ?_⟩
      unfold cost
      rw [Repository.classCost_of_error (hanswer.trans hload)]
  | ok c =>
      have hcost :=
        Repository.classCost_of_get (Prod.ext rfl (hanswer.trans hload)) w
      generalize (Analysis.ofClass _ w c).visitClass c = visited at hcost
      obtain ⟨d, turns, a, ids, hload', hrun, hfinish, _⟩ :=
        Repository.exists_classRun hfaithful hcost
      obtain rfl := Except.ok.inj (hload.symm.trans hload')
      obtain ⟨⟨_, _, hname⟩, _⟩ :=
        Preserves.classRun (Analysis.className_preserved _ c.name) rfl hrun
      refine .inr ⟨c, _, rfl, congrArg Prod.snd hcost, ?_⟩
      rw [hfinish]
      exact hname

theorem cost_isOk_iff (s : ClassSource) (w : Whitelist) (name : String) :
    (∃ cost, s.cost w name = .ok cost) ↔
      ∃ c, s.load (ClassName.dotted name) = .ok c := by
  rcases s.cost_cases w name with ⟨fault, hload, hcost⟩ |
    ⟨c, cost, hload, hcost, _⟩
  · simp [hload, hcost]
  · simp [hload, hcost]

/-- The costs of classes have the names that the classes have. -/
theorem map_name_costs (s : ClassSource) (w : Whitelist) (names : List String) :
    (s.costs w names).map ClassCost.name =
      (names.filterMap fun name =>
        (s.load (ClassName.dotted name)).toOption).map
        ClassModel.name := by
  unfold costs
  rw [List.map_filterMap, List.map_filterMap]
  apply List.filterMap_congr
  intro name _
  rcases s.cost_cases w name with ⟨fault, hload, hcost⟩ |
    ⟨c, cost, hload, hcost, hname⟩
  · rw [hload, hcost]
    rfl
  · rw [hload, hcost]
    exact congrArg some hname

end ClassSource

namespace BrokenParent

/-- Requests of which one is for a class that cannot be loaded. -/
def earlier : List Request := [.cost .standard "p.A", .load "p.C", .load "p.B"]

theorem load_child :
    repository.source.load (ClassName.dotted "p.B") = .ok child := by
  have hdotted : ClassName.dotted "p.B" = "p.B" := by decide +kernel
  have hread : repository.source.read "p.B" = .ok (some childBytes) := rfl
  rw [hdotted]
  exact (ClassSource.load_of_read hread).trans (parse_child "p.B")

theorem exists_fault :
    ∃ fault,
      repository.source.load (ClassName.dotted "p.C") = .error fault := by
  have hdotted : ClassName.dotted "p.C" = "p.C" := by decide +kernel
  rw [hdotted]
  cases hload : repository.source.load "p.C" with
  | error fault => exact ⟨fault, rfl⟩
  | ok c => exact absurd hload (load_parent c)

end BrokenParent

end TestCost
