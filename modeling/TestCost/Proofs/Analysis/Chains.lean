import TestCost.Proofs.Analysis.Facts
import TestCost.Proofs.Analysis.History

/-!
# Facts follow chains of assignments

What an analysis knows about variables comes from few kinds of acts: a
variable is declared injectable, a value moves from one variable into another,
or a field is written through a receiver. Operations and statements come down
to such acts, and a call that is charged moves its arguments and its receiver
into the callee. The acts of a run, in the order in which they are done and each
with the state that it meets, are its trace (`Traced`).

A fact travels along the moves of the trace and only forward in time
(`Chain`): a variable that becomes injectable after its value was moved on does
not make the other one injectable. So a variable is known for something exactly
if a chain leads to it from a place where the fact came up (`Reached`). The
proof takes the trace act by act. A chain either is there already or ends with
the last act, and that act says the same of states.

## Main results

* `reached_append_iff` — where chains lead to after one more act.
* `Explains.act` — an act keeps the account of what is known.
* `facts_follow_chains` — the account after every run, and at every act of it.
-/

namespace TestCost

/-- What can change the facts that an analysis knows. -/
inductive Act where
  /-- A test can decide about the variable. -/
  | seed (v : Variable)
  /-- A value moves from one variable into another. -/
  | move (target source : Variable)
  /-- A field is written through a receiver, or without one. -/
  | write (receiver : Option Variable) (target : Field)

/-- An act about to be done. -/
structure Step where
  state : Analysis
  act : Act

/-! ## Chains -/

/-- Moves at increasing times, all of them after `t`, lead from `u` to a
variable; the last one is done at the time that stands first. -/
inductive Chain (steps : List Step) (t : Nat) (u : Variable) :
    Nat → Variable → Prop where
  | start : Chain steps t u t u
  | move {before now : Nat} {v target source : Variable} {x : Step} :
      Chain steps t u before v →
      before < now → steps[now]? = some x → x.act = .move target source →
      (source == v) = true → Chain steps t u now target

/-- A chain leads to the variable from a place where an act starts one. -/
def Reached (starts : Step → Variable → Prop) (steps : List Step)
    (v : Variable) : Prop :=
  ∃ t x u t' w, steps[t]? = some x ∧ starts x u ∧ Chain steps t u t' w ∧
    (w == v) = true

/-- The act declares the variable injectable. -/
def Step.Seeds (x : Step) (u : Variable) : Prop := x.act = .seed u

/-- The act makes the variable global whatever has been moved before: a move
into a static field or out of one, or a write to a field that has no receiver
or one that is global by then. -/
def Step.Exposes (x : Step) (u : Variable) : Prop :=
  (∃ source, x.act = .move u source ∧
    (u.isStatic = true ∨ source.isStatic = true)) ∨
    ∃ receiver target, x.act = .write receiver target ∧ u = .field target ∧
      receiver.all x.state.isGlobal = true

section Chains

variable {starts : Step → Variable → Prop} {steps : List Step} {t t' : Nat}
  {u v w : Variable}
  {x : Step}

theorem Chain.le (h : Chain steps t u t' w) : t ≤ t' := by
  induction h with
  | start => exact Nat.le_refl t
  | move _ hlt _ _ _ ih => omega

theorem Chain.lt_length (h : Chain steps t u t' w) (ht : t < steps.length) :
    t' < steps.length := by
  cases h with
  | start => exact ht
  | move _ _ hnow _ _ => exact (List.getElem?_eq_some_iff.1 hnow).1

theorem Chain.append (h : Chain steps t u t' w) (x : Step) :
    Chain (steps ++ [x]) t u t' w := by
  induction h with
  | start => exact .start
  | move _ hlt hnow hact hsource ih =>
      have hlength := (List.getElem?_eq_some_iff.1 hnow).1
      exact .move ih hlt ((List.getElem?_append_left hlength).trans hnow)
        hact hsource

/-- A chain that the last act does not end was there before it. -/
theorem Chain.of_append (h : Chain (steps ++ [x]) t u t' w)
    (ht' : t' < steps.length) :
    Chain steps t u t' w := by
  induction h with
  | start => exact .start
  | move _ hlt hnow hact hsource ih =>
      rw [List.getElem?_append_left ht'] at hnow
      exact .move (ih (Nat.lt_trans hlt ht')) hlt hnow hact hsource

/-- One more act leads further only if it starts a chain or moves the end of
one. A chain that ends with the last act ends at its source without it. -/
theorem reached_append_iff : Reached starts (steps ++ [x]) v ↔
    Reached starts steps v ∨ (∃ u, starts x u ∧ (v == u) = true) ∨
      ∃ target source, x.act = .move target source ∧
        Reached starts steps source ∧
        (v == target) = true := by
  have hlast : (steps ++ [x])[steps.length]? = some x := by simp
  constructor
  · rintro ⟨t, y, u, t', w, hy, hstarts, hchain, hw⟩
    by_cases ht : t < steps.length
    · rw [List.getElem?_append_left ht] at hy
      cases hchain with
      | start => exact .inl ⟨t, y, u, t, u, hy, hstarts, .start, hw⟩
      | move hbefore hlt hnow hact hsource =>
          by_cases ht' : t' < steps.length
          · have hchain : Chain (steps ++ [x]) t u t' w :=
              .move hbefore hlt hnow hact hsource
            exact .inl ⟨t, y, u, t', w, hy, hstarts, hchain.of_append ht', hw⟩
          · have hbound := (List.getElem?_eq_some_iff.1 hnow).1
            rw [List.length_append, List.length_singleton] at hbound
            have hend : t' = steps.length := by omega
            rw [hend, hlast] at hnow
            obtain rfl := Option.some.inj hnow
            have hold := hbefore.of_append (hend ▸ hlt)
            exact .inr (.inr ⟨w, _, hact, ⟨t, y, u, _, _, hy, hstarts, hold,
              BEq.symm hsource⟩, BEq.symm hw⟩)
    · have hlength := (List.getElem?_eq_some_iff.1 hy).1
      rw [List.length_append, List.length_singleton] at hlength
      have ht_eq : t = steps.length := by omega
      rw [ht_eq, hlast] at hy
      obtain rfl := Option.some.inj hy
      cases hchain with
      | start => exact .inr (.inl ⟨u, hstarts, BEq.symm hw⟩)
      | move hbefore hlt hnow _ _ =>
          have hle := hbefore.le
          have hbound := (List.getElem?_eq_some_iff.1 hnow).1
          rw [List.length_append, List.length_singleton] at hbound
          omega
  · rintro (⟨t, y, u, t', w, hy, hstarts, hchain, hw⟩ | ⟨u, hstarts, hu⟩ |
      ⟨target, source, hact, ⟨t, y, u, t', w, hy, hstarts, hchain, hw⟩,
      htarget⟩)
    · have ht := (List.getElem?_eq_some_iff.1 hy).1
      exact ⟨t, y, u, t', w, (List.getElem?_append_left ht).trans hy, hstarts,
        hchain.append x, hw⟩
    · exact ⟨steps.length, x, u, steps.length, u, hlast, hstarts, .start,
        BEq.symm hu⟩
    · have ht := (List.getElem?_eq_some_iff.1 hy).1
      exact ⟨t, y, u,
        steps.length, target, (List.getElem?_append_left ht).trans hy, hstarts,
        .move (hchain.append x) (hchain.lt_length ht) hlast hact (BEq.symm hw),
        BEq.symm htarget⟩

end Chains

/-! ## Acts and states -/

namespace Analysis

/-- What an act does to what is known. -/
def act (a : Analysis) : Act → Analysis
  | .seed v => a.setInjectable v
  | .move target source => a.assign target source
  | .write receiver target =>
    if receiver.all a.isGlobal then a.setGlobal (.field target) else a

/-- Acts that are done one after the other. -/
def steps (a : Analysis) : List Act → List Step
  | [] => []
  | x :: acts => ⟨a, x⟩ :: steps (a.act x) acts

/-- What is known is what chains lead to. -/
structure Explains (past : List Step) (a : Analysis) : Prop where
  injectable : ∀ v, a.isInjectable v = true ↔ Reached Step.Seeds past v
  global : ∀ v, a.isGlobal v = true ↔
    v.isStatic = true ∨ Reached Step.Exposes past v

variable {a b : Analysis} {past : List Step}

theorem isInjectable_write (a : Analysis) (receiver : Option Variable)
    (target : Field) (u : Variable) :
    (a.act (.write receiver target)).isInjectable u = a.isInjectable u := by
  show (if receiver.all a.isGlobal then a.setGlobal (.field target)
    else a).isInjectable u = _
  split <;> rfl

theorem isGlobal_write (a : Analysis) (receiver : Option Variable)
    (target : Field) (u : Variable) :
    (a.act (.write receiver target)).isGlobal u =
      (a.isGlobal u || (receiver.all a.isGlobal && u == .field target)) := by
  show (if receiver.all a.isGlobal then a.setGlobal (.field target)
    else a).isGlobal u = _
  cases receiver.all a.isGlobal with
  | true => exact isGlobal_setGlobal a (.field target) u
  | false => simp

theorem explains_empty (r : Repository) (w : Whitelist) (name : String) :
    Explains [] { repository := r, whitelist := w, className := name } where
  injectable v := by simp [isInjectable, Reached]
  global v := by simp [isGlobal, Reached]

theorem Explains.congr (h : Explains past a) (hsame : ∀ u, SameFacts u a b) :
    Explains past b where
  injectable v := by rw [(hsame v).injectable, h.injectable]
  global v := by rw [(hsame v).global, h.global]

theorem Explains.act (h : Explains past a) (x : Act) :
    Explains (past ++ [⟨a, x⟩]) (a.act x) := by
  cases x with
  | seed u =>
      constructor
      · intro v
        show (a.setInjectable u).isInjectable v = true ↔ _
        rw [isInjectable_setInjectable, Bool.or_eq_true, h.injectable,
          reached_append_iff]
        simp [Step.Seeds]
      · intro v
        show a.isGlobal v = true ↔ _
        rw [h.global, reached_append_iff]
        simp [Step.Exposes]
  | move target source =>
      constructor
      · intro v
        show (a.assign target source).isInjectable v = true ↔ _
        rw [isInjectable_assign, Bool.or_eq_true, Bool.and_eq_true,
          h.injectable, h.injectable, reached_append_iff]
        simp [Step.Seeds]
      · intro v
        show (a.assign target source).isGlobal v = true ↔ _
        rw [isGlobal_assign, Bool.or_eq_true, Bool.and_eq_true, Bool.or_eq_true,
          h.global, h.global, reached_append_iff]
        simp only [Step.Exposes, Act.move.injEq, reduceCtorEq, false_and,
          exists_const, or_false]
        grind
  | write receiver target =>
      constructor
      · intro v
        rw [isInjectable_write, h.injectable, reached_append_iff]
        simp [Step.Seeds]
      · intro v
        rw [isGlobal_write, Bool.or_eq_true, Bool.and_eq_true, h.global,
          reached_append_iff]
        simp only [Step.Exposes, Act.write.injEq, reduceCtorEq, false_and,
          exists_const, false_or, or_false]
        grind

/-- The account holds now, and it held at every act that was done. -/
structure Followed (past : List Step) (a : Analysis) : Prop where
  now : Explains past a
  earlier : ∀ t x, past[t]? = some x → Explains (past.take t) x.state

theorem Followed.congr (h : Followed past a) (hsame : ∀ u, SameFacts u a b) :
    Followed past b :=
  ⟨h.now.congr hsame, h.earlier⟩

theorem Followed.act (h : Followed past a) (x : Act) :
    Followed (past ++ [⟨a, x⟩]) (a.act x) := by
  refine ⟨h.now.act x, ?_⟩
  intro t y hy
  by_cases ht : t < past.length
  · rw [List.getElem?_append_left ht] at hy
    rw [List.take_append_of_le_length (Nat.le_of_lt ht)]
    exact h.earlier t y hy
  · have hbound := (List.getElem?_eq_some_iff.1 hy).1
    rw [List.length_append, List.length_singleton] at hbound
    obtain rfl : t = past.length := by omega
    rw [List.getElem?_append_right (Nat.le_refl _), Nat.sub_self] at hy
    obtain rfl := Option.some.inj hy
    rw [List.take_left]
    exact h.now

theorem Followed.steps (h : Followed past a) (acts : List Act) :
    Followed (past ++ a.steps acts) (acts.foldl Analysis.act a) := by
  induction acts generalizing past a with
  | nil => simpa [Analysis.steps] using h
  | cons x acts ih =>
      have hrest := ih (h.act x)
      rwa [List.append_assoc] at hrest

theorem SameFacts.act (h : ∀ u, SameFacts u a b) (x : Act) (u : Variable) :
    SameFacts u (a.act x) (b.act x) := by
  have hinjectable : ∀ v, b.isInjectable v = a.isInjectable v :=
    fun v => (h v).injectable
  have hglobal : b.isGlobal = a.isGlobal := funext fun v => (h v).global
  cases x with
  | seed v =>
      refine ⟨?_, (h u).global⟩
      show (b.setInjectable v).isInjectable u =
        (a.setInjectable v).isInjectable u
      rw [isInjectable_setInjectable, isInjectable_setInjectable, hinjectable]
  | move target source =>
      constructor
      · show (b.assign target source).isInjectable u =
          (a.assign target source).isInjectable u
        rw [isInjectable_assign, isInjectable_assign, hinjectable, hinjectable]
      · show (b.assign target source).isGlobal u =
          (a.assign target source).isGlobal u
        rw [isGlobal_assign, isGlobal_assign, hglobal]
  | write receiver target =>
      constructor
      · rw [isInjectable_write, isInjectable_write, hinjectable]
      · rw [isGlobal_write, isGlobal_write, hglobal]

theorem SameFacts.acts (h : ∀ u, SameFacts u a b) (acts : List Act)
    (u : Variable) :
    SameFacts u (acts.foldl Analysis.act a) (acts.foldl Analysis.act b) := by
  induction acts generalizing a b with
  | nil => exact h u
  | cons x acts ih => exact ih (SameFacts.act h x)

end Analysis

/-! ## The acts of a run -/

/-- What writing a field comes down to: the value moves into the field, and
then the receiver counts. -/
def Act.ofPutField (receiver : Option Variable) (target : Field)
    (value : Variable) : List Act :=
  [.move (.field target) value, .write receiver target]

/-- Arguments move into parameters, and then the receiver into that of the
callee. -/
def Act.ofCall (callee : Method) (call : Invocation) : List Act :=
  (callee.parameters.zip call.arguments ++
    callee.receiver.toList.zip call.receiver.toList).map
    fun entry => .move entry.1 entry.2

/-- What an operation comes down to, the methods apart that it leads to. -/
def Operation.acts : Operation → List Act
  | setInjectable v => [.seed v]
  | setMethodInjectable m => (m.receiver.toList ++ m.parameters).map .seed
  | assign target source => [.move target source]
  | putField _ _ receiver target value => Act.ofPutField receiver target value
  | putElement _ _ array value => [.move array value]
  | addCall _ _ _ | visit _ _ => []

/-- What a statement comes down to. -/
def Moment.acts (x : Moment) : List Act :=
  match x.statement with
  | .assign _ target value => [.move target value]
  | .putField _ receiver target value => Act.ofPutField receiver target value
  | .putElement _ array _ value => [.move array value]
  | .invoke call =>
    ((x.state.charged? call).map fun entry => Act.ofCall entry.2 call).getD []

/-- The acts of a statement, of a method in its turn. -/
def Moment.steps (x : Moment) : List Step := x.state.steps x.acts

def Turn.steps (t : Turn) : List Step := t.moments.flatMap Moment.steps

namespace Analysis

variable {a b : Analysis} {past : List Step}

/-- The acts that operations come down to, each operation performed to its
end. -/
inductive Traced : Analysis → List Operation → List Step → Analysis → Prop where
  | nil (a : Analysis) : Traced a [] [] a
  | cons {a b c : Analysis} {op : Operation} {ops : List Operation}
      {turns : List Turn}
      {rest : List Step} : Drains (a.begin op) turns b → Traced b ops rest c →
      Traced a (op :: ops)
        (a.steps op.acts ++ turns.flatMap Turn.steps ++ rest) c

theorem Performed.exists_traced {ops : List Operation} {turns : List Turn}
    (h : Performed a ops turns b) : ∃ past, Traced a ops past b := by
  induction h with
  | nil a => exact ⟨[], .nil a⟩
  | cons hturns _ ih =>
      obtain ⟨rest, hrest⟩ := ih
      exact ⟨_, .cons hturns hrest⟩

theorem sameFacts_putField_acts (a : Analysis) (writer : NodeId) (line : Nat)
    (receiver : Option Variable) (target : Field) (value u : Variable) :
    SameFacts u ((Act.ofPutField receiver target value).foldl act a)
      (a.putField writer line receiver target value) := by
  show SameFacts u (if receiver.all (a.assign (.field target) value).isGlobal
    then (a.assign (.field target) value).setGlobal (.field target)
    else a.assign (.field target) value) _
  unfold putField
  dsimp only
  split
  · exact sameFacts_of_eq rfl rfl
  · exact ⟨rfl, rfl⟩

theorem passArguments_eq (a : Analysis) (callee : Method) (call : Invocation) :
    a.passArguments callee call = (Act.ofCall callee call).foldl act a := by
  unfold passArguments Act.ofCall
  rw [List.foldl_map, List.foldl_append]
  cases callee.receiver with
  | none => rfl
  | some p =>
      cases call.receiver with
      | none => rfl
      | some v => rfl

theorem sameFacts_begin (a : Analysis) (op : Operation) (u : Variable) :
    SameFacts u (op.acts.foldl act a) (a.begin op) := by
  cases op with
  | setInjectable v => exact ⟨rfl, rfl⟩
  | setMethodInjectable m =>
      rw [Operation.acts, List.foldl_map]
      exact ⟨rfl, rfl⟩
  | assign target source => exact ⟨rfl, rfl⟩
  | putField writer line receiver target value =>
      exact sameFacts_putField_acts a writer line receiver target value u
  | putElement writer line array value =>
      exact sameFacts_putElement a writer line array value
  | addCall caller line callee => exact sameFacts_of_eq rfl rfl
  | visit c m => exact sameFacts_enqueue a c m

theorem sameFacts_invoke_acts (a : Analysis) (node : NodeId) (call : Invocation)
    (u : Variable) :
    SameFacts u (((Moment.mk a node (.invoke call)).acts).foldl act a)
      (a.invoke node call) := by
  have hasked : ∀ u, SameFacts u a (a.asked call) :=
    fun _ => a.sameFacts_asked call
  unfold Moment.acts
  dsimp only
  rcases a.invoke_cases node call with
    ⟨fault, _, hcharged, heq⟩ | ⟨c, m, _, hcharged, heq⟩ | ⟨_, hcharged, heq⟩
  · rw [hcharged, heq]
    exact (hasked u).trans (sameFacts_reportMissing _ _ _)
  · have hpass := SameFacts.acts hasked (Act.ofCall m call) u
    rw [← passArguments_eq (a.asked call)] at hpass
    rw [hcharged, heq]
    exact (hpass.trans (sameFacts_enqueue _ c m)).trans
      (sameFacts_of_eq rfl rfl)
  · rw [hcharged, heq]
    exact hasked u

theorem sameFacts_apply (x : Moment) (u : Variable) :
    SameFacts u (x.acts.foldl act x.state)
      (apply x.node x.state x.statement) := by
  obtain ⟨a, node, s⟩ := x
  cases s with
  | assign line target value => exact ⟨rfl, rfl⟩
  | putField line receiver target value =>
      exact sameFacts_putField_acts a node line receiver target value u
  | putElement line array index value =>
      exact sameFacts_putElement a node line array value
  | invoke call => exact sameFacts_invoke_acts a node call u

theorem Followed.moments (h : Followed past a) (node : NodeId)
    (statements : List Statement) :
    Followed (past ++ (Analysis.moments node a statements).flatMap Moment.steps)
      (statements.foldl (apply node) a) := by
  induction statements generalizing past a with
  | nil => simpa [Analysis.moments] using h
  | cons s statements ih =>
      have hfirst := (h.steps (Moment.acts ⟨a, node, s⟩)).congr
        (sameFacts_apply ⟨a, node, s⟩)
      have hrest := ih hfirst
      rwa [List.append_assoc] at hrest

theorem Followed.drains {turns : List Turn} (hturns : Drains a turns b)
    (h : Followed past a) :
    Followed (past ++ turns.flatMap Turn.steps) b := by
  induction hturns generalizing past with
  | done _ => simpa using h
  | skip _ _ _ ih => exact ih (h.congr fun _ => sameFacts_of_eq rfl rfl)
  | @turn a _ _ _ rest m _ _ _ _ ih =>
      have hopened : Followed past ((a.withQueue rest).opened m) :=
        h.congr fun _ => sameFacts_of_eq rfl rfl
      have hrest :=
        ih (hopened.moments ((a.withQueue rest).graph.add m).2 m.statements)
      rwa [List.append_assoc] at hrest

theorem Followed.traced {ops : List Operation} {rest : List Step}
    (hops : Traced a ops rest b) (h : Followed past a) :
    Followed (past ++ rest) b := by
  induction hops generalizing past with
  | nil a => simpa using h
  | @cons a b c op ops turns rest hturns _ ih =>
      have hbegun := (h.steps op.acts).congr (a.sameFacts_begin op)
      have hrest := ih (Followed.drains hturns hbegun)
      rwa [List.append_assoc, List.append_assoc,
        ← List.append_assoc (a.steps op.acts)] at hrest

/-- **Facts follow chains of assignments.** Whatever is asked of a new analysis,
a variable is injectable at the end exactly if a chain of moves at increasing
times leads to it from a variable that was declared so, and global exactly if it
is a static field or a chain leads to it from an act that exposes a variable.
The same is true at every act, of the acts before it. -/
theorem facts_follow_chains {r : Repository} (hfaithful : r.Faithful)
    (w : Whitelist) (name : String) (ops : List Operation) :
    ∃ past a, a =
      ops.foldl perform { repository := r, whitelist := w, className := name } ∧
      Traced { repository := r, whitelist := w, className := name } ops past a ∧
      (∀ v, a.isInjectable v = true ↔ Reached Step.Seeds past v) ∧
      (∀ v, a.isGlobal v = true ↔
        v.isStatic = true ∨ Reached Step.Exposes past v) ∧
      ∀ t x, past[t]? = some x →
        (∀ v, x.state.isInjectable v = true ↔
          Reached Step.Seeds (past.take t) v) ∧
        ∀ v, x.state.isGlobal v = true ↔
          v.isStatic = true ∨ Reached Step.Exposes (past.take t) v := by
  have hexists := exists_performed (a :=
    { repository := r, whitelist := w, className := name }) hfaithful rfl ops
  obtain ⟨turns, hturns, _⟩ := hexists
  obtain ⟨past, hpast⟩ := hturns.exists_traced
  have hstart :
      Followed [] { repository := r, whitelist := w, className := name } :=
    ⟨explains_empty r w name, by simp⟩
  have h := hstart.traced hpast
  rw [List.nil_append] at h
  refine ⟨past, _, rfl, hpast, h.now.injectable, h.now.global, ?_⟩
  intro t x hx
  exact ⟨(h.earlier t x hx).injectable, (h.earlier t x hx).global⟩

namespace Relay

/-- A local of `p.A.run()V`. -/
def place (rank : Nat) : Variable :=
  .localVar
    { scope := "p.A.run()V", ordinal := rank, name := "v", type := .reference }

def shared : Field :=
  { owner := "p.A", name := "shared", type := .reference, isStatic := true,
    isPrivate := false }

def link : Field :=
  { owner := "p.B", name := "link", type := .reference, isStatic := false,
    isPrivate := false }

/-- Hands a value on, writes it through a static field and reads it back. -/
def run : Method where
  owner := "p.A"
  name := "run"
  descriptor := "()V"
  visibility := .publicAccess
  isStatic := true
  receiver := none
  parameters := []
  locals := [place 0, place 1, place 2, place 3, place 4]
  complexity := 1
  startingLine := 1
  statements :=
    [.assign 1 (place 1) (place 0), .assign 2 (place 2) (.field shared),
     .putField 3 (some (place 2)) link (place 1),
       .assign 4 (place 3) (.field link)]

def start : Analysis where
  repository := { source := .table [] }
  whitelist := .standard
  className := "p.A"

/-- The first value is handed on before it becomes injectable, and after. -/
def operations : List Operation :=
  let c : ClassModel :=
    { name := "p.A", superName := none, fields := [], methods := [run] }
  [.assign (place 4) (place 0), .setInjectable (place 0), .visit c run]

theorem last_place_reached :
    start.repository.Faithful ∧ ∃ past a, a = operations.foldl perform start ∧
      Traced start operations past a ∧ Reached Step.Seeds past (place 3) ∧
      Reached Step.Exposes past (place 3) ∧
        ¬ Reached Step.Seeds past (place 4) := by
  have hfaithful : start.repository.Faithful := Repository.faithful_empty _ _
  obtain ⟨past, a, ha, hpast, hinjectable, hglobal, _⟩ :=
    facts_follow_chains hfaithful .standard "p.A" operations
  refine ⟨hfaithful, past, a, ha, hpast, (hinjectable _).1 ?_, ?_,
    mt (hinjectable _).2 ?_⟩
  · rw [ha]
    decide +kernel
  · refine ((hglobal _).1 ?_).resolve_left (by decide)
    rw [ha]
    decide +kernel
  · rw [ha]
    decide +kernel

end Relay

end Analysis

end TestCost
