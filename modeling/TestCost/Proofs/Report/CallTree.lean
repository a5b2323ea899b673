import Mathlib
import TestCost.Report.CallTree
import TestCost.Proofs.Cost.Reachability

/-!
# Lines of a call tree

`CallTree.lines` writes a tree out as it walks. Here the walk is taken apart
from the writing: `CallTree.visit` lists the lines of a tree as values, each
with its level and its method, and what is written is the text of these
(`ofMethod_eq_map`).

A visit changes the methods met so far and adds lines. What it can do to both is
said once, in `Walk`, with one field for each property, and proved along the
recursion: nothing at all, passing over a method that is not worth a line, two
walks one after the other, and a line with a walk over the calls below it. All
that is said of trees elsewhere is derived from these fields.

## Main results

* `walk_visit` — every visit is a walk.
* `exists_path_of_shown` — a line at a level is that of a method so many calls
  away from the root.
* `mem_methods_iff` — which methods have a line: the root, and what is called by
  a method with a line above the deepest level.
-/

namespace TestCost

namespace CallTree

/-- A line of a call tree before it is written out. -/
structure Shown where
  /-- Number of calls from the root. -/
  level : Nat
  /-- Where the method is called; the root of a tree is not. -/
  line : Option Nat
  id : NodeId
  deriving DecidableEq

/-- What stands before the text of a method at a level. -/
def indentAt : Nat → String
  | 0 => step
  | level + 1 => indentAt level ++ step

/-- The line as it is written. -/
def Shown.text (g : CostGraph) (s : Shown) : String :=
  lineOf (indentAt s.level) s.line (g.node s.id)

/-- Visit the calls of a method one after the other; `level` is that of the
callees. -/
def visitCalls (visit : Shown → List NodeId → List Shown × List NodeId)
    (level : Nat) :
    List Call → List NodeId → List Shown × List NodeId
  | [], seen => ([], seen)
  | call :: calls, seen =>
    let first := visit { level, line := some call.line, id := call.callee } seen
    let rest := visitCalls visit level calls first.2
    (first.1 ++ rest.1, rest.2)

/-- The lines of a method and of what it calls, and the methods met after
them; `seen` are those met before. -/
def visit (g : CostGraph) (minCost : Nat) :
    (depth : Nat) → Shown → (seen : List NodeId) → List Shown × List NodeId
  | 0, _, seen => ([], seen)
  | depth + 1, s, seen =>
    if s.id ∈ seen then ([], seen)
    else if (g.node s.id).reaches minCost then
      let below := visitCalls (visit g minCost depth) (s.level + 1)
        (g.node s.id).calls (s.id :: seen)
      (s :: below.1, below.2)
    else ([], s.id :: seen)

/-- The lines of the call tree of a method. -/
def shown (g : CostGraph) (minCost depth : Nat) (root : NodeId) : List Shown :=
  (visit g minCost depth { level := 0, line := none, id := root } []).1

/-- The methods that have a line in the call tree of a method. -/
def methods (g : CostGraph) (minCost depth : Nat) (root : NodeId) :
    List NodeId :=
  (shown g minCost depth root).map Shown.id

/-! ## Writing a tree -/

/-- Writing the calls of a method, when writing a callee is visiting it. -/
theorem foldl_lines (g : CostGraph) (minCost depth level : Nat)
    (hlines : ∀ line id seen, lines g minCost depth (indentAt level)
      line id seen = ((visit g minCost depth ⟨level, line, id⟩ seen).1.map
      (Shown.text g), (visit g minCost depth ⟨level, line, id⟩ seen).2))
    (calls : List Call) (written : List String) (seen : List NodeId) :
    calls.foldl (fun acc call =>
        (acc.1 ++ (lines g minCost depth (indentAt level)
          (some call.line) call.callee acc.2).1,
          (lines g minCost depth (indentAt level)
            (some call.line) call.callee acc.2).2))
        (written, seen) =
      (written ++ (visitCalls (visit g minCost depth) level calls seen).1.map
        (Shown.text g),
        (visitCalls (visit g minCost depth) level calls seen).2) := by
  induction calls generalizing written seen with
  | nil => simp [visitCalls]
  | cons call calls ih =>
      rw [List.foldl_cons, ih, hlines]
      simp [visitCalls]

theorem lines_eq (g : CostGraph) (minCost depth level : Nat) (line : Option Nat)
    (id : NodeId) (seen : List NodeId) :
    lines g minCost depth (indentAt level) line id seen =
      ((visit g minCost depth ⟨level, line, id⟩ seen).1.map (Shown.text g),
        (visit g minCost depth ⟨level, line, id⟩ seen).2) := by
  induction depth generalizing level line id seen with
  | zero => rfl
  | succ depth ih =>
      rw [lines, visit]
      by_cases hseen : id ∈ seen
      · simp [hseen]
      · by_cases hreaches : (g.node id).reaches minCost = true
        · have hbelow :=
            foldl_lines g minCost depth (level + 1) (fun line id seen =>
            ih _ line id seen) (g.node id).calls [] (id :: seen)
          rw [List.nil_append] at hbelow
          rw [if_neg (by simpa using hseen), if_neg (by simpa using hreaches),
            if_neg hseen, if_pos hreaches]
          exact congrArg (fun below : List String × List NodeId =>
            (lineOf (indentAt level) line (g.node id) :: below.1,
              below.2)) hbelow
        · simp [hseen, hreaches]

/-- A call tree is its lines, written out. -/
theorem ofMethod_eq_map (s : ReportSettings) (c : ClassCost) (root : NodeId) :
    ofMethod s c root = (shown c.graph s.minCost s.printDepth root).map
      (Shown.text c.graph) := by
  exact congrArg Prod.fst
    (lines_eq c.graph s.minCost s.printDepth 0 none root [])

/-! ## What a visit does -/

/-- What a walk from `level` down to the levels above `limit` does: it adds the
lines `out`, those at `level` for methods in `starts`, and takes the methods met
from `seen` to `met`. -/
structure Walk (g : CostGraph) (minCost level limit : Nat)
    (starts : NodeId → Prop) (seen : List NodeId) (out : List Shown)
    (met : List NodeId) : Prop where
  grows : ∀ n ∈ seen, n ∈ met
  fresh : ∀ s ∈ out, s.id ∉ seen ∧ s.id ∈ met
  once : (out.map Shown.id).Nodup
  costly : ∀ s ∈ out, (g.node s.id).reaches minCost = true
  /-- A method that was met and has no line is not worth one. -/
  complete : ∀ n ∈ met, n ∉ seen → (g.node n).reaches minCost = true →
    n ∈ out.map Shown.id
  inside : ∀ s ∈ out, level ≤ s.level ∧ s.level < limit
  /-- A line is one of those that the walk starts with, or a method with a line
  one level up calls its method. -/
  called : ∀ s ∈ out, (s.level = level ∧ starts s.id) ∨
    ∃ caller ∈ out, caller.level + 1 = s.level ∧ s.id ∈ g.callees caller.id
  /-- Above the deepest level, all that a method with a line calls is met. -/
  opened : ∀ s ∈ out, s.level + 1 < limit → ∀ n ∈ g.callees s.id, n ∈ met

variable {g : CostGraph} {minCost level limit : Nat} {starts : NodeId → Prop}
  {seen mid met : List NodeId}

/-- A walk without lines. -/
theorem Walk.idle (hgrows : ∀ n ∈ seen, n ∈ met)
    (hcheap : ∀ n ∈ met, n ∉ seen → ¬ (g.node n).reaches minCost = true) :
    Walk g minCost level limit starts seen [] met where
  grows := hgrows
  fresh := by simp
  once := List.nodup_nil
  costly := by simp
  complete := fun n hn hnew hreaches => absurd hreaches (hcheap n hn hnew)
  inside := by simp
  called := by simp
  opened := by simp

/-- Two walks, one after the other. The second shows only what the first has not
met. -/
theorem Walk.append {first rest : List Shown}
    (h : Walk g minCost level limit starts seen first mid)
    (h' : Walk g minCost level limit starts mid rest met) :
    Walk g minCost level limit starts seen (first ++ rest) met where
  grows := fun n hn => h'.grows n (h.grows n hn)
  fresh := by
    intro s hs
    rcases List.mem_append.1 hs with hfirst | hrest
    · exact ⟨(h.fresh s hfirst).1, h'.grows _ (h.fresh s hfirst).2⟩
    · exact ⟨fun hseen => (h'.fresh s hrest).1 (h.grows _ hseen),
        (h'.fresh s hrest).2⟩
  once := by
    rw [List.map_append]
    refine List.nodup_append.2 ⟨h.once, h'.once, ?_⟩
    intro a ha b hb heq
    obtain ⟨s, hs, rfl⟩ := List.mem_map.1 ha
    obtain ⟨t, ht, rfl⟩ := List.mem_map.1 hb
    exact (h'.fresh t ht).1 (heq ▸ (h.fresh s hs).2)
  costly := by
    intro s hs
    rcases List.mem_append.1 hs with hfirst | hrest
    · exact h.costly s hfirst
    · exact h'.costly s hrest
  complete := by
    intro n hn hnew hreaches
    rw [List.map_append, List.mem_append]
    by_cases hmid : n ∈ mid
    · exact .inl (h.complete n hmid hnew hreaches)
    · exact .inr (h'.complete n hn hmid hreaches)
  inside := by
    intro s hs
    rcases List.mem_append.1 hs with hfirst | hrest
    · exact h.inside s hfirst
    · exact h'.inside s hrest
  called := by
    intro s hs
    rcases List.mem_append.1 hs with hfirst | hrest
    · refine (h.called s hfirst).imp_right ?_
      rintro ⟨caller, hcaller, hcall⟩
      exact ⟨caller, List.mem_append_left _ hcaller, hcall⟩
    · refine (h'.called s hrest).imp_right ?_
      rintro ⟨caller, hcaller, hcall⟩
      exact ⟨caller, List.mem_append_right _ hcaller, hcall⟩
  opened := by
    intro s hs habove n hn
    rcases List.mem_append.1 hs with hfirst | hrest
    · exact h'.grows n (h.opened s hfirst habove n hn)
    · exact h'.opened s hrest habove n hn

/-- A line, and a walk over the calls of its method below it. -/
theorem Walk.cons {s : Shown} {below : List Shown}
    (hlevel : s.level < limit) (hnew : s.id ∉ seen)
    (hreaches : (g.node s.id).reaches minCost = true) (h : Walk g minCost
      (s.level + 1) limit (· ∈ g.callees s.id) (s.id :: seen) below met)
    (hopened : s.level + 1 < limit → ∀ n ∈ g.callees s.id, n ∈ met) :
    Walk g minCost s.level limit (· = s.id) seen (s :: below) met where
  grows := fun n hn => h.grows n (List.mem_cons_of_mem _ hn)
  fresh := by
    intro t ht
    rcases List.mem_cons.1 ht with rfl | hbelow
    · exact ⟨hnew, h.grows _ List.mem_cons_self⟩
    · exact ⟨fun hseen => (h.fresh t hbelow).1 (List.mem_cons_of_mem _ hseen),
        (h.fresh t hbelow).2⟩
  once := by
    rw [List.map_cons]
    refine List.nodup_cons.2 ⟨?_, h.once⟩
    intro hmem
    obtain ⟨t, ht, heq⟩ := List.mem_map.1 hmem
    exact (h.fresh t ht).1 (heq ▸ List.mem_cons_self)
  costly := by
    intro t ht
    rcases List.mem_cons.1 ht with rfl | hbelow
    · exact hreaches
    · exact h.costly t hbelow
  complete := by
    intro n hn hunseen hworth
    rw [List.map_cons, List.mem_cons]
    by_cases hself : n = s.id
    · exact .inl hself
    · exact .inr (h.complete n hn (by simp [hself, hunseen]) hworth)
  inside := by
    intro t ht
    rcases List.mem_cons.1 ht with rfl | hbelow
    · exact ⟨Nat.le_refl _, hlevel⟩
    · exact ⟨Nat.le_of_succ_le (h.inside t hbelow).1, (h.inside t hbelow).2⟩
  called := by
    intro t ht
    rcases List.mem_cons.1 ht with rfl | hbelow
    · exact .inl ⟨rfl, rfl⟩
    · rcases h.called t hbelow with ⟨hfirst, hcallee⟩ | ⟨caller, hcaller, hcall⟩
      · exact .inr ⟨s, List.mem_cons_self, hfirst.symm, hcallee⟩
      · exact .inr ⟨caller, List.mem_cons_of_mem _ hcaller, hcall⟩
  opened := by
    intro t ht
    rcases List.mem_cons.1 ht with rfl | hbelow
    · exact hopened
    · exact h.opened t hbelow

theorem Walk.mono {starts' : NodeId → Prop}
    {out : List Shown} (h : Walk g minCost level limit starts seen out met)
    (hstarts : ∀ n, starts n → starts' n) :
    Walk g minCost level limit starts' seen out met where
  grows := h.grows
  fresh := h.fresh
  once := h.once
  costly := h.costly
  complete := h.complete
  inside := h.inside
  called := fun s hs => (h.called s hs).imp_left fun hfirst =>
    ⟨hfirst.1, hstarts _ hfirst.2⟩
  opened := h.opened

/-- Visiting calls is a walk when visiting each is one. With levels left, all
callees are met. -/
theorem walk_visitCalls
    {depth : Nat} (hvisit : ∀ (s : Shown) (seen : List NodeId),
      Walk g minCost s.level (s.level + depth) (· = s.id) seen
      (visit g minCost depth s seen).1 (visit g minCost depth s seen).2 ∧
      (0 < depth → s.id ∈ (visit g minCost depth s seen).2)) (level : Nat)
    (calls : List Call) (seen : List NodeId) :
    Walk g minCost level (level + depth) (· ∈ calls.map Call.callee) seen
        (visitCalls (visit g minCost depth) level calls seen).1
        (visitCalls (visit g minCost depth) level calls seen).2 ∧
      (0 < depth → ∀ n ∈ calls.map Call.callee,
        n ∈ (visitCalls (visit g minCost depth) level calls seen).2) := by
  induction calls generalizing seen with
  | nil =>
      refine ⟨.idle (fun n hn => hn) fun n hn hnew => absurd hn hnew, ?_⟩
      simp
  | cons call calls ih =>
      rw [visitCalls]
      obtain ⟨hfirst, hmet⟩ := hvisit ⟨level, some call.line, call.callee⟩ seen
      obtain ⟨hrest, hothers⟩ :=
        ih (visit g minCost depth ⟨level, some call.line, call.callee⟩ seen).2
      refine ⟨(hfirst.mono ?_).append (hrest.mono ?_), ?_⟩
      · rintro n rfl
        exact List.mem_cons_self
      · exact fun n hn => List.mem_cons_of_mem _ hn
      · intro hdepth n hn
        rcases List.mem_cons.1 hn with rfl | hn
        · exact hrest.grows _ (hmet hdepth)
        · exact hothers hdepth n hn

/-- Every visit is a walk, and unless the depth is used up it meets its
method. -/
theorem walk_visit (g : CostGraph) (minCost depth : Nat) (s : Shown)
    (seen : List NodeId) :
    Walk g minCost s.level (s.level + depth) (· = s.id) seen
      (visit g minCost depth s seen).1
        (visit g minCost depth s seen).2 ∧
      (0 < depth → s.id ∈ (visit g minCost depth s seen).2) := by
  induction depth generalizing s seen with
  | zero =>
      refine ⟨.idle (fun n hn => hn) fun n hn hnew => absurd hn hnew, ?_⟩
      exact fun hdepth => absurd hdepth (Nat.lt_irrefl 0)
  | succ depth ih =>
      rw [visit]
      by_cases hseen : s.id ∈ seen
      · rw [if_pos hseen]
        exact ⟨.idle (fun n hn => hn) fun n hn hnew => absurd hn hnew,
          fun _ => hseen⟩
      · by_cases hreaches : (g.node s.id).reaches minCost = true
        · rw [if_neg hseen, if_pos hreaches]
          obtain ⟨hwalk, hopened⟩ :=
            walk_visitCalls ih (s.level + 1) (g.node s.id).calls (s.id :: seen)
          have hlimit : s.level + 1 + depth = s.level + (depth + 1) := by omega
          rw [hlimit] at hwalk
          refine ⟨.cons (by omega) hseen hreaches hwalk ?_, ?_⟩
          · exact fun habove => hopened (by omega)
          · exact fun _ => hwalk.grows _ List.mem_cons_self
        · rw [if_neg hseen, if_neg hreaches]
          refine ⟨.idle (fun n hn => List.mem_cons_of_mem _ hn) ?_, fun _ =>
            List.mem_cons_self⟩
          intro n hn hnew
          rcases List.mem_cons.1 hn with rfl | hold
          · exact hreaches
          · exact absurd hold hnew

/-! ## Whole trees -/

/-- A tree is a walk from its root, with nothing met before. -/
theorem walk_shown (g : CostGraph) (minCost depth : Nat) (root : NodeId) :
    ∃ met,
      Walk g minCost 0 depth (· = root) [] (shown g minCost depth root) met ∧
      (0 < depth → root ∈ met) := by
  have h :=
    walk_visit g minCost depth { level := 0, line := none, id := root } []
  rw [Nat.zero_add] at h
  exact ⟨_, h⟩

/-- Calls that lead from the root to a method, as the methods on the way. -/
inductive CallPath (g : CostGraph) (root : NodeId) : List NodeId → NodeId → Prop
  | root : CallPath g root [root] root
  | call {path : List NodeId} {caller callee : NodeId}
      (h : CallPath g root path caller)
      (hcall : callee ∈ g.callees caller) : CallPath g root
        (path ++ [callee]) callee

theorem CallPath.reaches {root m : NodeId} {path : List NodeId}
    (h : CallPath g root path m) :
    g.Reaches root m := by
  induction h with
  | root => exact .refl
  | call _ hcall ih => exact ih.tail hcall

/-- A path ends with the method that it leads to. -/
theorem CallPath.exists_append {root m : NodeId} {path : List NodeId}
    (h : CallPath g root path m) :
    ∃ before, path = before ++ [m] := by
  cases h with
  | root => exact ⟨[], rfl⟩
  | call h hcall => exact ⟨_, rfl⟩

theorem CallPath.length_pos {root m : NodeId} {path : List NodeId}
    (h : CallPath g root path m) :
    0 < path.length := by
  obtain ⟨before, rfl⟩ := h.exists_append
  simp

theorem exists_callPath {root m : NodeId} (h : g.Reaches root m) :
    ∃ path, CallPath g root path m := by
  induction h with
  | refl => exact ⟨[root], .root⟩
  | tail _ hcall ih =>
      obtain ⟨path, hpath⟩ := ih
      exact ⟨_, hpath.call hcall⟩

variable {depth : Nat} {root : NodeId}

theorem nodup_methods (g : CostGraph) (minCost depth : Nat) (root : NodeId) :
    (methods g minCost depth root).Nodup := by
  obtain ⟨met, h, _⟩ := walk_shown g minCost depth root
  exact h.once

theorem level_lt {s : Shown} (hs : s ∈ shown g minCost depth root) :
    s.level < depth := by
  obtain ⟨met, h, _⟩ := walk_shown g minCost depth root
  exact (h.inside s hs).2

theorem reaches_of_shown {s : Shown} (hs : s ∈ shown g minCost depth root) :
    (g.node s.id).reaches minCost = true := by
  obtain ⟨met, h, _⟩ := walk_shown g minCost depth root
  exact h.costly s hs

/-- A line is that of the root, or a method with a line one level up calls its
method. -/
theorem called_of_shown {s : Shown} (hs : s ∈ shown g minCost depth root) :
    (s.level = 0 ∧ s.id = root) ∨ ∃ caller ∈ shown g minCost depth root,
      caller.level + 1 = s.level ∧ s.id ∈ g.callees caller.id := by
  obtain ⟨met, h, _⟩ := walk_shown g minCost depth root
  exact h.called s hs

theorem root_mem_methods (hdepth : 0 < depth)
    (hreaches : (g.node root).reaches minCost = true) :
    root ∈ methods g minCost depth root := by
  obtain ⟨met, h, hmet⟩ := walk_shown g minCost depth root
  exact h.complete root (hmet hdepth) List.not_mem_nil hreaches

/-- What is called by a method with a line above the deepest level has a line,
if it is worth one. -/
theorem callee_mem_methods {s : Shown} (hs : s ∈ shown g minCost depth root)
    (habove : s.level + 1 < depth) {m : NodeId} (hcall : m ∈ g.callees s.id)
    (hreaches : (g.node m).reaches minCost = true) :
    m ∈ methods g minCost depth root := by
  obtain ⟨met, h, _⟩ := walk_shown g minCost depth root
  exact h.complete m (h.opened s hs habove m hcall) List.not_mem_nil hreaches

/-- A line at a level is that of a method so many calls away from the root. The
induction is on the level: a caller's line stands one level up. -/
theorem exists_path_of_shown {s : Shown} (hs : s ∈ shown g minCost depth root) :
    ∃ path, CallPath g root path s.id ∧ path.length = s.level + 1 := by
  induction hlevel : s.level generalizing s with
  | zero =>
      rcases called_of_shown hs with ⟨_, hroot⟩ | ⟨caller, _, hup, _⟩
      · exact ⟨[root], hroot ▸ .root, rfl⟩
      · omega
  | succ level ih =>
      rcases called_of_shown hs with ⟨hzero, _⟩ | ⟨caller, hcaller, hup, hcall⟩
      · omega
      · obtain ⟨path, hpath, hlength⟩ := ih hcaller (by omega)
        exact ⟨_, hpath.call hcall, by simp [hlength]⟩

/-- The methods with a line, in terms of the lines above them. -/
theorem mem_methods_iff (m : NodeId) :
    m ∈ methods g minCost depth root ↔ (g.node m).reaches minCost = true ∧
      ((m = root ∧ 0 < depth) ∨ ∃ s ∈ shown g minCost depth root,
        s.level + 1 < depth ∧ m ∈ g.callees s.id) := by
  constructor
  · intro hm
    obtain ⟨s, hs, rfl⟩ := List.mem_map.1 hm
    have hlevel := level_lt hs
    refine ⟨reaches_of_shown hs, ?_⟩
    rcases called_of_shown hs with ⟨hzero, hroot⟩ |
      ⟨caller, hcaller, hup, hcall⟩
    · exact .inl ⟨hroot, by omega⟩
    · exact .inr ⟨caller, hcaller, by omega, hcall⟩
  · rintro ⟨hreaches, ⟨rfl, hdepth⟩ | ⟨s, hs, habove, hcall⟩⟩
    · exact root_mem_methods hdepth hreaches
    · exact callee_mem_methods hs habove hcall hreaches

end CallTree

end TestCost
