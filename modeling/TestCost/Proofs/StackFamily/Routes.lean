import TestCost.Proofs.StackFamily.Ways

/-!
# Routes are ways

`StackFamily.routes` follows all ways of one length down from a list of
entries and gathers those that spell equal lists. This file says what it
finds: on entries of one depth it is refused exactly when that depth is too
small, and otherwise there is one route for every list that some way spells,
whose bases are the entries that such ways end on.

Values are gathered by `==`. The bases of a route are those of *its* list
only if `==` tells apart all values of the family (`Faithful`); that the
lists have the right length and the bases one depth needs no such condition,
which is why `Gathers` asks for it in its last part alone.

## Main results

* `gathers_routes` — on entries of sufficient depth `routes` answers a list
  of routes that gathers the ways.
* `routes_underflow` — on entries that are not deep enough it is refused.
-/

namespace TestCost

namespace StackFamily

variable {κ α : Type}

/-- The value stands on some entry. -/
def Holds (s : StackFamily κ α) (v : α) : Prop :=
  ∃ id e, s.entry? id = some e ∧ e.value = v

/-- Values of the family that compare equal are equal. -/
def Faithful [BEq α] (s : StackFamily κ α) : Prop :=
  ∀ v w, s.Holds v → s.Holds w → (v == w) = true → v = w

/-- Some route has this list and this base. -/
def Leads (found : List (StackRoute α)) (values : List α) (base : EntryId) :
    Prop :=
  ∃ r ∈ found, r.values = values ∧ base ∈ r.bases

/-- A route of `count` values that ends on entries of depth `d`. -/
structure Fits (s : StackFamily κ α) (count : Nat) (d : Int)
    (r : StackRoute α) : Prop where
  length_eq : r.values.length = count
  holds : ∀ v ∈ r.values, s.Holds v
  bases_ne_nil : r.bases ≠ []
  level : s.Level r.bases d

/-- The routes are those of all ways of `count` values down from `ids`. -/
structure Gathers [BEq α] (s : StackFamily κ α) (count : Nat) (d : Int)
    (ids : List EntryId) (found : List (StackRoute α)) : Prop where
  fits : ∀ r ∈ found, s.Fits count d r
  ne_nil : ids ≠ [] → found ≠ []
  nodup : (found.map StackRoute.values).Nodup
  leads_iff : s.Faithful → ∀ values base,
    Leads found values base ↔
      ∃ id ∈ ids, values.length = count ∧ s.Way id values base

/-! ## Unions of entries -/

theorem mem_union (left right : List EntryId) (id : EntryId) :
    id ∈ union left right ↔ id ∈ left ∨ id ∈ right := by
  induction right generalizing left with
  | nil => simp [union]
  | cons next right ih =>
      have hstep : union left (next :: right) = union
          (if left.contains next then left else left ++ [next]) right := rfl
      rw [hstep, ih]
      by_cases hnext : next ∈ left
      · simp only [List.contains_iff_mem, hnext, if_true, List.mem_cons]
        constructor
        · rintro (h | h)
          · exact .inl h
          · exact .inr (.inr h)
        · rintro (h | rfl | h)
          · exact .inl h
          · exact .inl hnext
          · exact .inr h
      · simp [hnext, or_assoc]

theorem union_ne_nil_left {left : List EntryId} (right : List EntryId)
    (h : left ≠ []) :
    union left right ≠ [] := by
  obtain ⟨id, hid⟩ := List.exists_mem_of_ne_nil _ h
  exact List.ne_nil_of_mem ((mem_union left right id).2 (.inl hid))

theorem union_ne_nil_right (left : List EntryId) {right : List EntryId}
    (h : right ≠ []) :
    union left right ≠ [] := by
  obtain ⟨id, hid⟩ := List.exists_mem_of_ne_nil _ h
  exact List.ne_nil_of_mem ((mem_union left right id).2 (.inr hid))

theorem Level.union {s : StackFamily κ α} {left right : List EntryId} {d : Int}
    (hleft : s.Level left d) (hright : s.Level right d) :
    s.Level (StackFamily.union left right) d := by
  intro id hid
  rcases (mem_union left right id).1 hid with h | h
  · exact hleft id h
  · exact hright id h

/-! ## Adding one route -/

section AddRoute

variable [BEq α]

theorem forall_addRoute {P : StackRoute α → Prop} {found : List (StackRoute α)}
    {route : StackRoute α} (hfound : ∀ r ∈ found, P r) (hroute : P route)
    (hmerge : ∀ r, P r → P { r with bases := union r.bases route.bases }) :
    ∀ r ∈ addRoute found route, P r := by
  induction found with
  | nil =>
      intro r hr
      rw [List.mem_singleton.1 hr]
      exact hroute
  | cons known rest ih =>
      have hrest : ∀ r ∈ rest, P r :=
        fun r hr => hfound r (List.mem_cons_of_mem _ hr)
      have hknown : P known := hfound known List.mem_cons_self
      intro r hr
      rw [addRoute] at hr
      split at hr
      · rcases List.mem_cons.1 hr with rfl | hr
        · exact hmerge known hknown
        · exact hrest r hr
      · rcases List.mem_cons.1 hr with rfl | hr
        · exact hknown
        · exact ih hrest r hr

theorem forall_foldl_addRoute {P : StackRoute α → Prop} (hmerge : ∀ r route,
      P r → P route → P { r with bases := union r.bases route.bases })
    (extra found : List (StackRoute α)) (hextra : ∀ r ∈ extra, P r)
    (hfound : ∀ r ∈ found, P r) :
    ∀ r ∈ extra.foldl addRoute found, P r := by
  induction extra generalizing found with
  | nil => exact hfound
  | cons route extra ih =>
      have hroute := hextra route List.mem_cons_self
      exact ih _ (fun r hr => hextra r (List.mem_cons_of_mem _ hr))
        (forall_addRoute hfound hroute fun r hr => hmerge r route hr hroute)

theorem addRoute_ne_nil (found : List (StackRoute α)) (route : StackRoute α) :
    addRoute found route ≠ [] := by
  cases found with
  | nil => simp [addRoute]
  | cons known rest =>
      rw [addRoute]
      split <;> simp

/-- A list that is new comes last; one that is known adds no list. -/
theorem map_values_addRoute [ReflBEq α] (found : List (StackRoute α))
    (route : StackRoute α) :
    (addRoute found route).map StackRoute.values = found.map StackRoute.values ∨
      route.values ∉ found.map StackRoute.values ∧
      (addRoute found route).map StackRoute.values =
        found.map StackRoute.values ++ [route.values] := by
  induction found with
  | nil => exact .inr ⟨by simp, rfl⟩
  | cons known rest ih =>
      rw [addRoute]
      split
      · exact .inl rfl
      · next hdiffer =>
        have hne : route.values ≠ known.values := by
          intro heq
          rw [heq] at hdiffer
          exact hdiffer (by simp)
        rcases ih with hsame | ⟨hnew, hlast⟩
        · exact .inl (by simp [hsame])
        · exact .inr ⟨by simpa [hne] using hnew, by simp [hlast]⟩

theorem nodup_addRoute [ReflBEq α] {found : List (StackRoute α)}
    (route : StackRoute α) (h : (found.map StackRoute.values).Nodup) :
    ((addRoute found route).map StackRoute.values).Nodup := by
  rcases map_values_addRoute found route with hsame | ⟨hnew, hlast⟩
  · rwa [hsame]
  · rw [hlast, List.nodup_append]
    refine ⟨h, by simp, ?_⟩
    intro a ha b hb
    rw [List.mem_singleton.1 hb]
    exact fun heq => hnew (heq ▸ ha)

theorem leads_addRoute [ReflBEq α] {found : List (StackRoute α)}
    {route : StackRoute α} (heq : ∀ r ∈ found, (r.values == route.values) =
      true → r.values = route.values) (values : List α) (base : EntryId) :
    Leads (addRoute found route) values base ↔
      Leads found values base ∨ route.values = values ∧ base ∈ route.bases := by
  induction found with
  | nil => simp [addRoute, Leads]
  | cons known rest ih =>
      have ihRest := ih fun r hr => heq r (List.mem_cons_of_mem _ hr)
      simp only [Leads] at ihRest
      rw [addRoute]
      split
      · next hsame =>
        have hvalues := heq known List.mem_cons_self hsame
        simp only [Leads, List.mem_cons, exists_eq_or_imp, mem_union, hvalues]
        constructor
        · rintro (⟨h, hknown | hnew⟩ | h)
          · exact .inl (.inl ⟨h, hknown⟩)
          · exact .inr ⟨h, hnew⟩
          · exact .inl (.inr h)
        · rintro ((⟨h, hknown⟩ | h) | ⟨h, hnew⟩)
          · exact .inl ⟨h, .inl hknown⟩
          · exact .inr h
          · exact .inl ⟨h, .inr hnew⟩
      · simp only [Leads, List.mem_cons, exists_eq_or_imp, ihRest, or_assoc]

/-- Adding several routes, when all lists are of a kind that `==` tells
apart. -/
theorem leads_foldl_addRoute [ReflBEq α]
    {P : List α → Prop} (heq : ∀ v w, P v → P w → (v == w) = true → v = w)
    (extra found : List (StackRoute α)) (hextra : ∀ r ∈ extra, P r.values)
    (hfound : ∀ r ∈ found, P r.values) (values : List α) (base : EntryId) :
    Leads (extra.foldl addRoute found) values base ↔
      Leads found values base ∨ Leads extra values base := by
  induction extra generalizing found with
  | nil => simp [Leads]
  | cons route extra ih =>
      have hroute : P route.values := hextra route List.mem_cons_self
      have hstep : ∀ r ∈ addRoute found route, P r.values :=
        forall_addRoute hfound hroute fun _ h => h
      rw [List.foldl_cons,
        ih _ (fun r hr => hextra r (List.mem_cons_of_mem _ hr)) hstep,
        leads_addRoute fun r hr => heq _ _ (hfound r hr) hroute]
      simp only [Leads, List.mem_cons, exists_eq_or_imp, or_assoc]

theorem nodup_foldl_addRoute [ReflBEq α] (extra : List (StackRoute α))
    {found : List (StackRoute α)} (h : (found.map StackRoute.values).Nodup) :
    ((extra.foldl addRoute found).map StackRoute.values).Nodup := by
  induction extra generalizing found with
  | nil => exact h
  | cons route extra ih => exact ih (nodup_addRoute route h)

theorem foldl_addRoute_ne_nil {extra found : List (StackRoute α)}
    (h : extra ≠ [] ∨ found ≠ []) :
    extra.foldl addRoute found ≠ [] := by
  induction extra generalizing found with
  | nil =>
      rcases h with h | h
      · exact absurd rfl h
      · exact h
  | cons route extra ih => exact ih (.inr (addRoute_ne_nil found route))

end AddRoute

/-! ## Routes of fitting length -/

section Fits

variable {s : StackFamily κ α} {count : Nat} {d : Int}

theorem Fits.merge {r route : StackRoute α} (hr : s.Fits count d r)
    (hroute : s.Fits count d route) :
    s.Fits count d { r with bases := union r.bases route.bases } where
  length_eq := hr.length_eq
  holds := hr.holds
  bases_ne_nil := union_ne_nil_left _ hr.bases_ne_nil
  level := hr.level.union hroute.level

/-- One value more on top of a route. -/
def above (v : α) (r : StackRoute α) : StackRoute α :=
  { r with values := r.values ++ [v] }

theorem Fits.above {r : StackRoute α} (hr : s.Fits count d r) {v : α}
    (hv : s.Holds v) :
    s.Fits (count + 1) d (StackFamily.above v r) where
  length_eq := by simp [StackFamily.above, hr.length_eq]
  holds := by
    intro w hw
    rcases List.mem_append.1 hw with h | h
    · exact hr.holds w h
    · rwa [List.mem_singleton.1 h]
  bases_ne_nil := hr.bases_ne_nil
  level := hr.level

/-- The routes of the entries below one, with its value on top, are the
routes of that entry. -/
theorem leads_above {id : EntryId} {e : StackEntry α}
    (he : s.entry? id = some e) {lower : List (StackRoute α)}
    (hlower : ∀ values base, Leads lower values base ↔
      ∃ next ∈ e.below, values.length = count ∧ s.Way next values base)
    (values : List α) (base : EntryId) :
    Leads (lower.map (above e.value)) values base ↔
      values.length = count + 1 ∧ s.Way id values base := by
  constructor
  · rintro ⟨r, hr, rfl, hbase⟩
    obtain ⟨lowerRoute, hmem, rfl⟩ := List.mem_map.1 hr
    obtain ⟨next, hnext, hlength, way⟩ :=
      (hlower _ base).1 ⟨lowerRoute, hmem, rfl, hbase⟩
    exact ⟨by simp [above, hlength], .down e he hnext way⟩
  · rintro ⟨hlength, way⟩
    cases way with
    | stay => simp at hlength
    | @down _ next _ values e' he' hnext way =>
        obtain rfl : e' = e := Option.some.inj (he'.symm.trans he)
        have hcount : values.length = count := by simpa using hlength
        obtain ⟨r, hr, rfl, hbase⟩ :=
          (hlower values base).2 ⟨next, hnext, hcount, way⟩
        exact ⟨above e'.value r, List.mem_map_of_mem hr, rfl, hbase⟩

/-- On lists of values of a faithful family `==` is equality. -/
theorem Faithful.eq_of_beq [BEq α] (hf : s.Faithful)
    (v w : List α) (hv : ∀ a ∈ v, s.Holds a) (hw : ∀ a ∈ w, s.Holds a)
    (heq : (v == w) = true) : v = w := by
  induction v generalizing w with
  | nil =>
      cases w with
      | nil => rfl
      | cons b w => simp at heq
  | cons a v ih =>
      cases w with
      | nil => simp at heq
      | cons b w =>
          rw [List.cons_beq_cons, Bool.and_eq_true] at heq
          have hhead :=
            hf a b (hv a List.mem_cons_self) (hw b List.mem_cons_self) heq.1
          have htail := ih w (fun x hx => hv x (List.mem_cons_of_mem _ hx))
            (fun x hx => hw x (List.mem_cons_of_mem _ hx)) heq.2
          rw [hhead, htail]

end Fits

/-! ## Gathering the routes of several entries -/

section Gather

variable [BEq α]

/-- The routes found so far, with those of one more entry. -/
def extend (s : StackFamily κ α) (key : κ) (count : Nat)
    (found : List (StackRoute α)) (id : EntryId) :
    Except (StackFault κ) (List (StackRoute α)) :=
  match s.entry? id with
  | none => .error (.underflow key (count + 1))
  | some e =>
    if e.depth < requiredDepth count then .error (.underflow key (count + 1))
    else (s.routes key count e.below).map fun lower =>
      (lower.map (above e.value)).foldl addRoute found

theorem routes_zero (s : StackFamily κ α) (key : κ) (ids : List EntryId) :
    s.routes key 0 ids = .ok [{ values := [], bases := ids }] := by
  rw [routes]

theorem routes_succ (s : StackFamily κ α) (key : κ) (count : Nat)
    (ids : List EntryId) :
    s.routes key (count + 1) ids = ids.foldlM (s.extend key count) [] := by
  rw [routes]
  rfl

/-- Gathering the routes of one more entry, given those of the entries
below it. -/
theorem Gathers.extend [ReflBEq α] {s : StackFamily κ α}
    {id : EntryId} {e : StackEntry α} (he : s.entry? id = some e) {count : Nat}
    {d : Int} {ids : List EntryId} {found lower : List (StackRoute α)}
    (hbelow : e.below ≠ []) (hlower : s.Gathers count d e.below lower)
    (hfound : s.Gathers (count + 1) d ids found) :
    s.Gathers (count + 1) d (ids ++ [id])
      ((lower.map (above e.value)).foldl addRoute found) := by
  have hheld : s.Holds e.value := ⟨id, e, he, rfl⟩
  have habove : ∀ r ∈ lower.map (above e.value), s.Fits (count + 1) d r := by
    intro r hr
    obtain ⟨lowerRoute, hmem, rfl⟩ := List.mem_map.1 hr
    exact (hlower.fits lowerRoute hmem).above hheld
  refine
    { fits := forall_foldl_addRoute (fun _ _ hr hroute => hr.merge
      hroute) _ _ habove hfound.fits
      ne_nil := fun _ => foldl_addRoute_ne_nil (.inl ?_)
      nodup := nodup_foldl_addRoute _ hfound.nodup
      leads_iff := ?_ }
  · simpa using hlower.ne_nil hbelow
  · intro hf values base
    rw [leads_foldl_addRoute (P := fun v =>
      ∀ a ∈ v, s.Holds a) (fun v w hv hw => hf.eq_of_beq v w hv hw) _ _
      (fun r hr => (habove r hr).holds) (fun r hr => (hfound.fits r hr).holds),
      hfound.leads_iff hf, leads_above he (hlower.leads_iff hf)]
    simp only [List.mem_append, List.mem_singleton, or_and_right, exists_or,
      exists_eq_left]

/-- What is asked of each entry so that `extend` can follow it down. -/
private theorem gathers_foldlM [ReflBEq α] {s : StackFamily κ α}
    {key : κ} {count : Nat} {d : Int} (rest : List EntryId)
    (hrest : ∀ id ∈ rest, ∃ e lower, s.entry? id = some e ∧
      requiredDepth count ≤ e.depth ∧ e.below ≠ [] ∧
      s.routes key count e.below = .ok lower ∧ s.Gathers count d e.below lower)
    (ids : List EntryId) (found : List (StackRoute α))
    (hfound : s.Gathers (count + 1) d ids found) :
    ∃ all, rest.foldlM (s.extend key count) found = .ok all ∧
      s.Gathers (count + 1) d (ids ++ rest) all := by
  induction rest generalizing ids found with
  | nil => exact ⟨found, rfl, by simpa using hfound⟩
  | cons id rest ih =>
      obtain ⟨e, lower, he, hdepth, hbelow, hroutes, hlower⟩ :=
        hrest id List.mem_cons_self
      have hstep : s.extend key count found id =
          .ok ((lower.map (above e.value)).foldl addRoute found) := by
        simp only [StackFamily.extend, he, hroutes,
          Int.not_lt.2 hdepth, if_false]
        rfl
      obtain ⟨all, hall, hgathers⟩ :=
        ih (fun i hi => hrest i (List.mem_cons_of_mem _ hi)) (ids ++ [id]) _
        (hlower.extend he hbelow hfound)
      refine ⟨all, ?_, by simpa using hgathers⟩
      rw [List.foldlM_cons, hstep]
      exact hall

/-- **Routes on entries that are deep enough.** The induction is on the
number of values asked for; the entries below a list of one depth are again
of one depth. -/
theorem gathers_routes [ReflBEq α] {s : StackFamily κ α} (hs : s.Layered)
    (key : κ) (count : Nat) (ids : List EntryId) (d : Int) (hne : ids ≠ [])
    (hl : s.Level ids d) (hcount : (count : Int) ≤ d + 1) :
    ∃ found, s.routes key count ids = .ok found ∧
      s.Gathers count (d - count) ids found := by
  induction count generalizing ids d with
  | zero =>
      refine ⟨_, routes_zero s key ids, ?_, by simp, by simp, ?_⟩
      · intro r hr
        rw [List.mem_singleton.1 hr]
        exact ⟨rfl, by simp, hne, by simpa using hl⟩
      · intro _ values base
        constructor
        · rintro ⟨r, hr, rfl, hbase⟩
          rw [List.mem_singleton.1 hr] at hbase ⊢
          exact ⟨base, hbase, rfl, .stay base⟩
        · rintro ⟨id, hid, hlength, way⟩
          obtain rfl := List.length_eq_zero_iff.1 hlength
          generalize hnil : ([] : List α) = values at way
          cases way with
          | stay => exact ⟨_, List.mem_singleton_self _, rfl, hid⟩
          | down e => simp at hnil
  | succ count ih =>
      have hrest : ∀ id ∈ ids, ∃ e lower, s.entry? id = some e ∧
          requiredDepth count ≤ e.depth ∧ e.below ≠ [] ∧
          s.routes key count e.below = .ok lower ∧
          s.Gathers count (d - (count + 1 : Nat)) e.below lower := by
        intro id hid
        obtain ⟨hle, hdepth⟩ := hl id hid
        cases he : s.entry? id with
        | none =>
            rw [eq_bottom_of_entry_none hle he, depth_bottom] at hdepth
            omega
        | some e =>
            have hedepth : e.depth = d := by rw [← depth_of_entry he, hdepth]
            have hrequired := requiredDepth_le count
            obtain ⟨lower, hroutes, hlower⟩ := ih e.below (d - 1)
              (hs.below_ne_nil id e he) (hedepth ▸ hs.level_below he) (by omega)
            refine ⟨e, lower, rfl, by omega, hs.below_ne_nil id e he,
              hroutes, ?_⟩
            rwa [show d - (count + 1 : Nat) = d - 1 - count by omega]
      have hstart : s.Gathers (count + 1) (d - (count + 1 : Nat)) [] [] :=
        ⟨by simp, by simp, by simp, by simp [Leads]⟩
      obtain ⟨all, hall, hgathers⟩ := gathers_foldlM ids hrest [] [] hstart
      exact ⟨all, by rw [routes_succ, hall], by simpa using hgathers⟩

/-- **Routes on entries that are not deep enough.** The first entry already
leads to the refusal. -/
theorem routes_underflow {s : StackFamily κ α} (hs : s.Layered)
    (key : κ) (count : Nat) (ids : List EntryId) (d : Int) (hne : ids ≠ [])
    (hl : s.Level ids d) (hcount : d + 1 < count) :
    ∃ requested,
      s.routes key count ids = .error (.underflow key requested) := by
  induction count generalizing ids d with
  | zero =>
      obtain ⟨id, hid⟩ := List.exists_mem_of_ne_nil _ hne
      have hneg := hs.neg_one_le_depth id (hl id hid).1
      have hdepth := (hl id hid).2
      omega
  | succ count ih =>
      obtain ⟨id, rest, rfl⟩ := List.exists_cons_of_ne_nil hne
      obtain ⟨hle, hdepth⟩ := hl id List.mem_cons_self
      have hfirst : ∃ requested,
          s.extend key count [] id = .error (.underflow key requested) := by
        cases he : s.entry? id with
        | none => exact ⟨count + 1, by simp only [StackFamily.extend, he]⟩
        | some e =>
            by_cases hrequired : e.depth < requiredDepth count
            · exact ⟨count + 1,
                by simp only [StackFamily.extend, he, hrequired, if_true]⟩
            · have hedepth : e.depth = d := by rw [← depth_of_entry he, hdepth]
              obtain ⟨requested, hroutes⟩ := ih e.below (d - 1)
                (hs.below_ne_nil id e he) (hedepth ▸ hs.level_below he)
                (by omega)
              refine ⟨requested, ?_⟩
              simp only [StackFamily.extend, he, hroutes, hrequired, if_false]
              rfl
      obtain ⟨requested, hextend⟩ := hfirst
      refine ⟨requested, ?_⟩
      rw [routes_succ, List.foldlM_cons, hextend]
      rfl

end Gather

end StackFamily

end TestCost
