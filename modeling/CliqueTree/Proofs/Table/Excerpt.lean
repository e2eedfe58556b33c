import CliqueTree.JunctionTree.Layout
import CliqueTree.Policy
import CliqueTree.Proofs.Excerpt
import CliqueTree.Proofs.Table.Cover
import CliqueTree.Proofs.Table.Runs

/-!
# Excerpts of rows

Where no entry leads from the ids that are kept to the others or back, the rows of the ids that are kept are rows of
their own under the new numbers (`Rows.Excerpt`). Links keep it so, and an edge list and its excerpt give rows that go
together. A walk that starts at an id that is kept meets such ids only, and it is the walk through the excerpt
(`Excerpt.walk_own`); other walks leave no trace there. So the forest of walks through the excerpt is what is left of
the forest (`Excerpt.forest_eq`), and when the excerpt is connected every policy orders it as it orders the whole
(`Excerpt.resolve_eq_ok`).
-/

set_option autoImplicit false

namespace CliqueTree
open Relation (ReflTransGen)

/-- Either both ends of the edge are kept, or none of them. -/
def Unmixed (part : Nat → Option Nat) (e : Edge) : Prop := (part e.1).isSome = (part e.2).isSome

theorem Unmixed.eq_none {part : Nat → Option Nat} {e : Edge} (h : Unmixed part e) (out : both part e = none) :
    part e.1 = none ∧ part e.2 = none := by
  obtain ⟨a, b⟩ := e
  unfold Unmixed at h
  unfold both at out
  cases first : part a <;> cases second : part b <;> simp_all

namespace Rows

/-- The rows `t` are those that the rows `r` have at the ids that are kept. -/
structure Excerpt (part : Nat → Option Nat) (r t : Rows) : Prop where
  renumbers : Renumbers part
  inside : ∀ {i j}, part i = some j → i < r.size ∧ j < t.size
  get : ∀ {i j}, part i = some j → t.get j = (r.get i).filterMap part
  unmixed : ∀ i, ∀ x ∈ r.get i, Unmixed part (i, x)

variable {part : Nat → Option Nat} {r t : Rows} {i j u v w x y n m : Nat}

namespace Excerpt

theorem mem_iff (h : Excerpt part r t) (hi : part i = some j) (hx : part x = some y) : y ∈ t.get j ↔ x ∈ r.get i := by
  rw [h.get hi]
  exact h.renumbers.mem_filterMap hx

/-- What the row of an id that is kept names is kept. -/
theorem isSome_of_mem (h : Excerpt part r t) (hi : part i = some j) (hx : x ∈ r.get i) : ∃ y, part x = some y := by
  have both : Unmixed part (i, x) := h.unmixed i x hx
  rw [Unmixed, hi] at both
  exact Option.isSome_iff_exists.1 both.symm

theorem eq_none_of_mem (h : Excerpt part r t) (hi : part i = none) (hx : x ∈ r.get i) : part x = none := by
  have both : Unmixed part (i, x) := h.unmixed i x hx
  rw [Unmixed, hi] at both
  simpa using both.symm

theorem add_own (h : Excerpt part r t) (hv : part v = some w) (hx : part x = some y) :
    Excerpt part (r.add v x) (t.add w y) where
  renumbers := h.renumbers
  inside hi := by
    rw [size_add, size_add]
    exact h.inside hi
  get {i j} hi := by
    obtain ⟨small, small'⟩ := h.inside hi
    have same : w = j ↔ v = i := by
      constructor
      · rintro rfl
        exact h.renumbers.inj hv hi
      · rintro rfl
        exact Option.some.inj (hv.symm.trans hi)
    rw [get_add, get_add, h.get hi]
    by_cases here : v = i
    · rw [if_pos ⟨same.2 here, small'⟩, if_pos ⟨here, small⟩, List.filterMap_append, List.filterMap_cons_some hx]
      rfl
    · rw [if_neg fun there => here (same.1 there.1), if_neg fun there => here there.1]
  unmixed i z hz := by
    rcases (mem_get_add (h.inside hv).1).1 hz with old | ⟨rfl, rfl⟩
    · exact h.unmixed i z old
    · simp [Unmixed, hv, hx]

theorem add_other (h : Excerpt part r t) (hv : part v = none) (hx : part x = none) : Excerpt part (r.add v x) t where
  renumbers := h.renumbers
  inside hi := by
    rw [size_add]
    exact h.inside hi
  get {i j} hi := by
    rw [get_add, if_neg, h.get hi]
    rintro ⟨rfl, _⟩
    exact nomatch hv.symm.trans hi
  unmixed i z hz := by
    rw [get_add] at hz
    split at hz
    next here =>
      rcases List.mem_append.1 hz with old | new
      · exact h.unmixed i z old
      · simp [Unmixed, ← here.1, List.mem_singleton.1 new, hv, hx]
    · exact h.unmixed i z hz

theorem link_own (h : Excerpt part r t) (hu : part u = some w) (hv : part v = some y) :
    Excerpt part (NeighbourLinks.link r u v) (NeighbourLinks.link t w y) := (h.add_own hu hv).add_own hv hu

theorem link_other (h : Excerpt part r t) (hu : part u = none) (hv : part v = none) :
    Excerpt part (NeighbourLinks.link r u v) t := (h.add_other hu hv).add_other hv hu

theorem blank (renumbers : Renumbers part) (inside : ∀ {i j}, part i = some j → i < n ∧ j < m) :
    Excerpt part (blank n) (blank m) where
  renumbers := renumbers
  inside hi := by
    rw [size_blank, size_blank]
    exact inside hi
  get hi := by simp
  unmixed i x hx := by simp at hx

end Excerpt

section Edges
variable {es : List Edge}

/-- An edge list and its excerpt make rows of neighbours that go together. -/
theorem excerpt_adjacencyOf (renumbers : Renumbers part) (inside : ∀ {i j}, part i = some j → i < n ∧ j < m)
    (unmixed : ∀ e ∈ es, Unmixed part e) :
    Excerpt part (adjacencyOf n es) (adjacencyOf m (es.filterMap (both part))) := by
  refine foldl_filterMap (R := Excerpt part) es (fun r t e _ d hd h => ?_) (fun r t e he out h => ?_)
    (.blank renumbers inside)
  · obtain ⟨first, second⟩ := both_eq_some_iff.1 hd
    exact h.link_own first second
  · obtain ⟨first, second⟩ := (unmixed e he).eq_none out
    exact h.link_other first second

theorem excerpt_parentsOf (renumbers : Renumbers part) (inside : ∀ {i j}, part i = some j → i < n ∧ j < m)
    (unmixed : ∀ e ∈ es, Unmixed part e) :
    Excerpt part (parentsOf n es) (parentsOf m (es.filterMap (both part))) := by
  refine foldl_filterMap (R := Excerpt part) es (fun r t e _ d hd h => ?_) (fun r t e he out h => ?_)
    (.blank renumbers inside)
  · obtain ⟨first, second⟩ := both_eq_some_iff.1 hd
    exact h.add_own second first
  · obtain ⟨first, second⟩ := (unmixed e he).eq_none out
    exact h.add_other second first

end Edges

/-! ### Walks -/

section Walks
variable {f : Frontier} {met : List Nat} {waiting visits : List Visit}

/-- What is left of a visit. -/
def visitOf (part : Nat → Option Nat) (visit : Visit) : Option Visit :=
  (part visit.vertex).map fun j => ⟨j, visit.parent.bind part⟩

theorem map_vertex_filterMap (part : Nat → Option Nat) (visits : List Visit) :
    (visits.filterMap (visitOf part)).map (·.vertex) = (visits.map (·.vertex)).filterMap part := by
  rw [List.map_filterMap, List.filterMap_map]
  refine congrArg (List.filterMap · visits) (funext fun visit => ?_)
  cases kept : part visit.vertex <;> simp [visitOf, kept]

theorem stepsOf_filterMap (part : Nat → Option Nat) (visits : List Visit) :
    stepsOf (visits.filterMap (visitOf part)) = (stepsOf visits).filterMap (both part) := by
  rw [stepsOf, stepsOf, List.filterMap_filterMap, List.filterMap_filterMap]
  refine congrArg (List.filterMap · visits) (funext fun visit => ?_)
  obtain ⟨v, parent⟩ := visit
  cases kept : part v with
  | none => cases parent <;> simp [visitOf, both, kept]
  | some j =>
    cases parent with
    | none => simp [visitOf, kept]
    | some p => cases before : part p <;> simp [visitOf, both, kept, before]

theorem filterMap_extend {α β : Type} (g : α → Option β) (f : Frontier) (waiting new : List α) :
    (f.extend waiting new).filterMap g = f.extend (waiting.filterMap g) (new.filterMap g) := by
  cases f <;> simp [Frontier.extend, List.filterMap_reverse]

namespace Excerpt

theorem unmet_eq (h : Excerpt part r t) (hv : part v = some w) (met : List Nat) :
    t.unmet (met.filterMap part) w = (r.unmet met v).filterMap part := by
  rw [unmet, h.get hv, distinct_filterMap (h.renumbers.distinguishes _), unmet]
  apply filter_filterMap_comm
  intro x _ y hy
  rw [decide_eq_decide, not_iff_not]
  exact h.renumbers.mem_filterMap hy

theorem namedBy_eq (h : Excerpt part r t) (hv : part v = some w) (met : List Nat) :
    t.namedBy (met.filterMap part) w = (r.namedBy met v).filterMap (visitOf part) := by
  rw [namedBy, namedBy, h.unmet_eq hv, List.map_filterMap, List.filterMap_map]
  refine congrArg (List.filterMap · _) (funext fun x => ?_)
  cases kept : part x <;> simp [visitOf, kept, hv]

/-- A walk among ids that are kept is a walk through the excerpt. -/
theorem walkFrom_own (h : Excerpt part r t) (f : Frontier) (met : List Nat) (waiting : List Visit)
    (start : ∀ visit ∈ waiting, ∃ j, part visit.vertex = some j) :
    t.walkFrom f (met.filterMap part) (waiting.filterMap (visitOf part)) =
      (r.walkFrom f met waiting).filterMap (visitOf part) := by
  induction met, waiting using walkFrom.induct r f with
  | case1 met => rw [List.filterMap_nil, walkFrom_nil, walkFrom_nil, List.filterMap_nil]
  | case2 met visit waiting new ih =>
    obtain ⟨w, hw⟩ := start visit List.mem_cons_self
    have kept : visitOf part visit = some ⟨w, visit.parent.bind part⟩ := by simp [visitOf, hw]
    rw [List.filterMap_cons_some kept, walkFrom_cons, walkFrom_cons, List.filterMap_cons_some kept, h.unmet_eq hw,
      h.namedBy_eq hw, ← List.filterMap_append, ← filterMap_extend]
    refine congrArg (_ :: ·) (ih fun later hl => ?_)
    rcases List.mem_append.1 ((f.extend_perm _ _).mem_iff.1 hl) with old | named
    · exact start later (List.mem_cons_of_mem visit old)
    · exact h.isSome_of_mem hw (mem_namedBy.1 named).1.1

theorem walk_own (h : Excerpt part r t) (hv : part v = some w) (f : Frontier) (met : List Nat) :
    t.walk f (met.filterMap part) w = (r.walk f met v).filterMap (visitOf part) := by
  have start : ∀ visit ∈ [(⟨v, none⟩ : Visit)], ∃ j, part visit.vertex = some j := by
    intro visit hv'
    rw [List.mem_singleton.1 hv']
    exact ⟨w, hv⟩
  have walk := h.walkFrom_own f (met ++ [v]) [⟨v, none⟩] start
  rw [List.filterMap_append, List.filterMap_cons_some hv] at walk
  rw [Rows.walk, Rows.walk, ← walk]
  simp [visitOf, hv]

theorem walk_kept (h : Excerpt part r t) (hv : part v = some w) (f : Frontier) (met : List Nat) :
    ∀ visit ∈ r.walk f met v, ∃ j, part visit.vertex = some j := by
  refine walkFrom_stays (P := fun v => ∃ j, part v = some j) ?_ f _ _ fun visit hv' => ?_
  · rintro v ⟨j, hj⟩ x hx
    exact h.isSome_of_mem hj hx
  · rw [List.mem_singleton.1 hv']
    exact ⟨w, hv⟩

theorem walk_other (h : Excerpt part r t) (hv : part v = none) (f : Frontier) (met : List Nat) :
    ∀ visit ∈ r.walk f met v, part visit.vertex = none := by
  refine walkFrom_stays (P := fun v => part v = none) (fun v hv x hx => h.eq_none_of_mem hv hx) f _ _
    fun visit hv' => ?_
  rw [List.mem_singleton.1 hv']
  exact hv

theorem plant_own (h : Excerpt part r t) (visits : List Visit) (hv : part v = some w) :
    t.plant (visits.filterMap (visitOf part)) w = (r.plant visits v).filterMap (visitOf part) := by
  simp only [plant, map_vertex_filterMap, h.renumbers.mem_filterMap hv, apply_ite (List.filterMap (visitOf part)),
    List.filterMap_append, h.walk_own hv]

theorem plant_other (h : Excerpt part r t) (visits : List Visit) (hv : part v = none) :
    (r.plant visits v).filterMap (visitOf part) = visits.filterMap (visitOf part) := by
  have none : (r.walk .queue (visits.map (·.vertex)) v).filterMap (visitOf part) = [] := by
    refine List.filterMap_eq_nil_iff.2 fun visit hv' => ?_
    rw [visitOf, h.walk_other hv _ _ visit hv']
    rfl
  simp only [plant]
  split
  · rfl
  · rw [List.filterMap_append, none, List.append_nil]

/-- The forest through the excerpt is what is left of the forest. -/
theorem forest_eq (h : Excerpt part r t) (roots : List Nat) :
    t.forest (roots.filterMap part) = (r.forest roots).filterMap (visitOf part) := by
  refine foldl_filterMap (R := fun visits visits' : List Visit => visits' = visits.filterMap (visitOf part)) roots
    (fun visits _ v _ w hw same => ?_) (fun visits _ v _ out same => ?_) rfl
  · rw [same]
    exact h.plant_own visits hw
  · rw [same]
    exact (h.plant_other visits out).symm

/-- A walk from an id that is kept meets all that is connected to it, if nothing that is kept counts as met. -/
theorem mem_walk_of_connected (h : Excerpt part r t) (hv : part v = some w) {f : Frontier} {met : List Nat}
    (others : ∀ x ∈ met, part x = none) (way : ReflTransGen r.Linked v x) : x ∈ (r.walk f met v).map (·.vertex) := by
  induction way with
  | refl => exact r.mem_walk f met v
  | tail _ step ih =>
    obtain ⟨visit, member, rfl⟩ := List.mem_map.1 ih
    obtain ⟨j, hj⟩ := h.walk_kept hv f met visit member
    obtain ⟨y, hy⟩ := h.isSome_of_mem hj step
    rcases r.walkFrom_closed f (met ++ [v]) [⟨v, none⟩] visit member _ step with before | found
    · rcases List.mem_append.1 before with old | own
      · exact nomatch hy.symm.trans (others _ old)
      · rw [List.mem_singleton.1 own]
        exact r.mem_walk f met v
    · exact found

/-- The ids that are kept are visited one right after the other: none has been met, or the block has them all. -/
def Blocked (part : Nat → Option Nat) (visits : List Visit) : Prop :=
  ∃ before block after, visits = before ++ block ++ after ∧ (∀ visit ∈ block, ∃ j, part visit.vertex = some j) ∧
    (∀ visit ∈ before ++ after, part visit.vertex = none) ∧
      (block = [] ∨ ∀ v, (part v).isSome → v ∈ block.map (·.vertex))

theorem Blocked.plant (h : Excerpt part r t)
    (connected : ∀ u v, (part u).isSome → (part v).isSome → ReflTransGen r.Linked u v)
    (blocked : Blocked part visits) (root : Nat) : Blocked part (r.plant visits root) := by
  simp only [Rows.plant]
  split
  · exact blocked
  next fresh =>
    obtain ⟨before, block, after, rfl, own, others, full⟩ := blocked
    cases kept : part root with
    | none =>
      have walk := h.walk_other kept .queue ((before ++ block ++ after).map (·.vertex))
      refine ⟨before, block, after ++ _, List.append_assoc (before ++ block) after _, own, fun visit hv => ?_, full⟩
      rw [← List.append_assoc] at hv
      exact (List.mem_append.1 hv).elim (others visit) (walk visit)
    | some w =>
      have root_kept : (part root).isSome := by rw [kept, Option.isSome_some]
      have empty : block = [] := by
        refine full.resolve_right fun all => fresh ?_
        rw [List.map_append, List.map_append]
        exact List.mem_append_left _ (List.mem_append_right _ (all root root_kept))
      subst empty
      rw [List.append_nil] at fresh ⊢
      refine ⟨before ++ after, _, [], (List.append_nil _).symm, h.walk_kept kept _ _, ?_, .inr fun v hv => ?_⟩
      · rwa [List.append_nil]
      · refine h.mem_walk_of_connected kept (fun x hx => ?_) (connected root v root_kept hv)
        obtain ⟨visit, member, rfl⟩ := List.mem_map.1 hx
        exact others visit member

/-- When the ids that are kept are connected, the forest visits them one right after the other. -/
theorem blocked_forest (h : Excerpt part r t)
    (connected : ∀ u v, (part u).isSome → (part v).isSome → ReflTransGen r.Linked u v) (roots : List Nat) :
    Blocked part (r.forest roots) := by
  have start : Blocked part [] := ⟨[], [], [], rfl, fun _ hv => (nomatch hv), fun _ hv => (nomatch hv), .inl rfl⟩
  rw [forest]
  generalize [] = visits at start
  induction roots generalizing visits with
  | nil => exact start
  | cons root roots ih => exact ih _ (start.plant h connected root)

end Excerpt
end Walks

/-! ### Orders -/

section Orders
variable {order : List Nat}

/-- Every policy that orders the whole orders a connected excerpt in the same way. -/
theorem Excerpt.resolve_eq_ok (h : Excerpt part r t) (symm : r.Symmetric) (symm' : t.Symmetric)
    (connected : t.Connected) (ids : (List.range r.size).filterMap part = List.range t.size) {p : OrderPolicy}
    (resolved : p.resolve r (List.range r.size) = .ok order) :
    p.resolve t (List.range t.size) = .ok (order.filterMap part) := by
  unfold OrderPolicy.resolve at resolved ⊢
  split
  next reorder =>
    rw [if_pos reorder] at resolved
    rw [cover_of_connected symm' (.refl _) connected, cover_eq_forest symm (.refl _) resolved, ← ids, h.forest_eq,
      map_vertex_filterMap]
  next keep =>
    rw [if_neg keep] at resolved
    obtain rfl := Except.ok.inj resolved
    rw [ids]

end Orders
end Rows
end CliqueTree
