import CliqueTree.Proofs.Table.BreadthFirst
import CliqueTree.Proofs.Table.Marriage
import CliqueTree.Proofs.Table.TopologicalOrder
import CliqueTree.Proofs.Table.WalkTree

/-!
# Depth-first search as a loop

A search keeps a stack of ids that wait, a mark for every id and a list of those that were popped. An id is marked when
it is pushed and listed when it is popped, so what is marked is what was listed or waits, and no id is pushed twice. The
loop reads a mark for every entry of a row and a row for every id that it pops; an id without one stops it. Reading a row
comes to what a visit of the walk meets (`foldlM_meet`), so on rows that name only each other the loop runs to its end, in
a turn for each visit, with the walk as its list (`ends_depthFirst`).

Of the walk itself three things are told here: it starts at its source, it meets what its source reaches, each id once,
and whatever it meets is named by the row of an id met before (`exists_named_before`).
-/

set_option autoImplicit false

namespace CliqueTree
open Relation (ReflTransGen)
open Rows

/-- The state of a depth-first search. The top of the stack is in front. -/
structure Descent where
  stack : List Nat
  marks : Array Bool
  order : List Nat

namespace Descent

/-- An id that is not marked is marked and pushed. -/
def meet (s : Descent) (x : Nat) : Except GraphError Descent :=
  match s.marks[x]? with
  | some true => .ok s
  | some false => .ok { s with stack := x :: s.stack, marks := s.marks.setIfInBounds x true }
  | none => .error (.noSuchId x)

/-- The top of the stack is popped and listed, and its row is read entry by entry. -/
def turn (r : Rows) (s : Descent) : Except GraphError Descent :=
  match s.stack with
  | [] => .ok s
  | v :: stack => do (← r.row v).foldlM meet { s with stack, order := s.order ++ [v] }

/-- The loop takes so many turns from one state to the other, and then the stack is empty. -/
inductive Ends (r : Rows) : Descent → Nat → Descent → Prop
  | stop {s : Descent} (empty : s.stack = []) : Ends r s 0 s
  | next {s t u : Descent} {k : Nat} (waits : s.stack ≠ []) (turned : s.turn r = .ok t) (rest : Ends r t k u) :
    Ends r s (k + 1) u

/-- Among `n` ids only the source is marked, and it waits. -/
def start (n source : Nat) : Descent := ⟨[source], (Array.replicate n false).setIfInBounds source true, []⟩

/-- The marks of `n` ids of which those in `met` are marked. -/
def marksOf (n : Nat) (met : List Nat) : Array Bool := (Array.range n).map (decide <| · ∈ met)

/-- Nothing waits, and what is listed is marked. -/
def listed (n : Nat) (ids : List Nat) : Descent := ⟨[], marksOf n ids, ids⟩

variable {r : Rows} {s t t' : Descent} {n k k' v x : Nat} {met met' stack order : List Nat}

theorem Ends.unique (h : Ends r s k t) (h' : Ends r s k' t') : k = k' ∧ t = t' := by
  induction h generalizing k' with
  | stop empty =>
    cases h' with
    | stop => exact ⟨rfl, rfl⟩
    | next waits => exact absurd empty waits
  | next waits turned rest ih =>
    cases h' with
    | stop empty => exact absurd empty waits
    | next _ turned' rest' =>
      obtain rfl := Except.ok.inj (turned.symm.trans turned')
      obtain ⟨rfl, rfl⟩ := ih rest'
      exact ⟨rfl, rfl⟩

/-! ### Marks -/

theorem getElem?_marksOf (hx : x < n) : (marksOf n met)[x]? = some (decide (x ∈ met)) := by simp [marksOf, hx]

theorem marksOf_congr (same : ∀ x, x ∈ met ↔ x ∈ met') : marksOf n met = marksOf n met' := by
  simp only [marksOf, same]

theorem mark_marksOf (n : Nat) (met : List Nat) (x : Nat) :
    (marksOf n met).setIfInBounds x true = marksOf n (met ++ [x]) := by
  have here : decide (x ∈ met ++ [x]) = true := by simp
  rw [marksOf, marksOf, ← here, setIfInBounds_map_range (g := (decide <| · ∈ met ++ [x])) fun w other => by simp [other]]

theorem start_eq (n source : Nat) : start n source = ⟨[source], marksOf n [source], []⟩ := by
  have fresh : Array.replicate n false = marksOf n [] := by
    refine Array.ext_getElem? fun x => ?_
    by_cases hx : x < n <;> simp [marksOf, hx]
  rw [start, fresh, mark_marksOf, List.nil_append]

/-! ### Turns -/

theorem meet_marksOf (hx : x < n) : meet ⟨stack, marksOf n met, order⟩ x =
    .ok (if x ∈ met then ⟨stack, marksOf n met, order⟩ else ⟨x :: stack, marksOf n (met ++ [x]), order⟩) := by
  rw [meet, getElem?_marksOf hx]
  by_cases old : x ∈ met
  · simp only [old, decide_true, if_true]
  · simp only [old, decide_false, if_false, mark_marksOf]

/-- A row puts on the stack what it names and what is not marked, each id once, the last one on top. -/
theorem foldlM_meet {row : List Nat} (inside : ∀ x ∈ row, x < n) (met stack order : List Nat) :
    row.foldlM meet ⟨stack, marksOf n met, order⟩ = .ok ⟨((distinct row).filter (· ∉ met)).reverse ++ stack,
      marksOf n (met ++ (distinct row).filter (· ∉ met)), order⟩ := by
  induction row generalizing met stack with
  | nil => simp [distinct, pure, Except.pure]
  | cons x row ih =>
    obtain ⟨hx, inside⟩ := List.forall_mem_cons.1 inside
    have later : ((distinct row).filter (· ≠ x)).filter (· ∉ met) = (distinct row).filter (· ∉ met ++ [x]) := by
      rw [List.filter_filter]
      refine List.filter_congr fun y _ => ?_
      simp
    rw [List.foldlM_cons, meet_marksOf hx, ok_bind, distinct]
    by_cases old : x ∈ met
    · have same : (distinct row).filter (· ∉ met ++ [x]) = (distinct row).filter (· ∉ met) := by
        refine List.filter_congr fun y _ => ?_
        rw [decide_eq_decide, List.mem_append, List.mem_singleton, or_iff_left_of_imp fun equal => equal ▸ old]
      rw [if_pos old, ih inside, List.filter_cons_of_neg (by simpa using old), later, same]
    · rw [if_neg old, ih inside, List.filter_cons_of_pos (by simpa using old), later]
      simp only [List.reverse_cons, List.append_assoc, List.singleton_append]

/-- A turn lists the top, and what its row names and is not met goes on top of those that wait. -/
theorem turn_eq (inside : r.Inside) (hv : v < r.size) (met stack order : List Nat) :
    turn r ⟨v :: stack, marksOf r.size met, order⟩ = .ok ⟨(r.unmet met v).reverse ++ stack,
      marksOf r.size (met ++ r.unmet met v), order ++ [v]⟩ := by
  show (r.row v >>= fun row => row.foldlM meet ⟨stack, marksOf r.size met, order ++ [v]⟩) = _
  rw [row_of_lt hv, ok_bind, foldlM_meet (inside v)]
  rfl

/-- From what waits in a walk the loop ends after a turn for each visit. -/
theorem ends_walkFrom (inside : r.Inside) (met : List Nat) (waiting : List Visit)
    (marked : ∀ visit ∈ waiting, visit.vertex ∈ met ∧ visit.vertex < r.size) (order : List Nat) :
    Ends r ⟨waiting.map (·.vertex), marksOf r.size met, order⟩ (r.walkFrom .stack met waiting).length
      ⟨[], marksOf r.size (met ++ (r.walkFrom .stack met waiting).map (·.vertex)),
        order ++ (r.walkFrom .stack met waiting).map (·.vertex)⟩ := by
  induction met, waiting using Rows.walkFrom.induct r .stack generalizing order with
  | case1 met =>
    rw [walkFrom_nil, List.map_nil, List.append_nil, List.append_nil]
    exact .stop rfl
  | case2 met visit waiting new ih =>
    obtain ⟨⟨here, small⟩, later⟩ := List.forall_mem_cons.1 marked
    have pushed : ∀ next ∈ Frontier.stack.extend waiting (r.namedBy met visit.vertex),
        next.vertex ∈ met ++ r.unmet met visit.vertex ∧ next.vertex < r.size := by
      intro next hn
      rcases List.mem_append.1 ((Frontier.stack.extend_perm _ _).mem_iff.1 hn) with old | named
      · exact (later next old).imp_left (List.mem_append_left _)
      · have entry := (mem_namedBy.1 named).1
        exact ⟨List.mem_append_right met (mem_unmet.2 entry), inside _ _ entry.1⟩
    have vertices : (Frontier.stack.extend waiting (r.namedBy met visit.vertex)).map (·.vertex) =
        (r.unmet met visit.vertex).reverse ++ waiting.map (·.vertex) := by
      rw [Frontier.extend, List.map_append, List.map_reverse, map_vertex_namedBy]
    obtain ⟨visits, walk⟩ : ∃ visits, visits = r.walkFrom .stack (met ++ r.unmet met visit.vertex)
      (Frontier.stack.extend waiting (r.namedBy met visit.vertex)) := ⟨_, rfl⟩
    have visited : r.unmet met visit.vertex ⊆ visits.map (·.vertex) := by
      rw [walk, ← map_vertex_namedBy]
      exact List.map_subset _ fun next named => extend_subset_walkFrom (.inr named)
    have rest : Ends r ⟨(Frontier.stack.extend waiting (r.namedBy met visit.vertex)).map (·.vertex),
        marksOf r.size (met ++ r.unmet met visit.vertex), order ++ [visit.vertex]⟩ visits.length ⟨[],
          marksOf r.size (met ++ r.unmet met visit.vertex ++ visits.map (·.vertex)),
            order ++ [visit.vertex] ++ visits.map (·.vertex)⟩ := by
      rw [walk]
      exact ih pushed _
    -- what the row names is marked at once and listed later
    have marks : marksOf r.size (met ++ r.unmet met visit.vertex ++ visits.map (·.vertex)) =
        marksOf r.size (met ++ (visit :: visits).map (·.vertex)) := by
      refine marksOf_congr fun x => ?_
      have known := @visited x
      simp only [List.mem_append, List.map_cons, List.mem_cons]
      grind
    rw [vertices, marks, List.append_assoc] at rest
    rw [walkFrom_cons, ← walk]
    exact .next (List.cons_ne_nil _ _) (turn_eq inside small met _ order) rest

/-- On rows that name only each other a search from any of their ids ends, and lists the depth-first walk. -/
theorem ends_depthFirst (inside : r.Inside) {source : Nat} (small : source < r.size) :
    Ends r (start r.size source) (r.depthFirst source).length (listed r.size (r.depthFirst source)) := by
  have marked : ∀ visit ∈ [(⟨source, none⟩ : Visit)], visit.vertex ∈ [source] ∧ visit.vertex < r.size :=
    List.forall_mem_singleton.2 ⟨List.mem_cons_self, small⟩
  have ended := ends_walkFrom inside [source] [⟨source, none⟩] marked []
  have marks : marksOf r.size ([source] ++ r.depthFirst source) = marksOf r.size (r.depthFirst source) := by
    refine marksOf_congr fun x => ?_
    rw [List.mem_append, or_iff_right_of_imp fun start => ?_]
    rw [List.mem_singleton.1 start]
    exact r.mem_walk .stack [] source
  rw [start_eq, listed, ← marks, depthFirst, List.length_map]
  exact ended

end Descent

namespace Rows
variable {r : Rows} {f : Frontier} {source v : Nat}

theorem nodup_depthFirst (r : Rows) (source : Nat) : (r.depthFirst source).Nodup :=
  (r.walk_nodup List.not_mem_nil .stack).1

theorem mem_depthFirst_iff : v ∈ r.depthFirst source ↔ ReflTransGen r.Linked source v :=
  r.mem_walk_iff .stack source

theorem depthFirst_inside (inside : r.Inside) (small : source < r.size) : ∀ v ∈ r.depthFirst source, v < r.size := by
  intro v hv
  rcases ReflTransGen.cases_tail (mem_depthFirst_iff.1 hv) with rfl | ⟨u, _, link⟩
  · exact small
  · exact inside u v link

theorem head?_depthFirst (r : Rows) (source : Nat) : (r.depthFirst source).head? = some source := by
  rw [depthFirst, walk, walkFrom_cons]
  rfl

/-- What a walk visits waited at first, or the row of its parent names it. -/
theorem walkFrom_named (r : Rows) (f : Frontier) (met : List Nat) (waiting : List Visit) :
    ∀ visit ∈ r.walkFrom f met waiting, visit ∈ waiting ∨ ∃ p, visit.parent = some p ∧ r.Linked p visit.vertex := by
  induction met, waiting using walkFrom.induct r f with
  | case1 met => simp [walkFrom_nil]
  | case2 met visit waiting new ih =>
    rw [walkFrom_cons]
    refine List.forall_mem_cons.2 ⟨.inl List.mem_cons_self, fun later member => ?_⟩
    rcases ih later member with joins | named
    · rcases List.mem_append.1 ((f.extend_perm _ _).mem_iff.1 joins) with old | new
      · exact .inl (List.mem_cons_of_mem visit old)
      · obtain ⟨⟨entry, _⟩, parent⟩ := mem_namedBy.1 new
        exact .inr ⟨_, parent, entry⟩
    · exact .inr named

/-- Whatever a search meets behind its source is named by the row of an id that it met before. -/
theorem exists_named_before {before after : List Nat} (split : r.depthFirst source = before ++ v :: after)
    (ne : v ≠ source) : ∃ p ∈ before, r.Linked p v := by
  obtain ⟨first, rest, visits, rfl, tail⟩ := List.map_eq_append_iff.1 split
  obtain ⟨visit, last, rfl, rfl, rfl⟩ := List.map_eq_cons_iff.1 tail
  have earlier : ParentsEarlier [] (r.walk .stack [] source) :=
    r.parentsEarlier_walkFrom .stack _ _ [] (List.forall_mem_singleton.2 (by simp))
  have member : visit ∈ r.walk .stack [] source := visits ▸ List.mem_append_right first List.mem_cons_self
  rcases r.walkFrom_named .stack _ _ visit member with start | ⟨p, parent, link⟩
  · rw [List.mem_singleton.1 start] at ne
    exact absurd rfl ne
  · rw [visits, ParentsEarlier.append_iff] at earlier
    exact ⟨p, by simpa using earlier.2.1 p parent, link⟩

end Rows
end CliqueTree
