import CliqueTree.Proofs.Table.RecursiveSort
import CliqueTree.Table.TopologicalOrder

/-!
# The stack of a topological order

The stack holds the calls of the recursive sort that are in progress: the vertex of a frame, and with its counter the
children that its call has still to look at (`pending`). The marks say no more than that: open is what is on the stack,
placed is what is listed (`progressAt`). So working off the innermost frame is the rest of its call (`settle_eq`), with
the stack below as what comes after it, and the whole order is the one of the recursive sort (`topologicalOrder_eq`).
-/

set_option autoImplicit false

namespace CliqueTree
namespace Rows

/-! ### Marks -/

section Marks
variable {n v : Nat} {active post : List Nat}

/-- The mark of a vertex while the calls for the vertices in `active` are in progress and those for the vertices in
`post` have ended. -/
def markOf (active post : List Nat) (v : Nat) : Mark :=
  if v ∈ active then .opened else if v ∈ post then .placed else .fresh

/-- What the walk among `n` vertices has done then. -/
def progressAt (n : Nat) (active post : List Nat) : Progress :=
  ⟨(Array.range n).map (markOf active post), post.reverse⟩

theorem marks_progressAt (hv : v < n) : (progressAt n active post).marks[v]? = some (markOf active post v) := by
  simp [progressAt, hv]

theorem start_eq (n : Nat) : Progress.start n = progressAt n [] [] := by
  have marks : (Array.range n).map (markOf [] []) = Array.replicate n .fresh := by
    refine Array.ext_getElem? fun v => ?_
    by_cases hv : v < n <;> simp [markOf, hv]
  rw [Progress.start, progressAt, marks, List.reverse_nil]

/-- Marks that differ from the marks of a table at one place are those with this one set. -/
theorem setIfInBounds_map_range {α : Type} {f g : Nat → α} (other : ∀ w, w ≠ v → f w = g w) :
    ((Array.range n).map f).setIfInBounds v (g v) = (Array.range n).map g := by
  refine Array.ext_getElem? fun w => ?_
  rw [Array.getElem?_setIfInBounds]
  by_cases same : v = w
  · subst same
    by_cases hv : v < n <;> simp [hv]
  · by_cases hw : w < n <;> simp [same, hw, other w (Ne.symm same)]

theorem enter_progressAt (n : Nat) (active post : List Nat) (v : Nat) :
    (progressAt n active post).enter v = progressAt n (v :: active) post := by
  have here : markOf (v :: active) post v = .opened := by simp [markOf]
  rw [Progress.enter, progressAt, progressAt, ← here, setIfInBounds_map_range fun w other => by simp [markOf, other]]

theorem place_progressAt (n : Nat) (post : List Nat) (closed : v ∉ active) :
    (progressAt n (v :: active) post).place v = progressAt n active (post ++ [v]) := by
  have here : markOf active (post ++ [v]) v = .placed := by simp [markOf, closed]
  rw [Progress.place, progressAt, progressAt, ← here, setIfInBounds_map_range fun w other => by simp [markOf, other],
    List.reverse_append]
  rfl

end Marks

/-! ### Frames -/

section Frames
variable {r : Rows} {f : Frame r} {below : List (Frame r)} {p : Progress} {c : Nat} {rest : List Nat}

/-- The children that a frame has still to look at, the next one in front. -/
def Frame.pending (f : Frame r) : List Nat := ((r.get f.vertex).take f.remaining).reverse

/-- A frame with no child left places its vertex. -/
theorem settle_of_pending_nil (none : f.pending = []) :
    r.settle (f :: below) p = r.settle below (p.place f.vertex) := by
  obtain ⟨v, remaining, bound⟩ := f
  cases remaining with
  | zero => rw [settle]
  | succ left =>
    rw [Frame.pending, List.take_succ_eq_append_getElem bound, List.reverse_append] at none
    cases none

/-- What the innermost frame does with the next child. -/
theorem settle_of_pending_cons (next : f.pending = c :: rest) : ∃ f' : Frame r, f'.vertex = f.vertex ∧
    f'.pending = rest ∧ ∀ below p, r.settle (f :: below) p =
      match p.marks[c]? with
      | some .opened => .error c
      | some .fresh => r.settle (r.enter c :: f' :: below) (p.enter c)
      | some .placed | none => r.settle (f' :: below) p := by
  obtain ⟨v, remaining, bound⟩ := f
  cases remaining with
  | zero => cases next
  | succ left =>
    rw [Frame.pending, List.take_succ_eq_append_getElem bound, List.reverse_append] at next
    obtain ⟨rfl, rfl⟩ := List.cons.inj next
    refine ⟨⟨v, left, Nat.le_of_succ_le bound⟩, rfl, rfl, fun below p => ?_⟩
    rw [settle]
    split <;> simp_all

end Frames

/-! ### Calls -/

section Calls
variable {r : Rows} {edges : List Edge} {active post children vs : List Nat}

/-- The rows list the targets of the edges, which have rows themselves. -/
structure ListsTargets (r : Rows) (edges : List Edge) : Prop where
  rows : ∀ v, v < r.size → r.get v = targets edges v
  inside : ∀ e ∈ edges, e.2 < r.size

theorem ListsTargets.children_inside (lists : r.ListsTargets edges) (v : Nat) :
    ∀ w ∈ (targets edges v).reverse, w < r.size :=
  fun w hw => lists.inside (v, w) (mem_targets.1 (List.mem_reverse.1 hw))

theorem ListsTargets.pending_enter (lists : r.ListsTargets edges) {v : Nat} (hv : v < r.size) :
    (r.enter v).pending = (targets edges v).reverse := by
  rw [Frame.pending, enter, List.take_length, lists.rows v hv]

/-- The innermost frame is worked off as its call goes on: it places the vertex behind the pending children, and then
the stack below is worked off. -/
theorem settle_eq (lists : r.ListsTargets edges) {f : Frame r} {below : List (Frame r)}
    (inside : ∀ w ∈ children, w < r.size) (pending : f.pending = children)
    (opened : active = f.vertex :: below.map (·.vertex)) (nodup : active.Nodup) :
    r.settle (f :: below) (progressAt r.size active post) =
      finish edges active post children >>= fun post =>
        r.settle below (progressAt r.size (below.map (·.vertex)) (post ++ [f.vertex])) := by
  induction active, post, children using finish.induct edges generalizing f below with
  | case1 active post =>
    subst opened
    rw [settle_of_pending_nil pending, place_progressAt r.size post (List.nodup_cons.1 nodup).1, finish]
    rfl
  | case2 active post c rest cycle =>
    obtain ⟨f', same, pending', step⟩ := settle_of_pending_cons pending
    rw [step, marks_progressAt (inside c List.mem_cons_self), markOf, if_pos cycle, finish, if_pos cycle]
    rfl
  | case3 active post c rest closed old ih =>
    obtain ⟨hc, inside⟩ := List.forall_mem_cons.1 inside
    obtain ⟨f', same, pending', step⟩ := settle_of_pending_cons pending
    rw [step, marks_progressAt hc, markOf, if_neg closed, if_pos old, finish, if_neg closed, if_pos old]
    rw [← same] at opened ⊢
    exact ih inside pending' opened nodup
  | case4 active post c rest closed fresh ih ih' =>
    obtain ⟨hc, inside⟩ := List.forall_mem_cons.1 inside
    obtain ⟨f', same, pending', step⟩ := settle_of_pending_cons pending
    rw [← same] at opened ⊢
    have stack : c :: active = c :: (f' :: below).map (·.vertex) := congrArg (c :: ·) opened
    have call := ih (lists.children_inside c) (lists.pending_enter hc) stack (List.nodup_cons.2 ⟨closed, nodup⟩)
    rw [step, marks_progressAt hc, markOf, if_neg closed, if_neg fresh, finish, if_neg closed, if_neg fresh]
    simp only
    rw [enter_progressAt, call, bind_assoc]
    -- the call for the child has ended, and the one for the vertex of the frame goes on with what is still pending
    refine bind_congr fun listed => ?_
    rw [← ih' listed inside pending' opened nodup, opened]
    rfl

/-- Each root that is fresh starts a call when no other call is in progress. -/
theorem foldlM_settleFrom_eq (lists : r.ListsTargets edges) (inside : ∀ v ∈ vs, v < r.size) :
    vs.foldlM r.settleFrom (progressAt r.size [] post) = progressAt r.size [] <$> finish edges [] post vs := by
  induction vs generalizing post with
  | nil =>
    rw [finish]
    rfl
  | cons v vs ih =>
    obtain ⟨hv, inside⟩ := List.forall_mem_cons.1 inside
    rw [List.foldlM_cons, settleFrom, marks_progressAt hv, markOf, if_neg List.not_mem_nil, finish,
      if_neg List.not_mem_nil]
    by_cases old : v ∈ post
    · rw [if_pos old, if_pos old]
      exact ih inside
    · have stack : [v] = (r.enter v).vertex :: ([] : List (Frame r)).map (·.vertex) := rfl
      rw [if_neg old, if_neg old, if_pos rfl, enter_progressAt,
        settle_eq lists (lists.children_inside v) (lists.pending_enter hv) stack (List.nodup_singleton v), bind_assoc,
        map_bind]
      refine bind_congr fun listed => ?_
      rw [← ih inside, settle]
      rfl

/-- The order of the stack is the order of the recursion. -/
theorem topologicalOrder_eq (lists : r.ListsTargets edges) :
    r.topologicalOrder = recursiveSort (List.range r.size) edges := by
  rw [topologicalOrder, recursiveSort, start_eq, foldlM_settleFrom_eq lists fun v => List.mem_range.1]
  cases finish edges [] [] (List.range r.size) <;> rfl

end Calls
end Rows
end CliqueTree
