import CliqueTree.Proofs.Table.EdgeLists

/-!
# Sorting by recursion

The recursive depth-first sort of the vertices of a list of edges. A call for a vertex calls itself for each of the
children, the last edge first, and then lists the vertex; a child whose call is still open closes a cycle. The reversed
list has every vertex before its children.

What a call adds to the list is finished: the children of a vertex stand before it (`Finished`), since a child that is
met is open, listed already, or listed by its own call (`finish_eq_ok`). The vertices with open calls all reach the
vertex that is looked at, so one that is met again lies on a cycle (`finish_eq_error`). The sort asks only which
vertices are equal, so it gives the same for other names (`recursiveSort_map`).
-/

set_option autoImplicit false

namespace CliqueTree
open Relation (TransGen)

section Definition
variable {α : Type} [DecidableEq α]

theorem mem_targets {edges : List (α × α)} {u v : α} : v ∈ targets edges u ↔ (u, v) ∈ edges := by
  rw [← List.count_pos_iff, count_targets, List.count_pos_iff]

/-- The edges out of a vertex that opens are no longer edges out of vertices that are not open. -/
theorem length_targets_add_countP (edges : List (α × α)) {active : List α} {v : α} (closed : v ∉ active) :
    (targets edges v).length + edges.countP (·.1 ∉ v :: active) = edges.countP (·.1 ∉ active) := by
  induction edges with
  | nil => rfl
  | cons e edges ih =>
    rw [List.countP_cons, List.countP_cons, ← ih]
    by_cases out : e.1 = v
    · simp [targets, out, closed]
      omega
    · simp [targets, out]
      omega

/-- Calls the sort for each vertex of a list in turn. The calls for the vertices in `active` are in progress, those for
the vertices in `post` have ended. The error is a vertex that is met while the call for it is in progress. -/
def finish (edges : List (α × α)) (active post : List α) : List α → Except α (List α)
  | [] => .ok post
  | v :: rest =>
    if v ∈ active then .error v
    else if v ∈ post then finish edges active post rest
    else do
      let post ← finish edges (v :: active) post (targets edges v).reverse
      finish edges active (post ++ [v]) rest
termination_by vs => edges.countP (·.1 ∉ active) + vs.length
decreasing_by
  · simp
  · rename_i closed _
    have := length_targets_add_countP edges closed
    rw [List.length_reverse, List.length_cons]
    omega
  · simp

/-- The vertices in reversed post-order, or a vertex on a cycle. -/
def recursiveSort (vertices : List α) (edges : List (α × α)) : Except α (List α) :=
  List.reverse <$> finish edges [] [] vertices

variable {vertices : List α} {edges : List (α × α)} {active post vs result : List α} {u v c : α}

theorem recursiveSort_eq_ok_iff :
    recursiveSort vertices edges = .ok result ↔ finish edges [] [] vertices = .ok result.reverse := by
  rw [recursiveSort]
  cases finish edges [] [] vertices with
  | ok post => simp [List.reverse_eq_iff]
  | error c => simp

theorem recursiveSort_eq_error_iff :
    recursiveSort vertices edges = .error c ↔ finish edges [] [] vertices = .error c := by
  rw [recursiveSort]
  cases finish edges [] [] vertices <;> simp

/-! ### Calls that end -/

/-- What is listed stands once and behind its children. -/
structure Finished (edges : List (α × α)) (post : List α) : Prop where
  nodup : post.Nodup
  before : ∀ e ∈ edges, e.1 ∈ post → post.idxOf e.2 < post.idxOf e.1

namespace Finished

theorem nil (edges : List (α × α)) : Finished edges [] := ⟨List.nodup_nil, by simp⟩

theorem mem_of_mem (finished : Finished edges post) (he : (u, v) ∈ edges) (hu : u ∈ post) : v ∈ post :=
  List.idxOf_lt_length_iff.1 ((finished.before _ he hu).trans (List.idxOf_lt_length_iff.2 hu))

/-- A vertex whose children are listed may be listed next. -/
theorem concat (finished : Finished edges post) (fresh : v ∉ post) (children : ∀ w ∈ targets edges v, w ∈ post) :
    Finished edges (post ++ [v]) where
  nodup := List.nodup_append_comm.1 (List.nodup_cons.2 ⟨fresh, finished.nodup⟩)
  before := by
    rintro ⟨u, w⟩ he hu
    rcases List.mem_append.1 hu with old | new
    · have hw : w ∈ post := finished.mem_of_mem he old
      rw [List.idxOf_append_of_mem hw, List.idxOf_append_of_mem old]
      exact finished.before _ he old
    · obtain rfl := List.mem_singleton.1 new
      have hw : w ∈ post := children w (mem_targets.2 he)
      rw [List.idxOf_append_of_mem hw, List.idxOf_append_of_notMem fresh]
      have := List.idxOf_lt_length_iff.2 hw
      omega

/-- A vertex that reaches another one along edges stands behind it. -/
theorem idxOf_lt (finished : Finished edges post) (way : TransGen (fun u v => (u, v) ∈ edges) u v) (hu : u ∈ post) :
    post.idxOf v < post.idxOf u := by
  have both : v ∈ post ∧ post.idxOf v < post.idxOf u := by
    induction way with
    | single he => exact ⟨finished.mem_of_mem he hu, finished.before _ he hu⟩
    | tail _ he ih => exact ⟨finished.mem_of_mem he ih.1, (finished.before _ he ih.1).trans ih.2⟩
  exact both.2

end Finished

/-- Only what was listed, what is called and what edges lead to gets listed. -/
theorem mem_of_finish (ran : finish edges active post vs = .ok result) :
    ∀ v ∈ result, v ∈ post ∨ v ∈ vs ∨ ∃ u, (u, v) ∈ edges := by
  induction active, post, vs using finish.induct edges generalizing result with
  | case1 active post =>
    rw [finish] at ran
    obtain rfl := Except.ok.inj ran
    exact fun _ => .inl
  | case2 active post v rest cycle =>
    rw [finish, if_pos cycle] at ran
    cases ran
  | case3 active post v rest closed old ih =>
    rw [finish, if_neg closed, if_pos old] at ran
    exact fun w hw => (ih ran w hw).imp_right (.imp_left (List.mem_cons_of_mem v))
  | case4 active post v rest closed fresh ih ih' =>
    rw [finish, if_neg closed, if_neg fresh] at ran
    obtain ⟨inner, first, ran⟩ := bind_eq_ok.1 ran
    intro w hw
    rcases ih' inner ran w hw with old | called | child
    · rcases List.mem_append.1 old with inside | new
      · rcases ih first w inside with old | child | child
        · exact .inl old
        · exact .inr (.inr ⟨v, mem_targets.1 (List.mem_reverse.1 child)⟩)
        · exact .inr (.inr child)
      · exact .inr (.inl (List.mem_cons.2 (.inl (List.mem_singleton.1 new))))
    · exact .inr (.inl (List.mem_cons_of_mem v called))
    · exact .inr (.inr child)

/-- What calls for the vertices of a list have made of what was listed before. -/
structure Listed (edges : List (α × α)) (active post vs result : List α) : Prop where
  finished : Finished edges result
  kept : ∀ v ∈ post, v ∈ result
  called : ∀ v ∈ vs, v ∈ result
  apart : ∀ v ∈ active, v ∉ result

/-- Calls that end list what they were made for, behind its children. -/
theorem finish_eq_ok (finished : Finished edges post) (apart : ∀ v ∈ active, v ∉ post)
    (ran : finish edges active post vs = .ok result) : Listed edges active post vs result := by
  induction active, post, vs using finish.induct edges generalizing result with
  | case1 active post =>
    rw [finish] at ran
    obtain rfl := Except.ok.inj ran
    exact ⟨finished, fun _ => id, by simp, apart⟩
  | case2 active post v rest cycle =>
    rw [finish, if_pos cycle] at ran
    cases ran
  | case3 active post v rest closed old ih =>
    rw [finish, if_neg closed, if_pos old] at ran
    have later := ih finished apart ran
    exact { later with called := List.forall_mem_cons.2 ⟨later.kept v old, later.called⟩ }
  | case4 active post v rest closed fresh ih ih' =>
    rw [finish, if_neg closed, if_neg fresh] at ran
    obtain ⟨inner, first, ran⟩ := bind_eq_ok.1 ran
    have below := ih finished (List.forall_mem_cons.2 ⟨fresh, apart⟩) first
    obtain ⟨unlisted, apart'⟩ := List.forall_mem_cons.1 below.apart
    have next : Finished edges (inner ++ [v]) :=
      below.finished.concat unlisted fun w hw => below.called w (List.mem_reverse.2 hw)
    have later := ih' inner next (fun w hw => ?_) ran
    · refine ⟨later.finished, fun w hw => later.kept w (List.mem_append_left _ (below.kept w hw)), ?_, later.apart⟩
      exact List.forall_mem_cons.2 ⟨later.kept v (by simp), later.called⟩
    · rw [List.mem_append, List.mem_singleton]
      rintro (old | rfl)
      · exact apart' w hw old
      · exact closed hw

/-! ### Calls that meet a cycle -/

/-- When the vertices whose calls are in progress reach all that is called, a vertex that is met again reaches
itself. -/
theorem finish_eq_error (reach : ∀ a ∈ active, ∀ v ∈ vs, TransGen (fun u v => (u, v) ∈ edges) a v)
    (ran : finish edges active post vs = .error c) : TransGen (fun u v => (u, v) ∈ edges) c c := by
  induction active, post, vs using finish.induct edges with
  | case1 active post =>
    rw [finish] at ran
    cases ran
  | case2 active post v rest cycle =>
    rw [finish, if_pos cycle] at ran
    obtain rfl := Except.error.inj ran
    exact reach v cycle v List.mem_cons_self
  | case3 active post v rest closed old ih =>
    rw [finish, if_neg closed, if_pos old] at ran
    exact ih (fun a ha w hw => reach a ha w (List.mem_cons_of_mem v hw)) ran
  | case4 active post v rest closed fresh ih ih' =>
    rw [finish, if_neg closed, if_neg fresh] at ran
    rcases bind_eq_error.1 ran with inside | ⟨inner, _, later⟩
    · refine ih (fun a ha w hw => ?_) inside
      have child : (v, w) ∈ edges := mem_targets.1 (List.mem_reverse.1 hw)
      rcases List.mem_cons.1 ha with rfl | ha
      · exact .single child
      · exact (reach a ha v List.mem_cons_self).tail child
    · exact ih' inner (fun a ha w hw => reach a ha w (List.mem_cons_of_mem v hw)) later

/-! ### The sort -/

theorem idxOf_reverse {l : List α} (nodup : l.Nodup) (hv : v ∈ l) : l.reverse.idxOf v + l.idxOf v + 1 = l.length := by
  induction l with
  | nil => simp at hv
  | cons w l ih =>
    obtain ⟨fresh, nodup⟩ := List.nodup_cons.1 nodup
    rw [List.reverse_cons, List.length_cons]
    by_cases same : w = v
    · subst same
      rw [List.idxOf_append_of_notMem (fun hw => fresh (List.mem_reverse.1 hw)), List.idxOf_cons_self]
      simp
    · have hv : v ∈ l := (List.mem_cons.1 hv).resolve_left (Ne.symm same)
      rw [List.idxOf_append_of_mem (List.mem_reverse.2 hv), List.idxOf_cons_ne l same]
      have := ih nodup hv
      omega

section Ends
variable (ends : ∀ e ∈ edges, e.1 ∈ vertices ∧ e.2 ∈ vertices)
include ends

/-- An order of the recursive sort lists every vertex once and before its children. -/
theorem recursiveSort_sound (nodup : vertices.Nodup) (sorted : recursiveSort vertices edges = .ok result) :
    result.Perm vertices ∧ ∀ e ∈ edges, result.idxOf e.1 < result.idxOf e.2 := by
  have ran := recursiveSort_eq_ok_iff.1 sorted
  have listed := finish_eq_ok (Finished.nil edges) (by simp) ran
  have nodup' : result.Nodup := List.nodup_reverse.1 listed.finished.nodup
  have called : ∀ v ∈ vertices, v ∈ result := fun v hv => List.mem_reverse.1 (listed.called v hv)
  refine ⟨(List.perm_ext_iff_of_nodup nodup' nodup).2 fun v => ⟨fun hv => ?_, called v⟩, fun e he => ?_⟩
  · rcases mem_of_finish ran v (List.mem_reverse.2 hv) with none | called | ⟨u, into⟩
    · simp at none
    · exact called
    · exact (ends _ into).2
  · obtain ⟨first, second⟩ := ends e he
    have behind := listed.finished.before e he (List.mem_reverse.2 (called _ first))
    have place := idxOf_reverse nodup' (called _ first)
    have place' := idxOf_reverse nodup' (called _ second)
    omega

/-- Vertices that the recursive sort can order have no cycle. -/
theorem acyclic_of_recursiveSort (sorted : recursiveSort vertices edges = .ok result) (v : α) :
    ¬ TransGen (fun u v => (u, v) ∈ edges) v v := by
  intro cycle
  have listed := finish_eq_ok (Finished.nil edges) (by simp) (recursiveSort_eq_ok_iff.1 sorted)
  have member : v ∈ vertices := by
    obtain ⟨w, _, into⟩ := TransGen.tail'_iff.1 cycle
    exact (ends _ into).2
  exact Nat.lt_irrefl _ (listed.finished.idxOf_lt cycle (listed.called v member))

/-- The vertex of an error is one on a cycle. -/
theorem recursiveSort_cyclic (fails : recursiveSort vertices edges = .error c) :
    c ∈ vertices ∧ TransGen (fun u v => (u, v) ∈ edges) c c := by
  have cycle := finish_eq_error (by simp) (recursiveSort_eq_error_iff.1 fails)
  obtain ⟨w, _, into⟩ := TransGen.tail'_iff.1 cycle
  exact ⟨(ends _ into).2, cycle⟩

end Ends
end Definition

/-! ### Other names -/

section Renaming
variable {α β : Type} {f : α → β} {keys : List α} {edges : List (α × α)} {active post vs : List α}

/-- A result under other names. -/
def renamed (f : α → β) : Except α (List α) → Except β (List β)
  | .ok order => .ok (order.map f)
  | .error c => .error (f c)

theorem mem_map_iff (inj : OneToOne f keys) (sub : ∀ v ∈ vs, v ∈ keys) {v : α} (hv : v ∈ keys) :
    f v ∈ vs.map f ↔ v ∈ vs := by
  refine ⟨fun h => ?_, List.mem_map_of_mem⟩
  obtain ⟨w, hw, same⟩ := List.mem_map.1 h
  exact inj w (sub w hw) v hv same ▸ hw

variable [DecidableEq α] [DecidableEq β]

theorem targets_map (inj : OneToOne f keys) (ends : ∀ e ∈ edges, e.1 ∈ keys ∧ e.2 ∈ keys) {v : α} (hv : v ∈ keys) :
    targets (edges.map (Prod.map f f)) (f v) = (targets edges v).map f := by
  have same : ∀ e ∈ edges, (f e.1 = f v ↔ e.1 = v) := fun e he => ⟨inj _ (ends e he).1 _ hv, congrArg f⟩
  rw [targets, targets, List.filter_map, List.map_map, List.map_map]
  congr 1
  apply List.filter_congr
  intro e he
  simpa using same e he

/-- Calls for other names end alike. -/
theorem finish_map (inj : OneToOne f keys) (ends : ∀ e ∈ edges, e.1 ∈ keys ∧ e.2 ∈ keys)
    (opened : ∀ v ∈ active, v ∈ keys) (old : ∀ v ∈ post, v ∈ keys) (called : ∀ v ∈ vs, v ∈ keys) :
    finish (edges.map (Prod.map f f)) (active.map f) (post.map f) (vs.map f) =
      renamed f (finish edges active post vs) := by
  induction active, post, vs using finish.induct edges with
  | case1 active post => rw [List.map_nil, finish, finish, renamed]
  | case2 active post v rest cycle =>
    rw [List.map_cons, finish, finish, if_pos cycle, if_pos (List.mem_map_of_mem cycle), renamed]
  | case3 active post v rest closed done ih =>
    obtain ⟨hv, called⟩ := List.forall_mem_cons.1 called
    rw [List.map_cons, finish, finish, if_neg closed, if_neg (mt (mem_map_iff inj opened hv).1 closed), if_pos done,
      if_pos (List.mem_map_of_mem done)]
    exact ih opened old called
  | case4 active post v rest closed fresh ih ih' =>
    obtain ⟨hv, called⟩ := List.forall_mem_cons.1 called
    have children : ∀ w ∈ (targets edges v).reverse, w ∈ keys := fun w hw =>
      (ends _ (mem_targets.1 (List.mem_reverse.1 hw))).2
    have inner := ih (List.forall_mem_cons.2 ⟨hv, opened⟩) old children
    rw [List.map_cons, finish, finish, if_neg closed, if_neg (mt (mem_map_iff inj opened hv).1 closed), if_neg fresh,
      if_neg (mt (mem_map_iff inj old hv).1 fresh), targets_map inj ends hv, ← List.map_reverse, ← List.map_cons,
      inner]
    cases ran : finish edges (v :: active) post (targets edges v).reverse with
    | error c => rfl
    | ok listed =>
      have member : ∀ w ∈ listed ++ [v], w ∈ keys := by
        intro w hw
        rcases List.mem_append.1 hw with hw | hw
        · rcases mem_of_finish ran w hw with hw | hw | ⟨u, into⟩
          · exact old w hw
          · exact children w hw
          · exact (ends _ into).2
        · exact List.mem_singleton.1 hw ▸ hv
      have later := ih' listed opened member called
      rwa [List.map_append] at later

/-- Under other names, different for different vertices, the sort gives the same order or vertex. -/
theorem recursiveSort_map (inj : OneToOne f keys) (ends : ∀ e ∈ edges, e.1 ∈ keys ∧ e.2 ∈ keys) :
    recursiveSort (keys.map f) (edges.map (Prod.map f f)) = renamed f (recursiveSort keys edges) := by
  have none : ∀ v ∈ ([] : List α), v ∈ keys := by simp
  have same := finish_map inj ends none none fun v => id
  rw [List.map_nil] at same
  rw [recursiveSort, recursiveSort, same]
  cases finish edges [] [] keys with
  | ok post => exact congrArg Except.ok List.map_reverse.symm
  | error c => rfl

end Renaming
end CliqueTree
