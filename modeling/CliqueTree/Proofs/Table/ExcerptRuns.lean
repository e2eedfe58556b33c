import CliqueTree.Proofs.Table.Excerpt

/-!
# Runs on excerpts

A run on rows and the same run on an excerpt of them go together. Whatever joins two ids of one row joins two that are
kept or two that are not; in the first case the excerpt is given the same link under the new numbers, in the second case
nothing (`Growth.Excerpt`). So the excerpt of the moral graph is the moral graph of the excerpt
(`Rows.moralEdges_filterMap`), and it is filled in alike (`Growth.Excerpt.eliminate`). A clique that is listed is kept
as a whole or left out as a whole, and one that is left out covers none that is kept; hence the excerpt lists the
cliques that are kept, in their order (`Rows.Excerpt.chordalIds_eq`).
-/

set_option autoImplicit false

namespace CliqueTree
variable {part : Nat → Option Nat}

/-! ### Links -/

namespace Rows.Excerpt
variable {r t : Rows}

/-- Of two ids in one row both are kept or none. -/
theorem unmixed_of_mem_pairs (h : Excerpt part r t) {v : Nat} {p : Edge} (hp : p ∈ pairs (r.get v)) :
    Unmixed part p := by
  obtain ⟨first, second⟩ := mem_of_mem_pairs hp
  exact (h.unmixed v p.1 first).symm.trans (h.unmixed v p.2 second)

/-- Nothing is kept of the row of an id that is left out. -/
theorem filterMap_eq_nil (h : Excerpt part r t) {v : Nat} (hv : part v = none) : (r.get v).filterMap part = [] :=
  List.filterMap_eq_nil_iff.2 fun _ hx => h.eq_none_of_mem hv hx

end Rows.Excerpt

namespace Growth

/-- The rows go together, and what one run is given is the excerpt of what the other is given. -/
structure Excerpt (part : Nat → Option Nat) (s t : Growth Rows) : Prop where
  rows : Rows.Excerpt part s.graph t.graph
  added : t.added.toList = s.added.toList.filterMap (both part)
  unmixed : ∀ e ∈ s.added.toList, Unmixed part e

variable {s t : Growth Rows} {r r' : Rows} {p q : Edge} {n m v w : Nat}

namespace Excerpt

theorem start (rows : Rows.Excerpt part r r') : Excerpt part ⟨r, #[]⟩ ⟨r', #[]⟩ :=
  ⟨rows, rfl, fun _ he => nomatch he⟩

/-- A link between ids that are kept is given to both, unless both have no use for it. -/
theorem unless_own {A B : Prop} [Decidable A] [Decidable B] (h : Excerpt part s t) (hp : both part p = some q)
    (same : B ↔ A) (rows : Rows.Excerpt part r r') :
    Excerpt part (if A then s else ⟨r, s.added.push p⟩) (if B then t else ⟨r', t.added.push q⟩) := by
  by_cases idle : A
  · rwa [if_pos idle, if_pos (same.2 idle)]
  · rw [if_neg idle, if_neg (mt same.1 idle)]
    obtain ⟨first, second⟩ := both_eq_some_iff.1 hp
    have unmixed : Unmixed part p := by rw [Unmixed, first, second, Option.isSome_some, Option.isSome_some]
    refine ⟨rows, ?_, ?_⟩
    · rw [Array.toList_push, Array.toList_push, List.filterMap_append, ← h.added, List.filterMap_cons_some hp,
        List.filterMap_nil]
    · rw [Array.toList_push]
      exact List.forall_mem_append.2 ⟨h.unmixed, List.forall_mem_singleton.2 unmixed⟩

/-- A link between other ids leaves the excerpt alone. -/
theorem unless_other {A : Prop} [Decidable A] (h : Excerpt part s t) (unmixed : Unmixed part p)
    (hp : both part p = none) (rows : Rows.Excerpt part r t.graph) :
    Excerpt part (if A then s else ⟨r, s.added.push p⟩) t := by
  by_cases idle : A
  · rwa [if_pos idle]
  · rw [if_neg idle]
    refine ⟨rows, ?_, ?_⟩
    · rw [Array.toList_push, List.filterMap_append, ← h.added, List.filterMap_cons_none hp, List.filterMap_nil,
        List.append_nil]
    · rw [Array.toList_push]
      exact List.forall_mem_append.2 ⟨h.unmixed, List.forall_mem_singleton.2 unmixed⟩

/-- The ends of a pair are one when the ends of its excerpt are. -/
theorem ends_eq_iff (h : Excerpt part s t) (hp : both part p = some q) : q.1 = q.2 ↔ p.1 = p.2 := by
  obtain ⟨first, second⟩ := both_eq_some_iff.1 hp
  constructor
  · intro same
    exact h.rows.renumbers.inj first (same ▸ second)
  · intro same
    exact Option.some.inj (first.symm.trans (same ▸ second))

/-! ### The game -/

theorem fillPair_own (h : Excerpt part s t) (hp : both part p = some q) :
    Excerpt part (s.fillPair p) (t.fillPair q) := by
  obtain ⟨first, second⟩ := both_eq_some_iff.1 hp
  have settled : t.Settled q ↔ s.Settled p := or_congr (h.ends_eq_iff hp) (h.rows.mem_iff first second)
  exact h.unless_own hp settled (h.rows.link_own first second)

theorem fillPair_other (h : Excerpt part s t) (unmixed : Unmixed part p) (hp : both part p = none) :
    Excerpt part (s.fillPair p) t := by
  obtain ⟨first, second⟩ := unmixed.eq_none hp
  exact h.unless_other unmixed hp (h.rows.link_other first second)

theorem fillAmong (h : Excerpt part s t) {l : List Nat} (unmixed : ∀ p ∈ pairs l, Unmixed part p) :
    Excerpt part (s.fillAmong l) (t.fillAmong (l.filterMap part)) := by
  rw [Growth.fillAmong, Growth.fillAmong, pairs_filterMap]
  exact foldl_filterMap (f := both part) (R := Excerpt part) (pairs l) (fun _ _ _ _ _ hp h => h.fillPair_own hp)
    (fun _ _ p hp out h => h.fillPair_other (unmixed p hp) out) h

/-- The excerpt is filled in as the rows are filled in. -/
theorem eliminate (h : Excerpt part s t) (gone order : List Nat) :
    Excerpt part (s.eliminate gone order) (t.eliminate (gone.filterMap part) (order.filterMap part)) := by
  induction order generalizing gone s t with
  | nil => exact h
  | cons v order ih =>
    let row := (s.graph.get v).filter (· ∉ v :: gone)
    have unmixed : ∀ p ∈ pairs row, Unmixed part p := by
      intro p hp
      rw [pairs_filter] at hp
      exact h.rows.unmixed_of_mem_pairs (List.mem_filter.1 hp).1
    have next := h.fillAmong unmixed
    cases kept : part v with
    | none =>
      have none : row.filterMap part = [] := by
        refine List.filterMap_eq_nil_iff.2 fun x hx => ?_
        exact h.rows.eq_none_of_mem kept (List.mem_filter.1 hx).1
      rw [none] at next
      have later := ih next (v :: gone)
      rw [List.filterMap_cons_none kept] at later ⊢
      exact later
    | some w =>
      have same : (t.graph.get w).filter (· ∉ w :: gone.filterMap part) = row.filterMap part := by
        rw [h.rows.get kept, ← List.filterMap_cons_some kept]
        refine filter_filterMap_comm fun x _ y hy => ?_
        rw [decide_eq_decide, not_iff_not]
        exact h.rows.renumbers.mem_filterMap hy
      have later := ih next (v :: gone)
      rw [List.filterMap_cons_some kept] at later ⊢
      rw [← same] at later
      exact later

/-! ### Marriages -/

theorem joinPair_own (h : Excerpt part s t) (hp : both part p = some q) :
    Excerpt part (s.joinPair p) (t.joinPair q) := by
  obtain ⟨first, second⟩ := both_eq_some_iff.1 hp
  have married : t.Married q ↔ s.Married p :=
    or_congr (h.ends_eq_iff hp) (or_congr (h.rows.mem_iff second first) (h.rows.mem_iff first second))
  exact h.unless_own hp married (h.rows.add_own second first)

theorem joinPair_other (h : Excerpt part s t) (unmixed : Unmixed part p) (hp : both part p = none) :
    Excerpt part (s.joinPair p) t := by
  obtain ⟨first, second⟩ := unmixed.eq_none hp
  exact h.unless_other unmixed hp (h.rows.add_other second first)

/-- What is joined among the parents of `v` is joined in the excerpt, if it is kept. -/
theorem foldl_joinPair (h : Excerpt part s t) (v : Nat) : Excerpt part (s.joinParents v)
    (((pairs (s.graph.get v)).filterMap (both part)).foldl Growth.joinPair t) :=
  foldl_filterMap (f := both part) (R := Excerpt part) (pairs (s.graph.get v)) (fun _ _ _ _ _ hp h => h.joinPair_own hp)
    (fun _ _ _ hp out h' => h'.joinPair_other (h.rows.unmixed_of_mem_pairs hp) out) h

theorem joinParents_own (h : Excerpt part s t) (hv : part v = some w) :
    Excerpt part (s.joinParents v) (t.joinParents w) := by
  have joined := h.foldl_joinPair v
  rwa [← pairs_filterMap, ← h.rows.get hv] at joined

theorem joinParents_other (h : Excerpt part s t) (hv : part v = none) : Excerpt part (s.joinParents v) t := by
  have joined := h.foldl_joinPair v
  rwa [← pairs_filterMap, h.rows.filterMap_eq_nil hv] at joined

theorem foldl_joinParents (h : Excerpt part s t) (order : List Nat) : Excerpt part
    (order.foldl Growth.joinParents s) ((order.filterMap part).foldl Growth.joinParents t) :=
  foldl_filterMap (f := part) (R := Excerpt part) order (fun _ _ _ _ _ hw h => h.joinParents_own hw)
    (fun _ _ _ _ out h => h.joinParents_other out) h

end Excerpt
end Growth

namespace Rows
variable {r t : Rows} {n m v w : Nat} {es : List Edge}

/-- The moral graph of an excerpt is the excerpt of the moral graph. -/
theorem moralEdges_filterMap (renumbers : Renumbers part) (inside : ∀ {i j}, part i = some j → i < n ∧ j < m)
    (ids : (List.range n).filterMap part = List.range m) (unmixed : ∀ e ∈ es, Unmixed part e) :
    moralEdges m (es.filterMap (both part)) = (moralEdges n es).filterMap (both part) ∧
      ∀ e ∈ moralEdges n es, Unmixed part e := by
  have start : Growth.Excerpt part _ _ := .start (excerpt_parentsOf renumbers inside unmixed)
  have married := start.foldl_joinParents (List.range n)
  rw [ids] at married
  constructor
  · rw [moralEdges, moralEdges, List.filterMap_append]
    exact congrArg (es.filterMap (both part) ++ ·) married.added
  · exact List.forall_mem_append.2 ⟨unmixed, married.unmixed⟩

/-! ### Cliques -/

/-- An ascending list of ids of which all are kept or none. -/
structure Whole (part : Nat → Option Nat) (c : List Nat) : Prop where
  ascends : IsAscending c
  unmixed : ∀ x ∈ c, ∀ y ∈ c, Unmixed part (x, y)

/-- What is left of a list of ids, if anything is. -/
def leftOf (part : Nat → Option Nat) (c : List Nat) : Option (List Nat) :=
  if c.filterMap part = [] then none else some (c.filterMap part)

section Whole
variable {c d c' d' : List Nat}

theorem leftOf_eq_none_iff : leftOf part c = none ↔ ∀ x ∈ c, part x = none := by
  rw [leftOf, ← List.filterMap_eq_nil_iff]
  split <;> simp [*]

theorem leftOf_eq_some (h : leftOf part c = some c') : c.filterMap part = c' ∧ c' ≠ [] := by
  unfold leftOf at h
  split at h
  next => cases h
  next some =>
    obtain rfl := Option.some.inj h
    exact ⟨rfl, some⟩

namespace Whole

/-- Nothing is left out of a list of which something is left. -/
theorem isSome_of_mem (h : Whole part c) (left : leftOf part c = some c') {x : Nat} (hx : x ∈ c) :
    ∃ y, part x = some y := by
  obtain ⟨rfl, some⟩ := leftOf_eq_some left
  obtain ⟨z, hz⟩ := List.exists_mem_of_ne_nil _ some
  obtain ⟨y, hy, kept⟩ := List.mem_filterMap.1 hz
  have both : Unmixed part (y, x) := h.unmixed y hy x hx
  rw [Unmixed, kept] at both
  exact Option.isSome_iff_exists.1 both.symm

theorem length_eq (h : Whole part c) (left : leftOf part c = some c') : c'.length = c.length := by
  rw [← (leftOf_eq_some left).1, List.filterMap_length_eq_length]
  exact fun x hx => Option.isSome_iff_exists.2 (h.isSome_of_mem left hx)

/-- What covers something that is kept is kept. -/
theorem exists_leftOf (left : leftOf part c = some c') (sub : ∀ x ∈ c, x ∈ d) :
    ∃ d', leftOf part d = some d' := by
  obtain ⟨rfl, some⟩ := leftOf_eq_some left
  rw [← Option.ne_none_iff_exists', Ne, leftOf_eq_none_iff]
  obtain ⟨z, hz⟩ := List.exists_mem_of_ne_nil _ some
  obtain ⟨y, hy, kept⟩ := List.mem_filterMap.1 hz
  exact fun none => nomatch kept.symm.trans (none y (sub y hy))

theorem isSubset_eq (renumbers : Renumbers part) (hc : Whole part c) (hd : Whole part d)
    (left : leftOf part c = some c') (left' : leftOf part d = some d') : isSubset c' d' = isSubset c d := by
  have kept : ∀ x ∈ c, ∃ y, part x = some y := fun x hx => hc.isSome_of_mem left hx
  obtain ⟨rfl, _⟩ := leftOf_eq_some left
  obtain ⟨rfl, _⟩ := leftOf_eq_some left'
  rw [Bool.eq_iff_iff, isSubset_iff hc.ascends hd.ascends,
    isSubset_iff (renumbers.isAscending hc.ascends) (renumbers.isAscending hd.ascends)]
  constructor
  · intro sub x hx
    obtain ⟨y, hy⟩ := kept x hx
    exact (renumbers.mem_filterMap hy).1 (sub y (List.mem_filterMap.2 ⟨x, hx, hy⟩))
  · intro sub y hy
    obtain ⟨x, hx, kept⟩ := List.mem_filterMap.1 hy
    exact List.mem_filterMap.2 ⟨x, sub x hx, kept⟩

/-- Something that passes a test covers a list that is kept in the excerpt as it does in the whole. -/
theorem any_eq (renumbers : Renumbers part) (hc : Whole part c) (left : leftOf part c = some c')
    {ds : List (List Nat)} (whole : ∀ d ∈ ds, Whole part d) (test test' : List Nat → Bool)
    (agree : ∀ d ∈ ds, ∀ d', leftOf part d = some d' → test' d' = test d) :
    (ds.filterMap (leftOf part)).any (fun d' => test' d' && isSubset c' d') =
      ds.any fun d => test d && isSubset c d := by
  rw [Bool.eq_iff_iff, List.any_eq_true, List.any_eq_true]
  constructor
  · rintro ⟨d', hd', covers⟩
    obtain ⟨d, hd, left'⟩ := List.mem_filterMap.1 hd'
    rw [agree d hd d' left', hc.isSubset_eq renumbers (whole d hd) left left'] at covers
    exact ⟨d, hd, covers⟩
  · rintro ⟨d, hd, covers⟩
    have sub := (isSubset_iff hc.ascends (whole d hd).ascends).1 (Bool.and_eq_true_iff.1 covers).2
    obtain ⟨d', left'⟩ := exists_leftOf left sub
    refine ⟨d', List.mem_filterMap.2 ⟨d, hd, left'⟩, ?_⟩
    rwa [agree d hd d' left', hc.isSubset_eq renumbers (whole d hd) left left']

end Whole

theorem distinguishes_leftOf (renumbers : Renumbers part) {cs : List (List Nat)} (whole : ∀ c ∈ cs, Whole part c) :
    Distinguishes (leftOf part) cs := by
  have sub : ∀ c ∈ cs, ∀ d ∈ cs, ∀ e, leftOf part c = some e → leftOf part d = some e → ∀ x ∈ c, x ∈ d := by
    intro c hc d hd e left left'
    have both := (whole c hc).isSubset_eq renumbers (whole d hd) left left'
    have itself := (whole d hd).isSubset_eq renumbers (whole d hd) left' left'
    rw [itself] at both
    refine (isSubset_iff (whole c hc).ascends (whole d hd).ascends).1 (both.symm.trans ?_)
    exact (isSubset_iff (whole d hd).ascends (whole d hd).ascends).2 fun _ hx => hx
  intro c hc d hd e left left'
  refine (whole c hc).ascends.ext (whole d hd).ascends fun x => ⟨?_, ?_⟩
  · exact sub c hc d hd e left left' x
  · exact sub d hd c hc e left' left x

theorem keepMaximal_subset {candidates found rest : List (List Nat)} :
    keepMaximal candidates found rest ⊆ rest := fun _ h => (of_mem_keepMaximal h).1

/-- What the excerpt keeps of its candidates is left of what is kept. -/
theorem keepMaximal_filterMap (renumbers : Renumbers part) {candidates found rest : List (List Nat)}
    (all : ∀ c ∈ candidates, Whole part c) (old : ∀ c ∈ found, Whole part c) (new : ∀ c ∈ rest, Whole part c) :
    keepMaximal (candidates.filterMap (leftOf part)) (found.filterMap (leftOf part)) (rest.filterMap (leftOf part)) =
      (keepMaximal candidates found rest).filterMap (leftOf part) := by
  induction rest generalizing found with
  | nil => rfl
  | cons c rest ih =>
    have whole := new c List.mem_cons_self
    have later : ∀ d ∈ rest, Whole part d := fun d hd => new d (List.mem_cons_of_mem c hd)
    have grown : ∀ d ∈ found ++ [c], Whole part d :=
      List.forall_mem_append.2 ⟨old, List.forall_mem_singleton.2 whole⟩
    have next := ih grown later
    rw [List.filterMap_append] at next
    cases left : leftOf part c with
    | none =>
      rw [List.filterMap_cons_none left, List.filterMap_nil, List.append_nil] at next
      rw [List.filterMap_cons_none left, keepMaximal]
      split
      · exact ih old later
      · rw [List.filterMap_cons_none left]
        exact next
    | some c' =>
      have covered := whole.any_eq renumbers left old (fun _ => true) (fun _ => true) fun _ _ _ _ => rfl
      have longer := whole.any_eq renumbers left all (c.length < ·.length) (c'.length < ·.length)
        fun d hd d' left' => by rw [whole.length_eq left, (all d hd).length_eq left']
      simp only [Bool.true_and] at covered
      rw [List.filterMap_cons_some left, List.filterMap_nil] at next
      rw [List.filterMap_cons_some left, keepMaximal, keepMaximal, covered, longer]
      split
      · exact ih old later
      · rw [List.filterMap_cons_some left, next]

end Whole

section Listing

/-- What is collected is taken from the row. -/
theorem foldl_collect_subset (row : List Nat) {clique : List Nat} {x : Nat} (hx : x ∈ row.foldl r.collect clique) :
    x ∈ clique ∨ x ∈ row := by
  induction row generalizing clique with
  | nil => exact .inl hx
  | cons n row ih =>
    rcases ih hx with old | later
    · rw [collect] at old
      split at old
      · rcases List.mem_append.1 old with old | new
        · exact .inl old
        · exact .inr (List.mem_singleton.1 new ▸ List.mem_cons_self)
      · exact .inl old
    · exact .inr (List.mem_cons_of_mem n later)

theorem mem_of_mem_greedyClique {x : Nat} (hx : x ∈ r.greedyClique v) : x = v ∨ x ∈ r.get v :=
  (foldl_collect_subset _ (mem_ascending.1 hx)).imp_left List.mem_singleton.1

theorem mem_of_mem_laterClique {order : List Nat} {x : Nat} (hx : x ∈ r.laterClique order v) : x = v ∨ x ∈ r.get v := by
  rcases List.mem_append.1 (mem_ascending.1 hx) with named | own
  · exact .inr (List.mem_filter.1 named).1
  · exact .inl (List.mem_singleton.1 own)

theorem after_filterMap (renumbers : Renumbers part) (hv : part v = some w) (order : List Nat) :
    after (order.filterMap part) w = (after order v).filterMap part := by
  have stop : (fun x => Option.all (· ≠ w) (part x)) = fun x => decide (x ≠ v) := by
    funext x
    cases kept : part x with
    | none =>
      have ne : x ≠ v := by
        rintro rfl
        exact nomatch kept.symm.trans hv
      simp [ne]
    | some y =>
      have same : y = w ↔ x = v := by
        constructor
        · rintro rfl
          exact renumbers.inj kept hv
        · rintro rfl
          exact Option.some.inj (kept.symm.trans hv)
      simp [same]
  rw [after, after, ← List.filterMap_reverse, List.takeWhile_filterMap, stop, List.filterMap_reverse]

namespace Excerpt

/-- What a vertex has around it is kept or left out with it. -/
theorem whole (h : Excerpt part r t) {c : List Nat} (ascends : IsAscending c) (near : ∀ x ∈ c, x = v ∨ x ∈ r.get v) :
    Whole part c := by
  have alike : ∀ x ∈ c, (part v).isSome = (part x).isSome := by
    intro x hx
    rcases near x hx with rfl | named
    · rfl
    · exact h.unmixed v x named
  exact ⟨ascends, fun x hx y hy => (alike x hx).symm.trans (alike y hy)⟩

theorem leftOf_eq (h : Excerpt part r t) {c : List Nat} (near : ∀ x ∈ c, x = v ∨ x ∈ r.get v) (own : v ∈ c)
    {f : Nat → List Nat} (same : ∀ w, part v = some w → f w = c.filterMap part) : leftOf part c = (part v).map f := by
  cases kept : part v with
  | none =>
    refine leftOf_eq_none_iff.2 fun x hx => ?_
    rcases near x hx with rfl | named
    · exact kept
    · exact h.eq_none_of_mem kept named
  | some w =>
    have some : c.filterMap part ≠ [] := List.ne_nil_of_mem (List.mem_filterMap.2 ⟨v, own, kept⟩)
    rw [leftOf, if_neg some, Option.map_some, same w kept]

theorem collect_own (h : Excerpt part r t) {clique : List Nat} (kept : ∀ c ∈ clique, ∃ c', part c = some c')
    {n n' : Nat} (hn : part n = some n') :
    t.collect (clique.filterMap part) n' = (r.collect clique n).filterMap part := by
  have fits : (∀ c' ∈ clique.filterMap part, c' ∈ t.get n') ↔ ∀ c ∈ clique, c ∈ r.get n := by
    constructor
    · intro all c hc
      obtain ⟨c', hc'⟩ := kept c hc
      exact (h.mem_iff hn hc').1 (all c' (List.mem_filterMap.2 ⟨c, hc, hc'⟩))
    · intro all c' hc'
      obtain ⟨c, hc, kept⟩ := List.mem_filterMap.1 hc'
      exact (h.mem_iff hn kept).2 (all c hc)
  simp only [collect, h.renumbers.mem_filterMap hn, fits, apply_ite (List.filterMap part), List.filterMap_append,
    List.filterMap_cons_some hn, List.filterMap_nil]

theorem greedyClique_own (h : Excerpt part r t) (hv : part v = some w) :
    t.greedyClique w = (r.greedyClique v).filterMap part := by
  let Collected (clique clique' : List Nat) : Prop :=
    clique' = clique.filterMap part ∧ ∀ c ∈ clique, ∃ c', part c = some c'
  have start : Collected [v] [w] := by
    refine ⟨by rw [List.filterMap_cons_some hv, List.filterMap_nil], fun c hc => ?_⟩
    rw [List.mem_singleton.1 hc]
    exact ⟨w, hv⟩
  have collected : Collected ((r.get v).foldl r.collect [v]) (((r.get v).filterMap part).foldl t.collect [w]) := by
    refine foldl_filterMap (R := Collected) (r.get v) ?_ (fun _ _ n hn out _ => ?_) start
    · rintro clique _ n _ n' kept ⟨rfl, own⟩
      refine ⟨h.collect_own own kept, fun c hc => ?_⟩
      have grown : c ∈ [n].foldl r.collect clique := hc
      rcases foldl_collect_subset [n] grown with old | new
      · exact own c old
      · rw [List.mem_singleton.1 new]
        exact ⟨n', kept⟩
    · obtain ⟨y, hy⟩ := h.isSome_of_mem hv hn
      exact nomatch out.symm.trans hy
  rw [greedyClique, h.get hv, collected.1, h.renumbers.ascending_filterMap, greedyClique]

theorem laterClique_own (h : Excerpt part r t) (hv : part v = some w) (order : List Nat) :
    t.laterClique (order.filterMap part) w = (r.laterClique order v).filterMap part := by
  have named : ((r.get v).filterMap part).filter (· ∈ (after order v).filterMap part) =
      ((r.get v).filter (· ∈ after order v)).filterMap part := by
    refine filter_filterMap_comm fun x _ y hy => ?_
    rw [decide_eq_decide]
    exact h.renumbers.mem_filterMap hy
  rw [laterClique, h.get hv, after_filterMap h.renumbers hv, named, laterClique, ← h.renumbers.ascending_filterMap,
    List.filterMap_append, List.filterMap_cons_some hv, List.filterMap_nil]

theorem leftOf_greedyClique (h : Excerpt part r t) (v : Nat) :
    leftOf part (r.greedyClique v) = (part v).map t.greedyClique := by
  refine h.leftOf_eq (fun x hx => mem_of_mem_greedyClique hx) ?_ fun w hw => h.greedyClique_own hw
  have grows : ∀ (row clique : List Nat), clique ⊆ row.foldl r.collect clique := by
    intro row
    induction row with
    | nil => exact fun _ _ hx => hx
    | cons n row ih =>
      intro clique x hx
      refine ih _ ?_
      rw [collect]
      split
      · exact List.mem_append_left [n] hx
      · exact hx
  exact mem_ascending.2 (grows _ _ List.mem_cons_self)

theorem leftOf_laterClique (h : Excerpt part r t) (order : List Nat) (v : Nat) :
    leftOf part (r.laterClique order v) = (part v).map (t.laterClique (order.filterMap part)) := by
  refine h.leftOf_eq (fun x hx => mem_of_mem_laterClique hx) ?_ fun w hw => h.laterClique_own hw order
  exact mem_ascending.2 (List.mem_append_right _ List.mem_cons_self)

/-- The excerpt lists what is left of the cliques that are listed, and each of them is left as a whole or not at all. -/
theorem cliqueIds_eq (h : Excerpt part r t) (elimination seeds : List Nat) :
    t.cliqueIds (elimination.filterMap part) (seeds.filterMap part) =
        (r.cliqueIds elimination seeds).filterMap (leftOf part) ∧
      ∀ c ∈ r.cliqueIds elimination seeds, Whole part c := by
  have listed : ∀ (l : List Nat) (f f' : Nat → List Nat), (∀ v, leftOf part (f v) = (part v).map f') →
      (l.filterMap part).map f' = (l.map f).filterMap (leftOf part) := by
    intro l f f' same
    rw [List.map_filterMap, List.filterMap_map]
    exact congrArg (List.filterMap · l) (funext fun v => (same v).symm)
  have greedy : ∀ c ∈ seeds.map r.greedyClique, Whole part c := by
    intro c hc
    obtain ⟨v, _, rfl⟩ := List.mem_map.1 hc
    exact h.whole (isAscending_ascending _) fun x hx => mem_of_mem_greedyClique hx
  have later : ∀ c ∈ elimination.map (r.laterClique elimination), Whole part c := by
    intro c hc
    obtain ⟨v, _, rfl⟩ := List.mem_map.1 hc
    exact h.whole (isAscending_ascending _) fun x hx => mem_of_mem_laterClique hx
  have found : ∀ c ∈ distinct (seeds.map r.greedyClique), Whole part c := fun c hc => greedy c (mem_distinct.1 hc)
  constructor
  · simp only [cliqueIds]
    rw [listed seeds _ _ h.leftOf_greedyClique, listed elimination _ _ (h.leftOf_laterClique elimination),
      distinct_filterMap (distinguishes_leftOf h.renumbers greedy), keepMaximal_filterMap h.renumbers later found later,
      List.filterMap_append]
  · exact List.forall_mem_append.2 ⟨found, fun c hc => later c (keepMaximal_subset hc)⟩

/-- The excerpt, filled in, lists what is left of the cliques of the rows, filled in. -/
theorem chordalIds_eq (h : Excerpt part r t) (order : List Nat) :
    t.chordalIds (order.filterMap part) = (r.chordalIds order).filterMap (leftOf part) ∧
      ∀ c ∈ r.chordalIds order, Whole part c :=
  ((Growth.Excerpt.start h).eliminate [] order).rows.cliqueIds_eq order order

end Excerpt
end Listing
end Rows
end CliqueTree
