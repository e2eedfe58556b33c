import CliqueTree.Proofs.Ascending
import CliqueTree.Proofs.Chordal
import CliqueTree.Proofs.Table.Neighbours
import CliqueTree.Table.Extraction

/-!
# The cliques that are extracted

What a vertex collects is a maximal clique: a neighbour of the vertex that is left out misses a member, and
any other vertex misses the vertex itself (`maximalIds_greedyClique`). A perfect order has every complete
set inside one of its candidates, a vertex with its later neighbours (`exists_laterClique`). So a candidate
that lies in no longer one is a maximal clique, and every maximal clique is a candidate. The second pass keeps
those that lie in no clique found before, hence both passes together list each maximal clique once
(`missing_spec`).
-/

set_option autoImplicit false

namespace CliqueTree

namespace Rows
variable {r : Rows}

/-- A maximal clique of the rows as an ascending list. -/
def MaximalIds (r : Rows) (c : List Nat) : Prop :=
  IsAscending c ∧ IsMaximalClique r.Linked (List.range r.size) c

section Greedy

/-- Collecting keeps a complete list complete, and what it leaves out misses a member. -/
theorem foldl_collect_spec (symm : r.Symmetric) (row : List Nat) {clique : List Nat}
    (complete : Complete r.Linked clique) : Complete r.Linked (row.foldl r.collect clique) ∧
      (∀ a ∈ clique, a ∈ row.foldl r.collect clique) ∧ (∀ a ∈ row.foldl r.collect clique, a ∈ clique ∨ a ∈ row) ∧
      ∀ n ∈ row, n ∉ row.foldl r.collect clique → ∃ c ∈ row.foldl r.collect clique, ¬ r.Linked n c := by
  induction row generalizing clique with
  | nil => exact ⟨complete, fun _ h => h, fun _ h => .inl h, fun _ h => absurd h List.not_mem_nil⟩
  | cons n row ih =>
    rw [List.foldl_cons]
    by_cases fits : n ∉ clique ∧ ∀ c ∈ clique, c ∈ r.get n
    · rw [collect, if_pos fits]
      have mem : ∀ a, a ∈ clique ++ [n] ↔ a ∈ clique ∨ a = n := by simp
      have := symm.toSymm
      have complete : Complete r.Linked (clique ++ [n]) :=
        (complete.cons fits.2).mono fun a ha => List.mem_cons.2 ((mem a).1 ha).symm
      obtain ⟨all, kept, only, left⟩ := ih complete
      refine ⟨all, fun a ha => kept a ((mem a).2 (.inl ha)), fun a ha => ?_, fun m hm out => ?_⟩
      · rcases only a ha with old | later
        · refine ((mem a).1 old).imp_right fun equal => ?_
          rw [equal]
          exact List.mem_cons_self
        · exact .inr (List.mem_cons_of_mem n later)
      · rcases List.mem_cons.1 hm with rfl | later
        · exact absurd (kept m ((mem m).2 (.inr rfl))) out
        · exact left m later out
    · rw [collect, if_neg fits]
      obtain ⟨all, kept, only, left⟩ := ih complete
      refine ⟨all, kept, fun a ha => (only a ha).imp_right (List.mem_cons_of_mem n), fun m hm out => ?_⟩
      rcases List.mem_cons.1 hm with rfl | later
      · have misses : ¬ ∀ c ∈ clique, c ∈ r.get m := fun every => fits ⟨fun old => out (kept m old), every⟩
        obtain ⟨c, hc, apart⟩ : ∃ c ∈ clique, c ∉ r.get m := by
          simpa only [Classical.not_forall, exists_prop] using misses
        exact ⟨c, kept c hc, apart⟩
      · exact left m later out

/-- **Greedy cliques.** What a vertex collects from its neighbours is a maximal clique. -/
theorem maximalIds_greedyClique (symm : r.Symmetric) {seed : Nat} (hseed : seed < r.size) :
    r.MaximalIds (r.greedyClique seed) := by
  have alone : Complete r.Linked [seed] := by
    intro a ha b hb ne
    rw [List.mem_singleton.1 ha, List.mem_singleton.1 hb] at ne
    exact absurd rfl ne
  obtain ⟨complete, kept, only, left⟩ := foldl_collect_spec symm (r.get seed) alone
  have first := kept seed List.mem_cons_self
  refine ⟨isAscending_ascending _, IsMaximalClique.congr ?_ fun _ => mem_ascending.symm⟩
  refine ⟨List.ne_nil_of_mem first, fun a ha => ?_, complete, fun v _ out => ?_⟩
  · rcases only a ha with same | link
    · exact List.mem_range.2 (List.mem_singleton.1 same ▸ hseed)
    · exact List.mem_range.2 (symm.lt_size link)
  · by_cases link : v ∈ r.get seed
    · exact left v link out
    · exact ⟨seed, first, fun back => link (symm _ _ back)⟩

/-- The first pass succeeds on ids that have rows. -/
theorem greedy_eq (symm : r.Symmetric) {order : List Nat} (inside : ∀ v ∈ order, v < r.size) :
    r.greedy order = .ok (distinct (order.map r.greedyClique)) := by
  have closed : r.checkClosed order = .ok () :=
    checkClosed_eq_ok_iff.2 fun v hv => ⟨inside v hv, fun _ link => symm.lt_size link⟩
  rw [greedy, closed]
  rfl

theorem greedy_spec (symm : r.Symmetric) {order : List Nat} {found : List (List Nat)}
    (h : r.greedy order = .ok found) : found.Nodup ∧ ∀ c ∈ found, r.MaximalIds c := by
  unfold greedy at h
  cases closed : r.checkClosed order with
  | error e => rw [closed] at h; cases h
  | ok =>
    rw [closed] at h
    obtain rfl := Except.ok.inj h
    refine ⟨nodup_distinct _, fun c hc => ?_⟩
    obtain ⟨v, hv, rfl⟩ := List.mem_map.1 (mem_distinct.1 hc)
    exact maximalIds_greedyClique symm (checkClosed_eq_ok_iff.1 closed v hv).1

end Greedy

section Candidates
variable {order : List Nat}

theorem ne_of_mem_reverse {later : List Nat} {v : Nat} (fresh : v ∉ later) :
    ∀ x ∈ later.reverse, decide (x ≠ v) = true := by
  intro x hx
  rw [decide_eq_true_eq]
  rintro rfl
  exact fresh (List.mem_reverse.1 hx)

theorem after_eq {before later : List Nat} {v : Nat} (fresh : v ∉ later) :
    after (before ++ v :: later) v = later := by
  rw [after, List.reverse_append, List.reverse_cons, List.append_assoc,
    List.takeWhile_append_of_pos (ne_of_mem_reverse fresh)]
  simp

/-- A candidate is its vertex with the neighbours that come later. -/
theorem mem_laterClique {before later : List Nat} {v a : Nat} (nodup : (before ++ v :: later).Nodup) :
    a ∈ r.laterClique (before ++ v :: later) v ↔ a = v ∨ (r.Linked v a ∧ a ∈ later) := by
  have fresh : v ∉ later := (List.nodup_cons.1 (List.nodup_append.1 nodup).2.1).1
  rw [laterClique, mem_ascending, after_eq fresh, List.mem_append, List.mem_filter, List.mem_singleton,
    decide_eq_true_eq, or_comm]
  rfl

/-- In a perfect order the candidates are complete. -/
theorem complete_laterClique (symm : r.Symmetric) (nodup : order.Nodup) (perfect : PerfectOrder r.Linked order)
    {v : Nat} (hv : v ∈ order) :
    Complete r.Linked (r.laterClique order v) ∧ ∀ a ∈ r.laterClique order v, a ∈ order := by
  obtain ⟨before, later, rfl⟩ := List.append_of_mem hv
  constructor
  · intro a ha b hb ne
    rcases (mem_laterClique nodup).1 ha with rfl | ⟨va, ha⟩ <;>
      rcases (mem_laterClique nodup).1 hb with rfl | ⟨vb, hb⟩
    · exact absurd rfl ne
    · exact vb
    · exact symm _ _ va
    · exact perfect.later a ha b hb ne va vb
  · intro a ha
    rcases (mem_laterClique nodup).1 ha with rfl | ⟨_, ha⟩
    · exact hv
    · exact List.mem_append_right before (List.mem_cons_of_mem v ha)

/-- The first vertex of a complete set has the set inside its candidate. -/
theorem exists_laterClique (nodup : order.Nodup) {s : List Nat} (some : s ≠ []) (inside : ∀ a ∈ s, a ∈ order)
    (complete : Complete r.Linked s) : ∃ v ∈ order, ∀ a ∈ s, a ∈ r.laterClique order v := by
  obtain ⟨before, v, later, rfl, hv, first⟩ := exists_first some inside
  refine ⟨v, List.mem_append_right before List.mem_cons_self, fun a ha => (mem_laterClique nodup).2 ?_⟩
  by_cases same : a = v
  · exact .inl same
  · have place := (List.mem_append.1 (inside a ha)).resolve_left (first a ha)
    exact .inr ⟨complete v hv a ha (Ne.symm same), List.mem_of_ne_of_mem same place⟩

/-- A candidate that lies in no longer one is a maximal clique. -/
theorem maximalIds_laterClique (symm : r.Symmetric) (all : order.Perm (List.range r.size))
    (perfect : PerfectOrder r.Linked order) {v : Nat} (hv : v ∈ order)
    (longest : ∀ u ∈ order, (r.laterClique order v).length < (r.laterClique order u).length →
      ¬ ∀ a ∈ r.laterClique order v, a ∈ r.laterClique order u) :
    r.MaximalIds (r.laterClique order v) := by
  have nodup : order.Nodup := all.nodup_iff.2 List.nodup_range
  obtain ⟨complete, inside⟩ := complete_laterClique symm nodup perfect hv
  have self : v ∈ r.laterClique order v := by
    obtain ⟨before, later, rfl⟩ := List.append_of_mem hv
    exact (mem_laterClique nodup).2 (.inl rfl)
  have ascends : IsAscending (r.laterClique order v) := isAscending_ascending _
  refine ⟨ascends, List.ne_nil_of_mem self, fun a ha => all.mem_iff.1 (inside a ha), complete, fun u hu out => ?_⟩
  -- with a vertex that is linked to all of it, the set would lie in a longer candidate
  apply Classical.byContradiction
  intro none
  have linked : ∀ a ∈ r.laterClique order v, r.Linked u a := fun a ha =>
    Classical.byContradiction fun apart => none ⟨a, ha, apart⟩
  have := symm.toSymm
  obtain ⟨w, hw, within⟩ := exists_laterClique nodup (List.cons_ne_nil _ _)
    (List.forall_mem_cons.2 ⟨all.mem_iff.2 hu, inside⟩) (complete.cons linked)
  refine longest w hw ?_ fun a ha => within a (List.mem_cons_of_mem u ha)
  exact (List.nodup_cons.2 ⟨out, ascends.nodup⟩).length_le_of_subset within

/-- Every maximal clique is a candidate. -/
theorem MaximalIds.exists_eq_laterClique (symm : r.Symmetric) (all : order.Perm (List.range r.size))
    (perfect : PerfectOrder r.Linked order) {c : List Nat} (h : r.MaximalIds c) :
    ∃ v ∈ order, r.laterClique order v = c := by
  obtain ⟨ascends, maximal⟩ := h
  have nodup : order.Nodup := all.nodup_iff.2 List.nodup_range
  obtain ⟨v, hv, within⟩ := exists_laterClique nodup maximal.nonempty
    (fun a ha => all.mem_iff.2 (maximal.inside a ha)) maximal.complete
  obtain ⟨complete, inside⟩ := complete_laterClique symm nodup perfect hv
  have same := maximal.of_subset (fun a ha => all.mem_iff.1 (inside a ha)) complete within
  exact ⟨v, hv, (isAscending_ascending _).ext ascends fun a => (same a).symm⟩

/-- Of two maximal cliques neither lies inside the other. -/
theorem MaximalIds.eq_of_subset {c d : List Nat} (hc : r.MaximalIds c) (hd : r.MaximalIds d)
    (sub : ∀ a ∈ c, a ∈ d) : c = d :=
  hc.1.ext hd.1 (hc.2.of_subset hd.2.inside hd.2.complete sub)

end Candidates

section Missing
variable {candidates found rest : List (List Nat)}

/-- The candidate lies in no longer one. -/
def Longest (candidates : List (List Nat)) (c : List Nat) : Prop :=
  ∀ d ∈ candidates, c.length < d.length → ¬ isSubset c d = true

/-- What is kept lies in no longer candidate, and in nothing that was found or kept before. -/
theorem of_mem_keepMaximal {c : List Nat} (h : c ∈ keepMaximal candidates found rest) :
    c ∈ rest ∧ Longest candidates c ∧ ∀ d ∈ found, ¬ isSubset c d = true := by
  induction rest generalizing found with
  | nil => exact absurd h List.not_mem_nil
  | cons e rest ih =>
    rw [keepMaximal] at h
    split at h
    · obtain ⟨later, facts⟩ := ih h
      exact ⟨List.mem_cons_of_mem e later, facts⟩
    next fresh =>
      rcases List.mem_cons.1 h with rfl | h
      · rw [Bool.or_eq_true, not_or, List.any_eq_true, List.any_eq_true] at fresh
        obtain ⟨uncovered, longest⟩ := fresh
        refine ⟨List.mem_cons_self, fun d hd longer sub => longest ⟨d, hd, ?_⟩, fun d hd sub => uncovered ⟨d, hd, sub⟩⟩
        rw [Bool.and_eq_true, decide_eq_true_eq]
        exact ⟨longer, sub⟩
      · obtain ⟨later, longest, apart⟩ := ih h
        exact ⟨List.mem_cons_of_mem e later, longest, fun d hd => apart d (List.mem_append_left [e] hd)⟩

/-- A candidate that lies in no longer one lies in something that was found or kept. -/
theorem exists_keepMaximal {c : List Nat} (hc : c ∈ rest) (self : isSubset c c = true)
    (longest : Longest candidates c) :
    ∃ d ∈ found ++ keepMaximal candidates found rest, isSubset c d = true := by
  induction rest generalizing found with
  | nil => exact absurd hc List.not_mem_nil
  | cons e rest ih =>
    rw [keepMaximal]
    split
    next covered =>
      rcases List.mem_cons.1 hc with rfl | later
      · rw [Bool.or_eq_true, List.any_eq_true, List.any_eq_true] at covered
        rcases covered with ⟨d, hd, sub⟩ | ⟨d, hd, longer⟩
        · exact ⟨d, List.mem_append_left _ hd, sub⟩
        · rw [Bool.and_eq_true, decide_eq_true_eq] at longer
          exact absurd longer.2 (longest d hd longer.1)
      · exact ih later
    next =>
      rw [List.append_cons]
      rcases List.mem_cons.1 hc with rfl | later
      · exact ⟨c, List.mem_append_left _ (List.mem_append_right found List.mem_cons_self), self⟩
      · exact ih later

theorem nodup_keepMaximal (self : ∀ c ∈ rest, isSubset c c = true) :
    (keepMaximal candidates found rest).Nodup := by
  induction rest generalizing found with
  | nil => exact List.nodup_nil
  | cons e rest ih =>
    have tail : ∀ found, (keepMaximal candidates found rest).Nodup := fun _ =>
      ih fun c hc => self c (List.mem_cons_of_mem e hc)
    rw [keepMaximal]
    split
    · exact tail found
    next =>
      refine List.nodup_cons.2 ⟨fun again => ?_, tail _⟩
      exact (of_mem_keepMaximal again).2.2 e (List.mem_append_right found List.mem_cons_self)
        (self e List.mem_cons_self)

end Missing

section Completion
variable {order : List Nat}

theorem isAscending_laterClique (r : Rows) (order : List Nat) (v : Nat) : IsAscending (r.laterClique order v) :=
  isAscending_ascending _

theorem isSubset_laterClique (r : Rows) (order : List Nat) (v u : Nat) :
    isSubset (r.laterClique order v) (r.laterClique order u) = true ↔
      ∀ a ∈ r.laterClique order v, a ∈ r.laterClique order u :=
  isSubset_iff (r.isAscending_laterClique order v) (r.isAscending_laterClique order u)

/-- The candidates that lie in no longer one are the maximal cliques. -/
theorem maximalIds_iff_longest (symm : r.Symmetric) (all : order.Perm (List.range r.size))
    (perfect : PerfectOrder r.Linked order) {v : Nat} (hv : v ∈ order) :
    r.MaximalIds (r.laterClique order v) ↔ Longest (order.map (r.laterClique order)) (r.laterClique order v) := by
  constructor
  · intro maximal d hd longer sub
    obtain ⟨u, hu, rfl⟩ := List.mem_map.1 hd
    obtain ⟨complete, inside⟩ := complete_laterClique symm (all.nodup_iff.2 List.nodup_range) perfect hu
    have same := maximal.2.of_subset (fun a ha => all.mem_iff.1 (inside a ha)) complete
      ((r.isSubset_laterClique order v u).1 sub)
    rw [maximal.1.ext (r.isAscending_laterClique order u) same] at longer
    exact Nat.lt_irrefl _ longer
  · intro longest
    refine maximalIds_laterClique symm all perfect hv fun u hu longer sub => ?_
    exact longest _ (List.mem_map_of_mem hu) longer ((r.isSubset_laterClique order v u).2 sub)

/-- Of the candidates of a perfect order, listed in any way, those are kept that are maximal cliques and were not found,
each once. -/
theorem keepMaximal_spec (symm : r.Symmetric) (all : order.Perm (List.range r.size))
    (perfect : PerfectOrder r.Linked order) {candidates found : List (List Nat)}
    (listed : ∀ c, c ∈ candidates ↔ c ∈ order.map (r.laterClique order)) (maximal : ∀ c ∈ found, r.MaximalIds c) :
    (keepMaximal candidates found candidates).Nodup ∧ (∀ c ∈ keepMaximal candidates found candidates, c ∉ found) ∧
      ∀ c, c ∈ found ++ keepMaximal candidates found candidates ↔ r.MaximalIds c := by
  have self : ∀ c ∈ candidates, isSubset c c = true := by
    intro c hc
    obtain ⟨v, _, rfl⟩ := List.mem_map.1 ((listed c).1 hc)
    exact (r.isSubset_laterClique order v v).2 fun _ h => h
  have longest_iff : ∀ v ∈ order, r.MaximalIds (r.laterClique order v) ↔ Longest candidates (r.laterClique order v) := by
    intro v hv
    simp only [maximalIds_iff_longest symm all perfect hv, Longest, listed]
  have known : ∀ c ∈ found ++ keepMaximal candidates found candidates, r.MaximalIds c := by
    intro c hc
    rcases List.mem_append.1 hc with old | new
    · exact maximal c old
    · obtain ⟨member, longest, _⟩ := of_mem_keepMaximal new
      obtain ⟨v, hv, rfl⟩ := List.mem_map.1 ((listed c).1 member)
      exact (longest_iff v hv).2 longest
  refine ⟨nodup_keepMaximal self, fun c new old => ?_, fun c => ⟨known c, fun hc => ?_⟩⟩
  · obtain ⟨member, _, apart⟩ := of_mem_keepMaximal new
    exact apart c old (self c member)
  · obtain ⟨v, hv, rfl⟩ := hc.exists_eq_laterClique symm all perfect
    have member : r.laterClique order v ∈ candidates := (listed _).2 (List.mem_map_of_mem hv)
    obtain ⟨d, hd, sub⟩ : ∃ d ∈ found ++ keepMaximal candidates found candidates,
        isSubset (r.laterClique order v) d = true := exists_keepMaximal member (self _ member) ((longest_iff v hv).1 hc)
    rwa [hc.eq_of_subset (known d hd) ((isSubset_iff hc.1 (known d hd).1).1 sub)]

/-- The second pass succeeds on ids that have rows. -/
theorem missing_eq (inside : ∀ v ∈ order, v < r.size) (found : List (List Nat)) : r.missing order found =
    .ok (keepMaximal (order.map (r.laterClique order)) found (order.map (r.laterClique order))) := by
  rw [missing, checkRows_eq_ok_iff.2 inside]
  rfl

/-- **Completion.** When the first pass has found maximal cliques, each once, the second one adds all others,
each once. -/
theorem missing_spec (symm : r.Symmetric) (all : order.Perm (List.range r.size))
    (perfect : PerfectOrder r.Linked order) {found : List (List Nat)} (nodup : found.Nodup)
    (maximal : ∀ c ∈ found, r.MaximalIds c) :
    ∃ rest, r.missing order found = .ok rest ∧ (found ++ rest).Nodup ∧
      ∀ c, c ∈ found ++ rest ↔ r.MaximalIds c := by
  obtain ⟨once, new, mem_iff⟩ := keepMaximal_spec symm all perfect (fun _ => Iff.rfl) maximal
  refine ⟨_, missing_eq (fun v hv => List.mem_range.1 (all.mem_iff.1 hv)) found, ?_, mem_iff⟩
  exact List.nodup_append.2 ⟨nodup, once, fun c old _ hd same => new _ hd (same ▸ old)⟩

end Completion
end Rows
end CliqueTree
