import CliqueTree.Proofs.Forest
import CliqueTree.Table.Growth

/-!
# Rows of neighbours

In the rows of an undirected graph every neighbour names back (`Rows.Symmetric`), and so has a row itself.
Links between ids that have rows keep it that way. `Grown` compares the rows before and after links were
added: nothing is taken away, and what is new satisfies a given condition.
-/

set_option autoImplicit false

namespace CliqueTree
namespace Rows

/-- The row of `u` names `v`. -/
def Linked (r : Rows) (u v : Nat) : Prop := v ∈ r.get u

instance (r : Rows) : DecidableRel r.Linked := fun u v => inferInstanceAs (Decidable (v ∈ r.get u))

/-- Every entry names back. -/
def Symmetric (r : Rows) : Prop := ∀ u v, r.Linked u v → r.Linked v u

variable {r s t : Rows} {u v w x : Nat}

theorem Linked.lt_size (h : r.Linked u v) : u < r.size := by
  apply Nat.lt_of_not_le
  intro past
  rw [Linked, get_eq_nil_of_le past] at h
  exact List.not_mem_nil h

theorem Symmetric.lt_size (symm : r.Symmetric) (h : r.Linked u v) : v < r.size := (symm u v h).lt_size

theorem Symmetric.toSymm (symm : r.Symmetric) : Std.Symm r.Linked := ⟨symm⟩

theorem symmetric_blank (n : Nat) : (blank n).Symmetric := by
  intro u v h
  simp [Linked] at h

theorem linked_add (hu : u < r.size) : (r.add u v).Linked w x ↔ r.Linked w x ∨ (w = u ∧ x = v) := by
  unfold Linked
  rw [get_add]
  by_cases hw : u = w
  · subst hw
    simp [hu]
  · simp [hw, Ne.symm hw]

/-- A link between two ids makes each a neighbour of the other. -/
theorem linked_link (hu : u < r.size) (hv : v < r.size) :
    (NeighbourLinks.link r u v).Linked w x ↔ r.Linked w x ∨ (w = u ∧ x = v) ∨ (w = v ∧ x = u) := by
  show ((r.add u v).add v u).Linked w x ↔ _
  rw [linked_add (by rwa [size_add]), linked_add hu, or_assoc]

@[simp] theorem size_link (r : Rows) (u v : Nat) : (NeighbourLinks.link r u v).size = r.size := by
  show ((r.add u v).add v u).size = r.size
  rw [size_add, size_add]

/-- The rows `t` are the rows `r` with links that satisfy a condition. -/
structure Grown (r t : Rows) (new : Nat → Nat → Prop) : Prop where
  size : t.size = r.size
  symm : t.Symmetric
  mono : ∀ {u v}, r.Linked u v → t.Linked u v
  only : ∀ {u v}, t.Linked u v → r.Linked u v ∨ new u v

namespace Grown
variable {new new' : Nat → Nat → Prop}

theorem refl (symm : r.Symmetric) : Grown r r new := ⟨rfl, symm, id, .inl⟩

theorem trans (h : Grown r s new) (h' : Grown s t new) : Grown r t new where
  size := h'.size.trans h.size
  symm := h'.symm
  mono := h'.mono ∘ h.mono
  only link := by
    rcases h'.only link with old | fresh
    · exact h.only old
    · exact .inr fresh

theorem weaken (h : Grown r t new) (le : ∀ {u v}, new u v → new' u v) : Grown r t new' :=
  ⟨h.size, h.symm, h.mono, fun link => (h.only link).imp_right le⟩

theorem link (symm : r.Symmetric) (hu : u < r.size) (hv : v < r.size)
    (ends : new u v) (back : new v u) : Grown r (NeighbourLinks.link r u v) new where
  size := size_link r u v
  symm w x h := by
    rw [linked_link hu hv] at h ⊢
    rcases h with h | ⟨rfl, rfl⟩ | ⟨rfl, rfl⟩
    · exact .inl (symm w x h)
    · exact .inr (.inr ⟨rfl, rfl⟩)
    · exact .inr (.inl ⟨rfl, rfl⟩)
  mono h := (linked_link hu hv).2 (.inl h)
  only h := by
    rcases (linked_link hu hv).1 h with h | ⟨rfl, rfl⟩ | ⟨rfl, rfl⟩
    · exact .inl h
    · exact .inr ends
    · exact .inr back

end Grown

/-- Taking up a list of links adds those links and nothing else. -/
theorem foldl_link_spec (edges : List Edge) (symm : r.Symmetric)
    (inside : ∀ e ∈ edges, e.1 < r.size ∧ e.2 < r.size) :
    Grown r (edges.foldl (fun r e => NeighbourLinks.link r e.1 e.2) r) (Touching edges) ∧
      ∀ e ∈ edges, (edges.foldl (fun r e => NeighbourLinks.link r e.1 e.2) r).Linked e.1 e.2 := by
  induction edges generalizing r with
  | nil => exact ⟨.refl symm, fun e he => absurd he List.not_mem_nil⟩
  | cons e edges ih =>
    obtain ⟨h1, h2⟩ := inside e List.mem_cons_self
    have first : Grown r (NeighbourLinks.link r e.1 e.2) (Touching (e :: edges)) :=
      .link symm h1 h2 (.inl List.mem_cons_self) (.inr List.mem_cons_self)
    obtain ⟨rest, linked⟩ := ih first.symm fun f hf => by
      rw [first.size]
      exact inside f (List.mem_cons_of_mem e hf)
    refine ⟨first.trans (rest.weaken fun link => link.mono (List.subset_cons_self e edges)), fun f hf => ?_⟩
    rcases List.mem_cons.1 hf with rfl | later
    · exact rest.mono ((linked_link h1 h2).2 (.inr (.inl ⟨rfl, rfl⟩)))
    · exact linked f later

/-- The rows of an edge list link the ends of its edges. -/
theorem linked_foldl_link_blank {n : Nat} {edges : List Edge} (inside : ∀ e ∈ edges, e.1 < n ∧ e.2 < n) :
    (edges.foldl (fun r e => NeighbourLinks.link r e.1 e.2) (blank n)).size = n ∧
      (edges.foldl (fun r e => NeighbourLinks.link r e.1 e.2) (blank n)).Symmetric ∧
        ∀ u v, (edges.foldl (fun r e => NeighbourLinks.link r e.1 e.2) (blank n)).Linked u v ↔
          Touching edges u v := by
  obtain ⟨grown, linked⟩ := foldl_link_spec edges (symmetric_blank n) fun e he => by
    rw [size_blank]
    exact inside e he
  refine ⟨grown.size.trans (size_blank n), grown.symm, fun u v => ⟨fun link => ?_, ?_⟩⟩
  · refine (grown.only link).resolve_left fun old => ?_
    simp [Linked] at old
  · rintro (forth | back)
    · exact linked _ forth
    · exact grown.symm _ _ (linked _ back)

end Rows

/-- Between ids that have rows the checked link is the link. -/
theorem NeighbourLinks.checkedLink_eq {G : Type} [NeighbourLinks G] {g : G} {u v : Nat} (hu : u < (neighbours g).size)
    (hv : v < (neighbours g).size) : checkedLink g u v = .ok (link g u v) := by
  simp only [checkedLink, Rows.checkId, if_pos hu, if_pos hv]
  rfl

section Pairs
variable {α : Type} {a b : α} {l : List α}

/-- Two elements of the list that differ. -/
def DifferIn (l : List α) (a b : α) : Prop := a ≠ b ∧ a ∈ l ∧ b ∈ l

theorem mem_of_mem_pairs {p : α × α} (h : p ∈ pairs l) : p.1 ∈ l ∧ p.2 ∈ l := by
  induction l with
  | nil => exact absurd h List.not_mem_nil
  | cons a l ih =>
    rcases List.mem_append.1 h with first | later
    · obtain ⟨b, hb, rfl⟩ := List.mem_map.1 first
      exact ⟨List.mem_cons_self, List.mem_cons_of_mem a hb⟩
    · exact ⟨List.mem_cons_of_mem a (ih later).1, List.mem_cons_of_mem a (ih later).2⟩

/-- What holds of each element and every later one holds of every pair. -/
theorem of_mem_pairs {R : α → α → Prop} (h : l.Pairwise R) {p : α × α} (hp : p ∈ pairs l) :
    R p.1 p.2 := by
  induction l with
  | nil => exact absurd hp List.not_mem_nil
  | cons a l ih =>
    obtain ⟨first, h⟩ := List.pairwise_cons.1 h
    rcases List.mem_append.1 hp with here | later
    · obtain ⟨b, hb, rfl⟩ := List.mem_map.1 here
      exact first b hb
    · exact ih h later

/-- Every two different elements of a list stand in a pair, in one of the two orders. -/
theorem mem_pairs (ha : a ∈ l) (hb : b ∈ l) (ne : a ≠ b) : (a, b) ∈ pairs l ∨ (b, a) ∈ pairs l := by
  induction l with
  | nil => exact absurd ha List.not_mem_nil
  | cons c l ih =>
    simp only [pairs, List.mem_append, List.mem_map, Prod.mk.injEq]
    rcases List.mem_cons.1 ha with rfl | ha' <;> rcases List.mem_cons.1 hb with rfl | hb'
    · exact absurd rfl ne
    · exact .inl (.inl ⟨b, hb', rfl, rfl⟩)
    · exact .inr (.inl ⟨a, ha', rfl, rfl⟩)
    · exact (ih ha' hb').imp .inr .inr

/-- Of an ordered list the pairs are those of which the first entry comes before the second. -/
theorem mem_pairs_iff_of_pairwise {R : α → α → Prop} (asymm : ∀ a b, R a b → ¬ R b a) (ordered : l.Pairwise R) :
    (a, b) ∈ pairs l ↔ (a ∈ l ∧ b ∈ l) ∧ R a b := by
  constructor
  · exact fun h => ⟨mem_of_mem_pairs h, of_mem_pairs ordered h⟩
  · rintro ⟨⟨ha, hb⟩, related⟩
    have ne : a ≠ b := by
      rintro rfl
      exact asymm a a related related
    refine (mem_pairs ha hb ne).resolve_right fun back => ?_
    exact asymm a b related (of_mem_pairs ordered back)

/-- The pairs of an ordered list come in lexicographic order. -/
theorem pairwise_pairs {R : α → α → Prop} (ordered : l.Pairwise R) : (pairs l).Pairwise (Prod.Lex R R) := by
  induction ordered with
  | nil => exact .nil
  | @cons a l first ordered ih =>
    refine List.pairwise_append.2 ⟨?_, ih, fun p hp q hq => ?_⟩
    · exact List.pairwise_map.2 (ordered.imp (.right a))
    · obtain ⟨b, _, rfl⟩ := List.mem_map.1 hp
      exact .left _ _ (first q.1 (mem_of_mem_pairs hq).1)

theorem pairs_map {β : Type} (f : α → β) (l : List α) : pairs (l.map f) = (pairs l).map (Prod.map f f) := by
  induction l with
  | nil => rfl
  | cons a l ih => simp [pairs, ih]

/-- The pairs of what is kept are the pairs of which both entries are kept. -/
theorem pairs_filter (keep : α → Bool) (l : List α) :
    pairs (l.filter keep) = (pairs l).filter fun p => keep p.1 && keep p.2 := by
  induction l with
  | nil => rfl
  | cons a l ih =>
    rw [pairs, List.filter_append, ← ih, List.filter_map]
    by_cases kept : keep a = true
    · rw [List.filter_cons_of_pos kept, pairs]
      simp [Function.comp_def, kept]
    · rw [List.filter_cons_of_neg kept]
      simp [Function.comp_def, kept]

end Pairs
end CliqueTree
