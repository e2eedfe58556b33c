import CliqueTree.Proofs.Key.Arena
import CliqueTree.Proofs.Table.Neighbours
import CliqueTree.Table.Marriage

/-!
# What marriages add

Two ids are beside each other when one is a parent of the other. The marriages of a vertex put all that its row
lists at its turn beside each other and add nothing else (`marryParents_spec`). What the row lists then is not
only what it listed at first: a marriage at an earlier turn may have added a parent. So the outcome of a run is
told by the families at their turns (`marry_range_spec`), and a run succeeds whenever the rows list only ids
that have rows.
-/

set_option autoImplicit false

namespace CliqueTree
namespace Rows

/-- What a row lists has a row. -/
def Inside (r : Rows) : Prop := ∀ v, ∀ x ∈ r.get v, x < r.size

/-- One of the two is a parent of the other. -/
def Beside (r : Rows) (a b : Nat) : Prop := a ∈ r.get b ∨ b ∈ r.get a

theorem mem_get_add {r : Rows} {v x w y : Nat} (hv : v < r.size) :
    y ∈ (r.add v x).get w ↔ y ∈ r.get w ∨ (w = v ∧ y = x) := linked_add hv

/-- The rows `t` are the rows `r` with entries that satisfy a condition. -/
structure Extended (r t : Rows) (new : Nat → Nat → Prop) : Prop where
  size : t.size = r.size
  inside : t.Inside
  mono : ∀ {v x}, x ∈ r.get v → x ∈ t.get v
  only : ∀ {v x}, x ∈ t.get v → x ∈ r.get v ∨ new x v

namespace Extended
variable {r s t : Rows} {new new' : Nat → Nat → Prop} {a b : Nat}

theorem refl (inside : r.Inside) : Extended r r new := ⟨rfl, inside, id, .inl⟩

theorem trans (h : Extended r s new) (h' : Extended s t new) : Extended r t new where
  size := h'.size.trans h.size
  inside := h'.inside
  mono := h'.mono ∘ h.mono
  only entry := by
    rcases h'.only entry with old | fresh
    · exact h.only old
    · exact .inr fresh

theorem weaken (h : Extended r t new) (le : ∀ {x v}, new x v → new' x v) : Extended r t new' :=
  ⟨h.size, h.inside, h.mono, fun entry => (h.only entry).imp_right le⟩

theorem beside (h : Extended r t new) (old : r.Beside a b) : t.Beside a b := old.imp h.mono h.mono

theorem add (inside : r.Inside) (ha : a < r.size) (hb : b < r.size) (fresh : new a b) :
    Extended r (r.add b a) new where
  size := size_add r b a
  inside v x h := by
    rw [size_add]
    rcases (mem_get_add hb).1 h with old | ⟨rfl, rfl⟩
    · exact inside v x old
    · exact ha
  mono h := (mem_get_add hb).2 (.inl h)
  only h := by
    rcases (mem_get_add hb).1 h with old | ⟨rfl, rfl⟩
    · exact .inl old
    · exact .inr fresh

end Extended
end Rows

/-- Between ids that have rows the checked link is the link. -/
theorem ParentLinks.checkedLink_eq {G : Type} [ParentLinks G] {g : G} {u v : Nat} (hu : u < (parents g).size)
    (hv : v < (parents g).size) : checkedLink g u v = .ok (link g u v) := by
  simp only [checkedLink, Rows.checkId, if_pos hu, if_pos hv]
  rfl

section Marriage
variable {G : Type} [ParentLinks G]
open Rows (Extended Beside Inside)

/-- The parents listed in the structure. -/
def Growth.parents (s : Growth G) : Rows := ParentLinks.parents s.graph

namespace Growth

/-- Looking at a pair puts its ends beside each other, unless they are one. -/
theorem marryPair_spec {s : Growth G} (inside : s.parents.Inside) {a b : Nat} (ha : a < s.parents.size)
    (hb : b < s.parents.size) : ∃ t, s.marryPair a b = .ok t ∧
      Extended s.parents t.parents (DifferIn [a, b]) ∧ (a ≠ b → t.parents.Beside a b) := by
  have rowA : (ParentLinks.parents s.graph).row a = .ok (s.parents.get a) := Rows.row_of_lt ha
  have rowB : (ParentLinks.parents s.graph).row b = .ok (s.parents.get b) := Rows.row_of_lt hb
  unfold marryPair
  rw [rowA, rowB]
  by_cases same : a = b
  · rw [if_pos same]
    exact ⟨s, rfl, .refl inside, fun ne => absurd same ne⟩
  rw [if_neg same]
  by_cases forth : a ∈ s.parents.get b
  · exact ⟨s, by simp [forth, bind, Except.bind, pure, Except.pure], .refl inside, fun _ => .inl forth⟩
  by_cases back : b ∈ s.parents.get a
  · exact ⟨s, by simp [forth, back, bind, Except.bind, pure, Except.pure], .refl inside, fun _ => .inr back⟩
  have linked : parents ⟨ParentLinks.link s.graph a b, s.added.push (a, b)⟩ = s.parents.add b a :=
    ParentLinks.parents_link s.graph a b
  refine ⟨_, by simp [forth, back, bind, Except.bind, pure, Except.pure]; rfl, ?_, fun _ => ?_⟩
  · rw [linked]
    exact .add inside ha hb ⟨same, by simp, by simp⟩
  · rw [linked]
    exact .inl ((Rows.mem_get_add hb).2 (.inr ⟨rfl, rfl⟩))

/-- Looking at every pair of a list puts the ends of each beside each other. -/
theorem foldlM_marryPair_spec (ps : List Edge) {s : Growth G} (inside : s.parents.Inside) {l : List Nat}
    (small : ∀ v ∈ l, v < s.parents.size) (ends : ∀ p ∈ ps, p.1 ∈ l ∧ p.2 ∈ l) :
    ∃ t, ps.foldlM (fun s p => s.marryPair p.1 p.2) s = .ok t ∧ Extended s.parents t.parents (DifferIn l) ∧
      ∀ p ∈ ps, p.1 ≠ p.2 → t.parents.Beside p.1 p.2 := by
  induction ps generalizing s with
  | nil => exact ⟨s, rfl, .refl inside, fun p hp => absurd hp List.not_mem_nil⟩
  | cons p ps ih =>
    obtain ⟨h1, h2⟩ := ends p List.mem_cons_self
    obtain ⟨m, ran, first, married⟩ := marryPair_spec inside (small _ h1) (small _ h2)
    have first : Extended s.parents m.parents (DifferIn l) := by
      refine first.weaken fun ⟨ne, hu, hv⟩ => ⟨ne, ?_, ?_⟩
      · rcases List.mem_pair.1 hu with rfl | rfl <;> assumption
      · rcases List.mem_pair.1 hv with rfl | rfl <;> assumption
    obtain ⟨t, rest, extended, all⟩ := ih first.inside (fun v hv => first.size ▸ small v hv)
      fun q hq => ends q (List.mem_cons_of_mem p hq)
    refine ⟨t, ?_, first.trans extended, fun q hq ne => ?_⟩
    · rw [List.foldlM_cons, ran]
      exact rest
    · rcases List.mem_cons.1 hq with rfl | later
      · exact extended.beside (married ne)
      · exact all q later ne

/-- The turn of a vertex puts all that its row lists beside each other, and adds nothing else. -/
theorem marryParents_spec {s : Growth G} (inside : s.parents.Inside) {v : Nat} (hv : v < s.parents.size) :
    ∃ t, s.marryParents v = .ok t ∧ Extended s.parents t.parents (DifferIn (s.parents.get v)) ∧
      ∀ a b, DifferIn (s.parents.get v) a b → t.parents.Beside a b := by
  have row : (ParentLinks.parents s.graph).row v = .ok (s.parents.get v) := Rows.row_of_lt hv
  obtain ⟨t, ran, extended, married⟩ := foldlM_marryPair_spec (pairs (s.parents.get v)) inside
    (inside v) fun _ => mem_of_mem_pairs
  refine ⟨t, ?_, extended, fun a b ⟨ne, ha, hb⟩ => ?_⟩
  · rw [marryParents, row]
    exact ran
  · rcases mem_pairs ha hb ne with forth | back
    · exact married _ forth ne
    · exact (married _ back ne.symm).symm

end Growth

theorem row_eq_ok {r : Rows} {v : Nat} {l : List Nat} (h : r.row v = .ok l) : v < r.size := by
  apply Nat.lt_of_not_le
  intro past
  rw [Rows.row_eq, if_neg (Nat.not_lt.2 past)] at h
  cases h

theorem foldlM_induction {σ α ε : Type} {f : σ → α → Except ε σ} {P : σ → Prop}
    (step : ∀ s a t, P s → f s a = .ok t → P t) (l : List α) {s t : σ} (h : P s) (ran : l.foldlM f s = .ok t) :
    P t := by
  induction l generalizing s with
  | nil =>
    obtain rfl := Except.ok.inj ran
    exact h
  | cons a l ih =>
    obtain ⟨m, first, rest⟩ := bind_eq_ok.1 ran
    exact ih (step s a m h first) rest

/-- What every link between ids with rows keeps, a run of marriages keeps. -/
theorem marry_induction {P : G → Prop}
    (link : ∀ g u v, P g → u < (ParentLinks.parents g).size → v < (ParentLinks.parents g).size →
      P (ParentLinks.link g u v))
    {g : G} (h : P g) {order : List Nat} {s : Growth G} (ran : marry g order = .ok s) : P s.graph := by
  refine foldlM_induction (P := fun s : Growth G => P s.graph) (fun s v t hs turn => ?_) order h ran
  obtain ⟨row, _, turn⟩ := bind_eq_ok.1 turn
  refine foldlM_induction (P := fun s : Growth G => P s.graph) (fun s p t hs looked => ?_) (pairs row) hs turn
  unfold Growth.marryPair at looked
  split at looked
  · obtain rfl := Except.ok.inj looked
    exact hs
  obtain ⟨rowB, second, looked⟩ := bind_eq_ok.1 looked
  split at looked
  · obtain rfl := Except.ok.inj looked
    exact hs
  obtain ⟨rowA, first, looked⟩ := bind_eq_ok.1 looked
  split at looked
  · obtain rfl := Except.ok.inj looked
    exact hs
  obtain rfl := Except.ok.inj looked
  exact link _ _ _ hs (row_eq_ok first) (row_eq_ok second)

/-- What the row of a vertex lists when the parents of all vertices before it are married. -/
def familyIds (g : G) (v : Nat) : Except GraphError (List Nat) := do
  return (← marry g (List.range v)).parents.get v

/-- The turn of the vertex finds both in its row. -/
def MarriedAt (g : G) (v a b : Nat) : Prop := ∃ family, familyIds g v = .ok family ∧ DifferIn family a b

theorem MarriedAt.symm {g : G} {v a b : Nat} (h : MarriedAt g v a b) : MarriedAt g v b a := by
  obtain ⟨family, listed, ne, ha, hb⟩ := h
  exact ⟨family, listed, ne.symm, hb, ha⟩

/-- Marrying the parents of the first `n` vertices succeeds. It puts those beside each other that some row lists
together at its turn, and adds nothing else. -/
theorem marry_range_spec {g : G} (inside : (ParentLinks.parents g).Inside) (n : Nat)
    (small : n ≤ (ParentLinks.parents g).size) : ∃ s, marry g (List.range n) = .ok s ∧
      Extended (ParentLinks.parents g) s.parents (fun a b => ∃ v < n, MarriedAt g v a b) ∧
        ∀ v < n, ∀ a b, MarriedAt g v a b → s.parents.Beside a b := by
  induction n with
  | zero => exact ⟨⟨g, #[]⟩, rfl, .refl inside, fun v hv => absurd hv (Nat.not_lt_zero v)⟩
  | succ n ih =>
    obtain ⟨s, ran, extended, married⟩ := ih (by omega)
    obtain ⟨t, turn, last, new⟩ := Growth.marryParents_spec extended.inside (v := n) (by rw [extended.size]; omega)
    have family : familyIds g n = .ok (s.parents.get n) := by
      rw [familyIds, ran]
      rfl
    have at_turn : ∀ {a b}, MarriedAt g n a b ↔ DifferIn (s.parents.get n) a b := by
      intro a b
      constructor
      · rintro ⟨_, listed, both⟩
        rwa [Except.ok.inj (family.symm.trans listed)]
      · exact fun both => ⟨_, family, both⟩
    refine ⟨t, ?_, ?_, fun v hv a b both => ?_⟩
    · rw [marry, List.range_succ, List.foldlM_append]
      show (marry g (List.range n) >>= fun s => List.foldlM Growth.marryParents s [n]) = _
      rw [ran]
      show List.foldlM Growth.marryParents s [n] = _
      rw [List.foldlM_cons, turn]
      rfl
    · refine (extended.weaken ?_).trans (last.weaken ?_)
      · rintro a b ⟨v, hv, both⟩
        exact ⟨v, by omega, both⟩
      · exact fun both => ⟨n, by omega, at_turn.2 both⟩
    · rcases Nat.lt_succ_iff_lt_or_eq.1 hv with earlier | rfl
      · exact last.beside (married v earlier a b both)
      · exact new a b (at_turn.1 both)

end Marriage
end CliqueTree
