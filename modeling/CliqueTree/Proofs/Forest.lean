import Mathlib.Data.List.Perm.Subperm
import Mathlib.Data.Sym.Sym2
import Mathlib.Logic.Relation

/-!
# Edge lists that form a forest

Edges are pairs, and a way may take them in either direction. A list of edges is a forest when no edge of it
joins what the others join already; an edge that occurs twice and an edge from a vertex to itself never stand
in one. Adding an edge between two parts that are not joined keeps a forest (`IsForest.concat`), and in a
forest nothing stands in for an edge: whatever part of it joins the ends of an edge contains that edge
(`IsForest.touching_of_joined`). New names for the vertices make a forest of a forest, as long as different
vertices get different ones (`IsForest.map`).
-/

set_option autoImplicit false

namespace CliqueTree
open Relation (ReflTransGen)

variable {α : Type} {edges edges' : List (α × α)} {a b c : α}

/-- The two are the ends of an edge of the list, in either order. -/
def Touching (edges : List (α × α)) (a b : α) : Prop := (a, b) ∈ edges ∨ (b, a) ∈ edges

/-- A way along the edges leads from one to the other. -/
def Joined (edges : List (α × α)) : α → α → Prop := ReflTransGen (Touching edges)

/-- No edge joins what the others join. -/
def IsForest (edges : List (α × α)) : Prop :=
  ∀ before e after, edges = before ++ e :: after → ¬ Joined (before ++ after) e.1 e.2

theorem Touching.symm (h : Touching edges a b) : Touching edges b a := Or.symm h

instance : Std.Symm (Touching edges) := ⟨fun _ _ => Touching.symm⟩

theorem Touching.mono (sub : edges ⊆ edges') (h : Touching edges a b) : Touching edges' a b :=
  h.imp (sub ·) (sub ·)

/-- The edges as unordered pairs name the two that touch. -/
theorem mem_map_sym2 : s(a, b) ∈ edges.map (fun e => s(e.1, e.2)) ↔ Touching edges a b := by
  rw [List.mem_map, Touching]
  constructor
  · rintro ⟨e, he, same⟩
    rcases Sym2.eq_iff.1 same with ⟨rfl, rfl⟩ | ⟨rfl, rfl⟩
    · exact .inl he
    · exact .inr he
  · rintro (forth | back)
    · exact ⟨_, forth, rfl⟩
    · exact ⟨_, back, Sym2.eq_swap⟩

theorem nodup_sym2_concat {e : α × α} (once : (edges.map fun e => s(e.1, e.2)).Nodup)
    (apart : ¬ Touching edges e.1 e.2) : ((edges ++ [e]).map fun e => s(e.1, e.2)).Nodup := by
  rw [List.map_append, List.nodup_append_comm]
  exact List.nodup_cons.2 ⟨fun again => apart (mem_map_sym2.1 again), once⟩

/-- Edges that join what `before` does not relate name the pairs that are related with them and were not before. -/
theorem mem_map_sym2_iff_of_fresh {before now : α → α → Prop} (symm : ∀ a b, before a b → before b a)
    (fresh : ∀ e ∈ edges, e.1 ≠ e.2 ∧ ¬ before e.1 e.2) (joined : now a b ↔ before a b ∨ Touching edges a b) :
    s(a, b) ∈ edges.map (fun e => s(e.1, e.2)) ↔ a ≠ b ∧ now a b ∧ ¬ before a b := by
  rw [mem_map_sym2, joined]
  constructor
  · rintro (forth | back)
    · obtain ⟨ne, new⟩ := fresh _ forth
      exact ⟨ne, .inr (.inl forth), new⟩
    · obtain ⟨ne, new⟩ := fresh _ back
      exact ⟨ne.symm, .inr (.inr back), fun old => new (symm _ _ old)⟩
  · rintro ⟨_, old | touching, new⟩
    · exact absurd old new
    · exact touching

theorem Touching.concat_iff {e : α × α} : Touching (edges ++ [e]) a b ↔
    Touching edges a b ∨ (a = e.1 ∧ b = e.2) ∨ (a = e.2 ∧ b = e.1) := by
  obtain ⟨u, v⟩ := e
  simp only [Touching, List.mem_append, List.mem_singleton, Prod.mk.injEq]
  grind

namespace Joined

theorem refl (edges : List (α × α)) (a : α) : Joined edges a a := ReflTransGen.refl

theorem symm (h : Joined edges a b) : Joined edges b a := Std.Symm.symm (r := ReflTransGen (Touching edges)) a b h

theorem trans (h : Joined edges a b) (h' : Joined edges b c) : Joined edges a c := ReflTransGen.trans h h'

theorem of_touching (h : Touching edges a b) : Joined edges a b := ReflTransGen.single h

theorem of_mem {e : α × α} (h : e ∈ edges) : Joined edges e.1 e.2 := of_touching (.inl h)

/-- What joins the ends of each edge joins all that the edges join. -/
theorem lift (each : ∀ e ∈ edges, Joined edges' e.1 e.2) (h : Joined edges a b) : Joined edges' a b := by
  refine ReflTransGen.lift' id (fun u v step => ?_) a b h
  rcases step with step | step
  · exact each (u, v) step
  · exact (each (v, u) step).symm

theorem mono (sub : edges ⊆ edges') (h : Joined edges a b) : Joined edges' a b :=
  lift (fun _ he => of_mem (sub he)) h

/-- One edge more joins the parts at its two ends. -/
theorem concat_iff {e : α × α} : Joined (edges ++ [e]) a b ↔
    Joined edges a b ∨ (Joined edges a e.1 ∧ Joined edges e.2 b) ∨
      (Joined edges a e.2 ∧ Joined edges e.1 b) := by
  have sub : edges ⊆ edges ++ [e] := List.subset_append_left edges [e]
  have new : Joined (edges ++ [e]) e.1 e.2 := of_mem (by simp)
  constructor
  · intro h
    induction h with
    | refl => exact .inl (refl edges a)
    | tail _ step ih =>
      rcases Touching.concat_iff.1 step with old | ⟨rfl, rfl⟩ | ⟨rfl, rfl⟩
      · have old := of_touching old
        exact ih.imp (·.trans old) (Or.imp (.imp_right (·.trans old)) (.imp_right (·.trans old)))
      · rcases ih with ih | ⟨ih, _⟩ | ⟨ih, _⟩
        · exact .inr (.inl ⟨ih, refl edges _⟩)
        · exact .inr (.inl ⟨ih, refl edges _⟩)
        · exact .inl ih
      · rcases ih with ih | ⟨ih, _⟩ | ⟨ih, _⟩
        · exact .inr (.inr ⟨ih, refl edges _⟩)
        · exact .inl ih
        · exact .inr (.inr ⟨ih, refl edges _⟩)
  · rintro (h | ⟨first, last⟩ | ⟨first, last⟩)
    · exact h.mono sub
    · exact ((first.mono sub).trans new).trans (last.mono sub)
    · exact ((first.mono sub).trans new.symm).trans (last.mono sub)

/-- A way does not leave a set that holds both ends of each edge. -/
theorem closed {P : α → Prop} (ends : ∀ e ∈ edges, P e.1 ∧ P e.2) (h : Joined edges a b) (start : P a) : P b := by
  induction h with
  | refl => exact start
  | tail _ step _ =>
    rcases step with forth | back
    · exact (ends _ forth).2
    · exact (ends _ back).1

end Joined

namespace IsForest

theorem nil : IsForest ([] : List (α × α)) := by
  intro before e after equal
  simp at equal

/-- No edge of a forest leads from a vertex to itself. -/
theorem loopless (forest : IsForest edges) : ∀ e ∈ edges, e.1 ≠ e.2 := by
  intro e he same
  obtain ⟨before, after, rfl⟩ := List.append_of_mem he
  exact forest before e after rfl (same ▸ .refl _ _)

/-- An edge between two parts that are not joined keeps a forest. -/
theorem concat {e : α × α} (forest : IsForest edges) (apart : ¬ Joined edges e.1 e.2) :
    IsForest (edges ++ [e]) := by
  intro before f after equal
  rcases List.eq_nil_or_concat after with rfl | ⟨middle, last, rfl⟩
  · obtain ⟨rfl, same⟩ := List.append_inj' equal rfl
    cases same
    rwa [List.append_nil]
  · rw [List.concat_eq_append] at equal ⊢
    rw [← List.cons_append, ← List.append_assoc] at equal
    obtain ⟨rfl, same⟩ := List.append_inj' equal rfl
    cases same
    have sub : before ++ middle ⊆ before ++ f :: middle :=
      ((List.sublist_cons_self f middle).append_left before).subset
    have through : Joined (before ++ f :: middle) f.1 f.2 := .of_mem (by simp)
    intro around
    rw [← List.append_assoc, Joined.concat_iff] at around
    rcases around with around | ⟨first, last⟩ | ⟨first, last⟩
    · exact forest before f middle rfl around
    · exact apart (((first.mono sub).symm.trans through).trans (last.mono sub).symm)
    · exact apart (((last.mono sub).trans through.symm).trans (first.mono sub))

/-- A forest has grown edge by edge between parts that were not joined. -/
theorem concat_iff {e : α × α} : IsForest (edges ++ [e]) ↔ IsForest edges ∧ ¬ Joined edges e.1 e.2 := by
  constructor
  · intro forest
    refine ⟨?_, by simpa using forest edges e [] rfl⟩
    rintro before f after rfl around
    apply forest before f (after ++ [e]) (by simp)
    apply around.mono
    rw [← List.append_assoc]
    exact List.subset_append_left _ _
  · exact fun ⟨forest, apart⟩ => forest.concat apart

/-- Some of the edges of a forest, in any order, are a forest. -/
theorem subperm (forest : IsForest edges) (part : edges'.Subperm edges) : IsForest edges' := by
  rintro before e after rfl around
  have first : (e :: (before ++ after)).Subperm edges := List.perm_middle.symm.subperm.trans part
  obtain ⟨before', after', rfl⟩ := List.append_of_mem (first.subset List.mem_cons_self)
  have others : (before ++ after).Subperm (before' ++ after') :=
    (List.subperm_cons e).1 (first.trans List.perm_middle.subperm)
  exact forest before' e after' rfl (around.mono others.subset)

/-- Whatever part of a forest joins the ends of an edge contains the edge. -/
theorem touching_of_joined (forest : IsForest edges) (part : ∀ u v, Touching edges' u v → Touching edges u v)
    {e : α × α} (he : e ∈ edges) (joined : Joined edges' e.1 e.2) : Touching edges' e.1 e.2 := by
  apply Classical.byContradiction
  intro missing
  obtain ⟨before, after, rfl⟩ := List.append_of_mem he
  refine forest before e after rfl (ReflTransGen.mono (fun u v step => ?_) _ _ joined)
  have other : ∀ {w : α × α}, w ∈ before ++ e :: after → w ≠ e → w ∈ before ++ after := by
    intro w hw ne
    rcases List.mem_append.1 hw with hw | hw
    · exact List.mem_append_left after hw
    · exact List.mem_append_right before (List.mem_of_ne_of_mem ne hw)
  rcases part u v step with old | old
  · exact .inl (other old fun equal => missing (by rwa [← equal]))
  · exact .inr (other old fun equal => missing (by rw [← equal]; exact step.symm))

end IsForest

section Without
variable {k : Nat} {e : α × α}

theorem eq_take_append_drop (h : edges[k]? = some e) : edges = edges.take k ++ e :: edges.drop (k + 1) := by
  obtain ⟨small, rfl⟩ := List.getElem?_eq_some_iff.1 h
  rw [List.getElem_cons_drop, List.take_append_drop]

/-- A step is one along the edge at a position or along another edge. -/
theorem Touching.eraseIdx (h : edges[k]? = some e) (step : Touching edges a b) :
    Touching (edges.eraseIdx k) a b ∨ (a = e.1 ∧ b = e.2) ∨ (a = e.2 ∧ b = e.1) := by
  rw [← Touching.concat_iff]
  refine step.mono fun f hf => ?_
  rw [eq_take_append_drop h] at hf
  rw [List.eraseIdx_eq_take_drop_succ]
  grind

/-- Without an edge of a forest its ends are not joined. -/
theorem IsForest.not_joined_eraseIdx (forest : IsForest edges) (h : edges[k]? = some e) :
    ¬ Joined (edges.eraseIdx k) e.1 e.2 := by
  rw [List.eraseIdx_eq_take_drop_succ]
  exact forest _ e _ (eq_take_append_drop h)

end Without

section Renaming
variable {β : Type} {f : α → β} {P : α → Prop}

/-- Ways lead between the new names of what the old ones lead between. -/
theorem Joined.map (f : α → β) (h : Joined edges a b) : Joined (edges.map (Prod.map f f)) (f a) (f b) := by
  refine ReflTransGen.lift f (fun u v step => ?_) a b h
  exact step.imp (List.mem_map_of_mem (f := Prod.map f f)) (List.mem_map_of_mem (f := Prod.map f f))

/-- When different names stand for different things, every way between new names is one between old ones. -/
theorem Joined.of_map (inj : ∀ u v, P u → P v → f u = f v → u = v) (ends : ∀ e ∈ edges, P e.1 ∧ P e.2) (ha : P a)
    {y : β} (h : Joined (edges.map (Prod.map f f)) (f a) y) : ∃ b, P b ∧ f b = y ∧ Joined edges a b := by
  induction h with
  | refl => exact ⟨a, ha, rfl, .refl edges a⟩
  | tail _ step ih =>
    obtain ⟨b, hb, rfl, way⟩ := ih
    rcases step with forth | back
    · obtain ⟨e, he, same⟩ := List.mem_map.1 forth
      obtain ⟨first, rfl⟩ := Prod.mk.inj same
      obtain rfl := inj _ _ (ends e he).1 hb first
      exact ⟨e.2, (ends e he).2, rfl, way.trans (.of_mem he)⟩
    · obtain ⟨e, he, same⟩ := List.mem_map.1 back
      obtain ⟨rfl, second⟩ := Prod.mk.inj same
      obtain rfl := inj _ _ (ends e he).2 hb second
      exact ⟨e.1, (ends e he).1, rfl, way.trans (Joined.of_mem he).symm⟩

/-- Edges that two lists have under names in common lead to the same ways, where different names stand for different
things. -/
theorem Joined.of_map_eq {γ : Type} {others : List (γ × γ)} {g : γ → β} {c d : γ}
    (same : others.map (Prod.map g g) = edges.map (Prod.map f f)) (inj : ∀ u v, P u → P v → f u = f v → u = v)
    (ends : ∀ e ∈ edges, P e.1 ∧ P e.2) (ha : P a) (hb : P b) (hc : g c = f a) (hd : g d = f b)
    (h : Joined others c d) : Joined edges a b := by
  have named := h.map g
  rw [same, hc, hd] at named
  obtain ⟨b', hb', again, way⟩ := named.of_map inj ends ha
  rwa [← inj b' b hb' hb again]

/-- A list of edges that is a forest under new names is one under the old ones. -/
theorem IsForest.of_map (forest : IsForest (edges.map (Prod.map f f))) : IsForest edges := by
  rintro before e after rfl around
  apply forest (before.map (Prod.map f f)) (Prod.map f f e) (after.map (Prod.map f f)) (by simp)
  simpa using around.map f

/-- A forest stays one under new names that are different for different things. -/
theorem IsForest.map (forest : IsForest edges) (inj : ∀ u v, P u → P v → f u = f v → u = v)
    (ends : ∀ e ∈ edges, P e.1 ∧ P e.2) : IsForest (edges.map (Prod.map f f)) := by
  intro before e' after equal around
  obtain ⟨old, rest, rfl, rfl, split⟩ := List.map_eq_append_iff.1 equal
  obtain ⟨e, later, rfl, rfl, rfl⟩ := List.map_eq_cons_iff.1 split
  obtain ⟨first, second⟩ := ends e (by simp)
  rw [← List.map_append] at around
  obtain ⟨b, hb, same, way⟩ := Joined.of_map inj (fun w hw => ends w (by grind)) first around
  obtain rfl := inj _ _ hb second same
  exact forest old e later rfl way

end Renaming
end CliqueTree
