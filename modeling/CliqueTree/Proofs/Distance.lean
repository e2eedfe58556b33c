import Mathlib.Logic.Relation
import Mathlib.Order.Lattice.Nat

/-!
# Distances

How many steps of a relation lead from one thing to another at least. A shortest way comes from a thing that is one
step nearer (`exists_nearer`), and no step leads further away than by one (`distance_le_succ`).
-/

set_option autoImplicit false

namespace CliqueTree
open Relation (ReflTransGen)

variable {α : Type} {R : α → α → Prop} {a b c : α} {k : Nat}

/-- A way of so many steps leads from one to the other. -/
inductive Way (R : α → α → Prop) (a : α) : Nat → α → Prop
  | here : Way R a 0 a
  | step {k : Nat} {b c : α} (way : Way R a k b) (last : R b c) : Way R a (k + 1) c

/-- The number of steps of a shortest way. -/
noncomputable def distance (R : α → α → Prop) (a b : α) : Nat := sInf {k | Way R a k b}

theorem exists_way (reach : ReflTransGen R a b) : ∃ k, Way R a k b := by
  induction reach with
  | refl => exact ⟨0, .here⟩
  | tail _ last ih =>
    obtain ⟨k, way⟩ := ih
    exact ⟨k + 1, way.step last⟩

theorem Way.reach (way : Way R a k b) : ReflTransGen R a b := by
  induction way with
  | here => exact .refl
  | step _ last ih => exact ih.tail last

theorem way_distance (reach : ReflTransGen R a b) : Way R a (distance R a b) b := Nat.sInf_mem (exists_way reach)

theorem distance_le (way : Way R a k b) : distance R a b ≤ k := Nat.sInf_le way

theorem distance_self (R : α → α → Prop) (a : α) : distance R a a = 0 := Nat.le_zero.1 (distance_le .here)

theorem distance_le_succ (reach : ReflTransGen R a b) (last : R b c) : distance R a c ≤ distance R a b + 1 :=
  distance_le ((way_distance reach).step last)

/-- Something else that is reached is reached from something nearer. -/
theorem exists_nearer (reach : ReflTransGen R a b) (ne : b ≠ a) :
    ∃ p, ReflTransGen R a p ∧ R p b ∧ distance R a b = distance R a p + 1 := by
  have shortest := way_distance reach
  generalize count : distance R a b = k at shortest
  cases shortest with
  | here => exact absurd rfl ne
  | @step k p _ way last =>
    refine ⟨p, way.reach, last, ?_⟩
    have nearer := distance_le way
    have further := distance_le_succ way.reach last
    omega

end CliqueTree
