import CliqueTree.Proofs.Ascending

/-!
# Cliques from keys and from JSON

A clique comes from a list of keys or from a JSON array. `Clique.ofList` sorts its keys and leaves out repeats;
reading takes the items of the array as they stand. So the two agree just on ascending lists
(`Clique.read_eq_ofList_iff`), and a clique that was read from any other list compares as unequal to cliques with the
same members, and the walk that finds what two cliques share passes by some of it. What the walk does find is in both
cliques, in any case.
-/

set_option autoImplicit false

namespace CliqueTree

/-- Reading an array reads every item. -/
theorem JsonCodec.decodeItems?_eq_mapM {K : Type} [JsonCodec K] (items : List Json) :
    (decodeItems? items : Option (List K)) = items.mapM decode? := by
  induction items with
  | nil => rfl
  | cons v rest ih => rw [decodeItems?, List.mapM_cons, ih]

/-- The walk finds nothing that one of the lists lacks, whatever their order. -/
theorem mem_of_mem_common {α : Type} [Ord α] [Std.LawfulEqOrd α] {l m : List α} {a : α} (h : a ∈ common l m) :
    a ∈ l ∧ a ∈ m := by
  refine ⟨(common_sublist l m).subset h, ?_⟩
  induction l, m using common.induct with
  | case1 b l c m less ih =>
    rw [common, less] at h
    exact ih h
  | case2 b l c m more ih =>
    rw [common, more] at h
    exact List.mem_cons_of_mem c (ih h)
  | case3 b l c m same ih =>
    obtain rfl := Std.LawfulEqOrd.eq_of_compare same
    rw [common, same] at h
    rcases List.mem_cons.1 h with rfl | later
    · exact List.mem_cons_self
    · exact List.mem_cons_of_mem b (ih later)
  | case4 l m none =>
    cases l with
    | nil => simp [common] at h
    | cons b l =>
      cases m with
      | nil => simp [common] at h
      | cons c m => exact (none b l c m rfl rfl).elim

namespace Clique
variable {K : Type}

/-- The members of a clique that is read are the items of the array, in their order. -/
theorem read_eq_some_iff [JsonCodec K] {items : List Json} {c : Clique K} :
    decode? (.arr items) = some c ↔ items.mapM decode? = some c.members := by
  show (JsonCodec.decodeItems? items).map Clique.mk = some c ↔ _
  rw [JsonCodec.decodeItems?_eq_mapM, Option.map_eq_some_iff]
  constructor
  · rintro ⟨members, listed, rfl⟩
    exact listed
  · exact fun listed => ⟨c.members, listed, rfl⟩

variable [VertexKey K] {c d : Clique K}

/-- A clique is canonical when sorting its members changes nothing. -/
theorem isCanonical_iff : c.IsCanonical ↔ c = ofList c.members := by
  constructor
  · exact fun canonical => (ofList_members canonical).symm
  · intro same
    rw [same]
    exact isCanonical_ofList c.members

/-- Among canonical cliques the members determine the clique. -/
theorem IsCanonical.eq_iff (hc : c.IsCanonical) (hd : d.IsCanonical) :
    c = d ↔ ∀ k, k ∈ c.members ↔ k ∈ d.members := by
  rw [isCanonical_iff.1 hc, isCanonical_iff.1 hd, ofList_eq_iff]
  simp only [mem_ofList]

/-- **Cliques from keys and from JSON.** A clique that is read from an array has the items as its members, in their
order. So it is the canonical clique of its members if and only if the items ascend. Writing it and reading it again
gives it back. What it shares with another clique is in both; if both are canonical, the two are equal exactly when
they have the same members, and what they share is all that is in both, in ascending order. -/
theorem read_eq_ofList_iff [JsonCodec K] {items : List Json} (read : decode? (.arr items) = some c) :
    items.mapM decode? = some c.members ∧ (c.IsCanonical ↔ c = ofList c.members) ∧
      (ofList c.members).IsCanonical ∧ (∀ k, k ∈ (ofList c.members).members ↔ k ∈ c.members) ∧
        decode? (encode c) = some c ∧ ∀ d : Clique K, (∀ k ∈ c.shared d, k ∈ c.members ∧ k ∈ d.members) ∧
          (c.IsCanonical → d.IsCanonical → (c = d ↔ ∀ k, k ∈ c.members ↔ k ∈ d.members) ∧
            IsAscending (c.shared d) ∧ ∀ k, k ∈ c.shared d ↔ k ∈ c.members ∧ k ∈ d.members) := by
  refine ⟨read_eq_some_iff.1 read, isCanonical_iff, isCanonical_ofList _, fun _ => mem_ofList,
    JsonCodec.decode?_encode c, fun d => ⟨fun _ => mem_of_mem_common, fun hc hd => ⟨hc.eq_iff hd, ?_, ?_⟩⟩⟩
  · exact hc.common d.members
  · exact fun _ => mem_shared hc hd

/-- Two arrays of the same keys are read as two cliques, of which one is not canonical, and of the two keys in both
the walk finds one. -/
theorem read_descending : ∃ c d : Clique Int64, decode? (.arr [.int 3, .int 1]) = some c ∧
    decode? (.arr [.int 1, .int 3]) = some d ∧ (∀ k, k ∈ c.members ↔ k ∈ d.members) ∧ c ≠ d ∧ c.shared d = [3] ∧
      c ≠ ofList c.members ∧ d = ofList d.members ∧ decode? (encode c) = some c := by
  have readC : decode? (.arr [.int 3, .int 1]) = some (⟨[3, 1]⟩ : Clique Int64) := by decide
  have readD : decode? (.arr [.int 1, .int 3]) = some (⟨[1, 3]⟩ : Clique Int64) := by decide
  obtain ⟨_, canonicalC, _, _, again, _⟩ := read_eq_ofList_iff readC
  obtain ⟨_, canonicalD, _⟩ := read_eq_ofList_iff readD
  refine ⟨_, _, readC, readD, fun k => ?_, by decide, by cbv, ?_, canonicalD.1 ?_, again⟩
  · exact List.Perm.mem_iff (.swap 1 3 [])
  · rw [Ne, ← canonicalC, IsCanonical, IsAscending]
    decide
  · rw [IsCanonical, IsAscending]
    decide

end Clique
end CliqueTree
