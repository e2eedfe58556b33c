import CliqueTree.Proofs.Digraph.States

/-!
# Interning

A list of keys is numbered in one pass. A key that the index lacks takes the next place, in the row of keys and in the
index alike. What carries the pass is that the index has a place for a key just where the key stands (`InStep`): so a key
is new exactly when the row lacks it, and after it has taken its place the two are in step again (`InStep.intern`). The
pass therefore leaves the row of the arena (`keys_ofKeys`), and its index finds what a search of the arena finds
(`id_ofKeys`).

Ends of edges are looked up one by one, up to the first that is unknown (`Arena.edgeIds_eq_error_iff`). If there is none,
ids and keys stand for each other, so the edges of the graph are those that it was made of (`Arena.edgesOf_edgeIds`).
-/

set_option autoImplicit false

namespace CliqueTree

/-- Keys in a row, with an index of their places. -/
structure Interning (K : Type) [BEq K] [Hashable K] where
  keys : Array K
  index : Std.HashMap K Nat

namespace Interning
variable {K : Type} [VertexKey K] [Hashable K] {t : Interning K} {k : K} {i : Nat}

/-- A key that the index lacks takes the next place. -/
def intern (t : Interning K) (k : K) : Interning K :=
  if t.index.contains k then t else ⟨t.keys.push k, t.index.insert k t.keys.size⟩

/-- The keys of a list, one after the other. -/
def ofKeys (keys : List K) : Interning K := keys.foldl intern ⟨#[], ∅⟩

/-- The place of a key, by the index. -/
def id (t : Interning K) (k : K) : Except GraphError Nat :=
  match t.index[k]? with
  | some i => .ok i
  | none => .error (.unknownVertex (describe k))

/-- The index has for a key the place where it stands. -/
def InStep (t : Interning K) : Prop := ∀ (k : K) (i : Nat), t.index[k]? = some i ↔ t.keys[i]? = some k

theorem InStep.contains_iff (h : t.InStep) : t.index.contains k = true ↔ k ∈ t.keys.toList := by
  rw [Std.HashMap.contains_eq_isSome_getElem?, Option.isSome_iff_exists, List.mem_iff_getElem?]
  simp only [h k, Array.getElem?_toList]

/-- A new key stands behind the others, and an old one where it stood. -/
theorem InStep.keys_intern (h : t.InStep) (k : K) :
    (t.intern k).keys.toList = if k ∈ t.keys.toList then t.keys.toList else t.keys.toList ++ [k] := by
  rw [Interning.intern]
  simp only [h.contains_iff]
  split
  · rfl
  · exact Array.toList_push

/-- One key keeps row and index in step. -/
theorem InStep.intern (h : t.InStep) (k : K) : (t.intern k).InStep := by
  rw [Interning.intern]
  split
  · exact h
  next fresh =>
    have nowhere : ∀ i, t.keys[i]? ≠ some k := fun i here =>
      fresh (h.contains_iff.2 (List.mem_iff_getElem?.2 ⟨i, by rwa [Array.getElem?_toList]⟩))
    intro l i
    show (t.index.insert k t.keys.size)[l]? = some i ↔ (t.keys.push k)[i]? = some l
    rw [Std.HashMap.getElem?_insert, Array.getElem?_push]
    by_cases same : k = l
    · subst same
      by_cases last : i = t.keys.size <;> simp [last, nowhere, eq_comm]
    · rw [if_neg (by simpa using same), h l i]
      by_cases last : i = t.keys.size <;> simp [last, same]

/-- So does the whole pass, and its row is the list without its repeats. -/
theorem ofKeys_spec (keys : List K) : (ofKeys keys).InStep ∧ (ofKeys keys).keys.toList = distinct keys := by
  induction keys using List.reverseRecOn with
  | nil =>
    refine ⟨fun k i => ?_, rfl⟩
    simp [ofKeys]
  | append_singleton keys k ih =>
    obtain ⟨step, row⟩ := ih
    have last : ofKeys (keys ++ [k]) = (ofKeys keys).intern k := List.foldl_concat ..
    refine ⟨last ▸ step.intern k, ?_⟩
    rw [last, step.keys_intern, row, distinct_concat]
    simp only [mem_distinct]

theorem keys_ofKeys (keys : List K) : (ofKeys keys).keys = (Arena.ofKeys keys).keys :=
  Array.ext' (ofKeys_spec keys).2

theorem index_ofKeys_iff {keys : List K} : (ofKeys keys).index[k]? = some i ↔ (Arena.ofKeys keys).id k = .ok i := by
  rw [(ofKeys_spec keys).1, keys_ofKeys, Arena.id_eq_ok_iff, Arena.key?]

/-- The index finds what a search of the arena finds. -/
theorem id_ofKeys (keys : List K) (k : K) : (ofKeys keys).id k = (Arena.ofKeys keys).id k := by
  cases known : (Arena.ofKeys keys).id k with
  | ok i => rw [id, index_ofKeys_iff.2 known]
  | error e =>
    obtain ⟨-, rfl⟩ := Arena.id_eq_error_iff.1 known
    have lacks : (ofKeys keys).index[k]? = none := Option.eq_none_iff_forall_ne_some.2 fun i there =>
      nomatch known.symm.trans (index_ofKeys_iff.1 there)
    rw [id, lacks]

end Interning

/-! ### Edges between keys -/

section Ends
variable {K : Type} [VertexKey K] {vertices : List K} {edges : List (K × K)}

namespace Arena

theorem mem_keys_ofKeys (keys : List K) (k : K) : k ∈ (ofKeys keys).keys.toList ↔ k ∈ keys := mem_distinct

/-- Edges have ids unless an end is unknown, and then the first such end is reported. -/
theorem edgeIds_eq_error_iff {a : Arena K} {e : GraphError} : a.edgeIds edges = .error e ↔
    ∃ k, FirstEnd (· ∉ a.keys.toList) edges k ∧ e = .unknownVertex (describe k) := by
  induction edges with
  | nil => simp [edgeIds, not_firstEnd_nil, pure, Except.pure]
  | cons edge edges ih =>
    obtain ⟨k, l⟩ := edge
    have known : (∃ ids, a.edgeId (k, l) = .ok ids) ↔ k ∈ a.keys.toList ∧ l ∈ a.keys.toList := by
      simp only [edgeId_eq_ok_iff, Prod.exists, exists_and_left, exists_and_right, ← mem_keys_iff]
    have rest : ∀ ids : Edge, (edges.mapM a.edgeId >>= fun others => pure (ids :: others)) = .error e ↔
        ∃ k, FirstEnd (· ∉ a.keys.toList) edges k ∧ e = .unknownVertex (describe k) := by
      intro ids
      rw [← ih, edgeIds, bind_eq_error]
      simp [pure, Except.pure]
    rw [edgeIds, List.mapM_cons, bind_eq_error, edgeId_eq_error_iff]
    simp only [rest, exists_and_right, known, firstEnd_cons]
    by_cases hk : k ∈ a.keys.toList <;> by_cases hl : l ∈ a.keys.toList <;> simp [hk, hl]

/-- The keys at the ids of edges are the ends of these edges. -/
theorem edgesOf_edgeIds {a : Arena K} {es : List Edge} (named : a.edgeIds edges = .ok es) :
    a.edgesOf es.toArray = edges := by
  obtain ⟨known, rfl⟩ := edgeIds_eq_ok_iff.1 named
  have back : ∀ e ∈ edges, (a.edge? ∘ Prod.map a.placeOf a.placeOf) e = some e := by
    intro e he
    obtain ⟨first, second⟩ := known e he
    simp [edge?, key?_placeOf first, key?_placeOf second]
  rw [edgesOf, List.filterMap_map, List.filterMap_congr back, List.filterMap_some]

end Arena

/-- What is asked of a graph that is made of vertices and edges. -/
structure MadeOf {G : Type} (outline : G → Outline K) (vertices : List K) (edges : List (K × K))
    (made : Except GraphError G) : Prop where
  /-- It is refused for an end of an edge that is no vertex, and the first one is named. -/
  refused : ∀ e, made = .error e ↔ ∃ k, FirstEnd (· ∉ vertices) edges k ∧ e = .unknownVertex (describe k)
  /-- If all ends are vertices there is such a graph, and its edges are those that were given. -/
  accepted : (∃ g, made = .ok g ∧ outline g = ⟨(Arena.ofKeys vertices).keys.toList, edges⟩) ↔
    ∀ e ∈ edges, e.1 ∈ vertices ∧ e.2 ∈ vertices

/-- It is enough that a graph shows the edges at the ids which it is built from. -/
theorem madeOf_edgeIds {G : Type} {outline : G → Outline K} {build : List Edge → G}
    (shows : ∀ es, outline (build es) =
      ⟨(Arena.ofKeys vertices).keys.toList, (Arena.ofKeys vertices).edgesOf es.toArray⟩) :
    MadeOf outline vertices edges (do return build (← (Arena.ofKeys vertices).edgeIds edges)) where
  refused e := by
    rw [bind_eq_error, Arena.edgeIds_eq_error_iff]
    simp only [Arena.mem_keys_ofKeys, pure, Except.pure, reduceCtorEq, and_false, exists_false, or_false]
  accepted := by
    simp only [← Arena.mem_keys_ofKeys vertices]
    constructor
    · rintro ⟨g, made, -⟩
      obtain ⟨es, named, -⟩ := bind_eq_ok.1 made
      exact (Arena.edgeIds_eq_ok_iff.1 named).1
    · intro known
      have named := Arena.edgeIds_eq_ok_iff.2 ⟨known, rfl⟩
      refine ⟨_, bind_eq_ok.2 ⟨_, named, rfl⟩, ?_⟩
      rw [shows, Arena.edgesOf_edgeIds named]

theorem Digraph.madeOf_ofEdges (vertices : List K) (edges : List (K × K)) :
    MadeOf Digraph.outline vertices edges (Digraph.ofEdges vertices edges) := by
  refine madeOf_edgeIds fun es => ?_
  rw [foldl_link]
  simp [outline, Digraph.vertices, Digraph.edges, blank]

theorem Graph.madeOf_ofEdges (vertices : List K) (edges : List (K × K)) :
    MadeOf Graph.outline vertices edges (Graph.ofEdges vertices edges) := by
  refine madeOf_edgeIds fun es => ?_
  rw [ofEdgeIds_eq]
  rfl

end Ends

/-! ### Row, index and arena -/

section Arenas
variable {K : Type} [VertexKey K] [Hashable K]

/-- What is asked of the arena of a list of keys, and of the row and the index that a pass over the list leaves. -/
structure Interns (keys : List K) (t : Interning K) (a : Arena K) : Prop where
  row : t.keys = a.keys
  index : ∀ (k : K) (i : Nat), t.index[k]? = some i ↔ a.keys[i]? = some k
  found : ∀ k, t.id k = a.id k
  /-- The keys are those of the list. -/
  mem : ∀ k, k ∈ a.keys.toList ↔ k ∈ keys
  /-- Each of them stands there once, in the order of the first occurrences. -/
  first : a.keys.toList.Pairwise fun k l => keys.idxOf k < keys.idxOf l
  /-- The id of a key is the place where it stands. -/
  id_eq_ok : ∀ k i, a.id k = .ok i ↔ a.keys[i]? = some k
  /-- Every id is that of its key. -/
  id_key : ∀ i, i < a.size ↔ ∃ k, a.key i = .ok k ∧ a.id k = .ok i
  /-- Just the keys that the list lacks are unknown. -/
  id_eq_error : ∀ k e, a.id k = .error e ↔ k ∉ keys ∧ e = .unknownVertex (describe k)

theorem interns_ofKeys (keys : List K) : Interns keys (.ofKeys keys) (.ofKeys keys) where
  row := Interning.keys_ofKeys keys
  index k i := by rw [Interning.index_ofKeys_iff, Arena.id_eq_ok_iff, Arena.key?]
  found := Interning.id_ofKeys keys
  mem := Arena.mem_keys_ofKeys keys
  first := pairwise_idxOf_distinct keys
  id_eq_ok _ _ := Arena.id_eq_ok_iff
  id_key i := by
    constructor
    · intro small
      obtain ⟨k, hk⟩ := Arena.exists_key? small
      exact ⟨k, Arena.key_eq hk, Arena.id_eq_ok_iff.2 hk⟩
    · rintro ⟨k, -, known⟩
      exact Arena.lt_size (Arena.id_eq_ok_iff.1 known)
  id_eq_error k e := by rw [Arena.id_eq_error_iff, Arena.mem_keys_ofKeys]

/-- **Interning.** Whatever the hashes of the keys are, a pass over a list of keys leaves a row and an index that are those
of its arena: the keys of the list, each once and in the order in which they first occur. Keys and the ids below the size
stand for each other, and a key has no id just when the list lacks it. So a graph, directed or not, is made of any
vertices and edges unless an end is no vertex, when the first such end is named, and it has the edges that were given. -/
theorem interning_exact (keys : List K) (edges : List (K × K)) :
    Interns keys (.ofKeys keys) (.ofKeys keys) ∧
      MadeOf Digraph.outline keys edges (Digraph.ofEdges keys edges) ∧
        MadeOf Graph.outline keys edges (Graph.ofEdges keys edges) :=
  ⟨interns_ofKeys keys, Digraph.madeOf_ofEdges keys edges, Graph.madeOf_ofEdges keys edges⟩

-- the first unknown end is the second one of the second edge
example : (Graph.ofEdges ['b', 'a', 'b'] [('a', 'b'), ('b', 'x'), ('y', 'b')]).map (·.edges) =
    .error (.unknownVertex "'x'") := by decide +kernel

end Arenas
end CliqueTree
