import CliqueTree.Key.Arena
import CliqueTree.Proofs.FirstOccurrence

/-!
# Ids and keys

The ids below the size and the keys of an arena stand for each other, one for one. So a list of ids without
repeats gives keys without repeats, all ids give all keys, and an edge between keys is an edge between their
ids. A list of keys without repeats is itself the list of the arena made of it.
-/

set_option autoImplicit false

namespace CliqueTree

section Images
variable {K L : Type}

/-- Different keys of the list have different images. -/
def OneToOne (f : K → L) (keys : List K) : Prop := ∀ k ∈ keys, ∀ l ∈ keys, f k = f l → k = l

/-- First occurrences stay first occurrences. -/
theorem distinct_map [DecidableEq K] [DecidableEq L] {f : K → L} {keys : List K} (inj : OneToOne f keys) :
    distinct (keys.map f) = (distinct keys).map f := by
  induction keys with
  | nil => rfl
  | cons a keys ih =>
    have tail : OneToOne f keys := fun k hk l hl =>
      inj k (List.mem_cons_of_mem a hk) l (List.mem_cons_of_mem a hl)
    rw [List.map_cons, distinct, distinct, ih tail, List.map_cons, List.filter_map]
    refine congrArg (f a :: List.map f ·) (List.filter_congr fun b hb => ?_)
    have member : b ∈ a :: keys := List.mem_cons_of_mem a (mem_distinct.1 hb)
    rw [Function.comp_apply, decide_eq_decide, not_iff_not]
    exact ⟨fun same => inj b member a List.mem_cons_self same, congrArg f⟩

/-- Different edges between keys of the list have different images. -/
theorem OneToOne.prodMap {f : K → L} {keys : List K} (inj : OneToOne f keys) {edges : List (K × K)}
    (ends : ∀ e ∈ edges, e.1 ∈ keys ∧ e.2 ∈ keys) : OneToOne (Prod.map f f) edges := by
  intro d hd e he same
  obtain ⟨first, second⟩ := Prod.mk.inj same
  exact Prod.ext (inj _ (ends d hd).1 _ (ends e he).1 first) (inj _ (ends d hd).2 _ (ends e he).2 second)

end Images

theorem ok_bind {ε α β : Type} (a : α) (f : α → Except ε β) : (Except.ok a >>= f) = f a := rfl

/-- What comes out of two operations in a row came out of the first and then of the second. -/
theorem bind_eq_ok {ε α β : Type} {x : Except ε α} {f : α → Except ε β} {b : β} :
    (x >>= f) = .ok b ↔ ∃ a, x = .ok a ∧ f a = .ok b := by
  cases x <;> simp [bind, Except.bind]

/-- Two operations in a row fail when the first does, or the second after it. -/
theorem bind_eq_error {ε α β : Type} {x : Except ε α} {f : α → Except ε β} {e : ε} :
    (x >>= f) = .error e ↔ x = .error e ∨ ∃ a, x = .ok a ∧ f a = .error e := by
  cases x <;> simp [bind, Except.bind]

/-- A filter that lets all through keeps positions. -/
theorem getElem?_filterMap {α β : Type} {f : α → Option β} {l : List α} (all : ∀ x ∈ l, ∃ y, f x = some y)
    (i : Nat) : (l.filterMap f)[i]? = l[i]?.bind f := by
  induction l generalizing i with
  | nil => rfl
  | cons x l ih =>
    obtain ⟨y, hy⟩ := all x List.mem_cons_self
    rw [List.filterMap_cons_some hy]
    cases i with
    | zero => exact hy.symm
    | succ i => exact ih (fun x hx => all x (List.mem_cons_of_mem _ hx)) i

namespace Arena
variable {K : Type} {a : Arena K} {k l : K} {i j : Nat} {ids : List Nat}

theorem lt_size (h : a.key? i = some k) : i < a.size := by
  obtain ⟨small, _⟩ := Array.getElem?_eq_some_iff.1 h
  exact small

theorem exists_key? (h : i < a.size) : ∃ k, a.key? i = some k := ⟨a.keys[i], Array.getElem?_eq_getElem h⟩

theorem mem_keys_iff : k ∈ a.keys.toList ↔ ∃ i, a.key? i = some k := by
  rw [List.mem_iff_getElem?]
  simp only [key?, Array.getElem?_toList]

theorem mem_keysOf : k ∈ a.keysOf ids ↔ ∃ i ∈ ids, a.key? i = some k := List.mem_filterMap

theorem keysOf_subset (a : Arena K) (ids : List Nat) : ∀ k ∈ a.keysOf ids, k ∈ a.keys.toList := by
  intro k hk
  obtain ⟨i, _, hi⟩ := mem_keysOf.1 hk
  exact mem_keys_iff.2 ⟨i, hi⟩

/-- All ids give all keys. -/
theorem keysOf_ids (a : Arena K) : a.keysOf a.ids = a.keys.toList := by
  apply List.ext_getElem?
  intro i
  have all : ∀ i ∈ a.ids, ∃ k, a.key? i = some k := fun i hi => exists_key? (List.mem_range.1 hi)
  rw [keysOf, getElem?_filterMap all, Arena.ids]
  by_cases small : i < a.size
  · rw [List.getElem?_range small, Array.getElem?_toList]
    rfl
  · have past : a.size ≤ i := Nat.le_of_not_lt small
    rw [List.getElem?_eq_none (by rwa [List.length_range]), List.getElem?_eq_none past]
    rfl

/-- Ids of the arena all become keys. -/
theorem map_keysOf (inside : ∀ i ∈ ids, i < a.size) : (a.keysOf ids).map some = ids.map a.key? := by
  induction ids with
  | nil => rfl
  | cons i ids ih =>
    obtain ⟨hi, inside⟩ := List.forall_mem_cons.1 inside
    obtain ⟨k, hk⟩ := exists_key? hi
    rw [keysOf, List.filterMap_cons_some hk, List.map_cons, List.map_cons, hk]
    exact congrArg (some k :: ·) (ih inside)

theorem length_keysOf (inside : ∀ i ∈ ids, i < a.size) : (a.keysOf ids).length = ids.length := by
  have keys := congrArg List.length (map_keysOf inside)
  rwa [List.length_map, List.length_map] at keys

theorem key_eq (h : a.key? i = some k) : a.key i = .ok k := by rw [key, h]

/-- Looking up ids of the arena one by one gives their keys. -/
theorem mapM_key (inside : ∀ i ∈ ids, i < a.size) : ids.mapM a.key = .ok (a.keysOf ids) := by
  induction ids with
  | nil => rfl
  | cons i ids ih =>
    obtain ⟨first, inside⟩ := List.forall_mem_cons.1 inside
    obtain ⟨k, hk⟩ := exists_key? first
    rw [List.mapM_cons, key_eq hk, ih inside, keysOf, keysOf, List.filterMap_cons_some hk]
    rfl

theorem edgesOf_append (a : Arena K) (es es' : Array Edge) : a.edgesOf (es ++ es') = a.edgesOf es ++ a.edgesOf es' := by
  rw [edgesOf, Array.toList_append, List.filterMap_append]
  rfl

theorem mem_edgesOf {edges : Array Edge} : (k, l) ∈ a.edgesOf edges ↔
    ∃ e ∈ edges.toList, a.key? e.1 = some k ∧ a.key? e.2 = some l := by
  rw [edgesOf, List.mem_filterMap]
  have ends : ∀ e : Edge, a.edge? e = some (k, l) ↔ a.key? e.1 = some k ∧ a.key? e.2 = some l := by
    intro e
    unfold edge?
    cases a.key? e.1 <;> cases a.key? e.2 <;> simp
  simp only [ends]

/-- Edges between ids of the arena all become edges between keys. -/
theorem map_edgesOf {edges : Array Edge} (inside : ∀ e ∈ edges.toList, e.1 < a.size ∧ e.2 < a.size) :
    (a.edgesOf edges).map (Prod.map some some) = edges.toList.map (Prod.map a.key? a.key?) := by
  rw [edgesOf]
  generalize edges.toList = es at inside ⊢
  induction es with
  | nil => rfl
  | cons e rest ih =>
    obtain ⟨i, j⟩ := e
    obtain ⟨hi, hj⟩ := inside (i, j) List.mem_cons_self
    obtain ⟨k, hk⟩ := exists_key? hi
    obtain ⟨l, hl⟩ := exists_key? hj
    have named : a.edge? (i, j) = some (k, l) := by simp [edge?, hk, hl]
    rw [List.filterMap_cons_some named, List.map_cons, List.map_cons,
      ih fun f hf => inside f (List.mem_cons_of_mem _ hf)]
    simp [hk, hl]

theorem length_edgesOf {edges : Array Edge} (inside : ∀ e ∈ edges.toList, e.1 < a.size ∧ e.2 < a.size) :
    (a.edgesOf edges).length = edges.size := by
  have ends := congrArg List.length (map_edgesOf inside)
  rwa [List.length_map, List.length_map, Array.length_toList] at ends

variable [VertexKey K]

/-- Different ids have different keys. -/
theorem key?_inj (hi : a.key? i = some k) (hj : a.key? j = some k) : i = j :=
  Except.ok.inj ((id_eq_ok_iff.2 hi).symm.trans (id_eq_ok_iff.2 hj))

theorem mem_keysOf_iff (h : a.key? i = some k) : k ∈ a.keysOf ids ↔ i ∈ ids := by
  rw [mem_keysOf]
  constructor
  · rintro ⟨j, hj, again⟩
    rwa [key?_inj h again]
  · exact fun hi => ⟨i, hi, h⟩

theorem nodup_keysOf (nodup : ids.Nodup) : (a.keysOf ids).Nodup := by
  refine nodup.filterMap fun i j k hi hj => ?_
  exact key?_inj hi hj

theorem edgeId_eq_ok_iff {e : Edge} :
    a.edgeId (k, l) = .ok e ↔ a.key? e.1 = some k ∧ a.key? e.2 = some l := by
  obtain ⟨i, j⟩ := e
  rw [← id_eq_ok_iff, ← id_eq_ok_iff]
  unfold edgeId
  cases a.id k <;> cases a.id l <;> simp [bind, Except.bind, pure, Except.pure]

/-- An unknown first end is reported, and an unknown second end of an edge whose first end is known. -/
theorem edgeId_eq_error_iff {e : GraphError} : a.edgeId (k, l) = .error e ↔
    (k ∉ a.keys.toList ∧ e = .unknownVertex (describe k)) ∨
      (k ∈ a.keys.toList ∧ l ∉ a.keys.toList ∧ e = .unknownVertex (describe l)) := by
  unfold edgeId
  simp only [bind_eq_error, id_eq_error_iff, id_eq_ok_iff, pure, Except.pure, reduceCtorEq, and_false, exists_false,
    or_false, exists_and_right, ← mem_keys_iff]

/-- The place of a key. -/
def placeOf (a : Arena K) (k : K) : Nat := a.keys.toList.idxOf k

theorem key?_placeOf (hk : k ∈ a.keys.toList) : a.key? (a.placeOf k) = some k := by
  rw [key?, ← Array.getElem?_toList]
  exact List.getElem?_idxOf hk

theorem placeOf_eq (hi : a.key? i = some k) : a.placeOf k = i := key?_inj (key?_placeOf (mem_keys_iff.2 ⟨i, hi⟩)) hi

theorem oneToOne_placeOf (a : Arena K) : OneToOne a.placeOf a.keys.toList := by
  intro k hk l hl same
  have named := key?_placeOf hk
  rw [same, key?_placeOf hl] at named
  exact (Option.some.inj named).symm

/-- The places of the ends of edges between keys are the ids that the edges are made of. -/
theorem map_placeOf_edgesOf {edges : Array Edge}
    (inside : ∀ e ∈ edges.toList, e.1 < a.size ∧ e.2 < a.size) :
    (a.edgesOf edges).map (Prod.map a.placeOf a.placeOf) = edges.toList := by
  let place (k : Option K) : Nat := k.elim 0 a.placeOf
  have back : ∀ i < a.size, place (a.key? i) = i := by
    intro i hi
    obtain ⟨k, hk⟩ := exists_key? hi
    rw [hk]
    exact placeOf_eq hk
  calc (a.edgesOf edges).map (Prod.map a.placeOf a.placeOf)
      = ((a.edgesOf edges).map (Prod.map some some)).map (Prod.map place place) := by rw [List.map_map]; rfl
    _ = (edges.toList.map (Prod.map a.key? a.key?)).map (Prod.map place place) := by rw [map_edgesOf inside]
    _ = edges.toList := by
      rw [List.map_map]
      refine (List.map_congr_left fun e he => ?_).trans (List.map_id _)
      exact Prod.ext (back e.1 (inside e he).1) (back e.2 (inside e he).2)

/-- A list of edges has ids if and only if all ends are keys of the arena, and the ids are the places of the ends. -/
theorem edgeIds_eq_ok_iff {edges : List (K × K)} {es : List Edge} : a.edgeIds edges = .ok es ↔
    (∀ e ∈ edges, e.1 ∈ a.keys.toList ∧ e.2 ∈ a.keys.toList) ∧ es = edges.map (Prod.map a.placeOf a.placeOf) := by
  induction edges generalizing es with
  | nil => simp [edgeIds, pure, Except.pure, eq_comm]
  | cons edge edges ih =>
    obtain ⟨k, l⟩ := edge
    rw [edgeIds, List.mapM_cons]
    constructor
    · intro h
      obtain ⟨first, ends, h⟩ := bind_eq_ok.1 h
      obtain ⟨rest, others, h⟩ := bind_eq_ok.1 h
      obtain rfl := Except.ok.inj h
      obtain ⟨hk, hl⟩ := edgeId_eq_ok_iff.1 ends
      obtain ⟨inside, rfl⟩ := ih.1 others
      refine ⟨List.forall_mem_cons.2 ⟨⟨mem_keys_iff.2 ⟨_, hk⟩, mem_keys_iff.2 ⟨_, hl⟩⟩, inside⟩, ?_⟩
      rw [List.map_cons, Prod.map, placeOf_eq hk, placeOf_eq hl]
    · rintro ⟨inside, rfl⟩
      obtain ⟨⟨hk, hl⟩, inside⟩ := List.forall_mem_cons.1 inside
      have ends : a.edgeId (k, l) = .ok (a.placeOf k, a.placeOf l) :=
        edgeId_eq_ok_iff.2 ⟨key?_placeOf hk, key?_placeOf hl⟩
      have others := ih.2 ⟨inside, rfl⟩
      rw [edgeIds] at others
      rw [ends, others]
      rfl

/-- The ends of edges between keys of the arena are ids of it. -/
theorem edgeIds_inside {edges : List (K × K)} {es : List Edge}
    (h : a.edgeIds edges = .ok es) : ∀ e ∈ es, e.1 < a.size ∧ e.2 < a.size := by
  obtain ⟨inside, rfl⟩ := edgeIds_eq_ok_iff.1 h
  refine List.forall_mem_map.2 fun e he => ?_
  obtain ⟨first, second⟩ := inside e he
  exact ⟨lt_size (key?_placeOf first), lt_size (key?_placeOf second)⟩

theorem keys_ofKeys {keys : List K} (nodup : keys.Nodup) : (ofKeys keys).keys = keys.toArray :=
  congrArg List.toArray (distinct_eq_self nodup)

end Arena
end CliqueTree
