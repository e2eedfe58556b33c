import CliqueTree.Proofs.Key.Arena
import CliqueTree.Proofs.Table.Replay

/-!
# Edge lists without loops and repeats

`simpleEdges` keeps of a list of edges between two vertices the first one, in whichever direction, and no loop;
`simpleArcs` tells the two directions apart. Where a fold skips what is settled, and every item is settled once it has
been looked at, a later repeat changes nothing (`Settles.foldl_distinct`), and a repeat of an edge in the other
direction changes nothing either if an edge and its reverse are settled together (`Settles.foldl_simpleEdges`).
-/

set_option autoImplicit false

namespace CliqueTree

section Lists
variable {α : Type} [DecidableEq α] {e : α × α} {l m : List (α × α)}

/-- The edges without loops and without those that join the ends of an edge before them. -/
def simpleEdges : List (α × α) → List (α × α)
  | [] => []
  | e :: rest =>
    if e.1 = e.2 then simpleEdges rest else e :: (simpleEdges rest).filter fun d => d ≠ e ∧ d ≠ e.swap

/-- The edges without loops and without those that repeat an edge before them in the same direction. -/
def simpleArcs (edges : List (α × α)) : List (α × α) := distinct (edges.filter fun e => e.1 ≠ e.2)

theorem mem_simpleArcs : e ∈ simpleArcs l ↔ e ∈ l ∧ e.1 ≠ e.2 := by
  simp [simpleArcs, mem_distinct]

theorem simpleArcs_concat (l : List (α × α)) (e : α × α) :
    simpleArcs (l ++ [e]) = if e.1 = e.2 ∨ e ∈ l then simpleArcs l else simpleArcs l ++ [e] := by
  by_cases loop : e.1 = e.2
  · simp [simpleArcs, loop]
  · by_cases old : e ∈ l <;> simp [simpleArcs, distinct_concat, loop, old]

theorem simpleEdges_subset : simpleEdges l ⊆ l := by
  induction l with
  | nil => exact fun _ h => h
  | cons d l ih =>
    rw [simpleEdges]
    split
    · exact fun e he => List.mem_cons_of_mem d (ih he)
    · exact List.cons_subset_cons d fun e he => ih (List.mem_filter.1 he).1

/-- An edge in a simple list is no loop. -/
theorem ne_of_mem_simpleEdges (h : e ∈ simpleEdges l) : e.1 ≠ e.2 := by
  induction l with
  | nil => exact absurd h List.not_mem_nil
  | cons d l ih =>
    rw [simpleEdges] at h
    split at h
    · exact ih h
    next proper =>
      rcases List.mem_cons.1 h with rfl | later
      · exact proper
      · exact ih (List.mem_filter.1 later).1

theorem simpleEdges_append (l m : List (α × α)) :
    simpleEdges (l ++ m) = simpleEdges l ++ (simpleEdges m).filter fun d => d ∉ l ∧ d.swap ∉ l := by
  induction l with
  | nil => simp [simpleEdges]
  | cons e l ih =>
    have reverse : ∀ d : α × α, d.swap = e ↔ d = e.swap := fun d => ⟨fun h => h ▸ rfl, fun h => h ▸ rfl⟩
    rw [List.cons_append, simpleEdges, simpleEdges, ih]
    split
    next loop =>
      refine congrArg (simpleEdges l ++ ·) (List.filter_congr fun d hd => ?_)
      have proper := ne_of_mem_simpleEdges hd
      have apart : d ≠ e ∧ d.swap ≠ e := by
        refine ⟨fun h => proper (h ▸ loop), fun h => proper ?_⟩
        rw [← h] at loop
        exact loop.symm
      simp [apart]
    next =>
      rw [List.filter_append, List.filter_filter, List.cons_append]
      refine congrArg (e :: (simpleEdges l).filter _ ++ ·) (List.filter_congr fun d _ => ?_)
      simp only [List.mem_cons, not_or, reverse]
      grind

theorem simpleEdges_concat (l : List (α × α)) (e : α × α) :
    simpleEdges (l ++ [e]) = if e.1 = e.2 ∨ e ∈ l ∨ e.swap ∈ l then simpleEdges l else simpleEdges l ++ [e] := by
  rw [simpleEdges_append, simpleEdges, simpleEdges]
  by_cases loop : e.1 = e.2
  · simp [loop]
  · by_cases forth : e ∈ l <;> by_cases back : e.swap ∈ l <;> simp [loop, forth, back]

/-- What joins two vertices is the same with the directions of repeats forgotten. -/
theorem simpleEdges_simpleArcs (l : List (α × α)) : simpleEdges (simpleArcs l) = simpleEdges l := by
  induction l using List.reverseRecOn with
  | nil => rfl
  | append_singleton l e ih =>
    rw [simpleArcs_concat, simpleEdges_concat]
    by_cases loop : e.1 = e.2
    · rw [if_pos (.inl loop), if_pos (.inl loop), ih]
    · by_cases old : e ∈ l
      · rw [if_pos (.inr old), if_pos (.inr (.inl old)), ih]
      · rw [if_neg (by simp [loop, old]), simpleEdges_concat, ih]
        have proper : e.swap.1 ≠ e.swap.2 := Ne.symm loop
        simp only [mem_simpleArcs, proper, loop, old, ne_eq, not_false_eq_true, and_true]

section Images
variable {β : Type} [DecidableEq β] {f : α → β} {keys : List α}

theorem simpleArcs_map (inj : OneToOne f keys) (ends : ∀ e ∈ l, e.1 ∈ keys ∧ e.2 ∈ keys) :
    simpleArcs (l.map (Prod.map f f)) = (simpleArcs l).map (Prod.map f f) := by
  have proper : (l.map (Prod.map f f)).filter (fun e => e.1 ≠ e.2) =
      (l.filter fun e => e.1 ≠ e.2).map (Prod.map f f) := by
    rw [List.filter_map]
    refine congrArg (List.map _) (List.filter_congr fun e he => ?_)
    have same : f e.1 = f e.2 ↔ e.1 = e.2 := ⟨inj _ (ends e he).1 _ (ends e he).2, congrArg f⟩
    simp [same]
  rw [simpleArcs, proper, simpleArcs]
  exact distinct_map (inj.prodMap fun e he => ends e (List.mem_filter.1 he).1)

theorem simpleEdges_map (inj : OneToOne f keys) (ends : ∀ e ∈ l, e.1 ∈ keys ∧ e.2 ∈ keys) :
    simpleEdges (l.map (Prod.map f f)) = (simpleEdges l).map (Prod.map f f) := by
  induction l using List.reverseRecOn with
  | nil => rfl
  | append_singleton l e ih =>
    have before : ∀ e ∈ l, e.1 ∈ keys ∧ e.2 ∈ keys := fun d hd => ends d (List.mem_append_left [e] hd)
    obtain ⟨h1, h2⟩ := ends e (by simp)
    have loop : f e.1 = f e.2 ↔ e.1 = e.2 := ⟨inj _ h1 _ h2, congrArg f⟩
    have member : ∀ d : α × α, d.1 ∈ keys → d.2 ∈ keys → (Prod.map f f d ∈ l.map (Prod.map f f) ↔ d ∈ l) := by
      intro d hd1 hd2
      refine ⟨fun h => ?_, List.mem_map_of_mem⟩
      obtain ⟨e, he, same⟩ := List.mem_map.1 h
      obtain ⟨first, second⟩ := Prod.mk.inj same
      obtain rfl : e = d := Prod.ext (inj _ (before e he).1 _ hd1 first) (inj _ (before e he).2 _ hd2 second)
      exact he
    have reverse : (Prod.map f f e).swap = Prod.map f f e.swap := rfl
    rw [List.map_append, List.map_singleton, simpleEdges_concat, simpleEdges_concat, ih before, reverse]
    simp only [Prod.map_fst, Prod.map_snd, loop, member e h1 h2, member e.swap h2 h1]
    split <;> simp

end Images

/-- Every two vertices of a list make one simple pair. -/
theorem simpleEdges_pairs (l : List α) : simpleEdges (pairs l) = pairs (distinct l) := by
  -- the pairs with the head come first, and a pair of the rest repeats one of them just if it names the head
  have first : ∀ (a : α) (l : List α), simpleEdges (l.map (a, ·)) = ((distinct l).filter (· ≠ a)).map (a, ·) := by
    intro a l
    induction l using List.reverseRecOn with
    | nil => rfl
    | append_singleton l b ih =>
      rw [List.map_append, List.map_singleton, simpleEdges_concat, ih, distinct_concat]
      by_cases same : a = b
      · subst same
        by_cases old : a ∈ l <;> simp [old]
      · by_cases old : b ∈ l <;> simp [same, Ne.symm same, old]
  induction l with
  | nil => rfl
  | cons a l ih =>
    rw [pairs, simpleEdges_append, first, ih, distinct, pairs, pairs_filter]
    refine congrArg (List.map (a, ·) _ ++ ·) (List.filter_congr fun p hp => ?_)
    obtain ⟨b, c⟩ := p
    obtain ⟨hb, hc⟩ := mem_of_mem_pairs hp
    rw [mem_distinct] at hb hc
    simp only [List.mem_map, Prod.mk.injEq, Prod.swap_prod_mk]
    grind

end Lists

section Folds
variable {σ α : Type}

/-- A step changes nothing where its item is settled; it settles its item, and what is settled stays so. The states
and items for which this holds are closed under the step. -/
structure Settles (step : σ → α → σ) (settled : σ → α → Prop) (state : σ → Prop) (item : α → Prop) : Prop where
  idle : ∀ {s a}, settled s a → step s a = s
  keeps : ∀ {s a}, state s → item a → state (step s a)
  settles : ∀ {s a}, state s → item a → settled (step s a) a
  stays : ∀ {s a b}, state s → item a → settled s b → settled (step s a) b

namespace Settles
variable {step : σ → α → σ} {settled : σ → α → Prop} {state : σ → Prop} {item : α → Prop} {s : σ} {l : List α}

/-- A fold settles all its items. -/
theorem foldl (h : Settles step settled state item) (hs : state s) (hl : ∀ a ∈ l, item a) :
    state (l.foldl step s) ∧ ∀ a, settled s a ∨ a ∈ l → settled (l.foldl step s) a := by
  induction l generalizing s with
  | nil => exact ⟨hs, fun a ha => ha.resolve_right List.not_mem_nil⟩
  | cons b l ih =>
    have hb := hl b List.mem_cons_self
    obtain ⟨last, all⟩ := ih (h.keeps hs hb) fun a ha => hl a (List.mem_cons_of_mem b ha)
    refine ⟨last, fun a ha => all a ?_⟩
    rcases ha with old | ha
    · exact .inl (h.stays hs hb old)
    · rcases List.mem_cons.1 ha with rfl | later
      · exact .inl (h.settles hs hb)
      · exact .inr later

/-- A list may leave out an item that is settled when its turn comes. -/
theorem foldl_eq_of_concat (h : Settles step settled state item) (hs : state s) (simplify : List α → List α)
    (nil : simplify [] = [])
    (concat : ∀ l a, state (l.foldl step s) → (∀ b, settled s b ∨ b ∈ l → settled (l.foldl step s) b) →
      simplify (l ++ [a]) = simplify l ++ [a] ∨ simplify (l ++ [a]) = simplify l ∧ settled (l.foldl step s) a)
    (hl : ∀ a ∈ l, item a) : (simplify l).foldl step s = l.foldl step s := by
  induction l using List.reverseRecOn with
  | nil => rw [nil]
  | append_singleton l a ih =>
    have items : ∀ b ∈ l, item b := fun b hb => hl b (List.mem_append_left [a] hb)
    obtain ⟨now, all⟩ := h.foldl hs items
    rw [List.foldl_append, List.foldl_cons, List.foldl_nil]
    rcases concat l a now all with kept | ⟨dropped, idle⟩
    · rw [kept, List.foldl_append, ih items, List.foldl_cons, List.foldl_nil]
    · rw [dropped, ih items, h.idle idle]

theorem foldl_distinct [DecidableEq α] (h : Settles step settled state item) (hs : state s) (hl : ∀ a ∈ l, item a) :
    (distinct l).foldl step s = l.foldl step s := by
  refine h.foldl_eq_of_concat hs distinct rfl (fun l a _ all => ?_) hl
  rw [distinct_concat]
  split
  next old => exact .inr ⟨rfl, all a (.inr old)⟩
  next => exact .inl rfl

/-- What is settled at the start may be left out. -/
theorem foldl_filter (h : Settles step settled state item) (hs : state s) (keep : α → Bool)
    (idle : ∀ a ∈ l, ¬ keep a = true → settled s a) (hl : ∀ a ∈ l, item a) :
    (l.filter keep).foldl step s = l.foldl step s := by
  induction l generalizing s with
  | nil => rfl
  | cons b l ih =>
    have items : ∀ a ∈ l, item a := fun a ha => hl a (List.mem_cons_of_mem b ha)
    by_cases kept : keep b = true
    · have hb := hl b List.mem_cons_self
      rw [List.filter_cons_of_pos kept, List.foldl_cons, List.foldl_cons]
      refine ih (h.keeps hs hb) (fun a ha out => ?_) items
      exact h.stays hs hb (idle a (List.mem_cons_of_mem b ha) out)
    · rw [List.filter_cons_of_neg kept, List.foldl_cons, h.idle (idle b List.mem_cons_self kept)]
      exact ih hs (fun a ha => idle a (List.mem_cons_of_mem b ha)) items

end Settles

theorem Settles.foldl_simpleEdges {α : Type} [DecidableEq α] {step : σ → α × α → σ} {settled : σ → α × α → Prop}
    {state : σ → Prop} {item : α × α → Prop} {s : σ} {l : List (α × α)} (h : Settles step settled state item)
    (loop : ∀ s a, settled s (a, a)) (swap : ∀ s e, state s → settled s e → settled s e.swap) (hs : state s)
    (hl : ∀ a ∈ l, item a) : (simpleEdges l).foldl step s = l.foldl step s := by
  refine h.foldl_eq_of_concat hs simpleEdges rfl (fun l e now all => ?_) hl
  rw [simpleEdges_concat]
  split
  next old =>
    refine .inr ⟨rfl, ?_⟩
    obtain ⟨a, b⟩ := e
    rcases old with same | forth | back
    · obtain rfl : a = b := same
      exact loop _ a
    · exact all _ (.inr forth)
    · exact swap _ _ now (all _ (.inr back))
  next => exact .inl rfl

end Folds
end CliqueTree
