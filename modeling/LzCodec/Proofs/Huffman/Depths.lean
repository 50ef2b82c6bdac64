import LzCodec.Proofs.Huffman.Siblings

/-!
# Depths along the queue

In the tree that a queue is joined to, no tree of the queue hangs deeper than one that stands before it,
and those that weigh nearly the same hang at most one row apart (`exists_hung_of_join`). Counted symbols
stand in the queue by weight, and those of one weight by symbol, so the same holds of them
(`length_le_of_ahead`).
-/

namespace LzCodec

namespace Huffman

/-- An item that is inserted stands behind all that weigh no more, and before all others. -/
theorem exists_split_enqueue {α : Type} (x : Weighted α) {queue : List (Weighted α)}
    (h : queue.Pairwise fun x y => x.weight ≤ y.weight) :
    ∃ before after, queue = before ++ after ∧ enqueue x queue = before ++ x :: after ∧
      (∀ y ∈ before, y.weight ≤ x.weight) ∧ ∀ y ∈ after, x.weight < y.weight := by
  induction queue with
  | nil => exact ⟨[], [], rfl, rfl, List.forall_mem_nil _, List.forall_mem_nil _⟩
  | cons y rest ih =>
    obtain ⟨hfirst, hrest⟩ := List.pairwise_cons.1 h
    rw [enqueue]
    split
    · rename_i hle
      obtain ⟨before, after, rfl, hrun, hbefore, hafter⟩ := ih hrest
      exact ⟨y :: before, after, rfl, by rw [hrun, List.cons_append],
        List.forall_mem_cons.2 ⟨hle, hbefore⟩, hafter⟩
    · rename_i hlt
      refine ⟨[], y :: rest, rfl, rfl, List.forall_mem_nil _, ?_⟩
      intro z hz
      rcases List.mem_cons.1 hz with rfl | hz
      · exact Nat.lt_of_not_le hlt
      · exact Nat.lt_of_lt_of_le (Nat.lt_of_not_le hlt) (hfirst z hz)

/-- A tree of the queue, and how deep it hangs in the tree that the queue is joined to. -/
structure Hanging where
  tree : Weighted Tree
  depth : Nat

/-- How the trees of a queue hang in the tree that they are joined to. Only a tree that is heavier by more
than the first one weighs may hang two rows less deep. -/
structure Hung (queue : List (Weighted Tree)) (u : Tree) (hangings : List Hanging) : Prop where
  trees : hangings.map Hanging.tree = queue
  leaves : (u.leaves 0).Perm (hangings.flatMap fun x => x.tree.item.leaves x.depth)
  descending : hangings.Pairwise fun x y => y.depth ≤ x.depth
  near : ∀ first ∈ queue.head?, ∀ x ∈ hangings, ∀ y ∈ hangings,
    y.tree.weight ≤ x.tree.weight + first.weight → x.depth ≤ y.depth + 1

section

variable {s t : Weighted Tree} {upper lower : List Hanging} {x : Hanging} {depth : Nat} {u : Tree}

theorem mem_append_cons_of_mem (hx : x ∈ upper ++ lower) (y : Hanging) : x ∈ upper ++ y :: lower :=
  List.perm_middle.mem_iff.2 (List.mem_cons_of_mem y hx)

/-- The first tree of the queue with the joined one weighs no less than the second one before. -/
theorem exists_head_joined
    (sorted : (s :: t :: (upper ++ lower).map Hanging.tree).Pairwise fun x y => x.weight ≤ y.weight) :
    ∃ first ∈ ((upper ++ ⟨⟨s.weight + t.weight, Tree.node s.item t.item⟩, depth⟩ :: lower).map
      Hanging.tree).head?, t.weight ≤ first.weight := by
  have hsecond := (List.pairwise_cons.1 (List.pairwise_cons.1 sorted).2).1
  cases upper with
  | nil => exact ⟨_, rfl, Nat.le_add_left _ _⟩
  | cons z _ => exact ⟨z.tree, rfl, hsecond _ List.mem_cons_self⟩

/-- The other trees hang at most one row below two that are joined. -/
theorem Hung.depth_le
    (sorted : (s :: t :: (upper ++ lower).map Hanging.tree).Pairwise fun x y => x.weight ≤ y.weight)
    (h : Hung ((upper ++ ⟨⟨s.weight + t.weight, .node s.item t.item⟩, depth⟩ :: lower).map Hanging.tree) u
      (upper ++ ⟨⟨s.weight + t.weight, .node s.item t.item⟩, depth⟩ :: lower))
    (hx : x ∈ upper ++ lower) : x.depth ≤ depth + 1 := by
  obtain ⟨hfirst, htail⟩ := List.pairwise_cons.1 sorted
  have hst : s.weight ≤ t.weight := hfirst t List.mem_cons_self
  have hlight : t.weight ≤ x.tree.weight :=
    (List.pairwise_cons.1 htail).1 _ (List.mem_map_of_mem hx)
  obtain ⟨first, hhead, hheavy⟩ := exists_head_joined sorted
  apply h.near first hhead x (mem_append_cons_of_mem hx _) ⟨_, depth⟩
    (List.perm_middle.mem_iff.2 List.mem_cons_self)
  dsimp only
  omega

/-- A tree that is no heavier than two together does not hang above where they are joined. -/
theorem Hung.le_depth {queue : List (Weighted Tree)}
    (h : Hung queue u (upper ++ ⟨⟨s.weight + t.weight, .node s.item t.item⟩, depth⟩ :: lower))
    (hafter : ∀ y ∈ lower, s.weight + t.weight < y.tree.weight)
    (hx : x ∈ ⟨s, depth + 1⟩ :: ⟨t, depth + 1⟩ :: (upper ++ lower))
    (hlight : x.tree.weight ≤ s.weight + t.weight) : depth ≤ x.depth := by
  rcases List.mem_cons.1 hx with rfl | hx
  · exact Nat.le_succ _
  rcases List.mem_cons.1 hx with rfl | hx
  · exact Nat.le_succ _
  rcases List.mem_append.1 hx with hx | hx
  · exact (List.pairwise_append.1 h.descending).2.2 x hx _ List.mem_cons_self
  · exact absurd hlight (Nat.not_le.2 (hafter x hx))

/-- Before two trees are joined, they hang one row below the joined one. -/
theorem Hung.split
    (sorted : (s :: t :: (upper ++ lower).map Hanging.tree).Pairwise fun x y => x.weight ≤ y.weight)
    (hafter : ∀ y ∈ lower, s.weight + t.weight < y.tree.weight)
    (h : Hung ((upper ++ ⟨⟨s.weight + t.weight, .node s.item t.item⟩, depth⟩ :: lower).map Hanging.tree) u
      (upper ++ ⟨⟨s.weight + t.weight, .node s.item t.item⟩, depth⟩ :: lower)) :
    Hung (s :: t :: (upper ++ lower).map Hanging.tree) u
      (⟨s, depth + 1⟩ :: ⟨t, depth + 1⟩ :: (upper ++ lower)) where
  trees := rfl
  leaves := by
    refine h.leaves.trans ((List.perm_middle.flatMap_right _).trans ?_)
    simp only [List.flatMap_cons, Tree.leaves, List.append_assoc]
    exact List.Perm.refl _
  descending := by
    obtain ⟨hupper, hlower, hacross⟩ := List.pairwise_append.1 h.descending
    have hrest : (upper ++ lower).Pairwise fun x y => y.depth ≤ x.depth :=
      List.pairwise_append.2 ⟨hupper, (List.pairwise_cons.1 hlower).2, fun x hx y hy =>
        hacross x hx y (List.mem_cons_of_mem _ hy)⟩
    have hshort : ∀ x ∈ upper ++ lower, x.depth ≤ depth + 1 := fun x hx => h.depth_le sorted hx
    refine List.pairwise_cons.2 ⟨?_, List.pairwise_cons.2 ⟨hshort, hrest⟩⟩
    exact List.forall_mem_cons.2 ⟨Nat.le_refl _, hshort⟩
  near := by
    intro _ hhead x hx y hy hle
    obtain rfl := Option.some.inj hhead
    have hst : s.weight ≤ t.weight := (List.pairwise_cons.1 sorted).1 t List.mem_cons_self
    have hdeep := h.le_depth hafter hy
    rcases List.mem_cons.1 hx with rfl | hx
    · exact Nat.succ_le_succ (hdeep (by dsimp only at hle; omega))
    rcases List.mem_cons.1 hx with rfl | hx
    · exact Nat.succ_le_succ (hdeep (by dsimp only at hle; omega))
    have hshort := h.depth_le sorted hx
    rcases List.mem_cons.1 hy with rfl | hy
    · exact Nat.le_succ_of_le hshort
    rcases List.mem_cons.1 hy with rfl | hy
    · exact Nat.le_succ_of_le hshort
    obtain ⟨first, hhead, hheavy⟩ := exists_head_joined sorted
    exact h.near first hhead x (mem_append_cons_of_mem hx _) y (mem_append_cons_of_mem hy _) (by omega)

end

theorem exists_hung_of_join {queue : List (Weighted Tree)} {u : Tree}
    (sorted : queue.Pairwise fun x y => x.weight ≤ y.weight) (run : join queue = some u) :
    ∃ hangings, Hung queue u hangings := by
  induction queue using join.induct with
  | case1 =>
    rw [join] at run
    cases run
  | case2 x =>
    rw [join] at run
    cases run
    refine ⟨[⟨x, 0⟩], rfl, ?_, List.pairwise_singleton _ _, ?_⟩
    · rw [List.flatMap_singleton]
    · intro _ _ y hy z _ _
      rw [List.mem_singleton.1 hy]
      exact Nat.zero_le _
  | case3 s t rest ih =>
    rw [join] at run
    have hrest := (List.pairwise_cons.1 (List.pairwise_cons.1 sorted).2).2
    obtain ⟨before, after, rfl, hqueue, -, hafter⟩ :=
      exists_split_enqueue ⟨s.weight + t.weight, Tree.node s.item t.item⟩ hrest
    obtain ⟨hangings, h⟩ := ih (enqueue_sorted _ hrest) run
    rw [hqueue] at h
    obtain ⟨upper, middle, rfl, rfl, hmiddle⟩ := List.map_eq_append_iff.1 h.trees
    obtain ⟨⟨joined, depth⟩, lower, rfl, rfl, rfl⟩ := List.map_eq_cons_iff.1 hmiddle
    rw [← List.map_append] at sorted ⊢
    exact ⟨_, .split sorted (fun y hy => hafter _ (List.mem_map_of_mem hy)) (by simpa using h)⟩

/-! ## Counted symbols -/

/-- A lighter tree stands ahead of a heavier one, and of one weight the tree with the smaller symbols. -/
def Ahead (x y : Weighted Tree) : Prop :=
  x.weight < y.weight ∨
    x.weight = y.weight ∧ ∀ a ∈ x.item.symbols, ∀ b ∈ y.item.symbols, a < b

theorem ahead_leafTree {c d : Weighted Nat} :
    Ahead (leafTree c) (leafTree d) ↔ c.weight < d.weight ∨ c.weight = d.weight ∧ c.item < d.item := by
  simp [Ahead, leafTree, Tree.symbols]

/-- A tree with larger symbols than all in the queue keeps the order. -/
theorem enqueue_ahead {x : Weighted Tree} {queue : List (Weighted Tree)} (h : queue.Pairwise Ahead)
    (hx : ∀ y ∈ queue, ∀ a ∈ y.item.symbols, ∀ b ∈ x.item.symbols, a < b) :
    (enqueue x queue).Pairwise Ahead := by
  have hsorted : queue.Pairwise fun x y => x.weight ≤ y.weight :=
    h.imp fun h => h.elim Nat.le_of_lt fun h => Nat.le_of_eq h.1
  obtain ⟨before, after, rfl, hqueue, hbefore, hafter⟩ := exists_split_enqueue x hsorted
  obtain ⟨hfront, hback, hacross⟩ := List.pairwise_append.1 h
  rw [hqueue]
  refine List.pairwise_append.2
    ⟨hfront, List.pairwise_cons.2 ⟨fun y hy => .inl (hafter y hy), hback⟩, ?_⟩
  intro y hy
  refine List.forall_mem_cons.2 ⟨?_, hacross y hy⟩
  rcases Nat.lt_or_eq_of_le (hbefore y hy) with hlt | heq
  · exact .inl hlt
  · exact .inr ⟨heq, hx y (List.mem_append_left _ hy)⟩

theorem foldl_enqueue_ahead {counts : List (Weighted Nat)}
    (sorted : counts.Pairwise fun c d => c.item < d.item) {queue : List (Weighted Tree)}
    (h : queue.Pairwise Ahead) (hlt : ∀ y ∈ queue, ∀ a ∈ y.item.symbols, ∀ c ∈ counts, a < c.item) :
    (counts.foldl (fun queue c => enqueue (leafTree c) queue) queue).Pairwise Ahead := by
  induction counts generalizing queue with
  | nil => exact h
  | cons c rest ih =>
    obtain ⟨hfirst, hrest⟩ := List.pairwise_cons.1 sorted
    apply ih hrest
    · apply enqueue_ahead h
      intro y hy a ha b hb
      rw [List.mem_singleton.1 hb]
      exact hlt y hy a ha c List.mem_cons_self
    · intro y hy a ha d hd
      rcases List.mem_cons.1 ((enqueue_perm _ _).mem_iff.1 hy) with rfl | hy
      · rw [List.mem_singleton.1 ha]
        exact hfirst d hd
      · exact hlt y hy a ha d (List.mem_cons_of_mem _ hd)

/-- In the tree of counted symbols, one that stands ahead of another in the queue is no less deep, and only
one row deeper if the other weighs no more. -/
theorem length_le_of_ahead {counts : List (Weighted Nat)} {u : Tree}
    (sorted : counts.Pairwise fun c d => c.item < d.item) (run : Tree.ofCounts counts = some u)
    {c d : Weighted Nat} (hc : c ∈ counts) (hd : d ∈ counts) {m n : Nat}
    (hm : (⟨c.item, m⟩ : Leaf) ∈ u.leaves 0) (hn : (⟨d.item, n⟩ : Leaf) ∈ u.leaves 0) :
    (Ahead (leafTree d) (leafTree c) → m ≤ n) ∧ (d.weight ≤ c.weight → m ≤ n + 1) := by
  have hahead := foldl_enqueue_ahead sorted List.Pairwise.nil
    (fun y hy => absurd hy (List.not_mem_nil))
  have hperm := foldl_enqueue_perm counts []
  rw [List.nil_append] at hperm
  generalize hqueue : counts.foldl (fun queue c => enqueue (leafTree c) queue) [] = queue
    at hahead hperm
  obtain ⟨hangings, h⟩ := exists_hung_of_join (u := u)
    (hahead.imp fun h => h.elim Nat.le_of_lt fun h => Nat.le_of_eq h.1) (hqueue ▸ run)
  have hnodup : (counts.map Weighted.item).Nodup := List.pairwise_map.2 (sorted.imp Nat.ne_of_lt)
  -- A leaf is that of a counted symbol, which is told by its symbol.
  have hhangs {e : Weighted Nat} (he : e ∈ counts) {k : Nat} (hk : (⟨e.item, k⟩ : Leaf) ∈ u.leaves 0) :
      (⟨leafTree e, k⟩ : Hanging) ∈ hangings := by
    obtain ⟨⟨tree, depth⟩, hx, hleaf⟩ := List.mem_flatMap.1 (h.leaves.mem_iff.1 hk)
    have htree : tree ∈ queue := h.trees ▸ List.mem_map_of_mem hx
    obtain ⟨e', he', rfl⟩ := List.mem_map.1 (hperm.mem_iff.1 htree)
    obtain ⟨hitem, rfl⟩ := Leaf.mk.inj (List.mem_singleton.1 hleaf)
    obtain rfl : e = e' := List.inj_on_of_nodup_map hnodup he he' hitem
    exact hx
  obtain ⟨i, hi, hci⟩ := List.getElem_of_mem (hhangs hc hm)
  obtain ⟨j, hj, hdj⟩ := List.getElem_of_mem (hhangs hd hn)
  constructor
  · intro hdc
    rcases Nat.lt_trichotomy i j with hlt | rfl | hlt
    · have hcd := List.pairwise_iff_getElem.1 (List.pairwise_map.1 (h.trees ▸ hahead)) i j hi hj hlt
      rw [hci, hdj, ahead_leafTree] at hcd
      rw [ahead_leafTree] at hdc
      omega
    · exact Nat.le_of_eq (congrArg Hanging.depth (hci.symm.trans hdj))
    · have hdepth := List.pairwise_iff_getElem.1 h.descending j i hj hi hlt
      rwa [hci, hdj] at hdepth
  · intro hle
    cases hhead : queue.head? with
    | none =>
      rw [List.head?_eq_none_iff.1 hhead] at hperm
      exact absurd (hperm.symm.eq_nil ▸ List.mem_map_of_mem hc) List.not_mem_nil
    | some first =>
      exact h.near first hhead _ (hhangs hc hm) _ (hhangs hd hn) (Nat.le_add_right_of_le hle)

end Huffman

end LzCodec
