import LzCodec.Huffman.Decoder

/-!
# Trees and their leaves

The leaves of a tree fill the windows of any width that is at least its height (`windows_leaves`), and
joining a queue keeps its symbols (`join_perm`). With equal weights the queue is first in, first out,
so the tree is no higher than the number of its leaves needs (`height_join_le`).
-/

namespace LzCodec

namespace Huffman

@[simp] theorem windows_nil (width : Nat) : windows width [] = 0 := rfl

@[simp] theorem windows_cons (width : Nat) (leaf : Leaf) (rest : List Leaf) :
    windows width (leaf :: rest) = 2 ^ (width - leaf.length) + windows width rest := rfl

theorem windows_append (width : Nat) (a b : List Leaf) :
    windows width (a ++ b) = windows width a + windows width b := by
  induction a with
  | nil => simp
  | cons leaf rest ih => rw [List.cons_append, windows_cons, windows_cons, ih, Nat.add_assoc]

theorem windows_perm (width : Nat) {a b : List Leaf} (h : a.Perm b) :
    windows width a = windows width b := by
  induction h with
  | nil => rfl
  | cons leaf _ ih => rw [windows_cons, windows_cons, ih]
  | swap x y rest =>
    simp only [windows_cons]
    omega
  | trans _ _ ih₁ ih₂ => exact ih₁.trans ih₂

/-- Each window of a smaller width splits into as many as the added bits tell apart. -/
theorem windows_widen {width : Nat} (more : Nat) {leaves : List Leaf}
    (h : ∀ leaf ∈ leaves, leaf.length ≤ width) :
    windows (width + more) leaves = 2 ^ more * windows width leaves := by
  induction leaves with
  | nil => simp
  | cons leaf rest ih =>
    have hleaf : width + more - leaf.length = more + (width - leaf.length) := by
      have := h leaf List.mem_cons_self
      omega
    rw [windows_cons, windows_cons, ih fun l hl => h l (List.mem_cons_of_mem _ hl), hleaf,
      Nat.pow_add, Nat.mul_add]

namespace Tree

def symbols : Tree → List Nat
  | leaf symbol => [symbol]
  | node left right => left.symbols ++ right.symbols

def height : Tree → Nat
  | leaf _ => 0
  | node left right => max left.height right.height + 1

theorem symbol_leaves (t : Tree) (depth : Nat) : (t.leaves depth).map Leaf.symbol = t.symbols := by
  induction t generalizing depth with
  | leaf symbol => rfl
  | node left right ihl ihr => rw [leaves, symbols, List.map_append, ihl, ihr]

theorem length_leaves {t : Tree} {depth : Nat} {leaf : Leaf} (h : leaf ∈ t.leaves depth) :
    depth ≤ leaf.length ∧ leaf.length ≤ depth + t.height := by
  induction t generalizing depth with
  | leaf symbol =>
    rw [leaves, List.mem_singleton] at h
    subst h
    exact ⟨Nat.le_refl _, Nat.le_refl _⟩
  | node left right ihl ihr =>
    rw [height]
    rcases List.mem_append.1 h with h | h
    · have := ihl h
      omega
    · have := ihr h
      omega

theorem exists_deepest (t : Tree) (depth : Nat) :
    ∃ leaf ∈ t.leaves depth, leaf.length = depth + t.height := by
  induction t generalizing depth with
  | leaf symbol => exact ⟨_, List.mem_singleton_self _, rfl⟩
  | node left right ihl ihr =>
    obtain ⟨l, hl, hll⟩ := ihl (depth + 1)
    obtain ⟨r, hr, hrl⟩ := ihr (depth + 1)
    rw [height, leaves]
    by_cases h : left.height ≤ right.height
    · exact ⟨r, List.mem_append_right _ hr, by rw [hrl, Nat.max_eq_right h]; omega⟩
    · exact ⟨l, List.mem_append_left _ hl, by rw [hll, Nat.max_eq_left (by omega)]; omega⟩

theorem windows_leaves {t : Tree} {depth width : Nat} (h : depth + t.height ≤ width) :
    windows width (t.leaves depth) = 2 ^ (width - depth) := by
  induction t generalizing depth with
  | leaf symbol => rw [leaves, windows_cons, windows_nil, Nat.add_zero]
  | node left right ihl ihr =>
    rw [height] at h
    rw [leaves, windows_append, ihl (by omega), ihr (by omega), ← Nat.two_mul, ← Nat.pow_succ']
    congr 1
    omega

end Tree

theorem enqueue_perm {α : Type} (x : Weighted α) (queue : List (Weighted α)) :
    (enqueue x queue).Perm (x :: queue) := by
  induction queue with
  | nil => exact List.Perm.refl _
  | cons y rest ih =>
    rw [enqueue]
    split
    · exact (ih.cons y).trans (List.Perm.swap x y rest)
    · exact List.Perm.refl _

theorem enqueue_of_le {α : Type} {x : Weighted α} {queue : List (Weighted α)}
    (h : ∀ y ∈ queue, y.weight ≤ x.weight) : enqueue x queue = queue ++ [x] := by
  induction queue with
  | nil => rfl
  | cons y rest ih =>
    rw [enqueue, if_pos (h y List.mem_cons_self), ih fun z hz => h z (List.mem_cons_of_mem _ hz),
      List.cons_append]

/-- The symbols of all trees in a queue. -/
def queueSymbols (queue : List (Weighted Tree)) : List Nat := queue.flatMap fun t => t.item.symbols

theorem join_perm {queue : List (Weighted Tree)} (h : queue ≠ []) :
    ∃ t, join queue = some t ∧ t.symbols.Perm (queueSymbols queue) := by
  induction hn : queue.length using Nat.strongRecOn generalizing queue with
  | ind n ih =>
    match queue, h with
    | [t], _ =>
      exact ⟨t.item, by rw [join], by simp [queueSymbols]⟩
    | s :: t :: rest, _ =>
      have hlen : (enqueue ⟨s.weight + t.weight, .node s.item t.item⟩ rest).length < n := by
        rw [length_enqueue, ← hn]
        simp
      obtain ⟨u, run, perm⟩ := ih _ hlen
        (by rw [← List.length_pos_iff, length_enqueue]; exact Nat.succ_pos _) rfl
      refine ⟨u, by rw [join, run], perm.trans ?_⟩
      refine ((enqueue_perm _ rest).flatMap_right _).trans ?_
      simp [queueSymbols, Tree.symbols]

/-- Weights and heights both grow along the queue, weights at most twofold and heights by at most
one. Trees of equal leaves start that way, and joining the first two keeps it. -/
structure Level (queue : List (Weighted Tree)) : Prop where
  sorted : queue.Pairwise fun x y => x.weight ≤ y.weight ∧ x.item.height ≤ y.item.height
  near : ∀ x ∈ queue, ∀ y ∈ queue,
    y.weight ≤ 2 * x.weight ∧ y.item.height ≤ x.item.height + 1

section
variable {s t : Weighted Tree} {rest : List (Weighted Tree)}

/-- The join of the first two trees goes to the end of a level queue. -/
theorem Level.enqueue_eq (h : Level (s :: t :: rest)) :
    enqueue ⟨s.weight + t.weight, .node s.item t.item⟩ rest =
      rest ++ [⟨s.weight + t.weight, .node s.item t.item⟩] := by
  apply enqueue_of_le
  intro y hy
  have hst := (List.rel_of_pairwise_cons h.sorted List.mem_cons_self).1
  have hsy := (h.near s List.mem_cons_self y
    (List.mem_cons_of_mem _ (List.mem_cons_of_mem _ hy))).1
  dsimp only
  omega

theorem Level.height_node (h : Level (s :: t :: rest)) :
    (Tree.node s.item t.item).height = t.item.height + 1 := by
  have hst := (List.rel_of_pairwise_cons h.sorted List.mem_cons_self).2
  rw [Tree.height, Nat.max_eq_right hst]

theorem Level.next (h : Level (s :: t :: rest)) :
    Level (rest ++ [⟨s.weight + t.weight, .node s.item t.item⟩]) := by
  have hst := List.rel_of_pairwise_cons h.sorted List.mem_cons_self
  have hnode := h.height_node
  have hs : s ∈ s :: t :: rest := List.mem_cons_self
  have ht : t ∈ s :: t :: rest := List.mem_cons_of_mem _ List.mem_cons_self
  have hrest {y : Weighted Tree} (hy : y ∈ rest) : y ∈ s :: t :: rest :=
    List.mem_cons_of_mem _ (List.mem_cons_of_mem _ hy)
  have htail := (List.pairwise_cons.1 h.sorted).2
  have hty {y : Weighted Tree} (hy : y ∈ rest) := List.rel_of_pairwise_cons htail hy
  constructor
  · rw [List.pairwise_append]
    refine ⟨(List.pairwise_cons.1 htail).2, List.pairwise_singleton _ _, ?_⟩
    intro y hy z hz
    rw [List.mem_singleton] at hz
    subst hz
    have hsy := h.near s hs y (hrest hy)
    dsimp only
    omega
  · intro x hx y hy
    rcases List.mem_append.1 hx with hx | hx <;> rcases List.mem_append.1 hy with hy | hy
    · exact h.near x (hrest hx) y (hrest hy)
    · rw [List.mem_singleton] at hy
      subst hy
      have htx := hty hx
      dsimp only
      omega
    · rw [List.mem_singleton] at hx
      subst hx
      have hsy := h.near s hs y (hrest hy)
      dsimp only
      omega
    · rw [List.mem_singleton] at hx hy
      subst hx hy
      dsimp only
      omega

end

/-- The windows that trees of these heights would fill, one beside the other. -/
def span (queue : List (Weighted Tree)) : Nat :=
  queue.foldr (fun t n => 2 ^ t.item.height + n) 0

@[simp] theorem span_cons (t : Weighted Tree) (rest : List (Weighted Tree)) :
    span (t :: rest) = 2 ^ t.item.height + span rest := rfl

theorem span_append_singleton (queue : List (Weighted Tree)) (t : Weighted Tree) :
    span (queue ++ [t]) = span queue + 2 ^ t.item.height := by
  induction queue with
  | nil => simp [span]
  | cons x rest ih => rw [List.cons_append, span_cons, span_cons, ih, Nat.add_assoc]

theorem span_of_height {queue : List (Weighted Tree)} {height : Nat}
    (h : ∀ t ∈ queue, t.item.height = height) : span queue = queue.length * 2 ^ height := by
  induction queue with
  | nil => simp [span]
  | cons x rest ih =>
    rw [span_cons, h x List.mem_cons_self, ih fun t ht => h t (List.mem_cons_of_mem _ ht),
      List.length_cons, Nat.succ_mul, Nat.add_comm]

/-- What is added to multiples of `w` without passing a multiple may be rounded up. -/
theorem room_for_next {a w n m : Nat} (ha : 0 < a) (h : a + (n + 1) * w ≤ m * w) :
    (n + 2) * w ≤ m * w := by
  have hlt : n + 1 < m := by
    apply Nat.lt_of_mul_lt_mul_right (a := w)
    omega
  exact Nat.mul_le_mul_right _ hlt

/-- Joining keeps below any power of two. If the first tree is lower than the second, all others are
as high as the second one, so there is room up to the next multiple of its windows. -/
theorem Level.span_next {s t : Weighted Tree} {rest : List (Weighted Tree)} {limit : Nat}
    (h : Level (s :: t :: rest)) (hspan : span (s :: t :: rest) ≤ 2 ^ limit) :
    span (rest ++ [⟨s.weight + t.weight, .node s.item t.item⟩]) ≤ 2 ^ limit := by
  have hst := (List.rel_of_pairwise_cons h.sorted List.mem_cons_self).2
  have hnear := (h.near s List.mem_cons_self t (List.mem_cons_of_mem _ List.mem_cons_self)).2
  rw [span_append_singleton, h.height_node, Nat.pow_succ]
  by_cases heq : s.item.height = t.item.height
  · rw [span_cons, span_cons, heq] at hspan
    omega
  · have hs : s.item.height + 1 = t.item.height := by omega
    have hall : ∀ y ∈ rest, y.item.height = t.item.height := by
      intro y hy
      have hsy := (h.near s List.mem_cons_self y
        (List.mem_cons_of_mem _ (List.mem_cons_of_mem _ hy))).2
      have hty := (List.rel_of_pairwise_cons (List.pairwise_cons.1 h.sorted).2 hy).2
      omega
    have hpow : 2 ^ t.item.height = 2 * 2 ^ s.item.height := by rw [← hs, Nat.pow_succ']
    rw [span_cons, span_cons, span_of_height hall] at hspan
    rw [span_of_height hall]
    have hlow := Nat.two_pow_pos s.item.height
    -- the limit is a multiple of the windows of the second tree
    have hlimit : t.item.height ≤ limit := by
      apply Nat.le_of_not_lt
      intro hlt
      have := Nat.pow_le_pow_right (show 0 < 2 by decide) hlt
      rw [Nat.pow_succ] at this
      omega
    obtain ⟨more, hmore⟩ := Nat.exists_eq_add_of_le hlimit
    rw [hmore, Nat.pow_add, Nat.mul_comm (2 ^ t.item.height)] at hspan ⊢
    rw [Nat.mul_comm (2 ^ t.item.height)]
    have hfit : 2 ^ s.item.height + (rest.length + 1) * 2 ^ t.item.height ≤
        2 ^ more * 2 ^ t.item.height := by
      rw [Nat.succ_mul, Nat.add_comm (rest.length * _)]
      exact hspan
    have hround := room_for_next hlow hfit
    rwa [Nat.add_mul] at hround

theorem height_join_le {queue : List (Weighted Tree)} {t : Tree} {limit : Nat} (h : Level queue)
    (hspan : span queue ≤ 2 ^ limit) (run : join queue = some t) : t.height ≤ limit := by
  induction hn : queue.length using Nat.strongRecOn generalizing queue with
  | ind n ih =>
    match queue, h, run with
    | [], _, run => simp [join] at run
    | [u], _, run =>
      rw [join, Option.some.injEq] at run
      subst run
      rw [span_cons] at hspan
      exact (Nat.pow_le_pow_iff_right (by decide)).1 (Nat.le_trans (Nat.le_add_right _ _) hspan)
    | s :: u :: rest, h, run =>
      rw [join, h.enqueue_eq] at run
      refine ih _ ?_ h.next (h.span_next hspan) run rfl
      rw [← hn]
      simp

end Huffman

end LzCodec
