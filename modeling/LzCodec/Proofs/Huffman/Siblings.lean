import Mathlib.Data.Nat.Fib.Basic
import LzCodec.Proofs.Huffman.Lengths

/-!
# Siblings

Joining takes the two lightest trees, so of any two forks of the tree the branches of one weigh no more
than the branches of the other (`graded_of_join`). Therefore no subtree is lighter than one that stands
a row below it (`Tree.Graded.row_le`), and weights grow from the bottom up at least as the Fibonacci
numbers do (`Tree.Graded.fib_le_row`).
-/

namespace LzCodec

namespace Huffman

namespace Tree

/-- The weight of all leaves, where a symbol weighs `w symbol`. -/
def weight (w : Nat → Nat) : Tree → Nat
  | leaf symbol => w symbol
  | node left right => left.weight w + right.weight w

/-- The two branches of each inner node. -/
def forks : Tree → List (Tree × Tree)
  | leaf _ => []
  | node left right => (left, right) :: (left.forks ++ right.forks)

/-- The subtrees that stand `depth` below the root. -/
def row : Nat → Tree → List Tree
  | 0, t => [t]
  | _ + 1, leaf _ => []
  | depth + 1, node left right => left.row depth ++ right.row depth

variable (w : Nat → Nat)

/-- Both branches of a fork weigh at most `x`. -/
def Within (p : Tree × Tree) (x : Nat) : Prop := p.1.weight w ≤ x ∧ p.2.weight w ≤ x

/-- The branches of one fork weigh no more than those of the other. -/
def Before (p q : Tree × Tree) : Prop := Within w p (q.1.weight w) ∧ Within w p (q.2.weight w)

def Comparable (p q : Tree × Tree) : Prop := Before w p q ∨ Before w q p

/-- Any two forks are comparable, and a fork comes behind those in its branches. -/
inductive Graded : Tree → Prop
  | leaf (symbol : Nat) : Graded (leaf symbol)
  | node {left right : Tree} (hleft : Graded left) (hright : Graded right)
      (across : ∀ p ∈ left.forks, ∀ q ∈ right.forks, Comparable w p q)
      (inside : ∀ p ∈ left.forks ++ right.forks, Before w p (left, right)) :
      Graded (node left right)

variable {w}

theorem weight_node (left right : Tree) :
    (node left right).weight w = left.weight w + right.weight w :=
  rfl

theorem Comparable.symm {p q : Tree × Tree} (h : Comparable w p q) : Comparable w q p := Or.symm h

theorem Within.mono {p : Tree × Tree} {x y : Nat} (h : Within w p x) (hle : x ≤ y) : Within w p y :=
  ⟨Nat.le_trans h.1 hle, Nat.le_trans h.2 hle⟩

/-- What stands in a row hangs from a fork of the row above. -/
theorem mem_row_succ {t x : Tree} {depth : Nat} :
    x ∈ t.row (depth + 1) ↔ ∃ left right, node left right ∈ t.row depth ∧ (x = left ∨ x = right) := by
  induction depth generalizing t with
  | zero =>
    cases t with
    | leaf symbol => simp [row]
    | node left right => simp [row]
  | succ depth ih =>
    cases t with
    | leaf symbol => simp [row]
    | node left right =>
      rw [row, row, List.mem_append, ih, ih]
      simp only [List.mem_append]
      constructor
      · rintro (⟨l, r, h, hx⟩ | ⟨l, r, h, hx⟩)
        · exact ⟨l, r, .inl h, hx⟩
        · exact ⟨l, r, .inr h, hx⟩
      · rintro ⟨l, r, h | h, hx⟩
        · exact .inl ⟨l, r, h, hx⟩
        · exact .inr ⟨l, r, h, hx⟩

theorem mem_forks_of_mem_row {t left right : Tree} {depth : Nat}
    (h : node left right ∈ t.row depth) : (left, right) ∈ t.forks := by
  induction depth generalizing t with
  | zero =>
    obtain rfl := List.mem_singleton.1 h
    exact List.mem_cons_self
  | succ depth ih =>
    cases t with
    | leaf symbol => cases h
    | node l r =>
      apply List.mem_cons_of_mem
      rcases List.mem_append.1 h with h | h
      · exact List.mem_append_left _ (ih h)
      · exact List.mem_append_right _ (ih h)

namespace Graded

variable {t x y : Tree} {depth : Nat}

/-- Forks of two rows are comparable. -/
theorem comparable (h : t.Graded w) {l r l' r' : Tree} (hp : Tree.node l r ∈ t.row depth)
    (hq : Tree.node l' r' ∈ t.row (depth + 1)) : Comparable w (l, r) (l', r') := by
  induction h generalizing depth with
  | leaf symbol => cases hq
  | @node left right _ _ across inside ihl ihr =>
    cases depth with
    | zero =>
      obtain ⟨rfl, rfl⟩ := Tree.node.inj (List.mem_singleton.1 hp)
      refine .inr (inside _ ?_)
      rcases List.mem_append.1 hq with hq | hq
      · exact List.mem_append_left _ (mem_forks_of_mem_row hq)
      · exact List.mem_append_right _ (mem_forks_of_mem_row hq)
    | succ depth =>
      rcases List.mem_append.1 hp with hp | hp <;> rcases List.mem_append.1 hq with hq | hq
      · exact ihl hp hq
      · exact across _ (mem_forks_of_mem_row hp) _ (mem_forks_of_mem_row hq)
      · exact (across _ (mem_forks_of_mem_row hq) _ (mem_forks_of_mem_row hp)).symm
      · exact ihr hp hq

/-- A subtree weighs at least as much as any that stands a row below it. -/
theorem row_le (h : t.Graded w) (hx : x ∈ t.row depth) (hy : y ∈ t.row (depth + 1)) :
    y.weight w ≤ x.weight w := by
  induction depth generalizing x y with
  | zero =>
    obtain ⟨l, r, ht, hbranch⟩ := mem_row_succ.1 hy
    rw [row, List.mem_singleton] at hx ht
    rw [hx, ← ht, weight]
    rcases hbranch with rfl | rfl <;> omega
  | succ depth ih =>
    obtain ⟨l, r, hp, hx⟩ := mem_row_succ.1 hx
    obtain ⟨l', r', hq, hy⟩ := mem_row_succ.1 hy
    have hle := ih hp hq
    simp only [weight] at hle
    -- The forks above the two are in either order; in the wrong one, all four branches weigh the same.
    rcases h.comparable hp hq with ⟨⟨h₁, h₂⟩, h₃, h₄⟩ | ⟨⟨h₁, h₂⟩, h₃, h₄⟩ <;> dsimp only at h₁ h₂ h₃ h₄
    · rcases hx with rfl | rfl <;> rcases hy with rfl | rfl <;> omega
    · rcases hx with rfl | rfl <;> rcases hy with rfl | rfl <;> omega

/-- Weights grow upwards at least as the Fibonacci numbers do, from half the weight of a fork on. -/
theorem fib_le_row (h : t.Graded w) {left right : Tree} {up : Nat}
    (hfork : Tree.node left right ∈ t.row (depth + up)) :
    (∃ x ∈ t.row depth, Nat.fib (up + 3) * (Tree.node left right).weight w ≤ 2 * x.weight w) ∧
      ∀ x ∈ t.row depth, Nat.fib (up + 2) * (Tree.node left right).weight w ≤ 2 * x.weight w := by
  induction up generalizing depth with
  | zero =>
    refine ⟨⟨_, hfork, Nat.le_of_eq rfl⟩, ?_⟩
    intro x hx
    have hl := h.row_le hx (mem_row_succ.2 ⟨left, right, hfork, .inl rfl⟩)
    have hr := h.row_le hx (mem_row_succ.2 ⟨left, right, hfork, .inr rfl⟩)
    rw [weight, show Nat.fib (0 + 2) = 1 from rfl]
    omega
  | succ up ih =>
    obtain ⟨⟨x, hx, hheavy⟩, hall⟩ := @ih (depth + 1) (by rwa [Nat.add_right_comm])
    obtain ⟨l, r, hp, hbranch⟩ := mem_row_succ.1 hx
    have hl := hall l (mem_row_succ.2 ⟨l, r, hp, .inl rfl⟩)
    have hr := hall r (mem_row_succ.2 ⟨l, r, hp, .inr rfl⟩)
    constructor
    · refine ⟨_, hp, ?_⟩
      have hfib : Nat.fib (up + 1 + 3) = Nat.fib (up + 2) + Nat.fib (up + 3) := Nat.fib_add_two
      rw [hfib, Nat.add_mul, weight_node l r]
      rcases hbranch with rfl | rfl <;> omega
    · intro y hy
      have hle := h.row_le hy hx
      exact Nat.le_trans hheavy (Nat.mul_le_mul_left 2 hle)

/-- Below a row, no fork has more than two thirds of the weight of the heaviest one in the row. -/
theorem three_mul_weight_le (h : t.Graded w) {bound : Nat}
    (hbound : ∀ l r, Tree.node l r ∈ t.row depth → (Tree.node l r).weight w ≤ bound)
    {down : Nat} {l r : Tree} (hfork : Tree.node l r ∈ t.row (depth + 1 + down)) :
    3 * (Tree.node l r).weight w ≤ 2 * bound := by
  induction down generalizing l r with
  | zero =>
    obtain ⟨a, b, hp, hbranch⟩ := mem_row_succ.1 hfork
    have hparent := hbound a b hp
    have ha : a ∈ t.row (depth + 1) := mem_row_succ.2 ⟨a, b, hp, .inl rfl⟩
    have hb : b ∈ t.row (depth + 1) := mem_row_succ.2 ⟨a, b, hp, .inr rfl⟩
    have hl : l ∈ t.row (depth + 1 + 1) := mem_row_succ.2 ⟨l, r, hfork, .inl rfl⟩
    have hr : r ∈ t.row (depth + 1 + 1) := mem_row_succ.2 ⟨l, r, hfork, .inr rfl⟩
    have hal := h.row_le ha hl
    have har := h.row_le ha hr
    have hbl := h.row_le hb hl
    have hbr := h.row_le hb hr
    simp only [weight] at hparent ⊢
    rcases hbranch with rfl | rfl <;> simp only [weight] at hparent <;> omega
  | succ down ih =>
    obtain ⟨a, b, hp, hbranch⟩ := mem_row_succ.1 hfork
    have hparent := ih hp
    rw [weight] at hparent
    rcases hbranch with rfl | rfl <;> omega

end Graded

theorem exists_fork {t : Tree} {depth : Nat} (h : depth < t.height) :
    ∃ left right, node left right ∈ t.row depth := by
  induction t generalizing depth with
  | leaf symbol => cases h
  | node left right ihl ihr =>
    cases depth with
    | zero => exact ⟨left, right, List.mem_singleton_self _⟩
    | succ depth =>
      rw [height] at h
      by_cases hl : depth < left.height
      · obtain ⟨l, r, hfork⟩ := ihl hl
        exact ⟨l, r, List.mem_append_left _ hfork⟩
      · obtain ⟨l, r, hfork⟩ := ihr (show depth < right.height by omega)
        exact ⟨l, r, List.mem_append_right _ hfork⟩

end Tree

/-! ## The queue -/

/-- What joining keeps: the trees stand in order of weight, each of them is graded, and all forks in
them are comparable to one another and come before the trees themselves. -/
structure Forest (w : Nat → Nat) (queue : List (Weighted Tree)) : Prop where
  weights : ∀ x ∈ queue, x.weight = x.item.weight w
  sorted : queue.Pairwise fun x y => x.weight ≤ y.weight
  graded : ∀ x ∈ queue, x.item.Graded w
  inside : ∀ x ∈ queue, ∀ p ∈ x.item.forks, ∀ y ∈ queue, Tree.Within w p y.weight
  across : queue.Pairwise fun x y =>
    ∀ p ∈ x.item.forks, ∀ q ∈ y.item.forks, Tree.Comparable w p q

theorem enqueue_sorted {α : Type} (x : Weighted α) {queue : List (Weighted α)}
    (h : queue.Pairwise fun x y => x.weight ≤ y.weight) :
    (enqueue x queue).Pairwise fun x y => x.weight ≤ y.weight := by
  induction queue with
  | nil => exact List.pairwise_singleton _ _
  | cons y rest ih =>
    obtain ⟨hfirst, hrest⟩ := List.pairwise_cons.1 h
    rw [enqueue]
    split
    · rename_i hle
      refine List.pairwise_cons.2 ⟨?_, ih hrest⟩
      intro z hz
      rcases List.mem_cons.1 ((enqueue_perm x rest).mem_iff.1 hz) with rfl | hz
      · exact hle
      · exact hfirst z hz
    · rename_i hlt
      refine List.pairwise_cons.2 ⟨?_, h⟩
      intro z hz
      rcases List.mem_cons.1 hz with rfl | hz
      · omega
      · have := hfirst z hz
        omega

section
variable {w : Nat → Nat} {s t : Weighted Tree} {rest : List (Weighted Tree)}

/-- Joining the two lightest trees keeps a forest. -/
theorem Forest.next (h : Forest w (s :: t :: rest)) :
    Forest w (enqueue ⟨s.weight + t.weight, .node s.item t.item⟩ rest) := by
  have hs : s ∈ s :: t :: rest := List.mem_cons_self
  have ht : t ∈ s :: t :: rest := List.mem_cons_of_mem _ List.mem_cons_self
  have hrest {x : Weighted Tree} (hx : x ∈ rest) : x ∈ s :: t :: rest :=
    List.mem_cons_of_mem _ (List.mem_cons_of_mem _ hx)
  obtain ⟨hfirst, htail⟩ := List.pairwise_cons.1 h.sorted
  obtain ⟨hsecond, hsorted⟩ := List.pairwise_cons.1 htail
  obtain ⟨hcrossS, hcrossTail⟩ := List.pairwise_cons.1 h.across
  obtain ⟨hcrossT, hcross⟩ := List.pairwise_cons.1 hcrossTail
  have hws := h.weights s hs
  have hwt := h.weights t ht
  -- What stands in the joined tree weighs no more than the lightest tree that is left.
  have hlow : ∀ p ∈ (Tree.node s.item t.item).forks, ∀ x ∈ rest, Tree.Within w p x.weight := by
    intro p hp x hx
    rcases List.mem_cons.1 hp with rfl | hp
    · exact ⟨hws ▸ hfirst x (List.mem_cons_of_mem _ hx), hwt ▸ hsecond x hx⟩
    · rcases List.mem_append.1 hp with hp | hp
      · exact h.inside s hs p hp x (hrest hx)
      · exact h.inside t ht p hp x (hrest hx)
  have hmem {x : Weighted Tree} (hx : x ∈ enqueue ⟨s.weight + t.weight, .node s.item t.item⟩ rest) :
      x = ⟨s.weight + t.weight, .node s.item t.item⟩ ∨ x ∈ rest :=
    List.mem_cons.1 ((enqueue_perm _ rest).mem_iff.1 hx)
  constructor
  · intro x hx
    rcases hmem hx with rfl | hx
    · rw [hws, hwt, Tree.weight]
    · exact h.weights x (hrest hx)
  · exact enqueue_sorted _ hsorted
  · intro x hx
    rcases hmem hx with rfl | hx
    · refine .node (h.graded s hs) (h.graded t ht) (hcrossS t List.mem_cons_self) ?_
      intro p hp
      unfold Tree.Before
      rw [← hws, ← hwt]
      rcases List.mem_append.1 hp with hp | hp
      · exact ⟨h.inside s hs p hp s hs, h.inside s hs p hp t ht⟩
      · exact ⟨h.inside t ht p hp s hs, h.inside t ht p hp t ht⟩
    · exact h.graded x (hrest hx)
  · intro x hx p hp y hy
    rcases hmem hx with rfl | hx <;> rcases hmem hy with rfl | hy
    · rcases List.mem_cons.1 hp with rfl | hp
      · exact ⟨hws ▸ Nat.le_add_right _ _, hwt ▸ Nat.le_add_left _ _⟩
      · rcases List.mem_append.1 hp with hp | hp
        · exact (h.inside s hs p hp s hs).mono (Nat.le_add_right _ _)
        · exact (h.inside t ht p hp s hs).mono (Nat.le_add_right _ _)
    · exact hlow p hp y hy
    · exact (h.inside x (hrest hx) p hp s hs).mono (Nat.le_add_right _ _)
    · exact h.inside x (hrest hx) p hp y (hrest hy)
  · apply (enqueue_perm _ rest).symm.pairwise _ ?_
    · refine List.pairwise_cons.2 ⟨?_, hcross⟩
      intro x hx p hp q hq
      rcases List.mem_cons.1 hp with rfl | hp
      · refine .inr ?_
        unfold Tree.Before
        rw [← hws, ← hwt]
        exact ⟨h.inside x (hrest hx) q hq s hs, h.inside x (hrest hx) q hq t ht⟩
      · rcases List.mem_append.1 hp with hp | hp
        · exact hcrossS x (List.mem_cons_of_mem _ hx) p hp q hq
        · exact hcrossT x hx p hp q hq
    · intro x y hxy p hp q hq
      exact (hxy q hq p hp).symm

/-- The leaves of counted symbols are a forest. -/
theorem forest_of_counts {counts : List (Weighted Nat)} (hw : ∀ c ∈ counts, c.weight = w c.item) :
    Forest w (counts.foldl (fun queue c => enqueue (leafTree c) queue) []) := by
  have hperm := foldl_enqueue_perm counts []
  have hleaf {x : Weighted Tree}
      (hx : x ∈ counts.foldl (fun queue c => enqueue (leafTree c) queue) []) :
      ∃ c ∈ counts, leafTree c = x :=
    List.mem_map.1 (hperm.mem_iff.1 hx)
  have hsorted (queue : List (Weighted Tree))
      (h : queue.Pairwise fun x y => x.weight ≤ y.weight) :
      (counts.foldl (fun queue c => enqueue (leafTree c) queue) queue).Pairwise
        fun x y => x.weight ≤ y.weight := by
    clear hleaf hperm hw
    induction counts generalizing queue with
    | nil => exact h
    | cons c rest ih => exact ih _ (enqueue_sorted _ h)
  constructor
  · intro x hx
    obtain ⟨c, hc, rfl⟩ := hleaf hx
    exact hw c hc
  · exact hsorted [] .nil
  · intro x hx
    obtain ⟨c, -, rfl⟩ := hleaf hx
    exact .leaf c.item
  · intro x hx p hp
    obtain ⟨c, -, rfl⟩ := hleaf hx
    cases hp
  · apply List.pairwise_of_forall_mem_list
    intro x hx y _ p hp
    obtain ⟨c, -, rfl⟩ := hleaf hx
    cases hp

theorem graded_of_join {queue : List (Weighted Tree)} {u : Tree} (h : Forest w queue)
    (run : join queue = some u) : u.Graded w := by
  induction hn : queue.length using Nat.strongRecOn generalizing queue with
  | ind n ih =>
    match queue, h, run with
    | [], _, run =>
      rw [join] at run
      cases run
    | [x], h, run =>
      rw [join] at run
      cases run
      exact h.graded x (List.mem_singleton_self x)
    | s :: t :: rest, h, run =>
      rw [join] at run
      refine ih _ ?_ h.next run rfl
      rw [length_enqueue, ← hn, List.length_cons, List.length_cons]
      exact Nat.lt_succ_self _

/-- A Huffman tree is graded by the weights that it was built for. -/
theorem graded_ofCounts {counts : List (Weighted Nat)} {u : Tree}
    (hw : ∀ c ∈ counts, c.weight = w c.item) (run : Tree.ofCounts counts = some u) : u.Graded w :=
  graded_of_join (forest_of_counts hw) run

end

end Huffman

end LzCodec
