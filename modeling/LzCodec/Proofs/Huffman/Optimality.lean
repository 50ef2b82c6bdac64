import Mathlib
import LzCodec.Proofs.Huffman.Siblings

/-!
# Huffman trees are optimal

No lengths that leave room for one another make the leaves cheaper than a Huffman tree does
(`cost_ofCounts_le`). Before the two lightest trees are joined, the two greatest lengths are moved to
them, which costs nothing (`exists_pull`), and then the room of both is enough for one that is a bit
shorter (`Fits.merge`).
-/

namespace LzCodec

namespace Huffman

/-- The weights of all inner nodes: each leaf counts as often as it is deep. -/
def Tree.cost (w : Nat → Nat) : Tree → Nat
  | leaf _ => 0
  | node left right => left.cost w + right.cost w + (left.weight w + right.weight w)

/-- What the leaves of a tree cost below row `base`, if the tree hangs `depth` rows further down. -/
theorem Tree.sum_leaves_below (w : Nat → Nat) (base depth : Nat) (t : Tree) :
    ((t.leaves (base + depth)).map fun leaf => w leaf.symbol * (leaf.length - base)).sum =
      depth * t.weight w + t.cost w := by
  induction t generalizing depth with
  | leaf symbol => simp [leaves, cost, weight, Nat.mul_comm]
  | node left right ihl ihr =>
    rw [leaves, List.map_append, List.sum_append, Nat.add_assoc, ihl, ihr, cost, weight]
    ring

theorem Tree.sum_leaves (w : Nat → Nat) (t : Tree) :
    ((t.leaves 0).map fun leaf => w leaf.symbol * leaf.length).sum = t.cost w := by
  simpa using t.sum_leaves_below w 0 0

/-- There is room for codewords of these lengths, none of them longer than `width`. -/
structure Fits (width : Nat) (lengths : List Nat) : Prop where
  le_width : ∀ n ∈ lengths, n ≤ width
  room : (lengths.map fun n => 2 ^ (width - n)).sum ≤ 2 ^ width

namespace Fits

variable {width m n : Nat} {lengths lengths' : List Nat}

theorem perm (h : Fits width lengths) (hperm : lengths'.Perm lengths) : Fits width lengths' where
  le_width k hk := h.le_width k (hperm.mem_iff.1 hk)
  room := by
    rw [(hperm.map _).sum_eq]
    exact h.room

/-- The room of the two longest codewords is enough for one that is a bit shorter than the second. -/
theorem merge (h : Fits width (m :: n :: lengths)) (hn : n ≤ m) (hlengths : ∀ k ∈ lengths, k ≤ n) :
    1 ≤ n ∧ Fits width ((n - 1) :: lengths) := by
  have hwidth : n ≤ width := h.le_width n (by simp)
  -- All other codewords take up multiples of the windows of the second.
  have hmultiple (ks : List Nat) (hks : ∀ k ∈ ks, k ≤ n) :
      (ks.map fun k => 2 ^ (width - k)).sum =
        2 ^ (width - n) * (ks.map fun k => 2 ^ (n - k)).sum := by
    rw [← List.sum_map_mul_left]
    apply congrArg List.sum
    apply List.map_congr_left
    intro k hk
    have hk := hks k hk
    rw [← Nat.pow_add]
    congr 1
    omega
  have hroom := h.room
  simp only [List.map_cons, List.sum_cons] at hroom
  rw [hmultiple lengths hlengths] at hroom
  have hpow : 2 ^ width = 2 ^ (width - n) * 2 ^ n := by
    rw [← Nat.pow_add]
    congr 1
    omega
  have hfirst := Nat.two_pow_pos (width - m)
  have hless : (lengths.map fun k => 2 ^ (n - k)).sum + 1 < 2 ^ n := by
    apply Nat.lt_of_mul_lt_mul_left (a := 2 ^ (width - n))
    rw [← hpow, Nat.mul_add, Nat.mul_one]
    omega
  have hpos : 1 ≤ n := by
    by_contra hzero
    have : n = 0 := by omega
    subst this
    simp at hless
  refine ⟨hpos, ?_, ?_⟩
  · intro k hk
    rcases List.mem_cons.1 hk with rfl | hk
    · omega
    · exact Nat.le_trans (hlengths k hk) hwidth
  · have hnew : 2 ^ (width - (n - 1)) = 2 ^ (width - n) * 2 := by
      rw [← Nat.pow_succ]
      congr 1
      omega
    rw [List.map_cons, List.sum_cons, hmultiple lengths hlengths, hnew, hpow, ← Nat.mul_add]
    exact Nat.mul_le_mul_left _ (by omega)

end Fits

/-- What the trees of a queue cost as leaves that hang this deep. -/
def hangCost (queue : List (Weighted Tree)) (lengths : List Nat) : Nat :=
  (List.zipWith (fun x n => x.weight * n) queue lengths).sum

@[simp] theorem hangCost_cons (x : Weighted Tree) (queue : List (Weighted Tree)) (n : Nat)
    (lengths : List Nat) :
    hangCost (x :: queue) (n :: lengths) = x.weight * n + hangCost queue lengths :=
  List.sum_cons

/-- The greatest length can be moved to the lightest tree. -/
theorem exists_pull {x : Weighted Tree} {queue : List (Weighted Tree)} {n : Nat} {lengths : List Nat}
    (hx : ∀ y ∈ queue, x.weight ≤ y.weight) (hlen : lengths.length = queue.length) :
    ∃ m lengths', (m :: lengths').Perm (n :: lengths) ∧ (∀ k ∈ lengths', k ≤ m) ∧
      hangCost (x :: queue) (m :: lengths') ≤ hangCost (x :: queue) (n :: lengths) := by
  induction queue generalizing n lengths with
  | nil =>
    obtain rfl := List.length_eq_zero_iff.1 hlen
    exact ⟨n, [], List.Perm.refl _, List.forall_mem_nil _, Nat.le_refl _⟩
  | cons y queue ih =>
    obtain ⟨hxy, hx⟩ := List.forall_mem_cons.1 hx
    cases lengths with
    | nil => cases hlen
    | cons k lengths =>
      have hlen := Nat.succ.inj hlen
      by_cases hk : k ≤ n
      · obtain ⟨m, lengths', hperm, hle, hcost⟩ := ih (n := n) hx hlen
        refine ⟨m, k :: lengths', (List.Perm.swap _ _ _).trans ((hperm.cons k).trans
          (List.Perm.swap _ _ _)), ?_, ?_⟩
        · have hnm : n ≤ m := by
            rcases List.mem_cons.1 (hperm.mem_iff.2 List.mem_cons_self) with rfl | hn
            · exact Nat.le_refl _
            · exact hle n hn
          exact List.forall_mem_cons.2 ⟨Nat.le_trans hk hnm, hle⟩
        · simp only [hangCost_cons] at hcost ⊢
          omega
      · obtain ⟨m, lengths', hperm, hle, hcost⟩ := ih (n := k) hx hlen
        have hnk : n ≤ k := Nat.le_of_not_le hk
        refine ⟨m, n :: lengths', (List.Perm.swap _ _ _).trans (hperm.cons n), ?_, ?_⟩
        · have hkm : k ≤ m := by
            rcases List.mem_cons.1 (hperm.mem_iff.2 List.mem_cons_self) with rfl | hk
            · exact Nat.le_refl _
            · exact hle k hk
          exact List.forall_mem_cons.2 ⟨Nat.le_trans hnk hkm, hle⟩
        · have hswap : x.weight * k + y.weight * n ≤ x.weight * n + y.weight * k :=
            mul_add_mul_le_mul_add_mul hxy hnk
          simp only [hangCost_cons] at hcost ⊢
          omega

/-- A tree that is inserted takes its length along. -/
theorem exists_enqueue (x : Weighted Tree) (queue : List (Weighted Tree)) (n : Nat)
    {lengths : List Nat} (hlen : lengths.length = queue.length) :
    ∃ lengths', lengths'.Perm (n :: lengths) ∧
      hangCost (enqueue x queue) lengths' = hangCost (x :: queue) (n :: lengths) := by
  induction queue generalizing lengths with
  | nil =>
    obtain rfl := List.length_eq_zero_iff.1 hlen
    exact ⟨[n], List.Perm.refl _, rfl⟩
  | cons y queue ih =>
    cases lengths with
    | nil => cases hlen
    | cons k lengths =>
      rw [enqueue]
      split
      · obtain ⟨lengths', hperm, hcost⟩ := ih (Nat.succ.inj hlen)
        refine ⟨k :: lengths', (hperm.cons k).trans (List.Perm.swap _ _ _), ?_⟩
        simp only [hangCost_cons] at hcost ⊢
        omega
      · exact ⟨n :: k :: lengths, List.Perm.refl _, rfl⟩

/-- Joining the two lightest trees: lengths for the trees before give lengths for those after, and these
are cheaper by the weight of the new node. -/
theorem exists_lengths_next {s t : Weighted Tree} {rest : List (Weighted Tree)} {lengths : List Nat}
    {width : Nat} (hs : ∀ y ∈ t :: rest, s.weight ≤ y.weight) (ht : ∀ y ∈ rest, t.weight ≤ y.weight)
    (hlen : lengths.length = rest.length + 2) (hfits : Fits width lengths) :
    ∃ lengths', lengths'.length = rest.length + 1 ∧ Fits width lengths' ∧
      hangCost (enqueue ⟨s.weight + t.weight, .node s.item t.item⟩ rest) lengths' +
        (s.weight + t.weight) ≤ hangCost (s :: t :: rest) lengths := by
  match lengths, hlen with
  | a :: b :: ls, hlen =>
    have hls : ls.length = rest.length := Nat.succ.inj (Nat.succ.inj hlen)
    obtain ⟨m₁, ls₁, hperm₁, hle₁, hcost₁⟩ := exists_pull (n := a) hs (Nat.succ.inj hlen)
    have hlen₁ := hperm₁.length_eq
    obtain ⟨b₁, ls₁, rfl⟩ : ∃ b₁ ls₁', ls₁ = b₁ :: ls₁' := by
      cases ls₁ with
      | nil => simp at hlen₁
      | cons b₁ ls₁ => exact ⟨b₁, ls₁, rfl⟩
    have hls₁ : ls₁.length = rest.length := by simpa [hls] using hlen₁
    obtain ⟨m₂, ls₂, hperm₂, hle₂, hcost₂⟩ := exists_pull (n := b₁) ht hls₁
    have hls₂ : ls₂.length = rest.length := by simpa [hls₁] using hperm₂.length_eq
    have hm : m₂ ≤ m₁ := hle₁ m₂ (hperm₂.mem_iff.1 List.mem_cons_self)
    obtain ⟨hpos, hmerged⟩ := ((hfits.perm hperm₁).perm (hperm₂.cons m₁)).merge hm hle₂
    obtain ⟨ls₃, hperm₃, hcost₃⟩ :=
      exists_enqueue ⟨s.weight + t.weight, .node s.item t.item⟩ rest (m₂ - 1) hls₂
    refine ⟨ls₃, by rw [hperm₃.length_eq, List.length_cons, hls₂], hmerged.perm hperm₃, ?_⟩
    have hjoined : (s.weight + t.weight) * (m₂ - 1) + (s.weight + t.weight) ≤
        s.weight * m₁ + t.weight * m₂ := by
      calc
        (s.weight + t.weight) * (m₂ - 1) + (s.weight + t.weight) = (s.weight + t.weight) * m₂ := by
          rw [← Nat.mul_succ, Nat.succ_eq_add_one, Nat.sub_add_cancel hpos]
        _ = s.weight * m₂ + t.weight * m₂ := Nat.add_mul _ _ _
        _ ≤ s.weight * m₁ + t.weight * m₂ := Nat.add_le_add_right (Nat.mul_le_mul_left _ hm) _
    simp only [hangCost_cons] at hcost₁ hcost₂ hcost₃ ⊢
    omega

/-- Whatever lengths the trees of a queue are given, joining them is no more expensive. -/
theorem cost_join_le {w : Nat → Nat} {queue : List (Weighted Tree)} {lengths : List Nat}
    {width : Nat} {u : Tree} (h : Forest w queue) (hlen : lengths.length = queue.length)
    (hfits : Fits width lengths) (run : join queue = some u) :
    u.cost w ≤ hangCost queue lengths + (queue.map fun x => x.item.cost w).sum := by
  induction hn : queue.length using Nat.strongRecOn generalizing queue lengths with
  | ind n ih =>
    match queue, h, run, hlen with
    | [], _, run, _ =>
      rw [join] at run
      cases run
    | [x], _, run, _ =>
      rw [join] at run
      cases run
      rw [List.map_singleton, List.sum_singleton]
      exact Nat.le_add_left _ _
    | s :: t :: rest, h, run, hlen =>
      rw [join] at run
      obtain ⟨hs, htail⟩ := List.pairwise_cons.1 h.sorted
      obtain ⟨ht, -⟩ := List.pairwise_cons.1 htail
      obtain ⟨lengths', hlen', hfits', hcost⟩ := exists_lengths_next hs ht hlen hfits
      have hqueue := length_enqueue ⟨s.weight + t.weight, .node s.item t.item⟩ rest
      have hsmall : (enqueue ⟨s.weight + t.weight, .node s.item t.item⟩ rest).length < n := by
        rw [hqueue, ← hn, List.length_cons, List.length_cons]
        exact Nat.lt_succ_self _
      have hlast := ih _ hsmall h.next (hlen'.trans hqueue.symm) hfits' run rfl
      have hitems := ((enqueue_perm ⟨s.weight + t.weight, .node s.item t.item⟩ rest).map
        fun x => x.item.cost w).sum_eq
      have hws := h.weights s (by simp)
      have hwt := h.weights t (by simp)
      simp only [List.map_cons, List.sum_cons, Tree.cost, ← hws, ← hwt] at hlast hitems ⊢
      omega

/-- No lengths that fit make the leaves of counted symbols cheaper than their Huffman tree does. -/
theorem cost_ofCounts_le {w : Nat → Nat} {counts : List (Weighted Nat)} {u : Tree} {width : Nat}
    (hw : ∀ c ∈ counts, c.weight = w c.item) (g : Nat → Nat)
    (hfits : Fits width (counts.map fun c => g c.item)) (run : Tree.ofCounts counts = some u) :
    u.cost w ≤ (counts.map fun c => c.weight * g c.item).sum := by
  have hperm := foldl_enqueue_perm counts []
  rw [List.nil_append] at hperm
  generalize hqueue : counts.foldl (fun queue c => enqueue (leafTree c) queue) [] = queue at hperm
  have hforest : Forest w queue := hqueue ▸ forest_of_counts hw
  have hrun : join queue = some u := hqueue ▸ run
  let length (x : Weighted Tree) : Nat := g (x.item.symbols.headD 0)
  have hlengths : (queue.map length).Perm (counts.map fun c => g c.item) := by
    have := hperm.map length
    rwa [List.map_map] at this
  have hcost := cost_join_le hforest (List.length_map _) (hfits.perm hlengths) hrun
  have hhang : hangCost queue (queue.map length) =
      (counts.map fun c => c.weight * g c.item).sum := by
    rw [hangCost, List.zipWith_map_right, List.zipWith_self, (hperm.map _).sum_eq, List.map_map]
    rfl
  have hitems : (queue.map fun x => x.item.cost w).sum = 0 := by
    rw [(hperm.map _).sum_eq, List.map_map]
    apply List.sum_eq_zero
    intro n hn
    obtain ⟨c, -, rfl⟩ := List.mem_map.1 hn
    rfl
  rw [hhang, hitems] at hcost
  exact hcost

end Huffman

end LzCodec
