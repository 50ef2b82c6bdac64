import Mathlib.Logic.Function.Iterate
import Mathlib.Tactic.ByContra
import LzCodec.Huffman.Canonical
import LzCodec.Proofs.Huffman.Trees

/-!
# Lengths of codewords

The lengths that `codeLengths` gives out are those of a tree over the symbols that occur
(`codeLengths_spec`): a symbol has a length exactly if it occurs, no length exceeds the limit, and the
codewords fill the windows of the longest one, or half of them if a symbol is alone.
-/

namespace LzCodec

namespace Huffman

theorem mem_used {counts : Array Nat} {c : Weighted Nat} :
    c ∈ used counts ↔ counts[c.item]? = some c.weight ∧ 0 < c.weight := by
  simp only [used, List.mem_filterMap, Prod.exists, List.mk_mem_zipIdx_iff_getElem?,
    Array.getElem?_toList, Option.ite_none_left_eq_some, Option.some.injEq]
  constructor
  · rintro ⟨count, symbol, hc, h0, rfl⟩
    exact ⟨hc, Nat.pos_of_ne_zero h0⟩
  · rintro ⟨hc, h0⟩
    exact ⟨c.weight, c.item, hc, Nat.ne_of_gt h0, rfl⟩

theorem mem_leaves {lengths : Array Nat} {leaf : Leaf} :
    leaf ∈ leaves lengths ↔ lengths[leaf.symbol]? = some leaf.length ∧ 0 < leaf.length := by
  simp only [leaves, List.mem_filterMap, Prod.exists, List.mk_mem_zipIdx_iff_getElem?,
    Array.getElem?_toList, Option.ite_none_left_eq_some, Option.some.injEq]
  constructor
  · rintro ⟨length, symbol, hl, h0, rfl⟩
    exact ⟨hl, Nat.pos_of_ne_zero h0⟩
  · rintro ⟨hl, h0⟩
    exact ⟨leaf.length, leaf.symbol, hl, Nat.ne_of_gt h0, rfl⟩

theorem getD_of_used {counts : Array Nat} {c : Weighted Nat} (h : c ∈ used counts) :
    counts.getD c.item 0 = c.weight := by
  rw [Array.getD_eq_getD_getElem?, (mem_used.1 h).1, Option.getD_some]

theorem symbol_lt_size {lengths : Array Nat} {leaf : Leaf} (h : leaf ∈ leaves lengths) :
    leaf.symbol < lengths.size :=
  (Array.getElem?_eq_some_iff.1 (mem_leaves.1 h).1).1

theorem getD_of_mem_leaves {lengths : Array Nat} {leaf : Leaf} (h : leaf ∈ leaves lengths) :
    lengths.getD leaf.symbol 0 = leaf.length := by
  rw [Array.getD_eq_getD_getElem?, (mem_leaves.1 h).1, Option.getD_some]

theorem getElem?_of_getD_pos {xs : Array Nat} {i : Nat} (h : 0 < xs.getD i 0) :
    xs[i]? = some (xs.getD i 0) := by
  rw [Array.getD_eq_getD_getElem?] at h ⊢
  cases hget : xs[i]? with
  | none =>
    rw [hget] at h
    cases h
  | some x => rfl

/-- The symbols that occur. -/
theorem mem_items_used {counts : Array Nat} {s : Nat} :
    s ∈ (used counts).map Weighted.item ↔ 0 < counts.getD s 0 := by
  rw [List.mem_map]
  constructor
  · rintro ⟨c, hc, rfl⟩
    rw [getD_of_used hc]
    exact (mem_used.1 hc).2
  · intro hpos
    exact ⟨⟨_, s⟩, mem_used.2 ⟨getElem?_of_getD_pos hpos, hpos⟩, rfl⟩

/-- The symbols that have a codeword. -/
theorem mem_symbols_leaves {lengths : Array Nat} {s : Nat} :
    s ∈ (leaves lengths).map Leaf.symbol ↔ 0 < lengths.getD s 0 := by
  rw [List.mem_map]
  constructor
  · rintro ⟨leaf, hleaf, rfl⟩
    rw [getD_of_mem_leaves hleaf]
    exact (mem_leaves.1 hleaf).2
  · intro hpos
    exact ⟨⟨s, _⟩, mem_leaves.2 ⟨getElem?_of_getD_pos hpos, hpos⟩, rfl⟩

theorem pairwise_zipIdx (l : List Nat) : l.zipIdx.Pairwise fun a b => a.2 < b.2 := by
  rw [← List.pairwise_map (f := Prod.snd) (R := (· < ·)), List.zipIdx_map_snd]
  exact List.pairwise_lt_range'

theorem used_sorted (counts : Array Nat) : (used counts).Pairwise fun a b => a.item < b.item := by
  rw [used, List.pairwise_filterMap]
  refine (pairwise_zipIdx _).imp ?_
  intro a b h c hc d hd
  simp only [Option.ite_none_left_eq_some, Option.some.injEq] at hc hd
  rw [← hc.2, ← hd.2]
  exact h

theorem leaves_sorted (lengths : Array Nat) :
    (leaves lengths).Pairwise fun a b => a.symbol < b.symbol := by
  rw [leaves, List.pairwise_filterMap]
  refine (pairwise_zipIdx _).imp ?_
  intro a b h c hc d hd
  simp only [Option.ite_none_left_eq_some, Option.some.injEq] at hc hd
  rw [← hc.2, ← hd.2]
  exact h

theorem used_items_nodup (counts : Array Nat) :
    ((used counts).map Weighted.item).Nodup := by
  rw [List.Nodup, List.pairwise_map]
  exact (used_sorted counts).imp Nat.ne_of_lt

theorem length_used_le (counts : Array Nat) : (used counts).length ≤ counts.size := by
  rw [used]
  refine Nat.le_trans (List.length_filterMap_le _ _) (Nat.le_of_eq ?_)
  rw [List.length_zipIdx, Array.length_toList]

theorem length_leaves_le (lengths : Array Nat) : (leaves lengths).length ≤ lengths.size := by
  rw [leaves]
  refine Nat.le_trans (List.length_filterMap_le _ _) (Nat.le_of_eq ?_)
  rw [List.length_zipIdx, Array.length_toList]

theorem leaves_symbols_nodup (lengths : Array Nat) :
    ((leaves lengths).map Leaf.symbol).Nodup := by
  rw [List.Nodup, List.pairwise_map]
  exact (leaves_sorted lengths).imp Nat.ne_of_lt

theorem leaves_nodup (lengths : Array Nat) : (leaves lengths).Nodup :=
  (leaves_sorted lengths).imp fun h heq => Nat.ne_of_lt h (congrArg Leaf.symbol heq)

/-! ## The queue of leaves -/

def leafTree (c : Weighted Nat) : Weighted Tree := ⟨c.weight, .leaf c.item⟩

theorem foldl_enqueue_perm (counts : List (Weighted Nat)) (queue : List (Weighted Tree)) :
    (counts.foldl (fun queue c => enqueue (leafTree c) queue) queue).Perm
      (queue ++ counts.map leafTree) := by
  induction counts generalizing queue with
  | nil => simp
  | cons c rest ih =>
    rw [List.foldl_cons, List.map_cons]
    exact (ih _).trans (((enqueue_perm _ _).append_right _).trans List.perm_middle.symm)

theorem foldl_enqueue_of_ones {counts : List (Weighted Nat)} (h : ∀ c ∈ counts, c.weight = 1)
    (queue : List (Weighted Tree)) (hq : ∀ t ∈ queue, t.weight = 1) :
    counts.foldl (fun queue c => enqueue (leafTree c) queue) queue =
      queue ++ counts.map leafTree := by
  induction counts generalizing queue with
  | nil => simp
  | cons c rest ih =>
    have hc : (leafTree c).weight = 1 := h c List.mem_cons_self
    rw [List.foldl_cons, List.map_cons,
      enqueue_of_le fun t ht => Nat.le_of_eq ((hq t ht).trans hc.symm),
      ih fun d hd => h d (List.mem_cons_of_mem _ hd)]
    · simp
    · intro t ht
      rcases List.mem_append.1 ht with ht | ht
      · exact hq t ht
      · rw [List.mem_singleton.1 ht, hc]

theorem queueSymbols_leafTree (counts : List (Weighted Nat)) :
    queueSymbols (counts.map leafTree) = counts.map Weighted.item := by
  induction counts with
  | nil => rfl
  | cons c rest ih =>
    simp only [queueSymbols, List.map_cons, List.flatMap_cons] at ih ⊢
    rw [ih]
    rfl

theorem ofCounts_perm {counts : List (Weighted Nat)} (h : counts ≠ []) :
    ∃ t, Tree.ofCounts counts = some t ∧ t.symbols.Perm (counts.map Weighted.item) := by
  have perm := foldl_enqueue_perm counts []
  rw [List.nil_append] at perm
  have hne : counts.foldl (fun queue c => enqueue (leafTree c) queue) [] ≠ [] := by
    intro hnil
    rw [hnil] at perm
    exact h (List.map_eq_nil_iff.1 perm.symm.eq_nil)
  obtain ⟨t, run, symbols⟩ := join_perm hne
  refine ⟨t, run, symbols.trans ?_⟩
  rw [← queueSymbols_leafTree]
  exact perm.flatMap_right _

/-- Equal counts make a tree no higher than the number of leaves needs. -/
theorem height_ofCounts_le {counts : List (Weighted Nat)} {t : Tree} {limit : Nat}
    (ones : ∀ c ∈ counts, c.weight = 1) (hlen : counts.length ≤ 2 ^ limit)
    (run : Tree.ofCounts counts = some t) : t.height ≤ limit := by
  have hqueue := foldl_enqueue_of_ones ones [] (by intro t ht; cases ht)
  rw [List.nil_append] at hqueue
  have hleaf : ∀ x ∈ counts.map leafTree, x.weight = 1 ∧ x.item.height = 0 := by
    intro x hx
    obtain ⟨c, hc, rfl⟩ := List.mem_map.1 hx
    exact ⟨ones c hc, rfl⟩
  have level : Level (counts.map leafTree) := by
    constructor
    · apply List.pairwise_of_forall_mem_list
      intro x hx y hy
      obtain ⟨hxw, hxh⟩ := hleaf x hx
      obtain ⟨hyw, hyh⟩ := hleaf y hy
      omega
    · intro x hx y hy
      obtain ⟨hxw, hxh⟩ := hleaf x hx
      obtain ⟨hyw, hyh⟩ := hleaf y hy
      omega
  have hspan : span (counts.map leafTree) ≤ 2 ^ limit := by
    rw [span_of_height fun x hx => (hleaf x hx).2, List.length_map, Nat.pow_zero, Nat.mul_one]
    exact hlen
  refine height_join_le level hspan ?_
  rw [← hqueue]
  exact run

/-! ## The length limit -/

theorem one_le_halveAll {counts : List (Weighted Nat)} :
    ∀ c ∈ halveAll counts, 1 ≤ c.weight := by
  intro c hc
  obtain ⟨d, _, rfl⟩ := List.mem_map.1 hc
  exact Nat.le_add_left _ _

theorem items_halveAll (counts : List (Weighted Nat)) :
    (halveAll counts).map Weighted.item = counts.map Weighted.item := by
  rw [halveAll, List.map_map]
  rfl

theorem items_halveAll_iterate (k : Nat) (counts : List (Weighted Nat)) :
    (halveAll^[k] counts).map Weighted.item = counts.map Weighted.item := by
  induction k with
  | zero => rfl
  | succ k ih => rw [Function.iterate_succ_apply', items_halveAll, ih]

/-- Halving ends: at the latest when all counts are 1, and then the tree is flat enough. At all scales
before, it was still too deep. -/
theorem limitedLeaves_scaled {maxLength : Nat} {counts : List (Weighted Nat)} (hne : counts ≠ [])
    (pos : ∀ c ∈ counts, 1 ≤ c.weight) (fit : counts.length ≤ 2 ^ maxLength) :
    ∃ k t, limitedLeaves maxLength counts = t.leaves 0 ∧
      Tree.ofCounts (halveAll^[k] counts) = some t ∧ t.height ≤ maxLength ∧
      ∀ j < k, ∃ u, Tree.ofCounts (halveAll^[j] counts) = some u ∧ maxLength < u.height := by
  induction hw : totalWeight counts using Nat.strongRecOn generalizing counts with
  | ind weight ih =>
    obtain ⟨t, run, -⟩ := ofCounts_perm hne
    rw [limitedLeaves, run, Option.map_some, Option.getD_some]
    by_cases hall : (t.leaves 0).all (·.length ≤ maxLength) = true
    · obtain ⟨leaf, hleaf, hdeep⟩ := t.exists_deepest 0
      have hlen := List.all_eq_true.1 hall leaf hleaf
      rw [decide_eq_true_eq, hdeep, Nat.zero_add] at hlen
      exact ⟨0, t, by rw [if_pos hall], run, hlen, fun j hj => by cases hj⟩
    · have hhigh : maxLength < t.height := by
        by_contra hflat
        refine hall (List.all_eq_true.2 ?_)
        intro leaf hleaf
        have := (Tree.length_leaves hleaf).2
        rw [decide_eq_true_eq]
        omega
      rw [if_neg hall]
      by_cases hmore : (∀ c ∈ counts, 1 ≤ c.weight) ∧ ∃ c ∈ counts, 1 < c.weight
      · have less := totalWeight_halveAll_lt hmore.1 hmore.2
        have hne' : halveAll counts ≠ [] := fun h => hne (List.map_eq_nil_iff.1 h)
        obtain ⟨k, u, leaves, hrun, height, hbefore⟩ := ih _ (hw ▸ less) hne' one_le_halveAll
          (by rw [halveAll, List.length_map]; exact fit) rfl
        refine ⟨k + 1, u, by rw [dif_pos hmore, leaves], hrun, height, ?_⟩
        intro j hj
        cases j with
        | zero => exact ⟨t, run, hhigh⟩
        | succ j => exact hbefore j (Nat.lt_of_succ_lt_succ hj)
      · have ones : ∀ c ∈ counts, c.weight = 1 := by
          intro c hc
          have hc1 := pos c hc
          have hc2 : ¬ 1 < c.weight := fun h => hmore ⟨pos, c, hc, h⟩
          omega
        exact absurd (height_ofCounts_le ones fit run) (Nat.not_le.2 hhigh)

theorem symbols_ofCounts_iterate {counts : List (Weighted Nat)} (hne : counts ≠ []) {k : Nat}
    {t : Tree} (run : Tree.ofCounts (halveAll^[k] counts) = some t) :
    t.symbols.Perm (counts.map Weighted.item) := by
  have hne' : halveAll^[k] counts ≠ [] := by
    intro hnil
    have hitems := items_halveAll_iterate k counts
    rw [hnil] at hitems
    exact hne (List.map_eq_nil_iff.1 hitems.symm)
  obtain ⟨u, run', symbols⟩ := ofCounts_perm hne'
  obtain rfl := Option.some.inj (run.symm.trans run')
  rwa [items_halveAll_iterate] at symbols

theorem limitedLeaves_spec {maxLength : Nat} {counts : List (Weighted Nat)} (hne : counts ≠ [])
    (pos : ∀ c ∈ counts, 1 ≤ c.weight) (fit : counts.length ≤ 2 ^ maxLength) :
    ∃ t : Tree, limitedLeaves maxLength counts = t.leaves 0 ∧ t.height ≤ maxLength ∧
      t.symbols.Perm (counts.map Weighted.item) := by
  obtain ⟨k, t, leaves, run, height, -⟩ := limitedLeaves_scaled hne pos fit
  exact ⟨t, leaves, height, symbols_ofCounts_iterate hne run⟩

/-! ## The array of lengths -/

section
variable {α : Type} (key value : α → Nat)

theorem getElem?_foldl_set_of_ne {i : Nat} {xs : List α} (h : ∀ x ∈ xs, key x ≠ i)
    (start : Array Nat) :
    (xs.foldl (fun a x => a.setIfInBounds (key x) (value x)) start)[i]? = start[i]? := by
  induction xs generalizing start with
  | nil => rfl
  | cons x rest ih =>
    rw [List.foldl_cons, ih fun y hy => h y (List.mem_cons_of_mem _ hy),
      Array.getElem?_setIfInBounds_ne (h x List.mem_cons_self)]

/-- Each of several writes to different places is there in the end. -/
theorem getElem?_foldl_set {x : α} {xs : List α} (nodup : (xs.map key).Nodup) (hx : x ∈ xs)
    {start : Array Nat} (hlt : key x < start.size) :
    (xs.foldl (fun a x => a.setIfInBounds (key x) (value x)) start)[key x]? = some (value x) := by
  induction xs generalizing start with
  | nil => cases hx
  | cons y rest ih =>
    rw [List.map_cons, List.nodup_cons] at nodup
    rw [List.foldl_cons]
    cases hx with
    | head =>
      rw [getElem?_foldl_set_of_ne]
      · exact Array.getElem?_setIfInBounds_self_of_lt hlt
      · intro z hz heq
        exact nodup.1 (heq ▸ List.mem_map_of_mem hz)
    | tail _ hmem => exact ih nodup.2 hmem (by simpa using hlt)

end

theorem perm_leaves_spread {size : Nat} {ls : List Leaf} (nodup : (ls.map Leaf.symbol).Nodup)
    (bounds : ∀ leaf ∈ ls, leaf.symbol < size ∧ 0 < leaf.length) :
    (leaves (spread size ls)).Perm ls := by
  have hls : ls.Nodup := List.Pairwise.of_map Leaf.symbol (fun a b h heq => h (congrArg _ heq)) nodup
  apply (List.perm_ext_iff_of_nodup (leaves_nodup _) hls).2
  intro leaf
  rw [mem_leaves, spread]
  constructor
  · rintro ⟨hget, hpos⟩
    by_cases hsym : ∀ l ∈ ls, l.symbol ≠ leaf.symbol
    · rw [getElem?_foldl_set_of_ne _ _ hsym, Array.getElem?_replicate] at hget
      split at hget
      · rw [Option.some.injEq] at hget
        omega
      · cases hget
    · simp only [ne_eq, Classical.not_forall, Classical.not_not] at hsym
      obtain ⟨l, hl, heq⟩ := hsym
      rw [← heq, getElem?_foldl_set _ _ nodup hl (by simpa using (bounds l hl).1),
        Option.some.injEq] at hget
      have : leaf = l := by
        cases leaf
        cases l
        simp only at heq hget
        rw [heq, hget]
      rwa [this]
  · intro hleaf
    exact ⟨getElem?_foldl_set _ _ nodup hleaf (by simpa using (bounds leaf hleaf).1),
      (bounds leaf hleaf).2⟩

/-- What the leaves of a length assignment are like: one for each symbol that occurs, of at most
`maxLength`, and no more than there is room for. -/
structure Assigned (maxLength : Nat) (counts : Array Nat) (ls : List Leaf) : Prop where
  symbols : (ls.map Leaf.symbol).Perm ((used counts).map Weighted.item)
  bounds : ∀ leaf ∈ ls, 1 ≤ leaf.length ∧ leaf.length ≤ maxLength
  alone : (used counts).length = 1 → ∀ leaf ∈ ls, leaf.length = 1
  full : 2 ≤ (used counts).length → windows maxLength ls = 2 ^ maxLength

theorem assigned_of_tree {maxLength : Nat} {counts : Array Nat} {t : Tree}
    (symbols : t.symbols.Perm ((used counts).map Weighted.item))
    (two : 2 ≤ (used counts).length) (height : t.height ≤ maxLength) :
    Assigned maxLength counts (t.leaves 0) where
  symbols := by rwa [t.symbol_leaves]
  bounds := by
    intro leaf hleaf
    cases t with
    | leaf symbol =>
      have hlen := symbols.length_eq
      rw [List.length_map] at hlen
      rw [← hlen] at two
      simp [Tree.symbols] at two
    | node left right =>
      have hle := (Tree.length_leaves hleaf).2
      rcases List.mem_append.1 hleaf with h | h
      · have := (Tree.length_leaves h).1
        omega
      · have := (Tree.length_leaves h).1
        omega
  alone := by intro h; omega
  full := by
    intro _
    rw [Tree.windows_leaves (by omega), Nat.sub_zero]

/-- The lengths of `codeLengths` are those of such an assignment, limited ones unless a symbol is
alone. -/
theorem codeLengths_eq_spread {maxLength : Nat} {counts : Array Nat} (hmax : 1 ≤ maxLength)
    (fit : (used counts).length ≤ 2 ^ maxLength) :
    ∃ ls, codeLengths maxLength counts = spread counts.size ls ∧ Assigned maxLength counts ls ∧
      (2 ≤ (used counts).length → ls = limitedLeaves maxLength (used counts)) := by
  rw [codeLengths]
  split
  · rename_i h
    refine ⟨[], rfl, ?_, ?_⟩
    · constructor
      · rw [h]
        exact List.Perm.refl _
      · intro leaf hleaf
        cases hleaf
      · intro _ leaf hleaf
        cases hleaf
      · intro htwo
        rw [h] at htwo
        cases htwo
    · intro htwo
      rw [h] at htwo
      cases htwo
  · rename_i c h
    refine ⟨[⟨c.item, 1⟩], rfl, ?_, ?_⟩
    · constructor
      · rw [h]
        exact List.Perm.refl _
      · intro leaf hleaf
        rw [List.mem_singleton.1 hleaf]
        exact ⟨Nat.le_refl _, hmax⟩
      · intro _ leaf hleaf
        rw [List.mem_singleton.1 hleaf]
      · intro htwo
        rw [h, List.length_singleton] at htwo
        omega
    · intro htwo
      rw [h, List.length_singleton] at htwo
      omega
  · rename_i hnil hone
    have two : 2 ≤ (used counts).length := by
      match hu : used counts with
      | [] => exact absurd hu hnil
      | [c] => exact absurd hu (hone c)
      | _ :: _ :: _ => simp
    obtain ⟨t, leaves, height, symbols⟩ := limitedLeaves_spec hnil
      (fun c hc => (mem_used.1 hc).2) fit
    exact ⟨t.leaves 0, by rw [leaves], assigned_of_tree symbols two height, fun _ => leaves.symm⟩

/-- These are the leaves that the lengths have, in some order. -/
theorem leaves_codeLengths_perm {maxLength : Nat} {counts : Array Nat} (hmax : 1 ≤ maxLength)
    (fit : (used counts).length ≤ 2 ^ maxLength) :
    ∃ ls, (leaves (codeLengths maxLength counts)).Perm ls ∧ Assigned maxLength counts ls ∧
      (2 ≤ (used counts).length → ls = limitedLeaves maxLength (used counts)) := by
  obtain ⟨ls, run, h, hlimited⟩ := codeLengths_eq_spread hmax fit
  refine ⟨ls, ?_, h, hlimited⟩
  rw [run]
  apply perm_leaves_spread (h.symbols.symm.nodup (used_items_nodup counts))
  intro leaf hleaf
  refine ⟨?_, (h.bounds leaf hleaf).1⟩
  obtain ⟨c, hc, heq⟩ := List.mem_map.1 (h.symbols.mem_iff.1 (List.mem_map_of_mem hleaf))
  have hget := (mem_used.1 hc).1
  rw [heq] at hget
  exact (Array.getElem?_eq_some_iff.1 hget).1

theorem codeLengths_spec {maxLength : Nat} {counts : Array Nat} (hmax : 1 ≤ maxLength)
    (fit : (used counts).length ≤ 2 ^ maxLength) :
    Assigned maxLength counts (leaves (codeLengths maxLength counts)) := by
  obtain ⟨ls, perm, h, -⟩ := leaves_codeLengths_perm hmax fit
  constructor
  · exact (perm.map _).trans h.symbols
  · exact fun leaf hleaf => h.bounds leaf (perm.mem_iff.1 hleaf)
  · exact fun hone leaf hleaf => h.alone hone leaf (perm.mem_iff.1 hleaf)
  · intro htwo
    rw [windows_perm _ perm, h.full htwo]

end Huffman

end LzCodec
