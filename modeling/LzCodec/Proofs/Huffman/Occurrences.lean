import Mathlib
import LzCodec.Proofs.Huffman.Codewords
import LzCodec.Proofs.Huffman.Costs
import LzCodec.Proofs.Slots

/-!
# What occurrences cost

A code that is made for the symbols of a sequence writes the sequence with no more bits than a code of
fixed lengths does: nine bits for each symbol of an alphabet of up to 288 (`sum_lengths_le_nine`), and
for the slot of a distance as many as leave room for the bits that follow it (`sum_lengths_le_slot`).
-/

namespace LzCodec

namespace Huffman

/-- The counts are those of the symbols in a sequence. -/
def Counted (counts : Array Nat) (symbols : List Nat) : Prop :=
  ∀ s, counts.getD s 0 = symbols.count s

variable {counts : Array Nat} {symbols : List Nat}

theorem mem_used_items (h : Counted counts symbols) {s : Nat} :
    s ∈ (used counts).map Weighted.item ↔ s ∈ symbols := by
  rw [mem_items_used, h s, List.count_pos_iff]

/-- A sum over a sequence counts each symbol as often as it occurs. -/
theorem sum_occurrences (h : Counted counts symbols) {ls : List Leaf}
    (hls : (ls.map Leaf.symbol).Perm ((used counts).map Weighted.item)) (f : Nat → Nat) :
    (symbols.map f).sum = (ls.map fun leaf => countOrOne counts leaf.symbol * f leaf.symbol).sum := by
  have hitems : symbols.toFinset = ((used counts).map Weighted.item).toFinset := by
    ext s
    simp only [List.mem_toFinset, mem_used_items h]
  have hleaves : (ls.map fun leaf => countOrOne counts leaf.symbol * f leaf.symbol) =
      (ls.map Leaf.symbol).map fun s => countOrOne counts s * f s := by
    rw [List.map_map]
    rfl
  rw [Finset.sum_list_map_count, hitems, List.sum_toFinset _ (used_items_nodup counts), hleaves,
    (hls.map _).sum_eq]
  apply congrArg List.sum
  apply List.map_congr_left
  intro s hs
  have hpos := List.count_pos_iff.2 ((mem_used_items h).1 hs)
  rw [smul_eq_mul, countOrOne, h s]
  congr 1
  omega

/-- Lengths that are as bad as the limited ones are as bad for the whole sequence. -/
theorem sum_lengths_le {maxLength : Nat} (h : Counted counts symbols) (hmax : 1 ≤ maxLength)
    (fit : (used counts).length ≤ 2 ^ maxLength) {f : Nat → Nat} (hf : ∀ s ∈ symbols, 1 ≤ f s)
    (hlimited : used counts ≠ [] →
      ((limitedLeaves maxLength (used counts)).map fun leaf =>
          countOrOne counts leaf.symbol * leaf.length).sum ≤
        ((limitedLeaves maxLength (used counts)).map fun leaf =>
          countOrOne counts leaf.symbol * f leaf.symbol).sum) :
    (symbols.map fun s => (codeLengths maxLength counts).getD s 0).sum ≤ (symbols.map f).sum := by
  obtain ⟨ls, hperm, hassigned, heq⟩ := leaves_codeLengths_perm hmax fit
  have hlengths : ∀ leaf ∈ ls,
      (codeLengths maxLength counts).getD leaf.symbol 0 = leaf.length :=
    fun leaf hleaf => getD_of_mem_leaves (hperm.mem_iff.2 hleaf)
  rw [sum_occurrences h hassigned.symbols, sum_occurrences h hassigned.symbols]
  have hsum : (ls.map fun leaf => countOrOne counts leaf.symbol *
      (codeLengths maxLength counts).getD leaf.symbol 0) =
      ls.map fun leaf => countOrOne counts leaf.symbol * leaf.length :=
    List.map_congr_left fun leaf hleaf => by rw [hlengths leaf hleaf]
  rw [hsum]
  rcases Nat.lt_or_ge (used counts).length 2 with hfew | hmany
  · apply List.sum_le_sum
    intro leaf hleaf
    have hmem := hassigned.symbols.mem_iff.1 (List.mem_map_of_mem hleaf)
    have hone : (used counts).length = 1 := by
      have := List.length_pos_of_mem hmem
      rw [List.length_map] at this
      omega
    rw [hassigned.alone hone leaf hleaf]
    exact Nat.mul_le_mul_left _ (hf _ ((mem_used_items h).1 hmem))
  · rw [heq hmany]
    exact hlimited (List.ne_nil_of_length_pos (Nat.lt_of_lt_of_le Nat.zero_lt_two hmany))

/-- An alphabet of up to 288 symbols never takes more than nine bits for each symbol. -/
theorem sum_lengths_le_nine (h : Counted counts symbols) (hsize : counts.size ≤ 288) :
    (symbols.map fun s => (codeLengths maxCodeLength counts).getD s 0).sum ≤ 9 * symbols.length := by
  have hused := length_used_le counts
  have fit : (used counts).length ≤ 2 ^ maxCodeLength :=
    Nat.le_trans hused (Nat.le_trans hsize (by decide))
  have hfew : 7 * (used counts).length ≤ 4 * 2 ^ 9 :=
    Nat.le_trans (Nat.mul_le_mul_left 7 (Nat.le_trans hused hsize)) (by decide)
  have hsum := sum_lengths_le h (f := fun _ => 9) (by decide) fit (fun _ _ => by decide) fun hne =>
    sum_limitedLeaves_le hne countOrOne_of_used (one_le_countOrOne counts) fit hfew
  rwa [List.map_const', List.sum_replicate, smul_eq_mul, Nat.mul_comm] at hsum

/-- A length for the slot of a distance: the more bits follow the slot, the shorter it is. -/
def slotLength (slot : Nat) : Nat := min 7 (27 - Slot.width slot)

theorem slotLength_spec : ∀ slot < 48,
    5 ≤ slotLength slot ∧ slotLength slot ≤ 7 ∧ slotLength slot + Slot.width slot ≤ 27 := by
  decide

/-- There is room for the slots of distances even if each has a bit less. -/
theorem fits_slotLength {items : List Nat} (nodup : items.Nodup) (hlt : ∀ s ∈ items, s < 48) :
    Fits 7 (items.map fun s => slotLength s - 1) where
  le_width := by
    intro n hn
    obtain ⟨s, hs, rfl⟩ := List.mem_map.1 hn
    have := (slotLength_spec s (hlt s hs)).2.1
    omega
  room := by
    obtain ⟨slots, hperm, hsub⟩ := List.subperm_of_subset nodup
      (fun s hs => List.mem_range.2 (hlt s hs) : items ⊆ List.range 48)
    rw [List.map_map, ← (hperm.map _).sum_eq]
    refine Nat.le_trans ((hsub.map _).sum_le_sum fun _ _ => Nat.zero_le _) ?_
    decide

/-- The slots of distances with the bits behind them never take more than 27 bits each. -/
theorem sum_lengths_le_slot (h : Counted counts symbols) (hsize : counts.size ≤ 48) :
    (symbols.map fun s => (codeLengths maxCodeLength counts).getD s 0 + Slot.width s).sum ≤
      27 * symbols.length := by
  have hused := length_used_le counts
  have fit : (used counts).length ≤ 2 ^ maxCodeLength :=
    Nat.le_trans hused (Nat.le_trans hsize (by decide))
  have hfew : 21 * (used counts).length ≤ Nat.fib 18 :=
    Nat.le_trans (Nat.mul_le_mul_left 21 (Nat.le_trans hused hsize)) (by decide)
  have hlt : ∀ s ∈ (used counts).map Weighted.item, s < 48 := by
    intro s hs
    obtain ⟨c, hc, rfl⟩ := List.mem_map.1 hs
    exact Nat.lt_of_lt_of_le (Array.getElem?_eq_some_iff.1 (mem_used.1 hc).1).1 hsize
  have hslots : ∀ s ∈ symbols, s < 48 := fun s hs => hlt s ((mem_used_items h).2 hs)
  have hrange : ∀ c ∈ used counts, 5 ≤ slotLength c.item ∧ slotLength c.item ≤ 10 := by
    intro c hc
    have := slotLength_spec c.item (hlt _ (List.mem_map_of_mem hc))
    omega
  have hfits := fits_slotLength (used_items_nodup counts) hlt
  rw [List.map_map] at hfits
  have hsum := sum_lengths_le h (by decide) fit
    (fun s hs => Nat.le_trans (by decide) (slotLength_spec s (hslots s hs)).1) fun hne =>
    sum_limitedLeaves_le_of_fits hne countOrOne_of_used (one_le_countOrOne counts) hfew hrange hfits
  calc
    (symbols.map fun s => (codeLengths maxCodeLength counts).getD s 0 + Slot.width s).sum ≤
        (symbols.map fun s => slotLength s + Slot.width s).sum := by
      rw [List.sum_map_add, List.sum_map_add]
      exact Nat.add_le_add_right hsum _
    _ ≤ (symbols.map fun _ => 27).sum :=
      List.sum_le_sum fun s hs => (slotLength_spec s (hslots s hs)).2.2
    _ = 27 * symbols.length := by
      rw [List.map_const', List.sum_replicate, smul_eq_mul, Nat.mul_comm]

end Huffman

end LzCodec
