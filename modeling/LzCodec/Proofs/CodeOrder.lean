import LzCodec.Proofs.CodeLengths
import LzCodec.Proofs.Huffman.Depths
import LzCodec.Proofs.Huffman.Scaling

/-!
# Codewords in the order of counts

More frequent symbols have no longer codewords as long as their counts differ in the tree that the lengths
are taken from (`codeLengths_ordered`). Where the limit asks for it, counts are halved until the tree is
flat enough, and then different counts may become equal. Of equal counts the smaller symbol is joined first,
whatever its count was (`codeLengths_not_ordered`).
-/

namespace LzCodec

namespace Huffman

variable {counts : Array Nat} {maxLength a b : Nat}

/-- A symbol that occurs is there at every scale. -/
theorem mem_used_iterate (k : Nat) (occurs : 0 < counts.getD a 0) :
    (⟨halve^[k] (counts.getD a 0), a⟩ : Weighted Nat) ∈ halveAll^[k] (used counts) := by
  induction k with
  | zero => exact mem_used.2 ⟨getElem?_of_getD_pos occurs, occurs⟩
  | succ k ih =>
    rw [Function.iterate_succ_apply', Function.iterate_succ_apply']
    exact List.mem_map.2 ⟨_, ih, rfl⟩

theorem used_iterate_sorted (k : Nat) :
    (halveAll^[k] (used counts)).Pairwise fun c d => c.item < d.item := by
  rw [← List.pairwise_map (f := Weighted.item) (R := (· < ·)), items_halveAll_iterate, List.pairwise_map]
  exact used_sorted counts

/-- Of two symbols the more frequent one has no longer codeword, unless the halving that the limit asks for
has made their counts equal. Then it may have one bit more, if it is the smaller symbol. No word overflows
on the way, as long as one holds the sum of the counts and the arrays of the tree can be had. -/
theorem codeLengths_ordered (fit : (occurring counts).card ≤ 2 ^ maxLength)
    (occurs : 0 < counts.getD b 0) (more : counts.getD b 0 < counts.getD a 0) :
    ∃ k t, Tree.ofCounts (halveAll^[k] (used counts)) = some t ∧ t.height ≤ maxLength ∧
      (∀ j < k, ∃ u, Tree.ofCounts (halveAll^[j] (used counts)) = some u ∧ maxLength < u.height) ∧
      ((codeLengths maxLength counts).getD a 0 ≤ (codeLengths maxLength counts).getD b 0 ∨
        halve^[k] (counts.getD a 0) = halve^[k] (counts.getD b 0) ∧ a < b ∧
          (codeLengths maxLength counts).getD a 0 = (codeLengths maxLength counts).getD b 0 + 1) ∧
      (maxLength < 256 → counts.sum < 2 ^ 64 → 16 * (occurring counts).card ≤ 2 ^ 63 →
        Machine.codeLengths maxLength counts = pure (codeLengths maxLength counts)) := by
  have ha : a ∈ occurring counts := mem_occurring.2 (Nat.ne_of_gt (Nat.lt_trans occurs more))
  have hb : b ∈ occurring counts := mem_occurring.2 (Nat.ne_of_gt occurs)
  have hne : a ≠ b := fun heq => Nat.lt_irrefl _ (heq ▸ more)
  have two : 2 ≤ (occurring counts).card := Finset.one_lt_card.2 ⟨a, ha, b, hb, hne⟩
  rw [card_occurring] at fit two ⊢
  have hmin : 1 ≤ maxLength := by
    rcases Nat.eq_zero_or_pos maxLength with rfl | hpos
    · omega
    · exact hpos
  obtain ⟨ls, perm, -, hlimited⟩ := leaves_codeLengths_perm hmin fit
  obtain ⟨k, t, hleaves, run, flat, hbefore⟩ := limitedLeaves_scaled
    (List.length_pos_iff.1 (Nat.lt_of_lt_of_le Nat.two_pos two)) (fun c hc => (mem_used.1 hc).2) fit
  rw [hlimited two, hleaves] at perm
  refine ⟨k, t, run, flat, hbefore, ?_, ?_⟩
  · have h := codeLengths_spec hmin fit
    have hla := perm.mem_iff.1 (h.mem_leaves_of_occurring ha)
    have hlb := perm.mem_iff.1 (h.mem_leaves_of_occurring hb)
    obtain ⟨hahead, hnear⟩ := length_le_of_ahead (used_iterate_sorted k) run
      (mem_used_iterate k (Nat.lt_trans occurs more)) (mem_used_iterate k occurs) hla hlb
    have hscaled : halve^[k] (counts.getD b 0) ≤ halve^[k] (counts.getD a 0) :=
      monotone_halve.iterate k (Nat.le_of_lt more)
    have hnear := hnear hscaled
    rw [ahead_leafTree] at hahead
    dsimp only at hahead
    omega
  · exact fun hmax hsum hroom => Machine.codeLengths_eq hmax fit hsum hroom

/-- Two counts that are halved to 1, of which the first symbol has the longer codeword. -/
theorem codeLengths_ordered_tie :
    let counts := #[2, 1, 1, 4, 5]
    (occurring counts).card ≤ 2 ^ 3 ∧ 0 < counts.getD 2 0 ∧ counts.getD 2 0 < counts.getD 0 0 ∧
      (∃ k, halve^[k] (counts.getD 0 0) = halve^[k] (counts.getD 2 0) ∧
        (codeLengths 3 counts).getD 0 0 = (codeLengths 3 counts).getD 2 0 + 1) ∧
      counts.sum = 13 ∧ Machine.codeLengths 3 counts = pure (codeLengths 3 counts) := by
  intro counts
  have fit : (occurring counts).card ≤ 2 ^ 3 := by decide
  have occurs : 0 < counts.getD 2 0 := by decide
  have more : counts.getD 2 0 < counts.getD 0 0 := by decide
  have hsum : counts.sum = 13 := by decide
  obtain ⟨k, -, -, -, -, hle | ⟨hequal, -, hlength⟩, hrun⟩ := codeLengths_ordered fit occurs more
  · exact absurd hle (by decide +kernel)
  · exact ⟨fit, occurs, more, ⟨k, hequal, hlength⟩, hsum,
      hrun (by decide) (hsum ▸ by decide) (Nat.le_trans (Nat.mul_le_mul_left 16 fit) (by decide))⟩

/-- In three bits, a symbol that occurs twice has a longer codeword than one that occurs once. -/
theorem codeLengths_not_ordered :
    let counts := #[2, 1, 1, 4, 5]
    (occurring counts).card ≤ 2 ^ 3 ∧ 0 < counts.getD 2 0 ∧ counts.getD 2 0 < counts.getD 0 0 ∧
      codeLengths 3 counts = #[3, 3, 2, 2, 2] ∧
      ¬ (codeLengths 3 counts).getD 0 0 ≤ (codeLengths 3 counts).getD 2 0 := by
  decide +kernel

end Huffman

end LzCodec
