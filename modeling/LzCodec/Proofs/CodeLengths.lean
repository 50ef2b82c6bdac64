import Mathlib
import LzCodec.Proofs.Huffman.Optimality
import LzCodec.Proofs.Machine.Lengths

/-!
# Complete and best codes

A codeword of `n` bits takes up `1 / 2 ^ n` of all bit strings. The codewords that symbols are given
within a limit take up all of them (`codeLengths_complete`), and as long as the limit is not in the way,
no others that leave room for one another write the symbols with fewer bits (`codeLengths_best`).
-/

namespace LzCodec

namespace Huffman

/-- The symbols whose count is not zero. -/
def occurring (counts : Array Nat) : Finset Nat :=
  (Finset.range counts.size).filter fun s => counts.getD s 0 ≠ 0

/-- The share of all bit strings that codewords of these lengths take up. -/
def kraftSum (symbols : Finset Nat) (length : Nat → Nat) : ℚ :=
  ∑ s ∈ symbols, (1 / 2) ^ length s

/-- The number of bits that all occurrences take. -/
def totalLength (counts : Array Nat) (length : Nat → Nat) : Nat :=
  ∑ s ∈ occurring counts, counts.getD s 0 * length s

variable {counts lengths : Array Nat} {maxLength : Nat}

theorem mem_occurring {s : Nat} : s ∈ occurring counts ↔ counts.getD s 0 ≠ 0 := by
  rw [occurring, Finset.mem_filter, Finset.mem_range, and_iff_right_iff_imp]
  intro hne
  exact (Array.getElem?_eq_some_iff.1 (getElem?_of_getD_pos (Nat.pos_of_ne_zero hne))).1

theorem occurring_eq : occurring counts = ((used counts).map Weighted.item).toFinset := by
  ext s
  rw [mem_occurring, List.mem_toFinset, mem_items_used, Nat.pos_iff_ne_zero]

theorem card_occurring : (occurring counts).card = (used counts).length := by
  rw [occurring_eq, List.toFinset_card_of_nodup (used_items_nodup counts), List.length_map]

/-! ## Sums over symbols -/

section
variable {M : Type} [AddCommMonoid M]

theorem sum_occurring (f : Nat → M) :
    ∑ s ∈ occurring counts, f s = ((used counts).map fun c => f c.item).sum := by
  rw [occurring_eq, List.sum_toFinset f (used_items_nodup counts), List.map_map]
  rfl

/-- A sum over symbols and their lengths is one over leaves. -/
theorem sum_lengths {ls : List Leaf} (f : Nat → Nat → M)
    (hsymbols : (ls.map Leaf.symbol).Perm ((used counts).map Weighted.item))
    (hlengths : ∀ leaf ∈ ls, lengths.getD leaf.symbol 0 = leaf.length) :
    ∑ s ∈ occurring counts, f s (lengths.getD s 0) =
      (ls.map fun leaf => f leaf.symbol leaf.length).sum := by
  have hleaves : (ls.map fun leaf => f leaf.symbol leaf.length) =
      (ls.map Leaf.symbol).map fun s => f s (lengths.getD s 0) := by
    rw [List.map_map]
    apply List.map_congr_left
    intro leaf hleaf
    rw [Function.comp_apply, hlengths leaf hleaf]
  rw [sum_occurring fun s => f s (lengths.getD s 0), hleaves, (hsymbols.map _).sum_eq, List.map_map]
  rfl

end

/-- Shares of all bit strings are counted in windows of any width that is not less than the lengths. -/
theorem two_pow_mul_sum {width : Nat} {ns : List Nat} (h : ∀ n ∈ ns, n ≤ width) :
    (2 : ℚ) ^ width * (ns.map fun n => (1 / 2 : ℚ) ^ n).sum =
      ((ns.map fun n => 2 ^ (width - n)).sum : Nat) := by
  induction ns with
  | nil => simp
  | cons n rest ih =>
    obtain ⟨hn, hrest⟩ := List.forall_mem_cons.1 h
    have hsplit : (2 : ℚ) ^ width * (1 / 2) ^ n = 2 ^ (width - n) := by
      calc
        (2 : ℚ) ^ width * (1 / 2) ^ n = 2 ^ (width - n) * (2 ^ n * (1 / 2) ^ n) := by
          rw [← mul_assoc, ← pow_add, Nat.sub_add_cancel hn]
        _ = 2 ^ (width - n) := by rw [← mul_pow, mul_one_div_cancel two_ne_zero, one_pow, mul_one]
    rw [List.map_cons, List.map_cons, List.sum_cons, List.sum_cons, mul_add, ih hrest, hsplit,
      Nat.cast_add, Nat.cast_pow, Nat.cast_ofNat]

theorem windows_eq_sum (width : Nat) (ls : List Leaf) :
    windows width ls = ((ls.map Leaf.length).map fun n => 2 ^ (width - n)).sum := by
  induction ls with
  | nil => rfl
  | cons leaf rest ih => rw [windows_cons, ih, List.map_cons, List.map_cons, List.sum_cons]

/-- Leaves that fill all windows take up all bit strings. -/
theorem sum_halves_of_full {width : Nat} {ls : List Leaf} (hle : ∀ leaf ∈ ls, leaf.length ≤ width)
    (hfull : windows width ls = 2 ^ width) :
    (ls.map fun leaf => (1 / 2 : ℚ) ^ leaf.length).sum = 1 := by
  have hlengths : ∀ n ∈ ls.map Leaf.length, n ≤ width := by
    intro n hn
    obtain ⟨leaf, hleaf, rfl⟩ := List.mem_map.1 hn
    exact hle leaf hleaf
  have hsum := two_pow_mul_sum hlengths
  rw [← windows_eq_sum, hfull, List.map_map, Nat.cast_pow, Nat.cast_ofNat] at hsum
  exact mul_left_cancel₀ (pow_ne_zero width two_ne_zero) (hsum.trans (mul_one _).symm)

/-- Lengths whose codewords take up no more than all bit strings leave room for one another. -/
theorem fits_of_kraftSum_le {length : Nat → Nat} (h : kraftSum (occurring counts) length ≤ 1) :
    ∃ width, Fits width ((used counts).map fun c => length c.item) := by
  -- Any width will do that no length exceeds, such as the sum of all.
  obtain ⟨width, hwidth⟩ : ∃ width, ∀ n ∈ (used counts).map fun c => length c.item, n ≤ width :=
    ⟨_, fun n hn => List.single_le_sum (fun _ _ => Nat.zero_le _) n hn⟩
  refine ⟨width, hwidth, ?_⟩
  have hsum := two_pow_mul_sum hwidth
  rw [kraftSum, sum_occurring] at h
  rw [List.map_map] at hsum
  have hle := mul_le_mul_of_nonneg_left h (pow_nonneg zero_le_two width : (0 : ℚ) ≤ 2 ^ width)
  rw [mul_one] at hle
  exact_mod_cast hsum ▸ hle

/-! ## The lengths of a code -/

namespace Assigned

variable (h : Assigned maxLength counts (leaves lengths))
include h

/-- A symbol has a codeword exactly if it occurs. -/
theorem getD_eq_zero_iff {s : Nat} : lengths.getD s 0 = 0 ↔ counts.getD s 0 = 0 := by
  have hmem := h.symbols.mem_iff (a := s)
  rw [mem_symbols_leaves, mem_items_used] at hmem
  omega

/-- The leaf of a symbol that occurs. -/
theorem mem_leaves_of_occurring {s : Nat} (hs : s ∈ occurring counts) :
    (⟨s, lengths.getD s 0⟩ : Leaf) ∈ leaves lengths := by
  have hpos := Nat.pos_of_ne_zero fun hzero => mem_occurring.1 hs (h.getD_eq_zero_iff.1 hzero)
  exact mem_leaves.2 ⟨getElem?_of_getD_pos hpos, hpos⟩

/-- Two codewords or more take up all bit strings. -/
theorem kraftSum_eq_one (two : 2 ≤ (occurring counts).card) :
    kraftSum (occurring counts) (lengths.getD · 0) = 1 := by
  rw [card_occurring] at two
  rw [kraftSum, sum_lengths (fun _ n => (1 / 2 : ℚ) ^ n) h.symbols fun _ => getD_of_mem_leaves]
  exact sum_halves_of_full (fun leaf hleaf => (h.bounds leaf hleaf).2) (h.full two)

end Assigned

/-- Within a limit that leaves a codeword for each symbol, the halving of counts ends, and no word
overflows on the way. The symbols that occur get codewords within the limit, one bit if a symbol is alone,
and else such that they take up all bit strings. No other symbol gets one. -/
theorem codeLengths_complete (hmin : 1 ≤ maxLength) (hmax : maxLength ≤ 32)
    (hword : ∀ n ∈ counts, n < 2 ^ 32) (fit : (occurring counts).card ≤ 2 ^ maxLength) :
    ∃ lengths, Machine.codeLengths maxLength counts = pure lengths ∧
      codeLengths maxLength counts = lengths ∧ lengths.size = counts.size ∧
      (∀ s, lengths.getD s 0 = 0 ↔ counts.getD s 0 = 0) ∧
      (∀ s ∈ occurring counts, 1 ≤ lengths.getD s 0 ∧ lengths.getD s 0 ≤ maxLength) ∧
      ((occurring counts).card = 1 → ∀ s ∈ occurring counts, lengths.getD s 0 = 1) ∧
      (2 ≤ (occurring counts).card → kraftSum (occurring counts) (lengths.getD · 0) = 1) := by
  rw [card_occurring] at fit
  have hlen : (used counts).length ≤ 2 ^ 32 :=
    Nat.le_trans fit (Nat.pow_le_pow_right Nat.two_pos hmax)
  have hsum := Machine.sum_lt_of_length_used_le hword hlen
  have h := codeLengths_spec hmin fit
  refine ⟨_, Machine.codeLengths_eq (by omega) fit hsum (by omega), rfl, size_codeLengths _ _,
    fun s => h.getD_eq_zero_iff, ?_, ?_, h.kraftSum_eq_one⟩
  · intro s hs
    exact h.bounds _ (h.mem_leaves_of_occurring hs)
  · intro hone s hs
    rw [card_occurring] at hone
    exact h.alone hone _ (h.mem_leaves_of_occurring hs)

/-- Six counts in three bits, as many as halving takes. -/
theorem codeLengths_complete_six :
    let counts := #[1, 0, 2, 3, 5, 8, 13]
    (∀ n ∈ counts, n < 2 ^ 32) ∧ (occurring counts).card = 6 ∧
      ∃ lengths, Machine.codeLengths 3 counts = pure lengths ∧ lengths = #[3, 0, 3, 3, 3, 2, 2] ∧
        kraftSum (occurring counts) (lengths.getD · 0) = 1 := by
  intro counts
  have hword : ∀ n ∈ counts, n < 2 ^ 32 := by decide
  have hcard : (occurring counts).card = 6 := by decide
  obtain ⟨lengths, hrun, rfl, -, -, -, -, hsum⟩ :=
    codeLengths_complete (show 1 ≤ 3 by decide) (by decide) hword (hcard.trans_le (by decide))
  exact ⟨hword, hcard, _, hrun, by decide +kernel, hsum (hcard ▸ by decide)⟩

/-! ## The best code -/

/-- A tree within the limit is taken as it is. -/
theorem limitedLeaves_of_height_le {cs : List (Weighted Nat)} {t : Tree}
    (run : Tree.ofCounts cs = some t) (flat : t.height ≤ maxLength) :
    limitedLeaves maxLength cs = t.leaves 0 := by
  have hall : (t.leaves 0).all (·.length ≤ maxLength) = true := by
    refine List.all_eq_true.2 fun leaf hleaf => decide_eq_true ?_
    have hle := (Tree.length_leaves hleaf).2
    omega
  rw [limitedLeaves, run, Option.map_some, Option.getD_some, if_pos hall]

theorem length_le_windows (width : Nat) (ls : List Leaf) : ls.length ≤ windows width ls := by
  induction ls with
  | nil => exact Nat.zero_le _
  | cons leaf rest ih =>
    have hpos := Nat.two_pow_pos (width - leaf.length)
    rw [windows_cons, List.length_cons]
    omega

/-- A tree is high enough for its leaves. -/
theorem length_used_le_of_height_le {t : Tree} (run : Tree.ofCounts (used counts) = some t)
    (flat : t.height ≤ maxLength) (hne : used counts ≠ []) : (used counts).length ≤ 2 ^ maxLength := by
  obtain ⟨u, hu, hsymbols⟩ := ofCounts_perm hne
  obtain rfl := Option.some.inj (run.symm.trans hu)
  have hlen := hsymbols.length_eq
  rw [← t.symbol_leaves 0, List.length_map, List.length_map] at hlen
  have hwindows := length_le_windows maxLength (t.leaves 0)
  rwa [Tree.windows_leaves (by omega), Nat.sub_zero, hlen] at hwindows

/-- Lengths that are the depths of a tree's leaves cost what the tree does. -/
theorem totalLength_of_perm {t : Tree} (h : Assigned maxLength counts (leaves lengths))
    (perm : (leaves lengths).Perm (t.leaves 0)) :
    totalLength counts (lengths.getD · 0) = t.cost (counts.getD · 0) := by
  rw [totalLength, sum_lengths (fun s n => counts.getD s 0 * n) h.symbols fun _ => getD_of_mem_leaves,
    (perm.map _).sum_eq]
  exact t.sum_leaves (counts.getD · 0)

/-- A Huffman tree costs no more than other lengths that leave room for one another. -/
theorem cost_le_totalLength {t : Tree} (run : Tree.ofCounts (used counts) = some t)
    {length : Nat → Nat} (room : kraftSum (occurring counts) length ≤ 1) :
    t.cost (counts.getD · 0) ≤ totalLength counts length := by
  obtain ⟨width, hfits⟩ := fits_of_kraftSum_le room
  have hcost := cost_ofCounts_le (w := (counts.getD · 0)) (fun c hc => (getD_of_used hc).symm)
    length hfits run
  have hweights : ((used counts).map fun c => c.weight * length c.item) =
      (used counts).map fun c => counts.getD c.item 0 * length c.item :=
    List.map_congr_left fun c hc => by rw [getD_of_used hc]
  rwa [hweights, ← sum_occurring fun s => counts.getD s 0 * length s] at hcost

/-- As long as the Huffman tree of the counts themselves is within the limit, its codewords are given out.
They leave room for one another, and no others that do write the symbols with fewer bits. No word overflows
on the way, as long as one holds the sum of the counts and the arrays of the tree can be had. -/
theorem codeLengths_best {t : Tree} (two : 2 ≤ (occurring counts).card)
    (run : Tree.ofCounts (used counts) = some t) (flat : t.height ≤ maxLength) :
    (∀ s ∈ occurring counts, 1 ≤ (codeLengths maxLength counts).getD s 0) ∧
      kraftSum (occurring counts) ((codeLengths maxLength counts).getD · 0) ≤ 1 ∧
      (∀ length : Nat → Nat, (∀ s ∈ occurring counts, 1 ≤ length s) →
        kraftSum (occurring counts) length ≤ 1 →
        totalLength counts ((codeLengths maxLength counts).getD · 0) ≤ totalLength counts length) ∧
      (maxLength < 256 → counts.sum < 2 ^ 64 → 16 * (occurring counts).card ≤ 2 ^ 63 →
        Machine.codeLengths maxLength counts = pure (codeLengths maxLength counts)) := by
  have two' : 2 ≤ (used counts).length := card_occurring ▸ two
  have hne : used counts ≠ [] := fun hnil => by
    rw [hnil] at two'
    exact absurd two' (by decide)
  have fit := length_used_le_of_height_le run flat hne
  have hmin : 1 ≤ maxLength := by
    rcases Nat.eq_zero_or_pos maxLength with rfl | hpos
    · omega
    · exact hpos
  obtain ⟨ls, perm, -, hlimited⟩ := leaves_codeLengths_perm hmin fit
  rw [hlimited two', limitedLeaves_of_height_le run flat] at perm
  have h := codeLengths_spec hmin fit
  refine ⟨?_, (h.kraftSum_eq_one two).le, ?_, ?_⟩
  · intro s hs
    exact (h.bounds _ (h.mem_leaves_of_occurring hs)).1
  · intro length _ room
    rw [totalLength_of_perm h perm]
    exact cost_le_totalLength run room
  · intro hmax hsum hroom
    exact Machine.codeLengths_eq hmax fit hsum (card_occurring ▸ hroom)

/-- Four symbols in three bits, with fewer bits than codewords of two bits would take. -/
theorem codeLengths_best_four :
    let counts := #[5, 0, 3, 12, 1]
    let t := Tree.node (.node (.node (.leaf 4) (.leaf 2)) (.leaf 0)) (.leaf 3)
    (occurring counts).card = 4 ∧ Tree.ofCounts (used counts) = some t ∧ t.height = 3 ∧
      codeLengths 3 counts = #[2, 0, 3, 1, 3] ∧ kraftSum (occurring counts) (fun _ => 2) = 1 ∧
      totalLength counts ((codeLengths 3 counts).getD · 0) ≤ totalLength counts (fun _ => 2) ∧
      counts.sum = 21 ∧ Machine.codeLengths 3 counts = pure (codeLengths 3 counts) := by
  intro counts t
  have hcard : (occurring counts).card = 4 := by decide
  have run : Tree.ofCounts (used counts) = some t := by cbv
  have hroom : kraftSum (occurring counts) (fun _ => 2) = 1 := by
    rw [kraftSum, Finset.sum_const, hcard]
    norm_num
  have flat : t.height ≤ 3 := by decide
  have hsum : counts.sum = 21 := by decide
  obtain ⟨-, -, hbest, hrun⟩ := codeLengths_best (hcard ▸ by decide) run flat
  exact ⟨hcard, run, rfl, by decide +kernel, hroom, hbest _ (fun _ _ => by decide) hroom.le, hsum,
    hrun (by decide) (hsum ▸ by decide) (hcard ▸ by decide)⟩

end Huffman

end LzCodec
