import Mathlib
import LzCodec.Proofs.CodeLengths
import LzCodec.Proofs.Machine.Decoder

/-!
# Codewords on a line

A bit string is a point between zero and one: the binary fraction that it writes. A codeword takes up the
points of all strings that begin with it. In canonical order the codewords take up one part after the other
from zero on (`code_at_share`), so no point belongs to two of them, and the points that belong to none
are the last ones (`canonicalCodes_tile`).
-/

namespace LzCodec

namespace BitString

/-- The binary fraction that has these digits. -/
def fraction (bits : List Bool) : ℚ := toNat bits / 2 ^ bits.length

/-- The digits in front are what remains when the others are divided away. -/
theorem toNat_take (bits : List Bool) (count : Nat) :
    toNat (bits.take count) = toNat bits / 2 ^ (bits.length - count) := by
  have hsplit := toNat_append (bits.take count) (bits.drop count)
  have hlow := toNat_lt (bits.drop count)
  simp only [List.take_append_drop, List.length_drop] at hsplit hlow
  rw [hsplit, Nat.mul_comm, Nat.mul_add_div (Nat.two_pow_pos _), Nat.div_eq_of_lt hlow, Nat.add_zero]

/-- A string begins with another one if it lies, as a number, among those that do. -/
theorem prefix_iff_toNat {a b : List Bool} (h : a.length ≤ b.length) :
    a <+: b ↔ toNat a * 2 ^ (b.length - a.length) ≤ toNat b ∧
      toNat b < (toNat a + 1) * 2 ^ (b.length - a.length) := by
  have hlen : (b.take a.length).length = a.length := List.length_take_of_le h
  rw [List.prefix_iff_eq_take, ← Nat.le_div_iff_mul_le (Nat.two_pow_pos _),
    ← Nat.div_lt_iff_lt_mul (Nat.two_pow_pos _), ← toNat_take]
  constructor
  · intro heq
    rw [← heq]
    omega
  · intro hbetween
    exact toNat_inj hlen.symm (by omega)

/-- The digits up to a place decide on which side of a multiple of that place a fraction lies. -/
theorem fraction_lt_iff {bits : List Bool} {width count : Nat} {share : ℚ}
    (hshare : 2 ^ width * share = count) (h : width ≤ bits.length) :
    fraction bits < share ↔ toNat (bits.take width) < count := by
  have hscale : share * 2 ^ bits.length = (count * 2 ^ (bits.length - width) : Nat) := by
    calc
      share * 2 ^ bits.length = 2 ^ width * share * 2 ^ (bits.length - width) := by
        rw [mul_right_comm, ← pow_add, Nat.add_sub_cancel' h, mul_comm]
      _ = (count * 2 ^ (bits.length - width) : Nat) := by
        rw [hshare, Nat.cast_mul, Nat.cast_pow, Nat.cast_ofNat]
  rw [fraction, div_lt_iff₀ (by positivity), hscale, Nat.cast_lt, toNat_take,
    Nat.div_lt_iff_lt_mul (Nat.two_pow_pos _)]

end BitString

namespace Huffman

open BitString

/-- The share of all bit strings that the codewords of these lengths take up together. -/
def totalShare (lengths : Array Nat) : ℚ := kraftSum (occurring lengths) (lengths.getD · 0)

/-- The first symbol comes before the second one in canonical order. -/
def Earlier (lengths : Array Nat) (a b : Nat) : Prop :=
  lengths.getD a 0 < lengths.getD b 0 ∨ lengths.getD a 0 = lengths.getD b 0 ∧ a < b

instance (lengths : Array Nat) : DecidableRel (Earlier lengths) :=
  fun _ _ => inferInstanceAs (Decidable (_ ∨ _))

/-- The symbols with a codeword that come before another one. -/
def earlier (lengths : Array Nat) (s : Nat) : Finset Nat :=
  (occurring lengths).filter fun a => Earlier lengths a s

variable {lengths : Array Nat}

theorem mem_earlier {a s : Nat} :
    a ∈ earlier lengths s ↔ a ∈ occurring lengths ∧ Earlier lengths a s :=
  Finset.mem_filter

theorem Earlier.trans {a b c : Nat} (hab : Earlier lengths a b) (hbc : Earlier lengths b c) :
    Earlier lengths a c := by
  unfold Earlier at *
  omega

theorem not_earlier_self (s : Nat) : ¬ Earlier lengths s s := by
  unfold Earlier
  omega

/-! ## Shares -/

theorem occurring_eq_leaves : occurring lengths = ((leaves lengths).map Leaf.symbol).toFinset := by
  ext s
  rw [mem_occurring, List.mem_toFinset, mem_symbols_leaves, Nat.pos_iff_ne_zero]

theorem mem_occurring_of_leaf {leaf : Leaf} (h : leaf ∈ leaves lengths) :
    leaf.symbol ∈ occurring lengths := by
  rw [occurring_eq_leaves]
  exact List.mem_toFinset.2 (List.mem_map_of_mem h)

/-- The leaf of a symbol with a codeword. -/
theorem leaf_of_occurring {s : Nat} (h : s ∈ occurring lengths) :
    (⟨s, lengths.getD s 0⟩ : Leaf) ∈ leaves lengths := by
  have hpos := Nat.pos_of_ne_zero (mem_occurring.1 h)
  exact mem_leaves.2 ⟨getElem?_of_getD_pos hpos, hpos⟩

/-- The share of some of the symbols is counted in windows. -/
theorem two_pow_mul_kraftSum {ls : List Leaf} (hls : ∀ leaf ∈ ls, leaf ∈ leaves lengths)
    (nodup : (ls.map Leaf.symbol).Nodup) :
    2 ^ longest lengths * kraftSum (ls.map Leaf.symbol).toFinset (lengths.getD · 0) =
      (windows (longest lengths) ls : ℚ) := by
  have hlengths : ∀ n ∈ ls.map Leaf.length, n ≤ longest lengths := by
    intro n hn
    obtain ⟨leaf, hleaf, rfl⟩ := List.mem_map.1 hn
    exact length_le_longest (hls leaf hleaf)
  have hmap : (ls.map fun leaf => (1 / 2 : ℚ) ^ lengths.getD leaf.symbol 0) =
      (ls.map Leaf.length).map fun n => (1 / 2 : ℚ) ^ n := by
    rw [List.map_map]
    apply List.map_congr_left
    intro leaf hleaf
    rw [getD_of_mem_leaves (hls leaf hleaf), Function.comp_apply]
  rw [kraftSum, List.sum_toFinset _ nodup, List.map_map, Function.comp_def, hmap,
    two_pow_mul_sum hlengths, ← windows_eq_sum]

theorem two_pow_mul_totalShare (lengths : Array Nat) :
    2 ^ longest lengths * totalShare lengths = (windows (longest lengths) (leaves lengths) : ℚ) := by
  rw [totalShare, occurring_eq_leaves]
  exact two_pow_mul_kraftSum (fun _ h => h) (leaves_symbols_nodup lengths)

theorem longest_le_iff {n : Nat} : longest lengths ≤ n ↔ ∀ length ∈ lengths, length ≤ n := by
  rw [longest, ← Array.foldl_toList, foldl_max_le]
  simp

/-- Lengths leave room for a code exactly if their shares do not add up to more than all. -/
theorem admissible_iff :
    Admissible lengths ↔ (∀ n ∈ lengths, n ≤ maxCodeLength) ∧ totalShare lengths ≤ 1 := by
  have hroom : windows (longest lengths) (leaves lengths) ≤ 2 ^ longest lengths ↔
      totalShare lengths ≤ 1 := by
    have hpos : (0 : ℚ) < 2 ^ longest lengths := by positivity
    rw [← mul_le_mul_iff_right₀ hpos, two_pow_mul_totalShare, mul_one]
    norm_cast
  rw [Admissible, longest_le_iff, hroom]

/-! ## Canonical order -/

/-- The symbols before a leaf in the canonical list are those that come before it. -/
theorem toFinset_before {before after : List Leaf} {leaf : Leaf}
    (split : canonicalOrder lengths = before ++ leaf :: after) :
    (before.map Leaf.symbol).toFinset = earlier lengths leaf.symbol := by
  have hmem {l : Leaf} : l ∈ before ++ leaf :: after ↔ l ∈ leaves lengths := by
    rw [← split, mem_canonicalOrder]
  have nodup : ((before ++ leaf :: after).map Leaf.symbol).Nodup := by
    rw [← split]
    exact canonicalOrder_symbols_nodup lengths
  -- what stands earlier in the list comes earlier, as no symbol stands there twice
  have sorted : (before ++ leaf :: after).Pairwise fun a b => Earlier lengths a.symbol b.symbol := by
    have hprecedes := List.pairwise_mergeSort precedes_trans precedes_total (leaves lengths)
    rw [← canonicalOrder, split] at hprecedes
    refine (hprecedes.and (List.pairwise_map.1 nodup)).imp_of_mem ?_
    intro a b ha hb hab
    have hla := getD_of_mem_leaves (hmem.1 ha)
    have hlb := getD_of_mem_leaves (hmem.1 hb)
    obtain ⟨hab, hne⟩ := hab
    simp only [Leaf.precedes, Bool.or_eq_true, Bool.and_eq_true, decide_eq_true_eq, beq_iff_eq] at hab
    unfold Earlier
    omega
  obtain ⟨-, hafter, hbefore⟩ := List.pairwise_append.1 sorted
  obtain ⟨hafter, -⟩ := List.pairwise_cons.1 hafter
  ext s
  rw [List.mem_toFinset, mem_earlier]
  constructor
  · intro hs
    obtain ⟨l, hl, rfl⟩ := List.mem_map.1 hs
    have hleaf := hmem.1 (List.mem_append_left _ hl)
    exact ⟨mem_occurring_of_leaf hleaf, hbefore l hl leaf List.mem_cons_self⟩
  · rintro ⟨hs, hearlier⟩
    have hl := hmem.2 (leaf_of_occurring hs)
    rcases List.mem_append.1 hl with hl | hl
    · exact List.mem_map_of_mem hl
    · rcases List.mem_cons.1 hl with heq | hl
      · rw [← heq] at hearlier
        exact absurd hearlier (not_earlier_self s)
      · exact absurd (hearlier.trans (hafter _ hl)) (not_earlier_self s)

/-! ## Codewords -/

section
variable (h : Admissible lengths)
include h

/-- A codeword stands at the share of all that come before it. -/
theorem code_at_share {s : Nat} (hs : s ∈ occurring lengths) :
    (canonicalCodes lengths).getD s 0 < 2 ^ lengths.getD s 0 ∧
      fraction (codeBits lengths s) = kraftSum (earlier lengths s) (lengths.getD · 0) := by
  have hleaf := leaf_of_occurring hs
  obtain ⟨before, after, split⟩ := List.append_of_mem (mem_canonicalOrder.2 hleaf)
  obtain ⟨code, hcode, hlt, hstart⟩ := code_spec h split
  have hgetD : (canonicalCodes lengths).getD s 0 = code := by
    rw [Array.getD_eq_getD_getElem?, hcode, Option.getD_some]
  refine ⟨hgetD ▸ hlt, ?_⟩
  have hbefore : ∀ leaf ∈ before, leaf ∈ leaves lengths := fun leaf hmem =>
    mem_canonicalOrder.1 (split ▸ List.mem_append_left _ hmem)
  have nodup : (before.map Leaf.symbol).Nodup := by
    have hall := canonicalOrder_symbols_nodup lengths
    rw [split, List.map_append] at hall
    exact hall.of_append_left
  have hshare := two_pow_mul_kraftSum hbefore nodup
  have hwidth : (2 : ℚ) ^ longest lengths =
      2 ^ lengths.getD s 0 * 2 ^ (longest lengths - lengths.getD s 0) := by
    rw [← pow_add, Nat.add_sub_cancel' (getD_le_longest lengths s)]
  have hpos : (0 : ℚ) < 2 ^ (longest lengths - lengths.getD s 0) := by positivity
  rw [toFinset_before split, ← hstart, hwidth, Nat.cast_mul, Nat.cast_pow, Nat.cast_ofNat,
    mul_right_comm] at hshare
  rw [fraction, codeBits_eq hleaf hcode, length_ofNat, toNat_ofNat, Nat.mod_eq_of_lt hlt,
    div_eq_iff (by positivity), mul_comm]
  exact (mul_right_cancel₀ hpos.ne' hshare).symm

theorem fraction_lt_of_earlier {a b : Nat} (ha : a ∈ occurring lengths) (hb : b ∈ occurring lengths)
    (hab : Earlier lengths a b) : fraction (codeBits lengths a) < fraction (codeBits lengths b) := by
  rw [(code_at_share h ha).2, (code_at_share h hb).2]
  apply Finset.sum_lt_sum_of_subset (i := a)
  · intro c hc
    obtain ⟨hc, hca⟩ := mem_earlier.1 hc
    exact mem_earlier.2 ⟨hc, hca.trans hab⟩
  · exact mem_earlier.2 ⟨ha, hab⟩
  · exact fun hself => not_earlier_self a (mem_earlier.1 hself).2
  · positivity
  · intro _ _ _
    positivity

/-- The windows of a symbol are those that begin with its codeword. -/
theorem getElem?_runs_iff {leaf : Leaf} (hleaf : leaf ∈ leaves lengths) {bits : List Bool}
    (hlen : bits.length = longest lengths) :
    (Decoder.runs (longest lengths) (canonicalOrder lengths))[toNat bits]? = some leaf ↔
      codeBits lengths leaf.symbol <+: bits := by
  obtain ⟨code, hcode, hroom, hrun⟩ := Machine.exists_run h hleaf
  have hlt : code < 2 ^ leaf.length := by
    have hsplit : 2 ^ longest lengths = 2 ^ leaf.length * 2 ^ (longest lengths - leaf.length) := by
      rw [← Nat.pow_add, Nat.add_sub_cancel' (length_le_longest hleaf)]
    rw [hsplit] at hroom
    exact Nat.le_of_mul_le_mul_right hroom (Nat.two_pow_pos _)
  have hbits : (codeBits lengths leaf.symbol).length ≤ bits.length :=
    hlen ▸ length_codeBits_le lengths leaf.symbol
  rw [hrun, prefix_iff_toNat hbits, codeBits_eq hleaf hcode, length_ofNat, toNat_ofNat,
    Nat.mod_eq_of_lt hlt, hlen]

/-- No string begins with two codewords. -/
theorem eq_of_prefix {a b : Nat} (ha : a ∈ occurring lengths) (hb : b ∈ occurring lengths)
    {bits : List Bool} (hlen : bits.length = longest lengths) (hab : codeBits lengths a <+: bits)
    (hbb : codeBits lengths b <+: bits) : a = b := by
  have hfirst := (getElem?_runs_iff h (leaf_of_occurring ha) hlen).2 hab
  have hsecond := (getElem?_runs_iff h (leaf_of_occurring hb) hlen).2 hbb
  exact congrArg Leaf.symbol (Option.some.inj (hfirst.symm.trans hsecond))

/-- A string begins with some codeword exactly if it lies before the end of all shares. -/
theorem exists_prefix_iff {bits : List Bool} (hlen : longest lengths ≤ bits.length) :
    (∃ s ∈ occurring lengths, codeBits lengths s <+: bits) ↔ fraction bits < totalShare lengths := by
  have htake : (bits.take (longest lengths)).length = longest lengths := List.length_take_of_le hlen
  have hfront {s : Nat} :
      codeBits lengths s <+: bits ↔ codeBits lengths s <+: bits.take (longest lengths) := by
    rw [List.prefix_take_iff, and_iff_left (length_codeBits_le lengths s)]
  have hruns := Decoder.length_runs (longest lengths) (canonicalOrder lengths)
  rw [windows_canonicalOrder] at hruns
  rw [fraction_lt_iff (two_pow_mul_totalShare lengths) hlen, ← hruns]
  constructor
  · rintro ⟨s, hs, hbegins⟩
    have hget := (getElem?_runs_iff h (leaf_of_occurring hs) htake).2 (hfront.1 hbegins)
    exact (List.getElem?_eq_some_iff.1 hget).1
  · intro hlt
    have hget := List.getElem?_eq_getElem hlt
    obtain ⟨leaf, hleaf, hin⟩ := List.mem_flatMap.1 (List.mem_of_getElem? hget)
    obtain heq := List.eq_of_mem_replicate hin
    rw [heq] at hget
    have hmem := mem_canonicalOrder.1 hleaf
    exact ⟨leaf.symbol, mem_occurring_of_leaf hmem,
      hfront.2 ((getElem?_runs_iff h hmem htake).1 hget)⟩

end

theorem size_canonicalCodes (lengths : Array Nat) : (canonicalCodes lengths).size = lengths.size := by
  have hfold (ws : List Codeword) (codes : Array Nat) :
      (ws.foldl (fun codes w => codes.setIfInBounds w.symbol (w.code % 65536)) codes).size =
        codes.size := by
    induction ws generalizing codes with
    | nil => rfl
    | cons w rest ih => simp [ih]
  rw [canonicalCodes, hfold, Array.size_replicate]

/-- A symbol without a codeword keeps the code zero. -/
theorem code_of_not_occurring {s : Nat} (hs : s ∉ occurring lengths) :
    (canonicalCodes lengths).getD s 0 = 0 := by
  have hne : ∀ w ∈ codewords lengths, w.symbol ≠ s := by
    intro w hw heq
    have hleaf : w.toLeaf ∈ canonicalOrder lengths := by
      rw [← map_assign 0 0 (canonicalOrder lengths)]
      exact List.mem_map_of_mem hw
    exact hs (heq ▸ mem_occurring_of_leaf (mem_canonicalOrder.1 hleaf))
  rw [canonicalCodes, Array.getD_eq_getD_getElem?,
    getElem?_foldl_set_of_ne (fun w : Codeword => w.symbol) _ hne, Array.getElem?_replicate]
  split <;> rfl

/-- **Canonical codewords are consecutive.** Codes of symbols are found without an overflow, and each of them
fits into the bits of its codeword. No codeword begins with another one. Read as a binary fraction, a codeword
is the share of all codewords that come before it by length and symbol, and hence less than those behind it.
So the codewords take up what lies below their share of all strings, and nothing that lies above it. -/
theorem canonicalCodes_tile (short : ∀ n ∈ lengths, n ≤ maxCodeLength) (room : totalShare lengths ≤ 1) :
    Machine.canonicalCodes lengths = pure (canonicalCodes lengths) ∧
      (canonicalCodes lengths).size = lengths.size ∧
      (∀ s ∉ occurring lengths, (canonicalCodes lengths).getD s 0 = 0) ∧
      (∀ s ∈ occurring lengths, (canonicalCodes lengths).getD s 0 < 2 ^ lengths.getD s 0) ∧
      (∀ a ∈ occurring lengths, ∀ b ∈ occurring lengths,
        codeBits lengths a <+: codeBits lengths b → a = b) ∧
      (∀ a ∈ occurring lengths, ∀ b ∈ occurring lengths, Earlier lengths a b →
        fraction (codeBits lengths a) < fraction (codeBits lengths b)) ∧
      (∀ s ∈ occurring lengths,
        fraction (codeBits lengths s) = kraftSum (earlier lengths s) (lengths.getD · 0)) ∧
      ∀ bits : List Bool, longest lengths ≤ bits.length →
        ((∃ s ∈ occurring lengths, codeBits lengths s <+: bits) ↔
          fraction bits < totalShare lengths) := by
  have h : Admissible lengths := admissible_iff.2 ⟨short, room⟩
  refine ⟨Machine.canonicalCodes_eq h, size_canonicalCodes lengths, fun _ => code_of_not_occurring,
    fun s hs => (code_at_share h hs).1, ?_, fun a ha b hb => fraction_lt_of_earlier h ha hb,
    fun s hs => (code_at_share h hs).2, fun bits => exists_prefix_iff h⟩
  intro a ha b hb hbegins
  -- both are in front of the second codeword with zeros behind it
  obtain ⟨more, hmore⟩ := Nat.exists_eq_add_of_le (length_codeBits_le lengths b)
  have hlen : (codeBits lengths b ++ List.replicate more false).length = longest lengths := by
    rw [List.length_append, List.length_replicate, hmore]
  exact eq_of_prefix h ha hb hlen (hbegins.trans (List.prefix_append _ _)) (List.prefix_append _ _)

/-- Three codewords that leave a quarter of all strings unassigned, from `110` on. -/
theorem canonicalCodes_tile_incomplete :
    let lengths := #[0, 3, 1, 3]
    (∀ n ∈ lengths, n ≤ maxCodeLength) ∧ totalShare lengths = 3 / 4 ∧
      canonicalCodes lengths = #[0, 4, 0, 5] ∧ Earlier lengths 2 1 ∧
      fraction (codeBits lengths 2) < fraction (codeBits lengths 1) ∧
      fraction (codeBits lengths 3) = 5 / 8 ∧
      ¬ ∃ s ∈ occurring lengths, codeBits lengths s <+: [true, true, false] := by
  intro lengths
  have short : ∀ n ∈ lengths, n ≤ maxCodeLength := by decide
  have hshare : totalShare lengths = 3 / 4 := by
    have hwindows := two_pow_mul_totalShare lengths
    have hwidth : longest lengths = 3 := by decide
    have hcount : windows 3 (leaves lengths) = 6 := by decide
    rw [hwidth, hcount] at hwindows
    norm_num at hwindows
    linarith
  have hcodes : canonicalCodes lengths = #[0, 4, 0, 5] := by cbv
  have hlast : codeBits lengths 3 = [true, false, true] := by cbv
  have hearlier : Earlier lengths 2 1 := by decide
  obtain ⟨-, -, -, -, -, hless, -, hassigned⟩ :=
    canonicalCodes_tile short (hshare.trans_le (by norm_num))
  refine ⟨short, hshare, hcodes, hearlier, hless 2 (by decide) 1 (by decide) hearlier, ?_, ?_⟩
  · rw [hlast]
    norm_num [fraction, BitString.toNat]
  · rw [hassigned _ (by decide), hshare]
    norm_num [fraction, BitString.toNat]

end Huffman

end LzCodec
