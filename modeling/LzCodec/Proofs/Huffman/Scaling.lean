import LzCodec.Proofs.Huffman.Siblings

/-!
# Scaled counts

Counts that were halved any number of times are off by at most one step of their scale
(`halve_iterate_le`, `le_halve_iterate`).
-/

namespace LzCodec

namespace Huffman

/-- Halving several times is one division; only the last halving makes the result odd. -/
theorem halve_iterate_succ (k n : Nat) : halve^[k + 1] n = n / 2 ^ (k + 2) * 2 + 1 := by
  induction k with
  | zero => rfl
  | succ k ih =>
    have hdiv : n / 2 ^ (k + 1 + 2) = n / 2 ^ (k + 2) / 2 := by
      rw [Nat.div_div_eq_div_mul, ← Nat.pow_succ]
    rw [Function.iterate_succ_apply', ih, hdiv]
    unfold halve
    omega

/-- No count falls below its place on the scale by more than one step. -/
theorem halve_iterate_le (k n : Nat) : 2 ^ k * (halve^[k] n - 1) ≤ n := by
  cases k with
  | zero => simp
  | succ k =>
    rw [halve_iterate_succ, Nat.add_sub_cancel, Nat.mul_comm _ 2, ← Nat.mul_assoc, ← Nat.pow_succ]
    exact Nat.mul_div_le _ _

/-- No count rises above its place on the scale by more than one step. -/
theorem le_halve_iterate (k n : Nat) : n ≤ 2 ^ k * (halve^[k] n + 1) := by
  cases k with
  | zero => simp
  | succ k =>
    have hlt : n < 2 ^ (k + 2) * (n / 2 ^ (k + 2) + 1) :=
      Nat.lt_mul_div_succ n (Nat.two_pow_pos _)
    rw [halve_iterate_succ, show n / 2 ^ (k + 2) * 2 + 1 + 1 = 2 * (n / 2 ^ (k + 2) + 1) by omega,
      ← Nat.mul_assoc, ← Nat.pow_succ]
    exact Nat.le_of_lt hlt

/-- A halved count is at least half of what it was, less one step. -/
theorem le_halve (n : Nat) : n ≤ 2 * halve n + 1 := by
  unfold halve
  omega

theorem one_le_halve (n : Nat) : 1 ≤ halve n :=
  Nat.le_add_left 1 _

theorem one_le_halve_iterate (k : Nat) {n : Nat} (h : 1 ≤ n) : 1 ≤ halve^[k] n := by
  cases k with
  | zero => exact h
  | succ k =>
    rw [Function.iterate_succ_apply']
    exact one_le_halve _

theorem monotone_halve : Monotone halve := by
  intro m n h
  unfold halve
  omega

theorem mem_halveAll_iterate {counts : List (Weighted Nat)} {k : Nat} {c : Weighted Nat}
    (h : c ∈ halveAll^[k] counts) : ∃ d ∈ counts, c = ⟨halve^[k] d.weight, d.item⟩ := by
  induction k generalizing c with
  | zero => exact ⟨c, h, rfl⟩
  | succ k ih =>
    rw [Function.iterate_succ_apply'] at h
    obtain ⟨b, hb, rfl⟩ := List.mem_map.1 h
    obtain ⟨d, hd, rfl⟩ := ih hb
    exact ⟨d, hd, by rw [Function.iterate_succ_apply']⟩

end Huffman

end LzCodec
