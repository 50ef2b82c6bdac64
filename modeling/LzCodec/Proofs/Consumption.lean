import LzCodec.Block
import LzCodec.Proofs.Huffman.Codewords

/-!
# What tokens cost

A codeword has at least one bit, whatever code table was read, and a longer repeat is written with more
extra bits. So no token stands for more than 4096 bytes for each of its bits (`takes_readToken`).
-/

namespace LzCodec

namespace BitReader

variable {α β : Type}

/-- Where `p` succeeds, it stays in its data and moves on by a number of bits that `Q` allows for the
result. -/
def Takes (p : BitParser α) (Q : α → Nat → Prop) : Prop :=
  ∀ r a r', p r = .ok a r' → r'.data = r.data ∧ ∃ n, r'.pos = r.pos + n ∧ Q a n

theorem takes_pure {Q : α → Nat → Prop} {a : α} (h : Q a 0) : Takes (pure a) Q := by
  intro r a' r' hrun
  cases hrun
  exact ⟨rfl, 0, rfl, h⟩

theorem takes_throw {Q : α → Nat → Prop} (cause : Corruption) : Takes (throw cause) Q := by
  intro r a r' hrun
  cases hrun

theorem Takes.bind {p : BitParser α} {f : α → BitParser β} {Q : α → Nat → Prop} {R : β → Nat → Prop}
    (hp : Takes p Q) (hf : ∀ a n, Q a n → Takes (f a) fun b m => R b (n + m)) : Takes (p >>= f) R := by
  intro r b r' hrun
  simp only [Bind.bind, EStateM.bind] at hrun
  cases hfirst : p r with
  | error cause r₁ =>
    rw [hfirst] at hrun
    cases hrun
  | ok a r₁ =>
    rw [hfirst] at hrun
    obtain ⟨data₁, n, pos₁, hQ⟩ := hp r a r₁ hfirst
    obtain ⟨data₂, m, pos₂, hR⟩ := hf a n hQ r₁ b r' hrun
    refine ⟨data₂.trans data₁, n + m, ?_, hR⟩
    rw [pos₂, pos₁, Nat.add_assoc]

/-- Looking at the reader takes nothing. -/
theorem takes_state : Takes (MonadState.get : BitParser BitReader) fun _ n => n = 0 := by
  intro r a r' hrun
  cases hrun
  exact ⟨rfl, 0, rfl, rfl⟩

theorem takes_skip (count : Nat) : Takes (skip count) fun _ n => n = count := by
  intro r a r' hrun
  unfold skip at hrun
  split at hrun
  · cases hrun
    exact ⟨rfl, count, rfl, rfl⟩
  · cases hrun

theorem takes_get (count : Nat) : Takes (get count) fun value n => value < 2 ^ count ∧ n = count := by
  intro r a r' hrun
  unfold get at hrun
  dsimp only at hrun
  split at hrun
  · rename_i hskip
    cases hrun
    obtain ⟨hdata, n, hpos, rfl⟩ := takes_skip count r _ _ hskip
    exact ⟨hdata, n, hpos, Nat.mod_lt _ (Nat.two_pow_pos _), rfl⟩
  · cases hrun

theorem takes_getGroups (value weight left : Nat) :
    Takes (getGroups value weight left) fun _ _ => True := by
  induction left generalizing value weight with
  | zero => exact takes_throw _
  | succ left ih =>
    unfold getGroups
    apply (takes_get 2).bind
    intro group n _
    dsimp only
    split
    · exact takes_pure trivial
    · exact ih _ _

theorem takes_getVarint : Takes getVarint fun _ _ => True :=
  takes_getGroups 0 1 maxVarintGroups

end BitReader

open BitReader

namespace Huffman.Decoder

/-- No codeword is empty. -/
def Positive (d : Decoder) : Prop := ∀ leaf ∈ d.table, 0 < leaf.length

theorem positive_of_ofLengths {lengths : Array Nat} {d : Decoder} (h : ofLengths lengths = .ok d) :
    d.Positive := by
  unfold ofLengths at h
  dsimp only at h
  split at h
  · cases h
  · cases h
    intro leaf hleaf
    rw [← Array.mem_toList_iff] at hleaf
    dsimp only at hleaf
    rw [toList_foldl_runs] at hleaf
    simp only [runs, List.nil_append, List.mem_flatMap, List.mem_replicate] at hleaf
    obtain ⟨leaf', hmem, -, rfl⟩ := hleaf
    exact (mem_leaves.1 (mem_canonicalOrder.1 hmem)).2

theorem takes_readLengths (width next : Nat) {size : Nat} (lengths : Vector Nat size) :
    Takes (readLengths width size next lengths) fun _ _ => True := by
  induction hn : size - next using Nat.strongRecOn generalizing next lengths with
  | ind n ih =>
    unfold readLengths
    apply takes_getVarint.bind
    intro delta _ _
    cases delta with
    | zero => exact takes_pure trivial
    | succ delta =>
      dsimp only
      split
      · rename_i hlt
        apply takes_getVarint.bind
        intro short _ _
        split
        · exact (takes_throw (Q := fun _ _ => True) _).bind fun _ _ _ => ih _ (by omega) _ _ rfl
        · exact ih _ (by omega) _ _ rfl
      · exact takes_throw _

/-- A table that is read has no empty codeword. -/
theorem takes_read (size : Nat) : Takes (read size) fun d _ => d.Positive := by
  unfold read
  apply takes_getVarint.bind
  intro width _ _
  dsimp only
  split
  · exact takes_throw _
  · apply (takes_readLengths width 0 _).bind
    intro lengths _ _
    split
    · rename_i d hd
      exact takes_pure (positive_of_ofLengths hd)
    · exact takes_throw _

theorem Positive.takes_decode {d : Decoder} (h : d.Positive) : Takes d.decode fun _ n => 1 ≤ n := by
  unfold decode
  apply takes_state.bind
  rintro r n rfl
  split
  · exact takes_throw _
  · rename_i leaf hleaf
    have hpositive := h leaf (Array.mem_of_getElem? hleaf)
    apply (takes_skip leaf.length).bind
    rintro _ n rfl
    apply takes_pure
    omega

end Huffman.Decoder

/-- The numbers in a slot are below four times what its extra bits tell apart. -/
theorem Slot.base_add_lt {slot extra : Nat} (h : extra < 2 ^ width slot) :
    base slot + extra < 4 * 2 ^ width slot := by
  unfold base
  unfold width at h ⊢
  split
  · rename_i hsmall
    rw [if_pos hsmall] at h
    omega
  · rename_i hlarge
    rw [if_neg hlarge] at h
    have hparity : slot % 2 < 2 := Nat.mod_lt _ (by decide)
    have hbase : (2 + slot % 2) * 2 ^ (slot / 2 - 1) ≤ 3 * 2 ^ (slot / 2 - 1) :=
      Nat.mul_le_mul_right _ (by omega)
    omega

namespace Block

theorem takes_readSlot (slot : Nat) : Takes (readSlot slot) fun value n => value < 4 * 2 ^ n := by
  unfold readSlot
  apply (takes_get (Slot.width slot)).bind
  rintro extra n ⟨hextra, rfl⟩
  exact takes_pure (Slot.base_add_lt hextra)

/-- Up to ten extra bits, two bits pay for the longest length, and up to thirteen, thirteen bits do. From
there on the longest repeat of all is paid for by two bits and the extra bits. -/
theorem length_le_of_width {length width : Nat} (h : length < 4 * 2 ^ width + minMatch)
    (hmax : length ≤ maxMatch) : length ≤ 4096 * (width + 2) := by
  simp only [minMatch] at h
  simp only [maxMatch] at hmax
  have hpower (top : Nat) (hle : width ≤ top) : 2 ^ width ≤ 2 ^ top :=
    Nat.pow_le_pow_right (by decide) hle
  by_cases hshort : width ≤ 10
  · have := hpower 10 hshort
    omega
  · by_cases hmiddle : width ≤ 13
    · have := hpower 13 hmiddle
      omega
    · omega

/-- A token takes a bit at least, and one bit for each 4096 bytes that it stands for. -/
theorem takes_readToken {litLen dist : Huffman.Decoder} (hlit : litLen.Positive)
    (hdist : dist.Positive) :
    Takes (readToken litLen dist) fun t n => 1 ≤ n ∧ t.size ≤ 4096 * n := by
  unfold readToken
  apply hlit.takes_decode.bind
  intro symbol n₁ hn₁
  split
  · apply takes_pure
    refine ⟨hn₁, ?_⟩
    simp only [Token.size]
    omega
  · apply (takes_readSlot _).bind
    intro value n₂ hvalue
    dsimp only
    split
    · exact takes_throw _
    · rename_i hmax
      apply hdist.takes_decode.bind
      intro slot n₃ hn₃
      apply (takes_readSlot slot).bind
      intro extra n₄ _
      apply takes_pure
      have hlength := length_le_of_width (Nat.add_lt_add_right hvalue minMatch) (Nat.le_of_not_lt hmax)
      refine ⟨by omega, ?_⟩
      simp only [Token.size]
      omega

end Block

end LzCodec
