import LzCodec.Huffman.Decoder
import LzCodec.Proofs.Bits.Numerals
import LzCodec.Proofs.Huffman.Lengths

/-!
# Entries of code tables

The entries of a table are pairs of numerals up to a zero. Bits begin with them or with a fault
(`entries_or_fault`), and in both cases the reader follows: it finds the lengths that the entries stand for
(`reads_entries`), or fails at the fault (`fails_entries`).
-/

namespace LzCodec

namespace Huffman

open BitString BitReader

/-- The entries of symbols from `next` on: how far each symbol lies behind the one before, and how much
shorter than `width` its codeword is. -/
inductive Entries (width size : Nat) : Nat → List Leaf → List Bool → Prop where
  | stop {next : Nat} {text : List Bool} (zero : Numeral 0 text) : Entries width size next [] text
  | entry {next delta short : Nat} {ls : List Leaf} {step cut text : List Bool}
      (hstep : Numeral (delta + 1) step) (inside : next + delta < size) (hcut : Numeral short cut)
      (hshort : short < width) (later : Entries width size (next + delta + 1) ls text) :
      Entries width size next (⟨next + delta, width - short⟩ :: ls) (step ++ (cut ++ text))

/-- What is wrong first with the entries of symbols from `next` on. -/
inductive EntriesFault (width size : Nat) : Nat → Corruption → List Bool → Prop where
  | noStep {next : Nat} {cause : Corruption} {bits : List Bool} (none : NoNumeral cause bits) :
      EntriesFault width size next cause bits
  | outside {next delta : Nat} {step : List Bool} (rest : List Bool) (hstep : Numeral (delta + 1) step)
      (beyond : size ≤ next + delta) : EntriesFault width size next .badCodeTable (step ++ rest)
  | noCut {next delta : Nat} {cause : Corruption} {step bits : List Bool}
      (hstep : Numeral (delta + 1) step) (inside : next + delta < size) (none : NoNumeral cause bits) :
      EntriesFault width size next cause (step ++ bits)
  | noLength {next delta short : Nat} {step cut : List Bool} (rest : List Bool)
      (hstep : Numeral (delta + 1) step) (inside : next + delta < size) (hcut : Numeral short cut)
      (hshort : width ≤ short) : EntriesFault width size next .badCodeTable (step ++ (cut ++ rest))
  | later {next delta short : Nat} {cause : Corruption} {step cut bits : List Bool}
      (hstep : Numeral (delta + 1) step) (inside : next + delta < size) (hcut : Numeral short cut)
      (hshort : short < width) (fault : EntriesFault width size (next + delta + 1) cause bits) :
      EntriesFault width size next cause (step ++ (cut ++ bits))

variable {width size next : Nat} {ls : List Leaf} {text bits : List Bool} {cause : Corruption}

/-- There are entries up to a zero, or there is a fault. -/
theorem entries_or_fault (width size next : Nat) (bits : List Bool) :
    (∃ ls text rest, Entries width size next ls text ∧ bits = text ++ rest) ∨
      ∃ cause, EntriesFault width size next cause bits := by
  -- behind each entry fewer symbols are left
  induction hn : size - next using Nat.strongRecOn generalizing next bits with
  | ind n ih =>
    rcases numeral_or_not bits with ⟨delta, step, bits, hstep, rfl⟩ | ⟨cause, none⟩
    · cases delta with
      | zero => exact .inl ⟨[], step, bits, .stop hstep, rfl⟩
      | succ delta =>
        by_cases inside : next + delta < size
        · rcases numeral_or_not bits with ⟨short, cut, bits, hcut, rfl⟩ | ⟨cause, none⟩
          · by_cases hshort : short < width
            · rcases ih _ (by omega) (next + delta + 1) bits rfl with
                ⟨ls, text, rest, later, rfl⟩ | ⟨cause, fault⟩
              · refine .inl ⟨_, _, rest, .entry hstep inside hcut hshort later, ?_⟩
                simp only [List.append_assoc]
              · exact .inr ⟨cause, .later hstep inside hcut hshort fault⟩
            · exact .inr ⟨_, .noLength bits hstep inside hcut (Nat.le_of_not_lt hshort)⟩
          · exact .inr ⟨cause, .noCut hstep inside none⟩
        · exact .inr ⟨_, .outside bits hstep (Nat.le_of_not_lt inside)⟩
    · exact .inr ⟨cause, .noStep none⟩

/-! ## The leaves of entries -/

theorem Entries.bounds (h : Entries width size next ls text) :
    ∀ leaf ∈ ls, next ≤ leaf.symbol ∧ leaf.symbol < size ∧ 0 < leaf.length ∧ leaf.length ≤ width := by
  induction h with
  | stop => exact fun _ hmem => absurd hmem List.not_mem_nil
  | entry _ inside _ hshort _ ih =>
    rintro leaf (_ | ⟨_, hleaf⟩)
    · dsimp only
      omega
    · have := ih leaf hleaf
      omega

theorem Entries.sorted (h : Entries width size next ls text) :
    ls.Pairwise fun a b => a.symbol < b.symbol := by
  induction h with
  | stop => exact .nil
  | entry _ _ _ _ later ih => exact .cons (fun leaf hleaf => (later.bounds leaf hleaf).1) ih

/-- Lengths that are spread over their symbols have the same leaves again. -/
theorem Entries.leaves_spread (h : Entries width size next ls text) : leaves (spread size ls) = ls := by
  have sorted := h.sorted
  have nodup : (ls.map Leaf.symbol).Nodup := by
    rw [List.Nodup, List.pairwise_map]
    exact sorted.imp Nat.ne_of_lt
  have bounds : ∀ leaf ∈ ls, leaf.symbol < size ∧ 0 < leaf.length := by
    intro leaf hleaf
    obtain ⟨-, hlt, hpos, -⟩ := h.bounds leaf hleaf
    exact ⟨hlt, hpos⟩
  refine List.Perm.eq_of_pairwise ?_ (leaves_sorted _) sorted (perm_leaves_spread nodup bounds)
  intro a b _ _ hab hba
  exact absurd hab (Nat.lt_asymm hba)

/-! ## The reader -/

namespace Decoder

/-- Reads how much shorter the codeword of a symbol is, and the entries behind it. -/
def readEntry (width symbol : Nat) {size : Nat} (inside : symbol < size) (lengths : Vector Nat size) :
    BitParser (Vector Nat size) := do
  let short ← getVarint
  if width ≤ short then
    throw .badCodeTable
  readLengths width size (symbol + 1) (lengths.set symbol (width - short))

section
variable {delta short : Nat} {step cut : List Bool} {lengths read : Vector Nat size}

theorem reads_step (hstep : Numeral (delta + 1) step) (inside : next + delta < size)
    (h : Reads (readEntry width (next + delta) inside lengths) text read) :
    Reads (readLengths width size next lengths) (step ++ text) read := by
  rw [readLengths]
  refine (reads_numeral hstep).bind ?_
  dsimp only
  rw [dif_pos inside]
  exact h

theorem fails_step (hstep : Numeral (delta + 1) step) (inside : next + delta < size)
    (h : Fails (readEntry width (next + delta) inside lengths) bits cause) :
    Fails (readLengths width size next lengths) (step ++ bits) cause := by
  rw [readLengths]
  refine (reads_numeral hstep).bind_fails ?_
  dsimp only
  rw [dif_pos inside]
  exact h

end

theorem reads_entries (h : Entries width size next ls text) (lengths : Vector Nat size) :
    ∃ read : Vector Nat size,
      read.toArray = ls.foldl (fun a leaf => a.setIfInBounds leaf.symbol leaf.length) lengths.toArray ∧
      Reads (readLengths width size next lengths) text read := by
  induction h generalizing lengths with
  | @stop _ text zero =>
    refine ⟨lengths, rfl, ?_⟩
    rw [readLengths, ← List.append_nil text]
    exact (reads_numeral zero).bind (reads_pure lengths)
  | @entry next delta short _ _ _ _ hstep inside hcut hshort _ ih =>
    obtain ⟨read, hread, reads⟩ := ih (lengths.set (next + delta) (width - short))
    refine ⟨read, ?_, ?_⟩
    · rw [hread, List.foldl_cons, Vector.toArray_set, Array.setIfInBounds,
        dif_pos (by rwa [Vector.size_toArray])]
    · refine reads_step hstep inside ((reads_numeral hcut).bind ?_)
      rw [if_neg (Nat.not_le_of_lt hshort)]
      exact reads

theorem fails_entries (h : EntriesFault width size next cause bits) (lengths : Vector Nat size) :
    Fails (readLengths width size next lengths) bits cause := by
  induction h generalizing lengths with
  | noStep none =>
    rw [readLengths]
    exact (fails_getVarint none).bind _
  | outside rest hstep beyond =>
    rw [readLengths]
    refine (reads_numeral hstep).bind_fails ?_
    dsimp only
    rw [dif_neg (Nat.not_lt_of_le beyond)]
    exact fails_throw _ _
  | noCut hstep inside none => exact fails_step hstep inside ((fails_getVarint none).bind _)
  | noLength rest hstep inside hcut hshort =>
    refine fails_step hstep inside ((reads_numeral hcut).bind_fails ?_)
    rw [if_pos hshort]
    exact (fails_throw _ _).bind _
  | later hstep inside hcut hshort _ ih =>
    refine fails_step hstep inside ((reads_numeral hcut).bind_fails ?_)
    rw [if_neg (Nat.not_le_of_lt hshort)]
    exact ih _

end Decoder

end Huffman

end LzCodec
