import LzCodec.Proofs.CanonicalCodes

/-!
# Looking codewords up

A decoder looks ahead as many bits as the longest codeword has, and sees zeros behind the last bit. The one
codeword that these begin with, if there is one, is the symbol it finds (`decode_eq_of_leads`). So a table of
windows reads what a comparison with all codewords, bit by bit, would read (`decode_finds_leading`).
-/

namespace LzCodec

namespace BitString

theorem front_append_zeros (bits : List Bool) (zeros count : Nat) :
    front (bits ++ List.replicate zeros false) count = front bits count := by
  induction count generalizing bits zeros with
  | zero => rfl
  | succ count ih =>
    cases bits with
    | cons b rest => simp [front, ih]
    | nil =>
      cases zeros with
      | zero => rfl
      | succ zeros =>
        have hrest := ih [] zeros
        simp only [List.nil_append] at hrest ⊢
        simp [front, List.replicate_succ, hrest]

/-- Only as many zeros count as are looked at. -/
theorem exists_zeros_iff {a bits : List Bool} {count : Nat} (h : a.length ≤ count) :
    (∃ zeros, a <+: bits ++ List.replicate zeros false) ↔ a <+: front bits count := by
  constructor
  · rintro ⟨zeros, tail, htail⟩
    obtain ⟨more, rfl⟩ := Nat.exists_eq_add_of_le h
    rw [← front_append_zeros bits zeros, ← htail, front_append]
    exact List.prefix_append _ _
  · intro hbegins
    refine ⟨count, hbegins.trans ?_⟩
    rw [← front_append_zeros bits count, front_of_le (by simp)]
    exact List.take_prefix _ _

end BitString

namespace Huffman

open BitString

/-- The codeword of a symbol stands in front of the bits, with zeros behind the last of them. -/
def Leads (lengths : Array Nat) (s : Nat) (bits : List Bool) : Prop :=
  s ∈ occurring lengths ∧ ∃ zeros, codeBits lengths s <+: bits ++ List.replicate zeros false

variable {lengths : Array Nat}

section
variable (h : Admissible lengths)
include h

theorem leads_iff {leaf : Leaf} (hleaf : leaf ∈ leaves lengths) (bits : List Bool) :
    Leads lengths leaf.symbol bits ↔
      (Decoder.runs (longest lengths) (canonicalOrder lengths))[
        toNat (front bits (longest lengths))]? = some leaf := by
  rw [Leads, and_iff_right (mem_occurring_of_leaf hleaf), getElem?_runs_iff h hleaf (length_front _ _),
    exists_zeros_iff (length_codeBits_le lengths leaf.symbol)]

theorem leads_unique {a b : Nat} {bits : List Bool} (ha : Leads lengths a bits)
    (hb : Leads lengths b bits) : a = b :=
  eq_of_prefix h ha.1 hb.1 (length_front bits (longest lengths))
    ((exists_zeros_iff (length_codeBits_le lengths a)).1 ha.2)
    ((exists_zeros_iff (length_codeBits_le lengths b)).1 hb.2)

namespace Decoder
variable {d : Decoder} (hd : ofLengths lengths = .ok d)
include hd

/-- What a decoder sees is what it has a window for. -/
theorem getElem?_table (r : BitReader) :
    d.table[r.peek d.width]? = (runs (longest lengths) (canonicalOrder lengths))[
      toNat (front r.rest (longest lengths))]? := by
  rw [ofLengths_of_admissible h, Except.ok.injEq] at hd
  rw [← hd, BitReader.peek_eq, List.getElem?_toArray]

/-- A codeword in front of the bits is consumed if all of it is there. -/
theorem decode_eq_of_leads {s : Nat} {r : BitReader} (hs : Leads lengths s r.rest) (hsymbol : s < 65536) :
    d.decode r = if hleft : lengths.getD s 0 ≤ r.remaining then .ok s (r.advance _ hleft)
      else .error .truncated r := by
  have hget := (leads_iff h (leaf_of_occurring hs.1) r.rest).1 hs
  rw [← getElem?_table h hd] at hget
  rw [decode_some hget, Nat.mod_eq_of_lt hsymbol]
  simp only [bind, EStateM.bind]
  by_cases hleft : lengths.getD s 0 ≤ r.remaining
  · rw [dif_pos hleft, BitReader.skip_of_le hleft]
    rfl
  · rw [dif_neg hleft, BitReader.skip_of_lt (Nat.lt_of_not_le hleft)]

theorem decode_eq_of_not_leads {r : BitReader} (hnone : ∀ s, ¬ Leads lengths s r.rest) :
    d.decode r = .error .badCodeword r := by
  apply decode_none
  rw [getElem?_table h hd]
  cases hget : (runs (longest lengths) (canonicalOrder lengths))[
      toNat (front r.rest (longest lengths))]? with
  | none => rfl
  | some leaf =>
    obtain ⟨l, hl, hin⟩ := List.mem_flatMap.1 (List.mem_of_getElem? hget)
    obtain rfl := List.eq_of_mem_replicate hin
    exact absurd ((leads_iff h (mem_canonicalOrder.1 hl) r.rest).2 hget) (hnone _)

end Decoder

end

namespace Decoder

theorem exists_ofLengths_iff : (∃ d, ofLengths lengths = .ok d) ↔ Admissible lengths := by
  constructor
  · rintro ⟨d, hd⟩
    by_contra hnot
    rw [ofLengths_of_not_admissible hnot] at hd
    cases hd
  · intro h
    exact ⟨_, ofLengths_of_admissible h⟩

/-- **A table of windows reads codewords.** There is a decoder for lengths exactly if none is too long and
their codewords do not take up more than all strings. Wherever a reader stands, at most one codeword is in
front of it. It is consumed if all its bits are there, and otherwise the data are cut short; where there is
none, that is the failure. A reader that fails stays where it is. A table of fixed size, filled in from the
codes on machine words, does the same. -/
theorem decode_finds_leading (hsize : lengths.size ≤ 65536) :
    ((∃ d, ofLengths lengths = .ok d) ↔
      (∀ n ∈ lengths, n ≤ maxCodeLength) ∧ totalShare lengths ≤ 1) ∧
    (¬ (∃ d, ofLengths lengths = .ok d) →
      ofLengths lengths = .error .badCodeTable ∧ Machine.tableOf lengths = Machine.corrupt .badCodeTable) ∧
    ∀ d, ofLengths lengths = .ok d →
      (∀ (r : BitReader) (s : Nat), Leads lengths s r.rest →
        (∀ other, Leads lengths other r.rest → other = s) ∧
        d.decode r = if hleft : lengths.getD s 0 ≤ r.remaining then .ok s (r.advance _ hleft)
          else .error .truncated r) ∧
      (∀ r : BitReader, (∀ s, ¬ Leads lengths s r.rest) → d.decode r = .error .badCodeword r) ∧
      ∃ t, Machine.tableOf lengths = pure t ∧
        Machine.orStop (Machine.tryDecode t) = Machine.decode t ∧
        Machine.Follows (· < lengths.size) (Machine.tryDecode t) d.decode := by
  have hwords := Machine.tableOf_spec lengths hsize
  refine ⟨exists_ofLengths_iff.trans admissible_iff, ?_, ?_⟩
  · intro hnone
    have hbad := ofLengths_of_not_admissible (fun h => hnone (exists_ofLengths_iff.2 h))
    rw [hbad] at hwords
    exact ⟨hbad, hwords⟩
  · intro d hd
    have h := exists_ofLengths_iff.1 ⟨d, hd⟩
    rw [hd] at hwords
    obtain ⟨t, htable, ht⟩ := hwords
    refine ⟨?_, fun r => decode_eq_of_not_leads h hd, t, htable, Machine.orStop_tryDecode t,
      Machine.follows_tryDecode ht⟩
    intro r s hs
    have hlt := Nat.lt_of_lt_of_le (symbol_lt_size (leaf_of_occurring hs.1)) hsize
    exact ⟨fun other hother => leads_unique h hother hs, decode_eq_of_leads h hd hs hlt⟩

/-- The last bit of the data leads to a codeword that is cut short, the last two lead to none. -/
theorem decode_finds_leading_incomplete :
    let lengths := #[0, 3, 1, 3]
    let last : BitReader := { data := #[7], pos := 7, pos_le := by decide }
    let lastTwo : BitReader := { data := #[7], pos := 6, pos_le := by decide }
    lengths.size ≤ 65536 ∧ ∃ d, ofLengths lengths = .ok d ∧ Leads lengths 1 last.rest ∧
      d.decode last = .error .truncated last ∧ d.decode lastTwo = .error .badCodeword lastTwo := by
  intro lengths last lastTwo
  have hsize : lengths.size ≤ 65536 := by decide
  have hlong : longest lengths = 3 := by decide
  have hroom : windows 3 (leaves lengths) = 6 := by decide
  have h : Admissible lengths := by decide
  obtain ⟨d, hd⟩ := exists_ofLengths_iff.2 h
  obtain ⟨-, -, hdecode⟩ := decode_finds_leading hsize
  obtain ⟨hfound, hnone, -⟩ := hdecode d hd
  have hleads : Leads lengths 1 last.rest := by
    refine ⟨by decide, 2, ?_⟩
    have hcode : codeBits lengths 1 = [true, false, false] := by cbv
    rw [hcode]
    exact List.prefix_refl _
  have hshort : ¬ lengths.getD 1 0 ≤ last.remaining := by decide
  refine ⟨hsize, d, hd, hleads, ?_, hnone lastTwo ?_⟩
  · rw [(hfound last 1 hleads).2, dif_neg hshort]
  · rintro s ⟨hs, hbegins⟩
    have hlen : longest lengths ≤ (front lastTwo.rest 3).length := by rw [length_front, hlong]
    rw [exists_zeros_iff (hlong ▸ length_codeBits_le lengths s)] at hbegins
    have hbefore := (exists_prefix_iff h hlen).1 ⟨s, hs, hbegins⟩
    rw [fraction_lt_iff (two_pow_mul_totalShare lengths) hlen, hlong, hroom] at hbefore
    exact absurd hbefore (by decide)

end Decoder

end Huffman

end LzCodec
