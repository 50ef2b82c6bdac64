import LzCodec.Proofs.Grammar

/-!
# Any honest source of matches will do

The parser takes nothing from its matches but where they are. As long as those that are found are repeats
of the source, the tokens give the source back: whatever else is answered, however the answers depend on
the questions before, and wherever the limit ends the block (`parseBlock_lossless`).
-/

namespace LzCodec

/-- Tokens that lead along repeats add what they lead past. -/
theorem Path.applyAll {src : Bytes} {pos next : Nat} {tokens : List Token} {out : Output}
    (h : Path src (fun pos m => m.Genuine src pos) pos tokens next) (hpos : pos ≤ src.size)
    (hout : out.bytes.toList = src.toList.take pos) (fits : next ≤ out.blockEnd) :
    ∃ out', Output.applyAll tokens out = .ok () out' ∧ out'.bytes.toList = src.toList.take next := by
  have hsize : out.bytes.size = pos := by
    rw [← Array.length_toList, hout, List.length_take]
    exact Nat.min_eq_left hpos
  have hgrounded : Token.Grounded out.bytes.size tokens := hsize ▸ h.grounded
  have hfits : out.bytes.size + Token.totalSize tokens.toArray ≤ out.blockEnd := by
    rwa [hsize, h.size_eq]
  obtain ⟨out', hrun, hbytes, -⟩ := Output.applyAll_of_grounded hgrounded hfits
  exact ⟨out', hrun, by rw [hbytes, hout, h.spelled]⟩

/-- Parsing with a source of matches that finds only repeats loses nothing: behind what was there before
stand at most `limit` tokens, fewer only at the end of the source, and applied to the source up to the
first position they give it up to the position that is returned. An index is such a source, so the tokens
of the whole source are replayed to it. -/
theorem parseBlock_lossless (src : Bytes) (effort : Effort) :
    (∀ (σ : Type) [MatchSource σ] (s : σ), Finds (fun pos m => m.Genuine src pos) s →
      ∀ (limit pos : Nat) (tokens : Array Token), pos ≤ src.size →
        ∃ new next t, parseBlock effort src limit pos tokens s = ((next, tokens ++ new), t) ∧
          next ≤ src.size ∧ new.size ≤ limit ∧ (next < src.size → new.size = limit) ∧
          ∀ out : Output, out.bytes.toList = src.toList.take pos → next ≤ out.blockEnd →
            ∃ out', Output.applyAll new.toList out = .ok () out' ∧
              out'.bytes.toList = src.toList.take next) ∧
    (∀ index : Index src (Geometry.ofSize src.size),
      Finds (fun pos m => m.Genuine src pos) index) ∧
    replay (parse src effort) = .ok src := by
  refine ⟨?_, Index.finds_genuine, ?_⟩
  · intro σ _ s found limit pos tokens hpos
    obtain ⟨new, next, t, hparse, hfew, hfull, hpath, -⟩ :=
      path_parseBlock effort src limit pos tokens found
    refine ⟨new.toArray, next, t, hparse, hpath.le_size hpos, hfew, hfull, ?_⟩
    intro out hout fits
    exact hpath.applyAll hpos hout fits
  · have found := (Index.ofSource src).finds_genuine
    have hend := parseBlock_end effort #[] found (Nat.zero_le _) (Nat.le_add_left src.size 0)
    obtain ⟨new, next, t, hparse, -, -, hpath, -⟩ :=
      path_parseBlock effort src src.size 0 #[] found
    rw [hparse] at hend
    have hall : parse src effort = new.toArray := by
      rw [parse, hparse, Array.empty_append]
    have hspelled : new.foldl Token.extend [] = src.toList.take next := hpath.spelled
    rw [hall]
    apply replay_of_grounded hpath.grounded
    rw [hspelled, List.take_of_length_le]
    exact Nat.le_of_eq hend.symm

/-- A source of matches that changes its mind: in a run of one byte it finds a repeat every other time,
and what it says of later positions goes by the number of the question. -/
structure Wavering (src : Bytes) where
  asked : Nat

instance (src : Bytes) : MatchSource (Wavering src) where
  find pos _ s :=
    (if s.asked % 2 = 1 ∧ 1 ≤ pos ∧ pos + 6 ≤ src.size then some ⟨1, 6⟩ else none, ⟨s.asked + 1⟩)
  reaches _ _ _ s := (s.asked % 5 == 3, ⟨s.asked + 1⟩)

theorem Wavering.finds_genuine (size : Nat) (byte : UInt8) (s : Wavering (Array.replicate size byte)) :
    Finds (fun pos m => m.Genuine (Array.replicate size byte) pos) s := by
  intro t _ pos depth m hm
  simp only [MatchSource.find] at hm
  split at hm
  · rename_i hfits
    obtain rfl := Option.some.inj hm
    obtain ⟨-, hpos, hend⟩ := hfits
    rw [Array.size_replicate] at hend
    refine ⟨Nat.le_refl _, hpos, by decide, by simpa using hend, ?_⟩
    intro i hi
    dsimp only at hi ⊢
    rw [Array.getElem?_replicate, Array.getElem?_replicate, if_pos (by omega), if_pos (by omega)]
  · cases hm

/-- Two of the matches at hand are dropped before one is taken, and the limit ends the block there. -/
theorem parseBlock_lossless_wavering :
    let src : Bytes := Array.replicate 12 97
    let start : Wavering src := ⟨0⟩
    Finds (fun pos m => m.Genuine src pos) start ∧ 1 ≤ src.size ∧
      (parseBlock ⟨1, 1, 1⟩ src 4 1 #[.literal 97] start).1 =
        (10, #[.literal 97, .literal 97, .literal 97, .literal 97, .copy 6 1]) ∧
      ∃ new next t, parseBlock ⟨1, 1, 1⟩ src 4 1 #[.literal 97] start =
          ((next, #[.literal 97] ++ new), t) ∧
        next ≤ src.size ∧ new.size ≤ 4 ∧ (next < src.size → new.size = 4) ∧
        ∀ out : Output, out.bytes.toList = src.toList.take 1 → next ≤ out.blockEnd →
          ∃ out', Output.applyAll new.toList out = .ok () out' ∧
            out'.bytes.toList = src.toList.take next := by
  intro src start
  have found : Finds (fun pos m => m.Genuine src pos) start := Wavering.finds_genuine 12 97 start
  have hpos : 1 ≤ src.size := by decide
  exact ⟨found, hpos, by decide +kernel,
    (parseBlock_lossless src ⟨1, 1, 1⟩).1 (Wavering src) start found 4 1 #[.literal 97] hpos⟩

end LzCodec
