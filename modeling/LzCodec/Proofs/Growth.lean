import LzCodec.Proofs.Consumption
import LzCodec.Proofs.Moments

/-!
# How fast the output grows

At each moment of reading a frame, every byte of the output was paid for by payload bits that were read
before, whatever the frame announces and whether or not it is accepted in the end (`growth_bounded`).
-/

namespace LzCodec

/-- The bits of a block lie in its payload, and the payload lies in the source. -/
structure OpenBlock.Paid (src : Bytes) (spent : Nat) (b : OpenBlock) : Prop where
  litLen : b.litLen.Positive
  dist : b.dist.Positive
  size_data : b.reader.data.size = b.header.payloadSize
  done_le : b.done ≤ b.reader.pos
  spent_le : spent + 8 * b.header.payloadSize ≤ 8 * b.behind
  behind_le : b.behind ≤ src.size

theorem OpenBlock.Paid.pos_le {src : Bytes} {spent : Nat} {b : OpenBlock} (h : b.Paid src spent) :
    b.reader.pos ≤ 8 * b.header.payloadSize := by
  rw [← h.size_data]
  exact b.reader.pos_le

/-- All bits that were read lie before the current position. -/
def Phase.Paid (src : Bytes) (spent : Nat) : Phase → Prop
  | between pos => spent ≤ 8 * pos ∧ pos ≤ src.size
  | token b => b.Paid src spent
  | copying b _ _ => b.Paid src spent

/-- What is written, and what is still to be written of a copy, was paid for. -/
structure Moment.Bounded (src : Bytes) (m : Moment) : Prop where
  declared : ∃ pos, Frame.readHeader src 0 = .ok m.contentSize pos
  size_le : m.out.bytes.size + m.pending ≤ 4096 * m.bits
  blockEnd_le : m.out.blockEnd ≤ m.contentSize
  paid : m.phase.Paid src m.spent

theorem BlockHeader.rawSize_le_of_read {src : Bytes} {room pos start : Nat} {b : BlockHeader}
    (h : read src room pos = .ok b start) : b.rawSize ≤ room := by
  unfold read at h
  split at h
  · cases h
  · split at h
    · cases h
    · rename_i hroom
      split at h
      · cases h
      · split at h
        · cases h
        · split at h
          · cases h
          · split at h
            · cases h
            · cases h
              exact Nat.le_of_not_lt hroom

namespace Moment.Bounded

variable {src : Bytes} {contentSize spent : Nat} {out : Output} {b : OpenBlock} {m m' : Moment}

theorem openBlock {pos : Nat} (h : Bounded src ⟨contentSize, spent, out, .between pos⟩)
    (hnext : Moment.openBlock src ⟨contentSize, spent, out, .between pos⟩ pos = .ok m') :
    m'.Bounded src := by
  obtain ⟨hdeclared, hsize, hend, hspent, hpos⟩ := h
  unfold Moment.openBlock at hnext
  dsimp only at hnext
  split at hnext
  · cases hnext
  · rename_i header start hheader
    split at hnext
    · cases hnext
    · rename_i litLen r₁ hlitLen
      split at hnext
      · cases hnext
      · rename_i dist r hdist
        cases hnext
        have hroom := BlockHeader.rawSize_le_of_read hheader
        obtain ⟨hstart, hbehind⟩ := BlockHeader.read_pos hheader
        obtain ⟨hdata₁, -, -, hpositive⟩ := Huffman.Decoder.takes_read litLenSymbols _ _ _ hlitLen
        obtain ⟨hdata, -, -, hpositive'⟩ := Huffman.Decoder.takes_read distSymbols _ _ _ hdist
        have hpayload : r.data.size = header.payloadSize := by
          rw [hdata, hdata₁, Array.size_extract]
          omega
        have hannounced : (out.beginBlock header.rawSize).blockEnd = out.bytes.size + header.rawSize := rfl
        have hwritten : (out.beginBlock header.rawSize).bytes = out.bytes := rfl
        have hsofar : out.size = out.bytes.size := rfl
        have hfits := out.size_le
        simp only [pending, bits, block?] at hsize hend hspent
        -- nothing is written here, and the code tables only add to the bits
        refine ⟨hdeclared, ?_, ?_, hpositive, hpositive', hpayload, Nat.zero_le _, ?_, hbehind⟩
        · simp only [pending, bits, block?, hwritten]
          omega
        · dsimp only
          omega
        · dsimp only
          omega

/-- A copy is paid for when it is read, before its first byte is written. -/
theorem readToken (h : Bounded src ⟨contentSize, spent, out, .token b⟩)
    (hnext : Moment.readToken ⟨contentSize, spent, out, .token b⟩ b = .ok m') : m'.Bounded src := by
  obtain ⟨hdeclared, hsize, hend, hpaid⟩ := h
  unfold Moment.readToken at hnext
  dsimp only at hnext
  split at hnext
  · cases hnext
  · rename_i t r hread
    obtain ⟨hdata, n, hpos, hone, hcost⟩ := Block.takes_readToken hpaid.litLen hpaid.dist _ _ _ hread
    split at hnext
    · cases hnext
    · rename_i out' happly
      have hgrown := Output.size_of_apply happly
      have hsame := (Output.extend_of_apply happly).2
      have hdone := hpaid.done_le
      have hpaid' : OpenBlock.Paid src spent { b with reader := r, done := b.done + 1 } :=
        ⟨hpaid.litLen, hpaid.dist, (congrArg Array.size hdata).trans hpaid.size_data,
          by dsimp only; omega, hpaid.spent_le, hpaid.behind_le⟩
      simp only [pending, bits, block?] at hsize hend
      cases t with
      | literal byte =>
        cases hnext
        refine ⟨hdeclared, ?_, ?_, hpaid'⟩
        · simp only [pending, bits, block?]
          omega
        · dsimp only
          omega
      | copy length distance =>
        cases hnext
        -- the bytes of the copy count as pending from here on
        have hlength : (Token.copy length distance).size = length := rfl
        refine ⟨hdeclared, ?_, hend, hpaid'⟩
        simp only [pending, bits, block?]
        omega

theorem copyByte {distance count : Nat}
    (h : Bounded src ⟨contentSize, spent, out, .copying b distance count⟩)
    (hnext : Moment.copyByte ⟨contentSize, spent, out, .copying b distance count⟩ b distance count =
      .ok m') : m'.Bounded src := by
  obtain ⟨hdeclared, hsize, hend, hpaid⟩ := h
  cases count with
  | zero =>
    cases hnext
    exact ⟨hdeclared, hsize, hend, hpaid⟩
  | succ count =>
    unfold Moment.copyByte at hnext
    dsimp only at hnext
    split at hnext
    · cases hnext
    · rename_i out' happly
      cases hnext
      have hgrown := Output.size_of_apply happly
      have hsame := (Output.extend_of_apply happly).2
      have hbyte : (Token.copy 1 distance).size = 1 := rfl
      simp only [pending, bits, block?] at hsize hend
      refine ⟨hdeclared, ?_, ?_, hpaid⟩
      · simp only [pending, bits, block?]
        omega
      · dsimp only
        omega

theorem closeBlock (h : Bounded src ⟨contentSize, spent, out, .token b⟩)
    (hnext : Moment.closeBlock ⟨contentSize, spent, out, .token b⟩ b = .ok m') : m'.Bounded src := by
  obtain ⟨hdeclared, hsize, hend, hpaid⟩ := h
  unfold Moment.closeBlock at hnext
  split at hnext
  · cases hnext
  · split at hnext
    · cases hnext
    · cases hnext
      have hbits := hpaid.pos_le
      have hspent := hpaid.spent_le
      refine ⟨hdeclared, hsize, hend, ?_, hpaid.behind_le⟩
      dsimp only at hspent ⊢
      omega

/-- The next moment is bounded if this one is. -/
theorem next (h : m.Bounded src) (hnext : m.next src = .inl m') : m'.Bounded src := by
  rcases m with ⟨contentSize, spent, out, phase⟩
  cases phase with
  | between pos =>
    unfold Moment.next at hnext
    dsimp only at hnext
    split at hnext
    · split at hnext
      · cases hnext
      · exact h.openBlock (eq_ok_of_goOn hnext)
    · cases hnext
  | token b =>
    have hok := eq_ok_of_goOn hnext
    split at hok
    · exact h.closeBlock hok
    · exact h.readToken hok
  | copying b distance count => exact h.copyByte (eq_ok_of_goOn hnext)

end Moment.Bounded

/-- The header of a frame lies in it. -/
theorem Frame.le_size_of_readHeader {src : Bytes} {contentSize pos : Nat}
    (h : readHeader src 0 = .ok contentSize pos) : pos ≤ src.size := by
  rw [readHeader_apply] at h
  split at h
  · split at h
    · cases h
    · split at h
      · exact (Leb128.read_pos h).2
      · cases h
  · cases h

theorem Moment.bounded_start {src : Bytes} {contentSize pos : Nat}
    (h : Frame.readHeader src 0 = .ok contentSize pos) : (start contentSize pos).Bounded src where
  declared := ⟨pos, h⟩
  size_le := Nat.zero_le _
  blockEnd_le := Nat.zero_le _
  paid := ⟨Nat.zero_le _, Frame.le_size_of_readHeader h⟩

/-- Each moment of reading a frame is bounded. -/
theorem Reached.bounded {src : Bytes} {m : Moment} (h : Reached src m) : m.Bounded src := by
  induction h with
  | start hheader => exact Moment.bounded_start hheader
  | step _ hnext ih => exact ih.next hnext

theorem Moment.Bounded.block {src : Bytes} {m : Moment} {b : OpenBlock} (h : m.Bounded src)
    (hb : m.block? = some b) : b.Paid src m.spent := by
  rcases m with ⟨contentSize, spent, out, phase⟩
  have hpaid := h.paid
  cases phase with
  | between pos => cases hb
  | token b =>
    cases hb
    exact hpaid
  | copying b distance count =>
    cases hb
    exact hpaid

/-- All bits that were read are bits of the frame. -/
theorem Moment.Bounded.bits_le {src : Bytes} {m : Moment} (h : m.Bounded src) : m.bits ≤ 8 * src.size := by
  unfold Moment.bits
  split
  · rename_i hnone
    have hpaid := h.paid
    unfold Moment.block? at hnone
    split at hnone
    · rename_i pos hphase
      rw [hphase] at hpaid
      exact Nat.le_trans hpaid.1 (Nat.mul_le_mul_left 8 hpaid.2)
    · cases hnone
    · cases hnone
  · rename_i b hb
    have hblock := h.block hb
    have hbits := hblock.pos_le
    have hspent := hblock.spent_le
    have hbehind := hblock.behind_le
    omega

/-- What a run ends with is the output of a moment. -/
theorem Runs.size_le {src content : Bytes} {m : Moment} {result : Except Corruption Bytes}
    (h : Runs src m result) (hm : m.Bounded src) (hresult : result = .ok content) :
    content.size ≤ 32768 * src.size := by
  induction h with
  | done hdone =>
    subst hresult
    have hsize := hm.size_le
    have hbits := hm.bits_le
    rw [Moment.eq_of_next hdone]
    omega
  | next hnext _ ih => exact ih (hm.next hnext) hresult

/-- Reading a frame is a run of moments, and at each of them the output has at most 4096 bytes for each
payload bit that was read, and never more bytes than the frame declares. Each token of a block has taken a
bit of its payload, however many are announced. So the content of a frame has at most 32768 bytes for each
of its own. -/
theorem growth_bounded (src : Bytes) :
    (∀ contentSize pos, Frame.readHeader src 0 = .ok contentSize pos →
      Runs src (.start contentSize pos) (decompress src)) ∧
    (∀ m, Reached src m →
      (∃ pos, Frame.readHeader src 0 = .ok m.contentSize pos) ∧
      m.out.bytes.size ≤ m.contentSize ∧ m.out.bytes.size ≤ 4096 * m.bits ∧ m.bits ≤ 8 * src.size ∧
      ∀ b, m.block? = some b → b.done ≤ 8 * b.header.payloadSize) ∧
    ∀ content, decompress src = .ok content → content.size ≤ 32768 * src.size := by
  refine ⟨fun _ _ hheader => runs_decompress hheader, ?_, ?_⟩
  · intro m hm
    have hbounded := hm.bounded
    have hpaid : m.out.bytes.size ≤ 4096 * m.bits := Nat.le_of_add_right_le hbounded.size_le
    refine ⟨hbounded.declared, Nat.le_trans m.out.size_le hbounded.blockEnd_le, hpaid,
      hbounded.bits_le, ?_⟩
    intro b hb
    have hblock := hbounded.block hb
    exact Nat.le_trans hblock.done_le hblock.pos_le
  · intro content hcontent
    obtain ⟨start, pos, hheader, -⟩ := exists_of_decompress hcontent
    exact (runs_decompress hheader).size_le (Moment.bounded_start hheader) hcontent

/-- A frame of a block of literals and a block of copies, in the middle of the last copy. -/
theorem growth_bounded_within_copy :
    let src : Bytes := #[79, 82, 90, 26, 1, 13, 3, 3, 4, 110, 173, 0, 0, 138, 0, 2, 5, 110, 170, 144, 100,
      0, 0, 29, 39, 243, 190]
    Frame.readHeader src 0 = .ok 13 6 ∧ Runs src (.start 13 6) (decompress src) ∧
      (∃ m b, Reached src m ∧ m.block? = some b ∧ m.out.bytes = Array.replicate 10 97 ∧ m.bits = 65 ∧
        m.pending = 3 ∧ b.done = 2 ∧ m.out.bytes.size ≤ m.contentSize ∧
        m.out.bytes.size ≤ 4096 * m.bits ∧ m.bits ≤ 8 * src.size ∧
        b.done ≤ 8 * b.header.payloadSize) ∧
      decompress src = .ok (Array.replicate 13 97) ∧ 13 ≤ 32768 * src.size := by
  intro src
  have hheader : Frame.readHeader src 0 = .ok 13 6 := by rfl
  have hcontent : decompress src = .ok (Array.replicate 13 97) := by decide +kernel
  obtain ⟨hruns, hbounds, hsize⟩ := growth_bounded src
  refine ⟨hheader, hruns 13 6 hheader, ?_, hcontent, hsize _ hcontent⟩
  have hwalk : ((Moment.start 13 6).walk src 16).map
      (fun m => (m.out.bytes, m.bits, m.pending, m.block?.map OpenBlock.done)) =
        some (Array.replicate 10 97, 65, 3, some 2) := by
    decide +kernel
  obtain ⟨m, hm, hseen⟩ := Option.map_eq_some_iff.1 hwalk
  obtain ⟨hbytes, hseen⟩ := Prod.mk.inj hseen
  obtain ⟨hread, hseen⟩ := Prod.mk.inj hseen
  obtain ⟨hpending, hseen⟩ := Prod.mk.inj hseen
  obtain ⟨b, hb, hdone⟩ := Option.map_eq_some_iff.1 hseen
  have hreached : Reached src m := (Reached.start hheader).walk hm
  obtain ⟨-, hdeclared, hpaid, hbits, htokens⟩ := hbounds m hreached
  exact ⟨m, b, hreached, hb, hbytes, hread, hpending, hdone, hdeclared, hpaid, hbits, htokens b hb⟩

end LzCodec
