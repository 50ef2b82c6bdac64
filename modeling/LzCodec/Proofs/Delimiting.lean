import LzCodec.Proofs.Frames

/-!
# Where a frame ends

A frame says itself where it ends: with a byte less it is cut short, with a byte more it has trailing
data (`decompress_take_and_append`). A reader of the front of some bytes finds them cut short, or
finds what it would find in all of them (`Agrees`); the frame inherits this from its parts.
-/

namespace LzCodec

/-- What is found in the front of some bytes against what is found in all of them. -/
def Agrees {α : Type} (front whole : EStateM.Result Corruption Nat α) : Prop :=
  (∃ pos, front = .error .truncated pos) ∨ front = whole

theorem Agrees.cut {α : Type} (pos : Nat) (whole : EStateM.Result Corruption Nat α) :
    Agrees (.error .truncated pos) whole :=
  .inl ⟨pos, rfl⟩

theorem Agrees.same {α : Type} (found : EStateM.Result Corruption Nat α) : Agrees found found :=
  .inr rfl

variable (front more : Bytes)

/-- A part of the front is a part of all the bytes. -/
theorem Bytes.extract_append_of_le {start stop : Nat} (h : stop ≤ front.size) :
    (front ++ more).extract start stop = front.extract start stop := by
  rw [Array.extract_append, Nat.sub_eq_zero_of_le h, Array.extract_zero, Array.append_empty]

namespace Leb128

theorem agrees_readFrom (left value weight pos : Nat) :
    Agrees (readFrom front left value weight pos)
      (readFrom (front ++ more) left value weight pos) := by
  induction left generalizing value weight pos with
  | zero => exact .same _
  | succ left ih =>
    unfold readFrom
    by_cases hpos : pos < front.size
    · have hwhole : pos < (front ++ more).size := by
        rw [Array.size_append]
        omega
      simp only [dif_pos hpos, dif_pos hwhole, Array.getElem_append_left hpos]
      split
      · exact .same _
      · split
        · exact .same _
        · exact ih _ _ _
    · rw [dif_neg hpos]
      exact .cut _ _

theorem agrees_read (pos : Nat) : Agrees (read front pos) (read (front ++ more) pos) :=
  agrees_readFrom front more _ _ _ _

end Leb128

namespace BlockHeader

theorem agrees_read (room pos : Nat) :
    Agrees (read front room pos) (read (front ++ more) room pos) := by
  unfold read
  obtain ⟨_, hcut⟩ | hraw := Leb128.agrees_read front more pos
  · rw [hcut]
    exact .cut _ _
  rw [hraw]
  cases Leb128.read (front ++ more) pos with
  | error e _ => exact .same _
  | ok rawSize pos =>
  dsimp only
  split
  · exact .same _
  obtain ⟨_, hcut⟩ | hcount := Leb128.agrees_read front more pos
  · rw [hcut]
    exact .cut _ _
  rw [hcount]
  cases Leb128.read (front ++ more) pos with
  | error e _ => exact .same _
  | ok tokenCount pos =>
  dsimp only
  split
  · exact .same _
  obtain ⟨_, hcut⟩ | hsize := Leb128.agrees_read front more pos
  · rw [hcut]
    exact .cut _ _
  rw [hsize]
  cases Leb128.read (front ++ more) pos with
  | error e _ => exact .same _
  | ok payloadSize pos =>
  dsimp only
  -- A payload that fits in the front fits in all the bytes.
  have hfit : ¬ front.size - pos < payloadSize → ¬ (front ++ more).size - pos < payloadSize := by
    rw [Array.size_append]
    omega
  by_cases hshort : front.size - pos < payloadSize
  · rw [if_pos hshort]
    exact .cut _ _
  · rw [if_neg hshort, if_neg (hfit hshort)]
    exact .same _

end BlockHeader

namespace Frame

theorem take_magic_eq_iff (src : Bytes) :
    src.take magic.size = magic ↔ magic.toList <+: src.toList := by
  rw [List.prefix_iff_eq_take, ← Array.toList_inj, Array.length_toList, Array.take_eq_extract,
    Array.toList_extract, List.extract_eq_take_drop]
  exact eq_comm

theorem isPrefixOf_magic_iff (src : Bytes) :
    src.isPrefixOf magic ↔ src.toList <+: magic.toList := by
  rw [← Array.isPrefixOf_toList]
  exact List.isPrefixOf_iff_prefix

theorem agrees_readHeader (pos : Nat) :
    Agrees (readHeader front pos) (readHeader (front ++ more) pos) := by
  have hfront : front.toList <+: (front ++ more).toList := by
    rw [Array.toList_append]
    exact List.prefix_append _ _
  simp only [readHeader_apply, take_magic_eq_iff, isPrefixOf_magic_iff]
  by_cases hmagic : magic.toList <+: front.toList
  · rw [if_pos hmagic, if_pos (hmagic.trans hfront)]
    by_cases hsize : magic.size < front.size
    · rw [Array.getElem?_append_left hsize, Array.getElem?_eq_getElem hsize]
      dsimp only
      split
      · exact Leb128.agrees_read front more _
      · exact .same _
    · rw [Array.getElem?_eq_none (Nat.le_of_not_lt hsize)]
      exact .cut _ _
  · rw [if_neg hmagic]
    by_cases hshort : front.toList <+: magic.toList
    · rw [if_pos hshort]
      exact .cut _ _
    · have hwhole : ¬ magic.toList <+: (front ++ more).toList := by
        intro h
        exact (List.prefix_or_prefix_of_prefix h hfront).elim hmagic hshort
      rw [if_neg hshort, if_neg hwhole, if_neg (fun h => hshort (hfront.trans h))]
      exact .same _

/-- One block is read from the front as from all the bytes, and so are the blocks behind it. -/
theorem agrees_readBlocks (contentSize pos : Nat) (out : Output) (blocks : Array BlockHeader) :
    (readBlocks front contentSize pos out blocks).result = .error .truncated ∨
      readBlocks front contentSize pos out blocks =
        readBlocks (front ++ more) contentSize pos out blocks := by
  induction hn : front.size - pos using Nat.strongRecOn generalizing pos out blocks with
  | ind n ih =>
    by_cases hpos : pos < front.size
    · have hwhole : pos < (front ++ more).size := by
        rw [Array.size_append]
        omega
      have hbyte : (front ++ more)[pos] = front[pos] := Array.getElem_append_left hpos
      by_cases hmark : front[pos] = 0
      · right
        rw [readBlocks, readBlocks, dif_pos hpos, dif_pos hwhole, hbyte, if_pos hmark, if_pos hmark]
      · rw [readBlocks_of_ne blocks hpos hmark, readBlocks_of_ne blocks hwhole (by rwa [hbyte])]
        obtain ⟨_, hcut⟩ | hheader :=
          BlockHeader.agrees_read front more (contentSize - out.bytes.size) pos
        · left
          rw [hcut]
        rw [← hheader]
        cases hread : BlockHeader.read front (contentSize - out.bytes.size) pos with
        | error e _ => exact .inr rfl
        | ok b start =>
          have hstart := BlockHeader.read_pos hread
          dsimp only
          rw [Bytes.extract_append_of_le front more hstart.2]
          cases Block.unpack (front.extract start (start + b.payloadSize)) b.tokenCount
            (out.beginBlock b.rawSize) with
          | error e _ => exact .inr rfl
          | ok _ out' =>
            dsimp only
            cases out'.endBlock with
            | error e => exact .inr rfl
            | ok _ => exact ih _ (by omega) _ _ _ rfl
    · left
      rw [readBlocks, dif_neg hpos]

end Frame

variable {front more : Bytes} {sum : Bytes → UInt32}

/-- A frame without its last bytes is cut short. -/
theorem decompress_of_append {content : Bytes} (hmore : 0 < more.size)
    (h : decompress (front ++ more) sum = .ok content) : decompress front sum = .error .truncated := by
  obtain ⟨start, pos, hheader, hblocks, hlast, -⟩ := exists_of_decompress h
  rw [decompress_eq]
  obtain ⟨_, hcut⟩ | hsame := Frame.agrees_readHeader front more 0
  · rw [hcut]
  rw [hsame, hheader]
  dsimp only
  obtain hcut | hsame := Frame.agrees_readBlocks front more content.size start .empty #[]
  · rw [hcut]
  rw [hsame, hblocks]
  dsimp only
  rw [Array.size_append] at hlast
  rw [Frame.checkEnd, if_neg (fun h => h rfl), dif_neg (by omega)]

/-- A frame with more bytes behind it has trailing data. -/
theorem decompress_append {content : Bytes} (hmore : 0 < more.size)
    (h : decompress front sum = .ok content) :
    decompress (front ++ more) sum = .error .trailingData := by
  obtain ⟨start, pos, hheader, hblocks, hlast, -⟩ := exists_of_decompress h
  rw [decompress_eq]
  obtain ⟨_, hcut⟩ | hsame := Frame.agrees_readHeader front more 0
  · cases hcut.symm.trans hheader
  rw [← hsame, hheader]
  dsimp only
  obtain hcut | hsame := Frame.agrees_readBlocks front more content.size start .empty #[]
  · cases hcut.symm.trans hblocks
  rw [← hsame, hblocks]
  dsimp only
  have hsize : (front ++ more).size = front.size + more.size := Array.size_append
  rw [Frame.checkEnd, if_neg (fun h => h rfl), dif_pos (by omega), if_pos (by omega)]

/-- A frame ends where it says. -/
theorem decompress_take_and_append {frame content : Bytes} (h : decompress frame sum = .ok content) :
    (∀ size < frame.size, decompress (frame.take size) sum = .error .truncated) ∧
      ∀ more ≠ #[], decompress (frame ++ more) sum = .error .trailingData := by
  constructor
  · intro size hsize
    have hsplit : frame.take size ++ frame.drop size = frame := by simp
    apply @decompress_of_append (frame.take size) (frame.drop size) sum content
    · simp only [Array.drop_eq_extract, Array.size_extract]
      omega
    · rw [hsplit]
      exact h
  · intro more hmore
    exact decompress_append (Array.size_pos_iff.2 hmore) h

/-- A frame whose numbers are padded, so that no source is compressed to it. -/
theorem decompress_take_and_append_padded :
    let frame : Bytes :=
      #[79, 82, 90, 26, 1, 131, 0, 3, 131, 128, 0, 4, 110, 173, 0, 0, 0, 95, 85, 235, 49]
    decompress frame = .ok #[97, 97, 97] ∧
      decompress (frame.take 20) = .error .truncated ∧
      decompress (frame ++ #[0]) = .error .trailingData := by
  intro frame
  have hframe : decompress frame = .ok #[97, 97, 97] := by decide +kernel
  obtain ⟨hcut, hmore⟩ := decompress_take_and_append hframe
  exact ⟨hframe, hcut 20 (by decide), hmore #[0] (by decide)⟩

end LzCodec
