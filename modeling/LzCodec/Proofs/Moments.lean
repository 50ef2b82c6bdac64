import LzCodec.Proofs.Expansion
import LzCodec.Proofs.Frames

/-!
# Moments of reading a frame

Reading a frame is taken apart here: from one moment to the next, the head of a block is read, a token is
read, a byte of a copy is written, or a block is closed. Going from moment to moment is reading the frame
(`runs_decompress`), so what holds at each moment that is reached holds throughout.
-/

namespace LzCodec

/-- A block that is being read. -/
structure OpenBlock where
  header : BlockHeader
  /-- Where the source goes on behind the payload. -/
  behind : Nat
  litLen : Huffman.Decoder
  dist : Huffman.Decoder
  reader : BitReader
  /-- The number of tokens that were read and not refused. -/
  done : Nat

inductive Phase where
  /-- At a block, or at the end mark. -/
  | between (pos : Nat)
  /-- At the next token of a block, or behind its last one. -/
  | token (b : OpenBlock)
  /-- Within a copy. There are `count` bytes to come. -/
  | copying (b : OpenBlock) (distance count : Nat)

/-- A moment of reading a frame, behind its header. -/
structure Moment where
  contentSize : Nat
  /-- The bits that were read of the payloads before this one. -/
  spent : Nat
  out : Output
  phase : Phase

namespace Moment

def start (contentSize pos : Nat) : Moment := ⟨contentSize, 0, .empty, .between pos⟩

/-- The block that is being read. -/
def block? (m : Moment) : Option OpenBlock :=
  match m.phase with
  | .between _ => none
  | .token b => some b
  | .copying b _ _ => some b

/-- The payload bits that were read so far. -/
def bits (m : Moment) : Nat :=
  match m.block? with
  | none => m.spent
  | some b => m.spent + b.reader.pos

/-- The bytes of the current copy that are to come. -/
def pending (m : Moment) : Nat :=
  match m.phase with
  | .between _ => 0
  | .token _ => 0
  | .copying _ _ count => count

/-- Reads the header and the code tables of the block at `pos`. -/
def openBlock (src : Bytes) (m : Moment) (pos : Nat) : Except Corruption Moment :=
  match BlockHeader.read src (m.contentSize - m.out.size) pos with
  | .error e _ => .error e
  | .ok header start =>
    let payload := src.extract start (start + header.payloadSize)
    match Huffman.Decoder.read litLenSymbols { data := payload } with
    | .error e _ => .error e
    | .ok litLen r =>
      match Huffman.Decoder.read distSymbols r with
      | .error e _ => .error e
      | .ok dist r =>
        .ok ⟨m.contentSize, m.spent, m.out.beginBlock header.rawSize,
          .token ⟨header, start + header.payloadSize, litLen, dist, r, 0⟩⟩

/-- Reads a token. A copy is refused before its first byte. -/
def readToken (m : Moment) (b : OpenBlock) : Except Corruption Moment :=
  match Block.readToken b.litLen b.dist b.reader with
  | .error e _ => .error e
  | .ok t r =>
    let b := { b with reader := r, done := b.done + 1 }
    match Output.apply t m.out with
    | .error e _ => .error e
    | .ok _ out =>
      match t with
      | .literal _ => .ok ⟨m.contentSize, m.spent, out, .token b⟩
      | .copy length distance => .ok ⟨m.contentSize, m.spent, m.out, .copying b distance length⟩

/-- Writes a byte of a copy. -/
def copyByte (m : Moment) (b : OpenBlock) (distance : Nat) : Nat → Except Corruption Moment
  | 0 => .ok ⟨m.contentSize, m.spent, m.out, .token b⟩
  | count + 1 =>
    match Output.apply (.copy 1 distance) m.out with
    | .error e _ => .error e
    | .ok _ out => .ok ⟨m.contentSize, m.spent, out, .copying b distance count⟩

def closeBlock (m : Moment) (b : OpenBlock) : Except Corruption Moment :=
  match b.reader.finish with
  | .error e => .error e
  | .ok _ =>
    match m.out.endBlock with
    | .error e => .error e
    | .ok _ => .ok ⟨m.contentSize, m.spent + b.reader.pos, m.out, .between b.behind⟩

/-- The content, if what follows the end mark is right. -/
def close (src : Bytes) (m : Moment) (pos : Nat) : Except Corruption Bytes :=
  match Frame.checkEnd src m.contentSize pos m.out.bytes with
  | .error e => .error e
  | .ok _ => .ok m.out.bytes

/-- A moment to go on from, unless the frame is corrupt. -/
def goOn : Except Corruption Moment → Moment ⊕ Except Corruption Bytes
  | .error e => .inr (.error e)
  | .ok m => .inl m

/-- The moment after this one, or the result. -/
def next (src : Bytes) (m : Moment) : Moment ⊕ Except Corruption Bytes :=
  match m.phase with
  | .between pos =>
    if h : pos < src.size then
      if src[pos] = 0 then .inr (m.close src (pos + 1)) else goOn (m.openBlock src pos)
    else
      .inr (.error .truncated)
  | .token b => goOn (if b.done = b.header.tokenCount then m.closeBlock b else m.readToken b)
  | .copying b distance count => goOn (m.copyByte b distance count)

theorem eq_ok_of_goOn {x : Except Corruption Moment} {m : Moment} (h : goOn x = .inl m) :
    x = .ok m := by
  cases x with
  | error e => cases h
  | ok m' => exact congrArg Except.ok (Sum.inl.inj h)

theorem goOn_ne {x : Except Corruption Moment} {content : Bytes} : goOn x ≠ .inr (.ok content) := by
  intro h
  cases x with
  | error e => cases h
  | ok m => cases h

end Moment

/-- The moments of reading a frame. -/
inductive Reached (src : Bytes) : Moment → Prop
  | start {contentSize pos : Nat} (h : Frame.readHeader src 0 = .ok contentSize pos) :
      Reached src (.start contentSize pos)
  | step {m m' : Moment} (h : Reached src m) (hnext : m.next src = .inl m') : Reached src m'

/-- Going on from a moment to the next one ends with the result. -/
inductive Runs (src : Bytes) : Moment → Except Corruption Bytes → Prop
  | done {m : Moment} {result : Except Corruption Bytes} (h : m.next src = .inr result) : Runs src m result
  | next {m m' : Moment} {result : Except Corruption Bytes} (h : m.next src = .inl m')
      (rest : Runs src m' result) : Runs src m result

/-- The moment `n` steps after this one, if reading goes on for so long. -/
def Moment.walk (src : Bytes) : Nat → Moment → Option Moment
  | 0, m => some m
  | n + 1, m =>
    match m.next src with
    | .inl m' => m'.walk src n
    | .inr _ => none

theorem Reached.walk {src : Bytes} {n : Nat} {m m' : Moment} (h : Reached src m)
    (hwalk : m.walk src n = some m') : Reached src m' := by
  induction n generalizing m with
  | zero =>
    cases hwalk
    exact h
  | succ n ih =>
    rw [Moment.walk] at hwalk
    split at hwalk
    · rename_i m₁ hnext
      exact ih (h.step hnext) hwalk
    · cases hwalk

/-- Only behind the end mark there is a content, which is the output. -/
theorem Moment.eq_of_next {src content : Bytes} {m : Moment} (h : m.next src = .inr (.ok content)) :
    content = m.out.bytes := by
  unfold Moment.next at h
  split at h
  · split at h
    · split at h
      · have hclose := Sum.inr.inj h
        unfold Moment.close at hclose
        split at hclose
        · cases hclose
        · exact (Except.ok.inj hclose).symm
      · exact absurd h goOn_ne
    · cases h
  · exact absurd h goOn_ne
  · exact absurd h goOn_ne

/-! ## Runs -/

/-- A copy is one byte, and then the copy of the others. -/
theorem Output.exists_of_apply_copy {distance count : Nat} {out out' : Output}
    (h : apply (.copy (count + 1) distance) out = .ok () out') :
    ∃ out₁, apply (.copy 1 distance) out = .ok () out₁ ∧
      apply (.copy count distance) out₁ = .ok () out' := by
  cases out with | mk bytes blockEnd size_le =>
  simp only [apply, copy] at h
  split at h
  · rename_i hreach
    split at h
    · rename_i hfits
      cases h
      have hlt := Bytes.sub_lt_of_reach hreach
      have hroom : count ≤ blockEnd - (bytes.push bytes[bytes.size - distance]).size := by
        rw [Array.size_push]
        omega
      have hone : 1 ≤ blockEnd - bytes.size := by omega
      refine ⟨⟨bytes.push bytes[bytes.size - distance], blockEnd, ?_⟩, ?_, ?_⟩
      · rw [Array.size_push]
        omega
      · simp only [apply, copy, dif_pos hreach, dif_pos hone]
        rfl
      · simp only [apply, copy, dif_pos (Bytes.reach_push hreach _), dif_pos hroom]
        rfl
    · cases h
  · cases h

section

variable {src : Bytes} {contentSize spent : Nat} {result : Except Corruption Bytes}

/-- A copy is its bytes, one by one. -/
theorem runs_copying {b : OpenBlock} {distance count : Nat} {out out' : Output}
    (happly : Output.apply (.copy count distance) out = .ok () out')
    (rest : Runs src ⟨contentSize, spent, out', .token b⟩ result) :
    Runs src ⟨contentSize, spent, out, .copying b distance count⟩ result := by
  induction count generalizing out with
  | zero =>
    have hsame : out' = out := by
      cases out with | mk bytes blockEnd size_le =>
      simp only [Output.apply, Output.copy, Bytes.repeatBack] at happly
      split at happly
      · cases happly
        rfl
      · cases happly
    rw [hsame] at rest
    exact .next rfl rest
  | succ count ih =>
    obtain ⟨out₁, hfirst, hothers⟩ := Output.exists_of_apply_copy happly
    refine .next ?_ (ih hothers)
    unfold Moment.next
    dsimp only
    unfold Moment.copyByte
    dsimp only
    rw [hfirst]
    rfl

/-- What comes of a block, and then of what is behind it. -/
def afterBlock (after : Output → Except Corruption Bytes) :
    EStateM.Result Corruption Output Unit → Except Corruption Bytes
  | .error e _ => .error e
  | .ok _ out =>
    match out.endBlock with
    | .error e => .error e
    | .ok _ => after out

/-- The tokens of a block are read one by one, and behind them the block is closed. -/
theorem runs_token {after : Output → Except Corruption Bytes} {b : OpenBlock} {count : Nat}
    (hcount : b.done + count = b.header.tokenCount)
    (rest : ∀ spent out, Runs src ⟨contentSize, spent, out, .between b.behind⟩ (after out)) (out : Output) :
    Runs src ⟨contentSize, spent, out, .token b⟩
      (afterBlock after (Block.unpackTokens b.litLen b.dist count b.reader out)) := by
  induction count generalizing b out with
  | zero =>
    have hnext : Moment.next src ⟨contentSize, spent, out, .token b⟩ =
        Moment.goOn (Moment.closeBlock ⟨contentSize, spent, out, .token b⟩ b) :=
      congrArg Moment.goOn (if_pos hcount)
    unfold Block.unpackTokens
    unfold Moment.closeBlock at hnext
    cases hfinish : b.reader.finish with
    | error e =>
      rw [hfinish] at hnext
      exact .done hnext
    | ok _ =>
      rw [hfinish] at hnext
      have hclosed : Runs src ⟨contentSize, spent, out, .token b⟩ (afterBlock after (.ok () out)) := by
        simp only [afterBlock]
        cases hend : out.endBlock with
        | error e =>
          rw [hend] at hnext
          exact .done hnext
        | ok _ =>
          rw [hend] at hnext
          exact .next hnext (rest _ out)
      exact hclosed
  | succ count ih =>
    have hnext : Moment.next src ⟨contentSize, spent, out, .token b⟩ =
        Moment.goOn (Moment.readToken ⟨contentSize, spent, out, .token b⟩ b) :=
      congrArg Moment.goOn (if_neg (by omega))
    unfold Block.unpackTokens
    unfold Moment.readToken at hnext
    cases hread : Block.readToken b.litLen b.dist b.reader with
    | error e r =>
      rw [hread] at hnext
      exact .done hnext
    | ok t r =>
      rw [hread] at hnext
      simp only [Bind.bind, EStateM.bind] at hnext ⊢
      cases happly : Output.apply t out with
      | error e out₁ =>
        rw [happly] at hnext
        exact .done hnext
      | ok _ out₁ =>
        rw [happly] at hnext
        have hrest := @ih { b with reader := r, done := b.done + 1 }
          (by dsimp only; omega) rest out₁
        cases t with
        | literal byte => exact .next hnext hrest
        | copy length distance => exact .next hnext (runs_copying happly hrest)

/-- A block is its two code tables and its tokens. -/
theorem runs_block {after : Output → Except Corruption Bytes} {pos start : Nat} {header : BlockHeader}
    {out : Output}
    (hnext : Moment.next src ⟨contentSize, spent, out, .between pos⟩ =
      Moment.goOn (Moment.openBlock src ⟨contentSize, spent, out, .between pos⟩ pos))
    (hheader : BlockHeader.read src (contentSize - out.size) pos = .ok header start)
    (rest : ∀ spent out,
      Runs src ⟨contentSize, spent, out, .between (start + header.payloadSize)⟩ (after out)) :
    Runs src ⟨contentSize, spent, out, .between pos⟩
      (afterBlock after (Block.unpack (src.extract start (start + header.payloadSize)) header.tokenCount
        (out.beginBlock header.rawSize))) := by
  unfold Moment.openBlock at hnext
  rw [hheader] at hnext
  dsimp only at hnext
  unfold Block.unpack
  cases hlitLen : Huffman.Decoder.read litLenSymbols
    { data := src.extract start (start + header.payloadSize) } with
  | error e _ =>
    rw [hlitLen] at hnext
    exact .done hnext
  | ok litLen r =>
    rw [hlitLen] at hnext
    dsimp only at hnext ⊢
    cases hdist : Huffman.Decoder.read distSymbols r with
    | error e _ =>
      rw [hdist] at hnext
      exact .done hnext
    | ok dist r' =>
      rw [hdist] at hnext
      let b : OpenBlock := ⟨header, start + header.payloadSize, litLen, dist, r', 0⟩
      have hcount : b.done + header.tokenCount = b.header.tokenCount := Nat.zero_add _
      exact .next hnext (runs_token hcount rest (out.beginBlock header.rawSize))

/-- What is made of the blocks and of what follows the end mark. -/
def contentOf (src : Bytes) (contentSize : Nat) : Except Corruption (Nat × Bytes) → Except Corruption Bytes
  | .error e => .error e
  | .ok (pos, content) =>
    match Frame.checkEnd src contentSize pos content with
    | .error e => .error e
    | .ok _ => .ok content

theorem contentOf_readBlocks {pos start : Nat} {header : BlockHeader} {out : Output}
    (blocks : Array BlockHeader) (hpos : pos < src.size) (hne : src[pos] ≠ 0)
    (hheader : BlockHeader.read src (contentSize - out.bytes.size) pos = .ok header start) :
    contentOf src contentSize (Frame.readBlocks src contentSize pos out blocks).result =
      afterBlock (fun out => contentOf src contentSize (Frame.readBlocks src contentSize
          (start + header.payloadSize) out (blocks.push header)).result)
        (Block.unpack (src.extract start (start + header.payloadSize)) header.tokenCount
          (out.beginBlock header.rawSize)) := by
  rw [Frame.readBlocks_of_ne blocks hpos hne, hheader]
  dsimp only
  unfold afterBlock
  cases Block.unpack (src.extract start (start + header.payloadSize)) header.tokenCount
    (out.beginBlock header.rawSize) with
  | error e _ => rfl
  | ok _ out' =>
    dsimp only
    cases out'.endBlock with
    | error e => rfl
    | ok _ => rfl

/-- The blocks are read one by one, up to the end of the frame. -/
theorem runs_between (pos : Nat) (out : Output) (blocks : Array BlockHeader) :
    Runs src ⟨contentSize, spent, out, .between pos⟩
      (contentOf src contentSize (Frame.readBlocks src contentSize pos out blocks).result) := by
  -- the header of a block is not empty, so less of the source is left behind it
  induction hn : src.size - pos using Nat.strongRecOn generalizing pos spent out blocks with
  | ind n ih =>
    by_cases hpos : pos < src.size
    · by_cases hmark : src[pos] = 0
      · have hnext : Moment.next src ⟨contentSize, spent, out, .between pos⟩ =
            .inr (Moment.close src ⟨contentSize, spent, out, .between pos⟩ (pos + 1)) := by
          simp [Moment.next, hpos, hmark]
        rw [Frame.readBlocks, dif_pos hpos, if_pos hmark]
        exact .done hnext
      · have hnext : Moment.next src ⟨contentSize, spent, out, .between pos⟩ =
            Moment.goOn (Moment.openBlock src ⟨contentSize, spent, out, .between pos⟩ pos) := by
          simp [Moment.next, hpos, hmark]
        cases hheader : BlockHeader.read src (contentSize - out.bytes.size) pos with
        | error e _ =>
          rw [Frame.readBlocks_of_ne blocks hpos hmark, hheader]
          unfold Moment.openBlock at hnext
          have hsize : out.size = out.bytes.size := rfl
          rw [hsize, hheader] at hnext
          exact .done hnext
        | ok header start =>
          obtain ⟨hstart, hbehind⟩ := BlockHeader.read_pos hheader
          rw [contentOf_readBlocks blocks hpos hmark hheader]
          apply runs_block hnext hheader
          intro spent out
          exact ih _ (by omega) _ _ _ rfl
    · have hnext : Moment.next src ⟨contentSize, spent, out, .between pos⟩ = .inr (.error .truncated) := by
        simp [Moment.next, hpos]
      rw [Frame.readBlocks, dif_neg hpos]
      exact .done hnext

/-- Reading a frame is going from moment to moment, up to its result. -/
theorem runs_decompress {pos : Nat} (h : Frame.readHeader src 0 = .ok contentSize pos) :
    Runs src (.start contentSize pos) (decompress src) := by
  rw [decompress_eq, h]
  exact runs_between pos .empty #[]

end

end LzCodec
