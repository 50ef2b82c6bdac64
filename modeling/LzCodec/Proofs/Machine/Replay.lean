import LzCodec.Proofs.Expansion
import LzCodec.Proofs.Machine.Words

/-!
# Replay on machine words

A copy that overlaps its own output is made in passes, each of which doubles the part that repeats.
It never leaves the output, and what it appends is what a copy byte by byte does
(`Filling.copy_eq`): each byte is the one that stands `distance` before it (`copy_repeats`).
-/

namespace LzCodec

/-- The answer to a call, and the output that is left. -/
def Output.outcome : EStateM.Result Corruption Output Unit → Except Corruption Unit × Output
  | .ok _ out => (.ok (), out)
  | .error cause out => (.error cause, out)

namespace Machine

/-- Appends what stands from `start` up to `stop`. -/
def extendWithin (bytes : Bytes) (start stop : Nat) : Machine Bytes := do
  return bytes ++ (← slice bytes start stop)

/-- A copy of `length` bytes from `start` on. -/
structure Copy where
  start : Nat
  length : Nat

/-- Goes on with a copy of which `copied` bytes have been appended. -/
def Copy.passes (c : Copy) (copied : Nat) (bytes : Bytes) : Machine Bytes := do
  if copied < c.length then
    let chunk := min (← sub c.length copied) (← sub bytes.size c.start)
    let bytes ← extendWithin bytes c.start (← add 64 c.start chunk)
    c |>.passes (← add 64 copied chunk) bytes
  else
    return bytes
partial_fixpoint

structure Buffer where
  bytes : Bytes
  blockEnd : Nat

/-- A program that fills a buffer. It keeps the buffer where it refuses something. -/
abbrev Filling := ExceptT Corruption (StateT Buffer Machine)

namespace Filling

/-- No more is set aside for a block than this, however large it is said to be. -/
def blockReserve : Nat := 16777216

def beginBlock (size : Nat) : Filling Unit := do
  let b ← get
  let stop ← add 64 b.bytes.size size
  request (min size blockReserve)
  set (⟨b.bytes, stop⟩ : Buffer)

def endBlock : Filling Unit := do
  let b ← get
  if b.bytes.size ≠ b.blockEnd then
    throw .blockSizeMismatch

def literal (byte : UInt8) : Filling Unit := do
  let b ← get
  if b.blockEnd ≤ b.bytes.size then
    throw .lengthOverrun
  else
    set (⟨b.bytes.push byte, b.blockEnd⟩ : Buffer)

def copy (distance length : Nat) : Filling Unit := do
  let b ← get
  if distance = 0 ∨ b.bytes.size < distance then
    throw (.distanceTooFar distance b.bytes.size)
  else if (← sub b.blockEnd b.bytes.size) < length then
    throw .lengthOverrun
  else
    let start ← sub b.bytes.size distance
    if length ≤ distance then
      set (⟨← extendWithin b.bytes start (← add 64 start length), b.blockEnd⟩ : Buffer)
    else
      set (⟨← Copy.passes ⟨start, length⟩ 0 b.bytes, b.blockEnd⟩ : Buffer)

def apply : Token → Filling Unit
  | .literal byte => literal byte
  | .copy length distance => copy distance length

/-- Ends with the refusal. -/
def orStop (m : Filling Unit) (b : Buffer) : Machine Buffer := do
  match ← m b with
  | (.ok _, b) => return b
  | (.error cause, _) => corrupt cause

end Filling

namespace Buffer

/-- An empty buffer, with memory for `size` bytes. -/
def withCapacity (size : Nat) : Machine Buffer := do
  request size
  return ⟨#[], 0⟩

def beginBlock (b : Buffer) (size : Nat) : Machine Buffer := (Filling.beginBlock size).orStop b

def endBlock (b : Buffer) : Machine Buffer := Filling.endBlock.orStop b

def copy (b : Buffer) (distance length : Nat) : Machine Buffer := (Filling.copy distance length).orStop b

def apply (b : Buffer) (t : Token) : Machine Buffer := (Filling.apply t).orStop b

def of (out : Output) : Buffer := ⟨out.bytes, out.blockEnd⟩

@[simp] theorem of_mk {bytes : Bytes} {blockEnd : Nat} (h : bytes.size ≤ blockEnd) :
    of ⟨bytes, blockEnd, h⟩ = ⟨bytes, blockEnd⟩ :=
  rfl

/-- The same bytes and the same end of the block, which fits into a word. -/
structure Holds (b : Buffer) (out : Output) : Prop where
  bytes : b.bytes = out.bytes
  blockEnd : b.blockEnd = out.blockEnd
  small : out.blockEnd < 2 ^ 64

end Buffer

theorem getElem?_extend_copy {bytes : List UInt8} {distance count i : Nat} (h : 0 < distance)
    (hle : distance ≤ bytes.length) (hi : i < distance + count) :
    (Token.extend bytes (.copy count distance))[bytes.length - distance + i]? =
      bytes[bytes.length - distance + i % distance]? := by
  have hmod := Nat.mod_lt i h
  unfold Token.extend
  dsimp only
  by_cases hold : i < distance
  · rw [List.getElem?_append_left (by omega), Nat.mod_eq_of_lt hold]
  · have hnew : bytes.length - distance + i - bytes.length = i - distance := by omega
    have hback : (i - distance) % distance = i % distance := by
      rw [← Nat.mod_eq_sub_mod (Nat.le_of_not_lt hold)]
    rw [List.getElem?_append_right (by omega), hnew, List.getElem?_map,
      List.getElem?_range (by omega), Option.map_some, hback, List.getD_eq_getElem?_getD,
      List.getElem?_eq_getElem (by omega), Option.getD_some]

/-- A copy can be made in two parts: after a whole number of rounds, what follows is a copy of what stands
from the start on. -/
theorem extend_copy_add (bytes : List UInt8) {distance copied chunk : Nat} (h : 0 < distance)
    (hle : distance ≤ bytes.length) (hround : distance ∣ copied) (hchunk : chunk ≤ distance + copied) :
    Token.extend bytes (.copy copied distance) ++
        ((Token.extend bytes (.copy copied distance)).drop (bytes.length - distance)).take chunk =
      Token.extend bytes (.copy (copied + chunk) distance) := by
  have hlen := Token.length_extend bytes (.copy copied distance)
  have hlen' := Token.length_extend bytes (.copy (copied + chunk) distance)
  simp only [Token.size] at hlen hlen'
  apply List.ext_getElem?
  intro i
  by_cases hbefore : i < bytes.length + copied
  · rw [List.getElem?_append_left (by omega)]
    by_cases hold : i < bytes.length
    · unfold Token.extend
      rw [List.getElem?_append_left hold, List.getElem?_append_left hold]
    · have hi : i = bytes.length - distance + (i - (bytes.length - distance)) := by omega
      rw [hi, getElem?_extend_copy h hle (by omega), getElem?_extend_copy h hle (by omega)]
  · by_cases hnew : i < bytes.length + copied + chunk
    · have hi : i = bytes.length - distance + (distance + copied + (i - (bytes.length + copied))) := by
        omega
      have hround' : (distance + copied + (i - (bytes.length + copied))) % distance =
          (i - (bytes.length + copied)) % distance := by
        obtain ⟨rounds, rfl⟩ := hround
        rw [Nat.add_assoc, Nat.add_mod_left, Nat.mul_add_mod]
      have hright : (Token.extend bytes (.copy (copied + chunk) distance))[i]? =
          bytes[bytes.length - distance + (i - (bytes.length + copied)) % distance]? := by
        rw [hi, getElem?_extend_copy h hle (by omega), ← hi, hround']
      rw [hright, List.getElem?_append_right (by omega), hlen, List.getElem?_take_of_lt (by omega),
        List.getElem?_drop, getElem?_extend_copy h hle (by omega)]
    · rw [List.getElem?_eq_none (by
          rw [List.length_append, List.length_take, List.length_drop, hlen]
          omega),
        List.getElem?_eq_none (by omega)]

theorem extendWithin_eq {bytes : Bytes} (start count : Nat) (h : start + count ≤ bytes.size) :
    ∃ bytes', extendWithin bytes start (start + count) = pure bytes' ∧
      bytes'.toList = bytes.toList ++ (bytes.toList.drop start).take count := by
  refine ⟨bytes ++ bytes.extract start (start + count), ?_, ?_⟩
  · rw [extendWithin, slice_of_le (Nat.le_add_right _ _) h, pure_bind]
  · rw [Array.toList_append, Array.toList_extract, List.extract_eq_take_drop,
      Nat.add_sub_cancel_left]

/-- A copy that ends before the output did can be made at once. -/
theorem extendWithin_eq_repeatBack {bytes : Bytes} {distance length : Nat}
    (h : 0 < distance ∧ distance ≤ bytes.size) (honce : length ≤ distance) :
    extendWithin bytes (bytes.size - distance) (bytes.size - distance + length) =
      pure (bytes.repeatBack distance h length) := by
  obtain ⟨bytes', hrun, hlist⟩ := extendWithin_eq (bytes.size - distance) length
    (show bytes.size - distance + length ≤ bytes.size by omega)
  have hzero : Token.extend bytes.toList (.copy 0 distance) = bytes.toList := by
    simp [Token.extend]
  have hsplit := extend_copy_add bytes.toList h.1
    (by rw [Array.length_toList]; exact h.2) (Nat.dvd_zero distance)
    (show length ≤ distance + 0 by omega)
  rw [hzero, Nat.zero_add, Array.length_toList, ← hlist, ← Bytes.toList_repeatBack _ _ h] at hsplit
  rw [hrun, Array.toList_inj.1 hsplit]

/-- The passes end, stay within the output and append a copy of `length` bytes. Each pass but the last
appends a whole number of rounds. -/
theorem passes_eq {bytes : Bytes} {distance length copied : Nat}
    (h : 0 < distance ∧ distance ≤ bytes.size) (small : bytes.size + length < 2 ^ 64)
    {current : Bytes} (hcopied : copied ≤ length) (hround : distance ∣ copied ∨ copied = length)
    (hcurrent : current.toList = Token.extend bytes.toList (.copy copied distance)) :
    Copy.passes ⟨bytes.size - distance, length⟩ copied current =
      pure (bytes.repeatBack distance h length) := by
  induction hn : length - copied using Nat.strongRecOn generalizing copied current with
  | ind n ih =>
    have hsize : current.size = bytes.size + copied := by
      rw [← Array.length_toList, hcurrent, Token.length_extend, Array.length_toList, Token.size]
    by_cases hmore : copied < length
    · have hround := hround.resolve_right (Nat.ne_of_lt hmore)
      have hroom : current.size - (bytes.size - distance) = distance + copied := by omega
      generalize hchunk : min (length - copied) (distance + copied) = chunk
      obtain ⟨bytes', hrun, hbytes'⟩ := extendWithin_eq (bytes.size - distance) chunk
        (show bytes.size - distance + chunk ≤ current.size by omega)
      have hlist : bytes'.toList = Token.extend bytes.toList (.copy (copied + chunk) distance) := by
        have hsplit := extend_copy_add bytes.toList h.1
          (by rw [Array.length_toList]; exact h.2) hround (show chunk ≤ distance + copied by omega)
        rw [Array.length_toList] at hsplit
        rw [hbytes', hcurrent, hsplit]
      have hnext : distance ∣ copied + chunk ∨ copied + chunk = length := by
        by_cases hlast : length - copied ≤ distance + copied
        · exact .inr (by omega)
        · refine .inl ?_
          have hfull : chunk = distance + copied := by omega
          rw [hfull]
          exact Nat.dvd_add hround (Nat.dvd_add (Nat.dvd_refl _) hround)
      rw [Copy.passes, if_pos hmore, sub_of_le (Nat.le_of_lt hmore), pure_bind]
      dsimp only
      rw [sub_of_le (by omega), pure_bind, hroom]
      rw [hchunk, add_of_lt (by omega), pure_bind, hrun, pure_bind, add_of_lt (by omega), pure_bind]
      exact ih _ (by omega) (by omega) hnext hlist rfl
    · obtain rfl : copied = length := by omega
      rw [Copy.passes, if_neg hmore]
      congr 1
      apply Array.toList_inj.1
      rw [hcurrent, Bytes.toList_repeatBack]

/-- From the start on, the passes make the whole copy. -/
theorem passes_eq_repeatBack {bytes : Bytes} {distance length : Nat}
    (h : 0 < distance ∧ distance ≤ bytes.size) (small : bytes.size + length < 2 ^ 64) :
    Copy.passes ⟨bytes.size - distance, length⟩ 0 bytes = pure (bytes.repeatBack distance h length) :=
  passes_eq h small (Nat.zero_le _) (.inl (Nat.dvd_zero _)) (by simp [Token.extend])

/-! ## Programs that fill a buffer -/

namespace Filling

theorem get_bind {α : Type} (f : Buffer → Filling α) (b : Buffer) :
    (get >>= f : Filling α) b = f b b :=
  rfl

theorem run_lift {α β : Type} (m : Machine α) (f : α → Filling β) (b : Buffer) :
    (monadLift m >>= f : Filling β) b = m >>= fun a => f a b := by
  cases m with
  | none => rfl
  | some found => cases found <;> rfl

theorem beginBlock_eq {out : Output} {size : Nat} (fits : out.bytes.size + size < 2 ^ 64) :
    beginBlock size (.of out) = pure (.ok (), .of (out.beginBlock size)) := by
  have hrequest : request (min size blockReserve) = pure () :=
    request_of_lt (Nat.lt_of_le_of_lt (Nat.min_le_right _ _) (by decide))
  rw [beginBlock, get_bind, run_lift, Buffer.of, add_of_lt fits, pure_bind, run_lift, hrequest]
  rfl

theorem endBlock_eq (out : Output) : endBlock (.of out) = pure (out.endBlock, .of out) := by
  cases out with | mk bytes blockEnd size_le =>
  rw [endBlock, Output.endBlock, Buffer.of_mk, get_bind]
  by_cases hfull : bytes.size = blockEnd
  · rw [if_pos hfull, if_neg (not_not_intro hfull)]
    rfl
  · rw [if_neg hfull, if_pos hfull]
    rfl

theorem literal_eq (byte : UInt8) (out : Output) :
    literal byte (.of out) = pure ((Output.outcome (Output.literal byte out)).map id .of) := by
  cases out with | mk bytes blockEnd size_le =>
  rw [literal, Output.literal, Buffer.of_mk, get_bind]
  by_cases hroom : bytes.size < blockEnd
  · rw [dif_pos hroom, if_neg (Nat.not_le_of_lt hroom)]
    rfl
  · rw [dif_neg hroom, if_pos (Nat.le_of_not_lt hroom)]
    rfl

/-- A copy never leaves the output, and ends with the bytes of a copy byte by byte. -/
theorem copy_eq {out : Output} (small : out.blockEnd < 2 ^ 64) (distance length : Nat) :
    copy distance length (.of out) =
      pure ((Output.outcome (Output.copy distance length out)).map id .of) := by
  cases out with | mk bytes blockEnd size_le =>
  rw [copy, Output.copy, Buffer.of_mk, get_bind]
  by_cases hreach : 0 < distance ∧ distance ≤ bytes.size
  · have hfar : ¬ (distance = 0 ∨ bytes.size < distance) := by omega
    rw [dif_pos hreach, if_neg hfar, run_lift, sub_of_le size_le, pure_bind]
    by_cases hfits : length ≤ blockEnd - bytes.size
    · rw [dif_pos hfits, if_neg (Nat.not_lt_of_le hfits), run_lift, sub_of_le hreach.2, pure_bind]
      have hroom : bytes.size + length < 2 ^ 64 := by
        dsimp only at small
        omega
      by_cases honce : length ≤ distance
      · rw [if_pos honce, run_lift, add_of_lt (by omega), pure_bind, run_lift,
          extendWithin_eq_repeatBack hreach honce]
        rfl
      · rw [if_neg honce, run_lift, passes_eq_repeatBack hreach hroom]
        rfl
    · rw [dif_neg hfits, if_pos (Nat.lt_of_not_le hfits)]
      rfl
  · have hfar : distance = 0 ∨ bytes.size < distance := by omega
    rw [dif_neg hreach, if_pos hfar]
    rfl

/-- Without a fault, a token does to a buffer what it does to an output. -/
theorem apply_eq {out : Output} (small : out.blockEnd < 2 ^ 64) (t : Token) :
    apply t (.of out) = pure ((Output.outcome (Output.apply t out)).map id .of) := by
  cases t with
  | literal byte => exact literal_eq byte out
  | copy length distance => exact copy_eq small distance length

end Filling

theorem Buffer.withCapacity_of_lt {size : Nat} (h : size < 2 ^ maxArrayLog) :
    withCapacity size = pure ⟨#[], 0⟩ := by
  rw [withCapacity, request_of_lt h, pure_bind]

namespace Buffer.Holds

variable {b : Buffer} {out : Output}

theorem eq (h : b.Holds out) : b = .of out :=
  congr (congrArg Buffer.mk h.bytes) h.blockEnd

theorem beginBlock (h : b.Holds out) {size : Nat} (hsize : out.bytes.size + size < 2 ^ 64) :
    ∃ b', b.beginBlock size = pure b' ∧ b'.Holds (out.beginBlock size) := by
  refine ⟨.of (out.beginBlock size), ?_, rfl, rfl, hsize⟩
  rw [h.eq, Buffer.beginBlock, Filling.orStop, Filling.beginBlock_eq hsize, pure_bind]

theorem endBlock (h : b.Holds out) :
    b.endBlock = match out.endBlock with
      | .ok _ => pure b
      | .error cause => corrupt cause := by
  rw [h.eq, Buffer.endBlock, Filling.orStop, Filling.endBlock_eq, pure_bind]
  cases out.endBlock <;> rfl

theorem apply (h : b.Holds out) (t : Token) :
    match Output.apply t out with
    | .ok _ out' => ∃ b', b.apply t = pure b' ∧ b'.Holds out'
    | .error cause _ => b.apply t = corrupt cause := by
  have hrun := Filling.apply_eq h.small t
  rw [h.eq, Buffer.apply, Filling.orStop]
  cases happly : Output.apply t out with
  | ok _ out' =>
    have hsmall : out'.blockEnd < 2 ^ 64 := (Output.extend_of_apply happly).2 ▸ h.small
    rw [happly] at hrun
    exact ⟨.of out', by rw [hrun]; rfl, rfl, rfl, hsmall⟩
  | error cause out' =>
    rw [happly] at hrun
    rw [hrun]
    rfl

end Buffer.Holds

section
variable {bytes : Bytes} {distance count i : Nat} (h : 0 < distance ∧ distance ≤ bytes.size)
include h

theorem getElem?_repeatBack_of_lt (hi : i < bytes.size) :
    (bytes.repeatBack distance h count)[i]? = bytes[i]? := by
  rw [← Array.getElem?_toList, Bytes.toList_repeatBack, ← Array.getElem?_toList, Token.extend,
    List.getElem?_append_left (by rwa [Array.length_toList])]

/-- What is copied stands in phase with what it is copied from. -/
theorem getElem?_repeatBack_add (hi : i < count) :
    (bytes.repeatBack distance h count)[bytes.size + i]? =
      (bytes.repeatBack distance h count)[bytes.size + i - distance]? := by
  have hle : distance ≤ bytes.toList.length := by
    rw [Array.length_toList]
    exact h.2
  have hnew := getElem?_extend_copy h.1 hle (show distance + i < distance + count by omega)
  have hold := getElem?_extend_copy h.1 hle (show i < distance + count by omega)
  rw [Nat.add_mod_left, ← hold, Array.length_toList] at hnew
  have hstart : bytes.size + i = bytes.size - distance + (distance + i) := by omega
  have hback : bytes.size + i - distance = bytes.size - distance + i := by omega
  rw [hback, hstart, ← Array.getElem?_toList, ← Array.getElem?_toList, Bytes.toList_repeatBack, hnew]

end

/-- **An overlapping copy repeats what is behind it.** A copy that starts within the output and fits into the
block is made: nothing before it changes, and each byte it appends is the one that stands `distance` before it.
On words, where the part that repeats is doubled in each pass, the copy ends without a fault, with the bytes
that a copy byte after byte appends. -/
theorem copy_repeats {out : Output} {distance length : Nat} (hpos : 1 ≤ distance)
    (hreach : distance ≤ out.bytes.size) (hroom : length ≤ out.blockEnd - out.bytes.size) :
    ∃ out', Output.copy distance length out = .ok () out' ∧ out'.blockEnd = out.blockEnd ∧
      out'.bytes.size = out.bytes.size + length ∧
      (∀ i < out.bytes.size, out'.bytes[i]? = out.bytes[i]?) ∧
      (∀ i < length, out'.bytes[out.bytes.size + i]? = out'.bytes[out.bytes.size + i - distance]?) ∧
      out'.bytes = out.bytes.repeatBack distance ⟨hpos, hreach⟩ length ∧
      ∀ b : Buffer, b.Holds out → b.copy distance length = pure ⟨out'.bytes, out'.blockEnd⟩ := by
  cases out with | mk bytes blockEnd size_le =>
  dsimp only at hreach hroom
  have hd : 0 < distance ∧ distance ≤ bytes.size := ⟨hpos, hreach⟩
  have hrun : Output.copy distance length ⟨bytes, blockEnd, size_le⟩ =
      .ok () ⟨bytes.repeatBack distance hd length, blockEnd, by rw [Bytes.size_repeatBack]; omega⟩ := by
    simp only [Output.copy, dif_pos hd, dif_pos hroom]
  refine ⟨_, hrun, rfl, Bytes.size_repeatBack _ _ _ _, fun i hi => getElem?_repeatBack_of_lt hd hi,
    fun i hi => getElem?_repeatBack_add hd hi, rfl, ?_⟩
  intro b hb
  have hwords := Filling.copy_eq hb.small distance length
  rw [hrun] at hwords
  rw [hb.eq, Buffer.copy, Filling.orStop, hwords]
  rfl

/-- Seven bytes from two back, in three passes of two, four and one. -/
theorem copy_repeats_partial :
    let out : Output := ⟨#[120, 97, 98], 11, by decide⟩
    1 ≤ 2 ∧ 2 ≤ out.bytes.size ∧ 7 ≤ out.blockEnd - out.bytes.size ∧
      (⟨#[120, 97, 98], 11⟩ : Buffer).Holds out ∧
      Buffer.copy ⟨#[120, 97, 98], 11⟩ 2 7 =
        pure ⟨#[120, 97, 98, 97, 98, 97, 98, 97, 98, 97], 11⟩ := by
  intro out
  have hout : (⟨#[120, 97, 98], 11⟩ : Buffer).Holds out := ⟨rfl, rfl, by decide⟩
  obtain ⟨out', -, hend, -, -, -, hbytes, hwords⟩ :=
    @copy_repeats out 2 7 (by decide) (by decide) (by decide)
  have hcopy := hwords _ hout
  rw [hbytes, hend] at hcopy
  exact ⟨by decide, by decide, by decide, hout, hcopy⟩

end Machine

end LzCodec
