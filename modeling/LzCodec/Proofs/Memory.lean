import LzCodec.Foreign
import LzCodec.Proofs.FrameSizes
import LzCodec.Proofs.Streams

/-!
# Calls on memory

A call through the C interface that succeeds changes the front of the target memory, and no byte behind
it; a call that fails changes nothing (`Keeps`). What is encoded into memory can therefore be decoded
from its front (`run_keeps`).
-/

namespace LzCodec

namespace Foreign

/-- A call, whose configuration may be missing. -/
inductive Call where
  | encode (effort : Option Effort)
  | decode

/-- The bytes at the front of some memory are replaced. -/
structure Overwritten (out before after : Bytes) : Prop where
  size : after.size = before.size
  front : after.take out.size = out
  rest : ∀ i, out.size ≤ i → after[i]? = before[i]?

theorem overwritten_append {out before : Bytes} (h : out.size ≤ before.size) :
    Overwritten out before (out ++ before.drop out.size) where
  size := by
    rw [Array.size_append, Array.size_extract]
    omega
  front := Sink.take_append_self out _
  rest i hi := by
    rw [Array.getElem?_append_right hi, Array.getElem?_extract]
    split
    · rw [Nat.add_sub_cancel' hi]
    · exact (Array.getElem?_eq_none (by omega)).symm

namespace Call

variable {call : Call} {codec : Codec} {source target memory : Option Bytes} {src out before : Bytes}
  {room : Nat} {result : Option Sizes}

def run : Call → Option Bytes → Option Bytes → Nat → Option Sizes × Option Bytes
  | encode effort, source, target, room => encodeBuffer source target room effort
  | decode, source, target, room => decodeBuffer source target room

def codec? : Call → Option Codec
  | encode effort => effort.map Codec.encode
  | decode => some .decode

/-- Something that a call needs is missing. -/
def Incomplete (call : Call) (source target : Option Bytes) : Prop :=
  source = none ∨ target = none ∨ call.codec? = none

/-- Nothing that a call needs is missing. -/
structure Given (call : Call) (source target : Option Bytes) (codec : Codec) (src before : Bytes) :
    Prop where
  codec : call.codec? = some codec
  source : source = some src
  target : target = some before

theorem incomplete_or_given (call : Call) (source target : Option Bytes) :
    call.Incomplete source target ∨ ∃ codec src before, call.Given source target codec src before := by
  cases source with
  | none => exact .inl (.inl rfl)
  | some src =>
    cases target with
    | none => exact .inl (.inr (.inl rfl))
    | some before =>
      cases hcodec : call.codec? with
      | none => exact .inl (.inr (.inr hcodec))
      | some codec => exact .inr ⟨codec, src, before, hcodec, rfl, rfl⟩

theorem Incomplete.run_eq (h : call.Incomplete source target) :
    call.run source target room = (none, target) := by
  rcases h with rfl | rfl | hcodec
  · cases call <;> rfl
  · cases call <;> cases source <;> rfl
  · cases call with
    | encode effort =>
      cases Option.map_eq_none_iff.1 hcodec
      cases source <;> cases target <;> rfl
    | decode => cases hcodec

theorem Given.run_of_error (h : call.Given source target codec src before) {e : Corruption}
    (hout : codec.output src = .error e) : call.run source target room = (none, target) := by
  obtain ⟨hcodec, rfl, rfl⟩ := h
  cases call with
  | encode effort =>
    obtain ⟨effort, rfl, rfl⟩ := Option.map_eq_some_iff.1 hcodec
    cases hout
  | decode =>
    cases hcodec
    rw [Codec.output] at hout
    simp only [run, decodeBuffer, hout]

theorem Given.run_of_ok (h : call.Given source target codec src before)
    (hout : codec.output src = .ok out) :
    call.run source target room =
      ((copyOut src.size out before room).1, some (copyOut src.size out before room).2) := by
  obtain ⟨hcodec, rfl, rfl⟩ := h
  cases call with
  | encode effort =>
    obtain ⟨effort, rfl, rfl⟩ := Option.map_eq_some_iff.1 hcodec
    cases hout
    rfl
  | decode =>
    cases hcodec
    rw [Codec.output] at hout
    simp only [run, decodeBuffer, hout]

theorem Given.run_of_lt (h : call.Given source target codec src before)
    (hout : codec.output src = .ok out) (hroom : room < out.size) :
    call.run source target room = (none, target) := by
  rw [h.run_of_ok hout, copyOut, if_neg (Nat.not_le.2 hroom), h.target]

theorem Given.run_of_le (h : call.Given source target codec src before)
    (hout : codec.output src = .ok out) (hroom : out.size ≤ room) :
    call.run source target room =
      (some ⟨src.size, out.size⟩, some (out ++ before.drop out.size)) := by
  rw [h.run_of_ok hout, copyOut, if_pos hroom]

/-- Why a call has no result. -/
inductive Fails (call : Call) (source target : Option Bytes) (room : Nat) : Prop
  | incomplete (h : call.Incomplete source target)
  | corrupt {codec : Codec} {src before : Bytes} {e : Corruption}
      (h : call.Given source target codec src before) (hout : codec.output src = .error e)
  | large {codec : Codec} {src before out : Bytes} (h : call.Given source target codec src before)
      (hout : codec.output src = .ok out) (hroom : room < out.size)

theorem Fails.run_eq (h : call.Fails source target room) :
    call.run source target room = (none, target) := by
  cases h with
  | incomplete h => exact h.run_eq
  | corrupt h hout => exact h.run_of_error hout
  | large h hout hroom => exact h.run_of_lt hout hroom

theorem fails_or_fits (call : Call) (source target : Option Bytes) (room : Nat) :
    call.Fails source target room ∨ ∃ codec src before out,
      call.Given source target codec src before ∧ codec.output src = .ok out ∧ out.size ≤ room := by
  rcases call.incomplete_or_given source target with h | ⟨codec, src, before, h⟩
  · exact .inl (.incomplete h)
  · cases hout : codec.output src with
    | error e => exact .inl (.corrupt h hout)
    | ok out =>
      by_cases hroom : out.size ≤ room
      · exact .inr ⟨codec, src, before, out, h, hout, hroom⟩
      · exact .inl (.large h hout (Nat.not_le.1 hroom))

/-- How a call ends, and what it leaves in the memory. -/
structure Keeps (call : Call) (source target : Option Bytes) (room : Nat) (result : Option Sizes)
    (memory : Option Bytes) : Prop where
  none_iff : result = none ↔ call.Fails source target room
  none : result = none → memory = target
  some : ∀ sizes, result = some sizes →
    ∃ codec src before out after, call.Given source target codec src before ∧
      codec.output src = .ok out ∧ sizes = ⟨src.size, out.size⟩ ∧ memory = some after ∧
      Overwritten out before after

theorem keeps (hroom : ∀ before, target = some before → room ≤ before.size) :
    call.Keeps source target room (call.run source target room).1 (call.run source target room).2 := by
  rcases call.fails_or_fits source target room with h | ⟨codec, src, before, out, h, hout, hfit⟩
  · rw [h.run_eq]
    exact ⟨⟨fun _ => h, fun _ => rfl⟩, fun _ => rfl, nofun⟩
  · have hrun := h.run_of_le hout hfit
    refine ⟨⟨fun hnone => ?_, fun hfails => congrArg Prod.fst hfails.run_eq⟩, ?_, ?_⟩
    · rw [hrun] at hnone
      cases hnone
    · rw [hrun]
      exact nofun
    · rw [hrun]
      rintro sizes ⟨⟩
      exact ⟨codec, src, before, out, _, h, hout, rfl, rfl,
        overwritten_append (Nat.le_trans hfit (hroom before h.target))⟩

/-- What was encoded into memory is decoded from its front, wherever there is room for it. -/
theorem run_decode_of_encode {effort : Effort} {packed other : Bytes} {sizes : Sizes} {otherRoom : Nat}
    (hroom : ∀ before, target = some before → room ≤ before.size) (hsize : src.size < UInt64.size)
    (hrun : (encode (some effort)).run (some src) target room = (some sizes, some packed))
    (hfit : src.size ≤ otherRoom) (hother : otherRoom ≤ other.size) :
    ∃ restored, decode.run (some (packed.take sizes.target)) (some other) otherRoom =
        (some ⟨sizes.target, src.size⟩, some restored) ∧ Overwritten src other restored := by
  obtain ⟨codec, _, before, out, after, ⟨hcodec, hsource, -⟩, hout, rfl, hpacked, hafter⟩ :=
    (keeps hroom).some sizes (congrArg Prod.fst hrun)
  cases hcodec
  cases hsource
  cases hout
  cases (congrArg Prod.snd hrun).symm.trans hpacked
  have hgiven : decode.Given (some (compress src effort)) (some other) .decode (compress src effort) other :=
    ⟨rfl, rfl, rfl⟩
  rw [hafter.front]
  exact ⟨_, hgiven.run_of_le (decompress_compress_eq src effort checksum hsize) hfit,
    overwritten_append (Nat.le_trans hfit hother)⟩

/-- **A call that succeeds writes its output to the front of the memory and leaves the rest, a call that
fails leaves everything, and what was encoded can be decoded from where it was written.** -/
theorem run_keeps (call : Call) (source : Option Bytes)
    (hroom : ∀ before, target = some before → room ≤ before.size) :
    call.Keeps source target room (call.run source target room).1 (call.run source target room).2 ∧
      ∀ src effort sizes packed, source = some src → call = encode (some effort) →
        src.size < UInt64.size → call.run source target room = (some sizes, some packed) →
        ∀ other otherRoom, src.size ≤ otherRoom → otherRoom ≤ other.size →
          ∃ restored, decode.run (some (packed.take sizes.target)) (some other) otherRoom =
              (some ⟨sizes.target, src.size⟩, some restored) ∧ Overwritten src other restored := by
  refine ⟨keeps hroom, ?_⟩
  rintro src effort sizes packed rfl rfl hsize hrun other otherRoom hfit hother
  exact run_decode_of_encode hroom hsize hrun hfit hother

/-- A frame that may need all of the room but not the bytes behind it, and its content in more room than
it needs and in less. -/
theorem run_keeps_repeated :
    let src : Bytes := #[97, 98, 97, 98, 97, 98, 97, 98]
    let frame := compress src ⟨3, 2, 2⟩
    let memory : Bytes := Array.replicate 1065 0 ++ #[1, 2, 3]
    let other : Bytes := Array.replicate 8 0 ++ #[4, 5]
    (∀ before, some memory = some before → 1065 ≤ before.size) ∧
      (∃ packed restored,
        (encode (some ⟨3, 2, 2⟩)).run (some src) (some memory) 1065 =
          (some ⟨8, frame.size⟩, some packed) ∧
        Overwritten frame memory packed ∧ packed[1066]? = some 2 ∧
        decode.run (some (packed.take frame.size)) (some other) 9 =
          (some ⟨frame.size, 8⟩, some restored) ∧
        Overwritten src other restored ∧ restored[8]? = some 4) ∧
      (∀ before, some other = some before → 7 ≤ before.size) ∧
      decode.run (some frame) (some other) 7 = (none, some other) := by
  intro src frame memory other
  have hmemory : ∀ before, some memory = some before → 1065 ≤ before.size := by
    rintro _ ⟨⟩
    simp [memory]
  have hother : ∀ before, some other = some before → 7 ≤ before.size := by
    rintro _ ⟨⟩
    decide
  have hbound : compressBound src.size = 1065 := by decide
  have hfits : frame.size ≤ 1065 := hbound ▸ size_compress_le ⟨3, 2, 2⟩ (by decide)
  have hencode : (encode (some ⟨3, 2, 2⟩)).run (some src) (some memory) 1065 =
      (some ⟨8, frame.size⟩, some (frame ++ memory.drop frame.size)) :=
    Given.run_of_le ⟨rfl, rfl, rfl⟩ rfl hfits
  obtain ⟨hkeeps, hround⟩ := run_keeps (encode (some ⟨3, 2, 2⟩)) (some src) hmemory
  rw [hencode] at hkeeps
  obtain ⟨_, _, _, _, _, ⟨hcodec, hsource, hbefore⟩, hout, -, hafter, hwritten⟩ := hkeeps.some _ rfl
  cases hcodec
  cases hsource
  cases hbefore
  cases hout
  cases hafter
  have hbehind : memory[1066]? = some 2 := by simp [memory]
  obtain ⟨restored, hdecode, hrestored⟩ :=
    hround src ⟨3, 2, 2⟩ _ _ rfl rfl (by decide) hencode other 9 (by decide) (by decide)
  -- seven bytes are too few for the content
  have hlarge : decode.Fails (some frame) (some other) 7 :=
    .large ⟨rfl, rfl, rfl⟩ (decompress_compress_eq src ⟨3, 2, 2⟩ checksum (by decide)) (by decide)
  obtain ⟨hfails, -⟩ := run_keeps decode (some frame) hother
  refine ⟨hmemory, ⟨_, restored, hencode, hwritten, ?_, hdecode, hrestored, ?_⟩, hother,
    Prod.ext (hfails.none_iff.2 hlarge) (hfails.none (hfails.none_iff.2 hlarge))⟩
  · exact (hwritten.rest 1066 (Nat.le_trans hfits (by decide))).trans hbehind
  · exact hrestored.rest 8 (by decide)

end Call

end Foreign

end LzCodec
