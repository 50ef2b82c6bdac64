import LzCodec.Proofs.Bits.Cursor
import LzCodec.Proofs.Machine.Reader
import LzCodec.Proofs.Machine.Writer

/-!
# Bit strings on machine words

Whatever is written and read, and in whatever order, words do what lists of bits do
(`bits_refine_lists`). A reader that fails may be asked on, and so it is written out here with the word
that it holds after a failure. Where a failure ends the run, nothing else is different
(`orStop_tryGroups`).
-/

namespace LzCodec

namespace Machine

open BitString BitReader

namespace Writer

def append (w : Writer) : BitWrite → Machine Writer
  | .put value count => w.put value count
  | .varint value => w.putVarint value

def written (writes : List BitWrite) : Machine Bytes := do
  (← writes.foldlM append {}).finish

theorem append_eq {write : BitWrite} (fits : write.Fits) (w : BitWriter) :
    (of w).append write = pure (of (w.append write)) := by
  cases write with
  | put value count => exact put_eq fits w value
  | varint value => exact putVarint_eq w value

theorem foldlM_append {writes : List BitWrite} (fits : ∀ write ∈ writes, write.Fits) (w : BitWriter) :
    writes.foldlM append (of w) = pure (of (writes.foldl BitWriter.append w)) := by
  induction writes generalizing w with
  | nil => rfl
  | cons write rest ih =>
    obtain ⟨hwrite, hrest⟩ := List.forall_mem_cons.1 fits
    rw [List.foldlM_cons, append_eq hwrite, pure_bind, ih hrest, List.foldl_cons]

theorem written_eq {writes : List BitWrite} (fits : ∀ write ∈ writes, write.Fits) :
    written writes = pure (BitWriter.written {} writes) := by
  have hrun := foldlM_append fits {}
  have hstart : of {} = {} := rfl
  rw [hstart] at hrun
  rw [written, hrun, pure_bind, finish_eq, BitWriter.written]

end Writer

/-! ## Readers -/

namespace Reader

def ask : BitRequest → Parser BitAnswer
  | .peek count => return .ok (some (← peek count))
  | .skip count => return (← (attempt (skip count)).run).map fun _ => none
  | .get count => return (← (tryBits count).run).map some
  | .varint => return (← (tryGroups 0 0 maxVarintGroups).run).map some

/-- Asks for one after the other. -/
def askAll : List BitRequest → Parser (List BitAnswer)
  | [] => return []
  | q :: rest => return (← ask q) :: (← askAll rest)

variable {s : Reader} {r : BitReader}

/-- What an attempt ends with is an answer, and the reader is kept. -/
theorem Holds.answer {α : Type} {P : α → Prop} {x : Attempt α} {p : BitParser α} (hs : s.Holds r)
    (h : Follows P x p) (f : α → Option Nat) :
    ∃ s', (do return (← x.run).map f : Parser BitAnswer) s = pure ((outcome f (p r)).1, s') ∧
      s'.Holds (outcome f (p r)).2 := by
  have h := h s r hs
  cases hp : p r with
  | error cause r' =>
    rw [hp] at h
    obtain ⟨s', hrun, hs'⟩ := h
    exact ⟨s', run_bind hrun _, hs'⟩
  | ok a r' =>
    rw [hp] at h
    obtain ⟨s', hrun, -, hs'⟩ := h
    exact ⟨s', run_bind hrun _, hs'⟩

theorem Holds.ask (hs : s.Holds r) {q : BitRequest} (fits : q.Fits) :
    ∃ s', Reader.ask q s = pure ((BitReader.ask q r).1, s') ∧ s'.Holds (BitReader.ask q r).2 := by
  cases q with
  | peek count =>
    obtain ⟨s', hrun, hs'⟩ := hs.peek fits
    exact ⟨s', run_bind hrun _, hs'⟩
  | skip count => exact hs.answer (follows_skip (Nat.le_trans fits (by decide))) _
  | get count => exact hs.answer (follows_tryBits fits) _
  | varint => exact hs.answer (follows_tryGroups (Nat.le_refl _) (by decide)) _

/-- The reader on words and the one on positions answer alike from the same bit on. -/
theorem Holds.askAll {requests : List BitRequest} (hs : s.Holds r) (fits : ∀ q ∈ requests, q.Fits) :
    ∃ s', Reader.askAll requests s = pure ((BitRequest.runAll BitReader.ask requests r).1, s') ∧
      s'.Holds (BitRequest.runAll BitReader.ask requests r).2 := by
  induction requests generalizing s r with
  | nil => exact ⟨s, rfl, hs⟩
  | cons q rest ih =>
    obtain ⟨hq, hrest⟩ := List.forall_mem_cons.1 fits
    obtain ⟨s₁, hask, hs₁⟩ := hs.ask hq
    obtain ⟨s', hall, hs'⟩ := ih hs₁ hrest
    exact ⟨s', (run_bind hask _).trans (run_bind hall _), hs'⟩

theorem Holds.finish_run (hs : s.Holds r) : Machine.finish.run' s = ofExcept r.finish := by
  have h := hs.finish
  cases hend : r.finish with
  | error cause =>
    rw [hend] at h
    exact congrArg (Prod.fst <$> ·) h
  | ok _ =>
    rw [hend] at h
    obtain ⟨s', hrun⟩ := h
    exact congrArg (Prod.fst <$> ·) hrun

end Reader

/-- Asking a reader from the first bit of its data on is asking a cursor there. -/
theorem exists_askAll_start {requests : List BitRequest} {data : Bytes}
    (fits : ∀ q ∈ requests, q.Fits) (small : 8 * data.size < 2 ^ 64) :
    ∃ s, Reader.askAll requests { data } = pure ((BitRequest.answerAll requests data.bits).1, s) ∧
      s.remaining = pure (BitRequest.answerAll requests data.bits).2.length ∧
      Machine.finish.run' s = ofExcept (BitString.finish (BitRequest.answerAll requests data.bits).2) := by
  obtain ⟨s, hrun, hs⟩ := (Reader.holds_start small).askAll fits
  obtain ⟨hanswers, hrest⟩ := runAll_ask requests { data }
  have hstart : BitReader.rest { data } = data.bits := rfl
  rw [hstart] at hanswers hrest
  refine ⟨s, ?_, ?_, ?_⟩
  · rw [hrun, hanswers]
  · rw [hs.remaining, ← length_rest, hrest]
  · rw [hs.finish_run, finish_eq, hrest]

/-- Writes append the low bits of their values, or groups of two bits, to a list that is padded with zeros to
a whole byte. Requests are answered as by a cursor in the bits of the data and the zeros behind them: only
what is left can be consumed, and where less is left, nothing is. A number has no end if all the groups that
are allowed are open. What was written is read back by the same widths, and nothing is left over. -/
theorem bits_refine_lists {writes : List BitWrite} {requests : List BitRequest} {data : Bytes}
    (hwrites : ∀ w ∈ writes, w.Fits) (hrequests : ∀ q ∈ requests, q.Fits)
    (small : 8 * data.size < 2 ^ 64) :
    (Writer.written writes = pure (BitWriter.written {} writes) ∧
      (BitWriter.written {} writes).bits = padded (writes.flatMap BitWrite.bits)) ∧
    (∃ answers rest, BitRequest.answerAll requests data.bits = (answers, rest) ∧
      (∃ s, Reader.askAll requests { data } = pure (answers, s) ∧ s.remaining = pure rest.length ∧
        Machine.finish.run' s = ofExcept (BitString.finish rest)) ∧
      ∃ r, BitRequest.runAll BitReader.ask requests { data } = (answers, r) ∧ r.rest = rest ∧
        r.finish = BitString.finish rest) ∧
    (∀ count bits, ∀ q ∈ [BitRequest.skip count, .get count],
      ((q.answer bits).1 = .error .truncated ↔ bits.length < count) ∧
        (bits.length < count → (q.answer bits).2 = bits)) ∧
    (∀ bits, (BitRequest.varint.answer bits).1 = .error .varintOverflow ↔
      ∃ payload rest, payload.length = 32 ∧ bits = openGroups payload ++ rest) ∧
    (8 * (BitWriter.written {} writes).size < 2 ^ 64 →
      ∃ s, Reader.askAll (writes.map BitWrite.request) { data := BitWriter.written {} writes } =
          pure (writes.map fun w => .ok (some w.value), s) ∧
        Machine.finish.run' s = pure ()) := by
  refine ⟨⟨Writer.written_eq hwrites, BitWriter.bits_written writes⟩, ⟨_, _, rfl, ?_, ?_⟩, ?_, ?_, ?_⟩
  · exact exists_askAll_start hrequests small
  · obtain ⟨hanswers, hrest⟩ := runAll_ask requests { data }
    exact ⟨_, Prod.ext hanswers rfl, hrest, by rw [finish_eq, hrest]; rfl⟩
  · exact fun count bits q hq => BitRequest.truncated_iff hq bits
  · intro bits
    exact map_eq_error_iff.trans takeGroups_overflow_iff
  · intro hsize
    have fits : ∀ q ∈ writes.map BitWrite.request, q.Fits :=
      List.forall_mem_map.2 fun w hw => BitWrite.fits_request (hwrites w hw)
    obtain ⟨pad, hpad, hback⟩ := answerAll_bits_written hwrites
    obtain ⟨s, hrun, -, hend⟩ := exists_askAll_start fits hsize
    rw [hback] at hrun hend
    rw [BitString.finish_of_padding hpad] at hend
    exact ⟨s, hrun, hend⟩

/-- Mixed widths in front, and one byte from which more is asked than it has. -/
theorem bits_refine_lists_mixed :
    let writes := [BitWrite.put 5 3, .put 703710 20, .put 0 0, .put 4294967295 32, .varint 0, .varint 300]
    let requests := [BitRequest.peek 16, .get 9, .skip 3, .varint, .get 1]
    (∀ w ∈ writes, w.Fits) ∧ (∀ q ∈ requests, q.Fits) ∧
      Writer.written writes = pure #[181, 121, 189, 255, 255, 255, 254, 87, 221, 32] ∧
      (∃ s, Reader.askAll requests { data := #[255] } =
          pure ([.ok (some 65280), .error .truncated, .ok none, .error .truncated, .ok (some 1)], s) ∧
        Machine.finish.run' s = pure ()) ∧
      ∃ s, Reader.askAll (writes.map BitWrite.request) { data := BitWriter.written {} writes } =
          pure ([5, 703710, 0, 4294967295, 0, 300].map fun n => .ok (some n), s) ∧
        Machine.finish.run' s = pure () := by
  intro writes requests
  have hwrites : ∀ w ∈ writes, w.Fits := by decide
  have hrequests : ∀ q ∈ requests, q.Fits := by decide
  have hwritten : BitWriter.written {} writes = #[181, 121, 189, 255, 255, 255, 254, 87, 221, 32] := by
    decide +kernel
  have hcursor : BitRequest.answerAll requests (Bytes.bits #[255]) =
      ([.ok (some 65280), .error .truncated, .ok none, .error .truncated, .ok (some 1)], []) := rfl
  obtain ⟨⟨hrun, -⟩, ⟨answers, rest, hanswers, ⟨s, hask, -, hend⟩, -⟩, -, -, hback⟩ :=
    bits_refine_lists hwrites hrequests (show 8 * (#[255] : Bytes).size < 2 ^ 64 by decide)
  obtain ⟨rfl, rfl⟩ := Prod.mk.inj (hcursor.symm.trans hanswers)
  obtain ⟨s', hread, hend'⟩ := hback (by rw [hwritten]; decide)
  exact ⟨hwrites, hrequests, hrun.trans (congrArg pure hwritten), ⟨s, hask, hend⟩, s', hread, hend'⟩

end Machine

end LzCodec
