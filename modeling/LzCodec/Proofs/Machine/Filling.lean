import LzCodec.Proofs.Machine.Reader
import LzCodec.Proofs.Machine.Replay

/-!
# Outputs that go on

An output may be used on after a refusal, and blocks may be begun midway. What each call does to it is one
`Output.Step`. On words the room that is left is a difference of unsigned numbers, which is safe as no run
leaves the block (`calls_keep_to_block`).
-/

namespace LzCodec

/-- What an output is told. -/
inductive OutputCall where
  | beginBlock (size : Nat)
  | literal (byte : UInt8)
  | copy (distance length : Nat)
  | apply (token : Token)
  | endBlock
  deriving DecidableEq, Repr

/-- The token that is to be added. -/
def OutputCall.token? : OutputCall → Option Token
  | literal byte => some (.literal byte)
  | copy distance length => some (.copy length distance)
  | apply t => some t
  | beginBlock _ => none
  | endBlock => none

namespace Output

/-- The answer to a call, and the output that is left. -/
def call (out : Output) : OutputCall → Except Corruption Unit × Output
  | .beginBlock size => (.ok (), out.beginBlock size)
  | .literal byte => outcome (literal byte out)
  | .copy distance length => outcome (copy distance length out)
  | .apply t => outcome (apply t out)
  | .endBlock => (out.endBlock, out)

/-- Makes one call after the other, also after a refusal. -/
def callAll : List OutputCall → Output → List (Except Corruption Unit) × Output
  | [], out => ([], out)
  | c :: rest, out =>
    let (answer, out) := call out c
    let (answers, out) := callAll rest out
    (answer :: answers, out)

/-- What a call may do to an output. Only a token that fits is added, and only the beginning of a block moves
its end. -/
inductive Step (out : Output) : OutputCall → Except Corruption Unit → Output → Prop
  | beginBlock (size : Nat) : Step out (.beginBlock size) (.ok ()) (out.beginBlock size)
  | add {c : OutputCall} {t : Token} {out' : Output} (token : c.token? = some t)
      (within : t.Within out.bytes.size) (fits : out.bytes.size + t.size ≤ out.blockEnd)
      (bytes : out'.bytes.toList = t.extend out.bytes.toList) (blockEnd : out'.blockEnd = out.blockEnd) :
      Step out c (.ok ()) out'
  | tooFar {c : OutputCall} {length distance : Nat} (token : c.token? = some (.copy length distance))
      (far : ¬ (Token.copy length distance).Within out.bytes.size) :
      Step out c (.error (.distanceTooFar distance out.bytes.size)) out
  | overrun {c : OutputCall} {t : Token} (token : c.token? = some t) (within : t.Within out.bytes.size)
      (full : out.blockEnd < out.bytes.size + t.size) : Step out c (.error .lengthOverrun) out
  | endBlock {answer : Except Corruption Unit} (checked : out.endBlock = answer) :
      Step out .endBlock answer out

theorem step_apply {c : OutputCall} {t : Token} (h : c.token? = some t) (out : Output) :
    Step out c (outcome (apply t out)).1 (outcome (apply t out)).2 := by
  obtain ⟨hwithin, hfits, out', hrun, hbytes, hend⟩ | ⟨hfar, length, distance, rfl, hrun⟩ |
    ⟨hwithin, hfull, hrun⟩ := apply_cases t out
  · rw [hrun]
    exact .add h hwithin hfits hbytes hend
  · rw [hrun]
    exact .tooFar h hfar
  · rw [hrun]
    exact .overrun h hwithin hfull

theorem step_call (out : Output) (c : OutputCall) : Step out c (out.call c).1 (out.call c).2 := by
  cases c with
  | beginBlock size => exact .beginBlock size
  | literal byte => exact step_apply (t := .literal byte) rfl out
  | copy distance length => exact step_apply (t := .copy length distance) rfl out
  | apply t => exact step_apply rfl out
  | endBlock => exact .endBlock rfl

namespace Step

variable {out out' : Output} {c : OutputCall} {answer : Except Corruption Unit}

theorem appends (h : Step out c answer out') : out.bytes.toList <+: out'.bytes.toList := by
  cases h with
  | add token within fits bytes blockEnd => exact bytes ▸ Token.prefix_extend _ _
  | beginBlock | tooFar | overrun | endBlock => exact List.prefix_refl _

theorem refused (h : Step out c answer out') {cause : Corruption} (failed : answer = .error cause) :
    out' = out := by
  cases h with
  | beginBlock | add => cases failed
  | tooFar | overrun | endBlock => rfl

theorem blockEnd_eq (h : Step out c answer out') (within : ∀ size, c ≠ .beginBlock size) :
    out'.blockEnd = out.blockEnd := by
  cases h with
  | beginBlock size => exact absurd rfl (within size)
  | add token within fits bytes blockEnd => exact blockEnd
  | tooFar | overrun | endBlock => rfl

variable {t : Token} (token : c.token? = some t)
include token

theorem ok_iff (h : Step out c answer out') :
    answer = .ok () ↔ t.Within out.bytes.size ∧ out.bytes.size + t.size ≤ out.blockEnd := by
  cases h with
  | beginBlock | endBlock => cases token
  | add token' within fits =>
    cases token'.symm.trans token
    exact iff_of_true rfl ⟨within, fits⟩
  | tooFar token' far =>
    cases token'.symm.trans token
    exact iff_of_false nofun fun h => far h.1
  | overrun token' within full =>
    cases token'.symm.trans token
    exact iff_of_false nofun fun h => Nat.not_le_of_lt full h.2

theorem added (h : Step out c answer out') (accepted : answer = .ok ()) :
    out'.bytes.toList = t.extend out.bytes.toList := by
  cases h with
  | beginBlock | endBlock => cases token
  | add token' within fits bytes =>
    cases token'.symm.trans token
    exact bytes
  | tooFar | overrun => cases accepted

theorem far (h : Step out c answer out') {length distance : Nat} (copy : t = .copy length distance)
    (far : ¬ t.Within out.bytes.size) : answer = .error (.distanceTooFar distance out.bytes.size) := by
  subst copy
  cases h with
  | beginBlock | endBlock => cases token
  | add token' within | overrun token' within =>
    cases token'.symm.trans token
    exact absurd within far
  | tooFar token' =>
    cases token'.symm.trans token
    rfl

theorem full (h : Step out c answer out') (within : t.Within out.bytes.size)
    (full : out.blockEnd < out.bytes.size + t.size) : answer = .error .lengthOverrun := by
  cases h with
  | beginBlock | endBlock => cases token
  | add token' _ fits =>
    cases token'.symm.trans token
    exact absurd fits (Nat.not_le_of_lt full)
  | tooFar token' far =>
    cases token'.symm.trans token
    exact absurd within far
  | overrun => rfl

end Step

end Output

/-- The end of a block that begins fits into a word. -/
def OutputCall.Fits (out : Output) : OutputCall → Prop
  | beginBlock size => out.bytes.size + size < 2 ^ 64
  | _ => True

/-- Each call fits where it is made. -/
def OutputCall.AllFit : List OutputCall → Output → Prop
  | [], _ => True
  | c :: rest, out => c.Fits out ∧ AllFit rest (out.call c).2

instance (out : Output) : (c : OutputCall) → Decidable (c.Fits out)
  | .beginBlock size => inferInstanceAs (Decidable (out.bytes.size + size < 2 ^ 64))
  | .literal _ | .copy _ _ | .apply _ | .endBlock => inferInstanceAs (Decidable True)

instance OutputCall.decidableAllFit : (calls : List OutputCall) → (out : Output) →
    Decidable (AllFit calls out)
  | [], _ => inferInstanceAs (Decidable True)
  | c :: rest, out =>
    have := decidableAllFit rest (out.call c).2
    inferInstanceAs (Decidable (_ ∧ _))

namespace Output

theorem appends_callAll (calls : List OutputCall) (out : Output) :
    out.bytes.toList <+: (callAll calls out).2.bytes.toList := by
  induction calls generalizing out with
  | nil => exact List.prefix_refl _
  | cons c rest ih => exact (step_call out c).appends.trans (ih _)

theorem callAll_append (before later : List OutputCall) (out : Output) :
    (callAll (before ++ later) out).2 = (callAll later (callAll before out).2).2 := by
  induction before generalizing out with
  | nil => rfl
  | cons c rest ih => exact ih _

theorem blockEnd_callAll {calls : List OutputCall} (within : ∀ size, .beginBlock size ∉ calls)
    (out : Output) : (callAll calls out).2.blockEnd = out.blockEnd := by
  induction calls generalizing out with
  | nil => rfl
  | cons c rest ih =>
    have hfirst := (step_call out c).blockEnd_eq fun size hc => within size (hc ▸ List.mem_cons_self)
    have hrest := ih (fun size hmem => within size (List.mem_cons_of_mem _ hmem)) (out.call c).2
    exact hrest.trans hfirst

/-- Whatever was said before and while the block was open, it ends after as many bytes as were announced. -/
theorem exists_appended_since (out : Output) (size : Nat) {later : List OutputCall}
    (within : ∀ size, .beginBlock size ∉ later) :
    ∃ appended, (callAll later (out.beginBlock size)).2.bytes.toList = out.bytes.toList ++ appended ∧
      (callAll later (out.beginBlock size)).2.endBlock =
        if appended.length = size then .ok () else .error .blockSizeMismatch := by
  obtain ⟨appended, happended⟩ := appends_callAll later (out.beginBlock size)
  have hend : _ = out.bytes.size + size := blockEnd_callAll within (out.beginBlock size)
  have hstart : (out.beginBlock size).bytes = out.bytes := rfl
  have hsize := congrArg List.length happended
  simp only [hstart, List.length_append, Array.length_toList] at hsize
  refine ⟨appended, happended.symm, ?_⟩
  simp only [endBlock, hend, ← hsize, Nat.add_left_cancel_iff]

end Output

namespace Machine

namespace Filling

def call : OutputCall → Filling Unit
  | .beginBlock size => beginBlock size
  | .literal byte => literal byte
  | .copy distance length => copy distance length
  | .apply t => apply t
  | .endBlock => endBlock

/-- Makes one call after the other, also after a refusal. -/
def callAll : List OutputCall → StateT Buffer Machine (List (Except Corruption Unit))
  | [] => return []
  | c :: rest => return (← (call c).run) :: (← callAll rest)

theorem call_eq {out : Output} (small : out.blockEnd < 2 ^ 64) {c : OutputCall} (fits : c.Fits out) :
    call c (.of out) = pure ((out.call c).map id .of) := by
  cases c with
  | beginBlock size => exact beginBlock_eq fits
  | literal byte => exact literal_eq byte out
  | copy distance length => exact copy_eq small distance length
  | apply t => exact apply_eq small t
  | endBlock => exact endBlock_eq out

theorem blockEnd_call_lt {out : Output} (small : out.blockEnd < 2 ^ 64) {c : OutputCall}
    (fits : c.Fits out) : (out.call c).2.blockEnd < 2 ^ 64 := by
  by_cases hbegin : ∃ size, c = .beginBlock size
  · obtain ⟨size, rfl⟩ := hbegin
    exact fits
  · rw [(Output.step_call out c).blockEnd_eq fun size hc => hbegin ⟨size, hc⟩]
    exact small

/-- A run on words has no faults, gives the answers of a run without words, and leaves the same output. -/
theorem callAll_eq {calls : List OutputCall} {out : Output} (small : out.blockEnd < 2 ^ 64)
    (fits : OutputCall.AllFit calls out) :
    callAll calls (.of out) = pure ((Output.callAll calls out).map id .of) ∧
      (Output.callAll calls out).2.blockEnd < 2 ^ 64 := by
  induction calls generalizing out with
  | nil => exact ⟨rfl, small⟩
  | cons c rest ih =>
    obtain ⟨hrest, hend⟩ := ih (blockEnd_call_lt small fits.1) fits.2
    refine ⟨?_, hend⟩
    exact (run_bind (call_eq small fits.1) _).trans (run_bind hrest _)

end Filling

/-- **Whatever it is told, an output keeps to its block.** The calls come in any order, after refusals and with
blocks begun midway, as long as the end of each block fits into a word. On words no run has a fault, and answers
and output are the same. What is there is never past the end of the block, and stays in front of what is added.
A refusal leaves everything as it is. A token is refused if it starts too far back, whatever its length, and
otherwise if there is no room for it. A block ends where the bytes added since its beginning are as many as were
announced; before the first block there are none. -/
theorem calls_keep_to_block {calls : List OutputCall} (fits : OutputCall.AllFit calls .empty) :
    ∃ answers out, Output.callAll calls .empty = (answers, out) ∧
      Filling.callAll calls (.of .empty) = pure (answers, .of out) ∧
      out.bytes.size ≤ out.blockEnd ∧
      (∀ before later, before ++ later = calls →
        (Output.callAll before .empty).2.bytes.toList <+: out.bytes.toList) ∧
      (∀ c : OutputCall, c.Fits out → ∃ answer out', out.call c = (answer, out') ∧
        Filling.call c (.of out) = pure (answer, .of out') ∧
        (∀ cause, answer = .error cause → out' = out) ∧
        ∀ t, c.token? = some t →
          (answer = .ok () ↔ t.Within out.bytes.size ∧ out.bytes.size + t.size ≤ out.blockEnd) ∧
          (answer = .ok () → out'.bytes.toList = t.extend out.bytes.toList) ∧
          (∀ length distance, t = .copy length distance → ¬ t.Within out.bytes.size →
            answer = .error (.distanceTooFar distance out.bytes.size)) ∧
          (t.Within out.bytes.size → out.blockEnd < out.bytes.size + t.size →
            answer = .error .lengthOverrun)) ∧
      (∀ before size later, before ++ .beginBlock size :: later = calls →
        (∀ size, .beginBlock size ∉ later) → ∃ appended,
          out.bytes.toList = (Output.callAll before .empty).2.bytes.toList ++ appended ∧
            out.endBlock = if appended.length = size then .ok () else .error .blockSizeMismatch) ∧
      ((∀ size, .beginBlock size ∉ calls) → out.bytes = #[] ∧ out.endBlock = .ok ()) := by
  obtain ⟨hwords, hend⟩ := Filling.callAll_eq (by decide) fits
  refine ⟨_, _, rfl, hwords, Output.size_le _, ?_, ?_, ?_, ?_⟩
  · rintro before later rfl
    rw [Output.callAll_append]
    exact Output.appends_callAll later _
  · intro c hc
    have hstep := Output.step_call (Output.callAll calls .empty).2 c
    refine ⟨_, _, rfl, Filling.call_eq hend hc, fun cause => hstep.refused, ?_⟩
    intro t token
    exact ⟨hstep.ok_iff token, hstep.added token, fun length distance => hstep.far token,
      hstep.full token⟩
  · rintro before size later rfl within
    rw [Output.callAll_append]
    exact Output.exists_appended_since _ size within
  · intro within
    have hend : (Output.callAll calls .empty).2.blockEnd = 0 := Output.blockEnd_callAll within .empty
    have hsize := hend ▸ (Output.callAll calls .empty).2.size_le
    have hbytes := Array.eq_empty_of_size_eq_zero (Nat.le_zero.1 hsize)
    exact ⟨hbytes, by simp [Output.endBlock, hbytes, hend]⟩

/-- A refusal of each kind, and a block that begins before the one before it is full. -/
theorem calls_keep_to_block_refused :
    let calls : List OutputCall := [.beginBlock 4, .literal 120, .copy 2 9, .copy 1 4, .endBlock,
      .beginBlock 3, .apply (.copy 3 1), .literal 121, .endBlock]
    OutputCall.AllFit calls .empty ∧
      Filling.callAll calls (.of .empty) =
        pure ([.ok (), .ok (), .error (.distanceTooFar 2 1), .error .lengthOverrun,
          .error .blockSizeMismatch, .ok (), .ok (), .error .lengthOverrun, .ok ()],
          ⟨#[120, 120, 120, 120], 4⟩) := by
  intro calls
  have fits : OutputCall.AllFit calls .empty := by decide
  obtain ⟨answers, out, hrun, hwords, -⟩ := calls_keep_to_block fits
  have hend : Output.callAll calls .empty = ([.ok (), .ok (), .error (.distanceTooFar 2 1),
      .error .lengthOverrun, .error .blockSizeMismatch, .ok (), .ok (), .error .lengthOverrun, .ok ()],
      ⟨#[120, 120, 120, 120], 4, by decide⟩) := rfl
  cases hrun.symm.trans hend
  exact ⟨fits, hwords⟩

end Machine

end LzCodec
