import LzCodec.Proofs.Machine.Finder
import LzCodec.Proofs.Machine.Pack

/-!
# Parsing on machine words

Each step of the parser has the same outcome on words (`step_eq`), since what it weighs is always a
repeat of the source. So decisions are made and blocks are parsed as in `parseBlock`
(`choose_eq`, `parseBlock_eq`).
-/

namespace LzCodec

namespace Machine

/-- The number of bits that follow the slot of `value`. -/
def extraBits (value : Nat) : Machine Nat :=
  if value < 4 then pure 0 else sub 30 (leadingZeros 32 value)

def threshold (m : Match) : Machine Nat := do
  let bits ← extraBits (← sub m.distance 1)
  add 64 (← add 64 m.length 1) (if bits < cheapBits then 1 else 0)

/-- The token to write at `pos`. -/
def tokenAt (src : Bytes) (pos : Nat) : Decision → Machine Token
  | .literal => do return .literal (← load src pos)
  | .take m => pure m.token

namespace Finder

/-- Whether a match that starts `ahead` bytes behind `pos` displaces `m`. -/
def displaces (f : Finder) (pos ahead : Nat) (m : Match) (depth : Nat) : Machine (Bool × Finder) := do
  f.reaches (← add 64 pos ahead) (← threshold m) depth

/-- One step of the decision at `pos`. -/
def step (f : Finder) (effort : Effort) (pos : Nat) : ParseState → Machine (ParseState × Finder)
  | .atPosition => do
    let (found, f) ← f.find pos effort.here
    match found with
    | none => return (.emit .literal, f)
    | some m => return (if longMatch ≤ m.length then .emit (.take m) else .weighNext m, f)
  | .weighNext m => do
    let (displaced, f) ← f.displaces pos 1 m effort.oneAhead
    return (if displaced then .emit .literal else .weighSecond m, f)
  | .weighSecond m => do
    let (displaced, f) ← f.displaces pos 2 m effort.twoAhead
    return (if displaced then .emit .literal else .emit (.take m), f)
  | .emit d => pure (.emit d, f)

/-- Steps until there is a decision. -/
def choose (f : Finder) (effort : Effort) (pos : Nat) (state : ParseState) :
    Machine (Decision × Finder) := do
  let (state, f) ← f.step effort pos state
  match state.decision? with
  | some d => return (d, f)
  | none => f |>.choose effort pos state
partial_fixpoint

/-- Parses from `pos` on, where `emitted` of `limit` tokens are there already. -/
def parseBlock (f : Finder) (effort : Effort) (src : Bytes) (limit emitted pos : Nat)
    (tokens : Array Token) : Machine (Nat × Array Token × Finder) := do
  if pos < src.size ∧ emitted < limit then
    let (d, f) ← f.choose effort pos .atPosition
    let token ← tokenAt src pos d
    let next ← add 64 pos d.advance
    f |>.parseBlock effort src limit (← add 64 emitted 1) next (tokens.push token)
  else
    return (pos, tokens, f)
partial_fixpoint

end Finder

/-! ## Decisions -/

section

variable {src : Bytes} {index : Index src (Geometry.ofSize src.size)} {effort : Effort} {pos : Nat}

theorem extraBits_eq {value : Nat} (h : value < 2 ^ 32) :
    extraBits value = pure (Slot.extraBits value) := by
  unfold extraBits Slot.extraBits
  by_cases hsmall : value < 4
  · rw [if_pos hsmall, if_pos hsmall]
  · have hge := Nat.le_of_not_lt hsmall
    have hlog := Slot.log2_lt hge h
    have htwo := Slot.two_le_log2 hge
    have hzeros : leadingZeros 32 value = 31 - value.log2 := if_neg (by omega)
    have hbits : 30 - (31 - value.log2) = value.log2 - 1 := by omega
    rw [if_neg hsmall, if_neg hsmall, hzeros, sub_of_le (by omega), hbits]

theorem threshold_eq {m : Match} (h : m.Repeats src pos) : threshold m = pure m.threshold := by
  have hdistance := h.distance_lt
  have hlength := h.length_le
  simp only [maxWindowLog] at hdistance
  simp only [maxMatch] at hlength
  have hcheap : (if Slot.extraBits (m.distance - 1) < cheapBits then 1 else 0) ≤ 1 := by
    split
    · exact Nat.le_refl 1
    · exact Nat.zero_le 1
  unfold threshold
  rw [sub_of_le h.distance_pos, pure_bind, extraBits_eq (by omega), pure_bind, add_of_lt (by omega),
    pure_bind, add_of_lt (by omega)]
  rfl

/-- A question ahead of the cursor ends without a fault, has the answer of the index, and keeps what it
knows. -/
theorem displaces_eq (small : src.size < 2 ^ maxArrayLog) (h : index.Faithful) (hpos : pos < src.size)
    {m : Match} (hm : m.Repeats src pos) {ahead : Nat} (hahead : ahead ≤ 2) (depth : Nat) :
    (Finder.of index).displaces pos ahead m depth =
        pure ((MatchSource.reaches (pos + ahead) m.threshold depth index).1,
          Finder.of (MatchSource.reaches (pos + ahead) m.threshold depth index).2) ∧
      (MatchSource.reaches (pos + ahead) m.threshold depth index).2.Faithful := by
  have hword := small
  simp only [maxArrayLog] at hword
  refine ⟨?_, h.leave (.reaches (pos + ahead) m.threshold depth)⟩
  unfold Finder.displaces
  rw [add_of_lt (by omega), pure_bind, threshold_eq hm, pure_bind]
  exact reaches_eq small h (by omega) m.threshold depth

/-- A step ends without a fault, does what a step of the parser does, and keeps what the index knows. -/
theorem step_eq (small : src.size < 2 ^ maxArrayLog) (effort : Effort) (h : index.Faithful)
    (hpos : pos < src.size) {state : ParseState} (hstate : state.Holds fun m => m.Repeats src pos) :
    (Finder.of index).step effort pos state =
        pure ((state.step effort pos index).1, Finder.of (state.step effort pos index).2) ∧
      (state.step effort pos index).2.Faithful := by
  cases state with
  | atPosition =>
    have hfind : (Finder.of index).find pos effort.here = pure ((MatchSource.find pos effort.here index).1,
        Finder.of (MatchSource.find pos effort.here index).2) :=
      find_eq small h (by omega) effort.here
    have hkeeps : (MatchSource.find pos effort.here index).2.Faithful := h.leave (.find pos effort.here)
    simp only [Finder.step, ParseState.step, hfind, pure_bind]
    rcases hfound : MatchSource.find pos effort.here index with ⟨found, index'⟩
    rw [hfound] at hkeeps
    cases found with
    | none => exact ⟨rfl, hkeeps⟩
    | some m => exact ⟨rfl, hkeeps⟩
  | weighNext m =>
    obtain ⟨hahead, hkeeps⟩ := displaces_eq small h hpos hstate (show 1 ≤ 2 by decide) effort.oneAhead
    simp only [Finder.step, ParseState.step, hahead, pure_bind]
    rcases hanswer : MatchSource.reaches (pos + 1) m.threshold effort.oneAhead index with ⟨found, index'⟩
    rw [hanswer] at hkeeps
    cases found with
    | true => exact ⟨rfl, hkeeps⟩
    | false => exact ⟨rfl, hkeeps⟩
  | weighSecond m =>
    obtain ⟨hahead, hkeeps⟩ := displaces_eq small h hpos hstate (Nat.le_refl 2) effort.twoAhead
    simp only [Finder.step, ParseState.step, hahead, pure_bind]
    rcases hanswer : MatchSource.reaches (pos + 2) m.threshold effort.twoAhead index with ⟨found, index'⟩
    rw [hanswer] at hkeeps
    cases found with
    | true => exact ⟨rfl, hkeeps⟩
    | false => exact ⟨rfl, hkeeps⟩
  | emit d => exact ⟨rfl, h⟩

theorem settle_of_decision {state : ParseState} {d : Decision} (h : state.decision? = some d) :
    state.settle effort pos index = (d, index) := by
  rw [ParseState.settle]
  split
  · rename_i d' hd
    rw [h] at hd
    rw [Option.some.inj hd]
  · rename_i hopen
    rw [h] at hopen
    cases hopen

theorem settle_of_open {state : ParseState} (h : state.decision? = none) :
    state.settle effort pos index =
      (state.step effort pos index).1.settle effort pos (state.step effort pos index).2 := by
  rw [ParseState.settle]
  split
  · rename_i d hd
    rw [h] at hd
    cases hd
  · rfl

/-- Deciding ends without a fault, with the decision of the parser. -/
theorem choose_eq (small : src.size < 2 ^ maxArrayLog) (effort : Effort) (h : index.Faithful)
    (hpos : pos < src.size) {state : ParseState} (hstate : state.Holds fun m => m.Repeats src pos)
    (hopen : state.decision? = none) :
    (Finder.of index).choose effort pos state =
        pure ((state.settle effort pos index).1, Finder.of (state.settle effort pos index).2) ∧
      (state.settle effort pos index).2.Faithful := by
  induction hr : state.rank using Nat.strongRecOn generalizing state index with
  | ind rank ih =>
    obtain ⟨hstep, hkeeps⟩ := step_eq small effort h hpos hstate
    have hnext : (state.step effort pos index).1.Holds fun m => m.Repeats src pos :=
      hstate.step fun m hm => Index.repeats_of_find hm
    have hrank := ParseState.rank_step effort pos state index
    have hpositive := ParseState.rank_pos hopen
    rw [Finder.choose, hstep, pure_bind, settle_of_open hopen]
    dsimp only
    cases hdecision : (state.step effort pos index).1.decision? with
    | some d =>
      rw [settle_of_decision hdecision]
      exact ⟨rfl, hkeeps⟩
    | none => exact ih _ (by omega) hkeeps hnext hdecision rfl

theorem tokenAt_eq (hpos : pos < src.size) (d : Decision) :
    tokenAt src pos d = pure (d.token src[pos]) := by
  cases d with
  | literal =>
    unfold tokenAt
    rw [load_of_lt hpos, pure_bind]
    rfl
  | take m => rfl

/-- A decision leads no further than to the end of the source. -/
theorem advance_choose_le (hpos : pos < src.size) :
    pos + (LzCodec.choose effort pos index).1.advance ≤ src.size := by
  have start : ParseState.atPosition.Holds fun m => m.Repeats src pos := trivial
  have found : ∀ m, (LzCodec.choose effort pos index).1 = .take m → m.Repeats src pos :=
    (start.settle index.finds_repeats).1
  cases hchoose : (LzCodec.choose effort pos index).1 with
  | literal => exact hpos
  | take m => exact (found m hchoose).end_le

/-- A block is parsed without a fault, and as the parser does it. -/
theorem parseBlock_eq (small : src.size < 2 ^ maxArrayLog) (effort : Effort) {limit left emitted : Nat}
    (hleft : emitted + left = limit) (hlimit : limit < 2 ^ 64) (h : index.Faithful)
    (hpos : pos ≤ src.size) (tokens : Array Token) :
    (Finder.of index).parseBlock effort src limit emitted pos tokens =
        pure ((LzCodec.parseBlock effort src left pos tokens index).1.1,
          (LzCodec.parseBlock effort src left pos tokens index).1.2,
          Finder.of (LzCodec.parseBlock effort src left pos tokens index).2) ∧
      (LzCodec.parseBlock effort src left pos tokens index).2.Faithful := by
  induction left generalizing index emitted pos tokens with
  | zero =>
    rw [Finder.parseBlock, if_neg (by omega)]
    exact ⟨rfl, h⟩
  | succ left ih =>
    rw [Finder.parseBlock, LzCodec.parseBlock]
    by_cases hlt : pos < src.size
    · obtain ⟨hchoose, hkeeps⟩ : (Finder.of index).choose effort pos .atPosition =
            pure ((LzCodec.choose effort pos index).1, Finder.of (LzCodec.choose effort pos index).2) ∧
          (LzCodec.choose effort pos index).2.Faithful :=
        choose_eq small effort h hlt (show ParseState.atPosition.Holds _ from trivial) rfl
      have hend : pos + (LzCodec.choose effort pos index).1.advance ≤ src.size := advance_choose_le hlt
      have hword := small
      simp only [maxArrayLog] at hword
      rw [if_pos ⟨hlt, by omega⟩, dif_pos hlt, hchoose, pure_bind]
      dsimp only
      rw [tokenAt_eq hlt, pure_bind, add_of_lt (by omega), pure_bind, add_of_lt (by omega), pure_bind]
      exact ih (by omega) hkeeps hend _
    · rw [if_neg (fun hgo => hlt hgo.1), dif_neg hlt]
      exact ⟨rfl, h⟩

end

end Machine

end LzCodec
