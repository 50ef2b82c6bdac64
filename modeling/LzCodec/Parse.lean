import LzCodec.Effort
import LzCodec.Search.Finder
import LzCodec.Slot

/-!
# Lazy parsing

At each position the best match is weighed against what starts one and two bytes later: if a clearly
longer match starts there, one literal is written and the next position is looked at. A match whose
distance is cheap to write must be beaten by two bytes, any other by one.
-/

namespace LzCodec

inductive Decision where
  | literal
  | take (m : Match)
  deriving DecidableEq, Repr

namespace Decision

/-- How far the cursor moves. -/
def advance : Decision → Nat
  | literal => 1
  | take m => m.length

/-- The token to write where the byte at the cursor is `byte`. -/
def token (byte : UInt8) : Decision → Token
  | literal => .literal byte
  | take m => m.token

end Decision

inductive ParseState where
  | atPosition
  /-- A match that one starting a byte later may displace. -/
  | weighNext (m : Match)
  /-- A match that one starting two bytes later may displace. -/
  | weighSecond (m : Match)
  | emit (d : Decision)
  deriving DecidableEq, Repr

/-- The length from which a later match displaces `m`. -/
def Match.threshold (m : Match) : Nat :=
  m.length + 1 + if Slot.extraBits (m.distance - 1) < cheapBits then 1 else 0

namespace ParseState

/-- The number of steps after which a decision is certain. -/
def rank : ParseState → Nat
  | atPosition => 3
  | weighNext _ => 2
  | weighSecond _ => 1
  | emit _ => 0

variable {σ : Type} [MatchSource σ]

@[specialize]
def step (effort : Effort) (pos : Nat) (state : ParseState) : StateM σ ParseState := fun s =>
  match state with
  | atPosition =>
    match MatchSource.find pos effort.here s with
    | (none, s) => (emit .literal, s)
    | (some m, s) => (if longMatch ≤ m.length then emit (.take m) else weighNext m, s)
  | weighNext m =>
    match MatchSource.reaches (pos + 1) m.threshold effort.oneAhead s with
    | (true, s) => (emit .literal, s)
    | (false, s) => (weighSecond m, s)
  | weighSecond m =>
    match MatchSource.reaches (pos + 2) m.threshold effort.twoAhead s with
    | (true, s) => (emit .literal, s)
    | (false, s) => (emit (.take m), s)
  | emit d => (emit d, s)

theorem rank_step (effort : Effort) (pos : Nat) (state : ParseState) (s : σ) :
    (step effort pos state s).1.rank ≤ state.rank - 1 := by
  cases state with
  | atPosition =>
    simp only [step]
    split
    · exact Nat.zero_le _
    · dsimp only
      split
      · exact Nat.zero_le _
      · exact Nat.le_refl _
  | weighNext m => simp only [step]; split <;> simp [rank]
  | weighSecond m => simp only [step]; split <;> simp [rank]
  | emit d => exact Nat.le_refl _

def decision? : ParseState → Option Decision
  | emit d => some d
  | _ => none

theorem rank_pos {state : ParseState} (h : state.decision? = none) : 0 < state.rank := by
  cases state with
  | emit d => cases h
  | _ => exact Nat.zero_lt_succ _

/-- A match at hand is not empty. -/
def Advances : ParseState → Prop
  | atPosition => True
  | weighNext m => 0 < m.length
  | weighSecond m => 0 < m.length
  | emit d => 0 < d.advance

theorem Advances.step {effort : Effort} {pos : Nat} {state : ParseState} {s : σ}
    (found : ∀ pos depth (s : σ) m, (MatchSource.find pos depth s).1 = some m → 0 < m.length)
    (h : state.Advances) : (step effort pos state s).1.Advances := by
  cases state with
  | atPosition =>
    simp only [ParseState.step]
    split
    · exact Nat.zero_lt_one
    · rename_i m _ hm
      have hpos := found pos effort.here s m (by rw [hm])
      dsimp only
      split <;> exact hpos
  | weighNext m =>
    simp only [ParseState.step]
    split
    · exact Nat.zero_lt_one
    · exact h
  | weighSecond m =>
    simp only [ParseState.step]
    split
    · exact Nat.zero_lt_one
    · exact h
  | emit d => exact h

/-- Steps until there is a decision. -/
@[specialize]
def settle (effort : Effort) (pos : Nat) (state : ParseState) : StateM σ Decision := fun s =>
  match h : state.decision? with
  | some d => (d, s)
  | none =>
    match hs : step effort pos state s with
    | (next, t) =>
      have : next.rank < state.rank := by
        have := rank_step effort pos state s
        have := rank_pos h
        rw [hs] at *
        simp only at *
        omega
      settle effort pos next t
termination_by state.rank

theorem Advances.settle {effort : Effort} {pos : Nat} {state : ParseState} {s : σ}
    (found : ∀ pos depth (s : σ) m, (MatchSource.find pos depth s).1 = some m → 0 < m.length)
    (h : state.Advances) : 0 < (settle effort pos state s).1.advance := by
  induction hr : state.rank using Nat.strongRecOn generalizing state s with
  | ind rank ih =>
    rw [ParseState.settle]
    split
    · rename_i d hd
      cases state with
      | emit e => cases hd; exact h
      | _ => cases hd
    · rename_i hd
      have next : (ParseState.step effort pos state s).1.Advances := h.step found
      have less : (ParseState.step effort pos state s).1.rank < rank := by
        have := rank_step effort pos state s
        have := rank_pos hd
        omega
      exact ih _ less next rfl

end ParseState

section
variable {σ : Type} [MatchSource σ]

@[specialize]
def choose (effort : Effort) (pos : Nat) : StateM σ Decision :=
  ParseState.settle effort pos .atPosition

/-- Parses from `pos` on until the source ends or `limit` tokens are added to `tokens`. The first
part of the result is the position behind the last token. -/
@[specialize]
def parseBlock (effort : Effort) (src : Bytes) (limit pos : Nat) (tokens : Array Token) :
    StateM σ (Nat × Array Token) := fun s =>
  match limit with
  | 0 => ((pos, tokens), s)
  | limit + 1 =>
    if h : pos < src.size then
      match choose effort pos s with
      | (d, s) =>
        parseBlock effort src limit (pos + d.advance) (tokens.push (d.token src[pos])) s
    else
      ((pos, tokens), s)

theorem le_parseBlock (effort : Effort) (src : Bytes) (limit pos : Nat) (tokens : Array Token)
    (s : σ) : pos ≤ (parseBlock effort src limit pos tokens s).1.1 := by
  induction limit generalizing pos tokens s with
  | zero => exact Nat.le_refl _
  | succ limit ih =>
    simp only [parseBlock]
    split
    · exact Nat.le_trans (Nat.le_add_right _ _) (ih _ _ _)
    · exact Nat.le_refl _

theorem lt_parseBlock (effort : Effort) {src : Bytes} {limit pos : Nat} (tokens : Array Token)
    (s : σ) (found : ∀ pos depth (s : σ) m, (MatchSource.find pos depth s).1 = some m → 0 < m.length)
    (hl : 0 < limit) (hp : pos < src.size) :
    pos < (parseBlock effort src limit pos tokens s).1.1 := by
  cases limit with
  | zero => cases hl
  | succ limit =>
    simp only [parseBlock, hp, dite_true]
    have start : ParseState.atPosition.Advances := trivial
    exact Nat.lt_of_lt_of_le (Nat.lt_add_of_pos_right (start.settle found))
      (le_parseBlock _ _ _ _ _ _)

end

/-- The tokens of the whole source. There are at most as many as it has bytes. -/
def parse (src : Bytes) (effort : Effort) : Array Token :=
  (parseBlock effort src src.size 0 #[] (Index.ofSource src)).1.2

end LzCodec
