import LzCodec.Parse
import LzCodec.Proofs.Search.Refinement

/-!
# Looking ahead leaves no trace

The index that a parser shares between its questions runs ahead of the cursor. What is written does not
depend on that: `Reference.tokens` parses a source by comparing the best matches at three positions,
with no index at all, and a parse writes the same tokens (`parse_eq_reference`).
-/

namespace LzCodec

namespace Reference

variable (src : Bytes) (effort : Effort)

/-- The longest repeat among the first `depth` candidates, and the nearest of these. -/
def best (pos depth : Nat) : Option Match :=
  longestOf src pos ((Index.candidates src (Geometry.ofSize src.size) pos).take depth)

/-- The match that starts later is longer by one byte, by two if `m` is near and so cheap to write. -/
def Outlasts (m : Match) (later : Option Match) : Prop :=
  ∃ m', later = some m' ∧ m.length + 1 + (if m.distance ≤ 512 then 1 else 0) ≤ m'.length

instance (m : Match) : (later : Option Match) → Decidable (Outlasts m later)
  | none => isFalse (by rintro ⟨_, h, _⟩; cases h)
  | some m' =>
    decidable_of_iff (m.length + 1 + (if m.distance ≤ 512 then 1 else 0) ≤ m'.length)
      ⟨fun h => ⟨m', rfl, h⟩, by rintro ⟨_, h, hle⟩; cases h; exact hle⟩

def decision (pos : Nat) : Decision :=
  match best src pos effort.here with
  | none => .literal
  | some m =>
    if m.length < 128 ∧ (Outlasts m (best src (pos + 1) effort.oneAhead) ∨
        Outlasts m (best src (pos + 2) effort.twoAhead)) then
      .literal
    else
      .take m

theorem advance_decision_pos (pos : Nat) : 0 < (decision src effort pos).advance := by
  unfold decision
  split
  · exact Nat.one_pos
  · rename_i m hm
    split
    · exact Nat.one_pos
    · obtain ⟨-, -, -, hmin, -⟩ := longestOf_eq_some hm
      exact Nat.lt_of_lt_of_le (by decide) hmin

/-- The tokens of the source from `pos` on. -/
def tokens (pos : Nat) : List Token :=
  if h : pos < src.size then
    (decision src effort pos).token src[pos] :: tokens (pos + (decision src effort pos).advance)
  else
    []
termination_by src.size - pos
decreasing_by
  have := advance_decision_pos src effort pos
  omega

end Reference

/-- A distance is cheap up to 512 bytes. -/
theorem Match.threshold_eq (m : Match) :
    m.threshold = m.length + 1 + if m.distance ≤ 512 then 1 else 0 := by
  have hcheap : Slot.extraBits (m.distance - 1) < cheapBits ↔ m.distance ≤ 512 := by
    simp only [Slot.extraBits, cheapBits]
    split
    · omega
    · rename_i hlarge
      have hlog : (m.distance - 1).log2 < 9 ↔ m.distance - 1 < 2 ^ 9 := Nat.log2_lt (by omega)
      omega
  simp only [threshold, hcheap]

/-- What is written in the end, without an index. -/
def ParseState.verdict (src : Bytes) (effort : Effort) (pos : Nat) : ParseState → Decision
  | atPosition => Reference.decision src effort pos
  | weighNext m =>
    if Reference.Outlasts m (Reference.best src (pos + 1) effort.oneAhead) ∨
        Reference.Outlasts m (Reference.best src (pos + 2) effort.twoAhead) then
      .literal
    else
      .take m
  | weighSecond m =>
    if Reference.Outlasts m (Reference.best src (pos + 2) effort.twoAhead) then .literal else .take m
  | emit d => d

namespace Index

variable {src : Bytes} {index : Index src (Geometry.ofSize src.size)} {effort : Effort} {pos : Nat}

/-- An index that knows what it has entered, and has entered nothing from `stop` on. -/
structure Trails (index : Index src (Geometry.ofSize src.size)) (stop : Nat) : Prop where
  faithful : index.Faithful
  next_le : index.next ≤ stop

namespace Trails

theorem mono {stop stop' : Nat} (h : index.Trails stop) (hle : stop ≤ stop') : index.Trails stop' :=
  ⟨h.faithful, Nat.le_trans h.next_le hle⟩

theorem insertUpTo {stop : Nat} (h : index.Trails stop) (target : Nat) :
    (index.insertUpTo target).Trails (max stop target) := by
  refine ⟨h.faithful.insertUpTo target, ?_⟩
  rw [next_insertUpTo]
  exact max_le_max h.next_le (Nat.le_refl _)

theorem entered_le {stop : Nat} (h : index.Trails stop) (hle : stop ≤ pos + 2) :
    ∀ p, index.Entered p → p ≤ pos + 1 := by
  rintro p ⟨hp, -⟩
  have hnext := h.next_le
  omega

theorem find {stop : Nat} (h : index.Trails stop) (hle : stop ≤ pos + 2) (depth : Nat) :
    (find pos depth index).1 = Reference.best src pos depth ∧
      (find pos depth index).2.Trails (max stop pos) := by
  constructor
  · by_cases hfits : pos + minMatch ≤ src.size
    · exact find_eq_longestOf h.faithful hfits (.inr (h.entered_le hle))
        (Geometry.two_le_window src.size) depth
    · rw [Index.find, dif_neg (fun hgo => hfits hgo.2)]
      cases hbest : Reference.best src pos depth with
      | none => rfl
      | some m =>
        obtain ⟨c, -, rfl, hmin, -⟩ := longestOf_eq_some hbest
        have hlimit := Nat.le_trans hmin Bytes.common_le
        rw [Bytes.matchLimit] at hlimit
        simp only [minMatch] at hlimit hfits
        omega
  · unfold Index.find
    split
    · exact h.insertUpTo pos
    · exact h.mono (Nat.le_max_left _ _)

theorem reaches {stop : Nat} (h : index.Trails stop) (hle : stop ≤ pos + 2) (m : Match)
    (depth : Nat) :
    ((reaches pos m.threshold depth index).1 = true ↔
      Reference.Outlasts m (Reference.best src pos depth)) ∧
      (reaches pos m.threshold depth index).2.Trails (max stop pos) := by
  constructor
  · rw [reaches_iff h.faithful (.inr (h.entered_le hle)) (Geometry.two_le_window src.size),
      m.threshold_eq]
    exact Iff.rfl
  · unfold Index.reaches
    dsimp only
    split
    · exact h.insertUpTo pos
    · exact h.mono (Nat.le_max_left _ _)

end Trails

end Index

end LzCodec
