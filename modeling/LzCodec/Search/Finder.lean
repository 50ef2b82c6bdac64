import LzCodec.Search.Index
import LzCodec.Token

/-!
# Finding repeats

Two questions about a position: which earlier position agrees with it longest, and whether some
earlier position agrees with it for a given length.
-/

namespace LzCodec

/-- Whatever can answer the two questions. Answers may change the state. -/
class MatchSource (σ : Type) where
  /-- The best match at a position, of those that `depth` allows. -/
  find : (pos depth : Nat) → StateM σ (Option Match)
  /-- Whether a position has a match of at least this length, of those that `depth` allows. -/
  reaches : (pos length depth : Nat) → StateM σ Bool

namespace Index

variable {src : Bytes} {g : Geometry}

/-- The length that a better match has to exceed. -/
def lengthToBeat : Option Match → Nat
  | none => minMatch - 1
  | some m => m.length

/-- The better one of `best` and the match that starts at `c`; `best` if they are equally long. -/
def improve (src : Bytes) (pos limit : Nat) (hl : pos + limit ≤ src.size) (best : Option Match)
    (c : Nat) (hc : c < pos) : Option Match :=
  let length := lengthToBeat best
  if h : length < limit then
    if src[c + length] == src[pos + length] then
      let n := src.agree c pos limit hc hl
      if length < n then some ⟨pos - c, n⟩ else best
    else
      best
  else
    best

/-- Every match in `best` has at least the shortest length. -/
def LongEnough (best : Option Match) : Prop := ∀ m, best = some m → minMatch ≤ m.length

theorem LongEnough.improve {pos limit : Nat} {hl : pos + limit ≤ src.size} {best : Option Match}
    (h : LongEnough best) (c : Nat) (hc : c < pos) :
    LongEnough (improve src pos limit hl best c hc) := by
  have beat : minMatch - 1 ≤ lengthToBeat best := by
    cases best with
    | none => exact Nat.le_refl _
    | some m => exact Nat.le_trans (Nat.sub_le _ _) (h m rfl)
  intro m hm
  simp only [Index.improve] at hm
  split at hm
  · split at hm
    · split at hm
      · cases hm
        simp only [minMatch] at beat ⊢
        omega
      · exact h m hm
    · exact h m hm
  · exact h m hm

/-- The longest match, and the nearest among these. -/
def longest (index : Index src g) (pos depth : Nat) (h : pos + minMatch ≤ src.size) :
    Option Match :=
  let limit := min maxMatch (src.size - pos)
  have hl : pos + limit ≤ src.size := by simp only [limit, minMatch] at h ⊢; omega
  index.fold pos h (improve src pos limit hl) (fun best => lengthToBeat best == limit) depth none

def find (pos depth : Nat) : StateM (Index src g) (Option Match) := fun index =>
  if h : 0 < depth ∧ pos + minMatch ≤ src.size then
    let index := index.insertUpTo pos
    (index.longest pos depth h.2, index)
  else
    (none, index)

theorem longEnough_longest (index : Index src g) (pos depth : Nat)
    (h : pos + minMatch ≤ src.size) : LongEnough (index.longest pos depth h) := by
  have start : LongEnough none := by
    intro m hm
    cases hm
  exact walk_keeps (P := LongEnough) (fun _ c hc _ keep => keep.improve c hc) _ _ start

theorem minMatch_le_of_find {pos depth : Nat} {index : Index src g} {m : Match}
    (h : (find pos depth index).1 = some m) : minMatch ≤ m.length := by
  simp only [find] at h
  split at h
  · exact longEnough_longest _ _ _ _ m h
  · cases h

/-- Whether some position agrees with `pos` in `length` bytes. -/
def hasRepeat (index : Index src g) (pos length depth : Nat)
    (h : minMatch ≤ length ∧ pos + length ≤ src.size) : Bool :=
  index.fold pos (by simp only [minMatch] at h; omega)
    (fun _ c hc =>
      have : 4 ≤ length := h.1
      src[c + length - 1] == src[pos + length - 1] && src.agree c pos length hc h.2 == length)
    id depth false

def reaches (pos length depth : Nat) : StateM (Index src g) Bool := fun index =>
  let length := max length minMatch
  if h : 0 < depth ∧ length ≤ maxMatch ∧ pos + length ≤ src.size then
    let index := index.insertUpTo pos
    (index.hasRepeat pos length depth ⟨Nat.le_max_right _ _, h.2.2⟩, index)
  else
    (false, index)

instance : MatchSource (Index src g) := ⟨find, reaches⟩

/-- The empty index of a source. -/
def ofSource (src : Bytes) : Index src (Geometry.ofSize src.size) := empty _ _

end Index

end LzCodec
