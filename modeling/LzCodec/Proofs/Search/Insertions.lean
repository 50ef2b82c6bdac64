import LzCodec.Proofs.Search.Chains

/-!
# Entering step by step

It does not matter in how many steps positions are entered: the index after any requests is the one
after a single insertion, up to the furthest position that any of them asked for (`after_eq_insertUpTo`).
-/

namespace LzCodec

/-- Up to where a request enters positions. A question that is not looked into enters none. -/
def Request.target (src : Bytes) : Request → Nat
  | insert target => target
  | find pos depth => if 0 < depth ∧ pos + minMatch ≤ src.size then pos else 0
  | reaches pos length depth =>
    if 0 < depth ∧ max length minMatch ≤ maxMatch ∧ pos + max length minMatch ≤ src.size then pos else 0

/-- The largest target of all requests. -/
def furthest (src : Bytes) : List Request → Nat
  | [] => 0
  | request :: rest => max (request.target src) (furthest src rest)

namespace Index

variable {src : Bytes} {g : Geometry}

/-- Entering goes on where it was left. -/
theorem enter_enter (first second : Nat) (head : Vector Nat (2 ^ g.hashLog))
    (links : Vector Nat g.window) (pos : Nat) :
    enter src g second (enter src g first head links pos).1 (enter src g first head links pos).2
        (max pos first) =
      enter src g (max first second) head links pos := by
  induction hn : src.size - pos using Nat.strongRecOn generalizing head links pos with
  | ind n ih =>
    by_cases hfits : pos + 4 ≤ src.size
    · by_cases hfirst : pos < first
      · have hb := src.bucket_lt pos hfits g.hashLog_le
        have hp : pos % g.window < g.window := Nat.mod_lt _ g.window_pos
        have hmax : max pos first = max (pos + 1) first := by omega
        rw [enter_of_lt head links hfits hb hp hfirst, enter_of_lt head links hfits hb hp (by omega), hmax]
        exact ih _ (by omega) _ _ _ rfl
      · -- the first insertion has nothing to enter, so the second one does all
        have hmax : max pos first = pos := by omega
        have hdone : enter src g first head links pos = (head, links) :=
          enter_of_end head links (.inl (Nat.le_of_not_lt hfirst))
        rw [hdone, hmax]
        by_cases hsecond : first ≤ second
        · rw [Nat.max_eq_right hsecond]
        · rw [enter_of_end head links (by omega), enter_of_end head links (by omega)]
    · have hend : src.size < pos + 4 := Nat.lt_of_not_le hfits
      rw [enter_of_end head links (.inr hend), enter_of_end head links (by omega),
        enter_of_end head links (.inr hend)]

/-- Two insertions are as one, in whatever order. -/
theorem insertUpTo_insertUpTo (index : Index src g) (first second : Nat) :
    (index.insertUpTo first).insertUpTo second = index.insertUpTo (max first second) := by
  cases index with
  | mk head links next =>
    simp only [insertUpTo, enter_enter, Nat.max_assoc]

theorem insertUpTo_zero (index : Index src g) : index.insertUpTo 0 = index := by
  cases index with
  | mk head links next =>
    simp [insertUpTo, enter_of_end head links (.inl (Nat.zero_le next))]

/-- Whatever a request asks, it leaves an insertion. -/
theorem leave_eq_insertUpTo (index : Index src g) (request : Request) :
    index.leave request = index.insertUpTo (request.target src) := by
  cases request with
  | insert target => rfl
  | find pos depth =>
    simp only [leave, find, Request.target]
    split
    · rfl
    · exact (insertUpTo_zero index).symm
  | reaches pos length depth =>
    simp only [leave, reaches, Request.target]
    split
    · rfl
    · exact (insertUpTo_zero index).symm

theorem foldl_leave_eq_insertUpTo (index : Index src g) (requests : List Request) :
    requests.foldl leave index = index.insertUpTo (furthest src requests) := by
  induction requests generalizing index with
  | nil => exact (insertUpTo_zero index).symm
  | cons request rest ih =>
    rw [List.foldl_cons, ih, leave_eq_insertUpTo, insertUpTo_insertUpTo, furthest]

theorem after_eq_insertUpTo (src : Bytes) (requests : List Request) :
    after src requests = (ofSource src).insertUpTo (furthest src requests) :=
  foldl_leave_eq_insertUpTo _ requests

theorem next_after (src : Bytes) (requests : List Request) :
    (after src requests).next = furthest src requests := by
  rw [after_eq_insertUpTo, next_insertUpTo]
  exact Nat.zero_max _

end Index

end LzCodec
