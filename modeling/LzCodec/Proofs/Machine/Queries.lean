import LzCodec.Proofs.Machine.Finder

/-!
# Questions in any order

An index may be asked about any position at any time, also about earlier ones after it has run far ahead,
and in a source whose links no longer fit into one window. No question stops it, and what it finds is
there and cannot go on (`askAll_sound`).
-/

namespace LzCodec

/-- The position that is asked about lies at most two bytes behind the end. -/
def Request.Within (size : Nat) : Request → Prop
  | insert _ => True
  | find pos _ => pos ≤ size + 2
  | reaches pos _ _ => pos ≤ size + 2

instance (size : Nat) : (request : Request) → Decidable (request.Within size)
  | .insert _ => inferInstanceAs (Decidable True)
  | .find pos _ => inferInstanceAs (Decidable (pos ≤ size + 2))
  | .reaches pos _ _ => inferInstanceAs (Decidable (pos ≤ size + 2))

/-- What a request is answered with. -/
inductive Answer where
  | entered
  | found (best : Option Match)
  | reached (yes : Bool)

/-- A match is a repeat from at most `reach` back that cannot go on, and a length that is reached is one of
a repeat from at most `reach` back. -/
def Request.Answered (src : Bytes) (reach : Nat) : Request → Answer → Prop
  | insert _, .entered => True
  | find pos _, .found best => ∀ m, best = some m → m.Maximal src reach pos
  | reaches pos length _, .reached yes =>
    yes = true → ∃ m : Match, m.Genuine src pos ∧ m.distance ≤ reach ∧ length ≤ m.length
  | _, _ => False

/-- The answer of an index. -/
def Index.answer {src : Bytes} {g : Geometry} (index : Index src g) : Request → Answer
  | .insert _ => .entered
  | .find pos depth => .found (find pos depth index).1
  | .reaches pos length depth => .reached (reaches pos length depth index).1

/-- Whatever stands in the index, its answers are right. -/
theorem Index.answered {src : Bytes} {g : Geometry} (index : Index src g) (request : Request) :
    request.Answered src g.maxDistance (index.answer request) := by
  cases request with
  | insert target => trivial
  | find pos depth =>
    intro m hm
    exact maximal_of_find hm
  | reaches pos length depth =>
    intro hyes
    exact genuine_of_reaches hyes

namespace Machine

namespace Finder

def ask (f : Finder) : Request → Machine (Answer × Finder)
  | .insert target => do return (.entered, ← f.insertUpTo target)
  | .find pos depth => do
    let (best, f) ← f.find pos depth
    return (.found best, f)
  | .reaches pos length depth => do
    let (yes, f) ← f.reaches pos length depth
    return (.reached yes, f)

/-- Asks one question after the other. -/
def askAll (f : Finder) : List Request → Machine (List Answer × Finder)
  | [] => pure ([], f)
  | request :: rest => do
    let (answer, f) ← f.ask request
    let (answers, f) ← f.askAll rest
    return (answer :: answers, f)

end Finder

section

variable {src : Bytes} {index : Index src (Geometry.ofSize src.size)}

/-- A question ends without a fault, with the answer of the index. -/
theorem ask_eq (small : src.size < 2 ^ maxArrayLog) (h : index.Faithful) {request : Request}
    (within : request.Within src.size) :
    (Finder.of index).ask request =
      pure (index.answer request, Finder.of (index.leave request)) := by
  cases request with
  | insert target =>
    rw [Finder.ask, insertUpTo_eq small (masked_ofSize src.size) h target, pure_bind]
    rfl
  | find pos depth =>
    rw [Finder.ask, find_eq small h within depth, pure_bind]
    rfl
  | reaches pos length depth =>
    rw [Finder.ask, reaches_eq small h within length depth, pure_bind]
    rfl

/-- A run of questions ends without a fault, and all its answers are right. -/
theorem exists_askAll (small : src.size < 2 ^ maxArrayLog) (h : index.Faithful)
    {requests : List Request} (within : ∀ request ∈ requests, request.Within src.size) :
    ∃ answers, (Finder.of index).askAll requests =
        pure (answers, Finder.of (requests.foldl Index.leave index)) ∧
      List.Forall₂ (Request.Answered src (Geometry.ofSize src.size).maxDistance) requests answers := by
  induction requests generalizing index with
  | nil => exact ⟨[], rfl, .nil⟩
  | cons request rest ih =>
    obtain ⟨hfirst, hothers⟩ := List.forall_mem_cons.1 within
    obtain ⟨answers, hrun, hanswers⟩ := ih (h.leave request) hothers
    refine ⟨index.answer request :: answers, ?_, .cons (index.answered request) hanswers⟩
    rw [Finder.askAll, ask_eq small h hfirst, pure_bind]
    dsimp only
    rw [hrun, pure_bind]
    rfl

end

/-- From the empty index of a source on, whatever is entered and asked in whatever order, no run leaves its
arrays, overflows or goes on forever. Each match that is found lies within the largest distance, has a
length that is allowed, repeats the source, and ends where the source or the longest length does or where
the next bytes differ. -/
theorem askAll_sound (src : Bytes) (requests : List Request) (small : src.size < 2 ^ maxArrayLog)
    (within : ∀ request ∈ requests, request.Within src.size) :
    ∃ start answers f, Finder.new src = pure start ∧ start.askAll requests = pure (answers, f) ∧
      List.Forall₂ (Request.Answered src start.mask) requests answers := by
  have empty : (Index.empty src (Geometry.ofSize src.size)).Faithful := Index.faithful_empty
  obtain ⟨answers, hrun, hanswers⟩ := exists_askAll small empty within
  exact ⟨_, answers, _, Finder.new_eq small, hrun, hanswers⟩

/-- Back to the start after a jump behind the end, and a question at the last position that is allowed. -/
theorem askAll_sound_back :
    let src : Bytes := #[97, 98, 99, 97, 98, 99, 97, 98, 99, 97, 98, 99]
    let requests := [Request.find 6 8, .insert (2 ^ 64 - 1), .find 3 1, .reaches 14 4 2, .find 8 5]
    src.size < 2 ^ maxArrayLog ∧ (∀ request ∈ requests, request.Within src.size) ∧
      ∃ start answers f, Finder.new src = pure start ∧ start.askAll requests = pure (answers, f) ∧
        List.Forall₂ (Request.Answered src start.mask) requests answers := by
  intro src requests
  have small : src.size < 2 ^ maxArrayLog := by decide
  have within : ∀ request ∈ requests, request.Within src.size := by decide
  exact ⟨small, within, askAll_sound src requests small within⟩

end Machine

end LzCodec
