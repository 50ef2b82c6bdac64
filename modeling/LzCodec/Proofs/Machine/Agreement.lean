import LzCodec.Proofs.Machine.Queries
import LzCodec.Proofs.Search.Refinement

/-!
# Two questions, one search

Wherever an index is asked and whatever it was asked before, a length is reached exactly if the search
finds a match of this length, and searching deeper changes nothing or finds a longer match further back
(`questions_agree`). The index on words answers in the same way after any run that ended.
-/

namespace LzCodec

namespace Machine

variable {src : Bytes} {index : Index src (Geometry.ofSize src.size)}

/-- Too near the end nothing is looked at, unless the end of the match overflows. -/
theorem find_of_far {pos : Nat} (hfar : src.size + 2 < pos) {depth : Nat} {found : Option Match × Finder}
    (hrun : (Finder.of index).find pos depth = pure found) : found.2 = Finder.of index := by
  have hmin : minMatch = 4 := rfl
  have hsize : (Finder.of index).src.size = src.size := rfl
  unfold Finder.find at hrun
  split at hrun
  · rw [← pure_inj hrun]
  · obtain ⟨stop, hstop, hrun⟩ := exists_of_bind hrun
    obtain rfl := eq_of_add hstop
    rw [if_pos (by omega)] at hrun
    rw [← pure_inj hrun]

theorem reaches_of_far {pos : Nat} (hfar : src.size + 2 < pos) {length depth : Nat}
    {reached : Bool × Finder} (hrun : (Finder.of index).reaches pos length depth = pure reached) :
    reached.2 = Finder.of index := by
  have hsize : (Finder.of index).src.size = src.size := rfl
  unfold Finder.reaches at hrun
  dsimp only at hrun
  split at hrun
  · rw [← pure_inj hrun]
  · obtain ⟨stop, hstop, hrun⟩ := exists_of_bind hrun
    obtain rfl := eq_of_add hstop
    rw [if_pos (by omega)] at hrun
    rw [← pure_inj hrun]

/-- The index that a far question leaves is the one that was asked. -/
theorem leave_of_far {request : Request} (hfar : ¬ request.Within src.size) :
    index.leave request = index := by
  cases request with
  | insert target => exact absurd trivial hfar
  | find pos depth =>
    have hpos : src.size + 2 < pos := Nat.lt_of_not_le hfar
    have hstop : ¬ (0 < depth ∧ pos + minMatch ≤ src.size) := by omega
    rw [Index.leave, Index.find, dif_neg hstop]
  | reaches pos length depth =>
    have hpos : src.size + 2 < pos := Nat.lt_of_not_le hfar
    have hstop : ¬ (0 < depth ∧ max length minMatch ≤ maxMatch ∧ pos + max length minMatch ≤ src.size) := by
      omega
    exact congrArg Prod.snd (dif_neg hstop)

/-- A question that ends leaves the index on words as it leaves the index. -/
theorem leave_of_ask (small : src.size < 2 ^ maxArrayLog) (h : index.Faithful) {request : Request}
    {answer : Answer} {f : Finder} (hrun : (Finder.of index).ask request = pure (answer, f)) :
    f = Finder.of (index.leave request) := by
  by_cases within : request.Within src.size
  · rw [ask_eq small h within] at hrun
    exact congrArg Prod.snd (pure_inj hrun).symm
  · rw [leave_of_far within]
    cases request with
    | insert target => exact absurd trivial within
    | find pos depth =>
      obtain ⟨found, hfind, hrest⟩ := exists_of_bind hrun
      exact (congrArg Prod.snd (pure_inj hrest)).symm.trans (find_of_far (Nat.lt_of_not_le within) hfind)
    | reaches pos length depth =>
      obtain ⟨reached, hreaches, hrest⟩ := exists_of_bind hrun
      exact (congrArg Prod.snd (pure_inj hrest)).symm.trans
        (reaches_of_far (Nat.lt_of_not_le within) hreaches)

/-- Every state of the index on words stands for a state of the index. -/
theorem leave_of_askAll (small : src.size < 2 ^ maxArrayLog) (h : index.Faithful)
    {requests : List Request} {answers : List Answer} {f : Finder}
    (hrun : (Finder.of index).askAll requests = pure (answers, f)) :
    f = Finder.of (requests.foldl Index.leave index) := by
  induction requests generalizing index answers with
  | nil => exact (congrArg Prod.snd (pure_inj hrun)).symm
  | cons request rest ih =>
    obtain ⟨⟨answer, f'⟩, hask, hrun⟩ := exists_of_bind hrun
    obtain ⟨⟨others, last⟩, hrest, hend⟩ := exists_of_bind hrun
    obtain rfl := leave_of_ask small h hask
    have hlast : last = f := congrArg Prod.snd (pure_inj hend)
    subst hlast
    exact ih (h.leave request) hrest

/-- Whatever was entered and asked before, a length is reached exactly if the search finds a match that
is as long, and a deeper search finds the same match or one that is longer and further back. On words,
after every run that ended, a position up to two bytes behind the end has these answers too. -/
theorem questions_agree (src : Bytes) (requests : List Request) (pos : Nat) :
    let index := Index.after src requests
    (∀ length depth, (Index.reaches pos length depth index).1 = true ↔
      ∃ m, (Index.find pos depth index).1 = some m ∧ max length minMatch ≤ m.length) ∧
    (∀ shallow deep m, shallow ≤ deep → (Index.find pos shallow index).1 = some m →
      ∃ m', (Index.find pos deep index).1 = some m' ∧
        (m' = m ∨ m.length < m'.length ∧ m.distance < m'.distance)) ∧
    (src.size < 2 ^ maxArrayLog → pos ≤ src.size + 2 → ∀ start answers f,
      Finder.new src = pure start → start.askAll requests = pure (answers, f) → ∀ length depth,
        (∃ f', f.find pos depth = pure ((Index.find pos depth index).1, f')) ∧
        ∃ f', f.reaches pos length depth = pure ((Index.reaches pos length depth index).1, f')) := by
  intro index
  refine ⟨fun length depth => index.reaches_iff_find length depth,
    fun shallow deep m hle hm => index.find_deeper hle hm, ?_⟩
  intro small hpos start answers f hnew hrun length depth
  have hstart : start = Finder.of (Index.ofSource src) := pure_inj (hnew.symm.trans (Finder.new_eq small))
  subst hstart
  have hf : f = Finder.of index := leave_of_askAll small Index.faithful_empty hrun
  have hfaithful : index.Faithful := Index.faithful_after src requests
  subst hf
  exact ⟨⟨_, find_eq small hfaithful hpos depth⟩, ⟨_, reaches_eq small hfaithful hpos length depth⟩⟩

/-- Eight bytes that stand at the start and, but for the last four, once more in between: looking at one
position finds the four, looking at more of them the eight. The index had run ahead to the end before. -/
theorem questions_agree_older :
    let src : Bytes := #[97, 98, 99, 100, 101, 102, 103, 104, 95, 97, 98, 99, 100, 90, 95, 97, 98, 99, 100,
      101, 102, 103, 104]
    let requests := [Request.insert (2 ^ 64 - 1), .find 3 1, .reaches 9 6 2]
    let index := Index.after src requests
    (Index.find 15 1 index).1 = some ⟨6, 4⟩ ∧
      (∃ m', (Index.find 15 8 index).1 = some m' ∧ 4 < m'.length ∧ 6 < m'.distance) ∧
      (Index.reaches 15 8 8 index).1 = true ∧
      ∃ start answers f, Finder.new src = pure start ∧ start.askAll requests = pure (answers, f) ∧
        ∃ f', f.find 15 8 = pure (some ⟨15, 8⟩, f') := by
  intro src requests index
  have small : src.size < 2 ^ maxArrayLog := by decide
  have within : ∀ request ∈ requests, request.Within src.size := by decide
  have hfaithful : index.Faithful := Index.faithful_after src requests
  have hwindow : src.size ≤ (Geometry.ofSize src.size).window := Geometry.le_window (by decide)
  have hfind (depth : Nat) := Index.find_eq_longestOf hfaithful (show 15 + minMatch ≤ src.size by decide)
    (.inl hwindow) (Geometry.two_le_window src.size) depth
  have hshallow : (Index.find 15 1 index).1 = some ⟨6, 4⟩ := (hfind 1).trans (by decide +kernel)
  have hdeep : (Index.find 15 8 index).1 = some ⟨15, 8⟩ := (hfind 8).trans (by decide +kernel)
  obtain ⟨answers, hrun, -⟩ := exists_askAll small Index.faithful_empty within
  obtain ⟨hreaches, hdeeper, hwords⟩ := questions_agree src requests 15
  have hanswer := (hwords small (by decide) _ _ _ (Finder.new_eq small) hrun 8 8).1
  rw [hdeep] at hanswer
  refine ⟨hshallow, ?_, (hreaches 8 8).2 ⟨_, hdeep, by decide⟩, _, answers, _, Finder.new_eq small, hrun,
    hanswer⟩
  obtain ⟨m', hm', hsame | hbetter⟩ := hdeeper 1 8 ⟨6, 4⟩ (by decide) hshallow
  · rw [hdeep, hsame] at hm'
    exact absurd hm' (by decide)
  · exact ⟨m', hm', hbetter⟩

end Machine

end LzCodec
