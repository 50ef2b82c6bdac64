import Mathlib.Data.List.MinMax
import Mathlib.Data.Nat.Find
import LzCodec.Search.Finder

/-!
# The longest repeat

What a search is meant to find, said without an index: `longestOf` looks at all candidates and takes
the first of those that agree longest. One visit of the search keeps just that for the candidates seen
so far (`foldl_better`), whatever its shortcuts.
-/

namespace LzCodec

/-- The number of bytes, at most `limit`, in which two places agree. -/
def Bytes.common (src : Bytes) (earlier later limit : Nat) : Nat :=
  Nat.findGreatest (fun n => ∀ i < n, src[earlier + i]? = src[later + i]?) limit

namespace Bytes

variable {src : Bytes} {earlier later limit : Nat}

theorem common_le : src.common earlier later limit ≤ limit := Nat.findGreatest_le _

theorem getElem?_of_lt_common {i : Nat} (h : i < src.common earlier later limit) :
    src[earlier + i]? = src[later + i]? := by
  have none_agree : ∀ i < 0, src[earlier + i]? = src[later + i]? := by
    intro i hi
    cases hi
  exact Nat.findGreatest_spec (P := fun n => ∀ i < n, src[earlier + i]? = src[later + i]?)
    (Nat.zero_le _) none_agree i h

theorem le_common {n : Nat} (hn : n ≤ limit) (h : ∀ i < n, src[earlier + i]? = src[later + i]?) :
    n ≤ src.common earlier later limit :=
  Nat.le_findGreatest hn h

theorem common_eq {n : Nat} (hn : n ≤ limit) (heq : ∀ i < n, src[earlier + i]? = src[later + i]?)
    (hne : n < limit → src[earlier + n]? ≠ src[later + n]?) :
    src.common earlier later limit = n := by
  have hle := le_common hn heq
  by_contra hneq
  have hlt : n < src.common earlier later limit := by omega
  exact hne (Nat.lt_of_lt_of_le hlt common_le) (getElem?_of_lt_common hlt)

theorem agreeFrom_eq_common (h : earlier < later) (hl : later + limit ≤ src.size) {n : Nat}
    (hn : n ≤ limit) (known : ∀ i < n, src[earlier + i]? = src[later + i]?) :
    src.agreeFrom earlier later limit h hl n = src.common earlier later limit := by
  induction hm : limit - n using Nat.strongRecOn generalizing n with
  | ind m ih =>
    rw [agreeFrom]
    split
    · rename_i hlt
      have he : src[earlier + n]? = some src[earlier + n] := Array.getElem?_eq_getElem (by omega)
      have hl : src[later + n]? = some src[later + n] := Array.getElem?_eq_getElem (by omega)
      split
      · rename_i heq
        refine ih (limit - (n + 1)) (by omega) (by omega) ?_ rfl
        intro i hi
        by_cases hlast : i = n
        · rw [hlast, he, hl, beq_iff_eq.1 heq]
        · exact known i (by omega)
      · rename_i hne
        refine (common_eq hn known fun _ => ?_).symm
        rw [he, hl, ne_eq, Option.some.injEq]
        exact fun heq => hne (beq_iff_eq.2 heq)
    · rename_i hge
      have hlim : n = limit := by omega
      exact (common_eq (Nat.le_refl _) (hlim ▸ known) fun h => absurd h (Nat.lt_irrefl _)).symm

theorem agree_eq_common (h : earlier < later) (hl : later + limit ≤ src.size) :
    src.agree earlier later limit h hl = src.common earlier later limit := by
  refine agreeFrom_eq_common h hl (Nat.zero_le _) ?_
  intro i hi
  cases hi

end Bytes

/-- Two places that agree in `length` bytes are known by any limit that allows so many. -/
theorem Bytes.common_eq_iff {src : Bytes} {earlier later length limit : Nat} (h : length ≤ limit) :
    src.common earlier later length = length ↔ length ≤ src.common earlier later limit := by
  constructor
  · intro heq
    apply le_common h
    intro i hi
    rw [← heq] at hi
    exact getElem?_of_lt_common hi
  · intro hle
    apply Nat.le_antisymm common_le
    apply le_common (Nat.le_refl _)
    intro i hi
    exact getElem?_of_lt_common (Nat.lt_of_lt_of_le hi hle)

/-- The longest repeat that a match at `pos` may have. -/
def Bytes.matchLimit (src : Bytes) (pos : Nat) : Nat := min maxMatch (src.size - pos)

/-- The first candidate that agrees longest with `pos`, if it agrees for the shortest length. -/
def longestOf (src : Bytes) (pos : Nat) (candidates : List Nat) : Option Match :=
  (candidates.argmax fun c => src.common c pos (src.matchLimit pos)).bind fun c =>
    if minMatch ≤ src.common c pos (src.matchLimit pos) then
      some ⟨pos - c, src.common c pos (src.matchLimit pos)⟩
    else
      none

namespace Index

/-- What is left of a visit without its shortcuts. -/
def better (src : Bytes) (pos : Nat) (best : Option Match) (c : Nat) : Option Match :=
  if lengthToBeat best < src.common c pos (src.matchLimit pos) then
    some ⟨pos - c, src.common c pos (src.matchLimit pos)⟩
  else
    best

theorem better_none (src : Bytes) (pos c : Nat) :
    better src pos none c =
      if minMatch ≤ src.common c pos (src.matchLimit pos) then
        some ⟨pos - c, src.common c pos (src.matchLimit pos)⟩
      else
        none := by
  have hmin : minMatch - 1 < src.common c pos (src.matchLimit pos) ↔
      minMatch ≤ src.common c pos (src.matchLimit pos) := by
    simp only [minMatch]
    omega
  simp only [better, lengthToBeat, hmin]

theorem better_some (src : Bytes) (pos c : Nat) (m : Match) :
    better src pos (some m) c =
      if m.length < src.common c pos (src.matchLimit pos) then
        some ⟨pos - c, src.common c pos (src.matchLimit pos)⟩
      else
        some m :=
  rfl

/-- A candidate that differs in the byte behind the length to beat cannot be better. -/
theorem improve_eq_better {src : Bytes} {pos : Nat} (hl : pos + src.matchLimit pos ≤ src.size)
    (best : Option Match) {c : Nat} (hc : c < pos) :
    improve src pos (src.matchLimit pos) hl best c hc = better src pos best c := by
  have hle : src.common c pos (src.matchLimit pos) ≤ src.matchLimit pos := Bytes.common_le
  rw [improve, better]
  dsimp only
  split
  · rename_i hlt
    split
    · rw [Bytes.agree_eq_common]
    · rename_i hne
      rw [if_neg]
      intro hbeat
      have heq := Bytes.getElem?_of_lt_common hbeat
      rw [Array.getElem?_eq_getElem (by omega), Array.getElem?_eq_getElem (by omega),
        Option.some.injEq] at heq
      exact hne (beq_iff_eq.2 heq)
  · rw [if_neg (by omega)]

theorem longestOf_concat (src : Bytes) (pos : Nat) (candidates : List Nat) (c : Nat) :
    longestOf src pos (candidates ++ [c]) = better src pos (longestOf src pos candidates) c := by
  rw [longestOf, longestOf, List.argmax_concat]
  cases candidates.argmax fun c => src.common c pos (src.matchLimit pos) with
  | none => simp only [Option.bind_some, Option.bind_none, better_none]
  | some b =>
    by_cases hb : minMatch ≤ src.common b pos (src.matchLimit pos)
    · simp only [Option.bind_some, if_pos hb, better_some]
      split
      · rename_i hlt
        simp only [Option.bind_some, if_pos (Nat.le_trans hb (Nat.le_of_lt hlt))]
      · simp only [Option.bind_some, if_pos hb]
    · simp only [Option.bind_some, if_neg hb, better_none]
      split
      · simp only [Option.bind_some]
      · have hc : ¬ minMatch ≤ src.common c pos (src.matchLimit pos) := by omega
        simp only [Option.bind_some, if_neg hb, if_neg hc]

/-- Visiting candidates one after the other leaves the longest. -/
theorem foldl_better (src : Bytes) (pos : Nat) (candidates : List Nat) :
    candidates.foldl (better src pos) none = longestOf src pos candidates := by
  induction candidates using List.reverseRecOn with
  | nil => rfl
  | append_singleton candidates c ih => rw [List.foldl_concat, ih, longestOf_concat]

end Index

section

variable {src : Bytes} {pos : Nat} {candidates : List Nat}

theorem longestOf_eq_some {m : Match} (h : longestOf src pos candidates = some m) :
    ∃ c ∈ candidates, m = ⟨pos - c, src.common c pos (src.matchLimit pos)⟩ ∧
      minMatch ≤ m.length ∧
      ∀ c' ∈ candidates, src.common c' pos (src.matchLimit pos) ≤ m.length := by
  obtain ⟨c, hc, hm⟩ := Option.bind_eq_some_iff.1 h
  split at hm
  · rename_i hlong
    obtain rfl := Option.some.inj hm
    exact ⟨c, List.argmax_mem hc, rfl, hlong, fun c' hc' => List.le_of_mem_argmax hc' hc⟩
  · cases hm

/-- The longest match has a length if any candidate has it. -/
theorem exists_longestOf_iff {length : Nat} (hmin : minMatch ≤ length) :
    (∃ m, longestOf src pos candidates = some m ∧ length ≤ m.length) ↔
      ∃ c ∈ candidates, length ≤ src.common c pos (src.matchLimit pos) := by
  constructor
  · rintro ⟨m, hm, hlength⟩
    obtain ⟨c, hc, rfl, -, -⟩ := longestOf_eq_some hm
    exact ⟨c, hc, hlength⟩
  · rintro ⟨c, hc, hlength⟩
    cases hbest : candidates.argmax fun c => src.common c pos (src.matchLimit pos) with
    | none =>
      rw [List.argmax_eq_none] at hbest
      subst hbest
      cases hc
    | some b =>
      have hle : length ≤ src.common b pos (src.matchLimit pos) :=
        Nat.le_trans hlength (List.le_of_mem_argmax hc hbest)
      refine ⟨⟨pos - b, src.common b pos (src.matchLimit pos)⟩, ?_, hle⟩
      rw [longestOf, hbest, Option.bind_some, if_pos (Nat.le_trans hmin hle)]

/-- Candidates that lie further back leave the longest match as it is, or add one that is longer and
further back. -/
theorem longestOf_append {further : List Nat} (h : (candidates ++ further).Pairwise (· > ·))
    (before : ∀ c ∈ candidates ++ further, c ≤ pos) {m : Match}
    (hm : longestOf src pos candidates = some m) :
    ∃ m', longestOf src pos (candidates ++ further) = some m' ∧
      (m' = m ∨ m.length < m'.length ∧ m.distance < m'.distance) := by
  induction further using List.reverseRecOn with
  | nil => exact ⟨m, by simpa using hm, .inl rfl⟩
  | append_singleton further last ih =>
    rw [← List.append_assoc] at h before ⊢
    obtain ⟨hfront, -, hlast⟩ := List.pairwise_append.1 h
    obtain ⟨best, hbest, himproved⟩ := ih hfront fun c hc => before c (List.mem_append_left _ hc)
    obtain ⟨c, hc, hbest', -, -⟩ := longestOf_eq_some hbest
    have hback : last < c := hlast c hc last (List.mem_singleton_self last)
    have hpos : c ≤ pos := before c (List.mem_append_left _ hc)
    have hdistance : best.distance = pos - c := congrArg Match.distance hbest'
    rw [Index.longestOf_concat, hbest, Index.better_some]
    split
    · rename_i hlonger
      refine ⟨_, rfl, .inr ?_⟩
      dsimp only
      rcases himproved with rfl | ⟨hlength, hdist⟩
      · exact ⟨hlonger, by omega⟩
      · exact ⟨Nat.lt_trans hlength hlonger, by omega⟩
    · exact ⟨best, rfl, himproved⟩

end

end LzCodec
