import LzCodec.Proofs.Search.Longest

/-!
# What a match is

Whatever state the index is in, each candidate is compared byte by byte. So a match is a repeat of the
source even where a chain was overwritten, and it ends only where it has to (`maximal_of_find`).
-/

namespace LzCodec

/-- The source at `pos` repeats what stands `distance` back. -/
structure Match.Genuine (src : Bytes) (pos : Nat) (m : Match) : Prop where
  distance_pos : 1 ≤ m.distance
  distance_le : m.distance ≤ pos
  minMatch_le : minMatch ≤ m.length
  end_le : pos + m.length ≤ src.size
  same : ∀ i < m.length, src[pos - m.distance + i]? = src[pos + i]?

/-- A repeat from at most `reach` back. It has the longest length that is allowed, or the bytes behind
it differ. -/
structure Match.Maximal (src : Bytes) (reach pos : Nat) (m : Match) : Prop
    extends m.Genuine src pos where
  distance_le_reach : m.distance ≤ reach
  length_le : m.length ≤ src.matchLimit pos
  stuck : m.length = src.matchLimit pos ∨
    src[pos - m.distance + m.length]? ≠ src[pos + m.length]?

/-- Behind the bytes in which two places agree, they differ. -/
theorem Bytes.ne_of_common_lt {src : Bytes} {earlier later limit : Nat}
    (h : src.common earlier later limit < limit) :
    src[earlier + src.common earlier later limit]? ≠ src[later + src.common earlier later limit]? := by
  intro heq
  have hlonger : src.common earlier later limit + 1 ≤ src.common earlier later limit := by
    apply le_common h
    intro i hi
    rcases Nat.lt_succ_iff_lt_or_eq.1 hi with hi | rfl
    · exact getElem?_of_lt_common hi
    · exact heq
  omega

namespace Index

variable {src : Bytes} {g : Geometry} {pos : Nat}

/-- A better match is as long as its candidate allows. -/
theorem maximal_better (hfits : pos + minMatch ≤ src.size) {best : Option Match} {c : Nat}
    (hc : c < pos) (hnear : pos - c < g.window)
    (h : ∀ m, best = some m → m.Maximal src g.maxDistance pos) :
    ∀ m, better src pos best c = some m → m.Maximal src g.maxDistance pos := by
  intro m hm
  unfold better at hm
  split at hm
  · rename_i hlonger
    obtain rfl := Option.some.inj hm
    have hbeat : minMatch - 1 ≤ lengthToBeat best := by
      cases best with
      | none => exact Nat.le_refl _
      | some b => exact Nat.le_trans (Nat.sub_le _ _) (h b rfl).minMatch_le
    have hlimit : src.common c pos (src.matchLimit pos) ≤ src.matchLimit pos := Bytes.common_le
    have hrest : src.matchLimit pos ≤ src.size - pos := Nat.min_le_right _ _
    have hback : pos - (pos - c) = c := by omega
    simp only [minMatch] at hbeat hfits
    refine ⟨⟨?_, Nat.sub_le _ _, ?_, ?_, ?_⟩, Nat.le_sub_one_of_lt hnear, hlimit, ?_⟩
    · dsimp only
      omega
    · simp only [minMatch]
      omega
    · dsimp only
      omega
    · intro i hi
      rw [hback]
      exact Bytes.getElem?_of_lt_common hi
    · dsimp only
      rw [hback]
      -- the comparison ends at the limit or where the bytes differ
      exact (Nat.eq_or_lt_of_le hlimit).imp_right Bytes.ne_of_common_lt
  · exact h m hm

/-- A match is a repeat that cannot go on, whatever stands in the index. -/
theorem maximal_of_find {depth : Nat} {index : Index src g} {m : Match}
    (h : (find pos depth index).1 = some m) : m.Maximal src g.maxDistance pos := by
  simp only [find] at h
  split at h
  · rename_i hfits
    have hlimit : pos + src.matchLimit pos ≤ src.size := by
      have := hfits.2
      have : src.matchLimit pos ≤ src.size - pos := Nat.min_le_right _ _
      omega
    have start : ∀ m, (none : Option Match) = some m → m.Maximal src g.maxDistance pos := by
      intro m hm
      cases hm
    refine walk_keeps (P := fun best => ∀ m, best = some m → m.Maximal src g.maxDistance pos)
      ?_ _ _ start m h
    intro best c hc hnear hbest
    have hnext := maximal_better hfits.2 hc hnear hbest
    rw [← improve_eq_better hlimit best hc] at hnext
    exact hnext
  · cases h

/-- Where a length is reached, there is a repeat of this length, whatever stands in the index. -/
theorem genuine_of_reaches {length depth : Nat} {index : Index src g}
    (h : (reaches pos length depth index).1 = true) :
    ∃ m : Match, m.Genuine src pos ∧ m.distance ≤ g.maxDistance ∧ length ≤ m.length := by
  simp only [reaches] at h
  split at h
  · rename_i hasked
    have hend := hasked.2.2
    have start : false = true →
        ∃ m : Match, m.Genuine src pos ∧ m.distance ≤ g.maxDistance ∧ length ≤ m.length := by
      intro hfalse
      cases hfalse
    refine walk_keeps (P := fun found => found = true →
      ∃ m : Match, m.Genuine src pos ∧ m.distance ≤ g.maxDistance ∧ length ≤ m.length)
      ?_ _ _ start h
    intro _ c hc hnear _ hfound
    obtain ⟨-, hagree⟩ := Bool.and_eq_true_iff.1 hfound
    rw [beq_iff_eq, Bytes.agree_eq_common] at hagree
    have hback : pos - (pos - c) = c := by omega
    refine ⟨⟨pos - c, max length minMatch⟩, ⟨?_, Nat.sub_le _ _, Nat.le_max_right _ _, hend, ?_⟩,
      Nat.le_sub_one_of_lt hnear, Nat.le_max_left _ _⟩
    · dsimp only
      omega
    · intro i hi
      rw [hback]
      exact Bytes.getElem?_of_lt_common (hagree.symm ▸ hi)
  · cases h

end Index

end LzCodec
