import LzCodec.Proofs.Search.Longest

/-!
# Trails

What a walk is for does not change where it leads: it goes along a trail, of which the budget takes the
front and a visit may leave a rest (`walk_eq_visitAll`). So both questions look at the same positions in
any state of the index, also where a chain was overwritten or leads to positions behind the one that is
asked about (`reaches_iff_find`), and a larger budget only adds positions further back (`find_deeper`).
-/

namespace LzCodec

namespace Index

variable {src : Bytes} {g : Geometry}

/-- Visits one position after the other until `stop` holds. -/
def visitAll {β : Type} (visit : β → Nat → β) (stop : β → Bool) : List Nat → β → β
  | [], acc => acc
  | c :: rest, acc =>
    if stop (visit acc c) then visit acc c else visitAll visit stop rest (visit acc c)

/-- The positions that a walk from the one before `entry` leads to, with no end but that of the chain
and of the window. -/
def trail (index : Index src g) (pos entry : Nat) : List Nat :=
  match entry with
  | 0 => []
  | c + 1 =>
    if c < pos then
      if g.window ≤ pos - c then [] else c :: trail index pos (index.previous c)
    else
      trail index pos (index.previous c)
termination_by entry
decreasing_by all_goals exact Nat.lt_succ_of_le (index.previous_le c)

theorem lt_of_mem_trail {index : Index src g} {pos entry c : Nat} (h : c ∈ index.trail pos entry) :
    c < pos ∧ c < entry := by
  induction entry using Nat.strongRecOn with
  | ind entry ih =>
    cases entry with
    | zero => simp [trail] at h
    | succ d =>
      have hback := index.previous_le d
      rw [trail] at h
      split at h
      · split at h
        · cases h
        · rcases List.mem_cons.1 h with rfl | h
          · exact ⟨‹_›, Nat.lt_succ_self _⟩
          · obtain ⟨hpos, hentry⟩ := ih _ (Nat.lt_succ_of_le hback) h
            exact ⟨hpos, by omega⟩
      · obtain ⟨hpos, hentry⟩ := ih _ (Nat.lt_succ_of_le hback) h
        exact ⟨hpos, by omega⟩

theorem trail_descends (index : Index src g) (pos entry : Nat) :
    (index.trail pos entry).Pairwise (· > ·) := by
  induction entry using Nat.strongRecOn with
  | ind entry ih =>
    cases entry with
    | zero => simp [trail]
    | succ c =>
      have hback := Nat.lt_succ_of_le (index.previous_le c)
      rw [trail]
      split
      · split
        · exact .nil
        · refine List.pairwise_cons.2 ⟨?_, ih _ hback⟩
          intro d hd
          exact Nat.lt_of_lt_of_le (lt_of_mem_trail hd).2 (index.previous_le c)
      · exact ih _ hback

/-- A walk visits its trail, as far as the budget allows and until it stops. -/
theorem walk_eq_visitAll {β : Type} (index : Index src g) {pos : Nat} {visit : β → (c : Nat) → c < pos → β}
    {visit' : β → Nat → β} (hvisit : ∀ acc c hc, visit acc c hc = visit' acc c) (stop : β → Bool)
    (entry budget : Nat) (acc : β) :
    index.walk pos visit stop entry budget acc =
      visitAll visit' stop ((index.trail pos entry).take budget) acc := by
  induction entry using Nat.strongRecOn generalizing budget acc with
  | ind entry ih =>
    cases entry with
    | zero => simp [walk, trail, visitAll]
    | succ c =>
      have hback := Nat.lt_succ_of_le (index.previous_le c)
      cases budget with
      | zero => simp [walk, visitAll]
      | succ budget =>
        rw [walk, trail, if_neg (Nat.succ_ne_zero budget)]
        by_cases hc : c < pos
        · by_cases hfar : g.window ≤ pos - c
          · simp [hc, hfar, visitAll]
          · simp [hc, hfar, visitAll, hvisit, ih _ hback]
        · simp [hc, ih _ hback]

/-- Once a match has the longest length, no candidate is better. -/
theorem visitAll_better (src : Bytes) (pos : Nat) (cs : List Nat) (best : Option Match) :
    visitAll (better src pos) (fun best => lengthToBeat best == src.matchLimit pos) cs best =
      cs.foldl (better src pos) best := by
  induction cs generalizing best with
  | nil => rfl
  | cons c rest ih =>
    rw [visitAll, List.foldl_cons]
    split
    · rename_i hfull
      have hlimit : lengthToBeat (better src pos best c) = src.matchLimit pos := beq_iff_eq.1 hfull
      have hkept : ∀ c', better src pos (better src pos best c) c' = better src pos best c := by
        intro c'
        rw [better, hlimit, if_neg (Nat.not_lt.2 Bytes.common_le)]
      clear ih
      induction rest with
      | nil => rfl
      | cons c' rest ih => rw [List.foldl_cons, hkept c', ← ih]
    · exact ih _

/-- Visits that stop at the first candidate with a property find out whether there is one. -/
theorem visitAll_id (p : Nat → Bool) (candidates : List Nat) :
    visitAll (fun _ c => p c) id candidates false = candidates.any p := by
  induction candidates with
  | nil => rfl
  | cons c rest ih =>
    rw [visitAll, List.any_cons, id_eq]
    cases hc : p c with
    | false => simpa using ih
    | true => rfl

/-- One visit of a probe, without the look at the last byte. -/
theorem probe_eq {pos length c : Nat} (hc : c < pos) (hmin : minMatch ≤ length)
    (hfits : pos + length ≤ src.size) (hle : length ≤ src.matchLimit pos)
    (hlast : c + length - 1 < src.size) (hlast' : pos + length - 1 < src.size) :
    (src[c + length - 1] == src[pos + length - 1] && src.agree c pos length hc hfits == length) =
      decide (length ≤ src.common c pos (src.matchLimit pos)) := by
  rw [Bytes.agree_eq_common, Bool.eq_iff_iff]
  simp only [Bool.and_eq_true, beq_iff_eq, decide_eq_true_eq]
  rw [Bytes.common_eq_iff hle]
  constructor
  · exact And.right
  · intro hlong
    refine ⟨?_, hlong⟩
    have hpos : 0 < length := Nat.lt_of_lt_of_le (by decide) hmin
    have heq := Bytes.getElem?_of_lt_common (Nat.lt_of_lt_of_le (Nat.sub_one_lt_of_lt hpos) hlong)
    rw [← Nat.add_sub_assoc hpos, ← Nat.add_sub_assoc hpos, Array.getElem?_eq_getElem hlast,
      Array.getElem?_eq_getElem hlast'] at heq
    exact Option.some.inj heq

/-- The positions that a question about `pos` looks at, the last one first; none if `pos` is too near the
end. -/
def seen (index : Index src g) (pos : Nat) : List Nat :=
  if h : pos + minMatch ≤ src.size then
    have : src.bucket g.hashLog pos h < 2 ^ g.hashLog := src.bucket_lt pos h g.hashLog_le
    (index.insertUpTo pos).trail pos (index.insertUpTo pos).head[src.bucket g.hashLog pos h]
  else
    []

variable (index : Index src g) {pos : Nat}

theorem seen_descends (pos : Nat) : (index.seen pos).Pairwise (· > ·) := by
  unfold seen
  split
  · exact trail_descends _ _ _
  · exact .nil

theorem lt_of_mem_seen {c : Nat} (h : c ∈ index.seen pos) : c < pos := by
  unfold seen at h
  split at h
  · exact (lt_of_mem_trail h).1
  · cases h

theorem fold_eq_visitAll {β : Type} (hfits : pos + minMatch ≤ src.size)
    {visit : β → (c : Nat) → c < pos → β} {visit' : β → Nat → β}
    (hvisit : ∀ acc c hc, visit acc c hc = visit' acc c) (stop : β → Bool) (budget : Nat) (acc : β) :
    (index.insertUpTo pos).fold pos hfits visit stop budget acc =
      visitAll visit' stop ((index.seen pos).take budget) acc := by
  unfold fold
  dsimp only
  rw [walk_eq_visitAll _ hvisit, seen, dif_pos hfits]

/-- A search finds the longest match among the positions that it sees. -/
theorem find_eq_longestOf_seen (depth : Nat) :
    (find pos depth index).1 = longestOf src pos ((index.seen pos).take depth) := by
  rw [find]
  split
  · rename_i hgo
    have hlimit : pos + src.matchLimit pos ≤ src.size := by
      have : src.matchLimit pos ≤ src.size - pos := Nat.min_le_right _ _
      omega
    unfold longest
    refine (index.fold_eq_visitAll hgo.2 (fun best c hc => improve_eq_better hlimit best hc) _ _ _).trans ?_
    exact (visitAll_better src pos _ none).trans (foldl_better src pos _)
  · rename_i hstop
    have hnone : (index.seen pos).take depth = [] := by
      by_cases hfits : pos + minMatch ≤ src.size
      · have hdepth : depth = 0 := by omega
        simp [hdepth]
      · simp [seen, hfits]
    simp [hnone, longestOf]

/-- A probe finds out whether one of the positions that it sees agrees for the length. -/
theorem reaches_iff_seen (length depth : Nat) :
    (reaches pos length depth index).1 = true ↔ ∃ c ∈ (index.seen pos).take depth,
      max length minMatch ≤ src.common c pos (src.matchLimit pos) := by
  have hmin : minMatch ≤ max length minMatch := Nat.le_max_right _ _
  rw [reaches]
  dsimp only
  split
  · rename_i hgo
    obtain ⟨-, hmax, hfits⟩ := hgo
    have hle : max length minMatch ≤ src.matchLimit pos := by
      rw [Bytes.matchLimit]
      omega
    unfold hasRepeat
    rw [index.fold_eq_visitAll (by omega) (fun _ c hc => probe_eq hc hmin hfits hle _ _), visitAll_id]
    simp
  · rename_i hstop
    constructor
    · intro hfalse
      cases hfalse
    · rintro ⟨c, hc, hlong⟩
      have hlimit := Nat.le_trans hlong Bytes.common_le
      have hdepth : 0 < depth := by
        by_contra hzero
        rw [Nat.eq_zero_of_not_pos hzero, List.take_zero] at hc
        cases hc
      rw [Bytes.matchLimit] at hlimit
      have hpos : 0 < minMatch := by decide
      exact absurd ⟨hdepth, by omega, by omega⟩ hstop

/-- In any state of the index, a probe is answered as the search would answer it. -/
theorem reaches_iff_find (length depth : Nat) :
    (reaches pos length depth index).1 = true ↔
      ∃ m, (find pos depth index).1 = some m ∧ max length minMatch ≤ m.length := by
  rw [reaches_iff_seen, find_eq_longestOf_seen, exists_longestOf_iff (Nat.le_max_right _ _)]

/-- In any state of the index, a deeper search finds the same match, or one that is longer and further
back. -/
theorem find_deeper {shallow deep : Nat} (h : shallow ≤ deep) {m : Match}
    (hm : (find pos shallow index).1 = some m) :
    ∃ m', (find pos deep index).1 = some m' ∧
      (m' = m ∨ m.length < m'.length ∧ m.distance < m'.distance) := by
  rw [find_eq_longestOf_seen] at hm ⊢
  have hfront : (index.seen pos).take shallow <+: (index.seen pos).take deep :=
    List.take_prefix_take_left h
  obtain ⟨further, hall⟩ := hfront
  have hdescends : ((index.seen pos).take deep).Pairwise (· > ·) :=
    (index.seen_descends pos).sublist (List.take_sublist _ _)
  rw [← hall] at hdescends ⊢
  refine longestOf_append hdescends ?_ hm
  intro c hc
  rw [hall] at hc
  exact Nat.le_of_lt (index.lt_of_mem_seen (List.mem_of_mem_take hc))

end Index

end LzCodec
