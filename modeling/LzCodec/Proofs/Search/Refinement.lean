import LzCodec.Proofs.Search.Chains
import LzCodec.Proofs.Search.Trails

/-!
# The search is a search of everything

A question sees the positions of the bucket within the window, the last one first, whatever was asked
before (`seen_eq_candidates`). So a match is the longest repeat among these (`find_refines_search`), and
a probe is answered as the search for it would answer it (`reaches_iff`).
-/

namespace LzCodec

/-- The match is the longest repeat of those that start at `P`, and the nearest of these; there is none
if no start agrees for the shortest length. -/
def LongestAmong (src : Bytes) (pos : Nat) (P : Nat → Prop) : Option Match → Prop
  | none => ∀ c, P c → src.common c pos (src.matchLimit pos) < minMatch
  | some m => ∃ c, P c ∧ m = ⟨pos - c, src.common c pos (src.matchLimit pos)⟩ ∧
      minMatch ≤ m.length ∧ ∀ c', P c' →
        src.common c' pos (src.matchLimit pos) ≤ m.length ∧
        (src.common c' pos (src.matchLimit pos) = m.length → m.distance ≤ pos - c')

section

variable {src : Bytes} {pos : Nat} {P Q : Nat → Prop}

/-- Starts that do not agree for the shortest length may be left out. -/
theorem LongestAmong.widen {found : Option Match} (h : LongestAmong src pos P found)
    (hsub : ∀ c, P c → Q c)
    (hsup : ∀ c, Q c → minMatch ≤ src.common c pos (src.matchLimit pos) → P c) :
    LongestAmong src pos Q found := by
  cases found with
  | none =>
    intro c hc
    by_contra hlong
    exact hlong (h c (hsup c hc (Nat.le_of_not_lt hlong)))
  | some m =>
    obtain ⟨c, hc, hm, hmin, hbest⟩ := h
    refine ⟨c, hsub c hc, hm, hmin, ?_⟩
    intro c' hc'
    by_cases hlong : minMatch ≤ src.common c' pos (src.matchLimit pos)
    · exact hbest c' (hsup c' hc' hlong)
    · constructor <;> omega

/-- Among candidates that go back, the first of the longest is the nearest. -/
theorem longestOf_spec {candidates : List Nat} (h : candidates.Pairwise (· > ·)) :
    LongestAmong src pos (· ∈ candidates) (longestOf src pos candidates) := by
  induction candidates using List.reverseRecOn with
  | nil =>
    intro c hc
    cases hc
  | append_singleton candidates last ih =>
    obtain ⟨hfirst, -, hlast⟩ := List.pairwise_append.1 h
    have ih := ih hfirst
    rw [Index.longestOf_concat]
    cases hfound : longestOf src pos candidates with
    | none =>
      rw [hfound] at ih
      rw [Index.better_none]
      split
      · rename_i hlong
        refine ⟨last, by simp, rfl, hlong, ?_⟩
        intro c hc
        rcases List.mem_append.1 hc with hc | hc
        · have := ih c hc
          constructor <;> dsimp only <;> omega
        · obtain rfl := List.mem_singleton.1 hc
          exact ⟨Nat.le_refl _, fun _ => Nat.le_refl _⟩
      · rename_i hshort
        intro c hc
        rcases List.mem_append.1 hc with hc | hc
        · exact ih c hc
        · obtain rfl := List.mem_singleton.1 hc
          exact Nat.lt_of_not_le hshort
    | some m =>
      rw [hfound] at ih
      obtain ⟨b, hb, rfl, hmin, hbest⟩ := ih
      rw [Index.better_some]
      dsimp only at hmin hbest ⊢
      split
      · rename_i hlonger
        refine ⟨last, by simp, rfl, Nat.le_trans hmin (Nat.le_of_lt hlonger), ?_⟩
        intro c hc
        rcases List.mem_append.1 hc with hc | hc
        · have := (hbest c hc).1
          constructor <;> dsimp only <;> omega
        · obtain rfl := List.mem_singleton.1 hc
          exact ⟨Nat.le_refl _, fun _ => Nat.le_refl _⟩
      · refine ⟨b, List.mem_append_left _ hb, rfl, hmin, ?_⟩
        intro c hc
        rcases List.mem_append.1 hc with hc | hc
        · exact hbest c hc
        · obtain rfl := List.mem_singleton.1 hc
          have hbefore := hlast b hb c (List.mem_singleton_self c)
          constructor <;> dsimp only <;> omega

end

namespace Index

variable {src : Bytes} {g : Geometry}

/-- The positions of the window before `pos` that share its bucket, the last one first. -/
def candidates (src : Bytes) (g : Geometry) (pos : Nat) : List Nat :=
  (List.range pos).reverse.filter fun c =>
    pos - c ≤ g.maxDistance && src.bucket? g.hashLog c == src.bucket? g.hashLog pos

theorem candidates_descend (src : Bytes) (g : Geometry) (pos : Nat) :
    (candidates src g pos).Pairwise (· > ·) :=
  (List.pairwise_reverse.2 List.pairwise_lt_range).filter _

theorem length_candidates_le (src : Bytes) (g : Geometry) (pos : Nat) :
    (candidates src g pos).length ≤ pos := by
  have h := List.length_filter_le (fun c => decide (pos - c ≤ g.maxDistance) &&
    src.bucket? g.hashLog c == src.bucket? g.hashLog pos) (List.range pos).reverse
  simpa [candidates] using h

/-- The positions that a question about `pos` may look at. -/
def near (g : Geometry) (pos c : Nat) : Bool := c < pos && pos - c ≤ g.maxDistance

theorem near_iff {pos c : Nat} : near g pos c = true ↔ c < pos ∧ pos < c + g.window := by
  have := g.window_pos
  simp only [near, Bool.and_eq_true, decide_eq_true_eq]
  unfold Geometry.maxDistance
  constructor
  · rintro ⟨hlt, hle⟩
    omega
  · rintro ⟨hlt, hle⟩
    omega

theorem filter_chain_eq_candidates {pos b n : Nat} (hpos : src.bucket? g.hashLog pos = some b)
    (hn : pos ≤ n) : (chain src g b n).filter (near g pos) = candidates src g pos := by
  induction n, hn using Nat.le_induction with
  | base =>
    rw [chain, candidates, List.filter_filter, hpos]
    apply List.filter_congr
    intro c hc
    have hlt : c < pos := by simpa using hc
    simp [near, hlt]
  | succ n hle ih =>
    have hfar : near g pos n = false := by simp [near, hle]
    by_cases hb : src.bucket? g.hashLog n = some b
    · rw [chain_succ_self hb, List.filter_cons_of_neg (by simp [hfar]), ih]
    · rw [chain_succ_of_ne hb, ih]

section

variable {index : Index src g} {pos b : Nat}

/-- An entry out of the window leads nowhere. -/
theorem trail_of_far {entry : Nat} (h : entry + g.window ≤ pos + 1) : index.trail pos entry = [] := by
  have := g.window_pos
  cases entry with
  | zero => rw [trail]
  | succ c =>
    have hc : c < pos := by omega
    have hfar : g.window ≤ pos - c := by omega
    rw [trail, if_pos hc, if_pos hfar]

/-- What a link leads to that points no further than a window. -/
theorem previous_of_linkTo {c last : Nat} (hp : c % g.window < g.window) (hlast : last ≤ c)
    (h : index.links[c % g.window] = linkTo g.window c last) :
    index.previous c = if c + 1 < last + g.window then last else 0 := by
  have hlink : index.previous c =
      if linkTo g.window c last = 0 ∨ c < linkTo g.window c last then 0
      else c + 1 - linkTo g.window c last := by
    rw [← h]
    rfl
  rw [hlink]
  unfold linkTo
  by_cases hcut : last = 0 ∨ g.window ≤ c + 1 - last
  · rw [if_pos hcut, if_pos (.inl rfl)]
    split <;> omega
  · rw [if_neg hcut, if_neg (by omega), if_pos (by omega)]
    omega

/-- A link of the walk leads to the position before in the bucket, unless no further one is within the
window and the walk ends. Links that were cut and places that were taken again are of the second kind,
as long as nothing behind the position after `pos` was entered. -/
theorem previous_spec (h : index.Faithful) (hpos : src.bucket? g.hashLog pos = some b)
    (reach : src.size ≤ g.window ∨ ∀ p, index.Entered p → p ≤ pos + 1) (hw : 2 ≤ g.window)
    {c : Nat} (hc : c < index.next) (hb : src.bucket? g.hashLog c = some b)
    (hnear : pos < c + g.window) :
    index.previous c = entry (chain src g b c) ∨
      index.previous c + g.window ≤ pos + 1 ∧ ∀ c' ∈ chain src g b c, c' + g.window ≤ pos := by
  have hfits := Bytes.le_of_bucket? hb
  have hp : c % g.window < g.window := Nat.mod_lt _ g.window_pos
  have hentered : index.entered ≤ src.size - 3 ∧
      (src.size ≤ g.window ∨ index.entered ≤ pos + 2) := by
    refine ⟨Nat.min_le_right _ _, reach.imp_right ?_⟩
    intro hreach
    by_contra hlate
    have := hreach (pos + 2) (by simp only [Entered, entered] at hlate ⊢; omega)
    omega
  by_cases hkept : index.entered ≤ c + g.window
  · have hprev := previous_of_linkTo hp (entry_chain_le b c) (h.links c b hp hc hb hkept)
    cases hchain : chain src g b c with
    | nil =>
      rw [hchain] at hprev
      exact .inl (by rw [hprev, entry, ite_self])
    | cons c' rest =>
      rw [hchain, entry] at hprev
      obtain ⟨hlt, hb', hrest⟩ := chain_eq_cons hchain
      by_cases hcut : c + 1 < c' + 1 + g.window
      · exact .inl (by rw [hprev, if_pos hcut, entry])
      · rw [if_neg hcut] at hprev
        -- behind `pos` no link is cut, since `pos` itself is in the bucket
        have hle : c ≤ pos := by
          by_contra hlater
          have hmem : pos ∈ chain src g b c := mem_chain.2 ⟨Nat.lt_of_not_le hlater, hpos⟩
          have hpos' : pos ≤ c' := by
            rw [hchain] at hmem
            rcases List.mem_cons.1 hmem with rfl | hmem
            · exact Nat.le_refl _
            · rw [hrest] at hmem
              exact Nat.le_of_lt (mem_chain.1 hmem).1
          have hsoon : c < index.entered := by
            simp only [entered]
            omega
          omega
        refine .inr ⟨by omega, ?_⟩
        intro d hd
        have hdc : d ≤ c' := by
          rcases List.mem_cons.1 hd with rfl | hd
          · exact Nat.le_refl _
          · rw [hrest] at hd
            exact Nat.le_of_lt (mem_chain.1 hd).1
        omega
  · -- the place was taken again: `c` is the furthest position of the window
    refine .inr ⟨?_, ?_⟩
    · have := index.previous_le c
      omega
    · intro d hd
      have := (mem_chain.1 hd).1
      omega

/-- The trail from the entry of a chain are its positions within the window. -/
theorem trail_entry_chain (h : index.Faithful) (hpos : src.bucket? g.hashLog pos = some b)
    (reach : src.size ≤ g.window ∨ ∀ p, index.Entered p → p ≤ pos + 1) (hw : 2 ≤ g.window)
    {n : Nat} (hn : n ≤ index.next) :
    index.trail pos (entry (chain src g b n)) = (chain src g b n).filter (near g pos) := by
  induction n using Nat.strongRecOn with
  | ind n ih =>
    cases hchain : chain src g b n with
    | nil => simp [entry, trail]
    | cons c rest =>
      obtain ⟨hlt, hb, rfl⟩ := chain_eq_cons hchain
      have hold : ∀ d ∈ chain src g b c, d < c := fun d hd => (mem_chain.1 hd).1
      -- what follows `c` on the trail is what follows it in the chain
      have follow (hnear : pos < c + g.window) :
          index.trail pos (index.previous c) = (chain src g b c).filter (near g pos) := by
        rcases previous_spec h hpos reach hw (Nat.lt_of_lt_of_le hlt hn) hb hnear with
          hprev | ⟨hfar, hnone⟩
        · rw [hprev]
          exact ih c hlt (Nat.le_trans (Nat.le_of_lt hlt) hn)
        · rw [trail_of_far hfar]
          refine (List.filter_eq_nil_iff.2 ?_).symm
          intro d hd hnear
          have := hnone d hd
          have := (near_iff.1 hnear).2
          omega
      rw [entry, trail]
      by_cases hc : c < pos
      · by_cases hfar : g.window ≤ pos - c
        · rw [if_pos hc, if_pos hfar]
          refine (List.filter_eq_nil_iff.2 ?_).symm
          intro d hd hnear
          have hnear' := (near_iff.1 hnear).2
          rcases List.mem_cons.1 hd with rfl | hd
          · omega
          · have := hold d hd
            omega
        · have hnear : pos < c + g.window := by omega
          rw [if_pos hc, if_neg hfar, List.filter_cons_of_pos (near_iff.2 ⟨hc, hnear⟩), follow hnear]
      · have hnot : ¬ near g pos c = true := fun h => hc (near_iff.1 h).1
        have := g.window_pos
        rw [if_neg hc, List.filter_cons_of_neg hnot]
        exact follow (by omega)

/-- A question that reaches no further than the index knows sees its candidates. -/
theorem seen_eq_candidates (h : index.Faithful) (hfits : pos + minMatch ≤ src.size)
    (reach : src.size ≤ g.window ∨ ∀ p, index.Entered p → p ≤ pos + 1) (hw : 2 ≤ g.window) :
    index.seen pos = candidates src g pos := by
  have hpos : src.bucket? g.hashLog pos = some (src.bucket g.hashLog pos hfits) :=
    Bytes.bucket?_of_le hfits
  have hb : src.bucket g.hashLog pos hfits < 2 ^ g.hashLog := src.bucket_lt pos hfits g.hashLog_le
  have hnext : pos ≤ (index.insertUpTo pos).next := by
    rw [next_insertUpTo]
    exact Nat.le_max_right _ _
  have reach' : src.size ≤ g.window ∨ ∀ p, (index.insertUpTo pos).Entered p → p ≤ pos + 1 := by
    refine reach.imp_right ?_
    rintro hreach p ⟨hlt, hsize⟩
    rw [next_insertUpTo] at hlt
    by_cases hp : p < index.next
    · exact hreach p ⟨hp, hsize⟩
    · omega
  rw [seen, dif_pos hfits]
  dsimp only
  rw [(h.insertUpTo pos).head _ hb, trail_entry_chain (h.insertUpTo pos) hpos reach' hw (Nat.le_refl _),
    filter_chain_eq_candidates hpos hnext]

/-- A search that reaches no further than the index knows finds the longest of its candidates. -/
theorem find_eq_longestOf (h : index.Faithful) (hfits : pos + minMatch ≤ src.size)
    (reach : src.size ≤ g.window ∨ ∀ p, index.Entered p → p ≤ pos + 1) (hw : 2 ≤ g.window)
    (depth : Nat) :
    (find pos depth index).1 = longestOf src pos ((candidates src g pos).take depth) := by
  rw [find_eq_longestOf_seen, seen_eq_candidates h hfits reach hw]

/-- A probe is answered as the search for the longest match would answer it. -/
theorem reaches_iff (h : index.Faithful)
    (reach : src.size ≤ g.window ∨ ∀ p, index.Entered p → p ≤ pos + 1) (hw : 2 ≤ g.window)
    (length depth : Nat) :
    (reaches pos length depth index).1 = true ↔
      ∃ m, longestOf src pos ((candidates src g pos).take depth) = some m ∧ length ≤ m.length := by
  rw [reaches_iff_find]
  by_cases hfits : pos + minMatch ≤ src.size
  · rw [find_eq_longestOf h hfits reach hw]
    apply exists_congr
    intro m
    apply and_congr_right
    intro hm
    obtain ⟨-, -, -, hmin, -⟩ := longestOf_eq_some hm
    rw [Nat.max_le]
    exact ⟨And.left, fun hle => ⟨hle, hmin⟩⟩
  · -- too near the end, neither of them finds anything
    constructor
    · rintro ⟨m, hm, -⟩
      simp [find, hfits] at hm
    · rintro ⟨m, hm, -⟩
      obtain ⟨c, -, rfl, hmin, -⟩ := longestOf_eq_some hm
      have hlimit := Nat.le_trans hmin Bytes.common_le
      rw [Bytes.matchLimit] at hlimit
      have hpos : 0 < minMatch := by decide
      omega

end

end Index

theorem Bytes.word32_congr {src : Bytes} {p q : Nat} (hp : p + 4 ≤ src.size) (hq : q + 4 ≤ src.size)
    (h : ∀ i < 4, src[p + i]? = src[q + i]?) : src.word32 p hp = src.word32 q hq := by
  have byte (i : Nat) (hi : i < 4) : src[p + i] = src[q + i] := by
    have heq := h i hi
    rw [Array.getElem?_eq_getElem (by omega), Array.getElem?_eq_getElem (by omega)] at heq
    exact Option.some.inj heq
  have h₀ : src[p] = src[q] := byte 0 (by decide)
  have h₁ : src[p + 1] = src[q + 1] := byte 1 (by decide)
  have h₂ : src[p + 2] = src[q + 2] := byte 2 (by decide)
  have h₃ : src[p + 3] = src[q + 3] := byte 3 (by decide)
  rw [word32, word32, h₀, h₁, h₂, h₃]

/-- Places that agree for the shortest length share their bucket. -/
theorem Bytes.bucket?_eq_of_common {src : Bytes} {log pos c limit : Nat} (hc : c < pos)
    (hpos : pos + minMatch ≤ src.size) (h : minMatch ≤ src.common c pos limit) :
    src.bucket? log c = src.bucket? log pos := by
  have hpos' : pos + 4 ≤ src.size := hpos
  have hc' : c + 4 ≤ src.size := by omega
  have hword : src.word32 c hc' = src.word32 pos hpos' := by
    apply word32_congr
    intro i hi
    exact getElem?_of_lt_common (Nat.lt_of_lt_of_le hi h)
  rw [bucket?_of_le hc', bucket?_of_le hpos', bucket, bucket, hword]

namespace Geometry

theorem two_le_window (size : Nat) : 2 ≤ (ofSize size).window := by
  have hlog : 1 ≤ windowLog size := by
    simp only [windowLog, minWindowLog, maxWindowLog]
    omega
  exact Nat.pow_le_pow_right (Nat.succ_pos 1) hlog

theorem le_window {size : Nat} (h : size ≤ 2 ^ maxWindowLog) : size ≤ (ofSize size).window := by
  have hceil := le_two_pow_ceilLog size
  by_cases hlog : max minWindowLog (ceilLog size) ≤ maxWindowLog
  · have hle : ceilLog size ≤ windowLog size := by
      simp only [windowLog]
      omega
    exact Nat.le_trans hceil (Nat.pow_le_pow_right (Nat.succ_pos 1) hle)
  · have heq : windowLog size = maxWindowLog := by
      simp only [windowLog]
      omega
    simpa only [ofSize, heq] using h

end Geometry

namespace Index

/-- The search is a search of everything. Whatever was requested before, a match is the longest repeat
of the first `depth` candidates in the window, and the nearest of these; with a `depth` of at least
`pos`, it is the longest repeat in the window. For a source that is larger than the largest window,
nothing may have been entered behind the position after `pos`. -/
theorem find_refines_search (src : Bytes) (requests : List Request) (pos depth : Nat)
    (hfits : pos + minMatch ≤ src.size)
    (reach : src.size ≤ 2 ^ maxWindowLog ∨ ∀ p, (after src requests).Entered p → p ≤ pos + 1) :
    let g := Geometry.ofSize src.size
    let found := (find pos depth (after src requests)).1
    found = longestOf src pos ((candidates src g pos).take depth) ∧
      LongestAmong src pos (· ∈ (candidates src g pos).take depth) found ∧
      (pos ≤ depth → LongestAmong src pos (fun c => c < pos ∧ pos - c ≤ g.maxDistance) found) := by
  intro g found
  have hfound : found = longestOf src pos ((candidates src g pos).take depth) :=
    find_eq_longestOf (faithful_after src requests) hfits (reach.imp_left Geometry.le_window)
      (Geometry.two_le_window src.size) depth
  have hamong : LongestAmong src pos (· ∈ (candidates src g pos).take depth) found := by
    rw [hfound]
    exact longestOf_spec ((candidates_descend src g pos).sublist (List.take_sublist _ _))
  refine ⟨hfound, hamong, ?_⟩
  intro hdepth
  have hall : (candidates src g pos).take depth = candidates src g pos :=
    List.take_of_length_le (Nat.le_trans (length_candidates_le src g pos) hdepth)
  rw [hall] at hamong
  refine hamong.widen ?_ ?_
  · intro c hc
    simp only [candidates, List.mem_filter, List.mem_reverse, List.mem_range, Bool.and_eq_true,
      decide_eq_true_eq] at hc
    exact ⟨hc.1, hc.2.1⟩
  · rintro c ⟨hlt, hdist⟩ hlong
    have hbucket : src.bucket? g.hashLog c = src.bucket? g.hashLog pos :=
      Bytes.bucket?_eq_of_common hlt hfits hlong
    simp only [candidates, List.mem_filter, List.mem_reverse, List.mem_range, Bool.and_eq_true,
      decide_eq_true_eq, beq_iff_eq]
    exact ⟨hlt, hdist, hbucket⟩

/-- The second place of `aab` in `aabaabaab` has its longest repeat three bytes back. -/
theorem find_refines_search_overlap :
    let src : Bytes := #[97, 97, 98, 97, 97, 98, 97, 97, 98]
    let requests := [Request.insert 2, .reaches 4 4 3]
    3 + minMatch ≤ src.size ∧ src.size ≤ 2 ^ maxWindowLog ∧
      LongestAmong src 3 (fun c => c < 3 ∧ 3 - c ≤ (Geometry.ofSize src.size).maxDistance)
        (find 3 8 (after src requests)).1 := by
  intro src requests
  have hfits : 3 + minMatch ≤ src.size := by decide
  have hsize : src.size ≤ 2 ^ maxWindowLog := by decide
  exact ⟨hfits, hsize, (find_refines_search src requests 3 8 hfits (.inl hsize)).2.2 (by decide)⟩

end Index

end LzCodec
