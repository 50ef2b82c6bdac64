import Mathlib.Data.List.Basic
import LzCodec.Search.Finder

/-!
# What the index knows

Whatever has been asked of it, the index knows the last position of each bucket, and the position
before each one that was entered within the last window (`faithful_after`).
-/

namespace LzCodec

/-- The bucket of a position with four bytes. -/
def Bytes.bucket? (src : Bytes) (log pos : Nat) : Option Nat :=
  if h : pos + 4 ≤ src.size then some (src.bucket log pos h) else none

namespace Bytes

variable {src : Bytes} {log pos b : Nat}

theorem bucket?_of_le (h : pos + 4 ≤ src.size) : src.bucket? log pos = some (src.bucket log pos h) :=
  dif_pos h

theorem le_of_bucket? (h : src.bucket? log pos = some b) : pos + 4 ≤ src.size := by
  unfold bucket? at h
  split at h
  · assumption
  · cases h

end Bytes

/-- One question to the index, or one request to enter positions. -/
inductive Request where
  | insert (target : Nat)
  | find (pos depth : Nat)
  | reaches (pos length depth : Nat)

namespace Index

variable {src : Bytes} {g : Geometry}

/-- The index that a request leaves. -/
def leave (index : Index src g) : Request → Index src g
  | .insert target => index.insertUpTo target
  | .find pos depth => (find pos depth index).2
  | .reaches pos length depth => (reaches pos length depth index).2

/-- The index of a source after some requests. -/
def after (src : Bytes) (requests : List Request) : Index src (Geometry.ofSize src.size) :=
  requests.foldl leave (ofSource src)

/-- The position has been entered. -/
def Entered (index : Index src g) (pos : Nat) : Prop := pos < index.next ∧ pos + 4 ≤ src.size

/-- The positions before `n` in the bucket `b`, the last one first. -/
def chain (src : Bytes) (g : Geometry) (b n : Nat) : List Nat :=
  (List.range n).reverse.filter fun c => src.bucket? g.hashLog c == some b

/-- One more than the first position of a chain, or 0. -/
def entry : List Nat → Nat
  | [] => 0
  | c :: _ => c + 1

/-- What stands in a link from `pos` to the position before the entry `last`. -/
def linkTo (window pos last : Nat) : Nat :=
  if last = 0 ∨ window ≤ pos + 1 - last then 0 else pos + 1 - last

section

variable {target pos : Nat}

/-- How a position is entered does not depend on the target. -/
theorem enter_of_lt (head : Vector Nat (2 ^ g.hashLog)) (links : Vector Nat g.window)
    (hfits : pos + 4 ≤ src.size) (hb : src.bucket g.hashLog pos hfits < 2 ^ g.hashLog)
    (hp : pos % g.window < g.window) (h : pos < target) :
    enter src g target head links pos =
      enter src g target (head.set (src.bucket g.hashLog pos hfits) (pos + 1) hb)
        (links.set (pos % g.window) (linkTo g.window pos head[src.bucket g.hashLog pos hfits]) hp)
        (pos + 1) := by
  rw [enter, dif_pos ⟨h, hfits⟩]
  rfl

/-- Nothing is entered where the target is reached or four bytes no longer fit. -/
theorem enter_of_end (head : Vector Nat (2 ^ g.hashLog)) (links : Vector Nat g.window)
    (h : target ≤ pos ∨ src.size < pos + 4) : enter src g target head links pos = (head, links) := by
  rw [enter, dif_neg (by omega)]

end

theorem mem_chain {b n c : Nat} :
    c ∈ chain src g b n ↔ c < n ∧ src.bucket? g.hashLog c = some b := by
  simp [chain]

theorem chain_succ_self {b n : Nat} (h : src.bucket? g.hashLog n = some b) :
    chain src g b (n + 1) = n :: chain src g b n := by
  simp [chain, List.range_succ, h]

theorem chain_succ_of_ne {b n : Nat} (h : src.bucket? g.hashLog n ≠ some b) :
    chain src g b (n + 1) = chain src g b n := by
  simp [chain, List.range_succ, h]

/-- Behind its first position, a chain is the chain of that position. -/
theorem chain_eq_cons {b n c : Nat} {rest : List Nat} (h : chain src g b n = c :: rest) :
    c < n ∧ src.bucket? g.hashLog c = some b ∧ rest = chain src g b c := by
  induction n with
  | zero => cases h
  | succ n ih =>
    by_cases hn : src.bucket? g.hashLog n = some b
    · have hcons := (chain_succ_self hn).symm.trans h
      obtain ⟨rfl, rfl⟩ := List.cons.inj hcons
      exact ⟨Nat.lt_succ_self _, hn, rfl⟩
    · obtain ⟨hlt, hc, hrest⟩ := ih ((chain_succ_of_ne hn).symm.trans h)
      exact ⟨Nat.lt_succ_of_lt hlt, hc, hrest⟩

theorem entry_chain_le (b n : Nat) : entry (chain src g b n) ≤ n := by
  cases h : chain src g b n with
  | nil => exact Nat.zero_le n
  | cons c rest => exact (chain_eq_cons h).1

/-- The last position that has been entered, and one more. -/
def entered (index : Index src g) : Nat := min index.next (src.size - 3)

/-- The heads are the last positions of their chains. A link is kept until its place is taken, and
leads to the position before in the chain, or nowhere if that is out of the window. -/
structure Faithful (index : Index src g) : Prop where
  head : ∀ b, (hb : b < 2 ^ g.hashLog) → index.head[b] = entry (chain src g b index.next)
  links : ∀ p b, (hp : p % g.window < g.window) → p < index.next →
    src.bucket? g.hashLog p = some b → index.entered ≤ p + g.window →
      index.links[p % g.window] = linkTo g.window p (entry (chain src g b p))

theorem faithful_empty : (empty src g).Faithful where
  head b hb := by simp [empty, chain, entry]
  links p b hp hlt := absurd hlt (Nat.not_lt_zero p)

/-- Two positions less than a window apart have different places. -/
theorem mod_ne_of_lt {w p q : Nat} (h : p < q) (hw : q < p + w) : p % w ≠ q % w := by
  intro heq
  have hzero : (q - p) % w = 0 := Nat.sub_mod_eq_zero_of_mod_eq heq.symm
  have hself : (q - p) % w = q - p := Nat.mod_eq_of_lt (by omega)
  omega

/-- Entering the next position keeps what the index knows. -/
theorem Faithful.enter_one {head : Vector Nat (2 ^ g.hashLog)} {links : Vector Nat g.window}
    {pos b : Nat} (h : (⟨head, links, pos⟩ : Index src g).Faithful) (hb : b < 2 ^ g.hashLog)
    (hpos : src.bucket? g.hashLog pos = some b) (hp : pos % g.window < g.window) :
    (⟨head.set b (pos + 1) hb, links.set (pos % g.window) (linkTo g.window pos head[b]) hp,
      pos + 1⟩ : Index src g).Faithful where
  head b' hb' := by
    by_cases heq : b' = b
    · subst heq
      simp [chain_succ_self hpos, entry]
    · have hne : src.bucket? g.hashLog pos ≠ some b' := by
        simpa [hpos] using fun h => heq h.symm
      have hother : b ≠ b' := fun h => heq h.symm
      simpa [chain_succ_of_ne hne, hother] using h.head b' hb'
  links p b' hp' hlt hbucket hentered := by
    have hfits := Bytes.le_of_bucket? hpos
    have hwindow : pos < p + g.window := by
      simp only [entered] at hentered
      omega
    by_cases heq : p = pos
    · subst heq
      obtain rfl : b = b' := by simpa [hpos] using hbucket
      simpa using congrArg (linkTo g.window p) (h.head b hb)
    · have hbefore : p < pos := by
        dsimp only at hlt
        omega
      have hplace : pos % g.window ≠ p % g.window := (mod_ne_of_lt hbefore hwindow).symm
      have hkept := h.links p b' hp' hbefore hbucket (by simp only [entered]; omega)
      simpa [hplace] using hkept

/-- Positions without four bytes are never entered. -/
theorem Faithful.skip {head : Vector Nat (2 ^ g.hashLog)} {links : Vector Nat g.window}
    {pos target : Nat} (h : (⟨head, links, pos⟩ : Index src g).Faithful) (hle : pos ≤ target)
    (hend : src.size < pos + 4) : (⟨head, links, target⟩ : Index src g).Faithful where
  head b hb := by
    have hsame (n : Nat) : chain src g b (pos + n) = chain src g b pos := by
      induction n with
      | zero => rfl
      | succ n ih =>
        have hnone : src.bucket? g.hashLog (pos + n) ≠ some b := by
          intro hsome
          have := Bytes.le_of_bucket? hsome
          omega
        exact (chain_succ_of_ne hnone).trans ih
    have htarget := hsame (target - pos)
    rw [Nat.add_sub_cancel' hle] at htarget
    simpa only [htarget] using h.head b hb
  links p b hp hlt hbucket hentered := by
    have hfits := Bytes.le_of_bucket? hbucket
    refine h.links p b hp ?_ hbucket ?_
    · dsimp only
      omega
    · simp only [entered] at hentered ⊢
      omega

theorem Faithful.enter {target : Nat} {head : Vector Nat (2 ^ g.hashLog)}
    {links : Vector Nat g.window} {pos : Nat} (h : (⟨head, links, pos⟩ : Index src g).Faithful) :
    (⟨(enter src g target head links pos).1, (enter src g target head links pos).2,
      max pos target⟩ : Index src g).Faithful := by
  induction hn : src.size - pos using Nat.strongRecOn generalizing head links pos with
  | ind n ih =>
    by_cases hlt : pos < target
    · by_cases hfits : pos + 4 ≤ src.size
      · have hb := src.bucket_lt pos hfits g.hashLog_le
        have hp : pos % g.window < g.window := Nat.mod_lt _ g.window_pos
        have hmax : max pos target = max (pos + 1) target := by omega
        rw [enter_of_lt head links hfits hb hp hlt, hmax]
        exact ih _ (by omega) (h.enter_one hb (Bytes.bucket?_of_le hfits) hp) rfl
      · have hend : src.size < pos + 4 := Nat.lt_of_not_le hfits
        rw [enter_of_end head links (.inr hend)]
        exact h.skip (Nat.le_max_left _ _) hend
    · have hle : target ≤ pos := Nat.le_of_not_lt hlt
      rw [enter_of_end head links (.inl hle), Nat.max_eq_left hle]
      exact h

theorem Faithful.insertUpTo {index : Index src g} (h : index.Faithful) (target : Nat) :
    (index.insertUpTo target).Faithful := by
  cases index with
  | mk head links next => exact h.enter

@[simp] theorem next_insertUpTo (index : Index src g) (target : Nat) :
    (index.insertUpTo target).next = max index.next target := by
  cases index with
  | mk head links next => rfl

/-- Each request keeps what the index knows. -/
theorem Faithful.leave {index : Index src g} (h : index.Faithful) (request : Request) :
    (index.leave request).Faithful := by
  cases request with
  | insert target => exact h.insertUpTo target
  | find pos depth =>
    simp only [Index.leave, find]
    split
    · exact h.insertUpTo pos
    · exact h
  | reaches pos length depth =>
    simp only [Index.leave, reaches]
    split
    · exact h.insertUpTo pos
    · exact h

/-- Whatever was requested, the heads and the links of the last window are those of the chains. -/
theorem faithful_after (src : Bytes) (requests : List Request) : (after src requests).Faithful := by
  have run (index : Index src (Geometry.ofSize src.size)) (h : index.Faithful) :
      (requests.foldl leave index).Faithful := by
    induction requests generalizing index with
    | nil => exact h
    | cons request rest ih => exact ih _ (h.leave request)
  exact run _ faithful_empty

end Index

end LzCodec
