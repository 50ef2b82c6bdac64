import Mathlib.Order.Bounds.Defs
import LzCodec.Proofs.Machine.Prefix

/-!
# What a comparison reads

The comparison of two places, with a note of each position that is read. Without its notes it is the
comparison itself, and behind the last byte that may be compared nothing is read, neither byte by byte nor
in a word (`notes_commonPrefix`). So looking at eight bytes at a time is as good as looking at each
(`commonPrefix_greatest`).
-/

namespace LzCodec

namespace Machine

variable {α β : Type}

/-- A run that notes the positions it reads. -/
abbrev Noting := StateT (List Nat) Machine

/-- Without its notes, the run `x` is `y`, and what it reads stands before `stop`. -/
structure Notes (stop : Nat) (x : Noting α) (y : Machine α) : Prop where
  forget : ∀ reads, Prod.fst <$> x.run reads = y
  within : ∀ reads a reads', x.run reads = pure (a, reads') → ∀ i ∈ reads', i ∈ reads ∨ i < stop

namespace Noting

def load (src : Bytes) (pos : Nat) : Noting UInt8 := do
  modify (pos :: ·)
  Machine.load src pos

def readWord (src : Bytes) (pos count : Nat) : Noting Nat := do
  modify (List.range' pos count ++ ·)
  Machine.readWord src pos count

end Noting

namespace Places

def notedBytes (p : Places) (n : Nat) : Noting Nat := do
  if n < p.limit then
    let a ← Noting.load p.src (← add 64 p.earlier n)
    let b ← Noting.load p.src (← add 64 p.later n)
    if a = b then
      p |>.notedBytes (← add 64 n 1)
    else
      return n
  else
    return n
partial_fixpoint

def notedWords (p : Places) (n : Nat) : Noting Nat := do
  let stop ← add 64 n 8
  if stop ≤ p.limit then
    let a ← Noting.readWord p.src (← add 64 p.earlier n) 8
    let b ← Noting.readWord p.src (← add 64 p.later n) 8
    if a ^^^ b ≠ 0 then
      add 64 n (trailingZeros (a ^^^ b) 64 / 8)
    else
      p |>.notedWords stop
  else
    p.notedBytes n
partial_fixpoint

end Places

def notedPrefix (src : Bytes) (earlier later limit : Nat) : Noting Nat := do
  require (earlier < later)
  require ((← add 64 later limit) ≤ src.size)
  Places.notedWords ⟨src, earlier, later, limit⟩ 0

/-! ## Notes -/

section

variable {stop : Nat}

theorem notes_pure (a : α) : Notes stop (pure a) (pure a) where
  forget _ := rfl
  within reads a' reads' h := by
    obtain ⟨-, rfl⟩ := Prod.mk.inj (pure_inj h)
    exact fun i hi => .inl hi

/-- What reads nothing notes nothing. -/
theorem notes_lift (y : Machine α) : Notes stop (liftM y) y where
  forget reads := by
    cases y with
    | none => rfl
    | some result => cases result <;> rfl
  within reads a reads' h := by
    obtain ⟨a', -, hpair⟩ := exists_of_bind h
    obtain ⟨-, rfl⟩ := Prod.mk.inj (pure_inj hpair)
    exact fun i hi => .inl hi

theorem Notes.bind {x : Noting α} {y : Machine α} {f : α → Noting β} {g : α → Machine β}
    (hx : Notes stop x y) (hf : ∀ a, y = pure a → Notes stop (f a) (g a)) :
    Notes stop (x >>= f) (y >>= g) where
  forget reads := by
    have hy := hx.forget reads
    subst hy
    rw [StateT.run_bind]
    cases hrun : x.run reads with
    | none => rfl
    | some result =>
      cases result with
      | error cause => rfl
      | ok pair => exact (hf pair.1 (by rw [hrun]; rfl)).forget pair.2
  within reads b reads' h i hi := by
    rw [StateT.run_bind] at h
    obtain ⟨⟨a, between⟩, hrun, hrest⟩ := exists_of_bind h
    have hy : y = pure a := by
      rw [← hx.forget reads, hrun]
      rfl
    rcases (hf a hy).within _ _ _ hrest i hi with hold | hnew
    · exact hx.within _ _ _ hrun i hold
    · exact .inr hnew

theorem notes_modify {front : List Nat} (h : ∀ i ∈ front, i < stop) :
    Notes stop (modify (front ++ ·)) (pure ⟨⟩) where
  forget _ := rfl
  within reads a reads' hrun i hi := by
    obtain ⟨-, rfl⟩ := Prod.mk.inj (pure_inj hrun)
    exact (List.mem_append.1 hi).symm.imp_right (h i)

theorem notes_load (src : Bytes) {pos : Nat} (h : pos < stop) :
    Notes stop (Noting.load src pos) (load src pos) := by
  have hpos : ∀ i ∈ [pos], i < stop := by simpa using h
  exact (notes_modify hpos).bind fun _ _ => notes_lift (load src pos)

theorem notes_readWord (src : Bytes) {pos count : Nat} (h : pos + count ≤ stop) :
    Notes stop (Noting.readWord src pos count) (readWord src pos count) := by
  refine (notes_modify fun i hi => ?_).bind fun _ _ => notes_lift (readWord src pos count)
  rw [List.mem_range'_1] at hi
  omega

end

/-! ## Comparisons -/

/-- Where one of the sums overflows there is nothing left to read, so only those that do not are looked
at. -/
theorem notes_commonBytes (p : Places) (n : Nat) :
    Notes (max p.earlier p.later + p.limit) (p.notedBytes n) (p.commonBytes n) := by
  induction hm : p.limit - n using Nat.strongRecOn generalizing n with
  | ind m ih =>
    rw [Places.notedBytes, Places.commonBytes]
    by_cases hlt : n < p.limit
    · rw [if_pos hlt, if_pos hlt]
      refine (notes_lift _).bind fun e he => ?_
      refine (notes_load p.src ?_).bind fun a _ => ?_
      · have := eq_of_add he
        omega
      refine (notes_lift _).bind fun l hl => ?_
      refine (notes_load p.src ?_).bind fun b _ => ?_
      · have := eq_of_add hl
        omega
      split
      · refine (notes_lift _).bind fun next hnext => ?_
        obtain rfl := eq_of_add hnext
        exact ih _ (by omega) _ rfl
      · exact notes_pure n
    · rw [if_neg hlt, if_neg hlt]
      exact notes_pure n

theorem notes_commonWords (p : Places) (n : Nat) :
    Notes (max p.earlier p.later + p.limit) (p.notedWords n) (p.commonWords n) := by
  induction hm : p.limit - n using Nat.strongRecOn generalizing n with
  | ind m ih =>
    rw [Places.notedWords, Places.commonWords]
    refine (notes_lift _).bind fun stop hstop => ?_
    obtain rfl := eq_of_add hstop
    by_cases hfits : n + 8 ≤ p.limit
    · rw [if_pos hfits, if_pos hfits]
      refine (notes_lift _).bind fun e he => ?_
      refine (notes_readWord p.src ?_).bind fun a _ => ?_
      · have := eq_of_add he
        omega
      refine (notes_lift _).bind fun l hl => ?_
      refine (notes_readWord p.src ?_).bind fun b _ => ?_
      · have := eq_of_add hl
        omega
      split
      · exact notes_lift _
      · exact ih _ (by omega) _ rfl
    · rw [if_neg hfits, if_neg hfits]
      exact notes_commonBytes p n

section

variable {src : Bytes} {earlier later limit : Nat}

/-- Nothing is read behind the `limit` bytes of the later place. -/
theorem notes_commonPrefix (h : earlier < later) :
    Notes (later + limit) (notedPrefix src earlier later limit)
      (commonPrefix src earlier later limit) := by
  have hwords := notes_commonWords ⟨src, earlier, later, limit⟩ 0
  rw [Nat.max_eq_right (Nat.le_of_lt h)] at hwords
  refine (notes_lift _).bind fun _ _ => ?_
  refine (notes_lift _).bind fun stop _ => ?_
  exact (notes_lift _).bind fun _ _ => hwords

/-- **Comparing eight bytes at a time is comparing byte by byte.** Of two places, also of such that
overlap, the comparison finds the largest number of bytes, up to the limit, in which they agree. It ends
without a fault and reads nothing behind the limit. -/
theorem commonPrefix_greatest (small : src.size < 2 ^ maxArrayLog) (h : earlier < later)
    (hl : later + limit ≤ src.size) :
    IsGreatest {n | n ≤ limit ∧ ∀ i < n, src[earlier + i]? = src[later + i]?}
        (src.agree earlier later limit h hl) ∧
      commonPrefix src earlier later limit = pure (src.agree earlier later limit h hl) ∧
      Notes (later + limit) (notedPrefix src earlier later limit)
        (commonPrefix src earlier later limit) ∧
      ∃ reads, (notedPrefix src earlier later limit).run [] =
          pure (src.agree earlier later limit h hl, reads) ∧ ∀ i ∈ reads, i < later + limit := by
  have hrun := commonPrefix_eq small h hl
  have hnotes : Notes (later + limit) (notedPrefix src earlier later limit) _ := notes_commonPrefix h
  refine ⟨?_, hrun, hnotes, ?_⟩
  · rw [Bytes.agree_eq_common]
    exact ⟨⟨Bytes.common_le, fun i hi => Bytes.getElem?_of_lt_common hi⟩,
      fun n hn => Bytes.le_common hn.1 hn.2⟩
  · have hforget := (hnotes.forget []).trans hrun
    rw [map_eq_pure_bind] at hforget
    obtain ⟨⟨n, reads⟩, hnoted, hn⟩ := exists_of_bind hforget
    obtain rfl := pure_inj hn
    refine ⟨reads, hnoted, fun i hi => ?_⟩
    simpa using hnotes.within _ _ _ hnoted i hi

/-- A run of equal bytes agrees with itself one byte further on, up to the first other byte. -/
theorem commonPrefix_greatest_overlap :
    let src : Bytes := #[7, 7, 7, 7, 7, 7, 7, 7, 7, 7, 7, 7, 7, 8]
    src.size < 2 ^ maxArrayLog ∧ 0 < 1 ∧ 1 + 13 ≤ src.size ∧ commonPrefix src 0 1 13 = pure 12 ∧
      ∃ reads, (notedPrefix src 0 1 13).run [] = pure (12, reads) ∧ ∀ i ∈ reads, i < 14 := by
  intro src
  have small : src.size < 2 ^ maxArrayLog := by decide
  have hl : 1 + 13 ≤ src.size := by decide
  have hagree : src.agree 0 1 13 Nat.one_pos hl = 12 := by
    rw [Bytes.agree_eq_common]
    exact Bytes.common_eq (by decide) (by decide) (by decide)
  obtain ⟨-, hrun, -, hreads⟩ := commonPrefix_greatest small Nat.one_pos hl
  rw [hagree] at hrun hreads
  exact ⟨small, Nat.one_pos, hl, hrun, hreads⟩

end

end Machine

end LzCodec
