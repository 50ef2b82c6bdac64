import Mathlib.Order.Bounds.Basic
import LzCodec.Proofs.Machine.Agreement
import LzCodec.Proofs.Search.Insertions

/-!
# What stands in the tables

A head tells the last position of its bucket, and a link tells how far back the position before in the
same bucket is, from when it is written until its place is taken again. Nothing else is in the tables:
whatever was asked, they are those of a single insertion (`tables_after`).
-/

namespace LzCodec

namespace Machine

/-- What tells the greatest number of a set: its image under `f`, or 0 if the set is empty. -/
inductive TellsLast (s : Set Nat) (f : Nat → Nat) : Nat → Prop where
  | none : s = ∅ → TellsLast s f 0
  | last {p : Nat} : IsGreatest s p → TellsLast s f (f p)

theorem TellsLast.eq {s : Set Nat} {f : Nat → Nat} {p value : Nat} (h : TellsLast s f value)
    (hp : IsGreatest s p) : value = f p := by
  cases h with
  | none hempty => exact absurd hp.1 (hempty ▸ Set.notMem_empty p)
  | last hlast => rw [hlast.unique hp]

namespace Finder

/-- The positions that have been entered are those before this one. -/
def entered (f : Finder) : Nat := min f.next (f.src.size - 3)

/-- The positions before `n` in the bucket `b`. -/
def bucketBefore (f : Finder) (b n : Nat) : Set Nat :=
  {p | p < n ∧ f.src.bucket? f.hashLog p = some b}

/-- The heads tell the last positions of their buckets, by the position behind. The links of the last
window tell the positions before in their buckets, by the distance, unless that is larger than the
mask. -/
structure Tabled (f : Finder) : Prop where
  head : ∀ b < 2 ^ f.hashLog, ∃ value, f.head[b]? = some value ∧
    TellsLast (f.bucketBefore b f.entered) (· + 1) value
  chain : ∀ p < f.entered, f.entered ≤ p + (f.mask + 1) →
    ∃ b value, f.src.bucket? f.hashLog p = some b ∧ f.chain[p &&& f.mask]? = some value ∧
      TellsLast {c ∈ f.bucketBefore b p | p - c ≤ f.mask} (p - ·) value

end Finder

section

variable {src : Bytes} {g : Geometry} {b n : Nat}

open Index

theorem isGreatest_of_chain_eq_cons {c : Nat} {rest : List Nat} (h : chain src g b n = c :: rest) :
    IsGreatest {p | p < n ∧ src.bucket? g.hashLog p = some b} c := by
  obtain ⟨hlt, hb, rfl⟩ := chain_eq_cons h
  refine ⟨⟨hlt, hb⟩, fun p hp => ?_⟩
  have hmem : p ∈ c :: chain src g b c := h ▸ mem_chain.2 hp
  rcases List.mem_cons.1 hmem with rfl | hbefore
  · exact Nat.le_refl p
  · exact Nat.le_of_lt (mem_chain.1 hbefore).1

theorem eq_empty_of_chain_eq_nil (h : chain src g b n = []) :
    {p | p < n ∧ src.bucket? g.hashLog p = some b} = ∅ := by
  ext p
  have hnot : p ∉ chain src g b n := by simp [h]
  simpa [mem_chain] using hnot

/-- The entry of a chain tells its last position. -/
theorem tellsLast_entry :
    TellsLast {p | p < n ∧ src.bucket? g.hashLog p = some b} (· + 1) (entry (chain src g b n)) := by
  cases h : chain src g b n with
  | nil => exact .none (eq_empty_of_chain_eq_nil h)
  | cons c rest => exact .last (isGreatest_of_chain_eq_cons h)

/-- A link tells the position before, unless that is out of the window. -/
theorem tellsLast_linkTo :
    TellsLast {c ∈ {p | p < n ∧ src.bucket? g.hashLog p = some b} | n - c ≤ g.window - 1} (n - ·)
      (linkTo g.window n (entry (chain src g b n))) := by
  have hw := g.window_pos
  cases h : chain src g b n with
  | nil =>
    have hempty := eq_empty_of_chain_eq_nil h
    refine .none ?_
    rw [hempty]
    simp
  | cons c rest =>
    obtain ⟨hc, hlast⟩ := isGreatest_of_chain_eq_cons h
    have hback : n + 1 - (c + 1) = n - c := by omega
    rw [entry, linkTo, hback]
    by_cases hfar : g.window ≤ n - c
    · -- what lies before `c` is further away still
      rw [if_pos (.inr hfar)]
      refine .none (Set.eq_empty_of_forall_notMem ?_)
      rintro p ⟨hp, hnear⟩
      have : p ≤ c := hlast hp
      omega
    · rw [if_neg (by omega)]
      exact .last ⟨⟨hc, by omega⟩, fun p hp => hlast hp.1⟩

/-- An index that knows its chains has them in its tables. -/
theorem tabled_of_faithful {index : Index src g} (hg : Masked g) (h : index.Faithful) :
    (Finder.of index).Tabled where
  head b hb := by
    have hb : b < 2 ^ g.hashLog := hb
    -- a position in a bucket has four bytes, so none is left out by the end of the source
    have hset : (Finder.of index).bucketBefore b (Finder.of index).entered =
        {p | p < index.next ∧ src.bucket? g.hashLog p = some b} := by
      ext p
      refine and_congr_left fun hp => ?_
      have hfits : p + 4 ≤ src.size := Bytes.le_of_bucket? hp
      simp only [Finder.entered, Finder.of]
      omega
    refine ⟨index.head[b], by simp [Finder.of, hb], ?_⟩
    rw [hset, h.head b hb]
    exact tellsLast_entry
  chain p hp hkept := by
    have hw := g.window_pos
    simp only [Finder.entered, Finder.of] at hp hkept
    have hfits : p + 4 ≤ src.size := by omega
    have hplace : p % g.window < g.window := Nat.mod_lt _ hw
    have hbucket : src.bucket? g.hashLog p = some (src.bucket g.hashLog p hfits) :=
      Bytes.bucket?_of_le hfits
    have hlink := h.links p _ hplace (by omega) hbucket (by simp only [Index.entered]; omega)
    refine ⟨_, index.links[p % g.window], hbucket, ?_, ?_⟩
    · simp [Finder.of, hg.and_mask, hplace]
    · rw [hlink]
      exact tellsLast_linkTo

end

/-- Insertions on words are as one, too. -/
theorem insertUpTo_bind_insertUpTo {src : Bytes} (small : src.size < 2 ^ maxArrayLog) {g : Geometry}
    (hg : Masked g) {index : Index src g} (h : index.Faithful) (first second : Nat) :
    (do (← (Finder.of index).insertUpTo first).insertUpTo second) =
      (Finder.of index).insertUpTo (max first second) := by
  rw [insertUpTo_eq small hg h, pure_bind, insertUpTo_eq small hg (h.insertUpTo first),
    insertUpTo_eq small hg h, Index.insertUpTo_insertUpTo]

/-- **The tables hold the last positions of the buckets and the links of the last window, and nothing
else.** After any requests, in any order, they are what a single insertion makes of the empty tables, up
to the furthest position that was asked for. Further insertions are as one. On words, every run that ends
has these tables, and a run ends if no question lies more than two bytes behind the end. -/
theorem tables_after (src : Bytes) (requests : List Request) :
    let index := Index.after src requests
    (Finder.of index).Tabled ∧ index.next = furthest src requests ∧
      index = (Index.ofSource src).insertUpTo (furthest src requests) ∧
      (∀ first second, (index.insertUpTo first).insertUpTo second =
        index.insertUpTo (max first second)) ∧
      (src.size < 2 ^ maxArrayLog → ∃ start, Finder.new src = pure start ∧
        ((∀ request ∈ requests, request.Within src.size) →
          ∃ answers f, start.askAll requests = pure (answers, f)) ∧
        ∀ answers f, start.askAll requests = pure (answers, f) →
          f = Finder.of index ∧ start.insertUpTo (furthest src requests) = pure f ∧
            ∀ first second, (do (← f.insertUpTo first).insertUpTo second) =
              f.insertUpTo (max first second)) := by
  intro index
  have hg := masked_ofSize src.size
  have hfaithful : index.Faithful := Index.faithful_after src requests
  have hafter : index = (Index.ofSource src).insertUpTo (furthest src requests) :=
    Index.after_eq_insertUpTo src requests
  refine ⟨tabled_of_faithful hg hfaithful, Index.next_after src requests, hafter,
    index.insertUpTo_insertUpTo, fun small => ?_⟩
  refine ⟨_, Finder.new_eq small, fun within => ?_, fun answers f hrun => ?_⟩
  · obtain ⟨answers, hrun, -⟩ := exists_askAll small Index.faithful_empty within
    exact ⟨answers, _, hrun⟩
  · obtain rfl : f = Finder.of index := leave_of_askAll small Index.faithful_empty hrun
    refine ⟨rfl, ?_, insertUpTo_bind_insertUpTo small hg hfaithful⟩
    rw [hafter]
    exact insertUpTo_eq small hg Index.faithful_empty _

/-- Three times the same four bytes: the link at the third tells that the second is four bytes back. -/
theorem tables_after_thrice :
    let src : Bytes := #[97, 98, 99, 100, 97, 98, 99, 100, 97, 98, 99, 100]
    let requests := [Request.find 3 1, .insert 9, .reaches 5 4 2]
    src.size < 2 ^ maxArrayLog ∧ (∀ request ∈ requests, request.Within src.size) ∧
      ∃ start answers f, Finder.new src = pure start ∧ start.askAll requests = pure (answers, f) ∧
        start.insertUpTo 9 = pure f ∧ f.chain[8]? = some 4 := by
  intro src requests
  have small : src.size < 2 ^ maxArrayLog := by decide
  have within : ∀ request ∈ requests, request.Within src.size := by decide
  obtain ⟨tabled, hnext, -, -, hwords⟩ := tables_after src requests
  obtain ⟨start, hnew, hends, htables⟩ := hwords small
  obtain ⟨answers, f, hrun⟩ := hends within
  obtain ⟨rfl, hsingle, -⟩ := htables answers f hrun
  have hentered : (Finder.of (Index.after src requests)).entered = 9 := by
    rw [Finder.entered, show (Finder.of (Index.after src requests)).next = 9 from hnext]
    rfl
  have hlog : (Geometry.ofSize src.size).hashLog = 12 := by decide
  obtain ⟨b, value, hb, hvalue, htells⟩ := tabled.chain 8 (by omega) (by omega)
  have hbefore (c : Nat) : c ∈ (Finder.of (Index.after src requests)).bucketBefore b 8 ↔
      c < 8 ∧ src.bucket? 12 c = src.bucket? 12 8 := by
    rw [← hlog]
    exact and_congr_right fun _ => ⟨fun hc => hc.trans hb.symm, fun hc => hc.trans hb⟩
  have hsecond : src.bucket? 12 4 = src.bucket? 12 8 := by decide +kernel
  have hbetween : ∀ c < 8, 4 < c → src.bucket? 12 c ≠ src.bucket? 12 8 := by decide +kernel
  have hlast : IsGreatest {c ∈ (Finder.of (Index.after src requests)).bucketBefore b 8 |
      8 - c ≤ (Finder.of (Index.after src requests)).mask} 4 := by
    refine ⟨⟨(hbefore 4).2 ⟨by decide, hsecond⟩, by decide⟩, fun c hc => ?_⟩
    obtain ⟨hlt, hsame⟩ := (hbefore c).1 hc.1
    exact Nat.le_of_not_lt fun hlater => hbetween c hlt hlater hsame
  have hplace : 8 &&& (Finder.of (Index.after src requests)).mask = 8 := by decide
  rw [htells.eq hlast, hplace] at hvalue
  exact ⟨small, within, start, answers, _, hnew, hrun, hsingle, hvalue⟩

end Machine

end LzCodec
