import LzCodec.Search.Geometry
import LzCodec.Search.Repeat

/-!
# Index of earlier positions

For each bucket the index knows the last position that was entered, and for each position how far
back the one before it in the same bucket lies. There is room for the links of one window only: a
position takes the place of the one that stands a whole window before it.
-/

namespace LzCodec

structure Index (src : Bytes) (g : Geometry) where
  /-- One more than the last position of each bucket, or 0. -/
  head : Vector Nat (2 ^ g.hashLog)
  /-- The distance to the position before in the same bucket, or 0. -/
  links : Vector Nat g.window
  /-- All positions before this one have been entered. -/
  next : Nat

namespace Index

variable {src : Bytes} {g : Geometry}

def empty (src : Bytes) (g : Geometry) : Index src g :=
  ⟨Vector.replicate _ 0, Vector.replicate _ 0, 0⟩

/-- Enters the positions from `pos` up to `target` that have four bytes. -/
def enter (src : Bytes) (g : Geometry) (target : Nat) (head : Vector Nat (2 ^ g.hashLog))
    (links : Vector Nat g.window) (pos : Nat) :
    Vector Nat (2 ^ g.hashLog) × Vector Nat g.window :=
  if h : pos < target ∧ pos + 4 ≤ src.size then
    let bucket := src.bucket g.hashLog pos h.2
    have hb : bucket < 2 ^ g.hashLog := src.bucket_lt pos h.2 g.hashLog_le
    have hp : pos % g.window < g.window := Nat.mod_lt _ g.window_pos
    let last := head[bucket]
    let link := if last = 0 ∨ g.window ≤ pos + 1 - last then 0 else pos + 1 - last
    enter src g target (head.set bucket (pos + 1)) (links.set (pos % g.window) link) (pos + 1)
  else
    (head, links)
termination_by src.size - pos

def insertUpTo (index : Index src g) (target : Nat) : Index src g :=
  match index with
  | ⟨head, links, next⟩ =>
    let (head, links) := enter src g target head links next
    ⟨head, links, max next target⟩

/-- One more than the position that the link at `pos` leads to, or 0 where the chain ends. -/
def previous (index : Index src g) (pos : Nat) : Nat :=
  have : pos % g.window < g.window := Nat.mod_lt _ g.window_pos
  let link := index.links[pos % g.window]
  if link = 0 ∨ pos < link then 0 else pos + 1 - link

theorem previous_le (index : Index src g) (pos : Nat) : index.previous pos ≤ pos := by
  simp only [previous]
  split <;> omega

/-- Goes back from the position before `entry`, and lets `visit` see up to `budget` positions before
`pos`, until one is out of the window or `stop` holds. -/
@[specialize]
def walk {β : Type} (index : Index src g) (pos : Nat) (visit : β → (c : Nat) → c < pos → β)
    (stop : β → Bool) (entry budget : Nat) (acc : β) : β :=
  match entry with
  | 0 => acc
  | c + 1 =>
    if budget = 0 then
      acc
    else if h : c < pos then
      if g.window ≤ pos - c then
        acc
      else
        let acc := visit acc c h
        if stop acc then acc else walk index pos visit stop (index.previous c) (budget - 1) acc
    else
      walk index pos visit stop (index.previous c) budget acc
termination_by entry
decreasing_by all_goals exact Nat.lt_succ_of_le (index.previous_le c)

/-- What each visit within the window keeps holds in the end. -/
theorem walk_keeps {β : Type} {index : Index src g} {pos : Nat} {visit : β → (c : Nat) → c < pos → β}
    {stop : β → Bool} {P : β → Prop}
    (keeps : ∀ acc c h, pos - c < g.window → P acc → P (visit acc c h))
    (entry budget : Nat) {acc : β} (start : P acc) :
    P (index.walk pos visit stop entry budget acc) := by
  induction entry using Nat.strongRecOn generalizing budget acc with
  | ind entry ih =>
    cases entry with
    | zero => simpa [walk] using start
    | succ c =>
      have back := Nat.lt_succ_of_le (index.previous_le c)
      rw [walk]
      split
      · exact start
      · split
        · split
          · exact start
          · rename_i hnear
            have next := keeps _ _ ‹_› (Nat.lt_of_not_le hnear) start
            dsimp only
            split
            · exact next
            · exact ih _ back _ next
        · exact ih _ back _ start

/-- Visits the positions that share the bucket of `pos`, the last one first. -/
@[inline]
def fold {β : Type} (index : Index src g) (pos : Nat) (h : pos + 4 ≤ src.size)
    (visit : β → (c : Nat) → c < pos → β) (stop : β → Bool) (budget : Nat) (acc : β) : β :=
  have : src.bucket g.hashLog pos h < 2 ^ g.hashLog := src.bucket_lt pos h g.hashLog_le
  walk index pos visit stop index.head[src.bucket g.hashLog pos h] budget acc

end Index

end LzCodec
