import LzCodec.Proofs.Huffman.Costs
import LzCodec.Proofs.Machine.Words

/-!
# Codeword lengths on machine words

The tree is built on an arena of nodes, each of which knows its parent, and its depths are found in one
sweep from the root down. The lengths that this ends with are those of `Huffman.codeLengths`
(`codeLengths_eq`).
-/

namespace LzCodec

namespace Machine

open Huffman

/-- A heap hands out the lightest node first, of equal weights the one with the smallest index. It is
kept in this order. -/
def pushNode (x : Weighted Nat) : List (Weighted Nat) → List (Weighted Nat)
  | [] => [x]
  | y :: rest =>
    if y.weight < x.weight ∨ (y.weight = x.weight ∧ y.item ≤ x.item) then
      y :: pushNode x rest
    else
      x :: y :: rest

/-- The nodes that are left, the parents of the others, and the number of the next node. -/
structure Forest where
  heap : List (Weighted Nat)
  parents : Array Nat
  next : Nat

/-- Joins the two lightest nodes until one is left. -/
def Forest.join : Forest → Machine (Array Nat × Nat)
  | ⟨a :: b :: rest, parents, next⟩ => do
    let parents ← store parents a.item next
    let parents ← store parents b.item next
    let weight ← add 64 a.weight b.weight
    (⟨pushNode ⟨weight, next⟩ rest, parents, ← add 64 next 1⟩ : Forest) |>.join
  | ⟨_, parents, next⟩ => pure (parents, next)
partial_fixpoint

/-- The bytes of the number of a node. -/
def indexBytes : Nat := 8

/-- Finds the depths of the nodes below `count`, the last one first. -/
def sweep (parents depths : Array Nat) : Nat → Machine (Array Nat)
  | 0 => pure depths
  | node + 1 => do
    let above ← load depths (← load parents node)
    sweep parents (← store depths node (← add 32 above 1)) node

/-- The depths of the leaves of a tree over at least two weights. -/
def treeDepths (weights : Array Nat) : Machine (Array Nat) := do
  let size ← sub (← mul 64 2 weights.size) 1
  request (indexBytes * size)
  let heap := weights.toList.zipIdx.foldl (fun heap (weight, i) => pushNode ⟨weight, i⟩ heap) []
  let (parents, next) ← Forest.join ⟨heap, Array.replicate size 0, weights.size⟩
  let depths ← sweep parents (Array.replicate next 0) (← sub next 1)
  return depths.extract 0 weights.size

/-- The weights of the leaves of a tree. -/
structure Weights where
  toArray : Array Nat

/-- The depths of the first tree that is at most `maxLength` deep. -/
def Weights.limitDepths (maxLength : Nat) (w : Weights) : Machine (Array Nat) := do
  let depths ← treeDepths w.toArray
  if depths.all (· ≤ maxLength) then
    return depths
  else
    (⟨w.toArray.map fun weight => weight >>> 1 ||| 1⟩ : Weights) |>.limitDepths maxLength
partial_fixpoint

/-- Writes the depths from place `i` on at their symbols. -/
def placeLengths (depths lengths : Array Nat) (i : Nat) : List (Weighted Nat) → Machine (Array Nat)
  | [] => pure lengths
  | c :: rest => do
    let depth ← load depths i
    placeLengths depths (← store lengths c.item (depth % 256)) (i + 1) rest

def codeLengths (maxLength : Nat) (counts : Array Nat) : Machine (Array Nat) := do
  let lengths := Array.replicate counts.size 0
  match used counts with
  | [] => return lengths
  | [c] => store lengths c.item 1
  | cs =>
    let depths ← Weights.limitDepths maxLength ⟨(cs.map Weighted.weight).toArray⟩
    placeLengths depths lengths 0 cs

/-! ## The heap -/

def mapItem {α β : Type} (f : α → β) (x : Weighted α) : Weighted β := ⟨x.weight, f x.item⟩

theorem map_enqueue {α β : Type} (f : α → β) (x : Weighted α) (queue : List (Weighted α)) :
    (enqueue x queue).map (mapItem f) = enqueue (mapItem f x) (queue.map (mapItem f)) := by
  induction queue with
  | nil => rfl
  | cons y rest ih =>
    rw [List.map_cons]
    unfold enqueue
    by_cases h : y.weight ≤ x.weight
    · rw [if_pos h, if_pos (show (mapItem f y).weight ≤ (mapItem f x).weight from h), List.map_cons, ih]
    · rw [if_neg h, if_neg (show ¬ (mapItem f y).weight ≤ (mapItem f x).weight from h), List.map_cons,
        List.map_cons]

/-- A node with a new number waits behind all that weigh the same. -/
theorem pushNode_eq_enqueue {x : Weighted Nat} {heap : List (Weighted Nat)}
    (h : ∀ y ∈ heap, y.item < x.item) : pushNode x heap = enqueue x heap := by
  induction heap with
  | nil => rfl
  | cons y rest ih =>
    obtain ⟨hy, hrest⟩ := List.forall_mem_cons.1 h
    have hiff : (y.weight < x.weight ∨ (y.weight = x.weight ∧ y.item ≤ x.item)) ↔
        y.weight ≤ x.weight := by omega
    rw [pushNode, enqueue, ih hrest]
    simp only [hiff]

/-- A node of the arena together with the tree that it is the root of. -/
abbrev Root := Weighted (Nat × Tree)

def nodesOf (roots : List Root) : List (Weighted Nat) := roots.map (mapItem Prod.fst)

def treesOf (roots : List Root) : List (Weighted Tree) := roots.map (mapItem Prod.snd)

def leafRoot (c : Weighted Nat × Nat) : Root := ⟨c.1.weight, (c.2, .leaf c.1.item)⟩

/-- The heap of all leaves and the queue of all leaves are two sides of one list. -/
theorem exists_roots (counts : List (Weighted Nat)) :
    ∃ roots : List Root,
      nodesOf roots = (counts.map Weighted.weight).zipIdx.foldl
        (fun heap (weight, i) => pushNode ⟨weight, i⟩ heap) [] ∧
      treesOf roots = counts.foldl (fun queue c => enqueue (leafTree c) queue) [] ∧
      roots.Perm (counts.zipIdx.map leafRoot) := by
  suffices h : ∀ (k : Nat) (start : List Root), (∀ r ∈ start, r.item.1 < k) →
      ∃ roots : List Root,
        nodesOf roots = ((counts.map Weighted.weight).zipIdx k).foldl
          (fun heap (weight, i) => pushNode ⟨weight, i⟩ heap) (nodesOf start) ∧
        treesOf roots = counts.foldl (fun queue c => enqueue (leafTree c) queue) (treesOf start) ∧
        roots.Perm (start ++ (counts.zipIdx k).map leafRoot) by
    exact h 0 [] (fun r hr => by cases hr)
  induction counts with
  | nil => exact fun k start _ => ⟨start, rfl, rfl, by simp⟩
  | cons c rest ih =>
    intro k start hstart
    have hnext : ∀ r ∈ enqueue (leafRoot (c, k)) start, r.item.1 < k + 1 := by
      intro r hr
      rcases List.mem_cons.1 ((enqueue_perm _ _).mem_iff.1 hr) with rfl | hr
      · exact Nat.lt_succ_self k
      · exact Nat.lt_succ_of_lt (hstart r hr)
    obtain ⟨roots, hnodes, htrees, hperm⟩ := ih (k + 1) (enqueue (leafRoot (c, k)) start) hnext
    have hpush : nodesOf (enqueue (leafRoot (c, k)) start) = pushNode ⟨c.weight, k⟩ (nodesOf start) := by
      have hlt : ∀ y ∈ nodesOf start, y.item < k := by
        intro y hy
        obtain ⟨r, hr, rfl⟩ := List.mem_map.1 hy
        exact hstart r hr
      rw [pushNode_eq_enqueue hlt, nodesOf, map_enqueue]
      rfl
    refine ⟨roots, ?_, ?_, ?_⟩
    · rw [hnodes, hpush, List.map_cons, List.zipIdx_cons, List.foldl_cons]
    · rw [htrees, treesOf, map_enqueue, List.foldl_cons]
      rfl
    · rw [List.zipIdx_cons, List.map_cons]
      exact hperm.trans (((enqueue_perm _ _).append_right _).trans List.perm_middle.symm)

/-! ## The arena -/

/-- All nodes but the roots know their parents, which come behind the leaves and have larger numbers. The
last node is a root. -/
structure Arena (leaves : Nat) (parents : Array Nat) (next : Nat) (roots : List Root) : Prop where
  nodup : (roots.map fun r => r.item.1).Nodup
  lt : ∀ r ∈ roots, r.item.1 < next
  last : ∃ r ∈ roots, r.item.1 + 1 = next
  parent : ∀ x < next, (∀ r ∈ roots, r.item.1 ≠ x) →
    ∃ p, parents[x]? = some p ∧ x < p ∧ leaves ≤ p ∧ p < next
  leaves_le : leaves ≤ next
  room : next + roots.length ≤ parents.size + 1

def joined (a b : Root) (next : Nat) : Root :=
  ⟨a.weight + b.weight, (next, .node a.item.2 b.item.2)⟩

/-- Joining two roots. -/
theorem Arena.join {leaves : Nat} {parents : Array Nat} {next : Nat} {a b : Root} {rest : List Root}
    (h : Arena leaves parents next (a :: b :: rest)) :
    ∃ parents₁ parents', store parents a.item.1 next = pure parents₁ ∧
      store parents₁ b.item.1 next = pure parents' ∧ parents'.size = parents.size ∧
      Arena leaves parents' (next + 1) (enqueue (joined a b next) rest) ∧
      parents'[a.item.1]? = some next ∧ parents'[b.item.1]? = some next ∧
      ∀ x, a.item.1 ≠ x → b.item.1 ≠ x → parents'[x]? = parents[x]? := by
  obtain ⟨ha, hlt⟩ := List.forall_mem_cons.1 h.lt
  obtain ⟨hb, hlt⟩ := List.forall_mem_cons.1 hlt
  have hnodup := h.nodup
  rw [List.map_cons, List.map_cons, List.nodup_cons, List.nodup_cons, List.mem_cons] at hnodup
  obtain ⟨hanot, hbnot, hnodup⟩ := hnodup
  have hab : a.item.1 ≠ b.item.1 := fun heq => hanot (.inl heq)
  have hroom := h.room
  rw [List.length_cons, List.length_cons] at hroom
  have hafit : a.item.1 < parents.size := by omega
  have hbfit : b.item.1 < (parents.set a.item.1 next hafit).size := by
    rw [Array.size_set]
    omega
  have hperm := enqueue_perm (joined a b next) rest
  have hother (x : Nat) (hax : a.item.1 ≠ x) (hbx : b.item.1 ≠ x) :
      ((parents.set a.item.1 next hafit).set b.item.1 next hbfit)[x]? = parents[x]? := by
    rw [Array.getElem?_set_ne hbfit hbx, Array.getElem?_set_ne hafit hax]
  have hseta : ((parents.set a.item.1 next hafit).set b.item.1 next hbfit)[a.item.1]? = some next := by
    rw [Array.getElem?_set_ne hbfit hab.symm, Array.getElem?_set_self hafit]
  have hsetb : ((parents.set a.item.1 next hafit).set b.item.1 next hbfit)[b.item.1]? = some next := by
    rw [Array.getElem?_set_self hbfit]
  refine ⟨parents.set a.item.1 next hafit, (parents.set a.item.1 next hafit).set b.item.1 next hbfit,
    store_of_lt hafit, store_of_lt hbfit, ?_, ?_, hseta, hsetb, hother⟩
  · rw [Array.size_set, Array.size_set]
  · constructor
    · refine ((hperm.map _).nodup_iff).2 ?_
      rw [List.map_cons, List.nodup_cons]
      refine ⟨?_, hnodup⟩
      intro hmem
      obtain ⟨r, hr, heq⟩ := List.mem_map.1 hmem
      have hrlt := hlt r hr
      have hnext : r.item.1 = next := heq
      omega
    · intro r hr
      rcases List.mem_cons.1 (hperm.mem_iff.1 hr) with rfl | hr
      · exact Nat.lt_succ_self next
      · exact Nat.lt_succ_of_lt (hlt r hr)
    · exact ⟨joined a b next, hperm.mem_iff.2 List.mem_cons_self, rfl⟩
    · intro x hx hnot
      have hxnext : x ≠ next := fun heq =>
        hnot (joined a b next) (hperm.mem_iff.2 List.mem_cons_self) heq.symm
      by_cases hax : a.item.1 = x
      · subst hax
        exact ⟨next, hseta, ha, h.leaves_le, Nat.lt_succ_self next⟩
      · by_cases hbx : b.item.1 = x
        · subst hbx
          exact ⟨next, hsetb, hb, h.leaves_le, Nat.lt_succ_self next⟩
        · have hroots : ∀ r ∈ a :: b :: rest, r.item.1 ≠ x := by
            refine List.forall_mem_cons.2 ⟨hax, List.forall_mem_cons.2 ⟨hbx, ?_⟩⟩
            exact fun r hr => hnot r (hperm.mem_iff.2 (List.mem_cons_of_mem _ hr))
          obtain ⟨p, hp, hxp, hleaves, hpnext⟩ := h.parent x (by omega) hroots
          exact ⟨p, (hother x hax hbx).trans hp, hxp, hleaves, Nat.lt_succ_of_lt hpnext⟩
    · exact Nat.le_succ_of_le h.leaves_le
    · rw [length_enqueue, Array.size_set, Array.size_set]
      omega

/-- All nodes below the root have parents, which come behind the leaves and have larger numbers. -/
def Rooted (leaves : Nat) (parents : Array Nat) (root : Nat) : Prop :=
  ∀ x < root, ∃ p, parents[x]? = some p ∧ x < p ∧ leaves ≤ p ∧ p ≤ root

/-- The number of nodes above a node, up to the root. -/
def nodeDepth (parents : Array Nat) (root node : Nat) : Nat :=
  if _ : node < root then
    match parents[node]? with
    | some p => if _ : node < p then nodeDepth parents root p + 1 else 0
    | none => 0
  else
    0
termination_by root - node

theorem nodeDepth_root (parents : Array Nat) (root : Nat) : nodeDepth parents root root = 0 := by
  rw [nodeDepth, dif_neg (Nat.lt_irrefl root)]

theorem Rooted.nodeDepth_eq {leaves root x p : Nat} {parents : Array Nat}
    (h : Rooted leaves parents root) (hx : x < root) (hp : parents[x]? = some p) :
    nodeDepth parents root x = nodeDepth parents root p + 1 := by
  obtain ⟨q, hq, habove, -, -⟩ := h x hx
  obtain rfl := Option.some.inj (hp.symm.trans hq)
  rw [nodeDepth, dif_pos hx, hp]
  dsimp only
  rw [dif_pos habove]

def totalLoad (roots : List Root) : Nat := (roots.map Weighted.weight).sum

theorem Forest.join_singleton (x : Weighted Nat) (parents : Array Nat) (next : Nat) :
    Forest.join ⟨[x], parents, next⟩ = pure (parents, next) := by
  rw [Forest.join]
  intro _ _ _ h
  cases h

/-- What joining makes of an arena and its roots: one root and its tree. The leaves of each tree that was
there before are as deep in the arena as the tree for all of them has it, and no new node is deeper than all
of the old roots. -/
structure Grown (leaves : Nat) (parents : Array Nat) (next : Nat) (roots : List Root) (final : Array Nat)
    (root : Nat) (t : Tree) : Prop where
  tree : Huffman.join (treesOf roots) = some t
  next_le : next ≤ root + 1
  root_lt : root < parents.size
  size_eq : final.size = parents.size
  rooted : Rooted leaves final root
  keep : ∀ x < next, (∀ r ∈ roots, r.item.1 ≠ x) → final[x]? = parents[x]?
  leaves : (t.leaves 0).Perm (roots.flatMap fun r => r.item.2.leaves (nodeDepth final root r.item.1))
  inner : ∀ x, next ≤ x → x ≤ root → ∃ r ∈ roots, nodeDepth final root x ≤ nodeDepth final root r.item.1

section
variable {leaves next : Nat} {parents : Array Nat} {a b : Root} {rest : List Root}

theorem Arena.grown_singleton (h : Arena leaves parents next [a]) :
    a.item.1 + 1 = next ∧ Grown leaves parents next [a] parents a.item.1 a.item.2 := by
  obtain ⟨r, hr, hlast⟩ := h.last
  rw [List.mem_singleton.1 hr] at hlast
  have hroom := h.room
  rw [List.length_singleton] at hroom
  refine ⟨hlast, ?_, by omega, by omega, rfl, ?_, fun _ _ _ => rfl, ?_, fun x hx hxroot => by omega⟩
  · rw [treesOf, List.map_singleton, Huffman.join]
    rfl
  · intro x hx
    have hnot : ∀ r ∈ [a], r.item.1 ≠ x := by
      intro r hr
      rw [List.mem_singleton.1 hr]
      exact Nat.ne_of_gt hx
    obtain ⟨p, hp, hxp, hleaves, hpnext⟩ := h.parent x (by omega) hnot
    exact ⟨p, hp, hxp, hleaves, by omega⟩
  · rw [List.flatMap_singleton, nodeDepth_root]

/-- What comes of the roots after a join comes of the roots before it. -/
theorem Arena.grown_join {parents' final : Array Nat} {root : Nat} {t : Tree}
    (h : Arena leaves parents next (a :: b :: rest)) (hsize : parents'.size = parents.size)
    (ha : parents'[a.item.1]? = some next) (hb : parents'[b.item.1]? = some next)
    (hother : ∀ x, a.item.1 ≠ x → b.item.1 ≠ x → parents'[x]? = parents[x]?)
    (hgrown : Grown leaves parents' (next + 1) (enqueue (joined a b next) rest) final root t) :
    Grown leaves parents next (a :: b :: rest) final root t := by
  have hperm := enqueue_perm (joined a b next) rest
  have hnext := hgrown.next_le
  obtain ⟨halt, hlt⟩ := List.forall_mem_cons.1 h.lt
  obtain ⟨hblt, -⟩ := List.forall_mem_cons.1 hlt
  have hnodup := h.nodup
  rw [List.map_cons, List.map_cons, List.nodup_cons, List.nodup_cons, List.mem_cons] at hnodup
  obtain ⟨hanot, hbnot, -⟩ := hnodup
  have hnew : ∀ r ∈ enqueue (joined a b next) rest, r = joined a b next ∨ r ∈ rest :=
    fun r hr => List.mem_cons.1 (hperm.mem_iff.1 hr)
  have hkeep (x : Nat) (hx : x < next) (hrest : ∀ r ∈ rest, r.item.1 ≠ x) : final[x]? = parents'[x]? := by
    refine hgrown.keep x (Nat.lt_succ_of_lt hx) fun r hr => ?_
    rcases hnew r hr with rfl | hr
    · exact Nat.ne_of_gt hx
    · exact hrest r hr
  have haparent : final[a.item.1]? = some next :=
    (hkeep _ halt fun r hr heq => hanot (.inr (heq ▸ List.mem_map_of_mem hr))).trans ha
  have hbparent : final[b.item.1]? = some next :=
    (hkeep _ hblt fun r hr heq => hbnot (heq ▸ List.mem_map_of_mem hr)).trans hb
  have hadepth := hgrown.rooted.nodeDepth_eq (by omega) haparent
  have hbdepth := hgrown.rooted.nodeDepth_eq (by omega) hbparent
  refine ⟨?_, Nat.le_of_succ_le hnext, hsize ▸ hgrown.root_lt, hgrown.size_eq.trans hsize, hgrown.rooted,
    ?_, ?_, ?_⟩
  · rw [treesOf, List.map_cons, List.map_cons, Huffman.join, ← hgrown.tree, treesOf, map_enqueue]
    rfl
  · intro x hx hnot
    obtain ⟨hax, hnot⟩ := List.forall_mem_cons.1 hnot
    obtain ⟨hbx, hnot⟩ := List.forall_mem_cons.1 hnot
    rw [hkeep x hx hnot, hother x hax hbx]
  · refine hgrown.leaves.trans ((hperm.flatMap_right _).trans ?_)
    rw [List.flatMap_cons, List.flatMap_cons, List.flatMap_cons, hadepth, hbdepth, ← List.append_assoc]
    exact List.Perm.refl _
  · -- above the new node there is one node less than above the two that it joins
    have hjoined : nodeDepth final root next ≤ nodeDepth final root a.item.1 := by omega
    intro x hx hxroot
    rcases Nat.eq_or_lt_of_le hx with rfl | hx
    · exact ⟨a, List.mem_cons_self, hjoined⟩
    · obtain ⟨r, hr, hle⟩ := hgrown.inner x hx hxroot
      rcases hnew r hr with rfl | hr
      · exact ⟨a, List.mem_cons_self, Nat.le_trans hle hjoined⟩
      · exact ⟨r, List.mem_cons_of_mem a (List.mem_cons_of_mem b hr), hle⟩

/-- The joined root has the largest number, and so it waits behind all that weigh the same. -/
theorem Arena.pushNode_eq (h : Arena leaves parents next (a :: b :: rest)) :
    pushNode ⟨a.weight + b.weight, next⟩ (nodesOf rest) = nodesOf (enqueue (joined a b next) rest) := by
  have hnodes : ∀ y ∈ nodesOf rest, y.item < next := by
    intro y hy
    obtain ⟨r, hr, rfl⟩ := List.mem_map.1 hy
    exact h.lt r (List.mem_cons_of_mem a (List.mem_cons_of_mem b hr))
  rw [pushNode_eq_enqueue hnodes, nodesOf, nodesOf, map_enqueue]
  rfl

theorem totalLoad_joined :
    totalLoad (enqueue (joined a b next) rest) = totalLoad (a :: b :: rest) := by
  unfold totalLoad
  rw [((enqueue_perm (joined a b next) rest).map Weighted.weight).sum_nat]
  simp only [List.map_cons, List.sum_cons, joined, Nat.add_assoc]

end

/-- Joining ends with one root. -/
theorem Forest.join_spec {leaves : Nat} {parents : Array Nat} {next : Nat} {roots : List Root}
    (h : Arena leaves parents next roots) (hload : totalLoad roots < 2 ^ 64) (hsize : parents.size < 2 ^ 64) :
    ∃ final root t, Forest.join ⟨nodesOf roots, parents, next⟩ = pure (final, root + 1) ∧
      Grown leaves parents next roots final root t := by
  induction hn : roots.length using Nat.strongRecOn generalizing roots parents next with
  | ind n ih =>
    match roots with
    | [] =>
      obtain ⟨r, hr, -⟩ := h.last
      cases hr
    | [r] =>
      obtain ⟨hlast, hgrown⟩ := h.grown_singleton
      refine ⟨parents, r.item.1, r.item.2, ?_, hgrown⟩
      rw [nodesOf, List.map_singleton, Forest.join_singleton, ← hlast]
    | a :: b :: rest =>
      obtain ⟨parents₀, parents₁, hstore₀, hstore₁, hsize₁, harena, ha, hb, hother⟩ := h.join
      have hlen : (enqueue (joined a b next) rest).length < n := by
        rw [length_enqueue, ← hn]
        exact Nat.lt_succ_self _
      obtain ⟨final, root, t, hrun, hgrown⟩ :=
        ih _ hlen harena (totalLoad_joined.trans_lt hload) (hsize₁.trans_lt hsize) rfl
      refine ⟨final, root, t, ?_, h.grown_join hsize₁ ha hb hother hgrown⟩
      have hweight : a.weight + b.weight < 2 ^ 64 := by
        unfold totalLoad at hload
        simp only [List.map_cons, List.sum_cons] at hload
        omega
      have hnext : next + 1 < 2 ^ 64 := by
        have hle := hgrown.next_le
        have hlt := hgrown.root_lt
        omega
      have ha₀ : (mapItem Prod.fst a).item = a.item.1 := rfl
      have hb₀ : (mapItem Prod.fst b).item = b.item.1 := rfl
      have hsum : add 64 (mapItem Prod.fst a).weight (mapItem Prod.fst b).weight =
        pure (a.weight + b.weight) := add_of_lt hweight
      rw [nodesOf, List.map_cons, List.map_cons, Forest.join, ha₀, hb₀, hstore₀, pure_bind, hstore₁,
        pure_bind, hsum, pure_bind, add_of_lt hnext, pure_bind, ← nodesOf, h.pushNode_eq, hrun]

/-! ## Depths -/

theorem getD_set_self {xs : Array Nat} {i x : Nat} (h : i < xs.size) : (xs.set i x).getD i 0 = x := by
  rw [Array.getD_eq_getD_getElem?, Array.getElem?_set_self h, Option.getD_some]

theorem getD_set_of_ne {xs : Array Nat} {i j x : Nat} (h : i < xs.size) (hij : i ≠ j) :
    (xs.set i x).getD j 0 = xs.getD j 0 := by
  rw [Array.getD_eq_getD_getElem?, Array.getElem?_set_ne h hij, Array.getD_eq_getD_getElem?]

/-- The depths of the nodes from `done` on are right. -/
structure Swept (parents depths : Array Nat) (root done : Nat) : Prop where
  size_eq : depths.size = root + 1
  right : ∀ x, done ≤ x → x ≤ root → depths.getD x 0 = nodeDepth parents root x

theorem Swept.next {parents depths : Array Nat} {root node : Nat}
    (h : Swept parents depths root (node + 1)) (hfit : node < depths.size) :
    Swept parents (depths.set node (nodeDepth parents root node) hfit) root node where
  size_eq := by rw [Array.size_set, h.size_eq]
  right := by
    intro x hx hxroot
    by_cases heq : node = x
    · subst heq
      exact getD_set_self hfit
    · rw [getD_set_of_ne hfit heq]
      exact h.right x (by omega) hxroot

theorem sweep_spec {leaves : Nat} {parents depths : Array Nat} {root done : Nat}
    (h : Swept parents depths root done) (hdone : done ≤ root) (hrooted : Rooted leaves parents root)
    (hlow : ∀ x ≤ root, nodeDepth parents root x < 2 ^ 32) :
    ∃ final, sweep parents depths done = pure final ∧ Swept parents final root 0 := by
  induction done generalizing depths with
  | zero => exact ⟨depths, rfl, h⟩
  | succ node ih =>
    obtain ⟨p, hp, hnodep, -, hproot⟩ := hrooted node hdone
    have hfit : node < depths.size := by
      rw [h.size_eq]
      omega
    have hpfit : p < depths.size := by
      rw [h.size_eq]
      omega
    have habove : depths[p] = nodeDepth parents root p := by
      rw [← h.right p hnodep hproot, Array.getD_eq_getD_getElem?, Array.getElem?_eq_getElem hpfit,
        Option.getD_some]
    have hdepth := hrooted.nodeDepth_eq hdone hp
    have hsmall := hlow node (Nat.le_of_lt hdone)
    rw [hdepth] at hsmall
    obtain ⟨final, hrun, hfinal⟩ := ih (h.next hfit) (Nat.le_of_lt hdone)
    refine ⟨final, ?_, hfinal⟩
    rw [sweep, load_of_getElem? hp, pure_bind, load_of_lt hpfit, pure_bind, habove, add_of_lt hsmall,
      pure_bind, ← hdepth, store_of_lt hfit, pure_bind, hrun]

/-- The leaf of each count at the depth that stands at its place. -/
def leavesAt (depth : Nat → Nat) (counts : List (Weighted Nat)) : List Leaf :=
  counts.zipIdx.map fun (c, i) => ⟨c.item, depth i⟩

theorem leavesAt_congr {f g : Nat → Nat} {counts : List (Weighted Nat)}
    (h : ∀ i < counts.length, f i = g i) : leavesAt f counts = leavesAt g counts := by
  apply List.map_congr_left
  rintro ⟨c, i⟩ hmem
  have hi := (List.mem_zipIdx hmem).2.1
  rw [Nat.zero_add] at hi
  dsimp only
  rw [h i hi]

theorem all_leavesAt {depth : Nat → Nat} {maxLength : Nat} {counts : List (Weighted Nat)} :
    (leavesAt depth counts).all (·.length ≤ maxLength) = true ↔
      ∀ i < counts.length, depth i ≤ maxLength := by
  rw [List.all_eq_true]
  constructor
  · intro h i hi
    have hmem : (⟨counts[i].item, depth i⟩ : Leaf) ∈ leavesAt depth counts :=
      List.mem_map.2 ⟨(counts[i], i), List.mk_mem_zipIdx_iff_getElem?.2 (List.getElem?_eq_getElem hi), rfl⟩
    exact of_decide_eq_true (h _ hmem)
  · intro h leaf hleaf
    obtain ⟨⟨c, i⟩, hmem, rfl⟩ := List.mem_map.1 hleaf
    have hi := (List.mem_zipIdx hmem).2.1
    rw [Nat.zero_add] at hi
    exact decide_eq_true (h i hi)

/-- Before the first join every leaf is a root. -/
theorem arena_leaves {roots : List Root} {counts : List (Weighted Nat)} (hne : counts ≠ [])
    (hperm : roots.Perm (counts.zipIdx.map leafRoot)) :
    Arena counts.length (Array.replicate (2 * counts.length - 1) 0) counts.length roots := by
  have hpos : 0 < counts.length := List.length_pos_iff.2 hne
  have hitems : (roots.map fun r => r.item.1).Perm (List.range counts.length) := by
    refine (hperm.map _).trans ?_
    have hsnd : (counts.zipIdx.map leafRoot).map (fun r => r.item.1) = counts.zipIdx.map Prod.snd :=
      List.map_map
    rw [hsnd, List.zipIdx_map_snd, ← List.range_eq_range']
  have hlen : roots.length = counts.length := by
    have hlen := hitems.length_eq
    rwa [List.length_map, List.length_range] at hlen
  have hmem (x : Nat) (hx : x < counts.length) : ∃ r ∈ roots, r.item.1 = x :=
    List.mem_map.1 (hitems.mem_iff.2 (List.mem_range.2 hx))
  constructor
  · exact hitems.nodup_iff.2 List.nodup_range
  · intro r hr
    exact List.mem_range.1 (hitems.mem_iff.1 (List.mem_map_of_mem hr))
  · obtain ⟨r, hr, heq⟩ := hmem (counts.length - 1) (Nat.sub_lt hpos Nat.one_pos)
    exact ⟨r, hr, by omega⟩
  · intro x hx hnot
    obtain ⟨r, hr, heq⟩ := hmem x hx
    exact absurd heq (hnot r hr)
  · exact Nat.le_refl _
  · rw [hlen, Array.size_replicate]
    omega

theorem totalLoad_leaves {roots : List Root} {counts : List (Weighted Nat)}
    (hperm : roots.Perm (counts.zipIdx.map leafRoot)) : totalLoad roots = totalWeight counts := by
  have hweights : (counts.zipIdx.map leafRoot).map Weighted.weight = counts.map Weighted.weight := by
    have hfst : counts.zipIdx.map Prod.fst = counts := List.zipIdx_map_fst 0 counts
    rw [List.map_map]
    calc
      counts.zipIdx.map (Weighted.weight ∘ leafRoot)
          = (counts.zipIdx.map Prod.fst).map Weighted.weight := by rw [List.map_map]; rfl
      _ = counts.map Weighted.weight := by rw [hfst]
  rw [totalLoad, (hperm.map _).sum_nat, hweights, totalWeight_eq_sum]

/-- Before the sweep the root alone has its depth. -/
theorem swept_root (parents : Array Nat) (root : Nat) :
    Swept parents (Array.replicate (root + 1) 0) root root where
  size_eq := Array.size_replicate
  right := by
    intro x hx hxroot
    obtain rfl := Nat.le_antisymm hx hxroot
    rw [nodeDepth_root, Array.getD_eq_getD_getElem?, Array.getElem?_replicate]
    split <;> rfl

/-- The leaves are the deepest nodes, so no depth exceeds the height of the tree. -/
theorem nodeDepth_le_height {parents : Array Nat} {root : Nat} {t : Tree} {roots : List Root}
    {counts : List (Weighted Nat)} (hroots : ∀ r ∈ roots, r.item.1 < counts.length)
    (hleaves : (t.leaves 0).Perm (leavesAt (nodeDepth parents root) counts))
    (hinner : ∀ x, counts.length ≤ x → x ≤ root →
      ∃ r ∈ roots, nodeDepth parents root x ≤ nodeDepth parents root r.item.1) :
    ∀ x ≤ root, nodeDepth parents root x ≤ t.height := by
  have hall : (t.leaves 0).all (·.length ≤ t.height) = true := by
    rw [List.all_eq_true]
    intro leaf hleaf
    have hle := (Tree.length_leaves hleaf).2
    rw [Nat.zero_add] at hle
    exact decide_eq_true hle
  rw [hleaves.all_eq] at hall
  have hleaf := all_leavesAt.1 hall
  intro x hxroot
  by_cases hx : x < counts.length
  · exact hleaf x hx
  · obtain ⟨r, hr, hle⟩ := hinner x (Nat.le_of_not_lt hx) hxroot
    exact Nat.le_trans hle (hleaf _ (hroots r hr))

section
variable {counts : List (Weighted Nat)} {w : Nat → Nat}

/-- The depths that the arena ends with are those of the Huffman tree. -/
theorem treeDepths_spec (hne : counts ≠ []) (hw : ∀ c ∈ counts, c.weight = w c.item)
    (hpos : ∀ s, 1 ≤ w s) (hload : totalWeight counts < 2 ^ 64) (hroom : 16 * counts.length ≤ 2 ^ 63) :
    ∃ depths t, treeDepths (counts.map Weighted.weight).toArray = pure depths ∧
      depths.size = counts.length ∧ Tree.ofCounts counts = some t ∧
      (t.leaves 0).Perm (leavesAt (fun i => depths.getD i 0) counts) := by
  obtain ⟨roots, hnodes, htrees, hperm⟩ := exists_roots counts
  have hlength : 0 < counts.length := List.length_pos_iff.2 hne
  have hsize : (Array.replicate (2 * counts.length - 1) 0).size = 2 * counts.length - 1 :=
    Array.size_replicate
  have harena := arena_leaves hne hperm
  obtain ⟨parents, root, t, hrun, hgrown⟩ :=
    Forest.join_spec harena ((totalLoad_leaves hperm).trans_lt hload) (by rw [hsize]; omega)
  have hnext := hgrown.next_le
  have hcounts : Tree.ofCounts counts = some t := by
    rw [Tree.ofCounts, ← hgrown.tree, htrees]
    rfl
  have hplaces : (t.leaves 0).Perm (leavesAt (nodeDepth parents root) counts) := by
    refine hgrown.leaves.trans ((hperm.flatMap_right _).trans ?_)
    rw [List.flatMap_map, leavesAt, List.map_eq_flatMap]
    exact List.Perm.refl _
  have hdeepest := nodeDepth_le_height harena.lt hplaces hgrown.inner
  have hheight : t.height ≤ 91 :=
    height_le_of_totalWeight_lt hne hw hpos (Nat.lt_trans hload (by norm_num)) hcounts
  obtain ⟨final, hsweep, hfinal⟩ := sweep_spec (swept_root parents root) (Nat.le_refl root)
    hgrown.rooted fun x hx => Nat.lt_of_le_of_lt (Nat.le_trans (hdeepest x hx) hheight) (by decide)
  have hget (i : Nat) (hi : i < counts.length) :
      (final.extract 0 counts.length).getD i 0 = nodeDepth parents root i := by
    rw [← hfinal.right i (Nat.zero_le i) (by omega), Array.getD_eq_getD_getElem?,
      Array.getD_eq_getD_getElem?, Array.getElem?_extract, hfinal.size_eq, Nat.zero_add,
      if_pos (by omega)]
  refine ⟨final.extract 0 counts.length, t, ?_, ?_, hcounts, leavesAt_congr hget ▸ hplaces⟩
  · have hwsize : (counts.map Weighted.weight).toArray.size = counts.length := by simp
    have hdouble : mul 64 2 counts.length = pure (2 * counts.length) := mul_of_lt (by omega)
    have hparents : request (indexBytes * (2 * counts.length - 1)) = pure () :=
      request_of_lt (by rw [maxArrayLog, indexBytes]; omega)
    unfold treeDepths
    rw [hwsize, hdouble, pure_bind, sub_of_le (by omega), pure_bind, hparents, pure_bind,
      List.toList_toArray, ← hnodes]
    dsimp only
    rw [hrun, pure_bind]
    dsimp only
    rw [sub_of_le (Nat.le_add_left _ _), pure_bind, Nat.add_sub_cancel, hsweep, pure_bind]
  · rw [Array.size_extract, hfinal.size_eq]
    omega

end

/-! ## The length limit -/

theorem halve_eq (count : Nat) : count >>> 1 ||| 1 = halve count := by
  have hhalf : count >>> 1 = count / 2 := Nat.shiftRight_eq_div_pow count 1
  have hsplit : count / 2 = 2 ^ 1 * (count / 4) + count / 2 % 2 := by omega
  have hbit : count / 2 % 2 ||| 1 = 1 := by
    have hcases : count / 2 % 2 = 0 ∨ count / 2 % 2 = 1 := by omega
    rcases hcases with hcase | hcase <;> rw [hcase] <;> rfl
  have hlow : count / 2 % 2 < 2 ^ 1 := Nat.mod_lt _ (by decide)
  rw [hhalf, hsplit, Nat.two_pow_add_eq_or_of_lt hlow, Nat.or_assoc, hbit,
    ← Nat.two_pow_add_eq_or_of_lt (show 1 < 2 ^ 1 by decide), halve, Nat.mul_comm]

theorem all_getD {xs : Array Nat} {limit : Nat} :
    xs.all (· ≤ limit) = true ↔ ∀ i < xs.size, xs.getD i 0 ≤ limit := by
  rw [Array.all_eq_true]
  constructor
  · intro h i hi
    rw [Array.getD_eq_getD_getElem?, Array.getElem?_eq_getElem hi]
    exact of_decide_eq_true (h i hi)
  · intro h i hi
    have hle := h i hi
    rw [Array.getD_eq_getD_getElem?, Array.getElem?_eq_getElem hi] at hle
    exact decide_eq_true hle

/-- Halving ends, with the tree that the limit asks for. -/
theorem limitDepths_spec {maxLength : Nat} {counts : List (Weighted Nat)} {w : Nat → Nat}
    (hne : counts ≠ []) (hw : ∀ c ∈ counts, c.weight = w c.item) (hpos : ∀ s, 1 ≤ w s)
    (fit : counts.length ≤ 2 ^ maxLength) (hload : totalWeight counts < 2 ^ 64)
    (hroom : 16 * counts.length ≤ 2 ^ 63) :
    ∃ depths, Weights.limitDepths maxLength ⟨(counts.map Weighted.weight).toArray⟩ = pure depths ∧
      depths.size = counts.length ∧
      (limitedLeaves maxLength counts).Perm (leavesAt (fun i => depths.getD i 0) counts) := by
  induction htotal : totalWeight counts using Nat.strongRecOn generalizing counts w with
  | ind weight ih =>
    obtain ⟨depths, t, hrun, hsize, htree, hleaves⟩ := treeDepths_spec hne hw hpos hload hroom
    have hall : depths.all (· ≤ maxLength) = true ↔ (t.leaves 0).all (·.length ≤ maxLength) = true := by
      rw [hleaves.all_eq, all_leavesAt, all_getD, hsize]
    rw [Weights.limitDepths, hrun, pure_bind, limitedLeaves, htree, Option.map_some, Option.getD_some]
    by_cases hflat : depths.all (· ≤ maxLength) = true
    · rw [if_pos hflat, if_pos (hall.1 hflat)]
      exact ⟨depths, rfl, hsize, hleaves⟩
    · have hdeep : ¬ (t.leaves 0).all (·.length ≤ maxLength) = true := fun h => hflat (hall.2 h)
      rw [if_neg hflat, if_neg hdeep]
      by_cases hmore : (∀ c ∈ counts, 1 ≤ c.weight) ∧ ∃ c ∈ counts, 1 < c.weight
      · have less := totalWeight_halveAll_lt hmore.1 hmore.2
        have hlen' : (halveAll counts).length = counts.length := by rw [halveAll, List.length_map]
        have hweights : (counts.map Weighted.weight).toArray.map (fun weight => weight >>> 1 ||| 1) =
            ((halveAll counts).map Weighted.weight).toArray := by
          rw [List.map_toArray, List.map_map, halveAll, List.map_map]
          simp only [Function.comp_def, halve_eq]
        have hhalved : ∀ c ∈ halveAll counts, c.weight = halve (w c.item) := weight_halveAll_iterate hw 1
        have hne' : halveAll counts ≠ [] := fun h => hne (List.map_eq_nil_iff.1 h)
        obtain ⟨depths', hrun', hsize', hperm⟩ := ih _ (htotal ▸ less) hne' hhalved
          (fun s => one_le_halve_iterate 1 (hpos s)) (by rw [hlen']; exact fit) (by omega)
          (by rw [hlen']; exact hroom) rfl
        have hsame : leavesAt (fun i => depths'.getD i 0) (halveAll counts) =
            leavesAt (fun i => depths'.getD i 0) counts := by
          rw [leavesAt, leavesAt, halveAll, List.zipIdx_map, List.map_map]
          rfl
        rw [dif_pos hmore, hweights]
        exact ⟨depths', hrun', hsize'.trans hlen', hsame ▸ hperm⟩
      · have pos : ∀ c ∈ counts, 1 ≤ c.weight := fun c hc => hw c hc ▸ hpos c.item
        obtain ⟨u, hlimited, hheight, -⟩ := limitedLeaves_spec hne pos fit
        rw [limitedLeaves, htree, Option.map_some, Option.getD_some, if_neg hdeep, dif_neg hmore] at hlimited
        refine absurd (List.all_eq_true.2 ?_) hdeep
        intro leaf hleaf
        rw [hlimited] at hleaf
        have hle := (Tree.length_leaves hleaf).2
        exact decide_eq_true (by omega)

/-! ## Lengths -/

theorem placeLengths_eq {depths lengths : Array Nat} {counts : List (Weighted Nat)} {k : Nat}
    (hdepths : ∀ i < k + counts.length, i < depths.size ∧ depths.getD i 0 < 256)
    (hsymbols : ∀ c ∈ counts, c.item < lengths.size) :
    placeLengths depths lengths k counts = pure ((counts.zipIdx k).foldl
      (fun lengths (c, i) => lengths.setIfInBounds c.item (depths.getD i 0)) lengths) := by
  induction counts generalizing k lengths with
  | nil => rfl
  | cons c rest ih =>
    obtain ⟨hc, hrest⟩ := List.forall_mem_cons.1 hsymbols
    rw [List.length_cons] at hdepths
    obtain ⟨hk, hsmall⟩ := hdepths k (by omega)
    have hget : depths.getD k 0 = depths[k] := by
      rw [Array.getD_eq_getD_getElem?, Array.getElem?_eq_getElem hk, Option.getD_some]
    have hset : lengths.setIfInBounds c.item (depths.getD k 0) =
      lengths.set c.item (depths.getD k 0) hc := dif_pos hc
    have hnext : ∀ i < k + 1 + rest.length, i < depths.size ∧ depths.getD i 0 < 256 :=
      fun i hi => hdepths i (by omega)
    rw [placeLengths, load_of_lt hk, pure_bind, ← hget, Nat.mod_eq_of_lt hsmall, store_of_lt hc, pure_bind,
      ih hnext (by rw [Array.size_set]; exact hrest), List.zipIdx_cons, List.foldl_cons]
    dsimp only
    rw [hset]

/-- Writes to different places may be done in any order. -/
theorem spread_perm {size : Nat} {ls ls' : List Leaf} (h : ls.Perm ls')
    (nodup : (ls.map Leaf.symbol).Nodup) : spread size ls = spread size ls' := by
  refine h.foldl_eq' ?_ _
  intro a ha b hb lengths
  by_cases hab : a = b
  · rw [hab]
  · have hne : a.symbol ≠ b.symbol := fun heq => hab (List.inj_on_of_nodup_map nodup ha hb heq)
    exact Array.setIfInBounds_comm _ _ hne

/-- The lengths of several symbols, whatever their order. -/
theorem limitedLengths_eq {maxLength size : Nat} {counts : List (Weighted Nat)} {w : Nat → Nat}
    (hmax : maxLength < 256) (hne : counts ≠ []) (hw : ∀ c ∈ counts, c.weight = w c.item)
    (hpos : ∀ s, 1 ≤ w s) (fit : counts.length ≤ 2 ^ maxLength)
    (hload : totalWeight counts < 2 ^ 64) (hroom : 16 * counts.length ≤ 2 ^ 63)
    (nodup : (counts.map Weighted.item).Nodup) (hitems : ∀ c ∈ counts, c.item < size) :
    (Weights.limitDepths maxLength ⟨(counts.map Weighted.weight).toArray⟩ >>= fun depths =>
      placeLengths depths (Array.replicate size 0) 0 counts) =
      pure (spread size (limitedLeaves maxLength counts)) := by
  obtain ⟨depths, hrun, hdepths, hperm⟩ := limitDepths_spec hne hw hpos fit hload hroom
  have pos : ∀ c ∈ counts, 1 ≤ c.weight := fun c hc => hw c hc ▸ hpos c.item
  obtain ⟨t, hlimited, hheight, hsymbols⟩ := limitedLeaves_spec hne pos fit
  have hall : (leavesAt (fun i => depths.getD i 0) counts).all (·.length ≤ maxLength) = true := by
    rw [← hperm.all_eq, List.all_eq_true]
    intro leaf hleaf
    rw [hlimited] at hleaf
    have hle := (Tree.length_leaves hleaf).2
    exact decide_eq_true (by omega)
  have hsmall : ∀ i < 0 + counts.length, i < depths.size ∧ depths.getD i 0 < 256 := by
    intro i hi
    rw [Nat.zero_add] at hi
    have hle := all_leavesAt.1 hall i hi
    exact ⟨by omega, by omega⟩
  have hnodup : ((limitedLeaves maxLength counts).map Leaf.symbol).Nodup := by
    rw [hlimited, t.symbol_leaves]
    exact hsymbols.symm.nodup nodup
  rw [hrun, pure_bind, placeLengths_eq hsmall (by rw [Array.size_replicate]; exact hitems),
    spread_perm hperm hnodup, spread, leavesAt, List.foldl_map]

/-- Lengths are found without an overflow, as long as a word holds the sum of the counts and an array the
nodes of a tree over them. -/
theorem codeLengths_eq {maxLength : Nat} {counts : Array Nat} (hmax : maxLength < 256)
    (fit : (used counts).length ≤ 2 ^ maxLength) (hsum : counts.sum < 2 ^ 64)
    (hroom : 16 * (used counts).length ≤ 2 ^ 63) :
    codeLengths maxLength counts = pure (Huffman.codeLengths maxLength counts) := by
  have nodup := used_items_nodup counts
  have hw : ∀ c ∈ used counts, c.weight = countOrOne counts c.item := countOrOne_of_used
  have hitems : ∀ c ∈ used counts, c.item < counts.size := fun c hc =>
    (Array.getElem?_eq_some_iff.1 (mem_used.1 hc).1).1
  rw [← totalWeight_used] at hsum
  unfold codeLengths Huffman.codeLengths
  generalize used counts = cs at *
  match cs with
  | [] => rfl
  | [c] =>
    have hc : c.item < (Array.replicate counts.size 0).size := by
      rw [Array.size_replicate]
      exact hitems c List.mem_cons_self
    exact (store_of_lt hc).trans (congrArg pure (dif_pos hc).symm)
  | a :: b :: rest =>
    exact limitedLengths_eq hmax (List.cons_ne_nil _ _) hw (one_le_countOrOne counts) fit hsum hroom nodup
      hitems

/-- The sum of counts of 32 bits, of which few enough are not zero. -/
theorem sum_lt_of_length_used_le {counts : Array Nat} (hword : ∀ n ∈ counts, n < 2 ^ 32)
    (hlen : (used counts).length ≤ 2 ^ 32) : counts.sum < 2 ^ 64 := by
  have hle : ((used counts).map Weighted.weight).sum ≤
      ((used counts).map Weighted.weight).length • (2 ^ 32 - 1) := by
    apply List.sum_le_card_nsmul
    intro n hn
    obtain ⟨c, hc, rfl⟩ := List.mem_map.1 hn
    exact Nat.le_sub_one_of_lt (hword _ (Array.mem_of_getElem? (mem_used.1 hc).1))
  have hmul : (used counts).length * (2 ^ 32 - 1) ≤ 2 ^ 32 * (2 ^ 32 - 1) := Nat.mul_le_mul_right _ hlen
  rw [List.length_map, smul_eq_mul] at hle
  rw [← totalWeight_used, totalWeight_eq_sum]
  omega

end Machine

end LzCodec
