/-!
# Codeword lengths

Lengths come from a Huffman tree over the symbols that occur. Where the tree is deeper than allowed,
all counts are halved and made odd, and the tree is built again: the counts draw together, and equal
counts make a balanced tree.
-/

namespace LzCodec

namespace Huffman

/-- A symbol and the length of its codeword. -/
structure Leaf where
  symbol : Nat
  length : Nat
  deriving DecidableEq, Repr

inductive Tree where
  | leaf (symbol : Nat)
  | node (left right : Tree)
  deriving Repr

/-- The leaves with their depths, where the root is at `depth`. -/
def Tree.leaves (depth : Nat) : Tree → List Leaf
  | leaf symbol => [⟨symbol, depth⟩]
  | node left right => left.leaves (depth + 1) ++ right.leaves (depth + 1)

structure Weighted (α : Type) where
  weight : Nat
  item : α
  deriving Repr

/-- Inserts behind all items that weigh the same or less. -/
def enqueue {α : Type} (x : Weighted α) : List (Weighted α) → List (Weighted α)
  | [] => [x]
  | y :: rest => if y.weight ≤ x.weight then y :: enqueue x rest else x :: y :: rest

@[simp] theorem length_enqueue {α : Type} (x : Weighted α) (queue : List (Weighted α)) :
    (enqueue x queue).length = queue.length + 1 := by
  induction queue with
  | nil => rfl
  | cons y rest ih => simp only [enqueue]; split <;> simp [ih]

/-- Joins the two lightest trees until one is left. -/
def join : List (Weighted Tree) → Option Tree
  | [] => none
  | [t] => some t.item
  | s :: t :: rest => join (enqueue ⟨s.weight + t.weight, .node s.item t.item⟩ rest)
termination_by queue => queue.length
decreasing_by simp

/-- The Huffman tree of symbols with their counts. Of equal weights the earlier symbol, and before
any joined tree a symbol, is joined first. -/
def Tree.ofCounts (counts : List (Weighted Nat)) : Option Tree :=
  join (counts.foldl (fun queue c => enqueue ⟨c.weight, .leaf c.item⟩ queue) [])

/-- Half of a count, made odd. -/
def halve (count : Nat) : Nat := count / 4 * 2 + 1

theorem halve_le {count : Nat} (h : 1 ≤ count) : halve count ≤ count := by
  unfold halve; omega

theorem halve_lt {count : Nat} (h : 1 < count) : halve count < count := by
  unfold halve; omega

def totalWeight (counts : List (Weighted Nat)) : Nat := counts.foldr (fun c n => c.weight + n) 0

def halveAll (counts : List (Weighted Nat)) : List (Weighted Nat) :=
  counts.map fun c => ⟨halve c.weight, c.item⟩

theorem totalWeight_halveAll_le {counts : List (Weighted Nat)} (h : ∀ c ∈ counts, 1 ≤ c.weight) :
    totalWeight (halveAll counts) ≤ totalWeight counts := by
  induction counts with
  | nil => exact Nat.le_refl _
  | cons c rest ih =>
    have hc := halve_le (h c List.mem_cons_self)
    have hr := ih fun d hd => h d (List.mem_cons_of_mem _ hd)
    simp only [totalWeight, halveAll, List.map_cons, List.foldr_cons] at hr ⊢
    omega

theorem totalWeight_halveAll_lt {counts : List (Weighted Nat)} (h : ∀ c ∈ counts, 1 ≤ c.weight)
    (hex : ∃ c ∈ counts, 1 < c.weight) : totalWeight (halveAll counts) < totalWeight counts := by
  induction counts with
  | nil => obtain ⟨c, hc, _⟩ := hex; cases hc
  | cons c rest ih =>
    have hc := halve_le (h c List.mem_cons_self)
    have hrest : ∀ d ∈ rest, 1 ≤ d.weight := fun d hd => h d (List.mem_cons_of_mem _ hd)
    have hr := totalWeight_halveAll_le hrest
    simp only [totalWeight, halveAll, List.map_cons, List.foldr_cons] at hr ih ⊢
    obtain ⟨d, hd, hw⟩ := hex
    cases hd with
    | head => have := halve_lt hw; omega
    | tail _ hd =>
      have := ih hrest ⟨d, hd, hw⟩
      omega

/-- The leaves of the first tree that is at most `maxLength` deep. Counts are positive; once all of
them are 1, the tree is as flat as it gets and is taken as it is. -/
def limitedLeaves (maxLength : Nat) (counts : List (Weighted Nat)) : List Leaf :=
  let leaves := ((Tree.ofCounts counts).map (Tree.leaves 0)).getD []
  if leaves.all (·.length ≤ maxLength) then
    leaves
  else if h : (∀ c ∈ counts, 1 ≤ c.weight) ∧ ∃ c ∈ counts, 1 < c.weight then
    have := totalWeight_halveAll_lt h.1 h.2
    limitedLeaves maxLength (halveAll counts)
  else
    leaves
termination_by totalWeight counts

/-- The symbols that occur, in order, with their counts. -/
def used (counts : Array Nat) : List (Weighted Nat) :=
  counts.toList.zipIdx.filterMap fun (count, symbol) =>
    if count = 0 then none else some ⟨count, symbol⟩

/-- Writes each leaf's length at its symbol; all other symbols have length 0. -/
def spread (size : Nat) (leaves : List Leaf) : Array Nat :=
  leaves.foldl (fun lengths leaf => lengths.setIfInBounds leaf.symbol leaf.length)
    (Array.replicate size 0)

/-- The codeword length of each symbol, at most `maxLength`; 0 where the count is 0. A symbol that
occurs alone still gets a codeword of one bit. -/
def codeLengths (maxLength : Nat) (counts : Array Nat) : Array Nat :=
  match used counts with
  | [] => spread counts.size []
  | [c] => spread counts.size [⟨c.item, 1⟩]
  | cs => spread counts.size (limitedLeaves maxLength cs)

@[simp] theorem size_spread (size : Nat) (leaves : List Leaf) : (spread size leaves).size = size := by
  suffices h : ∀ start : Array Nat, (leaves.foldl (fun lengths leaf =>
      lengths.setIfInBounds leaf.symbol leaf.length) start).size = start.size by
    simp [spread, h]
  induction leaves with
  | nil => exact fun _ => rfl
  | cons leaf rest ih => intro start; simp [ih]

@[simp] theorem size_codeLengths (maxLength : Nat) (counts : Array Nat) :
    (codeLengths maxLength counts).size = counts.size := by
  unfold codeLengths; split <;> simp

end Huffman

end LzCodec
