import LzCodec.Proofs.Huffman.Optimality
import LzCodec.Proofs.Huffman.Scaling

/-!
# What codewords cost

The limit on the lengths makes a code worse than the best one, and how much worse has no simple bound.
Against fixed lengths it can still be compared. A code for up to 288 symbols is no worse than nine bits
for each (`sum_limitedLeaves_le`): in a tree deeper than that, the leaves in the upper rows are so heavy
that they make up for the deep ones, at the true counts as well as at the halved ones. And a code is no
worse than lengths that leave room even if each is made one bit shorter (`sum_limitedLeaves_le_of_fits`):
counts are halved only where there are many, and then a bit for each is more than halving can spoil.
-/

namespace LzCodec

namespace Huffman

/-- What leaves lose by codewords longer than `f` is made up by what others gain, one step of the scale
less each: then they gain at any counts of that scale. -/
theorem sum_length_le {ls : List Leaf} {w b f : Nat → Nat} {m : Nat}
    (hlow : ∀ s, m * (b s - 1) ≤ w s) (hhigh : ∀ s, w s ≤ m * (b s + 1))
    (h : (ls.map fun leaf => (b leaf.symbol + 1) * (leaf.length - f leaf.symbol)).sum ≤
      (ls.map fun leaf => (b leaf.symbol - 1) * (f leaf.symbol - leaf.length)).sum) :
    (ls.map fun leaf => w leaf.symbol * leaf.length).sum ≤
      (ls.map fun leaf => w leaf.symbol * f leaf.symbol).sum := by
  have hleaf (leaf : Leaf) :
      w leaf.symbol * leaf.length + m * ((b leaf.symbol - 1) * (f leaf.symbol - leaf.length)) ≤
        w leaf.symbol * f leaf.symbol +
          m * ((b leaf.symbol + 1) * (leaf.length - f leaf.symbol)) := by
    have hl := hlow leaf.symbol
    have hh := hhigh leaf.symbol
    rw [← Nat.mul_assoc, ← Nat.mul_assoc]
    rcases Nat.le_total leaf.length (f leaf.symbol) with hle | hle
    · obtain ⟨gain, hgain⟩ := Nat.exists_eq_add_of_le hle
      rw [hgain, Nat.add_sub_cancel_left, Nat.sub_eq_zero_of_le (Nat.le_add_right _ _), Nat.mul_zero,
        Nat.mul_add, Nat.add_zero]
      exact Nat.add_le_add_left (Nat.mul_le_mul_right _ hl) _
    · obtain ⟨loss, hloss⟩ := Nat.exists_eq_add_of_le hle
      rw [hloss, Nat.add_sub_cancel_left, Nat.sub_eq_zero_of_le (Nat.le_add_right _ _), Nat.mul_zero,
        Nat.mul_add, Nat.add_zero]
      exact Nat.add_le_add_left (Nat.mul_le_mul_right _ hh) _
  have hsum := List.sum_le_sum (l := ls) fun leaf _ => hleaf leaf
  rw [List.sum_map_add, List.sum_map_add, List.sum_map_mul_left, List.sum_map_mul_left] at hsum
  have hscaled := Nat.mul_le_mul_left m h
  omega

namespace Tree

variable {b : Nat → Nat} {t : Tree}

theorem one_le_weight (hb : ∀ s, 1 ≤ b s) (t : Tree) : 1 ≤ t.weight b := by
  induction t with
  | leaf symbol => exact hb symbol
  | node left right ihl _ => exact Nat.le_trans ihl (Nat.le_add_right _ _)

theorem two_le_weight (hb : ∀ s, 1 ≤ b s) (left right : Tree) : 2 ≤ (node left right).weight b :=
  Nat.add_le_add (one_le_weight hb left) (one_le_weight hb right)

theorem length_symbols_pos (t : Tree) : 0 < t.symbols.length := by
  induction t with
  | leaf symbol => simp [symbols]
  | node left right ihl _ =>
    simp only [symbols, List.length_append]
    omega

/-- Below the ninth row, inner nodes have at most two thirds of the weight of those in it. -/
theorem three_mul_cost_le (h : t.Graded b) {top : Nat}
    (htop : ∀ l r, node l r ∈ t.row 9 → (node l r).weight b ≤ top) {x : Tree} (down : Nat)
    (hx : x ∈ t.row (9 + 1 + down)) :
    3 * x.cost b + 2 * top ≤ 2 * (top * x.symbols.length) := by
  induction x generalizing down with
  | leaf symbol => simp [cost, symbols]
  | node l r ihl ihr =>
    have hl := ihl (down + 1) (mem_row_succ.2 ⟨l, r, hx, .inl rfl⟩)
    have hr := ihr (down + 1) (mem_row_succ.2 ⟨l, r, hx, .inr rfl⟩)
    have hfork := h.three_mul_weight_le htop hx
    rw [symbols, List.length_append, Nat.mul_add, cost]
    rw [weight] at hfork
    omega

theorem cost_succ_le (hb : ∀ s, 1 ≤ b s) (t : Tree) :
    t.weight (fun s => b s + 1) ≤ 2 * t.weight b ∧ t.cost (fun s => b s + 1) ≤ 2 * t.cost b := by
  induction t with
  | leaf symbol =>
    have := hb symbol
    simp only [weight, cost]
    omega
  | node left right ihl ihr =>
    simp only [weight, cost]
    omega

/-- What a subtree that stands `depth` rows down loses against nine bits, and what it gains. -/
def loss (b : Nat → Nat) (depth : Nat) (x : Tree) : Nat :=
  ((x.leaves depth).map fun leaf => (b leaf.symbol + 1) * (leaf.length - 9)).sum

def gain (b : Nat → Nat) (depth : Nat) (x : Tree) : Nat :=
  ((x.leaves depth).map fun leaf => (b leaf.symbol - 1) * (9 - leaf.length)).sum

theorem loss_node (b : Nat → Nat) (depth : Nat) (l r : Tree) :
    (node l r).loss b depth = l.loss b (depth + 1) + r.loss b (depth + 1) := by
  simp only [loss, leaves, List.map_append, List.sum_append]

theorem gain_node (b : Nat → Nat) (depth : Nat) (l r : Tree) :
    (node l r).gain b depth = l.gain b (depth + 1) + r.gain b (depth + 1) := by
  simp only [gain, leaves, List.map_append, List.sum_append]

/-- The leaves below an inner node of the ninth row pay for their bits, and for its window. -/
theorem loss_nine_le (h : t.Graded b) (hb : ∀ s, 1 ≤ b s) {top : Nat}
    (htop : ∀ l r, node l r ∈ t.row 9 → (node l r).weight b ≤ top) {l r : Tree}
    (hx : node l r ∈ t.row 9) :
    5 * (node l r).loss b 9 + 4 * top ≤ 7 * (top * (node l r).symbols.length) := by
  have hw := htop l r hx
  have hl := three_mul_cost_le h htop 0 (mem_row_succ.2 ⟨l, r, hx, .inl rfl⟩)
  have hr := three_mul_cost_le h htop 0 (mem_row_succ.2 ⟨l, r, hx, .inr rfl⟩)
  have hloss : (node l r).loss b 9 = (node l r).cost fun s => b s + 1 := by
    simpa [loss] using sum_leaves_below (fun s => b s + 1) 9 0 (node l r)
  have hdouble := (cost_succ_le hb (node l r)).2
  have htwo : 2 ≤ (node l r).symbols.length := by
    rw [symbols, List.length_append]
    exact Nat.add_le_add (length_symbols_pos l) (length_symbols_pos r)
  have hmany := Nat.mul_le_mul_left top htwo
  have hcost : 3 * (node l r).cost b + top ≤ 2 * (top * (node l r).symbols.length) := by
    rw [symbols, List.length_append, Nat.mul_add, cost]
    rw [weight] at hw
    omega
  omega

/-- Above the ninth row, a leaf weighs enough to pay for its place and to give back its windows. -/
theorem four_mul_window_le {up top n : Nat} (hup : up ≤ 8) (htop : 2 ≤ top)
    (hfib : Nat.fib (up + 2) * top ≤ 2 * n) : 4 * (top * 2 ^ up) ≤ 7 * top + 5 * ((n - 1) * up) := by
  have htable : ∀ up < 9, 8 * 2 ^ up + 5 * up ≤ 14 + 5 * (up * Nat.fib (up + 2)) := by decide
  have hpos : 1 ≤ n := by
    have hone : 1 * top ≤ Nat.fib (up + 2) * top :=
      Nat.mul_le_mul_right _ (Nat.fib_pos.2 (Nat.succ_pos _))
    omega
  obtain ⟨m, rfl⟩ := Nat.exists_eq_add_of_le' hpos
  have hscaled : 8 * (top * 2 ^ up) + 5 * (up * top) ≤ 14 * top + 10 * (up * (m + 1)) := by
    calc
      8 * (top * 2 ^ up) + 5 * (up * top) = (8 * 2 ^ up + 5 * up) * top := by ring
      _ ≤ (14 + 5 * (up * Nat.fib (up + 2))) * top :=
        Nat.mul_le_mul_right _ (htable up (Nat.lt_succ_of_le hup))
      _ = 14 * top + 5 * (up * (Nat.fib (up + 2) * top)) := by ring
      _ ≤ 14 * top + 5 * (up * (2 * (m + 1))) :=
        Nat.add_le_add_left (Nat.mul_le_mul_left _ (Nat.mul_le_mul_left _ hfib)) _
      _ = 14 * top + 10 * (up * (m + 1)) := by ring
  have htwo : up * 2 ≤ up * top := Nat.mul_le_mul_left up htop
  rw [Nat.mul_add, Nat.mul_one, Nat.mul_comm up m] at hscaled
  rw [Nat.add_sub_cancel]
  omega

/-- Each leaf pays seven fifths of the heaviest inner node of the ninth row. This covers what is lost
below that row, and the windows of nine bits give back four fifths for each. -/
theorem loss_le_gain_add (h : t.Graded b) (hb : ∀ s, 1 ≤ b s) {left right : Tree}
    (hfork : node left right ∈ t.row 9)
    (htop : ∀ l r, node l r ∈ t.row 9 → (node l r).weight b ≤ (node left right).weight b)
    {x : Tree} {depth : Nat} (hdepth : depth ≤ 9) (hx : x ∈ t.row depth) :
    5 * x.loss b depth + 4 * ((node left right).weight b * 2 ^ (9 - depth)) ≤
      7 * ((node left right).weight b * x.symbols.length) + 5 * x.gain b depth := by
  have htwo := two_le_weight hb left right
  generalize htopEq : (node left right).weight b = top at htop htwo ⊢
  induction x generalizing depth with
  | leaf symbol =>
    -- The root is no leaf, as there is a row below it.
    have hup : 9 - depth ≤ 8 := by
      cases depth with
      | zero =>
        rw [← List.mem_singleton.1 hx] at hfork
        cases hfork
      | succ depth => omega
    rw [show 9 = depth + (9 - depth) by omega] at hfork
    have hheavy := (h.fib_le_row hfork).2 _ hx
    rw [htopEq] at hheavy
    have hpays := four_mul_window_le hup htwo hheavy
    have hnone : depth - 9 = 0 := by omega
    simpa [loss, gain, leaves, symbols, weight, hnone] using hpays
  | node l r ihl ihr =>
    by_cases hlow : depth = 9
    · subst hlow
      have hnine := loss_nine_le h hb htop hx
      simp only [Nat.sub_self, Nat.pow_zero, Nat.mul_one]
      omega
    · have hl := @ihl (depth + 1) (by omega) (mem_row_succ.2 ⟨l, r, hx, .inl rfl⟩)
      have hr := @ihr (depth + 1) (by omega) (mem_row_succ.2 ⟨l, r, hx, .inr rfl⟩)
      have hwindow : 2 ^ (9 - depth) = 2 ^ (9 - (depth + 1)) * 2 := by
        rw [← Nat.pow_succ]
        congr 1
        omega
      rw [hwindow, loss_node, gain_node, symbols, List.length_append, Nat.mul_add top,
        ← Nat.mul_assoc top]
      omega

theorem exists_heaviest_fork (b : Nat → Nat) {t : Tree} {depth : Nat} (h : depth < t.height) :
    ∃ left right, node left right ∈ t.row depth ∧
      ∀ l r, node l r ∈ t.row depth → (node l r).weight b ≤ (node left right).weight b := by
  let forks : Set Tree := {x | x ∈ t.row depth ∧ ∃ l r, x = node l r}
  have hfinite : forks.Finite := (List.finite_toSet (t.row depth)).subset fun x hx => hx.1
  obtain ⟨l, r, hfork⟩ := exists_fork h
  obtain ⟨_, ⟨hmem, left, right, rfl⟩, hmax⟩ :=
    Set.exists_max_image forks (weight b) hfinite ⟨_, hfork, l, r, rfl⟩
  exact ⟨left, right, hmem, fun l r hlr => hmax _ ⟨hlr, l, r, rfl⟩⟩

/-- A Huffman tree of few leaves gains at least as much against nine bits as it loses. -/
theorem loss_le_gain (h : t.Graded b) (hb : ∀ s, 1 ≤ b s) (hfew : 7 * t.symbols.length ≤ 4 * 2 ^ 9) :
    t.loss b 0 ≤ t.gain b 0 := by
  by_cases hheight : 9 < t.height
  · obtain ⟨left, right, hfork, htop⟩ := exists_heaviest_fork b hheight
    have hpaid := loss_le_gain_add h hb hfork htop (Nat.zero_le 9) (List.mem_singleton_self t)
    have hscaled := Nat.mul_le_mul_left ((node left right).weight b) hfew
    rw [Nat.mul_left_comm, Nat.mul_left_comm _ 4] at hscaled
    omega
  · have hnone : t.loss b 0 = 0 := by
      apply List.sum_eq_zero
      intro n hn
      obtain ⟨leaf, hleaf, rfl⟩ := List.mem_map.1 hn
      have hlength := (length_leaves hleaf).2
      rw [Nat.sub_eq_zero_of_le (by omega), Nat.mul_zero]
    rw [hnone]
    exact Nat.zero_le _

/-- A deep Huffman tree is heavy. -/
theorem Graded.fib_le_weight (h : t.Graded b) (hb : ∀ s, 1 ≤ b s) {n : Nat} (hn : n < t.height) :
    Nat.fib (n + 3) ≤ t.weight b := by
  obtain ⟨left, right, hfork⟩ := exists_fork hn
  rw [← Nat.zero_add n] at hfork
  obtain ⟨x, hx, hfib⟩ := (h.fib_le_row hfork).1
  obtain rfl := List.mem_singleton.1 hx
  have := Nat.mul_le_mul_left (Nat.fib (n + 3)) (two_le_weight hb left right)
  omega

theorem sum_symbols (f : Nat → Nat) (t : Tree) (depth : Nat) :
    ((t.leaves depth).map fun leaf => f leaf.symbol).sum = (t.symbols.map f).sum := by
  rw [← symbol_leaves t depth, List.map_map]
  rfl

theorem weight_eq_sum (w : Nat → Nat) (t : Tree) : t.weight w = (t.symbols.map w).sum := by
  induction t with
  | leaf symbol => simp [weight, symbols]
  | node left right ihl ihr => rw [weight, symbols, List.map_append, List.sum_append, ihl, ihr]

theorem weight_le_halve {t u : Tree} (h : u.symbols.Perm t.symbols) (b : Nat → Nat) :
    u.weight b ≤ 2 * t.weight (fun s => halve (b s)) + t.symbols.length := by
  rw [weight_eq_sum, weight_eq_sum, (h.map b).sum_eq]
  calc
    (t.symbols.map b).sum ≤ (t.symbols.map fun s => 2 * halve (b s) + 1).sum :=
      List.sum_le_sum fun s _ => le_halve (b s)
    _ = 2 * (t.symbols.map fun s => halve (b s)).sum + t.symbols.length := by
      rw [List.sum_map_add, List.sum_map_mul_left, List.map_const', List.sum_replicate, smul_eq_mul,
        Nat.mul_one]

end Tree

/-! ## Counts -/

/-- What a symbol weighs where all symbols weigh something. -/
def countOrOne (counts : Array Nat) (s : Nat) : Nat := max 1 (counts.getD s 0)

theorem one_le_countOrOne (counts : Array Nat) (s : Nat) : 1 ≤ countOrOne counts s :=
  Nat.le_max_left _ _

theorem countOrOne_of_used {counts : Array Nat} :
    ∀ c ∈ used counts, c.weight = countOrOne counts c.item := by
  intro c hc
  rw [countOrOne, getD_of_used hc, Nat.max_eq_right (mem_used.1 hc).2]

theorem totalWeight_eq_sum (counts : List (Weighted Nat)) :
    totalWeight counts = (counts.map Weighted.weight).sum := by
  rw [List.sum_eq_foldr, List.foldr_map]
  rfl

/-- Symbols that do not occur add nothing. -/
theorem totalWeight_used (counts : Array Nat) : totalWeight (used counts) = counts.sum := by
  have h (ns : List Nat) : ∀ k, (((ns.zipIdx k).filterMap fun c =>
      if c.1 = 0 then none else some (⟨c.1, c.2⟩ : Weighted Nat)).map Weighted.weight).sum = ns.sum := by
    induction ns with
    | nil => exact fun _ => rfl
    | cons n rest ih =>
      intro k
      rw [List.zipIdx_cons, List.filterMap_cons, List.sum_cons]
      dsimp only
      by_cases hn : n = 0
      · rw [if_pos hn, ih, hn, Nat.zero_add]
      · rw [if_neg hn, List.map_cons, List.sum_cons, ih]
  rw [totalWeight_eq_sum]
  exact (h counts.toList 0).trans Array.sum_toList

section
variable {counts : List (Weighted Nat)} {w : Nat → Nat} {t : Tree}

theorem weight_ofCounts (hne : counts ≠ []) (hw : ∀ c ∈ counts, c.weight = w c.item)
    (run : Tree.ofCounts counts = some t) : t.weight w = totalWeight counts := by
  obtain ⟨u, hu, hsymbols⟩ := ofCounts_perm hne
  obtain rfl := Option.some.inj (run.symm.trans hu)
  rw [Tree.weight_eq_sum, (hsymbols.map w).sum_eq, totalWeight_eq_sum, List.map_map]
  exact congrArg List.sum (List.map_congr_left fun c hc => (hw c hc).symm)

/-- A tree over few occurrences is not deep, however many symbols there are. -/
theorem height_le_of_totalWeight_lt {n : Nat} (hne : counts ≠ [])
    (hw : ∀ c ∈ counts, c.weight = w c.item) (hpos : ∀ s, 1 ≤ w s)
    (hload : totalWeight counts < Nat.fib (n + 3)) (run : Tree.ofCounts counts = some t) :
    t.height ≤ n := by
  by_contra hdeep
  have hheavy := (graded_ofCounts hw run).fib_le_weight hpos (Nat.lt_of_not_le hdeep)
  rw [weight_ofCounts hne hw run] at hheavy
  omega

end

/-! ## Limited lengths -/

section
variable {counts : List (Weighted Nat)} {w : Nat → Nat}

theorem weight_halveAll_iterate (hw : ∀ c ∈ counts, c.weight = w c.item) (k : Nat) :
    ∀ c ∈ halveAll^[k] counts, c.weight = halve^[k] (w c.item) := by
  intro c hc
  obtain ⟨d, hd, rfl⟩ := mem_halveAll_iterate hc
  rw [← hw d hd]

/-- However often the counts are halved, the code is no worse than one of nine bits for each symbol. -/
theorem sum_limitedLeaves_le {maxLength : Nat} (hne : counts ≠ [])
    (hw : ∀ c ∈ counts, c.weight = w c.item) (hpos : ∀ s, 1 ≤ w s)
    (fit : counts.length ≤ 2 ^ maxLength) (hfew : 7 * counts.length ≤ 4 * 2 ^ 9) :
    ((limitedLeaves maxLength counts).map fun leaf => w leaf.symbol * leaf.length).sum ≤
      ((limitedLeaves maxLength counts).map fun leaf => w leaf.symbol * 9).sum := by
  have pos : ∀ c ∈ counts, 1 ≤ c.weight := fun c hc => hw c hc ▸ hpos c.item
  obtain ⟨k, t, hleaves, run, -, -⟩ := limitedLeaves_scaled hne pos fit
  have hgraded : t.Graded fun s => halve^[k] (w s) :=
    graded_ofCounts (weight_halveAll_iterate hw k) run
  have hsymbols := (symbols_ofCounts_iterate hne run).length_eq
  rw [List.length_map] at hsymbols
  rw [hleaves]
  refine sum_length_le (fun s => halve_iterate_le k (w s)) (fun s => le_halve_iterate k (w s))
    (f := fun _ => 9) ?_
  exact Tree.loss_le_gain hgraded (fun s => one_le_halve_iterate k (hpos s)) (by rwa [hsymbols])

/-- What lengths cost that are compared to a code by bits saved, one for each occurrence. -/
theorem loss_le_gain_of_saved {ls : List Leaf} {b f : Nat → Nat} {saved : Nat}
    (hb : ∀ s, 1 ≤ b s) (hnear : ∀ leaf ∈ ls, leaf.length ≤ f leaf.symbol + 10 ∧ f leaf.symbol ≤ 10)
    (hsaved : (ls.map fun leaf => b leaf.symbol * leaf.length).sum + saved ≤
      (ls.map fun leaf => b leaf.symbol * f leaf.symbol).sum)
    (hmany : 10 * ls.length ≤ saved) :
    (ls.map fun leaf => (b leaf.symbol + 1) * (leaf.length - f leaf.symbol)).sum ≤
      (ls.map fun leaf => (b leaf.symbol - 1) * (f leaf.symbol - leaf.length)).sum := by
  have hleaf : ∀ leaf ∈ ls,
      (b leaf.symbol + 1) * (leaf.length - f leaf.symbol) + b leaf.symbol * f leaf.symbol ≤
        (b leaf.symbol - 1) * (f leaf.symbol - leaf.length) +
          (b leaf.symbol * leaf.length + 10) := by
    intro leaf hleaf
    obtain ⟨hlong, hshort⟩ := hnear leaf hleaf
    obtain ⟨m, hm⟩ := Nat.exists_eq_add_of_le' (hb leaf.symbol)
    rw [hm, Nat.add_sub_cancel]
    rcases Nat.le_total leaf.length (f leaf.symbol) with hle | hle
    · obtain ⟨gain, hgain⟩ := Nat.exists_eq_add_of_le hle
      rw [hgain, Nat.add_sub_cancel_left, Nat.sub_eq_zero_of_le (Nat.le_add_right _ _), Nat.mul_zero,
        Nat.mul_add, Nat.add_mul m 1 gain]
      omega
    · obtain ⟨loss, hloss⟩ := Nat.exists_eq_add_of_le hle
      rw [hloss, Nat.add_sub_cancel_left, Nat.sub_eq_zero_of_le (Nat.le_add_right _ _), Nat.mul_zero,
        Nat.mul_add, Nat.add_mul (m + 1) 1 loss]
      omega
  have hsum := List.sum_le_sum hleaf
  rw [List.sum_map_add, List.sum_map_add, List.sum_map_add, List.map_const', List.sum_replicate,
    smul_eq_mul] at hsum
  omega

/-- Against lengths that leave room when each is made one bit shorter, a Huffman tree saves a bit for
each occurrence. -/
theorem sum_leaves_add_weight_le {b f : Nat → Nat} {u : Tree} {width : Nat}
    (hb : ∀ c ∈ counts, c.weight = b c.item) (hf : ∀ c ∈ counts, 1 ≤ f c.item)
    (hfits : Fits width (counts.map fun c => f c.item - 1)) (run : Tree.ofCounts counts = some u)
    (hsymbols : u.symbols.Perm (counts.map Weighted.item)) :
    ((u.leaves 0).map fun leaf => b leaf.symbol * leaf.length).sum + u.weight b ≤
      ((u.leaves 0).map fun leaf => b leaf.symbol * f leaf.symbol).sum := by
  have hcost := cost_ofCounts_le hb (fun s => f s - 1) hfits run
  have hshorter : (counts.map fun c => c.weight * (f c.item - 1)).sum + u.weight b =
      ((u.leaves 0).map fun leaf => b leaf.symbol * f leaf.symbol).sum := by
    rw [Tree.sum_symbols (fun s => b s * f s), Tree.weight_eq_sum, (hsymbols.map _).sum_eq,
      (hsymbols.map _).sum_eq, List.map_map, List.map_map, ← List.sum_map_add]
    apply congrArg List.sum
    apply List.map_congr_left
    intro c hc
    obtain ⟨n, hn⟩ := Nat.exists_eq_add_of_le' (hf c hc)
    simp only [Function.comp_apply, hb c hc, hn, Nat.add_sub_cancel, Nat.mul_add, Nat.mul_one]
  rw [Tree.sum_leaves]
  omega

/-- Counts whose tree was too deep are many, and still are when they are halved once more. -/
theorem ten_mul_length_le_weight {j : Nat} {t u : Tree} (hne : counts ≠ [])
    (hw : ∀ c ∈ counts, c.weight = w c.item) (hpos : ∀ s, 1 ≤ w s)
    (hfew : 21 * counts.length ≤ Nat.fib 18) (run : Tree.ofCounts (halveAll^[j + 1] counts) = some t)
    (before : Tree.ofCounts (halveAll^[j] counts) = some u) (hhigh : 15 < u.height) :
    10 * counts.length ≤ t.weight fun s => halve^[j + 1] (w s) := by
  have hsymbols := symbols_ofCounts_iterate hne run
  have hgraded : u.Graded fun s => halve^[j] (w s) :=
    graded_ofCounts (weight_halveAll_iterate hw j) before
  have hheavy : Nat.fib 18 ≤ _ :=
    hgraded.fib_le_weight (fun s => one_le_halve_iterate j (hpos s)) hhigh
  have hhalved := Tree.weight_le_halve
    ((symbols_ofCounts_iterate hne before).trans hsymbols.symm) fun s => halve^[j] (w s)
  rw [hsymbols.length_eq, List.length_map] at hhalved
  simp only [Function.iterate_succ_apply']
  omega

/-- Lengths that leave room when each is made one bit shorter are as bad as the limited ones: where the
counts were halved, there are so many that the saved bits outweigh one step of the scale each. -/
theorem sum_limitedLeaves_le_of_fits {f : Nat → Nat} {width : Nat} (hne : counts ≠ [])
    (hw : ∀ c ∈ counts, c.weight = w c.item) (hpos : ∀ s, 1 ≤ w s)
    (hfew : 21 * counts.length ≤ Nat.fib 18) (hf : ∀ c ∈ counts, 5 ≤ f c.item ∧ f c.item ≤ 10)
    (hfits : Fits width (counts.map fun c => f c.item - 1)) :
    ((limitedLeaves 15 counts).map fun leaf => w leaf.symbol * leaf.length).sum ≤
      ((limitedLeaves 15 counts).map fun leaf => w leaf.symbol * f leaf.symbol).sum := by
  have pos : ∀ c ∈ counts, 1 ≤ c.weight := fun c hc => hw c hc ▸ hpos c.item
  have fit : counts.length ≤ 2 ^ 15 := by
    have hfib : Nat.fib 18 ≤ 21 * 2 ^ 15 := by decide
    omega
  obtain ⟨k, t, hleaves, run, hheight, hbefore⟩ := limitedLeaves_scaled hne pos fit
  have hsymbols := symbols_ofCounts_iterate hne run
  have hitems : (halveAll^[k] counts).map Weighted.item = counts.map Weighted.item :=
    items_halveAll_iterate k counts
  have hsaved : ((t.leaves 0).map fun leaf => halve^[k] (w leaf.symbol) * leaf.length).sum +
      t.weight (fun s => halve^[k] (w s)) ≤
        ((t.leaves 0).map fun leaf => halve^[k] (w leaf.symbol) * f leaf.symbol).sum := by
    refine @sum_leaves_add_weight_le _ (fun s => halve^[k] (w s)) f t width
      (weight_halveAll_iterate hw k) ?_ ?_ run (hitems ▸ hsymbols)
    · intro c hc
      obtain ⟨d, hd, rfl⟩ := mem_halveAll_iterate hc
      exact Nat.le_trans (by decide) (hf d hd).1
    · have hlengths := congrArg (List.map fun s => f s - 1) hitems
      rw [List.map_map, List.map_map] at hlengths
      exact hlengths ▸ hfits
  rw [hleaves]
  cases k with
  | zero => exact Nat.le_trans (Nat.le_add_right _ _) hsaved
  | succ j =>
    apply sum_length_le (fun s => halve_iterate_le (j + 1) (w s)) fun s =>
      le_halve_iterate (j + 1) (w s)
    apply loss_le_gain_of_saved (fun s => one_le_halve_iterate _ (hpos s)) ?_ hsaved ?_
    · intro leaf hleaf
      obtain ⟨c, hc, hitem⟩ := List.mem_map.1 (hsymbols.mem_iff.1
        (t.symbol_leaves 0 ▸ List.mem_map_of_mem hleaf))
      have hrange := hf c hc
      have hlength := (Tree.length_leaves hleaf).2
      rw [← hitem]
      omega
    · obtain ⟨u, before, hhigh⟩ := hbefore j (Nat.lt_succ_self j)
      have hcount := hsymbols.length_eq
      rw [← t.symbol_leaves 0, List.length_map, List.length_map] at hcount
      rw [hcount]
      exact ten_mul_length_le_weight hne hw hpos hfew run before hhigh

end

end Huffman

end LzCodec
