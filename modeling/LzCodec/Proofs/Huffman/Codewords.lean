import LzCodec.Huffman.Decoder
import LzCodec.Huffman.Encoder
import LzCodec.Proofs.Bits.Streams
import LzCodec.Proofs.Huffman.Lengths

/-!
# Canonical codewords and their decoder

In canonical order each codeword, filled up with zeros to the longest length, is the number of
windows before it (`code_spec`). The decoder's table lists the leaves window by window, so a codeword
and whatever follows it fall into the run of its own leaf (`reads_decode`).
-/

namespace LzCodec

namespace Huffman

open BitString

def longest (lengths : Array Nat) : Nat := lengths.foldl max 0

/-- Lengths that have room for a code within the limit. -/
def Admissible (lengths : Array Nat) : Prop :=
  longest lengths ≤ maxCodeLength ∧
    windows (longest lengths) (leaves lengths) ≤ 2 ^ longest lengths

instance : DecidablePred Admissible :=
  fun _ => inferInstanceAs (Decidable (_ ∧ _))

theorem foldl_max_le {l : List Nat} {start n : Nat} :
    l.foldl max start ≤ n ↔ start ≤ n ∧ ∀ x ∈ l, x ≤ n := by
  induction l generalizing start with
  | nil => simp
  | cons x rest ih =>
    rw [List.foldl_cons, ih, Nat.max_le, List.forall_mem_cons, and_assoc]

theorem longest_le {lengths : Array Nat} {n : Nat} :
    longest lengths ≤ n ↔ ∀ leaf ∈ leaves lengths, leaf.length ≤ n := by
  rw [longest, ← Array.foldl_toList, foldl_max_le]
  constructor
  · rintro ⟨_, h⟩ leaf hleaf
    exact h _ (List.mem_of_getElem? (Array.getElem?_toList ▸ (mem_leaves.1 hleaf).1))
  · intro h
    refine ⟨Nat.zero_le _, ?_⟩
    intro x hx
    by_cases h0 : x = 0
    · rw [h0]
      exact Nat.zero_le _
    · obtain ⟨i, hi⟩ := List.mem_iff_getElem?.1 hx
      rw [Array.getElem?_toList] at hi
      exact h ⟨i, x⟩ (mem_leaves.2 ⟨hi, Nat.pos_of_ne_zero h0⟩)

theorem length_le_longest {lengths : Array Nat} {leaf : Leaf} (h : leaf ∈ leaves lengths) :
    leaf.length ≤ longest lengths :=
  longest_le.1 (Nat.le_refl _) leaf h

/-- Room within the limit is room within the longest length. -/
theorem admissible_of_windows {lengths : Array Nat}
    (bound : ∀ leaf ∈ leaves lengths, leaf.length ≤ maxCodeLength)
    (room : windows maxCodeLength (leaves lengths) ≤ 2 ^ maxCodeLength) : Admissible lengths := by
  have hlong := longest_le.2 bound
  refine ⟨hlong, ?_⟩
  obtain ⟨more, hmore⟩ := Nat.exists_eq_add_of_le hlong
  rw [hmore, windows_widen more fun _ h => length_le_longest h, Nat.pow_add, Nat.mul_comm] at room
  exact Nat.le_of_mul_le_mul_right room (Nat.two_pow_pos more)

theorem Assigned.admissible {counts lengths : Array Nat}
    (h : Assigned maxCodeLength counts (leaves lengths)) : Admissible lengths := by
  apply admissible_of_windows fun leaf hleaf => (h.bounds leaf hleaf).2
  have hcount : (leaves lengths).length = (used counts).length := by
    simpa using h.symbols.length_eq
  by_cases two : 2 ≤ (used counts).length
  · exact Nat.le_of_eq (h.full two)
  · match hl : leaves lengths with
    | [] => exact Nat.zero_le _
    | [leaf] =>
      rw [windows_cons, windows_nil, Nat.add_zero]
      exact Nat.pow_le_pow_right (by decide) (Nat.sub_le _ _)
    | _ :: _ :: _ =>
      rw [hl] at hcount
      simp only [List.length_cons] at hcount
      omega

/-! ## Canonical order -/

theorem precedes_trans (a b c : Leaf) (hab : a.precedes b = true) (hbc : b.precedes c = true) :
    a.precedes c = true := by
  simp only [Leaf.precedes, Bool.or_eq_true, Bool.and_eq_true, decide_eq_true_eq,
    beq_iff_eq] at hab hbc ⊢
  omega

theorem precedes_total (a b : Leaf) : (a.precedes b || b.precedes a) = true := by
  simp only [Leaf.precedes, Bool.or_eq_true, Bool.and_eq_true, decide_eq_true_eq, beq_iff_eq]
  omega

theorem canonicalOrder_perm (lengths : Array Nat) :
    (canonicalOrder lengths).Perm (leaves lengths) :=
  List.mergeSort_perm _ _

theorem canonicalOrder_sorted (lengths : Array Nat) :
    (canonicalOrder lengths).Pairwise fun a b => a.length ≤ b.length := by
  refine (List.pairwise_mergeSort precedes_trans precedes_total (leaves lengths)).imp ?_
  intro a b h
  simp only [Leaf.precedes, Bool.or_eq_true, Bool.and_eq_true, decide_eq_true_eq,
    beq_iff_eq] at h
  omega

theorem canonicalOrder_symbols_nodup (lengths : Array Nat) :
    ((canonicalOrder lengths).map Leaf.symbol).Nodup :=
  ((canonicalOrder_perm lengths).map _).symm.nodup (leaves_symbols_nodup lengths)

theorem mem_canonicalOrder {lengths : Array Nat} {leaf : Leaf} :
    leaf ∈ canonicalOrder lengths ↔ leaf ∈ leaves lengths :=
  (canonicalOrder_perm lengths).mem_iff

theorem windows_canonicalOrder (width : Nat) (lengths : Array Nat) :
    windows width (canonicalOrder lengths) = windows width (leaves lengths) :=
  windows_perm width (canonicalOrder_perm lengths)

/-! ## Codes -/

theorem map_assign (next width : Nat) (order : List Leaf) :
    (assign next width order).map Codeword.toLeaf = order := by
  induction order generalizing next width with
  | nil => rfl
  | cons leaf rest ih => rw [assign, List.map_cons, ih]

/-- A code starts behind the windows of the codes before it. -/
theorem assign_spec (next width top : Nat) {before after : List Leaf} {leaf : Leaf}
    (sorted : (before ++ leaf :: after).Pairwise fun a b => a.length ≤ b.length)
    (bounds : ∀ l ∈ before ++ leaf :: after, width ≤ l.length ∧ l.length ≤ top) :
    ∃ code, ⟨leaf, code⟩ ∈ assign next width (before ++ leaf :: after) ∧
      code * 2 ^ (top - leaf.length) = next * 2 ^ (top - width) + windows top before := by
  induction before generalizing next width with
  | nil =>
    have hb := bounds leaf List.mem_cons_self
    refine ⟨next * 2 ^ (leaf.length - width), List.mem_cons_self, ?_⟩
    rw [Nat.mul_assoc, ← Nat.pow_add, windows_nil, Nat.add_zero,
      show leaf.length - width + (top - leaf.length) = top - width by omega]
  | cons b rest ih =>
    have hb := bounds b List.mem_cons_self
    rw [List.cons_append, List.pairwise_cons] at sorted
    obtain ⟨code, hmem, hcode⟩ := ih (next * 2 ^ (b.length - width) + 1) b.length
      sorted.2 (fun l hl =>
        ⟨sorted.1 l hl, (bounds l (List.mem_cons_of_mem _ hl)).2⟩)
    refine ⟨code, List.mem_cons_of_mem _ hmem, ?_⟩
    rw [hcode, windows_cons, Nat.add_mul, Nat.mul_assoc, ← Nat.pow_add, Nat.one_mul, Nat.add_assoc,
      show b.length - width + (top - b.length) = top - width by omega]

theorem windows_before_lt {width : Nat} {before after : List Leaf} {leaf : Leaf} {room : Nat}
    (h : windows width (before ++ leaf :: after) ≤ room) :
    windows width before + 2 ^ (width - leaf.length) ≤ room := by
  rw [windows_append, windows_cons] at h
  omega

/-- The code of a symbol, in as many bits as its length says. -/
theorem code_spec {lengths : Array Nat} (h : Admissible lengths) {before after : List Leaf}
    {leaf : Leaf} (split : canonicalOrder lengths = before ++ leaf :: after) :
    ∃ code, (canonicalCodes lengths)[leaf.symbol]? = some code ∧ code < 2 ^ leaf.length ∧
      code * 2 ^ (longest lengths - leaf.length) = windows (longest lengths) before := by
  have hleaf : leaf ∈ leaves lengths := by
    rw [← mem_canonicalOrder, split]
    exact List.mem_append_right _ List.mem_cons_self
  have hlen := length_le_longest hleaf
  obtain ⟨code, hmem, hcode⟩ := assign_spec 0 0 (longest lengths)
    (split ▸ canonicalOrder_sorted lengths) (fun l hl => ⟨Nat.zero_le _,
      length_le_longest (mem_canonicalOrder.1 (split ▸ hl))⟩)
  rw [Nat.zero_mul, Nat.zero_add] at hcode
  have hroom := h.2
  rw [← windows_canonicalOrder, split] at hroom
  have hlt : code < 2 ^ leaf.length := by
    apply Nat.lt_of_mul_lt_mul_right (a := 2 ^ (longest lengths - leaf.length))
    rw [← Nat.pow_add, Nat.add_sub_cancel' hlen, hcode]
    exact Nat.lt_of_lt_of_le (Nat.lt_add_of_pos_right (Nat.two_pow_pos _)) (windows_before_lt hroom)
  refine ⟨code, ?_, hlt, hcode⟩
  have h16 : code < 65536 := by
    have := Nat.pow_le_pow_right (show 0 < 2 by decide) (Nat.le_trans hlen h.1)
    simp only [maxCodeLength] at this
    omega
  have nodup : ((codewords lengths).map fun w => w.symbol).Nodup := by
    have hmap : (codewords lengths).map (fun w => w.symbol) =
        (canonicalOrder lengths).map Leaf.symbol := by
      rw [← map_assign 0 0 (canonicalOrder lengths), List.map_map]
      rfl
    rw [hmap]
    exact canonicalOrder_symbols_nodup lengths
  have hword : ⟨leaf, code⟩ ∈ codewords lengths := by rwa [codewords, split]
  have hsize : leaf.symbol < (Array.replicate lengths.size 0).size := by
    simpa using symbol_lt_size hleaf
  have hget := getElem?_foldl_set (fun w : Codeword => w.symbol) (fun w => w.code % 65536) nodup
    hword hsize
  rw [canonicalCodes, hget, Nat.mod_eq_of_lt h16]

/-! ## The table of a decoder -/

namespace Decoder

/-- The runs of windows, one for each leaf. -/
def runs (width : Nat) (order : List Leaf) : List Leaf :=
  order.flatMap fun leaf => List.replicate (2 ^ (width - leaf.length)) leaf

theorem toList_foldl_runs (width : Nat) (order : List Leaf) (table : Array Leaf) :
    (order.foldl (fun table leaf => table ++ Array.replicate (2 ^ (width - leaf.length)) leaf)
      table).toList = table.toList ++ runs width order := by
  induction order generalizing table with
  | nil => simp [runs]
  | cons leaf rest ih =>
    rw [List.foldl_cons, ih, Array.toList_append, Array.toList_replicate, runs, runs,
      List.flatMap_cons, List.append_assoc]

theorem length_runs (width : Nat) (order : List Leaf) :
    (runs width order).length = windows width order := by
  induction order with
  | nil => rfl
  | cons leaf rest ih =>
    rw [runs, List.flatMap_cons, List.length_append, List.length_replicate, windows_cons, ← ih, runs]

/-- A window within the run of a leaf leads to it. -/
theorem getElem?_runs {width : Nat} {before after : List Leaf} {leaf : Leaf} {i : Nat}
    (h : i < 2 ^ (width - leaf.length)) :
    (runs width (before ++ leaf :: after))[windows width before + i]? = some leaf := by
  have hsplit : runs width (before ++ leaf :: after) = runs width before ++
      (List.replicate (2 ^ (width - leaf.length)) leaf ++ runs width after) := by
    rw [runs, List.flatMap_append, List.flatMap_cons, runs, runs]
  rw [hsplit, List.getElem?_append_right (by rw [length_runs]; exact Nat.le_add_right _ _),
    length_runs, Nat.add_sub_cancel_left,
    List.getElem?_append_left (by rwa [List.length_replicate]), List.getElem?_replicate, if_pos h]

theorem ofLengths_of_admissible {lengths : Array Nat} (h : Admissible lengths) :
    ofLengths lengths =
      .ok ⟨longest lengths, (runs (longest lengths) (canonicalOrder lengths)).toArray⟩ := by
  have hroom := h.2
  rw [← windows_canonicalOrder] at hroom
  have hfits : ¬ (maxCodeLength < longest lengths ∨
      2 ^ longest lengths < windows (longest lengths) (canonicalOrder lengths)) := by
    have := h.1
    omega
  have htable := toList_foldl_runs (longest lengths) (canonicalOrder lengths) #[]
  rw [List.nil_append] at htable
  rw [← htable, Array.toArray_toList]
  exact if_neg hfits

theorem ofLengths_of_not_admissible {lengths : Array Nat} (h : ¬ Admissible lengths) :
    ofLengths lengths = .error .badCodeTable := by
  refine if_pos ?_
  rw [windows_canonicalOrder]
  rw [Admissible] at h
  have hlong : lengths.foldl max 0 = longest lengths := rfl
  rw [hlong]
  omega

theorem decode_none {d : Decoder} {r : BitReader} (h : d.table[r.peek d.width]? = none) :
    decode d r = .error .badCodeword r := by
  have hget : (get : BitParser BitReader) r = .ok r r := rfl
  simp only [decode, Bind.bind, EStateM.bind, hget, h]
  rfl

theorem decode_some {d : Decoder} {r : BitReader} {leaf : Leaf}
    (h : d.table[r.peek d.width]? = some leaf) :
    decode d r = (do BitReader.skip leaf.length; return leaf.symbol % 65536 : BitParser Nat) r := by
  have hget : (get : BitParser BitReader) r = .ok r r := rfl
  simp only [decode, Bind.bind, EStateM.bind, hget, h]

end Decoder

/-- The codeword of a symbol as bits. -/
def codeBits (lengths : Array Nat) (symbol : Nat) : List Bool :=
  ofNat ((canonicalCodes lengths).getD symbol 0) (lengths.getD symbol 0)

theorem getD_le_longest (lengths : Array Nat) (symbol : Nat) :
    lengths.getD symbol 0 ≤ longest lengths := by
  rw [Array.getD_eq_getD_getElem?]
  cases hget : lengths[symbol]? with
  | none => exact Nat.zero_le _
  | some length =>
    by_cases hzero : length = 0
    · rw [hzero]
      exact Nat.zero_le _
    · exact length_le_longest (mem_leaves.2 ⟨hget, Nat.pos_of_ne_zero hzero⟩ :
        (⟨symbol, length⟩ : Leaf) ∈ leaves lengths)

theorem length_codeBits_le (lengths : Array Nat) (symbol : Nat) :
    (codeBits lengths symbol).length ≤ longest lengths := by
  rw [codeBits, length_ofNat]
  exact getD_le_longest lengths symbol

theorem codeBits_eq {lengths : Array Nat} {leaf : Leaf} {code : Nat} (hleaf : leaf ∈ leaves lengths)
    (hcode : (canonicalCodes lengths)[leaf.symbol]? = some code) :
    codeBits lengths leaf.symbol = ofNat code leaf.length := by
  rw [codeBits, Array.getD_eq_getD_getElem?, Array.getD_eq_getD_getElem?, hcode,
    (mem_leaves.1 hleaf).1]
  rfl

theorem Decoder.reads_decode {lengths : Array Nat} (h : Admissible lengths) {d : Decoder}
    (hd : ofLengths lengths = .ok d) {leaf : Leaf} (hleaf : leaf ∈ leaves lengths)
    (hsymbol : leaf.symbol < 65536) :
    BitReader.Reads (decode d) (codeBits lengths leaf.symbol) leaf.symbol := by
  obtain ⟨hwidth, htable⟩ : d.width = longest lengths ∧
      d.table = (runs (longest lengths) (canonicalOrder lengths)).toArray := by
    rw [ofLengths_of_admissible h, Except.ok.injEq] at hd
    rw [← hd]
    exact ⟨rfl, rfl⟩
  obtain ⟨before, after, split⟩ := List.append_of_mem (mem_canonicalOrder.2 hleaf)
  obtain ⟨code, hcode, hlt, hstart⟩ := code_spec h split
  rw [codeBits_eq hleaf hcode]
  intro r tail hrest
  obtain ⟨more, hmore⟩ := Nat.exists_eq_add_of_le (length_le_longest hleaf)
  -- the window is the codeword followed by some bits of the tail
  have hfront := front_append (ofNat code leaf.length) tail more
  rw [length_ofNat] at hfront
  have hpeek : r.peek (longest lengths) =
      windows (longest lengths) before + toNat (front tail more) := by
    rw [BitReader.peek_eq, hrest, hmore, hfront, toNat_append, toNat_ofNat, Nat.mod_eq_of_lt hlt,
      length_front, ← hmore, ← hstart, hmore, Nat.add_sub_cancel_left]
  have hi : toNat (front tail more) < 2 ^ (longest lengths - leaf.length) := by
    have hlen := toNat_lt (front tail more)
    rw [length_front] at hlen
    rwa [hmore, Nat.add_sub_cancel_left]
  have hlook : d.table[r.peek d.width]? = some leaf := by
    rw [hwidth, htable, List.getElem?_toArray, hpeek, split, getElem?_runs hi]
  rw [decode_some hlook, Nat.mod_eq_of_lt hsymbol]
  have hskip := BitReader.reads_skip (ofNat code leaf.length)
  rw [length_ofNat] at hskip
  have hread := hskip.bind (f := fun _ => pure leaf.symbol) (BitReader.reads_pure leaf.symbol)
  rw [List.append_nil] at hread
  exact hread r tail hrest

theorem Encoder.bits_put (lengths : Array Nat) (w : BitWriter) (symbol : Nat) :
    ((Encoder.ofLengths lengths).put w symbol).bits = w.bits ++ codeBits lengths symbol :=
  BitWriter.bits_put _ _ _

end Huffman

end LzCodec
