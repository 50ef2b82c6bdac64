import Mathlib.Data.List.Nodup
import LzCodec.Proofs.Huffman.Codewords
import LzCodec.Proofs.Machine.Reader

/-!
# The codeword decoder on machine words

Codes are counted up in words of 32 bits and fill a table of fixed size. A table `Holds` a decoder if
it leads from each window to the same leaf; then both read the same symbols (`refines_decode`), and
reading their table gives such a pair (`refines_readTable`).
-/

namespace LzCodec

namespace Machine

open Huffman BitReader

/-- Gives out codes from `code`, a number of `width` bits. -/
def assignCodes (code width : Nat) (codes : Array Nat) : List Leaf → Machine (Array Nat)
  | [] => pure codes
  | leaf :: rest => do
    let code ← shiftLeft 32 code (← sub leaf.length width)
    let codes ← store codes leaf.symbol (code % 65536)
    assignCodes (← add 32 code 1) leaf.length codes rest

/-- The code of each symbol in sixteen bits. -/
def canonicalCodes (lengths : Array Nat) : Machine (Array Nat) :=
  assignCodes 0 0 (Array.replicate lengths.size 0) (canonicalOrder lengths)

structure Entry where
  symbol : Nat
  length : Nat

/-- A table of the next `width` bits. Entries of length 0 belong to no symbol. -/
structure Table where
  entries : Array Entry
  width : Nat

/-- Adds up the windows of the leaves. -/
def sumWindows (width sum : Nat) : List Leaf → Machine Nat
  | [] => pure sum
  | leaf :: rest => do
    let count ← shiftLeft 64 1 (← sub width leaf.length)
    sumWindows width (← add 64 sum count) rest

/-- Overwrites the entries from `start` up to `stop`. -/
def fill (entries : Array Entry) (start stop : Nat) (e : Entry) : Machine (Array Entry) :=
  if start ≤ stop ∧ stop ≤ entries.size then
    pure (entries.mapIdx fun i old => if start ≤ i ∧ i < stop then e else old)
  else
    throw .outOfRange

/-- Fills in the windows of each leaf. -/
def fillLeaves (width : Nat) (codes : Array Nat) (entries : Array Entry) :
    List Leaf → Machine (Array Entry)
  | [] => pure entries
  | leaf :: rest => do
    let shift ← sub width leaf.length
    let start ← shiftLeft 64 (← load codes leaf.symbol) shift
    let stop ← add 64 start (← shiftLeft 64 1 shift)
    fillLeaves width codes (← fill entries start stop ⟨leaf.symbol % 65536, leaf.length⟩) rest

def tableOf (lengths : Array Nat) : Machine Table := do
  let width := lengths.foldl max 0
  if maxCodeLength < width then
    corrupt .badCodeTable
  else if (← shiftLeft 64 1 width) < (← sumWindows width 0 (leaves lengths)) then
    corrupt .badCodeTable
  else
    let codes ← canonicalCodes lengths
    let entries := Array.replicate (← shiftLeft 64 1 width) ⟨0, 0⟩
    return ⟨← fillLeaves width codes entries (leaves lengths), width⟩

/-- A signed number as a word of 64 bits. -/
def asUnsigned (a : Int) : Nat := (a % UInt64.size).toNat

/-- The longest codeword of a table and the number of its symbols. -/
structure Extent where
  width : Nat
  size : Nat

/-- Reads the entries of symbols behind `last`. -/
def Extent.readLengths (e : Extent) (last : Int) (lengths : Array Nat) : Parser (Array Nat) := do
  let delta ← getVarint
  if delta = 0 then
    return lengths
  let symbol ← addSigned 63 last delta
  if e.size ≤ asUnsigned symbol then
    corrupt .badCodeTable
  else
    let short ← getVarint
    if e.width ≤ short then
      corrupt .badCodeTable
    else
      let length ← sub e.width short
      let lengths ← store lengths (asUnsigned symbol) (length % 256)
      e |>.readLengths symbol lengths
partial_fixpoint

/-- Reads the table of an alphabet of `size` symbols. -/
def readTable (size : Nat) : Parser Table := do
  let width ← getVarint
  if maxCodeLength < width then
    corrupt .badCodeTable
  else
    tableOf (← Extent.readLengths ⟨width, size⟩ (-1) (Array.replicate size 0))

def decode (t : Table) : Parser Nat := do
  if t.width = 0 then
    corrupt .badCodeword
  else
    let e ← load t.entries (← peek t.width)
    if e.length = 0 then
      corrupt .badCodeword
    else
      skip e.length
      return e.symbol

/-- Reads a symbol as `decode` does, and keeps the reader where there is none. -/
def tryDecode (t : Table) : Attempt Nat := do
  if t.width = 0 then
    throw .badCodeword
  else
    let e ← load t.entries (← peek t.width)
    if e.length = 0 then
      throw .badCodeword
    else
      attempt (skip e.length)
      return e.symbol

/-! ## Codes -/

/-- Counting up codes overflows nowhere, as long as there is room for all of them. -/
theorem assignCodes_eq {next width top : Nat} {codes : Array Nat} {order : List Leaf}
    (htop : top ≤ maxCodeLength) (sorted : order.Pairwise fun a b => a.length ≤ b.length)
    (bounds : ∀ leaf ∈ order, width ≤ leaf.length ∧ leaf.length ≤ top)
    (symbols : ∀ leaf ∈ order, leaf.symbol < codes.size)
    (room : next * 2 ^ (top - width) + windows top order ≤ 2 ^ top) :
    assignCodes next width codes order = pure ((assign next width order).foldl
      (fun codes w => codes.setIfInBounds w.symbol (w.code % 65536)) codes) := by
  induction order generalizing next width codes with
  | nil => rfl
  | cons leaf rest ih =>
    obtain ⟨hfirst, hrest⟩ := List.forall_mem_cons.1 bounds
    obtain ⟨hsymbol, hsymbols⟩ := List.forall_mem_cons.1 symbols
    obtain ⟨hsorted, sorted⟩ := List.pairwise_cons.1 sorted
    have hexp : top - width = leaf.length - width + (top - leaf.length) := by omega
    have hroom : (next * 2 ^ (leaf.length - width) + 1) * 2 ^ (top - leaf.length) +
        windows top rest ≤ 2 ^ top := by
      rw [windows_cons, hexp, Nat.pow_add, ← Nat.mul_assoc] at room
      rw [Nat.add_mul, Nat.one_mul]
      omega
    have hcode : next * 2 ^ (leaf.length - width) + 1 ≤ 2 ^ leaf.length := by
      have hsplit : 2 ^ top = 2 ^ leaf.length * 2 ^ (top - leaf.length) := by
        rw [← Nat.pow_add, Nat.add_sub_cancel' hfirst.2]
      have hle := Nat.le_trans (Nat.le_add_right _ _) hroom
      rw [hsplit] at hle
      exact Nat.le_of_mul_le_mul_right hle (Nat.two_pow_pos _)
    have hword : 2 ^ leaf.length ≤ 2 ^ maxCodeLength :=
      Nat.pow_le_pow_right (by decide) (Nat.le_trans hfirst.2 htop)
    simp only [maxCodeLength] at hword htop
    have hfit : next * 2 ^ (leaf.length - width) % 2 ^ 32 = next * 2 ^ (leaf.length - width) :=
      Nat.mod_eq_of_lt (by omega)
    have hkeep : ∀ l ∈ rest, l.symbol <
        (codes.set leaf.symbol (next * 2 ^ (leaf.length - width) % 65536) hsymbol).size := by
      intro l hl
      rw [Array.size_set]
      exact hsymbols l hl
    have hnext := ih sorted (fun l hl => ⟨hsorted l hl, (hrest l hl).2⟩) hkeep hroom
    rw [assignCodes, sub_of_le hfirst.1, pure_bind, shiftLeft_of_lt (by omega), pure_bind,
      hfit, store_of_lt hsymbol, pure_bind, add_of_lt (by omega), pure_bind,
      hnext, assign, List.foldl_cons, Array.setIfInBounds, dif_pos hsymbol]

theorem canonicalCodes_eq {lengths : Array Nat} (h : Admissible lengths) :
    canonicalCodes lengths = pure (Huffman.canonicalCodes lengths) := by
  refine assignCodes_eq h.1 (canonicalOrder_sorted lengths) ?_ ?_ ?_
  · intro leaf hleaf
    exact ⟨Nat.zero_le _, length_le_longest (mem_canonicalOrder.1 hleaf)⟩
  · intro leaf hleaf
    rw [Array.size_replicate]
    exact symbol_lt_size (mem_canonicalOrder.1 hleaf)
  · rw [Nat.zero_mul, Nat.zero_add, windows_canonicalOrder]
    exact h.2

/-! ## The table -/

/-- The entry of what a window leads to. -/
def entryOf : Option Leaf → Entry
  | none => ⟨0, 0⟩
  | some leaf => ⟨leaf.symbol % 65536, leaf.length⟩

/-- The table leads from each window to the leaf of the decoder. -/
structure Table.Holds (t : Table) (d : Decoder) (size : Nat) : Prop where
  width : t.width = d.width
  width_le : d.width ≤ maxCodeLength
  size_eq : t.entries.size = 2 ^ d.width
  entries : ∀ i < 2 ^ d.width, t.entries[i]? = some (entryOf d.table[i]?)
  leaves : ∀ leaf ∈ d.table, 1 ≤ leaf.length ∧ leaf.length ≤ d.width ∧ leaf.symbol < size

/-- Adding up the windows overflows nowhere. -/
theorem sumWindows_eq {width sum : Nat} {order : List Leaf} (hwidth : width ≤ maxCodeLength)
    (bounds : ∀ leaf ∈ order, leaf.length ≤ width)
    (few : sum + 2 ^ maxCodeLength * order.length < 2 ^ 64) :
    sumWindows width sum order = pure (sum + windows width order) := by
  induction order generalizing sum with
  | nil => rfl
  | cons leaf rest ih =>
    obtain ⟨hfirst, hrest⟩ := List.forall_mem_cons.1 bounds
    have hle : 2 ^ (width - leaf.length) ≤ 2 ^ maxCodeLength :=
      Nat.pow_le_pow_right (by decide) (by omega)
    simp only [maxCodeLength] at hwidth hle few
    rw [List.length_cons] at few
    have hfit : 1 * 2 ^ (width - leaf.length) % 2 ^ 64 = 2 ^ (width - leaf.length) := by
      rw [Nat.one_mul]
      exact Nat.mod_eq_of_lt (by omega)
    have hfew : sum + 2 ^ (width - leaf.length) + 2 ^ maxCodeLength * rest.length < 2 ^ 64 := by
      simp only [maxCodeLength]
      omega
    have hnext := ih hrest hfew
    rw [sumWindows, sub_of_le hfirst, pure_bind, shiftLeft_of_lt (by omega), pure_bind, hfit,
      add_of_lt (by omega), pure_bind, hnext, windows_cons, Nat.add_assoc]

/-- A window that leads to a leaf lies within the run of the leaf. -/
theorem window_of_getElem? {width i : Nat} {before after : List Leaf} {leaf : Leaf}
    (nodup : (before ++ leaf :: after).Nodup)
    (h : (Decoder.runs width (before ++ leaf :: after))[i]? = some leaf) :
    windows width before ≤ i ∧ i < windows width before + 2 ^ (width - leaf.length) := by
  have hnot : leaf ∉ before ∧ leaf ∉ after := by
    have hperm := List.nodup_middle.1 nodup
    simpa using (List.nodup_cons.1 hperm).1
  have mem_of_runs {ls : List Leaf} (hmem : leaf ∈ Decoder.runs width ls) : leaf ∈ ls := by
    obtain ⟨l, hl, hin⟩ := List.mem_flatMap.1 hmem
    obtain rfl := List.eq_of_mem_replicate hin
    exact hl
  have hsplit : Decoder.runs width (before ++ leaf :: after) = Decoder.runs width before ++
      (List.replicate (2 ^ (width - leaf.length)) leaf ++ Decoder.runs width after) := by
    rw [Decoder.runs, List.flatMap_append, List.flatMap_cons, Decoder.runs, Decoder.runs]
  rw [hsplit] at h
  by_cases hbefore : i < windows width before
  · rw [List.getElem?_append_left (by rwa [Decoder.length_runs])] at h
    exact absurd (mem_of_runs (List.mem_of_getElem? h)) hnot.1
  · have hge := Nat.le_of_not_lt hbefore
    refine ⟨hge, ?_⟩
    by_contra hafter
    rw [List.getElem?_append_right (by rwa [Decoder.length_runs]), Decoder.length_runs,
      List.getElem?_append_right (by rw [List.length_replicate]; omega)] at h
    exact absurd (mem_of_runs (List.mem_of_getElem? h)) hnot.2

/-- The run of a leaf in the table: where it starts, and that exactly its windows lead to the leaf. -/
theorem exists_run {lengths : Array Nat} (h : Admissible lengths) {leaf : Leaf}
    (hleaf : leaf ∈ leaves lengths) :
    ∃ code, (Huffman.canonicalCodes lengths)[leaf.symbol]? = some code ∧
      (code + 1) * 2 ^ (longest lengths - leaf.length) ≤ 2 ^ longest lengths ∧
      ∀ i, (Decoder.runs (longest lengths) (canonicalOrder lengths))[i]? = some leaf ↔
        code * 2 ^ (longest lengths - leaf.length) ≤ i ∧
          i < (code + 1) * 2 ^ (longest lengths - leaf.length) := by
  obtain ⟨before, after, split⟩ := List.append_of_mem (mem_canonicalOrder.2 hleaf)
  obtain ⟨code, hcode, -, hstart⟩ := code_spec h split
  have hstop : (code + 1) * 2 ^ (longest lengths - leaf.length) =
      windows (longest lengths) before + 2 ^ (longest lengths - leaf.length) := by
    rw [Nat.add_mul, Nat.one_mul, hstart]
  refine ⟨code, hcode, ?_, ?_⟩
  · have hroom := h.2
    rw [← windows_canonicalOrder, split] at hroom
    rw [hstop]
    exact windows_before_lt hroom
  · intro i
    rw [hstart, hstop, split]
    constructor
    · intro hget
      have nodup := (canonicalOrder_perm lengths).nodup_iff.2 (leaves_nodup lengths)
      rw [split] at nodup
      exact window_of_getElem? nodup hget
    · rintro ⟨hge, hlt⟩
      have hin : i - windows (longest lengths) before < 2 ^ (longest lengths - leaf.length) := by
        omega
      have hget : (Decoder.runs (longest lengths) (before ++ leaf :: after))[
          windows (longest lengths) before + (i - windows (longest lengths) before)]? = some leaf :=
        Decoder.getElem?_runs hin
      rwa [Nat.add_sub_cancel' hge] at hget

theorem fill_eq {entries : Array Entry} {start stop : Nat} {e : Entry} (h : start ≤ stop)
    (hstop : stop ≤ entries.size) :
    fill entries start stop e =
      pure (entries.mapIdx fun i old => if start ≤ i ∧ i < stop then e else old) :=
  if_pos ⟨h, hstop⟩

/-- Filling in the runs overflows nowhere and stays within the table. Afterwards each window leads to
the leaf it belongs to, if that leaf is among those done. -/
theorem fillLeaves_spec {lengths : Array Nat} (h : Admissible lengths) {done rest : List Leaf}
    {entries : Array Entry} (hrest : ∀ leaf ∈ rest, leaf ∈ leaves lengths)
    (hsize : entries.size = 2 ^ longest lengths)
    (hentries : ∀ i < 2 ^ longest lengths, entries[i]? = some (entryOf
      ((Decoder.runs (longest lengths) (canonicalOrder lengths))[i]?.filter (· ∈ done)))) :
    ∃ filled, fillLeaves (longest lengths) (Huffman.canonicalCodes lengths) entries rest =
        pure filled ∧ filled.size = 2 ^ longest lengths ∧
      ∀ i < 2 ^ longest lengths, filled[i]? = some (entryOf
        ((Decoder.runs (longest lengths) (canonicalOrder lengths))[i]?.filter (· ∈ done ++ rest))) := by
  induction rest generalizing done entries with
  | nil => exact ⟨entries, rfl, hsize, by simpa using hentries⟩
  | cons leaf rest ih =>
    obtain ⟨hleaf, hrest⟩ := List.forall_mem_cons.1 hrest
    obtain ⟨code, hcode, hroom, hrun⟩ := exists_run h hleaf
    have hlen := length_le_longest hleaf
    have hwidth := h.1
    have htop : 2 ^ longest lengths ≤ 2 ^ maxCodeLength :=
      Nat.pow_le_pow_right (by decide) hwidth
    have hstop : (code + 1) * 2 ^ (longest lengths - leaf.length) =
        code * 2 ^ (longest lengths - leaf.length) + 2 ^ (longest lengths - leaf.length) := by
      rw [Nat.add_mul, Nat.one_mul]
    have hpos := Nat.two_pow_pos (longest lengths - leaf.length)
    simp only [maxCodeLength] at hwidth htop
    have hfirst : code * 2 ^ (longest lengths - leaf.length) % 2 ^ 64 =
        code * 2 ^ (longest lengths - leaf.length) := Nat.mod_eq_of_lt (by omega)
    have hcount : 1 * 2 ^ (longest lengths - leaf.length) % 2 ^ 64 =
        2 ^ (longest lengths - leaf.length) := by
      rw [Nat.one_mul]
      exact Nat.mod_eq_of_lt (by omega)
    rw [fillLeaves, sub_of_le hlen, pure_bind, load_of_getElem? hcode, pure_bind,
      shiftLeft_of_lt (by omega), pure_bind, shiftLeft_of_lt (by omega), pure_bind, hfirst, hcount,
      add_of_lt (by omega), pure_bind, fill_eq (Nat.le_add_right _ _) (by omega), pure_bind, ← hstop]
    suffices hfill : ∀ i < 2 ^ longest lengths, (entries.mapIdx fun i old =>
        if code * 2 ^ (longest lengths - leaf.length) ≤ i ∧
          i < (code + 1) * 2 ^ (longest lengths - leaf.length) then
          ⟨leaf.symbol % 65536, leaf.length⟩ else old)[i]? = some (entryOf
            ((Decoder.runs (longest lengths) (canonicalOrder lengths))[i]?.filter
              (· ∈ done ++ [leaf]))) by
      have hdone := ih hrest (by rw [Array.size_mapIdx, hsize]) hfill
      rw [List.append_assoc] at hdone
      exact hdone
    · intro i hi
      rw [Array.getElem?_mapIdx, hentries i hi, Option.map_some]
      by_cases hin : (Decoder.runs (longest lengths) (canonicalOrder lengths))[i]? = some leaf
      · rw [if_pos ((hrun i).1 hin), hin]
        simp [entryOf, Option.filter]
      · rw [if_neg fun h => hin ((hrun i).2 h)]
        cases hget : (Decoder.runs (longest lengths) (canonicalOrder lengths))[i]? with
        | none => rfl
        | some l =>
          have hne : l ≠ leaf := fun heq => hin (heq ▸ hget)
          simp [Option.filter, hne]

/-- The table of admissible lengths is the decoder of these lengths; all others are refused. -/
theorem tableOf_spec (lengths : Array Nat) (hsize : lengths.size ≤ 65536) :
    match Decoder.ofLengths lengths with
    | .ok d => ∃ t, tableOf lengths = pure t ∧ t.Holds d lengths.size
    | .error cause => tableOf lengths = corrupt cause := by
  have hlong : lengths.foldl max 0 = longest lengths := rfl
  unfold tableOf
  dsimp only
  rw [hlong]
  by_cases hwidth : longest lengths ≤ maxCodeLength
  · have hcount : (leaves lengths).length ≤ 65536 := Nat.le_trans (length_leaves_le lengths) hsize
    have hfew : 0 + 2 ^ maxCodeLength * (leaves lengths).length < 2 ^ 64 := by
      simp only [maxCodeLength]
      omega
    have hsum := sumWindows_eq hwidth (fun leaf hleaf => length_le_longest hleaf) hfew
    have hwidth' := hwidth
    simp only [maxCodeLength] at hwidth'
    have hword : 1 * 2 ^ longest lengths % 2 ^ 64 = 2 ^ longest lengths := by
      rw [Nat.one_mul]
      exact Nat.mod_eq_of_lt (Nat.pow_lt_pow_right (by decide) (by omega))
    rw [if_neg (Nat.not_lt_of_le hwidth), shiftLeft_of_lt (by omega), pure_bind, hsum, pure_bind,
      hword, Nat.zero_add]
    by_cases hroom : windows (longest lengths) (leaves lengths) ≤ 2 ^ longest lengths
    · have hadm : Admissible lengths := ⟨hwidth, hroom⟩
      have hstart : ∀ i < 2 ^ longest lengths,
          (Array.replicate (2 ^ longest lengths) (⟨0, 0⟩ : Entry))[i]? = some (entryOf
            ((Decoder.runs (longest lengths) (canonicalOrder lengths))[i]?.filter (· ∈ []))) := by
        intro i hi
        rw [Array.getElem?_replicate, if_pos hi]
        cases (Decoder.runs (longest lengths) (canonicalOrder lengths))[i]? <;> rfl
      obtain ⟨filled, hfill, hfilled, hentries⟩ := fillLeaves_spec hadm
        (fun leaf hleaf => hleaf) (Array.size_replicate) hstart
      have hruns {leaf : Leaf}
          (hmem : leaf ∈ Decoder.runs (longest lengths) (canonicalOrder lengths)) :
          leaf ∈ leaves lengths := by
        obtain ⟨l, hl, hin⟩ := List.mem_flatMap.1 hmem
        obtain rfl := List.eq_of_mem_replicate hin
        exact mem_canonicalOrder.1 hl
      rw [if_neg (Nat.not_lt_of_le hroom), canonicalCodes_eq hadm, pure_bind, pure_bind, hfill,
        pure_bind, Decoder.ofLengths_of_admissible hadm]
      refine ⟨_, rfl, rfl, hwidth, hfilled, ?_, ?_⟩
      · intro i hi
        rw [hentries i hi, List.nil_append, List.getElem?_toArray]
        cases hget : (Decoder.runs (longest lengths) (canonicalOrder lengths))[i]? with
        | none => rfl
        | some leaf => simp [Option.filter, hruns (List.mem_of_getElem? hget)]
      · intro leaf hleaf
        have hmem := hruns (List.mem_toArray.1 hleaf)
        exact ⟨(mem_leaves.1 hmem).2, length_le_longest hmem, symbol_lt_size hmem⟩
    · rw [if_pos (Nat.lt_of_not_le hroom),
        Decoder.ofLengths_of_not_admissible fun h => hroom h.2]
  · rw [if_pos (Nat.lt_of_not_le hwidth), Decoder.ofLengths_of_not_admissible fun h => hwidth h.1]

/-! ## Reading tables and symbols -/

theorem asUnsigned_natCast {n : Nat} (h : n < UInt64.size) : asUnsigned n = n := by
  have hmod : (n : Int) % (UInt64.size : Int) = ((n % UInt64.size : Nat) : Int) := rfl
  rw [asUnsigned, hmod, Int.toNat_natCast, Nat.mod_eq_of_lt h]

/-- The symbols that are read stay below `size`, and their lengths are written in range. -/
theorem refines_readLengths {width size : Nat} (hwidth : width ≤ maxCodeLength)
    (hsize : size ≤ 65536) (next : Nat) (lengths : Vector Nat size) (hnext : next ≤ size) :
    Refines (fun a b => a = b.toArray) (Extent.readLengths ⟨width, size⟩ ((next : Int) - 1) lengths.toArray)
      (Decoder.readLengths width size next lengths) := by
  induction hn : size - next using Nat.strongRecOn generalizing next lengths with
  | ind n ih =>
    rw [Extent.readLengths, Decoder.readLengths]
    refine refines_getVarint.bind ?_
    rintro delta _ ⟨rfl, hdelta⟩
    cases delta with
    | zero => exact refines_pure rfl
    | succ delta =>
      have hsymbol : (next : Int) - 1 + ((delta + 1 : Nat) : Int) = ((next + delta : Nat) : Int) := by
        omega
      have hrange : addSigned 63 ((next : Int) - 1) ((delta + 1 : Nat) : Int) =
          pure ((next + delta : Nat) : Int) := by
        rw [addSigned_of_range (by omega) (by omega), hsymbol]
      have hword : asUnsigned ((next + delta : Nat) : Int) = next + delta := by
        refine asUnsigned_natCast ?_
        have : UInt64.size = 18446744073709551616 := rfl
        omega
      rw [if_neg (Nat.succ_ne_zero delta)]
      refine Refines.lift hrange ?_
      rw [hword]
      dsimp only
      by_cases hin : next + delta < size
      · rw [if_neg (Nat.not_le_of_lt hin), dif_pos hin]
        refine refines_getVarint.bind ?_
        rintro short _ ⟨rfl, -⟩
        by_cases hshort : width ≤ short
        · rw [if_pos hshort, if_pos hshort]
          exact refines_corrupt _
        · have hlength : (width - short) % 256 = width - short := by
            simp only [maxCodeLength] at hwidth
            exact Nat.mod_eq_of_lt (by omega)
          have hstore : store lengths.toArray (next + delta) (width - short) =
              pure (lengths.set (next + delta) (width - short)).toArray := by
            rw [store_of_lt (by rwa [Vector.size_toArray]), Vector.toArray_set]
          rw [if_neg hshort, if_neg hshort]
          refine Refines.lift (sub_of_le (Nat.le_of_not_le hshort)) ?_
          rw [hlength]
          refine Refines.lift hstore ?_
          have hlast : ((next + delta : Nat) : Int) = ((next + delta + 1 : Nat) : Int) - 1 := by omega
          rw [hlast]
          exact ih _ (by omega) (next + delta + 1) _ hin rfl
      · rw [if_pos (Nat.le_of_not_lt hin), dif_neg hin]
        exact refines_corrupt _

/-- A table is read as the decoder is. -/
theorem refines_readTable {size : Nat} (hsize : size ≤ 65536) :
    Refines (fun t d => t.Holds d size) (readTable size) (Decoder.read size) := by
  unfold readTable Decoder.read
  refine refines_getVarint.bind ?_
  rintro width _ ⟨rfl, -⟩
  by_cases hwidth : maxCodeLength < width
  · rw [if_pos hwidth, if_pos hwidth]
    exact refines_corrupt _
  · rw [if_neg hwidth, if_neg hwidth]
    have hlengths := refines_readLengths (Nat.le_of_not_lt hwidth) hsize 0
      (Vector.replicate size 0) (Nat.zero_le _)
    refine hlengths.bind ?_
    rintro _ lengths rfl
    have hspec := tableOf_spec lengths.toArray (by rwa [Vector.size_toArray])
    rw [Vector.size_toArray] at hspec
    intro s r hs
    cases hd : Decoder.ofLengths lengths.toArray with
    | ok d =>
      rw [hd] at hspec
      obtain ⟨t, hrun, ht⟩ := hspec
      rw [hrun]
      exact ⟨t, s, rfl, ht, hs⟩
    | error cause =>
      rw [hd] at hspec
      dsimp only at hspec
      rw [hspec]
      rfl

/-- Where a failure ends the run, a symbol is read as ever. -/
theorem orStop_tryDecode (t : Table) : orStop (tryDecode t) = decode t := by
  unfold tryDecode decode
  by_cases hzero : t.width = 0
  · simp only [if_pos hzero]
    rfl
  · simp only [if_neg hzero, orStop_bind]
    refine congr (congrArg Bind.bind (orStop_lift (peek t.width))) (funext fun window => ?_)
    refine congr (congrArg Bind.bind (orStop_lift _)) (funext fun e => ?_)
    by_cases hlength : e.length = 0
    · simp only [if_pos hlength]
      rfl
    · simp only [if_neg hlength, orStop_bind, orStop_attempt, orStop_pure]

/-- A symbol is read as by the decoder, by a lookup within the table, and is one of its alphabet. Where there
is none, the reader stays where it is. -/
theorem follows_tryDecode {t : Table} {d : Decoder} {size : Nat} (h : t.Holds d size) :
    Follows (· < size) (tryDecode t) d.decode := by
  intro s r hs
  have hwidth := h.width_le
  simp only [maxCodeLength] at hwidth
  unfold tryDecode
  by_cases hzero : d.width = 0
  · have hnone : d.table[r.peek d.width]? = none := by
      cases hget : d.table[r.peek d.width]? with
      | none => rfl
      | some leaf =>
        have := h.leaves leaf (Array.mem_of_getElem? hget)
        omega
    rw [h.width, if_pos hzero, Decoder.decode_none hnone]
    exact ⟨s, rfl, hs⟩
  · obtain ⟨s', hpeek, hs'⟩ := hs.peek (show d.width ≤ 32 by omega)
    have hlook : (monadLift (peek d.width) : Attempt Nat) s = pure (.ok (r.peek d.width), s') :=
      congrArg (· >>= _) hpeek
    have hload := load_of_getElem? (h.entries _ (peek_lt r d.width))
    rw [h.width, if_neg hzero, attempt_bind hlook]
    cases hget : d.table[r.peek d.width]? with
    | none =>
      rw [hget] at hload
      rw [Decoder.decode_none hget]
      refine Follows.lift (Q := (· < size)) (q := throw .badCodeword) hload ?_ s' r hs'
      exact follows_throw _
    | some leaf =>
      rw [hget] at hload
      obtain ⟨hone, hlen, hsymbol⟩ := h.leaves leaf (Array.mem_of_getElem? hget)
      have hne : (entryOf (some leaf)).length ≠ 0 := Nat.ne_of_gt hone
      rw [Decoder.decode_some hget]
      refine Follows.lift hload ?_ s' r hs'
      rw [if_neg hne]
      refine (follows_skip (Nat.le_trans hlen (by omega))).bind ?_
      intro _ _
      exact follows_pure (Nat.lt_of_le_of_lt (Nat.mod_le _ _) hsymbol)

theorem refines_decode {t : Table} {d : Decoder} {size : Nat} (h : t.Holds d size) :
    Refines (fun a b => a = b ∧ b < size) (decode t) d.decode := by
  rw [← orStop_tryDecode]
  exact (follows_tryDecode h).refines

end Machine

end LzCodec
