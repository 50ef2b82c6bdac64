import Mathlib.Data.List.Basic
import LzCodec.Proofs.Bits.Streams

/-!
# Cursors

What writers and readers are there for, said over lists of bits. What is written is appended to a list that
is padded at the end (`bits_written`), and what is read comes from a cursor in a list that goes on with zeros
(`ask_eq`). Behind each other, the two give back what was written (`answerAll_written`).
-/

namespace LzCodec

/-- What a writer is told. -/
inductive BitWrite where
  | put (value count : Nat)
  | varint (value : Nat)
  deriving DecidableEq, Repr

/-- What a reader is asked for. -/
inductive BitRequest where
  | peek (count : Nat)
  | skip (count : Nat)
  | get (count : Nat)
  | varint
  deriving DecidableEq, Repr

/-- Skipping is answered without a number. -/
abbrev BitAnswer := Except Corruption (Option Nat)

namespace BitString

/-- A number whose lowest bit comes first. -/
def lowFirst (bits : List Bool) : Nat := bits.foldr (fun b n => b.toNat + 2 * n) 0

/-- A group for each bit of a number, lowest first, and before it whether another group follows. -/
def groups (value : Nat) : List Bool :=
  (List.range (value.log2 + 1)).flatMap fun i => [decide (i < value.log2), value.testBit i]

/-- A number with groups behind its highest bit that add zeros to it. -/
def paddedGroups (value zeros : Nat) : List Bool :=
  (List.range (value.log2 + zeros + 1)).flatMap fun i =>
    [decide (i < value.log2 + zeros), value.testBit i]

/-- Groups of which none is the last. -/
def openGroups (payload : List Bool) : List Bool := payload.flatMap fun b => [true, b]

/-- The number at the front, in at most `left` groups, and what comes behind the groups. -/
def takeGroups : Nat → List Bool → Except Corruption Nat × List Bool
  | 0, bits => (.error .varintOverflow, bits)
  | left + 1, true :: b :: rest =>
    Prod.map (Except.map fun n => b.toNat + 2 * n) id (takeGroups left rest)
  | _ + 1, false :: b :: rest => (.ok b.toNat, rest)
  | _ + 1, bits => (.error .truncated, bits)

/-- Fills up the last byte with zeros. -/
def padded (bits : List Bool) : List Bool := bits ++ List.replicate ((8 - bits.length % 8) % 8) false

/-- Less than a byte is left, and all of it is zero. -/
def finish (bits : List Bool) : Except Corruption Unit :=
  if bits.length < 8 ∧ ∀ b ∈ bits, b = false then .ok () else .error .trailingData

end BitString

open BitString

/-! ## What is meant -/

namespace BitWrite

/-- At most a word is written at once. -/
def Fits : BitWrite → Prop
  | put _ count => count ≤ 32
  | varint value => value < UInt32.size

instance : (w : BitWrite) → Decidable w.Fits
  | put _ count => inferInstanceAs (Decidable (count ≤ 32))
  | varint value => inferInstanceAs (Decidable (value < UInt32.size))

def bits : BitWrite → List Bool
  | put value count => ofNat value count
  | varint value => groups value

/-- How to read it back. -/
def request : BitWrite → BitRequest
  | put _ count => .get count
  | varint _ => .varint

/-- What is read back. -/
def value : BitWrite → Nat
  | put value count => value % 2 ^ count
  | varint value => value

end BitWrite

namespace BitRequest

def Fits : BitRequest → Prop
  | peek count => count ≤ 32
  | skip count => count ≤ 32
  | get count => count ≤ 32
  | varint => True

instance : (q : BitRequest) → Decidable q.Fits
  | peek count => inferInstanceAs (Decidable (count ≤ 32))
  | skip count => inferInstanceAs (Decidable (count ≤ 32))
  | get count => inferInstanceAs (Decidable (count ≤ 32))
  | varint => inferInstanceAs (Decidable True)

/-- The answer of a cursor before `bits`, and the bits before which it stands then. Only `peek` looks at
the zeros behind the last bit. -/
def answer : BitRequest → List Bool → BitAnswer × List Bool
  | peek count, bits => (.ok (some (toNat (front bits count))), bits)
  | skip count, bits =>
    if count ≤ bits.length then (.ok none, bits.drop count) else (.error .truncated, bits)
  | get count, bits =>
    if count ≤ bits.length then
      (.ok (some (toNat (bits.take count))), bits.drop count)
    else
      (.error .truncated, bits)
  | varint, bits => Prod.map (Except.map some) id (takeGroups BitReader.maxVarintGroups bits)

/-- Asks for one after the other, also after a failure. -/
def runAll {σ : Type} (ask : BitRequest → σ → BitAnswer × σ) : List BitRequest → σ → List BitAnswer × σ
  | [], s => ([], s)
  | q :: rest, s =>
    let (a, s) := ask q s
    let (answers, s) := runAll ask rest s
    (a :: answers, s)

def answerAll : List BitRequest → List Bool → List BitAnswer × List Bool := runAll answer

end BitRequest

/-! ## Groups -/

namespace BitString

@[simp] theorem lowFirst_cons (b : Bool) (bits : List Bool) :
    lowFirst (b :: bits) = b.toNat + 2 * lowFirst bits := rfl

/-- The low bits of a number make up the number. -/
theorem lowFirst_testBit (value count : Nat) :
    lowFirst ((List.range count).map value.testBit) = value % 2 ^ count := by
  induction count generalizing value with
  | zero => rw [Nat.pow_zero, Nat.mod_one]; rfl
  | succ count ih =>
    have hhigh : (List.range count).map (fun i => value.testBit (i + 1)) =
        (List.range count).map (value / 2).testBit :=
      List.map_congr_left fun i _ => Nat.testBit_succ value i
    rw [List.range_succ_eq_map, List.map_cons, List.map_map, lowFirst_cons, Function.comp_def, hhigh, ih,
      Nat.testBit_zero, Nat.pow_succ, Nat.mul_comm (2 ^ count), Nat.mod_mul]
    rcases Nat.mod_two_eq_zero_or_one value with h | h <;> rw [h] <;> rfl

/-- All groups of a number but the last one are open. -/
theorem paddedGroups_eq (value zeros : Nat) :
    paddedGroups value zeros = openGroups ((List.range (value.log2 + zeros)).map value.testBit) ++
      [false, value.testBit (value.log2 + zeros)] := by
  rw [paddedGroups, List.range_succ, List.flatMap_append, openGroups, List.flatMap_map,
    List.flatMap_singleton, decide_eq_false (Nat.lt_irrefl _)]
  congr 1
  apply List.flatMap_congr
  intro i hi
  rw [decide_eq_true (List.mem_range.1 hi)]

theorem groups_eq (value : Nat) :
    groups value = openGroups ((List.range value.log2).map value.testBit) ++
      [false, value.testBit value.log2] :=
  paddedGroups_eq value 0

/-- A number below two is one group, and any other one group more than its half. -/
theorem varintBits_eq_groups (value : Nat) : BitWriter.varintBits value = groups value := by
  induction value using Nat.strongRecOn with
  | ind value ih =>
    unfold BitWriter.varintBits
    split
    · rename_i hsmall
      obtain rfl | rfl : value = 0 ∨ value = 1 := by omega
      · rfl
      · rfl
    · rename_i hlarge
      have hlog : value.log2 = (value / 2).log2 + 1 := by rw [Nat.log2_def, if_pos (Nat.le_of_not_lt hlarge)]
      have hfirst : ofNat (2 + value % 2) 2 = [true, value.testBit 0] := by
        rw [Nat.testBit_zero]
        rcases Nat.mod_two_eq_zero_or_one value with h | h <;> rw [h] <;> rfl
      rw [ih _ (by omega), hfirst, groups, groups, hlog, @List.range_succ_eq_map ((value / 2).log2 + 1),
        List.flatMap_cons, List.flatMap_map, decide_eq_true (Nat.succ_pos _)]
      congr 1
      apply List.flatMap_congr
      intro i _
      rw [Nat.succ_eq_add_one, Nat.testBit_succ]
      simp only [Nat.add_lt_add_iff_right]

variable {left : Nat} {payload rest : List Bool}

theorem takeGroups_of_short {bits : List Bool} (h : bits.length < 2) :
    takeGroups (left + 1) bits = (.error .truncated, bits) := by
  match bits, h with
  | [], _ => rfl
  | [true], _ => rfl
  | [false], _ => rfl

theorem openGroups_cons (b : Bool) (payload : List Bool) :
    openGroups (b :: payload) = true :: b :: openGroups payload := rfl

/-- Open groups and a last one are taken as a number. -/
theorem takeGroups_of_openGroups (b : Bool) (h : payload.length < left) :
    takeGroups left (openGroups payload ++ (false :: b :: rest)) =
      (.ok (lowFirst (payload ++ [b])), rest) := by
  induction payload generalizing left with
  | nil =>
    obtain ⟨left, rfl⟩ := Nat.exists_eq_add_one_of_ne_zero (Nat.ne_of_gt h)
    rfl
  | cons c payload ih =>
    obtain ⟨left, rfl⟩ := Nat.exists_eq_add_one_of_ne_zero (Nat.ne_of_gt (Nat.zero_lt_of_lt h))
    rw [openGroups_cons, List.cons_append, List.cons_append, takeGroups,
      ih (Nat.lt_of_succ_lt_succ h)]
    rfl

theorem map_eq_error_iff {α β : Type} {f : α → β} {x : Except Corruption α} {cause : Corruption} :
    x.map f = .error cause ↔ x = .error cause := by
  cases x with
  | error e => simp [Except.map]
  | ok a => simp [Except.map]

/-- There is no number exactly if open groups go on as far as groups are allowed. -/
theorem takeGroups_overflow_iff {bits : List Bool} :
    (takeGroups left bits).1 = .error .varintOverflow ↔
      ∃ payload rest, payload.length = left ∧ bits = openGroups payload ++ rest := by
  fun_induction takeGroups left bits with
  | case1 bits => exact ⟨fun _ => ⟨[], bits, rfl, rfl⟩, fun _ => rfl⟩
  | case2 left b rest ih =>
    rw [Prod.map_fst, map_eq_error_iff, ih]
    constructor
    · rintro ⟨payload, rest', rfl, rfl⟩
      exact ⟨b :: payload, rest', rfl, rfl⟩
    · rintro ⟨payload, rest', hlen, hbits⟩
      cases payload with
      | nil => cases hlen
      | cons c payload =>
        cases hbits
        exact ⟨payload, rest', Nat.succ.inj hlen, rfl⟩
  | case3 left b rest =>
    refine ⟨(fun h => by cases h), ?_⟩
    rintro ⟨payload, rest', hlen, hbits⟩
    cases payload with
    | nil => cases hlen
    | cons c payload => cases hbits
  | case4 left bits hopen hlast =>
    refine ⟨(fun h => by cases h), ?_⟩
    rintro ⟨payload, rest', hlen, hbits⟩
    cases payload with
    | nil => cases hlen
    | cons c payload => exact absurd hbits (hopen c _)

/-- A number is taken back from its groups. -/
theorem takeGroups_groups {value : Nat} (h : value < 2 ^ left) (hleft : 0 < left) :
    takeGroups left (groups value ++ rest) = (.ok value, rest) := by
  have hlog : value.log2 < left := by
    rcases Nat.eq_zero_or_pos value with rfl | hpos
    · exact hleft
    · exact (Nat.log2_lt (Nat.ne_of_gt hpos)).2 h
  have hpayload : ((List.range value.log2).map value.testBit).length < left := by
    rwa [List.length_map, List.length_range]
  have hnumber : lowFirst ((List.range value.log2).map value.testBit ++ [value.testBit value.log2]) =
      value := by
    rw [← List.map_singleton, ← List.map_append, ← List.range_succ, lowFirst_testBit,
      Nat.mod_eq_of_lt Nat.lt_log2_self]
  rw [groups_eq, List.append_assoc, List.cons_append, List.singleton_append,
    takeGroups_of_openGroups _ hpayload, hnumber]

/-! ## The end of a string -/

theorem append_replicate_eq_padded {bits : List Bool} {pad size : Nat} (hpad : pad < 8)
    (h : bits.length + pad = 8 * size) : bits ++ List.replicate pad false = padded bits := by
  have heq : pad = (8 - bits.length % 8) % 8 := by omega
  rw [padded, ← heq]

theorem toNat_eq_zero_iff (bits : List Bool) : toNat bits = 0 ↔ ∀ b ∈ bits, b = false := by
  induction bits with
  | nil => simp
  | cons b rest ih =>
    rw [toNat_cons, Nat.add_eq_zero_iff, ih, List.forall_mem_cons]
    cases b with
    | false => simp
    | true => simp

theorem finish_of_padding {pad : Nat} (h : pad < 8) : finish (List.replicate pad false) = .ok () := by
  refine if_pos ⟨by rwa [List.length_replicate], fun b hb => ?_⟩
  exact (List.mem_replicate.1 hb).2

end BitString

/-! ## Writers -/

namespace BitWriter

def append (w : BitWriter) : BitWrite → BitWriter
  | .put value count => w.put value count
  | .varint value => w.putVarint value

/-- The bytes of a writer to which all is written, one after the other. -/
def written (w : BitWriter) (writes : List BitWrite) : Bytes := (writes.foldl append w).finish

theorem bits_append (w : BitWriter) (write : BitWrite) :
    (w.append write).bits = w.bits ++ write.bits := by
  cases write with
  | put value count => exact bits_put w value count
  | varint value => rw [append, bits_putVarint, varintBits_eq_groups, BitWrite.bits]

theorem bits_foldl_append (writes : List BitWrite) (w : BitWriter) :
    (writes.foldl append w).bits = w.bits ++ writes.flatMap BitWrite.bits := by
  induction writes generalizing w with
  | nil => rw [List.foldl_nil, List.flatMap_nil, List.append_nil]
  | cons write rest ih => rw [List.foldl_cons, ih, bits_append, List.flatMap_cons, List.append_assoc]

/-- What is written stands there in order. -/
theorem bits_written (writes : List BitWrite) :
    (written {} writes).bits = padded (writes.flatMap BitWrite.bits) := by
  obtain ⟨pad, hpad, hbits⟩ := bits_finish (writes.foldl append {})
  rw [bits_foldl_append, bits_empty, List.nil_append, ← written] at hbits
  have hlen := congrArg List.length hbits
  rw [Bytes.length_bits, List.length_append, List.length_replicate] at hlen
  rw [hbits, append_replicate_eq_padded hpad hlen.symm]

end BitWriter

/-! ## Readers -/

namespace BitReader

/-- A reader that fails is asked on where it stands. -/
def outcome {α : Type} (f : α → Option Nat) :
    EStateM.Result Corruption BitReader α → BitAnswer × BitReader
  | .ok a r => (.ok (f a), r)
  | .error cause r => (.error cause, r)

def ask : BitRequest → BitReader → BitAnswer × BitReader
  | .peek count, r => (.ok (some (r.peek count)), r)
  | .skip count, r => outcome (fun _ => none) (skip count r)
  | .get count, r => outcome some (get count r)
  | .varint, r => outcome some (getVarint r)

/-- The two bits of a group. -/
theorem get_group {r : BitReader} {more b : Bool} {tail : List Bool} (h : r.rest = more :: b :: tail) :
    ∃ r', get 2 r = .ok (2 * more.toNat + b.toNat) r' ∧ r'.data = r.data ∧ r'.rest = tail := by
  obtain ⟨r', hrun, hdata, hrest⟩ := reads_get [more, b] r tail h
  refine ⟨r', hrun.trans ?_, hdata, hrest⟩
  cases more <;> cases b <;> rfl

/-- Groups are read up to where they are taken, whether there is a number or not. -/
theorem outcome_getGroups (acc weight left : Nat) (r : BitReader) :
    (outcome some (getGroups acc weight left r)).1 =
        (takeGroups left r.rest).1.map (fun n => some (acc + n * weight)) ∧
      (outcome some (getGroups acc weight left r)).2.rest = (takeGroups left r.rest).2 ∧
      (outcome some (getGroups acc weight left r)).2.data = r.data := by
  induction left generalizing acc weight r with
  | zero => exact ⟨rfl, rfl, rfl⟩
  | succ left ih =>
    rw [getGroups]
    simp only [bind, EStateM.bind]
    -- With less than a group left, the reader stays where it is.
    have short (hlen : r.rest.length < 2) : takeGroups (left + 1) r.rest = (.error .truncated, r.rest) ∧
        get 2 r = .error .truncated r :=
      ⟨takeGroups_of_short hlen, get_of_lt (r.length_rest ▸ hlen)⟩
    rcases hrest : r.rest with _ | ⟨more, _ | ⟨b, tail⟩⟩
    · obtain ⟨htake, hget⟩ := short (by simp [hrest])
      rw [← hrest, htake, hget]
      exact ⟨rfl, rfl, rfl⟩
    · obtain ⟨htake, hget⟩ := short (by simp [hrest])
      rw [← hrest, htake, hget]
      exact ⟨rfl, rfl, rfl⟩
    · obtain ⟨r', hget, hdata, hr'⟩ := get_group hrest
      have hbit : (2 * more.toNat + b.toNat) % 2 = b.toNat := by
        cases more <;> cases b <;> rfl
      rw [hget]
      dsimp only
      rw [hbit]
      cases more with
      | false =>
        rw [if_pos (by cases b <;> decide)]
        exact ⟨rfl, hr', hdata⟩
      | true =>
        obtain ⟨hfound, hbehind, hkept⟩ := ih (acc + b.toNat * weight) (weight * 2) r'
        rw [hr'] at hfound hbehind
        rw [if_neg (by cases b <;> decide), hfound, hbehind, takeGroups]
        refine ⟨?_, rfl, hkept.trans hdata⟩
        obtain ⟨number, behind⟩ := takeGroups left tail
        cases number with
        | error cause => rfl
        | ok n =>
          have hsum : acc + b.toNat * weight + n * (weight * 2) = acc + (b.toNat + 2 * n) * weight := by
            rw [Nat.add_mul, Nat.mul_comm weight 2, ← Nat.mul_assoc, Nat.mul_comm n 2, Nat.add_assoc]
          exact congrArg (fun n => Except.ok (some n)) hsum

/-- A reader answers as a cursor before the rest of its bits does. -/
theorem ask_eq (q : BitRequest) (r : BitReader) :
    (ask q r).1 = (q.answer r.rest).1 ∧ (ask q r).2.rest = (q.answer r.rest).2 := by
  cases q with
  | peek count => exact ⟨by rw [ask, peek_eq, BitRequest.answer], rfl⟩
  | skip count =>
    rw [ask, BitRequest.answer, length_rest]
    by_cases hleft : count ≤ r.remaining
    · rw [skip_of_le hleft, if_pos hleft]
      exact ⟨rfl, rest_advance r count hleft⟩
    · rw [skip_of_lt (Nat.lt_of_not_le hleft), if_neg hleft]
      exact ⟨rfl, rfl⟩
  | get count =>
    rw [ask, BitRequest.answer, length_rest]
    by_cases hleft : count ≤ r.remaining
    · rw [get_of_le hleft, if_pos hleft]
      exact ⟨rfl, rest_advance r count hleft⟩
    · rw [get_of_lt (Nat.lt_of_not_le hleft), if_neg hleft]
      exact ⟨rfl, rfl⟩
  | varint =>
    obtain ⟨hfound, hbehind, -⟩ := outcome_getGroups 0 1 maxVarintGroups r
    simp only [Nat.zero_add, Nat.mul_one] at hfound
    exact ⟨hfound, hbehind⟩

theorem runAll_ask (requests : List BitRequest) (r : BitReader) :
    (BitRequest.runAll ask requests r).1 = (BitRequest.answerAll requests r.rest).1 ∧
      (BitRequest.runAll ask requests r).2.rest = (BitRequest.answerAll requests r.rest).2 := by
  induction requests generalizing r with
  | nil => exact ⟨rfl, rfl⟩
  | cons q rest ih =>
    obtain ⟨hanswer, hrest⟩ := ask_eq q r
    obtain ⟨hanswers, hend⟩ := ih (ask q r).2
    rw [hrest] at hanswers hend
    exact ⟨congr (congrArg List.cons hanswer) hanswers, hend⟩

theorem finish_eq (r : BitReader) : r.finish = BitString.finish r.rest := by
  have hfront : front r.rest r.remaining = r.rest := by
    rw [← length_rest, front_of_le (Nat.le_refl _), List.take_length]
  rw [finish, BitString.finish, peek_eq, hfront, length_rest]
  simp only [toNat_eq_zero_iff]

end BitReader

/-- What is not there is not consumed. -/
theorem BitRequest.truncated_iff {count : Nat} {q : BitRequest} (h : q ∈ [skip count, get count])
    (bits : List Bool) :
    ((q.answer bits).1 = .error .truncated ↔ bits.length < count) ∧
      (bits.length < count → (q.answer bits).2 = bits) := by
  rw [← Nat.not_le]
  obtain rfl | rfl : q = skip count ∨ q = get count := by simpa using h
  · by_cases hleft : count ≤ bits.length <;> simp [answer, hleft]
  · by_cases hleft : count ≤ bits.length <;> simp [answer, hleft]

/-! ## Reading back -/

theorem BitWrite.fits_request {w : BitWrite} (fits : w.Fits) : w.request.Fits := by
  cases w with
  | put value count => exact fits
  | varint value => trivial

theorem BitWrite.answer_request {w : BitWrite} (fits : w.Fits) (rest : List Bool) :
    w.request.answer (w.bits ++ rest) = (.ok (some w.value), rest) := by
  cases w with
  | put value count =>
    have hlen := length_ofNat value count
    have hle : count ≤ (ofNat value count ++ rest).length := by
      rw [List.length_append, hlen]
      exact Nat.le_add_right _ _
    rw [request, bits, BitRequest.answer, if_pos hle, List.take_left' hlen, List.drop_left' hlen,
      toNat_ofNat, BitWrite.value]
  | varint value =>
    have htake : takeGroups BitReader.maxVarintGroups (groups value ++ rest) = (.ok value, rest) :=
      takeGroups_groups fits (by decide)
    rw [request, bits, BitRequest.answer, htake]
    rfl

/-- What is written is read back, in front of whatever follows. -/
theorem answerAll_written {writes : List BitWrite} (fits : ∀ w ∈ writes, w.Fits) (rest : List Bool) :
    BitRequest.answerAll (writes.map BitWrite.request) (writes.flatMap BitWrite.bits ++ rest) =
      (writes.map fun w => .ok (some w.value), rest) := by
  induction writes with
  | nil => rfl
  | cons w writes ih =>
    obtain ⟨hw, hwrites⟩ := List.forall_mem_cons.1 fits
    rw [BitRequest.answerAll, List.map_cons, List.flatMap_cons, List.append_assoc, BitRequest.runAll,
      w.answer_request hw]
    dsimp only
    rw [← BitRequest.answerAll, ih hwrites]
    rfl

/-- All that is left of what was written is padding. -/
theorem answerAll_bits_written {writes : List BitWrite} (fits : ∀ w ∈ writes, w.Fits) :
    ∃ pad, pad < 8 ∧
      BitRequest.answerAll (writes.map BitWrite.request) (BitWriter.written {} writes).bits =
        (writes.map fun w => .ok (some w.value), List.replicate pad false) := by
  rw [BitWriter.bits_written, padded]
  exact ⟨_, Nat.mod_lt _ (by decide), answerAll_written fits _⟩

end LzCodec
