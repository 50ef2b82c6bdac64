import LzCodec.Block
import LzCodec.Proofs.Machine.Decoder
import LzCodec.Proofs.Machine.Replay
import LzCodec.Proofs.Slots

/-!
# Unpacking on machine words

Symbols stay within their alphabets and slots within words of 32 bits, whatever the payload is. A
payload is unpacked as `Block.unpack` does (`unpack_spec`).
-/

namespace LzCodec

namespace Machine

open BitReader

/-- The number of bits that follow a slot. -/
def slotWidth (slot : Nat) : Machine Nat := do
  if slot < 4 then
    return 0
  sub (← shiftRight 32 slot 1) 1

/-- The smallest number in a slot. -/
def slotBase (slot : Nat) : Machine Nat := do
  if slot < 4 then
    return slot
  shiftLeftExact 32 (2 ||| slot &&& 1) (← sub (← shiftRight 32 slot 1) 1)

/-- Reads the number whose slot is `slot`. -/
def readSlot (slot : Nat) : Parser Nat := do
  let extra ← getBits (← slotWidth slot)
  add 32 (← slotBase slot) extra

def readToken (litLen dist : Table) : Parser Token := do
  let symbol ← decode litLen
  require (symbol < litLenSymbols)
  if symbol < firstLengthSymbol then
    return .literal symbol.toUInt8
  else
    let slot ← sub symbol firstLengthSymbol
    let length ← add 64 (← readSlot (slot % 256)) minMatch
    if maxMatch < length then
      corrupt .lengthOutOfRange
    else
      let symbol ← decode dist
      require (symbol < distSymbols)
      let distance ← add 64 (← readSlot (symbol % 256)) 1
      return .copy length distance

/-- Applies the next `count` tokens, which must be the last of the payload. -/
def unpackTokens (litLen dist : Table) : Nat → Buffer → Parser Buffer
  | 0, b => do
    finish
    return b
  | count + 1, b => do
    let token ← readToken litLen dist
    unpackTokens litLen dist count (← b.apply token)

def unpackAll (count : Nat) (b : Buffer) : Parser Buffer := do
  let litLen ← readTable litLenSymbols
  let dist ← readTable distSymbols
  unpackTokens litLen dist count b

/-- Applies the `count` tokens of a payload. -/
def unpack (payload : Bytes) (count : Nat) (b : Buffer) : Machine Buffer := do
  let (b, _) ← unpackAll count b { data := payload }
  return b

theorem slotWidth_eq {slot : Nat} (h : slot < 64) :
    slotWidth slot = pure (Slot.width slot) ∧ Slot.width slot < 31 := by
  unfold slotWidth Slot.width
  by_cases hsmall : slot < 4
  · rw [if_pos hsmall, if_pos hsmall]
    exact ⟨rfl, by decide⟩
  · have hhalf : slot / 2 ^ 1 = slot / 2 := rfl
    rw [if_neg hsmall, if_neg hsmall, shiftRight_of_lt (by decide), pure_bind, hhalf,
      sub_of_le (by omega)]
    exact ⟨rfl, by omega⟩

theorem slotBase_of_lt {slot : Nat} (h : slot < 64) : slotBase slot = pure (Slot.base slot) := by
  have hend : Slot.base 64 = 2 ^ 32 := rfl
  have hroom : Slot.base slot < 2 ^ 32 := hend ▸ Slot.base_lt_base h
  unfold slotBase
  unfold Slot.base at hroom ⊢
  by_cases hsmall : slot < 4
  · rw [if_pos hsmall, if_pos hsmall]
  · have hhalf : slot / 2 ^ 1 = slot / 2 := rfl
    have hbit : slot % 2 = 0 ∨ slot % 2 = 1 := by omega
    have hor : 2 ||| slot &&& 1 = 2 + slot % 2 := by
      rw [Nat.and_one_is_mod]
      rcases hbit with hbit | hbit <;> rw [hbit] <;> rfl
    rw [if_neg hsmall] at hroom
    rw [if_neg hsmall, if_neg hsmall, shiftRight_of_lt (by decide), pure_bind, hhalf,
      sub_of_le (by omega), pure_bind, hor]
    exact shiftLeftExact_of_lt (by omega) hroom

/-- The slots of distances have the numbers of one window. -/
theorem slotBase_eq {slot : Nat} (h : slot < distSymbols) :
    slotBase slot = pure (Slot.base slot) ∧
      Slot.base slot + 2 ^ Slot.width slot ≤ 2 ^ maxWindowLog := by
  have hend : Slot.base distSymbols = 2 ^ maxWindowLog := rfl
  rw [← Slot.base_succ, ← hend]
  exact ⟨slotBase_of_lt (Nat.lt_trans h (by decide)), Slot.base_le_base h⟩

/-- The sum of the smallest number of a slot and its extra bits fits into a word. -/
theorem refines_readSlot {slot : Nat} (h : slot < distSymbols) :
    Refines (fun a b => a = b ∧ b < 2 ^ maxWindowLog) (readSlot slot) (Block.readSlot slot) := by
  have hslot : slot < 64 := Nat.lt_trans h (by decide)
  obtain ⟨hwidth, hsmall⟩ := slotWidth_eq hslot
  obtain ⟨hbase, hroom⟩ := slotBase_eq h
  unfold readSlot Block.readSlot
  refine Refines.lift hwidth ?_
  refine (refines_getBits (by omega)).bind ?_
  rintro extra _ ⟨rfl, hextra⟩
  refine Refines.lift hbase ?_
  have hsum : Slot.base slot + extra < 2 ^ maxWindowLog := Nat.lt_of_lt_of_le (by omega) hroom
  have hword : add 32 (Slot.base slot) extra = pure (Slot.base slot + extra) :=
    add_of_lt (Nat.lt_trans hsum (Nat.pow_lt_pow_right (by decide) (by decide)))
  rw [hword]
  exact refines_pure ⟨rfl, hsum⟩

section

variable {litLen dist : Table} {litLenDecoder distDecoder : Huffman.Decoder}

/-- A token is read as in the model, by symbols within their alphabets. -/
theorem refines_readToken (hlit : litLen.Holds litLenDecoder litLenSymbols)
    (hdist : dist.Holds distDecoder distSymbols) :
    Refines Eq (readToken litLen dist) (Block.readToken litLenDecoder distDecoder) := by
  have hlog : 2 ^ maxWindowLog = 16777216 := by decide
  have hmin : minMatch = 4 := rfl
  unfold readToken Block.readToken
  refine (refines_decode hlit).bind ?_
  rintro symbol _ ⟨rfl, hsymbol⟩
  refine Refines.lift (require_of hsymbol) ?_
  by_cases hliteral : symbol < firstLengthSymbol
  · rw [if_pos hliteral, if_pos hliteral]
    exact refines_pure rfl
  · rw [if_neg hliteral, if_neg hliteral]
    have hsub : sub symbol firstLengthSymbol = pure (symbol - firstLengthSymbol) :=
      sub_of_le (Nat.le_of_not_lt hliteral)
    generalize hslot : symbol - firstLengthSymbol = slot at hsub ⊢
    have hrange : slot < distSymbols := by
      simp only [litLenSymbols] at hsymbol
      simp only [firstLengthSymbol] at hslot hliteral
      simp only [distSymbols]
      omega
    refine Refines.lift hsub ?_
    rw [Nat.mod_eq_of_lt (Nat.lt_trans hrange (by decide))]
    refine (refines_readSlot hrange).bind ?_
    rintro extra _ ⟨rfl, hextra⟩
    have hlength : add 64 extra minMatch = pure (extra + minMatch) := add_of_lt (by omega)
    refine Refines.lift hlength ?_
    by_cases hlong : maxMatch < extra + minMatch
    · rw [if_pos hlong, if_pos hlong]
      exact refines_corrupt _
    · rw [if_neg hlong, if_neg hlong]
      refine (refines_decode hdist).bind ?_
      rintro symbol _ ⟨rfl, hsymbol⟩
      refine Refines.lift (require_of hsymbol) ?_
      rw [Nat.mod_eq_of_lt (Nat.lt_trans hsymbol (by decide))]
      refine (refines_readSlot hsymbol).bind ?_
      rintro distance _ ⟨rfl, hdistance⟩
      have hstep : add 64 distance 1 = pure (distance + 1) := add_of_lt (by omega)
      exact Refines.lift hstep (refines_pure rfl)

/-- Token after token, the buffer stands for the output. -/
theorem unpackTokens_spec (hlit : litLen.Holds litLenDecoder litLenSymbols)
    (hdist : dist.Holds distDecoder distSymbols) (count : Nat) {s : Reader} {r : BitReader}
    (hs : s.Holds r) {b : Buffer} {out : Output} (hb : b.Holds out) :
    match Block.unpackTokens litLenDecoder distDecoder count r out with
    | .ok _ out' => ∃ b' s', unpackTokens litLen dist count b s = pure (b', s') ∧ b'.Holds out'
    | .error cause _ => unpackTokens litLen dist count b s = corrupt cause := by
  induction count generalizing s r b out with
  | zero =>
    have hfinish := hs.finish
    unfold unpackTokens Block.unpackTokens
    simp only [Bind.bind, StateT.bind]
    cases hend : r.finish with
    | error cause =>
      rw [hend] at hfinish
      dsimp only at hfinish
      rw [hfinish]
      rfl
    | ok _ =>
      rw [hend] at hfinish
      obtain ⟨s', hrun⟩ := hfinish
      rw [hrun]
      exact ⟨b, s', rfl, hb⟩
  | succ count ih =>
    have htoken := refines_readToken hlit hdist s r hs
    unfold unpackTokens Block.unpackTokens
    cases hread : Block.readToken litLenDecoder distDecoder r with
    | error cause r' =>
      rw [hread] at htoken
      exact run_bind_corrupt htoken _
    | ok token r' =>
      rw [hread] at htoken
      obtain ⟨token', s', hrun, heq, hs'⟩ := htoken
      subst heq
      have happly := hb.apply token'
      rw [run_bind hrun, run_lift]
      simp only [Bind.bind, EStateM.bind]
      cases hout : Output.apply token' out with
      | error cause out' =>
        rw [hout] at happly
        exact congrArg (· >>= _) happly
      | ok _ out' =>
        rw [hout] at happly
        obtain ⟨b', hb', hholds⟩ := happly
        rw [hb']
        exact ih hs' hholds

end

/-- Unpacking on words ends, has no faults, and does what unpacking does. -/
theorem unpack_spec {payload : Bytes} (small : 8 * payload.size < 2 ^ 64) (count : Nat)
    {b : Buffer} {out : Output} (hb : b.Holds out) :
    match Block.unpack payload count out with
    | .ok _ out' => ∃ b', unpack payload count b = pure b' ∧ b'.Holds out'
    | .error cause _ => unpack payload count b = corrupt cause := by
  have hlit := refines_readTable (show litLenSymbols ≤ 65536 by decide) _ _
    (Reader.holds_start small)
  unfold unpack unpackAll Block.unpack
  cases hread : Huffman.Decoder.read litLenSymbols { data := payload } with
  | error cause r =>
    rw [hread] at hlit
    rw [run_bind_corrupt hlit]
    rfl
  | ok litLenDecoder r =>
    rw [hread] at hlit
    obtain ⟨litLen, s, hrun, hlitLen, hs⟩ := hlit
    have hdist := refines_readTable (show distSymbols ≤ 65536 by decide) s r hs
    rw [run_bind hrun]
    dsimp only
    cases hread' : Huffman.Decoder.read distSymbols r with
    | error cause r' =>
      rw [hread'] at hdist
      rw [run_bind_corrupt hdist]
      rfl
    | ok distDecoder r' =>
      rw [hread'] at hdist
      obtain ⟨dist, s', hrun', hdist', hs'⟩ := hdist
      rw [run_bind hrun']
      dsimp only
      have htokens := unpackTokens_spec hlitLen hdist' count hs' hb
      cases hall : Block.unpackTokens litLenDecoder distDecoder count r' out with
      | error cause out' =>
        rw [hall] at htokens
        dsimp only at htokens ⊢
        rw [htokens]
        rfl
      | ok _ out' =>
        rw [hall] at htokens
        obtain ⟨b', s'', hrun'', hb'⟩ := htokens
        rw [hrun'']
        exact ⟨b', rfl, hb'⟩

end Machine

end LzCodec
