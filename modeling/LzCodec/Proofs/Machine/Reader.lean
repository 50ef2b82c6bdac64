import LzCodec.Proofs.Bits.Streams
import LzCodec.Proofs.Machine.Words

/-!
# The bit reader on machine words

The reader keeps up to 64 bits that it has loaded and not yet consumed, at the high end of a word.
`Reader.Holds` says which position in the bits of the data it stands for, and `Refines` that a program
on words does what a parser does: it fails where the parser fails, and nowhere else. A failure ends a
run, and with it the reader. An `Attempt` keeps the reader, and so what it `Follows` is a parser up to
and behind its failures.
-/

namespace LzCodec

namespace Machine

open BitString BitReader

structure Reader where
  data : Bytes
  bytePos : Nat := 0
  acc : Nat := 0
  nbits : Nat := 0
  consumed : Nat := 0

/-- A program that reads bits. -/
abbrev Parser := StateT Reader Machine

/-- Loads bytes as long as one more fits. Behind the data there are zeros. -/
def Reader.refill (r : Reader) : Machine Reader := do
  if 56 < r.nbits then
    return r
  let byte := (r.data.getD r.bytePos 0).toNat
  let bytePos ← add 64 r.bytePos 1
  let byte ← shiftLeft 64 byte (← sub 56 r.nbits)
  let nbits ← add 32 r.nbits 8
  (⟨r.data, bytePos, r.acc ||| byte, nbits, r.consumed⟩ : Reader) |>.refill
partial_fixpoint

/-- The number of bits of the data that are left. -/
def Reader.remaining (r : Reader) : Machine Nat := do
  sub (← mul 64 r.data.size 8) r.consumed

/-- Looks at the next `count` bits. -/
def peek (count : Nat) : Parser Nat := fun r => do
  require (count ≤ 32)
  if count = 0 then
    return (0, r)
  let r ← r.refill
  return ((← shiftRight 64 r.acc (← sub 64 count)) % UInt32.size, r)

def skip (count : Nat) : Parser Unit := fun r => do
  if (← r.remaining) < count then
    corrupt .truncated
  else if count = 0 then
    return ((), r)
  else
    let r ← r.refill
    return ((), ⟨r.data, r.bytePos, ← shiftLeft 64 r.acc count, ← sub r.nbits count,
      ← add 64 r.consumed count⟩)

def getBits (count : Nat) : Parser Nat := do
  let value ← peek count
  skip count
  return value

/-- Reads on in a number with `left` more groups allowed; the next bit goes to place `i`. -/
def getGroups (value i : Nat) : Nat → Parser Nat
  | 0 => corrupt .varintOverflow
  | left + 1 => do
    let group ← getBits 2
    let value := value ||| (← shiftLeft 32 (group &&& 1) i)
    if group &&& 2 = 0 then
      return value
    getGroups value (i + 1) left

def getVarint : Parser Nat := getGroups 0 0 maxVarintGroups

def finish : Parser Unit := fun r => do
  let left ← r.remaining
  if 8 ≤ left then
    corrupt .trailingData
  else
    let (value, r) ← peek (left % UInt32.size) r
    if value ≠ 0 then
      corrupt .trailingData
    else
      return ((), r)

/-- The reader stands at the same bit, and what it has loaded are the next bits of the data. The bits of the
data are counted in a word. -/
structure Reader.Holds (s : Reader) (r : BitReader) : Prop where
  data : s.data = r.data
  small : 8 * r.data.size < 2 ^ 64
  consumed : s.consumed = r.pos
  bytes : 8 * s.bytePos = r.pos + s.nbits
  nbits_le : s.nbits ≤ 64
  acc : s.acc = r.peek s.nbits * 2 ^ (64 - s.nbits)

theorem Reader.holds_start {data : Bytes} (small : 8 * data.size < 2 ^ 64) :
    Reader.Holds { data } { data } where
  data := rfl
  small := small
  consumed := rfl
  bytes := rfl
  nbits_le := Nat.zero_le _
  acc := by
    rw [peek_eq]
    exact (Nat.zero_mul _).symm

/-- At any position a reader may stand that has loaded no more than the byte before it. -/
theorem Reader.exists_holds {r : BitReader} (small : 8 * r.data.size < 2 ^ 64) :
    ∃ s : Reader, s.Holds r := by
  let bytePos := (r.pos + 7) / 8
  let nbits := 8 * bytePos - r.pos
  refine ⟨⟨r.data, bytePos, r.peek nbits * 2 ^ (64 - nbits), nbits, r.pos⟩, rfl, small, rfl, ?_, ?_, rfl⟩
  · dsimp only [bytePos, nbits]
    omega
  · dsimp only [bytePos, nbits]
    omega

/-! ## Loading bits -/

theorem peek_add (r : BitReader) (n m : Nat) :
    r.peek (n + m) = r.peek n * 2 ^ m + toNat (front (r.rest.drop n) m) := by
  rw [peek_eq, peek_eq, front_add, toNat_append, length_front]

/-- One more byte behind the bits up to a byte boundary. -/
theorem peek_byte {r : BitReader} {n i : Nat} (h : 8 * i = r.pos + n) :
    r.peek (n + 8) = r.peek n * 2 ^ 8 + byteAt r.data i := by
  have hbyte : byteAt r.data i < 2 ^ 8 := by
    rw [byteAt]
    split
    · exact UInt8.toNat_lt _
    · decide
  rw [peek_add, BitReader.rest, List.drop_drop, ← h, front_byte, toNat_ofNat, Nat.mod_eq_of_lt hbyte]

theorem byteAt_eq_getD (data : Bytes) (i : Nat) : (data.getD i 0).toNat = byteAt data i := by
  rw [byteAt, Array.getD_eq_getD_getElem?]
  split
  · rename_i h
    rw [Array.getElem?_eq_getElem h, Option.getD_some]
  · rename_i h
    rw [Array.getElem?_eq_none (Nat.le_of_not_lt h)]
    rfl

theorem Reader.Holds.bytePos_lt {s : Reader} {r : BitReader} (h : s.Holds r) :
    8 * s.bytePos < 2 ^ 64 + 64 := by
  have hpos := r.pos_le
  have hbytes := h.bytes
  have hnbits := h.nbits_le
  have hsmall := h.small
  omega

theorem Reader.Holds.load {s : Reader} {r : BitReader} (h : s.Holds r) (hroom : s.nbits ≤ 56) :
    Reader.Holds ⟨s.data, s.bytePos + 1,
      s.acc ||| (s.data.getD s.bytePos 0).toNat * 2 ^ (56 - s.nbits), s.nbits + 8, s.consumed⟩ r where
  data := h.data
  small := h.small
  consumed := h.consumed
  bytes := by
    have := h.bytes
    dsimp only
    omega
  nbits_le := by
    dsimp only
    omega
  acc := by
    dsimp only
    have hbyte : (s.data.getD s.bytePos 0).toNat < 2 ^ 8 := UInt8.toNat_lt _
    have hsplit : 64 - s.nbits = 8 + (56 - s.nbits) := by omega
    have hlow : (s.data.getD s.bytePos 0).toNat * 2 ^ (56 - s.nbits) < 2 ^ (64 - s.nbits) := by
      rw [hsplit, Nat.pow_add]
      exact Nat.mul_lt_mul_of_pos_right hbyte (Nat.two_pow_pos _)
    have hor := Nat.two_pow_add_eq_or_of_lt hlow (r.peek s.nbits)
    have hleft : 64 - (s.nbits + 8) = 56 - s.nbits := by omega
    rw [h.acc, Nat.mul_comm (r.peek s.nbits), ← hor, peek_byte h.bytes, ← h.data, ← byteAt_eq_getD,
      hleft, hsplit, Nat.pow_add, Nat.add_mul, Nat.mul_comm (2 ^ 8 * 2 ^ (56 - s.nbits)),
      Nat.mul_assoc]

/-- Loading always ends, with more than 56 bits. -/
theorem Reader.Holds.refill {s : Reader} {r : BitReader} (h : s.Holds r) :
    ∃ s', s.refill = pure s' ∧ s'.Holds r ∧ 56 < s'.nbits := by
  induction hn : 64 - s.nbits using Nat.strongRecOn generalizing s with
  | ind n ih =>
    have hnbits := h.nbits_le
    have hpos := h.bytePos_lt
    by_cases hfull : 56 < s.nbits
    · refine ⟨s, ?_, h, hfull⟩
      rw [Reader.refill, if_pos hfull]
    · have hroom : s.nbits ≤ 56 := Nat.le_of_not_lt hfull
      obtain ⟨s', hrun, hholds, hmany⟩ := ih _ (by dsimp only; omega) (h.load hroom) rfl
      refine ⟨s', ?_, hholds, hmany⟩
      have hbyte : (s.data.getD s.bytePos 0).toNat < 2 ^ 8 := UInt8.toNat_lt _
      have hfits : (s.data.getD s.bytePos 0).toNat * 2 ^ (56 - s.nbits) < 2 ^ 64 := by
        calc
          (s.data.getD s.bytePos 0).toNat * 2 ^ (56 - s.nbits)
              < 2 ^ 8 * 2 ^ (56 - s.nbits) :=
                Nat.mul_lt_mul_of_pos_right hbyte (Nat.two_pow_pos _)
          _ = 2 ^ (8 + (56 - s.nbits)) := (Nat.pow_add _ _ _).symm
          _ ≤ 2 ^ 64 := Nat.pow_le_pow_right (by decide) (by omega)
      rw [Reader.refill, if_neg hfull, add_of_lt (by omega), pure_bind, sub_of_le hroom, pure_bind,
        shiftLeft_of_lt (by omega), pure_bind, add_of_lt (by omega), pure_bind,
        Nat.mod_eq_of_lt hfits]
      exact hrun

/-! ## Reading bits -/

theorem Reader.Holds.remaining {s : Reader} {r : BitReader} (h : s.Holds r) :
    s.remaining = pure r.remaining := by
  have hpos := r.pos_le
  have hsmall := h.small
  have hmul : r.data.size * 8 < 2 ^ 64 := by omega
  rw [Reader.remaining, h.data, h.consumed, mul_of_lt hmul, pure_bind, sub_of_le (by omega),
    BitReader.remaining, Nat.mul_comm]

theorem Reader.Holds.peek {s : Reader} {r : BitReader} (h : s.Holds r) {count : Nat}
    (hcount : count ≤ 32) : ∃ s', Machine.peek count s = pure (r.peek count, s') ∧ s'.Holds r := by
  unfold Machine.peek
  rw [require_of hcount, pure_bind]
  by_cases hzero : count = 0
  · subst hzero
    exact ⟨s, by rw [if_pos rfl, peek_eq]; rfl, h⟩
  · obtain ⟨s', hrun, hholds, hmany⟩ := h.refill
    have hnbits := hholds.nbits_le
    refine ⟨s', ?_, hholds⟩
    have hlow := toNat_lt (front (r.rest.drop count) (s'.nbits - count))
    rw [length_front] at hlow
    have hsplit := peek_add r count (s'.nbits - count)
    rw [Nat.add_sub_cancel' (by omega)] at hsplit
    have hexp : 64 - count = s'.nbits - count + (64 - s'.nbits) := by omega
    have hvalue : s'.acc / 2 ^ (64 - count) = r.peek count := by
      rw [hholds.acc, hexp, Nat.pow_add, Nat.mul_div_mul_right _ _ (Nat.two_pow_pos _), hsplit,
        Nat.mul_comm, Nat.mul_add_div (Nat.two_pow_pos _), Nat.div_eq_of_lt hlow, Nat.add_zero]
    have hword : r.peek count < UInt32.size :=
      Nat.lt_of_lt_of_le (peek_lt r count) (Nat.pow_le_pow_right (by decide) hcount)
    rw [if_neg hzero, hrun, pure_bind, sub_of_le (by omega), pure_bind,
      shiftRight_of_lt (by omega), pure_bind, hvalue, Nat.mod_eq_of_lt hword]

/-- What is loaded when `count` bits have been consumed. -/
theorem Reader.Holds.consume {s : Reader} {r : BitReader} (h : s.Holds r) {count : Nat}
    (hcount : count ≤ s.nbits) (hleft : count ≤ r.remaining) :
    Reader.Holds ⟨s.data, s.bytePos, s.acc * 2 ^ count % 2 ^ 64, s.nbits - count,
      s.consumed + count⟩ (r.advance count hleft) where
  data := h.data
  small := h.small
  consumed := by
    rw [h.consumed]
    rfl
  bytes := by
    have hbytes := h.bytes
    have hpos : (r.advance count hleft).pos = r.pos + count := rfl
    rw [hpos]
    dsimp only
    omega
  nbits_le := Nat.le_trans (Nat.sub_le _ _) h.nbits_le
  acc := by
    dsimp only
    have hnbits := h.nbits_le
    have hsplit := peek_add r count (s.nbits - count)
    rw [Nat.add_sub_cancel' hcount] at hsplit
    have hlow := toNat_lt (front (r.rest.drop count) (s.nbits - count))
    rw [length_front] at hlow
    have hword : 2 ^ 64 = 2 ^ (s.nbits - count) * 2 ^ (64 - (s.nbits - count)) := by
      rw [← Nat.pow_add, Nat.add_sub_cancel' (by omega)]
    have hexp : 2 ^ (64 - s.nbits) * 2 ^ count = 2 ^ (64 - (s.nbits - count)) := by
      rw [← Nat.pow_add]
      congr 1
      omega
    rw [h.acc, Nat.mul_assoc, hexp, hword, Nat.mul_mod_mul_right, hsplit, Nat.mul_add_mod_self_right,
      Nat.mod_eq_of_lt hlow, peek_eq, rest_advance]

theorem Reader.Holds.skip {s : Reader} {r : BitReader} (h : s.Holds r) {count : Nat}
    (hcount : count ≤ 56) (hleft : count ≤ r.remaining) :
    ∃ s', Machine.skip count s = pure ((), s') ∧ s'.Holds (r.advance count hleft) := by
  unfold Machine.skip
  rw [h.remaining, pure_bind, if_neg (Nat.not_lt_of_le hleft)]
  by_cases hzero : count = 0
  · subst hzero
    exact ⟨s, by rw [if_pos rfl], h⟩
  · obtain ⟨s', hrun, hholds, hmany⟩ := h.refill
    have hsmall := h.small
    have hpos := r.pos_le
    have hrem : r.remaining = 8 * r.data.size - r.pos := rfl
    have hconsumed := hholds.consumed
    refine ⟨_, ?_, hholds.consume (by omega) hleft⟩
    rw [if_neg hzero, hrun, pure_bind, shiftLeft_of_lt (by omega), pure_bind,
      sub_of_le (by omega), pure_bind, add_of_lt (by omega), pure_bind]

theorem Reader.Holds.skip_truncated {s : Reader} {r : BitReader} (h : s.Holds r) {count : Nat}
    (hleft : r.remaining < count) : Machine.skip count s = corrupt .truncated := by
  unfold Machine.skip
  rw [h.remaining, pure_bind, if_pos hleft]

/-! ## Programs that refine parsers -/

/-- On a reader that stands for the same position, the program ends as the parser does, with results
that are related and readers that stand for the same position again. -/
def Refines {α β : Type} (R : α → β → Prop) (x : Parser α) (p : BitParser β) : Prop :=
  ∀ s r, s.Holds r → match p r with
    | .ok b r' => ∃ a s', x s = pure (a, s') ∧ R a b ∧ s'.Holds r'
    | .error cause _ => x s = corrupt cause

section

variable {α β γ δ : Type} {R : α → β → Prop} {S : γ → δ → Prop}

theorem run_bind {σ : Type} {x : StateT σ Machine α} {s s' : σ} {a : α} (h : x s = pure (a, s'))
    (f : α → StateT σ Machine γ) : (x >>= f) s = f a s' := by
  simp only [Bind.bind, StateT.bind]
  rw [h]
  rfl

theorem run_bind_corrupt {x : Parser α} {s : Reader} {cause : Corruption} (h : x s = corrupt cause)
    (f : α → Parser γ) : (x >>= f) s = corrupt cause := by
  simp only [Bind.bind, StateT.bind]
  rw [h]
  rfl

theorem run_lift (m : Machine α) (f : α → Parser γ) (s : Reader) :
    (monadLift m >>= f : Parser γ) s = m >>= fun a => f a s :=
  bind_assoc m _ _

theorem refines_pure {a : α} {b : β} (h : R a b) : Refines R (pure a) (pure b) :=
  fun s _ hs => ⟨a, s, rfl, h, hs⟩

theorem refines_corrupt (cause : Corruption) :
    Refines R (corrupt cause : Machine α) (throw cause : BitParser β) :=
  fun _ _ _ => rfl

theorem Refines.bind {x : Parser α} {p : BitParser β} {f : α → Parser γ} {q : β → BitParser δ}
    (hx : Refines R x p) (hf : ∀ a b, R a b → Refines S (f a) (q b)) :
    Refines S (x >>= f) (p >>= q) := by
  intro s r hs
  have hx := hx s r hs
  simp only [Bind.bind, EStateM.bind]
  cases hp : p r with
  | error cause r' =>
    rw [hp] at hx
    exact run_bind_corrupt hx f
  | ok b r' =>
    rw [hp] at hx
    obtain ⟨a, s', hrun, hR, hs'⟩ := hx
    have hnext := hf a b hR s' r' hs'
    rw [← run_bind hrun f] at hnext
    exact hnext

/-- A computation on words that returns a value. -/
theorem Refines.lift {a : α} {m : Machine α} {f : α → Parser γ} {q : BitParser δ} (hm : m = pure a)
    (h : Refines S (f a) q) : Refines S (monadLift m >>= f) q := by
  subst hm
  exact h

/-! ## Readers that go on -/

/-- A program that reads bits and may be asked on where it fails. -/
abbrev Attempt := ExceptT Corruption Parser

/-- Goes on with the reader as it was where the data are corrupt. -/
def attempt (x : Parser α) : Attempt α := ExceptT.mk fun r =>
  tryCatch (do
    let (a, r') ← x r
    return (.ok a, r')) fun
  | .corrupt cause => return (.error cause, r)
  | stop => throw stop

def tryBits (count : Nat) : Attempt Nat := do
  let value ← peek count
  attempt (skip count)
  return value

/-- Reads on in a number as `getGroups` does, and keeps the groups consumed where there is no number. -/
def tryGroups (value i : Nat) : Nat → Attempt Nat
  | 0 => throw .varintOverflow
  | left + 1 => do
    let group ← tryBits 2
    let value := value ||| (← shiftLeft 32 (group &&& 1) i)
    if group &&& 2 = 0 then
      return value
    tryGroups value (i + 1) left

/-- Ends with the failure. -/
def orStop (x : Attempt α) : Parser α := do
  match ← x.run with
  | .ok a => return a
  | .error cause => (corrupt cause : Machine α)

theorem orStop_attempt (x : Parser α) : orStop (attempt x) = x := by
  funext r
  unfold orStop attempt
  simp only [ExceptT.run, ExceptT.mk, bind, StateT.bind]
  cases x r with
  | none => rfl
  | some found =>
    cases found with
    | ok a => rfl
    | error stop =>
      cases stop with
      | corrupt cause => rfl
      | overflow => rfl
      | outOfRange => rfl
      | assertion => rfl
      | capacity => rfl

theorem orStop_pure (a : α) : orStop (pure a) = pure a := rfl

theorem orStop_lift (x : Parser α) : orStop (monadLift x) = x := by
  have hrun : (monadLift x : Attempt α).run = Except.ok <$> x := rfl
  rw [orStop, hrun, bind_map_left]
  exact bind_pure x

theorem orStop_bind (x : Attempt α) (f : α → Attempt β) :
    orStop (x >>= f) = orStop x >>= fun a => orStop (f a) := by
  rw [orStop, ExceptT.run_bind, bind_assoc, orStop, bind_assoc]
  congr 1
  funext found
  cases found with
  | ok a => rfl
  | error cause => rfl

theorem orStop_tryBits (count : Nat) : orStop (tryBits count) = getBits count := by
  rw [tryBits, orStop_bind]
  simp only [orStop_bind, orStop_attempt, orStop_pure]
  rw [getBits]
  exact congrArg (· >>= _) (orStop_lift (peek count))

/-- Where a failure ends the run, a number is read as ever. -/
theorem orStop_tryGroups (value i left : Nat) :
    orStop (tryGroups value i left) = getGroups value i left := by
  induction left generalizing value i with
  | zero => rfl
  | succ left ih =>
    rw [tryGroups, orStop_bind, orStop_tryBits, getGroups]
    congr 1
    funext group
    rw [orStop_bind]
    refine congr (congrArg Bind.bind (orStop_lift _)) ?_
    funext bit
    dsimp only
    split
    · rfl
    · exact ih _ _

/-- On a reader that stands for the same position, the program finds what the parser finds, and its reader
stands for the same position again, also after a failure. -/
def Follows (P : α → Prop) (x : Attempt α) (p : BitParser α) : Prop :=
  ∀ s r, s.Holds r → match p r with
    | .ok a r' => ∃ s', x s = pure (.ok a, s') ∧ P a ∧ s'.Holds r'
    | .error cause r' => ∃ s', x s = pure (.error cause, s') ∧ s'.Holds r'

variable {P : α → Prop} {Q : β → Prop}

theorem follows_pure {a : α} (h : P a) : Follows P (pure a) (pure a) :=
  fun s _ hs => ⟨s, rfl, h, hs⟩

theorem follows_throw (cause : Corruption) : Follows P (throw cause) (throw cause) :=
  fun s _ hs => ⟨s, rfl, hs⟩

theorem attempt_bind {x : Attempt α} {s s' : Reader} {a : α} (h : x s = pure (.ok a, s'))
    (f : α → Attempt β) : (x >>= f) s = f a s' := by
  simp only [bind, ExceptT.bind, ExceptT.mk, StateT.bind]
  rw [h]
  rfl

theorem attempt_bind_error {x : Attempt α} {s s' : Reader} {cause : Corruption}
    (h : x s = pure (.error cause, s')) (f : α → Attempt β) :
    (x >>= f) s = pure (.error cause, s') := by
  simp only [bind, ExceptT.bind, ExceptT.mk, StateT.bind]
  rw [h]
  rfl

theorem Follows.bind {x : Attempt α} {p : BitParser α} {f : α → Attempt β} {q : α → BitParser β}
    (hx : Follows P x p) (hf : ∀ a, P a → Follows Q (f a) (q a)) : Follows Q (x >>= f) (p >>= q) := by
  intro s r hs
  have hx := hx s r hs
  simp only [Bind.bind, EStateM.bind]
  cases hp : p r with
  | error cause r' =>
    rw [hp] at hx
    obtain ⟨s', hrun, hs'⟩ := hx
    exact ⟨s', attempt_bind_error hrun f, hs'⟩
  | ok a r' =>
    rw [hp] at hx
    obtain ⟨s', hrun, hP, hs'⟩ := hx
    have hnext := hf a hP s' r' hs'
    rw [← attempt_bind hrun f] at hnext
    exact hnext

/-- A computation on words that returns a value. -/
theorem Follows.lift {a : α} {m : Machine α} {f : α → Attempt β} {q : BitParser β} (hm : m = pure a)
    (h : Follows Q (f a) q) : Follows Q (monadLift m >>= f) q := by
  subst hm
  exact h

theorem follows_skip {count : Nat} (h : count ≤ 56) :
    Follows (fun _ => True) (attempt (skip count)) (BitReader.skip count) := by
  intro s r hs
  by_cases hleft : count ≤ r.remaining
  · obtain ⟨s', hrun, hs'⟩ := hs.skip h hleft
    rw [skip_of_le hleft]
    refine ⟨s', ?_, trivial, hs'⟩
    simp only [attempt, ExceptT.mk]
    rw [hrun]
    rfl
  · have hleft := Nat.lt_of_not_le hleft
    rw [skip_of_lt hleft]
    refine ⟨s, ?_, hs⟩
    simp only [attempt, ExceptT.mk]
    rw [hs.skip_truncated hleft]
    rfl

/-- Bits that are read are below their power of two. -/
theorem follows_tryBits {count : Nat} (h : count ≤ 32) :
    Follows (· < 2 ^ count) (tryBits count) (BitReader.get count) := by
  intro s r hs
  obtain ⟨s₁, hpeek, hs₁⟩ := hs.peek h
  have hlook : (monadLift (peek count) : Attempt Nat) s = pure (.ok (r.peek count), s₁) :=
    congrArg (· >>= _) hpeek
  have hskip := follows_skip (Nat.le_trans h (by decide)) s₁ r hs₁
  have hrest := attempt_bind hlook fun value => do
    attempt (skip count)
    return value
  simp only [BitReader.get]
  cases hp : BitReader.skip count r with
  | error cause r' =>
    rw [hp] at hskip
    obtain ⟨s₂, hrun, hs₂⟩ := hskip
    exact ⟨s₂, hrest.trans (attempt_bind_error hrun _), hs₂⟩
  | ok b r' =>
    rw [hp] at hskip
    obtain ⟨s₂, hrun, -, hs₂⟩ := hskip
    exact ⟨s₂, hrest.trans (attempt_bind hrun _), peek_lt r count, hs₂⟩

/-- The next bit of a number goes to a place above all bits so far. -/
theorem place_bit {value i : Nat} (hi : i < 32) (hvalue : value < 2 ^ i) (group : Nat) :
    shiftLeft 32 (group &&& 1) i = pure (group % 2 * 2 ^ i) ∧
      value ||| group % 2 * 2 ^ i = value + group % 2 * 2 ^ i ∧
      value + group % 2 * 2 ^ i < 2 ^ (i + 1) := by
  have hbit : group % 2 < 2 := Nat.mod_lt _ (by decide)
  have hand : group &&& 1 = group % 2 := Nat.and_one_is_mod group
  have hplace : group % 2 * 2 ^ i < 2 ^ (i + 1) := by
    rw [Nat.pow_succ, Nat.mul_comm]
    exact Nat.mul_lt_mul_of_pos_left hbit (Nat.two_pow_pos i)
  have hword : (2 : Nat) ^ (i + 1) ≤ 2 ^ 32 := Nat.pow_le_pow_right (by decide) hi
  have hor : value ||| group % 2 * 2 ^ i = value + group % 2 * 2 ^ i := by
    rw [Nat.or_comm, Nat.add_comm, Nat.mul_comm, Nat.two_pow_add_eq_or_of_lt hvalue]
  have hnext : value + group % 2 * 2 ^ i < 2 ^ (i + 1) := by
    rw [Nat.pow_succ]
    have : group % 2 * 2 ^ i ≤ 1 * 2 ^ i := Nat.mul_le_mul_right _ (by omega)
    omega
  refine ⟨?_, hor, hnext⟩
  rw [hand, shiftLeft_of_lt hi, Nat.mod_eq_of_lt (Nat.lt_of_lt_of_le hplace hword)]

theorem and_two_eq_zero_iff {group : Nat} (h : group < 2 ^ 2) : group &&& 2 = 0 ↔ group < 2 := by
  have hcases : group = 0 ∨ group = 1 ∨ group = 2 ∨ group = 3 := by omega
  rcases hcases with rfl | rfl | rfl | rfl <;> decide

/-- The groups are collected bit by bit, each at its own place. -/
theorem follows_tryGroups {value i left : Nat} (hi : i + left ≤ 32) (hvalue : value < 2 ^ i) :
    Follows (· < 2 ^ 32) (tryGroups value i left) (BitReader.getGroups value (2 ^ i) left) := by
  induction left generalizing value i with
  | zero => exact follows_throw _
  | succ left ih =>
    unfold tryGroups BitReader.getGroups
    refine (follows_tryBits (by decide)).bind ?_
    intro group hgroup
    obtain ⟨hshift, hor, hnext⟩ := place_bit (by omega) hvalue group
    have hword : (2 : Nat) ^ (i + 1) ≤ 2 ^ 32 := Nat.pow_le_pow_right (by decide) (by omega)
    have hflag := and_two_eq_zero_iff hgroup
    refine Follows.lift hshift ?_
    dsimp only
    rw [hor]
    by_cases hlast : group < 2
    · rw [if_pos (hflag.2 hlast), if_pos hlast]
      exact follows_pure (Nat.lt_of_lt_of_le hnext hword)
    · rw [if_neg (fun h => hlast (hflag.1 h)), if_neg hlast]
      rw [← Nat.pow_succ]
      exact ih (by omega) hnext

/-- Where a failure ends the run, the program refines the parser. -/
theorem Follows.refines {x : Attempt α} {p : BitParser α} (h : Follows P x p) :
    Refines (fun a b => a = b ∧ P b) (orStop x) p := by
  intro s r hs
  have h := h s r hs
  cases hp : p r with
  | error cause r' =>
    rw [hp] at h
    obtain ⟨s', hrun, -⟩ := h
    exact run_bind hrun _
  | ok a r' =>
    rw [hp] at h
    obtain ⟨s', hrun, hP, hs'⟩ := h
    exact ⟨a, s', run_bind hrun _, ⟨rfl, hP⟩, hs'⟩

/-! ## Failures that end a run -/

/-- Bits that are read are below their power of two. -/
theorem refines_getBits {count : Nat} (h : count ≤ 32) :
    Refines (fun a b => a = b ∧ b < 2 ^ count) (getBits count) (BitReader.get count) := by
  rw [← orStop_tryBits]
  exact (follows_tryBits h).refines

theorem refines_getGroups {value i left : Nat} (hi : i + left ≤ 32) (hvalue : value < 2 ^ i) :
    Refines (fun a b => a = b ∧ b < 2 ^ 32) (getGroups value i left)
      (BitReader.getGroups value (2 ^ i) left) := by
  rw [← orStop_tryGroups]
  exact (follows_tryGroups hi hvalue).refines

theorem refines_getVarint :
    Refines (fun a b => a = b ∧ b < 2 ^ 32) getVarint BitReader.getVarint :=
  refines_getGroups (Nat.le_refl _) (by decide)

theorem Reader.Holds.finish {s : Reader} {r : BitReader} (h : s.Holds r) :
    match r.finish with
    | .ok _ => ∃ s', Machine.finish s = pure ((), s')
    | .error cause => Machine.finish s = corrupt cause := by
  unfold Machine.finish BitReader.finish
  rw [h.remaining, pure_bind]
  by_cases hmany : r.remaining < 8
  · have hword : r.remaining % UInt32.size = r.remaining := Nat.mod_eq_of_lt (by
      have : UInt32.size = 4294967296 := rfl
      omega)
    obtain ⟨s', hpeek, -⟩ := h.peek (Nat.le_trans (Nat.le_of_lt hmany) (by decide))
    rw [if_neg (Nat.not_le_of_lt hmany), hword, hpeek, pure_bind]
    dsimp only
    by_cases hzero : r.peek r.remaining = 0
    · rw [if_pos ⟨hmany, hzero⟩, if_neg (not_not_intro hzero)]
      exact ⟨s', rfl⟩
    · rw [if_neg (fun h => hzero h.2), if_pos hzero]
  · rw [if_pos (Nat.le_of_not_lt hmany), if_neg (fun h => hmany h.1)]

end

end Machine

end LzCodec
