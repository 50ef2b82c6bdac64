import Mathlib.Algebra.Ring.Nat
import LzCodec.Corruption
import LzCodec.Powers

/-!
# Programs on machine words

The codec computes with numbers of 32 and 64 bits and with arrays of fixed size. Here it is written out
on such words: whatever a word cannot hold, whatever lies outside an array, whatever contradicts an
assertion and whatever no allocation can give stops a run, and a loop may run forever. To say that nothing
of this happens is to say that a run returns a value or an error of its own. The memory for what a run
writes is taken to be there.
-/

namespace LzCodec

/-- What a run stops at before its end. -/
inductive Stop where
  /-- The frame is corrupt. All other reasons are faults of the program. -/
  | corrupt (cause : Corruption)
  | overflow
  | outOfRange
  | assertion
  | capacity
  deriving DecidableEq, Repr

/-- A run of a program on machine words. It may also never end. -/
abbrev Machine := ExceptT Stop Option

namespace Machine

variable {α β : Type}

/-- A source has fewer than `2 ^ maxSizeLog` bytes. -/
def maxSizeLog : Nat := 60

/-- No array has `2 ^ maxArrayLog` elements or more. -/
def maxArrayLog : Nat := 63

def corrupt (cause : Corruption) : Machine α := throw (.corrupt cause)

/-- The outcome of a computation that ends and has no faults. -/
def ofExcept : Except Corruption α → Machine α
  | .ok a => pure a
  | .error cause => corrupt cause

def require (P : Prop) [Decidable P] : Machine Unit := if P then pure () else throw .assertion

/-- Sets `bytes` bytes aside ahead of their use. No allocation has `2 ^ maxArrayLog` bytes or more. -/
def request (bytes : Nat) : Machine Unit :=
  if bytes < 2 ^ maxArrayLog then pure () else throw .capacity

/-- A sum in `width` bits. -/
def add (width a b : Nat) : Machine Nat :=
  if a + b < 2 ^ width then pure (a + b) else throw .overflow

/-- A product in `width` bits. -/
def mul (width a b : Nat) : Machine Nat :=
  if a * b < 2 ^ width then pure (a * b) else throw .overflow

/-- A difference of unsigned numbers. -/
def sub (a b : Nat) : Machine Nat := if b ≤ a then pure (a - b) else throw .overflow

/-- A sum of signed numbers, in `width` bits and a sign. -/
def addSigned (width : Nat) (a b : Int) : Machine Int :=
  if -((2 ^ width : Nat) : Int) ≤ a + b ∧ a + b < ((2 ^ width : Nat) : Int) then
    pure (a + b)
  else
    throw .overflow

/-- Shifts to the left and drops what does not fit. -/
def shiftLeft (width a count : Nat) : Machine Nat :=
  if count < width then pure (a * 2 ^ count % 2 ^ width) else throw .overflow

/-- Shifts to the left, where nothing may be shifted out. -/
def shiftLeftExact (width a count : Nat) : Machine Nat :=
  if count < width ∧ a * 2 ^ count < 2 ^ width then pure (a * 2 ^ count) else throw .overflow

def shiftRight (width a count : Nat) : Machine Nat :=
  if count < width then pure (a / 2 ^ count) else throw .overflow

def load (xs : Array α) (i : Nat) : Machine α :=
  if h : i < xs.size then pure xs[i] else throw .outOfRange

def store (xs : Array α) (i : Nat) (x : α) : Machine (Array α) :=
  if h : i < xs.size then pure (xs.set i x) else throw .outOfRange

/-- The elements from `start` up to `stop`. -/
def slice (xs : Array α) (start stop : Nat) : Machine (Array α) :=
  if start ≤ stop ∧ stop ≤ xs.size then pure (xs.extract start stop) else throw .outOfRange

@[simp] theorem throw_bind (stop : Stop) (f : α → Machine β) :
    ((throw stop : Machine α) >>= f) = throw stop :=
  rfl

@[simp] theorem corrupt_bind (cause : Corruption) (f : α → Machine β) :
    (corrupt cause >>= f) = corrupt cause :=
  rfl

theorem pure_inj {a b : α} (h : (pure a : Machine α) = pure b) : a = b :=
  Except.ok.inj (Option.some.inj h)

/-- A run of two parts that ends was a run of the first part that ended, and of the second. -/
theorem exists_of_bind {x : Machine α} {f : α → Machine β} {b : β} (h : (x >>= f) = pure b) :
    ∃ a, x = pure a ∧ f a = pure b := by
  cases x with
  | none => cases h
  | some result =>
    cases result with
    | error stop => cases h
    | ok a => exact ⟨a, rfl, h⟩

theorem require_of {P : Prop} [Decidable P] (h : P) : require P = pure () := if_pos h

theorem request_of_lt {bytes : Nat} (h : bytes < 2 ^ maxArrayLog) : request bytes = pure () := if_pos h

theorem request_of_le {bytes : Nat} (h : 2 ^ maxArrayLog ≤ bytes) : request bytes = throw .capacity :=
  if_neg (Nat.not_lt_of_le h)

theorem add_of_lt {width a b : Nat} (h : a + b < 2 ^ width) : add width a b = pure (a + b) := if_pos h

theorem eq_of_add {width a b c : Nat} (h : add width a b = pure c) : c = a + b := by
  unfold add at h
  split at h
  · exact (pure_inj h).symm
  · cases h

theorem mul_of_lt {width a b : Nat} (h : a * b < 2 ^ width) : mul width a b = pure (a * b) := if_pos h

theorem sub_of_le {a b : Nat} (h : b ≤ a) : sub a b = pure (a - b) := if_pos h

theorem shiftLeft_of_lt {width a count : Nat} (h : count < width) :
    shiftLeft width a count = pure (a * 2 ^ count % 2 ^ width) :=
  if_pos h

theorem shiftLeftExact_of_lt {width a count : Nat} (h : count < width)
    (ha : a * 2 ^ count < 2 ^ width) : shiftLeftExact width a count = pure (a * 2 ^ count) :=
  if_pos ⟨h, ha⟩

theorem shiftRight_of_lt {width a count : Nat} (h : count < width) :
    shiftRight width a count = pure (a / 2 ^ count) :=
  if_pos h

theorem addSigned_of_range {width : Nat} {a b : Int} (h : -((2 ^ width : Nat) : Int) ≤ a + b)
    (h' : a + b < ((2 ^ width : Nat) : Int)) : addSigned width a b = pure (a + b) :=
  if_pos ⟨h, h'⟩

theorem load_of_lt {xs : Array α} {i : Nat} (h : i < xs.size) : load xs i = pure xs[i] := dif_pos h

theorem load_of_getElem? {xs : Array α} {i : Nat} {x : α} (h : xs[i]? = some x) :
    load xs i = pure x := by
  obtain ⟨hi, rfl⟩ := Array.getElem?_eq_some_iff.1 h
  exact load_of_lt hi

theorem store_of_lt {xs : Array α} {i : Nat} {x : α} (h : i < xs.size) :
    store xs i x = pure (xs.set i x) :=
  dif_pos h

theorem slice_of_le {xs : Array α} {start stop : Nat} (h : start ≤ stop) (hs : stop ≤ xs.size) :
    slice xs start stop = pure (xs.extract start stop) :=
  if_pos ⟨h, hs⟩

end Machine

end LzCodec
