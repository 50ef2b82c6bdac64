import LzCodec.Proofs.Bits.Cursor

/-!
# Numerals

A number may be written with zeros above its highest bit, as long as all its groups are within what a reader
allows. Bits begin with such a numeral or with none (`numeral_or_not`): the reader finds the number
(`reads_numeral`) or fails where the groups end (`fails_getVarint`).
-/

namespace LzCodec

namespace BitReader

variable {α β : Type} {p : BitParser α} {bits : List Bool} {cause : Corruption}

/-- Fails on these bits, whatever stands before them. -/
def Fails (p : BitParser α) (bits : List Bool) (cause : Corruption) : Prop :=
  ∀ r : BitReader, r.rest = bits → ∃ r', p r = .error cause r'

theorem fails_throw (cause : Corruption) (bits : List Bool) :
    Fails (throw cause : BitParser α) bits cause :=
  fun r _ => ⟨r, rfl⟩

theorem Fails.bind (hp : Fails p bits cause) (f : α → BitParser β) : Fails (p >>= f) bits cause := by
  intro r hr
  obtain ⟨r', hrun⟩ := hp r hr
  refine ⟨r', ?_⟩
  simp only [Bind.bind, EStateM.bind, hrun]

theorem Reads.bind_fails {text : List Bool} {a : α} {f : α → BitParser β} (hp : Reads p text a)
    (hf : Fails (f a) bits cause) : Fails (p >>= f) (text ++ bits) cause := by
  intro r hr
  obtain ⟨r₁, hfirst, -, hrest⟩ := hp r bits hr
  obtain ⟨r₂, hsecond⟩ := hf r₁ hrest
  refine ⟨r₂, ?_⟩
  simp only [Bind.bind, EStateM.bind, hfirst, hsecond]

end BitReader

namespace BitString

open BitReader

/-- The bits are the groups of a number, and zeros above them. -/
def Numeral (value : Nat) (text : List Bool) : Prop :=
  ∃ zeros, value.log2 + zeros < maxVarintGroups ∧ text = paddedGroups value zeros

/-- No numeral stands in front: the bits end before the last group, or no group that is allowed is the
last. -/
inductive NoNumeral : Corruption → List Bool → Prop where
  | truncated {payload tail : List Bool} (few : payload.length < maxVarintGroups)
      (short : tail.length < 2) : NoNumeral .truncated (openGroups payload ++ tail)
  | overflow {payload : List Bool} (rest : List Bool) (all : payload.length = maxVarintGroups) :
      NoNumeral .varintOverflow (openGroups payload ++ rest)

theorem lowFirst_lt (bits : List Bool) : lowFirst bits < 2 ^ bits.length := by
  induction bits with
  | nil => exact Nat.one_pos
  | cons b rest ih =>
    have hb : b.toNat < 2 := Bool.toNat_lt b
    rw [lowFirst_cons, List.length_cons, Nat.pow_succ]
    omega

/-- The bits of a number are those that it is made of. -/
theorem map_testBit_lowFirst (bits : List Bool) :
    (List.range bits.length).map (lowFirst bits).testBit = bits := by
  induction bits with
  | nil => rfl
  | cons b rest ih =>
    have hlow : (b.toNat + 2 * lowFirst rest).testBit 0 = b := by
      cases b <;> simp
    have hhigh : (b.toNat + 2 * lowFirst rest) / 2 = lowFirst rest := by
      have hb : b.toNat < 2 := Bool.toNat_lt b
      omega
    rw [List.length_cons, List.range_succ_eq_map, List.map_cons, List.map_map, lowFirst_cons, hlow]
    congr 1
    simp only [Function.comp_def, Nat.succ_eq_add_one, Nat.testBit_succ, hhigh]
    exact ih

/-- Numerals are a last group behind open ones. -/
theorem numeral_iff {value : Nat} {text : List Bool} :
    Numeral value text ↔ ∃ payload b, payload.length < maxVarintGroups ∧
      text = openGroups payload ++ [false, b] ∧ value = lowFirst (payload ++ [b]) := by
  constructor
  · rintro ⟨zeros, hlt, rfl⟩
    refine ⟨_, _, ?_, paddedGroups_eq value zeros, ?_⟩
    · rwa [List.length_map, List.length_range]
    · have hfit : value < 2 ^ (value.log2 + zeros + 1) :=
        Nat.lt_of_lt_of_le Nat.lt_log2_self (Nat.pow_le_pow_right Nat.two_pos (by omega))
      rw [← List.map_singleton, ← List.map_append, ← List.range_succ, lowFirst_testBit,
        Nat.mod_eq_of_lt hfit]
  · rintro ⟨payload, b, hlt, rfl, rfl⟩
    have hbits := map_testBit_lowFirst (payload ++ [b])
    have hvalue := lowFirst_lt (payload ++ [b])
    rw [List.length_append, List.length_singleton] at hbits hvalue
    generalize lowFirst (payload ++ [b]) = value at hbits hvalue
    have hlog : value.log2 ≤ payload.length := by
      rcases Nat.eq_zero_or_pos value with rfl | hpos
      · exact Nat.zero_le _
      · exact Nat.le_of_lt_succ ((Nat.log2_lt (Nat.ne_of_gt hpos)).2 hvalue)
    have hwidth : value.log2 + (payload.length - value.log2) = payload.length := Nat.add_sub_cancel' hlog
    rw [List.range_succ, List.map_append, List.map_singleton] at hbits
    obtain ⟨hpayload, hlast⟩ := List.append_inj hbits (by simp)
    refine ⟨payload.length - value.log2, by omega, ?_⟩
    rw [paddedGroups_eq, hwidth, hpayload, List.singleton_inj.1 hlast]

/-- A number that fits into a word is a numeral as it is written. -/
theorem numeral_varintBits {value : Nat} (h : value < 2 ^ maxVarintGroups) :
    Numeral value (BitWriter.varintBits value) := by
  refine ⟨0, ?_, varintBits_eq_groups value⟩
  rcases Nat.eq_zero_or_pos value with rfl | hpos
  · decide
  · exact (Nat.log2_lt (Nat.ne_of_gt hpos)).2 h

theorem takeGroups_of_ends {left : Nat} {payload tail : List Bool} (few : payload.length < left)
    (short : tail.length < 2) :
    takeGroups left (openGroups payload ++ tail) = (.error .truncated, tail) := by
  induction payload generalizing left with
  | nil =>
    obtain ⟨left, rfl⟩ := Nat.exists_eq_add_one_of_ne_zero (Nat.ne_of_gt few)
    exact takeGroups_of_short short
  | cons b payload ih =>
    obtain ⟨left, rfl⟩ := Nat.exists_eq_add_one_of_ne_zero (Nat.ne_of_gt (Nat.zero_lt_of_lt few))
    rw [openGroups_cons, List.cons_append, List.cons_append, takeGroups, ih (Nat.lt_of_succ_lt_succ few)]
    rfl

/-- Groups are open as far as they go, or up to a last one. -/
theorem openGroups_cases (left : Nat) (bits : List Bool) :
    (∃ payload b rest, payload.length < left ∧ bits = openGroups payload ++ (false :: b :: rest)) ∨
    (∃ payload tail, payload.length < left ∧ tail.length < 2 ∧ bits = openGroups payload ++ tail) ∨
    ∃ payload rest, payload.length = left ∧ bits = openGroups payload ++ rest := by
  fun_induction takeGroups left bits with
  | case1 bits => exact .inr (.inr ⟨[], bits, rfl, rfl⟩)
  | case2 left b rest ih =>
    rcases ih with ⟨payload, c, more, hlt, rfl⟩ | ⟨payload, tail, hlt, hshort, rfl⟩ | ⟨payload, more, rfl, rfl⟩
    · exact .inl ⟨b :: payload, c, more, Nat.succ_lt_succ hlt, rfl⟩
    · exact .inr (.inl ⟨b :: payload, tail, Nat.succ_lt_succ hlt, hshort, rfl⟩)
    · exact .inr (.inr ⟨b :: payload, more, rfl, rfl⟩)
  | case3 left b rest => exact .inl ⟨[], b, rest, Nat.succ_pos left, rfl⟩
  | case4 left bits hopen hlast =>
    refine .inr (.inl ⟨[], bits, Nat.succ_pos left, ?_, rfl⟩)
    rcases bits with _ | ⟨b, _ | ⟨c, rest⟩⟩
    · exact Nat.two_pos
    · exact Nat.one_lt_two
    · cases b with
      | true => exact absurd rfl (hopen c rest)
      | false => exact absurd rfl (hlast c rest)

/-- Bits begin with a numeral, or else it is clear why not. -/
theorem numeral_or_not (bits : List Bool) :
    (∃ value text rest, Numeral value text ∧ bits = text ++ rest) ∨ ∃ cause, NoNumeral cause bits := by
  rcases openGroups_cases maxVarintGroups bits with
    ⟨payload, b, rest, hlt, rfl⟩ | ⟨payload, tail, hlt, hshort, rfl⟩ | ⟨payload, rest, hall, rfl⟩
  · refine .inl ⟨_, _, rest, numeral_iff.2 ⟨payload, b, hlt, rfl, rfl⟩, ?_⟩
    rw [List.append_assoc]
    rfl
  · exact .inr ⟨_, .truncated hlt hshort⟩
  · exact .inr ⟨_, .overflow rest hall⟩

end BitString

namespace BitReader

open BitString

theorem reads_numeral {value : Nat} {text : List Bool} (h : Numeral value text) :
    Reads getVarint text value := by
  obtain ⟨payload, b, hlt, rfl, rfl⟩ := numeral_iff.1 h
  intro r tail hr
  rw [List.append_assoc, List.cons_append, List.singleton_append] at hr
  obtain ⟨hfound, hbehind, hkept⟩ := outcome_getGroups 0 1 maxVarintGroups r
  rw [← getVarint, hr, takeGroups_of_openGroups b hlt] at hfound hbehind
  rw [← getVarint] at hkept
  cases hrun : getVarint r with
  | ok value r' =>
    rw [hrun] at hfound hbehind hkept
    simp only [outcome, Except.map, Except.ok.injEq, Option.some.injEq, Nat.zero_add, Nat.mul_one] at hfound
    exact ⟨r', hfound ▸ rfl, hkept, hbehind⟩
  | error cause r' =>
    rw [hrun] at hfound
    cases hfound

theorem fails_getVarint {bits : List Bool} {cause : Corruption} (h : NoNumeral cause bits) :
    Fails getVarint bits cause := by
  have htake : (takeGroups maxVarintGroups bits).1 = .error cause := by
    cases h with
    | truncated few short => rw [takeGroups_of_ends few short]
    | overflow rest all => exact takeGroups_overflow_iff.2 ⟨_, rest, all, rfl⟩
  rintro r rfl
  obtain ⟨hfound, -, -⟩ := outcome_getGroups 0 1 maxVarintGroups r
  rw [← getVarint, htake] at hfound
  cases hrun : getVarint r with
  | ok value r' =>
    rw [hrun] at hfound
    cases hfound
  | error cause' r' =>
    rw [hrun] at hfound
    cases hfound
    exact ⟨r', rfl⟩

end BitReader

end LzCodec
