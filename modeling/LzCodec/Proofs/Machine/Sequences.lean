import LzCodec.Proofs.Machine.Replay

/-!
# Replay of a whole sequence

Tokens that are replayed as one block announce their own size, and so nothing but a copy that starts too far
back can stop them. The first of these is what the failure names (`replay_iff_reaches`). A run on words sums up
the sizes and sets the whole output aside before it begins (`Machine.replay_eq`).
-/

namespace LzCodec

namespace Machine

/-- The sum of the sizes of the tokens. -/
def totalSize (tokens : Array Token) : Machine Nat :=
  tokens.toList.foldlM (fun n t => add 64 n t.size) 0

/-- Replays the tokens as one block. -/
def replay (tokens : Array Token) : Machine Bytes := do
  let total ← totalSize tokens
  let b ← Buffer.withCapacity total
  let b ← tokens.toList.foldlM Buffer.apply (← b.beginBlock total)
  return (← b.endBlock).bytes

theorem foldlM_add_size {tokens : List Token} {n : Nat}
    (small : n + Token.totalSize tokens.toArray < 2 ^ 64) :
    tokens.foldlM (fun n t => add 64 n t.size) n = pure (n + Token.totalSize tokens.toArray) := by
  induction tokens generalizing n with
  | nil => rfl
  | cons t rest ih =>
    rw [Token.totalSize_cons, ← Nat.add_assoc] at small ⊢
    rw [List.foldlM_cons, add_of_lt (by omega), pure_bind, ih small]

theorem Buffer.Holds.applyAll {tokens : List Token} {b : Buffer} {out : Output} (h : b.Holds out) :
    match Output.applyAll tokens out with
    | .ok _ out' => ∃ b', tokens.foldlM Buffer.apply b = pure b' ∧ b'.Holds out'
    | .error cause _ => tokens.foldlM Buffer.apply b = corrupt cause := by
  induction tokens generalizing b out with
  | nil => exact ⟨b, rfl, h⟩
  | cons t rest ih =>
    have hfirst := h.apply t
    rw [Output.applyAll_cons, List.foldlM_cons]
    cases happly : Output.apply t out with
    | ok _ out' =>
      rw [happly] at hfirst
      obtain ⟨b', hrun, hb'⟩ := hfirst
      rw [hrun, pure_bind]
      exact ih hb'
    | error cause out' =>
      rw [happly] at hfirst
      dsimp only at hfirst ⊢
      rw [hfirst, corrupt_bind]

/-- A run on words does what a replay does, if the output can be set aside. -/
theorem replay_eq {tokens : Array Token} (small : Token.totalSize tokens < 2 ^ 64) :
    replay tokens =
      if Token.totalSize tokens < 2 ^ maxArrayLog then ofExcept (LzCodec.replay tokens)
      else throw .capacity := by
  have htotal : totalSize tokens = pure (0 + Token.totalSize tokens) :=
    foldlM_add_size (by rwa [Nat.zero_add])
  rw [replay, htotal, pure_bind, Nat.zero_add]
  by_cases hfits : Token.totalSize tokens < 2 ^ maxArrayLog
  · have hempty : Buffer.Holds ⟨#[], 0⟩ Output.empty := ⟨rfl, rfl, by decide⟩
    have hroom : Output.empty.bytes.size + Token.totalSize tokens < 2 ^ 64 := by
      simpa [Output.empty] using small
    obtain ⟨b, hbegin, hb⟩ := hempty.beginBlock hroom
    rw [if_pos hfits, Buffer.withCapacity_of_lt hfits, pure_bind, hbegin, pure_bind, LzCodec.replay,
      Output.withCapacity_eq]
    have hall := @Buffer.Holds.applyAll tokens.toList _ _ hb
    cases hrun : Output.applyAll tokens.toList (Output.empty.beginBlock (Token.totalSize tokens)) with
    | error cause out =>
      rw [hrun] at hall
      dsimp only at hall
      rw [hall]
      rfl
    | ok _ out =>
      rw [hrun] at hall
      obtain ⟨b', hb', hholds⟩ := hall
      rw [hb', pure_bind, hholds.endBlock]
      dsimp only
      cases out.endBlock with
      | error cause => rfl
      | ok _ =>
        rw [← hholds.bytes]
        rfl
  · have hlarge := request_of_le (Nat.le_of_not_lt hfits)
    rw [if_neg hfits, Buffer.withCapacity, hlarge]
    rfl

end Machine

/-- **A sequence is replayed exactly if each copy starts within what is before it.** Then it gives as many
bytes as its tokens stand for. Otherwise it fails, with the distance of the first copy that does not, and how
many bytes the tokens before it have produced. The room is what the tokens themselves add up to, and so none
of them runs past the end, and the block never ends early. On words the same happens as long as one
allocation can hold the sum. A larger sum that still fits into a word stops the run before it looks at a
token. -/
theorem replay_iff_reaches {tokens : List Token} (small : Token.totalSize tokens.toArray < 2 ^ 64) :
    (Machine.replay tokens.toArray =
      if Token.totalSize tokens.toArray < 2 ^ Machine.maxArrayLog then
        Machine.ofExcept (replay tokens.toArray)
      else
        throw .capacity) ∧
      ((∃ content, replay tokens.toArray = .ok content) ↔
        ∀ before length distance after, tokens = before ++ .copy length distance :: after →
          1 ≤ distance ∧ distance ≤ Token.totalSize before.toArray) ∧
      (∀ content, replay tokens.toArray = .ok content →
        content.size = Token.totalSize tokens.toArray ∧
          content.toList = tokens.foldl Token.extend []) ∧
      ∀ cause, replay tokens.toArray = .error cause ↔
        ∃ before length distance after produced, tokens = before ++ .copy length distance :: after ∧
          replay before.toArray = .ok produced ∧
          produced.size = Token.totalSize before.toArray ∧
          ¬ (1 ≤ distance ∧ distance ≤ produced.size) ∧
          cause = .distanceTooFar distance produced.size := by
  refine ⟨Machine.replay_eq small, ?_, ?_, ?_⟩
  · rw [exists_replay_iff, Token.grounded_iff]
    simp only [Nat.zero_add]
  · intro content hcontent
    obtain ⟨content', hrun, hsize, hbytes⟩ :=
      exists_replay_of_grounded (exists_replay_iff.1 ⟨content, hcontent⟩)
    cases hcontent.symm.trans hrun
    exact ⟨hsize, hbytes⟩
  · intro cause
    rw [replay_eq_error_iff]
    constructor
    · rintro ⟨before, length, distance, after, hsplit, hbefore, hfar, rfl⟩
      obtain ⟨produced, hproduced, hsize, -⟩ := exists_replay_of_grounded hbefore
      rw [← hsize] at hfar ⊢
      exact ⟨before, length, distance, after, produced, hsplit, hproduced, hsize, hfar, rfl⟩
    · rintro ⟨before, length, distance, after, produced, hsplit, hproduced, hsize, hfar, rfl⟩
      rw [hsize] at hfar ⊢
      exact ⟨before, length, distance, after, hsplit, exists_replay_iff.1 ⟨produced, hproduced⟩, hfar, rfl⟩

/-- An empty copy that is refused, behind one that is not and before another that would be. -/
theorem replay_iff_reaches_empty_copy :
    let tokens : List Token := [.literal 97, .copy 0 1, .copy 3 1, .copy 0 5, .copy 2 9]
    Token.totalSize tokens.toArray < 2 ^ 64 ∧
      Machine.replay tokens.toArray = Machine.corrupt (.distanceTooFar 5 4) ∧
      ¬ ∀ before length distance after, tokens = before ++ .copy length distance :: after →
        1 ≤ distance ∧ distance ≤ Token.totalSize before.toArray := by
  intro tokens
  have small : Token.totalSize tokens.toArray < 2 ^ 64 := by decide
  have fits : Token.totalSize tokens.toArray < 2 ^ Machine.maxArrayLog := by decide
  have hrun : replay tokens.toArray = .error (.distanceTooFar 5 4) := rfl
  obtain ⟨hwords, haccepted, -⟩ := replay_iff_reaches small
  rw [if_pos fits, hrun] at hwords
  rw [hrun] at haccepted
  exact ⟨small, hwords, fun h => nomatch haccepted.2 h⟩

/-- The sum of these sizes fits into a word, and the first copy starts before the start. It is not what the run
stops at. -/
theorem replay_beyond_capacity :
    let tokens : List Token := .copy 4 1 :: List.replicate 2147483649 (.copy 4294967295 1)
    Token.totalSize tokens.toArray < 2 ^ 64 ∧
      ¬ (1 ≤ 1 ∧ 1 ≤ Token.totalSize #[]) ∧
      Machine.replay tokens.toArray = throw .capacity ∧
      Machine.replay tokens.toArray ≠ Machine.corrupt (.distanceTooFar 1 0) := by
  intro tokens
  have htotal : Token.totalSize tokens.toArray = 9223372039002259459 := by
    rw [Token.totalSize_cons, Token.totalSize_replicate]
    rfl
  have small : Token.totalSize tokens.toArray < 2 ^ 64 := by
    rw [htotal]
    decide
  have hlarge : ¬ Token.totalSize tokens.toArray < 2 ^ Machine.maxArrayLog := by
    rw [htotal]
    decide
  have hrun : Machine.replay tokens.toArray = throw .capacity :=
    (Machine.replay_eq small).trans (if_neg hlarge)
  refine ⟨small, by decide, hrun, ?_⟩
  rw [hrun]
  rintro ⟨⟩

end LzCodec
