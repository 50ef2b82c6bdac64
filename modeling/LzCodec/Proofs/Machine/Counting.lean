import LzCodec.Proofs.Machine.Pack
import LzCodec.Proofs.PayloadSizes

/-!
# Counting one block after the other

One block serves for all blocks of a frame: it is cleared and filled again. After any run of pushes and
clears it holds the tokens since the last clear and their counts, nothing is left of the ones before,
and it is packed as a new block of these tokens is (`calls_consistent`).
-/

namespace LzCodec

/-! ## Calls -/

/-- What a block of coded tokens is told. -/
inductive BlockCall where
  | push (token : Token)
  | clear
  deriving DecidableEq, Repr

namespace BlockCall

def token? : BlockCall → Option Token
  | push token => some token
  | clear => none

def Encodable : BlockCall → Prop
  | push token => token.Encodable
  | clear => True

instance : (c : BlockCall) → Decidable c.Encodable
  | .push token => inferInstanceAs (Decidable token.Encodable)
  | .clear => inferInstanceAs (Decidable True)

/-- The tokens that are pushed after the last clear. -/
def recent (calls : List BlockCall) : List Token :=
  (calls.rtakeWhile fun c => c ≠ clear).filterMap token?

theorem recent_push (calls : List BlockCall) (token : Token) :
    recent (calls ++ [push token]) = recent calls ++ [token] := by
  simp [recent, token?]

theorem recent_clear (calls : List BlockCall) : recent (calls ++ [clear]) = [] := by
  simp [recent]

theorem length_recent_le (calls : List BlockCall) : (recent calls).length ≤ calls.length :=
  Nat.le_trans (List.length_filterMap_le _ _) (List.rtakeWhile_suffix _ _).length_le

theorem push_mem_of_mem_recent {calls : List BlockCall} {token : Token} (h : token ∈ recent calls) :
    push token ∈ calls := by
  obtain ⟨c, hc, htoken⟩ := List.mem_filterMap.1 h
  cases c with
  | clear => cases htoken
  | push t =>
    cases htoken
    exact (List.rtakeWhile_suffix _ _).subset hc

theorem encodable_recent {calls : List BlockCall} (h : ∀ c ∈ calls, c.Encodable) :
    ∀ t ∈ (recent calls).toArray.toList, t.Encodable :=
  fun _ ht => h _ (push_mem_of_mem_recent ht)

end BlockCall

open BlockCall

namespace CodedBlock

def call (block : CodedBlock) : BlockCall → CodedBlock
  | .push token => block.push token
  | .clear => block.clear

/-- What a new block becomes. -/
def ofCalls (calls : List BlockCall) : CodedBlock := calls.foldl call {}

theorem ofCalls_concat (calls : List BlockCall) (c : BlockCall) :
    ofCalls (calls ++ [c]) = (ofCalls calls).call c := by
  simp [ofCalls]

theorem ofTokens_concat (tokens : List Token) (token : Token) :
    ofTokens (tokens ++ [token]).toArray = (ofTokens tokens.toArray).push token := by
  simp [ofTokens]

/-- By induction on the calls, from the last one: what stands before a clear does not matter. -/
theorem ofCalls_eq (calls : List BlockCall) :
    ofCalls calls = ofTokens (recent calls).toArray := by
  induction calls using List.reverseRecOn with
  | nil => rfl
  | append_singleton calls c ih =>
    cases c with
    | push token => rw [ofCalls_concat, ih, call, recent_push, ofTokens_concat]
    | clear =>
      rw [ofCalls_concat, recent_clear]
      rfl

/-- The block holds the codes of `tokens`, and counts the symbols of what it holds. -/
structure Holds (block : CodedBlock) (tokens : List Token) : Prop where
  coded : block.tokens.toList = tokens.map Token.code
  litLenSize : block.litLenCounts.size = litLenSymbols
  distSize : block.distCounts.size = distSymbols
  litLen : Huffman.Counted block.litLenCounts (block.tokens.toList.map CodedToken.litLenSymbol)
  dist : Huffman.Counted block.distCounts (block.tokens.toList.filterMap CodedToken.distSymbol?)

theorem holds_ofTokens {tokens : Array Token} (ht : ∀ t ∈ tokens.toList, t.Encodable) :
    (ofTokens tokens).Holds tokens.toList where
  coded := toList_ofTokens tokens
  litLenSize := size_litLenCounts tokens
  distSize := size_distCounts tokens
  litLen := by
    rw [toList_ofTokens, List.map_map]
    exact counted_litLenCounts ht
  dist := by
    rw [toList_ofTokens, List.filterMap_map]
    exact counted_distCounts ht

/-- Whatever symbol a token of the block is written with, it has a codeword. -/
def Covered (block : CodedBlock) : Prop :=
  ∀ c ∈ block.tokens,
    0 < (Huffman.Encoder.ofCounts block.litLenCounts).lengths.getD c.litLenSymbol 0 ∧
    ∀ s, c.distSymbol? = some s → 0 < (Huffman.Encoder.ofCounts block.distCounts).lengths.getD s 0

end CodedBlock

theorem Huffman.getD_pos_of_leaf {lengths : Array Nat} {symbol : Nat}
    (h : ∃ leaf ∈ leaves lengths, leaf.symbol = symbol) : 0 < lengths.getD symbol 0 := by
  obtain ⟨leaf, hleaf, rfl⟩ := h
  obtain ⟨hlength, hpos⟩ := mem_leaves.1 hleaf
  rwa [Array.getD_eq_getD_getElem?, hlength, Option.getD_some]

theorem CodedBlock.covered_ofTokens {tokens : Array Token} (ht : ∀ t ∈ tokens.toList, t.Encodable) :
    (ofTokens tokens).Covered := by
  intro c hc
  rw [← Array.mem_toList_iff, toList_ofTokens] at hc
  obtain ⟨t, htmem, rfl⟩ := List.mem_map.1 hc
  have hcodes := Block.codes_ofTokens ht htmem
  exact ⟨Huffman.getD_pos_of_leaf hcodes.litLen,
    fun s hs => Huffman.getD_pos_of_leaf (hcodes.dist s hs)⟩

namespace Machine

/-! ## Runs -/

def call (block : CodedBlock) : BlockCall → Machine CodedBlock
  | .push token => pushToken block token
  | .clear => pure block.clear

def callAll (block : CodedBlock) (calls : List BlockCall) : Machine CodedBlock :=
  calls.foldlM call block

/-- A block that is cleared and filled is one that is made anew, whatever it was. -/
theorem callAll_clear_push (block : CodedBlock) (tokens : List Token) :
    callAll block (.clear :: tokens.map .push) = pushAll {} tokens := by
  have hpushes (start : CodedBlock) : callAll start (tokens.map .push) = pushAll start tokens := by
    induction tokens generalizing start with
    | nil => rfl
    | cons token rest ih => exact bind_congr fun next => ih next
  exact hpushes {}

/-- One call keeps to the block of the recent tokens. -/
theorem call_ofCalls {calls : List BlockCall} {c : BlockCall} (hcalls : ∀ c ∈ calls, c.Encodable)
    (hc : c.Encodable) (few : (recent (calls ++ [c])).length < 2 ^ 32) :
    call (.ofCalls calls) c = pure (.ofCalls (calls ++ [c])) := by
  rw [CodedBlock.ofCalls_concat]
  cases c with
  | clear => rfl
  | push token =>
    rw [recent_push, List.length_append, List.length_singleton] at few
    have hfits := (pushAll_eq (encodable_recent hcalls) (Nat.lt_of_succ_lt few)).2
    rw [← CodedBlock.ofCalls_eq] at hfits
    exact (hfits.push hc few).1

theorem callAll_eq {calls : List BlockCall} (encodable : ∀ c ∈ calls, c.Encodable)
    (few : ∀ front, front <+: calls → (recent front).length < 2 ^ 32) :
    callAll {} calls = pure (.ofCalls calls) := by
  induction calls using List.reverseRecOn with
  | nil => rfl
  | append_singleton calls c ih =>
    obtain ⟨hcalls, hc⟩ := List.forall_mem_append.1 encodable
    have hrun : calls.foldlM call {} = pure (.ofCalls calls) :=
      ih hcalls fun front h => few front (h.trans (List.prefix_append calls [c]))
    have hlast := call_ofCalls hcalls (hc c (List.mem_singleton_self c)) (few _ List.prefix_rfl)
    simp [callAll, hrun, hlast]

/-- **A block that is used again is like a new one.** Any run of pushes and clears, with fewer than
`2 ^ 32` tokens from one clear to the next, stays in range of both histograms. It leaves the tokens
since the last clear, in their order, and exactly their counts. The block is packed as a new block of
these tokens is, and no symbol is written that has no codeword. -/
theorem calls_consistent (calls : List BlockCall) (encodable : ∀ c ∈ calls, c.Encodable)
    (few : ∀ front, front <+: calls → (recent front).length < UInt32.size) :
    callAll {} calls = pure (.ofCalls calls) ∧
      (CodedBlock.ofCalls calls).Holds (recent calls) ∧
      (CodedBlock.ofCalls calls).Covered ∧
      pack (.ofCalls calls) = pure (Block.pack (.ofCalls calls)) ∧
      Block.pack (.ofCalls calls) = Block.pack (.ofTokens (recent calls).toArray) ∧
      (do pack (← pushAll {} (recent calls))) = pure (Block.pack (.ofCalls calls)) := by
  have ht := encodable_recent encodable
  have hlast := few calls List.prefix_rfl
  have hnew := (pushAll_eq ht hlast).1
  have hrun := callAll_eq encodable few
  rw [CodedBlock.ofCalls_eq] at hrun ⊢
  refine ⟨hrun, CodedBlock.holds_ofTokens ht, CodedBlock.covered_ofTokens ht, pack_eq ht hlast, rfl, ?_⟩
  rw [hnew, pure_bind, pack_eq ht hlast]

/-- Nothing is left of the tokens before a clear. -/
theorem calls_consistent_cleared :
    ∃ block, callAll {} [.push (.literal 122), .push (.copy 9 300), .clear, .push (.literal 113)] =
        pure block ∧
      block.tokens.toList = [.literal 113] ∧ block.litLenCounts.getD 122 0 = 0 ∧
      block.litLenCounts.getD 113 0 = 1 ∧ ∀ s, block.distCounts.getD s 0 = 0 := by
  obtain ⟨hrun, holds, -⟩ := calls_consistent
    [.push (.literal 122), .push (.copy 9 300), .clear, .push (.literal 113)] (by decide)
    fun front h => Nat.lt_of_le_of_lt (Nat.le_trans (length_recent_le front) h.length_le) (by decide)
  have hcoded := holds.coded
  have hlit := holds.litLen
  have hdist := holds.dist
  rw [hcoded] at hlit hdist
  exact ⟨_, hrun, hcoded, hlit 122, hlit 113, hdist⟩

end Machine

end LzCodec
