import LzCodec.Replay

/-!
# What tokens stand for

`Token.extend` says what a token adds to the bytes before it, without an output that grows byte by
byte: a copy runs through the last `distance` bytes, over and over. Tokens that never reach before the
start are replayed to just that (`applyAll_of_grounded`), and nothing but the first one that does reach there
makes a replay fail (`replay_eq_error_iff`).
-/

namespace LzCodec

namespace Token

def extend (bytes : List UInt8) : Token → List UInt8
  | literal byte => bytes ++ [byte]
  | copy length distance =>
    bytes ++ (List.range length).map fun i =>
      bytes.getD (bytes.length - distance + i % distance) 0

/-- The token starts within the `size` bytes before it. -/
def Within (size : Nat) : Token → Prop
  | literal _ => True
  | copy _ distance => 1 ≤ distance ∧ distance ≤ size

/-- No token reaches before the start, where `size` bytes stand before the first one. -/
def Grounded (size : Nat) : List Token → Prop
  | [] => True
  | t :: rest => t.Within size ∧ Grounded (size + t.size) rest

instance (size : Nat) : (t : Token) → Decidable (t.Within size)
  | literal _ => inferInstanceAs (Decidable True)
  | copy _ _ => inferInstanceAs (Decidable (_ ∧ _))

instance decidableGrounded (size : Nat) : (tokens : List Token) → Decidable (Grounded size tokens)
  | [] => inferInstanceAs (Decidable True)
  | t :: rest =>
    have := decidableGrounded (size + t.size) rest
    inferInstanceAs (Decidable (_ ∧ _))

theorem length_extend (bytes : List UInt8) (t : Token) :
    (t.extend bytes).length = bytes.length + t.size := by
  cases t with
  | literal byte => simp [extend, size]
  | copy length distance => simp [extend, size]

theorem prefix_extend (bytes : List UInt8) (t : Token) : bytes <+: t.extend bytes := by
  cases t with
  | literal byte => exact List.prefix_append _ _
  | copy length distance => exact List.prefix_append _ _

theorem prefix_foldl_extend (tokens : List Token) (bytes : List UInt8) :
    bytes <+: tokens.foldl extend bytes := by
  induction tokens generalizing bytes with
  | nil => exact List.prefix_refl _
  | cons t rest ih => exact (prefix_extend bytes t).trans (ih _)

theorem foldl_size (tokens : List Token) (n : Nat) :
    tokens.foldl (fun n t => n + t.size) n = n + tokens.foldl (fun n t => n + t.size) 0 := by
  induction tokens generalizing n with
  | nil => rfl
  | cons t rest ih =>
    rw [List.foldl_cons, List.foldl_cons, ih, ih (0 + t.size)]
    omega

theorem totalSize_cons (t : Token) (rest : List Token) :
    totalSize (t :: rest).toArray = t.size + totalSize rest.toArray := by
  simp only [totalSize, List.foldl_toArray', List.foldl_cons]
  rw [foldl_size, Nat.zero_add]

theorem totalSize_replicate (n : Nat) (t : Token) :
    totalSize (List.replicate n t).toArray = n * t.size := by
  induction n with
  | zero => exact (Nat.zero_mul _).symm
  | succ n ih => rw [List.replicate_succ, totalSize_cons, ih, Nat.succ_mul, Nat.add_comm]

theorem totalSize_append (tokens rest : List Token) :
    totalSize (tokens ++ rest).toArray = totalSize tokens.toArray + totalSize rest.toArray := by
  induction tokens with
  | nil => exact (Nat.zero_add _).symm
  | cons t tokens ih => rw [List.cons_append, totalSize_cons, ih, totalSize_cons, Nat.add_assoc]

theorem length_foldl_extend (tokens : List Token) (bytes : List UInt8) :
    (tokens.foldl extend bytes).length = bytes.length + totalSize tokens.toArray := by
  induction tokens generalizing bytes with
  | nil => rfl
  | cons t rest ih => rw [List.foldl_cons, ih, length_extend, totalSize_cons, Nat.add_assoc]

theorem grounded_append {size : Nat} {tokens rest : List Token} :
    Grounded size (tokens ++ rest) ↔
      Grounded size tokens ∧ Grounded (size + totalSize tokens.toArray) rest := by
  induction tokens generalizing size with
  | nil => simp [Grounded, totalSize]
  | cons t tokens ih => simp [Grounded, ih, totalSize_cons, Nat.add_assoc, and_assoc]

/-- There is a first copy that starts before the start. -/
theorem exists_first_of_not_grounded {size : Nat} {tokens : List Token} (h : ¬ Grounded size tokens) :
    ∃ before length distance after, tokens = before ++ .copy length distance :: after ∧
      Grounded size before ∧ ¬ (1 ≤ distance ∧ distance ≤ size + totalSize before.toArray) := by
  induction tokens generalizing size with
  | nil => exact absurd trivial h
  | cons t rest ih =>
    by_cases hfirst : t.Within size
    · obtain ⟨before, length, distance, after, rfl, hbefore, hfar⟩ := ih fun hrest => h ⟨hfirst, hrest⟩
      refine ⟨t :: before, length, distance, after, rfl, ⟨hfirst, hbefore⟩, ?_⟩
      rwa [totalSize_cons, ← Nat.add_assoc]
    · cases t with
      | literal byte => exact absurd trivial hfirst
      | copy length distance => exact ⟨[], length, distance, rest, rfl, trivial, hfirst⟩

theorem grounded_iff {size : Nat} {tokens : List Token} :
    Grounded size tokens ↔ ∀ before length distance after,
      tokens = before ++ .copy length distance :: after →
        1 ≤ distance ∧ distance ≤ size + totalSize before.toArray := by
  constructor
  · rintro h before length distance after rfl
    exact (grounded_append.1 h).2.1
  · intro h
    refine Decidable.byContradiction fun hnot => ?_
    obtain ⟨before, length, distance, after, hsplit, -, hfar⟩ := exists_first_of_not_grounded hnot
    exact hfar (h before length distance after hsplit)

end Token

/-- One byte further back, one byte further on: the byte after `i` more, and then around again. -/
theorem getD_rotate {bytes : List UInt8} {distance : Nat} (h : 0 < distance)
    (hle : distance ≤ bytes.length) (i : Nat) :
    (bytes ++ [bytes.getD (bytes.length - distance) 0]).getD
        (bytes.length + 1 - distance + i % distance) 0 =
      bytes.getD (bytes.length - distance + (i + 1) % distance) 0 := by
  have hi := Nat.mod_lt i h
  by_cases hlast : i % distance + 1 = distance
  · have hnext : (i + 1) % distance = 0 := by rw [← Nat.mod_add_mod, hlast, Nat.mod_self]
    rw [hnext, show bytes.length + 1 - distance + i % distance = bytes.length by omega]
    simp
  · have hnext : (i + 1) % distance = i % distance + 1 := by
      rw [← Nat.mod_add_mod, Nat.mod_eq_of_lt (by omega)]
    rw [hnext, show bytes.length + 1 - distance + i % distance =
      bytes.length - distance + (i % distance + 1) by omega]
    rw [List.getD_eq_getElem?_getD, List.getElem?_append_left (by omega),
      List.getD_eq_getElem?_getD]

theorem Bytes.toList_repeatBack (bytes : Bytes) (distance : Nat)
    (h : 0 < distance ∧ distance ≤ bytes.size) (count : Nat) :
    (bytes.repeatBack distance h count).toList = Token.extend bytes.toList (.copy count distance) := by
  induction count generalizing bytes with
  | zero => simp [Bytes.repeatBack, Token.extend]
  | succ count ih =>
    have hlt := Bytes.sub_lt_of_reach h
    have hfirst : bytes[bytes.size - distance] =
        bytes.toList.getD (bytes.toList.length - distance) 0 := by
      simp [List.getD_eq_getElem?_getD, hlt]
    rw [Bytes.repeatBack, ih, Token.extend, Token.extend, Array.toList_push, List.append_assoc,
      List.range_succ_eq_map, List.map_cons, List.map_map, hfirst, Nat.zero_mod, Nat.add_zero,
      List.singleton_append]
    congr 2
    apply List.map_congr_left
    intro i _
    rw [List.length_append, List.length_singleton]
    exact getD_rotate h.1 (by simpa using h.2) i

namespace Output

/-- Bytes and end of the output after a token that fits. -/
theorem apply_of_within {t : Token} {out : Output} (h : t.Within out.bytes.size)
    (fits : out.bytes.size + t.size ≤ out.blockEnd) :
    ∃ out', apply t out = .ok () out' ∧ out'.bytes.toList = t.extend out.bytes.toList ∧
      out'.blockEnd = out.blockEnd := by
  cases out with | mk bytes blockEnd size_le =>
  cases t with
  | literal byte =>
    have hlt : bytes.size < blockEnd := fits
    exact ⟨⟨bytes.push byte, blockEnd, by rw [Array.size_push]; exact hlt⟩,
      by simp only [apply, literal, dif_pos hlt], Array.toList_push, rfl⟩
  | copy length distance =>
    have hlen : length ≤ blockEnd - bytes.size := by
      have : bytes.size + length ≤ blockEnd := fits
      omega
    have hd : 0 < distance ∧ distance ≤ bytes.size := h
    exact ⟨⟨bytes.repeatBack distance hd length, blockEnd, by rw [Bytes.size_repeatBack]; omega⟩,
      by simp only [apply, copy, dif_pos hd, dif_pos hlen], Bytes.toList_repeatBack _ _ _ _, rfl⟩

/-- What becomes of a token: it is added, or it starts too far back, or there is no room for it. How far back
it starts is looked at first. -/
theorem apply_cases (t : Token) (out : Output) :
    (t.Within out.bytes.size ∧ out.bytes.size + t.size ≤ out.blockEnd ∧
      ∃ out', apply t out = .ok () out' ∧ out'.bytes.toList = t.extend out.bytes.toList ∧
        out'.blockEnd = out.blockEnd) ∨
    (¬ t.Within out.bytes.size ∧ ∃ length distance, t = .copy length distance ∧
      apply t out = .error (.distanceTooFar distance out.bytes.size) out) ∨
    (t.Within out.bytes.size ∧ out.blockEnd < out.bytes.size + t.size ∧
      apply t out = .error .lengthOverrun out) := by
  by_cases hwithin : t.Within out.bytes.size
  · by_cases fits : out.bytes.size + t.size ≤ out.blockEnd
    · exact .inl ⟨hwithin, fits, apply_of_within hwithin fits⟩
    · refine .inr (.inr ⟨hwithin, Nat.lt_of_not_le fits, ?_⟩)
      cases t with
      | literal byte => exact dif_neg fits
      | copy length distance =>
        have hroom : ¬ length ≤ out.blockEnd - out.bytes.size := fun h =>
          fits (Nat.add_le_of_le_sub' out.size_le h)
        exact (dif_pos hwithin).trans (dif_neg hroom)
  · cases t with
    | literal byte => exact absurd trivial hwithin
    | copy length distance => exact .inr (.inl ⟨hwithin, length, distance, rfl, dif_neg hwithin⟩)

/-- A token is applied only where it fits. -/
theorem within_of_apply {t : Token} {out out' : Output} (h : apply t out = .ok () out') :
    t.Within out.bytes.size ∧ out.bytes.size + t.size ≤ out.blockEnd := by
  obtain ⟨hwithin, hfits, -⟩ | ⟨-, _, _, -, hrun⟩ | ⟨-, -, hrun⟩ := apply_cases t out
  · exact ⟨hwithin, hfits⟩
  · cases hrun.symm.trans h
  · cases hrun.symm.trans h

/-- A token that was applied has added the bytes that it stands for. -/
theorem extend_of_apply {t : Token} {out out' : Output} (h : apply t out = .ok () out') :
    out'.bytes.toList = t.extend out.bytes.toList ∧ out'.blockEnd = out.blockEnd := by
  obtain ⟨hwithin, hfits⟩ := within_of_apply h
  obtain ⟨out₁, hrun, hbytes, hend⟩ := apply_of_within hwithin hfits
  cases h.symm.trans hrun
  exact ⟨hbytes, hend⟩

theorem size_of_apply {t : Token} {out out' : Output} (h : apply t out = .ok () out') :
    out'.bytes.size = out.bytes.size + t.size := by
  rw [← Array.length_toList, (extend_of_apply h).1, Token.length_extend, Array.length_toList]

theorem applyAll_cons (t : Token) (rest : List Token) (out : Output) :
    applyAll (t :: rest) out = match apply t out with
      | .ok _ out => applyAll rest out
      | .error e out => .error e out := by
  simp only [applyAll, Bind.bind, EStateM.bind]
  cases apply t out <;> rfl

/-- Tokens that reach no further than the start and fit into the block are all applied. -/
theorem applyAll_of_grounded {tokens : List Token} {out : Output}
    (h : Token.Grounded out.bytes.size tokens)
    (fits : out.bytes.size + Token.totalSize tokens.toArray ≤ out.blockEnd) :
    ∃ out', applyAll tokens out = .ok () out' ∧
      out'.bytes.toList = tokens.foldl Token.extend out.bytes.toList ∧
      out'.blockEnd = out.blockEnd := by
  induction tokens generalizing out with
  | nil => exact ⟨out, rfl, rfl, rfl⟩
  | cons t rest ih =>
    rw [Token.totalSize_cons] at fits
    obtain ⟨out₁, run₁, bytes₁, end₁⟩ := apply_of_within h.1 (by omega)
    have size₁ : out₁.bytes.size = out.bytes.size + t.size := by
      rw [← Array.length_toList, bytes₁, Token.length_extend, Array.length_toList]
    have grounded₁ : Token.Grounded out₁.bytes.size rest := size₁ ▸ h.2
    obtain ⟨out₂, run₂, bytes₂, end₂⟩ := ih grounded₁ (by rw [size₁, end₁]; omega)
    refine ⟨out₂, ?_, ?_, end₂.trans end₁⟩
    · rw [applyAll_cons, run₁]
      exact run₂
    · rw [bytes₂, bytes₁, List.foldl_cons]

theorem applyAll_append (tokens rest : List Token) (out : Output) :
    applyAll (tokens ++ rest) out = match applyAll tokens out with
      | .ok _ out => applyAll rest out
      | .error e out => .error e out := by
  induction tokens generalizing out with
  | nil => rfl
  | cons t tokens ih =>
    rw [List.cons_append, applyAll_cons, applyAll_cons]
    cases apply t out with
    | ok _ out' => exact ih out'
    | error e out' => rfl

/-- Where there is room for the tokens before it, a copy that starts before the start is refused. -/
theorem applyAll_of_far {before after : List Token} {length distance : Nat} {out : Output}
    (hbefore : Token.Grounded out.bytes.size before)
    (fits : out.bytes.size + Token.totalSize before.toArray ≤ out.blockEnd)
    (hfar : ¬ (1 ≤ distance ∧ distance ≤ out.bytes.size + Token.totalSize before.toArray)) :
    ∃ out', applyAll (before ++ .copy length distance :: after) out =
      .error (.distanceTooFar distance (out.bytes.size + Token.totalSize before.toArray)) out' := by
  obtain ⟨out', hrun, hbytes, -⟩ := applyAll_of_grounded hbefore fits
  have hsize : out'.bytes.size = out.bytes.size + Token.totalSize before.toArray := by
    rw [← Array.length_toList, hbytes, Token.length_foldl_extend, Array.length_toList]
  rw [← hsize] at hfar ⊢
  have hstop : apply (.copy length distance) out' =
      .error (.distanceTooFar distance out'.bytes.size) out' := dif_neg hfar
  refine ⟨out', ?_⟩
  rw [applyAll_append, hrun]
  dsimp only
  rw [applyAll_cons, hstop]

end Output

/-- Grounded tokens are replayed to what they stand for. -/
theorem replay_of_grounded {tokens : List Token} {content : Bytes} (h : Token.Grounded 0 tokens)
    (hcontent : content.toList = tokens.foldl Token.extend []) :
    replay tokens.toArray = .ok content := by
  have hfits : (Output.empty.beginBlock (Token.totalSize tokens.toArray)).blockEnd =
      Token.totalSize tokens.toArray := Nat.zero_add _
  obtain ⟨out, hrun, hbytes, hblockEnd⟩ := @Output.applyAll_of_grounded tokens
    (Output.empty.beginBlock (Token.totalSize tokens.toArray)) h
    (by rw [hfits]; exact Nat.le_of_eq (Nat.zero_add _))
  have hout : out.bytes = content := Array.toList_inj.1 (hbytes.trans hcontent.symm)
  have hfull : out.bytes.size = out.blockEnd := by
    rw [hblockEnd, hfits, ← Array.length_toList, hbytes, Token.length_foldl_extend]
    exact Nat.zero_add _
  rw [replay, Output.withCapacity_eq, hrun]
  dsimp only
  rw [Output.endBlock, if_pos hfull, hout]

theorem exists_replay_of_grounded {tokens : List Token} (h : Token.Grounded 0 tokens) :
    ∃ content, replay tokens.toArray = .ok content ∧ content.size = Token.totalSize tokens.toArray ∧
      content.toList = tokens.foldl Token.extend [] := by
  have hcontent : (tokens.foldl Token.extend []).toArray.toList = tokens.foldl Token.extend [] := rfl
  refine ⟨_, replay_of_grounded h hcontent, ?_, hcontent⟩
  rw [List.size_toArray, Token.length_foldl_extend, List.length_nil, Nat.zero_add]

theorem replay_of_far {before after : List Token} {length distance : Nat}
    (hbefore : Token.Grounded 0 before)
    (hfar : ¬ (1 ≤ distance ∧ distance ≤ Token.totalSize before.toArray)) :
    replay (before ++ .copy length distance :: after).toArray =
      .error (.distanceTooFar distance (Token.totalSize before.toArray)) := by
  generalize htotal : Token.totalSize (before ++ .copy length distance :: after).toArray = total
  have hle : Token.totalSize before.toArray ≤ total := by
    rw [← htotal, Token.totalSize_append]
    exact Nat.le_add_right _ _
  have hstart : (Output.empty.beginBlock total).bytes.size = 0 := rfl
  have hend : (Output.empty.beginBlock total).blockEnd = total := Nat.zero_add total
  obtain ⟨out, hrun⟩ := @Output.applyAll_of_far before after length distance
    (Output.empty.beginBlock total) hbefore (by omega) (by omega)
  rw [hstart, Nat.zero_add] at hrun
  rw [replay, Output.withCapacity_eq, htotal, hrun]

theorem exists_replay_iff {tokens : List Token} :
    (∃ content, replay tokens.toArray = .ok content) ↔ Token.Grounded 0 tokens := by
  constructor
  · rintro ⟨content, hcontent⟩
    refine Decidable.byContradiction fun hnot => ?_
    obtain ⟨before, length, distance, after, rfl, hbefore, hfar⟩ :=
      Token.exists_first_of_not_grounded hnot
    rw [Nat.zero_add] at hfar
    cases hcontent.symm.trans (replay_of_far hbefore hfar)
  · intro h
    obtain ⟨content, hrun, -⟩ := exists_replay_of_grounded h
    exact ⟨content, hrun⟩

/-- A replay fails at the first copy that starts before the start, and at nothing else. -/
theorem replay_eq_error_iff {tokens : List Token} {cause : Corruption} :
    replay tokens.toArray = .error cause ↔
      ∃ before length distance after, tokens = before ++ .copy length distance :: after ∧
        Token.Grounded 0 before ∧ ¬ (1 ≤ distance ∧ distance ≤ Token.totalSize before.toArray) ∧
        cause = .distanceTooFar distance (Token.totalSize before.toArray) := by
  constructor
  · intro hcause
    have hnot : ¬ Token.Grounded 0 tokens := by
      intro h
      obtain ⟨content, hrun, -⟩ := exists_replay_of_grounded h
      cases hcause.symm.trans hrun
    obtain ⟨before, length, distance, after, rfl, hbefore, hfar⟩ :=
      Token.exists_first_of_not_grounded hnot
    rw [Nat.zero_add] at hfar
    cases hcause.symm.trans (replay_of_far hbefore hfar)
    exact ⟨before, length, distance, after, rfl, hbefore, hfar, rfl⟩
  · rintro ⟨before, length, distance, after, rfl, hbefore, hfar, rfl⟩
    exact replay_of_far hbefore hfar

end LzCodec
