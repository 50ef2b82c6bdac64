import LzCodec.Parse
import LzCodec.Proofs.Payloads
import LzCodec.Proofs.Search.Matches

/-!
# Parsing loses nothing

A parser takes its matches from a source of answers, which it asks in any order. Whatever all matches
have that are found, the matches of a block have (`path_parseBlock`). An index finds only repeats, so
the tokens of a block spell the source from its cursor on, whatever the effort and the state of the index
(`Index.spells_of_parseBlock`).
-/

namespace LzCodec

/-- The source at `pos` repeats what stands `distance` back, within the bounds of a token. -/
structure Match.Repeats (src : Bytes) (pos : Nat) (m : Match) : Prop where
  distance_pos : 1 ≤ m.distance
  distance_le : m.distance ≤ pos
  distance_lt : m.distance < 2 ^ maxWindowLog
  minMatch_le : minMatch ≤ m.length
  length_le : m.length ≤ maxMatch
  end_le : pos + m.length ≤ src.size
  same : ∀ i < m.length, src[pos - m.distance + i]? = src[pos + i]?

theorem Match.Repeats.genuine {src : Bytes} {pos : Nat} {m : Match} (h : m.Repeats src pos) :
    m.Genuine src pos :=
  ⟨h.distance_pos, h.distance_le, h.minMatch_le, h.end_le, h.same⟩

theorem Geometry.window_le (size : Nat) : (ofSize size).window ≤ 2 ^ maxWindowLog :=
  Nat.pow_le_pow_right (Nat.succ_pos 1) (Nat.min_le_left _ _)

/-! ## Answers -/

section

variable {σ : Type} [MatchSource σ]

/-- The states that questions lead to from `s`. -/
inductive Asked (s : σ) : σ → Prop
  | nothing : Asked s s
  | find {t : σ} (pos depth : Nat) (h : Asked s t) : Asked s (MatchSource.find pos depth t).2
  | reaches {t : σ} (pos length depth : Nat) (h : Asked s t) :
      Asked s (MatchSource.reaches pos length depth t).2

/-- Every match that is found from `s` on has the property, whatever was asked before. -/
def Finds (P : Nat → Match → Prop) (s : σ) : Prop :=
  ∀ t, Asked s t → ∀ pos depth m, (MatchSource.find pos depth t).1 = some m → P pos m

theorem Asked.trans {s t u : σ} (hst : Asked s t) (htu : Asked t u) : Asked s u := by
  induction htu with
  | nothing => exact hst
  | find pos depth _ ih => exact ih.find pos depth
  | reaches pos length depth _ ih => exact ih.reaches pos length depth

theorem Finds.later {P : Nat → Match → Prop} {s t : σ} (h : Finds P s) (ht : Asked s t) :
    Finds P t :=
  fun u hu => h u (ht.trans hu)

theorem finds_true (s : σ) : Finds (fun _ _ => True) s :=
  fun _ _ _ _ _ _ => trivial

end

/-- An index finds only repeats, whatever state it is in. -/
theorem Index.finds_repeats {src : Bytes} (index : Index src (Geometry.ofSize src.size)) :
    Finds (fun pos m => m.Repeats src pos) index := by
  intro t _ pos depth m hm
  have h := maximal_of_find hm
  have hwindow := Geometry.window_le src.size
  have hpositive := (Geometry.ofSize src.size).window_pos
  have hreach := h.distance_le_reach
  refine ⟨h.distance_pos, h.distance_le, ?_, h.minMatch_le, ?_, h.end_le, h.same⟩
  · unfold Geometry.maxDistance at hreach
    omega
  · exact Nat.le_trans h.length_le (Nat.min_le_left _ _)

theorem Index.repeats_of_find {src : Bytes} {pos depth : Nat}
    {index : Index src (Geometry.ofSize src.size)} {m : Match}
    (h : (find pos depth index).1 = some m) : m.Repeats src pos :=
  index.finds_repeats index .nothing pos depth m h

theorem Index.finds_genuine {src : Bytes} (index : Index src (Geometry.ofSize src.size)) :
    Finds (fun pos m => m.Genuine src pos) index := by
  intro t ht pos depth m hm
  exact (index.finds_repeats t ht pos depth m hm).genuine

/-! ## Decisions -/

namespace ParseState

variable {σ : Type} [MatchSource σ]

/-- Any match at hand has the property. -/
def Holds (P : Match → Prop) : ParseState → Prop
  | atPosition => True
  | weighNext m => P m
  | weighSecond m => P m
  | emit .literal => True
  | emit (.take m) => P m

theorem Holds.step {P : Match → Prop} {effort : Effort} {pos : Nat} {state : ParseState} {s : σ}
    (found : ∀ m, (MatchSource.find pos effort.here s).1 = some m → P m)
    (h : state.Holds P) : (step effort pos state s).1.Holds P := by
  cases state with
  | atPosition =>
    simp only [ParseState.step]
    split
    · trivial
    · rename_i m _ hm
      have hP := found m (by rw [hm])
      dsimp only
      split <;> exact hP
  | weighNext m =>
    simp only [ParseState.step]
    split
    · trivial
    · exact h
  | weighSecond m =>
    simp only [ParseState.step]
    split
    · trivial
    · exact h
  | emit d => exact h

/-- A step asks one question at most. -/
theorem asked_step (effort : Effort) (pos : Nat) (state : ParseState) (s : σ) :
    Asked s (step effort pos state s).2 := by
  have find := Asked.find pos effort.here (Asked.nothing (s := s))
  have reaches (ahead depth : Nat) (m : Match) :=
    Asked.reaches (pos + ahead) m.threshold depth (Asked.nothing (s := s))
  cases state with
  | atPosition =>
    simp only [step]
    split
    · rename_i hanswer
      rwa [hanswer] at find
    · rename_i hanswer
      rwa [hanswer] at find
  | weighNext m =>
    have hnext := reaches 1 effort.oneAhead m
    simp only [step]
    split
    · rename_i hanswer
      rwa [hanswer] at hnext
    · rename_i hanswer
      rwa [hanswer] at hnext
  | weighSecond m =>
    have hnext := reaches 2 effort.twoAhead m
    simp only [step]
    split
    · rename_i hanswer
      rwa [hanswer] at hnext
    · rename_i hanswer
      rwa [hanswer] at hnext
  | emit d => exact .nothing

/-- A match that is taken was found, and the next one is found as well. -/
theorem Holds.settle {P : Nat → Match → Prop} {effort : Effort} {pos : Nat} {state : ParseState}
    {s : σ} (found : Finds P s) (h : state.Holds (P pos)) :
    (∀ m, (settle effort pos state s).1 = .take m → P pos m) ∧
      Finds P (settle effort pos state s).2 := by
  induction hr : state.rank using Nat.strongRecOn generalizing state s with
  | ind rank ih =>
    rw [ParseState.settle]
    split
    · rename_i d hd
      cases state with
      | emit e =>
        obtain rfl := Option.some.inj hd
        refine ⟨?_, found⟩
        rintro m rfl
        exact h
      | _ => cases hd
    · rename_i hd
      have less : (ParseState.step effort pos state s).1.rank < rank := by
        have := rank_step effort pos state s
        have := rank_pos hd
        omega
      exact ih _ less (found.later (asked_step effort pos state s))
        (h.step fun m hm => found s .nothing pos effort.here m hm) rfl

end ParseState

/-! ## Paths -/

/-- A repeat is what its copy adds. -/
theorem Match.Genuine.extend {src : Bytes} {pos : Nat} {m : Match} (h : m.Genuine src pos) :
    m.token.extend (src.toList.take pos) = src.toList.take (pos + m.length) := by
  have hend := h.end_le
  have hlen : (src.toList.take pos).length = pos := by
    rw [List.length_take, Array.length_toList]
    omega
  -- going round within the last `distance` bytes ends up where going straight on does
  have round (i : Nat) (hi : i < m.length) :
      src[pos - m.distance + i % m.distance]? = src[pos + i]? := by
    induction i using Nat.strongRecOn with
    | ind i ih =>
      have hpos := h.distance_pos
      have hle := h.distance_le
      by_cases hlt : i < m.distance
      · rw [Nat.mod_eq_of_lt hlt]
        exact h.same i hi
      · have hback := ih (i - m.distance) (by omega) (by omega)
        rw [Nat.mod_eq_sub_mod (Nat.le_of_not_lt hlt), hback, ← h.same i hi]
        congr 1
        omega
  apply List.ext_getElem?
  intro i
  unfold token Token.extend
  dsimp only
  rw [hlen]
  by_cases hi : i < pos
  · rw [List.getElem?_append_left (by omega), List.getElem?_take_of_lt hi,
      List.getElem?_take_of_lt (by omega)]
  · by_cases hnew : i < pos + m.length
    · have hpos := h.distance_pos
      have hle := h.distance_le
      have hmod := Nat.mod_lt (i - pos) hpos
      have hin : pos - m.distance + (i - pos) % m.distance < pos := by omega
      have hsame := round (i - pos) (by omega)
      rw [Nat.add_sub_cancel' (Nat.le_of_not_lt hi)] at hsame
      rw [List.getElem?_append_right (by omega), hlen, List.getElem?_map,
        List.getElem?_range (by omega), Option.map_some, List.getD_eq_getElem?_getD,
        List.getElem?_take_of_lt hin, List.getElem?_take_of_lt hnew, Array.getElem?_toList,
        Array.getElem?_toList, hsame, Array.getElem?_eq_getElem (by omega), Option.getD_some]
    · rw [List.getElem?_eq_none (by simp; omega), List.getElem?_eq_none (by simp; omega)]

/-- The tokens lead through the source from `pos` to `next`: each is the byte at its place, or a match
that has the property there. -/
inductive Path (src : Bytes) (P : Nat → Match → Prop) : Nat → List Token → Nat → Prop
  | stop (pos : Nat) : Path src P pos [] pos
  | literal {pos next : Nat} {rest : List Token} (hpos : pos < src.size)
      (h : Path src P (pos + 1) rest next) : Path src P pos (.literal src[pos] :: rest) next
  | take {pos next : Nat} {m : Match} {rest : List Token} (hm : P pos m)
      (h : Path src P (pos + m.length) rest next) : Path src P pos (m.token :: rest) next

namespace Path

variable {src : Bytes} {P Q : Nat → Match → Prop} {pos next : Nat} {tokens : List Token}

theorem mono (h : Path src P pos tokens next) (hPQ : ∀ pos m, P pos m → Q pos m) :
    Path src Q pos tokens next := by
  induction h with
  | stop pos => exact .stop pos
  | literal hpos _ ih => exact .literal hpos ih
  | take hm _ ih => exact .take (hPQ _ _ hm) ih

/-- A path of repeats stays within the source. -/
theorem le_size (h : Path src (fun pos m => m.Genuine src pos) pos tokens next)
    (hpos : pos ≤ src.size) : next ≤ src.size := by
  induction h with
  | stop pos => exact hpos
  | literal hlt _ ih => exact ih hlt
  | take hm _ ih => exact ih hm.end_le

/-- A path is as long as what its tokens stand for. -/
theorem size_eq (h : Path src P pos tokens next) :
    pos + Token.totalSize tokens.toArray = next := by
  induction h with
  | stop pos => rfl
  | literal _ _ ih =>
    rw [Token.totalSize_cons, ← ih, Token.size, Nat.add_assoc]
  | @take _ _ m _ _ _ ih =>
    have hsize : m.token.size = m.length := rfl
    rw [Token.totalSize_cons, ← ih, hsize, Nat.add_assoc]

/-- Each token leads on. -/
theorem length_le (h : Path src (fun pos m => m.Genuine src pos) pos tokens next) :
    pos + tokens.length ≤ next := by
  induction h with
  | stop pos => exact Nat.le_refl _
  | literal _ _ ih =>
    simp only [List.length_cons]
    omega
  | take hm _ ih =>
    have hlength : 4 ≤ _ := hm.minMatch_le
    simp only [List.length_cons]
    omega

theorem grounded (h : Path src (fun pos m => m.Genuine src pos) pos tokens next) :
    Token.Grounded pos tokens := by
  induction h with
  | stop pos => trivial
  | literal _ _ ih => exact ⟨trivial, ih⟩
  | take hm _ ih => exact ⟨⟨hm.distance_pos, hm.distance_le⟩, ih⟩

/-- Behind the source up to its start, a path of repeats stands for the source up to its end. -/
theorem spelled (h : Path src (fun pos m => m.Genuine src pos) pos tokens next) :
    tokens.foldl Token.extend (src.toList.take pos) = src.toList.take next := by
  induction h with
  | stop pos => rfl
  | @literal pos _ _ hpos _ ih =>
    have hpos' : pos < src.toList.length := hpos
    have hextend : Token.extend (src.toList.take pos) (.literal src[pos]) =
        src.toList.take (pos + 1) := by
      rw [Token.extend, List.take_succ_eq_append_getElem hpos', Array.getElem_toList]
    rw [List.foldl_cons, hextend, ih]
  | take hm _ ih => rw [List.foldl_cons, hm.extend, ih]

theorem encodable (h : Path src (fun pos m => m.Repeats src pos) pos tokens next) :
    ∀ t ∈ tokens, t.Encodable := by
  induction h with
  | stop pos => simp
  | literal _ _ ih => exact List.forall_mem_cons.2 ⟨trivial, ih⟩
  | take hm _ ih =>
    refine List.forall_mem_cons.2 ⟨?_, ih⟩
    exact ⟨hm.minMatch_le, hm.length_le, hm.distance_pos, Nat.le_of_lt hm.distance_lt⟩

end Path

/-! ## Blocks -/

/-- The tokens stand for the source from `pos` up to `next`, and can be coded. -/
structure Spells (src : Bytes) (pos : Nat) (tokens : List Token) (next : Nat) : Prop where
  le_size : next ≤ src.size
  encodable : ∀ t ∈ tokens, t.Encodable
  grounded : Token.Grounded pos tokens
  spelled : tokens.foldl Token.extend (src.toList.take pos) = src.toList.take next

theorem Spells.size_eq {src : Bytes} {pos next : Nat} {tokens : List Token}
    (h : Spells src pos tokens next) (hpos : pos ≤ src.size) :
    pos + Token.totalSize tokens.toArray = next := by
  have hlen := congrArg List.length h.spelled
  have hnext := h.le_size
  rw [Token.length_foldl_extend, List.length_take, List.length_take, Array.length_toList,
    Nat.min_eq_left hpos, Nat.min_eq_left hnext] at hlen
  exact hlen

/-- A block adds a path from its first position to the one that it returns, of as many tokens as it may
have unless the source ends. -/
theorem path_parseBlock {σ : Type} [MatchSource σ] (effort : Effort) (src : Bytes)
    {P : Nat → Match → Prop} (limit pos : Nat) (tokens : Array Token) {s : σ} (found : Finds P s) :
    ∃ new next t, parseBlock effort src limit pos tokens s = ((next, tokens ++ new.toArray), t) ∧
      new.length ≤ limit ∧ (next < src.size → new.length = limit) ∧ Path src P pos new next ∧
      Finds P t := by
  induction limit generalizing pos tokens s with
  | zero => exact ⟨[], pos, s, by simp [parseBlock], Nat.le_refl _, fun _ => rfl, .stop pos, found⟩
  | succ limit ih =>
    unfold parseBlock
    split
    · rename_i hlt
      have start : ParseState.atPosition.Holds (P pos) := trivial
      obtain ⟨htaken, hlater⟩ : (∀ m, (choose effort pos s).1 = .take m → P pos m) ∧
        Finds P (choose effort pos s).2 := start.settle found
      rcases hchoose : choose effort pos s with ⟨d, s'⟩
      rw [hchoose] at htaken hlater
      obtain ⟨new, next, t, hparse, hfew, hfull, hpath, hfinds⟩ :=
        ih (pos + d.advance) (tokens.push (d.token src[pos])) hlater
      refine ⟨d.token src[pos] :: new, next, t, ?_, Nat.succ_le_succ hfew, ?_, ?_, hfinds⟩
      · dsimp only
        rw [hparse, List.toArray_cons, ← Array.append_assoc, Array.push_eq_append]
      · intro hnext
        exact congrArg Nat.succ (hfull hnext)
      · cases d with
        | literal => exact .literal hlt hpath
        | take m => exact .take (htaken m rfl) hpath
    · rename_i hge
      exact ⟨[], pos, s, by simp, Nat.zero_le _, fun hlt => absurd hlt hge, .stop pos, found⟩

/-- A block that may have as many tokens as bytes are left ends with the source. -/
theorem parseBlock_end {σ : Type} [MatchSource σ] (effort : Effort) {src : Bytes} {limit pos : Nat}
    (tokens : Array Token) {s : σ} (found : Finds (fun pos m => m.Genuine src pos) s)
    (hpos : pos ≤ src.size) (hlimit : src.size ≤ pos + limit) :
    (parseBlock effort src limit pos tokens s).1.1 = src.size := by
  obtain ⟨new, next, t, hparse, -, hfull, hpath, -⟩ :=
    path_parseBlock effort src limit pos tokens found
  have hle := hpath.le_size hpos
  have hlong := hpath.length_le
  rw [hparse]
  dsimp only
  by_contra hne
  have hlength := hfull (Nat.lt_of_le_of_ne hle hne)
  omega

/-- What is parsed with an index: the tokens spell the source, they are some and not too many, and unless
the source ends they are as many as they may be. -/
theorem Index.spells_of_parseBlock {src : Bytes} {effort : Effort} {limit pos next : Nat}
    {tokens : Array Token} {index index' : Index src (Geometry.ofSize src.size)} (hl : 0 < limit)
    (hlt : pos < src.size)
    (h : parseBlock effort src limit pos #[] index = ((next, tokens), index')) :
    Spells src pos tokens.toList next ∧ pos < next ∧ tokens.size ≤ limit ∧
      (next < src.size → tokens.size = limit) := by
  obtain ⟨new, next', index'', hparse, hfew, hfull, hpath, -⟩ :=
    path_parseBlock effort src limit pos #[] index.finds_repeats
  have hgenuine := hpath.mono (Q := fun pos m => m.Genuine src pos) fun _ _ hm => hm.genuine
  have hprogress := lt_parseBlock effort #[] index
    (fun _ _ _ _ hm => Nat.lt_of_lt_of_le (by decide) (minMatch_le_of_find hm)) hl hlt
  rw [h] at hparse hprogress
  obtain ⟨hfirst, rfl⟩ := Prod.mk.inj hparse
  obtain ⟨rfl, rfl⟩ := Prod.mk.inj hfirst
  rw [Array.empty_append] at hprogress ⊢
  exact ⟨⟨hgenuine.le_size (Nat.le_of_lt hlt), hpath.encodable, hgenuine.grounded, hgenuine.spelled⟩,
    hprogress, hfew, hfull⟩

end LzCodec
