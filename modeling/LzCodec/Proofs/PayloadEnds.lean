import LzCodec.Proofs.CodeTables
import LzCodec.Proofs.CodewordLookup
import LzCodec.Proofs.Machine.Unpack

/-!
# Where a payload ends

What a reader of bits has taken is read as the same again, whatever follows it, and is cut short without its
last bit (`Ends`). This passes from numbers to tables and tokens, and it holds of codewords also where a code
leaves strings unassigned: these are the last ones, so zeros behind the end of the data never lead to one of
them (`selfDelimiting_decode`). So a payload says itself where it ends (`unpack_take_and_append`).
-/

namespace LzCodec

namespace BitReader

variable {α β : Type} {p : BitParser α}

/-- `p` reads just these bits as `a`, and finds every shorter part of them cut short. -/
structure Ends (p : BitParser α) (text : List Bool) (a : α) : Prop where
  reads : Reads p text a
  cut : ∀ part, part <+: text → part.length < text.length → Fails p part .truncated

/-- Whatever `p` reads ends where `p` stops. -/
def SelfDelimiting (p : BitParser α) : Prop :=
  ∀ r a stop, p r = .ok a stop → ∃ text, r.rest = text ++ stop.rest ∧ Ends p text a

theorem ends_pure (a : α) : Ends (pure a) [] a where
  reads := reads_pure a
  cut := fun _ _ hlt => absurd hlt (Nat.not_lt_zero _)

/-- What ends in the second part has all of the first part. -/
theorem Ends.bind {f : α → BitParser β} {first second : List Bool} {a : α} {b : β} (hp : Ends p first a)
    (hf : Ends (f a) second b) : Ends (p >>= f) (first ++ second) b where
  reads := hp.reads.bind hf.reads
  cut := by
    intro part hpart hlt
    by_cases hshort : part.length < first.length
    · have hfirst := List.prefix_of_prefix_length_le hpart (List.prefix_append first second)
        (Nat.le_of_lt hshort)
      exact (hp.cut part hfirst hshort).bind f
    · obtain ⟨rest, rfl⟩ := List.prefix_of_prefix_length_le (List.prefix_append first second) hpart
        (Nat.le_of_not_lt hshort)
      rw [List.prefix_append_right_inj] at hpart
      simp only [List.length_append, Nat.add_lt_add_iff_left] at hlt
      exact hp.reads.bind_fails (hf.cut rest hpart hlt)

theorem selfDelimiting_pure (a : α) : SelfDelimiting (pure a) := by
  intro r a' stop hrun
  cases hrun
  exact ⟨[], rfl, ends_pure a⟩

theorem selfDelimiting_throw (cause : Corruption) : SelfDelimiting (throw cause : BitParser α) := by
  intro r a stop hrun
  cases hrun

theorem SelfDelimiting.bind {f : α → BitParser β} (hp : SelfDelimiting p)
    (hf : ∀ a, SelfDelimiting (f a)) : SelfDelimiting (p >>= f) := by
  intro r b stop hrun
  simp only [Bind.bind, EStateM.bind] at hrun
  cases hfirst : p r with
  | error cause r₁ =>
    rw [hfirst] at hrun
    cases hrun
  | ok a r₁ =>
    rw [hfirst] at hrun
    obtain ⟨first, hrest, hends⟩ := hp r a r₁ hfirst
    obtain ⟨second, hrest₁, hends₁⟩ := hf a r₁ b stop hrun
    exact ⟨first ++ second, by rw [hrest, hrest₁, List.append_assoc], hends.bind hends₁⟩

theorem selfDelimiting_get (count : Nat) : SelfDelimiting (get count) := by
  intro r value stop hrun
  by_cases hleft : count ≤ r.remaining
  · rw [get_of_le hleft] at hrun
    cases hrun
    have hlen : (r.rest.take count).length = count :=
      List.length_take_of_le (r.length_rest.symm ▸ hleft)
    have hreads := reads_get (r.rest.take count)
    rw [hlen] at hreads
    refine ⟨r.rest.take count, by simp, hreads, ?_⟩
    rintro part hpart hlt r' rfl
    rw [hlen, length_rest] at hlt
    exact ⟨r', get_of_lt hlt⟩
  · rw [get_of_lt (Nat.lt_of_not_le hleft)] at hrun
    cases hrun

theorem selfDelimiting_getGroups (value weight left : Nat) :
    SelfDelimiting (getGroups value weight left) := by
  induction left generalizing value weight with
  | zero => exact selfDelimiting_throw _
  | succ left ih =>
    unfold getGroups
    apply (selfDelimiting_get 2).bind
    intro group
    dsimp only
    split
    · exact selfDelimiting_pure _
    · exact ih _ _

theorem selfDelimiting_getVarint : SelfDelimiting getVarint :=
  selfDelimiting_getGroups 0 1 maxVarintGroups

end BitReader

theorem Bytes.bits_take (data : Bytes) (size : Nat) :
    Bytes.bits (data.take size) = data.bits.take (8 * size) := by
  have hsplit : data.take size ++ data.drop size = data := by simp
  by_cases hsize : size ≤ data.size
  · have hlen : (Bytes.bits (data.take size)).length = 8 * size := by
      simp [Array.take_eq_extract, hsize]
    have hbits := Bytes.bits_append (data.take size) (data.drop size)
    rw [hsplit] at hbits
    rw [hbits, List.take_left' hlen]
  · have hall : data.take size = data := by
      rw [Array.take_eq_extract, Array.extract_eq_self_of_le (Nat.le_of_not_le hsize)]
    rw [hall, List.take_of_length_le (by rw [Bytes.length_bits]; omega)]

/-- Zeros in place of the last bits make a number no larger. -/
theorem BitString.toNat_front_le {part text : List Bool} (hpart : part <+: text) {count : Nat}
    (hcount : text.length ≤ count) : toNat (front part count) ≤ toNat (front text count) := by
  obtain ⟨rest, rfl⟩ := hpart
  obtain ⟨more, rfl⟩ := Nat.exists_eq_add_of_le hcount
  have hpart := front_append part [] (rest.length + more)
  have htext := front_append part rest (rest.length + more)
  rw [List.append_nil] at hpart
  rw [List.length_append, Nat.add_assoc, hpart, htext, toNat_append, toNat_append, length_front,
    length_front, front_nil, ← ofNat_zero, toNat_ofNat, Nat.zero_mod]
  exact Nat.le_add_right _ _

open BitReader BitString

namespace Huffman

/-! ## Codewords -/

variable {lengths : Array Nat}

section
variable (h : Admissible lengths)
include h

/-- The strings that begin with a codeword are the first ones. -/
theorem exists_prefix_of_le {a b : List Bool} (ha : a.length = longest lengths)
    (hb : b.length = longest lengths) (hle : toNat a ≤ toNat b)
    (hbegins : ∃ s ∈ occurring lengths, codeBits lengths s <+: b) :
    ∃ s ∈ occurring lengths, codeBits lengths s <+: a := by
  have hshare := two_pow_mul_totalShare lengths
  rw [exists_prefix_iff h (Nat.le_of_eq hb.symm), fraction_lt_iff hshare (Nat.le_of_eq hb.symm),
    List.take_of_length_le (Nat.le_of_eq hb)] at hbegins
  rw [exists_prefix_iff h (Nat.le_of_eq ha.symm), fraction_lt_iff hshare (Nat.le_of_eq ha.symm),
    List.take_of_length_le (Nat.le_of_eq ha)]
  exact Nat.lt_of_le_of_lt hle hbegins

end

namespace Decoder
variable {d : Decoder} (h : Admissible lengths) (hd : ofLengths lengths = .ok d)
include h hd

/-- Without its last bits a codeword leads to one that is not there to its end either. -/
theorem decode_of_part {s : Nat} (hs : s ∈ occurring lengths) {r : BitReader}
    (hpart : r.rest <+: codeBits lengths s) (hlt : r.rest.length < (codeBits lengths s).length)
    (hsize : lengths.size ≤ 65536) : d.decode r = .error .truncated r := by
  have hlong := length_codeBits_le lengths s
  have hself : Leads lengths s (codeBits lengths s) := ⟨hs, 0, List.prefix_append _ _⟩
  obtain ⟨t, ht, hbegins⟩ : ∃ t ∈ occurring lengths,
      codeBits lengths t <+: front r.rest (longest lengths) :=
    exists_prefix_of_le h (length_front _ _) (length_front _ _) (toNat_front_le hpart hlong)
      ⟨s, hs, (exists_zeros_iff hlong).1 hself.2⟩
  have hleads : Leads lengths t r.rest := ⟨ht, (exists_zeros_iff (length_codeBits_le lengths t)).2 hbegins⟩
  have hsymbol := Nat.lt_of_lt_of_le (symbol_lt_size (leaf_of_occurring ht)) hsize
  rw [decode_eq_of_leads h hd hleads hsymbol, dif_neg]
  -- a codeword that is there to its end would be in front of the one of `s`, and so be that one
  intro hleft
  obtain ⟨zeros, htext⟩ := hleads.2
  have hlen : (codeBits lengths t).length ≤ r.rest.length := by
    rwa [codeBits, length_ofNat, length_rest]
  have hwhole := List.prefix_of_prefix_length_le htext (List.prefix_append r.rest _) hlen
  have hsame := leads_unique h ⟨ht, 0, (hwhole.trans hpart).trans (List.prefix_append _ _)⟩ hself
  rw [hsame] at hlen
  exact Nat.not_le_of_lt hlt hlen

theorem selfDelimiting_decode (hsize : lengths.size ≤ 65536) : SelfDelimiting d.decode := by
  intro r symbol stop hrun
  by_cases hleads : ∃ s, Leads lengths s r.rest
  · obtain ⟨s, hs⟩ := hleads
    have hleaf := leaf_of_occurring hs.1
    have hsymbol := Nat.lt_of_lt_of_le (symbol_lt_size hleaf) hsize
    rw [decode_eq_of_leads h hd hs hsymbol] at hrun
    split at hrun
    · rename_i hleft
      cases hrun
      obtain ⟨zeros, htext⟩ := hs.2
      have hlen : (codeBits lengths symbol).length = lengths.getD symbol 0 := length_ofNat _ _
      obtain ⟨tail, htail⟩ := List.prefix_of_prefix_length_le htext (List.prefix_append r.rest _)
        (by rwa [hlen, length_rest])
      refine ⟨codeBits lengths symbol, ?_, reads_decode h hd hleaf hsymbol, ?_⟩
      · rw [rest_advance, ← hlen, ← htail, List.drop_left]
      · rintro part hpart hlt r' rfl
        exact ⟨r', decode_of_part h hd hs.1 hpart hlt hsize⟩
    · cases hrun
  · rw [decode_eq_of_not_leads h hd (not_exists.1 hleads)] at hrun
    cases hrun

end Decoder

/-! ## Tables -/

namespace Decoder

theorem selfDelimiting_readLengths (width next : Nat) {size : Nat} (lengths : Vector Nat size) :
    SelfDelimiting (readLengths width size next lengths) := by
  induction hn : size - next using Nat.strongRecOn generalizing next lengths with
  | ind n ih =>
    unfold readLengths
    apply selfDelimiting_getVarint.bind
    intro delta
    cases delta with
    | zero => exact selfDelimiting_pure _
    | succ delta =>
      dsimp only
      split
      · apply selfDelimiting_getVarint.bind
        intro short
        split
        · exact (selfDelimiting_throw _).bind fun _ => ih _ (by omega) _ _ rfl
        · exact ih _ (by omega) _ _ rfl
      · exact selfDelimiting_throw _

theorem selfDelimiting_read (size : Nat) : SelfDelimiting (read size) := by
  unfold read
  apply selfDelimiting_getVarint.bind
  intro width
  dsimp only
  split
  · exact selfDelimiting_throw _
  · apply (selfDelimiting_readLengths width 0 _).bind
    intro lengths
    split
    · exact selfDelimiting_pure _
    · exact selfDelimiting_throw _

end Decoder

end Huffman

/-! ## Payloads -/

namespace Block

theorem selfDelimiting_readSlot (slot : Nat) : SelfDelimiting (readSlot slot) :=
  (selfDelimiting_get _).bind fun _ => selfDelimiting_pure _

theorem selfDelimiting_readToken {litLen dist : Huffman.Decoder} (hlit : SelfDelimiting litLen.decode)
    (hdist : SelfDelimiting dist.decode) : SelfDelimiting (readToken litLen dist) := by
  unfold readToken
  apply hlit.bind
  intro symbol
  split
  · exact selfDelimiting_pure _
  · apply (selfDelimiting_readSlot _).bind
    intro extra
    dsimp only
    split
    · exact selfDelimiting_throw _
    · apply hdist.bind
      intro slot
      exact (selfDelimiting_readSlot slot).bind fun _ => selfDelimiting_pure _

/-- Reads something first, and fails where that fails. -/
def after {α : Type} (p : BitParser α) (next : α → BitReader → Replay Unit) (r : BitReader) :
    Replay Unit :=
  match p r with
  | .error e _ => throw e
  | .ok a r => next a r

theorem unpackTokens_succ (litLen dist : Huffman.Decoder) (count : Nat) :
    unpackTokens litLen dist (count + 1) = after (readToken litLen dist)
      fun token r => (do Output.apply token; unpackTokens litLen dist count r) := by
  funext r
  rw [unpackTokens, after]
  cases readToken litLen dist r <;> rfl

/-- Unpacks from where a reader stands. -/
def unpackFrom (count : Nat) : BitReader → Replay Unit :=
  after (Huffman.Decoder.read litLenSymbols) fun litLen =>
    after (Huffman.Decoder.read distSymbols) fun dist => unpackTokens litLen dist count

theorem unpack_eq_unpackFrom (payload : Bytes) (count : Nat) :
    unpack payload count = unpackFrom count { data := payload } := by
  rw [unpack, unpackFrom, after]
  cases Huffman.Decoder.read litLenSymbols { data := payload } with
  | error cause r => rfl
  | ok litLen r =>
    dsimp only
    rw [after]
    cases Huffman.Decoder.read distSymbols r <;> rfl

/-- With a byte or more behind this text there are trailing data, and a shorter part of it is cut short. -/
structure Closes (run : BitReader → Replay Unit) (out : Output) (text : List Bool) : Prop where
  more : ∀ (r : BitReader) (tail : List Bool), r.rest = text ++ tail → 8 ≤ tail.length →
    ∃ kept, run r out = .error .trailingData kept
  cut : ∀ r : BitReader, r.rest <+: text → r.rest.length < text.length →
    ∃ kept, run r out = .error .truncated kept

/-- Where `run` succeeds, its text and less than a byte are left. -/
def Closing (run : BitReader → Replay Unit) : Prop :=
  ∀ r out out', run r out = .ok () out' →
    ∃ text pad, r.rest = text ++ pad ∧ pad.length < 8 ∧ Closes run out text

section
variable {α : Type} {p : BitParser α} {next : α → BitReader → Replay Unit}

theorem after_ok {r r₁ : BitReader} {a : α} (h : p r = .ok a r₁) : after p next r = next a r₁ := by
  rw [after, h]

theorem after_error {r r₁ : BitReader} {cause : Corruption} (h : p r = .error cause r₁) :
    after p next r = throw cause := by
  rw [after, h]

theorem Closes.after {first text : List Bool} {a : α} {out : Output} (hp : Ends p first a)
    (hnext : Closes (next a) out text) : Closes (after p next) out (first ++ text) where
  more := by
    intro r tail hrest hmore
    rw [List.append_assoc] at hrest
    obtain ⟨r₁, hrun, -, hrest₁⟩ := hp.reads r _ hrest
    rw [after_ok hrun]
    exact hnext.more r₁ tail hrest₁ hmore
  cut := by
    intro r hpart hlt
    by_cases hshort : r.rest.length < first.length
    · have hfirst := List.prefix_of_prefix_length_le hpart (List.prefix_append first text)
        (Nat.le_of_lt hshort)
      obtain ⟨r₁, hrun⟩ := hp.cut r.rest hfirst hshort r rfl
      rw [after_error hrun]
      exact ⟨out, rfl⟩
    · obtain ⟨rest, hrest⟩ := List.prefix_of_prefix_length_le (List.prefix_append first text) hpart
        (Nat.le_of_not_lt hshort)
      obtain ⟨r₁, hrun, -, rfl⟩ := hp.reads r rest hrest.symm
      rw [← hrest, List.prefix_append_right_inj] at hpart
      simp only [← hrest, List.length_append, Nat.add_lt_add_iff_left] at hlt
      rw [after_ok hrun]
      exact hnext.cut r₁ hpart hlt

theorem Closing.after (hp : SelfDelimiting p)
    (hnext : ∀ r a r₁, p r = .ok a r₁ → Closing (next a)) : Closing (after p next) := by
  intro r out out' hrun
  cases hread : p r with
  | error cause r₁ =>
    rw [after_error hread] at hrun
    cases hrun
  | ok a r₁ =>
    rw [after_ok hread] at hrun
    obtain ⟨first, hrest, hends⟩ := hp r a r₁ hread
    obtain ⟨text, pad, hrest₁, hpad, hcloses⟩ := hnext r a r₁ hread r₁ out out' hrun
    exact ⟨first ++ text, pad, by rw [hrest, hrest₁, List.append_assoc], hpad, hcloses.after hends⟩

end

/-- The same tokens are applied to the same output. -/
theorem Closing.apply {run : BitReader → Replay Unit} (h : Closing run) (token : Token) :
    Closing fun r => (do Output.apply token; run r) := by
  intro r out out' hrun
  simp only [Bind.bind, EStateM.bind] at hrun
  cases happly : Output.apply token out with
  | error cause out₁ =>
    rw [happly] at hrun
    cases hrun
  | ok _ out₁ =>
    rw [happly] at hrun
    obtain ⟨text, pad, hrest, hpad, hcloses⟩ := h r out₁ out' hrun
    refine ⟨text, pad, hrest, hpad, ?_, ?_⟩
    · intro r' tail hrest' hmore
      simp only [Bind.bind, EStateM.bind, happly]
      exact hcloses.more r' tail hrest' hmore
    · intro r' hpart hlt
      simp only [Bind.bind, EStateM.bind, happly]
      exact hcloses.cut r' hpart hlt

theorem closing_unpackTokens {litLen dist : Huffman.Decoder} (hlit : SelfDelimiting litLen.decode)
    (hdist : SelfDelimiting dist.decode) (count : Nat) : Closing (unpackTokens litLen dist count) := by
  induction count with
  | zero =>
    intro r out out' hrun
    refine ⟨[], r.rest, rfl, ?_, ?_, fun _ _ hlt => absurd hlt (Nat.not_lt_zero _)⟩
    · rw [length_rest]
      unfold unpackTokens at hrun
      cases hend : r.finish with
      | error cause =>
        rw [hend] at hrun
        cases hrun
      | ok _ =>
        unfold BitReader.finish at hend
        split at hend
        · rename_i hleft
          exact hleft.1
        · cases hend
    · intro r' tail hrest hmore
      have hleft : ¬ (r'.remaining < 8 ∧ r'.peek r'.remaining = 0) := by
        rw [← length_rest, hrest, List.nil_append]
        omega
      rw [unpackTokens, BitReader.finish, if_neg hleft]
      exact ⟨out, rfl⟩
  | succ count ih =>
    rw [unpackTokens_succ]
    exact .after (selfDelimiting_readToken hlit hdist) fun _ token _ _ => ih.apply token

theorem selfDelimiting_decode_of_read {size : Nat} (hsize : size ≤ 65536) {r r₁ : BitReader}
    {d : Huffman.Decoder} (h : Huffman.Decoder.read size r = .ok d r₁) : SelfDelimiting d.decode := by
  obtain ⟨-, lengths, _, table, -, hd, -⟩ := Huffman.Decoder.read_eq_ok_iff.1 h
  exact Huffman.Decoder.selfDelimiting_decode (Huffman.Decoder.exists_ofLengths_iff.1 ⟨d, hd⟩) hd
    (table.1 ▸ hsize)

theorem closing_unpackFrom (count : Nat) : Closing (unpackFrom count) :=
  .after (Huffman.Decoder.selfDelimiting_read _) fun _ _ _ hlit =>
    .after (Huffman.Decoder.selfDelimiting_read _) fun _ _ _ hdist =>
      closing_unpackTokens (selfDelimiting_decode_of_read (by decide) hlit)
        (selfDelimiting_decode_of_read (by decide) hdist) count

section
variable {payload : Bytes} {count : Nat} {out out' : Output}

/-- A payload without its last bytes is cut short. -/
theorem unpack_take (h : unpack payload count out = .ok () out') {size : Nat} (hsize : size < payload.size) :
    ∃ kept, unpack (payload.take size) count out = .error .truncated kept := by
  rw [unpack_eq_unpackFrom] at h ⊢
  obtain ⟨text, pad, hbits, hpad, hcloses⟩ := closing_unpackFrom count _ _ _ h
  have hlen : 8 * payload.size = text.length + pad.length := by
    rw [← Bytes.length_bits, ← List.length_append, ← hbits]
    rfl
  have hrest : BitReader.rest { data := payload.take size } = (text ++ pad).take (8 * size) := by
    rw [← hbits]
    exact Bytes.bits_take payload size
  have hshort : ((text ++ pad).take (8 * size)).length < text.length := by
    rw [List.length_take, List.length_append]
    omega
  apply hcloses.cut _ _ (hrest ▸ hshort)
  rw [hrest]
  exact List.prefix_of_prefix_length_le (List.take_prefix _ _) (List.prefix_append _ _)
    (Nat.le_of_lt hshort)

/-- A payload with more bytes behind it has trailing data. -/
theorem unpack_append (h : unpack payload count out = .ok () out') {more : Bytes} (hmore : more ≠ #[]) :
    ∃ kept, unpack (payload ++ more) count out = .error .trailingData kept := by
  rw [unpack_eq_unpackFrom] at h ⊢
  obtain ⟨text, pad, hbits, -, hcloses⟩ := closing_unpackFrom count _ _ _ h
  have hpos := Array.size_pos_iff.2 hmore
  have hrest : BitReader.rest { data := payload ++ more } = text ++ (pad ++ Bytes.bits more) := by
    rw [← List.append_assoc, ← hbits]
    exact Bytes.bits_append payload more
  apply hcloses.more _ _ hrest
  rw [List.length_append, Bytes.length_bits]
  omega

/-- On words a failure is the same. -/
theorem unpack_words {cause : Corruption} (h : ∃ kept, unpack payload count out = .error cause kept)
    (small : 8 * payload.size < 2 ^ 64) {b : Machine.Buffer} (hb : b.Holds out) :
    Machine.unpack payload count b = Machine.corrupt cause := by
  obtain ⟨kept, hrun⟩ := h
  have hwords := Machine.unpack_spec small count hb
  rwa [hrun] at hwords

/-- **A payload ends where it says.** If all of it can be unpacked behind some output, then without its last
bytes it is cut short, and with more bytes behind it there are trailing data, for the same output and the same
number of tokens. On words, the same failures are found. -/
theorem unpack_take_and_append (h : unpack payload count out = .ok () out') :
    (∀ size < payload.size,
      (∃ kept, unpack (payload.take size) count out = .error .truncated kept) ∧
      ∀ b : Machine.Buffer, b.Holds out → 8 * payload.size < 2 ^ 64 →
        Machine.unpack (payload.take size) count b = Machine.corrupt .truncated) ∧
    ∀ more ≠ #[],
      (∃ kept, unpack (payload ++ more) count out = .error .trailingData kept) ∧
      ∀ b : Machine.Buffer, b.Holds out → 8 * (payload ++ more).size < 2 ^ 64 →
        Machine.unpack (payload ++ more) count b = Machine.corrupt .trailingData := by
  constructor
  · intro size hsize
    have hcut := unpack_take h hsize
    refine ⟨hcut, ?_⟩
    intro b hb small
    apply unpack_words hcut _ hb
    simp only [Array.take_eq_extract, Array.size_extract]
    omega
  · intro more hmore
    have htrailing := unpack_append h hmore
    exact ⟨htrailing, fun b hb small => unpack_words htrailing small hb⟩

end

/-- Where bytes are found, the tokens were applied. -/
theorem exists_ok_of_bytes {found : EStateM.Result Corruption Output Unit} {bytes : Bytes}
    (h : (match found with
      | .ok _ out => some out.bytes
      | .error _ _ => none) = some bytes) : ∃ out, found = .ok () out ∧ out.bytes = bytes := by
  cases found with
  | ok _ out => exact ⟨out, rfl, Option.some.inj h⟩
  | error cause out => cases h

/-- A table with a padded number and one codeword of three zeros, so that all other strings are unassigned. The
last byte but one ends within a codeword, to which the zeros behind it would add what is cut off. -/
theorem unpack_take_and_append_unassigned :
    let payload : Bytes := #[243, 234, 208, 0, 0, 0, 0]
    let out : Output := ⟨#[7], 13, by decide⟩
    (∃ out', unpack payload 9 out = .ok () out' ∧
      out'.bytes = #[7, 98, 98, 98, 98, 98, 98, 98, 98, 98]) ∧
      6 < payload.size ∧ (∃ kept, unpack (payload.take 6) 9 out = .error .truncated kept) ∧
      (⟨#[7], 13⟩ : Machine.Buffer).Holds out ∧ 8 * payload.size < 2 ^ 64 ∧
      Machine.unpack (payload.take 6) 9 ⟨#[7], 13⟩ = Machine.corrupt .truncated ∧
      (#[0] : Bytes) ≠ #[] ∧ 8 * (payload ++ #[0]).size < 2 ^ 64 ∧
      Machine.unpack (payload ++ #[0]) 9 ⟨#[7], 13⟩ = Machine.corrupt .trailingData := by
  have hrun : ∃ out', unpack #[243, 234, 208, 0, 0, 0, 0] 9 ⟨#[7], 13, by decide⟩ = .ok () out' ∧
      out'.bytes = #[7, 98, 98, 98, 98, 98, 98, 98, 98, 98] := exists_ok_of_bytes (by decide +kernel)
  intro payload out
  have hout : (⟨#[7], 13⟩ : Machine.Buffer).Holds out := ⟨rfl, rfl, by decide⟩
  obtain ⟨out', hok, hbytes⟩ := hrun
  obtain ⟨hcut, hmore⟩ := unpack_take_and_append hok
  obtain ⟨hcut, hcutWords⟩ := hcut 6 (by decide)
  obtain ⟨-, hmoreWords⟩ := hmore #[0] (by decide)
  exact ⟨⟨out', hok, hbytes⟩, by decide, hcut, hout, by decide, hcutWords _ hout (by decide), by decide,
    by decide, hmoreWords _ hout (by decide)⟩

end Block

end LzCodec
