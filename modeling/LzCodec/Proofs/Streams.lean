import LzCodec.Stream
import Mathlib.Data.List.Basic

/-!
# Calls on streams

A source gives its bytes in parts of any size (`Source.Reads`), and a sink takes them in parts of any
size as long as it has room (`Sink.Writes`). Neither can be seen in how a call ends (`Runs.onStreams_eq`):
that only depends on what the source gives in all, on the codec, on the room in the sink and on its
flush, in this order (`Settles`).
-/

namespace LzCodec

/-- What a call does with the bytes of its source. -/
inductive Codec where
  | encode (effort : Effort)
  | decode

/-- The bytes that a call is to write for its source. Not all sources can be decoded. -/
def Codec.output : Codec → Bytes → Except Corruption Bytes
  | encode effort, src => .ok (compress src effort)
  | decode, src => decompress src

/-! ## Sources -/

namespace Source

/-- Reads that give `src` part by part, up to an end or to an error. An empty part is an end. -/
inductive Reads (error : Option SystemError) : List Bytes → Bytes → Option SystemError → Prop
  | last : Reads error [] #[] error
  | stop (rest : List Bytes) : Reads error (#[] :: rest) #[] none
  | more {chunk src : Bytes} {rest : List Bytes} {failure : Option SystemError} (hchunk : chunk ≠ #[])
      (h : Reads error rest src failure) : Reads error (chunk :: rest) (chunk ++ src) failure

/-- A source that gives `src` and then ends, or fails. -/
def Yields (s : Source) (src : Bytes) (failure : Option SystemError) : Prop :=
  Reads s.error s.chunks src failure

theorem Reads.exists (error : Option SystemError) (chunks : List Bytes) :
    ∃ src failure, Reads error chunks src failure := by
  induction chunks with
  | nil => exact ⟨#[], error, .last⟩
  | cons chunk rest ih =>
    by_cases hchunk : chunk = #[]
    · subst hchunk
      exact ⟨#[], none, .stop rest⟩
    · obtain ⟨src, failure, h⟩ := ih
      exact ⟨chunk ++ src, failure, .more hchunk h⟩

theorem Reads.readFrom_eq {error failure : Option SystemError} {chunks : List Bytes} {src : Bytes}
    (h : Reads error chunks src failure) (acc : Bytes) :
    readFrom error acc chunks = failure.elim (.ok (acc ++ src)) .error := by
  induction h generalizing acc with
  | last =>
    rw [Array.append_empty]
    cases error <;> rfl
  | stop rest =>
    rw [Array.append_empty]
    rfl
  | more hchunk _ ih =>
    rw [readFrom, if_neg (fun hempty => hchunk (Array.isEmpty_iff.1 hempty)), ih, Array.append_assoc]

variable {s : Source} {src : Bytes}

theorem Yields.readAll_ok (h : s.Yields src none) : s.readAll = .ok src :=
  (h.readFrom_eq #[]).trans (congrArg Except.ok (Array.empty_append))

theorem Yields.readAll_error {e : SystemError} (h : s.Yields src (some e)) : s.readAll = .error e :=
  h.readFrom_eq #[]

end Source

/-! ## Sinks -/

namespace Sink

variable {sink after : Sink} {bytes first rest : Bytes}

def Fits (sink : Sink) (bytes : Bytes) : Prop :=
  ∀ capacity, sink.capacity = some capacity → bytes.size ≤ capacity - sink.written.size

/-- The sink when it has taken some bytes. -/
def add (sink : Sink) (bytes : Bytes) : Sink := { sink with written := sink.written ++ bytes }

/-- Bytes are written part by part, until a part does not fit. Who writes does not choose the parts. -/
inductive Writes : Sink → Bytes → EStateM.Result SystemError Sink Unit → Prop
  | done (sink : Sink) : Writes sink #[] (.ok () sink)
  | part {sink : Sink} {first rest : Bytes} {result : EStateM.Result SystemError Sink Unit}
      (hfirst : first ≠ #[]) (hfits : sink.Fits first) (h : Writes (sink.add first) rest result) :
      Writes sink (first ++ rest) result
  | refused {sink : Sink} {bytes : Bytes}
      (hfull : ∀ first rest, bytes = first ++ rest → sink.Fits first → first = #[])
      (hmore : bytes ≠ #[]) : Writes sink bytes (.error sink.fullError sink)

theorem write_of_capacity {capacity : Nat} (h : sink.capacity = some capacity) :
    write bytes sink =
      if bytes.size ≤ capacity - sink.written.size then .ok () (sink.add bytes)
      else .error sink.fullError (sink.add (bytes.take (capacity - sink.written.size))) := by
  obtain ⟨written, _, fullError, flushError⟩ := sink
  subst h
  rfl

theorem fits_of_unbounded (h : sink.capacity = none) : sink.Fits bytes :=
  fun _ hcapacity => nomatch h.symm.trans hcapacity

theorem write_of_fits (h : sink.Fits bytes) : write bytes sink = .ok () (sink.add bytes) := by
  cases hcapacity : sink.capacity with
  | none =>
    obtain ⟨written, _, fullError, flushError⟩ := sink
    subst hcapacity
    rfl
  | some capacity => rw [write_of_capacity hcapacity, if_pos (h capacity hcapacity)]

/-- What is written of bytes that do not fit is the longest part of them that does. -/
theorem write_of_not_fits (h : ¬ sink.Fits bytes) :
    ∃ n < bytes.size, write bytes sink = .error sink.fullError (sink.add (bytes.take n)) ∧
      ∀ m ≤ bytes.size, sink.Fits (bytes.take m) ↔ m ≤ n := by
  obtain ⟨capacity, hcapacity, hlarge⟩ :
      ∃ capacity, sink.capacity = some capacity ∧ capacity - sink.written.size < bytes.size := by
    simpa [Fits] using h
  refine ⟨capacity - sink.written.size, hlarge, ?_, ?_⟩
  · rw [write_of_capacity hcapacity, if_neg (Nat.not_le.2 hlarge)]
  · intro m hm
    rw [Fits, hcapacity]
    simp [hm]

@[simp] theorem size_written_add (sink : Sink) (bytes : Bytes) :
    (sink.add bytes).written.size = sink.written.size + bytes.size := Array.size_append

/-- What follows some bytes fits behind them if both fit together. -/
theorem size_append_le_iff {capacity : Nat} (h : first.size ≤ capacity - sink.written.size) :
    (first ++ rest).size ≤ capacity - sink.written.size ↔
      rest.size ≤ capacity - (sink.add first).written.size := by
  rw [Array.size_append, size_written_add]
  omega

theorem fits_append (h : sink.Fits first) : sink.Fits (first ++ rest) ↔ (sink.add first).Fits rest :=
  forall₂_congr fun capacity hcapacity => size_append_le_iff (h capacity hcapacity)

@[simp] theorem add_empty (sink : Sink) : sink.add #[] = sink := by
  rw [add, Array.append_empty]

theorem add_add (sink : Sink) (first rest : Bytes) :
    (sink.add first).add rest = sink.add (first ++ rest) := by
  rw [add, add, add, Array.append_assoc]

theorem write_append (h : sink.Fits first) :
    write (first ++ rest) sink = write rest (sink.add first) := by
  cases hcapacity : sink.capacity with
  | none =>
    have hadded : (sink.add first).capacity = none := hcapacity
    rw [write_of_fits (fits_of_unbounded hcapacity), write_of_fits (fits_of_unbounded hadded), add_add]
  | some capacity =>
    have hroom : first.size ≤ capacity - sink.written.size := h capacity hcapacity
    have hpart : (first ++ rest).take (capacity - sink.written.size) =
        first ++ rest.take (capacity - (sink.add first).written.size) := by
      rw [Array.take, Array.extract_append, Array.extract_eq_self_of_le hroom, Nat.zero_sub,
        size_written_add, Nat.sub_add_eq]
    have hadded : (sink.add first).capacity = some capacity := hcapacity
    rw [write_of_capacity hcapacity, write_of_capacity hadded, hpart, add_add, add_add]
    simp only [size_append_le_iff hroom]
    rfl

/-- In whatever parts bytes are written, as many are as if it was done at once. -/
theorem Writes.write_eq {result : EStateM.Result SystemError Sink Unit}
    (h : sink.Writes bytes result) : write bytes sink = result := by
  induction h with
  | done sink => rw [write_of_fits (fun _ _ => Nat.zero_le _), add_empty]
  | part _ hfits _ ih => rw [write_append hfits, ih]
  | @refused sink bytes hfull hmore =>
    have hnot : ¬ sink.Fits bytes := fun hfits =>
      hmore (hfull bytes #[] (Array.append_empty).symm hfits)
    obtain ⟨n, hn, hwrite, hfits⟩ := write_of_not_fits hnot
    have hnone : bytes.take n = #[] :=
      hfull _ (bytes.drop n) (by simp [Nat.le_of_lt hn])
        ((hfits n (Nat.le_of_lt hn)).2 (Nat.le_refl n))
    rw [hwrite, hnone, add_empty]

theorem Writes.append {result : EStateM.Result SystemError Sink Unit} (hfits : sink.Fits first)
    (h : (sink.add first).Writes rest result) : sink.Writes (first ++ rest) result := by
  by_cases hfirst : first = #[]
  · subst hfirst
    rwa [Array.empty_append, ← add_empty sink]
  · exact .part hfirst hfits h

theorem take_append_self (first rest : Bytes) : (first ++ rest).take first.size = first := by
  simp [Array.extract_append]

theorem writes_write (sink : Sink) (bytes : Bytes) : sink.Writes bytes (write bytes sink) := by
  by_cases hfits : sink.Fits bytes
  · have h := Writes.append hfits (.done _)
    rwa [Array.append_empty, ← write_of_fits hfits] at h
  · -- The part that fits is taken, and of the rest not a single byte.
    obtain ⟨n, hn, hwrite, hmost⟩ := write_of_not_fits hfits
    obtain ⟨first, rest, rfl, rfl⟩ : ∃ first rest, bytes = first ++ rest ∧ n = first.size :=
      ⟨bytes.take n, bytes.drop n, by simp [Nat.le_of_lt hn], by simp [Nat.le_of_lt hn]⟩
    rw [take_append_self] at hwrite
    have hfirst : sink.Fits first := by
      simpa [take_append_self] using (hmost first.size (Nat.le_of_lt hn)).2 (Nat.le_refl _)
    rw [hwrite]
    refine Writes.append hfirst (.refused ?_ ?_)
    · rintro more later rfl hmore
      rw [← fits_append hfirst] at hmore
      have hle := (hmost (first ++ more).size (by simp)).1
        (by rwa [← Array.append_assoc, take_append_self])
      rw [Array.size_append] at hle
      exact Array.size_eq_zero_iff.1 (by omega)
    · rintro rfl
      simp at hn

end Sink

/-! ## Calls -/

namespace Codec

variable {codec : Codec} {source : Source} {src out : Bytes} {failure : Option SystemError}
  {sink after : Sink} {result : Except Failure Sizes}

def onStreams : Codec → Source → Sink → Except Failure Sizes × Sink
  | encode effort, source, sink => Stream.encode source effort sink
  | decode, source, sink => Stream.decode source sink

/-- What a call can do, where its source and its sink choose the parts that are read and written. -/
inductive Runs (codec : Codec) (source : Source) (sink : Sink) : Except Failure Sizes → Sink → Prop
  | broken {src : Bytes} {e : SystemError} (hread : source.Yields src (some e)) :
      Runs codec source sink (.error (.system e)) sink
  | corrupt {src : Bytes} {e : Corruption} (hread : source.Yields src none)
      (hout : codec.output src = .error e) : Runs codec source sink (.error (.corrupt e)) sink
  | unwritten {src out : Bytes} {e : SystemError} {after : Sink} (hread : source.Yields src none)
      (hout : codec.output src = .ok out) (hwrite : sink.Writes out (.error e after)) :
      Runs codec source sink (.error (.system e)) after
  | unflushed {src out : Bytes} {e : SystemError} {after : Sink} (hread : source.Yields src none)
      (hout : codec.output src = .ok out) (hwrite : sink.Writes out (.ok () after))
      (hflush : after.flushError = some e) : Runs codec source sink (.error (.system e)) after
  | done {src out : Bytes} {after : Sink} (hread : source.Yields src none)
      (hout : codec.output src = .ok out) (hwrite : sink.Writes out (.ok () after))
      (hflush : after.flushError = none) : Runs codec source sink (.ok ⟨src.size, out.size⟩) after

/-- How a call ends, by what its source gives in all and what its sink has room for. -/
structure Settles (codec : Codec) (src : Bytes) (failure : Option SystemError) (sink : Sink)
    (result : Except Failure Sizes) (after : Sink) : Prop where
  ok_iff : (∃ sizes, result = .ok sizes) ↔
    failure = none ∧ ∃ out, codec.output src = .ok out ∧ sink.Fits out ∧ sink.flushError = none
  ok : ∀ sizes, result = .ok sizes →
    ∃ out, codec.output src = .ok out ∧ sizes = ⟨src.size, out.size⟩ ∧ after = sink.add out
  broken : ∀ e, failure = some e → result = .error (.system e) ∧ after = sink
  corrupt : ∀ e, failure = none → codec.output src = .error e →
    result = .error (.corrupt e) ∧ after = sink
  full : ∀ out, failure = none → codec.output src = .ok out → ¬ sink.Fits out →
    result = .error (.system sink.fullError) ∧
      ∃ n < out.size, after = sink.add (out.take n) ∧ ∀ m ≤ out.size, sink.Fits (out.take m) ↔ m ≤ n
  unflushed : ∀ out e, failure = none → codec.output src = .ok out → sink.Fits out →
    sink.flushError = some e → result = .error (.system e) ∧ after = sink.add out

theorem onStreams_of_error {e : SystemError} (h : source.Yields src (some e)) :
    codec.onStreams source sink = (.error (.system e), sink) := by
  cases codec <;> simp only [onStreams, Stream.encode, Stream.decode, h.readAll_error]

theorem onStreams_of_corrupt {e : Corruption} (h : source.Yields src none)
    (hout : codec.output src = .error e) : codec.onStreams source sink = (.error (.corrupt e), sink) := by
  cases codec with
  | encode effort => cases hout
  | decode =>
    rw [output] at hout
    simp only [onStreams, Stream.decode, h.readAll_ok, hout]

theorem onStreams_of_ok (h : source.Yields src none) (hout : codec.output src = .ok out) :
    codec.onStreams source sink = Stream.deliver src.size out sink := by
  cases codec with
  | encode effort =>
    cases hout
    simp only [onStreams, Stream.encode, h.readAll_ok]
  | decode =>
    rw [output] at hout
    simp only [onStreams, Stream.decode, h.readAll_ok, hout]

theorem deliver_of_unwritten {size : Nat} {e : SystemError}
    (h : Sink.write out sink = .error e after) :
    Stream.deliver size out sink = (.error (.system e), after) := by
  simp only [Stream.deliver, Bind.bind, EStateM.bind, h]

theorem deliver_of_written {size : Nat} (h : Sink.write out sink = .ok () after) :
    Stream.deliver size out sink =
      (after.flushError.elim (.ok ⟨size, out.size⟩) fun e => .error (.system e), after) := by
  simp only [Stream.deliver, Bind.bind, EStateM.bind, h, Sink.flush]
  cases after.flushError <;> rfl

theorem deliver_of_full (size : Nat) (h : ¬ sink.Fits out) :
    ∃ n < out.size, Stream.deliver size out sink =
        (.error (.system sink.fullError), sink.add (out.take n)) ∧
      ∀ m ≤ out.size, sink.Fits (out.take m) ↔ m ≤ n := by
  obtain ⟨n, hn, hwrite, hmost⟩ := Sink.write_of_not_fits h
  exact ⟨n, hn, deliver_of_unwritten hwrite, hmost⟩

theorem deliver_of_fits {size : Nat} (h : sink.Fits out) :
    Stream.deliver size out sink =
      (sink.flushError.elim (.ok ⟨size, out.size⟩) fun e => .error (.system e), sink.add out) :=
  deliver_of_written (Sink.write_of_fits h)

/-- **Every run with these reads and writes ends as the call does.** -/
theorem Runs.onStreams_eq (h : codec.Runs source sink result after) :
    codec.onStreams source sink = (result, after) := by
  cases h with
  | broken hread => exact onStreams_of_error hread
  | corrupt hread hout => exact onStreams_of_corrupt hread hout
  | unwritten hread hout hwrite =>
    exact (onStreams_of_ok hread hout).trans (deliver_of_unwritten hwrite.write_eq)
  | unflushed hread hout hwrite hflush =>
    rw [onStreams_of_ok hread hout, deliver_of_written hwrite.write_eq, hflush]
    rfl
  | done hread hout hwrite hflush =>
    rw [onStreams_of_ok hread hout, deliver_of_written hwrite.write_eq, hflush]
    rfl

theorem exists_runs (codec : Codec) (source : Source) (sink : Sink) :
    ∃ result after, codec.Runs source sink result after := by
  obtain ⟨src, failure, hread⟩ := Source.Reads.exists source.error source.chunks
  cases failure with
  | some e => exact ⟨_, _, .broken hread⟩
  | none =>
    cases hout : codec.output src with
    | error e => exact ⟨_, _, .corrupt hread hout⟩
    | ok out =>
      have hwrite := Sink.writes_write sink out
      cases hresult : Sink.write out sink with
      | error e after => exact ⟨_, _, .unwritten hread hout (hresult ▸ hwrite)⟩
      | ok _ after =>
        rw [hresult] at hwrite
        cases hflush : after.flushError with
        | some e => exact ⟨_, _, .unflushed hread hout hwrite hflush⟩
        | none => exact ⟨_, _, .done hread hout hwrite hflush⟩

theorem runs_onStreams (codec : Codec) (source : Source) (sink : Sink) :
    codec.Runs source sink (codec.onStreams source sink).1 (codec.onStreams source sink).2 := by
  obtain ⟨result, after, h⟩ := exists_runs codec source sink
  rwa [h.onStreams_eq]

theorem onStreams_congr {other : Source} (h : source.Yields src failure)
    (hother : other.Yields src failure) : codec.onStreams other sink = codec.onStreams source sink := by
  have hread : other.readAll = source.readAll := by
    cases failure with
    | some e => rw [h.readAll_error, hother.readAll_error]
    | none => rw [h.readAll_ok, hother.readAll_ok]
  cases codec <;> simp only [onStreams, Stream.encode, Stream.decode, hread]

theorem onStreams_ok_iff {sizes : Sizes} (h : source.Yields src failure) :
    codec.onStreams source sink = (.ok sizes, after) ↔
      failure = none ∧ ∃ out, codec.output src = .ok out ∧ sink.Fits out ∧ sink.flushError = none ∧
        sizes = ⟨src.size, out.size⟩ ∧ after = sink.add out := by
  constructor
  · intro hcall
    cases failure with
    | some e => cases (onStreams_of_error h).symm.trans hcall
    | none =>
      refine ⟨rfl, ?_⟩
      cases hout : codec.output src with
      | error e => cases (onStreams_of_corrupt h hout).symm.trans hcall
      | ok out =>
        rw [onStreams_of_ok h hout] at hcall
        by_cases hfits : sink.Fits out
        · rw [deliver_of_fits hfits] at hcall
          cases hflush : sink.flushError with
          | some e =>
            rw [hflush] at hcall
            cases hcall
          | none =>
            rw [hflush] at hcall
            cases hcall
            exact ⟨out, rfl, hfits, rfl, rfl, rfl⟩
        · obtain ⟨n, -, hfull, -⟩ := deliver_of_full src.size hfits
          cases hfull.symm.trans hcall
  · rintro ⟨rfl, out, hout, hfits, hflush, rfl, rfl⟩
    rw [onStreams_of_ok h hout, deliver_of_fits hfits, hflush]
    rfl

theorem onStreams_settles (h : source.Yields src failure) :
    codec.Settles src failure sink (codec.onStreams source sink).1 (codec.onStreams source sink).2 where
  ok_iff := by
    constructor
    · rintro ⟨sizes, hresult⟩
      obtain ⟨hread, out, hout, hfits, hflush, -⟩ := (onStreams_ok_iff h).1 (Prod.ext hresult rfl)
      exact ⟨hread, out, hout, hfits, hflush⟩
    · rintro ⟨hread, out, hout, hfits, hflush⟩
      exact ⟨_, congrArg Prod.fst ((onStreams_ok_iff h).2 ⟨hread, out, hout, hfits, hflush, rfl, rfl⟩)⟩
  ok sizes hresult := by
    obtain ⟨-, out, hout, -, -, hsizes, hafter⟩ := (onStreams_ok_iff h).1 (Prod.ext hresult rfl)
    exact ⟨out, hout, hsizes, hafter⟩
  broken e he := by
    subst he
    rw [onStreams_of_error h]
    exact ⟨rfl, rfl⟩
  corrupt e he hout := by
    subst he
    rw [onStreams_of_corrupt h hout]
    exact ⟨rfl, rfl⟩
  full out he hout hfits := by
    subst he
    obtain ⟨n, hn, hfull, hmost⟩ := deliver_of_full src.size hfits
    rw [onStreams_of_ok h hout, hfull]
    exact ⟨rfl, n, hn, rfl, hmost⟩
  unflushed out e he hout hfits hflush := by
    subst he
    rw [onStreams_of_ok h hout, deliver_of_fits hfits, hflush]
    exact ⟨rfl, rfl⟩

/-- **A call on streams ends as its source, codec and sink make it, in whatever parts bytes come and
go.** -/
theorem runs_settle (codec : Codec) (sink : Sink) (h : source.Yields src failure) :
    codec.Settles src failure sink (codec.onStreams source sink).1 (codec.onStreams source sink).2 ∧
      codec.Runs source sink (codec.onStreams source sink).1 (codec.onStreams source sink).2 ∧
      ∀ other result after, other.Yields src failure → codec.Runs other sink result after →
        codec.onStreams source sink = (result, after) :=
  ⟨onStreams_settles h, runs_onStreams codec source sink,
    fun _ _ _ hother hrun => (onStreams_congr hother h).trans hrun.onStreams_eq⟩

/-- Two of three bytes reach a sink that has no room for more. -/
theorem runs_settle_full :
    let source : Source :=
      ⟨[#[79, 82, 90, 26, 1, 131], #[0, 3, 131, 128, 0, 4, 110, 173, 0, 0, 0, 95, 85, 235, 49]], none⟩
    let src : Bytes :=
      #[79, 82, 90, 26, 1, 131, 0, 3, 131, 128, 0, 4, 110, 173, 0, 0, 0, 95, 85, 235, 49]
    let sink : Sink := { capacity := some 2 }
    source.Yields src none ∧
      decode.Settles src none sink (decode.onStreams source sink).1 (decode.onStreams source sink).2 ∧
      (decode.onStreams source sink).1 = .error (.system .storageFull) ∧
      (decode.onStreams source sink).2.written = #[97, 97] := by
  intro source src sink
  have hread : source.Yields src none := .more (by decide) (.more (by decide) .last)
  have hout : decode.output src = .ok #[97, 97, 97] := by decide +kernel
  have hfull : ¬ sink.Fits #[97, 97, 97] := fun h => absurd (h 2 rfl) (by decide)
  obtain ⟨hsettles, -⟩ := runs_settle .decode sink hread
  obtain ⟨hresult, n, hn, hafter, hmost⟩ := hsettles.full _ rfl hout hfull
  have htwo : n = 2 := by
    have hle : 2 ≤ n := (hmost 2 (by decide)).1 fun capacity h => by cases h; decide
    exact Nat.le_antisymm (Nat.lt_succ_iff.1 hn) hle
  refine ⟨hread, hsettles, hresult, ?_⟩
  rw [hafter, htwo]
  rfl

end Codec

end LzCodec
