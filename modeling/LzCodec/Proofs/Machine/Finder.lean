import LzCodec.Proofs.Machine.Prefix
import LzCodec.Proofs.Parsing
import LzCodec.Proofs.Search.Chains

/-!
# The index on machine words

Positions are entered and searched as in `Index`, with arrays in place of vectors and a mask in place of
a remainder. Whatever an index that knows its chains is asked, the index on words answers alike
(`find_eq`, `reaches_eq`): a head never lies behind the next position, so no link is negative.
-/

namespace LzCodec

namespace Machine

structure Finder where
  src : Bytes
  head : Array Nat
  chain : Array Nat
  mask : Nat
  hashLog : Nat
  next : Nat

/-- The smallest power of two that is at least `n`, in `width` bits. -/
def nextPowerOfTwo (width n : Nat) : Machine Nat :=
  if 2 ^ Geometry.ceilLog n < 2 ^ width then pure (2 ^ Geometry.ceilLog n) else throw .overflow

def clamp (low high n : Nat) : Nat := min high (max low n)

namespace Finder

/-- The empty index of a source. -/
def new (src : Bytes) : Machine Finder := do
  let window := clamp (2 ^ minWindowLog) (2 ^ maxWindowLog) (← nextPowerOfTwo 64 src.size)
  let hashLog := clamp minHashLog maxHashLog (trailingZeros window 64 - bucketLog)
  let heads ← shiftLeft 64 1 hashLog
  return ⟨src, Array.replicate heads 0, Array.replicate window 0, ← sub window 1, hashLog, 0⟩

/-- The distance from `pos` to the position before the entry `last`, or 0. -/
def gap (pos last : Nat) : Machine Nat := do
  if last = 0 then
    return 0
  else
    sub (← add 64 pos 1) last

/-- Enters the positions from `pos` up to `stop`. -/
def enter (f : Finder) (stop pos : Nat) : Machine Finder := do
  if pos < stop then
    let bucket ← hash f.src f.hashLog pos
    let last ← load f.head bucket
    let link ← gap pos last
    let link := if f.mask < link then 0 else link
    let chain ← store f.chain (pos &&& f.mask) (link % UInt32.size)
    let head ← store f.head bucket (← add 64 pos 1)
    (⟨f.src, head, chain, f.mask, f.hashLog, f.next⟩ : Finder) |>.enter stop (← add 64 pos 1)
  else
    return f
partial_fixpoint

def insertUpTo (f : Finder) (target : Nat) : Machine Finder := do
  let stop := min target (f.src.size - (minMatch - 1))
  let f ← f.enter stop f.next
  return ⟨f.src, f.head, f.chain, f.mask, f.hashLog, if f.next < target then target else f.next⟩

/-- Lets `visit` see the position `c`, if it lies before `pos`. The result is what `visit` makes of it,
what is left of the budget, and whether this was the last position to look at. -/
def look {β : Type} (f : Finder) (pos : Nat) (visit : β → Nat → Machine (β × Bool)) (c budget : Nat)
    (acc : β) : Machine (β × Nat × Bool) := do
  if c < pos then
    if f.mask < (← sub pos c) then
      return (acc, budget, true)
    else
      let budget ← sub budget 1
      let (acc, stop) ← visit acc c
      return (acc, budget, stop)
  else
    return (acc, budget, false)

/-- Goes back along a chain from the position before `entry`. -/
def walk {β : Type} (f : Finder) (pos : Nat) (visit : β → Nat → Machine (β × Bool))
    (entry budget : Nat) (acc : β) : Machine β := do
  if entry = 0 ∨ budget = 0 then
    return acc
  else
    let c ← sub entry 1
    let link ← load f.chain (c &&& f.mask)
    let (acc, budget, stop) ← f.look pos visit c budget acc
    if stop ∨ link = 0 ∨ c < link then
      return acc
    else
      f |>.walk pos visit (← sub entry link) budget acc
partial_fixpoint

/-- Visits the positions that share the bucket of `pos`, once all before `pos` are entered. -/
def fold {β : Type} (f : Finder) (pos depth : Nat) (visit : β → Nat → Machine (β × Bool)) (acc : β) :
    Machine (β × Finder) := do
  let f ← f.insertUpTo pos
  let entry ← load f.head (← hash f.src f.hashLog pos)
  return (← f.walk pos visit entry depth acc, f)

/-- The length and the distance of the better one of two matches, and whether it is as long as
allowed. -/
def improve (src : Bytes) (pos limit : Nat) (best : Nat × Nat) (c : Nat) :
    Machine ((Nat × Nat) × Bool) := do
  let a ← load src (← add 64 c best.1)
  let b ← load src (← add 64 pos best.1)
  if a ≠ b then
    return (best, false)
  else
    let length ← commonPrefix src c pos limit
    if best.1 < length then
      return ((length, ← sub pos c), length = limit)
    else
      return (best, best.1 = limit)

def newMatch (distance length : Nat) : Machine Match := do
  require (1 ≤ distance)
  require (minMatch ≤ length)
  return ⟨distance, length⟩

/-- The match of this length and distance, if there is one. -/
def found (best : Nat × Nat) : Machine (Option Match) := do
  if best.2 = 0 then
    return none
  else
    return some (← newMatch (best.2 % UInt32.size) (best.1 % UInt32.size))

def find (f : Finder) (pos depth : Nat) : Machine (Option Match × Finder) := do
  if depth = 0 then
    return (none, f)
  else if f.src.size < (← add 64 pos minMatch) then
    return (none, f)
  else
    let limit := min maxMatch (← sub f.src.size pos)
    let (best, f) ← f.fold pos depth (improve f.src pos limit) (minMatch - 1, 0)
    return (← found best, f)

/-- Whether the position `c` agrees with `pos` in `length` bytes. -/
def agrees (src : Bytes) (pos length : Nat) (found : Bool) (c : Nat) : Machine (Bool × Bool) := do
  let a ← load src (← sub (← add 64 c length) 1)
  let b ← load src (← sub (← add 64 pos length) 1)
  if a ≠ b then
    return (found, false)
  else
    let found := decide ((← commonPrefix src c pos length) = length)
    return (found, found)

def reaches (f : Finder) (pos length depth : Nat) : Machine (Bool × Finder) := do
  let length := max length minMatch
  if depth = 0 ∨ maxMatch < length then
    return (false, f)
  else if f.src.size < (← add 64 pos length) then
    return (false, f)
  else
    f.fold pos depth (agrees f.src pos length) false

/-- The index on words that stands for `index`. -/
def of {src : Bytes} {g : Geometry} (index : Index src g) : Finder :=
  ⟨src, index.head.toArray, index.links.toArray, g.window - 1, g.hashLog, index.next⟩

end Finder

/-! ## Geometry -/

/-- A window that is a power of two, so that places in it are found by a mask. -/
structure Masked (g : Geometry) : Prop where
  window : ∃ k ≤ maxWindowLog, g.window = 2 ^ k
  hashLog_pos : 0 < g.hashLog

theorem Masked.window_le {g : Geometry} (h : Masked g) : g.window ≤ 2 ^ maxWindowLog := by
  obtain ⟨k, hk, hwindow⟩ := h.window
  rw [hwindow]
  exact Nat.pow_le_pow_right (by decide) hk

theorem Masked.and_mask {g : Geometry} (h : Masked g) (pos : Nat) :
    pos &&& (g.window - 1) = pos % g.window := by
  obtain ⟨k, -, hwindow⟩ := h.window
  rw [hwindow]
  exact Nat.and_two_pow_sub_one_eq_mod pos k

theorem masked_ofSize (size : Nat) : Masked (Geometry.ofSize size) where
  window := ⟨Geometry.windowLog size, Nat.min_le_left _ _, rfl⟩
  hashLog_pos := by
    have hmin : 0 < minHashLog := by decide
    have hmax : 0 < maxHashLog := by decide
    simp only [Geometry.ofSize]
    omega

theorem clamp_two_pow (low high n : Nat) :
    clamp (2 ^ low) (2 ^ high) (2 ^ n) = 2 ^ clamp low high n := by
  have mono {a b : Nat} (h : a ≤ b) : 2 ^ a ≤ 2 ^ b := Nat.pow_le_pow_right (by decide) h
  have hmax : max (2 ^ low) (2 ^ n) = 2 ^ max low n := by
    by_cases h : low ≤ n
    · rw [Nat.max_eq_right h, Nat.max_eq_right (mono h)]
    · rw [Nat.max_eq_left (Nat.le_of_not_le h), Nat.max_eq_left (mono (Nat.le_of_not_le h))]
  unfold clamp
  rw [hmax]
  by_cases h : high ≤ max low n
  · rw [Nat.min_eq_left h, Nat.min_eq_left (mono h)]
  · rw [Nat.min_eq_right (Nat.le_of_not_le h), Nat.min_eq_right (mono (Nat.le_of_not_le h))]

theorem nextPowerOfTwo_eq {width n : Nat} (h : n ≤ 2 ^ (width - 1)) (hwidth : 0 < width) :
    nextPowerOfTwo width n = pure (2 ^ Geometry.ceilLog n) := by
  have hlog : Geometry.ceilLog n < width := by
    unfold Geometry.ceilLog
    split
    · exact hwidth
    · have hlt : (n - 1).log2 < width - 1 := (Nat.log2_lt (by omega)).2 (by omega)
      omega
  exact if_pos (Nat.pow_lt_pow_right (by decide) hlog)

theorem Finder.new_eq {src : Bytes} (small : src.size < 2 ^ maxArrayLog) :
    new src = pure (of (Index.ofSource src)) := by
  have hpower : nextPowerOfTwo 64 src.size = pure (2 ^ Geometry.ceilLog src.size) := by
    simp only [maxArrayLog] at small
    exact nextPowerOfTwo_eq (by omega) (by decide)
  have hlog : clamp minWindowLog maxWindowLog (Geometry.ceilLog src.size) =
    Geometry.windowLog src.size := rfl
  have hwindowLog : Geometry.windowLog src.size ≤ maxWindowLog := Nat.min_le_left _ _
  have hhashLog : (Geometry.ofSize src.size).hashLog ≤ maxHashLog := Nat.min_le_left _ _
  have hzeros : trailingZeros (2 ^ Geometry.windowLog src.size) 64 = Geometry.windowLog src.size :=
    trailingZeros_two_pow (Nat.lt_of_le_of_lt hwindowLog (by decide))
  have hheads : shiftLeft 64 1 (Geometry.ofSize src.size).hashLog =
      pure (2 ^ (Geometry.ofSize src.size).hashLog) := by
    have hlt := Nat.lt_of_le_of_lt hhashLog (show maxHashLog < 64 by decide)
    rw [shiftLeft_of_lt hlt, Nat.one_mul, Nat.mod_eq_of_lt (Nat.pow_lt_pow_right (by decide) hlt)]
  have hclamp : clamp minHashLog maxHashLog (Geometry.windowLog src.size - bucketLog) =
    (Geometry.ofSize src.size).hashLog := rfl
  unfold new
  rw [hpower, pure_bind, clamp_two_pow, hlog]
  dsimp only
  rw [hzeros, hclamp, hheads, pure_bind, sub_of_le (Nat.two_pow_pos _), pure_bind]
  rfl

/-! ## Entering positions -/

section

variable {src : Bytes} {g : Geometry}

theorem load_toArray {α : Type} {n : Nat} (xs : Vector α n) {i : Nat} (h : i < n) :
    load xs.toArray i = pure xs[i] :=
  load_of_lt (by rw [xs.size_toArray]; exact h)

theorem store_toArray {α : Type} {n : Nat} (xs : Vector α n) {i : Nat} (h : i < n) (x : α) :
    store xs.toArray i x = pure (xs.set i x h).toArray :=
  store_of_lt (by rw [xs.size_toArray]; exact h)

theorem gap_eq {pos last : Nat} (hpos : pos < 2 ^ maxArrayLog) (hlast : last ≤ pos) :
    Finder.gap pos last = pure (if last = 0 then 0 else pos + 1 - last) := by
  simp only [maxArrayLog] at hpos
  unfold Finder.gap
  by_cases hzero : last = 0
  · rw [if_pos hzero, if_pos hzero]
  · rw [if_neg hzero, if_neg hzero, add_of_lt (by omega), pure_bind, sub_of_le (by omega)]

/-- A link is cut where it would lead out of the window. -/
theorem cut_eq (hg : Masked g) (pos last : Nat) :
    (if g.window - 1 < if last = 0 then 0 else pos + 1 - last then 0
        else if last = 0 then 0 else pos + 1 - last) % UInt32.size =
      Index.linkTo g.window pos last := by
  have hwindow := hg.window_le
  have hpositive := g.window_pos
  have hlog : 2 ^ maxWindowLog = 16777216 := by decide
  have h32 : UInt32.size = 4294967296 := rfl
  unfold Index.linkTo
  by_cases hzero : last = 0
  · rw [if_pos hzero, if_neg (Nat.not_lt_zero _), if_pos (Or.inl hzero)]
    rfl
  · rw [if_neg hzero]
    by_cases hfar : g.window ≤ pos + 1 - last
    · rw [if_pos (show g.window - 1 < pos + 1 - last by omega), if_pos (.inr hfar)]
      rfl
    · rw [if_neg (show ¬ g.window - 1 < pos + 1 - last by omega), if_neg (by omega)]
      exact Nat.mod_eq_of_lt (by omega)

theorem enter_eq (small : src.size < 2 ^ maxArrayLog) (hg : Masked g) (target next : Nat)
    {head : Vector Nat (2 ^ g.hashLog)} {links : Vector Nat g.window} {pos : Nat}
    (h : (⟨head, links, pos⟩ : Index src g).Faithful) :
    Finder.enter ⟨src, head.toArray, links.toArray, g.window - 1, g.hashLog, next⟩
        (min target (src.size - (minMatch - 1))) pos =
      pure ⟨src, (Index.enter src g target head links pos).1.toArray,
        (Index.enter src g target head links pos).2.toArray, g.window - 1, g.hashLog, next⟩ := by
  induction hn : src.size - pos using Nat.strongRecOn generalizing head links pos with
  | ind n ih =>
    have hword := small
    simp only [maxArrayLog] at hword
    have hmin : minMatch = 4 := rfl
    rw [Finder.enter]
    by_cases hnext : pos < target ∧ pos + 4 ≤ src.size
    · have hbucket := src.bucket_lt pos hnext.2 g.hashLog_le
      have hplace : pos % g.window < g.window := Nat.mod_lt _ g.window_pos
      have hlast : head[src.bucket g.hashLog pos hnext.2] ≤ pos := by
        rw [h.head _ hbucket]
        exact Index.entry_chain_le _ pos
      rw [if_pos (show pos < min target (src.size - (minMatch - 1)) by omega),
        Index.enter_of_lt head links hnext.2 hbucket hplace hnext.1,
        hash_eq small ⟨hg.hashLog_pos, g.hashLog_le⟩ hnext.2, pure_bind]
      dsimp only
      have hpos : pos < 2 ^ maxArrayLog := by
        simp only [maxArrayLog]
        omega
      have hstep := ih _ (by omega)
        (h.enter_one hbucket (Bytes.bucket?_of_le hnext.2) hplace) rfl
      rw [load_toArray head hbucket, pure_bind, gap_eq hpos hlast, pure_bind, hg.and_mask, cut_eq hg,
        store_toArray links hplace, pure_bind, add_of_lt (by omega), pure_bind,
        store_toArray head hbucket, pure_bind, pure_bind]
      exact hstep
    · rw [if_neg (show ¬ pos < min target (src.size - (minMatch - 1)) by omega),
        Index.enter_of_end head links (by omega)]

/-- Entering positions overflows nowhere, however far the target lies. -/
theorem insertUpTo_eq (small : src.size < 2 ^ maxArrayLog) (hg : Masked g) {index : Index src g}
    (h : index.Faithful) (target : Nat) :
    (Finder.of index).insertUpTo target = pure (Finder.of (index.insertUpTo target)) := by
  cases index with | mk head links next =>
  have hrun := enter_eq small hg target next h
  have hnext : (if next < target then target else next) = max next target := by
    by_cases hlt : next < target
    · rw [if_pos hlt, Nat.max_eq_right (Nat.le_of_lt hlt)]
    · rw [if_neg hlt, Nat.max_eq_left (Nat.le_of_not_lt hlt)]
  simp only [Finder.insertUpTo, Finder.of, hrun, pure_bind, hnext]
  rfl

/-! ## Searching -/

section

variable {β γ : Type} {rep : β → γ} {P : β → Prop} {pos : Nat} {visit : β → (c : Nat) → c < pos → β}
  {stop : β → Bool} {visit' : γ → Nat → Machine (γ × Bool)}

/-- As long as `P` holds, each visit on words has the outcome of a visit, and `P` holds until the last
one. -/
def Alike (g : Geometry) (rep : β → γ) (P : β → Prop) (visit : β → (c : Nat) → c < pos → β)
    (stop : β → Bool) (visit' : γ → Nat → Machine (γ × Bool)) : Prop :=
  ∀ acc c (hc : c < pos), pos - c < g.window → P acc →
    visit' (rep acc) c = pure (rep (visit acc c hc), stop (visit acc c hc)) ∧
      (stop (visit acc c hc) = false → P (visit acc c hc))

/-- A look at one position has the same outcome as in a walk: it is the last one, or the walk goes on
from the position before. -/
theorem look_eq (index : Index src g) (visits : Alike g rep P visit stop visit') {budget : Nat}
    (hbudget : budget ≠ 0) (c : Nat) {acc : β} (start : P acc) :
    ∃ acc' budget' last,
      (Finder.of index).look pos visit' c budget (rep acc) = pure (rep acc', budget', last) ∧
      index.walk pos visit stop (c + 1) budget acc =
        (if last then acc' else index.walk pos visit stop (index.previous c) budget' acc') ∧
      (last = false → P acc') := by
  have hpositive := g.window_pos
  have hmask : (Finder.of index).mask = g.window - 1 := rfl
  rw [Index.walk, if_neg hbudget]
  unfold Finder.look
  by_cases hc : c < pos
  · rw [if_pos hc, dif_pos hc, sub_of_le (Nat.le_of_lt hc), pure_bind, hmask]
    by_cases hfar : g.window ≤ pos - c
    · rw [if_pos hfar, if_pos (show g.window - 1 < pos - c by omega)]
      exact ⟨acc, budget, true, rfl, rfl, Bool.noConfusion⟩
    · obtain ⟨hvisit, hkeep⟩ := visits acc c hc (Nat.lt_of_not_le hfar) start
      rw [if_neg hfar, if_neg (show ¬ g.window - 1 < pos - c by omega), sub_of_le (by omega), pure_bind,
        hvisit, pure_bind]
      exact ⟨visit acc c hc, budget - 1, stop (visit acc c hc), rfl, rfl, hkeep⟩
  · rw [if_neg hc, dif_neg hc]
    exact ⟨acc, budget, false, rfl, rfl, fun _ => start⟩

/-- A walk on words sees the same positions as a walk, if it visits each of them alike. -/
theorem walk_eq (hg : Masked g) (index : Index src g) (visits : Alike g rep P visit stop visit')
    (entry budget : Nat) {acc : β} (start : P acc) :
    (Finder.of index).walk pos visit' entry budget (rep acc) =
      pure (rep (index.walk pos visit stop entry budget acc)) := by
  induction entry using Nat.strongRecOn generalizing budget acc with
  | ind entry ih =>
    cases entry with
    | zero => rw [Finder.walk, if_pos (.inl rfl), Index.walk]
    | succ c =>
      rw [Finder.walk]
      by_cases hbudget : budget = 0
      · rw [if_pos (.inr hbudget), Index.walk, if_pos hbudget]
      · have hback := Nat.lt_succ_of_le (index.previous_le c)
        have hplace : c % g.window < g.window := Nat.mod_lt _ g.window_pos
        have hprevious : index.previous c =
          if index.links[c % g.window] = 0 ∨ c < index.links[c % g.window] then 0
          else c + 1 - index.links[c % g.window] := rfl
        have hlink : load (Finder.of index).chain (c &&& (Finder.of index).mask) =
            pure index.links[c % g.window] := by
          have hmask : c &&& (Finder.of index).mask = c % g.window := hg.and_mask c
          rw [hmask]
          exact load_toArray index.links hplace
        obtain ⟨acc', budget', last, hlook, hwalk, hkeep⟩ := look_eq index visits hbudget c start
        rw [if_neg (by omega), sub_of_le (Nat.le_add_left 1 c), pure_bind, Nat.add_sub_cancel, hlink,
          pure_bind, hlook, pure_bind, hwalk]
        dsimp only
        cases last with
        | true => exact if_pos (.inl rfl)
        | false =>
          rw [if_neg Bool.false_ne_true]
          by_cases hend : index.links[c % g.window] = 0 ∨ c < index.links[c % g.window]
          · rw [if_pos (.inr hend), hprevious, if_pos hend, Index.walk]
          · rw [if_neg hend] at hprevious
            rw [if_neg (fun h => h.elim Bool.noConfusion hend), sub_of_le (by omega), pure_bind, ← hprevious]
            exact ih _ hback budget' (hkeep rfl)

/-- Where a query visits alike, it ends alike, and both indexes enter the same positions for it. -/
theorem fold_eq (small : src.size < 2 ^ maxArrayLog) (hg : Masked g) {index : Index src g}
    (h : index.Faithful) (hpos : pos + minMatch ≤ src.size) (visits : Alike g rep P visit stop visit')
    (depth : Nat) {acc : β} (start : P acc) :
    (Finder.of index).fold pos depth visit' (rep acc) =
      pure (rep ((index.insertUpTo pos).fold pos hpos visit stop depth acc),
        Finder.of (index.insertUpTo pos)) := by
  have hbucket := src.bucket_lt pos hpos g.hashLog_le
  have hhash : hash (Finder.of (index.insertUpTo pos)).src (Finder.of (index.insertUpTo pos)).hashLog pos =
    pure (src.bucket g.hashLog pos hpos) := hash_eq small ⟨hg.hashLog_pos, g.hashLog_le⟩ hpos
  have hhead : load (Finder.of (index.insertUpTo pos)).head (src.bucket g.hashLog pos hpos) =
    pure (index.insertUpTo pos).head[src.bucket g.hashLog pos hpos] := load_toArray _ hbucket
  unfold Finder.fold
  rw [insertUpTo_eq small hg h pos, pure_bind, hhash, pure_bind, hhead, pure_bind,
    walk_eq hg (index.insertUpTo pos) visits _ depth start, pure_bind]
  rfl

end

/-- The length that a match has to exceed, and its distance or 0. -/
def measure (best : Option Match) : Nat × Nat :=
  (Index.lengthToBeat best, match best with | none => 0 | some m => m.distance)

theorem improve_eq (small : src.size < 2 ^ maxArrayLog) {pos limit : Nat} (hl : pos + limit ≤ src.size)
    {best : Option Match} (hbest : Index.lengthToBeat best < limit) {c : Nat} (hc : c < pos) :
    Finder.improve src pos limit (measure best) c = pure (measure (Index.improve src pos limit hl best c hc),
        Index.lengthToBeat (Index.improve src pos limit hl best c hc) == limit) ∧
      Index.lengthToBeat (Index.improve src pos limit hl best c hc) ≤ limit := by
  have hcommon := commonPrefix_eq small hc hl
  have hagree : src.agree c pos limit hc hl ≤ limit := by
    rw [Bytes.agree_eq_common]
    exact Bytes.common_le
  have hfirst : (measure best).1 = Index.lengthToBeat best := rfl
  have hshort : (Index.lengthToBeat best == limit) = false := beq_eq_false_iff_ne.2 (Nat.ne_of_lt hbest)
  simp only [maxArrayLog] at small
  unfold Finder.improve Index.improve
  dsimp only
  rw [dif_pos hbest, hfirst, add_of_lt (by omega), pure_bind,
    load_of_lt (show c + Index.lengthToBeat best < src.size by omega), pure_bind,
    add_of_lt (by omega), pure_bind,
    load_of_lt (show pos + Index.lengthToBeat best < src.size by omega), pure_bind]
  by_cases heq : src[c + Index.lengthToBeat best] = src[pos + Index.lengthToBeat best]
  · rw [if_neg (not_not_intro heq), if_pos (beq_iff_eq.2 heq), hcommon, pure_bind]
    by_cases hlonger : Index.lengthToBeat best < src.agree c pos limit hc hl
    · rw [if_pos hlonger, if_pos hlonger, sub_of_le (Nat.le_of_lt hc), pure_bind]
      exact ⟨rfl, hagree⟩
    · rw [if_neg hlonger, if_neg hlonger]
      exact ⟨rfl, Nat.le_of_lt hbest⟩
  · rw [if_pos heq, if_neg (fun h => heq (beq_iff_eq.1 h)), hshort]
    exact ⟨rfl, Nat.le_of_lt hbest⟩

theorem alike_improve (small : src.size < 2 ^ maxArrayLog) {pos limit : Nat}
    (hl : pos + limit ≤ src.size) :
    Alike g measure (fun best => Index.lengthToBeat best < limit) (Index.improve src pos limit hl)
      (fun best => Index.lengthToBeat best == limit) (Finder.improve src pos limit) := by
  intro best c hc _ hbest
  obtain ⟨hrun, hle⟩ := improve_eq small hl hbest hc
  exact ⟨hrun, fun hstop => Nat.lt_of_le_of_ne hle (beq_eq_false_iff_ne.1 hstop)⟩

/-- A repeat ends before the source does, and so does what it repeats. -/
theorem last_lt {pos length c : Nat} (h : minMatch ≤ length ∧ pos + length ≤ src.size) (hc : c ≤ pos) :
    c + length - 1 < src.size := by
  have hmin : minMatch = 4 := rfl
  omega

/-- The second question is asked of each position in the same way. -/
theorem alike_agrees (small : src.size < 2 ^ maxArrayLog) {pos length : Nat}
    (h : minMatch ≤ length ∧ pos + length ≤ src.size) :
    Alike g id (fun found => found = false)
      (fun _ c (hc : c < pos) =>
        have := last_lt h (Nat.le_of_lt hc)
        have := last_lt h (Nat.le_refl pos)
        src[c + length - 1] == src[pos + length - 1] && src.agree c pos length hc h.2 == length)
      id (Finder.agrees src pos length) := by
  intro found c hc _ hfound
  have hmin : minMatch = 4 := rfl
  have hcommon := commonPrefix_eq small hc h.2
  have hlast := last_lt h (Nat.le_of_lt hc)
  have hlast' := last_lt h (Nat.le_refl pos)
  simp only [maxArrayLog] at small
  refine ⟨?_, fun hstop => hstop⟩
  dsimp only [id]
  unfold Finder.agrees
  rw [add_of_lt (by omega), pure_bind, sub_of_le (by omega), pure_bind, load_of_lt hlast, pure_bind,
    add_of_lt (by omega), pure_bind, sub_of_le (by omega), pure_bind, load_of_lt hlast', pure_bind]
  by_cases heq : src[c + length - 1] = src[pos + length - 1]
  · rw [if_neg (not_not_intro heq), hcommon, pure_bind, beq_iff_eq.2 heq, Bool.true_and]
    rfl
  · rw [if_pos heq, beq_eq_false_iff_ne.2 heq, Bool.false_and, hfound]

end

section

variable {src : Bytes} {index : Index src (Geometry.ofSize src.size)} {pos : Nat}

theorem found_measure {best : Option Match} (h : ∀ m, best = some m → m.Repeats src pos) :
    Finder.found (measure best) = pure best := by
  cases best with
  | none => rfl
  | some m =>
    have hm := h m rfl
    have hdistance := hm.distance_pos
    have hlt := hm.distance_lt
    have hlength := hm.length_le
    simp only [maxWindowLog] at hlt
    simp only [maxMatch] at hlength
    have hne : (measure (some m)).2 ≠ 0 := Nat.ne_of_gt hdistance
    have hsecond : (measure (some m)).2 % UInt32.size = m.distance :=
      Nat.mod_eq_of_lt (Nat.lt_trans hlt (by decide))
    have hfirst : (measure (some m)).1 % UInt32.size = m.length :=
      Nat.mod_eq_of_lt (Nat.lt_of_le_of_lt hlength (by decide))
    have hnew : Finder.newMatch m.distance m.length = pure m := by
      unfold Finder.newMatch
      rw [require_of hm.distance_pos, pure_bind, require_of hm.minMatch_le, pure_bind]
    unfold Finder.found
    rw [if_neg hne, hsecond, hfirst, hnew, pure_bind]

/-- A search ends without a fault and finds the match that the index finds. -/
theorem find_eq (small : src.size < 2 ^ maxArrayLog) (h : index.Faithful) (hpos : pos ≤ src.size + 2)
    (depth : Nat) :
    (Finder.of index).find pos depth =
      pure ((Index.find pos depth index).1, Finder.of (Index.find pos depth index).2) := by
  have hmin : minMatch = 4 := rfl
  have hmax : maxMatch = 65536 := rfl
  have hsize : (Finder.of index).src.size = src.size := rfl
  have hword := small
  simp only [maxArrayLog] at hword
  unfold Finder.find
  by_cases hdepth : depth = 0
  · rw [if_pos hdepth, Index.find, dif_neg (by omega)]
  · rw [if_neg hdepth, add_of_lt (by omega), pure_bind, hsize]
    by_cases hfits : pos + minMatch ≤ src.size
    · have hlimit : pos + min maxMatch (src.size - pos) ≤ src.size := by omega
      have hstart : Index.lengthToBeat none < min maxMatch (src.size - pos) := by
        simp only [Index.lengthToBeat]
        omega
      have hfold := fold_eq small (masked_ofSize src.size) h hfits (alike_improve small hlimit) depth hstart
      have hfind : Index.find pos depth index =
          ((index.insertUpTo pos).longest pos depth hfits, index.insertUpTo pos) :=
        dif_pos ⟨Nat.pos_of_ne_zero hdepth, hfits⟩
      have hfound : Finder.found (measure ((index.insertUpTo pos).longest pos depth hfits)) =
          pure ((index.insertUpTo pos).longest pos depth hfits) :=
        found_measure fun m hm => Index.repeats_of_find ((congrArg Prod.fst hfind).trans hm)
      rw [if_neg (by omega), sub_of_le (by omega), pure_bind]
      refine (congrArg (· >>= _) hfold).trans ?_
      rw [hfind, pure_bind]
      exact congrArg (· >>= _) hfound
    · rw [if_pos (by omega), Index.find, dif_neg (by omega)]

/-- The second question ends without a fault as well, with the answer of the index. -/
theorem reaches_eq (small : src.size < 2 ^ maxArrayLog) (h : index.Faithful) (hpos : pos ≤ src.size + 2)
    (length depth : Nat) :
    (Finder.of index).reaches pos length depth =
      pure ((Index.reaches pos length depth index).1,
        Finder.of (Index.reaches pos length depth index).2) := by
  have hmin : minMatch = 4 := rfl
  have hmax : maxMatch = 65536 := rfl
  have hsize : (Finder.of index).src.size = src.size := rfl
  have hword := small
  simp only [maxArrayLog] at hword
  unfold Finder.reaches
  dsimp only
  by_cases hasked : depth = 0 ∨ maxMatch < max length minMatch
  · rw [if_pos hasked, Index.reaches, dif_neg (by omega)]
  · rw [if_neg hasked, add_of_lt (by omega), pure_bind, hsize]
    by_cases hfits : pos + max length minMatch ≤ src.size
    · have hreaches : Index.reaches pos length depth index =
          ((index.insertUpTo pos).hasRepeat pos (max length minMatch) depth
            ⟨Nat.le_max_right _ _, hfits⟩, index.insertUpTo pos) :=
        dif_pos ⟨by omega, by omega, hfits⟩
      rw [if_neg (by omega), hreaches]
      exact fold_eq small (masked_ofSize src.size) h (by omega)
        (alike_agrees small ⟨Nat.le_max_right _ _, hfits⟩) depth rfl
    · rw [if_pos (by omega), Index.reaches, dif_neg (by omega)]

end

end Machine

end LzCodec
