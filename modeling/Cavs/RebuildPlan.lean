import Cavs.Fetch
import Mathlib.Algebra.BigOperators.Group.List.Basic

/-!
# Hybrid reconstruction plans

For every chunk of an output the planner picks the cheapest source that has it: the
previous artifact, the cache or the origin. Neighbouring reads of the previous artifact
become one range whose parts keep their own hashes.
-/
namespace Cavs.Rebuild
open Option (bind_eq_some_iff)

/-- What a sum of 64-bit numbers beyond the last one does: it panics in a debug build and
wraps in a release build. -/
inductive Overflow where
  | checked
  | wraps
  deriving DecidableEq, Repr

/-- A sum; `none` is a panic. -/
def Overflow.add (m : Overflow) (a b : UInt64) : Option UInt64 :=
  match m with
  | .checked => if a.toNat + b.toNat < 2 ^ 64 then some (a + b) else none
  | .wraps => some (a + b)

section Defs

/-- Ranges of the previous artifact are not joined beyond this length. -/
def maxCoalescedRange : UInt64 := 8 * 1024 * 1024

/-- A slice of a range with a hash of its own. -/
structure PlanPart where
  len : UInt32
  blake3 : String
  deriving DecidableEq, Repr

inductive RebuildOp where
  | copyPreviousRange (sourceOffset outputOffset len : UInt64) (parts : List PlanPart)
  | copyCacheChunk (chunkHash : String) (outputOffset : UInt64) (len : UInt32)
  | fetchNetworkChunk (chunkHash : String) (outputOffset : UInt64) (len : UInt32)
  deriving DecidableEq, Repr

def RebuildOp.outputRange : RebuildOp → UInt64 × UInt64
  | .copyPreviousRange _ outputOffset len _ => (outputOffset, len)
  | .copyCacheChunk _ outputOffset len => (outputOffset, len.toUInt64)
  | .fetchNetworkChunk _ outputOffset len => (outputOffset, len.toUInt64)

/-- The sums are parts of the running output offset, and are not checked apart from it. -/
structure PlanStats where
  opsTotal : UInt64
  opsBeforeCoalescing : UInt64
  coalescedOps : UInt64
  copyPreviousRangeOps : UInt64
  copyCacheChunkOps : UInt64
  fetchChunkOps : UInt64
  previousArtifactBytes : UInt64
  cacheChunkBytes : UInt64
  networkBytes : UInt64
  deriving DecidableEq, Repr

def PlanStats.zero : PlanStats := ⟨0, 0, 0, 0, 0, 0, 0, 0, 0⟩

structure ReconstructionPlan where
  asset : String
  outputName : String
  targetSize : UInt64
  ops : List RebuildOp
  stats : PlanStats
  deriving DecidableEq, Repr

structure NeededChunk where
  hash : String
  len : UInt32
  outputOffset : UInt64
  deriving DecidableEq, Repr

inductive Availability where
  | cache
  | previous (sourceOffset : UInt64)
  | both (sourceOffset : UInt64)
  | missing
  deriving DecidableEq, Repr

/-- The relative cost of a source; the lengths have 32 bits, so no cost overflows. -/
def score (networkBytes diskReadBytes seeks verify : UInt64) : UInt64 :=
  networkBytes * 100 + diskReadBytes + seeks * 4096 + verify * 512

/-- The planner's state; the latest operation comes first. -/
structure PlanRun where
  ops : List RebuildOp
  targetSize : UInt64
  prevSourceEnd : Option UInt64
  stats : PlanStats
  deriving DecidableEq, Repr

def PlanRun.start : PlanRun := ⟨[], 0, none, .zero⟩

variable (m : Overflow)

/-- Whether a range goes on where another ends, in the source and in the output. -/
def continues (sourceOffset outputOffset len : UInt64) (offset : UInt64) (c : NeededChunk) : Option Bool := do
  if (← m.add sourceOffset len) ≠ offset then return false
  if (← m.add outputOffset len) ≠ c.outputOffset then return false
  return decide ((← m.add len c.len.toUInt64) ≤ maxCoalescedRange)

/-- Lengthen the latest range by a chunk, or begin a new one. -/
def pushRange (ops : List RebuildOp) (offset : UInt64) (c : NeededChunk) : Option (List RebuildOp) :=
  let part : PlanPart := ⟨c.len, c.hash⟩
  let fresh := .copyPreviousRange offset c.outputOffset c.len.toUInt64 [part] :: ops
  match ops with
  | .copyPreviousRange sourceOffset outputOffset len parts :: earlier => do
      if ← continues m sourceOffset outputOffset len offset c then
        return .copyPreviousRange sourceOffset outputOffset (len + c.len.toUInt64) (parts ++ [part]) :: earlier
      else return fresh
  | _ => some fresh

def fromPrevious (s : PlanRun) (offset : UInt64) (c : NeededChunk) : Option PlanRun := do
  let sourceEnd ← m.add offset c.len.toUInt64
  let ops ← pushRange m s.ops offset c
  return { s with
    ops
    prevSourceEnd := some sourceEnd
    stats := { s.stats with
      copyPreviousRangeOps := s.stats.copyPreviousRangeOps + 1
      previousArtifactBytes := s.stats.previousArtifactBytes + c.len.toUInt64 } }

def fromCache (s : PlanRun) (c : NeededChunk) : PlanRun :=
  { s with
    ops := .copyCacheChunk c.hash c.outputOffset c.len :: s.ops
    prevSourceEnd := none
    stats := { s.stats with
      copyCacheChunkOps := s.stats.copyCacheChunkOps + 1
      cacheChunkBytes := s.stats.cacheChunkBytes + c.len.toUInt64 } }

def fromNetwork (s : PlanRun) (c : NeededChunk) : PlanRun :=
  { s with
    ops := .fetchNetworkChunk c.hash c.outputOffset c.len :: s.ops
    prevSourceEnd := none
    stats := { s.stats with
      fetchChunkOps := s.stats.fetchChunkOps + 1
      networkBytes := s.stats.networkBytes + c.len.toUInt64 } }

/-- Ties go to the previous artifact. -/
def prefersPrevious (s : PlanRun) (offset : UInt64) (c : NeededChunk) : Bool :=
  let seeks := if s.prevSourceEnd = some offset then 0 else 1
  decide (score 0 c.len.toUInt64 seeks 1 ≤ score 0 c.len.toUInt64 1 1)

variable (availability : NeededChunk → Option Availability)

def planChunk (s : PlanRun) (c : NeededChunk) : Option PlanRun := do
  let stop ← m.add c.outputOffset c.len.toUInt64
  let s := { s with
    targetSize := max s.targetSize stop
    stats := { s.stats with opsBeforeCoalescing := s.stats.opsBeforeCoalescing + 1 } }
  match ← availability c with
  | .missing => return fromNetwork s c
  | .cache => return fromCache s c
  | .previous offset => fromPrevious m s offset c
  | .both offset => if prefersPrevious s offset c then fromPrevious m s offset c else return fromCache s c

def planEach : List NeededChunk → PlanRun → Option PlanRun
  | [], s => return s
  | c :: rest, s => do planEach rest (← planChunk m availability s c)

def plan (asset outputName : String) (chunks : List NeededChunk) : Option ReconstructionPlan := do
  let s ← planEach m availability chunks .start
  let opsTotal := UInt64.ofNat s.ops.length
  return ⟨asset, outputName, s.targetSize, s.ops.reverse,
    { s.stats with opsTotal, coalescedOps := s.stats.opsBeforeCoalescing - opsTotal }⟩

/-- The membership test of the cache panics where it would cut a character. -/
def availabilityFromSets (cacheContains : String → Option Bool) (previous : String → Option UInt64) (c : NeededChunk) :
    Option Availability := do
  match ← cacheContains c.hash, previous c.hash with
  | true, some offset => return .both offset
  | false, some offset => return .previous offset
  | true, none => return .cache
  | false, none => return .missing

def partsLen : List PlanPart → UInt64 → Option UInt64
  | [], sum => return sum
  | p :: rest, sum => do partsLen rest (← m.add sum p.len.toUInt64)

def ofSum : Option UInt64 → Outcome String UInt64
  | some sum => .ok sum
  | none => .panics

def checkParts : RebuildOp → Outcome String Unit
  | .copyPreviousRange _ _ len parts => do
      let sum ← ofSum (partsLen m parts 0)
      if sum ≠ len then .error s!"coalesced range parts cover {sum} of {len} bytes" else pure ()
  | _ => pure ()

def validateOps : List RebuildOp → (at_ : UInt64) → Outcome String UInt64
  | [], at_ => pure at_
  | op :: rest, at_ => do
      let (offset, len) := op.outputRange
      if offset ≠ at_ then .error s!"plan gap/overlap at output offset {at_} (op starts at {offset})"
      else do
        checkParts m op
        validateOps rest (← ofSum (m.add at_ len))

def validate (p : ReconstructionPlan) : Outcome String Unit := do
  let covered ← validateOps m p.ops 0
  if covered ≠ p.targetSize then .error s!"plan covers {covered} of {p.targetSize} target bytes" else pure ()

end Defs

section Sums
variable {m : Overflow} {a b c : UInt64}

theorem add_some (h : m.add a b = some c) : c = a + b := by
  cases m with
  | checked =>
      rw [Overflow.add] at h
      split at h
      · exact (Option.some.inj h).symm
      · cases h
  | wraps => exact (Option.some.inj h).symm

theorem add_of_lt (fits : a.toNat + b.toNat < 2 ^ 64) : m.add a b = some (a + b) := by
  cases m with
  | checked => exact if_pos fits
  | wraps => rfl

theorem fits_of_checked (h : Overflow.checked.add a b = some c) : a.toNat + b.toNat < 2 ^ 64 := by
  rw [Overflow.add] at h
  split at h
  · assumption
  · cases h

theorem toNat_add_of_lt (fits : a.toNat + b.toNat < 2 ^ 64) : (a + b).toNat = a.toNat + b.toNat := by
  rw [UInt64.toNat_add, Nat.mod_eq_of_lt fits]

end Sums

section Pieces

/-- The lengths and hashes of the chunks an operation stands for. -/
def RebuildOp.pieces : RebuildOp → List (UInt32 × String)
  | .copyPreviousRange _ _ _ parts => parts.map fun p => (p.len, p.blake3)
  | .copyCacheChunk hash _ len => [(len, hash)]
  | .fetchNetworkChunk hash _ len => [(len, hash)]

def NeededChunk.piece (c : NeededChunk) : UInt32 × String := (c.len, c.hash)

def partsTotal (parts : List PlanPart) : Nat := (parts.map fun p => p.len.toNat).sum

/-- The parts of a range cover it, and a long range has one part. -/
def RebuildOp.Whole : RebuildOp → Prop
  | .copyPreviousRange _ _ len parts =>
      partsTotal parts = len.toNat ∧ (len.toNat ≤ maxCoalescedRange.toNat ∨ parts.length = 1)
  | _ => True

@[simp] theorem pieces_range (sourceOffset outputOffset len : UInt64) (parts : List PlanPart) :
    (RebuildOp.copyPreviousRange sourceOffset outputOffset len parts).pieces = parts.map fun p => (p.len, p.blake3) := rfl

@[simp] theorem partsTotal_append (parts : List PlanPart) (p : PlanPart) :
    partsTotal (parts ++ [p]) = partsTotal parts + p.len.toNat := by
  simp [partsTotal]

/-- The operations so far, latest first, stand for the chunks so far. -/
structure PlanRun.Covers (s : PlanRun) (done : List NeededChunk) : Prop where
  pieces : s.ops.reverse.flatMap RebuildOp.pieces = done.map NeededChunk.piece
  whole : ∀ op ∈ s.ops, op.Whole

theorem RebuildOp.Whole.short {sourceOffset outputOffset len : UInt64} {parts : List PlanPart}
    (h : (RebuildOp.copyPreviousRange sourceOffset outputOffset len parts).Whole) : len.toNat < 2 ^ 32 := by
  obtain ⟨cover, short | single⟩ := h
  · exact lt_of_le_of_lt short (by decide)
  · obtain ⟨p, rfl⟩ := List.length_eq_one_iff.mp single
    rw [← cover]
    simpa [partsTotal] using p.len.toNat_lt

end Pieces

section Step
variable {m : Overflow} {availability : NeededChunk → Option Availability} {s s' : PlanRun} {c : NeededChunk}
  {ops ops' : List RebuildOp} {offset : UInt64}

theorem continues_true {sourceOffset outputOffset len : UInt64}
    (h : continues m sourceOffset outputOffset len offset c = some true) :
    sourceOffset + len = offset ∧ outputOffset + len = c.outputOffset ∧ len + c.len.toUInt64 ≤ maxCoalescedRange := by
  obtain ⟨sourceEnd, source, h⟩ := bind_eq_some_iff.mp h
  split at h
  · simp at h
  · rename_i onSource
    obtain ⟨outputEnd, output, h⟩ := bind_eq_some_iff.mp h
    split at h
    · simp at h
    · rename_i onOutput
      obtain ⟨longer, sum, h⟩ := bind_eq_some_iff.mp h
      refine ⟨?_, ?_, ?_⟩
      · rw [← add_some source]
        exact not_not.mp onSource
      · rw [← add_some output]
        exact not_not.mp onOutput
      · rw [← add_some sum]
        simpa using h

/-- A pushed chunk is a range of its own, or it lengthens the latest one. -/
theorem pushRange_cases (h : pushRange m ops offset c = some ops') :
    ops' = .copyPreviousRange offset c.outputOffset c.len.toUInt64 [⟨c.len, c.hash⟩] :: ops ∨
    ∃ sourceOffset outputOffset len parts earlier,
      ops = .copyPreviousRange sourceOffset outputOffset len parts :: earlier ∧
      sourceOffset + len = offset ∧ outputOffset + len = c.outputOffset ∧ len + c.len.toUInt64 ≤ maxCoalescedRange ∧
      ops' = .copyPreviousRange sourceOffset outputOffset (len + c.len.toUInt64) (parts ++ [⟨c.len, c.hash⟩]) :: earlier := by
  unfold pushRange at h
  split at h
  · rename_i sourceOffset outputOffset len parts earlier
    obtain ⟨joins, test, h⟩ := bind_eq_some_iff.mp h
    cases joins with
    | false => exact .inl (Option.some.inj h).symm
    | true =>
        obtain ⟨source, output, short⟩ := continues_true test
        exact .inr ⟨sourceOffset, outputOffset, len, parts, earlier, rfl, source, output, short, (Option.some.inj h).symm⟩
  · exact .inl (Option.some.inj h).symm

/-- A chunk is appended as a range, from the cache, or from the origin. -/
theorem planChunk_cases (h : planChunk m availability s c = some s') :
    (∃ stop, m.add c.outputOffset c.len.toUInt64 = some stop ∧ s'.targetSize = max s.targetSize stop) ∧
    ((∃ offset, (availability c = some (.previous offset) ∨ availability c = some (.both offset)) ∧
        (∃ sourceEnd, m.add offset c.len.toUInt64 = some sourceEnd) ∧ pushRange m s.ops offset c = some s'.ops) ∨
      s'.ops = .copyCacheChunk c.hash c.outputOffset c.len :: s.ops ∨
      s'.ops = .fetchNetworkChunk c.hash c.outputOffset c.len :: s.ops) := by
  obtain ⟨stop, sum, h⟩ := bind_eq_some_iff.mp h
  obtain ⟨avail, found, h⟩ := bind_eq_some_iff.mp h
  have ranged : ∀ {r : PlanRun} {offset : UInt64}, fromPrevious m r offset c = some s' →
      s'.targetSize = r.targetSize ∧ (∃ sourceEnd, m.add offset c.len.toUInt64 = some sourceEnd) ∧
        pushRange m r.ops offset c = some s'.ops := by
    intro r offset h
    obtain ⟨sourceEnd, source, h⟩ := bind_eq_some_iff.mp h
    obtain ⟨ops, pushed, h⟩ := bind_eq_some_iff.mp h
    cases h
    exact ⟨rfl, ⟨sourceEnd, source⟩, pushed⟩
  cases avail with
  | missing =>
      cases h
      exact ⟨⟨stop, sum, rfl⟩, .inr (.inr rfl)⟩
  | cache =>
      cases h
      exact ⟨⟨stop, sum, rfl⟩, .inr (.inl rfl)⟩
  | previous offset =>
      obtain ⟨target, pushed⟩ := ranged h
      exact ⟨⟨stop, sum, target⟩, .inl ⟨offset, .inl found, pushed⟩⟩
  | both offset =>
      dsimp only at h
      split at h
      · obtain ⟨target, pushed⟩ := ranged h
        exact ⟨⟨stop, sum, target⟩, .inl ⟨offset, .inr found, pushed⟩⟩
      · cases h
        exact ⟨⟨stop, sum, rfl⟩, .inr (.inl rfl)⟩

theorem len_toNat (len : UInt32) : len.toUInt64.toNat = len.toNat := by simp

theorem pushRange_covers (h : pushRange m ops offset c = some ops') (whole : ∀ op ∈ ops, op.Whole) :
    ops'.reverse.flatMap RebuildOp.pieces = ops.reverse.flatMap RebuildOp.pieces ++ [c.piece] ∧
      ∀ op ∈ ops', op.Whole := by
  rcases pushRange_cases h with rfl | ⟨sourceOffset, outputOffset, len, parts, earlier, rfl, -, -, short, rfl⟩
  · constructor
    · simp [NeededChunk.piece]
    · intro op mem
      rcases List.mem_cons.mp mem with rfl | mem
      · exact ⟨by simp [partsTotal], .inr rfl⟩
      · exact whole op mem
  · have last := whole _ List.mem_cons_self
    have sum : (len + c.len.toUInt64).toNat = len.toNat + c.len.toNat := by
      have := last.short
      have := c.len.toNat_lt
      rw [toNat_add_of_lt (by rw [len_toNat]; omega), len_toNat]
    constructor
    · simp [NeededChunk.piece]
    · intro op mem
      rcases List.mem_cons.mp mem with rfl | mem
      · constructor
        · rw [partsTotal_append, last.1, sum]
        · exact .inl short
      · exact whole op (List.mem_cons_of_mem _ mem)

/-- One chunk is appended to what the plan stands for. -/
theorem PlanRun.Covers.step {done : List NeededChunk} (covers : s.Covers done)
    (h : planChunk m availability s c = some s') : s'.Covers (done ++ [c]) := by
  obtain ⟨-, ⟨offset, -, -, pushed⟩ | cached | fetched⟩ := planChunk_cases h
  · obtain ⟨pieces, whole⟩ := pushRange_covers pushed covers.whole
    exact ⟨by simp [pieces, covers.pieces], whole⟩
  · constructor
    · simp [cached, covers.pieces, RebuildOp.pieces, NeededChunk.piece]
    · simpa [cached, RebuildOp.Whole] using covers.whole
  · constructor
    · simp [fetched, covers.pieces, RebuildOp.pieces, NeededChunk.piece]
    · simpa [fetched, RebuildOp.Whole] using covers.whole

theorem PlanRun.Covers.run {chunks done : List NeededChunk} (covers : s.Covers done)
    (h : planEach m availability chunks s = some s') : s'.Covers (done ++ chunks) := by
  induction chunks generalizing s done with
  | nil =>
      cases h
      rwa [List.append_nil]
  | cons c rest ih =>
      obtain ⟨next, stepped, h⟩ := bind_eq_some_iff.mp h
      rw [List.append_cons]
      exact ih (covers.step stepped) h

end Step

section Fits
variable {m : Overflow} {availability : NeededChunk → Option Availability} {s s' : PlanRun} {c : NeededChunk}
  {ops ops' : List RebuildOp} {offset : UInt64}

/-- Where sums are checked, the end of a range was computed when it was planned. -/
def RebuildOp.Fits (m : Overflow) : RebuildOp → Prop
  | .copyPreviousRange sourceOffset _ len _ => m = .checked → sourceOffset.toNat + len.toNat < 2 ^ 64
  | _ => True

theorem RebuildOp.Fits.add_ne_none {sourceOffset outputOffset len : UInt64} {parts : List PlanPart}
    (h : (RebuildOp.copyPreviousRange sourceOffset outputOffset len parts).Fits m) : m.add sourceOffset len ≠ none := by
  cases m with
  | checked => simp [add_of_lt (h rfl)]
  | wraps => simp [Overflow.add]

theorem pushRange_fits (h : pushRange m ops offset c = some ops') (whole : ∀ op ∈ ops, op.Whole)
    (fits : ∀ op ∈ ops, op.Fits m) {sourceEnd : UInt64} (sum : m.add offset c.len.toUInt64 = some sourceEnd) :
    ∀ op ∈ ops', op.Fits m := by
  rcases pushRange_cases h with rfl | ⟨sourceOffset, outputOffset, len, parts, earlier, rfl, source, -, -, rfl⟩
  · intro op mem
    rcases List.mem_cons.mp mem with rfl | mem
    · rintro rfl
      exact fits_of_checked sum
    · exact fits op mem
  · intro op mem
    rcases List.mem_cons.mp mem with rfl | mem
    · rintro rfl
      have inside := fits _ List.mem_cons_self rfl
      have further := fits_of_checked sum
      have short := (whole _ List.mem_cons_self).short
      have := c.len.toNat_lt
      rw [← source, toNat_add_of_lt inside, len_toNat] at further
      rw [toNat_add_of_lt (by rw [len_toNat]; omega), len_toNat]
      omega
    · exact fits op (List.mem_cons_of_mem _ mem)

theorem planChunk_fits (h : planChunk m availability s c = some s') (whole : ∀ op ∈ s.ops, op.Whole)
    (fits : ∀ op ∈ s.ops, op.Fits m) : ∀ op ∈ s'.ops, op.Fits m := by
  obtain ⟨-, ⟨offset, -, ⟨sourceEnd, sum⟩, pushed⟩ | cached | fetched⟩ := planChunk_cases h
  · exact pushRange_fits pushed whole fits sum
  · simpa [cached, RebuildOp.Fits] using fits
  · simpa [fetched, RebuildOp.Fits] using fits

theorem planEach_fits {chunks done : List NeededChunk} (covers : s.Covers done) (fits : ∀ op ∈ s.ops, op.Fits m)
    (h : planEach m availability chunks s = some s') : ∀ op ∈ s'.ops, op.Fits m := by
  induction chunks generalizing s done with
  | nil =>
      cases h
      exact fits
  | cons c rest ih =>
      obtain ⟨next, stepped, h⟩ := bind_eq_some_iff.mp h
      exact ih (covers.step stepped) (planChunk_fits stepped covers.whole fits) h

end Fits

section Tiling
variable {m : Overflow} {availability : NeededChunk → Option Availability} {s s' : PlanRun} {c : NeededChunk}
  {ops ops' : List RebuildOp} {offset : UInt64}

/-- The chunks lie one after another from `start` to `stop`. -/
def Contiguous : (start : Nat) → List NeededChunk → (stop : Nat) → Prop
  | start, [], stop => start = stop
  | start, c :: rest, stop => c.outputOffset.toNat = start ∧ Contiguous (start + c.len.toNat) rest stop

/-- The operations, latest first, tile the output from 0 to `stop`. -/
def TiledTo : List RebuildOp → (stop : Nat) → Prop
  | [], stop => stop = 0
  | op :: earlier, stop =>
      op.outputRange.1.toNat + op.outputRange.2.toNat = stop ∧ TiledTo earlier op.outputRange.1.toNat

theorem Contiguous.le {start stop : Nat} {chunks : List NeededChunk} (h : Contiguous start chunks stop) :
    start ≤ stop := by
  induction chunks generalizing start with
  | nil => exact Nat.le_of_eq h
  | cons c rest ih =>
      have := ih h.2
      omega

theorem pushRange_tiled (h : pushRange m ops offset c = some ops') (tiled : TiledTo ops c.outputOffset.toNat)
    (whole : ∀ op ∈ ops, op.Whole) : TiledTo ops' (c.outputOffset.toNat + c.len.toNat) := by
  rcases pushRange_cases h with rfl | ⟨sourceOffset, outputOffset, len, parts, earlier, rfl, -, -, -, rfl⟩
  · exact ⟨by simp [RebuildOp.outputRange], tiled⟩
  · obtain ⟨stop, before⟩ := tiled
    refine ⟨?_, before⟩
    have short := (whole _ List.mem_cons_self).short
    have := c.len.toNat_lt
    dsimp only [RebuildOp.outputRange] at stop ⊢
    rw [toNat_add_of_lt (by rw [len_toNat]; omega), len_toNat]
    omega

/-- The planner's state when the chunks so far end at `stop`. -/
structure PlanRun.Tiles (s : PlanRun) (stop : Nat) : Prop where
  tiled : TiledTo s.ops stop
  target : s.targetSize.toNat = stop

theorem PlanRun.Tiles.step (tiles : s.Tiles c.outputOffset.toNat) (whole : ∀ op ∈ s.ops, op.Whole)
    (fits : c.outputOffset.toNat + c.len.toNat < 2 ^ 64) (h : planChunk m availability s c = some s') :
    s'.Tiles (c.outputOffset.toNat + c.len.toNat) := by
  obtain ⟨⟨stop, sum, target⟩, how⟩ := planChunk_cases h
  constructor
  · rcases how with ⟨offset, -, -, pushed⟩ | cached | fetched
    · exact pushRange_tiled pushed tiles.tiled whole
    · rw [cached]
      exact ⟨by simp [RebuildOp.outputRange], tiles.tiled⟩
    · rw [fetched]
      exact ⟨by simp [RebuildOp.outputRange], tiles.tiled⟩
  · have exact_ : stop.toNat = c.outputOffset.toNat + c.len.toNat := by
      rw [add_some sum, toNat_add_of_lt (by rwa [len_toNat]), len_toNat]
    have later : s.targetSize ≤ stop := by
      rw [UInt64.le_iff_toNat_le, tiles.target, exact_]
      omega
    have greater : max s.targetSize stop = stop := if_pos later
    rw [target, greater, exact_]

theorem PlanRun.Tiles.run {start stop : Nat} {chunks done : List NeededChunk} (tiles : s.Tiles start)
    (covers : s.Covers done) (contiguous : Contiguous start chunks stop) (fits : stop < 2 ^ 64)
    (h : planEach m availability chunks s = some s') : s'.Tiles stop := by
  induction chunks generalizing s start done with
  | nil =>
      cases h
      cases contiguous
      exact tiles
  | cons c rest ih =>
      obtain ⟨next, stepped, h⟩ := bind_eq_some_iff.mp h
      obtain ⟨here, later⟩ := contiguous
      subst here
      have := later.le
      exact ih (tiles.step covers.whole (by omega) stepped) (covers.step stepped) later h

theorem partsLen_eq {parts : List PlanPart} {sum : UInt64} (fits : sum.toNat + partsTotal parts < 2 ^ 64) :
    partsLen m parts sum = some (sum + UInt64.ofNat (partsTotal parts)) := by
  induction parts generalizing sum with
  | nil => simp [partsLen, partsTotal]
  | cons p rest ih =>
      have split : partsTotal (p :: rest) = p.len.toNat + partsTotal rest := by simp [partsTotal]
      have one : sum.toNat + p.len.toUInt64.toNat < 2 ^ 64 := by
        rw [len_toNat]
        omega
      rw [partsLen, add_of_lt one, Option.bind_eq_bind, Option.bind_some, ih, split]
      · have : UInt64.ofNat (p.len.toNat + partsTotal rest) = p.len.toUInt64 + UInt64.ofNat (partsTotal rest) := by
          rw [UInt64.ofNat_add]
          congr 1
          exact UInt64.toNat_inj.mp (by simp)
        rw [this, UInt64.add_assoc]
      · rw [toNat_add_of_lt one, len_toNat]
        omega

theorem checkParts_whole {op : RebuildOp} (whole : op.Whole) : checkParts m op = .ok () := by
  cases op with
  | copyPreviousRange sourceOffset outputOffset len parts =>
      have fits : (0 : UInt64).toNat + partsTotal parts < 2 ^ 64 := by
        have := len.toNat_lt
        simpa [whole.1] using this
      have sum : UInt64.ofNat (partsTotal parts) = len := by
        rw [whole.1, UInt64.ofNat_toNat]
      simp [checkParts, partsLen_eq fits, ofSum, sum]
  | copyCacheChunk => rfl
  | fetchNetworkChunk => rfl

/-- The check of operations that tile the output comes to the operations after them. -/
theorem validateOps_tiled {stop : Nat} (tiled : TiledTo ops stop) (whole : ∀ op ∈ ops, op.Whole) (fits : stop < 2 ^ 64)
    (rest : List RebuildOp) :
    validateOps m (ops.reverse ++ rest) 0 = validateOps m rest (UInt64.ofNat stop) := by
  induction ops generalizing stop rest with
  | nil =>
      cases tiled
      rfl
  | cons op earlier ih =>
      obtain ⟨here, before⟩ := tiled
      rw [List.reverse_cons, List.append_assoc, ih before (fun o mem => whole o (List.mem_cons_of_mem _ mem)) (by omega)]
      have start : UInt64.ofNat op.outputRange.1.toNat = op.outputRange.1 := UInt64.ofNat_toNat
      have sum : op.outputRange.1 + op.outputRange.2 = UInt64.ofNat stop := by
        rw [← here, UInt64.ofNat_add, UInt64.ofNat_toNat, UInt64.ofNat_toNat]
      simp [validateOps, checkParts_whole (whole op List.mem_cons_self), add_of_lt (here ▸ fits), ofSum, sum]

end Tiling

section Plan
variable {m : Overflow} {availability : NeededChunk → Option Availability} {asset outputName : String}
  {chunks : List NeededChunk} {p : ReconstructionPlan}

theorem plan_run (h : plan m availability asset outputName chunks = some p) :
    ∃ s, planEach m availability chunks .start = some s ∧ p.ops = s.ops.reverse ∧ p.targetSize = s.targetSize := by
  obtain ⟨s, run, h⟩ := bind_eq_some_iff.mp h
  cases h
  exact ⟨s, run, rfl, rfl⟩

theorem start_covers : PlanRun.start.Covers [] := ⟨rfl, fun _ mem => (List.not_mem_nil mem).elim⟩

theorem start_tiles : PlanRun.start.Tiles 0 := ⟨rfl, rfl⟩

/-- The plan stands for the chunks, one after another. -/
theorem plan_pieces (h : plan m availability asset outputName chunks = some p) :
    p.ops.flatMap RebuildOp.pieces = chunks.map NeededChunk.piece := by
  obtain ⟨s, run, ops, -⟩ := plan_run h
  rw [ops]
  exact (start_covers.run run).pieces

theorem plan_whole (h : plan m availability asset outputName chunks = some p) : ∀ op ∈ p.ops, op.Whole ∧ op.Fits m := by
  obtain ⟨s, run, ops, -⟩ := plan_run h
  intro op mem
  rw [ops, List.mem_reverse] at mem
  exact ⟨(start_covers.run run).whole op mem,
    planEach_fits start_covers (fun _ mem => (List.not_mem_nil mem).elim) run op mem⟩

/-- The plan for chunks that lie one after another passes validation. -/
theorem plan_valid {stop : Nat} (contiguous : Contiguous 0 chunks stop) (fits : stop < 2 ^ 64)
    (h : plan m availability asset outputName chunks = some p) : validate m p = .ok () := by
  obtain ⟨s, run, ops, target⟩ := plan_run h
  have covers := start_covers.run run
  have tiles := start_tiles.run start_covers contiguous fits run
  have checked := validateOps_tiled (m := m) tiles.tiled covers.whole fits []
  rw [List.append_nil, ← ops] at checked
  have size : UInt64.ofNat stop = p.targetSize := by
    rw [target, ← tiles.target, UInt64.ofNat_toNat]
  simp [validate, checked, validateOps, size]

/-- An operation that copies one chunk from the cache or the origin. -/
def RebuildOp.Single (op : RebuildOp) (c : NeededChunk) : Prop :=
  op = .copyCacheChunk c.hash c.outputOffset c.len ∨ op = .fetchNetworkChunk c.hash c.outputOffset c.len

theorem planEach_single {s s' : PlanRun} {done : List NeededChunk}
    (none_ : ∀ c offset, availability c ≠ some (.previous offset) ∧ availability c ≠ some (.both offset))
    (before : List.Forall₂ RebuildOp.Single s.ops.reverse done)
    (h : planEach m availability chunks s = some s') :
    List.Forall₂ RebuildOp.Single s'.ops.reverse (done ++ chunks) := by
  induction chunks generalizing s done with
  | nil =>
      cases h
      rwa [List.append_nil]
  | cons c rest ih =>
      obtain ⟨next, stepped, h⟩ := bind_eq_some_iff.mp h
      rw [List.append_cons]
      apply ih _ h
      obtain ⟨-, ⟨offset, found | found, -, -⟩ | cached | fetched⟩ := planChunk_cases stepped
      · exact absurd found (none_ c offset).1
      · exact absurd found (none_ c offset).2
      · rw [cached, List.reverse_cons]
        exact List.rel_append before (List.Forall₂.cons (.inl rfl) List.Forall₂.nil)
      · rw [fetched, List.reverse_cons]
        exact List.rel_append before (List.Forall₂.cons (.inr rfl) List.Forall₂.nil)

/-- Where nothing lies in a previous artifact every chunk has an operation of its own. -/
theorem plan_single (none_ : ∀ c offset, availability c ≠ some (.previous offset) ∧ availability c ≠ some (.both offset))
    (h : plan m availability asset outputName chunks = some p) : List.Forall₂ RebuildOp.Single p.ops chunks := by
  obtain ⟨s, run, ops, -⟩ := plan_run h
  rw [ops]
  exact planEach_single none_ List.Forall₂.nil run

theorem availability_none {cacheContains : String → Option Bool} (c : NeededChunk) (offset : UInt64) :
    availabilityFromSets cacheContains (fun _ => none) c ≠ some (.previous offset) ∧
      availabilityFromSets cacheContains (fun _ => none) c ≠ some (.both offset) := by
  simp only [availabilityFromSets]
  cases cacheContains c.hash with
  | none => simp
  | some inCache => cases inCache <;> simp

end Plan

end Cavs.Rebuild
