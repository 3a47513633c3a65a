import Cavs.ClientCache

/-!
# Hybrid reconstruction is plain reconstruction

Whatever the previous artifact, its index, the cache and the origin hold, what is written is
the concatenation of byte strings with the hashes of the track, in order.
-/
namespace Cavs
open FileProg (Bytes)
open LinkFs (Tree)
open Rebuild
open OpProg (Cmd)

section Place
variable {m : Overflow} {refs : List ChunkRef} {offset : UInt64} {placed : List NeededChunk}

def refsTotal (refs : List ChunkRef) : Nat := (refs.map fun c => c.len.toNat).sum

@[simp] theorem refsTotal_cons (c : ChunkRef) (rest : List ChunkRef) :
    refsTotal (c :: rest) = c.len.toNat + refsTotal rest := by
  simp [refsTotal]

theorem refsTotal_le (refs : List ChunkRef) : refsTotal refs ≤ refs.length * 2 ^ 32 := by
  induction refs with
  | nil => simp [refsTotal]
  | cons c rest ih =>
      have := c.len.toNat_lt
      rw [refsTotal_cons, List.length_cons]
      omega

theorem placeChunks_pieces (h : placeChunks m refs offset = some placed) :
    placed.map NeededChunk.piece = refs.map fun c => (c.len, c.hash) := by
  induction refs generalizing offset placed with
  | nil =>
      cases h
      rfl
  | cons c rest ih =>
      obtain ⟨next, -, h⟩ := Option.bind_eq_some_iff.mp h
      obtain ⟨tail, later, h⟩ := Option.bind_eq_some_iff.mp h
      cases h
      simp [ih later, NeededChunk.piece]

theorem placeChunks_contiguous (fits : offset.toNat + refsTotal refs < 2 ^ 64) (h : placeChunks m refs offset = some placed) :
    Contiguous offset.toNat placed (offset.toNat + refsTotal refs) := by
  induction refs generalizing offset placed with
  | nil =>
      cases h
      rfl
  | cons c rest ih =>
      rw [refsTotal_cons] at fits
      obtain ⟨next, sum, h⟩ := Option.bind_eq_some_iff.mp h
      obtain ⟨tail, later, h⟩ := Option.bind_eq_some_iff.mp h
      cases h
      have exact_ : next.toNat = offset.toNat + c.len.toNat := by
        rw [add_some sum, toNat_add_of_lt (by rw [len_toNat]; omega), len_toNat]
      have := ih (by omega) later
      rw [exact_, Nat.add_assoc, ← refsTotal_cons] at this
      exact ⟨rfl, this⟩

/-- Where sums are checked, the offsets of chunks that were placed did not overflow. -/
theorem placeChunks_checked (h : placeChunks .checked refs offset = some placed) :
    offset.toNat + refsTotal refs < 2 ^ 64 := by
  induction refs generalizing offset placed with
  | nil => simpa [refsTotal] using offset.toNat_lt
  | cons c rest ih =>
      obtain ⟨next, sum, h⟩ := Option.bind_eq_some_iff.mp h
      obtain ⟨tail, later, h⟩ := Option.bind_eq_some_iff.mp h
      have inside := fits_of_checked sum
      have := ih later
      rw [add_some sum, toNat_add_of_lt inside, len_toNat] at this
      rw [refsTotal_cons]
      omega

end Place

section Panics
variable {p : ReconstructionPlan}

theorem partsLen_wraps (parts : List PlanPart) (sum : UInt64) : ∃ total, partsLen .wraps parts sum = some total := by
  induction parts generalizing sum with
  | nil => exact ⟨sum, rfl⟩
  | cons part rest ih => exact ih _

theorem checkParts_wraps (op : RebuildOp) : checkParts .wraps op ≠ .panics := by
  cases op with
  | copyPreviousRange sourceOffset outputOffset len parts =>
      obtain ⟨total, sum⟩ := partsLen_wraps parts 0
      simp only [checkParts, sum, ofSum, Outcome.ok_bind]
      split <;> simp
  | copyCacheChunk => simp [checkParts]
  | fetchNetworkChunk => simp [checkParts]

theorem validateOps_wraps (ops : List RebuildOp) (at_ : UInt64) : validateOps .wraps ops at_ ≠ .panics := by
  induction ops generalizing at_ with
  | nil => simp [validateOps]
  | cons op rest ih =>
      simp only [validateOps]
      split
      · simp
      · have checked := checkParts_wraps op
        cases same : checkParts .wraps op with
        | ok u => exact ih _
        | error e => simp
        | panics => exact absurd same checked

/-- Sums that wrap do not panic. -/
theorem validate_wraps : validate .wraps p ≠ .panics := by
  have checked := validateOps_wraps p.ops 0
  rw [validate]
  cases same : validateOps .wraps p.ops 0 with
  | ok covered =>
      rw [Outcome.ok_bind]
      split <;> simp
  | error e => simp
  | panics => exact absurd same checked

end Panics

section Exact
variable {m : Overflow} {hashChunk : Bytes → ChunkHash} {manifest : Manifest} {trackId : UInt32}
  {mayFail : LinkFs.Op → Tree → Prop} {root : LinkFs.Path} {t : Tree} {out : Bytes}

/-- Two byte strings with one hash. -/
def Collide (hashChunk : Bytes → ChunkHash) (s s' : List Bytes) : Prop :=
  ∃ b ∈ s, ∃ b' ∈ s', b ≠ b' ∧ hashChunk b = hashChunk b'

/-- Two sequences of byte strings with the same names are one, or show a collision. -/
theorem namedBy_unique {hexes : List String} {s s' : List Bytes} (h : List.Forall₂ (NamedBy hashChunk) hexes s)
    (h' : List.Forall₂ (NamedBy hashChunk) hexes s') : s' = s ∨ Collide hashChunk s s' := by
  induction h generalizing s' with
  | nil =>
      cases h'
      exact .inl rfl
  | @cons hex b hexes s first rest ih =>
      obtain _ | @⟨_, b', _, s', first', rest'⟩ := h'
      have same : hashChunk b = hashChunk b' := Option.some.inj (first.symm.trans first')
      by_cases equal : b' = b
      · rcases ih rest' with rfl | ⟨c, mem, c', mem', collide⟩
        · exact .inl (by rw [equal])
        · exact .inr ⟨c, List.mem_cons_of_mem _ mem, c', List.mem_cons_of_mem _ mem', collide⟩
      · exact .inr ⟨b, List.mem_cons_self, b', List.mem_cons_self, Ne.symm equal, same⟩

/-- Every plain reconstruction that succeeds, from any tree, writes these strings, or ones
that collide with them. -/
def PlainWrites (hashChunk : Bytes → ChunkHash) (hexes : List String) (strings : List Bytes) : Prop :=
  ∀ mayFail root start stop,
    (plainReconstruct hashChunk root hexes).Runs (HybridStep mayFail) start (.ok ()) stop →
    ∃ strings', stop.2 = start.2 ++ strings'.flatten ∧ (strings' = strings ∨ Collide hashChunk strings strings')

theorem plain_writes {hexes : List String} {strings : List Bytes} (named : List.Forall₂ (NamedBy hashChunk) hexes strings) :
    PlainWrites hashChunk hexes strings := by
  intro mayFail root start stop run
  have plain : (plainReconstruct hashChunk root hexes).Wp (HybridStep mayFail) (fun _ => True) NoPanic
      (fun _ x => Delivers hashChunk (fun out x => x.2 = out) hexes start.2 x) start :=
    appendChunks_wp hybrid_surroundings rfl
  obtain ⟨strings', named', written⟩ := OpProg.Prog.Wp.runs plain run
  exact ⟨strings', written, namedBy_unique named named'⟩

/-- Hybrid reconstruction of a track. Its plan passes validation (a manifest that is read has
at most `maxManifestBytes` references), joins ranges up to the bound only, and has one
operation for each chunk where there is no previous artifact. Its execution does not panic;
when it succeeds, the sink has taken byte strings with the track's hashes in order, and plain
reconstruction writes the same. -/
theorem hybrid_exact {needed : List NeededChunk} (listed : neededChunksForTrack m manifest trackId = some needed)
    {cacheContains : String → Option Bool} {previous : String → Option UInt64} {asset outputName : String}
    {p : ReconstructionPlan}
    (planned : plan m (availabilityFromSets cacheContains previous) asset outputName needed = some p) :
    ((m = .checked ∨ (trackChunks manifest trackId).length ≤ maxManifestBytes) → validate m p = .ok ()) ∧
    (∀ sourceOffset outputOffset len parts, .copyPreviousRange sourceOffset outputOffset len parts ∈ p.ops →
      Rebuild.maxCoalescedRange < len → parts.length = 1) ∧
    (previous = (fun _ => none) → List.Forall₂ RebuildOp.Single p.ops needed) ∧
    ∀ hashChunk mayFail root prev start r stop,
      (hybridReconstruct m hashChunk root prev p).Runs (HybridStep mayFail) start r stop →
      r ≠ .error (.plan .outOfBounds) ∧ r ≠ .error (.plan .overflow) ∧
      ∀ outcome, r = .ok outcome → ∃ strings,
        List.Forall₂ (NamedBy hashChunk) ((trackChunks manifest trackId).map ChunkRef.hash) strings ∧
        stop.2 = start.2 ++ strings.flatten ∧
        PlainWrites hashChunk ((trackChunks manifest trackId).map ChunkRef.hash) strings := by
  have pieces : p.ops.flatMap RebuildOp.pieces = (trackChunks manifest trackId).map fun c => (c.len, c.hash) :=
    (plan_pieces planned).trans (placeChunks_pieces listed)
  have hashes : (p.ops.flatMap RebuildOp.pieces).map Prod.snd = (trackChunks manifest trackId).map ChunkRef.hash := by
    simp [pieces]
  have whole := plan_whole planned
  have valid : (0 : UInt64).toNat + refsTotal (trackChunks manifest trackId) < 2 ^ 64 → validate m p = .ok () :=
    fun fits => plan_valid (placeChunks_contiguous fits listed) fits planned
  refine ⟨?_, ?_, ?_, ?_⟩
  · rintro (rfl | few)
    · exact valid (placeChunks_checked listed)
    · apply valid
      have := refsTotal_le (trackChunks manifest trackId)
      have : (maxManifestBytes : Nat) = 2 ^ 28 := rfl
      rw [UInt64.toNat_zero]
      omega
  · intro sourceOffset outputOffset len parts mem long
    obtain ⟨-, short | single⟩ := (whole _ mem).1
    · rw [UInt64.lt_iff_toNat_lt] at long
      omega
    · exact single
  · rintro rfl
    exact plan_single availability_none planned
  · intro hashChunk mayFail root prev start r stop run
    have executed : (hybridReconstruct m hashChunk root prev p).Wp (HybridStep mayFail) (fun _ => True) NoPanic
        (fun _ x => Delivers hashChunk (fun out x => x.2 = out) ((trackChunks manifest trackId).map ChunkRef.hash) start.2 x)
        start := by
      rw [← hashes]
      simp only [hybridReconstruct, executePlan]
      cases checked : validate m p with
      | ok u => exact executeOps_wp hybrid_surroundings whole rfl
      | error e => exact ⟨by simp, by simp⟩
      | panics =>
          cases m with
          | checked => simp [valid (placeChunks_checked listed)] at checked
          | wraps => exact absurd checked validate_wraps
    have ends := OpProg.Prog.Wp.runs executed run
    cases r with
    | error e => exact ⟨by simpa using ends.1, by simpa using ends.2, by simp⟩
    | ok outcome =>
        refine ⟨by simp, by simp, ?_⟩
        intro _ _
        obtain ⟨strings, named, written⟩ := ends
        exact ⟨strings, named, written, plain_writes named⟩

def pairBytes : Bytes := [1, 2, 3]

def pairHexes : List String := [toHex (numberHash [1, 2]), toHex (numberHash [3])]

/-- A track of two chunks. -/
def pairTrack : Manifest where
  asset := "a"
  assetUuid := "u"
  tracks := [⟨7, "data", "raw", "a.bin", 0, []⟩]
  segments := [⟨0, 7, 0, 0, true, [⟨toHex (numberHash [1, 2]), 2⟩, ⟨toHex (numberHash [3]), 1⟩]⟩]
  dict := []
  chunkTable := []
  merkleRoot := ""
  signature := none
  signerPubkey := none
  metaPairs := []

def pairIndex (hex : String) : Option UInt64 := if hex = toHex (numberHash [1, 2]) then some 0 else some 2

def pairNeeded : List NeededChunk := [⟨toHex (numberHash [1, 2]), 2, 0⟩, ⟨toHex (numberHash [3]), 1, 2⟩]

/-- Both chunks lie side by side in the previous artifact: one range with two parts. -/
def pairPlan : ReconstructionPlan where
  asset := "a"
  outputName := "a.bin"
  targetSize := 3
  ops := [.copyPreviousRange 0 0 3 [⟨2, toHex (numberHash [1, 2])⟩, ⟨1, toHex (numberHash [3])⟩]]
  stats := ⟨1, 2, 1, 2, 0, 0, 3, 0, 0⟩

theorem hybrid_exact_pair :
    validate .checked pairPlan = .ok () ∧
    ∃ strings, List.Forall₂ (NamedBy numberHash) pairHexes strings ∧ strings.flatten = pairBytes := by
  have listed : neededChunksForTrack .checked pairTrack 7 = some pairNeeded := rfl
  have planned : plan .checked (availabilityFromSets (fun _ => some false) pairIndex) "a" "a.bin" pairNeeded =
      some pairPlan := by decide +kernel
  obtain ⟨valid, -, -, exact_⟩ := hybrid_exact listed planned
  have run : (hybridReconstruct .checked numberHash [] (some ⟨pairBytes, pairIndex⟩) pairPlan).Runs
      (HybridStep fun _ _ => False) (fun _ => none, []) (.ok ⟨3, 0, 0, 0⟩) (fun _ => none, pairBytes) := by
    have range : (PreviousArtifact.mk pairBytes pairIndex).readRange 0 3 = some pairBytes := rfl
    simp only [hybridReconstruct, executePlan, valid (.inl rfl)]
    simp only [pairPlan, executeOps, executeOp, Option.bind_some, range, copyParts, fromHex_toHex]
    exact ⟨.ok (), (fun _ => none, [1, 2]), .inl ⟨rfl, rfl⟩,
      .ok (), (fun _ => none, [1, 2, 3]), .inl ⟨rfl, rfl⟩, rfl, rfl⟩
  obtain ⟨-, -, done⟩ := exact_ _ _ _ _ _ _ _ run
  obtain ⟨strings, named, written, -⟩ := done _ rfl
  exact ⟨valid (.inl rfl), strings, named, written.symm⟩

end Exact

end Cavs
