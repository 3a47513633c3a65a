import Cavs.OpEmbed
import Cavs.PlanApply
import Cavs.RebuildPlan

/-!
# Carrying out a reconstruction plan

Every byte is checked before it is written: a part of the previous artifact against its
hash, a cache entry inside the cache, a fetched chunk by the executor. A part that fails its
check is taken from the cache or the origin instead. The cache, the sink and the origin are
parameters, as they are in the source.
-/
namespace Cavs
open FileProg (Bytes)
open Rebuild
open OpProg (Cmd)
open OpProg.Cmd (throw forEach)

inductive HybridError where
  | planInvalid (message : String)
  | badChunkHash (hash : String)
  | chunkHashMismatch (hash : String)
  | missingAfterFetch (hash : String)
  /-- A slice beyond the end of a range: the program panics. -/
  | outOfBounds
  /-- A sum beyond 64 bits: the program panics. -/
  | overflow
  deriving DecidableEq, Repr

/-- The mapped bytes, and where in them chunks were found. -/
structure PreviousArtifact where
  map : Bytes
  index : String → Option UInt64

def PreviousArtifact.readRange (p : PreviousArtifact) (offset len : UInt64) : Option Bytes :=
  if offset.toNat + len.toNat < 2 ^ 64 ∧ offset.toNat + len.toNat ≤ p.map.length then
    some ((p.map.drop offset.toNat).take len.toNat)
  else none

section Needed
variable (m : Overflow) (manifest : Manifest) (trackId : UInt32)

/-- The references of a track's segments in presentation order. -/
def trackChunks : List ChunkRef :=
  ((manifest.segments.filter fun s => s.trackId = trackId).insertionSort fun a b => a.before b).flatMap
    ManifestSegment.chunks

/-- Chunks with the offsets where they go; the sum behind the last one is computed as well. -/
def placeChunks : List ChunkRef → (offset : UInt64) → Option (List NeededChunk)
  | [], _ => return []
  | c :: rest, offset => do
      let placed ← placeChunks rest (← m.add offset c.len.toUInt64)
      return ⟨c.hash, c.len, offset⟩ :: placed

def neededChunksForTrack : Option (List NeededChunk) := placeChunks m (trackChunks manifest trackId) 0

end Needed

structure ExecOutcome where
  previousArtifactBytes : Nat
  cacheChunkBytes : Nat
  demotedChunks : Nat
  repairWireBytes : Nat
  deriving DecidableEq, Repr

def ExecOutcome.zero : ExecOutcome := ⟨0, 0, 0, 0⟩

/-- The calls of a chunk cache. -/
structure CacheCalls (O : Type) (R : O → Type) (ε : Type) where
  get : ChunkHash → Cmd O R ε (Option Bytes)
  put : ChunkHash → Bytes → Cmd O R ε Unit

section Execute
variable {O : Type} {R : O → Type} {ε : Type} (m : Overflow) (hashChunk : Bytes → ChunkHash) (fail : HybridError → ε)
  (cache : CacheCalls O R ε) (write : Bytes → Cmd O R ε Unit) (fetchChunk : String → Cmd O R ε Bytes)

/-- A chunk from the cache, or else from the origin and then into the cache. -/
def chunkViaFallback (hashHex : String) (outcome : ExecOutcome) : Cmd O R ε (Bytes × ExecOutcome) := do
  match fromHex hashHex with
  | none => throw (fail (.badChunkHash hashHex))
  | some hash => do
      match ← cache.get hash with
      | some bytes => return (bytes, { outcome with cacheChunkBytes := outcome.cacheChunkBytes + bytes.length })
      | none => do
          let bytes ← fetchChunk hashHex
          (if hashChunk bytes ≠ hash then throw (fail (.chunkHashMismatch hashHex))
          else do
            cache.put hash bytes
            return (bytes, { outcome with repairWireBytes := outcome.repairWireBytes + bytes.length }))

def writeFallback (hashHex : String) (outcome : ExecOutcome) : Cmd O R ε ExecOutcome := do
  let (good, outcome) ← chunkViaFallback hashChunk fail cache fetchChunk hashHex outcome
  write good
  return outcome

def demotePart (part : PlanPart) (outcome : ExecOutcome) : Cmd O R ε ExecOutcome :=
  writeFallback hashChunk fail cache write fetchChunk part.blake3
    { outcome with demotedChunks := outcome.demotedChunks + 1 }

def demoteParts : List PlanPart → ExecOutcome → Cmd O R ε ExecOutcome
  | [], outcome => return outcome
  | part :: rest, outcome => do
      demoteParts rest (← demotePart hashChunk fail cache write fetchChunk part outcome)

/-- Write the parts of a range that was read; a part that is not what it should be is
taken from elsewhere. -/
def copyParts (bytes : Bytes) : List PlanPart → (at_ : Nat) → ExecOutcome → Cmd O R ε ExecOutcome
  | [], _, outcome => return outcome
  | part :: rest, at_, outcome => do
      let stop := at_ + part.len.toNat
      if bytes.length < stop then throw (fail .outOfBounds)
      else do
        let slice := (bytes.drop at_).take part.len.toNat
        match fromHex part.blake3 with
        | none => throw (fail (.badChunkHash part.blake3))
        | some expected => do
            let outcome ← (if hashChunk slice = expected then do
                write slice
                return { outcome with previousArtifactBytes := outcome.previousArtifactBytes + slice.length }
              else demotePart hashChunk fail cache write fetchChunk part outcome)
            copyParts bytes rest stop outcome

variable (prev : Option PreviousArtifact)

def executeOp (op : RebuildOp) (outcome : ExecOutcome) : Cmd O R ε ExecOutcome :=
  match op with
  | .copyPreviousRange sourceOffset _ len parts =>
      match prev.bind fun p => p.readRange sourceOffset len with
      | some bytes => copyParts hashChunk fail cache write fetchChunk bytes parts 0 outcome
      -- The message names the end of the range.
      | none => match m.add sourceOffset len with
        | none => throw (fail .overflow)
        | some _ => demoteParts hashChunk fail cache write fetchChunk parts outcome
  | .copyCacheChunk hash _ _ => writeFallback hashChunk fail cache write fetchChunk hash outcome
  | .fetchNetworkChunk hash _ _ => writeFallback hashChunk fail cache write fetchChunk hash outcome

def executeOps : List RebuildOp → ExecOutcome → Cmd O R ε ExecOutcome
  | [], outcome => return outcome
  | op :: rest, outcome => do
      executeOps rest (← executeOp m hashChunk fail cache write fetchChunk prev op outcome)

def executePlan (p : ReconstructionPlan) : Cmd O R ε ExecOutcome :=
  match validate m p with
  | .error e => throw (fail (.planInvalid e))
  | .panics => throw (fail .overflow)
  | .ok () => executeOps m hashChunk fail cache write fetchChunk prev p.ops .zero

/-- Plain reconstruction takes every chunk from the cache. -/
def appendChunk (hashHex : String) : Cmd O R ε Unit := do
  match fromHex hashHex with
  | none => throw (fail (.badChunkHash hashHex))
  | some hash => do
      match ← cache.get hash with
      | none => throw (fail (.missingAfterFetch hashHex))
      | some bytes => write bytes

end Execute

section Spec
variable {O : Type} {R : O → Type} {ε T : Type} {Step : (o : O) → T → R o → T → Prop} {I : T → Prop}
  {E : ε → T → Prop} {m : Overflow} {hashChunk : Bytes → ChunkHash} {fail : HybridError → ε} {cache : CacheCalls O R ε}
  {write : Bytes → Cmd O R ε Unit} {fetchChunk : String → Cmd O R ε Bytes} {J : Bytes → T → Prop} {out : Bytes}
  {hex : String} {t : T} {outcome : ExecOutcome} {parts : List PlanPart} {prev : Option PreviousArtifact}

/-- `J` knows the bytes the sink has taken: only a write adds to them. The cache hands out
what it has checked. -/
structure Surroundings (Step : (o : O) → T → R o → T → Prop) (I : T → Prop) (E : ε → T → Prop)
    (hashChunk : Bytes → ChunkHash) (fail : HybridError → ε) (cache : CacheCalls O R ε)
    (write : Bytes → Cmd O R ε Unit) (fetchChunk : String → Cmd O R ε Bytes) (J : Bytes → T → Prop) : Prop where
  get : ∀ {h out t}, J out t → (cache.get h).Wp Step I E (fun r u => J out u ∧ ∀ b, r = some b → hashChunk b = h) t
  put : ∀ {h b out t}, J out t → (cache.put h b).Wp Step I E (fun _ u => J out u) t
  fetch : ∀ {hex out t}, J out t → (fetchChunk hex).Wp Step I E (fun _ u => J out u) t
  write : ∀ {b out t}, J out t → (write b).Wp Step I E (fun _ u => J (out ++ b) u) t
  fails : ∀ {e out t}, e ≠ .outOfBounds → e ≠ .overflow → J out t → E (fail e) t

/-- The bytes are ones a hash text names. -/
def NamedBy (hashChunk : Bytes → ChunkHash) (hex : String) (b : Bytes) : Prop := fromHex hex = some (hashChunk b)

/-- What was written is one byte string for each hash text, in order. -/
def Delivers (hashChunk : Bytes → ChunkHash) (J : Bytes → T → Prop) (hexes : List String) (out : Bytes) (u : T) : Prop :=
  ∃ strings, List.Forall₂ (NamedBy hashChunk) hexes strings ∧ J (out ++ strings.flatten) u

theorem Delivers.nil {u : T} (h : J out u) : Delivers hashChunk J [] out u :=
  ⟨[], List.Forall₂.nil, by simpa using h⟩

theorem Delivers.one {b : Bytes} {u : T} (named : NamedBy hashChunk hex b) (h : J (out ++ b) u) :
    Delivers hashChunk J [hex] out u :=
  ⟨[b], List.Forall₂.cons named List.Forall₂.nil, by simpa using h⟩

/-- What a rest delivers behind what came before it. -/
theorem Wp.deliver {α β : Type} {c : Cmd O R ε α} {f : α → Cmd O R ε β} {front rest : List String}
    (first : c.Wp Step I E (fun _ u => Delivers hashChunk J front out u) t)
    (then_ : ∀ a out u, J out u → (f a).Wp Step I E (fun _ v => Delivers hashChunk J rest out v) u) :
    (c >>= f).Wp Step I E (fun _ v => Delivers hashChunk J (front ++ rest) out v) t := by
  apply Cmd.Wp.bind
  apply Cmd.Wp.mono first
  intro a u ⟨strings, named, held⟩
  apply Cmd.Wp.mono (then_ a _ u held)
  intro b v ⟨more, named', held'⟩
  refine ⟨strings ++ more, List.rel_append named named', ?_⟩
  simpa using held'

variable (around : Surroundings Step I E hashChunk fail cache write fetchChunk J)
include around

theorem chunkViaFallback_wp (h : J out t) :
    (chunkViaFallback hashChunk fail cache fetchChunk hex outcome).Wp Step I E
      (fun r u => J out u ∧ NamedBy hashChunk hex r.1) t := by
  rw [chunkViaFallback]
  cases named : fromHex hex with
  | none => exact around.fails (by simp) (by simp) h
  | some hash =>
      apply Cmd.Wp.bind
      apply Cmd.Wp.mono (around.get h)
      intro r u ⟨held, checked⟩
      cases r with
      | some bytes =>
          refine Cmd.Wp.pure ⟨held, ?_⟩
          rw [NamedBy, named, checked bytes rfl]
      | none =>
          apply Cmd.Wp.bind
          apply Cmd.Wp.mono (around.fetch held)
          intro bytes v held
          split
          · exact around.fails (by simp) (by simp) held
          · rename_i same
            apply Cmd.Wp.bind
            apply Cmd.Wp.mono (around.put held)
            intro _ x held
            refine Cmd.Wp.pure ⟨held, ?_⟩
            rw [NamedBy, named, not_not.mp same]

theorem writeFallback_wp (h : J out t) :
    (writeFallback hashChunk fail cache write fetchChunk hex outcome).Wp Step I E
      (fun _ u => Delivers hashChunk J [hex] out u) t := by
  apply Cmd.Wp.bind
  apply Cmd.Wp.mono (chunkViaFallback_wp around h)
  intro r u ⟨held, named⟩
  apply Cmd.Wp.bind
  apply Cmd.Wp.mono (around.write held)
  intro _ v held
  exact Cmd.Wp.pure (Delivers.one named held)

theorem demoteParts_wp (h : J out t) :
    (demoteParts hashChunk fail cache write fetchChunk parts outcome).Wp Step I E
      (fun _ u => Delivers hashChunk J (parts.map PlanPart.blake3) out u) t := by
  induction parts generalizing outcome out t with
  | nil => exact Cmd.Wp.pure (Delivers.nil h)
  | cons part rest ih => exact Wp.deliver (writeFallback_wp around h) fun _ _ _ held => ih held

/-- The parts lie inside the bytes that were read, so no slice is out of bounds. -/
theorem copyParts_wp {bytes : Bytes} {at_ : Nat} (inside : at_ + partsTotal parts ≤ bytes.length) (h : J out t) :
    (copyParts hashChunk fail cache write fetchChunk bytes parts at_ outcome).Wp Step I E
      (fun _ u => Delivers hashChunk J (parts.map PlanPart.blake3) out u) t := by
  induction parts generalizing at_ outcome out t with
  | nil => exact Cmd.Wp.pure (Delivers.nil h)
  | cons part rest ih =>
      have split : partsTotal (part :: rest) = part.len.toNat + partsTotal rest := by simp [partsTotal]
      rw [copyParts, if_neg (by omega)]
      cases named : fromHex part.blake3 with
      | none => exact around.fails (by simp) (by simp) h
      | some expected =>
          change Cmd.Wp _ _ _ (fun _ u => Delivers hashChunk J ([part.blake3] ++ rest.map PlanPart.blake3) out u) _ _
          refine Wp.deliver ?_ fun _ _ _ held => ih (by omega) held
          split
          · rename_i same
            apply Cmd.Wp.bind
            apply Cmd.Wp.mono (around.write h)
            intro _ u held
            refine Cmd.Wp.pure (Delivers.one ?_ held)
            rw [NamedBy, named, same]
          · exact writeFallback_wp around h

theorem appendChunk_wp (h : J out t) :
    (appendChunk fail cache write hex).Wp Step I E (fun _ u => Delivers hashChunk J [hex] out u) t := by
  rw [appendChunk]
  cases named : fromHex hex with
  | none => exact around.fails (by simp) (by simp) h
  | some hash =>
      apply Cmd.Wp.bind
      apply Cmd.Wp.mono (around.get h)
      intro r u ⟨held, checked⟩
      cases r with
      | none => exact around.fails (by simp) (by simp) held
      | some bytes =>
          apply Cmd.Wp.mono (around.write held)
          intro _ v held
          apply Delivers.one _ held
          rw [NamedBy, named, checked bytes rfl]

theorem appendChunks_wp {hexes : List String} (h : J out t) :
    (forEach hexes (appendChunk fail cache write)).Wp Step I E (fun _ u => Delivers hashChunk J hexes out u) t := by
  induction hexes generalizing out t with
  | nil => exact Cmd.Wp.pure (Delivers.nil h)
  | cons hex rest ih => exact Wp.deliver (appendChunk_wp around h) fun _ _ _ held => ih held

theorem executeOp_wp {op : RebuildOp} (whole : op.Whole) (fits : op.Fits m) (h : J out t) :
    (executeOp m hashChunk fail cache write fetchChunk prev op outcome).Wp Step I E
      (fun _ u => Delivers hashChunk J (op.pieces.map Prod.snd) out u) t := by
  cases op with
  | copyPreviousRange sourceOffset outputOffset len parts =>
      have hashes : (RebuildOp.copyPreviousRange sourceOffset outputOffset len parts).pieces.map Prod.snd =
          parts.map PlanPart.blake3 := by simp
      rw [hashes, executeOp]
      cases found : prev.bind fun p => p.readRange sourceOffset len with
      | some bytes =>
          obtain ⟨p, -, read⟩ := Option.bind_eq_some_iff.mp found
          rw [PreviousArtifact.readRange] at read
          split at read
          · rename_i bound
            cases read
            apply copyParts_wp around _ h
            rw [List.length_take, List.length_drop, whole.1]
            omega
          · cases read
      | none =>
          cases sum : m.add sourceOffset len with
          | none => exact absurd sum (fits.add_ne_none)
          | some stop => exact demoteParts_wp around h
  | copyCacheChunk hash outputOffset len => exact writeFallback_wp around h
  | fetchNetworkChunk hash outputOffset len => exact writeFallback_wp around h

theorem executeOps_wp {ops : List RebuildOp} (whole : ∀ op ∈ ops, op.Whole ∧ op.Fits m) (h : J out t) :
    (executeOps m hashChunk fail cache write fetchChunk prev ops outcome).Wp Step I E
      (fun _ u => Delivers hashChunk J ((ops.flatMap RebuildOp.pieces).map Prod.snd) out u) t := by
  induction ops generalizing outcome out t with
  | nil => exact Cmd.Wp.pure (Delivers.nil h)
  | cons op rest ih =>
      obtain ⟨whole', fits⟩ := whole op List.mem_cons_self
      rw [List.flatMap_cons, List.map_append]
      exact Wp.deliver (executeOp_wp around whole' fits h) fun _ _ _ held =>
        ih (fun o mem => whole o (List.mem_cons_of_mem _ mem)) held

end Spec

end Cavs
