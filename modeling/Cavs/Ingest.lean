import Cavs.ContainerReader

/-!
# From a container into a store

A container is put into a store chunk by chunk, in the stored form, and published under a
name. The store is told by its two calls.
-/
namespace Cavs
open FileProg (Bytes IoError)

/-- The calls of a store; what a call does to the store it does also when it fails. -/
structure StoreCalls (σ : Type) where
  putChunk : ChunkHash → (stored : Bytes) → (flags lenRaw : UInt32) → σ → Except StoreError Bool × σ
  publishAsset : AssetRecord → σ → Except StoreError Unit × σ

structure IngestStats where
  chunks : Nat
  newChunks : Nat
  newBytes : Nat
  deriving DecidableEq, Repr

def hexString (b : Bytes) : String := String.ofList (b.flatMap hexPair)

section Record
variable (chunks : List ChunkRecord)

/-- The name of the chunk at an index; one out of range ends the program. -/
def hexAt (index : UInt32) : FormatResult String :=
  match chunks[index.toNat]? with
  | some chunk => .ok (toHex chunk.hash)
  | none => .panics

def hexAll : List UInt32 → FormatResult (List String)
  | [] => return []
  | index :: rest => do
      let hex ← hexAt chunks index
      return hex :: (← hexAll rest)

def storeTracks : List TrackRecord → FormatResult (List StoreTrack)
  | [] => return []
  | t :: rest => do
      let initChunks ← hexAll chunks t.initChunks
      return ⟨t.trackId, t.kind.toU8, t.codec, t.name, t.timescale, initChunks⟩ :: (← storeTracks rest)

def storeSegments : List SegmentRecord → FormatResult (List StoreSegment)
  | [] => return []
  | s :: rest => do
      let names ← hexAll chunks s.chunks
      return ⟨s.segmentId, s.trackId, s.ptsStart, s.duration, decide (s.flags &&& segmentFlagRandomAccess ≠ 0), names⟩ ::
        (← storeSegments rest)

/-- The record that is published for a container. -/
def assetRecordOf (r : Reader) (signature : Option (Bytes × ChunkHash)) (name : String) :
    FormatResult AssetRecord := do
  let tracks ← storeTracks r.chunks r.tracks
  let segments ← storeSegments r.chunks r.segments
  let dict ← hexAll r.chunks r.dict
  return {
    name
    assetUuid := hexString r.superblock.assetUuid
    tracks
    segments
    dict
    chunkTable := r.chunks.map fun c => toHex c.hash
    merkleRoot := toHex r.integrity.merkleRoot
    signature := signature.map fun p => hexString (p.1.take 32) ++ hexString (p.1.drop 32)
    signerPubkey := signature.map fun p => toHex p.2
    metaPairs := r.metaPairs }

end Record

section Ingest
variable (env : ContainerEnv) {σ : Type} (calls : StoreCalls σ) (r : Reader)

/-- Put the chunks from `index` on; `left` of them are to come. -/
def putChunks : (left index : Nat) → IngestStats → σ → FormatResult IngestStats × σ
  | 0, _, stats, s => (.ok stats, s)
  | left + 1, index, stats, s =>
      match r.readChunkStored (UInt32.ofNat index) with
      | .error e => (.error e, s)
      | .panics => (.panics, s)
      | .ok (stored, flags, lenRaw) => match r.chunkAt (UInt32.ofNat index) with
        | .error e => (.error e, s)
        | .panics => (.panics, s)
        | .ok chunk => match calls.putChunk chunk.hash stored flags lenRaw s with
          | (.error e, s) => (.error (.store e), s)
          | (.ok false, s) => putChunks left (index + 1) stats s
          | (.ok true, s) => match checked (stats.newBytes + stored.length) with
            | .ok newBytes => putChunks left (index + 1) ⟨stats.chunks, stats.newChunks + 1, newBytes⟩ s
            | .error e => (.error e, s)
            | .panics => (.panics, s)

/-- The signature to publish; a container with a bad one is refused. -/
def gate : FormatResult (Option (Bytes × ChunkHash)) := do
  match ← r.verifySignature env with
  | .valid _ => r.embeddedSignature
  | .unsigned => return none

/-- Put every chunk, then publish the record. -/
def ingestIntoStore (name : String) (s : σ) : FormatResult IngestStats × σ :=
  match gate env r with
  | .error e => (.error e, s)
  | .panics => (.panics, s)
  | .ok signature =>
      match putChunks calls r (UInt32.ofNat r.chunks.length).toNat 0 ⟨r.chunks.length, 0, 0⟩ s with
      | (.error e, s) => (.error e, s)
      | (.panics, s) => (.panics, s)
      | (.ok stats, s) => match assetRecordOf r signature name with
        | .error e => (.error e, s)
        | .panics => (.panics, s)
        | .ok record => match calls.publishAsset record s with
          | (.error e, s) => (.error (.store e), s)
          | (.ok (), s) => (.ok stats, s)

end Ingest
end Cavs
