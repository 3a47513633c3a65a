import Cavs.Store

/-!
# Manifests and chunk locations

What a client reads of an asset: its tracks and segments as lists of chunk hashes, and
where each chunk lies in the packs of an exported tree.
-/
namespace Cavs

/-- Longer input is no manifest, whatever its format. -/
def maxManifestBytes : Nat := 256 * 1024 * 1024

structure ChunkRef where
  hash : String
  len : UInt32
  deriving DecidableEq, Repr

structure ManifestTrack where
  trackId : UInt32
  kind : String
  codec : String
  name : String
  timescale : UInt32
  initChunks : List ChunkRef
  deriving DecidableEq, Repr

structure ManifestSegment where
  segmentId : UInt64
  trackId : UInt32
  ptsStart : UInt64
  duration : UInt32
  randomAccess : Bool
  chunks : List ChunkRef
  deriving DecidableEq, Repr

structure Manifest where
  asset : String
  assetUuid : String
  tracks : List ManifestTrack
  segments : List ManifestSegment
  dict : List String
  chunkTable : List String
  merkleRoot : String
  signature : Option String
  signerPubkey : Option String
  metaPairs : List (String × String)
  deriving DecidableEq, Repr

structure ChunkMapEntry where
  hash : String
  lenRaw : UInt32
  lenStored : UInt32
  flags : UInt32
  pack : String
  packOffsetAbs : UInt64
  deriving DecidableEq, Repr

def kindLabel (kind : UInt8) : String :=
  if kind = 0 then "video" else if kind = 1 then "audio" else if kind = 2 then "subtitle" else "data"

section Build
variable (chunkInfo : ChunkHash → Option ChunkInfo)

/-- A reference with the raw length the ledger has, or zero. -/
def chunkRef (hex : String) : ChunkRef where
  hash := hex
  len := (((fromHex hex).bind chunkInfo).map ChunkInfo.lenRaw).getD 0

/-- The manifest of a stored record. -/
def manifestOf (record : AssetRecord) : Manifest where
  asset := record.name
  assetUuid := record.assetUuid
  tracks := record.tracks.map fun t =>
    ⟨t.trackId, kindLabel t.kind, t.codec, t.name, t.timescale, t.initChunks.map (chunkRef chunkInfo)⟩
  segments := record.segments.map fun s =>
    ⟨s.segmentId, s.trackId, s.ptsStart, s.duration, s.randomAccess, s.chunks.map (chunkRef chunkInfo)⟩
  dict := record.dict
  chunkTable := record.chunkTable
  merkleRoot := record.merkleRoot
  signature := record.signature
  signerPubkey := record.signerPubkey
  metaPairs := record.metaPairs

end Build

/-- The hashes a manifest refers to, in its tracks and segments. -/
def manifestChunkHashes (manifest : Manifest) : List String :=
  manifest.tracks.flatMap (fun t => t.initChunks.map ChunkRef.hash) ++
    manifest.segments.flatMap fun s => s.chunks.map ChunkRef.hash

end Cavs
