import Cavs.BatchWire
import Cavs.ClientCache

/-!
# The session route of a client

The client asks for its manifest's segments in groups of ascending ids, the inits of all
tracks with the first group, and puts what comes inline into its cache. References it cannot
follow are fetched by hash afterwards. The files of each track are then put together from
the cache. The server answers requests from one asset; the disk below it is a parameter.
-/
namespace Cavs
open FileProg (Bytes)
open LinkFs (Comp)

section Manifest

/-- What a manifest shows of an asset besides its chunks, tracks and segments. -/
structure AssetLabel where
  uuid : String
  merkleRoot : String
  signature : Option (String × String)
  dict : List UInt32
  metaPairs : List (String × String)
  deriving DecidableEq, Repr

namespace Asset
variable (asset : Asset)

/-- The references of a list of indices; an index beyond the table panics. -/
def refs : List UInt32 → Option (List ChunkRef)
  | [] => some []
  | idx :: rest => do
      let c ← asset.chunkMeta[idx.toNat]?
      return ⟨toHex c.hash, c.lenRaw⟩ :: (← refs rest)

def shownTracks : List TrackRecord → Option (List ManifestTrack)
  | [] => some []
  | t :: rest => do
      let initChunks ← asset.refs t.initChunks
      return ⟨t.trackId, kindLabel t.kind.toU8, t.codec, t.name, t.timescale, initChunks⟩ :: (← shownTracks rest)

def shownSegments : List SegmentRecord → Option (List ManifestSegment)
  | [] => some []
  | s :: rest => do
      let chunks ← asset.refs s.chunks
      let randomAccess := decide (s.flags &&& segmentFlagRandomAccess ≠ 0)
      return ⟨s.segmentId, s.trackId, s.ptsStart, s.duration, randomAccess, chunks⟩ :: (← shownSegments rest)

def manifest (name : String) (label : AssetLabel) : Option Manifest := do
  let tracks ← asset.shownTracks asset.tracks
  let segments ← asset.shownSegments asset.segments
  let dict ← asset.refs label.dict
  return {
    asset := name
    assetUuid := label.uuid
    tracks
    segments
    dict := dict.map ChunkRef.hash
    chunkTable := asset.chunkMeta.map fun c => toHex c.hash
    merkleRoot := label.merkleRoot
    signature := label.signature.map Prod.fst
    signerPubkey := label.signature.map Prod.snd
    metaPairs := label.metaPairs }

/-- A chunk that is asked for by its hash. -/
def chunkByHash (readRaw : UInt32 → Option Bytes) (hex : String) : Option Bytes :=
  ((fromHex hex).bind asset.indexByHash).bind readRaw

end Asset
end Manifest

/-- The files of a cache under the hex names of their hashes. -/
abbrev CacheFiles := String → Option Bytes

namespace CacheFiles
variable (cache : CacheFiles)

def contains (hex : String) : Bool := decide ((strBytes hex).length = 64) && (cache hex).isSome

def put (hash : ChunkHash) (payload : Bytes) : CacheFiles := fun hex =>
  if hex = toHex hash ∧ cache hex = none then some payload else cache hex

/-- An entry that does not have its hash is dropped. -/
def get (hashChunk : Bytes → ChunkHash) (hash : ChunkHash) : Option Bytes × CacheFiles :=
  match cache (toHex hash) with
  | none => (none, cache)
  | some payload =>
      if hashChunk payload ≠ hash then (none, fun hex => if hex = toHex hash then none else cache hex)
      else (some payload, cache)

end CacheFiles

section Client

inductive RouteError where
  | refused (what : String)
  | batch (e : ProtoError)
  | repaired (hex : String)
  | badHash (hex : String)
  | missing (hex : String)
  | unsafeName (name : String)
  | sha256 (name : String)
  deriving DecidableEq, Repr

/-- The cache, and the references that are to be repaired. -/
structure RouteState where
  cache : CacheFiles
  missing : List ChunkHash

variable (env : ContainerEnv)

def wireRaw (hash : ChunkHash) (lenRaw : UInt32) (compression : UInt8) (payload : Bytes) : Except String Bytes :=
  if compression = compressionNone then .ok payload
  else if compression = compressionZstd then
    match env.decompress lenRaw.toNat payload with
    | .ok raw => .ok raw
    | .error e => .error s!"descomprimiendo chunk {toHex hash}: {e}"
  else .error s!"unknown wire compression {compression}"

def consumeInstr : DeliveryInstr → RouteState → Except String Unit × RouteState
  | .ref hash, s =>
      (.ok (), if s.cache.contains (toHex hash) then s else { s with missing := s.missing ++ [hash] })
  | .inline hash lenRaw compression payload, s =>
      match wireRaw env hash lenRaw compression payload with
      | .error e => (.error e, s)
      | .ok raw =>
          if raw.length ≠ lenRaw.toNat ∨ env.hashChunk raw ≠ hash then
            (.error s!"inline chunk {toHex hash} failed hash verification", s)
          else (.ok (), { s with cache := s.cache.put hash raw })

/-- The starts of tracks and segments are passed over. -/
def consumeItem (item : BatchItem) (s : RouteState) : Except String Unit × RouteState :=
  match item.asInstr with
  | some i => consumeInstr env i s
  | none => (.ok (), s)

/-- The lists of at most `n` that follow one another in a list. -/
def chunksOf {α : Type} (n : Nat) (l : List α) : List (List α) :=
  (List.range ((l.length + n - 1) / n)).map fun i => (l.drop (i * n)).take n

def batchSize : Nat := 64

def segmentGroups (manifest : Manifest) : List (List UInt64) :=
  chunksOf batchSize ((manifest.segments.map ManifestSegment.segmentId).insertionSort (· ≤ ·))

/-- The inits are asked for with the first group, if there is one. -/
def batchRequests (manifest : Manifest) : List BatchRequest :=
  match segmentGroups manifest with
  | [] => []
  | group :: rest => ⟨manifest.tracks.map ManifestTrack.trackId, group⟩ :: rest.map fun group => ⟨[], group⟩

/-- What the disk below the server answers, to each batch and to a request by hash. -/
structure ServerDisk where
  reads : (batch : Nat) → Nat → ChunkReads
  readRaw : UInt32 → Option Bytes

variable (id : String) (disk : ServerDisk)

/-- Batches one after another; `n` counts them. -/
def batchLoop : List BatchRequest → (n : Nat) → AppState → RouteState → Except RouteError RouteState
  | [], _, _, s => .ok s
  | req :: rest, n, server, s =>
      match planBatch env server id (disk.reads n) req with
      | (.error e, _) => .error (.refused e)
      | (.panics, _) => .error (.refused "panic")
      | (.ok resp, server) =>
          match decodeStream (consumeItem env) s ⟨0, resp.encode⟩ with
          | (.error e, _) => .error (.batch e)
          | (.ok _, s) => batchLoop rest (n + 1) server s

/-- Neighbours that are equal are kept once. -/
def dedupRuns : List ChunkHash → List ChunkHash
  | [] => []
  | [hash] => [hash]
  | a :: b :: rest => if a = b then dedupRuns (b :: rest) else a :: dedupRuns (b :: rest)

def sortHashes (hashes : List ChunkHash) : List ChunkHash := hashes.insertionSort fun a b => a.1 ≤ b.1

variable (asset : Asset)

def repairRefs : List ChunkHash → CacheFiles → Except RouteError CacheFiles
  | [], cache => .ok cache
  | hash :: rest, cache =>
      match asset.chunkByHash disk.readRaw (toHex hash) with
      | none => .error (.refused (toHex hash))
      | some raw =>
          if env.hashChunk raw ≠ hash then .error (.repaired (toHex hash))
          else repairRefs rest (cache.put hash raw)

/-- The cache once everything was asked for. -/
def fetchSession (manifest : Manifest) (server : AppState) (cache : CacheFiles) : Except RouteError CacheFiles := do
  let s ← batchLoop env id disk (batchRequests manifest) 0 server ⟨cache, []⟩
  repairRefs env disk asset (dedupRuns (sortHashes s.missing)) s.cache

end Client

section Streaming
variable (hashChunk : Bytes → ChunkHash) (sha256 : Bytes → ChunkHash) (out : LinkFs.Path) (manifest : Manifest)

abbrev CacheReads (α : Type) := StateT CacheFiles (Except RouteError) α

def readChunkHex (hex : String) : CacheReads Bytes := fun cache =>
  match fromHex hex with
  | none => .error (.badHash hex)
  | some hash => match cache.get hashChunk hash with
    | (some raw, cache) => .ok (raw, cache)
    | (none, _) => .error (.missing hex)

def readChunkHexes : List String → CacheReads Bytes
  | [] => return []
  | hex :: rest => do
      let raw ← readChunkHex hashChunk hex
      return raw ++ (← readChunkHexes rest)

/-- A file that was written and renamed into place. -/
abbrev WrittenFile := List Comp × Bytes

def segName (ordinal : Nat) : String :=
  "seg_" ++ String.ofList ((Nat.toDigits 10 ordinal).leftpad 5 '0') ++ ".m4s"

def trackSegments (track : ManifestTrack) : List ManifestSegment :=
  (manifest.segments.filter fun s => s.trackId = track.trackId).insertionSort fun a b => a.before b

def inDir (dir : List Comp) (name : String) : List Comp := dir ++ [.name name.toList]

def mp4Path (name : String) : List Comp := joinTo (out.map .name) (name ++ ".mp4")

/-- The segments of a media track, each in a file of its own. -/
def writeSegments (dir : List Comp) : List ManifestSegment → (ordinal : Nat) → CacheReads (List WrittenFile)
  | [], _ => return []
  | seg :: rest, ordinal => do
      let bytes ← readChunkHexes hashChunk (seg.chunks.map ChunkRef.hash)
      return (inDir dir (segName ordinal), bytes) :: (← writeSegments dir rest (ordinal + 1))

def isMedia (track : ManifestTrack) : Bool := track.kind == "video" || track.kind == "audio"

/-- A media track: its inits, its segments, and at last the file they were all written to. -/
def writeMedia (track : ManifestTrack) : CacheReads (List WrittenFile) := do
  let dir := joinTo (out.map .name) track.name
  let init ← readChunkHexes hashChunk (track.initChunks.map ChunkRef.hash)
  let segments ← writeSegments hashChunk dir (trackSegments manifest track) 0
  return (inDir dir "init.mp4", init) ::
    (segments ++ [(mp4Path out track.name, init ++ segments.flatMap Prod.snd)])

/-- Any other track: its segments in one file; its inits are not looked at. -/
def writeData (track : ManifestTrack) : CacheReads (List WrittenFile) := do
  if unsafeName track.name then throw (.unsafeName track.name)
  else do
    let bytes ← readChunkHexes hashChunk
      ((trackSegments manifest track).flatMap fun s => s.chunks.map ChunkRef.hash)
    match expectedSha256 manifest track.name with
    | some expected =>
        if eqIgnoreAsciiCase (toHex (sha256 bytes)) expected then return [(joinTo (out.map .name) track.name, bytes)]
        else throw (.sha256 track.name)
    | none => return [(joinTo (out.map .name) track.name, bytes)]

def writeTrackFiles (track : ManifestTrack) : CacheReads (List WrittenFile) :=
  if isMedia track then writeMedia hashChunk out manifest track else writeData hashChunk sha256 out manifest track

def writeAllTracks : List ManifestTrack → CacheReads (List WrittenFile)
  | [] => return []
  | track :: rest => do
      let files ← writeTrackFiles hashChunk sha256 out manifest track
      return files ++ (← writeAllTracks rest)

/-- The files in the order of their renames. -/
def reconstructStreaming : CacheReads (List WrittenFile) := writeAllTracks hashChunk sha256 out manifest manifest.tracks

/-- The file that is written before it is renamed. -/
def partOf (path : List Comp) : List Comp :=
  match path.getLast? with
  | some (.name last) => path.dropLast ++ [.name (last ++ ".part".toList)]
  | _ => path

abbrev OutputFiles := List Comp → Option Bytes

/-- A file is written beside its place and moved there. -/
def OutputFiles.install (files : OutputFiles) (w : WrittenFile) : OutputFiles := fun path =>
  if path = w.1 then some w.2 else if path = partOf w.1 then none else files path

end Streaming

end Cavs
