import Cavs.ContainerReader

/-!
# Writing a container

Chunks are kept once for each hash and go into the data section as they come; the tables,
the directory and the superblock are written when the container is finished.
-/
namespace Cavs
open FileProg (Bytes)
open ByteScan

def compressMinLen : Nat := 512

def compressionPays (storedLen rawLen : Nat) : Bool := decide (storedLen < rawLen - rawLen / 16)

abbrev Uuid := { b : Bytes // b.length = 16 }

def zeroUuid : Uuid := ⟨List.replicate 16 0, rfl⟩

/-- A container being written; `data` is what went into the data section. -/
structure ContainerWriter where
  cas : List (ChunkHash × UInt32)
  chunks : List ChunkRecord
  tracks : List TrackRecord
  segments : List SegmentRecord
  dict : List UInt32
  metaPairs : List (String × String)
  data : Bytes
  logicalRaw : Nat
  logicalChunks : Nat
  compression : UInt8
  zstdLevel : Int
  bg4 : Bool
  timescale : UInt32
  assetUuid : Uuid
  signer : Option ChunkHash

structure PackStats where
  fileSize : Nat
  uniqueChunks : Nat
  logicalChunks : Nat
  logicalRaw : Nat
  uniqueRaw : Nat
  stored : Nat
  merkleRoot : ChunkHash
  deriving DecidableEq, Repr

section Encode

/-- Text behind its length; what does not fit the length is lost. -/
def encodeText (w : Nat) (s : String) : Bytes := le w (strBytes s).length ++ strBytes s

def encodeTable {α : Type} (row : α → Bytes) (rows : List α) : Bytes := le 4 rows.length ++ rows.flatMap row

def encodeChunkIndex (c : UInt32) : Bytes := le 4 c.toNat

def encodeTrack (t : TrackRecord) : Bytes :=
  le 4 t.trackId.toNat ++ (le 1 t.kind.toU8.toNat ++ (le 1 t.flags.toNat ++ (encodeText 2 t.codec ++
    (encodeText 2 t.name ++ (le 4 t.timescale.toNat ++ encodeTable encodeChunkIndex t.initChunks)))))

def encodeChunkRow (c : ChunkRecord) : Bytes :=
  c.hash.1 ++ (le 8 c.dataOffset ++ (le 4 c.lenRaw.toNat ++ (le 4 c.lenStored.toNat ++ le 4 c.flags.toNat)))

def encodeSegment (s : SegmentRecord) : Bytes :=
  le 8 s.segmentId.toNat ++ (le 4 s.trackId.toNat ++ (le 8 s.ptsStart.toNat ++ (le 4 s.duration.toNat ++
    (le 4 s.flags.toNat ++ encodeTable encodeChunkIndex s.chunks))))

def encodeMetaPair (p : String × String) : Bytes := encodeText 2 p.1 ++ encodeText 4 p.2

def encodeIntegrity (i : Integrity) : Bytes :=
  i.merkleRoot.1 ++ (le 8 i.chunkCount ++ (le 8 i.totalRaw ++ le 8 i.totalStored))

def encodeSectionEntry (e : SectionEntry) : Bytes :=
  le 4 e.sectionType.toNat ++ (le 8 e.offset ++ (le 8 e.length ++ e.hash.1))

def encodeSuperblock (sb : Superblock) : Bytes :=
  le 2 sb.versionMajor ++ (le 2 sb.versionMinor ++ (le 4 sb.featureFlags.toNat ++ (le 1 sb.hashAlgo ++
    (le 1 sb.compressionAlgo ++ (le 2 0 ++ (sb.assetUuid ++ (le 4 sb.timescale.toNat ++ (le 4 sb.sectionCount ++
      (le 8 sb.sectionDirOffset ++ le 8 sb.fileSize)))))))))

/-- What stands in the tables of a container. -/
structure Tables where
  tracks : List TrackRecord
  dict : List UInt32
  chunks : List ChunkRecord
  segments : List SegmentRecord
  metaPairs : List (String × String)
  integrity : Integrity

/-- The sections behind the data, in the order of the file. -/
def Tables.sections (t : Tables) : List (SectionType × Bytes) :=
  [(.tracks, encodeTable encodeTrack t.tracks),
    (.dict, encodeTable encodeChunkIndex t.dict),
    (.chunks, encodeTable encodeChunkRow t.chunks),
    (.segments, encodeTable encodeSegment t.segments),
    (.metaPairs, encodeTable encodeMetaPair t.metaPairs),
    (.integrity, encodeIntegrity t.integrity)]

variable (env : ContainerEnv)

/-- Directory entries of sections that lie one after another. -/
def entriesFrom : Nat → List (SectionType × Bytes) → List SectionEntry
  | _, [] => []
  | offset, (ty, bytes) :: rest => ⟨ty, offset, bytes.length, env.hashChunk bytes⟩ :: entriesFrom (offset + bytes.length) rest

/-- The data section comes first. -/
def directoryOf (data : Bytes) (tables : Tables) : List SectionEntry :=
  entriesFrom env superblockLen ((.data, data) :: tables.sections)

def directoryOffset (data : Bytes) (tables : Tables) : Nat :=
  superblockLen + data.length + (tables.sections.flatMap Prod.snd).length

def containerSize (data : Bytes) (tables : Tables) : Nat :=
  directoryOffset data tables + ((directoryOf env data tables).flatMap encodeSectionEntry).length

/-- The superblock of a finished container. -/
def superblockOf (compression : UInt8) (timescale : UInt32) (assetUuid : Uuid) (data : Bytes) (tables : Tables) :
    Superblock where
  versionMajor := containerMajor
  versionMinor := containerMinor
  featureFlags := 0
  hashAlgo := 1
  compressionAlgo := compression.toNat
  assetUuid := assetUuid.1
  timescale
  sectionCount := (directoryOf env data tables).length
  sectionDirOffset := directoryOffset data tables
  fileSize := containerSize env data tables

/-- The bytes of a container. -/
def containerBytes (sb : Superblock) (data : Bytes) (tables : Tables) : Bytes :=
  containerMagic ++ (encodeSuperblock sb ++ (List.replicate 8 0 ++ (data ++ (tables.sections.flatMap Prod.snd ++
    (directoryOf env data tables).flatMap encodeSectionEntry))))

end Encode

section Write
variable (env : ContainerEnv)

def zstdCompress (level : Int) (raw : Bytes) : FormatResult Bytes :=
  match env.compress level raw with
  | .error e => .error (.zstd e)
  | .ok z => .ok z

/-- The stored form of a payload and its flags; none is the payload as it is. The second
form is tried where the first one is poor. -/
def prepareStored (raw : Bytes) (level : Int) (tryBg4 : Bool) : FormatResult (Option (Bytes × UInt32)) := do
  let plain ← zstdCompress env level raw
  let plainPays := compressionPays plain.length raw.length
  if !tryBg4 || (plainPays && decide (plain.length ≤ raw.length / 4 * 3)) then
    return if plainPays then some (plain, chunkFlagZstd) else none
  else do
    let bg ← zstdCompress env level (bg4Group raw)
    let bgPays := compressionPays bg.length raw.length
    if !plainPays && !bgPays then return none
    else if bgPays && (!plainPays || decide (bg.length < plain.length)) then
      return some (bg, chunkFlagZstd ||| chunkFlagBg4)
    else return some (plain, chunkFlagZstd)

namespace ContainerWriter

def create (assetUuid : Uuid) (timescale : UInt32) (compress : Bool) : ContainerWriter where
  cas := []
  chunks := []
  tracks := []
  segments := []
  dict := []
  metaPairs := []
  data := []
  logicalRaw := 0
  logicalChunks := 0
  compression := if compress then compressionZstd else compressionNone
  zstdLevel := 3
  bg4 := false
  timescale
  assetUuid
  signer := none

variable (w : ContainerWriter)

/-- The index of a hash, and whether it is new. -/
def intern (hash : ChunkHash) : UInt32 × Bool × ContainerWriter :=
  match w.cas.lookup hash with
  | some index => (index, false, w)
  | none =>
      let index := UInt32.ofNat w.chunks.length
      (index, true, { w with cas := w.cas ++ [(hash, index)] })

/-- The stored form goes into the data section and its record into the table. -/
def store (hash : ChunkHash) (raw : Bytes) (form : Option (Bytes × UInt32)) : ContainerWriter :=
  let (stored, flags) := form.getD (raw, 0)
  { w with
    data := w.data ++ stored
    chunks := w.chunks ++ [⟨hash, w.data.length, UInt32.ofNat raw.length, UInt32.ofNat stored.length, flags⟩] }

def count (raw : Bytes) : ContainerWriter :=
  { w with logicalRaw := w.logicalRaw + raw.length, logicalChunks := w.logicalChunks + 1 }

/-- The form a payload gets when it is new. -/
def formOf (raw : Bytes) : FormatResult (Option (Bytes × UInt32)) :=
  if w.compression = compressionZstd ∧ compressMinLen ≤ raw.length then prepareStored env raw w.zstdLevel w.bg4
  else return none

def addChunk (raw : Bytes) : FormatResult (UInt32 × ContainerWriter) := do
  let hash := env.hashChunk raw
  let (index, isNew, w) := (w.count raw).intern hash
  if isNew then do
    let form ← w.formOf env raw
    return (index, w.store hash raw form)
  else return (index, w)

/-- A slice; one that is out of range ends the program. -/
def slice (data : Bytes) (range : Nat × Nat) : FormatResult Bytes :=
  if range.1 ≤ range.2 ∧ range.2 ≤ data.length then .ok ((data.drop range.1).take (range.2 - range.1)) else .panics

def slices (data : Bytes) : List (Nat × Nat) → FormatResult (List Bytes)
  | [] => return []
  | range :: rest => do
      let raw ← slice data range
      return raw :: (← slices data rest)

/-- The forms of the payloads that are new, and new in the batch. -/
def prepareAll : (seen : List ChunkHash) → List Bytes → FormatResult (List (Option (Bytes × UInt32)))
  | _, [] => return []
  | seen, raw :: rest => do
      let hash := env.hashChunk raw
      let first := (w.cas.lookup hash).isNone && !seen.contains hash
      let form ← (if first then w.formOf env raw else pure none)
      return form :: (← prepareAll (if first then hash :: seen else seen) rest)

/-- Store prepared payloads one after another. -/
def storeAll (w : ContainerWriter) : List (Bytes × Option (Bytes × UInt32)) → List UInt32 × ContainerWriter
  | [] => ([], w)
  | (raw, form) :: rest =>
      let hash := env.hashChunk raw
      let (index, isNew, w) := (w.count raw).intern hash
      let w := if isNew then w.store hash raw form else w
      let (indices, w) := storeAll w rest
      (index :: indices, w)

/-- Many payloads at once: all are prepared before the first is stored. -/
def addChunksParallel (data : Bytes) (ranges : List (Nat × Nat)) : FormatResult (List UInt32 × ContainerWriter) := do
  let raws ← slices data ranges
  let forms ← w.prepareAll env [] raws
  return w.storeAll env (raws.zip forms)

def checkChunkIndex (index : UInt32) : FormatResult Unit :=
  if index.toNat < w.chunks.length then .ok () else .error (.chunkIndexOutOfRange index)

def checkChunkIndices : List UInt32 → FormatResult Unit
  | [] => return ()
  | index :: rest => do
      w.checkChunkIndex index
      checkChunkIndices rest

def addTrack (track : TrackRecord) : FormatResult ContainerWriter := do
  w.checkChunkIndices track.initChunks
  return { w with tracks := w.tracks ++ [track] }

def addSegment (segment : SegmentRecord) : FormatResult ContainerWriter := do
  w.checkChunkIndices segment.chunks
  return { w with segments := w.segments ++ [segment] }

def pinDict (index : UInt32) : FormatResult ContainerWriter := do
  w.checkChunkIndex index
  return if index ∈ w.dict then w else { w with dict := w.dict ++ [index] }

def setMeta (key value : String) : ContainerWriter := { w with metaPairs := w.metaPairs ++ [(key, value)] }

def integrity : Integrity where
  merkleRoot := merkleRoot env.hashChunk (w.chunks.map ChunkRecord.hash)
  chunkCount := w.chunks.length
  totalRaw := (w.chunks.map fun c => c.lenRaw.toNat).sum
  totalStored := (w.chunks.map fun c => c.lenStored.toNat).sum

/-- The entries a signed container gets at its end. -/
def signaturePairs : List (String × String) :=
  match w.signer with
  | none => []
  | some secret =>
      let message := contentSignatureMessage (w.integrity env).merkleRoot w.chunks.length
      [("sig.ed25519", String.ofList ((env.sign secret message).flatMap hexPair)),
        ("sig.pubkey", toHex (env.publicKey secret))]

def tables : Tables where
  tracks := w.tracks
  dict := w.dict
  chunks := w.chunks
  segments := w.segments
  metaPairs := w.metaPairs ++ w.signaturePairs env
  integrity := w.integrity env

/-- Text that is written behind a length of two bytes. -/
def texts : List String :=
  w.tracks.flatMap (fun t => [t.codec, t.name]) ++ (w.metaPairs ++ w.signaturePairs env).map Prod.fst

/-- The file, and what it holds; text that is too long ends the program, and no file has a
position that is no signed number of 64 bits. -/
def finish : FormatResult (Bytes × PackStats) :=
  if (w.texts env).all fun s => decide ((strBytes s).length ≤ 2 ^ 16 - 1) then do
    let fileSize := containerSize env w.data (w.tables env)
    if 2 ^ 63 ≤ fileSize then .error (.io .other) else
    let sb := superblockOf env w.compression w.timescale w.assetUuid w.data (w.tables env)
    return (containerBytes env sb w.data (w.tables env), {
      fileSize
      uniqueChunks := w.chunks.length
      logicalChunks := w.logicalChunks
      logicalRaw := w.logicalRaw
      uniqueRaw := (w.integrity env).totalRaw
      stored := (w.integrity env).totalStored
      merkleRoot := (w.integrity env).merkleRoot })
  else .panics

end ContainerWriter
end Write
end Cavs
