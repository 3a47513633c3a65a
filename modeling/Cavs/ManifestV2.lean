import Cavs.ContainerReader
import Cavs.Leb128
import Cavs.Manifest

/-!
# The binary manifest

Hashes go to a dictionary and references to their places in it; the sections are stored
compressed from a size on, behind a table with a hash of each raw section. The decoder
holds every count, length and expansion against a bound before it reads on.
-/
namespace Cavs.ManifestV2
open FileProg (Bytes)
open ByteScan
open Std (ExtTreeMap)

inductive ManifestError where
  | unknownFormat
  | tooLarge
  | unsupportedVersion (major : Nat)
  | truncated (what : String)
  | malformed (what : String)
  | varintOverlong
  | varintOverflow
  | outOfBounds (what : String)
  | sectionHashMismatch (kind : Nat)
  | missingSection (what : String)
  | duplicateSection (kind : Nat)
  | zstd (what : String)
  | encode (what : String)
  deriving DecidableEq, Repr

/-- Where a chunk physically lives: a hint, checked by hash when it is used. -/
structure ChunkLocation where
  packId : ChunkHash
  offset : UInt64
  storedLen : UInt32
  deriving DecidableEq, Repr

abbrev ChunkLocations := ExtTreeMap String ChunkLocation

def manifestMagic : Bytes := [0x43, 0x41, 0x56, 0x53, 0x4d, 0x46, 0x32, 0]
def versionMajor : Nat := 2
def versionMinor : Nat := 0
def hashAlgBlake3 : Nat := 1

def compressionNone : UInt8 := 0
def compressionZstd : UInt8 := 1

def sectionAssetInfo : Nat := 1
def sectionChunkPlan : Nat := 2
def sectionChunkDictionary : Nat := 3
def sectionChunkLocations : Nat := 4

/-- Sections of this raw size and above are stored compressed, if that makes them smaller. -/
def compressMinSection : Nat := 32 * 1024
def sectionZstdLevel : Int := 3

def maxSectionCount : Nat := 64
def maxSectionRaw : Nat := maxManifestBytes
def maxDecompressRatio : Nat := 100
def maxStringLen : Nat := 64 * 1024

/-- A vector holds fewer bytes; growing it further ends the program. -/
def maxVecLen : Nat := 2 ^ 63

section Dictionary

/-- The hashes of a manifest, its chunk table first. -/
structure Dictionary where
  hashes : List ChunkHash
  lens : List UInt32
  indexOf : List (ChunkHash × UInt32)
  chunkTableCount : Nat

def Dictionary.empty : Dictionary := ⟨[], [], [], 0⟩

/-- The place of a hash, a new one if it has none. -/
def Dictionary.place (dict : Dictionary) (hash : ChunkHash) : UInt32 × Dictionary :=
  match dict.indexOf.lookup hash with
  | some index => (index, dict)
  | none =>
      let index := UInt32.ofNat dict.hashes.length
      (index, { dict with
        hashes := dict.hashes ++ [hash]
        lens := dict.lens ++ [0]
        indexOf := (hash, index) :: dict.indexOf })

def badHash (hex : String) : ManifestError := .encode s!"bad chunk hash {hex}"

def Dictionary.intern (dict : Dictionary) (hex : String) (len : Option UInt32) : Except ManifestError Dictionary :=
  match fromHex hex with
  | none => .error (badHash hex)
  | some hash =>
      let (index, dict) := dict.place hash
      match len with
      | some len => .ok { dict with lens := dict.lens.set index.toNat len }
      | none => .ok dict

def Dictionary.internAll (dict : Dictionary) : List (String × Option UInt32) → Except ManifestError Dictionary
  | [] => .ok dict
  | (hex, len) :: rest => do (← dict.intern hex len).internAll rest

/-- A reference as it is interned, with its length. -/
def sized (c : ChunkRef) : String × Option UInt32 := (c.hash, some c.len)

def unsized (hex : String) : String × Option UInt32 := (hex, none)

def Dictionary.build (manifest : Manifest) : Except ManifestError Dictionary := do
  let dict ← Dictionary.empty.internAll (manifest.chunkTable.map unsized)
  let dict := { dict with chunkTableCount := dict.hashes.length }
  let dict ← dict.internAll (manifest.tracks.flatMap fun t => t.initChunks.map sized)
  let dict ← dict.internAll (manifest.segments.flatMap fun s => s.chunks.map sized)
  dict.internAll (manifest.dict.map unsized)

def Dictionary.index (dict : Dictionary) (hex : String) : Except ManifestError UInt32 :=
  match fromHex hex with
  | none => .error (badHash hex)
  | some hash =>
      match dict.indexOf.lookup hash with
      | some index => .ok index
      | none => .error (.encode s!"hash not interned: {hex}")

end Dictionary

section Encode

def writeVaruint (value : Nat) : Bytes := Leb.bytes 9 value

def putStr (s : String) : Except ManifestError Bytes :=
  let bytes := strBytes s
  let size := bytes.length
  if size > maxStringLen then .error (.encode s!"string of {size} bytes exceeds the wire limit")
  else .ok (writeVaruint size ++ bytes)

def putOptStr : Option String → Except ManifestError Bytes
  | some s => do return 1 :: (← putStr s)
  | none => .ok [0]

def putEach {α : Type} (put : α → Except ManifestError Bytes) : List α → Except ManifestError Bytes
  | [] => .ok []
  | x :: rest => do return (← put x) ++ (← putEach put rest)

/-- A list behind its length. -/
def putMany {α : Type} (put : α → Except ManifestError Bytes) (l : List α) : Except ManifestError Bytes := do
  return writeVaruint l.length ++ (← putEach put l)

def putMeta (pair : String × String) : Except ManifestError Bytes := do
  return (← putStr pair.1) ++ (← putStr pair.2)

def encodeAssetInfo (manifest : Manifest) : Except ManifestError Bytes := do
  let asset ← putStr manifest.asset
  let assetUuid ← putStr manifest.assetUuid
  let merkleRoot ← putStr manifest.merkleRoot
  let signature ← putOptStr manifest.signature
  let signerPubkey ← putOptStr manifest.signerPubkey
  let metaPairs ← putMany putMeta manifest.metaPairs
  return asset ++ (assetUuid ++ (merkleRoot ++ (signature ++ (signerPubkey ++ metaPairs))))

variable (dict : Dictionary)

def putIndex (hex : String) : Except ManifestError Bytes := do
  return writeVaruint (← dict.index hex).toNat

def putTrack (track : ManifestTrack) : Except ManifestError Bytes := do
  let kind ← putStr track.kind
  let codec ← putStr track.codec
  let name ← putStr track.name
  let initChunks ← putMany (fun c => putIndex dict c.hash) track.initChunks
  return writeVaruint track.trackId.toNat ++ (kind ++ (codec ++ (name ++
    (writeVaruint track.timescale.toNat ++ initChunks))))

def putSegment (segment : ManifestSegment) : Except ManifestError Bytes := do
  let chunks ← putMany (fun c => putIndex dict c.hash) segment.chunks
  return writeVaruint segment.segmentId.toNat ++ (writeVaruint segment.trackId.toNat ++
    (writeVaruint segment.ptsStart.toNat ++ (writeVaruint segment.duration.toNat ++
      ([if segment.randomAccess then 1 else 0] ++ chunks))))

def encodeChunkPlan (manifest : Manifest) : Except ManifestError Bytes := do
  let tracks ← putMany (putTrack dict) manifest.tracks
  let segments ← putMany (putSegment dict) manifest.segments
  let pins ← putMany (putIndex dict) manifest.dict
  return tracks ++ (segments ++ pins)

def dictionaryRow (row : ChunkHash × UInt32) : Bytes := row.1.1 ++ writeVaruint row.2.toNat

def encodeDictionary : Bytes :=
  writeVaruint dict.hashes.length ++ (writeVaruint dict.chunkTableCount ++
    (dict.hashes.zip dict.lens).flatMap dictionaryRow)

/-- The places that have a location, from place `index` on. -/
def locatedFrom (locations : ChunkLocations) : (index : Nat) → List ChunkHash → List (UInt32 × ChunkLocation)
  | _, [] => []
  | index, hash :: rest =>
      match locations[toHex hash]? with
      | some loc => (UInt32.ofNat index, loc) :: locatedFrom locations (index + 1) rest
      | none => locatedFrom locations (index + 1) rest

/-- Packs in the order they are first named. -/
def packsOf (entries : List (UInt32 × ChunkLocation)) : List ChunkHash :=
  entries.foldl (fun packs e => if e.2.packId ∈ packs then packs else packs ++ [e.2.packId]) []

def locationRow (packs : List ChunkHash) (e : UInt32 × ChunkLocation) : Bytes :=
  writeVaruint e.1.toNat ++ (writeVaruint (packs.idxOf e.2.packId) ++
    (writeVaruint e.2.offset.toNat ++ writeVaruint e.2.storedLen.toNat))

def encodeLocations (locations : ChunkLocations) : Option Bytes :=
  let entries := locatedFrom locations 0 dict.hashes
  if entries.isEmpty then none
  else
    let packs := packsOf entries
    some (writeVaruint packs.length ++ (packs.flatMap (fun pack => pack.1) ++
      (writeVaruint entries.length ++ entries.flatMap (locationRow packs))))

end Encode

section File

structure StoredSection where
  kind : Nat
  compression : UInt8
  bytes : Bytes
  rawLen : Nat
  hash : ChunkHash

variable (env : ContainerEnv)

def rawSections (manifest : Manifest) (locations : Option ChunkLocations) :
    Except ManifestError (List (Nat × Bytes)) := do
  let dict ← Dictionary.build manifest
  let assetInfo ← encodeAssetInfo manifest
  let chunkPlan ← encodeChunkPlan dict manifest
  let hints := (locations.bind (encodeLocations dict)).toList.map fun bytes => (sectionChunkLocations, bytes)
  return (sectionAssetInfo, assetInfo) :: (sectionChunkPlan, chunkPlan) ::
    (sectionChunkDictionary, encodeDictionary dict) :: hints

def storeSection (kind : Nat) (raw : Bytes) : Except ManifestError StoredSection :=
  if raw.length ≥ compressMinSection then
    match env.compress sectionZstdLevel raw with
    | .error e => .error (.zstd e)
    | .ok compressed =>
        if compressed.length < raw.length then
          .ok ⟨kind, compressionZstd, compressed, raw.length, env.hashChunk raw⟩
        else .ok ⟨kind, compressionNone, raw, raw.length, env.hashChunk raw⟩
  else .ok ⟨kind, compressionNone, raw, raw.length, env.hashChunk raw⟩

def storeSections : List (Nat × Bytes) → Except ManifestError (List StoredSection)
  | [] => .ok []
  | (kind, raw) :: rest => do return (← storeSection env kind raw) :: (← storeSections rest)

def tableRow (s : StoredSection) (offset : Nat) : Bytes :=
  writeVaruint s.kind ++ ([s.compression] ++ (writeVaruint offset ++ (writeVaruint s.bytes.length ++
    (writeVaruint s.rawLen ++ s.hash.1))))

def sectionTable : (offset : Nat) → List StoredSection → Bytes
  | _, [] => []
  | offset, s :: rest => tableRow s offset ++ sectionTable (offset + s.bytes.length) rest

def manifestBytes (stored : List StoredSection) : Bytes :=
  manifestMagic ++ (le 2 versionMajor ++ (le 2 versionMinor ++ (le 4 0 ++ (le 1 hashAlgBlake3 ++
    (writeVaruint stored.length ++ (sectionTable 0 stored ++ stored.flatMap StoredSection.bytes))))))

/-- Encode a manifest, with the locations of its chunks if there are any. -/
def encodeManifestV2WithLocations (manifest : Manifest) (locations : Option ChunkLocations) :
    Outcome ManifestError Bytes := do
  let raws ← Outcome.ofExcept (rawSections manifest locations)
  if raws.all fun s => s.2.length < maxVecLen then
    let stored ← Outcome.ofExcept (storeSections env raws)
    return manifestBytes stored
  else .panics

end File

section Decode

abbrev ManifestScan := Scan ManifestError Unit

def readVaruint : ManifestScan Nat :=
  Leb.readFrom (.truncated "varint") .varintOverlong .varintOverflow 9 0 0

def takeNum (w : Nat) : ManifestScan Nat := Scan.num (.truncated "manifest bytes") w

def takeHash : ManifestScan ChunkHash := do
  Scan.ofOption (.truncated "manifest bytes") (hashOf (← Scan.take (.truncated "manifest bytes") 32))

def takeVaru32 (what : String) : ManifestScan UInt32 := do
  let value ← readVaruint
  if value < 2 ^ 32 then return UInt32.ofNat value else Scan.throw (.outOfBounds what)

def takeVaru64 : ManifestScan UInt64 := do return UInt64.ofNat (← readVaruint)

def takeStr : ManifestScan String := do
  let size ← readVaruint
  if size > maxStringLen then Scan.throw (.outOfBounds "string length")
  else
    let bytes ← Scan.take (.truncated "manifest bytes") size
    Scan.ofOption (.malformed "utf-8 string") (utf8 bytes)

def takeOptStr : ManifestScan (Option String) := do
  let tag ← takeNum 1
  if tag = 0 then return none
  else if tag = 1 then return some (← takeStr)
  else Scan.throw (.malformed "option tag")

/-- A list behind its length, which may not ask for more than the rest has room for at
`least` bytes an item. -/
def takeMany {α : Type} (least : Nat) (what : String) (row : ManifestScan α) : ManifestScan (List α) := do
  let count ← readVaruint
  let left ← Scan.remaining
  if count > left / least + 1 then Scan.throw (.outOfBounds what) else Scan.collect count row

/-- A decoder run on a whole section, which it must use up. -/
def consume {α : Type} (what : String) (m : ManifestScan α) (bytes : Bytes) : Except ManifestError α :=
  match (m () ⟨0, bytes⟩).1 with
  | .ok (a, c) => if c.rest = [] then .ok a else .error (.malformed what)
  | .error e => .error e

def takeMeta : ManifestScan (String × String) := do
  let key ← takeStr
  return (key, ← takeStr)

def decodeAssetInfo (bytes : Bytes) : Except ManifestError Manifest :=
  consume "AssetInfo" (do
    let asset ← takeStr
    let assetUuid ← takeStr
    let merkleRoot ← takeStr
    let signature ← takeOptStr
    let signerPubkey ← takeOptStr
    let metaPairs ← takeMany 2 "meta count" takeMeta
    return { asset, assetUuid, tracks := [], segments := [], dict := [], chunkTable := [], merkleRoot,
             signature, signerPubkey, metaPairs }) bytes

def takeDictRow : ManifestScan (ChunkHash × UInt32) := do
  let hash ← takeHash
  return (hash, ← takeVaru32 "chunk length")

/-- The hashes with their lengths, and how many of them are the chunk table. -/
def decodeDictionary (bytes : Bytes) : Except ManifestError (List (ChunkHash × UInt32) × Nat) :=
  consume "ChunkDictionary" (do
    let count ← readVaruint
    let chunkTableCount ← readVaruint
    if chunkTableCount > count then Scan.throw (.malformed "chunk table count")
    else
      let left ← Scan.remaining
      if count > left / 33 + 1 then Scan.throw (.outOfBounds "dictionary count")
      else return (← Scan.collect count takeDictRow, chunkTableCount)) bytes

variable (hex : List String) (lens : List UInt32)

def takeHex : ManifestScan String := do
  Scan.ofOption (.outOfBounds "dictionary index") hex[← readVaruint]?

def takeRef : ManifestScan ChunkRef := do
  let index ← readVaruint
  let hash ← Scan.ofOption (.outOfBounds "dictionary index") hex[index]?
  return ⟨hash, lens.getD index 0⟩

def takeRefs : ManifestScan (List ChunkRef) := takeMany 1 "chunk ref count" (takeRef hex lens)

def takeTrack : ManifestScan ManifestTrack := do
  let trackId ← takeVaru32 "track id"
  let kind ← takeStr
  let codec ← takeStr
  let name ← takeStr
  let timescale ← takeVaru32 "timescale"
  let initChunks ← takeRefs hex lens
  return { trackId, kind, codec, name, timescale, initChunks }

def takeFlag : ManifestScan Bool := do
  let tag ← takeNum 1
  if tag = 0 then return false
  else if tag = 1 then return true
  else Scan.throw (.malformed "random access flag")

def takeSegment : ManifestScan ManifestSegment := do
  let segmentId ← takeVaru64
  let trackId ← takeVaru32 "track id"
  let ptsStart ← takeVaru64
  let duration ← takeVaru32 "duration"
  let randomAccess ← takeFlag
  let chunks ← takeRefs hex lens
  return { segmentId, trackId, ptsStart, duration, randomAccess, chunks }

/-- The tracks, the segments and the pinned hashes. -/
def decodeChunkPlan (bytes : Bytes) :
    Except ManifestError (List ManifestTrack × List ManifestSegment × List String) :=
  consume "ChunkPlan" (do
    let tracks ← takeMany 4 "track count" (takeTrack hex lens)
    let segments ← takeMany 4 "segment count" (takeSegment hex lens)
    let pins ← takeMany 1 "dict pin count" (takeHex hex)
    return (tracks, segments, pins)) bytes

def takeLocation (packs : List ChunkHash) : ManifestScan (String × ChunkLocation) := do
  let hash ← takeHex hex
  let packId ← Scan.ofOption (.outOfBounds "pack ordinal") packs[← readVaruint]?
  let offset ← takeVaru64
  let storedLen ← takeVaru32 "stored length"
  return (hash, { packId, offset, storedLen })

def takeLocations (packs : List ChunkHash) : (count : Nat) → ChunkLocations → ManifestScan ChunkLocations
  | 0, found => pure found
  | count + 1, found => do
      let (hash, loc) ← takeLocation hex packs
      if hash ∈ found then Scan.throw (.malformed "duplicate chunk location")
      else takeLocations packs count (found.insert hash loc)

def decodeLocations (bytes : Bytes) : Except ManifestError ChunkLocations :=
  consume "ChunkLocations" (do
    let packs ← takeMany 32 "pack count" takeHash
    let count ← readVaruint
    let left ← Scan.remaining
    if count > left / 4 + 1 then Scan.throw (.outOfBounds "location count")
    else takeLocations hex packs count ∅) bytes

end Decode

section Open

structure SectionRef where
  kind : Nat
  compression : UInt8
  offset : Nat
  storedLen : Nat
  rawLen : Nat
  hash : ChunkHash

def takeSectionRef : ManifestScan SectionRef := do
  let kind ← readVaruint
  let compression ← takeNum 1
  let offset ← readVaruint
  let storedLen ← readVaruint
  let rawLen ← readVaruint
  let hash ← takeHash
  return { kind, compression := UInt8.ofNat compression, offset, storedLen, rawLen, hash }

def readTable : ManifestScan (List SectionRef) := do
  let major ← takeNum 2
  let _minor ← takeNum 2
  if major ≠ versionMajor then Scan.throw (.unsupportedVersion major) else
  let _flags ← takeNum 4
  let hashAlg ← takeNum 1
  if hashAlg ≠ hashAlgBlake3 then Scan.throw (.malformed "hash algorithm") else
  let count ← readVaruint
  if count > maxSectionCount then Scan.throw (.outOfBounds "section count")
  else Scan.collect count takeSectionRef

/-- The most a compressed section of this length may say it expands to. -/
def expandLimit (storedLen : Nat) : Nat := min (storedLen * maxDecompressRatio) (2 ^ 64 - 1)

variable (env : ContainerEnv)

/-- The raw bytes behind stored ones. What a compressed section may expand to is bounded
before it is decompressed. -/
def unpackSection (s : SectionRef) (stored : Bytes) : Except ManifestError Bytes :=
  if s.compression = compressionNone then
    if s.rawLen ≠ s.storedLen then .error (.malformed "uncompressed section lengths") else .ok stored
  else if s.compression = compressionZstd then
    if s.rawLen > expandLimit s.storedLen then .error (.outOfBounds "section decompressed size")
    else match env.decompress s.rawLen stored with
      | .error e => .error (.zstd e)
      | .ok raw =>
          if raw.length ≠ s.rawLen then .error (.malformed "section decompressed length") else .ok raw
  else .error (.malformed "section compression")

def openSection (data : Bytes) (s : SectionRef) : Except ManifestError Bytes :=
  if s.offset > data.length ∨ s.storedLen > data.length - s.offset then .error (.outOfBounds "section bounds")
  else if s.rawLen > maxSectionRaw then .error (.outOfBounds "section raw length")
  else do
    let raw ← unpackSection env s ((data.drop s.offset).take s.storedLen)
    if env.hashChunk raw ≠ s.hash then .error (.sectionHashMismatch s.kind) else .ok raw

/-- The sections a reader knows, each once. -/
structure Slots where
  assetInfo : Option Bytes
  chunkPlan : Option Bytes
  dictionary : Option Bytes
  locations : Option Bytes

def Slots.empty : Slots := ⟨none, none, none, none⟩

/-- The slot of a section kind; a kind nobody knows has none. -/
def Slots.get (slots : Slots) (kind : Nat) : Option (Option Bytes) :=
  if kind = sectionAssetInfo then some slots.assetInfo
  else if kind = sectionChunkPlan then some slots.chunkPlan
  else if kind = sectionChunkDictionary then some slots.dictionary
  else if kind = sectionChunkLocations then some slots.locations
  else none

def Slots.put (slots : Slots) (kind : Nat) (raw : Bytes) : Slots :=
  if kind = sectionAssetInfo then { slots with assetInfo := some raw }
  else if kind = sectionChunkPlan then { slots with chunkPlan := some raw }
  else if kind = sectionChunkDictionary then { slots with dictionary := some raw }
  else if kind = sectionChunkLocations then { slots with locations := some raw }
  else slots

def openSections (data : Bytes) : List SectionRef → Slots → Except ManifestError Slots
  | [], slots => .ok slots
  | s :: rest, slots =>
      match slots.get s.kind with
      | none => openSections data rest slots
      | some (some _) => .error (.duplicateSection s.kind)
      | some none => do
          let raw ← openSection env data s
          openSections data rest (slots.put s.kind raw)

def required (what : String) : Option Bytes → Except ManifestError Bytes
  | some bytes => .ok bytes
  | none => .error (.missingSection what)

def decodeSlots (slots : Slots) : Except ManifestError (Manifest × Option ChunkLocations) := do
  let dictionary ← required "ChunkDictionary" slots.dictionary
  let assetInfo ← required "AssetInfo" slots.assetInfo
  let chunkPlan ← required "ChunkPlan" slots.chunkPlan
  let (rows, chunkTableCount) ← decodeDictionary dictionary
  let hex := rows.map fun row => toHex row.1
  let manifest ← decodeAssetInfo assetInfo
  let (tracks, segments, dict) ← decodeChunkPlan hex (rows.map Prod.snd) chunkPlan
  let manifest := { manifest with chunkTable := hex.take chunkTableCount, tracks, segments, dict }
  match slots.locations with
  | some bytes => do return (manifest, some (← decodeLocations hex bytes))
  | none => return (manifest, none)

/-- Decode a binary manifest with the locations it carries. -/
def decodeManifestV2Full (bytes : Bytes) : Except ManifestError (Manifest × Option ChunkLocations) :=
  if bytes.length > maxManifestBytes then .error .tooLarge
  else if bytes.take manifestMagic.length ≠ manifestMagic then .error .unknownFormat
  else
    match (readTable () ⟨0, bytes.drop manifestMagic.length⟩).1 with
    | .error e => .error e
    | .ok (table, c) => do decodeSlots (← openSections env c.rest table .empty)

end Open

end Cavs.ManifestV2
