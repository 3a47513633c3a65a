import Cavs.Entries

/-!
# The container format

A container keeps chunks in their stored form in one data section, and tables that say how
tracks and segments are put together from them. Every table has a section of its own in a
directory that the superblock points to.
-/
namespace Cavs
open FileProg (Bytes IoError)
open ByteScan

def containerMagic : Bytes := [67, 65, 86, 83]
def containerMajor : Nat := 1
def containerMinor : Nat := 0
def superblockLen : Nat := 64
def sectionDirEntryLen : Nat := 52
def maxChunkRaw : Nat := 256 * 1024 * 1024
def compressionNone : UInt8 := 0
def compressionZstd : UInt8 := 1
def chunkFlagZstd : UInt32 := 1
def chunkFlagBg4 : UInt32 := 2
def segmentFlagRandomAccess : UInt32 := 1

inductive SectionType where
  | tracks | dict | chunks | segments | data | integrity | metaPairs
  deriving DecidableEq, Repr

def SectionType.toNat : SectionType → Nat
  | .tracks => 1
  | .dict => 2
  | .chunks => 3
  | .segments => 4
  | .data => 5
  | .integrity => 6
  | .metaPairs => 7

def SectionType.fromU32 : Nat → Option SectionType
  | 1 => some .tracks
  | 2 => some .dict
  | 3 => some .chunks
  | 4 => some .segments
  | 5 => some .data
  | 6 => some .integrity
  | 7 => some .metaPairs
  | _ => none

inductive TrackKind where
  | video | audio | subtitle | data
  deriving DecidableEq, Repr

def TrackKind.toU8 : TrackKind → UInt8
  | .video => 0
  | .audio => 1
  | .subtitle => 2
  | .data => 3

def TrackKind.fromU8 : Nat → Option TrackKind
  | 0 => some .video
  | 1 => some .audio
  | 2 => some .subtitle
  | 3 => some .data
  | _ => none

inductive FormatError where
  | io (e : IoError)
  | badMagic
  | unsupportedVersion (version : Nat)
  | malformed (what : String)
  | missingSection (ty : SectionType)
  | unknownValue (what : String) (value : Nat)
  | chunkHashMismatch (index : UInt32)
  | sectionHashMismatch (ty : SectionType)
  | merkleMismatch
  | signatureInvalid
  | chunkIndexOutOfRange (index : UInt32)
  | trackNotFound (track : UInt32)
  | zstd (what : String)
  | store (e : StoreError)
  deriving DecidableEq, Repr

structure Superblock where
  versionMajor : Nat
  versionMinor : Nat
  featureFlags : UInt32
  hashAlgo : Nat
  compressionAlgo : Nat
  assetUuid : Bytes
  timescale : UInt32
  sectionCount : Nat
  sectionDirOffset : Nat
  fileSize : Nat
  deriving DecidableEq, Repr

structure SectionEntry where
  sectionType : SectionType
  offset : Nat
  length : Nat
  hash : ChunkHash
  deriving DecidableEq, Repr

/-- Where a chunk lies in the data section, and in which form. -/
structure ChunkRecord where
  hash : ChunkHash
  dataOffset : Nat
  lenRaw : UInt32
  lenStored : UInt32
  flags : UInt32
  deriving DecidableEq, Repr

structure TrackRecord where
  trackId : UInt32
  kind : TrackKind
  flags : UInt8
  codec : String
  name : String
  timescale : UInt32
  initChunks : List UInt32
  deriving DecidableEq, Repr

structure SegmentRecord where
  segmentId : UInt64
  trackId : UInt32
  ptsStart : UInt64
  duration : UInt32
  flags : UInt32
  chunks : List UInt32
  deriving DecidableEq, Repr

structure Integrity where
  merkleRoot : ChunkHash
  chunkCount : Nat
  totalRaw : Nat
  totalStored : Nat
  deriving DecidableEq, Repr

section Grouping

/-- The positions of `n` bytes, lane by lane: those that leave 0 when divided by 4, then
those that leave 1, 2 and 3. -/
def lanes (n : Nat) : List Nat :=
  (List.range 4).flatMap fun lane => (List.range ((n + 3 - lane) / 4)).map fun k => lane + 4 * k

def bg4Group (raw : Bytes) : Bytes := (lanes raw.length).map fun i => raw.getD i 0

/-- Each byte goes back to the position it was taken from. -/
def bg4Ungroup (grouped : Bytes) : Bytes :=
  ((lanes grouped.length).zip grouped).foldl (fun out p => out.set p.1 p.2) (List.replicate grouped.length 0)

theorem mem_lanes {n i : Nat} : i ∈ lanes n ↔ i < n := by
  simp only [lanes, List.mem_flatMap, List.mem_range, List.mem_map]
  constructor
  · rintro ⟨lane, small, k, within, rfl⟩
    omega
  · intro within
    exact ⟨i % 4, Nat.mod_lt _ (by decide), i / 4, by omega, by omega⟩

theorem lanes_length (n : Nat) : (lanes n).length = n := by
  simp only [lanes, List.length_flatMap, List.length_map, List.length_range]
  change ((n + 3 - 0) / 4 + ((n + 3 - 1) / 4 + ((n + 3 - 2) / 4 + ((n + 3 - 3) / 4 + 0)))) = n
  omega

@[simp] theorem bg4Group_length (raw : Bytes) : (bg4Group raw).length = raw.length := by
  rw [bg4Group, List.length_map, lanes_length]

/-- Writing what a function says at some positions. -/
theorem foldl_set_zip (f : Nat → UInt8) (l : List Nat) (out : Bytes) (i : Nat) (within : i < out.length) :
    ((l.zip (l.map f)).foldl (fun out p => out.set p.1 p.2) out)[i]? =
      if i ∈ l then some (f i) else out[i]? := by
  induction l generalizing out with
  | nil => simp
  | cons j l ih =>
      rw [List.map_cons, List.zip_cons_cons, List.foldl_cons, ih _ (by simpa using within)]
      by_cases later : i ∈ l
      · simp [later]
      · by_cases here : i = j
        · subst here
          simp [later, within]
        · simp [later, here, List.getElem?_set_ne (Ne.symm here)]

theorem foldl_set_length (l : List (Nat × UInt8)) (out : Bytes) :
    (l.foldl (fun out p => out.set p.1 p.2) out).length = out.length := by
  induction l generalizing out with
  | nil => rfl
  | cons p l ih => rw [List.foldl_cons, ih, List.length_set]

/-- Grouping is undone for every length. -/
theorem bg4Ungroup_bg4Group (raw : Bytes) : bg4Ungroup (bg4Group raw) = raw := by
  rw [bg4Ungroup, bg4Group_length, bg4Group]
  apply List.ext_getElem?
  intro i
  by_cases within : i < raw.length
  · rw [foldl_set_zip _ _ _ _ (by simpa using within), if_pos (mem_lanes.mpr within)]
    simp [List.getD_eq_getElem?_getD, List.getElem?_eq_getElem within]
  · rw [List.getElem?_eq_none (by rw [foldl_set_length]; simpa using within), List.getElem?_eq_none (by omega)]

end Grouping

section Merkle
variable (hashChunk : Bytes → ChunkHash)

/-- One level up: a node that is left over is carried unchanged. -/
def merklePairs : List ChunkHash → List ChunkHash
  | a :: b :: rest => hashChunk (a.1 ++ b.1) :: merklePairs rest
  | rest => rest

/-- Levels until one node is left; there are fewer levels than leaves. -/
def merkleLevels : Nat → List ChunkHash → List ChunkHash
  | 0, level => level
  | fuel + 1, level => if level.length > 1 then merkleLevels fuel (merklePairs hashChunk level) else level

def merkleRoot (hashes : List ChunkHash) : ChunkHash :=
  match merkleLevels hashChunk hashes.length hashes with
  | [] => hashChunk []
  | root :: _ => root

theorem merklePairs_length (level : List ChunkHash) :
    (merklePairs hashChunk level).length = (level.length + 1) / 2 := by
  fun_induction merklePairs with
  | case1 a b rest ih =>
      simp only [List.length_cons, ih]
      omega
  | case2 rest short =>
      match rest, short with
      | [], _ => rfl
      | [_], _ => simp
      | a :: b :: rest, short => exact absurd rfl (short a b rest)

/-- The message that a content signature covers. -/
def contentSignatureMessage (root : ChunkHash) (chunkCount : Nat) : Bytes :=
  strBytes "CAVS1-SIG-V1" ++ (root.1 ++ le 8 chunkCount)

end Merkle

section Decode

abbrev ContainerScan := Scan FormatError Unit

/-- A decoder run on a whole section; what it leaves behind is not looked at. -/
def runSection {α : Type} (m : ContainerScan α) (bytes : Bytes) : Except FormatError α :=
  match (m () ⟨0, bytes⟩).1 with
  | .ok (a, _) => .ok a
  | .error e => .error e

variable (what : String)

def wireNum (w : Nat) : ContainerScan Nat := Scan.num (.malformed what) w
def wireU8 : ContainerScan UInt8 := do return UInt8.ofNat (← wireNum what 1)
def wireU32 : ContainerScan UInt32 := do return UInt32.ofNat (← wireNum what 4)
def wireU64 : ContainerScan UInt64 := do return UInt64.ofNat (← wireNum what 8)

def wireHash : ContainerScan ChunkHash := do
  Scan.ofOption (.malformed what) (hashOf (← Scan.take (.malformed what) 32))

/-- Text behind its length. -/
def wireText (w : Nat) : ContainerScan String := do
  let bytes ← Scan.take (.malformed what) (← wireNum what w)
  Scan.ofOption (.malformed what) (utf8 bytes)

/-- A table behind its number of rows. -/
def wireTable {α : Type} (row : ContainerScan α) : ContainerScan (List α) := do
  Scan.collect (← wireNum what 4) row

def readTrack : ContainerScan TrackRecord := do
  let trackId ← wireU32 "tracks"
  let kindRaw ← wireNum "tracks" 1
  let kind ← Scan.ofOption (.unknownValue "track kind" kindRaw) (TrackKind.fromU8 kindRaw)
  let flags ← wireU8 "tracks"
  let codec ← wireText "tracks" 2
  let name ← wireText "tracks" 2
  let timescale ← wireU32 "tracks"
  let initChunks ← wireTable "tracks" (wireU32 "tracks")
  return { trackId, kind, flags, codec, name, timescale, initChunks }

def readChunkRow : ContainerScan ChunkRecord := do
  let hash ← wireHash "chunks"
  let dataOffset ← wireNum "chunks" 8
  let lenRaw ← wireU32 "chunks"
  let lenStored ← wireU32 "chunks"
  let flags ← wireU32 "chunks"
  return { hash, dataOffset, lenRaw, lenStored, flags }

def readSegment : ContainerScan SegmentRecord := do
  let segmentId ← wireU64 "segments"
  let trackId ← wireU32 "segments"
  let ptsStart ← wireU64 "segments"
  let duration ← wireU32 "segments"
  let flags ← wireU32 "segments"
  let chunks ← wireTable "segments" (wireU32 "segments")
  return { segmentId, trackId, ptsStart, duration, flags, chunks }

def readMetaPair : ContainerScan (String × String) := do
  let key ← wireText "meta" 2
  return (key, ← wireText "meta" 4)

def readIntegrity : ContainerScan Integrity := do
  let merkleRoot ← wireHash "integrity"
  let chunkCount ← wireNum "integrity" 8
  let totalRaw ← wireNum "integrity" 8
  let totalStored ← wireNum "integrity" 8
  return { merkleRoot, chunkCount, totalRaw, totalStored }

def decodeTracks : Bytes → Except FormatError (List TrackRecord) := runSection (wireTable "tracks" readTrack)
def decodeDict : Bytes → Except FormatError (List UInt32) := runSection (wireTable "dict" (wireU32 "dict"))
def decodeChunks : Bytes → Except FormatError (List ChunkRecord) := runSection (wireTable "chunks" readChunkRow)
def decodeSegments : Bytes → Except FormatError (List SegmentRecord) := runSection (wireTable "segments" readSegment)
def decodeMeta : Bytes → Except FormatError (List (String × String)) := runSection (wireTable "meta" readMetaPair)
def decodeIntegrity : Bytes → Except FormatError Integrity := runSection readIntegrity

/-- The superblock behind its magic. -/
def readSuperblock : ContainerScan Superblock := do
  let versionMajor ← wireNum "superblock" 2
  let versionMinor ← wireNum "superblock" 2
  let featureFlags ← wireU32 "superblock"
  let hashAlgo ← wireNum "superblock" 1
  let compressionAlgo ← wireNum "superblock" 1
  let _reserved ← wireNum "superblock" 2
  let assetUuid ← Scan.take (.malformed "superblock") 16
  let timescale ← wireU32 "superblock"
  let sectionCount ← wireNum "superblock" 4
  let sectionDirOffset ← wireNum "superblock" 8
  let fileSize ← wireNum "superblock" 8
  return {
    versionMajor, versionMinor, featureFlags, hashAlgo, compressionAlgo, assetUuid, timescale,
    sectionCount, sectionDirOffset, fileSize }

def readSectionEntry : ContainerScan SectionEntry := do
  let tyRaw ← wireNum "section directory" 4
  let sectionType ← Scan.ofOption (.unknownValue "section type" tyRaw) (SectionType.fromU32 tyRaw)
  let offset ← wireNum "section directory" 8
  let length ← wireNum "section directory" 8
  let hash ← wireHash "section directory"
  return { sectionType, offset, length, hash }

end Decode
end Cavs
