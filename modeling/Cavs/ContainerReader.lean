import Cavs.Container
import Cavs.Outcome
import Mathlib.Data.List.DropRight

/-!
# Reading a container

A container is opened by its tables, each checked against the length of the file. Chunks
are read from the data section by what the chunk table says of them.
-/
namespace Cavs
open FileProg (Bytes IoError)
open ByteScan
open Outcome (ofExcept ofOption)

/-- What a container takes from other packages, the hash, zstd and Ed25519, and whether the program
is built to end where a sum overflows; a release is not. -/
structure ContainerEnv where
  overflowChecks : Bool
  hashChunk : Bytes → ChunkHash
  compress : Int → Bytes → Except String Bytes
  decompress : Nat → Bytes → Except String Bytes
  decompress_compress : ∀ level b z n, compress level b = .ok z → b.length ≤ n → decompress n z = .ok b
  publicKey : ChunkHash → ChunkHash
  sign : ChunkHash → Bytes → Bytes
  validKey : ChunkHash → Bool
  verifies : ChunkHash → Bytes → Bytes → Bool
  sign_length : ∀ secret message, (sign secret message).length = 64
  validKey_publicKey : ∀ secret, validKey (publicKey secret) = true
  verifies_sign : ∀ secret message, verifies (publicKey secret) message (sign secret message) = true

abbrev FormatResult (α : Type) : Type := Outcome FormatError α

/-- A number of 64 bits; an overflow ends the program. -/
def checked (n : Nat) : FormatResult Nat := if n < 2 ^ 64 then .ok n else .panics

def checkedSub (a b : Nat) : FormatResult Nat := if b ≤ a then .ok (a - b) else .panics

/-- Seek, and fill a buffer of `n` bytes. -/
def readAt (file : Bytes) (pos n : Nat) : FormatResult Bytes :=
  if 2 ^ 63 ≤ pos then .error (.io .other)
  else
    let bytes := (file.drop pos).take n
    if bytes.length = n then .ok bytes else .error (.io .other)

structure Reader where
  overflowChecks : Bool
  file : Bytes
  superblock : Superblock
  sections : List SectionEntry
  tracks : List TrackRecord
  dict : List UInt32
  chunks : List ChunkRecord
  segments : List SegmentRecord
  metaPairs : List (String × String)
  integrity : Integrity
  dataOffset : Nat
  dataLen : Nat
  deriving DecidableEq, Repr

structure VerifyReport where
  chunksVerified : Nat
  bytesVerified : Nat
  merkleOk : Bool
  dataSectionOk : Bool
  deriving DecidableEq, Repr

inductive SignatureStatus where
  | unsigned
  | valid (key : ChunkHash)
  deriving DecidableEq, Repr

section Open
variable (env : ContainerEnv)

def checkSuperblock (fileLen : Nat) (sb : Superblock) : FormatResult Unit :=
  if sb.versionMajor ≠ containerMajor then .error (.unsupportedVersion sb.versionMajor)
  else if sb.hashAlgo ≠ 1 then .error (.unknownValue "hash algorithm" sb.hashAlgo)
  else if sb.compressionAlgo > compressionZstd.toNat then
    .error (.unknownValue "compression algorithm" sb.compressionAlgo)
  else if sb.fileSize ≠ fileLen then .error (.malformed "declared file size")
  else .ok ()

/-- The place and the size of a buffer, refused when it does not lie in the file. -/
def placeIn (fileLen offset length : Nat) (what : String) : FormatResult (Nat × Nat) :=
  if offset > fileLen then .error (.malformed what)
  else do
    let left ← checkedSub fileLen offset
    if length > left then .error (.malformed what) else return (offset, length)

def directoryPlace (fileLen : Nat) (sb : Superblock) : FormatResult (Nat × Nat) := do
  let dirLen ← checked (sb.sectionCount * sectionDirEntryLen)
  placeIn fileLen sb.sectionDirOffset dirLen "section directory"

def findSection (sections : List SectionEntry) (ty : SectionType) : FormatResult SectionEntry :=
  ofOption (.missingSection ty) (sections.find? fun s => s.sectionType = ty)

def sectionPlace (fileLen : Nat) (entry : SectionEntry) : FormatResult (Nat × Nat) :=
  placeIn fileLen entry.offset entry.length "section bounds"

def readSection (file : Bytes) (sections : List SectionEntry) (ty : SectionType) : FormatResult Bytes := do
  let entry ← findSection sections ty
  let (pos, n) ← sectionPlace file.length entry
  let bytes ← readAt file pos n
  if env.hashChunk bytes ≠ entry.hash then .error (.sectionHashMismatch ty) else return bytes

namespace Reader

def openFile (file : Bytes) : FormatResult Reader := do
  let head ← readAt file 0 superblockLen
  if head.take 4 ≠ containerMagic then .error .badMagic
  else do
    let superblock ← ofExcept (runSection readSuperblock (head.drop 4))
    checkSuperblock file.length superblock
    let (pos, n) ← directoryPlace file.length superblock
    let dirBytes ← readAt file pos n
    let sections ← ofExcept
      (runSection (Scan.collect superblock.sectionCount readSectionEntry) dirBytes)
    let tracks ← ofExcept (decodeTracks (← readSection env file sections .tracks))
    let dict ← ofExcept (decodeDict (← readSection env file sections .dict))
    let chunks ← ofExcept (decodeChunks (← readSection env file sections .chunks))
    let segments ← ofExcept (decodeSegments (← readSection env file sections .segments))
    let metaPairs ← ofExcept (decodeMeta (← readSection env file sections .metaPairs))
    let integrity ← ofExcept (decodeIntegrity (← readSection env file sections .integrity))
    let data ← findSection sections .data
    return {
      overflowChecks := env.overflowChecks
      file, superblock, sections, tracks, dict, chunks, segments, metaPairs, integrity
      dataOffset := data.offset
      dataLen := data.length }

end Reader
end Open

section Chunks
variable (env : ContainerEnv)

/-- The raw bytes of a stored form; `lenRaw` bounds what zstd may make of it. -/
def unpackStored (flags lenRaw : UInt32) (stored : Bytes) : Except String Bytes := do
  let raw ← if flags &&& chunkFlagZstd ≠ 0 then env.decompress lenRaw.toNat stored else .ok stored
  return if flags &&& chunkFlagBg4 ≠ 0 then bg4Ungroup raw else raw

namespace Reader
variable (r : Reader)

/-- The sum of the two offsets of a chunk, which wraps where it is not checked. -/
def position (chunk : ChunkRecord) : Nat :=
  if r.overflowChecks then r.dataOffset + chunk.dataOffset else (r.dataOffset + chunk.dataOffset) % 2 ^ 64

/-- Where the stored form of a chunk lies, and how large a buffer is made for it. -/
def chunkPlace (index : UInt32) : FormatResult (Nat × ChunkRecord) := do
  let chunk ← ofOption (.chunkIndexOutOfRange index) r.chunks[index.toNat]?
  if chunk.dataOffset > r.dataLen then .error (.malformed "chunk bounds")
  else do
    let left ← checkedSub r.dataLen chunk.dataOffset
    if chunk.lenStored.toNat > left ∨ chunk.lenRaw.toNat > maxChunkRaw then .error (.malformed "chunk bounds")
    else do
      let pos ← checked (r.position chunk)
      if 2 ^ 63 ≤ pos then .error (.io .other) else return (pos, chunk)

def readChunkStored (index : UInt32) : FormatResult (Bytes × UInt32 × UInt32) := do
  let (pos, chunk) ← r.chunkPlace index
  let stored ← readAt r.file pos chunk.lenStored.toNat
  return (stored, chunk.flags, chunk.lenRaw)

def chunkAt (index : UInt32) : FormatResult ChunkRecord :=
  match r.chunks[index.toNat]? with
  | some chunk => .ok chunk
  | none => .panics

def readChunk (index : UInt32) : FormatResult Bytes := do
  let (stored, flags, lenRaw) ← r.readChunkStored index
  match unpackStored env flags lenRaw stored with
  | .error e => .error (.zstd e)
  | .ok raw => do
      let chunk ← r.chunkAt index
      if raw.length ≠ lenRaw.toNat ∨ env.hashChunk raw ≠ chunk.hash then .error (.chunkHashMismatch index)
      else return raw

def chunksBytes : List UInt32 → FormatResult Bytes
  | [] => return []
  | c :: rest => do
      let raw ← r.readChunk env c
      return raw ++ (← chunksBytes rest)

def segmentBytes (segment : SegmentRecord) : FormatResult Bytes := r.chunksBytes env segment.chunks

def track (trackId : UInt32) : FormatResult TrackRecord :=
  ofOption (.trackNotFound trackId) (r.tracks.find? fun t => t.trackId = trackId)

def trackInitBytes (trackId : UInt32) : FormatResult Bytes := do
  let t ← r.track trackId
  r.chunksBytes env t.initChunks

end Reader
end Chunks

section Signature
variable (env : ContainerEnv)

/-- A slice of text may start or end before this byte. -/
def isBoundary : Bytes → Bool
  | [] => true
  | c :: _ => decide (c < 128 ∨ 192 ≤ c)

/-- Two digits at a time; a slice that cuts a character ends the program. -/
def hexPairsOf : Bytes → FormatResult (Option Bytes)
  | [] => return some []
  | [_] => return none
  | c :: d :: rest =>
      if isBoundary (c :: d :: rest) && isBoundary rest then
        match hexByte c d with
        | none => return none
        | some b => do return (← hexPairsOf rest).map (b :: ·)
      else .panics

namespace Reader
variable (r : Reader)

def metaValue (key : String) : Option String := (r.metaPairs.find? fun p => p.1 = key).map Prod.snd

def hexField (key : String) (len : Nat) : FormatResult (Option Bytes) :=
  match r.metaValue key with
  | none => return none
  | some value => if (strBytes value).length ≠ len * 2 then return none else hexPairsOf (strBytes value)

/-- The embedded signature and its key; the key is looked at only behind a signature. -/
def embeddedSignature : FormatResult (Option (Bytes × ChunkHash)) := do
  match ← r.hexField "sig.ed25519" 64 with
  | none => return none
  | some signature => return (← r.hexField "sig.pubkey" 32).bind fun key => (hashOf key).map fun pk => (signature, pk)

def verifySignature : FormatResult SignatureStatus := do
  match ← r.embeddedSignature with
  | none => return .unsigned
  | some (signature, pk) =>
      if env.validKey pk = false then .error .signatureInvalid
      else if env.verifies pk (contentSignatureMessage r.integrity.merkleRoot r.integrity.chunkCount) signature = false then
        .error .signatureInvalid
      else return .valid pk

/-- The bytes of the chunks from `index` on, counted; `left` of them are to be read. -/
def countBytes : (left index bytes : Nat) → FormatResult Nat
  | 0, _, bytes => return bytes
  | left + 1, index, bytes => do
      let raw ← r.readChunk env (UInt32.ofNat index)
      let bytes ← checked (bytes + raw.length)
      countBytes left (index + 1) bytes

/-- Every chunk, the Merkle root, and the data section, which is hashed in pieces. -/
def verify : FormatResult VerifyReport := do
  let bytes ← r.countBytes env (UInt32.ofNat r.chunks.length).toNat 0 0
  if merkleRoot env.hashChunk (r.chunks.map ChunkRecord.hash) ≠ r.integrity.merkleRoot ∨
      r.integrity.chunkCount ≠ r.chunks.length then .error .merkleMismatch
  else do
    let data ← findSection r.sections .data
    let dataBytes ← readAt r.file r.dataOffset r.dataLen
    if env.hashChunk dataBytes ≠ data.hash then .error (.sectionHashMismatch .data)
    else return ⟨r.chunks.length, bytes, true, true⟩

end Reader
end Signature

section Plain

/-- Codecs that copy, a hash that keeps the first bytes, and signatures that repeat the
key and the beginning of the message. -/
def plainEnv : ContainerEnv where
  overflowChecks := false
  hashChunk := numberHash
  compress _ b := .ok b
  decompress n b := if b.length ≤ n then .ok b else .error "too long"
  decompress_compress _ _ _ _ same small := by
    cases same
    exact if_pos small
  publicKey secret := secret
  sign secret message := secret.1 ++ le 32 (ofLe message)
  validKey _ := true
  verifies pk message signature := decide (signature = pk.1 ++ le 32 (ofLe message))
  sign_length secret message := by rw [List.length_append, secret.2, le_length]
  validKey_publicKey _ := rfl
  verifies_sign _ _ := decide_eq_true rfl

/-- A codec that leaves out the zeros at the end and writes how many there were. -/
def zeroTailEnv : ContainerEnv where
  overflowChecks := false
  __ := plainEnv
  compress _ b :=
    let zeros := (b.rtakeWhile (· = 0)).length
    if zeros < 2 ^ 64 then .ok (le 8 zeros ++ b.rdropWhile (· = 0)) else .error "too long"
  decompress n z :=
    let b := z.drop 8 ++ List.replicate (ofLe (z.take 8)) 0
    if b.length ≤ n then .ok b else .error "too long"
  decompress_compress level b z n packed fits := by
    have zeros : b.rtakeWhile (· = 0) = List.replicate (b.rtakeWhile (· = 0)).length 0 := by
      refine List.eq_replicate_of_mem fun x mem => ?_
      simpa using List.mem_rtakeWhile_imp mem
    have whole : b.rdropWhile (· = 0) ++ List.replicate (b.rtakeWhile (· = 0)).length 0 = b := by
      rw [← zeros, List.rdropWhile_append_rtakeWhile]
    simp only at packed
    split at packed
    · rename_i short
      cases packed
      simp only [List.drop_left' (le_length 8 _), List.take_left' (le_length 8 _), ofLe_le (w := 8) short, whole, if_pos fits]
    · cases packed

end Plain
end Cavs
