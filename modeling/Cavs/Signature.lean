import Cavs.Container
import Cavs.DirTree
import Cavs.Leb128
import Cavs.MerkleTree
import Cavs.Plan

/-!
# Signatures of builds

A signature names the entries of a build and the hash of every block of its files. It is
made in one pass over the files, written with a checksum behind it, and held against a
build by signing that build again.
-/
namespace Cavs.Signature
open FileProg (Bytes IoError)
open ByteScan

def signatureMagic : Bytes := [67, 65, 86, 83, 83, 73, 71, 49]
def signatureVersion : Nat := 1
def maxEntries : Nat := 2 ^ 24
def maxBlocks : Nat := 2 ^ 28
def minBlockSize : UInt32 := 1024
def maxBlockSize : UInt32 := 67108864

inductive SignatureError where
  | badMagic
  | unsupportedVersion (version : Nat)
  | truncated (what : String)
  | malformed (what : String)
  | integrityMismatch
  | sourceMismatch (what : String)
  | io (e : IoError)
  deriving DecidableEq, Repr

inductive SignatureKind where
  | singleArtifact
  | directoryContainer
  deriving DecidableEq, Repr

def SignatureKind.fromU8 : Nat → Option SignatureKind
  | 1 => some .singleArtifact
  | 2 => some .directoryContainer
  | _ => none

def SignatureKind.toU8 : SignatureKind → UInt8
  | .singleArtifact => 1
  | .directoryContainer => 2

def kindToU8 : EntryKind → UInt8
  | .file => 1
  | .directory => 2
  | .symlink => 3

structure SignatureEntry where
  entryId : UInt32
  path : String
  kind : EntryKind
  size : UInt64
  executable : Bool
  symlinkTarget : Option String
  deriving DecidableEq, Repr

structure SignatureBlockHash where
  entryId : UInt32
  offset : UInt64
  len : UInt32
  weak32 : UInt32
  strongBlake3 : ChunkHash
  deriving DecidableEq, Repr

structure CavsSignature where
  kind : SignatureKind
  createdAtUnixMs : UInt64
  sourceLabel : String
  sourceSize : UInt64
  sourceBlake3 : Option ChunkHash
  chunkerProfile : String
  blockSize : UInt32
  entries : List SignatureEntry
  blocks : List SignatureBlockHash
  merkleRoot : ChunkHash
  deriving DecidableEq, Repr

/-- The weak hash of a full window in one pass. -/
def weak32 (window : Bytes) : UInt32 :=
  let len := UInt32.ofNat window.length
  let sums := window.zipIdx.foldl (fun (s : UInt32 × UInt32) x =>
    (s.1 + x.1.toUInt32, s.2 + (len - UInt32.ofNat x.2) * x.1.toUInt32)) (0, 0)
  let low : UInt32 := 0xffff
  (sums.1 &&& low) ||| ((sums.2 &&& low) <<< 16)

section Encode

/-- As many groups of seven bits as the number has. -/
def writeVar (value : Nat) : Bytes := Leb.bytes (value + 9) value

def writeStr (s : String) : Bytes := writeVar (strBytes s).length ++ strBytes s

def writeFlag (b : Bool) : Bytes := [if b then 1 else 0]

def writeEntry (e : SignatureEntry) : Bytes :=
  writeVar e.entryId.toNat ++ writeStr e.path ++ [kindToU8 e.kind] ++ writeVar e.size.toNat ++
    writeFlag e.executable ++ writeStr (e.symlinkTarget.getD "")

def writeBlock (b : SignatureBlockHash) : Bytes :=
  writeVar b.entryId.toNat ++ writeVar b.offset.toNat ++ writeVar b.len.toNat ++
    le 4 b.weak32.toNat ++ b.strongBlake3.1

def writeSourceHash : Option ChunkHash → Bytes
  | some h => 1 :: h.1
  | none => [0]

/-- Everything between the magic and the trailer. -/
def writeBody (s : CavsSignature) : Bytes :=
  le 2 signatureVersion ++ [s.kind.toU8] ++ writeVar s.createdAtUnixMs.toNat ++
    writeVar s.blockSize.toNat ++ writeVar s.sourceSize.toNat ++
    writeSourceHash s.sourceBlake3 ++ writeStr s.sourceLabel ++ writeStr s.chunkerProfile ++
    writeVar s.entries.length ++ s.entries.flatMap writeEntry ++
    writeVar s.blocks.length ++ s.blocks.flatMap writeBlock ++ s.merkleRoot.1

def encode (hashChunk : Bytes → ChunkHash) (s : CavsSignature) : Bytes :=
  let out := signatureMagic ++ writeBody s
  out ++ (hashChunk out).1

end Encode

section Decode

abbrev SigScan := Scan SignatureError Unit

def readVar : SigScan Nat :=
  Leb.readFrom (.truncated "varint") (.malformed "overlong varint") (.malformed "varint overflow") 9 0 0

def readStr : SigScan String := do
  let len ← readVar
  let left ← Scan.remaining
  if len > left ∨ len > 2 ^ 16 then Scan.throw (.truncated "string")
  else do
    let bytes ← Scan.take (.truncated "string") len
    Scan.ofOption (.malformed "string not UTF-8") (utf8 bytes)

def readByte (what : String) : SigScan Nat := Scan.num (.truncated what) 1

def readHash (what : String) : SigScan ChunkHash := do
  Scan.ofOption (.truncated what) (hashOf (← Scan.take (.truncated what) 32))

def readFlag (what : String) : SigScan Bool := do
  let byte ← readByte what
  if byte > 1 then Scan.throw (.malformed what) else return byte = 1

def readSourceHash : SigScan (Option ChunkHash) := do
  let present ← readFlag "source hash flag"
  if present then do return some (← readHash "source hash") else return none

/-- A count that is refused before anything is allocated for it. -/
def readCount (max : Nat) (what : String) : SigScan Nat := do
  let count ← readVar
  if count > max then Scan.throw (.malformed what) else return count

def readKind : SigScan EntryKind := do
  Scan.ofOption (.malformed "unknown entry kind") (EntryKind.fromU8 (← readByte "entry kind"))

def readEntries : (count : Nat) → (seen : List UInt32) → SigScan (List SignatureEntry)
  | 0, _ => pure []
  | count + 1, seen => do
      let entryId ← readVar
      if entryId > 2 ^ 32 - 1 ∨ UInt32.ofNat entryId ∈ seen then
        Scan.throw (.malformed "duplicate or invalid entry id")
      else do
        let path ← readStr
        let kind ← readKind
        let size ← readVar
        let executable ← readFlag "executable flag"
        let target ← readStr
        let entry : SignatureEntry :=
          ⟨UInt32.ofNat entryId, path, kind, UInt64.ofNat size, executable,
            if target = "" then none else some target⟩
        return entry :: (← readEntries count (UInt32.ofNat entryId :: seen))

/-- How far the blocks of each entry reach. -/
abbrev Coverage := UInt32 → Nat

def readBlocks (ids : List UInt32) (blockSize : Nat) :
    (count : Nat) → Coverage → SigScan (List SignatureBlockHash × Coverage)
  | 0, covered => pure ([], covered)
  | count + 1, covered => do
      let entryId ← readVar
      if entryId > 2 ^ 32 - 1 ∨ UInt32.ofNat entryId ∉ ids then
        Scan.throw (.malformed "block references unknown entry")
      else do
        let offset ← readVar
        let len ← readVar
        if len = 0 ∨ len > blockSize then Scan.throw (.malformed "block length out of range")
        else if offset ≠ covered (UInt32.ofNat entryId) then Scan.throw (.malformed "blocks not contiguous")
        else do
          let weak ← Scan.num (.truncated "weak hash") 4
          let strong ← readHash "strong hash"
          let block : SignatureBlockHash :=
            ⟨UInt32.ofNat entryId, UInt64.ofNat offset, UInt32.ofNat len, UInt32.ofNat weak, strong⟩
          let rest ← readBlocks ids blockSize count fun id =>
            if id = UInt32.ofNat entryId then offset + len else covered id
          return (block :: rest.1, rest.2)

/-- The blocks of a file cover it, nothing else has blocks. -/
def Covers (covered : Coverage) (e : SignatureEntry) : Prop :=
  covered e.entryId = if e.kind = .file then e.size.toNat else 0

instance (covered : Coverage) (e : SignatureEntry) : Decidable (Covers covered e) := by
  unfold Covers
  infer_instance

variable (hashChunk : Bytes → ChunkHash)

def readSignature : SigScan CavsSignature := do
  let version ← Scan.num (.truncated "version") 2
  if version ≠ signatureVersion then Scan.throw (.unsupportedVersion version)
  else do
    let kind ← Scan.ofOption (.malformed "unknown signature kind") (SignatureKind.fromU8 (← readByte "kind"))
    let createdAtUnixMs ← readVar
    let blockSize ← readVar
    if blockSize < minBlockSize.toNat ∨ blockSize > maxBlockSize.toNat then
      Scan.throw (.malformed "block size out of range")
    else do
      let sourceSize ← readVar
      let sourceBlake3 ← readSourceHash
      let sourceLabel ← readStr
      let chunkerProfile ← readStr
      let entries ← readEntries (← readCount maxEntries "entry count too large") []
      let (blocks, covered) ←
        readBlocks (entries.map SignatureEntry.entryId) blockSize (← readCount maxBlocks "block count too large")
          fun _ => 0
      if ∃ e ∈ entries, ¬ Covers covered e then Scan.throw (.malformed "blocks do not cover entry size")
      else do
        let root ← readHash "merkle root"
        let left ← Scan.remaining
        if left ≠ 0 then Scan.throw (.malformed "trailing bytes")
        else if merkleRoot hashChunk (blocks.map SignatureBlockHash.strongBlake3) ≠ root then
          Scan.throw (.malformed "merkle root mismatch")
        else
          return {
            kind, sourceLabel, sourceBlake3, chunkerProfile, entries, blocks
            createdAtUnixMs := UInt64.ofNat createdAtUnixMs
            sourceSize := UInt64.ofNat sourceSize
            blockSize := UInt32.ofNat blockSize
            merkleRoot := root }

def decode (bytes : Bytes) : Except SignatureError CavsSignature :=
  if bytes.length < signatureMagic.length + 2 + 32 then .error (.truncated "header")
  else if bytes.take 8 ≠ signatureMagic then .error .badMagic
  else
    let body := bytes.take (bytes.length - 32)
    if (hashChunk body).1 ≠ bytes.drop (bytes.length - 32) then .error .integrityMismatch
    else match (readSignature hashChunk () ⟨0, body.drop 8⟩).1 with
      | .error e => .error e
      | .ok (s, _) => .ok s

end Decode

section Builder

/-- A signature in the making: what was hashed, and the block that is not full yet. -/
structure SignatureBuilder where
  kind : SignatureKind
  blockSize : UInt32
  profile : String
  entries : List SignatureEntry
  blocks : List SignatureBlockHash
  content : Bytes
  totalSize : UInt64
  buf : Bytes
  currentOffset : UInt64

/-- The size a requested block size is brought to. -/
def clamped (blockSize : UInt32) : UInt32 := min (max blockSize minBlockSize) maxBlockSize

def amendLast (f : SignatureEntry → SignatureEntry) : List SignatureEntry → List SignatureEntry
  | [] => []
  | [e] => [f e]
  | e :: rest => e :: amendLast f rest

namespace SignatureBuilder
variable (hashChunk : Bytes → ChunkHash)

def start (kind : SignatureKind) (blockSize : UInt32) (profile : String) : SignatureBuilder :=
  ⟨kind, clamped blockSize, profile, [], [], [], 0, [], 0⟩

def emitBlock (b : SignatureBuilder) : SignatureBuilder :=
  let entryId := (b.entries.getLast?.map SignatureEntry.entryId).getD 0
  let len := UInt32.ofNat b.buf.length
  { b with
    blocks := b.blocks ++ [⟨entryId, b.currentOffset, len, weak32 b.buf, hashChunk b.buf⟩]
    currentOffset := b.currentOffset + len.toUInt64
    buf := [] }

def flushBlock (b : SignatureBuilder) : SignatureBuilder :=
  if b.buf = [] then b else b.emitBlock hashChunk

def beginEntry (b : SignatureBuilder) (path : String) (executable : Bool) (symlinkTarget : Option String) :
    SignatureBuilder :=
  let b := b.flushBlock hashChunk
  { b with
    entries := b.entries ++ [⟨UInt32.ofNat b.entries.length, path, .file, 0, executable, symlinkTarget⟩]
    currentOffset := 0 }

def entryKind (b : SignatureBuilder) (kind : EntryKind) : SignatureBuilder :=
  { b with entries := amendLast (fun e => { e with kind }) b.entries }

/-- Every turn takes a byte at least. -/
def fill : (fuel : Nat) → SignatureBuilder → Bytes → SignatureBuilder
  | 0, b, _ => b
  | fuel + 1, b, data =>
      if data = [] then b
      else
        let n := min (b.blockSize.toNat - b.buf.length) data.length
        let b := { b with buf := b.buf ++ data.take n }
        fill fuel (if b.buf.length = b.blockSize.toNat then b.emitBlock hashChunk else b) (data.drop n)

def append (b : SignatureBuilder) (data : Bytes) : SignatureBuilder :=
  fill hashChunk data.length
    { b with
      entries := amendLast (fun e => { e with size := e.size + UInt64.ofNat data.length }) b.entries
      totalSize := b.totalSize + UInt64.ofNat data.length
      content := b.content ++ data }
    data

def finish (b : SignatureBuilder) (sourceLabel : String) : CavsSignature :=
  let b := b.flushBlock hashChunk
  { kind := b.kind
    createdAtUnixMs := 0
    sourceLabel
    sourceSize := b.totalSize
    sourceBlake3 := some (hashChunk b.content)
    chunkerProfile := b.profile
    blockSize := b.blockSize
    entries := b.entries
    blocks := b.blocks
    merkleRoot := merkleRoot hashChunk (b.blocks.map SignatureBlockHash.strongBlake3) }

end SignatureBuilder

end Builder

section Sign
variable (hashChunk : Bytes → ChunkHash)

/-- A byte string in pieces of one size, the last of which may be shorter. -/
def cutFrom (size : Nat) : (fuel : Nat) → Bytes → List Bytes
  | 0, _ => []
  | _, [] => []
  | fuel + 1, b :: rest => (b :: rest).take size :: cutFrom size fuel ((b :: rest).drop size)

def cut (size : Nat) (b : Bytes) : List Bytes := cutFrom size b.length b

def readSize : Nat := 2 ^ 20

/-- A file is read through a buffer until nothing is left. -/
def appendFile (b : SignatureBuilder) (content : Bytes) : SignatureBuilder :=
  (cut readSize content).foldl (SignatureBuilder.append hashChunk) b

def signFile (content : Bytes) (blockSize : UInt32) (label : String) : CavsSignature :=
  let b := (SignatureBuilder.start .singleArtifact blockSize "fixed").beginEntry hashChunk label false none
  (appendFile hashChunk b content).finish hashChunk label

def signNode (b : SignatureBuilder) : RelPath × DiskNode → SignatureBuilder
  | (rel, .symlink target) =>
      (b.beginEntry hashChunk rel.spelled false (some (String.ofList (lossy target)))).entryKind .symlink
  | (rel, .directory) => (b.beginEntry hashChunk rel.spelled false none).entryKind .directory
  | (rel, .file content executable) =>
      appendFile hashChunk (b.beginEntry hashChunk rel.spelled executable none) content

def signDir (root : DiskTree) (blockSize : UInt32) (label : String) : CavsSignature :=
  (root.listing.foldl (signNode hashChunk) (.start .directoryContainer blockSize "fixed")).finish hashChunk label

/-- What a path given on the command line leads to. -/
inductive Source where
  | artifact (name : OsName) (content : Bytes)
  | directory (tree : DiskTree)

def signAs (kind : SignatureKind) (source : Source) (blockSize : UInt32) (label : String) :
    Except SignatureError CavsSignature :=
  match kind, source with
  | .singleArtifact, .artifact _ content => .ok (signFile hashChunk content blockSize label)
  | .directoryContainer, .directory tree => .ok (signDir hashChunk tree blockSize label)
  | _, _ => .error (.io .other)

def verifyAgainst (sig : CavsSignature) (source : Source) : Except SignatureError Unit := do
  let fresh ← signAs hashChunk sig.kind source sig.blockSize sig.sourceLabel
  if fresh.sourceSize ≠ sig.sourceSize then
    .error (.sourceMismatch
      s!"size differs: signature says {sig.sourceSize} bytes, source has {fresh.sourceSize}")
  else if sig.sourceBlake3.isSome ∧ fresh.sourceBlake3.isSome ∧ sig.sourceBlake3 ≠ fresh.sourceBlake3 then
    .error (.sourceMismatch "content BLAKE3 differs")
  else if fresh.merkleRoot ≠ sig.merkleRoot then
    let mismatched := (sig.blocks.zip fresh.blocks).countP fun p => p.1.strongBlake3 ≠ p.2.strongBlake3
    let apart := (sig.blocks.length - fresh.blocks.length) + (fresh.blocks.length - sig.blocks.length)
    .error (.sourceMismatch s!"{max mismatched apart} block(s) differ")
  else .ok ()

end Sign

end Cavs.Signature
