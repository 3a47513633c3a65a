import Cavs.GraphReach
import Cavs.ObjectStore
import Mathlib.Data.List.Sort

/-!
# A subgraph in a file

A bundle holds objects, the roots they hang from and what it assumes the receiver has. Its
footer carries two checksums: one over the content, which a signature signs, and one over
the whole file. A reader finds the content by reading on, and the signed region by the
length in the footer.
-/
namespace Cavs
open FileProg (Bytes IoError)
open FileProg.Eff (ofExcept throw)
open ByteScan

def bundleMagic : Bytes := [67, 65, 86, 83, 66, 78, 68, 49]

/-- Content length, content checksum, file checksum, the magic. -/
def footerLen : Nat := 8 + 32 + 32 + 8

/-- Ceilings a bundle is read under. -/
structure BundleLimits where
  maxObjects : Nat
  maxRoots : Nat
  maxRefs : Nat
  maxPayloadBytes : Nat
  maxExpansionRatio : Nat
  objects : DecodeLimits

def BundleLimits.default : BundleLimits := ⟨100000000, 4096, 65536, 64 * 2 ^ 30, 1000, .default⟩

/-- A name the producer attached to a root. -/
structure BundleRef where
  name : String
  target : ObjectId
  deriving DecidableEq, Repr

structure Signature where
  keyId : Bytes
  bytes : Bytes
  deriving DecidableEq, Repr

/-- Where an object lies in the payload. -/
structure Row where
  kind : ObjectKind
  id : ObjectId
  offset : Nat
  length : Nat
  deriving DecidableEq, Repr

/-- What a bundle says ahead of its payload. -/
structure Header where
  formatVersion : Nat
  compressed : Bool
  createdAt : Nat
  roots : List (ObjectKind × ObjectId)
  prerequisites : List ObjectId
  refs : List BundleRef
  table : List Row
  payloadLen : Nat
  payloadRawLen : Nat
  deriving DecidableEq, Repr

/-- What a signature is over. -/
structure Content extends Header where
  payload : Bytes
  deriving DecidableEq, Repr

/-- A bundle opened, its objects not yet verified. -/
structure OpenBundle where
  content : Content
  signatures : List Signature
  contentChecksum : Bytes
  deriving DecidableEq, Repr

/-- The compression library. -/
structure Zstd where
  compress : Bytes → Except IoError Bytes
  decompress : (stored : Bytes) → (capacity : Nat) → Except String Bytes

/-- A library that refuses everything. -/
def noZstd : Zstd := ⟨fun _ => .error .other, fun _ _ => .error "no zstd"⟩

/-- A number in base sixteen. -/
def lowerHex (n : Nat) : String := "0x" ++ String.ofList (Nat.toDigits 16 n)

section Read
variable (zstd : Zstd) (limits : BundleLimits)

/-- Fail when fewer than `n` bytes follow. -/
def atLeast (e : ObjectError) (n : Nat) : ObjScan Unit := do
  let left ← Scan.remaining
  if n > left then Scan.throw e else pure ()

def bounded (value max : Nat) (what : String) : ObjScan Nat :=
  if value > max then Scan.throw (.tooLarge what value max) else pure value

def readId : ObjScan ObjectId := readIdAs "hash algorithm" "object id"

def readKind (what : String) : ObjScan ObjectKind := do
  let tag ← Scan.num (.truncated what) 4
  Scan.ofOption (.unknownKind tag) (ObjectKind.fromTag tag)

def readBundleRoot : ObjScan (ObjectKind × ObjectId) := do
  let kind ← readKind "root kind"
  return (kind, ← readId)

def badRefName : ObjectError := .corrupt "bundle reference name is bad"

def readRef : ObjScan BundleRef := do
  let nameLen ← readVaruint
  if nameLen > 512 then Scan.throw badRefName else do
    let bytes ← Scan.take badRefName nameLen
    let name ← Scan.ofOption (.corrupt "bundle reference name is not UTF-8") (utf8 bytes)
    return ⟨name, ← readId⟩

def readRow : ObjScan Row := do
  let kind ← readKind "object kind"
  let id ← readId
  let offset ← readVaruint
  return ⟨kind, id, offset, ← readVaruint⟩

/-- The payload as the objects lie in it. -/
def decodePayload (compressed : Bool) (stored : Bytes) (payloadRawLen : Nat) : Except ObjectError Bytes :=
  if compressed then match zstd.decompress stored payloadRawLen with
    | .error e => .error (.corrupt ("bundle payload will not decompress: " ++ e))
    | .ok out =>
        if out.length ≠ payloadRawLen then
          .error (.corrupt ("bundle payload decompressed to " ++ toString out.length ++ " bytes, not the " ++
            toString payloadRawLen ++ " it declared"))
        else .ok out
  else if stored.length ≠ payloadRawLen then
    .error (.corrupt "an uncompressed bundle disagrees with itself about its payload size")
  else .ok stored

def Scan.ofExcept {α : Type} : Except ObjectError α → ObjScan α
  | .ok a => pure a
  | .error e => Scan.throw e

/-- What follows the leading magic, to the payload. -/
def readHeader : ObjScan Header := do
  let formatVersion ← Scan.num (.truncated "format version") 2
  if formatVersion ≠ 1 then Scan.throw (.unsupportedFormat formatVersion) else do
  let flags ← Scan.num (.truncated "flags") 2
  if flags / 2 ≠ 0 then
    Scan.throw (.corrupt ("bundle sets flag bits " ++ lowerHex flags ++ " this build does not understand")) else do
  let compressed := flags % 2 = 1
  let createdAt ← Scan.num (.truncated "created_at") 8
  let rootCount ← bounded (← readVaruint) limits.maxRoots "roots"
  let roots ← Scan.collect rootCount readBundleRoot
  let prerequisiteCount ← bounded (← readVaruint) limits.maxObjects "prerequisites"
  atLeast (.truncated "prerequisites") (prerequisiteCount * 33)
  let prerequisites ← Scan.collect prerequisiteCount readId
  let refCount ← bounded (← readVaruint) limits.maxRefs "refs"
  let refs ← Scan.collect refCount readRef
  let objectCount ← bounded (← readVaruint) limits.maxObjects "objects"
  -- A row is at least 4 + 33 + 1 + 1 bytes.
  atLeast (.corrupt "bundle object count is larger than the bytes that follow") (objectCount * 39)
  let table ← Scan.collect objectCount readRow
  let payloadLen ← Scan.num (.truncated "payload length") 8
  let payloadRawLen ← Scan.num (.truncated "payload raw length") 8
  if payloadRawLen > limits.maxPayloadBytes then
    Scan.throw (.tooLarge "bundle payload" payloadRawLen limits.maxPayloadBytes) else do
  if compressed ∧ payloadRawLen > min (max payloadLen 1 * limits.maxExpansionRatio) (2 ^ 64 - 1) then
    Scan.throw (.corrupt ("bundle claims " ++ toString payloadRawLen ++ " bytes from " ++ toString payloadLen ++
      " stored, past the " ++ toString limits.maxExpansionRatio ++ "x expansion this reader accepts")) else
  return ⟨formatVersion, compressed, createdAt, roots, prerequisites, refs, table, payloadLen, payloadRawLen⟩

/-- The header and the payload behind it. -/
def readContent : ObjScan Content := do
  let header ← readHeader limits
  let stored ← Scan.take (.truncated "bundle payload") header.payloadLen
  let payload ← Scan.ofExcept (decodePayload zstd header.compressed stored header.payloadRawLen)
  return ⟨header, payload⟩

def readSignature : ObjScan Signature := do
  let keyId ← Scan.take (.truncated "signature key id") 8
  return ⟨keyId, ← Scan.take (.truncated "signature") 64⟩

/-- The signature block, to the end of the body. -/
def readSignatures : ObjScan (List Signature) := do
  let count ← bounded (← readVaruint) 64 "signatures"
  let signatures ← Scan.collect count readSignature
  let left ← Scan.remaining
  if left ≠ 0 then Scan.throw .trailingBytes else return signatures

def bodyOf (raw : Bytes) : Bytes := raw.take (raw.length - footerLen)
def footerOf (raw : Bytes) : Bytes := raw.drop (raw.length - footerLen)

/-- How much of the body the footer says is signed. -/
def contentLenOf (raw : Bytes) : Nat := ofLe ((footerOf raw).take 8)

def contentChecksumOf (raw : Bytes) : Bytes := ((footerOf raw).drop 8).take 32

/-- The bytes that the content checksum of a file is over. -/
def signedRegion (raw : Bytes) : Bytes := (bodyOf raw).take (contentLenOf raw)

/-- The footer first, then everything else. -/
def openBytes (hash : Bytes → ChunkHash) (raw : Bytes) : Except ObjectError OpenBundle :=
  if raw.length < bundleMagic.length + footerLen then .error (.truncated "bundle")
  else if raw.take 8 ≠ bundleMagic then .error (.corrupt "this file does not start like a bundle")
  else if (footerOf raw).drop (footerLen - 8) ≠ bundleMagic then
    .error (.corrupt "bundle does not end where a bundle ends; it is truncated or damaged")
  else if (hash (raw.take (raw.length - 40))).1 ≠ ((footerOf raw).drop 40).take 32 then
    .error (.corrupt "bundle checksum does not match its contents")
  else if contentLenOf raw > (bodyOf raw).length then
    .error (.corrupt "bundle says its signed region runs past its own end")
  else if (hash (signedRegion raw)).1 ≠ contentChecksumOf raw then
    .error (.corrupt "bundle content checksum does not match what the signatures cover")
  else match (readContent zstd limits () ⟨8, (bodyOf raw).drop 8⟩).1 with
    | .error e => .error e
    | .ok (content, c) => match (readSignatures () c).1 with
        | .error e => .error e
        | .ok (signatures, _) => .ok ⟨content, signatures, contentChecksumOf raw⟩

end Read

section Create
variable (hash : Bytes → ChunkHash) (zstd : Zstd)

/-- What to put in a bundle. -/
structure BundleOptions where
  refs : List BundleRef
  excludeHave : Option (List ObjectId)
  walk : Option WalkOptions
  compress : Bool
  createdAt : Option UInt64

structure BundleSummary where
  objects : Nat
  payloadBytes : Nat
  fileBytes : Nat
  prerequisites : Nat
  deriving DecidableEq, Repr

/-- Ids a receiver holds for certain. -/
def HaveSet.ofList (ids : List ObjectId) : HaveSet := ⟨fun id => id ∈ ids, true⟩

def idLe (a b : ObjectId) : Bool := !idLt b a

/-- A set of ids in order. -/
def sortIds (l : List ObjectId) : List ObjectId := l.dedup.insertionSort fun a b => idLe a b

def writeBundleRoot (root : ObjectKind × ObjectId) : Bytes := le 4 root.1.tag ++ writeId root.2

def writeRef (r : BundleRef) : Bytes :=
  writeVaruint (strBytes r.name).length ++ (strBytes r.name ++ writeId r.target)

def writeRow (row : Row) : Bytes :=
  le 4 row.kind.tag ++ (writeId row.id ++ (writeVaruint row.offset ++ writeVaruint row.length))

def writeList {α : Type} (write : α → Bytes) (l : List α) : Bytes := writeVaruint l.length ++ l.flatMap write

/-- What stands between the leading magic and the payload. -/
def writeHeader (h : Header) : Bytes :=
  le 2 h.formatVersion ++ (le 2 (if h.compressed then 1 else 0) ++ (le 8 h.createdAt ++
    (writeList writeBundleRoot h.roots ++ (writeList writeId h.prerequisites ++ (writeList writeRef h.refs ++
      (writeList writeRow h.table ++ (le 8 h.payloadLen ++ le 8 h.payloadRawLen)))))))

/-- Close a bundle over whatever body it has. -/
def sealBundle (body : Bytes) (contentLen : Nat) (contentChecksum : Bytes) : Bytes :=
  let front := body ++ (le 8 contentLen ++ contentChecksum)
  front ++ ((hash front).1 ++ bundleMagic)

/-- A bundle nobody signed yet. -/
def sealUnsigned (content : Bytes) : Bytes :=
  let body := bundleMagic ++ content
  sealBundle hash (body ++ writeVaruint 0) body.length (hash body).1

/-- An object of a store as its files stand. -/
def readObject (w : ObjDisk) (id : ObjectId) : Except ObjectError StoredObject :=
  match w.get (.loose id) with
  | some f => checkObject hash id f.bytes
  | none => .error (.notFound (toHex id.digest))

/-- Payload objects are read under the payload ceiling. -/
def limitsFor (object : StoredObject) : DecodeLimits :=
  { DecodeLimits.default with maxPayloadLen := max object.bytes.length 1 }

/-- What travels, laid out so far. -/
structure PackedObjects where
  payload : Bytes
  table : List Row
  prerequisites : List ObjectId
  deriving DecidableEq, Repr

/-- What an object names that the receiver has and the bundle does not carry. -/
def frontierOf (included : List ObjectId) (excludeHave : Option (List ObjectId)) (object : StoredObject) :
    Except ObjectError (List ObjectId) :=
  match excludeHave with
  | none => .ok []
  | some have_ => do
      let envelope ← decodeEnvelope object.kind object.bytes (limitsFor object)
      return envelope.dependencies.filter fun id => id ∉ included ∧ id ∈ have_

/-- Lay the included objects back to back. -/
def packObjects (w : ObjDisk) (included : List ObjectId) (excludeHave : Option (List ObjectId)) :
    List ObjectId → PackedObjects → Except ObjectError PackedObjects
  | [], packed => .ok packed
  | id :: ids, packed => do
      let object ← readObject hash w id
      let frontier ← frontierOf included excludeHave object
      packObjects w included excludeHave ids {
        payload := packed.payload ++ object.bytes
        table := packed.table ++ [⟨object.kind, id, packed.payload.length, object.bytes.length⟩]
        prerequisites := packed.prerequisites ++ frontier }

/-- Which objects travel; with a have-set, none of those it claims. -/
def includedObjects (limits : DecodeLimits) (fuel : Nat) (w : ObjDisk) (roots : List ObjectId)
    (options : BundleOptions) : Option (Except ObjectError (List ObjectId)) :=
  let walk := { options.walk.getD .default with missingIsError := true }
  match options.excludeHave with
  | some have_ => (computeMissing (lookup limits w) walk (.ofList have_) fuel roots).map fun r =>
      r.map MissingPlan.missing
  | none => (walkReachable (lookup limits w) walk fuel roots).map fun r => r.map fun visits =>
      visits.map Visit.id

/-- The header of a bundle of some objects. -/
def headerOf (roots : List (ObjectKind × ObjectId)) (options : BundleOptions) (packed : PackedObjects)
    (stored : Bytes) : Header where
  formatVersion := 1
  compressed := options.compress
  createdAt := (options.createdAt.getD 0).toNat
  roots
  prerequisites := sortIds packed.prerequisites
  refs := options.refs
  table := packed.table
  payloadLen := stored.length
  payloadRawLen := packed.payload.length

/-- The file of the subgraph under some roots of a store, read as its files stand. -/
def createBundle (limits : DecodeLimits) (fuel : Nat) (w : ObjDisk) (roots : List (ObjectKind × ObjectId))
    (options : BundleOptions) : Option (Except ObjectError (Bytes × BundleSummary)) :=
  (includedObjects limits fuel w (roots.map Prod.snd) options).map fun r => do
    let included ← r
    let packed ← packObjects hash w included options.excludeHave included ⟨[], [], []⟩
    let stored ← if options.compress then (zstd.compress packed.payload).mapError (.io "compress bundle payload")
      else .ok packed.payload
    let header := headerOf roots options packed stored
    let file := sealUnsigned hash (writeHeader header ++ stored)
    return (file, ⟨packed.table.length, packed.payload.length, file.length, header.prerequisites.length⟩)

end Create

section Verify
variable (hash : Bytes → ChunkHash) (limits : BundleLimits)

def ObjectKind.display : ObjectKind → String
  | .chunk => "chunk"
  | .manifest => "manifest"
  | .tree => "tree"
  | .commit => "commit"
  | .packIndex => "packindex"
  | .bundleIndex => "bundleindex"
  | .application id => "application(" ++ toString id.toNat ++ ")"

/-- An error in words; what the system says about a failed operation is left out. -/
def ObjectError.display : ObjectError → String
  | .truncated what => "truncated object: ran out of bytes reading " ++ what
  | .varintNotCanonical => "varint is not in canonical form"
  | .unsupportedFormat version => "unsupported object format version " ++ toString version
  | .unknownKind tag => "unknown object kind tag " ++ lowerHex tag
  | .unknownHashAlgorithm code => "unknown hash algorithm " ++ toString code.toNat
  | .kindMismatch expected found =>
      "object declares kind " ++ found.display ++ " but was read as " ++ expected.display
  | .dependenciesNotCanonical => "dependencies are not in canonical order, or repeat"
  | .payloadWithDependencies => "a payload object cannot declare dependencies"
  | .tooLarge what len max =>
      what ++ " is " ++ toString len ++ " bytes, over the " ++ toString max ++ "-byte limit"
  | .tooManyDependencies count max =>
      "object declares " ++ toString count ++ " dependencies, over the limit of " ++ toString max
  | .trailingBytes => "bytes remain after the object body"
  | .idMismatch expected actual => "object id mismatch: expected " ++ expected ++ ", computed " ++ actual
  | .notFound hex => "object " ++ hex ++ " is not in this store"
  | .corrupt what => what
  | .cycleDetected hex => "the object graph contains a cycle through " ++ hex
  | .walkBudget what limit => "walk exceeded its budget of " ++ toString limit ++ " " ++ what
  | .walkCancelled => "walk was cancelled"
  | .walkDeadlineExceeded => "walk ran past its deadline"
  | .io what _ => "failed to " ++ what ++ ": "

/-- An object of a bundle under the id it is filed under. -/
structure Filed where
  id : ObjectId
  kind : ObjectKind
  bytes : Bytes
  deriving DecidableEq, Repr

structure BundleVerification where
  content : Content
  objectsVerified : Nat
  bytesVerified : Nat
  unsatisfiedRoots : List ObjectId
  dangling : List ObjectId
  deriving DecidableEq, Repr

def BundleVerification.isComplete (v : BundleVerification) : Bool :=
  v.unsatisfiedRoots.isEmpty && v.dangling.isEmpty

def sliceOf (payload : Bytes) (row : Row) : Bytes := (payload.drop row.offset).take row.length

/-- Check every row against the id it is filed under. Two rows of one id must be the same
object. -/
def verifyRows (payload : Bytes) : List Row → List Filed → Except ObjectError (List Filed)
  | [], contents => .ok contents
  | row :: rows, contents =>
      if row.offset + row.length ≥ 2 ^ 64 then .error (.corrupt "bundle table entry overflows")
      else if row.offset + row.length > payload.length then
        .error (.corrupt ("bundle table points object " ++ toHex row.id.digest ++ " past the end of the payload"))
      else
        let slice := sliceOf payload row
        let actual := ObjectId.compute hash row.kind slice
        if actual ≠ row.id then .error (.idMismatch (toHex row.id.digest) (toHex actual.digest))
        else match contents.find? fun f => f.id = row.id with
          | some f =>
              if f.kind ≠ row.kind ∨ f.bytes ≠ slice then
                .error (.corrupt ("bundle contains two different objects under " ++ toHex row.id.digest))
              else verifyRows payload rows contents
          | none => verifyRows payload rows (contents ++ [⟨row.id, row.kind, slice⟩])

/-- The dependencies of the objects that are not known, the objects taken by id. -/
def danglingOf (known : List ObjectId) : List Filed → Except ObjectError (List ObjectId)
  | [] => .ok []
  | f :: contents => match decodeEnvelope f.kind f.bytes limits.objects with
      | .error e => .error (.corrupt ("object " ++ toHex f.id.digest ++ " in bundle: " ++ e.display))
      | .ok envelope => match danglingOf known contents with
          | .error e => .error e
          | .ok more => .ok (envelope.dependencies.filter (· ∉ known) ++ more)

def verifyOpen (content : Content) : Except ObjectError BundleVerification :=
  match verifyRows hash content.payload content.table [] with
  | .error e => .error e
  | .ok contents =>
      let known := contents.map Filed.id ++ content.prerequisites
      match danglingOf limits known (contents.insertionSort fun a b => idLe a.id b.id) with
      | .error e => .error e
      | .ok dangling => .ok {
          content
          objectsVerified := contents.length
          bytesVerified := (contents.map fun f => f.bytes.length).sum
          unsatisfiedRoots := (content.roots.map Prod.snd).filter (· ∉ known)
          dangling := sortIds dangling }

def verifyBundle (zstd : Zstd) (raw : Bytes) : Except ObjectError BundleVerification := do
  verifyOpen hash limits (← openBytes zstd limits hash raw).content

end Verify

structure ImportReport where
  objectsAdded : Nat
  objectsAlreadyPresent : Nat
  bytesAdded : Nat
  missingPrerequisites : List ObjectId
  refs : List BundleRef
  deriving DecidableEq, Repr

section Import
variable (hash : Bytes → ChunkHash)

/-- Which of the prerequisites a store does not have. -/
def missingOf : List ObjectId → ObjM (List ObjectId)
  | [] => return []
  | id :: ids => do
      let there ← hasObject id
      let more ← missingOf ids
      return if there then more else id :: more

/-- Put every object that is not there, in the order of the table. -/
def putRows (limits : DecodeLimits) (durability : Durability) (payload : Bytes) :
    List Row → ImportReport → ObjM ImportReport
  | [], report => return report
  | row :: rows, report => do
      let there ← hasObject row.id
      if there then
        putRows limits durability payload rows
          { report with objectsAlreadyPresent := report.objectsAlreadyPresent + 1 }
      else do
        let _ ← putObject hash limits durability row.kind (sliceOf payload row)
        putRows limits durability payload rows
          { report with objectsAdded := report.objectsAdded + 1, bytesAdded := report.bytesAdded + row.length }

/-- Import a bundle into a store that has its own limits: the whole file is verified first. -/
def importBundle (zstd : Zstd) (limits : BundleLimits) (own : DecodeLimits) (durability : Durability)
    (raw : Bytes) : ObjM ImportReport := do
  let bundle ← ofExcept (openBytes zstd limits hash raw)
  let verification ← ofExcept (verifyOpen hash limits bundle.content)
  if verification.dangling ≠ [] then
    throw (.corrupt ("bundle references " ++ toString verification.dangling.length ++
      " objects it neither contains nor declares as prerequisites"))
  else do
    let missingPrerequisites ← missingOf bundle.content.prerequisites
    putRows hash own durability bundle.content.payload bundle.content.table
      ⟨0, 0, 0, missingPrerequisites, bundle.content.refs⟩

end Import
end Cavs
