import Cavs.Envelope
import Cavs.FileEff
import Cavs.GraphWalk

/-!
# Where objects live on disk

An object store keeps one file per object, named by its id: a short header with the
class, then the bytes. A write goes to a temporary file that is renamed into place.
-/
namespace Cavs
open FileProg (Bytes IoError)
open FileProg.Eff (op orThrow ofExcept throw get modify)
open ByteScan

/-- The files of an object store. -/
inductive ObjPath where
  | loose (id : ObjectId)
  | tmp (id : ObjectId) (writer : Nat)
  deriving DecidableEq, Repr

abbrev ObjDisk := FileProg.World ObjPath Unit

/-- A method of the store; the state counts the writers of temporary files. -/
abbrev ObjM (α : Type) := FileProg.Eff ObjPath Unit Unit ObjectError Nat α

def looseMagic : Bytes := [67, 65, 86, 83, 79, 66, 74, 1]
def looseHeaderLen : Nat := 8 + 2 + 4

/-- The file of an object. -/
def looseBytes (kind : ObjectKind) (bytes : Bytes) : Bytes :=
  looseMagic ++ (le 2 1 ++ (le 4 kind.tag ++ bytes))

/-- The class and bytes of an object file. -/
def parseLoose (id : ObjectId) (raw : Bytes) : Except ObjectError (ObjectKind × Bytes) :=
  if raw.length < looseHeaderLen then .error (.truncated "loose object header")
  else if raw.take 8 ≠ looseMagic then
    .error (.corrupt ("object " ++ toHex id.digest ++ " has a bad file header"))
  else
    let version := ofLe ((raw.drop 8).take 2)
    if version ≠ 1 then .error (.unsupportedFormat version)
    else
      let tag := ofLe ((raw.drop 10).take 4)
      match ObjectKind.fromTag tag with
      | some kind => .ok (kind, raw.drop looseHeaderLen)
      | none => .error (.unknownKind tag)

theorem parseLoose_looseBytes {id : ObjectId} {kind : ObjectKind} {bytes : Bytes} (known : kind.Known) :
    parseLoose id (looseBytes kind bytes) = .ok (kind, bytes) := by
  have tag : ofLe (le 4 kind.tag) = kind.tag := ofLe_le (kind.tag_lt.trans_eq rfl)
  have parts : (looseBytes kind bytes).take 8 = looseMagic ∧
      ((looseBytes kind bytes).drop 8).take 2 = le 2 1 ∧
      ((looseBytes kind bytes).drop 10).take 4 = le 4 kind.tag ∧
      (looseBytes kind bytes).drop looseHeaderLen = bytes := ⟨rfl, rfl, rfl, rfl⟩
  have long : ¬ (looseBytes kind bytes).length < looseHeaderLen := by
    simp [looseBytes, looseHeaderLen, looseMagic]
    omega
  have version : ofLe (le 2 1) = 1 := rfl
  rw [parseLoose, if_neg long, parts.1, if_neg (by simp)]
  simp only [parts.2.1, parts.2.2.1, parts.2.2.2, version, tag]
  rw [if_neg (by simp), known]

structure StoredObject where
  id : ObjectId
  kind : ObjectKind
  bytes : Bytes
  deriving DecidableEq, Repr

inductive Durability where
  | onFlush
  | perObject
  | never
  deriving DecidableEq, Repr

section Store
variable (hash : Bytes → ChunkHash)

/-- An object read back is checked against its id. -/
def checkObject (id : ObjectId) (raw : Bytes) : Except ObjectError StoredObject := do
  let (kind, bytes) ← parseLoose id raw
  let actual := ObjectId.compute hash kind bytes
  if actual ≠ id then .error (.idMismatch (toHex id.digest) (toHex actual.digest))
  else .ok ⟨id, kind, bytes⟩

def getObject (id : ObjectId) : ObjM StoredObject := do
  match ← op (.read (.loose id)) with
  | .ok raw => ofExcept (checkObject hash id raw)
  | .error .notFound => throw (.notFound (toHex id.digest))
  | .error e => throw (.io "read object" e)

def hasObject (id : ObjectId) : ObjM Bool := op (.present (.loose id))

/-- Store bytes as an object of a class. The directories of the store are there, and
what is left to sync is not followed. -/
def putObject (limits : DecodeLimits) (durability : Durability) (kind : ObjectKind) (bytes : Bytes) :
    ObjM ObjectId := do
  if bytes.length > limits.maxLenFor kind then
    throw (.tooLarge "object" bytes.length (limits.maxLenFor kind))
  else do
    let id := ObjectId.compute hash kind bytes
    let known ← op (.present (.loose id))
    if known then return id else do
      let writer ← get
      modify (· + 1)
      orThrow (.io "write object") (← op (.write (.tmp id writer) (looseBytes kind bytes)))
      (if durability = .perObject then do
        orThrow (.io "sync object") (← op (.sync (.tmp id writer)))
      else pure ())
      match ← op (.rename (.tmp id writer) (.loose id)) with
      | .ok () => return id
      | .error e => do
          let _ ← op (.remove (.tmp id writer))
          let there ← op (.present (.loose id))
          if there then return id else throw (.io "publish object" e)

end Store

section Disk
variable (limits : DecodeLimits) (w : ObjDisk)

/-- What the graph sees of an object file: of a chunk its header and size only. -/
def looseNode (id : ObjectId) (raw : Bytes) : Except ObjectError ObjectNode := do
  let (kind, bytes) ← parseLoose id raw
  let envelope ← decodeEnvelopeOf kind bytes
  return ⟨id, kind, UInt64.ofNat bytes.length, envelope⟩
where
  decodeEnvelopeOf (kind : ObjectKind) (bytes : Bytes) : Except ObjectError (List ObjectId) :=
    if kind.isPayload then .ok [] else (decodeEnvelope kind bytes limits).map ObjectEnvelope.dependencies

/-- The object graph of the files as they stand. -/
def lookup : GraphSource := fun id =>
  match w.get (.loose id) with
  | some f => (looseNode limits id f.bytes).map some
  | none => .ok none

theorem looseNode_parsed {id : ObjectId} {raw bytes : Bytes} {kind : ObjectKind}
    (parsed : parseLoose id raw = .ok (kind, bytes)) :
    looseNode limits id raw = (looseNode.decodeEnvelopeOf limits kind bytes).map fun deps =>
      ⟨id, kind, UInt64.ofNat bytes.length, deps⟩ := by
  rw [looseNode, parsed]
  change (looseNode.decodeEnvelopeOf limits kind bytes >>= fun deps => pure _) = _
  cases looseNode.decodeEnvelopeOf limits kind bytes <;> rfl

def ObjPath.looseId : ObjPath → Option ObjectId
  | .loose id => some id
  | .tmp .. => none

/-- Every object in the store. -/
def listObjects : List ObjectId := w.files.keys.filterMap ObjPath.looseId

def Present (id : ObjectId) : Prop := (w.get (.loose id)).isSome

instance (id : ObjectId) : Decidable (Present w id) := inferInstanceAs (Decidable (_ = true))

theorem mem_listObjects {id : ObjectId} : id ∈ listObjects w ↔ Present w id := by
  rw [listObjects, List.mem_filterMap, Present, ← FileProg.mem_keys_iff]
  constructor
  · rintro ⟨p, mem, same⟩
    cases p <;> simp [ObjPath.looseId] at same
    exact same ▸ mem
  · exact fun mem => ⟨_, mem, rfl⟩

end Disk

/-- A stand-in for the hash that tells byte strings of different length apart. -/
def lengthHash (b : Bytes) : ChunkHash := ⟨le 32 b.length, le_length ..⟩

/-- A tree over one chunk. -/
def leafBytes : Bytes := [7]
def leaf : ObjectId := .compute lengthHash .chunk leafBytes
def pageBytes : Bytes := le 2 1 ++ (le 4 ObjectKind.tree.tag ++ (1 :: writeId leaf ++ [0]))
def page : ObjectId := .compute lengthHash .tree pageBytes

end Cavs
