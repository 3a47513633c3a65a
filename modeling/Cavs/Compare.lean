import Cavs.Signature

/-!
# Comparing a build with a signature

Each path of the build is looked up in the signature by the way it is spelled. What the
apply machinery leaves behind is recognised by the beginning of its name.
-/
namespace Cavs.Compare
open FileProg (Bytes IoError)
open Signature

inductive FileState where
  | new
  | modified
  | deleted
  | same
  deriving DecidableEq, Repr

structure EntryReport where
  path : String
  state : FileState
  size : UInt64
  deriving DecidableEq, Repr

inductive CompareError where
  | signatureOfArtifact
  | signatureOfDirectory
  | noFileEntry
  deriving DecidableEq, Repr

section Files
variable (hashChunk : Bytes → ChunkHash)

/-- Block by block; what follows the last block is not looked at. -/
def matchBlocks : Bytes → List SignatureBlockHash → Bool
  | _, [] => true
  | rest, b :: blocks =>
      let want := b.len.toNat
      if rest.length < want then false
      else if hashChunk (rest.take want) ≠ b.strongBlake3 then false
      else matchBlocks (rest.drop want) blocks

/-- A block of a decoded signature fits the buffer that a file is read into. -/
def fileMatchesBlocks (content : Bytes) (oldSize : UInt64) (oldBlocks : Option (List SignatureBlockHash)) : Bool :=
  let size := UInt64.ofNat content.length
  if size ≠ oldSize then false
  else if size = 0 then true
  else match oldBlocks with
    | none => false
    | some blocks => matchBlocks hashChunk content blocks

/-- An entry without blocks has no list. -/
def listed : List SignatureBlockHash → Option (List SignatureBlockHash)
  | [] => none
  | blocks => some blocks

def indexBlocks (sig : CavsSignature) (id : UInt32) : Option (List SignatureBlockHash) :=
  listed (sig.blocks.filter fun b => b.entryId = id)

end Files

def kindOf : DiskNode → EntryKind
  | .file .. => .file
  | .symlink _ => .symlink
  | .directory => .directory

def sizeOf (node : DiskNode) : UInt64 := UInt64.ofNat node.content.length

/-- The apply machinery's own files never count against a build. -/
def skipped (path : String) : Bool :=
  ".cavs-staging".toList.isPrefixOf path.toList || path = ".cavs-journal.json"

/-- The last entry of a path stands for it. -/
def oldByPath (sig : CavsSignature) (path : String) : Option SignatureEntry :=
  sig.entries.reverse.find? fun e => e.path = path

def stateOf (hashChunk : Bytes → ChunkHash) (sig : CavsSignature) (path : String) (node : DiskNode) : FileState :=
  match oldByPath sig path with
  | none => .new
  | some old =>
      if old.kind ≠ kindOf node then .modified
      else match node with
        | .directory => .same
        | .symlink target =>
            if old.symlinkTarget = some (String.ofList (lossy target)) then .same else .modified
        | .file content _ =>
            if fileMatchesBlocks hashChunk content old.size (indexBlocks sig old.entryId) then .same else .modified

/-- The paths of a build that are compared. -/
def compared (root : DiskTree) : List (RelPath × DiskNode) := root.listing.filter fun x => !skipped x.1.spelled

def reportOf (hashChunk : Bytes → ChunkHash) (sig : CavsSignature) (x : RelPath × DiskNode) : EntryReport :=
  ⟨x.1.spelled, stateOf hashChunk sig x.1.spelled x.2, sizeOf x.2⟩

/-- Directories are reported only when they are new or changed. -/
def classifyDir (hashChunk : Bytes → ChunkHash) (sig : CavsSignature) (root : DiskTree) : List EntryReport :=
  let here := (compared root).filterMap fun x =>
    let report := reportOf hashChunk sig x
    if kindOf x.2 ≠ .directory ∨ report.state ≠ .same then some report else none
  let gone := sig.entries.filterMap fun e =>
    if e.path ∈ (compared root).map fun x => x.1.spelled then none else some ⟨e.path, .deleted, 0⟩
  (here ++ gone).insertionSort fun a b => (compare a.path b.path).isLE

def classify (hashChunk : Bytes → ChunkHash) (sig : CavsSignature) (source : Source) :
    Except CompareError (List EntryReport) :=
  match sig.kind, source with
  | .singleArtifact, .directory _ => .error .signatureOfArtifact
  | .singleArtifact, .artifact name content =>
      match sig.entries.find? fun e => e.kind = .file with
      | none => .error .noFileEntry
      | some entry =>
          let state :=
            if fileMatchesBlocks hashChunk content entry.size (indexBlocks sig entry.entryId) then .same
            else .modified
          .ok [⟨String.ofList (lossy name), state, UInt64.ofNat content.length⟩]
  | .directoryContainer, .artifact .. => .error .signatureOfDirectory
  | .directoryContainer, .directory root => .ok (classifyDir hashChunk sig root)

/-- What is told of an install that was held against a build. -/
structure VerifyReport where
  filesChecked : Nat
  bytesChecked : Nat
  modified : List String
  missing : List String
  extra : List String
  deriving DecidableEq, Repr

def VerifyReport.ok (r : VerifyReport) : Bool := r.modified.isEmpty && r.missing.isEmpty && r.extra.isEmpty

end Cavs.Compare
