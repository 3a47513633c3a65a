import Cavs.BlockDiffExact

/-!
# Plans from a signature and a new build

The files of the new build are compared with the blocks of the old one, in the order of the
walk. What was found becomes copies; of the rest a portable plan takes the bytes along, one
file behind the other. A plan that was built has passed its validation.
-/
namespace Cavs
open FileProg (Bytes)
open Signature (CavsSignature SignatureKind WeakHashIndex DiffOp diffBytes)

/-- What the path of a new build leads to; a directory may be given by a path without a name. -/
inductive NewBuild where
  | file (name : OsName) (content : Bytes) (sized : content.length < 2 ^ 64)
  | directory (name : Option OsName) (tree : DiskTree)

namespace NewBuild

def label : NewBuild → String
  | .file name _ _ => String.ofList (lossy name)
  | .directory name _ => (name.map fun n => String.ofList (lossy n)).getD ""

/-- What is compared, with the names the plan gives. -/
def nodes : NewBuild → List (String × DiskNode)
  | .file name content _ => [(String.ofList (lossy name), .file content false)]
  | .directory _ tree => tree.listing.map fun x => (x.1.spelled, x.2)

end NewBuild

namespace OfflinePlan

section Build
variable (hashChunk : Bytes → ChunkHash) (oldSig : CavsSignature) (kind : PlanKind)

/-- One operation of a difference; a range that is not in the new bytes ends the program. -/
def addOp (bytes : Bytes) (entryId : UInt32) (plan : OfflinePlan) : DiffOp → Outcome PlanError OfflinePlan
  | .copyOldRange oldId oldOffset newOffset len =>
      let op := PlanOp.copyOld oldId (UInt64.ofNat oldOffset) entryId (UInt64.ofNat newOffset) (UInt64.ofNat len)
      .ok { plan with ops := plan.ops ++ [op] }
  | .inlineData newOffset len =>
      let blobOffset := UInt64.ofNat plan.blob.length
      let op := PlanOp.inlined entryId (UInt64.ofNat newOffset) (UInt64.ofNat len) blobOffset
      if kind ≠ .portable then .ok { plan with ops := plan.ops ++ [op] }
      else if newOffset + len ≤ bytes.length then
        .ok { plan with
          blob := plan.blob ++ (bytes.drop newOffset).take len
          ops := plan.ops ++ [op] }
      else .panics

def addOps (bytes : Bytes) (entryId : UInt32) : OfflinePlan → List DiffOp → Outcome PlanError OfflinePlan
  | plan, [] => .ok plan
  | plan, op :: rest => do addOps bytes entryId (← addOp kind bytes entryId plan op) rest

def addFile (plan : OfflinePlan) (rel : String) (bytes : Bytes) (executable : Bool) :
    Outcome PlanError OfflinePlan :=
  let entryId := UInt32.ofNat plan.newEntries.length
  let targetPath := if plan.mode = .directory then some rel else none
  match diffBytes hashChunk (.build oldSig) bytes targetPath with
  | none => .panics
  | some diff => do
      let plan ← addOps kind bytes entryId plan diff.ops
      return { plan with
        newEntries := plan.newEntries ++
          [⟨entryId, rel, .file, UInt64.ofNat bytes.length, executable, none, some (hashChunk bytes)⟩]
        newSize := plan.newSize + UInt64.ofNat bytes.length }

def addNode (plan : OfflinePlan) : String × DiskNode → Outcome PlanError OfflinePlan
  | (rel, node) =>
      let entryId := UInt32.ofNat plan.newEntries.length
      match node with
      | .symlink target =>
          .ok { plan with newEntries := plan.newEntries ++
            [⟨entryId, rel, .symlink, 0, false, some (String.ofList (lossy target)), none⟩] }
      | .directory =>
          .ok { plan with newEntries := plan.newEntries ++ [⟨entryId, rel, .directory, 0, false, none, none⟩] }
      | .file content executable => addFile hashChunk oldSig kind plan rel content executable

def addNodes : OfflinePlan → List (String × DiskNode) → Outcome PlanError OfflinePlan
  | plan, [] => .ok plan
  | plan, x :: rest => do
      (if plan.mode = .directory ∧ pathIsSafe x.1 = false then .error (.pathTraversal x.1) else .ok ())
      addNodes (← addNode hashChunk oldSig kind plan x) rest

/-- The plan before the first entry. -/
def emptyPlan (mode : PlanMode) (newLabel : String) : OfflinePlan where
  kind
  mode
  blockSize := oldSig.blockSize
  oldLabel := oldSig.sourceLabel
  oldSize := oldSig.sourceSize
  oldBlake3 := oldSig.sourceBlake3
  newLabel
  newSize := 0
  oldEntries := oldSig.entries.filterMap fun e => if e.kind = .file then some ⟨e.entryId, e.path, e.size⟩ else none
  newEntries := []
  deleted := []
  ops := []
  blob := []

def build (source : NewBuild) : Outcome PlanError OfflinePlan := do
  match oldSig.kind, source with
  | .singleArtifact, .directory .. =>
      .error (.invalid "old signature describes a single artifact but the new build is a directory")
  | .directoryContainer, .file .. =>
      .error (.invalid "old signature describes a directory but the new build is a single file")
  | .singleArtifact, .file .. =>
      let plan ← addNodes hashChunk oldSig kind (emptyPlan oldSig kind .artifact source.label) source.nodes
      Outcome.ofExcept plan.validate
      return plan
  | .directoryContainer, .directory .. =>
      let plan ← addNodes hashChunk oldSig kind (emptyPlan oldSig kind .directory source.label) source.nodes
      let newPaths := source.nodes.map Prod.fst
      let deleted := (oldSig.entries.map Signature.SignatureEntry.path).filter fun p => p ∉ newPaths
      let plan := { plan with deleted }
      Outcome.ofExcept plan.validate
      return plan

end Build

end OfflinePlan
end Cavs
