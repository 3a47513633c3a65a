import Cavs.HybridExact
import Cavs.SessionRoute

/-!
# Reconstruction by plans

Every track is rebuilt by a plan over the previous artifact, the cache and the origin. The
files of a directory are staged first; when all are there they are moved into place, links
are made, files that do not belong are removed and the staging directory goes.
-/
namespace Cavs
open FileProg (Bytes)
open LinkFs (Comp Tree)
open Rebuild

section Files
variable (files : OutputFiles)

def OutputFiles.put (path : List Comp) (b : Bytes) : OutputFiles := fun p => if p = path then some b else files p

def OutputFiles.del (path : List Comp) : OutputFiles := fun p => if p = path then none else files p

/-- Only a file that is there can be moved. -/
def OutputFiles.move (source target : List Comp) : Option OutputFiles := do
  let b ← files source
  return (files.del source).put target b

end Files

/-- How a client asks for a reconstruction. -/
structure PlanCall where
  asset : String
  payloadKind : String
  forceReconstruct : Bool
  prune : Bool
  cacheRoot : LinkFs.Path
  output : LinkFs.Path
  prev : Option PreviousArtifact

namespace PlanCall
variable (call : PlanCall) (sha256 : Bytes → ChunkHash) (manifest : Manifest)

def dirMode : Bool := call.payloadKind == "directory"

def finalPath (name : String) : List Comp := joinTo (call.output.map .name) name

def stagingRoot : List Comp := call.output.map .name ++ [.name ".cavs-staging".toList]

def stagedPath (name : String) : List Comp := joinTo call.stagingRoot name

def journalPath : List Comp := call.stagingRoot ++ [.name "apply-journal.json".toList]

/-- Where a track is written first. -/
def dest (name : String) : List Comp := if call.dirMode then call.stagedPath name else call.finalPath name

def fileMatchesSha256 (files : OutputFiles) (path : List Comp) (expected : String) : Bool :=
  match files path with
  | some b => eqIgnoreAsciiCase (toHex (sha256 b)) expected
  | none => false

/-- A file of a directory that already has its digest is left alone. -/
def noOp (files : OutputFiles) (track : ManifestTrack) : Bool :=
  call.dirMode && !call.forceReconstruct &&
    match expectedSha256 manifest track.name with
    | some expected => fileMatchesSha256 sha256 files (call.finalPath track.name) expected
    | none => false

/-- The digest of the manifest, where it gives one, is that of the bytes. -/
def digestAccepted (track : ManifestTrack) (b : Bytes) : Bool :=
  match expectedSha256 manifest track.name with
  | some expected => eqIgnoreAsciiCase (toHex (sha256 b)) expected
  | none => true

/-- Whether the cache has a file for a chunk. -/
def cacheContains (t : Tree) (hex : String) : Option Bool :=
  if (strBytes hex).length ≠ 64 then some false
  else (ChunkCache.pathForHex call.cacheRoot hex).map fun path =>
    match LinkFs.nodeAt t true path with
    | some node => node.meta.isFile
    | none => false

end PlanCall

/-- The tree with the cache, the output files, and what is staged for which place. -/
structure PlanState where
  tree : Tree
  files : OutputFiles
  staged : List (List Comp × List Comp)

section Run
variable (m : Overflow) (hashChunk sha256 : Bytes → ChunkHash) (mayFail : LinkFs.Op → Tree → Prop)
  (call : PlanCall) (manifest : Manifest)

/-- One track. -/
inductive TrackPlanned (track : ManifestTrack) : PlanState → PlanState → Prop
  | unchanged {s : PlanState} (data : isMedia track = false) (safe : unsafeName track.name = false)
      (same : call.noOp sha256 manifest s.files track = true) : TrackPlanned track s s
  | rebuilt {s : PlanState} {needed : List NeededChunk} {p : ReconstructionPlan} {outcome : ExecOutcome} {t : Tree} {b : Bytes}
      (data : isMedia track = false) (safe : unsafeName track.name = false)
      (other : call.noOp sha256 manifest s.files track = false)
      (listed : neededChunksForTrack m manifest track.trackId = some needed)
      (planned : plan m (availabilityFromSets (call.cacheContains s.tree) fun hex => call.prev.bind fun prev => prev.index hex)
        call.asset track.name needed = some p)
      (run : (hybridReconstruct m hashChunk call.cacheRoot call.prev p).Runs (HybridStep mayFail) (s.tree, []) (.ok outcome) (t, b))
      (accepted : PlanCall.digestAccepted sha256 manifest track b = true) :
      TrackPlanned track s
        ⟨t, s.files.install (call.dest track.name, b), s.staged ++ [(call.dest track.name, call.finalPath track.name)]⟩

/-- The tracks in the manifest's order, all of them with success. -/
inductive TracksPlanned : List ManifestTrack → PlanState → PlanState → Prop
  | nil (s : PlanState) : TracksPlanned [] s s
  | cons {track : ManifestTrack} {rest : List ManifestTrack} {s s' s'' : PlanState}
      (first : TrackPlanned m hashChunk sha256 mayFail call manifest track s s') (later : TracksPlanned rest s' s'') :
      TracksPlanned (track :: rest) s s''

end Run

section Commit
variable (journal : List (List Comp × List Comp) → Bytes) (call : PlanCall) (manifest : Manifest)

/-- The meta entries under a prefix; a path that leads out is passed. -/
def metaPaths (front : String) : List (String × String) :=
  (manifest.metaPairs.filterMap fun p =>
    (front.toList.isPrefixOf? p.1.toList).map fun rest => (String.ofList rest, p.2)).filter fun p => !unsafeName p.1

/-- Move what is staged, one file after another. -/
def moveStaged : List (List Comp × List Comp) → OutputFiles → Option OutputFiles
  | [], files => some files
  | (source, target) :: rest, files => do moveStaged rest (← files.move source target)

/-- A link takes the place of a file. -/
def linkPaths : List (String × String) → OutputFiles → OutputFiles
  | [], files => files
  | (path, _) :: rest, files => linkPaths rest (files.del (call.finalPath path))

/-- The files of the output that stay. -/
def keep : List (List Comp) :=
  manifest.tracks.map (fun t => call.finalPath t.name) ++
    (metaPaths manifest "symlink:").map fun p => call.finalPath p.1

def pruneExtraneous (files : OutputFiles) : OutputFiles := fun path =>
  if (call.output.map Comp.name).isPrefixOf path && !call.stagingRoot.isPrefixOf path && !(keep call manifest).contains path then
    none
  else files path

/-- Directories and permissions are not files; a journal is written if there is anything to
move. -/
def commitDirectory (staged : List (List Comp × List Comp)) (files : OutputFiles) : Option OutputFiles := do
  let files := if staged = [] then files else files.put call.journalPath (journal staged)
  let moved ← moveStaged staged files
  let linked := linkPaths call (metaPaths manifest "symlink:") moved
  let pruned := if call.prune then pruneExtraneous call manifest linked else linked
  return fun path => if call.stagingRoot.isPrefixOf path then none else pruned path

variable (m : Overflow) (hashChunk sha256 : Bytes → ChunkHash) (mayFail : LinkFs.Op → Tree → Prop)

/-- A reconstruction by plans that succeeds. -/
def ReconstructWithPlans (t : Tree) (files files' : OutputFiles) : Prop :=
  ∃ s, TracksPlanned m hashChunk sha256 mayFail call manifest manifest.tracks ⟨t, files, []⟩ s ∧
    (if call.dirMode then commitDirectory journal call manifest s.staged s.files else some s.files) = some files'

end Commit

end Cavs
