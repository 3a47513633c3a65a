import Cavs.MetaPack

/-!
# The mirror of an exported tree

A push exports assets into a local tree and then copies the tree to an HTTP remote, file by
file: one that the remote has is passed over. Packs keep their bytes under their names; the
records of an asset and the index of the meta-packs do not.
-/
namespace Cavs.Mirror
open FileProg (Bytes)
open Std (ExtTreeMap)

/-- The files of a tree by their paths in it. -/
abbrev Files := ExtTreeMap String Bytes

section Paths

def firstTwo (pack : String) : String := String.ofList (pack.toList.take 2)

def packRel (pack : String) : String := "chunks/packs/" ++ firstTwo pack ++ "/" ++ pack ++ ".cavspack"
def packIndexRel (pack : String) : String := "chunks/indexes/" ++ firstTwo pack ++ "/" ++ pack ++ ".cavsindex"
def recordRel (name : String) : String := "assets/" ++ name ++ "/record.json"
def chunkMapRel (name : String) : String := "assets/" ++ name ++ "/chunk-map.json"
def manifestRel (name : String) : String := "assets/" ++ name ++ "/manifest.json"
def metaIndexRel : String := "meta/index.json"

def metaFront : List Char := ['m', 'e', 't', 'a', '/', 'p', 'a', 'c', 'k', 's', '/']
def metaBack : List Char := ['.', 'c', 'm', 'e', 't', 'a']

def metaRel (id : String) : String := String.ofList (metaFront ++ (id.toList ++ metaBack))

/-- The meta-pack that a path is the file of. -/
def metaIdOf (rel : String) : Option String :=
  ((metaFront.isPrefixOf? rel.toList).bind fun rest => metaBack.isSuffixOf? rest).map String.ofList

def lockRel : String := ".store.lock"
def storeFront : List Char := ['.', 's', 't', 'o', 'r', 'e', '/']

/-- The write lock and the store itself are not published. -/
def isPrivate (rel : String) : Bool := rel == lockRel || storeFront.isPrefixOf rel.toList

end Paths

section Export

structure PackFiles where
  id : String
  pack : Bytes
  index : Bytes

/-- What the store has to write for one asset; each document may be refused. -/
structure AssetFiles where
  packs : List PackFiles
  record : Except StoreError Bytes
  chunkMap : Except StoreError Bytes
  manifest : Except StoreError Bytes

structure PushView extends StoreView where
  assetFiles : String → Except StoreError AssetFiles

/-- Writing into the tree; what was written stays when an error ends it. -/
abbrev ExportM (α : Type) := ExceptT StoreError (StateM Files) α

def writeFile (rel : String) (b : Bytes) : ExportM Unit := modify fun files => files.insert rel b

def writeSome (rel : String) : Option Bytes → ExportM Unit
  | some b => writeFile rel b
  | none => return ()

/-- A file of the same length counts as the same file. -/
def copyIfDifferent (rel : String) (b : Bytes) : ExportM Unit := do
  match (← get)[rel]? with
  | some old => if old.length = b.length then return () else writeFile rel b
  | none => writeFile rel b

def copyPacks : List PackFiles → ExportM Unit
  | [] => return ()
  | p :: rest => do
      copyIfDifferent (packRel p.id) p.pack
      copyIfDifferent (packIndexRel p.id) p.index
      copyPacks rest

variable (view : PushView)

def exportAsset (name : String) : ExportM Unit := do
  let a ← ExceptT.mk (pure (view.assetFiles name))
  copyPacks a.packs
  writeFile (recordRel name) (← ExceptT.mk (pure a.record))
  writeFile (chunkMapRel name) (← ExceptT.mk (pure a.chunkMap))
  writeFile (manifestRel name) (← ExceptT.mk (pure a.manifest))

def exportAssets : List String → ExportM Unit
  | [] => return ()
  | name :: rest => do
      exportAsset view name
      exportAssets rest

/-- The meta-packs that are in the tree. -/
def metaIds (files : Files) : List String := files.keys.filterMap metaIdOf

/-- The metadata in a tree, with its packs in some order of their times. -/
def metaTree (arrange : List String → List String) (files : Files) : MetaTree where
  index := files[metaIndexRel]?
  packs := (arrange (metaIds files)).filterMap fun id => (files[metaRel id]?).map fun b => (id, b)
  manifests oid := files[manifestRel oid]?
  chunkMaps oid := files[chunkMapRel oid]?

variable (c : MetaCodec) (arrange : List String → List String)

/-- Write the meta-pack of `names`, if it is new, and the index that has it last. -/
def exportMeta (names : List String) : ExportM Unit := do
  match exportMetaPack c view.toStoreView names (metaTree arrange (← get)) with
  | (.error e, _) => throw e
  | (.ok none, _) => return ()
  | (.ok (some id), tree) => do
      writeSome (metaRel id) (tree.packs.lookup id)
      writeSome metaIndexRel tree.index

def exportSession (names : List String) : ExportM Unit := do
  exportAssets view names
  exportMeta view c arrange names

end Export

section Sync

/-- What the requests for a path come to. A store that is not confirmed may have happened. -/
structure Net where
  head : String → Bool
  put : String → Bool
  lands : String → Bool

inductive SyncError where
  | head (rel : String)
  | reading (rel : String)
  | put (rel : String)
  deriving DecidableEq, Repr

/-- Store the files that the remote does not have; how many were put and skipped. -/
def syncFiles (net : Net) (tree : Files) : List String → (put skipped : Nat) → Files → Except SyncError (Nat × Nat) × Files
  | [], put, skipped, remote => (.ok (put, skipped), remote)
  | rel :: rest, put, skipped, remote =>
      if isPrivate rel then syncFiles net tree rest put skipped remote
      else if net.head rel = false then (.error (.head rel), remote)
      else if rel ∈ remote then syncFiles net tree rest put (skipped + 1) remote
      else match tree[rel]? with
        | none => (.error (.reading rel), remote)
        | some bytes =>
            if net.put rel then syncFiles net tree rest (put + 1) skipped (remote.insert rel bytes)
            else (.error (.put rel), if net.lands rel then remote.insert rel bytes else remote)

def syncTree (net : Net) (listing : List String → List String) (tree remote : Files) :
    Except SyncError (Nat × Nat) × Files :=
  syncFiles net tree (listing tree.keys) 0 0 remote

end Sync

/-- One push: what the store says at its time, what it writes beside the export, the assets
it exports, and how directories and requests happen to go. -/
structure Push where
  view : PushView
  hidden : List (String × Bytes)
  hidden_private : ∀ x ∈ hidden, isPrivate x.1 = true
  names : List String
  arrange : List String → List String
  arrange_perm : ∀ l, (arrange l).Perm l
  listing : List String → List String
  listing_perm : ∀ l, (listing l).Perm l
  net : Net

inductive PushError where
  | export_ (e : StoreError)
  | sync (e : SyncError)

/-- The local tree and the remote. -/
structure State where
  tree : Files
  remote : Files

def writeHidden (l : List (String × Bytes)) (files : Files) : Files :=
  l.foldl (fun files x => files.insert x.1 x.2) files

/-- The local tree once the push has exported into it. -/
def exported (c : MetaCodec) (p : Push) (tree : Files) : Except StoreError Unit × Files :=
  (exportSession p.view c p.arrange p.names).run.run (writeHidden p.hidden tree)

def push (c : MetaCodec) (p : Push) (s : State) : Except PushError (Nat × Nat) × State :=
  match exported c p s.tree with
  | (.error e, tree) => (.error (.export_ e), ⟨tree, s.remote⟩)
  | (.ok (), tree) =>
      let (r, remote) := syncTree p.net p.listing tree s.remote
      (r.mapError .sync, ⟨tree, remote⟩)

end Cavs.Mirror
