import Cavs.Manifest

/-!
# Session meta-packs and their resolution

A publisher writes one meta-pack for each push and an index that maps every object to a
pack. A client resolves objects through a cache in memory, a cache on disk and the packs,
each of which brings the siblings of the object along.
-/
namespace Cavs
open FileProg (Bytes)
open Std (ExtTreeMap ExtTreeSet)

inductive RunFlags where
  | none
  | uniform (flags : UInt32)
  | perChunk (flags : List UInt32)
  deriving DecidableEq, Repr

/-- A run of chunks that lie one after another in a pack. -/
structure MetaRun where
  pack : String
  startAbs : UInt64
  hashes : List String
  lensRaw : List UInt32
  lensStored : List UInt32
  flags : RunFlags
  deriving DecidableEq, Repr

structure MetaPackObject where
  oid : String
  manifest : Manifest
  chunks : List ChunkMapEntry
  runs : List MetaRun
  deriving DecidableEq, Repr

structure MetaPackFile where
  version : Nat
  objects : List MetaPackObject
  deriving DecidableEq, Repr

structure MetaIndexPack where
  id : String
  oids : List String
  deriving DecidableEq, Repr

structure MetaIndexFile where
  version : Nat
  generation : Nat
  packs : List MetaIndexPack
  deriving DecidableEq, Repr

/-- One object's manifest and the location of every chunk it refers to. -/
structure ResolvedMeta where
  manifest : Manifest
  chunks : List ChunkMapEntry
  deriving DecidableEq, Repr

/-- A disk entry: the metadata and the pack they came from. -/
structure L2Entry where
  src : String
  resolved : ResolvedMeta
  deriving DecidableEq, Repr

def maxMetaPackBytes : Nat := 256 * 1024 * 1024
def negativeTtl : Nat := 5000

section Entries

def RunFlags.at (flags : RunFlags) (i : Nat) : UInt32 :=
  match flags with
  | .none => 0
  | .uniform f => f
  | .perChunk v => v.getD i 0

/-- The entries of a run from chunk `i` on; `offset` is where that chunk lies. -/
def MetaRun.entriesFrom (run : MetaRun) : (i : Nat) → (offset : UInt64) → List String → List ChunkMapEntry
  | _, _, [] => []
  | i, offset, hash :: rest =>
      let lenStored := run.lensStored.getD i 0
      ⟨hash, run.lensRaw.getD i 0, lenStored, run.flags.at i, run.pack, offset⟩ ::
        run.entriesFrom (i + 1) (offset + lenStored.toUInt64) rest

/-- The object's locations, whichever encoding it carries. -/
def MetaPackObject.intoEntries (object : MetaPackObject) : ResolvedMeta :=
  if object.runs = [] then ⟨object.manifest, object.chunks⟩
  else ⟨object.manifest, object.runs.flatMap fun run => run.entriesFrom 0 run.startAbs run.hashes⟩

end Entries

/-- What the metadata path takes from other packages: hash, zstd with a bound on the
result, and the JSON of each document. -/
structure MetaCodec where
  hashChunk : Bytes → ChunkHash
  compress : (level : Nat) → Bytes → Bytes
  decompress : Nat → Bytes → Except String Bytes
  decompress_compress : ∀ level n b, b.length ≤ n → decompress n (compress level b) = .ok b
  decompress_long : ∀ level n b, n < b.length → ∃ e, decompress n (compress level b) = .error e
  packJson : MetaPackFile → Bytes
  packFromJson : Bytes → Except String MetaPackFile
  packFromJson_packJson : ∀ f, packFromJson (packJson f) = .ok f
  indexJson : MetaIndexFile → Bytes
  indexFromJson : Bytes → Except String MetaIndexFile
  indexFromJson_indexJson : ∀ f, indexFromJson (indexJson f) = .ok f
  l2Json : L2Entry → Bytes
  l2FromJson : Bytes → Except String L2Entry
  l2FromJson_l2Json : ∀ e, l2FromJson (l2Json e) = .ok e
  manifestFromJson : Bytes → Except String Manifest
  chunkMapFromJson : Bytes → Except String (List ChunkMapEntry)

/-- The metadata of an exported tree; the packs are in the order of their times. -/
structure MetaTree where
  index : Option Bytes
  packs : List (String × Bytes)
  manifests : String → Option Bytes
  chunkMaps : String → Option Bytes

section Export
variable (c : MetaCodec)

/-- What the store says of an asset at the time of a call. -/
structure StoreView where
  assetManifest : String → Except StoreError Manifest
  chunkMapRuns : String → Except StoreError (List MetaRun)

def exportObjects (view : StoreView) : List String → Except StoreError (List MetaPackObject)
  | [] => .ok []
  | name :: rest => do
      let manifest ← view.assetManifest name
      let runs ← view.chunkMapRuns name
      return ⟨name, manifest, [], runs⟩ :: (← exportObjects view rest)

def packBytes (file : MetaPackFile) : Bytes := c.compress 9 (c.packJson file)

def packId (file : MetaPackFile) : String := toHex (c.hashChunk (packBytes c file))

/-- An index entry made anew from a pack; one that cannot be read has none. -/
def rebuildEntry (pack : String × Bytes) : Option MetaIndexPack :=
  match c.decompress maxMetaPackBytes pack.2 with
  | .error _ => none
  | .ok raw => match c.packFromJson raw with
    | .error _ => none
    | .ok file => some ⟨pack.1, file.objects.map MetaPackObject.oid⟩

def readOrRebuildMetaIndex (tree : MetaTree) : List MetaIndexPack :=
  let rebuilt := tree.packs.filterMap (rebuildEntry c)
  match tree.index with
  | none => rebuilt
  | some bytes => match c.indexFromJson bytes with
    | .error _ => rebuilt
    | .ok file => if file.version = 1 then file.packs else rebuilt

/-- Publish one meta-pack for `names` and append it to the index. -/
def exportMetaPack (view : StoreView) (names : List String) (tree : MetaTree) :
    Except StoreError (Option String) × MetaTree :=
  if names = [] then (.ok none, tree)
  else match exportObjects view names with
    | .error e => (.error e, tree)
    | .ok objects =>
        let file : MetaPackFile := ⟨1, objects⟩
        let id := packId c file
        let packs := if (tree.packs.lookup id).isSome then tree.packs else tree.packs ++ [(id, packBytes c file)]
        let index := (readOrRebuildMetaIndex c { tree with packs }).filter (fun p => p.id ≠ id) ++ [⟨id, names⟩]
        (.ok (some id), { tree with
          packs
          index := some (c.indexJson ⟨1, 1 + index.length, index⟩) })

end Export

section Resolve
variable (c : MetaCodec)

inductive TreeFile where
  | index
  | pack (id : String)
  | manifest (oid : String)
  | chunkMap (oid : String)
  deriving DecidableEq, Repr

inductive MetaError where
  | transport
  | missing (file : TreeFile)
  | decompressing (file : TreeFile)
  | parsing (file : TreeFile)
  | unsupportedVersion (file : TreeFile) (version : Nat)
  deriving DecidableEq, Repr

/-- One resolve: the clock, which requests are answered, and which disk entries can be written. -/
structure ResolveCall where
  oid : String
  now : Nat
  serves : TreeFile → Bool
  lands : String → Bool

structure MetaState where
  l1 : ExtTreeMap String ResolvedMeta
  index : Option (ExtTreeMap String String)
  indexMissingUntil : Option Nat
  fetchedPacks : ExtTreeSet String
  l2 : ExtTreeMap String Bytes

/-- A new resolver over the disk cache of earlier ones. -/
def MetaState.fresh (l2 : ExtTreeMap String Bytes) : MetaState := ⟨∅, none, none, ∅, l2⟩

def MetaTree.file (tree : MetaTree) : TreeFile → Option Bytes
  | .index => tree.index
  | .pack id => tree.packs.lookup id
  | .manifest oid => tree.manifests oid
  | .chunkMap oid => tree.chunkMaps oid

def getAllOpt (tree : MetaTree) (call : ResolveCall) (file : TreeFile) : Except MetaError (Option Bytes) :=
  if call.serves file then .ok (tree.file file) else .error .transport

def getAll (tree : MetaTree) (call : ResolveCall) (file : TreeFile) : Except MetaError Bytes :=
  match getAllOpt tree call file with
  | .error e => .error e
  | .ok none => .error (.missing file)
  | .ok (some bytes) => .ok bytes

/-- Later packs win. -/
def indexMap (packs : List MetaIndexPack) : ExtTreeMap String String :=
  packs.foldl (fun map pack => pack.oids.foldl (fun map oid => map.insert oid pack.id) map) ∅

/-- The index was missing a moment ago. -/
def MetaState.waits (s : MetaState) (now : Nat) : Bool :=
  match s.indexMissingUntil with
  | some deadline => decide (now < deadline)
  | none => false

/-- Load the index once; a missing one is remembered for a while. -/
def ensureIndex (tree : MetaTree) (call : ResolveCall) (s : MetaState) :
    Except MetaError (Option (ExtTreeMap String String)) × MetaState :=
  match s.index with
  | some index => (.ok (some index), s)
  | none =>
      if s.waits call.now then (.ok none, s)
      else
        let s := { s with indexMissingUntil := none }
        let absent := { s with indexMissingUntil := some (call.now + negativeTtl) }
        match getAllOpt tree call .index with
        | .error e => (.error e, s)
        | .ok none => (.ok none, absent)
        | .ok (some bytes) => match c.indexFromJson bytes with
          | .error _ => (.ok none, absent)
          | .ok file =>
              if file.version = 1 then
                (.ok (some (indexMap file.packs)), { s with index := some (indexMap file.packs) })
              else (.ok none, absent)

/-- An oid that may name a file of the disk cache. -/
def l2Named (oid : String) : Bool :=
  decide (2 ≤ (strBytes oid).length) && oid.toList.all fun ch =>
    ch.isAlphanum || ch = '-' || ch = '_'

/-- A disk entry that decompresses but does not parse is removed. -/
def l2Get (oid : String) (s : MetaState) : Option L2Entry × MetaState :=
  if l2Named oid then match s.l2[oid]? with
    | none => (none, s)
    | some bytes => match c.decompress maxMetaPackBytes bytes with
      | .error _ => (none, s)
      | .ok raw => match c.l2FromJson raw with
        | .ok entry => (some entry, s)
        | .error _ => (none, { s with l2 := s.l2.erase oid })
  else (none, s)

def l2Put (call : ResolveCall) (oid : String) (entry : L2Entry) (s : MetaState) : MetaState :=
  if l2Named oid && call.lands oid then { s with l2 := s.l2.insert oid (c.compress 3 (c.l2Json entry)) }
  else s

/-- One object of a pack goes to both caches. -/
def fillObject (call : ResolveCall) (id : String) (s : MetaState) (object : MetaPackObject) : MetaState :=
  let s := l2Put c call object.oid ⟨id, object.intoEntries⟩ s
  { s with l1 := s.l1.insert object.oid object.intoEntries }

def readMetaPack (tree : MetaTree) (call : ResolveCall) (id : String) : Except MetaError MetaPackFile := do
  let compressed ← getAll tree call (.pack id)
  match c.decompress maxMetaPackBytes compressed with
  | .error _ => .error (.decompressing (.pack id))
  | .ok raw => match c.packFromJson raw with
    | .error _ => .error (.parsing (.pack id))
    | .ok file => if file.version ≠ 1 then .error (.unsupportedVersion (.pack id) file.version) else .ok file

/-- Download one pack; everything it carries lands in the caches. -/
def fetchMetaPack (tree : MetaTree) (call : ResolveCall) (id : String) (s : MetaState) :
    Except MetaError (Option ResolvedMeta) × MetaState :=
  let s := { s with fetchedPacks := s.fetchedPacks.insert id }
  match readMetaPack c tree call id with
  | .error e => (.error e, s)
  | .ok file =>
      (.ok ((file.objects.reverse.find? fun o => o.oid = call.oid).map MetaPackObject.intoEntries),
        file.objects.foldl (fillObject c call id) s)

def readSingle (tree : MetaTree) (call : ResolveCall) : Except MetaError ResolvedMeta := do
  let manifestBytes ← getAll tree call (.manifest call.oid)
  match c.manifestFromJson manifestBytes with
  | .error _ => .error (.parsing (.manifest call.oid))
  | .ok manifest =>
      let mapBytes ← getAll tree call (.chunkMap call.oid)
      match c.chunkMapFromJson mapBytes with
      | .error _ => .error (.parsing (.chunkMap call.oid))
      | .ok chunks => .ok ⟨manifest, chunks⟩

def resolveSingle (tree : MetaTree) (call : ResolveCall) (s : MetaState) :
    Except MetaError ResolvedMeta × MetaState :=
  match readSingle c tree call with
  | .error e => (.error e, s)
  | .ok m => (.ok m, { s with l1 := s.l1.insert call.oid m })

/-- The pack route: a pack that was fetched before, that cannot be used or that does not
carry the object leaves the object to the requests for the asset alone. -/
def resolvePack (tree : MetaTree) (call : ResolveCall) (id : String) (s : MetaState) :
    Except MetaError ResolvedMeta × MetaState :=
  if id ∈ s.fetchedPacks then resolveSingle c tree call s
  else match fetchMetaPack c tree call id s with
    | (.ok (some m), s) => (.ok m, s)
    | (.ok none, s) | (.error _, s) => resolveSingle c tree call s

def resolveMapped (tree : MetaTree) (call : ResolveCall) (id : String) (s : MetaState) :
    Except MetaError ResolvedMeta × MetaState :=
  match l2Get c call.oid s with
  | (some entry, s) =>
      if entry.src = id then (.ok entry.resolved, { s with l1 := s.l1.insert call.oid entry.resolved })
      else resolvePack c tree call id s
  | (none, s) => resolvePack c tree call id s

/-- Resolve one object: the memory cache is asked before the index. -/
def resolve (tree : MetaTree) (call : ResolveCall) (s : MetaState) : Except MetaError ResolvedMeta × MetaState :=
  match s.l1[call.oid]? with
  | some m => (.ok m, s)
  | none => match ensureIndex c tree call s with
    | (.error e, s) => (.error e, s)
    | (.ok index, s) => match index.bind fun map => map[call.oid]? with
      | some id => resolveMapped c tree call id s
      | none => resolveSingle c tree call s

/-- The resolves of one session, with their results. -/
def resolveAll (tree : MetaTree) : List ResolveCall → MetaState → List (Except MetaError ResolvedMeta) × MetaState
  | [], s => ([], s)
  | call :: rest, s =>
      let (r, s) := resolve c tree call s
      let (rs, s) := resolveAll tree rest s
      (r :: rs, s)

end Resolve
end Cavs
