import Cavs.FileEff
import Cavs.Hash
import Std.Data.ExtTreeMap
import Std.Data.ExtTreeSet

/-!
# The data of a store

The ledger and its entries, the handle a caller works on, and the files of a
store as a type: a path says what a file is for, so a directory walk is a
selection of constructors. Counters and offsets are natural numbers; where a
width matters the codecs cut them to it.
-/
namespace Cavs
open FileProg (Bytes IoError)
open Std (ExtTreeMap ExtTreeSet)

theorem getElem?_insert_eq {V : Type} (m : ExtTreeMap String V) (k a : String) (v : V) :
    (m.insert k v)[a]? = if a = k then some v else m[a]? := by
  rw [ExtTreeMap.getElem?_insert]
  simp only [Std.LawfulEqCmp.compare_eq_iff_eq, @eq_comm _ k a]

theorem getElem?_erase_eq {V : Type} (m : ExtTreeMap String V) (k a : String) :
    (m.erase k)[a]? = if a = k then none else m[a]? := by
  rw [ExtTreeMap.getElem?_erase]
  simp only [Std.LawfulEqCmp.compare_eq_iff_eq, @eq_comm _ k a]

section Words
variable {a b : Nat}

/-- A sum of machine words, which wraps. -/
def wordAdd (a b : Nat) : Nat := (a + b) % 2 ^ 64

/-- A difference of machine words. -/
def wordSub (a b : Nat) : Nat := if b ≤ a then a - b else 2 ^ 64 - (b - a)

def wordMul (a b : Nat) : Nat := a * b % 2 ^ 64

theorem wordAdd_eq (word : a + b < 2 ^ 64) : wordAdd a b = a + b := Nat.mod_eq_of_lt word

theorem wordSub_eq (below : b ≤ a) : wordSub a b = a - b := if_pos below

theorem wordMul_eq (word : a * b < 2 ^ 64) : wordMul a b = a * b := Nat.mod_eq_of_lt word

end Words

inductive StoreLayout where
  | loose
  | packfiles
  deriving DecidableEq, Repr

inductive StoreError where
  | io (e : IoError)
  | json
  | missingChunk (hex : String)
  | assetNotFound (name : String)
  | badHash (hex : String)
  | badAssetName (name : String)
  | packCorrupt (what : String)
  | indexCorrupt (what : String)
  | layoutMismatch (store requested : StoreLayout)
  | readOnly
  deriving DecidableEq, Repr

/-- Per-chunk ledger entry. -/
structure ChunkInfo where
  lenRaw : UInt32
  lenStored : UInt32
  flags : UInt32
  refcount : Nat
  zeroSince : Option Nat
  pack : Option String
  packOffset : Option Nat
  deriving DecidableEq, Repr

structure StoreTrack where
  trackId : UInt32
  kind : UInt8
  codec : String
  name : String
  timescale : UInt32
  initChunks : List String
  deriving DecidableEq, Repr

structure StoreSegment where
  segmentId : UInt64
  trackId : UInt32
  ptsStart : UInt64
  duration : UInt32
  randomAccess : Bool
  chunks : List String
  deriving DecidableEq, Repr

/-- Everything needed to serve an asset from the store. -/
structure AssetRecord where
  name : String
  assetUuid : String
  tracks : List StoreTrack
  segments : List StoreSegment
  dict : List String
  chunkTable : List String
  merkleRoot : String
  signature : Option String
  signerPubkey : Option String
  metaPairs : List (String × String)
  deriving DecidableEq, Repr

/-- Which journal file an inline record was read from. -/
inductive JournalFile where
  | live
  | prev
  deriving DecidableEq, Repr

/-- Where the bytes of one asset's record live. -/
inductive RecordRef where
  | pack (pack : ChunkHash) (offset len : Nat)
  | journal (file : JournalFile) (offset len : Nat)
  deriving DecidableEq, Repr

abbrev ChunkTable := ExtTreeMap String ChunkInfo
abbrev AssetTable := ExtTreeMap String (List String)

structure Index where
  chunks : ChunkTable
  assets : AssetTable
  records : ExtTreeMap String RecordRef
  layout : StoreLayout
  generation : Nat

def Index.empty (layout : StoreLayout) : Index := ⟨∅, ∅, ∅, layout, 0⟩

/-- Where a loaded ledger came from. -/
inductive LedgerSource where
  | live (size : Nat)
  | prev
  | legacy
  | json
  deriving DecidableEq, Repr

/-- One chunk's location inside a pack, as recorded in the sidecar index. -/
structure PackEntry where
  hash : ChunkHash
  offset : Nat
  storedLen : UInt32
  rawLen : UInt32
  flags : UInt32
  deriving DecidableEq, Repr

/-- A pack being written: the number of its temp file, the bytes its hasher took,
and what it holds. -/
structure PackWriter where
  part : Nat
  hashed : Bytes
  dataLen : Nat
  entries : List PackEntry
  deriving DecidableEq, Repr

inductive SegKind where
  | base
  | delta
  deriving DecidableEq, Repr

/-- One mapped segment: its root metadata, pack-id table and bytes. -/
structure Segment where
  file : ChunkHash
  kind : SegKind
  mmap : Bytes
  recordCount : Nat
  packs : List String
  min : ChunkHash
  max : ChunkHash
  deriving DecidableEq, Repr

/-- Lookup priority order: deltas newest to oldest, then bases. -/
structure SegIndex where
  generation : Nat
  layout : StoreLayout
  segments : List Segment
  deriving DecidableEq, Repr

structure RootSegment where
  file : ChunkHash
  kind : SegKind
  records : Nat
  size : Nat
  min : String
  max : String
  deriving DecidableEq, Repr

/-- Root metadata of one generation; bases first, then deltas oldest to newest. -/
structure RootBody where
  version : Nat
  generation : Nat
  layout : StoreLayout
  segments : List RootSegment
  deriving DecidableEq, Repr

abbrev Overlay := ExtTreeMap String (Option ChunkInfo)

structure SegState where
  index : SegIndex
  overlay : Overlay

structure GlobalStore where
  index : Index
  seg : Option SegState
  openPack : Option PackWriter
  preferredPackSize : Nat
  batch : Option (List AssetRecord)
  dirtyChunks : ExtTreeSet String
  dirtyAssets : ExtTreeSet String
  journalBytes : Nat
  snapshotBytes : Nat
  journalBudget : Option Nat
  pendingRecords : ExtTreeMap String Bytes
  snapshotId : Option (Nat × Nat)
  readOnly : Bool
  nextWriter : Nat

/-- The files of a store. Only a generation directory is kept as a file of its
own: it must be there before a file of its generation can be made. -/
inductive Path where
  | indexBin | indexBinTmp | indexBinPrev | indexJson
  | indexLog | indexLogPrev | preMigration
  | flatRecord (name : String) | flatRecordTmp (name : String)
  | recordPack (pack : ChunkHash) | recordPackTmp (pack : ChunkHash)
  | chunk (hex : String) | chunkTmp (hex : String)
  | packPart (n : Nat) | pack (hex : String)
  | packIndex (hex : String) | packIndexTmp (hex : String)
  | quarantined (hex : String) | quarantinedIndex (hex : String) | quarantinedSince (hex : String)
  | segCurrent | segCurrentTmp | segWal
  | segment (file : ChunkHash) | segmentTmp (file : ChunkHash)
  | genDir (g : Nat) | genRoot (g : Nat) | genRootTmp (g : Nat)
  | genAssets (g : Nat) | genAssetsTmp (g : Nat)
  deriving DecidableEq, Repr

def Path.parent : Path → Option Path
  | .genRoot g | .genRootTmp g | .genAssets g | .genAssetsTmp g => some (.genDir g)
  | _ => none

/-- The parts the store takes from other packages: the hash, the JSON and zstd
codecs of whole files, and the order in which a hash set is walked. A JSON
document of the kind `root.idx` is has a body, kept as its own serialization,
and a checksum. -/
structure Env where
  hashChunk : Bytes → ChunkHash
  recordJson : AssetRecord → Bytes
  indexFromJson : Bytes → Option Index
  rootJson : RootBody → Bytes
  rootFromJson : Bytes → Except String RootBody
  rootFromJson_rootJson : ∀ r, rootFromJson (rootJson r) = .ok r
  docJson : String → Bytes → Bytes
  docFromJson : Bytes → Except String (Option Bytes × String)
  docFromJson_docJson : ∀ c r, docFromJson (docJson c (rootJson r)) = .ok (some (rootJson r), c)
  assetsJson : AssetTable → Bytes
  assetsFromJson : Bytes → Except String AssetTable
  assetsFromJson_assetsJson : ∀ a, assetsFromJson (assetsJson a) = .ok a
  compress : Bytes → Bytes
  decompress : Nat → Bytes → Except String Bytes
  decompress_compress : ∀ n b, b.length ≤ n → decompress n (compress b) = .ok b
  setOrder : Nat → List String → List String
  setOrder_perm : ∀ seed l, (setOrder seed l).Perm l

/-- A method of the store. -/
abbrev M (S α : Type) := FileProg.Eff Path GlobalStore ChunkHash StoreError S α

abbrev Disk := FileProg.World Path GlobalStore

abbrev StoreSem := FileProg.Sem Path GlobalStore ChunkHash

end Cavs
