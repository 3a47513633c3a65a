import Cavs.Entries
import Mathlib.Data.List.Sort

/-!
# The segmented ledger

The chunk table as sorted segments named by their seal. A save appends one delta
segment; a generation becomes live by the rename of `CURRENT`, and deltas are
folded into fresh bases when they pile up.
-/
namespace Cavs
open FileProg (Bytes IoError)
open FileProg.Eff (op orThrow ofExcept attempt forEach throw)
open ByteScan
open Std (ExtTreeMap ExtTreeSet)

def segMagic : Bytes := [67, 65, 86, 83, 83, 69, 71, 49]
def segVersion : Nat := 1
def segHeaderLen : Nat := 20
def segRecordLen : Nat := 73
def noPack : Nat := 2 ^ 32 - 1
def stateLive : Nat := 0
def stateTombstone : Nat := 1
def segTargetRecords : Nat := 64 * 1024 * 1024 / segRecordLen
def maxDeltaSegments : Nat := 8
def deltaBytesRatioPct : Nat := 25

section Text

/-- `str::trim` takes these off both ends. -/
def isWhite (c : Char) : Bool :=
  let n := c.toNat
  (9 ≤ n ∧ n ≤ 13) ∨ n = 32 ∨ n = 133 ∨ n = 160 ∨ n = 5760 ∨ (8192 ≤ n ∧ n ≤ 8202) ∨ n = 8232 ∨
    n = 8233 ∨ n = 8239 ∨ n = 8287 ∨ n = 12288

def trim (l : List Char) : List Char := ((l.dropWhile isWhite).reverse.dropWhile isWhite).reverse

def digitValue (c : Char) : Option Nat :=
  if '0' ≤ c ∧ c ≤ '9' then some (c.toNat - 48) else none

def parseDigits (l : List Char) : Option Nat :=
  l.foldl (fun acc c => acc.bind fun n => (digitValue c).map fun d => 10 * n + d) (some 0)

/-- `u64::from_str`: digits, with a plus sign allowed before them. -/
def parseU64 (l : List Char) : Option Nat :=
  let digits := match l with
    | '+' :: rest => rest
    | _ => l
  if digits = [] then none
  else (parseDigits digits).bind fun n => if n < 2 ^ 64 then some n else none

def decimal (n : Nat) : List Char := (Nat.toDigits 10 n)

def genName (g : Nat) : List Char :=
  ['g', 'e', 'n', '-'] ++ (List.replicate (10 - (decimal g).length) '0' ++ decimal g)

def stripGen : List Char → Option (List Char)
  | 'g' :: 'e' :: 'n' :: '-' :: rest => some rest
  | _ => none

end Text

section Record

def segOrdinal (packs : List String) : Option String → Nat
  | some p => packs.idxOf p
  | none => noPack

/-- The table has the packs of every record before this one is numbered. -/
def encodeRecord (packs : List String) (hash : ChunkHash) : Option ChunkInfo → Bytes
  | some info =>
      hash.1 ++ (le 4 info.lenRaw.toNat ++ (le 4 info.lenStored.toNat ++ (le 4 info.flags.toNat ++
      (le 8 info.refcount ++ (le 8 (info.zeroSince.getD u64Max) ++
      (le 4 (segOrdinal packs info.pack) ++ (le 8 (info.packOffset.getD u64Max) ++
      le 1 stateLive)))))))
  | none => hash.1 ++ (List.replicate (segRecordLen - 32 - 1) 0 ++ le 1 stateTombstone)

def field (record : Bytes) (start width : Nat) : Nat := ofLe ((record.drop start).take width)

/-- A pack number past the table ends the source's program; here it is no pack. -/
def decodeRecord (record : Bytes) (packs : List String) : Option ChunkInfo :=
  if field record (segRecordLen - 1) 1 = stateTombstone then none
  else some {
    lenRaw := UInt32.ofNat (field record 32 4)
    lenStored := UInt32.ofNat (field record 36 4)
    flags := UInt32.ofNat (field record 40 4)
    refcount := field record 44 8
    zeroSince := if field record 52 8 = u64Max then none else some (field record 52 8)
    pack := if field record 60 4 = noPack then none else packs[field record 60 4]?
    packOffset := if field record 64 8 = u64Max then none else some (field record 64 8) }

end Record

section Lookup

def Segment.recordAt (seg : Segment) (i : Nat) : Bytes :=
  (seg.mmap.drop (segHeaderLen + i * segRecordLen)).take segRecordLen

def Segment.hashAt (seg : Segment) (i : Nat) : Bytes := (seg.recordAt i).take 32

/-- Binary search between `lo` and `hi`; the range halves each round. -/
def Segment.search (seg : Segment) (hash : Bytes) : (fuel lo hi : Nat) → Option (Option ChunkInfo)
  | 0, _, _ => none
  | fuel + 1, lo, hi =>
      if lo < hi then
        let mid := (lo + hi) / 2
        if seg.hashAt mid < hash then seg.search hash fuel (mid + 1) hi
        else if hash < seg.hashAt mid then seg.search hash fuel lo mid
        else some (decodeRecord (seg.recordAt mid) seg.packs)
      else none

/-- A record found is its entry, or `none` inside for a tombstone. -/
def Segment.lookup (seg : Segment) (hash : ChunkHash) : Option (Option ChunkInfo) :=
  if hash.1 < seg.min.1 ∨ seg.max.1 < hash.1 then none
  else seg.search hash.1 (seg.recordCount + 1) 0 seg.recordCount

/-- The newest segment that has the hash decides. -/
def lookupIn (hash : ChunkHash) : List Segment → Option ChunkInfo
  | [] => none
  | seg :: rest => match seg.lookup hash with
    | some info => info
    | none => lookupIn hash rest

def SegIndex.lookup (index : SegIndex) (hex : String) : Option ChunkInfo :=
  (fromHex hex).bind fun hash => lookupIn hash index.segments

def SegIndex.deltaCount (index : SegIndex) : Nat :=
  (index.segments.filter fun seg => seg.kind = .delta).length

def SegIndex.bytesOf (index : SegIndex) (kind : SegKind) : Nat :=
  ((index.segments.filter fun seg => seg.kind = kind).map fun seg => seg.mmap.length).sum

/-- What a cursor of the merge still has to go over. -/
def Segment.records (seg : Segment) : List (Bytes × Option ChunkInfo) :=
  (List.range seg.recordCount).map fun i => (seg.hashAt i, decodeRecord (seg.recordAt i) seg.packs)

/-- The smallest pending hash; of equal ones the first, which is the newest. -/
def mergeMin : List (List (Bytes × Option ChunkInfo)) → Option (Bytes × Option ChunkInfo)
  | [] => none
  | [] :: rest => mergeMin rest
  | (head :: _) :: rest => match mergeMin rest with
    | none => some head
    | some other => if head.1 ≤ other.1 then some head else some other

/-- The merge of the cursors; one round goes over one hash in every segment. -/
def mergeLive : (fuel : Nat) → List (List (Bytes × Option ChunkInfo)) → List (String × ChunkInfo)
  | 0, _ => []
  | fuel + 1, cursors => match mergeMin cursors with
    | none => []
    | some (hash, info) =>
        let rest := mergeLive fuel (cursors.map fun c => c.dropWhile fun r => r.1 = hash)
        match info, hashOf hash with
        | some info, some h => (toHex h, info) :: rest
        | _, _ => rest

def SegIndex.iterLive (index : SegIndex) : List (String × ChunkInfo) :=
  mergeLive ((index.segments.map fun seg => seg.recordCount).sum + 1)
    (index.segments.map Segment.records)

end Lookup

section Files
variable {S : Type} (env : Env)

def ioErr : IoError → StoreError := .io

def corruptErr (what : String) : IoError → StoreError := fun _ => corrupt what

def segFileName (file : ChunkHash) : String := toHex file ++ ".seg"

/-- The bytes of a segment before its seal. -/
def segmentBody (kind : SegKind) (records : List (String × Option ChunkInfo)) : Bytes :=
  let packs := packTable (records.filterMap Prod.snd)
  segMagic ++ (le 2 segVersion ++ (le 1 (match kind with | .base => 0 | .delta => 1) ++ (le 1 0 ++
  (le 8 records.length ++ (records.flatMap (fun r => encodeRecord packs (hexHash r.1) r.2) ++
  (le 4 packs.length ++ packs.flatMap textBytes))))))

def checkHexes (records : List (String × Option ChunkInfo)) : Except StoreError Unit :=
  match records.find? fun r => (fromHex r.1).isNone with
  | some r => .error (corrupt ("bad chunk hex " ++ r.1))
  | none => .ok ()

/-- Write one immutable segment into the pool, named by its seal. -/
def writeSegment (kind : SegKind) (records : List (String × Option ChunkInfo)) :
    M S RootSegment := do
  ofExcept (checkHexes records)
  let body := segmentBody kind records
  let file ← op (.digest body)
  let known ← op (.present (.segment file))
  (if known then pure () else do
    orThrow ioErr (← op (.write (.segmentTmp file) (body ++ file.1)))
    orThrow ioErr (← op (.sync (.segmentTmp file)))
    orThrow ioErr (← op (.rename (.segmentTmp file) (.segment file))))
  return {
    file, kind
    records := records.length
    size := body.length + 32
    min := (records.head?.map Prod.fst).getD ""
    max := (records.getLast?.map Prod.fst).getD "" }

/-- The pack table at the end of a segment: `count` ids from `start` on. -/
def readPackTable (file : ChunkHash) (mmap : Bytes) : (count start : Nat) → Except StoreError (List String)
  | 0, _ => .ok []
  | count + 1, start =>
      if start + 2 > mmap.length - 32 then
        .error (corrupt ("segment " ++ segFileName file ++ ": pack table truncated"))
      else
        let len := field mmap start 2
        if start + 2 + len > mmap.length - 32 then
          .error (corrupt ("segment " ++ segFileName file ++ ": pack table truncated"))
        else match utf8 ((mmap.drop (start + 2)).take len) with
          | none => .error (corrupt ("segment " ++ segFileName file ++ ": bad pack id"))
          | some id => (readPackTable file mmap count (start + 2 + len)).map (id :: ·)

def checkSegment (rs : RootSegment) (mmap : Bytes) : Except StoreError Segment := do
  if mmap.length ≠ rs.size ∨ mmap.length < segHeaderLen + 32 ∨ mmap.take 8 ≠ segMagic then
    .error (corrupt ("segment " ++ segFileName rs.file ++ " does not match its root entry"))
  let version := field mmap 8 2
  if version > segVersion then
    .error (corrupt ("segment " ++ segFileName rs.file ++ " is version " ++ toString version ++
      "; this build reads up to " ++ toString segVersion))
  let kind ← (match field mmap 10 1 with
    | 0 => .ok SegKind.base
    | 1 => .ok SegKind.delta
    | k => .error (corrupt ("segment " ++ segFileName rs.file ++ ": unknown kind " ++ toString k)))
  let recordCount := field mmap 12 8
  let packsOff := segHeaderLen + recordCount * segRecordLen
  if packsOff + 4 + 32 > mmap.length ∨ recordCount ≠ rs.records then
    .error (corrupt ("segment " ++ segFileName rs.file ++ " is truncated"))
  let packs ← readPackTable rs.file mmap (field mmap packsOff 4) (packsOff + 4)
  .ok {
    file := rs.file, kind, mmap, recordCount, packs
    min := (fromHex rs.min).getD zeroHash
    max := (fromHex rs.max).getD maxHash }

def openSegment (rs : RootSegment) : M S Segment := do
  let mmap ← orThrow (corruptErr ("segment " ++ segFileName rs.file ++ " unreadable"))
    (← op (.read (.segment rs.file)))
  ofExcept (checkSegment rs mmap)

def openSegments : List RootSegment → M S (List Segment)
  | [] => pure []
  | rs :: rest => do
      let seg ← openSegment rs
      return seg :: (← openSegments rest)

def writeRoot (g : Nat) (body : RootBody) : M S Unit := do
  let json := env.rootJson body
  let doc := env.docJson (toHex (env.hashChunk json)) json
  orThrow ioErr (← op (.write (.genRootTmp g) doc))
  orThrow ioErr (← op (.sync (.genRootTmp g)))
  orThrow ioErr (← op (.rename (.genRootTmp g) (.genRoot g)))

def parseRoot (bytes : Bytes) : Except StoreError RootBody := do
  match env.docFromJson bytes with
  | .error e => .error (corrupt ("root.idx malformed: " ++ e))
  | .ok (none, _) => .error (corrupt "root.idx has no body")
  | .ok (some json, expect) =>
      if toHex (env.hashChunk json) ≠ expect then .error (corrupt "root.idx failed its checksum")
      else match env.rootFromJson json with
        | .error e => .error (corrupt ("root.idx body malformed: " ++ e))
        | .ok body =>
            if body.version ≠ 1 then
              .error (corrupt ("root.idx version " ++ toString body.version ++ " not supported"))
            else .ok body

def readRoot (g : Nat) : M S RootBody := do
  let bytes ← orThrow (corruptErr "root.idx unreadable") (← op (.read (.genRoot g)))
  ofExcept (parseRoot env bytes)

def writeAssets (g : Nat) (assets : AssetTable) : M S Unit := do
  orThrow ioErr (← op (.write (.genAssetsTmp g) (env.compress (env.assetsJson assets))))
  orThrow ioErr (← op (.sync (.genAssetsTmp g)))
  orThrow ioErr (← op (.rename (.genAssetsTmp g) (.genAssets g)))

def parseAssets (bytes : Bytes) : Except StoreError AssetTable :=
  match env.decompress (2 ^ 31) bytes with
  | .error e => .error (corrupt ("assets table corrupt: " ++ e))
  | .ok raw => match env.assetsFromJson raw with
    | .error e => .error (corrupt ("assets table malformed: " ++ e))
    | .ok assets => .ok assets

def readAssets (g : Nat) : M S AssetTable := do
  let bytes ← orThrow (corruptErr "assets table unreadable") (← op (.read (.genAssets g)))
  ofExcept (parseAssets env bytes)

def walAppend (what : String) (g : Nat) : M S Unit := do
  orThrow ioErr (← op (.append .segWal
    (strBytes ("\x7b\"op\":\"" ++ what ++ "\",\"gen\":" ++ toString g ++ "\x7d\n"))))

/-- The generation `CURRENT` names. -/
def parseCurrent (bytes : Bytes) : Except StoreError Nat :=
  match utf8 bytes with
  | none => .error (.io .other)
  | some s => match (stripGen (trim s.toList)).bind parseU64 with
    | some g => .ok g
    | none => .error (corrupt ("bad CURRENT: " ++ s.quote))

def swapCurrent (next : Nat) : M S Unit := do
  orThrow ioErr (← op (.write .segCurrentTmp (strBytes (String.ofList (genName next ++ ['\n'])))))
  orThrow ioErr (← op (.rename .segCurrentTmp .segCurrent))

def isGenDir : Path → Bool
  | .genDir _ => true
  | _ => false

def genOf : Path → Option Nat
  | .genDir g => some g
  | _ => none

/-- `remove_dir_all` of one generation, its result dropped. -/
def removeGeneration (g : Nat) : M S Unit :=
  forEach [.genRoot g, .genRootTmp g, .genAssets g, .genAssetsTmp g, .genDir g] fun p => do
    let _ ← op (.remove p)

/-- Generations newer than `CURRENT` are leftovers and are swept. -/
def sweepGenerations (generation : Nat) : M S Unit := do
  match ← op (.list isGenDir) with
  | .error _ => pure ()
  | .ok dirs => forEach (dirs.filterMap genOf) fun g =>
      if g > generation then removeGeneration g else pure ()

/-- Open the active generation: read `CURRENT` and the root, map every segment. -/
def SegIndex.open_ : M S (SegIndex × AssetTable) := do
  let current ← orThrow ioErr (← op (.read .segCurrent))
  let generation ← ofExcept (parseCurrent current)
  sweepGenerations generation
  let root ← readRoot env generation
  ofExcept (if root.generation = generation then .ok () else .error (corrupt
    ("root.idx generation " ++ toString root.generation ++ " != CURRENT " ++ toString generation)))
  let segments ← openSegments root.segments
  let bases := segments.filter fun seg => seg.kind = .base
  let deltas := segments.filter fun seg => seg.kind = .delta
  let assets ← readAssets env generation
  return (⟨generation, root.layout, deltas.reverse ++ bases⟩, assets)

def SegIndex.reload : M SegIndex Unit := do
  let (fresh, _) ← SegIndex.open_ env
  FileProg.Eff.modify fun _ => fresh

def isSegmentFile : Path → Bool
  | .segment _ => true
  | _ => false

/-- Keep the current and previous generation; drop older ones, then the segments no
kept root names. -/
def pruneGenerations : M S Unit := do
  let dirs ← orThrow ioErr (← op (.list isGenDir))
  let gens := (dirs.filterMap genOf).insertionSort (· ≤ ·)
  let keep := gens.reverse.take 2
  forEach gens fun g => if g ∈ keep then pure () else removeGeneration g
  let referenced ← referencedBy keep
  match ← op (.list isSegmentFile) with
  | .error _ => pure ()
  | .ok files => forEach files fun p => do
      match p with
      | .segment file => if file ∈ referenced then pure () else let _ ← op (.remove p)
      | _ => pure ()
  let _ ← op (.write .segWal [])
where
  /-- The segments of the roots that can be read. -/
  referencedBy : List Nat → M S (List ChunkHash)
    | [] => pure []
    | g :: rest => do
        let root ← attempt (readRoot env g)
        let more ← referencedBy rest
        match root with
        | .ok body => return body.segments.map RootSegment.file ++ more
        | .error _ => return more

/-- Base segments of at most the target size; `fuel` bounds their number. -/
def writeBases : (fuel : Nat) → List (String × ChunkInfo) → M S (List RootSegment)
  | 0, _ => pure []
  | _, [] => pure []
  | fuel + 1, chunks => do
      let rs ← writeSegment .base ((chunks.take segTargetRecords).map fun c => (c.1, some c.2))
      return rs :: (← writeBases fuel (chunks.drop segTargetRecords))

/-- Rewrite the merged live view as fresh base segments of a new generation. -/
def SegIndex.compact (assets : AssetTable) : M SegIndex Unit := do
  let index ← FileProg.Eff.get
  let next := index.generation + 1
  walAppend "begin" next
  orThrow ioErr (← op (.mkdir (.genDir next)))
  let live := index.iterLive
  let segments ← writeBases live.length live
  writeAssets env next assets
  writeRoot env next ⟨1, next, index.layout, segments⟩
  swapCurrent next
  walAppend "commit" next
  SegIndex.reload env
  pruneGenerations env

/-- Commit one publish session: the touched records as a delta segment, the asset
table and a new root, made live by the swap of `CURRENT`. -/
def SegIndex.commitGeneration (dirty : Overlay) (assets : AssetTable) : M SegIndex Unit := do
  let index ← FileProg.Eff.get
  let next := index.generation + 1
  walAppend "begin" next
  orThrow ioErr (← op (.mkdir (.genDir next)))
  let root ← readRoot env index.generation
  let segments ← (if dirty.isEmpty then pure root.segments else do
    let rs ← writeSegment .delta dirty.toList
    return root.segments ++ [rs])
  writeAssets env next assets
  writeRoot env next ⟨1, next, index.layout, segments⟩
  swapCurrent next
  walAppend "commit" next
  SegIndex.reload env
  let fresh ← FileProg.Eff.get
  (if fresh.deltaCount > maxDeltaSegments ∨
      fresh.bytesOf .delta * 100 > max (fresh.bytesOf .base) 1 * deltaBytesRatioPct then
    SegIndex.compact env assets
  else pure ())
  pruneGenerations env

end Files
end Cavs
