import Cavs.FileExec
import Cavs.Gate

/-!
# Fetching an asset from a static tree

The chunks an asset needs and the cache lacks are asked for in ranges by several workers,
checked and put into the cache; then every track is written from the cache to a temporary
file that is renamed into place. The source answers each request as it likes.
-/
namespace Cavs
open FileProg (Bytes IoError Prog)
open FileProg.Eff (op orThrow throw get modify forEach)

/-- The last part of a path. -/
abbrev Part := List Char

/-- The chunk cache, the tree that is written, and the file beside it that a name without
parts is written to first. -/
inductive FetchPath where
  | cacheRoot
  | cacheDir (front : List Char)
  | chunk (hex : String)
  | chunkTmp (hex : String)
  | beside
  | dir (path : List Part)
  | out (path : List Part)
  deriving DecidableEq, Repr

abbrev FetchDisk := FileProg.World FetchPath Unit

abbrev FetchSem := FileProg.Sem FetchPath Unit Unit

/-- Any operation may fail for a reason of its own; directories lie apart from files. -/
def fetchSem (mayFail : FileProg.Op FetchPath Unit → FetchDisk → Prop) : FetchSem :=
  ⟨fun _ => (), fun _ => none, mayFail, fun _ _ => True⟩

inductive FetchError where
  | cancelled
  | io (e : IoError)
  | unresolved
  | signature (e : SignatureError)
  | absentFromChunkMap (hash : String)
  | rangeLengthMismatch (pack : String) (got len offset : Nat)
  | rangeTransferFailed (pack : String) (offset : Nat)
  | badHash (hash : String)
  | failedVerificationTwice (hash pack : String)
  | mediaTrack
  | unsafeTrackName (name : String)
  | missingFromCache (hash : String)
  | sha256Failed (name : String)
  deriving DecidableEq, Repr

inductive Stop where
  | panics
  | fails (e : FetchError)
  deriving DecidableEq, Repr

structure GroupOutcome where
  raw : Nat
  wire : Nat
  chunks : Nat
  requests : Nat
  selectiveRetries : Nat
  deriving DecidableEq, Repr

def GroupOutcome.zero : GroupOutcome := ⟨0, 0, 0, 0, 0⟩

def GroupOutcome.add (a b : GroupOutcome) : GroupOutcome :=
  ⟨a.raw + b.raw, a.wire + b.wire, a.chunks + b.chunks, a.requests + b.requests, a.selectiveRetries + b.selectiveRetries⟩

structure FetchStats where
  total : GroupOutcome
  reused : Nat
  usefulBytes : Nat
  logicalBytes : Nat
  deriving DecidableEq, Repr

/-- A program of one fetch, which counts what it does. -/
abbrev F (α : Type) := FileProg.Eff FetchPath Unit Unit Stop GroupOutcome α

def failIo (e : IoError) : Stop := .fails (.io e)

section Cache
variable (env : ContainerEnv)

def cacheContains (hex : String) : F Bool :=
  if (strBytes hex).length ≠ 64 then pure false
  else if isBoundary ((strBytes hex).drop 2) = false then throw .panics
  else op (.present (.chunk hex))

def cachePut (hash : ChunkHash) (payload : Bytes) : F Unit := do
  let hex := toHex hash
  if ← op (.present (.chunk hex)) then return () else do
    orThrow failIo (← op (.mkdir (.cacheDir (hex.toList.take 2))))
    orThrow failIo (← op (.write (.chunkTmp hex) payload))
    orThrow failIo (← op (.rename (.chunkTmp hex) (.chunk hex)))

/-- The bytes of a chunk; an entry whose bytes have another name is removed. -/
def cacheGet (hash : ChunkHash) : F (Option Bytes) := do
  let hex := toHex hash
  match ← op (.read (.chunk hex)) with
  | .error _ => return none
  | .ok payload =>
      if env.hashChunk payload ≠ hash then do
        let _ ← op (.remove (.chunk hex))
        return none
      else return some payload

end Cache

section Ranges

def maxCoalesceGap : Nat := 64 * 1024
def maxCoalescedRange : Nat := 8 * 1024 * 1024
def maxWasteRatioPct : Nat := 15

/-- One request for a run of missing chunks of a pack. -/
structure RangeGroup where
  pack : String
  start : Nat
  span : Nat
  useful : Nat
  chunks : List ChunkMapEntry
  deriving DecidableEq, Repr

def ChunkMapEntry.before (a b : ChunkMapEntry) : Bool :=
  decide (a.pack < b.pack ∨ a.pack = b.pack ∧ a.packOffsetAbs ≤ b.packOffsetAbs)

/-- Extend the latest group, which comes first, or begin a new one. -/
def planEntry (groups : List RangeGroup) (entry : ChunkMapEntry) : F (List RangeGroup) := do
  let start := entry.packOffsetAbs.toNat
  let len := entry.lenStored.toNat
  let fresh : RangeGroup := ⟨entry.pack, start, len, len, [entry]⟩
  match groups with
  | [] => return [fresh]
  | g :: earlier =>
      let last := wordAdd g.start g.span
      let useful := wordAdd g.useful len
      let span := wordSub (wordAdd start len) g.start
      if g.pack = entry.pack ∧ last ≤ start ∧ start - last ≤ maxCoalesceGap ∧ span ≤ maxCoalescedRange ∧
          wordMul (wordSub span useful) 100 ≤ wordMul useful maxWasteRatioPct then
        return { g with span, useful, chunks := g.chunks ++ [entry] } :: earlier
      else return fresh :: groups

def planEntries : List ChunkMapEntry → List RangeGroup → F (List RangeGroup)
  | [], groups => return groups.reverse
  | entry :: rest, groups => do planEntries rest (← planEntry groups entry)

def planRangeGroups (missing : List ChunkMapEntry) : F (List RangeGroup) :=
  planEntries (missing.insertionSort fun a b => a.before b) []

end Ranges

section Group
variable (env : ContainerEnv) (replies : Nat → Except Unit Bytes)

/-- The source's answer to the next request. -/
def request : F (Except Unit Bytes) := do
  let out ← get
  modify fun out => { out with requests := out.requests + 1 }
  return replies out.requests

/-- Ask at most twice; an answer that is too short counts as none. -/
def getRangeRetrying (pack : String) (offset len : Nat) : F Bytes := do
  let again : F Bytes := do
    match ← request replies with
    | .ok bytes =>
        (if bytes.length ≥ len then pure bytes
          else throw (.fails (.rangeLengthMismatch pack bytes.length len offset)))
    | .error _ => throw (.fails (.rangeTransferFailed pack offset))
  match ← request replies with
  | .ok bytes => (if bytes.length ≥ len then pure bytes else again)
  | .error _ => again

/-- The raw bytes of a chunk, when they have its length and its name. -/
def decodeChunk (stored : Bytes) (entry : ChunkMapEntry) (hash : ChunkHash) : Option Bytes :=
  match unpackStored env entry.flags entry.lenRaw stored with
  | .error _ => none
  | .ok raw => if raw.length ≠ entry.lenRaw.toNat ∨ env.hashChunk raw ≠ hash then none else some raw

/-- Cut a chunk out of the range, or ask for it alone, and put it into the cache. -/
def fetchEntry (group : RangeGroup) (wire : Bytes) (entry : ChunkMapEntry) : F Unit := do
  match fromHex entry.hash with
  | none => throw (.fails (.badHash entry.hash))
  | some hash => do
      let start := entry.packOffsetAbs.toNat - group.start
      let len := entry.lenStored.toNat
      if entry.packOffsetAbs.toNat < group.start ∨ wire.length < start + len then throw .panics
      else do
        let raw ← (match decodeChunk env ((wire.drop start).take len) entry hash with
          | some raw => pure raw
          | none => do
              modify fun out => { out with selectiveRetries := out.selectiveRetries + 1 }
              let alone ← getRangeRetrying replies group.pack entry.packOffsetAbs.toNat len
              modify fun out => { out with wire := out.wire + alone.length }
              match decodeChunk env (alone.take len) entry hash with
              | some raw => pure raw
              | none => throw (.fails (.failedVerificationTwice entry.hash group.pack)))
        modify fun out => { out with raw := out.raw + raw.length }
        cachePut hash raw

def fetchGroup (group : RangeGroup) : F Unit := do
  let wire ← getRangeRetrying replies group.pack group.start group.span
  modify fun out => { out with wire := wire.length }
  forEach group.chunks (fetchEntry env replies group wire)
  modify fun out => { out with chunks := group.chunks.length }

end Group

/-- What the workers share. -/
structure Shared where
  next : Nat
  failed : Bool
  panicked : Bool
  firstError : Option FetchError
  cancel : Bool
  total : GroupOutcome

def Shared.stop (sh : Shared) (e : FetchError) : Shared :=
  { sh with failed := true, firstError := sh.firstError.or (some e) }

/-- Where a worker stands: at the top of its loop, past the look at the latch, waiting for
a slot, inside a group, or gone. -/
inductive Worker where
  | looking
  | asking
  | waiting
  | working (rest : Prog FetchPath Unit Unit (Except Stop Unit × GroupOutcome))
  | gone

structure Pool where
  shared : Shared
  workers : List Worker
  disk : FetchDisk

section Workers
variable (env : ContainerEnv) (σ : FetchSem) (auto : Bool) (groups : List RangeGroup)

/-- One step of one worker; what the source will answer for a group is drawn when the group
is claimed. -/
inductive WorkerStep : Shared → FetchDisk → Worker → Shared → FetchDisk → Worker → Prop
  | latched {sh w} (h : sh.failed = true) : WorkerStep sh w .looking sh w .gone
  | going {sh w} (h : sh.failed = false) : WorkerStep sh w .looking sh w .asking
  | cancelled {sh w} (h : sh.cancel = true) : WorkerStep sh w .asking (sh.stop .cancelled) w .gone
  | uncancelled {sh w} (h : sh.cancel = false) : WorkerStep sh w .asking sh w .waiting
  | parked {sh w} (h : auto = true) (latch : sh.failed = true) : WorkerStep sh w .waiting sh w .gone
  | exhausted {sh w} (h : groups[sh.next]? = none) :
      WorkerStep sh w .waiting { sh with next := sh.next + 1 } w .gone
  | claim {sh w group} (replies : Nat → Except Unit Bytes) (h : groups[sh.next]? = some group) :
      WorkerStep sh w .waiting { sh with next := sh.next + 1 } w
        (.working (fetchGroup env replies group .zero))
  | operate {sh w o k r v} (h : σ.Step o w r v) : WorkerStep sh w (.working (.call o k)) sh v (.working (k r))
  | landed {sh w out} :
      WorkerStep sh w (.working (.ret (.ok (), out))) { sh with total := sh.total.add out } w .looking
  | failed {sh w e out} : WorkerStep sh w (.working (.ret (.error (.fails e), out))) (sh.stop e) w .gone
  | panicked {sh w out} :
      WorkerStep sh w (.working (.ret (.error .panics, out))) { sh with panicked := true } w .gone

/-- The workers move in any order, and the caller may cancel at any point. -/
inductive PoolStep : Pool → Pool → Prop
  | cancel {p} : PoolStep p { p with shared := { p.shared with cancel := true } }
  | work {p i a sh v b} (h : p.workers[i]? = some a) (step : WorkerStep env σ auto groups p.shared p.disk a sh v b) :
      PoolStep p ⟨sh, p.workers.set i b, v⟩

def Pool.start (workers : Nat) (w : FetchDisk) : Pool :=
  ⟨⟨0, false, false, none, false, .zero⟩, List.replicate workers .looking, w⟩

def Pool.result (p : Pool) : Except Stop GroupOutcome :=
  if p.shared.panicked then .error .panics
  else match p.shared.firstError with
    | some e => .error (.fails e)
    | none => .ok p.shared.total

def maxConcurrency : Nat := 64

/-- How many workers are started; 0 connections mean that a controller decides. -/
def workerCount (connections : Nat) : Nat :=
  if connections = 0 then min maxConcurrency groups.length else min (max connections 1) groups.length

/-- The finished runs of the download. -/
def FetchMissingParallel (connections : Nat) (w : FetchDisk) (r : Except Stop GroupOutcome) (v : FetchDisk) : Prop :=
  if groups = [] then r = .ok .zero ∧ v = w
  else ∃ p, Relation.ReflTransGen (PoolStep env σ (connections = 0) groups)
      (.start (workerCount groups connections) w) p ∧ (∀ a ∈ p.workers, a = .gone) ∧ p.disk = v ∧ r = p.result

end Workers

section Reconstruct
variable (env : ContainerEnv) (sha256 : Bytes → ChunkHash) (manifest : Manifest)

/-- The parts of a path; empty ones and single dots say nothing. -/
def pathParts (name : String) : List Part := (name.toList.splitOn '/').filter fun p => p != [] && p != ['.']

/-- A name that ends in a slash or in a single dot names a directory. -/
def endsInPart (name : String) : Bool :=
  match (name.toList.splitOn '/').getLast? with
  | some p => p != [] && p != ['.']
  | none => false

def fileStem (name : Part) : Part :=
  match name.reverse.dropWhile (· ≠ '.') with
  | [] | [_] => name
  | _ :: before => before.reverse

/-- The path with its extension replaced, where the bytes are written first. -/
def partPath (path : List Part) : FetchPath :=
  match path.getLast? with
  | none => .beside
  | some last => .out (path.dropLast ++ [fileStem last ++ ".cavspart".toList])

def hasTwoDots : List Char → Bool
  | '.' :: '.' :: _ => true
  | _ :: rest => hasTwoDots rest
  | [] => false

def unsafeName (name : String) : Bool := hasTwoDots name.toList || name.toList.head? == some '/'

def ManifestSegment.before (a b : ManifestSegment) : Bool :=
  decide (a.ptsStart < b.ptsStart ∨ a.ptsStart = b.ptsStart ∧ a.segmentId ≤ b.segmentId)

/-- The hashes of a track in presentation order. -/
def listedHashes (track : ManifestTrack) : List String :=
  track.initChunks.map ChunkRef.hash ++
    ((manifest.segments.filter fun s => s.trackId = track.trackId).insertionSort fun a b => a.before b).flatMap
      fun s => s.chunks.map ChunkRef.hash

def logicalBytes : Nat :=
  ((manifest.tracks.flatMap ManifestTrack.initChunks ++ manifest.segments.flatMap ManifestSegment.chunks).map
    fun c => c.len.toNat).sum

def writeChunk (tmp : FetchPath) (hex : String) : F Bytes := do
  match fromHex hex with
  | none => throw (.fails (.badHash hex))
  | some hash => do
      match ← cacheGet env hash with
      | none => throw (.fails (.missingFromCache hex))
      | some bytes => do
          orThrow failIo (← op (.append tmp bytes))
          return bytes

def writeChunks (tmp : FetchPath) : List String → F Bytes
  | [] => return []
  | hex :: rest => do
      let bytes ← writeChunk env tmp hex
      return bytes ++ (← writeChunks tmp rest)

/-- The digest the manifest gives for the file; the last one counts. -/
def expectedSha256 (name : String) : Option String :=
  (manifest.metaPairs.reverse.find? fun p => p.1 = "sha256:" ++ name).map Prod.snd

/-- Rename the temporary file into place, which is no directory. -/
def promote (name : String) : F Unit :=
  if endsInPart name then do
    orThrow failIo (← op (.rename (partPath (pathParts name)) (.out (pathParts name))))
  else throw (failIo .other)

def makeDirs (path : List Part) : F Unit :=
  forEach path.dropLast.inits fun d => do orThrow failIo (← op (.mkdir (.dir d)))

def writeTrack (track : ManifestTrack) : F Unit := do
  if track.kind = "video" ∨ track.kind = "audio" then throw (.fails .mediaTrack)
  else if unsafeName track.name then throw (.fails (.unsafeTrackName track.name))
  else do
    let tmp := partPath (pathParts track.name)
    makeDirs (pathParts track.name)
    orThrow failIo (← op (.write tmp []))
    let written ← writeChunks env tmp (listedHashes manifest track)
    match expectedSha256 manifest track.name with
    | none => promote track.name
    | some expected =>
        if eqIgnoreAsciiCase (toHex (sha256 written)) expected then promote track.name
        else do
          let _ ← op (.remove tmp)
          throw (.fails (.sha256Failed track.name))

/-- Write every track; the paths of the raw ones are returned. -/
def writeTracks : List ManifestTrack → F (List FetchPath)
  | [] => return []
  | track :: rest => do
      writeTrack env sha256 manifest track
      let primaries ← writeTracks rest
      return if track.codec = "raw" then .out (pathParts track.name) :: primaries else primaries

def reconstruct : F (List FetchPath) := do
  orThrow failIo (← op (.mkdir (.dir [])))
  writeTracks env sha256 manifest manifest.tracks

end Reconstruct

/-- What a caller asks for, and what the metadata of the asset turned out to be. -/
structure FetchCall where
  connections : Nat
  pubkey : Option String
  resolved : Except FetchError (Manifest × List ChunkMapEntry)

section Fetch
variable (env : ContainerEnv) (sha256 : Bytes → ChunkHash)

/-- The entries of the chunks the cache lacks, and how many it has. The hashes come out of a
set, so none is met twice; of several entries of a hash the last one counts. -/
def missingChunks (chunks : List ChunkMapEntry) : List String → F (List ChunkMapEntry × Nat)
  | [] => return ([], 0)
  | hex :: rest => do
      if ← cacheContains hex then do
        let (missing, reused) ← missingChunks chunks rest
        return (missing, reused + 1)
      else match chunks.reverse.find? fun c => c.hash = hex with
        | none => throw (.fails (.absentFromChunkMap hex))
        | some entry => do
            let (missing, reused) ← missingChunks chunks rest
            return (entry :: missing, reused)

def checkSigner (manifest : Manifest) : Option String → F Unit
  | none => return ()
  | some pk => match manifest.verifySignature env pk with
    | .ok () => return ()
    | .error e => throw (.fails (.signature e))

/-- From the metadata to the ranges to ask for. -/
def prepare (call : FetchCall) (order : List String) : F (Manifest × List RangeGroup × Nat) := do
  orThrow failIo (← op (.mkdir .cacheRoot))
  match call.resolved with
  | .error e => throw (.fails e)
  | .ok (manifest, chunks) => do
      checkSigner env manifest call.pubkey
      let (missing, reused) ← missingChunks chunks order
      let groups ← planRangeGroups missing
      return (manifest, groups, reused)

/-- The order in which a set gives the hashes of the manifest. -/
def FetchCall.Order (call : FetchCall) (order : List String) : Prop :=
  ∀ manifest chunks, call.resolved = .ok (manifest, chunks) → order.Perm (manifestChunkHashes manifest).dedup

/-- The finished runs of a fetch: prepare, download, reconstruct. -/
inductive FetchStatic (σ : FetchSem) (call : FetchCall) : FetchDisk → Except Stop FetchStats → FetchDisk → Prop
  | stopped {order w e s v} (h : call.Order order) (prepared : (prepare env call order).Runs σ .zero w (.error e) s v) :
      FetchStatic σ call w (.error e) v
  | interrupted {order w manifest groups reused s u e v} (h : call.Order order)
      (prepared : (prepare env call order).Runs σ .zero w (.ok (manifest, groups, reused)) s u)
      (download : FetchMissingParallel env σ groups call.connections u (.error e) v) : FetchStatic σ call w (.error e) v
  | finished {order w manifest groups reused s u total x r t v} (h : call.Order order)
      (prepared : (prepare env call order).Runs σ .zero w (.ok (manifest, groups, reused)) s u)
      (download : FetchMissingParallel env σ groups call.connections u (.ok total) x)
      (written : (reconstruct env sha256 manifest).Runs σ .zero x r t v) :
      FetchStatic σ call w
        (r.map fun _ => ⟨total, reused, (groups.map RangeGroup.useful).sum, logicalBytes manifest⟩) v

end Fetch
end Cavs
