import Cavs.Entries

/-!
# The ledger journal

A save appends one sealed record with the entries it touched. Replay applies
records in generation order, each one past the ledger it lands on: an older
record is skipped, a gap or a bad seal ends the replay where it stands.
-/
namespace Cavs
open FileProg (Bytes)
open ByteScan
open Std (ExtTreeMap ExtTreeSet)

/-- `CAVSIDL1` -/
def journalMagic : Bytes := [67, 65, 86, 83, 73, 68, 76, 49]

def journalVersion : Nat := 1
def journalHeaderSize : Nat := 24
def journalSealSize : Nat := 32
def journalMinBytes : Nat := 2 ^ 20
def inlineRecordsMax : Nat := 16 * 1024

section Encode

/-- The entries a save touched, as they stand now. -/
structure Delta where
  upserts : List (String × ChunkInfo)
  removals : List String
  assetPuts : List (String × List String)
  assetDels : List String

def Index.delta (index : Index) (dirtyChunks dirtyAssets : ExtTreeSet String) : Delta where
  upserts := dirtyChunks.toList.filterMap fun hex => index.chunks[hex]?.map fun info => (hex, info)
  removals := dirtyChunks.toList.filter fun hex => index.chunks[hex]?.isNone
  assetPuts := dirtyAssets.toList.filterMap fun name => index.assets[name]?.map fun cs => (name, cs)
  assetDels := dirtyAssets.toList.filter fun name => index.assets[name]?.isNone

def Delta.packs (d : Delta) : List String := packTable (d.upserts.map Prod.snd)

/-- A record inside a journal has no bytes here: nothing new to say. -/
def encodeRecordRef : Option RecordRef → Bytes
  | some (.pack pack offset len) => le 1 1 ++ (pack.1 ++ (le 4 offset ++ le 4 len))
  | _ => le 1 0

def recordPlace (staged : Option Bytes) (ref : Option RecordRef) : Bytes :=
  match staged with
  | some bytes => le 1 2 ++ (le 4 bytes.length ++ bytes)
  | none => encodeRecordRef ref

def assetHead (put : String × List String) : Bytes := textBytes put.1 ++ hexesBytes put.2

def assetPut (index : Index) (pending : ExtTreeMap String Bytes) (put : String × List String) :
    Bytes := assetHead put ++ recordPlace pending[put.1]? index.records[put.1]?

def Delta.front (d : Delta) : Bytes :=
  (le 2 d.packs.length ++ d.packs.flatMap textBytes) ++
  ((le 4 d.upserts.length ++ d.upserts.flatMap (chunkRecord 2 d.packs)) ++
  ((le 4 d.removals.length ++ d.removals.flatMap fun hex => (hexHash hex).1) ++
  le 4 d.assetPuts.length))

def Delta.body (d : Delta) (index : Index) (pending : ExtTreeMap String Bytes) : Bytes :=
  d.front ++ (d.assetPuts.flatMap (assetPut index pending) ++
  (le 4 d.assetDels.length ++ d.assetDels.flatMap textBytes))

def sealRecord (env : Env) (generation : Nat) (body : Bytes) : Bytes :=
  let sealed := journalMagic ++ (le 2 journalVersion ++ (le 2 0 ++ (le 4 body.length ++
    (le 8 generation ++ body))))
  sealed ++ (env.hashChunk sealed).1

/-- Where the staged bytes of an asset start, when its entry starts at `pos`. -/
def inlineAt (pending : ExtTreeMap String Bytes) (put : Nat × String × List String) :
    Option (String × Nat × Nat) :=
  pending[put.2.1]?.map fun bytes =>
    (put.2.1, put.1 + (assetHead put.2).length + 5, bytes.length % 2 ^ 32)

/-- The record, and the offset and length of each inline asset record in it. -/
def encodeJournalRecord (env : Env) (index : Index) (generation : Nat)
    (dirtyChunks dirtyAssets : ExtTreeSet String) (pending : ExtTreeMap String Bytes) :
    Bytes × List (String × Nat × Nat) :=
  let d := index.delta dirtyChunks dirtyAssets
  (sealRecord env generation (d.body index pending),
    (places (assetPut index pending) (journalHeaderSize + d.front.length) d.assetPuts).filterMap
      (inlineAt pending))

end Encode

section Replay

/-- The sealed record at the start of `bytes` and its generation. -/
def nextJournalRecord (env : Env) (bytes : Bytes) : Option (Bytes × Nat) :=
  if bytes.length < journalHeaderSize + journalSealSize ∨ bytes.take 8 ≠ journalMagic then none
  else if ofLe ((bytes.drop 8).take 2) > journalVersion then none
  else
    let total := journalHeaderSize + ofLe ((bytes.drop 12).take 4) + journalSealSize
    if bytes.length < total then none
    else if (env.hashChunk (bytes.take (total - journalSealSize))).1 ≠
        (bytes.take total).drop (total - journalSealSize) then none
    else some (bytes.take total, ofLe ((bytes.drop 16).take 8))

def Index.upsert (index : Index) (entry : String × ChunkInfo) : Index :=
  { index with chunks := index.chunks.insert entry.1 entry.2 }

def Index.dropChunk (index : Index) (hex : String) : Index :=
  { index with chunks := index.chunks.erase hex }

def Index.dropAsset (index : Index) (name : String) : Index :=
  { index with assets := index.assets.erase name, records := index.records.erase name }

def Index.setRecord (index : Index) (name : String) (ref : RecordRef) : Index :=
  { index with records := index.records.insert name ref }

/-- An asset listed without a record keeps an inline one and loses any other. -/
def Index.keepInline (index : Index) (name : String) : Index :=
  match index.records[name]? with
  | some (.journal ..) => index
  | _ => { index with records := index.records.erase name }

def Index.setAsset (index : Index) (name : String) (chunks : List String) : Index :=
  { index with assets := index.assets.insert name chunks }

def readPackRef : Scan StoreError Index RecordRef := do
  let pack ← readHash
  let offset ← readNum 4
  let len ← readNum 4
  return .pack pack offset len

def applyAssetPut (file : JournalFile) (base : Nat) : Scan StoreError Index Unit := do
  let name ← readText "asset name not utf-8"
  let hexes ← readHexes "asset chunk count exceeds record"
  let tag ← readNum 1
  (match tag with
    | 0 => Scan.modify fun index => index.keepInline name
    | 1 => do
        let ref ← readPackRef
        Scan.modify fun index => index.setRecord name ref
    | 2 => do
        let len ← readNum 4
        let pos ← Scan.position
        let _ ← Scan.take truncated len
        Scan.modify fun index => index.setRecord name (.journal file (base + pos) len)
    | _ => Scan.throw (corrupt "bad record location tag"))
  Scan.modify fun index => index.setAsset name hexes

/-- Entries are applied as they are read: an error leaves those before it applied. -/
def applyJournalRecord (file : JournalFile) (base : Nat) : Scan StoreError Index Unit := do
  let packCount ← readNum 2
  let packs ← Scan.collect packCount (readText "pack id not utf-8")
  let upserts ← readNum 4
  let left ← Scan.remaining
  check (upserts ≤ left / 70) (corrupt "upsert count exceeds record")
  Scan.times upserts (do
    let entry ← readChunkRecord 2 packs
    Scan.modify fun index => index.upsert entry)
  let removals ← readNum 4
  let left ← Scan.remaining
  check (removals ≤ left / 32) (corrupt "removal count exceeds record")
  Scan.times removals (do
    let hash ← readHash
    Scan.modify fun index => index.dropChunk (toHex hash))
  let assetPuts ← readNum 4
  Scan.times assetPuts (applyAssetPut file base)
  let assetDels ← readNum 4
  Scan.times assetDels (do
    let name ← readText "asset name not utf-8"
    Scan.modify fun index => index.dropAsset name)

/-- The record applied to its end: bytes left over are an error too. -/
def applyRecord (file : JournalFile) (base : Nat) (index : Index) (body : Bytes) :
    Except StoreError Unit × Index :=
  match applyJournalRecord file base index ⟨0, body⟩ with
  | (.ok (_, cursor), index') =>
      (if cursor.rest = [] then .ok () else .error (corrupt "trailing bytes"), index')
  | (.error e, index') => (.error e, index')

/-- What a replay found: how much of the file held records the ledger could
take, and how long the file is. -/
structure JournalScan where
  truncateTo : Nat
  fileLen : Nat
  deriving DecidableEq, Repr

def recordBody (record : Bytes) : Bytes :=
  (record.take (record.length - journalSealSize)).drop journalHeaderSize

/-- One round of the replay on what is left of the journal: the ledger after it
and the length of the record it went over, or the ledger it stops with. -/
def replayStep (env : Env) (file : JournalFile) (pos : Nat) (rest : Bytes) (index : Index) :
    Except Index (Index × Nat) :=
  match nextJournalRecord env rest with
  | none => .error index
  | some (record, generation) =>
      if generation = index.generation + 1 then
        match applyRecord file (pos + journalHeaderSize) index (recordBody record) with
        | (.ok _, index') => .ok ({ index' with generation }, record.length)
        | (.error _, index') => .error index'
      else if generation > index.generation + 1 then .error index
      else .ok (index, record.length)

/-- The replay loop; `fuel` bounds the records, each of which takes a byte at least. -/
def replayLoop (env : Env) (file : JournalFile) :
    (fuel pos : Nat) → (rest : Bytes) → Index → Index × Nat
  | 0, pos, _, index => (index, pos)
  | fuel + 1, pos, rest, index =>
      match replayStep env file pos rest index with
      | .ok (index', len) => replayLoop env file fuel (pos + len) (rest.drop len) index'
      | .error index' => (index', pos)

/-- Apply every record past `start` that follows on from the generation of `index`. -/
def replayBytes (env : Env) (file : JournalFile) (index : Index) (bytes : Bytes) (start : Nat) :
    Index × JournalScan :=
  let pos := min start bytes.length
  let (index', stop) := replayLoop env file (bytes.length + 1) pos (bytes.drop pos) index
  (index', ⟨stop, bytes.length⟩)

/-- A missing file is an empty journal; only other I/O errors are passed on. -/
def replayJournalFrom {S : Type} (env : Env) (index : Index) (path : Path) (file : JournalFile)
    (start : Nat) : M S (Index × JournalScan) := do
  match ← FileProg.Eff.op (.read path) with
  | .ok bytes => pure (replayBytes env file index bytes start)
  | .error .notFound => pure (index, ⟨0, 0⟩)
  | .error e => FileProg.Eff.throw (.io e)

end Replay
end Cavs
