import Cavs.Open

/-!
# Publishing and collecting

The operations that change the ledger and end in a save, and the calls a caller
makes on a handle.
-/
namespace Cavs
open FileProg (Bytes IoError)
open FileProg.Eff (attempt forEach get modify ofExcept op orThrow throw)
open Std (ExtTreeMap ExtTreeSet)

variable (env : Env)

section Records

def writeAssetRecordAt {S : Type} (record : AssetRecord) : M S Unit := do
  orThrow .io (← op (.write (.flatRecordTmp record.name) (env.recordJson record)))
  orThrow .io (← op (.rename (.flatRecordTmp record.name) (.flatRecord record.name)))

/-- Stage a record: the save that follows gives it a place. -/
def stageRecord (record : AssetRecord) (s : GlobalStore) : GlobalStore :=
  { s with
    pendingRecords := s.pendingRecords.insert record.name (env.recordJson record)
    index := { s.index with records := s.index.records.erase record.name } }

/-- The segmented ledger keeps flat record files; the source writes a large batch of
them on several threads, one file each. -/
def writeAssetRecords (records : List AssetRecord) : M GlobalStore Unit := do
  let s ← get
  if records = [] then pure ()
  else if s.seg.isSome then forEach records (writeAssetRecordAt env)
  else do
    let flatRecordsRemain : Bool := s.index.records.size < s.index.assets.size
    forEach records fun record => do
      (if flatRecordsRemain then do
        let _ ← op (.remove (.flatRecord record.name))
      else pure ())
      modify (stageRecord env record)

end Records

section Publish

def badName (name : String) : Bool :=
  name.toList.any (fun c => c = '/' ∨ c = '\\' ∨ c = '.') || name.isEmpty

/-- The distinct chunks an asset references, in the order a hash set is walked. -/
def distinctChunks (seed : Nat) (record : AssetRecord) : List String :=
  env.setOrder seed ((record.tracks.flatMap StoreTrack.initChunks ++
    record.segments.flatMap StoreSegment.chunks).dedup)

def referenced (info : ChunkInfo) : ChunkInfo :=
  { info with refcount := info.refcount + 1, zeroSince := none }

def dereferenced (now : Nat) (info : ChunkInfo) : ChunkInfo :=
  { info with
    refcount := info.refcount - 1
    zeroSince := if info.refcount - 1 = 0 then some now else info.zeroSince }

/-- Drop one reference to each chunk; one whose count reaches zero is stamped. -/
def decrement (chunks : List String) : M GlobalStore Unit :=
  forEach chunks fun hex => do
    let now ← nowEpoch
    modify fun s => s.chunkUpdate hex (dereferenced now)

def removeAsset (name : String) (s : GlobalStore) : GlobalStore :=
  { s with index := { s.index with assets := s.index.assets.erase name } }

def listAsset (name : String) (chunks : List String) (s : GlobalStore) : GlobalStore :=
  { s with index := { s.index with assets := s.index.assets.insert name chunks } }

def markAsset (name : String) (s : GlobalStore) : GlobalStore :=
  { s with dirtyAssets := s.dirtyAssets.insert name }

/-- Publish or replace an asset. Inside a batch only the ledger in memory changes. -/
def publishAsset (record : AssetRecord) : M GlobalStore Unit := do
  if badName record.name then throw (.badAssetName record.name) else do
    let s ← get
    (if s.batch.isSome then pure () else flushPacks env)
    let seed ← op .seed
    let distinct := distinctChunks env seed record
    let s ← get
    ofExcept (match distinct.find? fun hex => !s.chunkContains hex with
      | some hex => .error (.missingChunk hex)
      | none => .ok ())
    (match s.index.assets[record.name]? with
      | some old => do
          modify (removeAsset record.name)
          decrement old
      | none => pure ())
    modify (markAsset record.name)
    modify fun s => distinct.foldl (fun s hex => s.chunkUpdate hex referenced) s
    modify (listAsset record.name distinct)
    match s.batch with
    | some _ => modify fun s => { s with batch := s.batch.map (· ++ [record]) }
    | none => do
        writeAssetRecords env [record]
        saveIndex env

/-- Drop an asset's references; `false` when it was not published. -/
def unpublishAsset (name : String) : M GlobalStore Bool := do
  let s ← get
  match s.index.assets[name]? with
  | none => return false
  | some chunks => do
      modify (removeAsset name)
      modify (markAsset name)
      decrement chunks
      modify (eraseRecords [name])
      let _ ← op (.remove (.flatRecord name))
      saveIndex env
      return true

/-- Until the commit a publish changes the ledger in memory only. -/
def beginPublishBatch : M GlobalStore Unit :=
  modify fun s => { s with batch := some (s.batch.getD []) }

/-- Persist everything the open batch deferred, with one save. -/
def commitPublishBatch : M GlobalStore Unit := do
  let s ← get
  match s.batch with
  | none => pure ()
  | some pending => do
      modify fun s => { s with batch := none }
      flushPacks env
      writeAssetRecords env pending
      (if pending ≠ [] ∨ s.openPack.isSome then saveIndex env else pure ())

end Publish

section Collect

/-- Move a pack and its sidecar into quarantine and stamp it. -/
def quarantinePack (hex : String) : M GlobalStore Unit := do
  let pack ← op (.present (.pack hex))
  (if pack then do orThrow .io (← op (.rename (.pack hex) (.quarantined hex))) else pure ())
  let idx ← op (.present (.packIndex hex))
  (if idx then do orThrow .io (← op (.rename (.packIndex hex) (.quarantinedIndex hex))) else pure ())
  let now ← nowEpoch
  orThrow .io (← op (.write (.quarantinedSince hex) (strBytes (toString now))))

def Path.packHex : Path → Option String
  | .pack hex => some hex
  | _ => none

def Path.isPack : Path → Bool
  | .pack _ => true
  | _ => false

def Path.recordPackHash : Path → Option ChunkHash
  | .recordPack hash => some hash
  | _ => none

def Path.isRecordPack : Path → Bool
  | .recordPack _ => true
  | _ => false

/-- Quarantine sealed packs that no ledger chunk references, when they are old enough. -/
def quarantineOrphanPacks (grace : Nat) : M GlobalStore Unit := do
  let s ← get
  let live := s.livePackSet
  let now ← op .now
  let packs ← orThrow .io (← op (.list Path.isPack))
  forEach (packs.filterMap Path.packHex) fun hex =>
    if hex ∈ live then pure () else do
      let meta_ ← op (.stat (.pack hex))
      match meta_ with
      | some (_, mtime) =>
          if mtime ≤ now ∧ (now - mtime) / 10 ^ 9 ≥ grace then quarantinePack hex else pure ()
      | none => pure ()

def parseStamp (bytes : Bytes) : Option Nat :=
  (utf8 bytes).bind fun s => parseU64 (trim s.toList)

/-- What the sweep does with one quarantined pack; returns the bytes reclaimed. -/
def sweepQuarantined (live : List String) (now grace : Nat) (hex : String) : M GlobalStore Nat :=
  if hex ∈ live then do
    restorePackFromQuarantine hex
    return 0
  else do
    let stamp ← op (.read (.quarantinedSince hex))
    match stamp.toOption.bind parseStamp with
    | none => do
        orThrow .io (← op (.write (.quarantinedSince hex) (strBytes (toString now))))
        return 0
    | some since =>
        if now - since < grace then return 0 else do
          let meta_ ← op (.stat (.quarantined hex))
          removeAll [.quarantined hex, .quarantinedIndex hex, .quarantinedSince hex]
          return (meta_.map Prod.fst).getD 0

def sumOver {β : Type} : List β → (β → M GlobalStore Nat) → M GlobalStore Nat
  | [], _ => pure 0
  | b :: bs, f => do
      let n ← f b
      return n + (← sumOver bs f)

/-- Delete packs that sat in quarantine long enough; one the ledger names again moves back. -/
def sweepQuarantine (grace : Nat) : M GlobalStore Nat := do
  let s ← get
  let now ← nowEpoch
  let quarantined ← orThrow .io (← op (.list Path.isQuarantined))
  sumOver (quarantined.filterMap Path.quarantinedHex) (sweepQuarantined s.livePackSet now grace)

def recordPackRef : RecordRef → Option ChunkHash
  | .pack hash _ _ => some hash
  | .journal .. => none

/-- Delete record packs no asset of the ledger in memory points into. -/
def sweepDeadRecordPacks : M GlobalStore Nat := do
  let s ← get
  let live := s.index.records.toList.filterMap fun r => recordPackRef r.2
  let packs ← orThrow .io (← op (.list Path.isRecordPack))
  sumOver (packs.filterMap Path.recordPackHash) fun hash =>
    if hash ∈ live then pure 0 else do
      let meta_ ← op (.stat (.recordPack hash))
      let _ ← op (.remove (.recordPack hash))
      return (meta_.map Prod.fst).getD 0

/-- Whether a chunk has been without references for `grace` seconds. -/
def doomed (now grace : Nat) (info : ChunkInfo) : Bool :=
  info.refcount = 0 ∧ now - info.zeroSince.getD 0 ≥ grace

/-- Remove the ledger entries of the doomed chunks, and their files when they are
loose; returns the packs they were in and the bytes reclaimed. -/
def dropChunks : List String → M GlobalStore (List String × Nat)
  | [] => pure ([], 0)
  | hex :: rest => do
      let s ← get
      let (old, s') := s.chunkRemove hex
      modify fun _ => s'
      match old with
      | none => dropChunks rest
      | some info => match info.pack with
        | some pack => do
            let (packs, bytes) ← dropChunks rest
            return (pack :: packs, bytes)
        | none => do
            let _ ← op (.remove (.chunk hex))
            let (packs, bytes) ← dropChunks rest
            return (packs, info.lenStored.toNat + bytes)

section Dropped
variable {hex pack : String} {rest : List String} {s t : GlobalStore} {info : ChunkInfo}

theorem get_bind (f : GlobalStore → M GlobalStore (List String × Nat)) : (get >>= f) s = f s s := rfl

theorem dropChunks_absent (removed : s.chunkRemove hex = (none, t)) : dropChunks (hex :: rest) s = dropChunks rest t := by
  rw [dropChunks, get_bind, removed]
  rfl

theorem dropChunks_packed (removed : s.chunkRemove hex = (some info, t)) (packed : info.pack = some pack) :
    dropChunks (hex :: rest) s = (dropChunks rest >>= fun r => pure (pack :: r.1, r.2)) t := by
  rw [dropChunks, get_bind, removed]
  dsimp only
  rw [packed]
  rfl

theorem dropChunks_loose (removed : s.chunkRemove hex = (some info, t)) (loose : info.pack = none) :
    dropChunks (hex :: rest) s = (op (.remove (.chunk hex)) >>= fun _ =>
      dropChunks rest >>= fun r => pure (r.1, info.lenStored.toNat + r.2)) t := by
  rw [dropChunks, get_bind, removed]
  dsimp only
  rw [loose]
  rfl

end Dropped

/-- Remove chunks that have had no reference for `grace` seconds. -/
def gc (grace : Nat) : M GlobalStore (Nat × Nat) := do
  let now ← nowEpoch
  let s ← get
  let gone := (s.chunksIter.filter fun e => doomed now grace e.2).map Prod.fst
  let (touched, bytes) ← dropChunks gone
  let seed ← op .seed
  let s ← get
  let live := s.livePackSet
  forEach (env.setOrder seed touched.dedup) fun pack =>
    if pack ∈ live then pure () else quarantinePack pack
  quarantineOrphanPacks grace
  let swept ← sweepQuarantine grace
  let _ ← sweepDeadRecordPacks
  saveIndex env
  return (gone.length, bytes + swept)

end Collect

section Calls

def setPreferredPackSize (bytes : Nat) : M GlobalStore Unit :=
  modify fun s => { s with preferredPackSize := max bytes 1 }

def setJournalBudget (bytes : Nat) : M GlobalStore Unit :=
  modify fun s => { s with journalBudget := some bytes }

/-- The calls a caller makes on a handle. -/
inductive Call where
  | putChunk (hash : ChunkHash) (stored : Bytes) (flags lenRaw : UInt32)
  | flushPacks
  | publish (record : AssetRecord)
  | unpublish (name : String)
  | gc (grace : Nat)
  | beginBatch
  | commitBatch
  | setPreferredPackSize (bytes : Nat)
  | setJournalBudget (bytes : Nat)

def Call.run : Call → M GlobalStore Unit
  | .putChunk hash stored flags lenRaw => do
      let _ ← Cavs.putChunk env hash stored flags lenRaw
  | .flushPacks => Cavs.flushPacks env
  | .publish record => publishAsset env record
  | .unpublish name => do
      let _ ← unpublishAsset env name
  | .gc grace => do
      let _ ← Cavs.gc env grace
  | .beginBatch => beginPublishBatch
  | .commitBatch => commitPublishBatch env
  | .setPreferredPackSize bytes => Cavs.setPreferredPackSize bytes
  | .setJournalBudget bytes => Cavs.setJournalBudget bytes

end Calls
end Cavs
