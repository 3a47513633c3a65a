import Cavs.JournalReplay
import Cavs.Snapshot
import Cavs.Store

/-!
# Saving the ledger

A save on the monolithic ledger appends a journal record of what it touched, or
writes the whole ledger as a fresh snapshot when the journal has outgrown it.
Asset records ride inline in the journal or go into a record pack first.
-/
namespace Cavs
open FileProg (Bytes IoError)
open FileProg.Eff (op orThrow ofExcept attempt throw get modify)
open ByteScan
open Std (ExtTreeMap ExtTreeSet)

section Records
variable {S : Type}

/-- Where each of the records lands when they are laid out from `pos` on. -/
def recordSpans (pack : ChunkHash) : (pos : Nat) → List (String × Bytes) → List (String × RecordRef)
  | _, [] => []
  | pos, (name, json) :: rest =>
      (name, .pack pack (pos % 2 ^ 32) (json.length % 2 ^ 32)) ::
        recordSpans pack (pos + json.length) rest

/-- Write one record pack holding `records` back to back, named by its bytes. -/
def writeRecordPack (records : List (String × Bytes)) : M S (List (String × RecordRef)) := do
  let bytes := records.flatMap Prod.snd
  let pack ← op (.digest bytes)
  let known ← op (.present (.recordPack pack))
  (if known then pure () else do
    orThrow .io (← op (.write (.recordPackTmp pack) bytes))
    orThrow .io (← op (.sync (.recordPackTmp pack)))
    orThrow .io (← op (.rename (.recordPackTmp pack) (.recordPack pack))))
  return recordSpans pack 0 records

def journalPath : JournalFile → Path
  | .live => .indexLog
  | .prev => .indexLogPrev

def RecordRef.path : RecordRef → Path
  | .pack hash _ _ => .recordPack hash
  | .journal file _ _ => journalPath file

def RecordRef.offset : RecordRef → Nat
  | .pack _ offset _ => offset
  | .journal _ offset _ => offset

def RecordRef.len : RecordRef → Nat
  | .pack _ _ len => len
  | .journal _ _ len => len

/-- Exactly `len` bytes from `offset` on, when the file has them. -/
def sliceExact (file : Bytes) (offset len : Nat) : Except StoreError Bytes :=
  let slice := (file.drop offset).take len
  if slice.length = len then .ok slice else .error (.io .other)

def readRecordAt (name : String) (ref : RecordRef) : M S Bytes := do
  let file ← orThrow (fun _ => .assetNotFound name) (← op (.read ref.path))
  ofExcept (sliceExact file ref.offset ref.len)

/-- An asset's record as stored: staged, where the ledger says, or in its flat file. -/
def assetRecordBytes (name : String) : M GlobalStore Bytes := do
  let s ← get
  match s.pendingRecords[name]?, s.index.records[name]? with
  | some bytes, _ => return bytes
  | none, some ref => readRecordAt name ref
  | none, none => orThrow (fun _ => .assetNotFound name) (← op (.read (.flatRecord name)))

def insertRecords (refs : List (String × RecordRef)) (s : GlobalStore) : GlobalStore :=
  { s with index := { s.index with
      records := refs.foldl (fun records r => records.insert r.1 r.2) s.index.records } }

def eraseRecords (names : List String) (s : GlobalStore) : GlobalStore :=
  { s with index := { s.index with records := names.foldl (fun records n => records.erase n) s.index.records } }

/-- The records that live in a journal: those that can be read with their bytes, and
the names of those that cannot. -/
def stageInline : List (String × RecordRef) → M S (List (String × Bytes) × List String)
  | [] => pure ([], [])
  | (name, ref) :: rest => match ref with
    | .pack .. => stageInline rest
    | .journal .. => do
        let bytes ← attempt (readRecordAt name ref)
        let (staged, unreadable) ← stageInline rest
        match bytes with
        | .ok bytes => return ((name, bytes) :: staged, unreadable)
        | .error _ => return (staged, name :: unreadable)

/-- Give every record without a pack a place in one, so that a snapshot names only packs. -/
def moveRecordsIntoAPack : M GlobalStore Unit := do
  let s ← get
  let (inline, unreadable) ← stageInline s.index.records.toList
  modify (eraseRecords unreadable)
  modify fun s => { s with pendingRecords := ∅ }
  let staged := inline ++ s.pendingRecords.toList
  (if staged = [] then pure () else do
    let refs ← writeRecordPack staged
    modify (insertRecords refs))

end Records

section Save
variable (env : Env)

/-- Append one sealed record to `index.log`; the file is made by the first append. -/
def appendJournal (record : Bytes) : M GlobalStore Unit := do
  let s ← get
  orThrow .io (← op (.append .indexLog []))
  let written ← op (.append .indexLog record)
  let synced ← (match written with
    | .ok () => op (.sync .indexLog)
    | .error e => pure (.error e))
  match synced with
  | .ok () => pure ()
  | .error e => do
      -- A partial record would stop every later replay here: cut it off.
      let _ ← op (.setLen .indexLog s.journalBytes)
      throw (.io e)

/-- Write the whole ledger as a fresh `index.bin`, keeping the outgoing snapshot and
the journal it supersedes as `.prev`. -/
def writeSnapshot : M GlobalStore Unit := do
  moveRecordsIntoAPack
  let s ← get
  let now ← nowEpoch
  let encoded := encodeIndex env s.index now
  orThrow .io (← op (.write .indexBinTmp encoded))
  orThrow .io (← op (.sync .indexBinTmp))
  let back ← orThrow .io (← op (.read .indexBinTmp))
  (if indexSealHolds env back then pure () else do
    let _ ← op (.remove .indexBinTmp)
    throw (corrupt "snapshot read back from disk does not match what was written"))
  let known ← op (.present .indexBin)
  (if known then do orThrow .io (← op (.rename .indexBin .indexBinPrev)) else pure ())
  orThrow .io (← op (.rename .indexBinTmp .indexBin))
  let journal ← op (.present .indexLog)
  (if journal then do orThrow .io (← op (.rename .indexLog .indexLogPrev)) else do
    let _ ← op (.remove .indexLogPrev))
  let _ ← op (.remove .indexJson)
  modify fun s => { s with snapshotBytes := encoded.length, journalBytes := 0 }

def GlobalStore.currentJournalBudget (s : GlobalStore) : Nat :=
  s.journalBudget.getD (max s.snapshotBytes journalMinBytes)

def pendingBytes (s : GlobalStore) : Nat :=
  (s.pendingRecords.toList.map fun r => r.2.length).sum

/-- A large publish gets a record pack of its own and the journal only names it. -/
def packLargeRecords : M GlobalStore Unit := do
  let s ← get
  (if pendingBytes s > inlineRecordsMax then do
    modify fun s => { s with pendingRecords := ∅ }
    let refs ← writeRecordPack s.pendingRecords.toList
    modify (insertRecords refs)
  else pure ())

def inlineRefs (start : Nat) (inline : List (String × Nat × Nat)) : List (String × RecordRef) :=
  inline.map fun r => (r.1, .journal .live (start + r.2.1) r.2.2)

/-- What a save that appended its record leaves in memory. -/
def journalSaved (generation len : Nat) (inline : List (String × Nat × Nat)) (s : GlobalStore) :
    GlobalStore :=
  let t := insertRecords (inlineRefs s.journalBytes inline) s
  { t with
    index := { t.index with generation }
    pendingRecords := ∅
    journalBytes := s.journalBytes + len }

def snapshotSave (generation : Nat) : M GlobalStore Unit := do
  modify fun s => { s with index := { s.index with generation } }
  writeSnapshot env

/-- A save on the monolithic ledger. The dirty sets are taken first; only a failed
append puts them back. -/
def saveMonolithic : M GlobalStore Unit := do
  let s ← get
  let generation := s.index.generation + 1
  modify fun s => { s with dirtyChunks := ∅, dirtyAssets := ∅ }
  (if s.snapshotBytes > 0 then do
    packLargeRecords
    let t ← get
    let (record, inline) := encodeJournalRecord env t.index generation s.dirtyChunks s.dirtyAssets
      t.pendingRecords
    (if t.journalBytes + record.length ≤ t.currentJournalBudget then do
      match ← attempt (appendJournal record) with
      | .error e => do
          modify fun t => { t with dirtyChunks := s.dirtyChunks, dirtyAssets := s.dirtyAssets }
          throw e
      | .ok () => modify (journalSaved generation record.length inline)
    else snapshotSave env generation)
  else snapshotSave env generation)

/-- Run a method of the segmented index on the one the store holds. -/
def onSegIndex {α : Type} (m : M SegIndex α) (seg : SegState) : M GlobalStore α := fun s =>
  m seg.index >>= fun r => .ret (r.1, { s with seg := s.seg.map fun g => { g with index := r.2 } })

/-- Persist the ledger. The mark says that a save of this handle begins. -/
def saveIndex : M GlobalStore Unit := do
  let s ← get
  op (.mark s)
  (if s.readOnly then throw .readOnly else
    match s.seg with
    | some seg => do
        modify fun s => { s with seg := some { seg with overlay := ∅ } }
        onSegIndex (SegIndex.commitGeneration env seg.overlay s.index.assets) seg
        modify fun s => match s.seg with
          | some seg => { s with index := { s.index with generation := seg.index.generation } }
          | none => s
    | none => saveMonolithic env)

end Save
end Cavs
