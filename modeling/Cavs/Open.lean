import Cavs.Save

/-!
# Opening a store

Loading the ledger from whichever of its files can be read, replaying the
journal over it, and the repairs an ordinary open makes and a reader does not.
-/
namespace Cavs
open FileProg (Bytes IoError)
open FileProg.Eff (op orThrow ofExcept throw get modify forEach)
open Std (ExtTreeMap ExtTreeSet)

section Packs
variable {S : Type}

def Path.isPackPart : Path → Bool
  | .packPart _ => true
  | _ => false

def Path.isRecordPackTmp : Path → Bool
  | .recordPackTmp _ => true
  | _ => false

def Path.isQuarantined : Path → Bool
  | .quarantined _ => true
  | _ => false

def Path.quarantinedHex : Path → Option String
  | .quarantined hex => some hex
  | _ => none

/-- Remove the files of a directory walk, whatever comes of each. -/
def removeAll (l : List Path) : M S Unit := forEach l fun p => do
  let _ ← op (.remove p)

/-- Temp packs and half-staged record packs that a crash left. -/
def sweepPartPacks : M S Unit := do
  removeAll (← orThrow .io (← op (.list Path.isPackPart)))
  removeAll (← orThrow .io (← op (.list Path.isRecordPackTmp)))

def moveIfThere (src dst : Path) : M S Unit := do
  let there ← op (.present src)
  let taken ← op (.present dst)
  (if there && !taken then do orThrow .io (← op (.rename src dst)) else pure ())

/-- Move a quarantined pack back into the live tree. -/
def restorePackFromQuarantine (hex : String) : M S Unit := do
  moveIfThere (.quarantined hex) (.pack hex)
  moveIfThere (.quarantinedIndex hex) (.packIndex hex)
  let _ ← op (.remove (.quarantinedSince hex))

/-- Any quarantined pack the ledger still names goes back into the live tree. -/
def restoreQuarantinedPacks (live : List String) : M S Unit := do
  let quarantined ← orThrow .io (← op (.list Path.isQuarantined))
  forEach (quarantined.filterMap Path.quarantinedHex) fun hex =>
    if hex ∈ live then restorePackFromQuarantine hex else pure ()

end Packs

section Open
variable {S : Type} (env : Env)

/-- The previous snapshot, or the ledger of a store from before snapshots. -/
def loadFallback (current : Option StoreError) : M S (Option (Index × LedgerSource)) := do
  let prev ← op (.present .indexBinPrev)
  if prev then do
    let bytes ← orThrow .io (← op (.read .indexBinPrev))
    match decodeIndex env bytes with
    | .ok index => return some (index, .prev)
    | .error e => throw (current.getD e)
  else match current with
    | some e => throw e
    | none => do
        let json ← op (.present .indexJson)
        if json then do
          let bytes ← orThrow .io (← op (.read .indexJson))
          match env.indexFromJson bytes with
          | some index => return some (index, .json)
          | none => throw .json
        else return none

/-- Load the ledger, preferring the live snapshot. A snapshot older than the journal
has none. -/
def loadLedger : M S (Option (Index × LedgerSource)) := do
  let bin ← op (.present .indexBin)
  if bin then do
    let bytes ← orThrow .io (← op (.read .indexBin))
    match decodeIndexVersioned env bytes with
    | .ok (index, version) =>
        if version < 2 then return some (index, .legacy) else return some (index, .live bytes.length)
    | .error e => loadFallback env (some e)
  else loadFallback env none

/-- A record said to live in a journal is not to be believed without one. -/
def Index.packedOnly (index : Index) : Index :=
  { index with records := index.records.filter fun _ ref => (packedRef (some ref)).isSome }

def removeStrayJournals : M S Unit := do
  let _ ← op (.remove .indexLog)
  let _ ← op (.remove .indexLogPrev)

/-- The ledger of an open and the size of the snapshot it extends, before the live
journal is replayed over it. -/
def loadIndex (layout : Option StoreLayout) (readOnly : Bool) : M S (Index × Nat) := do
  match ← loadLedger env with
  | some (index, .live bytes) => return (index, bytes)
  | some (index, .prev) => do
      let (index, _) ← replayJournalFrom env index .indexLogPrev .prev 0
      let (index, _) ← replayJournalFrom env index .indexLog .live 0
      return (index, 0)
  | some (index, .legacy) | some (index, .json) => do
      (if readOnly then pure () else removeStrayJournals)
      return (index.packedOnly, 0)
  | none => do
      let index := Index.empty (layout.getD .loose)
      if readOnly then return (index, 0) else do
        removeStrayJournals
        let now ← nowEpoch
        let encoded := encodeIndex env index now
        orThrow .io (← op (.write .indexBinTmp encoded))
        orThrow .io (← op (.rename .indexBinTmp .indexBin))
        return (index, encoded.length)

/-- Replay the live journal over the live snapshot; a torn tail is cut off, but not by
a reader. Returns how much of the journal stands. -/
def replayLive (index : Index) (snapshotBytes : Nat) (readOnly : Bool) : M S (Index × Nat) :=
  if snapshotBytes > 0 then do
    let (index, scan) ← replayJournalFrom env index .indexLog .live 0
    (if scan.truncateTo < scan.fileLen ∧ readOnly = false then do
      orThrow .io (← op (.setLen .indexLog scan.truncateTo))
    else pure ())
    return (index, scan.truncateTo)
  else return (index, 0)

def handle (index : Index) (seg : Option SegState) (journalBytes snapshotBytes : Nat)
    (snapshotId : Option (Nat × Nat)) (readOnly : Bool) : GlobalStore where
  index
  seg
  openPack := none
  preferredPackSize := preferredPackSizeDefault
  batch := none
  dirtyChunks := ∅
  dirtyAssets := ∅
  journalBytes
  snapshotBytes
  journalBudget := none
  pendingRecords := ∅
  snapshotId
  readOnly
  nextWriter := 0

/-- An open with a layout other than the store's is an error. -/
def checkLayout (requested : Option StoreLayout) (store : StoreLayout) (exists_ : Bool) :
    Except StoreError Unit :=
  match requested with
  | some r => if r ≠ store ∧ exists_ = true then .error (.layoutMismatch store r) else .ok ()
  | none => .ok ()

/-- The end of an open: leftovers swept, and the packs the ledger names restored. -/
def finishOpen (store : GlobalStore) : M S GlobalStore := do
  (if store.readOnly then pure () else restoreQuarantinedPacks store.livePackSet)
  return store

def openSegmented (layout : Option StoreLayout) (readOnly : Bool) : M S GlobalStore := do
  let (seg, assets) ← SegIndex.open_ env
  ofExcept (checkLayout layout seg.layout true)
  (if readOnly then pure () else sweepPartPacks)
  finishOpen (handle ⟨∅, assets, ∅, seg.layout, seg.generation⟩ (some ⟨seg, ∅⟩) 0 0 none readOnly)

def openMonolithic (layout : Option StoreLayout) (readOnly : Bool) : M S GlobalStore := do
  (if readOnly then pure () else do
    let _ ← op (.remove .indexBinTmp))
  let (index, snapshotBytes) ← loadIndex env layout readOnly
  let (index, journalBytes) ← replayLive env index snapshotBytes readOnly
  let bin ← op (.present .indexBin)
  let json ← op (.present .indexJson)
  ofExcept (checkLayout layout index.layout (bin || json))
  (if readOnly then pure () else sweepPartPacks)
  let snapshotId ← op (.stat .indexBin)
  finishOpen (handle index none journalBytes snapshotBytes snapshotId readOnly)

def openInner (layout : Option StoreLayout) (readOnly : Bool) : M S GlobalStore := do
  let segmented ← op (.present .segCurrent)
  if segmented then openSegmented env layout readOnly else openMonolithic env layout readOnly

/-- Open a store; `layout` is that of a new one, and an error for one that has another. -/
def openWithLayout (layout : Option StoreLayout) : M S GlobalStore := openInner env layout false

end Open
end Cavs
