import Cavs.Entries
import Cavs.Outcome

/-!
# Offline plans

A plan says how to make the new build out of the old one: ranges to copy and fresh bytes
to insert, one entry of the new build after another. A plan that was decoded has been
validated.
-/
namespace Cavs
open FileProg (Bytes IoError)
open ByteScan

def planMagic : Bytes := [67, 65, 86, 83, 80, 76, 78, 49]
def planVersion : Nat := 1
def maxEntries : Nat := 2 ^ 24
def maxOps : Nat := 2 ^ 28
def maxBlobRaw : Nat := 16 * 2 ^ 30

inductive PlanError where
  | badMagic
  | unsupportedVersion (version : Nat)
  | truncated (what : String)
  | malformed (what : String)
  | integrityMismatch
  | invalid (what : String)
  | pathTraversal (path : String)
  | notPortable
  | applyHashMismatch (path : String)
  | io (e : IoError)
  deriving DecidableEq, Repr

inductive PlanKind where
  | analysis
  | portable
  deriving DecidableEq, Repr

def PlanKind.fromU8 : Nat → Option PlanKind
  | 1 => some .analysis
  | 2 => some .portable
  | _ => none

inductive PlanMode where
  | artifact
  | directory
  deriving DecidableEq, Repr

def PlanMode.fromU8 : Nat → Option PlanMode
  | 1 => some .artifact
  | 2 => some .directory
  | _ => none

inductive EntryKind where
  | file
  | directory
  | symlink
  deriving DecidableEq, Repr

def EntryKind.fromU8 : Nat → Option EntryKind
  | 1 => some .file
  | 2 => some .directory
  | 3 => some .symlink
  | _ => none

/-- An old-build entry a copy can read from. -/
structure OldEntry where
  entryId : UInt32
  path : String
  size : UInt64
  deriving DecidableEq, Repr

/-- One entry of the new build; a file carries the hash of its bytes. -/
structure PlanEntry where
  entryId : UInt32
  path : String
  kind : EntryKind
  size : UInt64
  executable : Bool
  symlinkTarget : Option String
  blake3 : Option ChunkHash
  deriving DecidableEq, Repr

inductive PlanOp where
  | copyOld (oldEntryId : UInt32) (oldOffset : UInt64) (newEntryId : UInt32) (newOffset len : UInt64)
  | inlined (newEntryId : UInt32) (newOffset len blobOffset : UInt64)
  deriving DecidableEq, Repr

namespace PlanOp

def newEntryId : PlanOp → UInt32
  | .copyOld _ _ id _ _ => id
  | .inlined id _ _ _ => id

def newOffset : PlanOp → UInt64
  | .copyOld _ _ _ offset _ => offset
  | .inlined _ offset _ _ => offset

def len : PlanOp → UInt64
  | .copyOld _ _ _ _ len => len
  | .inlined _ _ len _ => len

/-- The checked bound of an inline range; a copy reads nothing from the blob. -/
def inBlob (blob : Bytes) : PlanOp → Prop
  | .copyOld .. => True
  | .inlined _ _ len blobOffset =>
      blobOffset.toNat + len.toNat < 2 ^ 64 ∧ blobOffset.toNat + len.toNat ≤ blob.length

instance (blob : Bytes) (op : PlanOp) : Decidable (op.inBlob blob) := by
  cases op <;> unfold inBlob <;> infer_instance

end PlanOp

structure OfflinePlan where
  kind : PlanKind
  mode : PlanMode
  blockSize : UInt32
  oldLabel : String
  oldSize : UInt64
  oldBlake3 : Option ChunkHash
  newLabel : String
  newSize : UInt64
  oldEntries : List OldEntry
  newEntries : List PlanEntry
  deleted : List String
  ops : List PlanOp
  blob : Bytes
  deriving DecidableEq, Repr

/-- Relative, with forward slashes, and no empty, `.` or `..` component. -/
def pathIsSafe (p : String) : Bool :=
  let chars := p.toList
  !chars.isEmpty && chars.head? != some '/' && !chars.contains '\\' && !chars.contains ':' &&
    !chars.contains (Char.ofNat 0) &&
    (chars.splitOn '/').all fun c => c != [] && c != ['.'] && c != ['.', '.']

section Decode

abbrev PlanScan := Scan PlanError Unit

/-- Byte `i` of a varint and the bytes after it; at most `left` more may follow. -/
def readVarFrom : (left i value : Nat) → PlanScan Nat
  | left, i, value => do
      let byte := ofLe (← Scan.take (.truncated "varint") 1)
      if byte = 0 ∧ i ≠ 0 then Scan.throw (.malformed "overlong varint")
      else if i = 9 ∧ byte > 1 then Scan.throw (.malformed "varint overflow")
      else
        let value := value + byte % 128 * 128 ^ i
        if byte < 128 then return value
        else match left with
          | 0 => Scan.throw (.malformed "overlong varint")
          | left + 1 => readVarFrom left (i + 1) value

def readVar : PlanScan Nat := readVarFrom 9 0 0

def readU64 : PlanScan UInt64 := do return UInt64.ofNat (← readVar)

def readId32 (what : String) : PlanScan UInt32 := do
  let id ← readVar
  if id > 2 ^ 32 - 1 then Scan.throw (.malformed what) else return UInt32.ofNat id

def readStr : PlanScan String := do
  let len ← readVar
  let left ← Scan.remaining
  if len > left ∨ len > 2 ^ 16 then Scan.throw (.truncated "string")
  else do
    let bytes ← Scan.take (.truncated "string") len
    Scan.ofOption (.malformed "string not UTF-8") (utf8 bytes)

def readByte (what : String) : PlanScan Nat := Scan.num (.truncated what) 1

def readOptionalHash (flag what : String) : PlanScan (Option ChunkHash) := do
  match ← readByte flag with
  | 0 => return none
  | 1 => return hashOf (← Scan.take (.truncated what) 32)
  | _ => Scan.throw (.malformed flag)

/-- A count that is refused before anything is allocated for it. -/
def readCount (max : Nat) (what : String) : PlanScan Nat := do
  let count ← readVar
  if count > max then Scan.throw (.malformed what) else return count

def readOldEntry : PlanScan OldEntry := do
  let entryId ← readId32 "old entry id out of range"
  let path ← readStr
  return ⟨entryId, path, ← readU64⟩

def readFlag (what : String) : PlanScan Bool := do
  match ← readByte what with
  | 0 => return false
  | 1 => return true
  | _ => Scan.throw (.malformed what)

def readNewEntry : PlanScan PlanEntry := do
  let entryId ← readId32 "new entry id out of range"
  let path ← readStr
  let kind ← Scan.ofOption (.malformed "unknown entry kind") (EntryKind.fromU8 (← readByte "entry kind"))
  let size ← readU64
  let executable ← readFlag "exec flag"
  let target ← readStr
  let blake3 ← readOptionalHash "entry hash flag" "entry hash"
  return ⟨entryId, path, kind, size, executable, if target = "" then none else some target, blake3⟩

/-- The numbers of an operation are read before its ids are checked. -/
def readOp : PlanScan PlanOp := do
  match ← readByte "op tag" with
  | 1 => do
      let old ← readVar
      let oldOffset ← readU64
      let new ← readVar
      let newOffset ← readU64
      let len ← readU64
      if old > 2 ^ 32 - 1 ∨ new > 2 ^ 32 - 1 then Scan.throw (.malformed "op entry id out of range")
      else return .copyOld (UInt32.ofNat old) oldOffset (UInt32.ofNat new) newOffset len
  | 2 => do
      let new ← readVar
      let newOffset ← readU64
      let len ← readU64
      let blobOffset ← readU64
      if new > 2 ^ 32 - 1 then Scan.throw (.malformed "op entry id out of range")
      else return .inlined (UInt32.ofNat new) newOffset len blobOffset
  | _ => Scan.throw (.malformed "unknown op tag")

variable (env : Env)

def decodeBlob (rawLen : Nat) (comp : Bytes) : Except PlanError Bytes :=
  if rawLen = 0 then .ok []
  else match env.decompress rawLen comp with
    | .error _ => .error (.malformed "blob does not decompress")
    | .ok raw => if raw.length ≠ rawLen then .error (.malformed "blob length mismatch") else .ok raw

def throwExcept {α : Type} : Except PlanError α → PlanScan α
  | .ok a => pure a
  | .error e => Scan.throw e

/-- Everything between the magic and the trailer. -/
def readPlan : PlanScan OfflinePlan := do
  let version ← Scan.num (.truncated "version") 2
  (if version ≠ planVersion then Scan.throw (.unsupportedVersion version) else pure ())
  let kind ← Scan.ofOption (.malformed "unknown plan kind") (PlanKind.fromU8 (← readByte "kind"))
  let mode ← Scan.ofOption (.malformed "unknown plan mode") (PlanMode.fromU8 (← readByte "mode"))
  let blockSize ← readId32 "block size out of range"
  let oldLabel ← readStr
  let oldSize ← readU64
  let oldBlake3 ← readOptionalHash "old hash flag" "old hash"
  let newLabel ← readStr
  let newSize ← readU64
  let oldEntries ← Scan.collect (← readCount maxEntries "old entry count too large") readOldEntry
  let newEntries ← Scan.collect (← readCount maxEntries "new entry count too large") readNewEntry
  let deleted ← Scan.collect (← readCount maxEntries "deleted count too large") readStr
  let ops ← Scan.collect (← readCount maxOps "op count too large") readOp
  let rawLen ← readCount maxBlobRaw "blob too large"
  let comp ← Scan.take (.truncated "blob") (← readVar)
  (if (← Scan.remaining) ≠ 0 then Scan.throw (.malformed "trailing bytes") else pure ())
  let blob ← throwExcept (decodeBlob env rawLen comp)
  return {
    kind, mode, blockSize, oldLabel, oldSize, oldBlake3, newLabel, newSize, oldEntries, newEntries,
    deleted, ops, blob }

end Decode

section Validate

def checkOldEntries (mode : PlanMode) : (seen : List UInt32) → List OldEntry → Except PlanError Unit
  | _, [] => .ok ()
  | seen, e :: rest =>
      if e.entryId ∈ seen then .error (.invalid s!"duplicate old entry id {e.entryId}")
      else if mode = .directory ∧ pathIsSafe e.path = false then .error (.pathTraversal e.path)
      else checkOldEntries mode (e.entryId :: seen) rest

def checkNewEntries (mode : PlanMode) : (seen : List UInt32) → List PlanEntry → Except PlanError Unit
  | _, [] => .ok ()
  | seen, e :: rest =>
      if e.entryId ∈ seen then .error (.invalid s!"duplicate new entry id {e.entryId}")
      else if mode = .directory ∧ pathIsSafe e.path = false then .error (.pathTraversal e.path)
      else if e.kind = .file ∧ e.blake3 = none then
        .error (.invalid s!"file entry {e.path} has no content hash")
      else checkNewEntries mode (e.entryId :: seen) rest

def checkDeleted (paths : List String) : Except PlanError Unit :=
  match paths.find? fun p => pathIsSafe p = false with
  | some p => .error (.pathTraversal p)
  | none => .ok ()

/-- How far the operations of each entry have come. -/
abbrev OpCursor := UInt32 → UInt64

namespace OfflinePlan
variable (plan : OfflinePlan)

def entry? (id : UInt32) : Option PlanEntry := plan.newEntries.find? fun e => e.entryId = id

def checkSource : PlanOp → Except PlanError Unit
  | .copyOld old .. =>
      if old ∈ plan.oldEntries.map OldEntry.entryId then .ok ()
      else .error (.invalid s!"op references unknown old entry {old}")
  | .inlined id offset len blobOffset =>
      if plan.kind = .portable ∧ ¬ (PlanOp.inlined id offset len blobOffset).inBlob plan.blob then
        .error (.invalid "inline op reads past the blob")
      else .ok ()

/-- The sum of offset and length is taken without a check. -/
def checkOp (cursor : OpCursor) (op : PlanOp) : Except PlanError OpCursor := do
  plan.checkSource op
  match plan.entry? op.newEntryId with
  | none => .error (.invalid s!"op references unknown new entry {op.newEntryId}")
  | some entry =>
      let pos := cursor op.newEntryId
      if op.newOffset ≠ pos then
        .error (.invalid s!"gap/overlap in {entry.path} at offset {pos} (op starts at {op.newOffset})")
      else if pos + op.len > entry.size then
        .error (.invalid s!"ops overflow {entry.path} ({pos + op.len} of {entry.size} bytes)")
      else .ok fun id => if id = op.newEntryId then pos + op.len else cursor id

def checkOps : OpCursor → List PlanOp → Except PlanError OpCursor
  | cursor, [] => .ok cursor
  | cursor, op :: rest => do checkOps (← plan.checkOp cursor op) rest

def checkCovered (cursor : OpCursor) : Except PlanError Unit :=
  match plan.newEntries.find? fun e => e.kind = .file ∧ cursor e.entryId ≠ e.size with
  | some e => .error (.invalid s!"ops cover {cursor e.entryId} of {e.size} bytes of {e.path}")
  | none => .ok ()

/-- Structural validation: safe paths, known entry ids, tiling, blob coverage. -/
def validate : Except PlanError Unit := do
  checkOldEntries plan.mode [] plan.oldEntries
  checkNewEntries plan.mode [] plan.newEntries
  checkDeleted plan.deleted
  plan.checkCovered (← plan.checkOps (fun _ => 0) plan.ops)

def decode (env : Env) (bytes : Bytes) : Except PlanError OfflinePlan :=
  if bytes.length < planMagic.length + 2 + 32 then .error (.truncated "header")
  else if bytes.take 8 ≠ planMagic then .error .badMagic
  else
    let body := bytes.take (bytes.length - 32)
    if (env.hashChunk body).1 ≠ bytes.drop (bytes.length - 32) then .error .integrityMismatch
    else match (readPlan env () ⟨8, body.drop 8⟩).1 with
      | .error e => .error e
      | .ok (plan, _) => do
          plan.validate
          return plan

end OfflinePlan

end Validate

section Summary

structure PlanSummary where
  opsTotal : UInt64
  copyOps : UInt64
  inlineOps : UInt64
  reusedBytes : UInt64
  inlineBytes : UInt64
  files : UInt64
  dirs : UInt64
  symlinks : UInt64
  deleted : UInt64
  unchangedFiles : UInt64
  deriving DecidableEq, Repr

def summarizeOp (acc : PlanSummary × OpCursor) : PlanOp → PlanSummary × OpCursor
  | .copyOld _ _ id _ len => ({ acc.1 with
      copyOps := acc.1.copyOps + 1
      reusedBytes := acc.1.reusedBytes + len }, fun other => if other = id then acc.2 id + len else acc.2 other)
  | .inlined _ _ len _ => ({ acc.1 with
      inlineOps := acc.1.inlineOps + 1
      inlineBytes := acc.1.inlineBytes + len }, acc.2)

def summarizeEntry (copied : OpCursor) (s : PlanSummary) (e : PlanEntry) : PlanSummary :=
  match e.kind with
  | .file => { s with
      files := s.files + 1
      unchangedFiles := if copied e.entryId = e.size ∧ e.size > 0 then s.unchangedFiles + 1 else s.unchangedFiles }
  | .directory => { s with dirs := s.dirs + 1 }
  | .symlink => { s with symlinks := s.symlinks + 1 }

/-- Derived numbers for reports; the sums wrap. -/
def OfflinePlan.summary (plan : OfflinePlan) : PlanSummary :=
  let start : PlanSummary :=
    ⟨UInt64.ofNat plan.ops.length, 0, 0, 0, 0, 0, 0, 0, UInt64.ofNat plan.deleted.length, 0⟩
  let (s, copied) := plan.ops.foldl summarizeOp (start, fun _ => 0)
  plan.newEntries.foldl (summarizeEntry copied) s

def ensurePortable (plan : OfflinePlan) : Except PlanError Unit :=
  if plan.kind ≠ .portable ∧ plan.summary.inlineBytes > 0 then .error .notPortable else .ok ()

end Summary

section Execute

def readChunk8 : Nat := 8 * 1024 * 1024

/-- What a copy reads from: a read fills its buffer or fails. -/
structure OldSource where
  readRange : (id : UInt32) → (offset : UInt64) → (n : Nat) → Except PlanError { b : Bytes // b.length = n }

/-- A copy in bounded reads, from `done` bytes on; the offset of a read wraps. -/
def copyRange (old : OldSource) (id : UInt32) (offset : UInt64) (len done : Nat) : Outcome PlanError Bytes :=
  if done < len then do
    let n := min (len - done) readChunk8
    let buf ← Outcome.ofExcept (old.readRange id (offset + UInt64.ofNat done) n)
    let rest ← copyRange old id offset len (done + n)
    return buf.1 ++ rest
  else return []
termination_by len - done
decreasing_by
  have : 0 < readChunk8 := by decide
  omega

/-- The range of the blob is taken without a check: one that does not fit ends the program. -/
def inlineRange (blob : Bytes) (blobOffset len : UInt64) : Outcome PlanError Bytes :=
  let stop := blobOffset + len
  if blobOffset ≤ stop ∧ stop.toNat ≤ blob.length then
    .ok ((blob.drop blobOffset.toNat).take (stop.toNat - blobOffset.toNat))
  else .panics

/-- The bytes of one entry, operation by operation. -/
def writeOps (blob : Bytes) (old : OldSource) (id : UInt32) : List PlanOp → Outcome PlanError Bytes
  | [] => return []
  | op :: rest =>
      if op.newEntryId = id then do
        let bytes ← (match op with
          | .copyOld oldId offset _ _ len => copyRange old oldId offset len.toNat 0
          | .inlined _ _ len blobOffset => inlineRange blob blobOffset len)
        return bytes ++ (← writeOps blob old id rest)
      else writeOps blob old id rest

def writeEntry (plan : OfflinePlan) (entry : PlanEntry) (old : OldSource) : Outcome PlanError Bytes :=
  writeOps plan.blob old entry.entryId plan.ops

end Execute
end Cavs
