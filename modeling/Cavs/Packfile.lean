import Cavs.Entries

/-!
# Packfiles

Stored chunks appended into one file that is named by the hash of all of its
bytes when it is closed, with a sidecar index next to it.
-/
namespace Cavs
open FileProg (Bytes IoError)
open FileProg.Eff (op orThrow throw)
open ByteScan

def packMagic : Bytes := [67, 65, 86, 83, 80, 75, 49, 0]
def packFooterMagic : Bytes := [67, 65, 86, 83, 80, 69, 78, 68]
def packIndexMagic : Bytes := [67, 65, 86, 83, 73, 68, 88, 49]
def packHeaderLen : Nat := 16
def packFooterLen : Nat := 40
def preferredPackSizeDefault : Nat := 128 * 1024 * 1024

def packHeader : Bytes := packMagic ++ (le 2 1 ++ (le 2 0 ++ le 4 0))

def PackWriter.isEmpty (w : PackWriter) : Bool := w.entries.isEmpty

section Writer
variable {S : Type} (env : Env)

/-- Start a pack in the temp file with the next free number. -/
def PackWriter.create (part : Nat) : M S PackWriter := do
  orThrow .io (← op (.write (.packPart part) packHeader))
  return ⟨part, packHeader, 0, []⟩

/-- Append one stored chunk. A failed write leaves the writer as it was, whatever
reached the file. -/
def PackWriter.append (w : PackWriter) (hash : ChunkHash) (stored : Bytes) (rawLen flags : UInt32) :
    M S PackWriter := do
  orThrow .io (← op (.append (.packPart w.part) stored))
  return { w with
    hashed := w.hashed ++ stored
    dataLen := w.dataLen + stored.length
    entries := w.entries ++ [⟨hash, w.dataLen, UInt32.ofNat stored.length, rawLen, flags⟩] }

def packEntryBytes (e : PackEntry) : Bytes :=
  e.hash.1 ++ (le 8 e.offset ++ (le 4 e.storedLen.toNat ++ (le 4 e.rawLen.toNat ++
  le 4 e.flags.toNat)))

def packIndexBytes (packId : ChunkHash) (entries : List PackEntry) : Bytes :=
  let body := packIndexMagic ++ (packId.1 ++ (le 4 entries.length ++ entries.flatMap packEntryBytes))
  body ++ (env.hashChunk body).1

def writePackIndex (packId : ChunkHash) (entries : List PackEntry) : M S Unit := do
  orThrow .io (← op (.write (.packIndexTmp (toHex packId)) (packIndexBytes env packId entries)))
  orThrow .io (← op (.rename (.packIndexTmp (toHex packId)) (.packIndex (toHex packId))))

def packFooter (hashed : Bytes) : Bytes := packFooterMagic ++ (env.hashChunk hashed).1

/-- Close the pack: footer, content-addressed rename, sidecar index. -/
def PackWriter.finish (w : PackWriter) : M S (String × List PackEntry) := do
  orThrow .io (← op (.append (.packPart w.part) (packFooter env w.hashed)))
  orThrow .io (← op (.sync (.packPart w.part)))
  let bytes ← orThrow .io (← op (.read (.packPart w.part)))
  let packId ← op (.digest bytes)
  orThrow .io (← op (.rename (.packPart w.part) (.pack (toHex packId))))
  writePackIndex env packId w.entries
  return (toHex packId, w.entries)

def PackWriter.abort (w : PackWriter) : M S Unit := do
  let _ ← op (.remove (.packPart w.part))

end Writer

/-- A range of the data region of a pack file. The place of its start wraps as a machine word does. -/
def packRange (hex : String) (file : Bytes) (offset len : Nat) : Except StoreError Bytes :=
  let start := (packHeaderLen + offset) % 2 ^ 64
  if file.length < packHeaderLen + packFooterLen ∨ start > file.length - packFooterLen ∨
      len > file.length - packFooterLen - start then
    .error (.packCorrupt (hex ++ ".cavspack: range " ++ toString offset ++ "+" ++ toString len ++
      " outside data region"))
  else .ok ((file.drop start).take len)

end Cavs
