import Cavs.Packfile
import Cavs.SegIndex

/-!
# The store's chunk table and chunks

Lookups and edits of the ledger through the one seam between its two
representations, then the chunks themselves: stored loose or in the open pack,
and read back by what the ledger says.
-/
namespace Cavs
open FileProg (Bytes IoError)
open FileProg.Eff (op orThrow throw get modify forEach)
open Std (ExtTreeMap ExtTreeSet)

section Table

/-- An overlay entry in the merged view: a tombstone is nothing. -/
def liveEntry (e : String × Option ChunkInfo) : Option (String × ChunkInfo) :=
  e.2.map fun info => (e.1, info)

/-- One round of the merge, with `rest` the merge after the base entry `b`. -/
def mergeStep (b : String × ChunkInfo) (bs : List (String × ChunkInfo))
    (rest : List (String × Option ChunkInfo) → List (String × ChunkInfo)) :
    List (String × Option ChunkInfo) → List (String × ChunkInfo)
  | [] => b :: bs
  | o :: os => match compare b.1 o.1 with
    | .lt => b :: rest (o :: os)
    | .gt => (liveEntry o).toList ++ mergeStep b bs rest os
    | .eq => (liveEntry o).toList ++ rest os

/-- Sorted merge of the live view with the uncommitted overlay, which shadows it. -/
def overlayMerge : List (String × ChunkInfo) → List (String × Option ChunkInfo) →
    List (String × ChunkInfo)
  | [], overlay => overlay.filterMap liveEntry
  | b :: bs, overlay => mergeStep b bs (overlayMerge bs) overlay

namespace GlobalStore

def chunkGet (s : GlobalStore) (hex : String) : Option ChunkInfo :=
  match s.seg with
  | some seg => match seg.overlay[hex]? with
    | some entry => entry
    | none => seg.index.lookup hex
  | none => s.index.chunks[hex]?

def chunkContains (s : GlobalStore) (hex : String) : Bool :=
  match s.seg with
  | some seg => match seg.overlay[hex]? with
    | some entry => entry.isSome
    | none => (seg.index.lookup hex).isSome
  | none => s.index.chunks.contains hex

def shadow (s : GlobalStore) (seg : SegState) (hex : String) (entry : Option ChunkInfo) : GlobalStore :=
  { s with seg := some { seg with overlay := seg.overlay.insert hex entry } }

def chunkInsert (s : GlobalStore) (hex : String) (info : ChunkInfo) : GlobalStore :=
  match s.seg with
  | some seg => s.shadow seg hex (some info)
  | none => { s with
      dirtyChunks := s.dirtyChunks.insert hex
      index := { s.index with chunks := s.index.chunks.insert hex info } }

def chunkRemove (s : GlobalStore) (hex : String) : Option ChunkInfo × GlobalStore :=
  match s.seg with
  | some seg => match s.chunkGet hex with
    | some old => (some old, s.shadow seg hex none)
    | none => (none, s)
  | none => match s.index.chunks[hex]? with
    | some old => (some old, { s with
        dirtyChunks := s.dirtyChunks.insert hex
        index := { s.index with chunks := s.index.chunks.erase hex } })
    | none => (none, s)

/-- Read-modify-write one entry; one that is not there is left alone. -/
def chunkUpdate (s : GlobalStore) (hex : String) (f : ChunkInfo → ChunkInfo) : GlobalStore :=
  match s.seg with
  | some seg => match s.chunkGet hex with
    | some info => s.shadow seg hex (some (f info))
    | none => s
  | none => match s.index.chunks[hex]? with
    | some info => { s with
        dirtyChunks := s.dirtyChunks.insert hex
        index := { s.index with chunks := s.index.chunks.insert hex (f info) } }
    | none => s

/-- Every live ledger entry, sorted by hex. -/
def chunksIter (s : GlobalStore) : List (String × ChunkInfo) :=
  match s.seg with
  | some seg => overlayMerge seg.index.iterLive seg.overlay.toList
  | none => s.index.chunks.toList

/-- The pack ids any live chunk names. -/
def livePackSet (s : GlobalStore) : List String := s.chunksIter.filterMap fun e => e.2.pack

end GlobalStore

end Table

section Chunks
variable (env : Env)

/-- Seconds since the epoch, from a clock that counts nanoseconds. -/
def nowEpoch {S : Type} : M S Nat := do return (← op .now) / 10 ^ 9

/-- The entry of a chunk just put: no reference yet, no pack yet. -/
def freshInfo (stored : Bytes) (flags lenRaw : UInt32) : ChunkInfo where
  lenRaw
  lenStored := UInt32.ofNat stored.length
  flags
  refcount := 0
  zeroSince := some 0
  pack := none
  packOffset := none

def placeAt (pack : String) (offset : Nat) (info : ChunkInfo) : ChunkInfo :=
  { info with pack := some pack, packOffset := some offset }

/-- The ledger entry of a sealed chunk, made anew when there is none. -/
def resolveEntry (pack : String) (s : GlobalStore) (e : PackEntry) : GlobalStore :=
  let hex := toHex e.hash
  if s.chunkContains hex then s.chunkUpdate hex (placeAt pack e.offset)
  else s.chunkInsert hex ⟨e.rawLen, e.storedLen, e.flags, 0, some 0, some pack, some e.offset⟩

/-- Close the open pack, resolving the ledger locations of every chunk it holds. -/
def flushPacks : M GlobalStore Unit := do
  let s ← get
  match s.openPack with
  | none => pure ()
  | some writer => do
      modify fun s => { s with openPack := none }
      (if writer.isEmpty then writer.abort else do
        let (pack, entries) ← writer.finish env
        modify fun s => entries.foldl (resolveEntry pack) s)

def newWriter : M GlobalStore PackWriter := do
  let s ← get
  modify fun s => { s with nextWriter := s.nextWriter + 1 }
  PackWriter.create s.nextWriter

/-- Store a chunk; `false` when the ledger already has it. -/
def putChunk (hash : ChunkHash) (stored : Bytes) (flags lenRaw : UInt32) : M GlobalStore Bool := do
  let s ← get
  let hex := toHex hash
  if s.chunkContains hex then return false else
  match s.index.layout with
  | .loose => do
      orThrow .io (← op (.write (.chunkTmp hex) stored))
      orThrow .io (← op (.rename (.chunkTmp hex) (.chunk hex)))
      modify fun s => s.chunkInsert hex (freshInfo stored flags lenRaw)
      return true
  | .packfiles => do
      let writer ← (match s.openPack with
        | some writer => pure writer
        | none => newWriter)
      modify fun s => { s with openPack := some writer }
      let writer ← writer.append hash stored lenRaw flags
      -- The entry comes before its place, which the flush fills in.
      modify fun s => { s with openPack := some writer }.chunkInsert hex (freshInfo stored flags lenRaw)
      (if writer.dataLen ≥ s.preferredPackSize then flushPacks env else pure ())
      return true

end Chunks
end Cavs
