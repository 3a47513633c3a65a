import Cavs.BodyCursor
import Cavs.Store
import Cavs.Traced

/-!
# Reading many chunks at once

Chunks of one pack that lie near each other are read with one range of the pack file, from
which each is cut out. The calls are written over what each file reads as, with the operations
that can end the program, and leave the ranges they read as a trace.
-/
namespace Cavs
open FileProg (Bytes IoError)
open FileProg.Eff
open BodyCursor (slice)

section Files

/-- What each file reads as while a call runs. A length is a machine word. -/
structure FileView where
  read : Path → Except IoError Bytes
  short : ∀ p b, read p = .ok b → b.length < 2 ^ 64

/-- A chunk in its stored form, with its flags and raw length. -/
abbrev ChunkForm := Bytes × UInt32 × UInt32

variable (files : FileView)

def readFile (f : IoError → StoreError) (p : Path) : Outcome StoreError Bytes :=
  match files.read p with
  | .ok b => .ok b
  | .error e => .error (f e)

/-- The directory of a pack is named by the first two bytes of its id, which are sliced off. -/
def packPath (pack : String) : Outcome StoreError Path :=
  if 2 ≤ (strBytes pack).length ∧ (utf8 ((strBytes pack).take 2)).isSome then .ok (.pack pack) else .panics

def readPackRangeAt (pack : String) (path : Path) (offset len : Nat) : Outcome StoreError Bytes := do
  let file ← readFile files .io path
  .ofExcept (packRange pack file offset len)

def readChunkStoredAt (s : GlobalStore) (hash : ChunkHash) : Outcome StoreError ChunkForm :=
  let hex := toHex hash
  match s.chunkGet hex with
  | none => .error (.missingChunk hex)
  | some info => match info.pack, info.packOffset with
    | some pack, some offset => do
        let path ← packPath pack
        let bytes ← readPackRangeAt files pack path offset info.lenStored.toNat
        return (bytes, info.flags, info.lenRaw)
    | _, _ => do
        let bytes ← readFile files (fun _ => .missingChunk hex) (.chunk hex)
        return (bytes, info.flags, info.lenRaw)

end Files

section Batch

/-- A chunk of a pack that is asked for, with its place in the input. -/
structure Wanted where
  pos : Nat
  offset : Nat
  storedLen : UInt32
  flags : UInt32
  lenRaw : UInt32

structure CoalesceStats where
  packChunksRequested : Nat
  packRangesRead : Nat
  packBytesRead : Nat
  packBytesServed : Nat

abbrev ByPack := List (String × List Wanted)

/-- An order in which a hash map may be walked. -/
structure HashOrder where
  walk : ByPack → ByPack
  perm : ∀ l, (walk l).Perm l

/-- What is filled in so far, and the counters. -/
structure Batch where
  out : List (Option ChunkForm)
  stats : CoalesceStats

/-- A range of a pack, or the place of a chunk in one. -/
structure PackSpan where
  pack : String
  start : Nat
  stop : Nat

def GlobalStore.maxCoalesceGap : Nat := 64 * 1024
def GlobalStore.maxCoalescedRange : Nat := 8 * 1024 * 1024

variable (files : FileView) (s : GlobalStore)

def pushWanted (pack : String) (c : Wanted) : ByPack → ByPack
  | [] => [(pack, [c])]
  | (other, chunks) :: rest =>
      if other = pack then (other, chunks ++ [c]) :: rest else (other, chunks) :: pushWanted pack c rest

/-- The first pass: loose chunks are read, the others are put down with their pack. -/
def sortChunks : (pos : Nat) → List ChunkHash → List (Option ChunkForm) → ByPack →
    Outcome StoreError (List (Option ChunkForm) × ByPack)
  | _, [], out, byPack => .ok (out, byPack)
  | pos, hash :: rest, out, byPack =>
      let hex := toHex hash
      match s.chunkGet hex with
      | none => .error (.missingChunk hex)
      | some info => match info.pack, info.packOffset with
        | some pack, some offset =>
            sortChunks (pos + 1) rest out
              (pushWanted pack ⟨pos, offset, info.lenStored, info.flags, info.lenRaw⟩ byPack)
        | _, _ => do
            let bytes ← readFile files (fun _ => .missingChunk hex) (.chunk hex)
            sortChunks (pos + 1) rest (out.set pos (some (bytes, info.flags, info.lenRaw))) byPack

/-- How far a range that reaches `stop` grows over the chunks that follow, and over how many. -/
def growRange (start : Nat) : (stop : Nat) → List Wanted → Nat × Nat
  | stop, [] => (stop, 0)
  | stop, c :: rest =>
      let chunkEnd := wordAdd c.offset c.storedLen.toNat
      if c.offset - stop > GlobalStore.maxCoalesceGap ∨
          wordSub (max chunkEnd stop) start > GlobalStore.maxCoalescedRange then (stop, 0)
      else
        let grown := growRange start (max stop chunkEnd) rest
        (grown.1, grown.2 + 1)

/-- Cut the chunks of a range out of its bytes. -/
def serve (range : Bytes) (start : Nat) : List Wanted → Batch → Outcome StoreError Batch
  | [], b => .ok b
  | c :: rest, b => do
      let lo := wordSub c.offset start
      let bytes ← slice range lo (wordAdd lo c.storedLen.toNat)
      serve range start rest {
        out := b.out.set c.pos (some (bytes, c.flags, c.lenRaw))
        stats := { b.stats with packBytesServed := b.stats.packBytesServed + c.storedLen.toNat } }

/-- One physical read, which is in the trace when it takes place. -/
def readRange (pack : String) (path : Path) (start stop : Nat) : Traced PackSpan StoreError Bytes :=
  Traced.log ⟨pack, start, stop⟩ (readPackRangeAt files pack path start (wordSub stop start))

/-- The chunks of one pack, sorted by offset, range by range. -/
def readRanges (pack : String) (path : Path) : List Wanted → Batch → Traced PackSpan StoreError Batch
  | [], b => pure b
  | first :: rest, b => do
      let grown := growRange first.offset (wordAdd first.offset first.storedLen.toNat) rest
      let range ← readRange files pack path first.offset grown.1
      let b ← Traced.lift (serve range first.offset (first :: rest.take grown.2) { b with stats := { b.stats with
        packRangesRead := b.stats.packRangesRead + 1
        packBytesRead := b.stats.packBytesRead + wordSub grown.1 first.offset } })
      readRanges pack path (rest.drop grown.2) b
  termination_by l => l.length
  decreasing_by
    rw [List.length_drop, List.length_cons]
    omega

def byOffset (chunks : List Wanted) : List Wanted := chunks.mergeSort fun a b => a.offset ≤ b.offset

/-- The second pass: the packs in some order. -/
def readPacks : ByPack → Batch → Traced PackSpan StoreError Batch
  | [], b => pure b
  | (pack, chunks) :: rest, b => do
      let path ← Traced.lift (packPath pack)
      let b ← readRanges files pack path (byOffset chunks) { b with stats := { b.stats with
        packChunksRequested := b.stats.packChunksRequested + chunks.length } }
      readPacks rest b

/-- Every place has to be filled in. -/
def unwrapAll : List (Option ChunkForm) → Outcome StoreError (List ChunkForm)
  | [] => .ok []
  | none :: _ => .panics
  | some x :: rest => do return x :: (← unwrapAll rest)

/-- The counters are not bounded here: no list of chunks in memory fills 64 bits. -/
def readChunksStoredBatch (order : HashOrder) (hashes : List ChunkHash) :
    Traced PackSpan StoreError (List ChunkForm × CoalesceStats) := do
  let gathered ← Traced.lift (sortChunks files s 0 hashes (List.replicate hashes.length none) [])
  let b ← readPacks files (order.walk gathered.2) ⟨gathered.1, ⟨0, 0, 0, 0⟩⟩
  let out ← Traced.lift (unwrapAll b.out)
  return (out, b.stats)

end Batch

end Cavs
