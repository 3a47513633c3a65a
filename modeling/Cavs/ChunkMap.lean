import Cavs.MetaPack
import Cavs.Outcome

/-!
# Chunk maps

Where the chunks of an asset lie, as an exported tree tells it: one entry for each chunk, or
runs of chunks that lie one after another in a pack, with the offset of the first alone.
-/
namespace Cavs

inductive ExportError where
  | assetNotFound (name : String)
  | notExportable (what : String)
  deriving DecidableEq, Repr

/-- A JSON value, as the exporter makes them. -/
inductive JsonValue where
  | null
  | num (n : Nat)
  | text (s : String)
  | list (items : List JsonValue)
  | object (fields : List (String × JsonValue))

namespace JsonValue

def get (name : String) : JsonValue → Option JsonValue
  | .object fields => fields.lookup name
  | _ => none

def asText : JsonValue → Option String
  | .text s => some s
  | _ => none

def asU32 : JsonValue → Option UInt32
  | .num n => if n < 2 ^ 32 then some (UInt32.ofNat n) else none
  | _ => none

def asU64 : JsonValue → Option UInt64
  | .num n => if n < 2 ^ 64 then some (UInt64.ofNat n) else none
  | _ => none

def asList : JsonValue → Option (List JsonValue)
  | .list items => some items
  | _ => none

def asTexts (v : JsonValue) : Option (List String) := do (← v.asList).mapM asText

def asU32s (v : JsonValue) : Option (List UInt32) := do (← v.asList).mapM asU32

def u32 (n : UInt32) : JsonValue := .num n.toNat
def u64 (n : UInt64) : JsonValue := .num n.toNat
def texts (l : List String) : JsonValue := .list (l.map .text)
def u32s (l : List UInt32) : JsonValue := .list (l.map u32)

end JsonValue

section Read

/-- The first of the variants that the value fits. -/
def RunFlags.fromJson : JsonValue → Option RunFlags
  | .null => some .none
  | v => v.asU32.map .uniform <|> v.asU32s.map .perChunk

def MetaRun.fromJson (v : JsonValue) : Option MetaRun := do
  let pack ← (← v.get "pack").asText
  let startAbs ← (← v.get "start_abs").asU64
  let hashes ← (← v.get "hashes").asTexts
  let lensRaw ← (← v.get "lens_raw").asU32s
  let lensStored ← (← v.get "lens_stored").asU32s
  let flags ← (v.get "flags").elim (some .none) RunFlags.fromJson
  return { pack, startAbs, hashes, lensRaw, lensStored, flags }

def ChunkMapEntry.fromJson (v : JsonValue) : Option ChunkMapEntry := do
  let hash ← (← v.get "hash").asText
  let lenRaw ← (← v.get "len_raw").asU32
  let lenStored ← (← v.get "len_stored").asU32
  let flags ← (← v.get "flags").asU32
  let pack ← (← v.get "pack").asText
  let packOffsetAbs ← (← v.get "pack_offset_abs").asU64
  return { hash, lenRaw, lenStored, flags, pack, packOffsetAbs }

end Read

section Write

/-- The first two bytes, when a character ends there. -/
def headTwo (pack : String) : Option String :=
  match pack.toList with
  | [] => none
  | a :: rest =>
      if a.utf8Size = 2 then some (String.ofList [a])
      else match rest with
        | [] => none
        | b :: _ => if a.utf8Size = 1 ∧ b.utf8Size = 1 then some (String.ofList [a, b]) else none

/-- A slice that ends inside of a character ends the program. -/
def packfilePath (pack : String) : Outcome ExportError String :=
  match headTwo pack with
  | none => .panics
  | some two => .ok ("chunks/packs/" ++ two ++ "/" ++ pack ++ ".cavspack")

def headerLen : UInt64 := UInt64.ofNat packHeaderLen

def ChunkInfo.place (info : ChunkInfo) : UInt64 := UInt64.ofNat (info.packOffset.getD 0)

def notPacked (hex : String) : ExportError :=
  .notExportable ("chunk " ++ hex ++ " is not packed (ingest still open?)")

def entryJson (hex : String) (info : ChunkInfo) (path : String) : JsonValue :=
  .object [("hash", .text hex), ("len_raw", .u32 info.lenRaw), ("len_stored", .u32 info.lenStored),
    ("flags", .u32 info.flags), ("pack", .text path), ("pack_offset", .u64 info.place),
    ("pack_offset_abs", .u64 (headerLen + info.place))]

namespace GlobalStore
variable (s : GlobalStore)

def entriesOf : List String → Outcome ExportError (List JsonValue)
  | [] => return []
  | hex :: rest => match s.chunkGet hex with
    | none => entriesOf rest
    | some info => match info.pack with
      | none => .error (notPacked hex)
      | some pack => do
          let path ← packfilePath pack
          return entryJson hex info path :: (← entriesOf rest)

/-- One entry for each chunk of an asset. -/
def chunkMapEntries (name : String) : Outcome ExportError (List JsonValue) :=
  match s.index.assets[name]? with
  | none => .error (.assetNotFound name)
  | some hexes => s.entriesOf hexes

end GlobalStore

/-- Chunks that lie one after another in a pack. -/
structure Run where
  pack : String
  startAbs : UInt64
  nextOffset : UInt64
  hashes : List String
  lensRaw : List UInt32
  lensStored : List UInt32
  flags : List UInt32

namespace Run

def push (r : Run) (hex : String) (info : ChunkInfo) : Run :=
  { r with
    nextOffset := info.place + info.lenStored.toUInt64
    hashes := r.hashes ++ [hex]
    lensRaw := r.lensRaw ++ [info.lenRaw]
    lensStored := r.lensStored ++ [info.lenStored]
    flags := r.flags ++ [info.flags] }

/-- Neighbours are equal. -/
def uniform (r : Run) : Bool := (r.flags.zip r.flags.tail).all fun w => w.1 = w.2

def flagsJson (r : Run) : JsonValue :=
  if r.uniform then .u32 (r.flags.head?.getD 0) else .u32s r.flags

def json (r : Run) (path : String) : JsonValue :=
  .object [("pack", .text path), ("start_abs", .u64 r.startAbs), ("hashes", .texts r.hashes),
    ("lens_raw", .u32s r.lensRaw), ("lens_stored", .u32s r.lensStored), ("flags", r.flagsJson)]

end Run

/-- A chunk goes to the last run when it lies where that run stops. -/
def addToRuns (runs : List Run) (x : String × ChunkInfo) : List Run :=
  let pack := x.2.pack.getD ""
  let fresh : Run := ⟨pack, headerLen + x.2.place, x.2.place, [], [], [], []⟩
  match runs.getLast? with
  | none => runs ++ [fresh.push x.1 x.2]
  | some r =>
      if r.pack = pack ∧ x.2.place = r.nextOffset then runs.dropLast ++ [r.push x.1 x.2]
      else runs ++ [fresh.push x.1 x.2]

def runsJson : List Run → Outcome ExportError (List JsonValue)
  | [] => return []
  | r :: rest => do
      let path ← packfilePath r.pack
      return r.json path :: (← runsJson rest)

/-- By pack, and by offset in the pack. -/
def placedLe (a b : String × ChunkInfo) : Bool :=
  ((compare a.2.pack b.2.pack).then (compare a.2.packOffset b.2.packOffset)).isLE

namespace GlobalStore
variable (s : GlobalStore)

def placed : List String → Except ExportError (List (String × ChunkInfo))
  | [] => return []
  | hex :: rest => match s.chunkGet hex with
    | none => placed rest
    | some info =>
        if info.pack.isNone then .error (notPacked hex) else do return (hex, info) :: (← placed rest)

/-- The chunks of an asset by runs. -/
def chunkMapRuns (name : String) : Outcome ExportError (List JsonValue) :=
  match s.index.assets[name]? with
  | none => .error (.assetNotFound name)
  | some hexes => do
      let chunks ← Outcome.ofExcept (s.placed hexes)
      runsJson ((chunks.mergeSort placedLe).foldl addToRuns [])

end GlobalStore

end Write

end Cavs
