import Cavs.ContainerReader
import Mathlib.Data.Finset.Basic

/-!
# Server sessions

A session keeps the set of chunks its client is known to have. A batch request is planned
item by item: known chunks travel as references, the others inline, and these are known from
then on. The set changes while the request is planned, before the chunks are read.
-/
namespace Cavs
open FileProg (Bytes)

section Bloom

/-- A summary of a client's chunks. -/
structure BloomFilter where
  m : UInt64
  k : UInt32
  bits : List UInt8
  deriving DecidableEq, Repr

namespace BloomFilter
variable (filter : BloomFilter)

def probes (hash : ChunkHash) : List UInt64 :=
  let h1 := UInt64.ofNat (ByteScan.ofLe (hash.1.take 8))
  let h2 := UInt64.ofNat (ByteScan.ofLe ((hash.1.drop 8).take 8)) ||| 1
  (List.range filter.k.toNat).map fun i => (h1 + UInt64.ofNat i * h2) % filter.m

/-- Whether all probed bits are set, looked at one after another; a bit beyond the array
panics. -/
def allSet : List UInt64 → Option Bool
  | [] => some true
  | bit :: rest =>
      match filter.bits[bit.toNat / 8]? with
      | none => none
      | some byte => if byte &&& (1 <<< (UInt8.ofNat (bit.toNat % 8))) ≠ 0 then allSet rest else some false

/-- A malformed filter claims nothing. -/
def contains (hash : ChunkHash) : Option Bool :=
  if filter.bits.length ≠ filter.m.toNat / 8 ∨ filter.m = 0 then some false else filter.allSet (filter.probes hash)

end BloomFilter
end Bloom

section Asset

structure ChunkMeta where
  hash : ChunkHash
  lenRaw : UInt32
  lenStored : UInt32
  flags : UInt32
  deriving DecidableEq, Repr

/-- Where an asset's chunks are read: in its container, or in the shared store by hash. -/
inductive ChunkSource where
  | file
  | store
  deriving DecidableEq, Repr

/-- An asset that is served; its chunks are numbered with 32 bits. -/
structure Asset where
  source : ChunkSource
  tracks : List TrackRecord
  segments : List SegmentRecord
  chunkMeta : List ChunkMeta
  numbered : chunkMeta.length ≤ 2 ^ 32
  deriving DecidableEq, Repr

def Asset.hashOf (asset : Asset) (idx : UInt32) : Option ChunkHash := asset.chunkMeta[idx.toNat]?.map ChunkMeta.hash

/-- The last place of a hash in a table. -/
def lastPlace (hash : ChunkHash) : List ChunkMeta → (place : Nat) → Option Nat
  | [], _ => none
  | c :: rest, place => (lastPlace hash rest (place + 1)).or (if c.hash = hash then some place else none)

def Asset.indexByHash (asset : Asset) (hash : ChunkHash) : Option UInt32 :=
  (lastPlace hash asset.chunkMeta 0).map UInt32.ofNat

structure StoredForm where
  bytes : Bytes
  flags : UInt32
  lenRaw : UInt32
  deriving DecidableEq, Repr

/-- What the disk answers during one batched read: for a chunk of the container, and for a
batch of hashes from the store, which has one chunk for each. -/
structure ChunkReads where
  chunk : UInt32 → Except String StoredForm
  batch : (hashes : List ChunkHash) → Except String { l : List StoredForm // l.length = hashes.length }

variable (asset : Asset) (reads : ChunkReads)

def readEach : List UInt32 → Except String (List StoredForm)
  | [] => .ok []
  | idx :: rest =>
      if idx.toNat < asset.chunkMeta.length then do
        let stored ← reads.chunk idx
        return stored :: (← readEach rest)
      else .error s!"chunk {idx}: chunk index {idx} out of range"

def batchHashes : List UInt32 → Option (List ChunkHash)
  | [] => some []
  | idx :: rest => do
      let hash ← asset.hashOf idx
      return hash :: (← batchHashes rest)

def readStoredBatch (indices : List UInt32) : Except String (List StoredForm) :=
  match asset.source with
  | .file => readEach asset reads indices
  | .store => match batchHashes asset indices with
    | none => .error "chunk index out of range"
    | some hashes => match reads.batch hashes with
      | .ok l => .ok l.1
      | .error e => .error s!"batch read: {e}"

end Asset

section Plan

inductive DeliveryInstr where
  | ref (hash : ChunkHash)
  | inline (hash : ChunkHash) (lenRaw : UInt32) (compression : UInt8) (payload : Bytes)
  deriving DecidableEq, Repr

/-- What a place of a request becomes; the inline ones come in the order of the cold batch. -/
inductive Slot where
  | ref (idx : UInt32)
  | inline (idx : UInt32)
  deriving DecidableEq, Repr

/-- The first pass: what is known becomes a reference, the rest is known from now on. -/
def planSlots (force : Bool) : List UInt32 → Finset UInt32 → List Slot × Finset UInt32
  | [], known => ([], known)
  | idx :: rest, known =>
      if force = false ∧ idx ∈ known then
        let (slots, known) := planSlots force rest known
        (.ref idx :: slots, known)
      else
        let (slots, known) := planSlots force rest (insert idx known)
        (.inline idx :: slots, known)

def coldOf : List Slot → List UInt32
  | [] => []
  | .ref _ :: rest => coldOf rest
  | .inline idx :: rest => idx :: coldOf rest

/-- A program that changes the known set, also where it fails. -/
def Planning (α : Type) : Type := Finset UInt32 → Outcome String α × Finset UInt32

instance : Monad Planning where
  pure a := fun known => (.ok a, known)
  bind p f := fun known =>
    match p known with
    | (.ok a, known) => f a known
    | (.error e, known) => (.error e, known)
    | (.panics, known) => (.panics, known)

namespace Planning
variable {α β : Type} {p : Planning α} {f : α → Planning β} {known known' : Finset UInt32}

theorem bind_ok {a : α} (h : p known = (.ok a, known')) : (p >>= f) known = f a known' := by
  change (match p known with
    | (.ok a, known) => f a known
    | (.error e, known) => _
    | (.panics, known) => _) = _
  rw [h]

theorem bind_error {e : String} (h : p known = (.error e, known')) : (p >>= f) known = (.error e, known') := by
  change (match p known with
    | (.ok a, known) => f a known
    | (.error e, known) => (.error e, known)
    | (.panics, known) => _) = _
  rw [h]

theorem bind_panics (h : p known = (.panics, known')) : (p >>= f) known = (.panics, known') := by
  change (match p known with
    | (.ok a, known) => f a known
    | (.error e, known) => (.error e, known)
    | (.panics, known) => (.panics, known)) = _
  rw [h]

theorem ok_of_bind {b : β} (h : (p >>= f) known = (.ok b, known')) :
    ∃ a k, p known = (.ok a, k) ∧ f a k = (.ok b, known') := by
  rcases same : p known with ⟨a | e | _, k⟩
  · rw [bind_ok same] at h
    exact ⟨a, k, rfl, h⟩
  · rw [bind_error same] at h
    cases h
  · rw [bind_panics same] at h
    cases h

theorem map_error {g : α → β} {e : String} :
    (p >>= fun a => pure (g a)) known = (.error e, known') ↔ p known = (.error e, known') := by
  rcases same : p known with ⟨a | e' | _, k⟩
  · rw [bind_ok same]
    constructor <;> rintro ⟨⟩
  · rw [bind_error same]
    simp
  · rw [bind_panics same]
    simp

theorem bind_assoc {γ : Type} (p : Planning α) (f : α → Planning β) (g : β → Planning γ) :
    (p >>= f >>= g) = p >>= fun a => f a >>= g := by
  funext known
  rcases same : p known with ⟨a | e | _, k⟩
  · have first := bind_ok (f := f) same
    have both := bind_ok (f := fun a => f a >>= g) same
    rcases next : f a k with ⟨b | e | _, k'⟩
    · rw [both, bind_ok (first.trans next), bind_ok next]
    · rw [both, bind_error (first.trans next), bind_error next]
    · rw [both, bind_panics (first.trans next), bind_panics next]
  · rw [bind_error (bind_error same), bind_error same]
  · rw [bind_panics (bind_panics same), bind_panics same]

theorem bind_pure (p : Planning α) : (p >>= pure) = p := by
  funext known
  rcases same : p known with ⟨a | e | _, k⟩
  · exact bind_ok same
  · exact bind_error same
  · exact bind_panics same

theorem pure_bind (a : α) (f : α → Planning β) : (pure a >>= f) = f a := rfl

theorem pure_apply (a : α) : (pure a : Planning α) known = (.ok a, known) := rfl

end Planning

variable (env : ContainerEnv) (asset : Asset)

def hashAt (idx : UInt32) : Outcome String ChunkHash :=
  match asset.hashOf idx with
  | some hash => .ok hash
  | none => .panics

/-- The payload and flags that travel; grouped chunks are decoded first. -/
def wirePayload (stored : StoredForm) : Outcome String (Bytes × UInt32) :=
  if stored.flags &&& chunkFlagBg4 ≠ 0 then
    match env.decompress stored.lenRaw.toNat stored.bytes with
    | .ok raw => .ok (bg4Ungroup raw, 0)
    | .error e => .error s!"bg4 chunk decode: {e}"
  else .ok (stored.bytes, stored.flags)

/-- The second pass hands the chunks that were read to the inline slots. -/
def fillSlots : List Slot → List StoredForm → Outcome String (List DeliveryInstr)
  | [], _ => pure []
  | .ref idx :: rest, payloads => do
      let hash ← hashAt asset idx
      return .ref hash :: (← fillSlots rest payloads)
  | .inline _ :: _, [] => .panics
  | .inline idx :: rest, stored :: payloads => do
      let (payload, flags) ← wirePayload env stored
      let hash ← hashAt asset idx
      let compression := if flags &&& chunkFlagZstd ≠ 0 then compressionZstd else compressionNone
      return .inline hash stored.lenRaw compression payload :: (← fillSlots rest payloads)

def planChunks (reads : ChunkReads) (chunkIndices : List UInt32) (forceInline : Bool) : Planning (List DeliveryInstr) :=
  fun known =>
    let (slots, known) := planSlots forceInline chunkIndices known
    match readStoredBatch asset reads (coldOf slots) with
    | .error e => (.error e, known)
    | .ok payloads => (fillSlots env asset slots payloads, known)

structure InitDelivery where
  trackId : UInt32
  instrs : List DeliveryInstr
  deriving DecidableEq, Repr

structure SegmentDelivery where
  segmentId : UInt64
  instrs : List DeliveryInstr
  deriving DecidableEq, Repr

structure BatchRequest where
  trackInits : List UInt32
  segmentIds : List UInt64
  deriving DecidableEq, Repr

structure BatchResponse where
  inits : List InitDelivery
  segments : List SegmentDelivery
  deriving DecidableEq, Repr

/-- What an id of a request asks for: the chunks of the first record with the id. Only
segments may collapse to a bundle. -/
structure Item where
  found : Except String (List UInt32)
  mayCollapse : Bool

def initItem (trackId : UInt32) : Item where
  found := match asset.tracks.find? fun t => t.trackId = trackId with
    | some track => .ok track.initChunks
    | none => .error s!"unknown track {trackId}"
  mayCollapse := false

def segmentItem (segmentId : UInt64) : Item where
  found := match asset.segments.find? fun s => s.segmentId = segmentId with
    | some segment => .ok segment.chunks
    | none => .error s!"unknown segment {segmentId}"
  mayCollapse := true

variable (maxCold : Nat)

/-- Too many cold chunks: the segment travels as a bundle of its own. -/
def collapses (mayCollapse : Bool) (known : Finset UInt32) (chunks : List UInt32) : Bool :=
  mayCollapse && decide (0 < maxCold) && decide (maxCold < (chunks.filter fun c => c ∉ known).length)

def planItem (reads : ChunkReads) (item : Item) : Planning (List DeliveryInstr) := fun known =>
  match item.found with
  | .error e => (.error e, known)
  | .ok chunks => planChunks env asset reads chunks (collapses maxCold item.mayCollapse known chunks) known

/-- The items of a request one after another; `n` counts the batched reads. -/
def planItems (reads : Nat → ChunkReads) : List Item → (n : Nat) → Planning (List (List DeliveryInstr))
  | [], _ => pure []
  | item :: rest, n => do
      let instrs ← planItem env asset maxCold (reads n) item
      let more ← planItems reads rest (n + 1)
      return instrs :: more

/-- The deliveries of a request; the response is encoded afterwards. -/
def planRequest (reads : Nat → ChunkReads) (req : BatchRequest) : Planning BatchResponse := do
  let inits ← planItems env asset maxCold reads (req.trackInits.map (initItem asset)) 0
  let segments ← planItems env asset maxCold reads (req.segmentIds.map (segmentItem asset)) req.trackInits.length
  return ⟨List.zipWith InitDelivery.mk req.trackInits inits, List.zipWith SegmentDelivery.mk req.segmentIds segments⟩

end Plan

section State

structure Session where
  asset : String
  known : Finset UInt32

/-- The served assets, the open sessions, and whether a panic has poisoned their lock. -/
structure AppState where
  assets : String → Option Asset
  sessions : String → Option Session
  poisoned : Bool
  maxCold : Nat

/-- What a client announces: hex names, or a filter over the asset's chunks. -/
inductive Announcement where
  | have_ (hexes : List String)
  | bloom (filter : BloomFilter)

def knownOfHave (asset : Asset) : List String → Finset UInt32
  | [] => ∅
  | hex :: rest =>
      match (fromHex hex).bind asset.indexByHash with
      | some idx => insert idx (knownOfHave asset rest)
      | none => knownOfHave asset rest

/-- The members of a list of hashes that the filter claims, by their index. -/
def knownOfBloom (asset : Asset) (filter : BloomFilter) : List ChunkHash → Option (Finset UInt32)
  | [] => some ∅
  | hash :: rest => do
      let claimed ← filter.contains hash
      let known ← knownOfBloom asset filter rest
      match asset.indexByHash hash with
      | some idx => return if claimed then insert idx known else known
      | none => return known

/-- The first known set; `none` is a panic. -/
def Announcement.known (asset : Asset) : Announcement → Option (Finset UInt32)
  | .have_ hexes => some (knownOfHave asset hexes)
  | .bloom filter => knownOfBloom asset filter (asset.chunkMeta.map ChunkMeta.hash)

/-- Open a session under a fresh id; the advice on delivery is left out. -/
def openSession (state : AppState) (assetName id : String) (announcement : Announcement) : Option AppState := do
  let asset ← state.assets assetName
  let known ← announcement.known asset
  if state.poisoned then none
  else some { state with sessions := fun i => if i = id then some ⟨assetName, known⟩ else state.sessions i }

def planBatch (env : ContainerEnv) (state : AppState) (sessionId : String) (reads : Nat → ChunkReads)
    (req : BatchRequest) : Outcome String BatchResponse × AppState :=
  if state.poisoned then (.panics, state)
  else match state.sessions sessionId with
    | none => (.error s!"unknown session {sessionId}", state)
    | some session => match state.assets session.asset with
      | none => (.error "asset vanished", state)
      | some asset =>
          let (outcome, known) := planRequest env asset state.maxCold reads req session.known
          (outcome, { state with
            sessions := fun i => if i = sessionId then some { session with known } else state.sessions i
            poisoned := match outcome with | .panics => true | _ => false })

end State

end Cavs
