import Cavs.BodyCursor
import Cavs.SnapshotImage

/-!
# The snapshot codec

A ledger whose records are all in packs reads back from its snapshot exactly when it fits the
widths it is written in. The reader keeps to its buffer: written with the operations that can
end the program it gives what the scanner gives, on every byte string.
-/
namespace Cavs
open FileProg (Bytes)
open ByteScan BodyCursor
open Std (ExtTreeMap ExtTreeSet)
open Outcome (ok_bind)

section Cursor
variable {S : Type}

def cursorText (what : String) : BodyScan StoreError S String := do
  let len ← BodyScan.num truncated 2
  let bytes ← BodyScan.take truncated len
  BodyScan.ofOption (corrupt what) (utf8 bytes)

def cursorHash : BodyScan StoreError S ChunkHash := do
  let bytes ← BodyScan.take truncated 32
  match hashOf bytes with
  | some hash => return hash
  | none => BodyScan.lift .panics

def cursorU32 : BodyScan StoreError S UInt32 := do return UInt32.ofNat (← BodyScan.num truncated 4)

def cursorCheck (c : Bool) (e : StoreError) : BodyScan StoreError S Unit := if c then pure () else BodyScan.throw e

def cursorHexes (what : String) : BodyScan StoreError S (List String) := do
  let n ← BodyScan.num truncated 4
  let left ← BodyScan.remaining
  cursorCheck (n ≤ left / 32) (corrupt what)
  BodyScan.collect n (do return toHex (← cursorHash))

def cursorChunkRecord (packs : List String) : BodyScan StoreError S (String × ChunkInfo) := do
  let hash ← cursorHash
  let lenRaw ← cursorU32
  let lenStored ← cursorU32
  let flags ← cursorU32
  let refcount ← BodyScan.num truncated 8
  let since ← BodyScan.num truncated 8
  let ord ← BodyScan.num truncated 4
  let offset ← BodyScan.num truncated 8
  let pack ← (if ord = 256 ^ 4 - 1 then pure none else do
    return some (← BodyScan.ofOption (corrupt "pack ordinal out of range") packs[ord]?))
  return (toHex hash, {
    lenRaw, lenStored, flags, refcount
    zeroSince := if since = u64Max then none else some since
    pack
    packOffset := if pack.isSome then some offset else none })

def cursorRecordRef : BodyScan StoreError S (Option RecordRef) := do
  let tag ← BodyScan.byte truncated
  match tag with
  | 0 => pure none
  | 1 => do
      let pack ← cursorHash
      let offset ← BodyScan.num truncated 4
      let len ← BodyScan.num truncated 4
      return some (.pack pack offset len)
  | _ => BodyScan.throw (corrupt "bad record location tag")

def cursorAssetEntry (version : Nat) : BodyScan StoreError Index Unit := do
  let name ← cursorText "asset name not utf-8"
  let hexes ← cursorHexes "asset chunk count exceeds file size"
  let ref ← (if version ≥ 2 then cursorRecordRef else pure none)
  BodyScan.modify fun index => match ref with
    | some at_ => (index.setRecord name at_).setAsset name hexes
    | none => index.setAsset name hexes

/-- A product that passes the largest word passes what is left to read too. -/
def cursorTables (version bodyLen : Nat) : BodyScan StoreError Index Unit := do
  let packCount ← BodyScan.num truncated 4
  cursorCheck (packCount ≤ bodyLen / 2) (corrupt "pack count exceeds file size")
  let packs ← BodyScan.collect packCount (cursorText "pack id not utf-8")
  let chunkCount ← BodyScan.num truncated 8
  let left ← BodyScan.remaining
  cursorCheck (chunkCount * indexRecordSize ≤ left) (corrupt "chunk count exceeds file size")
  BodyScan.times chunkCount (do
    let entry ← cursorChunkRecord packs
    BodyScan.modify fun index => index.upsert entry)
  let assetCount ← BodyScan.num truncated 4
  BodyScan.times assetCount (cursorAssetEntry version)

/-- What is left of a header of `headerSize` bytes after 34 of them. -/
def headerGrowth (headerSize : Nat) : Outcome StoreError Nat :=
  if 34 ≤ headerSize then .ok (headerSize - 34) else .panics

def cursorIndex (bodyLen : Nat) : BodyScan StoreError Index Nat := do
  let version ← BodyScan.num truncated 2
  cursorCheck (version ≤ indexVersion) (corrupt
    s!"index version {version} was written by a newer CAVS; this build reads up to {indexVersion}")
  let headerSize ← BodyScan.num truncated 2
  cursorCheck (indexHeaderSize ≤ headerSize ∧ headerSize < bodyLen) (corrupt "bad header size")
  let recordSize ← BodyScan.num truncated 2
  cursorCheck (recordSize = indexRecordSize) (corrupt
    s!"record size {recordSize} unsupported (expected {indexRecordSize})")
  let _ ← BodyScan.take truncated 2
  let layout ← BodyScan.byte truncated
  let layout ← (match layout with
    | 0 => pure StoreLayout.loose
    | 1 => pure StoreLayout.packfiles
    | _ => BodyScan.throw (corrupt "bad layout"))
  let _ ← BodyScan.take truncated 1
  let generation ← BodyScan.num truncated 8
  let _ ← BodyScan.take truncated 8
  let growth ← BodyScan.lift (headerGrowth headerSize)
  let _ ← BodyScan.take truncated growth
  BodyScan.modify fun index => { index with layout, generation }
  cursorTables version bodyLen
  return version

def cursorSealHolds (env : Env) (bytes : Bytes) : Outcome StoreError Bool :=
  if bytes.length < indexHeaderSize + 32 then .ok false
  else do
    let body ← slice bytes 0 (bytes.length - 32)
    let tail ← slice bytes (bytes.length - 32) bytes.length
    let sealed ← array 32 tail
    return decide ((env.hashChunk body).1 = sealed)

/-- The reader of a snapshot, with the slices it makes. -/
def cursorDecode (env : Env) (bytes : Bytes) : Outcome StoreError (Index × Nat) :=
  if bytes.length < indexHeaderSize + 32 then .error truncated
  else do
    let holds ← cursorSealHolds env bytes
    if !holds then .error (corrupt "seal mismatch")
    else do
      let body ← slice bytes 0 (bytes.length - 32)
      let magic ← slice body 0 8
      if magic ≠ indexMagic then .error (corrupt "bad magic")
      else do
        let read ← (do
          let version ← cursorIndex body.length
          let left ← BodyScan.remaining
          if left ≠ 0 then BodyScan.throw (corrupt "trailing bytes") else return version) body (.empty .loose) 8
        return (read.2.1, read.1)

end Cursor

section Follows
variable {S : Type}
open BodyScan

theorem cursorText_follows (what : String) : Follows (cursorText what : BodyScan StoreError S String) (readText what) :=
  (Follows.num truncated 2).bind fun len => (Follows.take truncated len).bind fun bytes =>
    Follows.ofOption (corrupt what) (utf8 bytes)

theorem cursorHash_follows : Follows (cursorHash : BodyScan StoreError S ChunkHash) readHash := by
  apply (Follows.take truncated 32).bind_known fun run => (ok_of_take run).2.1
  intro bytes width
  rw [hashOf, dif_pos width]
  exact .pure _

theorem cursorU32_follows : Follows (cursorU32 : BodyScan StoreError S UInt32) readU32 :=
  (Follows.num truncated 4).bind fun _ => Follows.pure _

theorem cursorCheck_follows (c : Bool) (e : StoreError) : Follows (cursorCheck c e : BodyScan StoreError S Unit) (check c e) :=
  Follows.ite (.pure ()) Follows.throw

theorem cursorHexes_follows (what : String) :
    Follows (cursorHexes what : BodyScan StoreError S (List String)) (readHexes what) := by
  apply (Follows.num truncated 4).bind
  intro n
  apply Follows.remaining.bind
  intro left
  apply (cursorCheck_follows _ _).bind
  intro _
  apply Follows.collect
  exact cursorHash_follows.bind fun _ => .pure _

theorem cursorChunkRecord_follows (packs : List String) :
    Follows (cursorChunkRecord packs : BodyScan StoreError S _) (readChunkRecord 4 packs) := by
  apply cursorHash_follows.bind
  intro hash
  apply cursorU32_follows.bind
  intro lenRaw
  apply cursorU32_follows.bind
  intro lenStored
  apply cursorU32_follows.bind
  intro flags
  apply (Follows.num truncated 8).bind
  intro refcount
  apply (Follows.num truncated 8).bind
  intro since
  apply (Follows.num truncated 4).bind
  intro ord
  apply (Follows.num truncated 8).bind
  intro offset
  apply Follows.bind _ fun pack => .pure _
  apply Follows.ite (.pure none)
  exact (Follows.ofOption _ _).bind fun p => Follows.pure _

theorem cursorRecordRef_follows : Follows (cursorRecordRef : BodyScan StoreError S _) decodeRecordRef := by
  apply (Follows.byte truncated).bind
  intro tag
  match tag with
  | 0 => exact .pure none
  | 1 => exact cursorHash_follows.bind fun pack => (Follows.num truncated 4).bind fun offset =>
      (Follows.num truncated 4).bind fun len => Follows.pure _
  | n + 2 => exact .throw

theorem cursorAssetEntry_follows (version : Nat) : Follows (cursorAssetEntry version) (readAssetEntry version) := by
  apply (cursorText_follows _).bind
  intro name
  apply (cursorHexes_follows _).bind
  intro hexes
  apply Follows.bind (.ite cursorRecordRef_follows (.pure none))
  intro place
  exact .modify _

theorem cursorTables_follows (version bodyLen : Nat) :
    Follows (cursorTables version bodyLen) (readTables version bodyLen) := by
  apply (Follows.num truncated 4).bind
  intro packCount
  apply (cursorCheck_follows _ _).bind
  intro _
  apply (Follows.collect (cursorText_follows _) packCount).bind
  intro packs
  apply (Follows.num truncated 8).bind
  intro chunkCount
  apply Follows.remaining.bind
  intro left
  apply (cursorCheck_follows _ _).bind
  intro _
  apply (Follows.times ((cursorChunkRecord_follows packs).bind fun entry => Follows.modify _) chunkCount).bind
  intro _
  apply (Follows.num truncated 4).bind
  intro assetCount
  exact .times (cursorAssetEntry_follows version) assetCount

/-- A header that passed its check is not shorter than what was read of it. -/
theorem cursorIndex_follows (bodyLen : Nat) : Follows (cursorIndex bodyLen) (readIndex bodyLen) := by
  apply (Follows.num truncated 2).bind
  intro version
  apply (cursorCheck_follows _ _).bind
  intro _
  apply (Follows.num truncated 2).bind
  intro headerSize
  apply (cursorCheck_follows _ _).bind_known fun run => (of_decide_eq_true (ok_of_check run).1).1
  intro _ wide
  have growth : headerGrowth headerSize = .ok (headerSize - 34) := by
    rw [indexHeaderSize] at wide
    rw [headerGrowth, if_pos (by omega)]
  apply (Follows.num truncated 2).bind
  intro recordSize
  apply (cursorCheck_follows _ _).bind
  intro _
  apply (Follows.take truncated 2).bind
  intro _
  apply (Follows.byte truncated).bind
  intro layoutTag
  apply Follows.bind
  · rcases layoutTag with _ | _ | n
    · exact Follows.pure _
    · exact Follows.pure _
    · exact Follows.throw
  intro layout
  apply (Follows.take truncated 1).bind
  intro _
  apply (Follows.num truncated 8).bind
  intro generation
  apply (Follows.take truncated 8).bind
  intro _
  rw [growth, lift_ok_bind]
  apply (Follows.take truncated (headerSize - 34)).bind
  intro _
  apply (Follows.modify _).bind
  intro _
  exact (cursorTables_follows version bodyLen).bind fun _ => Follows.pure version

end Follows

section Whole
variable {env : Env} {bytes : Bytes}

theorem cursorSealHolds_eq : cursorSealHolds env bytes = .ok (indexSealHolds env bytes) := by
  unfold cursorSealHolds indexSealHolds
  by_cases short : bytes.length < indexHeaderSize + 32
  · rw [if_pos short, if_pos short]
  · have cut : bytes.length - 32 ≤ bytes.length := Nat.sub_le _ _
    have tail : (bytes.drop (bytes.length - 32)).take (bytes.length - (bytes.length - 32)) =
        bytes.drop (bytes.length - 32) := List.take_of_length_le (by rw [List.length_drop])
    have width : (bytes.drop (bytes.length - 32)).length = 32 := by
      rw [List.length_drop]
      omega
    rw [if_neg short, if_neg short, slice_ok (Nat.zero_le _) cut, ok_bind, slice_ok cut (Nat.le_refl _),
      ok_bind, tail, array, if_pos width, ok_bind]
    rfl

/-- The reader with its slices gives what the scanner gives: it never leaves its buffer. -/
theorem cursorDecode_eq : cursorDecode env bytes = .ofExcept (decodeIndexVersioned env bytes) := by
  unfold cursorDecode decodeIndexVersioned
  by_cases short : bytes.length < indexHeaderSize + 32
  · rw [if_pos short, if_pos short]
    rfl
  have cut : bytes.length - 32 ≤ bytes.length := Nat.sub_le _ _
  rw [if_neg short, if_neg short, cursorSealHolds_eq, ok_bind]
  cases indexSealHolds env bytes with
  | false => rfl
  | true =>
      have long : 8 ≤ (bytes.take (bytes.length - 32)).length := by
        rw [indexHeaderSize] at short
        rw [List.length_take_of_le cut]
        omega
      simp only [Bool.not_true, Bool.false_eq_true, if_false]
      rw [slice_ok (Nat.zero_le _) cut, ok_bind, List.drop_zero, Nat.sub_zero,
        slice_ok (Nat.zero_le _) long, ok_bind, List.drop_zero]
      generalize bytes.take (bytes.length - 32) = body at long ⊢
      by_cases magic : body.take 8 = indexMagic
      · rw [if_neg (not_not_intro magic), if_neg (not_not_intro magic)]
        have first := cursorIndex_follows body.length body (.empty .loose) 8 long
        rw [BodyScan.bind_apply]
        cases run : readIndex body.length (.empty .loose) ⟨8, body.drop 8⟩ with
        | mk r t =>
            rw [run] at first
            cases r with
            | error e =>
                have ends : cursorIndex body.length body (.empty .loose) 8 = .error e := first
                rw [ends]
                rfl
            | ok x =>
                obtain ⟨version, pos, rest⟩ := x
                obtain ⟨ends, left, stays⟩ := first
                dsimp only at ends left stays ⊢
                have done : rest = [] ↔ body.length - pos = 0 := by
                  rw [left, List.drop_eq_nil_iff]
                  omega
                rw [ends, ok_bind, BodyScan.bind_apply, BodyScan.remaining, if_pos stays, ok_bind]
                by_cases whole : body.length - pos = 0
                · rw [if_neg (not_not_intro whole), if_pos (done.mpr whole)]
                  rfl
                · rw [if_pos whole, if_neg fun empty => whole (done.mp empty)]
                  rfl
      · rw [if_pos magic, if_pos magic]
        rfl

end Whole

section Codec
variable {env : Env} {index : Index} {now : Nat}

/-- Every record is in a pack, at a place of four-byte numbers. -/
def Index.InPacks (index : Index) : Prop :=
  ∀ (name : String) (place : RecordRef), index.records[name]? = some place →
    ∃ pack offset len, place = .pack pack offset len ∧ offset < 2 ^ 32 ∧ len < 2 ^ 32

/-- The snapshot of a ledger is read as a snapshot of version 2 with the same chunks and
assets, the same layout and generation, and the same place for the record of each asset. -/
def GivesBack (env : Env) (index : Index) (now : Nat) : Prop :=
  ∃ R, decodeIndexVersioned env (encodeIndex env index now) = .ok (R, 2) ∧ R.chunks = index.chunks ∧
    R.assets = index.assets ∧ R.layout = index.layout ∧ R.generation = index.generation ∧
    ∀ name : String, (index.assets[name]?).isSome → R.records[name]? = index.records[name]?

/-- The bytes are a sealed image of the ledger `R`, with each ordinal in its table, and no more. -/
def Images (env : Env) (bytes : Bytes) (R : Index) (version : Nat) : Prop :=
  ∃ i : SnapshotImage, i.Good ∧ bytes = i.body ++ (env.hashChunk i.body).1 ∧ R = i.ledger ∧ version = i.version

theorem Index.InPacks.packed (h : index.InPacks) (name : String) :
    packedRef index.records[name]? = index.records[name]? := by
  cases found : index.records[name]? with
  | none => rfl
  | some place =>
      obtain ⟨pack, offset, len, rfl, -⟩ := h name place found
      rfl

theorem givesBack (packed : index.InPacks) (fits : index.Fits) (canon : index.Canon) : GivesBack env index now := by
  refine ⟨index.snapshot, decodeIndexVersioned_encodeIndex fits canon now, rfl, rfl, rfl, rfl, ?_⟩
  intro name listed
  rw [snapshot_records, if_pos listed, packed.packed]

/-- What reads back fits: it was read. -/
theorem GivesBack.fits (h : GivesBack env index now) (packed : index.InPacks) : index.Fits ∧ index.Canon := by
  obtain ⟨R, read, chunks, assets, -, generation, -⟩ := h
  obtain ⟨i, good, -, rfl, -⟩ := ok_of_decodeIndexVersioned read
  have fits := good.fits
  have canon := good.canon
  constructor
  · exact {
      packs := by
        rw [Index.packs, ← chunks]
        exact fits.packs
      chunks := chunks ▸ fits.chunks
      assets := assets ▸ fits.assets
      chunk := chunks ▸ fits.chunk
      asset := assets ▸ fits.asset
      record := fun name pack offset len found => by
        obtain ⟨pack', offset', len', same, small⟩ := packed name _ found
        cases same
        exact small
      generation := generation ▸ fits.generation }
  · exact ⟨chunks ▸ canon.chunk, assets ▸ canon.asset⟩

/-- A store without chunks after the publish of one asset, its record in a pack. -/
def packedAsset (name : String) : Index := ((Edit.packRecords zeroHash).apply (oneAsset name)).1

theorem packedAsset_edited (name : String) : Edited (.empty .packfiles) (packedAsset name) ∅ :=
  ⟨[.publish name [] [1], .packRecords zeroHash], rfl⟩

theorem packedAsset_asset {name name' : String} :
    (packedAsset name).assets[name']? = if name' = name then some [] else none := by
  refine (getElem?_insert_eq ..).trans ?_
  rw [Index.empty, ExtTreeMap.getElem?_empty]

theorem packedAsset_inPacks (name : String) : (packedAsset name).InPacks := by
  intro name' place found
  rcases foldl_insert_from found with mem | before
  · obtain ⟨offset, len, same, small⟩ := recordSpans_narrow mem
    exact ⟨zeroHash, offset, len, same, small⟩
  · rw [Index.empty, getElem?_erase_eq, ExtTreeMap.getElem?_empty, ite_self] at before
    cases before

/-- A ledger with its records in packs reads back from its snapshot exactly when it fits the
widths; and whatever byte string is decoded, the reader stays within it and accepts a sealed
image only. -/
theorem snapshot_codec (env : Env) (index : Index) (now : Nat) (bytes : Bytes) (packed : index.InPacks) :
    (GivesBack env index now ↔ index.Fits ∧ index.Canon) ∧
      cursorDecode env bytes = .ofExcept (decodeIndexVersioned env bytes) ∧
      ∀ R version, decodeIndexVersioned env bytes = .ok (R, version) → Images env bytes R version := by
  refine ⟨⟨fun back => back.fits packed, fun both => givesBack packed both.1 both.2⟩, cursorDecode_eq, ?_⟩
  intro R version read
  exact ok_of_decodeIndexVersioned read

def pageChunk : String := toHex zeroHash

/-- The asset lists a chunk, which lies in a pack. -/
def chunkedPage : Index := { packedAsset "page" with
  chunks := (∅ : ChunkTable).insert pageChunk ⟨1, 1, 0, 1, none, some pageChunk, some 0⟩
  assets := (∅ : ExtTreeMap _ _).insert "page" [pageChunk] }

theorem chunkedPage_chunk {hex : String} {info : ChunkInfo} (found : chunkedPage.chunks[hex]? = some info) :
    hex = pageChunk ∧ ⟨1, 1, 0, 1, none, some pageChunk, some 0⟩ = info := by
  replace found := (getElem?_insert_eq ..).symm.trans found
  split at found
  · exact ⟨‹_›, Option.some.inj found⟩
  · rw [ExtTreeMap.getElem?_empty] at found
    cases found

theorem chunkedPage_asset {name : String} {chunks : List String} (found : chunkedPage.assets[name]? = some chunks) :
    name = "page" ∧ [pageChunk] = chunks := by
  replace found := (getElem?_insert_eq ..).symm.trans found
  split at found
  · exact ⟨‹_›, Option.some.inj found⟩
  · rw [ExtTreeMap.getElem?_empty] at found
    cases found

theorem chunkedPage_fits : chunkedPage.Fits where
  packs := by decide +kernel
  chunks := by decide +kernel
  assets := by decide +kernel
  chunk hex info found := by
    obtain ⟨-, rfl⟩ := chunkedPage_chunk found
    exact ⟨by decide, nofun, fun pack same => by cases same; decide +kernel, fun offset same => by cases same; decide⟩
  asset name chunks found := by
    obtain ⟨rfl, rfl⟩ := chunkedPage_asset found
    decide +kernel
  record name pack offset len found := by
    obtain ⟨pack', offset', len', same, small⟩ := packedAsset_inPacks "page" name _ found
    cases same
    exact small
  generation := by decide +kernel

theorem chunkedPage_canon : chunkedPage.Canon where
  chunk hex info found := by
    obtain ⟨rfl, rfl⟩ := chunkedPage_chunk found
    exact ⟨isHex_toHex _, rfl⟩
  asset name chunks found hex mem := by
    obtain ⟨-, rfl⟩ := chunkedPage_asset found
    obtain rfl := List.mem_singleton.mp mem
    exact isHex_toHex _

theorem snapshot_codec_page : GivesBack countingEnv chunkedPage 0 :=
  (snapshot_codec countingEnv chunkedPage 0 [] (packedAsset_inPacks "page")).1.mpr ⟨chunkedPage_fits, chunkedPage_canon⟩

/-- The length of a name that a publish takes is cut to two bytes. -/
theorem long_name_not_read_back : badName (letters (2 ^ 16)) = false ∧
    Edited (.empty .packfiles) (packedAsset (letters (2 ^ 16))) ∅ ∧ (packedAsset (letters (2 ^ 16))).InPacks ∧
      ¬ GivesBack countingEnv (packedAsset (letters (2 ^ 16))) 0 := by
  refine ⟨letters_taken (by decide), packedAsset_edited _, packedAsset_inPacks _, fun back => ?_⟩
  have fits := (back.fits (packedAsset_inPacks _)).1
  have short := (fits.asset _ _ (packedAsset_asset.trans (if_pos rfl))).1
  rw [letters_length] at short
  exact short.false

end Codec
end Cavs
