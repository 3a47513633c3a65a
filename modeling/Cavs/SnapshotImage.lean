import Cavs.RecordReplay

/-!
# What a snapshot consists of

Every byte string that is accepted as a snapshot is made of a header, a table of packs, the
records of the chunks, the entries of the assets and a seal, with nothing behind them. The
ledger it gives is put together from these, and a snapshot can say it again.
-/
namespace Cavs
open FileProg (Bytes)
open ByteScan
open Std (ExtTreeMap ExtTreeSet)

section Image

/-- The record of one chunk: 72 bytes. -/
structure RecordImage where
  hash : ChunkHash
  lenRaw : UInt32
  lenStored : UInt32
  flags : UInt32
  refcount : Nat
  since : Nat
  ord : Nat
  offset : Nat

def RecordImage.bytes (r : RecordImage) : Bytes :=
  r.hash.1 ++ (le 4 r.lenRaw.toNat ++ (le 4 r.lenStored.toNat ++ (le 4 r.flags.toNat ++
  (le 8 r.refcount ++ (le 8 r.since ++ (le 4 r.ord ++ le 8 r.offset))))))

def RecordImage.entry (packs : List String) (r : RecordImage) : String × ChunkInfo :=
  (toHex r.hash, {
    lenRaw := r.lenRaw, lenStored := r.lenStored, flags := r.flags, refcount := r.refcount
    zeroSince := if r.since = u64Max then none else some r.since
    pack := if r.ord = noPack then none else packs[r.ord]?
    packOffset := if r.ord = noPack then none else some r.offset })

/-- The numbers are of eight bytes, and the pack is in a table of `packs` packs. -/
structure RecordImage.Good (packs : Nat) (r : RecordImage) : Prop where
  refcount : r.refcount < 2 ^ 64
  since : r.since < 2 ^ 64
  ord : r.ord = noPack ∨ r.ord < packs
  offset : r.offset < 2 ^ 64

/-- The entry of one asset. -/
structure AssetImage where
  name : String
  hashes : List ChunkHash
  place : Option RecordRef

def AssetImage.bytes (version : Nat) (a : AssetImage) : Bytes :=
  textBytes a.name ++ ((le 4 a.hashes.length ++ a.hashes.flatMap Subtype.val) ++
    if version ≥ 2 then encodeRecordRef a.place else [])

def AssetImage.put (index : Index) (a : AssetImage) : Index :=
  match a.place with
  | some place => (index.setRecord a.name place).setAsset a.name (a.hashes.map toHex)
  | none => index.setAsset a.name (a.hashes.map toHex)

structure AssetImage.Good (a : AssetImage) : Prop where
  name : (strBytes a.name).length < 2 ^ 16
  hashes : a.hashes.length < 2 ^ 32
  place : ∀ place, a.place = some place → ∃ pack offset len, place = .pack pack offset len ∧
    offset < 2 ^ 32 ∧ len < 2 ^ 32

/-- A snapshot without its seal. What a reader passes over is kept as it is. -/
structure SnapshotImage where
  version : Nat
  flags : Bytes
  layout : StoreLayout
  reserved : Bytes
  generation : Nat
  created : Bytes
  growth : Bytes
  packs : List String
  records : List RecordImage
  assets : List AssetImage

def SnapshotImage.header (i : SnapshotImage) : Bytes :=
  indexMagic ++ (le 2 i.version ++ (le 2 (34 + i.growth.length) ++ (le 2 indexRecordSize ++ (i.flags ++
  (le 1 (layoutByte i.layout) ++ (i.reserved ++ (le 8 i.generation ++ (i.created ++ i.growth))))))))

def SnapshotImage.tables (i : SnapshotImage) : Bytes :=
  le 4 i.packs.length ++ (i.packs.flatMap textBytes ++
  (le 8 i.records.length ++ (i.records.flatMap RecordImage.bytes ++
  (le 4 i.assets.length ++ i.assets.flatMap (AssetImage.bytes i.version)))))

def SnapshotImage.body (i : SnapshotImage) : Bytes := i.header ++ i.tables

/-- The ledger it describes. -/
def SnapshotImage.ledger (i : SnapshotImage) : Index :=
  i.assets.foldl AssetImage.put (i.records.foldl (fun index r => index.upsert (r.entry i.packs))
    ⟨∅, ∅, ∅, i.layout, i.generation⟩)

structure SnapshotImage.Good (i : SnapshotImage) : Prop where
  version : i.version ≤ indexVersion
  flags : i.flags.length = 2
  reserved : i.reserved.length = 1
  created : i.created.length = 8
  growth : indexHeaderSize ≤ 34 + i.growth.length ∧ 34 + i.growth.length < 2 ^ 16
  generation : i.generation < 2 ^ 64
  packCount : i.packs.length < 2 ^ 32
  packs : ∀ p ∈ i.packs, (strBytes p).length < 2 ^ 16
  recordCount : i.records.length < 2 ^ 64
  records : ∀ r ∈ i.records, r.Good i.packs.length
  assetCount : i.assets.length < 2 ^ 32
  assets : ∀ a ∈ i.assets, a.Good

end Image

section Parts
variable {S : Type} {s t : S} {c d : Cursor} {what : String}

theorem ok_of_check {b : Bool} {e : StoreError} {u : Unit}
    (h : (check b e : Scan StoreError S Unit) s c = (.ok (u, d), t)) : b = true ∧ d = c ∧ t = s := by
  unfold check at h
  split at h
  · cases h
    exact ⟨‹_›, rfl, rfl⟩
  · cases h

theorem ok_of_readText {x : String} (h : (readText what : Scan StoreError S String) s c = (.ok (x, d), t)) :
    (strBytes x).length < 2 ^ 16 ∧ c.rest = textBytes x ++ d.rest ∧ t = s := by
  obtain ⟨len, c₁, s₁, readLen, rest⟩ := ok_of_bind h
  obtain ⟨bytes, c₂, s₂, readBytes, last⟩ := ok_of_bind rest
  obtain ⟨split, small, rfl⟩ := ok_of_num readLen
  obtain ⟨split', length, -, rfl⟩ := ok_of_take readBytes
  obtain ⟨decoded, rfl, rfl⟩ := ok_of_option last
  have bytesOf := strBytes_utf8 decoded
  refine ⟨?_, ?_, rfl⟩
  · rw [bytesOf, length]
    omega
  · rw [textBytes, bytesOf, length, split, split', List.append_assoc]

theorem ok_of_readHash {x : ChunkHash} (h : (readHash : Scan StoreError S ChunkHash) s c = (.ok (x, d), t)) :
    c.rest = x.1 ++ d.rest ∧ t = s := by
  obtain ⟨bytes, c₁, s₁, taken, last⟩ := ok_of_bind h
  obtain ⟨split, width, -, rfl⟩ := ok_of_take taken
  obtain ⟨found, rfl, rfl⟩ := ok_of_option last
  rw [hashOf, dif_pos width] at found
  cases found
  exact ⟨split, rfl⟩

theorem ok_of_readU32 {x : UInt32} (h : (readU32 : Scan StoreError S UInt32) s c = (.ok (x, d), t)) :
    c.rest = le 4 x.toNat ++ d.rest ∧ t = s := by
  obtain ⟨n, c₁, s₁, number, last⟩ := ok_of_bind h
  obtain ⟨split, small, rfl⟩ := ok_of_num number
  cases last
  refine ⟨?_, rfl⟩
  rw [split, UInt32.toNat_ofNat', Nat.mod_eq_of_lt (by omega)]

theorem readText_item {x : String} (h : (readText what : Scan StoreError S String) s c = (.ok (x, d), t)) :
    (strBytes x).length < 2 ^ 16 ∧ c.rest = textBytes x ++ d.rest :=
  ⟨(ok_of_readText h).1, (ok_of_readText h).2.1⟩

theorem readHex_item {x : String}
    (h : (do return toHex (← readHash) : Scan StoreError S String) s c = (.ok (x, d), t)) :
    IsHex x ∧ c.rest = (hexHash x).1 ++ d.rest := by
  obtain ⟨hash, c₁, s₁, one, last⟩ := ok_of_bind h
  obtain ⟨split, -⟩ := ok_of_readHash one
  cases last
  rw [hexHash_toHex]
  exact ⟨isHex_toHex hash, split⟩

theorem ok_of_readHexes {x : List String} (h : (readHexes what : Scan StoreError S _) s c = (.ok (x, d), t)) :
    ∃ hashes : List ChunkHash, hashes.length < 2 ^ 32 ∧
      c.rest = (le 4 hashes.length ++ hashes.flatMap Subtype.val) ++ d.rest ∧ x = hashes.map toHex ∧ t = s := by
  obtain ⟨n, c₁, s₁, readCount, h⟩ := ok_of_bind h
  obtain ⟨left, c₂, s₂, looked, h⟩ := ok_of_bind h
  obtain ⟨_, c₃, s₃, enough, last⟩ := ok_of_bind h
  obtain ⟨count_, few, rfl⟩ := ok_of_num readCount
  cases looked
  obtain ⟨-, rfl, rfl⟩ := ok_of_check enough
  obtain ⟨length, named, list_⟩ := ok_of_collect readHex_item last
  obtain ⟨-, same⟩ := Keeps.collect (I := (· = s₃)) (P := fun _ => True)
    (readHash_keeps.skip fun _ => .pure trivial) n _ _ _ _ _ rfl last
  refine ⟨x.map hexHash, by rw [List.length_map]; omega, ?_, ?_, same⟩
  · rw [count_, list_, List.length_map, List.flatMap_map, ← length, List.append_assoc]
  · rw [List.map_map]
    exact ((List.map_congr_left fun hex mem => toHex_hexHash (named hex mem)).trans (List.map_id x)).symm

theorem ok_of_readChunkRecord {packs : List String} {x : String × ChunkInfo}
    (h : (readChunkRecord 4 packs : Scan StoreError S _) s c = (.ok (x, d), t)) :
    ∃ r : RecordImage, r.Good packs.length ∧ c.rest = r.bytes ++ d.rest ∧ x = r.entry packs ∧ t = s := by
  obtain ⟨hash, c₁, s₁, readH, h⟩ := ok_of_bind h
  obtain ⟨lenRaw, c₂, s₂, readRaw, h⟩ := ok_of_bind h
  obtain ⟨lenStored, c₃, s₃, readStored, h⟩ := ok_of_bind h
  obtain ⟨flags, c₄, s₄, readFlags, h⟩ := ok_of_bind h
  obtain ⟨refcount, c₅, s₅, readCount, h⟩ := ok_of_bind h
  obtain ⟨since, c₆, s₆, readSince, h⟩ := ok_of_bind h
  obtain ⟨ord, c₇, s₇, readOrd, h⟩ := ok_of_bind h
  obtain ⟨offset, c₈, s₈, readOffset, h⟩ := ok_of_bind h
  obtain ⟨pack, c₉, s₉, readPack, last⟩ := ok_of_bind h
  obtain ⟨hash_, rfl⟩ := ok_of_readHash readH
  obtain ⟨raw_, rfl⟩ := ok_of_readU32 readRaw
  obtain ⟨stored_, rfl⟩ := ok_of_readU32 readStored
  obtain ⟨flags_, rfl⟩ := ok_of_readU32 readFlags
  obtain ⟨count_, countSmall, rfl⟩ := ok_of_num readCount
  obtain ⟨since_, sinceSmall, rfl⟩ := ok_of_num readSince
  obtain ⟨ord_, -, rfl⟩ := ok_of_num readOrd
  obtain ⟨offset_, offsetSmall, rfl⟩ := ok_of_num readOffset
  have bytes : c.rest = (RecordImage.mk hash lenRaw lenStored flags refcount since ord offset).bytes ++ c₈.rest := by
    rw [hash_, raw_, stored_, flags_, count_, since_, ord_, offset_]
    simp only [RecordImage.bytes, List.append_assoc]
  cases last
  refine ⟨⟨hash, lenRaw, lenStored, flags, refcount, since, ord, offset⟩, ?_⟩
  by_cases absent : ord = noPack
  · rw [if_pos (show ord = 256 ^ 4 - 1 from absent)] at readPack
    cases readPack
    exact ⟨⟨by omega, by omega, .inl absent, by omega⟩, bytes, by
      simp only [RecordImage.entry, if_pos absent, Option.isSome_none, Bool.false_eq_true, if_false], rfl⟩
  · rw [if_neg (show ¬ ord = 256 ^ 4 - 1 from absent)] at readPack
    obtain ⟨p, c₀, s₀, found, last⟩ := ok_of_bind readPack
    obtain ⟨listed, rfl, rfl⟩ := ok_of_option found
    cases last
    obtain ⟨inside, -⟩ := List.getElem?_eq_some_iff.mp listed
    exact ⟨⟨by omega, by omega, .inr inside, by omega⟩, bytes, by
      simp only [RecordImage.entry, if_neg absent, listed, Option.isSome_some, if_true], rfl⟩

theorem ok_of_decodeRecordRef {x : Option RecordRef}
    (h : (decodeRecordRef : Scan StoreError S _) s c = (.ok (x, d), t)) :
    (∀ place, x = some place → ∃ pack offset len, place = .pack pack offset len ∧ offset < 2 ^ 32 ∧ len < 2 ^ 32) ∧
      c.rest = encodeRecordRef x ++ d.rest ∧ t = s := by
  obtain ⟨tag, c₁, s₁, readTag, chosen⟩ := ok_of_bind h
  obtain ⟨split, -, rfl⟩ := ok_of_num readTag
  split at chosen
  · cases chosen
    exact ⟨nofun, split, rfl⟩
  · obtain ⟨pack, c₂, s₂, readPack, h⟩ := ok_of_bind chosen
    obtain ⟨offset, c₃, s₃, readOffset, h⟩ := ok_of_bind h
    obtain ⟨len, c₄, s₄, readLen, last⟩ := ok_of_bind h
    obtain ⟨pack_, rfl⟩ := ok_of_readHash readPack
    obtain ⟨offset_, offsetSmall, rfl⟩ := ok_of_num readOffset
    obtain ⟨len_, lenSmall, rfl⟩ := ok_of_num readLen
    cases last
    refine ⟨?_, ?_, rfl⟩
    · rintro place ⟨⟩
      exact ⟨pack, offset, len, rfl, by omega, by omega⟩
    · rw [split, pack_, offset_, len_]
      simp only [encodeRecordRef, List.append_assoc]
  · cases chosen

end Parts

section Whole
variable {s t : Index} {c d : Cursor} {version : Nat}

theorem ok_of_readAssetEntry (h : readAssetEntry version s c = (.ok ((), d), t)) :
    ∃ a : AssetImage, a.Good ∧ c.rest = a.bytes version ++ d.rest ∧ t = a.put s := by
  obtain ⟨name, c₁, s₁, readName, h⟩ := ok_of_bind h
  obtain ⟨hexes, c₂, s₂, readList, h⟩ := ok_of_bind h
  obtain ⟨place, c₃, s₃, readPlace, last⟩ := ok_of_bind h
  obtain ⟨short, name_, rfl⟩ := ok_of_readText readName
  obtain ⟨hashes, few, list_, rfl, rfl⟩ := ok_of_readHexes readList
  cases last
  have placed : (∀ p, place = some p → ∃ pack offset len, p = .pack pack offset len ∧ offset < 2 ^ 32 ∧ len < 2 ^ 32) ∧
      c₂.rest = (if version ≥ 2 then encodeRecordRef place else []) ++ d.rest ∧ s₃ = s₂ := by
    split at readPlace
    · rename_i newer
      rw [if_pos newer]
      exact ok_of_decodeRecordRef readPlace
    · rename_i older
      rw [if_neg older]
      cases readPlace
      exact ⟨nofun, rfl, rfl⟩
  obtain ⟨known, place_, rfl⟩ := placed
  refine ⟨⟨name, hashes, place⟩, ⟨short, few, known⟩, ?_, ?_⟩
  · rw [name_, list_, place_]
    simp only [AssetImage.bytes, List.append_assoc]
  · cases place <;> rfl

theorem upsertRecord_item {packs : List String} (h : (do
      let entry ← readChunkRecord 4 packs
      Scan.modify fun index : Index => index.upsert entry) s c = (.ok ((), d), t)) :
    ∃ r : RecordImage, r.Good packs.length ∧ c.rest = r.bytes ++ d.rest ∧ t = s.upsert (r.entry packs) := by
  obtain ⟨x, c₁, s₁, one, last⟩ := ok_of_bind h
  obtain ⟨r, good, split, rfl, rfl⟩ := ok_of_readChunkRecord one
  cases last
  exact ⟨r, good, split, rfl⟩

theorem ok_of_readTables {bodyLen : Nat} (h : readTables version bodyLen s c = (.ok ((), d), t)) :
    ∃ (packs : List String) (records : List RecordImage) (assets : List AssetImage),
      (packs.length < 2 ^ 32 ∧ ∀ p ∈ packs, (strBytes p).length < 2 ^ 16) ∧
      (records.length < 2 ^ 64 ∧ ∀ r ∈ records, r.Good packs.length) ∧
      (assets.length < 2 ^ 32 ∧ ∀ a ∈ assets, a.Good) ∧
      c.rest = (le 4 packs.length ++ (packs.flatMap textBytes ++
        (le 8 records.length ++ (records.flatMap RecordImage.bytes ++
        (le 4 assets.length ++ assets.flatMap (AssetImage.bytes version)))))) ++ d.rest ∧
      t = assets.foldl AssetImage.put (records.foldl (fun index r => index.upsert (r.entry packs)) s) := by
  obtain ⟨packCount, c₁, s₁, readCount, h⟩ := ok_of_bind h
  obtain ⟨_, c₂, s₂, bounded, h⟩ := ok_of_bind h
  obtain ⟨packs, c₃, s₃, readPacks, h⟩ := ok_of_bind h
  obtain ⟨chunkCount, c₄, s₄, readChunks, h⟩ := ok_of_bind h
  obtain ⟨left, c₅, s₅, looked, h⟩ := ok_of_bind h
  obtain ⟨_, c₆, s₆, enough, h⟩ := ok_of_bind h
  obtain ⟨_, c₇, s₇, entries, h⟩ := ok_of_bind h
  obtain ⟨assetCount, c₈, s₈, readAssets, last⟩ := ok_of_bind h
  obtain ⟨count_, fewPacks, rfl⟩ := ok_of_num readCount
  obtain ⟨-, rfl, rfl⟩ := ok_of_check bounded
  obtain ⟨packsLength, short, packs_⟩ := ok_of_collect readText_item readPacks
  obtain ⟨-, rfl⟩ := (readText_keeps (I := (· = s₂))).collect packCount _ _ _ _ _ rfl readPacks
  obtain ⟨chunks_, fewChunks, rfl⟩ := ok_of_num readChunks
  cases looked
  obtain ⟨-, rfl, rfl⟩ := ok_of_check enough
  obtain ⟨records, recordsLength, good, records_, rfl⟩ := ok_of_times (fun run => upsertRecord_item run) entries
  obtain ⟨assets__, fewAssets, rfl⟩ := ok_of_num readAssets
  obtain ⟨assets, assetsLength, good', assets_, rfl⟩ := ok_of_times (fun run => ok_of_readAssetEntry run) last
  subst packsLength recordsLength assetsLength
  refine ⟨packs, records, assets, ⟨by omega, short⟩, ⟨by omega, good⟩, ⟨by omega, good'⟩, ?_, rfl⟩
  rw [count_, packs_, chunks_, records_, assets__, assets_]
  simp only [List.append_assoc]

theorem ok_of_readIndex {bodyLen : Nat} {rest : Bytes} {p : Nat}
    (h : readIndex bodyLen (.empty .loose) ⟨p, rest⟩ = (.ok (version, d), t)) :
    ∃ i : SnapshotImage, i.Good ∧ indexMagic ++ rest = i.body ++ d.rest ∧ t = i.ledger ∧ version = i.version := by
  obtain ⟨version', c₁, s₁, readVersion, h⟩ := ok_of_bind h
  obtain ⟨_, c₂, s₂, supported, h⟩ := ok_of_bind h
  obtain ⟨headerSize, c₃, s₃, readHeader, h⟩ := ok_of_bind h
  obtain ⟨_, c₄, s₄, sized, h⟩ := ok_of_bind h
  obtain ⟨recordSize, c₅, s₅, readRecord, h⟩ := ok_of_bind h
  obtain ⟨_, c₆, s₆, fixed, h⟩ := ok_of_bind h
  obtain ⟨flags, c₇, s₇, readFlags, h⟩ := ok_of_bind h
  obtain ⟨layoutTag, c₈, s₈, readLayout, h⟩ := ok_of_bind h
  obtain ⟨layout, c₉, s₉, chosen, h⟩ := ok_of_bind h
  obtain ⟨reserved, d₁, u₁, readReserved, h⟩ := ok_of_bind h
  obtain ⟨generation, d₂, u₂, readGeneration, h⟩ := ok_of_bind h
  obtain ⟨created, d₃, u₃, readCreated, h⟩ := ok_of_bind h
  obtain ⟨growth, d₄, u₄, readGrowth, h⟩ := ok_of_bind h
  obtain ⟨_, d₅, u₅, started, h⟩ := ok_of_bind h
  obtain ⟨_, d₆, u₆, tables, last⟩ := ok_of_bind h
  obtain ⟨version_, -, rfl⟩ := ok_of_num readVersion
  obtain ⟨known, rfl, rfl⟩ := ok_of_check supported
  obtain ⟨header_, headerSmall, rfl⟩ := ok_of_num readHeader
  obtain ⟨bounds, rfl, rfl⟩ := ok_of_check sized
  obtain ⟨record_, -, rfl⟩ := ok_of_num readRecord
  obtain ⟨width, rfl, rfl⟩ := ok_of_check fixed
  obtain ⟨flags_, flagsLength, -, rfl⟩ := ok_of_take readFlags
  obtain ⟨layout_, -, rfl⟩ := ok_of_num readLayout
  have tagged : layoutTag = layoutByte layout ∧ c₉ = c₈ ∧ s₉ = .empty .loose := by
    split at chosen
    · cases chosen
      exact ⟨rfl, rfl, rfl⟩
    · cases chosen
      exact ⟨rfl, rfl, rfl⟩
    · cases chosen
  obtain ⟨rfl, rfl, rfl⟩ := tagged
  obtain ⟨reserved_, reservedLength, -, rfl⟩ := ok_of_take readReserved
  obtain ⟨generation_, generationSmall, rfl⟩ := ok_of_num readGeneration
  obtain ⟨created_, createdLength, -, rfl⟩ := ok_of_take readCreated
  obtain ⟨growth_, growthLength, -, rfl⟩ := ok_of_take readGrowth
  cases started
  obtain ⟨packs, records, assets, goodPacks, goodRecords, goodAssets, tables_, rfl⟩ := ok_of_readTables tables
  cases last
  have wide : indexHeaderSize ≤ headerSize := (of_decide_eq_true bounds).1
  have size : 34 + growth.length = headerSize := by
    rw [growthLength]
    rw [indexHeaderSize] at wide
    omega
  refine ⟨⟨version, flags, layout, reserved, generation, created, growth, packs, records, assets⟩, {
    version := of_decide_eq_true known
    flags := flagsLength
    reserved := reservedLength
    created := createdLength
    growth := by
      dsimp only
      rw [size]
      exact ⟨wide, by omega⟩
    generation := by
      dsimp only
      omega
    packCount := goodPacks.1
    packs := goodPacks.2
    recordCount := goodRecords.1
    records := goodRecords.2
    assetCount := goodAssets.1
    assets := goodAssets.2 }, ?_, rfl, rfl⟩
  rw [of_decide_eq_true width] at record_
  dsimp only at version_
  rw [version_, header_, record_, flags_, layout_, reserved_, generation_, created_, growth_, tables_, ← size]
  simp only [SnapshotImage.body, SnapshotImage.header, SnapshotImage.tables, List.append_assoc]

/-- What is accepted as a snapshot is a sealed image of the ledger it gives. -/
theorem ok_of_decodeIndexVersioned {env : Env} {bytes : Bytes} {R : Index}
    (h : decodeIndexVersioned env bytes = .ok (R, version)) :
    ∃ i : SnapshotImage, i.Good ∧ bytes = i.body ++ (env.hashChunk i.body).1 ∧ R = i.ledger ∧ version = i.version := by
  rw [decodeIndexVersioned] at h
  split at h
  · cases h
  rename_i long
  split at h
  · cases h
  rename_i sealed
  rw [Bool.not_eq_true, Bool.not_eq_false', indexSealHolds, if_neg long] at sealed
  have hashed := of_decide_eq_true sealed
  dsimp only at h
  split at h
  · cases h
  rename_i magic
  split at h
  · rename_i v c R' run
    split at h
    · rename_i whole
      cases h
      obtain ⟨i, good, split, ledger, same⟩ := ok_of_readIndex run
      rw [← not_ne_iff.mp magic, List.take_append_drop, whole, List.append_nil] at split
      refine ⟨i, good, ?_, ledger, same⟩
      rw [← split, hashed, List.take_append_drop]
    · cases h
  · cases h

end Whole

section Said
variable {packs : List String} {r : RecordImage} {i : SnapshotImage} {index : Index} {hex name : String}

theorem size_foldl_insert_le {V : Type} (l : List (String × V)) (m : ExtTreeMap String V) :
    (l.foldl (fun acc e => acc.insert e.1 e.2) m).size ≤ m.size + l.length := by
  induction l generalizing m with
  | nil => exact Nat.le_refl _
  | cons e l ih =>
      have one : (m.insert e.1 e.2).size ≤ m.size + 1 := ExtTreeMap.size_insert_le
      calc (l.foldl (fun acc e => acc.insert e.1 e.2) (m.insert e.1 e.2)).size
        _ ≤ (m.insert e.1 e.2).size + l.length := ih _
        _ ≤ m.size + (e :: l).length := by
          rw [List.length_cons]
          omega

theorem RecordImage.Good.fits (good : r.Good packs.length) (short : ∀ p ∈ packs, (strBytes p).length < 2 ^ 16) :
    (r.entry packs).2.Fits where
  refcount := good.refcount
  zeroSince z found := by
    have small := good.since
    simp only [RecordImage.entry] at found
    split at found
    · cases found
    · cases found
      rw [u64Max] at *
      omega
  packOffset o found := by
    simp only [RecordImage.entry] at found
    split at found
    · cases found
    · cases found
      exact good.offset
  pack p found := by
    simp only [RecordImage.entry] at found
    split at found
    · cases found
    · exact short p (List.mem_of_getElem? found)

theorem RecordImage.Good.placed (good : r.Good packs.length) : (r.entry packs).2.Placed := by
  simp only [ChunkInfo.Placed, RecordImage.entry]
  by_cases absent : r.ord = noPack
  · rw [if_pos absent, if_pos absent]
    rfl
  · have inside := good.ord.resolve_left absent
    rw [if_neg absent, if_neg absent, List.getElem?_eq_getElem inside]
    rfl

theorem put_fold (l : List AssetImage) (index : Index) :
    l.foldl AssetImage.put index = { index with
      assets := (l.map fun a => (a.name, a.hashes.map toHex)).foldl (fun acc e => acc.insert e.1 e.2) index.assets
      records := (l.filterMap fun a => a.place.map fun p => (a.name, p)).foldl (fun acc e => acc.insert e.1 e.2)
        index.records } := by
  induction l generalizing index with
  | nil => rfl
  | cons a l ih =>
      cases placed : a.place <;>
        simp only [List.foldl_cons, ih, AssetImage.put, placed, Index.setRecord, Index.setAsset, List.map_cons,
          List.filterMap_cons, Option.map_none, Option.map_some]

theorem SnapshotImage.ledger_eq (i : SnapshotImage) : i.ledger = {
    chunks := (i.records.map (RecordImage.entry i.packs)).foldl (fun acc e => acc.insert e.1 e.2) ∅
    assets := (i.assets.map fun a => (a.name, a.hashes.map toHex)).foldl (fun acc e => acc.insert e.1 e.2) ∅
    records := (i.assets.filterMap fun a => a.place.map fun p => (a.name, p)).foldl
      (fun acc e => acc.insert e.1 e.2) ∅
    layout := i.layout
    generation := i.generation } := by
  rw [SnapshotImage.ledger, put_fold, ← List.foldl_map (g := Index.upsert), upsert_fold]

theorem ledger_chunk {info : ChunkInfo} (found : i.ledger.chunks[hex]? = some info) :
    ∃ r ∈ i.records, r.entry i.packs = (hex, info) := by
  rw [i.ledger_eq] at found
  rcases foldl_insert_from found with mem | before
  · exact List.mem_map.mp mem
  · rw [ExtTreeMap.getElem?_empty] at before
    cases before

theorem ledger_asset {chunks : List String} (found : i.ledger.assets[name]? = some chunks) :
    ∃ a ∈ i.assets, a.name = name ∧ a.hashes.map toHex = chunks := by
  rw [i.ledger_eq] at found
  rcases foldl_insert_from found with mem | before
  · obtain ⟨a, listed, same⟩ := List.mem_map.mp mem
    cases same
    exact ⟨a, listed, rfl, rfl⟩
  · rw [ExtTreeMap.getElem?_empty] at before
    cases before

theorem ledger_record {place : RecordRef} (found : i.ledger.records[name]? = some place) :
    ∃ a ∈ i.assets, a.name = name ∧ a.place = some place := by
  rw [i.ledger_eq] at found
  rcases foldl_insert_from found with mem | before
  · obtain ⟨a, listed, same⟩ := List.mem_filterMap.mp mem
    obtain ⟨p, placed, same⟩ := Option.map_eq_some_iff.mp same
    cases same
    exact ⟨a, listed, rfl, placed⟩
  · rw [ExtTreeMap.getElem?_empty] at before
    cases before

/-- The packs of the ledger are among those of the table. -/
theorem ledger_packs_le (i : SnapshotImage) : i.ledger.packs.length ≤ i.packs.length := by
  have known : i.ledger.packs ⊆ i.packs := by
    intro p mem
    obtain ⟨info, listed, found⟩ := mem_packTable.mp mem
    obtain ⟨e, entry, rfl⟩ := List.mem_map.mp listed
    obtain ⟨r, -, same⟩ := ledger_chunk (mem_toList_iff.mp entry)
    rw [← show (r.entry i.packs).2 = e.2 from congrArg Prod.snd same] at found
    simp only [RecordImage.entry] at found
    split at found
    · cases found
    · exact List.mem_of_getElem? found
  exact ((packTable_nodup _).subperm known).length_le

/-- A ledger that was read from a snapshot can be said again. -/
theorem SnapshotImage.Good.fits (good : i.Good) : i.ledger.Fits where
  packs := (ledger_packs_le i).trans_lt good.packCount
  chunks := by
    have size := size_foldl_insert_le (i.records.map (RecordImage.entry i.packs)) ∅
    rw [ExtTreeMap.size_empty, Nat.zero_add, List.length_map] at size
    rw [i.ledger_eq]
    exact size.trans_lt good.recordCount
  assets := by
    have size := size_foldl_insert_le (i.assets.map fun a => (a.name, a.hashes.map toHex)) ∅
    rw [ExtTreeMap.size_empty, Nat.zero_add, List.length_map] at size
    rw [i.ledger_eq]
    exact size.trans_lt good.assetCount
  chunk hex info found := by
    obtain ⟨r, listed, same⟩ := ledger_chunk found
    have entry : (r.entry i.packs).2 = info := congrArg Prod.snd same
    exact entry ▸ (good.records r listed).fits good.packs
  asset name chunks found := by
    obtain ⟨a, listed, rfl, rfl⟩ := ledger_asset found
    rw [List.length_map]
    exact ⟨(good.assets a listed).name, (good.assets a listed).hashes⟩
  record name pack offset len found := by
    obtain ⟨a, listed, -, placed⟩ := ledger_record found
    obtain ⟨pack', offset', len', same, small⟩ := (good.assets a listed).place _ placed
    cases same
    exact small
  generation := by
    rw [i.ledger_eq]
    exact good.generation

theorem SnapshotImage.Good.canon (good : i.Good) : i.ledger.Canon where
  chunk hex info found := by
    obtain ⟨r, listed, same⟩ := ledger_chunk found
    have key : toHex r.hash = hex := congrArg Prod.fst same
    have entry : (r.entry i.packs).2 = info := congrArg Prod.snd same
    exact ⟨⟨r.hash, key⟩, entry ▸ (good.records r listed).placed⟩
  asset name chunks found hex mem := by
    obtain ⟨a, -, -, rfl⟩ := ledger_asset found
    obtain ⟨h, -, rfl⟩ := List.mem_map.mp mem
    exact isHex_toHex h

end Said
end Cavs
