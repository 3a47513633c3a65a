import Cavs.JournalApply

/-!
# The ledger snapshot

The whole ledger as one sealed file. What a snapshot says reads back as the
ledger it was made from, without the places of records that are not in a pack.
-/
namespace Cavs
open FileProg (Bytes)
open ByteScan
open Std (ExtTreeMap ExtTreeSet)

/-- `CAVSIDX1` -/
def indexMagic : Bytes := [67, 65, 86, 83, 73, 68, 88, 49]

def indexVersion : Nat := 2
def indexHeaderSize : Nat := 40
def indexRecordSize : Nat := 72

def layoutByte : StoreLayout → Nat
  | .loose => 0
  | .packfiles => 1

section Encode

def Index.packs (index : Index) : List String := packTable (index.chunks.toList.map Prod.snd)

def indexHeader (layout : StoreLayout) (generation now : Nat) : Bytes :=
  indexMagic ++ (le 2 indexVersion ++ (le 2 indexHeaderSize ++ (le 2 indexRecordSize ++
  (le 2 0 ++ (le 1 (layoutByte layout) ++ (le 1 0 ++ (le 8 generation ++ (le 8 now ++ le 6 0))))))))

def assetEntry (index : Index) (put : String × List String) : Bytes :=
  textBytes put.1 ++ (hexesBytes put.2 ++ encodeRecordRef index.records[put.1]?)

def Index.tables (index : Index) : Bytes :=
  le 4 index.packs.length ++ (index.packs.flatMap textBytes ++
  (le 8 index.chunks.size ++ (index.chunks.toList.flatMap (chunkRecord 4 index.packs) ++
  (le 4 index.assets.size ++ index.assets.toList.flatMap (assetEntry index)))))

def encodeIndex (env : Env) (index : Index) (now : Nat) : Bytes :=
  let body := indexHeader index.layout index.generation now ++ index.tables
  body ++ (env.hashChunk body).1

end Encode

section Decode

/-- Whether `bytes` is a whole snapshot whose seal matches its body. -/
def indexSealHolds (env : Env) (bytes : Bytes) : Bool :=
  if bytes.length < indexHeaderSize + 32 then false
  else (env.hashChunk (bytes.take (bytes.length - 32))).1 = bytes.drop (bytes.length - 32)

def decodeRecordRef {S : Type} : Scan StoreError S (Option RecordRef) := do
  let tag ← readNum 1
  match tag with
  | 0 => pure none
  | 1 => do
      let pack ← readHash
      let offset ← readNum 4
      let len ← readNum 4
      return some (.pack pack offset len)
  | _ => Scan.throw (corrupt "bad record location tag")

def readAssetEntry (version : Nat) : Scan StoreError Index Unit := do
  let name ← readText "asset name not utf-8"
  let hexes ← readHexes "asset chunk count exceeds file size"
  let ref ← (if version ≥ 2 then decodeRecordRef else pure none)
  Scan.modify fun index => match ref with
    | some at_ => (index.setRecord name at_).setAsset name hexes
    | none => index.setAsset name hexes

def readTables (version bodyLen : Nat) : Scan StoreError Index Unit := do
  let packCount ← readNum 4
  check (packCount ≤ bodyLen / 2) (corrupt "pack count exceeds file size")
  let packs ← Scan.collect packCount (readText "pack id not utf-8")
  let chunkCount ← readNum 8
  let left ← Scan.remaining
  check (chunkCount * indexRecordSize ≤ left) (corrupt "chunk count exceeds file size")
  Scan.times chunkCount (do
    let entry ← readChunkRecord 4 packs
    Scan.modify fun index => index.upsert entry)
  let assetCount ← readNum 4
  Scan.times assetCount (readAssetEntry version)

/-- The part after the magic, of a body of `bodyLen` bytes; returns the version. -/
def readIndex (bodyLen : Nat) : Scan StoreError Index Nat := do
  let version ← readNum 2
  check (version ≤ indexVersion) (corrupt
    s!"index version {version} was written by a newer CAVS; this build reads up to {indexVersion}")
  let headerSize ← readNum 2
  check (indexHeaderSize ≤ headerSize ∧ headerSize < bodyLen) (corrupt "bad header size")
  let recordSize ← readNum 2
  check (recordSize = indexRecordSize) (corrupt
    s!"record size {recordSize} unsupported (expected {indexRecordSize})")
  let _ ← Scan.take truncated 2
  let layout ← readNum 1
  let layout ← (match layout with
    | 0 => pure StoreLayout.loose
    | 1 => pure StoreLayout.packfiles
    | _ => Scan.throw (corrupt "bad layout"))
  let _ ← Scan.take truncated 1
  let generation ← readNum 8
  let _ ← Scan.take truncated 8
  let _ ← Scan.take truncated (headerSize - 34)
  Scan.modify fun index => { index with layout, generation }
  readTables version bodyLen
  return version

/-- Decode a snapshot and say which format version wrote it. -/
def decodeIndexVersioned (env : Env) (bytes : Bytes) : Except StoreError (Index × Nat) :=
  if bytes.length < indexHeaderSize + 32 then .error truncated
  else if !indexSealHolds env bytes then .error (corrupt "seal mismatch")
  else
    let body := bytes.take (bytes.length - 32)
    if body.take 8 ≠ indexMagic then .error (corrupt "bad magic")
    else match readIndex body.length (.empty .loose) ⟨8, body.drop 8⟩ with
      | (.ok (version, cursor), index) =>
          if cursor.rest = [] then .ok (index, version) else .error (corrupt "trailing bytes")
      | (.error e, _) => .error e

def decodeIndex (env : Env) (bytes : Bytes) : Except StoreError Index :=
  (decodeIndexVersioned env bytes).map Prod.fst

end Decode

/-- What a ledger must fit for a snapshot to say it: its counts, lengths and numbers. -/
structure Index.Fits (index : Index) : Prop where
  packs : index.packs.length < 2 ^ 32
  chunks : index.chunks.size < 2 ^ 64
  assets : index.assets.size < 2 ^ 32
  chunk : ∀ (hex : String) (info : ChunkInfo), index.chunks[hex]? = some info → info.Fits
  asset : ∀ (name : String) (chunks : List String), index.assets[name]? = some chunks →
    (strBytes name).length < 2 ^ 16 ∧ chunks.length < 2 ^ 32
  record : ∀ (name : String) (pack : ChunkHash) (offset len : Nat),
    index.records[name]? = some (.pack pack offset len) → offset < 2 ^ 32 ∧ len < 2 ^ 32
  generation : index.generation < 2 ^ 64

/-- The keys of a ledger are hex, its entries have an offset with each pack, and the
chunks of its assets are named in hex. -/
structure Index.Canon (index : Index) : Prop where
  chunk : ∀ (hex : String) (info : ChunkInfo), index.chunks[hex]? = some info → IsHex hex ∧ info.Placed
  asset : ∀ (name : String) (chunks : List String), index.assets[name]? = some chunks →
    ∀ hex ∈ chunks, IsHex hex

/-- The place of a record that a snapshot can name. -/
def packedRef : Option RecordRef → Option RecordRef
  | some (.pack pack offset len) => some (.pack pack offset len)
  | _ => none

section RoundTrip
variable {env : Env} {index : Index}

theorem mem_toList_iff {V : Type} {m : ExtTreeMap String V} {e : String × V} :
    e ∈ m.toList ↔ m[e.1]? = some e.2 := ExtTreeMap.mem_toList_iff_getElem?_eq_some

theorem toList_keys_nodup {V : Type} (m : ExtTreeMap String V) : (m.toList.map Prod.fst).Nodup := by
  have distinct := ExtTreeMap.distinct_keys_toList (t := m)
  rw [List.Nodup, List.pairwise_map]
  refine distinct.imp ?_
  rintro a b differ same
  exact differ (by rw [same]; exact Std.ReflCmp.compare_self)

/-- Folding the entries of a map into an empty one gives the map. -/
theorem foldl_insert_toList {V : Type} (m : ExtTreeMap String V) :
    m.toList.foldl (fun acc e => acc.insert e.1 e.2) ∅ = m := by
  refine ExtTreeMap.ext_getElem? fun k => ?_
  obtain ⟨set, left⟩ := foldl_keyed (fun (t : ExtTreeMap String V) (k : String) => t[k]?)
    Prod.fst (fun acc e => acc.insert e.1 e.2) (fun x _ => some x.2)
    (fun t x k => getElem?_insert_eq t x.1 k x.2) m.toList (toList_keys_nodup m) ∅ k
  cases found : m[k]? with
  | some v => exact set (k, v) (mem_toList_iff.mpr found) rfl
  | none =>
      refine (left ?_).trans (by simp)
      intro listed
      obtain ⟨e, he, rfl⟩ := List.mem_map.mp listed
      rw [mem_toList_iff, found] at he
      cases he

theorem decodeRecordRef_scans {S : Type} {s : S} {p : Nat} (ref : Option RecordRef)
    (placed : ∀ pack offset len, ref = some (.pack pack offset len) → offset < 2 ^ 32 ∧ len < 2 ^ 32) :
    Scans (decodeRecordRef : Scan StoreError S _) s p (encodeRecordRef ref) (packedRef ref) s := by
  have missing : Scans (decodeRecordRef : Scan StoreError S _) s p (le 1 0) none s :=
    (Scans.num (n := 0) (by decide)).bind_pure (Scans.pure none)
  match ref with
  | none => exact missing
  | some (.journal ..) => exact missing
  | some (.pack pack offset len) =>
      obtain ⟨ho, hl⟩ := placed pack offset len rfl
      refine (Scans.num (n := 1) (by decide)).bind ?_
      exact (readHash_scans pack).bind ((Scans.num (by omega)).bind
        ((Scans.num (by omega)).bind_pure (Scans.pure _)))

/-- What reading one asset entry does. -/
def entryStep (source index : Index) (put : String × List String) : Index :=
  match packedRef source.records[put.1]? with
  | some ref => (index.setRecord put.1 ref).setAsset put.1 put.2
  | none => index.setAsset put.1 put.2

theorem readAssetEntry_scans {source : Index} (fits : source.Fits) (canon : source.Canon)
    {put : String × List String} (mem : put ∈ source.assets.toList) (index : Index) (p : Nat) :
    Scans (readAssetEntry 2) index p (assetEntry source put) () (entryStep source index put) := by
  have found := mem_toList_iff.mp mem
  obtain ⟨name, few⟩ := fits.asset _ _ found
  refine (readText_scans name).bind ((readHexes_scans (canon.asset _ _ found) few).bind ?_)
  rw [if_pos (by decide)]
  exact (decodeRecordRef_scans _ (fits.record put.1)).bind_pure (.modify _)

/-- The ledger a snapshot gives back. -/
def Index.snapshot (index : Index) : Index :=
  { index with records := index.assets.toList.foldl (fun records put =>
      match packedRef index.records[put.1]? with
      | some ref => records.insert put.1 ref
      | none => records) ∅ }

theorem snapshot_records (name : String) :
    index.snapshot.records[name]? =
      if (index.assets[name]?).isSome then packedRef index.records[name]? else none := by
  obtain ⟨set, left⟩ := foldl_keyed (fun (t : ExtTreeMap String RecordRef) (k : String) => t[k]?)
    Prod.fst (fun records (put : String × List String) =>
      match packedRef index.records[put.1]? with
      | some ref => records.insert put.1 ref
      | none => records)
    (fun put old => match packedRef index.records[put.1]? with
      | some ref => some ref
      | none => old)
    (fun t put k => by
      cases packedRef index.records[put.1]? with
      | some ref => exact getElem?_insert_eq t put.1 k ref
      | none => simp only [ite_self]) index.assets.toList (toList_keys_nodup _) ∅ name
  cases found : index.assets[name]? with
  | some chunks =>
      refine (set (name, chunks) (mem_toList_iff.mpr found) rfl).trans ?_
      simp only [Option.isSome_some, if_true]
      cases packedRef index.records[name]? <;> simp
  | none =>
      refine (left ?_).trans (by simp)
      intro listed
      obtain ⟨e, he, rfl⟩ := List.mem_map.mp listed
      rw [mem_toList_iff, found] at he
      cases he

theorem entryStep_fold (l : List (String × List String)) (start : Index) :
    l.foldl (entryStep index) start = { start with
      assets := l.foldl (fun acc e => acc.insert e.1 e.2) start.assets
      records := l.foldl (fun records put =>
        match packedRef index.records[put.1]? with
        | some ref => records.insert put.1 ref
        | none => records) start.records } := by
  induction l generalizing start with
  | nil => rfl
  | cons put l ih =>
      cases found : packedRef index.records[put.1]? <;>
        simp only [List.foldl_cons, ih, entryStep, found, Index.setRecord, Index.setAsset]

theorem upsert_fold (l : List (String × ChunkInfo)) (start : Index) :
    l.foldl Index.upsert start =
      { start with chunks := l.foldl (fun acc e => acc.insert e.1 e.2) start.chunks } := by
  induction l generalizing start with
  | nil => rfl
  | cons e l ih => rw [List.foldl_cons, ih]; rfl

theorem readTables_scans (fits : index.Fits) (canon : index.Canon) {bodyLen : Nat}
    (whole : index.tables.length ≤ bodyLen) (p : Nat) :
    Scans (readTables 2 bodyLen) ⟨∅, ∅, ∅, index.layout, index.generation⟩ p index.tables
      () index.snapshot := by
  have entryFits : ∀ e ∈ index.chunks.toList, IsHex e.1 ∧ e.2.Placed ∧ e.2.Fits := by
    intro e he
    have found := mem_toList_iff.mp he
    exact ⟨(canon.chunk _ _ found).1, (canon.chunk _ _ found).2, fits.chunk _ _ found⟩
  have packsFit : ∀ q ∈ index.packs, (strBytes q).length < 2 ^ 16 := by
    intro q hq
    obtain ⟨info, hinfo, found⟩ := mem_packTable.mp hq
    obtain ⟨entry, hentry, rfl⟩ := List.mem_map.mp hinfo
    exact (entryFits entry hentry).2.2.pack q found
  have packs := fun (s : Index) => Scans.collect (s := s) (m := readText "pack id not utf-8")
    textBytes id index.packs fun q hq _ => readText_scans (packsFit q hq)
  have chunks : ∀ s p, Scans _ s p _ _ (index.chunks.toList.foldl Index.upsert s) := fun s p =>
    (Scans.times (chunkRecord 4 index.packs) index.chunks.toList
    (fun index _ entry => index.upsert entry)
    (m := do
      let entry ← readChunkRecord 4 index.packs
      Scan.modify fun index : Index => index.upsert entry)
    (fun e he s p => by
      obtain ⟨hex, placed, fit⟩ := entryFits e he
      refine (readChunkRecord_scans hex fit placed (fun q hq => ?_) fits.packs).bind_pure
        (.modify _)
      exact mem_packTable.mpr ⟨_, List.mem_map_of_mem he, hq⟩) s p).to (places_foldl ..)
  have assets : ∀ s p, Scans _ s p _ _ (index.assets.toList.foldl (entryStep index) s) := fun s p =>
    (Scans.times (assetEntry index) index.assets.toList (m := readAssetEntry 2)
    (fun s _ put => entryStep index s put)
    (fun put mem s p => readAssetEntry_scans fits canon mem s p) s p).to (places_foldl ..)
  have chunksSize : (index.chunks.toList.flatMap (chunkRecord 4 index.packs)).length =
      index.chunks.size * 72 := by
    rw [flatMap_length_const _ fun e _ => chunkRecord_length 4 _ e, ExtTreeMap.length_toList]
  have packsSize : index.packs.length * 2 ≤ (index.packs.flatMap textBytes).length := by
    induction index.packs with
    | nil => simp
    | cons q qs ih =>
        rw [List.flatMap_cons, List.length_append, List.length_cons, textBytes, List.length_append,
          le_length]
        omega
  refine (Scans.num fits.packs).bind ?_
  refine (check_scans (decide_eq_true ?_)).pure_bind ?_
  · rw [Index.tables, List.length_append, List.length_append] at whole
    omega
  refine (packs _ _).bind ?_
  rw [List.map_id]
  refine (Scans.num fits.chunks).bind (Scans.remaining fun r enough => ?_)
  refine (check_scans (decide_eq_true ?_)).pure_bind ?_
  · rw [List.length_append, chunksSize] at enough
    rw [indexRecordSize]
    omega
  rw [ExtTreeMap.length_toList] at chunks assets
  refine (chunks _ _).bind ((Scans.num fits.assets).bind ((assets _ _).to ?_))
  rw [upsert_fold, entryStep_fold]
  simp only [foldl_insert_toList, Index.snapshot]

theorem readIndex_scans (fits : index.Fits) (canon : index.Canon) {bodyLen now : Nat}
    (whole : indexHeaderSize + index.tables.length ≤ bodyLen) (p : Nat) :
    Scans (readIndex bodyLen) (.empty .loose) p
      ((indexHeader index.layout index.generation now).drop 8 ++ index.tables) 2 index.snapshot := by
  have rest : (indexHeader index.layout index.generation now).drop 8 = le 2 indexVersion ++
      (le 2 indexHeaderSize ++ (le 2 indexRecordSize ++ (le 2 0 ++
      (le 1 (layoutByte index.layout) ++ (le 1 0 ++ (le 8 index.generation ++
      (le 8 now ++ le 6 0))))))) := List.drop_left' rfl
  have some : 0 < index.tables.length := by
    rw [Index.tables, List.length_append, le_length]; omega
  have size : indexHeaderSize = 40 := rfl
  rw [rest]
  simp only [List.append_assoc]
  refine (Scans.num (n := indexVersion) (by decide)).bind ((check_scans (by decide)).pure_bind ?_)
  refine (Scans.num (n := indexHeaderSize) (by decide)).bind
    ((check_scans (decide_eq_true ⟨le_refl _, by omega⟩)).pure_bind ?_)
  refine (Scans.num (n := indexRecordSize) (by decide)).bind ((check_scans (by decide)).pure_bind ?_)
  refine (Scans.take (le_length ..)).bind ?_
  refine (Scans.num (by cases index.layout <;> decide)).bind ?_
  refine Scans.pure_bind (x := index.layout) (t := Index.empty .loose) ?_ ?_
  · cases index.layout <;> exact Scans.pure _
  refine (Scans.take (le_length ..)).bind ((Scans.num fits.generation).bind ?_)
  refine (Scans.take (le_length ..)).bind ((Scans.take (le_length ..)).bind ?_)
  refine (Scans.modify _).pure_bind ?_
  exact (readTables_scans fits canon (by omega) _).bind_pure (Scans.pure _)

@[simp] theorem indexHeader_length (layout : StoreLayout) (generation now : Nat) :
    (indexHeader layout generation now).length = 40 := by
  simp [indexHeader, indexMagic]

theorem encodeIndex_length (now : Nat) :
    (encodeIndex env index now).length = 72 + index.tables.length := by
  rw [encodeIndex, List.length_append, List.length_append, indexHeader_length, (env.hashChunk _).2]
  omega

theorem encodeIndex_front (now : Nat) :
    (encodeIndex env index now).take ((encodeIndex env index now).length - 32) =
      indexHeader index.layout index.generation now ++ index.tables := by
  rw [encodeIndex_length, encodeIndex]
  refine List.take_left' ?_
  rw [List.length_append, indexHeader_length]
  omega

theorem indexSealHolds_encodeIndex (now : Nat) : indexSealHolds env (encodeIndex env index now) := by
  have back : (encodeIndex env index now).drop ((encodeIndex env index now).length - 32) =
      (env.hashChunk (indexHeader index.layout index.generation now ++ index.tables)).1 := by
    rw [encodeIndex_length, encodeIndex]
    refine List.drop_left' ?_
    rw [List.length_append, indexHeader_length]
    omega
  rw [indexSealHolds, if_neg (by rw [encodeIndex_length, indexHeaderSize]; omega), encodeIndex_front,
    back]
  exact decide_eq_true rfl

/-- A snapshot reads back as the ledger it was made from. -/
theorem decodeIndexVersioned_encodeIndex (fits : index.Fits) (canon : index.Canon) (now : Nat) :
    decodeIndexVersioned env (encodeIndex env index now) = .ok (index.snapshot, 2) := by
  have scans := @readIndex_scans _ fits canon (indexHeader index.layout index.generation now ++
    index.tables).length now (by rw [List.length_append, indexHeader_length, indexHeaderSize]) 8
  have magic : (indexHeader index.layout index.generation now ++ index.tables).take 8 = indexMagic :=
    rfl
  have rest : (indexHeader index.layout index.generation now ++ index.tables).drop 8 =
      (indexHeader index.layout index.generation now).drop 8 ++ index.tables :=
    List.drop_append_of_le_length (by simp)
  rw [decodeIndexVersioned, if_neg (by rw [encodeIndex_length, indexHeaderSize]; omega),
    indexSealHolds_encodeIndex, encodeIndex_front]
  simp only [Bool.not_true, Bool.false_eq_true, if_false, magic, ne_eq, not_true_eq_false, rest,
    scans.whole, if_true]

end RoundTrip
end Cavs
