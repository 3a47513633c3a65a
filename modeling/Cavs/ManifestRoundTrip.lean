import Cavs.ManifestV2Codec

/-!
# Which binary manifests are read back

The decoder lets a compressed section expand a hundredfold at most; the encoder knows of no
such bound. A manifest is read back exactly when none of its sections compresses better.
-/
namespace Cavs.ManifestV2
open FileProg (Bytes)
open ByteScan
open Std (ExtTreeMap)
open Dictionary (build build_of intern internAll)
open List (append_assoc append_nil flatMap_cons flatMap_nil length_append length_cons length_nil length_replicate
  mem_cons mem_cons_of_mem mem_cons_self mem_map nil_append replicate)

section Table
variable {p : Nat}

def refAt (offset : Nat) (s : StoredSection) : SectionRef :=
  ⟨s.kind, s.compression, offset, s.bytes.length, s.rawLen, s.hash⟩

def refsFrom : (offset : Nat) → List StoredSection → List SectionRef
  | _, [] => []
  | offset, s :: rest => refAt offset s :: refsFrom (offset + s.bytes.length) rest

theorem takeByte_scans (x : UInt8) : Scans (takeNum 1) () p [x] x.toNat () := by
  have small : x.toNat < 256 ^ 1 := x.toNat_lt
  have read := takeNum_scans (p := p) small
  rwa [show le 1 x.toNat = [x] by simp [le]] at read

theorem takeSectionRef_scans {s : StoredSection} {offset : Nat} (kind : s.kind < 2 ^ 64) (start : offset < 2 ^ 64)
    (stored : s.bytes.length < 2 ^ 64) (raw : s.rawLen < 2 ^ 64) :
    Scans takeSectionRef () p (tableRow s offset) (refAt offset s) () := by
  refine (readVaruint_scans kind).bind ((takeByte_scans s.compression).bind ((readVaruint_scans start).bind ?_))
  refine (readVaruint_scans stored).bind ((readVaruint_scans raw).bind ((takeHash_scans s.hash).bind_pure ?_))
  rw [UInt8.ofNat_toNat]
  exact .pure _

theorem sectionTable_scans {stored : List StoredSection} {offset : Nat}
    (small : ∀ s ∈ stored, s.kind < 2 ^ 64 ∧ s.rawLen < 2 ^ 64)
    (near : offset + (stored.flatMap StoredSection.bytes).length < 2 ^ 64) :
    Scans (Scan.collect stored.length takeSectionRef) () p (sectionTable offset stored) (refsFrom offset stored) () := by
  induction stored generalizing offset p with
  | nil => exact .pure []
  | cons s stored ih =>
      rw [flatMap_cons, length_append] at near
      obtain ⟨kind, raw⟩ := small s mem_cons_self
      refine (takeSectionRef_scans kind (by omega) (by omega) raw).bind ?_
      refine (ih (fun s mem => small s (mem_cons_of_mem _ mem)) (by omega)).bind_pure (.pure _)

/-- The bytes between the magic and the data. -/
def headBytes (stored : List StoredSection) : Bytes :=
  le 2 versionMajor ++ (le 2 versionMinor ++ (le 4 0 ++ (le 1 hashAlgBlake3 ++
    (writeVaruint stored.length ++ sectionTable 0 stored))))

theorem manifestBytes_eq (stored : List StoredSection) :
    manifestBytes stored = manifestMagic ++ (headBytes stored ++ stored.flatMap StoredSection.bytes) := by
  simp only [manifestBytes, headBytes, append_assoc]

theorem readTable_scans {stored : List StoredSection} (few : stored.length ≤ maxSectionCount)
    (small : ∀ s ∈ stored, s.kind < 2 ^ 64 ∧ s.rawLen < 2 ^ 64)
    (near : (stored.flatMap StoredSection.bytes).length < 2 ^ 64) :
    Scans readTable () p (headBytes stored) (refsFrom 0 stored) () := by
  have count : maxSectionCount < 2 ^ 64 := by decide
  refine (takeNum_scans (by decide)).bind ((takeNum_scans (by decide)).bind ?_)
  rw [if_neg (by decide)]
  refine (takeNum_scans (by decide)).bind ((takeNum_scans (by decide)).bind ?_)
  rw [if_neg (by decide)]
  refine (readVaruint_scans (by omega)).bind ?_
  rw [if_neg (by omega)]
  exact sectionTable_scans small (by omega)

end Table

section Opening
variable {env : ContainerEnv} {kind : Nat} {raw : Bytes} {s : StoredSection}

/-- If a raw section is stored compressed, the decoder lets it expand that far. -/
def Unpacks (env : ContainerEnv) (raw : Bytes) : Prop :=
  ∀ compressed, compressMinSection ≤ raw.length → env.compress sectionZstdLevel raw = .ok compressed →
    compressed.length < raw.length →
      raw.length ≤ maxSectionRaw ∧ raw.length ≤ compressed.length * maxDecompressRatio

theorem storeSection_ok (stored : storeSection env kind raw = .ok s) :
    s.kind = kind ∧ s.rawLen = raw.length ∧ s.hash = env.hashChunk raw ∧
      ((s.compression = compressionNone ∧ s.bytes = raw ∧ Unpacks env raw) ∨
        (s.compression = compressionZstd ∧ compressMinSection ≤ raw.length ∧
          env.compress sectionZstdLevel raw = .ok s.bytes ∧ s.bytes.length < raw.length)) := by
  unfold storeSection at stored
  split at stored
  · rename_i large
    cases packed : env.compress sectionZstdLevel raw with
    | error e =>
        rw [packed] at stored
        cases stored
    | ok compressed =>
        simp only [packed] at stored
        split at stored
        · rename_i smaller
          cases stored
          exact ⟨rfl, rfl, rfl, .inr ⟨rfl, large, rfl, smaller⟩⟩
        · rename_i larger
          cases stored
          refine ⟨rfl, rfl, rfl, .inl ⟨rfl, rfl, ?_⟩⟩
          intro c _ again smaller
          rw [packed] at again
          cases again
          exact absurd smaller larger
  · rename_i little
    cases stored
    refine ⟨rfl, rfl, rfl, .inl ⟨rfl, rfl, ?_⟩⟩
    intro c large
    exact absurd large little

/-- A section that unpacks is short. -/
theorem storeSection_short (stored : storeSection env kind raw = .ok s) (unpacks : Unpacks env raw)
    (small : s.bytes.length ≤ maxManifestBytes) : raw.length ≤ maxSectionRaw := by
  obtain ⟨-, -, -, ⟨-, same, -⟩ | ⟨-, large, packed, smaller⟩⟩ := storeSection_ok stored
  · rw [same] at small
    exact small
  · exact (unpacks s.bytes large packed smaller).1

variable {front back : Bytes}

variable (env front back) in
theorem openSection_middle (s : StoredSection) :
    openSection env (front ++ (s.bytes ++ back)) (refAt front.length s) =
      if s.rawLen > maxSectionRaw then .error (.outOfBounds "section raw length")
      else (do
        let raw ← unpackSection env (refAt front.length s) s.bytes
        if env.hashChunk raw ≠ s.hash then .error (.sectionHashMismatch s.kind) else .ok raw) := by
  have inside : ¬ ((refAt front.length s).offset > (front ++ (s.bytes ++ back)).length ∨
      (refAt front.length s).storedLen > (front ++ (s.bytes ++ back)).length - (refAt front.length s).offset) := by
    simp only [refAt, length_append]
    omega
  have place : ((front ++ (s.bytes ++ back)).drop (refAt front.length s).offset).take (refAt front.length s).storedLen =
      s.bytes := by
    simp [refAt]
  rw [openSection, if_neg inside, place]
  rfl

theorem unpackSection_ok (offset : Nat) (stored : storeSection env kind raw = .ok s) (unpacks : Unpacks env raw)
    (short : raw.length ≤ maxSectionRaw) : unpackSection env (refAt offset s) s.bytes = .ok raw := by
  obtain ⟨-, rawLen, -, ⟨plain, same, -⟩ | ⟨zstd, large, packed, smaller⟩⟩ := storeSection_ok stored
  · have lengths : ¬ (refAt offset s).rawLen ≠ (refAt offset s).storedLen := by
      simp [refAt, rawLen, same]
    rw [unpackSection, if_pos (show (refAt offset s).compression = _ from plain), if_neg lengths, same]
  · obtain ⟨-, ratio⟩ := unpacks s.bytes large packed smaller
    have other : ¬ (refAt offset s).compression = compressionNone := by
      simp only [refAt, zstd]
      decide
    have limit : ¬ (refAt offset s).rawLen > expandLimit (refAt offset s).storedLen := by
      have bound : maxSectionRaw < 2 ^ 64 - 1 := by decide
      simp only [refAt, rawLen, expandLimit]
      omega
    have law := env.decompress_compress _ _ _ _ packed le_rfl
    have length : ¬ raw.length ≠ (refAt offset s).rawLen := not_not.mpr rawLen.symm
    rw [unpackSection, if_neg other, if_pos (show (refAt offset s).compression = _ from zstd), if_neg limit]
    rw [← rawLen] at law
    rw [show env.decompress (refAt offset s).rawLen s.bytes = .ok raw from law]
    exact if_neg length

/-- A section that expands too far is refused, by its length or by its ratio. -/
theorem unpackSection_fails (offset : Nat) (stored : storeSection env kind raw = .ok s) (stuck : ¬ Unpacks env raw)
    (short : raw.length ≤ maxSectionRaw) : ∃ e, unpackSection env (refAt offset s) s.bytes = .error e := by
  obtain ⟨-, rawLen, -, ⟨-, -, unpacks⟩ | ⟨zstd, large, packed, smaller⟩⟩ := storeSection_ok stored
  · exact absurd unpacks stuck
  · have other : ¬ (refAt offset s).compression = compressionNone := by
      simp only [refAt, zstd]
      decide
    have limit : (refAt offset s).rawLen > expandLimit (refAt offset s).storedLen := by
      simp only [refAt, rawLen, expandLimit]
      by_contra within
      refine stuck fun c _ again _ => ?_
      rw [packed] at again
      cases again
      omega
    rw [unpackSection, if_neg other, if_pos (show (refAt offset s).compression = _ from zstd), if_pos limit]
    exact ⟨_, rfl⟩

theorem openSection_ok (stored : storeSection env kind raw = .ok s) (unpacks : Unpacks env raw)
    (small : s.bytes.length ≤ maxManifestBytes) :
    openSection env (front ++ (s.bytes ++ back)) (refAt front.length s) = .ok raw := by
  have short := storeSection_short stored unpacks small
  obtain ⟨-, rawLen, hash, -⟩ := storeSection_ok stored
  rw [openSection_middle, rawLen, if_neg (by omega), unpackSection_ok _ stored unpacks short]
  exact if_neg (not_not.mpr hash.symm)

theorem openSection_fails (stored : storeSection env kind raw = .ok s) (stuck : ¬ Unpacks env raw) :
    ∃ e, openSection env (front ++ (s.bytes ++ back)) (refAt front.length s) = .error e := by
  obtain ⟨-, rawLen, -, -⟩ := storeSection_ok stored
  rw [openSection_middle, rawLen]
  by_cases long : raw.length > maxSectionRaw
  · rw [if_pos long]
    exact ⟨_, rfl⟩
  · obtain ⟨e, failed⟩ := unpackSection_fails front.length stored stuck (by omega)
    rw [if_neg long, failed]
    exact ⟨e, rfl⟩

theorem Slots.get_put {slots : Slots} {k k' : Nat} (other : k' ≠ k) : (slots.put k raw).get k' = slots.get k' := by
  simp only [Slots.get, Slots.put]
  split_ifs <;> simp_all

variable {raws : List (Nat × Bytes)} {stored : List StoredSection}

def fill (slots : Slots) (raws : List (Nat × Bytes)) : Slots := raws.foldl (fun slots r => slots.put r.1 r.2) slots

/-- The sections of a file are opened to what they were stored from, or one of them fails. -/
theorem openSections_stored {slots : Slots} (hstored : storeSections env raws = .ok stored)
    (kinds : (raws.map Prod.fst).Nodup) (free : ∀ r ∈ raws, slots.get r.1 = some none)
    (small : (front ++ stored.flatMap StoredSection.bytes).length ≤ maxManifestBytes) :
    ((∀ r ∈ raws, Unpacks env r.2) → openSections env (front ++ stored.flatMap StoredSection.bytes)
        (refsFrom front.length stored) slots = .ok (fill slots raws)) ∧
      ((¬ ∀ r ∈ raws, Unpacks env r.2) → ∃ e, openSections env (front ++ stored.flatMap StoredSection.bytes)
        (refsFrom front.length stored) slots = .error e) := by
  induction raws generalizing stored slots front with
  | nil =>
      cases hstored
      exact ⟨fun _ => rfl, fun none => absurd (fun r mem => by cases mem) none⟩
  | cons r raws ih =>
      obtain ⟨kind, raw⟩ := r
      obtain ⟨s, first, hstored⟩ := ok_of_bindE hstored
      obtain ⟨rest, later, same⟩ := ok_of_bindE hstored
      cases same
      obtain ⟨hkind, -⟩ := storeSection_ok first
      rw [List.map_cons, List.nodup_cons] at kinds
      have slot : slots.get (refAt front.length s).kind = some none := by
        change slots.get s.kind = some none
        rw [hkind]
        exact free (kind, raw) mem_cons_self
      have free' : ∀ r ∈ raws, (slots.put kind raw).get r.1 = some none := by
        intro r mem
        have other : r.1 ≠ kind := by
          intro same
          rw [← same] at kinds
          exact kinds.1 (mem_map.mpr ⟨r, mem, rfl⟩)
        rw [Slots.get_put other]
        exact free r (mem_cons_of_mem _ mem)
      rw [flatMap_cons] at small ⊢
      have size : s.bytes.length ≤ maxManifestBytes := by
        simp only [length_append] at small
        omega
      have next := @ih (front ++ s.bytes) rest (slots.put kind raw) later kinds.2 free' (by rwa [append_assoc])
      rw [append_assoc, length_append] at next
      rw [refsFrom, openSections]
      simp only [slot]
      have kindEq : (refAt front.length s).kind = kind := hkind
      rw [kindEq]
      constructor
      · intro all
        rw [openSection_ok first (all (kind, raw) mem_cons_self) size]
        exact next.1 fun r mem => all r (mem_cons_of_mem _ mem)
      · intro some
        by_cases here : Unpacks env raw
        · rw [openSection_ok first here size]
          refine next.2 fun all => some ?_
          intro r mem
          rcases mem_cons.mp mem with rfl | mem
          · exact here
          · exact all r mem
        · obtain ⟨e, failed⟩ := @openSection_fails env kind raw s front (rest.flatMap StoredSection.bytes) first here
          exact ⟨e, by rw [failed]; rfl⟩

end Opening

section Whole
variable {env : ContainerEnv} {manifest : Manifest} {locations : Option ChunkLocations} {bytes : Bytes}
  {raws : List (Nat × Bytes)} {stored : List StoredSection}

def locationOf (locations : Option ChunkLocations) (s : String) : Option ChunkLocation := locations.bind fun l => l[s]?

theorem encode_ok (encoded : encodeManifestV2WithLocations env manifest locations = .ok bytes) :
    ∃ raws stored, rawSections manifest locations = .ok raws ∧ (∀ r ∈ raws, r.2.length < maxVecLen) ∧
      storeSections env raws = .ok stored ∧ bytes = manifestBytes stored := by
  obtain ⟨raws, hraws, encoded⟩ := Outcome.ok_of_bindO encoded
  split at encoded
  · rename_i short
    obtain ⟨stored, hstored, same⟩ := Outcome.ok_of_bindO encoded
    cases same
    have raw_ok : rawSections manifest locations = .ok raws := by
      cases h : rawSections manifest locations with
      | error e => simp [h, Outcome.ofExcept] at hraws
      | ok r => simpa [h, Outcome.ofExcept] using hraws
    have stored_ok : storeSections env raws = .ok stored := by
      cases h : storeSections env raws with
      | error e => simp [h, Outcome.ofExcept] at hstored
      | ok r => simpa [h, Outcome.ofExcept] using hstored
    exact ⟨raws, stored, raw_ok, by simpa using short, stored_ok, rfl⟩
  · cases encoded

theorem encode_of (hraws : rawSections manifest locations = .ok raws) (fits : ∀ r ∈ raws, r.2.length < maxVecLen)
    (hstored : storeSections env raws = .ok stored) :
    encodeManifestV2WithLocations env manifest locations = .ok (manifestBytes stored) := by
  have all : (raws.all fun s => s.2.length < maxVecLen) = true := by simpa using fits
  rw [encodeManifestV2WithLocations, hraws]
  simp only [Outcome.ofExcept, Outcome.ok_bind, all, if_true, hstored]
  rfl

/-- The sections of a manifest, with what they are made of. -/
theorem rawSections_ok (hraws : rawSections manifest locations = .ok raws) :
    ∃ dict assetInfo chunkPlan, build manifest = .ok dict ∧ encodeAssetInfo manifest = .ok assetInfo ∧
      encodeChunkPlan dict manifest = .ok chunkPlan ∧
      raws = [(sectionAssetInfo, assetInfo), (sectionChunkPlan, chunkPlan), (sectionChunkDictionary, encodeDictionary dict)] ++
        (locations.bind (encodeLocations dict)).toList.map fun bytes => (sectionChunkLocations, bytes) := by
  obtain ⟨dict, built, hraws⟩ := ok_of_bindE hraws
  obtain ⟨assetInfo, asset, hraws⟩ := ok_of_bindE hraws
  obtain ⟨chunkPlan, plan, same⟩ := ok_of_bindE hraws
  cases same
  exact ⟨dict, assetInfo, chunkPlan, built, asset, plan, rfl⟩

theorem rawSections_kinds (hraws : rawSections manifest locations = .ok raws) :
    (raws.map Prod.fst).Nodup ∧ raws.length ≤ maxSectionCount ∧ ∀ r ∈ raws, Slots.empty.get r.1 = some none ∧ r.1 < 2 ^ 64 := by
  obtain ⟨dict, assetInfo, chunkPlan, -, -, -, rfl⟩ := rawSections_ok hraws
  cases locations.bind (encodeLocations dict) with
  | none =>
      refine ⟨by simp [sectionAssetInfo, sectionChunkPlan, sectionChunkDictionary], by simp [maxSectionCount], ?_⟩
      simp [Slots.get, Slots.empty, sectionAssetInfo, sectionChunkPlan, sectionChunkDictionary]
  | some b =>
      refine ⟨by simp [sectionAssetInfo, sectionChunkPlan, sectionChunkDictionary, sectionChunkLocations],
        by simp [maxSectionCount], ?_⟩
      simp [Slots.get, Slots.empty, sectionAssetInfo, sectionChunkPlan, sectionChunkDictionary, sectionChunkLocations]

theorem storeSections_each (hstored : storeSections env raws = .ok stored) :
    stored.length = raws.length ∧ ∀ s ∈ stored, ∃ r ∈ raws, storeSection env r.1 r.2 = .ok s := by
  induction raws generalizing stored with
  | nil =>
      cases hstored
      exact ⟨rfl, fun s mem => by cases mem⟩
  | cons r raws ih =>
      obtain ⟨s, first, hstored⟩ := ok_of_bindE hstored
      obtain ⟨rest, later, same⟩ := ok_of_bindE hstored
      cases same
      obtain ⟨length, each⟩ := ih later
      refine ⟨by rw [length_cons, length_cons, length], ?_⟩
      intro t mem
      rcases mem_cons.mp mem with rfl | mem
      · exact ⟨r, mem_cons_self, first⟩
      · obtain ⟨q, inside, from_⟩ := each t mem
        exact ⟨q, mem_cons_of_mem _ inside, from_⟩

theorem storeSections_of (hstored : storeSections env raws = .ok stored) :
    ∀ r ∈ raws, ∃ s ∈ stored, storeSection env r.1 r.2 = .ok s := by
  induction raws generalizing stored with
  | nil => exact fun r mem => by cases mem
  | cons r raws ih =>
      obtain ⟨s, first, hstored⟩ := ok_of_bindE hstored
      obtain ⟨rest, later, same⟩ := ok_of_bindE hstored
      cases same
      intro q mem
      rcases mem_cons.mp mem with rfl | mem
      · exact ⟨s, mem_cons_self, first⟩
      · obtain ⟨t, inside, from_⟩ := ih later q mem
        exact ⟨t, mem_cons_of_mem _ inside, from_⟩

theorem storeSections_total (each : ∀ r ∈ raws, ∃ s, storeSection env r.1 r.2 = .ok s) :
    ∃ stored, storeSections env raws = .ok stored := by
  induction raws with
  | nil => exact ⟨[], rfl⟩
  | cons r raws ih =>
      obtain ⟨s, first⟩ := each r mem_cons_self
      obtain ⟨rest, later⟩ := ih fun r mem => each r (mem_cons_of_mem _ mem)
      exact ⟨s :: rest, by simp only [storeSections, first, later, bind, Except.bind]; rfl⟩

/-- Storing a section never makes it longer. -/
theorem storeSections_length (hstored : storeSections env raws = .ok stored) :
    (stored.flatMap StoredSection.bytes).length ≤ (raws.flatMap Prod.snd).length := by
  induction raws generalizing stored with
  | nil =>
      cases hstored
      exact le_rfl
  | cons r raws ih =>
      obtain ⟨s, first, hstored⟩ := ok_of_bindE hstored
      obtain ⟨rest, later, same⟩ := ok_of_bindE hstored
      cases same
      have tail := ih later
      have head : s.bytes.length ≤ r.2.length := by
        obtain ⟨-, -, -, ⟨-, same, -⟩ | ⟨-, -, -, smaller⟩⟩ := storeSection_ok first
        · rw [same]
        · exact smaller.le
      simp only [flatMap_cons, length_append]
      omega

/-- The head of a file is read, and its sections are what is decoded. -/
theorem decode_manifestBytes (hraws : rawSections manifest locations = .ok raws)
    (fits : ∀ r ∈ raws, r.2.length < maxVecLen) (hstored : storeSections env raws = .ok stored)
    (small : (manifestBytes stored).length ≤ maxManifestBytes) :
    decodeManifestV2Full env (manifestBytes stored) = (do
      decodeSlots (← openSections env (stored.flatMap StoredSection.bytes) (refsFrom 0 stored) .empty)) := by
  obtain ⟨-, count, kinds⟩ := rawSections_kinds hraws
  obtain ⟨length, each⟩ := storeSections_each hstored
  have near : maxManifestBytes < 2 ^ 64 := by decide
  have vec : maxVecLen < 2 ^ 64 := by decide
  rw [manifestBytes_eq] at small ⊢
  have data : (stored.flatMap StoredSection.bytes).length < 2 ^ 64 := by
    simp only [length_append] at small
    omega
  have widths : ∀ s ∈ stored, s.kind < 2 ^ 64 ∧ s.rawLen < 2 ^ 64 := by
    intro s mem
    obtain ⟨r, inside, from_⟩ := each s mem
    obtain ⟨kind, rawLen, -⟩ := storeSection_ok from_
    have := fits r inside
    rw [kind, rawLen]
    exact ⟨(kinds r inside).2, by omega⟩
  have table := readTable_scans (p := 0) (by omega) widths data (stored.flatMap StoredSection.bytes)
  rw [decodeManifestV2Full, if_neg (by omega), List.take_left, if_neg (not_not.mpr rfl), List.drop_left, table]

/-- A file with a section that expands too far is refused. -/
theorem decode_fails (hraws : rawSections manifest locations = .ok raws)
    (fits : ∀ r ∈ raws, r.2.length < maxVecLen) (hstored : storeSections env raws = .ok stored)
    (small : (manifestBytes stored).length ≤ maxManifestBytes) (stuck : ¬ ∀ r ∈ raws, Unpacks env r.2) :
    ∃ e, decodeManifestV2Full env (manifestBytes stored) = .error e := by
  obtain ⟨nodup, -, kinds⟩ := rawSections_kinds hraws
  have data : (stored.flatMap StoredSection.bytes).length ≤ maxManifestBytes := by
    rw [manifestBytes_eq] at small
    simp only [length_append] at small
    omega
  obtain ⟨e, failed⟩ := (@openSections_stored env [] raws stored .empty hstored nodup (fun r mem => (kinds r mem).1) data).2 stuck
  rw [nil_append, length_nil] at failed
  exact ⟨e, by rw [decode_manifestBytes hraws fits hstored small, failed]; rfl⟩

/-- The sections every manifest has, decoded. -/
theorem decodeSlots_parts {dict : Dictionary} {assetInfo chunkPlan : Bytes} (of : dict.Of manifest)
    (regular : Regular manifest) (asset : encodeAssetInfo manifest = .ok assetInfo)
    (plan : encodeChunkPlan dict manifest = .ok chunkPlan) (shortAsset : assetInfo.length < 2 ^ 64)
    (shortPlan : chunkPlan.length < 2 ^ 64) (shortDict : (encodeDictionary dict).length < 2 ^ 64)
    (hints : Option Bytes) :
    decodeSlots ⟨some assetInfo, some chunkPlan, some (encodeDictionary dict), hints⟩ =
      match hints with
      | some bytes => do return (manifest, some (← decodeLocations dict.names bytes))
      | none => return (manifest, none) := by
  have lens := of.indexed.lens_length
  have hashes : (dict.hashes.zip dict.lens).map Prod.fst = dict.hashes := List.map_fst_zip lens.ge
  have sizes : (dict.hashes.zip dict.lens).map Prod.snd = dict.lens := List.map_snd_zip lens.le
  have names : (dict.hashes.zip dict.lens).map (fun row => toHex row.1) = dict.names := by
    rw [Dictionary.names]
    conv_rhs => rw [← hashes, List.map_map]
    rfl
  have table : dict.names.take dict.chunkTableCount = manifest.chunkTable := of.table
  simp only [decodeSlots, required, decodeDictionary_encode of shortDict, decodeAssetInfo_encode asset shortAsset,
    names, sizes, decodeChunkPlan_encode of regular plan shortPlan, table, bind, Except.bind]
  cases hints <;> rfl

/-- What the locations section adds. -/
theorem decodeSlots_encode {dict : Dictionary} {assetInfo chunkPlan : Bytes} (of : dict.Of manifest)
    (few : dict.hashes.length ≤ 2 ^ 32) (regular : Regular manifest) (asset : encodeAssetInfo manifest = .ok assetInfo)
    (plan : encodeChunkPlan dict manifest = .ok chunkPlan) (shortAsset : assetInfo.length < 2 ^ 64)
    (shortPlan : chunkPlan.length < 2 ^ 64) (shortDict : (encodeDictionary dict).length < 2 ^ 64)
    (shortHints : ∀ b ∈ locations.bind (encodeLocations dict), b.length < 2 ^ 64) :
    ∃ found, decodeSlots ⟨some assetInfo, some chunkPlan, some (encodeDictionary dict),
        locations.bind (encodeLocations dict)⟩ = .ok (manifest, found) ∧
      ∀ s, locationOf found s = if s ∈ manifestHexes manifest then locationOf locations s else none := by
  rw [decodeSlots_parts of regular asset plan shortAsset shortPlan shortDict]
  cases locations with
  | none => exact ⟨none, rfl, fun s => by simp [locationOf]⟩
  | some l =>
      have gathered : ∀ s, (gather l ∅ dict.hashes)[s]? = if s ∈ manifestHexes manifest then l[s]? else none := by
        intro s
        rw [gather_get]
        simp only [of.names s]
        by_cases named : s ∈ manifestHexes manifest
        · cases l[s]? <;> simp [named]
        · simp [named]
      cases hhints : encodeLocations dict l with
      | none =>
          have empty : locatedFrom l 0 dict.hashes = [] := by
            simp only [encodeLocations] at hhints
            split at hhints
            · rename_i none
              simpa using none
            · cases hhints
          refine ⟨none, by simp only [Option.bind_some, hhints]; rfl, fun s => ?_⟩
          change _ = if s ∈ manifestHexes manifest then l[s]? else none
          rw [← gathered s, gather_none ∅ empty]
          simp [locationOf]
      | some b =>
          have decoded := decodeLocations_encode of few hhints (shortHints b hhints)
          exact ⟨some (gather l ∅ dict.hashes), by simp only [Option.bind_some, hhints, decoded]; rfl, gathered⟩

/-- The file is decoded to the manifest and the locations of the hashes it names. -/
def ReadBack (env : ContainerEnv) (manifest : Manifest) (locations : Option ChunkLocations) (bytes : Bytes) : Prop :=
  ∃ found, decodeManifestV2Full env bytes = .ok (manifest, found) ∧
    ∀ s, locationOf found s = if s ∈ manifestHexes manifest then locationOf locations s else none

theorem decode_encode (regular : Regular manifest) (hraws : rawSections manifest locations = .ok raws)
    (fits : ∀ r ∈ raws, r.2.length < maxVecLen) (hstored : storeSections env raws = .ok stored)
    (small : (manifestBytes stored).length ≤ maxManifestBytes) (unpacks : ∀ r ∈ raws, Unpacks env r.2) :
    ReadBack env manifest locations (manifestBytes stored) := by
  obtain ⟨nodup, -, kinds⟩ := rawSections_kinds hraws
  obtain ⟨dict, assetInfo, chunkPlan, built, asset, plan, shape⟩ := rawSections_ok hraws
  have data : (stored.flatMap StoredSection.bytes).length ≤ maxManifestBytes := by
    rw [manifestBytes_eq] at small
    simp only [length_append] at small
    omega
  have few : dict.hashes.length ≤ 2 ^ 32 := by
    have mem : (sectionChunkDictionary, encodeDictionary dict) ∈ raws := by
      rw [shape]
      simp
    obtain ⟨s, inside, from_⟩ := storeSections_of hstored _ mem
    have size := length_le_flatMap (f := StoredSection.bytes) inside
    have short : (encodeDictionary dict).length ≤ maxSectionRaw :=
      storeSection_short from_ (unpacks _ mem) (by omega)
    have room := encodeDictionary_room (Dictionary.build_width built)
    have bound : maxSectionRaw ≤ 2 ^ 32 := by decide
    omega
  have of := build_of built few regular
  have opened := (@openSections_stored env [] raws stored .empty hstored nodup (fun r mem => (kinds r mem).1) data).1 unpacks
  rw [nil_append, length_nil] at opened
  have vec : maxVecLen < 2 ^ 64 := by decide
  have long : ∀ r ∈ raws, r.2.length < 2 ^ 64 := fun r mem => (fits r mem).trans vec
  have filled : fill .empty raws = ⟨some assetInfo, some chunkPlan, some (encodeDictionary dict),
      locations.bind (encodeLocations dict)⟩ := by
    rw [shape]
    cases locations.bind (encodeLocations dict) <;> rfl
  rw [shape] at long
  obtain ⟨found, decoded, same⟩ := decodeSlots_encode of few regular asset plan
    (long (sectionAssetInfo, assetInfo) (by simp)) (long (sectionChunkPlan, chunkPlan) (by simp))
    (long (sectionChunkDictionary, encodeDictionary dict) (by simp))
    (fun b mem => long (sectionChunkLocations, b)
      (List.mem_append_right _ (mem_map.mpr ⟨b, Option.mem_toList.mpr mem, rfl⟩)))
  refine ⟨found, ?_, same⟩
  rw [decode_manifestBytes hraws fits hstored small, opened, filled]
  exact decoded

theorem sectionTable_length (offset : Nat) (stored : List StoredSection) :
    (sectionTable offset stored).length ≤ stored.length * 73 := by
  induction stored generalizing offset with
  | nil => simp [sectionTable]
  | cons s stored ih =>
      have := ih (offset + s.bytes.length)
      have := Leb.bytes_length_le 9 s.kind
      have := Leb.bytes_length_le 9 offset
      have := Leb.bytes_length_le 9 s.bytes.length
      have := Leb.bytes_length_le 9 s.rawLen
      simp only [sectionTable, tableRow, writeVaruint, length_append, length_cons, length_nil, s.hash.2]
      omega

/-- What a file adds to its sections. -/
theorem manifestBytes_length (stored : List StoredSection) :
    (manifestBytes stored).length ≤ 27 + stored.length * 73 + (stored.flatMap StoredSection.bytes).length := by
  have := sectionTable_length 0 stored
  have := Leb.bytes_length_le 9 stored.length
  have magic : manifestMagic.length = 8 := rfl
  simp only [manifestBytes, writeVaruint, length_append, le_length, magic]
  omega

/-- No section of the manifest compresses further than the decoder lets it expand. -/
def SectionsUnpack (env : ContainerEnv) (manifest : Manifest) (locations : Option ChunkLocations) : Prop :=
  ∀ raws, rawSections manifest locations = .ok raws → ∀ r ∈ raws, Unpacks env r.2

/-- A manifest that was encoded is read back exactly if its sections unpack. -/
theorem manifest_read_back_iff (env : ContainerEnv) (manifest : Manifest) (locations : Option ChunkLocations) (bytes : Bytes)
    (regular : Regular manifest) (encoded : encodeManifestV2WithLocations env manifest locations = .ok bytes)
    (small : bytes.length ≤ maxManifestBytes) :
    ReadBack env manifest locations bytes ↔ SectionsUnpack env manifest locations := by
  obtain ⟨raws, stored, hraws, fits, hstored, rfl⟩ := encode_ok encoded
  constructor
  · rintro ⟨found, decoded, -⟩ raws' hraws'
    rw [hraws] at hraws'
    cases hraws'
    by_contra stuck
    obtain ⟨e, failed⟩ := decode_fails hraws fits hstored small stuck
    rw [failed] at decoded
    cases decoded
  · intro unpack
    exact decode_encode regular hraws fits hstored small (unpack raws hraws)

end Whole

section Repeated

theorem rdropWhile_zeros (b : Bytes) (n : Nat) :
    (b ++ replicate n 0).rdropWhile (· = 0) = b.rdropWhile (· = 0) := by
  induction n with
  | zero => simp
  | succ n ih => rw [List.replicate_succ', ← append_assoc, List.rdropWhile_concat_pos _ _ _ (by simp), ih]

def zeroRef : ChunkRef := ⟨toHex zeroHash, 3⟩

/-- An asset whose one segment is the same chunk over and over. -/
def repeated (n : Nat) : Manifest where
  asset := "a"
  assetUuid := ""
  tracks := []
  segments := [⟨0, 0, 0, 0, false, replicate n zeroRef⟩]
  dict := []
  chunkTable := [toHex zeroHash]
  merkleRoot := ""
  signature := none
  signerPubkey := none
  metaPairs := []

theorem repeated_regular (n : Nat) : Regular (repeated n) where
  hex s mem := by
    have same : s = toHex zeroHash := by
      simp only [manifestHexes, manifestRefs, repeated, flatMap_nil, flatMap_cons, nil_append,
        append_nil, List.map_replicate, List.mem_append, List.mem_singleton, List.mem_replicate] at mem
      rcases mem with same | ⟨-, same⟩
      · exact same
      · exact same
    rw [same]
    exact isHex_toHex zeroHash
  table := List.nodup_singleton _
  lens c mem c' mem' _ := by
    have same : ∀ c ∈ manifestRefs (repeated n), c = zeroRef := by
      intro c mem
      simp only [manifestRefs, repeated, flatMap_nil, flatMap_cons, nil_append, append_nil] at mem
      exact List.eq_of_mem_replicate mem
    rw [same c mem, same c' mem']

/-- The dictionary of one chunk. -/
def zeroDict : Dictionary := ⟨[zeroHash], [3], [(zeroHash, 0)], 1⟩

theorem zeroDict_intern (n : Nat) : zeroDict.internAll (replicate n (sized zeroRef)) = .ok zeroDict := by
  induction n with
  | zero => rfl
  | succ n ih =>
      have one : zeroDict.intern (toHex zeroHash) (some 3) = .ok zeroDict := by
        rw [intern, fromHex_toHex]
        rfl
      rw [List.replicate_succ, internAll, sized, zeroRef]
      simp only [one, bind, Except.bind]
      exact ih

theorem repeated_dict (n : Nat) : build (repeated (n + 1)) = .ok zeroDict := by
  have table : Dictionary.empty.internAll [unsized (toHex zeroHash)] = .ok ⟨[zeroHash], [0], [(zeroHash, 0)], 0⟩ := by
    simp only [internAll, unsized, intern, fromHex_toHex, bind, Except.bind]
    rfl
  have refs : (⟨[zeroHash], [0], [(zeroHash, 0)], 1⟩ : Dictionary).internAll (replicate (n + 1) (sized zeroRef)) =
      .ok zeroDict := by
    have first : (⟨[zeroHash], [0], [(zeroHash, 0)], 1⟩ : Dictionary).intern (toHex zeroHash) (some 3) = .ok zeroDict := by
      rw [intern, fromHex_toHex]
      rfl
    rw [List.replicate_succ, internAll, sized, zeroRef]
    simp only [first, bind, Except.bind]
    exact zeroDict_intern n
  have chunks : ((repeated (n + 1)).segments.flatMap fun s => s.chunks.map sized) =
      replicate (n + 1) (sized zeroRef) := by
    simp [repeated, List.map_replicate]
  rw [build, chunks]
  change (Dictionary.empty.internAll [unsized (toHex zeroHash)] >>= _) = _
  rw [table]
  change ((⟨[zeroHash], [0], [(zeroHash, 0)], 1⟩ : Dictionary).internAll (replicate (n + 1) (sized zeroRef)) >>= _) = _
  rw [refs]
  rfl

/-- The chunk plan in front of the references. -/
def repeatedHead (n : Nat) : Bytes := [0, 1, 0, 0, 0, 0, 0] ++ writeVaruint n

theorem repeated_plan (n : Nat) :
    encodeChunkPlan zeroDict (repeated n) = .ok (repeatedHead n ++ replicate (n + 1) 0) := by
  have refs : ∀ k, putEach (fun c : ChunkRef => putIndex zeroDict c.hash) (replicate k zeroRef) =
      .ok (replicate k 0) := by
    intro k
    have one : putIndex zeroDict (toHex zeroHash) = .ok [0] := by
      simp only [putIndex, Dictionary.index, fromHex_toHex]
      rfl
    induction k with
    | zero => rfl
    | succ k ih =>
        rw [List.replicate_succ, putEach, zeroRef]
        simp only [one, bind, Except.bind]
        rw [show (⟨toHex zeroHash, 3⟩ : ChunkRef) = zeroRef from rfl, ih]
        rfl
  have chunks : putMany (fun c : ChunkRef => putIndex zeroDict c.hash) (replicate n zeroRef) =
      .ok (writeVaruint n ++ replicate n 0) := by
    rw [putMany, refs, length_replicate]
    rfl
  have segment : putSegment zeroDict ⟨0, 0, 0, 0, false, replicate n zeroRef⟩ =
      .ok ([0, 0, 0, 0, 0] ++ (writeVaruint n ++ replicate n 0)) := by
    rw [putSegment]
    simp only [chunks]
    rfl
  have segments : putMany (putSegment zeroDict) (repeated n).segments =
      .ok ([1] ++ (([0, 0, 0, 0, 0] ++ (writeVaruint n ++ replicate n 0)) ++ [])) := by
    simp only [repeated, putMany, putEach, segment]
    rfl
  have tracks : putMany (putTrack zeroDict) (repeated n).tracks = .ok [0] := rfl
  have pins : putMany (putIndex zeroDict) (repeated n).dict = .ok [0] := rfl
  rw [encodeChunkPlan, tracks, segments, pins, repeatedHead, List.replicate_succ']
  simp only [bind, Except.bind, pure, Except.pure, append_nil, append_assoc, List.cons_append, nil_append]

/-- The asset section of the repeated manifests. -/
def repeatedAsset : Bytes := [1, 0x61, 0, 0, 0, 0, 0]

theorem repeated_asset (n : Nat) : encodeAssetInfo (repeated n) = .ok repeatedAsset := by
  have name : putStr "a" = .ok [1, 0x61] := by decide +kernel
  have empty : putStr "" = .ok [0] := by decide +kernel
  simp only [encodeAssetInfo, repeated, name, empty]
  rfl

theorem repeated_raws (n : Nat) : rawSections (repeated (n + 1)) none = .ok
    [(sectionAssetInfo, repeatedAsset), (sectionChunkPlan, repeatedHead (n + 1) ++ replicate (n + 2) 0),
      (sectionChunkDictionary, encodeDictionary zeroDict)] := by
  rw [rawSections, repeated_dict, repeated_asset]
  simp only [bind, Except.bind, repeated_plan]
  rfl

theorem storeSection_small {env : ContainerEnv} {kind : Nat} {raw : Bytes} (small : raw.length < compressMinSection) :
    storeSection env kind raw = .ok ⟨kind, compressionNone, raw, raw.length, env.hashChunk raw⟩ :=
  if_neg (by omega)

theorem repeatedHead_length (n : Nat) : (repeatedHead n).length ≤ 17 := by
  have := Leb.bytes_length_le 9 n
  simp only [repeatedHead, writeVaruint, length_append, length_cons, length_nil]
  omega

/-- The codec leaves the head of the plan. -/
theorem repeated_compressed (n : Nat) (small : (repeatedHead n ++ replicate (n + 1) 0).length < 2 ^ 64) :
    ∃ compressed, zeroTailEnv.compress sectionZstdLevel (repeatedHead n ++ replicate (n + 1) 0) = .ok compressed ∧
      compressed.length ≤ 25 := by
  have zeros := (List.rtakeWhile_suffix (p := (· = 0)) (l := repeatedHead n ++ replicate (n + 1) 0)).length_le
  refine ⟨_, if_pos (by omega), ?_⟩
  rw [length_append, le_length, rdropWhile_zeros]
  have := (List.rdropWhile_prefix (p := (· = 0)) (l := repeatedHead n)).length_le
  have := repeatedHead_length n
  omega

theorem repeated_stored (n : Nat) (small : (repeatedHead (n + 1) ++ replicate (n + 2) 0).length < 2 ^ 64) :
    ∃ stored, storeSections zeroTailEnv [(sectionAssetInfo, repeatedAsset),
      (sectionChunkPlan, repeatedHead (n + 1) ++ replicate (n + 2) 0),
      (sectionChunkDictionary, encodeDictionary zeroDict)] = .ok stored := by
  apply storeSections_total
  intro r mem
  simp only [mem_cons, List.not_mem_nil, or_false] at mem
  rcases mem with rfl | rfl | rfl
  · exact ⟨_, storeSection_small (by decide)⟩
  · by_cases large : (repeatedHead (n + 1) ++ replicate (n + 2) 0).length ≥ compressMinSection
    · obtain ⟨compressed, packed, -⟩ := repeated_compressed (n + 1) small
      rw [storeSection, if_pos large]
      simp only [packed]
      split
      · exact ⟨_, rfl⟩
      · exact ⟨_, rfl⟩
    · exact ⟨_, storeSection_small (Nat.lt_of_not_le large)⟩
  · exact ⟨_, storeSection_small (by decide)⟩

/-- The repeated manifests are encoded, in about a byte a reference. -/
theorem repeated_encoded (n : Nat) (few : n ≤ 100000) : ∃ stored,
    storeSections zeroTailEnv [(sectionAssetInfo, repeatedAsset),
      (sectionChunkPlan, repeatedHead (n + 1) ++ replicate (n + 2) 0),
      (sectionChunkDictionary, encodeDictionary zeroDict)] = .ok stored ∧
    (∀ r ∈ [(sectionAssetInfo, repeatedAsset), (sectionChunkPlan, repeatedHead (n + 1) ++ replicate (n + 2) 0),
      (sectionChunkDictionary, encodeDictionary zeroDict)], r.2.length < maxVecLen) ∧
    (manifestBytes stored).length ≤ maxManifestBytes := by
  have head := repeatedHead_length (n + 1)
  have plan : (repeatedHead (n + 1) ++ replicate (n + 2) 0).length ≤ 100100 := by
    rw [length_append, length_replicate]
    omega
  obtain ⟨stored, hstored⟩ := repeated_stored n (by omega)
  refine ⟨stored, hstored, ?_, ?_⟩
  · intro r mem
    simp only [mem_cons, List.not_mem_nil, or_false] at mem
    rcases mem with rfl | rfl | rfl
    · decide
    · have : 100100 < maxVecLen := by decide
      dsimp only
      omega
    · decide
  · have count := (storeSections_each hstored).1
    have size := storeSections_length hstored
    have file := manifestBytes_length stored
    have asset : repeatedAsset.length = 7 := rfl
    have dict : (encodeDictionary zeroDict).length = 35 := by decide
    have limit : maxManifestBytes = 268435456 := rfl
    simp only [flatMap_cons, flatMap_nil, append_nil, length_append, length_replicate] at size
    simp only [length_cons, length_nil] at count
    omega

/-- Two references: a manifest that is read back. -/
theorem manifest_read_back_twice : ∃ bytes, encodeManifestV2WithLocations zeroTailEnv (repeated 2) none = .ok bytes ∧
    ReadBack zeroTailEnv (repeated 2) none bytes := by
  obtain ⟨stored, hstored, fits, small⟩ := repeated_encoded 1 (by decide)
  have encoded := encode_of (repeated_raws 1) fits hstored
  refine ⟨manifestBytes stored, encoded, ?_⟩
  refine (manifest_read_back_iff zeroTailEnv (repeated 2) none _ (repeated_regular 2) encoded small).mpr ?_
  intro raws hraws r mem compressed large
  rw [repeated_raws 1] at hraws
  cases hraws
  have little : ∀ r ∈ [(sectionAssetInfo, repeatedAsset), (sectionChunkPlan, repeatedHead 2 ++ replicate 3 0),
      (sectionChunkDictionary, encodeDictionary zeroDict)], r.2.length < compressMinSection := by decide
  exact absurd large (Nat.not_le.mpr (little r mem))

/-- Forty thousand references to one chunk: the chunk plan compresses further than the
decoder lets it expand. -/
theorem manifest_not_read_back : Regular (repeated 40000) ∧ ∃ bytes,
    encodeManifestV2WithLocations zeroTailEnv (repeated 40000) none = .ok bytes ∧ bytes.length ≤ maxManifestBytes ∧
      ¬ ReadBack zeroTailEnv (repeated 40000) none bytes := by
  obtain ⟨stored, hstored, fits, small⟩ := repeated_encoded 39999 (by decide)
  refine ⟨repeated_regular 40000, manifestBytes stored, encode_of (repeated_raws 39999) fits hstored, small, ?_⟩
  rintro ⟨found, decoded, -⟩
  have stuck : ¬ ∀ r ∈ [(sectionAssetInfo, repeatedAsset), (sectionChunkPlan, repeatedHead 40000 ++ replicate 40001 0),
      (sectionChunkDictionary, encodeDictionary zeroDict)], Unpacks zeroTailEnv r.2 := by
    intro all
    have plan : (repeatedHead 40000 ++ replicate 40001 (0 : UInt8)).length ≥ 40001 := by
      rw [length_append, length_replicate]
      omega
    have head := repeatedHead_length 40000
    obtain ⟨compressed, packed, short⟩ := repeated_compressed 40000 (by
      rw [length_append, length_replicate]
      omega)
    have least : compressMinSection = 32768 := rfl
    obtain ⟨-, ratio⟩ := all _ (.tail _ (.head _)) compressed (by dsimp only; omega) packed (by dsimp only; omega)
    have most : maxDecompressRatio = 100 := rfl
    rw [most] at ratio
    dsimp only at ratio
    omega
  obtain ⟨e, failed⟩ := decode_fails (repeated_raws 39999) fits hstored small stuck
  rw [failed] at decoded
  cases decoded

end Repeated

end Cavs.ManifestV2
