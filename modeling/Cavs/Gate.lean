import Cavs.ContainerCodec
import Cavs.ContainerSafe
import Cavs.HexText
import Cavs.Manifest

/-!
# The gate of the publisher and the check of the client

A publisher lets a container through when its signature covers the root and the count that
the container declares. A client checks the signature against the root and the count of the
chunk table. The two agree exactly when the declared root is that of the table and the
signature covers the length of the table.
-/
namespace Cavs
open FileProg (Bytes)
open ByteScan

section Client
variable (env : ContainerEnv)

inductive SignatureError where
  | notSigned
  | noPublicKey
  | untrustedKey (signer : String)
  | badHash
  | rootMismatch
  | badHex
  | invalidKey
  | invalidSignature
  | notCovered (hash : String)
  deriving DecidableEq, Repr

def eqIgnoreAsciiCase (s t : String) : Bool := decide (s.toList.map Char.toLower = t.toList.map Char.toLower)

/-- As many bytes from hex; text in which a slice would cut a character counts as no hex. -/
def decodeHex (s : String) (len : Nat) : Option Bytes :=
  if (strBytes s).length ≠ len * 2 then none else hexBytes (strBytes s)

def hashesFromHex : List String → Option (List ChunkHash)
  | [] => some []
  | hex :: rest => (fromHex hex).bind fun h => (hashesFromHex rest).map (h :: ·)

/-- The check of a client that trusts one key. -/
def Manifest.verifySignature (manifest : Manifest) (trustedHex : String) : Except SignatureError Unit :=
  match manifest.signature, manifest.signerPubkey with
  | none, _ => .error .notSigned
  | some _, none => .error .noPublicKey
  | some sigHex, some signerHex =>
      if eqIgnoreAsciiCase signerHex trustedHex = false then .error (.untrustedKey signerHex)
      else match hashesFromHex manifest.chunkTable with
        | none => .error .badHash
        | some leaves =>
            let root := Cavs.merkleRoot env.hashChunk leaves
            if eqIgnoreAsciiCase manifest.merkleRoot (toHex root) = false then .error .rootMismatch
            else match (decodeHex signerHex 32).bind hashOf, decodeHex sigHex 64 with
              | none, _ | _, none => .error .badHex
              | some pk, some signature =>
                  if env.validKey pk = false then .error .invalidKey
                  else if env.verifies pk (contentSignatureMessage root leaves.length) signature = false then
                    .error .invalidSignature
                  else match (manifestChunkHashes manifest).find? fun h => h ∉ manifest.chunkTable with
                    | some h => .error (.notCovered h)
                    | none => .ok ()

/-- A store that also keeps the records it published. -/
def recording {σ : Type} (calls : StoreCalls σ) : StoreCalls (σ × List AssetRecord) where
  putChunk hash stored flags lenRaw s :=
    let (answer, t) := calls.putChunk hash stored flags lenRaw s.1
    (answer, (t, s.2))
  publishAsset record s :=
    match calls.publishAsset record s.1 with
    | (.ok (), t) => (.ok (), (t, s.2 ++ [record]))
    | (.error e, t) => (.error e, (t, s.2))

end Client

section Hex

variable {r : Reader} {signature : Bytes} {pk : ChunkHash}

theorem decodeHex_hexString (b : Bytes) : decodeHex (hexString b) b.length = some b := by
  have digits := hexBytes_hexPair b
  rw [decodeHex, hexString, strBytes_ofList, if_neg (not_not.mpr (hexBytes_length digits)), digits]

theorem hexString_append (a b : Bytes) : hexString a ++ hexString b = hexString (a ++ b) := by
  rw [hexString, hexString, hexString, List.flatMap_append, String.ofList_append]

theorem toLower_hexPair {b : UInt8} {ch : Char} (mem : ch ∈ hexPair b) : ch.toLower = ch := by
  have lower : (hexDigits.all fun c => c.toLower == c) = true := rfl
  exact eq_of_beq (List.all_eq_true.mp lower ch (hexPair_mem mem))

theorem eqIgnoreAsciiCase_toHex (g h : ChunkHash) : eqIgnoreAsciiCase (toHex g) (toHex h) = true ↔ g = h := by
  have lower : ∀ x : ChunkHash, (toHex x).toList.map Char.toLower = (toHex x).toList := by
    intro x
    refine (List.map_congr_left fun ch mem => ?_).trans (List.map_id _)
    rw [toHex, String.toList_ofList] at mem
    obtain ⟨b, -, there⟩ := List.mem_flatMap.mp mem
    exact toLower_hexPair there
  rw [eqIgnoreAsciiCase, decide_eq_true_iff, lower, lower, String.toList_inj]
  exact ⟨toHex_injective, fun same => same ▸ rfl⟩

theorem isBoundary_ascii {rest : Bytes} (ascii : ∀ c ∈ rest, c < 128) : isBoundary rest = true := by
  cases rest with
  | nil => rfl
  | cons c rest => exact decide_eq_true (.inl (ascii c List.mem_cons_self))

theorem cutsClean_ascii {text : Bytes} (ascii : ∀ c ∈ text, c < 128) : CutsClean text := by
  rintro front rest rfl - -
  have low : ∀ c ∈ rest, c < 128 := fun c mem => ascii c (List.mem_append_right front mem)
  exact ⟨isBoundary_ascii low, isBoundary_ascii fun c mem => low c (List.mem_of_mem_drop mem)⟩

theorem hexString_ascii (b : Bytes) : ∀ c ∈ strBytes (hexString b), c < 128 := by
  intro c mem
  rw [hexString, strBytes_ofList] at mem
  obtain ⟨ch, digit, there⟩ := List.mem_flatMap.mp mem
  obtain ⟨x, -, pair⟩ := List.mem_flatMap.mp digit
  have low : (hexDigits.all fun d => (String.utf8EncodeChar d).all fun y => y.toNat.blt 128) = true := rfl
  have below : c.toNat.blt 128 = true := List.all_eq_true.mp (List.all_eq_true.mp low ch (hexPair_mem pair)) c there
  exact UInt8.lt_iff_toNat_lt.mpr (Nat.blt_eq.mp below)

theorem cutsClean_hexString (b : Bytes) : CutsClean (strBytes (hexString b)) := cutsClean_ascii (hexString_ascii b)

theorem strBytes_hexString (b : Bytes) :
    (strBytes (hexString b)).length = b.length * 2 ∧ hexBytes (strBytes (hexString b)) = some b := by
  have digits := hexBytes_hexPair b
  rw [hexString, strBytes_ofList]
  exact ⟨hexBytes_length digits, digits⟩

/-- A signature spelled in hex is read back. -/
theorem embeddedSignature_hex (long : signature.length = 64)
    (text : r.metaValue "sig.ed25519" = some (hexString signature))
    (key : r.metaValue "sig.pubkey" = some (toHex pk)) : r.embeddedSignature = .ok (some (signature, pk)) := by
  have clean : CleanTexts r := by
    constructor
    · intro other found _
      rw [text, Option.some.injEq] at found
      rw [← found]
      exact cutsClean_hexString signature
    · intro _ _ other found _
      rw [key, Option.some.injEq] at found
      rw [← found]
      exact cutsClean_hexString pk.1
  obtain ⟨o, embedded, means⟩ := embeddedSignature_clean clean
  have signs : r.Signs signature := by
    obtain ⟨length, digits⟩ := strBytes_hexString signature
    exact ⟨_, text, by rw [length, long], digits⟩
  have names : r.Names pk := by
    obtain ⟨length, digits⟩ := strBytes_hexString pk.1
    exact ⟨_, key, by rw [← pk.2]; exact length, digits⟩
  rw [embedded, (means signature pk).mpr ⟨signs, names⟩]

theorem verifySignature_valid {env : ContainerEnv} (embedded : r.embeddedSignature = .ok (some (signature, pk)))
    (valid : env.validKey pk = true)
    (verifies : env.verifies pk (contentSignatureMessage r.integrity.merkleRoot r.integrity.chunkCount) signature = true) :
    r.verifySignature env = .ok (.valid pk) := by
  rw [Reader.verifySignature, embedded, Outcome.ok_bind]
  dsimp only
  rw [if_neg (by rw [valid]; decide), if_neg (by rw [verifies]; decide)]
  rfl

theorem hashesFromHex_map (l : List ChunkRecord) :
    hashesFromHex (l.map fun c => toHex c.hash) = some (l.map ChunkRecord.hash) := by
  induction l with
  | nil => rfl
  | cons c l ih =>
      rw [List.map_cons, hashesFromHex, fromHex_toHex, ih]
      rfl

end Hex

section Record
variable {env : ContainerEnv} {r : Reader} {σ : Type} {calls : StoreCalls σ} {chunks : List ChunkRecord}
  {signature : Option (Bytes × ChunkHash)} {name : String} {record : AssetRecord}

theorem hexAll_mem {l : List UInt32} {names : List String} (h : hexAll chunks l = .ok names) :
    ∀ name ∈ names, name ∈ chunks.map fun c => toHex c.hash := by
  induction l generalizing names with
  | nil =>
      cases h
      simp
  | cons i rest ih =>
      obtain ⟨hex, here, h⟩ := Outcome.ok_of_bindO h
      obtain ⟨others, more, h⟩ := Outcome.ok_of_bindO h
      cases h
      intro name mem
      rcases List.mem_cons.mp mem with rfl | later
      · rw [hexAt] at here
        split at here
        · rename_i c found
          cases here
          exact List.mem_map.mpr ⟨c, List.mem_of_getElem? found, rfl⟩
        · cases here
      · exact ih more name later

theorem namedAll_mem {A B : Type} {indices : A → List UInt32} {make : A → List String → B} {field : B → List String}
    (keeps : ∀ a names, field (make a names) = names) {l : List A} {rows : List B}
    (h : namedAll chunks indices make l = .ok rows) :
    ∀ b ∈ rows, ∀ name ∈ field b, name ∈ chunks.map fun c => toHex c.hash := by
  induction l generalizing rows with
  | nil =>
      cases h
      simp
  | cons a rest ih =>
      obtain ⟨names, here, h⟩ := Outcome.ok_of_bindO h
      obtain ⟨others, more, h⟩ := Outcome.ok_of_bindO h
      cases h
      intro b mem
      rcases List.mem_cons.mp mem with rfl | later
      · rw [keeps]
        exact hexAll_mem here
      · exact ih more b later

theorem storeTracks_mem {l : List TrackRecord} {tracks : List StoreTrack} (h : storeTracks chunks l = .ok tracks) :
    ∀ t ∈ tracks, ∀ name ∈ t.initChunks, name ∈ chunks.map fun c => toHex c.hash := by
  rw [storeTracks_named] at h
  exact namedAll_mem (fun _ _ => rfl) h

theorem storeSegments_mem {l : List SegmentRecord} {segments : List StoreSegment}
    (h : storeSegments chunks l = .ok segments) :
    ∀ s ∈ segments, ∀ name ∈ s.chunks, name ∈ chunks.map fun c => toHex c.hash := by
  rw [storeSegments_named] at h
  exact namedAll_mem (fun _ _ => rfl) h

/-- What stands in a record, and that it refers to nothing outside the table. -/
structure RecordOf (r : Reader) (sig : Option (Bytes × ChunkHash)) (record : AssetRecord) : Prop where
  chunkTable : record.chunkTable = r.chunks.map fun c => toHex c.hash
  merkleRoot : record.merkleRoot = toHex r.integrity.merkleRoot
  signature : record.signature = sig.map fun p => hexString (p.1.take 32) ++ hexString (p.1.drop 32)
  signerPubkey : record.signerPubkey = sig.map fun p => toHex p.2
  covered : ∀ (chunkInfo : ChunkHash → Option ChunkInfo), ∀ h ∈ manifestChunkHashes (manifestOf chunkInfo record),
    h ∈ record.chunkTable

theorem assetRecordOf_ok (h : assetRecordOf r signature name = .ok record) : RecordOf r signature record := by
  obtain ⟨tracks, first, h⟩ := Outcome.ok_of_bindO h
  obtain ⟨segments, second, h⟩ := Outcome.ok_of_bindO h
  obtain ⟨dict, third, h⟩ := Outcome.ok_of_bindO h
  cases h
  refine ⟨rfl, rfl, rfl, rfl, fun chunkInfo hash mem => ?_⟩
  rw [manifestChunkHashes, List.mem_append] at mem
  rcases mem with init | segment
  · simp only [manifestOf, List.flatMap_map, List.mem_flatMap, List.map_map, List.mem_map] at init
    obtain ⟨t, there, name, listed, rfl⟩ := init
    exact storeTracks_mem first t there name listed
  · simp only [manifestOf, List.flatMap_map, List.mem_flatMap, List.map_map, List.mem_map] at segment
    obtain ⟨s, there, name, listed, rfl⟩ := segment
    exact storeSegments_mem second s there name listed

theorem recording_putChunk (hash : ChunkHash) (stored : Bytes) (flags lenRaw : UInt32) (s : σ × List AssetRecord) :
    (recording calls).putChunk hash stored flags lenRaw s =
      ((calls.putChunk hash stored flags lenRaw s.1).1, ((calls.putChunk hash stored flags lenRaw s.1).2, s.2)) := rfl

variable (calls r) in
theorem putChunks_recording (left index : Nat) (stats : IngestStats) (s : σ × List AssetRecord) :
    (putChunks (recording calls) r left index stats s).2.2 = s.2 := by
  induction left generalizing index stats s with
  | zero => rfl
  | succ left ih =>
      rw [putChunks]
      cases r.readChunkStored (UInt32.ofNat index) with
      | error e => rfl
      | panics => rfl
      | ok p =>
          obtain ⟨stored, flags, lenRaw⟩ := p
          dsimp only
          cases r.chunkAt (UInt32.ofNat index) with
          | error e => rfl
          | panics => rfl
          | ok chunk =>
              dsimp only
              rw [recording_putChunk]
              cases calls.putChunk chunk.hash stored flags lenRaw s.1 with
              | mk answer t =>
                  cases answer with
                  | error e => rfl
                  | ok new =>
                      cases new with
                      | false => exact ih (index + 1) stats (t, s.2)
                      | true =>
                          dsimp only
                          cases checked (stats.newBytes + stored.length) with
                          | ok newBytes => exact ih (index + 1) _ (t, s.2)
                          | error e => rfl
                          | panics => rfl

/-- What was published when a container was let through. -/
theorem ingest_published {s s' : σ} {stats : IngestStats}
    (h : ingestIntoStore env (recording calls) r name (s, []) = (.ok stats, (s', [record]))) :
    ∃ signature, gate env r = .ok signature ∧ RecordOf r signature record := by
  rw [ingestIntoStore] at h
  cases gated : gate env r with
  | error e => rw [gated] at h; cases h
  | panics => rw [gated] at h; cases h
  | ok signature =>
      rw [gated] at h
      dsimp only at h
      have kept := putChunks_recording r calls (UInt32.ofNat r.chunks.length).toNat 0
        ⟨r.chunks.length, 0, 0⟩ (s, [])
      cases put : putChunks (recording calls) r (UInt32.ofNat r.chunks.length).toNat 0 ⟨r.chunks.length, 0, 0⟩
          (s, []) with
      | mk answer t =>
          rw [put] at h kept
          cases answer with
          | error e => cases h
          | panics => cases h
          | ok stats' =>
              dsimp only at h
              cases made : assetRecordOf r signature name with
              | error e => rw [made] at h; cases h
              | panics => rw [made] at h; cases h
              | ok record' =>
                  rw [made] at h
                  dsimp only [recording] at h
                  cases published : calls.publishAsset record' t.1 with
                  | mk answer t' =>
                      rw [published] at h
                      cases answer with
                      | error e => cases h
                      | ok u =>
                          dsimp only at h
                          rw [show t.2 = [] from kept, List.nil_append] at h
                          have records := congrArg (fun p => p.2.2) h
                          simp only [List.cons.injEq, and_true] at records
                          exact ⟨signature, rfl, records ▸ assetRecordOf_ok made⟩

/-- A gate that comes back has read the texts of the signature. -/
theorem gate_texts (h : gate env r = .ok signature) : CleanTexts r := by
  have back : r.embeddedSignature.Returns fun _ => True := by
    rw [gate, Reader.verifySignature] at h
    cases embedded : r.embeddedSignature with
    | ok o => trivial
    | error e => trivial
    | panics =>
        rw [embedded] at h
        cases h
  exact cleanTexts_of_returns back

/-- The signature that went through the gate. -/
theorem gate_some {signature : Bytes} {pk : ChunkHash} (h : gate env r = .ok (some (signature, pk))) :
    r.Signs signature ∧ (∀ signature', r.Signs signature' → signature' = signature) ∧ env.validKey pk = true := by
  obtain ⟨-, through, -⟩ := gate_clean env (gate_texts h)
  rw [h] at through
  obtain ⟨accepted, means⟩ := through
  obtain ⟨signs, names⟩ := (means signature pk).mp rfl
  refine ⟨signs, fun signature' signs' => ?_, (accepted signature pk signs names).1⟩
  have same := (means signature' pk).mpr ⟨signs', names⟩
  cases same
  rfl

end Record

/-- A container that went through the gate is accepted by the client exactly when the root
it declares is that of its table and the signature covers the length of its table. -/
theorem verifySignature_published (env : ContainerEnv) (file : Bytes) (r : Reader)
    (_opened : Reader.openFile env file = .ok r) {σ : Type} (calls : StoreCalls σ) (name : String) (s s' : σ)
    (stats : IngestStats) (record : AssetRecord) (pk : ChunkHash)
    (ingested : ingestIntoStore env (recording calls) r name (s, []) = (.ok stats, (s', [record])))
    (signed : record.signerPubkey = some (toHex pk)) (chunkInfo : ChunkHash → Option ChunkInfo) :
    (manifestOf chunkInfo record).verifySignature env (toHex pk) = .ok () ↔
      r.integrity.merkleRoot = merkleRoot env.hashChunk (r.chunks.map ChunkRecord.hash) ∧
      ∀ signature, r.Signs signature →
        env.verifies pk (contentSignatureMessage r.integrity.merkleRoot r.chunks.length) signature = true := by
  obtain ⟨embedded, gated, parts⟩ := ingest_published ingested
  rw [parts.signerPubkey, Option.map_eq_some_iff] at signed
  obtain ⟨⟨signature, pk'⟩, rfl, same⟩ := signed
  obtain rfl : pk' = pk := toHex_injective same
  obtain ⟨signs, only, valid⟩ := gate_some gated
  have long : signature.length = 64 := by
    obtain ⟨text, -, long, digits⟩ := signs
    have length := hexBytes_length digits
    omega
  have sigHex : (manifestOf chunkInfo record).signature = some (hexString signature) := by
    change record.signature = _
    rw [parts.signature, Option.map_some, hexString_append, List.take_append_drop]
  have signer : (manifestOf chunkInfo record).signerPubkey = some (toHex pk') := by
    change record.signerPubkey = _
    rw [parts.signerPubkey, Option.map_some]
  have table : (manifestOf chunkInfo record).chunkTable = r.chunks.map fun c => toHex c.hash := parts.chunkTable
  have root : (manifestOf chunkInfo record).merkleRoot = toHex r.integrity.merkleRoot := parts.merkleRoot
  have trusted : eqIgnoreAsciiCase (toHex pk') (toHex pk') = true := (eqIgnoreAsciiCase_toHex pk' pk').mpr rfl
  have key : (decodeHex (toHex pk') 32).bind hashOf = some pk' := by
    have digits := decodeHex_hexString pk'.1
    rw [pk'.2] at digits
    change (decodeHex (hexString pk'.1) 32).bind hashOf = some pk'
    rw [digits, Option.bind_some, hashOf_val]
  have decoded : decodeHex (hexString signature) 64 = some signature := long ▸ decodeHex_hexString signature
  have covered : (manifestChunkHashes (manifestOf chunkInfo record)).find?
      (fun h => h ∉ r.chunks.map fun c => toHex c.hash) = none := by
    refine List.find?_eq_none.mpr fun h mem => ?_
    have inside := parts.covered chunkInfo h mem
    rw [parts.chunkTable] at inside
    simpa using inside
  rw [Manifest.verifySignature, sigHex, signer, table, root]
  simp only [trusted, hashesFromHex_map, key, decoded, valid, covered, Bool.true_eq_false, if_false, List.length_map]
  by_cases roots : r.integrity.merkleRoot = merkleRoot env.hashChunk (r.chunks.map ChunkRecord.hash)
  · have equal := (eqIgnoreAsciiCase_toHex _ _).mpr roots
    rw [if_neg (by rw [equal]; decide), ← roots]
    by_cases verifies : env.verifies pk' (contentSignatureMessage r.integrity.merkleRoot r.chunks.length) signature = true
    · rw [if_neg (by rw [verifies]; decide)]
      simp only [true_and, true_iff]
      intro signature' signs'
      rw [only signature' signs']
      exact verifies
    · rw [if_pos (by simpa using verifies)]
      simp only [reduceCtorEq, true_and, false_iff]
      exact fun all => verifies (all signature signs)
  · have differ : eqIgnoreAsciiCase (toHex r.integrity.merkleRoot)
        (toHex (merkleRoot env.hashChunk (r.chunks.map ChunkRecord.hash))) = false :=
      Bool.eq_false_iff.mpr fun equal => roots ((eqIgnoreAsciiCase_toHex _ _).mp equal)
    rw [if_pos differ]
    simp [roots]

section Sample

/-- A container of one chunk, the byte 1, that declares a root and is signed over it. -/
def signedTables (root : ChunkHash) : Tables where
  tracks := []
  dict := []
  chunks := [⟨numberHash [1], 0, 1, 1, 0⟩]
  segments := []
  metaPairs := [("sig.ed25519", hexString (plainEnv.sign zeroHash (contentSignatureMessage root 1))),
    ("sig.pubkey", toHex zeroHash)]
  integrity := ⟨root, 1, 1, 1⟩

def signedSuperblock (root : ChunkHash) : Superblock :=
  superblockOf plainEnv compressionNone 0 zeroUuid [1] (signedTables root)

def signedFile (root : ChunkHash) : Bytes := containerBytes plainEnv (signedSuperblock root) [1] (signedTables root)

def signedReader (root : ChunkHash) : Reader := openedFrom plainEnv (signedSuperblock root) [1] (signedTables root)

def signedRecord (root : ChunkHash) : AssetRecord where
  name := "asset"
  assetUuid := hexString (List.replicate 16 0)
  tracks := []
  segments := []
  dict := []
  chunkTable := [toHex (numberHash [1])]
  merkleRoot := toHex root
  signature := some
    (hexString ((plainEnv.sign zeroHash (contentSignatureMessage root 1)).take 32) ++
      hexString ((plainEnv.sign zeroHash (contentSignatureMessage root 1)).drop 32))
  signerPubkey := some (toHex zeroHash)
  metaPairs := (signedTables root).metaPairs

variable (root : ChunkHash)

theorem encodeText_length (w : Nat) (s : String) : (encodeText w s).length = w + (strBytes s).length := by
  rw [encodeText, List.length_append, le_length]

theorem openFile_signedFile : Reader.openFile plainEnv (signedFile root) = .ok (signedReader root) := by
  have first := strBytes_hexString (plainEnv.sign zeroHash (contentSignatureMessage root 1))
  have second := strBytes_hexString zeroHash.1
  rw [plainEnv.sign_length] at first
  have name : (strBytes "sig.ed25519").length = 11 := by decide +kernel
  have name' : (strBytes "sig.pubkey").length = 10 := by decide +kernel
  have sig128 := first.1
  have key64 : (strBytes (toHex zeroHash)).length = 64 := second.1
  apply openFile_containerBytes
  · decide
  · refine ⟨⟨Nat.two_pow_pos 32, by simp [signedTables]⟩, Nat.two_pow_pos 32,
      ⟨by simp [signedTables], by simp [signedTables]⟩, ⟨Nat.two_pow_pos 32, by simp [signedTables]⟩, ⟨?_, ?_⟩,
      by simp [signedTables], by simp [signedTables], by simp [signedTables]⟩
    · simp [signedTables]
    · intro m mem
      simp only [signedTables, List.mem_cons, List.not_mem_nil, or_false] at mem
      rcases mem with rfl | rfl
      · exact ⟨by rw [name]; decide, by rw [sig128]; decide⟩
      · exact ⟨by rw [name']; decide, by rw [key64]; decide⟩
  · rw [containerSize, length_flatMap_const encodeSectionEntry_length, directoryOf, entriesFrom_length, directoryOffset]
    simp only [signedTables, Tables.sections, encodeTable, encodeMetaPair, encodeIntegrity, List.flatMap_cons,
      List.flatMap_nil, List.length_append, List.length_cons, List.length_nil, le_length, encodeText_length, name,
      name', sig128, key64, root.2, superblockLen, sectionDirEntryLen]
    decide

theorem gate_signedReader : gate plainEnv (signedReader root) =
    .ok (some (plainEnv.sign zeroHash (contentSignatureMessage root 1), zeroHash)) := by
  have embedded : (signedReader root).embeddedSignature =
      .ok (some (plainEnv.sign zeroHash (contentSignatureMessage root 1), zeroHash)) := by
    apply embeddedSignature_hex
    · exact plainEnv.sign_length _ _
    · rfl
    · rfl
  have verified : (signedReader root).verifySignature plainEnv = .ok (.valid zeroHash) :=
    verifySignature_valid embedded rfl (plainEnv.verifies_sign _ _)
  rw [gate, verified, Outcome.ok_bind]
  exact embedded

theorem ingest_signedReader : ingestIntoStore plainEnv (recording knowing) (signedReader root) "asset" ((), []) =
    (.ok ⟨1, 0, 0⟩, ((), [signedRecord root])) := by
  rw [ingestIntoStore, gate_signedReader]
  rfl

theorem verifySignature_published_sample :
    (manifestOf (fun _ => none) (signedRecord (numberHash [1]))).verifySignature plainEnv (toHex zeroHash) = .ok () := by
  refine (verifySignature_published plainEnv _ _ (openFile_signedFile _) knowing "asset" () () _ _ zeroHash
    (ingest_signedReader _) rfl fun _ => none).mpr ⟨rfl, fun signature signs => ?_⟩
  rw [(gate_some (gate_signedReader _)).2.1 signature signs]
  exact plainEnv.verifies_sign _ _

theorem root_of_verified {env : ContainerEnv} {manifest : Manifest} {trustedHex : String}
    (h : manifest.verifySignature env trustedHex = .ok ()) : ∃ leaves, hashesFromHex manifest.chunkTable = some leaves ∧
      eqIgnoreAsciiCase manifest.merkleRoot (toHex (merkleRoot env.hashChunk leaves)) = true := by
  rw [Manifest.verifySignature] at h
  split at h
  · cases h
  · cases h
  · split at h
    · cases h
    · split at h
      · cases h
      · rename_i leaves table
        dsimp only at h
        split at h
        · cases h
        · rename_i same
          exact ⟨leaves, table, by simpa using same⟩

/-- The gate does not look at the chunk table. -/
theorem gate_disagrees : ¬ ∀ (env : ContainerEnv) (file : Bytes) (r : Reader), Reader.openFile env file = .ok r →
    ∀ (σ : Type) (calls : StoreCalls σ) (name : String) (s s' : σ) (stats : IngestStats) (record : AssetRecord)
      (pk : ChunkHash), ingestIntoStore env (recording calls) r name (s, []) = (.ok stats, (s', [record])) →
      record.signerPubkey = some (toHex pk) → ∀ chunkInfo : ChunkHash → Option ChunkInfo,
        (manifestOf chunkInfo record).verifySignature env (toHex pk) = .ok () := by
  intro agrees
  have verified := agrees plainEnv _ _ (openFile_signedFile ⟨List.replicate 32 1, rfl⟩) Unit knowing "asset" () () _ _
    zeroHash (ingest_signedReader ⟨List.replicate 32 1, rfl⟩) rfl fun _ => none
  obtain ⟨leaves, table, same⟩ := root_of_verified verified
  obtain rfl : [numberHash [1]] = leaves := Option.some.inj ((hashesFromHex_map (signedTables zeroHash).chunks).symm.trans table)
  have equal := (eqIgnoreAsciiCase_toHex ⟨List.replicate 32 1, rfl⟩ (numberHash [1])).mp same
  revert equal
  decide

end Sample
end Cavs
