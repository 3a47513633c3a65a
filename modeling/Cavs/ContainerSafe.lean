import Cavs.ContainerWriter
import Cavs.Ingest
import Cavs.ScanPrefix

/-!
# What a hostile container can do

A container is checked where its tables are read. Where its chunks lie, what its tables
refer to and what its signature is spelled with is not, and decides whether a method comes
back.
-/
namespace Cavs
open FileProg (Bytes)
open ByteScan
open Outcome (error_bind ok_bind returns_ofExcept returns_ofOption)
open Reader (chunkAt chunkPlace hexField openFile track)

section Spec

/-- No slice of two bytes behind hex digits cuts a character. -/
def CutsClean (text : Bytes) : Prop :=
  ∀ front rest, text = front ++ rest → (hexBytes front).isSome → 2 ≤ rest.length →
    isBoundary rest = true ∧ isBoundary (rest.drop 2) = true

/-- The text of a signature, and what it says. -/
def Reader.Signs (r : Reader) (signature : Bytes) : Prop :=
  ∃ text, r.metaValue "sig.ed25519" = some text ∧ (strBytes text).length = 64 * 2 ∧
    hexBytes (strBytes text) = some signature

def Reader.Names (r : Reader) (pk : ChunkHash) : Prop :=
  ∃ text, r.metaValue "sig.pubkey" = some text ∧ (strBytes text).length = 32 * 2 ∧
    hexBytes (strBytes text) = some pk.1

/-- No signature, or one that verifies. -/
def Reader.Accepted (env : ContainerEnv) (r : Reader) : Prop :=
  ∀ signature pk, r.Signs signature → r.Names pk → env.validKey pk = true ∧
    env.verifies pk (contentSignatureMessage r.integrity.merkleRoot r.integrity.chunkCount) signature = true

/-- The declared bounds of a chunk lie in the data section. -/
def Reader.Bounded (r : Reader) (c : ChunkRecord) : Prop :=
  c.dataOffset + c.lenStored.toNat ≤ r.dataLen ∧ c.lenRaw.toNat ≤ maxChunkRaw

instance (r : Reader) (c : ChunkRecord) : Decidable (r.Bounded c) := inferInstanceAs (Decidable (_ ∧ _))

/-- The stored form of a chunk is in the file. -/
def Reader.Readable (r : Reader) (c : ChunkRecord) : Prop :=
  r.Bounded c ∧ r.position c < 2 ^ 63 ∧
    (c.lenStored.toNat = 0 ∨ r.position c + c.lenStored.toNat ≤ r.file.length)

def Reader.InRange (r : Reader) (index : UInt32) : Prop := index.toNat < r.chunks.length

/-- What an opened container has to be like, besides what `openFile` checks. -/
structure Sober (env : ContainerEnv) (r : Reader) : Prop where
  places : ∀ c ∈ r.chunks, r.Bounded c → r.dataOffset + c.dataOffset < 2 ^ 64
  buffers : ∀ c ∈ r.chunks, r.Bounded c → r.dataOffset + c.dataOffset < 2 ^ 63 →
    c.lenStored.toNat ≤ r.file.length
  signature : ∀ text, r.metaValue "sig.ed25519" = some text → (strBytes text).length = 64 * 2 →
    CutsClean (strBytes text)
  key : ∀ signature, r.Signs signature → ∀ text, r.metaValue "sig.pubkey" = some text →
    (strBytes text).length = 32 * 2 → CutsClean (strBytes text)
  indices : r.Accepted env → (∀ c ∈ r.chunks, r.Readable c) →
    (∀ t ∈ r.tracks, ∀ i ∈ t.initChunks, r.InRange i) ∧ (∀ s ∈ r.segments, ∀ i ∈ s.chunks, r.InRange i) ∧
      ∀ i ∈ r.dict, r.InRange i

/-- Every method on an opened container comes back, no sum of offsets on the way overflows, whether
that is checked or not, and no buffer is larger than the file. -/
structure ReaderHarmless (env : ContainerEnv) (r : Reader) : Prop where
  sums : ∀ i : UInt32, ∀ c, r.chunks[i.toNat]? = some c → r.Bounded c → r.dataOffset + c.dataOffset < 2 ^ 64
  readChunkStored : ∀ i, (r.readChunkStored i).Returns fun _ => True
  chunkBuffers : ∀ i pos c, r.chunkPlace i = .ok (pos, c) → c.lenStored.toNat ≤ r.file.length
  readChunk : ∀ i, (r.readChunk env i).Returns fun _ => True
  segmentBytes : ∀ segment, (r.segmentBytes env segment).Returns fun _ => True
  trackInitBytes : ∀ id, (r.trackInitBytes env id).Returns fun _ => True
  embeddedSignature : r.embeddedSignature.Returns fun _ => True
  verifySignature : (r.verifySignature env).Returns fun _ => True
  verify : (r.verify env).Returns fun _ => True
  ingest : ∀ (σ : Type) (calls : StoreCalls σ) (name : String) (s : σ),
    (ingestIntoStore env calls r name s).1.Returns fun _ => True

/-- A file does no harm: neither while it is opened nor afterwards. -/
structure Harmless (env : ContainerEnv) (file : Bytes) : Prop where
  buffers : ∀ offset length what pos n, placeIn file.length offset length what = .ok (pos, n) → n ≤ file.length
  opens : (openFile env file).Returns (ReaderHarmless env)

end Spec

section Hex

theorem cutsClean_cons {c d : UInt8} {rest : Bytes} : CutsClean (c :: d :: rest) ↔
    (isBoundary (c :: d :: rest) = true ∧ isBoundary rest = true) ∧
      ((hexByte c d).isSome → CutsClean rest) := by
  constructor
  · intro clean
    constructor
    · exact clean [] (c :: d :: rest) rfl rfl (Nat.le_add_left 2 rest.length)
    · intro digits front back split some_ long
      apply clean (c :: d :: front) back
      · rw [split]
        rfl
      · obtain ⟨b, pair⟩ := Option.isSome_iff_exists.mp digits
        obtain ⟨bs, more⟩ := Option.isSome_iff_exists.mp some_
        rw [hexBytes, pair, more]
        rfl
      · exact long
  · rintro ⟨first, later⟩ front back split some_ long
    cases front with
    | nil =>
        rw [List.nil_append] at split
        rw [← split]
        exact first
    | cons x front =>
        cases front with
        | nil => cases some_
        | cons y front =>
            simp only [List.cons_append, List.cons.injEq] at split
            obtain ⟨rfl, rfl, split⟩ := split
            cases pair : hexByte c d with
            | none =>
                rw [hexBytes, pair] at some_
                cases some_
            | some b =>
                rw [hexBytes, pair, Option.bind_some, Option.isSome_map] at some_
                exact later (pair ▸ rfl) front back split some_ long

theorem cutsClean_short {text : Bytes} (short : text.length < 2) : CutsClean text := by
  intro front rest split _ long
  have lengths := congrArg List.length split
  rw [List.length_append] at lengths
  omega

theorem hexPairsOf_spec (text : Bytes) :
    (CutsClean text → hexPairsOf text = .ok (hexBytes text)) ∧ (¬ CutsClean text → hexPairsOf text = .panics) := by
  fun_induction hexPairsOf text with
  | case1 => exact ⟨fun _ => rfl, fun dirty => absurd (cutsClean_short (by decide)) dirty⟩
  | case2 c => exact ⟨fun _ => rfl, fun dirty => absurd (cutsClean_short (by simp)) dirty⟩
  | case3 c d rest whole digits =>
      rw [Bool.and_eq_true] at whole
      have clean : CutsClean (c :: d :: rest) := cutsClean_cons.mpr ⟨whole, fun h => by rw [digits] at h; cases h⟩
      refine ⟨fun _ => ?_, fun dirty => absurd clean dirty⟩
      rw [hexBytes, digits]
      rfl
  | case4 c d rest whole b digits ih =>
      rw [Bool.and_eq_true] at whole
      constructor
      · intro clean
        rw [ih.1 ((cutsClean_cons.mp clean).2 (digits ▸ rfl)), hexBytes, digits]
        rfl
      · intro dirty
        rw [ih.2 fun clean => dirty (cutsClean_cons.mpr ⟨whole, fun _ => clean⟩)]
        rfl
  | case5 c d rest cut =>
      refine ⟨fun clean => ?_, fun _ => rfl⟩
      rw [Bool.and_eq_true] at cut
      exact absurd (cutsClean_cons.mp clean).1 cut

end Hex

section Places
variable {file : Bytes} {pos n : Nat} {r : Reader} {i : UInt32} {c : ChunkRecord}

theorem readAt_returns : (readAt file pos n).Returns fun b => b.length = n := by
  rw [readAt]
  split
  · trivial
  · dsimp only
    split
    · assumption
    · trivial

theorem placeIn_returns (file : Bytes) (offset length : Nat) (what : String) :
    (placeIn file.length offset length what).Returns fun p => p.2 ≤ file.length := by
  rw [placeIn]
  split
  · trivial
  · rename_i inside
    rw [checkedSub, if_pos (Nat.le_of_not_lt inside), ok_bind]
    split
    · trivial
    · rename_i fits
      change length ≤ file.length
      omega

/-- A sum that fits does not wrap. -/
theorem position_eq (fits : r.dataOffset + c.dataOffset < 2 ^ 64) : r.position c = r.dataOffset + c.dataOffset := by
  rw [Reader.position]
  split
  · rfl
  · exact Nat.mod_eq_of_lt fits

/-- What is made of a chunk record. -/
theorem chunkPlace_some (found : r.chunks[i.toNat]? = some c) : r.chunkPlace i =
    if r.Bounded c then
      if r.position c < 2 ^ 64 then
        if 2 ^ 63 ≤ r.position c then .error (.io .other) else .ok (r.position c, c)
      else .panics
    else .error (.malformed "chunk bounds") := by
  rw [chunkPlace, found]
  simp only [Outcome.ofOption, ok_bind]
  by_cases before : c.dataOffset > r.dataLen
  · rw [if_pos before, if_neg fun bounds => by
      have inside := bounds.1
      omega]
  · rw [if_neg before, checkedSub, if_pos (Nat.le_of_not_lt before), ok_bind]
    have same : (c.lenStored.toNat > r.dataLen - c.dataOffset ∨ c.lenRaw.toNat > maxChunkRaw) ↔ ¬ r.Bounded c := by
      rw [Reader.Bounded]
      omega
    by_cases bounds : r.Bounded c
    · rw [if_pos bounds, if_neg (mt same.mp (not_not.mpr bounds)), checked]
      by_cases fits : r.position c < 2 ^ 64
      · rw [if_pos fits, if_pos fits, ok_bind]
        rfl
      · rw [if_neg fits, if_neg fits]
        rfl
    · rw [if_neg bounds, if_pos (same.mpr bounds)]

theorem chunkPlace_none (absent : r.chunks[i.toNat]? = none) :
    r.chunkPlace i = .error (.chunkIndexOutOfRange i) := by
  rw [chunkPlace, absent]
  rfl

variable (file pos n) in
theorem readAt_ok_iff : (∃ b, readAt file pos n = .ok b) ↔ pos < 2 ^ 63 ∧ (n = 0 ∨ pos + n ≤ file.length) := by
  rw [readAt]
  by_cases far : 2 ^ 63 ≤ pos
  · rw [if_pos far]
    simp only [reduceCtorEq, exists_const, false_iff]
    omega
  · rw [if_neg far]
    dsimp only
    rw [List.length_take, List.length_drop]
    by_cases long : min n (file.length - pos) = n
    · rw [if_pos long]
      simp only [Outcome.ok.injEq, exists_eq', true_iff]
      omega
    · rw [if_neg long]
      simp only [reduceCtorEq, exists_const, false_iff]
      omega

/-- No sum of offsets ends the program. -/
def Placed (r : Reader) : Prop := ∀ c ∈ r.chunks, r.Bounded c → r.position c < 2 ^ 64

theorem readChunkStored_returns (placed : Placed r) : (r.readChunkStored i).Returns fun p =>
    ∃ c, r.chunks[i.toNat]? = some c ∧ r.Bounded c ∧ p.1.length = c.lenStored.toNat ∧ p.2 = (c.flags, c.lenRaw) := by
  rw [Reader.readChunkStored]
  cases found : r.chunks[i.toNat]? with
  | none =>
      rw [chunkPlace_none found]
      trivial
  | some c =>
      have mem : c ∈ r.chunks := List.mem_of_getElem? found
      rw [chunkPlace_some found]
      by_cases bounded : r.Bounded c
      · rw [if_pos bounded, if_pos (placed c mem bounded)]
        split
        · trivial
        · rw [ok_bind]
          refine .bind readAt_returns fun stored long => ?_
          exact ⟨c, rfl, bounded, long, rfl⟩
      · rw [if_neg bounded]
        trivial

theorem readChunkStored_ok_iff :
    (∃ p, r.readChunkStored i = .ok p) ↔ ∃ c, r.chunks[i.toNat]? = some c ∧ r.Readable c := by
  rw [Reader.readChunkStored]
  cases found : r.chunks[i.toNat]? with
  | none =>
      rw [chunkPlace_none found]
      simp
  | some c =>
      rw [chunkPlace_some found]
      simp only [Option.some.injEq, exists_eq_left', Reader.Readable]
      by_cases bounded : r.Bounded c
      · rw [if_pos bounded]
        by_cases fits : r.position c < 2 ^ 64
        · rw [if_pos fits]
          by_cases far : 2 ^ 63 ≤ r.position c
          · rw [if_pos far]
            simp only [error_bind, reduceCtorEq, exists_const, false_iff]
            omega
          · rw [if_neg far, ok_bind]
            have read := readAt_ok_iff r.file (r.position c) c.lenStored.toNat
            constructor
            · rintro ⟨p, ok⟩
              cases stored : readAt r.file (r.position c) c.lenStored.toNat with
              | ok b => exact ⟨bounded, read.mp ⟨b, stored⟩⟩
              | error e => rw [stored] at ok; cases ok
              | panics => rw [stored] at ok; cases ok
            · rintro ⟨-, place⟩
              obtain ⟨b, stored⟩ := read.mpr place
              rw [stored]
              exact ⟨_, rfl⟩
        · rw [if_neg fits]
          simp only [Outcome.panics_bind, reduceCtorEq, exists_const, false_iff]
          omega
      · rw [if_neg bounded]
        simp only [error_bind, reduceCtorEq, exists_const, false_iff]
        exact fun h => bounded h.1

variable {env : ContainerEnv}

theorem readChunk_returns (placed : Placed r) :
    (r.readChunk env i).Returns fun raw => raw.length ≤ maxChunkRaw := by
  rw [Reader.readChunk]
  refine .bind (readChunkStored_returns placed) fun ⟨stored, flags, lenRaw⟩ known => ?_
  obtain ⟨c, found, bounded, -, words⟩ := known
  obtain ⟨rfl, rfl⟩ := Prod.mk.inj words
  dsimp only
  cases unpackStored env c.flags c.lenRaw stored with
  | error e => trivial
  | ok raw =>
      dsimp only
      rw [chunkAt, found, ok_bind]
      split
      · trivial
      · rename_i checked_
        have length : raw.length = c.lenRaw.toNat := by
          by_contra differs
          exact checked_ (.inl differs)
        change raw.length ≤ maxChunkRaw
        rw [length]
        exact bounded.2

theorem chunksBytes_returns (placed : Placed r) (l : List UInt32) :
    (r.chunksBytes env l).Returns fun _ => True := by
  induction l with
  | nil => trivial
  | cons c rest ih =>
      rw [Reader.chunksBytes]
      exact .bind (readChunk_returns placed) fun raw _ => .bind ih fun _ _ => trivial

theorem trackInitBytes_returns (placed : Placed r) (id : UInt32) :
    (r.trackInitBytes env id).Returns fun _ => True := by
  rw [Reader.trackInitBytes, track]
  exact .bind (P := fun _ => True) (returns_ofOption fun _ _ => trivial)
    fun t _ => chunksBytes_returns placed t.initChunks

theorem countBytes_returns (placed : Placed r) (left index bytes : Nat)
    (room : bytes + left * maxChunkRaw < 2 ^ 64) : (r.countBytes env left index bytes).Returns fun _ => True := by
  induction left generalizing index bytes with
  | zero => trivial
  | succ left ih =>
      rw [Reader.countBytes]
      refine .bind (readChunk_returns placed) fun raw short => ?_
      have fits : bytes + raw.length + left * maxChunkRaw < 2 ^ 64 := by
        rw [Nat.succ_mul] at room
        omega
      rw [checked, if_pos (by omega), ok_bind]
      exact ih (index + 1) (bytes + raw.length) fits

theorem verify_returns (placed : Placed r) : (r.verify env).Returns fun _ => True := by
  have few := (UInt32.ofNat r.chunks.length).toNat_lt
  rw [Reader.verify]
  refine .bind (countBytes_returns placed _ 0 0 ?_) fun bytes _ => ?_
  · rw [maxChunkRaw]
    omega
  · split
    · trivial
    · refine .bind (P := fun _ => True) (returns_ofOption fun _ _ => trivial)
        fun data _ => ?_
      refine .bind readAt_returns fun dataBytes _ => ?_
      split <;> trivial

end Places

section Signature
variable {env : ContainerEnv} {r : Reader} {key : String} {len : Nat}

theorem hexField_clean
    (clean : ∀ text, r.metaValue key = some text → (strBytes text).length = len * 2 → CutsClean (strBytes text)) :
    ∃ o, r.hexField key len = .ok o ∧ ∀ b, o = some b ↔
      ∃ text, r.metaValue key = some text ∧ (strBytes text).length = len * 2 ∧ hexBytes (strBytes text) = some b := by
  rw [hexField]
  cases found : r.metaValue key with
  | none => exact ⟨none, rfl, by simp⟩
  | some text =>
      dsimp only
      by_cases long : (strBytes text).length = len * 2
      · rw [if_neg (not_not.mpr long), (hexPairsOf_spec _).1 (clean text found long)]
        exact ⟨_, rfl, by simp [long]⟩
      · rw [if_pos long]
        exact ⟨none, rfl, by simp [long]⟩

theorem hexField_dirty {text : String} (found : r.metaValue key = some text)
    (long : (strBytes text).length = len * 2) (dirty : ¬ CutsClean (strBytes text)) :
    r.hexField key len = .panics := by
  rw [hexField, found]
  dsimp only
  rw [if_neg (not_not.mpr long), (hexPairsOf_spec _).2 dirty]

/-- The texts of the signature and of its key cut no characters. -/
structure CleanTexts (r : Reader) : Prop where
  signature : ∀ text, r.metaValue "sig.ed25519" = some text → (strBytes text).length = 64 * 2 →
    CutsClean (strBytes text)
  key : ∀ signature, r.Signs signature → ∀ text, r.metaValue "sig.pubkey" = some text →
    (strBytes text).length = 32 * 2 → CutsClean (strBytes text)

theorem embeddedSignature_clean (clean : CleanTexts r) :
    ∃ o, r.embeddedSignature = .ok o ∧ ∀ signature pk, o = some (signature, pk) ↔ r.Signs signature ∧ r.Names pk := by
  obtain ⟨o, field, means⟩ := hexField_clean clean.signature
  rw [Reader.embeddedSignature, field, ok_bind]
  cases o with
  | none =>
      refine ⟨none, rfl, fun signature pk => ?_⟩
      simp only [reduceCtorEq, false_iff]
      rintro ⟨signs, -⟩
      cases (means signature).mpr signs
  | some signature =>
      have signs : r.Signs signature := (means signature).mp rfl
      obtain ⟨o', field', means'⟩ := hexField_clean (clean.key signature signs)
      dsimp only
      rw [field', ok_bind]
      refine ⟨_, rfl, fun signature' pk => ?_⟩
      have only : r.Signs signature' ↔ signature = signature' := by
        rw [Reader.Signs, ← means signature', Option.some.injEq]
      have names : r.Names pk ↔ o' = some pk.1 := (means' pk.1).symm
      rw [only, names]
      cases o' with
      | none => simp
      | some key =>
          simp only [Option.bind_some, Option.map_eq_some_iff, Prod.mk.injEq, Option.some.injEq]
          constructor
          · rintro ⟨pk', hash, same, rfl⟩
            refine ⟨same, ?_⟩
            rw [hashOf] at hash
            split at hash
            · cases hash
              rfl
            · cases hash
          · rintro ⟨same, rfl⟩
            exact ⟨pk, hashOf_val pk, same, rfl⟩

theorem cleanTexts_of_returns (h : r.embeddedSignature.Returns fun _ => True) : CleanTexts r := by
  have signature : ∀ text, r.metaValue "sig.ed25519" = some text → (strBytes text).length = 64 * 2 →
      CutsClean (strBytes text) := by
    intro text found long
    by_contra dirty
    rw [Reader.embeddedSignature, hexField_dirty found long dirty] at h
    exact h
  refine ⟨signature, ?_⟩
  intro signature_ signs text found long
  by_contra dirty
  obtain ⟨o, field, means⟩ := hexField_clean signature
  rw [(means signature_).mpr signs] at field
  rw [Reader.embeddedSignature, field, ok_bind] at h
  dsimp only at h
  rw [hexField_dirty found long dirty] at h
  exact h

variable (env) in
/-- The gate: who is let through, and with what. -/
theorem gate_clean (clean : CleanTexts r) :
    (r.verifySignature env).Returns (fun _ => True) ∧
    (gate env r).Returns (fun o => r.Accepted env ∧
      ∀ signature pk, o = some (signature, pk) ↔ r.Signs signature ∧ r.Names pk) ∧
    (r.Accepted env → ∃ o, gate env r = .ok o) := by
  obtain ⟨o, embedded, means⟩ := embeddedSignature_clean clean
  rw [gate, Reader.verifySignature, embedded]
  simp only [ok_bind]
  cases o with
  | none =>
      refine ⟨trivial, ⟨?_, means⟩, fun _ => ⟨none, rfl⟩⟩
      intro signature pk signs names
      cases (means signature pk).mpr ⟨signs, names⟩
  | some p =>
      obtain ⟨signature, pk⟩ := p
      obtain ⟨signs, names⟩ := (means signature pk).mp rfl
      dsimp only
      by_cases valid : env.validKey pk = true
      · rw [if_neg (by rw [valid]; decide)]
        by_cases good : env.verifies pk
            (contentSignatureMessage r.integrity.merkleRoot r.integrity.chunkCount) signature = true
        · rw [if_neg (by rw [good]; decide)]
          refine ⟨trivial, ⟨?_, means⟩, fun _ => ⟨_, rfl⟩⟩
          intro signature' pk' signs' names'
          have same := (means signature' pk').mpr ⟨signs', names'⟩
          cases same
          exact ⟨valid, good⟩
        · rw [if_pos (Bool.not_eq_true _ ▸ good)]
          refine ⟨trivial, trivial, fun accepted => ?_⟩
          exact absurd (accepted signature pk signs names).2 good
      · rw [if_pos (Bool.not_eq_true _ ▸ valid)]
        refine ⟨trivial, trivial, fun accepted => ?_⟩
        exact absurd (accepted signature pk signs names).1 valid

end Signature

section Ingest
variable {env : ContainerEnv} {r : Reader} {σ : Type} {calls : StoreCalls σ}

variable (calls) in
theorem putChunks_returns (placed : Placed r) (left index : Nat) (stats : IngestStats) (s : σ)
    (room : stats.newBytes + left * 4294967295 < 2 ^ 64) :
    (putChunks calls r left index stats s).1.Returns fun _ =>
      ∀ k, index ≤ k → k < index + left → ∃ p, r.readChunkStored (UInt32.ofNat k) = .ok p := by
  induction left generalizing index stats s with
  | zero =>
      intro k low high
      omega
  | succ left ih =>
      have back := readChunkStored_returns (i := UInt32.ofNat index) placed
      rw [putChunks]
      cases read : r.readChunkStored (UInt32.ofNat index) with
      | error e => trivial
      | panics =>
          rw [read] at back
          exact back
      | ok p =>
          obtain ⟨stored, flags, lenRaw⟩ := p
          rw [read] at back
          obtain ⟨c, found, -, long, -⟩ := back
          have small := c.lenStored.toNat_lt
          have later : ∀ {o : FormatResult IngestStats}, (o.Returns fun _ =>
              ∀ k, index + 1 ≤ k → k < index + 1 + left → ∃ p, r.readChunkStored (UInt32.ofNat k) = .ok p) →
              o.Returns fun _ => ∀ k, index ≤ k → k < index + (left + 1) →
                ∃ p, r.readChunkStored (UInt32.ofNat k) = .ok p := by
            intro o returns
            refine returns.mono fun _ all k low high => ?_
            rcases Nat.eq_or_lt_of_le low with rfl | above
            · exact ⟨_, read⟩
            · exact all k above (by omega)
          rw [Nat.succ_mul] at room
          have less : stats.newBytes + left * 4294967295 < 2 ^ 64 := by
            generalize left * 4294967295 = rest at room ⊢
            omega
          have more : stats.newBytes + stored.length + left * 4294967295 < 2 ^ 64 := by
            dsimp only at long
            generalize left * 4294967295 = rest at room ⊢
            omega
          simp only [chunkAt, found]
          cases put : calls.putChunk c.hash stored flags lenRaw s with
          | mk answer s' =>
              cases answer with
              | error e => trivial
              | ok new =>
                  cases new with
                  | false => exact later (ih (index + 1) stats s' less)
                  | true =>
                      dsimp only
                      rw [checked, if_pos (by omega)]
                      exact later (ih (index + 1) ⟨stats.chunks, stats.newChunks + 1, stats.newBytes + stored.length⟩ s' more)

/-- A store that has every chunk takes them all. -/
def knowing : StoreCalls Unit := ⟨fun _ _ _ _ s => (.ok false, s), fun _ s => (.ok (), s)⟩

theorem putChunks_knowing (left index : Nat) (stats : IngestStats)
    (all : ∀ k, index ≤ k → k < index + left → ∃ p, r.readChunkStored (UInt32.ofNat k) = .ok p) :
    putChunks knowing r left index stats () = (.ok stats, ()) := by
  induction left generalizing index with
  | zero => rfl
  | succ left ih =>
      obtain ⟨⟨stored, flags, lenRaw⟩, read⟩ := all index (Nat.le_refl index) (by omega)
      obtain ⟨c, found, -⟩ := readChunkStored_ok_iff.mp ⟨_, read⟩
      rw [putChunks, read]
      simp only [chunkAt, found, knowing]
      exact ih (index + 1) fun k low high => all k (by omega) (by omega)

section Names
variable {chunks : List ChunkRecord} {i : UInt32} {l : List UInt32}

theorem hexAll_inRange (inside : ∀ i ∈ l, i.toNat < chunks.length) :
    ∃ names, hexAll chunks l = .ok names := by
  induction l with
  | nil => exact ⟨[], rfl⟩
  | cons i rest ih =>
      obtain ⟨names, more⟩ := ih fun j mem => inside j (List.mem_cons_of_mem i mem)
      have here := inside i List.mem_cons_self
      rw [hexAll, hexAt, List.getElem?_eq_getElem here, more]
      exact ⟨_, rfl⟩

theorem hexAll_outOfRange (mem : i ∈ l) (outside : ¬ i.toNat < chunks.length) :
    hexAll chunks l = .panics := by
  induction l with
  | nil => cases mem
  | cons j rest ih =>
      rw [hexAll, hexAt]
      by_cases here : j.toNat < chunks.length
      · rcases List.mem_cons.mp mem with rfl | later
        · exact absurd here outside
        · rw [List.getElem?_eq_getElem here, ih later]
          rfl
      · rw [List.getElem?_eq_none (Nat.le_of_not_lt here)]
        rfl

/-- What the tables of tracks and of segments have in common: each row names chunks by their indices. -/
def namedAll {A B : Type} (chunks : List ChunkRecord) (indices : A → List UInt32) (make : A → List String → B) :
    List A → FormatResult (List B)
  | [] => return []
  | a :: rest => do
      let names ← hexAll chunks (indices a)
      return make a names :: (← namedAll chunks indices make rest)

section Table
variable {A B : Type} {indices : A → List UInt32} {make : A → List String → B} {l : List A}

theorem namedAll_inRange (inside : ∀ a ∈ l, ∀ i ∈ indices a, i.toNat < chunks.length) :
    ∃ rows, namedAll chunks indices make l = .ok rows := by
  induction l with
  | nil => exact ⟨[], rfl⟩
  | cons a rest ih =>
      obtain ⟨rows, more⟩ := ih fun a' mem => inside a' (List.mem_cons_of_mem a mem)
      obtain ⟨names, here⟩ := hexAll_inRange (inside a List.mem_cons_self)
      rw [namedAll, here, more]
      exact ⟨_, rfl⟩

theorem namedAll_outOfRange {a : A} (mem : a ∈ l) {i : UInt32} (listed : i ∈ indices a)
    (outside : ¬ i.toNat < chunks.length) : namedAll chunks indices make l = .panics := by
  induction l with
  | nil => cases mem
  | cons a' rest ih =>
      rw [namedAll]
      by_cases inside : ∀ j ∈ indices a', j.toNat < chunks.length
      · rcases List.mem_cons.mp mem with rfl | later
        · exact absurd (inside i listed) outside
        · obtain ⟨names, here⟩ := hexAll_inRange inside
          rw [here, ih later]
          rfl
      · push Not at inside
        obtain ⟨j, listed', far⟩ := inside
        rw [hexAll_outOfRange listed' (Nat.not_lt.mpr far)]
        rfl

end Table

theorem storeTracks_named (l : List TrackRecord) : storeTracks chunks l =
    namedAll chunks TrackRecord.initChunks (fun t names => ⟨t.trackId, t.kind.toU8, t.codec, t.name, t.timescale, names⟩) l := by
  induction l with
  | nil => rfl
  | cons t rest ih => rw [storeTracks, namedAll, ih]

theorem storeSegments_named (l : List SegmentRecord) : storeSegments chunks l =
    namedAll chunks SegmentRecord.chunks (fun s names => ⟨s.segmentId, s.trackId, s.ptsStart, s.duration,
      decide (s.flags &&& segmentFlagRandomAccess ≠ 0), names⟩) l := by
  induction l with
  | nil => rfl
  | cons s rest ih => rw [storeSegments, namedAll, ih]

theorem storeTracks_inRange {l : List TrackRecord} (inside : ∀ t ∈ l, ∀ i ∈ t.initChunks, i.toNat < chunks.length) :
    ∃ tracks, storeTracks chunks l = .ok tracks := by
  rw [storeTracks_named]
  exact namedAll_inRange inside

theorem storeTracks_outOfRange {l : List TrackRecord} {t : TrackRecord} (mem : t ∈ l)
    (listed : i ∈ t.initChunks) (outside : ¬ i.toNat < chunks.length) : storeTracks chunks l = .panics := by
  rw [storeTracks_named]
  exact namedAll_outOfRange mem listed outside

theorem storeSegments_inRange {l : List SegmentRecord} (inside : ∀ s ∈ l, ∀ i ∈ s.chunks, i.toNat < chunks.length) :
    ∃ segments, storeSegments chunks l = .ok segments := by
  rw [storeSegments_named]
  exact namedAll_inRange inside

theorem storeSegments_outOfRange {l : List SegmentRecord} {s : SegmentRecord} (mem : s ∈ l)
    (listed : i ∈ s.chunks) (outside : ¬ i.toNat < chunks.length) : storeSegments chunks l = .panics := by
  rw [storeSegments_named]
  exact namedAll_outOfRange mem listed outside

end Names

/-- Everything the tables refer to is in the chunk table. -/
def Indexed (r : Reader) : Prop :=
  (∀ t ∈ r.tracks, ∀ i ∈ t.initChunks, r.InRange i) ∧ (∀ s ∈ r.segments, ∀ i ∈ s.chunks, r.InRange i) ∧
    ∀ i ∈ r.dict, r.InRange i

theorem assetRecordOf_returns_iff (signature : Option (Bytes × ChunkHash)) (name : String) :
    ((assetRecordOf r signature name).Returns fun _ => True) ↔ Indexed r := by
  rw [assetRecordOf]
  constructor
  · intro returns
    have tracks : ∀ t ∈ r.tracks, ∀ i ∈ t.initChunks, r.InRange i := by
      intro t mem i listed
      by_contra outside
      rw [storeTracks_outOfRange mem listed outside] at returns
      exact returns
    obtain ⟨tracks_, first⟩ := storeTracks_inRange tracks
    rw [first, ok_bind] at returns
    have segments : ∀ s ∈ r.segments, ∀ i ∈ s.chunks, r.InRange i := by
      intro s mem i listed
      by_contra outside
      rw [storeSegments_outOfRange mem listed outside] at returns
      exact returns
    obtain ⟨segments_, second⟩ := storeSegments_inRange segments
    rw [second, ok_bind] at returns
    refine ⟨tracks, segments, fun i listed => ?_⟩
    by_contra outside
    rw [hexAll_outOfRange listed outside] at returns
    exact returns
  · rintro ⟨tracks, segments, dict⟩
    obtain ⟨tracks_, first⟩ := storeTracks_inRange tracks
    obtain ⟨segments_, second⟩ := storeSegments_inRange segments
    obtain ⟨dict_, third⟩ := hexAll_inRange dict
    rw [first, second, third]
    trivial

theorem ofNat_toNat {n : Nat} (few : n < 2 ^ 32) : (UInt32.ofNat n).toNat = n := by
  rw [UInt32.toNat_ofNat']
  exact Nat.mod_eq_of_lt few

theorem readable_of_read (few : r.chunks.length < 2 ^ 32)
    (all : ∀ k, 0 ≤ k → k < 0 + r.chunks.length → ∃ p, r.readChunkStored (UInt32.ofNat k) = .ok p) :
    ∀ c ∈ r.chunks, r.Readable c := by
  intro c mem
  obtain ⟨k, within, rfl⟩ := List.getElem_of_mem mem
  obtain ⟨c, found, readable⟩ := readChunkStored_ok_iff.mp (all k (Nat.zero_le k) (by omega))
  rw [ofNat_toNat (by omega), List.getElem?_eq_getElem within, Option.some.injEq] at found
  rw [found]
  exact readable

theorem read_of_readable (few : r.chunks.length < 2 ^ 32) (all : ∀ c ∈ r.chunks, r.Readable c) :
    ∀ k, 0 ≤ k → k < 0 + r.chunks.length → ∃ p, r.readChunkStored (UInt32.ofNat k) = .ok p := by
  intro k _ within
  rw [Nat.zero_add] at within
  refine readChunkStored_ok_iff.mpr ⟨r.chunks[k], ?_, all _ (List.getElem_mem within)⟩
  rw [ofNat_toNat (by omega), List.getElem?_eq_getElem within]

theorem ingest_returns (few : r.chunks.length < 2 ^ 32) (placed : Placed r) (clean : CleanTexts r)
    (indices : r.Accepted env → (∀ c ∈ r.chunks, r.Readable c) → Indexed r) (name : String) (s : σ) :
    (ingestIntoStore env calls r name s).1.Returns fun _ => True := by
  obtain ⟨-, through, -⟩ := gate_clean env clean
  rw [ingestIntoStore]
  cases gated : gate env r with
  | error e => trivial
  | panics =>
      rw [gated] at through
      exact through
  | ok signature =>
      rw [gated] at through
      have put := putChunks_returns calls placed r.chunks.length 0 ⟨r.chunks.length, 0, 0⟩ s (by
        dsimp only
        omega)
      dsimp only
      rw [ofNat_toNat few]
      cases result : putChunks calls r r.chunks.length 0 ⟨r.chunks.length, 0, 0⟩ s with
      | mk stats s' =>
          rw [result] at put
          cases stats with
          | error e => trivial
          | panics => exact put
          | ok stats =>
              have record := (assetRecordOf_returns_iff signature name).mpr
                (indices through.1 (readable_of_read few put))
              dsimp only
              cases made : assetRecordOf r signature name with
              | error e => trivial
              | panics =>
                  rw [made] at record
                  exact record
              | ok record =>
                  dsimp only
                  cases published : calls.publishAsset record s' with
                  | mk answer s'' => cases answer <;> trivial

theorem indexed_of_ingest (few : r.chunks.length < 2 ^ 32) (clean : CleanTexts r) (name : String)
    (returns : (ingestIntoStore env knowing r name ()).1.Returns fun _ => True)
    (accepted : r.Accepted env) (readable : ∀ c ∈ r.chunks, r.Readable c) : Indexed r := by
  obtain ⟨-, -, opens⟩ := gate_clean env clean
  obtain ⟨signature, gated⟩ := opens accepted
  rw [ingestIntoStore, gated] at returns
  dsimp only at returns
  rw [ofNat_toNat few, putChunks_knowing _ 0 _ (read_of_readable few readable)] at returns
  dsimp only at returns
  refine (assetRecordOf_returns_iff signature name).mp ?_
  cases made : assetRecordOf r signature name with
  | error e => trivial
  | panics =>
      rw [made] at returns
      exact returns
  | ok record => trivial

end Ingest

section Open
variable {env : ContainerEnv} {file : Bytes} {sections : List SectionEntry} {ty : SectionType} {b : Bytes}
  {what : String}

theorem runSection_ok {α : Type} {m : ContainerScan α} {a : α} (h : runSection m b = .ok a) :
    ∃ c t, m () ⟨0, b⟩ = (.ok (a, c), t) := by
  rw [runSection] at h
  cases run : m () ⟨0, b⟩ with
  | mk result t =>
      rw [run] at h
      cases result with
      | error e => cases h
      | ok p =>
          cases h
          exact ⟨p.2, t, rfl⟩

theorem wireTable_length {α : Type} {row : ContainerScan α} {P : α → Prop} (each : Yields row P) :
    Yields (wireTable what row) fun l => l.length < 2 ^ 32 ∧ ∀ x ∈ l, P x := by
  refine Yields.bind Yields.num fun n few => ?_
  intro s c l d t run
  have rows := Keeps.collect (I := fun _ => True) (P := fun _ => True) (m := row)
    (fun _ _ _ _ _ _ _ => ⟨trivial, trivial⟩) n s c l d t trivial run
  refine ⟨?_, Yields.collect each n s c l d t run⟩
  rw [rows.1.1]
  exact few

theorem decodeTable_length {α : Type} {row : ContainerScan α} {P : α → Prop} (each : Yields row P) {l : List α}
    (h : runSection (wireTable what row) b = .ok l) :
    l.length < 2 ^ 32 ∧ ∀ x ∈ l, P x := by
  obtain ⟨c, t, run⟩ := runSection_ok h
  exact wireTable_length each () _ l c t run

theorem yields_true {α : Type} {m : ContainerScan α} : Yields m fun _ => True := fun _ _ _ _ _ _ => trivial

theorem readTrack_counted : Yields readTrack fun t => t.initChunks.length < 2 ^ 32 := by
  unfold readTrack
  refine .skip fun _ => .skip fun _ => .skip fun _ => .skip fun _ =>
    Yields.skip fun _ => .skip fun _ => .skip fun _ => ?_
  exact .bind (wireTable_length yields_true) fun _ few => .pure few.1

theorem readSegment_counted : Yields readSegment fun s => s.chunks.length < 2 ^ 32 := by
  unfold readSegment
  refine .skip fun _ => .skip fun _ => .skip fun _ => .skip fun _ => .skip fun _ => ?_
  exact .bind (wireTable_length yields_true) fun _ few => .pure few.1

/-- Tables and lists of chunks that 32 bits count. -/
structure Reader.Counted (r : Reader) : Prop where
  tracks : r.tracks.length < 2 ^ 32 ∧ ∀ t ∈ r.tracks, t.initChunks.length < 2 ^ 32
  chunks : r.chunks.length < 2 ^ 32
  segments : r.segments.length < 2 ^ 32 ∧ ∀ s ∈ r.segments, s.chunks.length < 2 ^ 32
  metaPairs : r.metaPairs.length < 2 ^ 32

theorem readSuperblock_sections : Yields readSuperblock fun sb => sb.sectionCount < 2 ^ 32 := by
  unfold readSuperblock
  refine .skip fun _ => .skip fun _ => .skip fun _ => .skip fun _ =>
    Yields.skip fun _ => .skip fun _ => .skip fun _ => .skip fun _ => ?_
  refine .bind Yields.num fun count few => ?_
  exact .skip fun _ => .skip fun _ => .pure few

theorem checkSuperblock_returns {n : Nat} {sb : Superblock} : (checkSuperblock n sb).Returns fun _ => True := by
  rw [checkSuperblock]
  split
  · trivial
  · split
    · trivial
    · split
      · trivial
      · split <;> trivial

theorem findSection_returns :
    (findSection sections ty).Returns fun _ => True :=
  returns_ofOption fun _ _ => trivial

theorem readSection_returns :
    (readSection env file sections ty).Returns fun _ => True := by
  rw [readSection]
  refine .bind findSection_returns fun entry _ => ?_
  refine .bind (placeIn_returns _ _ _ _) fun place _ => ?_
  refine .bind readAt_returns fun bytes _ => ?_
  split <;> trivial

theorem decoded_returns {α : Type} {decode : Bytes → Except FormatError α} {β : Type} {f : α → FormatResult β}
    {P : β → Prop} (next : ∀ b a, decode b = .ok a → (f a).Returns P) :
    (do
      let a ← Outcome.ofExcept (decode (← readSection env file sections ty))
      f a : FormatResult β).Returns P := by
  refine .bind readSection_returns fun b _ => ?_
  exact .bind (returns_ofExcept fun a ok => ok) fun a ok => next b a ok

variable (env file) in
/-- Opening a file always comes back, with no longer tables than 32 bits count. -/
theorem openFile_returns : (openFile env file).Returns fun r => r.file = file ∧ r.Counted := by
  rw [openFile]
  refine .bind readAt_returns fun head _ => ?_
  split
  · trivial
  refine .bind (returns_ofExcept fun sb ok => ok) fun sb decoded => ?_
  refine .bind checkSuperblock_returns fun _ _ => ?_
  have few : sb.sectionCount < 2 ^ 32 := by
    obtain ⟨c, t, run⟩ := runSection_ok decoded
    exact readSuperblock_sections () _ sb c t run
  have place : (directoryPlace file.length sb).Returns fun p => p.2 ≤ file.length := by
    rw [directoryPlace, checked, if_pos (by rw [sectionDirEntryLen]; omega), ok_bind]
    exact placeIn_returns _ _ _ _
  refine .bind place fun _ _ => ?_
  refine .bind readAt_returns fun dirBytes _ => ?_
  refine .bind (P := fun _ => True) (returns_ofExcept fun _ _ => trivial) fun sections _ => ?_
  refine decoded_returns fun _ tracks trackTable => ?_
  refine decoded_returns fun _ dict _ => ?_
  refine decoded_returns fun _ chunks chunkTable => ?_
  refine decoded_returns fun _ segments segmentTable => ?_
  refine decoded_returns fun _ metaPairs metaTable => ?_
  refine decoded_returns fun _ integrity _ => ?_
  refine .bind findSection_returns fun data _ => ?_
  refine ⟨rfl, ?_⟩
  constructor
  · exact decodeTable_length readTrack_counted trackTable
  · exact (decodeTable_length yields_true chunkTable).1
  · exact decodeTable_length readSegment_counted segmentTable
  · exact (decodeTable_length yields_true metaTable).1

theorem readerHarmless_iff {r : Reader} (few : r.chunks.length < 2 ^ 32) : ReaderHarmless env r ↔ Sober env r := by
  constructor
  · intro harmless
    have clean := cleanTexts_of_returns harmless.embeddedSignature
    have index : ∀ c ∈ r.chunks, ∃ i : UInt32, r.chunks[i.toNat]? = some c := by
      intro c mem
      obtain ⟨k, within, rfl⟩ := List.getElem_of_mem mem
      refine ⟨UInt32.ofNat k, ?_⟩
      rw [ofNat_toNat (by omega), List.getElem?_eq_getElem within]
    constructor
    · intro c mem bounded
      obtain ⟨i, found⟩ := index c mem
      exact harmless.sums i c found bounded
    · intro c mem bounded near
      obtain ⟨i, found⟩ := index c mem
      apply harmless.chunkBuffers i (r.dataOffset + c.dataOffset) c
      rw [chunkPlace_some found, if_pos bounded, position_eq (by omega), if_pos (by omega), if_neg (Nat.not_le.mpr near)]
    · exact clean.signature
    · exact clean.key
    · exact indexed_of_ingest few clean "" (harmless.ingest Unit knowing "" ())
  · intro sober
    have placed : Placed r := fun c mem bounded => by
      rw [position_eq (sober.places c mem bounded)]
      exact sober.places c mem bounded
    have clean : CleanTexts r := ⟨sober.signature, sober.key⟩
    constructor
    · intro i c found
      exact sober.places c (List.mem_of_getElem? found)
    · intro i
      exact (readChunkStored_returns placed).mono fun _ _ => trivial
    · intro i pos c place
      cases found : r.chunks[i.toNat]? with
      | none =>
          rw [chunkPlace_none found] at place
          cases place
      | some c' =>
          rw [chunkPlace_some found] at place
          split at place
          · rename_i bounded
            rw [position_eq (sober.places c' (List.mem_of_getElem? found) bounded)] at place
            split at place
            · split at place
              · cases place
              · rename_i near
                cases place
                exact sober.buffers c (List.mem_of_getElem? found) bounded (Nat.lt_of_not_le near)
            · cases place
          · cases place
    · intro i
      exact (readChunk_returns placed).mono fun _ _ => trivial
    · intro segment
      exact chunksBytes_returns placed segment.chunks
    · exact trackInitBytes_returns placed
    · obtain ⟨o, embedded, -⟩ := embeddedSignature_clean clean
      rw [embedded]
      trivial
    · exact (gate_clean env clean).1
    · exact verify_returns placed
    · intro σ calls name s
      exact ingest_returns few placed clean sober.indices name s

/-- A file does no harm exactly when what it is opened to is sober. -/
theorem harmless_iff (env : ContainerEnv) (file : Bytes) :
    Harmless env file ↔ ∀ r, openFile env file = .ok r → Sober env r := by
  have opened := openFile_returns env file
  constructor
  · intro harmless r ok
    have inside := harmless.opens
    rw [ok] at inside opened
    exact (readerHarmless_iff opened.2.chunks).mp inside
  · intro sober
    constructor
    · intro offset length what pos n place
      have returns := placeIn_returns file offset length what
      rw [place] at returns
      exact returns
    · cases ok : openFile env file with
      | error e => trivial
      | panics =>
          rw [ok] at opened
          exact opened
      | ok r =>
          rw [ok] at opened
          exact (readerHarmless_iff opened.2.chunks).mpr (sober r ok)

/-- A container without chunks whose dictionary names one. -/
def danglingTables : Tables := ⟨[], [0], [], [], [], ⟨zeroHash, 0, 0, 0⟩⟩

def danglingFile : Bytes :=
  containerBytes plainEnv (superblockOf plainEnv compressionNone 0 zeroUuid [] danglingTables) []
    danglingTables

theorem openFile_danglingFile : (match openFile plainEnv danglingFile with
    | .ok r => decide (r.dict = [0] ∧ r.chunks = [] ∧ r.metaPairs = [])
    | _ => false) = true := by
  decide +kernel

theorem not_harmless_danglingFile : ¬ ∀ (env : ContainerEnv) (file : Bytes), Harmless env file := by
  intro harmless
  obtain ⟨file, opened⟩ : ∃ file, (match openFile plainEnv file with
      | .ok r => decide (r.dict = [0] ∧ r.chunks = [] ∧ r.metaPairs = [])
      | _ => false) = true := ⟨danglingFile, openFile_danglingFile⟩
  have opens := (harmless plainEnv file).opens
  cases ok : openFile plainEnv file with
  | error e =>
      rw [ok] at opened
      cases opened
  | panics =>
      rw [ok] at opened
      cases opened
  | ok r =>
      rw [ok] at opened opens
      obtain ⟨dict, chunks, metaPairs⟩ := of_decide_eq_true opened
      have few : r.chunks.length < 2 ^ 32 := by
        rw [chunks]
        decide
      have sober := (readerHarmless_iff few).mp opens
      have accepted : r.Accepted plainEnv := by
        rintro signature pk ⟨text, found, -⟩
        rw [Reader.metaValue, metaPairs] at found
        cases found
      have inside := (sober.indices accepted (by simp [chunks])).2.2 0 (by simp [dict])
      rw [Reader.InRange, chunks] at inside
      cases inside

end Open
end Cavs
