import Cavs.Gate

/-!
# What a container may put into a store

A store that several assets share is told by what it holds for each chunk: the first stored
form of a chunk stays. Ingest puts stored forms into it without decoding them, so the store
stays truthful exactly when every form that can get there decodes to its name.
-/
namespace Cavs
open FileProg (Bytes)

section Spec
variable (env : ContainerEnv)

structure StoredChunk where
  stored : Bytes
  flags : UInt32
  lenRaw : UInt32
  deriving DecidableEq, Repr

abbrev Holdings := ChunkHash → Option StoredChunk

/-- The stored form decodes to bytes that have the name of the chunk. -/
def Decodes (hash : ChunkHash) (c : StoredChunk) : Prop :=
  ∃ raw, unpackStored env c.flags c.lenRaw c.stored = .ok raw ∧ env.hashChunk raw = hash

/-- Every chunk of a store decodes to its name. -/
def Truthful (held : Holdings) : Prop := ∀ hash c, held hash = some c → Decodes env hash c

/-- How the calls of a store change what it holds: a chunk it has is kept, a new one is
taken in, and a call may fail before that or after it. -/
structure StoreCalls.Lawful {σ : Type} (calls : StoreCalls σ) (held : σ → Holdings) : Prop where
  known : ∀ hash stored flags lenRaw s, held s hash ≠ none →
    (calls.putChunk hash stored flags lenRaw s).1 = .ok false ∧
      held (calls.putChunk hash stored flags lenRaw s).2 = held s
  new : ∀ hash stored flags lenRaw s, held s hash = none →
    held (calls.putChunk hash stored flags lenRaw s).2 = held s ∨
      held (calls.putChunk hash stored flags lenRaw s).2 = Function.update (held s) hash (some ⟨stored, flags, lenRaw⟩)
  stays : ∀ hash stored flags lenRaw s b, (calls.putChunk hash stored flags lenRaw s).1 = .ok b →
    held (calls.putChunk hash stored flags lenRaw s).2 hash ≠ none
  publish : ∀ record s, held (calls.publishAsset record s).2 = held s

/-- The bytes of a chunk as they lie in the file. -/
def Reader.storedBytes (r : Reader) (c : ChunkRecord) : Bytes :=
  (r.file.drop (r.position c)).take c.lenStored.toNat

/-- Of a container that passes the gate: each chunk that can be read, with every chunk
before it, decodes to its name if its name was not met before. -/
def Honest (r : Reader) : Prop :=
  CleanTexts r → r.Accepted env → ∀ (k : Nat) (c : ChunkRecord), r.chunks[k]? = some c →
    (∀ (j : Nat) c', j ≤ k → r.chunks[j]? = some c' → r.Readable c') →
    (∀ (j : Nat) c', j < k → r.chunks[j]? = some c' → c'.hash ≠ c.hash) →
      Decodes env c.hash ⟨r.storedBytes c, c.flags, c.lenRaw⟩

end Spec

section Keep
variable {env : ContainerEnv} {r : Reader} {σ : Type} {calls : StoreCalls σ} {held : σ → Holdings}

theorem readChunkStored_ok {i : UInt32} {p : Bytes × UInt32 × UInt32} (h : r.readChunkStored i = .ok p) :
    ∃ c, r.chunks[i.toNat]? = some c ∧ r.Readable c ∧ p = (r.storedBytes c, c.flags, c.lenRaw) := by
  obtain ⟨c, found, readable⟩ := readChunkStored_ok_iff.mp ⟨p, h⟩
  refine ⟨c, found, readable, ?_⟩
  obtain ⟨bounded, near, -⟩ := readable
  rw [Reader.readChunkStored, chunkPlace_some found, if_pos bounded, if_pos (by omega), if_neg (by omega),
    Outcome.ok_bind] at h
  obtain ⟨stored, read, h⟩ := Outcome.ok_of_bindO h
  cases h
  rw [readAt, if_neg (by omega)] at read
  dsimp only at read
  split at read
  · cases read
    rfl
  · cases read

theorem gate_ok {signature : Option (Bytes × ChunkHash)} (h : gate env r = .ok signature) :
    CleanTexts r ∧ r.Accepted env := by
  have clean := gate_texts h
  obtain ⟨-, through, -⟩ := gate_clean env clean
  rw [h] at through
  exact ⟨clean, through.1⟩

/-- What a call puts into a truthful store keeps it truthful when it decodes. -/
theorem StoreCalls.Lawful.putChunk (lawful : calls.Lawful held) {hash : ChunkHash} {stored : Bytes}
    {flags lenRaw : UInt32} {s : σ} (truthful : Truthful env (held s))
    (decodes : held s hash = none → Decodes env hash ⟨stored, flags, lenRaw⟩) :
    Truthful env (held (calls.putChunk hash stored flags lenRaw s).2) := by
  by_cases known : held s hash = none
  · rcases lawful.new hash stored flags lenRaw s known with same | grown
    · rw [same]
      exact truthful
    · rw [grown]
      intro hash' c found
      by_cases here : hash' = hash
      · subst here
        rw [Function.update_self, Option.some.injEq] at found
        rw [← found]
        exact decodes known
      · rw [Function.update_of_ne here] at found
        exact truthful hash' c found
  · rw [(lawful.known hash stored flags lenRaw s known).2]
    exact truthful

theorem StoreCalls.Lawful.grows (lawful : calls.Lawful held) {hash hash' : ChunkHash} {stored : Bytes}
    {flags lenRaw : UInt32} {s : σ} (there : held s hash' ≠ none) :
    held (calls.putChunk hash stored flags lenRaw s).2 hash' ≠ none := by
  by_cases known : held s hash = none
  · rcases lawful.new hash stored flags lenRaw s known with same | grown
    · rw [same]
      exact there
    · rw [grown]
      by_cases here : hash' = hash
      · subst here
        simp
      · rw [Function.update_of_ne here]
        exact there
  · rw [(lawful.known hash stored flags lenRaw s known).2]
    exact there

/-- Chunk by chunk: everything before `index` was read and is held. -/
theorem putChunks_truthful (lawful : calls.Lawful held) (few : r.chunks.length < 2 ^ 32)
    (honest : ∀ (k : Nat) (c : ChunkRecord), r.chunks[k]? = some c →
      (∀ (j : Nat) c', j ≤ k → r.chunks[j]? = some c' → r.Readable c') →
      (∀ (j : Nat) c', j < k → r.chunks[j]? = some c' → c'.hash ≠ c.hash) →
        Decodes env c.hash ⟨r.storedBytes c, c.flags, c.lenRaw⟩)
    (left index : Nat) (last : index + left ≤ r.chunks.length) (stats : IngestStats) (s : σ)
    (truthful : Truthful env (held s))
    (before : ∀ (j : Nat) c', j < index → r.chunks[j]? = some c' → r.Readable c' ∧ held s c'.hash ≠ none) :
    Truthful env (held (putChunks calls r left index stats s).2) := by
  induction left generalizing index stats s with
  | zero => exact truthful
  | succ left ih =>
      rw [putChunks]
      cases read : r.readChunkStored (UInt32.ofNat index) with
      | error e => exact truthful
      | panics => exact truthful
      | ok p =>
          obtain ⟨c, found, readable, rfl⟩ := readChunkStored_ok read
          simp only [Reader.chunkAt, found]
          rw [ofNat_toNat (by omega)] at found
          have decodes : held s c.hash = none → Decodes env c.hash ⟨r.storedBytes c, c.flags, c.lenRaw⟩ := by
            intro absent
            refine honest index c found (fun j c' low there => ?_) fun j c' low there same => ?_
            · rcases Nat.eq_or_lt_of_le low with rfl | less
              · rw [found, Option.some.injEq] at there
                rw [← there]
                exact readable
              · exact (before j c' less there).1
            · exact (before j c' low there).2 (same ▸ absent)
          have after := lawful.putChunk truthful decodes
          have held_ := lawful.stays c.hash (r.storedBytes c) c.flags c.lenRaw s
          have grows : ∀ {hash' : ChunkHash}, held s hash' ≠ none →
              held (calls.putChunk c.hash (r.storedBytes c) c.flags c.lenRaw s).2 hash' ≠ none :=
            fun there => lawful.grows there
          cases put : calls.putChunk c.hash (r.storedBytes c) c.flags c.lenRaw s with
          | mk answer s' =>
              rw [put] at after held_ grows
              dsimp only at after held_ grows
              have next : ∀ b, answer = .ok b → ∀ (j : Nat) c', j < index + 1 → r.chunks[j]? = some c' →
                  r.Readable c' ∧ held s' c'.hash ≠ none := by
                intro b ok j c' low there
                rcases Nat.eq_or_lt_of_le (Nat.le_of_lt_succ low) with rfl | less
                · rw [found, Option.some.injEq] at there
                  rw [← there]
                  exact ⟨readable, held_ b ok⟩
                · obtain ⟨readable', there'⟩ := before j c' less there
                  exact ⟨readable', grows there'⟩
              cases answer with
              | error e => exact after
              | ok new =>
                  cases new with
                  | false => exact ih (index + 1) (by omega) stats s' after (next false rfl)
                  | true =>
                      dsimp only
                      cases checked (stats.newBytes + (r.storedBytes c).length) with
                      | error e => exact after
                      | panics => exact after
                      | ok newBytes => exact ih (index + 1) (by omega) _ s' after (next true rfl)

theorem ingest_keeps (lawful : calls.Lawful held) (few : r.chunks.length < 2 ^ 32) (honest : Honest env r)
    (name : String) {s : σ} (truthful : Truthful env (held s)) :
    Truthful env (held (ingestIntoStore env calls r name s).2) := by
  rw [ingestIntoStore]
  cases gated : gate env r with
  | error e => exact truthful
  | panics => exact truthful
  | ok signature =>
      obtain ⟨clean, accepted⟩ := gate_ok gated
      have put := putChunks_truthful lawful few (honest clean accepted) r.chunks.length 0 (by omega)
        ⟨r.chunks.length, 0, 0⟩ s truthful (fun j c' low => absurd low (Nat.not_lt_zero j))
      dsimp only
      rw [ofNat_toNat few]
      cases result : putChunks calls r r.chunks.length 0 ⟨r.chunks.length, 0, 0⟩ s with
      | mk stats s' =>
          rw [result] at put
          cases stats with
          | error e => exact put
          | panics => exact put
          | ok stats =>
              dsimp only
              cases assetRecordOf r signature name with
              | error e => exact put
              | panics => exact put
              | ok record =>
                  have same := lawful.publish record s'
                  dsimp only
                  cases published : calls.publishAsset record s' with
                  | mk answer s'' =>
                      rw [published] at same
                      dsimp only at same put
                      cases answer with
                      | error e =>
                          dsimp only
                          rw [same]
                          exact put
                      | ok u =>
                          dsimp only
                          rw [same]
                          exact put

end Keep

section Lie
variable {env : ContainerEnv} {r : Reader}

/-- A store in memory that fails behind the chunk `bad`. -/
def failingAt (bad : ChunkHash) : StoreCalls Holdings where
  putChunk hash stored flags lenRaw s :=
    if s hash = none then
      (if hash = bad then .error (.io .other) else .ok true, Function.update s hash (some ⟨stored, flags, lenRaw⟩))
    else (.ok false, s)
  publishAsset _ s := (.ok (), s)

theorem failingAt_putChunk (bad hash : ChunkHash) (stored : Bytes) (flags lenRaw : UInt32) (s : Holdings) :
    (failingAt bad).putChunk hash stored flags lenRaw s =
      if s hash = none then
        (if hash = bad then .error (.io .other) else .ok true, Function.update s hash (some ⟨stored, flags, lenRaw⟩))
      else (.ok false, s) := rfl

theorem failingAt_lawful (bad : ChunkHash) : (failingAt bad).Lawful id := by
  constructor
  · intro hash stored flags lenRaw s there
    change s hash ≠ none at there
    rw [failingAt_putChunk, if_neg there]
    exact ⟨rfl, rfl⟩
  · intro hash stored flags lenRaw s absent
    change s hash = none at absent
    rw [failingAt_putChunk, if_pos absent]
    exact .inr rfl
  · intro hash stored flags lenRaw s b ok
    rw [failingAt_putChunk]
    by_cases absent : s hash = none
    · rw [if_pos absent]
      simp
    · rw [if_neg absent]
      exact absent
  · intro record s
    rfl

/-- The first stored form under a name gets into the store. -/
theorem putChunks_failingAt (few : r.chunks.length < 2 ^ 32) {k : Nat} {c : ChunkRecord} (found : r.chunks[k]? = some c)
    (readable : ∀ (j : Nat) c', j ≤ k → r.chunks[j]? = some c' → r.Readable c')
    (first : ∀ (j : Nat) c', j < k → r.chunks[j]? = some c' → c'.hash ≠ c.hash) (left index : Nat)
    (reach : index ≤ k ∧ k < index + left) (stats : IngestStats) (room : stats.newBytes + left * 4294967295 < 2 ^ 64)
    (s : Holdings) (absent : s c.hash = none) :
    ∃ s', putChunks (failingAt c.hash) r left index stats s = (.error (.store (.io .other)), s') ∧
      s' c.hash = some ⟨r.storedBytes c, c.flags, c.lenRaw⟩ := by
  induction left generalizing index stats s with
  | zero => omega
  | succ left ih =>
      have within : k < r.chunks.length := (List.getElem?_eq_some_iff.mp found).1
      obtain ⟨d, here⟩ : ∃ d, r.chunks[index]? = some d := ⟨_, List.getElem?_eq_getElem (by omega)⟩
      have here' : r.chunks[(UInt32.ofNat index).toNat]? = some d := by
        rw [ofNat_toNat (by omega)]
        exact here
      obtain ⟨p, read⟩ := readChunkStored_ok_iff.mpr ⟨_, here', readable index _ reach.1 here⟩
      obtain ⟨c', found', readable', rfl⟩ := readChunkStored_ok read
      rw [here', Option.some.injEq] at found'
      subst found'
      have short : (r.storedBytes d).length ≤ d.lenStored.toNat := List.length_take_le _ _
      have small := d.lenStored.toNat_lt
      rw [Nat.succ_mul] at room
      have less : stats.newBytes + left * 4294967295 < 2 ^ 64 := by
        generalize left * 4294967295 = rest at room ⊢
        omega
      have more : stats.newBytes + (r.storedBytes d).length + left * 4294967295 < 2 ^ 64 := by
        generalize left * 4294967295 = rest at room ⊢
        omega
      rw [putChunks, read]
      simp only [Reader.chunkAt, here', failingAt_putChunk]
      rcases Nat.eq_or_lt_of_le reach.1 with rfl | before
      · rw [here, Option.some.injEq] at found
        subst found
        rw [if_pos absent, if_pos rfl]
        exact ⟨_, rfl, Function.update_self ..⟩
      · have other : d.hash ≠ c.hash := first index d before here
        by_cases new : s d.hash = none
        · rw [if_pos new, if_neg other]
          dsimp only
          rw [checked, if_pos (by omega)]
          exact ih (index + 1) (by omega) _ more _ (by
            rw [Function.update_of_ne (Ne.symm other)]
            exact absent)
        · rw [if_neg new]
          exact ih (index + 1) (by omega) stats less s absent

theorem honest_of_truthful (few : r.chunks.length < 2 ^ 32)
    (keeps : ∀ (σ : Type) (calls : StoreCalls σ) (held : σ → Holdings), calls.Lawful held →
      ∀ (name : String) (s : σ), Truthful env (held s) → (ingestIntoStore env calls r name s).1 ≠ .panics →
        Truthful env (held (ingestIntoStore env calls r name s).2)) : Honest env r := by
  intro clean accepted k c found readable first
  obtain ⟨-, -, opens⟩ := gate_clean env clean
  obtain ⟨signature, gated⟩ := opens accepted
  have within : k < r.chunks.length := (List.getElem?_eq_some_iff.mp found).1
  obtain ⟨s', put, there⟩ := putChunks_failingAt few found readable first r.chunks.length 0 (by omega)
    ⟨r.chunks.length, 0, 0⟩ (by
      dsimp only
      omega) (fun _ => none) rfl
  have ingested : ingestIntoStore env (failingAt c.hash) r "" (fun _ => none) =
      (.error (.store (.io .other)), s') := by
    rw [ingestIntoStore, gated]
    dsimp only
    rw [ofNat_toNat few, put]
  have empty : Truthful env (id fun _ => none) := by
    intro hash c found
    cases found
  have truthful := keeps Holdings (failingAt c.hash) id (failingAt_lawful c.hash) "" (fun _ => none) empty (by
    rw [ingested]
    intro panics
    cases panics)
  rw [ingested] at truthful
  exact truthful c.hash _ there

/-- One chunk, the byte 1, under some name. -/
def namedTables (name : ChunkHash) : Tables where
  tracks := []
  dict := []
  chunks := [⟨name, 0, 1, 1, 0⟩]
  segments := []
  metaPairs := []
  integrity := ⟨merkleRoot plainEnv.hashChunk [name], 1, 0, 0⟩

def namedSuperblock (name : ChunkHash) : Superblock := superblockOf plainEnv compressionNone 0 zeroUuid [1] (namedTables name)

def namedReader (name : ChunkHash) : Reader := openedFrom plainEnv (namedSuperblock name) [1] (namedTables name)

def namedFile (name : ChunkHash) : Bytes := containerBytes plainEnv (namedSuperblock name) [1] (namedTables name)

theorem namedTables_fit (name : ChunkHash) : (namedTables name).Fits := by
  refine ⟨⟨Nat.two_pow_pos 32, by simp [namedTables]⟩, Nat.two_pow_pos 32, ⟨?_, by simp [namedTables]⟩,
    ⟨Nat.two_pow_pos 32, by simp [namedTables]⟩, ⟨Nat.two_pow_pos 32, by simp [namedTables]⟩,
    ⟨?_, Nat.two_pow_pos 64, Nat.two_pow_pos 64⟩⟩
  · simp [namedTables]
  · simp [namedTables]

theorem openFile_lying : Reader.openFile plainEnv (namedFile zeroHash) = .ok (namedReader zeroHash) :=
  openFile_containerBytes 0 zeroUuid (by decide) (namedTables_fit _) (by decide +kernel)

theorem openFile_honest : Reader.openFile plainEnv (namedFile (numberHash [1])) = .ok (namedReader (numberHash [1])) :=
  openFile_containerBytes 0 zeroUuid (by decide) (namedTables_fit _) (by decide +kernel)

/-- The store takes the chunk in under its name, and ingest succeeds. -/
theorem ingest_lying :
    (ingestIntoStore plainEnv (failingAt ⟨List.replicate 32 1, rfl⟩) (namedReader zeroHash) "asset" fun _ => none).1 = .ok ⟨1, 1, 1⟩ ∧
      (ingestIntoStore plainEnv (failingAt ⟨List.replicate 32 1, rfl⟩) (namedReader zeroHash) "asset" fun _ => none).2 zeroHash =
        some ⟨[1], 0, 1⟩ := by
  decide +kernel

end Lie
end Cavs
