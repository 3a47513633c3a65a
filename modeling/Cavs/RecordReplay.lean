import Cavs.Codecs
import Cavs.SaveJournal
import Cavs.ScanPrefix

/-!
# What a journal record can carry

A record is made of the entries that changed since the last save. Applied to the ledger
they changed from it gives the ledger they changed to when each entry fits the fields it is
written in, and only then: nothing that does not fit can be read out of a record.
-/
namespace Cavs
open FileProg (Bytes)
open ByteScan
open Std (ExtTreeMap ExtTreeSet)

section Edits

variable {L : Index}

/-- A change of the ledger between two saves. A publish stages the record of its asset, and
what is staged may be given a record pack before the ledger is saved. -/
inductive Edit where
  | insertChunk (hex : String) (info : ChunkInfo)
  | updateChunk (hex : String) (f : ChunkInfo → ChunkInfo)
  | removeChunk (hex : String)
  | publish (name : String) (chunks : List String) (record : Bytes)
  | unpublish (name : String)
  | packRecords (pack : ChunkHash)

def Index.setRecords (index : Index) (refs : List (String × RecordRef)) : Index :=
  { index with records := refs.foldl (fun records r => records.insert r.1 r.2) index.records }

/-- A ledger and the records staged for it. -/
abbrev Draft := Index × ExtTreeMap String Bytes

def Edit.apply : Edit → Draft → Draft
  | .insertChunk hex info, (index, pending) => (index.upsert (hex, info), pending)
  | .updateChunk hex f, (index, pending) =>
      match index.chunks[hex]? with
      | some info => (index.upsert (hex, f info), pending)
      | none => (index, pending)
  | .removeChunk hex, (index, pending) => (index.dropChunk hex, pending)
  | .publish name chunks record, (index, pending) =>
      ({ index.setAsset name chunks with records := index.records.erase name },
        pending.insert name record)
  | .unpublish name, (index, pending) => (index.dropAsset name, pending)
  | .packRecords pack, (index, pending) =>
      (index.setRecords (recordSpans pack 0 pending.toList), ∅)

/-- The ledger `L` with changes made to it, and the records staged by them. -/
def Edited (L L' : Index) (pending : ExtTreeMap String Bytes) : Prop :=
  ∃ edits : List Edit, edits.foldl (fun draft e => e.apply draft) (L, ∅) = (L', pending)

/-- The offset and the length of a record in a pack are numbers of four bytes. -/
def Index.NarrowRecords (index : Index) : Prop :=
  ∀ (name : String) (pack : ChunkHash) (offset len : Nat),
    index.records[name]? = some (.pack pack offset len) → offset < 2 ^ 32 ∧ len < 2 ^ 32

/-- What the changes made to `L` leave true of a draft. -/
structure Drafted (L : Index) (draft : Draft) : Prop where
  generation : draft.1.generation = L.generation
  narrow : draft.1.NarrowRecords
  place : ∀ name : String, (draft.1.assets[name]?).isSome → (draft.2[name]?).isSome ∨
    (∃ pack offset len, draft.1.records[name]? = some (.pack pack offset len)) ∨
    draft.1.records[name]? = L.records[name]?

theorem Drafted.start (narrow : L.NarrowRecords) : Drafted L (L, ∅) where
  generation := rfl
  narrow := narrow
  place _ _ := .inr (.inr rfl)

theorem recordSpans_narrow {pack : ChunkHash} {l : List (String × Bytes)} {pos : Nat}
    {r : String × RecordRef} (h : r ∈ recordSpans pack pos l) :
    ∃ offset len, r.2 = .pack pack offset len ∧ offset < 2 ^ 32 ∧ len < 2 ^ 32 := by
  induction l generalizing pos with
  | nil => cases h
  | cons e l ih =>
      obtain ⟨name, json⟩ := e
      rcases List.mem_cons.mp h with rfl | later
      · exact ⟨_, _, rfl, Nat.mod_lt _ (by decide), Nat.mod_lt _ (by decide)⟩
      · exact ih later

theorem Drafted.apply {draft : Draft} (h : Drafted L draft) (e : Edit) :
    Drafted L (e.apply draft) := by
  obtain ⟨index, pending⟩ := draft
  cases e with
  | insertChunk hex info => exact ⟨h.generation, h.narrow, h.place⟩
  | updateChunk hex f =>
      rw [Edit.apply]
      split
      · exact ⟨h.generation, h.narrow, h.place⟩
      · exact h
  | removeChunk hex => exact ⟨h.generation, h.narrow, h.place⟩
  | publish name chunks record =>
      refine ⟨h.generation, fun name' pack offset len found => ?_, fun name' listed => ?_⟩
      · rw [Edit.apply, getElem?_erase_eq] at found
        split at found
        · cases found
        · exact h.narrow name' pack offset len found
      · simp only [Edit.apply, Index.setAsset, getElem?_insert_eq, getElem?_erase_eq] at listed ⊢
        by_cases same : name' = name
        · exact .inl (by rw [if_pos same]; rfl)
        · rw [if_neg same] at listed ⊢
          rw [if_neg same]
          exact h.place name' listed
  | unpublish name =>
      refine ⟨h.generation, fun name' pack offset len found => ?_, fun name' listed => ?_⟩
      · simp only [Edit.apply, Index.dropAsset, getElem?_erase_eq] at found
        split at found
        · cases found
        · exact h.narrow name' pack offset len found
      · simp only [Edit.apply, Index.dropAsset, getElem?_erase_eq] at listed ⊢
        by_cases same : name' = name
        · rw [if_pos same] at listed
          cases listed
        · rw [if_neg same] at listed ⊢
          exact h.place name' listed
  | packRecords pack =>
      have keys : ((recordSpans pack 0 pending.toList).map Prod.fst).Nodup := by
        rw [recordSpans_keys]
        exact toList_keys_nodup pending
      refine ⟨h.generation, fun name pack' offset len found => ?_, fun name listed => ?_⟩
      · rcases foldl_insert_from found with mem | before
        · obtain ⟨offset', len', same, small⟩ := recordSpans_narrow mem
          cases same
          exact small
        · exact h.narrow name pack' offset len before
      · obtain ⟨hit, miss⟩ := foldl_insert_lookup (recordSpans pack 0 pending.toList) keys
          index.records name
        by_cases spanned : name ∈ (recordSpans pack 0 pending.toList).map Prod.fst
        · obtain ⟨⟨_, ref⟩, mem, rfl⟩ := List.mem_map.mp spanned
          obtain ⟨offset, len, rfl, -⟩ := recordSpans_narrow mem
          exact .inr (.inl ⟨pack, offset, len, hit _ mem⟩)
        · have unstaged : pending[name]? = none := by
            rw [recordSpans_keys] at spanned
            cases staged : pending[name]? with
            | none => rfl
            | some bytes =>
                exact (spanned (List.mem_map.mpr ⟨(name, bytes), mem_toList_iff.mpr staged, rfl⟩)).elim
          rcases h.place name listed with staged | place
          · rw [unstaged] at staged
            cases staged
          · right
            change (∃ pack' offset len, (List.foldl _ _ _)[name]? = _) ∨ (List.foldl _ _ _)[name]? = _
            rw [miss spanned]
            exact place

theorem Drafted.run {draft : Draft} (h : Drafted L draft) (edits : List Edit) :
    Drafted L (edits.foldl (fun draft e => e.apply draft) draft) := by
  induction edits generalizing draft with
  | nil => exact h
  | cons e edits ih => exact ih (h.apply e)

theorem Edited.drafted {L' : Index} {pending : ExtTreeMap String Bytes} (h : Edited L L' pending)
    (narrow : L.NarrowRecords) : Drafted L (L', pending) := by
  obtain ⟨edits, made⟩ := h
  rw [← made]
  exact (Drafted.start narrow).run edits

end Edits

section Reading
variable {file : JournalFile} {base : Nat} {packs : List String} {L R index : Index} {name : String}

theorem readText_keeps {S : Type} {I : S → Prop} {what : String} :
    Keeps I (readText what : Scan StoreError S String) fun t => (strBytes t).length < 2 ^ 16 := by
  apply Keeps.num.bind
  intro len small
  apply Keeps.take.bind
  intro bytes length
  apply (Keeps.ofOption _).mono
  intro t found
  rw [strBytes_utf8 found]
  omega

theorem readHash_keeps {S : Type} {I : S → Prop} :
    Keeps I (readHash : Scan StoreError S ChunkHash) fun _ => True := by
  apply Keeps.take.skip
  intro bytes
  exact (Keeps.ofOption _).mono fun _ _ => trivial

theorem readU32_keeps {S : Type} {I : S → Prop} :
    Keeps I (readU32 : Scan StoreError S UInt32) fun _ => True :=
  Keeps.num.skip fun _ => .pure trivial

theorem check_keeps {S : Type} {I : S → Prop} {c : Bool} {e : StoreError} :
    Keeps I (check c e : Scan StoreError S Unit) fun _ => True := by
  rw [check]
  split
  · exact .pure trivial
  · exact .throw

theorem readHexes_keeps {S : Type} {I : S → Prop} {what : String} :
    Keeps I (readHexes what : Scan StoreError S (List String)) fun l => ∀ hex ∈ l, IsHex hex := by
  apply Keeps.num.skip
  intro n
  apply Keeps.remaining.skip
  intro left
  apply check_keeps.skip
  intro _
  refine (Keeps.collect (P := IsHex) ?_ n).mono fun l found => found.2
  exact readHash_keeps.skip fun hash => Keeps.pure (isHex_toHex hash)

/-- What an entry that is read out of a record is like. -/
structure Carried (packs : List String) (entry : String × ChunkInfo) : Prop where
  hex : IsHex entry.1
  fits : entry.2.Fits
  placed : entry.2.Placed
  known : ∀ p, entry.2.pack = some p → p ∈ packs

theorem readChunkRecord_keeps {S : Type} {I : S → Prop}
    (short : ∀ p ∈ packs, (strBytes p).length < 2 ^ 16) :
    Keeps I (readChunkRecord 2 packs : Scan StoreError S (String × ChunkInfo)) (Carried packs) := by
  apply readHash_keeps.skip
  intro hash
  apply readU32_keeps.skip
  intro lenRaw
  apply readU32_keeps.skip
  intro lenStored
  apply readU32_keeps.skip
  intro flags
  apply Keeps.num.bind
  intro refcount refcountSmall
  apply Keeps.num.bind
  intro since sinceSmall
  apply Keeps.num.skip
  intro ord
  apply Keeps.num.bind
  intro offset offsetSmall
  refine .bind (P := fun pack => ∀ p, pack = some p → p ∈ packs) ?_ fun pack known => ?_
  · split
    · exact .pure fun p found => nomatch found
    · apply (Keeps.ofOption _).bind
      intro q listed
      apply Keeps.pure
      rintro p ⟨⟩
      exact List.mem_of_getElem? listed
  · refine .pure ⟨isHex_toHex hash, ⟨refcountSmall, fun z found => ?_, fun o found => ?_,
      fun p found => short p (known p found)⟩, ?_, known⟩
    · dsimp only at found
      split at found
      · cases found
      · cases found
        rw [u64Max] at *
        omega
    · dsimp only at found
      split at found
      · cases found
        exact offsetSmall
      · cases found
    · rw [ChunkInfo.Placed]
      cases pack <;> rfl

/-- A record of the ledger `L` was read so far into `R`: a chunk it changed is one an entry
of a record can hold, and so is the name and the list of an asset. -/
structure Given (packs : List String) (L R : Index) : Prop where
  chunks : ∀ hex, R.chunks[hex]? = L.chunks[hex]? ∨
    IsHex hex ∧ ∀ info, R.chunks[hex]? = some info → Carried packs (hex, info)
  assets : ∀ name, (R.assets[name]? = L.assets[name]? ∧ R.records[name]? = L.records[name]?) ∨
    (strBytes name).length < 2 ^ 16 ∧ ∀ l, R.assets[name]? = some l → ∀ hex ∈ l, IsHex hex

theorem Given.refl (packs : List String) (L : Index) : Given packs L L where
  chunks _ := .inl rfl
  assets _ := .inl ⟨rfl, rfl⟩

theorem Given.upsert (h : Given packs L R) {entry : String × ChunkInfo}
    (carried : Carried packs entry) : Given packs L (R.upsert entry) where
  chunks hex := by
    simp only [Index.upsert, getElem?_insert_eq]
    by_cases same : hex = entry.1
    · subst same
      refine .inr ⟨carried.hex, fun info found => ?_⟩
      rw [if_pos rfl, Option.some.injEq] at found
      exact found ▸ carried
    · rw [if_neg same]
      exact h.chunks hex
  assets := h.assets

theorem Given.dropChunk (h : Given packs L R) {hex : String} (isHex : IsHex hex) :
    Given packs L (R.dropChunk hex) where
  chunks hex' := by
    simp only [Index.dropChunk, getElem?_erase_eq]
    by_cases same : hex' = hex
    · refine .inr ⟨same ▸ isHex, fun info found => ?_⟩
      rw [if_pos same] at found
      cases found
    · rw [if_neg same]
      exact h.chunks hex'
  assets := h.assets

theorem Given.dropAsset (h : Given packs L R) (short : (strBytes name).length < 2 ^ 16) :
    Given packs L (R.dropAsset name) where
  chunks := h.chunks
  assets name' := by
    simp only [Index.dropAsset, getElem?_erase_eq]
    by_cases same : name' = name
    · refine .inr ⟨same ▸ short, fun l found => ?_⟩
      rw [if_pos same] at found
      cases found
    · rw [if_neg same, if_neg same]
      exact h.assets name'

/-- Only the record of the asset `name` changed. -/
structure Relocated (name : String) (R index : Index) : Prop where
  chunks : index.chunks = R.chunks
  assets : index.assets = R.assets
  records : ∀ name', name' ≠ name → index.records[name']? = R.records[name']?

theorem Relocated.refl (name : String) (R : Index) : Relocated name R R :=
  ⟨rfl, rfl, fun _ _ => rfl⟩

theorem Relocated.setRecord (h : Relocated name R index) (ref : RecordRef) :
    Relocated name R (index.setRecord name ref) where
  chunks := h.chunks
  assets := h.assets
  records name' other := by
    rw [Index.setRecord, getElem?_insert_eq, if_neg other]
    exact h.records name' other

theorem Relocated.keepInline (h : Relocated name R index) :
    Relocated name R (index.keepInline name) where
  chunks := (keepInline_chunks index name).trans h.chunks
  assets := (keepInline_assets index name).trans h.assets
  records name' other := by
    rw [Index.keepInline]
    split
    · exact h.records name' other
    · rw [getElem?_erase_eq, if_neg other]
      exact h.records name' other

theorem Given.setAsset (h : Given packs L R) {l : List String} (short : (strBytes name).length < 2 ^ 16)
    (hexes : ∀ hex ∈ l, IsHex hex) (replaced : Relocated name R index) :
    Given packs L (index.setAsset name l) where
  chunks hex := by
    rw [Index.setAsset, replaced.chunks]
    exact h.chunks hex
  assets name' := by
    simp only [Index.setAsset, getElem?_insert_eq, replaced.assets]
    by_cases same : name' = name
    · refine .inr ⟨same ▸ short, fun l' found => ?_⟩
      rw [if_pos same, Option.some.injEq] at found
      exact found ▸ hexes
    · rw [if_neg same, replaced.records name' same]
      exact h.assets name'

theorem readPackRef_keeps {I : Index → Prop} : Keeps I readPackRef fun _ => True := by
  apply readHash_keeps.skip
  intro pack
  apply Keeps.num.skip
  intro offset
  apply Keeps.num.skip
  intro len
  exact .pure trivial

/-- An asset is set after its record was. -/
theorem applyAssetPut_keeps_of {I : Index → Prop} (set : ∀ {R index : Index} {name : String} {l : List String}, I R →
    (strBytes name).length < 2 ^ 16 → (∀ hex ∈ l, IsHex hex) → Relocated name R index → I (index.setAsset name l)) :
    Keeps I (applyAssetPut file base) fun _ => True := by
  apply readText_keeps.bind
  intro name short
  apply readHexes_keeps.bind
  intro l hexes
  apply Keeps.num.skip
  intro tag R c x d t kept run
  obtain ⟨_, c', index, placed, last⟩ := ok_of_bind run
  cases last
  refine ⟨trivial, set kept short hexes ?_⟩
  have start := Relocated.refl name R
  split at placed
  · have keep := Keeps.modify (ε := StoreError) (I := Relocated name R)
      (g := fun index => index.keepInline name) fun _ h => h.keepInline
    exact (keep _ _ _ _ _ start placed).2
  · have packed := readPackRef_keeps.skip (I := Relocated name R) fun ref =>
      Keeps.modify (g := fun index => index.setRecord name ref) fun _ h => h.setRecord ref
    exact (packed _ _ _ _ _ start placed).2
  · have inline := (Keeps.num (e := truncated) (w := 4) (I := Relocated name R)).skip fun len =>
      Keeps.position.skip fun pos => (Keeps.take (e := truncated) (n := len)).skip fun _ =>
        Keeps.modify (g := fun index => index.setRecord name (.journal file (base + pos) len))
          fun _ h => h.setRecord _
    exact (inline _ _ _ _ _ start placed).2
  · cases placed

theorem applyAssetPut_keeps : Keeps (Given packs L) (applyAssetPut file base) fun _ => True :=
  applyAssetPut_keeps_of fun given short hexes moved => given.setAsset short hexes moved

/-- Whatever the body of a record is, its table has fewer than 2 ^ 16 packs, and what it
gives the ledger are entries that fit a record. -/
theorem applyJournalRecord_gives {body : Bytes} {c : Cursor}
    (run : applyJournalRecord file base L ⟨0, body⟩ = (.ok ((), c), R)) :
    ∃ packs, packs.length < 2 ^ 16 ∧ Given packs L R := by
  obtain ⟨packCount, c₁, L₁, first, run₁⟩ := ok_of_bind run
  obtain ⟨few, rfl⟩ := Keeps.num (I := fun t => t = L) _ _ _ _ _ rfl first
  obtain ⟨packs, c₂, L₂, table, run₂⟩ := ok_of_bind run₁
  obtain ⟨⟨length, short⟩, rfl⟩ := readText_keeps.collect packCount (I := fun t => t = L₁)
    _ _ _ _ _ rfl table
  refine ⟨packs, by omega, ?_⟩
  have upserts : ∀ n, Keeps (Given packs L₂) (Scan.times n (do
      let entry ← readChunkRecord 2 packs
      Scan.modify fun index => index.upsert entry)) fun _ => True := by
    intro n
    apply Keeps.times
    apply (readChunkRecord_keeps short).bind
    intro entry carried
    exact .modify fun _ given => given.upsert carried
  have removals : ∀ n, Keeps (Given packs L₂) (Scan.times n (do
      let hash ← readHash
      Scan.modify fun index => index.dropChunk (toHex hash))) fun _ => True := by
    intro n
    apply Keeps.times
    apply readHash_keeps.skip
    intro hash
    exact .modify fun _ given => given.dropChunk (isHex_toHex hash)
  have puts : ∀ n, Keeps (Given packs L₂) (Scan.times n (applyAssetPut file base)) fun _ => True :=
    fun n => applyAssetPut_keeps.times n
  have dels : ∀ n, Keeps (Given packs L₂) (Scan.times n (do
      let name ← readText "asset name not utf-8"
      Scan.modify fun index => index.dropAsset name)) fun _ => True := by
    intro n
    apply Keeps.times
    apply readText_keeps.bind
    intro name small
    exact Keeps.modify fun _ given => given.dropAsset small
  have whole := (Keeps.num (I := Given packs L₂) (e := truncated) (w := 4)).skip fun n =>
    Keeps.remaining.skip fun left => (check_keeps (c := n ≤ left / 70)
      (e := corrupt "upsert count exceeds record")).skip fun _ => (upserts n).skip fun _ =>
    (Keeps.num (e := truncated) (w := 4)).skip fun n =>
    Keeps.remaining.skip fun left => (check_keeps (c := n ≤ left / 32)
      (e := corrupt "removal count exceeds record")).skip fun _ => (removals n).skip fun _ =>
    (Keeps.num (e := truncated) (w := 4)).skip fun n => (puts n).skip fun _ =>
    (Keeps.num (e := truncated) (w := 4)).skip fun n => dels n
  exact (whole _ _ _ _ _ (Given.refl packs L₂) run₂).2

end Reading

section Replaying
variable {env : Env} {file : JournalFile} {start : Nat} {source L R : Index} {body : Bytes}

theorem nextJournalRecord_length {record bytes : Bytes} {generation : Nat}
    (h : nextJournalRecord env bytes = some (record, generation)) :
    record.length = journalHeaderSize + ofLe ((bytes.drop 12).take 4) + journalSealSize := by
  rw [nextJournalRecord] at h
  split at h
  · cases h
  · split at h
    · cases h
    · dsimp only at h
      split at h
      · cases h
      · rename_i enough
        split at h
        · cases h
        · cases h
          exact List.length_take_of_le (not_lt.mp enough)

theorem replayStep_length {bytes : Bytes} {len : Nat}
    (h : replayStep env file start bytes L = .ok (R, len)) :
    len = journalHeaderSize + ofLe ((bytes.drop 12).take 4) + journalSealSize := by
  rw [replayStep] at h
  split at h
  · cases h
  · rename_i record generation found
    rw [← nextJournalRecord_length found]
    split at h
    · split at h
      · cases h
        rfl
      · cases h
    · split at h
      · cases h
      · cases h
        rfl

/-- What the replay of one record needs and gives. -/
theorem replayStep_sealRecord {generation : Nat} (follows : generation = L.generation + 1)
    (width : generation < 2 ^ 64) :
    replayStep env file start (sealRecord env generation body) L =
        .ok (R, (sealRecord env generation body).length) ↔
      body.length < 2 ^ 32 ∧ ∃ R', applyRecord file (start + journalHeaderSize) L body = (.ok (), R') ∧
        R = { R' with generation := generation } := by
  constructor
  · intro step
    have small : body.length < 2 ^ 32 := by
      obtain ⟨-, -, field, -⟩ := journalHeader_fields
        (body ++ (env.hashChunk (journalHeader generation body.length ++ body)).1) generation body.length
      rw [← sealRecord_eq] at field
      have length := replayStep_length step
      rw [field, ofLe_le_mod, sealRecord_length] at length
      simp only [journalHeaderSize, journalSealSize] at length
      have := Nat.mod_lt body.length (show 0 < 256 ^ 4 by decide)
      omega
    have found := @nextJournalRecord_sealRecord env generation body [] small width
    rw [List.append_nil] at found
    rw [replayStep, found] at step
    dsimp only at step
    rw [if_pos follows, recordBody_sealRecord] at step
    split at step
    · rename_i R' applied
      cases step
      exact ⟨small, R', applied, rfl⟩
    · cases step
  · rintro ⟨small, R', applied, rfl⟩
    have found := @nextJournalRecord_sealRecord env generation body [] small width
    rw [List.append_nil] at found
    rw [replayStep, found]
    dsimp only
    rw [if_pos follows, recordBody_sealRecord, applied]

end Replaying

section Purpose

/-- An asset as a caller sees it: its chunks, and the record it was published with. -/
def Ledger.entry (A : Ledger) (name : String) : Option (List String × Option Bytes) :=
  (A.assets name).map fun chunks => (chunks, A.published name)

/-- The bytes at the place of an asset's record; an asset without one has a flat file. -/
def placeBytes (w : Disk) (name : String) : Option RecordRef → Option Bytes
  | some ref => (w.get ref.path).bind fun f => (sliceExact f.bytes ref.offset ref.len).toOption
  | none => (w.get (.flatRecord name)).map fun f => f.bytes

/-- An index says the same as `A`, with the records it has staged and those at their places. -/
structure Describes (w : Disk) (pending : ExtTreeMap String Bytes) (index : Index) (A : Ledger) :
    Prop where
  chunks : ∀ hex : String, index.chunks[hex]? = A.chunks hex
  assets : ∀ name : String, index.assets[name]? = A.assets name
  records : ∀ name, (A.assets name).isSome → ∃ b, A.published name = some b ∧
    (pending[name]?.or (placeBytes w name index.records[name]?)) = some b

/-- `source` is the ledger `L` with changes made to it, and exactly what changed is dirty. -/
structure Changed (w : Disk) (L source : Index) (pending : ExtTreeMap String Bytes)
    (dirtyChunks dirtyAssets : ExtTreeSet String) (A A' : Ledger) : Prop where
  narrow : L.NarrowRecords
  width : L.generation + 1 < 2 ^ 64
  edited : Edited L source pending
  before : Describes w ∅ L A
  after : Describes w pending source A'
  chunks : ∀ hex, hex ∈ dirtyChunks ↔ A.chunks hex ≠ A'.chunks hex
  assets : ∀ name, name ∈ dirtyAssets ↔ A.entry name ≠ A'.entry name

/-- The record at the end of the journal, replayed over `L`, gives a ledger that says `A`. -/
def RecordGives (env : Env) (v : Disk) (start : Nat) (L : Index) (record : Bytes) (A : Ledger) : Prop :=
  ∃ R, replayStep env .live start ((v.bytes .indexLog).drop start) L = .ok (R, record.length) ∧
    R.generation = L.generation + 1 ∧ Describes v ∅ R A

/-- What a record needs: fewer than 2 ^ 16 packs, names that fit their two bytes, numbers
that fit theirs, names of chunks that are hex, and a body whose length fits four bytes. -/
structure Delta.Recordable (d : Delta) (index : Index) (pending : ExtTreeMap String Bytes) : Prop where
  packs : d.packs.length < 2 ^ 16
  upserts : ∀ entry ∈ d.upserts, IsHex entry.1 ∧ entry.2.Fits ∧ entry.2.Placed
  removals : ∀ hex ∈ d.removals, IsHex hex
  assetPuts : ∀ put ∈ d.assetPuts, (strBytes put.1).length < 2 ^ 16 ∧ ∀ hex ∈ put.2, IsHex hex
  assetDels : ∀ name ∈ d.assetDels, (strBytes name).length < 2 ^ 16
  body : (d.body index pending).length < 2 ^ 32

end Purpose

section Recordable
variable {source : Index} {pending : ExtTreeMap String Bytes} {d : Delta}

theorem Delta.Recordable.canon (h : d.Recordable source pending) : d.Canon where
  upserts entry mem := ⟨(h.upserts entry mem).1, (h.upserts entry mem).2.2⟩
  removals := h.removals
  assetPuts put mem := (h.assetPuts put mem).2

theorem assetPut_length (source : Index) (pending : ExtTreeMap String Bytes)
    (put : String × List String) : 7 + put.2.length * 32 ≤ (assetPut source pending put).length ∧
      ∀ bytes : Bytes, pending[put.1]? = some bytes → bytes.length ≤ (assetPut source pending put).length := by
  have hexes := flatMap_length_const put.2 (f := fun hex => (hexHash hex).1) (n := 32)
    fun c _ => (hexHash c).2
  have tag : 1 ≤ (recordPlace pending[put.1]? source.records[put.1]?).length := by
    rw [recordPlace.eq_def]
    split
    · simp
    · rw [encodeRecordRef.eq_def]
      split <;> simp
  constructor
  · simp only [assetPut, assetHead, textBytes, hexesBytes, List.length_append, le_length, hexes]
    omega
  · intro bytes staged
    simp only [assetPut, staged, recordPlace, List.length_append]
    omega

theorem Delta.Recordable.fits (h : d.Recordable source pending) (narrow : source.NarrowRecords) :
    d.Fits source pending := by
  have upserts : (d.upserts.flatMap (chunkRecord 2 d.packs)).length = d.upserts.length * 70 :=
    flatMap_length_const _ fun entry _ => chunkRecord_length 2 _ entry
  have removals : (d.removals.flatMap fun hex => (hexHash hex).1).length = d.removals.length * 32 :=
    flatMap_length_const _ fun hex _ => (hexHash hex).2
  have puts := length_flatMap_ge (f := assetPut source pending) (l := d.assetPuts) (n := 7)
    fun put _ => le_trans (Nat.le_add_right 7 _) (assetPut_length source pending put).1
  have dels := length_flatMap_ge (f := textBytes) (l := d.assetDels) (n := 2) fun name _ => by
    simp [textBytes]
  have body := h.body
  simp only [Delta.body, Delta.front, List.length_append, le_length, upserts, removals] at body
  have put : ∀ put ∈ d.assetPuts, (assetPut source pending put).length < 2 ^ 32 := by
    intro put mem
    have := length_le_flatMap (f := assetPut source pending) mem
    omega
  exact {
    packs := h.packs
    upserts := by omega
    removals := by omega
    assetPuts := by omega
    assetDels := by omega
    chunk := fun entry mem => (h.upserts entry mem).2.1
    putName := fun put mem => (h.assetPuts put mem).1
    delName := h.assetDels
    putChunks := fun e mem => by
      have := put e mem
      have := (assetPut_length source pending e).1
      omega
    staged := fun e mem bytes staged =>
      lt_of_le_of_lt ((assetPut_length source pending e).2 bytes staged) (put e mem)
    placed := fun e _ pack offset len found => narrow e.1 pack offset len found
    body := h.body }

end Recordable

section Replayed
variable {env : Env} {w v : Disk} {L source R : Index} {pending : ExtTreeMap String Bytes}
  {dirtyChunks dirtyAssets : ExtTreeSet String} {A A' : Ledger} {name : String}

theorem Ledger.entry_eq (same : A.entry name = A'.entry name) :
    A.assets name = A'.assets name ∧ ((A.assets name).isSome → A.published name = A'.published name) := by
  simp only [Ledger.entry] at same
  cases listed : A.assets name with
  | none =>
      rw [listed, Option.map_none, eq_comm, Option.map_eq_none_iff] at same
      exact ⟨same.symm, fun some => nomatch some⟩
  | some l =>
      rw [listed, Option.map_some, eq_comm, Option.map_eq_some_iff] at same
      obtain ⟨l', listed', both⟩ := same
      rw [Prod.mk.injEq] at both
      exact ⟨by rw [listed', both.1], fun _ => both.2.symm⟩

/-- What was appended to the journal leaves the bytes at every place what they were. -/
theorem placeBytes_appended {rest b : Bytes} {place : Option RecordRef}
    (at_ : LogAt w v (w.bytes .indexLog ++ rest)) (found : placeBytes w name place = some b) :
    placeBytes v name place = some b := by
  have elsewhere : ∀ p, p ≠ .indexLog → v.get p = w.get p := at_.rest
  match place, found with
  | none, found =>
      rw [placeBytes, elsewhere _ (by simp)]
      exact found
  | some (.pack pack offset len), found =>
      rw [placeBytes, elsewhere _ (by simp [RecordRef.path])]
      exact found
  | some (.journal .prev offset len), found =>
      rw [placeBytes, elsewhere _ (by simp [RecordRef.path, journalPath])]
      exact found
  | some (.journal .live offset len), found =>
      obtain ⟨f, there, slice⟩ := Option.bind_eq_some_iff.mp found
      obtain ⟨time, after⟩ := at_.log
      rw [show w.bytes .indexLog = f.bytes from FileProg.bytes_of_get there] at after
      refine Option.bind_eq_some_iff.mpr ⟨_, after, ?_⟩
      cases read : sliceExact f.bytes offset len with
      | error e =>
          simp only [RecordRef.offset, RecordRef.len, read] at slice
          cases slice
      | ok b' =>
          simp only [RecordRef.offset, RecordRef.len, read] at slice
          cases slice
          simp only [RecordRef.offset, RecordRef.len, sliceExact_append read]
          rfl

theorem Changed.generation (h : Changed w L source pending dirtyChunks dirtyAssets A A') :
    source.generation = L.generation := (h.edited.drafted h.narrow).generation

/-- The record of an asset is where its entry in the journal record puts it. -/
theorem Changed.place (h : Changed w L source pending dirtyChunks dirtyAssets A A')
    (at_ : LogAt w v (w.bytes .indexLog ++ (encodeJournalRecord env source (source.generation + 1)
      dirtyChunks dirtyAssets pending).1)) (listed : (A'.assets name).isSome) :
    ∃ b, A'.published name = some b ∧ placeBytes v name
      ((source.delta dirtyChunks dirtyAssets).apply .live
        ((w.bytes .indexLog).length + journalHeaderSize) source pending L).records[name]? = some b := by
  obtain ⟨clean, -, put⟩ := delta_apply_records .live ((w.bytes .indexLog).length + journalHeaderSize)
    source pending dirtyChunks dirtyAssets L name
  by_cases dirty : name ∈ dirtyAssets
  · obtain ⟨b, published, reads⟩ := h.after.records name listed
    refine ⟨b, published, ?_⟩
    obtain ⟨l, found⟩ := Option.isSome_iff_exists.mp listed
    rw [← h.after.assets name] at found
    obtain ⟨pos, placed⟩ := mem_placed source pending
      ((@mem_assetPuts _ dirtyChunks _ (name, l)).mpr ⟨dirty, found⟩)
    rw [put pos l placed]
    cases staged : pending[name]? with
    | some bytes =>
        rw [staged, Option.some_or, Option.some.injEq] at reads
        subst reads
        obtain ⟨time, log⟩ := at_.log
        have slice := @inline_slice env source (source.generation + 1) dirtyChunks dirtyAssets pending
          (w.bytes .indexLog) pos (name, l) bytes placed staged
        simp only [putRecord, staged]
        refine Option.bind_eq_some_iff.mpr ⟨_, log, ?_⟩
        rw [encodeJournalRecord_fst]
        simp only [RecordRef.offset, RecordRef.len, slice]
        rfl
    | none =>
        rw [staged, Option.none_or] at reads
        have kept := placeBytes_appended at_ reads
        rcases (h.edited.drafted h.narrow).place name (by rw [found]; rfl) with inPending | packed | same
        · rw [staged] at inPending
          cases inPending
        · obtain ⟨pack, offset, len, packed⟩ := packed
          rw [packed] at kept
          simp only [putRecord, staged, packed]
          exact kept
        · rw [← same]
          cases place : source.records[name]? with
          | none =>
              rw [place] at kept
              simp only [putRecord, staged, place, keptInline]
              exact kept
          | some ref =>
              rw [place] at kept
              cases ref with
              | pack pack offset len => simp only [putRecord, staged, place]; exact kept
              | journal file offset len => simp only [putRecord, staged, place, keptInline]; exact kept
  · have same := Ledger.entry_eq (not_not.mp fun differ => dirty ((h.assets name).mpr differ))
    rw [← same.1] at listed
    obtain ⟨b, published, reads⟩ := h.before.records name listed
    rw [ExtTreeMap.getElem?_empty, Option.none_or] at reads
    refine ⟨b, (same.2 listed).symm.trans published, ?_⟩
    rw [clean dirty]
    exact placeBytes_appended at_ reads

/-- A record that holds what it needs gives the ledger it was made from. -/
theorem Changed.gives (h : Changed w L source pending dirtyChunks dirtyAssets A A')
    (at_ : LogAt w v (w.bytes .indexLog ++ (encodeJournalRecord env source (source.generation + 1)
      dirtyChunks dirtyAssets pending).1))
    (holds : (source.delta dirtyChunks dirtyAssets).Recordable source pending) :
    RecordGives env v (w.bytes .indexLog).length L (encodeJournalRecord env source
      (source.generation + 1) dirtyChunks dirtyAssets pending).1 A' := by
  have fits := holds.fits (h.edited.drafted h.narrow).narrow
  have applied : applyRecord .live ((w.bytes .indexLog).length + journalHeaderSize) L
      ((source.delta dirtyChunks dirtyAssets).body source pending) =
      (.ok (), (source.delta dirtyChunks dirtyAssets).apply .live
        ((w.bytes .indexLog).length + journalHeaderSize) source pending L) := by
    rw [applyRecord, (applyJournalRecord_scans fits holds.canon L).whole]
    rfl
  have follows : source.generation + 1 = L.generation + 1 := by rw [h.generation]
  refine ⟨{ (source.delta dirtyChunks dirtyAssets).apply .live
      ((w.bytes .indexLog).length + journalHeaderSize) source pending L with
      generation := source.generation + 1 },
    ?_, follows, fun hex => ?_, fun name => ?_, fun name listed => ?_⟩
  · rw [at_.bytes, List.drop_left, encodeJournalRecord_fst]
    exact (replayStep_sealRecord follows (follows ▸ h.width)).mpr ⟨holds.body, _, applied, rfl⟩
  · refine (delta_apply_spec .live _ source pending dirtyChunks dirtyAssets L hex).1.trans ?_
    split
    · exact h.after.chunks hex
    · rename_i clean
      have same : A.chunks hex = A'.chunks hex := not_not.mp fun differ => clean ((h.chunks hex).mpr differ)
      exact (h.before.chunks hex).trans same
  · refine (delta_apply_spec .live _ source pending dirtyChunks dirtyAssets L name).2.1.trans ?_
    split
    · exact h.after.assets name
    · rename_i clean
      have same := Ledger.entry_eq (not_not.mp fun differ => clean ((h.assets name).mpr differ))
      exact (h.before.assets name).trans same.1
  · obtain ⟨b, published, reads⟩ := h.place at_ listed
    exact ⟨b, published, by rw [ExtTreeMap.getElem?_empty, Option.none_or]; exact reads⟩

theorem applyRecord_ok {base : Nat} {body : Bytes}
    (h : applyRecord .live base L body = (.ok (), R)) :
    ∃ c, applyJournalRecord .live base L ⟨0, body⟩ = (.ok ((), c), R) := by
  rw [applyRecord] at h
  split at h
  · rename_i c R' run
    rw [Prod.mk.injEq] at h
    exact ⟨c, h.2 ▸ run⟩
  · cases h

/-- A record that gives the ledger it was made from holds what it needs. -/
theorem Changed.recordable (h : Changed w L source pending dirtyChunks dirtyAssets A A')
    (at_ : LogAt w v (w.bytes .indexLog ++ (encodeJournalRecord env source (source.generation + 1)
      dirtyChunks dirtyAssets pending).1))
    (gives : RecordGives env v (w.bytes .indexLog).length L (encodeJournalRecord env source
      (source.generation + 1) dirtyChunks dirtyAssets pending).1 A') :
    (source.delta dirtyChunks dirtyAssets).Recordable source pending := by
  obtain ⟨R, step, -, describes⟩ := gives
  have follows : source.generation + 1 = L.generation + 1 := by rw [h.generation]
  rw [at_.bytes, List.drop_left, encodeJournalRecord_fst] at step
  obtain ⟨small, R', applied, rfl⟩ := (replayStep_sealRecord follows (follows ▸ h.width)).mp step
  obtain ⟨c, run⟩ := applyRecord_ok applied
  obtain ⟨packs, few, given⟩ := applyJournalRecord_gives run
  have chunk : ∀ hex, hex ∈ dirtyChunks → IsHex hex ∧ ∀ info,
      source.chunks[hex]? = some info → Carried packs (hex, info) := by
    intro hex dirty
    have now : R'.chunks[hex]? = A'.chunks hex := describes.chunks hex
    rcases given.chunks hex with same | changed
    · exact absurd ((h.before.chunks hex).symm.trans (same.symm.trans now)) ((h.chunks hex).mp dirty)
    · refine ⟨changed.1, fun info found => changed.2 info ?_⟩
      rw [now, ← h.after.chunks hex, found]
  have asset : ∀ name, name ∈ dirtyAssets → (strBytes name).length < 2 ^ 16 ∧
      ∀ l, source.assets[name]? = some l → ∀ hex ∈ l, IsHex hex := by
    intro name dirty
    have now : R'.assets[name]? = A'.assets name := describes.assets name
    rcases given.assets name with ⟨sameList, samePlace⟩ | changed
    · have lists : A.assets name = A'.assets name := (h.before.assets name).symm.trans (sameList.symm.trans now)
      refine absurd ?_ ((h.assets name).mp dirty)
      rw [Ledger.entry, Ledger.entry, ← lists]
      cases listed : A.assets name with
      | none => rfl
      | some l =>
          obtain ⟨b, published, reads⟩ := h.before.records name (by rw [listed]; rfl)
          obtain ⟨b', published', reads'⟩ := describes.records name (by rw [← lists, listed]; rfl)
          rw [ExtTreeMap.getElem?_empty, Option.none_or] at reads reads'
          have place : R'.records[name]? = L.records[name]? := samePlace
          rw [show _ = L.records[name]? from place, placeBytes_appended at_ reads, Option.some.injEq] at reads'
          rw [published, published', reads']
    · refine ⟨changed.1, fun l found => changed.2 l ?_⟩
      rw [now, ← h.after.assets name, found]
  have upsert : ∀ entry ∈ (source.delta dirtyChunks dirtyAssets).upserts, Carried packs entry := by
    intro entry mem
    obtain ⟨dirty, found⟩ := mem_upserts.mp mem
    exact (chunk entry.1 dirty).2 entry.2 found
  refine ⟨?_, fun entry mem => ?_, fun hex mem => ?_, fun put mem => ?_, fun name mem => ?_, small⟩
  · refine lt_of_le_of_lt (List.subperm_of_subset (packTable_nodup _) fun p mem => ?_).length_le few
    obtain ⟨info, listed, packed⟩ := mem_packTable.mp mem
    obtain ⟨entry, mem', rfl⟩ := List.mem_map.mp listed
    exact (upsert entry mem').known p packed
  · have carried := upsert entry mem
    exact ⟨carried.hex, carried.fits, carried.placed⟩
  · exact (chunk hex (mem_removals.mp mem).1).1
  · obtain ⟨dirty, found⟩ := mem_assetPuts.mp mem
    exact ⟨(asset put.1 dirty).1, (asset put.1 dirty).2 put.2 found⟩
  · exact (asset name (mem_assetDels.mp mem).1).1

end Replayed

section Sample
variable {name : String}

/-- A store without chunks after the publish of one asset. -/
def oneAsset (name : String) : Draft :=
  (Edit.publish name [] [1]).apply (Index.empty .packfiles, ∅)

def Ledger.none : Ledger := ⟨fun _ => .none, fun _ => .none, fun _ => .none⟩

def Ledger.one (name : String) : Ledger where
  chunks _ := .none
  assets name' := if name' = name then some [] else .none
  published name' := if name' = name then some [1] else .none

def oneDirty (name : String) : ExtTreeSet String := (∅ : ExtTreeSet String).insert name

/-- The record the save after the publish appends, and the store after it. -/
noncomputable def oneRecord (name : String) : Bytes :=
  (encodeJournalRecord countingEnv (oneAsset name).1 ((oneAsset name).1.generation + 1) ∅
    (oneDirty name) (oneAsset name).2).1

noncomputable def oneStore (name : String) : Disk :=
  FileProg.World.empty.put .indexLog ((FileProg.World.empty : Disk).bytes .indexLog ++ oneRecord name) 0

theorem oneStore_appended : LogAt FileProg.World.empty (oneStore name)
    ((FileProg.World.empty : Disk).bytes .indexLog ++ oneRecord name) :=
  LogAt.of_put ..

theorem mem_oneDirty {name' : String} : name' ∈ oneDirty name ↔ name' = name := by
  rw [oneDirty, ExtTreeSet.mem_insert, Std.LawfulEqCmp.compare_eq_iff_eq, @eq_comm _ name]
  exact or_iff_left ExtTreeSet.not_mem_empty

theorem oneAsset_changed : Changed FileProg.World.empty (Index.empty .packfiles) (oneAsset name).1
    (oneAsset name).2 ∅ (oneDirty name) .none (.one name) where
  narrow _ _ _ _ found := by
    rw [Index.empty, ExtTreeMap.getElem?_empty] at found
    cases found
  width := by decide
  edited := ⟨[.publish name [] [1]], rfl⟩
  before := ⟨fun _ => ExtTreeMap.getElem?_empty, fun _ => ExtTreeMap.getElem?_empty,
    fun _ listed => nomatch listed⟩
  after := by
    refine ⟨fun _ => ExtTreeMap.getElem?_empty, fun name' => ?_, fun name' listed => ?_⟩
    · simp only [oneAsset, Edit.apply, Index.setAsset, getElem?_insert_eq, Ledger.one, Index.empty,
        ExtTreeMap.getElem?_empty]
    · simp only [Ledger.one] at listed
      split at listed
      · rename_i same
        refine ⟨[1], if_pos same, ?_⟩
        simp only [oneAsset, Edit.apply, getElem?_insert_eq, if_pos same, Option.some_or]
      · cases listed
  chunks hex := by
    constructor
    · exact fun mem => (ExtTreeSet.not_mem_empty mem).elim
    · exact fun differ => (differ rfl).elim
  assets name' := by
    rw [mem_oneDirty]
    simp only [Ledger.entry, Ledger.none, Ledger.one]
    by_cases same : name' = name <;> simp [same]

/-- A name of `n` letters, which a publish takes. -/
def letters (n : Nat) : String := String.ofList (List.replicate n 'a')

theorem letters_length (n : Nat) : (strBytes (letters n)).length = n := by
  have each : ∀ c ∈ List.replicate n 'a', (String.utf8EncodeChar c).length = 1 := by
    intro c mem
    rw [List.eq_of_mem_replicate mem]
    rfl
  rw [letters, strBytes_ofList, flatMap_length_const _ each, List.length_replicate, Nat.mul_one]

theorem letters_taken {n : Nat} (positive : 0 < n) : badName (letters n) = false := by
  rw [badName, Bool.or_eq_false_iff]
  constructor
  · rw [letters, String.toList_ofList, List.any_eq_false]
    intro c mem
    rw [List.eq_of_mem_replicate mem]
    decide
  · rw [Bool.eq_false_iff, ne_eq, String.isEmpty_iff]
    intro empty
    have length := letters_length n
    rw [empty] at length
    exact positive.ne length

/-- The length of a long name is cut to two bytes: the record cannot be applied again. -/
theorem long_not_replayed (long : 2 ^ 16 ≤ (strBytes name).length) :
    ¬ RecordGives countingEnv (oneStore name) 0 (Index.empty .packfiles) (oneRecord name)
      (.one name) := by
  intro gives
  have recordable := oneAsset_changed.recordable oneStore_appended gives
  have listed : (name, []) ∈ ((oneAsset name).1.delta ∅ (oneDirty name)).assetPuts :=
    mem_assetPuts.mpr ⟨mem_oneDirty.mpr rfl, (getElem?_insert_eq ..).trans (if_pos rfl)⟩
  exact (recordable.assetPuts _ listed).1.not_ge long

theorem page_recordable :
    ((oneAsset "page").1.delta ∅ (oneDirty "page")).Recordable (oneAsset "page").1 (oneAsset "page").2 where
  packs := by decide +kernel
  upserts entry mem := (ExtTreeSet.not_mem_empty (mem_upserts.mp mem).1).elim
  removals hex mem := (ExtTreeSet.not_mem_empty (mem_removals.mp mem).1).elim
  assetPuts := by
    have puts : ((oneAsset "page").1.delta ∅ (oneDirty "page")).assetPuts = [("page", [])] := by
      decide +kernel
    rw [puts]
    intro put mem
    cases List.mem_singleton.mp mem
    exact ⟨by decide, fun hex mem => (List.not_mem_nil mem).elim⟩
  assetDels := by
    have dels : ((oneAsset "page").1.delta ∅ (oneDirty "page")).assetDels = [] := by decide +kernel
    rw [dels]
    exact fun name mem => (List.not_mem_nil mem).elim
  body := by decide +kernel

end Sample

section Replayed
/-- A journal record leads back to the ledger it describes exactly when its entries fit the
fields they are written in. -/
theorem encodeJournalRecord_replays (env : Env) (w v : Disk) (L source : Index)
    (pending : ExtTreeMap String Bytes) (dirtyChunks dirtyAssets : ExtTreeSet String) (A A' : Ledger)
    (changed : Changed w L source pending dirtyChunks dirtyAssets A A')
    (appended : LogAt w v (w.bytes .indexLog ++ (encodeJournalRecord env source (source.generation + 1)
      dirtyChunks dirtyAssets pending).1)) :
    RecordGives env v (w.bytes .indexLog).length L (encodeJournalRecord env source
        (source.generation + 1) dirtyChunks dirtyAssets pending).1 A' ↔
      (source.delta dirtyChunks dirtyAssets).Recordable source pending :=
  ⟨changed.recordable appended, changed.gives appended⟩

theorem encodeJournalRecord_replays_page :
    RecordGives countingEnv (oneStore "page") 0 (Index.empty .packfiles) (oneRecord "page")
        (.one "page") :=
  (encodeJournalRecord_replays countingEnv FileProg.World.empty (oneStore "page")
    (Index.empty .packfiles) (oneAsset "page").1 (oneAsset "page").2 ∅ (oneDirty "page") .none
    (.one "page") oneAsset_changed oneStore_appended).mpr page_recordable

theorem long_name_not_replayed :
    badName (letters (2 ^ 16)) = false ∧
      Changed FileProg.World.empty (Index.empty .packfiles) (oneAsset (letters (2 ^ 16))).1
        (oneAsset (letters (2 ^ 16))).2 ∅ (oneDirty (letters (2 ^ 16))) .none
        (.one (letters (2 ^ 16))) ∧
      LogAt FileProg.World.empty (oneStore (letters (2 ^ 16)))
        ((FileProg.World.empty : Disk).bytes .indexLog ++ oneRecord (letters (2 ^ 16))) ∧
      ¬ RecordGives countingEnv (oneStore (letters (2 ^ 16))) 0 (Index.empty .packfiles)
        (oneRecord (letters (2 ^ 16))) (.one (letters (2 ^ 16))) :=
  ⟨letters_taken (by decide), oneAsset_changed, oneStore_appended,
    long_not_replayed (letters_length _).ge⟩

end Replayed
end Cavs
