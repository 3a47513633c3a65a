import Cavs.SaveParts

/-!
# A save by journal record

The record a save appends leads a replay to the ledger of the handle. The inline
asset records are read back where the handle says they are.
-/
namespace Cavs
open FileProg (Bytes IoError Op)
open FileProg.Eff
open ByteScan
open Std (ExtTreeMap ExtTreeSet)

section Record
variable {env : Env} {source : Index} {generation : Nat} {dirtyChunks dirtyAssets : ExtTreeSet String}
  {pending : ExtTreeMap String Bytes} {good : Bytes} {L : Index}

theorem encodeJournalRecord_fst :
    (encodeJournalRecord env source generation dirtyChunks dirtyAssets pending).1 =
      sealRecord env generation ((source.delta dirtyChunks dirtyAssets).body source pending) := rfl

theorem encodeJournalRecord_snd :
    (encodeJournalRecord env source generation dirtyChunks dirtyAssets pending).2 =
      ((source.delta dirtyChunks dirtyAssets).placed source pending).filterMap fun q =>
        inlineAt pending (q.1 + journalHeaderSize, q.2) := by
  simp only [encodeJournalRecord, Delta.placed, Nat.add_comm journalHeaderSize, places_shift,
    List.filterMap_map]
  rfl

theorem mem_inline {start : Nat} {e : String × RecordRef} :
    e ∈ inlineRefs start (encodeJournalRecord env source generation dirtyChunks dirtyAssets pending).2 ↔
      ∃ pos put bytes, (pos, put) ∈ (source.delta dirtyChunks dirtyAssets).placed source pending ∧
        pending[put.1]? = some bytes ∧ e = (put.1, .journal .live
          (start + (pos + journalHeaderSize + (assetHead put).length + 5)) (bytes.length % 2 ^ 32)) := by
  simp only [inlineRefs, encodeJournalRecord_snd, List.mem_map, List.mem_filterMap]
  constructor
  · rintro ⟨_, ⟨⟨pos, put⟩, placed, at_⟩, rfl⟩
    obtain ⟨bytes, staged, rfl⟩ := Option.map_eq_some_iff.mp at_
    exact ⟨pos, put, bytes, placed, staged, rfl⟩
  · rintro ⟨pos, put, bytes, placed, staged, rfl⟩
    exact ⟨(put.1, _, _), ⟨(pos, put), placed, by simp only [inlineAt, staged, Option.map_some]⟩, rfl⟩

theorem inline_nodup {start : Nat} :
    ((inlineRefs start (encodeJournalRecord env source generation dirtyChunks dirtyAssets
      pending).2).map Prod.fst).Nodup := by
  have keys : (((source.delta dirtyChunks dirtyAssets).placed source pending).map
      fun q => q.2.1).Nodup := by
    rw [placed_keys]; exact assetPuts_nodup
  refine keys.sublist ?_
  rw [inlineRefs, encodeJournalRecord_snd, List.map_map]
  generalize (source.delta dirtyChunks dirtyAssets).placed source pending = l
  induction l with
  | nil => exact .slnil
  | cons q l ih =>
      rw [List.filterMap_cons, List.map_cons]
      cases staged : pending[q.2.1]? with
      | none => simp only [inlineAt, staged, Option.map_none]; exact ih.cons _
      | some bytes =>
          simp only [inlineAt, staged, Option.map_some, List.map_cons]
          exact ih.cons_cons _

/-- The bytes of an inline record are in the journal where its entry says. -/
theorem inline_slice {pos : Nat} {put : String × List String} {bytes : Bytes}
    (placed : (pos, put) ∈ (source.delta dirtyChunks dirtyAssets).placed source pending)
    (staged : pending[put.1]? = some bytes) :
    sliceExact (good ++ sealRecord env generation
        ((source.delta dirtyChunks dirtyAssets).body source pending))
      (good.length + journalHeaderSize + (pos + (assetHead put).length + 5)) bytes.length =
        .ok bytes := by
  obtain ⟨l, r, split, at_⟩ := places_append_mem placed
  obtain ⟨before, after, body, length⟩ : ∃ before after,
      (source.delta dirtyChunks dirtyAssets).body source pending = before ++ (bytes ++ after) ∧
      before.length = pos + (assetHead put).length + 5 := by
    refine ⟨(source.delta dirtyChunks dirtyAssets).front ++ (l ++ (assetHead put ++ (le 1 2 ++
      le 4 bytes.length))), r ++ (le 4 (source.delta dirtyChunks dirtyAssets).assetDels.length ++
      (source.delta dirtyChunks dirtyAssets).assetDels.flatMap textBytes), ?_, ?_⟩
    · rw [Delta.body, split]
      simp only [assetPut, recordPlace, staged, List.append_assoc]
    · simp only [List.length_append, le_length]
      dsimp only at at_
      omega
  have whole : good ++ sealRecord env generation
      ((source.delta dirtyChunks dirtyAssets).body source pending) =
      (good ++ (journalHeader generation
        ((source.delta dirtyChunks dirtyAssets).body source pending).length ++ before)) ++
      (bytes ++ (after ++ (env.hashChunk (journalHeader generation
        ((source.delta dirtyChunks dirtyAssets).body source pending).length ++
        (source.delta dirtyChunks dirtyAssets).body source pending)).1)) := by
    rw [sealRecord_eq]
    generalize (env.hashChunk _).1 = hash
    generalize journalHeader generation _ = header
    rw [body]
    simp only [List.append_assoc]
  have start : good.length + journalHeaderSize + (pos + (assetHead put).length + 5) =
      (good ++ (journalHeader generation
        ((source.delta dirtyChunks dirtyAssets).body source pending).length ++ before)).length := by
    simp only [List.length_append, journalHeader_length, length, journalHeaderSize]
    omega
  rw [whole, start]
  exact sliceExact_middle ..

end Record
section Apply
variable {env : Env} {S L : Index} {good : Bytes} {s : GlobalStore} {v w : Disk}
  {published : String → Option Bytes}

/-- What the handle changed since its last save. -/
def GlobalStore.delta (s : GlobalStore) : Delta := s.index.delta s.dirtyChunks s.dirtyAssets

/-- The record the next save appends, when it appends one. -/
def nextRecord (env : Env) (s : GlobalStore) : Bytes :=
  sealRecord env (s.index.generation + 1) (s.delta.body s.index s.pendingRecords)

/-- The ledger a replay comes to when that record follows `L` at `start`. -/
def recorded (s : GlobalStore) (L : Index) (start : Nat) : Index :=
  { s.delta.apply .live (start + journalHeaderSize) s.index s.pendingRecords L with
    generation := s.index.generation + 1 }

/-- The handle after that record was appended. -/
def appended (env : Env) (s : GlobalStore) : GlobalStore :=
  { journalSaved (s.index.generation + 1) (nextRecord env s).length (encodeJournalRecord env s.index
      (s.index.generation + 1) s.dirtyChunks s.dirtyAssets s.pendingRecords).2 s with
    dirtyChunks := ∅, dirtyAssets := ∅ }

theorem delta_canon (canon : s.index.Canon) (dirtyHex : ∀ hex ∈ s.dirtyChunks, IsHex hex) :
    s.delta.Canon where
  upserts _ mem := canon.chunk _ _ (mem_upserts.mp mem).2
  removals hex mem := dirtyHex hex (mem_removals.mp mem).1
  assetPuts _ mem := canon.asset _ _ (mem_assetPuts.mp mem).2

theorem applyRecord_body {file : JournalFile} {base : Nat} {index : Index}
    (fits : s.delta.Fits s.index s.pendingRecords) (canon : s.delta.Canon) :
    applyRecord file base index (s.delta.body s.index s.pendingRecords) =
      (.ok (), s.delta.apply file base s.index s.pendingRecords index) := by
  rw [applyRecord, (applyJournalRecord_scans fits canon index).whole]
  rfl

/-- The record follows on from the ledger it was made for. -/
theorem recorded_logged (log : Logged env .live good good S L) (same : L.generation = s.index.generation)
    (width : s.index.generation + 1 < 2 ^ 64) (fits : s.delta.Fits s.index s.pendingRecords)
    (canon : s.delta.Canon) :
    Logged env .live (good ++ nextRecord env s) (good ++ nextRecord env s) S
      (recorded s L good.length) := by
  refine ⟨⟨[], by simp, rfl⟩, log.replays.trans ?_⟩
  refine replays_record fits.body width (by rw [same]) ?_
  rw [applyRecord_body fits canon, Nat.zero_add]

theorem recorded_chunks {start : Nat} (step : ∀ hex, hex ∉ s.dirtyChunks →
    L.chunks[hex]? = s.index.chunks[hex]?) (hex : String) :
    (recorded s L start).chunks[hex]? = s.index.chunks[hex]? := by
  refine (delta_apply_spec .live _ s.index s.pendingRecords s.dirtyChunks s.dirtyAssets L hex).1.trans ?_
  split
  · rfl
  · exact step hex ‹_›

theorem recorded_assets {start : Nat} (step : ∀ name, name ∉ s.dirtyAssets →
    L.assets[name]? = s.index.assets[name]?) (name : String) :
    (recorded s L start).assets[name]? = s.index.assets[name]? := by
  refine (delta_apply_spec .live _ s.index s.pendingRecords s.dirtyChunks s.dirtyAssets L name).2.1.trans
    ?_
  split
  · rfl
  · exact step name ‹_›

theorem recorded_layout {start : Nat} : (recorded s L start).layout = L.layout :=
  (delta_apply_spec .live _ s.index s.pendingRecords s.dirtyChunks s.dirtyAssets L "").2.2.1

theorem RefReads.append {ref : RecordRef} {b rest : Bytes} (h : RefReads w good ref b)
    (packs : ∀ pack, v.get (.recordPack pack) = w.get (.recordPack pack))
    (there : (v.get .indexLog).isSome) : RefReads v (good ++ rest) ref b := by
  match ref, h with
  | .pack pack offset len, ⟨f, found, slice⟩ => exact ⟨f, (packs pack).trans found, slice⟩
  | .journal .live offset len, ⟨_, slice⟩ => exact ⟨there, sliceExact_append slice⟩

/-- The handle and the ledger on disk give an asset's record the same place, and its
bytes are there. -/
theorem recorded_record (tied : Tied env w S L good s published fun _ => False)
    (step : InStep w L good s fun _ => False) (positive : 0 < s.snapshotBytes)
    (fits : s.delta.Fits s.index s.pendingRecords) (at_ : LogAt w v (good ++ nextRecord env s)) {name : String}
    {chunks : List String} (listed : s.index.assets[name]? = some chunks) :
    ∃ ref b, (recorded s L good.length).records[name]? = some ref ∧
      (appended env s).index.records[name]? = some ref ∧ published name = some b ∧
      RefReads v (good ++ nextRecord env s) ref b := by
  obtain ⟨b, pub, place⟩ := tied.records name chunks listed not_false
  obtain ⟨clean, -, put⟩ := delta_apply_records .live (good.length + journalHeaderSize) s.index
    s.pendingRecords s.dirtyChunks s.dirtyAssets L name
  obtain ⟨hit, miss⟩ := foldl_insert_lookup (inlineRefs s.journalBytes (encodeJournalRecord env s.index
    (s.index.generation + 1) s.dirtyChunks s.dirtyAssets s.pendingRecords).2) inline_nodup
    s.index.records name
  have packs : ∀ pack, v.get (.recordPack pack) = w.get (.recordPack pack) := fun pack =>
    at_.rest _ (by simp)
  have there : (v.get .indexLog).isSome := by
    obtain ⟨t, found⟩ := at_.log
    rw [found]; rfl
  have length : s.journalBytes = good.length := (step.journal positive).2.2
  have unplaced : s.pendingRecords[name]? = none →
      (appended env s).index.records[name]? = s.index.records[name]? := by
    refine fun none => miss fun mem => ?_
    obtain ⟨e, inline, same⟩ := List.mem_map.mp mem
    obtain ⟨pos, put, bytes, -, staged, rfl⟩ := mem_inline.mp inline
    rw [← same, staged] at none
    cases none
  by_cases dirty : name ∈ s.dirtyAssets
  · obtain ⟨pos, placed⟩ := mem_placed s.index s.pendingRecords
      ((@mem_assetPuts _ s.dirtyChunks _ (name, chunks)).mpr ⟨dirty, listed⟩)
    have recorded := put pos chunks placed
    rcases place with staged | ⟨unstaged, ref, found, reads⟩
    · have small : b.length < 2 ^ 32 := fits.staged (name, chunks)
        (mem_assetPuts.mpr ⟨dirty, listed⟩) b staged
      refine ⟨.journal .live (good.length + journalHeaderSize + (pos + (assetHead (name, chunks)).length
        + 5)) b.length, b, ?_, ?_, pub, there, inline_slice placed staged⟩
      · refine recorded.trans ?_
        simp only [putRecord, staged]
      · refine hit _ (mem_inline.mpr ⟨pos, (name, chunks), b, placed, staged, ?_⟩)
        rw [length, Nat.mod_eq_of_lt small]
        congr 2
        omega
    · obtain ⟨pack, offset, len, packed⟩ := step.placed name dirty (by rw [listed]; rfl) not_false unstaged
      rw [found] at packed
      cases packed
      refine ⟨_, b, ?_, (unplaced unstaged).trans found, pub, reads.append packs there⟩
      refine recorded.trans ?_
      simp only [putRecord, unstaged, found]
  · have unstaged := step.staged name dirty
    rcases place with staged | ⟨-, ref, found, reads⟩
    · rw [unstaged] at staged
      cases staged
    · have same := step.records name dirty (by rw [listed]; rfl)
      exact ⟨ref, b, (clean dirty).trans (same.trans found), (unplaced unstaged).trans found, pub,
        reads.append packs there⟩

theorem Stored.logAt {b good' : Bytes} {L' : Index} (h : Stored env w S L good) (at_ : LogAt w v b)
    (log : Logged env .live b good' S L') : Stored env v S L' good' where
  mono := (at_.rest _ (by simp)).trans h.mono
  based := h.based.congr (at_.rest _ (by simp)) (at_.rest _ (by simp))
  log := by rw [at_.bytes]; exact log
  old := by rw [FileProg.bytes_congr (at_.rest .indexLogPrev (by simp))]; exact h.old

theorem Named.logAt {b : Bytes} (h : Named env w) (at_ : LogAt w v b) : Named env v := by
  intro pack f found
  rw [at_.named]
  exact h pack f ((at_.rest _ (by simp)).symm.trans found)

variable (tied : Tied env w S L good s published fun _ => False)
  (same : L.generation = s.index.generation) (positive : 0 < s.snapshotBytes)
  (fits : s.delta.Fits s.index s.pendingRecords) (width : s.index.generation + 1 < 2 ^ 64)
  (at_ : LogAt w v (good ++ nextRecord env s))
include tied same positive fits width at_

/-- After the append the files say the ledger of the handle, record for record. -/
theorem Tied.appended :
    Tied env v S (recorded s L good.length) (good ++ nextRecord env s) (appended env s) published
      fun _ => False := by
  have step := tied.inStep same
  obtain ⟨bin, log, length⟩ := step.journal positive
  have logged : Logged env .live good good S L := by
    have := tied.stored.log
    rwa [log] at this
  have records := fun name chunks => @recorded_record _ _ _ _ _ _ _ _ tied step positive fits at_ name chunks
  exact {
    stored := tied.stored.logAt at_
      (recorded_logged logged same width fits (delta_canon tied.canon tied.dirtyHex))
    named := tied.named.logAt at_
    mono := tied.mono
    writable := tied.writable
    canon := ⟨tied.canon.chunk, tied.canon.asset⟩
    dirtyHex := fun hex mem => absurd mem ExtTreeSet.not_mem_empty
    layout := recorded_layout.trans tied.layout
    generation := le_refl _
    inStep := fun _ => {
      chunks := fun hex _ => recorded_chunks step.chunks hex
      assets := fun name _ => recorded_assets step.assets name
      staged := fun name _ => ExtTreeMap.getElem?_empty
      records := fun name _ listed => by
        obtain ⟨chunks, found⟩ := Option.isSome_iff_exists.mp listed
        obtain ⟨ref, b, there, here, -⟩ := records name chunks found
        exact there.trans here.symm
      placed := fun name mem => absurd mem ExtTreeSet.not_mem_empty
      journal := fun _ => ⟨(at_.rest .indexBin (by simp)) ▸ bin, at_.bytes, by
        simp [Cavs.appended, journalSaved, insertRecords, length]⟩ }
    records := fun name chunks listed _ => by
      obtain ⟨ref, b, -, here, pub, reads⟩ := records name chunks listed
      exact ⟨b, pub, .inr ⟨ExtTreeMap.getElem?_empty, ref, here, reads⟩⟩ }

/-- An open after the append yields the ledger of the handle. -/
theorem Tied.appended_recovers : Recovers env v (s.index.ledger published) := by
  have step := tied.inStep same
  have chunks := @recorded_chunks _ _ good.length step.chunks
  have assets := @recorded_assets _ _ good.length step.assets
  have after := tied.appended same positive fits width at_
  refine ⟨after.named, S, _, _, after.stored, ?_, ?_, chunks, assets⟩
  · exact ⟨fun hex info found => tied.canon.chunk hex info ((chunks hex).symm.trans found),
      fun name cs found => tied.canon.asset name cs ((assets name).symm.trans found)⟩
  · intro name chunks listed
    obtain ⟨ref, b, there, -, pub, reads⟩ := recorded_record tied step positive fits at_ listed
    exact ⟨ref, b, there, pub, reads⟩

end Apply
end Cavs
