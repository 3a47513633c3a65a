import Cavs.Publish

/-!
# What the disk says

The ledger a store stands for, apart from files and handles, and how the files
say it: a snapshot, a journal that follows on from it, and the record packs the
two name. A handle is tied to the ledger on disk by what it changed since.
-/
namespace Cavs
open FileProg (Bytes File bytes_congr get_move)
open Std (ExtTreeMap ExtTreeSet)

/-- What a store is for: the chunks it holds, the assets it lists, and the record
each of them was published with. -/
structure Ledger where
  chunks : String → Option ChunkInfo
  assets : String → Option (List String)
  published : String → Option Bytes

def Index.ledger (index : Index) (published : String → Option Bytes) : Ledger where
  chunks := fun hex => index.chunks[hex]?
  assets := fun name => index.assets[name]?
  published

section Slices
variable {file tail b : Bytes} {offset len : Nat}

theorem sliceExact_append (h : sliceExact file offset len = .ok b) :
    sliceExact (file ++ tail) offset len = .ok b := by
  simp only [sliceExact] at h ⊢
  split at h
  · rename_i whole
    rw [List.length_take, List.length_drop] at whole
    have same : ((file ++ tail).drop offset).take len = (file.drop offset).take len := by
      rcases Nat.eq_zero_or_pos len with rfl | positive
      · simp
      · rw [List.drop_append_of_le_length (by omega), List.take_append_of_le_length
          (by rw [List.length_drop]; omega)]
    rw [same, if_pos (by rw [List.length_take, List.length_drop]; exact whole)]
    exact h
  · cases h

theorem sliceExact_middle (front rest : Bytes) :
    sliceExact (front ++ (b ++ rest)) front.length b.length = .ok b := by
  simp [sliceExact]

end Slices

section Journal
variable {env : Env} {file file' : JournalFile} {bytes good : Bytes} {S L later : Index}

/-- A journal whose records, the whole of `good`, lead from `S` to `L`; what follows
them is no record. -/
structure Logged (env : Env) (file : JournalFile) (bytes good : Bytes) (S L : Index) : Prop where
  tail : ∃ tail, bytes = good ++ tail ∧ nextJournalRecord env tail = none
  replays : Replays env file 0 good S L

theorem Logged.empty : Logged env file [] [] S S := ⟨⟨[], rfl, rfl⟩, Replays.nil⟩

theorem Logged.generation_le (h : Logged env file bytes good S L) : S.generation ≤ L.generation :=
  h.replays.generation_le

theorem Logged.replayBytes (h : Logged env file bytes good S L) :
    replayBytes env file S bytes 0 = (L, ⟨good.length, bytes.length⟩) := by
  obtain ⟨tail, rfl, dead⟩ := h.tail
  rw [replayBytes_eq 0 (Nat.zero_le _), List.drop_zero, h.replays.append, replayRest_dead dead,
    Nat.zero_add]

theorem Logged.length_le (h : Logged env file bytes good S L) : good.length ≤ bytes.length := by
  obtain ⟨tail, rfl, -⟩ := h.tail
  rw [List.length_append]
  omega

/-- A ledger as new as what a journal led to finds nothing in it. -/
theorem Logged.stale (h : Logged env file bytes good S L) (newer : L.generation ≤ later.generation) :
    Logged env file' bytes good later later :=
  ⟨h.tail, h.replays.stale newer⟩

/-- A journal no ledger of generation `g` or more takes anything from. -/
def Skipped (env : Env) (bytes : Bytes) (g : Nat) : Prop :=
  ∃ file good S L, Logged env file bytes good S L ∧ L.generation ≤ g

theorem Skipped.nil {g : Nat} : Skipped env [] g :=
  ⟨.live, [], ⟨∅, ∅, ∅, .loose, 0⟩, _, Logged.empty, Nat.zero_le _⟩

theorem Skipped.mono {g g' : Nat} (h : Skipped env bytes g) (le : g ≤ g') : Skipped env bytes g' := by
  obtain ⟨file, good, S, L, logged, bound⟩ := h
  exact ⟨file, good, S, L, logged, bound.trans le⟩

theorem Skipped.replayBytes {g : Nat} (h : Skipped env bytes g) (newer : g ≤ later.generation) :
    (replayBytes env file later bytes 0).1 = later := by
  obtain ⟨file', good, S, L, logged, bound⟩ := h
  rw [(logged.stale (bound.trans newer)).replayBytes]

end Journal

section Disk
variable (env : Env)

/-- The snapshot a load starts from: the live one, or the one before it while a
rewrite is between its two renames. -/
inductive Based (w : Disk) (S : Index) : Prop
  | live {f : File} (found : w.get .indexBin = some f)
      (reads : decodeIndexVersioned env f.bytes = .ok (S, 2))
  | prev {f : File} (absent : w.get .indexBin = none) (found : w.get .indexBinPrev = some f)
      (reads : decodeIndexVersioned env f.bytes = .ok (S, 2))

/-- The ledger files say `L`: the snapshot `S` and the records `good` after it. -/
structure Stored (w : Disk) (S L : Index) (good : Bytes) : Prop where
  mono : w.get .segCurrent = none
  based : Based env w S
  log : Logged env .live (w.bytes .indexLog) good S L
  old : Skipped env (w.bytes .indexLogPrev) S.generation

/-- The ledger before the last snapshot, with both journals replayed over it. -/
def recoveredPrev (w : Disk) : Option Index :=
  match w.get .indexBinPrev with
  | some f => match decodeIndex env f.bytes with
    | .ok S =>
        let (index, _) := replayBytes env .prev S (w.bytes .indexLogPrev) 0
        some (replayBytes env .live index (w.bytes .indexLog) 0).1
    | .error _ => none
  | none => none

/-- The ledger a load of these files comes to. -/
def recovered (w : Disk) : Option Index :=
  match w.get .indexBin with
  | some f => match decodeIndexVersioned env f.bytes with
    | .ok (S, _) => some (replayBytes env .live S (w.bytes .indexLog) 0).1
    | .error _ => recoveredPrev env w
  | none => recoveredPrev env w

variable {env} {w v : Disk} {S L : Index} {good : Bytes}

theorem decodeIndex_of_versioned {bytes : Bytes} {version : Nat}
    (h : decodeIndexVersioned env bytes = .ok (S, version)) : decodeIndex env bytes = .ok S := by
  rw [decodeIndex, h]; rfl

theorem Stored.recovered (h : Stored env w S L good) : recovered env w = some L := by
  cases h.based with
  | live found reads =>
      simp only [Cavs.recovered, found, reads, h.log.replayBytes]
  | prev absent found reads =>
      simp only [Cavs.recovered, absent, recoveredPrev, found, decodeIndex_of_versioned reads,
        h.old.replayBytes (le_refl _), h.log.replayBytes]

/-- A record of an asset can be read back: from a pack, or from the records of the
live journal. -/
def RefReads (w : Disk) (good : Bytes) (ref : RecordRef) (b : Bytes) : Prop :=
  match ref with
  | .pack pack offset len => ∃ f, w.get (.recordPack pack) = some f ∧ sliceExact f.bytes offset len = .ok b
  | .journal .live offset len => (w.get .indexLog).isSome ∧ sliceExact good offset len = .ok b
  | .journal .prev .. => False

/-- Every asset of `A` has its record where `L` says. -/
def RecordsKept (w : Disk) (L : Index) (good : Bytes) (A : Ledger) : Prop :=
  ∀ name chunks, A.assets name = some chunks →
    ∃ ref b, L.records[name]? = some ref ∧ A.published name = some b ∧ RefReads w good ref b

/-- Every record pack is named by its bytes, which were hashed before. -/
def Named (env : Env) (w : Disk) : Prop :=
  ∀ pack f, w.get (.recordPack pack) = some f → f.bytes ∈ w.named ∧ env.hashChunk f.bytes = pack

/-- An open of these files yields `A`, records and all. -/
def Recovers (env : Env) (w : Disk) (A : Ledger) : Prop :=
  Named env w ∧ ∃ S L good, Stored env w S L good ∧ L.Canon ∧ RecordsKept w L good A ∧
    (∀ hex, L.chunks[hex]? = A.chunks hex) ∧ ∀ name, L.assets[name]? = A.assets name

end Disk

section Growth
variable {env : Env}

/-- The files an open of the ledger reads, but for the record packs. -/
def Path.isLedger : Path → Bool
  | .segCurrent | .indexBin | .indexBinPrev | .indexLog | .indexLogPrev => true
  | _ => false

/-- The ledger files and the record packs. -/
def Path.isKept : Path → Bool
  | .segCurrent | .indexBin | .indexBinPrev | .indexLog | .indexLogPrev | .recordPack _ => true
  | _ => false

/-- The ledger files are as they were, and no record pack is gone. -/
structure Grows (env : Env) (w v : Disk) : Prop where
  same : ∀ p, p.isLedger = true → v.get p = w.get p
  packs : ∀ pack f, w.get (.recordPack pack) = some f → v.get (.recordPack pack) = some f
  marks : v.marks = w.marks
  named : Named env w → Named env v

variable {u w v : Disk} {S L : Index} {good : Bytes}

theorem Grows.refl (w : Disk) : Grows env w w := ⟨fun _ _ => rfl, fun _ _ h => h, rfl, fun h => h⟩

theorem Grows.trans (h : Grows env u v) (h' : Grows env v w) : Grows env u w :=
  ⟨fun p hp => (h'.same p hp).trans (h.same p hp), fun pack f hf => h'.packs pack f (h.packs pack f hf),
    h'.marks.trans h.marks, fun n => h'.named (h.named n)⟩

/-- Changes away from the ledger files and the record packs are no matter. -/
theorem Grows.of_calm {T : Path → Prop} (h : w.Calm T v) (free : ∀ p, T p → p.isKept = false) :
    Grows env w v := by
  have packs : ∀ pack, v.get (.recordPack pack) = w.get (.recordPack pack) := fun pack =>
    h.get _ fun t => Bool.noConfusion (free _ t)
  refine ⟨fun p hp => h.get p fun t => ?_, fun pack f hf => (packs pack).trans hf, h.marks,
    fun named pack f hf => ?_⟩
  · have := free p t
    cases p <;> simp [Path.isLedger, Path.isKept] at hp this
  · obtain ⟨mem, hash⟩ := named pack f ((packs pack).symm.trans hf)
    exact ⟨h.named mem, hash⟩

theorem Grows.put {p : Path} (free : p.isKept = false) (w : Disk) (b : Bytes) (t : Nat) :
    Grows env w (w.put p b t) :=
  .of_calm (T := fun q => q = p) ⟨fun _ hq => FileProg.get_put_ne hq .., rfl, fun _ h => h⟩
    fun _ hq => hq ▸ free

theorem Grows.del {p : Path} (free : p.isKept = false) (w : Disk) : Grows env w (w.del p) :=
  .of_calm (T := fun q => q = p) ⟨fun _ hq => FileProg.get_del_ne hq _, rfl, fun _ h => h⟩
    fun _ hq => hq ▸ free

/-- A record pack takes its name once its bytes were hashed to it. -/
theorem Grows.move_pack {pack : ChunkHash} {f : File}
    (absent : w.get (.recordPack pack) = none) (mem : f.bytes ∈ w.named)
    (hash : env.hashChunk f.bytes = pack) :
    Grows env w (w.move (.recordPackTmp pack) (.recordPack pack) f) := by
  refine ⟨fun p hp => ?_, fun pack' f' hf => ?_, rfl, fun named pack' f' hf => ?_⟩
  · cases p <;> simp [Path.isLedger] at hp <;> simp [get_move]
  · have other : pack' ≠ pack := by rintro rfl; rw [absent] at hf; cases hf
    simpa [get_move, other] using hf
  · by_cases same : pack' = pack
    · subst same
      rw [FileProg.get_move_self, Option.some.injEq] at hf
      subst hf
      exact ⟨mem, hash⟩
    · exact named pack' f' (by simpa [get_move, same] using hf)

theorem Based.congr (h : Based env w S) (bin : v.get .indexBin = w.get .indexBin)
    (prev : v.get .indexBinPrev = w.get .indexBinPrev) : Based env v S := by
  cases h with
  | live found reads => exact .live (bin.trans found) reads
  | prev absent found reads => exact .prev (bin.trans absent) (prev.trans found) reads

theorem Stored.grows (h : Stored env w S L good) (g : Grows env w v) : Stored env v S L good where
  mono := (g.same .segCurrent rfl).trans h.mono
  based := h.based.congr (g.same .indexBin rfl) (g.same .indexBinPrev rfl)
  log := by rw [bytes_congr (g.same .indexLog rfl)]; exact h.log
  old := by rw [bytes_congr (g.same .indexLogPrev rfl)]; exact h.old

theorem RefReads.grows {ref : RecordRef} {b : Bytes} (h : RefReads w good ref b) (g : Grows env w v) :
    RefReads v good ref b := by
  match ref, h with
  | .pack pack offset len, ⟨f, found, slice⟩ => exact ⟨f, g.packs pack f found, slice⟩
  | .journal .live offset len, ⟨there, slice⟩ => exact ⟨by rw [g.same .indexLog rfl]; exact there, slice⟩

theorem RecordsKept.grows {A : Ledger} (h : RecordsKept w L good A) (g : Grows env w v) :
    RecordsKept v L good A := by
  intro name chunks listed
  obtain ⟨ref, b, found, published, reads⟩ := h name chunks listed
  exact ⟨ref, b, found, published, reads.grows g⟩

theorem Recovers.grows {A : Ledger} (h : Recovers env w A) (g : Grows env w v) : Recovers env v A := by
  obtain ⟨named, S, L, good, stored, canon, kept, same⟩ := h
  exact ⟨g.named named, S, L, good, stored.grows g, canon, kept.grows g, same⟩

end Growth

section Handle
variable (env : Env) (w : Disk) (S L : Index) (good : Bytes) (s : GlobalStore)

/-- The ledger of the handle and the one on disk, when the next record would follow
on: they differ in dirty entries only, and a dirty asset, unless it is exempt, has its
record staged or in a pack. -/
structure InStep (exempt : String → Prop) : Prop where
  chunks : ∀ hex, hex ∉ s.dirtyChunks → L.chunks[hex]? = s.index.chunks[hex]?
  assets : ∀ name, name ∉ s.dirtyAssets → L.assets[name]? = s.index.assets[name]?
  staged : ∀ name, name ∉ s.dirtyAssets → s.pendingRecords[name]? = none
  records : ∀ name, name ∉ s.dirtyAssets → (s.index.assets[name]?).isSome →
    L.records[name]? = s.index.records[name]?
  placed : ∀ name, name ∈ s.dirtyAssets → (s.index.assets[name]?).isSome → ¬ exempt name →
    s.pendingRecords[name]? = none → ∃ pack offset len,
      s.index.records[name]? = some (.pack pack offset len)
  journal : 0 < s.snapshotBytes → (w.get .indexBin).isSome ∧ w.bytes .indexLog = good ∧
    s.journalBytes = good.length

/-- A handle that may write to the store whose files say `L`. Assets that are not
exempt have a record with the bytes published. -/
structure Tied (published : String → Option Bytes) (exempt : String → Prop) : Prop where
  stored : Stored env w S L good
  named : Named env w
  mono : s.seg = none
  writable : s.readOnly = false
  canon : s.index.Canon
  dirtyHex : ∀ hex ∈ s.dirtyChunks, IsHex hex
  layout : L.layout = s.index.layout
  generation : L.generation ≤ s.index.generation
  inStep : L.generation = s.index.generation → InStep w L good s exempt
  records : ∀ name chunks, s.index.assets[name]? = some chunks → ¬ exempt name → ∃ b,
    published name = some b ∧ (s.pendingRecords[name]? = some b ∨
      s.pendingRecords[name]? = none ∧ ∃ ref, s.index.records[name]? = some ref ∧ RefReads w good ref b)

end Handle

section Handle
variable {env : Env} {w v : Disk} {S L : Index} {good : Bytes} {s : GlobalStore}
  {published : String → Option Bytes} {exempt : String → Prop}

theorem InStep.grows (h : InStep w L good s exempt) (g : Grows env w v) : InStep v L good s exempt where
  chunks := h.chunks
  assets := h.assets
  staged := h.staged
  records := h.records
  placed := h.placed
  journal positive := by
    rw [g.same .indexBin rfl, bytes_congr (g.same .indexLog rfl)]
    exact h.journal positive

theorem Tied.grows (h : Tied env w S L good s published exempt) (g : Grows env w v) :
    Tied env v S L good s published exempt where
  stored := h.stored.grows g
  named := g.named h.named
  mono := h.mono
  writable := h.writable
  canon := h.canon
  dirtyHex := h.dirtyHex
  layout := h.layout
  generation := h.generation
  inStep same := (h.inStep same).grows g
  records name chunks listed free := by
    obtain ⟨b, pub, staged | ⟨none, ref, found, reads⟩⟩ := h.records name chunks listed free
    · exact ⟨b, pub, .inl staged⟩
    · exact ⟨b, pub, .inr ⟨none, ref, found, reads.grows g⟩⟩

end Handle
end Cavs
