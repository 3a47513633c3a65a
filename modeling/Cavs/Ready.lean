import Cavs.CallParts

/-!
# A handle between two calls

What holds of a handle and its store whenever a caller has it in hand: the handle
is tied to the files, the records a batch holds back are known, and the files say the
ledger of the last save.
-/
namespace Cavs
open FileProg (Bytes IoError Op bytes_congr)
open FileProg.Eff
open Std (ExtTreeMap ExtTreeSet)

section Queue
variable (env : Env)

/-- The records the open batch holds back. -/
def queue (s : GlobalStore) : List AssetRecord := s.batch.getD []

def Queued (s : GlobalStore) (name : String) : Prop := ∃ r ∈ queue s, r.name = name

/-- The bytes published under each name once `record` is published too. -/
def publishing (published : String → Option Bytes) (record : AssetRecord) : String → Option Bytes :=
  fun name => if name = record.name then some (env.recordJson record) else published name

variable {env} {l : List AssetRecord} {published published' : String → Option Bytes} {name : String}

theorem foldl_publishing_other (other : ¬ ∃ r ∈ l, r.name = name) :
    l.foldl (publishing env) published name = published name := by
  induction l generalizing published with
  | nil => rfl
  | cons r l ih =>
      rw [List.foldl_cons, ih fun ⟨r', mem, same⟩ => other ⟨r', .tail _ mem, same⟩, publishing,
        if_neg fun same => other ⟨r, List.mem_cons_self, same.symm⟩]

theorem foldl_publishing_congr (same : published name = published' name) :
    l.foldl (publishing env) published name = l.foldl (publishing env) published' name := by
  induction l generalizing published published' with
  | nil => exact same
  | cons r l ih => exact ih (by simp only [publishing, same])

/-- What a queued name ends up with does not depend on what was published before. -/
theorem foldl_publishing_queued (mem : ∃ r ∈ l, r.name = name) :
    ∃ b, ∀ published, l.foldl (publishing env) published name = some b := by
  induction l with
  | nil => obtain ⟨r, mem, -⟩ := mem; cases mem
  | cons r l ih =>
      by_cases later : ∃ r ∈ l, r.name = name
      · obtain ⟨b, all⟩ := ih later
        exact ⟨b, fun published => all _⟩
      · obtain ⟨r', mem, same⟩ := mem
        cases mem with
        | head =>
            refine ⟨env.recordJson r, fun published => ?_⟩
            rw [List.foldl_cons, foldl_publishing_other later, publishing, if_pos same.symm]
        | tail _ mem => exact absurd ⟨r', mem, same⟩ later

/-- Publishing once more what is published already changes nothing. -/
theorem foldl_publishing_snoc {r : AssetRecord} (same : l.foldl (publishing env) published = published) :
    (l ++ [r]).foldl (publishing env) (publishing env published r) = publishing env published r := by
  funext name
  rw [List.foldl_append, List.foldl_cons, List.foldl_nil]
  by_cases listed : name = r.name
  · rw [publishing, publishing, if_pos listed, if_pos listed]
  · have before : publishing env published r name = published name := if_neg listed
    rw [publishing, if_neg listed, before, foldl_publishing_congr before, same]

end Queue

section Stage
variable {env : Env} {S L : Index} {good : Bytes} {w : Disk} {s : GlobalStore}
  {published : String → Option Bytes} {exempt : String → Prop} {l : List AssetRecord} {name : String}

/-- The handle once the records of `l` are staged. -/
def staged (env : Env) (l : List AssetRecord) (s : GlobalStore) : GlobalStore :=
  l.foldl (fun s r => stageRecord env r s) s

theorem staged_same : staged env l s = { s with
    pendingRecords := (staged env l s).pendingRecords
    index := { s.index with records := (staged env l s).index.records } } := by
  induction l generalizing s with
  | nil => rfl
  | cons r l ih => exact ih (s := stageRecord env r s)

theorem staged_pending : (staged env l s).pendingRecords[name]? =
    l.foldl (publishing env) (fun name : String => s.pendingRecords[name]?) name := by
  induction l generalizing s with
  | nil => rfl
  | cons r l ih =>
      refine (ih (s := stageRecord env r s)).trans (foldl_publishing_congr ?_)
      rw [publishing, stageRecord, getElem?_insert_eq]

theorem staged_records (other : ¬ ∃ r ∈ l, r.name = name) :
    (staged env l s).index.records[name]? = s.index.records[name]? := by
  induction l generalizing s with
  | nil => rfl
  | cons r l ih =>
      refine (ih (s := stageRecord env r s) fun ⟨r', mem, same⟩ => other ⟨r', .tail _ mem, same⟩).trans ?_
      rw [stageRecord, getElem?_erase_eq, if_neg fun same => other ⟨r, List.mem_cons_self, same.symm⟩]

/-- Staging the records of the assets that had none leaves every asset with one. -/
theorem Tied.staged (tied : Tied env w S L good s published exempt)
    (covers : ∀ name, exempt name → ∃ r ∈ l, r.name = name) (dirty : ∀ r ∈ l, r.name ∈ s.dirtyAssets)
    (bytes : l.foldl (publishing env) published = published) :
    Tied env w S L good (staged env l s) published fun _ => False := by
  have pending : ∀ {name : String}, (∃ r ∈ l, r.name = name) →
      ∃ b, (Cavs.staged env l s).pendingRecords[name]? = some b ∧ published name = some b := by
    intro name mem
    obtain ⟨b, all⟩ := @foldl_publishing_queued env l name mem
    exact ⟨b, staged_pending.trans (all _), bytes ▸ all published⟩
  have others : ∀ {name : String}, (¬ ∃ r ∈ l, r.name = name) →
      (Cavs.staged env l s).pendingRecords[name]? = s.pendingRecords[name]? := fun other =>
    staged_pending.trans (foldl_publishing_other other)
  have records : ∀ {name : String}, (¬ ∃ r ∈ l, r.name = name) →
      (Cavs.staged env l s).index.records[name]? = s.index.records[name]? := staged_records
  have same := @staged_same env s l
  generalize Cavs.staged env l s = t at pending others records same
  have assets : t.index.assets = s.index.assets := by rw [same]
  have generation : t.index.generation = s.index.generation := by rw [same]
  have dirtyAssets : t.dirtyAssets = s.dirtyAssets := by rw [same]
  have clean : ∀ {name}, name ∉ s.dirtyAssets → ¬ ∃ r ∈ l, r.name = name := by
    rintro name clean ⟨r, mem, rfl⟩
    exact clean (dirty r mem)
  exact {
    stored := tied.stored
    named := tied.named
    mono := by rw [same]; exact tied.mono
    writable := by rw [same]; exact tied.writable
    canon := by rw [same]; exact ⟨tied.canon.chunk, tied.canon.asset⟩
    dirtyHex := by rw [same]; exact tied.dirtyHex
    layout := by rw [same]; exact tied.layout
    generation := generation ▸ tied.generation
    inStep := fun even => by
      have step := tied.inStep (even.trans generation)
      refine ⟨by rw [same]; exact step.chunks, by rw [dirtyAssets, assets]; exact step.assets, ?_, ?_, ?_,
        by rw [same]; exact step.journal⟩
      · intro name isClean
        rw [dirtyAssets] at isClean
        exact (others (clean isClean)).trans (step.staged name isClean)
      · intro name isClean listed
        rw [dirtyAssets] at isClean
        rw [assets] at listed
        exact (step.records name isClean listed).trans (records (clean isClean)).symm
      · intro name isDirty listed _ unstaged
        rw [dirtyAssets] at isDirty
        rw [assets] at listed
        by_cases queued : ∃ r ∈ l, r.name = name
        · obtain ⟨b, found, -⟩ := pending queued
          rw [found] at unstaged
          cases unstaged
        · rw [records queued]
          rw [others queued] at unstaged
          exact step.placed name isDirty listed (fun e => queued (covers name e)) unstaged
    records := fun name chunks listed _ => by
      rw [assets] at listed
      by_cases queued : ∃ r ∈ l, r.name = name
      · obtain ⟨b, found, pub⟩ := pending queued
        exact ⟨b, pub, .inl found⟩
      · rw [records queued, others queued]
        exact tied.records name chunks listed fun e => queued (covers name e) }

/-- The bytes of assets whose record is not looked at may be others. -/
theorem Tied.republish (tied : Tied env w S L good s published exempt) {published' : String → Option Bytes}
    (same : ∀ name, ¬ exempt name → published' name = published name) :
    Tied env w S L good s published' exempt := by
  refine { tied with records := fun name chunks listed free => ?_ }
  rw [same name free]
  exact tied.records name chunks listed free

/-- The record of an asset that is not listed can go. -/
theorem Tied.unlist (tied : Tied env w S L good s published fun n => exempt n ∨ n = name)
    (gone : s.index.assets[name]? = none) :
    Tied env w S L good (eraseRecords [name] s) published exempt := by
  have records : ∀ {n : String}, (s.index.assets[n]?).isSome →
      (eraseRecords [name] s).index.records[n]? = s.index.records[n]? := by
    intro n listed
    have other : n ≠ name := by
      rintro rfl
      rw [gone] at listed
      cases listed
    rw [eraseRecords, List.foldl_cons, List.foldl_nil, getElem?_erase_eq, if_neg other]
  have other : ∀ {n : String}, (s.index.assets[n]?).isSome → ¬ exempt n → ¬ (exempt n ∨ n = name) := by
    rintro n listed free (e | rfl)
    · exact free e
    · rw [gone] at listed
      cases listed
  exact {
    stored := tied.stored
    named := tied.named
    mono := tied.mono
    writable := tied.writable
    canon := ⟨tied.canon.chunk, tied.canon.asset⟩
    dirtyHex := tied.dirtyHex
    layout := tied.layout
    generation := tied.generation
    inStep := fun even => by
      have step := tied.inStep even
      refine ⟨step.chunks, step.assets, step.staged, ?_, ?_, step.journal⟩
      · intro n clean listed
        exact (step.records n clean listed).trans (records listed).symm
      · intro n dirty listed free unstaged
        rw [records listed]
        exact step.placed n dirty listed (other listed free) unstaged
    records := fun n chunks listed free => by
      have isSome : (s.index.assets[n]?).isSome := by
        have listed : s.index.assets[n]? = some chunks := listed
        rw [listed]; rfl
      rw [records isSome]
      exact tied.records n chunks listed (other isSome free) }

end Stage

section Sweep
variable {env : Env} {S L : Index} {good : Bytes} {w v : Disk} {s : GlobalStore}
  {published : String → Option Bytes} {exempt : String → Prop}

/-- Record packs that no entry of `records` points into may be gone; the ledger files
are as they were. -/
structure Swept (env : Env) (records : ExtTreeMap String RecordRef) (w v : Disk) : Prop where
  same : ∀ p, p.isLedger = true → v.get p = w.get p
  packs : ∀ (name : String) pack offset len f, records[name]? = some (.pack pack offset len) →
    w.get (.recordPack pack) = some f → v.get (.recordPack pack) = some f
  marks : v.marks = w.marks
  named : Named env w → Named env v

theorem Swept.reads {records : ExtTreeMap String RecordRef} {name : String} {ref : RecordRef} {b : Bytes}
    (h : Swept env records w v) (found : records[name]? = some ref) (reads : RefReads w good ref b) :
    RefReads v good ref b := by
  match ref, reads with
  | .pack pack offset len, ⟨f, there, slice⟩ => exact ⟨f, h.packs name pack offset len f found there, slice⟩
  | .journal .live offset len, ⟨there, slice⟩ => exact ⟨by rw [h.same .indexLog rfl]; exact there, slice⟩

theorem Swept.stored {records : ExtTreeMap String RecordRef} (h : Swept env records w v)
    (stored : Stored env w S L good) : Stored env v S L good where
  mono := (h.same .segCurrent rfl).trans stored.mono
  based := stored.based.congr (h.same .indexBin rfl) (h.same .indexBinPrev rfl)
  log := by rw [bytes_congr (h.same .indexLog rfl)]; exact stored.log
  old := by rw [bytes_congr (h.same .indexLogPrev rfl)]; exact stored.old

theorem Tied.swept (tied : Tied env w S L good s published exempt) (h : Swept env s.index.records w v) :
    Tied env v S L good s published exempt := by
  refine { tied with
    stored := h.stored tied.stored
    named := h.named tied.named
    inStep := fun even => ?_
    records := fun name chunks listed free => ?_ }
  · refine { tied.inStep even with journal := fun positive => ?_ }
    rw [h.same .indexBin rfl, bytes_congr (h.same .indexLog rfl)]
    exact (tied.inStep even).journal positive
  · obtain ⟨b, pub, staged | ⟨none, ref, found, reads⟩⟩ := tied.records name chunks listed free
    · exact ⟨b, pub, .inl staged⟩
    · exact ⟨b, pub, .inr ⟨none, ref, found, h.reads found reads⟩⟩

end Sweep

section Settled
variable {env : Env} {S L : Index} {good : Bytes} {w v : Disk} {s t : GlobalStore} {A : Ledger}
  {published : String → Option Bytes} {exempt names : String → Prop}

/-- The ledger on disk is `A`, and the next record of the handle would follow on. -/
structure Says (w : Disk) (L : Index) (good : Bytes) (A : Ledger) (s : GlobalStore) : Prop where
  canon : L.Canon
  kept : RecordsKept w L good A
  chunks : ∀ hex, L.chunks[hex]? = A.chunks hex
  assets : ∀ name, L.assets[name]? = A.assets name
  generation : L.generation = s.index.generation

/-- The ledger on disk is `A`, and the handle knows where its records are. -/
structure Settled (w : Disk) (L : Index) (good : Bytes) (A : Ledger) (s : GlobalStore) : Prop
    extends Says w L good A s where
  records : ∀ name : String, (L.assets[name]?).isSome → L.records[name]? = s.index.records[name]?

theorem Says.recovers (h : Says w L good A s) (named : Named env w) (stored : Stored env w S L good) :
    Recovers env w A := ⟨named, S, L, good, stored, h.canon, h.kept, h.chunks, h.assets⟩

theorem Says.grows (h : Says w L good A s) (g : Grows env w v) : Says v L good A s :=
  { h with kept := h.kept.grows g }

theorem Settled.grows (h : Settled w L good A s) (g : Grows env w v) : Settled v L good A s :=
  { h with kept := h.kept.grows g }

theorem Settled.edits (h : Settled w L good A s) (e : Edits names s t) : Settled w L good A t where
  canon := h.canon
  kept := h.kept
  chunks := h.chunks
  assets := h.assets
  generation := by rw [e.same]; exact h.generation
  records name listed := by rw [e.same]; exact h.records name listed

theorem Settled.swept (h : Settled w L good A s) (sweep : Swept env s.index.records w v) :
    Settled v L good A s := by
  refine { h with kept := fun name chunks listed => ?_ }
  obtain ⟨ref, b, found, pub, reads⟩ := h.kept name chunks listed
  have same := h.records name (by rw [h.assets name, listed]; rfl)
  exact ⟨ref, b, found, pub, sweep.reads (same.symm.trans found) reads⟩

/-- A handle with nothing left to save is settled. -/
theorem Tied.settled (tied : Tied env w S L good s published fun _ => False)
    (even : L.generation = s.index.generation) (recovers : Recovers env w (s.index.ledger published))
    (pending : s.pendingRecords = ∅) (assets : s.dirtyAssets = ∅) :
    Settled w L good (s.index.ledger published) s := by
  have step := tied.inStep even
  have clean : ∀ {name}, name ∉ s.dirtyAssets := by
    intro name
    rw [assets]
    exact ExtTreeSet.not_mem_empty
  obtain ⟨-, S', L', good', stored, canon, kept, chunks', assets'⟩ := recovers
  have same : L' = L := Option.some.inj (stored.recovered.symm.trans tied.stored.recovered)
  subst same
  refine ⟨⟨canon, fun name chunks listed => ?_, chunks', assets', even⟩, fun name listed => ?_⟩
  · obtain ⟨b, pub, staged | ⟨-, ref, found, reads⟩⟩ := tied.records name chunks listed not_false
    · rw [pending, ExtTreeMap.getElem?_empty] at staged
      cases staged
    · refine ⟨ref, b, ?_, pub, reads⟩
      have listed' : s.index.assets[name]? = some chunks := listed
      exact (step.records name clean (by rw [listed']; rfl)).trans found
  · rw [step.assets name clean] at listed
    exact step.records name clean listed

end Settled

section Ready
variable (env : Env)

/-- The handle is tied to its store, and the files say `A`. -/
def Held (w : Disk) (A : Ledger) (published : String → Option Bytes) (exempt : String → Prop)
    (s : GlobalStore) : Prop :=
  ∃ S L good, Tied env w S L good s published exempt ∧ Settled w L good A s

/-- A save may begin: the handle is tied to its store, and the files say `A`. -/
def Due (w : Disk) (A : Ledger) (published : String → Option Bytes) (s : GlobalStore) : Prop :=
  ∃ S L good, Tied env w S L good s published (Queued s) ∧ Says w L good A s

/-- What holds of a handle in the hands of a caller. -/
structure Ready (w : Disk) (A : Ledger) (published : String → Option Bytes) (s : GlobalStore) : Prop where
  held : Held env w A published (Queued s) s
  dirty : ∀ name, Queued s name → name ∈ s.dirtyAssets
  queued : (queue s).foldl (publishing env) published = published

variable {env} {w v : Disk} {s t : GlobalStore} {A : Ledger}
  {published : String → Option Bytes} {exempt names : String → Prop}

theorem Held.due (h : Held env w A published (Queued s) s) : Due env w A published s := by
  obtain ⟨S, L, good, tied, settled⟩ := h
  exact ⟨S, L, good, tied, settled.toSays⟩

theorem Due.grows (h : Due env w A published s) (g : Grows env w v) : Due env v A published s := by
  obtain ⟨S, L, good, tied, shown⟩ := h
  exact ⟨S, L, good, tied.grows g, shown.grows g⟩

theorem Held.unlist {name : String} (h : Held env w A published (fun n => Queued s n ∨ n = name) s)
    (gone : s.index.assets[name]? = none) : Due env w A published (eraseRecords [name] s) := by
  obtain ⟨S, L, good, tied, settled⟩ := h
  exact ⟨S, L, good, tied.unlist gone, { settled.toSays with }⟩

section Held
variable (h : Held env w A published exempt s)
include h

theorem Held.grows (g : Grows env w v) :
    Held env v A published exempt s := by
  obtain ⟨S, L, good, tied, settled⟩ := h
  exact ⟨S, L, good, tied.grows g, settled.grows g⟩

theorem Held.edits (e : Edits names s t)
    (dirty : ∀ name, names name → name ∈ t.dirtyAssets) :
    Held env w A published (fun name => exempt name ∨ names name) t := by
  obtain ⟨S, L, good, tied, settled⟩ := h
  exact ⟨S, L, good, tied.edits e dirty, settled.edits e⟩

theorem Held.chunkEdits (e : Edits (fun _ => False) s t) :
    Held env w A published exempt t := by
  obtain ⟨S, L, good, tied, settled⟩ := h
  exact ⟨S, L, good, tied.chunkEdits e, settled.edits e⟩

theorem Held.swept (sweep : Swept env s.index.records w v) :
    Held env v A published exempt s := by
  obtain ⟨S, L, good, tied, settled⟩ := h
  exact ⟨S, L, good, tied.swept sweep, settled.swept sweep⟩

theorem Held.congr (same : ∀ name, exempt name ↔ names name) : Held env w A published names s := by
  obtain ⟨S, L, good, tied, settled⟩ := h
  exact ⟨S, L, good, tied.exempt_congr same, settled⟩

theorem Held.recovers : Recovers env w A := by
  obtain ⟨S, L, good, tied, settled⟩ := h
  exact settled.toSays.recovers tied.named tied.stored

theorem Held.mono : s.seg = none := by
  obtain ⟨S, L, good, tied, -⟩ := h
  exact tied.mono

theorem Held.republish {published' : String → Option Bytes}
    (same : ∀ name, ¬ exempt name → published' name = published name) :
    Held env w A published' exempt s := by
  obtain ⟨S, L, good, tied, settled⟩ := h
  exact ⟨S, L, good, tied.republish same, settled⟩

/-- Staging the records of all assets without one makes a save due. -/
theorem Held.staged {l : List AssetRecord}
    (covers : ∀ name, exempt name → ∃ r ∈ l, r.name = name) (dirty : ∀ r ∈ l, r.name ∈ s.dirtyAssets)
    (bytes : l.foldl (publishing env) published = published) (empty : queue s = []) :
    Due env w A published (staged env l s) := by
  obtain ⟨S, L, good, tied, settled⟩ := h
  have same := @staged_same env s l
  have empty' : ∀ name, ¬ Queued (Cavs.staged env l s) name := by
    rintro name ⟨r, mem, -⟩
    rw [queue, same] at mem
    rw [queue] at empty
    dsimp only at mem
    rw [empty] at mem
    cases mem
  refine ⟨S, L, good, (tied.staged covers dirty bytes).exempt_congr fun name =>
    iff_of_false not_false (empty' name), { settled.toSays with generation := ?_ }⟩
  rw [same]
  exact settled.generation

/-- What a call sets for later calls is no matter. -/
theorem Held.settings (batch : Option (List AssetRecord))
    (size : Nat) (budget : Option Nat) : Held env w A published exempt { s with
      batch, preferredPackSize := size, journalBudget := budget } := by
  obtain ⟨S, L, good, tied, settled⟩ := h
  exact ⟨S, L, good, { tied with inStep := fun even => { tied.inStep even with } }, { settled with }⟩

end Held

theorem Edits.queue (e : Edits names s t) : queue t = queue s := by
  rw [Cavs.queue, e.same]
  rfl

theorem Ready.grows (h : Ready env w A published s) (g : Grows env w v) :
    Ready env v A published s := ⟨h.held.grows g, h.dirty, h.queued⟩

theorem Ready.chunkEdits (h : Ready env w A published s) (e : Edits (fun _ => False) s t) :
    Ready env w A published t := by
  have queued : Queued t = Queued s := by
    funext name
    rw [Queued, e.queue, ← Queued]
  refine ⟨?_, fun name mem => ?_, ?_⟩
  · rw [queued]
    exact h.held.chunkEdits e
  · rw [queued] at mem
    exact (e.assets name not_false).2.mpr (h.dirty name mem)
  · rw [e.queue]
    exact h.queued

/-- A handle with no record held back is ready when it is tied. -/
theorem Ready.of_empty (empty : queue s = [])
    (held : Held env w A published (fun _ => False) s) : Ready env w A published s := by
  have none : ∀ name, ¬ Queued s name := by
    rintro name ⟨r, mem, -⟩
    rw [empty] at mem
    cases mem
  refine ⟨held.congr fun name => iff_of_false not_false (none name), fun name mem => absurd mem (none name), ?_⟩
  rw [empty]
  rfl

end Ready

section Save
variable {env : Env} {w : Disk} {s t : GlobalStore} {A : Ledger} {published : String → Option Bytes}
  {C : Disk → Prop}

theorem SavedFrom.ledger (h : SavedFrom s t) : t.index.ledger published = s.index.ledger published := by
  rw [SavedFrom] at h
  rw [h]
  rfl

theorem SavedFrom.parts (h : SavedFrom s t) : t.index.assets = s.index.assets ∧ t.batch = s.batch := by
  rw [SavedFrom] at h
  exact ⟨by rw [h], by rw [h]⟩

/-- What a save writes fits its format: the widths of a record or a snapshot, or the room
a reader gives the table of assets. -/
structure Fits (env : Env) (k : GlobalStore) : Prop where
  mono : k.seg = none → SaveFits env k
  seg : k.seg ≠ none → (env.assetsJson k.index.assets).length ≤ 2 ^ 31

/-- Runs in which nothing fails and every save fits. -/
def fitting (env : Env) : StoreSem := storeSem env never fun k _ => Fits env k

/-- A save that is due goes well and leaves the ledger of the handle on disk; a crash in it
leaves that or what was there. -/
theorem Due.saves {Q : Except StoreError Unit → GlobalStore → Disk → Prop} (due : Due env w A published s)
    (empty : queue s = []) (old : ∀ v, Recovers env v A → C v)
    (new : ∀ v, Recovers env v (s.index.ledger published) → C v)
    (next : ∀ t v, Ready env v (s.index.ledger published) published t → SavedFrom s t → Q (.ok ()) t v) :
    (saveIndex env).Wp (fitting env) C Q s w := by
  obtain ⟨S, L, good, tied, shown⟩ := due
  have here : C w := old w (shown.recovers tied.named tied.stored)
  by_cases known : Fits env s
  swap
  · exact wp_see (wp_mark here fun fits => absurd fits known).then
  have none : ∀ name, Queued s name ↔ False := by
    rintro name
    refine iff_of_false ?_ not_false
    rintro ⟨r, mem, -⟩
    rw [empty] at mem
    cases mem
  refine saveIndex_wp here (fun _ => ⟨tied.exempt_congr none, known.mono tied.mono, fun _ => shown.generation⟩)
    (fun _ _ _ => id) (fun _ _ => id) (fun _ _ _ may => may.elim) (fun _ => id) (fun v stored carries => ?_)
    (fun v recovers _ => new v recovers) ?_ ?_
  · exact old v ⟨carries.named tied.named, S, L, good, stored, shown.canon,
      shown.kept.carries (w := { w with marks := s :: w.marks }) carries, shown.chunks, shown.assets⟩
  · intro t v S' L' good' tied' even recovers marks from_ pending chunks assets
    have ledger : t.index.ledger published = s.index.ledger published := from_.ledger
    have settled := tied'.settled even (ledger ▸ recovers) pending assets
    rw [ledger] at settled
    have queue : queue t = [] := by
      rw [Cavs.queue, from_.parts.2]
      exact empty
    exact next t v (Ready.of_empty queue ⟨S', L', good', tied', settled⟩) from_
  · rintro e t v tied' marks from_ ⟨o, u, may⟩
    exact may.elim

end Save
end Cavs
