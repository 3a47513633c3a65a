import Cavs.SaveJournal
import Cavs.SaveSnapshot

/-!
# What a save does

One save of a handle tied to its store: a crash inside it leaves files that say
the ledger before it or the ledger of the handle, a finished save leaves the
latter, and a failed one leaves the former with the handle still tied to it.
-/
namespace Cavs
open FileProg (Bytes IoError Op)
open FileProg.Eff
open Std (ExtTreeMap ExtTreeSet)

/-- The handle at the point where a save decides what to write. -/
def staging (env : Env) (s : GlobalStore) : GlobalStore :=
  if 0 < s.snapshotBytes then packedAway env s else s

/-- Whether the next save appends a record; otherwise it writes a snapshot. -/
def appends (env : Env) (s : GlobalStore) : Prop :=
  0 < s.snapshotBytes ∧
    s.journalBytes + (nextRecord env (staging env s)).length ≤ s.currentJournalBudget

/-- What the next save writes fits the widths of its format. -/
structure SaveFits (env : Env) (s : GlobalStore) : Prop where
  generation : s.index.generation + 1 < 2 ^ 64
  staged : stagedBytes s < 2 ^ 32
  record : appends env s → (staging env s).delta.Fits (staging env s).index
    (staging env s).pendingRecords
  moved : ¬ appends env s → stagedBytes (staging env s) < 2 ^ 32
  snapshot : ¬ appends env s →
    ({ (staging env s).index with generation := (staging env s).index.generation + 1 }).Fits

/-- The handle with its dirty sets taken. -/
def taken (s : GlobalStore) : GlobalStore := { s with dirtyChunks := ∅, dirtyAssets := ∅ }

section Handle
variable {env : Env} {S L : Index} {good : Bytes} {v w : Disk} {s t : GlobalStore}
  {published : String → Option Bytes}

theorem packedAway_taken :
    packedAway env (taken s) = taken (packedAway env s) := by
  by_cases large : pendingBytes s > inlineRecordsMax
  · have large' : pendingBytes (taken s) > inlineRecordsMax := large
    rw [packedAway, if_pos large', packedAway, if_pos large]
    rfl
  · have small' : ¬ pendingBytes (taken s) > inlineRecordsMax := large
    rw [packedAway, if_neg small', packedAway, if_neg large]

theorem packedAway_dirty : (packedAway env s).dirtyChunks = s.dirtyChunks ∧
    (packedAway env s).dirtyAssets = s.dirtyAssets := by
  rw [packedAway]
  split <;> exact ⟨rfl, rfl⟩

theorem packedAway_numbers : (packedAway env s).journalBytes = s.journalBytes ∧
    (packedAway env s).currentJournalBudget = s.currentJournalBudget ∧
    (packedAway env s).snapshotBytes = s.snapshotBytes ∧
    (packedAway env s).index.generation = s.index.generation := by
  rw [packedAway]
  split <;> exact ⟨rfl, rfl, rfl, rfl⟩

theorem packedAway_pending (h : s.pendingRecords = ∅) : (packedAway env s).pendingRecords = ∅ := by
  rw [packedAway]
  split
  · rfl
  · exact h

theorem packedAway_index : (packedAway env s).index.chunks = s.index.chunks ∧
    (packedAway env s).index.assets = s.index.assets := by
  rw [packedAway]
  split <;> exact ⟨rfl, rfl⟩

/-- What moved does not depend on the dirty sets. -/
theorem Packed.of_taken {v : Disk} {t : GlobalStore} (h : Packed v (taken s) (taken t))
    (dirty : t.dirtyChunks = s.dirtyChunks ∧ t.dirtyAssets = s.dirtyAssets) : Packed v s t where
  same := by
    have same := congrArg (fun u : GlobalStore =>
      { u with dirtyChunks := t.dirtyChunks, dirtyAssets := t.dirtyAssets }) h.same
    refine same.trans ?_
    rw [dirty.1, dirty.2]
    rfl
  staged := h.staged
  kept := h.kept
  small := h.small

theorem packedAway_savedFrom : SavedFrom s (packedAway env s) := by
  rw [packedAway]
  split <;> rfl

section Tied
variable (tied : Tied env w S L good s published fun _ => False)
include tied

/-- A large publish put away leaves the handle tied. -/
theorem Tied.packedAway (g : Grows env w v)
    (away : inlineRecordsMax < pendingBytes s → Packed v s (packedAway env s) ∧
      ∀ name : String, s.pendingRecords[name]? = none →
        (packedAway env s).index.records[name]? = s.index.records[name]?) :
    Tied env v S L good (packedAway env s) published fun _ => False := by
  by_cases large : inlineRecordsMax < pendingBytes s
  swap
  · rw [Cavs.packedAway, if_neg large]
    exact tied.grows g
  · obtain ⟨packed, rest⟩ := away large
    generalize Cavs.packedAway env s = t at packed rest
    have unstaged : t.pendingRecords = ∅ := by rw [packed.same]
    exact {
      stored := tied.stored.grows g
      named := g.named tied.named
      mono := by rw [packed.same]; exact tied.mono
      writable := by rw [packed.same]; exact tied.writable
      canon := packed.canon tied.canon
      dirtyHex := by rw [packed.same]; exact tied.dirtyHex
      layout := packed.layout ▸ tied.layout
      generation := packed.generation ▸ tied.generation
      inStep := fun same => by
        rw [packed.generation] at same
        have step := tied.inStep same
        have dirtyChunks : t.dirtyChunks = s.dirtyChunks := by rw [packed.same]
        have dirtyAssets : t.dirtyAssets = s.dirtyAssets := by rw [packed.same]
        refine ⟨?_, ?_, ?_, ?_, ?_, ?_⟩
        · rw [dirtyChunks, packed.chunks]; exact step.chunks
        · rw [dirtyAssets, packed.assets]; exact step.assets
        · intro name _
          rw [unstaged]; exact ExtTreeMap.getElem?_empty
        · intro name clean listed
          rw [dirtyAssets] at clean
          rw [packed.assets] at listed
          exact (step.records name clean listed).trans (rest name (step.staged name clean)).symm
        · intro name dirty listed free _
          rw [dirtyAssets] at dirty
          rw [packed.assets] at listed
          cases staged : s.pendingRecords[name]? with
          | none =>
              obtain ⟨pack, offset, len, found⟩ := step.placed name dirty listed free staged
              exact ⟨pack, offset, len, (rest name staged).trans found⟩
          | some b =>
              obtain ⟨pack, offset, len, _, found, -⟩ := packed.staged name b staged
              exact ⟨pack, offset, len, found⟩
        · rw [packed.same]
          intro positive
          have := (step.grows g).journal positive
          exact this
      records := fun name chunks listed _ => by
        rw [packed.assets] at listed
        obtain ⟨b, pub, place⟩ := tied.records name chunks listed not_false
        refine ⟨b, pub, .inr ⟨by rw [unstaged]; exact ExtTreeMap.getElem?_empty, ?_⟩⟩
        obtain staged | ⟨none, ref, found, reads⟩ := place
        · obtain ⟨ref, found, -, reads⟩ := (packed.staged name b staged).reads good
          exact ⟨ref, found, reads⟩
        · exact ⟨ref, (rest name none).trans found, reads.grows g⟩ }

/-- A handle about to write a snapshot: one generation on, its dirty sets taken. -/
theorem Tied.advance :
    Tied env w S L good { taken s with index := { s.index with generation := s.index.generation + 1 } }
      published fun _ => False where
  stored := tied.stored
  named := tied.named
  mono := tied.mono
  writable := tied.writable
  canon := ⟨tied.canon.chunk, tied.canon.asset⟩
  dirtyHex _ mem := absurd mem ExtTreeSet.not_mem_empty
  layout := tied.layout
  generation := Nat.le_succ_of_le tied.generation
  inStep same := absurd same (Nat.ne_of_lt (Nat.lt_succ_of_le tied.generation))
  records := tied.records

/-- The journal made or cut back to what it held leaves the handle tied. -/
theorem Tied.logAt (log : w.bytes .indexLog = good) (at_ : LogAt w v good) :
    Tied env v S L good s published fun _ => False where
  stored := tied.stored.logAt at_ (by have := tied.stored.log; rwa [log] at this)
  named := tied.named.logAt at_
  mono := tied.mono
  writable := tied.writable
  canon := tied.canon
  dirtyHex := tied.dirtyHex
  layout := tied.layout
  generation := tied.generation
  inStep same := by
    have step := tied.inStep same
    refine ⟨step.chunks, step.assets, step.staged, step.records, step.placed, fun positive => ?_⟩
    rw [at_.rest _ (by simp), at_.bytes]
    exact ⟨(step.journal positive).1, rfl, (step.journal positive).2.2⟩
  records name chunks listed free := by
    obtain ⟨b, pub, staged | ⟨none, ref, found, reads⟩⟩ := tied.records name chunks listed free
    · exact ⟨b, pub, .inl staged⟩
    · have there : (v.get .indexLog).isSome := by
        obtain ⟨t, found⟩ := at_.log
        rw [found]; rfl
      have reads' := @RefReads.append _ _ _ _ _ [] reads (fun pack => at_.rest _ (by simp)) there
      rw [List.append_nil] at reads'
      exact ⟨b, pub, .inr ⟨none, ref, found, reads'⟩⟩

end Tied

theorem LogAt.carries {b : Bytes} (at_ : LogAt w v b) : Carries env w v where
  packs pack f found := (at_.rest _ (by simp)).trans found
  log _ := by
    obtain ⟨t, found⟩ := at_.log
    rw [found]; rfl
  marks := at_.marks
  named := fun named => named.logAt at_

/-- The handle a successful append leaves, told without its dirty sets. -/
theorem journalSaved_eq {t : GlobalStore} (chunks : t.dirtyChunks = ∅) (assets : t.dirtyAssets = ∅)
    (dirtyChunks dirtyAssets : ExtTreeSet String) :
    journalSaved (t.index.generation + 1)
        (nextRecord env { t with dirtyChunks, dirtyAssets }).length
        (encodeJournalRecord env t.index (t.index.generation + 1) dirtyChunks dirtyAssets
          t.pendingRecords).2 t =
      appended env { t with dirtyChunks, dirtyAssets } := by
  obtain ⟨⟩ := t
  dsimp only at chunks assets
  subst chunks assets
  rfl

end Handle

section Save
variable {env : Env} {mayFail : Op Path GlobalStore → Disk → Prop}
  {holds : GlobalStore → Disk → Prop} {C : Disk → Prop} {S L : Index} {good : Bytes} {w : Disk}
  {s : GlobalStore} {published : String → Option Bytes} {Q : Except StoreError Unit → GlobalStore → Disk → Prop}

theorem appended_savedFrom (s : GlobalStore) : SavedFrom s (appended env s) := by
  unfold SavedFrom appended journalSaved
  rfl

section Monolithic
variable (tied : Tied env w S L good s published fun _ => False)
  (packs : s.pendingRecords ≠ ∅ → ∀ o u, mayFail o u → writesPack o → u.marks ≠ w.marks)
  (rotates : ∀ u, ¬ mayFail (.rename .indexLog .indexLogPrev) u)
  (old : ∀ v', Stored env v' S L good → Carries env w v' → C v')
  (new : ∀ v', Recovers env v' (s.index.ledger published) → v'.marks = w.marks → C v')
  (next : ∀ t v' S' L' good', Tied env v' S' L' good' t published (fun _ => False) →
    L'.generation = t.index.generation → Recovers env v' (s.index.ledger published) →
    v'.marks = w.marks → SavedFrom s t → t.pendingRecords = ∅ → t.dirtyChunks = ∅ →
    t.dirtyAssets = ∅ → Q (.ok ()) t v')
  (broken : ∀ e t v', Tied env v' S L good t published (fun _ => False) → v'.marks = w.marks →
    SavedFrom s t → (∃ o u, mayFail o u) → Q (.error e) t v')
include tied packs rotates old new next broken

/-- The snapshot a save writes when it appends nothing. -/
theorem snapshotSave_wp (small : stagedBytes s < 2 ^ 32)
    (fits : ({ s.index with generation := s.index.generation + 1 }).Fits)
    (sound : ∀ file, ¬ mayFail (.read (journalPath file)) w) :
    (snapshotSave env (s.index.generation + 1)).Wp (storeSem env mayFail holds) C Q (taken s) w := by
  refine wp_set (writeSnapshot_wp tied.advance (Nat.lt_succ_of_le tied.generation) small fits sound packs
    rotates old new ?_ ?_)
  · intro t v' tied' recovers marks from_ unstaged chunks assets
    exact next t v' _ _ _ tied' rfl recovers marks (from_.trans rfl) unstaged chunks assets
  · intro e t v' tied' marks from_ why
    exact broken e t v' tied' marks (from_.trans rfl) why

/-- A save on the monolithic ledger, from the point where its mark was passed. -/
theorem saveMonolithic_wp (fits : SaveFits env s) (follows : appends env s → L.generation = s.index.generation)
    (sound : ∀ file u, u.marks = w.marks → ¬ mayFail (.read (journalPath file)) u)
    (cuts : ∀ n u, ¬ mayFail (.setLen .indexLog n) u) :
    (saveMonolithic env).Wp (storeSem env mayFail holds) C Q s w := by
  have here : C w := old w tied.stored (Grows.refl w).carries
  refine wp_see (wp_set (wp_ite (fun positive => ?_) fun empty => ?_))
  · -- Large records go into a pack first.
    refine Wp.seq (R := fun r t v => match r with
      | .ok () => t = taken (packedAway env s) ∧ Grows env w v ∧
          Tied env v S L good (packedAway env s) published fun _ => False
      | .error e => Q (.error e) t v) ?_ ?_ fun _ _ _ h => h
    · refine packLargeRecords_wp (s := taken s) tied.named fits.staged
        (fun v grows => old v (tied.stored.grows grows) grows.carries) ?_ ?_
      · intro v grows away
        rw [packedAway_taken] at away
        refine ⟨packedAway_taken, grows, tied.packedAway grows fun large => ?_⟩
        exact ⟨(away large).1.of_taken packedAway_dirty, (away large).2⟩
      · rintro e v grows staged ⟨o, u, may, writes, marks⟩
        exact absurd marks (packs staged o u may writes)
    · rintro ⟨⟩ _ v c ⟨rfl, grows, tied₁⟩
      have away : staging env s = packedAway env s := if_pos positive
      have ledger : (packedAway env s).index.ledger published = s.index.ledger published := by
        simp only [Index.ledger, packedAway_index]
      obtain ⟨journalBytes, budget, snapshotBytes, generation⟩ := @packedAway_numbers env s
      have whole : ({ taken (packedAway env s) with
          dirtyChunks := s.dirtyChunks, dirtyAssets := s.dirtyAssets } : GlobalStore) =
          packedAway env s := by
        rw [← packedAway_dirty.1, ← packedAway_dirty.2]
        rfl
      have record : (encodeJournalRecord env (packedAway env s).index (s.index.generation + 1)
          s.dirtyChunks s.dirtyAssets (packedAway env s).pendingRecords).1 =
          nextRecord env (packedAway env s) := by
        rw [encodeJournalRecord_fst, nextRecord, GlobalStore.delta, generation, packedAway_dirty.1,
          packedAway_dirty.2]
      have from_ : ∀ {t}, SavedFrom (packedAway env s) t → SavedFrom s t := by
        intro t h
        rw [SavedFrom, h, @packedAway_savedFrom env s]
      refine wp_see (wp_ite (fun fit => ?_) fun beyond => ?_)
      · have append : appends env s := by
          refine ⟨positive, ?_⟩
          rw [away, ← record, ← journalBytes, ← budget]
          exact fit
        have same : L.generation = (packedAway env s).index.generation :=
          (follows append).trans generation.symm
        have fits' := fits.record append
        rw [away] at fits'
        have positive' : 0 < (packedAway env s).snapshotBytes := snapshotBytes ▸ positive
        have width : (packedAway env s).index.generation + 1 < 2 ^ 64 := generation ▸ fits.generation
        obtain ⟨-, log, length⟩ := (tied₁.inStep same).journal positive'
        have marks := grows.marks
        have stays : ∀ {v'}, LogAt v v' good → C v' := fun at_ =>
          old _ (tied₁.logAt log at_).stored (grows.carries.trans at_.carries)
        refine Wp.then ((wp_attempt ..).mpr (appendJournal_wp log length cuts c ?_ ?_ ?_))
        · intro n v' at_
          replace at_ : LogAt v v' (good ++ (nextRecord env (packedAway env s)).take n) := record ▸ at_
          by_cases torn : n < (nextRecord env (packedAway env s)).length
          · refine old v' (tied₁.stored.logAt at_ ⟨⟨_, rfl, ?_⟩, tied₁.stored.log.replays⟩)
              (grows.carries.trans at_.carries)
            exact nextJournalRecord_torn fits'.body torn
          · rw [List.take_of_length_le (by omega)] at at_
            exact new v' (ledger ▸ tied₁.appended_recovers same positive' fits' width at_)
              (at_.marks.trans grows.marks)
        · intro v' at_
          replace at_ : LogAt v v' (good ++ nextRecord env (packedAway env s)) := record ▸ at_
          have tied' := tied₁.appended same positive' fits' width at_
          have recovers := tied₁.appended_recovers same positive' fits' width at_
          have result : journalSaved (s.index.generation + 1) (nextRecord env (packedAway env s)).length
              (encodeJournalRecord env (packedAway env s).index (s.index.generation + 1) s.dirtyChunks
                s.dirtyAssets (packedAway env s).pendingRecords).2 (taken (packedAway env s)) =
              appended env (packedAway env s) := by
            rw [← generation, ← whole]
            exact journalSaved_eq (t := taken (packedAway env s)) rfl rfl ..
          have marked : v'.marks = w.marks := at_.marks.trans grows.marks
          refine ⟨new v' (ledger ▸ recovers) marked, ?_⟩
          change Q (.ok ()) (journalSaved (s.index.generation + 1) (encodeJournalRecord env
            (packedAway env s).index (s.index.generation + 1) s.dirtyChunks s.dirtyAssets
            (packedAway env s).pendingRecords).1.length (encodeJournalRecord env (packedAway env s).index
            (s.index.generation + 1) s.dirtyChunks s.dirtyAssets (packedAway env s).pendingRecords).2
            (taken (packedAway env s))) v'
          rw [record, result]
          exact next _ v' _ _ _ tied' rfl (ledger ▸ recovers) marked (from_ (appended_savedFrom _)) rfl rfl rfl
        · intro e v' at_ why
          have failed : ∃ o u, mayFail o u := by
            obtain ⟨o, u, ⟨may, -⟩ | ⟨may, -⟩⟩ := why <;> exact ⟨o, u, may⟩
          have after : Tied env v' S L good (packedAway env s) published (fun _ => False) ∧
              v'.marks = w.marks ∧ C v' := by
            rcases at_ with rfl | at_
            · exact ⟨tied₁, grows.marks, c⟩
            · exact ⟨tied₁.logAt log at_, at_.marks.trans grows.marks, stays at_⟩
          refine ⟨after.2.2, ?_⟩
          change Q (.error e) { taken (packedAway env s) with
            dirtyChunks := s.dirtyChunks, dirtyAssets := s.dirtyAssets } v'
          rw [whole]
          exact broken e _ v' after.1 after.2.1 packedAway_savedFrom failed
      · have snapshot : ¬ appends env s := by
          rintro ⟨-, fit⟩
          rw [away, ← record, ← journalBytes, ← budget] at fit
          exact beyond fit
        have moved := fits.moved snapshot
        have fits' := fits.snapshot snapshot
        rw [away] at moved fits'
        rw [← generation]
        refine snapshotSave_wp tied₁ ?_ rotates ?_ ?_ ?_ ?_ moved fits' fun file => sound file v grows.marks
        · intro staged o u may writes
          rw [grows.marks]
          exact packs (fun none => staged (packedAway_pending none)) o u may writes
        · exact fun v' stored carries => old v' stored (grows.carries.trans carries)
        · exact fun v' recovers marks => new v' (ledger ▸ recovers) (marks.trans grows.marks)
        · exact fun t v' S' L' good' tied' same recovers marks saved => next t v' S' L' good' tied' same
            (ledger ▸ recovers) (marks.trans grows.marks) (from_ saved)
        · exact fun e t v' tied' marks saved => broken e t v' tied' (marks.trans grows.marks) (from_ saved)
  · have stays : staging env s = s := if_neg empty
    have snapshot : ¬ appends env s := fun h => empty h.1
    have moved := fits.moved snapshot
    have fits' := fits.snapshot snapshot
    rw [stays] at moved fits'
    exact snapshotSave_wp tied packs rotates old new next broken moved fits' fun file => sound file w rfl

end Monolithic

/-- A save of a handle that is tied to its store and fits. A run that gets past the
mark knows what holds there. -/
theorem saveIndex_wp (here : C w)
    (enter : holds s w → Tied env w S L good s published (fun _ => False) ∧ SaveFits env s ∧
      (appends env s → L.generation = s.index.generation))
    (sound : ∀ file u, u.marks = s :: w.marks → ¬ mayFail (.read (journalPath file)) u)
    (cuts : ∀ n u, ¬ mayFail (.setLen .indexLog n) u)
    (packs : s.pendingRecords ≠ ∅ → ∀ o u, mayFail o u → writesPack o → u.marks ≠ s :: w.marks)
    (rotates : ∀ u, ¬ mayFail (.rename .indexLog .indexLogPrev) u)
    (old : ∀ v', Stored env v' S L good → Carries env { w with marks := s :: w.marks } v' → C v')
    (new : ∀ v', Recovers env v' (s.index.ledger published) → v'.marks = s :: w.marks → C v')
    (next : ∀ t v' S' L' good', Tied env v' S' L' good' t published (fun _ => False) →
      L'.generation = t.index.generation → Recovers env v' (s.index.ledger published) →
      v'.marks = s :: w.marks → SavedFrom s t → t.pendingRecords = ∅ → t.dirtyChunks = ∅ →
      t.dirtyAssets = ∅ → Q (.ok ()) t v')
    (broken : ∀ e t v', Tied env v' S L good t published (fun _ => False) → v'.marks = s :: w.marks →
      SavedFrom s t → (∃ o u, mayFail o u) → Q (.error e) t v') :
    (saveIndex env).Wp (storeSem env mayFail holds) C Q s w := by
  refine wp_see (wp_mark here fun known => ?_).then
  obtain ⟨tied, fits, follows⟩ := enter known
  have marked : Tied env { w with marks := s :: w.marks } S L good s published fun _ => False :=
    ⟨⟨tied.stored.mono, tied.stored.based.congr rfl rfl, tied.stored.log, tied.stored.old⟩, tied.named,
      tied.mono, tied.writable, tied.canon, tied.dirtyHex, tied.layout, tied.generation,
      fun same => ⟨(tied.inStep same).chunks, (tied.inStep same).assets, (tied.inStep same).staged,
        (tied.inStep same).records, (tied.inStep same).placed, (tied.inStep same).journal⟩, tied.records⟩
  refine ⟨old _ marked.stored (Grows.refl _).carries, wp_ite (fun readOnly => ?_) fun _ => ?_⟩
  · rw [tied.writable] at readOnly
    cases readOnly
  · rw [tied.mono]
    exact saveMonolithic_wp marked packs rotates old new next broken fits follows sound cuts

end Save
end Cavs
