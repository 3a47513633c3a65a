import Cavs.SaveParts

/-!
# A save by snapshot

The rewrite of the whole ledger: every tree it goes through reads as the ledger
before it until the new file takes its place, and as the one it wrote from then
on, whether or not the journal was put away yet.
-/
namespace Cavs
open FileProg (Bytes File IoError Op bytes_congr bytes_of_absent bytes_of_get get_del_ne get_move_ne
  get_move_self get_move_source get_put_self)
open FileProg.Eff
open Std (ExtTreeMap ExtTreeSet)

section Files
variable {env : Env} {S L : Index} {good : Bytes} {u v w : Disk} {f : File}

/-- No record pack is gone, nor is the live journal. -/
structure Carries (env : Env) (w v : Disk) : Prop where
  packs : ∀ pack f, w.get (.recordPack pack) = some f → v.get (.recordPack pack) = some f
  log : (w.get .indexLog).isSome → (v.get .indexLog).isSome
  marks : v.marks = w.marks
  named : Named env w → Named env v

theorem Grows.carries (h : Grows env w v) : Carries env w v :=
  ⟨h.packs, fun there => by rw [h.same .indexLog rfl]; exact there, h.marks, h.named⟩

theorem Carries.trans (h : Carries env u v) (h' : Carries env v w) : Carries env u w :=
  ⟨fun pack f hf => h'.packs pack f (h.packs pack f hf), fun there => h'.log (h.log there),
    h'.marks.trans h.marks, fun n => h'.named (h.named n)⟩

theorem RefReads.carries {ref : RecordRef} {b : Bytes} (h : RefReads w good ref b)
    (g : Carries env w v) : RefReads v good ref b := by
  match ref, h with
  | .pack pack offset len, ⟨f, found, slice⟩ => exact ⟨f, g.packs pack f found, slice⟩
  | .journal .live offset len, ⟨there, slice⟩ => exact ⟨g.log there, slice⟩

theorem RecordsKept.carries {A : Ledger} (h : RecordsKept w L good A) (g : Carries env w v) :
    RecordsKept v L good A := by
  intro name chunks listed
  obtain ⟨ref, b, found, published, reads⟩ := h name chunks listed
  exact ⟨ref, b, found, published, reads.carries g⟩

/-- A move between two files neither of which is a record pack. -/
theorem named_move {p q : Path} (named : Named env w) (hp : ∀ pack, .recordPack pack ≠ p)
    (hq : ∀ pack, .recordPack pack ≠ q) : Named env (w.move p q f) := by
  intro pack f' found
  rw [get_move_ne (hq pack) (hp pack)] at found
  exact named pack f' found

/-- The first rename: the live snapshot becomes the one before. -/
theorem Stored.retire (h : Stored env w S L good) (found : w.get .indexBin = some f) :
    Stored env (w.move .indexBin .indexBinPrev f) S L good ∧
      Carries env w (w.move .indexBin .indexBinPrev f) := by
  have other : ∀ p, p ≠ .indexBin → p ≠ .indexBinPrev →
      (w.move .indexBin .indexBinPrev f).get p = w.get p := fun p h h' => get_move_ne h' h ..
  refine ⟨⟨(other _ (by simp) (by simp)).trans h.mono, ?_, ?_, ?_⟩,
    ⟨fun pack f' hf => (other _ (by simp) (by simp)).trans hf, fun there => by
      rw [other _ (by simp) (by simp)]; exact there, rfl, fun named => named_move named (by simp) (by simp)⟩⟩
  · cases h.based with
    | live found' reads =>
        rw [found] at found'
        cases found'
        exact .prev (get_move_source (by simp) ..) (get_move_self ..) reads
    | prev absent => rw [found] at absent; cases absent
  · rw [bytes_congr (other .indexLog (by simp) (by simp))]
    exact h.log
  · rw [bytes_congr (other .indexLogPrev (by simp) (by simp))]
    exact h.old

/-- The second rename: the new snapshot is the ledger, and the journal is stale. -/
theorem Stored.replace {S' : Index} (h : Stored env w S L good)
    (reads : decodeIndexVersioned env f.bytes = .ok (S', 2)) (newer : L.generation ≤ S'.generation) :
    Stored env (w.move .indexBinTmp .indexBin f) S' S' good := by
  have other : ∀ p, p ≠ .indexBinTmp → p ≠ .indexBin →
      (w.move .indexBinTmp .indexBin f).get p = w.get p := fun p h h' => get_move_ne h' h ..
  refine ⟨(other _ (by simp) (by simp)).trans h.mono, .live (get_move_self ..) reads, ?_, ?_⟩
  · rw [bytes_congr (other .indexLog (by simp) (by simp))]
    exact h.log.stale newer
  · rw [bytes_congr (other .indexLogPrev (by simp) (by simp))]
    exact h.old.mono (h.log.generation_le.trans newer)

/-- The third rename: the journal is put away. -/
theorem Stored.rotate (h : Stored env w S S good) (found : w.get .indexLog = some f) :
    Stored env (w.move .indexLog .indexLogPrev f) S S [] := by
  have other : ∀ p, p ≠ .indexLog → p ≠ .indexLogPrev →
      (w.move .indexLog .indexLogPrev f).get p = w.get p := fun p h h' => get_move_ne h' h ..
  refine ⟨(other _ (by simp) (by simp)).trans h.mono,
    h.based.congr (other _ (by simp) (by simp)) (other _ (by simp) (by simp)), ?_, ?_⟩
  · rw [bytes_of_absent (get_move_source (by simp) ..)]
    exact Logged.empty
  · rw [bytes_of_get (get_move_self ..), ← bytes_of_get found]
    exact ⟨.live, good, S, S, h.log, le_refl _⟩

/-- Without a journal the one before it goes. -/
theorem Stored.unlog (h : Stored env w S S good) (absent : w.get .indexLog = none) :
    Stored env w S S [] := by
  refine ⟨h.mono, h.based, ?_, h.old⟩
  rw [bytes_of_absent absent]
  exact Logged.empty

theorem Stored.forget (h : Stored env w S L good) : Stored env (w.del .indexLogPrev) S L good := by
  have other : ∀ p, p ≠ .indexLogPrev → (w.del .indexLogPrev).get p = w.get p :=
    fun p h => get_del_ne h _
  refine ⟨(other _ (by simp)).trans h.mono, h.based.congr (other _ (by simp)) (other _ (by simp)), ?_, ?_⟩
  · rw [bytes_congr (other .indexLog (by simp))]
    exact h.log
  · rw [bytes_of_absent (FileProg.get_del_self ..)]
    exact Skipped.nil

end Files

section Handle
variable {env : Env} {S L : Index} {good : Bytes} {v w : Disk} {s t : GlobalStore}
  {published : String → Option Bytes}

/-- Every asset of the handle has its record in a pack. -/
def AllPacked (v : Disk) (t : GlobalStore) (published : String → Option Bytes) : Prop :=
  ∀ name chunks, t.index.assets[name]? = some chunks → ∃ b, published name = some b ∧
    InPack v t.index.records name b

theorem InPack.reads {records : ExtTreeMap String RecordRef} {name : String} {b : Bytes}
    (h : InPack v records name b) (good : Bytes) : ∃ ref, records[name]? = some ref ∧
      packedRef records[name]? = some ref ∧ RefReads v good ref b := by
  obtain ⟨pack, offset, len, f, found, there, slice⟩ := h
  exact ⟨_, found, by rw [found]; rfl, f, there, slice⟩

theorem InPack.carries {records : ExtTreeMap String RecordRef} {name : String} {b : Bytes}
    (h : InPack v records name b) (g : ∀ pack f, v.get (.recordPack pack) = some f →
      w.get (.recordPack pack) = some f) : InPack w records name b := by
  obtain ⟨pack, offset, len, f, found, there, slice⟩ := h
  exact ⟨pack, offset, len, f, found, g pack f there, slice⟩

section Packed
variable (h : Packed v s t)
include h

theorem Packed.assets : t.index.assets = s.index.assets := by rw [h.same]

theorem Packed.chunks : t.index.chunks = s.index.chunks := by rw [h.same]

theorem Packed.generation : t.index.generation = s.index.generation := by rw [h.same]

theorem Packed.layout : t.index.layout = s.index.layout := by rw [h.same]

theorem Packed.canon (canon : s.index.Canon) : t.index.Canon :=
  ⟨h.chunks ▸ canon.chunk, h.assets ▸ canon.asset⟩

theorem Packed.fits (fits : s.index.Fits) : t.index.Fits where
  packs := by simp only [Index.packs, h.chunks]; exact fits.packs
  chunks := h.chunks ▸ fits.chunks
  assets := h.assets ▸ fits.assets
  chunk := h.chunks ▸ fits.chunk
  asset := h.assets ▸ fits.asset
  record name pack offset len found :=
    (h.small name pack offset len found).elim (fits.record name pack offset len) fun small => small
  generation := h.generation ▸ fits.generation

end Packed

theorem Packed.allPacked (tied : Tied env w S L good s published fun _ => False) (g : Grows env w v)
    (h : Packed v s t) (moved : ∀ (name : String) ref b, s.pendingRecords[name]? = none →
      s.index.records[name]? = some ref → isInline ref = true → readBack w ref = some b →
      InPack v t.index.records name b) : AllPacked v t published := by
  intro name chunks listed
  rw [h.assets] at listed
  obtain ⟨b, pub, staged | ⟨unstaged, ref, found, reads⟩⟩ := tied.records name chunks listed not_false
  · exact ⟨b, pub, h.staged name b staged⟩
  · refine ⟨b, pub, ?_⟩
    match ref, found, reads with
    | .pack pack offset len, found, ⟨f, there, slice⟩ =>
        exact ⟨pack, offset, len, f, h.kept name pack offset len unstaged found, g.packs pack f there,
          slice⟩
    | .journal file offset len, found, reads =>
        exact moved name _ b unstaged found rfl (reads.readBack tied.stored.log)

/-- A handle that lags: its generation is past the one on disk, and its records are packed. -/
theorem Tied.lag (tied : Tied env w S L good s published fun _ => False)
    (newer : L.generation < s.index.generation) {u : Disk} (h : Packed u s t) (packed : AllPacked v t published)
    (stored : Stored env v S L good) (named : Named env v) :
    Tied env v S L good t published fun _ => False where
  stored := stored
  named := named
  mono := by rw [h.same]; exact tied.mono
  writable := by rw [h.same]; exact tied.writable
  canon := h.canon tied.canon
  dirtyHex := by rw [h.same]; exact tied.dirtyHex
  layout := h.layout ▸ tied.layout
  generation := by rw [h.generation]; omega
  inStep same := by rw [h.generation] at same; omega
  records name chunks listed _ := by
    obtain ⟨b, pub, inPack⟩ := packed name chunks listed
    obtain ⟨ref, found, -, reads⟩ := inPack.reads good
    refine ⟨b, pub, .inr ⟨?_, ref, found, reads⟩⟩
    rw [h.same]
    exact ExtTreeMap.getElem?_empty

/-- What a failed record pack leaves, when no record was staged for it. -/
theorem Tied.cleared (tied : Tied env w S L good s published fun _ => False)
    (newer : L.generation < s.index.generation) (g : Grows env w v) (unstaged : s.pendingRecords = ∅) :
    Tied env v S L good (cleared w s) published fun _ => False where
  stored := tied.stored.grows g
  named := g.named tied.named
  mono := tied.mono
  writable := tied.writable
  canon := ⟨tied.canon.chunk, tied.canon.asset⟩
  dirtyHex := tied.dirtyHex
  layout := tied.layout
  generation := tied.generation
  inStep same := absurd same (Nat.ne_of_lt newer)
  records name chunks listed _ := by
    obtain ⟨b, pub, staged | ⟨none, ref, found, reads⟩⟩ := tied.records name chunks listed not_false
    · rw [unstaged, ExtTreeMap.getElem?_empty] at staged
      cases staged
    · refine ⟨b, pub, .inr ⟨ExtTreeMap.getElem?_empty, ref, cleared_records s found fun _ => ?_,
        reads.grows g⟩⟩
      rw [reads.readBack tied.stored.log]
      rfl

/-- After the rewrite an open yields the ledger of the handle, journal or no journal. -/
theorem Stored.snapshot_recovers (stored : Stored env v t.index.snapshot t.index.snapshot good)
    (named : Named env v) (packed : AllPacked v t published) (canon : t.index.Canon) :
    Recovers env v (t.index.ledger published) := by
  refine ⟨named, _, _, good, stored, ⟨canon.chunk, canon.asset⟩, ?_, fun _ => rfl, fun _ => rfl⟩
  intro name chunks listed
  obtain ⟨b, pub, inPack⟩ := packed name chunks listed
  obtain ⟨ref, -, found, reads⟩ := inPack.reads good
  refine ⟨ref, b, ?_, pub, reads⟩
  have there : (t.index.assets[name]?).isSome := Option.isSome_iff_exists.mpr ⟨chunks, listed⟩
  rw [snapshot_records, if_pos there, found]

/-- The handle after a rewrite. -/
def rewritten (t : GlobalStore) (size : Nat) : GlobalStore :=
  { t with snapshotBytes := size, journalBytes := 0 }

theorem Tied.rewritten {size : Nat} (tied : Tied env w S L good t published fun _ => False)
    (unstaged : t.pendingRecords = ∅) (packed : AllPacked v t published)
    (stored : Stored env v t.index.snapshot t.index.snapshot []) (named : Named env v)
    (bin : (v.get .indexBin).isSome) (log : v.bytes .indexLog = []) :
    Tied env v t.index.snapshot t.index.snapshot [] (rewritten t size) published fun _ => False where
  stored := stored
  named := named
  mono := tied.mono
  writable := tied.writable
  canon := ⟨tied.canon.chunk, tied.canon.asset⟩
  dirtyHex := tied.dirtyHex
  layout := rfl
  generation := le_refl _
  inStep _ := {
    chunks := fun _ _ => rfl
    assets := fun _ _ => rfl
    staged := fun name _ => by
      simp only [Cavs.rewritten, unstaged, ExtTreeMap.getElem?_empty]
    records := fun name _ listed => by
      obtain ⟨chunks, found⟩ := Option.isSome_iff_exists.mp listed
      obtain ⟨b, -, inPack⟩ := packed name chunks found
      obtain ⟨ref, here, there, -⟩ := inPack.reads []
      exact (snapshot_records name).trans ((if_pos listed).trans (there.trans here.symm))
    placed := fun name _ listed _ _ => by
      obtain ⟨chunks, found⟩ := Option.isSome_iff_exists.mp listed
      obtain ⟨b, -, pack, offset, len, f, there, -⟩ := packed name chunks found
      exact ⟨pack, offset, len, there⟩
    journal := fun _ => ⟨bin, log, rfl⟩ }
  records name chunks listed _ := by
    obtain ⟨b, pub, inPack⟩ := packed name chunks listed
    obtain ⟨ref, found, -, reads⟩ := inPack.reads []
    refine ⟨b, pub, .inr ⟨?_, ref, found, reads⟩⟩
    simp only [Cavs.rewritten, unstaged, ExtTreeMap.getElem?_empty]

end Handle

section Rewrite
variable {env : Env} {mayFail : Op Path GlobalStore → Disk → Prop}
  {holds : GlobalStore → Disk → Prop} {C : Disk → Prop} {S L : Index} {good : Bytes} {w : Disk}
  {s : GlobalStore} {published : String → Option Bytes} {t : GlobalStore} {v : Disk}

/-- A save changes only these parts of a handle. -/
def SavedFrom (s t : GlobalStore) : Prop :=
  t = { s with
    pendingRecords := t.pendingRecords
    index := { s.index with records := t.index.records, generation := t.index.generation }
    dirtyChunks := t.dirtyChunks
    dirtyAssets := t.dirtyAssets
    journalBytes := t.journalBytes
    snapshotBytes := t.snapshotBytes }

theorem Packed.savedFrom (h : Packed v s t) : SavedFrom s t := by
  rw [SavedFrom, h.same]

/-- The new snapshot is staged and nothing is replaced yet. -/
structure Staged (env : Env) (w : Disk) (S L : Index) (good : Bytes) (t : GlobalStore)
    (published : String → Option Bytes) (f : File) (v : Disk) : Prop where
  stored : Stored env v S L good
  carries : Carries env w v
  named : Named env v
  packed : AllPacked v t published
  tmp : v.get .indexBinTmp = some f

/-- The new snapshot is in place. -/
structure Replaced (env : Env) (w : Disk) (good : Bytes) (t : GlobalStore)
    (published : String → Option Bytes) (v : Disk) : Prop where
  stored : Stored env v t.index.snapshot t.index.snapshot good
  named : Named env v
  packed : AllPacked v t published
  bin : (v.get .indexBin).isSome
  marks : v.marks = w.marks

theorem AllPacked.mono {v v' : Disk} (h : AllPacked v t published)
    (g : ∀ pack f, v.get (.recordPack pack) = some f → v'.get (.recordPack pack) = some f) :
    AllPacked v' t published := by
  intro name chunks listed
  obtain ⟨b, pub, inPack⟩ := h name chunks listed
  exact ⟨b, pub, inPack.carries g⟩

theorem Staged.retire {f g : File} (h : Staged env w S L good t published f v) (found : v.get .indexBin = some g) :
    Staged env w S L good t published f (v.move .indexBin .indexBinPrev g) := by
  obtain ⟨stored, carries⟩ := h.stored.retire found
  exact ⟨stored, h.carries.trans carries, carries.named h.named, h.packed.mono carries.packs,
    (get_move_ne (by simp) (by simp) ..).trans h.tmp⟩

theorem Staged.replace {f : File} (h : Staged env w S L good t published f v)
    (reads : decodeIndexVersioned env f.bytes = .ok (t.index.snapshot, 2))
    (newer : L.generation ≤ t.index.generation) :
    Replaced env w good t published (v.move .indexBinTmp .indexBin f) where
  stored := h.stored.replace reads newer
  named := named_move h.named (by simp) (by simp)
  packed := h.packed.mono fun pack f hf => (get_move_ne (by simp) (by simp) ..).trans hf
  bin := by rw [get_move_self]; rfl
  marks := h.carries.marks

section Replaced
variable (h : Replaced env w good t published v)
include h

theorem Replaced.rotate {f : File} (found : v.get .indexLog = some f) :
    Replaced env w [] t published (v.move .indexLog .indexLogPrev f) where
  stored := h.stored.rotate found
  named := named_move h.named (by simp) (by simp)
  packed := h.packed.mono fun pack f hf => (get_move_ne (by simp) (by simp) ..).trans hf
  bin := by rw [get_move_ne (by simp) (by simp)]; exact h.bin
  marks := h.marks

theorem Replaced.forget :
    Replaced env w good t published (v.del .indexLogPrev) where
  stored := h.stored.forget
  named pack f found := h.named pack f ((get_del_ne (by simp) _).symm.trans found)
  packed := h.packed.mono fun pack f hf => (get_del_ne (by simp) _).trans hf
  bin := by rw [get_del_ne (by simp)]; exact h.bin
  marks := h.marks

theorem Replaced.grows {v' : Disk} (g : Grows env v v') : Replaced env w good t published v' where
  stored := h.stored.grows g
  named := g.named h.named
  packed := h.packed.mono g.packs
  bin := by rw [g.same .indexBin rfl]; exact h.bin
  marks := g.marks.trans h.marks

end Replaced

/-- The renames at the end of a rewrite, from a staged copy of the ledger on. -/
theorem replaceSnapshot_wp {f : File} {size : Nat} {Q : Except StoreError Unit → GlobalStore → Disk → Prop}
    (staged : Staged env w S L good t published f v)
    (reads : decodeIndexVersioned env f.bytes = .ok (t.index.snapshot, 2))
    (newer : L.generation ≤ t.index.generation) (canon : t.index.Canon)
    (rotates : ∀ u, ¬ mayFail (.rename .indexLog .indexLogPrev) u)
    (old : ∀ v', Stored env v' S L good → Carries env w v' → C v')
    (new : ∀ v', Recovers env v' (t.index.ledger published) → v'.marks = w.marks → C v')
    (next : ∀ v', Replaced env w [] t published v' → v'.bytes .indexLog = [] →
      Q (.ok ()) (rewritten t size) v')
    (broken : ∀ e v', Staged env w S L good t published f v' → (∃ o u, mayFail o u) →
      Q (.error e) t v') :
    (do
      let known ← op (.present .indexBin)
      (if known then do orThrow .io (← op (.rename .indexBin .indexBinPrev)) else pure ())
      orThrow .io (← op (.rename .indexBinTmp .indexBin))
      let journal ← op (.present .indexLog)
      (if journal then do orThrow .io (← op (.rename .indexLog .indexLogPrev)) else do
        let _ ← op (.remove .indexLogPrev))
      let _ ← op (.remove .indexJson)
      modify fun s => { s with snapshotBytes := size, journalBytes := 0 } :
        M GlobalStore Unit).Wp (storeSem env mayFail holds) C Q t v := by
  have before : ∀ {v'}, Staged env w S L good t published f v' → C v' := fun h =>
    old _ h.stored h.carries
  have after : ∀ {v' good'}, Replaced env w good' t published v' → C v' := fun h =>
    new _ (h.stored.snapshot_recovers h.named h.packed canon) h.marks
  refine (wp_present (before staged) ?_).then
  -- The outgoing snapshot is kept as the one before, when there is one.
  refine Wp.seq (R := fun r t' v' => t = t' ∧ Staged env w S L good t published f v' ∧
    match r with
      | .ok () => True
      | .error _ => ∃ o u, mayFail o u) (wp_ite (fun there => ?_) fun _ => ?_) ?_ ?_
  · refine (wp_rename rfl (before staged) (fun g found => ?_) (fun absent => ?_) fun may => ?_).then
    · have retired := staged.retire found
      exact ⟨before retired, before retired, rfl, retired, trivial⟩
    · rw [absent] at there
      cases there
    · exact ⟨before staged, rfl, staged, _, _, may⟩
  · exact ⟨before staged, rfl, staged, trivial⟩
  · rintro ⟨⟩ _ v₂ c₂ ⟨rfl, staged₂, -⟩
    refine (wp_rename rfl c₂ (fun g found => ?_) (fun absent => ?_) fun may => ?_).then
    · rw [staged₂.tmp, Option.some.injEq] at found
      subst found
      have replaced := staged₂.replace reads newer
      refine ⟨after replaced, wp_good (wp_present (after replaced) ?_).then⟩
      -- The journal is put away; what is left of the one before goes with it.
      refine Wp.seq (R := fun r t' v' => t = t' ∧ Replaced env w [] t published v' ∧
        v'.bytes .indexLog = [] ∧ ∃ a, r = .ok a) (wp_ite (fun there => ?_) fun missing => ?_) ?_ ?_
      · refine (wp_rename rfl (after replaced) (fun g found => ?_) (fun absent => ?_)
          fun may => (rotates _ may).elim).then
        · have rotated := replaced.rotate found
          exact ⟨after rotated, after rotated, rfl, rotated,
            bytes_of_absent (get_move_source (by simp) ..), _, rfl⟩
        · rw [absent] at there
          cases there
      · have absent : (v₂.move .indexBinTmp .indexBin f).get .indexLog = none :=
          Option.not_isSome_iff_eq_none.mp missing
        have unlogged : Replaced env w [] t published (v₂.move .indexBinTmp .indexBin f) :=
          ⟨replaced.stored.unlog absent, replaced.named, replaced.packed, replaced.bin, replaced.marks⟩
        have empty := bytes_of_absent absent
        refine (wp_remove (after unlogged) (fun _ => ?_) (fun _ => ?_) fun _ => ?_).then
        · refine ⟨after unlogged.forget, after unlogged.forget, rfl, unlogged.forget, ?_, _, rfl⟩
          exact (bytes_congr (get_del_ne (by simp) _)).trans empty
        · exact ⟨after unlogged, rfl, unlogged, empty, _, rfl⟩
        · exact ⟨after unlogged, rfl, unlogged, empty, _, rfl⟩
      · rintro ⟨⟩ _ v₄ c₄ ⟨rfl, replaced₄, empty, -⟩
        refine (wp_remove c₄ (fun _ => ?_) (fun _ => ⟨c₄, next v₄ replaced₄ empty⟩)
          fun _ => ⟨c₄, next v₄ replaced₄ empty⟩).then
        have gone : Grows env v₄ (v₄.del .indexJson) := Grows.del rfl _
        exact ⟨after (replaced₄.grows gone), after (replaced₄.grows gone),
          next _ (replaced₄.grows gone) ((bytes_congr (gone.same _ rfl)).trans empty)⟩
      · rintro e _ _ ⟨-, -, -, a, same⟩
        cases same
    · rw [staged₂.tmp] at absent
      cases absent
    · exact wp_bad c₂ (broken _ _ staged₂ ⟨_, _, may⟩)
  · rintro e _ v₂ ⟨rfl, staged₂, why⟩
    exact broken _ _ staged₂ why

theorem AllPacked.grows {v v' : Disk} (h : AllPacked v t published)
    (g : Grows env v v') : AllPacked v' t published := h.mono g.packs

/-- A rewrite from a handle past the ledger on disk. It ends with the handle's ledger
as the snapshot, or breaks off with the old ledger in place and every record kept. -/
theorem writeSnapshot_wp {Q : Except StoreError Unit → GlobalStore → Disk → Prop}
    (tied : Tied env w S L good s published fun _ => False) (newer : L.generation < s.index.generation)
    (small : stagedBytes s < 2 ^ 32) (fits : s.index.Fits)
    (sound : ∀ file, ¬ mayFail (.read (journalPath file)) w)
    (packs : s.pendingRecords ≠ ∅ → ∀ o u, mayFail o u → writesPack o → u.marks ≠ w.marks)
    (rotates : ∀ u, ¬ mayFail (.rename .indexLog .indexLogPrev) u)
    (old : ∀ v', Stored env v' S L good → Carries env w v' → C v')
    (new : ∀ v', Recovers env v' (s.index.ledger published) → v'.marks = w.marks → C v')
    (next : ∀ t v', Tied env v' t.index.snapshot t.index.snapshot [] t published (fun _ => False) →
      Recovers env v' (s.index.ledger published) → v'.marks = w.marks → SavedFrom s t →
      t.pendingRecords = ∅ → t.dirtyChunks = s.dirtyChunks → t.dirtyAssets = s.dirtyAssets →
      Q (.ok ()) t v')
    (broken : ∀ e t v', Tied env v' S L good t published (fun _ => False) → v'.marks = w.marks →
      SavedFrom s t → (∃ o u, mayFail o u) → Q (.error e) t v') :
    (writeSnapshot env).Wp (storeSem env mayFail holds) C Q s w := by
  refine Wp.seq (R := fun r t v => match r with
    | .ok () => Grows env w v ∧ Packed v s t ∧ AllPacked v t published
    | .error e => Q (.error e) t v) ?_ ?_ fun _ _ _ h => h
  · refine moveRecordsIntoAPack_wp tied.named small
      (fun v grows => old v (tied.stored.grows grows) grows.carries) sound ?_ ?_
    · exact fun t v grows packed moved => ⟨grows, packed, packed.allPacked tied grows moved⟩
    · rintro e v grows ⟨o, u, may, writes, marks⟩
      have unstaged : s.pendingRecords = ∅ := by
        by_contra staged
        exact packs staged o u may writes marks
      exact broken e _ v (tied.cleared newer grows unstaged) grows.marks rfl ⟨o, u, may⟩
  · rintro ⟨⟩ t v c ⟨grows, packed, all⟩
    have canon := packed.canon tied.canon
    have same : s.index.ledger published = t.index.ledger published := by
      simp only [Index.ledger, packed.chunks, packed.assets]
    have stored := tied.stored.grows grows
    have named := grows.named tied.named
    have lag : ∀ {v'}, Grows env v v' → Tied env v' S L good t published fun _ => False := fun g =>
      tied.lag newer packed (all.grows g) (stored.grows g) (g.named named)
    have holds_ : ∀ {v'}, Grows env v v' → C v' := fun g =>
      old _ (stored.grows g) (grows.trans g).carries
    have stop : ∀ {e v' o u}, Grows env v v' → mayFail o u → Q (.error e) t v' := fun g may =>
      broken _ t _ (lag g) (g.marks.trans grows.marks) packed.savedFrom ⟨_, _, may⟩
    refine wp_see (wp_nowEpoch c fun now => ?_).then
    set bytes := encodeIndex env t.index now
    have reads : decodeIndexVersioned env bytes = .ok (t.index.snapshot, 2) :=
      decodeIndexVersioned_encodeIndex (packed.fits fits) canon now
    have put : ∀ b time, Grows env v (v.put .indexBinTmp b time) := fun b time => Grows.put rfl ..
    refine (wp_write rfl c (fun n time => holds_ (put ..)) (fun time => ?_) fun may v' hv => ?_).then
    · set v₁ := v.put .indexBinTmp bytes time
      have g₁ : Grows env v v₁ := put bytes time
      refine wp_good (wp_sync (holds_ g₁) ?_ fun may => ?_).then
      · refine wp_good (wp_read (holds_ g₁) (fun f found => ?_) (fun absent => ?_) fun may => ?_).then
        · have whole : f = ⟨bytes, time⟩ :=
            Option.some.inj (found.symm.trans (get_put_self ..))
          have sealed : indexSealHolds env f.bytes = true := by
            rw [whole]
            exact indexSealHolds_encodeIndex now
          refine wp_good (wp_ite (fun _ => ?_) fun unsealed => absurd sealed unsealed).then
          have staged : Staged env w S L good t published f v₁ :=
            ⟨stored.grows g₁, (grows.trans g₁).carries, g₁.named named, all.grows g₁, found⟩
          refine ⟨holds_ g₁, @replaceSnapshot_wp _ _ _ _ _ _ _ _ _ _ _ _ bytes.length _ staged (by rw [whole]; exact reads)
            (by rw [packed.generation]; omega) canon rotates old (same ▸ new) (fun v' replaced empty => ?_)
            fun e v' staged why => ?_⟩
          · have unstaged : t.pendingRecords = ∅ := by rw [packed.same]
            refine next _ v' ((lag g₁).rewritten unstaged replaced.packed replaced.stored replaced.named
              replaced.bin empty) ?_ replaced.marks ?_ unstaged ?_ ?_
            · exact same ▸ replaced.stored.snapshot_recovers replaced.named replaced.packed canon
            · rw [SavedFrom, rewritten, packed.same]
            · rw [rewritten, packed.same]
            · rw [rewritten, packed.same]
          · exact broken e t v' (tied.lag newer packed staged.packed staged.stored staged.named)
              staged.carries.marks packed.savedFrom why
        · exact absurd (absent.symm.trans (get_put_self ..)) (by simp)
        · exact wp_bad (holds_ g₁) (stop g₁ may)
      · exact wp_bad (holds_ g₁) (stop g₁ may)
    · have g₁ : Grows env v v' := by
        rcases hv with rfl | ⟨n, time, rfl⟩
        · exact .refl _
        · exact put ..
      exact wp_bad (holds_ g₁) (stop g₁ may)

end Rewrite

end Cavs
