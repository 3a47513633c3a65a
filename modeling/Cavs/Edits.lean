import Cavs.OpenSpec

/-!
# Changes of the ledger in memory

What the calls do to the ledger of a handle before they save it: chunk entries
and listed assets change, and every key that changes is dirty. Such changes leave
the handle tied to its store.
-/
namespace Cavs
open FileProg (Bytes IoError Op)
open FileProg.Eff
open Std (ExtTreeMap ExtTreeSet)

section Edits
variable {env : Env} {w : Disk} {S L : Index} {good : Bytes} {s t u : GlobalStore}
  {published : String → Option Bytes} {exempt names names' : String → Prop} {hex : String}

/-- The keys of the handle are hex. -/
structure HexKeys (s : GlobalStore) : Prop where
  canon : s.index.Canon
  dirty : ∀ hex ∈ s.dirtyChunks, IsHex hex

/-- Chunk entries changed, and assets in `names`; what changed is dirty. -/
structure Edits (names : String → Prop) (s t : GlobalStore) : Prop where
  same : t = { s with
    index := { s.index with chunks := t.index.chunks, assets := t.index.assets }
    dirtyChunks := t.dirtyChunks
    dirtyAssets := t.dirtyAssets
    openPack := t.openPack
    nextWriter := t.nextWriter }
  chunks : ∀ hex, hex ∉ t.dirtyChunks → hex ∉ s.dirtyChunks ∧
    s.index.chunks[hex]? = t.index.chunks[hex]?
  assets : ∀ name, ¬ names name → s.index.assets[name]? = t.index.assets[name]? ∧
    (name ∈ t.dirtyAssets ↔ name ∈ s.dirtyAssets)
  keys : HexKeys s → HexKeys t

theorem Edits.refl (s : GlobalStore) : Edits names s s :=
  ⟨rfl, fun _ clean => ⟨clean, rfl⟩, fun _ _ => ⟨rfl, Iff.rfl⟩, fun keys => keys⟩

theorem Edits.trans (h : Edits names s t) (h' : Edits names t u) : Edits names s u where
  same := by rw [h'.same, h.same]
  chunks hex clean := by
    obtain ⟨clean', found⟩ := h'.chunks hex clean
    exact ⟨(h.chunks hex clean').1, (h.chunks hex clean').2.trans found⟩
  assets name other := ⟨(h.assets name other).1.trans (h'.assets name other).1,
    (h'.assets name other).2.trans (h.assets name other).2⟩
  keys keys := h'.keys (h.keys keys)

theorem Edits.mono (h : Edits names s t) (sub : ∀ name, names name → names' name) :
    Edits names' s t :=
  ⟨h.same, h.chunks, fun name other => h.assets name fun listed => other (sub name listed), h.keys⟩

theorem Edits.mono_ (h : Edits names s t) (mono : s.seg = none) : t.seg = none := by
  rw [h.same]; exact mono

/-- Changes to dirty keys leave the handle tied, but for the records of the assets changed. -/
theorem Tied.edits (tied : Tied env w S L good s published exempt) (h : Edits names s t)
    (dirty : ∀ name, names name → name ∈ t.dirtyAssets) :
    Tied env w S L good t published fun name => exempt name ∨ names name := by
  have keys := h.keys ⟨tied.canon, tied.dirtyHex⟩
  have records : t.index.records = s.index.records := by rw [h.same]
  have pending : t.pendingRecords = s.pendingRecords := by rw [h.same]
  have generation : t.index.generation = s.index.generation := by rw [h.same]
  have kept : ∀ name, name ∉ t.dirtyAssets → name ∉ s.dirtyAssets ∧
      s.index.assets[name]? = t.index.assets[name]? := by
    intro name clean
    have other : ¬ names name := fun listed => clean (dirty name listed)
    exact ⟨fun mem => clean ((h.assets name other).2.mpr mem), (h.assets name other).1⟩
  exact {
    stored := tied.stored
    named := tied.named
    mono := h.mono_ tied.mono
    writable := by rw [h.same]; exact tied.writable
    canon := keys.canon
    dirtyHex := keys.dirty
    layout := by rw [h.same]; exact tied.layout
    generation := generation ▸ tied.generation
    inStep := fun same => by
      have step := tied.inStep (generation ▸ same)
      refine ⟨fun hex clean => ?_, fun name clean => ?_, fun name clean => ?_,
        fun name clean listed => ?_, fun name mem listed free unstaged => ?_, ?_⟩
      · obtain ⟨clean', found⟩ := h.chunks hex clean
        exact (step.chunks hex clean').trans found
      · exact (step.assets name (kept name clean).1).trans (kept name clean).2
      · rw [pending]
        exact step.staged name (kept name clean).1
      · rw [← (kept name clean).2] at listed
        rw [records]
        exact step.records name (kept name clean).1 listed
      · rw [not_or] at free
        rw [pending] at unstaged
        rw [records]
        rw [← (h.assets name free.2).1] at listed
        exact step.placed name ((h.assets name free.2).2.mp mem) listed free.1 unstaged
      · rw [h.same]
        exact step.journal
    records := fun name chunks listed free => by
      rw [not_or] at free
      rw [← (h.assets name free.2).1] at listed
      rw [pending, records]
      exact tied.records name chunks listed free.1 }

theorem Tied.exempt_congr (tied : Tied env w S L good s published exempt)
    (same : ∀ name, exempt name ↔ names name) : Tied env w S L good s published names := by
  have : exempt = names := funext fun name => propext (same name)
  exact this ▸ tied

/-- Chunk changes alone leave the handle tied as it was. -/
theorem Tied.chunkEdits (tied : Tied env w S L good s published exempt)
    (h : Edits (fun _ => False) s t) : Tied env w S L good t published exempt :=
  (tied.edits h fun _ => False.elim).exempt_congr fun _ => by simp

theorem HexKeys.of_get (keys : HexKeys s) {info : ChunkInfo} (found : s.index.chunks[hex]? = some info) :
    IsHex hex ∧ info.Placed := keys.canon.chunk hex info found

/-- One entry of the chunk table changes and its key becomes dirty. -/
theorem Edits.chunk (table : ChunkTable) (other : ∀ k, k ≠ hex → table[k]? = s.index.chunks[k]?)
    (fine : HexKeys s → IsHex hex ∧ ∀ info, table[hex]? = some info → info.Placed) :
    Edits (fun _ => False) s { s with
      dirtyChunks := s.dirtyChunks.insert hex, index := { s.index with chunks := table } } where
  same := rfl
  chunks k clean := by
    rw [ExtTreeSet.mem_insert, not_or, Std.LawfulEqCmp.compare_eq_iff_eq] at clean
    exact ⟨clean.2, (other k fun same => clean.1 same.symm).symm⟩
  assets _ _ := ⟨rfl, Iff.rfl⟩
  keys keys := by
    obtain ⟨isHex, placed⟩ := fine keys
    refine ⟨⟨fun k info found => ?_, keys.canon.asset⟩, fun k mem => ?_⟩
    · by_cases same : k = hex
      · subst same
        exact ⟨isHex, placed info found⟩
      · exact keys.canon.chunk k info ((other k same).symm.trans found)
    · rw [ExtTreeSet.mem_insert, Std.LawfulEqCmp.compare_eq_iff_eq] at mem
      rcases mem with rfl | mem
      · exact isHex
      · exact keys.dirty k mem

theorem chunkInsert_edits (mono : s.seg = none) {info : ChunkInfo} (isHex : IsHex hex)
    (placed : info.Placed) : Edits (fun _ => False) s (s.chunkInsert hex info) := by
  rw [GlobalStore.chunkInsert]
  split
  · rename_i seg
    rw [mono] at seg
    cases seg
  refine Edits.chunk _ (fun k other => ?_) fun _ => ⟨isHex, fun info' found => ?_⟩
  · rw [getElem?_insert_eq, if_neg other]
  · rw [getElem?_insert_eq, if_pos rfl, Option.some.injEq] at found
    exact found ▸ placed

theorem chunkRemove_edits (mono : s.seg = none) :
    Edits (fun _ => False) s (s.chunkRemove hex).2 := by
  rw [GlobalStore.chunkRemove]
  split
  · rename_i seg
    rw [mono] at seg
    cases seg
  split
  · rename_i old found
    refine Edits.chunk _ (fun k other => ?_) fun keys => ⟨(keys.of_get found).1, fun info there => ?_⟩
    · rw [getElem?_erase_eq, if_neg other]
    · rw [getElem?_erase_eq, if_pos rfl] at there
      cases there
  · exact Edits.refl s

theorem chunkUpdate_edits (mono : s.seg = none) {f : ChunkInfo → ChunkInfo}
    (placed : ∀ info, info.Placed → (f info).Placed) :
    Edits (fun _ => False) s (s.chunkUpdate hex f) := by
  rw [GlobalStore.chunkUpdate]
  split
  · rename_i seg
    rw [mono] at seg
    cases seg
  split
  · rename_i old found
    refine Edits.chunk _ (fun k other => ?_) fun keys => ⟨(keys.of_get found).1, fun info there => ?_⟩
    · rw [getElem?_insert_eq, if_neg other]
    · rw [getElem?_insert_eq, if_pos rfl, Option.some.injEq] at there
      exact there ▸ placed _ (keys.of_get found).2
  · exact Edits.refl s

theorem placeAt_placed {pack : String} {offset : Nat} {info : ChunkInfo} :
    (placeAt pack offset info).Placed := rfl

theorem foldl_edits {β : Type} {f : GlobalStore → β → GlobalStore} {l : List β} (mono : s.seg = none)
    (step : ∀ b ∈ l, ∀ s : GlobalStore, s.seg = none → Edits names s (f s b)) :
    Edits names s (l.foldl f s) := by
  induction l generalizing s with
  | nil => exact Edits.refl s
  | cons b l ih =>
      have first := step b List.mem_cons_self s mono
      exact first.trans (ih (first.mono_ mono) fun b hb => step b (List.mem_cons_of_mem _ hb))

theorem resolveEntry_edits {pack : String} (e : PackEntry) (mono : s.seg = none) :
    Edits (fun _ => False) s (resolveEntry pack s e) := by
  simp only [resolveEntry]
  split
  · exact chunkUpdate_edits mono fun _ _ => placeAt_placed
  · exact chunkInsert_edits mono (isHex_toHex _) rfl

end Edits
end Cavs
