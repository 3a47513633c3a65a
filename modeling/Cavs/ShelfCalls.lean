import Cavs.Shelf

/-!
# The shelf of a monolithic ledger

While nothing fails, and nothing is saved while a batch holds records back, every call on a
handle to a monolithic ledger does to the shelf what it is for, and a crash in it leaves what
was saved before the call or what is saved after it.
-/
namespace Cavs
open FileProg (Bytes IoError Op get_del_ne get_put_self)
open FileProg.Eff
open Std (ExtTreeMap ExtTreeSet)
open Shelf (bytes_put now_of_held)

section Stands
variable (env : Env)

/-- The ledger lists the assets of `f`, with its records. -/
structure Ledger.Lists (A : Ledger) (f : String → Option AssetRecord) : Prop where
  published : A.published = Shelf.bytes env f
  assets : ∀ name, (A.assets name).isSome = (f name).isSome

/-- An open of these files finds the records of `f`. -/
def OnDisk (w : Disk) (f : String → Option AssetRecord) : Prop := ∃ A, Recovers env w A ∧ A.Lists env f

/-- The files and the handle of a monolithic ledger that stands for `t`. -/
structure OnLedger (w : Disk) (s : GlobalStore) (t : Shelf) : Prop where
  ready : ∃ A, Ready env w A (Shelf.bytes env t.now) s ∧ A.Lists env t.saved
  batch : s.batch = t.batch
  has : ∀ name, (s.index.assets[name]?).isSome = (t.now name).isSome

/-- A crash in a call leaves the shelf saved before it, or the one saved after it. -/
def CutIn (t : Shelf) (call : Call) (v : Disk) : Prop :=
  OnDisk env v t.saved ∨ OnDisk env v (t.after call (.ok ())).saved

end Stands

section Saves
variable {env : Env} {A : Ledger} {w v : Disk} {s s' : GlobalStore} {t : Shelf} {α : Type} {σ : StoreSem}
  {sure : Prop} {C : Disk → Prop} {f : String → Option AssetRecord} {m : M GlobalStore α}

theorem OnDisk.grows (h : OnDisk env w f) (g : Grows env w v) : OnDisk env v f := by
  obtain ⟨A, recovers, lists⟩ := h
  exact ⟨A, recovers.grows g, lists⟩

theorem OnLedger.onDisk (h : OnLedger env w s t) : OnDisk env w t.saved := by
  obtain ⟨A, ready, lists⟩ := h.ready
  exact ⟨A, ready.held.recovers, lists⟩

theorem OnLedger.mono (h : OnLedger env w s t) : s.seg = none := by
  obtain ⟨A, ready, -⟩ := h.ready
  exact ready.held.mono

/-- A save that is due leaves what is published on the shelf. -/
theorem Due.shelves {Q : Except StoreError Unit → GlobalStore → Disk → Prop}
    (due : Due env w A (Shelf.bytes env t.now) s) (lists : A.Lists env f) (batch : s.batch = t.batch)
    (empty : t.held = []) (has : ∀ name, (s.index.assets[name]?).isSome = (t.now name).isSome)
    (old : ∀ v, OnDisk env v f → C v) (new : ∀ v, OnDisk env v t.now → C v)
    (next : ∀ s' v, OnLedger env v s' ⟨t.now, t.batch⟩ → Q (.ok ()) s' v) :
    (saveIndex env).Wp (fitting env) C Q s w := by
  have queue : queue s = [] := by
    rw [Cavs.queue, batch]
    exact empty
  have saved : (⟨t.now, t.batch⟩ : Shelf).now = t.now := now_of_held empty
  have lists' : (s.index.ledger (Shelf.bytes env t.now)).Lists env t.now := ⟨rfl, has⟩
  refine due.saves queue (fun v recovers => old v ⟨A, recovers, lists⟩)
    (fun v recovers => new v ⟨_, recovers, lists'⟩) fun s' v ready from_ => ?_
  obtain ⟨assets, batch'⟩ := from_.parts
  refine next s' v ⟨⟨_, ?_, lists'⟩, batch'.trans batch, fun name => ?_⟩
  · rw [saved]
    exact ready
  · rw [saved, assets]
    exact has name

/-- Packs and chunk entries are no matter. -/
theorem OnLedger.beside (h : OnLedger env w s t) (grows : Grows env w v) (edits : Edits (fun _ => False) s s') :
    OnLedger env v s' t where
  ready := by
    obtain ⟨A, ready, lists⟩ := h.ready
    exact ⟨A, (ready.grows grows).chunkEdits edits, lists⟩
  batch := by
    rw [edits.same]
    exact h.batch
  has name := by
    rw [← (edits.assets name not_false).1]
    exact h.has name

/-- A method that only concerns packs and chunks. -/
theorem OnLedger.quiet (h : OnLedger env w s t) (quiet : Quiet env σ sure s m)
    {Q : Except StoreError α → GlobalStore → Disk → Prop} (old : ∀ v, OnDisk env v t.saved → C v)
    (next : ∀ r s' v, OnLedger env v s' t → (sure → ∃ a, r = .ok a) → Q r s' v) : m.Wp σ C Q s w :=
  quiet h.mono w C Q (fun v grows => old v (h.onDisk.grows grows)) fun r s' v grows edits ok =>
    next r s' v (h.beside grows edits) ok

/-- The same, of a part of a call. -/
theorem OnLedger.part {call : Call} (h : OnLedger env w s t) (quiet : Quiet env σ sure s m) :
    m.Wp σ (CutIn env t call) (fun _ s' v => OnLedger env v s' t) s w :=
  h.quiet quiet (fun _ => .inl) fun _ _ _ h _ => h

theorem Quiet.always (quiet : Quiet env σ False s m)
    (ok : ∀ w, m.Wp σ (fun _ => True) (fun r _ _ => ∃ a, r = .ok a) s w) : Quiet env σ True s m := by
  intro mono w C Q crash next
  have alone := quiet mono w C (fun _ s' v => Grows env w v ∧ Edits (fun _ => False) s s') crash
    fun _ _ _ grows edits _ => ⟨grows, edits⟩
  refine (FileProg.Prog.Wp.and alone (ok w)).mono (fun v both => both.1) ?_
  rintro ⟨r, s'⟩ v ⟨⟨grows, edits⟩, ended⟩
  exact next r s' v grows edits fun _ => ended

end Saves

section Packs
variable {env : Env} {s : GlobalStore} {holds : GlobalStore → Disk → Prop} {σ : StoreSem}

theorem writePackIndex_ok (pack : ChunkHash) (entries : List PackEntry) (w : Disk) :
    (writePackIndex env pack entries : M GlobalStore Unit).Wp (storeSem env never holds) (fun _ => True)
      (fun r _ _ => r = .ok ()) s w := by
  refine (wp_write rfl trivial (fun _ _ => trivial) (fun t => ?_) fun may => False.elim may).then
  refine wp_good (wp_rename rfl trivial (fun f _ => ⟨trivial, ?_⟩) (fun absent => ?_) fun may => False.elim may).then
  · exact ⟨trivial, rfl⟩
  · rw [get_put_self] at absent
    cases absent

/-- When nothing fails, a pack can always be closed. -/
theorem packFinish_ok (writer : PackWriter) (w : Disk) :
    (writer.finish env : M GlobalStore _).Wp (storeSem env never holds) (fun _ => True)
      (fun r _ _ => ∃ a, r = .ok a) s w := by
  refine (wp_append rfl trivial (fun _ _ => trivial) (fun t => ?_) fun may => False.elim may).then
  refine wp_good (wp_sync trivial ?_ fun may => False.elim may).then
  refine wp_good (wp_read trivial (fun f found => ?_) (fun absent => ?_) fun may => False.elim may).then
  swap
  · rw [get_put_self] at absent
    cases absent
  refine wp_good (wp_digest trivial fun _ => ⟨trivial, ?_⟩).then
  refine (wp_rename rfl trivial (fun f' _ => ⟨trivial, ?_⟩) (fun absent => ?_) fun may => False.elim may).then
  · refine wp_good ((writePackIndex_ok _ _ _).mono (fun _ => id) ?_).then
    rintro r t v rfl
    exact ⟨trivial, _, rfl⟩
  · have there := get_put_self w (.packPart writer.part) (w.bytes (.packPart writer.part) ++
      packFooter env writer.hashed) t
    exact absurd (there.symm.trans absent) (Option.some_ne_none _)

theorem flushPacks_sure : Quiet env (fitting env) True s (flushPacks env) := by
  refine flushPacks_quiet.always fun w => wp_see ?_
  cases s.openPack with
  | none => exact ⟨trivial, (), rfl⟩
  | some writer =>
      refine wp_set (wp_ite (fun _ => ?_) fun _ => ?_)
      · refine (wp_remove trivial (fun _ => ⟨trivial, ?_⟩) (fun _ => ?_) fun _ => ?_).then
        all_goals exact ⟨trivial, (), rfl⟩
      · refine ((packFinish_ok writer w).mono (fun _ => id) ?_).then
        rintro r t v ⟨a, rfl⟩
        exact ⟨trivial, (), rfl⟩

theorem putChunk_quiet (hash : ChunkHash) (stored : Bytes) (flags lenRaw : UInt32) :
    Quiet env σ False s (putChunk env hash stored flags lenRaw) := by
  have placed : (freshInfo stored flags lenRaw).Placed := rfl
  have fresh : ∀ (writer : Option PackWriter) (t : GlobalStore), t.seg = none → Edits (fun _ => False) t
      ({ t with openPack := writer }.chunkInsert (toHex hash) (freshInfo stored flags lenRaw)) := by
    intro writer t mono
    have mono' : ({ t with openPack := writer } : GlobalStore).seg = none := mono
    exact (openPack_edits writer).trans (chunkInsert_edits mono' (isHex_toHex hash) placed)
  refine .see (.ite (fun _ => .pure _) fun _ => ?_)
  cases s.index.layout with
  | loose =>
      refine (Quiet.op (free_write rfl)).bind fun _ _ _ => (Quiet.orThrow _).bind fun _ _ _ =>
        (Quiet.op (free_rename rfl rfl)).bind fun _ _ _ => (Quiet.orThrow _).bind fun _ _ _ => ?_
      exact (Quiet.modify fun mono => chunkInsert_edits mono (isHex_toHex hash) placed).bind fun _ _ _ => Quiet.pure _
  | packfiles =>
      refine Quiet.bind ?_ fun a _ _ => (Quiet.modify fun _ => openPack_edits _).bind fun _ _ _ => ?_
      · cases s.openPack with
        | some writer => exact .pure writer
        | none =>
            refine Quiet.see ((Quiet.modify fun _ => ⟨rfl, fun _ clean => ⟨clean, rfl⟩, fun _ _ => ⟨rfl, Iff.rfl⟩,
              fun keys => ⟨keys.canon, keys.dirty⟩⟩).bind fun _ _ _ => ?_)
            exact (Quiet.op (free_write rfl)).bind fun _ _ _ => (Quiet.orThrow _).bind fun _ _ _ => Quiet.pure _
      refine Quiet.bind ((Quiet.op (free_append rfl)).bind fun _ _ _ => (Quiet.orThrow _).bind fun _ _ _ =>
        Quiet.pure _) fun b _ _ => (Quiet.modify fun mono => fresh _ _ mono).bind fun _ _ _ => ?_
      exact (Quiet.ite (fun _ => flushPacks_quiet) fun _ => Quiet.pure ()).bind fun _ _ _ => Quiet.pure _

end Packs

section Table
variable {s : GlobalStore} {name : String} {chunks : List String}

theorem removeAsset_edits : Edits (fun n => n = name) s (removeAsset name s) where
  same := rfl
  chunks _ clean := ⟨clean, rfl⟩
  assets n other := ⟨by rw [removeAsset, getElem?_erase_eq, if_neg other], Iff.rfl⟩
  keys keys := by
    refine ⟨⟨keys.canon.chunk, fun n l listed => ?_⟩, keys.dirty⟩
    rw [removeAsset, getElem?_erase_eq] at listed
    split at listed
    · cases listed
    · exact keys.canon.asset n l listed

theorem markAsset_edits : Edits (fun n => n = name) s (markAsset name s) where
  same := rfl
  chunks _ clean := ⟨clean, rfl⟩
  assets n other := by
    refine ⟨rfl, ?_⟩
    rw [markAsset, ExtTreeSet.mem_insert, Std.LawfulEqCmp.compare_eq_iff_eq, @eq_comm _ name]
    exact or_iff_right other
  keys keys := ⟨keys.canon, keys.dirty⟩

theorem listAsset_edits (hexes : ∀ hex ∈ chunks, IsHex hex) :
    Edits (fun n => n = name) s (listAsset name chunks s) where
  same := rfl
  chunks _ clean := ⟨clean, rfl⟩
  assets n other := ⟨by rw [listAsset, getElem?_insert_eq, if_neg other], Iff.rfl⟩
  keys keys := by
    refine ⟨⟨keys.canon.chunk, fun n l listed => ?_⟩, keys.dirty⟩
    rw [listAsset, getElem?_insert_eq] at listed
    split at listed
    · cases listed
      exact hexes
    · exact keys.canon.asset n l listed

theorem referenced_edits (mono : s.seg = none) :
    Edits (fun _ => False) s (chunks.foldl (fun s hex => s.chunkUpdate hex referenced) s) :=
  foldl_edits mono fun _ _ _ mono => chunkUpdate_edits mono fun _ placed => placed

end Table

section Publish
variable {env : Env} {σ : StoreSem} {w v : Disk} {s s' : GlobalStore} {t : Shelf} {record : AssetRecord}
  {l : List AssetRecord} {C : Disk → Prop}
  {chunks : List String} {Q : Except StoreError Unit → GlobalStore → Disk → Prop} {A : Ledger}

/-- On a monolithic ledger the records of a publish are staged, and their flat files may go. -/
theorem writeAssetRecords_wp (mono : s.seg = none) (crash : ∀ v, Grows env w v → C v)
    (next : ∀ v, Grows env w v → Q (.ok ()) (staged env l s) v) :
    (writeAssetRecords env l).Wp σ C Q s w := by
  have loop : ∀ (remain : Bool) (l : List AssetRecord) (s : GlobalStore) (w : Disk), (∀ v, Grows env w v → C v) →
      (∀ v, Grows env w v → Q (.ok ()) (staged env l s) v) →
      (forEach l fun record => do
        (if remain then do
          let _ ← op (.remove (.flatRecord record.name))
        else pure ())
        modify (stageRecord env record)).Wp σ C Q s w := by
    intro remain l
    induction l with
    | nil => exact fun s w crash next => ⟨crash w (.refl w), next w (.refl w)⟩
    | cons record l ih =>
        intro s w crash next
        have here := crash w (.refl w)
        have kept := ih (stageRecord env record s) w crash next
        refine Wp.then (Wp.then (wp_ite (fun _ => ?_) fun _ => ?_))
        · refine (wp_remove here (fun _ => ?_) (fun _ => ?_) fun _ => ?_).then
          · have gone : Grows env w (w.del (.flatRecord record.name)) := Grows.del rfl w
            have after := crash _ gone
            exact ⟨after, after, after, ih _ _ (fun v g => crash v (gone.trans g)) fun v g => next v (gone.trans g)⟩
          · exact ⟨here, here, kept⟩
          · exact ⟨here, here, kept⟩
        · exact ⟨here, here, kept⟩
  refine wp_see (wp_ite (fun none => ?_) fun _ => wp_ite (fun segmented => ?_) fun _ => loop _ l s w crash next)
  · subst none
    exact ⟨crash w (.refl w), next w (.refl w)⟩
  · rw [mono] at segmented
    cases segmented

/-- The handle after an asset was listed with these chunks. -/
structure Relisted (name : String) (chunks : List String) (s s' : GlobalStore) : Prop where
  edits : Edits (fun n => n = name) s s'
  listed : s'.index.assets[name]? = some chunks
  dirty : name ∈ s'.dirtyAssets

/-- Listing an asset leaves its record to be published. -/
theorem Relisted.held (r : Relisted record.name chunks s s') (ready : Ready env w A (Shelf.bytes env t.now) s) :
    Held env w A (Shelf.bytes env (Shelf.put record t.now)) (fun n => Queued s n ∨ n = record.name) s' := by
  refine (ready.held.edits r.edits fun n same => same ▸ r.dirty).republish fun n free => ?_
  rw [bytes_put, publishing, if_neg fun same => free (.inr same)]

theorem Relisted.has (r : Relisted record.name chunks s s')
    (h : ∀ n, (s.index.assets[n]?).isSome = (t.now n).isSome) (n : String) :
    (s'.index.assets[n]?).isSome = (Shelf.put record t.now n).isSome := by
  rw [Shelf.put]
  split
  · rename_i same
    rw [same, r.listed]
    rfl
  · rename_i other
    rw [← (r.edits.assets n other).1]
    exact h n

/-- The drop of the old references and the listing of the asset. -/
theorem relist_wp {k : M GlobalStore Unit} (mono : s.seg = none) (hexes : ∀ hex ∈ chunks, IsHex hex)
    (crash : ∀ v, Grows env w v → C v)
    (next : ∀ s' v, Relisted record.name chunks s s' → Grows env w v → k.Wp σ C Q s' v) :
    (do
      (match s.index.assets[record.name]? with
        | some old => do
            modify (removeAsset record.name)
            decrement old
        | none => pure ())
      modify (markAsset record.name)
      modify fun s => chunks.foldl (fun s hex => s.chunkUpdate hex referenced) s
      modify (listAsset record.name chunks)
      k : M GlobalStore Unit).Wp σ C Q s w := by
  have rest : ∀ (u : GlobalStore) (v : Disk), Edits (fun n => n = record.name) s u → Grows env w v → (do
        modify (markAsset record.name)
        modify fun s => chunks.foldl (fun s hex => s.chunkUpdate hex referenced) s
        modify (listAsset record.name chunks)
        k : M GlobalStore Unit).Wp σ C Q u v := by
    intro u v edits grows
    refine wp_set (wp_set (wp_set ?_))
    have marked := edits.trans (markAsset_edits (s := u))
    have dirty : record.name ∈ (markAsset record.name u).dirtyAssets := ExtTreeSet.mem_insert_self
    generalize markAsset record.name u = m at marked dirty
    have counted := @referenced_edits m chunks (marked.mono_ mono)
    generalize chunks.foldl (fun s hex => s.chunkUpdate hex referenced) m = c at counted
    have listed := (marked.trans (counted.mono fun _ => False.elim)).trans (listAsset_edits hexes)
    refine next _ v ⟨listed, ?_, (counted.assets record.name not_false).2.mpr dirty⟩ grows
    rw [listAsset, getElem?_insert_eq, if_pos rfl]
  cases s.index.assets[record.name]? with
  | none => exact Wp.then ⟨crash w (.refl w), rest s w (.refl s) (.refl w)⟩
  | some old =>
      have removed := @removeAsset_edits s record.name
      refine Wp.then (wp_set ?_)
      generalize removeAsset record.name s = u at removed
      refine @decrement_quiet env u σ True old (removed.mono_ mono) w C _ crash fun r u' v grows edits ok => ?_
      obtain ⟨a, rfl⟩ := ok trivial
      exact rest u' v (removed.trans (edits.mono fun _ => False.elim)) grows

/-- Listing an asset inside a batch holds its record back. -/
theorem Relisted.batched {held : List AssetRecord} (r : Relisted record.name chunks s s')
    (ready : Ready env w A (Shelf.bytes env t.now) s) (batch : s.batch = some held) :
    Ready env w A (Shelf.bytes env (Shelf.put record t.now))
      { s' with batch := s'.batch.map (· ++ [record]) } := by
  have same : s'.batch = some held := by
    rw [r.edits.same]
    exact batch
  have before : queue s = held := by
    rw [queue, batch]
    rfl
  have after : queue { s' with batch := s'.batch.map (· ++ [record]) } = held ++ [record] := by
    rw [queue, same]
    rfl
  have queued : ∀ n, Queued { s' with batch := s'.batch.map (· ++ [record]) } n ↔ Queued s n ∨ n = record.name := by
    intro n
    rw [Queued, Queued, after, before]
    constructor
    · rintro ⟨r, mem, named⟩
      rcases List.mem_append.mp mem with mem | mem
      · exact .inl ⟨r, mem, named⟩
      · rw [List.mem_singleton] at mem
        exact .inr (mem ▸ named.symm)
    · rintro (⟨r, mem, named⟩ | named)
      · exact ⟨r, List.mem_append_left _ mem, named⟩
      · exact ⟨record, List.mem_append_right _ List.mem_cons_self, named.symm⟩
  refine ⟨?_, fun n mem => ?_, ?_⟩
  · exact ((r.held ready).congr fun n => (queued n).symm).settings _ s'.preferredPackSize s'.journalBudget
  · by_cases same : n = record.name
    · exact same ▸ r.dirty
    · exact (r.edits.assets n same).2.mpr (ready.dirty n (((queued n).mp mem).resolve_right same))
  · rw [after, bytes_put]
    exact foldl_publishing_snoc (before ▸ ready.queued)

/-- The chunks that a check found all there have canonical names. -/
theorem OnLedger.hexes (h : OnLedger env w s t)
    (there : chunks.find? (fun hex => !s.chunkContains hex) = none) : ∀ hex ∈ chunks, IsHex hex := by
  intro hex mem
  have known := List.find?_eq_none.mp there hex mem
  obtain ⟨A, ⟨⟨S, L, good, tied, -⟩, -⟩, -⟩ := h.ready
  rw [GlobalStore.chunkContains, tied.mono, Bool.not_eq_true, Bool.not_eq_false',
    ExtTreeMap.contains_eq_isSome_getElem?] at known
  obtain ⟨info, found⟩ := Option.isSome_iff_exists.mp known
  exact (tied.canon.chunk hex info found).1

/-- Records staged for all assets that had none, and saved. -/
theorem records_wp {exempt : String → Prop} {f : String → Option AssetRecord}
    (held : Held env w A (Shelf.bytes env t.now) exempt s) (lists : A.Lists env f)
    (covers : ∀ name, exempt name → ∃ r ∈ l, r.name = name) (dirty : ∀ r ∈ l, r.name ∈ s.dirtyAssets)
    (bytes : l.foldl (publishing env) (Shelf.bytes env t.now) = Shelf.bytes env t.now)
    (batch : s.batch = t.batch) (empty : t.held = [])
    (has : ∀ name, (s.index.assets[name]?).isSome = (t.now name).isSome) (old : ∀ v, OnDisk env v f → C v)
    (new : ∀ v, OnDisk env v t.now → C v) (next : ∀ s' v, OnLedger env v s' ⟨t.now, t.batch⟩ → Q (.ok ()) s' v) :
    (do
      writeAssetRecords env l
      saveIndex env).Wp (fitting env) C Q s w := by
  have queue : queue s = [] := by
    rw [Cavs.queue, batch]
    exact empty
  have here : ∀ v, Grows env w v → C v := fun v g => old v ⟨A, held.recovers.grows g, lists⟩
  refine (writeAssetRecords_wp held.mono here fun v grows => ?_).then
  have due := (held.grows grows).staged covers dirty bytes queue
  have same := @staged_same env s l
  generalize staged env l s = u at due same
  have assets : u.index.assets = s.index.assets := by rw [same]
  have batch' : u.batch = s.batch := by rw [same]
  refine due.shelves lists (batch'.trans batch) empty (fun name => ?_) old new next
  rw [assets]
  exact has name

theorem OnLedger.publish (h : OnLedger env w s t) (record : AssetRecord) :
    (publishAsset env record).Wp (fitting env) (CutIn env t (.publish record))
      (fun r s' v => OnLedger env v s' (t.after (.publish record) r)) s w := by
  refine wp_ite (fun _ => ⟨.inl h.onDisk, h⟩) fun _ => wp_see ?_
  have flushed : (if s.batch.isSome then pure () else flushPacks env : M GlobalStore Unit).Wp (fitting env)
      (CutIn env t (.publish record)) (fun r s' v => OnLedger env v s' t) s w :=
    wp_ite (fun _ => ⟨.inl h.onDisk, h⟩) fun _ => h.part flushPacks_quiet
  refine flushed.seq (fun _ s w _ h => ?_) fun _ _ _ h => h
  refine (wp_seed (.inl h.onDisk) fun seed => ?_).then
  refine wp_see ?_
  generalize distinctChunks env seed record = chunks
  cases there : chunks.find? (fun hex => !s.chunkContains hex) with
  | some hex => exact ⟨.inl h.onDisk, h⟩
  | none =>
      refine Wp.then ⟨.inl h.onDisk, ?_⟩
      refine relist_wp h.mono (h.hexes there) (fun v g => .inl (h.onDisk.grows g)) fun s' v listed grows => ?_
      obtain ⟨A, ready, lists⟩ := h.ready
      have batch : s'.batch = t.batch := by
        rw [listed.edits.same]
        exact h.batch
      cases open_ : t.batch with
      | some held =>
          have batched := (listed.batched ready (h.batch.trans open_)).grows grows
          have now : ({ t with batch := some (held ++ [record]) } : Shelf).now = Shelf.put record t.now := by
            rw [Shelf.now, Shelf.now, Shelf.held, Shelf.held, open_]
            exact List.foldl_append
          have after : t.after (.publish record) (.ok ()) = { t with batch := some (held ++ [record]) } := by
            rw [Shelf.after, open_]
          rw [h.batch, open_]
          refine ⟨.inl (h.onDisk.grows grows), ?_⟩
          change OnLedger env v _ (t.after (.publish record) (.ok ()))
          rw [after]
          refine ⟨⟨A, now ▸ batched, lists⟩, ?_, fun name => ?_⟩
          · change s'.batch.map (· ++ [record]) = some (held ++ [record])
            rw [batch, open_]
            rfl
          · rw [now]
            exact listed.has h.has name
      | none =>
          have empty : t.held = [] := by rw [Shelf.held, open_]; rfl
          have after : t.after (.publish record) (.ok ()) = ⟨Shelf.put record t.saved, none⟩ := by
            rw [Shelf.after, open_]
          have put : (⟨Shelf.put record t.saved, none⟩ : Shelf).now = Shelf.put record t.saved := now_of_held rfl
          have now : (⟨Shelf.put record t.saved, none⟩ : Shelf).now = Shelf.put record t.now := by
            rw [put, now_of_held empty]
          rw [h.batch, open_]
          refine records_wp (t := ⟨Shelf.put record t.saved, none⟩) (now ▸ (listed.held ready).grows grows) lists
            ?_ ?_ ?_ (batch.trans open_) rfl ?_ (fun _ => .inl) (fun v on => ?_) fun s'' v' on => ?_
          · rintro name (⟨r, mem, -⟩ | rfl)
            · rw [queue, h.batch, open_] at mem
              cases mem
            · exact ⟨record, List.mem_cons_self, rfl⟩
          · exact fun r mem => List.mem_singleton.mp mem ▸ listed.dirty
          · rw [now, bytes_put]
            exact foldl_publishing_snoc (l := []) rfl
          · rw [now]
            exact listed.has h.has
          · rw [put] at on
            exact .inr (after ▸ on)
          · rw [put] at on
            exact after ▸ on

end Publish

section Sweep
variable {env : Env} {σ : StoreSem} {w v : Disk} {s : GlobalStore} {records : ExtTreeMap String RecordRef}
  {C : Disk → Prop}

theorem Swept.refl (w : Disk) : Swept env records w w := ⟨fun _ _ => rfl, fun _ _ _ _ _ _ there => there, rfl, id⟩

/-- One more pack that no record lies in is gone. -/
theorem Swept.del (h : Swept env records w v) {hash : ChunkHash}
    (dead : ∀ (name : String) offset len, records[name]? ≠ some (.pack hash offset len)) :
    Swept env records w (v.del (.recordPack hash)) where
  same q ledger := by
    rw [get_del_ne, h.same q ledger]
    rintro rfl
    cases ledger
  packs name pack offset len f found there := by
    rw [get_del_ne]
    · exact h.packs name pack offset len f found there
    · intro same
      cases same
      exact dead name offset len found
  marks := h.marks
  named named pack f there := by
    refine h.named named pack f ?_
    by_cases same : pack = hash
    · rw [same, FileProg.get_del, if_pos rfl] at there
      cases there
    · rwa [get_del_ne fun q => same (Path.recordPack.inj q)] at there

/-- The sweep of record packs keeps those a record lies in. -/
theorem sweepDeadRecordPacks_wp {Q : Except StoreError Nat → GlobalStore → Disk → Prop}
    (crash : ∀ v, Swept env s.index.records w v → C v) (next : ∀ r v, Swept env s.index.records w v → Q r s v) :
    sweepDeadRecordPacks.Wp σ C Q s w := by
  have here := crash w (.refl w)
  refine wp_see ((wp_list here (fun packs _ _ => ?_) fun _ => ⟨here, next _ _ (.refl w)⟩).then)
  refine wp_good ?_
  generalize packs.filterMap Path.recordPackHash = l
  have loop : ∀ {v : Disk} {Q : Except StoreError Nat → GlobalStore → Disk → Prop},
      Swept env s.index.records w v → (∀ r v, Swept env s.index.records w v → Q r s v) →
      (sumOver l fun hash =>
        if hash ∈ s.index.records.toList.filterMap fun r => recordPackRef r.2 then pure 0 else do
          let meta_ ← op (.stat (.recordPack hash))
          let _ ← op (.remove (.recordPack hash))
          return (meta_.map Prod.fst).getD 0).Wp σ C Q s v := by
    induction l with
    | nil => exact fun swept next => ⟨crash _ swept, next _ _ swept⟩
    | cons hash l ih =>
        intro v Q swept next
        have later : ∀ (n : Nat) (u : Disk), Swept env s.index.records w u → (do
            return n + (← sumOver l fun hash =>
              if hash ∈ s.index.records.toList.filterMap fun r => recordPackRef r.2 then pure 0 else do
                let meta_ ← op (.stat (.recordPack hash))
                let _ ← op (.remove (.recordPack hash))
                return (meta_.map Prod.fst).getD 0) : M GlobalStore Nat).Wp σ C Q s u := by
          intro n u swept
          refine Wp.then (ih swept ?_)
          rintro (e | m) u swept
          · exact ⟨crash u swept, next _ u swept⟩
          · exact ⟨crash u swept, next _ u swept⟩
        have at_ := crash v swept
        refine Wp.then (wp_ite (fun _ => ⟨at_, later 0 v swept⟩) fun unused => ?_)
        refine Wp.then (wp_stat at_ (Wp.then ?_))
        refine wp_remove at_ (fun _ => ?_) (fun _ => ⟨at_, later _ _ swept⟩) fun _ => ⟨at_, later _ _ swept⟩
        have gone := swept.del fun name offset len found => unused (List.mem_filterMap.mpr
          ⟨(name, .pack hash offset len), mem_toList_iff.mpr found, rfl⟩)
        have after := crash _ gone
        exact ⟨after, after, later _ _ gone⟩
  exact loop (.refl w) next

end Sweep

section Calls
variable {env : Env} {w v : Disk} {s : GlobalStore} {t : Shelf}
variable (h : OnLedger env w s t)
include h

theorem OnLedger.settings (size : Nat) (budget : Option Nat) :
    OnLedger env w { s with preferredPackSize := size, journalBudget := budget } t where
  ready := by
    obtain ⟨A, ready, lists⟩ := h.ready
    exact ⟨A, ⟨ready.held.settings s.batch size budget, ready.dirty, ready.queued⟩, lists⟩
  batch := h.batch
  has := h.has

theorem OnLedger.begin :
    OnLedger env w { s with batch := some (s.batch.getD []) } { t with batch := some t.held } where
  ready := by
    obtain ⟨A, ready, lists⟩ := h.ready
    refine ⟨A, ⟨?_, ready.dirty, ready.queued⟩, lists⟩
    exact ready.held.settings _ s.preferredPackSize s.journalBudget
  batch := congrArg (fun batch : Option (List AssetRecord) => some (batch.getD [])) h.batch
  has := h.has

theorem OnLedger.settled (empty : t.held = []) :
    OnLedger env w { s with batch := none } ⟨t.now, none⟩ := by
  obtain ⟨A, ready, lists⟩ := h.ready
  have now : (⟨t.now, none⟩ : Shelf).now = t.now := now_of_held rfl
  have same : t.now = t.saved := now_of_held empty
  have queue : queue s = [] := by
    rw [Cavs.queue, h.batch]
    exact empty
  refine ⟨⟨A, ?_, same ▸ lists⟩, rfl, now ▸ h.has⟩
  rw [now]
  refine Ready.of_empty rfl ((ready.held.settings none s.preferredPackSize s.journalBudget).congr fun name => ?_)
  refine iff_of_false ?_ not_false
  rintro ⟨r, mem, -⟩
  rw [queue] at mem
  cases mem

theorem OnLedger.commit :
    (commitPublishBatch env).Wp (fitting env) (CutIn env t .commitBatch)
      (fun _ s' v => OnLedger env v s' ⟨t.now, none⟩) s w := by
  refine wp_see ?_
  obtain ⟨A, ready, lists⟩ := h.ready
  cases open_ : s.batch with
  | none =>
      have empty : t.held = [] := by rw [Shelf.held, ← h.batch, open_]; rfl
      have same : { s with batch := none } = s := by rw [← open_]
      exact ⟨.inl h.onDisk, same ▸ h.settled empty⟩
  | some pending =>
      have queue : queue s = pending := by rw [Cavs.queue, open_]; rfl
      have held : pending = t.held := by rw [← queue, Cavs.queue, h.batch, Shelf.held]
      have now : (⟨t.now, none⟩ : Shelf).now = t.now := now_of_held rfl
      have unheld := ready.held.settings none s.preferredPackSize s.journalBudget
      have mono : ({ s with batch := none } : GlobalStore).seg = none := h.mono
      refine wp_set (Wp.then (flushPacks_sure mono w _ _ (fun v g => .inl (h.onDisk.grows g)) ?_))
      intro r s' v grows edits ok
      obtain ⟨_, rfl⟩ := ok trivial
      have held' := (unheld.grows grows).chunkEdits edits
      have batch : s'.batch = none := by rw [edits.same]
      have assets : ∀ name : String, s.index.assets[name]? = s'.index.assets[name]? := fun name =>
        (edits.assets name not_false).1
      by_cases due : pending ≠ [] ∨ s.openPack.isSome
      · simp only [due, if_true]
        refine records_wp (t := ⟨t.now, none⟩) (now ▸ held') lists ?_ ?_ ?_ batch rfl (fun name => ?_)
          (fun _ => .inl) (fun v on => ?_) fun s'' v' on => ?_
        · rintro name ⟨r, mem, named⟩
          exact ⟨r, queue ▸ mem, named⟩
        · intro r mem
          refine (edits.assets r.name not_false).2.mpr (ready.dirty r.name ⟨r, ?_, rfl⟩)
          rw [queue]
          exact mem
        · rw [now, held]
          exact Shelf.bytes_held t
        · rw [now, ← assets]
          exact h.has name
        · rw [now] at on
          exact .inr on
        · rw [now] at on
          exact on
      · simp only [due, if_false]
        have none_ : pending = [] := by
          by_contra some_
          exact due (.inl some_)
        subst none_
        have on := (h.settled held.symm).beside grows edits
        have same := now_of_held held.symm
        refine (writeAssetRecords_wp held'.mono (fun v' g => .inl (same ▸ on.onDisk.grows g)) fun v' g => ?_).then
        exact ⟨.inl (same ▸ on.onDisk.grows g), on.beside g (.refl _)⟩

theorem OnLedger.unpublish {name : String} (mindful : (t.now name).isSome → t.held = []) :
    (unpublishAsset env name).Wp (fitting env) (CutIn env t (.unpublish name))
      (fun _ s' v => ∀ r, OnLedger env v s' (t.after (.unpublish name) r)) s w := by
  refine wp_see ?_
  have has := h.has name
  cases found : s.index.assets[name]? with
  | none =>
      rw [found] at has
      have absent : t.now name = none := Option.isNone_iff_eq_none.mp (Option.isSome_eq_false_iff.mp has.symm)
      exact ⟨.inl h.onDisk, fun r => by rw [Shelf.after_unpublish_absent absent]; exact h⟩
  | some chunks =>
      rw [found] at has
      have empty : t.held = [] := mindful has.symm
      obtain ⟨A, ready, lists⟩ := h.ready
      have taken : (⟨Shelf.take name t.saved, t.batch⟩ : Shelf).now = Shelf.take name t.saved :=
        now_of_held (t := ⟨Shelf.take name t.saved, t.batch⟩) empty
      have now : (⟨Shelf.take name t.saved, t.batch⟩ : Shelf).now = Shelf.take name t.now :=
        taken.trans (congrArg (Shelf.take name) (now_of_held empty).symm)
      refine wp_set (wp_set ?_)
      have removed := (@removeAsset_edits s name).trans markAsset_edits
      have gone : (markAsset name (removeAsset name s)).index.assets[name]? = none := by
        rw [markAsset, removeAsset, getElem?_erase_eq, if_pos rfl]
      have marked : name ∈ (markAsset name (removeAsset name s)).dirtyAssets := ExtTreeSet.mem_insert_self
      generalize markAsset name (removeAsset name s) = u at removed gone marked
      refine Wp.then (@decrement_quiet env u _ True chunks (removed.mono_ h.mono) w _ _
        (fun v g => .inl (h.onDisk.grows g)) ?_)
      intro r u' v grows edits ok
      obtain ⟨a, rfl⟩ := ok trivial
      have edited := removed.trans (edits.mono fun _ => False.elim)
      have dirty : name ∈ u'.dirtyAssets := (edits.assets name not_false).2.mpr marked
      have gone' : u'.index.assets[name]? = none := (edits.assets name not_false).1.symm.trans gone
      have batch : u'.batch = t.batch := by
        rw [edited.same]
        exact h.batch
      have held : Held env v A (Shelf.bytes env (Shelf.take name t.now)) (fun n => Queued u' n ∨ n = name) u' := by
        have queued : Queued u' = Queued s := by
          funext n
          rw [Queued, edited.queue, ← Queued]
        rw [queued]
        refine ((ready.held.edits edited fun n same => same ▸ dirty).republish fun n free => ?_).grows grows
        rw [Shelf.bytes, Shelf.bytes, Shelf.take, if_neg fun same => free (.inr same)]
      have due := held.unlist gone'
      have has' : ∀ n : String, (u'.index.assets[n]?).isSome = (Shelf.take name t.now n).isSome := by
        intro n
        rw [Shelf.take]
        split
        · rename_i same
          rw [same, gone']
          rfl
        · rename_i other
          rw [← (edited.assets n other).1]
          exact h.has n
      have after : ∀ r, t.after (.unpublish name) r = ⟨Shelf.take name t.saved, t.batch⟩ := fun r =>
        Shelf.after_unpublish empty
      have saves : ∀ v', Grows env v v' → (do
          saveIndex env
          return true : M GlobalStore Bool).Wp (fitting env) (CutIn env t (.unpublish name))
          (fun _ s' v => ∀ r, OnLedger env v s' (t.after (.unpublish name) r)) (eraseRecords [name] u') v' := by
        intro v' g
        have due' : Due env v' A (Shelf.bytes env (⟨Shelf.take name t.saved, t.batch⟩ : Shelf).now) (eraseRecords [name] u') := by
          rw [now]
          exact due.grows g
        refine Wp.then (due'.shelves lists batch empty (now ▸ has') (fun _ => .inl) (fun v on => ?_) fun s' v on => ?_)
        · rw [taken] at on
          exact .inr (by rw [after]; exact on)
        · rw [taken] at on
          exact ⟨.inr (by rw [after]; exact on.onDisk), fun r => after r ▸ on⟩
      have here : CutIn env t (.unpublish name) v := .inl (h.onDisk.grows grows)
      have file : Grows env v (v.del (.flatRecord name)) := Grows.del rfl v
      refine wp_set (Wp.then (wp_remove here (fun _ => ⟨?_, saves _ file⟩) (fun _ => saves v (.refl v)) fun _ =>
        saves v (.refl v)))
      exact .inl (h.onDisk.grows (grows.trans file))

theorem OnLedger.swept (swept : Swept env s.index.records w v) : OnLedger env v s t where
  ready := by
    obtain ⟨A, ready, lists⟩ := h.ready
    exact ⟨A, ⟨ready.held.swept swept, ready.dirty, ready.queued⟩, lists⟩
  batch := h.batch
  has := h.has

/-- A collection with nothing held back. -/
theorem OnLedger.gc (empty : t.held = []) (grace : Nat) :
    (Cavs.gc env grace).Wp (fitting env) (CutIn env t (.gc grace)) (fun _ s' v => OnLedger env v s' t) s w := by
  refine Wp.seq (R := fun _ s' v => OnLedger env v s' t)
    (h.part ((Quiet.op free_now).bind fun _ _ _ => Quiet.pure _ : Quiet env _ False s nowEpoch))
    (fun now s w _ h => ?_) fun _ _ _ h => h
  refine wp_see ((h.part (@dropChunks_quiet env _ _ False _)).seq (fun dropped s w _ h => ?_) fun _ _ _ h => h)
  refine (wp_seed (.inl h.onDisk) fun seed => ?_).then
  refine wp_see ?_
  generalize env.setOrder seed dropped.1.dedup = touched
  have quarantine : Quiet env (fitting env) False s (forEach touched fun pack =>
      if pack ∈ s.livePackSet then Pure.pure () else quarantinePack pack) :=
    Quiet.forEach fun _ _ _ _ => .ite (fun _ => .pure ()) fun _ => quarantinePack_quiet _
  refine (h.part quarantine).seq (fun _ s w _ h => ?_) fun _ _ _ h => h
  refine (h.part (quarantineOrphanPacks_quiet grace)).seq (fun _ s w _ h => ?_) fun _ _ _ h => h
  refine (h.part (sweepQuarantine_quiet grace)).seq (fun _ s w _ h => ?_) fun _ _ _ h => h
  have sweep : sweepDeadRecordPacks.Wp (fitting env) (CutIn env t (.gc grace)) (fun _ s' v => OnLedger env v s' t) s w :=
    sweepDeadRecordPacks_wp (fun v (swept : Swept env _ _ v) => .inl (h.swept swept).onDisk) fun _ v swept => h.swept swept
  refine sweep.seq (fun _ s w _ h => ?_) fun _ _ _ h => h
  have same : t.now = t.saved := now_of_held empty
  obtain ⟨A, ready, lists⟩ := h.ready
  refine Wp.then (ready.held.due.shelves lists h.batch empty h.has (fun _ => .inl) (fun v on => ?_) fun s' v on => ?_)
  · exact .inl (same ▸ on)
  · rw [same] at on
    exact ⟨.inl on.onDisk, on⟩

end Calls
end Cavs
