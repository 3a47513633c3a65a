import Cavs.Codecs
import Cavs.MetaLedger
import Mathlib.Tactic.DeriveCountable

/-!
# When resolved metadata are stale

Every pack brings what it holds of its siblings into the memory cache, which is asked
before the index. The answers are those of the newest packs exactly when the packs that
the index leads to agree with the newest ones on all they carry.
-/
namespace Cavs
open FileProg (Bytes)
open Std (ExtTreeMap ExtTreeSet)

section Spec
variable (c : MetaCodec)

def servedCall (oid : String) : ResolveCall := ⟨oid, 0, fun _ => true, fun _ => true⟩

/-- The packs that the index leads to agree with the newest ones on what they carry, and
the objects of a pack that is too large to be read are described by files of their own. -/
structure Consistent (tree : MetaTree) (ledger : List MetaPackFile) : Prop where
  siblings : ∀ a f, newest ledger a = some f → f.Fits c →
    ∀ b ∈ f.oids, ∀ g, newest ledger b = some g → f.held b = g.held b
  singles : ∀ a f, newest ledger a = some f → ¬ f.Fits c →
    ∃ m, readSingle c tree (servedCall a) = .ok m ∧ f.held a = some m

/-- Every resolve of an object that the index knows gives what the newest pack holds. -/
def Fresh (tree : MetaTree) (ledger : List MetaPackFile) (l2 : ExtTreeMap String Bytes) : Prop :=
  ∀ calls : List ResolveCall, (∀ call ∈ calls, ∀ file, call.serves file = true) →
    ∀ x ∈ calls.zip (resolveAll c tree calls (MetaState.fresh l2)).1, ∀ f, newest ledger x.1.oid = some f →
      ∃ m, x.2 = .ok m ∧ f.held x.1.oid = some m

end Spec

section Session
variable {c : MetaCodec} {tree : MetaTree} {ledger : List MetaPackFile} {call : ResolveCall} {s : MetaState}
  {f : MetaPackFile}

/-- What a session knows while every request is answered. -/
structure Current (c : MetaCodec) (ledger : List MetaPackFile) (s : MetaState) : Prop where
  index : s.index = none ∨ s.index = some (indexMap (ledger.map (indexEntry c)))
  waits : s.indexMissingUntil = none
  l2 : L2Sound c ledger s.l2
  l1 : ∀ oid m, s.l1[oid]? = some m → ∀ f, newest ledger oid = some f → f.held oid = some m
  fetched : ∀ f ∈ ledger, packId c f ∈ s.fetchedPacks → f.Fits c → ∀ oid ∈ f.oids, s.l1[oid]? ≠ none

/-- The answer is what the newest pack holds. -/
def Answers (ledger : List MetaPackFile) (oid : String) (r : Except MetaError ResolvedMeta) : Prop :=
  ∀ f, newest ledger oid = some f → ∃ m, r = .ok m ∧ f.held oid = some m

theorem Represents.packId_injective (h : Represents c tree ledger) {g : MetaPackFile} (mem : f ∈ ledger)
    (mem' : g ∈ ledger) (ids : packId c f = packId c g) : f = g := by
  have left := h.packs f mem
  rw [ids, h.packs g mem', Option.some.injEq] at left
  exact (packBytes_injective left).symm

theorem MetaPackFile.held_of_mem {oid : String} (listed : oid ∈ f.oids) :
    ∃ m, f.held oid = some m :=
  Option.isSome_iff_exists.mp (heldIn_isSome.mpr listed)

theorem Current.remember (h : Current c ledger s) {oid : String} {m : ResolvedMeta}
    (held : ∀ f, newest ledger oid = some f → f.held oid = some m) :
    Current c ledger { s with l1 := s.l1.insert oid m } := by
  constructor
  · exact h.index
  · exact h.waits
  · exact h.l2
  · intro other m' found f new
    rw [getElem?_insert_eq] at found
    split at found
    · rename_i same
      cases found
      subst same
      exact held f new
    · exact h.l1 other m' found f new
  · intro f mem there fits other listed
    rw [getElem?_insert_eq]
    split
    · simp
    · exact h.fetched f mem there fits other listed

theorem readSingle_served (served : ∀ file, call.serves file = true) :
    readSingle c tree call = readSingle c tree (servedCall call.oid) := by
  simp only [readSingle, getAll, getAllOpt, served, servedCall]

/-- An object outside the index, or of a pack that cannot be read, has files of its own. -/
theorem resolveSingle_spec (h : Current c ledger s) (served : ∀ file, call.serves file = true)
    (single : ∀ f, newest ledger call.oid = some f →
      ∃ m, readSingle c tree (servedCall call.oid) = .ok m ∧ f.held call.oid = some m) :
    Answers ledger call.oid (resolveSingle c tree call s).1 ∧ Current c ledger (resolveSingle c tree call s).2 := by
  rw [resolveSingle, readSingle_served served]
  cases read : readSingle c tree (servedCall call.oid) with
  | error e =>
      constructor
      · intro f new
        obtain ⟨m, ok, -⟩ := single f new
        rw [read] at ok
        cases ok
      · exact h
  | ok m =>
      have held : ∀ f, newest ledger call.oid = some f → f.held call.oid = some m := by
        intro f new
        obtain ⟨m', ok, held⟩ := single f new
        rw [read] at ok
        cases ok
        exact held
      exact ⟨fun f new => ⟨m, rfl, held f new⟩, h.remember held⟩

/-- A pack that was read leaves in memory what the newest packs hold of all it carries. -/
theorem fetch_current (h : Current c ledger s) (tree_ : Represents c tree ledger)
    (consistent : Consistent c tree ledger) {a : String} (new : newest ledger a = some f) (fits : f.Fits c) :
    Current c ledger (f.objects.foldl (fillObject c call (packId c f))
      { s with fetchedPacks := s.fetchedPacks.insert (packId c f) }) := by
  have mem : f ∈ ledger := (newest_mem new).1
  obtain ⟨index, packs, waits⟩ := fill_rest call
    { s with fetchedPacks := s.fetchedPacks.insert (packId c f) } (packId c f) f.objects
  constructor
  · rw [index]
    exact h.index
  · rw [waits]
    exact h.waits
  · exact fill_l2 mem fits (tree_.single f mem) h.l2
  · intro b m found g newb
    rw [fill_l1] at found
    cases held : f.held b with
    | some m' =>
        have listed : b ∈ f.oids := heldIn_isSome.mp (Option.isSome_iff_exists.mpr ⟨m', held⟩)
        rw [MetaPackFile.held] at held
        rw [held, Option.some_or, Option.some.injEq] at found
        rw [← consistent.siblings a f new fits b listed g newb, ← found]
        exact held
    | none =>
        rw [MetaPackFile.held] at held
        rw [held, Option.none_or] at found
        exact h.l1 b m found g newb
  · intro g memg there fitsg b listed
    rw [fill_l1]
    rw [packs] at there
    by_cases same : packId c g = packId c f
    · rw [tree_.packId_injective memg mem same] at listed
      obtain ⟨m, held⟩ := MetaPackFile.held_of_mem listed
      rw [MetaPackFile.held] at held
      rw [held]
      simp
    · have before : packId c g ∈ s.fetchedPacks := by
        rw [Std.ExtTreeSet.mem_insert] at there
        rcases there with now | before
        · exact absurd (Std.LawfulEqCmp.eq_of_compare now).symm same
        · exact before
      have known := h.fetched g memg before fitsg b listed
      cases held : heldIn f.objects b with
      | some m => simp
      | none => simpa using known

theorem resolvePack_spec (h : Current c ledger s) (served : ∀ file, call.serves file = true)
    (tree_ : Represents c tree ledger) (consistent : Consistent c tree ledger)
    (new : newest ledger call.oid = some f) (cold : s.l1[call.oid]? = none) :
    Answers ledger call.oid (resolvePack c tree call (packId c f) s).1 ∧
      Current c ledger (resolvePack c tree call (packId c f) s).2 := by
  obtain ⟨mem, listed⟩ := newest_mem new
  have single : ¬ f.Fits c → ∀ g, newest ledger call.oid = some g →
      ∃ m, readSingle c tree (servedCall call.oid) = .ok m ∧ g.held call.oid = some m := by
    intro long g newg
    rw [new, Option.some.injEq] at newg
    subst newg
    exact consistent.singles call.oid f new long
  rw [resolvePack]
  by_cases again : packId c f ∈ s.fetchedPacks
  · rw [if_pos again]
    have long : ¬ f.Fits c := fun fits => h.fetched f mem again fits call.oid listed cold
    exact resolveSingle_spec h served (single long)
  · rw [if_neg again, fetchMetaPack]
    by_cases fits : f.Fits c
    · obtain ⟨m, held⟩ := MetaPackFile.held_of_mem listed
      rw [readMetaPack_fits tree_ served mem fits]
      have found : (f.objects.reverse.find? fun o => o.oid = call.oid).map MetaPackObject.intoEntries = some m := held
      simp only [found]
      constructor
      · intro g newg
        rw [new, Option.some.injEq] at newg
        subst newg
        exact ⟨m, rfl, held⟩
      · exact fetch_current h tree_ consistent new fits
    · cases read : readMetaPack c tree call (packId c f) with
      | ok file =>
          obtain ⟨memf, ids, fits'⟩ := readMetaPack_ok tree_ read
          rw [tree_.packId_injective mem memf ids] at fits
          exact absurd fits' fits
      | error e =>
          have marked : Current c ledger { s with fetchedPacks := s.fetchedPacks.insert (packId c f) } := by
            constructor
            · exact h.index
            · exact h.waits
            · exact h.l2
            · exact h.l1
            · intro g memg there fitsg b listedb
              rw [Std.ExtTreeSet.mem_insert] at there
              rcases there with now | before
              · rw [← tree_.packId_injective mem memg (Std.LawfulEqCmp.eq_of_compare now)] at fitsg
                exact absurd fitsg fits
              · exact h.fetched g memg before fitsg b listedb
          exact resolveSingle_spec marked served (single fits)

theorem resolveMapped_spec (h : Current c ledger s) (served : ∀ file, call.serves file = true)
    (tree_ : Represents c tree ledger) (consistent : Consistent c tree ledger)
    (new : newest ledger call.oid = some f) (cold : s.l1[call.oid]? = none) :
    Answers ledger call.oid (resolveMapped c tree call (packId c f) s).1 ∧
      Current c ledger (resolveMapped c tree call (packId c f) s).2 := by
  have sound := l2Get_l2 h.l2 call.oid
  have entries : ∀ entry, (l2Get c call.oid s).1 = some entry → _ := fun entry => l2Get_some h.l2
  obtain ⟨l2, rest⟩ := l2Get_rest (c := c) (s := s) call.oid
  rw [rest] at sound
  have got : Current c ledger { s with l2 } := ⟨h.index, h.waits, sound, h.l1, h.fetched⟩
  rw [resolveMapped]
  cases result : l2Get c call.oid s with
  | mk entry s' =>
      rw [result] at rest entries
      simp only at rest entries
      subst rest
      cases entry with
      | none => exact resolvePack_spec got served tree_ consistent new cold
      | some entry =>
          dsimp only
          by_cases same : entry.src = packId c f
          · obtain ⟨g, memg, -, src, held⟩ := entries entry rfl
            rw [if_pos same]
            have newest_ : g = f := tree_.packId_injective memg (newest_mem new).1 (src.symm.trans same)
            rw [newest_] at held
            have all : ∀ g, newest ledger call.oid = some g → g.held call.oid = some entry.resolved := by
              intro g newg
              rw [new, Option.some.injEq] at newg
              subst newg
              exact held
            exact ⟨fun g newg => ⟨entry.resolved, rfl, all g newg⟩, got.remember all⟩
          · rw [if_neg same]
            exact resolvePack_spec got served tree_ consistent new cold

/-- With every request answered the session has the index, unless nothing was published. -/
theorem ensureIndex_spec (h : Current c ledger s) (served : ∀ file, call.serves file = true)
    (tree_ : Represents c tree ledger) (published : ledger ≠ []) :
    ∃ s', ensureIndex c tree call s = (.ok (some (indexMap (ledger.map (indexEntry c)))), s') ∧
      Current c ledger s' ∧ s'.l1 = s.l1 := by
  rw [ensureIndex]
  rcases h.index with none_ | some_
  · rcases tree_.index with ⟨-, nothing⟩ | ⟨g, index⟩
    · exact absurd nothing published
    · refine ⟨{ s with index := some (indexMap (ledger.map (indexEntry c))), indexMissingUntil := none }, ?_,
        ⟨.inr rfl, rfl, h.l2, h.l1, h.fetched⟩, rfl⟩
      simp only [none_, MetaState.waits, h.waits, getAllOpt, served, MetaTree.file, index, Bool.false_eq_true,
        if_false, if_true, c.indexFromJson_indexJson]
  · simp only [some_]
    exact ⟨s, rfl, h, rfl⟩

theorem resolve_spec (h : Current c ledger s) (served : ∀ file, call.serves file = true)
    (tree_ : Represents c tree ledger) (consistent : Consistent c tree ledger) (published : ledger ≠ []) :
    Answers ledger call.oid (resolve c tree call s).1 ∧ Current c ledger (resolve c tree call s).2 := by
  rw [resolve]
  cases cached : s.l1[call.oid]? with
  | some m => exact ⟨fun f new => ⟨m, rfl, h.l1 _ m cached f new⟩, h⟩
  | none =>
      obtain ⟨s', indexed, current, kept⟩ := ensureIndex_spec h served tree_ published
      have looked : (indexMap (ledger.map (indexEntry c)))[call.oid]? = (newest ledger call.oid).map (packId c) :=
        indexMap_newest (packId c) ledger call.oid
      simp only [indexed, Option.bind_some, looked]
      cases new : newest ledger call.oid with
      | none =>
          apply resolveSingle_spec current served
          intro f new'
          rw [new] at new'
          cases new'
      | some f => exact resolveMapped_spec current served tree_ consistent new (by rw [kept, cached])

theorem resolveAll_spec (tree_ : Represents c tree ledger) (consistent : Consistent c tree ledger)
    (published : ledger ≠ []) (calls : List ResolveCall)
    (served : ∀ call ∈ calls, ∀ file, call.serves file = true) (h : Current c ledger s) :
    ∀ x ∈ calls.zip (resolveAll c tree calls s).1, Answers ledger x.1.oid x.2 := by
  induction calls generalizing s with
  | nil =>
      intro x mem
      cases mem
  | cons call rest ih =>
      obtain ⟨answer, current⟩ := resolve_spec h (served call List.mem_cons_self) tree_ consistent published
      intro x mem
      rw [resolveAll, List.zip_cons_cons] at mem
      rcases List.mem_cons.mp mem with rfl | later
      · exact answer
      · exact ih (fun other there => served other (List.mem_cons_of_mem call there)) current x later

theorem fresh_current (sound : L2Sound c ledger s.l2) : Current c ledger (MetaState.fresh s.l2) := by
  constructor
  · exact .inl rfl
  · rfl
  · exact sound
  · intro oid m found
    simp [MetaState.fresh] at found
  · intro f mem there
    simp [MetaState.fresh] at there

end Session

section Theorem
variable {c : MetaCodec} {tree : MetaTree} {ledger : List MetaPackFile}

theorem runEvents_exports (calls : List (StoreView × List String)) (manifests chunkMaps : String → Option Bytes) :
    ∃ events, events.filterMap MetaEvent.exportCall = calls ∧ (runEvents c events).2 = ∅ ∧
      (runEvents c events).1.manifests = manifests ∧ (runEvents c events).1.chunkMaps = chunkMaps := by
  refine ⟨calls.map (fun call => .exports call.1 call.2) ++ [.assets manifests chunkMaps], ?_, ?_, ?_, ?_⟩
  · rw [List.filterMap_append, List.filterMap_map]
    simp [MetaEvent.exportCall, Function.comp_def]
  · have kept : ∀ (calls : List (StoreView × List String)) (w : MetaTree × ExtTreeMap String Bytes),
        ((calls.map fun call => MetaEvent.exports call.1 call.2).foldl (runEvent c) w).2 = w.2 := by
      intro calls
      induction calls with
      | nil => exact fun w => rfl
      | cons call rest ih => exact fun w => ih _
    rw [runEvents, List.foldl_append]
    exact kept calls _
  · rw [runEvents, List.foldl_append]
    rfl
  · rw [runEvents, List.foldl_append]
    rfl

/-- A session with an empty disk cache that begins with one object. -/
theorem resolve_first (tree_ : Represents c tree ledger) {a : String} {f : MetaPackFile}
    (new : newest ledger a = some f) :
    ∃ s, packId c f ∉ s.fetchedPacks ∧ resolve c tree (servedCall a) (MetaState.fresh ∅) =
      resolvePack c tree (servedCall a) (packId c f) s := by
  have published : ledger ≠ [] := List.ne_nil_of_mem (newest_mem new).1
  have looked : (indexMap (ledger.map (indexEntry c)))[a]? = (newest ledger a).map (packId c) :=
    indexMap_newest (packId c) ledger a
  rcases tree_.index with ⟨-, nothing⟩ | ⟨g, index⟩
  · exact absurd nothing published
  · have empty : (∅ : ExtTreeMap String Bytes)[a]? = none := by simp
    have cold : (∅ : ExtTreeMap String ResolvedMeta)[a]? = none := by simp
    have indexed : ensureIndex c tree (servedCall a) (MetaState.fresh ∅) =
        (.ok (some (indexMap (ledger.map (indexEntry c)))),
          { MetaState.fresh ∅ with index := some (indexMap (ledger.map (indexEntry c))) }) := by
      simp only [ensureIndex, MetaState.fresh, MetaState.waits, getAllOpt, servedCall, MetaTree.file, index,
        Bool.false_eq_true, if_false, if_true, c.indexFromJson_indexJson]
    have got : l2Get c a { MetaState.fresh ∅ with index := some (indexMap (ledger.map (indexEntry c))) } =
        (none, { MetaState.fresh ∅ with index := some (indexMap (ledger.map (indexEntry c))) }) := by
      simp only [l2Get, MetaState.fresh, empty]
      split <;> rfl
    refine ⟨{ MetaState.fresh ∅ with index := some (indexMap (ledger.map (indexEntry c))) },
      by simp [MetaState.fresh], ?_⟩
    rw [resolve]
    simp only [servedCall] at indexed ⊢
    simp only [MetaState.fresh, cold] at indexed got ⊢
    simp only [indexed, Option.bind_some, looked, new, Option.map_some, resolveMapped, got]

theorem Consistent.of_files {tree' : MetaTree} (h : Consistent c tree ledger)
    (manifests : tree'.manifests = tree.manifests) (chunkMaps : tree'.chunkMaps = tree.chunkMaps) :
    Consistent c tree' ledger := by
  constructor
  · exact h.siblings
  · intro a f new long
    obtain ⟨m, read, held⟩ := h.singles a f new long
    refine ⟨m, ?_, held⟩
    rw [← read]
    simp only [readSingle, getAll, getAllOpt, MetaTree.file, manifests, chunkMaps]

theorem fresh_of_consistent {l2 : ExtTreeMap String Bytes} (tree_ : Represents c tree ledger)
    (sound : L2Sound c ledger l2) (consistent : Consistent c tree ledger) :
    Fresh c tree ledger l2 := by
  intro calls served x mem f new
  have published : ledger ≠ [] := List.ne_nil_of_mem (newest_mem new).1
  have current : Current c ledger (MetaState.fresh l2) := fresh_current (s := MetaState.fresh l2) sound
  exact resolveAll_spec tree_ consistent published calls served current x mem f new

/-- With an empty disk cache two resolves find any disagreement. -/
theorem consistent_of_fresh (tree_ : Represents c tree ledger) (fresh : Fresh c tree ledger ∅) :
    Consistent c tree ledger := by
  constructor
  · intro a f new fits b listed g newb
    obtain ⟨mem, here⟩ := newest_mem new
    obtain ⟨m, held⟩ := MetaPackFile.held_of_mem listed
    have answers := fresh [servedCall a, servedCall b] (by simp [servedCall])
    have found : (f.objects.reverse.find? fun o => o.oid = (servedCall a).oid).map MetaPackObject.intoEntries =
        f.held a := rfl
    obtain ⟨ma, helda⟩ := MetaPackFile.held_of_mem here
    have second : (resolve c tree (servedCall b) (resolve c tree (servedCall a) (MetaState.fresh ∅)).2).1 =
        .ok m := by
      obtain ⟨s, cold, first⟩ := resolve_first tree_ new
      rw [first, resolvePack, if_neg cold, fetchMetaPack,
        readMetaPack_fits tree_ (fun file => rfl) mem fits]
      simp only [found, helda]
      rw [resolve, fill_l1]
      rw [MetaPackFile.held] at held
      simp only [servedCall, held, Option.some_or]
    obtain ⟨m', answer, held'⟩ := answers (servedCall b, .ok m) (by
      simp only [resolveAll, List.zip_cons_cons, second]
      simp) g newb
    cases answer
    rw [held]
    exact held'.symm
  · intro a f new long
    obtain ⟨mem, here⟩ := newest_mem new
    cases unread : readMetaPack c tree (servedCall a) (packId c f) with
    | ok file =>
        obtain ⟨memf, ids, fits⟩ := readMetaPack_ok tree_ unread
        rw [← tree_.packId_injective mem memf ids] at fits
        exact absurd fits long
    | error e =>
        have first : (resolve c tree (servedCall a) (MetaState.fresh ∅)).1 = readSingle c tree (servedCall a) := by
          obtain ⟨s, cold, first⟩ := resolve_first tree_ new
          rw [first, resolvePack, if_neg cold, fetchMetaPack, unread]
          simp only [resolveSingle]
          cases readSingle c tree (servedCall a) <;> rfl
        obtain ⟨m, answer, held⟩ := fresh [servedCall a] (by simp [servedCall])
          (servedCall a, readSingle c tree (servedCall a)) (by
            simp only [resolveAll, List.zip_cons_cons, first]
            simp) f new
        exact ⟨m, answer, held⟩

/-- Over every history of publishes and sessions that leaves these files, every resolve
gives what the newest pack holds exactly when the packs in use agree with the newest. -/
theorem resolve_fresh (calls : List (StoreView × List String)) (clear : NoCollision c calls)
    (manifests chunkMaps : String → Option Bytes) :
    (∀ events : List MetaEvent, events.filterMap MetaEvent.exportCall = calls →
      (runEvents c events).1.manifests = manifests → (runEvents c events).1.chunkMaps = chunkMaps →
        Fresh c (runEvents c events).1 (ledgerOf calls) (runEvents c events).2) ↔
    Consistent c ⟨none, [], manifests, chunkMaps⟩ (ledgerOf calls) := by
  constructor
  · intro fresh
    obtain ⟨events, exported, empty, files, maps⟩ := runEvents_exports (c := c) calls manifests chunkMaps
    obtain ⟨tree, -⟩ := runEvents_sound clear exported
    have now := fresh events exported files maps
    rw [empty] at now
    exact (consistent_of_fresh tree now).of_files files.symm maps.symm
  · intro consistent events exported files maps
    obtain ⟨tree, sound⟩ := runEvents_sound clear exported
    exact fresh_of_consistent tree sound (consistent.of_files files maps)

end Theorem

section Sample

deriving instance Countable for ChunkRef
deriving instance Countable for ManifestTrack
deriving instance Countable for ManifestSegment
deriving instance Countable for Manifest
deriving instance Countable for ChunkMapEntry
deriving instance Countable for RunFlags
deriving instance Countable for MetaRun
deriving instance Countable for MetaPackObject
deriving instance Countable for MetaPackFile
deriving instance Countable for MetaIndexPack
deriving instance Countable for MetaIndexFile
deriving instance Countable for ResolvedMeta
deriving instance Countable for L2Entry

/-- A store in which the chunk of every asset lies in the pack `pack`. -/
def packedIn (pack : String) : StoreView where
  assetManifest name := .ok ⟨name, "", [], [], [], ["00"], "", none, none, []⟩
  chunkMapRuns _ := .ok [⟨pack, 8, ["00"], [1], [1], .none⟩]

/-- Two assets are published, and one of them again after a repack. -/
def repackedCalls : List (StoreView × List String) :=
  [(packedIn "first", ["a", "b"]), (packedIn "second", ["b"])]

def sampleManifest (name : String) : Manifest := ⟨name, "", [], [], [], ["00"], "", none, none, []⟩

def samplePack (pack : String) (names : List String) : MetaPackFile :=
  ⟨1, names.map fun name => ⟨name, sampleManifest name, [], [⟨pack, 8, ["00"], [1], [1], .none⟩]⟩⟩

/-- Codecs that write numbers; the packs of the sample have short ones. -/
noncomputable def samplePackJson (file : MetaPackFile) : Bytes :=
  if file = samplePack "first" ["a", "b"] then [1]
  else if file = samplePack "second" ["b"] then [2]
  else 0 :: unary file

noncomputable def samplePackFromJson (b : Bytes) : Except String MetaPackFile :=
  match b with
  | 0 :: rest => ofUnary MetaPackFile rest
  | 1 :: _ => .ok (samplePack "first" ["a", "b"])
  | _ => .ok (samplePack "second" ["b"])

theorem samplePackFromJson_samplePackJson (file : MetaPackFile) :
    samplePackFromJson (samplePackJson file) = .ok file := by
  rw [samplePackJson]
  split
  · rename_i first
    rw [first]
    rfl
  · split
    · rename_i second
      rw [second]
      rfl
    · exact ofUnary_unary file

noncomputable def countingMeta : MetaCodec where
  hashChunk := countingEnv.hashChunk
  compress _ b := b
  decompress n b := if b.length ≤ n then .ok b else .error "too long"
  decompress_compress _ _ _ small := if_pos small
  decompress_long _ _ _ long := ⟨"too long", if_neg (Nat.not_le.mpr long)⟩
  packJson := samplePackJson
  packFromJson := samplePackFromJson
  packFromJson_packJson := samplePackFromJson_samplePackJson
  indexJson := unary
  indexFromJson := ofUnary MetaIndexFile
  indexFromJson_indexJson := ofUnary_unary
  l2Json := unary
  l2FromJson := ofUnary L2Entry
  l2FromJson_l2Json := ofUnary_unary
  manifestFromJson := ofUnary Manifest
  chunkMapFromJson := ofUnary (List ChunkMapEntry)

theorem packBytes_first : packBytes countingMeta (samplePack "first" ["a", "b"]) = [1] := by
  simp only [packBytes, countingMeta]
  rw [samplePackJson, if_pos rfl]

theorem packBytes_second : packBytes countingMeta (samplePack "second" ["b"]) = [2] := by
  have other : samplePack "second" ["b"] ≠ samplePack "first" ["a", "b"] := by decide
  simp only [packBytes, countingMeta]
  rw [samplePackJson, if_neg other, if_pos rfl]

theorem exportedFile_repackedCalls : repackedCalls.filterMap exportedFile =
    [samplePack "first" ["a", "b"], samplePack "second" ["b"]] := rfl

theorem noCollision_repackedCalls : NoCollision countingMeta repackedCalls := by
  intro f mem g mem' same
  rw [exportedFile_repackedCalls] at mem mem'
  simp only [List.mem_cons, List.not_mem_nil, or_false] at mem mem'
  have differ : countingMeta.hashChunk [1] ≠ countingMeta.hashChunk [2] := by
    change countingEnv.hashChunk [1] ≠ countingEnv.hashChunk [2]
    decide +kernel
  rcases mem with rfl | rfl <;> rcases mem' with rfl | rfl
  · rfl
  · rw [packBytes_first, packBytes_second] at same
    exact absurd same differ
  · rw [packBytes_first, packBytes_second] at same
    exact absurd same.symm differ
  · rfl

/-- The first pack also carries the object that was repacked. -/
theorem not_consistent_repackedCalls (tree : MetaTree) :
    ¬ Consistent countingMeta tree (ledgerOf repackedCalls) := by
  intro consistent
  have older : newest (ledgerOf repackedCalls) "a" = some (samplePack "first" ["a", "b"]) := by decide
  have newer : newest (ledgerOf repackedCalls) "b" = some (samplePack "second" ["b"]) := by decide
  have fits : (samplePack "first" ["a", "b"]).Fits countingMeta := by
    change (packBytes countingMeta (samplePack "first" ["a", "b"])).length ≤ maxMetaPackBytes
    rw [packBytes_first]
    decide
  have agree := consistent.siblings "a" _ older fits "b" (by decide) _ newer
  revert agree
  decide

theorem resolve_fresh_repacked : NoCollision countingMeta repackedCalls ∧
    ((∀ events : List MetaEvent, events.filterMap MetaEvent.exportCall = repackedCalls →
      (runEvents countingMeta events).1.manifests = (fun _ => none) →
      (runEvents countingMeta events).1.chunkMaps = (fun _ => none) →
        Fresh countingMeta (runEvents countingMeta events).1 (ledgerOf repackedCalls)
          (runEvents countingMeta events).2) ↔
    Consistent countingMeta ⟨none, [], fun _ => none, fun _ => none⟩ (ledgerOf repackedCalls)) :=
  ⟨noCollision_repackedCalls, resolve_fresh repackedCalls noCollision_repackedCalls _ _⟩

theorem resolve_stale : ¬ ∀ (c : MetaCodec) (calls : List (StoreView × List String)), NoCollision c calls →
    ∀ events : List MetaEvent, events.filterMap MetaEvent.exportCall = calls →
      Fresh c (runEvents c events).1 (ledgerOf calls) (runEvents c events).2 := by
  intro fresh
  obtain ⟨events, exported, empty, -⟩ :=
    runEvents_exports (c := countingMeta) repackedCalls (fun _ => none) (fun _ => none)
  obtain ⟨tree, -⟩ := runEvents_sound noCollision_repackedCalls exported
  have now := fresh countingMeta repackedCalls noCollision_repackedCalls events exported
  rw [empty] at now
  exact not_consistent_repackedCalls _ (consistent_of_fresh tree now)

end Sample
end Cavs
