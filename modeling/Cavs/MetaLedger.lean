import Cavs.KeyedList
import Cavs.MetaPack
import Mathlib.Data.List.Induction

/-!
# The packs behind the index

A history of publishes leaves one pack for each of them and an index in their order. The
disk cache of every session before holds only what these packs say.
-/
namespace Cavs
open FileProg (Bytes)
open Std (ExtTreeMap ExtTreeSet)

section Spec
variable (c : MetaCodec)

def MetaPackFile.oids (file : MetaPackFile) : List String := file.objects.map MetaPackObject.oid

/-- What a pack says of an object; of several, the last. -/
def heldIn (objects : List MetaPackObject) (oid : String) : Option ResolvedMeta :=
  (objects.reverse.find? fun o => o.oid = oid).map MetaPackObject.intoEntries

def MetaPackFile.held (file : MetaPackFile) (oid : String) : Option ResolvedMeta := heldIn file.objects oid

/-- The pack that an export writes, if it gets that far. -/
def exportedFile (call : StoreView × List String) : Option MetaPackFile :=
  if call.2 = [] then none
  else match exportObjects call.1 call.2 with
    | .error _ => none
    | .ok objects => some ⟨1, objects⟩

/-- The packs in the order of the index. -/
def ledgerAfter (ledger : List MetaPackFile) (call : StoreView × List String) : List MetaPackFile :=
  match exportedFile call with
  | some file => ledger.filter (fun f => f ≠ file) ++ [file]
  | none => ledger

def ledgerOf (calls : List (StoreView × List String)) : List MetaPackFile := calls.foldl ledgerAfter []

/-- The newest pack that lists the object. -/
def newest (ledger : List MetaPackFile) (oid : String) : Option MetaPackFile :=
  ledger.reverse.find? fun f => oid ∈ f.oids

/-- No two of the packs have the same hash. -/
def NoCollision (calls : List (StoreView × List String)) : Prop :=
  ∀ f ∈ calls.filterMap exportedFile, ∀ g ∈ calls.filterMap exportedFile,
    c.hashChunk (packBytes c f) = c.hashChunk (packBytes c g) → packBytes c f = packBytes c g

def MetaPackFile.Fits (file : MetaPackFile) : Prop := (c.packJson file).length ≤ maxMetaPackBytes

/-- What happens to a tree and a disk cache. -/
inductive MetaEvent where
  | exports (view : StoreView) (names : List String)
  | assets (manifests chunkMaps : String → Option Bytes)
  | session (calls : List ResolveCall)

def runEvent (w : MetaTree × ExtTreeMap String Bytes) : MetaEvent → MetaTree × ExtTreeMap String Bytes
  | .exports view names => ((exportMetaPack c view names w.1).2, w.2)
  | .assets manifests chunkMaps => ({ w.1 with manifests, chunkMaps }, w.2)
  | .session calls => (w.1, (resolveAll c w.1 calls (MetaState.fresh w.2)).2.l2)

def MetaEvent.exportCall : MetaEvent → Option (StoreView × List String)
  | .exports view names => some (view, names)
  | _ => none

def runEvents (events : List MetaEvent) : MetaTree × ExtTreeMap String Bytes :=
  events.foldl (runEvent c) (⟨none, [], fun _ => none, fun _ => none⟩, ∅)

end Spec

section Held
variable {objects : List MetaPackObject} {oid : String}

theorem heldIn_cons (o : MetaPackObject) : heldIn (o :: objects) oid =
    (heldIn objects oid).or (if o.oid = oid then some o.intoEntries else none) := by
  rw [heldIn, List.reverse_cons, List.find?_append, heldIn]
  cases found : objects.reverse.find? fun o => o.oid = oid with
  | some x => rfl
  | none =>
      by_cases here : o.oid = oid <;> simp [here]

theorem heldIn_isSome : (heldIn objects oid).isSome ↔ oid ∈ objects.map MetaPackObject.oid := by
  induction objects with
  | nil => simp [heldIn]
  | cons o rest ih =>
      rw [heldIn_cons, Option.isSome_or, Bool.or_eq_true, ih, List.map_cons, List.mem_cons]
      by_cases here : o.oid = oid
      · simp [here]
      · simp [here, Ne.symm here]

end Held

section Newest
variable {ledger : List MetaPackFile} {oid : String} {f : MetaPackFile}

theorem newest_mem (h : newest ledger oid = some f) : f ∈ ledger ∧ oid ∈ f.oids := by
  constructor
  · exact List.mem_reverse.mp (List.mem_of_find?_eq_some h)
  · simpa using List.find?_some h

theorem newest_append (last : MetaPackFile) : newest (ledger ++ [last]) oid =
    if oid ∈ last.oids then some last else newest ledger oid := by
  rw [newest, List.reverse_append, List.reverse_singleton, List.singleton_append, List.find?_cons]
  by_cases listed : oid ∈ last.oids
  · simp [listed]
  · simp [listed, newest]

/-- The map made from the index leads to the newest pack. -/
theorem indexMap_newest (id : MetaPackFile → String) (ledger : List MetaPackFile) (oid : String) :
    (indexMap (ledger.map fun f => ⟨id f, f.oids⟩))[oid]? = (newest ledger oid).map id := by
  have inner : ∀ (oids : List String) (pack : String) (map : ExtTreeMap String String),
      (oids.foldl (fun map oid => map.insert oid pack) map)[oid]? =
        if oid ∈ oids then some pack else map[oid]? := by
    intro oids pack
    induction oids with
    | nil => simp
    | cons o rest ih =>
        intro map
        rw [List.foldl_cons, ih, getElem?_insert_eq]
        by_cases later : oid ∈ rest
        · simp [later]
        · by_cases here : oid = o <;> simp [later, here]
  induction ledger using List.reverseRecOn with
  | nil => simp [indexMap, newest]
  | append_singleton ledger last ih =>
      rw [newest_append, indexMap, List.map_append, List.foldl_append, ← indexMap]
      simp only [List.map_cons, List.map_nil, List.foldl_cons, List.foldl_nil]
      rw [inner, ih]
      by_cases listed : oid ∈ last.oids <;> simp [listed]

end Newest

section Export
variable {c : MetaCodec} {tree : MetaTree} {ledger : List MetaPackFile} {call : StoreView × List String}
  {view : StoreView} {objects : List MetaPackObject}

def indexEntry (c : MetaCodec) (f : MetaPackFile) : MetaIndexPack := ⟨packId c f, f.oids⟩

/-- The tree is what the exports of these packs made of it. -/
structure Represents (c : MetaCodec) (tree : MetaTree) (ledger : List MetaPackFile) : Prop where
  index : (tree.index = none ∧ ledger = []) ∨
    ∃ g, tree.index = some (c.indexJson ⟨1, g, ledger.map (indexEntry c)⟩)
  packs : ∀ f ∈ ledger, tree.packs.lookup (packId c f) = some (packBytes c f)
  known : ∀ p ∈ tree.packs, ∃ f ∈ ledger, p = (packId c f, packBytes c f)
  version : ∀ f ∈ ledger, f.version = 1
  single : ∀ f ∈ ledger, ∀ o ∈ f.objects, f.held o.oid = some o.intoEntries

theorem packBytes_injective {f g : MetaPackFile} (h : packBytes c f = packBytes c g) : f = g := by
  have raw := c.decompress_compress 9 (max (c.packJson f).length (c.packJson g).length) (c.packJson f)
    (Nat.le_max_left _ _)
  rw [packBytes, packBytes] at h
  rw [h, c.decompress_compress 9 _ (c.packJson g) (Nat.le_max_right _ _), Except.ok.injEq] at raw
  have file := c.packFromJson_packJson f
  rw [← raw, c.packFromJson_packJson, Except.ok.injEq] at file
  exact file.symm

/-- The description of the first object, and of the others. -/
theorem exportObjects_cons {name : String} {rest : List String}
    (h : exportObjects view (name :: rest) = .ok objects) : ∃ manifest runs others,
      view.assetManifest name = .ok manifest ∧ view.chunkMapRuns name = .ok runs ∧
        exportObjects view rest = .ok others ∧ objects = ⟨name, manifest, [], runs⟩ :: others := by
  rw [exportObjects] at h
  cases first : view.assetManifest name with
  | error e => rw [first] at h; cases h
  | ok manifest =>
      cases second : view.chunkMapRuns name with
      | error e => rw [first, second] at h; cases h
      | ok runs =>
          cases third : exportObjects view rest with
          | error e => rw [first, second, third] at h; cases h
          | ok others =>
              rw [first, second, third] at h
              cases h
              exact ⟨manifest, runs, others, rfl, rfl, rfl, rfl⟩

theorem exportObjects_oids {names : List String} (h : exportObjects view names = .ok objects) :
    objects.map MetaPackObject.oid = names := by
  induction names generalizing objects with
  | nil =>
      cases h
      rfl
  | cons name rest ih =>
      obtain ⟨manifest, runs, others, -, -, third, rfl⟩ := exportObjects_cons h
      rw [List.map_cons, ih third]

/-- An object listed twice is described twice by the same words. -/
theorem exportObjects_held {names : List String} (h : exportObjects view names = .ok objects)
    {o : MetaPackObject} (mem : o ∈ objects) :
    heldIn objects o.oid = some o.intoEntries := by
  have described : ∀ {names : List String} {objects : List MetaPackObject}, exportObjects view names = .ok objects →
      ∀ o ∈ objects, ∃ m runs, view.assetManifest o.oid = .ok m ∧ view.chunkMapRuns o.oid = .ok runs ∧
        o = ⟨o.oid, m, [], runs⟩ := by
    intro names
    induction names with
    | nil =>
        intro objects h o mem
        cases h
        cases mem
    | cons name rest ih =>
        intro objects h o mem
        obtain ⟨manifest, runs, others, first, second, third, rfl⟩ := exportObjects_cons h
        rcases List.mem_cons.mp mem with rfl | later
        · exact ⟨manifest, runs, first, second, rfl⟩
        · exact ih third o later
  have listed : (heldIn objects o.oid).isSome := heldIn_isSome.mpr (List.mem_map_of_mem mem)
  rw [heldIn, Option.isSome_map] at listed
  obtain ⟨o', found⟩ := Option.isSome_iff_exists.mp listed
  have names : o'.oid = o.oid := by simpa using List.find?_some found
  obtain ⟨m, runs, hm, hruns, shape⟩ := described h o mem
  obtain ⟨m', runs', hm', hruns', shape'⟩ :=
    described h o' (List.mem_reverse.mp (List.mem_of_find?_eq_some found))
  rw [names] at hm' hruns' shape'
  rw [hm, Except.ok.injEq] at hm'
  rw [hruns, Except.ok.injEq] at hruns'
  rw [heldIn, found, Option.map_some, shape', shape, hm', hruns']

theorem mem_ledgerAfter {f : MetaPackFile} :
    f ∈ ledgerAfter ledger call ↔ f ∈ ledger ∨ exportedFile call = some f := by
  rw [ledgerAfter]
  cases made : exportedFile call with
  | none => simp
  | some file =>
      by_cases same : f = file
      · simp [same]
      · simp [same, Ne.symm same]

variable (call) in
theorem Represents.exports (h : Represents c tree ledger)
    (clear : ∀ f ∈ ledger, ∀ g, exportedFile call = some g →
      c.hashChunk (packBytes c f) = c.hashChunk (packBytes c g) → packBytes c f = packBytes c g) :
    Represents c (exportMetaPack c call.1 call.2 tree).2 (ledgerAfter ledger call) := by
  rw [exportMetaPack]
  by_cases empty : call.2 = []
  · rw [if_pos empty, ledgerAfter, exportedFile, if_pos empty]
    exact h
  · rw [if_neg empty]
    cases made : exportObjects call.1 call.2 with
    | error e =>
        rw [ledgerAfter, exportedFile, if_neg empty, made]
        exact h
    | ok objects =>
        have file : exportedFile call = some ⟨1, objects⟩ := by
          rw [exportedFile, if_neg empty, made]
        have same : ∀ f ∈ ledger, packId c f = packId c ⟨1, objects⟩ ↔ f = ⟨1, objects⟩ := by
          intro f mem
          refine ⟨fun ids => packBytes_injective (clear f mem _ file (toHex_injective ids)), ?_⟩
          rintro rfl
          rfl
        have names : call.2 = MetaPackFile.oids ⟨1, objects⟩ := (exportObjects_oids made).symm
        have after : ledgerAfter ledger call = ledger.filter (fun f => f ≠ ⟨1, objects⟩) ++ [⟨1, objects⟩] := by
          rw [ledgerAfter, file]
        set f : MetaPackFile := ⟨1, objects⟩ with hf
        set id := packId c f with hid
        dsimp only
        set packs := if (tree.packs.lookup id).isSome then tree.packs else tree.packs ++ [(id, packBytes c f)]
          with hpacks
        have index : (readOrRebuildMetaIndex c { tree with packs }).filter (fun p => p.id ≠ id) =
            (ledger.filter fun g => g ≠ f).map (indexEntry c) := by
          rw [readOrRebuildMetaIndex]
          rcases h.index with ⟨none_, nothing⟩ | ⟨g, some_⟩
          · have single : ∀ p ∈ packs, p = (id, packBytes c f) := by
              intro p mem
              rw [hpacks] at mem
              split at mem
              · obtain ⟨g, there, -⟩ := h.known p mem
                rw [nothing] at there
                cases there
              · rcases List.mem_append.mp mem with old | new
                · obtain ⟨g, there, -⟩ := h.known p old
                  rw [nothing] at there
                  cases there
                · exact List.mem_singleton.mp new
            simp only [none_, nothing, List.filter_nil, List.map_nil]
            refine List.filter_eq_nil_iff.mpr fun entry mem => ?_
            obtain ⟨p, there, rebuilt⟩ := List.mem_filterMap.mp mem
            rw [single p there, rebuildEntry] at rebuilt
            split at rebuilt
            · cases rebuilt
            · split at rebuilt
              · cases rebuilt
              · cases rebuilt
                simp
          · simp only [some_, c.indexFromJson_indexJson, if_true]
            rw [List.filter_map]
            congr 1
            refine List.filter_congr fun g mem => ?_
            simp only [Function.comp_apply, indexEntry, ne_eq, decide_not, same g mem]
        set entries := (readOrRebuildMetaIndex c { tree with packs }).filter (fun p => p.id ≠ id) ++ [⟨id, call.2⟩]
          with hentries
        have listed : entries = (ledgerAfter ledger call).map (indexEntry c) := by
          rw [after, hentries, index, List.map_append, names]
          rfl
        refine ⟨.inr ⟨1 + entries.length, ?_⟩, fun g mem => ?_, fun p mem => ?_, fun g mem => ?_,
          fun g mem => ?_⟩
        · rw [← listed]
        · rcases mem_ledgerAfter.mp mem with old | new
          · have found := h.packs g old
            change packs.lookup (packId c g) = _
            rw [hpacks]
            split
            · exact found
            · rw [List.lookup_append, found]
              rfl
          · rw [file, Option.some.injEq] at new
            subst new
            change packs.lookup id = _
            rw [hpacks]
            split
            · rename_i there
              obtain ⟨bytes, found⟩ := Option.isSome_iff_exists.mp there
              have listed := KeyedList.mem_of_lookup found
              obtain ⟨g, old, pair⟩ := h.known _ listed
              have ids : packId c g = id := (Prod.mk.inj pair).1.symm
              rw [found, (Prod.mk.inj pair).2, (same g old).mp ids]
            · rename_i absent
              rw [List.lookup_append, Option.not_isSome_iff_eq_none.mp absent]
              simp
        · have mem' : p ∈ packs := mem
          rw [hpacks] at mem'
          have old : p ∈ tree.packs → ∃ g ∈ ledgerAfter ledger call, p = (packId c g, packBytes c g) := by
            intro there
            obtain ⟨g, listed, pair⟩ := h.known p there
            exact ⟨g, mem_ledgerAfter.mpr (.inl listed), pair⟩
          split at mem'
          · exact old mem'
          · rcases List.mem_append.mp mem' with there | new
            · exact old there
            · exact ⟨f, mem_ledgerAfter.mpr (.inr file), List.mem_singleton.mp new⟩
        · rcases mem_ledgerAfter.mp mem with old | new
          · exact h.version g old
          · rw [file, Option.some.injEq] at new
            rw [← new]
        · rcases mem_ledgerAfter.mp mem with old | new
          · exact h.single g old
          · rw [file, Option.some.injEq] at new
            intro o there
            rw [← new] at there ⊢
            exact exportObjects_held made there

end Export

section Disk
variable {c : MetaCodec} {tree : MetaTree} {ledger : List MetaPackFile} {call : ResolveCall} {s : MetaState}
  {l2 : ExtTreeMap String Bytes} {f : MetaPackFile}

/-- What can be read of the disk cache came from a pack of the tree. -/
def L2Sound (c : MetaCodec) (ledger : List MetaPackFile) (l2 : ExtTreeMap String Bytes) : Prop :=
  ∀ (oid : String) (bytes : Bytes), l2[oid]? = some bytes → ∀ raw entry,
    c.decompress maxMetaPackBytes bytes = .ok raw → c.l2FromJson raw = .ok entry →
      ∃ f ∈ ledger, f.Fits c ∧ entry.src = packId c f ∧ f.held oid = some entry.resolved

theorem L2Sound.grow {ledger' : List MetaPackFile} (h : L2Sound c ledger l2)
    (sub : ∀ f ∈ ledger, f ∈ ledger') : L2Sound c ledger' l2 := by
  intro oid bytes found raw entry unpack parse
  obtain ⟨f, mem, rest⟩ := h oid bytes found raw entry unpack parse
  exact ⟨f, sub f mem, rest⟩

theorem L2Sound.erase (h : L2Sound c ledger l2) (oid : String) : L2Sound c ledger (l2.erase oid) := by
  intro other bytes found
  rw [getElem?_erase_eq] at found
  split at found
  · cases found
  · exact h other bytes found

theorem L2Sound.insert {oid : String} {m : ResolvedMeta} (h : L2Sound c ledger l2) (mem : f ∈ ledger)
    (fits : f.Fits c) (held : f.held oid = some m) :
    L2Sound c ledger (l2.insert oid (c.compress 3 (c.l2Json ⟨packId c f, m⟩))) := by
  intro other bytes found raw entry unpack parse
  rw [getElem?_insert_eq] at found
  split at found
  · rename_i same
    cases found
    by_cases small : (c.l2Json ⟨packId c f, m⟩).length ≤ maxMetaPackBytes
    · rw [c.decompress_compress _ _ _ small, Except.ok.injEq] at unpack
      rw [← unpack, c.l2FromJson_l2Json, Except.ok.injEq] at parse
      exact ⟨f, mem, fits, by rw [← parse], by rw [← parse, same]; exact held⟩
    · obtain ⟨e, long⟩ := c.decompress_long 3 _ _ (Nat.lt_of_not_le small)
      rw [long] at unpack
      cases unpack
  · exact h other bytes found raw entry unpack parse

/-- A pack that could be read is one of the tree's, and not too large. -/
theorem readMetaPack_ok (h : Represents c tree ledger) {id : String} {file : MetaPackFile}
    (read : readMetaPack c tree call id = .ok file) : file ∈ ledger ∧ id = packId c file ∧ file.Fits c := by
  by_cases served : call.serves (.pack id) = true
  · cases found : tree.file (.pack id) with
    | none =>
        simp only [readMetaPack, getAll, getAllOpt, served, found, if_true, Except.bind, bind] at read
        cases read
    | some bytes =>
        obtain ⟨f, mem, pair⟩ := h.known _ (KeyedList.mem_of_lookup found)
        obtain ⟨ids, same⟩ := Prod.mk.inj pair
        simp only [readMetaPack, getAll, getAllOpt, served, found, if_true, Except.bind, bind, same, packBytes]
          at read
        by_cases fits : f.Fits c
        · have unpack := c.decompress_compress 9 maxMetaPackBytes (c.packJson f) fits
          simp only [unpack, c.packFromJson_packJson, h.version f mem] at read
          cases read
          exact ⟨mem, ids, fits⟩
        · obtain ⟨e, long⟩ := c.decompress_long 9 maxMetaPackBytes (c.packJson f) (Nat.lt_of_not_le fits)
          simp only [long] at read
          cases read
  · simp only [readMetaPack, getAll, getAllOpt, served, Except.bind, bind] at read
    cases read

theorem readMetaPack_fits (h : Represents c tree ledger) (served : ∀ file, call.serves file = true)
    (mem : f ∈ ledger) (fits : f.Fits c) :
    readMetaPack c tree call (packId c f) = .ok f := by
  have unpack := c.decompress_compress 9 maxMetaPackBytes (c.packJson f) fits
  have found : tree.file (.pack (packId c f)) = some (packBytes c f) := h.packs f mem
  simp only [readMetaPack, getAll, getAllOpt, served, if_true, found, Except.bind, bind, packBytes, unpack,
    c.packFromJson_packJson, h.version f mem]
  rfl

theorem l2Get_l2 (h : L2Sound c ledger s.l2) (oid : String) : L2Sound c ledger (l2Get c oid s).2.l2 := by
  rw [l2Get]
  split
  · split
    · exact h
    · split
      · exact h
      · split
        · exact h
        · exact h.erase oid
  · exact h

/-- Reading the disk cache changes nothing but the disk cache. -/
theorem l2Get_rest (oid : String) : ∃ l2, (l2Get c oid s).2 = { s with l2 } := by
  rw [l2Get]
  split
  · split
    · exact ⟨s.l2, rfl⟩
    · split
      · exact ⟨s.l2, rfl⟩
      · split
        · exact ⟨s.l2, rfl⟩
        · exact ⟨s.l2.erase oid, rfl⟩
  · exact ⟨s.l2, rfl⟩

theorem l2Get_some (h : L2Sound c ledger s.l2) {oid : String} {entry : L2Entry}
    (found : (l2Get c oid s).1 = some entry) :
    ∃ f ∈ ledger, f.Fits c ∧ entry.src = packId c f ∧ f.held oid = some entry.resolved := by
  rw [l2Get] at found
  split at found
  · split at found
    · cases found
    · rename_i bytes there
      split at found
      · cases found
      · rename_i raw unpack
        split at found
        · rename_i entry' parse
          cases found
          exact h oid bytes there raw entry unpack parse
        · cases found
  · cases found

/-- What the caches hold after the objects of a pack were filled in. -/
theorem fill_l1 (id : String) (objects : List MetaPackObject) (oid : String) :
    (objects.foldl (fillObject c call id) s).l1[oid]? = (heldIn objects oid).or s.l1[oid]? := by
  induction objects generalizing s with
  | nil => rfl
  | cons o rest ih =>
      have here : (fillObject c call id s o).l1[oid]? =
          (if o.oid = oid then some o.intoEntries else none).or s.l1[oid]? := by
        have kept : (l2Put c call o.oid ⟨id, o.intoEntries⟩ s).l1 = s.l1 := by
          rw [l2Put]
          split <;> rfl
        rw [fillObject, getElem?_insert_eq, kept]
        by_cases same : oid = o.oid
        · simp [same]
        · simp [same, Ne.symm same]
      rw [List.foldl_cons, ih, heldIn_cons, here, Option.or_assoc]

variable (call s) in
theorem fill_rest (id : String) (objects : List MetaPackObject) :
    (objects.foldl (fillObject c call id) s).index = s.index ∧
      (objects.foldl (fillObject c call id) s).fetchedPacks = s.fetchedPacks ∧
      (objects.foldl (fillObject c call id) s).indexMissingUntil = s.indexMissingUntil := by
  induction objects generalizing s with
  | nil => exact ⟨rfl, rfl, rfl⟩
  | cons o rest ih =>
      obtain ⟨index, packs, waits⟩ := ih (s := fillObject c call id s o)
      rw [List.foldl_cons, index, packs, waits, fillObject, l2Put]
      split <;> exact ⟨rfl, rfl, rfl⟩

/-- The disk entries that a pack leaves say what the pack says. -/
theorem fill_l2 (mem : f ∈ ledger) (fits : f.Fits c) {objects : List MetaPackObject}
    (single : ∀ o ∈ objects, f.held o.oid = some o.intoEntries) (h : L2Sound c ledger s.l2) :
    L2Sound c ledger (objects.foldl (fillObject c call (packId c f)) s).l2 := by
  induction objects generalizing s with
  | nil => exact h
  | cons o rest ih =>
      rw [List.foldl_cons]
      apply ih
      · intro o' later
        exact single o' (List.mem_cons_of_mem o later)
      · rw [fillObject, l2Put]
        split
        · exact h.insert mem fits (single o List.mem_cons_self)
        · exact h

variable (call) in
theorem fetchMetaPack_l2 (h : Represents c tree ledger) (sound : L2Sound c ledger s.l2) (id : String) :
    L2Sound c ledger (fetchMetaPack c tree call id s).2.l2 := by
  rw [fetchMetaPack]
  cases read : readMetaPack c tree call id with
  | error e => exact sound
  | ok file =>
      obtain ⟨mem, ids, fits⟩ := readMetaPack_ok h read
      rw [ids]
      exact fill_l2 mem fits (h.single file mem) sound

theorem resolveSingle_l2 : (resolveSingle c tree call s).2.l2 = s.l2 := by
  rw [resolveSingle]
  split <;> rfl

theorem resolvePack_l2 (h : Represents c tree ledger) (sound : L2Sound c ledger s.l2) (id : String) :
    L2Sound c ledger (resolvePack c tree call id s).2.l2 := by
  have fetched := fetchMetaPack_l2 call h sound id
  rw [resolvePack]
  split
  · rw [resolveSingle_l2]
    exact sound
  · split
    · rename_i found
      rw [found] at fetched
      exact fetched
    · rename_i found
      rw [found] at fetched
      rw [resolveSingle_l2]
      exact fetched
    · rename_i found
      rw [found] at fetched
      rw [resolveSingle_l2]
      exact fetched

theorem resolveMapped_l2 (h : Represents c tree ledger) (sound : L2Sound c ledger s.l2) (id : String) :
    L2Sound c ledger (resolveMapped c tree call id s).2.l2 := by
  have got := l2Get_l2 sound call.oid
  rw [resolveMapped]
  split
  · rename_i found
    rw [found] at got
    split
    · exact got
    · exact resolvePack_l2 h got id
  · rename_i found
    rw [found] at got
    exact resolvePack_l2 h got id

variable (c tree call s) in
theorem ensureIndex_l2 : (ensureIndex c tree call s).2.l2 = s.l2 := by
  rw [ensureIndex]
  cases s.index with
  | some index => rfl
  | none =>
      dsimp only
      split
      · rfl
      · cases getAllOpt tree call .index with
        | error e => rfl
        | ok bytes =>
            cases bytes with
            | none => rfl
            | some bytes =>
                dsimp only
                cases c.indexFromJson bytes with
                | error e => rfl
                | ok file =>
                    dsimp only
                    split <;> rfl

/-- Whatever is asked for and whatever is answered, the disk cache stays sound. -/
theorem resolve_l2 (h : Represents c tree ledger) (sound : L2Sound c ledger s.l2) :
    L2Sound c ledger (resolve c tree call s).2.l2 := by
  have indexed := ensureIndex_l2 c tree call s
  rw [resolve]
  split
  · exact sound
  · split
    · rename_i found
      rw [found] at indexed
      rw [indexed]
      exact sound
    · rename_i found
      rw [found] at indexed
      have kept : L2Sound c ledger _ := indexed ▸ sound
      split
      · exact resolveMapped_l2 h kept _
      · rw [resolveSingle_l2]
        exact kept

theorem resolveAll_l2 (h : Represents c tree ledger) (calls : List ResolveCall) (sound : L2Sound c ledger s.l2) :
    L2Sound c ledger (resolveAll c tree calls s).2.l2 := by
  induction calls generalizing s with
  | nil => exact sound
  | cons call rest ih => exact ih (resolve_l2 h sound)

end Disk

section History
variable {c : MetaCodec}

/-- After any history the tree is what its exports made of it, and the disk cache is sound. -/
theorem foldl_runEvent (events : List MetaEvent) :
    ∀ (w : MetaTree × ExtTreeMap String Bytes) (ledger : List MetaPackFile),
      Represents c w.1 ledger → L2Sound c ledger w.2 →
      (∀ f ∈ ledger ++ (events.filterMap MetaEvent.exportCall).filterMap exportedFile,
        ∀ g ∈ ledger ++ (events.filterMap MetaEvent.exportCall).filterMap exportedFile,
          c.hashChunk (packBytes c f) = c.hashChunk (packBytes c g) → packBytes c f = packBytes c g) →
      Represents c (events.foldl (runEvent c) w).1 ((events.filterMap MetaEvent.exportCall).foldl ledgerAfter ledger) ∧
        L2Sound c ((events.filterMap MetaEvent.exportCall).foldl ledgerAfter ledger)
          (events.foldl (runEvent c) w).2 := by
  induction events with
  | nil =>
      intro w ledger tree sound clear
      exact ⟨tree, sound⟩
  | cons event rest ih =>
      intro w ledger tree sound clear
      cases event with
      | exports view names =>
          simp only [List.foldl_cons, List.filterMap_cons, MetaEvent.exportCall] at clear ⊢
          have members : ∀ f, f ∈ ledgerAfter ledger (view, names) ++
              (rest.filterMap MetaEvent.exportCall).filterMap exportedFile → f ∈ ledger ++
              ((view, names) :: rest.filterMap MetaEvent.exportCall).filterMap exportedFile := by
            intro f mem
            rcases List.mem_append.mp mem with now | later
            · rcases mem_ledgerAfter.mp now with old | new
              · exact List.mem_append.mpr (.inl old)
              · exact List.mem_append.mpr (.inr (List.mem_filterMap.mpr ⟨_, List.mem_cons_self, new⟩))
            · obtain ⟨call, there, made⟩ := List.mem_filterMap.mp later
              exact List.mem_append.mpr
                (.inr (List.mem_filterMap.mpr ⟨call, List.mem_cons_of_mem _ there, made⟩))
          apply ih
          · apply Represents.exports (view, names) tree
            intro f mem g made
            exact clear f (List.mem_append.mpr (.inl mem)) g
              (List.mem_append.mpr (.inr (List.mem_filterMap.mpr ⟨_, List.mem_cons_self, made⟩)))
          · exact sound.grow fun f mem => mem_ledgerAfter.mpr (.inl mem)
          · intro f mem g mem'
            exact clear f (members f mem) g (members g mem')
      | assets manifests chunkMaps =>
          exact ih _ ledger ⟨tree.index, tree.packs, tree.known, tree.version, tree.single⟩ sound clear
      | session calls => exact ih _ ledger tree (resolveAll_l2 tree calls sound) clear

theorem runEvents_sound {calls : List (StoreView × List String)} (clear : NoCollision c calls)
    {events : List MetaEvent} (exported : events.filterMap MetaEvent.exportCall = calls) :
    Represents c (runEvents c events).1 (ledgerOf calls) ∧ L2Sound c (ledgerOf calls) (runEvents c events).2 := by
  subst exported
  apply foldl_runEvent
  · constructor
    · exact .inl ⟨rfl, rfl⟩
    all_goals simp
  · intro oid bytes found
    simp at found
  · simpa [NoCollision] using clear

end History

end Cavs
