import Cavs.Journal

/-!
# What applying a journal record does

The record a save writes, applied to any ledger, sets exactly the entries the
save touched. The inline asset records come back at the offsets the encoder
promised, and those offsets hold their bytes.
-/
namespace Cavs
open FileProg (Bytes)
open ByteScan
open Std (ExtTreeMap ExtTreeSet)
open Index (delta dropAsset dropChunk generation keepInline layout upsert)

/-- A fold whose every step changes the value at its own key only. -/
theorem foldl_keyed {X S K V : Type} [DecidableEq K] (get : S → K → V) (key : X → K)
    (step : S → X → S) (val : X → V → V)
    (hstep : ∀ s x k, get (step s x) k = if k = key x then val x (get s k) else get s k)
    (l : List X) (distinct : (l.map key).Nodup) (s : S) (k : K) :
    (∀ x ∈ l, k = key x → get (l.foldl step s) k = val x (get s k)) ∧
      (k ∉ l.map key → get (l.foldl step s) k = get s k) := by
  induction l generalizing s with
  | nil => simp
  | cons y ys ih =>
      rw [List.map_cons, List.nodup_cons] at distinct
      obtain ⟨hit, miss⟩ := ih distinct.2 (step s y)
      refine ⟨?_, ?_⟩
      · rintro x hx rfl
        rw [List.foldl_cons]
        cases hx with
        | head => rw [miss distinct.1, hstep, if_pos rfl]
        | tail _ hx =>
            have other : key x ≠ key y := fun same =>
              distinct.1 (same ▸ List.mem_map_of_mem hx)
            rw [hit x hx rfl, hstep, if_neg other]
      · intro absent
        rw [List.map_cons, List.mem_cons, not_or] at absent
        rw [List.foldl_cons, miss absent.2, hstep, if_neg absent.1]

theorem places_append_mem {X : Type} {enc : X → Bytes} {p : Nat} {xs : List X} {q : Nat × X}
    (h : q ∈ places enc p xs) :
    ∃ l r, xs.flatMap enc = l ++ (enc q.2 ++ r) ∧ q.1 = p + l.length := by
  induction xs generalizing p with
  | nil => cases h
  | cons x xs ih =>
      cases h with
      | head => exact ⟨[], xs.flatMap enc, by simp, by simp⟩
      | tail _ h =>
          obtain ⟨l, r, split, at_⟩ := ih h
          exact ⟨enc x ++ l, r, by simp [split], by simp [at_]; omega⟩

theorem places_shift {X : Type} (enc : X → Bytes) (p k : Nat) (xs : List X) :
    places enc (p + k) xs = (places enc p xs).map fun q => (q.1 + k, q.2) := by
  induction xs generalizing p with
  | nil => rfl
  | cons x xs ih => simp only [places, List.map_cons, ← ih, Nat.add_right_comm]

theorem places_foldl {X S : Type} (enc : X → Bytes) (f : S → X → S) (p : Nat) (xs : List X) (s : S) :
    (places enc p xs).foldl (fun s q => f s q.2) s = xs.foldl f s := by
  rw [← List.foldl_map, places_map_snd]

section Delta
variable {index : Index} {dirtyChunks dirtyAssets : ExtTreeSet String}

theorem mem_dirty {α : Type} {dirty : ExtTreeSet String} {f : String → Option α} {x : String × α} :
    x ∈ (dirty.toList.filterMap fun k => (f k).map fun v => (k, v)) ↔ x.1 ∈ dirty ∧ f x.1 = some x.2 := by
  obtain ⟨k, v⟩ := x
  simp only [List.mem_filterMap, ExtTreeSet.mem_toList, Option.map_eq_some_iff, Prod.mk.injEq]
  constructor
  · rintro ⟨k', dirty, v', found, rfl, rfl⟩
    exact ⟨dirty, found⟩
  · rintro ⟨dirty, found⟩
    exact ⟨k, dirty, v, found, rfl, rfl⟩

theorem mem_upserts {entry : String × ChunkInfo} :
    entry ∈ (index.delta dirtyChunks dirtyAssets).upserts ↔
      entry.1 ∈ dirtyChunks ∧ index.chunks[entry.1]? = some entry.2 := mem_dirty

theorem mem_removals {hex : String} :
    hex ∈ (index.delta dirtyChunks dirtyAssets).removals ↔
      hex ∈ dirtyChunks ∧ index.chunks[hex]? = none := by
  simp [delta]

theorem mem_assetPuts {put : String × List String} :
    put ∈ (index.delta dirtyChunks dirtyAssets).assetPuts ↔
      put.1 ∈ dirtyAssets ∧ index.assets[put.1]? = some put.2 := mem_dirty

theorem mem_assetDels {name : String} :
    name ∈ (index.delta dirtyChunks dirtyAssets).assetDels ↔
      name ∈ dirtyAssets ∧ index.assets[name]? = none := by
  simp [delta]

theorem dirty_nodup (dirty : ExtTreeSet String) : dirty.toList.Nodup := by
  refine (ExtTreeSet.distinct_toList (t := dirty)).imp ?_
  rintro a b differ rfl
  exact differ Std.ReflCmp.compare_self

theorem filterMap_keys {α : Type} (l : List String) (f : String → Option α) :
    (l.filterMap fun k => (f k).map fun v => (k, v)).map Prod.fst = l.filter fun k => (f k).isSome := by
  induction l with
  | nil => rfl
  | cons k ks ih => cases h : f k <;> simp [h, ih]

theorem upserts_nodup :
    ((index.delta dirtyChunks dirtyAssets).upserts.map Prod.fst).Nodup := by
  rw [delta, filterMap_keys]
  exact (dirty_nodup _).filter _

theorem removals_nodup : (index.delta dirtyChunks dirtyAssets).removals.Nodup :=
  (dirty_nodup _).filter _

theorem assetPuts_nodup :
    ((index.delta dirtyChunks dirtyAssets).assetPuts.map Prod.fst).Nodup := by
  rw [delta, filterMap_keys]
  exact (dirty_nodup _).filter _

theorem assetDels_nodup : (index.delta dirtyChunks dirtyAssets).assetDels.Nodup :=
  (dirty_nodup _).filter _

end Delta

/-- What a record must fit for a reader to take back what was written: every count
and length its field, and no number one that stands for a missing value. -/
structure Delta.Fits (d : Delta) (index : Index) (pending : ExtTreeMap String Bytes) : Prop where
  packs : d.packs.length < 2 ^ 16
  upserts : d.upserts.length < 2 ^ 32
  removals : d.removals.length < 2 ^ 32
  assetPuts : d.assetPuts.length < 2 ^ 32
  assetDels : d.assetDels.length < 2 ^ 32
  chunk : ∀ entry ∈ d.upserts, entry.2.Fits
  putName : ∀ put ∈ d.assetPuts, (strBytes put.1).length < 2 ^ 16
  delName : ∀ name ∈ d.assetDels, (strBytes name).length < 2 ^ 16
  putChunks : ∀ put ∈ d.assetPuts, put.2.length < 2 ^ 32
  staged : ∀ put ∈ d.assetPuts, ∀ bytes, pending[put.1]? = some bytes → bytes.length < 2 ^ 32
  placed : ∀ put ∈ d.assetPuts, ∀ pack offset len,
    index.records[put.1]? = some (.pack pack offset len) → offset < 2 ^ 32 ∧ len < 2 ^ 32
  body : (d.body index pending).length < 2 ^ 32

/-- The names in a record are hex, and its entries have an offset with each pack. -/
structure Delta.Canon (d : Delta) : Prop where
  upserts : ∀ entry ∈ d.upserts, IsHex entry.1 ∧ entry.2.Placed
  removals : ∀ hex ∈ d.removals, IsHex hex
  assetPuts : ∀ put ∈ d.assetPuts, ∀ hex ∈ put.2, IsHex hex

/-- What one asset entry does to a ledger, when it starts at `pos` of the body. -/
def putStep (file : JournalFile) (base : Nat) (source : Index) (pending : ExtTreeMap String Bytes)
    (index : Index) (pos : Nat) (put : String × List String) : Index :=
  (match pending[put.1]?, source.records[put.1]? with
    | some bytes, _ =>
        index.setRecord put.1 (.journal file (base + (pos + (assetHead put).length + 5)) bytes.length)
    | none, some (.pack pack offset len) => index.setRecord put.1 (.pack pack offset len)
    | none, _ => index.keepInline put.1).setAsset put.1 put.2

def Delta.applyChunks (d : Delta) (index : Index) : Index :=
  d.removals.foldl dropChunk (d.upserts.foldl upsert index)

def Delta.placed (d : Delta) (source : Index) (pending : ExtTreeMap String Bytes) :
    List (Nat × String × List String) :=
  places (assetPut source pending) d.front.length d.assetPuts

def Delta.applyPuts (d : Delta) (file : JournalFile) (base : Nat) (source : Index)
    (pending : ExtTreeMap String Bytes) (index : Index) : Index :=
  (d.placed source pending).foldl
    (fun index q => putStep file base source pending index q.1 q.2) index

def Delta.apply (d : Delta) (file : JournalFile) (base : Nat) (source : Index)
    (pending : ExtTreeMap String Bytes) (index : Index) : Index :=
  d.assetDels.foldl dropAsset (d.applyPuts file base source pending (d.applyChunks index))

section Apply
variable {file : JournalFile} {base : Nat} {source : Index} {pending : ExtTreeMap String Bytes}
  {d : Delta}

theorem applyAssetPut_scans (put : String × List String)
    (name : (strBytes put.1).length < 2 ^ 16) (hex : ∀ c ∈ put.2, IsHex c)
    (few : put.2.length < 2 ^ 32)
    (staged : ∀ bytes, pending[put.1]? = some bytes → bytes.length < 2 ^ 32)
    (placed : ∀ pack offset len, source.records[put.1]? = some (.pack pack offset len) →
      offset < 2 ^ 32 ∧ len < 2 ^ 32) (index : Index) (pos : Nat) :
    Scans (applyAssetPut file base) index pos (assetPut source pending put) ()
      (putStep file base source pending index pos put) := by
  rw [assetPut, assetHead, List.append_assoc]
  refine (readText_scans name).bind ((readHexes_scans hex few).bind ?_)
  have last : ∀ (index' : Index) (q : Nat), Scans (Scan.modify fun index : Index =>
      index.setAsset put.1 put.2) index' q [] () (index'.setAsset put.1 put.2) (ε := StoreError) :=
    fun _ _ => .modify _
  cases hp : pending[put.1]? with
  | some bytes =>
      refine (Scans.num (n := 2) (by decide)).bind (Scans.bind_pure (x := ()) (t := index.setRecord
        put.1 (.journal file (base + (pos + (assetHead put).length + 5)) bytes.length)) ?_ ?_)
      · refine (Scans.num (by have := staged bytes hp; omega)).bind ?_
        refine .pure_bind Scans.position ?_
        refine (Scans.take rfl).bind_pure ((Scans.modify _).to ?_)
        simp only [assetHead, List.length_append, le_length, Nat.add_assoc]
      · simpa only [putStep, hp] using last _ _
  | none =>
      cases hr : source.records[put.1]? with
      | none =>
          refine (Scans.num (n := 0) (by decide)).bind_pure ?_
          refine (Scans.modify _).pure_bind ((last _ _).to ?_)
          simp only [putStep, hp, hr]
      | some ref =>
          cases ref with
          | journal f o l =>
              refine (Scans.num (n := 0) (by decide)).bind_pure ?_
              refine (Scans.modify _).pure_bind ((last _ _).to ?_)
              simp only [putStep, hp, hr]
          | pack pack offset len =>
              obtain ⟨ho, hl⟩ := placed pack offset len hr
              refine (Scans.num (n := 1) (by decide)).bind (Scans.bind_pure (x := ())
                (t := index.setRecord put.1 (.pack pack offset len)) ?_ ?_)
              · refine Scans.bind_pure (x := .pack pack offset len) ?_ (Scans.modify _)
                refine (readHash_scans pack).bind ((Scans.num (by omega)).bind
                  ((Scans.num (by omega)).bind_pure (Scans.pure _)))
              · simpa only [putStep, hp, hr] using last _ _

theorem chunkRecord_length (w : Nat) (packs : List String) (entry : String × ChunkInfo) :
    (chunkRecord w packs entry).length = 68 + w := by
  simp only [chunkRecord, List.length_append, le_length, (hexHash entry.1).2]
  omega

/-- The record a save writes applies to any ledger, and reads to its end. -/
theorem applyJournalRecord_scans (fits : d.Fits source pending) (canon : d.Canon) (index : Index) :
    Scans (applyJournalRecord file base) index 0 (d.body source pending) ()
      (d.apply file base source pending index) := by
  have packsFit : ∀ q ∈ d.packs, (strBytes q).length < 2 ^ 16 := by
    intro q hq
    obtain ⟨info, hinfo, found⟩ := mem_packTable.mp hq
    obtain ⟨entry, hentry, rfl⟩ := List.mem_map.mp hinfo
    exact (fits.chunk entry hentry).pack q found
  have packs := Scans.collect (s := index) (m := readText "pack id not utf-8") textBytes
    id d.packs fun q hq _ => readText_scans (packsFit q hq)
  have upserts : ∀ p, Scans _ index p _ _ (d.upserts.foldl upsert index) := fun p =>
    (Scans.times (chunkRecord 2 d.packs) d.upserts
    (fun index _ entry => index.upsert entry)
    (m := do
      let entry ← readChunkRecord 2 d.packs
      Scan.modify fun index : Index => index.upsert entry)
    (fun entry hentry index p => by
      refine (readChunkRecord_scans (canon.upserts entry hentry).1 (fits.chunk entry hentry)
        (canon.upserts entry hentry).2 (fun q hq => ?_) fits.packs).bind_pure (.modify _)
      exact mem_packTable.mpr ⟨_, List.mem_map_of_mem hentry, hq⟩) index p).to (places_foldl ..)
  have removals : ∀ index' p, Scans _ index' p _ _ (d.removals.foldl dropChunk index') :=
    fun index' p => (Scans.times (fun hex => (hexHash hex).1) d.removals
    (fun index _ hex => index.dropChunk hex)
    (m := do
      let hash ← readHash
      Scan.modify fun index : Index => index.dropChunk (toHex hash))
    (fun hex hhex index p => by
      refine (readHash_scans _).bind_pure ((Scans.modify _).to ?_)
      rw [toHex_hexHash (canon.removals hex hhex)]) index' p).to (places_foldl ..)
  have puts := Scans.times (assetPut source pending) d.assetPuts
    (m := applyAssetPut file base) (putStep file base source pending)
    (fun put hput index p => applyAssetPut_scans put (fits.putName put hput)
      (canon.assetPuts put hput) (fits.putChunks put hput) (fits.staged put hput)
      (fits.placed put hput) index p)
  have dels : ∀ index' p, Scans _ index' p _ _ (d.assetDels.foldl dropAsset index') :=
    fun index' p => (Scans.times textBytes d.assetDels
    (fun index _ name => index.dropAsset name)
    (m := do
      let name ← readText "asset name not utf-8"
      Scan.modify fun index : Index => index.dropAsset name)
    (fun name hname index p => (readText_scans (fits.delName name hname)).bind_pure (.modify _))
      index' p).to (places_foldl ..)
  have upsertsSize : (d.upserts.flatMap (chunkRecord 2 d.packs)).length = d.upserts.length * 70 :=
    flatMap_length_const _ fun entry _ => chunkRecord_length 2 _ entry
  have removalsSize : (d.removals.flatMap fun hex => (hexHash hex).1).length = d.removals.length * 32 :=
    flatMap_length_const _ fun hex _ => (hexHash hex).2
  have front : d.body source pending = le 2 d.packs.length ++ (d.packs.flatMap textBytes ++
      (le 4 d.upserts.length ++ (d.upserts.flatMap (chunkRecord 2 d.packs) ++
      (le 4 d.removals.length ++ (d.removals.flatMap (fun hex => (hexHash hex).1) ++
      (le 4 d.assetPuts.length ++ (d.assetPuts.flatMap (assetPut source pending) ++
      (le 4 d.assetDels.length ++ d.assetDels.flatMap textBytes)))))))) := by
    simp only [Delta.body, Delta.front, List.append_assoc]
  rw [front]
  refine (Scans.num fits.packs).bind ((packs _).bind ?_)
  rw [List.map_id]
  refine (Scans.num fits.upserts).bind (Scans.remaining fun r enough => ?_)
  refine (check_scans (decide_eq_true ?_)).pure_bind ?_
  · rw [List.length_append, upsertsSize] at enough
    omega
  refine (upserts _).bind ((Scans.num fits.removals).bind (Scans.remaining fun r enough => ?_))
  refine (check_scans (decide_eq_true ?_)).pure_bind ?_
  · rw [List.length_append, removalsSize] at enough
    omega
  refine (removals _ _).bind ((Scans.num fits.assetPuts).bind ?_)
  refine Scans.bind (x := ()) (t := d.applyPuts file base source pending (d.applyChunks index)) ?_ ?_
  · refine (puts _ _).to ?_
    rw [Delta.applyPuts, Delta.placed, Delta.applyChunks]
    congr 2
    simp only [Delta.front, List.length_append]
    omega
  · exact (Scans.num fits.assetDels).bind (dels _ _)

end Apply

theorem foldl_fixed {X S V : Type} (g : S → V) (step : S → X → S) (h : ∀ s x, g (step s x) = g s)
    (l : List X) (s : S) : g (l.foldl step s) = g s := by
  induction l generalizing s with
  | nil => rfl
  | cons x xs ih => rw [List.foldl_cons, ih, h]

section Pointwise
variable (file : JournalFile) (base : Nat) (source : Index) (pending : ExtTreeMap String Bytes)
  (dirtyChunks dirtyAssets : ExtTreeSet String) (index : Index)

@[simp] theorem keepInline_chunks (name : String) : (index.keepInline name).chunks = index.chunks := by
  rw [keepInline]; split <;> rfl

@[simp] theorem keepInline_assets (name : String) : (index.keepInline name).assets = index.assets := by
  rw [keepInline]; split <;> rfl

@[simp] theorem keepInline_layout (name : String) : (index.keepInline name).layout = index.layout := by
  rw [keepInline]; split <;> rfl

@[simp] theorem keepInline_generation (name : String) :
    (index.keepInline name).generation = index.generation := by
  rw [keepInline]; split <;> rfl

theorem putStep_other (pos : Nat) (put : String × List String) :
    (putStep file base source pending index pos put).chunks = index.chunks ∧
      (putStep file base source pending index pos put).assets = index.assets.insert put.1 put.2 ∧
      (putStep file base source pending index pos put).layout = index.layout ∧
      (putStep file base source pending index pos put).generation = index.generation := by
  rw [putStep]
  split <;> simp [Index.setRecord, Index.setAsset]

/-- What is left of a record's place when its asset is listed without one. -/
def keptInline : Option RecordRef → Option RecordRef
  | some (.journal file offset len) => some (.journal file offset len)
  | _ => none

/-- The entry a ledger has for an asset's record after the asset was listed at `pos`. -/
def putRecord (pos : Nat) (put : String × List String) (old : Option RecordRef) : Option RecordRef :=
  match pending[put.1]?, source.records[put.1]? with
  | some bytes, _ =>
      some (.journal file (base + (pos + (assetHead put).length + 5)) bytes.length)
  | none, some (.pack pack offset len) => some (.pack pack offset len)
  | none, _ => keptInline old

theorem putStep_records (pos : Nat) (put : String × List String) (name : String) :
    (putStep file base source pending index pos put).records[name]? =
      if name = put.1 then putRecord file base source pending pos put index.records[name]?
      else index.records[name]? := by
  have keep : (index.keepInline put.1).records[name]? = if name = put.1 then
      keptInline index.records[name]? else index.records[name]? := by
    by_cases same : name = put.1
    · subst same
      rw [keepInline, if_pos rfl]
      split
      · rename_i found; rw [found, keptInline]
      · rename_i other
        rw [getElem?_erase_eq, if_pos rfl, keptInline]
        exact other
    · rw [keepInline, if_neg same]
      split
      · rfl
      · rw [getElem?_erase_eq, if_neg same]
  cases hp : pending[put.1]? with
  | some bytes =>
      simp only [putStep, putRecord, hp]
      exact getElem?_insert_eq ..
  | none =>
      cases hr : source.records[put.1]? with
      | none => simp only [putStep, putRecord, hp, hr]; exact keep
      | some ref =>
          cases ref with
          | journal => simp only [putStep, putRecord, hp, hr]; exact keep
          | pack =>
              simp only [putStep, putRecord, hp, hr]
              exact getElem?_insert_eq ..

theorem applyChunks_other (d : Delta) :
    (d.applyChunks index).assets = index.assets ∧ (d.applyChunks index).records = index.records ∧
      (d.applyChunks index).layout = index.layout ∧
      (d.applyChunks index).generation = index.generation := by
  have fixed : ∀ {V : Type} (g : Index → V), (∀ i e, g (upsert i e) = g i) →
      (∀ i h, g (dropChunk i h) = g i) → g (d.applyChunks index) = g index :=
    fun g up down => (foldl_fixed _ _ down _ _).trans (foldl_fixed _ _ up _ _)
  exact ⟨fixed _ (fun _ _ => rfl) fun _ _ => rfl, fixed _ (fun _ _ => rfl) fun _ _ => rfl,
    fixed _ (fun _ _ => rfl) fun _ _ => rfl, fixed _ (fun _ _ => rfl) fun _ _ => rfl⟩

theorem applyChunks_chunks (hex : String) :
    ((source.delta dirtyChunks dirtyAssets).applyChunks index).chunks[hex]? =
      if hex ∈ dirtyChunks then source.chunks[hex]? else index.chunks[hex]? := by
  obtain ⟨dropped, kept⟩ := foldl_keyed (fun i (k : String) => i.chunks[k]?) id
    dropChunk (fun _ _ => none)
    (fun i x k => getElem?_erase_eq i.chunks x k) (source.delta dirtyChunks dirtyAssets).removals
    (by rw [List.map_id]; exact removals_nodup)
    ((source.delta dirtyChunks dirtyAssets).upserts.foldl upsert index) hex
  obtain ⟨set, left⟩ := foldl_keyed (fun i (k : String) => i.chunks[k]?) Prod.fst
    upsert (fun x _ => some x.2)
    (fun i x k => getElem?_insert_eq i.chunks x.1 k x.2)
    (source.delta dirtyChunks dirtyAssets).upserts upserts_nodup index hex
  rw [List.map_id] at kept
  by_cases dirty : hex ∈ dirtyChunks
  · rw [if_pos dirty]
    cases found : source.chunks[hex]? with
    | none => exact dropped hex (mem_removals.mpr ⟨dirty, found⟩) rfl
    | some info =>
        exact (kept (by simp [mem_removals, found])).trans
          (set (hex, info) (mem_upserts.mpr ⟨dirty, found⟩) rfl)
  · rw [if_neg dirty]
    refine (kept (by simp [mem_removals, dirty])).trans (left ?_)
    rintro listed
    obtain ⟨entry, h, rfl⟩ := List.mem_map.mp listed
    exact dirty (mem_upserts.mp h).1

theorem applyPuts_other (d : Delta) :
    (d.applyPuts file base source pending index).chunks = index.chunks ∧
      (d.applyPuts file base source pending index).layout = index.layout ∧
      (d.applyPuts file base source pending index).generation = index.generation := by
  have step := fun (i : Index) (q : Nat × String × List String) =>
    putStep_other file base source pending i q.1 q.2
  exact ⟨foldl_fixed Index.chunks _ (fun i q => (step i q).1) _ _,
    foldl_fixed layout _ (fun i q => (step i q).2.2.1) _ _,
    foldl_fixed generation _ (fun i q => (step i q).2.2.2) _ _⟩

theorem placed_keys (d : Delta) :
    (d.placed source pending).map (fun q => q.2.1) = d.assetPuts.map Prod.fst := by
  rw [Delta.placed, ← places_map_snd (assetPut source pending) d.front.length d.assetPuts,
    List.map_map, places_map_snd]
  rfl

theorem mem_placed {d : Delta} {put : String × List String} (h : put ∈ d.assetPuts) :
    ∃ pos, (pos, put) ∈ d.placed source pending := by
  rw [← places_map_snd (assetPut source pending) d.front.length d.assetPuts] at h
  obtain ⟨⟨pos, put'⟩, mem, rfl⟩ := List.mem_map.mp h
  exact ⟨pos, mem⟩

theorem placed_mem {d : Delta} {q : Nat × String × List String} (h : q ∈ d.placed source pending) :
    q.2 ∈ d.assetPuts := by
  rw [← places_map_snd (assetPut source pending) d.front.length d.assetPuts]
  exact List.mem_map_of_mem h

theorem applyPuts_assets (name : String) :
    ((source.delta dirtyChunks dirtyAssets).applyPuts file base source pending index).assets[name]? =
      match source.assets[name]? with
      | some chunks => if name ∈ dirtyAssets then some chunks else index.assets[name]?
      | none => index.assets[name]? := by
  obtain ⟨set, left⟩ := foldl_keyed (fun i (k : String) => i.assets[k]?)
    (fun q : Nat × String × List String => q.2.1)
    (fun index q => putStep file base source pending index q.1 q.2)
    (fun x _ => some x.2.2)
    (fun i q k => by
      rw [(putStep_other file base source pending i q.1 q.2).2.1]
      exact getElem?_insert_eq i.assets q.2.1 k q.2.2)
    ((source.delta dirtyChunks dirtyAssets).placed source pending)
    (by rw [placed_keys]; exact assetPuts_nodup) index name
  rw [placed_keys] at left
  by_cases listed : name ∈ (source.delta dirtyChunks dirtyAssets).assetPuts.map Prod.fst
  · obtain ⟨put, mem, rfl⟩ := List.mem_map.mp listed
    obtain ⟨pos, placed⟩ := mem_placed source pending mem
    obtain ⟨dirty, found⟩ := mem_assetPuts.mp mem
    simp only [found, if_pos dirty]
    exact set _ placed rfl
  · refine (left listed).trans ?_
    cases found : source.assets[name]? with
    | none => rfl
    | some chunks =>
        have clean : name ∉ dirtyAssets := fun dirty =>
          listed (List.mem_map.mpr ⟨(name, chunks), mem_assetPuts.mpr ⟨dirty, found⟩, rfl⟩)
        simp only [if_neg clean]

theorem applyPuts_records (name : String) :
    (∀ pos chunks, (pos, name, chunks) ∈ (source.delta dirtyChunks dirtyAssets).placed source pending →
      ((source.delta dirtyChunks dirtyAssets).applyPuts file base source pending index).records[name]? =
        putRecord file base source pending pos (name, chunks) index.records[name]?) ∧
    (¬ (name ∈ dirtyAssets ∧ (source.assets[name]?).isSome) →
      ((source.delta dirtyChunks dirtyAssets).applyPuts file base source pending index).records[name]? =
        index.records[name]?) := by
  obtain ⟨set, left⟩ := foldl_keyed (fun i (k : String) => i.records[k]?)
    (fun q : Nat × String × List String => q.2.1)
    (fun index q => putStep file base source pending index q.1 q.2)
    (fun x old => putRecord file base source pending x.1 x.2 old)
    (fun i q k => putStep_records file base source pending i q.1 q.2 k)
    ((source.delta dirtyChunks dirtyAssets).placed source pending)
    (by rw [placed_keys]; exact assetPuts_nodup) index name
  rw [placed_keys] at left
  refine ⟨fun pos chunks mem => set _ mem rfl, fun clean => left fun listed => clean ?_⟩
  obtain ⟨put, mem, rfl⟩ := List.mem_map.mp listed
  obtain ⟨dirty, found⟩ := mem_assetPuts.mp mem
  exact ⟨dirty, by rw [found]; rfl⟩

theorem applyDels_other (l : List String) :
    (l.foldl dropAsset index).chunks = index.chunks ∧
      (l.foldl dropAsset index).layout = index.layout ∧
      (l.foldl dropAsset index).generation = index.generation :=
  ⟨foldl_fixed Index.chunks dropAsset (fun _ _ => rfl) _ _,
    foldl_fixed layout dropAsset (fun _ _ => rfl) _ _,
    foldl_fixed generation dropAsset (fun _ _ => rfl) _ _⟩

theorem applyDels_lookup (name : String) :
    ((source.delta dirtyChunks dirtyAssets).assetDels.foldl dropAsset index).assets[name]? =
        (if name ∈ dirtyAssets ∧ source.assets[name]? = none then none else index.assets[name]?) ∧
      ((source.delta dirtyChunks dirtyAssets).assetDels.foldl dropAsset index).records[name]? =
        (if name ∈ dirtyAssets ∧ source.assets[name]? = none then none else index.records[name]?) := by
  obtain ⟨dropped, kept⟩ := foldl_keyed (fun i (k : String) => (i.assets[k]?, i.records[k]?))
    id dropAsset (fun _ _ => (none, none))
    (fun i x k => by
      simp only [dropAsset, getElem?_erase_eq, id]
      split <;> rfl) (source.delta dirtyChunks dirtyAssets).assetDels
    (by rw [List.map_id]; exact assetDels_nodup) index name
  rw [List.map_id] at kept
  by_cases gone : name ∈ dirtyAssets ∧ source.assets[name]? = none
  · simpa only [if_pos gone, Prod.mk.injEq] using dropped name (mem_assetDels.mpr gone) rfl
  · simpa only [if_neg gone, Prod.mk.injEq] using kept fun h => gone (mem_assetDels.mp h)

/-- The ledger a record turns `index` into: the dirty entries are those of `source`. -/
theorem delta_apply_spec (name : String) :
    let result := (source.delta dirtyChunks dirtyAssets).apply file base source pending index
    result.chunks[name]? = (if name ∈ dirtyChunks then source.chunks[name]? else index.chunks[name]?) ∧
    result.assets[name]? = (if name ∈ dirtyAssets then source.assets[name]? else index.assets[name]?) ∧
    result.layout = index.layout ∧ result.generation = index.generation := by
  intro result
  refine ⟨?_, ?_, ?_, ?_⟩
  · simp only [result, Delta.apply, (applyDels_other _ _).1, (applyPuts_other ..).1,
      applyChunks_chunks]
  · simp only [result, Delta.apply, (applyDels_lookup ..).1, applyPuts_assets,
      (applyChunks_other _ _).1]
    cases found : source.assets[name]? with
    | none => simp
    | some chunks => simp
  · simp only [result, Delta.apply, (applyDels_other _ _).2.1, (applyPuts_other ..).2.1,
      (applyChunks_other _ _).2.2.1]
  · simp only [result, Delta.apply, (applyDels_other _ _).2.2, (applyPuts_other ..).2.2,
      (applyChunks_other _ _).2.2.2]

/-- The places of asset records after a record: an untouched asset keeps its own, a
removed one has none, a listed one has the place its entry gives. -/
theorem delta_apply_records (name : String) :
    let result := (source.delta dirtyChunks dirtyAssets).apply file base source pending index
    (name ∉ dirtyAssets → result.records[name]? = index.records[name]?) ∧
    (name ∈ dirtyAssets → source.assets[name]? = none → result.records[name]? = none) ∧
    ∀ pos chunks, (pos, name, chunks) ∈ (source.delta dirtyChunks dirtyAssets).placed source pending →
      result.records[name]? =
        putRecord file base source pending pos (name, chunks) index.records[name]? := by
  intro result
  have dels := (applyDels_lookup source dirtyChunks dirtyAssets
    ((source.delta dirtyChunks dirtyAssets).applyPuts file base source pending
      ((source.delta dirtyChunks dirtyAssets).applyChunks index)) name).2
  obtain ⟨set, left⟩ := applyPuts_records file base source pending dirtyChunks dirtyAssets
    ((source.delta dirtyChunks dirtyAssets).applyChunks index) name
  rw [(applyChunks_other _ _).2.1] at set left
  refine ⟨fun clean => ?_, fun dirty gone => ?_, fun pos chunks mem => ?_⟩
  · exact (dels.trans (if_neg fun h => clean h.1)).trans (left fun h => clean h.1)
  · exact dels.trans (if_pos ⟨dirty, gone⟩)
  · obtain ⟨-, found⟩ := mem_assetPuts.mp (placed_mem source pending mem)
    exact (dels.trans (if_neg fun h => by simp [found] at h)).trans (set pos chunks mem)

end Pointwise
end Cavs
