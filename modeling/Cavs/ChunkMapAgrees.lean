import Cavs.ChunkMap

/-!
# Runs and entries tell the same

A run is read back with the offset of every chunk that went into it: a chunk joins a run only
where the run stops. So the runs of an asset give the entries of its chunks, in another order.
-/
namespace Cavs
open List (append_assoc getElem?_map mapM_cons map_append map_cons map_singleton mem_append mem_map
  mem_singleton)

section Json

theorem asU32_u32 (n : UInt32) : (JsonValue.u32 n).asU32 = some n := by
  rw [JsonValue.u32, JsonValue.asU32, if_pos n.toNat_lt, UInt32.ofNat_toNat]

theorem asU64_u64 (n : UInt64) : (JsonValue.u64 n).asU64 = some n := by
  rw [JsonValue.u64, JsonValue.asU64, if_pos n.toNat_lt, UInt64.ofNat_toNat]

theorem mapM_map {α β : Type} {f : α → β} {g : β → Option α} (back : ∀ a, g (f a) = some a) (l : List α) :
    (l.map f).mapM g = some l := by
  induction l with
  | nil => rfl
  | cons a l ih => rw [map_cons, mapM_cons, back, ih]; rfl

theorem asU32s_u32s (l : List UInt32) : (JsonValue.u32s l).asU32s = some l := mapM_map asU32_u32 l

theorem asTexts_texts (l : List String) : (JsonValue.texts l).asTexts = some l :=
  @mapM_map _ _ JsonValue.text JsonValue.asText (fun _ => rfl) l

/-- Where a chunk lies, as an entry tells it. -/
def chunkEntry (path : String) (x : String × ChunkInfo) : ChunkMapEntry :=
  ⟨x.1, x.2.lenRaw, x.2.lenStored, x.2.flags, path, headerLen + x.2.place⟩

theorem entryJson_read (hex : String) (info : ChunkInfo) (path : String) :
    ChunkMapEntry.fromJson (entryJson hex info path) = some (chunkEntry path (hex, info)) := by
  have lenRaw := asU32_u32 info.lenRaw
  have lenStored := asU32_u32 info.lenStored
  have flags := asU32_u32 info.flags
  have offset := asU64_u64 (headerLen + info.place)
  unfold ChunkMapEntry.fromJson entryJson
  simp [JsonValue.get, List.lookup_cons, JsonValue.asText, lenRaw, lenStored, flags, offset, chunkEntry]

/-- A run as it is read back. -/
def Run.meta (r : Run) (path : String) : MetaRun :=
  ⟨path, r.startAbs, r.hashes, r.lensRaw, r.lensStored,
    if r.uniform then .uniform (r.flags.head?.getD 0) else .perChunk r.flags⟩

theorem flagsJson_read (r : Run) : RunFlags.fromJson r.flagsJson =
    some (if r.uniform then .uniform (r.flags.head?.getD 0) else .perChunk r.flags) := by
  unfold Run.flagsJson
  by_cases same : r.uniform
  · rw [if_pos same, if_pos same]
    show ((JsonValue.u32 (r.flags.head?.getD 0)).asU32.map RunFlags.uniform <|> _) = _
    rw [asU32_u32]
    rfl
  · rw [if_neg same, if_neg same]
    show (none <|> (JsonValue.u32s r.flags).asU32s.map RunFlags.perChunk) = _
    rw [asU32s_u32s]
    rfl

theorem runJson_read (r : Run) (path : String) : MetaRun.fromJson (r.json path) = some (r.meta path) := by
  have startAbs := asU64_u64 r.startAbs
  have hashes := asTexts_texts r.hashes
  have lensRaw := asU32s_u32s r.lensRaw
  have lensStored := asU32s_u32s r.lensStored
  have flags := flagsJson_read r
  unfold MetaRun.fromJson Run.json
  simp [JsonValue.get, List.lookup_cons, JsonValue.asText, startAbs, hashes, lensRaw, lensStored, flags, Run.meta]

end Json

section Runs
variable {r : Run} {l : List (String × ChunkInfo)} {x : String × ChunkInfo}

/-- The chunks lie one after another from `start` on; the numbers wrap. -/
def LieFrom : (start : UInt64) → List (String × ChunkInfo) → (stop : UInt64) → Prop
  | start, [], stop => start = stop
  | start, x :: rest, stop => x.2.place = start ∧ LieFrom (start + x.2.lenStored.toUInt64) rest stop

theorem LieFrom.snoc {start stop : UInt64} (h : LieFrom start l stop) (next : x.2.place = stop) :
    LieFrom start (l ++ [x]) (stop + x.2.lenStored.toUInt64) := by
  induction l generalizing start with
  | nil =>
      have same : start = stop := h
      exact ⟨next.trans same.symm, congrArg (· + _) same⟩
  | cons y l ih => exact ⟨h.1, ih h.2⟩

/-- A run that was made of these chunks. -/
structure Run.MadeOf (r : Run) (l : List (String × ChunkInfo)) : Prop where
  hashes : r.hashes = l.map Prod.fst
  lensRaw : r.lensRaw = l.map fun x => x.2.lenRaw
  lensStored : r.lensStored = l.map fun x => x.2.lenStored
  flags : r.flags = l.map fun x => x.2.flags
  chain : ∃ start, r.startAbs = headerLen + start ∧ LieFrom start l r.nextOffset

theorem Run.MadeOf.push (h : r.MadeOf l) (next : x.2.place = r.nextOffset) : (r.push x.1 x.2).MadeOf (l ++ [x]) := by
  obtain ⟨start, abs, chain⟩ := h.chain
  have more := chain.snoc next
  rw [← next] at more
  constructor
  · rw [map_append, ← h.hashes]
    rfl
  · rw [map_append, ← h.lensRaw]
    rfl
  · rw [map_append, ← h.lensStored]
    rfl
  · rw [map_append, ← h.flags]
    rfl
  · exact ⟨start, abs, more⟩

theorem allSame {flags : List UInt32} (same : (flags.zip flags.tail).all fun w => w.1 = w.2) :
    ∀ f ∈ flags, f = flags.head?.getD 0 := by
  induction flags with
  | nil => exact fun f mem => (List.not_mem_nil mem).elim
  | cons a flags ih =>
      cases flags with
      | nil =>
          intro f mem
          exact mem_singleton.mp mem
      | cons b flags =>
          rw [List.tail_cons, List.zip_cons_cons, List.all_cons, Bool.and_eq_true, decide_eq_true_eq] at same
          obtain ⟨first, rest⟩ := same
          intro f mem
          rcases List.mem_cons.mp mem with rfl | mem
          · rfl
          · exact (ih rest f mem).trans first.symm

/-- The flags of each chunk, whichever way they are told. -/
theorem Run.MadeOf.flagsAt (h : r.MadeOf l) (path : String) {i : Nat} (there : l[i]? = some x) :
    (r.meta path).flags.at i = x.2.flags := by
  have own : r.flags[i]? = some x.2.flags := by
    rw [h.flags, getElem?_map, there]
    rfl
  unfold Run.meta
  by_cases same : r.uniform
  · dsimp only
    rw [if_pos same]
    exact (allSame same x.2.flags (List.mem_of_getElem? own)).symm
  · dsimp only
    rw [if_neg same]
    show r.flags.getD i 0 = _
    rw [List.getD_eq_getElem?_getD, own]
    rfl

theorem Run.MadeOf.entriesFrom (h : r.MadeOf l) (path : String) {front rest : List (String × ChunkInfo)}
    (split : l = front ++ rest) {start stop : UInt64} (chain : LieFrom start rest stop) :
    (r.meta path).entriesFrom front.length (headerLen + start) (rest.map Prod.fst) = rest.map (chunkEntry path) := by
  induction rest generalizing front start with
  | nil => rfl
  | cons x rest ih =>
      obtain ⟨here, later⟩ := chain
      have there : l[front.length]? = some x := by rw [split, List.getElem?_append_right (Nat.le_refl _), Nat.sub_self]; rfl
      have lenRaw : (r.meta path).lensRaw.getD front.length 0 = x.2.lenRaw := by
        show r.lensRaw.getD front.length 0 = _
        rw [h.lensRaw, List.getD_eq_getElem?_getD, getElem?_map, there]
        rfl
      have lenStored : (r.meta path).lensStored.getD front.length 0 = x.2.lenStored := by
        show r.lensStored.getD front.length 0 = _
        rw [h.lensStored, List.getD_eq_getElem?_getD, getElem?_map, there]
        rfl
      have split' : l = front ++ [x] ++ rest := by rw [split, append_assoc]; rfl
      have tail := ih split' later
      rw [List.length_append, List.length_singleton, ← UInt64.add_assoc] at tail
      rw [map_cons, map_cons, MetaRun.entriesFrom, lenStored, lenRaw, h.flagsAt path there, tail, chunkEntry, here]
      rfl

/-- A run gives the entries of the chunks it was made of. -/
theorem Run.MadeOf.expand (h : r.MadeOf l) (path : String) :
    (r.meta path).entriesFrom 0 (r.meta path).startAbs (r.meta path).hashes = l.map (chunkEntry path) := by
  obtain ⟨start, abs, chain⟩ := h.chain
  have all := h.entriesFrom path (List.nil_append l).symm chain
  rw [← abs, ← h.hashes] at all
  exact all

end Runs

section Gather
variable {runs : List Run} {seen : List (String × ChunkInfo)} {x : String × ChunkInfo}

/-- The path of a pack; packs that have none end the program before it is asked for. -/
def pathOf (pack : String) : String := "chunks/packs/" ++ (headTwo pack).getD "" ++ "/" ++ pack ++ ".cavspack"

def packOf (x : String × ChunkInfo) : String := x.2.pack.getD ""

def Run.entries (r : Run) : List ChunkMapEntry :=
  (r.meta (pathOf r.pack)).entriesFrom 0 (r.meta (pathOf r.pack)).startAbs (r.meta (pathOf r.pack)).hashes

/-- Runs that hold these chunks, in this order. -/
structure RunsOf (seen : List (String × ChunkInfo)) (runs : List Run) : Prop where
  made : ∀ r ∈ runs, ∃ l, r.MadeOf l
  entries : runs.flatMap Run.entries = seen.map fun x => chunkEntry (pathOf (packOf x)) x
  packs : ∀ p, p ∈ runs.map Run.pack ↔ p ∈ seen.map packOf

theorem runsOf_nil : RunsOf [] [] := ⟨nofun, rfl, fun _ => Iff.rfl⟩

theorem RunsOf.fresh (h : RunsOf seen runs) {r : Run} (r_ : r = ⟨packOf x, headerLen + x.2.place, x.2.place, [], [], [], []⟩) :
    RunsOf (seen ++ [x]) (runs ++ [r.push x.1 x.2]) := by
  subst r_
  have empty : (⟨packOf x, headerLen + x.2.place, x.2.place, [], [], [], []⟩ : Run).MadeOf [] :=
    ⟨rfl, rfl, rfl, rfl, x.2.place, rfl, rfl⟩
  have one := empty.push (x := x) rfl
  constructor
  · intro r mem
    rcases mem_append.mp mem with mem | mem
    · exact h.made r mem
    · exact ⟨[x], mem_singleton.mp mem ▸ one⟩
  · rw [List.flatMap_append, h.entries, map_append, List.flatMap_singleton]
    exact congrArg _ (one.expand _)
  · intro p
    rw [map_append, map_append, mem_append, mem_append, h.packs]
    exact Iff.rfl

theorem RunsOf.add (h : RunsOf seen runs) : RunsOf (seen ++ [x]) (addToRuns runs x) := by
  unfold addToRuns
  dsimp only
  cases last : runs.getLast? with
  | none => exact h.fresh rfl
  | some r =>
      dsimp only
      split
      · rename_i joins
        obtain ⟨samePack, next⟩ := joins
        have split : runs = runs.dropLast ++ [r] := (List.dropLast_append_getLast? r last).symm
        obtain ⟨l, made⟩ := h.made r (List.mem_of_getLast? last)
        have longer := made.push next
        have path : pathOf (packOf x) = pathOf r.pack := congrArg pathOf samePack.symm
        constructor
        · intro r' mem
          rcases mem_append.mp mem with mem | mem
          · exact h.made r' (List.dropLast_subset _ mem)
          · exact ⟨l ++ [x], mem_singleton.mp mem ▸ longer⟩
        · have before := h.entries
          rw [split, List.flatMap_append, List.flatMap_singleton] at before
          have one : (r.push x.1 x.2).entries = r.entries ++ [chunkEntry (pathOf r.pack) x] := by
            refine (longer.expand (pathOf r.pack)).trans ?_
            rw [map_append]
            exact congrArg (· ++ _) (made.expand (pathOf r.pack)).symm
          rw [List.flatMap_append, List.flatMap_singleton, one, ← append_assoc, before, map_append, map_singleton,
            path]
        · intro p
          have before := h.packs p
          rw [split, map_append, mem_append, map_singleton, mem_singleton] at before
          rw [map_append, mem_append, map_append, mem_append, ← before, map_singleton,
            mem_singleton, map_singleton, mem_singleton]
          have pack : (r.push x.1 x.2).pack = r.pack := rfl
          have pack' : packOf x = r.pack := samePack.symm
          rw [pack, pack']
          exact ⟨.inl, fun other => other.elim id Or.inr⟩
      · exact h.fresh rfl

theorem RunsOf.run (h : RunsOf seen runs) (l : List (String × ChunkInfo)) :
    RunsOf (seen ++ l) (l.foldl addToRuns runs) := by
  induction l generalizing seen runs with
  | nil => rwa [List.append_nil]
  | cons x l ih =>
      have rest := ih (@RunsOf.add _ _ x h)
      rwa [append_assoc] at rest

end Gather
section Agree
variable {s : GlobalStore} {hexes : List String}

/-- The chunks of a list that the ledger knows. -/
def known (s : GlobalStore) (hexes : List String) : List (String × ChunkInfo) :=
  hexes.filterMap fun hex => (s.chunkGet hex).map fun info => (hex, info)

/-- Every chunk of the list that the ledger knows is in a pack. -/
def InPacks (s : GlobalStore) (hexes : List String) : Prop :=
  ∀ hex ∈ hexes, ∀ info, s.chunkGet hex = some info → info.pack.isSome

/-- The name of a pack has two bytes in front. -/
def NamedWell (pack : String) : Prop := (headTwo pack).isSome

instance (pack : String) : Decidable (NamedWell pack) := inferInstanceAs (Decidable (_ = true))

theorem packfilePath_ok {pack : String} (fine : NamedWell pack) : packfilePath pack = .ok (pathOf pack) := by
  obtain ⟨two, head⟩ := Option.isSome_iff_exists.mp fine
  rw [packfilePath, pathOf, head]
  rfl

theorem packfilePath_panics {pack : String} (bad : ¬ NamedWell pack) : packfilePath pack = .panics := by
  have none := Option.not_isSome_iff_eq_none.mp bad
  rw [packfilePath, none]

theorem placed_ok (packed : InPacks s hexes) : s.placed hexes = .ok (known s hexes) := by
  induction hexes with
  | nil => rfl
  | cons hex rest ih =>
      have later := ih fun hex' mem => packed hex' (.tail _ mem)
      unfold GlobalStore.placed known
      rw [List.filterMap_cons]
      cases found : s.chunkGet hex with
      | none => exact later
      | some info =>
          have inPack : ¬ info.pack.isNone = true := by
            rw [← Option.not_isSome]
            simp [packed hex (.head _) info found]
          dsimp only
          rw [if_neg inPack, later]
          rfl

theorem entriesOf_told (packed : InPacks s hexes) :
    ((∃ x ∈ known s hexes, ¬ NamedWell (packOf x)) ∧ s.entriesOf hexes = .panics) ∨
    (∀ x ∈ known s hexes, NamedWell (packOf x)) ∧ ∃ values, s.entriesOf hexes = .ok values ∧
      values.mapM ChunkMapEntry.fromJson = some ((known s hexes).map fun x => chunkEntry (pathOf (packOf x)) x) := by
  induction hexes with
  | nil => exact .inr ⟨nofun, [], rfl, rfl⟩
  | cons hex rest ih =>
      have later := ih fun hex' mem => packed hex' (.tail _ mem)
      unfold GlobalStore.entriesOf known
      rw [List.filterMap_cons]
      cases found : s.chunkGet hex with
      | none => exact later
      | some info =>
          obtain ⟨pack, own⟩ := Option.isSome_iff_exists.mp (packed hex (.head _) info found)
          have pack_ : packOf (hex, info) = pack := by rw [packOf, own]; rfl
          dsimp only [Option.map]
          rw [own]
          dsimp only
          by_cases fine : NamedWell pack
          · rw [packfilePath_ok fine, Outcome.ok_bind]
            rcases later with ⟨⟨x, mem, bad⟩, stops⟩ | ⟨all, values, told, read⟩
            · refine .inl ⟨⟨x, .tail _ mem, bad⟩, ?_⟩
              rw [stops]
              rfl
            · refine .inr ⟨List.forall_mem_cons.mpr ⟨pack_ ▸ fine, all⟩, entryJson hex info (pathOf pack) :: values, ?_, ?_⟩
              · rw [told]
                rfl
              · unfold known at read
                rw [mapM_cons, entryJson_read, read, map_cons, pack_]
                rfl
          · refine .inl ⟨⟨(hex, info), .head _, pack_ ▸ fine⟩, ?_⟩
            rw [packfilePath_panics fine]
            rfl

theorem runsJson_told (runs : List Run) :
    ((∃ r ∈ runs, ¬ NamedWell r.pack) ∧ runsJson runs = .panics) ∨
    (∀ r ∈ runs, NamedWell r.pack) ∧ ∃ values, runsJson runs = .ok values ∧
      values.mapM MetaRun.fromJson = some (runs.map fun r => r.meta (pathOf r.pack)) := by
  induction runs with
  | nil => exact .inr ⟨nofun, [], rfl, rfl⟩
  | cons r rest ih =>
      rw [runsJson]
      by_cases fine : NamedWell r.pack
      · rw [packfilePath_ok fine, Outcome.ok_bind]
        rcases ih with ⟨⟨r', mem, bad⟩, stops⟩ | ⟨all, values, told, read⟩
        · refine .inl ⟨⟨r', .tail _ mem, bad⟩, ?_⟩
          rw [stops]
          rfl
        · refine .inr ⟨List.forall_mem_cons.mpr ⟨fine, all⟩, r.json (pathOf r.pack) :: values, ?_, ?_⟩
          · rw [told]
            rfl
          · rw [mapM_cons, runJson_read, read, map_cons]
            rfl
      · refine .inl ⟨⟨r, .head _, fine⟩, ?_⟩
        rw [packfilePath_panics fine]
        rfl

/-- The runs of an asset, read back, give the entries of its chunk map in some order; when a
pack is named too short for a path, neither is made. -/
theorem chunk_maps_agree (s : GlobalStore) (name : String) (hexes : List String)
    (listed : s.index.assets[name]? = some hexes) (packed : InPacks s hexes) (oid : String) (manifest : Manifest) :
    ((∃ x ∈ known s hexes, ¬ NamedWell (packOf x)) ∧ s.chunkMapEntries name = .panics ∧ s.chunkMapRuns name = .panics) ∨
    ∃ entryValues runValues entries runs, s.chunkMapEntries name = .ok entryValues ∧ s.chunkMapRuns name = .ok runValues ∧
      entryValues.mapM ChunkMapEntry.fromJson = some entries ∧ runValues.mapM MetaRun.fromJson = some runs ∧
      entries = (known s hexes).map (fun x => chunkEntry (pathOf (packOf x)) x) ∧
      (MetaPackObject.intoEntries ⟨oid, manifest, [], runs⟩).chunks.Perm entries := by
  have sorted : ((known s hexes).mergeSort placedLe).Perm (known s hexes) := List.mergeSort_perm _ _
  have gathered := runsOf_nil.run ((known s hexes).mergeSort placedLe)
  rw [List.nil_append] at gathered
  generalize runs_ : ((known s hexes).mergeSort placedLe).foldl addToRuns [] = runs at gathered
  have told : s.chunkMapRuns name = runsJson runs := by
    rw [GlobalStore.chunkMapRuns, listed, ← runs_]
    dsimp only
    rw [placed_ok packed]
    rfl
  have told' : s.chunkMapEntries name = s.entriesOf hexes := by rw [GlobalStore.chunkMapEntries, listed]
  have inRun : ∀ {x}, x ∈ known s hexes → ∃ r ∈ runs, r.pack = packOf x := fun mem =>
    mem_map.mp ((gathered.packs _).mpr (List.mem_map_of_mem (sorted.mem_iff.mpr mem)))
  have ofRun : ∀ {r}, r ∈ runs → ∃ x ∈ known s hexes, packOf x = r.pack := by
    intro r mem
    obtain ⟨x, among, same⟩ := mem_map.mp ((gathered.packs _).mp (List.mem_map_of_mem mem))
    exact ⟨x, sorted.mem_iff.mp among, same⟩
  rw [told, told']
  rcases entriesOf_told packed with ⟨⟨x, mem, bad⟩, stops⟩ | ⟨all, values, entries, read⟩
  · rcases runsJson_told runs with ⟨-, stops'⟩ | ⟨all, -⟩
    · exact .inl ⟨⟨x, mem, bad⟩, stops, stops'⟩
    · obtain ⟨r, among, same⟩ := inRun mem
      exact absurd (same ▸ all r among) bad
  · rcases runsJson_told runs with ⟨⟨r, mem, bad⟩, -⟩ | ⟨-, values', entries', read'⟩
    · obtain ⟨x, among, same⟩ := ofRun mem
      exact absurd (same ▸ all x among) bad
    · refine .inr ⟨values, values', _, _, entries, entries', read, read', rfl, ?_⟩
      have expanded : (MetaPackObject.intoEntries ⟨oid, manifest, [], runs.map fun r => r.meta (pathOf r.pack)⟩).chunks =
          runs.flatMap Run.entries := by
        unfold MetaPackObject.intoEntries
        by_cases none : runs = []
        · rw [none]
          rfl
        · rw [if_neg fun empty => none (List.map_eq_nil_iff.mp empty), List.flatMap_map]
          rfl
      rw [expanded, gathered.entries]
      exact sorted.map _

/-- Three chunks of an asset, two of them next to each other. -/
def twoPacks : GlobalStore where
  index := { Index.empty .packfiles with
    chunks := (((∅ : ChunkTable).insert "c0" ⟨9, 4, 1, 1, none, some "ab12", some 0⟩).insert "c1"
      ⟨9, 0, 3, 1, none, some "ab12", some 4⟩).insert "c2" ⟨9, 7, 1, 1, none, some "cd34", some 4⟩
    assets := (∅ : AssetTable).insert "game" ["c2", "c1", "c0"] }
  seg := none
  openPack := none
  preferredPackSize := 1
  batch := none
  dirtyChunks := ∅
  dirtyAssets := ∅
  journalBytes := 0
  snapshotBytes := 0
  journalBudget := none
  pendingRecords := ∅
  snapshotId := none
  readOnly := true
  nextWriter := 0

/-- A manifest without tracks. -/
def gameManifest : Manifest := ⟨"game", "", [], [], [], [], "", none, none, []⟩

theorem chunk_maps_agree_twoPacks : ∃ entryValues runValues entries runs,
    twoPacks.chunkMapEntries "game" = .ok entryValues ∧ twoPacks.chunkMapRuns "game" = .ok runValues ∧
    entryValues.mapM ChunkMapEntry.fromJson = some entries ∧ runValues.mapM MetaRun.fromJson = some runs ∧
    entries.length = 3 ∧ (MetaPackObject.intoEntries ⟨"game", gameManifest, [], runs⟩).chunks.Perm entries := by
  have listed : twoPacks.index.assets["game"]? = some ["c2", "c1", "c0"] := by decide +kernel
  have chunks : known twoPacks ["c2", "c1", "c0"] = [("c2", ⟨9, 7, 1, 1, none, some "cd34", some 4⟩),
      ("c1", ⟨9, 0, 3, 1, none, some "ab12", some 4⟩), ("c0", ⟨9, 4, 1, 1, none, some "ab12", some 0⟩)] := by decide +kernel
  have packed : InPacks twoPacks ["c2", "c1", "c0"] := by
    intro hex mem info found
    have among : (hex, info) ∈ known twoPacks ["c2", "c1", "c0"] :=
      List.mem_filterMap.mpr ⟨hex, mem, by rw [found]; rfl⟩
    have all : ∀ x ∈ known twoPacks ["c2", "c1", "c0"], x.2.pack.isSome := by
      rw [chunks]
      decide
    exact all _ among
  rcases chunk_maps_agree twoPacks "game" _ listed packed "game" gameManifest with ⟨⟨x, mem, bad⟩, -⟩ | told
  · have named : ∀ x ∈ known twoPacks ["c2", "c1", "c0"], NamedWell (packOf x) := by
      rw [chunks]
      decide
    exact absurd (named x mem) bad
  · obtain ⟨entryValues, runValues, entries, runs, made, made', read, read', all, same⟩ := told
    refine ⟨entryValues, runValues, entries, runs, made, made', read, read', ?_, same⟩
    rw [all, chunks]
    rfl

end Agree
end Cavs
