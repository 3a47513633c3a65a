import Cavs.BatchDecode
import Cavs.SessionAnswers

/-!
# What the session route fetches

Whatever was announced and whatever the responses refer to, after the repairs the cache has
what it had and the chunks that were asked for. A track is asked for by its id and answered
for the first track of that id, and so is a segment; nothing is asked for where there are no
segments.
-/
namespace Cavs
open FileProg (Bytes)
open Option (bind_eq_some_iff)

section Batches
variable {env : ContainerEnv} {asset : Asset} {content : ChunkHash → Bytes} {disk : ServerDisk} {id : String}
  {i : DeliveryInstr} {first : CacheFiles} {named l : List ChunkHash} {s : RouteState} {hash : ChunkHash}

theorem strBytes_toHex_length (hash : ChunkHash) : (strBytes (toHex hash)).length = 64 := by
  have long := (strBytes_hexString hash.1).1
  rwa [hash.2] at long

@[simp] theorem contains_toHex (cache : CacheFiles) (hash : ChunkHash) :
    cache.contains (toHex hash) = (cache (toHex hash)).isSome := by
  simp [CacheFiles.contains, strBytes_toHex_length]

@[simp] theorem put_same (cache : CacheFiles) (hash : ChunkHash) (b : Bytes) (g : ChunkHash) :
    ((cache.put hash b) (toHex g)).isSome = ((cache (toHex g)).isSome || decide (g = hash)) := by
  by_cases same : g = hash
  · subst same
    cases there : cache (toHex g) <;> simp [CacheFiles.put, there]
  · have other : toHex g ≠ toHex hash := fun h => same (toHex_injective h)
    simp [CacheFiles.put, other, same]

/-- What a client has after a sound instruction. -/
def RouteState.take (content : ChunkHash → Bytes) (s : RouteState) : DeliveryInstr → RouteState
  | .ref hash => if s.cache.contains (toHex hash) then s else { s with missing := s.missing ++ [hash] }
  | .inline hash .. => { s with cache := s.cache.put hash (content hash) }

theorem consumeInstr_sound (sound : i.Sound env content) (s : RouteState) :
    consumeInstr env i s = (.ok (), s.take content i) := by
  cases i with
  | ref hash => rfl
  | inline hash lenRaw compression payload =>
      obtain ⟨-, raw, long, named⟩ := sound
      simp [consumeInstr, raw, long, named, RouteState.take]

theorem fits_of_sound (sound : i.Sound env content) : i.Fits := by
  cases i with
  | ref hash => trivial
  | inline hash => exact sound.1

/-- Sound instructions on the wire are all taken, in the order of the response. -/
theorem decodeStream_takes {resp : BatchResponse} (counts : resp.CountsFit) (sound : ∀ i ∈ resp.instrs, i.Sound env content)
    (s : RouteState) : decodeStream (consumeItem env) s ⟨0, resp.encode⟩ =
      (.ok ((), ⟨resp.encode.length, []⟩), resp.instrs.foldl (RouteState.take content) s) := by
  have within : resp.Within := ⟨counts, fun i mem => fits_of_sound (sound i mem)⟩
  rw [← resp.items_instrs, List.foldl_filterMap]
  refine decodeStream_encode within (fun item mem s => ?_) s
  cases named : item.asInstr with
  | none => simp only [consumeItem, named]
  | some i =>
      have inside : i ∈ resp.instrs := resp.items_instrs ▸ List.mem_filterMap.mpr ⟨item, mem, named⟩
      simp only [consumeItem, named, consumeInstr_sound (sound i inside)]

/-- Requests one after another are refused, or everything they name arrives. -/
theorem batchLoop_takes (true_ : TrueDisk env asset content disk) (counts : asset.CountsFit) {reqs : List BatchRequest}
    (few : ∀ req ∈ reqs, req.trackInits.length < 2 ^ 32 ∧ req.segmentIds.length < 2 ^ 32) {server : AppState}
    (serves : Serves id asset server) (n : Nat) (s : RouteState) :
    (∃ what, batchLoop env id disk reqs n server s = .error (.refused what)) ∨
      ∃ instrs : List DeliveryInstr, batchLoop env id disk reqs n server s = .ok (instrs.foldl (RouteState.take content) s) ∧
        instrs.map DeliveryInstr.hash = reqs.flatMap fun req => (req.items asset).flatMap (Item.names asset) := by
  induction reqs generalizing n server s with
  | nil => exact .inr ⟨[], rfl, rfl⟩
  | cons req rest ih =>
      obtain ⟨here, later⟩ := List.forall_mem_cons.mp few
      rcases planned : planBatch env server id (disk.reads n) req with ⟨resp | e | _, next⟩
      · obtain ⟨serves, answers⟩ := planBatch_answers serves true_ counts here.1 here.2 planned
        have decoded := decodeStream_takes answers.counts answers.sound s
        rcases ih later serves (n + 1) (resp.instrs.foldl (RouteState.take content) s) with ⟨what, refused⟩ | ⟨more, run, names⟩
        · exact .inl ⟨what, by simp only [batchLoop, planned, decoded, refused]⟩
        · refine .inr ⟨resp.instrs ++ more, ?_, ?_⟩
          · simp only [batchLoop, planned, decoded, run, List.foldl_append]
          · rw [List.map_append, answers.names, names, List.flatMap_cons]
      · exact .inl ⟨e, by simp only [batchLoop, planned]⟩
      · exact .inl ⟨"panic", by simp only [batchLoop, planned]⟩

/-- An entry is the one that was there, or new and the chunk of its name. -/
def CacheGrown (content : ChunkHash → Bytes) (first cache : CacheFiles) : Prop :=
  ∀ hash, cache (toHex hash) = first (toHex hash) ∨
    first (toHex hash) = none ∧ cache (toHex hash) = some (content hash)

/-- The cache has only grown, and what is there or still missing is what was there and has
been named since. -/
structure RouteState.Follows (content : ChunkHash → Bytes) (first : CacheFiles) (named : List ChunkHash) (s : RouteState) :
    Prop where
  grown : CacheGrown content first s.cache
  held : ∀ hash, (s.cache (toHex hash)).isSome ∨ hash ∈ s.missing ↔ (first (toHex hash)).isSome ∨ hash ∈ named

theorem put_grown {cache : CacheFiles} (grown : CacheGrown content first cache) (hash : ChunkHash) :
    CacheGrown content first (cache.put hash (content hash)) := by
  intro g
  rw [CacheFiles.put]
  split
  · rename_i here
    obtain rfl := toHex_injective here.1
    refine .inr ⟨?_, rfl⟩
    rcases grown g with same | ⟨absent, -⟩
    · exact same.symm.trans here.2
    · exact absent
  · exact grown g

theorem take_follows (h : s.Follows content first named) (i : DeliveryInstr) :
    (s.take content i).Follows content first (named ++ [i.hash]) := by
  cases i with
  | ref hash =>
      simp only [RouteState.take, contains_toHex]
      split
      · rename_i there
        refine ⟨h.grown, fun g => ?_⟩
        by_cases same : g = hash
        · subst same
          simp [there, DeliveryInstr.hash]
        · simp [h.held g, same, DeliveryInstr.hash]
      · refine ⟨h.grown, fun g => ?_⟩
        simp [← or_assoc, h.held g, DeliveryInstr.hash]
  | inline hash =>
      refine ⟨put_grown h.grown hash, fun g => ?_⟩
      have held := h.held g
      simp only [RouteState.take, put_same, DeliveryInstr.hash, Bool.or_eq_true, decide_eq_true_eq, List.mem_append,
        List.mem_singleton]
      rw [or_right_comm, held, or_assoc]

theorem takes_follow (h : s.Follows content first named) (instrs : List DeliveryInstr) :
    (instrs.foldl (RouteState.take content) s).Follows content first (named ++ instrs.map DeliveryInstr.hash) := by
  induction instrs generalizing named s with
  | nil => simpa using h
  | cons i rest ih => simpa using ih (take_follows h i)

theorem mem_dedupRuns : hash ∈ dedupRuns l ↔ hash ∈ l := by
  induction l with
  | nil => rfl
  | cons a rest ih =>
      cases rest with
      | nil => rfl
      | cons b rest =>
          rw [dedupRuns]
          split
          · rename_i same
            rw [ih, same]
            simp
          · rw [List.mem_cons, ih]
            simp

theorem mem_sortHashes : hash ∈ sortHashes l ↔ hash ∈ l :=
  (List.perm_insertionSort _ l).mem_iff

/-- Repairs are refused, or put every hash they are for. -/
theorem repairRefs_puts (true_ : TrueDisk env asset content disk) (hashes : List ChunkHash) {cache : CacheFiles}
    (grown : CacheGrown content first cache) :
    (∃ what, repairRefs env disk asset hashes cache = .error (.refused what)) ∨
      ∃ cache', repairRefs env disk asset hashes cache = .ok cache' ∧ CacheGrown content first cache' ∧
        ∀ hash, (cache' (toHex hash)).isSome ↔ (cache (toHex hash)).isSome ∨ hash ∈ hashes := by
  induction hashes generalizing cache with
  | nil => exact .inr ⟨cache, rfl, grown, by simp⟩
  | cons hash rest ih =>
      cases answer : asset.chunkByHash disk.readRaw (toHex hash) with
      | none => exact .inl ⟨toHex hash, by simp only [repairRefs, answer]⟩
      | some raw =>
          obtain ⟨idx, place, read⟩ := bind_eq_some_iff.mp answer
          rw [fromHex_toHex, Option.bind_some] at place
          have found := indexByHash_some place
          obtain rfl := true_.raw idx raw read hash found
          have named := true_.named idx hash found
          have step : repairRefs env disk asset (hash :: rest) cache =
              repairRefs env disk asset rest (cache.put hash (content hash)) := by
            simp [repairRefs, answer, named]
          rw [step]
          rcases ih (put_grown grown hash) with refused | ⟨cache', run, grown', held⟩
          · exact .inl refused
          · refine .inr ⟨cache', run, grown', fun g => ?_⟩
            rw [held g, put_same, Bool.or_eq_true, decide_eq_true_eq, List.mem_cons, or_assoc]

end Batches

section Groups
variable {α : Type} {n : Nat} {l : List α} {x : α}

theorem mem_chunksOf (pos : 0 < n) : (∃ group ∈ chunksOf n l, x ∈ group) ↔ x ∈ l := by
  constructor
  · rintro ⟨group, mem, there⟩
    obtain ⟨i, -, rfl⟩ := List.mem_map.mp mem
    exact List.mem_of_mem_drop (List.mem_of_mem_take there)
  · intro mem
    obtain ⟨j, inside, rfl⟩ := List.getElem_of_mem mem
    have whole : j / n * n + j % n = j := Nat.div_add_mod' j n
    have small : j % n < n := Nat.mod_lt j pos
    refine ⟨(l.drop (j / n * n)).take n, List.mem_map.mpr ⟨j / n, List.mem_range.mpr ?_, rfl⟩, ?_⟩
    · apply Nat.lt_of_succ_le
      rw [Nat.le_div_iff_mul_le pos, Nat.succ_mul]
      omega
    · apply List.mem_of_getElem? (i := j % n)
      rw [List.getElem?_take_of_lt small, List.getElem?_drop, whole, List.getElem?_eq_getElem inside]

theorem chunksOf_short {group : List α} (mem : group ∈ chunksOf n l) : group.length ≤ n := by
  obtain ⟨i, -, rfl⟩ := List.mem_map.mp mem
  exact List.length_take_le n _

end Groups

section Named
variable {asset : Asset} {manifest : Manifest} {name : String} {label : AssetLabel} {l : List TrackRecord}
  {shown : List ManifestTrack}

theorem refs_names {chunks : List UInt32} {refs : List ChunkRef} (h : asset.refs chunks = some refs) :
    refs.map ChunkRef.hash = (chunks.filterMap asset.hashOf).map toHex := by
  induction chunks generalizing refs with
  | nil =>
      cases h
      rfl
  | cons idx rest ih =>
      obtain ⟨c, there, h⟩ := bind_eq_some_iff.mp h
      obtain ⟨tail, later, h⟩ := bind_eq_some_iff.mp h
      cases h
      have found : asset.hashOf idx = some c.hash := by rw [Asset.hashOf, there, Option.map_some]
      rw [List.filterMap_cons_some found, List.map_cons, List.map_cons, ih later]

theorem shownTracks_shows (h : asset.shownTracks l = some shown) :
    List.Forall₂ (fun t m => m.trackId = t.trackId ∧ asset.refs t.initChunks = some m.initChunks) l shown := by
  induction l generalizing shown with
  | nil =>
      cases h
      exact .nil
  | cons t rest ih =>
      obtain ⟨refs, inits, h⟩ := bind_eq_some_iff.mp h
      obtain ⟨tail, later, h⟩ := bind_eq_some_iff.mp h
      cases h
      exact .cons ⟨rfl, inits⟩ (ih later)

theorem shownSegments_shows {l : List SegmentRecord} {shown : List ManifestSegment} (h : asset.shownSegments l = some shown) :
    List.Forall₂ (fun s m => m.segmentId = s.segmentId ∧ asset.refs s.chunks = some m.chunks) l shown := by
  induction l generalizing shown with
  | nil =>
      cases h
      exact .nil
  | cons s rest ih =>
      obtain ⟨refs, chunks, h⟩ := bind_eq_some_iff.mp h
      obtain ⟨tail, later, h⟩ := bind_eq_some_iff.mp h
      cases h
      exact .cons ⟨rfl, chunks⟩ (ih later)

section Shows
variable {A B I : Type} [DecidableEq I] {idOf : A → I} {idOf' : B → I} {chunks : A → List UInt32} {refs : B → List ChunkRef}
  {l : List A} {l' : List B}

theorem find_shown (shows_ : List.Forall₂ (fun a b => idOf' b = idOf a ∧ asset.refs (chunks a) = some (refs b)) l l') (id : I) :
    ((l'.find? fun b => idOf' b = id).map fun b => (refs b).map ChunkRef.hash) =
      (l.find? fun a => idOf a = id).map fun a => ((chunks a).filterMap asset.hashOf).map toHex := by
  induction shows_ with
  | nil => rfl
  | @cons a b _ _ one _ ih =>
      rw [List.find?_cons, List.find?_cons, one.1]
      cases decide (idOf a = id) with
      | true => exact congrArg some (refs_names one.2)
      | false => exact ih

/-- What is referred to are chunks of the table. -/
theorem named_shown (shows_ : List.Forall₂ (fun a b => idOf' b = idOf a ∧ asset.refs (chunks a) = some (refs b)) l l') :
    ∀ b ∈ l', ∀ c ∈ refs b, ∃ idx hash, asset.hashOf idx = some hash ∧ c.hash = toHex hash := by
  induction shows_ with
  | nil => simp
  | @cons a b _ _ one _ ih =>
      refine List.forall_mem_cons.mpr ⟨fun c mem => ?_, ih⟩
      have there : c.hash ∈ ((chunks a).filterMap asset.hashOf).map toHex := refs_names one.2 ▸ List.mem_map_of_mem mem
      obtain ⟨hash, named, same⟩ := List.mem_map.mp there
      obtain ⟨idx, -, found⟩ := List.mem_filterMap.mp named
      exact ⟨idx, hash, found, same.symm⟩

end Shows

/-- The chunks of the first track, or segment, with an id. -/
def Manifest.initsOf (manifest : Manifest) (id : UInt32) : List String :=
  ((manifest.tracks.find? fun t => t.trackId = id).map fun t => t.initChunks.map ChunkRef.hash).getD []

def Manifest.chunksOf (manifest : Manifest) (id : UInt64) : List String :=
  ((manifest.segments.find? fun s => s.segmentId = id).map fun s => s.chunks.map ChunkRef.hash).getD []

/-- What is answered when every track and segment is asked for by its id, which happens
where there is a segment. -/
def Manifest.delivered (manifest : Manifest) : List String :=
  if manifest.segments = [] then []
  else (manifest.tracks.flatMap fun t => manifest.initsOf t.trackId) ++
    manifest.segments.flatMap fun s => manifest.chunksOf s.segmentId

theorem manifest_shown (h : asset.manifest name label = some manifest) :
    asset.shownTracks asset.tracks = some manifest.tracks ∧ asset.shownSegments asset.segments = some manifest.segments := by
  obtain ⟨tracks, ofTracks, h⟩ := bind_eq_some_iff.mp h
  obtain ⟨segments, ofSegments, h⟩ := bind_eq_some_iff.mp h
  obtain ⟨dict, -, h⟩ := bind_eq_some_iff.mp h
  cases h
  exact ⟨ofTracks, ofSegments⟩

theorem initItem_names (h : asset.manifest name label = some manifest) (id : UInt32) :
    ((initItem asset id).names asset).map toHex = manifest.initsOf id := by
  rw [Manifest.initsOf, find_shown (shownTracks_shows (manifest_shown h).1) id, Item.names, initItem]
  cases asset.tracks.find? fun t => t.trackId = id <;> rfl

theorem segmentItem_names (h : asset.manifest name label = some manifest) (id : UInt64) :
    ((segmentItem asset id).names asset).map toHex = manifest.chunksOf id := by
  rw [Manifest.chunksOf, find_shown (shownSegments_shows (manifest_shown h).2) id, Item.names, segmentItem]
  cases asset.segments.find? fun s => s.segmentId = id <;> rfl

theorem mem_segmentGroups {id : UInt64} :
    (∃ group ∈ segmentGroups manifest, id ∈ group) ↔ ∃ s ∈ manifest.segments, s.segmentId = id := by
  rw [segmentGroups, mem_chunksOf (by decide), (List.perm_insertionSort _ _).mem_iff, List.mem_map]

theorem segmentGroups_nil : segmentGroups manifest = [] ↔ manifest.segments = [] := by
  constructor
  · intro none_
    apply List.eq_nil_iff_forall_not_mem.mpr
    intro s mem
    obtain ⟨group, there, -⟩ := mem_segmentGroups.mpr ⟨s, mem, rfl⟩
    rw [none_] at there
    cases there
  · intro none_
    rw [segmentGroups, none_]
    rfl

theorem batchRequests_few (counts : asset.CountsFit) (h : asset.manifest name label = some manifest) :
    ∀ req ∈ batchRequests manifest, req.trackInits.length < 2 ^ 32 ∧ req.segmentIds.length < 2 ^ 32 := by
  have tracks : manifest.tracks.length < 2 ^ 32 := (shownTracks_shows (manifest_shown h).1).length_eq ▸ counts.tracks
  have short : ∀ group ∈ segmentGroups manifest, group.length < 2 ^ 32 := fun group mem =>
    lt_of_le_of_lt (chunksOf_short mem) (by decide)
  unfold batchRequests
  cases groups : segmentGroups manifest with
  | nil => simp
  | cons group rest =>
      obtain ⟨here, later⟩ := List.forall_mem_cons.mp (groups ▸ short)
      refine List.forall_mem_cons.mpr ⟨⟨by simpa using tracks, here⟩, ?_⟩
      intro req mem
      obtain ⟨g, there, rfl⟩ := List.mem_map.mp mem
      exact ⟨Nat.two_pow_pos 32, later g there⟩

/-- The requests of a client name what the manifest says is delivered. -/
theorem mem_requested (h : asset.manifest name label = some manifest) (hex : String) :
    hex ∈ ((batchRequests manifest).flatMap fun req => (req.items asset).flatMap (Item.names asset)).map toHex ↔
      hex ∈ manifest.delivered := by
  have segments : (∃ id, (∃ group ∈ segmentGroups manifest, id ∈ group) ∧ hex ∈ manifest.chunksOf id) ↔
      hex ∈ manifest.segments.flatMap fun s => manifest.chunksOf s.segmentId := by
    simp only [mem_segmentGroups, List.mem_flatMap]
    constructor
    · rintro ⟨_, ⟨s, mem, rfl⟩, there⟩
      exact ⟨s, mem, there⟩
    · rintro ⟨s, mem, there⟩
      exact ⟨_, ⟨s, mem, rfl⟩, there⟩
  have item : ∀ req : BatchRequest, ((req.items asset).flatMap (Item.names asset)).map toHex =
      (req.trackInits.flatMap manifest.initsOf) ++ req.segmentIds.flatMap manifest.chunksOf := by
    intro req
    rw [BatchRequest.items, List.flatMap_append, List.map_append, List.flatMap_map, List.flatMap_map, List.map_flatMap,
      List.map_flatMap]
    simp only [initItem_names h, segmentItem_names h]
  rw [List.map_flatMap]
  simp only [item]
  unfold Manifest.delivered batchRequests
  cases groups : segmentGroups manifest with
  | nil => simp [segmentGroups_nil.mp groups]
  | cons group rest =>
      have some_ : manifest.segments ≠ [] := fun none_ => by simp [segmentGroups_nil.mpr none_] at groups
      rw [if_neg some_, List.mem_append, ← segments, groups]
      simp only [List.flatMap_cons, List.flatMap_map, List.mem_append, List.mem_flatMap, List.flatMap_nil, List.nil_append,
        List.mem_cons]
      constructor
      · rintro ((⟨t, mem, there⟩ | ⟨id, mem, there⟩) | ⟨g, mem, id, inside, there⟩)
        · exact .inl ⟨t, mem, there⟩
        · exact .inr ⟨id, ⟨group, .inl rfl, mem⟩, there⟩
        · exact .inr ⟨id, ⟨g, .inr mem, inside⟩, there⟩
      · rintro (⟨t, mem, there⟩ | ⟨id, ⟨g, rfl | mem, inside⟩, there⟩)
        · exact .inl (.inl ⟨t, mem, there⟩)
        · exact .inl (.inr ⟨id, inside, there⟩)
        · exact .inr ⟨g, mem, id, inside, there⟩

end Named

section Fetched
variable {env : ContainerEnv} {asset : Asset} {content : ChunkHash → Bytes} {disk : ServerDisk} {id name : String}
  {manifest : Manifest} {label : AssetLabel} {server : AppState} {cache : CacheFiles}

/-- A route that is answered ends with the cache it had and what was asked for. -/
theorem fetchSession_holds (true_ : TrueDisk env asset content disk) (counts : asset.CountsFit)
    (shown : asset.manifest name label = some manifest) (serves : Serves id asset server) :
    (∃ what, fetchSession env id disk asset manifest server cache = .error (.refused what)) ∨
      ∃ cache', fetchSession env id disk asset manifest server cache = .ok cache' ∧
        CacheGrown content cache cache' ∧
        ∀ hash, (cache' (toHex hash)).isSome ↔ (cache (toHex hash)).isSome ∨ toHex hash ∈ manifest.delivered := by
  rcases batchLoop_takes true_ counts (batchRequests_few counts shown) serves 0 ⟨cache, []⟩ with
    ⟨what, refused⟩ | ⟨instrs, run, names⟩
  · exact .inl ⟨what, by rw [fetchSession, refused]; rfl⟩
  · have start : RouteState.Follows content cache [] ⟨cache, []⟩ := ⟨fun _ => .inl rfl, fun hash => by simp⟩
    have follows := takes_follow start instrs
    rw [List.nil_append] at follows
    rcases repairRefs_puts true_ (dedupRuns (sortHashes (instrs.foldl (RouteState.take content) ⟨cache, []⟩).missing))
      follows.grown with ⟨what, refused⟩ | ⟨cache', repaired, grown, held⟩
    · exact .inl ⟨what, by rw [fetchSession, run]; exact refused⟩
    · refine .inr ⟨cache', by rw [fetchSession, run]; exact repaired, grown, fun hash => ?_⟩
      have asked := mem_requested shown (toHex hash)
      rw [← names] at asked
      have named : toHex hash ∈ (instrs.map DeliveryInstr.hash).map toHex ↔ hash ∈ instrs.map DeliveryInstr.hash := by
        constructor
        · intro mem
          obtain ⟨g, there, same⟩ := List.mem_map.mp mem
          exact toHex_injective same ▸ there
        · exact List.mem_map_of_mem
      rw [held hash, mem_dedupRuns, mem_sortHashes, follows.held hash, ← asked, named]

end Fetched

end Cavs
