import Cavs.OutputTree
import Cavs.SessionFetched

/-!
# What the session route delivers

From a cache with every chunk of the manifest the files of the tracks are written as the
manifest lists them, except that tracks that are no media lose their inits.
-/
namespace Cavs
open FileProg (Bytes)
open LinkFs (Comp)

section Listed
variable (content : ChunkHash → Bytes) (out : LinkFs.Path) (manifest : Manifest)

/-- The bytes of chunks that are listed by their hex names. -/
def listedBytes (hexes : List String) : Bytes := hexes.flatMap fun hex => content (hexHash hex)

def initBytes (track : ManifestTrack) : Bytes := listedBytes content (track.initChunks.map ChunkRef.hash)

/-- The bytes of a track's segments in presentation order. -/
def segmentBytesOf (track : ManifestTrack) : List Bytes :=
  (trackSegments manifest track).map fun s => listedBytes content (s.chunks.map ChunkRef.hash)

def numbered (dir : List Comp) : List Bytes → (ordinal : Nat) → List WrittenFile
  | [], _ => []
  | bytes :: rest, ordinal => (inDir dir (segName ordinal), bytes) :: numbered dir rest (ordinal + 1)

/-- The files of a track with its inits and segments. -/
def trackFiles (track : ManifestTrack) : List WrittenFile :=
  let dir := joinTo (out.map .name) track.name
  let init := initBytes content track
  let segments := segmentBytesOf content manifest track
  if isMedia track then
    (inDir dir "init.mp4", init) :: (numbered dir segments 0 ++ [(mp4Path out track.name, init ++ segments.flatten)])
  else [(dir, init ++ segments.flatten)]

def listedFiles : List WrittenFile := manifest.tracks.flatMap (trackFiles content out manifest)

end Listed

section Shape
variable {content : ChunkHash → Bytes} {out : LinkFs.Path} {manifest : Manifest}

theorem splitOn_append {α : Type} [DecidableEq α] {sep : α} (l : List α) {s : List α} (clear : sep ∉ s) :
    ∃ front last, l.splitOn sep = front ++ [last] ∧ (l ++ s).splitOn sep = front ++ [last ++ s] := by
  induction l with
  | nil => exact ⟨[], [], rfl, List.splitOnP_eq_singleton fun c mem => by
      simpa using ne_of_mem_of_not_mem mem clear⟩
  | cons c l ih =>
      obtain ⟨front, last, whole, longer⟩ := ih
      rw [List.cons_append, List.splitOn_cons_eq_if_modifyHead, List.splitOn_cons_eq_if_modifyHead, whole, longer]
      split
      · exact ⟨[] :: front, last, rfl, rfl⟩
      · cases front with
        | nil => exact ⟨[], c :: last, rfl, rfl⟩
        | cons head front => exact ⟨(c :: head) :: front, last, rfl, rfl⟩

/-- The combined file lies where the last part of the track's name does, if that is no dots. -/
theorem mp4Path_eq (name : String) : ∃ front last, mp4Path out name = front ++ [.name (last ++ ".mp4".toList)] ∧
    front <+: joinTo (out.map .name) name ∧
      (last ∈ [[], ['.'], ['.', '.']] ∨ joinTo (out.map .name) name = front ++ [.name last]) := by
  obtain ⟨front, last, whole, longer⟩ := @splitOn_append Char _ '/' name.toList ".mp4".toList (by decide)
  have absolute : isAbsolute (name ++ ".mp4") = isAbsolute name := by
    unfold isAbsolute
    rw [String.toList_append]
    cases name.toList <;> rfl
  unfold mp4Path joinTo comps
  rw [absolute, String.toList_append, whole, longer, List.filterMap_append, List.filterMap_append,
    comps_of_plain (l := [last ++ ".mp4".toList])]
  · generalize front.filterMap _ = parts
    refine ⟨(if isAbsolute name then [] else out.map .name) ++ parts, last, ?_, ?_, ?_⟩
    · split <;> simp
    · split <;> simp
    · by_cases dots : last ∈ [[], ['.'], ['.', '.']]
      · exact .inl dots
      · rw [comps_of_plain (by simpa using dots)]
        refine .inr ?_
        split <;> simp
  · refine List.forall_mem_singleton.mpr ⟨?_, ?_, ?_⟩ <;> intro same <;> simpa using congrArg List.length same

theorem dirsOf_subset {p q : List Comp} (front : p <+: q) : dirsOf p ⊆ dirsOf q := fun d mem => by
  obtain ⟨r, inside, rfl⟩ := List.mem_map.mp mem
  exact List.mem_map_of_mem ((List.mem_inits ..).mpr (((List.mem_inits ..).mp inside).trans front))

theorem settle_name (p : List Comp) (n : LinkFs.Name) : settle (p ++ [.name n]) = settle p ++ [n] := by
  rw [settle, List.foldl_append]
  rfl

theorem part_name {p : List Comp} {n : LinkFs.Name} {b : Bytes} :
    OutputTree.part (p ++ [.name n], b) = settle p ++ [n ++ ".part".toList] := by
  rw [OutputTree.part, partOf, List.getLast?_concat, List.dropLast_concat, settle_name]

theorem numbered_spec {dir : List Comp} {segments : List Bytes} {n : Nat} :
    (numbered dir segments n).length = segments.length ∧ ∀ w ∈ numbered dir segments n, ∃ i, w.1 = inDir dir (segName i) := by
  induction segments generalizing n with
  | nil => exact ⟨rfl, nofun⟩
  | cons b rest ih =>
      obtain ⟨long, named⟩ := @ih (n + 1)
      exact ⟨congrArg (· + 1) long, List.forall_mem_cons.mpr ⟨⟨n, rfl⟩, named⟩⟩

theorem trackFiles_shaped : OutputTree.Shaped manifest (trackFiles content out manifest) where
  other track other := ⟨_, by rw [trackFiles, if_neg (by simp [other])]⟩
  media track media := by
    obtain ⟨long, named⟩ := @numbered_spec (joinTo (out.map .name) track.name) (segmentBytesOf content manifest track) 0
    obtain ⟨front, last, combined, within, dir⟩ := @mp4Path_eq out track.name
    refine ⟨_, _, _, by rw [trackFiles, if_pos media], by rw [long, segmentBytesOf, List.length_map], ?_, ?_⟩
    · intro w mem
      refine dirsOf_subset ?_
      rw [inDir, List.dropLast_concat]
      rcases List.mem_append.mp mem with mem | mem
      · obtain ⟨i, at_⟩ := named w mem
        rw [at_, inDir, List.dropLast_concat]
      · rwa [List.mem_singleton.mp mem, combined, List.dropLast_concat]
    · have differs : ∀ {n : LinkFs.Name} {bytes bytes' : Bytes},
          OutputTree.part (joinTo (out.map .name) track.name ++ [.name n], bytes) =
              OutputTree.part (mp4Path out track.name, bytes') →
            settle (joinTo (out.map .name) track.name) = settle front ∧ n = last ++ ".mp4".toList := by
        intro n bytes bytes' same
        rw [combined, part_name, part_name] at same
        obtain ⟨before, ends⟩ := List.append_inj' same rfl
        exact ⟨before, (List.append_inj' (List.singleton_inj.mp ends) rfl).1⟩
      refine List.forall_mem_cons.mpr ⟨fun same => ?_, fun w mem same => ?_⟩
      · obtain ⟨before, ends⟩ := differs same
        have ends : "init".toList ++ ".mp4".toList = last ++ ".mp4".toList := ends
        obtain rfl : "init".toList = last := (List.append_inj' ends rfl).1
        rcases dir with dots | below
        · exact absurd dots (by decide)
        · rw [below, settle_name] at before
          simp at before
      · obtain ⟨i, at_⟩ := named w mem
        obtain ⟨p, bytes⟩ := w
        cases at_
        obtain ⟨-, ends⟩ := differs same
        rw [segName, String.toList_append] at ends
        exact absurd (List.append_inj' ends rfl).2 (by decide)

end Shape

section Read
variable {hashChunk sha256 : Bytes → ChunkHash} {content : ChunkHash → Bytes} {out : LinkFs.Path} {manifest : Manifest}
  {cache : CacheFiles} {c : CacheFiles} {track : ManifestTrack} {files : List WrittenFile}

/-- The cache hands out the chunk of a hex name. -/
def InCache (hashChunk : Bytes → ChunkHash) (content : ChunkHash → Bytes) (cache : CacheFiles) (hex : String) : Prop :=
  ∃ hash, hex = toHex hash ∧ cache.get hashChunk hash = (some (content hash), cache)

theorem CacheReads.bind_ok {α β : Type} {m : CacheReads α} {f : α → CacheReads β} {a : α}
    (h : m cache = .ok (a, c)) : (m >>= f) cache = f a c := by
  change (m cache >>= fun x => f x.1 x.2) = _
  rw [h]
  rfl

theorem CacheReads.pure_ok {α : Type} (a : α) : (pure a : CacheReads α) cache = .ok (a, cache) := rfl

theorem CacheReads.throw_error {α : Type} (e : RouteError) : (throw e : CacheReads α) cache = .error e := rfl

theorem listedBytes_cons (hash : ChunkHash) (rest : List String) :
    listedBytes content (toHex hash :: rest) = content hash ++ listedBytes content rest := by
  rw [listedBytes, List.flatMap_cons, hexHash_toHex, listedBytes]

theorem readChunkHexes_ok {hexes : List String} (all : ∀ hex ∈ hexes, InCache hashChunk content cache hex) :
    readChunkHexes hashChunk hexes cache = .ok (listedBytes content hexes, cache) := by
  induction hexes with
  | nil => rfl
  | cons hex rest ih =>
      obtain ⟨⟨hash, rfl, got⟩, later⟩ := List.forall_mem_cons.mp all
      have one : readChunkHex hashChunk (toHex hash) cache = .ok (content hash, cache) := by
        simp only [readChunkHex, fromHex_toHex, got]
      rw [readChunkHexes, CacheReads.bind_ok one, CacheReads.bind_ok (ih later), CacheReads.pure_ok, listedBytes_cons]

/-- The chunks that a track is put together from are in the cache. -/
def TrackReadable (hashChunk : Bytes → ChunkHash) (content : ChunkHash → Bytes) (cache : CacheFiles) (manifest : Manifest)
    (track : ManifestTrack) : Prop :=
  (isMedia track = true → ∀ c ∈ track.initChunks, InCache hashChunk content cache c.hash) ∧
    ∀ s ∈ trackSegments manifest track, ∀ c ∈ s.chunks, InCache hashChunk content cache c.hash

theorem writeSegments_ok {dir : List Comp} {segments : List ManifestSegment} {ordinal : Nat}
    (all : ∀ s ∈ segments, ∀ c ∈ s.chunks, InCache hashChunk content cache c.hash) :
    writeSegments hashChunk dir segments ordinal cache =
      .ok (numbered dir (segments.map fun s => listedBytes content (s.chunks.map ChunkRef.hash)) ordinal, cache) := by
  induction segments generalizing ordinal with
  | nil => rfl
  | cons s rest ih =>
      obtain ⟨here, later⟩ := List.forall_mem_cons.mp all
      have one := readChunkHexes_ok (List.forall_mem_map.mpr here)
      rw [writeSegments, CacheReads.bind_ok one, CacheReads.bind_ok (ih later), CacheReads.pure_ok]
      rfl

theorem numbered_bytes (dir : List Comp) (l : List Bytes) (ordinal : Nat) : (numbered dir l ordinal).flatMap Prod.snd = l.flatten := by
  induction l generalizing ordinal with
  | nil => rfl
  | cons b rest ih => rw [numbered, List.flatMap_cons, ih, List.flatten_cons]

/-- A media track is written as it is listed. -/
theorem writeMedia_ok (media : isMedia track = true)
    (readable : TrackReadable hashChunk content cache manifest track) :
    writeMedia hashChunk out manifest track cache = .ok (trackFiles content out manifest track, cache) := by
  have inits := readChunkHexes_ok (List.forall_mem_map.mpr (readable.1 media))
  have segments := @writeSegments_ok hashChunk content cache (joinTo (out.map .name) track.name) _ 0 readable.2
  rw [writeMedia, CacheReads.bind_ok inits, CacheReads.bind_ok segments, CacheReads.pure_ok, trackFiles, if_pos media,
    numbered_bytes]
  rfl

/-- The name is safe, and the segments have the digest the manifest may give. -/
def DataAccepted (sha256 : Bytes → ChunkHash) (content : ChunkHash → Bytes) (manifest : Manifest) (track : ManifestTrack) :
    Prop :=
  unsafeName track.name = false ∧ ∀ expected, expectedSha256 manifest track.name = some expected →
    eqIgnoreAsciiCase (toHex (sha256 (segmentBytesOf content manifest track).flatten)) expected = true

theorem listedBytes_flatten (segments : List ManifestSegment) :
    listedBytes content (segments.flatMap fun s => s.chunks.map ChunkRef.hash) =
      (segments.map fun s => listedBytes content (s.chunks.map ChunkRef.hash)).flatten := by
  rw [listedBytes, List.flatMap_assoc, ← List.flatMap_def]
  rfl

/-- Another track is written from its segments alone, where it is accepted. -/
theorem writeData_ok_iff (readable : TrackReadable hashChunk content cache manifest track) :
    writeData hashChunk sha256 out manifest track cache = .ok (files, c) ↔
      DataAccepted sha256 content manifest track ∧ c = cache ∧
        files = [(joinTo (out.map .name) track.name, (segmentBytesOf content manifest track).flatten)] := by
  have chunks : ∀ hex ∈ (trackSegments manifest track).flatMap (fun s => s.chunks.map ChunkRef.hash),
      InCache hashChunk content cache hex := by
    intro hex mem
    obtain ⟨s, there, mem⟩ := List.mem_flatMap.mp mem
    obtain ⟨c, inside, rfl⟩ := List.mem_map.mp mem
    exact readable.2 s there c inside
  have read := readChunkHexes_ok chunks
  rw [listedBytes_flatten] at read
  unfold writeData DataAccepted
  cases safe : unsafeName track.name with
  | true => simp [CacheReads.throw_error]
  | false =>
      rw [if_neg (by decide), CacheReads.bind_ok read]
      cases expectedSha256 manifest track.name with
      | none =>
          simp only [CacheReads.pure_ok, segmentBytesOf, Except.ok.injEq, Prod.mk.injEq]
          tauto
      | some expected =>
          have digest : (segmentBytesOf content manifest track).flatten =
            ((trackSegments manifest track).map fun s => listedBytes content (s.chunks.map ChunkRef.hash)).flatten := rfl
          simp only [digest]
          split
          · rename_i same
            simp only [CacheReads.pure_ok, Except.ok.injEq, Prod.mk.injEq, Option.some.injEq, forall_eq', same]
            tauto
          · rename_i differs
            simp [CacheReads.throw_error, differs]

theorem CacheReads.bind_ok_iff {α β : Type} {m : CacheReads α} {f : α → CacheReads β} {b : β} :
    (m >>= f) cache = .ok (b, c) ↔ ∃ a c', m cache = .ok (a, c') ∧ f a c' = .ok (b, c) := by
  change (m cache >>= fun x => f x.1 x.2) = _ ↔ _
  cases m cache with
  | error e =>
      constructor
      · rintro ⟨⟩
      · rintro ⟨a, c', ⟨⟩, -⟩
  | ok x =>
      constructor
      · exact fun h => ⟨x.1, x.2, rfl, h⟩
      · rintro ⟨a, c', ⟨⟩, h⟩
        exact h

variable (content out manifest) in
/-- What is written for a track. -/
def writtenFiles (track : ManifestTrack) : List WrittenFile :=
  if isMedia track then trackFiles content out manifest track
  else [(joinTo (out.map .name) track.name, (segmentBytesOf content manifest track).flatten)]

theorem writeTrackFiles_ok_iff (readable : TrackReadable hashChunk content cache manifest track) :
    writeTrackFiles hashChunk sha256 out manifest track cache = .ok (files, c) ↔
      (isMedia track = false → DataAccepted sha256 content manifest track) ∧ c = cache ∧
        files = writtenFiles content out manifest track := by
  unfold writeTrackFiles writtenFiles
  cases media : isMedia track with
  | true =>
      rw [if_pos rfl, if_pos rfl, writeMedia_ok media readable]
      simp [eq_comm, and_comm]
  | false =>
      rw [if_neg (by decide), if_neg (by decide), writeData_ok_iff readable]
      simp

theorem writeAllTracks_ok_iff {tracks : List ManifestTrack}
    (readable : ∀ track ∈ tracks, TrackReadable hashChunk content cache manifest track) :
    writeAllTracks hashChunk sha256 out manifest tracks cache = .ok (files, c) ↔
      (∀ track ∈ tracks, isMedia track = false → DataAccepted sha256 content manifest track) ∧ c = cache ∧
        files = tracks.flatMap (writtenFiles content out manifest) := by
  induction tracks generalizing files c with
  | nil =>
      rw [writeAllTracks, CacheReads.pure_ok]
      simp only [List.not_mem_nil, false_implies, implies_true, true_and, List.flatMap_nil, Except.ok.injEq, Prod.mk.injEq]
      rw [and_comm, eq_comm, @eq_comm _ files]
  | cons track rest ih =>
      obtain ⟨here, later⟩ := List.forall_mem_cons.mp readable
      rw [writeAllTracks, CacheReads.bind_ok_iff, List.forall_mem_cons, List.flatMap_cons]
      constructor
      · rintro ⟨first, c', one, run⟩
        obtain ⟨accepted, rfl, rfl⟩ := (writeTrackFiles_ok_iff here).mp one
        obtain ⟨more, c', others, run⟩ := CacheReads.bind_ok_iff.mp run
        obtain ⟨all, rfl, rfl⟩ := (ih later).mp others
        cases run
        exact ⟨⟨accepted, all⟩, rfl, rfl⟩
      · rintro ⟨⟨accepted, all⟩, rfl, rfl⟩
        refine ⟨_, _, (writeTrackFiles_ok_iff here).mpr ⟨accepted, rfl, rfl⟩, ?_⟩
        exact CacheReads.bind_ok_iff.mpr ⟨_, _, (ih later).mpr ⟨all, rfl, rfl⟩, rfl⟩

theorem flatMap_eq_iff {A B : Type} {f g : A → List B} {l : List A} (long : ∀ x ∈ l, (f x).length = (g x).length) :
    l.flatMap f = l.flatMap g ↔ ∀ x ∈ l, f x = g x := by
  induction l with
  | nil => simp
  | cons x rest ih =>
      obtain ⟨here, later⟩ := List.forall_mem_cons.mp long
      rw [List.flatMap_cons, List.flatMap_cons, List.forall_mem_cons, ← ih later]
      constructor
      · exact fun same => List.append_inj same here
      · rintro ⟨same, more⟩
        rw [same, more]

/-- The files are the listed ones exactly when only media tracks have inits. -/
theorem written_listed_iff :
    manifest.tracks.flatMap (writtenFiles content out manifest) = listedFiles content out manifest ↔
      ∀ track ∈ manifest.tracks, isMedia track = false → initBytes content track = [] := by
  have long : ∀ track ∈ manifest.tracks,
      (writtenFiles content out manifest track).length = (trackFiles content out manifest track).length := by
    intro track _
    unfold writtenFiles
    split
    · rfl
    · rename_i other
      simp [trackFiles, other]
  rw [listedFiles, flatMap_eq_iff long]
  apply forall₂_congr
  intro track _
  unfold writtenFiles
  cases media : isMedia track with
  | true => simp
  | false =>
      rw [if_neg (by decide), trackFiles, if_neg (by simp [media])]
      simp

end Read

section Route
variable {env : ContainerEnv} {sha256 : Bytes → ChunkHash} {content : ChunkHash → Bytes} {asset : Asset} {disk : ServerDisk}
  {id name : String} {label : AssetLabel} {manifest : Manifest} {state server : AppState} {cache : CacheFiles}
  {out : LinkFs.Path} {old : OutputTree}

/-- A manifest refers to chunks of the table by their names. -/
theorem manifest_named (h : asset.manifest name label = some manifest) :
    ∀ hex ∈ manifestChunkHashes manifest, ∃ idx hash, asset.hashOf idx = some hash ∧ hex = toHex hash := by
  intro hex mem
  obtain ⟨tracks, segments⟩ := manifest_shown h
  rcases List.mem_append.mp mem with inits | chunks
  · obtain ⟨t, there, mem⟩ := List.mem_flatMap.mp inits
    obtain ⟨c, inside, rfl⟩ := List.mem_map.mp mem
    exact named_shown (shownTracks_shows tracks) t there c inside
  · obtain ⟨s, there, mem⟩ := List.mem_flatMap.mp chunks
    obtain ⟨c, inside, rfl⟩ := List.mem_map.mp mem
    exact named_shown (shownSegments_shows segments) s there c inside

theorem tracks_readable {hashChunk : Bytes → ChunkHash}
    (all : ∀ hex ∈ manifestChunkHashes manifest, InCache hashChunk content cache hex) :
    ∀ track ∈ manifest.tracks, TrackReadable hashChunk content cache manifest track := by
  intro track mem
  constructor
  · intro _ c inside
    exact all c.hash (List.mem_append_left _ (List.mem_flatMap.mpr ⟨track, mem, List.mem_map_of_mem inside⟩))
  · intro s there c inside
    have listed : s ∈ manifest.segments := (List.mem_filter.mp ((List.perm_insertionSort _ _).mem_iff.mp there)).1
    exact all c.hash (List.mem_append_right _ (List.mem_flatMap.mpr ⟨s, listed, List.mem_map_of_mem inside⟩))

/-- The route is through, every chunk of the manifest can be read from the cache, and the
files of every track are put together as they are listed and lie in their places at the end. -/
def SessionDelivers (env : ContainerEnv) (sha256 : Bytes → ChunkHash) (content : ChunkHash → Bytes) (id : String)
    (disk : ServerDisk) (asset : Asset) (manifest : Manifest) (server : AppState) (cache : CacheFiles) (out : LinkFs.Path)
    (old : OutputTree) : Prop :=
  ∃ fetched, fetchSession env id disk asset manifest server cache = .ok fetched ∧
    (∀ hex ∈ manifestChunkHashes manifest, ∃ hash raw, fromHex hex = some hash ∧
      (fetched.get env.hashChunk hash).1 = some raw) ∧
    (∃ left, reconstructStreaming env.hashChunk sha256 out manifest fetched =
      .ok (listedFiles content out manifest, left)) ∧
    ∃ t, old.receive out manifest (listedFiles content out manifest) = some t ∧
      ∀ w ∈ listedFiles content out manifest, t (OutputTree.place w) = some (.file w.2)

/-- Every chunk is cached or answered for, tracks that are no media have no inits, safe names
of files and the digests the manifest gives, and there is room for every file beside the others. -/
structure RouteCovers (sha256 : Bytes → ChunkHash) (content : ChunkHash → Bytes) (manifest : Manifest) (cache : CacheFiles)
    (out : LinkFs.Path) (old : OutputTree) : Prop where
  reached : ∀ hex ∈ manifestChunkHashes manifest, (cache hex).isSome = true ∨ hex ∈ manifest.delivered
  data : ∀ track ∈ manifest.tracks, isMedia track = false →
    DataAccepted sha256 content manifest track ∧ endsInPart track.name = true ∧ initBytes content track = []
  room : OutputTree.Roomy out (listedFiles content out manifest) old
  apart : ∀ w ∈ listedFiles content out manifest,
    Lasts OutputTree.place OutputTree.part (fun w => OutNode.file w.2) (listedFiles content out manifest) w

theorem openSession_serves {announcement : Announcement} (h : openSession state name id announcement = some server)
    (served : state.assets name = some asset) : Serves id asset server := by
  obtain ⟨other, named, h⟩ := Option.bind_eq_some_iff.mp h
  obtain ⟨known, -, h⟩ := Option.bind_eq_some_iff.mp h
  split at h
  · cases h
  · cases h
    exact ⟨⟨name, known⟩, if_pos rfl, served⟩

/-- Whatever is announced when the session is opened, a route whose requests are answered
delivers the asset exactly where it covers it. -/
theorem session_delivers_iff {announcement : Announcement} (opened : openSession state name id announcement = some server)
    (served : state.assets name = some asset) (shown : asset.manifest name label = some manifest)
    (counts : asset.CountsFit) (true_ : TrueDisk env asset content disk)
    (valid : ∀ hash b, cache (toHex hash) = some b → b = content hash)
    (answered : ∀ what, fetchSession env id disk asset manifest server cache ≠ .error (.refused what)) :
    SessionDelivers env sha256 content id disk asset manifest server cache out old ↔
      RouteCovers sha256 content manifest cache out old := by
  have serves := openSession_serves opened served
  rcases @fetchSession_holds env asset content disk id name manifest label server cache true_ counts shown serves with
    ⟨what, refused⟩ | ⟨fetched, run, grown, held⟩
  · exact absurd refused (answered what)
  have entries : ∀ hash b, fetched (toHex hash) = some b → b = content hash := by
    intro hash b found
    rcases grown hash with same | ⟨-, same⟩
    · exact valid hash b (same ▸ found)
    · rw [same] at found
      exact (Option.some.inj found).symm
  have readable : ∀ hex ∈ manifestChunkHashes manifest,
      ((cache hex).isSome = true ∨ hex ∈ manifest.delivered) → InCache env.hashChunk content fetched hex := by
    intro hex mem reached
    obtain ⟨idx, hash, found, rfl⟩ := manifest_named shown hex mem
    obtain ⟨raw, there⟩ := Option.isSome_iff_exists.mp ((held hash).mpr reached)
    have named := true_.named idx hash found
    obtain rfl := entries hash raw there
    exact ⟨hash, rfl, by simp [CacheFiles.get, there, named]⟩
  have files : ∀ l left, (∀ hex ∈ manifestChunkHashes manifest, InCache env.hashChunk content fetched hex) →
      (reconstructStreaming env.hashChunk sha256 out manifest fetched = .ok (l, left) ↔
        (∀ track ∈ manifest.tracks, isMedia track = false → DataAccepted sha256 content manifest track) ∧ left = fetched ∧
          l = manifest.tracks.flatMap (writtenFiles content out manifest)) :=
    fun l left all => writeAllTracks_ok_iff (tracks_readable all)
  have placed := @OutputTree.receive_iff _ _ out old (@trackFiles_shaped content out manifest)
  constructor
  · rintro ⟨_, run', read, ⟨left, written⟩, lasting⟩
    cases run.symm.trans run'
    have reached : ∀ hex ∈ manifestChunkHashes manifest, (cache hex).isSome = true ∨ hex ∈ manifest.delivered := by
      intro hex mem
      obtain ⟨idx, hash, found, rfl⟩ := manifest_named shown hex mem
      obtain ⟨other, raw, same, got⟩ := read (toHex hash) mem
      rw [fromHex_toHex] at same
      cases same
      apply (held hash).mp
      cases there : fetched (toHex hash) with
      | none => simp [CacheFiles.get, there] at got
      | some b => rfl
    obtain ⟨accepted, -, same⟩ := (files _ left fun hex mem => readable hex mem (reached hex mem)).mp written
    have inits := written_listed_iff.mp same.symm
    obtain ⟨names, room, lasts⟩ := placed.mp lasting
    exact ⟨reached, fun track mem other => ⟨accepted track mem other, names track mem other, inits track mem other⟩,
      room, lasts⟩
  · rintro ⟨reached, data, room, apart⟩
    have all : ∀ hex ∈ manifestChunkHashes manifest, InCache env.hashChunk content fetched hex := fun hex mem =>
      readable hex mem (reached hex mem)
    refine ⟨fetched, run, ?_, ⟨fetched, ?_⟩, placed.mpr ⟨fun track mem other => (data track mem other).2.1, room, apart⟩⟩
    · intro hex mem
      obtain ⟨hash, rfl, got⟩ := all hex mem
      exact ⟨hash, content hash, fromHex_toHex hash, by rw [got]⟩
    · refine (files _ _ all).mpr ⟨fun track mem other => (data track mem other).1, rfl, ?_⟩
      exact (written_listed_iff.mpr fun track mem other => (data track mem other).2.2).symm

end Route

section Sample

/-- A track whose init is its only chunk, with these segments. -/
def clip (segments : List SegmentRecord) : Asset where
  source := .file
  tracks := [⟨1, .video, 0, "", "v", 0, [0]⟩]
  segments
  chunkMeta := [⟨numberHash [1], 1, 1, 0⟩]
  numbered := oneChunk.numbered

def clipSegment : SegmentRecord := ⟨0, 1, 0, 0, 0, [0]⟩

def clipDisk : ServerDisk := ⟨fun _ => readsOne, fun _ => some [1]⟩

def clipLabel : AssetLabel := ⟨"", "", none, [], []⟩

def clipRef : ChunkRef := ⟨toHex (numberHash [1]), 1⟩

def clipManifest (segments : List ManifestSegment) : Manifest where
  asset := "a"
  assetUuid := ""
  tracks := [⟨1, "video", "", "v", 0, [clipRef]⟩]
  segments
  dict := []
  chunkTable := [toHex (numberHash [1])]
  merkleRoot := ""
  signature := none
  signerPubkey := none
  metaPairs := []

def clipServer (segments : List SegmentRecord) (sessions : String → Option Session) : AppState where
  assets name := if name = "a" then some (clip segments) else none
  sessions
  poisoned := false
  maxCold := 0

def clipSession (segments : List SegmentRecord) : AppState :=
  clipServer segments fun i => if i = "s" then some ⟨"a", ∅⟩ else none

theorem clip_opens (segments : List SegmentRecord) :
    openSession (clipServer segments fun _ => none) "a" "s" (.have_ []) = some (clipSession segments) := rfl

theorem clip_true (segments : List SegmentRecord) : TrueDisk plainEnv (clip segments) (fun _ => [1]) clipDisk where
  named := by
    intro idx hash found
    obtain ⟨c, there, rfl⟩ := Option.map_eq_some_iff.mp found
    have mem : c ∈ (clip segments).chunkMeta := List.mem_of_getElem? there
    rw [List.mem_singleton.mp mem]
    rfl
  batch := by
    intro n k cold payloads read
    have each : readEach (clip segments) (readsOne k) cold = .ok payloads := read
    clear read
    induction cold generalizing payloads with
    | nil =>
        cases each
        exact List.Forall₂.nil
    | cons idx rest ih =>
        rw [readEach] at each
        split at each
        · obtain ⟨stored, one, each⟩ := ok_of_bindE each
          obtain ⟨tail, later, each⟩ := ok_of_bindE each
          cases one
          cases each
          exact List.Forall₂.cons (fun hash _ => ⟨rfl, rfl, by decide, by decide, by decide⟩) (ih tail later)
        · cases each
  raw := by
    rintro idx b ⟨⟩ hash -
    rfl

theorem clip_counts (segments : List SegmentRecord) (short : ∀ s ∈ segments, s.chunks.length < 2 ^ 32) :
    (clip segments).CountsFit := by
  have one : (1 : Nat) < 2 ^ 32 := by decide
  exact ⟨one, by simp [clip], short⟩

/-- What the manifest shows of the segment. -/
def clipShown : ManifestSegment := ⟨0, 1, 0, 0, false, [clipRef]⟩

theorem ok_of_toBool {ε α : Type} {x : Except ε α} (h : x.toBool = true) : ∃ a, x = .ok a := by
  cases x with
  | error e => cases h
  | ok a => exact ⟨a, rfl⟩

/-- With a segment the track is fetched and written, to a new place. -/
theorem session_delivers_clip :
    SessionDelivers plainEnv numberHash (fun _ => [1]) "s" clipDisk (clip [clipSegment]) (clipManifest [clipShown])
      (clipSession [clipSegment]) (fun _ => none) [] fun _ => none := by
  have shown : (clip [clipSegment]).manifest "a" clipLabel = some (clipManifest [clipShown]) := rfl
  have answered : (fetchSession plainEnv "s" clipDisk (clip [clipSegment]) (clipManifest [clipShown])
      (clipSession [clipSegment]) fun _ => none).toBool = true := by decide +kernel
  obtain ⟨c, run⟩ := ok_of_toBool answered
  have files : listedFiles (fun _ => [1]) [] (clipManifest [clipShown]) =
      [([.name ['v'], .name "init.mp4".toList], [1]), ([.name ['v'], .name "seg_00000.m4s".toList], [1]),
        ([.name "v.mp4".toList], [1, 1])] := rfl
  refine (session_delivers_iff (clip_opens [clipSegment]) rfl shown (clip_counts _ (by decide)) (clip_true _) (by simp)
    (by simp [run])).mpr ⟨by decide, ?_, ?_, ?_⟩
  · intro track mem other
    cases List.mem_singleton.mp mem
    cases other
  · refine ⟨fun _ _ _ => nofun, fun w mem => ⟨?_, nofun⟩, fun l w r split => ⟨fun _ _ _ _ => nofun, ?_, nofun⟩⟩
    · revert w
      rw [files]
      decide
    · intro inside
      have aside : ∀ w ∈ listedFiles (fun _ => [1]) [] (clipManifest [clipShown]),
          OutputTree.part w ∉ OutputTree.neededDirs [] (listedFiles (fun _ => [1]) [] (clipManifest [clipShown])) := by
        rw [files]
        decide
      rw [split, List.append_cons] at aside
      exact aside w (by simp) (OutputTree.neededDirs_front inside)
  · rw [files]
    simp only [List.forall_mem_cons, List.not_mem_nil, false_implies, implies_true, and_true]
    exact ⟨⟨[], _, _, rfl, rfl, rfl, by decide⟩, ⟨[_], _, _, rfl, rfl, rfl, by decide⟩,
      ⟨[_, _], _, [], rfl, rfl, rfl, by decide⟩⟩

/-- Without segments nothing is asked for, and the init of the track stays away. -/
theorem session_falls_short :
    openSession (clipServer [] fun _ => none) "a" "s" (.have_ []) = some (clipSession []) ∧
    (clip []).manifest "a" clipLabel = some (clipManifest []) ∧
    fetchSession plainEnv "s" clipDisk (clip []) (clipManifest []) (clipSession []) (fun _ => none) = .ok (fun _ => none) ∧
    ¬ SessionDelivers plainEnv numberHash (fun _ => [1]) "s" clipDisk (clip []) (clipManifest []) (clipSession [])
      (fun _ => none) [] fun _ => none := by
  refine ⟨rfl, rfl, rfl, ?_⟩
  rintro ⟨fetched, run, read, -⟩
  cases run
  obtain ⟨hash, raw, -, got⟩ := read (toHex (numberHash [1])) (by decide)
  cases got

end Sample

end Cavs
