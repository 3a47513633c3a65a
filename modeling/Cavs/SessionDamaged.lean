import Cavs.FetchDamaged
import Cavs.SessionDelivers

/-!
# The routes over a damaged cache

A client goes by the entries' names when it asks for chunks, and the repairs too; what it has
is first looked into when the files are put together. So its session route, like a fetch
from a static tree, ends as from an empty cache where the entries it reads have their hashes.
-/
namespace Cavs
open FileProg (Bytes File World get_put_ne get_put_self)
open LinkFs (Comp)
open CacheReads (bind_ok_iff pure_ok)

section Reads
variable {hashChunk sha256 : Bytes → ChunkHash} {out : LinkFs.Path} {manifest : Manifest} {cache c : CacheFiles}
  {files : List WrittenFile}

/-- The hashes whose chunks a track is put together from. -/
def trackHexes (manifest : Manifest) (track : ManifestTrack) : List String :=
  (if isMedia track then track.initChunks.map ChunkRef.hash else []) ++
    (trackSegments manifest track).flatMap fun s => s.chunks.map ChunkRef.hash

/-- The cache has an entry with the hash. -/
def HexRead (hashChunk : Bytes → ChunkHash) (cache : CacheFiles) (hex : String) : Prop :=
  ∃ hash b, fromHex hex = some hash ∧ cache (toHex hash) = some b ∧ hashChunk b = hash

theorem readChunkHex_reads {hex : String} {b : Bytes} (run : readChunkHex hashChunk hex cache = .ok (b, c)) :
    c = cache ∧ HexRead hashChunk cache hex := by
  cases named : fromHex hex with
  | none =>
      simp only [readChunkHex, named] at run
      cases run
  | some hash =>
      cases there : cache (toHex hash) with
      | none =>
          simp only [readChunkHex, named, CacheFiles.get, there] at run
          cases run
      | some payload =>
          by_cases right : hashChunk payload = hash
          · simp only [readChunkHex, named, CacheFiles.get, there, right, ne_eq, not_true_eq_false, if_false] at run
            cases run
            exact ⟨rfl, hash, b, named, there, right⟩
          · simp only [readChunkHex, named, CacheFiles.get, there, right, ne_eq, not_false_eq_true, if_true] at run
            cases run

theorem readChunkHexes_reads {hexes : List String} {b : Bytes} (run : readChunkHexes hashChunk hexes cache = .ok (b, c)) :
    c = cache ∧ ∀ hex ∈ hexes, HexRead hashChunk cache hex := by
  induction hexes generalizing b c with
  | nil =>
      cases run
      exact ⟨rfl, by simp⟩
  | cons hex rest ih =>
      obtain ⟨raw, c', one, next⟩ := bind_ok_iff.mp run
      obtain ⟨rfl, here⟩ := readChunkHex_reads one
      obtain ⟨more, c', others, last⟩ := bind_ok_iff.mp next
      obtain ⟨rfl, later⟩ := ih others
      cases last
      exact ⟨rfl, List.forall_mem_cons.mpr ⟨here, later⟩⟩

theorem writeSegments_reads {dir : List Comp} {segments : List ManifestSegment} {ordinal : Nat}
    (run : writeSegments hashChunk dir segments ordinal cache = .ok (files, c)) :
    c = cache ∧ ∀ hex ∈ segments.flatMap (fun s => s.chunks.map ChunkRef.hash), HexRead hashChunk cache hex := by
  induction segments generalizing ordinal files c with
  | nil =>
      cases run
      exact ⟨rfl, by simp⟩
  | cons s rest ih =>
      obtain ⟨bytes, c', one, next⟩ := bind_ok_iff.mp run
      obtain ⟨rfl, here⟩ := readChunkHexes_reads one
      obtain ⟨more, c', others, last⟩ := bind_ok_iff.mp next
      obtain ⟨rfl, later⟩ := ih others
      cases last
      exact ⟨rfl, by rw [List.flatMap_cons]; exact List.forall_mem_append.mpr ⟨here, later⟩⟩

/-- A track that is put together has been read whole. -/
theorem writeTrackFiles_reads {track : ManifestTrack}
    (run : writeTrackFiles hashChunk sha256 out manifest track cache = .ok (files, c)) :
    c = cache ∧ ∀ hex ∈ trackHexes manifest track, HexRead hashChunk cache hex := by
  unfold writeTrackFiles at run
  unfold trackHexes
  cases media : isMedia track with
  | true =>
      rw [media, if_pos rfl] at run
      obtain ⟨init, c', one, next⟩ := bind_ok_iff.mp run
      obtain ⟨rfl, inits⟩ := readChunkHexes_reads one
      obtain ⟨segments, c', others, last⟩ := bind_ok_iff.mp next
      obtain ⟨rfl, chunks⟩ := writeSegments_reads others
      cases last
      exact ⟨rfl, List.forall_mem_append.mpr ⟨inits, chunks⟩⟩
  | false =>
      rw [media, if_neg (by decide)] at run
      unfold writeData at run
      cases safe : unsafeName track.name with
      | true =>
          rw [safe, if_pos rfl] at run
          cases run
      | false =>
          rw [safe, if_neg (by decide)] at run
          obtain ⟨bytes, c', one, next⟩ := bind_ok_iff.mp run
          obtain ⟨rfl, chunks⟩ := readChunkHexes_reads one
          refine ⟨?_, chunks⟩
          cases given : expectedSha256 manifest track.name with
          | none =>
              simp only [given, pure_ok, Except.ok.injEq, Prod.mk.injEq] at next
              exact next.2.symm
          | some expected =>
              simp only [given] at next
              split at next
              · simp only [pure_ok, Except.ok.injEq, Prod.mk.injEq] at next
                exact next.2.symm
              · cases next

theorem writeAllTracks_reads {tracks : List ManifestTrack}
    (run : writeAllTracks hashChunk sha256 out manifest tracks cache = .ok (files, c)) :
    ∀ track ∈ tracks, ∀ hex ∈ trackHexes manifest track, HexRead hashChunk cache hex := by
  induction tracks generalizing files c with
  | nil => simp
  | cons track rest ih =>
      obtain ⟨first, c', one, next⟩ := bind_ok_iff.mp run
      obtain ⟨rfl, here⟩ := writeTrackFiles_reads one
      obtain ⟨more, c', others, -⟩ := bind_ok_iff.mp next
      exact List.forall_mem_cons.mpr ⟨here, ih others⟩

end Reads

section Route
variable {env : ContainerEnv} {sha256 : Bytes → ChunkHash} {content : ChunkHash → Bytes} {asset : Asset}
  {disk disk' : ServerDisk} {id id' name : String} {label : AssetLabel} {manifest : Manifest} {server server' : AppState}
  {cache : CacheFiles} {out : LinkFs.Path} {files : List WrittenFile}

theorem trackHexes_named (shown : asset.manifest name label = some manifest) {track : ManifestTrack}
    (mem : track ∈ manifest.tracks) {hex : String} (read : hex ∈ trackHexes manifest track) :
    ∃ idx hash, asset.hashOf idx = some hash ∧ hex = toHex hash := by
  apply manifest_named shown
  rcases List.mem_append.mp read with inits | chunks
  · split at inits
    · exact List.mem_append_left _ (List.mem_flatMap.mpr ⟨track, mem, inits⟩)
    · cases inits
  · obtain ⟨s, there, inside⟩ := List.mem_flatMap.mp chunks
    have kept := (List.mem_filter.mp ((List.perm_insertionSort _ _).mem_iff.mp there)).1
    exact List.mem_append_right _ (List.mem_flatMap.mpr ⟨s, kept, inside⟩)

/-- The route over the cache is through and puts these files together. -/
def RouteWrites (env : ContainerEnv) (sha256 : Bytes → ChunkHash) (id : String) (disk : ServerDisk) (asset : Asset)
    (manifest : Manifest) (server : AppState) (cache : CacheFiles) (out : LinkFs.Path) (files : List WrittenFile) : Prop :=
  ∃ fetched left, fetchSession env id disk asset manifest server cache = .ok fetched ∧
    reconstructStreaming env.hashChunk sha256 out manifest fetched = .ok (files, left)

theorem readable_of_reads {fetched : CacheFiles} {track : ManifestTrack}
    (all : ∀ hex ∈ trackHexes manifest track, InCache env.hashChunk content fetched hex) :
    TrackReadable env.hashChunk content fetched manifest track := by
  constructor
  · intro media c mem
    apply all
    rw [trackHexes, if_pos media]
    exact List.mem_append_left _ (List.mem_map_of_mem mem)
  · intro s there c mem
    exact all c.hash (List.mem_append_right _ (List.mem_flatMap.mpr ⟨s, there, List.mem_map_of_mem mem⟩))

/-- A route whose requests are answered ends as from an empty cache exactly where the entries
it reads have their hashes. -/
theorem route_as_empty_iff (true_ : TrueDisk env asset content disk) (true' : TrueDisk env asset content disk')
    (counts : asset.CountsFit) (shown : asset.manifest name label = some manifest) (serves : Serves id asset server)
    (serves' : Serves id' asset server')
    (clean : RouteWrites env sha256 id' disk' asset manifest server' (fun _ => none) out files)
    (answered : ∀ what, fetchSession env id disk asset manifest server cache ≠ .error (.refused what))
    (clear : ∀ hash b, cache (toHex hash) = some b → env.hashChunk b = hash → b = content hash) :
    RouteWrites env sha256 id disk asset manifest server cache out files ↔
      ∀ track ∈ manifest.tracks, ∀ hex ∈ trackHexes manifest track, ∀ b, cache hex = some b → env.hashChunk b = hexHash hex := by
  rcases @fetchSession_holds env asset content disk id name manifest label server cache true_ counts shown serves with
    ⟨what, refused⟩ | ⟨fetched, run, grown, held⟩
  · exact absurd refused (answered what)
  obtain ⟨first, left', run', written'⟩ := clean
  rcases @fetchSession_holds env asset content disk' id' name manifest label server' (fun _ => none) true' counts shown serves'
    with ⟨what, refused⟩ | ⟨_, run'', grown', held'⟩
  · cases run'.symm.trans refused
  cases run'.symm.trans run''
  have reads' := writeAllTracks_reads written'
  constructor
  · rintro ⟨_, left, ran, written⟩ track mem hex read b there
    cases run.symm.trans ran
    obtain ⟨idx, hash, -, rfl⟩ := trackHexes_named shown mem read
    obtain ⟨_, payload, same, found, named⟩ := writeAllTracks_reads written track mem _ read
    cases (fromHex_toHex hash).symm.trans same
    rcases grown hash with kept | ⟨absent, -⟩
    · rw [kept, there] at found
      cases found
      rw [named, hexHash_toHex]
    · cases there.symm.trans absent
  · intro intact
    have clean : ∀ track ∈ manifest.tracks, ∀ hex ∈ trackHexes manifest track,
        InCache env.hashChunk content fetched hex ∧ InCache env.hashChunk content first hex := by
      intro track mem hex read
      obtain ⟨idx, hash, found, rfl⟩ := trackHexes_named shown mem read
      have named := true_.named idx hash found
      have get : ∀ c : CacheFiles, c (toHex hash) = some (content hash) → InCache env.hashChunk content c (toHex hash) :=
        fun c there => ⟨hash, rfl, by simp [CacheFiles.get, there, named]⟩
      obtain ⟨_, b, same, there, -⟩ := reads' track mem _ read
      cases (fromHex_toHex hash).symm.trans same
      have delivered : toHex hash ∈ manifest.delivered := by
        have some_ := (held' hash).mp (by rw [there]; rfl)
        exact some_.resolve_left (by simp)
      have first_ : first (toHex hash) = some (content hash) := by
        rcases grown' hash with kept | ⟨-, new⟩
        · cases there.symm.trans kept
        · exact new
      refine ⟨get fetched ?_, get first first_⟩
      obtain ⟨b, here⟩ := Option.isSome_iff_exists.mp ((held hash).mpr (.inr delivered))
      rcases grown hash with kept | ⟨-, new⟩
      · rw [kept] at here ⊢
        have right := intact track mem _ read b here
        rw [hexHash_toHex] at right
        rw [here, clear hash b here right]
      · exact new
    have readable := fun track mem => readable_of_reads fun hex read => (clean track mem hex read).1
    have readable' := fun track mem => readable_of_reads fun hex read => (clean track mem hex read).2
    obtain ⟨accepted, -, rfl⟩ := (writeAllTracks_ok_iff readable').mp written'
    exact ⟨fetched, fetched, run, (writeAllTracks_ok_iff readable).mpr ⟨accepted, rfl, rfl⟩⟩

end Route

section Damaged
variable {env : ContainerEnv} {packs : String → Bytes} {content : ChunkHash → Bytes} {sha256 : Bytes → ChunkHash}

/-- Over any cache and with every request answered, a fetch from a static tree ends as from an
empty cache, and a client's session route too, exactly where each entry that their
reconstruction reads has its hash. -/
theorem damaged_cache_iff
    {call : FetchCall} {listed : Manifest} {chunks : List ChunkMapEntry} {w empty output : FetchDisk} {stats : FetchStats}
    (resolved : call.resolved = .ok (listed, chunks)) (served : ServesManifest env packs content listed chunks)
    (none_ : ∀ hex, empty.get (.chunk hex) = none) (before : World.Like FetchPath.IsOut w empty)
    (clean : AnsweredFetch env packs sha256 (fetchSem faultless) call empty (.ok stats) output)
    (clear : ∀ hex f, w.get (.chunk hex) = some f → env.hashChunk f.bytes = hexHash hex → f.bytes = content (hexHash hex))
    {asset : Asset} {disk disk' : ServerDisk} {id id' name : String} {label : AssetLabel} {manifest : Manifest}
    {server server' : AppState} {cache : CacheFiles} {out : LinkFs.Path} {files : List WrittenFile}
    (true_ : TrueDisk env asset content disk) (true' : TrueDisk env asset content disk') (counts : asset.CountsFit)
    (shown : asset.manifest name label = some manifest) (serves : Serves id asset server) (serves' : Serves id' asset server')
    (clean' : RouteWrites env sha256 id' disk' asset manifest server' (fun _ => none) out files)
    (answered : ∀ what, fetchSession env id disk asset manifest server cache ≠ .error (.refused what))
    (clear' : ∀ hash b, cache (toHex hash) = some b → env.hashChunk b = hash → b = content hash) :
    (EndsWith env packs sha256 (fetchSem faultless) call w output ↔
      ∀ track ∈ listed.tracks, ∀ hex ∈ listedHashes listed track, ∀ f, w.get (.chunk hex) = some f →
        env.hashChunk f.bytes = hexHash hex) ∧
    (RouteWrites env sha256 id disk asset manifest server cache out files ↔
      ∀ track ∈ manifest.tracks, ∀ hex ∈ trackHexes manifest track, ∀ b, cache hex = some b →
        env.hashChunk b = hexHash hex) :=
  ⟨fetch_as_empty_iff faultless_flawless resolved served none_ before clean clear,
    route_as_empty_iff true_ true' counts shown serves serves' clean' answered clear'⟩

end Damaged

section Sample

variable {b : Bytes}

/-- One file of one chunk, in a pack of its own. -/
def oneManifest : Manifest := { clipManifest [] with tracks := [⟨0, "data", "raw", "a", 1, [clipRef]⟩] }

def oneEntry : ChunkMapEntry := ⟨toHex (numberHash [1]), 1, 1, 0, "p", 0⟩

def oneCall : FetchCall := ⟨1, none, .ok (oneManifest, [oneEntry])⟩

/-- An entry for the chunk, with these bytes. -/
def oneDisk (b : Bytes) : FetchDisk := (World.empty : FetchDisk).put (.chunk (toHex (numberHash [1]))) b 0

def oneCache (b : Bytes) : CacheFiles := fun hex => if hex = toHex (numberHash [1]) then some b else none

theorem one_evaluated :
    decodeChunk plainEnv [1] oneEntry (numberHash [1]) = some [1] ∧
    (((reconstruct plainEnv numberHash oneManifest .zero).exec (oneDisk [1])).map fun y => y.1.1) =
      some (.ok [.out [['a']]]) := by decide +kernel

theorem one_served : ServesManifest plainEnv (fun _ => [1]) (fun _ => [1]) oneManifest [oneEntry] := by
  have listed : manifestChunkHashes oneManifest = [toHex (numberHash [1])] := rfl
  intro hex mem
  rw [listed, List.mem_singleton] at mem
  subst mem
  refine ⟨oneEntry, by simp [entryOf, oneEntry], ?_, by decide, by decide, ?_⟩
  · exact congrArg toHex (hexHash_toHex _).symm
  · rw [oneEntry, hexHash_toHex]
    exact one_evaluated.1

/-- From an empty cache the chunk is fetched and the file written. -/
theorem one_fetches : ∃ stats out,
    AnsweredFetch plainEnv (fun _ => [1]) numberHash (fetchSem faultless) oneCall World.empty (.ok stats) out := by
  have sound := faultless_flawless
  have good : ServedCall plainEnv (fun _ => [1]) (fun _ => [1]) oneCall oneManifest [oneEntry] := ⟨rfl, rfl, one_served⟩
  obtain ⟨r, v, run⟩ := @ServedCall.runs plainEnv (fun _ => [1]) (fun _ => [1]) numberHash (fetchSem faultless) oneCall
    oneManifest [oneEntry] World.empty sound good
  obtain ⟨u, x, written, t, same, downloaded, wrote, ends⟩ := run.writes sound good
  have ended : (((reconstruct plainEnv numberHash oneManifest .zero).exec (oneDisk [1])).map fun y => y.1.1) =
      some (.ok [.out [['a']]]) := one_evaluated.2
  obtain ⟨⟨⟨r', t'⟩, v'⟩, ended, done⟩ := Option.map_eq_some_iff.mp ended
  have looked : World.Like (Looked oneManifest) x (oneDisk [1]) := by
    rintro path (isOut | ⟨track, mem, hex, listed, rfl⟩)
    · have apart : path ≠ .cacheRoot ∧ path ≠ .chunk (toHex (numberHash [1])) := by
        constructor <;> rintro rfl <;> exact isOut
      rw [downloaded.out path isOut, same path apart.1, oneDisk, get_put_ne apart.2]
    · have hashes := listed_hashes mem listed
      rw [List.mem_singleton.mp hashes]
      have absent : u.get (.chunk (toHex (numberHash [1]))) = none := same _ (by simp)
      have landed : (x.get (.chunk (toHex (numberHash [1])))).map File.bytes = some [1] :=
        downloaded.landed _ (List.mem_singleton.mpr rfl) absent
      have digits : toHex (hexHash clipRef.hash) = toHex (numberHash [1]) := congrArg toHex (hexHash_toHex _)
      rw [digits, landed, oneDisk, get_put_self]
      rfl
  obtain ⟨same, -⟩ := FileProg.Prog.All.like sound (reconstruct_looks .zero) looked wrote
    (FileProg.Prog.exec_runs (fun _ => rfl) ended)
  cases same
  obtain ⟨stats, rfl⟩ := ends.mpr ⟨_, done⟩
  exact ⟨stats, v, run⟩

/-- What that fetch wrote is the track. -/
theorem fetchStatic_exact_one : ∃ v stats,
    FetchStatic plainEnv numberHash (fetchSem faultless) oneCall World.empty (.ok stats) v ∧
      ∃ manifest chunks, oneCall.resolved = .ok (manifest, chunks) ∧
        ∀ track ∈ manifest.tracks, Written plainEnv manifest track v := by
  obtain ⟨stats, v, answered⟩ := one_fetches
  have clear : Clear oneManifest World.empty := by
    constructor
    · decide +kernel
    · decide +kernel
    · exact fun track _ path _ => FileProg.get_empty _
  refine ⟨v, stats, answered.fetches,
    (fetchStatic_exact plainEnv numberHash faultless oneCall World.empty v _ ?_ answered.fetches).1 _ rfl⟩
  intro manifest chunks resolved
  cases resolved
  exact clear

theorem one_intact : (∀ track ∈ oneManifest.tracks, ∀ hex ∈ listedHashes oneManifest track, ∀ f,
    (oneDisk b).get (.chunk hex) = some f → plainEnv.hashChunk f.bytes = hexHash hex) ↔ numberHash b = numberHash [1] := by
  have hexes : listedHashes oneManifest ⟨0, "data", "raw", "a", 1, [clipRef]⟩ = [toHex (numberHash [1])] := rfl
  simp only [oneManifest, List.forall_mem_singleton]
  change (∀ hex ∈ listedHashes oneManifest ⟨0, "data", "raw", "a", 1, [clipRef]⟩, _) ↔ _
  rw [hexes, List.forall_mem_singleton, hexHash_toHex, oneDisk, get_put_self]
  exact ⟨fun h => h _ rfl, by rintro h _ ⟨⟩; exact h⟩

theorem one_clear (apart : numberHash b = numberHash [1] → b = [1]) (hex : String) (f : File)
    (found : (oneDisk b).get (.chunk hex) = some f) (named : plainEnv.hashChunk f.bytes = hexHash hex) :
    f.bytes = [1] := by
  rw [oneDisk, FileProg.get_put] at found
  split at found
  · rename_i here
    cases found
    cases here
    rw [hexHash_toHex] at named
    exact apart named
  · cases found

theorem oneCache_clear (apart : numberHash b = numberHash [1] → b = [1]) (hash : ChunkHash) (b' : Bytes)
    (found : oneCache b (toHex hash) = some b') (named : plainEnv.hashChunk b' = hash) : b' = [1] := by
  rw [oneCache] at found
  split at found
  · rename_i here
    cases found
    cases toHex_injective here
    exact apart named
  · cases found

def oneFiles : List WrittenFile :=
  [([.name ['v'], .name "init.mp4".toList], [1]), ([.name ['v'], .name "seg_00000.m4s".toList], [1]),
    ([.name "v.mp4".toList], [1, 1])]

/-- What the session route of the clip comes to over a cache. -/
def ClipWrites (cache : CacheFiles) : Prop :=
  RouteWrites plainEnv numberHash "s" clipDisk (clip [clipSegment]) (clipManifest [clipShown]) (clipSession [clipSegment])
    cache [] oneFiles

/-- What the clip's route leaves under the name of the chunk. -/
def clipHas (cache : CacheFiles) : Option (Option Bytes) :=
  (fetchSession plainEnv "s" clipDisk (clip [clipSegment]) (clipManifest [clipShown]) (clipSession [clipSegment])
    cache).toOption.map fun c => c (toHex (numberHash [1]))

theorem clip_evaluated : clipHas (fun _ => none) = some (some [1]) ∧ clipHas (oneCache [1]) = some (some [1]) ∧
    clipHas (oneCache [2]) = some (some [2]) ∧ numberHash [2] ≠ numberHash [1] := by decide +kernel

theorem clip_runs {cache : CacheFiles} {b : Option Bytes} (has : clipHas cache = some b) :
    ∃ fetched, fetchSession plainEnv "s" clipDisk (clip [clipSegment]) (clipManifest [clipShown])
      (clipSession [clipSegment]) cache = .ok fetched ∧ fetched (toHex (numberHash [1])) = b := by
  obtain ⟨fetched, run, there⟩ := Option.map_eq_some_iff.mp has
  refine ⟨fetched, ?_, there⟩
  generalize fetchSession plainEnv "s" clipDisk _ _ _ cache = outcome at run ⊢
  cases outcome with
  | error e => cases run
  | ok c =>
      cases run
      rfl

theorem clip_serves : Serves "s" (clip [clipSegment]) (clipSession [clipSegment]) :=
  openSession_serves (clip_opens [clipSegment]) rfl

theorem clip_fresh : ClipWrites fun _ => none := by
  obtain ⟨c, run, there⟩ := @clip_runs (fun _ => none) (some [1]) clip_evaluated.1
  have inCache : InCache plainEnv.hashChunk (fun _ => [1]) c (toHex (numberHash [1])) :=
    ⟨numberHash [1], rfl, by simp only [CacheFiles.get, there]; rfl⟩
  have readable : ∀ track ∈ (clipManifest [clipShown]).tracks,
      TrackReadable plainEnv.hashChunk (fun _ => [1]) c (clipManifest [clipShown]) track := by
    intro track mem
    apply readable_of_reads
    intro hex read
    have hexes : trackHexes (clipManifest [clipShown]) track = [toHex (numberHash [1]), toHex (numberHash [1])] := by
      rw [List.mem_singleton.mp mem]
      rfl
    rw [hexes] at read
    simp only [List.mem_cons, List.not_mem_nil, or_false, or_self] at read
    exact read ▸ inCache
  refine ⟨c, c, run, (writeAllTracks_ok_iff readable).mpr ⟨?_, rfl, rfl⟩⟩
  intro track mem other
  rw [List.mem_singleton.mp mem] at other
  cases other

theorem clip_iff (has : clipHas (oneCache b) = some (some b)) (apart : numberHash b = numberHash [1] → b = [1]) :
    ClipWrites (oneCache b) ↔ ∀ track ∈ (clipManifest [clipShown]).tracks,
      ∀ hex ∈ trackHexes (clipManifest [clipShown]) track, ∀ b', oneCache b hex = some b' → numberHash b' = hexHash hex := by
  have shown : (clip [clipSegment]).manifest "a" clipLabel = some (clipManifest [clipShown]) := rfl
  obtain ⟨fetched, run, -⟩ := clip_runs has
  exact route_as_empty_iff (clip_true [clipSegment]) (clip_true [clipSegment]) (clip_counts _ (by decide)) shown clip_serves
    clip_serves clip_fresh (by simp [run]) (oneCache_clear apart)

/-- With the chunk in the cache both routes end as from an empty one. -/
theorem damaged_cache_one : ∃ output, EndsWith plainEnv (fun _ => [1]) numberHash (fetchSem faultless) oneCall (oneDisk [1])
    output ∧ ClipWrites (oneCache [1]) := by
  obtain ⟨stats, output, clean⟩ := one_fetches
  have outside : World.Like FetchPath.IsOut (oneDisk [1]) World.empty := by
    intro path isOut
    rw [oneDisk, get_put_ne]
    rintro rfl
    exact isOut
  have shown : (clip [clipSegment]).manifest "a" clipLabel = some (clipManifest [clipShown]) := rfl
  obtain ⟨fetched, run, -⟩ := @clip_runs (oneCache [1]) (some [1]) clip_evaluated.2.1
  obtain ⟨fetch, route⟩ := damaged_cache_iff (w := oneDisk [1]) rfl one_served (fun _ => rfl) outside clean
    (one_clear fun _ => rfl) (clip_true [clipSegment]) (clip_true [clipSegment]) (clip_counts _ (by decide)) shown clip_serves
    clip_serves clip_fresh (by simp [run]) (oneCache_clear fun _ => rfl)
  refine ⟨output, fetch.mpr (one_intact.mpr rfl), route.mpr ?_⟩
  intro track mem hex read b found
  rw [oneCache] at found
  split at found
  · rename_i here
    cases found
    rw [here, hexHash_toHex]
    rfl
  · cases found

/-- Another entry under the name of the chunk stops both, which an empty cache does not. -/
theorem damaged_cache_stops :
    (∃ stats output, AnsweredFetch plainEnv (fun _ => [1]) numberHash (fetchSem faultless) oneCall World.empty (.ok stats)
        output ∧
      ∀ stats v, ¬ AnsweredFetch plainEnv (fun _ => [1]) numberHash (fetchSem faultless) oneCall (oneDisk [2]) (.ok stats) v) ∧
    ClipWrites (fun _ => none) ∧ ¬ ClipWrites (oneCache [2]) ∧
    clipHas (oneCache [2]) = some (some [2]) := by
  obtain ⟨-, -, has, differs⟩ := clip_evaluated
  obtain ⟨stats, output, clean⟩ := one_fetches
  refine ⟨⟨stats, output, clean, ?_⟩, clip_fresh, ?_, has⟩
  swap
  · intro writes
    have intact := (clip_iff has fun same => absurd same differs).mp writes ⟨1, "video", "", "v", 0, [clipRef]⟩
      (List.mem_singleton.mpr rfl) (toHex (numberHash [1])) List.mem_cons_self [2] (if_pos rfl)
    rw [hexHash_toHex] at intact
    exact differs intact
  intro stats v run
  have good : ServedCall plainEnv (fun _ => [1]) (fun _ => [1]) oneCall oneManifest [oneEntry] := ⟨rfl, rfl, one_served⟩
  obtain ⟨u, x, written, t, same, downloaded, wrote, ends⟩ := run.writes faultless_flawless good
  obtain ⟨l, rfl⟩ := ends.mp ⟨stats, rfl⟩
  have read := ((FileProg.Eff.wp_iff _ _ _).mp (reconstruct_intact faultless_flawless)).2 _ _ _ wrote l rfl
  obtain ⟨f, found, named⟩ := read ⟨0, "data", "raw", "a", 1, [clipRef]⟩ (List.mem_singleton.mpr rfl) clipRef.hash
    (List.mem_singleton.mpr rfl)
  have kept := downloaded.kept (toHex (numberHash [1])) ⟨[2], 0⟩ ((same _ (by simp)).trans (get_put_self ..))
  have digits : hexHash clipRef.hash = numberHash [1] := hexHash_toHex _
  rw [digits, kept] at found
  cases found
  exact differs (named.trans digits)

end Sample

end Cavs
