import Cavs.FetchDownload

/-!
# A fetch over a damaged cache

The download asks for what has no entry and never looks into one. Writing the tracks reads
the entries, and ends where one does not have its hash. So over a cache with wrong entries a
fetch ends as over an empty one exactly where no track lists them.
-/
namespace Cavs
open FileProg (Bytes File IoError Prog Op World)
open FileProg.Eff (All Wp forEach get modify op orThrow throw wp_iff wp_ite wp_read)

section Reads
variable {env : ContainerEnv} {sha256 : Bytes → ChunkHash} {manifest : Manifest} {track : ManifestTrack}
  {tmp : FetchPath}

/-- What the tracks are written from and to: the output, and the chunks that are listed. -/
def Looked (manifest : Manifest) (path : FetchPath) : Prop :=
  path.IsOut ∨ ∃ track ∈ manifest.tracks, ∃ hex ∈ listedHashes manifest track, path = .chunk (toHex (hexHash hex))

theorem writeChunk_looks (mem : track ∈ manifest.tracks) {hex : String}
    (listed : hex ∈ listedHashes manifest track) (out : tmp.IsOut) :
    (writeChunk env tmp hex).All (Op.Sees (Looked manifest)) := by
  rw [writeChunk]
  cases named : fromHex hex with
  | none => exact .throw _
  | some hash =>
      have looked : Looked manifest (.chunk (toHex hash)) := by
        refine .inr ⟨track, mem, hex, listed, ?_⟩
        rw [hexHash, named]
        rfl
      apply All.bind
      · rw [cacheGet]
        apply All.bind (.op looked)
        intro r
        split
        · exact .pure _
        · split
          · exact .bind (.op looked) fun _ => .pure _
          · exact .pure _
      · intro bytes
        cases bytes with
        | none => exact .throw _
        | some bytes =>
            apply All.bind (.op (.inl out))
            intro r
            exact .bind (.orThrow _ _) fun _ => .pure _

theorem writeChunks_look (mem : track ∈ manifest.tracks) {hexes : List String}
    (listed : ∀ hex ∈ hexes, hex ∈ listedHashes manifest track) (out : tmp.IsOut) :
    (writeChunks env tmp hexes).All (Op.Sees (Looked manifest)) := by
  induction hexes with
  | nil => exact .pure _
  | cons hex rest ih =>
      obtain ⟨here, later⟩ := List.forall_mem_cons.mp listed
      exact .bind (writeChunk_looks mem here out) fun _ => .bind (ih later) fun _ => .pure _

theorem promote_looks (name : String) : (promote name).All (Op.Sees (Looked manifest)) := by
  rw [promote]
  split
  · exact .bind (.op (.inl (partPath_isOut _))) fun _ => .orThrow _ _
  · exact .throw _

theorem writeTrack_looks (mem : track ∈ manifest.tracks) :
    (writeTrack env sha256 manifest track).All (Op.Sees (Looked manifest)) := by
  have out : (partPath (pathParts track.name)).IsOut := partPath_isOut _
  rw [writeTrack]
  split
  · exact .throw _
  · split
    · exact .throw _
    · apply All.bind
      · exact .forEach fun d _ => .bind (.op trivial) fun _ => .orThrow _ _
      · intro _
        apply All.bind (.op trivial)
        intro r
        apply All.bind (.orThrow _ _)
        intro _
        apply All.bind (writeChunks_look mem (fun _ listed => listed) out)
        intro written
        split
        · exact promote_looks _
        · split
          · exact promote_looks _
          · exact .bind (.op (.inl out)) fun _ => .throw _

theorem writeTracks_look {tracks : List ManifestTrack} (part : ∀ track ∈ tracks, track ∈ manifest.tracks) :
    (writeTracks env sha256 manifest tracks).All (Op.Sees (Looked manifest)) := by
  induction tracks with
  | nil => exact .pure _
  | cons track rest ih =>
      obtain ⟨here, later⟩ := List.forall_mem_cons.mp part
      exact .bind (writeTrack_looks here) fun _ => .bind (ih later) fun _ => .pure _

/-- Writing the tracks looks at the output and at listed chunks alone. -/
theorem reconstruct_looks : (reconstruct env sha256 manifest).All (Op.Sees (Looked manifest)) :=
  All.bind (.op trivial) fun r => .bind (.orThrow _ r) fun _ => writeTracks_look fun _ mem => mem

end Reads

section Intact
variable {env : ContainerEnv} {sha256 : Bytes → ChunkHash} {manifest : Manifest} {σ : FetchSem} {s : GroupOutcome}
  {u x : FetchDisk} {tmp : FetchPath}

/-- The cache has an entry for the chunk, with its hash. -/
def EntryIntact (env : ContainerEnv) (u : FetchDisk) (hex : String) : Prop :=
  ∃ f, u.get (.chunk (toHex (hexHash hex))) = some f ∧ env.hashChunk f.bytes = hexHash hex

def SameChunks (u x : FetchDisk) : Prop := ∀ hex, x.get (.chunk hex) = u.get (.chunk hex)

theorem SameChunks.trans {y : FetchDisk} (first : SameChunks u x) (second : SameChunks x y) : SameChunks u y :=
  fun hex => (second hex).trans (first hex)

theorem SameChunks.intact (same : SameChunks u x) {hex : String} (intact : EntryIntact env x hex) : EntryIntact env u hex := by
  obtain ⟨f, found, named⟩ := intact
  exact ⟨f, (same _).symm.trans found, named⟩

theorem wp_sameChunks {α : Type} {m : F α} (quiet : m.All fun o => ∀ hex, ¬ o.touches (.chunk hex)) :
    m.Wp σ (fun _ => True) (fun _ _ x => SameChunks u x) s u := by
  rw [wp_iff]
  refine ⟨fun _ _ => trivial, fun r t x run hex => ?_⟩
  exact (quiet s).frame (fun _ leaves => leaves hex) (Prog.runs_crashes run)

theorem cacheGet_intact (sound : σ.Flawless) (hash : ChunkHash) :
    (cacheGet env hash).Wp σ (fun _ => True)
      (fun r _ x => ∀ b, r = .ok (some b) → SameChunks u x ∧
        ∃ f, u.get (.chunk (toHex hash)) = some f ∧ env.hashChunk f.bytes = hash) s u := by
  rw [cacheGet]
  apply Wp.then
  apply wp_read trivial
  · intro f found
    change (if env.hashChunk f.bytes ≠ hash then _ else _ : F (Option Bytes)).Wp _ _ _ _ _
    apply wp_ite
    · intro wrong
      refine Wp.seq (Wp.mono (wp_any _) (fun _ c => c) fun _ _ _ q => q) ?_ fun e t x _ b same => by cases same
      intro _ t x _ _
      exact ⟨trivial, fun b same => by cases same⟩
    · intro right
      exact ⟨trivial, fun b same => ⟨fun _ => rfl, f, found, not_not.mp right⟩⟩
  · exact fun _ => ⟨trivial, fun b same => by cases same⟩
  · exact fun may => absurd may (sound.sound _ _)

theorem writeChunk_intact (sound : σ.Flawless) (out : tmp.IsOut) (hex : String) :
    (writeChunk env tmp hex).Wp σ (fun _ => True)
      (fun r _ x => ∀ b, r = .ok b → SameChunks u x ∧ EntryIntact env u hex) s u := by
  rw [writeChunk]
  cases named : fromHex hex with
  | none => exact ⟨trivial, fun b same => by cases same⟩
  | some hash =>
      refine Wp.seq (cacheGet_intact sound hash) ?_ fun e t x _ b same => by cases same
      rintro (none | bytes) t x - intact
      · exact ⟨trivial, fun b same => by cases same⟩
      · obtain ⟨kept, there⟩ := intact bytes rfl
        have here : EntryIntact env u hex := by
          rw [EntryIntact, hexHash, named]
          exact there
        have append : ∀ hex, ¬ (Op.append tmp bytes : Op FetchPath Unit).touches (.chunk hex) := by
          rintro hex rfl
          exact out
        refine Wp.seq (wp_sameChunks (.op append)) ?_ fun e t x _ b same => by cases same
        intro r t y _ kept'
        refine Wp.seq (wp_sameChunks (.orThrow failIo r)) ?_ fun e t x _ b same => by cases same
        intro _ t z _ kept''
        exact ⟨trivial, fun b _ => ⟨(kept.trans kept').trans kept'', here⟩⟩

theorem writeChunks_intact (sound : σ.Flawless) (out : tmp.IsOut) (hexes : List String) :
    (writeChunks env tmp hexes).Wp σ (fun _ => True)
      (fun r _ x => ∀ b, r = .ok b → SameChunks u x ∧ ∀ hex ∈ hexes, EntryIntact env u hex) s u := by
  induction hexes generalizing s u with
  | nil => exact ⟨trivial, fun b _ => ⟨fun _ => rfl, by simp⟩⟩
  | cons hex rest ih =>
      rw [writeChunks]
      refine Wp.seq (writeChunk_intact sound out hex) ?_ fun e t x _ b same => by cases same
      intro bytes t x _ first
      obtain ⟨kept, here⟩ := first bytes rfl
      refine Wp.seq ih ?_ fun e t x _ b same => by cases same
      intro more t y _ others
      obtain ⟨kept', later⟩ := others more rfl
      exact ⟨trivial, fun b _ => ⟨kept.trans kept',
        List.forall_mem_cons.mpr ⟨here, fun hex mem => kept.intact (later hex mem)⟩⟩⟩

theorem promote_sameChunks (name : String) : (promote name).Wp σ (fun _ => True) (fun _ _ x => SameChunks u x) s u := by
  apply wp_sameChunks
  rw [promote]
  split
  · refine .bind (.op ?_) fun _ => .orThrow _ _
    rintro hex (here | there)
    · exact (here ▸ partPath_isOut (pathParts name) : (FetchPath.chunk hex).IsOut)
    · cases there
  · exact .throw _

/-- A track that is written has been read from entries with the hashes it lists. -/
theorem writeTrack_intact (sound : σ.Flawless) (track : ManifestTrack) :
    (writeTrack env sha256 manifest track).Wp σ (fun _ => True)
      (fun r _ x => r = .ok () → SameChunks u x ∧ ∀ hex ∈ listedHashes manifest track, EntryIntact env u hex) s u := by
  have out : (partPath (pathParts track.name)).IsOut := partPath_isOut _
  rw [writeTrack]
  apply wp_ite
  · exact fun _ => ⟨trivial, fun same => by cases same⟩
  intro _
  apply wp_ite
  · exact fun _ => ⟨trivial, fun same => by cases same⟩
  intro _
  have dirs : (makeDirs (pathParts track.name)).All fun o => ∀ hex, ¬ o.touches (.chunk hex) :=
    All.forEach fun d _ => .bind (.op fun hex touched => by cases touched) fun _ => .orThrow _ _
  have create : ∀ hex, ¬ (Op.write (partPath (pathParts track.name)) [] : Op FetchPath Unit).touches (.chunk hex) := by
    intro hex touched
    exact (touched ▸ out : (FetchPath.chunk hex).IsOut)
  refine Wp.seq (wp_sameChunks dirs) ?_ fun e t x _ same => by cases same
  intro _ t x _ kept
  refine Wp.seq (wp_sameChunks (.op create)) ?_ fun e t x _ same => by cases same
  intro r t y _ kept'
  refine Wp.seq (wp_sameChunks (.orThrow failIo r)) ?_ fun e t x _ same => by cases same
  intro _ t z _ kept''
  refine Wp.seq (writeChunks_intact sound out (listedHashes manifest track)) ?_ fun e t x _ same => by cases same
  intro written t z' _ read
  obtain ⟨still, intact⟩ := read written rfl
  have before : SameChunks u z := (kept.trans kept').trans kept''
  have placed : (promote track.name).Wp σ (fun _ => True)
      (fun r _ x => r = .ok () → SameChunks u x ∧ ∀ hex ∈ listedHashes manifest track, EntryIntact env u hex) t z' :=
    (promote_sameChunks track.name).mono (fun _ c => c) fun r _ x last _ =>
      ⟨(before.trans still).trans last, fun hex mem => before.intact (intact hex mem)⟩
  cases expectedSha256 manifest track.name with
  | none => exact placed
  | some expected =>
      dsimp only
      apply wp_ite
      · exact fun _ => placed
      · intro _
        refine Wp.seq (wp_any _) ?_ fun e t x _ same => by cases same
        exact fun _ t x _ _ => ⟨trivial, fun same => by cases same⟩

theorem writeTracks_intact (sound : σ.Flawless) (tracks : List ManifestTrack) :
    (writeTracks env sha256 manifest tracks).Wp σ (fun _ => True)
      (fun r _ _ => ∀ l, r = .ok l → ∀ track ∈ tracks, ∀ hex ∈ listedHashes manifest track, EntryIntact env u hex) s u := by
  induction tracks generalizing s u with
  | nil => exact ⟨trivial, fun l _ track mem => by cases mem⟩
  | cons track rest ih =>
      rw [writeTracks]
      refine Wp.seq (writeTrack_intact sound track) ?_ fun e t x _ l same => by cases same
      intro _ t x _ first
      obtain ⟨kept, here⟩ := first rfl
      refine Wp.seq ih ?_ fun e t x _ l same => by cases same
      intro primaries t y _ others
      refine ⟨trivial, fun l _ => List.forall_mem_cons.mpr ⟨here, ?_⟩⟩
      exact fun t mem hex listed => kept.intact (others primaries rfl t mem hex listed)

theorem reconstruct_intact (sound : σ.Flawless) :
    (reconstruct env sha256 manifest).Wp σ (fun _ => True)
      (fun r _ _ => ∀ l, r = .ok l → ∀ track ∈ manifest.tracks, ∀ hex ∈ listedHashes manifest track, EntryIntact env u hex) s u := by
  rw [reconstruct]
  refine Wp.seq (wp_sameChunks (.op fun hex touched => by cases touched)) ?_ fun e t x _ l same => by cases same
  intro r t x _ kept
  refine Wp.seq (wp_sameChunks (.orThrow failIo r)) ?_ fun e t x _ l same => by cases same
  intro _ t y _ kept'
  refine (writeTracks_intact sound manifest.tracks).mono (fun _ c => c) fun r _ _ good l same track mem hex listed => ?_
  exact (kept.trans kept').intact (good l same track mem hex listed)

end Intact

section Answered
variable {env : ContainerEnv} {packs : String → Bytes} {content : ChunkHash → Bytes} {sha256 : Bytes → ChunkHash}
  {σ : FetchSem} {call : FetchCall} {manifest : Manifest} {chunks : List ChunkMapEntry} {w v empty out : FetchDisk}
  {r : Except Stop FetchStats} {hex : String} {stats : FetchStats}

/-- The finished runs of a fetch in which nobody cancels and the source answers every request. -/
inductive AnsweredFetch (env : ContainerEnv) (packs : String → Bytes) (sha256 : Bytes → ChunkHash) (σ : FetchSem)
    (call : FetchCall) : FetchDisk → Except Stop FetchStats → FetchDisk → Prop
  | stopped {order w e s v} (h : call.Order order) (prepared : (prepare env call order).Runs σ .zero w (.error e) s v) :
      AnsweredFetch env packs sha256 σ call w (.error e) v
  | interrupted {order w manifest groups reused s u e v} (h : call.Order order)
      (prepared : (prepare env call order).Runs σ .zero w (.ok (manifest, groups, reused)) s u)
      (download : AnsweredDownload env packs σ groups call.connections u (.error e) v) :
      AnsweredFetch env packs sha256 σ call w (.error e) v
  | finished {order w manifest groups reused s u total x r t v} (h : call.Order order)
      (prepared : (prepare env call order).Runs σ .zero w (.ok (manifest, groups, reused)) s u)
      (download : AnsweredDownload env packs σ groups call.connections u (.ok total) x)
      (written : (reconstruct env sha256 manifest).Runs σ .zero x r t v) :
      AnsweredFetch env packs sha256 σ call w
        (r.map fun _ => ⟨total, reused, (groups.map RangeGroup.useful).sum, logicalBytes manifest⟩) v

/-- They are finished runs of a fetch. -/
theorem AnsweredFetch.fetches (run : AnsweredFetch env packs sha256 σ call w r v) : FetchStatic env sha256 σ call w r v := by
  cases run with
  | stopped order prepared => exact .stopped order prepared
  | interrupted order prepared download => exact .interrupted order prepared download.fetches
  | finished order prepared download written => exact .finished order prepared download.fetches written

/-- The metadata is there and accepted, and the tree serves it. -/
structure ServedCall (env : ContainerEnv) (packs : String → Bytes) (content : ChunkHash → Bytes) (call : FetchCall)
    (manifest : Manifest) (chunks : List ChunkMapEntry) : Prop where
  resolved : call.resolved = .ok (manifest, chunks)
  accepted : checkSigner env manifest call.pubkey = pure ()
  served : ServesManifest env packs content manifest chunks

theorem listed_hashes {track : ManifestTrack} (mem : track ∈ manifest.tracks)
    (listed : hex ∈ listedHashes manifest track) : hex ∈ manifestChunkHashes manifest := by
  rcases List.mem_append.mp listed with inits | chunks
  · exact List.mem_append_left _ (List.mem_flatMap.mpr ⟨track, mem, inits⟩)
  · obtain ⟨segment, there, inside⟩ := List.mem_flatMap.mp chunks
    have kept := (List.mem_filter.mp ((List.perm_insertionSort _ _).mem_iff.mp there)).1
    exact List.mem_append_right _ (List.mem_flatMap.mpr ⟨segment, kept, inside⟩)

theorem ServedCall.digits (good : ServedCall env packs content call manifest chunks)
    (mem : hex ∈ manifestChunkHashes manifest) : toHex (hexHash hex) = hex := by
  obtain ⟨entry, found, serves⟩ := good.served hex mem
  rw [← entryOf_name found]
  exact serves.named.symm

/-- What a served fetch comes to: what was downloaded, from which the tracks are written. -/
theorem AnsweredFetch.writes (sound : σ.Flawless) (good : ServedCall env packs content call manifest chunks)
    (run : AnsweredFetch env packs sha256 σ call w r v) :
    ∃ u x written t, (∀ path, path ≠ .cacheRoot → u.get path = w.get path) ∧ Downloaded content manifest u x ∧
      (reconstruct env sha256 manifest).Runs σ .zero x written t v ∧ ((∃ stats, r = .ok stats) ↔ ∃ l, written = .ok l) := by
  have prepares := fun {order} (listed : call.Order order) => (wp_iff _ _ _).mp
    (@prepare_served env packs content σ .zero w chunks order sound call manifest good.resolved good.accepted good.served listed)
  cases run with
  | stopped order prepared =>
      obtain ⟨-, _, _, bad, -⟩ := (prepares order).2 _ _ _ prepared
      cases bad
  | interrupted order prepared download =>
      obtain ⟨-, groups, reused, same, todo⟩ := (prepares order).2 _ _ _ prepared
      cases same
      obtain ⟨⟨total, bad⟩, -⟩ := download.lands sound todo
      cases bad
  | @finished order _ manifest' groups reused s u total x written t _ order' prepared download wrote =>
      obtain ⟨kept, groups, reused, same, todo⟩ := (prepares order').2 _ _ _ prepared
      cases same
      obtain ⟨-, downloaded⟩ := download.lands sound todo
      refine ⟨u, x, written, t, kept, downloaded, wrote, ?_⟩
      cases written with
      | ok l => simp [Except.map]
      | error e => simp [Except.map]

/-- A served fetch has a finished run. -/
theorem ServedCall.runs (sound : σ.Flawless) (good : ServedCall env packs content call manifest chunks) :
    ∃ r v, AnsweredFetch env packs sha256 σ call w r v := by
  have listed : call.Order (manifestChunkHashes manifest).dedup := by
    intro manifest' chunks' resolved
    cases good.resolved.symm.trans resolved
    exact .refl _
  have plain : (prepare env call (manifestChunkHashes manifest).dedup).All Op.Plain :=
    prepare_all trivial (fun _ => trivial) call _
  obtain ⟨r, s, u, prepared⟩ := plain.runs (σ := σ) .zero w
  obtain ⟨-, groups, reused, rfl, todo⟩ := ((wp_iff _ _ _).mp
    (prepare_served sound good.resolved good.accepted good.served listed)).2 _ _ _ prepared
  obtain ⟨total, x, download⟩ := @answeredDownload_runs env packs content σ groups u manifest call.connections sound todo
  have looks : (reconstruct env sha256 manifest).All Op.Plain := fun s => (reconstruct_looks s).mono fun _ sees => sees.plain
  obtain ⟨written, t, v, wrote⟩ := looks.runs (σ := σ) .zero x
  exact ⟨_, v, .finished listed prepared download wrote⟩

theorem ServedCall.of_ok (resolved : call.resolved = .ok (manifest, chunks))
    (served : ServesManifest env packs content manifest chunks)
    (run : AnsweredFetch env packs sha256 σ call w (.ok stats) v) :
    ServedCall env packs content call manifest chunks := by
  refine ⟨resolved, ?_, served⟩
  generalize same : Except.ok stats = r at run
  cases run with
  | stopped | interrupted => cases same
  | finished order prepared _ _ =>
      obtain ⟨⟨chunks', resolved'⟩, accepted⟩ := ((wp_iff _ _ _).mp (prepare_wp call _)).2 _ _ _ prepared _ rfl
      cases resolved.symm.trans resolved'
      exact accepted

/-- Some run finishes, and every one that does ends well, with this output. -/
def EndsWith (env : ContainerEnv) (packs : String → Bytes) (sha256 : Bytes → ChunkHash) (σ : FetchSem) (call : FetchCall)
    (w out : FetchDisk) : Prop :=
  (∃ stats v, AnsweredFetch env packs sha256 σ call w (.ok stats) v) ∧
    ∀ r v, AnsweredFetch env packs sha256 σ call w r v → (∃ stats, r = .ok stats) ∧ World.Like FetchPath.IsOut v out

/-- A fetch ends as from an empty cache exactly where every entry of a chunk that a track
lists has its hash. -/
theorem fetch_as_empty_iff (sound : σ.Flawless) (resolved : call.resolved = .ok (manifest, chunks))
    (served : ServesManifest env packs content manifest chunks) (none_ : ∀ hex, empty.get (.chunk hex) = none)
    (before : World.Like FetchPath.IsOut w empty)
    (clean : AnsweredFetch env packs sha256 σ call empty (.ok stats) out)
    (clear : ∀ hex f, w.get (.chunk hex) = some f → env.hashChunk f.bytes = hexHash hex → f.bytes = content (hexHash hex)) :
    EndsWith env packs sha256 σ call w out ↔ ∀ track ∈ manifest.tracks, ∀ hex ∈ listedHashes manifest track, ∀ f,
      w.get (.chunk hex) = some f → env.hashChunk f.bytes = hexHash hex := by
  have good := ServedCall.of_ok resolved served clean
  constructor
  · rintro ⟨⟨stats, v, run⟩, -⟩ track mem hex listed f found
    obtain ⟨u, x, written, t, same, downloaded, wrote, ends⟩ := run.writes sound good
    obtain ⟨l, rfl⟩ := ends.mp ⟨stats, rfl⟩
    obtain ⟨g, there, named⟩ := ((wp_iff _ _ _).mp (reconstruct_intact sound)).2 _ _ _ wrote l rfl track mem hex
      listed
    rw [good.digits (listed_hashes mem listed),
      downloaded.kept hex f ((same (.chunk hex) (by simp)).trans found)] at there
    cases there
    exact named
  · intro intact
    have alike : ∀ r v, AnsweredFetch env packs sha256 σ call w r v →
        (∃ stats, r = .ok stats) ∧ World.Like FetchPath.IsOut v out := by
      intro r v run
      obtain ⟨u, x, written, t, same, downloaded, wrote, ends⟩ := run.writes sound good
      obtain ⟨u', x', written', t', same', downloaded', wrote', ends'⟩ := clean.writes sound good
      have looked : World.Like (Looked manifest) x x' := by
        rintro path (isOut | ⟨track, mem, hex, listed, rfl⟩)
        · have apart : path ≠ .cacheRoot := by
            rintro rfl
            exact isOut
          rw [downloaded.out path isOut, downloaded'.out path isOut, same path apart, same' path apart]
          exact before path isOut
        · have inManifest := listed_hashes mem listed
          rw [good.digits inManifest]
          have absent' : u'.get (.chunk hex) = none := (same' (.chunk hex) (by simp)).trans (none_ hex)
          have landed' := downloaded'.landed hex inManifest absent'
          rw [landed']
          have here : u.get (.chunk hex) = w.get (.chunk hex) := same (.chunk hex) (by simp)
          cases found : w.get (.chunk hex) with
          | none => exact downloaded.landed hex inManifest (here.trans found)
          | some f =>
              rw [downloaded.kept hex f (here.trans found), Option.map_some,
                clear hex f found (intact track mem hex listed f found)]
      obtain ⟨ended, again⟩ := Prog.All.like sound (reconstruct_looks .zero) looked wrote wrote'
      cases ended
      exact ⟨ends.mpr (ends'.mp ⟨stats, rfl⟩), fun path isOut => again path (.inl isOut)⟩
    obtain ⟨r, v, run⟩ := @ServedCall.runs env packs content sha256 σ call manifest chunks w sound good
    obtain ⟨⟨stats, rfl⟩, -⟩ := alike r v run
    exact ⟨⟨stats, v, run⟩, alike⟩

end Answered

end Cavs
