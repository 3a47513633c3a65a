import Cavs.FetchExact
import Cavs.PlanRoute
import Cavs.SessionDelivers
import Mathlib.Data.List.Sublists

/-!
# Three reconstructions

The embeddable engine, the client's streaming and the client's plans put the chunks of a
track's segments into its file in the same order. The engine alone puts the init chunks of a
data track in front of them.
-/
namespace Cavs
open FileProg (Bytes File Op)
open FileProg.Eff (Wp exec_runs wp_iff)
open LinkFs (Comp Tree)
open Rebuild
open PlanCall (digestAccepted)
open List (mem_append_right mem_cons mem_cons_of_mem mem_cons_self mem_singleton mem_sublists not_mem_nil)

section Parts
variable (hashChunk : Bytes → ChunkHash) (manifest : Manifest) (track : ManifestTrack)

/-- The hashes of a track's segments in presentation order. -/
def segmentHashes : List String := (trackSegments manifest track).flatMap fun s => s.chunks.map ChunkRef.hash

theorem listedHashes_eq : listedHashes manifest track = track.initChunks.map ChunkRef.hash ++ segmentHashes manifest track := rfl

theorem trackChunks_hashes : (trackChunks manifest track.trackId).map ChunkRef.hash = segmentHashes manifest track :=
  List.map_flatMap ..

/-- The bytes are made of byte strings with these names. -/
def MadeOf (hexes : List String) (b : Bytes) : Prop := ∃ parts, List.Forall₂ (NamedBy hashChunk) hexes parts ∧ b = parts.flatten

end Parts

section Fetched
variable {env : ContainerEnv} {sha256 : Bytes → ChunkHash} {manifest : Manifest} {track : ManifestTrack}
  {before after : List ManifestTrack} {mayFail : Op FetchPath Unit → FetchDisk → Prop} {s t : GroupOutcome} {u v w : FetchDisk}

/-- A later track writes neither the file nor its temporary file over it. -/
def ClearInFetch (track other : ManifestTrack) : Prop :=
  pathParts other.name ≠ pathParts track.name ∧ partPath (pathParts other.name) ≠ .out (pathParts track.name)

theorem writeTracks_spare (clear : ∀ o ∈ after, ClearInFetch track o) :
    (writeTracks env sha256 manifest after).Wp (fetchSem mayFail) (fun _ => True)
      (fun r _ x => ∀ primaries, r = .ok primaries →
        x.get (.out (pathParts track.name)) = u.get (.out (pathParts track.name))) s u := by
  induction after generalizing s u with
  | nil => exact ⟨trivial, fun _ _ => rfl⟩
  | cons o rest ih =>
      obtain ⟨place, part⟩ := clear o mem_cons_self
      rw [writeTracks]
      refine Wp.seq (writeTrack_wp o) ?_ fun e t x _ primaries bad => by cases bad
      rintro ⟨⟩ t x - ⟨-, others⟩
      have same := others (pathParts track.name) part.symm place.symm
      refine Wp.seq (ih fun p mem => clear p (mem_cons_of_mem o mem)) ?_ fun e t y _ primaries bad => by cases bad
      intro primaries t y _ later
      exact ⟨trivial, fun _ _ => (later primaries rfl).trans same⟩

theorem writeTracks_lands (clear : ∀ o ∈ after, ClearInFetch track o) :
    (writeTracks env sha256 manifest (before ++ track :: after)).Wp (fetchSem mayFail) (fun _ => True)
      (fun r _ x => ∀ primaries, r = .ok primaries → Written env manifest track x) s u := by
  induction before generalizing s u with
  | nil =>
      rw [List.nil_append, writeTracks]
      refine Wp.seq (writeTrack_wp track) ?_ fun e t x _ primaries bad => by cases bad
      rintro ⟨⟩ t x - ⟨⟨g, found, good⟩, -⟩
      refine Wp.seq (writeTracks_spare clear) ?_ fun e t y _ primaries bad => by cases bad
      intro primaries t y _ later
      exact ⟨trivial, fun _ _ => ⟨g, (later primaries rfl).trans found, good⟩⟩
  | cons o rest ih =>
      rw [List.cons_append, writeTracks]
      refine Wp.seq (writeTrack_wp o) ?_ fun e t x _ primaries bad => by cases bad
      intro _ t x _ _
      refine Wp.seq ih ?_ fun e t y _ primaries bad => by cases bad
      intro primaries t y _ later
      exact ⟨trivial, fun _ _ => later primaries rfl⟩

/-- The engine puts the inits in front. -/
theorem reconstruct_writes {primaries : List FetchPath} (split : manifest.tracks = before ++ track :: after)
    (clear : ∀ o ∈ after, ClearInFetch track o)
    (run : (reconstruct env sha256 manifest).Runs (fetchSem mayFail) s w (.ok primaries) t v) :
    ∃ f, v.get (.out (pathParts track.name)) = some f ∧ MadeOf env.hashChunk (listedHashes manifest track) f.bytes := by
  have spec : (reconstruct env sha256 manifest).Wp (fetchSem mayFail) (fun _ => True)
      (fun r _ x => ∀ primaries, r = .ok primaries → Written env manifest track x) s w := by
    rw [reconstruct, split]
    refine Wp.seq (wp_any _) ?_ fun e t x _ primaries bad => by cases bad
    intro _ t x _ _
    refine Wp.seq (wp_any _) ?_ fun e t x _ primaries bad => by cases bad
    exact fun _ _ _ _ _ => writeTracks_lands clear
  exact ((wp_iff ..).mp spec).2 _ _ _ run primaries rfl

end Fetched

section Streamed
variable {hashChunk sha256 : Bytes → ChunkHash} {out : LinkFs.Path} {manifest : Manifest} {track : ManifestTrack}
  {before after : List ManifestTrack} {cache cache' : CacheFiles} {files : List WrittenFile}

theorem readChunkHexes_parts {hexes : List String} {b : Bytes} (run : readChunkHexes hashChunk hexes cache = .ok (b, cache')) :
    MadeOf hashChunk hexes b := by
  induction hexes generalizing cache b with
  | nil =>
      cases run
      exact ⟨[], .nil, rfl⟩
  | cons hex rest ih =>
      obtain ⟨raw, c, first, run⟩ := CacheReads.bind_ok_iff.mp run
      obtain ⟨more, c', later, run⟩ := CacheReads.bind_ok_iff.mp run
      cases run
      obtain ⟨parts, named, rfl⟩ := ih later
      refine ⟨raw :: parts, .cons ?_ named, rfl⟩
      rw [readChunkHex] at first
      cases spelled : fromHex hex with
      | none =>
          rw [spelled] at first
          cases first
      | some hash =>
          rw [spelled] at first
          cases held : cache (toHex hash) with
          | none => simp [CacheFiles.get, held] at first
          | some payload =>
              by_cases right : hashChunk payload = hash
              · simp only [CacheFiles.get, held, right, ne_eq, not_true_eq_false, if_false, Except.ok.injEq, Prod.mk.injEq] at first
                rw [NamedBy, spelled, ← first.1, right]
              · simp [CacheFiles.get, held, right] at first

variable (hashChunk sha256 out manifest) in
/-- The file that streaming writes for a data track. -/
structure Streams (track : ManifestTrack) (w : WrittenFile) : Prop where
  place : w.1 = joinTo (out.map .name) track.name
  parts : MadeOf hashChunk (segmentHashes manifest track) w.2
  digest : digestAccepted sha256 manifest track w.2 = true

theorem writeData_streams (run : writeData hashChunk sha256 out manifest track cache = .ok (files, cache')) :
    ∃ w, files = [w] ∧ Streams hashChunk sha256 out manifest track w := by
  rw [writeData] at run
  split at run
  · cases run
  · obtain ⟨b, c, read, run⟩ := CacheReads.bind_ok_iff.mp run
    have made := readChunkHexes_parts read
    cases expected : expectedSha256 manifest track.name with
    | none =>
        simp only [expected] at run
        cases run
        exact ⟨_, rfl, rfl, made, by rw [digestAccepted, expected]⟩
    | some e =>
        simp only [expected] at run
        split at run
        · rename_i same
          cases run
          exact ⟨_, rfl, rfl, made, by rw [digestAccepted, expected]; exact same⟩
        · cases run

theorem writeAllTracks_streams {tracks : List ManifestTrack} (data : ∀ t ∈ tracks, isMedia t = false)
    (run : writeAllTracks hashChunk sha256 out manifest tracks cache = .ok (files, cache')) :
    List.Forall₂ (Streams hashChunk sha256 out manifest) tracks files := by
  induction tracks generalizing cache files with
  | nil =>
      cases run
      exact .nil
  | cons track rest ih =>
      obtain ⟨first, c, one, run⟩ := CacheReads.bind_ok_iff.mp run
      obtain ⟨more, c', others, run⟩ := CacheReads.bind_ok_iff.mp run
      cases run
      rw [writeTrackFiles, if_neg (by rw [data track mem_cons_self]; decide)] at one
      obtain ⟨w, rfl, streams⟩ := writeData_streams one
      exact .cons streams (ih (fun t mem => data t (mem_cons_of_mem track mem)) others)

theorem forall₂_mem {α β : Type} {R : α → β → Prop} {l : List α} {ys : List β} (h : List.Forall₂ R l ys) {y : β} (mem : y ∈ ys) :
    ∃ x ∈ l, R x y := by
  induction h with
  | nil => cases mem
  | cons here _ ih =>
      rcases mem_cons.mp mem with rfl | mem
      · exact ⟨_, mem_cons_self, here⟩
      · obtain ⟨x, there, related⟩ := ih mem
        exact ⟨x, mem_cons_of_mem _ there, related⟩

theorem forall₂_split {α β : Type} {R : α → β → Prop} {l r : List α} {x : α} {ys : List β} (h : List.Forall₂ R (l ++ x :: r) ys) :
    ∃ l' y r', ys = l' ++ y :: r' ∧ R x y ∧ List.Forall₂ R r r' := by
  induction l generalizing ys with
  | nil =>
      obtain _ | ⟨here, later⟩ := h
      exact ⟨[], _, _, rfl, here, later⟩
  | cons z l ih =>
      obtain _ | ⟨here, later⟩ := h
      obtain ⟨l', y, r', rfl, found, after⟩ := ih later
      exact ⟨_ :: l', y, r', rfl, found, after⟩

/-- Streaming takes the segments only. -/
theorem reconstructStreaming_writes (old : OutputFiles) (data : ∀ t ∈ manifest.tracks, isMedia t = false)
    (split : manifest.tracks = before ++ track :: after)
    (clear : ∀ o ∈ after, joinTo (out.map .name) o.name ≠ joinTo (out.map .name) track.name ∧
      partOf (joinTo (out.map .name) o.name) ≠ joinTo (out.map .name) track.name)
    (run : reconstructStreaming hashChunk sha256 out manifest cache = .ok (files, cache')) :
    ∃ b, (files.foldl OutputFiles.install old) (joinTo (out.map .name) track.name) = some b ∧
      MadeOf hashChunk (segmentHashes manifest track) b ∧ digestAccepted sha256 manifest track b = true := by
  have streams := writeAllTracks_streams data run
  rw [split] at streams
  obtain ⟨front, w, back, rfl, here, later⟩ := forall₂_split streams
  refine ⟨w.2, ?_, here.parts, here.digest⟩
  rw [← here.place]
  refine (@installed_iff _ _ _ _ Prod.fst (fun w => partOf w.1) Prod.snd old w _
    (mem_append_right _ mem_cons_self)).mpr ⟨front, w, back, rfl, rfl, rfl, fun v mem => ?_⟩
  obtain ⟨o, there, streams⟩ := forall₂_mem later mem
  rw [Clears, streams.place, here.place]
  exact clear o there

end Streamed

section Planned
variable {m : Overflow} {hashChunk sha256 : Bytes → ChunkHash} {mayFail : LinkFs.Op → Tree → Prop} {call : PlanCall}
  {manifest : Manifest} {journal : List (List Comp × List Comp) → Bytes} {track other : ManifestTrack}
  {before after tracks : List ManifestTrack} {s s' : PlanState} {path : List Comp} {files files' : OutputFiles}

variable (call) in
/-- The place of a track's file, and where it is written before. -/
def PlanCall.namesOf (track : ManifestTrack) : List (List Comp) :=
  [call.finalPath track.name, call.dest track.name, partOf (call.dest track.name)]

/-- What is staged for other tracks. -/
def StagedFor (call : PlanCall) (tracks : List ManifestTrack) (staged : List (List Comp × List Comp)) : Prop :=
  ∀ x ∈ staged, ∃ o ∈ tracks, x = (call.dest o.name, call.finalPath o.name)

theorem TrackPlanned.spare (step : TrackPlanned m hashChunk sha256 mayFail call manifest other s s')
    (clear : path ∉ call.namesOf other) :
    s'.files path = s.files path ∧ ∃ more, s'.staged = s.staged ++ more ∧ StagedFor call [other] more := by
  cases step with
  | unchanged => exact ⟨rfl, [], (List.append_nil _).symm, nofun⟩
  | rebuilt =>
      simp only [PlanCall.namesOf, mem_cons, not_mem_nil, or_false, not_or] at clear
      refine ⟨@install_other _ _ _ _ Prod.fst (fun w => partOf w.1) Prod.snd _ (_, _) _ (Ne.symm clear.2.1)
        (Ne.symm clear.2.2), _, rfl, fun x mem => ?_⟩
      exact ⟨other, mem_singleton.mpr rfl, mem_singleton.mp mem⟩

theorem TracksPlanned.spare (run : TracksPlanned m hashChunk sha256 mayFail call manifest tracks s s')
    (clear : ∀ o ∈ tracks, path ∉ call.namesOf o) :
    s'.files path = s.files path ∧ ∃ more, s'.staged = s.staged ++ more ∧ StagedFor call tracks more := by
  induction run with
  | nil => exact ⟨rfl, [], (List.append_nil _).symm, nofun⟩
  | @cons track rest s s₁ s₂ first later ih =>
      obtain ⟨same, more, grown, from_⟩ := first.spare (clear track mem_cons_self)
      obtain ⟨same', more', grown', from'⟩ := ih fun o mem => clear o (mem_cons_of_mem track mem)
      refine ⟨same'.trans same, more ++ more', by rw [grown', grown, List.append_assoc], fun x mem => ?_⟩
      rcases List.mem_append.mp mem with early | late
      · obtain ⟨o, there, rfl⟩ := from_ x early
        exact ⟨track, mem_cons_self, by rw [mem_singleton.mp there]⟩
      · obtain ⟨o, there, rfl⟩ := from' x late
        exact ⟨o, mem_cons_of_mem track there, rfl⟩

theorem TracksPlanned.split {l r : List ManifestTrack} (run : TracksPlanned m hashChunk sha256 mayFail call manifest (l ++ r) s s') :
    ∃ s₁, TracksPlanned m hashChunk sha256 mayFail call manifest l s s₁ ∧
      TracksPlanned m hashChunk sha256 mayFail call manifest r s₁ s' := by
  induction l generalizing s with
  | nil => exact ⟨s, .nil s, run⟩
  | cons track l ih =>
      obtain _ | ⟨first, later⟩ := run
      obtain ⟨s₁, front, back⟩ := ih later
      exact ⟨s₁, .cons first front, back⟩

/-- The bytes of a track as a plan puts them in place: made of its segments, or what was there
with the digest of the manifest. -/
def PlannedBytes (hashChunk sha256 : Bytes → ChunkHash) (manifest : Manifest) (track : ManifestTrack) (b : Bytes) : Prop :=
  digestAccepted sha256 manifest track b = true ∧
    (MadeOf hashChunk (segmentHashes manifest track) b ∨ (expectedSha256 manifest track.name).isSome = true)

/-- A track is left in its place in a directory, or it is written to its first place. -/
theorem TrackPlanned.lands (step : TrackPlanned m hashChunk sha256 mayFail call manifest track s s') :
    (∃ b, s' = s ∧ call.dirMode = true ∧ s.files (call.finalPath track.name) = some b ∧ PlannedBytes hashChunk sha256 manifest track b) ∨
    ∃ b, s'.files (call.dest track.name) = some b ∧ PlannedBytes hashChunk sha256 manifest track b ∧
      s'.staged = s.staged ++ [(call.dest track.name, call.finalPath track.name)] := by
  cases step with
  | unchanged data safe same =>
      left
      rw [PlanCall.noOp, Bool.and_eq_true, Bool.and_eq_true] at same
      obtain ⟨⟨dir, -⟩, same⟩ := same
      cases expected : expectedSha256 manifest track.name with
      | none =>
          rw [expected] at same
          cases same
      | some e =>
          rw [expected] at same
          dsimp only [PlanCall.fileMatchesSha256] at same
          cases there : s.files (call.finalPath track.name) with
          | none =>
              rw [there] at same
              cases same
          | some b =>
              rw [there] at same
              refine ⟨b, rfl, dir, rfl, ?_, .inr (by rw [expected]; rfl)⟩
              rw [digestAccepted, expected]
              exact same
  | @rebuilt needed p outcome t b data safe other listed planned run accepted =>
      right
      obtain ⟨-, -, -, exact_⟩ := hybrid_exact listed planned
      obtain ⟨-, -, done⟩ := exact_ _ _ _ _ _ _ _ run
      obtain ⟨strings, named, written, -⟩ := done outcome rfl
      rw [trackChunks_hashes] at named
      exact ⟨b, if_pos rfl, ⟨accepted, .inl ⟨strings, named, written⟩⟩, rfl⟩

theorem moveStaged_spare {l : List (List Comp × List Comp)} (clear : ∀ x ∈ l, x.1 ≠ path ∧ x.2 ≠ path)
    (moved : moveStaged l files = some files') : files' path = files path := by
  induction l generalizing files with
  | nil =>
      cases moved
      rfl
  | cons x rest ih =>
      obtain ⟨source, target⟩ := clear x mem_cons_self
      obtain ⟨next, first, later⟩ := Option.bind_eq_some_iff.mp moved
      obtain ⟨b, there, same⟩ := Option.bind_eq_some_iff.mp first
      cases same
      rw [ih (fun y mem => clear y (mem_cons_of_mem x mem)) later, OutputFiles.put, if_neg target.symm, OutputFiles.del,
        if_neg source.symm]

theorem moveStaged_lands {l r : List (List Comp × List Comp)} {source target : List Comp} {b : Bytes}
    (held : files source = some b) (clear : ∀ x ∈ l, x.1 ≠ source ∧ x.2 ≠ source) (clear' : ∀ x ∈ r, x.1 ≠ target ∧ x.2 ≠ target)
    (moved : moveStaged (l ++ (source, target) :: r) files = some files') : files' target = some b := by
  induction l generalizing files with
  | nil =>
      obtain ⟨next, first, later⟩ := Option.bind_eq_some_iff.mp moved
      obtain ⟨b', there, same⟩ := Option.bind_eq_some_iff.mp first
      rw [held] at there
      cases there
      cases same
      rw [moveStaged_spare clear' later]
      exact if_pos rfl
  | cons x rest ih =>
      obtain ⟨from_, to_⟩ := clear x mem_cons_self
      obtain ⟨next, first, later⟩ := Option.bind_eq_some_iff.mp moved
      obtain ⟨b', there, same⟩ := Option.bind_eq_some_iff.mp first
      cases same
      refine ih ?_ (fun y mem => clear y (mem_cons_of_mem x mem)) later
      rw [OutputFiles.put, if_neg to_.symm, OutputFiles.del, if_neg from_.symm, held]

theorem linkPaths_spare {l : List (String × String)} (clear : ∀ x ∈ l, call.finalPath x.1 ≠ path) :
    linkPaths call l files path = files path := by
  induction l generalizing files with
  | nil => rfl
  | cons x rest ih =>
      rw [linkPaths, ih fun y mem => clear y (mem_cons_of_mem x mem), OutputFiles.del,
        if_neg (clear x mem_cons_self).symm]

variable (call manifest track) in
/-- In a directory the name is none that the commit uses itself, and no link takes its place. -/
structure ClearInCommit : Prop where
  outside : call.stagingRoot.isPrefixOf (call.finalPath track.name) = false
  journal : call.dest track.name ≠ call.journalPath
  links : ∀ p ∈ metaPaths manifest "symlink:", call.finalPath p.1 ≠ call.finalPath track.name

/-- What lies behind the moves keeps the file. -/
theorem commitDirectory_moved {staged : List (List Comp × List Comp)} (mem : track ∈ manifest.tracks)
    (clear : ClearInCommit call manifest track)
    (done : commitDirectory journal call manifest staged files = some files') :
    ∃ start moved, moveStaged staged start = some moved ∧ (∀ path, path ≠ call.journalPath → start path = files path) ∧
      files' (call.finalPath track.name) = moved (call.finalPath track.name) := by
  obtain ⟨moved, ran, same⟩ := Option.bind_eq_some_iff.mp done
  cases same
  refine ⟨_, moved, ran, fun path other => ?_, ?_⟩
  · split
    · rfl
    · exact if_neg other
  · have linked := @linkPaths_spare call (call.finalPath track.name) moved _ clear.links
    have kept : (keep call manifest).contains (call.finalPath track.name) = true :=
      List.contains_iff_mem.mpr (List.mem_append_left _ (List.mem_map_of_mem mem))
    dsimp only
    rw [if_neg (by rw [clear.outside]; decide)]
    split
    · rw [pruneExtraneous, kept, Bool.not_true, Bool.and_false, if_neg (by decide), linked]
    · exact linked

theorem ClearInCommit.not_journal (clear : ClearInCommit call manifest track) : call.finalPath track.name ≠ call.journalPath := by
  intro same
  have outside := clear.outside
  rw [same, PlanCall.journalPath, List.isPrefixOf_iff_prefix.mpr (List.prefix_append ..)] at outside
  cases outside

/-- A plan's reconstruction takes the segments only, or leaves what has the digest. -/
theorem reconstructWithPlans_writes {t : Tree} (split : manifest.tracks = before ++ track :: after)
    (apart : ∀ o ∈ before ++ after, call.finalPath track.name ∉ call.namesOf o ∧ call.dest track.name ∉ call.namesOf o)
    (clear : call.dirMode = true → ClearInCommit call manifest track)
    (run : ReconstructWithPlans journal call manifest m hashChunk sha256 mayFail t files files') :
    ∃ b, files' (call.finalPath track.name) = some b ∧ PlannedBytes hashChunk sha256 manifest track b := by
  obtain ⟨s, planned, ended⟩ := run
  have mem : track ∈ manifest.tracks := by
    rw [split]
    exact mem_append_right _ mem_cons_self
  have early : ∀ o ∈ before, call.finalPath track.name ∉ call.namesOf o ∧ call.dest track.name ∉ call.namesOf o :=
    fun o there => apart o (List.mem_append_left _ there)
  have late : ∀ o ∈ after, call.finalPath track.name ∉ call.namesOf o ∧ call.dest track.name ∉ call.namesOf o :=
    fun o there => apart o (mem_append_right _ there)
  -- No move of another track touches a path that the other does not name.
  have quiet {l : List ManifestTrack} {staged : List (List Comp × List Comp)} {path : List Comp} (from_ : StagedFor call l staged)
      (clear : ∀ o ∈ l, path ∉ call.namesOf o) : ∀ x ∈ staged, x.1 ≠ path ∧ x.2 ≠ path := by
    intro x there
    obtain ⟨o, mem, rfl⟩ := from_ x there
    have apart := clear o mem
    simp only [PlanCall.namesOf, mem_cons, not_mem_nil, or_false, not_or] at apart
    exact ⟨Ne.symm apart.2.1, Ne.symm apart.1⟩
  rw [split] at planned
  obtain ⟨s₁, front, back⟩ := planned.split
  obtain _ | @⟨_, _, _, s₂, _, step, later⟩ := back
  obtain ⟨-, staged₁, grown₁, from₁⟩ := front.spare fun o there => (early o there).1
  obtain ⟨kept, staged₂, grown₂, from₂⟩ := later.spare fun o there => (late o there).1
  obtain ⟨kept', -⟩ := later.spare fun o there => (late o there).2
  rw [List.nil_append] at grown₁
  rcases step.lands with ⟨b, rfl, dir, there, good⟩ | ⟨b, there, good, grown⟩
  · have clear := clear dir
    rw [if_pos dir] at ended
    obtain ⟨start, moved, ran, same, last⟩ := commitDirectory_moved mem clear ended
    refine ⟨b, ?_, good⟩
    rw [last, moveStaged_spare ?_ ran, same _ clear.not_journal, kept, there]
    rw [grown₂, grown₁]
    intro x mem
    rcases List.mem_append.mp mem with first | second
    · exact quiet from₁ (fun o there => (early o there).1) x first
    · exact quiet from₂ (fun o there => (late o there).1) x second
  · refine ⟨b, ?_, good⟩
    cases dir : call.dirMode with
    | false =>
        rw [dir, if_neg (by decide)] at ended
        cases ended
        have place : call.dest track.name = call.finalPath track.name := by rw [PlanCall.dest, dir, if_neg (by decide)]
        rw [kept, ← place, there]
    | true =>
        have clear := clear dir
        rw [if_pos dir] at ended
        obtain ⟨start, moved, ran, same, last⟩ := commitDirectory_moved mem clear ended
        rw [last]
        rw [grown₂, grown, grown₁, List.append_assoc] at ran
        refine moveStaged_lands ?_ (quiet from₁ fun o there => (early o there).2) (quiet from₂ fun o there => (late o there).1) ran
        rw [same _ clear.journal, kept', there]

end Planned

section Agree
variable {hashChunk sha256 : Bytes → ChunkHash} {hexes : List String} {s s' : List Bytes} {b b' : Bytes} {l : List Bytes}

/-- Neither parts of these byte strings nor the strings themselves collide. -/
def Collisionless (hashChunk sha256 : Bytes → ChunkHash) (l : List Bytes) : Prop :=
  ∀ b ∈ l, ∀ b' ∈ l, (sha256 b = sha256 b' → b = b') ∧ ∀ x y, x <:+: b → y <:+: b' → hashChunk x = hashChunk y → x = y

theorem infix_of_part {part : Bytes} (mem : part ∈ s) (inside : s.flatten <:+: b) : part <:+: b :=
  List.IsInfix.trans (List.infix_of_mem_flatten mem) inside

/-- Without collisions the parts are given by their names. -/
theorem named_parts (clear : Collisionless hashChunk sha256 l) (mem : b ∈ l) (mem' : b' ∈ l) (inside : s.flatten <:+: b)
    (inside' : s'.flatten <:+: b') (named : List.Forall₂ (NamedBy hashChunk) hexes s)
    (named' : List.Forall₂ (NamedBy hashChunk) hexes s') : s = s' := by
  rcases namedBy_unique named' named with same | ⟨x, there, y, there', differ, collide⟩
  · exact same
  · exact absurd ((clear b' mem' b mem).2 x y (infix_of_part there inside') (infix_of_part there' inside) collide) differ

/-- Parts are empty exactly when their names are that of nothing. -/
theorem empties_iff (clear : Collisionless hashChunk sha256 l) (mem : b ∈ l) (named : List.Forall₂ (NamedBy hashChunk) hexes s)
    (inside : s.flatten <:+: b) : (∀ part ∈ s, part = []) ↔ ∀ hex ∈ hexes, NamedBy hashChunk hex [] := by
  have within : ∀ part ∈ s, part <:+: b := fun part there => infix_of_part there inside
  clear inside
  induction named with
  | nil => simp
  | @cons hex part hexes s first _ ih =>
      obtain ⟨here, later⟩ := List.forall_mem_cons.mp within
      rw [List.forall_mem_cons, List.forall_mem_cons]
      refine and_congr ⟨fun none => none ▸ first, fun none => ?_⟩ (ih later)
      have same : hashChunk part = hashChunk [] := Option.some.inj (first.symm.trans none)
      exact (clear b mem b mem).2 part [] here (List.nil_infix) same

theorem digest_same {manifest : Manifest} {track : ManifestTrack} (clear : Collisionless hashChunk sha256 l) (mem : b ∈ l)
    (mem' : b' ∈ l) (given : (expectedSha256 manifest track.name).isSome = true)
    (accepted : digestAccepted sha256 manifest track b = true)
    (accepted' : digestAccepted sha256 manifest track b' = true) : b = b' := by
  obtain ⟨e, expected⟩ := Option.isSome_iff_exists.mp given
  rw [digestAccepted, expected] at accepted accepted'
  have low := of_decide_eq_true accepted
  have low' := of_decide_eq_true accepted'
  have same : eqIgnoreAsciiCase (toHex (sha256 b)) (toHex (sha256 b')) = true := decide_eq_true (low.trans low'.symm)
  exact (clear b mem b' mem').1 ((eqIgnoreAsciiCase_toHex _ _).mp same)

end Agree

/-- No name that another track uses is this one's, in any of the three reconstructions. -/
structure TrackApart (call : PlanCall) (track other : ManifestTrack) : Prop where
  engine : ClearInFetch track other
  place : call.finalPath track.name ∉ call.namesOf other
  temporary : call.dest track.name ∉ call.namesOf other
  part : partOf (call.finalPath other.name) ≠ call.finalPath track.name

/-- When the three reconstructions succeed, a data track with a name of its own has the same
bytes in all of them exactly when its init chunks are empty. -/
theorem reconstructors_agree_iff (env : ContainerEnv) (sha256 : Bytes → ChunkHash) (manifest : Manifest) (call : PlanCall)
    (data : ∀ t ∈ manifest.tracks, isMedia t = false)
    -- the engine
    {mayFail : Op FetchPath Unit → FetchDisk → Prop} {s t : GroupOutcome} {w v : FetchDisk} {primaries : List FetchPath}
    (fetched : (reconstruct env sha256 manifest).Runs (fetchSem mayFail) s w (.ok primaries) t v)
    -- streaming
    {cache cache' : CacheFiles} {written : List WrittenFile} (old : OutputFiles)
    (streamed : reconstructStreaming env.hashChunk sha256 call.output manifest cache = .ok (written, cache'))
    -- plans
    {m : Overflow} {mayFail' : LinkFs.Op → Tree → Prop} {journal : List (List Comp × List Comp) → Bytes} {tree : Tree}
    {files files' : OutputFiles}
    (planned : ReconstructWithPlans journal call manifest m env.hashChunk sha256 mayFail' tree files files')
    {before after : List ManifestTrack} {track : ManifestTrack} (split : manifest.tracks = before ++ track :: after)
    (apart : ∀ o ∈ before ++ after, TrackApart call track o) (commit : call.dirMode = true → ClearInCommit call manifest track) :
    ∃ f g h, v.get (.out (pathParts track.name)) = some f ∧
      (written.foldl OutputFiles.install old) (call.finalPath track.name) = some g ∧
      files' (call.finalPath track.name) = some h ∧
      (Collisionless env.hashChunk sha256 [f.bytes, g, h] →
        (f.bytes = g ∧ g = h ↔ ∀ c ∈ track.initChunks, NamedBy env.hashChunk c.hash [])) := by
  have late : ∀ o ∈ after, TrackApart call track o := fun o mem => apart o (mem_append_right _ mem)
  obtain ⟨f, found, partsF, namedF, wholeF⟩ := reconstruct_writes split (fun o mem => (late o mem).engine) fetched
  obtain ⟨g, placed, ⟨partsG, namedG, wholeG⟩, digestG⟩ := reconstructStreaming_writes old data split (fun o mem => by
    have place := (late o mem).place
    simp only [PlanCall.namesOf, mem_cons, not_mem_nil, or_false, not_or] at place
    exact ⟨Ne.symm place.1, (late o mem).part⟩) streamed
  obtain ⟨h, there, digestH, madeH⟩ := reconstructWithPlans_writes split
    (fun o mem => ⟨(apart o mem).place, (apart o mem).temporary⟩) commit planned
  refine ⟨f, g, h, found, placed, there, fun clear => ?_⟩
  have memF : f.bytes ∈ [f.bytes, g, h] := mem_cons_self
  have memG : g ∈ [f.bytes, g, h] := mem_cons_of_mem _ mem_cons_self
  have memH : h ∈ [f.bytes, g, h] := mem_cons_of_mem _ (mem_cons_of_mem _ mem_cons_self)
  -- Streaming and plans always agree.
  have same : g = h := by
    rcases madeH with ⟨partsH, namedH, wholeH⟩ | given
    · rw [wholeG, wholeH, named_parts clear memG memH (by rw [wholeG]) (by rw [wholeH]) namedG namedH]
    · exact digest_same clear memG memH given digestG digestH
  -- The engine's parts are the inits and the same segments.
  rw [listedHashes_eq] at namedF
  obtain ⟨inits, segments, rfl, namedI, namedS⟩ : ∃ inits segments, partsF = inits ++ segments ∧
      List.Forall₂ (NamedBy env.hashChunk) (track.initChunks.map ChunkRef.hash) inits ∧
      List.Forall₂ (NamedBy env.hashChunk) (segmentHashes manifest track) segments := by
    refine ⟨partsF.take (track.initChunks.map ChunkRef.hash).length, partsF.drop (track.initChunks.map ChunkRef.hash).length,
      (List.take_append_drop ..).symm, ?_, ?_⟩
    · have front := List.forall₂_take (track.initChunks.map ChunkRef.hash).length namedF
      rwa [List.take_left] at front
    · have back := List.forall₂_drop (track.initChunks.map ChunkRef.hash).length namedF
      rwa [List.drop_left] at back
  rw [List.flatten_append] at wholeF
  have tail : segments = partsG := named_parts clear memF memG (by rw [wholeF]; exact (List.suffix_append ..).isInfix) (by rw [wholeG]) namedS namedG
  rw [and_iff_left same, wholeF, tail, ← wholeG, List.append_left_eq_self, List.flatten_eq_nil_iff]
  have inside : inits.flatten <:+: f.bytes := by
    rw [wholeF]
    exact (List.prefix_append ..).isInfix
  rw [empties_iff clear memF namedI inside, List.forall_mem_map]

section Blend

/-- A track of two chunks, with an init or without. -/
def blend (withInit : Bool) : Manifest :=
  { pairTrack with tracks := [⟨7, "data", "raw", "a.bin", 0, if withInit then [⟨toHex (numberHash [9]), 1⟩] else []⟩] }

def blendCall : PlanCall := ⟨"a", "single", false, false, [], [], some ⟨pairBytes, pairIndex⟩⟩

def blendChunks : List Bytes := [[1, 2], [3], [9]]

def blendDisk : FetchDisk :=
  blendChunks.foldl (fun w b => w.put (.chunk (toHex (numberHash b))) b 0) FileProg.World.empty

def blendCache : CacheFiles := fun hex => blendChunks.find? fun b => toHex (numberHash b) = hex

def blendPlace : List Comp := [.name "a.bin".toList]

/-- What the engine and the streaming client write, and that no chunk meets another's hash. -/
theorem blend_evaluated (withInit : Bool) :
    ((reconstruct plainEnv numberHash (blend withInit) .zero).exec blendDisk).map
      (fun p => (p.1, (p.2.get (.out (pathParts "a.bin"))).map File.bytes)) =
      some ((.ok [.out ["a.bin".toList]], .zero), some (if withInit then [9, 1, 2, 3] else [1, 2, 3])) ∧
    (match reconstructStreaming numberHash numberHash [] (blend withInit) blendCache with
      | .ok (files, _) => some files
      | .error _ => none) = some [(blendPlace, [1, 2, 3])] ∧
    (∀ t ∈ (blend withInit).tracks, isMedia t = false) ∧
    ∀ b ∈ [if withInit then [9, 1, 2, 3] else [1, 2, 3], [1, 2, 3], [1, 2, 3]],
      ∀ b' ∈ [if withInit then [9, 1, 2, 3] else [1, 2, 3], [1, 2, 3], [1, 2, 3]],
      ∀ x ∈ b.sublists, ∀ y ∈ b'.sublists, numberHash x = numberHash y → x = y := by
  cases withInit <;> decide +kernel

theorem blend_fetched (withInit : Bool) : ∃ primaries t v f,
    (reconstruct plainEnv numberHash (blend withInit)).Runs (fetchSem faultless) .zero blendDisk (.ok primaries) t v ∧
      v.get (.out (pathParts "a.bin")) = some f ∧ f.bytes = if withInit then [9, 1, 2, 3] else [1, 2, 3] := by
  have ended : ((reconstruct plainEnv numberHash (blend withInit) .zero).exec blendDisk).map
      (fun p => (p.1, (p.2.get (.out (pathParts "a.bin"))).map File.bytes)) =
      some ((.ok [.out ["a.bin".toList]], .zero), some (if withInit then [9, 1, 2, 3] else [1, 2, 3])) :=
    (blend_evaluated withInit).1
  obtain ⟨⟨⟨r, t⟩, v⟩, ended, same⟩ := Option.map_eq_some_iff.mp ended
  obtain ⟨succeeded, held⟩ := Prod.ext_iff.mp same
  cases succeeded
  obtain ⟨f, found, bytes⟩ := Option.map_eq_some_iff.mp held
  exact ⟨_, _, v, f, exec_runs (fun _ => rfl) ended, found, bytes⟩

theorem blend_streamed (withInit : Bool) : ∃ cache,
    reconstructStreaming numberHash numberHash [] (blend withInit) blendCache = .ok ([(blendPlace, [1, 2, 3])], cache) := by
  have ended : (match reconstructStreaming numberHash numberHash [] (blend withInit) blendCache with
      | .ok (files, _) => some files
      | .error _ => none) = some [(blendPlace, [1, 2, 3])] := (blend_evaluated withInit).2.1
  cases run : reconstructStreaming numberHash numberHash [] (blend withInit) blendCache with
  | error e =>
      rw [run] at ended
      cases ended
  | ok p =>
      rw [run] at ended
      obtain ⟨files, cache⟩ := p
      cases ended
      exact ⟨cache, rfl⟩

theorem blend_planned (withInit : Bool) (journal : List (List Comp × List Comp) → Bytes) :
    ∃ files', ReconstructWithPlans journal blendCall (blend withInit) .checked numberHash numberHash (fun _ _ => False)
        (fun _ => none) (fun _ => none) files' ∧ files' blendPlace = some [1, 2, 3] := by
  have listed : neededChunksForTrack .checked (blend withInit) 7 = some pairNeeded := by
    cases withInit <;> rfl
  have planned : plan .checked (availabilityFromSets (blendCall.cacheContains fun _ => none)
      fun hex => blendCall.prev.bind fun prev => prev.index hex) "a" "a.bin" pairNeeded = some pairPlan := by decide +kernel
  have run : (hybridReconstruct .checked numberHash [] (some ⟨pairBytes, pairIndex⟩) pairPlan).Runs
      (HybridStep fun _ _ => False) (fun _ => none, []) (.ok ⟨3, 0, 0, 0⟩) (fun _ => none, pairBytes) := by
    have range : (PreviousArtifact.mk pairBytes pairIndex).readRange 0 3 = some pairBytes := rfl
    have valid : validate .checked pairPlan = .ok () := by decide +kernel
    simp only [hybridReconstruct, executePlan, valid]
    simp only [pairPlan, executeOps, executeOp, Option.bind_some, range, copyParts, fromHex_toHex]
    exact ⟨.ok (), (fun _ => none, [1, 2]), .inl ⟨rfl, rfl⟩,
      .ok (), (fun _ => none, [1, 2, 3]), .inl ⟨rfl, rfl⟩, rfl, rfl⟩
  refine ⟨_, ⟨_, .cons (.rebuilt ?_ ?_ ?_ listed planned run ?_) (.nil _), rfl⟩, ?_⟩
  · cases withInit <;> decide +kernel
  · cases withInit <;> decide +kernel
  · cases withInit <;> rfl
  · cases withInit <;> decide +kernel
  · cases withInit <;> decide +kernel

theorem collisionless_of_sublists {l : List Bytes} (clear : ∀ b ∈ l, ∀ b' ∈ l, ∀ x ∈ b.sublists, ∀ y ∈ b'.sublists,
    numberHash x = numberHash y → x = y) : Collisionless numberHash numberHash l := by
  intro b mem b' mem'
  constructor
  · exact clear b mem b' mem' b (mem_sublists.mpr (List.Sublist.refl b)) b' (mem_sublists.mpr (List.Sublist.refl b'))
  · exact fun x y inside inside' =>
      clear b mem b' mem' x (mem_sublists.mpr inside.sublist) y (mem_sublists.mpr inside'.sublist)

theorem reconstructors_agree_blend : ∃ f files',
    (∃ primaries t v, (reconstruct plainEnv numberHash (blend false)).Runs (fetchSem faultless) .zero blendDisk (.ok primaries) t v ∧
      v.get (.out (pathParts "a.bin")) = some f) ∧
    ReconstructWithPlans (fun _ => []) blendCall (blend false) .checked numberHash numberHash (fun _ _ => False) (fun _ => none)
      (fun _ => none) files' ∧ files' blendPlace = some f.bytes := by
  obtain ⟨primaries, t, v, f₀, fetched, found₀, bytes₀⟩ := blend_fetched false
  obtain ⟨cache, streamed⟩ := blend_streamed false
  obtain ⟨files', planned, placed₀⟩ := blend_planned false fun _ => []
  obtain ⟨f, g, h, found, placed, there, agree⟩ := reconstructors_agree_iff plainEnv numberHash (blend false) blendCall
    (blend_evaluated false).2.2.1 fetched (fun _ => none) streamed planned (show (blend false).tracks = [] ++ _ :: [] from rfl) nofun nofun
  obtain rfl : f₀ = f := Option.some.inj (found₀.symm.trans found)
  obtain rfl : [1, 2, 3] = h := Option.some.inj (placed₀.symm.trans there)
  obtain rfl : [1, 2, 3] = g := Option.some.inj placed
  have clear : Collisionless numberHash numberHash [f₀.bytes, [1, 2, 3], [1, 2, 3]] := by
    rw [bytes₀]
    exact collisionless_of_sublists (blend_evaluated false).2.2.2
  have same := (agree clear).mpr nofun
  exact ⟨f₀, files', ⟨primaries, t, v, fetched, found⟩, planned, by rw [same.1]; exact placed₀⟩

/-- The engine writes the init chunk of a data track, the client does not. -/
theorem not_reconstructors_agree : ¬ ∀ (env : ContainerEnv) (sha256 : Bytes → ChunkHash) (manifest : Manifest) (call : PlanCall),
    (∀ t ∈ manifest.tracks, isMedia t = false) →
    ∀ (mayFail : Op FetchPath Unit → FetchDisk → Prop) (s t : GroupOutcome) (w v : FetchDisk) (primaries : List FetchPath),
    (reconstruct env sha256 manifest).Runs (fetchSem mayFail) s w (.ok primaries) t v →
    ∀ (cache cache' : CacheFiles) (written : List WrittenFile) (old : OutputFiles),
    reconstructStreaming env.hashChunk sha256 call.output manifest cache = .ok (written, cache') →
    ∀ (m : Overflow) (mayFail' : LinkFs.Op → Tree → Prop) (journal : List (List Comp × List Comp) → Bytes) (tree : Tree)
      (files files' : OutputFiles),
    ReconstructWithPlans journal call manifest m env.hashChunk sha256 mayFail' tree files files' →
    ∀ (before after : List ManifestTrack) (track : ManifestTrack), manifest.tracks = before ++ track :: after →
    (∀ o ∈ before ++ after, TrackApart call track o) → (call.dirMode = true → ClearInCommit call manifest track) →
    ∃ f g h, v.get (.out (pathParts track.name)) = some f ∧
      (written.foldl OutputFiles.install old) (call.finalPath track.name) = some g ∧
      files' (call.finalPath track.name) = some h ∧
      (Collisionless env.hashChunk sha256 [f.bytes, g, h] → f.bytes = g ∧ g = h) := by
  intro agree
  obtain ⟨primaries, t, v, f₀, fetched, found₀, bytes₀⟩ := blend_fetched true
  obtain ⟨cache, streamed⟩ := blend_streamed true
  obtain ⟨files', planned, placed₀⟩ := blend_planned true fun _ => []
  obtain ⟨f, g, h, found, placed, there, same⟩ := agree plainEnv numberHash (blend true) blendCall (blend_evaluated true).2.2.1 _ _ _ _ _ _
    fetched _ _ _ (fun _ => none) streamed _ _ _ _ _ _ planned [] [] _ rfl nofun nofun
  obtain rfl : f₀ = f := Option.some.inj (found₀.symm.trans found)
  obtain rfl : [1, 2, 3] = h := Option.some.inj (placed₀.symm.trans there)
  obtain rfl : [1, 2, 3] = g := Option.some.inj placed
  rw [bytes₀] at same
  exact absurd (same (collisionless_of_sublists (blend_evaluated true).2.2.2)).1 (by decide)

end Blend

end Cavs
