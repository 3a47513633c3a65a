import Cavs.ContainerRun
import Cavs.InstallTree
import Cavs.SignatureCalls

/-!
# Signing a container

A directory is packed into a container with a track for each file, cut into chunks. The signature of
the container tells of its data tracks, the signature of the directory of everything in it.
-/
namespace Cavs.SignContainer
open FileProg (Bytes)
open Signature
open Outcome (ok_bind ok_of_bindO)
open ContainerWriter (create slice slices)
open List (append_assoc length_map map_map mem_cons mem_map mem_singleton nil_append)

section Split

/-- How a payload is cut; sizes are in bytes. -/
inductive ChunkMode where
  | fixed (size : Nat)
  | cdc (min avg max : Nat) (norm : UInt8)

def normDefault : UInt8 := 1

def normTight : UInt8 := 3

inductive ChunkProfile where
  | fixed256K | fixed512K | fixed1M | fastCdc16K | fastCdc32K | fastCdc64K | fastCdc128K | fastCdc256K
  | fastCdc64KN3 | fastCdc128KN3
  deriving DecidableEq

namespace ChunkProfile

def all : List ChunkProfile :=
  [fixed256K, fixed512K, fixed1M, fastCdc16K, fastCdc32K, fastCdc64K, fastCdc128K, fastCdc256K, fastCdc64KN3,
    fastCdc128KN3]

def label : ChunkProfile → String
  | fixed256K => "fixed-256k"
  | fixed512K => "fixed-512k"
  | fixed1M => "fixed-1m"
  | fastCdc16K => "fastcdc-16k"
  | fastCdc32K => "fastcdc-32k"
  | fastCdc64K => "fastcdc-64k"
  | fastCdc128K => "fastcdc-128k"
  | fastCdc256K => "fastcdc-256k"
  | fastCdc64KN3 => "fastcdc-64k-n3"
  | fastCdc128KN3 => "fastcdc-128k-n3"

def parse (s : String) : Option ChunkProfile := all.find? fun p => p.label = s

def toMode : ChunkProfile → ChunkMode
  | fixed256K => .fixed (256 * 1024)
  | fixed512K => .fixed (512 * 1024)
  | fixed1M => .fixed (1024 * 1024)
  | fastCdc16K => .cdc (4 * 1024) (16 * 1024) (64 * 1024) normTight
  | fastCdc32K => .cdc (8 * 1024) (32 * 1024) (128 * 1024) normTight
  | fastCdc64K => .cdc (16 * 1024) (64 * 1024) (256 * 1024) normDefault
  | fastCdc128K => .cdc (32 * 1024) (128 * 1024) (512 * 1024) normDefault
  | fastCdc256K => .cdc (64 * 1024) (256 * 1024) (1024 * 1024) normDefault
  | fastCdc64KN3 => .cdc (16 * 1024) (64 * 1024) (256 * 1024) normTight
  | fastCdc128KN3 => .cdc (32 * 1024) (128 * 1024) (512 * 1024) normTight

end ChunkProfile

/-- Ranges that follow one another from one place up to another, each of at most `size` bytes. -/
def Tiles (size : Nat) : (start : Nat) → List (Nat × Nat) → (stop : Nat) → Prop
  | start, [], stop => start = stop
  | start, range :: rest, stop =>
      range.1 = start ∧ start ≤ range.2 ∧ range.2 ≤ start + size ∧ Tiles size range.2 rest stop

def levelOf (norm : UInt8) : Nat :=
  match norm with
  | 0 => 0
  | 1 => 1
  | 2 => 2
  | _ => 3

/-- The chunker of FastCDC: the offset and the length of each chunk. With the sizes of a profile the
chunks cover the input. -/
structure FastCdc where
  chunks : (input : Bytes) → (min avg max level : Nat) → List (Nat × Nat)
  covers : ∀ (profile : ChunkProfile) (min avg max : Nat) (norm : UInt8), profile.toMode = .cdc min avg max norm →
    ∀ input, input ≠ [] →
      Tiles max 0 ((chunks input min avg max (levelOf norm)).map fun c => (c.1, c.1 + c.2)) input.length

def fixedFrom (size len : Nat) : (fuel off : Nat) → List (Nat × Nat)
  | 0, _ => []
  | fuel + 1, off =>
      if off < len then
        let stop := min (off + size) len
        (off, stop) :: fixedFrom size len fuel stop
      else []

def split (cdc : FastCdc) (input : Bytes) (mode : ChunkMode) : List (Nat × Nat) :=
  if input = [] then []
  else match mode with
    | .fixed size => fixedFrom (max size 1) input.length input.length 0
    | .cdc min avg max norm => (cdc.chunks input min avg max (levelOf norm)).map fun c => (c.1, c.1 + c.2)

end Split

section Pack
variable (env : ContainerEnv) (cdc : FastCdc) (sha256 : Bytes → ChunkHash) (ignores : String → Bool → Bool)

structure PackDirOptions where
  profile : Option String
  compress : Bool
  zstdLevel : Int
  signKey : Option ChunkHash

inductive PackDirError where
  | unknownProfile (s : String)
  | unsafePath (rel : String)
  | noFiles
  | format (e : FormatError)

def ofFormat {ε α : Type} (told : FormatError → ε) : FormatResult α → Outcome ε α
  | .ok a => .ok a
  | .error e => .error (told e)
  | .panics => .panics

def PackDirOptions.chosen (opts : PackDirOptions) : Outcome PackDirError ChunkProfile :=
  match opts.profile with
  | none => .ok .fastCdc64K
  | some "auto" => .ok .fastCdc64K
  | some other => Outcome.ofOption (.unknownProfile other) (ChunkProfile.parse other)

/-- A directory being packed. -/
structure Packer where
  w : ContainerWriter
  trackId : UInt32
  segmentId : UInt64
  files : Nat

def setMetas (w : ContainerWriter) (l : List (String × String)) : ContainerWriter :=
  l.foldl (fun w m => w.setMeta m.1 m.2) w

def PackDirOptions.start (opts : PackDirOptions) (uuid : Uuid) : Packer :=
  let w := { create uuid 1000 opts.compress with zstdLevel := opts.zstdLevel, signer := opts.signKey }
  ⟨setMetas w [("packer", "cavs-cli 1.8.0"), ("payload", "directory")], 0, 0, 0⟩

def addChunked (w : ContainerWriter) (data : Bytes) (mode : ChunkMode) : FormatResult (List UInt32 × ContainerWriter) :=
  w.addChunksParallel env data (split cdc data mode)

def addFile (profile : ChunkProfile) (s : Packer) (rel : String) (content : Bytes) (executable : Bool) :
    FormatResult Packer := do
  let w := setMetas s.w (Install.fileMeta sha256 profile.label rel content executable)
  let (chunks, w) ← addChunked env cdc w content profile.toMode
  let trackId := s.trackId + 1
  let w ← w.addTrack ⟨trackId, .data, 0, "raw", rel, 1000, []⟩
  let w ← w.addSegment ⟨s.segmentId, trackId, 0, 0, segmentFlagRandomAccess, chunks⟩
  return ⟨w, trackId, s.segmentId + 1, s.files + 1⟩

def packEntry (profile : ChunkProfile) (s : Packer) (x : RelPath × DiskNode) : Outcome PackDirError Packer :=
  let rel := x.1.spelled
  if !pathIsSafe rel then .error (.unsafePath rel)
  else if ignores rel (x.2 = .directory) then .ok s
  else match x.2 with
    | .symlink target => .ok { s with w := s.w.setMeta ("symlink:" ++ rel) (String.ofList (lossy target)) }
    | .directory => .ok { s with w := s.w.setMeta ("dir:" ++ rel) "1" }
    | .file content executable => ofFormat .format (addFile env cdc sha256 profile s rel content executable)

def packEntries (profile : ChunkProfile) : Packer → List (RelPath × DiskNode) → Outcome PackDirError Packer
  | s, [] => return s
  | s, x :: rest => do packEntries profile (← packEntry env cdc sha256 ignores profile s x) rest

/-- Everything up to the writing of the tables. -/
def packTree (opts : PackDirOptions) (uuid : Uuid) (t : DiskTree) : Outcome PackDirError Packer := do
  let profile ← opts.chosen
  let s ← packEntries env cdc sha256 ignores profile (opts.start uuid) t.listing
  if s.files = 0 then .error .noFiles else return s

def packDir (opts : PackDirOptions) (uuid : Uuid) (t : DiskTree) : Outcome PackDirError (Bytes × PackStats) := do
  let s ← packTree env cdc sha256 ignores opts uuid t
  ofFormat .format (s.w.finish env)

end Pack

section Sign
variable (env : ContainerEnv)

/-- The segments of a track, by the time and the number of each. -/
def segmentsForTrack (r : Reader) (trackId : UInt32) : List SegmentRecord :=
  (r.segments.filter fun s => s.trackId = trackId).mergeSort fun a b =>
    decide (a.ptsStart < b.ptsStart ∨ a.ptsStart = b.ptsStart ∧ a.segmentId ≤ b.segmentId)

inductive SignError where
  | containerCorrupt (e : FormatError)
  | noDataTracks

def signChunks (r : Reader) : SignatureBuilder → List UInt32 → FormatResult SignatureBuilder
  | b, [] => return b
  | b, c :: rest => do
      let bytes ← r.readChunk env c
      signChunks r (b.append env.hashChunk bytes) rest

/-- The chunks of a track, segment by segment. -/
def chunksOfTrack (r : Reader) (track : TrackRecord) : List UInt32 :=
  (segmentsForTrack r track.trackId).flatMap SegmentRecord.chunks

def signTracks (r : Reader) : SignatureBuilder → List TrackRecord → FormatResult SignatureBuilder
  | b, [] => return b
  | b, track :: rest => do
      let b ← signChunks env r (b.beginEntry env.hashChunk track.name false none) (chunksOfTrack r track)
      signTracks r b rest

def dataTracks (r : Reader) : List TrackRecord := r.tracks.filter fun t => t.kind = .data

def kindOf (tracks : List TrackRecord) : SignatureKind :=
  if tracks.length = 1 then .singleArtifact else .directoryContainer

def labelOf (tracks : List TrackRecord) : String := (tracks.head?.map TrackRecord.name).getD ""

def signCavs (file : Bytes) (blockSize : UInt32) : Outcome SignError CavsSignature := do
  let r ← ofFormat .containerCorrupt (Reader.openFile env file)
  if dataTracks r = [] then .error .noDataTracks
  else do
    let b ← ofFormat .containerCorrupt
      (signTracks env r (.start (kindOf (dataTracks r)) blockSize "fixed") (dataTracks r))
    return b.finish env.hashChunk (labelOf (dataTracks r))

end Sign

section Pieces
variable {cdc : FastCdc} {size start stop : Nat} {ranges : List (Nat × Nat)} {data : Bytes}

theorem Tiles.mono {more : Nat} (h : Tiles size start ranges stop) (le : size ≤ more) : Tiles more start ranges stop := by
  induction ranges generalizing start with
  | nil => exact h
  | cons range rest ih => exact ⟨h.1, h.2.1, by have := h.2.2.1; omega, ih h.2.2.2⟩

theorem fixedFrom_tiles {len fuel : Nat} (pos : 0 < size) (enough : len ≤ start + fuel) (inside : start ≤ len) :
    Tiles size start (fixedFrom size len fuel start) len := by
  induction fuel generalizing start with
  | zero => exact Nat.le_antisymm inside enough
  | succ fuel ih =>
      rw [fixedFrom]
      split
      case isTrue below => exact ⟨rfl, by dsimp only; omega, by dsimp only; omega, ih (by omega) (by omega)⟩
      case isFalse whole => exact Nat.le_antisymm inside (Nat.le_of_not_lt whole)

/-- No profile cuts chunks that are too long for a container. -/
theorem toMode_le (profile : ChunkProfile) : match profile.toMode with
    | .fixed size => 0 < size ∧ size ≤ maxChunkRaw
    | .cdc _ _ max _ => max ≤ maxChunkRaw := by
  cases profile <;> dsimp only [ChunkProfile.toMode] <;> decide

theorem split_tiles (profile : ChunkProfile) (input : Bytes) :
    Tiles maxChunkRaw 0 (split cdc input profile.toMode) input.length := by
  have small := toMode_le profile
  unfold SignContainer.split
  split
  case isTrue empty =>
    rw [empty]
    rfl
  case isFalse filled =>
    cases mode : profile.toMode with
    | fixed size =>
      rw [mode] at small
      dsimp only
      rw [Nat.max_eq_left small.1]
      exact (fixedFrom_tiles small.1 (Nat.le_add_left _ _) (Nat.zero_le _)).mono small.2
    | cdc min avg max norm =>
      rw [mode] at small
      exact (cdc.covers profile min avg max norm mode input filled).mono small

def cuts (data : Bytes) (ranges : List (Nat × Nat)) : List Bytes :=
  ranges.map fun range => (data.drop range.1).take (range.2 - range.1)

theorem Tiles.le (h : Tiles size start ranges stop) : start ≤ stop := by
  induction ranges generalizing start with
  | nil => exact Nat.le_of_eq h
  | cons range rest ih => exact h.2.1.trans (ih h.2.2.2)

theorem slices_cuts (h : Tiles size start ranges stop) (inside : stop ≤ data.length) :
    slices data ranges = .ok (cuts data ranges) := by
  induction ranges generalizing start with
  | nil => rfl
  | cons range rest ih =>
      obtain ⟨rfl, ordered, -, later⟩ := h
      have within : range.2 ≤ data.length := later.le.trans inside
      rw [slices, slice, if_pos ⟨ordered, within⟩, ih later]
      rfl

theorem cuts_flatten (h : Tiles size start ranges stop) : (cuts data ranges).flatten = (data.drop start).take (stop - start) := by
  induction ranges generalizing start with
  | nil =>
      obtain rfl : start = stop := h
      simp [cuts]
  | cons range rest ih =>
      obtain ⟨rfl, ordered, -, later⟩ := h
      have rest_ := ih later
      have whole : stop - range.1 = (range.2 - range.1) + (stop - range.2) := by
        have := later.le
        omega
      rw [cuts, List.map_cons, List.flatten_cons, ← cuts, rest_, whole, List.take_add, List.drop_drop,
        Nat.add_sub_cancel' ordered]

theorem cuts_small (h : Tiles size start ranges stop) {piece : Bytes} (mem : piece ∈ cuts data ranges) :
    piece.length ≤ size := by
  induction ranges generalizing start with
  | nil => cases mem
  | cons range rest ih =>
      obtain ⟨rfl, -, short, later⟩ := h
      rcases mem_cons.mp mem with rfl | more
      · rw [List.length_take]
        omega
      · exact ih later more

/-- The chunks of a payload. -/
def chunksOf (cdc : FastCdc) (profile : ChunkProfile) (data : Bytes) : List Bytes :=
  cuts data (split cdc data profile.toMode)

theorem chunksOf_flatten (profile : ChunkProfile) : (chunksOf cdc profile data).flatten = data := by
  rw [chunksOf, cuts_flatten (split_tiles profile data), List.drop_zero, Nat.sub_zero, List.take_length]

end Pieces

section Signed
variable {env : ContainerEnv} {r : Reader} {kind : SignatureKind} {blockSize : UInt32} {profile : String}
  {l init : List EntryContent} {e : EntryContent} {b b' : SignatureBuilder} {tracks : List TrackRecord}
  {contents : List Bytes}

theorem signChunks_eq {indices : List UInt32} {bytes : Bytes} (read : r.chunksBytes env indices = .ok bytes) :
    ∃ pieces : List Bytes, pieces.flatten = bytes ∧
      ∀ b, signChunks env r b indices = .ok (pieces.foldl (SignatureBuilder.append env.hashChunk) b) := by
  induction indices generalizing bytes with
  | nil =>
      cases read
      exact ⟨[], rfl, fun _ => rfl⟩
  | cons c rest ih =>
      obtain ⟨raw, first, later⟩ := ok_of_bindO read
      obtain ⟨more, others, same⟩ := ok_of_bindO later
      cases same
      obtain ⟨pieces, rfl, ran⟩ := ih others
      refine ⟨raw :: pieces, rfl, fun b => ?_⟩
      rw [signChunks, first]
      exact ran _

theorem signChunks_reads {indices : List UInt32} (ran : signChunks env r b indices = .ok b') :
    ∃ bytes, r.chunksBytes env indices = .ok bytes := by
  induction indices generalizing b with
  | nil => exact ⟨[], rfl⟩
  | cons c rest ih =>
      obtain ⟨raw, first, later⟩ := ok_of_bindO ran
      obtain ⟨bytes, more⟩ := ih later
      exact ⟨raw ++ bytes, by rw [Reader.chunksBytes, first, more]; rfl⟩

/-- What a container tells of a track: a file that cannot be run. -/
def trackContent (x : TrackRecord × Bytes) : EntryContent := ⟨x.1.name, false, none, .file, x.2⟩

/-- The bytes that the chunks of each track give. -/
def TracksRead (env : ContainerEnv) (r : Reader) (tracks : List TrackRecord) (contents : List Bytes) : Prop :=
  List.Forall₂ (fun t content => r.chunksBytes env (chunksOfTrack r t) = .ok content) tracks contents

theorem signTracks_ok (size : 0 < blockSize.toNat) (h : Signature.Held env.hashChunk kind blockSize profile l b)
    (read : TracksRead env r tracks contents) : ∃ b', signTracks env r b tracks = .ok b' ∧
      Signature.Held env.hashChunk kind blockSize profile (l ++ (tracks.zip contents).map trackContent) b' := by
  induction read generalizing l b with
  | nil => exact ⟨b, rfl, by simpa using h⟩
  | @cons t content tracks contents first _ ih =>
      obtain ⟨pieces, rfl, ran⟩ := signChunks_eq first
      have one := (h.beginEntry size t.name false none).appendAll pieces
      obtain ⟨b', later, held⟩ := ih one
      refine ⟨b', ?_, ?_⟩
      · rw [signTracks, ran]
        exact later
      · rwa [append_assoc] at held

theorem signTracks_reads (ran : signTracks env r b tracks = .ok b') : ∃ contents, TracksRead env r tracks contents := by
  induction tracks generalizing b with
  | nil => exact ⟨[], .nil⟩
  | cons t rest ih =>
      obtain ⟨b₁, first, later⟩ := ok_of_bindO ran
      obtain ⟨content, read⟩ := signChunks_reads first
      obtain ⟨contents, others⟩ := ih later
      exact ⟨content :: contents, .cons read others⟩

end Signed

section Spec
variable (env : ContainerEnv) (cdc : FastCdc) (sha256 : Bytes → ChunkHash) (ignores : String → Bool → Bool)

def upToLabel (s : CavsSignature) : CavsSignature := { s with sourceLabel := "" }

/-- The container is signed as the directory is, whatever the label. -/
def Alike (file : Bytes) (blockSize : UInt32) (t : DiskTree) : Prop :=
  ∃ sig, signCavs env file blockSize = .ok sig ∧
    ∀ label, upToLabel sig = upToLabel (signDir env.hashChunk t blockSize label)

/-- Two files or more, none of which can be run, and nothing else. -/
structure Plain (t : DiskTree) : Prop where
  some : 2 ≤ t.listing.length
  files : ∀ x ∈ t.listing, ∃ content, x.2 = .file content false

/-- Nothing of the tree is ignored. -/
def Whole (t : DiskTree) : Prop := ∀ x ∈ t.listing, ignores x.1.spelled (x.2 = .directory) = false

/-- No two chunks of the tree have one hash. -/
def Distinct (opts : PackDirOptions) (t : DiskTree) : Prop :=
  ∀ profile, opts.chosen = .ok profile →
    ∀ a ∈ t.listing.flatMap fun x => chunksOf cdc profile x.2.content,
      ∀ b ∈ t.listing.flatMap fun x => chunksOf cdc profile x.2.content, env.hashChunk a = env.hashChunk b → a = b

/-- Every table of the container has fewer than `2 ^ 32` rows. -/
def CountsFit (opts : PackDirOptions) (uuid : Uuid) (t : DiskTree) : Prop :=
  ∀ s, packTree env cdc sha256 ignores opts uuid t = .ok s → s.w.CountsFit env

end Spec

section Told
variable {env : ContainerEnv} {r : Reader} {file : Bytes} {blockSize : UInt32} {t : DiskTree} {contents : List Bytes}

theorem ofFormat_ok {ε α : Type} {told : FormatError → ε} {m : FormatResult α} {a : α}
    (h : ofFormat told m = .ok a) : m = .ok a := by
  cases m <;> cases h
  rfl

theorem signCavs_of (opened : Reader.openFile env file = .ok r) (some : dataTracks r ≠ [])
    (read : TracksRead env r (dataTracks r) contents) : signCavs env file blockSize =
      .ok (Signature.signatureOf env.hashChunk (kindOf (dataTracks r)) (clamped blockSize) "fixed"
        (labelOf (dataTracks r)) (((dataTracks r).zip contents).map trackContent)) := by
  have size : 0 < (clamped blockSize).toNat := Nat.lt_of_lt_of_le (by decide) (clamped_bounds blockSize).1
  obtain ⟨b, ran, held⟩ := signTracks_ok size (Signature.held_start (kindOf (dataTracks r)) blockSize "fixed") read
  rw [signCavs, opened, ofFormat, ok_bind, if_neg some, ran, ofFormat, ok_bind, held.finish]
  rfl

theorem signCavs_reads {sig : CavsSignature} (ran : signCavs env file blockSize = .ok sig) : ∃ r contents,
    Reader.openFile env file = .ok r ∧ dataTracks r ≠ [] ∧ TracksRead env r (dataTracks r) contents := by
  rw [signCavs] at ran
  obtain ⟨r, opened, ran⟩ := ok_of_bindO ran
  split at ran
  case isTrue => cases ran
  case isFalse some =>
    obtain ⟨b, signed, -⟩ := ok_of_bindO ran
    obtain ⟨contents, read⟩ := signTracks_reads (ofFormat_ok signed)
    exact ⟨r, contents, ofFormat_ok opened, some, read⟩

theorem entries_told (l : List EntryContent) : (l.zipIdx.map fun x => x.1.entry x.2).map
    (fun e => (e.kind, e.executable)) = l.map fun e => (e.kind, e.executable) := by
  rw [map_map]
  conv_rhs => rw [← List.zipIdx_map_fst 0 l, map_map]
  rfl

/-- Whatever container is signed as a tree, the tree is plain. -/
theorem alike_plain (alike : Alike env file blockSize t) : Plain t := by
  obtain ⟨sig, ran, same⟩ := alike
  obtain ⟨r, contents, opened, some, read⟩ := signCavs_reads ran
  rw [signCavs_of opened some read] at ran
  obtain rfl := Outcome.ok.inj ran
  have whole := same ""
  rw [signDir_eq] at whole
  have kind : kindOf (dataTracks r) = .directoryContainer := congrArg CavsSignature.kind whole
  have entries := congrArg CavsSignature.entries whole
  have told := congrArg (List.map fun e : SignatureEntry => (e.kind, e.executable)) entries
  dsimp only [upToLabel, Signature.signatureOf] at told
  rw [entries_told, entries_told, map_map] at told
  have lengths := congrArg List.length told
  rw [length_map, List.length_zip, ← read.length_eq, Nat.min_self, length_map, length_map] at lengths
  constructor
  · have several : (dataTracks r).length ≠ 1 := by
      intro one
      rw [kindOf, if_pos one] at kind
      cases kind
    have filled := List.length_pos_iff.mpr some
    omega
  · intro x mem
    have listed : ((contentOf x).kind, (contentOf x).executable) ∈
        (t.listing.map contentOf).map fun e => (e.kind, e.executable) :=
      List.mem_map_of_mem (List.mem_map_of_mem mem)
    rw [← told] at listed
    obtain ⟨track, -, plain⟩ := mem_map.mp listed
    obtain ⟨rel, node⟩ := x
    cases node with
    | file content executable =>
      obtain rfl : false = executable := (Prod.mk.inj plain).2
      exact ⟨content, rfl⟩
    | symlink target => cases plain
    | directory => cases plain

end Told

section Packed
variable {env : ContainerEnv} {cdc : FastCdc} {sha256 : Bytes → ChunkHash} {profile : ChunkProfile}
  {w w' w'' : ContainerWriter} {calls more : List WriterCall} {log later : ChunkLog} {xs : List (String × Bytes)}
  {s s' : Packer} {rel : String} {content : Bytes}

theorem run_trans (ran : w.run env calls = .ok (w', log)) (next : w'.run env more = .ok (w'', later)) :
    w.run env (calls ++ more) = .ok (w'', log ++ later) := by
  induction calls generalizing w log with
  | nil =>
      cases ran
      exact next
  | cons call rest ih =>
      obtain ⟨⟨w₁, first⟩, stepped, ran⟩ := ok_of_bindO ran
      obtain ⟨⟨w₂, last⟩, others, ran⟩ := ok_of_bindO ran
      cases ran
      rw [List.cons_append, ContainerWriter.run, stepped, ok_bind]
      dsimp only
      rw [ih others, append_assoc]
      rfl

def trackFor (x : (String × Bytes) × Nat) : TrackRecord :=
  ⟨UInt32.ofNat (x.2 + 1), .data, 0, "raw", x.1.1, 1000, []⟩

/-- The segment of a file leads to its chunks. -/
def SegmentFor (cdc : FastCdc) (profile : ChunkProfile) (log : ChunkLog) (x : (String × Bytes) × Nat)
    (segment : SegmentRecord) : Prop :=
  segment.trackId = UInt32.ofNat (x.2 + 1) ∧ Payloads log segment.chunks (chunksOf cdc profile x.1.2)

theorem SegmentFor.mono {x : (String × Bytes) × Nat} {segment : SegmentRecord}
    (h : SegmentFor cdc profile log x segment) (sub : ∀ p ∈ log, p ∈ later) : SegmentFor cdc profile later x segment :=
  ⟨h.1, h.2.imp fun _ _ => sub _⟩

/-- The calls by which a writer got the files of `xs`. -/
structure Written (env : ContainerEnv) (cdc : FastCdc) (profile : ChunkProfile) (w : ContainerWriter)
    (xs : List (String × Bytes)) (s : Packer) (calls : List WriterCall) (log : ChunkLog) : Prop where
  ran : w.run env calls = .ok (s.w, log)
  tracks : tracksOf calls = xs.zipIdx.map trackFor
  segments : List.Forall₂ (SegmentFor cdc profile log) xs.zipIdx (segmentsOf calls)
  trackId : s.trackId = UInt32.ofNat xs.length
  logged : ∀ p ∈ log, ∃ x ∈ xs, p.2 ∈ chunksOf cdc profile x.2
  metas : ∀ m ∈ metaOf calls, (strBytes m.2).length < 2 ^ 32 ∧ isSignatureKey m.1 = false

theorem strBytes_append (a b : String) : strBytes (a ++ b) = strBytes a ++ strBytes b := by
  simp [strBytes]

theorem label_short (profile : ChunkProfile) : (strBytes profile.label).length < 2 ^ 32 := by
  cases profile <;> decide

def fileCalls (cdc : FastCdc) (sha256 : Bytes → ChunkHash) (profile : ChunkProfile) (s : Packer) (rel : String)
    (content : Bytes) (chunks : List UInt32) : List WriterCall :=
  [.setMeta ("sha256:" ++ rel) (toHex (sha256 content)), .setMeta ("profile:" ++ rel) profile.label,
    .addChunksParallel content (split cdc content profile.toMode),
    .addTrack ⟨s.trackId + 1, .data, 0, "raw", rel, 1000, []⟩,
    .addSegment ⟨s.segmentId, s.trackId + 1, 0, 0, segmentFlagRandomAccess, chunks⟩]

theorem addFile_run (ran : addFile env cdc sha256 profile s rel content false = .ok s') : ∃ chunks,
    chunks.length = (chunksOf cdc profile content).length ∧ s'.trackId = s.trackId + 1 ∧
      s.w.run env (fileCalls cdc sha256 profile s rel content chunks) =
        .ok (s'.w, chunks.zip (chunksOf cdc profile content)) := by
  obtain ⟨⟨chunks, w₁⟩, added, ran⟩ := ok_of_bindO ran
  obtain ⟨w₂, tracked, ran⟩ := ok_of_bindO ran
  obtain ⟨w₃, segmented, ran⟩ := ok_of_bindO ran
  cases ran
  have sliced : slices content (split cdc content profile.toMode) = .ok (chunksOf cdc profile content) :=
    slices_cuts (split_tiles profile content) le_rfl
  refine ⟨chunks, addChunksParallel_length sliced added, rfl, ?_⟩
  have metas : setMetas s.w (Install.fileMeta sha256 profile.label rel content false) =
      (s.w.setMeta ("sha256:" ++ rel) (toHex (sha256 content))).setMeta ("profile:" ++ rel) profile.label := rfl
  rw [metas, addChunked] at added
  simp only [fileCalls, ContainerWriter.run, ContainerWriter.step, ok_bind, Outcome.pure_eq, sliced, added, tracked,
    segmented, nil_append, List.append_nil]

theorem payloads_zip {indices : List UInt32} {raws : List Bytes} (lengths : indices.length = raws.length) :
    Payloads (indices.zip raws) indices raws := by
  rw [Payloads, List.forall₂_iff_zip]
  exact ⟨lengths, fun mem => mem⟩

theorem Written.file (h : Written env cdc profile w xs s calls log)
    (ran : addFile env cdc sha256 profile s rel content false = .ok s') :
    ∃ more later, Written env cdc profile w (xs ++ [(rel, content)]) s' (calls ++ more) (log ++ later) := by
  obtain ⟨chunks, lengths, next, run⟩ := addFile_run ran
  have id : s.trackId + 1 = UInt32.ofNat (xs.length + 1) := by
    rw [h.trackId, UInt32.ofNat_add]
    rfl
  have numbered : (xs ++ [(rel, content)]).zipIdx = xs.zipIdx ++ [((rel, content), xs.length)] := by
    rw [List.zipIdx_append, Nat.zero_add]
    rfl
  refine ⟨_, _, run_trans h.ran run, ?_, ?_, ?_, ?_, ?_⟩
  · rw [tracksOf, List.filterMap_append, numbered, List.map_append, ← h.tracks]
    simp only [fileCalls, id]
    rfl
  · rw [segmentsOf, List.filterMap_append, numbered]
    refine List.rel_append (h.segments.imp fun _ _ told => told.mono fun p => List.mem_append_left _) (.cons ⟨id, ?_⟩ .nil)
    exact (payloads_zip lengths).imp fun _ _ mem => List.mem_append_right _ mem
  · rw [next, id, List.length_append]
    rfl
  · intro p mem
    rcases List.mem_append.mp mem with old | new
    · obtain ⟨x, there, piece⟩ := h.logged p old
      exact ⟨x, List.mem_append_left _ there, piece⟩
    · exact ⟨_, List.mem_append_right _ (.head _), (List.of_mem_zip new).2⟩
  · intro m mem
    rw [metaOf, List.filterMap_append] at mem
    rcases List.mem_append.mp mem with old | new
    · exact h.metas m old
    · rcases mem_cons.mp new with rfl | new
      · dsimp only
        rw [isSignatureKey, strBytes_append]
        refine ⟨?_, rfl⟩
        have long := (strBytes_hexString (sha256 content).1).1
        rw [(sha256 content).2] at long
        change (strBytes (hexString _)).length < _
        rw [long]
        decide
      · rw [mem_singleton.mp new]
        dsimp only
        rw [isSignatureKey, strBytes_append]
        exact ⟨label_short profile, rfl⟩

theorem written_start (opts : PackDirOptions) (uuid : Uuid) : ∃ calls,
    Written env cdc profile (create uuid 1000 opts.compress) [] (opts.start uuid) calls [] := by
  refine ⟨(.setZstdLevel opts.zstdLevel :: opts.signKey.toList.map .signWith) ++
    [.setMeta "packer" "cavs-cli 1.8.0", .setMeta "payload" "directory"], ?_⟩
  cases key : opts.signKey <;>
    exact ⟨by rw [PackDirOptions.start, key]; rfl, rfl, .nil, rfl, nofun, by
      intro m mem
      rcases mem_cons.mp mem with rfl | mem
      · decide
      · rw [mem_singleton.mp mem]
        decide⟩

def filePair (x : RelPath × DiskNode) : String × Bytes := (x.1.spelled, x.2.content)

variable {ignores : String → Bool → Bool} {l : List (RelPath × DiskNode)}

theorem Written.entries (h : Written env cdc profile w xs s calls log)
    (ran : packEntries env cdc sha256 ignores profile s l = .ok s')
    (whole : ∀ x ∈ l, ignores x.1.spelled (x.2 = .directory) = false)
    (files : ∀ x ∈ l, ∃ content, x.2 = .file content false) :
    ∃ calls log, Written env cdc profile w (xs ++ l.map filePair) s' calls log := by
  induction l generalizing xs s calls log with
  | nil =>
      cases ran
      exact ⟨calls, log, by simpa using h⟩
  | cons x rest ih =>
      obtain ⟨s₁, first, later⟩ := ok_of_bindO ran
      obtain ⟨content, file⟩ := files x (.head _)
      have kept := whole x (.head _)
      obtain ⟨rel, node⟩ := x
      obtain rfl : node = .file content false := file
      rw [packEntry] at first
      split at first
      case isTrue => cases first
      case isFalse =>
        rw [if_neg (by rw [kept]; exact Bool.false_ne_true)] at first
        obtain ⟨more, log', written⟩ := h.file (ofFormat_ok first)
        have all := ih written later (fun y mem => whole y (.tail _ mem)) fun y mem => files y (.tail _ mem)
        rwa [append_assoc] at all

end Packed

section Read
variable {env : ContainerEnv} {cdc : FastCdc} {profile : ChunkProfile} {log : ChunkLog} {xs : List (String × Bytes)}
  {segments : List SegmentRecord} {r : Reader} {calls : List WriterCall}

/-- The numbers of the tracks tell the segments apart. -/
theorem segments_apart {k : Nat} (each : List.Forall₂ (SegmentFor cdc profile log) (xs.zipIdx k) segments)
    (few : k + xs.length < 2 ^ 32) : ∀ x ∈ xs.zipIdx k, ∃ segment, SegmentFor cdc profile log x segment ∧
      segments.filter (fun s => s.trackId = UInt32.ofNat (x.2 + 1)) = [segment] := by
  induction xs generalizing k segments with
  | nil => exact nofun
  | cons y xs ih =>
      rw [List.zipIdx_cons] at each ⊢
      cases each with | @cons _ segment _ others own each =>
      rw [List.length_cons] at few
      have later : ∀ x ∈ xs.zipIdx (k + 1), x.2 < 2 ^ 32 - 1 ∧ k < x.2 := by
        intro x mem
        have bounds := List.mem_zipIdx mem
        omega
      intro x mem
      rcases mem_cons.mp mem with rfl | mem
      · refine ⟨segment, own, ?_⟩
        rw [List.filter_cons, if_pos (decide_eq_true own.1), List.filter_eq_nil_iff.mpr]
        intro other there same
        obtain ⟨i, bound, rfl⟩ := List.mem_iff_getElem.mp there
        have inside : i < (xs.zipIdx (k + 1)).length := each.length_eq ▸ bound
        have told := (each.get inside bound).1
        have bounds := later _ (List.get_mem _ ⟨i, inside⟩)
        generalize (xs.zipIdx (k + 1)).get ⟨i, inside⟩ = x at told bounds
        have equal := ofNat_inj32 (by omega) (by omega) (told.symm.trans (of_decide_eq_true same))
        omega
      · obtain ⟨other, told, only⟩ := ih each (by omega) x mem
        refine ⟨other, told, ?_⟩
        rw [List.filter_cons, if_neg, only]
        rw [own.1]
        intro same
        have bounds := later x mem
        have equal := ofNat_inj32 (by omega) (by omega) (of_decide_eq_true same)
        omega

theorem payloads_unique {indices : List UInt32} {a b : List Bytes}
    (exact_ : ∀ index p q, (index, p) ∈ log → (index, q) ∈ log → p = q) (ha : Payloads log indices a)
    (hb : Payloads log indices b) : a = b := by
  rw [Payloads] at ha hb
  induction ha generalizing b with
  | nil => exact (List.forall₂_nil_left_iff.mp hb).symm
  | cons first _ ih =>
      obtain ⟨q, rest, other, more, rfl⟩ := List.forall₂_cons_left_iff.mp hb
      rw [exact_ _ _ _ first other, ih more]

/-- Each track of the container gives the bytes of its file. -/
theorem tracksRead {w₀ : ContainerWriter} {s : Packer} (written : Written env cdc profile w₀ xs s calls log)
    (trip : RoundTrip env calls log r) (few : xs.length < 2 ^ 32) :
    dataTracks r = xs.zipIdx.map trackFor ∧
      TracksRead env r (dataTracks r) (xs.zipIdx.map fun x => x.1.2) := by
  have tracks : dataTracks r = xs.zipIdx.map trackFor := by
    rw [dataTracks, trip.tracks, written.tracks, List.filter_eq_self]
    intro track mem
    obtain ⟨x, -, rfl⟩ := mem_map.mp mem
    rfl
  refine ⟨tracks, ?_⟩
  rw [tracks, TracksRead, List.forall₂_map_left_iff, List.forall₂_map_right_iff, List.forall₂_same]
  intro x mem
  obtain ⟨segment, told, only⟩ := segments_apart written.segments (by omega) x mem
  have chunks : chunksOfTrack r (trackFor x) = segment.chunks := by
    rw [chunksOfTrack, segmentsForTrack, trip.segments, trackFor, only, List.mergeSort_singleton, List.flatMap_singleton]
  have listed : segment ∈ segmentsOf calls := by
    have inside : segment ∈ [segment] := .head _
    rw [← only] at inside
    exact (List.mem_filter.mp inside).1
  obtain ⟨payloads, logged, read⟩ := trip.segmentBytes segment listed
  rw [payloads_unique trip.exact logged told.2, chunksOf_flatten] at read
  rw [chunks]
  exact read

end Read

section Settled
variable {env : ContainerEnv} {cdc : FastCdc} {sha256 : Bytes → ChunkHash} {ignores : String → Bool → Bool}
  {opts : PackDirOptions} {uuid : Uuid} {t : DiskTree} {file : Bytes} {stats : PackStats}

theorem plain_alike (packed : packDir env cdc sha256 ignores opts uuid t = .ok (file, stats)) (whole : Whole ignores t)
    (distinct : Distinct env cdc opts t) (plain : Plain t) (counts : CountsFit env cdc sha256 ignores opts uuid t)
    (blockSize : UInt32) : Alike env file blockSize t := by
  obtain ⟨s, packedTree, finished⟩ := ok_of_bindO packed
  have fits := counts s packedTree
  obtain ⟨profile, chosen, ran⟩ := ok_of_bindO packedTree
  obtain ⟨s', entries, ran⟩ := ok_of_bindO ran
  split at ran
  case isTrue => cases ran
  case isFalse =>
    cases ran
    obtain ⟨calls₀, start⟩ := @written_start env cdc profile opts uuid
    obtain ⟨calls, log, written⟩ := start.entries entries whole plain.files
    rw [nil_append] at written
    have pieces : ∀ p ∈ log, p.2 ∈ t.listing.flatMap fun x => chunksOf cdc profile x.2.content := by
      intro p mem
      obtain ⟨x, listed, piece⟩ := written.logged p mem
      obtain ⟨y, there, rfl⟩ := mem_map.mp listed
      exact List.mem_flatMap.mpr ⟨y, there, piece⟩
    have small : ∀ p ∈ log, p.2.length ≤ maxChunkRaw := by
      intro p mem
      obtain ⟨x, -, piece⟩ := written.logged p mem
      exact cuts_small (split_tiles profile x.2) piece
    obtain ⟨inv, grown⟩ := run_inv (create_inv uuid 1000 opts.compress) written.ran small
    rw [nil_append] at inv
    have clear : ∀ p ∈ log, ∀ q ∈ log, env.hashChunk p.2 = env.hashChunk q.2 → p.2 = q.2 :=
      fun p mem q mem' => distinct profile chosen p.2 (pieces p mem) q.2 (pieces q mem')
    obtain ⟨r, opened, trip⟩ := roundTrip_of_countsFit inv grown (ofFormat_ok finished) clear
      (fun m mem => (written.metas m mem).1) (fun m mem => (written.metas m mem).2) fits
    have few : (t.listing.map filePair).length < 2 ^ 32 := by
      have tracks := fits.tracks.1
      rwa [grown.tracks, show (create uuid 1000 opts.compress).tracks = [] from rfl, nil_append,
        written.tracks, length_map, List.length_zipIdx] at tracks
    obtain ⟨tracks, read⟩ := tracksRead written trip few
    have number : (dataTracks r).length = t.listing.length := by
      rw [tracks, length_map, List.length_zipIdx, length_map]
    have several := plain.some
    have some : dataTracks r ≠ [] := by
      intro none
      rw [none, List.length_nil] at number
      omega
    refine ⟨_, signCavs_of opened some read, fun label => ?_⟩
    have told : ((dataTracks r).zip ((t.listing.map filePair).zipIdx.map fun x => x.1.2)).map trackContent =
        t.listing.map contentOf := by
      rw [tracks, List.zip_map', map_map]
      have first : (trackContent ∘ fun x => (trackFor x, x.1.2)) =
          (fun x : String × Bytes => ⟨x.1, false, none, .file, x.2⟩) ∘ Prod.fst := rfl
      rw [first, ← map_map, List.zipIdx_map_fst, map_map]
      refine List.map_congr_left fun x mem => ?_
      obtain ⟨content, file⟩ := plain.files x mem
      obtain ⟨rel, node⟩ := x
      obtain rfl : node = .file content false := file
      rfl
    rw [signDir_eq, told, kindOf, if_neg (by omega)]
    rfl

/-- A container that is signed as its directory is holds two plain files or more, and nothing else. Where
its tables are not too long, each such container is signed so. -/
theorem sign_cavs_alike (env : ContainerEnv) (cdc : FastCdc) (sha256 : Bytes → ChunkHash)
    (ignores : String → Bool → Bool) (opts : PackDirOptions) (uuid : Uuid) (t : DiskTree) (file : Bytes) (stats : PackStats)
    (blockSize : UInt32) (packed : packDir env cdc sha256 ignores opts uuid t = .ok (file, stats))
    (whole : Whole ignores t) (distinct : Distinct env cdc opts t) :
    (Alike env file blockSize t → Plain t) ∧
      (Plain t → CountsFit env cdc sha256 ignores opts uuid t → Alike env file blockSize t) :=
  ⟨alike_plain, fun plain counts => plain_alike packed whole distinct plain counts blockSize⟩

end Settled

/-! A tree of two files, and a tree of one. -/
section Sample

theorem Tiles.lengths {size start stop : Nat} {ranges : List (Nat × Nat)} (h : Tiles size start ranges stop) :
    Tiles size start ((ranges.map fun r => (r.1, r.2 - r.1)).map fun c => (c.1, c.1 + c.2)) stop := by
  induction ranges generalizing start with
  | nil => exact h
  | cons range rest ih =>
      obtain ⟨rfl, ordered, short, later⟩ := h
      have stop_ : range.1 + (range.2 - range.1) = range.2 := Nat.add_sub_cancel' ordered
      refine ⟨rfl, ?_, ?_, ?_⟩ <;> dsimp only <;> rw [stop_]
      · exact ordered
      · exact short
      · exact ih later

/-- A chunker that finds no boundary before the largest size. -/
def lumps : FastCdc where
  chunks input _ _ max _ := (fixedFrom max input.length input.length 0).map fun r => (r.1, r.2 - r.1)
  covers profile min avg max norm mode input _ := by
    have pos : 0 < max := by
      cases profile <;> cases mode <;> decide
    exact (fixedFrom_tiles pos (Nat.le_add_left _ _) (Nat.zero_le _)).lengths

def nothing (_ : String) (_ : Bool) : Bool := false

def byDefault : PackDirOptions := ⟨none, true, 3, none⟩

def pairTree : DiskTree := ⟨.file (strBytes "a") [1] false (.file (strBytes "b") [2] false .done), by decide⟩

def loneTree : DiskTree := ⟨.file (strBytes "a") [1] false .done, by decide⟩

theorem pairTree_listing : pairTree.listing = [([strBytes "a"], .file [1] false), ([strBytes "b"], .file [2] false)] := by
  decide

theorem loneTree_listing : loneTree.listing = [([strBytes "a"], .file [1] false)] := by decide

/-- What a tree was packed to is written if its texts and its tables are short. -/
theorem packDir_of {t : DiskTree} (small : ∃ s, packTree plainEnv lumps numberHash nothing byDefault zeroUuid t = .ok s ∧
    s.w.CountsFit plainEnv ∧ (∀ text ∈ s.w.texts plainEnv, (strBytes text).length ≤ 2 ^ 16 - 1) ∧
      containerSize plainEnv s.w.data (s.w.tables plainEnv) < 2 ^ 63) :
    ∃ file stats, packDir plainEnv lumps numberHash nothing byDefault zeroUuid t = .ok (file, stats) ∧
      CountsFit plainEnv lumps numberHash nothing byDefault zeroUuid t := by
  obtain ⟨s, ran, counts, texts, near⟩ := small
  obtain ⟨file, stats, finished⟩ := finish_isOk texts near
  refine ⟨file, stats, ?_, ?_⟩
  · rw [packDir, ran, ok_bind, finished]
    rfl
  · intro s' ran'
    obtain rfl := Outcome.ok.inj (ran.symm.trans ran')
    exact counts

set_option maxRecDepth 20000 in
theorem pairTree_packed : ∃ s, packTree plainEnv lumps numberHash nothing byDefault zeroUuid pairTree = .ok s ∧
    s.w.CountsFit plainEnv ∧ (∀ text ∈ s.w.texts plainEnv, (strBytes text).length ≤ 2 ^ 16 - 1) ∧
      containerSize plainEnv s.w.data (s.w.tables plainEnv) < 2 ^ 63 := by
  refine ⟨_, rfl, ⟨?_, ?_, ?_, ?_⟩, ?_, ?_⟩ <;> decide

set_option maxRecDepth 20000 in
theorem loneTree_packed : ∃ s, packTree plainEnv lumps numberHash nothing byDefault zeroUuid loneTree = .ok s ∧
    s.w.CountsFit plainEnv ∧ (∀ text ∈ s.w.texts plainEnv, (strBytes text).length ≤ 2 ^ 16 - 1) ∧
      containerSize plainEnv s.w.data (s.w.tables plainEnv) < 2 ^ 63 := by
  refine ⟨_, rfl, ⟨?_, ?_, ?_, ?_⟩, ?_, ?_⟩ <;> decide

theorem distinct_of {t : DiskTree} {chunks : List Bytes}
    (same : (t.listing.flatMap fun x => chunksOf lumps .fastCdc64K x.2.content) = chunks)
    (apart : ∀ a ∈ chunks, ∀ b ∈ chunks, numberHash a = numberHash b → a = b) : Distinct plainEnv lumps byDefault t := by
  intro profile chosen
  obtain rfl : ChunkProfile.fastCdc64K = profile := Outcome.ok.inj chosen
  rw [same]
  exact apart

theorem sign_cavs_alike_pair : ∃ file stats,
    packDir plainEnv lumps numberHash nothing byDefault zeroUuid pairTree = .ok (file, stats) ∧
      Alike plainEnv file 65536 pairTree := by
  obtain ⟨file, stats, packed, counts⟩ := packDir_of pairTree_packed
  have distinct : Distinct plainEnv lumps byDefault pairTree := by
    apply @distinct_of _ [[1], [2]]
    · rw [pairTree_listing]
      rfl
    · decide
  have plain : Plain pairTree := by
    refine ⟨by rw [pairTree_listing]; decide, ?_⟩
    rw [pairTree_listing]
    intro x mem
    rcases mem_cons.mp mem with rfl | mem
    · exact ⟨_, rfl⟩
    · exact ⟨_, by rw [mem_singleton.mp mem]⟩
  exact ⟨file, stats, packed,
    (sign_cavs_alike _ _ _ _ _ _ _ _ _ 65536 packed (fun _ _ => rfl) distinct).2 plain counts⟩

/-- The container of one file is signed as the file. -/
theorem not_sign_cavs_alike : ¬ ∀ (env : ContainerEnv) (cdc : FastCdc) (sha256 : Bytes → ChunkHash)
    (ignores : String → Bool → Bool) (opts : PackDirOptions) (uuid : Uuid) (t : DiskTree) (file : Bytes) (stats : PackStats)
    (blockSize : UInt32), packDir env cdc sha256 ignores opts uuid t = .ok (file, stats) → Whole ignores t →
      Distinct env cdc opts t → Alike env file blockSize t := by
  intro alike
  obtain ⟨file, stats, packed, -⟩ := packDir_of loneTree_packed
  have distinct : Distinct plainEnv lumps byDefault loneTree := by
    apply @distinct_of _ [[1]]
    · rw [loneTree_listing]
      rfl
    · decide
  have plain := alike_plain (alike _ _ _ _ _ _ _ _ _ 65536 packed (fun _ _ => rfl) distinct)
  have several := plain.some
  rw [loneTree_listing] at several
  exact absurd several (by decide)

end Sample

end Cavs.SignContainer
