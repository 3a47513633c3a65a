import Cavs.ContainerWriter

/-!
# What is written is read back

Each table codec is undone by its decoder, and a container is opened to the tables and the
data it was put together from.
-/
namespace Cavs
open FileProg (Bytes)
open ByteScan
open Outcome (ok_bind ok_of_bindO)
open List (flatMap_cons length_append length_cons map_id)

section Rows
variable {p : Nat} {what : String}

theorem wireNum_scans {w n : Nat} (small : n < 256 ^ w) : Scans (wireNum what w) () p (le w n) n () :=
  Scans.num small

theorem wireU8_scans (x : UInt8) : Scans (wireU8 what) () p (le 1 x.toNat) x () := by
  refine (wireNum_scans x.toNat_lt).bind_pure ?_
  rw [UInt8.ofNat_toNat]
  exact .pure x

theorem wireU32_scans (x : UInt32) : Scans (wireU32 what) () p (le 4 x.toNat) x () := by
  refine (wireNum_scans x.toNat_lt).bind_pure ?_
  rw [UInt32.ofNat_toNat]
  exact .pure x

theorem wireU64_scans (x : UInt64) : Scans (wireU64 what) () p (le 8 x.toNat) x () := by
  refine (wireNum_scans x.toNat_lt).bind_pure ?_
  rw [UInt64.ofNat_toNat]
  exact .pure x

theorem wireHash_scans (h : ChunkHash) : Scans (wireHash what) () p h.1 h () :=
  (Scans.take h.2).bind_pure (Scans.ofOption (hashOf_val h))

theorem wireText_scans {w : Nat} {s : String} (small : (strBytes s).length < 256 ^ w) :
    Scans (wireText what w) () p (encodeText w s) s () :=
  (wireNum_scans small).bind ((Scans.take rfl).bind_pure (Scans.ofOption (utf8_strBytes s)))

variable (what) in
theorem wireTable_scans {α : Type} {row : ContainerScan α} {enc : α → Bytes} {l : List α}
    (few : l.length < 2 ^ 32) (item : ∀ x ∈ l, ∀ p, Scans row () p (enc x) x ()) :
    Scans (wireTable what row) () p (encodeTable enc l) l () := by
  refine (wireNum_scans few).bind ?_
  have rows := Scans.collect enc id l (s := ()) item (p + (le 4 l.length).length)
  rw [map_id] at rows
  exact rows

variable (what) in
theorem indices_scans {l : List UInt32} (few : l.length < 2 ^ 32) :
    Scans (wireTable what (wireU32 what)) () p (encodeTable encodeChunkIndex l) l () :=
  wireTable_scans what few fun x _ _ => wireU32_scans x

def TrackRecord.Fits (t : TrackRecord) : Prop :=
  (strBytes t.codec).length < 2 ^ 16 ∧ (strBytes t.name).length < 2 ^ 16 ∧ t.initChunks.length < 2 ^ 32

def metaFits (m : String × String) : Prop := (strBytes m.1).length < 2 ^ 16 ∧ (strBytes m.2).length < 2 ^ 32

def Integrity.Fits (i : Integrity) : Prop :=
  i.chunkCount < 2 ^ 64 ∧ i.totalRaw < 2 ^ 64 ∧ i.totalStored < 2 ^ 64

theorem readTrack_scans {t : TrackRecord} (fits : t.Fits) : Scans readTrack () p (encodeTrack t) t () := by
  have kind : TrackKind.fromU8 t.kind.toU8.toNat = some t.kind := by cases t.kind <;> rfl
  refine (wireU32_scans t.trackId).bind ?_
  refine (wireNum_scans t.kind.toU8.toNat_lt).bind (.pure_bind (.ofOption kind) ?_)
  refine (wireU8_scans t.flags).bind ?_
  refine (wireText_scans fits.1).bind ((wireText_scans fits.2.1).bind ?_)
  exact (wireU32_scans t.timescale).bind ((indices_scans _ fits.2.2).bind_pure (.pure t))

theorem readChunkRow_scans {c : ChunkRecord} (fits : c.dataOffset < 2 ^ 64) :
    Scans readChunkRow () p (encodeChunkRow c) c () := by
  refine (wireHash_scans c.hash).bind ((wireNum_scans fits).bind ?_)
  exact (wireU32_scans c.lenRaw).bind ((wireU32_scans c.lenStored).bind ((wireU32_scans c.flags).bind_pure (.pure c)))

theorem readSegment_scans {s : SegmentRecord} (fits : s.chunks.length < 2 ^ 32) :
    Scans readSegment () p (encodeSegment s) s () := by
  refine (wireU64_scans s.segmentId).bind ((wireU32_scans s.trackId).bind ?_)
  refine (wireU64_scans s.ptsStart).bind ((wireU32_scans s.duration).bind ?_)
  exact (wireU32_scans s.flags).bind ((indices_scans _ fits).bind_pure (.pure s))

theorem readMetaPair_scans {m : String × String} (fits : metaFits m) :
    Scans readMetaPair () p (encodeMetaPair m) m () :=
  (wireText_scans fits.1).bind ((wireText_scans fits.2).bind_pure (.pure m))

theorem readIntegrity_scans {i : Integrity} (fits : i.Fits) : Scans readIntegrity () p (encodeIntegrity i) i () := by
  refine (wireHash_scans i.merkleRoot).bind ((wireNum_scans fits.1).bind ?_)
  exact (wireNum_scans fits.2.1).bind ((wireNum_scans fits.2.2).bind_pure (.pure i))

def SectionEntry.Fits (e : SectionEntry) : Prop := e.offset < 2 ^ 64 ∧ e.length < 2 ^ 64

theorem readSectionEntry_scans {e : SectionEntry} (fits : e.Fits) :
    Scans readSectionEntry () p (encodeSectionEntry e) e () := by
  have ty : SectionType.fromU32 e.sectionType.toNat = some e.sectionType := by cases e.sectionType <;> rfl
  have small : e.sectionType.toNat < 256 ^ 4 := by cases e.sectionType <;> decide
  refine (wireNum_scans small).bind (.pure_bind (.ofOption ty) ?_)
  refine (wireNum_scans fits.1).bind ((wireNum_scans fits.2).bind ?_)
  exact (wireHash_scans e.hash).bind_pure (.pure e)

def Superblock.Fits (sb : Superblock) : Prop :=
  sb.versionMajor < 2 ^ 16 ∧ sb.versionMinor < 2 ^ 16 ∧ sb.hashAlgo < 2 ^ 8 ∧ sb.compressionAlgo < 2 ^ 8 ∧
    sb.assetUuid.length = 16 ∧ sb.sectionCount < 2 ^ 32 ∧ sb.sectionDirOffset < 2 ^ 64 ∧ sb.fileSize < 2 ^ 64

theorem readSuperblock_scans {sb : Superblock} (fits : sb.Fits) :
    Scans readSuperblock () p (encodeSuperblock sb) sb () := by
  obtain ⟨major, minor, algo, compression, uuid, count, offset, size⟩ := fits
  refine (wireNum_scans major).bind ((wireNum_scans minor).bind ?_)
  refine (wireU32_scans sb.featureFlags).bind ((wireNum_scans algo).bind ?_)
  refine (wireNum_scans compression).bind ((wireNum_scans (Nat.two_pow_pos 16)).bind ?_)
  refine (Scans.take uuid).bind ((wireU32_scans sb.timescale).bind ?_)
  refine (wireNum_scans count).bind ((wireNum_scans offset).bind ?_)
  exact (wireNum_scans size).bind_pure (Scans.pure sb)

theorem runSection_scans {α : Type} {m : ContainerScan α} {b rest : Bytes} {x : α}
    (scans : Scans m () 0 b x ()) : runSection m (b ++ rest) = .ok x := by
  rw [runSection, scans rest]

theorem runSection_whole {α : Type} {m : ContainerScan α} {b : Bytes} {x : α} (scans : Scans m () 0 b x ()) :
    runSection m b = .ok x := by
  rw [← List.append_nil b]
  exact runSection_scans scans

end Rows

section Layout
variable {env : ContainerEnv}

theorem readAt_middle {front b back : Bytes} {pos n : Nat} (start : front.length = pos) (long : b.length = n)
    (near : pos < 2 ^ 63) : readAt (front ++ (b ++ back)) pos n = .ok b := by
  rw [readAt, if_neg (Nat.not_le.mpr near), List.drop_left' start, List.take_left' long, if_pos long]

theorem find_entriesFrom {l r : List (SectionType × Bytes)} {ty : SectionType} {b : Bytes}
    (first : ∀ x ∈ l, x.1 ≠ ty) (offset : Nat) :
    (entriesFrom env offset (l ++ (ty, b) :: r)).find? (fun s => s.sectionType = ty) =
      some ⟨ty, offset + (l.flatMap Prod.snd).length, b.length, env.hashChunk b⟩ := by
  induction l generalizing offset with
  | nil => simp [entriesFrom]
  | cons x l ih =>
      obtain ⟨ty', b'⟩ := x
      have other : ty' ≠ ty := first _ List.mem_cons_self
      rw [List.cons_append, entriesFrom, List.find?_cons_of_neg (by simpa using other),
        ih (fun x mem => first x (List.mem_cons_of_mem _ mem)), flatMap_cons, length_append, Nat.add_assoc]

/-- A section between others is read back. -/
theorem readSection_middle (env : ContainerEnv) (l r : List (SectionType × Bytes)) (ty : SectionType) (b front back : Bytes)
    (first : ∀ x ∈ l, x.1 ≠ ty)
    (near : (front ++ ((l ++ (ty, b) :: r).flatMap Prod.snd ++ back)).length < 2 ^ 63) :
    readSection env (front ++ ((l ++ (ty, b) :: r).flatMap Prod.snd ++ back))
      (entriesFrom env front.length (l ++ (ty, b) :: r)) ty = .ok b := by
  have split : front ++ ((l ++ (ty, b) :: r).flatMap Prod.snd ++ back) =
      (front ++ l.flatMap Prod.snd) ++ (b ++ (r.flatMap Prod.snd ++ back)) := by
    simp
  rw [split] at near ⊢
  have start : (front ++ l.flatMap Prod.snd).length = front.length + (l.flatMap Prod.snd).length :=
    length_append
  have inside : ((front ++ l.flatMap Prod.snd) ++ (b ++ (r.flatMap Prod.snd ++ back))).length =
      front.length + (l.flatMap Prod.snd).length + (b.length + (r.flatMap Prod.snd ++ back).length) := by
    rw [length_append, start, length_append]
  rw [readSection, findSection, find_entriesFrom first]
  simp only [Outcome.ofOption, ok_bind, sectionPlace, placeIn]
  rw [if_neg (by omega), checkedSub, if_pos (by omega), ok_bind, if_neg (by omega), Outcome.pure_eq,
    ok_bind]
  dsimp only
  rw [readAt_middle start rfl (by omega), ok_bind, if_neg (not_not.mpr rfl)]
  rfl

theorem entriesFrom_length (offset : Nat) (l : List (SectionType × Bytes)) :
    (entriesFrom env offset l).length = l.length := by
  induction l generalizing offset with
  | nil => rfl
  | cons x l ih => rw [entriesFrom, length_cons, ih, length_cons]

theorem encodeSectionEntry_length (e : SectionEntry) : (encodeSectionEntry e).length = sectionDirEntryLen := by
  simp only [encodeSectionEntry, length_append, le_length, e.hash.2]
  rfl

theorem length_flatMap_const {α : Type} {f : α → Bytes} {n : Nat} (same : ∀ x, (f x).length = n) (l : List α) :
    (l.flatMap f).length = l.length * n := by
  induction l with
  | nil => simp
  | cons x l ih => rw [flatMap_cons, length_append, same, ih, length_cons, Nat.succ_mul, Nat.add_comm]

/-- Every section ends before the directory. -/
theorem entriesFrom_fits {offset bound : Nat} {l : List (SectionType × Bytes)}
    (inside : offset + (l.flatMap Prod.snd).length < bound) :
    ∀ e ∈ entriesFrom env offset l, e.offset < bound ∧ e.length < bound := by
  induction l generalizing offset with
  | nil =>
      intro e mem
      cases mem
  | cons x l ih =>
      rw [flatMap_cons, length_append] at inside
      intro e mem
      rcases List.mem_cons.mp mem with rfl | later
      · constructor
        · change offset < bound
          omega
        · change x.2.length < bound
          omega
      · exact ih (by omega) e later

end Layout

section File
variable {env : ContainerEnv} {compression : UInt8}

/-- Tables whose numbers and texts keep within the widths they are written with. -/
structure Tables.Fits (t : Tables) : Prop where
  tracks : t.tracks.length < 2 ^ 32 ∧ ∀ x ∈ t.tracks, x.Fits
  dict : t.dict.length < 2 ^ 32
  chunks : t.chunks.length < 2 ^ 32 ∧ ∀ c ∈ t.chunks, c.dataOffset < 2 ^ 64
  segments : t.segments.length < 2 ^ 32 ∧ ∀ s ∈ t.segments, s.chunks.length < 2 ^ 32
  metaPairs : t.metaPairs.length < 2 ^ 32 ∧ ∀ m ∈ t.metaPairs, metaFits m
  integrity : t.integrity.Fits

/-- What a container is opened to. -/
def openedFrom (env : ContainerEnv) (sb : Superblock) (data : Bytes) (t : Tables) : Reader where
  overflowChecks := env.overflowChecks
  file := containerBytes env sb data t
  superblock := sb
  sections := directoryOf env data t
  tracks := t.tracks
  dict := t.dict
  chunks := t.chunks
  segments := t.segments
  metaPairs := t.metaPairs
  integrity := t.integrity
  dataOffset := superblockLen
  dataLen := data.length

variable {data : Bytes} {t : Tables} {sb : Superblock}

theorem encodeSuperblock_length (uuid : sb.assetUuid.length = 16) : (encodeSuperblock sb).length = 52 := by
  simp only [encodeSuperblock, length_append, le_length, uuid]

/-- The bytes in front of the data. -/
def containerHead (sb : Superblock) : Bytes := containerMagic ++ (encodeSuperblock sb ++ List.replicate 8 0)

theorem containerHead_length (uuid : sb.assetUuid.length = 16) : (containerHead sb).length = superblockLen := by
  rw [containerHead, length_append, length_append, encodeSuperblock_length uuid, List.length_replicate]
  rfl

variable (env data t sb) in
theorem containerBytes_eq : containerBytes env sb data t = containerHead sb ++
    (((.data, data) :: t.sections).flatMap Prod.snd ++ (directoryOf env data t).flatMap encodeSectionEntry) := by
  simp only [containerBytes, containerHead, flatMap_cons, List.append_assoc]

variable (env data t) in
theorem containerBytes_length (uuid : sb.assetUuid.length = 16) :
    (containerBytes env sb data t).length = containerSize env data t := by
  rw [containerBytes_eq env data t sb, length_append, containerHead_length uuid, length_append, flatMap_cons,
    length_append, containerSize, directoryOffset]
  dsimp only
  omega

/-- Opening a container decodes its tables. -/
theorem openFile_tables {timescale : UInt32} {uuid : Uuid} (known : compression ≤ compressionZstd)
    (near : containerSize env data t < 2 ^ 63) :
    Reader.openFile env (containerBytes env (superblockOf env compression timescale uuid data t) data t) = do
      let tracks ← Outcome.ofExcept (decodeTracks (encodeTable encodeTrack t.tracks))
      let dict ← Outcome.ofExcept (decodeDict (encodeTable encodeChunkIndex t.dict))
      let chunks ← Outcome.ofExcept (decodeChunks (encodeTable encodeChunkRow t.chunks))
      let segments ← Outcome.ofExcept (decodeSegments (encodeTable encodeSegment t.segments))
      let metaPairs ← Outcome.ofExcept (decodeMeta (encodeTable encodeMetaPair t.metaPairs))
      let integrity ← Outcome.ofExcept (decodeIntegrity (encodeIntegrity t.integrity))
      return { openedFrom env (superblockOf env compression timescale uuid data t) data t with
        tracks, dict, chunks, segments, metaPairs, integrity } := by
  set sb := superblockOf env compression timescale uuid data t with hsb
  have uuid16 : sb.assetUuid.length = 16 := uuid.2
  have head := containerHead_length uuid16
  have size := containerBytes_length env data t uuid16
  have shape := containerBytes_eq env data t sb
  have count : (directoryOf env data t).length = 7 := by
    rw [directoryOf, entriesFrom_length]
    rfl
  have dirLength : ((directoryOf env data t).flatMap encodeSectionEntry).length = 7 * sectionDirEntryLen := by
    rw [length_flatMap_const encodeSectionEntry_length, count]
  have total : containerSize env data t = directoryOffset data t + 7 * sectionDirEntryLen := by
    rw [containerSize, dirLength]
  have superblock : sb.Fits := by
    have small : compression.toNat ≤ 1 := known
    refine ⟨Nat.one_lt_two_pow (by decide), Nat.two_pow_pos 16, Nat.one_lt_two_pow (by decide), ?_, uuid.2,
      ?_, ?_, ?_⟩
    · change compression.toNat < 2 ^ 8
      omega
    · change (directoryOf env data t).length < 2 ^ 32
      rw [count]
      decide
    · change directoryOffset data t < 2 ^ 64
      omega
    · change containerSize env data t < 2 ^ 64
      omega
  have directory : runSection (Scan.collect sb.sectionCount readSectionEntry)
      ((directoryOf env data t).flatMap encodeSectionEntry) = .ok (directoryOf env data t) := by
    have before : superblockLen + (((.data, data) :: t.sections).flatMap Prod.snd).length < 2 ^ 64 := by
      rw [flatMap_cons, length_append]
      rw [directoryOffset] at total
      dsimp only
      omega
    have rows := Scans.collect (s := ()) encodeSectionEntry id (directoryOf env data t)
      (fun e mem p => readSectionEntry_scans (p := p) (entriesFrom_fits before e mem)) 0
    rw [map_id] at rows
    exact runSection_whole rows
  have section_ : ∀ (l r : List (SectionType × Bytes)) (ty : SectionType) (b : Bytes),
      (.data, data) :: t.sections = l ++ (ty, b) :: r → (∀ x ∈ l, x.1 ≠ ty) →
        readSection env (containerBytes env sb data t) (directoryOf env data t) ty = .ok b := by
    intro l r ty b split first
    have read := readSection_middle env l r ty b (containerHead sb) ((directoryOf env data t).flatMap encodeSectionEntry) first
    rw [← split, ← shape, size, head] at read
    exact read near
  rw [Reader.openFile]
  have first : readAt (containerBytes env sb data t) 0 superblockLen = .ok (containerHead sb) := by
    rw [shape]
    exact readAt_middle (List.length_nil) head (by decide)
  have decoded : runSection readSuperblock ((containerHead sb).drop 4) = .ok sb := by
    change runSection readSuperblock (encodeSuperblock sb ++ List.replicate 8 0) = .ok sb
    exact runSection_scans (readSuperblock_scans superblock)
  have accepted : checkSuperblock (containerBytes env sb data t).length sb = .ok () := by
    have small : ¬ compression.toNat > compressionZstd.toNat := Nat.not_lt.mpr known
    have major : ¬ sb.versionMajor ≠ containerMajor := not_not.mpr rfl
    have algo : ¬ sb.hashAlgo ≠ 1 := not_not.mpr rfl
    have compressed : ¬ sb.compressionAlgo > compressionZstd.toNat := small
    have length : ¬ sb.fileSize ≠ (containerBytes env sb data t).length := not_not.mpr size.symm
    rw [checkSuperblock, if_neg major, if_neg algo, if_neg compressed, if_neg length]
  have place : directoryPlace (containerBytes env sb data t).length sb =
      .ok (directoryOffset data t, 7 * sectionDirEntryLen) := by
    have entries : sb.sectionCount = 7 := count
    have where_ : sb.sectionDirOffset = directoryOffset data t := rfl
    rw [directoryPlace, entries, checked, if_pos (by decide), ok_bind, placeIn, where_, size, if_neg (by omega),
      checkedSub, if_pos (by omega), ok_bind, if_neg (by omega)]
    rfl
  have dirBytes : readAt (containerBytes env sb data t) (directoryOffset data t) (7 * sectionDirEntryLen) =
      .ok ((directoryOf env data t).flatMap encodeSectionEntry) := by
    have split : containerBytes env sb data t =
        (containerHead sb ++ ((.data, data) :: t.sections).flatMap Prod.snd) ++
          ((directoryOf env data t).flatMap encodeSectionEntry ++ []) := by
      rw [shape, List.append_nil, List.append_assoc]
    rw [split]
    refine readAt_middle ?_ dirLength (by omega)
    rw [length_append, head, flatMap_cons, length_append, directoryOffset]
    dsimp only
    omega
  have magic : ¬ (containerHead sb).take 4 ≠ containerMagic := not_not.mpr rfl
  have dataEntry : findSection (directoryOf env data t) .data =
      .ok ⟨.data, superblockLen, data.length, env.hashChunk data⟩ := rfl
  rw [first, ok_bind, if_neg magic, decoded]
  simp only [Outcome.ofExcept, ok_bind, accepted, place, dirBytes, directory, dataEntry]
  rw [section_ [(.data, data)] _ .tracks _ rfl (by simp), section_ [(.data, data), _] _ .dict _ rfl (by simp),
    section_ [(.data, data), _, _] _ .chunks _ rfl (by simp),
    section_ [(.data, data), _, _, _] _ .segments _ rfl (by simp),
    section_ [(.data, data), _, _, _, _] _ .metaPairs _ rfl (by simp),
    section_ [(.data, data), _, _, _, _, _] _ .integrity _ rfl (by simp)]
  rfl

/-- A container is opened to what it was made of. -/
theorem openFile_containerBytes (timescale : UInt32) (uuid : Uuid) (known : compression ≤ compressionZstd)
    (fits : t.Fits) (near : containerSize env data t < 2 ^ 63) :
    Reader.openFile env (containerBytes env (superblockOf env compression timescale uuid data t) data t) =
      .ok (openedFrom env (superblockOf env compression timescale uuid data t) data t) := by
  have tracks := runSection_whole (wireTable_scans "tracks" fits.tracks.1
    fun x mem p => readTrack_scans (fits.tracks.2 x mem))
  have dict := runSection_whole (indices_scans "dict" fits.dict)
  have chunks := runSection_whole (wireTable_scans "chunks" fits.chunks.1
    fun c mem p => readChunkRow_scans (fits.chunks.2 c mem))
  have segments := runSection_whole (wireTable_scans "segments" fits.segments.1
    fun s mem p => readSegment_scans (fits.segments.2 s mem))
  have metaPairs := runSection_whole (wireTable_scans "meta" fits.metaPairs.1
    fun m mem p => readMetaPair_scans (fits.metaPairs.2 m mem))
  have integrity := runSection_whole (readIntegrity_scans fits.integrity)
  rw [openFile_tables known near, decodeTracks, tracks, decodeDict, dict, decodeChunks, chunks, decodeSegments,
    segments, decodeMeta, metaPairs, decodeIntegrity, integrity]
  rfl

/-- The declared number of chunks is read back however long the tables are. -/
theorem openFile_chunkCount {timescale : UInt32} {uuid : Uuid} {r : Reader}
    (known : compression ≤ compressionZstd) (few : t.integrity.chunkCount < 2 ^ 64)
    (near : containerSize env data t < 2 ^ 63)
    (opened : Reader.openFile env (containerBytes env (superblockOf env compression timescale uuid data t) data t) =
      .ok r) : r.integrity.chunkCount = t.integrity.chunkCount := by
  have integrity : Scans readIntegrity () 0 (encodeIntegrity t.integrity)
      { t.integrity with
        totalRaw := t.integrity.totalRaw % 256 ^ 8
        totalStored := t.integrity.totalStored % 256 ^ 8 } () := by
    have cut : ∀ n p, Scans (wireNum "integrity" 8) () p (le 8 n) (n % 256 ^ 8) () := by
      intro n p
      refine (Scans.take (le_length 8 n)).bind_pure ?_
      rw [ofLe_le_mod]
      exact Scans.pure _
    refine (wireHash_scans t.integrity.merkleRoot).bind ((wireNum_scans few).bind ?_)
    exact (cut _ _).bind ((cut _ _).bind_pure (.pure _))
  rw [openFile_tables known near] at opened
  obtain ⟨tracks, -, opened⟩ := ok_of_bindO opened
  obtain ⟨dict, -, opened⟩ := ok_of_bindO opened
  obtain ⟨chunks, -, opened⟩ := ok_of_bindO opened
  obtain ⟨segments, -, opened⟩ := ok_of_bindO opened
  obtain ⟨metaPairs, -, opened⟩ := ok_of_bindO opened
  rw [decodeIntegrity, runSection_whole integrity] at opened
  cases opened
  rfl

end File
end Cavs
