import Cavs.ContainerAccepted
import Cavs.ContainerRun

/-!
# A container with one byte changed

Every section is named by its hash, but the directory that names them is not: a changed
byte of its offset leads to whatever stands at the other offset. Any other changed byte is
found, or makes no difference.
-/
namespace Cavs
open FileProg (Bytes)
open ByteScan
open Outcome (ok_of_bindO pure_eq)
open ContainerWriter (create intern)

section Spec
variable (env : ContainerEnv)

/-- Two readers give the same tables and the same chunks. -/
structure Reader.SameAnswers (r r' : Reader) : Prop where
  tracks : r'.tracks = r.tracks
  segments : r'.segments = r.segments
  dict : r'.dict = r.dict
  metaPairs : r'.metaPairs = r.metaPairs
  chunks : ∀ i, r'.readChunk env i = r.readChunk env i

/-- The second file is refused when it is opened or verified, or it says what the first
one says. -/
def Caught (file file' : Bytes) : Prop :=
  (∃ e, Reader.openFile env file' = .error e) ∨ ∃ r', Reader.openFile env file' = .ok r' ∧
    ((∃ e, r'.verify env = .error e) ∨ ∃ r, Reader.openFile env file = .ok r ∧ r.SameAnswers env r')

/-- The directory that the second file points to describes other contents than the first
file has, with nothing wrong about them, or contents that overrun the file offsets. -/
def Decoy (file file' : Bytes) : Prop :=
  ∃ r', Contents env file' r' ∧ (r'.Sound env ∨ r'.Overruns env) ∧ ∀ r, Contents env file r → ¬ r.SameAnswers env r'

/-- Where the superblock says that its directory is, as many entries stand as it says, with one for
the data, and one for each table that names bytes of the file by their hash. -/
def Directed (file : Bytes) : Prop :=
  ∃ sections, DirectoryAt file (ofLe (window file 40 8)) (ofLe (window file 36 4)) sections ∧
    (∃ entry, sections.find? (fun s => s.sectionType = .data) = some entry) ∧
    ∀ ty, ty ≠ .data → ∃ b, SectionHolds env file sections ty b

/-- The fields of the superblock that nothing is said about: the minor version, the flags,
the asset, the timescale and what is reserved. -/
def Unauthenticated (p : Nat) : Prop := (6 ≤ p ∧ p < 12) ∨ (14 ≤ p ∧ p < 36) ∨ (56 ≤ p ∧ p < 64)

/-- No other bytes of the file have the hash of one of these sections. -/
def Separates (file : Bytes) (sections : List (SectionType × Bytes)) : Prop :=
  ∀ s ∈ sections, ∀ b, b <:+: file → env.hashChunk b = env.hashChunk s.2 → b = s.2

end Spec

section Head
variable {env : ContainerEnv} {file file' : Bytes} {sb sb' : Superblock} {r : Reader}

/-- Where the number of sections and the offset of the directory are read from. -/
theorem superblock_fields {b : Bytes} (read : runSection readSuperblock b = .ok sb) :
    sb.sectionCount = ofLe (window b 32 4) ∧ sb.sectionDirOffset = ofLe (window b 36 8) := by
  obtain ⟨c, t, run⟩ := runSection_ok read
  obtain ⟨major, c₁, s₁, run₁, run⟩ := ok_of_bind run
  obtain ⟨minor, c₂, s₂, run₂, run⟩ := ok_of_bind run
  obtain ⟨flags, c₃, s₃, run₃, run⟩ := ok_of_bind run
  obtain ⟨algo, c₄, s₄, run₄, run⟩ := ok_of_bind run
  obtain ⟨compression, c₅, s₅, run₅, run⟩ := ok_of_bind run
  obtain ⟨reserved, c₆, s₆, run₆, run⟩ := ok_of_bind run
  obtain ⟨uuid, c₇, s₇, run₇, run⟩ := ok_of_bind run
  obtain ⟨timescale, c₈, s₈, run₈, run⟩ := ok_of_bind run
  obtain ⟨count, c₉, s₉, run₉, run⟩ := ok_of_bind run
  obtain ⟨offset, c₁₀, s₁₀, run₁₀, run⟩ := ok_of_bind run
  obtain ⟨size, c₁₁, s₁₁, run₁₁, run⟩ := ok_of_bind run
  cases run
  obtain ⟨flags, c₃', s₃', run₃, last₃⟩ := ok_of_bind run₃
  obtain ⟨timescale, c₈', s₈', run₈, last₈⟩ := ok_of_bind run₈
  cases last₃
  cases last₈
  have split : b = (le 2 major ++ (le 2 minor ++ (le 4 flags ++ (le 1 algo ++ (le 1 compression ++ (le 2 reserved ++
      (uuid ++ le 4 timescale))))))) ++ (le 4 count ++ (le 8 offset ++ c₁₀.rest)) := by
    rw [show b = (⟨0, b⟩ : Cursor).rest from rfl, (ok_of_num run₁).1, (ok_of_num run₂).1, (ok_of_num run₃).1,
      (ok_of_num run₄).1, (ok_of_num run₅).1, (ok_of_num run₆).1, (ok_of_take run₇).1, (ok_of_num run₈).1,
      (ok_of_num run₉).1, (ok_of_num run₁₀).1]
    simp only [List.append_assoc]
  have start : (le 2 major ++ (le 2 minor ++ (le 4 flags ++ (le 1 algo ++ (le 1 compression ++ (le 2 reserved ++
      (uuid ++ le 4 timescale))))))).length = 32 := by
    simp only [List.length_append, le_length, (ok_of_take run₇).2.1]
  have counted : window b 32 4 = le 4 count := by
    rw [split]
    exact window_middle start (le_length 4 count)
  have placed : window b 36 8 = le 8 offset := by
    rw [split, ← List.append_assoc]
    apply window_middle
    · rw [List.length_append, start, le_length]
    · exact le_length 8 offset
  exact ⟨by rw [counted, ofLe_le (ok_of_num run₉).2.1], by rw [placed, ofLe_le (ok_of_num run₁₀).2.1]⟩

theorem Headed.count (h : Headed file sb) : sb.sectionCount = ofLe (window file 36 4) := by
  rw [(superblock_fields h.superblock).1, window_window (by decide)]

theorem Headed.offset (h : Headed file sb) : sb.sectionDirOffset = ofLe (window file 40 8) := by
  rw [(superblock_fields h.superblock).2, window_window (by decide)]

theorem Contents.directed (contents : Contents env file r) : Directed env file := by
  have directory := contents.directory
  rw [contents.headed.offset, contents.headed.count] at directory
  have faithful := contents.faithful
  obtain ⟨entry, found, -⟩ := faithful.data
  refine ⟨r.sections, directory, ⟨entry, found⟩, fun ty other => ?_⟩
  rw [← contents.file_eq]
  cases ty with
  | tracks => exact faithful.tracks.imp fun _ => And.left
  | dict => exact faithful.dict.imp fun _ => And.left
  | chunks => exact faithful.chunks.imp fun _ => And.left
  | segments => exact faithful.segments.imp fun _ => And.left
  | metaPairs => exact faithful.metaPairs.imp fun _ => And.left
  | integrity => exact faithful.integrity.imp fun _ => And.left
  | data => exact absurd rfl other

/-- A second file is caught exactly when it is no decoy for the first. -/
theorem caught_iff (near : file.length < 2 ^ 63) (near' : file'.length < 2 ^ 63) :
    Caught env file file' ↔ ¬ Decoy env file file' := by
  constructor
  · rintro caught ⟨r', contents, unnoticed, differs⟩
    have opened := (openFile_eq_ok near').mpr contents
    have counted := openFile_returns env file'
    rw [opened] at counted
    rcases caught with ⟨e, refused⟩ | ⟨r'', opened', refused | ⟨r, before, same⟩⟩
    · rw [opened] at refused
      cases refused
    · rw [opened] at opened'
      cases opened'
      obtain ⟨e, refused⟩ := refused
      rcases unnoticed with sound | overruns
      · obtain ⟨report, verified⟩ := (verify_ok counted.2.chunks).mpr sound
        rw [verified] at refused
        cases refused
      · rw [(verify_panics counted.2.chunks).mpr overruns] at refused
        cases refused
    · rw [opened] at opened'
      cases opened'
      exact differs r ((openFile_eq_ok near).mp before) same
  · intro honest
    have returns := openFile_returns env file'
    cases opened : Reader.openFile env file' with
    | error e => exact .inl ⟨e, opened⟩
    | panics =>
        rw [opened] at returns
        exact returns.elim
    | ok r' =>
        rw [opened] at returns
        refine .inr ⟨r', opened, ?_⟩
        by_contra unnoticed
        rw [not_or] at unnoticed
        refine honest ⟨r', (openFile_eq_ok near').mp opened, ?_, fun r contents same => ?_⟩
        · cases verified : r'.verify env with
          | error e => exact absurd ⟨e, verified⟩ unnoticed.1
          | ok report => exact .inl ((verify_ok returns.2.chunks).mp ⟨report, verified⟩)
          | panics => exact .inr ((verify_panics returns.2.chunks).mp verified)
        · exact unnoticed.2 ⟨r, (openFile_eq_ok near).mpr contents, same⟩

end Head
section Writer
variable {env : ContainerEnv} {w w' : ContainerWriter} {log : ChunkLog} {calls : List WriterCall}

/-- Chunks lie in the data section, the first one at its start. -/
structure ContainerWriter.Laid (w : ContainerWriter) : Prop where
  known : w.compression ≤ compressionZstd
  inside : ∀ c ∈ w.chunks, c.dataOffset ≤ w.data.length
  first : ∀ c, w.chunks[0]? = some c → c.dataOffset = 0
  empty : w.chunks = [] → w.data = []

theorem create_laid (uuid : Uuid) (timescale : UInt32) (compress : Bool) :
    (create uuid timescale compress).Laid := by
  constructor
  · exact create_compression uuid timescale compress
  · intro c mem
    cases mem
  · intro c found
    cases found
  · intro _
    rfl

theorem ContainerWriter.Laid.same (h : w.Laid) (chunks : w'.chunks = w.chunks) (data : w'.data = w.data)
    (compression : w'.compression = w.compression) : w'.Laid := by
  constructor
  · rw [compression]
    exact h.known
  · rw [chunks, data]
    exact h.inside
  · rw [chunks]
    exact h.first
  · rw [chunks, data]
    exact h.empty

theorem ContainerWriter.Laid.store (h : w.Laid) (hash : ChunkHash) (raw : Bytes) (form : Option (Bytes × UInt32)) :
    (w.store hash raw form).Laid := by
  constructor
  · exact h.known
  · intro c mem
    change c.dataOffset ≤ (w.data ++ _).length
    rw [List.length_append]
    rcases List.mem_append.mp mem with old | new
    · have inside := h.inside c old
      omega
    · rw [List.mem_singleton.mp new]
      exact Nat.le_add_right _ _
  · intro c found
    change (w.chunks ++ _)[0]? = some c at found
    cases chunks : w.chunks with
    | nil =>
        rw [chunks] at found
        cases found
        change w.data.length = 0
        rw [h.empty chunks, List.length_nil]
    | cons c' rest =>
        apply h.first
        rw [chunks] at found ⊢
        exact found
  · intro nothing
    exact absurd (congrArg List.length nothing) (by simp [ContainerWriter.store])

theorem ContainerWriter.Laid.storeAll (h : w.Laid) (l : List (Bytes × Option (Bytes × UInt32))) :
    (w.storeAll env l).2.Laid := by
  induction l generalizing w with
  | nil => exact h
  | cons p rest ih =>
      obtain ⟨raw, form⟩ := p
      rw [ContainerWriter.storeAll, intern]
      cases (w.count raw).cas.lookup (env.hashChunk raw) with
      | some index => exact ih (h.same rfl rfl rfl)
      | none =>
          apply ih
          apply ContainerWriter.Laid.store
          exact h.same rfl rfl rfl

theorem step_laid {call : WriterCall} (h : w.Laid) (ran : w.step env call = .ok (w', log)) : w'.Laid := by
  cases call with
  | setZstdLevel level =>
      cases ran
      exact h.same rfl rfl rfl
  | setBg4 enabled =>
      cases ran
      exact h.same rfl rfl rfl
  | signWith secret =>
      cases ran
      exact h.same rfl rfl rfl
  | setMeta key value =>
      cases ran
      exact h.same rfl rfl rfl
  | addChunk raw =>
      obtain ⟨⟨index, w₁⟩, added, ran⟩ := ok_of_bindO ran
      cases ran
      rw [ContainerWriter.addChunk, intern] at added
      cases found : (w.count raw).cas.lookup (env.hashChunk raw) with
      | some known =>
          rw [found] at added
          cases added
          exact h.same rfl rfl rfl
      | none =>
          rw [found] at added
          obtain ⟨form, -, added⟩ := ok_of_bindO added
          cases added
          apply ContainerWriter.Laid.store
          exact h.same rfl rfl rfl
  | addChunksParallel data ranges =>
      obtain ⟨raws, sliced, ran⟩ := ok_of_bindO ran
      obtain ⟨⟨indices, w₁⟩, added, ran⟩ := ok_of_bindO ran
      cases ran
      rw [ContainerWriter.addChunksParallel, sliced, Outcome.ok_bind] at added
      obtain ⟨forms, -, added⟩ := ok_of_bindO added
      rw [pure_eq, Outcome.ok.injEq] at added
      have stored : (w.storeAll env (raws.zip forms)).2.Laid := h.storeAll _
      rw [added] at stored
      exact stored
  | addTrack _ | addSegment _ =>
      obtain ⟨w₁, added, ran⟩ := ok_of_bindO ran
      cases ran
      obtain ⟨u, -, added⟩ := ok_of_bindO added
      cases added
      exact h.same rfl rfl rfl
  | pinDict index =>
      obtain ⟨w₁, added, ran⟩ := ok_of_bindO ran
      cases ran
      obtain ⟨u, -, added⟩ := ok_of_bindO added
      rw [pure_eq, Outcome.ok.injEq] at added
      subst added
      split
      · exact h
      · exact h.same rfl rfl rfl

theorem run_laid (h : w.Laid) (ran : w.run env calls = .ok (w', log)) : w'.Laid := by
  induction calls generalizing w log with
  | nil =>
      cases ran
      exact h
  | cons call rest ih =>
      rw [ContainerWriter.run] at ran
      obtain ⟨⟨w₁, first⟩, stepped, ran⟩ := ok_of_bindO ran
      obtain ⟨⟨w₂, last⟩, more, ran⟩ := ok_of_bindO ran
      cases ran
      exact ih (step_laid h stepped) more

end Writer

section Table

/-- A table with more rows than its count says is read as far as the count says. -/
theorem wireTable_taken {α : Type} {what : String} {row : ContainerScan α} {enc : α → Bytes} {l : List α}
    (item : ∀ x ∈ l, ∀ p, Scans row () p (enc x) x ()) :
    runSection (wireTable what row) (encodeTable enc l) = .ok (l.take (l.length % 2 ^ 32)) := by
  set n := l.length % 2 ^ 32 with hn
  have few : n ≤ l.length := Nat.mod_le _ _
  have kept : (l.take n).length = n := List.length_take_of_le few
  have split : encodeTable enc l = (le 4 l.length ++ (l.take n).flatMap enc) ++ (l.drop n).flatMap enc := by
    rw [List.append_assoc, ← List.flatMap_append, List.take_append_drop, encodeTable]
  have counted : Scans (wireNum what 4) () 0 (le 4 l.length) n () := by
    refine (Scans.take (le_length 4 l.length)).bind_pure ?_
    rw [ofLe_le_mod]
    exact Scans.pure _
  have rows := Scans.collect enc id (l.take n) (s := ()) (fun x mem => item x (List.mem_of_mem_take mem))
    (0 + (le 4 l.length).length)
  rw [List.map_id, kept] at rows
  rw [split]
  exact runSection_scans (counted.bind rows)

end Table
section Entries
variable {env : ContainerEnv} {file file' : Bytes} {offset count count' p j : Nat} {x : UInt8}
  {sections sections' : List SectionEntry} {e e' : SectionEntry}

theorem entriesFrom_types (offset : Nat) (l : List (SectionType × Bytes)) :
    (entriesFrom env offset l).map SectionEntry.sectionType = l.map Prod.fst := by
  induction l generalizing offset with
  | nil => rfl
  | cons s l ih => rw [entriesFrom, List.map_cons, ih, List.map_cons]

/-- What an entry names is where it says, under its hash. -/
theorem entriesFrom_window (front back : Bytes) (l : List (SectionType × Bytes)) :
    ∀ e ∈ entriesFrom env front.length l, ∃ b, (e.sectionType, b) ∈ l ∧ e.hash = env.hashChunk b ∧
      window (front ++ (l.flatMap Prod.snd ++ back)) e.offset e.length = b ∧
      e.offset + e.length ≤ front.length + (l.flatMap Prod.snd).length := by
  induction l generalizing front with
  | nil =>
      intro e mem
      cases mem
  | cons s l ih =>
      obtain ⟨ty, b⟩ := s
      intro e mem
      rw [entriesFrom] at mem
      rw [List.flatMap_cons, List.length_append, List.append_assoc]
      dsimp only
      rcases List.mem_cons.mp mem with rfl | later
      · refine ⟨b, List.mem_cons_self, rfl, window_middle rfl rfl, ?_⟩
        dsimp only
        omega
      · rw [← List.length_append] at later
        obtain ⟨b', listed, hash, there, ends⟩ := ih (front ++ b) e later
        refine ⟨b', List.mem_cons_of_mem _ listed, hash, ?_, ?_⟩
        · rw [← there, List.append_assoc]
        · rw [List.length_append] at ends
          omega

/-- Where the fields of an entry stand. -/
structure FieldsAt (file : Bytes) (pos : Nat) (e : SectionEntry) : Prop where
  sectionType : window file pos 4 = le 4 e.sectionType.toNat
  offset : window file (pos + 4) 8 = le 8 e.offset
  length : window file (pos + 12) 8 = le 8 e.length
  hash : window file (pos + 20) 32 = e.hash.1

theorem DirectoryAt.fields (h : DirectoryAt file offset count sections) (found : sections[j]? = some e) :
    FieldsAt file (offset + j * sectionDirEntryLen) e := by
  have within : j < sections.length := (List.getElem?_eq_some_iff.mp found).1
  have room : j * sectionDirEntryLen + sectionDirEntryLen ≤ count * sectionDirEntryLen := by
    rw [← Nat.succ_mul, ← h.counted]
    exact Nat.mul_le_mul_right _ within
  have whole : window file (offset + j * sectionDirEntryLen) sectionDirEntryLen = encodeSectionEntry e := by
    rw [← window_window room, h.entries]
    exact window_flatMap encodeSectionEntry_length found
  have part : ∀ (front b back : Bytes) (k n : Nat), front.length = k → b.length = n →
      encodeSectionEntry e = front ++ (b ++ back) →
        window file (offset + j * sectionDirEntryLen + k) n = b := by
    intro front b back k n start long split
    have inside : k + n ≤ sectionDirEntryLen := by
      rw [← encodeSectionEntry_length e, split, List.length_append, List.length_append]
      omega
    rw [← window_window inside, whole, split]
    exact window_middle start long
  constructor
  · exact part [] _ _ 0 4 rfl (le_length 4 _) rfl
  · exact part (le 4 e.sectionType.toNat) _ _ 4 8 (le_length 4 _) (le_length 8 _) rfl
  · apply part (le 4 e.sectionType.toNat ++ le 8 e.offset) _ e.hash.1 12 8 rfl (le_length 8 _)
    rw [List.append_assoc]
    rfl
  · apply part (le 4 e.sectionType.toNat ++ (le 8 e.offset ++ le 8 e.length)) _ [] 20 32 rfl e.hash.2
    rw [List.append_nil, List.append_assoc, List.append_assoc]
    rfl

theorem le_inj {w a b : Nat} (small : a < 256 ^ w) (small' : b < 256 ^ w) (same : le w a = le w b) : a = b := by
  rw [← ofLe_le small, same, ofLe_le small']

theorem sectionType_inj {ty ty' : SectionType} (same : le 4 ty.toNat = le 4 ty'.toNat) : ty = ty' := by
  cases ty <;> cases ty' <;> first | rfl | exact absurd same (by decide)

/-- A changed byte changes the type of an entry, its hash, or its place, and no entry
without being in it. -/
theorem DirectoryAt.beside (h : DirectoryAt file offset count sections)
    (h' : DirectoryAt (file.set p x) offset count' sections') (found : sections[j]? = some e)
    (found' : sections'[j]? = some e') :
    (e'.sectionType = e.sectionType ∨
        offset + j * sectionDirEntryLen ≤ p ∧ p < offset + j * sectionDirEntryLen + 4) ∧
      (e'.hash = e.hash ∨ offset ≤ p ∧ e'.offset = e.offset ∧ e'.length = e.length) := by
  have before := h.fields found
  have after := h'.fields found'
  have fits := h.fits e (List.mem_of_getElem? found)
  have fits' := h'.fits e' (List.mem_of_getElem? found')
  constructor
  · by_cases hit : offset + j * sectionDirEntryLen ≤ p ∧ p < offset + j * sectionDirEntryLen + 4
    · exact .inr hit
    · left
      apply sectionType_inj
      rw [← before.sectionType, ← after.sectionType, window_set (by omega)]
  · by_cases hit : offset + j * sectionDirEntryLen + 20 ≤ p ∧ p < offset + j * sectionDirEntryLen + 20 + 32
    · refine .inr ⟨by omega, ?_, ?_⟩
      · apply @le_inj 8 _ _ fits'.1 fits.1
        rw [← before.offset, ← after.offset, window_set (by omega)]
      · apply @le_inj 8 _ _ fits'.2 fits.2
        rw [← before.length, ← after.length, window_set (by omega)]
    · left
      apply Subtype.ext
      rw [← before.hash, ← after.hash, window_set (by omega)]

end Entries
section Written
variable {env : ContainerEnv} {data file : Bytes} {t : Tables} {compression : UInt8} {timescale : UInt32} {uuid : Uuid}
  {p j : Nat} {x : UInt8} {r' : Reader} {e e' : SectionEntry} {ty : SectionType}

theorem directoryOf_types : (directoryOf env data t).map SectionEntry.sectionType =
    [.data, .tracks, .dict, .chunks, .segments, .metaPairs, .integrity] := by
  rw [directoryOf, entriesFrom_types]
  rfl

theorem directoryOf_length : (directoryOf env data t).length = 7 := by
  rw [← List.length_map (f := SectionEntry.sectionType), directoryOf_types]
  rfl

/-- No type comes twice. -/
theorem directoryOf_inj {k : Nat} {d : SectionEntry} (found : (directoryOf env data t)[j]? = some e)
    (found' : (directoryOf env data t)[k]? = some d) (same : e.sectionType = d.sectionType) : j = k := by
  have types := @directoryOf_types env data t
  have once : ((directoryOf env data t).map SectionEntry.sectionType).Nodup := by
    rw [types]
    decide
  have within : j < ((directoryOf env data t).map SectionEntry.sectionType).length := by
    rw [List.length_map]
    exact (List.getElem?_eq_some_iff.mp found).1
  apply (List.getElem?_inj within once).mp
  rw [List.getElem?_map, List.getElem?_map, found, found', Option.map_some, Option.map_some, same]

theorem find_section {sections : List SectionEntry} (found : sections.find? (fun s => s.sectionType = ty) = some e) :
    e.sectionType = ty ∧ ∃ j : Nat, sections[j]? = some e :=
  ⟨by simpa using List.find?_some found, List.mem_iff_getElem?.mp (List.mem_of_find?_eq_some found)⟩

theorem containerSize_eq : containerSize env data t = directoryOffset data t + 7 * sectionDirEntryLen := by
  rw [containerSize, length_flatMap_const encodeSectionEntry_length, directoryOf_length]

variable (shape : file = containerBytes env (superblockOf env compression timescale uuid data t) data t)
include shape

theorem written_length : file.length = directoryOffset data t + 7 * sectionDirEntryLen := by
  rw [shape, containerBytes_length env data t uuid.2, containerSize_eq]

theorem written_fields : window file 36 4 = le 4 7 ∧ window file 40 8 = le 8 (directoryOffset data t) := by
  set sb := superblockOf env compression timescale uuid data t with hsb
  have count : sb.sectionCount = 7 := directoryOf_length
  set front : Bytes := containerMagic ++ (le 2 sb.versionMajor ++ (le 2 sb.versionMinor ++ (le 4 sb.featureFlags.toNat ++
    (le 1 sb.hashAlgo ++ (le 1 sb.compressionAlgo ++ (le 2 0 ++ (sb.assetUuid ++ le 4 sb.timescale.toNat))))))) with hfront
  obtain ⟨back, split⟩ : ∃ back, file = front ++ (le 4 sb.sectionCount ++ (le 8 sb.sectionDirOffset ++ back)) := by
    rw [shape]
    refine ⟨le 8 sb.fileSize ++ (List.replicate 8 0 ++ (data ++ (t.sections.flatMap Prod.snd ++
      (directoryOf env data t).flatMap encodeSectionEntry))), ?_⟩
    simp only [containerBytes, encodeSuperblock, hfront, List.append_assoc]
  have start : front.length = 36 := by
    have uuid16 : sb.assetUuid.length = 16 := uuid.2
    simp only [hfront, List.length_append, le_length, uuid16]
    rfl
  constructor
  · rw [split, window_middle start (le_length 4 _), count]
  · rw [split, ← List.append_assoc]
    apply window_middle
    · rw [List.length_append, start, le_length]
    · exact le_length 8 _

variable (near : containerSize env data t < 2 ^ 63)
include near

theorem written_directory : DirectoryAt file (directoryOffset data t) 7 (directoryOf env data t) := by
  have long := written_length shape
  have size := @containerSize_eq env data t
  have head : (containerHead (superblockOf env compression timescale uuid data t)).length = superblockLen :=
    containerHead_length uuid.2
  have before : (containerHead (superblockOf env compression timescale uuid data t) ++
      ((.data, data) :: t.sections).flatMap Prod.snd).length = directoryOffset data t := by
    rw [List.length_append, head, List.flatMap_cons, List.length_append, directoryOffset]
    dsimp only
    omega
  constructor
  · omega
  · exact directoryOf_length
  · rw [shape, containerBytes_eq env data t, ← List.append_assoc, ← List.append_nil (List.flatMap _ (directoryOf _ _ _))]
    rw [window_middle before (by rw [length_flatMap_const encodeSectionEntry_length, directoryOf_length]), List.append_nil]
  · apply entriesFrom_fits
    rw [List.length_append, head] at before
    omega

omit near in
theorem written_entry (mem : e ∈ directoryOf env data t) : ∃ b, (e.sectionType, b) ∈ (.data, data) :: t.sections ∧
    e.hash = env.hashChunk b ∧ window file e.offset e.length = b ∧ e.offset + e.length ≤ directoryOffset data t := by
  have head : (containerHead (superblockOf env compression timescale uuid data t)).length = superblockLen :=
    containerHead_length uuid.2
  rw [directoryOf, ← head] at mem
  obtain ⟨b, listed, hash, there, ends⟩ := entriesFrom_window _ ((directoryOf env data t).flatMap encodeSectionEntry) _ e mem
  refine ⟨b, listed, hash, ?_, ?_⟩
  · rw [shape, containerBytes_eq env data t]
    exact there
  · rw [head, List.flatMap_cons, List.length_append] at ends
    rw [directoryOffset]
    dsimp only at ends
    omega

variable (apart : p < 40 ∨ 48 ≤ p) (contents : Contents env (file.set p x) r')
include apart contents

/-- The directory is looked for where it stands. -/
theorem changed_directory : ∃ count, DirectoryAt (file.set p x) (directoryOffset data t) count r'.sections ∧
    (count = 7 ∨ 36 ≤ p ∧ p < 40 ∧ count ≤ 7) := by
  have size := @containerSize_eq env data t
  have long := written_length shape
  have offset : r'.superblock.sectionDirOffset = directoryOffset data t := by
    rw [contents.headed.offset, window_set (by omega), (written_fields shape).2, ofLe_le]
    change directoryOffset data t < 2 ^ 64
    omega
  have directory := contents.directory
  rw [offset] at directory
  refine ⟨r'.superblock.sectionCount, directory, ?_⟩
  by_cases hit : 36 ≤ p ∧ p < 40
  · have inside := directory.inside
    rw [List.length_set, long] at inside
    refine .inr ⟨hit.1, hit.2, ?_⟩
    rw [sectionDirEntryLen] at inside
    omega
  · left
    rw [contents.headed.count, window_set (by omega), (written_fields shape).1]
    rfl

omit shape near apart in
theorem all_sections (ty : SectionType) : ∃ e, r'.sections.find? (fun s => s.sectionType = ty) = some e := by
  have faithful := contents.faithful
  cases ty with
  | data => exact faithful.data.imp fun _ => And.left
  | tracks => exact faithful.tracks.elim fun _ held => held.1.imp fun _ => And.left
  | dict => exact faithful.dict.elim fun _ held => held.1.imp fun _ => And.left
  | chunks => exact faithful.chunks.elim fun _ held => held.1.imp fun _ => And.left
  | segments => exact faithful.segments.elim fun _ held => held.1.imp fun _ => And.left
  | metaPairs => exact faithful.metaPairs.elim fun _ held => held.1.imp fun _ => And.left
  | integrity => exact faithful.integrity.elim fun _ held => held.1.imp fun _ => And.left

/-- Every entry keeps its type: a changed one would be missed. -/
theorem changed_types (found : (directoryOf env data t)[j]? = some e) (found' : r'.sections[j]? = some e') :
    e'.sectionType = e.sectionType := by
  obtain ⟨count, directory, few⟩ := changed_directory shape near apart contents
  have written := written_directory shape near
  rcases (written.beside directory found found').1 with same | hit
  · exact same
  · obtain ⟨e'', there⟩ := all_sections contents e.sectionType
    obtain ⟨typed, i, found''⟩ := find_section there
    have short : i < (directoryOf env data t).length := by
      have within := (List.getElem?_eq_some_iff.mp found'').1
      have counted := directory.counted
      rw [directoryOf_length]
      omega
    by_cases here : i = j
    · subst here
      rw [found'] at found''
      cases found''
      exact typed
    · have other := List.getElem?_eq_getElem short
      rcases (written.beside directory other found'').1 with same | hit'
      · exact absurd (directoryOf_inj other found (same.symm.trans typed)) here
      · rw [sectionDirEntryLen] at hit hit'
        omega

/-- The first entry of a type names the bytes that were written for it, by their hash or by
their place in front of the changed byte. -/
theorem changed_entry (found' : r'.sections.find? (fun s => s.sectionType = ty) = some e') :
    ∃ (e : SectionEntry) (b : Bytes), (ty, b) ∈ (.data, data) :: t.sections ∧ e.hash = env.hashChunk b ∧ window file e.offset e.length = b ∧
      e.offset + e.length ≤ directoryOffset data t ∧
      (e'.hash = e.hash ∨ directoryOffset data t ≤ p ∧ e'.offset = e.offset ∧ e'.length = e.length) := by
  obtain ⟨count, directory, few⟩ := changed_directory shape near apart contents
  obtain ⟨typed, j, there⟩ := find_section found'
  have short : j < (directoryOf env data t).length := by
    have within := (List.getElem?_eq_some_iff.mp there).1
    have counted := directory.counted
    rw [directoryOf_length]
    omega
  have found := List.getElem?_eq_getElem short
  obtain ⟨b, listed, hash, bytes, ends⟩ := written_entry shape (List.getElem_mem short)
  rw [← changed_types shape near apart contents found there, typed] at listed
  exact ⟨_, b, listed, hash, bytes, ends, ((written_directory shape near).beside directory found there).2⟩

/-- What is accepted for a section is what was written for it. -/
theorem changed_section (separates : Separates env (file.set p x) ((.data, data) :: t.sections))
    (found' : r'.sections.find? (fun s => s.sectionType = ty) = some e')
    (hash' : env.hashChunk (window (file.set p x) e'.offset e'.length) = e'.hash) :
    (ty, window (file.set p x) e'.offset e'.length) ∈ (.data, data) :: t.sections := by
  obtain ⟨e, b, listed, hash, bytes, ends, kept⟩ := changed_entry shape near apart contents found'
  have same : window (file.set p x) e'.offset e'.length = b := by
    rcases kept with named | ⟨behind, offset, length⟩
    · exact separates _ listed _ window_infix (by rw [hash', named, hash])
    · rw [offset, length, window_set (by omega), bytes]
  rw [same]
  exact listed

end Written
section Data
variable {env : ContainerEnv} {r r' : Reader} {data : Bytes} {i : UInt32} {c : ChunkRecord}

/-- The data section of a reader is all there. -/
structure Reader.HoldsData (r : Reader) (data : Bytes) : Prop where
  start : r.dataOffset < 2 ^ 63
  near : r.file.length < 2 ^ 63
  long : data.length = r.dataLen
  there : window r.file r.dataOffset r.dataLen = data

/-- A chunk is read from the data section, wherever that stands. -/
theorem readChunk_data (h : r.HoldsData data) (found : r.chunks[i.toNat]? = some c) : r.readChunk env i =
    if c.dataOffset + c.lenStored.toNat ≤ data.length ∧ c.lenRaw.toNat ≤ maxChunkRaw then
      unpackChunk env i c (window data c.dataOffset c.lenStored.toNat)
    else .error (.malformed "chunk bounds") := by
  have start := h.start
  have near := h.near
  have lengths := congrArg List.length h.there
  rw [window, List.length_take, List.length_drop] at lengths
  have same : r.Bounded c ↔ c.dataOffset + c.lenStored.toNat ≤ data.length ∧ c.lenRaw.toNat ≤ maxChunkRaw := by
    rw [h.long]
    exact Iff.rfl
  rw [readChunk_some found]
  by_cases bounded : r.Bounded c
  · have fits := same.mp bounded
    have long := h.long
    have read : readAt r.file (r.dataOffset + c.dataOffset) c.lenStored.toNat =
        .ok (window data c.dataOffset c.lenStored.toNat) := by
      refine readAt_eq_ok.mpr ⟨by omega, ?_, window_length fits.1⟩
      rw [← h.there, window_window (by omega)]
    rw [if_pos bounded, if_pos fits, position_eq (by omega), if_pos (by omega), read]
    rfl
  · rw [if_neg bounded, if_neg fun fits => bounded (same.mpr fits)]

theorem readChunk_same (chunks : r'.chunks = r.chunks) (h : r.HoldsData data) (h' : r'.HoldsData data) (i : UInt32) :
    r'.readChunk env i = r.readChunk env i := by
  cases found : r.chunks[i.toNat]? with
  | none => rw [readChunk_none found, readChunk_none (by rw [chunks, found])]
  | some c => rw [readChunk_data h found, readChunk_data h' (by rw [chunks, found])]

/-- Where the first chunk starts the data section, it is refused before a later one
overruns. -/
theorem not_overruns (start : r.dataOffset < 2 ^ 64) (inside : ∀ c ∈ r.chunks, c.dataOffset < 2 ^ 63)
    (first : ∀ c, r.chunks[0]? = some c → c.dataOffset = 0) : ¬ r.Overruns env := by
  rintro ⟨k, c, found, before, bounded, far⟩
  have near := inside c (List.mem_of_getElem? found)
  have sum : r.position c ≤ r.dataOffset + c.dataOffset := by
    rw [Reader.position]
    split
    · exact Nat.le_refl _
    · exact Nat.mod_le _ _
  cases k with
  | zero =>
      have zero := first c found
      omega
  | succ k =>
      obtain ⟨raw, read⟩ := before 0 (Nat.succ_pos k)
      have some_ : 0 < r.chunks.length := Nat.lt_of_le_of_lt (Nat.zero_le _) (List.getElem?_eq_some_iff.mp found).1
      have found₀ : r.chunks[(UInt32.ofNat 0).toNat]? = some r.chunks[0] := List.getElem?_eq_getElem some_
      have zero := first _ (List.getElem?_eq_getElem some_)
      rw [readChunk_some found₀, position_eq (by omega)] at read
      split at read
      · split at read
        · obtain ⟨stored, taken, -⟩ := ok_of_bindO read
          have lower := (readAt_eq_ok.mp taken).1
          omega
        · cases read
      · cases read

end Data

section Changed
variable {env : ContainerEnv} {data file : Bytes} {t : Tables} {compression : UInt8} {timescale : UInt32} {uuid : Uuid}
  {p : Nat} {x : UInt8}

/-- A changed byte outside the offset of the directory is caught. -/
theorem caught_apart (shape : file = containerBytes env (superblockOf env compression timescale uuid data t) data t)
    (near : containerSize env data t < 2 ^ 63) (known : compression ≤ compressionZstd)
    (inside : ∀ c ∈ t.chunks, c.dataOffset ≤ data.length) (first : ∀ c, t.chunks[0]? = some c → c.dataOffset = 0)
    (apart : p < 40 ∨ 48 ≤ p) (separates : Separates env (file.set p x) ((.data, data) :: t.sections)) :
    Caught env file (file.set p x) := by
  have size := @containerSize_eq env data t
  have long := written_length shape
  have nearFile : file.length < 2 ^ 63 := by omega
  have nearFile' : (file.set p x).length < 2 ^ 63 := by
    rw [List.length_set]
    exact nearFile
  rw [caught_iff nearFile nearFile']
  rintro ⟨r', contents, unnoticed, differs⟩
  have faithful := contents.faithful
  have kept : ∀ {ty b}, SectionHolds env r'.file r'.sections ty b → (ty, b) ∈ (.data, data) :: t.sections := by
    rintro ty b ⟨e, found, -, rfl, hash⟩
    rw [contents.file_eq] at hash ⊢
    exact changed_section shape near apart contents separates found hash
  obtain ⟨b₁, section₁, tracks⟩ := faithful.tracks
  obtain ⟨b₂, section₂, dict⟩ := faithful.dict
  obtain ⟨b₃, section₃, chunks⟩ := faithful.chunks
  obtain ⟨b₄, section₄, segments⟩ := faithful.segments
  obtain ⟨b₅, section₅, metaPairs⟩ := faithful.metaPairs
  obtain ⟨b₆, section₆, integrity⟩ := faithful.integrity
  obtain ⟨entry, found, offset, length⟩ := faithful.data
  have written₁ : b₁ = encodeTable encodeTrack t.tracks := by simpa [Tables.sections] using kept section₁
  have written₂ : b₂ = encodeTable encodeChunkIndex t.dict := by simpa [Tables.sections] using kept section₂
  have written₃ : b₃ = encodeTable encodeChunkRow t.chunks := by simpa [Tables.sections] using kept section₃
  have written₄ : b₄ = encodeTable encodeSegment t.segments := by simpa [Tables.sections] using kept section₄
  have written₅ : b₅ = encodeTable encodeMetaPair t.metaPairs := by simpa [Tables.sections] using kept section₅
  have written₆ : b₆ = encodeIntegrity t.integrity := by simpa [Tables.sections] using kept section₆
  subst written₁ written₂ written₃ written₄ written₅ written₆
  set sb := superblockOf env compression timescale uuid data t with hsb
  set r : Reader := { openedFrom env sb data t with
    tracks := r'.tracks, dict := r'.dict, chunks := r'.chunks, segments := r'.segments
    metaPairs := r'.metaPairs, integrity := r'.integrity } with hr
  have opened : Reader.openFile env file = .ok r := by
    rw [shape, openFile_tables known near, tracks, dict, chunks, segments, metaPairs, integrity]
    rfl
  have dataLength : data.length < 2 ^ 63 := by
    rw [directoryOffset] at long
    omega
  have some_ : r'.chunks = t.chunks.take (t.chunks.length % 2 ^ 32) := by
    have read := @wireTable_taken _ "chunks" _ _ t.chunks fun c mem p =>
      readChunkRow_scans (p := p) (Nat.lt_of_le_of_lt (inside c mem) (by omega))
    exact Except.ok.inj (chunks.symm.trans read)
  have lower : ∀ c ∈ r'.chunks, c.dataOffset < 2 ^ 63 := by
    intro c mem
    rw [some_] at mem
    exact Nat.lt_of_le_of_lt (inside c (List.mem_of_mem_take mem)) dataLength
  have start : r'.dataOffset < 2 ^ 64 := by
    rw [offset]
    exact (contents.directory.fits entry (List.mem_of_find?_eq_some found)).1
  have zero : ∀ c, r'.chunks[0]? = some c → c.dataOffset = 0 := by
    intro c there
    rw [some_, List.getElem?_take] at there
    split at there
    · exact first c there
    · cases there
  rcases unnoticed with sound | overruns
  · obtain ⟨entry', found', low, full, hash⟩ := sound.data
    rw [found] at found'
    cases found'
    have whole : window (file.set p x) r'.dataOffset r'.dataLen = data := by
      rw [offset, length, contents.file_eq] at hash
      have mem := changed_section shape near apart contents separates found hash
      rw [← offset, ← length] at mem
      simpa [Tables.sections] using mem
    have holds' : r'.HoldsData data := by
      rw [contents.file_eq, whole] at full
      refine ⟨low, ?_, full, ?_⟩
      · rw [contents.file_eq]
        exact nearFile'
      · rw [contents.file_eq]
        exact whole
    have holds : r.HoldsData data := by
      have file_eq : r.file = file := shape.symm
      refine ⟨(by decide : superblockLen < 2 ^ 63), ?_, rfl, ?_⟩
      · rw [file_eq]
        exact nearFile
      · rw [file_eq, shape, containerBytes_eq env data t, List.flatMap_cons, List.append_assoc]
        exact window_middle (containerHead_length uuid.2) rfl
    exact differs r ((openFile_eq_ok nearFile).mp opened) ⟨rfl, rfl, rfl, rfl, readChunk_same rfl holds holds'⟩
  · exact not_overruns start lower zero overruns

end Changed
section Written
variable {env : ContainerEnv} {uuid : Uuid} {timescale : UInt32} {compress : Bool} {calls : List WriterCall}
  {w : ContainerWriter} {log : ChunkLog} {file : Bytes} {stats : PackStats}

/-- In a container that a writer produced, a changed byte is caught unless it is one of the offset of
the directory and leads to another one. -/
theorem corruption_caught (ran : (create uuid timescale compress).run env calls = .ok (w, log))
    (finished : w.finish env = .ok (file, stats)) (p : Nat) (x : UInt8)
    (separates : Separates env (file.set p x) ((.data, w.data) :: (w.tables env).sections))
    (lost : 40 ≤ p → p < 48 → ¬ Directed env (file.set p x)) : Caught env file (file.set p x) := by
  obtain ⟨shape, near, -⟩ := finish_ok finished
  have laid := run_laid (create_laid uuid timescale compress) ran
  have size := @containerSize_eq env w.data (w.tables env)
  have long := written_length shape
  by_cases hit : 40 ≤ p ∧ p < 48
  · rw [caught_iff (by omega) (by rw [List.length_set]; omega)]
    rintro ⟨r', contents, -⟩
    exact lost hit.1 hit.2 contents.directed
  · exact caught_apart shape near laid.known laid.inside laid.first (by omega) separates

end Written

section Sample

def partName (k : Nat) : ChunkHash := ⟨le 32 k, le_length 32 k⟩

/-- The integrity section of a container without chunks. -/
def hiddenIntegrity : Bytes := encodeIntegrity ⟨partName 0, 0, 0, 0⟩

/-- The directory of a container without chunks that stands in a payload. -/
def hiddenDirectory : List SectionEntry :=
  [⟨.data, 64, 0, partName 0⟩, ⟨.tracks, 64, 4, partName 1⟩, ⟨.dict, 64, 4, partName 1⟩, ⟨.chunks, 64, 4, partName 1⟩,
    ⟨.segments, 64, 4, partName 1⟩, ⟨.metaPairs, 64, 4, partName 1⟩, ⟨.integrity, 68, 56, partName 2⟩]

/-- A payload with a whole container in it but the superblock, and filled up so that the
offsets of the two directories differ in one byte. -/
def hidingPayload : Bytes :=
  le 4 0 ++ (hiddenIntegrity ++ (hiddenDirectory.flatMap encodeSectionEntry ++ List.replicate 20 0))

def hidingChunk : ChunkRecord := ⟨partName 3, 0, 444, 444, 0⟩

/-- The byte strings of the two containers, partName. -/
def hidingParts : List Bytes :=
  [[], le 4 0, hiddenIntegrity, hidingPayload, encodeTable encodeChunkRow [hidingChunk],
    encodeIntegrity ⟨partName 3, 1, 444, 444⟩]

/-- A hash that tells these from all others. -/
def partHash (b : Bytes) : ChunkHash := partName (hidingParts.idxOf b)

def hidingEnv : ContainerEnv := { plainEnv with hashChunk := partHash }

def hidingWriter : ContainerWriter :=
  ContainerWriter.store
    { (create zeroUuid 0 false).count hidingPayload with cas := [(partHash hidingPayload, 0)] }
    (partHash hidingPayload) hidingPayload none

def hidingFile : Bytes :=
  containerBytes hidingEnv (superblockOf hidingEnv compressionNone 0 zeroUuid hidingPayload (hidingWriter.tables hidingEnv))
    hidingPayload (hidingWriter.tables hidingEnv)

theorem partHash_inj {a b : Bytes} (known : a ∈ hidingParts) (same : partHash b = partHash a) : b = a := by
  have small : ∀ c : Bytes, hidingParts.idxOf c < 256 ^ 32 := by
    intro c
    have few : hidingParts.idxOf c ≤ 6 := List.idxOf_le_length
    omega
  have numbers := le_inj (small b) (small a) (congrArg Subtype.val same)
  exact ((List.idxOf_inj known).mp numbers.symm).symm

theorem hiding_evaluated :
    (∀ s ∈ (.data, hidingWriter.data) :: (hidingWriter.tables hidingEnv).sections, s.2 ∈ hidingParts) ∧
    (match Reader.openFile hidingEnv hidingFile with
      | .ok r => decide (r.readChunk hidingEnv 0 = .ok hidingPayload)
      | _ => false) = true ∧
    (match Reader.openFile hidingEnv (hidingFile.set 41 0) with
      | .ok r => decide (r.chunks = []) && (match r.verify hidingEnv with | .ok _ => true | _ => false)
      | _ => false) = true ∧
    41 < hidingFile.length := by
  decide +kernel

theorem hidingParts_sections : ∀ s ∈ (.data, hidingWriter.data) :: (hidingWriter.tables hidingEnv).sections,
    s.2 ∈ hidingParts := hiding_evaluated.1

theorem hiding_separates (file : Bytes) :
    Separates hidingEnv file ((.data, hidingWriter.data) :: (hidingWriter.tables hidingEnv).sections) := by
  intro s mem b _ same
  exact partHash_inj (hidingParts_sections s mem) same

theorem run_hiding : (create zeroUuid 0 false).run hidingEnv [.addChunk hidingPayload] =
    .ok (hidingWriter, [(0, hidingPayload)]) := rfl

theorem finish_hiding : ∃ stats, hidingWriter.finish hidingEnv = .ok (hidingFile, stats) := by
  obtain ⟨file, stats, finished⟩ : ∃ file stats, hidingWriter.finish hidingEnv = .ok (file, stats) := by
    apply finish_isOk
    · have texts : hidingWriter.texts hidingEnv = [] := rfl
      rw [texts]
      simp
    · decide +kernel
  obtain ⟨rfl, -, -⟩ := finish_ok finished
  exact ⟨stats, finished⟩

theorem open_hiding : (match Reader.openFile hidingEnv hidingFile with
    | .ok r => decide (r.readChunk hidingEnv 0 = .ok hidingPayload)
    | _ => false) = true := hiding_evaluated.2.1

theorem open_hidden : (match Reader.openFile hidingEnv (hidingFile.set 41 0) with
    | .ok r => decide (r.chunks = []) && (match r.verify hidingEnv with | .ok _ => true | _ => false)
    | _ => false) = true := hiding_evaluated.2.2.1

theorem not_caught_hiding : ¬ Caught hidingEnv hidingFile (hidingFile.set 41 0) := by
  have before := open_hiding
  have after := open_hidden
  rintro (⟨e, refused⟩ | ⟨r', opened', refused | ⟨r, opened, same⟩⟩)
  · rw [refused] at after
    cases after
  · obtain ⟨e, refused⟩ := refused
    rw [opened'] at after
    dsimp only at after
    rw [refused, Bool.and_false] at after
    cases after
  · rw [opened'] at after
    rw [opened] at before
    have none_ : r'.chunks = [] := of_decide_eq_true (Bool.and_eq_true_iff.mp after).1
    have read : r.readChunk hidingEnv 0 = .ok hidingPayload := of_decide_eq_true before
    have gone : r'.readChunk hidingEnv 0 = .error (.chunkIndexOutOfRange 0) := readChunk_none (by rw [none_]; rfl)
    rw [same.chunks 0, read] at gone
    cases gone

theorem hiding_lost : 7 * sectionDirEntryLen + ofLe (window (hidingFile.set 41 3) 40 8) > (hidingFile.set 41 3).length ∧
    ofLe (window (hidingFile.set 41 3) 36 4) = 7 := by
  decide +kernel

/-- A byte of the payload, and one of the offset that leads too close to the end. -/
theorem corruption_caught_hiding : Caught hidingEnv hidingFile (hidingFile.set 100 1) ∧
    Caught hidingEnv hidingFile (hidingFile.set 41 3) := by
  obtain ⟨stats, finished⟩ := finish_hiding
  refine ⟨corruption_caught run_hiding finished 100 1 (hiding_separates _) (fun _ less => absurd less (by decide)),
    corruption_caught run_hiding finished 41 3 (hiding_separates _) fun _ _ => ?_⟩
  rintro ⟨sections, directory, -⟩
  have inside := directory.inside
  obtain ⟨far, count⟩ := hiding_lost
  rw [count] at inside
  omega

/-- One changed byte of the offset leads into a payload. -/
theorem not_corruption_caught : ¬ ∀ (env : ContainerEnv) (uuid : Uuid) (timescale : UInt32) (compress : Bool)
    (calls : List WriterCall) (w : ContainerWriter) (log : ChunkLog) (file : Bytes) (stats : PackStats) (p : Nat)
    (x : UInt8), (create uuid timescale compress).run env calls = .ok (w, log) →
    w.finish env = .ok (file, stats) → p < file.length → ¬ Unauthenticated p →
    Separates env (file.set p x) ((.data, w.data) :: (w.tables env).sections) → Caught env file (file.set p x) := by
  intro caught
  obtain ⟨stats, finished⟩ := finish_hiding
  have long : 41 < hidingFile.length := hiding_evaluated.2.2.2
  have counts : ¬ Unauthenticated 41 := by
    rw [Unauthenticated]
    omega
  exact not_caught_hiding
    (caught hidingEnv zeroUuid 0 false _ _ _ _ _ 41 0 run_hiding finished long counts (hiding_separates _))

end Sample
end Cavs
