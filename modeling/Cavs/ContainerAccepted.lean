import Cavs.ContainerSafe
import Cavs.ContainerCodec

/-!
# What an accepted file says

Opening and verifying a container come down to facts about the bytes of the file: where its
directory stands, which bytes that directory names by their hash, and what these decode to.
-/
namespace Cavs
open FileProg (Bytes)
open ByteScan
open Outcome (ok_bind ok_of_bindO pure_eq)

section Windows
variable {file b front back : Bytes} {pos n p : Nat}

/-- The next `n` bytes from a position on, as far as there are any. -/
def window (file : Bytes) (pos n : Nat) : Bytes := (file.drop pos).take n

theorem window_length (inside : pos + n ≤ file.length) : (window file pos n).length = n := by
  rw [window, List.length_take, List.length_drop]
  omega

theorem window_middle (start : front.length = pos) (long : b.length = n) :
    window (front ++ (b ++ back)) pos n = b := by
  rw [window, List.drop_left' start, List.take_left' long]

theorem window_window {start m : Nat} (inside : start + m ≤ n) :
    window (window file pos n) start m = window file (pos + start) m := by
  rw [window, window, window, List.drop_take, List.drop_drop, List.take_take]
  congr 1
  omega

theorem window_infix : window file pos n <:+: file :=
  (List.take_prefix n _).isInfix.trans (List.drop_suffix pos file).isInfix

/-- A byte outside a window does not change it. -/
theorem window_set {x : UInt8} (apart : p < pos ∨ pos + n ≤ p) : window (file.set p x) pos n = window file pos n := by
  rw [window, window]
  rcases apart with before | behind
  · rw [List.drop_set_of_lt before]
  · rw [List.drop_set, if_neg (by omega), List.take_set_of_le (by omega)]

/-- A window on the encoding of one item among items of one width. -/
theorem window_flatMap {α : Type} {enc : α → Bytes} {w k : Nat} {l : List α} {x : α}
    (wide : ∀ x, (enc x).length = w) (found : l[k]? = some x) : window (l.flatMap enc) (k * w) w = enc x := by
  obtain ⟨within, rfl⟩ := List.getElem?_eq_some_iff.mp found
  have split : l = l.take k ++ l[k] :: l.drop (k + 1) := by
    rw [List.getElem_cons_drop, List.take_append_drop]
  have start : ((l.take k).flatMap enc).length = k * w := by
    rw [length_flatMap_const wide, List.length_take_of_le (Nat.le_of_lt within)]
  have middle := @window_middle (enc l[k]) _ ((l.drop (k + 1)).flatMap enc) _ _ start (wide l[k])
  rw [← List.flatMap_cons, ← List.flatMap_append, ← split] at middle
  exact middle

theorem readAt_eq_ok : readAt file pos n = .ok b ↔ pos < 2 ^ 63 ∧ window file pos n = b ∧ b.length = n := by
  rw [readAt]
  by_cases far : 2 ^ 63 ≤ pos
  · rw [if_pos far]
    simp only [reduceCtorEq, false_iff]
    omega
  · rw [if_neg far]
    change (if (window file pos n).length = n then Outcome.ok (window file pos n) else _) = _ ↔ _
    split
    · rename_i long
      rw [Outcome.ok.injEq]
      constructor
      · rintro rfl
        exact ⟨Nat.lt_of_not_le far, rfl, long⟩
      · exact fun h => h.2.1
    · rename_i short
      simp only [reduceCtorEq, false_iff]
      rintro ⟨-, rfl, long⟩
      exact short long

theorem placeIn_eq_ok {fileLen offset length : Nat} {what : String} {place : Nat × Nat} :
    placeIn fileLen offset length what = .ok place ↔ offset + length ≤ fileLen ∧ place = (offset, length) := by
  rw [placeIn]
  split
  · simp only [reduceCtorEq, false_iff]
    omega
  · rw [checkedSub, if_pos (by omega), ok_bind]
    split
    · simp only [reduceCtorEq, false_iff]
      omega
    · rw [pure_eq, Outcome.ok.injEq]
      constructor
      · rintro rfl
        exact ⟨by omega, rfl⟩
      · exact fun h => h.2.symm

end Windows

section Directory
variable {file : Bytes} {sections : List SectionEntry} {offset count : Nat}

/-- So many entries of a directory stand at an offset. -/
structure DirectoryAt (file : Bytes) (offset count : Nat) (sections : List SectionEntry) : Prop where
  inside : offset + count * sectionDirEntryLen ≤ file.length
  counted : sections.length = count
  entries : window file offset (count * sectionDirEntryLen) = sections.flatMap encodeSectionEntry
  fits : ∀ e ∈ sections, e.Fits

theorem ok_of_hash {what : String} {s t : Unit} {c d : Cursor} {h : ChunkHash}
    (run : wireHash what s c = (.ok (h, d), t)) : c.rest = h.1 ++ d.rest := by
  obtain ⟨b, c', u, taken, last⟩ := ok_of_bind run
  obtain ⟨split, -, -, -⟩ := ok_of_take taken
  obtain ⟨hash, rfl, -⟩ := ok_of_option last
  unfold hashOf at hash
  split at hash
  · cases hash
    exact split
  · cases hash

theorem ok_of_sectionEntry {s t : Unit} {c d : Cursor} {e : SectionEntry}
    (run : readSectionEntry s c = (.ok (e, d), t)) : e.Fits ∧ c.rest = encodeSectionEntry e ++ d.rest := by
  obtain ⟨ty, c₁, s₁, typed, run⟩ := ok_of_bind run
  obtain ⟨sectionType, c₂, s₂, known, run⟩ := ok_of_bind run
  obtain ⟨start, c₃, s₃, offset, run⟩ := ok_of_bind run
  obtain ⟨long, c₄, s₄, length, run⟩ := ok_of_bind run
  obtain ⟨hash, c₅, s₅, hashed, run⟩ := ok_of_bind run
  cases run
  obtain ⟨first, -, -⟩ := ok_of_num typed
  obtain ⟨known, rfl, -⟩ := ok_of_option known
  obtain ⟨second, near, -⟩ := ok_of_num offset
  obtain ⟨third, short, -⟩ := ok_of_num length
  have same : ty = sectionType.toNat := by
    unfold SectionType.fromU32 at known
    split at known <;> cases known <;> rfl
  refine ⟨⟨near, short⟩, ?_⟩
  rw [first, second, third, ok_of_hash hashed, same, encodeSectionEntry]
  simp only [List.append_assoc]

/-- What is read where the directory stands. -/
theorem directoryAt_iff (inside : offset + count * sectionDirEntryLen ≤ file.length) :
    runSection (Scan.collect count readSectionEntry) (window file offset (count * sectionDirEntryLen)) = .ok sections ↔
      DirectoryAt file offset count sections := by
  constructor
  · intro read
    obtain ⟨c, t, run⟩ := runSection_ok read
    obtain ⟨counted, fits, split⟩ := ok_of_collect (fun run => ok_of_sectionEntry run) run
    refine ⟨inside, counted, ?_, fits⟩
    have lengths := congrArg List.length split
    rw [window_length inside, List.length_append, length_flatMap_const encodeSectionEntry_length, counted] at lengths
    have nothing : c.rest = [] := List.eq_nil_of_length_eq_zero (by omega)
    rw [nothing, List.append_nil] at split
    exact split
  · intro h
    rw [h.entries, ← h.counted]
    have rows := Scans.collect (s := ()) encodeSectionEntry id sections
      (fun e mem p => readSectionEntry_scans (p := p) (h.fits e mem)) 0
    rw [List.map_id] at rows
    exact runSection_whole rows

end Directory

section Spec
variable (env : ContainerEnv)

/-- The directory names these bytes, which are in the file, by their hash. -/
def SectionHolds (file : Bytes) (sections : List SectionEntry) (ty : SectionType) (b : Bytes) : Prop :=
  ∃ entry, sections.find? (fun s => s.sectionType = ty) = some entry ∧
    entry.offset + entry.length ≤ file.length ∧ window file entry.offset entry.length = b ∧
    env.hashChunk b = entry.hash

/-- The superblock is one that a reader goes on with. -/
structure Headed (file : Bytes) (sb : Superblock) : Prop where
  long : superblockLen ≤ file.length
  magic : window file 0 4 = containerMagic
  superblock : runSection readSuperblock (window file 4 60) = .ok sb
  accepted : checkSuperblock file.length sb = .ok ()

/-- Each table is what the section that is named for it decodes to. -/
structure Reader.Faithful (r : Reader) : Prop where
  tracks : ∃ b, SectionHolds env r.file r.sections .tracks b ∧ decodeTracks b = .ok r.tracks
  dict : ∃ b, SectionHolds env r.file r.sections .dict b ∧ decodeDict b = .ok r.dict
  chunks : ∃ b, SectionHolds env r.file r.sections .chunks b ∧ decodeChunks b = .ok r.chunks
  segments : ∃ b, SectionHolds env r.file r.sections .segments b ∧ decodeSegments b = .ok r.segments
  metaPairs : ∃ b, SectionHolds env r.file r.sections .metaPairs b ∧ decodeMeta b = .ok r.metaPairs
  integrity : ∃ b, SectionHolds env r.file r.sections .integrity b ∧ decodeIntegrity b = .ok r.integrity
  data : ∃ entry, r.sections.find? (fun s => s.sectionType = .data) = some entry ∧
    r.dataOffset = entry.offset ∧ r.dataLen = entry.length

/-- What a file says: its superblock, the directory that the superblock points to and the
tables that the directory names. -/
structure Contents (file : Bytes) (r : Reader) : Prop where
  checks : r.overflowChecks = env.overflowChecks
  file_eq : r.file = file
  headed : Headed file r.superblock
  directory : DirectoryAt file r.superblock.sectionDirOffset r.superblock.sectionCount r.sections
  faithful : r.Faithful env

/-- Every chunk reads back, they have the declared root and number, and the data section has
its hash. -/
structure Reader.Sound (r : Reader) : Prop where
  chunks : ∀ k < r.chunks.length, ∃ raw, r.readChunk env (UInt32.ofNat k) = .ok raw
  root : merkleRoot env.hashChunk (r.chunks.map ChunkRecord.hash) = r.integrity.merkleRoot
  count : r.integrity.chunkCount = r.chunks.length
  data : ∃ entry, r.sections.find? (fun s => s.sectionType = .data) = some entry ∧ r.dataOffset < 2 ^ 63 ∧
    (window r.file r.dataOffset r.dataLen).length = r.dataLen ∧
    env.hashChunk (window r.file r.dataOffset r.dataLen) = entry.hash

/-- Behind chunks that read back comes one whose place in the file is no number of 64 bits. -/
def Reader.Overruns (r : Reader) : Prop :=
  ∃ k c, r.chunks[k]? = some c ∧ (∀ j < k, ∃ raw, r.readChunk env (UInt32.ofNat j) = .ok raw) ∧ r.Bounded c ∧
    2 ^ 64 ≤ r.position c

end Spec

section Open
variable {env : ContainerEnv} {file b : Bytes} {r : Reader} {sections : List SectionEntry} {ty : SectionType}

theorem findSection_eq_ok {entry : SectionEntry} : findSection sections ty = .ok entry ↔
    sections.find? (fun s => s.sectionType = ty) = some entry := by
  rw [findSection]
  cases sections.find? fun s => s.sectionType = ty with
  | none => simp [Outcome.ofOption]
  | some found => simp [Outcome.ofOption]

theorem readSection_eq_ok (near : file.length < 2 ^ 63) :
    readSection env file sections ty = .ok b ↔ SectionHolds env file sections ty b := by
  constructor
  · intro read
    rw [readSection] at read
    obtain ⟨entry, found, read⟩ := ok_of_bindO read
    obtain ⟨place, placed, read⟩ := ok_of_bindO read
    obtain ⟨inside, rfl⟩ := placeIn_eq_ok.mp placed
    obtain ⟨bytes, taken, read⟩ := ok_of_bindO read
    split at read
    · cases read
    · rename_i same
      cases read
      exact ⟨entry, findSection_eq_ok.mp found, inside, (readAt_eq_ok.mp taken).2.1, not_not.mp same⟩
  · rintro ⟨entry, found, inside, rfl, hash⟩
    have placed : sectionPlace file.length entry = .ok (entry.offset, entry.length) :=
      placeIn_eq_ok.mpr ⟨inside, rfl⟩
    have taken : readAt file entry.offset entry.length = .ok (window file entry.offset entry.length) :=
      readAt_eq_ok.mpr ⟨by omega, rfl, window_length inside⟩
    rw [readSection, findSection_eq_ok.mpr found, ok_bind, placed, ok_bind]
    dsimp only
    rw [taken, ok_bind, if_neg (not_not.mpr hash)]
    rfl

theorem ofExcept_eq_ok {α : Type} {x : Except FormatError α} {a : α} : Outcome.ofExcept x = .ok a ↔ x = .ok a := by
  cases x with
  | error e => simp [Outcome.ofExcept]
  | ok found => simp [Outcome.ofExcept]

theorem head_magic : (window file 0 superblockLen).take 4 = window file 0 4 := by
  rw [window, window, List.take_take]
  rfl

theorem head_fields : (window file 0 superblockLen).drop 4 = window file 4 60 := by
  rw [window, window, List.drop_take, List.drop_drop]
  rfl

/-- A file is opened to what it says. -/
theorem openFile_eq_ok (near : file.length < 2 ^ 63) : Reader.openFile env file = .ok r ↔ Contents env file r := by
  constructor
  · intro opened
    rw [Reader.openFile] at opened
    obtain ⟨head, first, opened⟩ := ok_of_bindO opened
    obtain ⟨-, rfl, long⟩ := readAt_eq_ok.mp first
    split at opened
    · cases opened
    rename_i magic
    obtain ⟨sb, decoded, opened⟩ := ok_of_bindO opened
    obtain ⟨⟨⟩, accepted, opened⟩ := ok_of_bindO opened
    obtain ⟨place, placed, opened⟩ := ok_of_bindO opened
    obtain ⟨dirBytes, taken, opened⟩ := ok_of_bindO opened
    obtain ⟨sections, listed, opened⟩ := ok_of_bindO opened
    obtain ⟨b₁, section₁, opened⟩ := ok_of_bindO opened
    obtain ⟨tracks, decoded₁, opened⟩ := ok_of_bindO opened
    obtain ⟨b₂, section₂, opened⟩ := ok_of_bindO opened
    obtain ⟨dict, decoded₂, opened⟩ := ok_of_bindO opened
    obtain ⟨b₃, section₃, opened⟩ := ok_of_bindO opened
    obtain ⟨chunks, decoded₃, opened⟩ := ok_of_bindO opened
    obtain ⟨b₄, section₄, opened⟩ := ok_of_bindO opened
    obtain ⟨segments, decoded₄, opened⟩ := ok_of_bindO opened
    obtain ⟨b₅, section₅, opened⟩ := ok_of_bindO opened
    obtain ⟨metaPairs, decoded₅, opened⟩ := ok_of_bindO opened
    obtain ⟨b₆, section₆, opened⟩ := ok_of_bindO opened
    obtain ⟨integrity, decoded₆, opened⟩ := ok_of_bindO opened
    obtain ⟨data, found, opened⟩ := ok_of_bindO opened
    cases opened
    refine ⟨rfl, rfl, ?_, ?_, ?_⟩
    · constructor
      · rw [window, List.length_take, List.length_drop] at long
        omega
      · rw [← head_magic]
        exact not_not.mp magic
      · rw [← head_fields]
        exact ofExcept_eq_ok.mp decoded
      · exact accepted
    · rw [directoryPlace] at placed
      obtain ⟨dirLen, fits, placed⟩ := ok_of_bindO placed
      rw [checked] at fits
      split at fits
      · cases fits
        obtain ⟨inside, rfl⟩ := placeIn_eq_ok.mp placed
        obtain ⟨-, rfl, -⟩ := readAt_eq_ok.mp taken
        exact (directoryAt_iff inside).mp (ofExcept_eq_ok.mp listed)
      · cases fits
    · constructor
      · exact ⟨b₁, (readSection_eq_ok near).mp section₁, ofExcept_eq_ok.mp decoded₁⟩
      · exact ⟨b₂, (readSection_eq_ok near).mp section₂, ofExcept_eq_ok.mp decoded₂⟩
      · exact ⟨b₃, (readSection_eq_ok near).mp section₃, ofExcept_eq_ok.mp decoded₃⟩
      · exact ⟨b₄, (readSection_eq_ok near).mp section₄, ofExcept_eq_ok.mp decoded₄⟩
      · exact ⟨b₅, (readSection_eq_ok near).mp section₅, ofExcept_eq_ok.mp decoded₅⟩
      · exact ⟨b₆, (readSection_eq_ok near).mp section₆, ofExcept_eq_ok.mp decoded₆⟩
      · exact ⟨data, findSection_eq_ok.mp found, rfl, rfl⟩
  · rintro ⟨checks, rfl, headed, directory, faithful⟩
    obtain ⟨b₁, section₁, decoded₁⟩ := faithful.tracks
    obtain ⟨b₂, section₂, decoded₂⟩ := faithful.dict
    obtain ⟨b₃, section₃, decoded₃⟩ := faithful.chunks
    obtain ⟨b₄, section₄, decoded₄⟩ := faithful.segments
    obtain ⟨b₅, section₅, decoded₅⟩ := faithful.metaPairs
    obtain ⟨b₆, section₆, decoded₆⟩ := faithful.integrity
    obtain ⟨entry, found, offset, length⟩ := faithful.data
    have inside := directory.inside
    have first : readAt r.file 0 superblockLen = .ok (window r.file 0 superblockLen) :=
      readAt_eq_ok.mpr ⟨by decide, rfl, window_length (by rw [Nat.zero_add]; exact headed.long)⟩
    have magic := headed.magic
    have decoded := headed.superblock
    rw [← head_magic] at magic
    rw [← head_fields] at decoded
    have place : directoryPlace r.file.length r.superblock =
        .ok (r.superblock.sectionDirOffset, r.superblock.sectionCount * sectionDirEntryLen) := by
      rw [directoryPlace, checked, if_pos (by omega), ok_bind]
      exact placeIn_eq_ok.mpr ⟨inside, rfl⟩
    have taken : readAt r.file r.superblock.sectionDirOffset (r.superblock.sectionCount * sectionDirEntryLen) =
        .ok (window r.file r.superblock.sectionDirOffset (r.superblock.sectionCount * sectionDirEntryLen)) :=
      readAt_eq_ok.mpr ⟨by omega, rfl, window_length inside⟩
    have listed := (directoryAt_iff inside).mpr directory
    rw [Reader.openFile, first, ok_bind, if_neg (not_not.mpr magic), decoded]
    simp only [Outcome.ofExcept, ok_bind, headed.accepted, place, taken, listed,
      (readSection_eq_ok near).mpr section₁, (readSection_eq_ok near).mpr section₂,
      (readSection_eq_ok near).mpr section₃, (readSection_eq_ok near).mpr section₄,
      (readSection_eq_ok near).mpr section₅, (readSection_eq_ok near).mpr section₆, decoded₁, decoded₂, decoded₃,
      decoded₄, decoded₅, decoded₆, findSection_eq_ok.mpr found, ← offset, ← length, ← checks]
    rfl

end Open
section Verify
variable {env : ContainerEnv} {r : Reader} {i : UInt32} {c : ChunkRecord}

/-- What a stored form is unpacked to, checked against its record. -/
def unpackChunk (env : ContainerEnv) (i : UInt32) (c : ChunkRecord) (stored : Bytes) : FormatResult Bytes :=
  match unpackStored env c.flags c.lenRaw stored with
  | .error e => .error (.zstd e)
  | .ok raw =>
      if raw.length ≠ c.lenRaw.toNat ∨ env.hashChunk raw ≠ c.hash then .error (.chunkHashMismatch i) else .ok raw

theorem unpackChunk_returns (bounded : r.Bounded c) {stored : Bytes} :
    (unpackChunk env i c stored).Returns fun raw => raw.length ≤ maxChunkRaw := by
  rw [unpackChunk]
  cases unpackStored env c.flags c.lenRaw stored with
  | error e => trivial
  | ok raw =>
      dsimp only
      split
      · trivial
      · rename_i fine
        have long : raw.length = c.lenRaw.toNat := not_not.mp fun differs => fine (.inl differs)
        change raw.length ≤ maxChunkRaw
        rw [long]
        exact bounded.2

theorem readChunk_some (found : r.chunks[i.toNat]? = some c) : r.readChunk env i =
    if r.Bounded c then
      if r.position c < 2 ^ 64 then
        readAt r.file (r.position c) c.lenStored.toNat >>= unpackChunk env i c
      else .panics
    else .error (.malformed "chunk bounds") := by
  rw [Reader.readChunk, Reader.readChunkStored, chunkPlace_some found]
  by_cases bounded : r.Bounded c
  · rw [if_pos bounded, if_pos bounded]
    by_cases fits : r.position c < 2 ^ 64
    · rw [if_pos fits, if_pos fits]
      by_cases far : 2 ^ 63 ≤ r.position c
      · rw [if_pos far, readAt, if_pos far]
        rfl
      · rw [if_neg far, ok_bind]
        dsimp only
        cases readAt r.file (r.position c) c.lenStored.toNat with
        | error e => rfl
        | panics => rfl
        | ok stored =>
            cases done : unpackStored env c.flags c.lenRaw stored with
            | error _ | ok _ => simp only [ok_bind, pure_eq, unpackChunk, Reader.chunkAt, found, done]
    · rw [if_neg fits, if_neg fits]
      rfl
  · rw [if_neg bounded, if_neg bounded]
    rfl

theorem readChunk_none (absent : r.chunks[i.toNat]? = none) : r.readChunk env i = .error (.chunkIndexOutOfRange i) := by
  rw [Reader.readChunk, Reader.readChunkStored, chunkPlace_none absent]
  rfl

theorem readChunk_panics : r.readChunk env i = .panics ↔
    ∃ c, r.chunks[i.toNat]? = some c ∧ r.Bounded c ∧ 2 ^ 64 ≤ r.position c := by
  cases found : r.chunks[i.toNat]? with
  | none => simp [readChunk_none found]
  | some c =>
      rw [readChunk_some found]
      by_cases bounded : r.Bounded c
      · rw [if_pos bounded]
        by_cases fits : r.position c < 2 ^ 64
        · rw [if_pos fits]
          have returns : (readAt r.file (r.position c) c.lenStored.toNat >>=
              unpackChunk env i c).Returns fun raw => raw.length ≤ maxChunkRaw :=
            Outcome.Returns.bind readAt_returns fun _ _ => unpackChunk_returns bounded
          constructor
          · intro panics
            rw [panics] at returns
            exact returns.elim
          · rintro ⟨c', same, -, far⟩
            cases same
            omega
        · rw [if_neg fits]
          exact iff_of_true rfl ⟨c, rfl, bounded, Nat.le_of_not_lt fits⟩
      · rw [if_neg bounded]
        simp only [reduceCtorEq, Option.some.injEq, false_iff]
        rintro ⟨c', rfl, bounded', -⟩
        exact bounded bounded'

theorem readChunk_short {raw : Bytes} (read : r.readChunk env i = .ok raw) : raw.length ≤ maxChunkRaw := by
  cases found : r.chunks[i.toNat]? with
  | none =>
      rw [readChunk_none found] at read
      cases read
  | some c =>
      rw [readChunk_some found] at read
      split at read
      · rename_i bounded
        split at read
        · obtain ⟨stored, -, unpacked⟩ := ok_of_bindO read
          have returns : (unpackChunk env i c stored).Returns fun raw => raw.length ≤ maxChunkRaw :=
            unpackChunk_returns bounded
          rw [unpacked] at returns
          exact returns
        · cases read
      · cases read

theorem countBytes_ok {left index bytes : Nat} (room : bytes + left * maxChunkRaw < 2 ^ 64) :
    (∃ n, r.countBytes env left index bytes = .ok n) ↔
      ∀ k, index ≤ k → k < index + left → ∃ raw, r.readChunk env (UInt32.ofNat k) = .ok raw := by
  induction left generalizing index bytes with
  | zero =>
      refine iff_of_true ⟨bytes, rfl⟩ fun k from_ to_ => ?_
      omega
  | succ left ih =>
      rw [Nat.succ_mul] at room
      rw [Reader.countBytes]
      constructor
      · rintro ⟨n, counted⟩ k from_ to_
        obtain ⟨raw, read, counted⟩ := ok_of_bindO counted
        have short := readChunk_short read
        rw [checked, if_pos (by omega), ok_bind] at counted
        rcases Nat.eq_or_lt_of_le from_ with rfl | later
        · exact ⟨raw, read⟩
        · exact (ih (by omega)).mp ⟨n, counted⟩ k later (by omega)
      · intro all
        obtain ⟨raw, read⟩ := all index (Nat.le_refl _) (by omega)
        have short := readChunk_short read
        rw [read, ok_bind, checked, if_pos (by omega), ok_bind]
        exact (ih (by omega)).mpr fun k from_ to_ => all k (by omega) (by omega)

/-- Counting ends the program at the first chunk that does. -/
theorem countBytes_panics {left index bytes : Nat} (room : bytes + left * maxChunkRaw < 2 ^ 64) :
    r.countBytes env left index bytes = .panics ↔ ∃ k, index ≤ k ∧ k < index + left ∧
      (∀ j, index ≤ j → j < k → ∃ raw, r.readChunk env (UInt32.ofNat j) = .ok raw) ∧
      r.readChunk env (UInt32.ofNat k) = .panics := by
  induction left generalizing index bytes with
  | zero =>
      simp only [Reader.countBytes, pure_eq, reduceCtorEq, false_iff]
      rintro ⟨k, from_, to_, -⟩
      omega
  | succ left ih =>
      rw [Nat.succ_mul] at room
      rw [Reader.countBytes]
      cases read : r.readChunk env (UInt32.ofNat index) with
      | panics =>
          refine iff_of_true rfl ⟨index, Nat.le_refl _, by omega, fun j from_ to_ => ?_, read⟩
          omega
      | error e =>
          simp only [Outcome.error_bind, reduceCtorEq, false_iff]
          rintro ⟨k, from_, to_, before, panics⟩
          rcases Nat.eq_or_lt_of_le from_ with rfl | later
          · rw [read] at panics
            cases panics
          · obtain ⟨raw, ok⟩ := before index (Nat.le_refl _) later
            rw [read] at ok
            cases ok
      | ok raw =>
          have short := readChunk_short read
          rw [ok_bind, checked, if_pos (by omega), ok_bind, ih (by omega)]
          constructor
          · rintro ⟨k, from_, to_, before, panics⟩
            refine ⟨k, by omega, by omega, fun j from' to' => ?_, panics⟩
            rcases Nat.eq_or_lt_of_le from' with rfl | later
            · exact ⟨raw, read⟩
            · exact before j later to'
          · rintro ⟨k, from_, to_, before, panics⟩
            rcases Nat.eq_or_lt_of_le from_ with rfl | later
            · rw [read] at panics
              cases panics
            · exact ⟨k, later, by omega, fun j from' to' => before j (by omega) to', panics⟩

variable (few : r.chunks.length < 2 ^ 32)
include few

theorem counts_room : 0 + r.chunks.length * maxChunkRaw < 2 ^ 64 := by
  rw [maxChunkRaw]
  omega

theorem verify_ok : (∃ report, r.verify env = .ok report) ↔ r.Sound env := by
  have all := @countBytes_ok env r _ 0 0 (counts_room few)
  rw [Reader.verify, ofNat_toNat few]
  constructor
  · rintro ⟨report, verified⟩
    obtain ⟨bytes, counted, verified⟩ := ok_of_bindO verified
    split at verified
    · cases verified
    rename_i declared
    obtain ⟨entry, found, verified⟩ := ok_of_bindO verified
    obtain ⟨data, taken, verified⟩ := ok_of_bindO verified
    obtain ⟨near, rfl, long⟩ := readAt_eq_ok.mp taken
    split at verified
    · cases verified
    rename_i hash
    constructor
    · intro k within
      exact all.mp ⟨bytes, counted⟩ k (Nat.zero_le k) (by omega)
    · exact not_not.mp fun differs => declared (.inl differs)
    · exact not_not.mp fun differs => declared (.inr differs)
    · exact ⟨entry, findSection_eq_ok.mp found, near, long, not_not.mp hash⟩
  · intro sound
    obtain ⟨bytes, counted⟩ := all.mpr fun k _ within => sound.chunks k (by omega)
    obtain ⟨entry, found, near, long, hash⟩ := sound.data
    have declared : ¬ (merkleRoot env.hashChunk (r.chunks.map ChunkRecord.hash) ≠ r.integrity.merkleRoot ∨
        r.integrity.chunkCount ≠ r.chunks.length) := by
      rintro (root | count)
      · exact root sound.root
      · exact count sound.count
    rw [counted, ok_bind, if_neg declared, findSection_eq_ok.mpr found, ok_bind,
      readAt_eq_ok.mpr ⟨near, rfl, long⟩, ok_bind, if_neg (not_not.mpr hash)]
    exact ⟨_, rfl⟩

theorem verify_panics : r.verify env = .panics ↔ r.Overruns env := by
  have counting := @countBytes_panics env r _ 0 0 (counts_room few)
  have same : r.verify env = .panics ↔ r.countBytes env r.chunks.length 0 0 = .panics := by
    rw [Reader.verify, ofNat_toNat few]
    cases r.countBytes env r.chunks.length 0 0 with
    | error e => simp
    | panics => simp
    | ok bytes =>
        simp only [ok_bind, reduceCtorEq, iff_false]
        intro panics
        have returns : (if merkleRoot env.hashChunk (r.chunks.map ChunkRecord.hash) ≠ r.integrity.merkleRoot ∨
            r.integrity.chunkCount ≠ r.chunks.length then .error .merkleMismatch
          else do
            let data ← findSection r.sections .data
            let dataBytes ← readAt r.file r.dataOffset r.dataLen
            if env.hashChunk dataBytes ≠ data.hash then .error (.sectionHashMismatch .data)
            else return ⟨r.chunks.length, bytes, true, true⟩ : FormatResult VerifyReport).Returns fun _ => True := by
          split
          · trivial
          · refine .bind findSection_returns fun data _ => ?_
            refine .bind readAt_returns fun dataBytes _ => ?_
            split <;> trivial
        rw [panics] at returns
        exact returns
  rw [same, counting, Reader.Overruns]
  constructor
  · rintro ⟨k, -, within, before, panics⟩
    obtain ⟨c, found, bounded, far⟩ := readChunk_panics.mp panics
    rw [ofNat_toNat (by omega)] at found
    exact ⟨k, c, found, fun j earlier => before j (Nat.zero_le j) earlier, bounded, far⟩
  · rintro ⟨k, c, found, before, bounded, far⟩
    have within : k < r.chunks.length := (List.getElem?_eq_some_iff.mp found).1
    refine ⟨k, Nat.zero_le k, by omega, fun j _ earlier => before j earlier, readChunk_panics.mpr ⟨c, ?_, bounded, far⟩⟩
    rw [ofNat_toNat (by omega)]
    exact found

end Verify
end Cavs
