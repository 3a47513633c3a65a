import Cavs.PlanCodec
import Cavs.Signature

/-!
# Reading a signature back

A signature that was written is read back exactly when it keeps to the limits of the
decoder: then every field is what was written, but for a symlink target that is empty, which
reads as none.
-/
namespace Cavs.Signature
open FileProg (Bytes)
open ByteScan
open Takes (guard of_scans)

section Parts

theorem readVar_takes (n : Nat) : Takes readVar () (writeVar n) n (n < 2 ^ 64) :=
  Leb.read_takes _ _ _ () n

theorem readVar_word {n : Nat} (small : n < 2 ^ 64) : Takes readVar () (writeVar n) n True :=
  (readVar_takes n).congr (iff_true_intro small)

theorem readStr_takes (s : String) : Takes readStr () (writeStr s) s ((strBytes s).length ≤ 2 ^ 16) :=
  takes_str (readVar_takes _)

theorem readByte_scans (what : String) (b : UInt8) (p : Nat) : Scans (readByte what) () p [b] b.toNat () :=
  Scans.bind_pure (.take rfl) (.pure b.toNat)

theorem readFlag_scans (what : String) (b : Bool) (p : Nat) : Scans (readFlag what) () p (writeFlag b) b () := by
  refine .bind_pure (readByte_scans what _ p) ?_
  cases b <;> exact .pure _

theorem readHash_scans (what : String) (h : ChunkHash) (p : Nat) : Scans (readHash what) () p h.1 h () :=
  Scans.bind_pure (.take h.2) (.ofOption (dif_pos h.2))

theorem readKind_scans (k : EntryKind) (p : Nat) : Scans readKind () p [kindToU8 k] k () := by
  refine .bind_pure (readByte_scans _ _ p) (.ofOption ?_)
  cases k <;> rfl

theorem readSourceHash_scans (o : Option ChunkHash) (p : Nat) :
    Scans readSourceHash () p (writeSourceHash o) o () := by
  cases o with
  | none => exact .bind_pure (readFlag_scans _ false p) (.pure none)
  | some h =>
      refine .bind (b := [1]) (readFlag_scans _ true p) ?_
      exact .bind_pure (readHash_scans _ h _) (.pure _)

theorem readCount_takes {max : Nat} (word : max < 2 ^ 64) (what : String) (n : Nat) :
    Takes (readCount max what) () (writeVar n) n (n ≤ max) := by
  refine (Takes.last (readVar_takes n) fun _ => guard fun _ => Takes.pure n).congr ?_
  rw [and_true, Nat.not_lt]
  exact and_iff_right_of_imp fun few => few.trans_lt word

end Parts

section Tables

/-- An entry as it is read back. -/
def SignatureEntry.readBack (e : SignatureEntry) : SignatureEntry :=
  { e with symlinkTarget := if e.symlinkTarget.getD "" = "" then none else some (e.symlinkTarget.getD "") }

/-- Entries with ids of their own, and with texts that are short enough. -/
def EntriesFit : (seen : List UInt32) → List SignatureEntry → Prop
  | _, [] => True
  | seen, e :: rest =>
      e.entryId ∉ seen ∧ (strBytes e.path).length ≤ 2 ^ 16 ∧ (strBytes (e.symlinkTarget.getD "")).length ≤ 2 ^ 16 ∧
        EntriesFit (e.entryId :: seen) rest

theorem readEntries_takes (entries : List SignatureEntry) (seen : List UInt32) :
    Takes (readEntries entries.length seen) () (entries.flatMap writeEntry)
      (entries.map SignatureEntry.readBack) (EntriesFit seen entries) := by
  induction entries generalizing seen with
  | nil => exact .pure []
  | cons e entries ih =>
      have id : ¬ e.entryId.toNat > 2 ^ 32 - 1 := by
        have := e.entryId.toNat_lt
        omega
      have word : e.entryId.toNat < 2 ^ 64 := e.entryId.toNat_lt.trans (by decide)
      have row : Takes (pure ((⟨UInt32.ofNat e.entryId.toNat, e.path, e.kind, UInt64.ofNat e.size.toNat, e.executable,
          if e.symlinkTarget.getD "" = "" then none else some (e.symlinkTarget.getD "")⟩ : SignatureEntry) ::
            entries.map SignatureEntry.readBack) : SigScan (List SignatureEntry)) () []
          ((e :: entries).map SignatureEntry.readBack) True := by
        rw [UInt32.ofNat_toNat, UInt64.ofNat_toNat]
        exact .pure _
      rw [List.flatMap_cons]
      simp only [writeEntry, List.append_assoc]
      refine (Takes.bind (readVar_word word) fun _ => guard fun _ =>
        Takes.bind (readStr_takes _) fun _ => .bind (of_scans (readKind_scans _)) fun _ =>
        Takes.bind (readVar_word (UInt64.toNat_lt _)) fun _ => .bind (of_scans (readFlag_scans _ _)) fun _ =>
        Takes.bind (readStr_takes _) fun _ => Takes.last (ih _) fun _ => row).congr ?_
      rw [UInt32.ofNat_toNat, EntriesFit]
      simp only [id, true_and, and_true, false_or]

/-- How far the blocks of each entry reach behind a list of blocks. -/
def coverage : Coverage → List SignatureBlockHash → Coverage
  | covered, [] => covered
  | covered, b :: rest => coverage (fun id => if id = b.entryId then b.offset.toNat + b.len.toNat else covered id) rest

/-- Blocks that each go on where the ones of the same entry stop. -/
def BlocksFit (ids : List UInt32) (blockSize : Nat) : Coverage → List SignatureBlockHash → Prop
  | _, [] => True
  | covered, b :: rest =>
      b.entryId ∈ ids ∧ (b.len.toNat ≠ 0 ∧ b.len.toNat ≤ blockSize) ∧ b.offset.toNat = covered b.entryId ∧
        BlocksFit ids blockSize (fun id => if id = b.entryId then b.offset.toNat + b.len.toNat else covered id) rest

theorem readBlocks_takes (ids : List UInt32) (blockSize : Nat) (blocks : List SignatureBlockHash) (covered : Coverage) :
    Takes (readBlocks ids blockSize blocks.length covered) () (blocks.flatMap writeBlock)
      (blocks, coverage covered blocks) (BlocksFit ids blockSize covered blocks) := by
  induction blocks generalizing covered with
  | nil => exact .pure _
  | cons b blocks ih =>
      have id : ¬ b.entryId.toNat > 2 ^ 32 - 1 := by
        have := b.entryId.toNat_lt
        omega
      have word : b.entryId.toNat < 2 ^ 64 := b.entryId.toNat_lt.trans (by decide)
      have word' : b.len.toNat < 2 ^ 64 := b.len.toNat_lt.trans (by decide)
      have row : Takes (pure ((⟨UInt32.ofNat b.entryId.toNat, UInt64.ofNat b.offset.toNat, UInt32.ofNat b.len.toNat,
          UInt32.ofNat b.weak32.toNat, b.strongBlake3⟩ : SignatureBlockHash) :: blocks,
            coverage (fun id => if id = UInt32.ofNat b.entryId.toNat then b.offset.toNat + b.len.toNat else covered id)
              blocks) : SigScan (List SignatureBlockHash × Coverage)) () [] (b :: blocks, coverage covered (b :: blocks))
          True := by
        rw [UInt32.ofNat_toNat, UInt64.ofNat_toNat, UInt32.ofNat_toNat, UInt32.ofNat_toNat]
        exact .pure _
      rw [List.flatMap_cons]
      simp only [writeBlock, List.append_assoc]
      refine (Takes.bind (readVar_word word) fun _ => guard fun _ =>
        Takes.bind (readVar_word (UInt64.toNat_lt _)) fun _ => .bind (readVar_word word') fun _ =>
        guard fun _ => guard fun _ =>
        Takes.bind (of_scans fun _ => .num (UInt32.toNat_lt _)) fun _ =>
        Takes.bind (of_scans (readHash_scans _ _)) fun _ => Takes.last (ih _) fun _ => row).congr ?_
      rw [UInt32.ofNat_toNat, BlocksFit]
      simp only [id, true_and, and_true, false_or, not_or, not_not, Nat.not_lt, gt_iff_lt, ne_eq]

end Tables

section Whole
variable (hashChunk : Bytes → ChunkHash)

/-- What is read back of a signature. -/
def CavsSignature.readBack (s : CavsSignature) : CavsSignature :=
  { s with entries := s.entries.map SignatureEntry.readBack }

theorem SignatureEntry.readBack_eq_iff {e : SignatureEntry} : e.readBack = e ↔ e.symlinkTarget ≠ some "" := by
  obtain ⟨id, path, kind, size, executable, target⟩ := e
  cases target with
  | none => simp [SignatureEntry.readBack]
  | some t => by_cases empty : t = "" <;> simp [SignatureEntry.readBack, empty]

theorem readBack_of_named {s : CavsSignature} (named : ∀ e ∈ s.entries, e.symlinkTarget ≠ some "") : s.readBack = s := by
  have same : s.entries.map SignatureEntry.readBack = s.entries :=
    (List.map_congr_left fun e mem => SignatureEntry.readBack_eq_iff.mpr (named e mem)).trans (List.map_id' _)
  rw [CavsSignature.readBack, same]

theorem named_of_readBack {s : CavsSignature} (same : s.readBack = s) : ∀ e ∈ s.entries, e.symlinkTarget ≠ some "" := by
  intro e mem
  have each := congrArg CavsSignature.entries same
  rw [← SignatureEntry.readBack_eq_iff]
  exact List.map_eq_map_iff.mp (each.trans (List.map_id' _).symm) e mem

/-- A signature that keeps to what the decoder checks. -/
structure CavsSignature.Fits (s : CavsSignature) : Prop where
  blockSize : minBlockSize.toNat ≤ s.blockSize.toNat ∧ s.blockSize.toNat ≤ maxBlockSize.toNat
  sourceLabel : (strBytes s.sourceLabel).length ≤ 2 ^ 16
  chunkerProfile : (strBytes s.chunkerProfile).length ≤ 2 ^ 16
  fewEntries : s.entries.length ≤ maxEntries
  entries : EntriesFit [] s.entries
  fewBlocks : s.blocks.length ≤ maxBlocks
  blocks : BlocksFit (s.entries.map SignatureEntry.entryId) s.blockSize.toNat (fun _ => 0) s.blocks
  covers : ∀ e ∈ s.entries, Covers (coverage (fun _ => 0) s.blocks) e
  root : Cavs.merkleRoot hashChunk (s.blocks.map SignatureBlockHash.strongBlake3) = s.merkleRoot

theorem readSignature_reads (s : CavsSignature) :
    Reads (readSignature hashChunk) () (writeBody s) s.readBack (s.Fits hashChunk) := by
  have kind : SignatureKind.fromU8 s.kind.toU8.toNat = some s.kind := by cases s.kind <;> rfl
  have word : s.blockSize.toNat < 2 ^ 64 := s.blockSize.toNat_lt.trans (by decide)
  have ids : (s.entries.map SignatureEntry.readBack).map SignatureEntry.entryId = s.entries.map SignatureEntry.entryId := by
    rw [List.map_map]
    rfl
  have end_ : Reads (do
      let root ← readHash "merkle root"
      let left ← Scan.remaining
      if left ≠ 0 then Scan.throw (.malformed "trailing bytes")
      else if merkleRoot hashChunk (s.blocks.map SignatureBlockHash.strongBlake3) ≠ root then
        Scan.throw (.malformed "merkle root mismatch")
      else return {
        kind := s.kind
        sourceLabel := s.sourceLabel
        sourceBlake3 := s.sourceBlake3
        chunkerProfile := s.chunkerProfile
        entries := s.entries.map SignatureEntry.readBack
        blocks := s.blocks
        createdAtUnixMs := UInt64.ofNat s.createdAtUnixMs.toNat
        sourceSize := UInt64.ofNat s.sourceSize.toNat
        blockSize := UInt32.ofNat s.blockSize.toNat
        merkleRoot := root } : SigScan CavsSignature) () s.merkleRoot.1 s.readBack
      (merkleRoot hashChunk (s.blocks.map SignatureBlockHash.strongBlake3) = s.merkleRoot) := by
    have last : Reads (pure (⟨s.kind, UInt64.ofNat s.createdAtUnixMs.toNat, s.sourceLabel,
        UInt64.ofNat s.sourceSize.toNat, s.sourceBlake3, s.chunkerProfile, UInt32.ofNat s.blockSize.toNat,
        s.entries.map SignatureEntry.readBack, s.blocks, s.merkleRoot⟩ : CavsSignature) : SigScan CavsSignature)
        () [] s.readBack True := by
      rw [UInt64.ofNat_toNat, UInt64.ofNat_toNat, UInt32.ofNat_toNat]
      exact Reads.pure _
    refine (Reads.last (of_scans (readHash_scans _ _)) fun _ => Reads.remaining <| Reads.guard fun _ =>
      Reads.guard fun _ => last).congr ?_
    simp only [List.length_nil, ne_eq, not_true_eq_false, not_false_eq_true, not_not, true_and, and_true]
  unfold writeBody
  simp only [List.append_assoc]
  refine (Reads.bind (of_scans fun _ => .num (by decide)) fun _ => Reads.guard fun _ =>
    Reads.bind (of_scans (readByte_scans _ _)) fun _ =>
    Reads.first (of_scans fun _ => .ofOption kind) fun _ =>
    Reads.bind (readVar_word (UInt64.toNat_lt _)) fun _ => Reads.bind (readVar_word word) fun _ => Reads.guard fun _ =>
    Reads.bind (readVar_word (UInt64.toNat_lt _)) fun _ => Reads.bind (of_scans (readSourceHash_scans _)) fun _ =>
    Reads.bind (readStr_takes _) fun _ => Reads.bind (readStr_takes _) fun _ =>
    Reads.bind (readCount_takes (by decide) _ _) fun _ => Reads.bind (readEntries_takes _ _) fun _ =>
    Reads.bind (readCount_takes (by decide) _ _) fun _ => Reads.bind (readBlocks_takes _ _ _ _) fun _ =>
    Reads.guard fun _ => end_).congr ?_
  simp only [ne_eq, not_true_eq_false, not_false_eq_true, true_and, ids, gt_iff_lt, not_or, Nat.not_lt, not_exists,
    not_and, not_not, List.forall_mem_map]
  constructor
  · rintro ⟨blockSize, label, profile, fewEntries, entries, fewBlocks, blocks, covers, root⟩
    exact ⟨blockSize, label, profile, fewEntries, entries, fewBlocks, blocks, covers, root⟩
  · rintro ⟨blockSize, label, profile, fewEntries, entries, fewBlocks, blocks, covers, root⟩
    exact ⟨blockSize, label, profile, fewEntries, entries, fewBlocks, blocks, covers, root⟩

/-- A signature that was written is read back exactly when it fits. -/
theorem decode_encode_iff {s s' : CavsSignature} :
    decode hashChunk (encode hashChunk s) = .ok s' ↔ s.Fits hashChunk ∧ s' = s.readBack := by
  have magic : signatureMagic.length = 8 := rfl
  have trailer : (hashChunk (signatureMagic ++ writeBody s)).1.length = 32 := (hashChunk _).2
  obtain ⟨long, front, back, start, body⟩ := framed_parts magic trailer
    (show encode hashChunk s = signatureMagic ++ writeBody s ++ _ from rfl)
  have version : 2 ≤ (writeBody s).length := by
    simp only [writeBody, List.length_append, le_length]
    omega
  rw [decode, if_neg (by rw [long, magic]; omega), if_neg (not_not.mpr start), front, back]
  dsimp only
  rw [if_neg (not_not.mpr rfl), body]
  have reads := readSignature_reads hashChunk s
  constructor
  · intro h
    split at h
    · cases h
    · rename_i read c run
      cases h
      have whole : readSignature hashChunk () ⟨0, writeBody s⟩ =
          (.ok (s', c), (readSignature hashChunk () ⟨0, writeBody s⟩).2) := by
        rw [← run]
      exact reads.only whole
  · rintro ⟨fits, rfl⟩
    rw [reads.runs fits 0]

/-- What is read from a signature that was written is that signature. -/
theorem decode_encode {s s' : CavsSignature} (named : ∀ e ∈ s.entries, e.symlinkTarget ≠ some "")
    (h : decode hashChunk (encode hashChunk s) = .ok s') : s' = s ∧ s.entries.length ≤ maxEntries := by
  obtain ⟨fits, rfl⟩ := (decode_encode_iff hashChunk).mp h
  exact ⟨readBack_of_named named, fits.fewEntries⟩

end Whole

end Cavs.Signature
