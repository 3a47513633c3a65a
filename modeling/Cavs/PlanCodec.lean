import Cavs.Leb128
import Cavs.PlanTiling

/-!
# Reading a plan back

A plan that was written is read back exactly when it passes its validation, keeps to the
limits of the decoder and names the target of each of its symlinks.
-/
namespace Cavs
open FileProg (Bytes)
open ByteScan

/-- A text behind its length, which is refused when it is too long. -/
theorem takes_str {ε S : Type} {e e' e'' : ε} {read : Scan ε S Nat} {s : S} {b : Bytes} {t : String}
    (h : Takes read s b (strBytes t).length ((strBytes t).length < 2 ^ 64)) :
    Takes (do
      let len ← read
      let left ← Scan.remaining
      if len > left ∨ len > 2 ^ 16 then Scan.throw e
      else do
        let bytes ← Scan.take e' len
        Scan.ofOption e'' (utf8 bytes)) s (b ++ strBytes t) t ((strBytes t).length ≤ 2 ^ 16) := by
  constructor
  · intro short p
    refine .bind (h.scans (by omega) p) (.remaining fun left long => ?_)
    rw [if_neg (by omega)]
    exact .bind_pure (.take rfl) (.ofOption (utf8_strBytes t))
  · intro p rest y c u run
    refine Only.bind (P := (strBytes t).length < 2 ^ 64) (fun _ _ _ _ _ => h.only)
      (fun _ => Only.remaining fun left => Only.guard fun short => ?_) run
    refine Only.last (Only.of_scans fun _ => .take rfl) fun _ => ?_
    rw [utf8_strBytes]
    exact Only.pure t (by omega)

/-- A body between eight bytes of magic and 32 of a trailer, and its parts. -/
theorem framed_parts {magic body trailer : Bytes} (eight : magic.length = 8) (word : trailer.length = 32) {whole : Bytes}
    (framed : whole = magic ++ body ++ trailer) :
    whole.length = 8 + body.length + 32 ∧ whole.take (whole.length - 32) = magic ++ body ∧
      whole.drop (whole.length - 32) = trailer ∧ whole.take 8 = magic ∧ (magic ++ body).drop 8 = body := by
  have front : (magic ++ body).length = 8 + body.length := by rw [List.length_append, eight]
  have long : whole.length = 8 + body.length + 32 := by rw [framed, List.length_append, front, word]
  have cut : whole.length - 32 = 8 + body.length := by omega
  refine ⟨long, ?_, ?_, ?_, List.drop_left' eight⟩
  · rw [cut, framed]
    exact List.take_left' front
  · rw [cut, framed]
    exact List.drop_left' front
  · rw [framed, List.append_assoc]
    exact List.take_left' eight

/-- Compression at a level; the decompressor is the one of the environment. -/
structure BlobCompressor (env : Env) where
  compress : (level : Int) → Bytes → Bytes
  lossless : ∀ level n b, b.length ≤ n → env.decompress n (compress level b) = .ok b
  bounded : ∀ level b, b.length ≤ maxBlobRaw → (compress level b).length < 2 ^ 64

def PlanKind.toU8 : PlanKind → UInt8
  | .analysis => 1
  | .portable => 2

def PlanMode.toU8 : PlanMode → UInt8
  | .artifact => 1
  | .directory => 2

def EntryKind.toU8 : EntryKind → UInt8
  | .file => 1
  | .directory => 2
  | .symlink => 3

namespace OfflinePlan

section Encode

/-- As many groups of seven bits as the number has. -/
def writeVar (value : Nat) : Bytes := Leb.bytes (value + 9) value

def writeStr (s : String) : Bytes := writeVar (strBytes s).length ++ strBytes s

def writeHash : Option ChunkHash → Bytes
  | some h => 1 :: h.1
  | none => [0]

def writeOldEntry (e : OldEntry) : Bytes :=
  writeVar e.entryId.toNat ++ writeStr e.path ++ writeVar e.size.toNat

def writeNewEntry (e : PlanEntry) : Bytes :=
  writeVar e.entryId.toNat ++ writeStr e.path ++ [e.kind.toU8] ++ writeVar e.size.toNat ++
    [if e.executable then 1 else 0] ++ writeStr (e.symlinkTarget.getD "") ++ writeHash e.blake3

def writeOp : PlanOp → Bytes
  | .copyOld old oldOffset new newOffset len =>
      [1] ++ writeVar old.toNat ++ writeVar oldOffset.toNat ++ writeVar new.toNat ++ writeVar newOffset.toNat ++
        writeVar len.toNat
  | .inlined new newOffset len blobOffset =>
      [2] ++ writeVar new.toNat ++ writeVar newOffset.toNat ++ writeVar len.toNat ++ writeVar blobOffset.toNat

variable {env : Env} (zstd : BlobCompressor env)

def compressed (level : Int) (blob : Bytes) : Bytes := if blob = [] then [] else zstd.compress level blob

/-- Everything between the magic and the trailer. -/
def writeBody (level : Int) (p : OfflinePlan) : Bytes :=
  le 2 planVersion ++ [p.kind.toU8] ++ [p.mode.toU8] ++ writeVar p.blockSize.toNat ++
    writeStr p.oldLabel ++ writeVar p.oldSize.toNat ++ writeHash p.oldBlake3 ++
    writeStr p.newLabel ++ writeVar p.newSize.toNat ++
    writeVar p.oldEntries.length ++ p.oldEntries.flatMap writeOldEntry ++
    writeVar p.newEntries.length ++ p.newEntries.flatMap writeNewEntry ++
    writeVar p.deleted.length ++ p.deleted.flatMap writeStr ++
    writeVar p.ops.length ++ p.ops.flatMap writeOp ++
    writeVar p.blob.length ++ writeVar (compressed zstd level p.blob).length ++ compressed zstd level p.blob

def encode (level : Int) (p : OfflinePlan) : Bytes :=
  let out := planMagic ++ writeBody zstd level p
  out ++ (env.hashChunk out).1

end Encode

section Parts

theorem readVarFrom_eq {left i value : Nat} (sum : left + i = 9) : readVarFrom left i value =
    Leb.readFrom (.truncated "varint") (.malformed "overlong varint") (.malformed "varint overflow") left i value := by
  have power : ∀ i, 2 ^ (7 * i) = 128 ^ i := fun i => (pow_mul 2 7 i).trans (congrArg (· ^ i) (by norm_num))
  induction left generalizing i value with
  | zero =>
      obtain rfl : i = 9 := by omega
      unfold readVarFrom Leb.readFrom
      refine congrArg (Scan.take _ 1 >>= ·) ?_
      funext b
      rw [power]
      dsimp only
      by_cases zero : ofLe b = 0 ∧ 9 ≠ 0
      · rw [if_pos zero, if_pos zero]
      by_cases big : ofLe b > 1
      · rw [if_neg zero, if_neg zero, if_pos ⟨rfl, big⟩, if_pos big]
      · have little : ofLe b % 128 = ofLe b := Nat.mod_eq_of_lt (by omega)
        rw [if_neg zero, if_neg zero, if_neg fun h => big h.2, if_neg big, if_pos (by omega), little]
  | succ left ih =>
      unfold readVarFrom Leb.readFrom
      refine congrArg (Scan.take _ 1 >>= ·) ?_
      funext b
      rw [power]
      dsimp only
      by_cases zero : ofLe b = 0 ∧ i ≠ 0
      · rw [if_pos zero, if_pos zero]
      rw [if_neg zero, if_neg zero, if_neg fun h => absurd h.1 (by omega)]
      by_cases last : ofLe b < 128
      · rw [if_pos last, if_pos last, Nat.mod_eq_of_lt last]
      · rw [if_neg last, if_neg last]
        exact ih (by omega)

theorem readVar_takes (n : Nat) : Takes readVar () (writeVar n) n (n < 2 ^ 64) := by
  rw [readVar, readVarFrom_eq rfl]
  exact Leb.read_takes _ _ _ () n

theorem readVar_word {n : Nat} (small : n < 2 ^ 64) : Takes readVar () (writeVar n) n True :=
  (readVar_takes n).congr (iff_true_intro small)

theorem readU64_takes (n : UInt64) : Takes readU64 () (writeVar n.toNat) n True := by
  have last : Takes (pure (UInt64.ofNat n.toNat) : PlanScan UInt64) () [] n True := by
    rw [UInt64.ofNat_toNat]
    exact .pure n
  exact (Takes.last (readVar_word n.toNat_lt) fun _ => last).congr (and_self_iff)

theorem id_small (id : UInt32) : ¬ id.toNat > 2 ^ 32 - 1 ∧ id.toNat < 2 ^ 64 := by
  have := id.toNat_lt
  omega

theorem readId32_takes (what : String) (id : UInt32) : Takes (readId32 what) () (writeVar id.toNat) id True := by
  have last : Takes (pure (UInt32.ofNat id.toNat) : PlanScan UInt32) () [] id True := by
    rw [UInt32.ofNat_toNat]
    exact .pure id
  refine (Takes.last (readVar_word (id_small id).2) fun _ => Takes.guard fun _ => last).congr ?_
  exact iff_true_intro ⟨trivial, (id_small id).1, trivial⟩

theorem readStr_takes (s : String) : Takes readStr () (writeStr s) s ((strBytes s).length ≤ 2 ^ 16) :=
  takes_str (readVar_takes _)

theorem readByte_takes (what : String) (b : UInt8) : Takes (readByte what) () [b] b.toNat True :=
  Takes.of_scans fun _ => .bind_pure (.take rfl) (.pure b.toNat)

theorem readFlag_takes (what : String) (b : Bool) : Takes (readFlag what) () [if b then 1 else 0] b True := by
  refine (Takes.last (readByte_takes what _) fun _ => ?_).congr (and_self_iff)
  cases b <;> exact Takes.pure _

theorem readOptionalHash_takes (flag what : String) (o : Option ChunkHash) :
    Takes (readOptionalHash flag what) () (writeHash o) o True := by
  cases o with
  | none => exact (Takes.last (readByte_takes flag 0) fun _ => Takes.pure none).congr (and_self_iff)
  | some h =>
      have last : Takes (pure (hashOf h.1) : PlanScan (Option ChunkHash)) () [] (some h) True := by
        rw [hashOf, dif_pos h.2]
        exact .pure _
      refine (Takes.bind (b := [1]) (readByte_takes flag 1) fun _ =>
        Takes.last (Takes.of_scans fun _ => Scans.take h.2) fun _ => last).congr ?_
      exact iff_true_intro ⟨trivial, trivial, trivial⟩

theorem readCount_takes {max : Nat} (word : max < 2 ^ 64) (what : String) (n : Nat) :
    Takes (readCount max what) () (writeVar n) n (n ≤ max) := by
  refine (Takes.last (readVar_takes n) fun _ => Takes.guard fun _ => Takes.pure n).congr ?_
  rw [and_true, Nat.not_lt]
  exact and_iff_right_of_imp fun few => few.trans_lt word

end Parts
section Tables

theorem readOldEntry_takes (e : OldEntry) :
    Takes readOldEntry () (writeOldEntry e) e ((strBytes e.path).length ≤ 2 ^ 16) := by
  unfold writeOldEntry
  rw [List.append_assoc]
  refine (Takes.bind (readId32_takes _ _) fun _ => Takes.bind (readStr_takes _) fun _ =>
    Takes.last (readU64_takes _) fun _ => Takes.pure e).congr ?_
  simp only [true_and, and_true]

/-- An entry as it is read back. -/
def readBackEntry (e : PlanEntry) : PlanEntry :=
  { e with symlinkTarget := if e.symlinkTarget.getD "" = "" then none else some (e.symlinkTarget.getD "") }

theorem readBackEntry_eq_iff {e : PlanEntry} : readBackEntry e = e ↔ e.symlinkTarget ≠ some "" := by
  obtain ⟨id, path, kind, size, executable, target, blake3⟩ := e
  cases target with
  | none => simp [readBackEntry]
  | some t => by_cases empty : t = "" <;> simp [readBackEntry, empty]

theorem readNewEntry_takes (e : PlanEntry) : Takes readNewEntry () (writeNewEntry e) (readBackEntry e)
    ((strBytes e.path).length ≤ 2 ^ 16 ∧ (strBytes (e.symlinkTarget.getD "")).length ≤ 2 ^ 16) := by
  have kind : EntryKind.fromU8 e.kind.toU8.toNat = some e.kind := by cases e.kind <;> rfl
  unfold writeNewEntry
  simp only [List.append_assoc]
  refine (Takes.bind (readId32_takes _ _) fun _ => Takes.bind (readStr_takes _) fun _ =>
    Takes.bind (readByte_takes _ _) fun _ => .first (.of_scans fun _ => .ofOption kind) fun _ =>
    Takes.bind (readU64_takes _) fun _ => .bind (readFlag_takes _ _) fun _ => .bind (readStr_takes _) fun _ =>
    Takes.last (readOptionalHash_takes _ _ _) fun _ => Takes.pure (readBackEntry e)).congr ?_
  simp only [true_and, and_true]

theorem readOp_takes (op : PlanOp) : Takes readOp () (writeOp op) op True := by
  cases op with
  | copyOld old oldOffset new newOffset len =>
      have last : Takes (pure (.copyOld (UInt32.ofNat old.toNat) oldOffset (UInt32.ofNat new.toNat) newOffset len) :
          PlanScan PlanOp) () [] (.copyOld old oldOffset new newOffset len) True := by
        rw [UInt32.ofNat_toNat, UInt32.ofNat_toNat]
        exact .pure _
      rw [writeOp]
      simp only [List.append_assoc]
      refine (Takes.bind (readByte_takes _ 1) fun _ => Takes.bind (readVar_word (id_small old).2) fun _ =>
        Takes.bind (readU64_takes _) fun _ => .bind (readVar_word (id_small new).2) fun _ =>
        Takes.bind (readU64_takes _) fun _ => Takes.last (readU64_takes _) fun _ => Takes.guard fun _ => last).congr ?_
      simp only [(id_small old).1, (id_small new).1, true_and, or_self, not_false_eq_true]
  | inlined new newOffset len blobOffset =>
      have last : Takes (pure (.inlined (UInt32.ofNat new.toNat) newOffset len blobOffset) : PlanScan PlanOp) () []
          (.inlined new newOffset len blobOffset) True := by
        rw [UInt32.ofNat_toNat]
        exact .pure _
      rw [writeOp]
      simp only [List.append_assoc]
      refine (Takes.bind (readByte_takes _ 2) fun _ => Takes.bind (readVar_word (id_small new).2) fun _ =>
        Takes.bind (readU64_takes _) fun _ => .bind (readU64_takes _) fun _ =>
        Takes.last (readU64_takes _) fun _ => Takes.guard fun _ => last).congr ?_
      simp only [(id_small new).1, true_and, not_false_eq_true]

end Tables

section Whole

/-- What is read back of a plan. -/
def readBack (p : OfflinePlan) : OfflinePlan := { p with newEntries := p.newEntries.map readBackEntry }

/-- Texts that the decoder takes. -/
structure ShortTexts (p : OfflinePlan) : Prop where
  oldLabel : (strBytes p.oldLabel).length ≤ 2 ^ 16
  newLabel : (strBytes p.newLabel).length ≤ 2 ^ 16
  oldEntries : ∀ e ∈ p.oldEntries, (strBytes e.path).length ≤ 2 ^ 16
  newEntries : ∀ e ∈ p.newEntries,
    (strBytes e.path).length ≤ 2 ^ 16 ∧ (strBytes (e.symlinkTarget.getD "")).length ≤ 2 ^ 16
  deleted : ∀ path ∈ p.deleted, (strBytes path).length ≤ 2 ^ 16

/-- A plan that keeps to what the decoder reads. -/
structure Readable (p : OfflinePlan) : Prop extends p.ShortTexts where
  fewOld : p.oldEntries.length ≤ maxEntries
  fewNew : p.newEntries.length ≤ maxEntries
  fewDeleted : p.deleted.length ≤ maxEntries
  fewOps : p.ops.length ≤ maxOps
  blob : p.blob.length ≤ maxBlobRaw

variable {env : Env} (zstd : BlobCompressor env)

theorem decodeBlob_compressed {level : Int} {blob : Bytes} :
    decodeBlob env blob.length (compressed zstd level blob) = .ok blob := by
  unfold decodeBlob compressed
  by_cases none : blob = []
  · rw [none]
    rfl
  · rw [if_neg none, if_neg fun zero => none (List.length_eq_zero_iff.mp zero), zstd.lossless level _ _ (Nat.le_refl _)]
    exact if_neg (not_not_intro rfl)

theorem compressed_word (level : Int) {blob : Bytes} (small : blob.length ≤ maxBlobRaw) :
    (compressed zstd level blob).length < 2 ^ 64 := by
  unfold compressed
  split
  · exact Nat.two_pow_pos 64
  · exact zstd.bounded level blob small

theorem readPlan_reads (level : Int) (p : OfflinePlan) :
    Reads (readPlan env) () (writeBody zstd level p) p.readBack p.Readable := by
  have kind : PlanKind.fromU8 p.kind.toU8.toNat = some p.kind := by cases p.kind <;> rfl
  have mode : PlanMode.fromU8 p.mode.toU8.toNat = some p.mode := by cases p.mode <;> rfl
  have pass : ∀ {c : Prop} [Decidable c] {e : PlanError}, ¬ c →
      Takes (if c then Scan.throw e else pure () : PlanScan Unit) () [] () True := by
    intro c _ e fine
    rw [if_neg fine]
    exact .pure ()
  have strs : ∀ l : List String, Takes (Scan.collect l.length readStr) () (l.flatMap writeStr) l
      (∀ s ∈ l, (strBytes s).length ≤ 2 ^ 16) := by
    intro l
    have each := Takes.collect writeStr id l fun s _ => readStr_takes s
    rwa [List.map_id] at each
  have olds : Takes (Scan.collect p.oldEntries.length readOldEntry) () (p.oldEntries.flatMap writeOldEntry) p.oldEntries
      (∀ e ∈ p.oldEntries, (strBytes e.path).length ≤ 2 ^ 16) := by
    have each := Takes.collect writeOldEntry id p.oldEntries fun e _ => readOldEntry_takes e
    rwa [List.map_id] at each
  have ops : Takes (Scan.collect p.ops.length readOp) () (p.ops.flatMap writeOp) p.ops True := by
    have each := Takes.collect writeOp id p.ops fun op _ => readOp_takes op
    rw [List.map_id] at each
    exact each.congr (iff_true_intro fun _ _ => trivial)
  have news := Takes.collect writeNewEntry readBackEntry p.newEntries fun e _ => readNewEntry_takes e
  have end_ : Reads (do
      let left ← Scan.remaining
      (if left ≠ 0 then Scan.throw (.malformed "trailing bytes") else pure ())
      let blob ← throwExcept (decodeBlob env p.blob.length (compressed zstd level p.blob))
      return { p with newEntries := p.newEntries.map readBackEntry, blob } : PlanScan OfflinePlan) () [] p.readBack
      True := by
    rw [decodeBlob_compressed]
    have row : Reads (throwExcept (.ok p.blob) >>= fun blob =>
        pure { p with newEntries := p.newEntries.map readBackEntry, blob } : PlanScan OfflinePlan) () [] p.readBack True :=
      Reads.pure p.readBack
    exact (Reads.remaining (Reads.first (pass (not_not_intro rfl)) fun _ => row)).congr and_self_iff
  unfold writeBody
  simp only [List.append_assoc]
  refine (Reads.bind (.of_scans fun _ => .num (by decide)) fun _ =>
    Reads.first (pass (not_not_intro rfl)) fun _ => Reads.bind (readByte_takes _ _) fun _ =>
    Reads.first (.of_scans fun _ => .ofOption kind) fun _ => Reads.bind (readByte_takes _ _) fun _ =>
    Reads.first (.of_scans fun _ => .ofOption mode) fun _ => Reads.bind (readId32_takes _ _) fun _ =>
    Reads.bind (readStr_takes _) fun _ => Reads.bind (readU64_takes _) fun _ =>
    Reads.bind (readOptionalHash_takes _ _ _) fun _ => Reads.bind (readStr_takes _) fun _ =>
    Reads.bind (readU64_takes _) fun _ => Reads.bind (readCount_takes (by decide) _ _) fun _ => Reads.bind olds fun _ =>
    Reads.bind (readCount_takes (by decide) _ _) fun _ => Reads.bind news fun _ =>
    Reads.bind (readCount_takes (by decide) _ _) fun _ => Reads.bind (strs _) fun _ =>
    Reads.bind (readCount_takes (by decide) _ _) fun _ => Reads.bind ops fun _ =>
    Reads.bind (readCount_takes (by decide) _ _) fun small =>
    Reads.bind (readVar_word (compressed_word zstd level small)) fun _ =>
    Reads.last (.of_scans fun _ => .take rfl) fun _ => end_).congr ?_
  simp only [true_and, and_true]
  constructor
  · rintro ⟨oldLabel, newLabel, fewOld, oldEntries, fewNew, newEntries, fewDeleted, deleted, fewOps, blob⟩
    exact ⟨⟨oldLabel, newLabel, oldEntries, newEntries, deleted⟩, fewOld, fewNew, fewDeleted, fewOps, blob⟩
  · rintro ⟨⟨oldLabel, newLabel, oldEntries, newEntries, deleted⟩, fewOld, fewNew, fewDeleted, fewOps, blob⟩
    exact ⟨oldLabel, newLabel, fewOld, oldEntries, fewNew, newEntries, fewDeleted, deleted, fewOps, blob⟩

/-- Each symlink names its target. -/
def Named (p : OfflinePlan) : Prop := ∀ e ∈ p.newEntries, e.symlinkTarget ≠ some ""

theorem readBack_eq_iff {p : OfflinePlan} : p.readBack = p ↔ p.Named := by
  constructor
  · intro same e mem
    have each := congrArg OfflinePlan.newEntries same
    exact readBackEntry_eq_iff.mp (List.map_eq_map_iff.mp (each.trans (List.map_id' _).symm) e mem)
  · intro named
    have same : p.newEntries.map readBackEntry = p.newEntries :=
      (List.map_congr_left fun e mem => readBackEntry_eq_iff.mpr (named e mem)).trans (List.map_id' _)
    rw [readBack, same]

/-- A plan that was written is read back as it was exactly when it may be read at all. -/
theorem decode_encode_iff {level : Int} {p : OfflinePlan} :
    decode env (encode zstd level p) = .ok p ↔ p.validate = .ok () ∧ p.Readable ∧ p.Named := by
  have magic : planMagic.length = 8 := rfl
  have trailer : (env.hashChunk (planMagic ++ writeBody zstd level p)).1.length = 32 := (env.hashChunk _).2
  obtain ⟨long, front, back, start, body⟩ := framed_parts magic trailer
    (show encode zstd level p = planMagic ++ writeBody zstd level p ++ _ from rfl)
  have version : 2 ≤ (writeBody zstd level p).length := by
    obtain ⟨rest, split⟩ : ∃ rest, writeBody zstd level p = le 2 planVersion ++ rest := by
      unfold writeBody
      simp only [List.append_assoc]
      exact ⟨_, rfl⟩
    rw [split, List.length_append, le_length]
    exact Nat.le_add_right ..
  have reads := readPlan_reads zstd level p
  rw [decode, if_neg (by rw [long, magic]; omega), if_neg (not_not.mpr start), front, back]
  dsimp only
  rw [if_neg (not_not.mpr rfl), body]
  constructor
  · intro h
    split at h
    · cases h
    · rename_i read c run
      obtain ⟨⟨⟩, valid, last⟩ := ok_of_bindE h
      cases last
      have whole : readPlan env () ⟨8, writeBody zstd level p⟩ =
          (.ok (p, c), (readPlan env () ⟨8, writeBody zstd level p⟩).2) := by
        rw [← run]
      obtain ⟨readable, same⟩ := reads.only whole
      exact ⟨valid, readable, readBack_eq_iff.mp same.symm⟩
  · rintro ⟨valid, readable, named⟩
    rw [reads.runs readable 8, readBack_eq_iff.mpr named]
    dsimp only
    rw [valid]
    rfl

end Whole

end OfflinePlan
end Cavs
