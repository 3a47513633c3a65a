import Cavs.SignatureCodec

/-!
# What signing gives

The builder cuts every file into blocks of one size, whatever pieces it is read in, and
numbers the entries in the order of the walk.
-/
namespace Cavs.Signature
open FileProg (Bytes)

section Cut

theorem cutFrom_full {size fuel : Nat} {full : List Bytes} {tail : Bytes} (sized : ∀ p ∈ full, p.length = size)
    (short : tail.length < size) (enough : (full.flatten ++ tail).length ≤ fuel) :
    cutFrom size fuel (full.flatten ++ tail) = full ++ if tail = [] then [] else [tail] := by
  induction full generalizing fuel with
  | nil =>
      cases tail with
      | nil => cases fuel <;> rfl
      | cons b tail =>
          match fuel, enough with
          | fuel + 1, enough =>
              have whole : (b :: tail).take size = b :: tail := List.take_of_length_le short.le
              have none : (b :: tail).drop size = [] := List.drop_eq_nil_of_le short.le
              rw [List.flatten_nil, List.nil_append, List.nil_append, cutFrom, whole, none]
              cases fuel <;> rfl
  | cons p full ih =>
      have length := sized p (.head _)
      match p, fuel, length, enough with
      | [], _, length, _ => exact absurd length (by simp; omega)
      | b :: p, fuel + 1, length, enough =>
          rw [List.flatten_cons, List.append_assoc, List.cons_append, cutFrom, ← List.cons_append,
            List.take_left' length, List.drop_left' length,
            ih (fun q mem => sized q (.tail _ mem)) (by simp at enough ⊢; omega)]
          rfl

theorem cut_full {size : Nat} {full : List Bytes} {tail : Bytes} (sized : ∀ p ∈ full, p.length = size)
    (short : tail.length < size) : cut size (full.flatten ++ tail) = full ++ if tail = [] then [] else [tail] :=
  cutFrom_full sized short (Nat.le_refl _)

theorem cutFrom_flatten {size fuel : Nat} {b : Bytes} (pos : 0 < size) (enough : b.length ≤ fuel) :
    (cutFrom size fuel b).flatten = b := by
  fun_induction cutFrom with
  | case1 b => exact (List.length_eq_zero_iff.mp (Nat.le_zero.mp enough)).symm
  | case2 fuel => rfl
  | case3 fuel b rest ih =>
      rw [List.flatten_cons, ih (by simp at enough ⊢; omega), List.take_append_drop]

theorem cut_flatten {size : Nat} (pos : 0 < size) (b : Bytes) : (cut size b).flatten = b :=
  cutFrom_flatten pos (Nat.le_refl _)

theorem mem_cutFrom {size fuel : Nat} {b p : Bytes} (pos : 0 < size) (mem : p ∈ cutFrom size fuel b) :
    p ≠ [] ∧ p.length ≤ size := by
  fun_induction cutFrom with
  | case1 b => cases mem
  | case2 fuel => cases mem
  | case3 fuel b rest ih =>
      rcases List.mem_cons.mp mem with rfl | mem
      · refine ⟨fun none => ?_, List.length_take_le ..⟩
        have := congrArg List.length none
        simp at this
        omega
      · exact ih mem

end Cut

variable {hashChunk : Bytes → ChunkHash}

section Rows
variable (hashChunk)

/-- The blocks of one entry from an offset on. -/
def rowsFrom (id : UInt32) : (offset : UInt64) → List Bytes → List SignatureBlockHash
  | _, [] => []
  | offset, piece :: rest =>
      ⟨id, offset, UInt32.ofNat piece.length, weak32 piece, hashChunk piece⟩ ::
        rowsFrom id (offset + (UInt32.ofNat piece.length).toUInt64) rest

def rowsEnd (offset : UInt64) (pieces : List Bytes) : UInt64 :=
  pieces.foldl (fun o p => o + (UInt32.ofNat p.length).toUInt64) offset

variable {hashChunk}

theorem rowsFrom_snoc (id : UInt32) (offset : UInt64) (pieces : List Bytes) (p : Bytes) :
    rowsFrom hashChunk id offset (pieces ++ [p]) = rowsFrom hashChunk id offset pieces ++
      [⟨id, rowsEnd offset pieces, UInt32.ofNat p.length, weak32 p, hashChunk p⟩] := by
  induction pieces generalizing offset with
  | nil => rfl
  | cons q pieces ih =>
      rw [List.cons_append, rowsFrom, rowsFrom, ih]
      rfl

theorem rowsEnd_snoc (offset : UInt64) (pieces : List Bytes) (p : Bytes) :
    rowsEnd offset (pieces ++ [p]) = rowsEnd offset pieces + (UInt32.ofNat p.length).toUInt64 := by
  rw [rowsEnd, List.foldl_append]
  rfl

theorem rowsFrom_strong (id : UInt32) (offset : UInt64) (pieces : List Bytes) :
    (rowsFrom hashChunk id offset pieces).map SignatureBlockHash.strongBlake3 = pieces.map hashChunk := by
  induction pieces generalizing offset with
  | nil => rfl
  | cons p pieces ih => exact congrArg _ (ih _)

theorem rowsFrom_id {id : UInt32} {offset : UInt64} {pieces : List Bytes} {b : SignatureBlockHash}
    (mem : b ∈ rowsFrom hashChunk id offset pieces) : b.entryId = id := by
  induction pieces generalizing offset with
  | nil => cases mem
  | cons p pieces ih =>
      rcases List.mem_cons.mp mem with rfl | mem
      · rfl
      · exact ih mem

end Rows

section Filling

theorem amendLast_snoc (f : SignatureEntry → SignatureEntry) (l : List SignatureEntry) (e : SignatureEntry) :
    amendLast f (l ++ [e]) = l ++ [f e] := by
  induction l with
  | nil => rfl
  | cons x l ih =>
      cases l with
      | nil => rfl
      | cons y l => exact congrArg (x :: ·) ih

/-- The blocks of the entry that is being filled are `full`; what comes next is in the buffer. -/
structure Filling (hashChunk : Bytes → ChunkHash) (prior : List SignatureBlockHash) (id : UInt32)
    (full : List Bytes) (b : SignatureBuilder) : Prop where
  entry : (b.entries.getLast?.map SignatureEntry.entryId).getD 0 = id
  blocks : b.blocks = prior ++ rowsFrom hashChunk id 0 full
  sized : ∀ p ∈ full, p.length = b.blockSize.toNat
  room : b.buf.length < b.blockSize.toNat
  offset : b.currentOffset = rowsEnd 0 full

/-- What filling a block leaves alone. -/
def SameEntries (b b' : SignatureBuilder) : Prop :=
  b' = { b with blocks := b'.blocks, buf := b'.buf, currentOffset := b'.currentOffset }

variable {prior : List SignatureBlockHash} {id : UInt32} {full : List Bytes} {b : SignatureBuilder}

theorem Filling.emit (h : Filling hashChunk prior id full b) {piece : Bytes} (whole : piece.length = b.blockSize.toNat) :
    Filling hashChunk prior id (full ++ [piece]) ({ b with buf := piece }.emitBlock hashChunk) := by
  constructor
  · exact h.entry
  · have appended : ({ b with buf := piece }.emitBlock hashChunk).blocks = b.blocks ++
        [⟨id, b.currentOffset, UInt32.ofNat piece.length, weak32 piece, hashChunk piece⟩] := by
      rw [← h.entry]
      rfl
    rw [appended, h.blocks, h.offset, rowsFrom_snoc, List.append_assoc]
  · intro p mem
    rcases List.mem_append.mp mem with mem | mem
    · exact h.sized p mem
    · rw [List.mem_singleton.mp mem, whole]
      rfl
  · exact Nat.zero_lt_of_lt h.room
  · rw [rowsEnd_snoc, ← h.offset]
    rfl

theorem fill_filling {fuel : Nat} {data : Bytes} (h : Filling hashChunk prior id full b) (enough : data.length ≤ fuel) :
    ∃ full', Filling hashChunk prior id full' (b.fill hashChunk fuel data) ∧
      full'.flatten ++ (b.fill hashChunk fuel data).buf = full.flatten ++ b.buf ++ data ∧
      SameEntries b (b.fill hashChunk fuel data) := by
  induction fuel generalizing b data full with
  | zero =>
      obtain rfl := List.length_eq_zero_iff.mp (Nat.le_zero.mp enough)
      exact ⟨full, h, (List.append_nil _).symm, rfl⟩
  | succ fuel ih =>
      rw [SignatureBuilder.fill]
      by_cases none : data = []
      · rw [if_pos none, none, List.append_nil]
        exact ⟨full, h, rfl, rfl⟩
      rw [if_neg none]
      have some := List.length_pos_iff.mpr none
      have room := h.room
      dsimp only
      generalize taken : min (b.blockSize.toNat - b.buf.length) data.length = n
      have length : (b.buf ++ data.take n).length = b.buf.length + n := by
        rw [List.length_append, List.length_take, min_eq_left (by omega)]
      have left : (data.drop n).length ≤ fuel := by
        rw [List.length_drop]
        omega
      by_cases whole : (b.buf ++ data.take n).length = b.blockSize.toNat
      · rw [if_pos whole]
        obtain ⟨full', filling, all, same⟩ := ih (h.emit whole) left
        refine ⟨full', filling, all.trans ?_, same⟩
        rw [List.flatten_append, List.flatten_singleton]
        show full.flatten ++ (b.buf ++ data.take n) ++ [] ++ data.drop n = _
        rw [List.append_nil, List.append_assoc, List.append_assoc, List.take_append_drop, List.append_assoc]
      · rw [if_neg whole]
        have below : (b.buf ++ data.take n).length < b.blockSize.toNat := by omega
        have next : Filling hashChunk prior id full { b with buf := b.buf ++ data.take n } :=
          ⟨h.entry, h.blocks, h.sized, below, h.offset⟩
        obtain ⟨full', filling, all, same⟩ := ih next left
        refine ⟨full', filling, all.trans ?_, same⟩
        show full.flatten ++ (b.buf ++ data.take n) ++ data.drop n = _
        rw [List.append_assoc, List.append_assoc, List.take_append_drop, List.append_assoc]

theorem flushBlock_blocks (h : Filling hashChunk prior id full b) :
    (b.flushBlock hashChunk).blocks =
      prior ++ rowsFrom hashChunk id 0 (cut b.blockSize.toNat (full.flatten ++ b.buf)) := by
  rw [cut_full h.sized h.room, SignatureBuilder.flushBlock]
  split_ifs with none
  · rw [List.append_nil, h.blocks]
  · have emitted : (b.emitBlock hashChunk).blocks = b.blocks ++
        [⟨id, b.currentOffset, UInt32.ofNat b.buf.length, weak32 b.buf, hashChunk b.buf⟩] := by
      rw [← h.entry]
      rfl
    rw [emitted, h.blocks, h.offset, rowsFrom_snoc, List.append_assoc]

theorem flushBlock_same (hashChunk : Bytes → ChunkHash) (b : SignatureBuilder) :
    SameEntries b (b.flushBlock hashChunk) ∧ (b.flushBlock hashChunk).buf = [] := by
  rw [SignatureBuilder.flushBlock]
  split_ifs with none
  · exact ⟨rfl, none⟩
  · exact ⟨rfl, rfl⟩

end Filling

section Entry

/-- The entry `e` is being read into a builder that was `f` before: `c` is what was read. -/
structure Reading (hashChunk : Bytes → ChunkHash) (f : SignatureBuilder) (e : SignatureEntry) (c : Bytes)
    (b : SignatureBuilder) : Prop where
  filling : ∃ full, Filling hashChunk f.blocks e.entryId full b ∧ full.flatten ++ b.buf = c
  entries : b.entries = f.entries ++ [{ e with size := UInt64.ofNat c.length }]
  content : b.content = f.content ++ c
  totalSize : b.totalSize = f.totalSize + UInt64.ofNat c.length
  blockSize : b.blockSize = f.blockSize
  kind : b.kind = f.kind

variable {f b : SignatureBuilder} {e : SignatureEntry} {c : Bytes}

theorem Reading.append (h : Reading hashChunk f e c b) (data : Bytes) :
    Reading hashChunk f e (c ++ data) (b.append hashChunk data) := by
  obtain ⟨full, filling, all⟩ := h.filling
  have amended : amendLast (fun e => { e with size := e.size + UInt64.ofNat data.length }) b.entries =
      f.entries ++ [{ e with size := UInt64.ofNat (c ++ data).length }] := by
    rw [h.entries, amendLast_snoc, List.length_append, UInt64.ofNat_add]
  have next : Filling hashChunk f.blocks e.entryId full
      { b with
        entries := amendLast (fun e => { e with size := e.size + UInt64.ofNat data.length }) b.entries
        totalSize := b.totalSize + UInt64.ofNat data.length
        content := b.content ++ data } := by
    refine ⟨?_, filling.blocks, filling.sized, filling.room, filling.offset⟩
    rw [amended, List.getLast?_concat]
    rfl
  obtain ⟨full', filled, all', same⟩ := fill_filling next (Nat.le_refl data.length)
  unfold SameEntries at same
  constructor
  · exact ⟨full', filled, by rw [← all]; exact all'⟩
  · exact (congrArg SignatureBuilder.entries same).trans amended
  · refine (congrArg SignatureBuilder.content same).trans ?_
    show b.content ++ data = _
    rw [h.content, List.append_assoc]
  · refine (congrArg SignatureBuilder.totalSize same).trans ?_
    show b.totalSize + UInt64.ofNat data.length = _
    rw [h.totalSize, List.length_append, UInt64.ofNat_add, UInt64.add_assoc]
  · exact (congrArg SignatureBuilder.blockSize same).trans h.blockSize
  · exact (congrArg SignatureBuilder.kind same).trans h.kind

end Entry

section Signed
variable (hashChunk : Bytes → ChunkHash) (size : Nat)

def entryOf (i : Nat) : RelPath × DiskNode → SignatureEntry
  | (rel, .file content executable) =>
      ⟨UInt32.ofNat i, rel.spelled, .file, UInt64.ofNat content.length, executable, none⟩
  | (rel, .symlink target) =>
      ⟨UInt32.ofNat i, rel.spelled, .symlink, 0, false, some (String.ofList (lossy target))⟩
  | (rel, .directory) => ⟨UInt32.ofNat i, rel.spelled, .directory, 0, false, none⟩

def rowsOf (i : Nat) (x : RelPath × DiskNode) : List SignatureBlockHash :=
  rowsFrom hashChunk (UInt32.ofNat i) 0 (cut size x.2.content)

theorem clamped_bounds (blockSize : UInt32) :
    minBlockSize.toNat ≤ (clamped blockSize).toNat ∧ (clamped blockSize).toNat ≤ maxBlockSize.toNat := by
  have low : minBlockSize.toNat = 1024 := rfl
  have high : maxBlockSize.toNat = 67108864 := rfl
  unfold clamped
  rw [UInt32.max_def, UInt32.min_def]
  split_ifs with small large large <;> simp only [UInt32.le_iff_toNat_le] at * <;> omega

theorem clamped_clamped (blockSize : UInt32) : clamped (clamped blockSize) = clamped blockSize := by
  have bounds := clamped_bounds blockSize
  generalize clamped blockSize = size at bounds
  rw [← UInt32.le_iff_toNat_le, ← UInt32.le_iff_toNat_le] at bounds
  unfold clamped
  rw [UInt32.max_def, UInt32.min_def]
  split_ifs with small large large
  · exact UInt32.le_antisymm bounds.1 small
  · exact absurd (by decide : minBlockSize ≤ maxBlockSize) large
  · rfl
  · exact absurd bounds.2 large

end Signed

end Cavs.Signature
