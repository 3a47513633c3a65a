import Cavs.SignatureCodec

/-!
# What the decoder of signatures accepts

Whatever bytes a signature was read from, it fits: the blocks of a file lie one behind the
other from its beginning and reach its end, and the root is that of the blocks.
-/
namespace Cavs.Signature
open FileProg (Bytes)
open ByteScan
open Yields (guard)

section Accepted

theorem readVar_yields : Yields readVar (· < 2 ^ 64) := by
  intro s c n d t run
  exact (Leb.read_ok run).1

theorem readStr_yields : Yields readStr fun s => (strBytes s).length ≤ 2 ^ 16 := by
  refine Yields.bind readVar_yields fun len _ => Yields.skip fun left => guard fun fine => ?_
  refine .bind Yields.take fun bytes length => ?_
  intro s c x d t run
  rw [strBytes_utf8 (Yields.ofOption _ s c x d t run), length]
  omega

theorem readCount_yields (max : Nat) (what : String) : Yields (readCount max what) (· ≤ max) :=
  Yields.skip fun _ => guard fun fine => .pure (Nat.le_of_not_lt fine)

theorem readEntries_yields (count : Nat) (seen : List UInt32) :
    Yields (readEntries count seen) fun l => l.length = count ∧ EntriesFit seen l ∧
      ∀ e ∈ l, e.symlinkTarget ≠ some "" := by
  induction count generalizing seen with
  | zero => exact .pure ⟨rfl, trivial, nofun⟩
  | succ count ih =>
      refine .skip fun entryId => guard fun fine => ?_
      refine .bind readStr_yields fun path short => .skip fun kind => .skip fun size =>
        Yields.skip fun executable => .bind readStr_yields fun target short' => ?_
      refine .bind (ih _) fun rest fits => .pure ⟨congrArg (· + 1) fits.1, ?_, ?_⟩
      · refine ⟨fun mem => fine (.inr mem), short, ?_, fits.2.1⟩
        dsimp only
        split
        · exact Nat.zero_le _
        · exact short'
      · refine List.forall_mem_cons.mpr ⟨?_, fits.2.2⟩
        dsimp only
        split
        · nofun
        · rename_i named
          exact fun same => named (Option.some.inj same)

theorem readBlocks_yields {ids : List UInt32} {blockSize : Nat} (word : blockSize < 2 ^ 32) (count : Nat)
    (covered : Coverage) : Yields (readBlocks ids blockSize count covered) fun r =>
      r.1.length = count ∧ BlocksFit ids blockSize covered r.1 ∧ r.2 = coverage covered r.1 := by
  induction count generalizing covered with
  | zero => exact .pure ⟨rfl, trivial, rfl⟩
  | succ count ih =>
      refine .skip fun entryId => guard fun known => .bind readVar_yields fun offset small => ?_
      refine .skip fun len => guard fun bounded => guard fun contiguous => ?_
      refine .skip fun weak => .skip fun strong => .bind (ih _) fun rest fits => .pure ?_
      rw [not_or, not_not] at known
      rw [not_or, Nat.not_lt] at bounded
      rw [not_not] at contiguous
      have len_ : (UInt32.ofNat len).toNat = len := UInt32.toNat_ofNat_of_lt' (bounded.2.trans_lt word)
      have offset_ : (UInt64.ofNat offset).toNat = offset := UInt64.toNat_ofNat_of_lt' small
      obtain ⟨length, blocks, reached⟩ := fits
      refine ⟨congrArg (· + 1) length, ⟨known.2, ?_, ?_, ?_⟩, ?_⟩
      · dsimp only
        rw [len_]
        exact bounded
      · exact offset_.trans contiguous
      · dsimp only
        rw [len_, offset_]
        exact blocks
      · rw [coverage, len_, offset_]
        exact reached

variable (hashChunk : Bytes → ChunkHash)

theorem readSignature_yields : Yields (readSignature hashChunk) fun s => s.Fits hashChunk ∧ s.readBack = s := by
  refine .skip fun version => guard fun _ => .skip fun byte => .skip fun kind =>
    Yields.skip fun created => .skip fun blockSize => guard fun bounded => ?_
  refine .skip fun size => .skip fun source => .bind readStr_yields fun label short =>
    Yields.bind readStr_yields fun profile short' => ?_
  refine .bind (readCount_yields _ _) fun count few => .bind (readEntries_yields _ _) fun entries known => ?_
  rw [not_or, Nat.not_lt, Nat.not_lt] at bounded
  have high : maxBlockSize.toNat = 67108864 := rfl
  have word : blockSize < 2 ^ 32 := by omega
  refine .bind (readCount_yields _ _) fun count' few' => .bind (readBlocks_yields word _ _) fun r read => ?_
  obtain ⟨blocks, covered⟩ := r
  obtain ⟨length, fits, reached⟩ := read
  dsimp only at length fits reached
  subst reached
  refine guard fun covers => .skip fun root => .skip fun left => guard fun _ =>
    guard fun same => .pure ?_
  have size_ : (UInt32.ofNat blockSize).toNat = blockSize := UInt32.toNat_ofNat_of_lt' word
  refine ⟨⟨?_, short, short', known.1.le.trans few, known.2.1, ?_, ?_, ?_, not_not.mp same⟩, ?_⟩
  · dsimp only
    rw [size_]
    exact bounded
  · exact length.le.trans few'
  · dsimp only
    rw [size_]
    exact fits
  · intro e mem
    by_contra wrong
    exact covers ⟨e, mem, wrong⟩
  · exact readBack_of_named known.2.2

/-- Everything that is decoded fits, and is read back when it is written again. -/
theorem decode_fits {bytes : Bytes} {s : CavsSignature} (h : decode hashChunk bytes = .ok s) :
    s.Fits hashChunk ∧ s.readBack = s := by
  rw [decode] at h
  dsimp only at h
  split_ifs at h
  split at h
  · cases h
  · rename_i read c run
    cases h
    have whole : readSignature hashChunk () ⟨0, (bytes.take (bytes.length - 32)).drop 8⟩ =
        (.ok (s, c), (readSignature hashChunk () ⟨0, (bytes.take (bytes.length - 32)).drop 8⟩).2) := by
      rw [← run]
    exact readSignature_yields hashChunk _ _ _ _ _ whole

end Accepted

section Contiguous

variable {ids : List UInt32} {blockSize : Nat} {covered : Coverage} {blocks : List SignatureBlockHash}

/-- Blocks that lie one behind the other and fill what is between two offsets. -/
def Contiguous : Nat → List SignatureBlockHash → Nat → Prop
  | start, [], stop => start = stop
  | start, b :: rest, stop => b.offset.toNat = start ∧ Contiguous (start + b.len.toNat) rest stop

theorem BlocksFit.contiguous (h : BlocksFit ids blockSize covered blocks) (id : UInt32) :
    Contiguous (covered id) (blocks.filter fun b => b.entryId = id) (coverage covered blocks id) := by
  induction blocks generalizing covered with
  | nil => rfl
  | cons b rest ih =>
      obtain ⟨-, -, start, later⟩ := h
      have next := ih later
      rw [coverage]
      by_cases own : b.entryId = id
      · rw [List.filter_cons, if_pos (decide_eq_true own)]
        rw [if_pos own.symm] at next
        rw [← own] at next ⊢
        refine ⟨start, ?_⟩
        rw [← start]
        exact next
      · rw [List.filter_cons, if_neg (by simpa using own)]
        rw [if_neg (Ne.symm own)] at next
        exact next

theorem BlocksFit.bounded (h : BlocksFit ids blockSize covered blocks) :
    ∀ b ∈ blocks, b.entryId ∈ ids ∧ 0 < b.len.toNat ∧ b.len.toNat ≤ blockSize := by
  induction blocks generalizing covered with
  | nil => nofun
  | cons b rest ih =>
      obtain ⟨known, ⟨some, short⟩, -, later⟩ := h
      exact List.forall_mem_cons.mpr ⟨⟨known, Nat.pos_of_ne_zero some, short⟩, ih later⟩

end Contiguous

end Cavs.Signature
