import Cavs.BloomHave
import Cavs.Session

/-!
# The filter of a session

A client with a large cache opens a session with a Bloom filter over its chunk hashes: a number
of bits, a number of probes and the bytes, each as the client likes. The server asks that the
bytes are an eighth of the bits before it probes, and probes over the bits.
-/
namespace Cavs.BloomFilter
open FileProg (Bytes)
open ByteScan
open BloomHaveSet (setBit testBit Has has_iff testBit_some setBits_some)

/-- `u64::next_multiple_of(8)`, which starts again from zero above the last one. -/
def nextMultipleOf8 (n : UInt64) : UInt64 := if n % 8 = 0 then n else n + (8 - n % 8)

def withCapacity (n : UInt64) : BloomFilter :=
  let mBits := max (nextMultipleOf8 (max n 1 * 10)) 64
  ⟨mBits, 7, List.replicate (mBits / 8).toNat 0⟩

/-- Set the probed bits; none where the program stops, at a division by zero or a bit out of range. -/
def insert (f : BloomFilter) (hash : ChunkHash) : Option BloomFilter :=
  if f.m = 0 ∧ f.k ≠ 0 then none
  else ((f.probes hash).foldlM (fun bits bit => setBit bits bit.toNat) f.bits).map fun bits => { f with bits }

def insertAll (f : BloomFilter) (hashes : List ChunkHash) : Option BloomFilter := hashes.foldlM insert f

section Probes
variable {f : BloomFilter} {hash : ChunkHash}

/-- The bit of one probe. -/
def probe (f : BloomFilter) (hash : ChunkHash) (i : Nat) : UInt64 :=
  (UInt64.ofNat (ofLe (hash.1.take 8)) + UInt64.ofNat i * (UInt64.ofNat (ofLe ((hash.1.drop 8).take 8)) ||| 1)) % f.m

theorem probes_eq : f.probes hash = (List.range f.k.toNat).map (f.probe hash) := rfl

theorem allSet_cons (bit : UInt64) (rest : List UInt64) : f.allSet (bit :: rest) =
    (testBit f.bits bit.toNat).bind fun set => if set then f.allSet rest else some false := by
  have mask : ∀ k : Fin 8, (1 : UInt8) <<< UInt8.ofNat k.1 = UInt8.ofNat (2 ^ k.1) := by decide
  rw [allSet, testBit]
  cases f.bits[bit.toNat / 8]? with
  | none => rfl
  | some byte =>
      dsimp only [Option.map_some, Option.bind_some]
      rw [mask ⟨bit.toNat % 8, Nat.mod_lt _ (by decide)⟩]
      simp only [decide_eq_true_eq]

theorem allSet_some {probes : List UInt64} (within : ∀ bit ∈ probes, bit.toNat / 8 < f.bits.length) :
    ∃ b, f.allSet probes = some b ∧ (b = true ↔ ∀ bit ∈ probes, Has f.bits bit.toNat) := by
  induction probes with
  | nil => exact ⟨true, rfl, by simp⟩
  | cons bit probes ih =>
      obtain ⟨rest, runs, iff⟩ := ih fun other mem => within other (.tail _ mem)
      obtain ⟨first, test⟩ := testBit_some (within bit (.head _))
      have set : Has f.bits bit.toNat ↔ first = true := by rw [Has, test, Option.some.injEq]
      rw [allSet_cons, test, Option.bind_some, List.forall_mem_cons, set, ← iff]
      cases first with
      | false => exact ⟨false, rfl, by simp⟩
      | true => exact ⟨rest, runs, by simp⟩

/-- The bytes hold every bit a probe may ask for. -/
structure Whole (f : BloomFilter) : Prop where
  bits : f.m ≠ 0
  bytes : f.m.toNat = 8 * f.bits.length

theorem Whole.within (whole : f.Whole) : ∀ bit ∈ f.probes hash, bit.toNat / 8 < f.bits.length := by
  intro bit mem
  rw [probes_eq] at mem
  obtain ⟨i, -, rfl⟩ := List.mem_map.mp mem
  have some_bits : 0 < f.m.toNat := Nat.pos_of_ne_zero fun zero => whole.bits (UInt64.toNat_inj.mp zero)
  have below : (f.probe hash i).toNat < f.m.toNat := by
    rw [probe, UInt64.toNat_mod]
    exact Nat.mod_lt _ some_bits
  rw [whole.bytes] at below
  exact Nat.div_lt_of_lt_mul below

/-- Every bit of the hash is set. -/
def Holds (f : BloomFilter) (hash : ChunkHash) : Prop := ∀ bit ∈ f.probes hash, Has f.bits bit.toNat

theorem Whole.contains (whole : f.Whole) : ∃ b, f.contains hash = some b ∧ (b = true ↔ f.Holds hash) := by
  have eighth : f.bits.length = f.m.toNat / 8 := by rw [whole.bytes, Nat.mul_div_cancel_left _ (by decide)]
  rw [BloomFilter.contains, if_neg (not_or.mpr ⟨not_not_intro eighth, whole.bits⟩)]
  exact allSet_some whole.within

theorem Whole.insert (whole : f.Whole) : ∃ f', f.insert hash = some f' ∧ f'.Whole ∧ f'.Holds hash ∧
    ∀ old, f.Holds old → f'.Holds old := by
  have within : ∀ i ∈ (f.probes hash).map UInt64.toNat, i / 8 < f.bits.length := by
    rw [List.forall_mem_map]
    exact whole.within
  obtain ⟨bits, sets, long, set, keeps⟩ := setBits_some within
  rw [List.foldlM_map] at sets
  rw [List.forall_mem_map] at set
  refine ⟨{ f with bits }, ?_, ⟨whole.bits, whole.bytes.trans (congrArg (8 * ·) long.symm)⟩, set,
    fun old holds bit mem => keeps bit.toNat (holds bit mem)⟩
  rw [BloomFilter.insert, if_neg fun none => whole.bits none.1, sets]
  rfl

theorem Whole.insertAll {hashes : List ChunkHash} (whole : f.Whole) : ∃ f', f.insertAll hashes = some f' ∧ f'.Whole ∧
    (∀ hash ∈ hashes, f'.Holds hash) ∧ ∀ old, f.Holds old → f'.Holds old := by
  induction hashes generalizing f with
  | nil => exact ⟨f, rfl, whole, by simp, fun _ holds => holds⟩
  | cons hash hashes ih =>
      obtain ⟨mid, inserts, whole, holds, keeps⟩ := @Whole.insert f hash whole
      obtain ⟨last, rest, whole', all, keeps'⟩ := ih whole
      refine ⟨last, ?_, whole', ?_, fun old held => keeps' old (keeps old held)⟩
      · rw [BloomFilter.insertAll, List.foldlM_cons, inserts]
        exact rest
      · rw [List.forall_mem_cons]
        exact ⟨keeps' hash holds, all⟩

end Probes

theorem nextMultipleOf8_mod (n : UInt64) : (nextMultipleOf8 n).toNat % 8 = 0 := by
  have low : (n % 8).toNat = n.toNat % 8 := UInt64.toNat_mod n 8
  unfold nextMultipleOf8
  split
  case isTrue multiple =>
    rw [← low, multiple]
    rfl
  case isFalse odd =>
    have gap : (8 - n % 8).toNat = 8 - n.toNat % 8 := by
      rw [UInt64.toNat_sub_of_le, low]
      · rfl
      · rw [UInt64.le_iff_toNat_le, low]
        exact (Nat.mod_lt _ (by decide)).le
    rw [UInt64.toNat_add, gap]
    have := Nat.mod_lt n.toNat (show 0 < 8 by decide)
    omega

theorem withCapacity_whole (n : UInt64) : (withCapacity n).Whole := by
  have multiple := nextMultipleOf8_mod (max n 1 * 10)
  have bits : (withCapacity n).m = 64 ∨
      (withCapacity n).m = nextMultipleOf8 (max n 1 * 10) ∧ ¬ nextMultipleOf8 (max n 1 * 10) ≤ 64 := by
    by_cases small : nextMultipleOf8 (max n 1 * 10) ≤ 64
    · exact .inl (if_pos small)
    · exact .inr ⟨if_neg small, small⟩
  have long : (withCapacity n).bits.length = (withCapacity n).m.toNat / 8 := by
    rw [withCapacity]
    exact List.length_replicate.trans (UInt64.toNat_div _ 8)
  have filled : (withCapacity n).m.toNat % 8 = 0 := by
    rcases bits with bits | ⟨bits, -⟩
    · rw [bits]
      rfl
    · rw [bits, multiple]
  constructor
  · intro zero
    rw [zero] at bits
    rcases bits with bits | ⟨bits, large⟩
    · exact absurd bits (by decide)
    · rw [← bits] at large
      exact large (by decide)
  · rw [long]
    omega

section Malformed
variable {f : BloomFilter} {hash : ChunkHash}

/-- A chunk hash gets its answer: there is one, and it is no when the bytes cannot hold the bits. -/
def Answers (f : BloomFilter) (hash : ChunkHash) : Prop :=
  ∃ b, f.contains hash = some b ∧ (8 * f.bits.length < f.m.toNat → b = false)

theorem contains_refused (refused : f.bits.length ≠ f.m.toNat / 8 ∨ f.m = 0) : f.contains hash = some false :=
  if_pos refused

/-- The chunk hash whose first probe is for the bit `bit`. -/
def hashAt (bit : UInt64) : ChunkHash := ⟨le 8 bit.toNat ++ List.replicate 24 0, by simp [le]⟩

theorem probe_hashAt {bit : UInt64} (below : bit.toNat < f.m.toNat) : f.probe (hashAt bit) 0 = bit := by
  have front : (hashAt bit).1.take 8 = le 8 bit.toNat := List.take_left' (by simp [le])
  have word : bit.toNat < 256 ^ 8 := bit.toNat_lt
  rw [probe, front, ofLe_le word, UInt64.ofNat_toNat]
  apply UInt64.toNat_inj.mp
  rw [UInt64.toNat_mod]
  simp [Nat.mod_eq_of_lt below]

/-- The last bit of a number of bits that does not fill its bytes lies behind them: probed, it stops
the program, and with no probe at all the filter claims every hash. -/
theorem not_answers (passes : f.bits.length = f.m.toNat / 8) (odd : f.m.toNat % 8 ≠ 0) :
    ¬ f.Answers (hashAt (f.m - 1)) := by
  have some_bits : f.m ≠ 0 := fun none => odd (by rw [none]; rfl)
  have last : (f.m - 1).toNat = f.m.toNat - 1 := UInt64.toNat_sub_of_le _ _ (by
    rw [UInt64.le_iff_toNat_le]
    change 1 ≤ f.m.toNat
    omega)
  rintro ⟨b, answer, no⟩
  rw [contains, if_neg (not_or.mpr ⟨not_not_intro passes, some_bits⟩), probes_eq] at answer
  cases rounds : f.k.toNat with
  | zero =>
      rw [rounds] at answer
      cases answer
      exact Bool.noConfusion (no (by omega))
  | succ k =>
      have behind : testBit f.bits (f.m - 1).toNat = none := by
        rw [testBit, List.getElem?_eq_none (by omega)]
        rfl
      rw [rounds, List.range_succ_eq_map, List.map_cons, probe_hashAt (by omega), allSet_cons, behind] at answer
      cases answer

theorem answers_iff : (∀ hash, f.Answers hash) ↔ f.m.toNat % 8 = 0 ∨ f.bits.length ≠ f.m.toNat / 8 := by
  constructor
  · intro all
    by_contra malformed
    obtain ⟨odd, passes⟩ := not_or.mp malformed
    exact not_answers (not_not.mp passes) odd (all _)
  · intro formed hash
    by_cases refused : f.bits.length ≠ f.m.toNat / 8 ∨ f.m = 0
    · exact ⟨false, contains_refused refused, fun _ => rfl⟩
    · obtain ⟨passes, some_bits⟩ := not_or.mp refused
      have passes := not_not.mp passes
      have bytes : f.m.toNat = 8 * f.bits.length := by omega
      obtain ⟨b, answer, -⟩ := @Whole.contains f hash ⟨some_bits, bytes⟩
      exact ⟨b, answer, fun short => by omega⟩

/-- A filter of a session answers for every chunk hash, and claims none that its bytes cannot hold,
exactly when its bits fill whole bytes or the bytes are not as many as the guard asks; a filter the
client's own constructor made contains every hash that was put into it. -/
theorem session_bloom_safe_iff (f : BloomFilter) (n : UInt64) (hashes : List ChunkHash) :
    ((∀ hash, f.Answers hash) ↔ f.m.toNat % 8 = 0 ∨ f.bits.length ≠ f.m.toNat / 8) ∧
    ∃ own, (withCapacity n).insertAll hashes = some own ∧ ∀ hash ∈ hashes, own.contains hash = some true := by
  refine ⟨answers_iff, ?_⟩
  obtain ⟨own, inserts, whole, holds, -⟩ := @Whole.insertAll (withCapacity n) hashes (withCapacity_whole n)
  refine ⟨own, inserts, fun hash mem => ?_⟩
  obtain ⟨b, answer, iff⟩ := @Whole.contains own hash whole
  rw [answer, iff.mpr (holds hash mem)]

/-- One bit, one probe and no bytes: the guard lets the filter pass, and the probe stops the program. -/
theorem not_session_bloom_safe : ¬ ∀ (f : BloomFilter) (hash : ChunkHash), f.Answers hash := by
  intro all
  exact @not_answers ⟨1, 1, []⟩ rfl (by decide) (all _ _)

end Malformed
end Cavs.BloomFilter
