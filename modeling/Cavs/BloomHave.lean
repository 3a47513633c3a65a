import Cavs.Envelope

/-!
# A filter in place of a list

A receiver with many objects sends a Bloom filter over their ids. Its rounds are taken from
the digest, modulo a size that a peer may choose; the reader of a filter asks no more of the
size than that the bytes are there.
-/
namespace Cavs
open FileProg (Bytes)
open ByteScan

/-- A filter over object ids. -/
structure BloomHaveSet where
  bits : Bytes
  hashes : UInt8
  inserted : UInt64
  deriving DecidableEq, Repr

/-- The sizing in floating point, up to the clamps: how many bits, and how many rounds for them. -/
structure BloomSizing (Rate : Type) where
  bits : (expected : Nat) → Rate → Nat
  hashes : (bits expected : Nat) → Nat

namespace BloomHaveSet

def sizedFor {Rate : Type} (sizing : BloomSizing Rate) (expected : Nat) (falsePositiveRate : Rate) : BloomHaveSet :=
  let expected := max expected 1
  let bits := min (max (sizing.bits expected falsePositiveRate) 64) (2 ^ 31)
  let hashes := min (max (sizing.hashes bits expected) 1) 16
  ⟨List.replicate ((bits + 7) / 8) 0, UInt8.ofNat hashes, 0⟩

/-- How many bits there are, as the product of machine words has it. -/
def bitCount (f : BloomHaveSet) : Nat := f.bits.length * 8 % 2 ^ 64

/-- The bit of one round; none, where the program stops, when it would divide by zero. -/
def index (f : BloomHaveSet) (id : ObjectId) (round : Nat) : Option Nat :=
  let h1 := ofLe (id.digest.1.take 8)
  let h2 := ofLe ((id.digest.1.drop 8).take 8) ||| 1
  if f.bitCount = 0 then none else some ((h1 + round * h2 % 2 ^ 64) % 2 ^ 64 % f.bitCount)

def indices (f : BloomHaveSet) (id : ObjectId) : Option (List Nat) :=
  (List.range f.hashes.toNat).mapM (f.index id)

/-- Set one bit; none when it is out of range. -/
def setBit (bits : Bytes) (i : Nat) : Option Bytes :=
  bits[i / 8]?.map fun byte => bits.set (i / 8) (byte ||| UInt8.ofNat (2 ^ (i % 8)))

def insert (f : BloomHaveSet) (id : ObjectId) : Option BloomHaveSet := do
  let indices ← f.indices id
  let bits ← indices.foldlM setBit f.bits
  return { f with bits, inserted := f.inserted + 1 }

/-- Whether a bit is set; none when it is out of range. -/
def testBit (bits : Bytes) (i : Nat) : Option Bool :=
  bits[i / 8]?.map fun byte => byte &&& UInt8.ofNat (2 ^ (i % 8)) ≠ 0

/-- The rounds from `round` on, to the first whose bit is not set. -/
def containsFrom (f : BloomHaveSet) (id : ObjectId) : (left round : Nat) → Option Bool
  | 0, _ => some true
  | left + 1, round => do
      let i ← f.index id round
      if ← testBit f.bits i then f.containsFrom id left (round + 1) else return false

def contains (f : BloomHaveSet) (id : ObjectId) : Option Bool := f.containsFrom id f.hashes.toNat 0

def insertAll (f : BloomHaveSet) (ids : List ObjectId) : Option BloomHaveSet := ids.foldlM insert f

def encode (f : BloomHaveSet) : Bytes :=
  f.hashes :: (writeVaruint f.inserted.toNat ++ (writeVaruint f.bits.length ++ f.bits))

def scan (maxBytes : Nat) : ObjScan BloomHaveSet := do
  let hashes := (← Scan.take (.truncated "bloom filter") 1).headD 0
  if hashes = 0 ∨ hashes > 16 then
    Scan.throw (.corrupt ("a bloom filter with " ++ toString hashes.toNat ++
      " hash rounds is not one this build made")) else
  let inserted ← readVaruint
  let len ← readVaruint
  if len > maxBytes then Scan.throw (.tooLarge "bloom filter" len maxBytes) else
  let left ← Scan.remaining
  if len ≠ left then
    Scan.throw (.corrupt "a bloom filter's declared length is not its actual length") else
  let bits ← Scan.take (.truncated "bloom filter") left
  return ⟨bits, hashes, UInt64.ofNat inserted⟩

def decode (bytes : Bytes) (maxBytes : Nat) : Except ObjectError BloomHaveSet :=
  ((scan maxBytes () ⟨0, bytes⟩).1).map Prod.fst

section Bits
variable {bits : Bytes} {i j : Nat}

/-- The bit is there, and set. -/
def Has (bits : Bytes) (i : Nat) : Prop := testBit bits i = some true

theorem and_or (m a b : UInt8) : m &&& (a ||| b) = (m &&& a) ||| (m &&& b) := by
  apply UInt8.toBitVec_inj.mp
  rw [UInt8.toBitVec_and, UInt8.toBitVec_or, BitVec.and_or_distrib_left]
  rfl

theorem or_and_mask (b : UInt8) {k : Nat} (small : k < 8) :
    (b ||| UInt8.ofNat (2 ^ k)) &&& UInt8.ofNat (2 ^ k) ≠ 0 := by
  have mask : ∀ k : Fin 8, UInt8.ofNat (2 ^ k.1) ≠ 0 := by decide
  rw [UInt8.and_comm, and_or, UInt8.and_self]
  intro zero
  exact mask ⟨k, small⟩ (UInt8.or_eq_zero_iff.mp zero).2

theorem or_and_ne {a m : UInt8} (b : UInt8) (h : a &&& m ≠ 0) : (a ||| b) &&& m ≠ 0 := by
  rw [UInt8.and_comm, and_or, UInt8.and_comm]
  intro zero
  exact h (UInt8.or_eq_zero_iff.mp zero).1

theorem has_iff : Has bits i ↔ ∃ byte, bits[i / 8]? = some byte ∧ byte &&& UInt8.ofNat (2 ^ (i % 8)) ≠ 0 := by
  unfold Has testBit
  cases bits[i / 8]? with
  | none => simp
  | some byte => simp

theorem testBit_some (within : i / 8 < bits.length) : ∃ b, testBit bits i = some b := by
  rw [testBit, List.getElem?_eq_getElem within]
  exact ⟨_, rfl⟩

/-- A set bit stays set, and no byte is added. -/
theorem setBit_some (within : i / 8 < bits.length) : ∃ bits', setBit bits i = some bits' ∧
    bits'.length = bits.length ∧ Has bits' i ∧ ∀ j, Has bits j → Has bits' j := by
  refine ⟨bits.set (i / 8) (bits[i / 8] ||| UInt8.ofNat (2 ^ (i % 8))), ?_, List.length_set, ?_, fun j has => ?_⟩
  · rw [setBit, List.getElem?_eq_getElem within]
    rfl
  · exact has_iff.mpr ⟨_, List.getElem?_set_self within, or_and_mask _ (Nat.mod_lt _ (by decide))⟩
  · obtain ⟨byte, there, set⟩ := has_iff.mp has
    rw [has_iff]
    by_cases same : i / 8 = j / 8
    · rw [← same] at there ⊢
      rw [List.getElem?_eq_getElem within] at there
      cases there
      exact ⟨_, List.getElem?_set_self within, or_and_ne _ set⟩
    · exact ⟨byte, by rwa [List.getElem?_set_ne same], set⟩

theorem setBits_some {l : List Nat} (within : ∀ i ∈ l, i / 8 < bits.length) :
    ∃ bits', l.foldlM setBit bits = some bits' ∧ bits'.length = bits.length ∧
      (∀ i ∈ l, Has bits' i) ∧ ∀ j, Has bits j → Has bits' j := by
  induction l generalizing bits with
  | nil => exact ⟨bits, rfl, rfl, by simp, fun _ has => has⟩
  | cons i l ih =>
      obtain ⟨mid, set, len, has, keeps⟩ := setBit_some (within i (.head _))
      have within' : ∀ j ∈ l, j / 8 < mid.length := fun j mem => len ▸ within j (.tail _ mem)
      obtain ⟨bits', sets, len', all, keeps'⟩ := ih within'
      refine ⟨bits', ?_, len'.trans len, ?_, fun j old => keeps' j (keeps j old)⟩
      · rw [List.foldlM_cons, set]
        exact sets
      · intro j mem
        rcases List.mem_cons.mp mem with rfl | mem
        · exact keeps' _ has
        · exact all j mem

end Bits

section Rounds
variable {f : BloomHaveSet} {id : ObjectId}

/-- The bit of a round, where there are bits. -/
def bitOf (f : BloomHaveSet) (id : ObjectId) (round : Nat) : Nat :=
  (ofLe (id.digest.1.take 8) +
    round * (ofLe ((id.digest.1.drop 8).take 8) ||| 1) % 2 ^ 64) % 2 ^ 64 % f.bitCount

/-- Every bit of the id is set. -/
def Holds (f : BloomHaveSet) (id : ObjectId) : Prop :=
  ∀ round < f.hashes.toNat, Has f.bits (f.bitOf id round)

theorem index_eq (bits : f.bitCount ≠ 0) (round : Nat) : f.index id round = some (f.bitOf id round) := by
  unfold index
  exact if_neg bits

theorem index_none (hollow : f.bitCount = 0) (round : Nat) : f.index id round = none := by
  unfold index
  exact if_pos hollow

/-- A round stays within the bytes there are. -/
theorem bitOf_within (bits : f.bitCount ≠ 0) (round : Nat) : f.bitOf id round / 8 < f.bits.length := by
  have below : f.bitOf id round < f.bitCount := Nat.mod_lt _ (Nat.pos_of_ne_zero bits)
  have few : f.bitCount ≤ f.bits.length * 8 := Nat.mod_le _ _
  omega

theorem indices_eq (bits : f.bitCount ≠ 0) :
    f.indices id = some ((List.range f.hashes.toNat).map (f.bitOf id)) := by
  have each : f.index id = fun round => pure (f.bitOf id round) := by
    funext round
    exact index_eq bits round
  rw [indices, each]
  exact List.mapM_pure

theorem containsFrom_some (bits : f.bitCount ≠ 0) (left round : Nat) :
    ∃ b, f.containsFrom id left round = some b ∧
      (b = true ↔ ∀ r, round ≤ r → r < round + left → Has f.bits (f.bitOf id r)) := by
  induction left generalizing round with
  | zero => exact ⟨true, rfl, by simp only [true_iff]; omega⟩
  | succ left ih =>
      obtain ⟨first, test⟩ := testBit_some (@bitOf_within f id bits round)
      obtain ⟨rest, runs, iff⟩ := ih (round + 1)
      have unfolded : f.containsFrom id (left + 1) round = if first then some rest else some false := by
        rw [containsFrom, index_eq bits]
        change (testBit f.bits (f.bitOf id round) >>= fun b => if b then _ else _) = _
        rw [test, ← runs]
        rfl
      cases first with
      | false =>
          refine ⟨false, unfolded, ⟨fun h => absurd h Bool.false_ne_true, fun all => ?_⟩⟩
          have set : Has f.bits (f.bitOf id round) := all round (Nat.le_refl _) (by omega)
          rw [Has, test] at set
          cases set
      | true =>
          refine ⟨rest, unfolded, iff.trans ⟨fun all r from_ below => ?_, fun all r from_ below => ?_⟩⟩
          · by_cases here : r = round
            · rw [here]
              exact test
            · exact all r (by omega) (by omega)
          · exact all r (by omega) (by omega)

theorem contains_some (bits : f.bitCount ≠ 0) (id : ObjectId) :
    ∃ b, f.contains id = some b ∧ (b = true ↔ f.Holds id) := by
  obtain ⟨b, runs, iff⟩ := @containsFrom_some f id bits f.hashes.toNat 0
  refine ⟨b, runs, iff.trans ⟨fun all round below => ?_, fun all r _ below => ?_⟩⟩
  · exact all round (Nat.zero_le _) (by omega)
  · exact all r (by omega)

/-- One insertion: the id is held from then on, what was held is held, and the sizes stay. -/
theorem insert_some (bits : f.bitCount ≠ 0) (id : ObjectId) : ∃ g, f.insert id = some g ∧
    g.bits.length = f.bits.length ∧ g.hashes = f.hashes ∧ g.Holds id ∧ ∀ other, f.Holds other → g.Holds other := by
  have within : ∀ i ∈ (List.range f.hashes.toNat).map (f.bitOf id), i / 8 < f.bits.length := by
    intro i mem
    obtain ⟨round, -, rfl⟩ := List.mem_map.mp mem
    exact bitOf_within bits round
  obtain ⟨set, runs, len, all, keeps⟩ := setBits_some within
  have places : ∀ other round, bitOf { f with bits := set, inserted := f.inserted + 1 } other round = f.bitOf other round := by
    intro other round
    simp only [bitOf, bitCount, len]
  refine ⟨{ f with bits := set, inserted := f.inserted + 1 }, ?_, len, rfl, ?_, ?_⟩
  · rw [insert, indices_eq bits]
    change ((List.range f.hashes.toNat).map (f.bitOf id)).foldlM setBit f.bits >>= _ = _
    rw [runs]
    rfl
  · intro round below
    rw [places]
    exact all _ (List.mem_map.mpr ⟨round, List.mem_range.mpr below, rfl⟩)
  · intro other held round below
    rw [places]
    exact keeps _ (held round below)

theorem insertAll_some (bits : f.bitCount ≠ 0) (ids : List ObjectId) : ∃ g, f.insertAll ids = some g ∧
    g.bits.length = f.bits.length ∧ g.hashes = f.hashes ∧ (∀ id ∈ ids, g.Holds id) ∧
      ∀ other, f.Holds other → g.Holds other := by
  induction ids generalizing f with
  | nil => exact ⟨f, rfl, rfl, rfl, by simp, fun _ held => held⟩
  | cons id ids ih =>
      obtain ⟨mid, inserts, len, hashes, held, keeps⟩ := insert_some bits id
      have bits' : mid.bitCount ≠ 0 := by rwa [bitCount, len]
      obtain ⟨g, runs, len', hashes', all, keeps'⟩ := ih bits'
      refine ⟨g, ?_, len'.trans len, hashes'.trans hashes, ?_, fun other old => keeps' other (keeps other old)⟩
      · rw [insertAll, List.foldlM_cons, inserts]
        exact runs
      · intro other mem
        rcases List.mem_cons.mp mem with rfl | mem
        · exact keeps' _ held
        · exact all other mem

/-- With no bits the first round divides by zero. -/
theorem contains_none (hollow : f.bitCount = 0) (rounds : f.hashes ≠ 0) (id : ObjectId) : f.contains id = none := by
  obtain ⟨left, more⟩ : ∃ left, f.hashes.toNat = left + 1 := by
    refine ⟨f.hashes.toNat - 1, ?_⟩
    have : f.hashes.toNat ≠ 0 := fun zero => rounds (UInt8.toNat_inj.mp (zero.trans rfl))
    omega
  rw [contains, more, containsFrom, index_none hollow]
  rfl

end Rounds

section Wire
variable {f : BloomHaveSet} {bytes : Bytes} {maxBytes : Nat}

theorem scan_scans (rounds : f.hashes ≠ 0) (few : f.hashes ≤ 16) (fits : f.bits.length ≤ maxBytes)
    (word : f.bits.length < 2 ^ 64) : scan maxBytes () ⟨0, encode f⟩ = (.ok (f, ⟨(encode f).length, []⟩), ()) := by
  have first : Scans (Scan.take (.truncated "bloom filter") 1 : ObjScan Bytes) () 0 [f.hashes] [f.hashes] () :=
    Scans.take rfl
  have inserted := readVaruint_scans (p := 0 + [f.hashes].length) f.inserted.toNat_lt
  have len := readVaruint_scans (p := 0 + [f.hashes].length + (writeVaruint f.inserted.toNat).length) word
  have made : ¬(f.hashes = 0 ∨ f.hashes > 16) := by
    rintro (zero | many)
    · exact rounds zero
    · exact absurd few (UInt8.not_le.mpr many)
  unfold scan
  refine (bind_of_ok (first _)).trans ((congrFun₂ (if_neg made) _ _).trans ?_)
  refine (bind_of_ok (inserted _)).trans ((bind_of_ok (len _)).trans ?_)
  refine (congrFun₂ (if_neg (Nat.not_lt.mpr fits)) _ _).trans ?_
  refine (bind_of_ok (x := f.bits.length) rfl).trans ((congrFun₂ (if_neg fun h => h rfl) _ _).trans ?_)
  refine (bind_of_ok (x := f.bits) (t := ()) (d := ⟨(encode f).length, []⟩) ?_).trans ?_
  · unfold Scan.take
    simp only [Nat.le_refl, if_true, List.take_length, List.drop_length, encode, List.length_cons, List.length_append]
    congr 4
    simp only [List.length_nil]
    omega
  · rw [UInt64.ofNat_toNat]
    rfl

/-- What is encoded comes back, within the limit. -/
theorem decode_encode (rounds : f.hashes ≠ 0) (few : f.hashes ≤ 16) (fits : f.bits.length ≤ maxBytes)
    (word : f.bits.length < 2 ^ 64) : decode (encode f) maxBytes = .ok f := by
  rw [decode, scan_scans rounds few fits word]
  rfl

/-- What is accepted is the encoding of what it is taken for. -/
theorem decode_ok (ok : decode bytes maxBytes = .ok f) :
    bytes = encode f ∧ f.hashes ≠ 0 ∧ f.hashes ≤ 16 ∧ f.bits.length ≤ maxBytes ∧ f.bits.length < 2 ^ 64 := by
  obtain ⟨c, run⟩ : ∃ c, scan maxBytes () ⟨0, bytes⟩ = (.ok (f, c), ()) := by
    rw [decode] at ok
    generalize scan maxBytes () ⟨0, bytes⟩ = result at ok ⊢
    obtain ⟨e | ⟨g, c⟩, ⟨⟩⟩ := result
    · cases ok
    · cases ok
      exact ⟨c, rfl⟩
  unfold scan at run
  obtain ⟨first, c1, ⟨⟩, taken, run⟩ := ok_of_bind run
  obtain ⟨start, single, -, -⟩ := ok_of_take taken
  obtain ⟨hashes, rfl⟩ := List.length_eq_one_iff.mp single
  by_cases made : hashes = 0 ∨ hashes > 16
  · cases (congrFun₂ (if_pos made) _ _).symm.trans run
  obtain ⟨inserted, c2, ⟨⟩, read, run⟩ := ok_of_bind ((congrFun₂ (if_neg made) _ _).symm.trans run)
  obtain ⟨word, start'⟩ := readVaruint_ok read
  obtain ⟨len, c3, ⟨⟩, read', run⟩ := ok_of_bind run
  obtain ⟨word', start''⟩ := readVaruint_ok read'
  by_cases large : len > maxBytes
  · cases (congrFun₂ (if_pos large) _ _).symm.trans run
  obtain ⟨left, c4, ⟨⟩, looked, run⟩ := ok_of_bind ((congrFun₂ (if_neg large) _ _).symm.trans run)
  cases looked
  by_cases differs : len ≠ c3.rest.length
  · cases (congrFun₂ (if_pos differs) _ _).symm.trans run
  obtain ⟨bits, c5, ⟨⟩, taken', run⟩ := ok_of_bind ((congrFun₂ (if_neg differs) _ _).symm.trans run)
  obtain ⟨start3, all, -, -⟩ := ok_of_take taken'
  cases run
  have same : len = bits.length := (not_not.mp differs).trans all.symm
  have spent : c.rest = [] := by
    rw [start3, List.length_append] at all
    exact List.eq_nil_of_length_eq_zero (by omega)
  have count : (UInt64.ofNat inserted).toNat = inserted := by
    rw [UInt64.toNat_ofNat', Nat.mod_eq_of_lt word]
  subst same
  refine ⟨?_, fun zero => made (.inl zero), UInt8.not_lt.mp fun many => made (.inr many), Nat.not_lt.mp large, word'⟩
  calc bytes = [hashes] ++ c1.rest := start
    _ = [hashes] ++ (writeVaruint inserted ++ (writeVaruint bits.length ++ (bits ++ c.rest))) := by
        rw [← start3, ← start'', ← start']
    _ = encode ⟨bits, hashes, UInt64.ofNat inserted⟩ := by
        rw [spent, List.append_nil, encode, count]
        rfl

theorem encode_bits {g : BloomHaveSet} (word : f.bits.length < 2 ^ 64) (word' : g.bits.length < 2 ^ 64)
    (same : encode f = encode g) : f.bits = g.bits := by
  have tail := (List.cons.inj same).2
  have tail' := (writeVaruint_inj f.inserted.toNat_lt g.inserted.toNat_lt tail).2
  exact (writeVaruint_inj word word' tail').2

end Wire

section Served
variable {f : BloomHaveSet} {bytes : Bytes} {maxBytes : Nat}

/-- Whatever is inserted, the filter answers for every id, and for no inserted one wrongly;
on the wire it loses nothing. -/
def Serves (f : BloomHaveSet) : Prop :=
  ∀ ids, ∃ g, f.insertAll ids = some g ∧ (∀ id, ∃ b, g.contains id = some b) ∧
    (∀ id, id ∈ ids ∨ f.contains id = some true → g.contains id = some true) ∧
    ∀ maxBytes, g.bits.length ≤ maxBytes → decode (encode g) maxBytes = .ok g

/-- The bytes carry a filter whose number of bits, as a machine word, is zero. -/
def Hollow (bytes : Bytes) : Prop :=
  ∃ f : BloomHaveSet, f.bits.length < 2 ^ 64 ∧ bytes = encode f ∧ f.bitCount = 0

theorem contains_of_holds {id : ObjectId} (bits : f.bitCount ≠ 0) : f.contains id = some true ↔ f.Holds id := by
  obtain ⟨b, runs, iff⟩ := contains_some bits id
  rw [runs, ← iff, Option.some_inj]

/-- A filter with bits and rounds answers, whatever is inserted. -/
theorem serves (bits : f.bitCount ≠ 0) (rounds : f.hashes ≠ 0) (few : f.hashes ≤ 16)
    (word : f.bits.length < 2 ^ 64) : f.Serves := by
  intro ids
  obtain ⟨g, runs, len, hashes, all, keeps⟩ := insertAll_some bits ids
  have bits' : g.bitCount ≠ 0 := by rwa [bitCount, len]
  refine ⟨g, runs, fun id => ?_, fun id held => ?_, fun maxBytes fits => ?_⟩
  · obtain ⟨b, answers, -⟩ := contains_some bits' id
    exact ⟨b, answers⟩
  · apply (contains_of_holds bits').mpr
    cases held with
    | inl mem => exact all id mem
    | inr old => exact keeps id ((contains_of_holds bits).mp old)
  · exact decode_encode (hashes ▸ rounds) (hashes ▸ few) fits (len ▸ word)

/-- With no bits there is no answer. -/
theorem not_serves (hollow : f.bitCount = 0) (rounds : f.hashes ≠ 0) : ¬f.Serves := by
  intro serves
  obtain ⟨g, runs, answers, -⟩ := serves []
  cases runs
  obtain ⟨b, answer⟩ := answers ⟨.blake3, ⟨List.replicate 32 0, rfl⟩⟩
  rw [contains_none hollow rounds] at answer
  cases answer

theorem sizedFor_serves {Rate : Type} (sizing : BloomSizing Rate) (expected : Nat) (rate : Rate) :
    (sizedFor sizing expected rate).Serves := by
  have len : (sizedFor sizing expected rate).bits.length =
      (min (max (sizing.bits (max expected 1) rate) 64) (2 ^ 31) + 7) / 8 := List.length_replicate
  have rounds : (sizedFor sizing expected rate).hashes.toNat =
      min (max (sizing.hashes (min (max (sizing.bits (max expected 1) rate) 64) (2 ^ 31)) (max expected 1)) 1) 16 := by
    change (UInt8.ofNat _).toNat = _
    rw [UInt8.toNat_ofNat']
    omega
  refine serves ?_ ?_ ?_ ?_
  · rw [bitCount, len]
    omega
  · intro zero
    have none : (0 : UInt8).toNat = 0 := rfl
    rw [zero, none] at rounds
    omega
  · rw [UInt8.le_iff_toNat_le, rounds]
    exact Nat.min_le_right _ _
  · rw [len]
    omega

/-- A filter off the wire answers for every id, however it is added to, unless it carries no
bits; one sized here always does. -/
theorem decoded_serves_iff {Rate : Type} (sizing : BloomSizing Rate) :
    (∀ bytes maxBytes f, decode bytes maxBytes = .ok f → (f.Serves ↔ ¬Hollow bytes)) ∧
      ∀ expected rate, (sizedFor sizing expected rate).Serves := by
  refine ⟨fun bytes maxBytes f ok => ?_, sizedFor_serves sizing⟩
  obtain ⟨rfl, rounds, few, -, word⟩ := decode_ok ok
  constructor
  · rintro answers ⟨g, word', same, hollow⟩
    refine not_serves ?_ rounds answers
    rw [bitCount, encode_bits word word' same]
    exact hollow
  · intro full
    exact serves (fun hollow => full ⟨f, word, rfl, hollow⟩) rounds few word

/-- One bit byte is enough. -/
theorem decoded_serves_iff_byte :
    decode [1, 0, 1, 0] 1 = .ok ⟨[0], 1, 0⟩ ∧ (BloomHaveSet.Serves ⟨[0], 1, 0⟩ ↔ ¬Hollow [1, 0, 1, 0]) :=
  ⟨rfl, (@decoded_serves_iff Unit ⟨fun _ _ => 0, fun _ _ => 0⟩).1 [1, 0, 1, 0] 1 ⟨[0], 1, 0⟩ rfl⟩

/-- Three bytes make a filter of no bits that the reader takes, and every question put to it
divides by zero. -/
theorem decode_hollow : ∃ f, decode [1, 0, 0] 0 = .ok f ∧ ∀ id, f.contains id = none ∧ f.insert id = none :=
  ⟨⟨[], 1, 0⟩, rfl, fun _ => ⟨rfl, rfl⟩⟩

end Served
end BloomHaveSet
end Cavs
