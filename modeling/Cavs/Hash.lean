import Cavs.ByteScan

/-!
# Hashes and their hex names

A chunk is named by a 32-byte hash, written as 64 lower-case digits. Strings are
taken apart as their UTF-8 bytes.
-/
namespace Cavs
open FileProg (Bytes)

def strBytes (s : String) : Bytes := s.toByteArray.data.toList

def utf8 (b : Bytes) : Option String := String.fromUTF8? b.toByteArray

theorem utf8_strBytes (s : String) : utf8 (strBytes s) = some s := by
  have same : (strBytes s).toByteArray = s.toByteArray := by
    rw [ByteArray.ext_iff, List.data_toByteArray, strBytes, Array.toArray_toList]
  rw [utf8, same, String.fromUTF8?, dif_pos s.isValidUTF8]
  rfl

theorem strBytes_utf8 {b : Bytes} {s : String} (h : utf8 b = some s) : strBytes s = b := by
  rw [utf8, String.fromUTF8?] at h
  split at h
  · cases h
    rw [strBytes, String.fromUTF8, List.data_toByteArray]
  · cases h

theorem strBytes_ofList (l : List Char) :
    strBytes (String.ofList l) = l.flatMap String.utf8EncodeChar := by
  rw [strBytes, String.toByteArray_ofList, List.utf8Encode, List.data_toByteArray]

abbrev ChunkHash := { b : Bytes // b.length = 32 }

instance : LawfulBEq ChunkHash := inferInstance

def hexDigits : List Char :=
  ['0', '1', '2', '3', '4', '5', '6', '7', '8', '9', 'a', 'b', 'c', 'd', 'e', 'f']

def hexDigit (n : Nat) : Char := hexDigits.getD n '0'

def hexPair (b : UInt8) : List Char := [hexDigit (b.toNat / 16), hexDigit (b.toNat % 16)]

def toHex (h : ChunkHash) : String := String.ofList (h.1.flatMap hexPair)

/-- The value of one digit of either case. -/
def hexValue (c : UInt8) : Option Nat :=
  if 48 ≤ c ∧ c ≤ 57 then some (c.toNat - 48)
  else if 97 ≤ c ∧ c ≤ 102 then some (c.toNat - 87)
  else if 65 ≤ c ∧ c ≤ 70 then some (c.toNat - 55)
  else none

/-- `u8::from_str_radix` on two characters: a plus sign may stand before the number. -/
def hexByte (c d : UInt8) : Option UInt8 :=
  if c = 43 then (hexValue d).map UInt8.ofNat
  else (hexValue c).bind fun x => (hexValue d).map fun y => UInt8.ofNat (16 * x + y)

def hexBytes : Bytes → Option Bytes
  | [] => some []
  | [_] => none
  | c :: d :: rest => (hexByte c d).bind fun b => (hexBytes rest).map (b :: ·)

/-- A string of 64 bytes in which a slice would cut a character ends the source's
program; here it has no hash, like every other string that is not hex. -/
def fromHex (s : String) : Option ChunkHash :=
  (hexBytes (strBytes s)).bind fun l => if h : l.length = 32 then some ⟨l, h⟩ else none

theorem hexDigit_mem (n : Nat) : hexDigit n ∈ hexDigits := by
  rw [hexDigit, List.getD_eq_getElem?_getD]
  by_cases small : n < hexDigits.length
  · rw [List.getElem?_eq_getElem small]
    exact List.getElem_mem small
  · rw [List.getElem?_eq_none (Nat.le_of_not_lt small)]
    decide

theorem hexPair_mem {b : UInt8} {ch : Char} (mem : ch ∈ hexPair b) : ch ∈ hexDigits := by
  simp only [hexPair, List.mem_cons, List.not_mem_nil, or_false] at mem
  rcases mem with rfl | rfl <;> exact hexDigit_mem _

theorem hexByte_hexPair (b : UInt8) :
    ∃ c d, (hexPair b).flatMap String.utf8EncodeChar = [c, d] ∧ hexByte c d = some b := by
  have table : ∀ n : Fin 256, ∃ c d,
      (hexPair (UInt8.ofNat n)).flatMap String.utf8EncodeChar = [c, d] ∧
        hexByte c d = some (UInt8.ofNat n) := by
    intro n
    refine ⟨((hexPair (UInt8.ofNat n)).flatMap String.utf8EncodeChar).getD 0 0,
      ((hexPair (UInt8.ofNat n)).flatMap String.utf8EncodeChar).getD 1 0, ?_⟩
    revert n
    decide +kernel
  simpa using table ⟨b.toNat, b.toNat_lt⟩

theorem hexBytes_hexPair (l : Bytes) :
    hexBytes ((l.flatMap hexPair).flatMap String.utf8EncodeChar) = some l := by
  induction l with
  | nil => rfl
  | cons b bs ih =>
      obtain ⟨c, d, digits, value⟩ := hexByte_hexPair b
      rw [List.flatMap_cons, List.flatMap_append, digits]
      simp only [List.cons_append, List.nil_append, hexBytes, value, ih, Option.bind_some,
        Option.map_some]

theorem fromHex_toHex (h : ChunkHash) : fromHex (toHex h) = some h := by
  rw [fromHex, toHex, strBytes_ofList, hexBytes_hexPair, Option.bind_some, dif_pos h.2]

theorem toHex_injective {g h : ChunkHash} (same : toHex g = toHex h) : g = h := by
  have := congrArg fromHex same
  simpa only [fromHex_toHex, Option.some.injEq] using this

/-- A string that is the hex name of a hash. -/
def IsHex (s : String) : Prop := ∃ h, toHex h = s

theorem isHex_toHex (h : ChunkHash) : IsHex (toHex h) := ⟨h, rfl⟩

def zeroHash : ChunkHash := ⟨List.replicate 32 0, rfl⟩

def maxHash : ChunkHash := ⟨List.replicate 32 255, rfl⟩

/-- A hash that keeps the first bytes. -/
def numberHash (b : Bytes) : ChunkHash := ⟨ByteScan.le 32 (ByteScan.ofLe b), ByteScan.le_length 32 _⟩

/-- The hash written for a ledger key; a key that is not hex is written as zeros. -/
def hexHash (s : String) : ChunkHash := (fromHex s).getD zeroHash

@[simp] theorem hexHash_toHex (h : ChunkHash) : hexHash (toHex h) = h := by
  rw [hexHash, fromHex_toHex, Option.getD_some]

theorem toHex_hexHash {s : String} (h : IsHex s) : toHex (hexHash s) = s := by
  obtain ⟨g, rfl⟩ := h
  rw [hexHash_toHex]

end Cavs
