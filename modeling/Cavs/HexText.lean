import Cavs.Hash
import Cavs.Outcome
import Mathlib.Tactic.IntervalCases

/-!
# Reading the text of a hash

The text is cut by bytes, two at a time, and each piece goes to the parser of integers. That
parser takes a sign, and a cut through a character ends the program.
-/
namespace Cavs
open FileProg (Bytes)
open List (replicate)

section Parse

/-- `str::is_char_boundary`. -/
def isCharBoundary (b : Bytes) (i : Nat) : Bool :=
  match b[i]? with
  | none => decide (i = b.length)
  | some x => i = 0 || x < 0x80 || 0xc0 ≤ x

/-- `&s[start..stop]`. -/
def sliceStr {ε : Type} (b : Bytes) (start stop : Nat) : Outcome ε Bytes :=
  if start ≤ stop && isCharBoundary b start && isCharBoundary b stop then .ok ((b.drop start).take (stop - start))
  else .panics

/-- The digits of a byte; more than 255 is an error. -/
def hexDigitsValue : Bytes → (acc : Nat) → Option Nat
  | [], acc => some acc
  | c :: rest, acc => (hexValue c).bind fun d => if 16 * acc + d < 256 then hexDigitsValue rest (16 * acc + d) else none

/-- `u8::from_str_radix(_, 16)`: a sign alone is no number, and a plus before one is skipped. -/
def u8FromStrRadix (b : Bytes) : Option UInt8 :=
  let digits := match b with
    | [] => none
    | [c] => if c = 43 ∨ c = 45 then none else hexDigitsValue [c] 0
    | c :: d :: rest => if c = 43 then hexDigitsValue (d :: rest) 0 else hexDigitsValue (c :: d :: rest) 0
  digits.map UInt8.ofNat

/-- The rest of the loop: `n` pairs from the pair `i` on. -/
def fromHexPairs (b : Bytes) : (n i : Nat) → Outcome Unit Bytes
  | 0, _ => .ok []
  | n + 1, i => do
      let pair ← sliceStr b (i * 2) (i * 2 + 2)
      let x ← Outcome.ofOption () (u8FromStrRadix pair)
      let rest ← fromHexPairs b n (i + 1)
      return x :: rest

/-- `from_hex`, as it runs. -/
def fromHexCall (s : String) : Outcome Empty (Option ChunkHash) :=
  if (strBytes s).length ≠ 64 then .ok none
  else match fromHexPairs (strBytes s) 32 0 with
    | .ok l => .ok (if h : l.length = 32 then some ⟨l, h⟩ else none)
    | .error () => .ok none
    | .panics => .panics

end Parse

section Spec

def isHexDigit (c : Char) : Bool :=
  ('0' ≤ c && c ≤ '9') || ('a' ≤ c && c ≤ 'f') || ('A' ≤ c && c ≤ 'F')

def Is64Hex (s : String) : Prop := s.toList.length = 64 ∧ ∀ c ∈ s.toList, isHexDigit c = true

/-- The text comes back as a hash exactly when it is one, and the hash is written as the text
in lower case. -/
def ReadsAsHex (s : String) : Prop :=
  ∃ r, fromHexCall s = .ok r ∧ (r.isSome = true ↔ Is64Hex s) ∧ ∀ h, r = some h → toHex h = s.toLower

/-- Two bytes that the parser of integers takes for a number. -/
def Numeral (c d : UInt8) : Prop := (c = 43 ∨ (hexValue c).isSome = true) ∧ (hexValue d).isSome = true

def NumeralAt (b : Bytes) (i : Nat) : Prop := Numeral (b.getD (2 * i) 0) (b.getD (2 * i + 1) 0)

/-- The first pair that is no number does not end inside a character. -/
def WellCut (s : String) : Prop :=
  (strBytes s).length ≠ 64 ∨ Is64Hex s ∨
    ∃ i < 32, (∀ j < i, NumeralAt (strBytes s) j) ∧ ¬ NumeralAt (strBytes s) i ∧
      isCharBoundary (strBytes s) (2 * i + 2) = true

end Spec

section Pairs
variable {c d : UInt8} {b : Bytes}

theorem hexValue_small {x : Nat} (h : hexValue c = some x) : x < 16 ∧ c.toNat < 128 := by
  have up : ∀ n < 256, c ≤ UInt8.ofNat n → c.toNat ≤ n := by
    intro n small le
    have := UInt8.le_iff_toNat_le.mp le
    rwa [UInt8.toNat_ofNat', Nat.mod_eq_of_lt small] at this
  rw [hexValue] at h
  split at h
  · rename_i range
    have := up 57 (by decide) range.2
    cases h
    omega
  · split at h
    · rename_i range
      have := up 102 (by decide) range.2
      cases h
      omega
    · split at h
      · rename_i range
        have := up 70 (by decide) range.2
        cases h
        omega
      · cases h

/-- On two bytes the parser of integers is the one that reads a byte. -/
theorem u8FromStrRadix_pair (c d : UInt8) : u8FromStrRadix [c, d] = hexByte c d := by
  rw [u8FromStrRadix, hexByte]
  by_cases plus : c = 43
  · simp only [plus, if_true, hexDigitsValue]
    cases second : hexValue d with
    | none => rfl
    | some y =>
        have := (hexValue_small second).1
        simp only [Option.bind_some, Nat.mul_zero, Nat.zero_add, if_pos (show y < 256 by omega)]
  · simp only [plus, if_false, hexDigitsValue]
    cases first : hexValue c with
    | none => rfl
    | some x =>
        have := (hexValue_small first).1
        simp only [Option.bind_some, Nat.mul_zero, Nat.zero_add, if_pos (show x < 256 by omega)]
        cases second : hexValue d with
        | none => rfl
        | some y =>
            have := (hexValue_small second).1
            simp only [Option.bind_some, if_pos (show 16 * x + y < 256 by omega)]
            rfl

theorem numeral_iff : Numeral c d ↔ (hexByte c d).isSome = true := by
  rw [Numeral, hexByte]
  by_cases plus : c = 43
  · simp [plus]
  · cases hexValue c with
    | none => simp [plus]
    | some x => simp [plus]

theorem hexValue_ascii (h : (hexValue c).isSome = true) : c.toNat < 128 := by
  obtain ⟨x, value⟩ := Option.isSome_iff_exists.mp h
  exact (hexValue_small value).2

theorem Numeral.ascii (h : Numeral c d) : c.toNat < 128 ∧ d.toNat < 128 := by
  refine ⟨?_, hexValue_ascii h.2⟩
  rcases h.1 with rfl | digit
  · decide
  · exact hexValue_ascii digit

end Pairs

section Characters
variable {l : List Char}

/-- The bytes of a text, by its characters. -/
def utf8Bytes (l : List Char) : Bytes := l.flatMap String.utf8EncodeChar

theorem strBytes_eq_utf8Bytes (s : String) : strBytes s = utf8Bytes s.toList := by
  rw [utf8Bytes, ← strBytes_ofList, String.ofList_toList]

theorem encode_first (c : Char) : (String.utf8EncodeChar c = [UInt8.ofNat c.toNat] ∧ c.toNat < 128) ∨
    ∃ x rest, String.utf8EncodeChar c = x :: rest ∧ 192 ≤ x.toNat := by
  have value : c.val.toNat = c.toNat := rfl
  rw [String.utf8EncodeChar]
  split
  · exact .inl ⟨rfl, by omega⟩
  · split
    · exact .inr ⟨_, _, rfl, by rw [UInt8.toNat_ofNat']; omega⟩
    · split
      · exact .inr ⟨_, _, rfl, by rw [UInt8.toNat_ofNat']; omega⟩
      · exact .inr ⟨_, _, rfl, by rw [UInt8.toNat_ofNat']; omega⟩

/-- A text that begins with an ASCII byte begins with that character. -/
theorem utf8Bytes_eq_cons {x : UInt8} {rest : Bytes} (bytes : utf8Bytes l = x :: rest) (ascii : x.toNat < 128) :
    ∃ c l', l = c :: l' ∧ c.toNat = x.toNat ∧ utf8Bytes l' = rest := by
  cases l with
  | nil => cases bytes
  | cons c l =>
      rw [utf8Bytes, List.flatMap_cons] at bytes
      rcases encode_first c with ⟨single, small⟩ | ⟨y, others, many, high⟩
      · rw [single, List.singleton_append, List.cons.injEq] at bytes
        refine ⟨c, l, rfl, ?_, bytes.2⟩
        rw [← bytes.1, UInt8.toNat_ofNat', Nat.mod_eq_of_lt (by omega)]
      · rw [many, List.cons_append, List.cons.injEq] at bytes
        rw [bytes.1] at high
        omega

/-- A character begins where a text does. -/
theorem boundary_append (front : Bytes) : isCharBoundary (front ++ utf8Bytes l) front.length = true := by
  have here : (front ++ utf8Bytes l)[front.length]? = (utf8Bytes l)[0]? := by
    rw [List.getElem?_append_right (Nat.le_refl _), Nat.sub_self]
  rw [isCharBoundary, here]
  cases l with
  | nil => simp [utf8Bytes]
  | cons c l =>
      rw [utf8Bytes, List.flatMap_cons]
      rcases encode_first c with ⟨single, small⟩ | ⟨y, others, many, high⟩
      · have ascii : UInt8.ofNat c.toNat < 0x80 := by
          rw [UInt8.lt_iff_toNat_lt, UInt8.toNat_ofNat', Nat.mod_eq_of_lt (by omega)]
          exact small
        simp [single, ascii]
      · have lead : (0xc0 : UInt8) ≤ y := UInt8.le_iff_toNat_le.mpr high
        simp [many, lead]

theorem isHexDigit_spec {ch : Char} (h : isHexDigit ch = true) :
    ∃ x v, String.utf8EncodeChar ch = [x] ∧ hexValue x = some v ∧ hexDigit v = ch.toLower := by
  have name : ch = Char.ofNat ch.toNat := (Char.ofNat_toNat ch).symm
  have range : (48 ≤ ch.toNat ∧ ch.toNat ≤ 57) ∨ (97 ≤ ch.toNat ∧ ch.toNat ≤ 102) ∨ (65 ≤ ch.toNat ∧ ch.toNat ≤ 70) := by
    simpa [isHexDigit, Char.le_def, UInt32.le_iff_toNat_le, or_assoc] using h
  rcases range with ⟨low, high⟩ | ⟨low, high⟩ | ⟨low, high⟩ <;>
    (generalize ch.toNat = n at name low high; subst name; interval_cases n <;> exact ⟨_, _, rfl, rfl, rfl⟩)

theorem utf8Bytes_digit {ch : Char} {x : UInt8} {rest : Bytes} (bytes : utf8Bytes (ch :: l) = x :: rest)
    (digit : isHexDigit ch = true) : ∃ v, hexValue x = some v ∧ hexDigit v = ch.toLower ∧ utf8Bytes l = rest := by
  obtain ⟨y, v, enc, value, lower⟩ := isHexDigit_spec digit
  rw [utf8Bytes, List.flatMap_cons, enc, List.singleton_append, List.cons.injEq] at bytes
  obtain ⟨rfl, tail⟩ := bytes
  exact ⟨v, value, lower, tail⟩

end Characters

section Loop
variable {l : List Char} {b : Bytes} {c d : UInt8}

theorem hexPair_hexByte {x y : Nat} (first : hexValue c = some x) (second : hexValue d = some y) :
    ∃ v, hexByte c d = some v ∧ hexPair v = [hexDigit x, hexDigit y] := by
  have digit : c ≠ 43 := by
    rintro rfl
    cases first
  have := (hexValue_small first).1
  have := (hexValue_small second).1
  refine ⟨UInt8.ofNat (16 * x + y), by simp [hexByte, digit, first, second], ?_⟩
  have high : (16 * x + y) / 16 = x := by omega
  have low : (16 * x + y) % 16 = y := by omega
  rw [hexPair, UInt8.toNat_ofNat', Nat.mod_eq_of_lt (by omega), high, low]

/-- What the loop makes of a text of `n` pairs that stands behind `front`. -/
inductive PairsRead (b : Bytes) (l : List Char) (n i : Nat) : Outcome Unit Bytes → Prop where
  | all (v : Bytes) (len : v.length = n) (numerals : ∀ j, i ≤ j → j < i + n → NumeralAt b j)
      (lower : (∀ c ∈ l, isHexDigit c = true) → v.flatMap hexPair = l.map Char.toLower) : PairsRead b l n i (.ok v)
  | stops (k : Nat) (low : i ≤ k) (high : k < i + n) (numerals : ∀ j, i ≤ j → j < k → NumeralAt b j)
      (other : ¬ NumeralAt b k) (digits : ¬ ∀ c ∈ l, isHexDigit c = true) :
      PairsRead b l n i (if isCharBoundary b (2 * k + 2) = true then .error () else .panics)

theorem fromHexPairs_read (n i : Nat) (front : Bytes) (l : List Char) (behind : front.length = 2 * i)
    (size : (utf8Bytes l).length = 2 * n) :
    PairsRead (front ++ utf8Bytes l) l n i (fromHexPairs (front ++ utf8Bytes l) n i) := by
  induction n generalizing i front l with
  | zero =>
      have nothing : l = [] := by
        cases l with
        | nil => rfl
        | cons c l =>
            rw [utf8Bytes, List.flatMap_cons, List.length_append] at size
            rcases encode_first c with ⟨single, -⟩ | ⟨y, others, many, -⟩
            · simp [single] at size
            · simp [many] at size
      subst nothing
      exact .all [] rfl (fun j low high => by omega) fun _ => rfl
  | succ n ih =>
      obtain ⟨c, d, rest, bytes⟩ : ∃ c d rest, utf8Bytes l = c :: d :: rest := by
        match utf8Bytes l, size with
        | c :: d :: rest, _ => exact ⟨c, d, rest, rfl⟩
      have start : isCharBoundary (front ++ utf8Bytes l) (2 * i) = true := behind ▸ boundary_append front
      have first : (front ++ utf8Bytes l).getD (2 * i) 0 = c := by
        rw [List.getD_eq_getElem?_getD, List.getElem?_append_right (by omega), behind, Nat.sub_self, bytes]
        rfl
      have second : (front ++ utf8Bytes l).getD (2 * i + 1) 0 = d := by
        rw [List.getD_eq_getElem?_getD, List.getElem?_append_right (by omega), behind, Nat.add_sub_cancel_left, bytes]
        rfl
      have here : NumeralAt (front ++ utf8Bytes l) i ↔ Numeral c d := by rw [NumeralAt, first, second]
      have cut : (sliceStr (front ++ utf8Bytes l) (i * 2) (i * 2 + 2) : Outcome Unit Bytes) =
          if isCharBoundary (front ++ utf8Bytes l) (2 * i + 2) = true then .ok [c, d] else .panics := by
        have piece : ((front ++ utf8Bytes l).drop (2 * i)).take (2 * i + 2 - 2 * i) = [c, d] := by
          rw [List.drop_append_of_le_length (by omega), List.drop_of_length_le (by omega), bytes,
            Nat.add_sub_cancel_left]
          rfl
        rw [Nat.mul_comm i 2, sliceStr, start, piece]
        simp
      rw [fromHexPairs, cut]
      by_cases numeral : Numeral c d
      · obtain ⟨asciiC, asciiD⟩ := numeral.ascii
        obtain ⟨c₁, l₁, rfl, valueC, bytes₁⟩ := utf8Bytes_eq_cons bytes asciiC
        obtain ⟨c₂, l₂, rfl, valueD, bytes₂⟩ := utf8Bytes_eq_cons bytes₁ asciiD
        have whole : front ++ utf8Bytes (c₁ :: c₂ :: l₂) = (front ++ [c, d]) ++ utf8Bytes l₂ := by
          rw [bytes, bytes₂, List.append_assoc]
          rfl
        have len : (front ++ [c, d]).length = 2 * (i + 1) := by
          rw [List.length_append, behind]
          rfl
        have stop : isCharBoundary (front ++ utf8Bytes (c₁ :: c₂ :: l₂)) (2 * i + 2) = true := by
          rw [whole, show 2 * i + 2 = (front ++ [c, d]).length by rw [len]; omega]
          exact boundary_append _
        obtain ⟨x, value⟩ := Option.isSome_iff_exists.mp (numeral_iff.mp numeral)
        have tail := ih (i + 1) (front ++ [c, d]) l₂ len (by
          rw [bytes, ← bytes₂, List.length_cons, List.length_cons] at size
          omega)
        rw [← whole] at tail
        rw [if_pos stop, Outcome.ok_bind, u8FromStrRadix_pair, value]
        have before (k : Nat) (rest : ∀ j, i + 1 ≤ j → j < k → NumeralAt (front ++ utf8Bytes (c₁ :: c₂ :: l₂)) j) (j : Nat)
            (low : i ≤ j) (high : j < k) : NumeralAt (front ++ utf8Bytes (c₁ :: c₂ :: l₂)) j := by
          obtain rfl | later := Nat.eq_or_lt_of_le low
          · exact here.mpr numeral
          · exact rest j later high
        rw [Outcome.ofOption, Outcome.ok_bind]
        generalize fromHexPairs (front ++ utf8Bytes (c₁ :: c₂ :: l₂)) n (i + 1) = out at tail ⊢
        cases tail with
        | all v len numerals lower =>
            refine .all (x :: v) (by rw [List.length_cons, len]) (before _ fun j low high => numerals j low (by omega))
              fun digits => ?_
            obtain ⟨x₁, val₁, low₁, -⟩ := utf8Bytes_digit bytes (digits c₁ (.head _))
            obtain ⟨x₂, val₂, low₂, -⟩ := utf8Bytes_digit bytes₁ (digits c₂ (.tail _ (.head _)))
            obtain ⟨w, read, written⟩ := hexPair_hexByte val₁ val₂
            obtain rfl := Option.some.inj (value.symm.trans read)
            rw [List.flatMap_cons, written, lower fun ch mem => digits ch (.tail _ (.tail _ mem)), low₁, low₂]
            rfl
        | stops k low high numerals other digits =>
            have stopped := PairsRead.stops (l := c₁ :: c₂ :: l₂) (n := n + 1) k (Nat.le_of_succ_le low) (by omega)
              (before k numerals) other fun all => digits fun ch mem => all ch (.tail _ (.tail _ mem))
            split
            · rename_i yes
              rwa [if_pos yes] at stopped
            · rename_i no
              rwa [if_neg no] at stopped
      · have rejected : hexByte c d = none := by
          rw [numeral_iff] at numeral
          exact Option.not_isSome_iff_eq_none.mp numeral
        have digits : ¬ ∀ ch ∈ l, isHexDigit ch = true := by
          intro digits
          cases l with
          | nil => cases bytes
          | cons c₁ l₁ =>
              obtain ⟨x, val₁, -, bytes₁⟩ := utf8Bytes_digit bytes (digits c₁ (.head _))
              cases l₁ with
              | nil => cases bytes₁
              | cons c₂ l₂ =>
                  obtain ⟨y, val₂, -, -⟩ := utf8Bytes_digit bytes₁ (digits c₂ (.tail _ (.head _)))
                  exact numeral ⟨.inr (by rw [val₁]; rfl), by rw [val₂]; rfl⟩
        have stopped := PairsRead.stops (l := l) (n := n + 1) i (Nat.le_refl i) (by omega)
          (fun j low high => absurd high (by omega)) (here.not.mpr numeral) digits
        by_cases stop : isCharBoundary (front ++ utf8Bytes l) (2 * i + 2) = true
        · rw [if_pos stop] at stopped ⊢
          rw [Outcome.ok_bind, u8FromStrRadix_pair, rejected]
          exact stopped
        · rw [if_neg stop] at stopped ⊢
          exact stopped

end Loop

section Read
variable {s : String}

theorem hexBytes_length {b l : Bytes} (h : hexBytes b = some l) : b.length = l.length * 2 := by
  fun_induction hexBytes b generalizing l with
  | case1 =>
      cases h
      rfl
  | case2 => cases h
  | case3 c d rest ih =>
      obtain ⟨x, -, more⟩ := Option.bind_eq_some_iff.mp h
      obtain ⟨l', digits, rfl⟩ := Option.map_eq_some_iff.mp more
      rw [List.length_cons, List.length_cons, ih digits, List.length_cons]
      omega

/-- The loop gives what the bytes give, unless it ends the program. -/
theorem fromHexPairs_hexBytes {b : Bytes} (n i : Nat) (size : 2 * (i + n) = b.length) :
    (∀ v, fromHexPairs b n i = .ok v → hexBytes (b.drop (2 * i)) = some v) ∧
      (fromHexPairs b n i = .error () → hexBytes (b.drop (2 * i)) = none) := by
  induction n generalizing i with
  | zero =>
      rw [List.drop_of_length_le (by omega), fromHexPairs]
      exact ⟨fun v same => by cases same; rfl, fun bad => by cases bad⟩
  | succ n ih =>
      have pair : b.drop (2 * i) = b[2 * i] :: b[2 * i + 1] :: b.drop (2 * (i + 1)) := by
        rw [List.drop_eq_getElem_cons (by omega), List.drop_eq_getElem_cons (by omega)]
        rfl
      have cut : sliceStr (ε := Unit) b (i * 2) (i * 2 + 2) = .panics ∨
          sliceStr (ε := Unit) b (i * 2) (i * 2 + 2) = .ok [b[2 * i], b[2 * i + 1]] := by
        rw [sliceStr, Nat.mul_comm i 2, pair, Nat.add_sub_cancel_left]
        split <;> simp
      rw [pair, hexBytes, fromHexPairs]
      rcases cut with stop | cut
      · rw [stop, Outcome.panics_bind]
        exact ⟨fun v bad => (by cases bad), fun bad => by cases bad⟩
      · rw [cut, Outcome.ok_bind, u8FromStrRadix_pair]
        cases hexByte b[2 * i] b[2 * i + 1] with
        | none => exact ⟨fun v bad => (by cases bad), fun _ => rfl⟩
        | some x =>
            obtain ⟨ok, error⟩ := ih (i + 1) (by omega)
            rw [Outcome.ofOption, Outcome.ok_bind, Option.bind_some]
            generalize fromHexPairs b n (i + 1) = out at ok error ⊢
            cases out with
            | ok v =>
                rw [ok v rfl]
                exact ⟨fun w same => by cases same; rfl, fun bad => by cases bad⟩
            | error e =>
                rw [error rfl]
                exact ⟨fun v bad => (by cases bad), fun _ => rfl⟩
            | panics => exact ⟨fun v bad => (by cases bad), fun bad => by cases bad⟩

theorem is64Hex_bytes (h : Is64Hex s) : (strBytes s).length = 64 := by
  have single : ∀ l : List Char, (∀ c ∈ l, isHexDigit c = true) → (utf8Bytes l).length = l.length := by
    intro l digits
    induction l with
    | nil => rfl
    | cons c l ih =>
        obtain ⟨x, v, enc, -⟩ := isHexDigit_spec (digits c (.head _))
        rw [utf8Bytes, List.flatMap_cons, enc, List.singleton_append, List.length_cons, List.length_cons, ← utf8Bytes,
          ih fun c mem => digits c (.tail _ mem)]
  rw [strBytes_eq_utf8Bytes, single _ h.2, h.1]

/-- A call that comes back gives the hash of the text. -/
theorem fromHexCall_fromHex {r : Option ChunkHash} (h : fromHexCall s = .ok r) : fromHex s = r := by
  rw [fromHexCall] at h
  split at h
  · rename_i size
    cases h
    rw [fromHex]
    cases value : hexBytes (strBytes s) with
    | none => rfl
    | some v =>
        have len := hexBytes_length value
        rw [Option.bind_some, dif_neg (by omega)]
  · rename_i size
    have read := fromHexPairs_hexBytes (b := strBytes s) 32 0 (by omega)
    rw [Nat.mul_zero, List.drop_zero] at read
    rw [fromHex]
    generalize fromHexPairs (strBytes s) 32 0 = out at h read
    cases out with
    | ok v =>
        cases h
        rw [read.1 v rfl, Option.bind_some]
    | error e =>
        cases h
        rw [read.2 rfl, Option.bind_none]
    | panics => cases h

/-- A text is read as what it says exactly when its first pair that is no number, if there is
one, is not cut inside a character, and no sign stands for a digit. -/
theorem readsAsHex_iff : ReadsAsHex s ↔ WellCut s := by
  by_cases size : (strBytes s).length = 64
  · have bytes := strBytes_eq_utf8Bytes s
    have read := fromHexPairs_read 32 0 [] s.toList rfl (by rw [← bytes, size])
    rw [List.nil_append, ← bytes] at read
    rw [ReadsAsHex, fromHexCall, if_neg (not_not_intro size), WellCut]
    generalize fromHexPairs (strBytes s) 32 0 = out at read ⊢
    cases read with
    | all v len numerals lower =>
        dsimp only
        rw [dif_pos len]
        constructor
        · rintro ⟨r, same, texts, -⟩
          cases same
          exact .inr (.inl (texts.mp rfl))
        · rintro (other | hex | ⟨i, small, -, no, -⟩)
          · exact absurd size other
          · refine ⟨_, rfl, iff_of_true rfl hex, fun h same => ?_⟩
            cases same
            rw [toHex, lower hex.2, show s.toLower = s.map Char.toLower from rfl, ← String.toList_map, String.ofList_toList]
          · exact absurd (numerals i (Nat.zero_le i) (by omega)) no
    | stops k low high numerals other digits =>
        have hexless : ¬ Is64Hex s := fun hex => digits hex.2
        by_cases stop : isCharBoundary (strBytes s) (2 * k + 2) = true
        · rw [if_pos stop]
          refine iff_of_true ⟨none, rfl, iff_of_false Bool.false_ne_true hexless, fun _ bad => (by cases bad)⟩ (.inr (.inr ⟨k, by omega, ?_, other, stop⟩))
          exact fun j small => numerals j (Nat.zero_le j) small
        · rw [if_neg stop]
          refine iff_of_false (by rintro ⟨r, same, -⟩; cases same) ?_
          rintro (other' | hex | ⟨i, small, before, no, stop'⟩)
          · exact other' size
          · exact hexless hex
          · rcases Nat.lt_trichotomy i k with less | rfl | more
            · exact no (numerals i (Nat.zero_le i) less)
            · exact stop stop'
            · exact other (before k more)
  · refine iff_of_true ⟨none, by rw [fromHexCall, if_pos size], ?_, fun _ bad => (by cases bad)⟩ (.inl size)
    exact iff_of_false Bool.false_ne_true fun hex => size (is64Hex_bytes hex)

/-- Exactly the well cut texts are read as what they say, and two of them that are read as one
hash differ in letter case alone. -/
theorem hex_text_iff (s t : String) : (ReadsAsHex s ↔ WellCut s) ∧
    (WellCut s → WellCut t → ∀ h, fromHexCall s = .ok (some h) → fromHexCall t = .ok (some h) →
      s.toLower = t.toLower) := by
  refine ⟨readsAsHex_iff, fun cut cut' h read read' => ?_⟩
  obtain ⟨r, same, -, lower⟩ := readsAsHex_iff.mpr cut
  obtain ⟨r', same', -, lower'⟩ := readsAsHex_iff.mpr cut'
  rw [same, Outcome.ok.injEq] at read
  rw [same', Outcome.ok.injEq] at read'
  rw [← lower h read, lower' h read']

theorem utf8Bytes_replicate {c : Char} {x : UInt8} (single : String.utf8EncodeChar c = [x]) (n : Nat) :
    utf8Bytes (replicate n c) = replicate n x := by
  induction n with
  | zero => rfl
  | succ n ih =>
      rw [utf8Bytes, List.replicate_succ, List.flatMap_cons, single, ← utf8Bytes, ih, List.replicate_succ]
      rfl

theorem hex_text_cased : WellCut (String.ofList (replicate 64 'A')) ∧
    WellCut (String.ofList (replicate 64 'a')) ∧
    (String.ofList (replicate 64 'A')).toLower = (String.ofList (replicate 64 'a')).toLower := by
  have read (c : Char) (x : UInt8) (single : String.utf8EncodeChar c = [x]) :
      strBytes (String.ofList (replicate 64 c)) = replicate 64 x :=
    (strBytes_ofList _).trans (utf8Bytes_replicate single 64)
  have digits (c : Char) (digit : isHexDigit c = true) : WellCut (String.ofList (replicate 64 c)) := by
    refine .inr (.inl ⟨by rw [String.toList_ofList, List.length_replicate], fun ch mem => ?_⟩)
    rw [String.toList_ofList] at mem
    rwa [List.eq_of_mem_replicate mem]
  refine ⟨digits 'A' rfl, digits 'a' rfl, (hex_text_iff _ _).2 (digits 'A' rfl) (digits 'a' rfl)
    ⟨replicate 32 170, rfl⟩ ?_ ?_⟩
  · rw [fromHexCall, read 'A' 65 rfl]
    rfl
  · rw [fromHexCall, read 'a' 97 rfl]
    rfl

/-- A plus sign and 63 zeros. -/
def signedText : String := String.ofList ('+' :: replicate 63 '0')

/-- A zero, a character of two bytes and 61 zeros. -/
def cutText : String := String.ofList ('0' :: 'é' :: replicate 61 '0')

theorem strBytes_signedText : strBytes signedText = 43 :: replicate 63 48 := by
  have chars : strBytes signedText = String.utf8EncodeChar '+' ++ utf8Bytes (replicate 63 '0') :=
    strBytes_ofList _
  rw [chars, utf8Bytes_replicate rfl]
  rfl

theorem strBytes_cutText : strBytes cutText = 48 :: 0xc3 :: 0xa9 :: replicate 61 48 := by
  have chars : strBytes cutText =
      String.utf8EncodeChar '0' ++ (String.utf8EncodeChar 'é' ++ utf8Bytes (replicate 61 '0')) :=
    strBytes_ofList _
  rw [chars, utf8Bytes_replicate rfl]
  rfl

theorem not_readsAsHex : ¬ ReadsAsHex signedText ∧ fromHexCall signedText = .ok (some zeroHash) ∧
    ¬ ReadsAsHex cutText ∧ fromHexCall cutText = .panics := by
  have signed : fromHexCall signedText = .ok (some zeroHash) := by
    rw [fromHexCall, strBytes_signedText]
    rfl
  have cut : fromHexCall cutText = .panics := by
    rw [fromHexCall, strBytes_cutText]
    rfl
  refine ⟨?_, signed, ?_, cut⟩
  · rintro ⟨r, same, texts, -⟩
    rw [signed, Outcome.ok.injEq] at same
    subst same
    have chars : signedText.toList = '+' :: replicate 63 '0' := String.toList_ofList
    have plus := (texts.mp rfl).2 '+' (chars ▸ List.mem_cons_self)
    revert plus
    decide
  · rintro ⟨r, same, -⟩
    rw [cut] at same
    cases same

end Read
end Cavs
