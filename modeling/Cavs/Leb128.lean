import Cavs.ScanPrefix

/-!
# Numbers in groups of seven bits

Seven bits a byte, least significant first, all but the last with the top bit set. The
reader takes no byte that adds nothing, so a number has one form.
-/
namespace Leb
open FileProg (Bytes)
open ByteScan

/-- `more` bytes may follow the first. -/
def bytes : (more : Nat) → Nat → Bytes
  | 0, value => [UInt8.ofNat value]
  | more + 1, value =>
      if value ≥ 0x80 then UInt8.ofNat (value % 0x80 + 0x80) :: bytes more (value / 0x80)
      else [UInt8.ofNat value]

section Read
variable {ε S : Type} (truncated overlong overflow : ε)

/-- The rest of a number: byte `i` is read next and `left` more may follow it, the last of
which carries one bit. -/
def readFrom : (left i value : Nat) → Scan ε S Nat
  | 0, i, value => do
      let byte := ofLe (← Scan.take truncated 1)
      if byte = 0 ∧ i ≠ 0 then Scan.throw overlong
      else if byte > 1 then Scan.throw overflow
      else return value + byte * 2 ^ (7 * i)
  | left + 1, i, value => do
      let byte := ofLe (← Scan.take truncated 1)
      if byte = 0 ∧ i ≠ 0 then Scan.throw overlong
      else if byte < 0x80 then return value + byte * 2 ^ (7 * i)
      else readFrom left (i + 1) (value + byte % 0x80 * 2 ^ (7 * i))

variable {truncated overlong overflow : ε} {s : S}

theorem readFrom_scans {left i value acc p : Nat} (small : value < 2 ^ (7 * left + 1))
    (canonical : i ≠ 0 → value ≠ 0) :
    Scans (readFrom truncated overlong overflow left i acc) s p (bytes left value) (acc + value * 2 ^ (7 * i)) s := by
  induction left generalizing i value acc p with
  | zero =>
      have bit : (UInt8.ofNat value).toNat = value := by
        rw [UInt8.toNat_ofNat']
        omega
      refine .bind_pure (b := [UInt8.ofNat value]) (.take rfl) ?_
      simp only [ofLe, bit, Nat.mul_zero, Nat.add_zero]
      rw [if_neg fun h => canonical h.2 h.1, if_neg (by omega)]
      exact .pure _
  | succ left ih =>
      rw [bytes]
      split
      · rename_i big
        have low : (UInt8.ofNat (value % 0x80 + 0x80)).toNat = value % 0x80 + 0x80 := by
          rw [UInt8.toNat_ofNat']
          omega
        refine .bind (b := [_]) (.take rfl) ?_
        simp only [ofLe, low, Nat.mul_zero, Nat.add_zero]
        rw [if_neg (by omega), if_neg (by omega)]
        have split : acc + value * 2 ^ (7 * i) =
            acc + (value % 0x80 + 0x80) % 0x80 * 2 ^ (7 * i) + value / 0x80 * 2 ^ (7 * (i + 1)) := by
          have parts := Nat.div_add_mod value 0x80
          have power : 2 ^ (7 * (i + 1)) = 0x80 * 2 ^ (7 * i) := by
            rw [Nat.mul_add, Nat.pow_add, Nat.mul_comm]
          rw [power, Nat.add_mod_right, Nat.mod_mod]
          calc acc + value * 2 ^ (7 * i)
              = acc + (0x80 * (value / 0x80) + value % 0x80) * 2 ^ (7 * i) := by rw [parts]
            _ = _ := by ring
        rw [split]
        refine ih ?_ fun _ => by omega
        have : 2 ^ (7 * (left + 1) + 1) = 0x80 * 2 ^ (7 * left + 1) := by
          rw [show 7 * (left + 1) + 1 = 7 + (7 * left + 1) by ring, Nat.pow_add]
        omega
      · rename_i little
        have whole : (UInt8.ofNat value).toNat = value := by
          rw [UInt8.toNat_ofNat']
          omega
        refine .bind_pure (b := [UInt8.ofNat value]) (.take rfl) ?_
        simp only [ofLe, whole, Nat.mul_zero, Nat.add_zero]
        rw [if_neg fun h => canonical h.2 h.1, if_pos (by omega)]
        exact .pure _

/-- What was read is the one form of the number that came of it. -/
theorem readFrom_ok {left i acc x : Nat} {c d : Cursor} {t : S}
    (run : readFrom truncated overlong overflow left i acc s c = (.ok (x, d), t)) :
    ∃ value, value < 2 ^ (7 * left + 1) ∧ (i ≠ 0 → value ≠ 0) ∧ x = acc + value * 2 ^ (7 * i) ∧
      c.rest = bytes left value ++ d.rest := by
  induction left generalizing i acc c s with
  | zero =>
      obtain ⟨b, c', u, taken, after⟩ := ok_of_bind run
      obtain ⟨first, single, -, -⟩ := ok_of_take taken
      obtain ⟨byte, rfl⟩ := List.length_eq_one_iff.mp single
      have value_ : ofLe [byte] = byte.toNat := by simp [ofLe]
      dsimp only at after
      rw [value_] at after
      by_cases zero : byte.toNat = 0 ∧ i ≠ 0
      · rw [if_pos zero] at after
        cases after
      by_cases big : byte.toNat > 1
      · rw [if_neg zero, if_pos big] at after
        cases after
      · rw [if_neg zero, if_neg big] at after
        cases after
        refine ⟨byte.toNat, by omega, fun later same => zero ⟨same, later⟩, rfl, ?_⟩
        rw [bytes, UInt8.ofNat_toNat]
        exact first
  | succ left ih =>
      obtain ⟨b, c', u, taken, after⟩ := ok_of_bind run
      obtain ⟨first, single, -, -⟩ := ok_of_take taken
      obtain ⟨byte, rfl⟩ := List.length_eq_one_iff.mp single
      have byteLt := byte.toNat_lt
      have power : 2 ^ (7 * (left + 1) + 1) = 0x80 * 2 ^ (7 * left + 1) := by
        rw [show 7 * (left + 1) + 1 = 7 + (7 * left + 1) by ring, Nat.pow_add]
      have pos : 0 < 2 ^ (7 * left + 1) := Nat.two_pow_pos _
      have value_ : ofLe [byte] = byte.toNat := by simp [ofLe]
      dsimp only at after
      rw [value_] at after
      by_cases zero : byte.toNat = 0 ∧ i ≠ 0
      · rw [if_pos zero] at after
        cases after
      rw [if_neg zero] at after
      by_cases last : byte.toNat < 0x80
      · rw [if_pos last] at after
        cases after
        refine ⟨byte.toNat, by omega, fun later same => zero ⟨same, later⟩, rfl, ?_⟩
        rw [bytes, if_neg (by omega), UInt8.ofNat_toNat]
        exact first
      · rw [if_neg last] at after
        obtain ⟨v, small, nonzero, sum, rest⟩ := ih after
        have more : v ≠ 0 := nonzero (Nat.succ_ne_zero i)
        refine ⟨byte.toNat % 0x80 + 0x80 * v, by omega, fun _ => by omega, ?_, ?_⟩
        · have shift : 2 ^ (7 * (i + 1)) = 0x80 * 2 ^ (7 * i) := by
            rw [Nat.mul_add, Nat.pow_add, Nat.mul_comm]
          rw [sum, shift]
          ring
        · have low : (byte.toNat % 0x80 + 0x80 * v) % 0x80 + 0x80 = byte.toNat := by omega
          have high : (byte.toNat % 0x80 + 0x80 * v) / 0x80 = v := by omega
          rw [bytes, if_pos (by omega), low, high, UInt8.ofNat_toNat, List.cons_append, ← rest]
          exact first

/-- A number of more groups than may follow is refused. -/
theorem readFrom_overflow {left more i value acc p : Nat} {rest : Bytes} {result : Nat × Cursor} {t : S}
    (big : 2 ^ (7 * left + 1) ≤ value) (room : left ≤ more) (whole : value < 128 ^ (more + 1)) :
    readFrom truncated overlong overflow left i acc s ⟨p, bytes more value ++ rest⟩ ≠ (.ok result, t) := by
  -- the first byte of a number that has two groups carries the top bit
  have high : ∀ {value : Nat}, (UInt8.ofNat (value % 0x80 + 0x80)).toNat = value % 0x80 + 0x80 := by
    intro value
    rw [UInt8.toNat_ofNat']
    omega
  intro run
  induction left generalizing more i value acc p with
  | zero =>
      obtain ⟨b, c, u, taken, after⟩ := ok_of_bind run
      have two : 1 < ofLe b := by
        have first := (ok_of_take taken).1
        have single := (ok_of_take taken).2.1
        obtain ⟨byte, rfl⟩ := List.length_eq_one_iff.mp single
        simp only [ofLe, Nat.mul_zero, Nat.add_zero]
        cases more with
        | zero =>
            rw [← (List.cons.inj first).1, UInt8.toNat_ofNat']
            omega
        | succ more =>
            rw [bytes] at first
            split at first
            · rw [← (List.cons.inj first).1, high]
              omega
            · rw [← (List.cons.inj first).1, UInt8.toNat_ofNat']
              omega
      dsimp only at after
      rw [if_neg (by omega), if_pos two] at after
      cases after
  | succ left ih =>
      obtain ⟨more, rfl⟩ : ∃ m, more = m + 1 := ⟨more - 1, by omega⟩
      have power : 2 ^ (7 * (left + 1) + 1) = 0x80 * 2 ^ (7 * left + 1) := by
        rw [show 7 * (left + 1) + 1 = 7 + (7 * left + 1) by ring, Nat.pow_add]
      have pos : 0 < 2 ^ (7 * left + 1) := Nat.two_pow_pos _
      rw [bytes, if_pos (by omega)] at run
      obtain ⟨b, c, u, taken, after⟩ := ok_of_bind run
      obtain ⟨first, single, at_, rfl⟩ := ok_of_take taken
      obtain ⟨byte, rfl⟩ := List.length_eq_one_iff.mp single
      obtain ⟨head, tail⟩ := List.cons.inj first
      obtain ⟨pos', rest'⟩ := c
      cases head
      cases tail
      simp only [ofLe, high, Nat.mul_zero, Nat.add_zero] at after
      rw [if_neg (by omega), if_neg (by omega)] at after
      refine ih ?_ (by omega) ?_ after
      · omega
      · rw [pow_succ] at whole
        exact Nat.div_lt_of_lt_mul (by omega)

/-- A number of 64 bits, from its first byte. -/
theorem read_scans {value p : Nat} (small : value < 2 ^ 64) :
    Scans (readFrom truncated overlong overflow 9 0 0) s p (bytes 9 value) value s := by
  have : Scans (readFrom truncated overlong overflow 9 0 0) s p (bytes 9 value) (0 + value * 2 ^ (7 * 0)) s :=
    readFrom_scans small fun h => absurd rfl h
  rw [Nat.mul_zero, Nat.pow_zero, Nat.mul_one, Nat.zero_add] at this
  exact this

/-- Of a number of 64 bits, from its first byte. -/
theorem read_ok {x : Nat} {c d : Cursor} {t : S}
    (run : readFrom truncated overlong overflow 9 0 0 s c = (.ok (x, d), t)) :
    x < 2 ^ 64 ∧ c.rest = bytes 9 x ++ d.rest := by
  obtain ⟨value, small, -, sum, rest⟩ := readFrom_ok run
  rw [Nat.mul_zero, Nat.pow_zero, Nat.mul_one, Nat.zero_add] at sum
  exact ⟨sum ▸ small, sum ▸ rest⟩

end Read

theorem bytes_length_pos (more value : Nat) : 1 ≤ (bytes more value).length := by
  cases more with
  | zero => simp [bytes]
  | succ more =>
      rw [bytes]
      split <;> simp

theorem bytes_length_le (more value : Nat) : (bytes more value).length ≤ more + 1 := by
  induction more generalizing value with
  | zero => simp [bytes]
  | succ more ih =>
      rw [bytes]
      split
      · have := ih (value / 0x80)
        rw [List.length_cons]
        omega
      · simp

/-- Room for more groups than a number has adds none. -/
theorem bytes_more {more extra value : Nat} (whole : value < 128 ^ (more + 1)) :
    bytes (more + extra) value = bytes more value := by
  induction more generalizing value with
  | zero =>
      cases extra with
      | zero => rfl
      | succ extra =>
          rw [Nat.zero_add, pow_one] at whole
          rw [Nat.zero_add, bytes, bytes, if_neg (by omega)]
  | succ more ih =>
      rw [show more + 1 + extra = more + extra + 1 by omega, bytes, bytes]
      have low : value / 0x80 < 128 ^ (more + 1) := by
        rw [pow_succ] at whole
        exact Nat.div_lt_of_lt_mul (by omega)
      rw [ih low]

/-- A number as long as it is, of which those of 64 bits are read. -/
theorem read_takes {ε S : Type} (truncated overlong overflow : ε) (s : S) (n : Nat) :
    Takes (readFrom truncated overlong overflow 9 0 0) s (bytes (n + 9) n) n (n < 2 ^ 64) := by
  have scans : n < 2 ^ 64 → ∀ p, Scans (readFrom truncated overlong overflow 9 0 0) s p (bytes (n + 9) n) n s := by
    intro small p
    rw [Nat.add_comm, bytes_more (by omega)]
    exact read_scans small
  refine ⟨scans, fun {p rest y c t} run => ?_⟩
  by_cases small : n < 2 ^ 64
  · rw [scans small p rest] at run
    cases run
    exact ⟨small, rfl, rfl, rfl⟩
  · have whole : n < 128 ^ (n + 9 + 1) :=
      (Nat.lt_pow_self (by norm_num)).trans_le (Nat.pow_le_pow_right (by norm_num) (by omega))
    exact absurd run (readFrom_overflow (by omega) (by omega) whole)

end Leb
