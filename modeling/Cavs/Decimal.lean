import Cavs.SegIndex

/-!
# Decimal texts

A number is read back from its digits, and texts of equally many digits are ordered as
their numbers are.
-/
namespace Cavs

theorem decimal_isDigit {n : Nat} {ch : Char} (mem : ch ∈ decimal n) : ch.isDigit = true :=
  Nat.isDigit_of_mem_toDigits (by decide) (by decide) mem

theorem digit_range {ch : Char} (digit : ch.isDigit = true) : 48 ≤ ch.toNat ∧ ch.toNat ≤ 57 :=
  Char.isDigit_iff_toNat.mp digit

theorem digitValue_of_isDigit {ch : Char} (digit : ch.isDigit = true) : digitValue ch = some (ch.toNat - 48) := by
  obtain ⟨low, high⟩ := digit_range digit
  exact if_pos ⟨low, high⟩

/-- Digits after a number already read. -/
theorem foldl_digits (l : List Char) (digits : ∀ ch ∈ l, ch.isDigit = true) (n : Nat) :
    l.foldl (fun acc c => acc.bind fun n => (digitValue c).map fun d => 10 * n + d) (some n) =
      some (Nat.ofDigitChars 10 l n) := by
  induction l generalizing n with
  | nil => rfl
  | cons ch rest ih =>
      rw [List.foldl_cons, Nat.ofDigitChars_cons, ← ih fun c mem => digits c (List.mem_cons_of_mem _ mem)]
      rw [Option.bind_some, digitValue_of_isDigit (digits ch List.mem_cons_self)]
      rfl

theorem parseDigits_decimal (n : Nat) : parseDigits (decimal n) = some n := by
  rw [parseDigits, foldl_digits _ (fun _ mem => decimal_isDigit mem), decimal, Nat.ofDigitChars_ten_toDigits]

theorem parseU64_decimal {n : Nat} (small : n < 2 ^ 64) : parseU64 (decimal n) = some n := by
  unfold parseU64
  extract_lets digits
  have same : digits = decimal n := by
    subst digits
    split
    · rename_i rest first
      have plus : ('+' : Char).isDigit = true := decimal_isDigit (n := n) (first ▸ List.mem_cons_self)
      exact absurd plus (by decide)
    · rfl
  have some_digit : digits ≠ [] := same ▸ Nat.toDigits_ne_nil
  rw [if_neg some_digit, same, parseDigits_decimal, Option.bind_some, if_pos small]

theorem ofDigitChars_lt {l : List Char} (digits : ∀ ch ∈ l, ch.isDigit = true) : Nat.ofDigitChars 10 l 0 < 10 ^ l.length := by
  induction l with
  | nil => decide
  | cons ch rest ih =>
      have more := ih fun c mem => digits c (List.mem_cons_of_mem _ mem)
      have digit := digits ch List.mem_cons_self
      have low : ch.toNat - 48 ≤ 9 := Nat.sub_le_sub_right (digit_range digit).2 48
      have top : 10 ^ rest.length * (ch.toNat - 48) ≤ 10 ^ rest.length * 9 := Nat.mul_le_mul_left _ low
      rw [Nat.ofDigitChars_cons, Nat.ofDigitChars_eq_ofDigitChars_zero, List.length_cons, Nat.pow_succ]
      change 10 ^ rest.length * (10 * 0 + (ch.toNat - 48)) + _ < _
      rw [Nat.mul_zero, Nat.zero_add]
      omega

/-- Of two texts of equally many digits the one of the smaller number comes first. -/
theorem digits_lt {l m : List Char} (long : l.length = m.length) (digits : ∀ ch ∈ l, ch.isDigit = true)
    (digits' : ∀ ch ∈ m, ch.isDigit = true) (less : Nat.ofDigitChars 10 l 0 < Nat.ofDigitChars 10 m 0) : l < m := by
  induction l generalizing m with
  | nil =>
      rw [List.length_nil] at long
      rw [List.eq_nil_of_length_eq_zero long.symm] at less
      exact absurd less (Nat.lt_irrefl _)
  | cons a rest ih =>
      cases m with
      | nil => cases long
      | cons b rest' =>
          have same : rest.length = rest'.length := Nat.succ.inj long
          obtain ⟨first, -⟩ := digit_range (digits a List.mem_cons_self)
          obtain ⟨first', -⟩ := digit_range (digits' b List.mem_cons_self)
          have more := ofDigitChars_lt fun c mem => digits' c (List.mem_cons_of_mem _ mem)
          rw [Nat.ofDigitChars_cons, Nat.ofDigitChars_cons, Nat.ofDigitChars_eq_ofDigitChars_zero (l := rest),
            Nat.ofDigitChars_eq_ofDigitChars_zero (l := rest'), same] at less
          change 10 ^ rest'.length * (10 * 0 + (a.toNat - 48)) + _ < 10 ^ rest'.length * (10 * 0 + (b.toNat - 48)) + _ at less
          rw [Nat.mul_zero, Nat.zero_add, Nat.zero_add] at less
          rw [List.cons_lt_cons_iff]
          rcases Nat.lt_trichotomy a.toNat b.toNat with below | equal | above
          · exact .inl (Char.lt_def.mpr below)
          · refine .inr ⟨Char.toNat_inj.mp equal, ?_⟩
            rw [equal] at less
            exact ih same (fun c mem => digits c (List.mem_cons_of_mem _ mem))
              (fun c mem => digits' c (List.mem_cons_of_mem _ mem)) (Nat.lt_of_add_lt_add_left less)
          · have step : b.toNat - 48 + 1 ≤ a.toNat - 48 := by omega
            have grown := Nat.mul_le_mul_left (10 ^ rest'.length) step
            rw [Nat.mul_add, Nat.mul_one] at grown
            omega

theorem decimal_lt {m n : Nat} (long : (decimal m).length = (decimal n).length) (less : m < n) : decimal m < decimal n := by
  refine digits_lt long (fun _ mem => decimal_isDigit mem) (fun _ mem => decimal_isDigit mem) ?_
  rw [decimal, decimal, Nat.ofDigitChars_ten_toDigits, Nat.ofDigitChars_ten_toDigits]
  exact less

/-- How many digits a number has. -/
theorem decimal_length {n k : Nat} (above : 10 ^ k ≤ n) (below : n < 10 ^ (k + 1)) (some_ : 0 < k) :
    (decimal n).length = k + 1 := by
  have most := (Nat.length_toDigits_le_iff (b := 10) (by decide) (Nat.succ_pos k)).mpr below
  have least := mt (Nat.length_toDigits_le_iff (b := 10) (n := n) (by decide) some_).mp (Nat.not_lt.mpr above)
  rw [decimal]
  omega

end Cavs
