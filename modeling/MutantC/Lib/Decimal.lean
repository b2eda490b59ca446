import MutantC.Lib.CBuffer

/-! Decimal numerals as `%d` writes them. -/

namespace MutantC.Decimal
open CBuffer

def IsDigit (b : Byte) : Prop := 48 ≤ b ∧ b ≤ 57

instance : DecidablePred IsDigit := fun b => inferInstanceAs (Decidable (48 ≤ b ∧ b ≤ 57))

def digit (n : ℕ) : Byte := UInt8.ofNat (48 + n % 10)

def digitValue (b : Byte) : ℕ := b.toNat - 48

def decimalFrom : ℕ → ℕ → List Byte
  | 0, _ => []
  | fuel + 1, n => if n < 10 then [digit n] else decimalFrom fuel (n / 10) ++ [digit n]

def decimal (n : ℕ) : List Byte := decimalFrom (n + 1) n

/-- What `%d` writes for an `int`. -/
def signedDecimal (i : ℤ) : List Byte := if i < 0 then 45 :: decimal i.natAbs else decimal i.natAbs

def digitsValue (ds : List Byte) : ℕ := ds.foldl (fun v d => 10 * v + digitValue d) 0

theorem toNat_digit (n : ℕ) : (digit n).toNat = 48 + n % 10 := by
  rw [digit, UInt8.toNat_ofNat']
  omega

theorem isDigit_digit (n : ℕ) : IsDigit (digit n) := by
  have hlt := Nat.mod_lt n (show 0 < 10 by decide)
  constructor
  · rw [UInt8.le_iff_toNat_le, toNat_digit]
    exact Nat.le_add_right 48 _
  · rw [UInt8.le_iff_toNat_le, toNat_digit]
    show 48 + n % 10 ≤ 57
    omega

theorem digitValue_digit (n : ℕ) : digitValue (digit n) = n % 10 := by
  rw [digitValue, toNat_digit, Nat.add_sub_cancel_left]

theorem digitsValue_snoc (ds : List Byte) (d : Byte) :
    digitsValue (ds ++ [d]) = 10 * digitsValue ds + digitValue d := by
  rw [digitsValue, List.foldl_append]
  rfl

theorem decimalFrom_spec {fuel n : ℕ} (h : n < fuel) :
    (∀ d ∈ decimalFrom fuel n, IsDigit d) ∧ digitsValue (decimalFrom fuel n) = n ∧
      decimalFrom fuel n ≠ [] := by
  induction fuel generalizing n with
  | zero => omega
  | succ fuel ih =>
    unfold decimalFrom
    split_ifs with hn
    · refine ⟨fun d hd => List.mem_singleton.1 hd ▸ isDigit_digit n, ?_, List.cons_ne_nil _ _⟩
      show 10 * 0 + digitValue (digit n) = n
      rw [digitValue_digit, Nat.mod_eq_of_lt hn]
      omega
    · obtain ⟨hdigits, hvalue, -⟩ := ih (show n / 10 < fuel by omega)
      refine ⟨?_, ?_, by simp⟩
      · intro d hd
        rcases List.mem_append.1 hd with hd | hd
        · exact hdigits d hd
        · exact List.mem_singleton.1 hd ▸ isDigit_digit n
      · rw [digitsValue_snoc, hvalue, digitValue_digit]
        omega

theorem isDigit_of_mem_decimal {n : ℕ} {d : Byte} (h : d ∈ decimal n) : IsDigit d :=
  (decimalFrom_spec n.lt_succ_self).1 d h

theorem digitsValue_decimal (n : ℕ) : digitsValue (decimal n) = n :=
  (decimalFrom_spec n.lt_succ_self).2.1

theorem decimal_ne_nil (n : ℕ) : decimal n ≠ [] := (decimalFrom_spec n.lt_succ_self).2.2

theorem length_decimalFrom_le {fuel n k : ℕ} (hn : n < 10 ^ (k + 1)) :
    (decimalFrom fuel n).length ≤ k + 1 := by
  induction fuel generalizing n k with
  | zero => exact Nat.zero_le _
  | succ fuel ih =>
    unfold decimalFrom
    split_ifs with hlt
    · exact Nat.le_add_left 1 k
    · cases k with
      | zero => exact absurd hn hlt
      | succ k =>
        rw [List.length_append, List.length_singleton]
        apply Nat.succ_le_succ
        apply ih
        rw [pow_succ] at hn
        omega

theorem length_decimal_le {n k : ℕ} (hn : n < 10 ^ (k + 1)) : (decimal n).length ≤ k + 1 :=
  length_decimalFrom_le hn

end MutantC.Decimal
