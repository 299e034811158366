import PinFloor.Text.Decimal

/-! # Decimal numbers read back

The digits of a number are digits, and read as that number.
-/

namespace PinFloor.Decimal

theorem isDigit_of_mem_digits (n : Nat) : ∀ c ∈ digits n, c.isDigit = true := by
  induction n using digits.induct with
  | case1 n small =>
      rw [digits, if_pos small]
      simp [small]
  | case2 n large ih =>
      rw [digits, if_neg large]
      intro c member
      rcases List.mem_append.mp member with before | last
      · exact ih c before
      · have bound : n % 10 < 10 := by omega
        simp [List.mem_singleton.mp last, bound]

theorem digits_ne_nil (n : Nat) : digits n ≠ [] := by
  unfold digits
  split <;> simp

theorem value_concat (cs : List Char) (c : Char) :
    value (cs ++ [c]) = value cs * 10 + digitValue c := by
  simp [value]

theorem digitValue_digitChar {d : Nat} (small : d < 10) : digitValue (Nat.digitChar d) = d := by
  rw [digitValue, Nat.toNat_digitChar_of_lt_ten small]
  simp

theorem value_digits (n : Nat) : value (digits n) = n := by
  induction n using digits.induct with
  | case1 n small =>
      rw [digits, if_pos small]
      simp [value, digitValue_digitChar small]
  | case2 n large ih =>
      have bound : n % 10 < 10 := by omega
      rw [digits, if_neg large, value_concat, ih, digitValue_digitChar bound]
      omega

theorem read?_digits (n : Nat) : read? (digits n) = some n := by
  have digital : (digits n).all Char.isDigit = true :=
    List.all_eq_true.mpr (isDigit_of_mem_digits n)
  simp [read?, digits_ne_nil, digital, value_digits]

theorem word?_digits {n : Nat} (fits : n < wordSize) : word? (digits n) = some n := by
  simp [word?, read?_digits, fits]

theorem lt_of_word? {cs : List Char} {n : Nat} (read : word? cs = some n) : n < wordSize := by
  rw [word?, Option.filter_eq_some_iff] at read
  simpa using read.2

theorem word?_eq_none_of_not_digit {cs : List Char} {c : Char} (member : c ∈ cs)
    (other : c.isDigit = false) : word? cs = none := by
  have mixed : cs.all Char.isDigit = false := List.all_eq_false.mpr ⟨c, member, by simp [other]⟩
  simp [word?, read?, mixed]

end PinFloor.Decimal
