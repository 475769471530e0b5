/-!
# Decimal numerals

Values are 64-bit integers.  They are written in decimal with a leading minus sign when negative;
a numeral of the language is a plain run of digits.
-/

namespace IntScript.Text

/-- The decimal form of a natural number. -/
def decimalNat (n : Nat) : String :=
  String.ofList (Nat.toDigits 10 n)

/-- The decimal form of a value. -/
def decimal (value : Int64) : String :=
  let n := value.toInt
  if n < 0 then "-" ++ decimalNat n.natAbs else decimalNat n.natAbs

theorem lineBreak_notMem_decimalNat (n : Nat) : '\n' ∉ (decimalNat n).toList := by
  intro hmem
  rw [decimalNat, String.toList_ofList] at hmem
  have hdigit := Nat.isDigit_of_mem_toDigits (by decide) (by decide) hmem
  exact absurd hdigit (by decide)

theorem lineBreak_notMem_decimal (value : Int64) : '\n' ∉ (decimal value).toList := by
  simp only [decimal]
  split
  · rw [String.toList_append, List.mem_append, not_or]
    exact ⟨by decide, lineBreak_notMem_decimalNat _⟩
  · exact lineBreak_notMem_decimalNat _

/-- The number of values that are not negative. -/
def numeralBound : Nat := 9223372036854775808

/-- The value of a numeral: a non-empty run of digits whose number fits the positive half of the
64-bit range. -/
def numeral? (text : String) : Option Int64 :=
  let digits := text.toList
  if !digits.isEmpty && digits.all Char.isDigit then
    let n := Nat.ofDigitChars 10 digits 0
    if n < numeralBound then some (Int64.ofNat n) else none
  else none

end IntScript.Text
