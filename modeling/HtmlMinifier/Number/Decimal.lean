import HtmlMinifier.Text.Blank

/-!
# Decimal numbers

Three forms of numbers are written: whole numbers with a comma at every three digits, quotients of
natural numbers with a fixed count of decimal places, and the digits both are made of. A quotient
is rounded to the nearest number with that many places, and of two equally near ones to the one
whose last digit is even.

Main statements: `ungrouped_grouped` says that the digits are read back by leaving the commas out,
`roundedQuotient_error` that rounding moves a quotient by at most one half, and
`even_roundedQuotient_of_tie` that a tie is settled towards the even number.
-/

namespace HtmlMinifier

namespace Decimal

/-- The decimal digits of a natural number. -/
def digits (n : Nat) : Text := Nat.toDigits 10 n

/-- The natural number that some digits stand for. -/
def ofDigits (ds : Text) : Nat := Nat.ofDigitChars 10 ds 0

theorem ofDigits_digits (n : Nat) : ofDigits (digits n) = n :=
  Nat.ofDigitChars_toDigits (by decide) (by decide)

/-- Puts a comma after every character that a positive multiple of three characters follows. -/
def groupThrees : (ds : Text) → Text
  | [] => []
  | [d] => [d]
  | d :: e :: ds =>
    if (e :: ds).length % 3 = 0 then d :: ',' :: groupThrees (e :: ds)
    else d :: groupThrees (e :: ds)

/-- The number with a comma at every three digits. -/
def grouped (n : Nat) : Text := groupThrees (digits n)

/-- The text without its commas. -/
def ungrouped (s : Text) : Text := s.filter (· != ',')

theorem ungrouped_groupThrees {ds : Text} (h : ',' ∉ ds) : ungrouped (groupThrees ds) = ds := by
  fun_induction groupThrees ds with
  | case1 => rfl
  | case2 d =>
    have hd : d ≠ ',' := fun e => h (by simp [e])
    simp [ungrouped, hd]
  | case3 d e ds hlen ih =>
    have hd : d ≠ ',' := fun e => h (by simp [e])
    have := ih fun hm => h (List.mem_cons_of_mem _ hm)
    simp [ungrouped, hd] at this ⊢
    exact this
  | case4 d e ds hlen ih =>
    have hd : d ≠ ',' := fun e => h (by simp [e])
    have := ih fun hm => h (List.mem_cons_of_mem _ hm)
    simp [ungrouped, hd] at this ⊢
    exact this

theorem comma_not_mem_digits (n : Nat) : ',' ∉ digits n := by
  intro h
  have := Nat.isDigit_of_mem_toDigits (by decide) (by decide) h
  simp [Char.isDigit] at this

/-- A grouped number without its commas is its digits. -/
theorem ungrouped_grouped (n : Nat) : ungrouped (grouped n) = digits n :=
  ungrouped_groupThrees (comma_not_mem_digits n)

/-- The natural number nearest to `num / den`, the even one of two. -/
def roundedQuotient (num den : Nat) : Nat :=
  let q := num / den
  let r := num % den
  if 2 * r < den then q
  else if den < 2 * r then q + 1
  else if q % 2 = 0 then q
  else q + 1

/-- Rounding moves the quotient by at most one half. -/
theorem roundedQuotient_error {num den : Nat} (h : 0 < den) :
    2 * num ≤ (2 * roundedQuotient num den + 1) * den ∧
      2 * roundedQuotient num den * den ≤ 2 * num + den := by
  have hd := Nat.div_add_mod num den
  have hr := Nat.mod_lt num h
  have hq : den * (num / den) = num / den * den := Nat.mul_comm _ _
  simp only [roundedQuotient]
  generalize num / den = q at *
  generalize num % den = r at *
  split
  · constructor <;> simp only [Nat.add_mul, Nat.mul_assoc] <;> omega
  · split
    · constructor <;> simp only [Nat.add_mul, Nat.mul_add, Nat.mul_assoc] <;> omega
    · split
      · constructor <;> simp only [Nat.add_mul, Nat.mul_assoc] <;> omega
      · constructor <;> simp only [Nat.add_mul, Nat.mul_add, Nat.mul_assoc] <;> omega

/-- A quotient halfway between two natural numbers goes to the even one. -/
theorem even_roundedQuotient_of_tie {num den : Nat} (h : 2 * (num % den) = den) :
    roundedQuotient num den % 2 = 0 := by
  simp only [roundedQuotient]
  split
  · omega
  · split
    · omega
    · split <;> omega

/-- How many units of the last of `places` decimal places make a whole. -/
def unitsOf (places : Nat) : Nat := Nat.pow 10 places

/-- A number of units of the last of `places` decimal places, at least one, with a point. -/
def pointed (places n : Nat) : Text :=
  let fraction := digits (n % unitsOf places)
  digits (n / unitsOf places) ++ '.' :: (List.replicate (places - fraction.length) '0' ++ fraction)

/-- The quotient `num / den` with `places` decimal places, at least one. -/
def fixed (places num den : Nat) : Text :=
  pointed places (roundedQuotient (num * unitsOf places) den)

end Decimal

end HtmlMinifier
