import HtmlMinifier.Number.Decimal

/-!
# Binary floating-point numbers of 64 bits

A finite number of this format is a whole number times a power of two, so it can be written out
exactly, and rounding it to a fixed count of decimal places is a question about natural numbers.
The format has a sign of its own: a negative number keeps it even where all digits written are
zeros.
-/

namespace HtmlMinifier

/-- A finite number of the format: `mantissa * 2 ^ exponent` with a sign. -/
structure Binary64 where
  negative : Bool
  mantissa : Nat
  exponent : Int
deriving DecidableEq, Repr

namespace Binary64

/-- Takes the bits apart: one of sign, eleven of exponent, fifty-two of fraction. An exponent of
all zeros means that no leading one is to be added to the fraction, one of all ones that the number
is not finite. -/
def ofBits? (bits : UInt64) : Option Binary64 :=
  let n := bits.toNat
  let negative := n >>> 63 == 1
  let exponent := (n >>> 52) % 2048
  let fraction := n % (1 <<< 52)
  if exponent = 2047 then none
  else if exponent = 0 then some ⟨negative, fraction, -1074⟩
  else some ⟨negative, (1 <<< 52) + fraction, Int.ofNat exponent - 1075⟩

/-- A numerator and a denominator that make up the number without its sign. -/
def toQuotient (x : Binary64) : Nat × Nat :=
  match x.exponent with
  | .ofNat e => (x.mantissa <<< e, 1)
  | .negSucc e => (x.mantissa, 1 <<< (e + 1))

/-- The number with `places` decimal places, rounded to the nearest, ties to even. -/
def fixed (places : Nat) (x : Binary64) : Text :=
  let (num, den) := x.toQuotient
  (if x.negative then ['-'] else []) ++ Decimal.fixed places num den

end Binary64

/-- A floating-point number with `places` decimal places. -/
def fixedFloat (places : Nat) (x : Float) : String :=
  match Binary64.ofBits? x.toBits with
  | some y => String.ofList (y.fixed places)
  | none => if x.isNaN then "NaN" else if x < 0 then "-inf" else "inf"

end HtmlMinifier
