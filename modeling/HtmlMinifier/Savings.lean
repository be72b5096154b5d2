import HtmlMinifier.Number.Binary64

/-!
# Savings

What minifying a document saved: its size before and after, in bytes. The ratio is computed in
binary floating-point numbers of 64 bits, where the order of the operations shows in the last
digits, and is negative when the document has grown.
-/

namespace HtmlMinifier

/-- The sizes of a document, in bytes. There is none for an empty document. -/
structure Savings where
  before : Nat
  after : Nat
  before_pos : 0 < before
deriving DecidableEq, Repr

namespace Savings

/-- How much was saved, in percent of the size before. -/
def ratio (s : Savings) : Float :=
  (Float.ofNat s.before - Float.ofNat s.after) / Float.ofNat s.before * 100.0

/-- A size in kibibytes. -/
def kibibytes (bytes : Nat) : Float := Float.ofNat bytes / 1024.0

/-- A size, in kibibytes and in bytes. -/
def sizeText (bytes : Nat) : String :=
  fixedFloat 2 (kibibytes bytes) ++ " KiB (" ++ String.ofList (Decimal.grouped bytes) ++ " bytes)"

/-- The line on the size before. -/
def beforeLine (s : Savings) : String := "Original size:   " ++ sizeText s.before

/-- The line on the size after. -/
def afterLine (s : Savings) : String := "Compressed size: " ++ sizeText s.after

/-- The line on the ratio. -/
def ratioLine (s : Savings) : String := "Compression ratio: " ++ fixedFloat 2 s.ratio ++ "%"

/-- The summary, one text for each line. -/
def summary (s : Savings) : List String := [s.beforeLine, s.afterLine, s.ratioLine]

end Savings

end HtmlMinifier
