import HtmlMinifier.Text.Blank

/-!
# Profiles

The two sets of rules. They apply different rules in a different order and neither output can be
had from the other, so one has to be chosen. A profile is named by a word, in capital or small
letters, with blanks around it or without.
-/

namespace HtmlMinifier

/-- A set of rules. -/
inductive Profile where
  /-- Conditional comments stay, and so does the division of scripts and text into lines. -/
  | structured
  /-- All comments go, and every run of blanks becomes one space. -/
  | aggressive
deriving DecidableEq, Repr

namespace Profile

/-- Unless another profile is named, the structured one is taken. -/
instance : Inhabited Profile := ⟨structured⟩

/-- The name of a profile. -/
def name : Profile → String
  | structured => "structured"
  | aggressive => "aggressive"

/-- The text without capital letters of ASCII. -/
def lowerAscii (s : Text) : Text := s.map Char.toLower

/-- The profile that a word names. -/
def ofName? (s : String) : Option Profile :=
  let word := lowerAscii (Text.trim s.toList)
  if word = "structured".toList then some structured
  else if word = "aggressive".toList then some aggressive
  else none

end Profile

end HtmlMinifier
