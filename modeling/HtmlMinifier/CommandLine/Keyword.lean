import HtmlMinifier.Text.Blank

/-!
# Keywords

The keywords of the command line: those that ask for a text, and those that set a field and take a
value. The listing of all keywords, in the order of their names, is written out as source text for
programs that read the same command line.
-/

namespace HtmlMinifier

/-- A text that can be asked for. -/
inductive Request where
  | help
  | version
deriving DecidableEq, Repr

/-- A field that can be set. -/
inductive Field where
  | input
  | output
  | profile
deriving DecidableEq, Repr

/-- What a keyword is for. -/
inductive Purpose where
  | ask (request : Request)
  | set (field : Field)
deriving DecidableEq, Repr

/-- A keyword of the command line. -/
structure Keyword where
  name : String
  purpose : Purpose
deriving DecidableEq, Repr

namespace Keyword

/-- The keywords, those for asking first. -/
def all : List Keyword := [
  ⟨"-h", .ask .help⟩, ⟨"--help", .ask .help⟩,
  ⟨"-V", .ask .version⟩, ⟨"--version", .ask .version⟩,
  ⟨"-i", .set .input⟩, ⟨"--input", .set .input⟩,
  ⟨"-o", .set .output⟩, ⟨"--output", .set .output⟩,
  ⟨"--profile", .set .profile⟩]

/-- What the keyword with this name is for. -/
def purpose? (name : Text) : Option Purpose :=
  (all.find? fun k => k.name.toList == name).map (·.purpose)

/-- Whether the name of a keyword comes before or with that of another. -/
def le (a b : Keyword) : Bool := decide (a.name ≤ b.name)

/-- The entry of a keyword in the listing. -/
def entry (k : Keyword) : String :=
  match k.purpose with
  | .ask _ => "argyle::KeyWord::Key(\"" ++ k.name ++ "\")"
  | .set _ => "argyle::KeyWord::KeyWithValue(\"" ++ k.name ++ "\")"

/-- The listing of all keywords, in the order of their names. -/
def listing : String := "[" ++ ", ".intercalate ((all.mergeSort le).map entry) ++ "]"

/-- What is printed before the listing is written: which variable makes it out of date. -/
def listingNotice : String := "cargo:rerun-if-env-changed=CARGO_PKG_VERSION\n"

end Keyword

end HtmlMinifier
