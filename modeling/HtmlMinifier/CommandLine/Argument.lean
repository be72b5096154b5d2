/-!
# Arguments

An argument reaches the program as bytes. One whose bytes are no text cannot be a keyword or a
value.
-/

namespace HtmlMinifier

/-- An argument of the command line. -/
inductive Argument where
  | text (s : String)
  | undecodable
deriving DecidableEq, Repr

/-- Reads the bytes of an argument. -/
def Argument.ofBytes (bytes : ByteArray) : Argument :=
  match String.fromUTF8? bytes with
  | none => undecodable
  | some s => text s

end HtmlMinifier
