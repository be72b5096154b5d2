import HtmlMinifier.FileTree.Fault

/-!
# Why a run ends early

A run ends before its document is written when something is wrong, or when the user asked for the
help text or the version and nothing more. Each such end has a message; a fault of a file is added
to it in parentheses.
-/

namespace HtmlMinifier

/-- What ends a run before its document is written. -/
inductive Halt where
  /-- The help text was asked for. -/
  | help
  /-- The version was asked for. -/
  | version
  /-- An argument is not one that is accepted. -/
  | unexpectedArgument
  /-- No profile has the name given. -/
  | unknownProfile
  /-- The output directory could not be made. -/
  | directory (fault : FileFault)
  /-- The input document could not be read. -/
  | reading (fault : FileFault)
  /-- The input document has no content. -/
  | emptyDocument
  /-- The minified document could not be written. -/
  | writing (fault : FileFault)
deriving DecidableEq, Repr

namespace Halt

/-- The name and number of this version of the program. -/
def versionText : String := "HTMLPress v0.1.0"

/-- The help text, which starts with an empty line and ends with a line feed. -/
def helpText : String := "\n".intercalate [
  "",
  "     __,---.__",
  "  ,-'         `-.__",
  "&/           `._\\ _\\",
  "/               ''._    \x1b[38;5;199mHTMLPress\x1b[0;38;5;69m v0.1.0\x1b[0m",
  "|   ,             (∞)   Squeeze one HTML",
  "|__,'`-..--|__|--''     document, quickly.",
  "",
  "USAGE:",
  "    htmlpress [FLAGS] [OPTIONS]",
  "",
  "FLAGS:",
  "    -h, --help            Print help information and exit.",
  "    -V, --version         Print program version and exit.",
  "",
  "OPTIONS:",
  "    -i, --input <FILE>    The HTML document to minify.",
  "                          [default: index.html]",
  "    -o, --output <DIR>    Directory to write the minified index.html to; it",
  "                          will be created if missing. [default: docs]",
  "        --profile <NAME>  Rule set to apply: \"structured\" keeps conditional",
  "                          comments and line structure inside scripts;",
  "                          \"aggressive\" flattens everything.",
  "                          [default: structured]",
  ""]

/-- The part of the message that does not depend on the fault of a file. -/
def summary : Halt → String
  | help => helpText
  | version => versionText
  | unexpectedArgument => "Invalid or unexpected CLI argument(s)."
  | unknownProfile => "The profile must be \"structured\" or \"aggressive\"."
  | directory _ => "Unable to create the output directory."
  | reading _ => "Unable to read the input document."
  | emptyDocument => "The input document is empty."
  | writing _ => "Unable to write the minified document."

/-- The fault of a file behind the end of the run, if there is one. -/
def fault? : Halt → Option FileFault
  | directory fault => some fault
  | reading fault => some fault
  | writing fault => some fault
  | _ => none

/-- The whole message. -/
def message (h : Halt) : String :=
  match h.fault? with
  | none => h.summary
  | some fault => h.summary ++ " (" ++ fault.message ++ ")"

/-- Whether the user asked for a text, so that nothing is wrong. -/
def isRequest : Halt → Bool
  | help => true
  | version => true
  | _ => false

end Halt

end HtmlMinifier
