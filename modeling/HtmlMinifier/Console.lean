import HtmlMinifier.Publish

/-!
# The console

What a run prints and the status it exits with. A run that succeeded tells where the document went
and what was saved, one that was asked for a text prints that, and any other says on the error
stream what is wrong.
-/

namespace HtmlMinifier

/-- What a run prints, and its exit status. -/
structure Transcript where
  status : Nat
  output : String
  errors : String
deriving DecidableEq, Repr

namespace Transcript

/-- A line that starts with a coloured label. -/
def labelled (colour label text : String) : String :=
  "\x1b[1;" ++ colour ++ "m" ++ label ++ ":\x1b[0m " ++ text ++ "\n"

/-- The line that tells of success. -/
def successLine (text : String) : String := labelled "92" "Success" text

/-- A line of information. -/
def infoLine (text : String) : String := labelled "95" "Info" text

/-- The line that tells of an error. -/
def errorLine (text : String) : String := labelled "91" "Error" text

/-- What is printed after a run that succeeded. -/
def ofOutcome (o : Outcome) : Transcript where
  status := 0
  output := String.join (successLine "Minification complete." ::
    (("Output directory: " ++ o.settings.outputDirectory.text) :: o.savings.summary).map infoLine)
  errors := ""

/-- What is printed after a run that ended early. -/
def ofHalt (h : Halt) : Transcript :=
  if h.isRequest then ⟨0, h.summary ++ "\n", ""⟩ else ⟨1, "", errorLine h.message⟩

/-- What is printed after a run. -/
def ofResult : Except Halt Outcome → Transcript
  | .error h => ofHalt h
  | .ok o => ofOutcome o

end Transcript

/-- Runs the program and tells what it prints. -/
def perform {m : Type → Type} [Monad m] [Storage m] (args : List Argument) : m Transcript := do
  pure (Transcript.ofResult (← (runWith args).run))

end HtmlMinifier
