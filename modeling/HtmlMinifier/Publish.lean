import HtmlMinifier.CommandLine.Settings
import HtmlMinifier.Document
import HtmlMinifier.FileTree.Storage
import HtmlMinifier.Savings

/-!
# Publishing a document

A run makes sure of the output directory, reads the document, refuses an empty one, minifies it and
writes it into the directory, in this order; the first stage that fails ends the run. The directory
is made even if the document turns out to be unreadable.

Besides, the listing of the command line's keywords can be written into a directory that exists.
-/

namespace HtmlMinifier

variable {m : Type → Type} [Monad m] [Storage m]

/-- Turns a fault of storage into the end of the run. -/
def orHalt {α : Type} (halt : FileFault → Halt) (action : m (Except FileFault α)) :
    ExceptT Halt m α :=
  ExceptT.mk do
    match ← action with
    | .error fault => pure (.error (halt fault))
    | .ok a => pure (.ok a)

/-- Minifies the document that the settings name into their output directory. -/
def Settings.publish (s : Settings) : ExceptT Halt m Savings := do
  orHalt .directory (Storage.ensureDirectory (m := m) s.outputDirectory)
  let document ← orHalt .reading (Storage.readText (m := m) s.input)
  if h : 0 < document.utf8ByteSize then
    let minified := minify s.profile document
    orHalt .writing (Storage.writeText (m := m) s.outputFile minified)
    pure ⟨document.utf8ByteSize, minified.utf8ByteSize, h⟩
  else throw .emptyDocument

/-- What a run leaves to tell: the settings it had and what it saved. -/
structure Outcome where
  settings : Settings
  savings : Savings
deriving DecidableEq, Repr

/-- A whole run with the given arguments. -/
def runWith (args : List Argument) : ExceptT Halt m Outcome := do
  let settings ← ExceptT.mk (pure (Settings.ofArguments args))
  let savings ← settings.publish
  pure ⟨settings, savings⟩

/-- Writes the listing of keywords into the directory that a path resolves to. The answer says
whether it was written. -/
def saveKeywordListing (directory : Path) : m Bool := do
  match ← Storage.resolve directory with
  | .error _ => pure false
  | .ok found =>
    match ← Storage.writeText (found.join "argyle.rs") Keyword.listing with
    | .ok () => pure true
    | .error _ => pure false

end HtmlMinifier
