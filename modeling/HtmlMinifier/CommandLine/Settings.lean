import HtmlMinifier.CommandLine.Item
import HtmlMinifier.FileTree.Path
import HtmlMinifier.Halt
import HtmlMinifier.Profile

/-!
# Settings

What a run is to do. The items of the command line are applied one after another, so the last value
given for a field counts, and the first item that is not one to go on with ends the run.
-/

namespace HtmlMinifier

/-- What a run is to do. -/
structure Settings where
  /-- The document to minify. -/
  input : Path
  /-- Where the minified document is written. -/
  outputDirectory : Path
  /-- The rules to minify by. -/
  profile : Profile
deriving DecidableEq, Repr

namespace Settings

/-- The settings of an empty command line. -/
def default : Settings := ⟨⟨"index.html"⟩, ⟨"docs"⟩, Inhabited.default⟩

/-- The file that the minified document is written to. -/
def outputFile (s : Settings) : Path := s.outputDirectory.join "index.html"

/-- The settings with one field set. -/
def set (s : Settings) (field : Field) (value : String) : Except Halt Settings :=
  match field with
  | .input => .ok { s with input := ⟨value⟩ }
  | .output => .ok { s with outputDirectory := ⟨value⟩ }
  | .profile =>
    match Profile.ofName? value with
    | none => .error .unknownProfile
    | some profile => .ok { s with profile := profile }

/-- The settings after one more item. -/
def add (s : Settings) : Item → Except Halt Settings
  | .ask .help => .error .help
  | .ask .version => .error .version
  | .set field value => s.set field value
  | .unknown => .error .unexpectedArgument

/-- The settings that some items ask for. -/
def ofItems (items : List Item) : Except Halt Settings := items.foldlM add default

/-- The settings that some arguments ask for. -/
def ofArguments (args : List Argument) : Except Halt Settings := ofItems (Item.ofArguments args)

end Settings

end HtmlMinifier
