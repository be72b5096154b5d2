import HtmlMinifier.Markup.Comment
import HtmlMinifier.Markup.Element
import HtmlMinifier.Profile
import HtmlMinifier.Script
import HtmlMinifier.Stylesheet

/-!
# Documents

A document is minified by a fixed sequence of steps, each over the whole text. A byte order mark
at its start is dropped first; it is not a blank. The structured profile then works on comments,
on the content of style and script elements, on the gaps between tags and at last on lines. The
aggressive profile has to take the line comments out of scripts before it flattens the lines, since
nothing would show their ends later.
-/

namespace HtmlMinifier

namespace Document

/-- The byte order mark. -/
def byteOrderMark : Char := '\uFEFF'

/-- The text without a byte order mark at its start. -/
def dropMark : Text → Text
  | [] => []
  | c :: s => if c = byteOrderMark then s else c :: s

/-- Blanks between two tags are deleted. -/
def closeTagGaps : Text → Text := (Pattern.gap (some '>') (some '<') 1).replace ['>', '<']

/-- The padding of lines is deleted, and with it any blank line. -/
def trimLines : Text → Text := Pattern.lineEdge.delete

/-- The rules of the structured profile. -/
def structured (s : Text) : Text :=
  let s := Comment.deleteUnconditional s
  let s := Element.style.mapContent Stylesheet.structured s
  let s := Element.script.mapContent Script.structured s
  let s := closeTagGaps s
  let s := trimLines s
  let s := Text.squeezeLineFeeds s
  Text.trim s

/-- The rules of the aggressive profile. -/
def aggressive (s : Text) : Text :=
  let s := Comment.deleteAll s
  let s := Element.script.mapContent Script.deleteLineComments s
  let s := Text.flattenBlanks s
  let s := closeTagGaps s
  let s := Text.trim s
  let s := Element.style.mapContent Stylesheet.aggressive s
  Element.script.mapContent Script.aggressive s

/-- The rules of a profile. -/
def rules : Profile → Text → Text
  | .structured => structured
  | .aggressive => aggressive

/-- Minifies the text of a document. -/
def minify (p : Profile) (s : Text) : Text := rules p (dropMark s)

end Document

/-- Minifies a document by the rules of a profile. -/
def minify (p : Profile) (document : String) : String :=
  String.ofList (Document.minify p document.toList)

theorem toList_minify (p : Profile) (document : String) :
    (minify p document).toList = Document.minify p document.toList :=
  String.toList_ofList

end HtmlMinifier
