import HtmlMinifier.Text.Enclosure
import HtmlMinifier.Text.Offset

/-!
# Comments in markup

A comment runs from `<!--` to the next `-->`. A *conditional* comment is one that starts with
`<!--[if`. The aggressive profile deletes all comments, the structured one all but the conditional
ones.

The second rule is a scan with two cursors. One is where the next opener is looked for, the other
where the text not yet copied starts; it lags behind while conditional openers are passed. They move
to byte offsets that are added up from what is found and from the sizes of the markers. A conditional opener is passed by one byte only, so that an opener right
inside it is found; an opener without a closer ends the scan, since nothing after it can have a
closer either.
-/

namespace HtmlMinifier

namespace Comment

/-- What opens a comment. -/
def opener : Text := ['<', '!', '-', '-']

/-- What closes a comment. -/
def closer : Text := ['-', '-', '>']

/-- What opens a conditional comment. -/
def conditionalOpener : Text := ['<', '!', '-', '-', '[', 'i', 'f']

/-- A comment of any kind. -/
def pattern : Pattern := .enclosure (.word opener) (.exact closer)

/-- Deletes all comments. -/
def deleteAll : Text → Text := pattern.delete

/-- What the scan does next, with the byte offsets it found. -/
inductive Step where
  /-- No comment that has to go is left. -/
  | finish
  /-- A conditional opener stands at `start`. -/
  | pass (start : Nat)
  /-- A comment that has to go stands from `start` up to `stop`. -/
  | remove (start stop : Nat)
deriving DecidableEq, Repr

/-- Looks for the next opener ahead of a cursor. There is no answer if the text would have to be cut
off a boundary. -/
def Step.next? (c : Cursor) : Option Step :=
  match (Word.exact opener).offset? c.rest with
  | none => some finish
  | some n =>
    let start := c.offset + n
    (c.moveTo? start).bind fun found =>
    if (Word.exact conditionalOpener).heads found.rest then some (pass start)
    else
      (found.moveTo? (start + Text.byteSize opener)).bind fun body =>
      match (Word.exact closer).offset? body.rest with
      | none => some finish
      | some m => some (remove start (start + Text.byteSize opener + m + Text.byteSize closer))

/-- The state of the scan. -/
structure Scan where
  /-- The parts of the text copied so far, last one first. -/
  copied : List Text
  /-- Where the text that is not yet copied starts. -/
  kept : Cursor
  /-- Where the next opener is looked for. -/
  next : Cursor
deriving DecidableEq, Repr

namespace Scan

/-- Nothing is copied and the whole text lies ahead. -/
def start (s : Text) : Scan := ⟨[], .start s, .start s⟩

/-- Carries out a step. There is no answer if the text would have to be cut off a boundary. -/
def follow? (c : Scan) : Step → Option Scan
  | .finish => some c
  | .pass start => (c.next.moveTo? (start + 1)).map fun next => { c with next := next }
  | .remove start stop =>
    (c.kept.textTo? start).bind fun part =>
    (c.next.moveTo? stop).map fun next => ⟨part :: c.copied, next, next⟩

/-- Scans on for at most `fuel` steps. There is no answer if a step has none or the steps run
out. -/
def run? : (fuel : Nat) → Scan → Option Scan
  | 0, _ => none
  | fuel + 1, c =>
    match Step.next? c.next with
    | none => none
    | some .finish => some c
    | some step => (c.follow? step).bind (run? fuel)

/-- The parts copied, and then the rest of the text. -/
def result (c : Scan) : Text := c.copied.reverse.flatten ++ c.kept.rest

end Scan

/-- Scans the text with one step for each byte, and one to find that nothing is left. -/
def scan? (s : Text) : Option Text :=
  (Scan.run? (Text.byteSize s + 1) (.start s)).map Scan.result

/-- Deletes all comments but the conditional ones. The scan has an answer for every text. -/
def deleteUnconditional (s : Text) : Text := (scan? s).getD s

end Comment

end HtmlMinifier
