import HtmlMinifier.Text.Gap
import HtmlMinifier.Text.Line
import HtmlMinifier.Text.Enclosure

/-!
# Scripts

A script is not divided into tokens, so a comment is what looks like one, be it inside a string.
The structured rules delete block comments and the line comments that have a line to themselves;
line feeds between statements stay. The aggressive rules delete every line comment, which takes the
rest of a line after the two slashes of an address too, and then flatten the lines.
-/

namespace HtmlMinifier

namespace Script

/-- What a text has up to its first line feed. -/
def firstLine (s : Text) : Text := s.takeWhile (· != '\n')

theorem firstLine_prefix (s : Text) : firstLine s <+: s := List.takeWhile_prefix _

/-- Two slashes and the rest of their line. -/
def lineComment : Pattern where
  read? _ s :=
    match s with
    | '/' :: '/' :: t => some ⟨['/', '/'], firstLine t, []⟩
    | _ => none
  text_prefix {_ s _} h := by
    split at h
    next t =>
      obtain rfl := Option.some.inj h
      simpa [Occurrence.text] using firstLine_prefix t
    next => cases h
  text_ne_nil h := by
    split at h
    next =>
      obtain rfl := Option.some.inj h
      simp [Occurrence.text]
    next => cases h

/-- A line comment that only blanks precede on its line, with all blanks that precede it from some
line start on, blank lines included. -/
def commentLine : Pattern where
  read? b s :=
    if b then
      match s.trimStart with
      | '/' :: '/' :: t => some ⟨s.leadingBlanks ++ ['/', '/'], firstLine t, []⟩
      | _ => none
    else none
  text_prefix {_ s _} h := by
    split at h
    next =>
      split at h
      next t ht =>
        obtain rfl := Option.some.inj h
        obtain ⟨r, hr⟩ := firstLine_prefix t
        refine ⟨r, ?_⟩
        have hs := Text.leadingBlanks_append_trimStart s
        rw [ht, ← hr] at hs
        simpa [Occurrence.text] using hs
      next => cases h
    next => cases h
  text_ne_nil h := by
    split at h
    next =>
      split at h
      next =>
        obtain rfl := Option.some.inj h
        simp [Occurrence.text]
      next => cases h
    next => cases h

/-- Deletes block comments. -/
def deleteBlockComments : Text → Text := Pattern.blockComment.delete

/-- Deletes the line comments that have a line to themselves; the line feed after them stays. -/
def deleteCommentLines : Text → Text := commentLine.delete

/-- Deletes every line comment. -/
def deleteLineComments : Text → Text := lineComment.delete

/-- Blanks between a semicolon and a closing brace are deleted. -/
def tightenLastSemicolons : Text → Text := (Pattern.gap (some ';') (some '}') 0).replace [';', '}']

/-- The structured rules. -/
def structured (s : Text) : Text :=
  let s := deleteBlockComments s
  let s := deleteCommentLines s
  let s := Text.squeezeLineFeeds s
  Text.trim s

/-- The aggressive rules. -/
def aggressive (s : Text) : Text :=
  let s := deleteLineComments s
  let s := deleteBlockComments s
  let s := Text.flattenBlanks s
  let s := tightenLastSemicolons s
  Text.trim s

end Script

end HtmlMinifier
