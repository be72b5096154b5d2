import HtmlMinifier.Text.Gap
import HtmlMinifier.Text.Line
import HtmlMinifier.Text.Enclosure

/-!
# Style sheets

Both sets of rules delete the comments of a style sheet and then work on its blanks, one rule
after another over the whole text. The structured rules shorten runs of blanks and delete them
inside braces and after colons; blanks before a colon or a semicolon stay. The aggressive rules
also delete them around all punctuation, and with them the last semicolon of a block.
-/

namespace HtmlMinifier

namespace Stylesheet

/-- The blanks after a semicolon up to the last line feed among them. -/
def semicolonBreak : Pattern where
  read? _ s :=
    match s with
    | [] => none
    | c :: t =>
      if c = ';' then
        match Text.beforeLastBreak? (Text.leadingBlanks t) with
        | none => none
        | some u => some ⟨[';'], u, ['\n']⟩
      else none
  text_prefix {_ s _} h := by
    split at h
    next => cases h
    next c t =>
      split at h
      next hc =>
        split at h
        next => cases h
        next u hu =>
          obtain rfl := Option.some.inj h
          obtain ⟨r, hr, -⟩ := Text.append_of_beforeLastBreak? hu
          refine ⟨r ++ Text.trimStart t, ?_⟩
          have := Text.leadingBlanks_append_trimStart t
          rw [← hr] at this
          simpa [Occurrence.text, hc] using this
      next => cases h
  text_ne_nil h := by
    split at h
    next => cases h
    next =>
      split at h
      next =>
        split at h
        next => cases h
        next =>
          obtain rfl := Option.some.inj h
          simp [Occurrence.text]
      next => cases h

/-- A semicolon and the closing brace that follows, with the blanks before and between. -/
def lastSemicolon : Pattern where
  read? _ s :=
    match Text.trimStart s with
    | ';' :: t =>
      match Text.trimStart t with
      | '}' :: _ => some ⟨Text.leadingBlanks s ++ [';'], Text.leadingBlanks t, ['}']⟩
      | _ => none
    | _ => none
  text_prefix {_ s _} h := by
    split at h
    next t ht =>
      split at h
      next r hr =>
        obtain rfl := Option.some.inj h
        refine ⟨r, ?_⟩
        have hs := Text.leadingBlanks_append_trimStart s
        have hu := Text.leadingBlanks_append_trimStart t
        rw [hr] at hu
        rw [ht, ← hu] at hs
        simpa [Occurrence.text] using hs
      next => cases h
    next => cases h
  text_ne_nil h := by
    split at h
    next =>
      split at h
      next =>
        obtain rfl := Option.some.inj h
        simp [Occurrence.text]
      next => cases h
    next => cases h

/-- Whether a character is one of the marks around which blanks mean nothing. -/
def isMark (c : Char) : Bool := c == '{' || c == '}' || c == ';' || c == ':'

/-- A mark with the blanks around it. -/
def mark : Pattern where
  read? _ s :=
    match Text.trimStart s with
    | [] => none
    | c :: t => if isMark c then some ⟨Text.leadingBlanks s, [c], Text.leadingBlanks t⟩ else none
  text_prefix {_ s _} h := by
    split at h
    next => cases h
    next c t ht =>
      split at h
      next =>
        obtain rfl := Option.some.inj h
        refine ⟨Text.trimStart t, ?_⟩
        have hs := Text.leadingBlanks_append_trimStart s
        rw [ht, ← Text.leadingBlanks_append_trimStart t] at hs
        simpa [Occurrence.text] using hs
      next => cases h
  text_ne_nil h := by
    split at h
    next => cases h
    next =>
      split at h
      next =>
        obtain rfl := Option.some.inj h
        simp [Occurrence.text]
      next => cases h

/-- Two blanks or more become one space. -/
def collapseWide : Text → Text := Pattern.widerBlanks.replace [' ']

/-- Blanks after a line feed are deleted. -/
def deleteIndents : Text → Text := (Pattern.gap (some '\n') none 1).replace ['\n']

/-- Blanks after a semicolon are deleted up to their last line feed. -/
def deleteSemicolonBreaks : Text → Text := semicolonBreak.replace [';']

/-- Blanks after an opening brace are deleted. -/
def openBraces : Text → Text := (Pattern.gap (some '{') none 0).replace ['{']

/-- Blanks before a closing brace are deleted. -/
def closeBraces : Text → Text := (Pattern.gap none (some '}') 0).replace ['}']

/-- Blanks after a colon are deleted. -/
def tightenColons : Text → Text := (Pattern.gap (some ':') none 0).replace [':']

/-- The semicolon before a closing brace is deleted, with the blanks around it. -/
def dropLastSemicolons : Text → Text := lastSemicolon.replace ['}']

/-- Blanks around marks are deleted. -/
def tightenMarks : Text → Text := mark.replaceWith Occurrence.inner

/-- The structured rules. -/
def structured (s : Text) : Text :=
  let s := Pattern.blockComment.delete s
  let s := collapseWide s
  let s := deleteIndents s
  let s := deleteSemicolonBreaks s
  let s := openBraces s
  let s := closeBraces s
  let s := tightenColons s
  Text.trim s

/-- The aggressive rules. -/
def aggressive (s : Text) : Text :=
  let s := Pattern.blockComment.delete s
  let s := Text.flattenBlanks s
  let s := dropLastSemicolons s
  let s := tightenMarks s
  Text.trim s

end Stylesheet

end HtmlMinifier
