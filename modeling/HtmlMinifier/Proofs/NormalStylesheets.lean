import HtmlMinifier.Proofs.NormalScripts
import HtmlMinifier.Proofs.StylesheetGaps

/-!
# Style sheets in normal form

The structured rules have nothing to do on a style sheet that they have treated, with
one proviso. Deleting a comment may put a slash before a star and so open a comment
where there was none, but then that slash stood right before the opener of the comment
that went. A text without a slash before an opener is left without comments, however
many it has, and however many openers and closers stand alone in it
(`unclosed_structured`). The rules on gaps bring no slash and star together, since they
close a gap only next to a brace, a colon or a semicolon.

As for the gaps, one of the seven passes might leave what an earlier one would change.
That does not happen. Together they are one rule on gaps, and it leaves alone what it
has left (`sheetRule_sheetRule`).
-/

namespace HtmlMinifier.Stylesheet

open Text Script

/-! ## The rule on gaps, twice -/

theorem sheetRule_nil (l r : Option Char) : sheetRule l [] r = [] := by
  simp [sheetRule]

theorem sheetRule_sheetRule (l : Option Char) (R : Text) (r : Option Char) :
    sheetRule l (sheetRule l R r) r = sheetRule l R r := by
  rw [sheetRule.eq_def l R r]
  split_ifs with hgoes hlen
  · exact sheetRule_nil l r
  · rw [sheetRule, if_neg hgoes, if_pos hlen]
  · -- The space that is left is no line feed, so it stays also after a semicolon.
    have hstays : ¬ (l = none ∨ r = none ∨ l = some ':' ∨ r = some '}' ∨ l = some '{' ∨
        l = some ';' ∧ [' '] = ['\n']) := by
      simp only [not_or] at hgoes ⊢
      exact ⟨hgoes.1, hgoes.2.1, hgoes.2.2.1, hgoes.2.2.2.1, hgoes.2.2.2.2.1,
        fun h => absurd h.2 (by decide)⟩
    exact (if_neg hstays).trans (if_pos (Nat.le_refl 1))

/-! ## Comments -/

/-- Only next to a brace, a colon or a semicolon are two characters brought together. -/
theorem sheetRule_eq_nil {a b : Char} {R : Text} (ha : a ∉ [':', '{', ';']) (hb : b ≠ '}')
    (h : sheetRule (some a) R (some b) = []) : R = [] := by
  have hstays : ¬ (some a = none ∨ some b = none ∨ some a = some ':' ∨ some b = some '}' ∨
      some a = some '{' ∨ some a = some ';' ∧ R = ['\n']) := by
    simp_all
  rw [sheetRule, if_neg hstays] at h
  split_ifs at h
  exact h

/-- No block comment is left where no slash stands before an opener, and none comes
about. -/
theorem unclosed_structured {s : Text} (h : ¬ ['/', '/', '*'] <:+: s) :
    Unclosed (structured s) := by
  rw [structured_eq_mapGaps]
  exact (unclosed_deleteBlockComments h).mapGaps keepsBlank_sheetRule
    (fun _ => sheetRule_eq_nil (by decide) (by decide))
    (fun _ => sheetRule_eq_nil (by decide) (by decide))

theorem structured_of_unclosed {s : Text} (h : Unclosed (structured s)) :
    structured (structured s) = structured s := by
  have hdelete : Pattern.blockComment.delete (structured s) = structured s :=
    deleteBlockComments_of_unclosed h
  rw [structured_eq_mapGaps (structured s), hdelete, structured_eq_mapGaps s]
  exact mapGaps_idem keepsBlank_sheetRule sheetRule_sheetRule _

/-- Of a style sheet in which no slash stands before the opener of a comment the
structured rules leave no block comment, and what they leave they do not change. -/
theorem structured_normalForm {s : Text} (h : ¬ ['/', '/', '*'] <:+: s) :
    (∀ u t v, structured s ≠ u ++ '/' :: '*' :: (t ++ '*' :: '/' :: v)) ∧
      structured (structured s) = structured s :=
  ⟨unclosed_iff_ne_append.1 (unclosed_structured h),
    structured_of_unclosed (unclosed_structured h)⟩

theorem structured_normalForm_stray :
    structured (structured "a\t*/*x*/ / \x7b b:\n\nc;\n d ;;\u00A0\x7d/*/".toList) =
      "a\t* / \x7bb:c; d ;;\x7d/*/".toList :=
  Eq.trans (structured_normalForm (by decide +kernel)).2 (by decide +kernel)

/-- With a slash before the opener a comment comes about. -/
example : structured "//*x*/* y */".toList = "/* y */".toList := by decide +kernel

end HtmlMinifier.Stylesheet
