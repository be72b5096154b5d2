import HtmlMinifier.Proofs.CommentScan
import HtmlMinifier.Proofs.ElementSearch
import HtmlMinifier.Proofs.LineBreaks
import HtmlMinifier.Proofs.TagGaps
import Mathlib.Data.List.Infix

/-!
# The layout of a structured document

The last four passes of the structured profile speak of blanks only, and all
four are rules on gaps, so together they are one rule: a gap between tags goes,
and of any other gap stays what the padding of lines leaves. Squeezing and
trimming find nothing to do after that.

What the rule leaves in a gap is nothing, a single line feed, or blanks without
a line feed, and nothing between tags. That is the normal form: lines that are
not empty and have no padding, one line feed between two of them, and no gap
between tags. The rule finds nothing to do in such gaps, so a document that the
earlier passes leave alone is minified to itself.
-/

namespace HtmlMinifier.Text

/-! ## The rules after the padding of lines -/

theorem squeezeRule_lineRule (l r : Option Char) (R : Text) :
    squeezeRule l (lineRule l R r) r = lineRule l R r := by
  cases l with
  | none => rw [lineRule_end (.inl rfl)]; rfl
  | some a =>
      cases r with
      | none => rw [lineRule_end (.inr rfl)]; rfl
      | some b =>
          rcases lineRule_inner a b R with ⟨h, hn⟩ | h | h
          · rw [h]; exact squeezeLineFeeds_of_not_mem hn
          · rw [h]; rfl
          · rw [h]; rfl

theorem endRule_lineRule (l r : Option Char) (R : Text) :
    endRule l (lineRule l R r) r = lineRule l R r := by
  rw [endRule]
  split
  · next h => rw [lineRule_end h]
  · rfl

theorem lineRule_lineRule (l r : Option Char) (R : Text) :
    lineRule l (lineRule l R r) r = lineRule l R r := by
  cases l with
  | none => rw [lineRule_end (.inl rfl), lineRule_end (.inl rfl)]
  | some a =>
      cases r with
      | none => rw [lineRule_end (.inr rfl), lineRule_end (.inr rfl)]
      | some b =>
          rcases lineRule_inner a b R with ⟨h, hn⟩ | h | h
          · rw [h, h]
          · rw [h]; rfl
          · rw [h]; rfl

/-- What the layout leaves of a gap. -/
def layoutRule : GapRule := thenGap tagRule lineRule

theorem layoutRule_nil (l r : Option Char) : layoutRule l [] r = [] := by
  rw [layoutRule, thenGap, tagRule_nil, lineRule_nil]

theorem layoutRule_end {l r : Option Char} {R : Text}
    (h : l = none ∨ r = none) : layoutRule l R r = [] :=
  lineRule_end h

theorem keepsBlank_layoutRule : KeepsBlank layoutRule :=
  keepsBlank_tagRule.thenGap keepsBlank_lineRule

theorem layoutRule_tags (R : Text) :
    layoutRule (some '>') R (some '<') = [] := by
  rw [layoutRule, thenGap, tagRule, if_pos ⟨rfl, rfl⟩, lineRule_nil]

/-- A gap between two characters has one line feed and nothing else, or no
line feed. -/
theorem layoutRule_inner (a b : Char) (R : Text) :
    layoutRule (some a) R (some b) = ['\n'] ∨
      '\n' ∉ layoutRule (some a) R (some b) := by
  rw [layoutRule, thenGap]
  rcases lineRule_inner a b (tagRule (some a) R (some b)) with ⟨h, hn⟩ | h | h
  · rw [h]; exact .inr hn
  · exact .inl h
  · rw [h]; exact .inr List.not_mem_nil

theorem layoutRule_layoutRule (l r : Option Char) (R : Text) :
    layoutRule l (layoutRule l R r) r = layoutRule l R r := by
  rw [layoutRule, thenGap, thenGap]
  rcases tagRule_cases l r (lineRule l (tagRule l R r) r) with h | h
  · -- Between tags nothing was left in the first place.
    rw [h, lineRule_nil]
    rw [tagRule] at h
    split at h
    · next ht => rw [tagRule, if_pos ht, lineRule_nil]
    · exact h.symm
  · rw [h, lineRule_lineRule]

end HtmlMinifier.Text

namespace HtmlMinifier.Document

open Text

/-- The last four passes of the structured profile. -/
def layout (s : Text) : Text :=
  Text.trim (Text.squeezeLineFeeds (trimLines (closeTagGaps s)))

theorem squeezeLineFeeds_trimLines (s : Text) :
    Text.squeezeLineFeeds (trimLines s) = trimLines s := by
  rw [trimLines, Pattern.delete_lineEdge,
    squeezeLineFeeds_eq_mapGaps (mapGaps lineRule none none s) (l := none) (r := none),
    mapGaps_mapGaps keepsBlank_lineRule]
  exact mapGaps_congr (fun l R r _ => squeezeRule_lineRule l r R) s

theorem trim_trimLines (s : Text) : Text.trim (trimLines s) = trimLines s := by
  rw [trimLines, Pattern.delete_lineEdge, trim_eq_mapGaps,
    mapGaps_mapGaps keepsBlank_lineRule]
  exact mapGaps_congr (fun l R r _ => endRule_lineRule l r R) s

theorem layout_eq_trimLines (s : Text) : layout s = trimLines (closeTagGaps s) := by
  rw [layout, squeezeLineFeeds_trimLines, trim_trimLines]

theorem layout_eq_mapGaps (s : Text) :
    layout s = mapGaps layoutRule none none s := by
  rw [layout_eq_trimLines, trimLines, Pattern.delete_lineEdge, closeTagGaps_eq_mapGaps,
    mapGaps_mapGaps keepsBlank_tagRule, layoutRule]

theorem layout_layout (s : Text) : layout (layout s) = layout s := by
  rw [layout_eq_mapGaps, layout_eq_mapGaps]
  exact mapGaps_idem keepsBlank_layoutRule (fun l R r => layoutRule_layoutRule l r R) s

/-! ## Lines of a document -/

/-- A line that is not empty and has no blank at either end. -/
structure CleanLine (line : Text) : Prop where
  newline_not_mem : '\n' ∉ line
  head : ∃ c t, line = c :: t ∧ isBlank c = false
  last : ∃ t c, line = t ++ [c] ∧ isBlank c = false

theorem cleanLine_singleton {a : Char} (ha : isBlank a = false) :
    CleanLine [a] where
  newline_not_mem := by simpa using (newline_ne ha).symm
  head := ⟨a, [], rfl, ha⟩
  last := ⟨[], a, rfl, ha⟩

/-- A clean line goes on before its start. -/
theorem CleanLine.append {a : Char} {G line : Text} (h : CleanLine line)
    (ha : isBlank a = false) (hG : '\n' ∉ G) :
    CleanLine (a :: (G ++ line)) where
  newline_not_mem := by
    simp only [List.mem_cons, List.mem_append, not_or]
    exact ⟨(newline_ne ha).symm, hG, h.newline_not_mem⟩
  head := ⟨a, G ++ line, rfl, ha⟩
  last := by
    obtain ⟨t, c, rfl, hc⟩ := h.last
    exact ⟨a :: (G ++ t), c, by simp, hc⟩

/-- Whatever follows a character, laid out, it makes clean lines with it. -/
theorem exists_cleanLines_cons (s : Text) : ∀ {a : Char},
    isBlank a = false →
    ∃ line rest, a :: mapGaps layoutRule (some a) none s =
        ['\n'].intercalate (line :: rest) ∧
      ∀ x ∈ line :: rest, CleanLine x := by
  induction s using gap_induction with
  | blanks R hR =>
      intro a ha
      refine ⟨[a], [], ?_, ?_⟩
      · rw [mapGaps_blanks hR, layoutRule_end (.inr rfl)]
        rfl
      · intro x hx
        rw [List.mem_singleton.1 hx]
        exact cleanLine_singleton ha
  | cons R c s hR hc ih =>
      intro a ha
      obtain ⟨line, rest, hline, hclean⟩ := ih hc
      obtain ⟨hfirst, hrest⟩ := List.forall_mem_cons.1 hclean
      rw [mapGaps_gap hR hc, hline]
      rcases layoutRule_inner a c R with h | h
      · refine ⟨[a], line :: rest, by rw [h]; rfl, ?_⟩
        exact List.forall_mem_cons.2 ⟨cleanLine_singleton ha, hclean⟩
      · refine ⟨a :: (layoutRule (some a) R (some c) ++ line), rest, ?_, ?_⟩
        · cases rest <;> simp
        · exact List.forall_mem_cons.2 ⟨hfirst.append ha h, hrest⟩

theorem exists_cleanLines (s : Text) :
    ∃ lines, layout s = ['\n'].intercalate lines ∧
      ∀ line ∈ lines, CleanLine line := by
  rw [layout_eq_mapGaps]
  rcases allBlank_or_exists s with h | ⟨R, c, t, rfl, hR, hc⟩
  · refine ⟨[], ?_, fun line hl => absurd hl List.not_mem_nil⟩
    rw [mapGaps_blanks h, layoutRule_end (.inl rfl)]
    rfl
  · obtain ⟨line, rest, hline, hclean⟩ := exists_cleanLines_cons t hc
    refine ⟨line :: rest, ?_, hclean⟩
    rw [mapGaps_gap hR hc, layoutRule_end (.inl rfl), ← hline]
    rfl

theorem not_tagGap_infix_layout {R : Text} (hne : R ≠ []) (hR : AllBlank R)
    (s : Text) : ¬ '>' :: (R ++ ['<']) <:+: layout s := by
  rintro ⟨u, v, h⟩
  rw [layout_eq_mapGaps] at h
  have hcut : mapGaps layoutRule none none s = u ++ '>' :: (R ++ '<' :: v) := by
    rw [← h]
    simp
  obtain ⟨Q, -, -, -, -, hQ⟩ := exists_gap_of_mapGaps keepsBlank_layoutRule
    (by decide) (by decide) hR hcut
  rw [layoutRule_tags] at hQ
  exact hne hQ

/-! ## The normal form -/

theorem minify_structured_eq (s : Text) :
    minify .structured s =
      layout (Element.script.mapContent Script.structured
        (Element.style.mapContent Stylesheet.structured
          (Comment.deleteUnconditional (dropMark s)))) := rfl

theorem dropMark_of_head? {s : Text} (h : s.head? ≠ some byteOrderMark) :
    dropMark s = s := by
  cases s with
  | nil => rfl
  | cons c s => rw [dropMark, if_neg (by simpa using h)]

/-- With nothing for the earlier passes to do, a document is only laid out. -/
theorem minify_structured_eq_layout {s : Text}
    (hcomment : ¬ Comment.opener <:+: s)
    (hstyle : ¬ '<' :: Element.style.name <:+: s.map foldCase)
    (hscript : ¬ '<' :: Element.script.name <:+: s.map foldCase)
    (hmark : s.head? ≠ some byteOrderMark) :
    minify .structured s = layout s := by
  rw [minify_structured_eq, dropMark_of_head? hmark,
    Comment.deleteUnconditional_of_absent hcomment,
    Element.mapContent_of_absent hstyle,
    Element.mapContent_of_absent hscript]

/-- A structured document is made of clean lines, has no gap between tags, and
is minified to itself if nothing in it starts a comment, a style sheet or a
script. -/
theorem minify_structured_normalForm (s : Text) :
    (∃ lines, minify .structured s = ['\n'].intercalate lines ∧
        ∀ line ∈ lines, CleanLine line) ∧
      (∀ R, R ≠ [] → AllBlank R →
        ¬ '>' :: (R ++ ['<']) <:+: minify .structured s) ∧
      (¬ Comment.opener <:+: minify .structured s →
        ¬ '<' :: Element.style.name <:+: (minify .structured s).map foldCase →
        ¬ '<' :: Element.script.name <:+:
          (minify .structured s).map foldCase →
        (minify .structured s).head? ≠ some byteOrderMark →
        minify .structured (minify .structured s) = minify .structured s) := by
  refine ⟨?_, ?_, ?_⟩
  · rw [minify_structured_eq]
    exact exists_cleanLines _
  · intro R hne hR
    rw [minify_structured_eq]
    exact not_tagGap_infix_layout hne hR _
  · intro hcomment hstyle hscript hmark
    rw [minify_structured_eq_layout hcomment hstyle hscript hmark,
      minify_structured_eq, layout_layout]

theorem minify_structured_paragraphs :
    minify .structured (minify .structured
        " <!--x-->\r\n\n <P> a\u00A0\n b</P> \n <p>c</p> ".toList) =
      "<P> a\nb</P><p>c</p>".toList :=
  Eq.trans ((minify_structured_normalForm _).2.2 (by decide +kernel)
    (by decide +kernel) (by decide +kernel) (by decide +kernel))
    (by decide +kernel)

end HtmlMinifier.Document
