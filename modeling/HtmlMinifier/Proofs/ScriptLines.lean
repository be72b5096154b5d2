import HtmlMinifier.Proofs.StructuredLayout

/-!
# Scripts keep their lines

A comment line is deleted with all the blanks before it, blank lines included,
and its own line feed stays. Line by line this is simple after all: of the
lines of the text, trimmed and without the blank ones, those that start with
two slashes are gone and the others are there as they were, in the same order
(`trimmedLines_deleteCommentLines`). The search is followed one line of code or
comment at a time. A comment ends with its line, and inside a line of code no
line starts, so there the pattern is not looked for.

The passes that come after, those of the script and those of the whole
document, work on gaps. Squeezed first, the blanks between two lines have no
line feed before the last one, so the padding of lines leaves that one, and
what comes out is the lines joined by line feeds, less the gaps that stand
between `>` and `<`.
-/

namespace HtmlMinifier

namespace Text

theorem exists_line_append (s : Text) :
    ∃ k e, s = k ++ e ∧ '\n' ∉ k ∧ (e = [] ∨ ∃ r, e = '\n' :: r) := by
  by_cases h : '\n' ∈ s
  · obtain ⟨k, r, rfl, hk⟩ := List.eq_append_cons_of_mem h
    exact ⟨k, '\n' :: r, rfl, hk, .inr ⟨r, rfl⟩⟩
  · exact ⟨s, [], (List.append_nil s).symm, h, .inl rfl⟩

theorem trimmedLines_line_append {k e : Text}
    (he : e = [] ∨ ∃ r, e = '\n' :: r) :
    trimmedLines (k ++ e) = trimmedLines k ++ trimmedLines e := by
  rcases he with rfl | ⟨r, rfl⟩
  · rw [trimmedLines_nil, List.append_nil, List.append_nil]
  · rw [trimmedLines_append, trimmedLines_blank_cons (by decide)]

theorem trimmedLines_blanks_line {R k e : Text} {c : Char} (hR : AllBlank R)
    (hc : isBlank c = false) (hk : '\n' ∉ k)
    (he : e = [] ∨ ∃ r, e = '\n' :: r) :
    trimmedLines (R ++ c :: (k ++ e)) =
      (c :: Text.trimEnd k) :: trimmedLines e := by
  rw [trimmedLines_blanks_append hR, ← List.cons_append,
    trimmedLines_line_append he, trimmedLines_cons_of_not_mem hc hk]
  rfl

end Text

namespace Script

open Text

/-- Whether a line starts with two slashes. -/
def isComment (line : Text) : Bool := ['/', '/'].isPrefixOf line

theorem isComment_iff {line : Text} :
    isComment line = true ↔ ['/', '/'] <+: line :=
  List.isPrefixOf_iff_prefix

/-- Whether a text starts with two slashes is seen before its first blank. -/
theorem slashes_prefix_append {u e : Text} (he : ∀ c ∈ e.head?, isBlank c = true)
    (h : ['/', '/'] <+: u ++ e) : ['/', '/'] <+: u := by
  cases e with
  | nil =>
      rw [List.append_nil] at h
      exact h
  | cons c e =>
      refine prefix_of_prefix_append (c := c) ?_ h
      rintro hm
      have hc := he c rfl
      rw [List.mem_pair, or_self] at hm
      rw [hm] at hc
      cases hc

theorem slashes_prefix_trimEnd {k : Text} {c : Char} :
    ['/', '/'] <+: c :: k.trimEnd ↔ ['/', '/'] <+: c :: k := by
  have hk := k.trimEnd_append_blanks
  constructor
  · intro h
    rw [← hk]
    exact h.trans (List.prefix_append (c :: k.trimEnd) _)
  · intro h
    rw [← hk] at h
    refine slashes_prefix_append (u := c :: k.trimEnd) (fun x hx => ?_) h
    exact isBlank_of_mem_leadingBlanks
      (List.mem_reverse.1 (List.mem_of_mem_head? hx))

/-- What is left of the text that is left of a search for comment lines. -/
def uncommented (b : Bool) (s : Text) : Text :=
  commentLine.replaceFrom (fun _ => []) b s

/-! ## The search, one line at a time -/

theorem firstLine_append {k e : Text} (hk : '\n' ∉ k)
    (he : e = [] ∨ ∃ r, e = '\n' :: r) : firstLine (k ++ e) = k := by
  rw [firstLine, List.takeWhile_append_of_pos (bne_newline_of_not_mem hk)]
  rcases he with rfl | ⟨r, rfl⟩
  · rw [List.takeWhile_nil, List.append_nil]
  · rw [List.takeWhile_cons, if_neg (by simp), List.append_nil]

theorem read?_commentLine_false (s : Text) :
    commentLine.read? false s = none := rfl

theorem read?_commentLine_slashes {R t : Text} (hR : AllBlank R) :
    commentLine.read? true (R ++ '/' :: '/' :: t) =
      some ⟨R ++ ['/', '/'], firstLine t, []⟩ := by
  simp only [commentLine]
  rw [trimStart_append_cons hR (by decide),
    leadingBlanks_append_cons hR (by decide)]
  rfl

theorem read?_commentLine_eq_none {b : Bool} {R s : Text} (hR : AllBlank R)
    (hslash : ¬ ['/', '/'] <+: s.trimStart) : commentLine.read? b (R ++ s) = none := by
  simp only [commentLine]
  rw [trimStart_append hR]
  split
  · split
    · next t hs =>
        rw [hs] at hslash
        exact absurd ⟨t, rfl⟩ hslash
    · rfl
  · rfl

theorem uncommented_newline (r : Text) :
    uncommented false ('\n' :: r) = '\n' :: uncommented true r :=
  Pattern.replaceFrom_plain (read?_commentLine_false _)

theorem uncommented_append {k e : Text} (hk : '\n' ∉ k) :
    uncommented false (k ++ e) = k ++ uncommented false e := by
  rw [uncommented, Pattern.replaceFrom_append, lineStartAfter_of_not_mem hk]
  · rfl
  · intro u c v hu
    have : '\n' ∉ u := fun hm => hk (by rw [← hu]; simp [hm])
    rw [lineStartAfter_of_not_mem this]
    exact read?_commentLine_false _

/-- A line that is not a comment, with the blanks before it. -/
theorem uncommented_code {R k e : Text} {c : Char} (hR : AllBlank R)
    (hc : isBlank c = false) (hk : '\n' ∉ k)
    (hslash : ¬ ['/', '/'] <+: c :: (k ++ e)) :
    uncommented true (R ++ c :: (k ++ e)) =
      R ++ c :: (k ++ uncommented false e) := by
  have hread : ∀ b v, AllBlank v →
      commentLine.read? b (v ++ c :: (k ++ e)) = none :=
    fun b v hv => read?_commentLine_eq_none hv (by rwa [trimStart_cons hc])
  rw [uncommented, Pattern.replaceFrom_append_of_suffix,
    Pattern.replaceFrom_plain (hread _ [] allBlank_nil), beq_newline hc,
    ← uncommented, uncommented_append hk]
  exact fun b d v hv => hread b (d :: v) (hR.suffix hv)

/-- A comment, with the blanks before it. -/
theorem uncommented_comment {R k e : Text} (hR : AllBlank R) (hk : '\n' ∉ k)
    (he : e = [] ∨ ∃ r, e = '\n' :: r) :
    uncommented true (R ++ '/' :: '/' :: (k ++ e)) = uncommented false e := by
  have hread := read?_commentLine_slashes (t := k ++ e) hR
  rw [firstLine_append hk he] at hread
  rw [uncommented, Pattern.replaceFrom_hit_eq (t := R ++ '/' :: '/' :: k)
      (r := e) (by simp) (by simp [Occurrence.text]) hread,
    List.nil_append, lineStartAfter_append, lineStartAfter_cons,
    lineStartAfter_cons, beq_newline (by decide),
    lineStartAfter_of_not_mem hk]
  rfl

theorem uncommented_blanks {R : Text} (hR : AllBlank R) :
    uncommented true R = R := by
  refine Pattern.replaceFrom_of_none fun b t ht => ?_
  rw [← List.append_nil t]
  exact read?_commentLine_eq_none (hR.suffix ht) (by simp [Text.trimStart])

/-! ## The lines that are left -/

theorem trimmedLines_uncommented (s : Text) :
    trimmedLines (uncommented true s) =
      (trimmedLines s).filter fun line => !isComment line := by
  induction hn : s.length using Nat.strongRecOn generalizing s with
  | ind n ih =>
      rcases allBlank_or_exists s with h | ⟨R, c, t, rfl, hR, hc⟩
      · rw [uncommented_blanks h, trimmedLines_of_allBlank h]
        rfl
      · obtain ⟨k, e, rfl, hk, he⟩ := exists_line_append t
        simp only [List.length_append, List.length_cons] at hn
        have hrest : trimmedLines (uncommented false e) =
            (trimmedLines e).filter fun line => !isComment line := by
          rcases he with rfl | ⟨r, rfl⟩
          · rfl
          · rw [uncommented_newline, trimmedLines_blank_cons (by decide),
              trimmedLines_blank_cons (by decide)]
            rw [List.length_cons] at hn
            exact ih r.length (by omega) r rfl
        have hblank : ∀ x ∈ e.head?, isBlank x = true := by
          rcases he with rfl | ⟨r, rfl⟩ <;> simp [isBlank]
        rw [trimmedLines_blanks_line hR hc hk he]
        by_cases hslash : ['/', '/'] <+: c :: k
        · rw [List.filter_cons_of_neg (by
            rw [isComment_iff.2 (slashes_prefix_trimEnd.2 hslash)]
            simp)]
          obtain ⟨rfl, u, rfl⟩ := List.cons_prefix_cons.1 hslash
          rw [← hrest]
          exact congrArg trimmedLines (uncommented_comment hR
            (List.not_mem_of_not_mem_cons hk) he)
        · rw [List.filter_cons_of_pos, ← hrest, uncommented_code hR hc hk
              fun h => hslash (slashes_prefix_append (u := c :: k) hblank h),
            trimmedLines_blanks_line hR hc hk]
          · rcases he with rfl | ⟨r, rfl⟩
            · exact .inl rfl
            · exact .inr ⟨_, uncommented_newline r⟩
          · rw [Bool.not_eq_true', Bool.eq_false_iff]
            exact fun h => hslash (slashes_prefix_trimEnd.1 (isComment_iff.1 h))

theorem trimmedLines_deleteCommentLines (s : Text) :
    trimmedLines (deleteCommentLines s) =
      (trimmedLines s).filter fun line => !isComment line :=
  trimmedLines_uncommented s

/-- Once block comments are gone, a script keeps its lines but for comments. -/
theorem trimmedLines_structured (s : Text) :
    trimmedLines (structured s) =
      (trimmedLines (deleteBlockComments s)).filter fun line => !isComment line := by
  rw [structured, trimmedLines_trim, trimmedLines_squeezeLineFeeds,
    trimmedLines_deleteCommentLines]

end Script

namespace Document

open Text

/-! ## A script in a document -/

/-- What the passes of a script and of the document leave of a gap. -/
theorem layoutRule_squeezeRule (l r : Option Char) (R : Text) :
    layoutRule l (endRule l (squeezeRule l R r) r) r =
      tagRule l (breakRule l R r) r := by
  by_cases ht : l = some '>' ∧ r = some '<'
  · obtain ⟨rfl, rfl⟩ := ht
    rw [layoutRule_tags, tagRule, if_pos ⟨rfl, rfl⟩]
  · simp only [layoutRule, thenGap, tagRule, if_neg ht]
    by_cases hend : l = none ∨ r = none
    · rw [lineRule_end hend, breakRule_end hend]
    · rw [endRule, if_neg hend, lineRule_squeezeRule]

theorem mapGaps_layoutRule_structured (s : Text) :
    mapGaps layoutRule none none (Script.structured s) =
      mapGaps tagRule none none (['\n'].intercalate
        (trimmedLines (Script.deleteCommentLines
          (Script.deleteBlockComments s)))) := by
  rw [Script.structured, trim_eq_mapGaps,
    squeezeLineFeeds_eq_mapGaps _ (l := none) (r := none),
    mapGaps_mapGaps keepsBlank_squeezeRule,
    mapGaps_mapGaps (keepsBlank_squeezeRule.thenGap keepsBlank_endRule),
    intercalate_trimmedLines, mapGaps_mapGaps keepsBlank_breakRule]
  exact mapGaps_congr (fun l R r _ => layoutRule_squeezeRule l r R) _

/-- A script, as a document of its own. -/
theorem minify_structured_script {A s : Text} (hlt : '<' ∉ A) (hgt : '>' ∉ A)
    (hcomment : ¬ Comment.opener <:+: s)
    (hstyle : ¬ '<' :: Element.style.name <:+: s.map foldCase)
    (hclose : ¬ '<' :: '/' :: Element.script.name <:+: s.map foldCase) :
    minify .structured ('<' :: Element.script.name ++ ' ' :: A ++ '>' :: s ++
        Element.script.closingTag) =
      Element.script.wrap (mapGaps tagRule none none (['\n'].intercalate
        ((trimmedLines (Script.deleteBlockComments s)).filter
          fun line => !Script.isComment line))) := by
  have htag : '<' ∉ Element.script.name ++ (' ' :: A ++ ['>']) := by
    simp [Element.name, hlt]
  have hfolded := not_mem_map_foldCase htag
  -- The document from one `<` to the next.
  have htext : '<' :: Element.script.name ++ ' ' :: A ++ '>' :: s ++
      Element.script.closingTag = '<' ::
        (Element.script.name ++ (' ' :: A ++ ['>']) ++
          (s ++ Element.script.closingTag)) := by simp
  have hcomment' : ¬ Comment.opener <:+: '<' ::
      (Element.script.name ++ (' ' :: A ++ ['>']) ++
        (s ++ Element.script.closingTag)) := by
    refine not_infix_cons_append htag (by simp [Element.name]) ?_
    exact not_infix_append_cons (by decide) hcomment (by decide)
  have hstyle' : ¬ '<' :: Element.style.name <:+: List.map foldCase ('<' ::
      (Element.script.name ++ (' ' :: A ++ ['>']) ++
        (s ++ Element.script.closingTag))) := by
    simp only [List.map_append, Element.map_foldCase_name] at hfolded
    simp only [List.map_cons, List.map_append, foldCase_eq_lt_iff.2,
      Element.map_foldCase_name, Element.map_foldCase_closingTag]
    refine not_infix_cons_append hfolded (by simp [Element.name]) ?_
    exact not_infix_append_cons (by decide) hstyle (by decide)
  rw [minify_structured_eq, htext, dropMark_of_head? (by simp [byteOrderMark]),
    Comment.deleteUnconditional_of_absent hcomment',
    Element.mapContent_of_absent hstyle',
    Element.mapContent_document (by simpa using hgt) hclose,
    layout_eq_mapGaps, Element.mapGaps_wrap layoutRule_nil, Script.structured,
    mapGaps_trim layoutRule_nil _ _ _ none none, ← Script.structured,
    mapGaps_layoutRule_structured, Script.trimmedLines_deleteCommentLines]

theorem minify_structured_script_mixed :
    minify .structured ('<' :: Element.script.name ++ ' ' :: "src='a'".toList ++
        '>' :: "\r\n /* x\n */ f('<a>\n <b>');\u00A0\n\n// y\n\n  g(); // z".toList ++
        Element.script.closingTag) =
      "<script>f('<a><b>');\ng(); // z</script>".toList :=
  Eq.trans (minify_structured_script (by decide +kernel) (by decide +kernel)
    (by decide +kernel) (by decide +kernel) (by decide +kernel))
    (by decide +kernel)

end Document

end HtmlMinifier
