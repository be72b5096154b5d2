import HtmlMinifier.Proofs.AggressiveContent
import HtmlMinifier.Proofs.StructuredLayout

/-!
# Plain markup

Markup in which no comment, style sheet or script starts is all gaps and words,
and of such markup the profiles change the gaps only. Their first passes find
nothing to do. That is also true of the last passes of the aggressive profile,
which look for elements once more after gaps were closed: closing a gap brings
nothing together but `>` and `<`, and no tag has that inside
(`tag_infix_of_mapGaps`).

So either profile is one rule on gaps. The aggressive one leaves the words of the
markup in a row with a space between two of them, or nothing between tags
(`joinWords`). The structured one leaves a gap as it is if it has no line feed and
does not stand at an end of the markup or between tags.
-/

namespace HtmlMinifier

namespace Text

/-! ## Words -/

/-- The words of a text: what stands between its blanks. -/
def words (s : Text) : List Text := (s.splitOnP isBlank).filter fun w => !w.isEmpty

/-- The words in a row, with a space between two of them unless the first ends
with `>` and the second starts with `<`. -/
def joinWords : List Text → Text
  | [] => []
  | [w] => w
  | w :: v :: ws =>
    w ++ (if w.getLast? = some '>' ∧ v.head? = some '<' then [] else [' ']) ++
      joinWords (v :: ws)

theorem words_blank_cons {c : Char} (hc : isBlank c = true) (s : Text) :
    words (c :: s) = words s := by
  rw [words, List.splitOnP_cons_eq_if_modifyHead, if_pos hc,
    List.filter_cons_of_neg (by simp)]
  rfl

theorem words_blanks_append {R : Text} (hR : AllBlank R) (s : Text) :
    words (R ++ s) = words s := by
  induction R with
  | nil => rfl
  | cons c R ih =>
      obtain ⟨hc, hR⟩ := allBlank_cons.1 hR
      rw [List.cons_append, words_blank_cons hc, ih hR]

theorem words_of_allBlank {R : Text} (hR : AllBlank R) : words R = [] := by
  have h := words_blanks_append hR []
  rw [List.append_nil] at h
  exact h

/-- A character with blanks behind it ends a word. -/
theorem words_cons_blanks {c : Char} {R : Text} (hc : isBlank c = false)
    (hR : AllBlank R) (hne : R ≠ []) (s : Text) :
    words (c :: (R ++ s)) = [c] :: words s := by
  cases R with
  | nil => exact absurd rfl hne
  | cons d R =>
      obtain ⟨hd, hR⟩ := allBlank_cons.1 hR
      rw [← words_blanks_append hR s, words, List.cons_append,
        List.splitOnP_cons_eq_if_modifyHead, if_neg (by simp [hc]),
        List.splitOnP_cons_eq_if_modifyHead, if_pos hd, List.modifyHead_cons,
        List.filter_cons_of_pos (by simp)]
      rfl

theorem words_cons_of_allBlank {c : Char} {R : Text} (hc : isBlank c = false)
    (hR : AllBlank R) : words (c :: R) = [[c]] := by
  by_cases h : R = []
  · rw [h, words, List.splitOnP_cons_eq_if_modifyHead, if_neg (by simp [hc])]
    rfl
  · have hw := words_cons_blanks hc hR h []
    rw [List.append_nil] at hw
    exact hw

/-- The first word of a text that starts with a character that is not blank, and
the same word when one more such character stands before it. -/
theorem exists_words_cons {d : Char} (hd : isBlank d = false) (s : Text) :
    ∃ w ws, words (d :: s) = (d :: w) :: ws ∧
      ∀ c, isBlank c = false → words (c :: d :: s) = (c :: d :: w) :: ws := by
  obtain ⟨w, rest, hw⟩ := List.exists_cons_of_ne_nil (List.splitOnP_ne_nil isBlank s)
  have hsplit : (d :: s).splitOnP isBlank = (d :: w) :: rest := by
    rw [List.splitOnP_cons_eq_if_modifyHead, if_neg (by simp [hd]), hw,
      List.modifyHead_cons]
  refine ⟨w, rest.filter fun w => !w.isEmpty, ?_, fun c hc => ?_⟩
  · rw [words, hsplit, List.filter_cons_of_pos (by simp)]
  · rw [words, List.splitOnP_cons_eq_if_modifyHead, if_neg (by simp [hc]), hsplit,
      List.modifyHead_cons, List.filter_cons_of_pos (by simp)]

theorem joinWords_cons_cons (c d : Char) (w : Text) (ws : List Text) :
    joinWords ((c :: d :: w) :: ws) = c :: joinWords ((d :: w) :: ws) := by
  cases ws with
  | nil => rfl
  | cons v ws =>
      rw [joinWords, joinWords, List.getLast?_cons_cons]
      rfl

/-! ## Words and gaps -/

/-- What flattening, closing the gaps between tags and trimming leave of a gap. -/
def wordRule : GapRule := thenGap flatRule (thenGap tagRule endRule)

theorem keepsBlank_wordRule : KeepsBlank wordRule :=
  keepsBlank_flatRule.thenGap (keepsBlank_tagRule.thenGap keepsBlank_endRule)

theorem wordRule_end {l r : Option Char} {R : Text} (h : l = none ∨ r = none) :
    wordRule l R r = [] :=
  if_pos h

theorem wordRule_nil (l r : Option Char) : wordRule l [] r = [] := by
  rw [wordRule, thenGap, thenGap, flatRule_nil, tagRule_nil, endRule]
  split <;> rfl

theorem wordRule_inner {a b : Char} {R : Text} (h : R ≠ []) :
    wordRule (some a) R (some b) = if a = '>' ∧ b = '<' then [] else [' '] := by
  rw [wordRule, thenGap, thenGap, flatRule_of_ne_nil h, endRule, if_neg (by simp),
    tagRule]
  simp only [Option.some.injEq]

theorem joinWords_words_cons (s : Text) : ∀ {c : Char}, isBlank c = false →
    joinWords (words (c :: s)) = c :: mapGaps wordRule (some c) none s := by
  induction s using gap_induction with
  | blanks R hR =>
      intro c hc
      rw [words_cons_of_allBlank hc hR, mapGaps_blanks hR, wordRule_end (.inr rfl)]
      rfl
  | cons R d s hR hd ih =>
      intro c hc
      obtain ⟨w, ws, hw, hcw⟩ := exists_words_cons hd s
      have hrest := ih hd
      rw [hw] at hrest
      rw [mapGaps_gap hR hd, ← hrest]
      by_cases h : R = []
      · rw [h, List.nil_append, hcw c hc, joinWords_cons_cons, wordRule_nil]
        rfl
      · rw [words_cons_blanks hc hR h, hw, wordRule_inner h, joinWords]
        simp

theorem joinWords_words (s : Text) :
    joinWords (words s) = mapGaps wordRule none none s := by
  rcases allBlank_or_exists s with h | ⟨R, c, t, rfl, hR, hc⟩
  · rw [words_of_allBlank h, mapGaps_blanks h, wordRule_end (.inl rfl)]
    rfl
  · rw [words_blanks_append hR, joinWords_words_cons t hc, mapGaps_gap hR hc,
      wordRule_end (.inl rfl)]
    rfl

/-! ## Tags and gaps -/

/-- A stretch that a rule leaves was there before, if the rule empties no gap
before a character of it. -/
theorem prefix_of_mapGaps {f : GapRule} (hf : KeepsBlank f) {w : Text}
    (hw : Unbroken w) (hjoin : ∀ a R, ∀ b ∈ w, f (some a) R (some b) = [] → R = []) :
    ∀ {a : Char} {s : Text}, w <+: mapGaps f (some a) none s → w <+: s := by
  induction w with
  | nil => intro a s _; exact List.nil_prefix
  | cons b w ih =>
      intro a s h
      obtain ⟨hb, hw⟩ := unbroken_cons.1 hw
      obtain ⟨V, hV⟩ := h
      obtain ⟨u, v, rfl, hu, hv⟩ := exists_of_mapGaps_eq (U := []) hf hb s hV.symm
      have hblank : AllBlank u := allBlank_of_mapGaps (hu ▸ allBlank_nil)
      rw [mapGaps_blanks hblank] at hu
      rw [hjoin a u b List.mem_cons_self hu, List.nil_append, List.cons_prefix_cons]
      have hrest : w <+: mapGaps f (some b) none v := hv ▸ List.prefix_append w V
      exact ⟨rfl, ih hw (fun a R c hc => hjoin a R c (List.mem_cons_of_mem b hc)) hrest⟩

/-- No tag comes about where gaps are closed. -/
theorem tag_infix_of_mapGaps {e : Element} {s : Text}
    (h : '<' :: e.name <:+: (mapGaps wordRule none none s).map foldCase) :
    '<' :: e.name <:+: s.map foldCase := by
  obtain ⟨m, ⟨U, V, hm⟩, hname⟩ := List.infix_map_iff.1 h
  cases m with
  | nil => cases hname
  | cons c m =>
      obtain ⟨hc, hm'⟩ := List.cons.inj hname
      obtain rfl := foldCase_eq_lt_iff.1 hc.symm
      have hlt : '<' ∉ m := Element.lt_not_mem_of_folds hm'.symm
      have hword := Element.unbroken_of_map_foldCase hname.symm e.unbroken_tagStart
      rw [List.append_assoc, List.cons_append] at hm
      obtain ⟨u, v, rfl, -, hv⟩ :=
        exists_of_mapGaps_eq keepsBlank_wordRule (by decide) s hm.symm
      have hjoin : ∀ a R, ∀ b ∈ m, wordRule (some a) R (some b) = [] → R = [] := by
        intro a R b hb hnil
        have hb' : ¬ (a = '>' ∧ b = '<') := fun ht => hlt (ht.2 ▸ hb)
        by_contra hne
        rw [wordRule_inner hne, if_neg hb'] at hnil
        cases hnil
      have hpre := prefix_of_mapGaps keepsBlank_wordRule (unbroken_cons.1 hword).2
        hjoin (hv ▸ List.prefix_append m V)
      have hin : '<' :: m <:+: u ++ '<' :: v :=
        (List.cons_prefix_cons.2 ⟨rfl, hpre⟩).isInfix.trans
          (List.suffix_append u _).isInfix
      rw [hname]
      exact hin.map foldCase

end Text

namespace Document

open Text

/-! ## The profiles -/

/-- Markup in which no comment, style sheet or script starts. -/
structure Plain (s : Text) : Prop where
  comment : ¬ Comment.opener <:+: s
  element : ∀ e : Element, ¬ '<' :: e.name <:+: s.map foldCase

theorem dropMark_suffix (s : Text) : dropMark s <:+ s := by
  cases s with
  | nil => exact List.suffix_refl []
  | cons c s =>
      rw [dropMark]
      split
      · exact List.suffix_cons c s
      · exact List.suffix_refl (c :: s)

variable {s : Text}

theorem Plain.dropMark (h : Plain s) : Plain (dropMark s) where
  comment hi := h.comment (hi.trans (dropMark_suffix s).isInfix)
  element e hi := h.element e (hi.trans ((dropMark_suffix s).map foldCase).isInfix)

theorem Plain.minify_structured (h : Plain s) :
    minify .structured s = mapGaps layoutRule none none (Document.dropMark s) := by
  rw [minify_structured_eq, Comment.deleteUnconditional_of_absent h.dropMark.comment,
    Element.mapContent_of_absent (h.dropMark.element .style),
    Element.mapContent_of_absent (h.dropMark.element .script), layout_eq_mapGaps]

theorem Plain.minify_aggressive (h : Plain s) :
    minify .aggressive s = mapGaps wordRule none none (Document.dropMark s) := by
  have hrule : Text.trim (closeTagGaps (Text.flattenBlanks (Document.dropMark s))) =
      mapGaps wordRule none none (Document.dropMark s) := by
    rw [trim_eq_mapGaps, closeTagGaps_eq_mapGaps, flattenBlanks_eq_mapGaps,
      mapGaps_mapGaps keepsBlank_tagRule, mapGaps_mapGaps keepsBlank_flatRule, wordRule]
  have hlater : ∀ e : Element, ¬ '<' :: e.name <:+:
      (mapGaps wordRule none none (Document.dropMark s)).map foldCase :=
    fun e hi => h.dropMark.element e (tag_infix_of_mapGaps hi)
  rw [minify_aggressive_eq, Comment.deleteAll_of_absent h.dropMark.comment,
    Element.mapContent_of_absent (h.dropMark.element .script), hrule,
    Element.mapContent_of_absent (hlater .style),
    Element.mapContent_of_absent (hlater .script)]

theorem Plain.deleteBlanks_minify (h : Plain s) (p : Profile) :
    (minify p s).deleteBlanks = (Document.dropMark s).deleteBlanks := by
  cases p with
  | structured => rw [h.minify_structured, deleteBlanks_mapGaps keepsBlank_layoutRule]
  | aggressive => rw [h.minify_aggressive, deleteBlanks_mapGaps keepsBlank_wordRule]

/-- A gap without a line feed stays in a structured document. -/
theorem Plain.exists_structured_gap (h : Plain s) {a b : Char} {u R v : Text}
    (hs : Document.dropMark s = u ++ a :: (R ++ b :: v)) (hR : AllBlank R)
    (hn : '\n' ∉ R) (ha : isBlank a = false) (hb : isBlank b = false)
    (hab : ¬ (a = '>' ∧ b = '<')) :
    ∃ u' v', minify .structured s = u' ++ a :: (R ++ b :: v') ∧
      Text.deleteBlanks u' = u.deleteBlanks ∧ Text.deleteBlanks v' = v.deleteBlanks := by
  refine ⟨mapGaps layoutRule none (some a) u, mapGaps layoutRule (some b) none v, ?_,
    deleteBlanks_mapGaps keepsBlank_layoutRule u,
    deleteBlanks_mapGaps keepsBlank_layoutRule v⟩
  have hkept : layoutRule (some a) R (some b) = R := by
    rw [layoutRule, thenGap, tagRule, if_neg (by simpa using hab),
      lineRule_of_not_mem hn]
  rw [h.minify_structured, hs, mapGaps_append_cons ha, mapGaps_gap hR hb, hkept]

/-- Plain markup loses nothing but blanks. An aggressive document is its words in
a row, and a structured one has all its gaps without a line feed, but for those
at the two ends and between tags. -/
theorem minify_plain (h : Plain s) :
    (∀ p, (minify p s).deleteBlanks = (dropMark s).deleteBlanks) ∧
      minify .aggressive s = joinWords (words (dropMark s)) ∧
      ∀ (a b : Char) (u R v : Text), dropMark s = u ++ a :: (R ++ b :: v) →
        AllBlank R → '\n' ∉ R → isBlank a = false → isBlank b = false →
        ¬ (a = '>' ∧ b = '<') →
        ∃ u' v', minify .structured s = u' ++ a :: (R ++ b :: v') ∧
          Text.deleteBlanks u' = u.deleteBlanks ∧
          Text.deleteBlanks v' = v.deleteBlanks := by
  refine ⟨h.deleteBlanks_minify, ?_, ?_⟩
  · rw [h.minify_aggressive, joinWords_words]
  · intro a b u R v hs hR hn ha hb hab
    exact h.exists_structured_gap hs hR hn ha hb hab

/-- Two paragraphs behind a byte order mark. -/
theorem minify_plain_paragraphs :
    minify .aggressive "\uFEFF<p>one \t two</p> \n <p>three</p>\n".toList =
        "<p>one two</p><p>three</p>".toList ∧
      ∃ u v, minify .structured "\uFEFF<p>one \t two</p> \n <p>three</p>\n".toList =
        u ++ 'e' :: (" \t ".toList ++ 't' :: v) := by
  have hplain : Plain "\uFEFF<p>one \t two</p> \n <p>three</p>\n".toList :=
    { comment := by decide +kernel
      element := by
        intro e
        cases e <;> decide +kernel }
  obtain ⟨-, hwords, hgap⟩ := minify_plain hplain
  obtain ⟨u, v, huv, -, -⟩ := hgap 'e' 't' "<p>on".toList " \t ".toList
    "wo</p> \n <p>three</p>\n".toList (by decide +kernel) (by decide) (by decide)
    (by decide) (by decide) (by decide)
  exact ⟨hwords.trans (by decide +kernel), u, v, huv⟩

end Document

end HtmlMinifier
