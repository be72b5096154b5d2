import HtmlMinifier.Proofs.AggressiveContent
import HtmlMinifier.Proofs.CommentScan
import HtmlMinifier.Proofs.ElementSearch

/-!
# Documents made of style and script elements

Of a document that is nothing but elements, one after another, every pass of
the aggressive profile makes such a document again: a search for elements
treats the content of those it looks for, and a rule on gaps works in the
attributes and in the content of each. So a pass over the document is a pass
over the list of its elements, and the whole profile is one function on
elements.

What that function does to the content is the subject of the module on content
treated before. Attributes are flattened and then lost with the rest of the
opening tag.
-/

namespace HtmlMinifier

open Text

/-- An element as a document may write it, its name in any letters, with no
tag inside its content. -/
structure Block where
  element : Element
  openingName : Text
  attributes : Text
  content : Text
  closingName : Text
  openingName_folds : openingName.map foldCase = element.name
  closingName_folds : closingName.map foldCase = element.name
  lt_not_mem_attributes : '<' ∉ attributes
  gt_not_mem_attributes : '>' ∉ attributes
  lt_not_mem_content : '<' ∉ content

namespace Block

variable {b : Block} {e : Element} {s : Text}

def closer (b : Block) : Text := '<' :: '/' :: b.closingName ++ ['>']

/-- The element as it is written. -/
def text (b : Block) : Text :=
  '<' :: b.openingName ++ (b.attributes ++ '>' :: (b.content ++ b.closer))

theorem opener_folds (b : Block) :
    List.map foldCase ('<' :: b.openingName) = '<' :: b.element.name := by
  rw [List.map_cons, b.openingName_folds, foldCase_eq_lt_iff.2 rfl]

theorem closer_folds (b : Block) :
    b.closer.map foldCase = b.element.closingTag := by
  simp only [closer, List.map_append, List.map_cons, List.map_nil,
    b.closingName_folds]
  rfl

theorem text_append (b : Block) (s : Text) :
    b.text ++ s = '<' :: b.openingName ++
      (b.attributes ++ '>' :: (b.content ++ (b.closer ++ s))) := by
  simp [text]

/-! ## Searching for elements -/

/-- The element with bare tags. -/
def bare (e : Element) (c : Text) (hc : '<' ∉ c) : Block where
  element := e
  openingName := e.name
  attributes := []
  content := c
  closingName := e.name
  openingName_folds := e.map_foldCase_name
  closingName_folds := e.map_foldCase_name
  lt_not_mem_attributes := List.not_mem_nil
  gt_not_mem_attributes := List.not_mem_nil
  lt_not_mem_content := hc

theorem text_bare (e : Element) (c : Text) (hc : '<' ∉ c) :
    (bare e c hc).text = e.wrap c := by
  simp [text, closer, bare, Element.wrap, Element.openingTag,
    Element.closingTag]

/-- What treating the content of the elements `e` makes of an element. -/
def treat (e : Element) (f : Text → Text) (hf : ∀ s, '<' ∉ s → '<' ∉ f s)
    (b : Block) : Block :=
  if b.element = e then bare e (f b.content) (hf _ b.lt_not_mem_content) else b

theorem lt_not_mem_opener (b : Block) :
    '<' ∉ b.openingName ++ (b.attributes ++ ['>']) := by
  simp only [List.mem_append, List.mem_singleton, not_or]
  exact ⟨Element.lt_not_mem_of_folds b.openingName_folds, b.lt_not_mem_attributes,
    by decide⟩

theorem lt_not_mem_closer (b : Block) :
    '<' ∉ '/' :: b.closingName ++ ['>'] := by
  simp only [List.mem_append, List.mem_cons, List.not_mem_nil, not_or]
  exact ⟨⟨by decide, Element.lt_not_mem_of_folds b.closingName_folds⟩, by decide, id⟩

/-- The element and what follows it, from one `<` to the next. -/
theorem text_append_eq (b : Block) (s : Text) :
    b.text ++ s = '<' :: (b.openingName ++ (b.attributes ++ ['>']) ++
      (b.content ++ '<' :: ('/' :: b.closingName ++ ['>'] ++ s))) := by
  simp [text, closer]

theorem treat_of_eq {f : Text → Text} {hf : ∀ s, '<' ∉ s → '<' ∉ f s}
    (h : b.element = e) :
    b.treat e f hf = bare e (f b.content) (hf _ b.lt_not_mem_content) :=
  if_pos h

theorem element_treat {f : Text → Text} {hf : ∀ s, '<' ∉ s → '<' ∉ f s}
    (b : Block) : (b.treat e f hf).element = b.element := by
  rw [treat]
  split
  · next h => exact h.symm
  · rfl

theorem treat_of_ne {f : Text → Text} {hf : ∀ s, '<' ∉ s → '<' ∉ f s}
    (h : b.element ≠ e) : b.treat e f hf = b :=
  if_neg h

theorem not_name_prefix_slash (s : Text) :
    ¬ e.name <+: List.map foldCase ('/' :: s) := by
  intro h
  rw [List.map_cons] at h
  cases e with
  | style => exact absurd (List.cons_prefix_cons.1 h).1 (by decide)
  | script => exact absurd (List.cons_prefix_cons.1 h).1 (by decide)

variable {f : Text → Text}

theorem mapContent_text_append (hf : ∀ s, '<' ∉ s → '<' ∉ f s) (b : Block)
    (s : Text) :
    e.mapContent f (b.text ++ s) =
      (b.treat e f hf).text ++ e.mapContent f s := by
  by_cases h : b.element = e
  · rw [treat_of_eq h, text_bare, text_append]
    subst h
    exact Element.mapContent_element b.opener_folds b.gt_not_mem_attributes
      (not_infix_of_not_mem (not_mem_map_foldCase b.lt_not_mem_content))
      b.closer_folds
  · have hother : ∀ t, ¬ e.name <+: b.element.name ++ t := by
      intro t
      cases hb : b.element <;> cases he : e <;> simp_all [Element.name]
    rw [treat_of_ne h, text_append_eq, text_append_eq,
      Element.mapContent_tag_append b.lt_not_mem_opener,
      Element.mapContent_append b.lt_not_mem_content,
      Element.mapContent_tag_append b.lt_not_mem_closer]
    · exact not_name_prefix_slash _
    · rw [List.append_assoc, List.map_append, b.openingName_folds]
      exact hother _

theorem mapContent_flatMap_text (hf : ∀ s, '<' ∉ s → '<' ∉ f s)
    (bs : List Block) :
    e.mapContent f (bs.flatMap text) =
      (bs.map (treat e f hf)).flatMap text := by
  induction bs with
  | nil => rfl
  | cons b bs ih =>
      rw [List.flatMap_cons, mapContent_text_append hf, ih]
      rfl

/-! ## Gaps, ends and comments -/

/-- What a rule on gaps makes of an element. -/
def regap (g : GapRule) (hg : KeepsBlank g) (b : Block) : Block where
  element := b.element
  openingName := b.openingName
  attributes :=
    mapGaps g (List.getLast? ('<' :: b.openingName)) (some '>') b.attributes
  content := mapGaps g (some '>') (some '<') b.content
  closingName := b.closingName
  openingName_folds := b.openingName_folds
  closingName_folds := b.closingName_folds
  lt_not_mem_attributes := fun h =>
    b.lt_not_mem_attributes (mem_of_mem_mapGaps hg (by decide) _ h)
  gt_not_mem_attributes := fun h =>
    b.gt_not_mem_attributes (mem_of_mem_mapGaps hg (by decide) _ h)
  lt_not_mem_content := fun h =>
    b.lt_not_mem_content (mem_of_mem_mapGaps hg (by decide) _ h)

theorem getLast?_closer (b : Block) : b.closer.getLast? = some '>' := by
  rw [closer, List.getLast?_append]
  rfl

theorem mapGaps_text_append {g : GapRule} (hg : KeepsBlank g)
    (hnil : ∀ l r, g l [] r = []) (b : Block) (l r : Option Char) (s : Text) :
    mapGaps g l r (b.text ++ s) =
      (b.regap g hg).text ++ mapGaps g (some '>') r s := by
  rw [text_append, text_append, Element.mapGaps_element hnil b.opener_folds
    b.closer_folds, getLast?_closer]
  rfl

theorem mapGaps_flatMap_text {g : GapRule} (hg : KeepsBlank g)
    (hnil : ∀ l r, g l [] r = []) (bs : List Block) : ∀ {l r : Option Char},
    mapGaps g l r (bs.flatMap text) = (bs.map (regap g hg)).flatMap text := by
  induction bs with
  | nil => intro l r; exact hnil l r
  | cons b bs ih =>
      intro l r
      rw [List.flatMap_cons, mapGaps_text_append hg hnil, ih]
      rfl

theorem flatMap_text_cases (bs : List Block) :
    bs.flatMap text = [] ∨ ∃ m, bs.flatMap text = '<' :: (m ++ ['>']) := by
  induction bs with
  | nil => exact .inl rfl
  | cons b bs ih =>
      refine .inr ?_
      rw [List.flatMap_cons, text_append_eq]
      rcases ih with h | ⟨m, h⟩
      · rw [h]
        exact ⟨b.openingName ++ (b.attributes ++ ['>']) ++
          (b.content ++ '<' :: '/' :: b.closingName), by simp⟩
      · rw [h]
        exact ⟨b.openingName ++ (b.attributes ++ ['>']) ++
          (b.content ++ '<' :: ('/' :: b.closingName ++ ['>'] ++ '<' :: m)),
          by simp⟩

theorem trim_flatMap_text (bs : List Block) :
    Text.trim (bs.flatMap text) = bs.flatMap text := by
  rcases flatMap_text_cases bs with h | ⟨m, h⟩
  · rw [h]
    rfl
  · rw [h, trim_cons (c := '<') (by decide), trimEnd_append_cons (by decide)]
    rfl

theorem dropMark_flatMap_text (bs : List Block) :
    Document.dropMark (bs.flatMap text) = bs.flatMap text := by
  rcases flatMap_text_cases bs with h | ⟨m, h⟩
  · rw [h]
    rfl
  · rw [h, Document.dropMark, if_neg (by decide)]

/-- No comment starts in a tag, and none in a content. -/
theorem commentOpener_not_infix (bs : List Block) :
    ¬ Comment.opener <:+: bs.flatMap text := by
  induction bs with
  | nil => simp [Comment.opener]
  | cons b bs ih =>
      rw [List.flatMap_cons, text_append_eq]
      refine not_infix_cons_append b.lt_not_mem_opener ?_
        (not_infix_append_of_not_mem b.lt_not_mem_content
          (not_infix_cons_append b.lt_not_mem_closer ?_ ih))
      · intro h
        have hfold := h.map foldCase
        rw [List.append_assoc, List.map_append, b.openingName_folds] at hfold
        cases hb : b.element <;> rw [hb] at hfold <;>
          exact absurd (List.cons_prefix_cons.1 hfold).1 (by decide)
      · intro h
        exact absurd (List.cons_prefix_cons.1 h).1 (by decide)

end Block

/-- The aggressive rules for the content of an element. -/
def Element.aggressive : Element → Text → Text
  | .style => Stylesheet.aggressive
  | .script => Script.aggressive

namespace Document

/-- An element as it is when the first of the two last searches meets it. -/
def prepared (b : Block) : Block :=
  ((b.treat .script _ Script.lt_not_mem_deleteLineComments).regap flatRule
    keepsBlank_flatRule).regap tagRule keepsBlank_tagRule

theorem element_prepared (b : Block) : (prepared b).element = b.element :=
  b.element_treat

theorem content_prepared (b : Block) :
    (prepared b).content = mapGaps tagRule (some '>') (some '<')
      (Text.flattenBlanks (b.treat .script _
        Script.lt_not_mem_deleteLineComments).content) :=
  congrArg (mapGaps tagRule (some '>') (some '<'))
    (mapGaps_flatRule (some '>') (some '<') _)

/-- The rules for an element undo what happened to its content before. -/
theorem aggressive_prepared (b : Block) :
    b.element.aggressive (prepared b).content =
      b.element.aggressive b.content := by
  rw [content_prepared]
  cases hb : b.element with
  | style =>
      rw [Block.treat_of_ne (by rw [hb]; decide)]
      exact Stylesheet.aggressive_treated b.lt_not_mem_content _ _
  | script =>
      rw [Block.treat_of_eq hb]
      exact Script.aggressive_treated b.lt_not_mem_content _ _

/-- What the passes make of one element. -/
def minified (b : Block) : Block :=
  ((prepared b).treat .style _ Stylesheet.lt_not_mem_aggressive).treat .script _
    Script.lt_not_mem_aggressive

theorem text_minified (b : Block) :
    (minified b).text = b.element.wrap (b.element.aggressive b.content) := by
  have helement := element_prepared b
  rw [← aggressive_prepared, minified]
  cases hb : b.element with
  | style =>
      rw [hb] at helement
      rw [Block.treat_of_eq helement, Block.treat_of_ne (by simp [Block.bare]),
        Block.text_bare]
      rfl
  | script =>
      rw [hb] at helement
      rw [Block.treat_of_ne (b := prepared b) (by rw [helement]; decide),
        Block.treat_of_eq helement, Block.text_bare]
      rfl

/-- A document of style and script elements is minified element by element,
each by the rules for its own content. -/
theorem minify_aggressive_blocks (bs : List Block) :
    minify .aggressive (bs.flatMap Block.text) =
      bs.flatMap fun b => b.element.wrap (b.element.aggressive b.content) := by
  rw [minify_aggressive_eq, Block.dropMark_flatMap_text,
    Comment.deleteAll_of_absent (Block.commentOpener_not_infix bs),
    Block.mapContent_flatMap_text Script.lt_not_mem_deleteLineComments,
    flattenBlanks_eq_mapGaps,
    Block.mapGaps_flatMap_text keepsBlank_flatRule flatRule_nil,
    closeTagGaps_eq_mapGaps,
    Block.mapGaps_flatMap_text keepsBlank_tagRule tagRule_nil,
    Block.trim_flatMap_text,
    Block.mapContent_flatMap_text Stylesheet.lt_not_mem_aggressive,
    Block.mapContent_flatMap_text Script.lt_not_mem_aggressive]
  simp only [List.flatMap_map]
  exact congrArg (bs.flatMap ·) (funext text_minified)

theorem minify_aggressive_unclosed :
    minify .aggressive ("<STYLE a=b>p \x7b c : d ; \x7d\n /* e</Style>".toList ++
        "<script>f(); // g\n h() > \t</script>".toList) =
      "<style>p\x7bc:d\x7d/* e</style><script>f(); h() ></script>".toList :=
  have h := minify_aggressive_blocks
    [⟨.style, "STYLE".toList, " a=b".toList,
        "p \x7b c : d ; \x7d\n /* e".toList, "Style".toList,
        by decide +kernel, by decide +kernel, by decide, by decide, by decide⟩,
      ⟨.script, "script".toList, [], "f(); // g\n h() > \t".toList,
        "script".toList, by decide +kernel, by decide +kernel, by decide,
        by decide, by decide⟩]
  h.trans (by decide +kernel)

end Document

end HtmlMinifier
