import HtmlMinifier.Proofs.NormalScripts
import HtmlMinifier.Proofs.StructuredLayout
import HtmlMinifier.Proofs.TagWords

/-!
# Elements whose names start like that of a style sheet

An opening tag is known by how it starts, so the tag of an element with a longer name,
say of a style guide, is taken for that of a style sheet, and what follows is content
up to the next closing tag with the short name. The tags between are content, too. All
of it is treated as one style sheet, and the long name is lost with the rest of the
opening tag (`Document.minify_namesake`). The same goes for scripts.

The content that is treated so has tags in it, and a pass over it must neither make a
closing tag of them nor a tag of the other kind. It does not, because it keeps the words
behind `<`. One more rule has to be followed here, the one for gaps between tags: the
two tags have no gap between them, so all the rule finds to do is at the two ends of the
content, which are trimmed in any case.
-/

namespace HtmlMinifier

open Text

/-- The structured rules for the content of an element. -/
def Element.structured : Element → Text → Text
  | .style => Stylesheet.structured
  | .script => Script.structured

/-! ## Blanks around a content -/

/-- Blanks at the start do not matter to a pass that deletes comments and then empties
the first gap. -/
theorem mapGaps_delete_trimStart {f : GapRule} (hf : ∀ R r, f none R r = []) (s : Text) :
    mapGaps f none none (Pattern.blockComment.delete s.trimStart) =
      mapGaps f none none (Pattern.blockComment.delete s) := by
  have hdelete : Pattern.blockComment.delete (s.leadingBlanks ++ s.trimStart) =
      s.leadingBlanks ++ Pattern.blockComment.delete s.trimStart :=
    Pattern.delete_enclosure_blanks unbroken_commentOpener (allBlank_leadingBlanks s)
  rw [leadingBlanks_append_trimStart] at hdelete
  rw [hdelete, mapGaps_blanks_append hf (allBlank_leadingBlanks s)]

namespace Stylesheet

theorem aggressive_trimStart (s : Text) : aggressive s.trimStart = aggressive s := by
  rw [aggressive_eq_mapGaps, aggressive_eq_mapGaps,
    mapGaps_delete_trimStart fun R r => if_pos (.inl rfl)]

theorem aggressive_trim (s : Text) : aggressive s.trim = aggressive s := by
  rw [Text.trim, aggressive_trimStart, aggressive_trimEnd]

/-- In a document the content of a style sheet reaches the aggressive rules flattened,
and with gaps closed that are between tags. If those are at its ends, it does not
matter. -/
theorem aggressive_treated_of_trim {s : Text} {l r : Option Char}
    (h : Text.trim (mapGaps tagRule l r s.flattenBlanks) = s.flattenBlanks.trim) :
    aggressive (mapGaps tagRule l r s.flattenBlanks) = aggressive s := by
  rw [← aggressive_trim, h, aggressive_trim, aggressive_flattenBlanks]

end Stylesheet

namespace Script

theorem finish_trimStart (s : Text) : finish s.trimStart = finish s := by
  rw [finish_eq_mapGaps, finish_eq_mapGaps]
  exact mapGaps_delete_trimStart (fun R r => finishRule_end (.inl rfl)) s

theorem finish_trim (s : Text) : finish s.trim = finish s := by
  rw [Text.trim, finish_trimStart, finish_trimEnd]

theorem aggressive_treated_of_trim {s : Text} {l r : Option Char}
    (h : Text.trim (mapGaps tagRule l r (Text.flattenBlanks (deleteLineComments s))) =
      Text.trim (Text.flattenBlanks (deleteLineComments s))) :
    aggressive (mapGaps tagRule l r (Text.flattenBlanks (deleteLineComments s))) =
      aggressive s := by
  rw [aggressive_eq_finish, deleteLineComments_of_absent (slashes_not_infix_treated s l r),
    ← finish_trim, h, finish_trim, finish_flattenBlanks, ← aggressive_eq_finish]

end Script

/-! ## The document -/

/-- An element whose name goes on where that of a style or script element ends, with an
element of the short name right behind it. -/
structure Namesake where
  element : Element
  suffix : Text
  content : Text
  later : Text
  solid_suffix : Solid suffix
  gt_not_mem_suffix : '>' ∉ suffix
  lt_not_mem_content : '<' ∉ content
  gt_not_mem_content : '>' ∉ content
  lt_not_mem_later : '<' ∉ later

namespace Namesake

variable (n : Namesake) {s : Text}

/-- The long name. -/
def name : Text := n.element.name ++ '-' :: n.suffix

def opener : Text := '<' :: n.name ++ ['>']

def closer : Text := '<' :: '/' :: n.name ++ ['>']

def document : Text := n.opener ++ n.content ++ n.closer ++ n.element.wrap n.later

/-- The two tags between the contents. -/
def seam : Text := n.closer ++ n.element.openingTag

/-- What stands between the first tag and the last. -/
def body : Text := n.content ++ (n.seam ++ n.later)

/-- The document with another body. -/
def around (s : Text) : Text :=
  '<' :: (n.element.name ++ ('-' :: n.suffix ++ ['>']) ++ (s ++ n.element.closingTag))

theorem document_eq : n.document = n.around n.body := by
  simp [document, around, body, seam, opener, closer, name, Element.wrap]

theorem solid_tail : Solid ('-' :: n.suffix ++ ['>']) :=
  Solid.append (List.forall_mem_cons.2 ⟨⟨by decide, by decide⟩, n.solid_suffix⟩)
    (by simp [Solid, isBlank])

/-- The words of the tags in the body. -/
def innerWords : List Text := ['/' :: n.name ++ ['>'], n.element.name ++ ['>']]

/-- The words of all its tags. -/
def words : List Text :=
  [n.name ++ ['>'], '/' :: n.element.name ++ ['>']] ++ n.innerWords

theorem tagWord_of_mem_words : ∀ w ∈ n.words, TagWord n.element w := by
  have hlong : n.name ++ ['>'] = n.element.name ++ ('-' :: n.suffix ++ ['>']) := by
    simp [name]
  have hgt : Solid ['>'] := by simp [Solid, isBlank]
  simp only [words, innerWords, List.cons_append, hlong, List.nil_append, List.forall_mem_cons]
  exact ⟨.opening n.solid_tail, .closing hgt, .closing n.solid_tail, .opening hgt,
    fun _ hw => absurd hw List.not_mem_nil⟩

theorem closer_mem_innerWords : '/' :: n.name ++ ['>'] ∈ n.innerWords := List.mem_cons_self

theorem openingTag_mem_innerWords : n.element.name ++ ['>'] ∈ n.innerWords :=
  List.mem_cons_of_mem _ List.mem_cons_self

theorem innerWords_subset : n.innerWords ⊆ n.words := List.subset_append_right _ _

theorem tagWord_of_mem_innerWords : ∀ w ∈ n.innerWords, TagWord n.element w :=
  fun w hw => n.tagWord_of_mem_words w (n.innerWords_subset hw)

theorem tagged_tag {w : Text} (hw : w ∈ n.words) : Tagged n.words ('<' :: w) :=
  Tagged.tag hw ((n.tagWord_of_mem_words w hw).not_mem (by decide))

theorem tagged_inner_tag {w : Text} (hw : w ∈ n.innerWords) : Tagged n.innerWords ('<' :: w) :=
  Tagged.tag hw ((n.tagWord_of_mem_innerWords w hw).not_mem (by decide))

variable {n}

theorem tagged_wrap (h : Tagged n.innerWords s) : Tagged n.words (n.element.wrap s) := by
  have hopening := n.tagged_tag (n.innerWords_subset n.openingTag_mem_innerWords)
  have hclosing := n.tagged_tag (w := '/' :: n.element.name ++ ['>']) (by simp [words])
  exact (hopening.append (h.mono n.innerWords_subset)).append hclosing

variable (n)

theorem tagged_seam : Tagged n.innerWords n.seam :=
  (n.tagged_inner_tag n.closer_mem_innerWords).append
    (n.tagged_inner_tag n.openingTag_mem_innerWords)

theorem tagged_body : Tagged n.innerWords n.body :=
  (Tagged.of_not_mem n.lt_not_mem_content).append
    (n.tagged_seam.append (Tagged.of_not_mem n.lt_not_mem_later))

theorem tagged_document : Tagged n.words n.document := by
  have hopening := n.tagged_tag (w := n.name ++ ['>']) (by simp [words])
  have hcloser := n.tagged_tag (n.innerWords_subset n.closer_mem_innerWords)
  exact ((hopening.append (Tagged.of_not_mem n.lt_not_mem_content)).append hcloser).append
    (tagged_wrap (Tagged.of_not_mem n.lt_not_mem_later))

/-! ## Searching for elements -/

variable {n} {f : Text → Text} {e : Element}

theorem closingTag_absent (h : Tagged n.innerWords s) :
    ¬ n.element.closingTag <:+: s.map foldCase := by
  refine h.not_infix_map fun w hw t hp => ?_
  simp only [innerWords, List.mem_cons, List.not_mem_nil, or_false] at hw
  rcases hw with rfl | rfl
  · -- Where the short name ends, the long one has its hyphen.
    have hfold : ('/' :: n.name ++ ['>'] ++ t).map foldCase = foldCase '/' ::
        (n.element.name ++ foldCase '-' :: (n.suffix ++ '>' :: t).map foldCase) := by
      simp [name, n.element.map_foldCase_name]
    rw [hfold] at hp
    have htail := (List.prefix_append_right_inj n.element.name).1 (List.cons_prefix_cons.1 hp).2
    exact absurd (List.cons_prefix_cons.1 htail).1 (by decide)
  · rw [List.append_assoc, List.map_append, n.element.map_foldCase_name] at hp
    cases he : n.element <;> rw [he] at hp <;>
      exact absurd (List.cons_prefix_cons.1 hp).1 (by decide)

theorem mapContent_around (h : Tagged n.innerWords s) :
    n.element.mapContent f (n.around s) = n.element.wrap (f s) := by
  refine Element.mapContent_alone ?_ (closingTag_absent h)
  exact List.not_mem_cons_of_ne_of_not_mem (by decide) n.gt_not_mem_suffix

theorem mapContent_wrap (h : Tagged n.innerWords s) :
    n.element.mapContent f (n.element.wrap s) = n.element.wrap (f s) := by
  rw [← Element.mapContent_alone (f := f) (A := []) List.not_mem_nil (closingTag_absent h)]
  simp [Element.wrap, Element.openingTag]

theorem mapContent_wrap_of_ne (he : e ≠ n.element) (h : Tagged n.innerWords s) :
    e.mapContent f (n.element.wrap s) = n.element.wrap s :=
  Element.mapContent_of_absent ((tagged_wrap h).name_not_infix_map n.tagWord_of_mem_words he)

variable (n)

theorem mapContent_document : n.element.mapContent f n.document = n.element.wrap (f n.body) := by
  rw [document_eq]
  exact mapContent_around n.tagged_body

theorem mapContent_document_of_ne (he : e ≠ n.element) :
    e.mapContent f n.document = n.document :=
  Element.mapContent_of_absent (n.tagged_document.name_not_infix_map n.tagWord_of_mem_words he)

/-- The long name is not that of the element. -/
theorem not_opener_prefix_wrap (s : Text) : ¬ n.opener <+: n.element.wrap s := by
  have hlong : n.opener = ('<' :: n.element.name) ++ '-' :: (n.suffix ++ ['>']) := by
    simp [opener, name]
  have hshort : n.element.wrap s =
      ('<' :: n.element.name) ++ '>' :: (s ++ n.element.closingTag) := by
    simp [Element.wrap, Element.openingTag]
  rw [hlong, hshort, List.prefix_append_right_inj]
  exact fun h => absurd (List.cons_prefix_cons.1 h).1 (by decide)

variable {n}

/-! ## The gaps between the tags -/

theorem unbroken_seam (n : Namesake) : Unbroken n.seam := by
  have hlong : Unbroken n.closer :=
    unbroken_cons.2 ⟨by decide, (n.tagWord_of_mem_innerWords _ n.closer_mem_innerWords).unbroken⟩
  exact List.forall_mem_append.2 ⟨hlong, n.element.unbroken_openingTag⟩

/-- The text has the seam in it and no other tag, or no tag opens in it at all. -/
def Seamed (n : Namesake) (s : Text) : Prop :=
  '<' ∉ s ∨ ∃ p q, '>' ∉ p ∧ '<' ∉ q ∧ s = p ++ (n.seam ++ q)

theorem seamed_body (n : Namesake) : n.Seamed n.body :=
  .inr ⟨n.content, n.later, n.gt_not_mem_content, n.lt_not_mem_later, rfl⟩

theorem Seamed.flattenBlanks (h : n.Seamed s) : n.Seamed s.flattenBlanks := by
  rcases h with h | ⟨p, q, hp, hq, rfl⟩
  · exact .inl (Pattern.not_mem_replace (by decide) h)
  · refine .inr ⟨p.flattenBlanks, q.flattenBlanks, Pattern.not_mem_replace (by decide) hp,
      Pattern.not_mem_replace (by decide) hq, ?_⟩
    exact keepsWords_flattenBlanks.append_word (List.cons_ne_nil _ _) n.unbroken_seam

/-- All gaps between tags are at the ends. -/
theorem Seamed.trim_mapGaps_tagRule (h : n.Seamed s) {l r : Option Char} :
    Text.trim (mapGaps tagRule l r s) = s.trim := by
  rcases h with h | ⟨p, q, hp, hq, rfl⟩
  · rw [Text.trim, trimEnd_mapGaps_tagRule h, ← Text.trim]
  · obtain ⟨m, hm⟩ : ∃ m, n.seam = '<' :: (m ++ ['>']) :=
      ⟨'/' :: n.name ++ '>' :: '<' :: n.element.name, by
        simp [seam, closer, Element.openingTag]⟩
    have hgaps : mapGaps tagRule l r (p ++ (n.seam ++ q)) =
        mapGaps tagRule l (some '<') p ++ (n.seam ++ mapGaps tagRule (some '>') r q) := by
      have hrest := (unbroken_cons.1 (hm ▸ n.unbroken_seam)).2
      have hlast : List.getLast? (m ++ ['>']) = some '>' := List.getLast?_concat
      rw [hm, List.cons_append, mapGaps_append_cons (by decide),
        mapGaps_append_of_unbroken tagRule_nil (by simp) hrest, hlast]
      rfl
    have hne : n.seam ≠ [] := List.cons_ne_nil _ _
    rw [hgaps, trim_append_word hne n.unbroken_seam, trim_append_word hne n.unbroken_seam,
      trimStart_mapGaps_tagRule hp, trimEnd_mapGaps_tagRule hq]

/-- A line comment in the content takes the two tags away whole, or not at all. -/
theorem seamed_deleteLineComments_body (n : Namesake) :
    n.Seamed (Script.deleteLineComments n.body) := by
  by_cases hcut : ['/', '/'] <:+: Script.lastLine n.content
  · refine .inl ?_
    obtain ⟨k, e, hlater, hk, he⟩ := exists_line_append n.later
    have hline : '\n' ∉ n.seam ++ k := by
      rw [List.mem_append, not_or]
      exact ⟨fun h => newline_ne (n.unbroken_seam _ h) rfl, hk⟩
    have hcontent := Script.deleteLineComments_append_of_cut hcut hline
    have hleft := Script.lt_not_mem_deleteLineComments _ n.lt_not_mem_content
    have hright := n.lt_not_mem_later
    rcases he with rfl | ⟨r, rfl⟩
    · rw [List.append_nil] at hlater
      rw [body, hlater, hcontent]
      exact hleft
    · have hbody : n.body = n.content ++ (n.seam ++ k) ++ '\n' :: r := by simp [body, hlater]
      rw [hlater, List.mem_append, List.mem_cons, not_or, not_or] at hright
      rw [hbody, Script.deleteLineComments_append_newline, hcontent, List.mem_append,
        List.mem_cons, not_or, not_or]
      exact ⟨hleft, by decide, Script.lt_not_mem_deleteLineComments r hright.2.2⟩
  · refine .inr ⟨Script.deleteLineComments n.content, Script.deleteLineComments n.later,
      Pattern.not_mem_replace List.not_mem_nil n.gt_not_mem_content,
      Script.lt_not_mem_deleteLineComments _ n.lt_not_mem_later, ?_⟩
    -- From one tag to the next a slash stands only where a name follows it.
    have hbody : n.body = n.content ++ '<' :: (('/' :: n.name ++ ['>']) ++
        '<' :: ((n.element.name ++ ['>']) ++ n.later)) := by
      simp [body, seam, closer, Element.openingTag]
    rw [hbody, Script.deleteLineComments_append_of_lastLine hcut (by decide),
      (n.tagWord_of_mem_innerWords _ n.closer_mem_innerWords).deleteLineComments_append,
      Script.deleteLineComments_cons_of_ne (by decide),
      (n.tagWord_of_mem_innerWords _ n.openingTag_mem_innerWords).deleteLineComments_append]
    simp [seam, closer, Element.openingTag]

end Namesake

namespace Element

variable {e : Element}

/-- Nothing but the content changes of an element when a document is flattened and
trimmed. -/
theorem flattened {A : Text} (hA : Unbroken A) (s : Text) :
    Text.trim (Document.closeTagGaps (Text.flattenBlanks
        ('<' :: (e.name ++ (A ++ ['>']) ++ (s ++ e.closingTag))))) =
      '<' :: (e.name ++ (A ++ ['>']) ++
        (mapGaps tagRule (some '>') (some '<') s.flattenBlanks ++ e.closingTag)) := by
  have htrim : ∀ t : Text, Text.trim ('<' :: (t ++ e.closingTag)) = '<' :: (t ++ e.closingTag) := by
    intro t
    have hword := trim_append_word (u := '<' :: t) (v := []) (List.cons_ne_nil _ _)
      e.unbroken_closingTag
    rwa [List.append_nil, show Text.trimEnd [] = [] from rfl, List.append_nil,
      trimStart_cons (by decide)] at hword
  rw [Document.closeTagGaps_eq_mapGaps, flattenBlanks_eq_mapGaps, mapGaps_alone flatRule_nil hA,
    mapGaps_flatRule, mapGaps_alone tagRule_nil hA, ← List.append_assoc, htrim]

theorem flattened_wrap (s : Text) :
    Text.trim (Document.closeTagGaps (Text.flattenBlanks (e.wrap s))) =
      e.wrap (mapGaps tagRule (some '>') (some '<') s.flattenBlanks) := by
  have h := flattened (e := e) (A := []) (fun _ hc => absurd hc List.not_mem_nil) s
  simpa [wrap, openingTag] using h

theorem trim_structured (e : Element) (s : Text) : (e.structured s).trim = e.structured s := by
  cases e <;> exact trim_trim _

end Element

theorem Namesake.flattened_document (n : Namesake) :
    Text.trim (Document.closeTagGaps (Text.flattenBlanks n.document)) =
      n.around (mapGaps tagRule (some '>') (some '<') n.body.flattenBlanks) := by
  have hsuffix : Unbroken ('-' :: n.suffix) :=
    unbroken_cons.2 ⟨by decide, n.solid_suffix.unbroken⟩
  rw [document_eq]
  exact Element.flattened hsuffix n.body

namespace Document

/-! ## The profiles -/

theorem dropMark_namesake (n : Namesake) : dropMark n.document = n.document :=
  dropMark_of_head? (by show some '<' ≠ some byteOrderMark; decide)

theorem minify_structured_namesake (n : Namesake) :
    minify .structured n.document =
      n.element.wrap (layout (n.element.structured n.body)) := by
  have hpasses : Element.script.mapContent Script.structured
      (Element.style.mapContent Stylesheet.structured n.document) =
        n.element.wrap (n.element.structured n.body) := by
    cases he : n.element with
    | style =>
        have hself := n.mapContent_document (f := Stylesheet.structured)
        have hother := Namesake.mapContent_wrap_of_ne (f := Script.structured) (e := .script)
          (by rw [he]; decide) (n.tagged_body.structured n.tagWord_of_mem_innerWords)
        rw [he] at hself hother
        rw [hself, hother]
        rfl
    | script =>
        have hself := n.mapContent_document (f := Script.structured)
        have hother := n.mapContent_document_of_ne (f := Stylesheet.structured) (e := .style)
          (by rw [he]; decide)
        rw [he] at hself
        rw [hother, hself]
        rfl
  rw [minify_structured_eq, dropMark_namesake, Comment.deleteUnconditional_of_absent
      (n.tagged_document.commentOpener_absent n.tagWord_of_mem_words), hpasses,
    layout_eq_mapGaps, Element.mapGaps_wrap layoutRule_nil, ← Element.trim_structured,
    mapGaps_trim layoutRule_nil _ _ _ none none, ← layout_eq_mapGaps]

theorem minify_aggressive_namesake (n : Namesake) :
    minify .aggressive n.document = n.element.wrap (n.element.aggressive n.body) := by
  rw [minify_aggressive_eq, dropMark_namesake, Comment.deleteAll_of_absent
    (n.tagged_document.commentOpener_absent n.tagWord_of_mem_words)]
  cases he : n.element with
  | style =>
      have hfirst := n.mapContent_document_of_ne (f := Script.deleteLineComments) (e := .script)
        (by rw [he]; decide)
      have hself := Namesake.mapContent_around (f := Stylesheet.aggressive)
        (n.tagged_body.flattened n.tagWord_of_mem_innerWords (some '>') (some '<'))
      rw [Stylesheet.aggressive_treated_of_trim
        n.seamed_body.flattenBlanks.trim_mapGaps_tagRule] at hself
      have hother := Namesake.mapContent_wrap_of_ne (f := Script.aggressive) (e := .script)
        (by rw [he]; decide) (n.tagged_body.aggressive n.tagWord_of_mem_innerWords)
      rw [he] at hself hother
      rw [hfirst, n.flattened_document, hself, hother]
      rfl
  | script =>
      have hfirst := n.mapContent_document (f := Script.deleteLineComments)
      have hflat := Element.flattened_wrap (e := n.element) (Script.deleteLineComments n.body)
      have htagged := (n.tagged_body.deleteLineComments n.tagWord_of_mem_innerWords).flattened
        n.tagWord_of_mem_innerWords (some '>') (some '<')
      have hother := Namesake.mapContent_wrap_of_ne (f := Stylesheet.aggressive) (e := .style)
        (by rw [he]; decide) htagged
      have hself := Namesake.mapContent_wrap (f := Script.aggressive) htagged
      rw [Script.aggressive_treated_of_trim
        n.seamed_deleteLineComments_body.flattenBlanks.trim_mapGaps_tagRule] at hself
      rw [he] at hfirst hflat hother hself
      rw [hfirst, hflat, hother, hself]
      rfl

/-- The element with the longer name and the one behind it become one element with the
short name. Its content is all that stands between, the two tags included. -/
theorem minify_namesake (n : Namesake) :
    minify .structured n.document =
        n.element.wrap (layout (n.element.structured n.body)) ∧
      minify .aggressive n.document = n.element.wrap (n.element.aggressive n.body) ∧
      ∀ p, ¬ n.opener <+: minify p n.document := by
  refine ⟨minify_structured_namesake n, minify_aggressive_namesake n, fun p => ?_⟩
  cases p with
  | structured =>
      rw [minify_structured_namesake]
      exact n.not_opener_prefix_wrap _
  | aggressive =>
      rw [minify_aggressive_namesake]
      exact n.not_opener_prefix_wrap _

/-- With a comment around the two tags, nothing is left of them. -/
theorem minify_namesake_comment :
    minify .structured
        "<style-guide>a: b /* c</style-guide><style>d */ e: f</style>".toList =
      "<style>a:b e:f</style>".toList :=
  (minify_namesake ⟨.style, "guide".toList, "a: b /* c".toList, "d */ e: f".toList,
    by simp [Solid, isBlank], by decide, by decide, by decide, by decide⟩).1.trans
      (by decide +kernel)

/-- A style guide is not left as it is. -/
theorem minify_namesake_not_kept :
    ¬ ∀ (p : Profile) (e : Element) (suffix content later : Text),
      suffix ≠ [] → (∀ c ∈ suffix, c.isAlpha) →
      (∀ c ∈ content ++ later, c ≠ '<' ∧ c ≠ '>') →
      ∀ name, name = e.name ++ '-' :: suffix →
      ∀ out, out = minify p ('<' :: name ++ ['>'] ++ content ++ ('<' :: '/' :: name ++ ['>']) ++
        e.wrap later) →
      '<' :: name ++ ['>'] <+: out ∧ '<' :: '/' :: name ++ ['>'] <:+: out := by
  intro h
  have hkept := h .structured .style "guide".toList "b".toList "c".toList (by decide)
    (by simp) (by simp) _ rfl _ rfl
  exact absurd hkept.1 (by decide +kernel)

end Document

end HtmlMinifier
