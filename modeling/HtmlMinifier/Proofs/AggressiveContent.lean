import HtmlMinifier.Proofs.LineComments
import HtmlMinifier.Proofs.TagGaps
import HtmlMinifier.Proofs.TrailingBlanks

/-!
# Aggressive rules on content that was treated before

The aggressive profile flattens a document, and closes the gaps between its
tags, before it comes to the content of its elements. The aggressive rules of
style sheets and scripts do not notice. They flatten too, right after comments
are deleted, and they trim at the end, so the content may have been flattened
(`aggressive_flattenBlanks`) and its last gap may be gone
(`aggressive_trimEnd`).

Line comments are the exception, since flattening takes their ends away. The
profile deletes them first, and what is left has no two slashes in a row, so
that nothing is a line comment any more, whatever happens to gaps.
-/

namespace HtmlMinifier

open Text

theorem unbroken_commentOpener : Unbroken ['/', '*'] := by
  simp [Unbroken, isBlank]

theorem unbroken_commentCloser : Unbroken ['*', '/'] := by
  simp [Unbroken, isBlank]

theorem endBlind_deleteBlockComments : EndBlind Pattern.blockComment.delete :=
  Pattern.endBlind_replaceWith
    (Pattern.read?_enclosure_append_blanks (by simp) unbroken_commentCloser)

theorem flattenBlanks_deleteBlockComments (s : Text) :
    Text.flattenBlanks (Pattern.blockComment.delete s.flattenBlanks) =
      Text.flattenBlanks (Pattern.blockComment.delete s) :=
  Pattern.flattenBlanks_delete (by simp) unbroken_commentOpener
    unbroken_commentCloser s

theorem endBlind_flattenBlanks : EndBlind Text.flattenBlanks := by
  intro s
  rw [flattenBlanks_eq_mapGaps, flattenBlanks_eq_mapGaps]
  exact endBlind_mapGaps keepsBlank_flatRule none none s

namespace Stylesheet

/-! ## Style sheets -/

theorem read?_lastSemicolon_append_blanks (b : Bool) (s B : Text)
    (hB : AllBlank B) :
    lastSemicolon.read? b (s ++ B) = lastSemicolon.read? b s := by
  simp only [lastSemicolon]
  rcases allBlank_or_exists s with h | ⟨R, c, t, rfl, hR, hc⟩
  · rw [trimStart_of_allBlank (allBlank_append.2 ⟨h, hB⟩),
      trimStart_of_allBlank h]
  · rw [List.append_assoc, List.cons_append, trimStart_append_cons hR hc,
      trimStart_append_cons hR hc, leadingBlanks_append_cons hR hc,
      leadingBlanks_append_cons hR hc]
    by_cases hsemi : c = ';'
    · subst hsemi
      simp only
      rcases allBlank_or_exists t with h | ⟨Q, d, w, rfl, hQ, hd⟩
      · rw [trimStart_of_allBlank (allBlank_append.2 ⟨h, hB⟩),
          trimStart_of_allBlank h]
      · rw [List.append_assoc, List.cons_append, trimStart_append_cons hQ hd,
          trimStart_append_cons hQ hd, leadingBlanks_append_cons hQ hd,
          leadingBlanks_append_cons hQ hd]
        by_cases hbrace : d = '}'
        · subst hbrace
          rfl
        · simp [hbrace]
    · simp [hsemi]

theorem endBlind_dropLastSemicolons : EndBlind dropLastSemicolons :=
  Pattern.endBlind_replaceWith read?_lastSemicolon_append_blanks

/-- The gaps around a mark are emptied. -/
def markRule : GapRule := fun l R r =>
  if l.any isMark || r.any isMark then [] else R

theorem markRule_nil (l r : Option Char) : markRule l [] r = [] := by
  rw [markRule]
  split <;> rfl

theorem markRule_cases (l r : Option Char) (R : Text) :
    markRule l R r = [] ∨ markRule l R r = R := by
  rw [markRule]
  split
  · exact .inl rfl
  · exact .inr rfl

theorem keepsBlank_markRule : KeepsBlank markRule :=
  keepsBlank_of_cases fun l R r => markRule_cases l r R

theorem markRule_before {l : Option Char} {R : Text} {c : Char}
    (h : isMark c = true) : markRule l R (some c) = [] := by
  rw [markRule, if_pos]
  simp [h]

theorem markRule_after {r : Option Char} {R : Text} {c : Char}
    (h : isMark c = true) : markRule (some c) R r = [] := by
  rw [markRule, if_pos]
  simp [h]

theorem read?_mark {b : Bool} {R t : Text} {c : Char} (hR : AllBlank R)
    (hc : isBlank c = false) :
    mark.read? b (R ++ c :: t) =
      if isMark c then some ⟨R, [c], Text.leadingBlanks t⟩ else none := by
  simp only [mark]
  rw [trimStart_append_cons hR hc, leadingBlanks_append_cons hR hc]

theorem read?_mark_blanks {b : Bool} {R : Text} (hR : AllBlank R) :
    mark.read? b R = none := by
  simp only [mark]
  rw [trimStart_of_allBlank hR]

/-- What stands after a mark is treated as if the text started there. -/
theorem mapGaps_markRule_after {c : Char} (h : isMark c = true) (t : Text) :
    mapGaps markRule (some c) none t =
      mapGaps markRule none none t.trimStart := by
  rcases allBlank_or_exists t with ht | ⟨R, d, w, rfl, hR, hd⟩
  · rw [mapGaps_blanks ht, markRule_after h, trimStart_of_allBlank ht,
      mapGaps_nil, markRule_nil]
  · rw [mapGaps_gap hR hd, markRule_after h, trimStart_append_cons hR hd,
      mapGaps_cons hd, markRule_nil]

/-- The search, from a place where the last character was no mark. -/
theorem replaceFrom_mark (s : Text) : ∀ {b : Bool} {l : Option Char},
    l.any isMark = false →
    mark.replaceFrom Occurrence.inner b s = mapGaps markRule l none s := by
  induction hn : s.length using Nat.strongRecOn generalizing s with
  | ind n ih =>
      intro b l hl
      rcases allBlank_or_exists s with h | ⟨R, c, t, rfl, hR, hc⟩
      · rw [mapGaps_blanks h, markRule, if_neg (by simp [hl]),
          Pattern.replaceFrom_of_none]
        intro b t ht
        exact read?_mark_blanks (h.suffix ht)
      · simp only [List.length_append, List.length_cons] at hn
        rw [mapGaps_gap hR hc]
        by_cases hm : isMark c = true
        · have hread := read?_mark (b := b) (t := t) hR hc
          rw [if_pos hm] at hread
          have hrest := Text.leadingBlanks_append_trimStart t
          have hlen := congrArg List.length hrest
          rw [List.length_append] at hlen
          rw [Pattern.replaceFrom_hit_eq
              (t := R ++ c :: Text.leadingBlanks t) (r := Text.trimStart t)
              (by simp [hrest]) (by simp [Occurrence.text]) hread,
            ih (Text.trimStart t).length (by omega) _ rfl (l := none) rfl,
            markRule_before hm, mapGaps_markRule_after hm]
          rfl
        · have hnone : ∀ b v, AllBlank v → mark.read? b (v ++ c :: t) = none := by
            intro b v hv
            rw [read?_mark hv hc, if_neg hm]
          rw [Pattern.replaceFrom_append_of_suffix, Pattern.replaceFrom_plain
              (hnone _ [] allBlank_nil),
            ih t.length (by omega) t rfl (l := some c) (by simpa using hm),
            markRule, if_neg (by simpa [hl] using hm)]
          exact fun b d v hv => hnone b (d :: v) (hR.suffix hv)

theorem tightenMarks_eq_mapGaps (s : Text) :
    tightenMarks s = mapGaps markRule none none s :=
  replaceFrom_mark s rfl

theorem endBlind_tightenMarks : EndBlind tightenMarks := by
  intro s
  rw [tightenMarks_eq_mapGaps, tightenMarks_eq_mapGaps]
  exact endBlind_mapGaps keepsBlank_markRule none none s

/-- What the aggressive rules do once comments are deleted and blanks are
flattened. -/
theorem aggressive_eq (s : Text) :
    aggressive s = Text.trim (tightenMarks (dropLastSemicolons
      (Text.flattenBlanks (Pattern.blockComment.delete s)))) := rfl

theorem aggressive_trimEnd (s : Text) : aggressive s.trimEnd = aggressive s :=
  EndBlind.trim_eq (endBlind_tightenMarks.comp (endBlind_dropLastSemicolons.comp
    (endBlind_flattenBlanks.comp endBlind_deleteBlockComments))) s

theorem aggressive_flattenBlanks (s : Text) :
    aggressive s.flattenBlanks = aggressive s := by
  rw [aggressive_eq, flattenBlanks_deleteBlockComments, ← aggressive_eq]

/-- In a document the content of a style sheet reaches the aggressive rules
flattened, and with the last gap closed if a tag stands before it. -/
theorem aggressive_treated {s : Text} (h : '<' ∉ s) (l r : Option Char) :
    aggressive (mapGaps tagRule l r s.flattenBlanks) = aggressive s := by
  have hlt : '<' ∉ s.flattenBlanks := Pattern.not_mem_replace (by decide) h
  rw [← aggressive_trimEnd, trimEnd_mapGaps_tagRule hlt, aggressive_trimEnd,
    aggressive_flattenBlanks]

theorem lt_not_mem_aggressive (s : Text) (h : '<' ∉ s) :
    '<' ∉ aggressive s := by
  have hflat : '<' ∉ Text.flattenBlanks (Pattern.blockComment.delete s) :=
    Pattern.not_mem_replace (by decide)
      (Pattern.not_mem_replace List.not_mem_nil h)
  have hdrop : '<' ∉ dropLastSemicolons
      (Text.flattenBlanks (Pattern.blockComment.delete s)) :=
    Pattern.not_mem_replace (by decide) hflat
  rw [aggressive_eq]
  refine not_mem_trim (by decide) fun hm => hdrop ?_
  rw [tightenMarks_eq_mapGaps] at hm
  exact mem_of_mem_mapGaps keepsBlank_markRule (by decide) _ hm

end Stylesheet

namespace Script

/-! ## Scripts -/

theorem tightenLastSemicolons_eq_mapGaps (s : Text) :
    tightenLastSemicolons s =
      mapGaps (Pattern.gapRule (some ';') (some '}') 0 []) none none s := by
  refine Pattern.replace_gap (fun a ha => ?_) [] s
  obtain rfl := Option.some.inj ha
  exact ⟨by decide, by decide⟩

theorem endBlind_tightenLastSemicolons : EndBlind tightenLastSemicolons := by
  intro s
  rw [tightenLastSemicolons_eq_mapGaps, tightenLastSemicolons_eq_mapGaps]
  exact endBlind_mapGaps (Pattern.keepsBlank_gapRule allBlank_nil) none none s

/-- The aggressive rules after the first, which deletes line comments. -/
def finish (s : Text) : Text :=
  Text.trim (tightenLastSemicolons (Text.flattenBlanks (deleteBlockComments s)))

theorem aggressive_eq_finish (s : Text) :
    aggressive s = finish (deleteLineComments s) := rfl

theorem finish_trimEnd (s : Text) : finish s.trimEnd = finish s :=
  EndBlind.trim_eq (endBlind_tightenLastSemicolons.comp
    (endBlind_flattenBlanks.comp endBlind_deleteBlockComments)) s

theorem finish_flattenBlanks (s : Text) : finish s.flattenBlanks = finish s := by
  rw [finish, deleteBlockComments, flattenBlanks_deleteBlockComments]
  rfl

/-- Nothing of a document makes line comments again where they were deleted. -/
theorem slashes_not_infix_treated (s : Text) (l r : Option Char) :
    ¬ ['/', '/'] <:+: mapGaps tagRule l r (Text.flattenBlanks (deleteLineComments s)) := by
  intro hp
  have hflat := pair_infix_of_mapGaps_tagRule (by decide) (by decide) (by decide) hp
  rw [keepsWords_flattenBlanks.infix_iff (by simp) (by simp [Unbroken, isBlank])] at hflat
  exact slashes_not_infix_deleteLineComments s hflat

/-- In a document the content of a script reaches the aggressive rules without
line comments, flattened, and with the last gap closed if a tag stands before
it. -/
theorem aggressive_treated {s : Text} (h : '<' ∉ s) (l r : Option Char) :
    aggressive (mapGaps tagRule l r
      (Text.flattenBlanks (deleteLineComments s))) = aggressive s := by
  have hlt : '<' ∉ Text.flattenBlanks (deleteLineComments s) :=
    Pattern.not_mem_replace (by decide)
      (Pattern.not_mem_replace List.not_mem_nil h)
  rw [aggressive_eq_finish, deleteLineComments_of_absent (slashes_not_infix_treated s l r),
    ← finish_trimEnd, trimEnd_mapGaps_tagRule hlt, finish_trimEnd,
    finish_flattenBlanks, ← aggressive_eq_finish]

theorem lt_not_mem_deleteLineComments (s : Text) (h : '<' ∉ s) :
    '<' ∉ deleteLineComments s :=
  Pattern.not_mem_replace List.not_mem_nil h

theorem lt_not_mem_aggressive (s : Text) (h : '<' ∉ s) :
    '<' ∉ aggressive s := by
  have hblock : '<' ∉ deleteBlockComments (deleteLineComments s) :=
    Pattern.not_mem_replace List.not_mem_nil (lt_not_mem_deleteLineComments s h)
  have hflat : '<' ∉ Text.flattenBlanks
      (deleteBlockComments (deleteLineComments s)) :=
    Pattern.not_mem_replace (by decide) hblock
  exact not_mem_trim (by decide) (Pattern.not_mem_replace (by decide) hflat)

end Script

namespace Document

/-! ## The profile -/

theorem minify_aggressive_eq (s : Text) :
    minify .aggressive s =
      Element.script.mapContent Script.aggressive
        (Element.style.mapContent Stylesheet.aggressive
          (Text.trim (closeTagGaps (Text.flattenBlanks
            (Element.script.mapContent Script.deleteLineComments
              (Comment.deleteAll (dropMark s))))))) := rfl

end Document

end HtmlMinifier
