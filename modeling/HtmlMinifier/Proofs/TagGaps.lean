import HtmlMinifier.Document
import HtmlMinifier.Proofs.GapPass

/-!
# Gaps between tags

Both profiles delete the blanks between `>` and `<`. This is a rule on gaps
with one condition on the two neighbours, and that is all a reader of the rule
has to know. In a part of a document without `<` the only gap it can find is
the last one, before the tag that follows.
-/

namespace HtmlMinifier

namespace Text

/-- A gap between tags goes. -/
def tagRule : GapRule := fun l R r =>
  if l = some '>' ∧ r = some '<' then [] else R

theorem tagRule_cases (l r : Option Char) (R : Text) :
    tagRule l R r = [] ∨ tagRule l R r = R := by
  rw [tagRule]
  split
  · exact .inl rfl
  · exact .inr rfl

theorem tagRule_nil (l r : Option Char) : tagRule l [] r = [] := by
  rcases tagRule_cases l r [] with h | h <;> exact h

theorem keepsBlank_tagRule : KeepsBlank tagRule :=
  keepsBlank_of_cases fun l R r => tagRule_cases l r R

theorem tagRule_of_ne {l r : Option Char} {R : Text} (h : r ≠ some '<') :
    tagRule l R r = R :=
  if_neg fun hlr => h hlr.2

/-- Up to the end of a text without tags nothing is between tags. -/
theorem trimEnd_mapGaps_tagRule {s : Text} (h : '<' ∉ s) :
    ∀ {l r : Option Char}, (mapGaps tagRule l r s).trimEnd = s.trimEnd := by
  induction s using gap_induction with
  | blanks R hR =>
      intro l r
      rw [mapGaps_blanks hR, trimEnd_of_allBlank hR,
        trimEnd_of_allBlank (keepsBlank_tagRule _ _ _ hR)]
  | cons R c s hR hc ih =>
      intro l r
      rw [List.mem_append, List.mem_cons, not_or, not_or] at h
      obtain ⟨-, hlt, hs⟩ := h
      rw [mapGaps_gap hR hc, tagRule_of_ne (by simpa using Ne.symm hlt),
        trimEnd_append_cons hc, trimEnd_append_cons hc, ih hs]

theorem tagRule_of_left_ne {l r : Option Char} {R : Text} (h : l ≠ some '>') :
    tagRule l R r = R :=
  if_neg fun hlr => h hlr.1

theorem mapGaps_tagRule_of_left_ne {s : Text} (h : '>' ∉ s) : ∀ {l r : Option Char},
    l ≠ some '>' → mapGaps tagRule l r s = s := by
  induction s using gap_induction with
  | blanks R hR =>
      intro l r hl
      rw [mapGaps_blanks hR, tagRule_of_left_ne hl]
  | cons R c s hR hc ih =>
      intro l r hl
      rw [List.mem_append, List.mem_cons, not_or, not_or] at h
      obtain ⟨-, hgt, hs⟩ := h
      rw [mapGaps_gap hR hc, tagRule_of_left_ne hl, ih hs (by simpa using Ne.symm hgt)]

/-- From the start of a text without tags nothing is between tags. -/
theorem trimStart_mapGaps_tagRule {s : Text} (h : '>' ∉ s) {l r : Option Char} :
    (mapGaps tagRule l r s).trimStart = s.trimStart := by
  rcases allBlank_or_exists s with hs | ⟨R, c, t, rfl, hR, hc⟩
  · rw [mapGaps_blanks hs, trimStart_of_allBlank hs,
      trimStart_of_allBlank (keepsBlank_tagRule _ _ _ hs)]
  · rw [List.mem_append, List.mem_cons, not_or, not_or] at h
    obtain ⟨-, hgt, ht⟩ := h
    rw [mapGaps_gap hR hc, trimStart_append_cons (keepsBlank_tagRule _ _ _ hR) hc,
      trimStart_append_cons hR hc, mapGaps_tagRule_of_left_ne ht (by simpa using Ne.symm hgt)]

/-- Closing gaps between tags brings no two other characters together. -/
theorem pair_infix_of_mapGaps_tagRule {a b : Char} {l r : Option Char} {s : Text}
    (ha : isBlank a = false) (hb : isBlank b = false) (hlt : b ≠ '<')
    (h : [a, b] <:+: mapGaps tagRule l r s) : [a, b] <:+: s := by
  obtain ⟨u, v, huv⟩ := h
  have hjoin : ∀ R, tagRule (some a) R (some b) = [] → R = [] := by
    intro R hR
    rwa [tagRule_of_ne (by simpa using hlt)] at hR
  obtain ⟨p, q, rfl, -, -⟩ := exists_pair_of_mapGaps_eq (U := u) (V := v)
    keepsBlank_tagRule ha hb hjoin (by rw [← huv]; simp)
  exact List.infix_append' p [a, b] q

end Text

namespace Document

open Text

theorem closeTagGaps_eq_mapGaps (s : Text) :
    closeTagGaps s = mapGaps tagRule none none s := by
  have hne : ∀ a, some '>' = some a →
      isBlank a = false ∧ some '<' ≠ some a := by
    intro a ha
    obtain rfl := Option.some.inj ha
    exact ⟨by decide, by decide⟩
  refine Eq.trans (Pattern.replace_gap hne [] s)
    (mapGaps_congr (fun l R r _ => ?_) s)
  rw [Pattern.gapRule, tagRule]
  by_cases h : l = some '>' ∧ r = some '<'
  · rw [if_pos h]
    split
    · rfl
    · next hn =>
        cases R with
        | nil => rfl
        | cons c R => exact absurd ⟨.inr h.1, .inr h.2, by simp⟩ hn
  · rw [if_neg h, if_neg]
    rintro ⟨hl, hr, -⟩
    exact h ⟨by simpa using hl, by simpa using hr⟩

end Document

end HtmlMinifier
