import HtmlMinifier.Proofs.BlockComments
import HtmlMinifier.Proofs.SingleSpaces

/-!
# Scripts in normal form

After one run of the aggressive rules a second one has nothing to do. Deleting a
block comment brings together what stood on its two sides, and in general that may
open a comment or close one. Here it does neither, because line comments went
first. No slash stands before an opener any more, so the character before a comment
that is deleted is never the first of an opener, nor of two slashes
(`unclosed_deleteBlockComments`, `slashes_not_infix_deleteBlockComments`). An opener
that is left was one before, and it was left because no closer comes after it. Then
no comment comes after it either, so nothing behind it changes, and nothing closes
it.

The structured rules do not delete the line comments first, and for them this fails.

All later passes are one rule on gaps, which may bring a semicolon and a brace
together and no other characters, and which leaves a gap as it is where it has been
before.
-/

namespace HtmlMinifier.Script

open Text

/-! ## Openers that are left -/

theorem unclosed_cons {c : Char} {s : Text} :
    Unclosed (c :: s) ↔ (∀ v, c :: s = '/' :: '*' :: v → ¬ ['*', '/'] <:+: v) ∧ Unclosed s := by
  simp only [Unclosed, mem_opened_iff, List.suffix_cons_iff]
  constructor
  · intro h
    exact ⟨fun v hv => h v (.inl hv.symm), fun v hv => h v (.inr hv)⟩
  · rintro ⟨hfirst, hrest⟩ v (hv | hv)
    · exact hfirst v hv.symm
    · exact hrest v hv

/-- In such a text, and in no other, there is no block comment. -/
theorem unclosed_iff_ne_append {s : Text} :
    Unclosed s ↔ ∀ u t v, s ≠ u ++ '/' :: '*' :: (t ++ '*' :: '/' :: v) := by
  constructor
  · intro h u t v hs
    exact h (t ++ '*' :: '/' :: v) (mem_opened_iff.2 ⟨u, hs.symm⟩) ⟨t, v, by simp⟩
  · rintro h w hw ⟨t, v, rfl⟩
    obtain ⟨u, hu⟩ := mem_opened_iff.1 hw
    exact h u t v (by rw [← hu]; simp)

/-- A rule that brings no slash and star together opens and closes nothing. -/
theorem Unclosed.mapGaps {s : Text} (h : Unclosed s) {f : GapRule} (hf : KeepsBlank f)
    (hopen : ∀ R, f (some '/') R (some '*') = [] → R = [])
    (hclose : ∀ R, f (some '*') R (some '/') = [] → R = []) {l r : Option Char} :
    Unclosed (mapGaps f l r s) := by
  refine unclosed_iff_ne_append.2 fun U T V hs => ?_
  obtain ⟨u, w, rfl, -, hw⟩ := exists_pair_of_mapGaps_eq hf (by decide) (by decide) hopen hs
  obtain ⟨t, v, rfl, -, -⟩ := exists_pair_of_mapGaps_eq hf (by decide) (by decide) hclose hw
  exact unclosed_iff_ne_append.1 h u t v rfl

/-! ## What deleting block comments brings together -/

/-- What starts with no opener starts as before. -/
theorem head?_deleteBlockComments {s : Text} (h : ¬ ['/', '*'] <+: s) :
    (deleteBlockComments s).head? = s.head? := by
  cases s with
  | nil => rfl
  | cons c s =>
      rw [deleteBlockComments_cons fun v hv => absurd ⟨v, hv.symm⟩ h]
      rfl

/-- What is left of a text that lacks a word is made up of the characters with which no
closed comment starts, and what comes after each lacks the word, too. -/
theorem deleteBlockComments_induction {w : Text} {motive : Text → Prop} (nil : motive [])
    (cons : ∀ c s, (∀ v, c :: s = '/' :: '*' :: v → ¬ ['*', '/'] <:+: v) → ¬ w <:+: c :: s →
      motive (deleteBlockComments s) → motive (c :: deleteBlockComments s))
    {s : Text} (h : ¬ w <:+: s) : motive (deleteBlockComments s) := by
  have hdelete : Pattern.Uncommented s (deleteBlockComments s) := Pattern.uncommented_delete s
  generalize deleteBlockComments s = t at hdelete ⊢
  induction hdelete with
  | nil => exact nil
  | @char c s t hopen hrest ih =>
      obtain rfl : t = deleteBlockComments s := hrest.eq_delete
      exact cons c s hopen h (ih fun hi => h (List.infix_cons hi))
  | comment _ _ ih => exact ih fun hi => h (hi.trans (List.suffix_append _ _).isInfix)

/-- What is opened in a text without its block comments is not closed in it, if no
slash stands before an opener in the text. -/
theorem unclosed_deleteBlockComments {s : Text} (h : ¬ ['/', '/', '*'] <:+: s) :
    Unclosed (deleteBlockComments s) := by
  refine deleteBlockComments_induction (motive := Unclosed) (unclosed_of_absent (by simp))
    (fun c s hplain habsent hrest => unclosed_cons.2 ⟨fun v hv => ?_, hrest⟩) h
  rw [List.infix_cons_iff, not_or] at habsent
  obtain ⟨rfl, htail⟩ := List.cons.inj hv
  have hopen : ¬ ['/', '*'] <+: s := fun hp => habsent.1 (List.cons_prefix_cons.2 ⟨rfl, hp⟩)
  have hhead := head?_deleteBlockComments hopen
  rw [htail] at hhead
  obtain ⟨t, rfl⟩ := List.head?_eq_some_iff.1 hhead.symm
  -- The opener was there before, and so was everything behind it.
  have hclose : ¬ ['*', '/'] <:+: t := hplain t rfl
  have hall : Unclosed ('*' :: t) :=
    unclosed_cons.2 ⟨fun _ hu => absurd (List.cons.inj hu).1 (by decide),
      unclosed_of_absent hclose⟩
  rw [deleteBlockComments_of_unclosed hall] at htail
  rwa [(List.cons.inj htail).2] at hclose

/-- No two slashes come together. -/
theorem slashes_not_infix_deleteBlockComments {s : Text} (h : ¬ ['/', '/'] <:+: s) :
    ¬ ['/', '/'] <:+: deleteBlockComments s := by
  refine deleteBlockComments_induction (motive := fun t => ¬ ['/', '/'] <:+: t) (by simp)
    (fun c s _ habsent hrest => ?_) h
  rw [List.infix_cons_iff, not_or] at habsent ⊢
  refine ⟨fun hp => ?_, hrest⟩
  obtain ⟨rfl, v, hv⟩ := List.cons_prefix_cons.1 hp
  have hslash : ¬ ['/'] <+: s := fun hs => habsent.1 (List.cons_prefix_cons.2 ⟨rfl, hs⟩)
  have hopen : ¬ ['/', '*'] <+: s :=
    fun hs => hslash ((List.prefix_append ['/'] ['*']).trans hs)
  have hhead := head?_deleteBlockComments hopen
  rw [← hv] at hhead
  obtain ⟨t, rfl⟩ := List.head?_eq_some_iff.1 hhead.symm
  exact hslash (List.prefix_append ['/'] t)

/-! ## The passes after that -/

/-- What flattening, closing the gaps between semicolons and braces, and trimming
leave of a gap. -/
def finishRule : GapRule :=
  thenGap flatRule (thenGap (Pattern.gapRule (some ';') (some '}') 0 []) endRule)

theorem keepsBlank_finishRule : KeepsBlank finishRule :=
  keepsBlank_flatRule.thenGap
    ((Pattern.keepsBlank_gapRule allBlank_nil).thenGap keepsBlank_endRule)

theorem finish_eq_mapGaps (s : Text) :
    finish s = mapGaps finishRule none none (deleteBlockComments s) := by
  rw [finish, trim_eq_mapGaps, tightenLastSemicolons_eq_mapGaps, flattenBlanks_eq_mapGaps,
    mapGaps_mapGaps (Pattern.keepsBlank_gapRule allBlank_nil),
    mapGaps_mapGaps keepsBlank_flatRule, finishRule]

theorem finishRule_end {l r : Option Char} {R : Text} (h : l = none ∨ r = none) :
    finishRule l R r = [] :=
  if_pos h

theorem finishRule_semicolon (R : Text) : finishRule (some ';') R (some '}') = [] := by
  simp [finishRule, thenGap, Pattern.gapRule, endRule]

theorem finishRule_inner {a b : Char} (h : ¬ (a = ';' ∧ b = '}')) (R : Text) :
    finishRule (some a) R (some b) = flatRule (some a) R (some b) := by
  rw [finishRule, thenGap, thenGap, endRule, if_neg (by simp), Pattern.gapRule, if_neg]
  rintro ⟨ha, hb, -⟩
  exact h ⟨by simpa using ha, by simpa using hb⟩

theorem flatRule_eq_nil {l r : Option Char} {R : Text} (h : flatRule l R r = []) : R = [] := by
  by_contra hne
  rw [flatRule_of_ne_nil hne] at h
  cases h

theorem finishRule_finishRule (l : Option Char) (R : Text) (r : Option Char) :
    finishRule l (finishRule l R r) r = finishRule l R r := by
  by_cases hend : l = none ∨ r = none
  · rw [finishRule_end hend, finishRule_end hend]
  · obtain ⟨a, rfl⟩ := Option.ne_none_iff_exists'.1 (not_or.1 hend).1
    obtain ⟨b, rfl⟩ := Option.ne_none_iff_exists'.1 (not_or.1 hend).2
    by_cases hclose : a = ';' ∧ b = '}'
    · obtain ⟨rfl, rfl⟩ := hclose
      rw [finishRule_semicolon, finishRule_semicolon]
    · rw [finishRule_inner hclose, finishRule_inner hclose]
      by_cases h : R = []
      · rw [h, flatRule_nil, flatRule_nil]
      · rw [flatRule_of_ne_nil h, flatRule_of_ne_nil (List.cons_ne_nil ' ' [])]

theorem finish_of_unclosed {s : Text} (h : Unclosed (finish s)) :
    finish (finish s) = finish s := by
  rw [finish_eq_mapGaps (finish s), deleteBlockComments_of_unclosed h, finish_eq_mapGaps s]
  exact mapGaps_idem keepsBlank_finishRule finishRule_finishRule _

/-- Two characters that are brought together are a semicolon and a brace. -/
theorem finishRule_eq_nil {a b : Char} {R : Text} (hab : ¬ (a = ';' ∧ b = '}'))
    (h : finishRule (some a) R (some b) = []) : R = [] := by
  rw [finishRule_inner hab] at h
  exact flatRule_eq_nil h

/-! ## The normal form -/

theorem slashes_not_infix_aggressive (s : Text) : ¬ ['/', '/'] <:+: aggressive s := by
  rintro ⟨U, V, h⟩
  rw [aggressive_eq_finish, finish_eq_mapGaps, List.append_assoc] at h
  obtain ⟨u, v, hpair, -⟩ := exists_pair_of_mapGaps_eq (a := '/') (b := '/')
    keepsBlank_finishRule (by decide) (by decide) (fun _ => finishRule_eq_nil (by decide)) h.symm
  exact slashes_not_infix_deleteBlockComments (slashes_not_infix_deleteLineComments s)
    ⟨u, v, by rw [hpair]; simp⟩

/-- No block comment is left, and none comes about. -/
theorem unclosed_aggressive (s : Text) : Unclosed (aggressive s) := by
  have hslashes : ¬ ['/', '/', '*'] <:+: deleteLineComments s := fun hi =>
    slashes_not_infix_deleteLineComments s
      ((List.prefix_append ['/', '/'] ['*']).isInfix.trans hi)
  rw [aggressive_eq_finish, finish_eq_mapGaps]
  exact (unclosed_deleteBlockComments hslashes).mapGaps keepsBlank_finishRule
    (fun _ => finishRule_eq_nil (by decide)) (fun _ => finishRule_eq_nil (by decide))

theorem semicolon_brace_not_infix_aggressive (s : Text) :
    ¬ [';', ' ', '}'] <:+: aggressive s := by
  rintro ⟨U, V, h⟩
  rw [aggressive_eq_finish, finish_eq_mapGaps] at h
  have hgap : mapGaps finishRule none none (deleteBlockComments (deleteLineComments s)) =
      U ++ ';' :: ([' '] ++ '}' :: V) := by
    rw [← h]
    simp
  obtain ⟨Q, -, -, -, -, hQ⟩ := exists_gap_of_mapGaps keepsBlank_finishRule (by decide)
    (by decide) (by decide) hgap
  rw [finishRule_semicolon] at hQ
  cases hQ

theorem aggressive_aggressive (s : Text) : aggressive (aggressive s) = aggressive s := by
  rw [aggressive_eq_finish (aggressive s),
    deleteLineComments_of_absent (slashes_not_infix_aggressive s)]
  have hunclosed := unclosed_aggressive s
  rw [aggressive_eq_finish] at hunclosed ⊢
  exact finish_of_unclosed hunclosed

/-- No line comment is left of a script and no block comment. Its only blanks are
single spaces, none at its ends and none between a semicolon and a brace. And so the
rules leave it as it is. -/
theorem aggressive_normalForm (s : Text) :
    ¬ ['/', '/'] <:+: aggressive s ∧
      (∀ u t v, aggressive s ≠ u ++ '/' :: '*' :: (t ++ '*' :: '/' :: v)) ∧
      (∀ c ∈ aggressive s, isBlank c = true → c = ' ') ∧
      ¬ [' ', ' '] <:+: aggressive s ∧
      (aggressive s).head? ≠ some ' ' ∧ (aggressive s).getLast? ≠ some ' ' ∧
      ¬ [';', ' ', '}'] <:+: aggressive s ∧
      aggressive (aggressive s) = aggressive s := by
  have hspaced := spaced_aggressive s
  exact ⟨slashes_not_infix_aggressive s, unclosed_iff_ne_append.1 (unclosed_aggressive s),
    fun _ hc hb => hspaced.eq_space hc hb, hspaced.not_infix, hspaced.head?_ne,
    hspaced.getLast?_ne, semicolon_brace_not_infix_aggressive s, aggressive_aggressive s⟩

end HtmlMinifier.Script
