import HtmlMinifier.Proofs.AggressiveContent
import HtmlMinifier.Proofs.Provenance

/-!
# Single spaces

Every blank of an aggressive document is a space between two characters that are
not blank. Flattening, closing gaps and trimming see to that, but they are not
the last passes: the two that follow rewrite style sheets and scripts, inside
the document and from end to end.

Whether a blank may stand at a place depends on what was read before it and on
nothing else, so a text is checked by reading it once (`spacing`). A pass that
replaces occurrences is harmless if what it puts in can stand anywhere and, like
the occurrence, has no blank at its end: then the reading goes on after it as it
did before (`spacing_replaceFrom`). Tags are such ends. The content between them
is again a text with single spaces only, since the aggressive rules flatten and
trim it for themselves.
-/

namespace HtmlMinifier

namespace Text

/-- Reads a text in which a blank has to be a space between two other
characters. The flag is set where no blank may come next: at the start, and
after a blank. There is no answer if one comes all the same. -/
def spacing : (tight : Bool) → Text → Option Bool
  | tight, [] => some tight
  | tight, c :: s =>
    if isBlank c then
      if tight = false ∧ c = ' ' then spacing true s else none
    else spacing false s

variable {a b x : Bool} {c : Char} {s t : Text}

theorem spacing_cons (hc : isBlank c = false) :
    spacing a (c :: s) = spacing false s := by
  rw [spacing, if_neg (by simp [hc])]

theorem spacing_space : spacing false (' ' :: s) = spacing true s := by
  rw [spacing, if_pos (by decide), if_pos ⟨rfl, rfl⟩]

theorem spacing_append :
    spacing a (s ++ t) = (spacing a s).bind fun b => spacing b t := by
  induction s generalizing a with
  | nil => rfl
  | cons c s ih =>
      rw [List.cons_append, spacing, spacing]
      split
      · split
        · exact ih
        · rfl
      · exact ih

/-- Where a blank is forbidden it may be allowed. -/
theorem spacing_loose (h : spacing true s = some false) :
    spacing a s = some false := by
  cases s with
  | nil => cases h
  | cons c s =>
      rw [spacing] at h
      split at h
      · rw [if_neg (by simp)] at h
        cases h
      · next hc =>
          rw [spacing_cons (by simpa using hc)]
          exact h

theorem spacing_unbroken (hne : s ≠ []) (hs : Unbroken s) :
    spacing a s = some false := by
  induction s generalizing a with
  | nil => exact absurd rfl hne
  | cons c s ih =>
      obtain ⟨hc, hs⟩ := unbroken_cons.1 hs
      rw [spacing_cons hc]
      cases s with
      | nil => rfl
      | cons d s => exact ih (List.cons_ne_nil d s) hs

/-- A blank that is read is a space, and the reading before it ended without
one. -/
theorem spacing_blank_cons (hc : isBlank c = true)
    (h : spacing a (c :: s) = some x) :
    a = false ∧ c = ' ' ∧ spacing true s = some x := by
  rw [spacing, if_pos hc] at h
  split at h
  · next hac => exact ⟨hac.1, hac.2, h⟩
  · cases h

theorem exists_spacing_append (h : spacing a (s ++ t) = some x) :
    ∃ b, spacing a s = some b ∧ spacing b t = some x := by
  rw [spacing_append] at h
  exact Option.bind_eq_some_iff.1 h

/-! ## Flattened and trimmed texts -/

theorem flattenBlanks_of_spacing (h : spacing a s = some x) :
    s.flattenBlanks = s := by
  have hrun : ∀ {R t : Text} {b y : Bool}, AllBlank R →
      spacing b (R ++ t) = some y → R.flattenBlanks = R := by
    intro R t b y hR hread
    cases R with
    | nil => rfl
    | cons c R =>
        obtain ⟨hc, hR'⟩ := allBlank_cons.1 hR
        obtain ⟨-, rfl, htail⟩ := spacing_blank_cons hc hread
        rw [flattenBlanks_of_allBlank hR (List.cons_ne_nil ' ' R)]
        cases R with
        | nil => rfl
        | cons d R =>
            -- No blank may follow the first.
            obtain ⟨hfalse, -, -⟩ := spacing_blank_cons (allBlank_cons.1 hR').1 htail
            cases hfalse
  induction s using gap_induction generalizing a with
  | blanks R hR =>
      rw [← List.append_nil R] at h
      exact hrun hR h
  | cons R c s hR hc ih =>
      obtain ⟨b, -, hrest⟩ := exists_spacing_append h
      rw [spacing_cons hc] at hrest
      rw [flattenBlanks_append_cons hc, hrun hR h, ih hrest]

theorem exists_spacing_flattenBlanks (s : Text) :
    ∃ x, spacing false s.flattenBlanks = some x := by
  induction s using gap_induction with
  | blanks R hR =>
      by_cases h : R = []
      · exact ⟨false, by rw [h]; rfl⟩
      · exact ⟨true, by rw [flattenBlanks_of_allBlank hR h]; rfl⟩
  | cons R c s hR hc ih =>
      obtain ⟨x, hx⟩ := ih
      refine ⟨x, ?_⟩
      rw [flattenBlanks_append_cons hc]
      by_cases h : R = []
      · rw [h]
        exact (spacing_cons hc).trans hx
      · rw [flattenBlanks_of_allBlank hR h]
        exact spacing_space.trans ((spacing_cons hc).trans hx)

/-- A text with single spaces only, none of them at its ends. -/
def Spaced (s : Text) : Prop := s = [] ∨ spacing true s = some false

theorem Spaced.spacing_eq (h : Spaced s) : spacing false s = some false := by
  rcases h with rfl | h
  · rfl
  · exact spacing_loose h

section Rule

variable {g : GapRule}

/-- A rule that leaves of a gap nothing or a space, and nothing at the ends. -/
structure Spaces (g : GapRule) : Prop where
  inner : ∀ l R r, g (some l) R (some r) = [] ∨ g (some l) R (some r) = [' ']
  ends : ∀ l R r, l = none ∨ r = none → g l R r = []

theorem Spaces.spacing_mapGaps (hg : Spaces g) (s : Text) : ∀ {l : Char},
    spacing false (mapGaps g (some l) none s) = some false := by
  induction s using gap_induction with
  | blanks R hR =>
      intro l
      rw [mapGaps_blanks hR, hg.ends _ _ _ (.inr rfl)]
      rfl
  | cons R c s hR hc ih =>
      intro l
      rw [mapGaps_gap hR hc]
      rcases hg.inner l R c with h | h
      · rw [h]
        exact (spacing_cons hc).trans ih
      · rw [h]
        exact spacing_space.trans ((spacing_cons hc).trans ih)

theorem Spaces.spaced_mapGaps (hg : Spaces g) (s : Text) :
    Spaced (mapGaps g none none s) := by
  rcases allBlank_or_exists s with h | ⟨R, c, t, rfl, hR, hc⟩
  · rw [mapGaps_blanks h, hg.ends _ _ _ (.inl rfl)]
    exact .inl rfl
  · rw [mapGaps_gap hR hc, hg.ends _ _ _ (.inl rfl)]
    exact .inr ((spacing_cons hc).trans (hg.spacing_mapGaps t))

/-- Flattening first and trimming last make such a rule of any rule that
empties some gaps. -/
theorem spaces_thenGap (hg : ∀ l R r, g l R r = [] ∨ g l R r = R) :
    Spaces (thenGap flatRule (thenGap g endRule)) where
  inner l R r := by
    rw [thenGap, thenGap, endRule, if_neg (by simp)]
    rcases hg (some l) (flatRule (some l) R (some r)) (some r) with h | h
    · exact .inl h
    · rw [h]
      by_cases hne : R = []
      · exact .inl (by rw [hne, flatRule_nil])
      · exact .inr (flatRule_of_ne_nil hne)
  ends _ _ _ h := if_pos h

theorem spaced_trim (hg : ∀ l R r, g l R r = [] ∨ g l R r = R) (s : Text) :
    Spaced (Text.trim (mapGaps g none none s.flattenBlanks)) := by
  rw [trim_eq_mapGaps, flattenBlanks_eq_mapGaps,
    mapGaps_mapGaps (keepsBlank_of_cases hg), mapGaps_mapGaps keepsBlank_flatRule]
  exact (spaces_thenGap hg).spaced_mapGaps s

end Rule

/-! ## What a spaced text looks like -/

theorem Spaced.eq_space (h : Spaced s) (hc : c ∈ s) (hb : isBlank c = true) :
    c = ' ' := by
  obtain ⟨u, v, rfl⟩ := List.append_of_mem hc
  obtain ⟨b, -, hread⟩ := exists_spacing_append h.spacing_eq
  exact (spacing_blank_cons hb hread).2.1

theorem Spaced.not_infix (h : Spaced s) : ¬ [' ', ' '] <:+: s := by
  rintro ⟨u, v, rfl⟩
  have hread := h.spacing_eq
  rw [List.append_assoc] at hread
  obtain ⟨b, -, hread⟩ := exists_spacing_append hread
  obtain ⟨-, -, hread⟩ := spacing_blank_cons (by decide) hread
  obtain ⟨hfalse, -, -⟩ := spacing_blank_cons (by decide) hread
  cases hfalse

theorem Spaced.head?_ne (h : Spaced s) : s.head? ≠ some ' ' := by
  rcases h with rfl | h
  · simp
  · intro hhead
    obtain ⟨t, rfl⟩ := List.head?_eq_some_iff.1 hhead
    obtain ⟨hfalse, -, -⟩ := spacing_blank_cons (by decide) h
    cases hfalse

theorem Spaced.getLast?_ne (h : Spaced s) : s.getLast? ≠ some ' ' := by
  intro hlast
  obtain ⟨t, rfl⟩ := List.getLast?_eq_some_iff.1 hlast
  obtain ⟨b, -, hread⟩ := exists_spacing_append h.spacing_eq
  obtain ⟨-, -, hend⟩ := spacing_blank_cons (by decide) hread
  cases hend

end Text

open Text

namespace Pattern

/-- Where the occurrences end without a blank, and what replaces them can stand
anywhere and ends without one too, the rest of the text is read as before. -/
theorem spacing_replaceFrom {p : Pattern} {f : Occurrence → Text}
    (h : ∀ b s o, p.read? b s = some o →
      (∀ a x, spacing a o.text = some x → x = false) ∧
        ∀ a, spacing a (f o) = some false)
    (b : Bool) (s : Text) : ∀ {a x : Bool}, spacing a s = some x →
      spacing a (p.replaceFrom f b s) = some x := by
  induction b, s using p.search_induction with
  | nil b => exact fun hs => hs
  | plain b c s hread ih =>
      intro a x hs
      rw [replaceFrom_plain hread]
      cases hc : isBlank c with
      | true =>
          obtain ⟨rfl, rfl, hs⟩ := spacing_blank_cons hc hs
          exact spacing_space.trans (ih hs)
      | false =>
          rw [spacing_cons hc] at hs ⊢
          exact ih hs
  | hit b o r hread ih =>
      intro a x hs
      obtain ⟨hend, hf⟩ := h _ _ _ hread
      obtain ⟨y, hy, hr⟩ := exists_spacing_append hs
      obtain rfl := hend a y hy
      rw [replaceFrom_hit hread, spacing_append, hf a]
      exact ih hr

end Pattern

/-! ## The content of elements -/

namespace Stylesheet

theorem spacing_dropLastSemicolons {a x : Bool} {s : Text}
    (h : spacing a s = some x) : spacing a (dropLastSemicolons s) = some x := by
  refine Pattern.spacing_replaceFrom (fun b s o ho => ⟨fun a x hx => ?_, ?_⟩) true s h
  · obtain ⟨u, hu⟩ : ∃ u, o.text = u ++ ['}'] := by
      simp only [lastSemicolon] at ho
      split at ho
      · split at ho
        · obtain rfl := Option.some.inj ho
          exact ⟨_, rfl⟩
        · cases ho
      · cases ho
    rw [hu] at hx
    obtain ⟨y, -, hx⟩ := exists_spacing_append hx
    rw [spacing_cons (by decide)] at hx
    exact (Option.some.inj hx).symm
  · exact fun a => spacing_cons (by decide)

theorem spaced_aggressive (s : Text) : Spaced (aggressive s) := by
  obtain ⟨x, hx⟩ := exists_spacing_flattenBlanks (Pattern.blockComment.delete s)
  have hflat := flattenBlanks_of_spacing (spacing_dropLastSemicolons hx)
  rw [aggressive_eq, tightenMarks_eq_mapGaps, ← hflat]
  exact spaced_trim (fun l R r => markRule_cases l r R) _

end Stylesheet

namespace Script

theorem spaced_aggressive (s : Text) : Spaced (aggressive s) := by
  rw [aggressive_eq_finish, finish, tightenLastSemicolons_eq_mapGaps]
  refine spaced_trim (fun l R r => ?_) _
  rw [Pattern.gapRule]
  split
  · exact .inl rfl
  · exact .inr rfl

end Script

namespace Element

variable {e : Element} {f : Text → Text}

theorem spaced_mapContent (hf : ∀ s, Spaced (f s)) {s : Text} (hs : Spaced s) :
    Spaced (e.mapContent f s) := by
  rcases hs with rfl | hs
  · exact .inl rfl
  · refine .inr (Pattern.spacing_replaceFrom
      (fun b s o ho => ⟨fun a x hx => ?_, fun a => ?_⟩) true s hs)
    · obtain ⟨m, A, -, -, hclose⟩ := exists_tags_of_read? ho
      have hne : o.closing ≠ [] := by
        intro hnil
        rw [hnil] at hclose
        cases hclose
      obtain ⟨y, -, hx⟩ := exists_spacing_append hx
      rw [spacing_unbroken hne
        (unbroken_of_map_foldCase hclose e.unbroken_closingTag)] at hx
      exact (Option.some.inj hx).symm
    · rw [wrap, spacing_append, spacing_append,
        spacing_unbroken (by simp [openingTag]) e.unbroken_openingTag,
        Option.bind_some, (hf o.inner).spacing_eq, Option.bind_some,
        spacing_unbroken (by simp [closingTag]) e.unbroken_closingTag]

end Element

namespace Document

theorem spaced_minify_aggressive (s : Text) : Spaced (minify .aggressive s) := by
  rw [minify_aggressive_eq, closeTagGaps_eq_mapGaps]
  exact Element.spaced_mapContent Script.spaced_aggressive
    (Element.spaced_mapContent Stylesheet.spaced_aggressive
      (spaced_trim (fun l R r => tagRule_cases l r R) _))

/-- The only blanks of an aggressive document are single spaces, and none of
them stands at either end. -/
theorem minify_aggressive_spaces (s : Text) :
    (∀ c ∈ minify .aggressive s, isBlank c = true → c = ' ') ∧
      ¬ [' ', ' '] <:+: minify .aggressive s ∧
      (minify .aggressive s).head? ≠ some ' ' ∧
      (minify .aggressive s).getLast? ≠ some ' ' := by
  have h := spaced_minify_aggressive s
  exact ⟨fun _ hc hb => h.eq_space hc hb, h.not_infix, h.head?_ne, h.getLast?_ne⟩

end Document

end HtmlMinifier
