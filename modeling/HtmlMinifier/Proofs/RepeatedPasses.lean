import HtmlMinifier.Proofs.HeldMarks
import Mathlib.Data.Finset.Range
import Mathlib.Data.Finset.Card
import Mathlib.Logic.Function.Iterate

/-!
# Comments that are left when a document is minified again

A pass deletes the comments it finds, and what stood around one of them then
stands side by side. If this was an opener in two parts, the next pass finds a
comment that was not there before. It takes an exclamation mark that stands
loose. Where all of them are held by a neighbour, outside the comments of the
first pass, no pass leaves a comment (`minify_structured_free`).

Otherwise no number of passes is enough for every document, since the comment
between the two parts can have been put together in the same way: of `nested`
each pass takes off one layer and leaves the next. For one document some number
is enough. A pass over a text with a comment takes at least its two markers
away, seven bytes, and no pass makes a text longer, so not more than one pass for
every seven bytes of the document can find a comment (`card_not_free_le`). The
bound is sharp, because the layers of `nested` have seven bytes each.
-/

namespace HtmlMinifier

namespace Comment

open Text

/-- No comment that has to go is left. -/
def Free (s : Text) : Prop := ∀ p, ¬ Removable (s.drop p)

theorem free_iff {s : Text} :
    Free s ↔ ∀ p < s.length, ¬ Removable (s.drop p) := by
  constructor
  · exact fun h p _ => h p
  · intro h p
    by_cases hp : p < s.length
    · exact h p hp
    · rw [List.drop_eq_nil_of_le (Nat.le_of_not_lt hp)]
      exact fun hr => absurd hr.1 (by decide)

instance : DecidablePred Removable := fun s =>
  inferInstanceAs (Decidable (opener <+: s ∧ ¬ conditionalOpener <+: s ∧
    closer <:+: s.drop opener.length))

instance : DecidablePred Free := fun _ => decidable_of_iff _ free_iff.symm

/-- The scan takes at least the markers of one comment away, if there is one. -/
theorem byteSize_strip_add_seven_le {s : Text} (h : ¬ Free s) :
    byteSize (strip s) + 7 ≤ byteSize s := by
  have hs := stripped_strip s
  generalize strip s = t at hs
  cases hs with
  | rest hnone => exact absurd hnone h
  | @comment a c r t _ _ _ hnext =>
      have ht : byteSize t ≤ byteSize r := by
        rw [hnext.eq_strip]
        exact (Pattern.drawnFrom_delete r).byteSize_le
      have hopen : byteSize opener = 4 := rfl
      have hclose : byteSize closer = 3 := rfl
      simp only [byteSize_append]
      omega

theorem held_strip {s : Text} (h : Held none s) : Held none (strip s) :=
  Pattern.spares_unconditional.held_replaceWith h

/-- A comment opener has an exclamation mark that is held only if it is
conditional. -/
theorem free_of_held {s : Text} (h : Held none s) : Free s := by
  rintro p ⟨⟨t, ht⟩, hplain, -⟩
  rw [← List.take_append_drop p s, ← ht] at h
  rw [← ht] at hplain
  have hmark := (held_cons.1 (held_cons.1 (held_of_append h)).2).1 rfl
  rcases hmark with ⟨c, hc, hholds⟩ | ⟨c, hc, hholds⟩ | hcondition
  · obtain rfl := Option.some.inj hc
    exact absurd hholds (by decide)
  · obtain rfl := Option.some.inj hc
    exact absurd hholds (by decide)
  · exact hplain ((List.prefix_append_right_inj ['<', '!']).2 hcondition)

/-! ## Comments in layers -/

/-- A comment in an opener in a comment in an opener, and so on, in as many
layers. -/
def nested : Nat → Text
  | 0 => []
  | n + 1 => ['<', '!'] ++ (nested n ++ ['-', '-', '-', '-', '>'])

theorem byteSize_nested (n : Nat) : byteSize (nested n) = 7 * n := by
  induction n with
  | zero => rfl
  | succ n ih =>
      have hfront : byteSize ['<', '!'] = 2 := rfl
      have hback : byteSize ['-', '-', '-', '-', '>'] = 5 := rfl
      rw [nested, byteSize_append, byteSize_append, ih]
      omega

theorem mem_nested {n : Nat} {c : Char} (h : c ∈ nested n) :
    c ∈ ['<', '!', '-', '>'] := by
  induction n with
  | zero => cases h
  | succ n ih =>
      rw [nested, List.mem_append, List.mem_append] at h
      rcases h with h | h | h
      · exact List.mem_append_left ['-', '>'] h
      · exact ih h
      · exact (List.subset_def.1 (by decide) : ∀ {x}, x ∈ ['-', '-', '-', '-', '>'] →
          x ∈ ['<', '!', '-', '>']) h

/-- Only the innermost layer is a comment as it stands, and when it goes, the
one around it has its markers. -/
theorem strip_nested_append {n : Nat} : ∀ {t : Text}, '<' ∉ t →
    strip (nested (n + 1) ++ t) = nested n ++ t := by
  induction n with
  | zero =>
      intro t ht
      have hcomment := strip_comment (c := []) (r := t) (by simp [opener, closer,
        conditionalOpener]) nofun
      exact hcomment.trans (strip_of_none
        (not_removable_of_absent (not_infix_of_not_mem ht)))
  | succ n ih =>
      intro t ht
      have hback : '<' ∉ ['-', '-', '-', '-', '>'] ++ t := by simpa using ht
      have hfront : ∀ p < (['<', '!'] : Text).length, ¬ Removable
          ((['<', '!'] ++ (nested (n + 1) ++ (['-', '-', '-', '-', '>'] ++ t))).drop p) := by
        intro p hp hr
        have hopen := hr.1
        have hplace : p = 0 ∨ p = 1 := by
          rw [List.length_cons, List.length_singleton] at hp
          omega
        rcases hplace with rfl | rfl
        · simp [opener, nested] at hopen
        · simp [opener] at hopen
      have hcut := strip_append hfront
      rw [ih hback] at hcut
      rw [nested, List.append_assoc, List.append_assoc, hcut, nested]
      simp

theorem strip_nested (n : Nat) : strip (nested (n + 1)) = nested n := by
  have h := strip_nested_append (n := n) (t := []) List.not_mem_nil
  rwa [List.append_nil, List.append_nil] at h

theorem not_free_nested (n : Nat) : ¬ Free (nested (n + 1)) := by
  intro h
  have hsame := congrArg byteSize ((strip_nested n).symm.trans (strip_of_none h))
  rw [byteSize_nested, byteSize_nested] at hsame
  omega

end Comment

namespace Document

open Text Comment

/-! ## One pass -/

theorem free_of_free_dropMark {s : Text} (h : Free (dropMark s)) : Free s := by
  cases s with
  | nil => exact h
  | cons c s =>
      rw [dropMark] at h
      split at h
      · next hc =>
        subst hc
        intro p
        cases p with
        | zero => exact fun hr => absurd hr.1 (by simp [opener, byteOrderMark])
        | succ p => exact h p
      · exact h

/-- What the comment scan leaves decides whether marks are held. -/
theorem held_minify {s : Text} (h : Held none (strip (dropMark s))) :
    Held none (minify .structured s) := by
  rw [minify, rules]
  exact held_structured_strip h

/-- If all exclamation marks outside of comments are held, no pass leaves a
comment. -/
theorem minify_structured_free {s : Text} (h : Held none (strip (dropMark s)))
    (n : Nat) : Free ((minify .structured)^[n + 1] s) := by
  have hheld : Held none ((minify .structured)^[n + 1] s) := by
    induction n with
    | zero =>
        rw [Function.iterate_succ_apply', Function.iterate_zero_apply]
        exact held_minify h
    | succ n ih =>
        rw [Function.iterate_succ_apply']
        exact held_minify (held_strip (held_dropMark ih))
  exact free_of_held hheld

theorem minify_structured_free_doctype :
    Free ((minify .structured)^[2] ("<!DOCTYPE html>\n<!-- <!-- Hi! -->\n<p>Hi!</p>\n".toList ++
      "<!--[if IE]><script>a != !b</script><![endif]-->".toList)) :=
  minify_structured_free (by decide +kernel) 1

/-- Two passes do not leave every document without comments. -/
theorem minify_structured_twice_not_free :
    ¬ ∀ s : Text, Free (minify .structured (minify .structured s)) := by
  intro h
  exact absurd (h "<p>a</p><!<!<!---->---->-- note --><p>b</p>".toList)
    (by decide +kernel)

/-- A text with a comment is shorter after a pass. -/
theorem byteSize_minify_add_seven_le {s : Text} (h : ¬ Free s) :
    byteSize (minify .structured s) + 7 ≤ byteSize s := by
  have hstrip := byteSize_strip_add_seven_le fun hfree => h (free_of_free_dropMark hfree)
  have hpasses := (drawnFrom_structured_strip (dropMark s)).byteSize_le
  have hmark := byteSize_dropMark s
  rw [minify, rules]
  omega

/-- A pass takes off the innermost layer, and does nothing else. -/
theorem minify_nested (n : Nat) : minify .structured (nested (n + 1)) = nested n := by
  have hname : ∀ e : Element, ¬ '<' :: e.name <:+: (nested n).map foldCase := by
    intro e h
    have hs : 's' ∈ '<' :: e.name := by cases e <;> decide
    obtain ⟨c, hc, hfold⟩ := List.mem_map.1 (h.subset hs)
    have hnot : ∀ c ∈ ['<', '!', '-', '>'], foldCase c ≠ 's' := by
      simp only [List.forall_mem_cons]
      exact ⟨by decide, by decide, by decide, by decide, nofun⟩
    exact hnot c (mem_nested hc) hfold
  have hunbroken : Unbroken (nested n) := by
    intro c hc
    have hnot : ∀ c ∈ ['<', '!', '-', '>'], isBlank c = false := by
      simp only [List.forall_mem_cons]
      exact ⟨by decide, by decide, by decide, by decide, nofun⟩
    exact hnot c (mem_nested hc)
  rw [minify_structured_eq, dropMark_of_head? (by simp [nested, byteOrderMark]),
    deleteUnconditional_eq_strip, strip_nested, Element.mapContent_of_absent (hname .style),
    Element.mapContent_of_absent (hname .script), layout_eq_mapGaps]
  cases n with
  | zero => rfl
  | succ n =>
      have hgaps : mapGaps layoutRule none none (nested (n + 1) ++ []) =
          nested (n + 1) ++ mapGaps layoutRule (nested (n + 1)).getLast? none [] :=
        mapGaps_append_of_unbroken layoutRule_nil (by simp [nested]) hunbroken []
      rwa [mapGaps_nil, layoutRule_nil, List.append_nil] at hgaps

/-! ## Any number of passes -/

/-- What a document loses in a number of passes, for those among them that leave
a comment to the next. -/
theorem byteSize_iterate_minify (s : Text) (n : Nat) :
    byteSize ((minify .structured)^[n] s) +
      7 * ((Finset.range n).filter fun m => ¬ Free ((minify .structured)^[m] s)).card ≤
        byteSize s := by
  induction n with
  | zero => simp
  | succ n ih =>
      rw [Function.iterate_succ_apply', Finset.range_add_one, Finset.filter_insert]
      split
      · next hfree =>
        have hpass := byteSize_minify_add_seven_le hfree
        rw [Finset.card_insert_of_notMem (by simp)]
        omega
      · have hpass := byteSize_minify_le .structured ((minify .structured)^[n] s)
        omega

theorem iterate_minify_nested (m n : Nat) :
    (minify .structured)^[m] (nested (m + n)) = nested n := by
  induction m with
  | zero => rw [Nat.zero_add]; rfl
  | succ m ih =>
      rw [Function.iterate_succ_apply, Nat.add_right_comm, minify_nested, ih]

/-- No more passes over a document find a comment than it has seven bytes. -/
theorem card_not_free_le (s : Text) (n : Nat) :
    7 * ((Finset.range n).filter fun m => ¬ Free ((minify .structured)^[m] s)).card ≤
      byteSize s :=
  Nat.le_trans (Nat.le_add_left _ _) (byteSize_iterate_minify s n)

/-- There are documents of which as many do. -/
theorem not_free_iterate_minify_nested (m n : Nat) :
    ¬ Free ((minify .structured)^[m] (nested (m + n + 1))) := by
  rw [Nat.add_assoc, iterate_minify_nested]
  exact not_free_nested n

end Document

end HtmlMinifier
