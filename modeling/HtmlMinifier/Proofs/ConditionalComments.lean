import HtmlMinifier.Proofs.CommentScan
import HtmlMinifier.Proofs.ElementSearch

/-!
# Conditional comments that reveal their content

A browser that knows conditional comments reads `<!--[if …]><!-->` as one
opener, any other reads a comment that is over at once, and goes on to the
content. The scan is of neither kind. It passes the conditional opener by one
character, and the next opener it meets is the plain one inside. For that one it
looks for a closer after `<!--`, so it does not see the one right there, which
begins with the same hyphens. The first closer it can see is the one of
`<!--<![endif]-->`, and everything up to there goes: the content, and the mark
that ends the condition. The opener stays, so what follows is left inside a
comment that was closed before.

All openers begin with `<` and have no second one, so the text is cut before
each `<` that opens something, and what stands between is copied.
-/

namespace HtmlMinifier.Comment

/-- Completes a conditional opener for browsers that know it, and closes it for
all others. -/
def revealing : Text := [']', '>'] ++ (opener ++ ['>'])

/-- Ends a condition whose content was revealed. -/
def revealedEnd : Text :=
  opener ++ (['<', '!', '[', 'e', 'n', 'd', 'i', 'f', ']'] ++ closer)

/-- Content under a condition that is shown where conditions are not known. -/
def revealed (condition content : Text) : Text :=
  conditionalOpener ++ condition ++ revealing ++ content ++ revealedEnd

/-- What has no opener is copied up to the next `<`. -/
theorem strip_append_of_absent {a s : Text} (h : ¬ opener <:+: a) :
    strip (a ++ '<' :: s) = a ++ strip ('<' :: s) := by
  refine strip_append fun p hp hr => h ?_
  have hopen := hr.1
  rw [List.drop_append_of_le_length (Nat.le_of_lt hp)] at hopen
  have hin := prefix_of_prefix_append_cons (by decide) (by simpa using hp) hopen
  exact hin.isInfix.trans (List.drop_suffix p a).isInfix

theorem opener_not_infix_condition {condition : Text}
    (h : ¬ opener <:+: condition) :
    ¬ opener <:+: ['!', '-', '-', '[', 'i', 'f'] ++ (condition ++ [']', '>']) := by
  refine not_infix_append_of_not_mem (by decide) ?_
  exact not_infix_append_cons_of_not_mem (by decide) h (by decide)

/-- A conditional opener is copied, with its condition, up to the next `<`. -/
theorem strip_condition {condition s : Text} (h : ¬ opener <:+: condition) :
    strip (conditionalOpener ++ (condition ++ [']', '>'] ++ '<' :: s)) =
      conditionalOpener ++ (condition ++ [']', '>'] ++ strip ('<' :: s)) := by
  have hpass : strip (conditionalOpener ++ (condition ++ [']', '>'] ++ '<' :: s)) =
      '<' :: strip (['!', '-', '-', '[', 'i', 'f'] ++
        (condition ++ [']', '>'] ++ '<' :: s)) :=
    strip_conditional (a := []) nofun (List.prefix_append conditionalOpener _)
  have hcopy := strip_append_of_absent (s := s) (opener_not_infix_condition h)
  rw [List.append_assoc] at hcopy
  rw [hpass, hcopy]
  simp [conditionalOpener]

/-- The first closer after the plain opener is that of the end. -/
theorem closer_not_infix_content {content : Text} (h : ¬ closer <:+: content) :
    ¬ closer <:+: '>' :: (content ++
      (opener ++ ['<', '!', '[', 'e', 'n', 'd', 'i', 'f', ']'])) ++
        closer.dropLast := by
  have hend : ¬ closer <:+: content ++ '<' :: ['!', '-', '-', '<', '!', '[',
      'e', 'n', 'd', 'i', 'f', ']', '-', '-'] :=
    not_infix_append_cons_of_not_mem (by decide) h (by decide)
  have hstart := not_infix_append_of_not_mem (c := '-') (u := ['>']) (by decide) hend
  simpa [opener, closer] using hstart

theorem shortest_of_absent {c r : Text}
    (h : ¬ closer <:+: c ++ closer.dropLast) :
    ∀ p < c.length, ¬ closer <+: (c ++ closer ++ r).drop p := by
  have hcut := (Word.cut?_exact_eq_some_iff_absent (r := r) (List.cons_ne_nil '-' _)).2
    ⟨rfl, rfl, h⟩
  exact List.append_assoc c closer r ▸ (Word.cut?_exact_eq_some_iff.1 hcut).2.2

/-- From the plain opener on everything goes up to the end of the condition. -/
theorem strip_content {content s : Text} (h : ¬ closer <:+: content) :
    strip (opener ++ ('>' :: (content ++ (revealedEnd ++ s)))) = strip s := by
  have hcomment := strip_comment (r := s) (by simp [opener, conditionalOpener])
    (shortest_of_absent (closer_not_infix_content h))
  rw [← hcomment]
  simp [revealedEnd]

/-- Of a conditional comment that reveals its content the scan leaves the
conditional opener only. The content goes, and so does the end of the
condition. -/
theorem deleteUnconditional_revealed {before condition content after : Text}
    (hbefore : ¬ opener <:+: before) (hcondition : ¬ opener <:+: condition)
    (hcontent : ¬ closer <:+: content) (hafter : ¬ opener <:+: after) :
    deleteUnconditional (before ++ revealed condition content ++ after) =
      before ++ (conditionalOpener ++ condition ++ [']', '>']) ++ after := by
  obtain ⟨rest, hrest⟩ : ∃ rest, '<' :: rest =
    opener ++ ('>' :: (content ++ (revealedEnd ++ after))) := ⟨_, rfl⟩
  have htext : before ++ revealed condition content ++ after =
      before ++ (conditionalOpener ++ (condition ++ [']', '>'] ++ '<' :: rest)) := by
    rw [hrest]
    simp [revealed, revealing]
  have hcopy : strip (before ++ (conditionalOpener ++ (condition ++ [']', '>'] ++
      '<' :: rest))) = before ++ strip (conditionalOpener ++ (condition ++ [']', '>'] ++
        '<' :: rest)) := strip_append_of_absent hbefore
  rw [deleteUnconditional_eq_strip, htext, hcopy, strip_condition hcondition, hrest,
    strip_content hcontent, strip_of_none (not_removable_of_absent hafter)]
  simp

theorem deleteUnconditional_revealed_paragraph :
    deleteUnconditional ("<h1>-</h1>".toList ++
        revealed " !IE".toList "<p>a--b</p>".toList ++ "<!-".toList) =
      "<h1>-</h1>".toList ++ (conditionalOpener ++ " !IE".toList ++ [']', '>']) ++
        "<!-".toList :=
  deleteUnconditional_revealed (by decide +kernel) (by decide +kernel)
    (by decide +kernel) (by decide +kernel)

/-- Not all conditional comments are left alone, then. -/
theorem revealed_not_kept :
    ¬ ∀ before condition content after : Text,
      (∀ t ∈ [before, condition, content, after],
        ¬ opener <:+: t ∧ ¬ closer <:+: t) → content ≠ [] →
      deleteUnconditional (before ++ revealed condition content ++ after) =
        before ++ revealed condition content ++ after := by
  intro h
  have hkept := h [] " !IE".toList "<p>Hi</p>".toList [] (by decide +kernel)
    (by decide +kernel)
  exact absurd hkept (by decide +kernel)

end HtmlMinifier.Comment
