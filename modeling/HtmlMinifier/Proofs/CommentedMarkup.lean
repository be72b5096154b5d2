import HtmlMinifier.Proofs.ConditionalComments
import Mathlib.Data.List.Chain

/-!
# Markup given by its comments

Here a document is given by its parts: texts, comments that have to go, and
conditional comments. A part is told by its own text, whatever stands next to it.
A text may have closers in it and may end with the start of an opener, a comment
may hide the opener of a conditional one, and the end of a conditional comment is
for the scan no more than text. The scan takes the parts for what they are, one
after another (`Part.strip_text_append`), so it leaves the texts and the
conditional comments (`Part.deleteUnconditional_source`).

Two texts must not stand side by side, since the second could complete what the
first one ends with. Any other part starts with `<`, and no opener goes on with
that.
-/

namespace HtmlMinifier.Comment

/-- The mark that ends what a conditional comment has in it. -/
def conditionEnd : Text := ['<', '!', '[', 'e', 'n', 'd', 'i', 'f', ']'] ++ closer

/-- Text in which no comment is opened. -/
structure Passage where
  text : Text
  opener_absent : ¬ opener <:+: text

/-- What a comment that has to go has in it. -/
structure Remark where
  text : Text
  closer_absent : ¬ closer <:+: text
  unconditional : ¬ ['[', 'i', 'f'] <+: text

/-- What a conditional comment has in it, its condition first. -/
structure Conditional where
  text : Text
  opener_absent : ¬ opener <:+: text

/-- A part of a document. -/
inductive Part where
  | passage (passage : Passage)
  | remark (remark : Remark)
  | conditional (conditional : Conditional)

/-! ## One part and what follows it -/

/-- What has no opener is copied up to a character that no opener has. -/
theorem strip_append_cons_of_absent {a s : Text} {c : Char} (h : ¬ opener <:+: a)
    (hc : c ∉ opener) : strip (a ++ c :: s) = a ++ c :: strip s := by
  rw [List.append_cons, strip_append, ← List.append_cons]
  intro p hp hr
  have hle : p ≤ a.length := by simpa [Nat.lt_succ_iff] using hp
  have hopen := hr.1
  rw [← List.append_cons, List.drop_append_of_le_length hle] at hopen
  exact h ((prefix_of_prefix_append hc hopen).isInfix.trans (List.drop_suffix p a).isInfix)

theorem Remark.not_conditional (r : Remark) (s : Text) :
    ¬ conditionalOpener <+: opener ++ (r.text ++ closer ++ s) := by
  intro h
  have hcondition : ['[', 'i', 'f'] <+: r.text ++ '-' :: ('-' :: '>' :: s) := by
    simpa [conditionalOpener, opener, closer] using h
  exact r.unconditional (prefix_of_prefix_append (by decide) hcondition)

/-- A comment ends where it is closed, even if hyphens stand before the closer. -/
theorem Remark.strip_append (r : Remark) (s : Text) :
    strip (opener ++ (r.text ++ closer ++ s)) = strip s := by
  have hclose : ¬ closer <:+: r.text ++ closer.dropLast :=
    not_infix_append_of_last_not_mem (l := ['-', '-']) (by decide) r.closer_absent
  exact strip_comment (r.not_conditional s) (shortest_of_absent hclose)

/-- A conditional comment is copied. Its end is text without an opener, and so is
what the scan goes on with once it has passed the first character. -/
theorem Conditional.strip_append (c : Conditional) (s : Text) :
    strip (conditionalOpener ++ (c.text ++ conditionEnd ++ s)) =
      conditionalOpener ++ (c.text ++ conditionEnd ++ strip s) := by
  have hend : ¬ opener <:+: c.text ++
      ['<', '!', '[', 'e', 'n', 'd', 'i', 'f', ']', '-', '-'] :=
    not_infix_append_cons (by decide) c.opener_absent (by decide)
  have hpassed : ¬ opener <:+: ['!', '-', '-', '[', 'i', 'f'] ++ (c.text ++
      ['<', '!', '[', 'e', 'n', 'd', 'i', 'f', ']', '-', '-']) :=
    not_infix_append_of_not_mem (by decide) hend
  have hpass : strip (conditionalOpener ++ (c.text ++ conditionEnd ++ s)) =
      '<' :: strip (['!', '-', '-', '[', 'i', 'f'] ++ (c.text ++ conditionEnd ++ s)) :=
    strip_conditional (a := []) nofun (List.prefix_append conditionalOpener _)
  have hcopy := strip_append_cons_of_absent (c := '>') (s := s) hpassed (by decide)
  rw [hpass]
  simpa [conditionalOpener, conditionEnd, closer] using congrArg ('<' :: ·) hcopy

namespace Part

def text : Part → Text
  | passage t => t.text
  | remark r => opener ++ r.text ++ closer
  | conditional c => conditionalOpener ++ c.text ++ conditionEnd

/-- What is to be left of a part. -/
def left : Part → Text
  | passage t => t.text
  | remark _ => []
  | conditional c => conditionalOpener ++ c.text ++ conditionEnd

def IsPassage : Part → Prop
  | passage _ => True
  | remark _ => False
  | conditional _ => False

/-- A document with these parts. -/
def source (ps : List Part) : Text := ps.flatMap text

/-- No two texts stand side by side. -/
def Separated (ps : List Part) : Prop := ps.IsChain fun p q => ¬ (p.IsPassage ∧ q.IsPassage)

theorem exists_text_eq_cons {p : Part} (h : ¬ p.IsPassage) : ∃ t, p.text = '<' :: t := by
  cases p with
  | passage t => exact absurd trivial h
  | remark r => exact ⟨_, rfl⟩
  | conditional c => exact ⟨_, rfl⟩

/-- What comes after a text is another part, or nothing. -/
theorem Separated.source_cases {p : Part} {ps : List Part} (h : Separated (p :: ps))
    (hp : p.IsPassage) : source ps = [] ∨ ∃ s, source ps = '<' :: s := by
  cases ps with
  | nil => exact .inl rfl
  | cons q ps =>
      have hq : ¬ q.IsPassage := fun hq => (List.isChain_cons_cons.1 h).1 ⟨hp, hq⟩
      obtain ⟨t, ht⟩ := exists_text_eq_cons hq
      exact .inr ⟨t ++ source ps, by rw [source, List.flatMap_cons, ht]; rfl⟩

/-- The scan takes a part for what it is, and goes on after it. -/
theorem strip_text_append {p : Part} {s : Text}
    (h : p.IsPassage → s = [] ∨ ∃ t, s = '<' :: t) :
    strip (p.text ++ s) = p.left ++ strip s := by
  cases p with
  | passage t =>
      rcases h trivial with rfl | ⟨u, rfl⟩
      · rw [List.append_nil, text, strip_of_none (not_removable_of_absent t.opener_absent)]
        exact (List.append_nil t.text).symm
      · exact strip_append_of_absent t.opener_absent
  | remark r =>
      rw [text, List.append_assoc opener, List.append_assoc opener]
      exact r.strip_append s
  | conditional c =>
      rw [text, List.append_assoc conditionalOpener, List.append_assoc conditionalOpener,
        c.strip_append s, left]
      simp only [List.append_assoc]

/-- The scan leaves the texts and the conditional comments of a document, as they
are and in their order. -/
theorem deleteUnconditional_source {ps : List Part} (h : Separated ps) :
    deleteUnconditional (source ps) = ps.flatMap left := by
  rw [deleteUnconditional_eq_strip]
  induction ps with
  | nil => rfl
  | cons p ps ih =>
      rw [source, List.flatMap_cons, ← source, strip_text_append h.source_cases,
        ih (List.IsChain.tail h)]
      rfl

/-- Openers and closers wherever they mean nothing, and half of an opener before
each comment. -/
theorem deleteUnconditional_source_mixed :
    deleteUnconditional
        "--><!-<!-->[if <!-- <!--[if -->--><!--[if IE]>--><!<![endif]--><!--->--><!".toList =
      "--><!---><!--[if IE]>--><!<![endif]--><!".toList := by
  have h : Separated [.passage ⟨"--><!-".toList, by decide +kernel⟩,
      .remark ⟨">[if <!-- <!--[if ".toList, by decide +kernel, by decide +kernel⟩,
      .passage ⟨"-->".toList, by decide +kernel⟩,
      .conditional ⟨" IE]>--><!".toList, by decide +kernel⟩,
      .remark ⟨"->".toList, by decide +kernel, by decide +kernel⟩,
      .passage ⟨"<!".toList, by decide +kernel⟩] := by
    simp [Separated, IsPassage]
  exact Eq.trans (congrArg deleteUnconditional (by decide +kernel))
    ((deleteUnconditional_source h).trans (by decide +kernel))

end Part

end HtmlMinifier.Comment
