import HtmlMinifier.Text.Pattern

/-!
# Gaps

A gap is a run of blanks, taken as long as it is, between given neighbours: the blanks between two
tags, after a colon, before a closing brace. Most of the rules on blanks are about gaps and differ
only in the neighbours and in how long the run has to be.

The runs of a text are disjoint, so a rule on gaps acts on each run by itself.
-/

namespace HtmlMinifier

namespace Text

/-- The text after the character at its head, if that is the one asked for. When none is asked
for, nothing is taken off. -/
def after? : (c : Option Char) → Text → Option Text
  | none, s => some s
  | some _, [] => none
  | some c, d :: s => if d = c then some s else none

theorem after?_eq_some_iff {c : Option Char} {s r : Text} :
    s.after? c = some r ↔ c.toList ++ r = s := by
  fun_cases after? c s with
  | case1 s => simp [eq_comm]
  | case2 => simp
  | case3 c s => simp [eq_comm]
  | case4 c d s h => simp [Ne.symm h]

end Text

namespace Pattern

/-- The occurrence of a gap at the head of a text. -/
def readGap? (left right : Option Char) (least : Nat) (s : Text) : Option Occurrence :=
  match s.after? left with
  | none => none
  | some t =>
    if least ≤ t.leadingBlanks.length then
      match t.trimStart.after? right with
      | none => none
      | some _ => some ⟨left.toList, t.leadingBlanks, right.toList⟩
    else none

/-- The text at whose head a gap is read is the left neighbour, all blanks that follow, the right
neighbour and a rest. -/
theorem readGap?_eq_some_iff {left right : Option Char} {least : Nat} {s : Text} {o : Occurrence} :
    readGap? left right least s = some o ↔
      ∃ t r : Text, left.toList ++ t = s ∧ least ≤ t.leadingBlanks.length ∧
        right.toList ++ r = t.trimStart ∧ o = ⟨left.toList, t.leadingBlanks, right.toList⟩ := by
  rw [readGap?]
  constructor
  · intro h
    split at h
    next => cases h
    next t ht =>
      split at h
      next hlen =>
        split at h
        next => cases h
        next r hr =>
          exact ⟨t, r, Text.after?_eq_some_iff.1 ht, hlen, Text.after?_eq_some_iff.1 hr,
            (Option.some.inj h).symm⟩
      next => cases h
  · rintro ⟨t, r, ht, hlen, hr, rfl⟩
    rw [Text.after?_eq_some_iff.2 ht]
    simp only [if_pos hlen, Text.after?_eq_some_iff.2 hr]

/-- A run of at least `least` blanks after the character `left` and before the character `right`;
either neighbour may be left open. -/
def gap (left right : Option Char) (least : Nat)
    (nonempty : 0 < least ∨ left.isSome ∨ right.isSome := by decide) : Pattern where
  read? _ s := readGap? left right least s
  text_prefix h := by
    obtain ⟨t, r, rfl, -, hr, rfl⟩ := readGap?_eq_some_iff.1 h
    refine ⟨r, ?_⟩
    rw [Occurrence.text, List.append_assoc, List.append_assoc, hr,
      Text.leadingBlanks_append_trimStart]
  text_ne_nil h := by
    obtain ⟨t, r, rfl, hlen, -, rfl⟩ := readGap?_eq_some_iff.1 h
    intro e
    simp only [Occurrence.text, List.append_eq_nil_iff] at e
    obtain ⟨⟨hl, ht⟩, hr⟩ := e
    rw [ht] at hlen
    cases left with
    | some _ => cases hl
    | none =>
      cases right with
      | some _ => cases hr
      | none => rcases nonempty with h | h | h <;> simp_all

/-- Any run of blanks. -/
def blanks : Pattern := gap none none 1

/-- A run of two blanks or more. -/
def widerBlanks : Pattern := gap none none 2

end Pattern

/-- Any run of blanks becomes one space. -/
def Text.flattenBlanks : Text → Text := Pattern.blanks.replace [' ']

end HtmlMinifier
