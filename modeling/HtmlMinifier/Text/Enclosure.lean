import HtmlMinifier.Text.Pattern
import HtmlMinifier.Text.Word

/-!
# Enclosures

An enclosure is an opener, a body and a closer, where the body goes on up to the first closer
after the opener: comments are of this form, and so are the elements whose content the minifier
treats by itself. Without a closer there is no enclosure, and the opener is plain text.
-/

namespace HtmlMinifier

/-- Reads what opens an enclosure at the head of a text, and leaves the text after it. -/
structure Opener where
  /-- Whether the text starts with what may become an opener. -/
  starts : Text → Bool
  read? : Text → Option (Text × Text)
  append_eq : ∀ {s a r : Text}, read? s = some (a, r) → a ++ r = s
  ne_nil : ∀ {s a r : Text}, read? s = some (a, r) → a ≠ []
  /-- An opener that starts later leaves no more text after it. -/
  rest_suffix : ∀ {s t a r b q : Text}, read? s = some (a, r) → t <:+ s → read? t = some (b, q) →
    q <:+ r
  /-- After an opener that is not complete none is. -/
  none_of_suffix : ∀ {s t : Text}, starts s = true → read? s = none → t <:+ s → read? t = none

/-- Opens an enclosure by a fixed word. -/
def Opener.word (letters : Text) (nonempty : letters ≠ [] := by decide) : Opener where
  starts := (Word.exact letters).heads
  read? s :=
    if (Word.exact letters).heads s then some (letters, s.drop letters.length) else none
  append_eq h := by
    split at h
    next hh =>
      obtain ⟨r, rfl⟩ := Word.heads_exact.1 hh
      simp only [Option.some.injEq, Prod.mk.injEq] at h
      obtain ⟨rfl, rfl⟩ := h
      simp
    next => cases h
  ne_nil h := by
    split at h
    next =>
      simp only [Option.some.injEq, Prod.mk.injEq] at h
      exact h.1 ▸ nonempty
    next => cases h
  rest_suffix {s t a r b q} h ht h' := by
    split at h
    next =>
      split at h'
      next =>
        simp only [Option.some.injEq, Prod.mk.injEq] at h h'
        obtain ⟨rfl, rfl⟩ := h
        obtain ⟨-, rfl⟩ := h'
        have hlen := ht.length_le
        refine List.suffix_of_suffix_length_le
          (List.IsSuffix.trans (List.drop_suffix _ _) ht) (List.drop_suffix _ _) ?_
        simp only [List.length_drop]
        omega
      next => cases h'
    next => cases h
  none_of_suffix hs h := by
    rw [if_pos hs] at h
    cases h

namespace Pattern

/-- Whether an opener starts at the head of the text and is not complete or has no closer. -/
def unclosed (opener : Opener) (closer : Word) (s : Text) : Bool :=
  opener.starts s &&
    match opener.read? s with
    | none => true
    | some (_, t) => (closer.find? t).isNone

/-- An opener, a body and the first closer after the opener. -/
def enclosure (opener : Opener) (closer : Word) : Pattern where
  read? _ s :=
    match opener.read? s with
    | none => none
    | some (a, t) =>
      match closer.cut? t with
      | none => none
      | some (b, m, _) => some ⟨a, b, m⟩
  text_prefix h := by
    split at h
    next => cases h
    next a t ht =>
      split at h
      next => cases h
      next b m r hr =>
        obtain rfl := Option.some.inj h
        refine ⟨r, ?_⟩
        rw [Occurrence.text, ← opener.append_eq ht, ← Word.append_of_cut? hr]
        simp [List.append_assoc]
  text_ne_nil h := by
    split at h
    next => cases h
    next a t ht =>
      split at h
      next => cases h
      next b m r hr =>
        obtain rfl := Option.some.inj h
        simp [Occurrence.text, opener.ne_nil ht]
  exhausted := unclosed opener closer
  read?_of_exhausted {_ s t} h ht := by
    rw [unclosed, Bool.and_eq_true] at h
    obtain ⟨hs, h⟩ := h
    split at h
    next hn => rw [opener.none_of_suffix hs hn ht]
    next a r hr =>
      split
      next => rfl
      next b q hq =>
        have hnone := Option.isNone_iff_eq_none.1 h
        have hsuf := opener.rest_suffix hr ht hq
        rw [Word.cut?_eq_none_iff.2 (Word.find?_eq_none_of_suffix hnone hsuf)]

/-- What is read at the head of a text is an opener and the parts before and at the first closer
in the text after it. -/
theorem read?_enclosure_eq_some_iff {opener : Opener} {closer : Word} {b : Bool} {s : Text}
    {o : Occurrence} :
    (enclosure opener closer).read? b s = some o ↔
      ∃ t r, opener.read? s = some (o.opening, t) ∧ closer.cut? t = some (o.inner, o.closing, r) := by
  simp only [enclosure]
  constructor
  · intro h
    split at h
    next => cases h
    next a t ht =>
      split at h
      next => cases h
      next b m r hr =>
        obtain rfl := Option.some.inj h
        exact ⟨t, r, ht, hr⟩
  · rintro ⟨t, r, ht, hr⟩
    rw [ht]
    simp only [hr]

/-- A comment of style sheets and scripts, from a slash and a star to the next star and slash. -/
def blockComment : Pattern := enclosure (.word ['/', '*']) (.exact ['*', '/'])

end Pattern

end HtmlMinifier
