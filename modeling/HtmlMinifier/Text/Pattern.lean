import HtmlMinifier.Text.Blank

/-!
# Patterns and their occurrences

A rule of the minifier replaces every occurrence of a pattern, from left to right, where no two
occurrences overlap. Here a pattern is a reader: given a text, it says which occurrence, if any,
stands at its head. It is also told whether that head is the start of a line, since some rules
speak of lines. It may know that a text has no occurrence at all, so that a search need not go
through the rest of it: once a closing marker is missing, it is missing for all that follows.

An occurrence has three parts, what opens it, what it encloses and what closes it; any of them
may be empty, but not all. Searching a text for a pattern divides the text into *segments*:
occurrences, and the characters that belong to none.

Main statements: `segments_hit` and `segments_plain` say how the division proceeds,
`search_induction` is the induction along it, and `flatMap_text_segments` says that it loses
nothing.
-/

namespace HtmlMinifier

/-- An occurrence of a pattern, in three parts. -/
structure Occurrence where
  opening : Text
  inner : Text
  closing : Text
deriving DecidableEq, Repr

/-- The text of an occurrence. -/
def Occurrence.text (o : Occurrence) : Text := o.opening ++ o.inner ++ o.closing

/-- A pattern reads the occurrence at the head of a text, if one stands there. The first argument
says whether a line starts at that head. -/
structure Pattern where
  read? : (lineStart : Bool) → Text → Option Occurrence
  /-- An occurrence is a head of the text. -/
  text_prefix : ∀ {b : Bool} {s : Text} {o : Occurrence}, read? b s = some o → o.text <+: s
  /-- An occurrence is not empty. -/
  text_ne_nil : ∀ {b : Bool} {s : Text} {o : Occurrence}, read? b s = some o → o.text ≠ []
  /-- Whether it is known that no occurrence starts at the head of the text or after it. -/
  exhausted : Text → Bool := fun _ => false
  /-- Where it is known, it is so. -/
  read?_of_exhausted : ∀ {b : Bool} {s t : Text}, exhausted s = true → t <:+ s → read? b t = none := by
    intro _ _ _ h
    cases h

/-- A part of a text that has been searched for a pattern. -/
inductive Segment where
  | plain (c : Char)
  | hit (o : Occurrence)
deriving DecidableEq, Repr

namespace Segment

/-- The text a segment stands for. -/
def text : Segment → Text
  | plain c => [c]
  | hit o => o.text

/-- The text of a segment once occurrences are replaced by `f`. -/
def replaced (f : Occurrence → Text) : Segment → Text
  | plain c => [c]
  | hit o => f o

@[simp] theorem text_plain (c : Char) : (plain c).text = [c] := rfl

@[simp] theorem text_hit (o : Occurrence) : (hit o).text = o.text := rfl

@[simp] theorem replaced_plain (f : Occurrence → Text) (c : Char) : (plain c).replaced f = [c] := rfl

@[simp] theorem replaced_hit (f : Occurrence → Text) (o : Occurrence) : (hit o).replaced f = f o := rfl

end Segment

/-- Whether a line starts after `t`, if one starts before it exactly when `b` holds. -/
def lineStartAfter (b : Bool) : (t : Text) → Bool
  | [] => b
  | c :: t => lineStartAfter (c == '\n') t

@[simp] theorem lineStartAfter_nil (b : Bool) : lineStartAfter b [] = b := rfl

@[simp] theorem lineStartAfter_cons (b : Bool) (c : Char) (t : Text) :
    lineStartAfter b (c :: t) = lineStartAfter (c == '\n') t := rfl

theorem lineStartAfter_append (b : Bool) (t u : Text) :
    lineStartAfter b (t ++ u) = lineStartAfter (lineStartAfter b t) u := by
  induction t generalizing b with
  | nil => rfl
  | cons c t ih => exact ih (c == '\n')

namespace Pattern

/-- Searches a text of which the segments in `done`, last one first, are known, and of which the
next `skip` characters belong to the last of them. -/
def segmentsFrom (p : Pattern) (done : List Segment) :
    (skip : Nat) → (lineStart : Bool) → Text → List Segment
  | _, _, [] => done.reverse
  | skip + 1, _, c :: s => p.segmentsFrom done skip (c == '\n') s
  | 0, b, c :: s =>
    match p.read? b (c :: s) with
    | some o => p.segmentsFrom (.hit o :: done) (o.text.length - 1) (c == '\n') s
    | none =>
      if p.exhausted (c :: s) then done.reverse ++ (c :: s).map .plain
      else p.segmentsFrom (.plain c :: done) 0 (c == '\n') s

/-- Divides a text into the occurrences of a pattern, each the leftmost that starts after the one
before it ends, and the characters between them. -/
def segments (p : Pattern) (lineStart : Bool) (s : Text) : List Segment :=
  p.segmentsFrom [] 0 lineStart s

/-- Puts `f o` in place of every occurrence `o` of the pattern. -/
def replaceWith (p : Pattern) (f : Occurrence → Text) (s : Text) : Text :=
  (p.segments true s).flatMap (Segment.replaced f)

/-- Puts `t` in place of every occurrence of the pattern. -/
def replace (p : Pattern) (t : Text) : Text → Text := p.replaceWith fun _ => t

/-- Deletes every occurrence of the pattern. -/
def delete (p : Pattern) : Text → Text := p.replace []

theorem segmentsFrom_eq (p : Pattern) (done : List Segment) (skip : Nat) (b : Bool) (s : Text) :
    p.segmentsFrom done skip b s = done.reverse ++ p.segmentsFrom [] skip b s := by
  induction s generalizing done skip b with
  | nil => cases skip <;> simp [segmentsFrom]
  | cons c s ih =>
    cases skip with
    | succ skip =>
      rw [segmentsFrom, ih, segmentsFrom]
    | zero =>
      rw [segmentsFrom, segmentsFrom]
      cases p.read? b (c :: s) with
      | none =>
        simp only
        split
        next => simp
        next =>
          rw [ih, ih [.plain c]]
          simp
      | some o =>
        simp only
        rw [ih, ih [.hit o]]
        simp

/-- A text in which nothing can be read has plain characters only. -/
theorem segments_of_exhausted {p : Pattern} {b : Bool} {s : Text}
    (h : ∀ (b : Bool) (t : Text), t <:+ s → p.read? b t = none) :
    p.segments b s = s.map .plain := by
  induction s generalizing b with
  | nil => rfl
  | cons c s ih =>
    rw [segments, segmentsFrom, h b _ (List.suffix_refl _)]
    simp only
    split
    next => rfl
    next =>
      rw [segmentsFrom_eq, show p.segmentsFrom [] 0 (c == '\n') s = p.segments (c == '\n') s from rfl,
        ih fun b t ht => h b t (List.IsSuffix.trans ht (List.suffix_cons c s))]
      rfl

theorem segmentsFrom_skip (p : Pattern) (b : Bool) (t r : Text) :
    p.segmentsFrom [] t.length b (t ++ r) = p.segments (lineStartAfter b t) r := by
  induction t generalizing b with
  | nil => rfl
  | cons c t ih =>
    rw [List.length_cons, List.cons_append, segmentsFrom]
    exact ih (c == '\n')

@[simp] theorem segments_nil (p : Pattern) (b : Bool) : p.segments b [] = [] := rfl

/-- Where no occurrence stands, one character is passed. -/
theorem segments_plain {p : Pattern} {b : Bool} {c : Char} {s : Text}
    (h : p.read? b (c :: s) = none) :
    p.segments b (c :: s) = .plain c :: p.segments (c == '\n') s := by
  rw [segments, segmentsFrom, h]
  simp only
  split
  next hex =>
    rw [segments_of_exhausted fun b t ht =>
      p.read?_of_exhausted hex (List.IsSuffix.trans ht (List.suffix_cons c s))]
    rfl
  next =>
    rw [segmentsFrom_eq]
    rfl

/-- Where an occurrence stands, the search goes on after it. -/
theorem segments_hit {p : Pattern} {b : Bool} {o : Occurrence} {r : Text}
    (h : p.read? b (o.text ++ r) = some o) :
    p.segments b (o.text ++ r) = .hit o :: p.segments (lineStartAfter b o.text) r := by
  cases ht : o.text with
  | nil => exact absurd ht (p.text_ne_nil h)
  | cons c t =>
    rw [ht, List.cons_append] at h
    rw [List.cons_append, segments, segmentsFrom, h]
    simp only [ht, List.length_cons, Nat.add_sub_cancel]
    rw [segmentsFrom_eq, segmentsFrom_skip]
    rfl

/-- What holds of the empty text, and is handed back over a character without an occurrence and
over an occurrence, holds of every text that is searched. -/
theorem search_induction (p : Pattern) {motive : Bool → Text → Prop} (nil : ∀ b, motive b [])
    (plain : ∀ b c s, p.read? b (c :: s) = none → motive (c == '\n') s → motive b (c :: s))
    (hit : ∀ b o r, p.read? b (o.text ++ r) = some o → motive (lineStartAfter b o.text) r →
      motive b (o.text ++ r))
    (b : Bool) (s : Text) : motive b s := by
  induction hn : s.length using Nat.strongRecOn generalizing b s with
  | ind n ih =>
    cases s with
    | nil => exact nil b
    | cons c s =>
      cases h : p.read? b (c :: s) with
      | none => exact plain b c s h (ih s.length (by simp [← hn]) _ _ rfl)
      | some o =>
        obtain ⟨r, hr⟩ := p.text_prefix h
        have hpos := List.length_pos_iff.2 (p.text_ne_nil h)
        have hlen := congrArg List.length hr
        rw [List.length_append] at hlen
        rw [← hr] at h ⊢
        exact hit b o r h (ih r.length (by omega) _ _ rfl)

/-- The segments of a text make up the text. -/
theorem flatMap_text_segments (p : Pattern) (b : Bool) (s : Text) :
    (p.segments b s).flatMap Segment.text = s := by
  induction b, s using p.search_induction with
  | nil => rfl
  | plain b c s h ih =>
    rw [segments_plain h, List.flatMap_cons, ih]
    rfl
  | hit b o r h ih =>
    rw [segments_hit h, List.flatMap_cons, ih]
    rfl

end Pattern

end HtmlMinifier
