import HtmlMinifier.Text.Pattern

/-!
# Lines

Only the line feed ends a line here; a carriage return is one more blank. Two patterns speak of
lines: a run of line feeds, and the *line edge*, the blanks that pad a line.

A line edge at the start of a line takes the whole run of blanks that starts there, across as many
lines as it spans; elsewhere it takes the blanks up to the end of the text or, failing that, up to
the last line feed of their run. So of an inner run of blanks at most that line feed is kept, and
it is lost as well when a line feed stands right before it.
-/

namespace HtmlMinifier

namespace Text

/-- What stands before the last line feed. -/
def beforeLastBreak? (s : Text) : Option Text :=
  match s.reverse.dropWhile (· != '\n') with
  | [] => none
  | _ :: t => some t.reverse

theorem append_of_beforeLastBreak? {s t : Text} (h : s.beforeLastBreak? = some t) :
    ∃ r : Text, t ++ '\n' :: r = s ∧ '\n' ∉ r := by
  rw [beforeLastBreak?] at h
  split at h
  next => cases h
  next c u hu =>
    obtain rfl := Option.some.inj h
    have hc : c = '\n' := by
      have := List.head?_dropWhile_not (· != '\n') s.reverse
      rw [hu] at this
      simpa using this
    refine ⟨(s.reverse.takeWhile (· != '\n')).reverse, ?_, ?_⟩
    · have := List.takeWhile_append_dropWhile (p := (· != '\n')) (l := s.reverse)
      rw [hu, hc] at this
      have := congrArg List.reverse this
      simpa using this
    · intro hm
      have := List.all_takeWhile (p := (· != '\n')) (l := s.reverse)
      rw [List.all_eq_true] at this
      simpa using this _ (List.mem_reverse.1 hm)

end Text

namespace Pattern

/-- Two line feeds or more in a row. -/
def lineFeeds : Pattern where
  read? _ s :=
    let run := s.takeWhile (· == '\n')
    if 2 ≤ run.length then some ⟨[], run, []⟩ else none
  text_prefix h := by
    simp only at h
    split at h
    next =>
      obtain rfl := Option.some.inj h
      simpa [Occurrence.text] using List.takeWhile_prefix (· == '\n')
    next => cases h
  text_ne_nil h := by
    simp only at h
    split at h
    next hlen =>
      obtain rfl := Option.some.inj h
      intro e
      simp only [Occurrence.text, List.nil_append, List.append_nil] at e
      simp [e] at hlen
    next => cases h

/-- The line edge at the head of a text; it may be empty. -/
def readLineEdge? (lineStart : Bool) (s : Text) : Option Text :=
  if lineStart || s.trimStart.isEmpty then some s.leadingBlanks
  else s.leadingBlanks.beforeLastBreak?

theorem readLineEdge?_prefix {b : Bool} {s t : Text} (h : readLineEdge? b s = some t) : t <+: s := by
  rw [readLineEdge?] at h
  split at h
  next =>
    obtain rfl := Option.some.inj h
    exact s.leadingBlanks_prefix
  next =>
    obtain ⟨r, hr, -⟩ := Text.append_of_beforeLastBreak? h
    exact List.IsPrefix.trans ⟨_, hr⟩ s.leadingBlanks_prefix

/-- The blanks at the start or at the end of a line. -/
def lineEdge : Pattern where
  read? b s :=
    match readLineEdge? b s with
    | some (c :: t) => some ⟨[], c :: t, []⟩
    | _ => none
  text_prefix h := by
    split at h
    next ht =>
      obtain rfl := Option.some.inj h
      simpa [Occurrence.text] using readLineEdge?_prefix ht
    next => cases h
  text_ne_nil h := by
    split at h
    next =>
      obtain rfl := Option.some.inj h
      simp [Occurrence.text]
    next => cases h

end Pattern

/-- Line feeds in a row become one. -/
def Text.squeezeLineFeeds : Text → Text := Pattern.lineFeeds.replace ['\n']

end HtmlMinifier
