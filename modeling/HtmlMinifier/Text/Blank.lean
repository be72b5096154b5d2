/-!
# Texts and blank characters

Every rule of the minifier reads a text as a sequence of Unicode scalar values and asks of a
character whether it is *blank*: whether it has the `White_Space` property. The property is
wider than the blanks of ASCII (it has the no-break space and the line separator) and narrower
than what an eye would call empty (it has neither the zero-width space nor the byte order mark).

Trimming takes the blanks off both ends. Its two lemmas say what it is: the text is the trimmed
text between two runs of blanks, and the trimmed text neither starts nor ends with one.
-/

namespace HtmlMinifier

/-- A text is the sequence of its characters. -/
abbrev Text := List Char

/-- The characters with the `White_Space` property of Unicode, twenty-five in all. -/
def isBlank (c : Char) : Bool :=
  (0x09 ≤ c.toNat && c.toNat ≤ 0x0D) || c.toNat == 0x20 || c.toNat == 0x85 || c.toNat == 0xA0 ||
  c.toNat == 0x1680 || (0x2000 ≤ c.toNat && c.toNat ≤ 0x200A) || c.toNat == 0x2028 ||
  c.toNat == 0x2029 || c.toNat == 0x202F || c.toNat == 0x205F || c.toNat == 0x3000

/-- Every character that Lean's core calls whitespace is blank. -/
theorem isBlank_of_isWhitespace {c : Char} (h : c.isWhitespace = true) : isBlank c = true := by
  simp only [Char.isWhitespace, Bool.or_eq_true, decide_eq_true_eq] at h
  rcases h with ((rfl | rfl) | rfl) | rfl <;> decide

namespace Text

/-- The text without the blanks it starts with. -/
def trimStart (s : Text) : Text := s.dropWhile isBlank

/-- The text without the blanks it ends with. -/
def trimEnd (s : Text) : Text := (s.reverse.dropWhile isBlank).reverse

/-- The text without the blanks at its two ends. -/
def trim (s : Text) : Text := s.trimEnd.trimStart

/-- The blanks a text starts with. -/
def leadingBlanks (s : Text) : Text := s.takeWhile isBlank

theorem leadingBlanks_append_trimStart (s : Text) : s.leadingBlanks ++ s.trimStart = s :=
  List.takeWhile_append_dropWhile

theorem isBlank_of_mem_leadingBlanks {s : Text} {c : Char} (h : c ∈ s.leadingBlanks) :
    isBlank c = true := by
  induction s with
  | nil => cases h
  | cons d s ih =>
    rw [leadingBlanks, List.takeWhile_cons] at h
    split at h
    next hd =>
      rcases List.mem_cons.1 h with rfl | h
      · exact hd
      · exact ih h
    next => cases h

theorem leadingBlanks_prefix (s : Text) : s.leadingBlanks <+: s :=
  ⟨_, s.leadingBlanks_append_trimStart⟩

/-- What is left after trimming the start does not start with a blank. -/
theorem isBlank_head_trimStart {s r : Text} {c : Char} (h : s.trimStart = c :: r) :
    isBlank c = false := by
  induction s with
  | nil => cases h
  | cons d s ih =>
    rw [trimStart, List.dropWhile_cons] at h
    split at h
    next => exact ih h
    next hd =>
      obtain ⟨rfl, _⟩ := List.cons.inj h
      simpa using hd

/-- The end of a text is trimmed by trimming the start of its reversal. -/
theorem reverse_trimEnd (s : Text) : s.trimEnd.reverse = Text.trimStart s.reverse := by
  simp [trimEnd, trimStart]

/-- A text is its trimmed end followed by blanks. -/
theorem trimEnd_append_blanks (s : Text) :
    s.trimEnd ++ (Text.leadingBlanks s.reverse).reverse = s := by
  have h := leadingBlanks_append_trimStart s.reverse
  rw [← reverse_trimEnd] at h
  have h' := congrArg List.reverse h
  simpa using h'

/-- Trimming cuts a run of blanks off either end and nothing else. -/
theorem exists_blanks_trim (s : Text) :
    ∃ l r : Text, l ++ s.trim ++ r = s ∧ (∀ c ∈ l, isBlank c = true) ∧
      ∀ c ∈ r, isBlank c = true := by
  refine ⟨s.trimEnd.leadingBlanks, (Text.leadingBlanks s.reverse).reverse, ?_, ?_, ?_⟩
  · rw [trim, leadingBlanks_append_trimStart, trimEnd_append_blanks]
  · exact fun c hc => isBlank_of_mem_leadingBlanks hc
  · exact fun c hc => isBlank_of_mem_leadingBlanks (List.mem_reverse.1 hc)

end Text

end HtmlMinifier
