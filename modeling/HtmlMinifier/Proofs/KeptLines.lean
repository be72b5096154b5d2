import HtmlMinifier.Proofs.ScriptLines
import HtmlMinifier.Proofs.TrailingBlanks

/-!
# The lines that a script keeps

What the structured rules do to a script once its block comments are deleted
(`Pattern.uncommented_iff` says what that comes to) is told line by line. A comment that has a line to itself goes, and with it the
blank lines that stand directly before it, padding and all. Empty lines go too.
Every other line is kept as it is, with its padding and with the comment behind its
code, also a blank line, if it is not empty and no comment follows it
(`structured_eq_trim`).

The pass over comments leaves an empty line for each comment it deletes, and takes
the blank lines before it away with their line feeds. It never leaves one line feed
less than it should between two lines that stay, so squeezing line feeds comes down
to deleting the empty lines. A text is written here as its lines with a line feed
before each of them (`broken`), the first one included. Then all lines are alike,
and both passes are followed from one line to the next.
-/

namespace HtmlMinifier.Script

open Text

/-- The lines, each after a line feed. -/
def broken (lines : List Text) : Text := lines.flatMap fun line => '\n' :: line

theorem broken_cons (line : Text) (later : List Text) :
    broken (line :: later) = '\n' :: (line ++ broken later) := rfl

theorem broken_cases (lines : List Text) :
    broken lines = [] ∨ ∃ r, broken lines = '\n' :: r := by
  cases lines with
  | nil => exact .inl rfl
  | cons line later => exact .inr ⟨_, rfl⟩

theorem broken_eq {lines : List Text} (h : lines ≠ []) :
    broken lines = '\n' :: ['\n'].intercalate lines := by
  induction lines with
  | nil => exact absurd rfl h
  | cons line later ih =>
      cases later with
      | nil => simp [broken]
      | cons next later =>
          rw [broken_cons, ih (List.cons_ne_nil next later)]
          simp

theorem trim_broken (lines : List Text) :
    (broken lines).trim = Text.trim (['\n'].intercalate lines) := by
  by_cases h : lines = []
  · rw [h]
    rfl
  · rw [broken_eq h, trim_blank_cons (by decide)]

/-! ## Comments that have a line to themselves -/

/-- Whether a line has two slashes first, after its padding. -/
def startsComment (line : Text) : Bool := isComment line.trimStart

/-- Whether a comment comes next, with no more than blank lines before it. -/
def leadsToComment : List Text → Bool
  | [] => false
  | line :: later => startsComment line || (decide (AllBlank line) && leadsToComment later)

theorem startsComment_of_allBlank {line : Text} (h : AllBlank line) :
    startsComment line = false := by
  rw [startsComment, trimStart_of_allBlank h]
  rfl

theorem startsComment_iff {line : Text} :
    startsComment line = true ↔ ['/', '/'] <+: line.trimStart :=
  isComment_iff

theorem startsComment_append_cons {R k : Text} {c : Char} (hR : AllBlank R)
    (hc : isBlank c = false) :
    startsComment (R ++ c :: k) = true ↔ ['/', '/'] <+: c :: k := by
  rw [startsComment_iff, trimStart_append_cons hR hc]

theorem isBlank_head_broken {lines : List Text} :
    ∀ c ∈ (broken lines).head?, isBlank c = true := by
  rcases broken_cases lines with h | ⟨r, h⟩
  · simp [h]
  · rw [h]
    intro c hc
    rw [← Option.some.inj hc]
    decide

/-- Whether a comment comes next is seen at the first character that is not
blank. -/
theorem leadsToComment_iff {lines : List Text} :
    leadsToComment lines = true ↔ ['/', '/'] <+: (broken lines).trimStart := by
  induction lines with
  | nil => simp [leadsToComment, broken, Text.trimStart]
  | cons line later ih =>
      have htrim : (broken (line :: later)).trimStart =
          Text.trimStart (line ++ broken later) :=
        trimStart_append (R := ['\n']) (by decide)
      rw [htrim, leadsToComment]
      rcases allBlank_or_exists line with h | ⟨R, c, k, rfl, hR, hc⟩
      · rw [startsComment_of_allBlank h, decide_eq_true h, trimStart_append h]
        exact ih
      · have hblank : ¬ AllBlank (R ++ c :: k) := fun h =>
          absurd (h c (by simp)) (by simp [hc])
        rw [decide_eq_false hblank, Bool.false_and, Bool.or_false,
          startsComment_append_cons hR hc, List.append_assoc, List.cons_append,
          trimStart_append_cons hR hc]
        exact ⟨fun h => h.trans (List.prefix_append (c :: k) _),
          fun h => slashes_prefix_append (u := c :: k) isBlank_head_broken h⟩

/-- The lines of a script once the comments are deleted that have a line to
themselves. An empty line is left of each. -/
def uncommentedLines : List Text → List Text
  | [] => []
  | line :: later =>
    if startsComment line then [] :: uncommentedLines later
    else if leadsToComment (line :: later) then uncommentedLines later
    else line :: uncommentedLines later

theorem newline_not_mem_uncommentedLines {lines : List Text}
    (h : ∀ line ∈ lines, '\n' ∉ line) : ∀ line ∈ uncommentedLines lines, '\n' ∉ line := by
  induction lines with
  | nil => exact h
  | cons line later ih =>
      obtain ⟨hline, hlater⟩ := List.forall_mem_cons.1 h
      rw [uncommentedLines]
      split
      · exact List.forall_mem_cons.2 ⟨List.not_mem_nil, ih hlater⟩
      · split
        · exact ih hlater
        · exact List.forall_mem_cons.2 ⟨hline, ih hlater⟩

/-! ## The search, from one line to the next

From here on `e` is the end of a text, empty or with a line feed first, so the
line before it ends where it starts. -/

section Search

variable {line e : Text}

theorem uncommented_comment_line (hline : '\n' ∉ line) (hcomment : startsComment line = true)
    (he : e = [] ∨ ∃ r, e = '\n' :: r) :
    uncommented true (line ++ e) = uncommented false e := by
  obtain ⟨k, hk⟩ := startsComment_iff.1 hcomment
  have htext := line.leadingBlanks_append_trimStart
  rw [← hk] at htext
  rw [← htext] at hline ⊢
  have hkn : '\n' ∉ k := fun h => hline (by simp [h])
  rw [List.append_assoc]
  exact uncommented_comment (allBlank_leadingBlanks line) hkn he

theorem uncommented_code_line (hline : '\n' ∉ line) (hblank : ¬ AllBlank line)
    (hcomment : startsComment line = false) (he : ∀ c ∈ e.head?, isBlank c = true) :
    uncommented true (line ++ e) = line ++ uncommented false e := by
  obtain ⟨R, c, k, rfl, hR, hc⟩ := (allBlank_or_exists line).resolve_left hblank
  have hk : '\n' ∉ k := fun h => hline (by simp [h])
  have hslash : ¬ ['/', '/'] <+: c :: (k ++ e) := by
    intro h
    have hstart := (startsComment_append_cons hR hc).2
      (slashes_prefix_append (u := c :: k) he h)
    rw [hcomment] at hstart
    cases hstart
  rw [List.append_assoc, List.append_assoc]
  exact uncommented_code hR hc hk hslash

theorem uncommented_blank_line (hline : AllBlank line) (h : ¬ ['/', '/'] <+: e.trimStart)
    (he : e = [] ∨ ∃ r, e = '\n' :: r) :
    uncommented true (line ++ e) = line ++ uncommented false e := by
  have hend : ∀ b, uncommented b e = uncommented false e := by
    intro b
    rcases he with rfl | ⟨r, rfl⟩
    · rfl
    · rw [uncommented_newline]
      exact Pattern.replaceFrom_plain (read?_commentLine_eq_none allBlank_nil h)
  rw [uncommented, Pattern.replaceFrom_append_of_suffix]
  · exact congrArg (line ++ ·) (hend _)
  · exact fun b c v hv => read?_commentLine_eq_none (hline.suffix hv) h

/-- Blanks before a comment go with it, be they many lines or none. -/
theorem uncommented_append_of_prefix {R s : Text} (hR : AllBlank R)
    (h : ['/', '/'] <+: s.trimStart) : uncommented true (R ++ s) = uncommented true s := by
  obtain ⟨t, ht⟩ := h
  obtain ⟨k, e, rfl, hk, he⟩ := exists_line_append t
  have hs := s.leadingBlanks_append_trimStart
  have hblank := allBlank_leadingBlanks s
  rw [← ht] at hs
  rw [← hs, ← List.append_assoc]
  exact (uncommented_comment (allBlank_append.2 ⟨hR, hblank⟩) hk he).trans
    (uncommented_comment hblank hk he).symm

theorem uncommented_padding_line (hline : AllBlank line) (h : ['/', '/'] <+: e.trimStart)
    (he : e = [] ∨ ∃ r, e = '\n' :: r) :
    '\n' :: uncommented true (line ++ e) = uncommented false e := by
  rcases he with rfl | ⟨r, rfl⟩
  · exact absurd h (by simp [Text.trimStart])
  · have hr : ['/', '/'] <+: Text.trimStart r := h
    have hblank : AllBlank (line ++ ['\n']) := allBlank_append.2 ⟨hline, by decide⟩
    rw [uncommented_newline, List.append_cons, uncommented_append_of_prefix hblank hr]

end Search

theorem uncommented_broken {lines : List Text} (h : ∀ line ∈ lines, '\n' ∉ line) :
    uncommented false (broken lines) = broken (uncommentedLines lines) := by
  induction lines with
  | nil => rfl
  | cons line later ih =>
      obtain ⟨hline, hlater⟩ := List.forall_mem_cons.1 h
      have he := broken_cases later
      rw [broken_cons, uncommented_newline, uncommentedLines, leadsToComment]
      by_cases hcomment : startsComment line = true
      · rw [if_pos hcomment, uncommented_comment_line hline hcomment he, ih hlater]
        rfl
      · rw [if_neg hcomment]
        rw [Bool.not_eq_true] at hcomment
        rw [hcomment, Bool.false_or]
        by_cases hblank : AllBlank line
        · rw [decide_eq_true hblank, Bool.true_and]
          by_cases hlead : leadsToComment later = true
          · rw [if_pos hlead, uncommented_padding_line hblank (leadsToComment_iff.1 hlead) he,
              ih hlater]
          · rw [if_neg hlead, uncommented_blank_line hblank
              (fun hp => hlead (leadsToComment_iff.2 hp)) he, ih hlater]
            rfl
        · rw [decide_eq_false hblank, Bool.false_and, if_neg (by decide),
            uncommented_code_line hline hblank hcomment isBlank_head_broken, ih hlater]
          rfl

/-! ## Empty lines -/

theorem squeezeLineFeeds_replicate_append (s : Text) : ∀ n : Nat,
    Text.squeezeLineFeeds (List.replicate (n + 1) '\n' ++ s) =
      Text.squeezeLineFeeds ('\n' :: s) := by
  induction s with
  | nil =>
      intro n
      rw [List.append_nil, squeezeLineFeeds_replicate]
      exact (squeezeLineFeeds_replicate 0).symm
  | cons d s ih =>
      intro n
      by_cases hd : d = '\n'
      · have hmore : List.replicate (n + 1) '\n' ++ d :: s =
            List.replicate (n + 2) '\n' ++ s := by
          rw [hd, List.append_cons, ← List.replicate_succ']
        rw [hmore, ih (n + 1), hd]
        exact (ih 1).symm
      · rw [squeezeLineFeeds_append_cons hd, squeezeLineFeeds_replicate]
        exact (squeezeLineFeeds_append_cons (s := ['\n']) hd).symm

theorem squeezeLineFeeds_newline_newline (s : Text) :
    Text.squeezeLineFeeds ('\n' :: '\n' :: s) = Text.squeezeLineFeeds ('\n' :: s) :=
  squeezeLineFeeds_replicate_append s 1

/-- A line feed at the start of a text is trimmed, squeezed or not. -/
theorem trim_squeezeLineFeeds_newline (s : Text) :
    (Text.squeezeLineFeeds ('\n' :: s)).trim = s.squeezeLineFeeds.trim := by
  cases s with
  | nil => rfl
  | cons d s =>
      by_cases hd : d = '\n'
      · rw [hd, squeezeLineFeeds_newline_newline]
      · have hfirst := squeezeLineFeeds_append_cons (s := ['\n']) (t := s) hd
        have halone := squeezeLineFeeds_append_cons (s := []) (t := s) hd
        rw [List.singleton_append] at hfirst
        rw [List.nil_append] at halone
        rw [hfirst, halone]
        exact trim_blank_cons (by decide)

/-- Squeezing line feeds deletes the empty lines, and leaves a line feed at most
where the last of them were. -/
theorem exists_squeezeLineFeeds_broken {lines : List Text}
    (h : ∀ line ∈ lines, '\n' ∉ line) : ∃ E, AllBlank E ∧
      (broken lines).squeezeLineFeeds = broken (lines.filter fun line => !line.isEmpty) ++ E := by
  induction lines with
  | nil => exact ⟨[], allBlank_nil, rfl⟩
  | cons line later ih =>
      obtain ⟨hline, hlater⟩ := List.forall_mem_cons.1 h
      obtain ⟨E, hE, hsqueeze⟩ := ih hlater
      cases line with
      | nil =>
          rw [List.filter_cons_of_neg (by simp)]
          rcases broken_cases later with hnil | ⟨r, hr⟩
          · refine ⟨E ++ ['\n'], allBlank_append.2 ⟨hE, by decide⟩, ?_⟩
            rw [hnil] at hsqueeze
            rw [broken_cons, hnil, ← List.append_assoc, ← hsqueeze]
            rfl
          · refine ⟨E, hE, ?_⟩
            rw [hr] at hsqueeze
            rw [broken_cons, List.nil_append, hr, squeezeLineFeeds_newline_newline, hsqueeze]
      | cons d k =>
          obtain ⟨hd, hk⟩ := List.ne_and_not_mem_of_not_mem_cons hline
          have hcut := squeezeLineFeeds_append_cons (s := ['\n']) (t := k ++ broken later)
            (Ne.symm hd)
          rw [squeezeLineFeeds_append_of_not_mem hk, hsqueeze] at hcut
          refine ⟨E, hE, ?_⟩
          rw [List.filter_cons_of_pos (by simp), broken_cons, broken_cons]
          refine hcut.trans ?_
          rw [List.cons_append, List.cons_append, List.cons_append, List.append_assoc]
          rfl

/-! ## Kept lines -/

/-- The lines that are not empty, do not start with a comment, and are not among the
blank lines that stand directly before one that does. -/
def keptLines : List Text → List Text
  | [] => []
  | line :: later =>
    if line = [] ∨ startsComment line = true ∨
        (AllBlank line ∧ leadsToComment later = true) then keptLines later
    else line :: keptLines later

theorem filter_uncommentedLines (lines : List Text) :
    (uncommentedLines lines).filter (fun line => !line.isEmpty) = keptLines lines := by
  induction lines with
  | nil => rfl
  | cons line later ih =>
      rw [uncommentedLines, keptLines, leadsToComment]
      by_cases hcomment : startsComment line = true
      · rw [if_pos hcomment, if_pos (.inr (.inl hcomment)),
          List.filter_cons_of_neg (by simp), ih]
      · rw [if_neg hcomment]
        by_cases hpadding : AllBlank line ∧ leadsToComment later = true
        · rw [if_pos (by simp [hpadding]), if_pos (.inr (.inr hpadding)), ih]
        · rw [if_neg (by simpa [hcomment] using hpadding)]
          by_cases hempty : line = []
          · rw [if_pos (.inl hempty), List.filter_cons_of_neg (by simp [hempty]), ih]
          · rw [if_neg (by simp [hempty, hcomment, hpadding]),
              List.filter_cons_of_pos (by simpa using hempty), ih]

/-- A script is, once block comments are gone, the lines it keeps, as they are and
in their order. Only the ends of the whole are trimmed. -/
theorem structured_eq_trim (s : Text) :
    structured s =
      Text.trim (['\n'].intercalate (keptLines ((deleteBlockComments s).splitOn '\n'))) := by
  let t := deleteBlockComments s
  let lines := t.splitOn '\n'
  have hlines : ∀ line ∈ lines, '\n' ∉ line := fun _ h => not_mem_of_mem_splitOn t h
  have htext : '\n' :: t = broken lines := by
    rw [broken_eq (List.splitOn_ne_nil '\n' t), List.intercalate_splitOn]
  have huncommented : '\n' :: deleteCommentLines t = broken (uncommentedLines lines) := by
    rw [← uncommented_broken hlines, ← htext, uncommented_newline]
    rfl
  obtain ⟨E, hE, hsqueeze⟩ :=
    exists_squeezeLineFeeds_broken (newline_not_mem_uncommentedLines hlines)
  calc structured s
      = Text.trim (Text.squeezeLineFeeds ('\n' :: deleteCommentLines t)) :=
        (trim_squeezeLineFeeds_newline _).symm
    _ = Text.trim (broken (keptLines lines) ++ E) := by
        rw [huncommented, hsqueeze, filter_uncommentedLines]
    _ = Text.trim (broken (keptLines lines)) := by
        rw [Text.trim, Text.trim, trimEnd_append_blanks_right hE]
    _ = Text.trim (['\n'].intercalate (keptLines lines)) := trim_broken _

example : structured "f() // x\n \t\n\n  // y\n  g()\n \nh()".toList =
    "f() // x\n  g()\n \nh()".toList := by decide +kernel

end HtmlMinifier.Script
