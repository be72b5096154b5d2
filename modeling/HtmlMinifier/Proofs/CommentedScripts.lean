import HtmlMinifier.Proofs.BlockComments
import HtmlMinifier.Proofs.KeptLines

/-!
# Lines of code that are read into a comment

Block comments are looked for in the whole script, before anything is known of
its lines, so a slash and a star in a line comment are taken for an opener. As a
rule nothing comes of it, because an opener without a closer after it is plain
text. But if there is a closer, be it many lines below, what stands between the
two goes, and that can be code.

Here a script is given by its lines: code, perhaps with a comment behind it,
line comments, and block comments. Which lines begin inside a block comment, as
the search sees it, is found line by line (`begun`): what is carried from one
line to the next is whether a comment is open behind it, and that counts only if
a closer comes later. Nothing is left of a line that begins inside, and what is
left of any other does not depend on the lines before it
(`trimmedLines_deleteBlockComments_source`). So the code that is lost is that of
the lines which begin inside a comment, and no other. Where there are none, the
script keeps its code, and where nothing is deleted from the comments behind the
code either, it keeps its lines as they are (`statements_structured_source`).
-/

namespace HtmlMinifier.Script

open Text

/-! ## Lines of code and comments -/

/-- The text of a line comment. -/
structure Remark where
  text : Text
  newline_not_mem : '\n' ∉ text

/-- A line of code, or the part of one before a comment. -/
structure Code where
  text : Text
  newline_not_mem : '\n' ∉ text
  slash_not_mem : '/' ∉ text
  not_allBlank : ¬ AllBlank text

/-- The text of a block comment. -/
structure Block where
  text : Text
  unclosed : ¬ ['*', '/'] <:+: text

/-- A line of a script. -/
inductive Line where
  | code (code : Code)
  | remarked (code : Code) (remark : Remark)
  | comment (remark : Remark)
  | block (block : Block) (newline_not_mem : '\n' ∉ block.text)

/-- A remark as a comment. -/
def Remark.comment (r : Remark) : Text := '/' :: '/' :: r.text

theorem Remark.newline_not_mem_comment (r : Remark) : '\n' ∉ r.comment := by
  simp [comment, r.newline_not_mem]

/-- A block comment with its opener and closer. -/
def Block.comment (b : Block) : Text := '/' :: '*' :: (b.text ++ ['*', '/'])

namespace Line

def text : Line → Text
  | code c => c.text
  | remarked c r => c.text ++ [' '] ++ r.comment
  | comment r => r.comment
  | block b _ => b.comment

/-- The code of a line. -/
def statement? : Line → Option Text
  | code c => some c.text.trim
  | remarked c _ => some c.text.trim
  | comment _ => none
  | block _ _ => none

/-- What is to be left of a line: code, with the comment behind it. -/
def code? : Line → Option Text
  | code c => some c.text.trim
  | remarked c r => some (Text.trim (c.text ++ [' '] ++ r.comment))
  | comment _ => none
  | block _ _ => none

theorem newline_not_mem_text (line : Line) : '\n' ∉ line.text := by
  cases line with
  | code c => exact c.newline_not_mem
  | remarked c r => simp [text, c.newline_not_mem, r.newline_not_mem_comment]
  | comment r => exact r.newline_not_mem_comment
  | block b hb => simp [text, Block.comment, hb]

theorem code?_eq_none_of_statement? {line : Line} (h : line.statement? = none) :
    line.code? = none := by
  cases line <;> first | rfl | cases h

end Line

/-- The lines, each after a line feed. -/
def following (lines : List Line) : Text := broken (lines.map Line.text)

/-- A script with these lines. -/
def source (lines : List Line) : Text := ['\n'].intercalate (lines.map Line.text)

theorem following_cons (line : Line) (later : List Line) :
    following (line :: later) = '\n' :: (line.text ++ following later) := rfl

theorem following_eq {lines : List Line} (h : lines ≠ []) :
    following lines = '\n' :: source lines :=
  broken_eq (by simpa using h)

theorem following_cases (lines : List Line) :
    following lines = [] ∨ ∃ r, following lines = '\n' :: r :=
  broken_cases _

theorem prefix_of_prefix_following {l u : Text} {lines : List Line} (hl : '\n' ∉ l)
    (h : l <+: u ++ following lines) : l <+: u := by
  rcases following_cases lines with hnil | ⟨r, hr⟩
  · rwa [hnil, List.append_nil] at h
  · rw [hr] at h
    exact prefix_of_prefix_append hl h

/-! ## Lines that begin in a comment -/

/-- Whether a block comment is open behind a text, if one is open before it exactly
when `b` holds. -/
def openAfter : (b : Bool) → Text → Bool
  | b, [] => b
  | false, '/' :: '*' :: s => openAfter true s
  | true, '*' :: '/' :: s => openAfter false s
  | b, _ :: s => openAfter b s

/-- A line where it begins in a script, and whether that is inside a block comment. -/
structure Begin where
  inside : Bool
  line : Line
  later : List Line

/-- The lines of a script where they begin. A comment that a line leaves open is none,
unless a closer comes later. -/
def begun : (inside : Bool) → List Line → List Begin
  | _, [] => []
  | inside, line :: later =>
    ⟨inside, line, later⟩ ::
      begun (openAfter inside line.text && decide (['*', '/'] <:+: following later)) later

namespace Begin

/-- No code is lost with the line. Nothing that is opened in the comment behind its code
is closed, there or later, and the slashes of a line comment stay: the second one is not
the first character of an opener that is closed. -/
def Spared : Begin → Prop
  | ⟨true, line, _⟩ => line.statement? = none
  | ⟨false, .code _, _⟩ => True
  | ⟨false, .remarked _ r, later⟩ =>
    ∀ v ∈ opened r.comment, ¬ ['*', '/'] <:+: v ++ following later
  | ⟨false, .comment r, later⟩ =>
    ['*'] <+: r.text → ¬ ['*', '/'] <:+: r.text.tail ++ following later
  | ⟨false, .block _ _, _⟩ => True

instance : (p : Begin) → Decidable p.Spared
  | ⟨true, line, _⟩ => inferInstanceAs (Decidable (line.statement? = none))
  | ⟨false, .code _, _⟩ => isTrue trivial
  | ⟨false, .remarked _ r, later⟩ =>
    List.decidableBAll (fun v => ¬ ['*', '/'] <:+: v ++ following later) (opened r.comment)
  | ⟨false, .comment r, later⟩ =>
    inferInstanceAs (Decidable
      (['*'] <+: r.text → ¬ ['*', '/'] <:+: r.text.tail ++ following later))
  | ⟨false, .block _ _, _⟩ => isTrue trivial

/-- What deleting block comments leaves of a line, up to its line feed. -/
def left (p : Begin) : Text :=
  if p.inside then [] else firstLine (deleteBlockComments (p.line.text ++ following p.later))

end Begin

/-! ## The search, from one line to the next -/

/-- What a text has from its first line feed on. -/
def lineEnd (s : Text) : Text := s.dropWhile (· != '\n')

theorem firstLine_append_lineEnd (s : Text) : firstLine s ++ lineEnd s = s :=
  List.takeWhile_append_dropWhile

theorem lineEnd_cons {c : Char} (hc : c ≠ '\n') (s : Text) : lineEnd (c :: s) = lineEnd s := by
  rw [lineEnd, List.dropWhile_cons_of_pos (by simpa using hc)]
  rfl

theorem lineEnd_append_of_not_mem {k s : Text} (hk : '\n' ∉ k) :
    lineEnd (k ++ s) = lineEnd s :=
  List.dropWhile_append_of_pos (bne_newline_of_not_mem hk)

theorem lineEnd_cases (s : Text) : lineEnd s = [] ∨ ∃ r, lineEnd s = '\n' :: r := by
  obtain ⟨k, e, rfl, hk, he⟩ := exists_line_append s
  rw [lineEnd_append_of_not_mem hk]
  rcases he with rfl | ⟨r, rfl⟩
  · exact .inl rfl
  · exact .inr ⟨r, rfl⟩

theorem lineEnd_following (lines : List Line) : lineEnd (following lines) = following lines := by
  cases lines <;> rfl

theorem trimmedLines_eq_append (s : Text) :
    trimmedLines s = trimmedLines (firstLine s) ++ trimmedLines (lineEnd s) := by
  rw [← trimmedLines_line_append (lineEnd_cases s), firstLine_append_lineEnd]

/-- A text behind which a block comment is open is searched as if the comment were opened
right before it. -/
def reopened (b : Bool) (s : Text) : Text := if b then '/' :: '*' :: s else s

/-- What is left of the lines that follow, if `b` tells whether a comment is open where
they begin. -/
def leftOf (b : Bool) (lines : List Line) : List Text :=
  (begun (b && decide (['*', '/'] <:+: following lines)) lines).flatMap fun p =>
    trimmedLines p.left

/-- Behind a part `u` of a line, what is left of the lines that follow depends on that
part only by whether it leaves a comment open. -/
def Reads (lines : List Line) : Prop := ∀ (b : Bool) (u : Text), '\n' ∉ u →
  trimmedLines (lineEnd (deleteBlockComments (reopened b (u ++ following lines)))) =
    leftOf (openAfter b u) lines

theorem leftOf_of_absent {lines : List Line} (h : ¬ ['*', '/'] <:+: following lines) (b : Bool) :
    leftOf b lines = leftOf false lines := by
  rw [leftOf, leftOf, decide_eq_false h, Bool.and_false, Bool.and_false]

/-- Where no closer comes, an opener changes nothing. -/
theorem lineEnd_reopened_of_absent {u : Text} {lines : List Line} (hu : '\n' ∉ u)
    (h : ¬ ['*', '/'] <:+: u ++ following lines) :
    lineEnd (deleteBlockComments (reopened true (u ++ following lines))) =
      lineEnd (deleteBlockComments (following lines)) := by
  have hopener : '\n' ∉ '/' :: '*' :: u := by simp [hu]
  have hlines : ¬ ['*', '/'] <:+: following lines :=
    fun hi => h (hi.trans (List.suffix_append u _).isInfix)
  rw [reopened, if_pos rfl, deleteBlockComments_opened h,
    deleteBlockComments_of_unclosed (unclosed_of_absent hlines), lineEnd_following]
  exact (lineEnd_append_of_not_mem hopener).trans (lineEnd_following lines)

/-- It is enough to know it where the next line starts. -/
theorem reads_of_following {lines : List Line}
    (h : ∀ b, trimmedLines (lineEnd (deleteBlockComments (reopened b (following lines)))) =
      leftOf b lines) : Reads lines := by
  intro b u hu
  fun_induction openAfter b u with
  | case1 b => exact h b
  | case2 s ih => exact ih fun hm => hu (by simp [hm])
  | case3 s ih =>
      have hclosed := deleteBlockComments_block (t := []) (by simp) (s ++ following lines)
      rw [← ih fun hm => hu (by simp [hm])]
      exact congrArg (fun t => trimmedLines (lineEnd t)) hclosed
  | case4 b c s hopen hclose ih =>
      obtain ⟨hc, hs⟩ := List.ne_and_not_mem_of_not_mem_cons hu
      rw [← ih hs]
      cases b with
      | false =>
          have hplain : ∀ v, c :: (s ++ following lines) ≠ '/' :: '*' :: v := by
            intro v hv
            have hp : ['/', '*'] <+: c :: s ++ following lines := ⟨v, hv.symm⟩
            obtain ⟨w, hw⟩ := prefix_of_prefix_following (by decide) hp
            obtain ⟨rfl, rfl⟩ := List.cons.inj hw
            exact hopen w rfl rfl rfl
          have hcopy := deleteBlockComments_cons fun v hv => absurd hv (hplain v)
          exact congrArg trimmedLines ((congrArg lineEnd hcopy).trans (lineEnd_cons (Ne.symm hc) _))
      | true =>
          by_cases hin : ['*', '/'] <:+: c :: (s ++ following lines)
          · have hplain : ¬ ['*', '/'] <+: c :: (s ++ following lines) := by
              intro hp
              obtain ⟨w, hw⟩ := prefix_of_prefix_following (u := c :: s) (by decide) hp
              obtain ⟨rfl, rfl⟩ := List.cons.inj hw
              exact hclose w rfl rfl rfl
            exact congrArg (fun t => trimmedLines (lineEnd t))
              (deleteBlockComments_opened_cons hin hplain)
          · have hrest : ¬ ['*', '/'] <:+: s ++ following lines :=
              fun hi => hin (hi.trans (List.suffix_cons c _).isInfix)
            rw [lineEnd_reopened_of_absent hu hin, lineEnd_reopened_of_absent hs hrest]

theorem reads (lines : List Line) : Reads lines := by
  induction lines with
  | nil => exact reads_of_following fun b => by cases b <;> decide +kernel
  | cons line later ih =>
      have hfalse : trimmedLines (lineEnd (deleteBlockComments (following (line :: later)))) =
          leftOf false (line :: later) := by
        rw [following_cons, deleteBlockComments_newline]
        show trimmedLines ('\n' :: _) = _
        rw [trimmedLines_blank_cons (by decide), trimmedLines_eq_append]
        exact congrArg _ (ih false line.text line.newline_not_mem_text)
      refine reads_of_following fun b => ?_
      cases b with
      | false => exact hfalse
      | true =>
          by_cases hin : ['*', '/'] <:+: following (line :: later)
          · have hskip := deleteBlockComments_opened_cons (c := '\n')
              (s := line.text ++ following later) hin
              (fun hp => absurd (List.cons_prefix_cons.1 hp).1 (by decide))
            rw [leftOf, decide_eq_true hin]
            refine Eq.trans (congrArg (fun t => trimmedLines (lineEnd t)) hskip) ?_
            exact ih true line.text line.newline_not_mem_text
          · have habsent : ¬ ['*', '/'] <:+: [] ++ following (line :: later) := hin
            rw [leftOf_of_absent hin, ← hfalse]
            exact congrArg trimmedLines (lineEnd_reopened_of_absent List.not_mem_nil habsent)

/-- What is left of a script is what is left of the lines that do not begin inside a
comment, each found from that line on. -/
theorem trimmedLines_deleteBlockComments_source (lines : List Line) :
    trimmedLines (deleteBlockComments (source lines)) =
      (begun false lines).flatMap fun p => trimmedLines p.left := by
  by_cases h : lines = []
  · rw [h]
    rfl
  · have hread := reads lines false [] List.not_mem_nil
    rw [reopened, if_neg (by decide), List.nil_append, following_eq h,
      deleteBlockComments_newline] at hread
    rw [← trimmedLines_blank_cons (c := '\n') (by decide)]
    exact hread

/-! ## What is left of a line -/

theorem newline_not_mem_firstLine (s : Text) : '\n' ∉ firstLine s := fun h => by
  have hc := List.mem_takeWhile_imp h
  simp at hc

theorem firstLine_append_of_not_mem {k : Text} (hk : '\n' ∉ k) (s : Text) :
    firstLine (k ++ s) = k ++ firstLine s :=
  List.takeWhile_append_of_pos (bne_newline_of_not_mem hk)

theorem firstLine_deleteBlockComments_following (lines : List Line) :
    firstLine (deleteBlockComments (following lines)) = [] := by
  rcases following_cases lines with h | ⟨r, h⟩
  · rw [h]
    rfl
  · rw [h, deleteBlockComments_newline]
    rfl

/-- The first slash of a line comment is never taken for that of an opener. -/
theorem deleteBlockComments_slashes (s : Text) :
    deleteBlockComments ('/' :: '/' :: s) = '/' :: deleteBlockComments ('/' :: s) :=
  deleteBlockComments_cons fun v hv => by cases hv

namespace Begin

theorem left_code (c : Code) (later : List Line) :
    left ⟨false, .code c, later⟩ = c.text := by
  show firstLine (deleteBlockComments (c.text ++ following later)) = c.text
  rw [deleteBlockComments_append_of_not_mem c.slash_not_mem,
    firstLine_append_of_not_mem c.newline_not_mem, firstLine_deleteBlockComments_following,
    List.append_nil]

theorem left_block (b : Block) (hb : '\n' ∉ b.text) (later : List Line) :
    left ⟨false, .block b hb, later⟩ = [] := by
  show firstLine (deleteBlockComments (b.comment ++ following later)) = []
  rw [Block.comment, deleteBlockComments_block b.unclosed,
    firstLine_deleteBlockComments_following]

theorem left_comment (r : Remark) (later : List Line) :
    left ⟨false, .comment r, later⟩ =
      '/' :: firstLine (deleteBlockComments ('/' :: (r.text ++ following later))) := by
  show firstLine (deleteBlockComments ('/' :: '/' :: (r.text ++ following later))) = _
  rw [deleteBlockComments_slashes]
  rfl

theorem left_remarked (c : Code) (r : Remark) (later : List Line) :
    left ⟨false, .remarked c r, later⟩ =
      c.text ++ [' '] ++ left ⟨false, .comment r, later⟩ := by
  have hslash : '/' ∉ c.text ++ [' '] := by simp [c.slash_not_mem]
  have hbreak : '\n' ∉ c.text ++ [' '] := by simp [c.newline_not_mem]
  show firstLine (deleteBlockComments (c.text ++ [' '] ++ r.comment ++ following later)) = _
  rw [List.append_assoc, deleteBlockComments_append_of_not_mem hslash,
    firstLine_append_of_not_mem hbreak]
  rfl

end Begin

/-! ## The code that is left -/

/-- What the lines have before their first slash, trimmed, where that is not blank. -/
def statements (lines : List Text) : List Text :=
  lines.flatMap fun line => trimmedLines (line.takeWhile (· != '/'))

theorem bne_slash_of_not_mem {s : Text} (h : '/' ∉ s) : ∀ c ∈ s, (c != '/') = true :=
  fun _ hc => bne_iff_ne.2 (ne_of_mem_of_not_mem hc h)

theorem trimmedLines_of_not_mem {s : Text} (h : '\n' ∉ s) :
    trimmedLines s = [s.trim].filter fun line => !line.isEmpty := by
  rw [trimmedLines, List.splitOn_eq_singleton h, List.map_singleton]

theorem statements_trimmedLines_of_not_mem {k : Text} (hbreak : '\n' ∉ k) (hk : '/' ∉ k) :
    statements (trimmedLines k) = trimmedLines k := by
  have htrim : trimmedLines k = [k.trim].filter fun line => !line.isEmpty :=
    trimmedLines_of_not_mem hbreak
  by_cases h : k.trim = []
  · rw [htrim, h]
    rfl
  · have hslash : '/' ∉ k.trim := by
      obtain ⟨u, v, huv, -, -⟩ := exists_blanks_trim k
      intro hm
      rw [← huv] at hk
      simp [hm] at hk
    rw [htrim, List.filter_cons_of_pos (by simpa using h), List.filter_nil, statements,
      List.flatMap_singleton, List.takeWhile_eq_self_iff.2 (bne_slash_of_not_mem hslash),
      trimmedLines_trim, htrim, List.filter_cons_of_pos (by simpa using h), List.filter_nil]

theorem statements_trimmedLines_slash {k w : Text} (hbreak : '\n' ∉ k) (hk : '/' ∉ k)
    (hw : '\n' ∉ w) : statements (trimmedLines (k ++ '/' :: w)) = trimmedLines k := by
  have hline : '\n' ∉ k ++ '/' :: w := by simp [hbreak, hw]
  have hstart : '/' ∉ k.trimStart := fun h => hk ((List.dropWhile_suffix _).subset h)
  have htrim : Text.trim (k ++ '/' :: w) = k.trimStart ++ '/' :: w.trimEnd := by
    rw [Text.trim, trimEnd_append_cons (by decide), trimStart_append_nonblank (by decide)]
  have hcut : (k.trimStart ++ '/' :: w.trimEnd).takeWhile (· != '/') = k.trimStart := by
    rw [List.takeWhile_append_of_pos (bne_slash_of_not_mem hstart),
      List.takeWhile_cons_of_neg (by decide), List.append_nil]
  have hk' := k.leadingBlanks_append_trimStart
  rw [trimmedLines_of_not_mem hline, htrim, List.filter_cons_of_pos (by simp), List.filter_nil,
    statements, List.flatMap_singleton, hcut,
    ← trimmedLines_blanks_append (allBlank_leadingBlanks k), hk']

/-- A comment has no code before its first slash. -/
theorem statements_filter (lines : List Text) :
    statements (lines.filter fun line => !isComment line) = statements lines := by
  induction lines with
  | nil => rfl
  | cons line lines ih =>
      by_cases h : isComment line = true
      · rw [List.filter_cons_of_neg (by simp [h]), ih]
        obtain ⟨v, rfl⟩ := isComment_iff.1 h
        rfl
      · rw [List.filter_cons_of_pos (by simp [h]), statements, statements, List.flatMap_cons,
          List.flatMap_cons]
        exact congrArg _ ih

/-- Code makes a line what it is, whatever else is on it. -/
theorem exists_trim_code (c : Code) (u : Text) :
    ∃ a t, a ≠ '/' ∧ Text.trim (c.text ++ u) = a :: t := by
  obtain ⟨R, a, t, htext, hR, ha⟩ :=
    (allBlank_or_exists c.text).resolve_left c.not_allBlank
  refine ⟨a, Text.trimEnd (t ++ u), fun h => c.slash_not_mem (by simp [htext, h]), ?_⟩
  rw [htext, List.append_assoc, List.cons_append, trim_append_cons hR ha]

theorem trimmedLines_code (c : Code) {u : Text} (hu : '\n' ∉ u) :
    trimmedLines (c.text ++ u) = [Text.trim (c.text ++ u)] := by
  obtain ⟨a, t, -, htrim⟩ := exists_trim_code c u
  rw [trimmedLines_of_not_mem (by simp [c.newline_not_mem, hu]), htrim]
  rfl

theorem isComment_trim_code (c : Code) (u : Text) :
    isComment (Text.trim (c.text ++ u)) = false := by
  obtain ⟨a, t, ha, htrim⟩ := exists_trim_code c u
  rw [htrim, ← Bool.not_eq_true, isComment_iff]
  exact fun h => ha (List.cons_prefix_cons.1 h).1.symm

theorem trim_append_space (s : Text) : Text.trim (s ++ [' ']) = s.trim := by
  rw [Text.trim, Text.trim, trimEnd_append_blanks_right (by decide)]

theorem Begin.statements_left (p : Begin) :
    statements (trimmedLines p.left) =
      if p.inside then [] else p.line.statement?.toList := by
  obtain ⟨inside, line, later⟩ := p
  cases inside with
  | true => rfl
  | false =>
      cases line with
      | code c =>
          have hline := trimmedLines_code c (u := []) List.not_mem_nil
          rw [List.append_nil] at hline
          rw [left_code, statements_trimmedLines_of_not_mem c.newline_not_mem c.slash_not_mem,
            hline]
          rfl
      | remarked c r =>
          have hbreak : '\n' ∉ c.text ++ [' '] := by simp [c.newline_not_mem]
          have hslash : '/' ∉ c.text ++ [' '] := by simp [c.slash_not_mem]
          rw [left_remarked, left_comment,
            statements_trimmedLines_slash hbreak hslash (newline_not_mem_firstLine _),
            trimmedLines_code c (by decide), trim_append_space]
          rfl
      | comment r =>
          rw [left_comment]
          exact statements_trimmedLines_slash (k := []) List.not_mem_nil List.not_mem_nil
            (newline_not_mem_firstLine _)
      | block b hb =>
          rw [left_block]
          rfl

/-- The lines that do not begin inside a comment. -/
def outside (lines : List Line) : List Begin := (begun false lines).filter fun p => !p.inside

theorem statements_structured_eq (lines : List Line) :
    statements (trimmedLines (structured (source lines))) =
      (outside lines).filterMap fun p => p.line.statement? := by
  rw [trimmedLines_structured, statements_filter, trimmedLines_deleteBlockComments_source,
    statements, List.flatMap_assoc, outside, List.filterMap_filter,
    List.filterMap_eq_flatMap_toList]
  refine List.flatMap_congr fun p _ => p.statements_left.trans ?_
  cases p.inside <;> simp

theorem map_line_begun (b : Bool) (lines : List Line) :
    (begun b lines).map Begin.line = lines := by
  induction lines generalizing b with
  | nil => rfl
  | cons line later ih => exact congrArg (line :: ·) (ih _)

/-- Leaving out some items makes no difference just where they have no value. -/
theorem filterMap_filter_eq_iff {α β : Type} {f : α → Option β} {q : α → Bool} {l : List α} :
    (l.filter q).filterMap f = l.filterMap f ↔ ∀ a ∈ l, q a = false → f a = none := by
  induction l with
  | nil => simp
  | cons a l ih =>
      rw [List.forall_mem_cons, ← ih]
      cases hq : q a with
      | true =>
          rw [List.filter_cons_of_pos hq]
          cases hf : f a <;> simp [hf]
      | false =>
          rw [List.filter_cons_of_neg (by simp [hq])]
          cases hf : f a with
          | none => simp [hf]
          | some x =>
              refine ⟨fun h => ?_, fun h => absurd (h.1 rfl) (by simp)⟩
              have hshorter : ((l.filter q).filterMap f).length ≤ (l.filterMap f).length :=
                (List.filter_sublist.filterMap f).length_le
              have hlonger := congrArg List.length h
              rw [List.filterMap_cons_some hf, List.length_cons] at hlonger
              omega

/-! ## The lines that are left -/

theorem Begin.Spared.trimmedLines_left {p : Begin} (h : p.Spared) :
    (trimmedLines p.left).filter (fun line => !isComment line) = p.line.code?.toList := by
  obtain ⟨inside, line, later⟩ := p
  cases inside with
  | true =>
      rw [Line.code?_eq_none_of_statement? h]
      rfl
  | false =>
      cases line with
      | code c =>
          have hline := trimmedLines_code c (u := []) List.not_mem_nil
          have hcode := isComment_trim_code c []
          rw [List.append_nil] at hline hcode
          rw [left_code, hline, List.filter_cons_of_pos (by rw [hcode]; rfl)]
          rfl
      | remarked c r =>
          have hcopy : left ⟨false, .comment r, later⟩ = r.comment := by
            have hstar : ¬ ['*'] <+: following later := fun hp => by
              have hnil := prefix_of_prefix_following (u := []) (by decide) hp
              simp at hnil
            show firstLine (deleteBlockComments (r.comment ++ following later)) = r.comment
            rw [deleteBlockComments_append_of_opened h hstar,
              firstLine_append_of_not_mem r.newline_not_mem_comment,
              firstLine_deleteBlockComments_following, List.append_nil]
          have hbreak : '\n' ∉ [' '] ++ r.comment := by
            simp [r.newline_not_mem_comment]
          rw [left_remarked, hcopy, List.append_assoc, trimmedLines_code c hbreak,
            List.filter_cons_of_pos (by rw [isComment_trim_code]; rfl), ← List.append_assoc]
          rfl
      | comment r =>
          have hcopy : deleteBlockComments ('/' :: (r.text ++ following later)) =
              '/' :: deleteBlockComments (r.text ++ following later) := by
            refine deleteBlockComments_cons fun v hv => ?_
            have hstar : ['*'] <+: r.text :=
              prefix_of_prefix_following (by decide) ⟨v, (List.cons.inj hv).2.symm⟩
            have hclose := h hstar
            obtain ⟨w, hw⟩ := hstar
            rw [← hw] at hclose hv
            rwa [← (List.cons.inj (List.cons.inj hv).2).2]
          have hbreak : '\n' ∉ '/' :: firstLine (deleteBlockComments (r.text ++ following later)) :=
            List.not_mem_cons_of_ne_of_not_mem (by decide) (newline_not_mem_firstLine _)
          have hleft : left ⟨false, .comment r, later⟩ =
              '/' :: '/' :: firstLine (deleteBlockComments (r.text ++ following later)) := by
            rw [left_comment, hcopy]
            rfl
          have hcomment : isComment ('/' :: Text.trimEnd
              ('/' :: firstLine (deleteBlockComments (r.text ++ following later)))) = true :=
            isComment_iff.2 (slashes_prefix_trimEnd.2 (List.prefix_append ['/', '/'] _))
          rw [hleft, trimmedLines_cons_of_not_mem (by decide) hbreak,
            List.filter_cons_of_neg (by rw [hcomment]; decide)]
          rfl
      | block b hb =>
          rw [left_block]
          rfl

/-- The code that is left of a script is that of its lines which do not begin inside a
block comment, as the search sees it. So all code is left just where no line that has any
begins inside one. If nothing is deleted from the comments behind the code either, the
lines of code are left as they are, and no other lines. -/
theorem statements_structured_source (lines : List Line) :
    statements (trimmedLines (structured (source lines))) =
        (outside lines).filterMap (fun p => p.line.statement?) ∧
      (statements (trimmedLines (structured (source lines))) = lines.filterMap Line.statement? ↔
        ∀ p ∈ begun false lines, p.inside = true → p.line.statement? = none) ∧
      ((∀ p ∈ begun false lines, p.Spared) →
        trimmedLines (structured (source lines)) = lines.filterMap Line.code?) := by
  have hlines (f : Line → Option Text) :
      lines.filterMap f = (begun false lines).filterMap fun p => f p.line := by
    conv_lhs => rw [← map_line_begun false lines, List.filterMap_map]
    rfl
  refine ⟨statements_structured_eq lines, ?_, fun h => ?_⟩
  · rw [statements_structured_eq, hlines, outside, filterMap_filter_eq_iff]
    simp only [Bool.not_eq_eq_eq_not, Bool.not_false]
  · rw [trimmedLines_structured, trimmedLines_deleteBlockComments_source, List.filter_flatMap,
      hlines, List.filterMap_eq_flatMap_toList]
    exact List.flatMap_congr fun p hp => (h p hp).trimmedLines_left

/-- Comments that run over other comments cost no code. -/
theorem trimmedLines_structured_source_spared :
    trimmedLines (structured
        "// /* see /*\n// old();\n/* x */\n  let x = 1;\t\nh(); // see /*\n// done".toList) =
      ["let x = 1;".toList, "h(); // see /*".toList] := by
  have h : ∀ p ∈ begun false
      [.comment ⟨" /* see /*".toList, by decide⟩, .comment ⟨" old();".toList, by decide⟩,
        .block ⟨" x ".toList, by decide⟩ (by decide),
        .code ⟨"  let x = 1;\t".toList, by decide, by decide, by decide⟩,
        .remarked ⟨"h();".toList, by decide, by decide, by decide⟩
          ⟨" see /*".toList, by decide⟩,
        .comment ⟨" done".toList, by decide⟩], p.Spared := by decide +kernel
  refine Eq.trans (congrArg (fun s => trimmedLines (structured s)) ?_)
    (((statements_structured_source _).2.2 h).trans ?_)
  · decide +kernel
  · decide +kernel

/-- Not every script keeps its code, because a comment can open what another one
closes. -/
theorem structured_source_not_kept :
    ¬ ∀ lines : List Line,
      trimmedLines (structured (source lines)) = lines.filterMap Line.code? := by
  intro h
  have hlines := h [.comment ⟨" see /* below".toList, by decide⟩,
    .code ⟨"f()".toList, by decide, by decide, by decide⟩,
    .block ⟨" x ".toList, by decide⟩ (by decide)]
  exact absurd hlines (by decide +kernel)

end HtmlMinifier.Script
