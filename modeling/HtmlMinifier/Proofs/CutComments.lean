import HtmlMinifier.Proofs.AggressiveContent
import HtmlMinifier.Proofs.CommentedScripts
import Mathlib.Data.List.DropRight

/-!
# Block comments that are cut

The aggressive rules delete line comments before block comments, and two slashes
are a line comment to them wherever they stand. On the last line of a block
comment, say in an address, they take its closer away. So does a slash right
behind the closer, since a closer ends with a slash. What is left is an opener
that is closed too late, by the closer of a later block comment, or not at all,
and the code up to there is lost.

Here a script is given by its pieces: code, line comments and block comments. Two
conditions keep a block comment from being cut (`Piece.Closed`). There are no two
slashes on its last line, and no slash follows it, unless that slash starts a
block comment of more than one line. Then the first comment does lose its closer,
but it ends where the second one ends, with only comments between.

Nothing weaker will do. The rules leave the code of a script, and of every part
that ends with one of its pieces, if and only if no block comment is cut
(`Piece.deleteBlanks_aggressive_iff`). The parts have to be there, because a
comment that is closed too late can by chance have nothing but comments in it.
-/

namespace HtmlMinifier.Script

open Text

/-! ## The last line of a text -/

/-- What a text has after its last line feed. -/
def lastLine (s : Text) : Text := s.rtakeWhile (· != '\n')

theorem lastLine_of_not_mem {s : Text} (h : '\n' ∉ s) : lastLine s = s :=
  List.rtakeWhile_eq_self_iff.2 (bne_newline_of_not_mem h)

theorem lastLine_append_newline (s t : Text) :
    lastLine (s ++ '\n' :: t) = lastLine t := by
  rw [lastLine, lastLine, List.rtakeWhile, List.rtakeWhile, List.reverse_append,
    List.reverse_cons, List.append_assoc, List.takeWhile_append]
  split
  · next hall =>
      rw [List.singleton_append, List.takeWhile_cons_of_neg (by decide),
        List.append_nil, (List.takeWhile_prefix _).eq_of_length hall]
  · rfl

/-- If there are no two slashes on the last line, what comes after the text is not
in a line comment of the text. -/
theorem deleteLineComments_append_of_lastLine {t : Text}
    (h : ¬ ['/', '/'] <:+: lastLine t) {c : Char} (hc : c ≠ '/') (s : Text) :
    deleteLineComments (t ++ c :: s) =
      deleteLineComments t ++ c :: deleteLineComments s := by
  induction t using line_induction with
  | last k hk =>
      rw [lastLine_of_not_mem hk] at h
      rw [deleteLineComments_append_cons hc h, deleteLineComments_of_absent h]
  | line k t hk ih =>
      rw [lastLine_append_newline] at h
      rw [List.append_assoc, List.cons_append, deleteLineComments_append_newline,
        ih h, deleteLineComments_append_newline, List.append_assoc, List.cons_append]

/-- If there are two, the rest of the line is. -/
theorem deleteLineComments_append_of_cut {t v : Text}
    (h : ['/', '/'] <:+: lastLine t) (hv : '\n' ∉ v) :
    deleteLineComments (t ++ v) = deleteLineComments t := by
  induction t using line_induction with
  | last k hk =>
      rw [lastLine_of_not_mem hk] at h
      exact deleteLineComments_append_of_comment h hk hv
  | line k t hk ih =>
      rw [lastLine_append_newline] at h
      rw [List.append_assoc, List.cons_append, deleteLineComments_append_newline,
        ih h, deleteLineComments_append_newline]

theorem deleteLineComments_opener (s : Text) :
    deleteLineComments ('/' :: '*' :: s) = '/' :: '*' :: deleteLineComments s := by
  rw [deleteLineComments_cons (by simp), deleteLineComments_cons_of_ne (by decide)]

/-! ## Opened comments -/

/-- What has no closer after it stays open. -/
theorem slash_mem_of_opened {m : Text} (h : ¬ ['*', '/'] <:+: m) :
    '/' ∈ deleteBlockComments ('/' :: '*' :: m) := by
  rw [deleteBlockComments_opened h]
  exact List.mem_cons_self

/-- Whether and where a comment that goes on in the lines `y` is closed there does
not depend on the lines before. -/
theorem deleteBlockComments_opened_lines (y : Text) :
    (∀ m, ¬ ['*', '/'] <:+: m →
      '/' ∈ deleteBlockComments ('/' :: '*' :: (m ++ '\n' :: y))) ∨
    ∃ r, ∀ m, ¬ ['*', '/'] <:+: m →
      deleteBlockComments ('/' :: '*' :: (m ++ '\n' :: y)) = deleteBlockComments r := by
  cases hcut : (Word.exact ['*', '/']).cut? y with
  | none =>
      have hy := Word.cut?_exact_eq_none_iff.1 hcut
      exact .inl fun m hm => slash_mem_of_opened
        (not_infix_append_cons_of_not_mem (by decide) hm hy)
  | some cut =>
      obtain ⟨u, l, r⟩ := cut
      obtain ⟨-, rfl, hu⟩ := (Word.cut?_exact_eq_some_iff_absent (by simp)).1 hcut
      refine .inr ⟨r, fun m hm => ?_⟩
      have hclosed : ¬ ['*', '/'] <:+: m ++ '\n' :: u :=
        not_infix_append_cons_of_not_mem (by decide) hm
          fun hi => hu (hi.trans (List.prefix_append u _).isInfix)
      rw [← deleteBlockComments_block hclosed r]
      simp only [List.cons_append, List.append_assoc]

/-! ## Both searches -/

/-- A script without the comments that the aggressive rules find in it. -/
def withoutComments (s : Text) : Text := deleteBlockComments (deleteLineComments s)

theorem deleteBlanks_aggressive (s : Text) :
    (aggressive s).deleteBlanks = (withoutComments s).deleteBlanks := by
  rw [aggressive_eq_finish, finish, trim_eq_mapGaps, deleteBlanks_mapGaps keepsBlank_endRule,
    tightenLastSemicolons_eq_mapGaps,
    deleteBlanks_mapGaps (Pattern.keepsBlank_gapRule allBlank_nil),
    flattenBlanks_eq_mapGaps, deleteBlanks_mapGaps keepsBlank_flatRule]
  rfl

theorem withoutComments_append_of_not_mem {k : Text} (h : '/' ∉ k) (s : Text) :
    withoutComments (k ++ s) = k ++ withoutComments s := by
  rw [withoutComments, deleteLineComments_append_of_not_mem h,
    deleteBlockComments_append_of_not_mem h]
  rfl

theorem withoutComments_comment (r : Remark) (s : Text) :
    withoutComments (r.comment ++ ['\n'] ++ s) = '\n' :: withoutComments s := by
  rw [List.append_assoc, List.singleton_append, withoutComments,
    deleteLineComments_append_newline, Remark.comment,
    deleteLineComments_slashes r.newline_not_mem, List.nil_append,
    deleteBlockComments_newline]
  rfl

namespace Block

variable {b : Block}

theorem deleteLineComments_comment_append (h : ¬ ['/', '/'] <:+: lastLine b.text)
    (s : Text) :
    deleteLineComments (b.comment ++ s) =
      '/' :: '*' :: (deleteLineComments b.text ++ '*' :: deleteLineComments ('/' :: s)) := by
  have hlast := deleteLineComments_append_of_lastLine h (c := '*') (by decide) ('/' :: s)
  rw [← hlast, ← deleteLineComments_opener]
  simp [comment]

theorem closer_not_infix_deleteLineComments (b : Block) :
    ¬ ['*', '/'] <:+: deleteLineComments b.text :=
  not_infix_deleteLineComments (by decide) b.unclosed

/-- A block comment without two slashes on its last line is deleted, if no slash
follows it. -/
theorem withoutComments_comment_append (h : ¬ ['/', '/'] <:+: lastLine b.text) {s : Text}
    (hs : ¬ ['/'] <+: s) : withoutComments (b.comment ++ s) = withoutComments s := by
  have hslash : deleteLineComments ('/' :: s) = '/' :: deleteLineComments s :=
    deleteLineComments_cons fun hp => hs (List.cons_prefix_cons.1 hp).2
  rw [withoutComments, withoutComments, deleteLineComments_comment_append h, hslash,
    ← deleteBlockComments_block b.closer_not_infix_deleteLineComments (deleteLineComments s)]
  simp only [List.cons_append, List.append_assoc, List.nil_append]

/-- If a slash follows it that takes the closer away, and everything up to the end,
it is cut. -/
theorem slash_mem_of_followed (h : ¬ ['/', '/'] <:+: lastLine b.text) {s : Text}
    (hs : '/' ∉ deleteLineComments ('/' :: s)) :
    '/' ∈ withoutComments (b.comment ++ s) := by
  rw [withoutComments, deleteLineComments_comment_append h]
  exact slash_mem_of_opened
    (Pattern.closer_not_infix_append b.closer_not_infix_deleteLineComments
      (List.not_mem_cons_of_ne_of_not_mem (by decide) hs))

/-- Two slashes on its last line cut it. -/
theorem slash_mem_of_cut (h : ['/', '/'] <:+: lastLine b.text) :
    '/' ∈ withoutComments b.comment := by
  rw [withoutComments, comment, deleteLineComments_opener,
    deleteLineComments_append_of_cut h (by decide)]
  exact slash_mem_of_opened b.closer_not_infix_deleteLineComments

/-- Two block comments in a row are as good as the second, if that has more than
one line. -/
theorem withoutComments_comment_comment (h : ¬ ['/', '/'] <:+: lastLine b.text) {d : Block}
    (hd : '\n' ∈ d.text) (s : Text) :
    withoutComments (b.comment ++ (d.comment ++ s)) = withoutComments (d.comment ++ s) ∨
      '/' ∈ withoutComments (b.comment ++ (d.comment ++ s)) ∧
        '/' ∈ withoutComments (d.comment ++ s) := by
  obtain ⟨k, t, hdt, hk⟩ := List.eq_append_cons_of_mem hd
  have hunclosed := d.unclosed
  rw [hdt] at hunclosed
  have hleft : ¬ ['*', '/'] <:+: deleteLineComments k :=
    not_infix_deleteLineComments (by decide)
      fun hi => hunclosed (hi.trans (List.prefix_append k _).isInfix)
  have hboth : ¬ ['*', '/'] <:+: deleteLineComments b.text ++ ['*'] :=
    Pattern.closer_not_infix_append b.closer_not_infix_deleteLineComments (by decide)
  -- The later lines of the second comment, and all that follows.
  let y := deleteLineComments (t ++ (['*', '/'] ++ s))
  have hsecond : deleteLineComments (d.comment ++ s) =
      '/' :: '*' :: (deleteLineComments k ++ '\n' :: y) := by
    rw [← deleteLineComments_append_newline, ← deleteLineComments_opener, comment, hdt]
    simp
  have hfirst : deleteLineComments (b.comment ++ (d.comment ++ s)) =
      '/' :: '*' :: (deleteLineComments b.text ++ ['*'] ++ '\n' :: y) := by
    have hline : '/' :: (d.comment ++ s) =
        '/' :: '/' :: ('*' :: k) ++ '\n' :: (t ++ (['*', '/'] ++ s)) := by
      rw [comment, hdt]
      simp
    have hstar : '\n' ∉ '*' :: k :=
      List.not_mem_cons_of_ne_of_not_mem (by decide) hk
    rw [deleteLineComments_comment_append h, hline, deleteLineComments_append_newline,
      deleteLineComments_slashes hstar]
    simp only [List.append_assoc, List.singleton_append, List.nil_append, y]
  rw [withoutComments, withoutComments, hfirst, hsecond]
  rcases deleteBlockComments_opened_lines y with hopen | ⟨r, hr⟩
  · exact .inr ⟨hopen _ hboth, hopen _ hleft⟩
  · exact .inl ((hr _ hboth).trans (hr _ hleft).symm)

end Block

/-! ## Pieces of a script -/

/-- Code that has no slash in it, so that no comment starts there. -/
structure Passage where
  text : Text
  slash_not_mem : '/' ∉ text

/-- A piece of a script. -/
inductive Piece where
  | code (passage : Passage)
  | comment (remark : Remark)
  | block (block : Block)

namespace Piece

/-- A line comment has the line feed after it. -/
def text : Piece → Text
  | code c => c.text
  | comment r => r.comment ++ ['\n']
  | block b => b.comment

/-- A piece without comments. -/
def bare : Piece → Text
  | code c => c.text
  | comment _ => []
  | block _ => []

/-- A script with these pieces. -/
def source (ps : List Piece) : Text := ps.flatMap text

/-- The code of a script. -/
def passages (ps : List Piece) : Text := ps.flatMap bare

theorem slash_not_mem_passages (ps : List Piece) : '/' ∉ passages ps := by
  intro h
  obtain ⟨p, -, hp⟩ := List.mem_flatMap.1 h
  cases p with
  | code c => exact c.slash_not_mem hp
  | comment r => exact List.not_mem_nil hp
  | block b => exact List.not_mem_nil hp

/-! ## Closed pieces -/

/-- The first piece that has a text. -/
def next (ps : List Piece) : Option Piece := ps.find? fun p => !p.text.isEmpty

/-- The piece can stand right behind a block comment. -/
def Follows : Piece → Prop
  | code _ => True
  | comment _ => False
  | block b => '\n' ∈ b.text

/-- Neither the piece nor what follows takes its closer away. -/
def Closed (later : List Piece) : Piece → Prop
  | code _ => True
  | comment _ => True
  | block b => ¬ ['/', '/'] <:+: lastLine b.text ∧ ∀ p ∈ next later, p.Follows

theorem exists_of_next {ps : List Piece} {p : Piece} (h : p ∈ next ps) :
    ∃ qs rs, ps = qs ++ p :: rs ∧ source qs = [] ∧ p.text ≠ [] := by
  obtain ⟨hp, qs, rs, hps, hqs⟩ := List.find?_eq_some_iff_append.1 h
  refine ⟨qs, rs, hps, List.flatMap_eq_nil_iff.2 fun q hq => ?_, by simpa using hp⟩
  simpa using hqs q hq

theorem source_of_next_eq_none {ps : List Piece} (h : next ps = none) : source ps = [] :=
  List.flatMap_eq_nil_iff.2 fun p hp => by simpa using List.find?_eq_none.1 h p hp

theorem next_of_initial {qs ps : List Piece} (h : qs <+: ps) {p : Piece} (hp : p ∈ next qs) :
    p ∈ next ps := by
  obtain ⟨rs, rfl⟩ := h
  have hfind : qs.find? (fun p => !p.text.isEmpty) = some p := hp
  show (qs ++ rs).find? (fun p => !p.text.isEmpty) = some p
  rw [List.find?_append, hfind, Option.some_or]

theorem Closed.of_initial {p : Piece} {qs ps : List Piece} (h : p.Closed ps)
    (hqs : qs <+: ps) : p.Closed qs := by
  cases p with
  | code c => trivial
  | comment r => trivial
  | block b => exact ⟨h.1, fun p hp => h.2 p (next_of_initial hqs hp)⟩

/-- A closed block comment leaves nothing, unless there is one after it that is cut. -/
theorem Closed.withoutComments_append {b : Block} {later : List Piece}
    (h : (block b).Closed later) :
    withoutComments (b.comment ++ source later) = withoutComments (source later) ∨
      '/' ∈ withoutComments (b.comment ++ source later) ∧ '/' ∈ withoutComments (source later) := by
  cases hnext : next later with
  | none =>
      rw [source_of_next_eq_none hnext]
      exact .inl (Block.withoutComments_comment_append h.1 (by simp))
  | some p =>
      have hfollows := h.2 p hnext
      obtain ⟨qs, rs, rfl, hqs, hp⟩ := exists_of_next hnext
      have hsource : source (qs ++ p :: rs) = p.text ++ source rs := by
        rw [source, List.flatMap_append, List.flatMap_cons]
        exact congrArg (· ++ (p.text ++ source rs)) hqs
      rw [hsource]
      cases p with
      | code c =>
          refine .inl (Block.withoutComments_comment_append h.1 fun hslash => ?_)
          obtain ⟨d, t, ht⟩ := List.exists_cons_of_ne_nil hp
          rw [ht] at hslash
          have hd : '/' ∈ text (code c) := by
            rw [ht, (List.cons_prefix_cons.1 hslash).1]
            exact List.mem_cons_self
          exact c.slash_not_mem hd
      | comment r => exact absurd hfollows id
      | block d => exact Block.withoutComments_comment_comment h.1 hfollows (source rs)

/-- The slash of another piece takes all of it away up to a line feed. -/
theorem slash_not_mem_of_not_follows {p : Piece} (h : ¬ p.Follows) :
    '/' ∉ deleteLineComments ('/' :: p.text) := by
  cases p with
  | code c => exact absurd trivial h
  | comment r =>
      have hline : '\n' ∉ '/' :: r.text :=
        List.not_mem_cons_of_ne_of_not_mem (by decide) r.newline_not_mem
      have hbreak := deleteLineComments_append_newline ('/' :: '/' :: '/' :: r.text) []
      rw [deleteLineComments_slashes hline] at hbreak
      rw [show '/' :: text (comment r) = '/' :: '/' :: '/' :: r.text ++ ['\n'] from rfl,
        hbreak]
      exact List.not_mem_cons_of_ne_of_not_mem (by decide) List.not_mem_nil
  | block b =>
      have hline : '\n' ∉ '*' :: (b.text ++ ['*', '/']) := by
        have hb : '\n' ∉ b.text := h
        simp [hb]
      rw [show '/' :: text (block b) = '/' :: '/' :: '*' :: (b.text ++ ['*', '/']) from rfl,
        deleteLineComments_slashes hline]
      exact List.not_mem_nil

/-! ## What is left of a script -/

/-- No block comment of a script is cut. -/
def AllClosed : List Piece → Prop
  | [] => True
  | p :: later => p.Closed later ∧ AllClosed later

theorem AllClosed.of_initial {qs : List Piece} :
    ∀ {ps : List Piece}, AllClosed ps → qs <+: ps → AllClosed qs := by
  induction qs with
  | nil => intro ps h hqs; trivial
  | cons p qs ih =>
      intro ps h hqs
      obtain ⟨rs, rfl⟩ := hqs
      have hqs : qs <+: qs ++ rs := List.prefix_append qs rs
      exact ⟨h.1.of_initial hqs, ih h.2 hqs⟩

theorem slash_mem_deleteBlanks {s : Text} : '/' ∈ s.deleteBlanks ↔ '/' ∈ s := by
  rw [deleteBlanks, List.mem_filter]
  exact and_iff_left (by decide)

theorem AllClosed.deleteBlanks_withoutComments {ps : List Piece} (h : AllClosed ps) :
    (withoutComments (source ps)).deleteBlanks = (passages ps).deleteBlanks := by
  induction ps with
  | nil => rfl
  | cons p later ih =>
      have hlater := ih h.2
      rw [source, List.flatMap_cons, passages, List.flatMap_cons, ← source, ← passages]
      cases p with
      | code c =>
          rw [text, bare, withoutComments_append_of_not_mem c.slash_not_mem,
            deleteBlanks_append, deleteBlanks_append, hlater]
      | comment r =>
          rw [text, bare, withoutComments_comment, List.nil_append, ← hlater]
          rfl
      | block b =>
          rw [text, bare, List.nil_append]
          rcases h.1.withoutComments_append with heq | ⟨-, hslash⟩
          · rw [heq, hlater]
          · rw [← slash_mem_deleteBlanks, hlater, slash_mem_deleteBlanks] at hslash
            exact absurd hslash (slash_not_mem_passages later)

/-- If no part of a script is left with a slash, its block comments are closed. -/
theorem allClosed_of_slash_not_mem {ps : List Piece}
    (h : ∀ qs, qs <+: ps → '/' ∉ withoutComments (source qs)) : AllClosed ps := by
  induction ps with
  | nil => trivial
  | cons p later ih =>
      have htail : ∀ qs, qs <+: later → '/' ∉ withoutComments (p.text ++ source qs) :=
        fun qs hqs => h (p :: qs) (List.cons_prefix_cons.2 ⟨rfl, hqs⟩)
      cases p with
      | code c =>
          refine ⟨trivial, ih fun qs hqs hslash => htail qs hqs ?_⟩
          rw [text, withoutComments_append_of_not_mem c.slash_not_mem]
          exact List.mem_append_right _ hslash
      | comment r =>
          refine ⟨trivial, ih fun qs hqs hslash => htail qs hqs ?_⟩
          rw [text, withoutComments_comment]
          exact List.mem_cons_of_mem _ hslash
      | block b =>
          have hlast : ¬ ['/', '/'] <:+: lastLine b.text := by
            intro hcut
            refine htail [] List.nil_prefix ?_
            rw [text, source, List.flatMap_nil, List.append_nil]
            exact Block.slash_mem_of_cut hcut
          have hnext : ∀ p ∈ next later, p.Follows := by
            intro p hp
            by_contra hfollows
            obtain ⟨qs, rs, rfl, hqs, -⟩ := exists_of_next hp
            refine htail (qs ++ [p]) ⟨rs, by simp⟩ ?_
            rw [source] at hqs
            rw [text, source, List.flatMap_append, hqs, List.flatMap_singleton]
            exact Block.slash_mem_of_followed hlast (slash_not_mem_of_not_follows hfollows)
          have hclosed : (block b).Closed later := ⟨hlast, hnext⟩
          refine ⟨hclosed, ih fun qs hqs hslash => ?_⟩
          rcases (hclosed.of_initial hqs).withoutComments_append with heq | ⟨hcut, -⟩
          · exact htail qs hqs (heq ▸ hslash)
          · exact htail qs hqs hcut

/-- The aggressive rules leave the code of a script, but for blanks, and of every
part that ends with one of its pieces, if and only if its pieces are closed. -/
theorem deleteBlanks_aggressive_iff (ps : List Piece) :
    (∀ qs, qs <+: ps →
      (aggressive (source qs)).deleteBlanks = (passages qs).deleteBlanks) ↔ AllClosed ps := by
  constructor
  · intro h
    refine allClosed_of_slash_not_mem fun qs hqs hslash => ?_
    rw [← slash_mem_deleteBlanks, ← deleteBlanks_aggressive, h qs hqs,
      slash_mem_deleteBlanks] at hslash
    exact slash_not_mem_passages qs hslash
  · intro h qs hqs
    rw [deleteBlanks_aggressive]
    exact (h.of_initial hqs).deleteBlanks_withoutComments

/-- An address at the end of a block comment costs the code behind it. -/
theorem aggressive_address_not_kept :
    ¬ ∀ ps : List Piece,
      (aggressive (source ps)).deleteBlanks = (passages ps).deleteBlanks := by
  intro h
  have hkept := h [.block ⟨" see http://x.org ".toList, by decide⟩,
    .code ⟨"\nf();".toList, by decide⟩]
  exact absurd hkept (by decide +kernel)

end Piece

end HtmlMinifier.Script
