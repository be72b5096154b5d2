import HtmlMinifier.Proofs.ElementSearch
import HtmlMinifier.Script
import Mathlib.Data.List.Infix

/-!
# What deleting block comments comes to

The rules for style sheets and those for scripts delete block comments by a
search for a pattern. What the search makes of a text can be said without it,
from the head of the text on: a character stays, unless a comment that is closed
starts with it, and a comment goes, up to its first closer. `Uncommented` says
that, and it is the pass (`uncommented_iff`). What is needed of the pass later is
read off from there. An opener that nothing closes is plain text, so a text in
which no opener has a closer after it stays as it is
(`deleteBlockComments_of_unclosed`).
-/

namespace HtmlMinifier

namespace Pattern

/-- Reads `t` as what `s` is without its block comments. -/
inductive Uncommented : Text → Text → Prop
  | nil : Uncommented [] []
  | char {c : Char} {s t : Text}
      (hopen : ∀ v, c :: s = '/' :: '*' :: v → ¬ ['*', '/'] <:+: v)
      (hrest : Uncommented s t) : Uncommented (c :: s) (c :: t)
  | comment {b s t : Text} (hclose : ¬ ['*', '/'] <:+: b)
      (hrest : Uncommented s t) :
      Uncommented ('/' :: '*' :: (b ++ ['*', '/']) ++ s) t

theorem read?_blockComment_eq_none_iff {b : Bool} {s : Text} :
    blockComment.read? b s = none ↔
      ∀ v, s = '/' :: '*' :: v → ¬ ['*', '/'] <:+: v :=
  read?_enclosure_word_eq_none_iff

/-- No closer comes about where no slash is put behind a text. -/
theorem closer_not_infix_append {t w : Text} (h : ¬ ['*', '/'] <:+: t)
    (hw : '/' ∉ w) : ¬ ['*', '/'] <:+: t ++ w :=
  not_infix_append_of_last_not_mem (l := ['*']) hw h

theorem Uncommented.eq_delete {s t : Text} (h : Uncommented s t) :
    t = blockComment.delete s := by
  induction h with
  | nil => rfl
  | char hopen _ ih =>
      rw [ih]
      exact (lineBlind_enclosure.replaceWith_cons
        (read?_blockComment_eq_none_iff.2 hopen)).symm
  | @comment b s t hclose _ ih =>
      have hread : blockComment.read? true ('/' :: '*' :: (b ++ ['*', '/']) ++ s) =
          some ⟨['/', '*'], b, ['*', '/']⟩ :=
        (read?_enclosure_word_eq_some_iff (by decide)).2
          ⟨b, s, rfl, by simp, closer_not_infix_append hclose (by decide)⟩
      rw [ih]
      exact (lineBlind_enclosure.replaceWith_hit (f := fun _ => []) rfl
        (by simp [Occurrence.text]) hread).symm

theorem uncommented_delete (s : Text) : Uncommented s (blockComment.delete s) := by
  show Uncommented s (blockComment.replaceFrom (fun _ => []) true s)
  induction true, s using blockComment.search_induction with
  | nil b => exact .nil
  | plain b c s h ih =>
      rw [replaceFrom_plain h]
      exact .char (read?_blockComment_eq_none_iff.1 h) ih
  | hit b o r h ih =>
      obtain ⟨B, q, rfl, hs, hclose⟩ := (read?_enclosure_word_eq_some_iff (by decide)).1 h
      rw [replaceFrom_hit h]
      refine Uncommented.comment (b := B) (fun hi => hclose ?_) ih
      exact hi.trans (List.prefix_append B _).isInfix

/-- The search for block comments deletes what has to go, and nothing else. -/
theorem uncommented_iff {s t : Text} :
    Uncommented s t ↔ blockComment.delete s = t := by
  constructor
  · intro h
    exact h.eq_delete.symm
  · rintro rfl
    exact uncommented_delete s

end Pattern

namespace Script

open Pattern

theorem deleteBlockComments_cons {c : Char} {s : Text}
    (h : ∀ v, c :: s = '/' :: '*' :: v → ¬ ['*', '/'] <:+: v) :
    deleteBlockComments (c :: s) = c :: deleteBlockComments s :=
  (Uncommented.char h (uncommented_delete s)).eq_delete.symm

theorem deleteBlockComments_block {t : Text} (h : ¬ ['*', '/'] <:+: t) (s : Text) :
    deleteBlockComments ('/' :: '*' :: (t ++ ['*', '/']) ++ s) =
      deleteBlockComments s :=
  (Uncommented.comment h (uncommented_delete s)).eq_delete.symm

theorem deleteBlockComments_append_of_not_mem {k : Text} (h : '/' ∉ k) (s : Text) :
    deleteBlockComments (k ++ s) = k ++ deleteBlockComments s := by
  induction k with
  | nil => rfl
  | cons c k ih =>
      obtain ⟨hc, hk⟩ := List.ne_and_not_mem_of_not_mem_cons h
      rw [List.cons_append, deleteBlockComments_cons, ih hk, List.cons_append]
      exact fun v hv => absurd (List.cons.inj hv).1.symm hc

theorem deleteBlockComments_newline (s : Text) :
    deleteBlockComments ('\n' :: s) = '\n' :: deleteBlockComments s :=
  deleteBlockComments_append_of_not_mem (k := ['\n']) (by decide) s

/-! ## Openers -/

/-- What follows each slash and star of a text. -/
def opened (s : Text) : List Text :=
  (s.tails.filter fun t => ['/', '*'].isPrefixOf t).map (·.drop 2)

theorem mem_opened_iff {s v : Text} : v ∈ opened s ↔ '/' :: '*' :: v <:+ s := by
  rw [opened, List.mem_map]
  constructor
  · rintro ⟨t, ht, rfl⟩
    obtain ⟨hsuffix, hprefix⟩ := List.mem_filter.1 ht
    obtain ⟨u, rfl⟩ := List.isPrefixOf_iff_prefix.1 hprefix
    exact (List.mem_tails _ _).1 hsuffix
  · intro h
    exact ⟨_, List.mem_filter.2 ⟨(List.mem_tails _ _).2 h, rfl⟩, rfl⟩

/-- What is opened in the text is not closed in it. -/
def Unclosed (s : Text) : Prop := ∀ v ∈ opened s, ¬ ['*', '/'] <:+: v

theorem unclosed_of_absent {s : Text} (h : ¬ ['*', '/'] <:+: s) : Unclosed s := by
  intro v hv hclose
  have hsuffix : v <:+ s := (List.suffix_append ['/', '*'] v).trans (mem_opened_iff.1 hv)
  exact h (hclose.trans hsuffix.isInfix)

/-- A text that opens nothing that is closed in it, or in what follows, is copied. The
opener of what follows must not begin in it. -/
theorem deleteBlockComments_append_of_opened {k s : Text}
    (h : ∀ v ∈ opened k, ¬ ['*', '/'] <:+: v ++ s) (hs : ¬ ['*'] <+: s) :
    deleteBlockComments (k ++ s) = k ++ deleteBlockComments s := by
  induction k with
  | nil => rfl
  | cons c k ih =>
      rw [List.cons_append, deleteBlockComments_cons, ih, List.cons_append]
      · exact fun v hv => h v (mem_opened_iff.2
          ((mem_opened_iff.1 hv).trans (List.suffix_cons c k)))
      · intro v hv
        obtain ⟨rfl, htail⟩ := List.cons.inj hv
        cases k with
        | nil => exact absurd ⟨v, htail.symm⟩ hs
        | cons d k =>
            obtain ⟨rfl, rfl⟩ := List.cons.inj htail
            exact h k (mem_opened_iff.2 (List.suffix_refl _))

theorem deleteBlockComments_of_unclosed {s : Text} (h : Unclosed s) :
    deleteBlockComments s = s := by
  have hs := deleteBlockComments_append_of_opened (k := s) (s := [])
    (fun v hv => by rw [List.append_nil]; exact h v hv) (by simp)
  rw [List.append_nil] at hs
  exact hs.trans (List.append_nil s)

/-- An opener that nothing closes is copied, with all that follows. -/
theorem deleteBlockComments_opened {s : Text} (h : ¬ ['*', '/'] <:+: s) :
    deleteBlockComments ('/' :: '*' :: s) = '/' :: '*' :: s := by
  have hstar : deleteBlockComments ('*' :: s) = '*' :: s := by
    rw [deleteBlockComments_cons fun v hv => absurd (List.cons.inj hv).1 (by decide),
      deleteBlockComments_of_unclosed (unclosed_of_absent h)]
  rw [deleteBlockComments_cons, hstar]
  intro v hv
  rwa [← (List.cons.inj (List.cons.inj hv).2).2]

/-- A character behind an opener makes no difference, if the closer comes later. -/
theorem deleteBlockComments_opened_cons {c : Char} {s : Text}
    (hclose : ['*', '/'] <:+: c :: s) (hc : ¬ ['*', '/'] <+: c :: s) :
    deleteBlockComments ('/' :: '*' :: c :: s) = deleteBlockComments ('/' :: '*' :: s) := by
  have hs : ['*', '/'] <:+: s := (List.infix_cons_iff.1 hclose).resolve_left hc
  cases hcut : (Word.exact ['*', '/']).cut? s with
  | none => exact absurd hs (Word.cut?_exact_eq_none_iff.1 hcut)
  | some cut =>
      obtain ⟨b, m, r⟩ := cut
      obtain ⟨-, rfl, hb⟩ := (Word.cut?_exact_eq_some_iff_absent (by simp)).1 hcut
      have hshort : ¬ ['*', '/'] <:+: b := fun hi => hb (hi.trans (List.prefix_append b _).isInfix)
      have hlong : ¬ ['*', '/'] <:+: c :: b := by
        rw [List.infix_cons_iff, not_or]
        exact ⟨fun hp => hc (hp.trans (List.prefix_append (c :: b) _)), hshort⟩
      have hfirst := deleteBlockComments_block hlong r
      have hsecond := deleteBlockComments_block hshort r
      simp only [List.cons_append, List.append_assoc, List.nil_append] at hfirst hsecond ⊢
      rw [hfirst, hsecond]

end Script

end HtmlMinifier
