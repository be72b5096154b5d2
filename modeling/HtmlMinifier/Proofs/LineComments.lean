import HtmlMinifier.Proofs.ElementSearch
import HtmlMinifier.Script

/-!
# Line comments

A line comment goes from two slashes to the end of their line, whatever it is
that they stand in: the pass that deletes line comments knows of no string and
of no block comment. So what it makes of a line is the part before the first two
slashes, and of a text the same for each line (`deleteLineComments_append_newline`).
Nothing it leaves is brought together but at a line feed, so neither two slashes
nor the end of a block comment can come about.
-/

namespace HtmlMinifier

theorem Text.line_induction {motive : Text → Prop}
    (last : ∀ k, '\n' ∉ k → motive k)
    (line : ∀ k s, '\n' ∉ k → motive s → motive (k ++ '\n' :: s))
    (s : Text) : motive s := by
  induction hn : s.length using Nat.strongRecOn generalizing s with
  | ind n ih =>
      by_cases h : '\n' ∈ s
      · obtain ⟨k, t, rfl, hk⟩ := List.eq_append_cons_of_mem h
        refine line k t hk (ih t.length ?_ t rfl)
        rw [← hn, List.length_append, List.length_cons]
        omega
      · exact last s h

namespace Script

open Text

/-! ## Reading a line comment -/

theorem read?_lineComment_eq_none {b : Bool} {s : Text}
    (h : ¬ ['/', '/'] <+: s) : lineComment.read? b s = none := by
  simp only [lineComment]
  split
  · next t => exact absurd ⟨t, rfl⟩ h
  · rfl

theorem lineBlind_lineComment : lineComment.LineBlind := fun _ _ _ => rfl

/-- A line feed after a text changes nothing of what is read in it. -/
theorem read?_lineComment_append_newline (b : Bool) (c : Char) (t s : Text) :
    lineComment.read? b (c :: t ++ '\n' :: s) = lineComment.read? b (c :: t) := by
  by_cases h : ['/', '/'] <+: c :: t
  · obtain ⟨u, hu⟩ := h
    rw [← hu]
    have hline : firstLine (u ++ '\n' :: s) = firstLine u := by
      rw [firstLine, firstLine, List.takeWhile_append]
      split
      · next hall =>
          rw [List.takeWhile_cons, if_neg (by decide), List.append_nil,
            (List.takeWhile_prefix _).eq_of_length hall]
      · rfl
    simp [lineComment, hline]
  · rw [read?_lineComment_eq_none h, read?_lineComment_eq_none]
    exact fun hp => h (prefix_of_prefix_append (by decide) hp)

/-! ## What is left of a line -/

theorem deleteLineComments_cons {c : Char} {s : Text}
    (h : ¬ ['/', '/'] <+: c :: s) :
    deleteLineComments (c :: s) = c :: deleteLineComments s :=
  lineBlind_lineComment.replaceWith_cons (read?_lineComment_eq_none h)

theorem deleteLineComments_cons_of_ne {c : Char} {s : Text} (h : c ≠ '/') :
    deleteLineComments (c :: s) = c :: deleteLineComments s :=
  deleteLineComments_cons fun hp => h (List.cons_prefix_cons.1 hp).1.symm

theorem deleteLineComments_of_absent {s : Text} (h : ¬ ['/', '/'] <:+: s) :
    deleteLineComments s = s :=
  Pattern.replaceWith_of_none fun _ _ ht => read?_lineComment_eq_none
    fun hp => h (hp.isInfix.trans ht.isInfix)

theorem deleteLineComments_append_of_not_mem {k : Text} (h : '/' ∉ k) (s : Text) :
    deleteLineComments (k ++ s) = k ++ deleteLineComments s :=
  lineBlind_lineComment.replaceWith_append (fun _ hc _ => read?_lineComment_eq_none fun hp =>
    ne_of_mem_of_not_mem hc h (List.cons_prefix_cons.1 hp).1.symm) s

/-- A stretch without two slashes is copied, if no slash follows it. -/
theorem deleteLineComments_append_cons {w : Text} {c : Char} (hc : c ≠ '/')
    (hw : ¬ ['/', '/'] <:+: w) (s : Text) :
    deleteLineComments (w ++ c :: s) = w ++ c :: deleteLineComments s := by
  induction w with
  | nil => exact deleteLineComments_cons_of_ne hc
  | cons d w ih =>
      rw [List.infix_cons_iff, not_or] at hw
      have hcut : c ∉ ['/', '/'] := by simpa using hc
      rw [List.cons_append, deleteLineComments_cons, ih hw.2]
      · rfl
      · exact fun hp => hw.1 (prefix_of_prefix_append (u := d :: w) hcut hp)

/-- A line comment at the head of a line leaves nothing of it. -/
theorem deleteLineComments_slashes {z : Text} (hz : '\n' ∉ z) :
    deleteLineComments ('/' :: '/' :: z) = [] := by
  have hread : lineComment.read? true ('/' :: '/' :: z) =
      some ⟨['/', '/'], z, []⟩ := by
    simp only [lineComment, firstLine]
    rw [List.takeWhile_eq_self_iff.2 (bne_newline_of_not_mem hz)]
  exact lineBlind_lineComment.replaceWith_hit (List.append_nil _).symm
    (by simp [Occurrence.text]) hread

theorem deleteLineComments_line {k : Text} (hk : '\n' ∉ k) :
    deleteLineComments k <+: k := by
  induction k with
  | nil => exact List.nil_prefix
  | cons c k ih =>
      by_cases hp : ['/', '/'] <+: c :: k
      · obtain ⟨z, hz⟩ := hp
        rw [← hz] at hk ⊢
        rw [List.mem_append, not_or] at hk
        rw [List.cons_append, List.cons_append, List.nil_append,
          deleteLineComments_slashes hk.2]
        exact List.nil_prefix
      · rw [deleteLineComments_cons hp]
        exact List.cons_prefix_cons.2
          ⟨rfl, ih (List.not_mem_of_not_mem_cons hk)⟩

/-- A comment in a line takes all that follows on it. -/
theorem deleteLineComments_append_of_comment {k v : Text} (hk : ['/', '/'] <:+: k)
    (hkn : '\n' ∉ k) (hvn : '\n' ∉ v) :
    deleteLineComments (k ++ v) = deleteLineComments k := by
  induction k with
  | nil => exact absurd hk (by simp)
  | cons c k ih =>
      by_cases hp : ['/', '/'] <+: c :: k
      · obtain ⟨z, hz⟩ := hp
        rw [← hz] at hkn ⊢
        rw [List.mem_append, not_or] at hkn
        have hall : '\n' ∉ z ++ v := by
          rw [List.mem_append, not_or]
          exact ⟨hkn.2, hvn⟩
        rw [List.append_assoc]
        exact (deleteLineComments_slashes hall).trans
          (deleteLineComments_slashes hkn.2).symm
      · have hin := (List.infix_cons_iff.1 hk).resolve_left hp
        have hp' : ¬ ['/', '/'] <+: c :: (k ++ v) := by
          intro h
          obtain ⟨rfl, hv⟩ := List.cons_prefix_cons.1 h
          cases k with
          | nil => exact absurd hin (by simp)
          | cons d k =>
              obtain ⟨rfl, -⟩ := List.cons_prefix_cons.1 hv
              exact hp (List.prefix_append ['/', '/'] k)
        rw [List.cons_append, deleteLineComments_cons hp',
          deleteLineComments_cons hp,
          ih hin (List.not_mem_of_not_mem_cons hkn)]

/-- The lines of a text are treated apart. -/
theorem deleteLineComments_append_newline (s t : Text) :
    deleteLineComments (s ++ '\n' :: t) =
      deleteLineComments s ++ '\n' :: deleteLineComments t := by
  have happend := Pattern.replaceFrom_append_of_read (p := lineComment)
    (f := fun _ => []) (b := true) (s := s) (e := '\n' :: t)
    fun b c u _ => read?_lineComment_append_newline b c u t
  rw [lineBlind_lineComment.replaceFrom_eq, lineBlind_lineComment.replaceFrom_eq,
    lineBlind_lineComment.replaceFrom_eq] at happend
  refine happend.trans (congrArg (deleteLineComments s ++ ·) ?_)
  exact deleteLineComments_cons_of_ne (by decide)

/-! ## What does not come about -/

theorem slashes_not_infix_of_line {k : Text} (hk : '\n' ∉ k) :
    ¬ ['/', '/'] <:+: deleteLineComments k := by
  induction k with
  | nil =>
      show ¬ ['/', '/'] <:+: []
      simp
  | cons c k ih =>
      by_cases hp : ['/', '/'] <+: c :: k
      · obtain ⟨z, hz⟩ := hp
        rw [← hz, List.mem_append, not_or] at hk
        rw [← hz, List.cons_append, List.cons_append, List.nil_append,
          deleteLineComments_slashes hk.2]
        simp
      · have hkn := List.not_mem_of_not_mem_cons hk
        have hhead : c :: deleteLineComments k <+: c :: k :=
          List.cons_prefix_cons.2 ⟨rfl, deleteLineComments_line hkn⟩
        rw [deleteLineComments_cons hp, List.infix_cons_iff, not_or]
        exact ⟨fun h => hp (h.trans hhead), ih hkn⟩

/-- No line comment is left, and none comes about. -/
theorem slashes_not_infix_deleteLineComments (s : Text) :
    ¬ ['/', '/'] <:+: deleteLineComments s := by
  induction s using line_induction with
  | last k hk => exact slashes_not_infix_of_line hk
  | line k s hk ih =>
      rw [deleteLineComments_append_newline]
      exact not_infix_append_cons_of_not_mem (by decide)
        (slashes_not_infix_of_line hk) ih

/-- What is left of a line is its head, so no word comes about in it. -/
theorem not_infix_deleteLineComments {w s : Text} (hw : '\n' ∉ w)
    (h : ¬ w <:+: s) : ¬ w <:+: deleteLineComments s := by
  induction s using line_induction with
  | last k hk => exact fun hi => h (hi.trans (deleteLineComments_line hk).isInfix)
  | line k s hk ih =>
      have hleft : ¬ w <:+: k := fun hi => h (hi.trans (List.prefix_append k _).isInfix)
      have hright : ¬ w <:+: s := fun hi =>
        h (hi.trans ((List.suffix_cons '\n' s).trans (List.suffix_append k _)).isInfix)
      rw [deleteLineComments_append_newline]
      refine not_infix_append_cons_of_not_mem hw (fun hi => hleft ?_) (ih hright)
      exact hi.trans (deleteLineComments_line hk).isInfix

end Script

end HtmlMinifier
