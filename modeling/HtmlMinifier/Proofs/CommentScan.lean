import HtmlMinifier.Markup.Comment
import HtmlMinifier.Proofs.WordSearch

/-!
# The comment scan deletes what one pattern describes

The scan follows no pattern. It passes a conditional opener by one byte, gives
up at the first opener that is never closed, and moves two cursors of which one
lags behind. What it computes can be said without any of this: of the comments
that are not conditional, each the leftmost one after the one before it and
each up to its first closer, nothing stays, and everything else does.
`Stripped` says that, place by place.

Between the two stands the pattern `unconditional`, a comment less the
conditional ones. One step of the scan is accounted for by the segments that
the search for this pattern meets (`next?_cases`): a step that passes or
removes agrees with the search up to where the cursor goes, and a step that
finishes does so where the search has nothing left to find, an unclosed opener
included, because what has no closer after it has none later either. The run
lemma carries one invariant about the two cursors, that the lagging one has
exactly the text between them still to copy.
-/

namespace HtmlMinifier.Comment

/-! ## What has to go -/

/-- A comment that is not conditional and is closed stands at the head of the
text. -/
def Removable (s : Text) : Prop :=
  opener <+: s ∧ ¬ conditionalOpener <+: s ∧ closer <:+: s.drop opener.length

/-- Reads `t` as what is left of `s`: as long as there is a comment to remove,
the leftmost one goes, up to its first closer, and what follows it is treated
in the same way. -/
inductive Stripped : Text → Text → Prop
  | rest {s : Text} (hnone : ∀ p, ¬ Removable (s.drop p)) : Stripped s s
  | comment {a c r t : Text}
      (hplain : ¬ conditionalOpener <+: opener ++ (c ++ closer ++ r))
      (hleftmost : ∀ p < a.length,
        ¬ Removable ((a ++ (opener ++ (c ++ closer ++ r))).drop p))
      (hshortest : ∀ p < c.length, ¬ closer <+: (c ++ closer ++ r).drop p)
      (hnext : Stripped r t) :
      Stripped (a ++ (opener ++ (c ++ closer ++ r))) (a ++ t)

def unconditional : Pattern where
  read? b s :=
    if (Word.exact conditionalOpener).heads s then none else pattern.read? b s
  text_prefix h := by
    split at h
    · cases h
    · exact pattern.text_prefix h
  text_ne_nil h := by
    split at h
    · cases h
    · exact pattern.text_ne_nil h

theorem lineBlind_unconditional : unconditional.LineBlind :=
  fun _ _ _ => rfl

theorem read?_unconditional {b : Bool} {c r : Text}
    (hplain : ¬ conditionalOpener <+: opener ++ (c ++ closer ++ r))
    (hshortest : ∀ p < c.length, ¬ closer <+: (c ++ closer ++ r).drop p) :
    unconditional.read? b (opener ++ (c ++ closer ++ r)) =
      some ⟨opener, c, closer⟩ := by
  have hhead : (Word.exact conditionalOpener).heads
      (opener ++ (c ++ closer ++ r)) = false :=
    Word.heads_exact_eq_false_iff.2 hplain
  simp only [unconditional, hhead]
  refine Pattern.read?_enclosure_eq_some_iff.2 ⟨c ++ closer ++ r, r, ?_, ?_⟩
  · rw [Opener.read?_word, if_pos (Word.heads_exact.2 (List.prefix_append _ _)),
      List.drop_left]
  · exact Word.cut?_exact_eq_some_iff.2 ⟨rfl, rfl, hshortest⟩

theorem read?_unconditional_eq_none {b : Bool} {s : Text}
    (h : ¬ Removable s) : unconditional.read? b s = none := by
  simp only [unconditional]
  split
  · rfl
  · next hcond =>
      refine Option.eq_none_iff_forall_ne_some.2 fun o ho => h ?_
      obtain ⟨t, r, ht, hr⟩ := Pattern.read?_enclosure_eq_some_iff.1 ho
      rw [Opener.read?_word] at ht
      split at ht
      · next hopen =>
          injection ht with ht
          injection ht with _ ht
          subst ht
          have hcut := (Word.cut?_exact_eq_some_iff.1 hr).2.1
          refine ⟨Word.heads_exact.1 hopen, ?_, o.inner, r, hcut.symm⟩
          exact fun hp => hcond (Word.heads_exact.2 hp)
      · cases ht

theorem Removable.exists {s : Text} (h : Removable s) :
    ∃ c r, s = opener ++ (c ++ closer ++ r) ∧
      ∀ p < c.length, ¬ closer <+: (c ++ closer ++ r).drop p := by
  obtain ⟨⟨t, rfl⟩, -, hclose⟩ := h
  rw [List.drop_left] at hclose
  cases hcut : (Word.exact closer).cut? t with
  | none => exact absurd hclose (Word.cut?_exact_eq_none_iff.1 hcut)
  | some x =>
      obtain ⟨c, m, r⟩ := x
      obtain ⟨-, rfl, hshortest⟩ := Word.cut?_exact_eq_some_iff.1 hcut
      exact ⟨c, r, rfl, hshortest⟩

/-! ## The pattern and the description -/

/-- What is left without the comments that are not conditional. -/
def strip (s : Text) : Text := unconditional.delete s

theorem strip_append {a s : Text}
    (h : ∀ p < a.length, ¬ Removable ((a ++ s).drop p)) :
    strip (a ++ s) = a ++ strip s := by
  rw [strip, Pattern.delete, Pattern.replace, Pattern.replaceWith_eq,
    Pattern.replaceFrom_append, lineBlind_unconditional.replaceFrom_eq]
  · rfl
  · intro u c v hu
    subst hu
    have hp := h u.length (by simp)
    rw [List.append_assoc, List.drop_left] at hp
    exact read?_unconditional_eq_none hp

theorem strip_comment {c r : Text}
    (hplain : ¬ conditionalOpener <+: opener ++ (c ++ closer ++ r))
    (hshortest : ∀ p < c.length, ¬ closer <+: (c ++ closer ++ r).drop p) :
    strip (opener ++ (c ++ closer ++ r)) = strip r := by
  exact lineBlind_unconditional.replaceWith_hit (t := opener ++ c ++ closer)
    (r := r) (by simp) rfl (read?_unconditional hplain hshortest)

theorem strip_of_none {s : Text} (h : ∀ p, ¬ Removable (s.drop p)) :
    strip s = s := by
  have hs := strip_append (a := s) (s := []) fun p _ => by
    rw [List.append_nil]; exact h p
  rw [List.append_nil] at hs
  exact hs.trans (List.append_nil s)

theorem Stripped.eq_strip {s t : Text} (h : Stripped s t) : t = strip s := by
  induction h with
  | rest hnone => exact (strip_of_none hnone).symm
  | comment hplain hleftmost hshortest _ ih =>
      rw [strip_append hleftmost, strip_comment hplain hshortest, ← ih]

/-- A character at which no comment starts is put before a stripped text. -/
theorem Stripped.cons {x : Char} {s t : Text} (h : Stripped s t)
    (hx : ¬ Removable (x :: s)) : Stripped (x :: s) (x :: t) := by
  cases h with
  | rest hnone =>
      refine .rest fun p => ?_
      cases p with
      | zero => exact hx
      | succ p => exact hnone p
  | @comment a c r t hplain hleftmost hshortest hnext =>
      refine .comment (a := x :: a) hplain (fun p hp => ?_) hshortest hnext
      cases p with
      | zero => exact hx
      | succ p => exact hleftmost p (by simpa using hp)

theorem stripped_strip (s : Text) : Stripped s (strip s) := by
  induction hn : s.length using Nat.strongRecOn generalizing s with
  | ind n ih =>
      cases s with
      | nil =>
          refine .rest fun p h => ?_
          rw [List.drop_nil] at h
          exact absurd h.1 (by decide)
      | cons x s =>
          by_cases h : Removable (x :: s)
          · obtain ⟨c, r, hs, hshortest⟩ := h.exists
            have hplain := h.2.1
            have hlen := congrArg List.length hs
            rw [hs] at hplain
            simp only [List.length_append, List.length_cons] at hlen hn
            rw [hs, strip_comment hplain hshortest]
            refine .comment (a := []) hplain (fun p hp => ?_) hshortest
              (ih r.length ?_ r rfl)
            · exact absurd hp (Nat.not_lt_zero p)
            · have : opener.length = 4 := rfl
              omega
          · have hs := strip_append (a := [x]) (s := s) fun p hp => by
              rw [show p = 0 by simpa using hp]
              exact h
            rw [List.singleton_append] at hs
            rw [hs]
            exact (ih s.length (by simp at hn; omega) s rfl).cons h

/-! ## One step of the scan -/

theorem moveTo?_append {c : Cursor} {a r : Text} (h : c.rest = a ++ r) :
    c.moveTo? (c.offset + Text.byteSize a) =
      some ⟨c.offset + Text.byteSize a, r⟩ := by
  rw [Cursor.moveTo?, if_pos (Nat.le_add_right _ _), h, Nat.add_sub_cancel_left,
    Text.dropBytes?_byteSize_append]
  rfl

theorem textTo?_append {c : Cursor} {a r : Text} (h : c.rest = a ++ r) :
    c.textTo? (c.offset + Text.byteSize a) = some a := by
  rw [Cursor.textTo?, if_pos (Nat.le_add_right _ _), h, Nat.add_sub_cancel_left]
  exact Text.takeBytes?_eq_some_iff.2 ⟨r, rfl, rfl⟩

/-- The first place of a word that is looked for as it is written. -/
theorem exists_of_offset? {l s : Text} {n : Nat}
    (h : (Word.exact l).offset? s = some n) :
    ∃ a r, s = a ++ (l ++ r) ∧ Text.byteSize a = n ∧
      ∀ p < a.length, ¬ l <+: s.drop p := by
  obtain ⟨a, q, rfl, hn, hh, hlt⟩ := Word.offset?_eq_some_iff.1 h
  obtain ⟨r, rfl⟩ := Word.heads_exact.1 hh
  exact ⟨a, r, rfl, hn, fun p hp => Word.heads_exact_eq_false_iff.1 (hlt p hp)⟩

theorem not_infix_of_offset? {l s : Text}
    (h : (Word.exact l).offset? s = none) : ¬ l <:+: s := by
  rw [← Word.cut?_exact_eq_none_iff, Word.cut?_eq_none_iff]
  exact Option.map_eq_none_iff.1 h

theorem not_removable_of_absent {s : Text} (h : ¬ opener <:+: s) (p : Nat) :
    ¬ Removable (s.drop p) := by
  intro hr
  obtain ⟨r, hr⟩ := hr.1
  exact h ⟨s.take p, r, by rw [List.append_assoc, hr, List.take_append_drop]⟩

/-- Past an opener that is not closed no comment is closed. -/
theorem not_removable_of_unclosed {t : Text} (h : ¬ closer <:+: t) (p : Nat) :
    ¬ Removable ((opener ++ t).drop p) := by
  intro hr
  have hclose := hr.2.2
  rw [List.drop_drop, Nat.add_comm, ← List.drop_drop, List.drop_left] at hclose
  exact h (hclose.trans (List.drop_suffix p t).isInfix)

/-- A conditional opener is not the start of a comment that has to go, and its
first character is passed. -/
theorem strip_conditional {a t : Text}
    (hbefore : ∀ p < a.length, ¬ Removable ((a ++ (opener ++ t)).drop p))
    (hcond : conditionalOpener <+: opener ++ t) :
    strip (a ++ (opener ++ t)) = a ++ '<' :: strip ('!' :: '-' :: '-' :: t) := by
  have hpass := strip_append (a := a ++ ['<']) (s := '!' :: '-' :: '-' :: t)
    fun p hp => by
      rw [List.append_assoc]
      by_cases hpa : p < a.length
      · exact hbefore p hpa
      · rw [show p = a.length by simp at hp; omega, List.drop_left]
        exact fun hr => hr.2.1 hcond
  rw [List.append_assoc, List.append_assoc] at hpass
  exact hpass

/-- After an opener that is not closed nothing has to go. -/
theorem strip_unclosed {a t : Text}
    (hbefore : ∀ p < a.length, ¬ Removable ((a ++ (opener ++ t)).drop p))
    (hclose : ¬ closer <:+: t) :
    strip (a ++ (opener ++ t)) = a ++ (opener ++ t) := by
  refine strip_of_none fun p => ?_
  by_cases hpa : p < a.length
  · exact hbefore p hpa
  · have hun := not_removable_of_unclosed hclose (p - a.length)
    rw [List.drop_append, List.drop_eq_nil_of_le (by omega)]
    exact hun

/-- What a step does to the text ahead: it finds that nothing has to go, it
passes the first byte of a conditional comment, or it removes a comment. In
each case the search for the pattern goes on where the cursor goes. -/
theorem next?_cases (c : Cursor) :
    (Step.next? c = some .finish ∧ strip c.rest = c.rest) ∨
    (∃ a r, c.rest = a ++ '<' :: r ∧
      Step.next? c = some (.pass (c.offset + Text.byteSize a)) ∧
      strip c.rest = a ++ '<' :: strip r) ∨
    (∃ a m r, c.rest = a ++ (m ++ r) ∧ m ≠ [] ∧
      Step.next? c = some (.remove (c.offset + Text.byteSize a)
        (c.offset + Text.byteSize a + Text.byteSize m)) ∧
      strip c.rest = a ++ strip r) := by
  rw [Step.next?]
  cases hopen : (Word.exact opener).offset? c.rest with
  | none =>
      exact .inl ⟨rfl, strip_of_none
        (not_removable_of_absent (not_infix_of_offset? hopen))⟩
  | some n =>
      obtain ⟨a, t, hrest, rfl, hfirst⟩ := exists_of_offset? hopen
      have hbefore : ∀ p < a.length, ¬ Removable ((a ++ (opener ++ t)).drop p) :=
        fun p hp hr => hfirst p hp (hrest ▸ hr.1)
      simp only [moveTo?_append hrest, Option.bind_some]
      by_cases hcond : (Word.exact conditionalOpener).heads (opener ++ t) = true
      · refine .inr (.inl ⟨a, '!' :: '-' :: '-' :: t, hrest, ?_, ?_⟩)
        · rw [if_pos hcond]
        · rw [hrest, strip_conditional hbefore (Word.heads_exact.1 hcond)]
      · have hbody : (⟨c.offset + Text.byteSize a, opener ++ t⟩ : Cursor).rest =
            opener ++ t := rfl
        rw [if_neg hcond, moveTo?_append hbody]
        simp only [Option.bind_some]
        cases hclose : (Word.exact closer).offset? t with
        | none =>
            refine .inl ⟨rfl, ?_⟩
            rw [hrest, strip_unclosed hbefore (not_infix_of_offset? hclose)]
        | some m =>
            obtain ⟨b, r, rfl, rfl, hshortest⟩ := exists_of_offset? hclose
            refine .inr (.inr ⟨a, opener ++ b ++ closer, r, ?_, by simp [opener],
              ?_, ?_⟩)
            · rw [hrest]; simp
            · simp only [Text.byteSize_append, Nat.add_assoc]
            · rw [hrest, strip_append hbefore]
              rw [← List.append_assoc b] at hcond hshortest ⊢
              rw [strip_comment (fun hp => hcond (Word.heads_exact.2 hp))
                hshortest]

/-! ## The whole scan -/

/-- The lagging cursor has exactly `m` to copy before it is where the other
one is. -/
structure Scan.Lags (c : Scan) (m : Text) : Prop where
  rest_eq : c.kept.rest = m ++ c.next.rest
  offset_eq : c.next.offset = c.kept.offset + Text.byteSize m

theorem Scan.lags_start (s : Text) : (Scan.start s).Lags [] := ⟨rfl, rfl⟩

theorem Scan.follow?_pass {c : Scan} {m a r : Text} (h : c.Lags m)
    (hr : c.next.rest = a ++ '<' :: r) :
    ∃ d, c.follow? (.pass (c.next.offset + Text.byteSize a)) = some d ∧
      d.Lags (m ++ (a ++ ['<'])) ∧ d.copied = c.copied ∧ d.next.rest = r := by
  have hsize : Text.byteSize (a ++ ['<']) = Text.byteSize a + 1 := by
    rw [Text.byteSize_append]
    rfl
  have hr' : c.next.rest = (a ++ ['<']) ++ r := by
    rw [hr, List.append_assoc, List.singleton_append]
  refine ⟨⟨c.copied, c.kept,
    ⟨c.next.offset + Text.byteSize (a ++ ['<']), r⟩⟩, ?_, ⟨?_, ?_⟩, rfl, rfl⟩
  · rw [Scan.follow?, Nat.add_assoc, ← hsize, moveTo?_append hr']
    rfl
  · rw [List.append_assoc, ← hr']
    exact h.rest_eq
  · rw [Text.byteSize_append m, ← Nat.add_assoc, ← h.offset_eq]

theorem Scan.follow?_remove {c : Scan} {m a b r : Text} (h : c.Lags m)
    (hr : c.next.rest = a ++ (b ++ r)) :
    ∃ d, c.follow? (.remove (c.next.offset + Text.byteSize a)
          (c.next.offset + Text.byteSize a + Text.byteSize b)) = some d ∧
      d.Lags [] ∧ d.copied = (m ++ a) :: c.copied ∧ d.next.rest = r := by
  have hkept : c.kept.rest = (m ++ a) ++ (b ++ r) := by
    rw [h.rest_eq, hr, List.append_assoc]
  have hoff : c.next.offset + Text.byteSize a =
      c.kept.offset + Text.byteSize (m ++ a) := by
    rw [h.offset_eq, Text.byteSize_append, Nat.add_assoc]
  have hr' : c.next.rest = (a ++ b) ++ r := by rw [hr, List.append_assoc]
  refine ⟨⟨(m ++ a) :: c.copied,
    ⟨c.next.offset + Text.byteSize (a ++ b), r⟩,
    ⟨c.next.offset + Text.byteSize (a ++ b), r⟩⟩, ?_, ⟨rfl, rfl⟩, rfl, rfl⟩
  have hmove := moveTo?_append hr'
  rw [Text.byteSize_append, ← Nat.add_assoc] at hmove ⊢
  rw [Scan.follow?, hmove, hoff, textTo?_append hkept]
  rfl

theorem run?_succ {fuel : Nat} {c d : Scan} {step : Step}
    (hstep : Step.next? c.next = some step) (hne : step ≠ .finish)
    (hd : c.follow? step = some d) :
    Scan.run? (fuel + 1) c = Scan.run? fuel d := by
  rw [Scan.run?, hstep]
  cases step with
  | finish => exact absurd rfl hne
  | pass start =>
      show (c.follow? (.pass start)).bind (Scan.run? fuel) = Scan.run? fuel d
      rw [hd]
      rfl
  | remove start stop =>
      show (c.follow? (.remove start stop)).bind (Scan.run? fuel) =
        Scan.run? fuel d
      rw [hd]
      rfl

/-- With a step for each character ahead and one more, the scan ends, and what
it has then is what was copied, what waits to be copied, and the text ahead
without its comments. -/
theorem run?_eq : ∀ {fuel : Nat} {c : Scan} {m : Text},
    c.Lags m → c.next.rest.length < fuel →
    ∃ d, Scan.run? fuel c = some d ∧
      d.result = c.copied.reverse.flatten ++ (m ++ strip c.next.rest) := by
  intro fuel
  induction fuel with
  | zero => intro c m _ hlt; exact absurd hlt (Nat.not_lt_zero _)
  | succ fuel ih =>
      intro c m hlag hlt
      rcases next?_cases c.next with ⟨hstep, hs⟩ | ⟨a, r, hr, hstep, hs⟩ |
        ⟨a, b, r, hr, hb, hstep, hs⟩
      · refine ⟨c, ?_, by rw [Scan.result, hlag.rest_eq, hs]⟩
        rw [Scan.run?, hstep]
      · obtain ⟨d, hd, hlag', hcopied, hrest⟩ := Scan.follow?_pass hlag hr
        have hlen : d.next.rest.length < fuel := by
          rw [hr] at hlt
          rw [hrest]
          simp only [List.length_append, List.length_cons] at hlt
          omega
        obtain ⟨e, he, hres⟩ := ih hlag' hlen
        rw [run?_succ hstep (by simp) hd, hs]
        refine ⟨e, he, ?_⟩
        rw [hres, hcopied, hrest]
        simp
      · obtain ⟨d, hd, hlag', hcopied, hrest⟩ := Scan.follow?_remove hlag hr
        have hlen : d.next.rest.length < fuel := by
          have hpos := List.length_pos_iff.2 hb
          rw [hr] at hlt
          rw [hrest]
          simp only [List.length_append] at hlt
          omega
        obtain ⟨e, he, hres⟩ := ih hlag' hlen
        rw [run?_succ hstep (by simp) hd, hs]
        refine ⟨e, he, ?_⟩
        rw [hres, hcopied, hrest]
        simp

theorem scan?_eq_strip (s : Text) : scan? s = some (strip s) := by
  have hfuel : (Scan.start s).next.rest.length < Text.byteSize s + 1 :=
    Nat.lt_succ_of_le (Text.length_le_byteSize s)
  obtain ⟨d, hd, hres⟩ := run?_eq (Scan.lags_start s) hfuel
  rw [scan?, hd, Option.map_some, hres]
  rfl

theorem deleteUnconditional_eq_strip (s : Text) :
    deleteUnconditional s = strip s := by
  rw [deleteUnconditional, scan?_eq_strip]
  rfl

/-! ## Texts without comments, and the description again -/

theorem deleteUnconditional_of_absent {s : Text} (h : ¬ opener <:+: s) :
    deleteUnconditional s = s := by
  rw [deleteUnconditional_eq_strip]
  exact strip_of_none (not_removable_of_absent h)

theorem deleteAll_of_absent {s : Text} (h : ¬ opener <:+: s) :
    deleteAll s = s :=
  Pattern.replaceWith_enclosure_word h

/-- The scan has an answer for every text, and it is the one text that the
description allows. -/
theorem stripped_iff_deleteUnconditional {s t : Text} :
    (Stripped s t ↔ deleteUnconditional s = t) ∧
      scan? s = some (deleteUnconditional s) := by
  rw [deleteUnconditional_eq_strip]
  refine ⟨⟨fun h => h.eq_strip.symm, ?_⟩, scan?_eq_strip s⟩
  intro h
  rw [← h]
  exact stripped_strip s

end HtmlMinifier.Comment
