import HtmlMinifier.Text.Pattern

/-!
# Searching from inside a text

A search is started once, at the head of a text, but every argument about it
talks about what is left after a part has been passed. `replaceFrom` is that
rest of a search: it takes the one thing the past leaves behind, whether a
line starts here. Two equations drive it, one character without an occurrence
and one occurrence, and three facts follow that most rules need: a stretch in
which nothing is read is copied, a text in which nothing can be read at all is
copied whole, and the parts of a text are treated apart if no occurrence
reaches from one into the other.
-/

namespace HtmlMinifier

/-- No line starts after a part of a line. -/
theorem lineStartAfter_of_not_mem {t : Text} (h : '\n' ∉ t) :
    lineStartAfter false t = false := by
  induction t with
  | nil => rfl
  | cons c t ih =>
      obtain ⟨hc, ht⟩ := List.ne_and_not_mem_of_not_mem_cons h
      rw [lineStartAfter_cons, beq_eq_false_iff_ne.2 (Ne.symm hc), ih ht]

namespace Pattern

variable {p : Pattern} {f : Occurrence → Text}

/-- What replacing makes of the text that is left of a search. -/
def replaceFrom (p : Pattern) (f : Occurrence → Text) (b : Bool) (s : Text) :
    Text :=
  (p.segments b s).flatMap (Segment.replaced f)

theorem replaceWith_eq (s : Text) :
    p.replaceWith f s = p.replaceFrom f true s := rfl

@[simp] theorem replaceFrom_nil (b : Bool) : p.replaceFrom f b [] = [] := rfl

theorem replaceFrom_plain {b : Bool} {c : Char} {s : Text}
    (h : p.read? b (c :: s) = none) :
    p.replaceFrom f b (c :: s) = c :: p.replaceFrom f (c == '\n') s := by
  rw [replaceFrom, segments_plain h, List.flatMap_cons]
  rfl

theorem replaceFrom_hit {b : Bool} {o : Occurrence} {r : Text}
    (h : p.read? b (o.text ++ r) = some o) :
    p.replaceFrom f b (o.text ++ r) =
      f o ++ p.replaceFrom f (lineStartAfter b o.text) r := by
  rw [replaceFrom, segments_hit h, List.flatMap_cons]
  rfl

/-- The same, for an occurrence whose text is known by another name. -/
theorem replaceFrom_hit_eq {b : Bool} {o : Occurrence} {s t r : Text}
    (hs : s = t ++ r) (ho : o.text = t) (h : p.read? b s = some o) :
    p.replaceFrom f b s = f o ++ p.replaceFrom f (lineStartAfter b t) r := by
  subst hs ho
  exact replaceFrom_hit h

/-! ## Patterns that do not speak of lines

Most patterns read the same at the start of a line and inside one. For them the
rest of a search is the search of the rest. -/

/-- The pattern does not ask where lines start. -/
def LineBlind (p : Pattern) : Prop := ∀ b b' s, p.read? b s = p.read? b' s

theorem LineBlind.segments_eq (h : p.LineBlind) (b b' : Bool) (s : Text) :
    p.segments b s = p.segments b' s := by
  cases s with
  | nil => rfl
  | cons c s =>
      cases hr : p.read? b (c :: s) with
      | none => rw [segments_plain hr, segments_plain ((h b' b _).trans hr)]
      | some o =>
          obtain ⟨r, hs⟩ := p.text_prefix hr
          rw [← hs] at hr ⊢
          rw [segments_hit hr, segments_hit ((h b' b _).trans hr)]
          cases ho : o.text with
          | nil => exact absurd ho (p.text_ne_nil hr)
          | cons d t => rfl

theorem LineBlind.replaceFrom_eq (h : p.LineBlind) (b : Bool) (s : Text) :
    p.replaceFrom f b s = p.replaceWith f s := by
  rw [replaceFrom, h.segments_eq b true]
  rfl

theorem LineBlind.replaceWith_cons (h : p.LineBlind) {c : Char} {s : Text}
    (hnone : p.read? true (c :: s) = none) :
    p.replaceWith f (c :: s) = c :: p.replaceWith f s := by
  rw [replaceWith_eq, replaceFrom_plain hnone, h.replaceFrom_eq]

/-- Characters with which no occurrence starts are copied. -/
theorem LineBlind.replaceWith_append (h : p.LineBlind) {t : Text}
    (hnone : ∀ c ∈ t, ∀ s, p.read? true (c :: s) = none) (s : Text) :
    p.replaceWith f (t ++ s) = t ++ p.replaceWith f s := by
  induction t with
  | nil => rfl
  | cons c t ih =>
      obtain ⟨hc, ht⟩ := List.forall_mem_cons.1 hnone
      rw [List.cons_append, h.replaceWith_cons (hc (t ++ s)), ih ht]
      rfl

theorem LineBlind.replaceWith_hit (h : p.LineBlind) {o : Occurrence}
    {s t r : Text} (hs : s = t ++ r) (ho : o.text = t)
    (hread : p.read? true s = some o) :
    p.replaceWith f s = f o ++ p.replaceWith f r := by
  rw [replaceWith_eq, replaceFrom_hit_eq hs ho hread, h.replaceFrom_eq]

/-! ## Stretches without an occurrence -/

/-- A stretch in which nothing is read is copied. -/
theorem replaceFrom_append {t : Text} : ∀ {b : Bool} {s : Text},
    (∀ u c v, u ++ c :: v = t →
      p.read? (lineStartAfter b u) (c :: v ++ s) = none) →
    p.replaceFrom f b (t ++ s) =
      t ++ p.replaceFrom f (lineStartAfter b t) s := by
  induction t with
  | nil => intro b s _; rfl
  | cons c t ih =>
      intro b s h
      have hread : p.read? b (c :: (t ++ s)) = none := h [] c t rfl
      rw [List.cons_append, replaceFrom_plain hread, ih]
      · rfl
      · intro u d v hu
        exact h (c :: u) d v (by rw [← hu]; rfl)

/-- The same, where it does not matter what was passed before. -/
theorem replaceFrom_append_of_suffix {t s : Text} {b : Bool}
    (h : ∀ b c v, c :: v <:+ t → p.read? b (c :: v ++ s) = none) :
    p.replaceFrom f b (t ++ s) =
      t ++ p.replaceFrom f (lineStartAfter b t) s :=
  replaceFrom_append fun u c v hu => h _ c v ⟨u, hu⟩

theorem replaceFrom_of_none {b : Bool} {s : Text}
    (h : ∀ b t, t <:+ s → p.read? b t = none) : p.replaceFrom f b s = s := by
  rw [replaceFrom, segments_of_exhausted h]
  induction s with
  | nil => rfl
  | cons c s ih =>
      rw [List.map_cons, List.flatMap_cons,
        ih fun b t ht => h b t (List.IsSuffix.trans ht (List.suffix_cons c s))]
      rfl

theorem replaceWith_of_none {s : Text}
    (h : ∀ b t, t <:+ s → p.read? b t = none) : p.replaceWith f s = s :=
  replaceFrom_of_none h

/-- Where no occurrence reaches into the end of a text, the parts are treated
apart. -/
theorem replaceFrom_append_of_read {e : Text} {b : Bool} {s : Text}
    (hs : ∀ b c t, c :: t <:+ s → p.read? b (c :: t ++ e) = p.read? b (c :: t)) :
    p.replaceFrom f b (s ++ e) =
      p.replaceFrom f b s ++ p.replaceFrom f (lineStartAfter b s) e := by
  induction b, s using p.search_induction with
  | nil b => rfl
  | plain b c s h ih =>
      have hread : p.read? b (c :: (s ++ e)) = none :=
        (hs b c s (List.suffix_refl _)).trans h
      rw [List.cons_append, replaceFrom_plain h, replaceFrom_plain hread,
        ih fun b d t ht => hs b d t (ht.trans (List.suffix_cons c s))]
      rfl
  | hit b o r h ih =>
      have hr : p.read? b (o.text ++ (r ++ e)) = some o := by
        cases ho : o.text ++ r with
        | nil => exact absurd (List.append_eq_nil_iff.1 ho).1 (p.text_ne_nil h)
        | cons c t =>
            rw [← List.append_assoc, ho, hs b c t (ho ▸ List.suffix_refl _), ← ho]
            exact h
      rw [List.append_assoc, replaceFrom_hit h, replaceFrom_hit hr,
        ih fun b d t ht => hs b d t (ht.trans (List.suffix_append o.text r)),
        List.append_assoc, lineStartAfter_append]

/-- A character that is neither in the text nor brought in by a replacement
is not in what comes out. -/
theorem not_mem_replaceFrom {x : Char} {b : Bool} {s : Text}
    (hf : ∀ b t o, p.read? b t = some o → x ∉ o.text → x ∉ f o)
    (hs : x ∉ s) : x ∉ p.replaceFrom f b s := by
  induction b, s using p.search_induction with
  | nil b => exact hs
  | plain b c s h ih =>
      rw [replaceFrom_plain h]
      simp only [List.mem_cons, not_or] at hs ⊢
      exact ⟨hs.1, ih hs.2⟩
  | hit b o r h ih =>
      rw [replaceFrom_hit h]
      simp only [List.mem_append, not_or] at hs ⊢
      exact ⟨hf _ _ _ h hs.1, ih hs.2⟩

theorem not_mem_replace {x : Char} {t s : Text} (ht : x ∉ t) (hs : x ∉ s) :
    x ∉ p.replace t s :=
  not_mem_replaceFrom (fun _ _ _ _ _ => ht) hs

end Pattern

end HtmlMinifier
