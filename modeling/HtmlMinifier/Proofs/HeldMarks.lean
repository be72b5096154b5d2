import HtmlMinifier.Proofs.Provenance
import HtmlMinifier.Proofs.StructuredLayout

/-!
# Exclamation marks that are held

What the structured profile deletes is of a few kinds: blanks, comments, the
attributes of two elements, and a byte order mark at the start. A deleted part
starts with a blank, a `<` or a slash, and it ends with a blank, a `>` or a
slash, or before a line feed; attributes stand between a name and a `>`, which
stay. So an exclamation mark directly before a letter has it for a neighbour as
long as there is any of the two, and so has one directly after a letter. Such a
mark is *held* by its neighbour. The mark of a conditional opener is held as
well, by the five characters after it.

A mark that is held never becomes part of a comment opener, since it would have
to come between a `<` and a hyphen. Every pass leaves held marks held
(`Spares.held_replaceWith`, `held_mapGaps`), and nothing more has to be known of
a pass than how its occurrences start and end.
-/

namespace HtmlMinifier

namespace Text

/-- A character that holds what follows it: nothing that is deleted ends with it,
and it is no `<`. -/
def HoldsNext (c : Char) : Prop :=
  isBlank c = false ∧ c ∉ ['<', '>', '/', Document.byteOrderMark]

/-- A character that holds what stands before it: nothing that is deleted starts
with it, and it is no hyphen. -/
def HoldsLast (c : Char) : Prop := isBlank c = false ∧ c ∉ ['<', '/', '-']

/-- What makes a conditional opener of `<!`. -/
def condition : Text := ['-', '-', '[', 'i', 'f']

/-- An exclamation mark after this character is held. -/
def HoldsAfter (last : Option Char) : Prop := ∃ c ∈ last, HoldsNext c

/-- An exclamation mark before this text is held. -/
def HoldsBefore (s : Text) : Prop := (∃ c ∈ s.head?, HoldsLast c) ∨ condition <+: s

/-- All exclamation marks of a text are held, if this is the character before it. -/
inductive Held : (last : Option Char) → Text → Prop
  | nil {l : Option Char} : Held l []
  | cons {l : Option Char} {c : Char} {s : Text} :
      (c = '!' → HoldsAfter l ∨ HoldsBefore s) → Held (some c) s → Held l (c :: s)

/-- The character that stands last after a text, if this is the one before it. -/
def lastAfter (last : Option Char) : Text → Option Char
  | [] => last
  | c :: s => lastAfter (some c) s

theorem held_cons {l : Option Char} {c : Char} {s : Text} :
    Held l (c :: s) ↔ (c = '!' → HoldsAfter l ∨ HoldsBefore s) ∧ Held (some c) s :=
  ⟨fun | .cons hc hs => ⟨hc, hs⟩, fun h => .cons h.1 h.2⟩

instance : DecidablePred HoldsNext := fun c =>
  inferInstanceAs (Decidable (isBlank c = false ∧ c ∉ _))

instance : DecidablePred HoldsLast := fun c =>
  inferInstanceAs (Decidable (isBlank c = false ∧ c ∉ _))

instance : DecidablePred HoldsAfter
  | none => isFalse nofun
  | some c => decidable_of_iff (HoldsNext c) (by simp [HoldsAfter])

instance : DecidablePred HoldsBefore
  | [] => isFalse (by simp [HoldsBefore, condition])
  | c :: s => decidable_of_iff (HoldsLast c ∨ condition <+: c :: s) (by simp [HoldsBefore])

instance decidableHeld : (l : Option Char) → (s : Text) → Decidable (Held l s)
  | _, [] => isTrue .nil
  | _, c :: s =>
    have := decidableHeld (some c) s
    decidable_of_iff _ held_cons.symm

theorem unbroken_condition : Unbroken condition := by
  simp [Unbroken, condition, isBlank]

theorem not_mem_condition {c : Char} (hc : isBlank c = true) : c ∉ condition := by
  intro hm
  rw [unbroken_condition c hm] at hc
  cases hc

theorem lastAfter_append {l : Option Char} {u v : Text} :
    lastAfter l (u ++ v) = lastAfter (lastAfter l u) v := by
  induction u generalizing l with
  | nil => rfl
  | cons c u ih => exact ih

theorem mem_of_mem_lastAfter {l : Option Char} {u : Text} {c : Char} (hu : u ≠ [])
    (h : c ∈ lastAfter l u) : c ∈ u := by
  induction u generalizing l with
  | nil => exact absurd rfl hu
  | cons d u ih =>
      cases u with
      | nil => exact List.mem_singleton.2 (Option.some.inj h).symm
      | cons e u => exact List.mem_cons_of_mem d (ih (l := some d) (List.cons_ne_nil e u) h)

theorem HoldsBefore.append {u : Text} (h : HoldsBefore u) (v : Text) :
    HoldsBefore (u ++ v) := by
  rcases h with ⟨c, hc, hholds⟩ | h
  · cases u with
    | nil => cases hc
    | cons d u => exact .inl ⟨c, hc, hholds⟩
  · exact .inr (h.trans (List.prefix_append u v))

/-- A tag holds nothing before it. -/
theorem holdsBefore_of_append {u v : Text} (h : HoldsBefore (u ++ '<' :: v)) :
    HoldsBefore u := by
  rcases h with ⟨c, hc, hholds⟩ | h
  · cases u with
    | nil =>
        obtain rfl := Option.some.inj hc
        exact absurd hholds (by decide)
    | cons d u => exact .inl ⟨c, hc, hholds⟩
  · exact .inr (prefix_of_prefix_append (by decide) h)

theorem held_append {l : Option Char} {u v : Text} (hu : Held l u)
    (hv : Held (lastAfter l u) v) : Held l (u ++ v) := by
  induction u generalizing l with
  | nil => exact hv
  | cons c u ih =>
      obtain ⟨hc, hu⟩ := held_cons.1 hu
      exact .cons (fun hmark => (hc hmark).imp_right (·.append v)) (ih hu hv)

theorem held_of_append {l : Option Char} {u v : Text} (h : Held l (u ++ v)) :
    Held (lastAfter l u) v := by
  induction u generalizing l with
  | nil => exact h
  | cons c u ih => exact ih (held_cons.1 h).2

theorem held_of_append_tag {l : Option Char} {u v : Text}
    (h : Held l (u ++ '<' :: v)) : Held l u := by
  induction u generalizing l with
  | nil => exact .nil
  | cons c u ih =>
      obtain ⟨hc, hu⟩ := held_cons.1 h
      exact .cons (fun hmark => (hc hmark).imp_right holdsBefore_of_append) (ih hu)

theorem held_of_not_mem {l : Option Char} {u : Text} (h : '!' ∉ u) : Held l u := by
  induction u generalizing l with
  | nil => exact .nil
  | cons c u ih =>
      obtain ⟨hc, hu⟩ := List.ne_and_not_mem_of_not_mem_cons h
      exact .cons (fun hmark => absurd hmark.symm hc) (ih hu)

/-- The character before a text matters only if it holds a mark there. -/
theorem Held.of_last {l l' : Option Char} {s : Text} (h : Held l s)
    (hl : s.head? = some '!' → ∀ c ∈ l, HoldsNext c → c ∈ l') : Held l' s := by
  cases h with
  | nil => exact .nil
  | cons hc hs =>
      refine .cons (fun hmark => (hc hmark).imp_left ?_) hs
      rintro ⟨d, hd, hholds⟩
      exact ⟨d, hl (congrArg some hmark) d hd hholds, hholds⟩

end Text

open Text

/-! ## Replacing occurrences -/

namespace Pattern

variable {p : Pattern} {f : Occurrence → Text}

/-- Replacing occurrences lets held marks be held. An occurrence starts with a
character that holds nothing, or its replacement starts with the same; none
starts inside a conditional opener; and the last character of an occurrence
holds nothing, or the replacement ends with it. -/
structure Spares (p : Pattern) (f : Occurrence → Text) : Prop where
  head : ∀ {b c s o}, p.read? b (c :: s) = some o → HoldsLast c → ∃ u, f o = c :: u
  passes : ∀ {b c s}, c ∈ condition → p.read? b (c :: s) = none
  held : ∀ {b o r l l'}, p.read? b (o.text ++ r) = some o → Held l (o.text ++ r) →
    Held l' (f o)
  last : ∀ {b o r l l'}, p.read? b (o.text ++ '!' :: r) = some o →
    ∀ c ∈ lastAfter l o.text, HoldsNext c → c ∈ lastAfter l' (f o)

theorem Spares.holdsBefore_replaceFrom (hp : Spares p f) {b : Bool} {s : Text}
    (h : HoldsBefore s) : HoldsBefore (p.replaceFrom f b s) := by
  rcases h with ⟨c, hc, hholds⟩ | ⟨t, rfl⟩
  · cases s with
    | nil => cases hc
    | cons d s =>
        obtain rfl := Option.some.inj hc
        cases hread : p.read? b (d :: s) with
        | none =>
            rw [replaceFrom_plain hread]
            exact .inl ⟨d, rfl, hholds⟩
        | some o =>
            obtain ⟨r, hr⟩ := p.text_prefix hread
            obtain ⟨u, hu⟩ := hp.head hread hholds
            rw [replaceFrom_hit_eq hr.symm rfl hread, hu]
            exact .inl ⟨d, rfl, hholds⟩
  · have hcopy : p.replaceFrom f b (condition ++ t) =
        condition ++ p.replaceFrom f (lineStartAfter b condition) t := by
      refine replaceFrom_append_of_suffix fun b c v hv => ?_
      exact hp.passes (hv.subset List.mem_cons_self)
    rw [hcopy]
    exact .inr (List.prefix_append condition _)

theorem Spares.held_replaceFrom (hp : Spares p f) (b : Bool) (s : Text) :
    ∀ {l l' : Option Char}, (s.head? = some '!' → ∀ c ∈ l, HoldsNext c → c ∈ l') →
      Held l s → Held l' (p.replaceFrom f b s) := by
  induction b, s using p.search_induction with
  | nil b => exact fun _ _ => .nil
  | plain b c s hread ih =>
      intro l l' hl h
      rw [replaceFrom_plain hread]
      obtain ⟨hc, hs⟩ := held_cons.1 (h.of_last hl)
      exact .cons (fun hmark => (hc hmark).imp_right hp.holdsBefore_replaceFrom)
        (ih (fun _ _ hd _ => hd) hs)
  | hit b o r hread ih =>
      intro l l' hl h
      rw [replaceFrom_hit hread]
      refine held_append (hp.held hread h) (ih ?_ (held_of_append h))
      cases r with
      | nil => exact fun hr => nomatch hr
      | cons c r =>
          intro hc
          obtain rfl := Option.some.inj hc
          exact hp.last hread

theorem Spares.held_replaceWith (hp : Spares p f) {s : Text} (h : Held none s) :
    Held none (p.replaceWith f s) :=
  hp.held_replaceFrom true s (fun _ _ hc _ => hc) h

/-- The same fill in the place of every occurrence. -/
theorem spares_replace {t : Text} (ht : '!' ∉ t)
    (hhead : ∀ {b c s o}, p.read? b (c :: s) = some o →
      c ∉ condition ∧ (HoldsLast c → t.head? = some c))
    (hlast : ∀ {b o r l}, p.read? b (o.text ++ '!' :: r) = some o →
      ∀ c ∈ lastAfter l o.text, ¬ HoldsNext c) : Spares p fun _ => t where
  head hread hholds := by
    cases t with
    | nil => cases (hhead hread).2 hholds
    | cons d t =>
        obtain rfl := Option.some.inj ((hhead hread).2 hholds)
        exact ⟨t, rfl⟩
  passes {b c s} hc := by
    refine Option.eq_none_iff_forall_ne_some.2 fun o ho => ?_
    exact (hhead ho).1 hc
  held _ _ := held_of_not_mem ht
  last hread c hc hholds := absurd hholds (hlast hread c hc)

/-! ## The patterns of the structured profile -/

theorem spares_blockComment : Spares blockComment fun _ => [] := by
  refine spares_replace List.not_mem_nil (fun {b c s o} ho => ?_) fun {b o r l} ho c hc => ?_
  · obtain ⟨B, r, -, hs, -⟩ := (read?_enclosure_word_eq_some_iff (by decide)).1 ho
    obtain rfl := (List.cons.inj hs).1
    exact ⟨by decide, fun hholds => absurd hholds (by decide)⟩
  · obtain ⟨B, r, rfl, -, -⟩ := (read?_enclosure_word_eq_some_iff (by decide)).1 ho
    rw [Occurrence.text, lastAfter_append] at hc
    obtain rfl := Option.some.inj hc
    decide

theorem spares_unconditional : Spares Comment.unconditional fun _ => [] := by
  have hremovable : ∀ {b s o}, Comment.unconditional.read? b s = some o →
      Comment.Removable s := by
    intro b s o ho
    by_contra h
    rw [Comment.read?_unconditional_eq_none h] at ho
    cases ho
  refine spares_replace List.not_mem_nil (fun {b c s o} ho => ?_) fun {b o r l} ho c hc => ?_
  · obtain rfl := (List.cons_prefix_cons.1 (hremovable ho).1).1
    exact ⟨by decide, fun hholds => absurd hholds (by decide)⟩
  · have hr := hremovable ho
    obtain ⟨B, q, hs, hshortest⟩ := hr.exists
    have hplain := hr.2.1
    rw [hs] at ho hplain
    rw [Comment.read?_unconditional hplain hshortest] at ho
    obtain rfl := Option.some.inj ho
    rw [Occurrence.text, lastAfter_append] at hc
    obtain rfl := Option.some.inj hc
    decide

/-- A comment line goes on to the end of its line. -/
theorem eq_newline_of_read?_commentLine {b : Bool} {o : Occurrence} {c : Char} {r : Text}
    (h : Script.commentLine.read? b (o.text ++ c :: r) = some o) : c = '\n' := by
  generalize hs : o.text ++ c :: r = s at h
  simp only [Script.commentLine] at h
  split at h
  · split at h
    · next t ht =>
      obtain rfl := Option.some.inj h
      have hsplit := s.leadingBlanks_append_trimStart
      rw [ht] at hsplit
      have hline : t = Script.firstLine t ++ c :: r := by
        have hcut := hsplit.trans hs.symm
        rw [Occurrence.text, List.append_nil, List.append_assoc, List.append_assoc,
          List.append_cancel_left_eq] at hcut
        exact (List.cons.inj (List.cons.inj hcut).2).2
      have hrest := List.takeWhile_append_dropWhile (p := (· != '\n')) (l := t)
      have hstop := List.head?_dropWhile_not (· != '\n') t
      rw [List.append_cancel_left (hrest.trans hline)] at hstop
      simpa using hstop
    · cases h
  · cases h

theorem spares_commentLine : Spares Script.commentLine fun _ => [] := by
  refine spares_replace List.not_mem_nil (fun {b c s o} ho => ?_) fun {b o r l} ho c _ _ => ?_
  · simp only [Script.commentLine] at ho
    split at ho
    · split at ho
      · next t ht =>
        cases hc : isBlank c with
        | true => exact ⟨not_mem_condition hc, fun hholds => absurd hholds.1 (by simp [hc])⟩
        | false =>
            rw [trimStart_cons hc] at ht
            obtain rfl := (List.cons.inj ht).1
            exact ⟨by decide, fun hholds => absurd hholds (by decide)⟩
      · cases ho
    · cases ho
  · exact absurd (eq_newline_of_read?_commentLine ho) (by decide)

theorem spares_semicolonBreak : Spares Stylesheet.semicolonBreak fun _ => [';'] := by
  refine spares_replace (by decide) (fun {b c s o} ho => ?_) fun {b o r l} ho c hc => ?_
  · simp only [Stylesheet.semicolonBreak] at ho
    split at ho
    · next hsemi =>
      subst hsemi
      exact ⟨by decide, fun _ => rfl⟩
    · cases ho
  · generalize o.text ++ '!' :: r = s at ho
    simp only [Stylesheet.semicolonBreak] at ho
    split at ho
    · cases ho
    · split at ho
      · split at ho
        · cases ho
        · obtain rfl := Option.some.inj ho
          rw [Occurrence.text, lastAfter_append] at hc
          obtain rfl := Option.some.inj hc
          decide
      · cases ho

theorem spares_indent :
    Spares (gap (some '\n') none 1 (.inl Nat.one_pos)) fun _ => ['\n'] := by
  refine spares_replace (by decide) (fun {b c s o} ho => ?_) fun {b o r l} ho c hc hholds => ?_
  · have hgap : readGap? (some '\n') none 1 (c :: s) = some o := ho
    obtain ⟨t, r, hs, -, -, -⟩ := readGap?_eq_some_iff.1 hgap
    obtain rfl := (List.cons.inj hs).1
    exact ⟨by decide, fun hholds => absurd hholds (by decide)⟩
  · generalize o.text ++ '!' :: r = s at ho
    have hgap : readGap? (some '\n') none 1 s = some o := ho
    obtain ⟨t, q, -, -, -, rfl⟩ := readGap?_eq_some_iff.1 hgap
    have hblank : AllBlank (['\n'] ++ t.leadingBlanks ++ []) := by
      simp only [allBlank_append]
      exact ⟨⟨by decide, allBlank_leadingBlanks t⟩, allBlank_nil⟩
    have hb := hblank c (mem_of_mem_lastAfter (by simp) hc)
    rw [hholds.1] at hb
    cases hb

end Pattern

/-! ## Rules on gaps -/

namespace Text

theorem holdsBefore_mapGaps {f : GapRule} (hf : ∀ l r, f l [] r = [])
    {left right : Option Char} {s : Text} (h : HoldsBefore s) :
    HoldsBefore (mapGaps f left right s) := by
  rcases h with ⟨c, hc, hholds⟩ | ⟨t, rfl⟩
  · cases s with
    | nil => cases hc
    | cons d s =>
        obtain rfl := Option.some.inj hc
        rw [mapGaps_cons hholds.1, hf]
        exact .inl ⟨d, rfl, hholds⟩
  · rw [mapGaps_append_of_unbroken hf (by decide) unbroken_condition]
    exact .inr (List.prefix_append condition _)

theorem held_mapGaps {f : GapRule} (hf : ∀ l r, f l [] r = []) (hblank : KeepsBlank f)
    (s : Text) : ∀ {left right l l' : Option Char},
      (s.head? = some '!' → ∀ c ∈ l, HoldsNext c → c ∈ l') →
        Held l s → Held l' (mapGaps f left right s) := by
  have hfill : ∀ {R : Text}, AllBlank R → ∀ {l a b}, Held l (f a R b) :=
    fun hR _ a b => held_of_not_mem ((hblank a _ b hR).not_mem (by decide))
  induction s using gap_induction with
  | blanks R hR =>
      intro left right l l' _ _
      rw [mapGaps_blanks hR]
      exact hfill hR
  | cons R c s hR hc ih =>
      intro left right l l' hl h
      rw [mapGaps_gap hR hc]
      obtain ⟨hmark, hs⟩ := held_cons.1 (held_of_append h)
      refine held_append (hfill hR) (.cons (fun heq => ?_) (ih (fun _ _ hd _ => hd) hs))
      refine (hmark heq).imp ?_ (holdsBefore_mapGaps hf)
      rintro ⟨d, hd, hholds⟩
      cases R with
      | nil =>
          rw [hf]
          exact ⟨d, hl (congrArg some heq) d hd hholds, hholds⟩
      | cons e R =>
          -- What stands last in a gap is a blank, and holds nothing.
          have hdblank := hR d (mem_of_mem_lastAfter (List.cons_ne_nil e R) hd)
          rw [hholds.1] at hdblank
          cases hdblank

theorem held_rule {f : GapRule} (hf : ∀ l r, f l [] r = []) (hblank : KeepsBlank f)
    {s : Text} (h : Held none s) : Held none (mapGaps f none none s) :=
  held_mapGaps hf hblank s (fun _ _ hc _ => hc) h

theorem held_replace_gap {left right : Option Char} {least : Nat}
    {h₀ : 0 < least ∨ left.isSome ∨ right.isSome}
    (hl : ∀ a, left = some a → isBlank a = false ∧ right ≠ some a) {fill : Text}
    (hfill : AllBlank fill) (hnil : 0 < least ∨ fill = []) {s : Text} (h : Held none s) :
    Held none ((Pattern.gap left right least h₀).replace
      (left.toList ++ fill ++ right.toList) s) := by
  rw [Pattern.replace_gap hl]
  exact held_rule (Pattern.gapRule_nil hnil) (Pattern.keepsBlank_gapRule hfill) h

theorem held_trim {s : Text} (h : Held none s) : Held none s.trim := by
  rw [trim_eq_mapGaps]
  exact held_rule (fun l r => by rw [endRule]; split <;> rfl) keepsBlank_endRule h

theorem held_squeezeLineFeeds {s : Text} (h : Held none s) :
    Held none s.squeezeLineFeeds := by
  rw [squeezeLineFeeds_eq_mapGaps s]
  exact held_rule (fun _ _ => rfl) keepsBlank_squeezeRule h

end Text

namespace Stylesheet

theorem held_structured {s : Text} (h : Held none s) : Held none (structured s) := by
  have hcomments := Pattern.spares_blockComment.held_replaceWith h
  have hwide : Held none (collapseWide (Pattern.blockComment.delete s)) :=
    @held_replace_gap none none 2 (.inl Nat.two_pos) nofun [' '] (by decide)
      (.inl Nat.two_pos) _ hcomments
  have hindents := Pattern.spares_indent.held_replaceWith hwide
  have hbreaks := Pattern.spares_semicolonBreak.held_replaceWith hindents
  have hopened := @held_replace_gap (some '{') none 0 (by decide) (by simp [isBlank]) []
    allBlank_nil (.inr rfl) _ hbreaks
  have hclosed := @held_replace_gap none (some '}') 0 (by decide) nofun []
    allBlank_nil (.inr rfl) _ hopened
  have hcolons := @held_replace_gap (some ':') none 0 (by decide) (by simp [isBlank]) []
    allBlank_nil (.inr rfl) _ hclosed
  exact held_trim hcolons

end Stylesheet

namespace Script

theorem held_structured {s : Text} (h : Held none s) : Held none (structured s) :=
  held_trim (held_squeezeLineFeeds (Pattern.spares_commentLine.held_replaceWith
    (Pattern.spares_blockComment.held_replaceWith h)))

end Script

namespace Element

theorem eq_of_read? {e : Element} {b : Bool} {c : Char} {s : Text} {o : Occurrence}
    (h : e.pattern.read? b (c :: s) = some o) : c = '<' := by
  obtain ⟨m, A, hopen, hm, -⟩ := exists_tags_of_read? h
  obtain ⟨r, hr⟩ := e.pattern.text_prefix h
  cases m with
  | nil => cases hm
  | cons d m =>
      have hd : foldCase d = '<' := (List.cons.inj hm).1
      rw [Occurrence.text, hopen] at hr
      obtain rfl := (List.cons.inj hr).1
      exact foldCase_eq_lt_iff.1 hd

theorem exists_closing_of_read? {e : Element} {b : Bool} {s : Text} {o : Occurrence}
    (h : e.pattern.read? b s = some o) : ∃ k, o.closing = '<' :: (k ++ ['>']) := by
  obtain ⟨-, -, -, -, hclose⟩ := exists_tags_of_read? h
  obtain ⟨c, u, hcu, hc, hu⟩ := List.map_eq_cons_iff.1 hclose
  obtain ⟨k, v, rfl, -, hv⟩ := List.map_eq_append_iff.1 hu
  obtain ⟨d, rfl, hd⟩ := List.map_eq_singleton_iff.1 hv
  obtain rfl := foldCase_eq_lt_iff.1 hc
  obtain rfl := eq_of_foldCase_eq (by decide) hd
  exact ⟨k, hcu⟩

theorem spares_pattern {e : Element} {f : Text → Text}
    (hf : ∀ {s}, Held none s → Held none (f s)) :
    e.pattern.Spares fun o => e.wrap (f o.inner) where
  head hread hholds := by
    obtain rfl := eq_of_read? hread
    exact absurd hholds (by decide)
  passes {b c s} hc := by
    refine Option.eq_none_iff_forall_ne_some.2 fun o ho => ?_
    obtain rfl := eq_of_read? ho
    exact absurd hc (by decide)
  held {b o r l l'} hread h := by
    obtain ⟨m, A, hopen, -, -⟩ := exists_tags_of_read? hread
    obtain ⟨k, hk⟩ := exists_closing_of_read? hread
    -- The content, between the `>` of one tag and the `<` of the other.
    have htext : o.text ++ r = m ++ A ++ ['>'] ++ (o.inner ++ '<' :: (k ++ ['>'] ++ r)) := by
      simp [Occurrence.text, hopen, hk]
    rw [htext] at h
    have hinner := held_of_append_tag (held_of_append h)
    rw [lastAfter_append] at hinner
    have hcontent : Held (some '>') (f o.inner) := by
      refine (hf (hinner.of_last fun _ c hc hholds => ?_)).of_last fun _ _ hc => nomatch hc
      obtain rfl := Option.some.inj hc
      exact absurd hholds (by decide)
    have hopening : '!' ∉ e.openingTag := by cases e <;> decide
    have hclosing : '!' ∉ e.closingTag := by cases e <;> decide
    have hlast : lastAfter l' e.openingTag = some '>' := by cases e <;> rfl
    rw [wrap]
    refine held_append (held_append (held_of_not_mem hopening) ?_) (held_of_not_mem hclosing)
    rw [hlast]
    exact hcontent
  last {b o r l l'} hread c hc hholds := by
    obtain ⟨k, hk⟩ := exists_closing_of_read? hread
    rw [Occurrence.text, hk, ← List.cons_append, ← List.append_assoc, lastAfter_append] at hc
    obtain rfl := Option.some.inj hc
    exact absurd hholds (by decide)

end Element

namespace Document

theorem held_dropMark {s : Text} (h : Held none s) : Held none (dropMark s) := by
  cases s with
  | nil => exact h
  | cons c s =>
      rw [dropMark]
      split
      · next hc =>
        subst hc
        refine (held_cons.1 h).2.of_last fun _ c hc hholds => ?_
        obtain rfl := Option.some.inj hc
        exact absurd hholds (by decide)
      · exact h

theorem held_structured_strip {s : Text} (h : Held none (Comment.strip s)) :
    Held none (structured s) := by
  have hstyles := (Element.spares_pattern Stylesheet.held_structured
    (e := .style)).held_replaceWith h
  have hscripts := (Element.spares_pattern Script.held_structured
    (e := .script)).held_replaceWith hstyles
  have hlayout := held_rule layoutRule_nil keepsBlank_layoutRule hscripts
  rw [← layout_eq_mapGaps, ← Comment.deleteUnconditional_eq_strip] at hlayout
  exact hlayout

end Document

end HtmlMinifier
