import HtmlMinifier.Proofs.Search
import HtmlMinifier.Text.Enclosure

/-!
# Words that a text does not have

A word is looked for under its key, so a text has it when the text read under
the key has its letters side by side. Where an opener is missing in this sense
no enclosure is found, and a pass over the text changes nothing.
-/

namespace HtmlMinifier

namespace Word

theorem heads_iff_prefix_map {w : Word} {s : Text} :
    w.heads s = true ↔ w.letters <+: s.map w.key := by
  rw [heads_iff]
  constructor
  · rintro ⟨m, r, rfl, hm⟩
    rw [List.map_append, hm]
    exact List.prefix_append _ _
  · rintro ⟨r, hr⟩
    obtain ⟨m, q, rfl, hm, -⟩ := List.map_eq_append_iff.1 hr.symm
    exact ⟨m, q, rfl, hm⟩

theorem heads_of_absent {w : Word} {s t : Text}
    (h : ¬ w.letters <:+: s.map w.key) (ht : t <:+ s) : w.heads t = false := by
  cases hh : w.heads t with
  | false => rfl
  | true =>
      obtain ⟨r, hr⟩ := heads_iff_prefix_map.1 hh
      obtain ⟨u, rfl⟩ := ht
      exact absurd ⟨u.map w.key, r, by
        rw [List.append_assoc, hr, List.map_append]⟩ h

theorem find?_eq_none_iff_absent {w : Word} {s : Text} :
    w.find? s = none ↔ ¬ w.letters <:+: s.map w.key := by
  constructor
  · rintro h ⟨u, v, huv⟩
    obtain ⟨p, r, rfl, hp, -⟩ := List.map_eq_append_iff.1 huv.symm
    obtain ⟨m, q, rfl, hm, hq⟩ := List.map_eq_append_iff.1 hp
    have hh := find?_eq_none_iff.1 h m.length (by simp)
    rw [List.append_assoc, List.drop_left] at hh
    have : w.heads (q ++ r) = true :=
      heads_iff_prefix_map.2 ⟨r.map w.key, by rw [List.map_append, hq]⟩
    rw [hh] at this
    cases this
  · intro h
    rw [find?_eq_none_iff]
    intro n _
    exact heads_of_absent h (List.drop_suffix n s)

theorem cut?_eq_none_iff_absent {w : Word} {s : Text} :
    w.cut? s = none ↔ ¬ w.letters <:+: s.map w.key := by
  rw [cut?_eq_none_iff, find?_eq_none_iff_absent]

theorem heads_exact_eq_false_iff {l s : Text} :
    (exact l).heads s = false ↔ ¬ l <+: s := by
  rw [← heads_exact, Bool.not_eq_true]

theorem cut?_exact_eq_none_iff {l s : Text} :
    (exact l).cut? s = none ↔ ¬ l <:+: s := by
  rw [cut?_eq_none_iff_absent]
  simp [exact]

theorem cut?_exact_eq_some_iff {l s a m r : Text} :
    (exact l).cut? s = some (a, m, r) ↔
      m = l ∧ s = a ++ l ++ r ∧ ∀ j < a.length, ¬ l <+: s.drop j := by
  rw [cut?_eq_some_iff]
  simp only [heads_exact_eq_false_iff]
  simp only [exact, List.map_id_fun, id_eq]
  constructor
  · rintro ⟨rfl, rfl, h⟩
    exact ⟨rfl, rfl, h⟩
  · rintro ⟨rfl, rfl, h⟩
    exact ⟨rfl, rfl, h⟩

/-- The first place of a word is where the text before it, and as much of the
word as is not yet the whole, does not have it. -/
theorem cut?_exact_eq_some_iff_absent {l s a m r : Text} (hl : l ≠ []) :
    (exact l).cut? s = some (a, m, r) ↔
      m = l ∧ s = a ++ (l ++ r) ∧ ¬ l <:+: a ++ l.dropLast := by
  have hlast := List.dropLast_concat_getLast hl
  have hlen : l.dropLast.length + 1 = l.length := by
    rw [← List.length_concat, List.concat_eq_append, hlast]
  have hsplit : ∀ u : Text, u ++ (l ++ r) =
      u ++ l.dropLast ++ l.getLast hl :: r := by
    intro u
    rw [List.append_assoc, List.append_cons, hlast]
  rw [cut?_exact_eq_some_iff, List.append_assoc]
  refine and_congr_right fun _ => and_congr_right fun hs => ?_
  subst hs
  constructor
  · rintro hfirst ⟨u, v, huv⟩
    have hcount := congrArg List.length huv
    simp only [List.length_append] at hcount
    refine hfirst u.length (by omega) ?_
    rw [hsplit, ← huv, List.append_assoc, List.append_assoc, List.drop_left]
    exact List.prefix_append _ _
  · intro habsent j hj hp
    rw [List.drop_append_of_le_length (Nat.le_of_lt hj), hsplit] at hp
    have hin := List.prefix_of_prefix_length_le hp (List.prefix_append _ _)
      (by simp only [List.length_append, List.length_drop]; omega)
    rw [← List.drop_append_of_le_length (Nat.le_of_lt hj)] at hin
    exact habsent (hin.isInfix.trans (List.drop_suffix j _).isInfix)

end Word

theorem Opener.read?_word {l s : Text} {h₀ : l ≠ []} :
    (Opener.word l h₀).read? s =
      if (Word.exact l).heads s then some (l, s.drop l.length) else none := rfl

namespace Pattern

theorem read?_enclosure_eq_none {opener : Opener} {closer : Word} {b : Bool}
    {s : Text} (h : opener.read? s = none) :
    (enclosure opener closer).read? b s = none := by
  simp only [enclosure]
  rw [h]

theorem lineBlind_enclosure {opener : Opener} {closer : Word} :
    (enclosure opener closer).LineBlind := fun _ _ _ => rfl

theorem read?_enclosure_word_eq_some_iff {l k s : Text} {hl : l ≠ []}
    (hk : k ≠ []) {b : Bool} {o : Occurrence} :
    (enclosure (.word l hl) (.exact k)).read? b s = some o ↔
      ∃ B r, o = ⟨l, B, k⟩ ∧ s = l ++ (B ++ (k ++ r)) ∧
        ¬ k <:+: B ++ k.dropLast := by
  rw [read?_enclosure_eq_some_iff, Opener.read?_word]
  constructor
  · rintro ⟨t, r, ht, hr⟩
    split at ht
    · next hh =>
        obtain ⟨hclose, hcut, habsent⟩ :=
          (Word.cut?_exact_eq_some_iff_absent hk).1 hr
        obtain ⟨q, rfl⟩ := Word.heads_exact.1 hh
        rw [List.drop_left] at ht
        injection ht with ht
        injection ht with hopen hrest
        rw [hrest, hcut]
        refine ⟨o.inner, r, ?_, rfl, habsent⟩
        rw [hopen, ← hclose]
    · cases ht
  · rintro ⟨B, r, rfl, rfl, habsent⟩
    refine ⟨B ++ (k ++ r), r, ?_,
      (Word.cut?_exact_eq_some_iff_absent hk).2 ⟨rfl, rfl, habsent⟩⟩
    rw [if_pos (Word.heads_exact.2 (List.prefix_append _ _)), List.drop_left]

/-- Nothing is read where the text does not start with the opener, or has no
closer after it. -/
theorem read?_enclosure_word_eq_none_iff {l k s : Text} {hl : l ≠ []} {b : Bool} :
    (enclosure (.word l hl) (.exact k)).read? b s = none ↔
      ∀ v, s = l ++ v → ¬ k <:+: v := by
  constructor
  · rintro h v rfl
    have hopen : (Opener.word l hl).read? (l ++ v) = some (l, v) := by
      rw [Opener.read?_word, if_pos (Word.heads_exact.2 (List.prefix_append l v)),
        List.drop_left]
    rw [← Word.cut?_exact_eq_none_iff]
    cases hcut : (Word.exact k).cut? v with
    | none => rfl
    | some cut => simp [enclosure, hopen, hcut] at h
  · intro h
    refine Option.eq_none_iff_forall_ne_some.2 fun o ho => ?_
    obtain ⟨t, r, hopen, hcut⟩ := read?_enclosure_eq_some_iff.1 ho
    have hs : s = o.opening ++ t := ((Opener.word l hl).append_eq hopen).symm
    rw [Opener.read?_word] at hopen
    split at hopen
    · injection hopen with hopen
      injection hopen with hl' _
      have hnone := Word.cut?_exact_eq_none_iff.2 (h t (hl' ▸ hs))
      rw [hcut] at hnone
      cases hnone
    · cases hopen

theorem read?_enclosure_word_append_of_some {l k s : Text} {hl : l ≠ []}
    (hk : k ≠ []) {b : Bool} {o : Occurrence}
    (h : (enclosure (.word l hl) (.exact k)).read? b s = some o) (e : Text) :
    (enclosure (.word l hl) (.exact k)).read? b (s ++ e) = some o := by
  obtain ⟨B, r, rfl, rfl, habsent⟩ := (read?_enclosure_word_eq_some_iff hk).1 h
  exact (read?_enclosure_word_eq_some_iff hk).2 ⟨B, r ++ e, rfl, by simp, habsent⟩

/-- An enclosure opened by a word that the text does not have. -/
theorem replaceWith_enclosure_word {l s : Text} {h₀ : l ≠ []} {closer : Word}
    {f : Occurrence → Text} (h : ¬ l <:+: s) :
    (enclosure (.word l h₀) closer).replaceWith f s = s := by
  refine replaceWith_of_none fun b t ht => read?_enclosure_eq_none ?_
  rw [Opener.read?_word, Word.heads_of_absent (s := s) _ ht]
  · rfl
  · simpa [Word.exact] using h

end Pattern

end HtmlMinifier
