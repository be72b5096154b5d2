import HtmlMinifier.Proofs.Flattening

/-!
# Blanks at the end of a text

A pass may copy the blanks a text ends with, or shorten them, or take them
along, but what it makes of the rest does not depend on them. `EndBlind` says
so in the form that passes through a pipeline: up to trimming the end, the pass
makes the same of a text and of its trimmed end. A pipeline of such passes that
ends in trimming does not see the blanks a text ends with at all.

Passes that are rules on gaps are end-blind because the blanks are a gap of
their own. A search is, if no occurrence reaches into blanks at the end.
-/

namespace HtmlMinifier.Text

theorem trimEnd_append_blanks_right {s B : Text} (hB : AllBlank B) :
    Text.trimEnd (s ++ B) = s.trimEnd := by
  induction s using gap_induction with
  | blanks R hR =>
      rw [trimEnd_of_allBlank (allBlank_append.2 ⟨hR, hB⟩),
        trimEnd_of_allBlank hR]
  | cons R c s hR hc ih =>
      rw [List.append_assoc, List.cons_append, trimEnd_append_cons hc, ih,
        trimEnd_append_cons hc]

theorem exists_trimEnd_append (s : Text) :
    ∃ B, AllBlank B ∧ s = s.trimEnd ++ B := by
  refine ⟨_, fun c hc => ?_, s.trimEnd_append_blanks.symm⟩
  exact isBlank_of_mem_leadingBlanks (List.mem_reverse.1 hc)

theorem trimEnd_append_word {u w v : Text} (hne : w ≠ []) (hw : Unbroken w) :
    Text.trimEnd (u ++ (w ++ v)) = u ++ (w ++ v.trimEnd) := by
  induction w generalizing u with
  | nil => exact absurd rfl hne
  | cons c w ih =>
      obtain ⟨hc, hw⟩ := unbroken_cons.1 hw
      rw [List.cons_append, trimEnd_append_cons hc]
      cases w with
      | nil => rfl
      | cons d w =>
          have h := ih (u := []) (List.cons_ne_nil d w) hw
          rw [List.nil_append, List.nil_append] at h
          rw [h]
          rfl

theorem trim_append_word {u w v : Text} (hne : w ≠ []) (hw : Unbroken w) :
    Text.trim (u ++ (w ++ v)) = u.trimStart ++ (w ++ v.trimEnd) := by
  rw [trim, trimEnd_append_word hne hw]
  cases w with
  | nil => exact absurd rfl hne
  | cons c w =>
      rw [List.cons_append]
      exact trimStart_append_nonblank (unbroken_cons.1 hw).1

/-- The pass treats what stands before the blanks at the end of a text as if
they were not there. -/
def EndBlind (p : Text → Text) : Prop :=
  ∀ s, (p s.trimEnd).trimEnd = (p s).trimEnd

variable {p q : Text → Text}

theorem EndBlind.comp (hq : EndBlind q) (hp : EndBlind p) :
    EndBlind fun s => q (p s) := by
  intro s
  rw [← hq (p s.trimEnd), hp s, hq (p s)]

theorem EndBlind.trim_eq (hp : EndBlind p) (s : Text) :
    (p s.trimEnd).trim = (p s).trim := by
  rw [trim, hp s, ← trim]

theorem endBlind_mapGaps {f : GapRule} (hf : KeepsBlank f)
    (l r : Option Char) : EndBlind (mapGaps f l r) := by
  intro s
  induction s using gap_induction generalizing l with
  | blanks R hR =>
      rw [trimEnd_of_allBlank hR, mapGaps_blanks hR, mapGaps_nil,
        trimEnd_of_allBlank (hf _ _ _ hR),
        trimEnd_of_allBlank (hf _ _ _ allBlank_nil)]
  | cons R c s hR hc ih =>
      rw [trimEnd_append_cons hc, mapGaps_gap hR hc, mapGaps_gap hR hc,
        trimEnd_append_cons hc, trimEnd_append_cons hc, ih]

end HtmlMinifier.Text

namespace HtmlMinifier.Pattern

open Text

variable {p : Pattern} {f : Occurrence → Text}

theorem read?_nil (b : Bool) : p.read? b [] = none := by
  refine Option.eq_none_iff_forall_ne_some.2 fun o ho => p.text_ne_nil ho ?_
  exact List.prefix_nil.1 (p.text_prefix ho)

/-- A pattern of which no occurrence reaches into blanks at the end. -/
theorem endBlind_replaceWith
    (h : ∀ b s B, AllBlank B → p.read? b (s ++ B) = p.read? b s) :
    EndBlind (p.replaceWith f) := by
  intro s
  obtain ⟨B, hB, hs⟩ := exists_trimEnd_append s
  have hcopy : ∀ b, p.replaceFrom f b B = B := by
    intro b
    refine replaceFrom_of_none fun b t ht => ?_
    have hread := h b [] t (hB.suffix ht)
    rw [read?_nil] at hread
    exact hread
  have happend : p.replaceWith f (s.trimEnd ++ B) =
      p.replaceWith f s.trimEnd ++ B := by
    rw [replaceWith_eq, replaceFrom_append_of_read fun b c t _ => h b _ B hB,
      hcopy]
    rfl
  rw [← hs] at happend
  rw [happend, trimEnd_append_blanks_right hB]

theorem read?_enclosure_append_blanks {l k : Text} {hl : l ≠ []} (hk : k ≠ [])
    (hku : Unbroken k) (b : Bool) (s B : Text)
    (hB : AllBlank B) :
    (enclosure (.word l hl) (.exact k)).read? b (s ++ B) =
      (enclosure (.word l hl) (.exact k)).read? b s := by
  cases h : (enclosure (.word l hl) (.exact k)).read? b s with
  | some o => exact read?_enclosure_word_append_of_some hk h B
  | none =>
      refine Option.eq_none_iff_forall_ne_some.2 fun o ho => ?_
      obtain ⟨C, r, rfl, hs, habsent⟩ :=
        (read?_enclosure_word_eq_some_iff hk).1 ho
      -- Nothing of the occurrence stands in the blanks.
      have htrim := congrArg Text.trimEnd hs
      rw [trimEnd_append_blanks_right hB, ← List.append_assoc l,
        trimEnd_append_word hk hku] at htrim
      obtain ⟨E, -, hE⟩ := exists_trimEnd_append s
      have hsome : (enclosure (.word l hl) (.exact k)).read? b s =
          some ⟨l, C, k⟩ := by
        refine (read?_enclosure_word_eq_some_iff hk).2
          ⟨C, r.trimEnd ++ E, rfl, ?_, habsent⟩
        rw [hE, htrim]
        simp
      rw [h] at hsome
      cases hsome

end HtmlMinifier.Pattern
