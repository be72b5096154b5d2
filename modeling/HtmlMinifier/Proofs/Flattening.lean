import HtmlMinifier.Proofs.GapPass
import HtmlMinifier.Proofs.KeptWords

/-!
# Flattening a text early

Two texts with the same flattening differ only in what their gaps are made of,
not in where the gaps are. A word without blanks is at the same places in both,
so an enclosure between two such words is too, and deleting all enclosures
leaves texts that again have the same flattening. That is why the aggressive
profile may flatten a document before the comments of its style sheets and
scripts are deleted: whoever flattens afterwards cannot tell
(`flattenBlanks_delete`).

Everything rests on what is known of all passes that keep words: where a
flattened text has a word, the text has it too, and what stands before and
after it flattens to what stands there (`KeepsWords.exists_word`).
-/

namespace HtmlMinifier.Text

theorem flatRule_neighbours (l : Option Char) (R : Text) (r l' r' : Option Char) :
    flatRule l R r = flatRule l' R r' := by
  by_cases h : R = []
  · rw [h, flatRule_nil, flatRule_nil]
  · rw [flatRule_of_ne_nil h, flatRule_of_ne_nil h]

theorem mapGaps_flatRule (l r : Option Char) (s : Text) :
    mapGaps flatRule l r s = s.flattenBlanks := by
  rw [flattenBlanks_eq_mapGaps]
  exact mapGaps_neighbours flatRule_neighbours l r none none s

theorem flattenBlanks_of_allBlank {R : Text} (hR : AllBlank R) (hne : R ≠ []) :
    R.flattenBlanks = [' '] := by
  rw [flattenBlanks_eq_mapGaps, mapGaps_blanks hR, flatRule_of_ne_nil hne]

theorem flattenBlanks_append_cons {u v : Text} {c : Char}
    (hc : isBlank c = false) :
    flattenBlanks (u ++ c :: v) = u.flattenBlanks ++ c :: v.flattenBlanks := by
  rw [flattenBlanks_eq_mapGaps, mapGaps_append_cons hc, mapGaps_flatRule,
    mapGaps_flatRule]

theorem allBlank_flattenBlanks {R : Text} (hR : AllBlank R) :
    AllBlank R.flattenBlanks := by
  rw [flattenBlanks_eq_mapGaps, mapGaps_blanks hR]
  exact keepsBlank_flatRule _ _ _ hR

theorem keepsWords_flattenBlanks : KeepsWords Text.flattenBlanks where
  nil := rfl
  ne_nil hR hne := by
    rw [flattenBlanks_of_allBlank hR hne]
    exact List.cons_ne_nil ' ' []
  allBlank := allBlank_flattenBlanks
  append_cons := flattenBlanks_append_cons

/-- Flattening takes away whatever a pass that keeps words has done. -/
theorem KeepsWords.flattenBlanks_eq {F : Text → Text} (hF : KeepsWords F)
    (s : Text) : (F s).flattenBlanks = s.flattenBlanks := by
  have hgap : ∀ R, AllBlank R → (F R).flattenBlanks = R.flattenBlanks := by
    intro R hR
    by_cases h : R = []
    · rw [h, hF.nil]
    · rw [flattenBlanks_of_allBlank hR h,
        flattenBlanks_of_allBlank (hF.allBlank hR) (hF.ne_nil hR h)]
  induction s using gap_induction with
  | blanks R hR => exact hgap R hR
  | cons R c s hR hc ih =>
      rw [hF.append_cons hc, flattenBlanks_append_cons hc,
        flattenBlanks_append_cons hc, hgap R hR, ih]

theorem flattenBlanks_flattenBlanks (s : Text) :
    s.flattenBlanks.flattenBlanks = s.flattenBlanks :=
  keepsWords_flattenBlanks.flattenBlanks_eq s

/-- The parts of a text may be flattened before the whole is. -/
theorem flattenBlanks_append (u v : Text) :
    flattenBlanks (u ++ v) = flattenBlanks (u.flattenBlanks ++ v.flattenBlanks) := by
  induction u using gap_induction with
  | blanks R hR =>
      by_cases h : R = []
      · rw [h]
        exact (flattenBlanks_flattenBlanks v).symm
      · have hrun : ∀ Q : Text, AllBlank Q →
            flattenBlanks (R ++ Q) = flattenBlanks ([' '] ++ Q.flattenBlanks) := by
          intro Q hQ
          rw [flattenBlanks_of_allBlank (allBlank_append.2 ⟨hR, hQ⟩) (by simp [h]),
            flattenBlanks_of_allBlank _ (by simp)]
          exact allBlank_cons.2 ⟨by decide, allBlank_flattenBlanks hQ⟩
        rw [flattenBlanks_of_allBlank hR h]
        rcases allBlank_or_exists v with hv | ⟨Q, c, t, rfl, hQ, hc⟩
        · exact hrun v hv
        · rw [flattenBlanks_append_cons hc, ← List.append_assoc,
            ← List.append_assoc, flattenBlanks_append_cons hc,
            flattenBlanks_append_cons hc, hrun Q hQ, flattenBlanks_flattenBlanks]
  | cons R c s hR hc ih =>
      rw [List.append_assoc, List.cons_append, flattenBlanks_append_cons hc, ih,
        flattenBlanks_append_cons hc, List.append_assoc, List.cons_append,
        flattenBlanks_append_cons hc, flattenBlanks_flattenBlanks]

end HtmlMinifier.Text

namespace HtmlMinifier.Pattern

open Text

/-! ## Enclosures in a flattened text

Throughout, an enclosure runs from a word `l` to a word `k`, neither of which
has a blank. -/

section Enclosure

variable {l k : Text} {hl : l ≠ []} {b : Bool}

theorem delete_enclosure_hit (hk : k ≠ []) {B r : Text}
    (habsent : ¬ k <:+: B ++ k.dropLast) :
    (enclosure (.word l hl) (.exact k)).delete (l ++ (B ++ (k ++ r))) =
      (enclosure (.word l hl) (.exact k)).delete r :=
  lineBlind_enclosure.replaceWith_hit (t := l ++ B ++ k) (by simp) rfl
    ((read?_enclosure_word_eq_some_iff hk).2 ⟨B, r, rfl, rfl, habsent⟩)

theorem delete_enclosure_blanks (hlu : Unbroken l) {R s : Text}
    (hR : AllBlank R) :
    (enclosure (.word l hl) (.exact k)).delete (R ++ s) =
      R ++ (enclosure (.word l hl) (.exact k)).delete s := by
  induction R with
  | nil => rfl
  | cons c R ih =>
      obtain ⟨hc, hR⟩ := allBlank_cons.1 hR
      refine (lineBlind_enclosure.replaceWith_cons ?_).trans
        (congrArg (c :: ·) (ih hR))
      · refine read?_enclosure_eq_none ?_
        rw [Opener.read?_word, if_neg]
        intro hh
        cases l with
        | nil => exact hl rfl
        | cons d l =>
            obtain ⟨rfl, -⟩ := List.cons_prefix_cons.1 (Word.heads_exact.1 hh)
            rw [(unbroken_cons.1 hlu).1] at hc
            cases hc

/-- Whoever flattens a text after its enclosures are deleted cannot tell
whether it was flattened before, too. -/
theorem flattenBlanks_delete (hk : k ≠ []) (hlu : Unbroken l) (hku : Unbroken k)
    (s : Text) :
    Text.flattenBlanks ((enclosure (.word l hl) (.exact k)).delete s.flattenBlanks) =
      Text.flattenBlanks ((enclosure (.word l hl) (.exact k)).delete s) := by
  induction hn : s.length using Nat.strongRecOn generalizing s with
  | ind n ih =>
      rcases allBlank_or_exists s with h | ⟨R, c, t, rfl, hR, hc⟩
      · have hcopy : ∀ Q : Text, AllBlank Q →
            (enclosure (.word l hl) (.exact k)).delete Q = Q := by
          intro Q hQ
          have hQ' : (enclosure (.word l hl) (.exact k)).delete (Q ++ []) =
              Q ++ _ := delete_enclosure_blanks hlu hQ
          rw [List.append_nil] at hQ'
          exact hQ'.trans (List.append_nil Q)
        rw [hcopy s h, hcopy _ (allBlank_flattenBlanks h),
          flattenBlanks_flattenBlanks]
      · simp only [List.length_append, List.length_cons] at hn
        -- The text from its first character on, where something may be read.
        have hq : Text.flattenBlanks ((enclosure (.word l hl) (.exact k)).delete
              (c :: Text.flattenBlanks t)) =
            Text.flattenBlanks ((enclosure (.word l hl) (.exact k)).delete
              (c :: t)) := by
          cases hread : (enclosure (.word l hl) (.exact k)).read? true (c :: t) with
          | none =>
              have hnone := read?_enclosure_word_of_keepsWords
                keepsWords_flattenBlanks hk hlu hku hread
              rw [keepsWords_flattenBlanks.cons hc] at hnone
              rw [delete, replace, lineBlind_enclosure.replaceWith_cons hread,
                lineBlind_enclosure.replaceWith_cons hnone,
                keepsWords_flattenBlanks.cons hc, keepsWords_flattenBlanks.cons hc]
              exact congrArg (c :: ·) (ih t.length (by omega) t rfl)
          | some o =>
              obtain ⟨B, r, -, hs, habsent⟩ :=
                (read?_enclosure_word_eq_some_iff hk).1 hread
              have hlen := congrArg List.length hs
              have hpos := List.length_pos_iff.2 hl
              simp only [List.length_append, List.length_cons] at hlen
              rw [← keepsWords_flattenBlanks.cons hc, hs,
                keepsWords_flattenBlanks.word_append hlu,
                keepsWords_flattenBlanks.append_word hk hku,
                delete_enclosure_hit hk habsent, delete_enclosure_hit hk,
                ih r.length (by omega) r rfl]
              rwa [keepsWords_flattenBlanks.infix_append_dropLast hk hku]
        rw [flattenBlanks_append_cons hc,
          delete_enclosure_blanks hlu (allBlank_flattenBlanks hR),
          delete_enclosure_blanks hlu hR, flattenBlanks_append, hq,
          flattenBlanks_flattenBlanks, ← flattenBlanks_append]

end Enclosure

end HtmlMinifier.Pattern
