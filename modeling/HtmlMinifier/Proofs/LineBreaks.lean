import HtmlMinifier.Proofs.LineEdge
import Mathlib.Data.List.Induction

/-!
# Lines of a text

The lines of a text, trimmed and without those that are blank, are what its
padding and its blank lines do not change. Printed with a line feed between
them they are again the text under a rule on gaps: a gap with a line feed in it
becomes one, any other stays (`intercalate_trimmedLines`). That is how the
passes over gaps and a description by lines are brought together.

Squeezing runs of line feeds is a rule on gaps as well, though its pattern
knows nothing of other blanks: no run of line feeds leaves its gap. It is what
saves the line breaks. Deleting line edges would lose a line feed that another
one stands before, and after the squeeze there is none.
-/

namespace HtmlMinifier.Text

/-! ## Squeezing line feeds -/

theorem read?_lineFeeds_append {b : Bool} {s t : Text} {d : Char}
    (hd : d ≠ '\n') :
    Pattern.lineFeeds.read? b (s ++ d :: t) = Pattern.lineFeeds.read? b s := by
  have hrun : (s ++ d :: t).takeWhile (· == '\n') =
      s.takeWhile (· == '\n') := by
    have hstop : (d :: t).takeWhile (· == '\n') = [] := by
      rw [List.takeWhile_cons, if_neg (by simpa using hd)]
    rw [List.takeWhile_append, hstop]
    split
    · next h =>
        rw [List.append_nil s]
        exact ((List.takeWhile_prefix _).eq_of_length h).symm
    · rfl
  simp only [Pattern.lineFeeds, hrun]

theorem read?_lineFeeds_eq_none {b : Bool} {s : Text} {d : Char} (hd : d ≠ '\n') :
    Pattern.lineFeeds.read? b (d :: s) = none := by
  rw [← List.nil_append (d :: s), read?_lineFeeds_append hd]
  rfl

theorem lineBlind_lineFeeds : Pattern.lineFeeds.LineBlind := fun _ _ _ => rfl

theorem squeezeLineFeeds_append_cons {s t : Text} {d : Char} (hd : d ≠ '\n') :
    Text.squeezeLineFeeds (s ++ d :: t) =
      s.squeezeLineFeeds ++ d :: t.squeezeLineFeeds := by
  rw [squeezeLineFeeds, Pattern.replace, Pattern.replaceWith_eq,
    Pattern.replaceFrom_append_of_read, lineBlind_lineFeeds.replaceFrom_eq,
    lineBlind_lineFeeds.replaceFrom_eq,
    lineBlind_lineFeeds.replaceWith_cons (read?_lineFeeds_eq_none hd)]
  intro b c v _
  exact read?_lineFeeds_append hd

/-- Characters without a line feed among them are copied. -/
theorem squeezeLineFeeds_append_of_not_mem {k : Text} (h : '\n' ∉ k) (s : Text) :
    Text.squeezeLineFeeds (k ++ s) = k ++ s.squeezeLineFeeds :=
  lineBlind_lineFeeds.replaceWith_append (fun _ hc _ =>
    read?_lineFeeds_eq_none (ne_of_mem_of_not_mem hc h)) s

theorem squeezeLineFeeds_of_not_mem {s : Text} (h : '\n' ∉ s) :
    s.squeezeLineFeeds = s := by
  have hs := squeezeLineFeeds_append_of_not_mem h []
  rw [List.append_nil] at hs
  exact hs.trans (List.append_nil s)

theorem squeezeLineFeeds_replicate (n : Nat) :
    squeezeLineFeeds (List.replicate (n + 1) '\n') = ['\n'] := by
  cases n with
  | zero => rfl
  | succ n =>
      have hrun : (List.replicate (n + 2) '\n').takeWhile (· == '\n') =
          List.replicate (n + 2) '\n' := by
        rw [List.takeWhile_eq_self_iff]
        intro c hc
        rw [List.eq_of_mem_replicate hc]
        rfl
      have hread : Pattern.lineFeeds.read? true (List.replicate (n + 2) '\n') =
          some ⟨[], List.replicate (n + 2) '\n', []⟩ := by
        simp only [Pattern.lineFeeds, hrun, List.length_replicate]
        exact if_pos (by omega)
      rw [squeezeLineFeeds, Pattern.replace, Pattern.replaceWith_eq,
        Pattern.replaceFrom_hit_eq (t := List.replicate (n + 2) '\n') (r := [])
          (by simp) (by simp [Occurrence.text]) hread]
      rfl

/-- Line feeds are squeezed in each gap by itself. -/
def squeezeRule : GapRule := fun _ R _ => R.squeezeLineFeeds

theorem squeezeLineFeeds_eq_mapGaps (s : Text) : ∀ {l r : Option Char},
    s.squeezeLineFeeds = mapGaps squeezeRule l r s := by
  induction s using gap_induction with
  | blanks R hR => intro l r; rw [mapGaps_blanks hR, squeezeRule]
  | cons R c s hR hc ih =>
      intro l r
      rw [mapGaps_gap hR hc, ← ih, squeezeLineFeeds_append_cons (newline_ne hc),
        squeezeRule]

theorem not_mem_squeezeLineFeeds {c : Char} {s : Text} (hc : c ≠ '\n')
    (h : c ∉ s) : c ∉ s.squeezeLineFeeds :=
  Pattern.not_mem_replace (by simpa using hc) h

theorem allBlank_squeezeLineFeeds {R : Text} (hR : AllBlank R) :
    AllBlank R.squeezeLineFeeds := by
  intro c hc
  by_cases h : c ∈ R
  · exact hR c h
  · by_cases hn : c = '\n'
    · rw [hn]; decide
    · exact absurd hc (not_mem_squeezeLineFeeds hn h)

theorem keepsBlank_squeezeRule : KeepsBlank squeezeRule :=
  fun _ _ _ hR => allBlank_squeezeLineFeeds hR

/-- The line feeds a text ends with, apart. -/
theorem exists_replicate_append (s : Text) :
    ∃ v n, s = v ++ List.replicate n '\n' ∧ v.getLast? ≠ some '\n' := by
  induction s using List.reverseRecOn with
  | nil => exact ⟨[], 0, rfl, by simp⟩
  | append_singleton s d ih =>
      by_cases hd : d = '\n'
      · obtain ⟨v, n, rfl, hv⟩ := ih
        refine ⟨v, n + 1, ?_, hv⟩
        rw [hd, List.append_assoc, ← List.replicate_succ']
      · exact ⟨s ++ [d], 0, by simp, by simpa using hd⟩

/-- After the squeeze the last line feed of a text stands alone. -/
theorem exists_squeezeLineFeeds {w u : Text} (h : '\n' ∉ u) :
    ∃ v, Text.squeezeLineFeeds (w ++ '\n' :: u) = v ++ '\n' :: u ∧
      v.getLast? ≠ some '\n' := by
  have hone : ∀ n : Nat, Text.squeezeLineFeeds
      (List.replicate n '\n' ++ '\n' :: u) = '\n' :: u := by
    intro n
    have hrep := squeezeLineFeeds_replicate n
    rw [List.replicate_succ'] at hrep
    cases u with
    | nil => exact hrep
    | cons d u =>
        obtain ⟨hd, hu⟩ := List.ne_and_not_mem_of_not_mem_cons h
        rw [List.append_cons, squeezeLineFeeds_append_cons (Ne.symm hd), hrep,
          squeezeLineFeeds_of_not_mem hu]
        rfl
  obtain ⟨v, n, rfl, hv⟩ := exists_replicate_append w
  rcases List.eq_nil_or_concat' v with rfl | ⟨v, d, rfl⟩
  · exact ⟨[], hone n, by simp⟩
  · have hd : d ≠ '\n' := by simpa using hv
    refine ⟨Text.squeezeLineFeeds v ++ [d], ?_, by simpa using hd⟩
    have hcut := squeezeLineFeeds_append_cons (s := v) (t :=
      List.replicate n '\n' ++ '\n' :: u) hd
    rw [hone n] at hcut
    simpa using hcut

/-! ## Gaps with a line feed -/

/-- A gap with a line feed between two characters becomes one line feed. -/
def breakRule : GapRule := fun l R r =>
  if l = none ∨ r = none then [] else if '\n' ∈ R then ['\n'] else R

theorem breakRule_end {l r : Option Char} {R : Text} (h : l = none ∨ r = none) :
    breakRule l R r = [] :=
  if_pos h

theorem breakRule_inner {a b : Char} {R : Text} :
    breakRule (some a) R (some b) = if '\n' ∈ R then ['\n'] else R :=
  if_neg (by simp)

/-- After the squeeze the padding of lines loses no line feed. -/
theorem lineRule_squeezeRule (l r : Option Char) (R : Text) :
    lineRule l (squeezeRule l R r) r = breakRule l R r := by
  cases l with
  | none => rw [lineRule_end (.inl rfl), breakRule_end (.inl rfl)]
  | some a =>
      cases r with
      | none => rw [lineRule_end (.inr rfl), breakRule_end (.inr rfl)]
      | some b =>
          rw [breakRule_inner, squeezeRule]
          by_cases h : '\n' ∈ R
          · obtain ⟨w, u, rfl, hu⟩ := exists_last_break h
            obtain ⟨v, hv, hlast⟩ := exists_squeezeLineFeeds (w := w) hu
            rw [if_pos h, hv, lineRule_append hu, if_neg hlast]
          · rw [if_neg h, squeezeLineFeeds_of_not_mem h, lineRule_of_not_mem h]

theorem keepsBlank_breakRule : KeepsBlank breakRule := by
  intro l R r hR
  rw [← lineRule_squeezeRule]
  exact keepsBlank_lineRule _ _ _ (keepsBlank_squeezeRule _ _ _ hR)

/-! ## Lines -/

/-- The lines of a text, trimmed, without those that are blank. -/
def trimmedLines (s : Text) : List Text :=
  ((s.splitOn '\n').map trim).filter fun line => !line.isEmpty

theorem trimmedLines_nil : trimmedLines [] = [] := rfl

theorem trimmedLines_append (s t : Text) :
    trimmedLines (s ++ '\n' :: t) = trimmedLines s ++ trimmedLines t := by
  rw [trimmedLines, List.splitOn_append_cons_self, List.map_append,
    List.filter_append]
  rfl

theorem trimmedLines_blank_cons {c : Char} {s : Text} (hc : isBlank c = true) :
    trimmedLines (c :: s) = trimmedLines s := by
  by_cases h : c = '\n'
  · subst h
    exact trimmedLines_append [] s
  · cases hs : s.splitOn '\n' with
    | nil => exact absurd hs (List.splitOn_ne_nil '\n' s)
    | cons line rest =>
        rw [trimmedLines, List.splitOn_cons_eq_if_modifyHead,
          if_neg (by simpa using h), hs, List.modifyHead_cons, List.map_cons,
          trim_blank_cons hc, trimmedLines, hs, List.map_cons]

theorem trimmedLines_blanks_append {R s : Text} (hR : AllBlank R) :
    trimmedLines (R ++ s) = trimmedLines s := by
  induction R with
  | nil => rfl
  | cons c R ih =>
      obtain ⟨hc, hR⟩ := allBlank_cons.1 hR
      rw [List.cons_append, trimmedLines_blank_cons hc, ih hR]

theorem trimmedLines_of_allBlank {R : Text} (hR : AllBlank R) :
    trimmedLines R = [] := by
  have h := trimmedLines_blanks_append (s := []) hR
  rw [List.append_nil] at h
  exact h

theorem trimmedLines_cons_of_not_mem {a : Char} {s : Text}
    (ha : isBlank a = false) (h : '\n' ∉ s) :
    trimmedLines (a :: s) = [a :: s.trimEnd] := by
  have hmem : '\n' ∉ a :: s := by
    intro hm
    rcases List.mem_cons.1 hm with hm | hm
    · exact newline_ne ha hm.symm
    · exact h hm
  rw [trimmedLines, List.splitOn_eq_singleton hmem, List.map_singleton,
    trim_cons ha]
  rfl

/-- The first line of a text, when it starts with a character that is not
blank, goes on from whatever stands before it on the line. -/
theorem exists_trimmedLines {c : Char} (hc : isBlank c = false) (s : Text) :
    ∃ line rest, trimmedLines (c :: s) = line :: rest ∧
      ∀ {a : Char} {u : Text}, isBlank a = false → '\n' ∉ u →
        trimmedLines (a :: (u ++ c :: s)) = (a :: (u ++ line)) :: rest := by
  have hone : ∀ {a : Char} {u k : Text}, isBlank a = false → '\n' ∉ u →
      '\n' ∉ k → trimmedLines (a :: (u ++ c :: k)) =
        [a :: (u ++ c :: k.trimEnd)] := by
    intro a u k ha hu hk
    rw [trimmedLines_cons_of_not_mem ha, trimEnd_append_cons hc]
    intro hm
    rcases List.mem_append.1 hm with hm | hm
    · exact hu hm
    · rcases List.mem_cons.1 hm with hm | hm
      · exact newline_ne hc hm.symm
      · exact hk hm
  by_cases h : '\n' ∈ s
  · obtain ⟨k, t, rfl, hk⟩ := List.eq_append_cons_of_mem h
    refine ⟨c :: Text.trimEnd k, trimmedLines t, ?_, ?_⟩
    · rw [← List.cons_append, trimmedLines_append,
        trimmedLines_cons_of_not_mem hc hk]
      rfl
    · intro a u ha hu
      rw [show a :: (u ++ c :: (k ++ '\n' :: t)) =
          a :: (u ++ c :: k) ++ '\n' :: t by simp,
        trimmedLines_append, hone ha hu hk]
      rfl
  · exact ⟨c :: s.trimEnd, [], trimmedLines_cons_of_not_mem hc h,
      fun ha hu => hone ha hu h⟩

theorem intercalate_trimmedLines_cons (s : Text) : ∀ {a : Char},
    isBlank a = false →
    ['\n'].intercalate (trimmedLines (a :: s)) =
      a :: mapGaps breakRule (some a) none s := by
  induction s using gap_induction with
  | blanks R hR =>
      intro a ha
      have hline : trimmedLines (a :: R) = [[a]] := by
        by_cases h : '\n' ∈ R
        · obtain ⟨w, u, rfl, hw⟩ := List.eq_append_cons_of_mem h
          obtain ⟨hw', hu⟩ := allBlank_append.1 hR
          rw [← List.cons_append, trimmedLines_append,
            trimmedLines_cons_of_not_mem ha hw, trimEnd_of_allBlank hw',
            trimmedLines_of_allBlank (allBlank_cons.1 hu).2]
          rfl
        · rw [trimmedLines_cons_of_not_mem ha h, trimEnd_of_allBlank hR]
      rw [hline, mapGaps_blanks hR, breakRule_end (.inr rfl)]
      rfl
  | cons R c s hR hc ih =>
      intro a ha
      rw [mapGaps_gap hR hc, breakRule_inner, ← ih hc]
      obtain ⟨line, rest, hline, hon⟩ := exists_trimmedLines hc s
      by_cases h : '\n' ∈ R
      · obtain ⟨w, u, rfl, hw⟩ := List.eq_append_cons_of_mem h
        obtain ⟨hw', hu⟩ := allBlank_append.1 hR
        rw [if_pos h, List.append_assoc, List.cons_append, ← List.cons_append,
          trimmedLines_append, trimmedLines_cons_of_not_mem ha hw,
          trimEnd_of_allBlank hw',
          trimmedLines_blanks_append (allBlank_cons.1 hu).2, hline]
        rfl
      · rw [if_neg h, hon ha h, hline]
        cases rest <;> simp

/-- The lines of a text, printed, are the text with its line breaks cleaned. -/
theorem intercalate_trimmedLines (s : Text) :
    ['\n'].intercalate (trimmedLines s) = mapGaps breakRule none none s := by
  rcases allBlank_or_exists s with h | ⟨R, c, t, rfl, hR, hc⟩
  · rw [trimmedLines_of_allBlank h, mapGaps_blanks h, breakRule_end (.inl rfl)]
    rfl
  · rw [trimmedLines_blanks_append hR, intercalate_trimmedLines_cons t hc,
      mapGaps_gap hR hc, breakRule_end (.inl rfl)]
    rfl

/-! ## Rules that keep the lines -/

theorem trim_trim (s : Text) : s.trim.trim = s.trim := by
  rw [trim_eq_mapGaps s, trim_eq_mapGaps, mapGaps_mapGaps keepsBlank_endRule]
  refine mapGaps_congr (fun l R r _ => ?_) s
  by_cases h : l = none ∨ r = none
  · rw [thenGap, endRule, if_pos h, endRule, if_pos h]
  · rw [thenGap, endRule, if_neg h]

theorem not_mem_of_mem_splitOn (s : Text) : ∀ {line : Text},
    line ∈ s.splitOn '\n' → '\n' ∉ line := by
  induction s with
  | nil =>
      intro line h
      rw [List.splitOn_nil, List.mem_singleton] at h
      rw [h]
      exact List.not_mem_nil
  | cons c s ih =>
      intro line h
      rw [List.splitOn_cons_eq_if_modifyHead] at h
      split at h
      · rcases List.mem_cons.1 h with rfl | h
        · exact List.not_mem_nil
        · exact ih h
      · next hc =>
        cases hs : s.splitOn '\n' with
        | nil => exact absurd hs (List.splitOn_ne_nil '\n' s)
        | cons first rest =>
            rw [hs] at ih
            rw [hs, List.modifyHead_cons] at h
            rcases List.mem_cons.1 h with rfl | h
            · rw [List.mem_cons, not_or]
              exact ⟨fun hn => hc (by simp [← hn]), ih List.mem_cons_self⟩
            · exact ih (List.mem_cons_of_mem first h)

/-- The lines of a text are lines as they stand. -/
theorem trimmedLines_intercalate_trimmedLines (s : Text) :
    trimmedLines (['\n'].intercalate (trimmedLines s)) = trimmedLines s := by
  have hline : ∀ line ∈ trimmedLines s,
      '\n' ∉ line ∧ line.trim = line ∧ line ≠ [] := by
    intro line hmem
    obtain ⟨hmap, hne⟩ := List.mem_filter.1 hmem
    obtain ⟨k, hk, rfl⟩ := List.mem_map.1 hmap
    refine ⟨fun hn => not_mem_of_mem_splitOn s hk ?_, trim_trim k, by simpa using hne⟩
    obtain ⟨u, v, huv, -, -⟩ := exists_blanks_trim k
    rw [← huv]
    simp [hn]
  by_cases hnil : trimmedLines s = []
  · rw [hnil]
    rfl
  · rw [trimmedLines, List.splitOn_intercalate '\n' (fun line h => (hline line h).1) hnil,
      List.map_congr_left fun line h => (hline line h).2.1, List.map_id',
      List.filter_eq_self.2 fun line h => by simpa using (hline line h).2.2]

/-- A rule keeps the lines of a text if it keeps what gaps are to line breaks. -/
theorem trimmedLines_mapGaps {f : GapRule} (hf : KeepsBlank f)
    (h : ∀ l R r, breakRule l (f l R r) r = breakRule l R r) (s : Text) :
    trimmedLines (mapGaps f none none s) = trimmedLines s := by
  have hgaps : mapGaps breakRule none none (mapGaps f none none s) =
      mapGaps breakRule none none s := by
    rw [mapGaps_mapGaps hf]
    exact mapGaps_congr (fun l R r _ => h l R r) s
  rw [← trimmedLines_intercalate_trimmedLines, intercalate_trimmedLines, hgaps,
    ← intercalate_trimmedLines, trimmedLines_intercalate_trimmedLines]

theorem trimmedLines_trim (s : Text) : trimmedLines s.trim = trimmedLines s := by
  rw [trim_eq_mapGaps]
  refine trimmedLines_mapGaps keepsBlank_endRule (fun l R r => ?_) s
  by_cases h : l = none ∨ r = none
  · rw [breakRule_end h, breakRule_end h]
  · rw [endRule, if_neg h]

theorem trimmedLines_squeezeLineFeeds (s : Text) :
    trimmedLines s.squeezeLineFeeds = trimmedLines s := by
  rw [squeezeLineFeeds_eq_mapGaps s]
  refine trimmedLines_mapGaps keepsBlank_squeezeRule (fun l R r => ?_) s
  rw [breakRule, breakRule, squeezeRule]
  by_cases h : '\n' ∈ R
  · obtain ⟨w, u, rfl, hu⟩ := exists_last_break h
    obtain ⟨v, hv, -⟩ := exists_squeezeLineFeeds (w := w) hu
    have hmem : '\n' ∈ Text.squeezeLineFeeds (w ++ '\n' :: u) := by
      rw [hv]
      exact List.mem_append_right v List.mem_cons_self
    rw [if_pos hmem, if_pos h]
  · rw [squeezeLineFeeds_of_not_mem h]

end HtmlMinifier.Text
