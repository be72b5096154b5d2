import HtmlMinifier.Stylesheet
import HtmlMinifier.Proofs.LineEdge
import Mathlib.Data.List.Chain
import Mathlib.Data.List.DropRight

/-!
# The gaps of a style sheet

Once the block comments are deleted, which is described by `Pattern.uncommented_iff`,
the structured rules go over the blanks of a style sheet seven times, trimming
included, but each pass treats the gaps one by one, so all of them are one rule on gaps
(`sheetRule`). Two passes are not of the usual kind. The pattern for indents has a line
feed for its left neighbour, which is a blank itself. It finds nothing, because wide
gaps have become single spaces before (`deleteIndents_collapseWide`). And the pattern
for the blanks after a semicolon stops at a line feed, inside a gap. Of the gaps that
are left by then it shortens one only, the single line feed, and it empties that
(`semicolonRule_wideRule`). So one line feed after a semicolon goes, while two of them
become a space, which stays.
-/

namespace HtmlMinifier

namespace Text

/-! ## Neighbours in a treated text -/

section Chain

variable {P : Char → Char → Prop} {f : GapRule}

/-- A relation that holds along every treated gap, from the character before it to the
one after it, holds along the treated text. -/
theorem isChain_mapGaps
    (h : ∀ l R r, AllBlank R → (∀ a ∈ l, isBlank a = false) → (∀ b ∈ r, isBlank b = false) →
      (l.toList ++ (f l R r ++ r.toList)).IsChain P) (s : Text) :
    ∀ {l r : Option Char}, (∀ a ∈ l, isBlank a = false) → (∀ b ∈ r, isBlank b = false) →
      (l.toList ++ (mapGaps f l r s ++ r.toList)).IsChain P := by
  induction s using gap_induction with
  | blanks R hR =>
      intro l r hl hr
      rw [mapGaps_blanks hR]
      exact h l R r hR hl hr
  | cons R c s hR hc ih =>
      intro l r hl hr
      have hc' : ∀ b ∈ some c, isBlank b = false := fun b hb => Option.some.inj hb ▸ hc
      have hgap := h l R (some c) hR hl hc'
      have hrest := ih hc' hr
      rw [Option.toList_some, ← List.append_assoc] at hgap
      rw [mapGaps_gap hR hc, List.append_assoc, ← List.append_assoc l.toList]
      exact List.isChain_split.2 ⟨hgap, hrest⟩

theorem isChain_gap {l r : Option Char} {R : Text} (hlen : R.length ≤ 1)
    (hjoin : ∀ a ∈ l, ∀ b ∈ r, P a b) (hleft : ∀ a ∈ l, ∀ x ∈ R, P a x)
    (hright : ∀ x ∈ R, ∀ b ∈ r, P x b) : (l.toList ++ (R ++ r.toList)).IsChain P := by
  match R with
  | [] => cases l <;> cases r <;> simp_all
  | [x] => cases l <;> cases r <;> simp_all

/-- What stands side by side in a text, if a rule leaves one blank of a gap at most:
two characters that are not blank, or such a character and a blank that is left beside
it. -/
theorem rel_of_mapGaps (hlen : ∀ l R r, (f l R r).length ≤ 1)
    (hjoin : ∀ a b, isBlank a = false → isBlank b = false → P a b)
    (hleft : ∀ a R r, isBlank a = false → ∀ x ∈ f (some a) R r, P a x)
    (hright : ∀ l R b, isBlank b = false → ∀ x ∈ f l R (some b), P x b)
    {s : Text} {a b : Char} (h : [a, b] <:+: mapGaps f none none s) : P a b := by
  have hchain : (mapGaps f none none s).IsChain P := by
    rw [← List.append_nil (mapGaps f none none s)]
    refine isChain_mapGaps (fun l R r _ hl hr => ?_) s (l := none) (r := none) nofun nofun
    refine isChain_gap (hlen l R r) (fun a ha b hb => hjoin a b (hl a ha) (hr b hb)) ?_ ?_
    · rintro a rfl
      exact hleft a R r (hl a rfl)
    · rintro x hx b rfl
      exact hright l R b (hr b rfl) x hx
  have hpair := List.IsChain.infix hchain h
  exact List.isChain_pair.1 hpair

end Chain

/-- The text after the last line feed, the whole text if there is none. -/
def afterLastBreak (s : Text) : Text := s.rtakeWhile (· != '\n')

theorem afterLastBreak_of_not_mem {s : Text} (h : '\n' ∉ s) : s.afterLastBreak = s :=
  List.rtakeWhile_eq_self_iff.2 (bne_newline_of_not_mem h)

theorem afterLastBreak_append {w u : Text} (h : '\n' ∉ u) :
    afterLastBreak (w ++ '\n' :: u) = u := by
  have hpass : ∀ c ∈ u.reverse, (c != '\n') = true :=
    bne_newline_of_not_mem fun hu => h (List.mem_reverse.1 hu)
  rw [afterLastBreak, List.rtakeWhile, List.reverse_append, List.reverse_cons,
    List.append_assoc, List.takeWhile_append_of_pos hpass]
  simp

end Text

namespace Stylesheet

open Text

/-! ## Blanks after a semicolon -/

/-- A gap after a semicolon goes up to its last line feed. -/
def semicolonRule : GapRule := fun l R _ =>
  if l = some ';' then R.afterLastBreak else R

theorem keepsBlank_semicolonRule : KeepsBlank semicolonRule := by
  intro l R r hR
  rw [semicolonRule]
  split
  · exact hR.suffix (List.rtakeWhile_suffix _ _)
  · exact hR

theorem lineBlind_semicolonBreak : semicolonBreak.LineBlind := fun _ _ _ => rfl

section Search

variable {R q : Text}

theorem read?_semicolonBreak_eq_none {b : Bool} {c : Char} {s : Text} (hc : c ≠ ';') :
    semicolonBreak.read? b (c :: s) = none := by
  simp only [semicolonBreak]
  rw [if_neg hc]

theorem deleteSemicolonBreaks_blanks (hR : AllBlank R) (s : Text) :
    deleteSemicolonBreaks (R ++ s) = R ++ deleteSemicolonBreaks s :=
  lineBlind_semicolonBreak.replaceWith_append (fun _ hc _ =>
    read?_semicolonBreak_eq_none (ne_of_mem_of_not_mem hc (hR.not_mem (by decide)))) s

theorem deleteSemicolonBreaks_semicolon (hR : AllBlank R) (hq : q.trimStart = q) :
    deleteSemicolonBreaks (';' :: (R ++ q)) =
      ';' :: (R.afterLastBreak ++ deleteSemicolonBreaks q) := by
  have hread : semicolonBreak.read? true (';' :: (R ++ q)) =
      R.beforeLastBreak?.map fun w => ⟨[';'], w, ['\n']⟩ := by
    simp only [semicolonBreak]
    rw [leadingBlanks_append hR hq, if_pos trivial]
    cases R.beforeLastBreak? with
    | none => rfl
    | some w => rfl
  by_cases h : '\n' ∈ R
  · obtain ⟨w, u, rfl, hu⟩ := exists_last_break h
    have hblank := (allBlank_cons.1 (allBlank_append.1 hR).2).2
    rw [beforeLastBreak?_append hu, Option.map_some] at hread
    have hhit := lineBlind_semicolonBreak.replaceWith_hit (f := fun _ => [';'])
      (t := ';' :: (w ++ ['\n'])) (r := u ++ q) (by simp) (by simp [Occurrence.text]) hread
    rw [afterLastBreak_append hu, ← deleteSemicolonBreaks_blanks hblank]
    exact hhit
  · rw [beforeLastBreak?_of_not_mem h, Option.map_none] at hread
    rw [afterLastBreak_of_not_mem h, ← deleteSemicolonBreaks_blanks hR]
    exact lineBlind_semicolonBreak.replaceWith_cons hread

theorem deleteSemicolonBreaks_gap (c : Char) (r : Option Char) (hR : AllBlank R)
    (hq : q.trimStart = q) :
    deleteSemicolonBreaks (c :: (R ++ q)) =
      c :: (semicolonRule (some c) R r ++ deleteSemicolonBreaks q) := by
  by_cases hc : c = ';'
  · rw [hc, semicolonRule, if_pos rfl, deleteSemicolonBreaks_semicolon hR hq]
  · rw [semicolonRule, if_neg (by simpa using hc), ← deleteSemicolonBreaks_blanks hR]
    exact lineBlind_semicolonBreak.replaceWith_cons (read?_semicolonBreak_eq_none hc)

theorem deleteSemicolonBreaks_cons_eq_mapGaps (s : Text) : ∀ c : Char,
    deleteSemicolonBreaks (c :: s) = c :: mapGaps semicolonRule (some c) none s := by
  induction s using gap_induction with
  | blanks R hR =>
      intro c
      have hgap := deleteSemicolonBreaks_gap c none hR (q := []) rfl
      rw [show deleteSemicolonBreaks [] = [] from rfl, List.append_nil, List.append_nil] at hgap
      rw [mapGaps_blanks hR, hgap]
  | cons R d s hR hd ih =>
      intro c
      rw [deleteSemicolonBreaks_gap c (some d) hR (trimStart_cons hd), ih, mapGaps_gap hR hd]

theorem deleteSemicolonBreaks_eq_mapGaps (s : Text) :
    deleteSemicolonBreaks s = mapGaps semicolonRule none none s := by
  rcases allBlank_or_exists s with hR | ⟨R, c, t, rfl, hR, hc⟩
  · have hblank := deleteSemicolonBreaks_blanks hR []
    rw [show deleteSemicolonBreaks [] = [] from rfl, List.append_nil] at hblank
    rw [mapGaps_blanks hR, hblank]
    rfl
  · rw [deleteSemicolonBreaks_blanks hR, deleteSemicolonBreaks_cons_eq_mapGaps,
      mapGaps_gap hR hc]
    rfl

end Search

/-! ## Wide gaps and indents -/

/-- A gap of two blanks or more becomes a space. -/
def wideRule : GapRule := Pattern.gapRule none none 2 [' ']

theorem keepsBlank_wideRule : KeepsBlank wideRule :=
  Pattern.keepsBlank_gapRule (by decide)

theorem wideRule_of_narrow {R : Text} (h : R.length ≤ 1) (l r : Option Char) :
    wideRule l R r = R :=
  if_neg (by omega)

theorem wideRule_of_wide {R : Text} (h : ¬ R.length ≤ 1) (l r : Option Char) :
    wideRule l R r = [' '] :=
  if_pos ⟨.inl rfl, .inl rfl, by omega⟩

theorem length_wideRule (l : Option Char) (R : Text) (r : Option Char) :
    (wideRule l R r).length ≤ 1 := by
  by_cases h : R.length ≤ 1
  · rw [wideRule_of_narrow h]
    exact h
  · rw [wideRule_of_wide h]
    rfl

theorem collapseWide_eq_mapGaps (s : Text) :
    collapseWide s = mapGaps wideRule none none s :=
  @Pattern.replace_gap none none 2 (.inl Nat.two_pos) nofun [' '] s

theorem isBlank_of_infix_collapseWide {s : Text} {a b : Char}
    (h : [a, b] <:+: collapseWide s) : isBlank a = false ∨ isBlank b = false := by
  rw [collapseWide_eq_mapGaps] at h
  exact rel_of_mapGaps (P := fun a b => isBlank a = false ∨ isBlank b = false) length_wideRule
    (fun _ _ ha _ => .inl ha) (fun _ _ _ ha _ _ => .inl ha) (fun _ _ _ hb _ _ => .inr hb) h

/-- An indent is read where a blank stands behind a line feed. -/
theorem read?_indent_eq_none_iff {b : Bool} {s : Text} :
    (Pattern.gap (some '\n') none 1).read? b s = none ↔
      ∀ c, isBlank c = true → ¬ ['\n', c] <+: s := by
  show Pattern.readGap? (some '\n') none 1 s = none ↔ _
  constructor
  · rintro h c hc ⟨u, rfl⟩
    have hread : Pattern.readGap? (some '\n') none 1 ('\n' :: c :: u) = some _ :=
      Pattern.readGap?_eq_some_iff.2 ⟨c :: u, _, rfl, by simp [leadingBlanks, hc], rfl, rfl⟩
    cases h.symm.trans hread
  · intro h
    refine Option.eq_none_iff_forall_ne_some.2 fun o ho => ?_
    obtain ⟨t, -, rfl, hlen, -, -⟩ := Pattern.readGap?_eq_some_iff.1 ho
    obtain ⟨c, R, hR⟩ := List.exists_cons_of_length_pos hlen
    have hblank : isBlank c = true := isBlank_of_mem_leadingBlanks (hR ▸ List.mem_cons_self)
    obtain ⟨v, hv⟩ := t.leadingBlanks_prefix
    rw [hR] at hv
    exact h c hblank ⟨R ++ v, by rw [← hv]; rfl⟩

/-- There are no indents where wide gaps have been collapsed. -/
theorem deleteIndents_collapseWide (s : Text) :
    deleteIndents (collapseWide s) = collapseWide s := by
  refine Pattern.replaceWith_of_none fun b t ht => read?_indent_eq_none_iff.2 fun c hc hp => ?_
  rcases isBlank_of_infix_collapseWide (hp.isInfix.trans ht.isInfix) with h | h
  · exact absurd h (by decide)
  · exact absurd h (by simp [hc])

/-! ## All rules together -/

/-- What the structured rules leave of a gap. -/
def sheetRule : GapRule := fun l R r =>
  if l = none ∨ r = none ∨ l = some ':' ∨ r = some '}' ∨ l = some '{' ∨
      l = some ';' ∧ R = ['\n'] then []
  else if R.length ≤ 1 then R else [' ']

/-- After a semicolon a single line feed goes, and no other gap is shortened once the
wide ones are spaces. -/
theorem semicolonRule_wideRule (l : Option Char) (R : Text) (r : Option Char) :
    semicolonRule l (wideRule l R r) r =
      if l = some ';' ∧ R = ['\n'] then [] else if R.length ≤ 1 then R else [' '] := by
  by_cases hlen : R.length ≤ 1
  · rw [wideRule_of_narrow hlen, if_pos hlen, semicolonRule]
    by_cases hl : l = some ';'
    · rw [if_pos hl]
      by_cases hR : R = ['\n']
      · rw [if_pos ⟨hl, hR⟩, hR]
        rfl
      · rw [if_neg fun h => hR h.2]
        refine afterLastBreak_of_not_mem fun hm => hR ?_
        obtain ⟨c, rfl⟩ := List.length_eq_one_iff.1
          (Nat.le_antisymm hlen (List.length_pos_of_mem hm))
        rw [List.mem_singleton.1 hm]
    · rw [if_neg hl, if_neg fun h => hl h.1]
  · have hne : ¬ (l = some ';' ∧ R = ['\n']) := fun h => hlen (by rw [h.2]; decide)
    have hspace : afterLastBreak [' '] = [' '] := afterLastBreak_of_not_mem (by decide)
    rw [wideRule_of_wide hlen, if_neg hne, if_neg hlen, semicolonRule, hspace, ite_self]

theorem structured_eq_mapGaps (s : Text) :
    structured s = mapGaps sheetRule none none (Pattern.blockComment.delete s) := by
  have hopen : ∀ s, openBraces s = mapGaps (Pattern.gapRule (some '{') none 0 []) none none s :=
    fun s => Pattern.replace_gap (by simp [isBlank]) [] s
  have hclose : ∀ s, closeBraces s = mapGaps (Pattern.gapRule none (some '}') 0 []) none none s :=
    fun s => Pattern.replace_gap (by simp) [] s
  have hcolon : ∀ s, tightenColons s = mapGaps (Pattern.gapRule (some ':') none 0 []) none none s :=
    fun s => Pattern.replace_gap (by simp [isBlank]) [] s
  have hblank : ∀ {l r}, KeepsBlank (Pattern.gapRule l r 0 []) :=
    Pattern.keepsBlank_gapRule allBlank_nil
  rw [structured, deleteIndents_collapseWide, collapseWide_eq_mapGaps,
    deleteSemicolonBreaks_eq_mapGaps, hopen, hclose, hcolon, trim_eq_mapGaps,
    mapGaps_mapGaps hblank, mapGaps_mapGaps hblank, mapGaps_mapGaps hblank,
    mapGaps_mapGaps keepsBlank_semicolonRule, mapGaps_mapGaps keepsBlank_wideRule]
  refine mapGaps_congr (fun l R r _ => ?_) _
  simp only [thenGap, semicolonRule_wideRule, Pattern.gapRule_after, Pattern.gapRule_before,
    endRule, sheetRule, ite_or]

/-- A gap of which something is left. -/
theorem of_mem_sheetRule {l r : Option Char} {R : Text} {x : Char}
    (h : x ∈ sheetRule l R r) : l ≠ some '{' ∧ l ≠ some ':' ∧ r ≠ some '}' := by
  rw [sheetRule] at h
  split at h
  · cases h
  · next hne => exact ⟨fun hl => hne (by simp [hl]), fun hl => hne (by simp [hl]),
      fun hr => hne (by simp [hr])⟩

theorem length_sheetRule (l : Option Char) (R : Text) (r : Option Char) :
    (sheetRule l R r).length ≤ 1 := by
  rw [sheetRule]
  split_ifs with hempty hlen
  · exact Nat.zero_le 1
  · exact hlen
  · exact Nat.le_refl 1

theorem keepsBlank_sheetRule : KeepsBlank sheetRule := by
  intro l R r hR
  rw [sheetRule]
  split_ifs with hempty hlen
  · exact allBlank_nil
  · exact hR
  · exact allBlank_cons.2 ⟨by decide, allBlank_nil⟩

/-- Characters that the structured rules may leave side by side. -/
structure Beside (a b : Char) : Prop where
  not_both : isBlank a = false ∨ isBlank b = false
  not_after : isBlank b = true → a ≠ '{' ∧ a ≠ ':'
  not_before : isBlank a = true → b ≠ '}'

theorem beside_of_infix_mapGaps {s : Text} {a b : Char}
    (h : [a, b] <:+: mapGaps sheetRule none none s) : Beside a b := by
  refine rel_of_mapGaps length_sheetRule (fun a b ha hb => ?_) (fun a R r ha x hx => ?_)
    (fun l R b hb x hx => ?_) h
  · exact ⟨.inl ha, fun h => absurd h (by simp [hb]), fun h => absurd h (by simp [ha])⟩
  · obtain ⟨hbrace, hcolon, -⟩ := of_mem_sheetRule hx
    exact ⟨.inl ha, fun _ => ⟨fun h => hbrace (h ▸ rfl), fun h => hcolon (h ▸ rfl)⟩,
      fun h => absurd h (by simp [ha])⟩
  · obtain ⟨-, -, hbrace⟩ := of_mem_sheetRule hx
    exact ⟨.inr hb, fun h => absurd h (by simp [hb]), fun _ h => hbrace (h ▸ rfl)⟩

/-- The structured rules treat every gap by itself: those at the ends go, those after
an opening brace or a colon, those before a closing brace, and single line feeds after
a semicolon. Of the others those that are longer than one blank become a space. So no
blank is left beside another, after an opening brace or a colon or before a closing
brace, and all other characters stay. -/
theorem structured_gap_by_gap (s : Text) :
    structured s = mapGaps sheetRule none none (Pattern.blockComment.delete s) ∧
      (∀ a b, [a, b] <:+: structured s → Beside a b) ∧
      deleteBlanks (structured s) = deleteBlanks (Pattern.blockComment.delete s) := by
  rw [structured_eq_mapGaps]
  exact ⟨rfl, fun _ _ => beside_of_infix_mapGaps, deleteBlanks_mapGaps keepsBlank_sheetRule _⟩

example : structured " a: b;\n\n\tc :d;\ne\n".toList = "a:b; c :d;e".toList := by decide +kernel

end Stylesheet

end HtmlMinifier
