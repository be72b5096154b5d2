import HtmlMinifier.Proofs.GapPass
import HtmlMinifier.Text.Line
import Mathlib.Data.List.Basic

/-!
# Line edges, gap by gap

The line edge is one pattern with two arms, and a run of blanks may be hit by
both: first up to its last line feed, then, if a line starts where that match
stopped, all the way. Followed through, this is a rule on gaps after all. The
first and the last gap go. An inner gap without a line feed stays as it is. Any
other keeps one line feed and nothing else, unless a line feed stands directly
before its last one: then the second arm is met at the start of a line and
takes the rest, and nothing of the gap is left.

`Unpadded` says the same without the rule, gap by gap, as a relation between a
text and what is left of it (`Pattern.delete_lineEdge_eq_iff`).
-/

namespace HtmlMinifier.Text

theorem beforeLastBreak?_of_not_mem {s : Text} (h : '\n' ∉ s) :
    s.beforeLastBreak? = none := by
  cases hs : s.beforeLastBreak? with
  | none => rfl
  | some t =>
      obtain ⟨r, rfl, -⟩ := append_of_beforeLastBreak? hs
      simp at h

theorem beforeLastBreak?_append {w u : Text} (h : '\n' ∉ u) :
    Text.beforeLastBreak? (w ++ '\n' :: u) = some w := by
  have hpass : ∀ c ∈ u.reverse, (c != '\n') = true :=
    bne_newline_of_not_mem fun hu => h (List.mem_reverse.1 hu)
  rw [beforeLastBreak?, List.reverse_append, List.reverse_cons,
    List.append_assoc, List.dropWhile_append_of_pos hpass]
  simp

theorem exists_last_break {s : Text} (h : '\n' ∈ s) :
    ∃ w u, s = w ++ '\n' :: u ∧ '\n' ∉ u := by
  cases hs : s.beforeLastBreak? with
  | none =>
      rw [beforeLastBreak?] at hs
      split at hs
      · next hd =>
          have := List.dropWhile_eq_nil_iff.1 hd '\n' (List.mem_reverse.2 h)
          simp at this
      · next => cases hs
  | some w =>
      obtain ⟨u, hu, hn⟩ := append_of_beforeLastBreak? hs
      exact ⟨w, u, hu.symm, hn⟩

/-- What the padding of lines leaves of a gap. -/
def lineRule : GapRule := fun l R r =>
  if l = none ∨ r = none then []
  else match R.beforeLastBreak? with
    | none => R
    | some w => if w.getLast? = some '\n' then [] else ['\n']

theorem lineRule_end {l r : Option Char} {R : Text} (h : l = none ∨ r = none) :
    lineRule l R r = [] :=
  if_pos h

theorem lineRule_of_not_mem {a b : Char} {R : Text} (h : '\n' ∉ R) :
    lineRule (some a) R (some b) = R := by
  rw [lineRule, if_neg (by simp), beforeLastBreak?_of_not_mem h]

theorem lineRule_append {a b : Char} {w u : Text} (h : '\n' ∉ u) :
    lineRule (some a) (w ++ '\n' :: u) (some b) =
      if w.getLast? = some '\n' then [] else ['\n'] := by
  rw [lineRule, if_neg (by simp), beforeLastBreak?_append h]

/-- A gap between two characters is left as it is, or it becomes one line feed
or nothing. -/
theorem lineRule_inner (a b : Char) (R : Text) :
    lineRule (some a) R (some b) = R ∧ '\n' ∉ R ∨
      lineRule (some a) R (some b) = ['\n'] ∨
      lineRule (some a) R (some b) = [] := by
  by_cases h : '\n' ∈ R
  · obtain ⟨w, u, rfl, hu⟩ := exists_last_break h
    rw [lineRule_append hu]
    split
    · exact .inr (.inr rfl)
    · exact .inr (.inl rfl)
  · exact .inl ⟨lineRule_of_not_mem h, h⟩

theorem lineRule_nil (l r : Option Char) : lineRule l [] r = [] := by
  rw [lineRule]
  split <;> rfl

theorem keepsBlank_lineRule : KeepsBlank lineRule := by
  intro l R r hR
  cases l with
  | none => rw [lineRule_end (.inl rfl)]; exact allBlank_nil
  | some a =>
      cases r with
      | none => rw [lineRule_end (.inr rfl)]; exact allBlank_nil
      | some b =>
          rcases lineRule_inner a b R with ⟨h, -⟩ | h | h
          · rw [h]; exact hR
          · rw [h]; exact allBlank_cons.2 ⟨by decide, allBlank_nil⟩
          · rw [h]; exact allBlank_nil

end HtmlMinifier.Text

namespace HtmlMinifier.Pattern

open Text

/-! ## The search for line edges

From here on `q` is a text that goes on with a character that is not blank,
so a gap `R` before it ends where `q` starts. -/

variable {R q : Text} {c : Char}

theorem readLineEdge?_gap {b : Bool} (hR : AllBlank R)
    (hc : isBlank c = false) :
    readLineEdge? b (R ++ c :: q) =
      if b = true then some R else R.beforeLastBreak? := by
  rw [readLineEdge?, trimStart_append_cons hR hc,
    leadingBlanks_append_cons hR hc]
  cases b <;> rfl

theorem read?_lineEdge_of_not_mem (hR : AllBlank R) (hc : isBlank c = false)
    (h : '\n' ∉ R) : lineEdge.read? false (R ++ c :: q) = none := by
  simp only [lineEdge]
  rw [readLineEdge?_gap hR hc, if_neg (by simp), beforeLastBreak?_of_not_mem h]

theorem read?_lineEdge_cons {b : Bool} (hc : isBlank c = false) :
    lineEdge.read? b (c :: q) = none := by
  have h := readLineEdge?_gap (b := b) (R := []) (q := q) allBlank_nil hc
  simp only [lineEdge]
  rw [List.nil_append] at h
  rw [h]
  cases b <;> rfl

variable {f : Occurrence → Text}

/-- Which line a character that is not blank stands on makes no difference. -/
theorem replaceFrom_lineEdge_cons {b : Bool} (hc : isBlank c = false) :
    lineEdge.replaceFrom f b (c :: q) =
      c :: lineEdge.replaceFrom f (c == '\n') q :=
  replaceFrom_plain (read?_lineEdge_cons hc)

theorem replaceFrom_lineEdge_hit {b : Bool} {t : Text} (ht : t ≠ [])
    (h : readLineEdge? b (t ++ q) = some t) :
    lineEdge.replaceFrom (fun _ => []) b (t ++ q) =
      lineEdge.replaceFrom (fun _ => []) (lineStartAfter b t) q := by
  have hread : lineEdge.read? b (t ++ q) = some ⟨[], t, []⟩ := by
    simp only [lineEdge]
    rw [h]
    cases t with
    | nil => exact absurd rfl ht
    | cons c t => rfl
  rw [replaceFrom_hit_eq rfl (by simp [Occurrence.text]) hread, List.nil_append]

/-- At the start of a line the whole gap goes. -/
theorem replaceFrom_lineEdge_start (hR : AllBlank R) (hc : isBlank c = false) :
    lineEdge.replaceFrom (fun _ => []) true (R ++ c :: q) =
      c :: lineEdge.replaceFrom (fun _ => []) (c == '\n') q := by
  by_cases h : R = []
  · subst h
    exact replaceFrom_lineEdge_cons hc
  · rw [replaceFrom_lineEdge_hit h, replaceFrom_lineEdge_cons hc]
    rw [readLineEdge?_gap hR hc, if_pos rfl]

/-- The last line feed of a gap stays if no line starts before it. -/
theorem replaceFrom_lineEdge_break (hR : AllBlank R) (hc : isBlank c = false)
    (h : '\n' ∉ R) :
    lineEdge.replaceFrom (fun _ => []) false ('\n' :: R ++ c :: q) =
      '\n' :: c :: lineEdge.replaceFrom (fun _ => []) (c == '\n') q := by
  have hR' : AllBlank ('\n' :: R) := allBlank_cons.2 ⟨by decide, hR⟩
  have hread : lineEdge.read? false ('\n' :: (R ++ c :: q)) = none := by
    simp only [lineEdge]
    rw [← List.cons_append, readLineEdge?_gap hR' hc, if_neg (by simp),
      ← List.nil_append ('\n' :: R), beforeLastBreak?_append h]
  rw [List.cons_append, replaceFrom_plain hread]
  exact congrArg ('\n' :: ·) (replaceFrom_lineEdge_start hR hc)

/-- An inner gap: what is left of it is what the rule leaves. -/
theorem replaceFrom_lineEdge_inner {a : Char} (hR : AllBlank R)
    (hc : isBlank c = false) :
    lineEdge.replaceFrom (fun _ => []) false (R ++ c :: q) =
      lineRule (some a) R (some c) ++
        c :: lineEdge.replaceFrom (fun _ => []) (c == '\n') q := by
  by_cases h : '\n' ∈ R
  · obtain ⟨w, u, rfl, hu⟩ := exists_last_break h
    obtain ⟨hw, hu'⟩ := allBlank_append.1 hR
    rw [lineRule_append hu]
    rcases List.eq_nil_or_concat' w with rfl | ⟨v, d, rfl⟩
    · exact replaceFrom_lineEdge_break (allBlank_cons.1 hu').2 hc hu
    · -- The second arm takes what stands before the last line feed.
      rw [List.append_assoc, replaceFrom_lineEdge_hit (by simp),
        lineStartAfter_append, lineStartAfter_cons, lineStartAfter_nil,
        List.getLast?_append, List.getLast?_singleton]
      · by_cases hd : d = '\n'
        · subst hd
          rw [if_pos (by rfl), beq_self_eq_true,
            replaceFrom_lineEdge_start hu' hc]
          rfl
        · rw [if_neg (by simpa using hd), beq_eq_false_iff_ne.2 hd,
            replaceFrom_lineEdge_break (allBlank_cons.1 hu').2 hc hu]
          rfl
      · rw [← List.append_assoc, readLineEdge?_gap hR hc, if_neg (by simp),
          beforeLastBreak?_append hu]
  · rw [lineRule_of_not_mem h, replaceFrom_append]
    · rw [replaceFrom_lineEdge_cons hc]
    · intro u d v hv
      have hsub : d :: v <:+ R := ⟨u, hv⟩
      have hu : '\n' ∉ u := fun hm => h (by rw [← hv]; simp [hm])
      rw [lineStartAfter_of_not_mem hu]
      exact read?_lineEdge_of_not_mem (hR.suffix hsub) hc
        fun hm => h (hsub.subset hm)

theorem replaceFrom_lineEdge_end {b : Bool} (hR : AllBlank R) :
    lineEdge.replaceFrom (fun _ => []) b R = [] := by
  by_cases h : R = []
  · subst h; rfl
  · have hread : readLineEdge? b (R ++ []) = some R := by
      rw [List.append_nil R, readLineEdge?, trimStart_of_allBlank hR,
        leadingBlanks_of_allBlank hR]
      cases b <;> rfl
    have hhit := replaceFrom_lineEdge_hit h hread
    rw [List.append_nil R] at hhit
    exact hhit

theorem replaceFrom_lineEdge (s : Text) : ∀ {a : Char},
    lineEdge.replaceFrom (fun _ => []) false s =
      mapGaps lineRule (some a) none s := by
  induction s using gap_induction with
  | blanks R hR =>
      intro a
      rw [replaceFrom_lineEdge_end hR, mapGaps_blanks hR,
        lineRule_end (.inr rfl)]
  | cons R c s hR hc ih =>
      intro a
      rw [replaceFrom_lineEdge_inner hR hc, beq_newline hc, ih,
        mapGaps_gap hR hc]

theorem delete_lineEdge (s : Text) :
    lineEdge.delete s = mapGaps lineRule none none s := by
  rw [delete, replace, replaceWith_eq]
  rcases allBlank_or_exists s with h | ⟨R, c, t, rfl, hR, hc⟩
  · rw [replaceFrom_lineEdge_end h, mapGaps_blanks h, lineRule_end (.inl rfl)]
  · rw [replaceFrom_lineEdge_start hR hc, beq_newline hc,
      replaceFrom_lineEdge, mapGaps_gap hR hc, lineRule_end (.inl rfl)]
    rfl

/-! ## What is left

The same, said without a rule: a text and what is left of it are followed from
one gap to the next. -/

/-- What is left of a text behind the character `l`, or of a whole text if
there is none. A gap that starts or ends the whole text goes. Another one stays
if it has no line feed, and else becomes the last of its line feeds, or goes if
there is one more directly before that. -/
inductive Unpadded : (l : Option Char) → Text → Text → Prop
  | last {l R} (hR : AllBlank R) : Unpadded l R []
  | first {R c s t} (hR : AllBlank R) (hc : isBlank c = false)
      (h : Unpadded (some c) s t) : Unpadded none (R ++ c :: s) (c :: t)
  | kept {a R c s t} (hR : AllBlank R) (hn : '\n' ∉ R) (hc : isBlank c = false)
      (h : Unpadded (some c) s t) : Unpadded (some a) (R ++ c :: s) (R ++ c :: t)
  | broken {a w u c s t} (hR : AllBlank (w ++ '\n' :: u)) (hu : '\n' ∉ u)
      (hw : w.getLast? ≠ some '\n') (hc : isBlank c = false)
      (h : Unpadded (some c) s t) :
      Unpadded (some a) (w ++ '\n' :: u ++ c :: s) ('\n' :: c :: t)
  | glued {a w u c s t} (hR : AllBlank (w ++ '\n' :: u)) (hu : '\n' ∉ u)
      (hw : w.getLast? = some '\n') (hc : isBlank c = false)
      (h : Unpadded (some c) s t) :
      Unpadded (some a) (w ++ '\n' :: u ++ c :: s) (c :: t)

theorem Unpadded.eq_mapGaps {l : Option Char} {s t : Text}
    (h : Unpadded l s t) : mapGaps lineRule l none s = t := by
  induction h with
  | last hR => rw [mapGaps_blanks hR, lineRule_end (.inr rfl)]
  | first hR hc _ ih =>
      rw [mapGaps_gap hR hc, lineRule_end (.inl rfl), ih]
      rfl
  | kept hR hn hc _ ih => rw [mapGaps_gap hR hc, lineRule_of_not_mem hn, ih]
  | broken hR hu hw hc _ ih =>
      rw [mapGaps_gap hR hc, lineRule_append hu, if_neg hw, ih]
      rfl
  | glued hR hu hw hc _ ih =>
      rw [mapGaps_gap hR hc, lineRule_append hu, if_pos hw, ih]
      rfl

theorem unpadded_mapGaps (s : Text) : ∀ {l : Option Char},
    Unpadded l s (mapGaps lineRule l none s) := by
  induction s using gap_induction with
  | blanks R hR =>
      intro l
      rw [mapGaps_blanks hR, lineRule_end (.inr rfl)]
      exact .last hR
  | cons R c s hR hc ih =>
      intro l
      rw [mapGaps_gap hR hc]
      cases l with
      | none =>
          rw [lineRule_end (.inl rfl)]
          exact .first hR hc ih
      | some a =>
          by_cases h : '\n' ∈ R
          · obtain ⟨w, u, rfl, hu⟩ := exists_last_break h
            rw [lineRule_append hu]
            by_cases hw : w.getLast? = some '\n'
            · rw [if_pos hw]
              exact .glued hR hu hw hc ih
            · rw [if_neg hw]
              exact .broken hR hu hw hc ih
          · rw [lineRule_of_not_mem h]
            exact .kept hR h hc ih

/-- Deleting line edges treats every gap by itself, as `Unpadded` says. -/
theorem delete_lineEdge_eq_iff {s t : Text} :
    lineEdge.delete s = t ↔ Unpadded none s t := by
  rw [delete_lineEdge]
  constructor
  · intro h
    rw [← h]
    exact unpadded_mapGaps s
  · intro h
    exact h.eq_mapGaps

end HtmlMinifier.Pattern
