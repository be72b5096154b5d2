import HtmlMinifier.Proofs.GapRule
import HtmlMinifier.Proofs.Search
import HtmlMinifier.Text.Gap

/-!
# Passes that are rules on gaps

A pattern that takes a run of blanks between given neighbours is searched for
from left to right, and an occurrence takes its neighbours with it. That the
search still treats every gap by itself needs two things: neighbours are not
blank, so a run is taken whole or not at all, and the left one is not the right
one, so no character is wanted by two occurrences.

`replace_gap` says it of all such patterns at once. The pattern without a left
neighbour is found at the first blank of a gap and the one with a left
neighbour before it, so the two are followed separately.
-/

namespace HtmlMinifier.Pattern

open Text

/-- A gap between the given neighbours is filled anew if it is long enough. -/
def gapRule (left right : Option Char) (least : Nat) (fill : Text) : GapRule :=
  fun l R r =>
    if (left = none ∨ l = left) ∧ (right = none ∨ r = right) ∧
        least ≤ R.length then fill
    else R

theorem keepsBlank_gapRule {left right : Option Char} {least : Nat} {fill : Text}
    (h : AllBlank fill) : KeepsBlank (gapRule left right least fill) := by
  intro l R r hR
  rw [gapRule]
  split
  · exact h
  · exact hR

theorem gapRule_nil {left right : Option Char} {least : Nat} {fill : Text}
    (h : 0 < least ∨ fill = []) (l r : Option Char) :
    gapRule left right least fill l [] r = [] := by
  rw [gapRule]
  split
  · next hlen =>
      rcases h with h | h
      · exact absurd hlen.2.2 (Nat.not_le_of_lt h)
      · exact h
  · rfl

theorem gapRule_after (a : Char) (l : Option Char) (R : Text) (r : Option Char) :
    gapRule (some a) none 0 [] l R r = if l = some a then [] else R := by
  simp [gapRule]

theorem gapRule_before (a : Char) (l : Option Char) (R : Text) (r : Option Char) :
    gapRule none (some a) 0 [] l R r = if r = some a then [] else R := by
  simp [gapRule]

theorem after?_isSome_iff {c : Option Char} {s : Text} :
    (s.after? c).isSome ↔ c = none ∨ s.head? = c := by
  fun_cases after? c s with
  | case1 s => simp
  | case2 => simp
  | case3 c s => simp
  | case4 c d s h => simp [h]

/-- What is read where the blanks of a gap start, or the left neighbour before
them. -/
theorem readGap?_append {left right : Option Char} {least : Nat} {R q : Text}
    (hR : AllBlank R) (hq : q.trimStart = q) :
    readGap? left right least (left.toList ++ (R ++ q)) =
      if (right = none ∨ q.head? = right) ∧ least ≤ R.length then
        some ⟨left.toList, R, right.toList⟩
      else none := by
  rw [readGap?, after?_eq_some_iff.2 rfl]
  simp only [leadingBlanks_append hR hq, trimStart_append hR, hq]
  by_cases hlen : least ≤ R.length
  · rw [if_pos hlen]
    cases ha : q.after? right with
    | none =>
        have : ¬ (right = none ∨ q.head? = right) := by
          rw [← after?_isSome_iff, ha]
          simp
        rw [if_neg fun h => this h.1]
    | some r =>
        have : right = none ∨ q.head? = right := by
          rw [← after?_isSome_iff, ha]
          rfl
        rw [if_pos ⟨this, hlen⟩]
  · rw [if_neg hlen, if_neg fun h => hlen h.2]

theorem readGap?_of_ne {a c : Char} {right : Option Char} {least : Nat}
    {s : Text} (h : c ≠ a) : readGap? (some a) right least (c :: s) = none := by
  rw [readGap?, after?, if_neg h]

theorem exists_gap_append (s : Text) :
    ∃ R q, s = R ++ q ∧ AllBlank R ∧ q.trimStart = q ∧
      (q = [] ∨ ∃ c t, q = c :: t ∧ isBlank c = false) := by
  rcases allBlank_or_exists s with h | ⟨R, c, t, rfl, hR, hc⟩
  · exact ⟨s, [], (List.append_nil s).symm, h, rfl, .inl rfl⟩
  · exact ⟨R, c :: t, rfl, hR, trimStart_cons hc, .inr ⟨c, t, rfl, hc⟩⟩

/-- What a rule makes of a text after its first gap. -/
def mapRest (f : GapRule) : Text → Text
  | [] => []
  | c :: t => c :: mapGaps f (some c) none t

theorem mapGaps_append_rest {f : GapRule} {l : Option Char} {R q : Text}
    (hR : AllBlank R) (hq : q = [] ∨ ∃ c t, q = c :: t ∧ isBlank c = false) :
    mapGaps f l none (R ++ q) = f l R q.head? ++ mapRest f q := by
  rcases hq with rfl | ⟨c, t, rfl, hc⟩
  · rw [List.append_nil R, mapGaps_blanks hR, mapRest, List.append_nil]
    rfl
  · rw [mapGaps_gap hR hc]
    rfl

section Open

variable {right : Option Char} {least : Nat} {fill : Text}
  {h₀ : 0 < least ∨ (none : Option Char).isSome ∨ right.isSome}

theorem readGap?_open {R q : Text} (hR : AllBlank R) (hq : q.trimStart = q) :
    readGap? none right least (R ++ q) =
      if (right = none ∨ q.head? = right) ∧ least ≤ R.length then
        some ⟨[], R, right.toList⟩
      else none :=
  @readGap?_append none right least R q hR hq

/-- Nothing is read inside a gap that is not wanted, and nothing after it. -/
theorem readGap?_open_of_not {R q v : Text} (hR : AllBlank R)
    (hq : q.trimStart = q) (hv : v <:+ R)
    (h : ¬ ((right = none ∨ q.head? = right) ∧ least ≤ R.length)) :
    readGap? none right least (v ++ q) = none := by
  have hblank := hR.suffix hv
  have hlen := hv.length_le
  rw [readGap?_open hblank hq, if_neg]
  rintro ⟨hr, hle⟩
  exact h ⟨hr, Nat.le_trans hle hlen⟩

theorem replaceFrom_gap_open (s : Text) : ∀ {b : Bool} {l : Option Char},
    (gap none right least h₀).replaceFrom (fun _ => fill ++ right.toList) b s =
      mapGaps (gapRule none right least fill) l none s := by
  induction hn : s.length using Nat.strongRecOn generalizing s with
  | ind n ih =>
      intro b l
      obtain ⟨R, q, rfl, hR, hq, hhead⟩ := exists_gap_append s
      rw [List.length_append] at hn
      have hplain : ∀ b, readGap? none right least q = none →
          (gap none right least h₀).replaceFrom
            (fun _ => fill ++ right.toList) b q =
          mapRest (gapRule none right least fill) q := by
        intro b hnone
        rcases hhead with rfl | ⟨c, t, rfl, hc⟩
        · rfl
        · rw [List.length_cons] at hn
          rw [replaceFrom_plain hnone, ih t.length (by omega) t rfl]
          rfl
      rw [mapGaps_append_rest hR hhead, gapRule]
      by_cases hw : (right = none ∨ q.head? = right) ∧ least ≤ R.length
      · have hread := @readGap?_open right least R q hR hq
        rw [if_pos hw] at hread
        rw [if_pos ⟨.inl rfl, hw⟩]
        cases right with
        | none =>
            have hpos : 0 < least := by simpa using h₀
            have hnone : readGap? none none least q = none := by
              rw [← List.nil_append q, readGap?_open allBlank_nil hq, if_neg]
              rintro ⟨-, hle⟩
              rw [List.length_nil] at hle
              omega
            rw [replaceFrom_hit_eq rfl (by simp [Occurrence.text]) hread,
              hplain _ hnone]
            simp
        | some d =>
            rcases hhead with rfl | ⟨c, t, rfl, hc⟩
            · simp at hw
            · obtain rfl : c = d := by simpa using hw.1
              rw [List.length_cons] at hn
              rw [replaceFrom_hit_eq (t := R ++ [c]) (r := t) (by simp)
                  (by simp [Occurrence.text]) hread,
                ih t.length (by omega) t rfl (l := some c), mapRest]
              simp
      · have hnone : ∀ v, v <:+ R → readGap? none right least (v ++ q) = none :=
          fun v hv => readGap?_open_of_not hR hq hv hw
        rw [if_neg fun h => hw h.2, replaceFrom_append_of_suffix,
          hplain _ (hnone [] List.nil_suffix)]
        exact fun _ c v hv => hnone (c :: v) hv

end Open

section Closed

variable {a : Char} {right : Option Char} {least : Nat} {fill : Text}
  {h₀ : 0 < least ∨ (some a).isSome ∨ right.isSome}

theorem replaceFrom_gap_blanks (ha : isBlank a = false) {f : Occurrence → Text}
    {b : Bool} {R q : Text} (hR : AllBlank R) :
    (gap (some a) right least h₀).replaceFrom f b (R ++ q) =
      R ++ (gap (some a) right least h₀).replaceFrom f (lineStartAfter b R) q := by
  refine replaceFrom_append_of_suffix fun b c v hv => readGap?_of_ne ?_
  rintro rfl
  exact hR.not_mem ha (hv.subset List.mem_cons_self)

theorem replaceFrom_gap_closed (ha : isBlank a = false) (hne : right ≠ some a)
    (q : Text) (hq : q = [] ∨ ∃ c t, q = c :: t ∧ isBlank c = false) :
    ∀ {b : Bool},
      (gap (some a) right least h₀).replaceFrom
          (fun _ => a :: fill ++ right.toList) b q =
        mapRest (gapRule (some a) right least fill) q := by
  induction hn : q.length using Nat.strongRecOn generalizing q with
  | ind n ih =>
      intro b
      have hskip : ∀ t, t.length < n → ∀ b l, l ≠ some a →
          (gap (some a) right least h₀).replaceFrom
              (fun _ => a :: fill ++ right.toList) b t =
            mapGaps (gapRule (some a) right least fill) l none t := by
        intro t ht b l hl
        obtain ⟨R, q, rfl, hR, -, hq⟩ := exists_gap_append t
        rw [List.length_append] at ht
        rw [replaceFrom_gap_blanks ha hR, mapGaps_append_rest hR hq, gapRule,
          if_neg (by simp [hl]), ih q.length (by omega) q hq rfl]
      rcases hq with rfl | ⟨c, t, rfl, hc⟩
      · rfl
      · rw [List.length_cons] at hn
        by_cases hca : c = a
        · subst hca
          obtain ⟨R, q, rfl, hR, hq, hhead⟩ := exists_gap_append t
          have hread := @readGap?_append (some c) right least R q hR hq
          rw [Option.toList_some, List.singleton_append] at hread
          rw [List.length_append] at hn
          rw [mapRest, mapGaps_append_rest hR hhead, gapRule]
          by_cases hw : (right = none ∨ q.head? = right) ∧ least ≤ R.length
          · rw [if_pos hw] at hread
            rw [if_pos ⟨.inr rfl, hw⟩]
            cases right with
            | none =>
                rw [replaceFrom_hit_eq (s := c :: (R ++ q)) (t := c :: R) (r := q) rfl
                    (by simp [Occurrence.text]) hread,
                  ih q.length (by omega) q hhead rfl]
                simp
            | some d =>
                rcases hhead with rfl | ⟨e, t, rfl, he⟩
                · simp at hw
                · obtain rfl : e = d := by simpa using hw.1
                  rw [List.length_cons] at hn
                  rw [replaceFrom_hit_eq (t := c :: R ++ [e]) (r := t) (by simp)
                      (by simp [Occurrence.text]) hread,
                    hskip t (by omega) _ (some e) hne, mapRest]
                  simp
          · rw [if_neg hw] at hread
            rw [if_neg fun h => hw h.2, replaceFrom_plain hread,
              replaceFrom_gap_blanks hc hR,
              ih q.length (by omega) q hhead rfl]
        · rw [replaceFrom_plain (readGap?_of_ne hca),
            hskip t (by omega) _ (some c) (by simpa using hca)]
          rfl

end Closed

theorem replace_gap {left right : Option Char} {least : Nat}
    {h₀ : 0 < least ∨ left.isSome ∨ right.isSome}
    (hl : ∀ a, left = some a → isBlank a = false ∧ right ≠ some a)
    (fill s : Text) :
    (gap left right least h₀).replace (left.toList ++ fill ++ right.toList) s =
      mapGaps (gapRule left right least fill) none none s := by
  cases left with
  | none => exact replaceFrom_gap_open s
  | some a =>
      obtain ⟨ha, hne⟩ := hl a rfl
      obtain ⟨R, q, rfl, hR, -, hq⟩ := exists_gap_append s
      rw [mapGaps_append_rest hR hq, gapRule, if_neg (by simp), replace,
        replaceWith_eq, replaceFrom_gap_blanks ha hR]
      exact congrArg (R ++ ·) (replaceFrom_gap_closed ha hne q hq)

end HtmlMinifier.Pattern

namespace HtmlMinifier.Text

/-! ## Flattening and trimming

Flattening is the pattern with no neighbours at all. Trimming is no pattern,
but it is a rule on gaps all the same: it empties the first and the last. -/

/-- A gap that is not empty becomes one space. -/
def flatRule : GapRule := Pattern.gapRule none none 1 [' ']

theorem flattenBlanks_eq_mapGaps (s : Text) :
    s.flattenBlanks = mapGaps flatRule none none s :=
  @Pattern.replace_gap none none 1 (.inl Nat.one_pos) (by simp) [' '] s

theorem flatRule_nil (l r : Option Char) : flatRule l [] r = [] := rfl

theorem flatRule_of_ne_nil {l r : Option Char} {R : Text} (h : R ≠ []) :
    flatRule l R r = [' '] :=
  if_pos ⟨.inl rfl, .inl rfl, List.length_pos_iff.2 h⟩

theorem flatRule_eq (l : Option Char) (R : Text) (r : Option Char) :
    flatRule l R r = if R = [] then [] else [' '] := by
  by_cases h : R = []
  · rw [h, flatRule_nil, if_pos rfl]
  · rw [flatRule_of_ne_nil h, if_neg h]

theorem keepsBlank_flatRule : KeepsBlank flatRule := by
  intro l R r hR
  by_cases h : R = []
  · rw [h, flatRule_nil]; exact allBlank_nil
  · rw [flatRule_of_ne_nil h]; exact allBlank_cons.2 ⟨by decide, allBlank_nil⟩

/-- The gaps at the two ends of a text are emptied. -/
def endRule : GapRule := fun l R r => if l = none ∨ r = none then [] else R

theorem endRule_nil (l r : Option Char) : endRule l [] r = [] := by
  rw [endRule, ite_self]

theorem keepsBlank_endRule : KeepsBlank endRule := by
  refine keepsBlank_of_cases fun l R r => ?_
  rw [endRule]
  split
  · exact .inl rfl
  · exact .inr rfl

theorem trimEnd_of_allBlank {R : Text} (h : AllBlank R) : R.trimEnd = [] := by
  have hR : AllBlank R.reverse := fun c hc => h c (List.mem_reverse.1 hc)
  rw [← List.reverse_eq_nil_iff, reverse_trimEnd, trimStart_of_allBlank hR]

theorem trimEnd_append_cons {u v : Text} {c : Char} (hc : isBlank c = false) :
    Text.trimEnd (u ++ c :: v) = u ++ c :: v.trimEnd := by
  rw [← List.reverse_inj, reverse_trimEnd]
  simp only [List.reverse_append, List.reverse_cons, List.append_assoc,
    reverse_trimEnd]
  have hstop : ([c] ++ u.reverse).dropWhile isBlank = [c] ++ u.reverse := by
    rw [List.singleton_append, List.dropWhile_cons, if_neg (by simp [hc])]
  rw [trimStart, List.dropWhile_append, hstop]
  split
  · next h => rw [trimStart, List.isEmpty_iff.1 h, List.nil_append]
  · next h => rfl

theorem trimStart_append_nonblank {u v : Text} {c : Char} (hc : isBlank c = false) :
    Text.trimStart (u ++ c :: v) = u.trimStart ++ c :: v := by
  rcases allBlank_or_exists u with h | ⟨R, d, t, rfl, hR, hd⟩
  · rw [trimStart_append_cons h hc, trimStart_of_allBlank h, List.nil_append]
  · rw [List.append_assoc, List.cons_append, trimStart_append_cons hR hd,
      trimStart_append_cons hR hd, List.cons_append]

theorem mapGaps_endRule (s : Text) : ∀ {c : Char},
    mapGaps endRule (some c) none s = s.trimEnd := by
  induction s using gap_induction with
  | blanks R hR =>
      intro c
      rw [mapGaps_blanks hR, endRule, if_pos (.inr rfl), trimEnd_of_allBlank hR]
  | cons R d s hR hd ih =>
      intro c
      rw [mapGaps_gap hR hd, endRule, if_neg (by simp), ih,
        trimEnd_append_cons hd]

theorem trim_of_allBlank {R : Text} (h : AllBlank R) : R.trim = [] := by
  rw [trim, trimEnd_of_allBlank h]
  rfl

theorem trim_append_cons {R t : Text} {c : Char} (hR : AllBlank R)
    (hc : isBlank c = false) : Text.trim (R ++ c :: t) = c :: t.trimEnd := by
  rw [trim, trimEnd_append_cons hc, trimStart_append_cons hR hc]

theorem trim_cons {t : Text} {c : Char} (hc : isBlank c = false) :
    Text.trim (c :: t) = c :: t.trimEnd :=
  trim_append_cons allBlank_nil hc

theorem trim_blank_cons {t : Text} {c : Char} (hc : isBlank c = true) :
    Text.trim (c :: t) = t.trim := by
  rcases allBlank_or_exists t with h | ⟨R, d, s, rfl, hR, hd⟩
  · rw [trim_of_allBlank (allBlank_cons.2 ⟨hc, h⟩), trim_of_allBlank h]
  · rw [← List.cons_append, trim_append_cons (allBlank_cons.2 ⟨hc, hR⟩) hd,
      trim_append_cons hR hd]

theorem trim_eq_mapGaps (s : Text) :
    s.trim = mapGaps endRule none none s := by
  rcases allBlank_or_exists s with h | ⟨R, c, t, rfl, hR, hc⟩
  · rw [trim_of_allBlank h, mapGaps_blanks h]
    rfl
  · rw [trim_append_cons hR hc, mapGaps_gap hR hc, mapGaps_endRule]
    rfl

theorem not_mem_trim {x : Char} {s : Text} (hx : isBlank x = false)
    (h : x ∉ s) : x ∉ s.trim := by
  rw [trim_eq_mapGaps]
  exact fun hm => h (mem_of_mem_mapGaps keepsBlank_endRule hx s hm)

/-- Blanks at the start of a text do not reach a rule that empties its first gap. -/
theorem mapGaps_blanks_append {f : GapRule} (hf : ∀ R r, f none R r = []) {R : Text}
    (hR : AllBlank R) (s : Text) (r : Option Char) :
    mapGaps f none r (R ++ s) = mapGaps f none r s := by
  rcases allBlank_or_exists s with h | ⟨Q, c, t, rfl, hQ, hc⟩
  · rw [mapGaps_blanks (allBlank_append.2 ⟨hR, h⟩), mapGaps_blanks h, hf, hf]
  · rw [← List.append_assoc, mapGaps_gap (allBlank_append.2 ⟨hR, hQ⟩) hc,
      mapGaps_gap hQ hc, hf, hf]

/-- What stands around a trimmed text does not reach a rule that leaves empty
gaps empty. -/
theorem mapGaps_trim {f : GapRule} (hf : ∀ l r, f l [] r = []) (s : Text)
    (l r l' r' : Option Char) :
    mapGaps f l r s.trim = mapGaps f l' r' s.trim := by
  have hend : ∀ (t : Text) {c : Char},
      mapGaps f (some c) r t.trimEnd = mapGaps f (some c) r' t.trimEnd := by
    intro t
    induction t using gap_induction with
    | blanks R hR =>
        intro c
        rw [trimEnd_of_allBlank hR, mapGaps_nil, mapGaps_nil, hf, hf]
    | cons R d t hR hd ih =>
        intro c
        rw [trimEnd_append_cons hd, mapGaps_gap hR hd, mapGaps_gap hR hd, ih]
  rcases allBlank_or_exists s with h | ⟨R, c, t, rfl, hR, hc⟩
  · rw [trim_of_allBlank h, mapGaps_nil, mapGaps_nil, hf, hf]
  · rw [trim_append_cons hR hc, mapGaps_cons hc, mapGaps_cons hc, hf, hf, hend]

end HtmlMinifier.Text
