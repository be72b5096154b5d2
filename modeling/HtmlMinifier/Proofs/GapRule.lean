import HtmlMinifier.Text.Blank
import Mathlib.Data.List.TakeWhile

/-!
# Rules on gaps

Between two neighbouring characters of a text that are not blank there is a
gap, which may be empty, and there is one more at either end. A rule on gaps
looks at one gap at a time: at its blanks and at the characters on both sides
of it. `mapGaps` applies such a rule to every gap of a text.

The passes of the minifier that speak of blanks are all of this kind, however
their patterns are written, and that is what the detour buys: two of them in a
row are again one rule on gaps (`mapGaps_mapGaps`), so a whole pipeline of them
becomes one question about one run of blanks. A text can also be cut at any
character that is not blank (`mapGaps_append_cons`), so what a pass does inside
a part of a document it does there alone.
-/

namespace HtmlMinifier

/-- What becomes of the blanks between two characters; there is no character
on the far side of the first gap and of the last. -/
abbrev GapRule := Option Char → Text → Option Char → Text

namespace Text

def AllBlank (s : Text) : Prop := ∀ c ∈ s, isBlank c = true

instance : DecidablePred AllBlank := fun s =>
  List.decidableBAll (fun c => isBlank c = true) s

theorem allBlank_nil : AllBlank [] := fun _ h => absurd h List.not_mem_nil

theorem allBlank_cons {c : Char} {s : Text} :
    AllBlank (c :: s) ↔ isBlank c = true ∧ AllBlank s :=
  List.forall_mem_cons

theorem allBlank_append {s t : Text} :
    AllBlank (s ++ t) ↔ AllBlank s ∧ AllBlank t :=
  List.forall_mem_append

theorem AllBlank.not_mem {R : Text} {c : Char} (h : AllBlank R)
    (hc : isBlank c = false) : c ∉ R := by
  intro hm
  rw [h c hm] at hc
  cases hc

theorem AllBlank.suffix {R v : Text} (h : AllBlank R) (hv : v <:+ R) :
    AllBlank v :=
  fun c hc => h c (hv.subset hc)

theorem newline_ne {c : Char} (hc : isBlank c = false) : c ≠ '\n' := by
  intro h
  rw [h] at hc
  cases hc

theorem beq_newline {c : Char} (hc : isBlank c = false) : (c == '\n') = false :=
  beq_eq_false_iff_ne.2 (newline_ne hc)

theorem bne_newline_of_not_mem {s : Text} (h : '\n' ∉ s) :
    ∀ c ∈ s, (c != '\n') = true :=
  fun _ hc => bne_iff_ne.2 (ne_of_mem_of_not_mem hc h)

def Unbroken (w : Text) : Prop := ∀ c ∈ w, isBlank c = false

theorem unbroken_cons {c : Char} {w : Text} :
    Unbroken (c :: w) ↔ isBlank c = false ∧ Unbroken w :=
  List.forall_mem_cons

theorem allBlank_leadingBlanks (s : Text) : AllBlank s.leadingBlanks :=
  fun _ h => isBlank_of_mem_leadingBlanks h

theorem leadingBlanks_of_allBlank {R : Text} (h : AllBlank R) :
    R.leadingBlanks = R :=
  List.takeWhile_eq_self_iff.2 h

theorem trimStart_of_allBlank {R : Text} (h : AllBlank R) :
    R.trimStart = [] :=
  List.dropWhile_eq_nil_iff.2 h

theorem leadingBlanks_append_cons {R s : Text} {c : Char} (h : AllBlank R)
    (hc : isBlank c = false) : (R ++ c :: s).leadingBlanks = R := by
  rw [leadingBlanks, List.takeWhile_append_of_pos h, List.takeWhile_cons,
    if_neg (by simp [hc]), List.append_nil]

theorem trimStart_append {R s : Text} (h : AllBlank R) :
    Text.trimStart (R ++ s) = s.trimStart :=
  List.dropWhile_append_of_pos h

theorem leadingBlanks_append {R q : Text} (h : AllBlank R) (hq : q.trimStart = q) :
    Text.leadingBlanks (R ++ q) = R := by
  have hparts := leadingBlanks_append_trimStart (R ++ q)
  rw [trimStart_append h, hq] at hparts
  exact List.append_cancel_right hparts

theorem trimStart_cons {s : Text} {c : Char} (hc : isBlank c = false) :
    Text.trimStart (c :: s) = c :: s := by
  rw [trimStart, List.dropWhile_cons, if_neg (by simp [hc])]

theorem trimStart_append_cons {R s : Text} {c : Char} (h : AllBlank R)
    (hc : isBlank c = false) : (R ++ c :: s).trimStart = c :: s := by
  rw [trimStart_append h, trimStart_cons hc]

theorem gap_unique {R R' s s' : Text} {c c' : Char} (h : AllBlank R)
    (h' : AllBlank R') (hc : isBlank c = false) (hc' : isBlank c' = false)
    (e : R ++ c :: s = R' ++ c' :: s') : R = R' ∧ c = c' ∧ s = s' := by
  have hR := congrArg Text.leadingBlanks e
  rw [leadingBlanks_append_cons h hc, leadingBlanks_append_cons h' hc'] at hR
  subst hR
  have hs := List.append_cancel_left e
  injection hs with hcc hss
  exact ⟨rfl, hcc, hss⟩

theorem allBlank_or_exists (s : Text) :
    AllBlank s ∨ ∃ R c t, s = R ++ c :: t ∧ AllBlank R ∧ isBlank c = false := by
  have hs := s.leadingBlanks_append_trimStart
  cases ht : s.trimStart with
  | nil =>
      rw [ht, List.append_nil] at hs
      exact .inl (hs ▸ allBlank_leadingBlanks s)
  | cons c t =>
      rw [ht] at hs
      exact .inr ⟨_, c, t, hs.symm, allBlank_leadingBlanks s,
        isBlank_head_trimStart ht⟩

theorem gap_induction {motive : Text → Prop}
    (blanks : ∀ R, AllBlank R → motive R)
    (cons : ∀ R c s, AllBlank R → isBlank c = false → motive s →
      motive (R ++ c :: s))
    (s : Text) : motive s := by
  induction hn : s.length using Nat.strongRecOn generalizing s with
  | ind n ih =>
      rcases allBlank_or_exists s with h | ⟨R, c, t, rfl, hR, hc⟩
      · exact blanks s h
      · refine cons R c t hR hc (ih t.length ?_ t rfl)
        rw [← hn, List.length_append, List.length_cons]
        omega

/-- Applies a rule to the gaps of a text that goes on after the blanks in
`run`, the start of a gap. -/
def mapGapsFrom (f : GapRule) (left right : Option Char) (run : Text) :
    Text → Text
  | [] => f left run right
  | c :: s =>
    if isBlank c then mapGapsFrom f left right (run ++ [c]) s
    else f left run (some c) ++ c :: mapGapsFrom f (some c) right [] s

/-- Applies a rule to every gap of a text with the given characters before it
and after it. -/
def mapGaps (f : GapRule) (left right : Option Char) (s : Text) : Text :=
  mapGapsFrom f left right [] s

theorem mapGapsFrom_append {f : GapRule} {left right : Option Char} {R : Text}
    (h : AllBlank R) : ∀ {run s : Text},
    mapGapsFrom f left right run (R ++ s) =
      mapGapsFrom f left right (run ++ R) s := by
  induction R with
  | nil => intro run s; rw [List.nil_append, List.append_nil]
  | cons c R ih =>
      intro run s
      obtain ⟨hc, hR⟩ := allBlank_cons.1 h
      rw [List.cons_append, mapGapsFrom, if_pos hc, ih hR, List.append_assoc]
      rfl

variable {f g : GapRule} {left right : Option Char}

theorem mapGaps_blanks {R : Text} (h : AllBlank R) :
    mapGaps f left right R = f left R right := by
  have hrun : mapGapsFrom f left right [] (R ++ []) =
      mapGapsFrom f left right ([] ++ R) [] := mapGapsFrom_append h
  rw [List.append_nil] at hrun
  rw [mapGaps, hrun, mapGapsFrom, List.nil_append]

theorem mapGaps_gap {R s : Text} {c : Char} (h : AllBlank R)
    (hc : isBlank c = false) :
    mapGaps f left right (R ++ c :: s) =
      f left R (some c) ++ c :: mapGaps f (some c) right s := by
  rw [mapGaps, mapGapsFrom_append h, mapGapsFrom, if_neg (by simp [hc])]
  rfl

theorem mapGaps_nil : mapGaps f left right [] = f left [] right := rfl

theorem mapGaps_cons {s : Text} {c : Char} (hc : isBlank c = false) :
    mapGaps f left right (c :: s) =
      f left [] (some c) ++ c :: mapGaps f (some c) right s :=
  mapGaps_gap allBlank_nil hc

/-- A text is cut at a character that is not blank, and the parts are treated
apart. -/
theorem mapGaps_append_cons {c : Char} (hc : isBlank c = false) {v : Text} :
    ∀ (u : Text) {left : Option Char},
      mapGaps f left right (u ++ c :: v) =
        mapGaps f left (some c) u ++ c :: mapGaps f (some c) right v := by
  intro u
  induction u using gap_induction with
  | blanks R hR =>
      intro left
      rw [mapGaps_gap hR hc, mapGaps_blanks hR]
  | cons R d s hR hd ih =>
      intro left
      rw [List.append_assoc, List.cons_append, mapGaps_gap hR hd,
        mapGaps_gap hR hd, ih, List.append_assoc, List.cons_append]

/-- A stretch without blanks is passed by a rule that leaves empty gaps
empty. -/
theorem mapGaps_append_of_unbroken (hf : ∀ l r, f l [] r = []) {w : Text}
    (hne : w ≠ []) (hw : Unbroken w) (s : Text) :
    mapGaps f left right (w ++ s) = w ++ mapGaps f w.getLast? right s := by
  induction w generalizing left with
  | nil => exact absurd rfl hne
  | cons c w ih =>
      obtain ⟨hc, hw⟩ := unbroken_cons.1 hw
      rw [List.cons_append, mapGaps_cons hc, hf, List.nil_append]
      cases w with
      | nil => rfl
      | cons d w =>
          rw [ih (List.cons_ne_nil d w) hw, List.getLast?_cons_cons]
          rfl

theorem mapGaps_congr
    (h : ∀ left R right, AllBlank R → f left R right = g left R right)
    (s : Text) : ∀ {left right : Option Char},
    mapGaps f left right s = mapGaps g left right s := by
  induction s using gap_induction with
  | blanks R hR =>
      intro left right
      rw [mapGaps_blanks hR, mapGaps_blanks hR, h _ _ _ hR]
  | cons R c s hR hc ih =>
      intro left right
      rw [mapGaps_gap hR hc, mapGaps_gap hR hc, ih, h _ _ _ hR]

/-- A rule that does not look at neighbours has nothing to do with those of
the text. -/
theorem mapGaps_neighbours (h : ∀ l R r l' r', f l R r = f l' R r')
    (l r l' r' : Option Char) (s : Text) :
    mapGaps f l r s = mapGaps f l' r' s := by
  induction s using gap_induction generalizing l l' with
  | blanks R hR =>
      rw [mapGaps_blanks hR, mapGaps_blanks hR, h l R r l' r']
  | cons R c s hR hc ih =>
      rw [mapGaps_gap hR hc, mapGaps_gap hR hc, h l R _ l' (some c),
        ih (some c) (some c)]

/-- A rule after a rule that leaves blanks where it found blanks. -/
def thenGap (g f : GapRule) : GapRule :=
  fun left R right => f left (g left R right) right

/-- What the rule puts into a gap is blank. -/
def KeepsBlank (f : GapRule) : Prop :=
  ∀ left R right, AllBlank R → AllBlank (f left R right)

theorem keepsBlank_of_cases
    (h : ∀ left R right, f left R right = [] ∨ f left R right = R) :
    KeepsBlank f := by
  intro left R right hR
  rcases h left R right with h | h
  · rw [h]; exact allBlank_nil
  · rw [h]; exact hR

theorem KeepsBlank.thenGap (hg : KeepsBlank g) (hf : KeepsBlank f) :
    KeepsBlank (thenGap g f) :=
  fun _ _ _ hR => hf _ _ _ (hg _ _ _ hR)

theorem mapGaps_mapGaps (hg : KeepsBlank g) (s : Text) :
    ∀ {left right : Option Char},
      mapGaps f left right (mapGaps g left right s) =
        mapGaps (thenGap g f) left right s := by
  induction s using gap_induction with
  | blanks R hR =>
      intro left right
      rw [mapGaps_blanks hR, mapGaps_blanks (hg _ _ _ hR), mapGaps_blanks hR,
        thenGap]
  | cons R c s hR hc ih =>
      intro left right
      rw [mapGaps_gap hR hc, mapGaps_gap (hg _ _ _ hR) hc, ih,
        mapGaps_gap hR hc, thenGap]

/-- A rule that leaves every gap it has left as it is does nothing the second time. -/
theorem mapGaps_idem (hf : KeepsBlank f)
    (h : ∀ l R r, f l (f l R r) r = f l R r) (s : Text) :
    mapGaps f left right (mapGaps f left right s) = mapGaps f left right s := by
  rw [mapGaps_mapGaps hf]
  exact mapGaps_congr (fun l R r _ => h l R r) s

/-! ## What a treated text tells of the text -/

/-- A rule that puts only blanks into gaps adds no other character. -/
theorem mem_of_mem_mapGaps (hf : KeepsBlank f) {x : Char}
    (hx : isBlank x = false) (s : Text) : ∀ {left : Option Char},
    x ∈ mapGaps f left right s → x ∈ s := by
  induction s using gap_induction with
  | blanks R hR =>
      intro left h
      rw [mapGaps_blanks hR] at h
      exact absurd h ((hf _ _ _ hR).not_mem hx)
  | cons R c s hR hc ih =>
      intro left h
      rw [mapGaps_gap hR hc, List.mem_append, List.mem_cons] at h
      rw [List.mem_append, List.mem_cons]
      rcases h with h | h | h
      · exact absurd h ((hf _ _ _ hR).not_mem hx)
      · exact .inr (.inl h)
      · exact .inr (.inr (ih h))

theorem allBlank_of_mapGaps {s : Text} (h : AllBlank (mapGaps f left right s)) :
    AllBlank s := by
  rcases allBlank_or_exists s with hs | ⟨R, c, t, rfl, hR, hc⟩
  · exact hs
  · rw [mapGaps_gap hR hc] at h
    exact absurd (List.mem_append_right _ List.mem_cons_self) (h.not_mem hc)

/-- The text without its blanks. -/
def deleteBlanks (s : Text) : Text := s.filter fun c => !isBlank c

theorem deleteBlanks_of_allBlank {R : Text} (h : AllBlank R) : R.deleteBlanks = [] :=
  List.filter_eq_nil_iff.2 fun c hc => by simp [h c hc]

theorem deleteBlanks_append (s t : Text) :
    deleteBlanks (s ++ t) = s.deleteBlanks ++ t.deleteBlanks :=
  List.filter_append s t

theorem deleteBlanks_gap {R s : Text} {c : Char} (hR : AllBlank R)
    (hc : isBlank c = false) : deleteBlanks (R ++ c :: s) = c :: s.deleteBlanks := by
  rw [deleteBlanks_append, deleteBlanks_of_allBlank hR, List.nil_append, deleteBlanks,
    List.filter_cons_of_pos (by rw [hc]; rfl)]
  rfl

/-- A rule that puts only blanks into gaps takes only blanks away. -/
theorem deleteBlanks_mapGaps (hf : KeepsBlank f) (s : Text) : ∀ {left : Option Char},
    deleteBlanks (mapGaps f left right s) = s.deleteBlanks := by
  induction s using gap_induction with
  | blanks R hR =>
      intro left
      rw [mapGaps_blanks hR, deleteBlanks_of_allBlank (hf _ _ _ hR),
        deleteBlanks_of_allBlank hR]
  | cons R c s hR hc ih =>
      intro left
      rw [mapGaps_gap hR hc, deleteBlanks_gap (hf _ _ _ hR) hc, ih,
        deleteBlanks_gap hR hc]

/-- Where a treated text is cut at a character that is not blank, the text can
be cut. -/
theorem exists_of_mapGaps_eq (hf : KeepsBlank f) {c : Char} {V : Text}
    (hc : isBlank c = false) (s : Text) : ∀ {left : Option Char} {U : Text},
    mapGaps f left right s = U ++ c :: V →
    ∃ u v, s = u ++ c :: v ∧ mapGaps f left (some c) u = U ∧
      mapGaps f (some c) right v = V := by
  induction s using gap_induction with
  | blanks R hR =>
      intro left U e
      rw [mapGaps_blanks hR] at e
      have hblank := hf left R right hR
      rw [e] at hblank
      exact absurd (List.mem_append_right _ List.mem_cons_self)
        (hblank.not_mem hc)
  | cons R d s hR hd ih =>
      intro left U e
      rw [mapGaps_gap hR hd] at e
      rcases allBlank_or_exists U with hU | ⟨P, a, W, rfl, hP, ha⟩
      · obtain ⟨rfl, rfl, rfl⟩ := gap_unique (hf _ _ _ hR) hU hd hc e
        exact ⟨R, s, rfl, mapGaps_blanks hR, rfl⟩
      · rw [List.append_assoc, List.cons_append] at e
        obtain ⟨rfl, rfl, hs⟩ := gap_unique (hf _ _ _ hR) hP hd ha e
        obtain ⟨u, v, rfl, hu, hv⟩ := ih hs
        refine ⟨R ++ d :: u, v, by rw [List.append_assoc]; rfl, ?_, hv⟩
        rw [mapGaps_gap hR hd, hu]

/-- Two characters side by side in a treated text were so in the text, if the rule
empties no gap between them. -/
theorem exists_pair_of_mapGaps_eq (hf : KeepsBlank f) {a b : Char} {s U V : Text}
    (ha : isBlank a = false) (hb : isBlank b = false)
    (hjoin : ∀ R, f (some a) R (some b) = [] → R = [])
    (h : mapGaps f left right s = U ++ a :: b :: V) :
    ∃ u v, s = u ++ a :: b :: v ∧ mapGaps f left (some a) u = U ∧
      mapGaps f (some b) right v = V := by
  obtain ⟨u, t, rfl, hu, ht⟩ := exists_of_mapGaps_eq hf ha s h
  obtain ⟨Q, v, rfl, hQ, hv⟩ := exists_of_mapGaps_eq (U := []) hf hb t ht
  have hblank : AllBlank Q := allBlank_of_mapGaps (hQ ▸ allBlank_nil)
  rw [mapGaps_blanks hblank] at hQ
  obtain rfl := hjoin Q hQ
  exact ⟨u, v, rfl, hu, hv⟩

/-- Every gap between two characters of a treated text is what the rule made
of a gap between the same characters. -/
theorem exists_gap_of_mapGaps (hf : KeepsBlank f) {a b : Char} {R s u v : Text}
    (ha : isBlank a = false) (hb : isBlank b = false) (hR : AllBlank R)
    (h : mapGaps f left right s = u ++ a :: (R ++ b :: v)) :
    ∃ Q p q, AllBlank Q ∧ s = p ++ a :: (Q ++ b :: q) ∧
      R = f (some a) Q (some b) := by
  obtain ⟨p, t, rfl, -, ht⟩ := exists_of_mapGaps_eq hf ha s h
  obtain ⟨Q, q, rfl, hQ, -⟩ := exists_of_mapGaps_eq hf hb t ht
  have hblank : AllBlank Q := allBlank_of_mapGaps (hQ ▸ hR)
  rw [mapGaps_blanks hblank] at hQ
  exact ⟨Q, p, q, hblank, rfl, hQ.symm⟩

end Text

end HtmlMinifier
