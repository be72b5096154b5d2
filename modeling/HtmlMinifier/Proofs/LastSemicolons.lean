import HtmlMinifier.Proofs.AggressiveContent

/-!
# The last semicolon of a block

The aggressive rules for style sheets drop the semicolon before a closing brace, and
they do so on a text that still has its spaces: before the rule for marks, which takes
the spaces around semicolons and braces away. The two rules compete for the same
spaces, but the order does not matter. Where a semicolon is dropped, the gaps on its
two sides go with it, and they would have gone anyhow, since one of their neighbours is
a mark. Where it stays, nothing has happened to it. So any rule on gaps that clears the
gaps around marks may be applied first, and what is left to do then is to drop every
semicolon whose very next character is a closing brace (`mapGaps_dropLastSemicolons`).

That rule looks one character ahead and never back, so of several semicolons in a row
it drops one (`dropBeforeBrace_replicate`). Block comments are gone before all this, as
`Pattern.uncommented_iff` describes it.
-/

namespace HtmlMinifier.Stylesheet

open Text

/-! ## Semicolons right before a closing brace -/

/-- The text without the semicolons whose next character is a closing brace. -/
def dropBeforeBrace : Text → Text
  | [] => []
  | c :: s => if c = ';' ∧ s.head? = some '}' then dropBeforeBrace s else c :: dropBeforeBrace s

theorem dropBeforeBrace_semicolon {s : Text} (h : s.head? = some '}') :
    dropBeforeBrace (';' :: s) = dropBeforeBrace s :=
  if_pos ⟨rfl, h⟩

theorem dropBeforeBrace_cons {c : Char} {s : Text} (h : ¬ (c = ';' ∧ s.head? = some '}')) :
    dropBeforeBrace (c :: s) = c :: dropBeforeBrace s :=
  if_neg h

theorem dropBeforeBrace_append {p q : Text} (h : q.head? ≠ some '}') :
    dropBeforeBrace (p ++ q) = dropBeforeBrace p ++ dropBeforeBrace q := by
  induction p with
  | nil => rfl
  | cons c p ih =>
      have hhead : (p ++ q).head? = some '}' ↔ p.head? = some '}' := by
        cases p with
        | nil => simp [h]
        | cons d p => rfl
      rw [List.cons_append, dropBeforeBrace, dropBeforeBrace, ih]
      simp only [hhead]
      split <;> rfl

theorem dropBeforeBrace_append_of_not_mem {p : Text} (h : ';' ∉ p) (q : Text) :
    dropBeforeBrace (p ++ q) = p ++ dropBeforeBrace q := by
  induction p with
  | nil => rfl
  | cons c p ih =>
      obtain ⟨hc, hp⟩ := List.ne_and_not_mem_of_not_mem_cons h
      rw [List.cons_append, dropBeforeBrace_cons fun hdrop => hc hdrop.1.symm, ih hp]
      rfl

theorem dropBeforeBrace_of_not_mem {p : Text} (h : ';' ∉ p) : dropBeforeBrace p = p := by
  have hcopy := dropBeforeBrace_append_of_not_mem h []
  rwa [List.append_nil, show dropBeforeBrace [] = [] from rfl, List.append_nil] at hcopy

/-- Of several semicolons in a row before a closing brace one is dropped. -/
theorem dropBeforeBrace_replicate (p : Text) (k : Nat) (q : Text) :
    dropBeforeBrace (p ++ (List.replicate (k + 1) ';' ++ '}' :: q)) =
      dropBeforeBrace p ++ (List.replicate k ';' ++ '}' :: dropBeforeBrace q) := by
  rw [dropBeforeBrace_append (by simp [List.replicate_succ])]
  congr 1
  induction k with
  | zero => exact dropBeforeBrace_semicolon rfl
  | succ k ih =>
      rw [List.replicate_succ, List.cons_append, dropBeforeBrace_cons, ih]
      · rfl
      · simp [List.replicate_succ]

/-! ## The rule for last semicolons, gap by gap -/

theorem lineBlind_lastSemicolon : lastSemicolon.LineBlind := fun _ _ _ => rfl

theorem read?_lastSemicolon {b : Bool} {R t : Text} {c : Char} (hR : AllBlank R)
    (hc : isBlank c = false) :
    lastSemicolon.read? b (R ++ c :: t) =
      if c = ';' ∧ t.trimStart.head? = some '}' then
        some ⟨R ++ [';'], t.leadingBlanks, ['}']⟩
      else none := by
  simp only [lastSemicolon]
  rw [trimStart_append_cons hR hc, leadingBlanks_append_cons hR hc]
  by_cases hsemi : c = ';'
  · subst hsemi
    simp only [true_and]
    cases ht : t.trimStart with
    | nil => rfl
    | cons d w =>
        by_cases hbrace : d = '}'
        · subst hbrace
          rfl
        · simp [hbrace]
  · simp [hsemi]

theorem dropLastSemicolons_blanks {R : Text} (hR : AllBlank R) :
    dropLastSemicolons R = R := by
  refine Pattern.replaceWith_of_none fun b t ht => ?_
  simp only [lastSemicolon]
  rw [trimStart_of_allBlank (hR.suffix ht)]

theorem dropLastSemicolons_gap {R t : Text} {c : Char} (hR : AllBlank R)
    (hc : isBlank c = false) (h : ¬ (c = ';' ∧ t.trimStart.head? = some '}')) :
    dropLastSemicolons (R ++ c :: t) = R ++ c :: dropLastSemicolons t := by
  have hnone : ∀ b v, AllBlank v → lastSemicolon.read? b (v ++ c :: t) = none := by
    intro b v hv
    rw [read?_lastSemicolon hv hc, if_neg h]
  have hcopy := Pattern.replaceFrom_append_of_suffix (p := lastSemicolon)
    (f := fun _ => ['}']) (b := true) (t := R) (s := c :: t)
    fun b d v hv => hnone b (d :: v) (hR.suffix hv)
  rw [lineBlind_lastSemicolon.replaceFrom_eq, lineBlind_lastSemicolon.replaceFrom_eq,
    lineBlind_lastSemicolon.replaceWith_cons (hnone true [] allBlank_nil)] at hcopy
  exact hcopy

/-- A semicolon that is dropped takes the gaps on its two sides along. -/
theorem dropLastSemicolons_semicolon {R Q : Text} (hR : AllBlank R) (hQ : AllBlank Q)
    (s : Text) :
    dropLastSemicolons (R ++ ';' :: (Q ++ '}' :: s)) = '}' :: dropLastSemicolons s := by
  have hread := read?_lastSemicolon (b := true) (t := Q ++ '}' :: s) (c := ';') hR (by decide)
  rw [trimStart_append_cons hQ (by decide), leadingBlanks_append_cons hQ (by decide),
    if_pos ⟨rfl, rfl⟩] at hread
  exact lineBlind_lastSemicolon.replaceWith_hit (t := R ++ ';' :: (Q ++ ['}']))
    (by simp) (by simp [Occurrence.text]) hread

/-! ## Rules that clear the gaps around marks -/

/-- The rule empties the gaps that have a mark on one side. -/
structure ClearsMarks (g : GapRule) : Prop where
  keepsBlank : KeepsBlank g
  after : ∀ {c R r}, isMark c = true → g (some c) R r = []
  before : ∀ {l R c}, isMark c = true → g l R (some c) = []

namespace ClearsMarks

variable {g : GapRule} {c : Char} {l r : Option Char} {R s : Text}

theorem mapGaps_append_cons (hg : ClearsMarks g) (hc : isMark c = true)
    (hblank : isBlank c = false) (hR : AllBlank R) :
    mapGaps g l r (R ++ c :: s) = c :: mapGaps g (some c) r s := by
  rw [mapGaps_gap hR hblank, hg.before hc, List.nil_append]

/-- What comes first after a mark is what came first before, blanks left out. -/
theorem head?_mapGaps (hg : ClearsMarks g) (hc : isMark c = true) (s : Text) :
    (mapGaps g (some c) none s).head? = s.trimStart.head? := by
  rcases allBlank_or_exists s with h | ⟨R, d, t, rfl, hR, hd⟩
  · rw [mapGaps_blanks h, hg.after hc, trimStart_of_allBlank h]
  · rw [mapGaps_gap hR hd, hg.after hc, trimStart_append_cons hR hd]
    rfl

theorem trimStart_mapGaps (hg : ClearsMarks g) (hc : isMark c = true) (s : Text) :
    (mapGaps g (some c) none s).trimStart = mapGaps g (some c) none s := by
  rcases allBlank_or_exists s with h | ⟨R, d, t, rfl, hR, hd⟩
  · rw [mapGaps_blanks h, hg.after hc]
    rfl
  · rw [mapGaps_gap hR hd, hg.after hc]
    exact trimStart_cons hd

theorem semicolon_not_mem (hg : ClearsMarks g) (hR : AllBlank R) : ';' ∉ g l R r :=
  (hg.keepsBlank l R r hR).not_mem (by decide)

/-- Last semicolons may be dropped before the gaps around marks are cleared or after. -/
theorem mapGaps_dropLastSemicolons (hg : ClearsMarks g) (s : Text) : ∀ {l : Option Char},
    mapGaps g l none (dropLastSemicolons s) = dropBeforeBrace (mapGaps g l none s) := by
  induction s using gap_induction with
  | blanks R hR =>
      intro l
      rw [dropLastSemicolons_blanks hR, mapGaps_blanks hR,
        dropBeforeBrace_of_not_mem (hg.semicolon_not_mem hR)]
  | cons R c t hR hc ih =>
      intro l
      by_cases hlast : c = ';' ∧ t.trimStart.head? = some '}'
      · obtain ⟨rfl, hbrace⟩ := hlast
        rcases allBlank_or_exists t with h | ⟨Q, d, w, rfl, hQ, hd⟩
        · rw [trimStart_of_allBlank h] at hbrace
          cases hbrace
        · rw [trimStart_append_cons hQ hd] at hbrace
          obtain rfl := Option.some.inj hbrace
          have hrest := ih (l := some ';')
          -- The brace is kept, and the gap before it goes in any case.
          rw [dropLastSemicolons_gap hQ hd (by simp), hg.mapGaps_append_cons rfl hd hQ,
            hg.mapGaps_append_cons rfl hd hQ] at hrest
          rw [dropLastSemicolons_semicolon hR hQ, hg.mapGaps_append_cons rfl hc hR,
            hg.mapGaps_append_cons rfl hd hQ, dropBeforeBrace_semicolon rfl, ← hrest]
          exact hg.mapGaps_append_cons rfl hd allBlank_nil
      · have hkeep : ¬ (c = ';' ∧ (mapGaps g (some c) none t).head? = some '}') := by
          rintro ⟨rfl, hhead⟩
          rw [hg.head?_mapGaps rfl] at hhead
          exact hlast ⟨rfl, hhead⟩
        rw [dropLastSemicolons_gap hR hc hlast, mapGaps_gap hR hc, mapGaps_gap hR hc,
          dropBeforeBrace_append_of_not_mem (hg.semicolon_not_mem hR),
          dropBeforeBrace_cons hkeep, ih]

/-- Where the gaps around marks are cleared, the two ways of dropping are one. -/
theorem dropLastSemicolons_mapGaps (hg : ClearsMarks g) (s : Text) : ∀ {l : Option Char},
    dropLastSemicolons (mapGaps g l none s) = dropBeforeBrace (mapGaps g l none s) := by
  induction s using gap_induction with
  | blanks R hR =>
      intro l
      rw [mapGaps_blanks hR, dropLastSemicolons_blanks (hg.keepsBlank l R none hR),
        dropBeforeBrace_of_not_mem (hg.semicolon_not_mem hR)]
  | cons R c t hR hc ih =>
      intro l
      have hrest := ih (l := some c)
      rw [mapGaps_gap hR hc, dropBeforeBrace_append_of_not_mem (hg.semicolon_not_mem hR)]
      by_cases hlast : c = ';' ∧ (mapGaps g (some c) none t).head? = some '}'
      · obtain ⟨rfl, hbrace⟩ := hlast
        obtain ⟨w, hw⟩ := List.head?_eq_some_iff.1 hbrace
        rw [dropBeforeBrace_semicolon hbrace, ← hrest, hg.before rfl, hw, List.nil_append]
        -- Dropped or not, the semicolon leaves the brace and what follows it.
        have hdrop := dropLastSemicolons_semicolon allBlank_nil allBlank_nil w
        have hkeep := dropLastSemicolons_gap (t := w) (c := '}') allBlank_nil (by decide) (by simp)
        exact hdrop.trans hkeep.symm
      · have hkeep : ¬ (c = ';' ∧ (mapGaps g (some c) none t).trimStart.head? = some '}') := by
          rintro ⟨rfl, hhead⟩
          rw [hg.trimStart_mapGaps rfl] at hhead
          exact hlast ⟨rfl, hhead⟩
        rw [dropLastSemicolons_gap (hg.keepsBlank l R (some c) hR) hc hkeep, hrest,
          dropBeforeBrace_cons hlast]

end ClearsMarks

/-! ## The aggressive rules -/

/-- What the aggressive rules leave of a gap. -/
def pressRule : GapRule := fun l R r =>
  if l = none ∨ r = none ∨ l.any (['{', '}', ';', ':'].contains ·) ∨
      r.any (['{', '}', ';', ':'].contains ·) then []
  else if R = [] then [] else [' ']

theorem isMark_eq : isMark = (['{', '}', ';', ':'].contains ·) := by
  funext c
  simp [isMark, Bool.or_assoc, Bool.beq_eq_decide_eq]

theorem pressRule_nil (l r : Option Char) : pressRule l [] r = [] := by
  rw [pressRule, if_pos (rfl : ([] : Text) = []), ite_self]

theorem keepsBlank_pressRule : KeepsBlank pressRule := by
  intro l R r _
  rw [pressRule]
  split_ifs
  · exact allBlank_nil
  · exact allBlank_nil
  · exact allBlank_cons.2 ⟨by decide, allBlank_nil⟩

/-- The rules after the flattening, without the one for last semicolons. -/
def tightRule : GapRule := thenGap markRule endRule

theorem trim_tightenMarks (s : Text) :
    Text.trim (tightenMarks s) = mapGaps tightRule none none s := by
  rw [trim_eq_mapGaps, tightenMarks_eq_mapGaps, mapGaps_mapGaps keepsBlank_markRule, tightRule]

theorem clearsMarks_tightRule : ClearsMarks tightRule where
  keepsBlank := keepsBlank_markRule.thenGap keepsBlank_endRule
  after h := by rw [tightRule, thenGap, markRule_after h, endRule_nil]
  before h := by rw [tightRule, thenGap, markRule_before h, endRule_nil]

theorem tightRule_flatRule (l : Option Char) (R : Text) (r : Option Char) :
    tightRule l (flatRule l R r) r = pressRule l R r := by
  rw [flatRule_eq, tightRule, thenGap, endRule, markRule, pressRule, isMark_eq]
  simp only [Bool.or_eq_true, ← or_assoc, ite_or]

theorem mapGaps_tightRule_flattenBlanks (s : Text) :
    mapGaps tightRule none none s.flattenBlanks = mapGaps pressRule none none s := by
  rw [flattenBlanks_eq_mapGaps, mapGaps_mapGaps keepsBlank_flatRule]
  exact mapGaps_congr (fun l R r _ => tightRule_flatRule l R r) s

theorem aggressive_eq_mapGaps (s : Text) :
    aggressive s =
      dropBeforeBrace (mapGaps pressRule none none (Pattern.blockComment.delete s)) := by
  rw [aggressive_eq, trim_tightenMarks, clearsMarks_tightRule.mapGaps_dropLastSemicolons,
    mapGaps_tightRule_flattenBlanks]

/-- The aggressive rules empty the gaps at the ends and around marks, make a space of
all others, and then drop each semicolon whose next character is a closing brace, one of
several in a row. The rule for last semicolons may come before the one for marks, as it
does, or last. -/
theorem aggressive_gap_by_gap (s : Text) :
    aggressive s = dropBeforeBrace (mapGaps pressRule none none (Pattern.blockComment.delete s)) ∧
      (∀ p k q, dropBeforeBrace (p ++ (List.replicate (k + 1) ';' ++ '}' :: q)) =
        dropBeforeBrace p ++ (List.replicate k ';' ++ '}' :: dropBeforeBrace q)) ∧
      aggressive s = dropLastSemicolons (Text.trim (tightenMarks
        (Text.flattenBlanks (Pattern.blockComment.delete s)))) := by
  refine ⟨aggressive_eq_mapGaps s, dropBeforeBrace_replicate, ?_⟩
  rw [aggressive_eq, trim_tightenMarks, trim_tightenMarks,
    clearsMarks_tightRule.mapGaps_dropLastSemicolons,
    clearsMarks_tightRule.dropLastSemicolons_mapGaps]

example : aggressive " a : b ; ; \x7d\nc\td /**/ \x7b ;\x7d ; \x7d ".toList =
    "a:b;\x7dc d\x7b\x7d\x7d".toList := by decide +kernel

end HtmlMinifier.Stylesheet
