import HtmlMinifier.Proofs.StructuredLayout
import HtmlMinifier.Proofs.StylesheetGaps
import HtmlMinifier.Proofs.TrailingBlanks

/-!
# Steps that find nothing to do

Three of the structured steps come too late. Once the padding of lines is
deleted, no line feed stands next to another and no blank at either end of the
text, so squeezing and trimming have nothing left to do. Once wide gaps are
spaces, no blank stands behind a line feed, so there are no indents to delete.

Each of these steps makes what it finds shorter. So it is idle where there is
nothing to find, and there alone (`replaceWith_eq_self_iff`), and a rule on
gaps that shows a step to be idle shows at once what the text does not have.
-/

namespace HtmlMinifier

namespace Pattern

variable {p : Pattern} {f : Occurrence → Text}

/-- What is put in place of an occurrence is shorter than the occurrence. -/
def Shrinks (p : Pattern) (f : Occurrence → Text) : Prop :=
  ∀ b s o, p.read? b s = some o → (f o).length < o.text.length

theorem Shrinks.length_replaceFrom_le (hf : p.Shrinks f) (b : Bool) (s : Text) :
    (p.replaceFrom f b s).length ≤ s.length := by
  induction b, s using p.search_induction with
  | nil b => exact Nat.le_refl _
  | plain b c s h ih =>
      rw [replaceFrom_plain h, List.length_cons, List.length_cons]
      exact Nat.succ_le_succ ih
  | hit b o r h ih =>
      have hshort := hf _ _ _ h
      rw [replaceFrom_hit h, List.length_append, List.length_append]
      omega

/-- A pass that makes every occurrence shorter changes nothing exactly where no
occurrence stands. -/
theorem LineBlind.replaceWith_eq_self_iff (hp : p.LineBlind) (hf : p.Shrinks f)
    {s : Text} :
    p.replaceWith f s = s ↔ ∀ t, t <:+ s → p.read? true t = none := by
  induction s with
  | nil =>
      refine ⟨fun _ t ht => ?_, fun _ => rfl⟩
      rw [List.suffix_nil.1 ht]
      exact read?_nil true
  | cons c s ih =>
      simp only [List.suffix_cons_iff, forall_eq_or_imp]
      cases h : p.read? true (c :: s) with
      | none =>
          rw [hp.replaceWith_cons h, List.cons_inj_right, ih]
          exact ⟨fun hs => ⟨rfl, hs⟩, fun hs => hs.2⟩
      | some o =>
          obtain ⟨r, hr⟩ := p.text_prefix h
          refine ⟨fun e => ?_, fun hs => absurd hs.1 (by simp)⟩
          have hlen := congrArg List.length e
          have hshort := hf _ _ _ h
          have hrest := hf.length_replaceFrom_le true r
          rw [hp.replaceWith_hit hr.symm rfl h, ← hr, List.length_append,
            List.length_append, replaceWith_eq] at hlen
          omega

end Pattern

namespace Text

/-! ## When a step is idle -/

variable {s : Text}

theorem read?_lineFeeds_eq_none_iff {b : Bool} :
    Pattern.lineFeeds.read? b s = none ↔ ¬ ['\n', '\n'] <+: s := by
  have hrun : 2 ≤ (s.takeWhile (· == '\n')).length ↔ ['\n', '\n'] <+: s := by
    match s with
    | [] => simp
    | [c] => by_cases hc : c = '\n' <;> simp [hc]
    | c :: d :: s =>
        rw [List.cons_prefix_cons, List.cons_prefix_cons, eq_comm, @eq_comm _ _ d]
        by_cases hc : c = '\n' <;> by_cases hd : d = '\n' <;> simp [hc, hd]
  simp only [Pattern.lineFeeds, hrun]
  split <;> simp_all

theorem squeezeLineFeeds_eq_self_iff :
    s.squeezeLineFeeds = s ↔ ¬ ['\n', '\n'] <:+: s := by
  have hshrinks : Pattern.lineFeeds.Shrinks fun _ => ['\n'] := by
    intro b s o h
    simp only [Pattern.lineFeeds] at h
    split at h
    · next hlen =>
        obtain rfl := Option.some.inj h
        simpa [Occurrence.text] using Nat.lt_of_succ_le hlen
    · cases h
  rw [squeezeLineFeeds, Pattern.replace,
    lineBlind_lineFeeds.replaceWith_eq_self_iff hshrinks]
  simp only [read?_lineFeeds_eq_none_iff, List.infix_iff_prefix_suffix, not_exists,
    not_and']

theorem trimStart_eq_self_iff :
    s.trimStart = s ↔ ∀ c ∈ s.head?, isBlank c = false := by
  rw [trimStart, List.dropWhile_eq_self_iff]
  cases s <;> simp

theorem trimEnd_eq_self_iff :
    s.trimEnd = s ↔ ∀ c ∈ s.getLast?, isBlank c = false := by
  rw [← List.reverse_inj, reverse_trimEnd, trimStart_eq_self_iff, List.head?_reverse]

theorem trim_eq_self_iff :
    s.trim = s ↔ (∀ c ∈ s.head?, isBlank c = false) ∧
      ∀ c ∈ s.getLast?, isBlank c = false := by
  constructor
  · intro h
    have hpre : s.trimEnd <+: s := ⟨_, s.trimEnd_append_blanks⟩
    have hlen : s.length ≤ s.trimEnd.length := by
      calc s.length = s.trim.length := by rw [h]
        _ ≤ s.trimEnd.length := List.length_dropWhile_le isBlank s.trimEnd
    have hend : s.trimEnd = s := hpre.eq_of_length_le hlen
    rw [trim, hend] at h
    exact ⟨trimStart_eq_self_iff.1 h, trimEnd_eq_self_iff.1 hend⟩
  · rintro ⟨hhead, hlast⟩
    rw [trim, trimEnd_eq_self_iff.2 hlast, trimStart_eq_self_iff.2 hhead]

end Text

namespace Stylesheet

open Text

theorem deleteIndents_eq_self_iff {s : Text} :
    deleteIndents s = s ↔ ∀ c, isBlank c = true → ¬ ['\n', c] <:+: s := by
  have hblind : (Pattern.gap (some '\n') none 1).LineBlind := fun _ _ _ => rfl
  have hshrinks : (Pattern.gap (some '\n') none 1).Shrinks fun _ => ['\n'] := by
    intro b s o h
    have hgap : Pattern.readGap? (some '\n') none 1 s = some o := h
    obtain ⟨t, -, -, hlen, -, rfl⟩ := Pattern.readGap?_eq_some_iff.1 hgap
    simpa [Occurrence.text] using Nat.lt_of_succ_le hlen
  rw [deleteIndents, Pattern.replace, hblind.replaceWith_eq_self_iff hshrinks]
  simp only [read?_indent_eq_none_iff, List.infix_iff_prefix_suffix]
  constructor
  · intro h c hc hin
    obtain ⟨t, hp, ht⟩ := hin
    exact h t ht c hc hp
  · intro h t ht c hc hp
    exact h c hc ⟨t, hp, ht⟩

/-- The structured rules without the one for indents. -/
def workingSteps (s : Text) : Text :=
  let s := Pattern.blockComment.delete s
  let s := collapseWide s
  let s := deleteSemicolonBreaks s
  let s := openBraces s
  let s := closeBraces s
  let s := tightenColons s
  Text.trim s

theorem structured_eq_workingSteps : structured = workingSteps := by
  funext s
  rw [structured, workingSteps, deleteIndents_collapseWide]

end Stylesheet

namespace Document

open Text

/-- The structured profile without the two steps after the padding of lines is
deleted, and with one rule less for style sheets. -/
def workingSteps (s : Text) : Text :=
  let s := Comment.deleteUnconditional s
  let s := Element.style.mapContent Stylesheet.workingSteps s
  let s := Element.script.mapContent Script.structured s
  let s := closeTagGaps s
  trimLines s

/-- Three of the structured steps never change anything. No text has two line
feeds in a row, or a blank at one of its ends, once the padding of its lines is
deleted, and none has a blank behind a line feed once its wide gaps are spaces. -/
theorem minify_structured_workingSteps (s t : Text) :
    minify .structured s = workingSteps (dropMark s) ∧
      ¬ ['\n', '\n'] <:+: trimLines t ∧
      (∀ c ∈ (trimLines t).head?, isBlank c = false) ∧
      (∀ c ∈ (trimLines t).getLast?, isBlank c = false) ∧
      ∀ c, isBlank c = true → ¬ ['\n', c] <:+: Stylesheet.collapseWide t := by
  obtain ⟨hhead, hlast⟩ := trim_eq_self_iff.1 (trim_trimLines t)
  refine ⟨?_, squeezeLineFeeds_eq_self_iff.1 (squeezeLineFeeds_trimLines t), hhead, hlast,
    Stylesheet.deleteIndents_eq_self_iff.1 (Stylesheet.deleteIndents_collapseWide t)⟩
  rw [minify_structured_eq, layout_eq_trimLines, Stylesheet.structured_eq_workingSteps]
  rfl

/-- A blank line goes with its line feeds before one of them could be squeezed. -/
example : trimLines "a\n\nb".toList = "ab".toList ∧
    Text.squeezeLineFeeds "a\n\nb".toList = "a\nb".toList := by decide +kernel

end Document

end HtmlMinifier
