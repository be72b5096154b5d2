import HtmlMinifier.Proofs.BlockDocument
import HtmlMinifier.Proofs.CutComments
import HtmlMinifier.Proofs.LastSemicolons
import HtmlMinifier.Proofs.NormalStylesheets

/-!
# The words behind `<`

Whether an element or a comment starts at a `<` is decided by the word behind it. So
if every `<` of a text has one of a few words behind it, the text is known well enough
to say which tags and comments are not in it (`Tagged`). That is a statement about the
ends of a text and not about the whole, so it goes through a pass place by place: a
pass that deletes an occurrence goes on with an end of the text, and a pass that keeps
a `<` has only to keep the word behind it.

The passes over style sheets and scripts keep such a word if it has no blank, no
semicolon and no slash, except for the one at the head of a closing tag, which does not
start a comment because a name follows it (`TagWord`).
-/

namespace HtmlMinifier

open Text

/-! ## Words of tags -/

/-- The text has no blank, and none of the characters that start a tag or a comment or that
a rule deletes. -/
def Solid (z : Text) : Prop := ∀ c ∈ z, isBlank c = false ∧ c ∉ ['<', '/', ';']

namespace Solid

variable {y z : Text}

theorem append (hy : Solid y) (hz : Solid z) : Solid (y ++ z) :=
  List.forall_mem_append.2 ⟨hy, hz⟩

theorem not_mem (h : Solid z) {c : Char} (hc : c ∈ ['<', '/', ';']) : c ∉ z :=
  fun hm => (h c hm).2 hc

theorem unbroken (h : Solid z) : Unbroken z := fun c hc => (h c hc).1

end Solid

theorem solid_name (e : Element) : Solid e.name := by
  cases e <;> simp [Solid, Element.name, isBlank]

/-- What stands behind the `<` of a tag whose name starts with that of the element. -/
inductive TagWord (e : Element) : Text → Prop
  | opening {z : Text} (hz : Solid z) : TagWord e (e.name ++ z)
  | closing {z : Text} (hz : Solid z) : TagWord e ('/' :: (e.name ++ z))

namespace TagWord

variable {e e' : Element} {w : Text}

theorem ne_nil (h : TagWord e w) : w ≠ [] := by
  cases h <;> cases e <;> exact List.cons_ne_nil _ _

theorem unbroken (h : TagWord e w) : Unbroken w := by
  cases h with
  | opening hz => exact ((solid_name e).append hz).unbroken
  | closing hz => exact unbroken_cons.2 ⟨by decide, ((solid_name e).append hz).unbroken⟩

theorem not_mem (h : TagWord e w) {c : Char} (hc : c ∈ ['<', ';']) : c ∉ w := by
  have hne : c ≠ '/' ∧ c ∈ ['<', '/', ';'] := by
    rcases List.mem_pair.1 hc with rfl | rfl <;> decide
  cases h with
  | opening hz => exact ((solid_name e).append hz).not_mem hne.2
  | closing hz =>
      exact List.not_mem_cons_of_ne_of_not_mem hne.1 (((solid_name e).append hz).not_mem hne.2)

/-- The slash at the head of a closing tag starts no comment. -/
theorem slash_append {d : Char} (hd : d ∈ ['/', '*']) (e : Element) (s : Text) :
    ¬ ['/', d] <+: '/' :: (e.name ++ s) := by
  intro h
  have hhead := (List.cons_prefix_cons.1 h).2
  rcases List.mem_pair.1 hd with rfl | rfl <;> cases e <;>
    exact absurd (List.cons_prefix_cons.1 hhead).1 (by decide)

theorem deleteBlockComments_append (h : TagWord e w) (t : Text) :
    Script.deleteBlockComments (w ++ t) = w ++ Script.deleteBlockComments t := by
  cases h with
  | opening hz =>
      exact Script.deleteBlockComments_append_of_not_mem
        (((solid_name e).append hz).not_mem (by decide)) t
  | @closing z hz =>
      have hplain : ∀ v, '/' :: (e.name ++ z ++ t) ≠ '/' :: '*' :: v := by
        intro v hv
        rw [List.append_assoc] at hv
        exact slash_append (d := '*') (by decide) e (z ++ t) ⟨v, hv.symm⟩
      rw [List.cons_append, Script.deleteBlockComments_cons fun v hv => absurd hv (hplain v),
        Script.deleteBlockComments_append_of_not_mem
          (((solid_name e).append hz).not_mem (by decide))]
      rfl

theorem deleteLineComments_append (h : TagWord e w) (t : Text) :
    Script.deleteLineComments (w ++ t) = w ++ Script.deleteLineComments t := by
  cases h with
  | opening hz =>
      exact Script.deleteLineComments_append_of_not_mem
        (((solid_name e).append hz).not_mem (by decide)) t
  | @closing z hz =>
      have hnone : ¬ ['/', '/'] <+: '/' :: (e.name ++ z ++ t) := by
        rw [List.append_assoc]
        exact slash_append (by decide) e (z ++ t)
      rw [List.cons_append, Script.deleteLineComments_cons hnone,
        Script.deleteLineComments_append_of_not_mem
          (((solid_name e).append hz).not_mem (by decide))]
      rfl

/-- The tag is none of the other element. -/
theorem not_prefix_append (h : TagWord e w) (hne : e' ≠ e) (t : Text) :
    ¬ e'.name <+: (w ++ t).map foldCase := by
  cases h with
  | opening hz =>
      rw [List.append_assoc, List.map_append, e.map_foldCase_name]
      cases e <;> cases e' <;> simp_all [Element.name]
  | closing hz => exact Block.not_name_prefix_slash _

theorem dashes_not_prefix_append (h : TagWord e w) (t : Text) :
    ¬ ['!', '-', '-'] <+: (w ++ t).map foldCase := by
  intro hp
  cases h with
  | opening hz =>
      rw [List.append_assoc, List.map_append, e.map_foldCase_name] at hp
      cases e <;> exact absurd (List.cons_prefix_cons.1 hp).1 (by decide)
  | closing hz => exact absurd (List.cons_prefix_cons.1 hp).1 (by decide)

end TagWord

/-! ## Texts by the words behind their `<` -/

/-- Each `<` of the text is followed by one of the words. -/
def Tagged (ws : List Text) (s : Text) : Prop :=
  ∀ v, '<' :: v <:+ s → ∃ w ∈ ws, w <+: v

namespace Tagged

variable {ws ws' : List Text} {s t w : Text} {c : Char}

theorem of_not_mem (h : '<' ∉ s) : Tagged ws s :=
  fun _ hv => absurd (hv.subset List.mem_cons_self) h

theorem suffix (h : Tagged ws s) (ht : t <:+ s) : Tagged ws t :=
  fun v hv => h v (hv.trans ht)

theorem mono (h : Tagged ws s) (hws : ws ⊆ ws') : Tagged ws' s := by
  intro v hv
  obtain ⟨w, hw, hp⟩ := h v hv
  exact ⟨w, hws hw, hp⟩

theorem cons_iff : Tagged ws (c :: s) ↔ (c = '<' → ∃ w ∈ ws, w <+: s) ∧ Tagged ws s := by
  simp only [Tagged, List.suffix_cons_iff]
  constructor
  · intro h
    exact ⟨fun hc => h s (.inl (by rw [hc])), fun v hv => h v (.inr hv)⟩
  · rintro ⟨hfirst, hrest⟩ v (hv | hv)
    · obtain ⟨hc, rfl⟩ := List.cons.inj hv
      exact hfirst hc.symm
    · exact hrest v hv

theorem append (hs : Tagged ws s) (ht : Tagged ws t) : Tagged ws (s ++ t) := by
  induction s with
  | nil => exact ht
  | cons c s ih =>
      obtain ⟨hc, hrest⟩ := cons_iff.1 hs
      refine cons_iff.2 ⟨fun hlt => ?_, ih hrest⟩
      obtain ⟨w, hw, hp⟩ := hc hlt
      exact ⟨w, hw, hp.trans (List.prefix_append s t)⟩

theorem tag (hw : w ∈ ws) (hlt : '<' ∉ w) : Tagged ws ('<' :: w) :=
  cons_iff.2 ⟨fun _ => ⟨w, hw, List.prefix_rfl⟩, of_not_mem hlt⟩

/-- What no `<` has behind it. -/
theorem not_infix_map (h : Tagged ws s) {l : Text}
    (hl : ∀ w ∈ ws, ∀ t, ¬ l <+: (w ++ t).map foldCase) :
    ¬ '<' :: l <:+: s.map foldCase := by
  rintro ⟨u, v, huv⟩
  rw [List.append_assoc] at huv
  obtain ⟨p, r, rfl, -, hr⟩ := List.map_eq_append_iff.1 huv.symm
  obtain ⟨d, q, rfl, hd, hq⟩ := List.map_eq_cons_iff.1 hr
  obtain rfl := foldCase_eq_lt_iff.1 hd
  obtain ⟨w, hw, t, rfl⟩ := h q (List.suffix_append p _)
  exact hl w hw t ⟨v, hq.symm⟩

/-- A pattern whose deletion keeps the words. -/
theorem delete {p : Pattern} (hp : p.LineBlind) (h : Tagged ws s)
    (hws : ∀ w ∈ ws, ∀ t, p.delete (w ++ t) = w ++ p.delete t) : Tagged ws (p.delete s) := by
  rw [Pattern.delete, Pattern.replace, ← hp.replaceFrom_eq true]
  induction true, s using p.search_induction with
  | nil b => exact h
  | hit b o r hread ih =>
      rw [Pattern.replaceFrom_hit hread]
      exact ih (h.suffix (List.suffix_append o.text r))
  | plain b c s hread ih =>
      obtain ⟨hc, hs⟩ := cons_iff.1 h
      rw [Pattern.replaceFrom_plain hread]
      refine cons_iff.2 ⟨fun hlt => ?_, ih hs⟩
      obtain ⟨w, hw, t, rfl⟩ := hc hlt
      have hcopy : p.replaceFrom (fun _ => []) (c == '\n') (w ++ t) = w ++ p.delete t :=
        (hp.replaceFrom_eq _ _).trans (hws w hw t)
      rw [hcopy]
      exact ⟨w, hw, List.prefix_append w _⟩

section Passes

variable {e e' : Element} (hws : ∀ w ∈ ws, TagWord e w)

include hws

theorem deleteBlockComments (h : Tagged ws s) : Tagged ws (Script.deleteBlockComments s) :=
  h.delete Pattern.lineBlind_enclosure fun w hw => (hws w hw).deleteBlockComments_append

theorem deleteLineComments (h : Tagged ws s) : Tagged ws (Script.deleteLineComments s) :=
  h.delete Script.lineBlind_lineComment fun w hw => (hws w hw).deleteLineComments_append

theorem mapGaps {f : GapRule} {l r : Option Char} (hf : KeepsBlank f)
    (hnil : ∀ l r, f l [] r = []) (h : Tagged ws s) : Tagged ws (Text.mapGaps f l r s) := by
  rintro V ⟨U, hU⟩
  obtain ⟨u, v, rfl, -, rfl⟩ := exists_of_mapGaps_eq hf (by decide) s hU.symm
  obtain ⟨w, hw, t, rfl⟩ := h v (List.suffix_append u _)
  refine ⟨w, hw, ?_⟩
  rw [mapGaps_append_of_unbroken hnil (hws w hw).ne_nil (hws w hw).unbroken]
  exact List.prefix_append w _

theorem flattened (h : Tagged ws s) (l r : Option Char) :
    Tagged ws (Text.mapGaps tagRule l r s.flattenBlanks) := by
  rw [flattenBlanks_eq_mapGaps]
  exact (h.mapGaps hws keepsBlank_flatRule flatRule_nil).mapGaps hws keepsBlank_tagRule
    tagRule_nil

theorem dropBeforeBrace (h : Tagged ws s) : Tagged ws (Stylesheet.dropBeforeBrace s) := by
  induction s with
  | nil => exact h
  | cons c s ih =>
      obtain ⟨hc, hs⟩ := cons_iff.1 h
      rw [Stylesheet.dropBeforeBrace]
      split
      · exact ih hs
      · refine cons_iff.2 ⟨fun hlt => ?_, ih hs⟩
        obtain ⟨w, hw, t, rfl⟩ := hc hlt
        rw [Stylesheet.dropBeforeBrace_append_of_not_mem ((hws w hw).not_mem (by decide))]
        exact ⟨w, hw, List.prefix_append w _⟩

theorem structured (h : Tagged ws s) : Tagged ws (Stylesheet.structured s) := by
  rw [Stylesheet.structured_eq_mapGaps]
  exact (h.deleteBlockComments hws).mapGaps hws Stylesheet.keepsBlank_sheetRule
    Stylesheet.sheetRule_nil

theorem aggressive (h : Tagged ws s) : Tagged ws (Stylesheet.aggressive s) := by
  rw [Stylesheet.aggressive_eq_mapGaps]
  exact ((h.deleteBlockComments hws).mapGaps hws Stylesheet.keepsBlank_pressRule
    Stylesheet.pressRule_nil).dropBeforeBrace hws

theorem name_not_infix_map (h : Tagged ws s) (hne : e' ≠ e) :
    ¬ '<' :: e'.name <:+: s.map foldCase :=
  h.not_infix_map fun w hw => (hws w hw).not_prefix_append hne

theorem commentOpener_absent (h : Tagged ws s) : ¬ Comment.opener <:+: s := by
  intro hi
  have hopen : Comment.opener.map foldCase = '<' :: ['!', '-', '-'] := by decide
  have hfold := hi.map foldCase
  rw [hopen] at hfold
  exact h.not_infix_map (fun w hw => (hws w hw).dashes_not_prefix_append) hfold

end Passes

end Tagged

end HtmlMinifier
