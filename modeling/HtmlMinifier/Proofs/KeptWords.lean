import HtmlMinifier.Proofs.ElementSearch
import Mathlib.Data.List.Infix

/-!
# Passes that keep words

Flattening a text and writing its line ends another way have in common that they
only change what gaps are made of: blanks become blanks, some become some and
none become none, and all else stays. `KeepsWords` says so of a pass by how it
treats a text cut at a character that is not blank.

A word without blanks is then at the same places before and after
(`KeepsWords.exists_word`), and so is whatever is looked for by such words. Where
no comment and no element can be read, none can be read after the pass
(`read?_enclosure_word_of_keepsWords`, `read?_of_keepsWords`).
-/

namespace HtmlMinifier.Text

/-- The pass changes gaps only, and leaves none of them out. -/
structure KeepsWords (F : Text → Text) : Prop where
  nil : F [] = []
  ne_nil : ∀ {R}, AllBlank R → R ≠ [] → F R ≠ []
  allBlank : ∀ {R}, AllBlank R → AllBlank (F R)
  append_cons : ∀ {u v : Text} {c : Char}, isBlank c = false →
    F (u ++ c :: v) = F u ++ c :: F v

namespace KeepsWords

variable {F : Text → Text} {s u v w k l U V : Text} {c : Char}

theorem cons (h : KeepsWords F) (hc : isBlank c = false) :
    F (c :: v) = c :: F v := by
  have hcut := h.append_cons (u := []) (v := v) hc
  rw [h.nil] at hcut
  exact hcut

theorem word_append (h : KeepsWords F) (hw : Unbroken w) :
    F (w ++ v) = w ++ F v := by
  induction w with
  | nil => rfl
  | cons c w ih =>
      obtain ⟨hc, hw⟩ := unbroken_cons.1 hw
      rw [List.cons_append, h.cons hc, ih hw]
      rfl

theorem append_word (h : KeepsWords F) (hne : w ≠ []) (hw : Unbroken w) :
    F (u ++ (w ++ v)) = F u ++ (w ++ F v) := by
  cases w with
  | nil => exact absurd rfl hne
  | cons c w =>
      obtain ⟨hc, hw⟩ := unbroken_cons.1 hw
      rw [List.cons_append, h.append_cons hc, h.word_append hw]
      rfl

theorem append_unbroken (h : KeepsWords F) (hw : Unbroken w) :
    F (u ++ w) = F u ++ w := by
  by_cases hne : w = []
  · rw [hne, List.append_nil, List.append_nil]
  · have hword := h.append_word (u := u) (v := []) hne hw
    rw [h.nil, List.append_nil] at hword
    exact hword

/-! ## Words in what a pass leaves -/

theorem eq_nil (h : KeepsWords F) (hs : F s = []) : s = [] := by
  rcases allBlank_or_exists s with hR | ⟨R, c, t, rfl, -, hc⟩
  · by_contra hne
    exact h.ne_nil hR hne hs
  · rw [h.append_cons hc] at hs
    cases (List.append_eq_nil_iff.1 hs).2

theorem exists_cons (h : KeepsWords F) (hc : isBlank c = false) (s : Text) :
    ∀ {U : Text}, F s = U ++ c :: V → ∃ u v, s = u ++ c :: v ∧ F u = U ∧ F v = V := by
  induction s using gap_induction with
  | blanks R hR =>
      intro U e
      have hblank := h.allBlank hR
      rw [e] at hblank
      exact absurd (List.mem_append_right _ List.mem_cons_self) (hblank.not_mem hc)
  | cons R d s hR hd ih =>
      intro U e
      rw [h.append_cons hd] at e
      rcases allBlank_or_exists U with hU | ⟨P, a, W, rfl, hP, ha⟩
      · obtain ⟨rfl, rfl, rfl⟩ := gap_unique (h.allBlank hR) hU hd hc e
        exact ⟨R, s, rfl, rfl, rfl⟩
      · rw [List.append_assoc, List.cons_append] at e
        obtain ⟨rfl, rfl, hs⟩ := gap_unique (h.allBlank hR) hP hd ha e
        obtain ⟨u, v, rfl, rfl, hv⟩ := ih hs
        exact ⟨R ++ d :: u, v, by simp, h.append_cons hd, hv⟩

/-- Where the pass leaves a word, the text has it. -/
theorem exists_word (h : KeepsWords F) (hw : Unbroken w) : ∀ {s U : Text},
    w ≠ [] → F s = U ++ (w ++ V) →
      ∃ u v, s = u ++ (w ++ v) ∧ F u = U ∧ F v = V := by
  induction w with
  | nil => intro s U hne; exact absurd rfl hne
  | cons c w ih =>
      intro s U _ e
      obtain ⟨hc, hw⟩ := unbroken_cons.1 hw
      obtain ⟨u, t, rfl, hu, ht⟩ := h.exists_cons hc s e
      by_cases hne : w = []
      · subst hne
        exact ⟨u, t, rfl, hu, ht⟩
      · obtain ⟨p, v, rfl, hp, hv⟩ := ih hw hne (s := t) (U := []) ht
        rw [h.eq_nil hp]
        exact ⟨u, v, rfl, hu, hv⟩

theorem infix_iff (h : KeepsWords F) (hne : w ≠ []) (hw : Unbroken w) :
    w <:+: F s ↔ w <:+: s := by
  constructor
  · rintro ⟨U, V, e⟩
    rw [List.append_assoc] at e
    obtain ⟨u, v, rfl, -, -⟩ := h.exists_word hw hne e.symm
    exact List.infix_append' u w v
  · rintro ⟨u, v, rfl⟩
    rw [List.append_assoc, h.append_word hne hw]
    exact List.infix_append' _ w _

theorem mem_iff (h : KeepsWords F) (hc : isBlank c = false) : c ∈ F s ↔ c ∈ s := by
  rw [← List.singleton_infix_iff, ← List.singleton_infix_iff]
  exact h.infix_iff (List.cons_ne_nil c []) (unbroken_cons.2 ⟨hc, fun _ h => nomatch h⟩)

theorem infix_append_dropLast (h : KeepsWords F) (hne : k ≠ []) (hk : Unbroken k) :
    k <:+: F s ++ k.dropLast ↔ k <:+: s ++ k.dropLast := by
  have hdrop : Unbroken k.dropLast :=
    fun c hc => hk c ((List.dropLast_prefix k).subset hc)
  rw [← h.append_unbroken hdrop, h.infix_iff hne hk]

/-- The same of words that are looked for with case folded away. -/
theorem infix_map_foldCase_iff (h : KeepsWords F) (hne : l ≠ []) (hl : Unbroken l) :
    l <:+: (F s).map foldCase ↔ l <:+: s.map foldCase := by
  rw [List.infix_map_iff, List.infix_map_iff]
  refine exists_congr fun m => and_congr_left fun hm => ?_
  refine h.infix_iff (fun hnil => hne ?_)
    (Element.unbroken_of_map_foldCase hm.symm hl)
  rw [hm, hnil]
  rfl

end KeepsWords

end HtmlMinifier.Text

namespace HtmlMinifier

open Text

variable {F : Text → Text} {b : Bool}

/-! ## Enclosures and elements

What can be read at the head of a text after the pass could be read there before
it, be it an enclosure of fixed words or an element. -/

namespace Pattern

theorem read?_enclosure_word_of_keepsWords {l k s : Text} {hl : l ≠ []}
    (hF : KeepsWords F) (hk : k ≠ []) (hlu : Unbroken l) (hku : Unbroken k)
    (h : (enclosure (.word l hl) (.exact k)).read? b s = none) :
    (enclosure (.word l hl) (.exact k)).read? b (F s) = none := by
  refine Option.eq_none_iff_forall_ne_some.2 fun o ho => ?_
  obtain ⟨B, r, -, hs, habsent⟩ := (read?_enclosure_word_eq_some_iff hk).1 ho
  obtain ⟨u, v, rfl, hu, hv⟩ := hF.exists_word (U := []) hlu hl hs
  obtain ⟨C, q, rfl, rfl, -⟩ := hF.exists_word hku hk hv
  obtain rfl := hF.eq_nil hu
  rw [hF.infix_append_dropLast hk hku] at habsent
  have hsome : (enclosure (.word l hl) (.exact k)).read? b
      ([] ++ (l ++ (C ++ (k ++ q)))) = some ⟨l, C, k⟩ :=
    (read?_enclosure_word_eq_some_iff hk).2 ⟨C, q, rfl, rfl, habsent⟩
  exact absurd (h.symm.trans hsome) (by simp)

end Pattern

namespace Element

variable {e : Element} {s : Text}

theorem unbroken_tagStart (e : Element) : Unbroken ('<' :: e.name) := by
  cases e <;> simp [Unbroken, name, isBlank]

theorem read?_of_keepsWords (hF : KeepsWords F) (h : e.pattern.read? b s = none) :
    e.pattern.read? b (F s) = none := by
  refine Option.eq_none_iff_forall_ne_some.2 fun o ho => ?_
  obtain ⟨m, A, r, hs, -, hm, hA, hB, hk⟩ := exists_of_read? ho
  have hmne : m ≠ [] := fun hnil => by rw [hnil] at hm; cases hm
  have hkne : o.closing ≠ [] := fun hnil => by rw [hnil] at hk; cases hk
  have hmu := unbroken_of_map_foldCase hm e.unbroken_tagStart
  have hku := unbroken_of_map_foldCase hk e.unbroken_closingTag
  obtain ⟨u, t, rfl, hu, ht⟩ := hF.exists_word (U := []) hmu hmne hs
  obtain ⟨A', v, rfl, rfl, hv⟩ := hF.exists_cons (by decide) t ht
  obtain ⟨B, q, rfl, hBF, -⟩ := hF.exists_word hku hkne hv
  obtain rfl := hF.eq_nil hu
  rw [hF.mem_iff (by decide)] at hA
  have hne : e.closingTag ≠ [] := List.cons_ne_nil _ _
  rw [← hBF, hF.infix_map_foldCase_iff hne e.unbroken_closingTag] at hB
  have hsome := read?_element (b := b) (r := q) hm hA hB hk
  exact absurd (h.symm.trans hsome) (by simp)

end Element

end HtmlMinifier
