import HtmlMinifier.Text.Enclosure

/-!
# Style and script elements

The content of a style or script element has rules of its own. The element runs from an opening
tag, in capital or small letters, to the next closing tag of that name, whatever stands between.
The opening tag is known by how it starts: anything up to the next `>` may follow the name, a hyphen
and more letters too. Once its content has been treated, the element is written with bare tags in
small letters, so attributes are lost.
-/

namespace HtmlMinifier

/-- The elements with content of their own. -/
inductive Element where
  | style
  | script
deriving DecidableEq, Repr

namespace Element

/-- The name of an element, in small letters. -/
def name : Element → Text
  | style => ['s', 't', 'y', 'l', 'e']
  | script => ['s', 'c', 'r', 'i', 'p', 't']

/-- The bare opening tag. -/
def openingTag (e : Element) : Text := '<' :: e.name ++ ['>']

/-- The closing tag. -/
def closingTag (e : Element) : Text := '<' :: '/' :: e.name ++ ['>']

/-- The start of an opening tag, in capital or small letters. -/
def tagStart (e : Element) : Word := .caseless ('<' :: e.name)

/-- Divides a text after its first `>`. -/
def afterTag? (s : Text) : Option (Text × Text) :=
  match s.dropWhile (· != '>') with
  | [] => none
  | c :: r => some (s.takeWhile (· != '>') ++ [c], r)

theorem afterTag?_eq_some_iff {s a r : Text} :
    afterTag? s = some (a, r) ↔ ∃ u : Text, '>' ∉ u ∧ a = u ++ ['>'] ∧ a ++ r = s := by
  rw [afterTag?]
  constructor
  · intro h
    split at h
    next => cases h
    next c q hq =>
      simp only [Option.some.injEq, Prod.mk.injEq] at h
      obtain ⟨rfl, rfl⟩ := h
      have hc : c = '>' := by
        have := List.head?_dropWhile_not (· != '>') s
        rw [hq] at this
        simpa using this
      subst hc
      refine ⟨s.takeWhile (· != '>'), ?_, rfl, ?_⟩
      · intro hm
        have := List.all_takeWhile (p := (· != '>')) (l := s)
        rw [List.all_eq_true] at this
        simpa using this _ hm
      · rw [List.append_assoc, List.singleton_append, ← hq, List.takeWhile_append_dropWhile]
  · rintro ⟨u, hu, rfl, rfl⟩
    have hall : ∀ c ∈ u, (c != '>') = true := by
      intro c hc
      simp only [bne_iff_ne, ne_eq]
      rintro rfl
      exact hu hc
    rw [List.append_assoc, List.singleton_append, List.dropWhile_append_of_pos hall,
      List.takeWhile_append_of_pos hall]
    simp

theorem afterTag?_eq_none_iff {s : Text} : afterTag? s = none ↔ '>' ∉ s := by
  rw [afterTag?]
  split
  next h =>
    have hall := List.takeWhile_append_dropWhile (p := (· != '>')) (l := s)
    rw [h, List.append_nil] at hall
    simp only [true_iff]
    intro hm
    have := List.all_takeWhile (p := (· != '>')) (l := s)
    rw [hall, List.all_eq_true] at this
    simpa using this _ hm
  next c r h =>
    simp only [reduceCtorEq, false_iff, Classical.not_not]
    have hc : c = '>' := by
      have := List.head?_dropWhile_not (· != '>') s
      rw [h] at this
      simpa using this
    subst hc
    exact (List.dropWhile_suffix _).subset (h ▸ List.mem_cons_self)

/-- Reads an opening tag up to and with its first `>`. -/
def opener (e : Element) : Opener where
  starts := e.tagStart.heads
  read? s := if e.tagStart.heads s then afterTag? s else none
  append_eq h := by
    split at h
    next => exact (afterTag?_eq_some_iff.1 h).choose_spec.2.2
    next => cases h
  ne_nil h := by
    split at h
    next =>
      obtain ⟨u, -, rfl, -⟩ := afterTag?_eq_some_iff.1 h
      simp
    next => cases h
  rest_suffix {s t a r b q} h ht h' := by
    split at h
    next =>
      split at h'
      next =>
        obtain ⟨u, hu, rfl, rfl⟩ := afterTag?_eq_some_iff.1 h
        obtain ⟨v, hv, rfl, rfl⟩ := afterTag?_eq_some_iff.1 h'
        have hq : q <:+ u ++ ['>'] ++ r := List.IsSuffix.trans ⟨_, rfl⟩ ht
        refine List.suffix_of_suffix_length_le hq ⟨_, rfl⟩ ?_
        apply Nat.le_of_not_lt
        intro hlt
        obtain ⟨w, hw⟩ := hq
        have hr : r <:+ q :=
          List.suffix_of_suffix_length_le ⟨_, rfl⟩ ⟨w, hw⟩ (Nat.le_of_lt hlt)
        obtain ⟨x, rfl⟩ := hr
        obtain ⟨y, hy⟩ := ht
        have hmem : '>' ∈ u := by
          have e : y ++ v ++ ['>'] ++ x = u ++ ['>'] := by
            have e' : (y ++ v ++ ['>'] ++ x) ++ r = (u ++ ['>']) ++ r := by
              simpa [List.append_assoc] using hy
            exact List.append_cancel_right e'
          have hx : x ≠ [] := by
            rintro rfl
            simp at hlt
          rw [List.append_assoc (y ++ v), ← List.dropLast_concat_getLast hx] at e
          simp only [← List.append_assoc] at e
          have := (List.append_inj' e rfl).1
          rw [← this]
          simp
        exact hu hmem
      next => cases h'
    next => cases h
  none_of_suffix hs h ht := by
    rw [if_pos hs, afterTag?_eq_none_iff] at h
    split
    next => exact afterTag?_eq_none_iff.2 fun hm => h (ht.subset hm)
    next => rfl

/-- An element with its content. -/
def pattern (e : Element) : Pattern := .enclosure e.opener (.caseless e.closingTag)

/-- Writes an element with the given content. -/
def wrap (e : Element) (content : Text) : Text := e.openingTag ++ content ++ e.closingTag

/-- Treats the content of every such element of the text by `f`. -/
def mapContent (e : Element) (f : Text → Text) : Text → Text :=
  e.pattern.replaceWith fun o => e.wrap (f o.inner)

end Element

end HtmlMinifier
